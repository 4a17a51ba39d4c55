import Cact.Ir.Runs

/-!
# Laws between the slots of a function

In SSA form, what the definition of a variable establishes about its slot and the slots
it reads goes on to hold wherever the variable is available. The laws of a function are
therefore an invariant of its moves, once each of them holds where its variable is defined.

- `SlotLaw`: a law about the slot of a variable and the slots of its operands.
- `flow_of_laws`: the invariant of runs.
-/

namespace Cact

namespace Ir

namespace Vm

/-- The slot of a variable has not changed. -/
def SameSlot (env : Env) (sc sc' : Scope) (v : Var) : Prop := sc'.get env v = sc.get env v

/-- Something a definition establishes about the slots of a frame. -/
abbrev SlotLaw (env : Env) (f : Func) := DefGraph.Law f.graph Scope (SameSlot env)

section Flow

variable {env : Env} {prog : Program} {good : String → BlockId → BlockId → Prop} {G : Slots}

/-- The laws hold wherever their variables are available. -/
def Holds (laws : ∀ f : Func, SlotLaw env f → Prop) (f : Func) (p : BlockId × Nat) (sc : Scope) :
    Prop := ∀ l, laws f l → f.graph.Avail l.var (some p) → l.holds sc

/-- Nothing is available at the entry. -/
theorem not_avail_entry {f : Func} {b : Block} (hb : f.entrance = some b) (hp : b.phis = [])
    (v : Var) : ¬f.graph.Avail v (some (b.id, 0)) := by
  have hcall := Func.Edge.call hb hp
  have hnone : ¬f.defsAt (some (b.id, 0)) v := by
    have hlen : b.phis.length = 0 := by rw [hp]; rfl
    rw [← hlen, defsAt_phis_iff (Func.block?_entrance hb), hp]
    simp
  exact fun h => h (.step .entry hcall hnone)

/-- Laws that hold where their variables are defined hold along every run. -/
theorem flow_of_laws {laws : ∀ f : Func, SlotLaw env f → Prop} (hwf : prog.WellFormed env)
    (hG : G.Typed prog.slotType)
    (hm : ∀ f ∈ prog.funcs, ∀ l, laws f l → ∀ v, v = l.var ∨ l.operands v →
      ∃ t, f.Mentions (.left ⟨t, v⟩))
    (hnew : ∀ f ∈ prog.funcs, ∀ l, laws f l → ∀ p q sc sc', f.graph.Reach (some p) →
      sc.Typed prog f → sc.globals = G → Holds laws f p sc → Moves env f p sc q sc' →
      Allowed good f p q → f.defsAt (some q) l.var → l.holds sc') :
    Flow prog good (Holds laws) G env where
  globals := hG
  entry f _ b hb hp _ _ _ l _ hav := absurd hav (not_avail_entry hb hp l.var)
  move f hf p q sc sc' hr ht hg hK hmv ha l hl hav := by
    refine l.step hr hmv.edge (fun v hv hd => ?_) (fun hd => ?_) (fun hav' => hK l hl hav') hav
    · obtain ⟨t, hment⟩ := hm f hf l hl v hv
      exact hmv.same (hwf.typed f hf) (hwf.ssa f hf) ht hment hd
    · exact hnew f hf l hl p q sc sc' hr ht hg hK hmv ha hd

end Flow

end Vm
end Ir
end Cact
