import Cact.Ir.Analysis.Dominance
import Cact.Ir.Moves

/-!
# What is available down the dominance tree

A path to the start of a block passes through all blocks that dominate it, and leaves each of
them at its end. So whatever is available at the end of a block is available at the start of
the blocks it dominates, and what is available in front of an instruction is available behind
it. These are the steps of a walk down the dominance tree.

- `Func.Settles`: everything that is available at one point is available at another.
- `settles_succ`, `settles_dominates`: the steps of the walk.
- `Func.Connected`: control can reach the end of every block.
- `not_avail_before`: then a variable is not available before it is defined.
-/

namespace Cact

namespace Ir

/-- Control can reach the end of every block. -/
def Func.Connected (f : Func) : Prop :=
  ∀ id b, f.block? id = some b → f.graph.Reach (some (id, b.insts.length))

namespace Func

variable {f : Func} {e b : Block} {id : BlockId} {k : Nat} {i : Inst} {v w : Var}
  {p q r : BlockId × Nat}

/-- Everything that is available at one point is available at the other. -/
def Settles (f : Func) (p q : BlockId × Nat) : Prop :=
  ∀ v, f.graph.Avail v (some p) → f.graph.Avail v (some q)

theorem Settles.refl : f.Settles p p := fun _ h => h

theorem Settles.trans (h : f.Settles p q) (h' : f.Settles q r) : f.Settles p r :=
  fun v hv => h' v (h v hv)

theorem Settles.ready (h : f.Settles p q) (hv : f.graph.Ready v (some p)) :
    f.graph.Ready v (some q) := fun hd => h v (hv hd)

/-! ## Inside of a block -/

/-- Behind the phis, a point is reached from the one in front of it. -/
theorem edge_succ (hb : f.block? id = some b) (hk : b.phis.length ≤ k) {p : Point}
    (he : f.Edge p (some (id, k + 1))) : p = some (id, k) := by
  generalize hq : (some (id, k + 1) : Point) = q at he
  cases he with
  | call hc hp =>
    have hzero := congrArg Prod.snd (Option.some.inj hq)
    simp at hzero
  | inst hc hi hp =>
    obtain ⟨rfl, hj⟩ := Prod.mk.inj (Option.some.inj hq)
    rw [Nat.succ.inj hj]
  | jump hc ht hc' =>
    obtain ⟨rfl, hj⟩ := Prod.mk.inj (Option.some.inj hq)
    cases hb.symm.trans hc'
    omega

theorem settles_succ (hb : f.block? id = some b) (hk : b.phis.length ≤ k) :
    f.Settles (id, k) (id, k + 1) := by
  intro v hv hm
  generalize hq : (some (id, k + 1) : Point) = q at hm
  cases hm with
  | entry => cases hq
  | step hp he _ =>
    rw [← hq] at he
    rw [edge_succ hb hk he] at hp
    exact hv hp

theorem avail_of_defsAt (hd : f.defsAt (some p) v) : f.graph.Avail v (some p) := by
  intro hm
  generalize hq : (some p : Point) = q at hm
  cases hm with
  | entry => cases hq
  | step _ _ hn =>
    rw [← hq] at hn
    exact hn hd

/-- The result of an instruction is available behind it. -/
theorem avail_result {r : LeftValue} (hb : f.block? id = some b) (hi : b.insts[k]? = some i)
    (hp : i.isPhi = false) (hr : i.definedVar = some r) : f.graph.Avail r.var (some (id, k + 1)) := by
  refine avail_of_defsAt ⟨b, hb, ?_⟩
  rw [Block.defsAt_inst hi hp, hr]
  simp

/-! ## From block to block -/

/-- A path without `v` to a point of a block goes through other blocks to their ends. -/
theorem walk_of_misses (he : f.entrance = some e) {p : Point} (hm : f.graph.Misses v p) :
    ∀ id k, p = some (id, k) → ∃ t, Walk f.BlockEdge e.id id (id :: t) ∧
      ∀ d ∈ t, ∃ c, f.block? d = some c ∧ f.graph.Misses v (some (d, c.insts.length)) := by
  induction hm with
  | entry => rintro id k ⟨⟩
  | @step p q hm hpq hn ih =>
    rintro id k rfl
    generalize hq : (some (id, k) : Point) = q at hpq
    cases hpq with
    | call hc _ =>
      cases he.symm.trans hc
      cases hq
      exact ⟨[], .nil, nofun⟩
    | @inst id' c j i hc hi hp =>
      cases hq
      exact ih id j rfl
    | @jump src t c d hc ht hd =>
      cases hq
      obtain ⟨l, hl, hall⟩ := ih src c.insts.length rfl
      obtain ⟨hmem, hid⟩ := mem_of_block? hc
      refine ⟨src :: l, hl.snoc ⟨c, hmem, hid, ht⟩, fun x hx => ?_⟩
      rcases List.mem_cons.1 hx with rfl | hx
      · exact ⟨c, hc, hm⟩
      · exact hall x hx

/-- What is available at the end of a block is available in the blocks it dominates. -/
theorem settles_dominates (he : f.entrance = some e) (hb : f.block? id = some b) {t : BlockId}
    (hd : StrictlyDominates f.BlockEdge e.id id t) (k : Nat) :
    f.Settles (id, b.insts.length) (t, k) := by
  intro v hv hm
  obtain ⟨l, hl, hall⟩ := walk_of_misses he hm t k rfl
  rcases List.mem_cons.1 (hd.2 _ hl) with heq | hmem
  · exact hd.1 heq
  · obtain ⟨c, hc, hmiss⟩ := hall id hmem
    cases hb.symm.trans hc
    exact hv hmiss

/-! ## Connected functions -/

/-- Whoever is at an instruction has passed those between the phis and it. -/
theorem reach_of_le {k n : Nat} (hb : f.block? id = some b) (hk : b.phis.length ≤ k) (hkn : k ≤ n)
    (h : f.graph.Reach (some (id, n))) : f.graph.Reach (some (id, k)) := by
  induction n with
  | zero =>
    cases Nat.le_zero.1 hkn
    exact h
  | succ n ih =>
    rcases Nat.lt_or_ge n k with hlt | hge
    · rw [show k = n + 1 by omega]
      exact h
    · cases h with
      | @step p _ hp he =>
        generalize hq : (some (id, n + 1) : Point) = q at he
        cases he with
        | call hb' hp' => cases hq
        | inst hb' hi =>
          cases hq
          exact ih hge hp
        | @jump _ _ c b' hc ht hb' =>
          obtain ⟨rfl, hlen⟩ := Prod.mk.inj (Option.some.inj hq)
          cases hb.symm.trans hb'
          omega

/-- No variable is available where it is about to be defined. -/
theorem not_avail_before {k : Nat} {i : Inst} {r : LeftValue} (hs : f.Ssa)
    (hb : f.block? id = some b) (hi : b.insts[k]? = some i) (hp : i.isPhi = false)
    (hr : i.definedVar = some r) (hreach : f.graph.Reach (some (id, k))) :
    ¬f.graph.Avail r.var (some (id, k)) := by
  have hd : f.defsAt (some (id, k + 1)) r.var := (Vm.defsAt_inst_iff hb hi hp).2 ⟨r, hr, rfl⟩
  have hstep : f.Edge (some (id, k)) (some (id, k + 1)) := .inst hb hi hp
  obtain ⟨p, hm, he⟩ := (hreach.step hstep).misses_before (hs.unique _) hd
  rcases hs.edge_defines he hd hb (List.mem_of_getElem? hi) hr with
    ⟨k', hk', -, rfl, hq⟩ | ⟨ph, -, -, hph, -⟩
  · cases hq
    exact fun h => h hm
  · rw [hph] at hp
    cases hp

end Func

end Ir
end Cact
