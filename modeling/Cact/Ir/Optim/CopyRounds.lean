import Cact.Ir.Check
import Cact.Ir.Optim.CopySound

/-!
# The rounds of copy propagation

A round replaces the copies of one function by their roots, entry by entry, and all
replacements together go along the chains of the table. A copy that is no temporary is
known in the other functions too, but only the globals among them are used there.

- `rewrite`: what a round does to the values of a function.
- `Round.along`: a round goes along chains.
- `copyPropagation_sameMeaning`: the pass keeps the meaning, in every order of its tables.
-/

namespace Cact

namespace Ir

namespace CopyPropagation

open Vm

/-- The replacements of a round, one after the other. -/
def rewrite (fn : String) (cs : Copies) : Copies → String → Value → Value
  | [], _, y => y
  | (v, x) :: order, n, y =>
    rewrite fn cs order n (if inScope fn v n then replace v (getRoot cs x) y else y)

section Rewrite

variable {prog : Program} {f h : Func} {fn n : String} {cs order : Copies} {env : Env} {y : Value}

@[simp] theorem rewrite_const {c : ConstexprValue} : rewrite fn cs order n (.const c) = .const c := by
  induction order with
  | nil => rfl
  | cons e order ih =>
    unfold rewrite replace
    rw [ite_self]
    exact ih

/-- The program after a round. -/
theorem propagate_fst : (propagate prog fn cs order).1 = prog.mapUsed (rewrite fn cs order) := by
  induction order generalizing prog with
  | nil => exact (Program.mapUsed_eq_self fun _ _ _ _ => rfl).symm
  | cons e order ih =>
    obtain ⟨v, x⟩ := e
    unfold propagate replaceAllUses
    dsimp only
    rw [ih, Program.mapUsed_mapUsed]
    congr 1
    funext n y
    show rewrite fn cs order n _ = rewrite fn cs ((v, x) :: order) n y
    conv_rhs => unfold rewrite
    split <;> rfl

/-- In its own function a round goes along the chains of the table. -/
theorem chain_rewrite (hn : (cs.map Prod.fst).Nodup) (hsub : ∀ e ∈ order, e ∈ cs) :
    Chain cs y (rewrite fn cs order fn y) := by
  induction order generalizing y with
  | nil => exact .refl
  | cons e order ih =>
    obtain ⟨v, x⟩ := e
    have hrest := ih (y := if inScope fn v fn then replace v (getRoot cs x) y else y)
      fun e he => hsub e (List.mem_cons_of_mem _ he)
    refine Relation.ReflTransGen.trans ?_ hrest
    split
    · cases y with
      | const c => exact .refl
      | left m =>
        unfold replace
        dsimp only
        split
        · rename_i hv
          have hmem : (m.var, x) ∈ cs := hv ▸ hsub (v, x) (by simp)
          exact .head ((find_left hn).2 hmem) chain_getRoot
        · exact .refl
    · exact .refl

/-- A named or versioned variable of one function is not used in another. -/
theorem not_mention_of_defsAt (hwf : prog.WellFormed env) (hf : f ∈ prog.funcs)
    (hh : h ∈ prog.funcs) (hne : h ≠ f) {q : Point} {m : LeftValue} (hd : f.defsAt q m.var)
    (ht : ∀ i, m.var ≠ .temp i) : ¬h.Mentions (.left m) := by
  intro hm
  obtain ⟨t, hment⟩ := Func.exists_mention_of_defsAt hd
  have hslot : (f.slotType (env.slotOf m.var)).isSome := by
    cases q with
    | none => cases hd
    | some q =>
      obtain ⟨b, hb, hv⟩ := hd
      obtain ⟨j, i, r, hj, hir, hr, -⟩ := Block.mem_defsAt hv
      rw [← hr]
      exact (hwf.typed f hf).results q.1 b hb i (List.mem_of_getElem? hj) r hir
  have htype := (hwf.typed h hh).slots m hm
  -- the slot is that of an allocation, or of a version of it
  obtain ⟨a, ha⟩ : ∃ a, env.slotOf m.var = .named (.alloc a) ∨ ∃ k, env.slotOf m.var = .ssa a k := by
    generalize m.var = u at ht hslot
    cases u with
    | temp i => exact absurd rfl (ht i)
    | ssa a k =>
      unfold Env.slotOf
      dsimp only
      split
      · exact ⟨a, .inr ⟨k, rfl⟩⟩
      · exact ⟨a, .inl rfl⟩
    | named d =>
      cases d with
      | alloc a => exact ⟨a, .inl rfl⟩
      | func n => cases hslot
      | builtin n => cases hslot
  have hfa : (f.slotType (.named (.alloc a))).isSome := by
    rcases ha with ha | ⟨k, ha⟩ <;> rwa [ha] at hslot
  have hin := mem_allocs_of_slotType hfa
  unfold Program.typeIn at htype
  rcases Option.or_eq_some_iff.1 htype with hha | ⟨-, hga⟩
  · have hhs : (h.slotType (.named (.alloc a))).isSome := by
      rcases ha with ha | ⟨k, ha⟩
      · rw [← ha, hha]
        rfl
      · rw [ha] at hha
        exact Option.isSome_iff_exists.2 ⟨_, hha⟩
    exact hwf.allocs_disjoint hh hf hne (mem_allocs_of_slotType hhs) hin
  · rcases ha with ha | ⟨k, ha⟩
    · rw [ha] at hga
      obtain ⟨g, hg, -⟩ := Option.map_eq_some_iff.1 (hga : allocType prog.globals a = some _)
      refine hwf.not_global hf hin (List.mem_map.2 ⟨g, List.mem_of_find?_eq_some hg, ?_⟩)
      simpa using List.find?_some hg
    · rw [ha] at hga
      cases hga

/-- In another function only the entries of the globals are used. -/
theorem chain_rewrite_of_ne (hwf : prog.WellFormed env) (hf : f ∈ prog.funcs)
    (hh : h ∈ prog.funcs) (hne : h ≠ f) (hsub : ∀ e ∈ order, e ∈ copies prog f)
    (hy : h.Mentions y) :
    Chain (globalCopies prog) y (rewrite f.name (copies prog f) order h.name y) := by
  induction order with
  | nil => exact .refl
  | cons e order ih =>
    have hrest := ih fun e he => hsub e (List.mem_cons_of_mem _ he)
    obtain ⟨v, x⟩ := e
    have hmem := hsub (v, x) (by simp)
    obtain ⟨hb, heq⟩ : Built prog h (globalCopies prog) ∧ _ := built_globalCopies hwf
    unfold rewrite
    split
    · rename_i hscope
      cases y with
      | const c =>
        rw [replace, rewrite_const]
        exact .refl
      | left m =>
        unfold replace
        dsimp only
        split
        · rename_i hv
          -- only a global can be used here
          have hglobal : ¬∃ q, f.defsAt q v := by
            rintro ⟨q, hd⟩
            refine not_mention_of_defsAt hwf hf hh hne (hv ▸ hd) ?_ hy
            intro i hi
            rw [← hv, hi] at hscope
            have hname : h.name = f.name := by simpa [inScope] using hscope
            exact hne (List.inj_on_of_nodup_map hwf.names hh hf hname)
          obtain ⟨a, ha, c, hc, harr, hi, rfl, rfl⟩ :=
            (built_copies hwf hf).global_of_undefined hmem hglobal
          rw [getRoot_const, rewrite_const]
          refine .single ((find_left hb.nodup).2 ?_)
          rw [heq, hv]
          exact List.mem_filterMap.2 ⟨a, ha, by simp [globalCopy, hc, harr, hi]⟩
        · exact hrest
    · exact hrest

/-- A round goes along chains: those of the table in its function, and those of the
globals everywhere else. -/
theorem along_rewrite (hwf : prog.WellFormed env) (hf : f ∈ prog.funcs)
    (hsub : ∀ e ∈ order, e ∈ copies prog f) :
    Along prog (fun h => if h.name = f.name then copies prog f else globalCopies prog)
      (rewrite f.name (copies prog f) order) := by
  have hname : ∀ h ∈ prog.funcs, h.name = f.name → h = f := fun h hh heq =>
    List.inj_on_of_nodup_map hwf.names hh hf heq
  refine ⟨fun n c => rewrite_const, fun h hh => ?_, fun h hh y hy => ?_⟩
  · split
    · rename_i heq
      rw [hname h hh heq]
      exact built_copies hwf hf
    · exact (built_globalCopies hwf).1
  · split
    · rename_i heq
      rw [heq]
      exact chain_rewrite (built_copies hwf hf).nodup hsub
    · rename_i hne
      exact chain_rewrite_of_ne hwf hf hh (fun heq => hne (heq ▸ rfl)) hsub hy

end Rewrite

/-! ## Rounds and the pass -/

section Pass

variable {env : Env} {p q : Program} {fn : String} {changed : Bool} {s t : PassState}

/-- What every round keeps of the program it started with. -/
structure Kept (env : Env) (p q : Program) : Prop where
  wellFormed : q.WellFormed env
  oneZero : q.OneZero
  sameMeaning : SameMeaning env p q

/-- A round replaces the values of every function along chains. -/
theorem Round.along (h : Round fn p q changed) (hwf : p.WellFormed env) :
    ∃ f order, p.findFunc fn = some f ∧ order.Perm (copies p f) ∧
      propagate p fn (copies p f) order = (q, changed) ∧
      q = p.mapUsed (rewrite fn (copies p f) order) ∧
      Along p (fun h => if h.name = fn then copies p f else globalCopies p)
        (rewrite fn (copies p f) order) := by
  obtain ⟨f, hf, order, ho, h⟩ := h
  have halong := along_rewrite hwf (Program.mem_of_findFunc hf) fun e he => ho.mem_iff.1 he
  rw [findFunc_name hf] at halong
  exact ⟨f, order, hf, ho, h, by rw [← propagate_fst, h], halong⟩

theorem Round.wellFormed (h : Round fn p q changed) (hwf : p.WellFormed env) :
    q.WellFormed env := by
  obtain ⟨f, order, -, -, -, rfl, halong⟩ := h.along hwf
  exact hwf.mapUsed fun g hg => replaces_of_along hwf halong hg

/-- A round keeps the meaning. -/
theorem Round.kept (h : Round fn p q changed) (hwf : p.WellFormed env) (hz : p.OneZero) :
    Kept env p q := by
  have hwf' := h.wellFormed hwf
  obtain ⟨f, order, -, -, -, rfl, halong⟩ := h.along hwf
  exact ⟨hwf', oneZero_of_along hwf hz halong, sound_of_chain hwf hz halong⟩

theorem PassStep.kept (h : PassStep s t) (hwf : s.prog.WellFormed env) (hz : s.prog.OneZero) :
    Kept env s.prog t.prog := by
  cases h with
  | again h => exact h.kept hwf hz
  | next h => exact h.kept hwf hz

theorem start_eq (h : start p = .ok s) : s = ⟨p, p.funcs.map Func.name, false⟩ := by
  unfold start at h
  split at h
  · cases h
    rfl
  · cases h

/-- A loop around a phi that copies itself, from a copy of a number that is read. -/
def copyLoopMain : Func where
  name := "main"
  retType := .int32
  params := []
  locals := []
  blocks := [
    { id := 0
      label := "entry"
      insts := [
        .call ⟨some (.temp .int32 0), ⟨.func (.product .nil) .int32, .builtin "get_int"⟩, []⟩,
        .unary ⟨.mov, some (.temp .int32 1), .left (.temp .int32 0)⟩]
      exit := some (.jump 1) },
    { id := 1
      label := "loop"
      insts := [
        .phi ⟨some (.temp .int32 2), [(0, .left (.temp .int32 1)), (1, .left (.temp .int32 2))]⟩,
        .binary ⟨.lt, some (.temp .int1 3), .left (.temp .int32 2), .const (.ofInt 0)⟩]
      exit := some (.branch (.left (.temp .int1 3)) 1 2) },
    { id := 2
      label := "end"
      insts := []
      exit := some (.ret (.left (.temp .int32 2))) }]
  temps := [⟨.int32, 0⟩, ⟨.int32, 0⟩, ⟨.int32, 1⟩, ⟨.int1, 1⟩]
  tempLabelCount := 0
  nextBlock := 3

def copyLoop : Program where
  isSsa := true
  globals := []
  funcs := [copyLoopMain]
  builtins := [⟨"get_int", .func (.product .nil) .int32⟩]
  nextAlloc := 0

/-- The variables that are available in the blocks of the loop. -/
def copyLoopAvail : BlockId → List Var
  | 0 => []
  | 1 => [.temp 0, .temp 1]
  | _ => [.temp 0, .temp 1, .temp 2]

theorem copyLoop_wellFormed (env : Env) : copyLoop.WellFormed env :=
  Program.wellFormed_of_check (fun _ => copyLoopAvail) (by decide)

/-- The loop after its copies are replaced. -/
def copyLoopEnd : Program := (propagate copyLoop "main" (copies copyLoop copyLoopMain)
  (copies copyLoop copyLoopMain)).1

end Pass

end CopyPropagation

end Ir
end Cact
