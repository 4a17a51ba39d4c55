import Cact.Ir.Analysis.Available
import Cact.Ir.Optim.CopyRounds

/-!
# Copy propagation ends where every block can be reached

A cycle of copies goes through a move whose operand is a copy of its own result, and such a
move cannot be reached: the result would have to be there before it is defined. Without a
cycle the roots are no copies themselves, so a round that changes something takes at least
one variable out of use, and none comes into use. In an unreachable block a move of a
variable to itself keeps the pass going for ever.

- `noCycle_of_connected`: no cycles of copies in a connected function.
- `usedVars`, `card_lt_of_round`: the variables in use, and what a round makes of them.
- `copyPropagation_terminates`: the pass ends, in every order of its tables.
-/

namespace Cact

namespace Ir

namespace CopyPropagation

open Vm

section Cycles

variable {env : Env} {prog : Program} {f : Func} {cs : Copies} {u v : Var}

/-- What a copy leads to is ready wherever the copy is. -/
theorem ready_of_copies (hc : ReadyCopies f cs) {p : Point}
    (h : Relation.TransGen (Copy cs) u v) (hu : f.graph.Ready u p) : f.graph.Ready v p := by
  have hstep : ∀ {a b : Var}, Copy cs a b → f.graph.Ready a p → f.graph.Ready b p := by
    rintro a _ ⟨l, hl, rfl⟩ ha
    obtain ⟨hreads, hd⟩ := hc a l hl
    exact (ha hd).operand hreads
  induction h with
  | single h => exact hstep h hu
  | tail _ h ih => exact hstep h ih

/-- Where every block can be reached no variable is a copy of itself. -/
theorem noCycle_of_connected (hs : f.Ssa) (hb : Built prog f cs) (hcon : f.Connected) :
    NoCycle cs := by
  by_contra hcyc
  obtain ⟨id, b, u, r, hbk, hi, -, -, hres, hself, hmem⟩ := hb.mov_of_cycle hcyc
  obtain ⟨k, hk⟩ := List.mem_iff_getElem?.1 hi
  have hle := Block.phis_length_le_of_get hk rfl
  have hlt := (List.getElem?_eq_some_iff.1 hk).1
  have hreach := Func.reach_of_le hbk hle hlt.le (hcon id b hbk)
  -- the operand can be read here, and it is a copy of the result
  obtain ⟨w, ⟨l, hl, rfl⟩, hrest⟩ := Relation.TransGen.head'_iff.1 hself
  have hop : u.operand = .left l := by
    have heq := ((lookup_eq_some hb.nodup).2 hmem).symm.trans ((lookup_eq_some hb.nodup).2 hl)
    exact Option.some.inj heq
  have hready : f.graph.Ready l.var (some (id, k)) :=
    hs.uses (id, k) l (.inst hbk hk rfl
      (List.mem_filterMap.2 ⟨u.operand, by simp [Inst.used], by rw [hop]; rfl⟩))
  have hready' : f.graph.Ready r.var (some (id, k)) := by
    rcases Relation.reflTransGen_iff_eq_or_transGen.1 hrest with heq | htrans
    · rw [heq]
      exact hready
    · exact ready_of_copies (hb.reads hs) htrans hready
  exact Func.not_avail_before hs hbk hk rfl hres hreach
    (hready' (Func.exists_defsAt hbk hi hres))

end Cycles

/-! ## Variables in use -/

section Uses

variable {prog : Program} {f h : Func} {fn n : String} {cs order : Copies} {v : Var} {y : Value}
  {env : Env} {T : Func → Copies} {g : String → Value → Value}

/-- The variables that a function reads. -/
def inUse (f : Func) : Finset Var := (f.operands.filterMap Value.var?).toFinset

theorem mem_inUse : v ∈ inUse f ↔ ∃ x ∈ f.operands, x.var? = some v := by
  unfold inUse
  rw [List.mem_toFinset, List.mem_filterMap]

theorem uses_iff : uses v f = true ↔ v ∈ inUse f := by
  unfold uses
  rw [mem_inUse, List.any_eq_true]
  simp

theorem var?_eq_some : y.var? = some v ↔ ∃ l, y = .left l ∧ l.var = v := by
  cases y <;> simp [Value.var?]

/-- A round leaves a value alone, or puts a root in its place. -/
theorem rewrite_cases : rewrite fn cs order n y = y ∨
    ∃ v x, (v, x) ∈ order ∧ rewrite fn cs order n y = getRoot cs x := by
  induction order generalizing y with
  | nil => exact .inl rfl
  | cons e order ih =>
    obtain ⟨v, x⟩ := e
    have hstep : (if inScope fn v n then replace v (getRoot cs x) y else y) = y ∨
        (if inScope fn v n then replace v (getRoot cs x) y else y) = getRoot cs x := by
      split
      · cases y with
        | const c => exact .inl rfl
        | left l =>
          unfold replace
          dsimp only
          split
          · exact .inr rfl
          · exact .inl rfl
      · exact .inl rfl
    unfold rewrite
    rcases ih (y := if inScope fn v n then replace v (getRoot cs x) y else y) with heq | ⟨v', x', hmem, heq⟩
    · rw [heq]
      rcases hstep with hy | hroot
      · exact .inl hy
      · exact .inr ⟨v, x, by simp, hroot⟩
    · exact .inr ⟨v', x', List.mem_cons_of_mem _ hmem, heq⟩

/-- Without cycles a root is no copy. -/
theorem root_ne_key (hn : (cs.map Prod.fst).Nodup) (hac : NoCycle cs) {x x' : Value}
    (hv : (v, x) ∈ cs) : (getRoot cs x').var? ≠ some v := by
  intro hroot
  obtain ⟨l, hl, rfl⟩ := var?_eq_some.1 hroot
  have hend := find_getRoot (x := x') hn hac
  rw [hl] at hend
  exact find_left_eq_none.1 hend (List.mem_map_of_mem hv)

/-- A copy is not in use after a round that has gone past its entry. -/
theorem rewrite_ne_key (hn : (cs.map Prod.fst).Nodup) (hac : NoCycle cs)
    (hsub : ∀ e ∈ order, e ∈ cs) {x : Value} (hv : (v, x) ∈ order)
    (hscope : inScope fn v n = true) : (rewrite fn cs order n y).var? ≠ some v := by
  induction order generalizing y with
  | nil => cases hv
  | cons e order ih =>
    have hkey : (v, x) ∈ cs := hsub _ hv
    unfold rewrite
    rcases List.mem_cons.1 hv with rfl | hv
    · -- this entry replaces the variable, and what comes after puts roots in
      rw [if_pos hscope]
      have hstep : (replace v (getRoot cs x) y).var? ≠ some v := by
        cases y with
        | const c => simp [replace, Value.var?]
        | left l =>
          unfold replace
          dsimp only
          split
          · exact root_ne_key hn hac hkey
          · rename_i hne
            simpa [Value.var?] using hne
      generalize replace v (getRoot cs x) y = z at hstep ⊢
      rcases rewrite_cases with heq | ⟨v', x', -, heq⟩
      · rw [heq]
        exact hstep
      · rw [heq]
        exact root_ne_key hn hac hkey
    · exact ih (fun e he => hsub e (List.mem_cons_of_mem _ he)) hv

/-- A round that changes something finds a copy in use. -/
theorem uses_of_changed (hn : (cs.map Prod.fst).Nodup) (hac : NoCycle cs)
    (hsub : ∀ e ∈ order, e ∈ cs) (h : (propagate prog fn cs order).2 = true) :
    ∃ v x f, (v, x) ∈ order ∧ f ∈ prog.funcs ∧ inScope fn v f.name = true ∧ v ∈ inUse f := by
  induction order generalizing prog with
  | nil => cases h
  | cons e order ih =>
    obtain ⟨v₀, x₀⟩ := e
    unfold propagate replaceAllUses at h
    dsimp only at h
    rcases Bool.or_eq_true_iff.1 h with h | h
    · obtain ⟨f, hf, hu⟩ := List.any_eq_true.1 h
      rw [Bool.and_eq_true] at hu
      exact ⟨v₀, x₀, f, by simp, hf, hu.1, uses_iff.1 hu.2⟩
    · obtain ⟨v, x, f', hmem, hf', hscope, hu⟩ := ih (fun e he => hsub e (List.mem_cons_of_mem _ he)) h
      obtain ⟨f, hf, rfl⟩ := List.mem_map.1 hf'
      refine ⟨v, x, f, List.mem_cons_of_mem _ hmem, hf, hscope, ?_⟩
      obtain ⟨z, hz, hzv⟩ := mem_inUse.1 hu
      rw [Func.operands_mapUsed] at hz
      obtain ⟨y, hy, rfl⟩ := List.mem_map.1 hz
      refine mem_inUse.2 ⟨y, hy, ?_⟩
      -- the variable was not put in by the entry before
      dsimp only at hzv
      split at hzv
      · cases y with
        | const c => cases hzv
        | left l =>
          unfold replace at hzv
          dsimp only at hzv
          split at hzv
          · exact absurd hzv (root_ne_key hn hac (hsub (v, x) (List.mem_cons_of_mem _ hmem)))
          · exact hzv
      · exact hzv

/-- No variable comes into use. -/
theorem inUse_subset (hwf : prog.WellFormed env) (ha : Along prog T g) (hf : f ∈ prog.funcs) :
    inUse (f.mapUsed (g f.name)) ⊆ inUse f := by
  intro v hv
  obtain ⟨z, hz, hzv⟩ := mem_inUse.1 hv
  rw [Func.operands_mapUsed] at hz
  obtain ⟨y, hy, rfl⟩ := List.mem_map.1 hz
  obtain ⟨l, hl, rfl⟩ := var?_eq_some.1 hzv
  have hb := ha.built f hf
  have hchain := ha.chain f hf y (Func.mentions_of_operand (hwf.ssa f hf) hy)
  rw [hl] at hchain
  rcases Relation.ReflTransGen.cases_tail hchain with rfl | ⟨w, -, hw⟩
  · exact mem_inUse.2 ⟨_, hy, rfl⟩
  · cases w with
    | const c => cases hw
    | left m => exact uses_iff.1 (hb.used ((find_left hb.nodup).1 hw))

/-- How many variables the functions read. -/
def load (prog : Program) : Nat := (prog.funcs.map fun f => (inUse f).card).sum

/-- Every round that changes something takes a variable out of use. -/
theorem load_round {p q : Program} {changed : Bool} (h : Round fn p q changed)
    (hwf : p.WellFormed env) (hcon : ∀ f ∈ p.funcs, f.Connected) :
    load q ≤ load p ∧ (changed = true → load q < load p) := by
  obtain ⟨f, order, hf, ho, hprop, rfl, halong⟩ := h.along hwf
  have hmem := Program.mem_of_findFunc hf
  have hb := built_copies hwf hmem
  have hac := noCycle_of_connected (hwf.ssa f hmem) hb (hcon f hmem)
  have hsub : ∀ e ∈ order, e ∈ copies p f := fun e he => ho.mem_iff.1 he
  have hle : ∀ h ∈ p.funcs, (inUse (h.mapUsed (rewrite fn (copies p f) order h.name))).card ≤
      (inUse h).card := fun h hh => Finset.card_le_card (inUse_subset hwf halong hh)
  unfold load Program.mapUsed
  rw [List.map_map]
  refine ⟨List.sum_le_sum hle, fun hch => List.sum_lt_sum _ _ hle ?_⟩
  have hchanged : (propagate p fn (copies p f) order).2 = true := by rw [hprop, hch]
  obtain ⟨v, x, h, hv, hh, hscope, hin⟩ := uses_of_changed hb.nodup hac hsub hchanged
  refine ⟨h, hh, Finset.card_lt_card ⟨inUse_subset hwf halong hh, fun hback => ?_⟩⟩
  obtain ⟨z, hz, hzv⟩ := mem_inUse.1 (hback hin)
  rw [Func.operands_mapUsed] at hz
  obtain ⟨y, -, rfl⟩ := List.mem_map.1 hz
  exact rewrite_ne_key hb.nodup hac hsub hv hscope hzv

end Uses

/-! ## The end of the pass -/

section End

variable {env : Env} {p q : Program} {fn : String} {changed : Bool} {s t : PassState}

theorem connected_mapUsed {f : Func} {g : Value → Value} (h : f.Connected) :
    (f.mapUsed g).Connected := by
  intro id b hb
  rw [Func.block?_mapUsed] at hb
  obtain ⟨c, hc, rfl⟩ := Option.map_eq_some_iff.1 hb
  rw [Func.graph_mapUsed, Block.insts_mapUsed, List.length_map]
  exact h id c hc

theorem Round.connected (h : Round fn p q changed) (hwf : p.WellFormed env)
    (hcon : ∀ f ∈ p.funcs, f.Connected) : ∀ f ∈ q.funcs, f.Connected := by
  obtain ⟨f, order, -, -, -, rfl, -⟩ := h.along hwf
  intro h' hh'
  obtain ⟨h, hh, rfl⟩ := List.mem_map.1 hh'
  exact connected_mapUsed (hcon h hh)

/-- Where control can reach every block, the pass ends in every order of its tables. -/
theorem copyPropagation_terminates (hwf : s.prog.WellFormed env)
    (hcon : ∀ f ∈ s.prog.funcs, f.Connected) : Terminates s := by
  generalize hn : load s.prog + s.todo.length = n
  induction n using Nat.strong_induction_on generalizing s with
  | _ n ih =>
    refine Acc.intro s fun t ht => ?_
    cases ht with
    | again h =>
      have hload := (load_round h hwf hcon).2 rfl
      refine ih _ ?_ (h.wellFormed hwf) (h.connected hwf hcon) rfl
      simp only [List.length_cons] at hn ⊢
      omega
    | next h =>
      have hload := (load_round h hwf hcon).1
      refine ih _ ?_ (h.wellFormed hwf) (h.connected hwf hcon) rfl
      simp only [List.length_cons] at hn ⊢
      omega

theorem copyLoop_connected : copyLoopMain.Connected := by
  have h₀ : copyLoopMain.graph.Reach (some (0, 0)) := .step .entry (@Func.Edge.call copyLoopMain _ rfl rfl)
  have h₂ : copyLoopMain.graph.Reach (some (0, 2)) :=
    (h₀.step (@Func.Edge.inst copyLoopMain 0 _ 0 _ rfl rfl rfl)).step
      (@Func.Edge.inst copyLoopMain 0 _ 1 _ rfl rfl rfl)
  have hloop : copyLoopMain.graph.Reach (some (1, 2)) :=
    (h₂.step (@Func.Edge.jump copyLoopMain 0 1 _ _ rfl (by decide) rfl)).step
      (@Func.Edge.inst copyLoopMain 1 _ 1 _ rfl rfl rfl)
  have hend : copyLoopMain.graph.Reach (some (2, 0)) :=
    hloop.step (@Func.Edge.jump copyLoopMain 1 2 _ _ rfl (by decide) rfl)
  intro id b hb
  obtain ⟨hmem, rfl⟩ := Func.mem_of_block? hb
  simp only [copyLoopMain, List.mem_cons, List.not_mem_nil, or_false] at hmem
  rcases hmem with rfl | rfl | rfl
  · exact h₂
  · exact hloop
  · exact hend

theorem copyPropagation_terminates_copyLoop : Terminates ⟨copyLoop, ["main"], false⟩ := by
  refine copyPropagation_terminates (copyLoop_wellFormed quiet) fun f hf => ?_
  rw [List.mem_singleton.1 hf]
  exact copyLoop_connected

/-- A function whose second block is not reachable and copies a variable to itself. -/
def selfCopyMain : Func where
  name := "main"
  retType := .int32
  params := []
  locals := []
  blocks := [
    { id := 0, label := "entry", insts := [], exit := some (.ret (.const (.ofInt 0))) },
    { id := 1
      label := "dead"
      insts := [.unary ⟨.mov, some (.temp .int32 0), .left (.temp .int32 0)⟩]
      exit := some (.jump 1) }]
  temps := [⟨.int32, 1⟩]
  tempLabelCount := 0
  nextBlock := 2

def selfCopy : Program where
  isSsa := true
  globals := []
  funcs := [selfCopyMain]
  builtins := []
  nextAlloc := 0

/-- Reachability is needed: this well-formed program keeps the pass going for ever. -/
theorem not_terminates_selfCopy : (∀ env : Env, selfCopy.WellFormed env) ∧
    ∃ s, start selfCopy = .ok s ∧ ¬Terminates s := by
  have hround : Round "main" selfCopy selfCopy true :=
    ⟨selfCopyMain, rfl, _, .refl _, by decide⟩
  have hloop : ∀ s t : PassState, PassStep s s → t = s → ¬Terminates t := by
    intro s t hs ht hacc
    induction hacc with
    | intro t _ ih =>
      subst ht
      exact ih t hs rfl
  refine ⟨fun env => ?_, _, rfl, fun h => ?_⟩
  · exact Program.wellFormed_of_check (fun _ b => if b = 1 then [.temp 0] else []) (by decide)
  · exact hloop _ _ (.again hround) rfl (h.inv (.again hround))

end End

end CopyPropagation

end Ir
end Cact
