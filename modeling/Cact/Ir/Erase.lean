import Cact.Ir.Fewer
import Cact.Ir.Halves
import Cact.Ir.Operands

/-!
# Erasing a definition that nothing uses

An instruction whose result is used nowhere is taken out of its block. The instructions
behind it move up by one, and so do the points of the function: a path of the new function is
one of the old function that also passes the erased instruction. So everything that is ready
in the old function is ready in the new one, and the function stays in SSA form.

- `Block.PhisFirst`, `Func.PhisPlaced`: phis stand at the heads of blocks that are jumped to.
- `Func.Erases`: the function with an instruction erased.
- `Func.Erases.edge`: a step of the new function is one or two of the old one.
- `Func.Erases.program_wellFormed`: the program is as well formed as before.
-/

namespace Cact

namespace Ir

open Vm

/-! ## Phis at the heads of blocks -/

/-- No phi stands behind an instruction of another kind. -/
def Block.PhisFirst (b : Block) : Prop :=
  ∀ (k : Nat) (i : Inst), b.insts[k]? = some i → b.phis.length ≤ k → i.isPhi = false

/-- The phis of a function are where they are executed: at the heads of blocks, except for
the entrance, which no block comes before. -/
structure Func.PhisPlaced (f : Func) : Prop where
  first : ∀ b ∈ f.blocks, b.PhisFirst
  entrance : ∀ b, f.entrance = some b → b.phis = []

namespace Block

variable {b : Block} {k j : Nat} {i : Inst}

/-- A block begins with its phis. -/
theorem insts_eq : b.insts = b.phis.map Inst.phi ++ b.insts.drop b.phis.length := by
  have hphis : b.phis.map Inst.phi = b.insts.takeWhile Inst.isPhi := by
    unfold phis
    have hall : ∀ i ∈ b.insts.takeWhile Inst.isPhi, i.isPhi = true := fun i hi =>
      List.all_eq_true.1 (List.all_takeWhile ..) i hi
    generalize b.insts.takeWhile Inst.isPhi = l at hall
    induction l with
    | nil => rfl
    | cons i l ih =>
      have hi := hall i (by simp)
      cases i with
      | phi p => exact congrArg (Inst.phi p :: ·) (ih fun j hj => hall j (List.mem_cons_of_mem _ hj))
      | _ => cases hi
  rw [hphis, phis_length]
  exact (List.prefix_iff_eq_append.1 (List.takeWhile_prefix _)).symm

/-- Phis in front of other instructions are the phis of the block. -/
theorem phis_of_append {ps : List PhiInst} {rest : List Inst}
    (hb : b.insts = ps.map Inst.phi ++ rest) (hrest : ∀ i ∈ rest, i.isPhi = false) :
    b.phis = ps := by
  have htake : b.insts.takeWhile Inst.isPhi = ps.map Inst.phi := by
    rw [hb, List.takeWhile_append_of_pos]
    · cases rest with
      | nil => simp
      | cons i rest => simp [hrest i (by simp)]
    · intro i hi
      obtain ⟨p, -, rfl⟩ := List.mem_map.1 hi
      rfl
  unfold phis
  rw [htake, List.filterMap_map]
  exact List.filterMap_some

theorem PhisFirst.rest (h : b.PhisFirst) : ∀ i ∈ b.insts.drop b.phis.length, i.isPhi = false := by
  intro i hi
  obtain ⟨k, hk⟩ := List.mem_iff_getElem?.1 hi
  rw [List.getElem?_drop] at hk
  exact h _ i hk (by omega)

theorem phisFirst_of_append {ps : List PhiInst} {rest : List Inst}
    (hb : b.insts = ps.map Inst.phi ++ rest) (hrest : ∀ i ∈ rest, i.isPhi = false) :
    b.PhisFirst := by
  intro k i hi hk
  rw [phis_of_append hb hrest] at hk
  rw [hb, List.getElem?_append_right (by simpa using hk)] at hi
  exact hrest i (List.mem_of_getElem? hi)

instance : Decidable b.PhisFirst :=
  decidable_of_iff (∀ i ∈ b.insts.drop b.phis.length, i.isPhi = false)
    ⟨phisFirst_of_append insts_eq, PhisFirst.rest⟩

/-- The block without instruction `k`. -/
def eraseAt (b : Block) (k : Nat) : Block := { b with insts := b.insts.eraseIdx k }

@[simp] theorem eraseAt_id : (b.eraseAt k).id = b.id := rfl
@[simp] theorem eraseAt_exit : (b.eraseAt k).exit = b.exit := rfl
@[simp] theorem eraseAt_targets : (b.eraseAt k).targets = b.targets := rfl

/-- The instructions behind the erased one move up. -/
theorem get_eraseAt_lt (h : j < k) : (b.eraseAt k).insts[j]? = b.insts[j]? := by
  show (b.insts.eraseIdx k)[j]? = _
  rw [List.getElem?_eraseIdx_of_lt h]

theorem get_eraseAt_ge (h : k ≤ j) : (b.eraseAt k).insts[j]? = b.insts[j + 1]? := by
  show (b.insts.eraseIdx k)[j]? = _
  rw [List.getElem?_eraseIdx_of_ge h]

theorem length_eraseAt (h : b.insts[k]? = some i) :
    (b.eraseAt k).insts.length + 1 = b.insts.length := by
  have hlt := (List.getElem?_eq_some_iff.1 h).1
  show (b.insts.eraseIdx k).length + 1 = _
  rw [List.length_eraseIdx_of_lt hlt]
  omega

/-- The instructions of a block whose phis come first, after one of them is erased. -/
theorem PhisFirst.eraseAt_insts (h : b.PhisFirst) (hi : b.insts[k]? = some i) :
    ∃ rest, (∀ i ∈ rest, i.isPhi = false) ∧ (b.eraseAt k).insts =
      (if i.isPhi then b.phis.eraseIdx k else b.phis).map Inst.phi ++ rest := by
  show ∃ rest, _ ∧ b.insts.eraseIdx k = _
  cases hp : i.isPhi with
  | true =>
    have hlt : k < b.phis.length := by
      by_contra hge
      have hno := h k i hi (by omega)
      rw [hp] at hno
      cases hno
    refine ⟨_, h.rest, ?_⟩
    rw [if_pos rfl]
    conv_lhs => rw [insts_eq]
    rw [List.eraseIdx_append_of_lt_length (by simpa using hlt), List.eraseIdx_map]
  | false =>
    have hge := phis_length_le_of_get hi hp
    refine ⟨(b.insts.drop b.phis.length).eraseIdx (k - b.phis.length), ?_, ?_⟩
    · exact fun j hj => h.rest j (List.mem_of_mem_eraseIdx hj)
    · rw [if_neg (by simp)]
      conv_lhs => rw [insts_eq]
      rw [List.eraseIdx_append_of_length_le (by simpa using hge), List.length_map]

theorem PhisFirst.phis_eraseAt (h : b.PhisFirst) (hi : b.insts[k]? = some i) :
    (b.eraseAt k).phis = if i.isPhi then b.phis.eraseIdx k else b.phis := by
  obtain ⟨rest, hrest, heq⟩ := h.eraseAt_insts hi
  exact phis_of_append heq hrest

theorem PhisFirst.eraseAt (h : b.PhisFirst) (hi : b.insts[k]? = some i) :
    (b.eraseAt k).PhisFirst := by
  obtain ⟨rest, hrest, heq⟩ := h.eraseAt_insts hi
  exact phisFirst_of_append heq hrest

/-- A phi stands among the phis. -/
theorem PhisFirst.lt_of_isPhi (h : b.PhisFirst) (hi : b.insts[k]? = some i)
    (hp : i.isPhi = true) : k < b.phis.length := by
  by_contra hge
  have hno := h k i hi (by omega)
  rw [hp] at hno
  cases hno

theorem get_phis (h : k < b.phis.length) : b.insts[k]? = b.phis[k]?.map Inst.phi := by
  conv_lhs => rw [insts_eq]
  rw [List.getElem?_append_left (by simpa using h), List.getElem?_map]

/-- The number of phis that are left. -/
theorem PhisFirst.length_phis_eraseAt (h : b.PhisFirst) (hi : b.insts[k]? = some i) :
    (b.eraseAt k).phis.length = if k < b.phis.length then b.phis.length - 1 else b.phis.length := by
  rw [h.phis_eraseAt hi]
  cases hp : i.isPhi with
  | true =>
    have hlt := h.lt_of_isPhi hi hp
    rw [if_pos rfl, if_pos hlt, List.length_eraseIdx_of_lt hlt]
  | false =>
    have hge := phis_length_le_of_get hi hp
    rw [if_neg (by simp), if_neg (by omega)]

end Block

/-! ## Definitions of the block -/

namespace Block

section Defs

variable {b : Block} {k j : Nat} {i : Inst} {r : LeftValue} {v : Var}

/-- Every other variable is defined where its definition has moved to. -/
theorem PhisFirst.mem_defsAt_eraseAt (h : b.PhisFirst) (hi : b.insts[k]? = some i)
    (hr : i.definedVar = some r) (hv : v ≠ r.var)
    (hd : v ∈ b.defsAt (if k ≤ j then j + 1 else j)) : v ∈ (b.eraseAt k).defsAt j := by
  have hlen := h.length_phis_eraseAt hi
  have hphis := h.phis_eraseAt hi
  unfold defsAt at hd ⊢
  by_cases hk : k < b.phis.length
  · -- a phi is erased: the point behind the phis moves up with all that follow
    have hphi : i.isPhi = true := by
      rw [get_phis hk, List.getElem?_eq_getElem hk] at hi
      cases hi
      rfl
    rw [if_pos hk] at hlen
    rw [if_pos hphi] at hphis
    by_cases hkj : k ≤ j
    · rw [if_pos hkj] at hd
      by_cases hj : j + 1 = b.phis.length
      · rw [if_pos hj] at hd
        rw [if_pos (by omega), hphis]
        obtain ⟨p, hp, hpv⟩ := List.mem_filterMap.1 hd
        refine List.mem_filterMap.2 ⟨p, ?_, hpv⟩
        obtain ⟨m, hm⟩ := List.mem_iff_getElem?.1 hp
        refine List.mem_eraseIdx_iff_getElem?.2 ⟨m, fun hmk => hv ?_, hm⟩
        subst hmk
        rw [get_phis hk, hm] at hi
        cases hi
        have hpr : p.result = some r := hr
        rw [hpr] at hpv
        exact (Option.some.inj hpv).symm
      · rw [if_neg hj] at hd
        split at hd
        · cases hd
        · rw [if_neg (by omega), if_neg (by omega), get_eraseAt_ge (by omega)]
          rwa [show j - 1 + 1 = j + 1 - 1 by omega]
    · rw [if_neg hkj, if_neg (by omega), if_pos (by omega)] at hd
      cases hd
  · have hphi : i.isPhi = false := h k i hi (by omega)
    rw [if_neg hk] at hlen
    rw [if_neg (by simp [hphi])] at hphis
    by_cases hkj : k ≤ j
    · rw [if_pos hkj, if_neg (by omega), if_neg (by omega), Nat.add_sub_cancel] at hd
      by_cases hj : j = k
      · subst hj
        rw [hi] at hd
        simp [hr] at hd
        exact absurd hd hv
      · rw [if_neg (by omega), if_neg (by omega), get_eraseAt_ge (by omega)]
        rwa [show j - 1 + 1 = j by omega]
    · rw [if_neg hkj] at hd
      rw [hlen, hphis]
      split at hd
      · rename_i hj
        rw [if_pos hj]
        exact hd
      · split at hd
        · cases hd
        · rename_i hj hj'
          rw [if_neg hj, if_neg hj', get_eraseAt_lt (by omega)]
          exact hd

/-- In front of an erased instruction nothing has changed. -/
theorem PhisFirst.defsAt_eraseAt_self (h : b.PhisFirst) (hi : b.insts[k]? = some i)
    (hp : i.isPhi = false) : (b.eraseAt k).defsAt k = b.defsAt k := by
  have hlen := h.length_phis_eraseAt hi
  have hphis := h.phis_eraseAt hi
  have hge := phis_length_le_of_get hi hp
  rw [if_neg (by omega)] at hlen
  rw [if_neg (by simp [hp])] at hphis
  unfold defsAt
  rw [hlen, hphis]
  split
  · rfl
  · rw [if_neg (by omega), if_neg (by omega), get_eraseAt_lt (by omega)]

end Defs

end Block

/-! ## Points of the function -/

/-- The function without instruction `k` of a block. -/
def Func.eraseAt (f : Func) (id : BlockId) (k : Nat) : Func :=
  f.updateBlock id fun b => b.eraseAt k

/-- An instruction is erased that does nothing but define a variable nothing uses. -/
structure Func.Erases (f f' : Func) (id : BlockId) (k : Nat) (b : Block) (i : Inst)
    (r : LeftValue) : Prop where
  eq : f' = f.eraseAt id k
  block : f.block? id = some b
  inst : b.insts[k]? = some i
  result : i.definedVar = some r
  pure : i.hasSideEffect = false
  unused : ∀ x ∈ f.operands, x.var? ≠ some r.var

/-- Where a point of the new function was in the old one. -/
def oldPoint (id : BlockId) (k : Nat) (p : BlockId × Nat) : BlockId × Nat :=
  if p.1 = id ∧ k ≤ p.2 then (p.1, p.2 + 1) else p

theorem oldPoint_self {id : BlockId} {k j : Nat} :
    oldPoint id k (id, j) = (id, if k ≤ j then j + 1 else j) := by
  unfold oldPoint
  by_cases hkj : k ≤ j <;> simp [hkj]

@[simp] theorem oldPoint_fst {id : BlockId} {k : Nat} {p : BlockId × Nat} :
    (oldPoint id k p).1 = p.1 := by
  unfold oldPoint
  split <;> rfl

theorem oldPoint_of_ne {id t : BlockId} {k j : Nat} (h : t ≠ id) : oldPoint id k (t, j) = (t, j) :=
  if_neg fun hc => h hc.1

namespace Func.Erases

variable {f f' : Func} {id t : BlockId} {k j : Nat} {b c : Block} {i : Inst} {r : LeftValue}
  {v : Var}

theorem block?_eq (h : f.Erases f' id k b i r) : f'.block? t =
    (f.block? t).map fun c => if c.id = id then c.eraseAt k else c := by
  rw [h.eq]
  show (f.blocks.map _).find? _ = _
  rw [List.find?_map]
  refine congrArg _ (List.find?_congr fun c _ => ?_)
  dsimp only [Function.comp]
  split <;> rfl

theorem block?_self (h : f.Erases f' id k b i r) : f'.block? id = some (b.eraseAt k) := by
  rw [h.block?_eq, h.block]
  simp [(Func.mem_of_block? h.block).2]

theorem block?_of_ne (h : f.Erases f' id k b i r) (ht : t ≠ id) : f'.block? t = f.block? t := by
  rw [h.block?_eq]
  refine (Option.map_congr fun c hc => if_neg ?_).trans Option.map_id_apply
  rw [(Func.mem_of_block? hc).2]
  exact ht

/-- A block of the new function is the one that lost the instruction, or as before. -/
theorem of_block? (h : f.Erases f' id k b i r) (hc : f'.block? t = some c) :
    t = id ∧ c = b.eraseAt k ∨ t ≠ id ∧ f.block? t = some c := by
  by_cases ht : t = id
  · subst ht
    rw [h.block?_self] at hc
    exact .inl ⟨rfl, (Option.some.inj hc).symm⟩
  · rw [h.block?_of_ne ht] at hc
    exact .inr ⟨ht, hc⟩

theorem entrance (h : f.Erases f' id k b i r) : f'.entrance =
    f.entrance.map fun c => if c.id = id then c.eraseAt k else c := by
  rw [h.eq]
  show (f.blocks.map _).head? = _
  rw [List.head?_map]
  rfl

theorem first (h : f.Erases f' id k b i r) (hp : f.PhisPlaced) : b.PhisFirst :=
  hp.first b (Func.mem_of_block? h.block).1

/-- One step of the new function is a step of the old one, or two past the instruction. -/
theorem edge (h : f.Erases f' id k b i r) (hp : f.PhisPlaced) {p q : Point}
    (he : f'.Edge p q) :
    f.Edge (p.map (oldPoint id k)) (q.map (oldPoint id k)) ∨
      i.isPhi = false ∧ q = some (id, k) ∧ f.Edge (p.map (oldPoint id k)) q ∧
        f.Edge q (q.map (oldPoint id k)) := by
  have hfirst := h.first hp
  have hlt := (List.getElem?_eq_some_iff.1 h.inst).1
  -- the step past the instruction itself
  have hpass : i.isPhi = false → f.Edge (some (id, k)) (some (id, k + 1)) :=
    fun hi => .inst h.block h.inst hi
  have hself : ∀ {n}, k ≤ n → oldPoint id k (id, n) = (id, n + 1) := fun hn =>
    if_pos ⟨rfl, hn⟩
  have hkeep : ∀ {t n}, (t = id → n < k) → oldPoint id k (t, n) = (t, n) := fun hn =>
    if_neg fun hc => absurd hc.2 (Nat.not_le.2 (hn hc.1))
  cases he with
  | call hc hphis =>
    rw [h.entrance] at hc
    obtain ⟨c, hce, rfl⟩ := Option.map_eq_some_iff.1 hc
    have hnone := hp.entrance c hce
    have hcall := Func.Edge.call hce hnone
    have hid : (if c.id = id then c.eraseAt k else c).id = c.id := by split <;> rfl
    rw [hid]
    by_cases hk : c.id = id ∧ k = 0
    · obtain ⟨hcid, rfl⟩ := hk
      have hcb := Func.block?_entrance hce
      rw [hcid, h.block] at hcb
      cases hcb
      have hi : i.isPhi = false := hfirst 0 i h.inst (by simp [hnone])
      rw [hcid] at hcall ⊢
      refine .inr ⟨hi, rfl, hcall, ?_⟩
      rw [Option.map_some, hself (Nat.le_refl 0)]
      exact hpass hi
    · left
      rw [Option.map_some, hkeep fun hcid => Nat.pos_of_ne_zero fun hk0 => hk ⟨hcid, hk0⟩]
      exact hcall
  | @inst t c j i' hc hi hnp =>
    rcases h.of_block? hc with ⟨rfl, rfl⟩ | ⟨ht, hc⟩
    · by_cases hjk : j < k
      · rw [Block.get_eraseAt_lt hjk] at hi
        have hstep : f.Edge (some (t, j)) (some (t, j + 1)) := .inst h.block hi hnp
        rw [Option.map_some, hkeep fun _ => hjk]
        by_cases hj : j + 1 = k
        · -- the next step goes past the erased instruction
          have hge := Block.phis_length_le_of_get hi hnp
          have hphi : i.isPhi = false := hfirst k i h.inst (by omega)
          refine .inr ⟨hphi, by rw [hj], hstep, ?_⟩
          rw [Option.map_some, hj, hself (Nat.le_refl k)]
          exact hpass hphi
        · left
          rw [Option.map_some, hkeep fun _ => by omega]
          exact hstep
      · rw [Block.get_eraseAt_ge (by omega)] at hi
        left
        rw [Option.map_some, Option.map_some, hself (by omega), hself (by omega)]
        exact .inst h.block hi hnp
    · left
      rw [Option.map_some, Option.map_some, hkeep fun h => absurd h ht, hkeep fun h => absurd h ht]
      exact .inst hc hi hnp
  | @jump src t c d hc ht hd =>
    -- the end of the block in the old function
    obtain ⟨c', hc', htgt, hend⟩ : ∃ c', f.block? src = some c' ∧ c'.targets = c.targets ∧
        oldPoint id k (src, c.insts.length) = (src, c'.insts.length) := by
      rcases h.of_block? hc with ⟨rfl, rfl⟩ | ⟨hsrc, hc⟩
      · have hlen := Block.length_eraseAt h.inst
        exact ⟨b, h.block, rfl, by rw [hself (by omega), hlen]⟩
      · exact ⟨c, hc, rfl, hkeep fun h => absurd h hsrc⟩
    rw [Option.map_some, hend]
    rcases h.of_block? hd with ⟨rfl, rfl⟩ | ⟨htid, hd⟩
    · have hjump : f.Edge (some (src, c'.insts.length)) (some (t, b.phis.length)) :=
        .jump hc' (htgt ▸ ht) h.block
      have hlen := hfirst.length_phis_eraseAt h.inst
      rw [hlen]
      split
      · left
        rw [Option.map_some, hself (by omega), show b.phis.length - 1 + 1 = b.phis.length by omega]
        exact hjump
      · by_cases hk : b.phis.length = k
        · have hphi : i.isPhi = false := hfirst k i h.inst (by omega)
          refine .inr ⟨hphi, by rw [hk], hjump, ?_⟩
          rw [Option.map_some, hk, hself (Nat.le_refl k)]
          exact hpass hphi
        · left
          rw [Option.map_some, hkeep fun _ => by omega]
          exact hjump
    · left
      rw [Option.map_some, hkeep fun h => absurd h htid]
      exact .jump hc' (htgt ▸ ht) hd

/-- What another variable's definition reaches, it still reaches. -/
theorem defsAt (h : f.Erases f' id k b i r) (hp : f.PhisPlaced) (hv : v ≠ r.var) {p : Point}
    (hd : f.defsAt (p.map (oldPoint id k)) v) : f'.defsAt p v := by
  cases p with
  | none => exact hd
  | some p =>
    obtain ⟨t, j⟩ := p
    rw [Option.map_some] at hd
    by_cases ht : t = id
    · subst ht
      rw [oldPoint_self] at hd
      obtain ⟨c, hc, hcv⟩ := hd
      cases h.block.symm.trans hc
      exact ⟨_, h.block?_self, (h.first hp).mem_defsAt_eraseAt h.inst h.result hv hcv⟩
    · rw [oldPoint_of_ne ht] at hd
      obtain ⟨c, hc, hcv⟩ := hd
      exact ⟨c, (h.block?_of_ne ht).trans hc, hcv⟩

/-- A path without another variable is one of the old function as well. -/
theorem misses (h : f.Erases f' id k b i r) (hp : f.PhisPlaced) (hv : v ≠ r.var) {p : Point}
    (hm : f'.graph.Misses v p) : f.graph.Misses v (p.map (oldPoint id k)) := by
  induction hm with
  | entry => exact .entry
  | @step p q _ he hn ih =>
    have hend : ¬f.defsAt (q.map (oldPoint id k)) v := fun hd => hn (h.defsAt hp hv hd)
    rcases h.edge hp he with hstep | ⟨hi, rfl, hstep, hpass⟩
    · exact ih.step hstep hend
    · refine (ih.step hstep ?_).step hpass hend
      rintro ⟨c, hc, hcv⟩
      cases h.block.symm.trans hc
      refine hn ⟨_, h.block?_self, ?_⟩
      rw [(h.first hp).defsAt_eraseAt_self h.inst hi]
      exact hcv

theorem reach (h : f.Erases f' id k b i r) (hp : f.PhisPlaced) {p : Point}
    (hr : f'.graph.Reach p) : f.graph.Reach (p.map (oldPoint id k)) := by
  induction hr with
  | entry => exact .entry
  | step _ he ih =>
    rcases h.edge hp he with hstep | ⟨-, -, hstep, hpass⟩
    · exact ih.step hstep
    · exact (ih.step hstep).step hpass

/-! ## Uses and definitions -/

theorem get_of_block (h : f.Erases f' id k b i r) {i' : Inst} (hc : f'.block? t = some c)
    (hi : c.insts[j]? = some i') : ∃ c', f.block? t = some c' ∧
      c'.insts[(oldPoint id k (t, j)).2]? = some i' := by
  rcases h.of_block? hc with ⟨rfl, rfl⟩ | ⟨ht, hc⟩
  · refine ⟨b, h.block, ?_⟩
    rw [oldPoint_self]
    by_cases hkj : k ≤ j
    · rw [if_pos hkj, ← Block.get_eraseAt_ge hkj]
      exact hi
    · rw [if_neg hkj, ← Block.get_eraseAt_lt (Nat.lt_of_not_le hkj)]
      exact hi
  · refine ⟨c, hc, ?_⟩
    rw [oldPoint_of_ne ht]
    exact hi

/-- The end of a block is where the end was. -/
theorem block_of (h : f.Erases f' id k b i r) (hp : f.PhisPlaced) (hc : f'.block? t = some c) :
    ∃ c', f.block? t = some c' ∧ c'.targets = c.targets ∧ c'.exit = c.exit ∧
      oldPoint id k (t, c.insts.length) = (t, c'.insts.length) ∧
      (∀ i ∈ c.insts, i ∈ c'.insts) ∧ ∀ p ∈ c.phis, p ∈ c'.phis := by
  rcases h.of_block? hc with ⟨rfl, rfl⟩ | ⟨ht, hold⟩
  · have hlt := (List.getElem?_eq_some_iff.1 h.inst).1
    have hlen := Block.length_eraseAt h.inst
    have hend : oldPoint t k (t, (b.eraseAt k).insts.length) = (t, b.insts.length) := by
      rw [oldPoint_self, if_pos (by omega), hlen]
    have hsub : ∀ j ∈ (b.eraseAt k).insts, j ∈ b.insts := fun j => List.mem_of_mem_eraseIdx
    refine ⟨b, h.block, rfl, rfl, hend, hsub, fun p hpm => ?_⟩
    rw [(h.first hp).phis_eraseAt h.inst] at hpm
    split at hpm
    · exact List.mem_of_mem_eraseIdx hpm
    · exact hpm
  · exact ⟨c, hold, rfl, rfl, oldPoint_of_ne ht, fun _ h => h, fun _ h => h⟩

theorem usedAt (h : f.Erases f' id k b i r) (hp : f.PhisPlaced) {p : BlockId × Nat}
    {u : LeftValue} (hu : f'.UsedAt p u) : f.UsedAt (oldPoint id k p) u := by
  cases hu with
  | @inst t c j i' _ hc hi hnp hv =>
    obtain ⟨c', hc', hi'⟩ := h.get_of_block hc hi
    rw [show oldPoint id k (t, j) = (t, (oldPoint id k (t, j)).2) from Prod.ext oldPoint_fst rfl]
    exact .inst hc' hi' hnp hv
  | exit hc he hv =>
    obtain ⟨c', hc', -, hexit, hend, -⟩ := h.block_of hp hc
    rw [hend]
    exact .exit hc' (hexit.trans he) hv
  | phi hc ht hd hq hv =>
    obtain ⟨c', hc', htgt, -, hend, -⟩ := h.block_of hp hc
    obtain ⟨d', hd', -, -, -, -, hphis⟩ := h.block_of hp hd
    rw [hend]
    exact .phi hc' (htgt ▸ ht) hd' (hphis _ hq) hv

theorem mentions (h : f.Erases f' id k b i r) (hp : f.PhisPlaced) {x : Value}
    (hx : f'.Mentions x) : f.Mentions x := by
  cases hx with
  | used hc hi hx =>
    obtain ⟨c', hc', -, -, -, hsub, -⟩ := h.block_of hp hc
    exact .used hc' (hsub _ hi) hx
  | result hc hi hv =>
    obtain ⟨c', hc', -, -, -, hsub, -⟩ := h.block_of hp hc
    exact .result hc' (hsub _ hi) hv
  | exit hc he hx =>
    obtain ⟨c', hc', -, hexit, -⟩ := h.block_of hp hc
    exact .exit hc' (hexit.trans he) hx

/-- What is used is not the erased variable. -/
theorem ne_of_usedAt (h : f.Erases f' id k b i r) {p : BlockId × Nat} {u : LeftValue}
    (hu : f.UsedAt p u) : u.var ≠ r.var := fun heq =>
  h.unused _ (Func.operand_of_usedAt hu) (congrArg some heq)

/-! ## Well-formedness -/

theorem results_sublist (h : f.Erases f' id k b i r) : f'.results.Sublist f.results := by
  rw [h.eq]
  show List.Sublist ((f.blocks.map _).flatMap _) (f.blocks.flatMap _)
  rw [List.flatMap_map]
  induction f.blocks with
  | nil => exact .slnil
  | cons c cs ih =>
    rw [List.flatMap_cons, List.flatMap_cons]
    refine List.Sublist.append ?_ ih
    split
    · exact (List.eraseIdx_sublist _ _).filterMap _
    · exact List.Sublist.refl _

theorem ids (h : f.Erases f' id k b i r) : f'.blocks.map Block.id = f.blocks.map Block.id := by
  rw [h.eq]
  show (f.blocks.map _).map _ = _
  rw [List.map_map]
  refine List.map_congr_left fun c _ => ?_
  dsimp only [Function.comp]
  split <;> rfl

theorem ssa (h : f.Erases f' id k b i r) (hp : f.PhisPlaced) (hs : f.Ssa) : f'.Ssa := by
  refine ⟨?_, ?_, ?_, ?_⟩
  · rw [h.ids]
    exact hs.blocks
  · exact hs.results.sublist (h.results_sublist.map _)
  · rintro p u hu ⟨q, hq⟩ hm
    have hold := h.usedAt hp hu
    have hdef : ∃ q, f.defsAt q u.var := by
      cases q with
      | none => cases hq
      | some q =>
        obtain ⟨c, hc, hcv⟩ := hq
        obtain ⟨j, i', r', hi', hr', hrv, -⟩ := Block.mem_defsAt hcv
        obtain ⟨c', hc', -, -, -, hsub, -⟩ := h.block_of hp hc
        rw [← hrv]
        exact Func.exists_defsAt hc' (hsub _ (List.mem_of_getElem? hi')) hr'
    exact hs.uses _ u hold hdef (h.misses hp (h.ne_of_usedAt hold) hm)
  · intro s c t d hc ht hd hr p hpm
    obtain ⟨c', hc', htgt, -, hend, -⟩ := h.block_of hp hc
    obtain ⟨d', hd', -, -, -, -, hphis⟩ := h.block_of hp hd
    have hr' := h.reach hp hr
    rw [Option.map_some, hend] at hr'
    exact hs.args s c' t d' hc' (htgt ▸ ht) hd' hr' p (hphis p hpm)

theorem phisPlaced (h : f.Erases f' id k b i r) (hp : f.PhisPlaced) (hs : f.Ssa) :
    f'.PhisPlaced := by
  refine ⟨fun c hc => ?_, fun c hc => ?_⟩
  · rw [h.eq] at hc
    obtain ⟨d, hd, rfl⟩ := List.mem_map.1 hc
    dsimp only
    split
    · rename_i hid
      have hb := Func.block?_self hs hd
      rw [hid, h.block] at hb
      cases hb
      exact (hp.first b hd).eraseAt h.inst
    · exact hp.first d hd
  · rw [h.entrance] at hc
    obtain ⟨d, hd, rfl⟩ := Option.map_eq_some_iff.1 hc
    have hnone := hp.entrance d hd
    split
    · rename_i hid
      have hb := Func.block?_entrance hd
      rw [hid, h.block] at hb
      cases hb
      rw [(h.first hp).phis_eraseAt h.inst, hnone]
      split <;> rfl
    · exact hnone

theorem wellTyped {env : Env} {prog prog' : Program} (h : f.Erases f' id k b i r)
    (hp : f.PhisPlaced) (hg : prog'.globals = prog.globals) (ht : f.WellTyped env prog) :
    f'.WellTyped env prog' := by
  have hslot : f'.slotType = f.slotType := by
    rw [h.eq]
    rfl
  refine ht.of_fewer hslot hg (fun x => h.mentions hp) fun t c j hc hj => ?_
  obtain ⟨c', hc', -, -, -, hsub, -⟩ := h.block_of hp hc
  exact ⟨c', hc', .inl (hsub j hj)⟩

end Func.Erases

/-! ## Programs -/

/-- The phis of every function are where they are executed. -/
def Program.PhisPlaced (p : Program) : Prop := ∀ f ∈ p.funcs, f.PhisPlaced

section Program

variable {env : Env} {p : Program} {f f' : Func} {id : BlockId} {k : Nat} {b : Block} {i : Inst}
  {r : LeftValue}

theorem Program.WellFormed.findFunc (h : p.WellFormed env) (hf : f ∈ p.funcs) :
    p.findFunc f.name = some f := by
  have hsome : (p.findFunc f.name).isSome := List.find?_isSome.2 ⟨f, hf, by simp⟩
  obtain ⟨g, hg⟩ := Option.isSome_iff_exists.1 hsome
  rw [hg, List.inj_on_of_nodup_map h.names (Program.mem_of_findFunc hg) hf (findFunc_name hg)]

/-- The functions of the new program: the one that has changed, and the others. -/
theorem mem_replaceFunc (hname : f'.name = f.name) {g : Func}
    (hg : g ∈ (p.replaceFunc f').funcs) : g = f' ∨ g ∈ p.funcs ∧ g.name ≠ f.name := by
  obtain ⟨h, hh, rfl⟩ := List.mem_map.1 hg
  split
  · exact .inl rfl
  · rename_i hne
    exact .inr ⟨hh, fun heq => hne (heq.trans hname.symm)⟩

theorem Func.Erases.program_wellFormed (h : f.Erases f' id k b i r) (hwf : p.WellFormed env)
    (hf : p.findFunc f.name = some f) (hp : f.PhisPlaced) :
    (p.replaceFunc f').WellFormed env := by
  have hname : f'.name = f.name := by rw [h.eq]; rfl
  have hmem := Program.mem_of_findFunc hf
  -- the function is the only one of its name
  have hsame : ∀ {β : Type} (g : Func → β), g f' = g f →
      (p.replaceFunc f').funcs.map g = p.funcs.map g := by
    intro β g hg
    show (p.funcs.map _).map g = _
    rw [List.map_map]
    refine List.map_congr_left fun c hc => ?_
    dsimp only [Function.comp]
    split
    · rename_i heq
      have hcf : c = f := List.inj_on_of_nodup_map hwf.names hc hmem (heq.trans hname)
      rw [hcf, hg]
    · rfl
  refine hwf.of_fewer rfl (hsame Func.name hname) (hsame Func.allocs ?_) fun g hg => ?_
  · rw [h.eq]
    rfl
  · rcases mem_replaceFunc hname hg with rfl | ⟨hg, -⟩
    · have hglobals : (p.replaceFunc g).globals = p.globals := rfl
      exact ⟨h.ssa hp (hwf.ssa f hmem), h.wellTyped hp hglobals (hwf.typed f hmem)⟩
    · exact ⟨hwf.ssa g hg, (hwf.typed g hg).of_fewer rfl rfl (fun _ hx => hx)
        fun id b i hb hi => ⟨b, hb, .inl hi⟩⟩

theorem Func.Erases.program_phisPlaced (h : f.Erases f' id k b i r) (hwf : p.WellFormed env)
    (hf : p.findFunc f.name = some f) (hp : p.PhisPlaced) : (p.replaceFunc f').PhisPlaced := by
  have hmem := Program.mem_of_findFunc hf
  have hname : f'.name = f.name := by rw [h.eq]; rfl
  intro g hg
  rcases mem_replaceFunc hname hg with rfl | ⟨hg, -⟩
  · exact h.phisPlaced (hp f hmem) (hwf.ssa f hmem)
  · exact hp g hg

end Program

end Ir
end Cact
