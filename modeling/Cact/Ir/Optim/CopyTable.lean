import Cact.Ir.Optim.CopyPropagation

/-!
# The table of copies

A chain of copies leads from a variable to what it is a copy of, and on. Where no variable
reaches itself the root of a chain is its end, which is no copy itself. On a cycle every
variable is its own root.

- `Copy`, `NoCycle`, `Chain`: chains of copies.
- `find_getRoot`, `getRoot_eq`: the root is the end of the chain.
- `getRoot_cycle`: the roots on a cycle.
- `NoCycle.of_append`, `Chain.append`: what becomes of them as the table grows.
-/

namespace Cact

namespace Ir

namespace CopyPropagation

/-! ## Chains -/

/-- The table has the variable `u` as what `v` is a copy of. -/
def Copy (cs : Copies) (v u : Var) : Prop := ∃ l, (v, Value.left l) ∈ cs ∧ l.var = u

/-- No variable reaches itself through copies. -/
def NoCycle (cs : Copies) : Prop := ∀ v, ¬Relation.TransGen (Copy cs) v v

/-- What a value leads to in the table. -/
def Chain (cs : Copies) : Value → Value → Prop :=
  Relation.ReflTransGen fun x y => find cs x = some y

section Chains

variable {cs : Copies} {v : Var} {x y : Value}

theorem lookup_eq_some (hn : (cs.map Prod.fst).Nodup) : cs.lookup v = some x ↔ (v, x) ∈ cs := by
  rw [List.lookup_eq_some_iff]
  constructor
  · rintro ⟨l₁, l₂, rfl, -⟩
    simp
  · intro h
    obtain ⟨l₁, l₂, rfl⟩ := List.append_of_mem h
    refine ⟨l₁, l₂, rfl, fun p hp => ?_⟩
    rw [List.map_append, List.nodup_append] at hn
    have hne := hn.2.2 p.1 (List.mem_map_of_mem hp) v (by simp)
    simpa [bne_iff_ne] using fun h => hne h.symm

theorem find_left {l : LeftValue} (hn : (cs.map Prod.fst).Nodup) :
    find cs (.left l) = some x ↔ (l.var, x) ∈ cs := lookup_eq_some hn

theorem find_left_eq_none {l : LeftValue} :
    find cs (.left l) = none ↔ l.var ∉ cs.map Prod.fst := by
  show cs.lookup l.var = none ↔ _
  rw [List.lookup_eq_none_iff]
  simp only [bne_iff_ne, List.mem_map, not_exists, not_and]
  exact ⟨fun h p hp heq => h p hp heq.symm, fun h p hp heq => h p hp heq.symm⟩

theorem insert_of_notMem (h : v ∉ cs.map Prod.fst) : insert cs v x = cs ++ [(v, x)] := by
  have hany : (cs.any fun c => c.1 == v) = false := by
    rw [List.any_eq_false]
    intro c hc heq
    exact h (List.mem_map.2 ⟨c, hc, by simpa using heq⟩)
  unfold insert
  rw [hany]
  rfl

theorem insert_keys : (insert cs v x).map Prod.fst =
    if v ∈ cs.map Prod.fst then cs.map Prod.fst else cs.map Prod.fst ++ [v] := by
  by_cases h : v ∈ cs.map Prod.fst
  · have hany : (cs.any fun c => c.1 == v) = true := by
      obtain ⟨c, hc, rfl⟩ := List.mem_map.1 h
      exact List.any_eq_true.2 ⟨c, hc, by simp⟩
    unfold insert
    rw [hany, if_pos rfl, if_pos h, List.map_map]
    refine List.map_congr_left fun c _ => ?_
    show (if c.1 = v then (v, x) else c).1 = c.1
    split
    · rename_i heq
      exact heq.symm
    · rfl
  · rw [insert_of_notMem h, if_neg h, List.map_append]
    rfl

theorem nodup_insert (hn : (cs.map Prod.fst).Nodup) : ((insert cs v x).map Prod.fst).Nodup := by
  rw [insert_keys]
  split
  · exact hn
  · rename_i h
    refine List.nodup_append.2 ⟨hn, List.nodup_singleton v, fun a ha b hb heq => h ?_⟩
    rwa [← List.mem_singleton.1 hb, ← heq]

theorem chain_getRoot : Chain cs x (getRoot cs x) := chase_reaches

/-- The rank of a value: how many copies its chain passes. -/
noncomputable def rank (cs : Copies) : Value → Nat
  | .const _ => 0
  | .left l => pathRank (Copy cs) (cs.map Prod.fst).toFinset l.var

theorem rank_lt (hn : (cs.map Prod.fst).Nodup) (hac : NoCycle cs) (h : find cs x = some y) :
    rank cs y < rank cs x := by
  cases x with
  | const c => cases h
  | left l =>
    have hmem := (find_left hn).1 h
    have hdom : l.var ∈ (cs.map Prod.fst).toFinset :=
      List.mem_toFinset.2 (List.mem_map_of_mem hmem)
    cases y with
    | const c => exact pathRank_pos hdom
    | left l' => exact pathRank_lt hac hdom ⟨l', hmem, rfl⟩

/-- Without cycles the root is no copy. -/
theorem find_getRoot (hn : (cs.map Prod.fst).Nodup) (hac : NoCycle cs) :
    find cs (getRoot cs x) = none := by
  have hrank (a b : Value) (h : find cs a = some b) : rank cs b < rank cs a := rank_lt hn hac h
  refine next_chase hrank ?_ ?_ nofun
  · intro a b hab
    cases a with
    | const c =>
      cases b with
      | const d => rfl
      | left l => cases hab
    | left l =>
      cases b with
      | const d => cases hab
      | left l' =>
        exact congrArg (pathRank (Copy cs) _) (Value.eqv_left.1 hab)
  · cases x with
    | const c => exact Nat.succ_pos _
    | left l =>
      have hle : pathRank (Copy cs) (cs.map Prod.fst).toFinset l.var ≤ _ := pathRank_le
      have hcard := List.toFinset_card_le (cs.map Prod.fst)
      rw [List.length_map] at hcard
      exact Nat.lt_succ_of_le (hle.trans hcard)

theorem Chain.eq_of_none {e e' : Value} (h : Chain cs x e) (he : find cs e = none)
    (h' : Chain cs x e') (he' : find cs e' = none) : e = e' := by
  induction h using Relation.ReflTransGen.head_induction_on with
  | refl =>
    rcases Relation.ReflTransGen.cases_head h' with rfl | ⟨y, hy, -⟩
    · rfl
    · rw [he] at hy
      cases hy
  | head hxy hye ih =>
    rcases Relation.ReflTransGen.cases_head h' with rfl | ⟨y', hy', hrest⟩
    · rw [he'] at hxy
      cases hxy
    · rw [hxy] at hy'
      cases hy'
      exact ih hrest

/-- The root is the end of the chain. -/
theorem getRoot_eq {e : Value} (hn : (cs.map Prod.fst).Nodup) (hac : NoCycle cs)
    (h : Chain cs x e) (he : find cs e = none) : getRoot cs x = e :=
  chain_getRoot.eq_of_none (find_getRoot hn hac) h he

theorem getRoot_of_find (hn : (cs.map Prod.fst).Nodup) (hac : NoCycle cs)
    (h : find cs x = some y) : getRoot cs x = getRoot cs y :=
  getRoot_eq hn hac (.head h chain_getRoot) (find_getRoot hn hac)

theorem getRoot_const {c : ConstexprValue} : getRoot cs (.const c) = .const c := chase_none rfl

theorem find_append {cs' : Copies} (h : find cs x = some y) : find (cs ++ cs') x = some y := by
  cases x with
  | const c => cases h
  | left l =>
    show (cs ++ cs').lookup l.var = some y
    rw [List.lookup_append]
    exact Option.or_eq_some_iff.2 (.inl h)

theorem Chain.append {cs' : Copies} (h : Chain cs x y) : Chain (cs ++ cs') x y :=
  Relation.ReflTransGen.mono (fun _ _ => find_append) _ _ h

theorem Copy.append {cs' : Copies} {u w : Var} (h : Copy cs u w) : Copy (cs ++ cs') u w := by
  obtain ⟨l, hl, rfl⟩ := h
  exact ⟨l, List.mem_append_left _ hl, rfl⟩

theorem NoCycle.of_append {cs' : Copies} (h : NoCycle (cs ++ cs')) : NoCycle cs :=
  fun v hv => h v (Relation.TransGen.mono (fun _ _ => Copy.append) _ _ hv)

theorem Chain.copy {l : LeftValue} {e : Value} (hn : (cs.map Prod.fst).Nodup)
    (h : Chain cs (.left l) e) :
    ∀ l', e = .left l' → Relation.ReflTransGen (Copy cs) l.var l'.var := by
  induction h with
  | refl =>
    rintro l' ⟨⟩
    exact .refl
  | tail hxy hye ih =>
    rintro l' rfl
    rename_i y
    cases y with
    | const c => cases hye
    | left m => exact (ih m rfl).tail ⟨l', (find_left hn).1 hye, rfl⟩

/-! ## Cycles -/

theorem Copy.unique {u w w' : Var} (hn : (cs.map Prod.fst).Nodup) (h : Copy cs u w)
    (h' : Copy cs u w') : w = w' := by
  obtain ⟨l, hl, rfl⟩ := h
  obtain ⟨l', hl', rfl⟩ := h'
  have heq := ((lookup_eq_some hn).2 hl).symm.trans ((lookup_eq_some hn).2 hl')
  cases heq
  rfl

/-- On a cycle every value is its own root: the chase comes back to it. -/
theorem getRoot_cycle (hn : (cs.map Prod.fst).Nodup) (h : Relation.TransGen (Copy cs) v v)
    (hx : (v, x) ∈ cs) : getRoot cs x = x := by
  obtain ⟨k, c, hk, rfl, hstep, hper, hne⟩ := exists_walk (R := Copy cs) (fun _ _ _ => Copy.unique hn) h
  choose l hl hvar using hstep
  have hl0 : x = .left (l 0) := by
    have heq := ((lookup_eq_some hn).2 hx).symm.trans ((lookup_eq_some hn).2 (hl 0))
    exact Option.some.inj heq
  have hlk : l k = l 0 := by
    have hmem := hl k
    rw [← Nat.zero_add k, hper 0, Nat.zero_add] at hmem
    have heq := ((lookup_eq_some hn).2 hmem).symm.trans ((lookup_eq_some hn).2 (hl 0))
    exact Value.left.inj (Option.some.inj heq)
  have hlen : k ≤ cs.length := by
    have hsub : ((List.range k).map c).Subperm (cs.map Prod.fst) := by
      refine List.subperm_of_subset ?_ ?_
      · refine List.Nodup.map_on ?_ List.nodup_range
        intro i hi j hj heq
        rw [List.mem_range] at hi hj
        rcases Nat.lt_trichotomy i j with hlt | rfl | hlt
        · exact absurd heq.symm (hne i j hlt (by omega))
        · rfl
        · exact absurd heq (hne j i hlt (by omega))
      · intro u hu
        obtain ⟨i, -, rfl⟩ := List.mem_map.1 hu
        exact List.mem_map_of_mem (hl i)
    simpa using hsub.length_le
  have hroot : getRoot cs (.left (l 0)) = .left (l k) := by
    refine chase_cycle (c := fun i => Value.left (l i)) hk ?_ ?_ ?_ (by omega)
    · intro i _
      rw [find_left hn, hvar]
      exact hl (i + 1)
    · intro i j hij hj
      rw [← Bool.not_eq_true, Value.eqv_left, hvar, hvar]
      exact hne _ _ (by omega) (by omega)
    · rw [Value.eqv_left, hvar, hvar, show k + 1 + 1 = 1 + 1 + k from by omega, hper]
  rw [hl0, hroot, hlk]

end Chains

end CopyPropagation

end Ir
end Cact
