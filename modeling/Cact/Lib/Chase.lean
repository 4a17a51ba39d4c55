import Mathlib

/-!
# Following a map until it ends or comes back

`chase next same` follows a partial map from a start and stops where the map is not
defined, or in front of a target it has visited before. Where a rank decreases along the
map the chase ends where the map does, and on a cycle it goes once around.

- `chase_reaches`: the chase only follows the map.
- `next_chase`: it ends where the map does, when a rank decreases.
- `chase_cycle`: on a cycle it comes back to its start.
- `pathRank_lt`: a relation of finite domain without cycles has a rank.
- `path_of_new_cycle`: what a cycle through a new edge says about the old ones.
- `exists_walk`: a cycle as a periodic sequence.
-/

namespace Cact

universe u

variable {α : Type u}

/-- The end of the chase from `a`; `same` compares targets, and `n` bounds the steps. -/
def chase (next : α → Option α) (same : α → α → Bool) : Nat → List α → α → α
  | 0, _, a => a
  | n + 1, visited, a =>
    match next a with
    | none => a
    | some b => if visited.any (same b) then a else chase next same n (b :: visited) b

section Chase

variable {next : α → Option α} {same : α → α → Bool} {n : Nat} {visited : List α} {a b : α}

theorem chase_none (h : next a = none) : chase next same n visited a = a := by
  cases n with
  | zero => rfl
  | succ n => simp [chase, h]

theorem chase_step (h : next a = some b) (hv : visited.any (same b) = false) :
    chase next same (n + 1) visited a = chase next same n (b :: visited) b := by
  simp [chase, h, hv]

theorem chase_stop (h : next a = some b) (hv : visited.any (same b) = true) :
    chase next same (n + 1) visited a = a := by
  simp [chase, h, hv]

/-- The chase only follows the map. -/
theorem chase_reaches :
    Relation.ReflTransGen (fun a b => next a = some b) a (chase next same n visited a) := by
  induction n generalizing visited a with
  | zero => exact .refl
  | succ n ih =>
    cases h : next a with
    | none =>
      rw [chase_none h]
    | some b =>
      cases hv : visited.any (same b) with
      | true =>
        rw [chase_stop h hv]
      | false =>
        rw [chase_step h hv]
        exact .head h ih

/-- Where a rank decreases along the map and the start has less rank than there are
steps, the chase ends where the map does. -/
theorem next_chase {rank : α → Nat} (hrank : ∀ a b, next a = some b → rank b < rank a)
    (hsame : ∀ a b, same a b = true → rank a = rank b) (hn : rank a < n)
    (hv : ∀ b ∈ visited, rank a ≤ rank b) : next (chase next same n visited a) = none := by
  induction n generalizing visited a with
  | zero => omega
  | succ n ih =>
    cases h : next a with
    | none =>
      rw [chase_none h]
      exact h
    | some b =>
      have hlt := hrank a b h
      have hany : visited.any (same b) = false := by
        rw [List.any_eq_false]
        intro c hc hbc
        have hle := hv c hc
        have heq := hsame b c hbc
        omega
      rw [chase_step h hany]
      refine ih (by omega) fun c hc => ?_
      rcases List.mem_cons.1 hc with rfl | hc
      · exact le_rfl
      · have hle := hv c hc
        omega

/-- Along a path with different targets the chase goes on. -/
theorem chase_path {c : Nat → α} {k : Nat} (hstep : ∀ i < k, next (c i) = some (c (i + 1)))
    (hne : ∀ i j, i < j → j < k → same (c (j + 1)) (c (i + 1)) = false) {j : Nat} (hj : j ≤ k) :
    chase next same (n + j) [] (c 0) =
      chase next same n (((List.range j).map fun i => c (i + 1)).reverse) (c j) := by
  induction j generalizing n with
  | zero => rfl
  | succ j ih =>
    have hprev := ih (n := n + 1) (by omega)
    rw [show n + 1 + j = n + (j + 1) from by omega] at hprev
    rw [hprev, chase_step (hstep j (by omega))]
    · rw [List.range_succ, List.map_append, List.reverse_append]
      rfl
    · rw [List.any_eq_false]
      intro b hb
      obtain ⟨i, hi, rfl⟩ := List.mem_map.1 (List.mem_reverse.1 hb)
      rw [hne i j (List.mem_range.1 hi) (by omega)]
      simp

/-- On a cycle the chase goes around once. -/
theorem chase_cycle {c : Nat → α} {k : Nat} (hk : 0 < k)
    (hstep : ∀ i ≤ k, next (c i) = some (c (i + 1)))
    (hne : ∀ i j, i < j → j < k → same (c (j + 1)) (c (i + 1)) = false)
    (hback : same (c (k + 1)) (c 1) = true) (hn : k < n) : chase next same n [] (c 0) = c k := by
  obtain ⟨m, rfl⟩ : ∃ m, n = m + 1 + k := ⟨n - k - 1, by omega⟩
  rw [chase_path (fun i hi => hstep i hi.le) hne le_rfl, chase_stop (hstep k le_rfl)]
  rw [List.any_eq_true]
  exact ⟨c 1, List.mem_reverse.2 (List.mem_map.2 ⟨0, List.mem_range.2 hk, rfl⟩), hback⟩

end Chase

/-! ## Ranks -/

section Rank

variable {R : α → α → Prop} {dom : Finset α} {a b : α}

open Classical in
/-- The number of elements of the domain that lie on a path from `a`. -/
noncomputable def pathRank (R : α → α → Prop) (dom : Finset α) (a : α) : Nat :=
  (dom.filter fun b => Relation.ReflTransGen R a b).card

open Classical in
theorem pathRank_le : pathRank R dom a ≤ dom.card := by
  unfold pathRank
  exact Finset.card_filter_le _ _

open Classical in
theorem pathRank_pos (ha : a ∈ dom) : 0 < pathRank R dom a := by
  unfold pathRank
  exact Finset.card_pos.2 ⟨a, Finset.mem_filter.2 ⟨ha, .refl⟩⟩

open Classical in
/-- Without cycles the rank decreases along the relation. -/
theorem pathRank_lt (hac : ∀ a, ¬Relation.TransGen R a a) (ha : a ∈ dom) (h : R a b) :
    pathRank R dom b < pathRank R dom a := by
  unfold pathRank
  refine Finset.card_lt_card (Finset.ssubset_iff_of_subset ?_ |>.2 ⟨a, ?_, ?_⟩)
  · intro c hc
    rw [Finset.mem_filter] at hc ⊢
    exact ⟨hc.1, .head h hc.2⟩
  · exact Finset.mem_filter.2 ⟨ha, .refl⟩
  · intro hmem
    exact hac a (.head' h (Finset.mem_filter.1 hmem).2)

end Rank

/-! ## Cycles of an extended relation -/

section Extend

variable {R : α → α → Prop} {u w a b : α}

/-- A path with one more edge from `w` to `u` takes it or does not. -/
theorem transGen_extend (h : Relation.TransGen (fun a b => R a b ∨ a = w ∧ b = u) a b) :
    Relation.TransGen R a b ∨ Relation.ReflTransGen R a w ∧ Relation.ReflTransGen R u b := by
  induction h with
  | single h =>
    rcases h with h | ⟨rfl, rfl⟩
    · exact .inl (.single h)
    · exact .inr ⟨.refl, .refl⟩
  | tail _ h ih =>
    rcases ih with hab | ⟨haw, hub⟩
    · rcases h with h | ⟨rfl, rfl⟩
      · exact .inl (hab.tail h)
      · exact .inr ⟨hab.to_reflTransGen, .refl⟩
    · rcases h with h | ⟨rfl, rfl⟩
      · exact .inr ⟨haw, hub.tail h⟩
      · exact .inr ⟨haw, .refl⟩

/-- A new edge closes a cycle only behind a path from its end to its start. -/
theorem path_of_new_cycle (hac : ∀ a, ¬Relation.TransGen R a a)
    (h : Relation.TransGen (fun a b => R a b ∨ a = w ∧ b = u) a a) :
    Relation.ReflTransGen R u w := by
  rcases transGen_extend h with h | ⟨haw, hua⟩
  · exact absurd h (hac a)
  · exact hua.trans haw

end Extend

/-! ## Walking around a cycle -/

section Walk

variable {R : α → α → Prop} {a : α}

open Classical in
/-- A step along a relation, where there is one. -/
noncomputable def stepAlong (R : α → α → Prop) (a : α) : α :=
  if h : ∃ b, R a b then h.choose else a

theorem stepAlong_eq (hfun : ∀ a b c, R a b → R a c → b = c) {b : α} (h : R a b) :
    stepAlong R a = b := by
  have hex : ∃ b, R a b := ⟨b, h⟩
  unfold stepAlong
  rw [dif_pos hex]
  exact hfun a _ _ hex.choose_spec h

theorem iterate_stepAlong (hfun : ∀ a b c, R a b → R a c → b = c) {b : α}
    (h : Relation.TransGen R a b) : ∃ n, (stepAlong R)^[n + 1] a = b := by
  induction h with
  | single h => exact ⟨0, stepAlong_eq hfun h⟩
  | tail _ h ih =>
    obtain ⟨n, rfl⟩ := ih
    refine ⟨n + 1, ?_⟩
    rw [Function.iterate_succ_apply']
    exact stepAlong_eq hfun h

/-- A cycle of a relation that is a partial function, walked around without end: `k` is
its length. -/
theorem exists_walk (hfun : ∀ a b c, R a b → R a c → b = c) (h : Relation.TransGen R a a) :
    ∃ (k : Nat) (c : Nat → α), 0 < k ∧ c 0 = a ∧ (∀ i, R (c i) (c (i + 1))) ∧
      (∀ i, c (i + k) = c i) ∧ ∀ i j, i < j → j < i + k → c j ≠ c i := by
  let s := stepAlong R
  have hcycle : ∀ i, Relation.TransGen R (s^[i] a) (s^[i] a) := by
    intro i
    induction i with
    | zero => exact h
    | succ i ih =>
      rw [Function.iterate_succ_apply']
      obtain ⟨b, hb, hrest⟩ := Relation.TransGen.head'_iff.1 ih
      rw [show s (s^[i] a) = b from stepAlong_eq hfun hb]
      exact Relation.TransGen.tail' hrest hb
  have hper : a ∈ Function.periodicPts s := by
    obtain ⟨n, hn⟩ := iterate_stepAlong hfun h
    exact Function.mk_mem_periodicPts (Nat.succ_pos n) hn
  refine ⟨Function.minimalPeriod s a, fun i => s^[i] a, Function.minimalPeriod_pos_of_mem_periodicPts hper,
    rfl, fun i => ?_, fun i => Function.iterate_add_minimalPeriod_eq, fun i j hij hj heq => ?_⟩
  · obtain ⟨b, hb, -⟩ := Relation.TransGen.head'_iff.1 (hcycle i)
    dsimp only
    rw [Function.iterate_succ_apply', show s (s^[i] a) = b from stepAlong_eq hfun hb]
    exact hb
  · obtain ⟨d, rfl⟩ := Nat.exists_eq_add_of_le' hij.le
    have hd : Function.IsPeriodicPt s d (s^[i] a) := by
      dsimp only at heq
      rw [Function.iterate_add_apply] at heq
      exact heq
    refine Function.not_isPeriodicPt_of_pos_of_lt_minimalPeriod (by omega) ?_ hd
    rw [Function.minimalPeriod_apply_iterate hper]
    omega

end Walk

end Cact
