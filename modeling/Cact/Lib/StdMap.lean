import Mathlib

/-!
# Ordered maps

A map that keeps its keys sorted by a comparison and takes two keys for the same when
neither is less than the other. The comparison need not tell all keys apart: it is only
irreflexive and transitive. A lookup goes to the first key that is not less than the one
asked for.

- `StdMap`, `slot`, `get`, `assign`: the map.
- `slot_isSome`: a key that is not told apart from one in the map is found.
- `Sorted.assign`, `mem_keys_assign`: what an assignment does to the keys.
- `Assigned`: the map that a list of assignments leaves.
-/

namespace Cact

/-- The pair of a key is found, in a list that has each key once. -/
theorem lookup_of_mem {α β : Type} [BEq α] [LawfulBEq α] {l : List (α × β)} {a : α} {b : β}
    (hn : (l.map Prod.fst).Nodup) (h : (a, b) ∈ l) : l.lookup a = some b := by
  induction l with
  | nil => cases h
  | cons p l ih =>
    rw [List.map_cons, List.nodup_cons] at hn
    rcases List.mem_cons.1 h with rfl | h
    · rw [List.lookup_cons, beq_self_eq_true]
    · have hne : (a == p.1) = false := by
        rw [beq_eq_false_iff_ne]
        rintro rfl
        exact hn.1 (List.mem_map.2 ⟨(p.1, b), h, rfl⟩)
      rw [List.lookup_cons, hne]
      exact ih hn.2 h

structure StdMap (K V : Type) where
  keys : List K
  vals : K → V

namespace StdMap

variable {K V : Type} (lt : K → K → Bool)

/-- The key of the map that a key is taken for. -/
def slot (keys : List K) (q : K) : Option K :=
  match keys.find? fun k => !lt k q with
  | none => none
  | some k => if lt q k then none else some k

/-- `operator[]`, for reading. A key that is not there gets the default value. -/
def get (m : StdMap K V) (q : K) (default : V) : V :=
  match slot lt m.keys q with
  | none => default
  | some k => m.vals k

/-- `operator[]`, for writing. -/
def assign [DecidableEq K] (m : StdMap K V) (q : K) (v : V) : StdMap K V :=
  match slot lt m.keys q with
  | none => ⟨m.keys.takeWhile (lt · q) ++ q :: m.keys.dropWhile (lt · q), Function.update m.vals q v⟩
  | some k => ⟨m.keys, Function.update m.vals k v⟩

variable {lt} {keys : List K} {k q : K}

/-- The keys are in order. -/
def Sorted (lt : K → K → Bool) (keys : List K) : Prop := keys.Pairwise fun a b => lt a b = true

theorem slot_eq_some (h : slot lt keys q = some k) :
    k ∈ keys ∧ lt k q = false ∧ lt q k = false := by
  unfold slot at h
  split at h
  next => cases h
  next k' hk' =>
    split at h
    next => cases h
    next hlt =>
      cases h
      have hnot := List.find?_some hk'
      exact ⟨List.mem_of_find?_eq_some hk', by simpa using hnot, by simpa using hlt⟩

section Order

variable (irrefl : ∀ a, lt a a = false) (trans : ∀ a b c, lt a b = true → lt b c = true → lt a c = true)

include trans in
theorem slot_isSome (hs : Sorted lt keys) (hk : k ∈ keys) (hkq : lt k q = false)
    (hqk : lt q k = false) : (slot lt keys q).isSome := by
  induction keys with
  | nil => cases hk
  | cons a keys ih =>
    rw [Sorted, List.pairwise_cons] at hs
    unfold slot
    rw [List.find?_cons]
    cases haq : lt a q with
    | true =>
      have hne : k ≠ a := by
        rintro rfl
        rw [haq] at hkq
        cases hkq
      exact ih hs.2 ((List.mem_cons.1 hk).resolve_left hne)
    | false =>
      have hqa : lt q a = false := by
        rcases List.mem_cons.1 hk with rfl | hk
        · exact hqk
        · by_contra hlt
          rw [trans q a k (by simpa using hlt) (hs.1 k hk)] at hqk
          cases hqk
      simp [hqa]

include irrefl in
/-- A key of the map is found itself. -/
theorem slot_self (hs : Sorted lt keys) (hk : k ∈ keys) : slot lt keys k = some k := by
  induction keys with
  | nil => cases hk
  | cons a keys ih =>
    rw [Sorted, List.pairwise_cons] at hs
    unfold slot
    rw [List.find?_cons]
    rcases List.mem_cons.1 hk with rfl | hk
    · simp [irrefl]
    · rw [hs.1 k hk]
      exact ih hs.2 hk

/-- Two keys of the map are told apart. -/
theorem Sorted.eq_of_not_lt (hs : Sorted lt keys) (hk : k ∈ keys) (hq : q ∈ keys)
    (hkq : lt k q = false) (hqk : lt q k = false) : k = q := by
  induction keys with
  | nil => cases hk
  | cons a keys ih =>
    rw [Sorted, List.pairwise_cons] at hs
    rcases List.mem_cons.1 hk with heq | hk'
    · rcases List.mem_cons.1 hq with heq' | hq'
      · rw [heq, heq']
      · rw [heq, hs.1 q hq'] at hkq
        cases hkq
    · rcases List.mem_cons.1 hq with heq | hq'
      · rw [heq, hs.1 k hk'] at hqk
        cases hqk
      · exact ih hs.2 hk' hq'

include trans in
theorem sorted_insert (hs : Sorted lt keys) (hq : slot lt keys q = none) :
    Sorted lt (keys.takeWhile (lt · q) ++ q :: keys.dropWhile (lt · q)) := by
  induction keys with
  | nil => simp [Sorted]
  | cons a keys ih =>
    rw [Sorted, List.pairwise_cons] at hs
    unfold slot at hq
    rw [List.find?_cons] at hq
    cases haq : lt a q with
    | true =>
      rw [haq] at hq
      rw [List.takeWhile_cons, List.dropWhile_cons, if_pos haq, if_pos haq, List.cons_append, Sorted,
        List.pairwise_cons]
      refine ⟨fun b hb => ?_, ih hs.2 hq⟩
      rcases List.mem_append.1 hb with hb | hb
      · exact hs.1 b (List.takeWhile_subset _ hb)
      · rcases List.mem_cons.1 hb with rfl | hb
        · exact haq
        · exact hs.1 b (List.dropWhile_subset _ hb)
    | false =>
      have hqa : lt q a = true := by
        rw [haq] at hq
        by_contra hlt
        simp [hlt] at hq
      have hneg : ¬lt a q = true := by simp [haq]
      rw [List.takeWhile_cons, List.dropWhile_cons, if_neg hneg, if_neg hneg, List.nil_append, Sorted,
        List.pairwise_cons, List.pairwise_cons]
      refine ⟨fun b hb => ?_, hs⟩
      rcases List.mem_cons.1 hb with rfl | hb
      · exact hqa
      · exact trans q a b hqa (hs.1 b hb)

end Order

section Assign

variable [DecidableEq K] {m : StdMap K V} {v : V}

theorem assign_of_slot (h : slot lt m.keys q = some k) :
    m.assign lt q v = ⟨m.keys, Function.update m.vals k v⟩ := by
  unfold assign
  rw [h]

theorem mem_keys_assign : k ∈ (m.assign lt q v).keys ↔
    k ∈ m.keys ∨ (slot lt m.keys q = none ∧ k = q) := by
  unfold assign
  cases hq : slot lt m.keys q with
  | some k' => simp
  | none =>
    have hsplit := congrArg (k ∈ ·) (List.takeWhile_append_dropWhile (p := (lt · q)) (l := m.keys))
    simp only [List.mem_append, eq_iff_iff] at hsplit
    rw [← hsplit]
    simp only [List.mem_append, List.mem_cons, true_and]
    tauto

theorem Sorted.assign (trans : ∀ a b c, lt a b = true → lt b c = true → lt a c = true)
    (hs : Sorted lt m.keys) : Sorted lt (m.assign lt q v).keys := by
  unfold StdMap.assign
  cases hq : slot lt m.keys q with
  | some k => exact hs
  | none => exact sorted_insert trans hs hq

/-- After the assignment the key is found. -/
theorem slot_assign_isSome (irrefl : ∀ a, lt a a = false)
    (trans : ∀ a b c, lt a b = true → lt b c = true → lt a c = true) (hs : Sorted lt m.keys) :
    (slot lt (m.assign lt q v).keys q).isSome := by
  cases hq : slot lt m.keys q with
  | some k =>
    rw [assign_of_slot hq, hq]
    rfl
  | none =>
    rw [slot_self irrefl (hs.assign trans) (mem_keys_assign.2 (.inr ⟨hq, rfl⟩))]
    rfl

/-- A key that was found is found after an assignment too. -/
theorem slot_isSome_assign (trans : ∀ a b c, lt a b = true → lt b c = true → lt a c = true)
    (hs : Sorted lt m.keys) {p : K} (hp : (slot lt m.keys p).isSome) :
    (slot lt (m.assign lt q v).keys p).isSome := by
  obtain ⟨k, hk⟩ := Option.isSome_iff_exists.1 hp
  obtain ⟨hmem, hkp, hpk⟩ := slot_eq_some hk
  exact slot_isSome trans (hs.assign trans) (mem_keys_assign.2 (.inl hmem)) hkp hpk

/-- A value of the map is the one just assigned, to a key not told apart, or an old one. -/
theorem vals_assign (irrefl : ∀ a, lt a a = false) (hk : k ∈ (m.assign lt q v).keys) :
    ((m.assign lt q v).vals k = v ∧ lt k q = false ∧ lt q k = false) ∨
      (k ∈ m.keys ∧ (m.assign lt q v).vals k = m.vals k) := by
  rw [mem_keys_assign] at hk
  unfold assign
  cases hq : slot lt m.keys q with
  | none =>
    by_cases hkq : k = q
    · subst hkq
      exact .inl ⟨Function.update_self k v m.vals, irrefl k, irrefl k⟩
    · exact .inr ⟨hk.resolve_right fun h => hkq h.2, Function.update_of_ne hkq v m.vals⟩
  | some k' =>
    by_cases hkk : k = k'
    · subst hkk
      obtain ⟨-, hkq, hqk⟩ := slot_eq_some hq
      exact .inl ⟨Function.update_self k v m.vals, hkq, hqk⟩
    · rw [hq] at hk
      exact .inr ⟨hk.resolve_right (by simp), Function.update_of_ne hkk v m.vals⟩

omit [DecidableEq K] in
theorem get_of_slot {d : V} (h : slot lt m.keys q = some k) : m.get lt q d = m.vals k := by
  unfold get
  rw [h]

end Assign

/-! ## Lists of assignments -/

/-- The map `m` is what the assignments of `ps` leave of an empty one. -/
structure Assigned (lt : K → K → Bool) (ps : List (K × V)) (m : StdMap K V) : Prop where
  sorted : Sorted lt m.keys
  keys : ∀ k ∈ m.keys, ∃ p ∈ ps, p.1 = k
  vals : ∀ k ∈ m.keys, ∃ p ∈ ps, m.vals k = p.2 ∧ lt k p.1 = false ∧ lt p.1 k = false
  found : ∀ p ∈ ps, (slot lt m.keys p.1).isSome

namespace Assigned

variable {m : StdMap K V} {ps : List (K × V)}

theorem nil {d : K → V} : Assigned lt [] ⟨[], d⟩ where
  sorted := List.Pairwise.nil
  keys k hk := by cases hk
  vals k hk := by cases hk
  found p hp := by cases hp

section Order

variable [DecidableEq K] (irrefl : ∀ a, lt a a = false)
  (trans : ∀ a b c, lt a b = true → lt b c = true → lt a c = true)

include irrefl trans in
theorem assign {p : K × V} (h : Assigned lt ps m) : Assigned lt (ps ++ [p]) (m.assign lt p.1 p.2) where
  sorted := h.sorted.assign trans
  keys k hk := by
    rcases mem_keys_assign.1 hk with hk | ⟨-, rfl⟩
    · obtain ⟨p', hp', hkey⟩ := h.keys k hk
      exact ⟨p', List.mem_append_left _ hp', hkey⟩
    · exact ⟨p, by simp, rfl⟩
  vals k hk := by
    rcases vals_assign irrefl hk with ⟨hv, hkp, hpk⟩ | ⟨hk, hv⟩
    · exact ⟨p, by simp, hv, hkp, hpk⟩
    · obtain ⟨p', hp', hval, hkp, hpk⟩ := h.vals k hk
      exact ⟨p', List.mem_append_left _ hp', hv.trans hval, hkp, hpk⟩
  found p' hp' := by
    rcases List.mem_append.1 hp' with hp' | hp'
    · exact slot_isSome_assign trans h.sorted (h.found p' hp')
    · have heq : p' = p := by simpa using hp'
      subst heq
      exact slot_assign_isSome irrefl trans h.sorted

include irrefl trans in
theorem foldl (qs : List (K × V)) (h : Assigned lt ps m) :
    Assigned lt (ps ++ qs) (qs.foldl (fun m p => m.assign lt p.1 p.2) m) := by
  induction qs generalizing ps m with
  | nil => simpa using h
  | cons q qs ih =>
    have hq := ih (h.assign irrefl trans (p := q))
    rwa [List.append_assoc] at hq

end Order

end Assigned

end StdMap
end Cact
