import Mathlib

/-!
# Named lists with handles

A family of linked lists, named by `L`, holds values of `T`, and a map remembers where
each value stands: in which list, and at which handle (an iterator). A value is moved
between the lists in constant time through that map. Handles are numbers that are never
reused, so an entry that the map has lost sight of stays in its list and can be told
from the entry the map points to.

`place` is the abstract view: which list each value is in. On a `Coherent` family, where
map and lists agree, every operation is an update of `place`.
-/

namespace Cact

/-- What a lookup can run into: a key that is not in the map, or a handle whose entry is
no longer in its list. -/
inductive LookupFault where
  | outOfRange
  | dangling
  | emptyFront
  deriving DecidableEq, Repr

structure Worklists (L T : Type) where
  entries : L → List (Nat × T)
  loc : T → Option (L × Nat)
  fresh : Nat

namespace Worklists

variable {L T : Type}

def empty : Worklists L T := ⟨fun _ => [], fun _ => none, 0⟩

/-- The list a value is in. -/
def place (w : Worklists L T) (t : T) : Option L := (w.loc t).map Prod.fst

/-- `locations.at(t).first`. -/
def listAt (w : Worklists L T) (t : T) : Except LookupFault L :=
  match w.loc t with
  | some p => .ok p.1
  | none => .error .outOfRange

/-- The values of a list, in its order. -/
def values (w : Worklists L T) (l : L) : List T := (w.entries l).map Prod.snd

def front (w : Worklists L T) (l : L) : Except LookupFault T :=
  match w.values l with
  | t :: _ => .ok t
  | [] => .error .emptyFront

def back (w : Worklists L T) (l : L) : Except LookupFault T :=
  match (w.values l).getLast? with
  | some t => .ok t
  | none => .error .emptyFront

variable [DecidableEq L] [DecidableEq T]

/-- `list.push_back(t); locations[t] = {&list, prev(list.end())};`. -/
def pushBack (w : Worklists L T) (l : L) (t : T) : Worklists L T where
  entries := Function.update w.entries l (w.entries l ++ [(w.fresh, t)])
  loc := Function.update w.loc t (some (l, w.fresh))
  fresh := w.fresh + 1

/-- `list->erase(it)`: the entry has to be there. -/
def eraseAt (w : Worklists L T) (p : L × Nat) : Except LookupFault (Worklists L T) :=
  if (w.entries p.1).any fun e => e.1 == p.2 then
    .ok { w with entries := Function.update w.entries p.1
                    ((w.entries p.1).filter fun e => e.1 != p.2) }
  else .error .dangling

/-- Moves a value to the end of another list. -/
def relocate (w : Worklists L T) (t : T) (l : L) : Except LookupFault (Worklists L T) :=
  match w.loc t with
  | none => .error .outOfRange
  | some p => do
    let w ← w.eraseAt p
    pure (w.pushBack l t)

/-- Takes `old` out of its list and its map and enters `new` at the end of that list. -/
def replace (w : Worklists L T) (old : T) (new : Option T) :
    Except LookupFault (Worklists L T) :=
  match w.loc old with
  | none => .error .outOfRange
  | some p => do
    let w ← { w with loc := Function.update w.loc old none }.eraseAt p
    match new with
    | some t => pure (w.pushBack p.1 t)
    | none => pure w

/-- Map and lists agree, and no handle was given out twice. -/
structure Coherent (w : Worklists L T) : Prop where
  mem_iff : ∀ l i t, (i, t) ∈ w.entries l ↔ w.loc t = some (l, i)
  handle_inj : ∀ t u l m i, w.loc t = some (l, i) → w.loc u = some (m, i) → t = u
  handle_lt : ∀ t l i, w.loc t = some (l, i) → i < w.fresh

/-! ## The abstract view -/

section Spec

omit [DecidableEq L] [DecidableEq T]

variable {w : Worklists L T} {t u : T} {l m : L}

theorem coherent_empty : (empty : Worklists L T).Coherent where
  mem_iff := by intro l i t; simp [empty]
  handle_inj := by intro t u l m i h; simp [empty] at h
  handle_lt := by intro t l i h; simp [empty] at h

@[simp] theorem place_empty (t : T) : (empty : Worklists L T).place t = none := rfl

theorem place_eq_some : w.place t = some l ↔ ∃ i, w.loc t = some (l, i) := by
  simp [place]

theorem listAt_eq (h : w.place t = some l) : w.listAt t = .ok l := by
  obtain ⟨i, hi⟩ := place_eq_some.1 h
  simp [listAt, hi]

theorem place_of_listAt (h : w.listAt t = .ok l) : w.place t = some l := by
  unfold listAt at h
  unfold place
  cases hloc : w.loc t with
  | none => simp [hloc] at h
  | some p =>
    rw [hloc] at h
    cases h
    rfl

theorem mem_values (hw : w.Coherent) : t ∈ w.values l ↔ w.place t = some l := by
  rw [place_eq_some, values, List.mem_map]
  constructor
  · rintro ⟨⟨i, t⟩, he, rfl⟩
    exact ⟨i, (hw.mem_iff l i t).1 he⟩
  · rintro ⟨i, hi⟩
    exact ⟨(i, t), (hw.mem_iff l i t).2 hi, rfl⟩

theorem values_eq_nil (hw : w.Coherent) : w.values l = [] ↔ ∀ t, w.place t ≠ some l := by
  rw [List.eq_nil_iff_forall_not_mem]
  exact forall_congr' fun t => not_congr (mem_values hw)

theorem front_eq {ts : List T} (h : w.values l = t :: ts) : w.front l = .ok t := by
  simp [front, h]

theorem values_of_front (h : w.front l = .ok t) : ∃ ts, w.values l = t :: ts := by
  unfold front at h
  cases hv : w.values l with
  | nil => simp [hv] at h
  | cons u ts =>
    rw [hv] at h
    cases h
    exact ⟨ts, rfl⟩

theorem values_of_back (h : w.back l = .ok t) : ∃ ts, w.values l = ts ++ [t] := by
  unfold back at h
  cases hv : (w.values l).getLast? with
  | none => simp [hv] at h
  | some u =>
    rw [hv] at h
    cases h
    exact List.getLast?_eq_some_iff.1 hv

theorem back_spec (hw : w.Coherent) (h : (w.values l).isEmpty = false) :
    ∃ t, w.back l = .ok t ∧ w.place t = some l := by
  have hne : w.values l ≠ [] := by simpa using h
  refine ⟨(w.values l).getLast hne, ?_, (mem_values hw).1 (List.getLast_mem hne)⟩
  simp [back, List.getLast?_eq_getLast_of_ne_nil hne]

theorem place_of_values_cons (hw : w.Coherent) {ts : List T} (h : w.values l = t :: ts) :
    w.place t = some l :=
  (mem_values hw).1 (by simp [h])

variable [DecidableEq L] [DecidableEq T]

theorem pushBack_coherent (hw : w.Coherent) (ht : w.place t = none) :
    (w.pushBack l t).Coherent := by
  have hnone : w.loc t = none := by simpa [place] using ht
  refine ⟨fun m i u => ?_, fun u v m n i hu hv => ?_, fun u m i hu => ?_⟩
  · simp only [pushBack, Function.update_apply]
    by_cases hut : u = t
    · subst hut
      have hno : ∀ m i, (i, u) ∉ w.entries m := fun m i h => by
        rw [(hw.mem_iff m i u).1 h] at hnone
        cases hnone
      rw [if_pos rfl]
      by_cases hm : m = l
      · subst hm
        simp [hno, eq_comm]
      · have hlm : ¬l = m := fun h => hm h.symm
        simp [hno, hm, hlm]
    · rw [if_neg hut]
      by_cases hm : m = l
      · subst hm
        simp [hut, hw.mem_iff]
      · simp [hm, hw.mem_iff]
  · simp only [pushBack, Function.update_apply] at hu hv
    by_cases hut : u = t
    · rw [if_pos hut] at hu
      by_cases hvt : v = t
      · rw [hut, hvt]
      · rw [if_neg hvt] at hv
        have := hw.handle_lt v n i hv
        simp at hu
        omega
    · rw [if_neg hut] at hu
      by_cases hvt : v = t
      · rw [if_pos hvt] at hv
        have := hw.handle_lt u m i hu
        simp at hv
        omega
      · rw [if_neg hvt] at hv
        exact hw.handle_inj u v m n i hu hv
  · simp only [pushBack, Function.update_apply] at hu ⊢
    by_cases hut : u = t
    · rw [if_pos hut] at hu
      simp at hu
      omega
    · rw [if_neg hut] at hu
      have := hw.handle_lt u m i hu
      omega

theorem place_pushBack : (w.pushBack l t).place = Function.update w.place t (some l) := by
  funext u
  simp only [place, pushBack, Function.update_apply]
  by_cases h : u = t
  · simp [h]
  · simp [h]

/-- The map without a value and the lists without its entry. -/
private theorem eraseAt_spec (hw : w.Coherent) {i : Nat} (ht : w.loc t = some (l, i)) :
    ∃ w', { w with loc := Function.update w.loc t none }.eraseAt (l, i) = .ok w' ∧
      w'.Coherent ∧ w'.place = Function.update w.place t none := by
  have hmem : (w.entries l).any (fun e => e.1 == i) = true :=
    List.any_eq_true.2 ⟨(i, t), (hw.mem_iff l i t).2 ht, by simp⟩
  refine ⟨_, by simp only [eraseAt]; rw [if_pos hmem], ⟨fun m j u => ?_, fun u v m n j hu hv => ?_,
    fun u m j hu => ?_⟩, ?_⟩
  · simp only [Function.update_apply]
    by_cases hut : u = t
    · subst hut
      rw [if_pos rfl]
      refine ⟨fun h => ?_, fun h => by cases h⟩
      exfalso
      by_cases hm : m = l
      · subst hm
        rw [if_pos rfl, List.mem_filter, hw.mem_iff, ht] at h
        simp at h
        exact h.2 h.1.symm
      · rw [if_neg hm, hw.mem_iff, ht] at h
        simp at h
        exact hm h.1.symm
    · rw [if_neg hut]
      by_cases hm : m = l
      · subst hm
        rw [if_pos rfl, List.mem_filter, hw.mem_iff]
        refine ⟨fun h => h.1, fun h => ⟨h, ?_⟩⟩
        simp only [bne_iff_ne, ne_eq]
        intro hji
        subst hji
        exact hut (hw.handle_inj u t m m j h ht)
      · rw [if_neg hm, hw.mem_iff]
  · simp only [Function.update_apply] at hu hv
    by_cases hut : u = t
    · simp [hut] at hu
    · by_cases hvt : v = t
      · simp [hvt] at hv
      · rw [if_neg hut] at hu
        rw [if_neg hvt] at hv
        exact hw.handle_inj u v m n j hu hv
  · simp only [Function.update_apply] at hu
    by_cases hut : u = t
    · simp [hut] at hu
    · rw [if_neg hut] at hu
      exact hw.handle_lt u m j hu
  · funext u
    simp only [place, Function.update_apply]
    by_cases hut : u = t
    · simp [hut]
    · simp [hut]

theorem replace_spec (hw : w.Coherent) (hold : w.place t = some l) (hut : w.place u = none) :
    ∃ w', w.replace t (some u) = .ok w' ∧ w'.Coherent ∧
      w'.place = Function.update (Function.update w.place t none) u (some l) := by
  obtain ⟨i, hi⟩ := place_eq_some.1 hold
  obtain ⟨w', hw', hcoh, hplace⟩ := eraseAt_spec hw hi
  have hne : u ≠ t := by
    rintro rfl
    simp [hold] at hut
  refine ⟨w'.pushBack l u, ?_, pushBack_coherent hcoh ?_, ?_⟩
  · unfold replace
    rw [hi]
    simp only [hw']
    rfl
  · rw [hplace, Function.update_of_ne hne, hut]
  · rw [place_pushBack, hplace]

theorem remove_spec (hw : w.Coherent) (hold : w.place t = some l) :
    ∃ w', w.replace t none = .ok w' ∧ w'.Coherent ∧
      w'.place = Function.update w.place t none := by
  obtain ⟨i, hi⟩ := place_eq_some.1 hold
  obtain ⟨w', hw', hcoh, hplace⟩ := eraseAt_spec hw hi
  refine ⟨w', ?_, hcoh, hplace⟩
  unfold replace
  rw [hi]
  simp only [hw']
  rfl

/-- Erasing the entry and entering the value again forgets that the map still had it. -/
private theorem relocate_eq {i : Nat} (ht : w.loc t = some (l, i)) :
    w.relocate t m = ({ w with loc := Function.update w.loc t none }.eraseAt (l, i)).map
      fun w' : Worklists L T => w'.pushBack m t := by
  unfold relocate eraseAt
  rw [ht]
  by_cases h : (w.entries l).any (fun e => e.1 == i) = true
  · simp only [if_pos h]
    show Except.ok _ = Except.ok _
    simp [pushBack]
  · simp only [if_neg h]
    rfl

theorem relocate_spec (hw : w.Coherent) (ht : w.place t = some l) :
    ∃ w', w.relocate t m = .ok w' ∧ w'.Coherent ∧
      w'.place = Function.update w.place t (some m) := by
  obtain ⟨i, hi⟩ := place_eq_some.1 ht
  obtain ⟨w', hw', hcoh, hplace⟩ := eraseAt_spec hw hi
  refine ⟨w'.pushBack m t, ?_, pushBack_coherent hcoh ?_, ?_⟩
  · rw [relocate_eq hi, hw']
    rfl
  · rw [hplace, Function.update_self]
  · rw [place_pushBack, hplace, Function.update_idem]

/-- A relocation succeeds only on a value that is in a list. -/
theorem place_of_relocate {w' : Worklists L T} (h : w.relocate t m = .ok w') :
    ∃ l, w.place t = some l := by
  unfold relocate at h
  unfold place
  cases hloc : w.loc t with
  | none =>
    rw [hloc] at h
    cases h
  | some p => exact ⟨p.1, rfl⟩

theorem listAt_relocate {w' : Worklists L T} (h : w.relocate t m = .ok w') (hu : u ≠ t) :
    w'.listAt u = w.listAt u := by
  unfold relocate eraseAt at h
  cases hloc : w.loc t with
  | none =>
    rw [hloc] at h
    cases h
  | some p =>
    rw [hloc] at h
    dsimp only at h
    by_cases hany : ((w.entries p.1).any fun e => e.1 == p.2) = true
    · rw [if_pos hany] at h
      cases h
      simp only [listAt, pushBack, Function.update_of_ne hu]
    · rw [if_neg hany] at h
      cases h

/-- The other lists stay as they are, and the new one has the value at its end. -/
theorem values_relocate {w' : Worklists L T} (ht : w.place t = some l) (h : w.relocate t m = .ok w')
    {k : L} (hk : k ≠ l) : w'.values k = if k = m then w.values k ++ [t] else w.values k := by
  obtain ⟨i, hi⟩ := place_eq_some.1 ht
  unfold relocate eraseAt at h
  rw [hi] at h
  dsimp only at h
  by_cases hany : ((w.entries l).any fun e => e.1 == i) = true
  · rw [if_pos hany] at h
    cases h
    simp only [values, pushBack, Function.update_apply]
    by_cases hkm : k = m
    · subst hkm
      simp [hk]
    · simp [hk, hkm]
  · rw [if_neg hany] at h
    cases h

/-- The value itself is gone from the old list. -/
theorem values_relocate_self {w' : Worklists L T} (hw : w.Coherent) (ht : w.place t = some l)
    (h : w.relocate t m = .ok w') (hm : m ≠ l) : w'.values l = (w.values l).filter (· ≠ t) := by
  obtain ⟨i, hi⟩ := place_eq_some.1 ht
  unfold relocate eraseAt at h
  rw [hi] at h
  dsimp only at h
  by_cases hany : ((w.entries l).any fun e => e.1 == i) = true
  · rw [if_pos hany] at h
    cases h
    simp only [values, pushBack, Function.update_apply, if_neg hm.symm, if_true]
    rw [List.filter_map]
    congr 1
    refine List.filter_congr fun e he => ?_
    -- in the list, the handle and the value tell each other
    have hloc := (hw.mem_iff l e.1 e.2).1 he
    by_cases het : e.2 = t
    · have hei : e.1 = i := by
        rw [het, hi] at hloc
        simpa using hloc.symm
      simp [het, hei]
    · have hei : e.1 ≠ i := fun h' => het (hw.handle_inj _ _ l l i (h' ▸ hloc) hi)
      simp [het, hei]
  · rw [if_neg hany] at h
    cases h

end Spec

end Worklists

end Cact
