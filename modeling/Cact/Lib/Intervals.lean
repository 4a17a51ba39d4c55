import Mathlib

/-!
# Intervals in a row

An allocator that only moves forward hands out intervals of numbers one after another.

- `Laid`: each interval starts behind the one before it.
- `Laid.pairwise_disjoint`, `Laid.mem`: they share nothing, and stay between both ends.
-/

namespace Cact

namespace Intervals

/-- `size` numbers from `start` on. -/
structure Interval where
  start : Nat
  size : Nat
  deriving DecidableEq, Repr

namespace Interval

def stop (i : Interval) : Nat := i.start + i.size

/-- The numbers of an interval. -/
def elems (i : Interval) : Set Nat := Set.Ico i.start i.stop

theorem disjoint_of_le {i j : Interval} (h : i.stop ≤ j.start) : Disjoint i.elems j.elems := by
  rw [elems, elems, Set.Ico_disjoint_Ico]
  omega

theorem not_disjoint_of_start_eq {i j : Interval} (h : i.start = j.start) (hi : 0 < i.size)
    (hj : 0 < j.size) : ¬Disjoint i.elems j.elems := by
  rw [elems, elems, Set.Ico_disjoint_Ico, stop, stop]
  omega

end Interval

/-- The intervals follow each other, between two bounds. -/
def Laid : Nat → List Interval → Nat → Prop
  | start, [], stop => start ≤ stop
  | start, i :: is, stop => start ≤ i.start ∧ Laid i.stop is stop

variable {a b c : Nat} {i : Interval} {is js : List Interval}

theorem Laid.le (h : Laid a is b) : a ≤ b := by
  induction is generalizing a with
  | nil => exact h
  | cons i is ih =>
    obtain ⟨hstart, hrest⟩ := h
    have hstop : i.start ≤ i.stop := Nat.le_add_right _ _
    exact hstart.trans (hstop.trans (ih hrest))

theorem Laid.mono (hc : b ≤ c) (h : Laid a is b) : Laid a is c := by
  induction is generalizing a with
  | nil => exact Nat.le_trans h hc
  | cons i is ih => exact ⟨h.1, ih h.2⟩

theorem Laid.append (h : Laid a is b) (h' : Laid b js c) : Laid a (is ++ js) c := by
  induction is generalizing a with
  | nil =>
    cases js with
    | nil => exact Nat.le_trans h h'
    | cons j js => exact ⟨Nat.le_trans h h'.1, h'.2⟩
  | cons i is ih => exact ⟨h.1, ih h.2⟩

/-- They stay between both ends. -/
theorem Laid.mem (h : Laid a is b) (hi : i ∈ is) : a ≤ i.start ∧ i.stop ≤ b := by
  induction is generalizing a with
  | nil => cases hi
  | cons j is ih =>
    obtain ⟨hstart, hrest⟩ := h
    rcases List.mem_cons.mp hi with rfl | hmem
    · exact ⟨hstart, hrest.le⟩
    · obtain ⟨hlow, hhigh⟩ := ih hrest hmem
      have hstop : j.start ≤ j.stop := Nat.le_add_right _ _
      exact ⟨hstart.trans (hstop.trans hlow), hhigh⟩

/-- They share nothing. -/
theorem Laid.pairwise_disjoint (h : Laid a is b) :
    is.Pairwise fun i j => Disjoint i.elems j.elems := by
  induction is generalizing a with
  | nil => exact List.Pairwise.nil
  | cons i is ih =>
    refine List.Pairwise.cons (fun j hj => ?_) (ih h.2)
    exact Interval.disjoint_of_le (h.2.mem hj).1

end Intervals
end Cact
