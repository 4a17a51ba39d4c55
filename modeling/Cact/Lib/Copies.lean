import Mathlib

/-!
# Copying objects to fresh addresses

A list of objects is copied one after the other, each to the next free address, and a map
records where the object at an address went. Links between the objects are not followed
here; the map is what they are mended with afterwards.

- `copyAll`: the loop.
- `copyAll_append`: two loops that go on with one map are one loop.
- `Relocates`: the map sends each old address to a fresh one, and no two to the same.
- `relocates_copyAll`, `objs_copyAll`: what the loop leaves.
-/

namespace Cact

/-- The state after some objects are copied. -/
structure Copies (α : Type) where
  objs : List α
  moved : Nat → Option Nat
  next : Nat

section CopyAll

variable {α : Type} (addr : α → Nat) (copy : Nat → α → α)

/-- The objects are copied in turn, from the address `next` on. -/
def copyAll : List α → Nat → (Nat → Option Nat) → Copies α
  | [], next, moved => ⟨[], moved, next⟩
  | x :: xs, next, moved =>
    let rest := copyAll xs (next + 1) (Function.update moved (addr x) (some next))
    ⟨copy next x :: rest.objs, rest.moved, rest.next⟩

variable {addr copy} {xs ys : List α} {next : Nat} {moved : Nat → Option Nat}

theorem copyAll_append :
    copyAll addr copy (xs ++ ys) next moved =
      let first := copyAll addr copy xs next moved
      let second := copyAll addr copy ys first.next first.moved
      ⟨first.objs ++ second.objs, second.moved, second.next⟩ := by
  induction xs generalizing next moved with
  | nil => rfl
  | cons x xs ih =>
    rw [List.cons_append, copyAll, ih]
    rfl

theorem next_copyAll : (copyAll addr copy xs next moved).next = next + xs.length := by
  induction xs generalizing next moved with
  | nil => rfl
  | cons x xs ih =>
    refine ih.trans ?_
    rw [List.length_cons]
    omega

theorem length_objs_copyAll : (copyAll addr copy xs next moved).objs.length = xs.length := by
  induction xs generalizing next moved with
  | nil => rfl
  | cons x xs ih => exact congrArg Nat.succ ih

/-- Only the addresses of the objects are recorded. -/
theorem moved_of_not_mem {a : Nat} (ha : a ∉ xs.map addr) :
    (copyAll addr copy xs next moved).moved a = moved a := by
  induction xs generalizing next moved with
  | nil => rfl
  | cons x xs ih =>
    rw [List.map_cons, List.mem_cons, not_or] at ha
    exact (ih ha.2).trans (Function.update_of_ne ha.1 _ _)

/-- The map sends the addresses of a list to different ones between two bounds. -/
structure Relocates (addrs : List Nat) (next next' : Nat) (moved : Nat → Option Nat) : Prop where
  fresh : ∀ a ∈ addrs, ∃ y, moved a = some y ∧ next ≤ y ∧ y < next'
  inj : ∀ a ∈ addrs, ∀ b ∈ addrs, moved a = moved b → a = b

theorem relocates_copyAll (hn : (xs.map addr).Nodup) :
    Relocates (xs.map addr) next (copyAll addr copy xs next moved).next
      (copyAll addr copy xs next moved).moved := by
  induction xs generalizing next moved with
  | nil => exact ⟨by simp, by simp⟩
  | cons x xs ih =>
    rw [List.map_cons, List.nodup_cons] at hn
    have hrest := @ih (next + 1) (Function.update moved (addr x) (some next)) hn.2
    -- the first object is recorded before the others, which do not stand where it does
    have hfirst : (copyAll addr copy (x :: xs) next moved).moved (addr x) = some next :=
      (moved_of_not_mem hn.1).trans (Function.update_self _ _ _)
    constructor
    · intro a ha
      rcases List.mem_cons.1 ha with rfl | ha
      · refine ⟨next, hfirst, Nat.le_refl next, ?_⟩
        rw [next_copyAll, List.length_cons]
        omega
      · obtain ⟨y, hy, hle, hlt⟩ := hrest.fresh a ha
        exact ⟨y, hy, by omega, hlt⟩
    · have hother : ∀ a ∈ xs.map addr,
          (copyAll addr copy (x :: xs) next moved).moved a ≠ some next := by
        intro a ha heq
        obtain ⟨y, hy, hle, -⟩ := hrest.fresh a ha
        cases hy.symm.trans heq
        omega
      intro a ha b hb hab
      rcases List.mem_cons.1 ha with rfl | ha
      · rcases List.mem_cons.1 hb with rfl | hb
        · rfl
        · exact absurd (hab.symm.trans hfirst) (hother b hb)
      · rcases List.mem_cons.1 hb with rfl | hb
        · exact absurd (hab.trans hfirst) (hother a ha)
        · exact hrest.inj a ha b hb hab

/-- Each object is copied to where the map sends it. -/
theorem objs_copyAll (hn : (xs.map addr).Nodup) :
    (copyAll addr copy xs next moved).objs =
      xs.map fun x => copy (((copyAll addr copy xs next moved).moved (addr x)).getD 0) x := by
  induction xs generalizing next moved with
  | nil => rfl
  | cons x xs ih =>
    rw [List.map_cons, List.nodup_cons] at hn
    have hfirst : (copyAll addr copy (x :: xs) next moved).moved (addr x) = some next :=
      (moved_of_not_mem hn.1).trans (Function.update_self _ _ _)
    rw [List.map_cons, hfirst]
    exact congrArg (copy next x :: ·) (ih hn.2)

end CopyAll

end Cact
