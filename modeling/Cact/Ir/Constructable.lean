import Cact.Ir.Subtype

/-!
# What may initialise what (`backend/ir/type.hpp`)

- `ofInit`: the types of constants and of initialiser lists.
- `constructable_flat`, `constructable_nested`: the two ways to read a list for an array.
- `constructable_refl`, `constructable_trans`: on these types the relation is a preorder.
-/

namespace Cact

namespace Ir

namespace Ty

variable {a b c elem elem' t : Ty} {n n' : Nat}

/-! ## Arrays and their elements -/

theorem dim_eq_zero : ∀ {t : Ty}, t.dim = 0 ↔ t.isArray = false
  | array _ _ => by simp [dim, isArray]
  | prim _ | sum _ | product _ | func _ _ | reference _ _ _ | top | bottom => by
    simp [dim, isArray]

theorem isArray_flatElem : ∀ t : Ty, t.flatElem.isArray = false
  | array elem _ => isArray_flatElem elem
  | prim _ | sum _ | product _ | func _ _ | reference _ _ _ | top | bottom => rfl

theorem flatElem_of_not_array (h : t.isArray = false) : t.flatElem = t := by
  cases t with
  | array _ _ => cases h
  | _ => rfl

theorem flatLength_of_not_array (h : t.isArray = false) : t.flatLength = 1 := by
  cases t with
  | array _ _ => cases h
  | _ => rfl

theorem exists_array (h : t.isArray = true) : ∃ elem n, t = array elem n := by
  cases t with
  | array elem n => exact ⟨elem, n, rfl⟩
  | _ => cases h

theorem sizeOf_flatten (t : Ty) : t.flatten.sizeOf = t.sizeOf := by
  cases t with
  | array elem n => rw [sizeOf_flat (array elem n), flatten, Ty.sizeOf, flatElem, flatLength, Nat.mul_comm]
  | _ => rfl

/-! ## Types of initialisers -/

/-- The type of a constant, of an initialiser list, or of an element of an empty one. -/
def OfInit : Ty → Prop
  | prim _ => True
  | bottom => True
  | array elem _ => elem.OfInit
  | _ => False

/-- Only bottom and the type itself are below a type without elements. -/
theorem constructable_scalar (ha : a.OfInit) (hb : b.OfInit) (hna : b.isArray = false) :
    a.constructable b = true ↔ a = bottom ∨ a = b := by
  cases a with
  | prim p =>
    cases b with
    | prim q => simp [constructable, le, leFuel, weight]
    | bottom => simp [constructable, le, leFuel, weight]
    | array _ _ => cases hna
    | _ => exact hb.elim
  | bottom => cases b <;> simp [constructable]
  | array elem n =>
    cases b with
    | prim q => simp [constructable, le, leFuel, weight]
    | bottom => simp [constructable, le, leFuel, weight]
    | array _ _ => cases hna
    | _ => exact hb.elim
  | _ => exact ha.elim

theorem not_constructable_array (ha : a.OfInit) (hna : a.isArray = false) (hbot : a ≠ bottom) :
    a.constructable (array elem n) = false := by
  cases a with
  | prim p => simp [constructable, le, leFuel, weight]
  | bottom => exact (hbot rfl).elim
  | array _ _ => cases hna
  | _ => exact ha.elim

theorem bottom_constructable : bottom.constructable t = true := by
  cases t <;> simp [constructable]

/-- A list of constants fills an array of any dimensions from its start on. -/
theorem constructable_flat (h : elem.isArray = false) :
    (array elem n).constructable (array elem' n') = true ↔
      elem.constructable elem'.flatElem = true ∧ n ≤ n' * elem'.flatLength := by
  have hdim := dim_eq_zero.mpr h
  by_cases h' : elem'.isArray = true
  · have hpos : elem'.dim ≠ 0 := fun h0 => by rw [dim_eq_zero.mp h0] at h'; cases h'
    simp only [constructable, hdim, dim, flatElem]
    rw [if_neg (by simp), if_pos (by simp [Nat.pos_of_ne_zero hpos]), Bool.and_eq_true,
      decide_eq_true_iff, flatLength]
  · rw [Bool.not_eq_true] at h'
    simp [constructable, hdim, dim, dim_eq_zero.mpr h', flatElem_of_not_array h',
      flatLength_of_not_array h']

/-- A list of lists has to have the dimensions of the array. -/
theorem constructable_nested (h : elem.isArray = true) :
    (array elem n).constructable (array elem' n') = true ↔
      elem'.dim = elem.dim ∧ elem.constructable elem' = true ∧ n ≤ n' := by
  have hpos : elem.dim ≠ 0 := fun h0 => by rw [dim_eq_zero.mp h0] at h; cases h
  by_cases hdim : elem'.dim = elem.dim
  · simp [constructable, dim, hdim, hpos]
  · simp [constructable, dim, hdim, Nat.pos_of_ne_zero hpos]

theorem constructable_refl : ∀ {a : Ty}, a.OfInit → a.constructable a = true
  | prim p, h => (constructable_scalar h h rfl).mpr (.inr rfl)
  | bottom, _ => bottom_constructable
  | array elem n, h => by
    cases harr : elem.isArray with
    | false =>
      rw [constructable_flat harr, flatElem_of_not_array harr, flatLength_of_not_array harr]
      exact ⟨constructable_refl h, Nat.le_of_eq (Nat.mul_one n).symm⟩
    | true =>
      rw [constructable_nested harr]
      exact ⟨rfl, constructable_refl h, Nat.le_refl n⟩

theorem OfInit.flatElem : ∀ {a : Ty}, a.OfInit → a.flatElem.OfInit
  | prim _, h | bottom, h => h
  | array elem _, h => OfInit.flatElem (a := elem) h

/-- What fits into a type has room in it. -/
theorem constructable_fill : ∀ {b c : Ty}, b.OfInit → c.OfInit → b.isArray = true →
    b.constructable c = true →
    b.flatElem.constructable c.flatElem = true ∧ b.flatLength ≤ c.flatLength
  | array elem n, array elem' n', hb, hc, _, h => by
    cases harr : elem.isArray with
    | false =>
      rw [constructable_flat harr] at h
      rw [Ty.flatElem, flatElem_of_not_array harr, flatLength, flatLength_of_not_array harr,
        Nat.mul_one]
      exact h
    | true =>
      obtain ⟨hdim, helem, hle⟩ := (constructable_nested harr).mp h
      obtain ⟨hflat, hlen⟩ := constructable_fill (b := elem) (c := elem') hb hc harr helem
      exact ⟨hflat, Nat.mul_le_mul hle hlen⟩
  | array elem n, prim _, hb, hc, _, h | array elem n, bottom, hb, hc, _, h => by
    rcases (constructable_scalar hb hc rfl).mp h with h | h <;> cases h

theorem constructable_array (ha : a.OfInit) (hb : b.OfInit) (harr : a.isArray = true)
    (h : a.constructable b = true) : b.isArray = true := by
  cases hb' : b.isArray with
  | true => rfl
  | false =>
    rcases (constructable_scalar ha hb hb').mp h with rfl | rfl
    · cases harr
    · rw [harr] at hb'
      cases hb'

theorem constructable_trans : ∀ {a b c : Ty}, a.OfInit → b.OfInit → c.OfInit →
    a.constructable b = true → b.constructable c = true → a.constructable c = true
  | bottom, _, _, _, _, _, _, _ => bottom_constructable
  | prim p, b, c, ha, hb, hc, hab, hbc => by
    cases hb' : b.isArray with
    | false =>
      rcases (constructable_scalar ha hb hb').mp hab with h | rfl
      · cases h
      · exact hbc
    | true =>
      obtain ⟨elem, n, rfl⟩ := exists_array hb'
      rw [not_constructable_array ha rfl nofun] at hab
      cases hab
  | array elem n, b, c, ha, hb, hc, hab, hbc => by
    have hb' := constructable_array ha hb rfl hab
    have hc' := constructable_array hb hc hb' hbc
    obtain ⟨hflat, hlen⟩ := constructable_fill hb hc hb' hbc
    obtain ⟨elem₁, n₁, rfl⟩ := exists_array hb'
    obtain ⟨elem₂, n₂, rfl⟩ := exists_array hc'
    cases harr : elem.isArray with
    | false =>
      obtain ⟨helem, hle⟩ := (constructable_flat harr).mp hab
      refine (constructable_flat harr).mpr ⟨?_, Nat.le_trans hle hlen⟩
      -- both elements are scalars, where the relation is almost equality
      have hb₁ : elem₁.flatElem.OfInit := OfInit.flatElem (a := elem₁) hb
      rcases (constructable_scalar (a := elem) ha hb₁ (isArray_flatElem elem₁)).mp helem with rfl | rfl
      · exact bottom_constructable
      · exact hflat
    | true =>
      obtain ⟨hdim, helem, hle⟩ := (constructable_nested harr).mp hab
      have harr₁ := constructable_array (a := elem) (b := elem₁) ha hb harr helem
      obtain ⟨hdim₁, helem₁, hle₁⟩ := (constructable_nested harr₁).mp hbc
      exact (constructable_nested harr).mpr ⟨hdim₁.trans hdim,
        constructable_trans (a := elem) (b := elem₁) (c := elem₂) ha hb hc helem helem₁, Nat.le_trans hle hle₁⟩

end Ty

end Ir

end Cact
