import Cact.Ir.Vm

/-!
# The order of values (`operator<` in `backend/ir/ir.h`)

Values are compared when they are the keys of a `std::map`. The alternatives of a variant
come in the order they are declared in; constants of one alternative are compared as
numbers, and variables by the addresses and numbers they consist of.

- `Payload.lt`, `Value.lt`: the order.
- `VarOrder`: where the addresses of a run put the variables.
- `eq_left_of_not_lt`, `eq_const_of_not_lt`: what the order does not tell apart.
-/

namespace Cact

namespace Ir

/-! ## Constants -/

namespace Payload

/-- `index`. -/
def index : Payload → Nat
  | monostate => 0
  | int _ => 1
  | int64 _ => 2
  | float _ => 3
  | bool _ => 4
  | double _ => 5
  | bytes _ => 6

/-- The place of a floating-point number among the others, from its magnitude and its
sign. Both zeros are 0, and a magnitude above that of infinity is no number. -/
def floatNumber (infinity magnitude : Nat) (sign : Bool) : Option Int :=
  if infinity < magnitude then none else some (if sign then -magnitude else magnitude)

/-- What the constants of an alternative are compared by. Buffers are compared by their
addresses, which differ between copies of a constant and are left out. -/
def number : Payload → Option Int
  | monostate => some 0
  | int v => some v.toInt
  | int64 v => some v.toInt
  | float b => floatNumber 0x7f800000 (b.toNat % 2 ^ 31) b.msb
  | bool v => some (if v then 1 else 0)
  | double b => floatNumber 0x7ff0000000000000 (b.toNat % 2 ^ 63) b.msb
  | bytes _ => none

/-- `operator<` of `ConstexprValue::val`. -/
def lt (p q : Payload) : Bool :=
  if p.index = q.index then
    match p.number, q.number with
    | some a, some b => a < b
    | _, _ => false
  else p.index < q.index

theorem lt_iff {p q : Payload} : p.lt q = true ↔ p.index < q.index ∨
    (p.index = q.index ∧ ∃ a b, p.number = some a ∧ q.number = some b ∧ a < b) := by
  unfold lt
  by_cases hi : p.index = q.index
  · rw [if_pos hi]
    cases p.number with
    | none => simp [hi]
    | some a =>
      cases q.number with
      | none => simp [hi]
      | some b => simp [hi]
  · rw [if_neg hi]
    simp [hi]

theorem lt_irrefl (p : Payload) : p.lt p = false := by
  rw [← Bool.not_eq_true, lt_iff]
  rintro (h | ⟨-, a, b, ha, hb, h⟩)
  · omega
  · rw [ha] at hb
    cases hb
    omega

theorem lt_trans {p q r : Payload} (hpq : p.lt q = true) (hqr : q.lt r = true) : p.lt r = true := by
  rw [lt_iff] at hpq hqr ⊢
  rcases hpq with hi | ⟨hi, a, b, ha, hb, hab⟩
  · rcases hqr with hj | ⟨hj, -⟩
    · exact .inl (by omega)
    · exact .inl (by omega)
  · rcases hqr with hj | ⟨hj, b', c, hb', hc, hbc⟩
    · exact .inl (by omega)
    · rw [hb] at hb'
      cases hb'
      exact .inr ⟨hi.trans hj, a, c, ha, hc, by omega⟩

/-- Constants that are not told apart are of one alternative. -/
theorem index_eq {p q : Payload} (hpq : p.lt q = false) (hqp : q.lt p = false) :
    p.index = q.index := by
  rw [← Bool.not_eq_true, lt_iff] at hpq hqp
  by_contra hne
  rcases Nat.lt_or_gt_of_ne hne with h | h
  · exact hpq (.inl h)
  · exact hqp (.inl h)

end Payload

/-! ## Variables and values -/

/-- The order of the variables of a run, by the addresses of their objects. -/
structure VarOrder where
  lt : Var → Var → Bool
  irrefl : ∀ v, lt v v = false
  trans : ∀ u v w, lt u v = true → lt v w = true → lt u w = true
  total : ∀ u v, u ≠ v → lt u v = true ∨ lt v u = true

namespace Value

/-- `operator<`. -/
def lt (o : VarOrder) : Value → Value → Bool
  | const c, const d => c.val.lt d.val
  | const _, left _ => true
  | left _, const _ => false
  | left v, left w => o.lt v.var w.var

variable {o : VarOrder}

theorem lt_irrefl (v : Value) : v.lt o v = false := by
  cases v with
  | const c => exact c.val.lt_irrefl
  | left v => exact o.irrefl v.var

theorem lt_trans (u v w : Value) (huv : u.lt o v = true) (hvw : v.lt o w = true) :
    u.lt o w = true := by
  cases u with
  | const c =>
    cases w with
    | left w => rfl
    | const e =>
      cases v with
      | left v => cases hvw
      | const d => exact Payload.lt_trans huv hvw
  | left u =>
    cases v with
    | const d => cases huv
    | left v =>
      cases w with
      | const e => cases hvw
      | left w => exact o.trans _ _ _ huv hvw

/-- A variable is only taken for itself. -/
theorem eq_left_of_not_lt {v : LeftValue} {k : Value} (h : k.lt o (left v) = false)
    (h' : (left v).lt o k = false) : ∃ w, k = left w ∧ w.var = v.var := by
  cases k with
  | const c => cases h
  | left w =>
    refine ⟨w, rfl, ?_⟩
    by_contra hne
    rcases o.total w.var v.var hne with hlt | hlt
    · exact absurd (hlt.symm.trans h) (by simp)
    · exact absurd (hlt.symm.trans h') (by simp)

/-- A constant is only taken for a constant. -/
theorem eq_const_of_not_lt {c : ConstexprValue} {k : Value} (h : k.lt o (const c) = false)
    (h' : (const c).lt o k = false) :
    ∃ d, k = const d ∧ d.val.lt c.val = false ∧ c.val.lt d.val = false := by
  cases k with
  | const d => exact ⟨d, rfl, h, h'⟩
  | left w => cases h'

end Value

/-- The numbers of a variable: the alternatives it consists of, and its addresses. -/
def Var.numbers : Var → List Nat
  | .named (.alloc a) => [0, a]
  | .named (.func s) => 1 :: s.toList.map Char.toNat
  | .named (.builtin s) => 2 :: s.toList.map Char.toNat
  | .temp i => [3, i]
  | .ssa a n => [4, a, n]

theorem Var.numbers_injective {u v : Var} (h : u.numbers = v.numbers) : u = v := by
  have hname : ∀ s t : String, s.toList.map Char.toNat = t.toList.map Char.toNat → s = t := by
    intro s t hst
    exact String.toList_injective (List.map_injective_iff.2 (fun c d => Char.toNat_inj.1) hst)
  cases u with
  | named d =>
    cases v with
    | named e =>
      -- names of functions are compared character by character
      cases d with
      | alloc a => cases e <;> simp_all [numbers]
      | func s => cases e with
        | func t => rw [hname s t (List.cons.inj h).2]
        | _ => simp [numbers] at h
      | builtin s => cases e with
        | builtin t => rw [hname s t (List.cons.inj h).2]
        | _ => simp [numbers] at h
    | temp j => cases d <;> simp [numbers] at h
    | ssa b m => cases d <;> simp [numbers] at h
  | temp i => rcases v with (_ | _ | _) | _ | _ <;> simp_all [numbers]
  | ssa a n => rcases v with (_ | _ | _) | _ | _ <;> simp_all [numbers]

/-- The order of the variables by these numbers. -/
def VarOrder.byNumbers : VarOrder where
  lt u v := decide (u.numbers < v.numbers)
  irrefl v := by simp
  trans u v w huv hvw := by
    rw [decide_eq_true_eq] at huv hvw ⊢
    exact List.lt_trans huv hvw
  total u v h := by
    rw [decide_eq_true_eq, decide_eq_true_eq]
    exact lt_or_gt_of_ne fun heq => h (Var.numbers_injective heq)

end Ir
end Cact
