import Cact.Ir.Vm

/-!
# Equality of values (`ir/value.cpp`)

The passes compare values and look them up in tables with `operator==`: variables are
equal when they are the same variable, constants when their types and their contents are.
Floating-point contents compare as numbers, so the two zeros are equal and a NaN equals
nothing, itself included.

- `Payload.eqv`, `ConstexprValue.eqv`, `Value.eqv`: the source's equality.
-/

namespace Cact

namespace Ir

/-- Is the single-precision number a NaN? -/
def isNaN32 (x : BitVec 32) : Bool := (0x7f800000#32).ult (x &&& 0x7fffffff#32)

/-- Is the double-precision number a NaN? -/
def isNaN64 (x : BitVec 64) : Bool := (0x7ff0000000000000#64).ult (x &&& 0x7fffffffffffffff#64)

/-- `==` of `float`. -/
def eqFloat32 (x y : BitVec 32) : Bool :=
  !isNaN32 x && !isNaN32 y && (x == y || (x ||| y) &&& 0x7fffffff#32 == 0)

/-- `==` of `double`. -/
def eqFloat64 (x y : BitVec 64) : Bool :=
  !isNaN64 x && !isNaN64 y && (x == y || (x ||| y) &&& 0x7fffffffffffffff#64 == 0)

/-- `==` of the alternatives of `val`. Buffers are compared by address and are not shared. -/
def Payload.eqv : Payload → Payload → Bool
  | monostate, monostate => true
  | int v, int w => v == w
  | int64 v, int64 w => v == w
  | float v, float w => eqFloat32 v w
  | bool v, bool w => v == w
  | double v, double w => eqFloat64 v w
  | _, _ => false

namespace ConstexprValue

/-- The elements of an array are equal. -/
def elemEqv (p : Primitive) (x y : List (BitVec 8)) : Bool :=
  match p with
  | .float32 => eqFloat32 (BitVec.ofNat 32 (Vm.bytesWord x)) (BitVec.ofNat 32 (Vm.bytesWord y))
  | .float64 | .float =>
    eqFloat64 (BitVec.ofNat 64 (Vm.bytesWord x)) (BitVec.ofNat 64 (Vm.bytesWord y))
  | _ => x == y

/-- Equality of the buffers of two arrays of `n` elements. -/
def bytesEqv (p : Primitive) (n : Nat) (x y : List (BitVec 8)) : Bool :=
  (List.range n).all fun i => elemEqv p ((x.drop (i * p.sizeOf)).take p.sizeOf)
    ((y.drop (i * p.sizeOf)).take p.sizeOf)

/-- `operator==`. -/
def eqv (c d : ConstexprValue) : Bool :=
  Ty.eqv c.type d.type &&
    match c.type, c.val, d.val with
    | .array elem size, .bytes x, .bytes y =>
      match elem.flatElem with
      | .prim p => bytesEqv p (size * elem.flatLength) x y
      | _ => false
    | _, v, w => v.eqv w

end ConstexprValue

/-- `operator==`. -/
def Value.eqv : Value → Value → Bool
  | const c, const d => c.eqv d
  | left u, left v => u.var == v.var
  | _, _ => false

namespace Value

@[simp] theorem eqv_left {u v : LeftValue} : (left u).eqv (left v) = true ↔ u.var = v.var := by
  simp [eqv]

@[simp] theorem eqv_left_const {u : LeftValue} {c : ConstexprValue} :
    (left u).eqv (const c) = false := rfl

@[simp] theorem eqv_const_left {u : LeftValue} {c : ConstexprValue} :
    (const c).eqv (left u) = false := rfl

end Value

example : Value.eqv (.const (.ofFloat 0)) (.const (.ofFloat 0x80000000)) = true := by decide

end Ir
end Cact
