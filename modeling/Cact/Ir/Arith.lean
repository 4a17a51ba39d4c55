import Cact.Ir.Ir

/-!
# Integer and boolean operators (`ir/vm/vm.h`)

What `eval_binary` and `eval_comparison` compute from integers and booleans. A number
stands in a word of 64 bits as its sign extension, a boolean as 0 or 1. Arithmetic wraps
around, and where C++ leaves a result open it is that of the target: a division by zero
gives all ones, a remainder by zero the dividend, and shift amounts count modulo the width.

- `arith`, `comparison`, `logical`: the operators.
- `evalBinary`: an operator on words, at a type.
-/

namespace Cact

namespace Ir

/-- The arithmetic operators. -/
def arith {n : Nat} (op : InstOp) (a b : BitVec n) : Option (BitVec n) :=
  match op with
  | .add => some (a + b)
  | .sub => some (a - b)
  | .mul => some (a * b)
  | .div => some (if b = 0 then BitVec.allOnes n else a.sdiv b)
  | .mod => some (if b = 0 then a else a.srem b)
  | .shl => some (a <<< (b.toNat % n))
  | .shrl => some (a >>> (b.toNat % n))
  | .shra => some (a.sshiftRight (b.toNat % n))
  | _ => none

/-- The comparisons. -/
def comparison {n : Nat} (op : InstOp) (a b : BitVec n) : Option Bool :=
  match op with
  | .lt => some (a.slt b)
  | .gt => some (b.slt a)
  | .leq => some (a.sle b)
  | .geq => some (b.sle a)
  | .eq => some (a == b)
  | .neq => some (a != b)
  | _ => none

/-- The operators on booleans. -/
def logical (op : InstOp) (a b : Bool) : Option Bool :=
  match op with
  | .and => some (a && b)
  | .or => some (a || b)
  | _ => none

/-- A boolean as a word. -/
def boolWord (b : Bool) : BitVec 64 := if b then 1 else 0

/-- An operator on words that stand for operands of type `t`. -/
def evalBinary (op : InstOp) (t : Primitive) (a b : BitVec 64) : Option (BitVec 64) :=
  match t with
  | .int32 =>
    let x := a.setWidth 32
    let y := b.setWidth 32
    ((arith op x y).map (BitVec.signExtend 64)).or ((comparison op x y).map boolWord)
  | .int => (arith op a b).or ((comparison op a b).map boolWord)
  | .int1 => (logical op (a != 0) (b != 0)).map boolWord
  | _ => none

/-- Does the type have the operator? -/
def InstOp.isDefinedOn (op : InstOp) (t : Primitive) : Bool := (evalBinary op t 0 0).isSome

/-- The word stands for a value of the type. -/
def Represents (t : Primitive) (a : BitVec 64) : Prop :=
  match t with
  | .int32 => (a.setWidth 32).signExtend 64 = a
  | .int1 => a = 0 ∨ a = 1
  | _ => True

end Ir
end Cact
