import Mathlib

/-!
# The type system of the IR (`backend/ir/type.hpp`)

Types are an algebraic data type with a subtyping order. The source compares
types only through that order (`==` is `<=` in both directions), so this file
keeps the structural equality of Lean and the source's equality `Ty.eqv` apart.

- `Ty.le`: `operator<=`, with the dispatch order of the overloads: `Bottom` on
  the left, then `Top` on the right, then the pair of alternatives.
- `Ty.union`: `operator|`, which collects the summands of both sides.
- `Ty.constructable`: what may initialise what, including flat initialiser
  lists for arrays of several dimensions.
-/

namespace Cact

namespace Ir

/-- `Primitive`: fixed-width types of the source language, and the two register
classes `int` and `float` that lowering uses. -/
inductive Primitive
  | int1
  | int32
  | float32
  | float64
  | int
  | float
  deriving DecidableEq, Repr

mutual

/-- `TypeBox`. -/
inductive Ty
  | prim (p : Primitive)
  | sum (items : Tys)
  | product (items : Tys)
  | func (params ret : Ty)
  | array (elem : Ty) (size : Nat)
  | reference (elem : Ty) (readonly isSlice : Bool)
  | top
  | bottom
  deriving DecidableEq, Repr

/-- The items of a sum or a product. -/
inductive Tys
  | nil
  | cons (head : Ty) (tail : Tys)
  deriving DecidableEq, Repr

end

namespace Tys

def toList : Tys → List Ty
  | nil => []
  | cons t ts => t :: ts.toList

def ofList : List Ty → Tys
  | [] => nil
  | t :: ts => cons t (ofList ts)

@[simp] theorem toList_ofList (ts : List Ty) : (ofList ts).toList = ts := by
  induction ts with
  | nil => rfl
  | cons t ts ih => simp [ofList, toList, ih]

end Tys

namespace Primitive

/-- `sizeof` of the C++ type a primitive stands for. -/
def sizeOf : Primitive → Nat
  | int1 => 1
  | int32 => 4
  | float32 => 4
  | float64 => 8
  | int => 8
  | float => 8

theorem sizeOf_pos (p : Primitive) : 0 < p.sizeOf := by cases p <;> decide

end Primitive

namespace Ty

abbrev int1 : Ty := prim .int1
abbrev int32 : Ty := prim .int32
abbrev float32 : Ty := prim .float32
abbrev float64 : Ty := prim .float64

/-- `integer()`: the class of values that live in general registers. -/
abbrev integer : Ty := prim .int

/-- `floating()`: the class of values that live in floating registers. -/
abbrev floating : Ty := prim .float

abbrev unit : Ty := product .nil
abbrev any : Ty := top
abbrev never : Ty := bottom

/-! ## Shape tests and projections -/

def isPrimitive : Ty → Bool
  | prim _ => true
  | _ => false

def isArray : Ty → Bool
  | array _ _ => true
  | _ => false

def isReference : Ty → Bool
  | reference _ _ _ => true
  | _ => false

def isFunc : Ty → Bool
  | func _ _ => true
  | _ => false

/-- `isPointer`: a reference to one element. -/
def isPointer : Ty → Bool
  | reference _ _ isSlice => !isSlice
  | _ => false

/-- `isSlice`: a reference to the elements of an array. -/
def isSlice : Ty → Bool
  | reference _ _ isSlice => isSlice
  | _ => false

/-- `is_fp`. -/
def isFp : Ty → Bool
  | prim .float32 => true
  | prim .float64 => true
  | prim .float => true
  | _ => false

/-- `Array::decay`: an array seen through a slice of its elements. -/
def decay (t : Ty) (readonly : Bool) : Ty :=
  match t with
  | array elem _ => reference elem readonly true
  | t => t

/-- `borrow`: the type of a reference to a value of type `t`. -/
def borrow (t : Ty) (readonly : Bool) : Ty :=
  match t with
  | array elem _ => reference elem readonly true
  | t => reference t readonly false

/-- The element type below all array dimensions. -/
def flatElem : Ty → Ty
  | array elem _ => elem.flatElem
  | t => t

/-- The number of elements of an array over all its dimensions. -/
def flatLength : Ty → Nat
  | array elem size => size * elem.flatLength
  | _ => 1

/-- `flatten`: an array of arrays as one array of its innermost elements. -/
def flatten : Ty → Ty
  | array elem size => array elem.flatElem (size * elem.flatLength)
  | t => t

/-- `dim`. -/
def dim : Ty → Nat
  | array elem _ => elem.dim + 1
  | _ => 0

end Ty

mutual

/-- `size_of`, in bytes. -/
def Ty.sizeOf : Ty → Nat
  | .prim p => p.sizeOf
  | .sum items => items.maxSize + 4
  | .product items => items.sumSize
  | .func _ _ => 8
  | .array elem size => size * elem.sizeOf
  | .reference _ _ _ => 8
  | .top => 0
  | .bottom => 0

/-- The size of a product: the sizes of its items, without padding. -/
def Tys.sumSize : Tys → Nat
  | .nil => 0
  | .cons t ts => t.sizeOf + ts.sumSize

/-- The size of the largest item of a sum. -/
def Tys.maxSize : Tys → Nat
  | .nil => 0
  | .cons t ts => max t.sizeOf ts.maxSize

end

theorem Ty.sizeOf_flat : ∀ t : Ty, t.sizeOf = t.flatElem.sizeOf * t.flatLength
  | .array elem size => by
    rw [Ty.sizeOf, sizeOf_flat elem, Ty.flatElem, Ty.flatLength]
    ring
  | .prim _ | .sum _ | .product _ | .func _ _ | .reference _ _ _ | .top | .bottom =>
    (Nat.mul_one _).symm

mutual

/-- The number of nodes of a type. -/
def Ty.weight : Ty → Nat
  | .prim _ => 1
  | .sum items => items.weight + 1
  | .product items => items.weight + 1
  | .func params ret => params.weight + ret.weight + 1
  | .array elem _ => elem.weight + 1
  | .reference elem _ _ => elem.weight + 1
  | .top => 1
  | .bottom => 1

def Tys.weight : Tys → Nat
  | .nil => 0
  | .cons t ts => t.weight + ts.weight

end

namespace Ty

/-! ## Subtyping -/

/-- `operator<=` on types of at most `fuel` nodes together. A function compares
its parameters the other way round, so no single argument shrinks in every call. -/
def leFuel : Nat → Ty → Ty → Bool
  | 0, _, _ => false
  | fuel + 1, lhs, rhs =>
    match lhs, rhs with
    | bottom, _ => true
    | _, top => true
    | sum items, t => items.toList.all fun item => leFuel fuel item t
    | t, sum items => items.toList.any fun item => leFuel fuel t item
    | prim p, prim q => p == q
    | product items, product items' =>
      items.toList.length == items'.toList.length &&
        (items.toList.zip items'.toList).all fun (t, t') => leFuel fuel t t'
    | func params ret, func params' ret' =>
      leFuel fuel params' params && leFuel fuel ret ret'
    | array elem size, array elem' size' =>
      leFuel fuel elem elem' && leFuel fuel elem' elem && size == size'
    | reference elem readonly _, reference elem' readonly' _ =>
      leFuel fuel elem elem' && !(readonly && !readonly') &&
        (readonly' || leFuel fuel elem' elem)
    -- an array compares with a reference after decaying to a writable slice
    | array elem _, reference elem' readonly' _ =>
      leFuel fuel elem elem' && (readonly' || leFuel fuel elem' elem)
    | reference elem readonly _, array elem' _ =>
      leFuel fuel elem elem' && !readonly && leFuel fuel elem' elem
    | _, _ => false

/-- `operator<=`. -/
def le (lhs rhs : Ty) : Bool := leFuel (lhs.weight + rhs.weight) lhs rhs

/-- `operator==`: subtypes of each other. -/
def eqv (lhs rhs : Ty) : Bool := le lhs rhs && le rhs lhs

/-- The summands of a type. -/
def summands : Ty → List Ty
  | sum items => items.toList
  | t => [t]

/-- The list without the items that equal an earlier one. -/
def dedup (ts : List Ty) : List Ty :=
  ts.foldl (fun unique t => if unique.any (eqv t) then unique else unique ++ [t]) []

/-- `operator|`. -/
def union (lhs rhs : Ty) : Ty :=
  if lhs = bottom then rhs
  else if rhs = bottom then lhs
  else if eqv lhs rhs then lhs
  else
    match dedup (lhs.summands ++ rhs.summands) with
    | [t] => t
    | ts => sum (Tys.ofList ts)

/-- `constructable`: may a value of the first type initialise the second? -/
def constructable : Ty → Ty → Bool
  | array elem size, t@(array elem' size') =>
    let dimFrom := elem.dim + 1
    if dimFrom > 1 && t.dim != dimFrom then false
    else if dimFrom == 1 && t.dim > 1 then
      -- a flat list initialises an array of several dimensions
      constructable elem t.flatElem && decide (size ≤ t.flatLength)
    else constructable elem elem' && decide (size ≤ size')
  | reference elem _ _, reference elem' _ _ => constructable elem elem'
  | array _ _, reference _ _ _ => false
  | reference _ _ _, array _ _ => false
  | t, t' => le t t'

example : le (array int32 3) (reference int32 true true) = true := by decide
example : union int32 (union float32 int32) = sum (.ofList [int32, float32]) := by decide
example : constructable (array int32 3) (array (array int32 2) 2) = true := by decide

end Ty
end Ir
end Cact
