import Cact.Ir.Scopes
import Cact.Lib.Signed

/-!
# Folding of constants (`transform/optim/constant_fold.hpp`)

`ConstexprFolder` computes an operator whose operands are constants. It does so with the
operators of C++ on the payloads, some of which are undefined where those of the machine
wrap around.

- `foldInteger`, `foldFloating`, `foldBool`: the cases of the source.
- `ConstexprFolder.fold`, `ConstexprFolder.foldUnary`: the folder.
- `Folds`, `FoldsUnary`: it declines, or its constant is what the instruction computes.
- `constexpr_folder_iff`: for which operands that is so.
-/

namespace Cact

namespace Ir

/-- How the folder itself can fail. -/
inductive Trap
  /-- an operation that C++ leaves undefined -/
  | undefined
  /-- `std::get` of another alternative -/
  | badVariantAccess
  deriving DecidableEq, Repr

/-! ## The folder -/

section Cases

variable {n : Nat}

/-- A constant made of the result of an operator. -/
def folded (mk : BitVec n → ConstexprValue) : Option (BitVec n) → Except Trap (Option ConstexprValue)
  | none => .error .undefined
  | some w => .ok (some (mk w))

/-- The result of a comparison. -/
def foldedBool (r : Bool) : Except Trap (Option ConstexprValue) := .ok (some (.ofBool r))

/-- The operators on integers. -/
def foldInteger (mk : BitVec n → ConstexprValue) (op : InstOp) (l r : BitVec n) :
    Except Trap (Option ConstexprValue) :=
  match op with
  | .add => folded mk (Signed.add l r)
  | .sub => folded mk (Signed.sub l r)
  | .mul => folded mk (Signed.mul l r)
  | .div => if r = 0 then .ok none else folded mk (Signed.div l r)
  | .mod => if r = 0 then .ok none else folded mk (Signed.rem l r)
  | .shl => folded mk (Signed.shiftLeft l r)
  | .shrl => folded mk (Signed.shiftRightLogical l r)
  | .shra => folded mk (Signed.shiftRight l r)
  | .lt => foldedBool (l.slt r)
  | .gt => foldedBool (r.slt l)
  | .leq => foldedBool (l.sle r)
  | .geq => foldedBool (r.sle l)
  | .eq => foldedBool (l == r)
  | .neq => foldedBool (l != r)
  | _ => .ok none

/-- The operators on floating-point numbers, of which a zero divisor is left alone. -/
def foldFloating (mk : BitVec n → ConstexprValue) (arith : InstOp → BitVec n → BitVec n → BitVec n)
    (compare : InstOp → BitVec n → BitVec n → Bool) (op : InstOp) (l r : BitVec n) :
    Except Trap (Option ConstexprValue) :=
  match op with
  | .add | .sub | .mul => folded mk (some (arith op l r))
  | .div => if r.toNat % 2 ^ (n - 1) = 0 then .ok none else folded mk (some (arith op l r))
  | .lt | .gt | .leq | .geq | .eq | .neq => foldedBool (compare op l r)
  | _ => .ok none

/-- The operators on booleans. -/
def foldBool (op : InstOp) (l r : Bool) : Except Trap (Option ConstexprValue) :=
  match op with
  | .and => foldedBool (l && r)
  | .or => foldedBool (l || r)
  | .eq => foldedBool (l == r)
  | .neq => foldedBool (l != r)
  | _ => .ok none

end Cases

namespace ConstexprFolder

/-- `fold` of a unary operator. -/
def foldUnary (op : UnaryInstOp) (operand : ConstexprValue) : Except Trap (Option ConstexprValue) :=
  if !operand.type.isPrimitive then .ok none
  else
    match operand.val with
    | .int v => if op = .neg then folded .ofInt (Signed.neg v) else .ok none
    | .int64 v => if op = .neg then folded .ofInt64 (Signed.neg v) else .ok none
    | .float v => if op = .neg then folded .ofFloat (some (v ^^^ 0x80000000#32)) else .ok none
    | .double v =>
      if op = .neg then folded .ofDouble (some (v ^^^ 0x8000000000000000#64)) else .ok none
    | .bool v => if op = .not then foldedBool !v else .ok none
    | .monostate | .bytes _ => .ok none

/-- `fold` of a binary operator. -/
def fold (float : Vm.Floats) (op : InstOp) (lhs rhs : ConstexprValue) :
    Except Trap (Option ConstexprValue) :=
  if !lhs.type.isPrimitive || !rhs.type.isPrimitive then .ok none
  else if !Ty.eqv lhs.type rhs.type then .ok none
  else
    match lhs.val, rhs.val with
    | .int l, .int r => foldInteger .ofInt op l r
    | .int64 l, .int64 r => foldInteger .ofInt64 op l r
    | .float l, .float r => foldFloating .ofFloat float.arithS float.compareS op l r
    | .double l, .double r => foldFloating .ofDouble float.arithD float.compareD op l r
    | .bool l, .bool r => foldBool op l r
    | .monostate, _ | .bytes _, _ => .ok none
    | _, _ => .error .badVariantAccess

end ConstexprFolder

/-! ## What a folded constant must be -/

/-- The type of the result of an instruction on operands of type `t`. -/
def InstOp.resultOn (op : InstOp) (t : Ty) : Ty := if Vm.isComparison op then .int1 else t

/-- A constant says what an instruction computes: it is of the type of the result, and in
its place moved there, the result is the same. -/
structure Stands (float : Vm.Floats) (c : ConstexprValue) (t : Ty) (computed : Except Fault Vm.Word) :
    Prop where
  typed : c.WellTyped
  type : c.type = t
  same : ∃ w, computed = .ok w ∧ Vm.assign float t (Vm.viewConst c).type (Vm.viewConst c).word = .ok w

/-- The folder declines, or finds the result of the instruction. The machine reads each
constant as an object of the constant's type, which its payload has to be. -/
def Folds (float : Vm.Floats) (op : InstOp) (lhs rhs : ConstexprValue) : Prop :=
  ∃ result, ConstexprFolder.fold float op lhs rhs = .ok result ∧ ∀ c, result = some c →
    lhs.WellTyped ∧ rhs.WellTyped ∧ Stands float c (op.resultOn lhs.type)
      (Vm.evalBinary float op (op.resultOn lhs.type) (Vm.viewConst lhs) (Vm.viewConst rhs))

/-- The same of a unary operator. -/
def FoldsUnary (float : Vm.Floats) (op : UnaryInstOp) (operand : ConstexprValue) : Prop :=
  ∃ result, ConstexprFolder.foldUnary op operand = .ok result ∧ ∀ c, result = some c →
    operand.WellTyped ∧ Stands float c operand.type
      (Vm.evalUnary float op operand.type (Vm.viewConst operand))

/-! ## The condition -/

/-- An operator that the folder has no case for, or a division by zero. -/
def Declined {n : Nat} (op : InstOp) (r : BitVec n) : Prop :=
  match op with
  | .div | .mod => r = 0
  | .and | .or | .store | .loadElem | .borrowElem | .borrowElemMut => True
  | _ => False

/-- The operator on signed integers is defined: no overflow, and no bad shift. -/
def SignedDefined {n : Nat} (op : InstOp) (l r : BitVec n) : Prop :=
  match op with
  | .add => Signed.Fits n (l.toInt + r.toInt)
  | .sub => Signed.Fits n (l.toInt - r.toInt)
  | .mul => Signed.Fits n (l.toInt * r.toInt)
  | .div | .mod => ¬(l = BitVec.intMin n ∧ r = -1#n)
  | .shl => Signed.Shiftable l r
  | .shrl | .shra => Signed.Amount r
  | _ => True

/-- When a binary operator is folded rightly. -/
def FoldCondition (op : InstOp) (lhs rhs : ConstexprValue) : Prop :=
  lhs.type.isPrimitive = true → rhs.type.isPrimitive = true → Ty.eqv lhs.type rhs.type = true →
    match lhs.val with
    | .int l => ∃ r, rhs.val = .int r ∧ (Declined op r ∨ lhs.type = .int32 ∧ SignedDefined op l r)
    | .int64 l =>
      ∃ r, rhs.val = .int64 r ∧ (Declined op r ∨ lhs.type = .integer ∧ SignedDefined op l r)
    | .bool _ => ∃ r, rhs.val = .bool r ∧
      ((op = .and ∨ op = .or ∨ op = .eq ∨ op = .neq) → lhs.type = .int1)
    | _ => True

/-- When a unary operator is folded rightly. -/
def FoldUnaryCondition (op : UnaryInstOp) (operand : ConstexprValue) : Prop :=
  operand.type.isPrimitive = true →
    match operand.val with
    | .int v => op = .neg → operand.type = .int32 ∧ v ≠ BitVec.intMin 32
    | .int64 v => op = .neg → operand.type = .integer ∧ v ≠ BitVec.intMin 64
    | .bool _ => op = .not → operand.type = .int1
    | _ => True

/-! ## Integers -/

section Integers

variable {n : Nat} {mk : BitVec n → ConstexprValue} {op : InstOp} {l r : BitVec n}

theorem foldInteger_declined (h : Declined op r) : foldInteger mk op l r = .ok none := by
  cases op <;> first
    | rfl
    | exact if_pos h
    | exact h.elim

variable (hn : 0 < n)
include hn

/-- Where an operator is undefined, the folder is. -/
theorem foldInteger_undefined (h : ¬Declined op r) (hu : ¬SignedDefined op l r) :
    foldInteger mk op l r = .error .undefined := by
  cases op with
  | add => exact congrArg (folded mk) (Signed.add_eq.trans (if_neg hu))
  | sub => exact congrArg (folded mk) (Signed.sub_eq.trans (if_neg hu))
  | mul => exact congrArg (folded mk) (Signed.mul_eq.trans (if_neg hu))
  | div =>
    have hcase : l = BitVec.intMin n ∧ r = -1#n := not_not.1 hu
    show (if r = 0 then _ else folded mk (Signed.div l r)) = _
    rw [if_neg (show ¬r = 0 from h), Signed.div_eq hn, if_pos (.inr hcase)]
    rfl
  | mod =>
    have hcase : l = BitVec.intMin n ∧ r = -1#n := not_not.1 hu
    show (if r = 0 then _ else folded mk (Signed.rem l r)) = _
    rw [if_neg (show ¬r = 0 from h), Signed.rem_eq hn, if_pos (.inr hcase)]
    rfl
  | shl => exact congrArg (folded mk) (Signed.shiftLeft_eq.trans (if_neg hu))
  | shrl => exact congrArg (folded mk) (Signed.shiftRightLogical_eq.trans (if_neg hu))
  | shra => exact congrArg (folded mk) (Signed.shiftRight_eq.trans (if_neg hu))
  | lt | gt | leq | geq | eq | neq => exact absurd trivial hu
  | and | or | store | loadElem | borrowElem | borrowElemMut => exact absurd trivial h

/-- Where it is defined, the folder finds what the operator of the machine does. -/
theorem foldInteger_defined (h : ¬Declined op r) (hd : SignedDefined op l r) :
    (∃ w, arith op l r = some w ∧ foldInteger mk op l r = .ok (some (mk w))) ∨
      ∃ b, comparison op l r = some b ∧ foldInteger mk op l r = .ok (some (.ofBool b)) := by
  cases op with
  | add => exact .inl ⟨_, rfl, congrArg (folded mk) (Signed.add_eq.trans (if_pos hd))⟩
  | sub => exact .inl ⟨_, rfl, congrArg (folded mk) (Signed.sub_eq.trans (if_pos hd))⟩
  | mul => exact .inl ⟨_, rfl, congrArg (folded mk) (Signed.mul_eq.trans (if_pos hd))⟩
  | div =>
    have hr : ¬r = 0 := h
    refine .inl ⟨l.sdiv r, congrArg some (if_neg hr), ?_⟩
    show (if r = 0 then _ else folded mk (Signed.div l r)) = _
    rw [if_neg hr, Signed.div_eq hn, if_neg (not_or.2 ⟨hr, hd⟩)]
    rfl
  | mod =>
    have hr : ¬r = 0 := h
    refine .inl ⟨l.srem r, congrArg some (if_neg hr), ?_⟩
    show (if r = 0 then _ else folded mk (Signed.rem l r)) = _
    rw [if_neg hr, Signed.rem_eq hn, if_neg (not_or.2 ⟨hr, hd⟩)]
    rfl
  | shl => exact .inl ⟨_, rfl, congrArg (folded mk) (Signed.shiftLeft_eq.trans (if_pos hd))⟩
  | shrl => exact .inl ⟨_, rfl, congrArg (folded mk) (Signed.shiftRightLogical_eq.trans (if_pos hd))⟩
  | shra => exact .inl ⟨_, rfl, congrArg (folded mk) (Signed.shiftRight_eq.trans (if_pos hd))⟩
  | lt | gt | leq | geq | eq | neq => exact .inr ⟨_, rfl, rfl⟩
  | and | or | store | loadElem | borrowElem | borrowElemMut => exact absurd trivial h

end Integers

/-! ## The machine on constants -/

section Machine

variable {float : Vm.Floats} {op : InstOp}

theorem evalBinary_int32 {l r : BitVec 32} {w : BitVec 32} (h : arith op l r = some w) :
    Vm.evalBinary float op (op.resultOn .int32) (Vm.viewConst (.ofInt l)) (Vm.viewConst (.ofInt r)) =
      .ok (w.setWidth 64) := by
  have hop : Vm.isComparison op = false := by cases op <;> first | rfl | cases h
  have hlogical : ∀ a b, Vm.logicalOp float op .int32 a b = none := by
    intro a b
    cases op <;> first | rfl | cases h
  have hcast : ∀ x : BitVec 32, Vm.cast float .int32 .int32 (x.setWidth 64) = x.setWidth 64 := by
    intro x
    simp [Vm.cast, Vm.fit]
  unfold InstOp.resultOn
  rw [hop]
  show Vm.evalPrimitive float op .int32 .int32 .int32 (l.setWidth 64) (r.setWidth 64) = _
  unfold Vm.evalPrimitive
  rw [hop, hcast, hcast]
  simp [Vm.arithmetic, hlogical, h, Vm.fit]

theorem evalBinary_int64 {l r : BitVec 64} {w : BitVec 64} (h : arith op l r = some w) :
    Vm.evalBinary float op (op.resultOn .integer) (Vm.viewConst (.ofInt64 l))
      (Vm.viewConst (.ofInt64 r)) = .ok w := by
  have hop : Vm.isComparison op = false := by cases op <;> first | rfl | cases h
  have hlogical : ∀ a b, Vm.logicalOp float op .int a b = none := by
    intro a b
    cases op <;> first | rfl | cases h
  unfold InstOp.resultOn
  rw [hop]
  show Vm.evalPrimitive float op .int .int .int l r = _
  unfold Vm.evalPrimitive
  rw [hop]
  simp [Vm.arithmetic, Vm.cast, hlogical, h, Vm.fit]

theorem compare_int32 {l r : BitVec 32} {b : Bool} (h : comparison op l r = some b) :
    Vm.evalBinary float op (op.resultOn .int32) (Vm.viewConst (.ofInt l)) (Vm.viewConst (.ofInt r)) =
      .ok (boolWord b) := by
  have hop : Vm.isComparison op = true := by cases op <;> first | rfl | cases h
  unfold InstOp.resultOn
  rw [hop]
  show Vm.evalPrimitive float op .int1 .int32 .int32 (l.setWidth 64) (r.setWidth 64) = _
  unfold Vm.evalPrimitive
  rw [hop]
  cases b <;> simp [Vm.compare, Vm.commonType, Vm.cast, Vm.fit, h, boolWord]

theorem compare_int64 {l r : BitVec 64} {b : Bool} (h : comparison op l r = some b) :
    Vm.evalBinary float op (op.resultOn .integer) (Vm.viewConst (.ofInt64 l))
      (Vm.viewConst (.ofInt64 r)) = .ok (boolWord b) := by
  have hop : Vm.isComparison op = true := by cases op <;> first | rfl | cases h
  unfold InstOp.resultOn
  rw [hop]
  show Vm.evalPrimitive float op .int1 .int .int l r = _
  unfold Vm.evalPrimitive
  rw [hop]
  cases b <;> simp [Vm.compare, Vm.commonType, Vm.cast, Vm.fit, h, boolWord]

end Machine

/-! ## Results -/

section Results

variable {float : Vm.Floats} {op : InstOp}

/-- Primitive types are equal to the source when they are equal. -/
theorem eq_of_eqv {s t : Ty} (hs : s.isPrimitive = true) (ht : t.isPrimitive = true)
    (h : Ty.eqv s t = true) : s = t := by
  cases s with
  | prim p =>
    cases t with
    | prim q =>
      revert h
      cases p <;> cases q <;> decide
    | _ => cases ht
  | _ => cases hs

theorem assign_prim {p : Primitive} {w : Vm.Word} (hw : Vm.fit p w = w) :
    Vm.assign float (.prim p) (.prim p) w = .ok w := by
  show (if p = p then Except.ok (Vm.fit p w) else _) = _
  rw [if_pos rfl, hw]

theorem stands_ofInt {v : BitVec 32} {computed : Except Fault Vm.Word}
    (h : computed = .ok (v.setWidth 64)) : Stands float (.ofInt v) .int32 computed where
  typed := rfl
  type := rfl
  same := ⟨_, h, assign_prim (show Vm.fit .int32 (v.setWidth 64) = v.setWidth 64 by simp [Vm.fit])⟩

theorem stands_ofInt64 {v : BitVec 64} {computed : Except Fault Vm.Word} (h : computed = .ok v) :
    Stands float (.ofInt64 v) .integer computed where
  typed := rfl
  type := rfl
  same := ⟨_, h, assign_prim rfl⟩

theorem stands_ofBool {v : Bool} {computed : Except Fault Vm.Word}
    (h : computed = .ok (boolWord v)) : Stands float (.ofBool v) .int1 computed where
  typed := rfl
  type := rfl
  same := ⟨_, h, assign_prim Vm.fit_boolWord⟩

/-- What the folder does with two integers. -/
theorem folds_integer {n : Nat} (hn : 0 < n) {mk : BitVec n → ConstexprValue} {l r : BitVec n}
    {P : ConstexprValue → Prop} {T : Prop} (hP : ∀ c, P c → T)
    (harith : T → ∀ w, arith op l r = some w → P (mk w))
    (hcompare : T → ∀ b, comparison op l r = some b → P (.ofBool b)) :
    (∃ result, foldInteger mk op l r = .ok result ∧ ∀ c, result = some c → P c) ↔
      Declined op r ∨ T ∧ SignedDefined op l r := by
  by_cases hdec : Declined op r
  · exact iff_of_true ⟨none, foldInteger_declined hdec, by simp⟩ (.inl hdec)
  by_cases hdef : SignedDefined op l r
  · have hdefined : (∃ w, arith op l r = some w ∧ foldInteger mk op l r = .ok (some (mk w))) ∨ _ :=
      foldInteger_defined hn hdec hdef
    rcases hdefined with ⟨w, hw, hfold⟩ | ⟨b, hb, hfold⟩
    · rw [hfold]
      constructor
      · rintro ⟨result, hres, hall⟩
        cases hres
        exact .inr ⟨hP _ (hall _ rfl), hdef⟩
      · intro h
        refine ⟨_, rfl, ?_⟩
        intro c hc
        cases hc
        exact harith (h.resolve_left hdec).1 w hw
    · rw [hfold]
      constructor
      · rintro ⟨result, hres, hall⟩
        cases hres
        exact .inr ⟨hP _ (hall _ rfl), hdef⟩
      · intro h
        refine ⟨_, rfl, ?_⟩
        intro c hc
        cases hc
        exact hcompare (h.resolve_left hdec).1 b hb
  · rw [foldInteger_undefined hn hdec hdef]
    constructor
    · rintro ⟨_, h, -⟩
      cases h
    · rintro (h | h)
      · exact absurd h hdec
      · exact absurd h.2 hdef

/-- The alternatives that the claims about integers and booleans are about. -/
def Payload.isFloating : Payload → Bool
  | .float _ | .double _ => true
  | _ => false

theorem resultOn_compare {t : Ty} {n : Nat} {l r : BitVec n} {b : Bool}
    (h : comparison op l r = some b) : op.resultOn t = .int1 := by
  cases op <;> first
    | rfl
    | cases h

theorem resultOn_arith {t : Ty} {n : Nat} {l r w : BitVec n} (h : arith op l r = some w) :
    op.resultOn t = t := by
  cases op <;> first
    | rfl
    | cases h

theorem fold_eq {lhs rhs : ConstexprValue} (hl : lhs.type.isPrimitive = true)
    (hr : rhs.type.isPrimitive = true) (ht : Ty.eqv lhs.type rhs.type = true) :
    ConstexprFolder.fold float op lhs rhs =
      ConstexprFolder.fold float op ⟨.int32, lhs.val⟩ ⟨.int32, rhs.val⟩ := by
  unfold ConstexprFolder.fold
  rw [hl, hr, ht]
  rfl

/-- The constant for the operands `l` and `r` of type `t` is right. -/
def Right (float : Vm.Floats) (op : InstOp) (t : Ty) (l r : Payload) (c : ConstexprValue) : Prop :=
  ConstexprValue.WellTyped ⟨t, l⟩ ∧ ConstexprValue.WellTyped ⟨t, r⟩ ∧
    Stands float c (op.resultOn t)
      (Vm.evalBinary float op (op.resultOn t) (Vm.viewConst ⟨t, l⟩) (Vm.viewConst ⟨t, r⟩))

theorem folds_int {t : Ty} {l r : BitVec 32} :
    (∃ result, foldInteger .ofInt op l r = .ok result ∧
      ∀ c, result = some c → Right float op t (.int l) (.int r) c) ↔
      Declined op r ∨ t = .int32 ∧ SignedDefined op l r := by
  refine folds_integer (by decide) (fun c h => h.1) ?_ ?_
  · rintro rfl w hw
    refine ⟨rfl, rfl, ?_⟩
    have heval : Vm.evalBinary float op _ _ _ = _ := evalBinary_int32 hw
    rw [resultOn_arith hw] at heval ⊢
    exact stands_ofInt heval
  · rintro rfl b hb
    refine ⟨rfl, rfl, ?_⟩
    have heval : Vm.evalBinary float op _ _ _ = _ := compare_int32 hb
    rw [resultOn_compare hb] at heval ⊢
    exact stands_ofBool heval

theorem folds_int64 {t : Ty} {l r : BitVec 64} :
    (∃ result, foldInteger .ofInt64 op l r = .ok result ∧
      ∀ c, result = some c → Right float op t (.int64 l) (.int64 r) c) ↔
      Declined op r ∨ t = .integer ∧ SignedDefined op l r := by
  refine folds_integer (by decide) (fun c h => h.1) ?_ ?_
  · rintro rfl w hw
    refine ⟨rfl, rfl, ?_⟩
    have heval : Vm.evalBinary float op _ _ _ = _ := evalBinary_int64 hw
    rw [resultOn_arith hw] at heval ⊢
    exact stands_ofInt64 heval
  · rintro rfl b hb
    refine ⟨rfl, rfl, ?_⟩
    have heval : Vm.evalBinary float op _ _ _ = _ := compare_int64 hb
    rw [resultOn_compare hb] at heval ⊢
    exact stands_ofBool heval

theorem folds_bool {t : Ty} {l r : Bool} :
    (∃ result, foldBool op l r = .ok result ∧
      ∀ c, result = some c → Right float op t (.bool l) (.bool r) c) ↔
      ((op = .and ∨ op = .or ∨ op = .eq ∨ op = .neq) → t = .int1) := by
  by_cases hop : op = .and ∨ op = .or ∨ op = .eq ∨ op = .neq
  · simp only [hop, forall_const]
    have hbool : ∃ b, foldBool op l r = .ok (some (.ofBool b)) ∧
        Vm.evalBinary float op (op.resultOn .int1) (Vm.viewConst (.ofBool l))
          (Vm.viewConst (.ofBool r)) = .ok (boolWord b) ∧ op.resultOn .int1 = .int1 := by
      rcases hop with rfl | rfl | rfl | rfl
      · exact ⟨_, rfl, by cases l <;> cases r <;> rfl, rfl⟩
      · exact ⟨_, rfl, by cases l <;> cases r <;> rfl, rfl⟩
      · exact ⟨_, rfl, by cases l <;> cases r <;> rfl, rfl⟩
      · exact ⟨_, rfl, by cases l <;> cases r <;> rfl, rfl⟩
    obtain ⟨b, hfold, heval, hres⟩ := hbool
    rw [hfold]
    constructor
    · rintro ⟨result, hresult, hall⟩
      cases hresult
      exact (hall _ rfl).1
    · rintro rfl
      refine ⟨_, rfl, fun c hc => ?_⟩
      cases hc
      rw [hres] at heval
      refine ⟨rfl, rfl, ?_⟩
      rw [hres]
      exact stands_ofBool heval
  · refine iff_of_true ⟨none, ?_, by simp⟩ fun h => absurd h hop
    cases op <;> first
      | rfl
      | exact absurd (by simp) hop

theorem folds_iff {lhs rhs : ConstexprValue} (hl : lhs.val.isFloating = false) :
    Folds float op lhs rhs ↔ FoldCondition op lhs rhs := by
  have hdecline : ConstexprFolder.fold float op lhs rhs = .ok none → Folds float op lhs rhs :=
    fun h => ⟨none, h, by simp⟩
  by_cases hpl : lhs.type.isPrimitive = true
  swap
  · exact iff_of_true (hdecline (by simp [ConstexprFolder.fold, hpl])) fun h => absurd h hpl
  by_cases hpr : rhs.type.isPrimitive = true
  swap
  · exact iff_of_true (hdecline (by simp [ConstexprFolder.fold, hpr])) fun _ h => absurd h hpr
  by_cases ht : Ty.eqv lhs.type rhs.type = true
  swap
  · exact iff_of_true (hdecline (by simp [ConstexprFolder.fold, ht])) fun _ _ h => absurd h ht
  have heq := eq_of_eqv hpl hpr ht
  unfold Folds FoldCondition
  rw [fold_eq hpl hpr ht]
  simp only [hpl, hpr, ht, forall_const]
  obtain ⟨t, p⟩ := lhs
  obtain ⟨t', q⟩ := rhs
  cases (heq : t = t')
  dsimp only at hl ⊢
  -- the payload of the second constant must be of the alternative of the first
  have hbad : ∀ P : ConstexprValue → Prop, ∀ e : Trap,
      ¬∃ result, (.error e : Except Trap (Option ConstexprValue)) = .ok result ∧
        ∀ c, result = some c → P c := by
    rintro P e ⟨_, h, -⟩
    cases h
  cases p with
  | int l =>
    cases q with
    | int r =>
      simp only [Payload.int.injEq, exists_eq_left']
      exact folds_int
    | _ => exact iff_of_false (hbad _ _) (by rintro ⟨_, h, -⟩; cases h)
  | int64 l =>
    cases q with
    | int64 r =>
      simp only [Payload.int64.injEq, exists_eq_left']
      exact folds_int64
    | _ => exact iff_of_false (hbad _ _) (by rintro ⟨_, h, -⟩; cases h)
  | bool l =>
    cases q with
    | bool r =>
      have hex : (∃ r', Payload.bool r = .bool r' ∧
          ((op = .and ∨ op = .or ∨ op = .eq ∨ op = .neq) → t = .int1)) ↔
          ((op = .and ∨ op = .or ∨ op = .eq ∨ op = .neq) → t = .int1) :=
        ⟨fun ⟨_, _, h⟩ => h, fun h => ⟨r, rfl, h⟩⟩
      rw [hex]
      exact folds_bool
    | _ => exact iff_of_false (hbad _ _) (by rintro ⟨_, h, -⟩; cases h)
  | float l => cases hl
  | double l => cases hl
  | monostate => exact iff_of_true ⟨none, rfl, by simp⟩ trivial
  | bytes buf => exact iff_of_true ⟨none, rfl, by simp⟩ trivial

theorem evalUnary_int32 {v : BitVec 32} :
    Vm.evalUnary float .neg .int32 (Vm.viewConst (.ofInt v)) = .ok ((-v).setWidth 64) := by
  show Except.ok (Vm.fit .int32 (Vm.negate .int32 (Vm.cast float .int32 .int32 (v.setWidth 64)))) = _
  simp [Vm.cast, Vm.negate, Vm.fit]

theorem evalUnary_int64 {v : BitVec 64} :
    Vm.evalUnary float .neg .integer (Vm.viewConst (.ofInt64 v)) = .ok (-v) := rfl

theorem evalUnary_bool {v : Bool} :
    Vm.evalUnary float .not .int1 (Vm.viewConst (.ofBool v)) = .ok (boolWord !v) := by
  cases v <;> rfl

/-- A folder that declines unless the operator is `op`, and then finds `c` or is undefined. -/
theorem folds_one {op op' : UnaryInstOp} {T D : Prop}
    {P : ConstexprValue → Prop} {result : Except Trap (Option ConstexprValue)}
    (hother : op ≠ op' → result = .ok none)
    (hsome : op = op' → D → ∃ c, result = .ok (some c) ∧ (P c ↔ T))
    (hnone : op = op' → ¬D → result = .error .undefined) :
    (∃ r, result = .ok r ∧ ∀ c, r = some c → P c) ↔ (op = op' → T ∧ D) := by
  by_cases hop : op = op'
  · by_cases hd : D
    · obtain ⟨c, hc, hP⟩ := hsome hop hd
      rw [hc]
      constructor
      · rintro ⟨_, h, hall⟩ -
        cases h
        exact ⟨hP.1 (hall c rfl), hd⟩
      · intro h
        refine ⟨_, rfl, fun c' hc' => ?_⟩
        cases hc'
        exact hP.2 (h hop).1
    · rw [hnone hop hd]
      constructor
      · rintro ⟨_, h, -⟩
        cases h
      · intro h
        exact absurd (h hop).2 hd
  · exact iff_of_true ⟨none, hother hop, by simp⟩ fun h => absurd h hop

theorem folds_unary_iff {op : UnaryInstOp} {operand : ConstexprValue}
    (h : operand.val.isFloating = false) :
    FoldsUnary float op operand ↔ FoldUnaryCondition op operand := by
  by_cases hp : operand.type.isPrimitive = true
  swap
  · refine iff_of_true ⟨none, ?_, by simp⟩ fun hc => absurd hc hp
    simp [ConstexprFolder.foldUnary, hp]
  unfold FoldsUnary FoldUnaryCondition ConstexprFolder.foldUnary
  simp only [hp, Bool.not_true, Bool.false_eq_true, if_false, forall_const]
  obtain ⟨t, p⟩ := operand
  dsimp only at h ⊢
  cases p with
  | int v =>
    refine folds_one (fun hop => if_neg hop) ?_ ?_
    · rintro rfl hv
      refine ⟨.ofInt (-v), ?_, fun hc => hc.1, ?_⟩
      · show folded .ofInt (Signed.neg v) = _
        rw [Signed.neg_eq (by decide), if_neg hv]
        rfl
      · rintro rfl
        exact ⟨rfl, stands_ofInt evalUnary_int32⟩
    · rintro rfl hv
      show folded .ofInt (Signed.neg v) = _
      rw [Signed.neg_eq (by decide), if_pos (not_not.1 hv)]
      rfl
  | int64 v =>
    refine folds_one (fun hop => if_neg hop) ?_ ?_
    · rintro rfl hv
      refine ⟨.ofInt64 (-v), ?_, fun hc => hc.1, ?_⟩
      · show folded .ofInt64 (Signed.neg v) = _
        rw [Signed.neg_eq (by decide), if_neg hv]
        rfl
      · rintro rfl
        exact ⟨rfl, stands_ofInt64 evalUnary_int64⟩
    · rintro rfl hv
      show folded .ofInt64 (Signed.neg v) = _
      rw [Signed.neg_eq (by decide), if_pos (not_not.1 hv)]
      rfl
  | bool v =>
    have hone : (∃ r, (if op = .not then foldedBool !v else .ok none) = .ok r ∧ ∀ c, r = some c →
        ConstexprValue.WellTyped ⟨t, .bool v⟩ ∧
          Stands float c t (Vm.evalUnary float op t (Vm.viewConst ⟨t, .bool v⟩))) ↔
        (op = .not → t = .int1 ∧ True) := by
      refine folds_one (fun hop => if_neg hop) ?_ ?_
      · rintro rfl -
        refine ⟨.ofBool !v, if_pos rfl, fun hc => hc.1, ?_⟩
        rintro rfl
        exact ⟨rfl, stands_ofBool evalUnary_bool⟩
      · intro _ hfalse
        exact absurd trivial hfalse
    simpa using hone
  | float v => cases h
  | double v => cases h
  | monostate => exact iff_of_true ⟨none, rfl, by simp⟩ trivial
  | bytes buf => exact iff_of_true ⟨none, rfl, by simp⟩ trivial

/-- On integers and booleans the folder finds what the instruction computes, or declines,
if and only if the payloads are of the operands' types and the C++ operator is defined. -/
theorem constexpr_folder_iff (float : Vm.Floats) :
    (∀ op lhs rhs, lhs.val.isFloating = false →
      (Folds float op lhs rhs ↔ FoldCondition op lhs rhs)) ∧
    ∀ op operand, operand.val.isFloating = false →
      (FoldsUnary float op operand ↔ FoldUnaryCondition op operand) :=
  ⟨fun _ _ _ h => folds_iff h, fun _ _ h => folds_unary_iff h⟩

/-- Floating-point arithmetic that is not looked at. -/
def noFloats : Vm.Floats := ⟨fun _ a _ => a, fun _ a _ => a, fun _ _ _ => false, fun _ _ _ => false,
  fun _ _ w => w⟩

/-- Constants that the folder adds and negates. -/
theorem constexpr_folder_iff_small : Folds noFloats .add (.ofInt 3) (.ofInt 4) ∧
    FoldsUnary noFloats .neg (.ofInt 3) := by
  constructor
  · refine ((constexpr_folder_iff noFloats).1 .add (.ofInt 3) (.ofInt 4) rfl).2 fun _ _ _ => ?_
    exact ⟨4, rfl, .inr ⟨rfl, show Signed.Fits 32 _ by decide⟩⟩
  · refine ((constexpr_folder_iff noFloats).2 .neg (.ofInt 3) rfl).2 fun _ _ => ?_
    exact ⟨rfl, by decide⟩

/-- The least number divided by -1, which the machine wraps around. -/
theorem fold_min_div_neg_one :
    ConstexprFolder.fold noFloats .div (.ofInt (BitVec.intMin 32)) (.ofInt (-1)) =
      .error .undefined ∧
    Vm.evalBinary noFloats .div .int32 (Vm.viewConst (.ofInt (BitVec.intMin 32)))
      (Vm.viewConst (.ofInt (-1))) = .ok (Vm.viewConst (.ofInt (BitVec.intMin 32))).word ∧
    ¬Folds noFloats .div (.ofInt (BitVec.intMin 32)) (.ofInt (-1)) := by
  refine ⟨by decide, by decide, ?_⟩
  rintro ⟨result, h, -⟩
  have herr : ConstexprFolder.fold noFloats .div (.ofInt (BitVec.intMin 32)) (.ofInt (-1)) =
    .error .undefined := by decide
  rw [herr] at h
  cases h

end Results

end Ir
end Cact
