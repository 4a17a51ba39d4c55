import Cact.Ir.Optim.CommonExpr
import Cact.Ir.Subtype
import Cact.Ir.Patch

/-!
# The expressions that are numbered

What an instruction with a number computes depends on the views of its operands and on the
type of its result only, not on memory. Two such instructions with the same operator, the same
operands and results of the same type therefore write the same word, and a move from one
result to the other writes this word again.

- `Expr`, `expr?`: the instructions that get a number.
- `evalExpr`, `execInst_expr`: what they compute.
- `Floats.Commutes`, `evalExpr_comm`: operands may be exchanged.
- `assign_of_evalExpr`: a computed word is assigned to its type as it is.
-/

namespace Cact

namespace Ir

/-- The floating-point operators that the pass takes for commutative are, and the two types
of double-precision numbers have the same bits. -/
structure Vm.Floats.Commutes (float : Vm.Floats) : Prop where
  arithS : ∀ op, op.commutative = true → ∀ a b, float.arithS op a b = float.arithS op b a
  arithD : ∀ op, op.commutative = true → ∀ a b, float.arithD op a b = float.arithD op b a
  compareS : ∀ op, op.commutative = true → ∀ a b, float.compareS op a b = float.compareS op b a
  compareD : ∀ op, op.commutative = true → ∀ a b, float.compareD op a b = float.compareD op b a
  double : ∀ w : Vm.Word, float.convert .float64 .float w = w ∧ float.convert .float .float64 w = w

namespace CommonSubexprElimination

open Vm

/-- An instruction as the pass sees it. A single operand is followed by `void`. -/
structure Expr where
  op : Op
  lhs : Value
  rhs : Value
  result : LeftValue
  deriving DecidableEq, Repr

/-- The instructions that get a number. -/
def expr? : Inst → Option Expr
  | .unary u =>
    if u.op = .load || u.op = .mov then none
    else u.result.map fun r => ⟨.unary u.op, u.operand, .void, r⟩
  | .binary b =>
    if b.op = .loadElem || b.op = .store then none
    else b.result.map fun r => ⟨.binary b.op, b.lhs, b.rhs, r⟩
  | _ => none

/-- The word of an expression, from the views of its operands and the type of its result. -/
def evalExpr (float : Floats) (op : Op) (dest : Ty) (lhs rhs : View) : Except Fault Word :=
  match op with
  | .unary .convert => assign float dest lhs.type lhs.word
  | .unary .not => evalUnary float .not dest lhs
  | .unary .neg => evalUnary float .neg dest lhs
  | .unary _ => throw (.compilerError "BORROW is not modelled")
  | .binary .borrowElem | .binary .borrowElemMut => do
    let (elem, addr) ← elemAddress lhs rhs
    assign float dest (elem.borrow false) addr
  | .binary op => Vm.evalBinary float op dest lhs rhs

section Exec

variable {env : Env} {prog : Program} {s : State env} {fr : Frame} {rest : List Frame} {i : Inst}
  {e : Expr} {sc : Scope}

theorem expr_unary {u : UnaryInst} (h : expr? (.unary u) = some e) :
    ∃ r, u.result = some r ∧ e = ⟨.unary u.op, u.operand, .void, r⟩ ∧ u.op ≠ .load ∧ u.op ≠ .mov := by
  unfold expr? at h
  dsimp only at h
  split at h
  · cases h
  · rename_i hop
    obtain ⟨r, hr, rfl⟩ := Option.map_eq_some_iff.1 h
    simp only [Bool.or_eq_true, decide_eq_true_eq, not_or] at hop
    exact ⟨r, hr, rfl, hop⟩

theorem expr_binary {j : BinaryInst} (h : expr? (.binary j) = some e) :
    ∃ r, j.result = some r ∧ e = ⟨.binary j.op, j.lhs, j.rhs, r⟩ ∧ j.op ≠ .loadElem ∧
      j.op ≠ .store := by
  unfold expr? at h
  dsimp only at h
  split at h
  · cases h
  · rename_i hop
    obtain ⟨r, hr, rfl⟩ := Option.map_eq_some_iff.1 h
    simp only [Bool.or_eq_true, decide_eq_true_eq, not_or] at hop
    exact ⟨r, hr, rfl, hop⟩

theorem definedVar_of_expr (h : expr? i = some e) : i.definedVar = some e.result := by
  cases i with
  | phi p => cases h
  | call c => cases h
  | unary u =>
    obtain ⟨r, hr, rfl, -⟩ := expr_unary h
    exact hr
  | binary j =>
    obtain ⟨r, hr, rfl, -⟩ := expr_binary h
    exact hr

theorem isPlain_of_expr (h : expr? i = some e) : i.isPlain = true := by
  cases i with
  | phi p => cases h
  | call c => cases h
  | unary u => rfl
  | binary b => rfl

/-- The operands of an expression are those of the instruction. -/
theorem used_of_expr (h : expr? i = some e) : e.lhs ∈ i.used ∧ (e.rhs ∈ i.used ∨ e.rhs = .void) := by
  cases i with
  | phi p => cases h
  | call c => cases h
  | unary u =>
    obtain ⟨r, -, rfl, -⟩ := expr_unary h
    exact ⟨by simp [Inst.used], .inr rfl⟩
  | binary j =>
    obtain ⟨r, -, rfl, -⟩ := expr_binary h
    exact ⟨by simp [Inst.used], .inl (by simp [Inst.used])⟩

theorem execUnary_expr {u : UnaryInst} (hload : u.op ≠ .load) (hmov : u.op ≠ .mov) (rhs : View) :
    execUnary s sc u = viewOf env sc u.operand >>= fun lhs =>
      resultType env sc u.result >>= fun dest =>
        evalExpr env.float (.unary u.op) dest lhs rhs := by
  obtain ⟨op, result, operand⟩ := u
  unfold execUnary
  refine bind_congr fun lhs => bind_congr fun dest => ?_
  cases op with
  | mov => exact absurd rfl hmov
  | load => exact absurd rfl hload
  | _ => rfl

theorem evalInst_expr {op : InstOp} (hload : op ≠ .loadElem) (dest : Ty) (lhs rhs : View) :
    evalInst s op dest lhs rhs = evalExpr env.float (.binary op) dest lhs rhs := by
  cases op with
  | loadElem => exact absurd rfl hload
  | _ => rfl

/-- An expression is computed, and its word is written to the result. -/
theorem execInst_expr (h : expr? i = some e) : execInst prog s fr rest i = do
    let lhs ← viewOf env (s.scope fr) e.lhs
    let rhs ← viewOf env (s.scope fr) e.rhs
    let dest ← resultType env (s.scope fr) (some e.result)
    let w ← evalExpr env.float e.op dest lhs rhs
    return s.advance fr rest (setVar env (s.scope fr) (some e.result) w) := by
  cases i with
  | phi p => cases h
  | call c => cases h
  | unary u =>
    obtain ⟨r, hr, rfl, hload, hmov⟩ := expr_unary h
    unfold execInst
    dsimp only
    rw [execUnary_expr hload hmov (viewConst .void), hr, bind_assoc]
    refine bind_congr fun lhs => ?_
    rw [bind_assoc]
    rfl
  | binary j =>
    obtain ⟨r, hr, rfl, hload, hstore⟩ := expr_binary h
    unfold execInst
    dsimp only
    rw [hr]
    refine bind_congr fun lhs => bind_congr fun rhs => bind_congr fun dest => ?_
    rw [if_neg hstore, evalInst_expr hload]

/-- What a move past an expression establishes. -/
theorem moves_expr {f : Func} {id : BlockId} {k : Nat} {b : Block} {q : BlockId × Nat}
    {sc' : Scope} (hm : Moves env f (id, k) sc q sc') (hb : f.block? id = some b)
    (hi : b.insts[k]? = some i) (h : expr? i = some e) :
    ∃ lhs rhs dest w, viewOf env sc e.lhs = .ok lhs ∧ viewOf env sc e.rhs = .ok rhs ∧
      resultType env sc (some e.result) = .ok dest ∧
      evalExpr env.float e.op dest lhs rhs = .ok w ∧ sc' = setVar env sc (some e.result) w := by
  cases i with
  | phi p => cases h
  | call c => cases h
  | unary u =>
    obtain ⟨r, hr, rfl, hload, hmov⟩ := expr_unary h
    obtain ⟨s, w, hw, -, rfl⟩ := hm.of_unary hb hi
    rw [execUnary_expr hload hmov (viewConst .void)] at hw
    obtain ⟨lhs, hl, hw⟩ := Except.bind_eq_ok.1 hw
    obtain ⟨dest, hd, hw⟩ := Except.bind_eq_ok.1 hw
    rw [hr] at hd ⊢
    exact ⟨lhs, viewConst .void, dest, w, hl, rfl, hd, hw, rfl⟩
  | binary j =>
    obtain ⟨r, hr, rfl, hload, hstore⟩ := expr_binary h
    obtain ⟨s, lhs, rhs, dest, w, hl, hrr, hd, hw, -, rfl⟩ := hm.of_binary hb hi hstore
    rw [evalInst_expr hload] at hw
    rw [hr] at hd ⊢
    exact ⟨lhs, rhs, dest, w, hl, hrr, hd, hw, rfl⟩

end Exec

/-! ## The word of an expression -/

section Eval

variable {float : Floats} {op : Op} {dest : Ty} {lhs rhs : View} {w : Word}

theorem fitTy_evalExpr (h : evalExpr float op dest lhs rhs = .ok w) : fitTy dest w = w := by
  unfold evalExpr at h
  split at h
  · exact fitTy_assign h
  · exact fitTy_evalUnary h
  · exact fitTy_evalUnary h
  · cases h
  · obtain ⟨_, -, h⟩ := Except.bind_eq_ok.1 h
    exact fitTy_assign h
  · obtain ⟨_, -, h⟩ := Except.bind_eq_ok.1 h
    exact fitTy_assign h
  · exact fitTy_evalBinary h

theorem assign_prim {p : Primitive} (hw : fitTy (.prim p) w = w) :
    assign float (.prim p) (.prim p) w = .ok w := by
  show assignPrimitive float p p w = .ok w
  unfold assignPrimitive
  rw [if_pos rfl]
  exact congrArg Except.ok hw

theorem assign_reference {elem : Ty} {readonly isSlice : Bool} :
    assign float (.reference elem readonly isSlice) (.reference elem readonly isSlice) w = .ok w :=
  if_pos (Ty.le_self elem)

/-- What can be assigned at all can be assigned to its own type. -/
theorem assign_self_of_ok {dst src : Ty} {w' : Word} (h : assign float dst src w' = .ok w) :
    assign float dst dst w = .ok w := by
  have hfit := fitTy_assign h
  unfold assign at h
  split at h
  · exact assign_prim hfit
  · exact assign_prim hfit
  · exact assign_reference
  · exact assign_reference
  · rfl
  · cases h

theorem assign_asPrimitive {d : Primitive} (hd : asPrimitive dest = .ok d)
    (hw : fitTy dest w = w) : assign float dest dest w = .ok w := by
  cases dest with
  | prim p => exact assign_prim hw
  | reference elem readonly isSlice => exact assign_reference
  | _ => cases hd

/-- A computed word is assigned to the type of its result as it is. -/
theorem assign_of_evalExpr (h : evalExpr float op dest lhs rhs = .ok w) :
    assign float dest dest w = .ok w := by
  have hfit := fitTy_evalExpr h
  have hunary : ∀ {op}, evalUnary float op dest lhs = .ok w → assign float dest dest w = .ok w := by
    intro op h
    obtain ⟨_, -, h⟩ := Except.bind_eq_ok.1 h
    obtain ⟨d, hd, -⟩ := Except.bind_eq_ok.1 h
    exact assign_asPrimitive hd hfit
  unfold evalExpr at h
  split at h
  · exact assign_self_of_ok h
  · exact hunary h
  · exact hunary h
  · cases h
  · obtain ⟨_, -, h⟩ := Except.bind_eq_ok.1 h
    exact assign_self_of_ok h
  · obtain ⟨_, -, h⟩ := Except.bind_eq_ok.1 h
    exact assign_self_of_ok h
  · obtain ⟨d, hd, -⟩ := Except.bind_eq_ok.1 h
    exact assign_asPrimitive hd hfit

/-! ## Exchanged operands -/

variable {iop : InstOp} {p l r : Primitive} {a b : Word}

theorem logical_comm (x y : Bool) : logical iop x y = logical iop y x := by
  cases iop with
  | and => simp [logical, Bool.and_comm]
  | or => simp [logical, Bool.or_comm]
  | _ => rfl

theorem arith_comm {n : Nat} (h : iop.commutative = true) (x y : BitVec n) :
    arith iop x y = arith iop y x := by
  cases iop with
  | mul => exact congrArg some (BitVec.mul_comm x y)
  | add => exact congrArg some (BitVec.add_comm x y)
  | and | or | eq | neq => rfl
  | _ => cases h

theorem comparison_comm {n : Nat} (h : iop.commutative = true) (x y : BitVec n) :
    comparison iop x y = comparison iop y x := by
  cases iop with
  | eq => exact congrArg some (Bool.beq_comm ..)
  | neq => exact congrArg some (by rw [bne_comm])
  | and | or | mul | add => rfl
  | _ => cases h

theorem arithmetic_comm (hf : float.Commutes) (h : iop.commutative = true) :
    arithmetic float iop p a b = arithmetic float iop p b a := by
  unfold arithmetic
  have hlogical : logicalOp float iop p a b = logicalOp float iop p b a := by
    unfold logicalOp
    rw [logical_comm]
  rw [hlogical]
  congr 1
  cases p with
  | int32 =>
    dsimp only
    rw [arith_comm h]
  | int => exact arith_comm h _ _
  | int1 =>
    dsimp only
    rw [arith_comm h]
  | float32 =>
    dsimp only
    rw [hf.arithS iop h]
  | float64 =>
    dsimp only
    rw [hf.arithD iop h]
  | float =>
    dsimp only
    rw [hf.arithD iop h]

theorem compare_comm (hf : float.Commutes) (h : iop.commutative = true) :
    compare float iop p a b = compare float iop p b a := by
  cases p with
  | int32 => exact comparison_comm h _ _
  | int => exact comparison_comm h _ _
  | int1 => exact comparison_comm h _ _
  | float32 => exact congrArg some (hf.compareS iop h _ _)
  | float64 => exact congrArg some (hf.compareD iop h _ _)
  | float => exact congrArg some (hf.compareD iop h _ _)

/-- The common type is the same both ways, or the two are the types of double-precision
numbers. -/
theorem commonType_comm : commonType l r = commonType r l ∨
    (l = .float64 ∧ r = .float) ∨ l = .float ∧ r = .float64 := by
  cases l <;> cases r <;> decide

theorem compare_common_comm (hf : float.Commutes) (h : iop.commutative = true) :
    compare float iop (commonType l r) (cast float l (commonType l r) a)
        (cast float r (commonType l r) b) =
      compare float iop (commonType r l) (cast float r (commonType r l) b)
        (cast float l (commonType r l) a) := by
  rcases @commonType_comm l r with heq | ⟨rfl, rfl⟩ | ⟨rfl, rfl⟩
  · rw [heq, compare_comm hf h]
  · -- both operands are double-precision numbers, whichever of the types is taken
    have hb : cast float .float .float64 b = b := (hf.double b).2
    have ha : cast float .float64 .float a = a := (hf.double a).1
    show compare float iop .float64 a (cast float .float .float64 b) =
      compare float iop .float b (cast float .float64 .float a)
    rw [ha, hb]
    exact congrArg some (hf.compareD iop h a b)
  · have hb : cast float .float64 .float b = b := (hf.double b).1
    have ha : cast float .float .float64 a = a := (hf.double a).2
    show compare float iop .float a (cast float .float64 .float b) =
      compare float iop .float64 b (cast float .float .float64 a)
    rw [ha, hb]
    exact congrArg some (hf.compareD iop h a b)

theorem evalPrimitive_comm (hf : float.Commutes) (h : iop.commutative = true) :
    evalPrimitive float iop p l r a b = evalPrimitive float iop p r l b a := by
  unfold evalPrimitive
  dsimp only
  rw [compare_common_comm hf h, arithmetic_comm hf h]

/-- The operands of a commutative operator may be exchanged. -/
theorem evalExpr_comm (hf : float.Commutes) (h : op.commutative = true)
    (hw : evalExpr float op dest lhs rhs = .ok w) : evalExpr float op dest rhs lhs = .ok w := by
  cases op with
  | unary op => cases h
  | binary op =>
    have hcomm : op.commutative = true := h
    have hbinary : Vm.evalBinary float op dest lhs rhs = .ok w →
        Vm.evalBinary float op dest rhs lhs = .ok w := by
      intro hw
      obtain ⟨d, hd, hw⟩ := Except.bind_eq_ok.1 hw
      obtain ⟨l, hl, hw⟩ := Except.bind_eq_ok.1 hw
      obtain ⟨r, hr, hw⟩ := Except.bind_eq_ok.1 hw
      rw [evalPrimitive_comm hf hcomm] at hw
      exact Except.bind_eq_ok.2 ⟨d, hd, Except.bind_eq_ok.2 ⟨r, hr,
        Except.bind_eq_ok.2 ⟨l, hl, hw⟩⟩⟩
    cases op with
    | mul | add | and | or | eq | neq => exact hbinary hw
    | _ => cases hcomm

end Eval

end CommonSubexprElimination

end Ir
end Cact
