import Cact.Ir.Analysis.Dominance
import Cact.Ir.Equal
import Cact.Lib.Numbering

/-!
# Common subexpression elimination (`transform/optim/common_expr.hpp`)

The pass walks down the dominance tree of every function and numbers the values of the
instructions it passes. The tables are handed down the tree by value, so a block sees what its
dominators have computed. An instruction whose expression already has a number becomes a move
from the first value of this number.

- `Op`, `Context`: the keys and the tables, with `void` as number 0.
- `visit`, `visitInsts`: an instruction, and the instructions of a block.
- `walk`: a block and the blocks below it in the tree.
- `eliminate`, `apply`: a function, and the program.
-/

namespace Cact

namespace Ir

open Analysis

namespace CommonSubexprElimination

/-- `encode`: the operators of both kinds. -/
inductive Op
  | unary (op : UnaryInstOp)
  | binary (op : InstOp)
  deriving DecidableEq, Repr

def Op.commutative : Op → Bool
  | unary _ => false
  | binary op => op.commutative

abbrev Context := Numbering Value Op

/-- The constructor of `Context`. -/
def Context.start : Context := ⟨[(.void, 0)], [], [(0, .void)]⟩

/-- What becomes of an instruction with this result. -/
def replaced (r : LeftValue) (x : Option Value) : Option Inst :=
  x.map fun x => .unary ⟨.mov, some r, x⟩

/-- The tables after an instruction, and what it is replaced by. -/
def visit (ctx : Context) : Inst → Context × Option Inst
  | .unary u =>
    match u.result with
    | some r =>
      if u.op = .load || u.op = .mov then (ctx, none)
      else
        let (ctx, n) := ctx.lookup Value.eqv u.operand
        let (ctx, x) := ctx.convert Value.eqv .void (.unary u.op) n 0 (.left r)
        (ctx, replaced r x)
    | none => (ctx, none)
  | .binary b =>
    match b.result with
    | some r =>
      if b.op = .loadElem || b.op = .store then (ctx, none)
      else
        let (ctx, lhs) := ctx.lookup Value.eqv b.lhs
        let (ctx, rhs) := ctx.lookup Value.eqv b.rhs
        let (ctx, x) := ctx.convert Value.eqv .void (.binary b.op) lhs rhs (.left r)
        let ctx := if b.op.commutative then ctx.commute (.binary b.op) lhs rhs else ctx
        (ctx, replaced r x)
    | none => (ctx, none)
  | _ => (ctx, none)

/-- The instructions of a block one after the other, and whether one of them was replaced. -/
def visitInsts (ctx : Context) : List Inst → Context × List Inst × Bool
  | [] => (ctx, [], false)
  | i :: insts =>
    let (ctx, i') := visit ctx i
    let (ctx, insts', changed) := visitInsts ctx insts
    (ctx, i'.getD i :: insts', i'.isSome || changed)

/-- `eliminate` of a block, with a bound on the depth of the tree. -/
def walk (tree : DominanceTree) : Nat → Context → Func × Bool → BlockId → Option (Func × Bool)
  | 0, _, _, _ => none
  | depth + 1, ctx, (f, changed), id => do
    let b ← f.block? id
    let (ctx, insts, changed') := visitInsts ctx b.insts
    let f := f.updateBlock id fun b => { b with insts }
    (tree.children id).foldlM (walk tree depth ctx) (f, changed || changed')

/-- The orders in which the unordered containers of the analysis of a function are walked. -/
structure Orders where
  dominators : BlockId → HashOrder
  entries : HashOrder

/-- `eliminate` of a function. -/
def eliminate (orders : Orders) (fuel : Nat) (f : Func) : Except Fault (Option (Func × Bool)) := do
  let cfg ← ControlFlowGraph.build f
  let some flow ← dominance.solve cfg fuel | return none
  let tree ← DominanceTree.build orders.dominators orders.entries flow
  let e ← Vm.deref f.entrance
  return walk tree fuel .start (f, false) e.id

def eliminateFuncs (orders : String → Orders) (fuel : Nat) :
    List Func → Except Fault (Option (List Func × Bool))
  | [] => return some ([], false)
  | f :: fs => do
    let some (f', changed) ← eliminate (orders f.name) fuel f | return none
    let some (fs', changed') ← eliminateFuncs orders fuel fs | return none
    return some (f' :: fs', changed || changed')

/-- `apply` -/
def apply (orders : String → Orders) (fuel : Nat) (prog : Program) :
    Except Fault (Option (Program × Bool)) := do
  if !prog.isSsa then throw (.compilerError "CommonSubexprElimination requires SSA form")
  let r ← eliminateFuncs orders fuel prog.funcs
  return r.map fun r => ({ prog with funcs := r.1 }, r.2)

end CommonSubexprElimination

end Ir
end Cact
