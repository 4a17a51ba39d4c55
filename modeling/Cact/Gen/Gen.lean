import Cact.Ast.Ast

/-!
# IR generation (`backend/ir/gen/`)

The generator walks over the checked tree and appends to the function it builds.
It passes the current block along; a statement after which control does not go on
leaves none.

- `GenState`, `GenM`: the tables of the generator and the function under construction.
- `genInitVal`, `genDecl`: constants, initialisers and allocations.
- `genExp`, `branch`, `genStmt`: expressions, conditions and statements.
- `genFuncDef`, `generate`: functions and programs.
-/

namespace Cact

namespace Gen

open Ast
open Ir (Ty Fault ConstexprValue NameDef NamedValue LeftValue Value Inst Exit Alloc AllocId BlockId
  Func Program BuiltinFunc UnaryInstOp InstOp)

/-- The generator with the function it is in. Every allocation it has made is in
`allocs`, at its address. The loops of the function are there from the inside out,
each with the blocks that `continue` and `break` lead to. -/
structure GenState where
  irDefs : List (SymDef × NameDef)
  varNameCount : List (String × Nat)
  allocs : List Alloc
  func : Func
  loops : List (BlockId × BlockId)

/-- A step of the generator. -/
abbrev GenM := StateT GenState (Except Fault)

/-! ## Elementary steps -/

/-- `newTemp`. -/
def newTemp (type : Ty) (scope : BlockId) : GenM LeftValue := fun s =>
  let (t, f) := s.func.newTemp type scope
  .ok (t, { s with func := f })

/-- `newBlock` with a label. -/
def newBlock (label : String) : GenM BlockId := fun s =>
  let (b, f) := s.func.newBlock label
  .ok (b, { s with func := f })

/-- `newBlock()`. -/
def newTempBlock : GenM BlockId := fun s =>
  let (b, f) := s.func.newTempBlock
  .ok (b, { s with func := f })

def append (scope : BlockId) (i : Inst) : GenM Unit := fun s =>
  .ok ((), { s with func := s.func.updateBlock scope fun b => b.append i })

def setExit (scope : BlockId) (e : Exit) : GenM Unit := fun s =>
  .ok ((), { s with func := s.func.updateBlock scope fun b => b.setExit e })

def addLocal (a : Alloc) : GenM Unit := fun s => .ok ((), { s with func := s.func.addLocal a })

def pushLoop (continueTarget breakTarget : BlockId) : GenM Unit := fun s =>
  .ok ((), { s with loops := (continueTarget, breakTarget) :: s.loops })

def popLoop : GenM Unit := fun s => .ok ((), { s with loops := s.loops.tail })

/-- `currentLoop`. -/
def currentLoop : GenM (BlockId × BlockId) := fun s =>
  match s.loops with
  | [] => .error (.compilerError "No loop context available")
  | l :: _ => .ok (l, s)

/-- `ir_defs.at`. -/
def findDef (d : SymDef) : GenM NameDef := fun s =>
  match s.irDefs.lookup d with
  | none => .error .outOfRange
  | some n => .ok (n, s)

/-- `ir_defs[d] = n`. -/
def setDef (d : SymDef) (n : NameDef) : GenM Unit := fun s =>
  .ok ((), { s with irDefs := (d, n) :: s.irDefs })

/-- `name_of` a variable, which is called once for each of them. -/
def nameOf (name : String) : GenM String := fun s =>
  let count := (s.varNameCount.lookup name).getD 0
  .ok (name ++ "_" ++ toString count, { s with varNameCount := (name, count + 1) :: s.varNameCount })

/-- A new allocation. -/
def newAlloc (mk : AllocId → Alloc) : GenM Alloc := fun s =>
  let a := mk s.allocs.length
  .ok (a, { s with allocs := s.allocs ++ [a] })

/-- `alloc->reference = true`. -/
def setReference (a : Alloc) : GenM Alloc := fun s =>
  .ok ({ a with reference := true },
    { s with allocs := s.allocs.map fun b => if b.id = a.id then { b with reference := true } else b })

def findAlloc (a : AllocId) : GenM Alloc := fun s =>
  match s.allocs[a]? with
  | none => .error .outOfRange
  | some a => .ok (a, s)

/-- A block pointer is dereferenced. -/
def deref : Option BlockId → GenM BlockId
  | none => throw .nullPointer
  | some b => pure b

/-- `JumpExit`. -/
def jumpExit : Option BlockId → GenM Exit
  | none => throw (.compilerError "target block cannot be null")
  | some b => pure (.jump b)

/-! ## Initialisers -/

/-- The bytes of a number, the lowest first. -/
def bytesOf (v : Nat) : Nat → List (BitVec 8)
  | 0 => []
  | n + 1 => BitVec.ofNat 8 v :: bytesOf (v / 256) n

@[simp] theorem length_bytesOf (v n : Nat) : (bytesOf v n).length = n := by
  induction n generalizing v with
  | zero => rfl
  | succ n ih => simp [bytesOf, ih]

/-- How a constant is laid out in memory. -/
def constBytes : ConstExp → List (BitVec 8)
  | .int v => bytesOf v.toNat 4
  | .float bits => bytesOf bits.toNat 4
  | .double bits => bytesOf bits.toNat 8
  | .bool v => bytesOf v.toNat 1

def constValue : ConstExp → ConstexprValue
  | .int v => .ofInt v
  | .float bits => .ofFloat bits
  | .double bits => .ofDouble bits
  | .bool v => .ofBool v

/-- A write into a buffer. -/
def writeBytes (buf : List (BitVec 8)) (off : Nat) (bytes : List (BitVec 8)) :
    Except Fault (List (BitVec 8)) :=
  if off + bytes.length ≤ buf.length then
    .ok (buf.take off ++ bytes ++ buf.drop (off + bytes.length))
  else .error .outOfBounds

/-- The element type, `.as<Array>()`. -/
def asArray : Ty → Except Fault Ty
  | .array elem _ => .ok elem
  | _ => .error (.compilerError "Type is not Array")

mutual

/-- One element of `construct`. -/
def constructVal (elem targetElem : Ty) (v : InitVal checked) (off : Nat)
    (buf : List (BitVec 8)) : Except Fault (List (BitVec 8)) :=
  match v with
  | .exp c => writeBytes buf off (constBytes c)
  | .list _ vals => do
    let elem ← asArray elem
    let targetElem ← asArray targetElem
    construct elem targetElem vals off buf

/-- `construct`: the elements of a list into the buffer from `off` on, where `elem`
and `targetElem` are the element types of the list and of its target. -/
def construct (elem targetElem : Ty) (vals : InitVals checked) (off : Nat)
    (buf : List (BitVec 8)) : Except Fault (List (BitVec 8)) :=
  match vals with
  | .nil => .ok buf
  | .cons v vs => do
    let buf ← constructVal elem targetElem v off buf
    construct elem targetElem vs (off + targetElem.sizeOf) buf

end

/-- The type a list is laid out as: a flat list initialises an array of several
dimensions as if it had one. -/
def layoutType (elem target : Ty) : Except Fault Ty := do
  let targetElem ← asArray target
  return if !elem.isArray && targetElem.isArray then target.flatten else target

/-- `gen` of a `ConstInitVal`. -/
def genInitVal (init : InitVal checked) (target : Ty) : Except Fault ConstexprValue :=
  match init with
  | .exp c => .ok (constValue c)
  | .list type vals => do
    let elem ← asArray type
    let target ← layoutType elem target
    let targetElem ← asArray target
    let buf ← construct elem targetElem vals 0 (List.replicate target.sizeOf 0)
    return ⟨target.flatten, .bytes buf⟩

/-! ## Declarations -/

/-- `gen` of a `ConstDef`. -/
def genConstDef (d : ConstDef checked) : GenM Alloc := do
  let name ← nameOf d.name
  let init ← (genInitVal d.val d.type : Except Fault ConstexprValue)
  let a ← newAlloc fun id => .constant id name d.type init false
  setDef (.var d.id) (.alloc a.id)
  return a

/-- `gen` of a `VarDef`. -/
def genVarDef (d : VarDef checked) : GenM Alloc := do
  let name ← nameOf d.name
  let init ← (match d.val with
    | some val => genInitVal val d.type
    | none => ConstexprValue.zerosLike d.type : Except Fault ConstexprValue)
  let a ← newAlloc fun id => .variable id name d.type (some init) false
  setDef (.var d.id) (.alloc a.id)
  return a

/-- `gen` of a `FuncParam`. -/
def genFuncParam (p : FuncParam checked) : GenM Alloc := do
  let name ← nameOf p.name
  let a ← newAlloc fun id => .variable id name p.paramType none false
  setDef (.var p.id) (.alloc a.id)
  return a

/-- Arrays must be accessed by reference. -/
def byReference (a : Alloc) : GenM Alloc :=
  if a.type.isArray then setReference a else pure a

/-- `gen` of a `Decl`. -/
def genDecl (d : Decl checked) : GenM (List Alloc) := do
  let allocs ← match d with
    | .constDecl _ defs => defs.mapM genConstDef
    | .varDecl _ defs => defs.mapM genVarDef
  allocs.mapM byReference

/-! ## Expressions -/

def convertUnary : UnaryOp → UnaryInstOp
  | .plus => .mov
  | .minus => .neg
  | .not => .not

/-- `convert_op`. -/
def convertBinary : BinaryOp → Except Fault InstOp
  | .mul => .ok .mul
  | .div => .ok .div
  | .mod => .ok .mod
  | .add => .ok .add
  | .sub => .ok .sub
  | .lt => .ok .lt
  | .gt => .ok .gt
  | .leq => .ok .leq
  | .geq => .ok .geq
  | .eq => .ok .eq
  | .neq => .ok .neq
  | .and => .ok .and
  | .or => .ok .or
  | .index => .error (.compilerError "unsupported binary operator '[]'")

/-- `gen` of an `LVal`. -/
def genLVal (v : LVal checked) : GenM NamedValue := do
  let d ← findDef v.ref
  match d with
  | .alloc id =>
    let a ← findAlloc id
    if a.reference then return a.value else return ⟨v.type, d⟩
  | _ => return ⟨v.type, d⟩

/-- `gen` of an `LValExp` that is a variable: what a pointer refers to is loaded. -/
def genVar (v : LVal checked) (scope : BlockId) : GenM LeftValue := do
  let named ← genLVal v
  match named.type with
  | .reference elem _ false =>
    let temp ← newTemp elem scope
    append scope (.unary ⟨.load, some temp, .left named.left⟩)
    return temp
  | _ => return named.left

/-- The end of `gen` of a `BinaryExp`, when its operands are there. -/
def genOperator (op : BinaryOp) (type : Ty) (left right : Value) (scope : BlockId) :
    GenM LeftValue :=
  if op ≠ .index then do
    let result ← newTemp type scope
    let irOp ← (convertBinary op : Except Fault InstOp)
    append scope (.binary ⟨irOp, some result, left, right⟩)
    return result
  else
    match type with
    | .reference _ readonly _ => do
      let result ← newTemp type scope
      append scope (.binary ⟨if readonly then .borrowElem else .borrowElemMut, some result, left,
        right⟩)
      return result
    | _ => do
      let ref ← newTemp (type.borrow true) scope
      let result ← newTemp type scope
      append scope (.binary ⟨.borrowElem, some ref, left, right⟩)
      append scope (.unary ⟨.load, some result, .left ref⟩)
      return result

mutual

/-- `gen` of an `Exp`. -/
def genExp (e : Exp checked) (scope : BlockId) : GenM Value :=
  match e with
  | .paren e => genExp e scope
  | .lval v => do return .left (← genVar v scope)
  | .elem type l r => do
    let l ← genExp l scope
    let r ← genExp r scope
    return .left (← genOperator .index type l r scope)
  | .const c => pure (.const (constValue c))
  | .unary op e => do
    let operand ← genExp e scope
    let result ← newTemp e.typeOf scope
    append scope (.unary ⟨convertUnary op, some result, operand⟩)
    return .left result
  | .binary op type l r => do
    let l ← genExp l scope
    let r ← genExp r scope
    return .left (← genOperator op type l r scope)
  | .call type f args => do
    let args ← genArgs args scope
    let result ← if type.eqv .unit then pure none else some <$> newTemp type scope
    let func ← genLVal f
    append scope (.call ⟨result, func, args⟩)
    return (result.map Value.left).getD .void

/-- The arguments of a call. -/
def genArgs (es : Exps checked) (scope : BlockId) : GenM (List Value) :=
  match es with
  | .nil => pure []
  | .cons e es => do
    let v ← genExp e scope
    let vs ← genArgs es scope
    return v :: vs

end

/-- `branch`: the exit of `scope` for a condition. The operands of `&&` and `||` are
conditions of their own, the right one in a block of its own. -/
def branch (cond : Exp checked) (scope trueBlock falseBlock : BlockId) : GenM Exit :=
  match cond with
  | .binary .and _ l r => do
    let rightBlock ← newTempBlock
    let leftExit ← branch l scope rightBlock falseBlock
    let rightExit ← branch r rightBlock trueBlock falseBlock
    setExit rightBlock rightExit
    return leftExit
  | .binary .or _ l r => do
    let rightBlock ← newTempBlock
    let leftExit ← branch l scope trueBlock rightBlock
    let rightExit ← branch r rightBlock trueBlock falseBlock
    setExit rightBlock rightExit
    return leftExit
  | cond => do
    let v ← genExp cond scope
    return .branch v trueBlock falseBlock

/-! ## Statements -/

/-- A local allocation: its initialiser is executed where the declaration stands. -/
def genLocal (scope : BlockId) (a : Alloc) : GenM Unit :=
  if h : a.comptime = true then addLocal a
  else do
    match a.init with
    | some init =>
      if a.reference then
        append scope (.binary ⟨.store, none, .left a.value.left, .const init⟩)
      else append scope (.unary ⟨.mov, some a.value.left, .const init⟩)
    | none => pure ()
    addLocal { a with init := none, comptime_ok := fun hc => absurd hc h }

/-- The assignments of a declaration. -/
def genLocals (scope : BlockId) : List Alloc → GenM Unit
  | [] => pure ()
  | a :: as => do
    genLocal scope a
    genLocals scope as

/-- `gen` of an `AssignStmt`. -/
def genAssign (var : LValExp checked) (exp : Exp checked) (scope : BlockId) : GenM Unit :=
  match var with
  | .lval v => do
    let var ← genLVal v
    let val ← genExp exp scope
    if var.type.isPointer then append scope (.binary ⟨.store, none, .left var.left, val⟩)
    else append scope (.unary ⟨.mov, some var.left, val⟩)
  | .elem _ l r => do
    let array ← genExp l scope
    let index ← genExp r scope
    let val ← genExp exp scope
    let addr ← newTemp (val.typeOf.borrow false) scope
    append scope (.binary ⟨.borrowElemMut, some addr, array, index⟩)
    append scope (.binary ⟨.store, none, .left addr, val⟩)

/-- The block that an arm of an `if` ends in goes on after the statement. -/
def joinExit (exitBlock : Option BlockId) : Option BlockId → GenM Unit
  | none => pure ()
  | some b => do setExit b (← jumpExit exitBlock)

mutual

/-- `gen` of a `Stmt`. -/
def genStmt (stmt : Stmt checked) (scope : BlockId) : GenM (Option BlockId) :=
  match stmt with
  | .ifStmt loc info cond stmt => do
    let trueBlock ← newBlock ("if_true_" ++ loc.toString)
    let exitBlock ← if info.alwaysReturn then pure none
      else some <$> newBlock ("if_exit_" ++ loc.toString)
    -- analysis never says that control does not get past an `if` without `else`
    setExit scope (← branch cond scope trueBlock (← deref exitBlock))
    joinExit exitBlock (← genStmt stmt trueBlock)
    return exitBlock
  | .ifElseStmt loc info cond stmt elseStmt => do
    let trueBlock ← newBlock ("if_true_" ++ loc.toString)
    let exitBlock ← if info.alwaysReturn then pure none
      else some <$> newBlock ("if_exit_" ++ loc.toString)
    let falseBlock ← newBlock ("if_false_" ++ loc.toString)
    setExit scope (← branch cond scope trueBlock falseBlock)
    joinExit exitBlock (← genStmt stmt trueBlock)
    joinExit exitBlock (← genStmt elseStmt falseBlock)
    return exitBlock
  | .whileStmt loc cond stmt => do
    let condBlock ← newBlock ("while_cond_" ++ loc.toString)
    let bodyBlock ← newBlock ("while_body_" ++ loc.toString)
    let exitBlock ← newBlock ("while_exit_" ++ loc.toString)
    pushLoop condBlock exitBlock
    setExit scope (.jump condBlock)
    setExit condBlock (← branch cond condBlock bodyBlock exitBlock)
    setExit (← deref (← genStmt stmt bodyBlock)) (.jump condBlock)
    popLoop
    return some exitBlock
  | .returnStmt none => do
    setExit scope (.ret .void)
    return none
  | .returnStmt (some exp) => do
    setExit scope (.ret (← genExp exp scope))
    return none
  | .breakStmt => do
    setExit scope (.jump (← currentLoop).2)
    return none
  | .continueStmt => do
    setExit scope (.jump (← currentLoop).1)
    return none
  | .assignStmt var exp => do
    genAssign var exp scope
    return some scope
  | .blockStmt items => genItems items scope
  | .expStmt exp => do
    let _ ← genExp exp scope
    return some scope

/-- `gen` of a `BlockStmt`: what follows a statement that leaves no block is dropped. -/
def genItems (items : Items checked) (scope : BlockId) : GenM (Option BlockId) :=
  match items with
  | .nil => pure (some scope)
  | .decl d rest => do
    genLocals scope (← genDecl d)
    genItems rest scope
  | .stmt stmt rest => do
    match ← genStmt stmt scope with
    | none => return none
    | some scope => genItems rest scope

end

/-! ## Functions and programs -/

/-- A function without blocks. -/
def emptyFunc (name : String) (retType : Ty) (params : List Alloc) : Func where
  name := name
  retType := retType
  params := params
  locals := []
  blocks := []
  temps := []
  tempLabelCount := 0
  nextBlock := 0

/-- The function under construction is a new one. -/
def startFunc (f : Func) : GenM Unit := fun s => .ok ((), { s with func := f, loops := [] })

/-- The function that has been built. -/
def builtFunc : GenM Func := fun s => .ok (s.func, s)

/-- The end of a function that control may reach. -/
def finishFunc (name : String) (retType : Ty) : Option BlockId → GenM Unit
  | none => pure ()
  | some b =>
    if !retType.le .unit then
      throw (.compilerError ("control may reach end of function '" ++ name ++ "'"))
    else setExit b (.ret .void)

/-- `gen` of a `FuncDef`. -/
def genFuncDef (f : FuncDef checked) : GenM Func := do
  let params ← f.params.mapM genFuncParam
  startFunc (emptyFunc f.name (FuncType.toTy f.type) params)
  let entry ← newBlock "entry"
  setDef (.func f.name) (.func f.name)
  let last ← genItems f.block entry
  finishFunc f.name (FuncType.toTy f.type) last
  builtFunc

/-- A global is accessed by reference unless it is a constant. -/
def globalReference (a : Alloc) : GenM Alloc :=
  if a.immutable then pure a else setReference a

/-- The items of a `CompUnit`: globals and functions, in their order. -/
def genUnit : CompUnit checked → GenM (List Alloc × List Func)
  | [] => pure ([], [])
  | .decl d :: rest => do
    let allocs ← (← genDecl d).mapM globalReference
    let (globals, funcs) ← genUnit rest
    return (allocs ++ globals, funcs)
  | .func f :: rest => do
    let func ← genFuncDef f
    let (globals, funcs) ← genUnit rest
    return (globals, func :: funcs)

/-- The tables after the builtin functions. -/
def GenState.init : GenState where
  irDefs := builtinFuncs.reverse.map fun (name, _, _) => (.func name, .builtin name)
  varNameCount := []
  allocs := []
  func := emptyFunc "" .unit []
  loops := []

/-- `builtins` of the program. -/
def builtins : List BuiltinFunc :=
  builtinFuncs.map fun (name, ret, params) =>
    ⟨name, .func (.product (.ofList (params.map BasicType.toTy))) (FuncType.toTy ret)⟩

/-- `generate`. -/
def generate (u : CompUnit checked) : Except Fault Program := do
  let ((globals, funcs), s) ← (genUnit u).run .init
  return ⟨false, globals, funcs, builtins, s.allocs.length⟩

end Gen
end Cact
