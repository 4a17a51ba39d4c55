import Cact.Ast.Ast

/-!
# Semantic analysis (`frontend/ast/analysis/`)

Every `analysis` overload checks a node and finds out what the tables of
`SemanticAST` hold about it; here it returns the node with that written on it.

- `State`: the scopes and the tables of definitions and functions.
- `analysisExp`, `analysisInitVal`, `analysisDecl`, `analysisStmt`, `analysisFuncDef`,
  `analysisCompUnit`: one function for each kind of node.
-/

namespace Cact

namespace Ast

open Ir (Ty Fault)

/-- The `SemanticError`s, each with what its text is made of, and the failures of
the analysis itself. -/
inductive SemanticError
  | undefinedVariable (name : String)
  | constantAssigned (name : String)
  | undefinedFunction (name : String)
  | notSubtype (type bound : Ty)
  | argumentCount (func : String) (expected got : Nat)
  | badOperands (op : BinaryOp) (left right : Ty)
  | cannotInitialize (type valType : Ty)
  | incompatibleElements (elemType type : Ty)
  | redefinedFunction (name : String)
  | redefinedVariable (name : String) (depth : Nat)
  | mayNotReturn (func : String)
  | returnType (func : String) (type declared : Ty)
  | noMain
  | mainType (expected type : Ty)
  | internal (f : Fault)
  deriving DecidableEq, Repr

/-- `SemanticAST`: its scopes, the innermost first, and its tables. Variables are
numbered in the order of their definitions. -/
structure State where
  vars : List (List (String × Nat))
  types : List Ty
  readonlyDefs : List Nat
  funcs : List (String × Ty × Bool)
  deriving DecidableEq, Repr

namespace State

/-- `lookup`. -/
def lookup (s : State) (name : String) : Option Nat :=
  s.vars.findSome? fun scope => scope.lookup name

/-- `types[def]`. -/
def typeOf (s : State) (id : Nat) : Ty := s.types.getD id .top

def pushScope (s : State) : State := { s with vars := [] :: s.vars }

def popScope (s : State) : State := { s with vars := s.vars.tail }

/-- `registerVariable`, and the type of the variable. -/
def registerVariable (s : State) (name : String) (type : Ty) :
    Except SemanticError (Nat × State) :=
  match s.vars with
  | [] => .error (.internal .outOfRange)
  | scope :: rest =>
    if (scope.lookup name).isSome then .error (.redefinedVariable name rest.length)
    else
      .ok (s.types.length,
        { s with
          vars := ((name, s.types.length) :: scope) :: rest
          types := s.types ++ [type] })

/-- `registerFunction`, and the type of the function. -/
def registerFunction (s : State) (name : String) (type : Ty) (isBuiltin : Bool) :
    Except SemanticError State :=
  if (s.funcs.lookup name).isSome then .error (.redefinedFunction name)
  else .ok { s with funcs := (name, type, isBuiltin) :: s.funcs }

def setReadonly (s : State) (id : Nat) : State := { s with readonlyDefs := id :: s.readonlyDefs }

end State

/-! ## Types -/

/-- `NUM`. -/
def num : Ty := .sum (.ofList [.int32, .float32, .float64])

/-- The type of an array of the given dimensions. -/
def arrayType (elem : Ty) : List Nat → Ty
  | [] => elem
  | n :: dims => .array (arrayType elem dims) n

/-- `calcType` of a parameter: its first dimension is lost. -/
def FuncParam.calcType {d : Decor} (p : FuncParam d) : Ty :=
  match p.dims with
  | .scalar => p.type.toTy
  | .array _ rest => .reference (arrayType p.type.toTy rest) false true

/-- `calcType` of a function. -/
def calcFuncType (params : List Ty) (ret : FuncType) : Ty :=
  .func (.product (.ofList params)) ret.toTy

/-- `checkType`. -/
def checkType (type bound : Ty) : Except SemanticError Unit :=
  if type.le bound then .ok () else .error (.notSubtype type bound)

/-- `.as<Func>()`, with the parameters `.as<Product>()`. -/
def asFunc : Ty → Except SemanticError (List Ty × Ty)
  | .func (.product params) ret => .ok (params.toList, ret)
  | _ => .error (.internal (.compilerError "Type is not Func"))

/-- `.as<Reference>()`. -/
def asReference : Ty → Except SemanticError (Ty × Bool)
  | .reference elem readonly _ => .ok (elem, readonly)
  | _ => .error (.internal (.compilerError "Type is not Reference"))

/-! ## Expressions -/

/-- An `LVal` that is a variable. -/
def analysisVar (s : State) (v : LVal raw) (upper : Ty) (readonly : Bool) :
    Except SemanticError (LVal checked) :=
  match s.lookup v.name with
  | none => .error (.undefinedVariable v.name)
  | some id => do
    if id ∈ s.readonlyDefs ∧ readonly = false then throw (.constantAssigned v.name)
    let type := (s.typeOf id).decay (id ∈ s.readonlyDefs)
    checkType type upper
    return ⟨v.name, .var id, type⟩

/-- An `LVal` that is a function. -/
def analysisFuncName (s : State) (v : LVal raw) (upper : Ty) :
    Except SemanticError (LVal checked) :=
  match s.funcs.lookup v.name with
  | none => .error (.undefinedFunction v.name)
  | some (type, _) => do
    checkType type upper
    return ⟨v.name, .func v.name, type⟩

/-- `analysis` of an `LVal`: a bound that is a function type asks for a function. -/
def analysisLVal (s : State) (v : LVal raw) (upper : Ty) (readonly : Bool) :
    Except SemanticError (LVal checked) :=
  if upper.isFunc then analysisFuncName s v upper else analysisVar s v upper readonly

/-- The bound of the operand. -/
def UnaryOp.bound : UnaryOp → Ty
  | plus | minus => num
  | not => .int1

/-- The bound of the right operand. -/
def BinaryOp.rightBound : BinaryOp → Ty
  | and | or => .int1
  | index => .int32
  | _ => num

/-- The bound of the left operand. -/
def BinaryOp.leftBound (op : BinaryOp) (upper : Ty) (readonly : Bool) : Ty :=
  match op with
  | index => .reference upper readonly true
  | and | or => .int1
  | _ => num

def BinaryOp.isComparison : BinaryOp → Bool
  | eq | neq | lt | gt | leq | geq => true
  | _ => false

/-- The type of a binary expression. -/
def binaryType (op : BinaryOp) (left right : Ty) : Except SemanticError Ty :=
  if op.isComparison then .ok .int1
  else if op = .index then do
    let (elem, readonly) ← asReference left
    return elem.decay readonly
  else .ok (if left.le right then right else left)

/-- Are the operands of an operator other than `index` compatible? -/
def checkOperands (op : BinaryOp) (left right : Ty) : Except SemanticError Unit :=
  if op ≠ .index ∧ !left.le right ∧ !right.le left then .error (.badOperands op left right)
  else .ok ()

mutual

/-- `analysis` of an expression. -/
def analysisExp (s : State) (e : Exp raw) (upper : Ty) (readonly : Bool) :
    Except SemanticError (Exp checked) :=
  match e with
  | .paren e => do
    let e ← analysisExp s e upper readonly
    checkType e.typeOf upper
    return .paren e
  | .lval v => do
    let v ← analysisLVal s v upper readonly
    checkType v.type upper
    return .lval v
  | .elem _ l r => do
    let r ← analysisExp s r (BinaryOp.rightBound .index) true
    let l ← analysisExp s l (BinaryOp.leftBound .index upper readonly) readonly
    let type ← binaryType .index l.typeOf r.typeOf
    checkType type upper
    return .elem type l r
  | .const c => do
    checkType c.type upper
    return .const c
  | .unary op e => do
    let e ← analysisExp s e op.bound true
    checkType e.typeOf upper
    return .unary op e
  | .binary op _ l r => do
    let r ← analysisExp s r op.rightBound true
    let l ← analysisExp s l (op.leftBound upper readonly) (readonly || op != .index)
    checkOperands op l.typeOf r.typeOf
    let type ← binaryType op l.typeOf r.typeOf
    checkType type upper
    return .binary op type l r
  | .call _ f args => do
    let f ← analysisLVal s f (.func .never .any) true
    let (params, ret) ← asFunc f.type
    if args.length ≠ params.length then
      throw (.argumentCount f.name params.length args.length)
    let args ← analysisArgs s args params
    checkType ret upper
    return .call ret f args

/-- `analysis` of `FuncArgs`. -/
def analysisArgs (s : State) (args : Exps raw) (params : List Ty) :
    Except SemanticError (Exps checked) :=
  match args, params with
  | .nil, _ => .ok .nil
  | .cons _ _, [] => .error (.internal .outOfRange)
  | .cons e es, t :: ts => do
    let e ← analysisExp s e t true
    let es ← analysisArgs s es ts
    return .cons e es

end

/-- `analysis` of an `LValExp`. -/
def analysisLValExp (s : State) (e : LValExp raw) (upper : Ty) (readonly : Bool) :
    Except SemanticError (LValExp checked) :=
  match e with
  | .lval v => do
    let v ← analysisLVal s v upper readonly
    return .lval v
  | .elem _ l r => do
    let r ← analysisExp s r (BinaryOp.rightBound .index) true
    let l ← analysisExp s l (BinaryOp.leftBound .index upper readonly) readonly
    let type ← binaryType .index l.typeOf r.typeOf
    checkType type upper
    return .elem type l r

/-! ## Declarations -/

/-- The type of the elements of a list after one more of them. -/
def joinElem (elemType type : Ty) : Except SemanticError Ty :=
  if elemType.constructable type then .ok type
  else if type.constructable elemType then .ok elemType
  else .error (.incompatibleElements elemType type)

mutual

/-- `analysis` of a `ConstInitVal`. -/
def analysisInitVal : InitVal raw → Except SemanticError (InitVal checked)
  | .exp c => .ok (.exp c)
  | .list _ vals => do
    let (vals, elemType) ← analysisInitVals vals .never
    return .list (.array elemType vals.length) vals

/-- The elements of a list, and the type that all of them have. -/
def analysisInitVals (vals : InitVals raw) (elemType : Ty) :
    Except SemanticError (InitVals checked × Ty) :=
  match vals with
  | .nil => .ok (.nil, elemType)
  | .cons v vs => do
    let v ← analysisInitVal v
    let elemType ← joinElem elemType v.typeOf
    let (vs, elemType) ← analysisInitVals vs elemType
    return (.cons v vs, elemType)

end

/-- Every definition of a declaration is registered before any is analysed. -/
def registerAll {α : Type} (nameOf : α → String) (dimsOf : α → List Nat) (elem : Ty) :
    State → List α → Except SemanticError (List (α × Nat × Ty) × State)
  | s, [] => .ok ([], s)
  | s, a :: as => do
    let type := arrayType elem (dimsOf a)
    let (id, s) ← s.registerVariable (nameOf a) type
    let (rest, s) ← registerAll nameOf dimsOf elem s as
    return ((a, id, type) :: rest, s)

/-- One definition of a `ConstDecl`. -/
def analysisConstDef (a : ConstDef raw × Nat × Ty) : Except SemanticError (ConstDef checked) := do
  let (def_, id, type) := a
  let val ← analysisInitVal def_.val
  if val.typeOf.constructable type then return ⟨def_.name, def_.dims, val, id, type⟩
  else throw (.cannotInitialize type val.typeOf)

/-- One definition of a `VarDecl`. -/
def analysisVarDef (a : VarDef raw × Nat × Ty) : Except SemanticError (VarDef checked) := do
  let (def_, id, type) := a
  match def_.val with
  | none =>
    if Ty.never.constructable type then return ⟨def_.name, def_.dims, none, id, type⟩
    else throw (.cannotInitialize type .never)
  | some val =>
    let val ← analysisInitVal val
    if val.typeOf.constructable type then return ⟨def_.name, def_.dims, some val, id, type⟩
    else throw (.cannotInitialize type val.typeOf)

/-- `analysis` of a `Decl`. -/
def analysisDecl (s : State) : Decl raw → Except SemanticError (Decl checked × State)
  | .constDecl t defs => do
    let (defs, s) ← registerAll ConstDef.name ConstDef.dims t.toTy s defs
    let defs ← defs.mapM analysisConstDef
    return (.constDecl t defs, defs.foldl (fun s def_ => s.setReadonly def_.id) s)
  | .varDecl t defs => do
    let (defs, s) ← registerAll VarDef.name VarDef.dims t.toTy s defs
    let defs ← defs.mapM analysisVarDef
    return (.varDecl t defs, s)

/-! ## Statements -/

mutual

/-- `analysis` of a `Stmt`: the statement, its `StmtType`, and the tables after it. -/
def analysisStmt (s : State) : Stmt raw → Except SemanticError (Stmt checked × StmtType × State)
  | .ifStmt loc _ cond stmt => do
    let cond ← analysisExp s cond .int1 true
    let (stmt, t, s) ← analysisStmt s stmt
    let info := StmtType.empty.merge t
    return (.ifStmt loc info cond stmt, info, s)
  | .ifElseStmt loc _ cond stmt elseStmt => do
    let cond ← analysisExp s cond .int1 true
    let (stmt, t, s) ← analysisStmt s stmt
    let (elseStmt, t', s) ← analysisStmt s elseStmt
    let info := t'.merge t
    return (.ifElseStmt loc info cond stmt elseStmt, info, s)
  | .whileStmt loc cond stmt => do
    let cond ← analysisExp s cond .int1 true
    let (stmt, t, s) ← analysisStmt s stmt
    return (.whileStmt loc cond stmt, StmtType.empty.merge t, s)
  | .returnStmt none => .ok (.returnStmt none, ⟨.unit, true⟩, s)
  | .returnStmt (some exp) => do
    let exp ← analysisExp s exp .any true
    return (.returnStmt (some exp), ⟨exp.typeOf, true⟩, s)
  | .breakStmt => .ok (.breakStmt, .empty, s)
  | .continueStmt => .ok (.continueStmt, .empty, s)
  | .assignStmt var exp => do
    let exp ← analysisExp s exp .any true
    let var ← analysisLValExp s var exp.typeOf false
    return (.assignStmt var exp, .empty, s)
  | .blockStmt items => do
    let (items, t, s) ← analysisItems s.pushScope items .empty
    return (.blockStmt items, t, s.popScope)
  | .expStmt exp => do
    let exp ← analysisExp s exp .any true
    return (.expStmt exp, .empty, s)

/-- `analysis` of a `BlockStmt`, whose items so far have the given `StmtType`. -/
def analysisItems (s : State) (items : Items raw) (t : StmtType) :
    Except SemanticError (Items checked × StmtType × State) :=
  match items with
  | .nil => .ok (.nil, t, s)
  | .decl decl rest => do
    let (decl, s) ← analysisDecl s decl
    let (rest, t, s) ← analysisItems s rest t
    return (.decl decl rest, t, s)
  | .stmt stmt rest => do
    let (stmt, t', s) ← analysisStmt s stmt
    let (rest, t, s) ← analysisItems s rest (t.append t')
    return (.stmt stmt rest, t, s)

end

/-! ## Functions and programs -/

/-- `analysis` of `FuncParams`. -/
def analysisParams (s : State) : List (FuncParam raw) →
    Except SemanticError (List (FuncParam checked) × State)
  | [] => .ok ([], s)
  | p :: ps => do
    let (id, s) ← s.registerVariable p.name p.calcType
    let (ps, s) ← analysisParams s ps
    return (⟨p.type, p.name, p.dims, id, p.calcType⟩ :: ps, s)

/-- `analysis` of a `FuncDef`. -/
def analysisFuncDef (s : State) (f : FuncDef raw) :
    Except SemanticError (FuncDef checked × State) := do
  let type := calcFuncType (f.params.map FuncParam.calcType) f.type
  let s ← s.registerFunction f.name type false
  let (params, s) ← analysisParams s.pushScope f.params
  let (block, t, s) ← analysisItems s f.block .empty
  if !t.alwaysReturn && !(FuncType.toTy f.type).le .unit then throw (.mayNotReturn f.name)
  if !t.retType.le (FuncType.toTy f.type) then
    throw (.returnType f.name t.retType (FuncType.toTy f.type))
  return (⟨f.type, f.name, params, block, type⟩, s.popScope)

def analysisItem (s : State) : Item raw → Except SemanticError (Item checked × State)
  | .decl decl => do
    let (decl, s) ← analysisDecl s decl
    return (.decl decl, s)
  | .func f => do
    let (f, s) ← analysisFuncDef s f
    return (.func f, s)

def analysisUnit (s : State) : CompUnit raw → Except SemanticError (CompUnit checked × State)
  | [] => .ok ([], s)
  | i :: is => do
    let (i, s) ← analysisItem s i
    let (is, s) ← analysisUnit s is
    return (i :: is, s)

/-- The tables after the builtin functions, in the global scope. -/
def State.init : State where
  vars := [[], []]
  types := []
  readonlyDefs := []
  funcs := builtinFuncs.reverse.map fun (name, ret, params) =>
    (name, calcFuncType (params.map BasicType.toTy) ret, true)

/-- `analysis` of a `CompUnit`: the constructor of `SemanticAST`. -/
def analysisCompUnit (u : CompUnit raw) : Except SemanticError (CompUnit checked) := do
  let (u, s) ← analysisUnit .init u
  match s.funcs.lookup "main" with
  | none => throw .noMain
  | some (type, _) =>
    let expected := calcFuncType [] (some .int)
    if type.eqv expected then return u else throw (.mainType expected type)

end Ast
end Cact
