import Cact.Ir.Ir

/-!
# The syntax tree (`frontend/ast/ast.hpp`, `op.hpp`)

Semantic analysis keeps what it finds out about a node in tables whose keys are
the addresses of nodes. Here the same information is written into the tree: a
tree is decorated with what is known of its definitions, expressions and
statements, and analysis turns a `raw` tree into a `checked` one.

- `Decor`: the kinds of decoration; `raw` and `checked`.
- `Exp`, `InitVal`, `Stmt`, `Items`, `FuncDef`, `CompUnit`: the tree itself. It has
  the shapes that the grammar can build: a declared type is never `void`, and
  only the first dimension of a parameter may be left open.
-/

namespace Cact

namespace Ast

open Ir (Ty)

/-! ## Types, operators and constants -/

/-- `ast::Type`, without `void`. -/
inductive BasicType
  | int | float | bool | double
  deriving DecidableEq, Repr

/-- `calcType`. -/
def BasicType.toTy : BasicType → Ty
  | int => .int32
  | float => .float32
  | bool => .int1
  | double => .float64

/-- `ast::Type`: `none` is `void`. -/
abbrev FuncType := Option BasicType

def FuncType.toTy : FuncType → Ty
  | some t => t.toTy
  | none => .unit

inductive UnaryOp
  | plus | minus | not
  deriving DecidableEq, Repr

inductive BinaryOp
  | mul | div | mod
  | add | sub
  | lt | gt | leq | geq
  | eq | neq
  | and | or
  | index
  deriving DecidableEq, Repr

/-- Floating constants are bit patterns. -/
inductive ConstExp
  | int (v : BitVec 32)
  | float (bits : BitVec 32)
  | double (bits : BitVec 64)
  | bool (v : Bool)
  deriving DecidableEq, Repr

/-- `construct<decltype(val)>()`. -/
def ConstExp.type : ConstExp → Ty
  | int _ => .int32
  | float _ => .float32
  | double _ => .float64
  | bool _ => .int1

/-- `Location`. -/
structure Location where
  line : Nat
  col : Nat
  deriving DecidableEq, Repr

/-- `Location::toString`. -/
def Location.toString (loc : Location) : String :=
  s!"{loc.line}_{loc.col}"

/-! ## Decorations -/

/-- What a tree says about its nodes beside the syntax. -/
structure Decor where
  /-- which definition an identifier refers to -/
  ref : Type
  /-- the identity of a definition -/
  id : Type
  /-- the type of an expression or a definition -/
  type : Type
  /-- what a statement does to control -/
  stmt : Type

/-- The tree of the parser says nothing. -/
abbrev raw : Decor := ⟨Unit, Unit, Unit, Unit⟩

/-- `SymDefNode`: variables and parameters are numbered, functions have names. -/
inductive SymDef
  | var (id : Nat)
  | func (name : String)
  deriving DecidableEq, Repr

/-- `StmtType`. -/
structure StmtType where
  retType : Ty
  alwaysReturn : Bool
  deriving DecidableEq, Repr

namespace StmtType

/-- `StmtType{}`. -/
def empty : StmtType := ⟨.never, false⟩

/-- `append`: one statement after another. -/
def append (t next : StmtType) : StmtType :=
  if t.alwaysReturn then t else ⟨t.retType.union next.retType, next.alwaysReturn⟩

/-- `merge`: one statement or another. -/
def merge (t next : StmtType) : StmtType :=
  ⟨t.retType.union next.retType, t.alwaysReturn && next.alwaysReturn⟩

end StmtType

/-- The tree of `SemanticAST`. -/
abbrev checked : Decor := ⟨SymDef, Nat, Ty, StmtType⟩

/-! ## Expressions -/

structure LVal (d : Decor) where
  name : String
  ref : d.ref
  type : d.type

mutual

/-- `PrimaryExp` with a parenthesis, an identifier, an element of an array or a
constant, `UnaryExp`, `BinaryExp` and `CallExp`. A binary expression with the
operator `index` is the array of another element. -/
inductive Exp (d : Decor)
  | paren (exp : Exp d)
  | lval (val : LVal d)
  | elem (type : d.type) (left right : Exp d)
  | const (val : ConstExp)
  | unary (op : UnaryOp) (exp : Exp d)
  | binary (op : BinaryOp) (type : d.type) (left right : Exp d)
  | call (type : d.type) (func : LVal d) (args : Exps d)

/-- `FuncArgs`. -/
inductive Exps (d : Decor)
  | nil
  | cons (head : Exp d) (tail : Exps d)

end

/-- `LValExp`, on the left of an assignment. -/
inductive LValExp (d : Decor)
  | lval (val : LVal d)
  | elem (type : d.type) (left right : Exp d)

def Exps.length {d : Decor} : Exps d → Nat
  | .nil => 0
  | .cons _ es => es.length + 1

/-- `type_of` an expression. -/
def Exp.typeOf : Exp checked → Ty
  | .paren e => e.typeOf
  | .lval v => v.type
  | .elem t _ _ => t
  | .const c => c.type
  | .unary _ e => e.typeOf
  | .binary _ t _ _ => t
  | .call t _ _ => t

/-! ## Declarations -/

mutual

/-- `ConstInitVal`. -/
inductive InitVal (d : Decor)
  | exp (val : ConstExp)
  | list (type : d.type) (vals : InitVals d)

inductive InitVals (d : Decor)
  | nil
  | cons (head : InitVal d) (tail : InitVals d)

end

def InitVals.length {d : Decor} : InitVals d → Nat
  | .nil => 0
  | .cons _ vs => vs.length + 1

def InitVal.typeOf : InitVal checked → Ty
  | .exp c => c.type
  | .list t _ => t

structure ConstDef (d : Decor) where
  name : String
  dims : List Nat
  val : InitVal d
  id : d.id
  type : d.type

structure VarDef (d : Decor) where
  name : String
  dims : List Nat
  val : Option (InitVal d)
  id : d.id
  type : d.type

inductive Decl (d : Decor)
  | constDecl (type : BasicType) (defs : List (ConstDef d))
  | varDecl (type : BasicType) (defs : List (VarDef d))

/-- The dimensions of a parameter. -/
inductive ParamDims
  | scalar
  | array (first : Option Nat) (rest : List Nat)
  deriving DecidableEq, Repr

structure FuncParam (d : Decor) where
  type : BasicType
  name : String
  dims : ParamDims
  id : d.id
  /-- `types[param]` -/
  paramType : d.type

/-! ## Statements -/

mutual

/-- `Stmt`. An `if` without `else` and one with it are two constructors. -/
inductive Stmt (d : Decor)
  | ifStmt (loc : Location) (info : d.stmt) (cond : Exp d) (stmt : Stmt d)
  | ifElseStmt (loc : Location) (info : d.stmt) (cond : Exp d) (stmt elseStmt : Stmt d)
  | whileStmt (loc : Location) (cond : Exp d) (stmt : Stmt d)
  | returnStmt (exp : Option (Exp d))
  | breakStmt
  | continueStmt
  | assignStmt (var : LValExp d) (exp : Exp d)
  | blockStmt (items : Items d)
  | expStmt (exp : Exp d)

/-- The items of a `BlockStmt`. -/
inductive Items (d : Decor)
  | nil
  | decl (decl : Decl d) (rest : Items d)
  | stmt (stmt : Stmt d) (rest : Items d)

end

structure FuncDef (d : Decor) where
  type : FuncType
  name : String
  params : List (FuncParam d)
  block : Items d
  /-- `types[func_def]` -/
  funcType : d.type

inductive Item (d : Decor)
  | decl (decl : Decl d)
  | func (func : FuncDef d)

abbrev CompUnit (d : Decor) := List (Item d)

/-- `BUILTIN_FUNCS`: the result and the parameters of each. -/
def builtinFuncs : List (String × FuncType × List BasicType) :=
  [("get_int", some .int, []), ("get_float", some .float, []), ("get_double", some .double, []),
    ("print_int", none, [.int]), ("print_float", none, [.float]),
    ("print_double", none, [.double]), ("print_bool", none, [.bool])]

end Ast
end Cact
