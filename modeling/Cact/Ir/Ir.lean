import Cact.Ir.Type

/-!
# The intermediate representation (`backend/ir/ir.h`, `op.hpp`)

Programs, functions, blocks and instructions. The source links its objects by
pointers and compares them by address; here an allocation and a block carry the
number that stands for their address, and a reference to them is that number.
Two variables are equal when they are the same variable, whatever type is
written beside them, so a `LeftValue` is a type beside the `Var` that decides.

- `ConstexprValue`: a constant with its type; floating constants are bit patterns.
- `Inst`, `Exit`, `Block`, `Func`, `Program`: the syntax of the IR.
- `definedVar`, `usedVars`, `targets`, `sources`: `analysis/utils.hpp`.
-/

namespace Cact

namespace Ir

/-- The address of an allocation. -/
abbrev AllocId := Nat

/-- The address of a block within its function. -/
abbrev BlockId := Nat

/-- How the compiler can fail at run time. -/
inductive Fault
  /-- a `COMPILER_ERROR` with its text -/
  | compilerError (msg : String)
  /-- a null pointer or an empty optional is dereferenced -/
  | nullPointer
  /-- `.at` on a missing key -/
  | outOfRange
  /-- a write outside its buffer -/
  | outOfBounds
  deriving DecidableEq, Repr

/-! ## Values -/

/-- The alternatives of `ConstexprValue::val`. -/
inductive Payload
  | monostate
  | int (v : BitVec 32)
  | int64 (v : BitVec 64)
  | float (bits : BitVec 32)
  | bool (v : Bool)
  | double (bits : BitVec 64)
  | bytes (buf : List (BitVec 8))
  deriving DecidableEq, Repr

structure ConstexprValue where
  type : Ty
  val : Payload
  deriving DecidableEq, Repr

namespace ConstexprValue

/-- `ConstexprValue()`: the value of a call or a return without a result. -/
def void : ConstexprValue := ⟨.unit, .monostate⟩

def ofInt (v : BitVec 32) : ConstexprValue := ⟨.int32, .int v⟩
def ofBool (v : Bool) : ConstexprValue := ⟨.int1, .bool v⟩
def ofFloat (bits : BitVec 32) : ConstexprValue := ⟨.float32, .float bits⟩
def ofDouble (bits : BitVec 64) : ConstexprValue := ⟨.float64, .double bits⟩
def ofInt64 (v : BitVec 64) : ConstexprValue := ⟨.integer, .int64 v⟩

/-- `zeros_like`: what a variable without an initialiser starts with. -/
def zerosLike : Ty → Except Fault ConstexprValue
  | .prim .int1 => .ok (ofBool false)
  | .prim .int32 => .ok (ofInt 0)
  | .prim .float32 => .ok (ofFloat 0)
  | .prim .float64 => .ok (ofDouble 0)
  | .prim .int => .ok (ofInt64 0)
  | .prim .float => .ok (ofDouble 0)
  | t@(.array _ _) => .ok ⟨t.flatten, .bytes (List.replicate t.sizeOf 0)⟩
  | _ => .error (.compilerError "Unsupported type in zeros_like")

end ConstexprValue

/-- `NameDef`: what a name stands for. Functions are known by their names. -/
inductive NameDef
  | alloc (id : AllocId)
  | func (name : String)
  | builtin (name : String)
  deriving DecidableEq, Repr

structure NamedValue where
  type : Ty
  defn : NameDef
  deriving DecidableEq, Repr

/-- What a `LeftValue` refers to: a name, a temporary of the function it stands
in, or a version of an allocation. -/
inductive Var
  | named (defn : NameDef)
  | temp (id : Nat)
  | ssa (defn : AllocId) (version : Nat)
  deriving DecidableEq, Repr

structure LeftValue where
  type : Ty
  var : Var
  deriving DecidableEq, Repr

namespace LeftValue

def temp (type : Ty) (id : Nat) : LeftValue := ⟨type, .temp id⟩
def ssa (type : Ty) (defn : AllocId) (version : Nat) : LeftValue := ⟨type, .ssa defn version⟩

/-- `is_named`. -/
def isNamed (v : LeftValue) : Bool :=
  match v.var with
  | .named _ => true
  | _ => false

/-- `alloc_of`. -/
def allocOf (v : LeftValue) : Option AllocId :=
  match v.var with
  | .named (.alloc a) => some a
  | .ssa a _ => some a
  | _ => none

end LeftValue

def NamedValue.left (v : NamedValue) : LeftValue := ⟨v.type, .named v.defn⟩

inductive Value
  | const (c : ConstexprValue)
  | left (v : LeftValue)
  deriving DecidableEq, Repr

namespace Value

def void : Value := .const .void

/-- `type_of`. -/
def typeOf : Value → Ty
  | const c => c.type
  | left v => v.type

/-- `as_var`. -/
def asVar : Value → Option LeftValue
  | const _ => none
  | left v => some v

/-- The variable a value reads. -/
def var? : Value → Option Var
  | const _ => none
  | left v => some v.var

end Value

/-! ## Instructions -/

inductive UnaryInstOp
  | mov | not | neg | load | borrow | borrowMut | convert
  deriving DecidableEq, Repr

inductive InstOp
  | mul | div | mod
  | add | sub
  | lt | gt | leq | geq
  | eq | neq
  | and | or | shl | shrl | shra
  | store | loadElem | borrowElem | borrowElemMut
  deriving DecidableEq, Repr

/-- `commutative`. -/
def InstOp.commutative : InstOp → Bool
  | mul | add | and | or | eq | neq => true
  | _ => false

structure UnaryInst where
  op : UnaryInstOp
  result : Option LeftValue
  operand : Value
  deriving DecidableEq, Repr

structure BinaryInst where
  op : InstOp
  result : Option LeftValue
  lhs : Value
  rhs : Value
  deriving DecidableEq, Repr

structure CallInst where
  result : Option LeftValue
  func : NamedValue
  args : List Value
  deriving DecidableEq, Repr

structure PhiInst where
  result : Option LeftValue
  args : List (BlockId × Value)
  deriving DecidableEq, Repr

namespace PhiInst

/-- `contains`. -/
def contains (p : PhiInst) (b : BlockId) : Bool := p.args.any fun a => a.1 == b

/-- `value`: the argument for the edge from `b`. -/
def value (p : PhiInst) (b : BlockId) : Except Fault Value :=
  match p.args.find? fun a => a.1 == b with
  | some a => .ok a.2
  | none => .error (.compilerError "Block not found in PhiInst")

/-- The blocks a phi has arguments for. -/
def sources (p : PhiInst) : List BlockId := p.args.map Prod.fst

end PhiInst

inductive Inst
  | phi (p : PhiInst)
  | unary (u : UnaryInst)
  | binary (b : BinaryInst)
  | call (c : CallInst)
  deriving DecidableEq, Repr

namespace Inst

def isPhi : Inst → Bool
  | phi _ => true
  | _ => false

/-- `defined_var`. -/
def definedVar : Inst → Option LeftValue
  | phi p => p.result
  | unary u => u.result
  | binary b => b.result
  | call c => c.result

/-- `used`. -/
def used : Inst → List Value
  | phi p => p.args.map Prod.snd
  | unary u => [u.operand]
  | binary b => [b.lhs, b.rhs]
  | call c => c.args

/-- `used_vars`. -/
def usedVars (i : Inst) : List LeftValue := i.used.filterMap Value.asVar

/-- `sources`. -/
def sources : Inst → List BlockId
  | phi p => p.sources
  | _ => []

/-- `has_side_effect`. -/
def hasSideEffect : Inst → Bool
  | call _ => true
  | unary _ => false
  | binary b => b.op == .store
  | phi _ => false

end Inst

inductive Exit
  | branch (cond : Value) (trueTarget falseTarget : BlockId)
  | jump (target : BlockId)
  | ret (exp : Value)
  deriving DecidableEq, Repr

namespace Exit

/-- `targets`. -/
def targets : Exit → List BlockId
  | branch _ t f => [t, f]
  | jump t => [t]
  | ret _ => []

/-- `used`. -/
def used : Exit → Option Value
  | branch c _ _ => some c
  | jump _ => none
  | ret e => some e

/-- The exit with each target replaced. -/
def mapTargets (f : BlockId → BlockId) : Exit → Exit
  | branch c t e => branch c (f t) (f e)
  | jump t => jump (f t)
  | ret e => ret e

@[simp] theorem targets_mapTargets (f : BlockId → BlockId) (e : Exit) :
    (e.mapTargets f).targets = e.targets.map f := by cases e <;> rfl

end Exit

/-! ## Blocks, functions and programs -/

structure Block where
  id : BlockId
  label : String
  insts : List Inst
  exit : Option Exit
  deriving DecidableEq, Repr

namespace Block

/-- The blocks that control can pass to from here. -/
def targets (b : Block) : List BlockId := (b.exit.map Exit.targets).getD []

def append (b : Block) (i : Inst) : Block := { b with insts := b.insts ++ [i] }
def prepend (b : Block) (i : Inst) : Block := { b with insts := i :: b.insts }
def setExit (b : Block) (e : Exit) : Block := { b with exit := some e }

/-- The phis at the head of the block. -/
def phis (b : Block) : List PhiInst :=
  (b.insts.takeWhile Inst.isPhi).filterMap fun
    | .phi p => some p
    | _ => none

end Block

/-- `Alloc`. A variable with a value known at compile time has that value and is
immutable: the constructor of the source checks this, here it is a field. -/
structure Alloc where
  id : AllocId
  name : String
  type : Ty
  comptime : Bool
  immutable : Bool
  reference : Bool
  init : Option ConstexprValue
  comptime_ok : comptime = true → init.isSome = true ∧ immutable = true
  deriving DecidableEq, Repr

namespace Alloc

/-- `constant`. -/
def constant (id : AllocId) (name : String) (type : Ty) (init : ConstexprValue)
    (reference : Bool) : Alloc :=
  ⟨id, name, type, true, true, reference, some init, fun _ => ⟨rfl, rfl⟩⟩

/-- `variable`. -/
def «variable» (id : AllocId) (name : String) (type : Ty) (init : Option ConstexprValue)
    (immutable : Bool) : Alloc :=
  ⟨id, name, type, false, immutable, false, init, by simp⟩

/-- `value`: how instructions name the allocation. -/
def value (a : Alloc) : NamedValue :=
  if a.reference then ⟨a.type.borrow a.immutable, .alloc a.id⟩ else ⟨a.type, .alloc a.id⟩

@[simp] theorem value_defn (a : Alloc) : a.value.defn = .alloc a.id := by
  unfold value
  split <;> rfl

end Alloc

structure TempInfo where
  type : Ty
  block : BlockId
  deriving DecidableEq, Repr

structure Func where
  name : String
  retType : Ty
  params : List Alloc
  locals : List Alloc
  blocks : List Block
  temps : List TempInfo
  tempLabelCount : Nat
  /-- the address of the next block this function allocates -/
  nextBlock : BlockId
  deriving DecidableEq, Repr

namespace Func

/-- `value`. -/
def value (f : Func) : NamedValue :=
  ⟨.func (.product (.ofList (f.params.map Alloc.type))) f.retType, .func f.name⟩

/-- `entrance`. -/
def entrance (f : Func) : Option Block := f.blocks.head?

def block? (f : Func) (b : BlockId) : Option Block := f.blocks.find? fun blk => blk.id == b

/-- The blocks after one of them is replaced. -/
def updateBlock (f : Func) (b : BlockId) (g : Block → Block) : Func :=
  { f with blocks := f.blocks.map fun blk => if blk.id = b then g blk else blk }

/-- `newTemp`. -/
def newTemp (f : Func) (type : Ty) (container : BlockId) : LeftValue × Func :=
  (.temp type f.temps.length, { f with temps := f.temps ++ [⟨type, container⟩] })

/-- `newBlock` with a label. -/
def newBlock (f : Func) (label : String) : BlockId × Func :=
  (f.nextBlock,
    { f with blocks := f.blocks ++ [⟨f.nextBlock, label, [], none⟩], nextBlock := f.nextBlock + 1 })

/-- `newBlock()`: the label is numbered. -/
def newTempBlock (f : Func) : BlockId × Func :=
  { f with tempLabelCount := f.tempLabelCount + 1 }.newBlock ("L" ++ toString f.tempLabelCount)

/-- `addBlock`: labels are unique within a function. -/
def addBlock (f : Func) (b : Block) : Except Fault Func :=
  if f.blocks.any fun blk => blk.label == b.label then
    .error (.compilerError s!"block '{b.label}' already exists")
  else .ok { f with blocks := f.blocks ++ [b] }

/-- `addLocal`. -/
def addLocal (f : Func) (a : Alloc) : Func := { f with locals := f.locals ++ [a] }

end Func

structure BuiltinFunc where
  name : String
  type : Ty
  deriving DecidableEq, Repr

structure Program where
  isSsa : Bool
  globals : List Alloc
  funcs : List Func
  builtins : List BuiltinFunc
  /-- the address of the next allocation -/
  nextAlloc : AllocId
  deriving DecidableEq, Repr

namespace Program

/-- `findFunc`. -/
def findFunc (p : Program) (name : String) : Option Func :=
  p.funcs.find? fun f => f.name == name

/-- `addGlobal`. -/
def addGlobal (p : Program) (a : Alloc) : Program := { p with globals := p.globals ++ [a] }

end Program
end Ir
end Cact
