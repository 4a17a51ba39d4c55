import Cact.Ir.Arith
import Cact.Lib.DetMachine
import Cact.Lib.Exact

/-!
# The IR virtual machine (`ir/vm/vm.h`, `vm/exec.cpp`, `vm/assign.cpp`)

The machine interprets the functions of a program block by block. A variable is a slot
with a type and a word, and a `reference` allocation has in addition a buffer in memory
that its word points to. The source keeps slots in memory as well, but nothing except
`BORROW` can point to one, which no part of the compiler emits and which is left out here.

- `assign`, `evalBinary`, `evalUnary`: what operators do with words of given types.
- `viewOf`, `setVar`: the variables of a frame, and behind them the globals.
- `enterFunc`, `enterBlock`: the layout of a frame; phis are read before any is written.
- `exec`: one instruction or one exit.
- `machine`: the run of a program as a deterministic machine.
-/

namespace Cact

namespace Ir

namespace Vm

abbrev Word := BitVec 64

/-! ## The environment -/

/-- Floating-point arithmetic on bit patterns, single and double. `convert` is the cast
from the first type to the second where one of them is a floating type. -/
structure Floats where
  arithS : InstOp → BitVec 32 → BitVec 32 → BitVec 32
  arithD : InstOp → Word → Word → Word
  compareS : InstOp → BitVec 32 → BitVec 32 → Bool
  compareD : InstOp → Word → Word → Bool
  convert : Primitive → Primitive → Word → Word

/-- What the machine gets from outside. `view_of` looks an SSA value up under its
allocation; with `versions` every version is storage of its own instead, as the
temporaries of `SSAValue2TempValue` are. -/
structure Env where
  Input : Type
  readInt : Input → BitVec 32 × Input
  readFloat : Input → Except Fault (BitVec 32 × Input)
  readDouble : Input → Word × Input
  float : Floats
  versions : Bool

/-- In whose slot a variable is kept. -/
def Env.slotOf (env : Env) : Var → Var
  | .ssa a n => if env.versions then .ssa a n else .named (.alloc a)
  | v => v

/-- A printed value. -/
inductive Event
  | int (v : BitVec 32)
  | float (bits : BitVec 32)
  | double (bits : Word)
  | bool (v : Bool)
  deriving DecidableEq, Repr

/-- How a run ends: with an exit code, or with an error. -/
inductive Verdict
  | exit (code : BitVec 8)
  | error
  deriving DecidableEq, Repr

/-! ## Memory -/

abbrev Memory := Word → BitVec 8

/-- The number in `n` bytes from `addr` on, the lowest first. -/
def peek (mem : Memory) : Word → Nat → Nat
  | _, 0 => 0
  | addr, n + 1 => (mem addr).toNat + 256 * peek mem (addr + 1) n

def readWord (mem : Memory) (addr : Word) (n : Nat) : Word := BitVec.ofNat 64 (peek mem addr n)

/-- The memory after the lowest `n` bytes of a word are written from `addr` on. -/
def writeWord (mem : Memory) (addr : Word) (n : Nat) (w : Word) : Memory := fun a =>
  if (a - addr).toNat < n then BitVec.ofNat 8 (w.toNat / 256 ^ (a - addr).toNat) else mem a

/-- `memset`. -/
def fill (mem : Memory) (addr : Word) (n : Nat) (v : BitVec 8) : Memory := fun a =>
  if (a - addr).toNat < n then v else mem a

/-- `memcpy`. -/
def copy (mem : Memory) (dst src : Word) (n : Nat) : Memory := fun a =>
  if (a - dst).toNat < n then mem (src + (a - dst)) else mem a

/-- The number in the bytes of a list, the lowest first. -/
def bytesWord : List (BitVec 8) → Nat
  | [] => 0
  | b :: bs => b.toNat + 256 * bytesWord bs

/-- `padding_to`. -/
def paddingTo (n k : Nat) : Nat := if n % k = 0 then n else n + (k - n % k)

/-! ## Operators on words -/

/-- A word of a type as the type's bytes keep it. -/
def fit (p : Primitive) (w : Word) : Word :=
  match p with
  | .int1 => (w.setWidth 8).setWidth 64
  | .int32 | .float32 => (w.setWidth 32).setWidth 64
  | _ => w

/-- The number an integer or a boolean stands for. -/
def toInt (p : Primitive) (w : Word) : Int :=
  match p with
  | .int1 => if w.setWidth 8 = 0#8 then 0 else 1
  | .int32 => (w.setWidth 32).toInt
  | _ => w.toInt

/-- `std::is_floating_point_v` of the C++ type. -/
def isFloating : Primitive → Bool
  | .float32 | .float64 | .float => true
  | _ => false

/-- The cast of C++ from one primitive type to another. -/
def cast (float : Floats) (src dst : Primitive) (w : Word) : Word :=
  if src = dst then fit dst w
  else if isFloating src || isFloating dst then fit dst (float.convert src dst w)
  else if dst = .int1 then boolWord (toInt src w != 0)
  else fit dst (BitVec.ofInt 64 (toInt src w))

/-- `std::common_type_t`. -/
def commonType (p q : Primitive) : Primitive :=
  if rank p < rank q then q else p
where
  rank : Primitive → Nat
    | .int1 => 0
    | .int32 => 1
    | .int => 2
    | .float32 => 3
    | .float64 | .float => 4

/-- The logical operators, which see their operands as booleans. -/
def logicalOp (float : Floats) (op : InstOp) (p : Primitive) (a b : Word) : Option Word :=
  (logical op (cast float p .int1 a != 0) (cast float p .int1 b != 0)).map fun r =>
    cast float .int1 p (boolWord r)

def isShift : InstOp → Bool
  | .shl | .shrl | .shra => true
  | _ => false

/-- `Op<T>` for the arithmetic and logical operators. The operators on booleans compute
with integers; shifts throw where the type is not an integer type. -/
def arithmetic (float : Floats) (op : InstOp) (p : Primitive) (a b : Word) : Option Word :=
  (logicalOp float op p a b).or <|
    match p with
    | .int32 => (arith op (a.setWidth 32) (b.setWidth 32)).map fun r => r.setWidth 64
    | .int => arith op a b
    | .int1 =>
      if isShift op then none
      else (arith op (a.setWidth 32) (b.setWidth 32)).map fun r => boolWord (r != 0)
    | .float32 =>
      if isShift op then none
      else some ((float.arithS op (a.setWidth 32) (b.setWidth 32)).setWidth 64)
    | .float64 | .float => if isShift op then none else some (float.arithD op a b)

/-- `Op<T>` for the comparisons. -/
def compare (float : Floats) (op : InstOp) (p : Primitive) (a b : Word) : Option Bool :=
  match p with
  | .int32 => comparison op (a.setWidth 32) (b.setWidth 32)
  | .int => comparison op a b
  | .int1 => comparison op (boolWord (a != 0)) (boolWord (b != 0))
  | .float32 => some (float.compareS op (a.setWidth 32) (b.setWidth 32))
  | .float64 | .float => some (float.compareD op a b)

def isComparison : InstOp → Bool
  | .lt | .gt | .leq | .geq | .eq | .neq => true
  | _ => false

/-- `eval_binary` and `eval_comparison` on primitive types. -/
def evalPrimitive (float : Floats) (op : InstOp) (d l r : Primitive) (a b : Word) :
    Except Fault Word :=
  let result :=
    if isComparison op then
      let t := commonType l r
      (compare float op t (cast float l t a) (cast float r t b)).map fun c =>
        cast float .int1 d (boolWord c)
    else arithmetic float op d (cast float l d a) (cast float r d b)
  match result with
  | some w => .ok (fit d w)
  | none => .error (.compilerError "shift operations are only defined for integral types")

/-- `std::negate<T>`. -/
def negate (p : Primitive) (w : Word) : Word :=
  match p with
  | .int32 => (-(w.setWidth 32)).setWidth 64
  | .int => -w
  | .int1 => w
  | .float32 => ((w.setWidth 32) ^^^ 0x80000000#32).setWidth 64
  | .float64 | .float => w ^^^ 0x8000000000000000#64

/-! ## Views -/

/-- What a view points to: a word, or the buffer of an array constant. -/
inductive Data
  | word (w : Word)
  | bytes (buf : List (BitVec 8))
  deriving DecidableEq, Repr

/-- `View`. -/
structure View where
  type : Ty
  data : Data
  deriving DecidableEq, Repr

/-- The type of a view without the `readonly` of a reference, which no operation of the
machine looks at. -/
def viewType : Ty → Ty
  | .reference elem _ isSlice => .reference elem false isSlice
  | t => t

@[simp] theorem viewType_viewType (t : Ty) : viewType (viewType t) = viewType t := by
  cases t <;> rfl

/-- The word at the start of a view. -/
def View.word (v : View) : Word :=
  match v.data with
  | .word w => w
  | .bytes buf => BitVec.ofNat 64 (bytesWord (buf.take 8))

/-- `view_of` of a constant. -/
def viewConst (c : ConstexprValue) : View where
  type := viewType c.type
  data :=
    match c.val with
    | .monostate => .word 0
    | .int v => .word (v.setWidth 64)
    | .int64 v => .word v
    | .float v => .word (v.setWidth 64)
    | .bool v => .word (boolWord v)
    | .double v => .word v
    | .bytes buf => .bytes buf

/-- A primitive type, where a reference counts as an integer. -/
def asPrimitive : Ty → Except Fault Primitive
  | .prim p => .ok p
  | .reference _ _ _ => .ok .int
  | _ => .error (.compilerError "Type is not Primitive")

/-- `eval_binary` and `eval_comparison`. -/
def evalBinary (float : Floats) (op : InstOp) (dest : Ty) (lhs rhs : View) :
    Except Fault Word := do
  let d ← asPrimitive dest
  let l ← asPrimitive lhs.type
  let r ← asPrimitive rhs.type
  evalPrimitive float op d l r lhs.word rhs.word

/-- `eval_unary`, for `NOT` and `NEG`. -/
def evalUnary (float : Floats) (op : UnaryInstOp) (dest : Ty) (operand : View) :
    Except Fault Word := do
  let o ← asPrimitive operand.type
  let d ← asPrimitive dest
  let w := cast float o d operand.word
  if op = .not then
    return fit d (cast float .int1 d (boolWord (cast float d .int1 w == 0)))
  else return fit d (negate d w)

/-! ## Assignment -/

/-- `assign` between primitive types. -/
def assignPrimitive (float : Floats) (dst src : Primitive) (w : Word) : Except Fault Word :=
  if dst = src then .ok (fit dst w)
  else
    match dst, src with
    | .int, .int32 | .int, .int1 | .int32, .int | .int1, .int => .ok (cast float src dst w)
    | .float, .float32 | .float32, .float => .ok (cast float src dst w)
    | .float, .float64 | .float64, .float => .ok w
    | _, _ => .error (.compilerError "Cannot assign")

/-- `assign` of a word. Of the products only the empty one is the type of a view. -/
def assign (float : Floats) (dst src : Ty) (w : Word) : Except Fault Word :=
  match dst, src with
  | .prim p, .prim q => assignPrimitive float p q w
  | .prim .int, .reference _ _ _ => .ok w
  | .reference _ _ _, .prim .int => .ok w
  | .reference elem _ _, .reference elem' _ _ =>
    if Ty.le elem' elem then .ok w else .error (.compilerError "Cannot assign pointer")
  | .product .nil, .product .nil => .ok w
  | _, _ => .error (.compilerError "Cannot assign")

/-- `assign` between arrays, element by element over all dimensions. -/
def assignArray (float : Floats) (mem : Memory) (dst src : Ty) (addr : Word)
    (buf : List (BitVec 8)) : Except Fault Memory :=
  if dst.flatLength < src.flatLength then .error (.compilerError "Cannot assign array")
  else
    (List.range src.flatLength).foldlM (fun mem i => do
      let w := BitVec.ofNat 64 (bytesWord
        ((buf.drop (i * src.flatElem.sizeOf)).take src.flatElem.sizeOf))
      let w ← assign float dst.flatElem src.flatElem w
      return writeWord mem (addr + BitVec.ofNat 64 (i * dst.flatElem.sizeOf))
        dst.flatElem.sizeOf w) mem

/-- `assign` to a place in memory. -/
def assignMemory (float : Floats) (mem : Memory) (dst : Ty) (addr : Word) (src : View) :
    Except Fault Memory :=
  match dst, src.type, src.data with
  | .array _ _, .array _ _, .bytes buf => assignArray float mem dst src.type addr buf
  | _, _, .word w => do
    let w ← assign float dst src.type w
    return writeWord mem addr dst.sizeOf w
  | _, _, _ => .error (.compilerError "Cannot assign")

/-- `assign` from a place in memory: an array there decays to its address. -/
def assignLoaded (float : Floats) (mem : Memory) (dst elem : Ty) (addr : Word) :
    Except Fault Word :=
  match dst, elem with
  | .reference e _ _, .array e' _ =>
    if Ty.le e' e then .ok addr else .error (.compilerError "Cannot assign array")
  | _, _ => assign float dst elem (readWord mem addr elem.sizeOf)

/-! ## States -/

structure Slot where
  type : Ty
  word : Word
  deriving DecidableEq, Repr

abbrev Slots := Var → Option Slot

/-- The slots an instruction can see: those of its frame, and the globals. -/
structure Scope where
  vars : Slots
  globals : Slots

/-- A call that has not returned: the next instruction is number `idx` of `block`. -/
structure Frame where
  func : String
  block : BlockId
  idx : Nat
  vars : Slots
  /-- where the buffers of the frame start -/
  base : Nat

structure State (env : Env) where
  /-- the running call first -/
  frames : List Frame
  globals : Slots
  mem : Memory
  top : Nat
  input : env.Input
  output : List Event
  result : Option Verdict

/-- The slots after the word of one of them is replaced. -/
def Slots.set (slots : Slots) (v : Var) (w : Word) : Slots := fun u =>
  if u = v then (slots u).map fun s => { s with word := w } else slots u

section Variables

variable (env : Env) (sc : Scope)

/-- The slot of a variable, in the frame or among the globals. A named variable is seen
with the reference type written at its use. -/
def slotAt (v : LeftValue) : Except Fault Slot :=
  match (sc.vars (env.slotOf v.var)).or (sc.globals (env.slotOf v.var)) with
  | some s =>
    if v.isNamed && v.type.isReference then .ok { s with type := viewType v.type } else .ok s
  | none => .error (.compilerError "Undefined variable")

/-- `view_of` of an operand. -/
def viewOf : Value → Except Fault View
  | .const c => .ok (viewConst c)
  | .left v => (slotAt env sc v).map fun s => ⟨s.type, .word s.word⟩

/-- The type of the view of a result, which is void where there is none. -/
def resultType : Option LeftValue → Except Fault Ty
  | some v => (slotAt env sc v).map Slot.type
  | none => .ok .unit

/-- A word is written to the slot of a result. -/
def setVar (result : Option LeftValue) (w : Word) : Scope :=
  match result with
  | none => sc
  | some v =>
    let key := env.slotOf v.var
    if (sc.vars key).isSome then { sc with vars := sc.vars.set key w }
    else { sc with globals := sc.globals.set key w }

end Variables

/-! ## Frames -/

/-- The buffers and slots of a frame while it is laid out. -/
structure Layout where
  mem : Memory
  cur : Nat
  vars : Slots

/-- `stackSize`. -/
def stackSize (a : Alloc) : Nat :=
  paddingTo a.type.sizeOf 8 + if a.reference then 8 else 0

/-- A slot is added, and its storage is passed. -/
def Layout.push (l : Layout) (v : Var) (s : Slot) (size : Nat) : Layout where
  mem := l.mem
  cur := l.cur + paddingTo size 16
  vars := Function.update l.vars v (some s)

/-- The value written to an allocation, in its buffer or in its slot. -/
def Layout.write (float : Floats) (l : Layout) (a : Alloc) (cur : Nat) (v : View) :
    Except Fault Layout :=
  if a.reference then do
    return { l with mem := ← assignMemory float l.mem a.type (BitVec.ofNat 64 cur) v }
  else do
    let w ← assign float (viewType a.type) v.type v.word
    return { l with vars := l.vars.set (.named (.alloc a.id)) w }

/-- `alloc`. -/
def alloc (float : Floats) (l : Layout) (a : Alloc) : Except Fault Layout := do
  let word := if a.reference then BitVec.ofNat 64 l.cur else 0
  let l' := l.push (.named (.alloc a.id)) ⟨viewType a.value.type, word⟩ (stackSize a)
  match a.init with
  | none => return l'
  | some c => l'.write float a l.cur (viewConst c)

/-- A parameter with its argument. -/
def allocParam (float : Floats) (l : Layout) (p : Alloc × View) : Except Fault Layout := do
  let l' ← alloc float l p.1
  l'.write float p.1 l.cur p.2

/-- The temporaries, and the versions of the allocations where those have slots. -/
def addTemps (temps : List TempInfo) (l : Layout) : Layout where
  mem := l.mem
  cur := l.cur + (temps.map fun t => paddingTo t.type.sizeOf 16).sum
  vars
    | .temp i => (temps[i]?).map fun t => ⟨viewType t.type, 0⟩
    | .ssa a _ => l.vars (.named (.alloc a))
    | v => l.vars v

/-- The room the frame of a function takes. -/
def frameSize (f : Func) : Nat :=
  ((f.params ++ f.locals).map fun a => paddingTo (stackSize a) 16).sum +
    (f.temps.map fun t => paddingTo t.type.sizeOf 16).sum

/-- The frame of a call: parameters, locals, temporaries. -/
def layoutFunc (float : Floats) (mem : Memory) (top : Nat) (f : Func) (args : List View) :
    Except Fault Layout := do
  if f.params.length ≠ args.length then
    throw (.compilerError "Argument count mismatch")
  let l : Layout := ⟨fill mem (BitVec.ofNat 64 top) (frameSize f) 0, top, fun _ => none⟩
  let l ← (f.params.zip args).foldlM (allocParam float) l
  let l ← f.locals.foldlM (alloc float) l
  return addTemps f.temps l

section Step

variable {env : Env}

/-! ## Steps -/

/-- The scope of a frame. -/
def State.scope (s : State env) (fr : Frame) : Scope := ⟨fr.vars, s.globals⟩

/-- The running frame goes on behind its instruction, with the slots of a scope. -/
def State.advance (s : State env) (fr : Frame) (rest : List Frame) (sc : Scope) : State env :=
  { s with frames := { fr with vars := sc.vars, idx := fr.idx + 1 } :: rest,
           globals := sc.globals }

/-- What a phi reads: the bytes of its argument as a word of its own type. -/
def readPhi (env : Env) (sc : Scope) (prev : BlockId) (p : PhiInst) :
    Except Fault (Option LeftValue × Word) := do
  let v ← viewOf env sc (← p.value prev)
  let t ← resultType env sc p.result
  return (p.result, ← assign env.float t t v.word)

/-- The phis of a block, all read before the first is written. There is no block before
the entrance, and a phi in it has nothing to look up. -/
def runPhis (env : Env) (sc : Scope) (prev : Option BlockId) (phis : List PhiInst) :
    Except Fault Scope :=
  match prev with
  | some prev => do
    let updates ← phis.mapM (readPhi env sc prev)
    return updates.foldl (fun sc u => setVar env sc u.1 u.2) sc
  | none => if phis.isEmpty then .ok sc else .error .nullPointer

/-- The object behind a pointer. -/
def deref {α : Type} (x : Option α) : Except Fault α := x.elim (.error .nullPointer) .ok

@[simp] theorem deref_eq_ok {α : Type} {x : Option α} {a : α} : deref x = .ok a ↔ x = some a := by
  cases x <;> simp [deref]

/-- The block a frame stands in. -/
def blockAt (prog : Program) (fr : Frame) (b : BlockId) : Except Fault Block := do
  let f ← deref (prog.findFunc fr.func)
  deref (f.block? b)

/-- The start of the execution of a block. -/
def enterBlock (prog : Program) (s : State env) (fr : Frame) (rest : List Frame)
    (prev : Option BlockId) (target : BlockId) : Except Fault (State env) := do
  let b ← blockAt prog fr target
  let sc ← runPhis env (s.scope fr) prev b.phis
  return { s with
    frames := { fr with block := target, idx := b.phis.length, vars := sc.vars } :: rest
    globals := sc.globals }

/-- `execute` of a function, up to its first instruction. -/
def enterFunc (prog : Program) (s : State env) (f : Func) (args : List View) :
    Except Fault (State env) := do
  let l ← layoutFunc env.float s.mem s.top f args
  let b ← deref f.entrance
  enterBlock prog { s with mem := l.mem, top := l.cur } ⟨f.name, b.id, 0, l.vars, s.top⟩
    s.frames none b.id

/-- `execute` of a unary instruction. -/
def execUnary (s : State env) (sc : Scope) (u : UnaryInst) : Except Fault Word := do
  let operand ← viewOf env sc u.operand
  let dest ← resultType env sc u.result
  match u.op with
  | .mov | .convert => assign env.float dest operand.type operand.word
  | .not | .neg => evalUnary env.float u.op dest operand
  | .load =>
    match operand.type with
    | .reference elem _ _ => assignLoaded env.float s.mem dest elem operand.word
    | _ => throw (.compilerError "load expected reference type")
  | .borrow | .borrowMut => throw (.compilerError "BORROW is not modelled")

/-- `check_indexing`, and the address of an element. -/
def elemAddress (lhs rhs : View) : Except Fault (Ty × Word) :=
  match rhs.type, lhs.type with
  | .prim .int32, .reference elem _ _ =>
    let offset := (rhs.word.setWidth 32).signExtend 64
    .ok (elem, lhs.word + offset * BitVec.ofNat 64 elem.sizeOf)
  | _, _ => .error (.compilerError "Expected slice reference")

/-- `STORE`. -/
def execStore (s : State env) (lhs rhs : View) : Except Fault Memory := do
  if lhs.word.toNat < 0x1000 then throw (.compilerError "invalid memory access")
  match lhs.type with
  | .reference elem _ true =>
    match rhs.type with
    | .array _ size => assignMemory env.float s.mem (.array elem size) lhs.word rhs
    | _ => throw (.compilerError "Type is not Array")
  | .reference elem _ false => assignMemory env.float s.mem elem lhs.word rhs
  | _ => throw (.compilerError "store expected reference type")

/-- The word an instruction with two operands computes, for all but `STORE`. -/
def evalInst (s : State env) (op : InstOp) (dest : Ty) (lhs rhs : View) : Except Fault Word := do
  match op with
  | .loadElem =>
    let (elem, addr) ← elemAddress lhs rhs
    assignLoaded env.float s.mem dest elem addr
  | .borrowElem | .borrowElemMut =>
    let (elem, addr) ← elemAddress lhs rhs
    assign env.float dest (elem.borrow false) addr
  | _ => evalBinary env.float op dest lhs rhs

/-- The number in an argument of a builtin. -/
def argNumber (float : Floats) (p : Primitive) (v : View) : Except Fault Word := do
  match v.type with
  | .prim q => return cast float q p v.word
  | _ => throw (.compilerError "Type is not Primitive")

/-- What a builtin that reads writes to the result. -/
def builtinResult (float : Floats) (p : Primitive) (dest : Ty) (w : Word) :
    Except Fault Word := do
  match dest with
  | .prim q => return cast float p q w
  | _ => throw (.compilerError "Type is not Primitive")

/-- `BUILTIN_FUNCS`: the state after a builtin, and the word it writes to its result. -/
def execBuiltin (s : State env) (name : String) (dest : Ty) (args : List View) :
    Except Fault (State env × Option Word) := do
  match name, args with
  | "memset", dst :: v :: n :: _ =>
    let v ← argNumber env.float .int v
    let n ← argNumber env.float .int n
    return ({ s with mem := fill s.mem dst.word n.toNat (v.setWidth 8) }, none)
  | "memcpy", dst :: src :: n :: _ =>
    let n ← argNumber env.float .int n
    return ({ s with mem := copy s.mem dst.word src.word n.toNat }, none)
  | "get_int", _ =>
    let (v, input) := env.readInt s.input
    return ({ s with input }, some (← builtinResult env.float .int32 dest (v.setWidth 64)))
  | "get_float", _ =>
    let (v, input) ← env.readFloat s.input
    return ({ s with input }, some (← builtinResult env.float .float32 dest (v.setWidth 64)))
  | "get_double", _ =>
    let (v, input) := env.readDouble s.input
    return ({ s with input }, some (← builtinResult env.float .float64 dest v))
  | "print_int", v :: _ =>
    let w ← argNumber env.float .int32 v
    return ({ s with output := s.output ++ [.int (w.setWidth 32)] }, none)
  | "print_float", v :: _ =>
    let w ← argNumber env.float .float32 v
    return ({ s with output := s.output ++ [.float (w.setWidth 32)] }, none)
  | "print_double", v :: _ =>
    let w ← argNumber env.float .float64 v
    return ({ s with output := s.output ++ [.double w] }, none)
  | "print_bool", v :: _ =>
    let w ← argNumber env.float .int1 v
    return ({ s with output := s.output ++ [.bool (w != 0)] }, none)
  | _, _ => throw (.compilerError "Builtin function not found")

/-- `execute` of an instruction by the running frame `fr`. -/
def execInst (prog : Program) (s : State env) (fr : Frame) (rest : List Frame) (i : Inst) :
    Except Fault (State env) := do
  let sc := s.scope fr
  match i with
  | .phi _ => throw (.compilerError "Phi instruction must be at the beginning of a block")
  | .unary u => return s.advance fr rest (setVar env sc u.result (← execUnary s sc u))
  | .binary b =>
    let lhs ← viewOf env sc b.lhs
    let rhs ← viewOf env sc b.rhs
    let dest ← resultType env sc b.result
    if b.op = .store then
      return { s.advance fr rest sc with mem := ← execStore s lhs rhs }
    else return s.advance fr rest (setVar env sc b.result (← evalInst s b.op dest lhs rhs))
  | .call c =>
    let dest ← resultType env sc c.result
    let args ← c.args.mapM (viewOf env sc)
    match c.func.defn with
    | .func name =>
      enterFunc prog s (← deref (prog.findFunc name)) args
    | .builtin name =>
      let (s', w) ← execBuiltin s name dest args
      return s'.advance fr rest (w.elim sc (setVar env sc c.result))
    | .alloc _ => throw (.compilerError "Cannot call variable")

/-- The result of a call. -/
def callResult : Inst → Option (Option LeftValue)
  | .call c => some c.result
  | _ => none

/-- A function returns: its value goes to the result of the call the caller waits at, or
becomes the exit code. -/
def execReturn (prog : Program) (s : State env) (fr : Frame) (rest : List Frame) (v : View) :
    Except Fault (State env) := do
  match rest with
  | [] =>
    let w ← assign env.float .int32 v.type v.word
    return { s with frames := [], result := some (.exit (w.setWidth 8)) }
  | caller :: rest =>
    let b ← blockAt prog caller caller.block
    let result ← deref ((b.insts[caller.idx]?).bind callResult)
    let sc := s.scope caller
    let dest ← resultType env sc result
    let w ← assign env.float dest v.type v.word
    return { s.advance caller rest (setVar env sc result w) with top := fr.base }

/-- The condition of a branch. -/
def isTrue (float : Floats) (v : View) : Except Fault Bool := do
  match v.type with
  | .prim p => return cast float p .int1 v.word != 0
  | _ => throw (.compilerError "Type is not Primitive")

/-- `execute` of an exit. -/
def execExit (prog : Program) (s : State env) (fr : Frame) (rest : List Frame) (e : Exit) :
    Except Fault (State env) := do
  match e with
  | .jump target => enterBlock prog s fr rest (some fr.block) target
  | .branch cond t f =>
    let c ← isTrue env.float (← viewOf env (s.scope fr) cond)
    enterBlock prog s fr rest (some fr.block) (if c then t else f)
  | .ret exp => execReturn prog s fr rest (← viewOf env (s.scope fr) exp)

/-- The next instruction of a block, or its exit. -/
def execAt (prog : Program) (s : State env) (fr : Frame) (rest : List Frame) (b : Block) :
    Except Fault (State env) := do
  match b.insts[fr.idx]? with
  | some i => execInst prog s fr rest i
  | none => execExit prog s fr rest (← deref b.exit)

/-- One step of the running frame. -/
def exec (prog : Program) (s : State env) : Except Fault (State env) := do
  match s.frames with
  | [] => throw .nullPointer
  | fr :: rest => execAt prog s fr rest (← blockAt prog fr fr.block)

/-- The state after an error. -/
def State.fail (s : State env) : State env := { s with result := some .error }

/-- A step of the machine: errors end the run. -/
def step (prog : Program) (s : State env) : Option (State env) :=
  if s.result.isSome then none
  else
    match exec prog s with
    | .ok t => some t
    | .error _ => some s.fail

/-- The globals, which come first in memory. -/
def layoutGlobals (float : Floats) (globals : List Alloc) : Except Fault Layout :=
  let size := (globals.map fun a => paddingTo (stackSize a) 16).sum + 4
  globals.foldlM (alloc float) ⟨fill (fun _ => 0) 0x10000 size 0, 0x10000, fun _ => none⟩

/-- `execute` of a program, up to the first instruction of `main`. -/
def start (prog : Program) (input : env.Input) : Except Fault (State env) := do
  let l ← layoutGlobals env.float prog.globals
  let f ← deref (prog.findFunc "main")
  enterFunc prog ⟨[], l.vars, l.mem, paddingTo (l.cur + 4) 16, input, [], none⟩ f []

/-- The first state of a run. -/
def initial (prog : Program) (input : env.Input) : State env :=
  match start prog input with
  | .ok s => s
  | .error _ => ⟨[], fun _ => none, fun _ => 0, 0, input, [], some .error⟩

/-! ## The machine -/

variable {prog : Program} {s t : State env} {fr : Frame} {rest : List Frame}

theorem output_enterBlock {prev : Option BlockId} {target : BlockId}
    (h : enterBlock prog s fr rest prev target = .ok t) : t.output = s.output := by
  obtain ⟨_, -, h⟩ := Except.bind_eq_ok.1 h
  obtain ⟨_, -, h⟩ := Except.bind_eq_ok.1 h
  cases h
  rfl

theorem output_enterFunc {f : Func} {args : List View} (h : enterFunc prog s f args = .ok t) :
    t.output = s.output := by
  obtain ⟨_, -, h⟩ := Except.bind_eq_ok.1 h
  obtain ⟨_, -, h⟩ := Except.bind_eq_ok.1 h
  have hout := output_enterBlock h
  exact hout

theorem output_execBuiltin {name : String} {dest : Ty} {args : List View} {w : Option Word}
    (h : execBuiltin s name dest args = .ok (t, w)) : s.output <+: t.output := by
  unfold execBuiltin at h
  split at h
  · obtain ⟨_, -, h⟩ := Except.bind_eq_ok.1 h
    obtain ⟨_, -, h⟩ := Except.bind_eq_ok.1 h
    cases h
    exact List.prefix_refl _
  · obtain ⟨_, -, h⟩ := Except.bind_eq_ok.1 h
    cases h
    exact List.prefix_refl _
  · obtain ⟨_, -, h⟩ := Except.bind_eq_ok.1 h
    cases h
    exact List.prefix_refl _
  · obtain ⟨_, -, h⟩ := Except.bind_eq_ok.1 h
    obtain ⟨_, -, h⟩ := Except.bind_eq_ok.1 h
    cases h
    exact List.prefix_refl _
  · obtain ⟨_, -, h⟩ := Except.bind_eq_ok.1 h
    cases h
    exact List.prefix_refl _
  all_goals first
    | cases h
    | obtain ⟨_, -, h⟩ := Except.bind_eq_ok.1 h
      cases h
      exact List.prefix_append _ _

theorem output_execInst {i : Inst} (h : execInst prog s fr rest i = .ok t) :
    s.output <+: t.output := by
  cases i with
  | phi p => cases h
  | unary u =>
    obtain ⟨_, -, h⟩ := Except.bind_eq_ok.1 h
    cases h
    exact List.prefix_refl _
  | binary b =>
    obtain ⟨_, -, h⟩ := Except.bind_eq_ok.1 h
    obtain ⟨_, -, h⟩ := Except.bind_eq_ok.1 h
    obtain ⟨_, -, h⟩ := Except.bind_eq_ok.1 h
    split at h
    · obtain ⟨_, -, h⟩ := Except.bind_eq_ok.1 h
      cases h
      exact List.prefix_refl _
    · obtain ⟨_, -, h⟩ := Except.bind_eq_ok.1 h
      cases h
      exact List.prefix_refl _
  | call c =>
    obtain ⟨_, -, h⟩ := Except.bind_eq_ok.1 h
    obtain ⟨_, -, h⟩ := Except.bind_eq_ok.1 h
    split at h
    · obtain ⟨_, -, h⟩ := Except.bind_eq_ok.1 h
      exact output_enterFunc h ▸ List.prefix_refl _
    · obtain ⟨⟨u, w⟩, hu, h⟩ := Except.bind_eq_ok.1 h
      cases h
      have hout := output_execBuiltin hu
      exact hout
    · cases h

theorem output_execReturn {v : View} (h : execReturn prog s fr rest v = .ok t) :
    t.output = s.output := by
  cases rest with
  | nil =>
    obtain ⟨_, -, h⟩ := Except.bind_eq_ok.1 h
    cases h
    rfl
  | cons caller rest =>
    obtain ⟨_, -, h⟩ := Except.bind_eq_ok.1 h
    obtain ⟨_, -, h⟩ := Except.bind_eq_ok.1 h
    obtain ⟨_, -, h⟩ := Except.bind_eq_ok.1 h
    obtain ⟨_, -, h⟩ := Except.bind_eq_ok.1 h
    cases h
    rfl

theorem output_execExit {e : Exit} (h : execExit prog s fr rest e = .ok t) :
    t.output = s.output := by
  cases e with
  | jump _ => exact output_enterBlock h
  | branch _ _ _ =>
    obtain ⟨_, -, h⟩ := Except.bind_eq_ok.1 h
    obtain ⟨_, -, h⟩ := Except.bind_eq_ok.1 h
    exact output_enterBlock h
  | ret _ =>
    obtain ⟨_, -, h⟩ := Except.bind_eq_ok.1 h
    exact output_execReturn h

theorem output_exec (h : exec prog s = .ok t) : s.output <+: t.output := by
  unfold exec at h
  split at h
  · cases h
  · obtain ⟨_, -, h⟩ := Except.bind_eq_ok.1 h
    unfold execAt at h
    split at h
    · exact output_execInst h
    · obtain ⟨_, -, h⟩ := Except.bind_eq_ok.1 h
      exact output_execExit h ▸ List.prefix_refl _

/-- The run of a program: what it prints, and how it ends. -/
def machine (env : Env) (prog : Program) : DetMachine (State env) Event (Option Verdict) where
  step := step prog
  trace s := s.output
  verdict s := s.result
  trace_mono s t h := by
    unfold step at h
    split at h
    · cases h
    · split at h
      · cases h
        exact output_exec ‹_›
      · cases h
        exact List.prefix_refl _

/-- Two programs cannot be told apart: on every input they print the same and end alike. -/
def SameMeaning (env : Env) (p q : Program) : Prop :=
  ∀ input, (machine env p).ObsEq (initial p input) (machine env q) (initial q input)

theorem SameMeaning.trans {p q r : Program} (h : SameMeaning env p q)
    (h' : SameMeaning env q r) : SameMeaning env p r :=
  fun input => (h input).trans (h' input)

end Step

end Vm
end Ir
end Cact
