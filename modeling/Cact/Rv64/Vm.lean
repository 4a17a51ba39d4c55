import Cact.Lib.DetMachine
import Cact.Rv64.Abi

/-!
# The RV64 virtual machine (`rv64/vm/vm.hpp`, `rv64/vm/exec.cpp`)

The machine runs the flat instruction list of a module. The program counter is an
index into that list, the call stack is its own list of return indices, and every
general register, `x0` included, is an ordinary one. What the standard library does
is a parameter: floating-point arithmetic on bit patterns and reading from the input.

- `aluR`, `aluI`, `execFR`, `execMem` and so on: one function for each `exec_*`.
- `exec`: the dispatch on the instruction.
- `machine`: the loop of `execute` as a deterministic machine. The output is a
  list of printed values; the loop's budget of instructions is left out.
-/

namespace Cact

namespace Rv64

open Ir (Fault)

/-! ## The environment -/

/-- Floating-point arithmetic, on bit patterns. -/
structure FloatUnit where
  addS : BitVec 32 → BitVec 32 → BitVec 32
  subS : BitVec 32 → BitVec 32 → BitVec 32
  mulS : BitVec 32 → BitVec 32 → BitVec 32
  divS : BitVec 32 → BitVec 32 → BitVec 32
  sqrtS : BitVec 32 → BitVec 32
  eqS : BitVec 32 → BitVec 32 → Bool
  ltS : BitVec 32 → BitVec 32 → Bool
  leS : BitVec 32 → BitVec 32 → Bool
  toInt32S : BitVec 32 → BitVec 32
  toInt64S : BitVec 32 → Word
  ofInt32S : BitVec 32 → BitVec 32
  ofInt64S : Word → BitVec 32
  addD : Word → Word → Word
  subD : Word → Word → Word
  mulD : Word → Word → Word
  divD : Word → Word → Word
  sqrtD : Word → Word
  eqD : Word → Word → Bool
  ltD : Word → Word → Bool
  leD : Word → Word → Bool
  toInt32D : Word → BitVec 32
  toInt64D : Word → Word
  ofInt32D : BitVec 32 → Word
  ofInt64D : Word → Word
  narrow : Word → BitVec 32
  widen : BitVec 32 → Word

/-- What the machine gets from outside: an input stream, how numbers are read
from it, and a floating-point unit. -/
structure Env where
  Input : Type
  readInt : Input → BitVec 32 × Input
  readFloat : Input → Except Fault (BitVec 32 × Input)
  readDouble : Input → Word × Input
  float : FloatUnit

/-- A printed value. -/
inductive Event
  | int (v : Word)
  | float (bits : BitVec 32)
  | double (bits : Word)
  | bool (v : Bool)
  deriving DecidableEq, Repr

/-! ## Memory -/

abbrev Memory := Nat → BitVec 8

/-- `MEM_SIZE`. -/
def memSize : Nat := 64 * 1024 * 1024

/-- `STACK_INIT`. -/
def stackInit : Nat := memSize - 512

/-- `GLOBAL_BASE`. -/
def globalBase : Nat := 0x1000

/-- The number in the `n` bytes from `addr` on, the lowest first. -/
def loadBytes (mem : Memory) : Nat → Nat → Nat
  | _, 0 => 0
  | addr, n + 1 => (mem addr).toNat + 256 * loadBytes mem (addr + 1) n

/-- The memory after `n` bytes of a number are stored from `addr` on. -/
def storeBytes (mem : Memory) (addr n v : Nat) : Memory := fun a =>
  if addr ≤ a ∧ a < addr + n then BitVec.ofNat 8 (v / 256 ^ (a - addr)) else mem a

/-- The check of `load` and `store`. The sum in it wraps around, so an access
near the top of the address space passes it and then misses the memory. -/
def checkAccess (what : String) (addr : Word) (n : Nat) : Except Fault Nat :=
  if memSize < (addr + BitVec.ofNat 64 n).toNat then
    .error (.compilerError
      ("Segfault: " ++ what ++ " 0x" ++ String.ofList (Nat.toDigits 16 addr.toNat)))
  else if memSize < addr.toNat + n then .error .outOfBounds
  else .ok addr.toNat

/-- `load`, for a type of `n` bytes. -/
def load (mem : Memory) (addr : Word) (n : Nat) : Except Fault Nat :=
  (checkAccess "load from" addr n).map fun a => loadBytes mem a n

/-- `store`, for a type of `n` bytes. -/
def store (mem : Memory) (addr : Word) (n v : Nat) : Except Fault Memory :=
  (checkAccess "store to" addr n).map fun a => storeBytes mem a n v

/-! ## Machine states -/

structure State (env : Env) where
  regs : GeneralReg → Word
  fregs : FloatReg → Word
  memory : Memory
  /-- return indices, the innermost call first -/
  callStack : List Nat
  pc : Nat
  input : env.Input
  output : List Event

namespace State

variable {env : Env}

def setReg (s : State env) (r : GeneralReg) (v : Word) : State env :=
  { s with regs := Function.update s.regs r v }

/-- `get_f`. -/
def getF (s : State env) (r : FloatReg) : BitVec 32 := (s.fregs r).setWidth 32

/-- `get_d`. -/
def getD (s : State env) (r : FloatReg) : Word := s.fregs r

/-- `set_d`. -/
def setD (s : State env) (r : FloatReg) (v : Word) : State env :=
  { s with fregs := Function.update s.fregs r v }

/-- `set_f`: the upper half of the register keeps what it held. -/
def setF (s : State env) (r : FloatReg) (v : BitVec 32) : State env :=
  s.setD r ((s.fregs r).extractLsb' 32 32 ++ v)

def print (s : State env) (e : Event) : State env := { s with output := s.output ++ [e] }

def setMemory (s : State env) (m : Memory) : State env := { s with memory := m }

def setInput (s : State env) (input : env.Input) : State env := { s with input := input }

def jump (s : State env) (pc : Nat) : State env := { s with pc := pc }

end State

/-- What the machine runs: `flat_insts`, `label_map` and `symbol_map`. -/
structure Image where
  code : List Inst
  labels : List (String × Nat)
  symbols : List (String × Nat)

/-- `branch_target`, once every label is known to be defined. -/
def Image.branchTarget (img : Image) (l : String) : Nat := (findLabel img.labels l).getD 0

/-! ## Instructions -/

def ofBool (b : Bool) : Word := if b then 1 else 0

/-- The low half of a word. -/
def low (v : Word) : BitVec 32 := v.setWidth 32

/-- `exec_r`: the result of an operation on two registers. -/
def aluR (op : OpR) (a b : Word) : Word :=
  match op with
  | .add => a + b
  | .sub => a - b
  | .sll => a <<< (b &&& 0x3F#64).toNat
  | .slt => ofBool (a.slt b)
  | .sltu => ofBool (a.ult b)
  | .xor => a ^^^ b
  | .srl => a >>> (b &&& 0x3F#64).toNat
  | .sra => a.sshiftRight (b &&& 0x3F#64).toNat
  | .or => a ||| b
  | .and => a &&& b
  | .mul => a * b
  | .addw => (low a + low b).signExtend 64
  | .subw => (low a - low b).signExtend 64
  | .sllw => (low a <<< (b &&& 0x1F#64).toNat).signExtend 64
  | .srlw => (low a >>> (b &&& 0x1F#64).toNat).signExtend 64
  | .sraw => ((low a).sshiftRight (b &&& 0x1F#64).toNat).signExtend 64
  | .mulw => (low a * low b).signExtend 64
  | .divw =>
    if low b = 0 then BitVec.allOnes 64
    else if low a = BitVec.intMin 32 ∧ low b = -1 then (low a).signExtend 64
    else ((low a).sdiv (low b)).signExtend 64
  | .remw =>
    if low b = 0 then (low a).signExtend 64
    else if low a = BitVec.intMin 32 ∧ low b = -1 then 0
    else ((low a).srem (low b)).signExtend 64
  | .div =>
    if b = 0 then BitVec.allOnes 64
    else if a = BitVec.intMin 64 ∧ b = -1 then BitVec.intMin 64
    else a.sdiv b
  | .rem =>
    if b = 0 then a
    else if a = BitVec.intMin 64 ∧ b = -1 then 0
    else a.srem b

section Exec

variable {env : Env}

/-- `exec_r`. -/
def execR (i : InstR) (s : State env) : State env :=
  s.setReg i.rd (aluR i.op (s.regs i.rs1) (s.regs i.rs2))

/-- The number of the third operand. -/
def InstFR.rs2Id (i : InstFR) : Except Fault (Fin 32) :=
  match i.rs2 with
  | some r => .ok r.id
  | none => .error (.compilerError "RV64 VM: invalid register for this instruction")

/-- The sign injections: the magnitude of one pattern and the sign of another. -/
def signInject {w : Nat} (v sign : BitVec w) (negate : Bool) : BitVec w :=
  (v &&& ~~~ BitVec.intMin w) |||
    ((sign &&& BitVec.intMin w) ^^^ if negate then BitVec.intMin w else 0)

/-- `exec_fr`: the opcode decides which register file an operand number refers to. -/
def execFR (i : InstFR) (s : State env) : Except Fault (State env) := do
  let fp := env.float
  let rd := i.rd.id
  let rs1 := i.rs1.id
  match i.op with
  | .faddS => return s.setF rd (fp.addS (s.getF rs1) (s.getF (← i.rs2Id)))
  | .fsubS => return s.setF rd (fp.subS (s.getF rs1) (s.getF (← i.rs2Id)))
  | .fmulS => return s.setF rd (fp.mulS (s.getF rs1) (s.getF (← i.rs2Id)))
  | .fdivS => return s.setF rd (fp.divS (s.getF rs1) (s.getF (← i.rs2Id)))
  | .faddD => return s.setD rd (fp.addD (s.getD rs1) (s.getD (← i.rs2Id)))
  | .fsubD => return s.setD rd (fp.subD (s.getD rs1) (s.getD (← i.rs2Id)))
  | .fmulD => return s.setD rd (fp.mulD (s.getD rs1) (s.getD (← i.rs2Id)))
  | .fdivD => return s.setD rd (fp.divD (s.getD rs1) (s.getD (← i.rs2Id)))
  | .fsqrtS => return s.setF rd (fp.sqrtS (s.getF rs1))
  | .fsqrtD => return s.setD rd (fp.sqrtD (s.getD rs1))
  | .fsgnjS => return s.setF rd (signInject (s.getF rs1) (s.getF (← i.rs2Id)) false)
  | .fsgnjnS => return s.setF rd (signInject (s.getF rs1) (s.getF (← i.rs2Id)) true)
  | .fsgnjD => return s.setD rd (signInject (s.getD rs1) (s.getD (← i.rs2Id)) false)
  | .fsgnjnD => return s.setD rd (signInject (s.getD rs1) (s.getD (← i.rs2Id)) true)
  | .feqS => return s.setReg rd (ofBool (fp.eqS (s.getF rs1) (s.getF (← i.rs2Id))))
  | .fltS => return s.setReg rd (ofBool (fp.ltS (s.getF rs1) (s.getF (← i.rs2Id))))
  | .fleS => return s.setReg rd (ofBool (fp.leS (s.getF rs1) (s.getF (← i.rs2Id))))
  | .feqD => return s.setReg rd (ofBool (fp.eqD (s.getD rs1) (s.getD (← i.rs2Id))))
  | .fltD => return s.setReg rd (ofBool (fp.ltD (s.getD rs1) (s.getD (← i.rs2Id))))
  | .fleD => return s.setReg rd (ofBool (fp.leD (s.getD rs1) (s.getD (← i.rs2Id))))
  | .fcvtWS => return s.setReg rd ((fp.toInt32S (s.getF rs1)).signExtend 64)
  | .fcvtWD => return s.setReg rd ((fp.toInt32D (s.getD rs1)).signExtend 64)
  | .fcvtLS => return s.setReg rd (fp.toInt64S (s.getF rs1))
  | .fcvtLD => return s.setReg rd (fp.toInt64D (s.getD rs1))
  | .fcvtSW => return s.setF rd (fp.ofInt32S (low (s.regs rs1)))
  | .fcvtDW => return s.setD rd (fp.ofInt32D (low (s.regs rs1)))
  | .fcvtSL => return s.setF rd (fp.ofInt64S (s.regs rs1))
  | .fcvtDL => return s.setD rd (fp.ofInt64D (s.regs rs1))
  | .fcvtSD => return s.setF rd (fp.narrow (s.getD rs1))
  | .fcvtDS => return s.setD rd (fp.widen (s.getF rs1))
  | .fmvXW => return s.setReg rd ((s.getF rs1).signExtend 64)
  | .fmvWX => return s.setF rd (low (s.regs rs1))

/-- The arithmetic part of `exec_i`. -/
def aluI (op : OpI) (a : Word) (imm : BitVec 32) : Word :=
  match op with
  | .addi => a + imm.signExtend 64
  | .addiw => (low a + imm).signExtend 64
  | .slti => ofBool (a.slt (imm.signExtend 64))
  | .sltiu => ofBool (a.ult (imm.signExtend 64))
  | .xori => a ^^^ imm.signExtend 64
  | .ori => a ||| imm.signExtend 64
  | .andi => a &&& imm.signExtend 64
  | .slli => a <<< (imm &&& 0x3F#32).toNat
  | .srli => a >>> (imm &&& 0x3F#32).toNat
  | .srai => a.sshiftRight (imm &&& 0x3F#32).toNat
  | .slliw => (low a <<< (imm &&& 0x1F#32).toNat).signExtend 64
  | .srliw => (low a >>> (imm &&& 0x1F#32).toNat).signExtend 64
  | .sraiw => ((low a).sshiftRight (imm &&& 0x1F#32).toNat).signExtend 64
  | _ => 0

/-- How many bytes a load reads. -/
def loadWidth : OpI → Nat
  | .ld => 8
  | .lw | .lwu => 4
  | .lh | .lhu => 2
  | .lb | .lbu => 1
  | _ => 0

/-- How many bytes a store writes. -/
def storeWidth : OpI → Nat
  | .sd => 8
  | .sw => 4
  | .sh => 2
  | .sb => 1
  | _ => 0

/-- How a load extends what it has read to a word. -/
def extend (op : OpI) (v : Nat) : Word :=
  match op with
  | .lw => (BitVec.ofNat 32 v).signExtend 64
  | .lh => (BitVec.ofNat 16 v).signExtend 64
  | .lb => (BitVec.ofNat 8 v).signExtend 64
  | _ => BitVec.ofNat 64 v

/-- `exec_i`. A store takes its data from `rd`. -/
def execI (i : InstI) (s : State env) : Except Fault (State env) :=
  match i.op with
  | .ld | .lw | .lwu | .lh | .lhu | .lb | .lbu =>
    (load s.memory (s.regs i.rs1 + i.imm.signExtend 64) (loadWidth i.op)).map fun v =>
      s.setReg i.rd (extend i.op v)
  | .sd | .sw | .sh | .sb =>
    (store s.memory (s.regs i.rs1 + i.imm.signExtend 64) (storeWidth i.op)
      (s.regs i.rd).toNat).map s.setMemory
  | .jalr =>
    let target := (s.regs i.rs1 + i.imm.signExtend 64) &&& ~~~ 1#64
    let s' := if i.rd = 0 then s else s.setReg i.rd (BitVec.ofNat 64 s.pc)
    .ok (s'.jump target.toNat)
  | op => .ok (s.setReg i.rd (aluI op (s.regs i.rs1) i.imm))

/-- `exec_b`: is the branch taken? -/
def takenB (op : OpB) (a b : Word) : Bool :=
  match op with
  | .beq => a == b
  | .bne => a != b
  | .blt => a.slt b
  | .bge => b.sle a
  | .bltu => a.ult b
  | .bgeu => b.ule a

/-- `exec_b`. -/
def execB (img : Image) (i : InstB) (s : State env) : State env :=
  if takenB i.op (s.regs i.rs1) (s.regs i.rs2) then s.jump (img.branchTarget i.target) else s

/-- `exec_fi`. -/
def execFI (i : InstFI) (s : State env) : Except Fault (State env) :=
  let addr := s.regs i.rs1 + i.imm.signExtend 64
  match i.op with
  | .flw => (load s.memory addr 4).map fun v => s.setF i.rd (BitVec.ofNat 32 v)
  | .fld => (load s.memory addr 8).map fun v => s.setD i.rd (BitVec.ofNat 64 v)
  | .fsw => (store s.memory addr 4 (s.getF i.rd).toNat).map s.setMemory
  | .fsd => (store s.memory addr 8 (s.getD i.rd).toNat).map s.setMemory

/-- `exec_j`. -/
def execJ (img : Image) (i : InstJ) (s : State env) : State env :=
  (s.setReg i.rd (BitVec.ofNat 64 s.pc)).jump (img.branchTarget i.target)

/-- `exec_u`. -/
def execU (i : InstU) (s : State env) : State env :=
  match i.op with
  | .lui => s.setReg i.rd (i.imm <<< 12)
  | .auipc => s.setReg i.rd (BitVec.ofNat 64 (s.pc - 1) + (i.imm <<< 12))

/-- `exec_pseudo_r`: the result. -/
def aluPseudo (op : PseudoROp) (a : Word) : Word :=
  match op with
  | .mv => a
  | .not => ~~~ a
  | .neg => -a
  | .negw => (-(low a)).signExtend 64
  | .seqz => ofBool (a == 0)
  | .snez => ofBool (a != 0)

/-- `exec_pseudo_r`. -/
def execPseudoR (i : PseudoR) (s : State env) : State env :=
  s.setReg i.rd (aluPseudo i.op (s.regs i.rs1))

/-- `exec_pseudo_li`. -/
def execPseudoLI (i : PseudoLI) (s : State env) : State env := s.setReg i.rd i.imm

/-- `exec_pseudo_b`: is the branch taken? -/
def takenPseudo (op : PseudoBOp) (a : Word) : Bool :=
  match op with
  | .beqz => a == 0
  | .bnez => a != 0

/-- `exec_pseudo_b`. -/
def execPseudoB (img : Image) (i : PseudoB) (s : State env) : State env :=
  if takenPseudo i.op (s.regs i.rs1) then s.jump (img.branchTarget i.target) else s

/-- `exec_pseudo_l`: an unknown symbol has address 0. -/
def execPseudoL (img : Image) (i : PseudoL) (s : State env) : Except Fault (State env) :=
  let addr := BitVec.ofNat 64 ((findLabel img.symbols i.symbol).getD 0)
  match i.op with
  | .la => .ok (s.setReg i.rd addr)
  | .lgd => (load s.memory addr 8).map fun v => s.setReg i.rd (BitVec.ofNat 64 v)
  | .lgw => (load s.memory addr 4).map fun v => s.setReg i.rd ((BitVec.ofNat 32 v).signExtend 64)
  | .sgd => (store s.memory addr 8 (s.regs i.rd).toNat).map s.setMemory
  | .sgw => (store s.memory addr 4 (s.regs i.rd).toNat).map s.setMemory

/-- `exec_pseudo_ret`: the outermost return leaves the loop. -/
def execPseudoRet (img : Image) (s : State env) : State env :=
  match s.callStack with
  | [] => s.jump img.code.length
  | pc :: rest => { s with pc := pc, callStack := rest }

/-! ## Builtin functions -/

/-- The entries of the table `builtins`. -/
inductive Builtin
  | printInt | printFloat | printDouble | printBool
  | getInt | getFloat | getDouble
  | memcpy | memset
  deriving DecidableEq, Repr

/-- `builtins.find`. -/
def builtin? : String → Option Builtin
  | "print_int" => some .printInt
  | "print_float" => some .printFloat
  | "print_double" => some .printDouble
  | "print_bool" => some .printBool
  | "get_int" => some .getInt
  | "get_float" => some .getFloat
  | "get_double" => some .getDouble
  | "memcpy" => some .memcpy
  | "memset" => some .memset
  | _ => none

/-- The check of `memcpy` and `memset`, which wraps around like that of `load`. -/
def checkBlock (what : String) (addr n : Word) : Except Fault Unit :=
  if memSize < (addr + n).toNat then
    .error (.compilerError ("RV64 VM: " ++ what ++ " out of bounds"))
  else if memSize < addr.toNat + n.toNat then .error .outOfBounds
  else .ok ()

/-- `builtin_*`. -/
def execBuiltin (f : Builtin) (s : State env) : Except Fault (State env) :=
  match f with
  | .printInt => .ok (s.print (.int (s.regs 10)))
  | .printFloat => .ok (s.print (.float (s.getF 10)))
  | .printDouble => .ok (s.print (.double (s.getD 10)))
  | .printBool => .ok (s.print (.bool (s.regs 10 != 0)))
  | .getInt =>
    let (v, input) := env.readInt s.input
    .ok ((s.setReg 10 (v.signExtend 64)).setInput input)
  | .getFloat => (env.readFloat s.input).map fun (v, input) => (s.setF 10 v).setInput input
  | .getDouble =>
    let (v, input) := env.readDouble s.input
    .ok ((s.setD 10 v).setInput input)
  | .memcpy => do
    checkBlock "memcpy" (s.regs 10) (s.regs 12)
    checkBlock "memcpy" (s.regs 11) (s.regs 12)
    let dest := (s.regs 10).toNat
    let src := (s.regs 11).toNat
    let n := (s.regs 12).toNat
    return s.setMemory fun a =>
      if dest ≤ a ∧ a < dest + n then s.memory (src + (a - dest)) else s.memory a
  | .memset => do
    checkBlock "memset" (s.regs 10) (s.regs 12)
    let dest := (s.regs 10).toNat
    let n := (s.regs 12).toNat
    return s.setMemory fun a =>
      if dest ≤ a ∧ a < dest + n then (s.regs 11).setWidth 8 else s.memory a

/-- `exec_pseudo_j`. -/
def execPseudoJ (img : Image) (i : PseudoJ) (s : State env) : Except Fault (State env) :=
  match i.op with
  | .j => .ok (s.jump (img.branchTarget i.target))
  | .call =>
    match builtin? i.target with
    | some f => execBuiltin f s
    | none =>
      .ok { s with pc := img.branchTarget i.target, callStack := s.pc :: s.callStack }

/-- `exec`, in a state whose `pc` is already past the instruction. -/
def exec (img : Image) (inst : Inst) (s : State env) : Except Fault (State env) :=
  match inst with
  | .instR i => .ok (execR i s)
  | .instFR i => execFR i s
  | .instI i => execI i s
  | .instB i => .ok (execB img i s)
  | .instFI i => execFI i s
  | .instJ i => .ok (execJ img i s)
  | .instU i => .ok (execU i s)
  | .pseudoR i => .ok (execPseudoR i s)
  | .pseudoLI i => .ok (execPseudoLI i s)
  | .pseudoL i => execPseudoL img i s
  | .pseudoB i => .ok (execPseudoB img i s)
  | .pseudoJ i => execPseudoJ img i s
  | .pseudoRet => .ok (execPseudoRet img s)

end Exec

/-! ## Loading a module -/

/-- `(offset + align - 1) & ~(align - 1)`. -/
def alignUp (offset align : Nat) : Nat :=
  ((BitVec.ofNat 64 offset + BitVec.ofNat 64 align - 1) &&&
    ~~~ (BitVec.ofNat 64 align - 1)).toNat

/-- The memory and the addresses handed out so far, and the next free address. -/
structure Placement where
  memory : Memory
  symbols : List (String × Nat)
  offset : Nat

/-- One global of `place_globals`. -/
def placeGlobal (p : Placement) (g : Global) : Except Fault Placement := do
  let sz ← size g.type
  let offset := if sz > 1 then alignUp p.offset sz else p.offset
  let addr := BitVec.ofNat 64 offset
  let memory ←
    match g.init.map Ir.ConstexprValue.val with
    | none => pure p.memory
    | some .monostate => pure p.memory
    | some (.int v) => store p.memory addr 4 v.toNat
    | some (.int64 v) => store p.memory addr 8 v.toNat
    | some (.float v) => store p.memory addr 4 v.toNat
    | some (.bool v) => store p.memory addr 1 v.toNat
    | some (.double v) => store p.memory addr 8 v.toNat
    | some (.bytes buf) =>
      if memSize < offset + sz then .error .outOfBounds
      else pure fun a =>
        if offset ≤ a ∧ a < offset + sz then buf.getD (a - offset) 0 else p.memory a
  return ⟨memory, p.symbols ++ [(g.name, offset)], offset + sz⟩

/-- One literal of the pool. -/
def placeLiteral (p : Placement) (lit : FloatLiteral) : Except Fault Placement := do
  let offset := alignUp p.offset 8
  let addr := BitVec.ofNat 64 offset
  let symbols := p.symbols ++ [(lit.label, offset)]
  match lit.value.val with
  | .float v => return ⟨← store p.memory addr 4 v.toNat, symbols, offset + 4⟩
  | .double v => return ⟨← store p.memory addr 8 v.toNat, symbols, offset + 8⟩
  | _ => return ⟨p.memory, symbols, offset + 8⟩

/-- `place_globals`. -/
def placeGlobals (globals : List Global) (literals : List FloatLiteral) :
    Except Fault Placement := do
  let p ← globals.foldlM placeGlobal ⟨fun _ => 0, [], globalBase⟩
  literals.foldlM placeLiteral p

/-- Does `resolve_branches` look the label of this instruction up? The call of a
builtin function needs no label. -/
def needsLabel : Inst → Option String
  | .pseudoJ i => if i.op = .call ∧ (builtin? i.target).isSome then none else some i.target
  | i => i.target

/-- `resolve_branches`: the first label that is looked up and not defined. -/
def undefinedLabel (code : List Inst) (labels : List (String × Nat)) : Option String :=
  (code.filterMap needsLabel).find? fun l => (findLabel labels l).isNone

/-- What `execute` has before its loop: the index of `main`, or a failure. -/
def entryPoint (m : Module) : Except Fault Nat :=
  match undefinedLabel m.flat m.labels with
  | some l => .error (.compilerError ("RV64 VM: undefined label '" ++ l ++ "'"))
  | none =>
    match findLabel m.labels "main" with
    | some pc => .ok pc
    | none => .error (.compilerError "RV64 VM: no 'main' function found")

/-- The execution structures of a module. -/
def Module.image (m : Module) : Image where
  code := m.flat
  labels := m.labels
  symbols :=
    match placeGlobals m.globals m.floatLiterals with
    | .ok p => p.symbols
    | .error _ => []

/-! ## The machine -/

/-- A state of the loop, or the state an exception left behind. -/
structure Conf (env : Env) where
  state : State env
  fault : Option Fault

/-- The registers `execute` starts with. -/
def initRegs : GeneralReg → Word := fun r =>
  if r = 2 then BitVec.ofNat 64 stackInit else if r = 1 then BitVec.allOnes 64 else 0

/-- `execute` up to its loop. -/
def initConf (env : Env) (m : Module) (input : env.Input) : Conf env :=
  let start (mem : Memory) (pc : Nat) : State env :=
    ⟨initRegs, fun _ => 0, mem, [], pc, input, []⟩
  match placeGlobals m.globals m.floatLiterals with
  | .error e => ⟨start (fun _ => 0) 0, some e⟩
  | .ok p =>
    match entryPoint m with
    | .error e => ⟨start p.memory 0, some e⟩
    | .ok pc => ⟨start p.memory pc, none⟩

/-- The state after one instruction, or the fault it raised. -/
def Conf.next {env : Env} (s : State env) : Except Fault (State env) → Conf env
  | .ok t => ⟨t, none⟩
  | .error e => ⟨s, some e⟩

/-- One iteration of the loop of `execute`. -/
def stepConf {env : Env} (img : Image) (c : Conf env) : Option (Conf env) :=
  match c.fault with
  | some _ => none
  | none =>
    match img.code[c.state.pc]? with
    | none => none
    | some inst => some (.next c.state (exec img inst { c.state with pc := c.state.pc + 1 }))

/-- The value `execute` returns. -/
def verdict {env : Env} (c : Conf env) : Except Fault (BitVec 8) :=
  match c.fault with
  | some e => .error e
  | none => .ok ((c.state.regs 10).setWidth 8)

end Rv64
end Cact
