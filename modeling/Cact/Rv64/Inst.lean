import Cact.Ir.Ir

/-!
# RV64 assembly (`rv64/op.hpp`, `rv64/inst.hpp`)

Registers, opcodes, instructions and modules as instruction selection builds
them and the assembly passes rewrite them.

- `Inst`: the instructions and pseudo-instructions, one structure for each format.
- `Block`, `Func`, `Module`: labelled instruction lists, globals and the pool of
  floating-point literals.
- `Module.flat`, `Module.labels`: the instruction list the machine runs, and where
  each block starts in it.
-/

namespace Cact

namespace Rv64

/-- A machine word. -/
abbrev Word := BitVec 64

/-- `GeneralReg`: the constructor of the source rejects numbers from 32 on. -/
abbrev GeneralReg := Fin 32

/-- `FloatReg`. -/
abbrev FloatReg := Fin 32

/-- A numeral names a register. -/
instance neZeroRegs : NeZero 32 := ⟨by decide⟩

/-- The names `GeneralReg::toString` prints. -/
def generalRegNames : List String :=
  ["zero", "ra", "sp", "gp", "tp", "t0", "t1", "t2", "s0", "s1", "a0",
   "a1", "a2", "a3", "a4", "a5", "a6", "a7", "s2", "s3", "s4", "s5",
   "s6", "s7", "s8", "s9", "s10", "s11", "t3", "t4", "t5", "t6"]

/-- The names `FloatReg::toString` prints. -/
def floatRegNames : List String :=
  ["ft0", "ft1", "ft2", "ft3", "ft4", "ft5", "ft6", "ft7", "fs0", "fs1", "fa0",
   "fa1", "fa2", "fa3", "fa4", "fa5", "fa6", "fa7", "fs2", "fs3", "fs4", "fs5",
   "fs6", "fs7", "fs8", "fs9", "fs10", "fs11", "ft8", "ft9", "ft10", "ft11"]

/-! ## Opcodes -/

inductive OpR
  | add | sub | sll | slt | sltu | xor | srl | sra | or | and | mul | div | rem
  | addw | subw | sllw | srlw | sraw | mulw | divw | remw
  deriving DecidableEq, Repr

inductive OpFR
  | faddS | faddD | fsubS | fsubD | fmulS | fmulD | fdivS | fdivD | fsqrtS | fsqrtD
  | fsgnjS | fsgnjD | fsgnjnS | fsgnjnD
  | feqS | feqD | fltS | fltD | fleS | fleD
  | fcvtWS | fcvtWD | fcvtLS | fcvtLD | fcvtSW | fcvtDW | fcvtSL | fcvtDL | fcvtSD | fcvtDS
  | fmvXW | fmvWX
  deriving DecidableEq, Repr

inductive OpI
  | addi | slli | slti | sltiu | xori | srli | srai | ori | andi
  | ld | lw | lwu | lb | lbu | lh | lhu
  | jalr
  | sd | sw | sb | sh
  | addiw | slliw | srliw | sraiw
  deriving DecidableEq, Repr

inductive OpB
  | beq | bne | blt | bge | bltu | bgeu
  deriving DecidableEq, Repr

inductive OpFI
  | flw | fld | fsw | fsd
  deriving DecidableEq, Repr

inductive OpJ
  | jal
  deriving DecidableEq, Repr

inductive OpU
  | lui | auipc
  deriving DecidableEq, Repr

inductive PseudoROp
  | mv | not | neg | negw | seqz | snez
  deriving DecidableEq, Repr

inductive PseudoBOp
  | beqz | bnez
  deriving DecidableEq, Repr

inductive PseudoJOp
  | j | call
  deriving DecidableEq, Repr

inductive PseudoLOp
  | la | lgd | lgw | sgd | sgw
  deriving DecidableEq, Repr

/-! ## Instructions -/

structure InstR where
  op : OpR
  rd : GeneralReg
  rs1 : GeneralReg
  rs2 : GeneralReg
  deriving DecidableEq, Repr

/-- An operand of a floating-point instruction: a register of either class. -/
inductive FrReg
  | float (r : FloatReg)
  | general (r : GeneralReg)
  deriving DecidableEq, Repr

/-- The number of the register, whatever its class. -/
def FrReg.id : FrReg → Fin 32
  | float r => r
  | general r => r

/-- The third operand may be absent (`std::monostate`). -/
structure InstFR where
  op : OpFR
  rd : FrReg
  rs1 : FrReg
  rs2 : Option FrReg
  deriving DecidableEq, Repr

structure InstI where
  op : OpI
  rd : GeneralReg
  rs1 : GeneralReg
  imm : BitVec 32
  deriving DecidableEq, Repr

structure InstB where
  op : OpB
  rs1 : GeneralReg
  rs2 : GeneralReg
  target : String
  deriving DecidableEq, Repr

structure InstFI where
  op : OpFI
  rd : FloatReg
  rs1 : GeneralReg
  imm : BitVec 32
  deriving DecidableEq, Repr

structure InstJ where
  op : OpJ
  rd : GeneralReg
  target : String
  deriving DecidableEq, Repr

structure InstU where
  op : OpU
  rd : GeneralReg
  imm : Word
  deriving DecidableEq, Repr

structure PseudoR where
  op : PseudoROp
  rd : GeneralReg
  rs1 : GeneralReg
  deriving DecidableEq, Repr

structure PseudoLI where
  rd : GeneralReg
  imm : Word
  deriving DecidableEq, Repr

structure PseudoB where
  op : PseudoBOp
  rs1 : GeneralReg
  target : String
  deriving DecidableEq, Repr

structure PseudoJ where
  op : PseudoJOp
  target : String
  deriving DecidableEq, Repr

structure PseudoL where
  op : PseudoLOp
  rd : GeneralReg
  «symbol» : String
  deriving DecidableEq, Repr

inductive Inst
  | instR (i : InstR)
  | instFR (i : InstFR)
  | instI (i : InstI)
  | instB (i : InstB)
  | instFI (i : InstFI)
  | instJ (i : InstJ)
  | instU (i : InstU)
  | pseudoR (i : PseudoR)
  | pseudoLI (i : PseudoLI)
  | pseudoL (i : PseudoL)
  | pseudoB (i : PseudoB)
  | pseudoJ (i : PseudoJ)
  | pseudoRet
  deriving DecidableEq, Repr

/-- The label an instruction mentions. -/
def Inst.target : Inst → Option String
  | instB i => some i.target
  | instJ i => some i.target
  | pseudoB i => some i.target
  | pseudoJ i => some i.target
  | _ => none

/-- The instructions that read or set the program counter as a number. Only
`jal`, `jalr` and `auipc` do; instruction selection emits none of them. -/
def Inst.usesPc : Inst → Bool
  | instJ _ => true
  | instI i => i.op == .jalr
  | instU i => i.op == .auipc
  | _ => false

/-! ## Modules -/

structure Global where
  name : String
  type : Ir.Ty
  init : Option Ir.ConstexprValue
  comptime : Bool
  deriving DecidableEq, Repr

structure Block where
  label : String
  insts : List Inst
  deriving DecidableEq, Repr

structure Func where
  name : String
  blocks : List Block
  deriving DecidableEq, Repr

structure FloatLiteral where
  label : String
  value : Ir.ConstexprValue
  deriving DecidableEq, Repr

structure Module where
  globals : List Global
  funcs : List Func
  floatLiterals : List FloatLiteral
  deriving DecidableEq, Repr

/-- The instructions of a list of blocks, one after the other. -/
def flatOf (blocks : List Block) : List Inst := blocks.flatMap Block.insts

/-- The labels of a list of blocks whose first instruction has index `start`. -/
def labelsOf : Nat → List Block → List (String × Nat)
  | _, [] => []
  | start, b :: bs => (b.label, start) :: labelsOf (start + b.insts.length) bs

namespace Module

/-- All blocks of a module in the order they are laid out. -/
def blocks (m : Module) : List Block := m.funcs.flatMap Func.blocks

/-- `flat_insts`. -/
def flat (m : Module) : List Inst := flatOf m.blocks

/-- `label_map`, as the list of its assignments. -/
def labels (m : Module) : List (String × Nat) := labelsOf 0 m.blocks

end Module

/-- `label_map.find`: a label that is assigned twice has its last value. -/
def findLabel (labels : List (String × Nat)) (l : String) : Option Nat :=
  (labels.reverse.find? fun e => e.1 == l).map Prod.snd

end Rv64
end Cact
