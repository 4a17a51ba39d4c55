import Cact.Rv64.Vm

/-!
# Instruction selection (`rv64/isel.hpp`)

IR instructions whose variables stand for registers become RV64 instructions. The
register `t0` is kept for constants and addresses that have no register, and `t1` for
the stores in front of a function's first block.

- `FrameLayout`, `computeFrame`: the stack frame of a function.
- `translateUnary`, `translateBinary`, `translateCall`, `translateExit`: one function for
  each kind of instruction; a literal of the pool is added where one is needed.
- `translateFunc`, `lower`: functions and programs.
-/

namespace Cact

namespace Rv64

namespace Isel

open Ir (Ty Fault ConstexprValue Payload Value LeftValue Var NamedValue NameDef Alloc AllocId Exit
  InstOp UnaryInstOp UnaryInst BinaryInst CallInst)

/-- `ColorMap`: the registers of the variables that stand for one. -/
abbrev ColorMap := List (Var × Fin 32)

/-- The bytes of each allocation's slot in the frame start at its offset. -/
structure FrameLayout where
  totalSize : Nat
  spillOffsets : List (AllocId × Nat)

/-- What the translation of an instruction refers to: the allocations behind the
pointers, the frame and the registers. -/
structure Ctx where
  alloc : AllocId → Option Alloc
  frame : FrameLayout
  regs : ColorMap

/-! ## Lookups -/

/-- `lookup_reg`. -/
def lookupReg (regs : ColorMap) : Value → Option (Fin 32)
  | .left v => regs.lookup v.var
  | .const _ => none

/-- `extract_imm`. -/
def extractImm (c : ConstexprValue) : Option Word :=
  match c.val with
  | .int v => some (v.signExtend 64)
  | .int64 v => some v
  | .bool v => some (if v then 1 else 0)
  | _ => none

/-- `fits_i12`. -/
def fitsI12 (imm : Word) : Bool := (-2048#64).sle imm && imm.slt 2048#64

/-- `is_32bit_op`. -/
def is32BitOp : Ty → Bool
  | .prim .int32 | .prim .float32 => true
  | _ => false

def isInt1 : Ty → Bool
  | .prim .int1 => true
  | _ => false

/-- `resolve_alloc`. -/
def resolveAlloc (ctx : Ctx) : Value → Except Fault (Option Alloc)
  | .left ⟨_, .named (.alloc a)⟩ =>
    match ctx.alloc a with
    | some alloc => .ok (some alloc)
    | none => .error .outOfRange
  | _ => .ok none

/-- `has_spill` and `offset_of`. -/
def Ctx.spillOffset (ctx : Ctx) (a : Alloc) : Option Word :=
  (ctx.frame.spillOffsets.lookup a.id).map (BitVec.ofNat 64)

/-- `name_of`. -/
def nameOf (ctx : Ctx) : NameDef → Except Fault String
  | .alloc a =>
    match ctx.alloc a with
    | some alloc => .ok alloc.name
    | none => .error .outOfRange
  | .func name | .builtin name => .ok name

/-! ## The frame -/

/-- `outgoing_arg_area`. -/
def outgoingArgArea (f : Ir.Func) : Nat :=
  (f.blocks.flatMap Ir.Block.insts).foldl
    (fun area i =>
      match i with
      | .call c => max area (c.args.length * 8)
      | _ => area) 0

/-- An offset after it is aligned. -/
def alignTo (offset align : Nat) : Nat := if align > 1 then alignUp offset align else offset

/-- The locals that live in memory, from an offset on. -/
def placeLocals : List Alloc → Nat → Except Fault (List (AllocId × Nat) × Nat)
  | [], offset => .ok ([], offset)
  | a :: as, offset =>
    if a.reference then do
      let sz ← size a.type
      let align ← size a.type
      let offset := alignTo offset align
      let (rest, last) ← placeLocals as (offset + sz)
      return ((a.id, offset) :: rest, last)
    else placeLocals as offset

/-- The parameters that live in memory, in slots of eight bytes from an offset on. -/
def placeParams : List Alloc → Nat → List (AllocId × Nat)
  | [], _ => []
  | a :: as, offset =>
    if a.reference then
      let offset := alignUp offset 8
      (a.id, offset) :: placeParams as (offset + 8)
    else placeParams as offset

/-- `compute_frame`. -/
def computeFrame (f : Ir.Func) : Except Fault FrameLayout := do
  let (locals, offset) ← placeLocals f.locals (outgoingArgArea f)
  let total := alignTo offset 16
  return ⟨total, locals ++ placeParams f.params total⟩

/-! ## Emission helpers -/

def regT0 : GeneralReg := 5
def regT1 : GeneralReg := 6
def regSp : GeneralReg := 2
def regFt0 : FloatReg := 5

/-- An immediate of 32 bits. -/
def imm32 (imm : Word) : BitVec 32 := imm.setWidth 32

/-- `block_label`. -/
def blockLabel (func blk : String) : String := ".L" ++ func ++ "_" ++ blk

/-- `emit_int_reg_op`. -/
def intRegOp (op64 op32 : OpR) (w : Bool) (rd lhs rhs : GeneralReg) : Inst :=
  .instR ⟨if w then op32 else op64, rd, lhs, rhs⟩

/-- `emit_add_reg_imm`. -/
def addRegImm (rd rs : GeneralReg) (imm : Word) (w : Bool) : List Inst :=
  if fitsI12 imm then [.instI ⟨if w then .addiw else .addi, rd, rs, imm32 imm⟩]
  else [.pseudoLI ⟨regT0, imm⟩, intRegOp .add .addw w rd rs regT0]

/-- `resolve_addr`: a register and an immediate that fits, for `base + offset`. -/
def resolveAddr (base : GeneralReg) (offset : Word) : List Inst × GeneralReg × BitVec 32 :=
  if fitsI12 offset then ([], base, imm32 offset)
  else (addRegImm regT0 base offset false, regT0, 0)

/-- The instruction that loads a value of the type into a register of its class. -/
def loadInst (t : Ty) (rd : Fin 32) (base : GeneralReg) (imm : BitVec 32) : Inst :=
  if t.isFp then .instFI ⟨if is32BitOp t then .flw else .fld, rd, base, imm⟩
  else .instI ⟨if isInt1 t then .lbu else if is32BitOp t then .lw else .ld, rd, base, imm⟩

/-- The instruction that stores a register as a value of the type. -/
def storeInst (t : Ty) (rs : Fin 32) (base : GeneralReg) (imm : BitVec 32) : Inst :=
  if t.isFp then .instFI ⟨if is32BitOp t then .fsw else .fsd, rs, base, imm⟩
  else .instI ⟨if isInt1 t then .sb else if is32BitOp t then .sw else .sd, rs, base, imm⟩

/-- A copy between floating registers, with the sign kept or turned. -/
def fmov (t : Ty) (negate : Bool) (rd rs : FloatReg) : Inst :=
  let op : OpFR :=
    match is32BitOp t, negate with
    | false, false => .fsgnjD
    | true, false => .fsgnjS
    | false, true => .fsgnjnD
    | true, true => .fsgnjnS
  .instFR ⟨op, .float rd, .float rs, some (.float rs)⟩

/-- The instructions of one IR instruction, and the pool of literals after it. -/
abbrev Emitted := Except Fault (List Inst × List FloatLiteral)

/-- Instructions that need no literal. -/
def plain (pool : List FloatLiteral) (insts : List Inst) : Emitted := .ok (insts, pool)

/-- A new literal in the pool, loaded into a floating register (`emit_load_float_const`). -/
def loadFloatConst (pool : List FloatLiteral) (c : ConstexprValue) (t : Ty) (rd : FloatReg) :
    List Inst × List FloatLiteral :=
  let label := ".L_fc_" ++ toString pool.length
  ([.pseudoL ⟨.la, regT0, label⟩, .instFI ⟨if is32BitOp t then .flw else .fld, rd, regT0, 0⟩],
    pool ++ [⟨label, c⟩])

/-- The address of an allocation: on the stack, or that of its symbol. -/
def addressOf (ctx : Ctx) (a : Alloc) (rd : GeneralReg) : List Inst :=
  match ctx.spillOffset a with
  | some offset => addRegImm rd regSp offset false
  | none => [.pseudoL ⟨.la, rd, a.name⟩]

/-! ## Unary instructions -/

/-- `MOV`. -/
def translateMov (ctx : Ctx) (pool : List FloatLiteral) (rd : Fin 32) (fp : Bool) (t : Ty)
    (operand : Value) : Emitted := do
  match operand with
  | .const c =>
    match extractImm c with
    | some imm => plain pool [.pseudoLI ⟨rd, imm⟩]
    | none => if fp then return loadFloatConst pool c c.type rd else plain pool []
  | .left _ =>
    match lookupReg ctx.regs operand with
    | some src =>
      if rd = src then plain pool []
      else if fp then plain pool [fmov t false rd src]
      else plain pool [.pseudoR ⟨.mv, rd, src⟩]
    | none =>
      match ← resolveAlloc ctx operand with
      | some a =>
        match (if !fp && a.comptime then a.init else none) with
        | some init =>
          match extractImm init with
          | some imm => plain pool [.pseudoLI ⟨rd, imm⟩]
          | none => plain pool [.pseudoL ⟨.la, rd, a.name⟩]
        | none => plain pool (addressOf ctx a rd)
      | none => throw (.compilerError "MOV operand is neither register, const, nor alloc")

/-- `NEG`. -/
def translateNeg (ctx : Ctx) (pool : List FloatLiteral) (rd : Fin 32) (fp : Bool) (t : Ty)
    (operand : Value) : Emitted :=
  match lookupReg ctx.regs operand with
  | some src =>
    if fp then plain pool [fmov t true rd src]
    else plain pool [.pseudoR ⟨if is32BitOp t then .negw else .neg, rd, src⟩]
  | none =>
    if fp then .error (.compilerError "FP NEG operand has no register")
    else
      match operand with
      | .const c =>
        match extractImm c with
        | some imm => plain pool [.pseudoLI ⟨rd, -imm⟩]
        | none => .error (.compilerError "Int NEG constexpr operand not extractable")
      | .left _ => .error (.compilerError "Int NEG operand has no register and is not constexpr")

/-- `NOT`. -/
def translateNot (ctx : Ctx) (pool : List FloatLiteral) (rd : Fin 32) (t : Ty) (operand : Value) :
    Emitted :=
  match lookupReg ctx.regs operand with
  | some src =>
    if isInt1 t then plain pool [.instI ⟨.xori, rd, src, 1⟩]
    else plain pool [.pseudoR ⟨.seqz, rd, src⟩]
  | none =>
    match operand with
    | .const c =>
      match extractImm c with
      | some imm => plain pool [.pseudoLI ⟨rd, if imm = 0 then 1 else 0⟩]
      | none => .error (.compilerError "NOT constexpr operand not extractable")
    | .left _ => .error (.compilerError "NOT operand has no register and is not constexpr")

/-- The element type of a reference, `.as<Reference>().elem`. -/
def referenceElem : Ty → Except Fault Ty
  | .reference elem _ _ => .ok elem
  | _ => .error (.compilerError "Type is not Reference")

/-- `LOAD`. -/
def translateLoad (ctx : Ctx) (pool : List FloatLiteral) (rd : Fin 32) (operand : Value) :
    Emitted := do
  let refAlloc ← resolveAlloc ctx operand
  let elem ← referenceElem operand.typeOf
  match refAlloc.bind ctx.spillOffset with
  | some offset =>
    let (insts, base, imm) := resolveAddr regSp offset
    plain pool (insts ++ [loadInst elem rd base imm])
  | none =>
    match lookupReg ctx.regs operand, refAlloc with
    | some base, _ => plain pool [loadInst elem rd base 0]
    | none, some a =>
      let sz ← size a.type
      if elem.isFp then
        plain pool [.pseudoL ⟨.la, regT0, a.name⟩, loadInst elem rd regT0 0]
      else if sz = 1 then
        plain pool [.pseudoL ⟨.la, regT0, a.name⟩, .instI ⟨.lbu, rd, regT0, 0⟩]
      else plain pool [.pseudoL ⟨if sz = 8 then .lgd else .lgw, rd, a.name⟩]
    | none, none => throw (.compilerError "LOAD operand is neither alloc nor register")

/-- The conversion of a register. -/
def convertReg (srcT dstT : Ty) (rd src : Fin 32) : List Inst :=
  let src32 := is32BitOp srcT
  let dst32 := is32BitOp dstT
  match srcT.isFp, dstT.isFp with
  | true, true =>
    if src32 && !dst32 then [.instFR ⟨.fcvtDS, .float rd, .float src, none⟩]
    else if !src32 && dst32 then [.instFR ⟨.fcvtSD, .float rd, .float src, none⟩]
    else if rd = src then []
    else [fmov dstT false rd src]
  | true, false =>
    let op : OpFR :=
      match src32, dst32 with
      | false, true => .fcvtWD
      | false, false => .fcvtLD
      | true, true => .fcvtWS
      | true, false => .fcvtLS
    [.instFR ⟨op, .general rd, .float src, none⟩]
  | false, true =>
    let op : OpFR :=
      match dst32, src32 with
      | false, true => .fcvtDW
      | false, false => .fcvtDL
      | true, true => .fcvtSW
      | true, false => .fcvtSL
    [.instFR ⟨op, .float rd, .general src, none⟩]
  | false, false =>
    if src32 && !dst32 then [.instI ⟨.addiw, rd, src, 0⟩] else [.pseudoR ⟨.mv, rd, src⟩]

/-- `CONVERT`. -/
def translateConvert (ctx : Ctx) (pool : List FloatLiteral) (rd : Fin 32) (t : Ty)
    (operand : Value) : Emitted := do
  match lookupReg ctx.regs operand with
  | some src => plain pool (convertReg operand.typeOf t rd src)
  | none =>
    match ← resolveAlloc ctx operand with
    | some a => plain pool (addressOf ctx a rd)
    | none => throw (.compilerError "CONVERT operand is neither register nor alloc")

/-- `translate_unary`. -/
def translateUnary (ctx : Ctx) (pool : List FloatLiteral) (inst : UnaryInst) : Emitted :=
  match inst.result with
  | none => .error (.compilerError "Unary inst has no result (should not reach isel)")
  | some result =>
    match lookupReg ctx.regs (.left result) with
    | none => .error (.compilerError "Unary inst result has no register assigned")
    | some rd =>
      let fp := result.type.isFp
      match inst.op with
      | .mov => translateMov ctx pool rd fp result.type inst.operand
      | .neg => translateNeg ctx pool rd fp result.type inst.operand
      | .not => translateNot ctx pool rd result.type inst.operand
      | .load => translateLoad ctx pool rd inst.operand
      | .borrow | .borrowMut =>
        .error (.compilerError "BORROW should be lowered by AddressLowering")
      | .convert => translateConvert ctx pool rd result.type inst.operand

/-! ## Binary instructions -/

/-- `STORE`. -/
def translateStore (ctx : Ctx) (pool : List FloatLiteral) (lhs rhs : Value) : Emitted := do
  let refAlloc ← resolveAlloc ctx lhs
  match lookupReg ctx.regs rhs with
  | none => throw (.compilerError "STORE value has no register assigned")
  | some val =>
    match refAlloc.bind ctx.spillOffset with
    | some offset =>
      let (insts, base, imm) := resolveAddr regSp offset
      plain pool (insts ++ [storeInst rhs.typeOf val base imm])
    | none =>
      match lookupReg ctx.regs lhs, refAlloc with
      | some base, _ => plain pool [storeInst rhs.typeOf val base 0]
      | none, some a =>
        plain pool [.pseudoL ⟨.la, regT0, a.name⟩, storeInst rhs.typeOf val regT0 0]
      | none, none => throw (.compilerError "STORE target is neither alloc nor register")

/-- An operation on two floating registers. -/
def fpRegReg (op : InstOp) (double : Bool) (rd lhs rhs : Fin 32) : Except Fault (List Inst) :=
  let arith (d s : OpFR) : List Inst :=
    [.instFR ⟨if double then d else s, .float rd, .float lhs, some (.float rhs)⟩]
  let compare (d s : OpFR) (a b : Fin 32) : List Inst :=
    [.instFR ⟨if double then d else s, .general rd, .float a, some (.float b)⟩]
  match op with
  | .add => .ok (arith .faddD .faddS)
  | .sub => .ok (arith .fsubD .fsubS)
  | .mul => .ok (arith .fmulD .fmulS)
  | .div => .ok (arith .fdivD .fdivS)
  | .lt => .ok (compare .fltD .fltS lhs rhs)
  | .gt => .ok (compare .fltD .fltS rhs lhs)
  | .leq => .ok (compare .fleD .fleS lhs rhs)
  | .geq => .ok (compare .fleD .fleS rhs lhs)
  | .eq => .ok (compare .feqD .feqS lhs rhs)
  | .neq => .ok (compare .feqD .feqS lhs rhs ++ [.instI ⟨.xori, rd, rd, 1⟩])
  | _ => .error (.compilerError "Unhandled FP binary op in isel")

/-- `x ^ 1` in the result register. -/
def flip (rd : GeneralReg) : Inst := .instI ⟨.xori, rd, rd, 1⟩

/-- An operation on two general registers. -/
def intRegReg (op : InstOp) (w : Bool) (rd lhs rhs : GeneralReg) : Except Fault (List Inst) :=
  match op with
  | .add => .ok [intRegOp .add .addw w rd lhs rhs]
  | .sub => .ok [intRegOp .sub .subw w rd lhs rhs]
  | .mul => .ok [intRegOp .mul .mulw w rd lhs rhs]
  | .div => .ok [intRegOp .div .divw w rd lhs rhs]
  | .mod => .ok [intRegOp .rem .remw w rd lhs rhs]
  | .shl => .ok [intRegOp .sll .sllw w rd lhs rhs]
  | .shrl => .ok [intRegOp .srl .srlw w rd lhs rhs]
  | .shra => .ok [intRegOp .sra .sraw w rd lhs rhs]
  | .and => .ok [.instR ⟨.and, rd, lhs, rhs⟩]
  | .or => .ok [.instR ⟨.or, rd, lhs, rhs⟩]
  | .lt => .ok [.instR ⟨.slt, rd, lhs, rhs⟩]
  | .gt => .ok [.instR ⟨.slt, rd, rhs, lhs⟩]
  | .leq => .ok [.instR ⟨.slt, rd, rhs, lhs⟩, flip rd]
  | .geq => .ok [.instR ⟨.slt, rd, lhs, rhs⟩, flip rd]
  | .eq => .ok [.instR ⟨.sub, rd, lhs, rhs⟩, .pseudoR ⟨.seqz, rd, rd⟩]
  | .neq => .ok [.instR ⟨.sub, rd, lhs, rhs⟩, .pseudoR ⟨.snez, rd, rd⟩]
  | _ => .error (.compilerError "Unhandled int binary op in isel")

/-- The constant in a register of its own, then the operation. -/
def withConst (tmp : GeneralReg) (c : Word) (insts : List Inst) : List Inst :=
  .pseudoLI ⟨tmp, c⟩ :: insts

/-- An operation on a general register and a constant. Some cases use the constant, and
some its low half, sign-extended. -/
def intRegConst (op : InstOp) (w : Bool) (rd lhs : GeneralReg) (c : Word) :
    Except Fault (List Inst) :=
  let imm := imm32 c
  let imm64 : Word := imm.signExtend 64
  -- `t0` if the result would overwrite the operand
  let tmp := if rd = lhs then regT0 else rd
  match op with
  | .add => .ok (addRegImm rd lhs c w)
  | .lt =>
    .ok (if fitsI12 imm64 then [.instI ⟨.slti, rd, lhs, imm⟩]
      else withConst regT0 c [.instR ⟨.slt, rd, lhs, regT0⟩])
  | .geq =>
    .ok ((if fitsI12 imm64 then [.instI ⟨.slti, rd, lhs, imm⟩]
      else withConst regT0 c [.instR ⟨.slt, rd, lhs, regT0⟩]) ++ [flip rd])
  | .gt =>
    .ok (if fitsI12 (imm64 + 1) then [.instI ⟨.slti, rd, lhs, imm + 1⟩, flip rd]
      else withConst regT0 imm64 [.instR ⟨.slt, rd, regT0, lhs⟩])
  | .leq =>
    .ok (if fitsI12 (imm64 + 1) then [.instI ⟨.slti, rd, lhs, imm + 1⟩]
      else withConst regT0 imm64 [.instR ⟨.slt, rd, regT0, lhs⟩, flip rd])
  | .eq =>
    .ok (withConst regT0 imm64 [.instR ⟨.sub, rd, lhs, regT0⟩, .pseudoR ⟨.seqz, rd, rd⟩])
  | .neq =>
    .ok (withConst regT0 imm64 [.instR ⟨.sub, rd, lhs, regT0⟩, .pseudoR ⟨.snez, rd, rd⟩])
  | .sub => .ok (addRegImm rd lhs (-c) w)
  | .shl => .ok [.instI ⟨if w then .slliw else .slli, rd, lhs, imm⟩]
  | .shrl => .ok [.instI ⟨if w then .srliw else .srli, rd, lhs, imm⟩]
  | .shra => .ok [.instI ⟨if w then .sraiw else .srai, rd, lhs, imm⟩]
  | .mul => .ok (withConst tmp imm64 [intRegOp .mul .mulw w rd lhs tmp])
  | .div => .ok (withConst tmp imm64 [intRegOp .div .divw w rd lhs tmp])
  | .mod => .ok (withConst tmp imm64 [intRegOp .rem .remw w rd lhs tmp])
  | .and => .ok (withConst tmp imm64 [.instR ⟨.and, rd, lhs, tmp⟩])
  | .or => .ok (withConst tmp imm64 [.instR ⟨.or, rd, lhs, tmp⟩])
  | _ => .error (.compilerError "Unhandled int-imm binary op in isel")

/-- An operation on a constant and a general register. -/
def intConstReg (op : InstOp) (w : Bool) (rd rhs : GeneralReg) (c : Word) :
    Except Fault (List Inst) :=
  let tmp := if rd = rhs then regT0 else rd
  match op with
  | .add => .ok (addRegImm rd rhs c w)
  | .mul => .ok (withConst tmp c [intRegOp .mul .mulw w rd rhs tmp])
  | .and => .ok (withConst tmp c [.instR ⟨.and, rd, rhs, tmp⟩])
  | .or => .ok (withConst tmp c [.instR ⟨.or, rd, rhs, tmp⟩])
  | .eq => .ok (withConst tmp c [.instR ⟨.sub, rd, rhs, tmp⟩, .pseudoR ⟨.seqz, rd, rd⟩])
  | .neq => .ok (withConst tmp c [.instR ⟨.sub, rd, rhs, tmp⟩, .pseudoR ⟨.snez, rd, rd⟩])
  | .sub => .ok (withConst tmp c [intRegOp .sub .subw w rd tmp rhs])
  | .div => .ok (withConst tmp c [intRegOp .div .divw w rd tmp rhs])
  | .mod => .ok (withConst tmp c [intRegOp .rem .remw w rd tmp rhs])
  | .gt =>
    -- outside the range of `slti` the operands stand the other way round
    .ok (if fitsI12 c then [.instI ⟨.slti, rd, rhs, imm32 c⟩]
      else withConst regT0 c [.instR ⟨.slt, rd, regT0, rhs⟩])
  | .leq =>
    .ok (if fitsI12 c then [.instI ⟨.slti, rd, rhs, imm32 c⟩, flip rd]
      else withConst regT0 c [.instR ⟨.slt, rd, regT0, rhs⟩, flip rd])
  | .lt => .ok (withConst regT0 c [.instR ⟨.slt, rd, regT0, rhs⟩])
  | .geq => .ok (withConst regT0 c [.instR ⟨.slt, rd, regT0, rhs⟩, flip rd])
  | _ => .error (.compilerError "Unhandled const-lhs binary op in isel")

/-- The constant an operand is, if `extract_imm` finds none in it. -/
def literalOf (v : Value) : Option ConstexprValue :=
  match v with
  | .const c => if (extractImm c).isNone then some c else none
  | .left _ => none

/-- An operand of a floating-point operation: a register, or a literal loaded into `ft0`. -/
def fpOperand (ctx : Ctx) (pool : List FloatLiteral) (v : Value) :
    List Inst × List FloatLiteral × Option (Fin 32) :=
  match lookupReg ctx.regs v, literalOf v with
  | some r, _ => ([], pool, some r)
  | none, some c =>
    let (insts, pool) := loadFloatConst pool c v.typeOf regFt0
    (insts, pool, some 5)
  | none, none => ([], pool, none)

/-- The operands of a binary instruction that are not both in floating registers. -/
def translateInt (op : InstOp) (w : Bool) (rd : Fin 32) (lhs rhs : Option (Fin 32))
    (lhsVal rhsVal : Value) : Except Fault (List Inst) :=
  match lhs, rhs, lhsVal, rhsVal with
  | some l, some r, _, _ => intRegReg op w rd l r
  | some l, none, _, .const c =>
    match extractImm c with
    | some imm => intRegConst op w rd l imm
    | none => .error (.compilerError "Binary op RHS constexpr is not an extractable integer")
  | none, some r, .const c, _ =>
    match extractImm c with
    | some imm => intConstReg op w rd r imm
    | none => .error (.compilerError "Binary op LHS constexpr is not an extractable integer")
  | _, _, _, _ => .error (.compilerError "Binary inst has no translatable operand pattern")

/-- `translate_binary`. -/
def translateBinary (ctx : Ctx) (pool : List FloatLiteral) (inst : BinaryInst) : Emitted := do
  match inst.result with
  | none =>
    if inst.op ≠ .store then
      throw (.compilerError "Binary inst with no result that is not STORE")
    translateStore ctx pool inst.lhs inst.rhs
  | some result =>
    match lookupReg ctx.regs (.left result) with
    | none => throw (.compilerError "Binary inst result has no register assigned")
    | some rd =>
      let lt := inst.lhs.typeOf
      let rt := inst.rhs.typeOf
      let fp := lt.isFp || rt.isFp
      if fp && !lt.eqv rt then throw (.compilerError "Type mismatch for FP binary op")
      let t := if (← size lt) < (← size rt) then rt else lt
      let w := is32BitOp t
      let lhs := lookupReg ctx.regs inst.lhs
      let rhs := lookupReg ctx.regs inst.rhs
      if fp then
        if lhs.isNone && rhs.isNone then
          throw (.compilerError "At least one operand of an FP binary op must be a register")
        let (left, pool, lhs) := fpOperand ctx pool inst.lhs
        let (right, pool, rhs) := fpOperand ctx pool inst.rhs
        match lhs, rhs with
        | some l, some r => return (left ++ right ++ (← fpRegReg inst.op (!w) rd l r), pool)
        | _, _ =>
          return (left ++ right ++ (← translateInt inst.op w rd lhs rhs inst.lhs inst.rhs), pool)
      else return (← translateInt inst.op w rd lhs rhs inst.lhs inst.rhs, pool)

/-! ## Calls -/

/-- A register argument goes to its slot on the stack. -/
def storeArg (t : Ty) (val : Fin 32) (offset : Word) : List Inst :=
  let (insts, base, imm) := resolveAddr regSp offset
  insts ++ [storeInst t val base imm]

/-- One argument that has no register, into its slot. -/
def stackArg (ctx : Ctx) (pool : List FloatLiteral) (arg : Value) (offset : Nat) :
    List Inst × List FloatLiteral :=
  let off := BitVec.ofNat 32 offset
  match lookupReg ctx.regs arg, arg with
  | some val, _ => (storeArg arg.typeOf val (off.signExtend 64), pool)
  | none, .const c =>
    match extractImm c with
    | some imm => ([.pseudoLI ⟨regT0, imm⟩, .instI ⟨.sd, regT0, regSp, off⟩], pool)
    | none =>
      if arg.typeOf.isFp then
        let (insts, pool) := loadFloatConst pool c arg.typeOf regFt0
        (insts ++ [.instFI ⟨if is32BitOp arg.typeOf then .fsw else .fsd, regFt0, regSp, off⟩], pool)
      else ([], pool)
  | none, .left _ => ([], pool)

/-- The arguments of a call: those without a register get slots of eight bytes. -/
def stackArgs (ctx : Ctx) : List FloatLiteral → Nat → List (Value × Option Nat) →
    List Inst × List FloatLiteral
  | pool, _, [] => ([], pool)
  | pool, offset, (_, some _) :: args => stackArgs ctx pool offset args
  | pool, offset, (arg, none) :: args =>
    let (insts, pool) := stackArg ctx pool arg offset
    let (rest, pool) := stackArgs ctx pool (offset + 8) args
    (insts ++ rest, pool)

/-- `translate_call`. -/
def translateCall (ctx : Ctx) (pool : List FloatLiteral) (inst : CallInst) : Emitted := do
  let regs ← Lowering.assignArgRegs inst.args abi
  let (insts, pool) := stackArgs ctx pool 0 (inst.args.zip regs)
  return (insts ++ [.pseudoJ ⟨.call, ← nameOf ctx inst.func.defn⟩], pool)

/-- `translate_inst`. -/
def translateInst (ctx : Ctx) (pool : List FloatLiteral) : Ir.Inst → Emitted
  | .unary u => translateUnary ctx pool u
  | .binary b => translateBinary ctx pool b
  | .call c => translateCall ctx pool c
  | .phi _ => .error (.compilerError "PhiInst should be eliminated before isel")

/-! ## Blocks and functions -/

/-- The label of a block of the function. -/
def labelOf (f : Ir.Func) (b : Ir.BlockId) : Except Fault String :=
  match f.block? b with
  | some blk => .ok (blockLabel f.name blk.label)
  | none => .error .nullPointer

/-- `translate_exit`. -/
def translateExit (ctx : Ctx) (f : Ir.Func) : Exit → Except Fault (List Inst)
  | .ret _ => .ok [.pseudoJ ⟨.j, ".L" ++ f.name ++ "_epilogue"⟩]
  | .jump target => do return [.pseudoJ ⟨.j, ← labelOf f target⟩]
  | .branch cond trueTarget falseTarget =>
    match lookupReg ctx.regs cond with
    | none => .error (.compilerError "Branch condition must be GPR")
    | some c => do
      return [.pseudoB ⟨.bnez, c, ← labelOf f trueTarget⟩, .pseudoJ ⟨.j, ← labelOf f falseTarget⟩]

/-- The instructions of a block in their order. -/
def translateInsts (ctx : Ctx) : List FloatLiteral → List Ir.Inst → Emitted
  | pool, [] => .ok ([], pool)
  | pool, i :: is => do
    let (insts, pool) ← translateInst ctx pool i
    let (rest, pool) ← translateInsts ctx pool is
    return (insts ++ rest, pool)

/-- A block with its exit. -/
def translateBlock (ctx : Ctx) (f : Ir.Func) (pool : List FloatLiteral) (b : Ir.Block) :
    Except Fault (Block × List FloatLiteral) := do
  let (insts, pool) ← translateInsts ctx pool b.insts
  match b.exit with
  | none => throw .nullPointer
  | some e => return (⟨blockLabel f.name b.label, insts ++ (← translateExit ctx f e)⟩, pool)

def translateBlocks (ctx : Ctx) (f : Ir.Func) :
    List FloatLiteral → List Ir.Block → Except Fault (List Block × List FloatLiteral)
  | pool, [] => .ok ([], pool)
  | pool, b :: bs => do
    let (blk, pool) ← translateBlock ctx f pool b
    let (rest, pool) ← translateBlocks ctx f pool bs
    return (blk :: rest, pool)

/-- `emit_add_sp`. -/
def addSp (delta : Word) : List Inst :=
  if fitsI12 delta then [.instI ⟨.addi, regSp, regSp, imm32 delta⟩]
  else [.pseudoLI ⟨regT0, delta⟩, .instR ⟨.add, regSp, regSp, regT0⟩]

/-- The stores of some bytes from an address on, four, two or one at a time. -/
def storeBytesAt (base : GeneralReg) (data : List (BitVec 8)) (off : Word) : List Inst :=
  match data with
  | a :: b :: c :: d :: rest =>
    [.pseudoLI ⟨regT0, (d ++ c ++ b ++ a : BitVec 32).signExtend 64⟩,
      .instI ⟨.sw, regT0, base, imm32 off⟩] ++ storeBytesAt base rest (off + 4)
  | a :: b :: rest =>
    [.pseudoLI ⟨regT0, (b ++ a : BitVec 16).setWidth 64⟩, .instI ⟨.sh, regT0, base, imm32 off⟩] ++
      storeBytesAt base rest (off + 2)
  | [a] => [.pseudoLI ⟨regT0, a.setWidth 64⟩, .instI ⟨.sb, regT0, base, imm32 off⟩]
  | [] => []

/-- `emit_store_bytes`. -/
def storeBytes (data : List (BitVec 8)) (base : GeneralReg) (off : Word) : List Inst :=
  if fitsI12 off && fitsI12 (off + BitVec.ofNat 64 data.length) then storeBytesAt base data off
  else addRegImm regT1 base off false ++ storeBytesAt regT1 data 0

/-- The initial value of a local, as a number. -/
def scalarInit : Payload → Option Word
  | .int v => some (v.signExtend 64)
  | .int64 v => some v
  | .float v => some (v.setWidth 64)
  | .double v => some v
  | .bool v => some (if v then 1 else 0)
  | _ => none

/-- The stores that initialise a local. -/
def initLocal (ctx : Ctx) (a : Alloc) : Except Fault (List Inst) :=
  match a.init, ctx.spillOffset a with
  | some init, some off => do
    let sz ← size a.type
    match init.val with
    | .bytes buf => return storeBytes (buf.take sz) regSp off
    | val =>
      match scalarInit val with
      | none => return []
      | some v =>
        let op : OpI := if sz = 8 then .sd else if sz = 4 then .sw else if sz = 2 then .sh else .sb
        if fitsI12 off then return [.pseudoLI ⟨regT0, v⟩, .instI ⟨op, regT0, regSp, imm32 off⟩]
        else
          return .pseudoLI ⟨regT0, v⟩ :: addRegImm regT1 regSp off false ++
            [.instI ⟨op, regT0, regT1, 0⟩]
  | _, _ => .ok []

/-- The visited blocks and the order of `post_order` after the blocks reachable from one
of them; no path visits more blocks than there are. -/
def visit (f : Ir.Func) : Nat → List Ir.BlockId × List Ir.BlockId → Ir.BlockId →
    List Ir.BlockId × List Ir.BlockId
  | 0, s, _ => s
  | fuel + 1, (visited, order), b =>
    if b ∈ visited then (visited, order)
    else
      let targets := ((f.block? b).map Ir.Block.targets).getD []
      let (visited, order) := targets.foldl (visit f fuel) (b :: visited, order)
      (visited, order ++ [b])

/-- `reverse_post_order`. -/
def reversePostOrder (f : Ir.Func) : List Ir.Block :=
  match f.entrance with
  | none => []
  | some e => (visit f (f.blocks.length + 1) ([], []) e.id).2.reverse.filterMap f.block?

/-- `translate_func`. -/
def translateFunc (alloc : AllocId → Option Alloc) (regs : ColorMap) (pool : List FloatLiteral)
    (f : Ir.Func) : Except Fault (Func × List FloatLiteral) := do
  let frame ← computeFrame f
  let ctx : Ctx := ⟨alloc, frame, regs⟩
  let total := BitVec.ofNat 64 frame.totalSize
  let inits ← f.locals.mapM (initLocal ctx)
  let prologue := (if frame.totalSize > 0 then addSp (-total) else []) ++ inits.flatten ++
    [.pseudoJ ⟨.j, ".L" ++ f.name ++ "_entry"⟩]
  let (blocks, pool) ← translateBlocks ctx f pool (reversePostOrder f)
  let epilogue := (if frame.totalSize > 0 then addSp total else []) ++ [.pseudoRet]
  return (⟨f.name, ⟨f.name, prologue⟩ :: blocks ++ [⟨".L" ++ f.name ++ "_epilogue", epilogue⟩]⟩,
    pool)

def translateFuncs (alloc : AllocId → Option Alloc) (regs : ColorMap) :
    List FloatLiteral → List Ir.Func → Except Fault (List Func × List FloatLiteral)
  | pool, [] => .ok ([], pool)
  | pool, f :: fs => do
    let (func, pool) ← translateFunc alloc regs pool f
    let (rest, pool) ← translateFuncs alloc regs pool fs
    return (func :: rest, pool)

/-- The allocation at an address. -/
def findAlloc (p : Ir.Program) (a : AllocId) : Option Alloc :=
  (p.globals ++ p.funcs.flatMap fun f => f.params ++ f.locals).find? fun alloc => alloc.id == a

/-- `lower`. -/
def lower (p : Ir.Program) (regs : ColorMap) : Except Fault Module := do
  let globals := p.globals.filter fun g => (regs.lookup g.value.left.var).isNone
  let (funcs, pool) ← translateFuncs (findAlloc p) regs [] p.funcs
  return ⟨globals.map fun g => ⟨g.name, g.type, g.init, g.comptime⟩, funcs, pool⟩

end Isel
end Rv64
end Cact
