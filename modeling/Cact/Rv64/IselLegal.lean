import Cact.Lib.Exact
import Cact.Rv64.IselBinary

/-!
# Immediates of the selected code (`rv64/isel.hpp`)

Which immediates the encodings have room for, and the programs whose code keeps to them.

- `Imm12`, `Inst.Legal`: an immediate of 12 signed bits, a shift within its width.
- `LegalIff`: when the code of a translation is legal, with one lemma for each of the
  functions that emit code.
- `lower_legal_iff`: the programs whose code is legal.
-/

namespace Cact

namespace Rv64

open Ir (Ty Fault ConstexprValue Payload Value LeftValue Alloc InstOp UnaryInst BinaryInst CallInst)

/-! ## Legal instructions -/

/-- The immediate fits in 12 signed bits. -/
def Imm12 (imm : BitVec 32) : Prop := -2048 ≤ imm.toInt ∧ imm.toInt ≤ 2047

instance (imm : BitVec 32) : Decidable (Imm12 imm) := inferInstanceAs (Decidable (_ ∧ _))

@[simp] theorem imm12_zero : Imm12 0#32 := by decide

@[simp] theorem imm12_one : Imm12 1#32 := by decide

/-- The encoding has room for the immediate. -/
def InstI.Legal (i : InstI) : Prop :=
  match i.op with
  | .slli | .srli | .srai => i.imm.toNat < 64
  | .slliw | .srliw | .sraiw => i.imm.toNat < 32
  | _ => Imm12 i.imm

/-- The encoding of the instruction has room for its immediate. -/
def Inst.Legal : Inst → Prop
  | .instI i => i.Legal
  | .instFI i => Imm12 i.imm
  | _ => True

@[simp] theorem legal_instI (i : InstI) : (Inst.instI i).Legal ↔ i.Legal := Iff.rfl

@[simp] theorem legal_instFI (i : InstFI) : (Inst.instFI i).Legal ↔ Imm12 i.imm := Iff.rfl

@[simp] theorem legal_instR (i : InstR) : (Inst.instR i).Legal := trivial

@[simp] theorem legal_instFR (i : InstFR) : (Inst.instFR i).Legal := trivial

@[simp] theorem legal_pseudoR (i : PseudoR) : (Inst.pseudoR i).Legal := trivial

@[simp] theorem legal_pseudoLI (i : PseudoLI) : (Inst.pseudoLI i).Legal := trivial

@[simp] theorem legal_pseudoL (i : PseudoL) : (Inst.pseudoL i).Legal := trivial

@[simp] theorem legal_pseudoB (i : PseudoB) : (Inst.pseudoB i).Legal := trivial

@[simp] theorem legal_pseudoJ (i : PseudoJ) : (Inst.pseudoJ i).Legal := trivial

@[simp] theorem legal_pseudoRet : Inst.pseudoRet.Legal := trivial

instance (i : InstI) : Decidable i.Legal := by
  unfold InstI.Legal
  split <;> infer_instance

instance : (i : Inst) → Decidable i.Legal
  | .instI i => inferInstanceAs (Decidable i.Legal)
  | .instFI i => inferInstanceAs (Decidable (Imm12 i.imm))
  | .instR _ | .instFR _ | .instB _ | .instJ _ | .instU _ | .pseudoR _ | .pseudoLI _ | .pseudoL _
  | .pseudoB _ | .pseudoJ _ | .pseudoRet => .isTrue trivial

/-- Every instruction is legal. -/
def AllLegal (insts : List Inst) : Prop := ∀ i ∈ insts, i.Legal

@[simp] theorem allLegal_nil : AllLegal [] := fun _ h => by cases h

@[simp] theorem allLegal_cons {i : Inst} {is : List Inst} :
    AllLegal (i :: is) ↔ i.Legal ∧ AllLegal is := List.forall_mem_cons

@[simp] theorem allLegal_append {is js : List Inst} :
    AllLegal (is ++ js) ↔ AllLegal is ∧ AllLegal js := List.forall_mem_append

theorem allLegal_flatMap {α : Type} {code : α → List Inst} {as : List α} :
    AllLegal (as.flatMap code) ↔ ∀ a ∈ as, AllLegal (code a) := by
  unfold AllLegal
  simp only [List.mem_flatMap]
  constructor
  · intro h a ha i hi
    exact h i ⟨a, ha, hi⟩
  · rintro h i ⟨a, ha, hi⟩
    exact h a ha i hi

/-- The code of a translation, if there is one, is legal exactly when the condition holds. -/
def LegalIff {α : Type} (code : α → List Inst) (x : Except Fault α) (C : Prop) : Prop :=
  ∀ a, x = .ok a → (AllLegal (code a) ↔ C)

namespace LegalIff

variable {α β : Type} {code : α → List Inst} {C D : Prop}

theorem of_error (e : Fault) : LegalIff code (.error e) C := fun _ h => by cases h

theorem of_ok {a : α} (h : AllLegal (code a) ↔ C) : LegalIff code (.ok a) C := by
  rintro _ ⟨⟩
  exact h

theorem bind {x : Except Fault β} {f : β → Except Fault α}
    (h : ∀ b, x = .ok b → LegalIff code (f b) C) : LegalIff code (x >>= f) C := by
  intro a ha
  obtain ⟨b, hb, hfb⟩ := Except.bind_eq_ok.mp ha
  exact h b hb a hfb

end LegalIff

namespace Isel

/-! ## Short offsets -/

section Offsets

variable {c off : Word} {rd base : GeneralReg} {t : Ty}

theorem imm12_of_fits (h : fitsI12 c = true) : Imm12 (imm32 c) := by
  unfold Imm12
  rw [toInt_setWidth_of_fits h]
  have := fitsI12_iff.mp h
  omega

theorem fits_signExtend_iff {imm : BitVec 32} :
    fitsI12 (imm.signExtend 64) = true ↔ Imm12 imm := by
  rw [fitsI12_iff, BitVec.toInt_signExtend_of_le (by omega)]
  unfold Imm12
  omega

/-- The immediate after the one of a short comparison. -/
theorem imm12_succ {imm : BitVec 32} (h : fitsI12 (imm.signExtend 64 + 1) = true) :
    Imm12 (imm + 1) := by
  have himm : imm32 (imm.signExtend 64 + 1) = imm + 1 := by
    have hlow : imm32 (imm.signExtend 64) = imm := by
      refine BitVec.eq_of_getLsbD_eq fun i hi => ?_
      rw [imm32, BitVec.getLsbD_setWidth, BitVec.getLsbD_signExtend]
      simp [hi, show i < 64 by omega]
    rw [imm32, BitVec.setWidth_add _ _ (by omega)]
    exact congrArg (· + 1) hlow
  exact himm ▸ imm12_of_fits h

/-- Adding a constant. -/
theorem addRegImm_legal (rd rs : GeneralReg) (c : Word) (w : Bool) :
    AllLegal (addRegImm rd rs c w) := by
  unfold addRegImm
  by_cases hfit : fitsI12 c = true
  · rw [if_pos hfit]
    have := imm12_of_fits hfit
    cases w <;> simp [InstI.Legal, this]
  · rw [if_neg hfit]
    simp [intRegOp]

theorem resolveAddr_legal (base : GeneralReg) (off : Word) :
    AllLegal (resolveAddr base off).1 ∧ Imm12 (resolveAddr base off).2.2 := by
  unfold resolveAddr
  by_cases hfit : fitsI12 off = true
  · rw [if_pos hfit]
    exact ⟨allLegal_nil, imm12_of_fits hfit⟩
  · rw [if_neg hfit]
    exact ⟨addRegImm_legal _ _ _ _, imm12_zero⟩

@[simp] theorem loadInst_legal (imm : BitVec 32) : (loadInst t rd base imm).Legal ↔ Imm12 imm := by
  unfold loadInst
  split
  · rfl
  · cases isInt1 t <;> cases is32BitOp t <;> rfl

@[simp] theorem storeInst_legal (imm : BitVec 32) : (storeInst t rd base imm).Legal ↔ Imm12 imm := by
  unfold storeInst
  split
  · rfl
  · cases isInt1 t <;> cases is32BitOp t <;> rfl

/-- An access at an offset from a register. -/
theorem access_legal {access : GeneralReg → BitVec 32 → Inst}
    (h : ∀ {b imm}, (access b imm).Legal ↔ Imm12 imm) (base : GeneralReg) (off : Word) :
    AllLegal ((resolveAddr base off).1 ++
      [access (resolveAddr base off).2.1 (resolveAddr base off).2.2]) := by
  obtain ⟨hinsts, himm⟩ := resolveAddr_legal base off
  exact allLegal_append.mpr ⟨hinsts, allLegal_cons.mpr ⟨h.mpr himm, allLegal_nil⟩⟩

theorem addressOf_legal (ctx : Ctx) (a : Alloc) (rd : GeneralReg) :
    AllLegal (addressOf ctx a rd) := by
  unfold addressOf
  split
  · exact addRegImm_legal _ _ _ _
  · simp

theorem loadFloatConst_legal (pool : List FloatLiteral) (c : ConstexprValue) (t : Ty) (rd : FloatReg) :
    AllLegal (loadFloatConst pool c t rd).1 := by
  simp [loadFloatConst]

end Offsets

/-! ## Single instructions -/

section Instructions

variable {ctx : Ctx} {pool : List FloatLiteral} {rd l r : Fin 32} {fp w : Bool} {t : Ty}
  {operand : Value} {op : InstOp} {c : Word}

/-- Code without immediates that could be too large. -/
theorem legalIff_plain {insts : List Inst} {C : Prop} (h : AllLegal insts ↔ C) :
    LegalIff Prod.fst (plain pool insts) C := .of_ok h

theorem legal_plain {insts : List Inst} (h : AllLegal insts) :
    LegalIff Prod.fst (plain pool insts) True := .of_ok (iff_true_intro h)

theorem translateMov_legal : LegalIff Prod.fst (translateMov ctx pool rd fp t operand) True := by
  unfold translateMov
  cases operand with
  | const c =>
    dsimp only
    split
    · exact legal_plain (by simp)
    · split
      · exact .of_ok (iff_true_intro (loadFloatConst_legal _ _ _ _))
      · exact legal_plain allLegal_nil
  | left v =>
    dsimp only
    split
    · split
      · exact legal_plain allLegal_nil
      · split
        · exact legal_plain (by simp [fmov])
        · exact legal_plain (by simp)
    · refine .bind fun a _ => ?_
      split
      · split
        · split
          · exact legal_plain (by simp)
          · exact legal_plain (by simp)
        · exact legal_plain (addressOf_legal _ _ _)
      · exact .of_error _

theorem translateNeg_legal : LegalIff Prod.fst (translateNeg ctx pool rd fp t operand) True := by
  unfold translateNeg
  split
  · split
    · exact legal_plain (by simp [fmov])
    · exact legal_plain (by simp)
  · split
    · exact .of_error _
    · split
      · split
        · exact legal_plain (by simp)
        · exact .of_error _
      · exact .of_error _

theorem translateNot_legal : LegalIff Prod.fst (translateNot ctx pool rd t operand) True := by
  unfold translateNot
  split
  · split
    · exact legal_plain (by simp [InstI.Legal])
    · exact legal_plain (by simp)
  · split
    · split
      · exact legal_plain (by simp)
      · exact .of_error _
    · exact .of_error _

theorem translateLoad_legal : LegalIff Prod.fst (translateLoad ctx pool rd operand) True := by
  unfold translateLoad
  refine .bind fun a _ => .bind fun elem _ => ?_
  split
  · exact legal_plain (access_legal (loadInst_legal _) _ _)
  · split
    · exact legal_plain (by simp)
    · refine .bind fun sz _ => ?_
      split
      · exact legal_plain (by simp)
      · split
        · exact legal_plain (by simp [InstI.Legal])
        · exact legal_plain (by simp)
    · exact .of_error _

theorem convertReg_legal (srcT dstT : Ty) (rd src : Fin 32) :
    AllLegal (convertReg srcT dstT rd src) := by
  unfold convertReg
  cases srcT.isFp <;> cases dstT.isFp <;> dsimp only
  · split <;> simp [InstI.Legal]
  · simp
  · simp
  · split
    · simp
    · split
      · simp
      · split <;> simp [fmov]

theorem translateConvert_legal :
    LegalIff Prod.fst (translateConvert ctx pool rd t operand) True := by
  unfold translateConvert
  split
  · exact legal_plain (convertReg_legal _ _ _ _)
  · refine .bind fun a _ => ?_
    split
    · exact legal_plain (addressOf_legal _ _ _)
    · exact .of_error _

theorem translateUnary_legal (inst : UnaryInst) :
    LegalIff Prod.fst (translateUnary ctx pool inst) True := by
  unfold translateUnary
  split
  · exact .of_error _
  · split
    · exact .of_error _
    · split
      · exact translateMov_legal
      · exact translateNeg_legal
      · exact translateNot_legal
      · exact translateLoad_legal
      · exact .of_error _
      · exact .of_error _
      · exact translateConvert_legal

theorem translateStore_legal (lhs rhs : Value) :
    LegalIff Prod.fst (translateStore ctx pool lhs rhs) True := by
  unfold translateStore
  refine .bind fun a _ => ?_
  split
  · exact .of_error _
  · split
    · exact legal_plain (access_legal (storeInst_legal _) _ _)
    · split
      · exact legal_plain (by simp)
      · exact legal_plain (by simp)
      · exact .of_error _

theorem flip_legal (rd : GeneralReg) : (flip rd).Legal := imm12_one

theorem intRegReg_legal : LegalIff id (intRegReg op w rd l r) True := by
  unfold intRegReg
  cases op <;> first | exact .of_error _ | exact .of_ok (by simp [intRegOp, flip_legal])

/-- The operators that take a shift amount. -/
def shifts : List InstOp := [.shl, .shrl, .shra]

/-- A shift amount has to be less than the width; other constants may be any. -/
theorem intRegConst_legal : LegalIff id (intRegConst op w rd l c)
    (op ∈ shifts → (imm32 c).toNat < if w then 32 else 64) := by
  unfold intRegConst withConst
  cases op with
  | add => exact .of_ok (by simp [addRegImm_legal, shifts])
  | sub => exact .of_ok (by simp [addRegImm_legal, shifts])
  | lt =>
    refine .of_ok ?_
    split
    · simp [InstI.Legal, fits_signExtend_iff.mp ‹_›, shifts]
    · simp [shifts]
  | geq =>
    refine .of_ok ?_
    split
    · simp [InstI.Legal, fits_signExtend_iff.mp ‹_›, shifts, flip_legal]
    · simp [shifts, flip_legal]
  | gt =>
    refine .of_ok ?_
    split
    · have himm := imm12_succ ‹_›
      simpa [InstI.Legal, shifts, flip_legal] using himm
    · simp [shifts]
  | leq =>
    refine .of_ok ?_
    split
    · have himm := imm12_succ ‹_›
      simpa [InstI.Legal, shifts] using himm
    · simp [shifts, flip_legal]
  | shl => exact .of_ok (by cases w <;> simp [InstI.Legal, shifts])
  | shrl => exact .of_ok (by cases w <;> simp [InstI.Legal, shifts])
  | shra => exact .of_ok (by cases w <;> simp [InstI.Legal, shifts])
  | eq => exact .of_ok (by simp [shifts])
  | neq => exact .of_ok (by simp [shifts])
  | mul => exact .of_ok (by simp [shifts, intRegOp])
  | div => exact .of_ok (by simp [shifts, intRegOp])
  | mod => exact .of_ok (by simp [shifts, intRegOp])
  | and => exact .of_ok (by simp [shifts])
  | or => exact .of_ok (by simp [shifts])
  | _ => exact .of_error _

theorem intConstReg_legal : LegalIff id (intConstReg op w rd r c) True := by
  unfold intConstReg withConst
  cases op with
  | gt =>
    refine .of_ok ?_
    split
    · simp [InstI.Legal, imm12_of_fits ‹_›]
    · simp
  | leq =>
    refine .of_ok ?_
    split
    · simp [InstI.Legal, imm12_of_fits ‹_›, flip_legal]
    · simp [flip_legal]
  | shl => exact .of_error _
  | shrl => exact .of_error _
  | shra => exact .of_error _
  | store => exact .of_error _
  | loadElem => exact .of_error _
  | borrowElem => exact .of_error _
  | borrowElemMut => exact .of_error _
  | _ => exact .of_ok (by simp [addRegImm_legal, intRegOp, flip_legal])

/-- The width that a binary instruction works at. -/
def shiftWidth (lt rt : Ty) : Nat :=
  match size lt, size rt with
  | .ok a, .ok b => if is32BitOp (if a < b then rt else lt) then 32 else 64
  | _, _ => 64

/-- A constant shift amount is less than the width. -/
def BinaryFits (inst : BinaryInst) : Prop :=
  inst.op ∈ shifts → ∀ c imm, inst.rhs = .const c → extractImm c = some imm →
    (imm32 imm).toNat < shiftWidth inst.lhs.typeOf inst.rhs.typeOf

/-- There are no shifts of floating-point values. -/
theorem fpRegReg_legal (double : Bool) (C : Prop) :
    LegalIff id (fpRegReg op double rd l r) (op ∈ shifts → C) := by
  unfold fpRegReg
  cases op <;> first | exact .of_error _ | exact .of_ok (by simp [InstI.Legal, shifts])

theorem fpOperand_legal (ctx : Ctx) (pool : List FloatLiteral) (v : Value) :
    AllLegal (fpOperand ctx pool v).1 := by
  unfold fpOperand
  split
  · exact allLegal_nil
  · rename_i c _ _
    exact loadFloatConst_legal pool c v.typeOf regFt0
  · exact allLegal_nil

/-- A constant that is in a register is not a number that can be extracted. -/
theorem fpOperand_isSome {c : ConstexprValue} (h : (fpOperand ctx pool (.const c)).2.2.isSome) :
    extractImm c = none := by
  unfold fpOperand at h
  cases himm : extractImm c with
  | none => rfl
  | some imm => simp [lookupReg, literalOf, himm] at h

/-- The constant on the right is a shift amount within the width. -/
def AmountFits (op : InstOp) (w : Bool) (rhsVal : Value) : Prop :=
  op ∈ shifts → ∀ c imm, rhsVal = .const c → extractImm c = some imm →
    (imm32 imm).toNat < if w then 32 else 64

theorem amountFits_left (v : LeftValue) : AmountFits op w (.left v) ↔ True :=
  iff_true_intro fun _ _ _ h => by cases h

theorem amountFits_const {c : ConstexprValue} {imm : Word} (h : extractImm c = some imm) :
    AmountFits op w (.const c) ↔ (op ∈ shifts → (imm32 imm).toNat < if w then 32 else 64) := by
  constructor
  · intro hfits hop
    exact hfits hop c imm rfl h
  · rintro hfits hop _ imm' ⟨⟩ himm'
    rw [h] at himm'
    exact Option.some.inj himm' ▸ hfits hop

theorem amountFits_of_none {rhsVal : Value} (h : ∀ c, rhsVal = .const c → extractImm c = none) :
    AmountFits op w rhsVal ↔ True := by
  refine iff_true_intro fun _ c imm hc himm => ?_
  rw [h c hc] at himm
  cases himm

/-- A constant amount is used where the right operand has no register. -/
theorem translateInt_legal (lhs rhs : Option (Fin 32)) (lhsVal rhsVal : Value)
    (hrhs : rhs.isSome → ∀ c, rhsVal = .const c → extractImm c = none) :
    LegalIff id (translateInt op w rd lhs rhs lhsVal rhsVal) (AmountFits op w rhsVal) := by
  unfold translateInt
  cases rhs with
  | some r =>
    rw [amountFits_of_none (hrhs rfl)]
    cases lhs with
    | some l => exact intRegReg_legal
    | none =>
      cases lhsVal with
      | left => exact .of_error _
      | const c =>
        dsimp only
        split
        · exact intConstReg_legal
        · exact .of_error _
  | none =>
    cases lhs with
    | none => exact .of_error _
    | some l =>
      cases rhsVal with
      | left => exact .of_error _
      | const c =>
        dsimp only
        cases himm : extractImm c with
        | none => exact .of_error _
        | some imm =>
          rw [amountFits_const himm]
          exact intRegConst_legal

/-- Code in front of that of an operation. -/
theorem LegalIff.prepend {x : Except Fault (List Inst)} {C : Prop} {front : List Inst}
    (hfront : AllLegal front) (h : LegalIff id x C) (pool : List FloatLiteral) :
    LegalIff Prod.fst (do return (front ++ (← x), pool)) C := by
  refine .bind fun insts hinsts => .of_ok ?_
  rw [allLegal_append, ← h insts hinsts]
  exact and_iff_right hfront

/-- Of a binary instruction only the shift amount can be too large. -/
theorem translateBinary_legal (inst : BinaryInst) :
    LegalIff Prod.fst (translateBinary ctx pool inst) (BinaryFits inst) := by
  unfold translateBinary
  split
  · dsimp only
    split
    · exact .of_error _
    · rename_i hstore
      have htrue : BinaryFits inst ↔ True := by
        refine iff_true_intro fun h => ?_
        rw [not_not.mp hstore] at h
        exact absurd h (by decide)
      rw [htrue]
      exact translateStore_legal _ _
  · split
    · exact .of_error _
    · rename_i rd _
      dsimp only
      split
      · exact .of_error _
      · refine .bind fun a ha => .bind fun b hb => ?_
        have hfits : ∀ w, w = is32BitOp (if a < b then inst.rhs.typeOf else inst.lhs.typeOf) →
            (BinaryFits inst ↔ AmountFits inst.op w inst.rhs) := by
          rintro w rfl
          simp only [BinaryFits, AmountFits, shiftWidth, ha, hb]
        rw [hfits _ rfl]
        split
        · split
          · exact .of_error _
          · -- a floating-point operation: its literals are loaded first
            have hfront := allLegal_append.mpr ⟨fpOperand_legal ctx pool inst.lhs,
              fpOperand_legal ctx (fpOperand ctx pool inst.lhs).2.1 inst.rhs⟩
            split
            · exact LegalIff.prepend hfront (fpRegReg_legal _ _) _
            · refine LegalIff.prepend hfront (translateInt_legal _ _ _ _ ?_) _
              rintro hsome c hc
              rw [hc] at hsome
              exact fpOperand_isSome hsome
        · refine LegalIff.prepend allLegal_nil (translateInt_legal _ _ _ _ ?_) _
          rintro hsome c hc
          rw [hc] at hsome
          cases hsome

end Instructions

/-! ## Calls -/

section Calls

variable {ctx : Ctx}

/-- The argument is a constant that is stored: a number or a floating-point literal. -/
def IsStoredConst : Value → Prop
  | .const c => (extractImm c).isSome ∨ c.type.isFp = true
  | .left _ => False

/-- The offset of a slot is not split, so that it has to be short for a constant. -/
def StackArgFits (arg : Value) (offset : Nat) : Prop :=
  IsStoredConst arg → Imm12 (BitVec.ofNat 32 offset)

/-- The arguments of a call that are passed on the stack. -/
def stackPassed (args : List (Value × Option Nat)) : List Value :=
  (args.filter fun a => a.2.isNone).map Prod.fst

/-- Every constant on the stack is in a slot at a short offset. -/
def CallFits (c : CallInst) : Prop :=
  ∀ regs, Lowering.assignArgRegs c.args abi = .ok regs →
    ∀ k arg, (stackPassed (c.args.zip regs))[k]? = some arg → StackArgFits arg (8 * k)

theorem storeArg_legal (t : Ty) (val : Fin 32) (offset : Word) :
    AllLegal (storeArg t val offset) :=
  access_legal (storeInst_legal _) regSp offset

theorem stackArg_legal (pool : List FloatLiteral) (arg : Value) (offset : Nat) :
    AllLegal (stackArg ctx pool arg offset).1 ↔ StackArgFits arg offset := by
  unfold stackArg StackArgFits
  cases arg with
  | left v =>
    refine iff_of_true ?_ fun h => h.elim
    cases lookupReg ctx.regs (.left v) with
    | some val => exact storeArg_legal _ _ _
    | none => exact allLegal_nil
  | const c =>
    dsimp only [lookupReg]
    cases himm : extractImm c with
    | some imm => simp [IsStoredConst, himm, InstI.Legal]
    | none =>
      have hstored : IsStoredConst (.const c) ↔ (Value.const c).typeOf.isFp = true := by
        simp [IsStoredConst, himm, Value.typeOf]
      rw [hstored]
      dsimp only
      by_cases hfp : (Value.const c).typeOf.isFp = true
      · rw [if_pos hfp]
        simp [loadFloatConst_legal, hfp]
      · rw [if_neg hfp]
        simp [hfp]

variable (ctx) in
theorem stackArgs_legal (args : List (Value × Option Nat)) (pool : List FloatLiteral)
    (offset : Nat) : AllLegal (stackArgs ctx pool offset args).1 ↔
      ∀ k arg, (stackPassed args)[k]? = some arg → StackArgFits arg (offset + 8 * k) := by
  induction args generalizing pool offset with
  | nil => simp [stackArgs, stackPassed]
  | cons a args ih =>
    obtain ⟨arg, reg⟩ := a
    cases reg with
    | some r => exact ih pool offset
    | none =>
      have hcode : AllLegal (stackArgs ctx pool offset ((arg, none) :: args)).1 ↔
          AllLegal (stackArg ctx pool arg offset).1 ∧
            AllLegal (stackArgs ctx (stackArg ctx pool arg offset).2 (offset + 8) args).1 :=
        allLegal_append
      rw [hcode, stackArg_legal, ih]
      constructor
      · rintro ⟨hhead, htail⟩ k arg' hk
        cases k with
        | zero =>
          cases hk
          exact hhead
        | succ k =>
          have := htail k arg' hk
          rwa [show offset + 8 + 8 * k = offset + 8 * (k + 1) by omega] at this
      · intro h
        refine ⟨h 0 arg rfl, fun k arg' hk => ?_⟩
        have := h (k + 1) arg' hk
        rwa [show offset + 8 * (k + 1) = offset + 8 + 8 * k by omega] at this

/-- Of a call only the slots of constants can be too far away. -/
theorem translateCall_legal (pool : List FloatLiteral) (inst : CallInst) :
    LegalIff Prod.fst (translateCall ctx pool inst) (CallFits inst) := by
  unfold translateCall
  refine .bind fun regs hregs => .bind fun name _ => .of_ok ?_
  have hfits : CallFits inst ↔ ∀ k arg, (stackPassed (inst.args.zip regs))[k]? = some arg →
      StackArgFits arg (0 + 8 * k) := by
    unfold CallFits
    simp only [hregs, Except.ok.injEq, forall_eq', Nat.zero_add]
  rw [hfits, ← stackArgs_legal ctx (inst.args.zip regs) pool 0]
  show AllLegal (_ ++ [_]) ↔ _
  simp

end Calls

/-! ## Blocks and functions -/

section Functions

variable {ctx : Ctx}

/-- The immediates of an instruction can be encoded. -/
def InstFits : Ir.Inst → Prop
  | .binary b => BinaryFits b
  | .call c => CallFits c
  | _ => True

theorem translateInst_legal (pool : List FloatLiteral) (i : Ir.Inst) :
    LegalIff Prod.fst (translateInst ctx pool i) (InstFits i) := by
  cases i with
  | unary u => exact translateUnary_legal u
  | binary b => exact translateBinary_legal b
  | call c => exact translateCall_legal pool c
  | phi p => exact .of_error _

theorem translateInsts_legal (is : List Ir.Inst) (pool : List FloatLiteral) :
    LegalIff Prod.fst (translateInsts ctx pool is) (∀ i ∈ is, InstFits i) := by
  induction is generalizing pool with
  | nil => exact .of_ok (by simp)
  | cons i is ih =>
    refine .bind fun r hr => .bind fun rest hrest => .of_ok ?_
    rw [List.forall_mem_cons]
    exact allLegal_append.trans
      (and_congr (translateInst_legal pool i r hr) (ih r.2 rest hrest))

theorem translateExit_legal (f : Ir.Func) (e : Ir.Exit) :
    LegalIff id (translateExit ctx f e) True := by
  unfold translateExit
  cases e with
  | ret v => exact .of_ok (by simp)
  | jump target => exact .bind fun l _ => .of_ok (by simp)
  | branch cond t f =>
    dsimp only
    split
    · exact .of_error _
    · exact .bind fun l _ => .bind fun l' _ => .of_ok (by simp)

theorem translateBlock_legal (f : Ir.Func) (pool : List FloatLiteral) (b : Ir.Block) :
    LegalIff (fun r => r.1.insts) (translateBlock ctx f pool b) (∀ i ∈ b.insts, InstFits i) := by
  unfold translateBlock
  refine .bind fun r hr => ?_
  cases b.exit with
  | none => exact .of_error _
  | some e =>
    refine .bind fun exit hexit => .of_ok ?_
    rw [← translateInsts_legal b.insts pool r hr]
    have hlegal := (translateExit_legal f e exit hexit).mpr trivial
    exact allLegal_append.trans (and_iff_left hlegal)

/-- The code of some blocks. -/
def blocksCode (bs : List Block) : List Inst := bs.flatMap Block.insts

theorem translateBlocks_legal (f : Ir.Func) (bs : List Ir.Block) (pool : List FloatLiteral) :
    LegalIff (fun r => blocksCode r.1) (translateBlocks ctx f pool bs)
      (∀ b ∈ bs, ∀ i ∈ b.insts, InstFits i) := by
  induction bs generalizing pool with
  | nil => exact .of_ok (by simp [blocksCode])
  | cons b bs ih =>
    refine .bind fun r hr => .bind fun rest hrest => .of_ok ?_
    rw [List.forall_mem_cons]
    exact allLegal_append.trans
      (and_congr (translateBlock_legal f pool b r hr) (ih r.2 rest hrest))

theorem addSp_legal (delta : Word) : AllLegal (addSp delta) := by
  unfold addSp
  by_cases hfit : fitsI12 delta = true
  · rw [if_pos hfit]
    simp [InstI.Legal, imm12_of_fits hfit]
  · rw [if_neg hfit]
    simp

/-! ### Initial values -/

/-- A store starts at the byte `k` of `n`: every fourth one, and the last one of three. -/
def StoresAt (n k : Nat) : Prop := k < n ∧ (k % 4 = 0 ∨ (k % 4 = 2 ∧ k + 1 = n))

theorem storesAt_add_four {n k : Nat} : StoresAt (n + 4) k ↔ k = 0 ∨ ∃ j, k = 4 + j ∧ StoresAt n j := by
  unfold StoresAt
  constructor
  · intro h
    by_cases hk : k < 4
    · left
      omega
    · exact .inr ⟨k - 4, by omega, by omega⟩
  · rintro (rfl | ⟨j, rfl, h⟩)
    · omega
    · omega

theorem storesAt_two {k : Nat} : StoresAt 2 k ↔ k = 0 := by
  unfold StoresAt
  omega

theorem storesAt_three {k : Nat} : StoresAt 3 k ↔ k = 0 ∨ k = 2 := by
  unfold StoresAt
  omega

theorem storesAt_one {k : Nat} : StoresAt 1 k ↔ k = 0 := by
  unfold StoresAt
  omega

theorem add_ofNat_add (off : Word) (i j : Nat) :
    off + BitVec.ofNat 64 i + BitVec.ofNat 64 j = off + BitVec.ofNat 64 (i + j) := by
  rw [BitVec.ofNat_add, add_assoc]

theorem storeBytesAt_legal (base : GeneralReg) (data : List (BitVec 8)) (off : Word) :
    AllLegal (storeBytesAt base data off) ↔
      ∀ k, StoresAt data.length k → Imm12 (imm32 (off + BitVec.ofNat 64 k)) := by
  fun_induction storeBytesAt base data off with
  | case1 off a b c d rest ih =>
    have hlen : (a :: b :: c :: d :: rest).length = rest.length + 4 := rfl
    rw [hlen]
    simp only [allLegal_append, ih, storesAt_add_four]
    have h4 : ∀ j, off + 4 + BitVec.ofNat 64 j = off + BitVec.ofNat 64 (4 + j) :=
      add_ofNat_add off 4
    constructor
    · rintro ⟨hhead, hrest⟩ k (rfl | ⟨j, rfl, hj⟩)
      · simpa [InstI.Legal] using hhead
      · exact h4 j ▸ hrest j hj
    · intro h
      refine ⟨?_, fun j hj => (h4 j).symm ▸ h (4 + j) (.inr ⟨j, rfl, hj⟩)⟩
      simpa [InstI.Legal] using h 0 (.inl rfl)
  | case2 off a b rest hrest ih =>
    rcases rest with _ | ⟨c, _ | ⟨d, rest⟩⟩
    · simp [storesAt_two, storeBytesAt, InstI.Legal]
    · simp [storesAt_three, storeBytesAt, InstI.Legal]
    · exact (hrest c d rest rfl).elim
  | case3 off a => simp [storesAt_one, InstI.Legal]
  | case4 off => simp [StoresAt]

theorem toInt_imm32 {c : Word} (h : -2147483648 ≤ c.toInt ∧ c.toInt < 2147483648) :
    (imm32 c).toInt = c.toInt := by
  rw [imm32, BitVec.toInt_setWidth]
  have hc : c.toInt = (c.toNat : Int).bmod (2 ^ 64) := BitVec.toInt_eq_toNat_bmod c
  rw [Int.bmod_def] at hc ⊢
  split at hc <;> omega

section Image

variable {off : Word} {k : Nat}

/-- A short offset and a few bytes more do not wrap around. -/
theorem toInt_add_ofNat (h : fitsI12 off = true) (hk : k < 4100) :
    (off + BitVec.ofNat 64 k).toInt = off.toInt + k := by
  have hoff := fitsI12_iff.mp h
  have hk' : (BitVec.ofNat 64 k).toInt = k := by
    rw [BitVec.toInt_eq_toNat_bmod, BitVec.toNat_ofNat, Nat.mod_eq_of_lt (by omega)]
    exact Int.bmod_eq_of_le (by omega) (by omega)
  rw [BitVec.toInt_add, hk']
  exact Int.bmod_eq_of_le (by omega) (by omega)

theorem imm12_add (h : fitsI12 off = true) (hk : k < 4100) :
    Imm12 (imm32 (off + BitVec.ofNat 64 k)) ↔ off.toInt + k < 2048 := by
  have hoff := fitsI12_iff.mp h
  have hsum := toInt_add_ofNat h hk
  unfold Imm12
  rw [toInt_imm32 (by omega), hsum]
  omega

/-- The image of a local is short, or lies below the middle of the offsets that fit. -/
def ImageFits (len : Nat) (off : Word) : Prop :=
  len ≤ 2048 ∨
    (len < 4096 ∧ fitsI12 off = true ∧ fitsI12 (off + BitVec.ofNat 64 len) = true)

/-- The stores of an image next to the stack pointer. -/
theorem storeBytesAt_short {data : List (BitVec 8)} (base : GeneralReg) (hoff : fitsI12 off = true)
    (hend : fitsI12 (off + BitVec.ofNat 64 data.length) = true) :
    AllLegal (storeBytesAt base data off) ↔ data.length < 4096 := by
  have hlo := fitsI12_iff.mp hoff
  have hhi := (fitsI12_iff.mp hend).2
  rw [storeBytesAt_legal]
  constructor
  · intro h
    by_contra hlen
    -- the first offset that is too large for a store
    obtain ⟨k, hk4, hklo, hkhi⟩ : ∃ k : Nat, k % 4 = 0 ∧ 2048 ≤ off.toInt + k ∧ off.toInt + k < 2052 :=
      ⟨((2048 - off.toInt).toNat + 3) / 4 * 4, by omega, by omega, by omega⟩
    by_cases heq : data.length = 4096
    · rw [heq, toInt_add_ofNat hoff (by omega)] at hhi
      omega
    · have := (imm12_add hoff (by omega)).mp (h k ⟨by omega, .inl hk4⟩)
      omega
  · rintro hlen k ⟨hk, _⟩
    rw [toInt_add_ofNat hoff (by omega)] at hhi
    exact (imm12_add hoff (by omega)).mpr (by omega)

/-- The stores of an image at an address of its own. -/
theorem storeBytesAt_zero (base : GeneralReg) (data : List (BitVec 8)) :
    AllLegal (storeBytesAt base data 0) ↔ data.length ≤ 2048 := by
  have hzero : fitsI12 0 = true := by decide
  rw [storeBytesAt_legal]
  constructor
  · intro h
    by_contra hlen
    have := (imm12_add hzero (by omega)).mp (h 2048 ⟨by omega, .inl rfl⟩)
    simp at this
  · rintro hlen k ⟨hk, _⟩
    exact (imm12_add hzero (by omega)).mpr (by simp; omega)

theorem storeBytes_legal (data : List (BitVec 8)) (base : GeneralReg) (off : Word) :
    AllLegal (storeBytes data base off) ↔ ImageFits data.length off := by
  unfold storeBytes ImageFits
  by_cases hshort : fitsI12 off = true ∧ fitsI12 (off + BitVec.ofNat 64 data.length) = true
  · rw [if_pos (by simpa using hshort), storeBytesAt_short base hshort.1 hshort.2]
    simp only [hshort, and_true]
    omega
  · rw [if_neg (by simpa using hshort), allLegal_append, storeBytesAt_zero]
    simp only [hshort, and_false, or_false]
    exact and_iff_right (addRegImm_legal _ _ _ _)

end Image

/-- The image of a local in memory fits. -/
def LocalFits (ctx : Ctx) (a : Alloc) : Prop :=
  ∀ t buf off sz, a.init = some ⟨t, .bytes buf⟩ → ctx.spillOffset a = some off →
    size a.type = .ok sz → ImageFits (buf.take sz).length off

theorem scalarStore_legal (sz : Nat) (rd rs : GeneralReg) (imm : BitVec 32) :
    (InstI.Legal ⟨if sz = 8 then .sd else if sz = 4 then .sw else if sz = 2 then .sh else .sb,
      rd, rs, imm⟩) ↔ Imm12 imm := by
  by_cases h8 : sz = 8
  · simp [InstI.Legal, h8]
  · by_cases h4 : sz = 4
    · simp [InstI.Legal, h4]
    · by_cases h2 : sz = 2 <;> simp [InstI.Legal, h8, h4, h2]

theorem initLocal_legal (a : Alloc) : LegalIff id (initLocal ctx a) (LocalFits ctx a) := by
  unfold initLocal
  have htrue (h : ∀ t buf, a.init ≠ some ⟨t, .bytes buf⟩) : LocalFits ctx a ↔ True :=
    iff_true_intro fun t buf _ _ hinit => (h t buf hinit).elim
  split
  · rename_i init off hinit hoff
    refine .bind fun sz hsz => ?_
    obtain ⟨t, val⟩ := init
    dsimp only
    split
    · rename_i buf
      refine .of_ok ?_
      have hfits : LocalFits ctx a ↔ ImageFits (buf.take sz).length off := by
        unfold LocalFits
        simp only [hinit, hoff, hsz, Option.some.injEq, ConstexprValue.mk.injEq,
          Payload.bytes.injEq, Except.ok.injEq]
        constructor
        · intro h
          exact h t buf off sz ⟨rfl, rfl⟩ rfl rfl
        · rintro h _ _ _ _ ⟨rfl, rfl⟩ rfl rfl
          exact h
      rw [hfits]
      exact storeBytes_legal _ _ _
    · rename_i hval
      have hscalar : ∀ t buf, a.init ≠ some ⟨t, .bytes buf⟩ := by
        intro t' buf h
        rw [hinit] at h
        cases h
        exact hval buf rfl
      rw [htrue hscalar]
      cases scalarInit val with
      | none => exact .of_ok (by simp)
      | some v =>
        dsimp only
        by_cases hfit : fitsI12 off = true
        · rw [if_pos hfit]
          exact .of_ok (by simp [scalarStore_legal, imm12_of_fits hfit])
        · rw [if_neg hfit]
          exact .of_ok (by simp [scalarStore_legal, addRegImm_legal])
  · rename_i hnone
    refine .of_ok (iff_of_true allLegal_nil ?_)
    intro t buf off sz hinit hoff
    exact (hnone _ _ hinit hoff).elim

theorem mapM_initLocal_legal (as : List Alloc) :
    LegalIff List.flatten (as.mapM (initLocal ctx)) (∀ a ∈ as, LocalFits ctx a) := by
  induction as with
  | nil => exact .of_ok (by simp)
  | cons a as ih =>
    rw [List.mapM_cons]
    refine .bind fun is his => .bind fun rest hrest => .of_ok ?_
    rw [List.forall_mem_cons, List.flatten_cons, allLegal_append]
    exact and_congr (initLocal_legal a is his) (ih rest hrest)

/-- The immediates of a function can be encoded. -/
def FuncFits (alloc : Ir.AllocId → Option Alloc) (regs : ColorMap) (f : Ir.Func) : Prop :=
  (∀ frame, computeFrame f = .ok frame → ∀ a ∈ f.locals, LocalFits ⟨alloc, frame, regs⟩ a) ∧
    ∀ b ∈ reversePostOrder f, ∀ i ∈ b.insts, InstFits i

theorem translateFunc_legal (alloc : Ir.AllocId → Option Alloc) (regs : ColorMap)
    (pool : List FloatLiteral) (f : Ir.Func) :
    LegalIff (fun r => blocksCode r.1.blocks) (translateFunc alloc regs pool f)
      (FuncFits alloc regs f) := by
  unfold translateFunc
  refine .bind fun frame hframe => .bind fun inits hinits => .bind fun r hr => .of_ok ?_
  have hlocals : (∀ frame', computeFrame f = .ok frame' → ∀ a ∈ f.locals,
      LocalFits ⟨alloc, frame', regs⟩ a) ↔ ∀ a ∈ f.locals, LocalFits ⟨alloc, frame, regs⟩ a := by
    simp only [hframe, Except.ok.injEq, forall_eq']
  unfold FuncFits
  rw [hlocals, ← mapM_initLocal_legal f.locals inits hinits,
    ← translateBlocks_legal f (reversePostOrder f) pool r hr]
  have hframe : ∀ delta : Word, AllLegal (if frame.totalSize > 0 then addSp delta else []) := by
    intro delta
    split
    · exact addSp_legal delta
    · exact allLegal_nil
  simp only [blocksCode, List.flatMap_append, List.flatMap_cons, List.flatMap_nil, allLegal_append]
  simp [hframe]

/-- The code of some functions. -/
def funcsCode (fs : List Func) : List Inst := fs.flatMap fun f => blocksCode f.blocks

theorem translateFuncs_legal (alloc : Ir.AllocId → Option Alloc) (regs : ColorMap)
    (fs : List Ir.Func) (pool : List FloatLiteral) :
    LegalIff (fun r => funcsCode r.1) (translateFuncs alloc regs pool fs)
      (∀ f ∈ fs, FuncFits alloc regs f) := by
  induction fs generalizing pool with
  | nil => exact .of_ok (by simp [funcsCode])
  | cons f fs ih =>
    refine .bind fun r hr => .bind fun rest hrest => .of_ok ?_
    rw [List.forall_mem_cons]
    exact allLegal_append.trans
      (and_congr (translateFunc_legal alloc regs pool f r hr) (ih r.2 rest hrest))

/-- Exactly when the code of a program is legal: constant shift amounts are within their
width, constants on the stack are in slots at short offsets, and images of locals fit. -/
theorem lower_legal_iff {p : Ir.Program} {regs : ColorMap} {m : Module}
    (h : lower p regs = .ok m) :
    AllLegal (funcsCode m.funcs) ↔ ∀ f ∈ p.funcs, FuncFits (findAlloc p) regs f := by
  obtain ⟨r, hr, hm⟩ := Except.bind_eq_ok.mp h
  cases hm
  exact translateFuncs_legal (findAlloc p) regs p.funcs [] r hr

/-- `const int table[n] = {1, 1, ...};` in a function, with the low byte of each element set. -/
def table (n : Nat) : Alloc :=
  .constant 0 "table" (.array (.prim .int32) n)
    ⟨.array (.prim .int32) n, .bytes (List.replicate (4 * n) 1)⟩ true

/-- A function that returns the first element of its table. -/
def tableMain (n : Nat) : Ir.Func where
  name := "main"
  retType := .prim .int32
  params := []
  locals := [table n]
  blocks := [⟨0, "entry",
    [.unary ⟨.convert, some ⟨.reference (.prim .int32) true false, .temp 0⟩, .left (table n).value.left⟩,
      .unary ⟨.load, some ⟨.prim .int32, .temp 1⟩,
        .left ⟨.reference (.prim .int32) true false, .temp 0⟩⟩],
    some (.ret (.left ⟨.prim .int32, .temp 1⟩))⟩]
  temps := []
  tempLabelCount := 2
  nextBlock := 1

def tableProgram (n : Nat) : Ir.Program := ⟨false, [], [tableMain n], [], 1⟩

/-- Both variables in `a0`. -/
def tableRegs : ColorMap := [(.temp 0, 10), (.temp 1, 10)]

theorem lower_table (n : Nat) : ∃ m, lower (tableProgram n) tableRegs = .ok m := ⟨_, rfl⟩

/-- A table of 16 bytes. -/
theorem lower_table_legal :
    ∃ m, lower (tableProgram 4) tableRegs = .ok m ∧ AllLegal (funcsCode m.funcs) := by
  obtain ⟨m, hm⟩ := lower_table 4
  refine ⟨m, hm, (lower_legal_iff hm).mpr ?_⟩
  intro f hf
  cases List.mem_singleton.mp hf
  constructor
  · rintro frame - a ha t buf off sz hinit - -
    cases List.mem_singleton.mp ha
    cases hinit
    exact .inl (by simp)
  · intro b hb i hi
    have horder : reversePostOrder (tableMain 4) = (tableMain 4).blocks := rfl
    rw [horder] at hb
    cases List.mem_singleton.mp hb
    simp only [List.mem_cons, List.not_mem_nil, or_false] at hi
    rcases hi with rfl | rfl <;> trivial

/-- The last store of a table of 2052 bytes has the offset 2048. -/
theorem lower_table_not_legal :
    ∃ m, lower (tableProgram 513) tableRegs = .ok m ∧ ¬AllLegal (funcsCode m.funcs) := by
  obtain ⟨m, hm⟩ := lower_table 513
  refine ⟨m, hm, fun h => ?_⟩
  obtain ⟨r, hr, hm'⟩ := Except.bind_eq_ok.mp hm
  cases hm'
  have hfits := (translateFuncs_legal _ _ _ _ r hr).mp h (tableMain 513) (List.mem_singleton.mpr rfl)
  have himage := hfits.1 ⟨2064, [(0, 0)]⟩ rfl (table 513) (List.mem_singleton.mpr rfl) _ _ 0 2052
    rfl rfl rfl
  rw [List.length_take, List.length_replicate] at himage
  exact absurd himage (by unfold ImageFits; decide)

end Functions

end Isel
end Rv64
end Cact
