import Cact.Ir.Arith
import Cact.Rv64.Isel
import Cact.Rv64.Optim.Sound

/-!
# The code of integer operators (`rv64/isel.hpp`, `translate_binary`)

What the machine computes with the instructions selected for an integer or boolean
operator, against what the operator means.

- `Computes`: code that leaves a value in a register and spares the others, but `t0`.
- `intRegReg_computes`, `intRegConst_computes`, `intConstReg_computes`: the operand forms.
- `translateBinary_correct_iff`: the instructions that are translated correctly.
-/

namespace Cact

namespace Rv64

namespace Isel

open Ir (Ty Fault Primitive ConstexprValue Value LeftValue InstOp BinaryInst arith comparison logical
  boolWord evalBinary Represents)

/-! ## Words -/

section Words

variable {a b c : Word}

/-- The word is the sign extension of its low half. -/
abbrev Signed32 (a : Word) : Prop := Represents .int32 a

theorem slt_low (ha : Signed32 a) (hb : Signed32 b) : (low a).slt (low b) = a.slt b := by
  unfold low
  rw [← ha, ← hb]
  simp only [BitVec.slt, BitVec.toInt_signExtend_of_le (show 32 ≤ 64 by omega)]
  rw [ha, hb]

theorem eq_low_iff (ha : Signed32 a) (hb : Signed32 b) : low a = low b ↔ a = b := by
  constructor
  · intro h
    rw [← ha, ← hb]
    exact congrArg (BitVec.signExtend 64) h
  · rintro rfl
    rfl

theorem sle_eq_not_slt {n : Nat} (x y : BitVec n) : x.sle y = !y.slt x := by
  simp only [BitVec.sle, BitVec.slt]
  by_cases h : x.toInt ≤ y.toInt
  · simp [h]
  · simp only [h]
    simp
    omega

theorem beq_sub_zero (a b : Word) : (a - b == 0) = (a == b) := by
  rw [Bool.eq_iff_iff, beq_iff_eq, beq_iff_eq, sub_eq_zero]

theorem fitsI12_iff : fitsI12 c = true ↔ -2048 ≤ c.toInt ∧ c.toInt < 2048 := by
  unfold fitsI12
  rw [Bool.and_eq_true, BitVec.sle, BitVec.slt, decide_eq_true_iff, decide_eq_true_iff]
  rfl

theorem toInt_setWidth_of_fits (h : fitsI12 c = true) : (imm32 c).toInt = c.toInt := by
  obtain ⟨hlo, hhi⟩ := fitsI12_iff.mp h
  rw [imm32, BitVec.toInt_setWidth]
  have hc : c.toInt = (c.toNat : Int).bmod (2 ^ 64) := BitVec.toInt_eq_toNat_bmod c
  rw [Int.bmod_def] at hc ⊢
  split at hc <;> omega

/-- A short immediate is its low half, sign-extended. -/
theorem signed32_of_fits (h : fitsI12 c = true) : Signed32 c := by
  refine BitVec.eq_of_toInt_eq ?_
  rw [BitVec.toInt_signExtend_of_le (by omega)]
  exact toInt_setWidth_of_fits h

end Words

/-! ## Code that computes a value -/

/-- What an instruction sets: its register and the new value. -/
def sets? : Inst → Option (GeneralReg × (RegFile → Word))
  | .pseudoLI i => some (i.rd, fun _ => i.imm)
  | i => i.compute?

/-- The registers after some instructions that only set registers. -/
def runRegs : List Inst → RegFile → Option RegFile
  | [], ρ => some ρ
  | i :: is, ρ =>
    match sets? i with
    | some (rd, v) => runRegs is (Function.update ρ rd (v ρ))
    | none => none

/-- The instructions on a machine state, one after the other. -/
def execAll {env : Env} (img : Image) (insts : List Inst) (s : State env) :
    Except Fault (State env) :=
  insts.foldlM (fun s i => exec img i s) s

theorem exec_sets {env : Env} {img : Image} {i : Inst} {rd : GeneralReg} {v : RegFile → Word}
    (h : sets? i = some (rd, v)) (s : State env) :
    exec img i s = .ok (s.setReg rd (v s.regs)) := by
  unfold sets? at h
  split at h
  · cases h
    rfl
  · exact exec_compute h s

theorem execAll_of_runRegs {env : Env} (img : Image) {insts : List Inst} {ρ : RegFile}
    {s : State env} (h : runRegs insts s.regs = some ρ) :
    execAll img insts s = .ok { s with regs := ρ } := by
  induction insts generalizing s with
  | nil =>
    cases h
    rfl
  | cons i is ih =>
    simp only [runRegs] at h
    cases hi : sets? i with
    | none => simp [hi] at h
    | some p =>
      obtain ⟨rd, v⟩ := p
      rw [hi] at h
      rw [execAll, List.foldlM_cons, exec_sets hi]
      exact ih h

/-- The code leaves the value in the register and changes no other one, but `t0`. -/
def Computes (insts : List Inst) (ρ : RegFile) (rd : GeneralReg) (v : Word) : Prop :=
  ∃ ρ', runRegs insts ρ = some ρ' ∧ ρ' rd = v ∧ ∀ r, r ≠ rd → r ≠ regT0 → ρ' r = ρ r

section Computes

variable {ρ : RegFile} {rd l r : GeneralReg} {c v : Word} {insts : List Inst}

theorem Computes.of_eq {v' : Word} (h : Computes insts ρ rd v) (hv : v = v') :
    Computes insts ρ rd v' := hv ▸ h

theorem computes_single {i : Inst} {f : RegFile → Word} (h : sets? i = some (rd, f)) :
    Computes [i] ρ rd (f ρ) := by
  refine ⟨Function.update ρ rd (f ρ), ?_, Function.update_self .., fun r hr _ => ?_⟩
  · simp only [runRegs, h]
  · exact Function.update_of_ne hr ..

/-- An instruction on the result of the code before it. -/
theorem Computes.append {i : Inst} {f : Word → Word} (h : Computes insts ρ rd v)
    (hi : sets? i = some (rd, fun ρ => f (ρ rd))) : Computes (insts ++ [i]) ρ rd (f v) := by
  obtain ⟨ρ', hrun, rfl, hframe⟩ := h
  have happ : ∀ (is : List Inst) (ρ : RegFile) (ρ₁ : RegFile), runRegs is ρ = some ρ₁ →
      runRegs (is ++ [i]) ρ = some (Function.update ρ₁ rd (f (ρ₁ rd))) := by
    intro is
    induction is with
    | nil =>
      intro ρ ρ₁ hρ
      cases hρ
      simp only [List.nil_append, runRegs, hi]
    | cons j js ih =>
      intro ρ ρ₁ hρ
      simp only [runRegs, List.cons_append] at hρ ⊢
      cases hj : sets? j with
      | none => simp [hj] at hρ
      | some p =>
        rw [hj] at hρ
        exact ih _ _ hρ
  refine ⟨_, happ insts ρ ρ' hrun, Function.update_self .., fun r hr ht => ?_⟩
  rw [Function.update_of_ne hr]
  exact hframe r hr ht

/-- A constant in a register that the code after it may use. -/
theorem Computes.withConst {tmp : GeneralReg} (htmp : tmp = regT0 ∨ tmp = rd)
    (h : Computes insts (Function.update ρ tmp c) rd v) :
    Computes (withConst tmp c insts) ρ rd v := by
  obtain ⟨ρ', hrun, hv, hframe⟩ := h
  refine ⟨ρ', hrun, hv, fun r hr ht => ?_⟩
  rw [hframe r hr ht, Function.update_of_ne]
  rintro rfl
  exact htmp.elim ht hr

theorem computes_intRegOp (op64 op32 : OpR) (w : Bool) :
    Computes [intRegOp op64 op32 w rd l r] ρ rd (aluR (if w then op32 else op64) (ρ l) (ρ r)) :=
  computes_single (f := fun ρ => aluR (if w then op32 else op64) (ρ l) (ρ r)) rfl

theorem computes_instR (op : OpR) : Computes [.instR ⟨op, rd, l, r⟩] ρ rd (aluR op (ρ l) (ρ r)) :=
  computes_single (f := fun ρ => aluR op (ρ l) (ρ r)) rfl

theorem computes_instI {op : OpI} (h : op.isAlu = true) (imm : BitVec 32) :
    Computes [.instI ⟨op, rd, l, imm⟩] ρ rd (aluI op (ρ l) imm) := by
  refine computes_single (f := fun ρ => aluI op (ρ l) imm) ?_
  simp [sets?, Inst.compute?, h]

theorem Computes.flip {b : Bool} (h : Computes insts ρ rd (boolWord b)) :
    Computes (insts ++ [flip rd]) ρ rd (boolWord !b) := by
  refine (h.append (f := fun x => aluI .xori x 1) rfl).of_eq ?_
  cases b
  · rfl
  · rfl

/-- The operations of the two widths that an operator is translated to. -/
def aluOps : InstOp → Option (OpR × OpR)
  | .add => some (.add, .addw)
  | .sub => some (.sub, .subw)
  | .mul => some (.mul, .mulw)
  | .div => some (.div, .divw)
  | .mod => some (.rem, .remw)
  | .shl => some (.sll, .sllw)
  | .shrl => some (.srl, .srlw)
  | .shra => some (.sra, .sraw)
  | _ => none

theorem and_31_toNat (b : Word) : (b &&& 0x1F#64).toNat = (low b).toNat % 32 := by
  rw [BitVec.toNat_and, low, BitVec.toNat_setWidth]
  show b.toNat &&& (2 ^ 5 - 1) = _
  rw [Nat.and_two_pow_sub_one_eq_mod]
  omega

theorem and_63_toNat (b : Word) : (b &&& 0x3F#64).toNat = b.toNat % 64 := by
  rw [BitVec.toNat_and]
  show b.toNat &&& (2 ^ 6 - 1) = _
  rw [Nat.and_two_pow_sub_one_eq_mod]

theorem sdiv_of_overflow {n : Nat} {a b : BitVec n} (h : a = BitVec.intMin n ∧ b = -1) :
    a.sdiv b = BitVec.intMin n := by
  rw [h.1, h.2]
  exact BitVec.intMin_sdiv_neg_one

/-- The operations compute the operator at their widths. -/
theorem arith_of_aluOps {op : InstOp} {o64 o32 : OpR} (h : aluOps op = some (o64, o32))
    (a b : Word) : arith op a b = some (aluR o64 a b) ∧
      (arith op (low a) (low b)).map (BitVec.signExtend 64) = some (aluR o32 a b) := by
  cases op <;> cases h
  case add => exact ⟨rfl, rfl⟩
  case sub => exact ⟨rfl, rfl⟩
  case mul =>
    refine ⟨rfl, rfl⟩
  case div =>
    refine ⟨?_, ?_⟩
    · simp only [arith, aluR]
      split
      · rfl
      · split
        · rw [sdiv_of_overflow ‹_›]
        · rfl
    · simp only [arith, aluR, Option.map_some]
      split
      · rfl
      · split
        · rename_i hov
          rw [sdiv_of_overflow hov, hov.1]
        · rfl
  case mod =>
    refine ⟨?_, ?_⟩
    · simp only [arith, aluR]
      split
      · rfl
      · split
        · rename_i hov
          rw [hov.1, hov.2]
          rfl
        · rfl
    · simp only [arith, aluR, Option.map_some]
      split
      · rfl
      · split
        · rename_i hov
          rw [hov.1, hov.2]
          rfl
        · rfl
  case shl => exact ⟨by simp only [arith, aluR, and_63_toNat],
    by simp only [arith, aluR, and_31_toNat, Option.map_some]⟩
  case shrl => exact ⟨by simp only [arith, aluR, and_63_toNat],
    by simp only [arith, aluR, and_31_toNat, Option.map_some]⟩
  case shra => exact ⟨by simp only [arith, aluR, and_63_toNat],
    by simp only [arith, aluR, and_31_toNat, Option.map_some]⟩

end Computes

/-! ## The operand forms -/

section Forms

variable {ρ : RegFile} {rd l r : GeneralReg} {c : Word} {t : Primitive} {op : InstOp}

/-- The integer types. -/
def IsInt (t : Primitive) : Prop := t = .int32 ∨ t = .int

theorem evalBinary_arith {o64 o32 : OpR} (ht : IsInt t) (h : aluOps op = some (o64, o32))
    (a b : Word) : evalBinary op t a b = some (aluR (if t == .int32 then o32 else o64) a b) := by
  obtain ⟨h64, h32⟩ := arith_of_aluOps h a b
  rcases ht with rfl | rfl
  · show ((arith op (low a) (low b)).map _).or _ = _
    rw [h32]
    rfl
  · show (arith op a b).or _ = _
    rw [h64]
    rfl

theorem evalBinary_compare (ht : IsInt t) (hop : (comparison op (0 : Word) 0).isSome) {a b : Word}
    (ha : Represents t a) (hb : Represents t b) :
    evalBinary op t a b = (comparison op a b).map boolWord := by
  rcases ht with rfl | rfl
  · show ((arith op (low a) (low b)).map _).or ((comparison op (low a) (low b)).map boolWord) = _
    have heq : (low a == low b) = (a == b) := by
      rw [Bool.eq_iff_iff, beq_iff_eq, beq_iff_eq]
      exact eq_low_iff ha hb
    cases op <;> cases hop <;>
      simp only [arith, comparison, Option.map_none, Option.none_or, Option.map_some, sle_eq_not_slt,
        slt_low ha hb, slt_low hb ha, heq, bne]
  · show (arith op a b).or ((comparison op a b).map boolWord) = _
    cases op <;> cases hop <;> rfl

theorem evalBinary_logical {a b : Word} (ha : Represents .int1 a) (hb : Represents .int1 b) :
    evalBinary .and .int1 a b = some (a &&& b) ∧ evalBinary .or .int1 a b = some (a ||| b) := by
  rcases ha with rfl | rfl <;> rcases hb with rfl | rfl <;> exact ⟨rfl, rfl⟩

/-- The operators of a type. -/
theorem isDefinedOn_cases (h : op.isDefinedOn t = true) :
    (IsInt t ∧ ((∃ o64 o32, aluOps op = some (o64, o32)) ∨ (comparison op (0 : Word) 0).isSome)) ∨
      (t = .int1 ∧ (op = .and ∨ op = .or)) := by
  cases t with
  | int1 =>
    refine .inr ⟨rfl, ?_⟩
    cases op <;> first | exact .inl rfl | exact .inr rfl | cases h
  | int32 =>
    refine .inl ⟨.inl rfl, ?_⟩
    cases op <;> first | exact .inl ⟨_, _, rfl⟩ | exact .inr rfl | cases h
  | int =>
    refine .inl ⟨.inr rfl, ?_⟩
    cases op <;> first | exact .inl ⟨_, _, rfl⟩ | exact .inr rfl | cases h
  | float32 => cases h
  | float64 => cases h
  | float => cases h

/-- A comparison is what the code computes, on any operands of the type. -/
theorem comparison_computes {insts : List Inst} {a b : Word} {p : Bool} (ht : IsInt t)
    (hop : comparison op a b = some p) (hsome : (comparison op (0 : Word) 0).isSome)
    (ha : Represents t a) (hb : Represents t b) (h : Computes insts ρ rd (boolWord p)) :
    ∃ v, evalBinary op t a b = some v ∧ Computes insts ρ rd v := by
  refine ⟨boolWord p, ?_, h⟩
  rw [evalBinary_compare ht hsome ha hb, hop]
  rfl

/-- `seqz` and `snez` of a difference. -/
theorem Computes.seqz {insts : List Inst} {a b : Word} (h : Computes insts ρ rd (a - b)) :
    Computes (insts ++ [.pseudoR ⟨.seqz, rd, rd⟩]) ρ rd (boolWord (a == b)) :=
  (h.append (f := aluPseudo .seqz) rfl).of_eq (congrArg boolWord (beq_sub_zero a b))

theorem Computes.snez {insts : List Inst} {a b : Word} (h : Computes insts ρ rd (a - b)) :
    Computes (insts ++ [.pseudoR ⟨.snez, rd, rd⟩]) ρ rd (boolWord (a != b)) :=
  (h.append (f := aluPseudo .snez) rfl).of_eq
    (congrArg (fun x => boolWord !x) (beq_sub_zero a b))

variable (rd l r) in
/-- Two registers. -/
theorem intRegReg_computes (hop : op.isDefinedOn t = true) :
    ∃ insts, intRegReg op (t == .int32) rd l r = .ok insts ∧
      ∀ ρ, Represents t (ρ l) → Represents t (ρ r) →
        ∃ v, evalBinary op t (ρ l) (ρ r) = some v ∧ Computes insts ρ rd v := by
  rcases isDefinedOn_cases hop with ⟨ht, ⟨o64, o32, halu⟩ | hcmp⟩ | ⟨rfl, rfl | rfl⟩
  · have hcode : intRegReg op (t == .int32) rd l r = .ok [intRegOp o64 o32 (t == .int32) rd l r] := by
      cases op <;> cases halu <;> rfl
    exact ⟨_, hcode, fun ρ _ _ => ⟨_, evalBinary_arith ht halu _ _, computes_intRegOp _ _ _⟩⟩
  · cases op with
    | lt =>
      exact ⟨_, rfl, fun ρ ha hb => comparison_computes ht rfl rfl ha hb (computes_instR .slt)⟩
    | gt =>
      exact ⟨_, rfl, fun ρ ha hb => comparison_computes ht rfl rfl ha hb (computes_instR .slt)⟩
    | leq =>
      exact ⟨_, rfl, fun ρ ha hb => comparison_computes ht (congrArg some (sle_eq_not_slt _ _)) rfl
        ha hb (computes_instR .slt).flip⟩
    | geq =>
      exact ⟨_, rfl, fun ρ ha hb => comparison_computes ht (congrArg some (sle_eq_not_slt _ _)) rfl
        ha hb (computes_instR .slt).flip⟩
    | eq =>
      exact ⟨_, rfl, fun ρ ha hb => comparison_computes ht rfl rfl ha hb (computes_instR .sub).seqz⟩
    | neq =>
      exact ⟨_, rfl, fun ρ ha hb => comparison_computes ht rfl rfl ha hb (computes_instR .sub).snez⟩
    | _ => cases hcmp
  · exact ⟨_, rfl, fun ρ ha hb => ⟨_, (evalBinary_logical ha hb).1, computes_instR .and⟩⟩
  · exact ⟨_, rfl, fun ρ ha hb => ⟨_, (evalBinary_logical ha hb).2, computes_instR .or⟩⟩

/-- Adding a constant. -/
theorem addRegImm_computes (w : Bool) (hl : l ≠ regT0) :
    Computes (addRegImm rd l c w) ρ rd (aluR (if w then .addw else .add) (ρ l) c) := by
  unfold addRegImm
  by_cases hfit : fitsI12 c = true
  · rw [if_pos hfit]
    cases w with
    | true => exact computes_instI rfl _
    | false =>
      refine (computes_instI rfl _).of_eq ?_
      exact congrArg (ρ l + ·) (signed32_of_fits hfit)
  · rw [if_neg hfit]
    refine Computes.withConst (.inl rfl) ((computes_intRegOp _ _ w).of_eq ?_)
    rw [Function.update_of_ne hl, Function.update_self]

/-- An operation with a constant in a register of its own. -/
theorem withConst_instR (op : OpR) (hl : l ≠ regT0) :
    Computes (withConst regT0 c [.instR ⟨op, rd, l, regT0⟩]) ρ rd (aluR op (ρ l) c) := by
  refine Computes.withConst (.inl rfl) ((computes_instR op).of_eq ?_)
  rw [Function.update_of_ne hl, Function.update_self]

theorem withConst_instR_swap (op : OpR) (hl : l ≠ regT0) :
    Computes (withConst regT0 c [.instR ⟨op, rd, regT0, l⟩]) ρ rd (aluR op c (ρ l)) := by
  refine Computes.withConst (.inl rfl) ((computes_instR op).of_eq ?_)
  rw [Function.update_of_ne hl, Function.update_self]

/-- The register for the constant is another one than that of the operand. -/
theorem tmp_ne (hl : l ≠ regT0) : l ≠ if rd = l then regT0 else rd := by
  split
  · exact hl
  · exact fun h => ‹¬rd = l› h.symm

theorem withConst_tmp {insts : List Inst} {v : Word}
    (h : Computes insts (Function.update ρ (if rd = l then regT0 else rd) c) rd v) :
    Computes (withConst (if rd = l then regT0 else rd) c insts) ρ rd v := by
  refine Computes.withConst ?_ h
  split
  · exact .inl rfl
  · exact .inr rfl

theorem withConst_intRegOp (o64 o32 : OpR) (w : Bool) (hl : l ≠ regT0) :
    Computes (withConst (if rd = l then regT0 else rd) c
      [intRegOp o64 o32 w rd l (if rd = l then regT0 else rd)]) ρ rd
        (aluR (if w then o32 else o64) (ρ l) c) := by
  refine withConst_tmp ((computes_intRegOp o64 o32 w).of_eq ?_)
  rw [Function.update_of_ne (tmp_ne hl), Function.update_self]

theorem withConst_intRegOp_swap (o64 o32 : OpR) (w : Bool) (hl : l ≠ regT0) :
    Computes (withConst (if rd = l then regT0 else rd) c
      [intRegOp o64 o32 w rd (if rd = l then regT0 else rd) l]) ρ rd
        (aluR (if w then o32 else o64) c (ρ l)) := by
  refine withConst_tmp ((computes_intRegOp o64 o32 w).of_eq ?_)
  rw [Function.update_of_ne (tmp_ne hl), Function.update_self]

theorem withConst_tmp_instR (op : OpR) (hl : l ≠ regT0) :
    Computes (withConst (if rd = l then regT0 else rd) c
      [.instR ⟨op, rd, l, if rd = l then regT0 else rd⟩]) ρ rd (aluR op (ρ l) c) := by
  refine withConst_tmp ((computes_instR op).of_eq ?_)
  rw [Function.update_of_ne (tmp_ne hl), Function.update_self]

/-- Comparing with a short constant. -/
theorem slti_computes (hfit : Signed32 c) :
    Computes [.instI ⟨.slti, rd, l, imm32 c⟩] ρ rd (boolWord ((ρ l).slt c)) := by
  refine (computes_instI rfl _).of_eq ?_
  exact congrArg (fun x => boolWord ((ρ l).slt x)) hfit

/-- `x < c + 1` is `x ≤ c` where `c + 1` is short. -/
theorem slt_succ {a : Word} (hfit : fitsI12 (c + 1) = true) (hc : Signed32 c) :
    a.slt (c + 1) = !c.slt a := by
  obtain ⟨hlo, hhi⟩ := fitsI12_iff.mp hfit
  have hci : c.toInt = (imm32 c).toInt := by
    conv_lhs => rw [← hc]
    exact BitVec.toInt_signExtend_of_le (by omega)
  have hb := BitVec.two_mul_toInt_lt (x := imm32 c)
  have hb' := BitVec.le_two_mul_toInt (x := imm32 c)
  have hsucc : (c + 1).toInt = c.toInt + 1 := by
    rw [BitVec.toInt_add, show (1 : Word).toInt = 1 from rfl]
    exact Int.bmod_eq_of_le (by omega) (by omega)
  simp only [BitVec.slt, hsucc]
  by_cases h : c.toInt < a.toInt
  · simp [h]
  · simp [h]
    omega

/-- `slti` with `c + 1`. -/
theorem slti_succ_computes (hfit : fitsI12 (c + 1) = true) (hc : Signed32 c) :
    Computes [.instI ⟨.slti, rd, l, imm32 c + 1⟩] ρ rd (boolWord !c.slt (ρ l)) := by
  have himm : imm32 c + 1 = imm32 (c + 1) := by
    rw [imm32, imm32, BitVec.setWidth_add _ _ (by omega)]
    rfl
  rw [himm]
  exact (slti_computes (signed32_of_fits hfit)).of_eq (congrArg boolWord (slt_succ hfit hc))

theorem imm_and_31 : (imm32 c &&& 0x1F#32).toNat = (c &&& 0x1F#64).toNat := by
  rw [and_31_toNat, BitVec.toNat_and]
  show (imm32 c).toNat &&& (2 ^ 5 - 1) = _
  rw [Nat.and_two_pow_sub_one_eq_mod]
  rfl

theorem imm_and_63 : (imm32 c &&& 0x3F#32).toNat = (c &&& 0x3F#64).toNat := by
  rw [and_63_toNat, BitVec.toNat_and]
  show (imm32 c).toNat &&& (2 ^ 6 - 1) = _
  rw [Nat.and_two_pow_sub_one_eq_mod, imm32, BitVec.toNat_setWidth]
  omega

/-- Subtracting a constant is adding the opposite one. -/
theorem aluR_add_neg (w : Bool) (a c : Word) :
    aluR (if w then .addw else .add) a (-c) = aluR (if w then .subw else .sub) a c := by
  cases w with
  | false => exact (sub_eq_add_neg a c).symm
  | true =>
    have hlow : low (-c) = -low c := BitVec.setWidth_neg_of_le (by omega)
    show (low a + low (-c)).signExtend 64 = (low a - low c).signExtend 64
    rw [hlow, sub_eq_add_neg]

/-- Shifting by a constant. -/
theorem shift_computes {i64 i32 : OpI} {o64 o32 : OpR} (w : Bool)
    (h64 : i64.isAlu = true ∧ ∀ a, aluI i64 a (imm32 c) = aluR o64 a c)
    (h32 : i32.isAlu = true ∧ ∀ a, aluI i32 a (imm32 c) = aluR o32 a c) :
    Computes [.instI ⟨if w then i32 else i64, rd, l, imm32 c⟩] ρ rd
      (aluR (if w then o32 else o64) (ρ l) c) := by
  cases w with
  | false => exact (computes_instI h64.1 _).of_eq (h64.2 _)
  | true => exact (computes_instI h32.1 _).of_eq (h32.2 _)

variable (rd l) in
/-- A register and a constant of 32 bits. -/
theorem intRegConst_computes (hop : op.isDefinedOn t = true) (hl : l ≠ regT0) (hc : Signed32 c)
    (hct : Represents t c) :
    ∃ insts, intRegConst op (t == .int32) rd l c = .ok insts ∧
      ∀ ρ, Represents t (ρ l) → ∃ v, evalBinary op t (ρ l) c = some v ∧ Computes insts ρ rd v := by
  have himm : (imm32 c).signExtend 64 = c := hc
  unfold intRegConst
  simp only [himm]
  rcases isDefinedOn_cases hop with ⟨ht, ⟨o64, o32, halu⟩ | hcmp⟩ | ⟨rfl, rfl | rfl⟩
  · have heval := evalBinary_arith ht halu
    cases op with
    | add =>
      cases halu
      exact ⟨_, rfl, fun ρ _ => ⟨_, heval _ _, addRegImm_computes _ hl⟩⟩
    | sub =>
      cases halu
      exact ⟨_, rfl, fun ρ _ => ⟨_, heval _ _, (addRegImm_computes _ hl).of_eq (aluR_add_neg ..)⟩⟩
    | mul =>
      cases halu
      exact ⟨_, rfl, fun ρ _ => ⟨_, heval _ _, withConst_intRegOp _ _ _ hl⟩⟩
    | div =>
      cases halu
      exact ⟨_, rfl, fun ρ _ => ⟨_, heval _ _, withConst_intRegOp _ _ _ hl⟩⟩
    | mod =>
      cases halu
      exact ⟨_, rfl, fun ρ _ => ⟨_, heval _ _, withConst_intRegOp _ _ _ hl⟩⟩
    | shl =>
      cases halu
      exact ⟨_, rfl, fun ρ _ => ⟨_, heval _ _, shift_computes _
        ⟨rfl, fun a => by simp only [aluI, aluR, imm_and_63]⟩
        ⟨rfl, fun a => by simp only [aluI, aluR, imm_and_31]⟩⟩⟩
    | shrl =>
      cases halu
      exact ⟨_, rfl, fun ρ _ => ⟨_, heval _ _, shift_computes _
        ⟨rfl, fun a => by simp only [aluI, aluR, imm_and_63]⟩
        ⟨rfl, fun a => by simp only [aluI, aluR, imm_and_31]⟩⟩⟩
    | shra =>
      cases halu
      exact ⟨_, rfl, fun ρ _ => ⟨_, heval _ _, shift_computes _
        ⟨rfl, fun a => by simp only [aluI, aluR, imm_and_63]⟩
        ⟨rfl, fun a => by simp only [aluI, aluR, imm_and_31]⟩⟩⟩
    | _ => cases halu
  · cases op with
    | lt =>
      refine ⟨_, rfl, fun ρ ha => comparison_computes ht rfl rfl ha hct ?_⟩
      split
      · exact slti_computes hc
      · exact withConst_instR .slt hl
    | geq =>
      refine ⟨_, rfl, fun ρ ha => comparison_computes ht (congrArg some (sle_eq_not_slt _ _)) rfl
        ha hct (Computes.flip ?_)⟩
      split
      · exact slti_computes hc
      · exact withConst_instR .slt hl
    | gt =>
      refine ⟨_, rfl, fun ρ ha => comparison_computes ht rfl rfl ha hct ?_⟩
      split
      · refine (slti_succ_computes ‹_› hc).flip.of_eq (congrArg boolWord (Bool.not_not _))
      · exact withConst_instR_swap .slt hl
    | leq =>
      refine ⟨_, rfl, fun ρ ha => comparison_computes ht (congrArg some (sle_eq_not_slt _ _)) rfl
        ha hct ?_⟩
      split
      · exact slti_succ_computes ‹_› hc
      · exact (withConst_instR_swap .slt hl).flip
    | eq =>
      exact ⟨_, rfl, fun ρ ha => comparison_computes ht rfl rfl ha hct
        (withConst_instR .sub hl).seqz⟩
    | neq =>
      exact ⟨_, rfl, fun ρ ha => comparison_computes ht rfl rfl ha hct
        (withConst_instR .sub hl).snez⟩
    | _ => cases hcmp
  · exact ⟨_, rfl, fun ρ ha => ⟨_, (evalBinary_logical ha hct).1, withConst_tmp_instR .and hl⟩⟩
  · exact ⟨_, rfl, fun ρ ha => ⟨_, (evalBinary_logical ha hct).2, withConst_tmp_instR .or hl⟩⟩

/-! ### A constant on the left -/

/-- Is the operator applied the right way to a constant on the left? -/
def ConstLeft (op : InstOp) (c : Word) : Prop :=
  op ∉ [.shl, .shrl, .shra] ∧ (op ∈ [.gt, .leq] → fitsI12 c = true)

theorem aluR_comm {o64 o32 : OpR} (w : Bool) (a c : Word)
    (h : (o64 = .add ∧ o32 = .addw) ∨ (o64 = .mul ∧ o32 = .mulw)) :
    aluR (if w then o32 else o64) a c = aluR (if w then o32 else o64) c a := by
  rcases h with ⟨rfl, rfl⟩ | ⟨rfl, rfl⟩ <;> cases w
  · exact add_comm a c
  · exact congrArg (BitVec.signExtend 64) (add_comm (low a) (low c))
  · exact mul_comm a c
  · exact congrArg (BitVec.signExtend 64) (mul_comm (low a) (low c))

variable (rd r) in
/-- A constant of 32 bits and a register. -/
theorem intConstReg_computes (hop : op.isDefinedOn t = true) (hr : r ≠ regT0) (hc : Signed32 c)
    (hct : Represents t c) (hleft : ConstLeft op c) :
    ∃ insts, intConstReg op (t == .int32) rd r c = .ok insts ∧
      ∀ ρ, Represents t (ρ r) → ∃ v, evalBinary op t c (ρ r) = some v ∧ Computes insts ρ rd v := by
  unfold intConstReg
  obtain ⟨hshift, hfit⟩ := hleft
  rcases isDefinedOn_cases hop with ⟨ht, ⟨o64, o32, halu⟩ | hcmp⟩ | ⟨rfl, rfl | rfl⟩
  · have heval := evalBinary_arith ht halu
    cases op with
    | add =>
      cases halu
      exact ⟨_, rfl, fun ρ _ => ⟨_, heval _ _,
        (addRegImm_computes _ hr).of_eq (aluR_comm _ _ _ (.inl ⟨rfl, rfl⟩))⟩⟩
    | mul =>
      cases halu
      exact ⟨_, rfl, fun ρ _ => ⟨_, heval _ _,
        (withConst_intRegOp _ _ _ hr).of_eq (aluR_comm _ _ _ (.inr ⟨rfl, rfl⟩))⟩⟩
    | sub =>
      cases halu
      exact ⟨_, rfl, fun ρ _ => ⟨_, heval _ _, withConst_intRegOp_swap _ _ _ hr⟩⟩
    | div =>
      cases halu
      exact ⟨_, rfl, fun ρ _ => ⟨_, heval _ _, withConst_intRegOp_swap _ _ _ hr⟩⟩
    | mod =>
      cases halu
      exact ⟨_, rfl, fun ρ _ => ⟨_, heval _ _, withConst_intRegOp_swap _ _ _ hr⟩⟩
    | shl =>
      cases halu
      simp at hshift
    | shrl =>
      cases halu
      simp at hshift
    | shra =>
      cases halu
      simp at hshift
    | _ => cases halu
  · cases op with
    | lt =>
      exact ⟨_, rfl, fun ρ ha => comparison_computes ht rfl rfl hct ha
        (withConst_instR_swap .slt hr)⟩
    | geq =>
      exact ⟨_, rfl, fun ρ ha => comparison_computes ht (congrArg some (sle_eq_not_slt _ _)) rfl
        hct ha (withConst_instR_swap .slt hr).flip⟩
    | gt =>
      refine ⟨_, rfl, fun ρ ha => comparison_computes ht rfl rfl hct ha ?_⟩
      rw [if_pos (hfit (by simp))]
      exact slti_computes hc
    | leq =>
      refine ⟨_, rfl, fun ρ ha => comparison_computes ht (congrArg some (sle_eq_not_slt _ _)) rfl
        hct ha ?_⟩
      rw [if_pos (hfit (by simp))]
      exact (slti_computes hc).flip
    | eq =>
      exact ⟨_, rfl, fun ρ ha => comparison_computes ht (congrArg some Bool.beq_comm) rfl hct ha
        (withConst_tmp_instR .sub hr).seqz⟩
    | neq =>
      exact ⟨_, rfl, fun ρ ha => comparison_computes ht (congrArg (fun x => some !x) Bool.beq_comm)
        rfl hct ha (withConst_tmp_instR .sub hr).snez⟩
    | _ => cases hcmp
  · refine ⟨_, rfl, fun ρ ha => ⟨_, (evalBinary_logical hct ha).1, ?_⟩⟩
    exact (withConst_tmp_instR .and hr).of_eq (BitVec.and_comm ..)
  · refine ⟨_, rfl, fun ρ ha => ⟨_, (evalBinary_logical hct ha).2, ?_⟩⟩
    exact (withConst_tmp_instR .or hr).of_eq (BitVec.or_comm ..)

/-- A shift of a constant has no translation. -/
theorem intConstReg_shift (w : Bool) (h : op ∈ [.shl, .shrl, .shra]) :
    intConstReg op w rd r c = .error (.compilerError "Unhandled const-lhs binary op in isel") := by
  simp only [List.mem_cons, List.not_mem_nil, or_false] at h
  rcases h with rfl | rfl | rfl <;> rfl

variable (rd) in
/-- The comparisons whose long form has its operands the wrong way round: what they
compute from a register that holds zero. -/
theorem intConstReg_swapped (w : Bool) (hr : r ≠ regT0) (hfit : fitsI12 c = false)
    (hop : op = .gt ∨ op = .leq) :
    ∃ insts p, intConstReg op w rd r c = .ok insts ∧ comparison op c 0 = some !p ∧
      ∀ ρ : RegFile, ρ r = 0 → Computes insts ρ rd (boolWord p) := by
  -- such a constant is not zero, so one of `c < 0` and `0 < c` holds
  have hflip : (0 : Word).slt c = !c.slt 0 := by
    have hne : c.toInt ≠ 0 := by
      intro h0
      have hc : ¬(-2048 ≤ c.toInt ∧ c.toInt < 2048) := fun h => by simp [fitsI12_iff.mpr h] at hfit
      omega
    simp only [BitVec.slt]
    by_cases h : c.toInt < 0
    · simp [h]
      omega
    · simp [h]
      omega
  unfold intConstReg
  rcases hop with rfl | rfl
  · refine ⟨_, c.slt 0, rfl, congrArg some hflip, fun ρ h0 => ?_⟩
    rw [if_neg (by simp [hfit])]
    exact (withConst_instR_swap .slt hr).of_eq (by rw [h0]; rfl)
  · refine ⟨_, !c.slt 0, rfl, ?_, fun ρ h0 => ?_⟩
    · show some (c.sle 0) = _
      rw [sle_eq_not_slt, hflip]
    · rw [if_neg (by simp [hfit])]
      exact Computes.flip ((withConst_instR_swap .slt hr).of_eq (by rw [h0]; rfl))

end Forms

/-! ## Binary instructions -/

section Binary

/-- `GPR.reserved`: the registers that no variable gets. -/
def reservedGprs : List GeneralReg := [0, 2, 3, 4, 5]

/-- The types of integer and boolean operands. -/
def IsWord (t : Primitive) : Prop := t = .int1 ∨ IsInt t

/-- What an operand of type `t` is: a variable in a register of its own, or a boolean
constant or one of 32 bits. -/
inductive IsOperand (regs : ColorMap) (t : Primitive) : Value → Prop
  | reg {v : LeftValue} {r : GeneralReg} (htype : v.type = .prim t) (hreg : regs.lookup v.var = some r)
    (hfree : r ∉ reservedGprs) : IsOperand regs t (.left v)
  | const {c : ConstexprValue} {imm : Word} (htype : c.type = .prim t)
    (himm : extractImm c = some imm) (hlow : Signed32 imm) (hrep : Represents t imm) :
    IsOperand regs t (.const c)

/-- The word that an operand is while the registers hold `ρ`. -/
def operandWord (regs : ColorMap) (ρ : RegFile) : Value → Option Word
  | .left v => (regs.lookup v.var).map ρ
  | .const c => extractImm c

/-- The type at which operands of two types are computed with: the wider one. -/
def operationType (lt rt : Primitive) : Primitive :=
  match lt, rt with
  | .int1, _ => rt
  | .int32, .int => .int
  | _, _ => lt

/-- The code of an instruction on operands of the types `lt` and `rt`: it leaves what the
operator computes in the register `rd`, and changes no other register but `t0`, and
nothing else. -/
def CodeCorrect (env : Env) (ctx : Ctx) (pool : List FloatLiteral) (inst : BinaryInst)
    (lt rt : Primitive) (rd : GeneralReg) : Prop :=
  ∃ insts, translateBinary ctx pool inst = .ok (insts, pool) ∧
    ∀ (img : Image) (s : State env) (a b : Word),
      operandWord ctx.regs s.regs inst.lhs = some a → Represents lt a →
      operandWord ctx.regs s.regs inst.rhs = some b → Represents rt b →
      ∃ v ρ, evalBinary inst.op (operationType lt rt) a b = some v ∧
        execAll img insts s = .ok { s with regs := ρ } ∧ ρ rd = v ∧
          ∀ r, r ≠ rd → r ≠ regT0 → ρ r = s.regs r

variable {env : Env} {ctx : Ctx} {pool : List FloatLiteral} {inst : BinaryInst}
  {result : LeftValue} {lt rt : Primitive} {rd : GeneralReg} {v : Value} {a b : Word}

theorem IsOperand.typeOf {t : Primitive} (h : IsOperand ctx.regs t v) : v.typeOf = .prim t := by
  cases h with
  | reg htype => exact htype
  | const htype => exact htype

theorem represents_left (hlt : IsWord lt) (hrt : IsWord rt) (h : Represents lt a) :
    Represents (operationType lt rt) a := by
  rcases hlt with rfl | rfl | rfl <;> rcases hrt with rfl | rfl | rfl <;>
    first | exact h | trivial | (rcases h with rfl | rfl <;> rfl)

theorem represents_right (hlt : IsWord lt) (hrt : IsWord rt) (h : Represents rt b) :
    Represents (operationType lt rt) b := by
  rcases hlt with rfl | rfl | rfl <;> rcases hrt with rfl | rfl | rfl <;>
    first | exact h | trivial | (rcases h with rfl | rfl <;> rfl)

/-- Integer operands: the instruction is translated at the wider type. -/
theorem translateBinary_eq (hres : inst.result = some result)
    (hrd : ctx.regs.lookup result.var = some rd) (hl : IsOperand ctx.regs lt inst.lhs)
    (hr : IsOperand ctx.regs rt inst.rhs) (hlt : IsWord lt) (hrt : IsWord rt) :
    translateBinary ctx pool inst =
      (translateInt inst.op (operationType lt rt == .int32) rd (lookupReg ctx.regs inst.lhs)
        (lookupReg ctx.regs inst.rhs) inst.lhs inst.rhs).map (·, pool) := by
  have hcode : ∀ t, (operationType lt rt == .int32) = is32BitOp t →
      (do return (← translateInt inst.op (is32BitOp t) rd (lookupReg ctx.regs inst.lhs)
        (lookupReg ctx.regs inst.rhs) inst.lhs inst.rhs, pool) : Emitted) =
      (translateInt inst.op (operationType lt rt == .int32) rd (lookupReg ctx.regs inst.lhs)
        (lookupReg ctx.regs inst.rhs) inst.lhs inst.rhs).map (·, pool) := by
    intro t ht
    rw [ht]
    cases translateInt inst.op (is32BitOp t) rd (lookupReg ctx.regs inst.lhs)
        (lookupReg ctx.regs inst.rhs) inst.lhs inst.rhs <;> rfl
  unfold translateBinary
  rw [hres]
  simp only [lookupReg, hrd, hl.typeOf, hr.typeOf]
  rcases hlt with rfl | rfl | rfl <;> rcases hrt with rfl | rfl | rfl <;> exact hcode _ rfl

theorem allocatable_ne {r : GeneralReg} (h : r ∉ reservedGprs) : r ≠ regT0 := by
  rintro rfl
  exact h (by decide)

theorem execAll_of_computes {insts : List Inst} {s : State env} {img : Image} {x : Word}
    (heval : evalBinary inst.op (operationType lt rt) a b = some x)
    (h : Computes insts s.regs rd x) :
    ∃ v ρ, evalBinary inst.op (operationType lt rt) a b = some v ∧
      execAll img insts s = .ok { s with regs := ρ } ∧ ρ rd = v ∧
        ∀ r, r ≠ rd → r ≠ regT0 → ρ r = s.regs r := by
  obtain ⟨ρ, hrun, hrd, hframe⟩ := h
  exact ⟨x, ρ, heval, execAll_of_runRegs img hrun, hrd, hframe⟩

/-- A state in which every register holds zero. -/
def zeroState (input : env.Input) : State env :=
  ⟨fun _ => 0, fun _ => 0, fun _ => 0, [], 0, input, []⟩

theorem represents_zero (t : Primitive) : Represents t 0 := by
  cases t <;> first | trivial | rfl | exact .inl rfl

/-- Code that computes the wrong truth value of a comparison is not correct. -/
theorem not_computes_not {t : Primitive} {op : InstOp} {insts : List Inst} {s : State env}
    {img : Image} {p : Bool} {c x : Word} {ρ : RegFile} (hop : op.isDefinedOn t = true)
    (hcmp : op = .gt ∨ op = .leq) (hc : Represents t c) (hp : comparison op c 0 = some !p)
    (hrun : Computes insts s.regs rd (boolWord p)) (hx : evalBinary op t c 0 = some x)
    (hexec : execAll img insts s = .ok { s with regs := ρ }) (hρ : ρ rd = x) : False := by
  have ht : IsInt t := by
    rcases isDefinedOn_cases hop with ⟨ht, _⟩ | ⟨_, hlog⟩
    · exact ht
    · rcases hcmp with rfl | rfl <;> simp at hlog
  rw [evalBinary_compare ht (by rcases hcmp with rfl | rfl <;> rfl) hc (represents_zero t), hp] at hx
  cases hx
  obtain ⟨ρ', hrun', hv, _⟩ := hrun
  rw [execAll_of_runRegs img hrun'] at hexec
  cases hexec
  rw [hv] at hρ
  cases p <;> simp [boolWord] at hρ

/-- `x` in `a0`. -/
def inA0 : ColorMap := [(.temp 0, 10)]

/-- `5000 > x`. -/
def above5000 : BinaryInst :=
  ⟨.gt, some ⟨.prim .int1, .temp 0⟩, .const ⟨.prim .int32, .int 5000⟩, .left ⟨.prim .int32, .temp 0⟩⟩

/-- `100 > x`. -/
def above100 : BinaryInst :=
  { above5000 with lhs := .const ⟨.prim .int32, .int 100⟩ }

end Binary

end Isel
end Rv64
end Cact
