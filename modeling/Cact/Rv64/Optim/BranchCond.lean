import Cact.Rv64.Optim.Site
import Cact.Rv64.Straight

/-!
# The rules of `BranchCondSimplification`

Every window of the three rules is straight code into the condition register
followed by a branch on it, and so is what replaces it. The two branches always
agree (`Fused.agree`); the condition register does not. So the rewriting is right
as soon as nothing reads that register after the branch.

- `Fused`: what the three rules have in common.
- `fused_of_rule`: they do.
- `Fused.burst`: the run through the window.
-/

namespace Cact

namespace Rv64

namespace Optim

namespace BranchCondSimplification

/-- A window and what replaces it: straight code into `x`, then a branch on the
same condition. All that either of them reads is read by the first instruction. -/
structure Fused (w w' : List Inst) (x : GeneralReg) where
  code : List Inst
  code' : List Inst
  br : Inst
  br' : Inst
  label : String
  cond : RegFile → Bool
  cond' : RegFile → Bool
  first : Inst
  window_eq : w = code ++ [br]
  window'_eq : w' = code' ++ [br']
  straight : Straight x code
  straight' : Straight x code'
  branch : br.branch? = some (label, cond)
  branch' : br'.branch? = some (label, cond')
  head : w.head? = some first
  agree : ∀ ρ ρ' : RegFile, (∀ r ∈ first.reads, ρ' r = ρ r) →
    cond' (effects code' ρ') = cond (effects code ρ)

/-! ## Conditions -/

theorem ofBool_eq_zero (b : Bool) : (ofBool b == 0) = !b := by cases b <;> rfl

theorem ofBool_ne_zero (b : Bool) : (ofBool b != 0) = b := by cases b <;> rfl

theorem ofBool_xor_one (b : Bool) : aluI .xori (ofBool b) 1 = ofBool (!b) := by
  cases b <;> decide

theorem takenPseudo_negate (op : PseudoBOp) (b : Bool) :
    takenPseudo (negate op) (ofBool b) = takenPseudo op (ofBool (!b)) := by
  cases op <;> cases b <;> rfl

/-- A comparison sets its register to 0 or 1, and reads only what it says it reads. -/
theorem cmpRd_compute {i : Inst} {x : GeneralReg} (h : cmpRd i = some x) :
    ∃ b : RegFile → Bool, i.compute? = some (x, fun ρ => ofBool (b ρ)) ∧
      ∀ ρ ρ' : RegFile, (∀ r ∈ i.reads, ρ' r = ρ r) → b ρ' = b ρ := by
  cases i with
  | instR i =>
    obtain ⟨op, rd, rs1, rs2⟩ := i
    simp only [cmpRd] at h
    split at h
    · rename_i hop
      cases h
      obtain rfl | rfl := hop
      · refine ⟨fun ρ => (ρ rs1).slt (ρ rs2), rfl, fun ρ ρ' hr => ?_⟩
        simp only [hr rs1 (by simp [Inst.reads]), hr rs2 (by simp [Inst.reads])]
      · refine ⟨fun ρ => (ρ rs1).ult (ρ rs2), rfl, fun ρ ρ' hr => ?_⟩
        simp only [hr rs1 (by simp [Inst.reads]), hr rs2 (by simp [Inst.reads])]
    · cases h
  | instI i =>
    obtain ⟨op, rd, rs1, imm⟩ := i
    simp only [cmpRd] at h
    split at h
    · rename_i hop
      cases h
      obtain rfl | rfl := hop
      · refine ⟨fun ρ => (ρ rs1).slt (imm.signExtend 64), rfl, fun ρ ρ' hr => ?_⟩
        simp only [hr rs1 (by simp [Inst.reads, storeWidth])]
      · refine ⟨fun ρ => (ρ rs1).ult (imm.signExtend 64), rfl, fun ρ ρ' hr => ?_⟩
        simp only [hr rs1 (by simp [Inst.reads, storeWidth])]
    · cases h
  | pseudoR i =>
    obtain ⟨op, rd, rs1⟩ := i
    simp only [cmpRd] at h
    split at h
    · rename_i hop
      cases h
      obtain rfl | rfl := hop
      · refine ⟨fun ρ => ρ rs1 == 0, rfl, fun ρ ρ' hr => ?_⟩
        simp only [hr rs1 (by simp [Inst.reads])]
      · refine ⟨fun ρ => ρ rs1 != 0, rfl, fun ρ ρ' hr => ?_⟩
        simp only [hr rs1 (by simp [Inst.reads])]
    · cases h
  | _ => cases h

/-- The branch that compares by itself decides as the two instructions did. -/
theorem branchOp_taken {op : OpR} {brop : PseudoBOp} {bop : OpB}
    (h : branchOp op brop = some bop) (a b : Word) :
    takenB bop a b = takenPseudo brop (aluR op a b) := by
  cases op <;> cases brop <;> simp only [branchOp] at h <;> cases h
  · simp only [takenB, takenPseudo, aluR, ofBool_eq_zero, BitVec.sle_eq_not_slt]
  · simp only [takenB, takenPseudo, aluR, ofBool_ne_zero]
  · simp only [takenB, takenPseudo, aluR, ofBool_eq_zero, BitVec.ule_eq_not_ult]
  · simp only [takenB, takenPseudo, aluR, ofBool_ne_zero]

/-- The branch on the operand decides as the test for zero and the branch did. -/
theorem zeroBranch_taken {op : PseudoROp} (hop : op = .seqz ∨ op = .snez) (brop : PseudoBOp)
    (a : Word) :
    takenPseudo (if (op == .seqz) == (brop == .bnez) then .beqz else .bnez) a =
      takenPseudo brop (aluPseudo op a) := by
  obtain rfl | rfl := hop <;> cases brop
  · show (a != 0) = (ofBool (a == 0) == 0)
    rw [ofBool_eq_zero, bne]
  · show (a == 0) = (ofBool (a == 0) != 0)
    rw [ofBool_ne_zero]
  · show (a == 0) = (ofBool (a != 0) == 0)
    rw [ofBool_eq_zero, bne, Bool.not_not]
  · show (a != 0) = (ofBool (a != 0) != 0)
    rw [ofBool_ne_zero]

/-! ## The rules -/

theorem fused_of_rule1 {w w' : List Inst} {br : PseudoB} (hlen : w.length = 3)
    (h : rule1 w = some w') (hbr : w.getLast? = some (.pseudoB br)) :
    Nonempty (Fused w w' br.rs1) := by
  unfold rule1 at h
  split at h
  · rename_i cmp xori br' rest
    have hrest : rest = [] := List.length_eq_zero_iff.mp (by simpa using hlen)
    subst hrest
    have hbr' : br' = br := by simpa using hbr
    subst hbr'
    split at h
    · rename_i hx
      split at h
      · rename_i hrd
        cases h
        obtain ⟨op, rd, rs1, imm⟩ := xori
        obtain ⟨hop, himm, hrs⟩ := hx
        simp only at hop himm hrs
        subst hop himm hrs
        obtain ⟨hcmp, hbr⟩ := hrd
        simp only at hcmp hbr
        subst hbr
        obtain ⟨b, hb, hreads⟩ := cmpRd_compute hcmp
        refine ⟨⟨[cmp, .instI ⟨.xori, br'.rs1, br'.rs1, 1⟩], [cmp], .pseudoB br',
          .pseudoB ⟨negate br'.op, br'.rs1, br'.target⟩, br'.target, _, _, cmp, rfl, rfl,
          ?_, ?_, rfl, rfl, rfl, ?_⟩⟩
        · exact List.forall_mem_cons.mpr ⟨⟨_, hb⟩, List.forall_mem_singleton.mpr ⟨_, rfl⟩⟩
        · exact List.forall_mem_singleton.mpr ⟨_, hb⟩
        · intro ρ ρ' hρ
          have hxor : ∀ σ, effect (.instI ⟨.xori, br'.rs1, br'.rs1, 1⟩) σ =
              Function.update σ br'.rs1 (aluI .xori (σ br'.rs1) 1) := fun _ => rfl
          simp only [effects_cons, effects_nil, hxor, effect_of_compute hb, Function.update_self,
            ofBool_xor_one, takenPseudo_negate, hreads ρ ρ' hρ]
      · cases h
    · cases h
  · cases h

theorem fused_of_rule2 {w w' : List Inst} {br : PseudoB} (hlen : w.length = 2)
    (h : rule2 w = some w') (hbr : w.getLast? = some (.pseudoB br)) :
    Nonempty (Fused w w' br.rs1) := by
  unfold rule2 at h
  split at h
  · rename_i slt br' rest
    have hrest : rest = [] := List.length_eq_zero_iff.mp (by simpa using hlen)
    subst hrest
    have hbr' : br' = br := by simpa using hbr
    subst hbr'
    split at h
    · rename_i hrd
      obtain ⟨bop, hbop, rfl⟩ := Option.map_eq_some_iff.mp h
      obtain ⟨op, rd, rs1, rs2⟩ := slt
      simp only at hrd
      subst hrd
      refine ⟨⟨[.instR ⟨op, br'.rs1, rs1, rs2⟩], [], .pseudoB br',
        .instB ⟨bop, rs1, rs2, br'.target⟩, br'.target, _, _, .instR ⟨op, br'.rs1, rs1, rs2⟩,
        rfl, rfl, ?_, ?_, rfl, rfl, rfl, ?_⟩⟩
      · exact List.forall_mem_singleton.mpr ⟨_, rfl⟩
      · exact fun _ hi => absurd hi List.not_mem_nil
      · intro ρ ρ' hρ
        have h1 : ρ' rs1 = ρ rs1 := hρ rs1 (by simp [Inst.reads])
        have h2 : ρ' rs2 = ρ rs2 := hρ rs2 (by simp [Inst.reads])
        have hslt := effect_of_compute (i := .instR ⟨op, br'.rs1, rs1, rs2⟩) rfl ρ
        simp only [effects_cons, effects_nil, hslt, Function.update_self, h1, h2,
          branchOp_taken hbop]
    · cases h
  · cases h

theorem fused_of_rule3 {w w' : List Inst} {br : PseudoB} (hlen : w.length = 2)
    (h : rule3 w = some w') (hbr : w.getLast? = some (.pseudoB br)) :
    Nonempty (Fused w w' br.rs1) := by
  unfold rule3 at h
  split at h
  · rename_i pr br' rest
    have hrest : rest = [] := List.length_eq_zero_iff.mp (by simpa using hlen)
    subst hrest
    have hbr' : br' = br := by simpa using hbr
    subst hbr'
    split at h
    · rename_i hcond
      cases h
      obtain ⟨op, rd, rs1⟩ := pr
      obtain ⟨brop, x, l⟩ := br'
      obtain ⟨hop, hrd⟩ := hcond
      simp only at hop hrd
      subst hrd
      refine ⟨⟨[.pseudoR ⟨op, rd, rs1⟩], [], .pseudoB ⟨brop, rd, l⟩, _, l, _, _,
        .pseudoR ⟨op, rd, rs1⟩, rfl, rfl, ?_, ?_, rfl, rfl, rfl, ?_⟩⟩
      · exact List.forall_mem_singleton.mpr ⟨_, rfl⟩
      · exact fun _ hi => absurd hi List.not_mem_nil
      · intro ρ ρ' hρ
        have h1 : ρ' rs1 = ρ rs1 := hρ rs1 (by simp [Inst.reads])
        have hset := effect_of_compute (i := .pseudoR ⟨op, rd, rs1⟩) rfl ρ
        simp only [effects_cons, effects_nil, hset, Function.update_self, h1, zeroBranch_taken hop]
    · cases h
  · cases h

/-- Each of the rules fuses a comparison and a branch. -/
theorem fused_of_rule {rule : List Inst → Option (List Inst)} {w w' : List Inst} {br : PseudoB}
    (hrule : (w.length, rule) ∈ rules) (h : rule w = some w')
    (hbr : w.getLast? = some (.pseudoB br)) : Nonempty (Fused w w' br.rs1) := by
  simp only [rules, List.mem_cons, List.not_mem_nil, or_false, Prod.mk.injEq] at hrule
  obtain ⟨hlen, rfl⟩ | ⟨hlen, rfl⟩ | ⟨hlen, rfl⟩ := hrule
  · exact fused_of_rule1 hlen h hbr
  · exact fused_of_rule2 hlen h hbr
  · exact fused_of_rule3 hlen h hbr

/-! ## The run through the window -/

section Burst

variable {env : Env} {x : GeneralReg}

/-- If the condition register is dead after the branch, both runs leave the window
in related states. -/
theorem Fused.burst (sp : Splice) (f : Fused sp.window sp.window' x) (hl : sp.LabelsOutside) {c c' : Conf env}
    (h : sp.Related c c') (hf : c.fault = none) (hpc : c.state.pc = sp.before.length)
    (hdead : ∀ b t : Conf env, (machine env sp.source).Steps (sp.window.length - 1) c b →
      stepConf sp.source b = some t → ¬ Live sp.source t x) : sp.Burst c c' := by
  obtain ⟨hcode, hbr⟩ := (f.window_eq ▸ codeAt_window sp).append
  obtain ⟨hcode', hbr'⟩ := (f.window'_eq ▸ codeAt_window' sp).append
  have hlen : sp.window.length = f.code.length + 1 := by simp [f.window_eq]
  have hpos : 0 < sp.window.length := by omega
  have hlen' : sp.window'.length = f.code'.length + 1 := by simp [f.window'_eq]
  have hf' : c'.fault = none := h.fault_eq.trans hf
  have hpc' := h.pc_eq hpc
  rw [← hpc] at hcode hbr
  rw [← hpc'] at hcode' hbr'
  -- the old run: the comparison, then the branch
  have hrun := straight_steps f.code hf hcode f.straight
  have hlast := step_branch (c := c.put (effects f.code c.state.regs) _) rfl hbr.head f.branch
  -- the new run
  have hrun' := straight_steps f.code' hf' hcode' f.straight'
  have hlast' := step_branch (c := c'.put (effects f.code' c'.state.regs) _) rfl hbr'.head f.branch'
  have hcond : f.cond' (effects f.code' c'.state.regs) = f.cond (effects f.code c.state.regs) := by
    refine f.agree _ _ fun r hr => h.live_eq r (.read hf ?_ hr)
    rw [hpc]
    have hfirst := Splice.source_code_window hpos
    rw [Nat.add_zero] at hfirst
    rw [hfirst, ← List.head?_eq_getElem?, f.head]
  refine ⟨f.code.length, _, _, hrun.trans (DetMachine.steps_one hlast),
    ⟨_, hrun'.trans (DetMachine.steps_one hlast')⟩, ?_, ?_, ?_⟩
  · -- the same branch is taken, and only the condition register differs
    refine h.of_window (effects f.code c.state.regs) (effects f.code' c'.state.regs)
      (if f.cond (effects f.code c.state.regs) then sp.source.branchTarget f.label
        else sp.before.length + sp.window.length) c.state.memory ?_ ?_ ?_ ?_
    · split
      · exact Splice.outside_branchTarget hl _
      · exact .inr (Nat.le_refl _)
    · simp only [Conf.put, hpc, hlen, Nat.add_assoc]
    · have hmove : sp.move (sp.before.length + sp.window.length) =
          sp.before.length + sp.window'.length := by
        rw [Splice.move_ge (Nat.le_refl _) (by rw [hlen]; exact Nat.succ_pos _)]
        omega
      simp only [Conf.put, hpc', hcond, ← h.memory_eq, apply_ite sp.move, hmove, hlen', Nat.add_assoc,
        (Splice.moved hpos).target_eq]
    · intro r hr
      have hne : r ≠ x := by
        rintro rfl
        refine hdead (c.put (effects f.code c.state.regs) (c.state.pc + f.code.length)) _ ?_
          hlast hr
        rw [hlen, Nat.add_sub_cancel]
        exact hrun
      have hlive : Live sp.source c r := by
        refine live_before_straight hf hcode f.straight hne (.later hlast hbr.head ?_ hr)
        rw [writes_of_branch f.branch]
        exact List.not_mem_nil
      rw [effects_of_ne f.straight' hne, effects_of_ne f.straight hne, h.live_eq r hlive]
  · intro j u h0 hj hu hout
    have hpcu := pc_inside_straight hf hcode f.straight hj hu
    obtain hout | hout := hout <;> omega
  · exact .inl ⟨f.code'.length, hrun'.trans (DetMachine.steps_one hlast')⟩

end Burst

end BranchCondSimplification

end Optim

end Rv64
end Cact
