import Cact.Rv64.Optim.BranchCond
import Cact.Rv64.Optim.Label
import Cact.Rv64.Optim.Load

/-!
# Assembly passes and the run of the machine

Each rewriting of an assembly pass is sound under its own condition (`Guard.safe`):
a fused branch must leave behind a register that the run does not read again, and
a removed jump must lead to where the machine would go on by itself. The other
rewritings have none. A sequence of rewritings that all meet their condition
leaves the run observably the same.

- `Guard.safe`: the two conditions, for the run on one input.
- `sound_branchCond`, `sound_redundantLoad`, `sound_redundantJump`: one step each.
- `assemblyPasses_preserve`: any number of steps.
- `optimizeAsm_steps`: what the driver does is such a sequence of rewritings.
-/

namespace Cact

namespace Rv64

open Ir (Fault)

namespace Optim

/-- Runs of two modules on one input cannot be told apart. -/
def SameRun (env : Env) (input : env.Input) (m m' : Module) : Prop :=
  (machine env m.image).ObsEq (initConf env m input) (machine env m'.image) (initConf env m' input)

/-- The conditions under which the rewritings are right in the run on an input:
whenever the run executes the branch, it does not read the condition register
afterwards; and the label of the jump is that of the next instruction. -/
def Guard.safe (env : Env) (input : env.Input) : Guard where
  branch m idx x := ∀ b t : Conf env, (machine env m.image).Reaches (initConf env m input) b →
    b.state.pc = idx → stepConf m.image b = some t → ¬ Live m.image t x
  jump m idx l := findLabel m.labels l = some (idx + 1)

/-! ## What the windows of the rules need -/

theorem usesPc_of_compute {i : Inst} {x : GeneralReg} {v : RegFile → Word}
    (h : i.compute? = some (x, v)) : i.usesPc = false := by
  cases i with
  | instR i => rfl
  | pseudoR i => rfl
  | instI i =>
    obtain ⟨op, rd, rs1, imm⟩ := i
    cases op <;> simp only [Inst.compute?, OpI.isAlu, Bool.false_eq_true, if_false] at h <;>
      first | rfl | cases h
  | _ => cases h

theorem needsLabel_of_compute {i : Inst} {x : GeneralReg} {v : RegFile → Word}
    (h : i.compute? = some (x, v)) : needsLabel i = none := by
  cases i with
  | instR i => rfl
  | pseudoR i => rfl
  | instI i => rfl
  | _ => cases h

theorem usesPc_of_branch {i : Inst} {l : String} {b : RegFile → Bool}
    (h : i.branch? = some (l, b)) : i.usesPc = false := by
  cases i with
  | instB i => rfl
  | pseudoB i => rfl
  | _ => cases h

theorem needsLabel_of_branch {i : Inst} {l : String} {b : RegFile → Bool}
    (h : i.branch? = some (l, b)) : needsLabel i = some l := by
  cases i with
  | instB i => cases h; rfl
  | pseudoB i => cases h; rfl
  | _ => cases h

theorem needs_of_straight {x : GeneralReg} {l : List Inst} (h : Straight x l) :
    l.filterMap needsLabel = [] := by
  refine List.filterMap_eq_nil_iff.mpr fun i hi => ?_
  obtain ⟨v, hv⟩ := h i hi
  exact needsLabel_of_compute hv

theorem usesPc_of_straight {x : GeneralReg} {l : List Inst} (h : Straight x l) :
    ∀ i ∈ l, i.usesPc = false := by
  intro i hi
  obtain ⟨v, hv⟩ := h i hi
  exact usesPc_of_compute hv

section Site

variable (s : Site) {w w' : List Inst}

/-- A window may be replaced by one without `jal`, `jalr` and `auipc`. -/
theorem plug_wellFormed (h : (s.plug w).WellFormed) (hw : ∀ i ∈ w', i.usesPc = false) :
    (s.plug w').WellFormed where
  noPc := by
    intro inst hi
    have hold := h.noPc inst
    rw [Site.plug_flat] at hi hold
    simp only [List.mem_append] at hi hold
    obtain (hi | hi) | hi := hi
    · exact hold (.inl (.inl hi))
    · exact hw inst hi
    · exact hold (.inr hi)
  mainFirst := by
    intro f hf
    simp only [Site.plug, List.mem_append, List.mem_cons] at hf
    obtain hf | rfl | hf := hf
    · exact h.mainFirst f (by simp [Site.plug, hf])
    · have hold := h.mainFirst (s.plugFunc w) (by simp [Site.plug])
      simpa [Site.plugFunc] using hold
    · exact h.mainFirst f (by simp [Site.plug, hf])

theorem windowNoPc (h : (s.plug w).WellFormed) : ∀ i ∈ w, i.usesPc = false := by
  intro i hi
  refine h.noPc i ?_
  rw [Site.plug_flat]
  simp [hi]

variable {env : Env} {input : env.Input}

/-- A window that is left in related states may be replaced. -/
theorem sound_of_burst (h : (s.plug w).WellFormed) (hpos : 0 < w.length)
    (hburst : ∀ c c' : Conf env,
      (machine env (s.plug w).image).Reaches (initConf env (s.plug w) input) c →
      (s.splice w w').Related c c' → c.fault = none → c.state.pc = s.codeBefore.length →
      (s.splice w w').Burst c c') :
    (s.splice w w').Sound (initConf env (s.plug w) input) where
  labels_outside := s.labelsOutside w w'
  window_pos := hpos
  noPc := by
    rw [← s.plug_image w w']
    exact h.noPc
  burst := by
    rw [← s.plug_image w w']
    exact hburst

/-- The runs before and after a sound replacement. -/
theorem sameRun_of_sound (hpos : 0 < w.length)
    (hneeds : Site.missing (s.plug w).labels w' = Site.missing (s.plug w).labels w)
    (hs : (s.splice w w').Sound (initConf env (s.plug w) input)) :
    SameRun env input (s.plug w) (s.plug w') := by
  have hobs := hs.obsEq (s.init_related w w' env input hpos hneeds)
  rwa [← s.plug_image w w', ← s.plug_image' w w' hpos] at hobs

end Site

section Needs

variable {w w' : List Inst} {x : GeneralReg}

open BranchCondSimplification in
/-- Both windows need the label of the branch. -/
theorem needs_of_fused (f : Fused w w' x) :
    w.filterMap needsLabel = [f.label] ∧ w'.filterMap needsLabel = [f.label] := by
  have hw := congrArg (List.filterMap needsLabel) f.window_eq
  have hw' := congrArg (List.filterMap needsLabel) f.window'_eq
  rw [List.filterMap_append, needs_of_straight f.straight] at hw
  rw [List.filterMap_append, needs_of_straight f.straight'] at hw'
  simp only [List.filterMap_cons, needsLabel_of_branch f.branch, List.filterMap_nil] at hw
  simp only [List.filterMap_cons, needsLabel_of_branch f.branch', List.filterMap_nil] at hw'
  exact ⟨hw, hw'⟩

/-- Neither window needs a label. -/
theorem needs_of_storeLoad (f : RedundantLoadElimination.StoreLoad w w') :
    w.filterMap needsLabel = [] ∧ w'.filterMap needsLabel = [] := by
  have hw := congrArg (List.filterMap needsLabel) f.window_eq
  have hw' := congrArg (List.filterMap needsLabel) f.window'_eq
  rw [List.filterMap_cons_none rfl,
    needs_of_straight (RedundantLoadElimination.genExtract_straight _ _ _)] at hw'
  exact ⟨hw, hw'⟩

end Needs

theorem codeAt_plug (s : Site) (w : List Inst) :
    CodeAt (s.plug w).image s.codeBefore.length w := by
  have hwin := codeAt_window (s.splice w [])
  rwa [← s.plug_image w []] at hwin

open BranchCondSimplification in
theorem codeAt_fused {img : Image} {pc : Nat} {w w' : List Inst} {x : GeneralReg}
    (f : Fused w w' x) (h : CodeAt img pc w) : CodeAt img pc (f.code ++ [f.br]) :=
  f.window_eq ▸ h

/-! ## One rewriting -/

section Step

variable {env : Env} {input : env.Input} (s : Site) {w w' : List Inst}

open BranchCondSimplification in
theorem sound_branchCond {x : GeneralReg} (f : Fused w w' x) (h : (s.plug w).WellFormed)
    (hg : (Guard.safe env input).branch (s.plug w) (s.codeBefore.length + (w.length - 1)) x) :
    (s.splice w w').Sound (initConf env (s.plug w) input) := by
  have hlen : w.length = f.code.length + 1 := by
    have hlen := congrArg List.length f.window_eq
    simpa using hlen
  refine sound_of_burst s h (by omega) fun c c' hc hR hf hpc => ?_
  refine Fused.burst (s.splice w w') f (s.labelsOutside w w') hR hf hpc fun b t hb ht => ?_
  -- the branch is executed in a state of the run
  rw [← s.plug_image w w'] at hb ht ⊢
  refine hg b t (hc.trans ⟨_, hb⟩) ?_ ht
  have hcode : CodeAt (s.plug w).image c.state.pc f.code := by
    rw [hpc]
    exact (codeAt_fused f (codeAt_plug s w)).append.1
  have hpcb := pc_inside_straight hf hcode f.straight (j := w.length - 1) (by omega) hb
  rw [hpcb, hpc]

theorem sound_redundantLoad (f : RedundantLoadElimination.StoreLoad w w')
    (h : (s.plug w).WellFormed) : (s.splice w w').Sound (initConf env (s.plug w) input) := by
  have hlen : w.length = 2 := congrArg List.length f.window_eq
  exact sound_of_burst s h (by omega) fun c c' _ hR hf hpc =>
    RedundantLoadElimination.StoreLoad.burst (s.splice w w') f hR hf hpc

theorem sound_redundantJump {l : String} (h : (s.plug [.pseudoJ ⟨.j, l⟩]).WellFormed)
    (hg : findLabel (s.plug [.pseudoJ ⟨.j, l⟩]).labels l = some (s.codeBefore.length + 1)) :
    (s.splice [.pseudoJ ⟨.j, l⟩] []).Sound (initConf env (s.plug [.pseudoJ ⟨.j, l⟩]) input) := by
  refine sound_of_burst s h Nat.zero_lt_one fun c c' _ hR hf hpc => ?_
  have hcode := (codeAt_plug s [.pseudoJ ⟨.j, l⟩]).head
  have htarget : (s.plug [.pseudoJ ⟨.j, l⟩]).image.branchTarget l = s.codeBefore.length + 1 := by
    unfold Image.branchTarget
    exact congrArg (Option.getD · 0) hg
  have hstep := stepConf_of_code hf (hpc ▸ hcode)
  -- the jump only moves the program counter, and the move of the code undoes that
  have hexec : exec (s.plug [.pseudoJ ⟨.j, l⟩]).image (.pseudoJ ⟨.j, l⟩) c.state.advance =
      .ok (c.state.jump (s.codeBefore.length + 1)) := by
    rw [← htarget]
    rfl
  rw [hexec, s.plug_image] at hstep
  have hfix : (s.splice [.pseudoJ ⟨.j, l⟩] []).move (s.codeBefore.length + 1) =
      s.codeBefore.length := by
    have hpos : 0 < (s.splice [.pseudoJ ⟨.j, l⟩] []).window.length := Nat.zero_lt_one
    exact Splice.move_ge (Nat.le_refl _) hpos
  have hpc' := hR.pc_eq hpc
  have hf' : c'.fault = none := hR.fault_eq.trans hf
  obtain ⟨s', fault'⟩ := c'
  cases hf'
  refine ⟨0, _, _, DetMachine.steps_one hstep, .refl, ?_, ?_, .inr ⟨rfl, ?_⟩⟩
  · refine hR.of_window c.state.regs s'.regs (s.codeBefore.length + 1) c.state.memory
      (.inr (Nat.le_refl _)) rfl ?_ ?_
    · rw [hfix, ← hR.memory_eq]
      simp only at hpc'
      rw [show s.codeBefore.length = s'.pc from hpc'.symm]
    · intro r hr
      have hcode' : (s.splice [.pseudoJ ⟨.j, l⟩] []).source.code[c.state.pc]? =
          some (.pseudoJ ⟨.j, l⟩) := by
        rw [← s.plug_image, hpc]
        exact hcode
      exact hR.live_eq r (.later hstep hcode' List.not_mem_nil hr)
  · intro j u h0 hj
    omega
  · exact Nat.succ_ne_self _

end Step

/-! ## Any number of rewritings -/

section Run

variable {env : Env} {input : env.Input} {m m' : Module}

/-- A rewriting that meets its condition keeps modules well formed. -/
theorem AsmStep.wellFormed {g : Guard} (h : AsmStep g m m') (hm : m.WellFormed) :
    m'.WellFormed := by
  cases h with
  | branchCond s rule w w' br hrule hw hbr _ =>
    obtain ⟨f⟩ := BranchCondSimplification.fused_of_rule hrule hw hbr
    refine plug_wellFormed s hm fun i hi => ?_
    rw [f.window'_eq] at hi
    obtain hi | hi := List.mem_append.mp hi
    · exact usesPc_of_straight f.straight' i hi
    · obtain rfl := List.mem_singleton.mp hi
      exact usesPc_of_branch f.branch'
  | redundantLoad s w w' hlen hw =>
    obtain ⟨f⟩ := RedundantLoadElimination.storeLoad_of_rule hlen hw
    refine plug_wellFormed s hm fun i hi => ?_
    rw [f.window'_eq] at hi
    obtain rfl | hi := List.mem_cons.mp hi
    · exact windowNoPc s hm _ (by simp [f.window_eq])
    · exact usesPc_of_straight (RedundantLoadElimination.genExtract_straight _ _ _) i hi
  | redundantJump s next rest _ _ _ => exact plug_wellFormed s hm (by simp)
  | deadLabels m m' changed h => exact DeadLabelElimination.wellFormed hm h

/-- **One rewriting** that meets its condition leaves the run the same. -/
theorem AsmStep.sameRun (h : AsmStep (Guard.safe env input) m m') (hm : m.WellFormed) :
    SameRun env input m m' := by
  cases h with
  | branchCond s rule w w' br hrule hw hbr hg =>
    obtain ⟨f⟩ := BranchCondSimplification.fused_of_rule hrule hw hbr
    obtain ⟨hneeds, hneeds'⟩ := needs_of_fused f
    refine sameRun_of_sound s ?_ ?_ (sound_branchCond s f hm hg)
    · rw [f.window_eq]
      simp
    · unfold Site.missing
      rw [hneeds, hneeds']
  | redundantLoad s w w' hlen hw =>
    obtain ⟨f⟩ := RedundantLoadElimination.storeLoad_of_rule hlen hw
    obtain ⟨hneeds, hneeds'⟩ := needs_of_storeLoad f
    refine sameRun_of_sound s (by omega) ?_ (sound_redundantLoad s f hm)
    unfold Site.missing
    rw [hneeds, hneeds']
  | redundantJump s next rest hlast hnext hg =>
    refine sameRun_of_sound s Nat.zero_lt_one ?_ (sound_redundantJump s hm hg)
    -- the label of the jump is defined
    have hdef : findLabel (s.plug [.pseudoJ ⟨.j, next.label⟩]).labels next.label =
        some (s.codeBefore.length + 1) := hg
    simp [Site.missing, needsLabel, hdef]
  | deadLabels m m' changed h => exact DeadLabelElimination.obsEq hm h env input

theorem AsmSteps.wellFormed {g : Guard} (h : AsmSteps g m m') (hm : m.WellFormed) :
    m'.WellFormed := by
  induction h with
  | refl => exact hm
  | tail _ hstep ih => exact hstep.wellFormed ih

theorem AsmSteps.sameRun (h : AsmSteps (Guard.safe env input) m m') (hm : m.WellFormed) :
    SameRun env input m m' := by
  induction h with
  | refl => exact .refl _ _
  | tail hsteps hstep ih => exact ih.trans (hstep.sameRun (AsmSteps.wellFormed hsteps hm))

/-- Where the run is after the branch of a window. -/
theorem outside_after_branch {s : Site} {w w' : List Inst} {x : GeneralReg}
    (f : BranchCondSimplification.Fused w w' x) {b t : Conf env}
    (hpc : b.state.pc = s.codeBefore.length + (w.length - 1))
    (ht : stepConf (s.plug w).image b = some t) : (s.splice w w').Outside t.state.pc := by
  have hlen : w.length = f.code.length + 1 := by
    have hlen := congrArg List.length f.window_eq
    simpa using hlen
  have hcode : (s.plug w).image.code[b.state.pc]? = some f.br := by
    have hbr := (codeAt_fused f (codeAt_plug s w)).append.2.head
    have hidx : b.state.pc = s.codeBefore.length + f.code.length := by omega
    rw [hidx]
    exact hbr
  have hf : b.fault = none := by
    cases hb : b.fault with
    | none => rfl
    | some e =>
      rw [stepConf_of_fault hb] at ht
      cases ht
  have hstep := step_branch hf hcode f.branch
  obtain rfl := Option.some.inj (ht.symm.trans hstep)
  simp only [Conf.put]
  split
  · rw [s.plug_image w w']
    exact Splice.outside_branchTarget (s.labelsOutside w w') _
  · right
    rw [hpc]
    simp only [Site.splice]
    omega

/-- **Rewritings that meet their conditions leave the run observably the same**, and
after each branch they simplify, every register that may still be read holds what
it held before. -/
theorem assemblyPasses_preserve (env : Env) (input : env.Input) {m m' : Module}
    (hm : m.WellFormed) (h : AsmSteps (Guard.safe env input) m m') :
    SameRun env input m m' ∧
      ∀ (s : Site) (rule : List Inst → Option (List Inst)) (w w' : List Inst) (br : PseudoB),
        m' = s.plug w → (w.length, rule) ∈ BranchCondSimplification.rules → rule w = some w' →
        w.getLast? = some (.pseudoB br) →
        (Guard.safe env input).branch m' (s.codeBefore.length + (w.length - 1)) br.rs1 →
        ∀ b t : Conf env, (machine env m'.image).Reaches (initConf env m' input) b →
          b.state.pc = s.codeBefore.length + (w.length - 1) → stepConf m'.image b = some t →
          ∃ t' : Conf env,
            (machine env (s.plug w').image).Reaches (initConf env (s.plug w') input) t' ∧
              t'.state.output = t.state.output ∧
              ∀ r, Live m'.image t r → t'.state.regs r = t.state.regs r := by
  refine ⟨AsmSteps.sameRun h hm, ?_⟩
  rintro s rule w w' br rfl hrule hw hbr hg b t hb hpc ht
  obtain ⟨f⟩ := BranchCondSimplification.fused_of_rule hrule hw hbr
  have hwf := AsmSteps.wellFormed h hm
  have hpos : 0 < w.length := by
    rw [f.window_eq]
    simp
  have hneeds : Site.missing (s.plug w).labels w' = Site.missing (s.plug w).labels w := by
    obtain ⟨hneeds, hneeds'⟩ := needs_of_fused f
    unfold Site.missing
    rw [hneeds, hneeds']
  have hout := outside_after_branch f hpc ht
  have hreach := hb.tail ht
  rw [s.plug_image w w'] at hreach
  obtain ⟨t', ht', hR⟩ := (sound_branchCond s f hwf hg).follow
    (s.init_related w w' env input hpos hneeds) hreach hout
  rw [← s.plug_image' w w' hpos] at ht'
  rw [s.plug_image w w']
  exact ⟨t', ht', hR.trace_eq, hR.live_eq⟩

end Run

/-! ## A branch that may be fused -/

/-- A function that returns on both edges of a branch. -/
def returning : Site where
  globals := []
  floatLiterals := []
  funcsBefore := []
  name := "main"
  blocksBefore := []
  label := "main"
  before := []
  after := []
  blocksAfter := [⟨".Lmain_epilogue", [.pseudoRet]⟩]
  funcsAfter := []

def comparison : List Inst := [.instR ⟨.slt, 5, 6, 7⟩, .pseudoB ⟨.bnez, 5, ".Lmain_epilogue"⟩]

def fusedComparison : List Inst := [.instB ⟨.blt, 6, 7, ".Lmain_epilogue"⟩]

section Returning

variable {env : Env}

/-- Nothing but `a0` is live before the outermost return. -/
theorem not_live_before_return {img : Image} {c : Conf env} {r : GeneralReg}
    (hi : img.code[c.state.pc]? = some .pseudoRet) (hcs : c.state.callStack = []) (hr : r ≠ 10) :
    ¬ Live img c r := by
  have hend : ∀ t : Conf env, t.state.pc = img.code.length → ¬ Live img t r := by
    intro t hpc hl
    have hnone : img.code[t.state.pc]? = none := by
      rw [hpc]
      exact List.getElem?_eq_none (Nat.le_refl _)
    cases hl with
    | read _ hi _ => cases hnone.symm.trans hi
    | result _ _ => exact hr rfl
    | later _ hi _ _ => cases hnone.symm.trans hi
  intro hl
  cases hl with
  | read _ hi' hr' =>
    cases hi.symm.trans hi'
    cases hr'
  | result _ _ => exact hr rfl
  | later hs hi' _ hl' =>
    cases hf : c.fault with
    | some e =>
      rw [stepConf_of_fault hf] at hs
      cases hs
    | none =>
      rw [stepConf_of_code hf hi] at hs
      refine hend _ ?_ hl'
      rw [← Option.some.inj hs]
      simp only [exec, execPseudoRet, State.advance, State.jump, hcs, Conf.next]

theorem callStack_of_reaches {c : Conf env} {input : env.Input}
    (h : (machine env (returning.plug comparison).image).Reaches
      (initConf env (returning.plug comparison) input) c) : c.state.callStack = [] := by
  refine h.invariant (I := fun c => c.state.callStack = []) (fun a b ha hab => ?_) rfl
  change stepConf _ a = some b at hab
  unfold stepConf at hab
  split at hab
  · cases hab
  · split at hab
    · cases hab
    · rename_i inst hi
      have hmem : inst ∈ comparison ++ [.pseudoRet] := List.mem_of_getElem? hi
      simp only [comparison, List.cons_append, List.nil_append, List.mem_cons, List.not_mem_nil,
        or_false] at hmem
      cases hab
      obtain rfl | rfl | rfl := hmem
      · exact ha
      · simp only [exec, execPseudoB, Conf.next]
        split <;> exact ha
      · simp only [exec, execPseudoRet, Conf.next, ha]
        rfl

theorem safe_returning (env : Env) (input : env.Input) :
    (Guard.safe env input).branch (returning.plug comparison) 1 5 := by
  intro b t hb hpc ht
  have hcs := callStack_of_reaches (hb.tail ht)
  have hpct : t.state.pc = 2 := by
    have hf : b.fault = none := by
      cases hf : b.fault with
      | none => rfl
      | some e =>
        rw [stepConf_of_fault hf] at ht
        cases ht
    have hbr : (returning.plug comparison).image.code[b.state.pc]? =
        some (.pseudoB ⟨.bnez, 5, ".Lmain_epilogue"⟩) := by
      rw [hpc]
      rfl
    obtain rfl := Option.some.inj (ht.symm.trans (step_branch hf hbr rfl))
    simp only [Conf.put, hpc]
    split <;> rfl
  refine not_live_before_return ?_ hcs (by decide)
  rw [hpct]
  rfl

end Returning

/-- A floating-point unit for programs that do not use it. -/
def noFloat : FloatUnit where
  addS _ _ := 0
  subS _ _ := 0
  mulS _ _ := 0
  divS _ _ := 0
  sqrtS _ := 0
  eqS _ _ := false
  ltS _ _ := false
  leS _ _ := false
  toInt32S _ := 0
  toInt64S _ := 0
  ofInt32S _ := 0
  ofInt64S _ := 0
  addD _ _ := 0
  subD _ _ := 0
  mulD _ _ := 0
  divD _ _ := 0
  sqrtD _ := 0
  eqD _ _ := false
  ltD _ _ := false
  leD _ _ := false
  toInt32D _ := 0
  toInt64D _ := 0
  ofInt32D _ := 0
  ofInt64D _ := 0
  narrow _ := 0
  widen _ := 0

/-- Input as a list of integers; at its end the machine reads 0. -/
def integers : Env where
  Input := List (BitVec 32)
  readInt l := (l.headD 0, l.tail)
  readFloat _ := .error .outOfBounds
  readDouble l := (0, l)
  float := noFloat

/-- The comparison is fused into the branch, and the run stays the same. -/
theorem assemblyPasses_preserve_returning :
    SameRun integers ([0, 1] : List (BitVec 32)) (returning.plug comparison)
      (returning.plug fusedComparison) :=
  (assemblyPasses_preserve integers ([0, 1] : List (BitVec 32)) ⟨by decide, by decide⟩
    (.single (.branchCond returning BranchCondSimplification.rule2 comparison fusedComparison
      ⟨.bnez, 5, ".Lmain_epilogue"⟩ (by simp [comparison, BranchCondSimplification.rules]) rfl rfl
      (safe_returning integers ([0, 1] : List (BitVec 32)))))).1

/-! ## A window that is rewritten on its own -/

namespace RedundantLoadElimination

/-- **The rewritten window**: whatever registers it names and whatever the state, it does
what the window does. -/
theorem rule_preserves {env : Env} {st ld : Inst} {rest w' : List Inst} (h : rule (st :: ld :: rest) = some w')
    (img : Image) (s : State env) :
    w'.foldlM (fun s i => exec img i s) s = [st, ld].foldlM (fun s i => exec img i s) s := by
  have hwindow : rule [st, ld] = some w' := by
    rw [← h]
    cases st <;> cases ld <;> rfl
  obtain ⟨i, j, hw, hw', hstore, hwidth, hle, hrs1, himm⟩ := storeLoad_of_rule rfl hwindow
  rw [hw, hw', List.foldlM_cons, List.foldlM_cons, exec_store img hstore]
  cases hs : store s.memory (s.regs i.rs1 + i.imm.signExtend 64) (storeWidth i.op)
      (s.regs i.rd).toNat with
  | error e => rfl
  | ok m =>
    -- the load reads the low bytes of what the store has just written
    have hload := load_store hle hs
    rw [← hrs1, ← himm] at hload
    have hexec : exec img (.instI j) (s.setMemory m) =
        .ok ((s.setMemory m).setReg j.rd
          (extend j.op ((s.regs i.rd).toNat % 256 ^ loadWidth j.op))) := by
      rw [exec_load hwidth]
      show (load m (s.regs j.rs1 + j.imm.signExtend 64) (loadWidth j.op)).map _ = _
      rw [hload]
      rfl
    show (genExtract j.op j.rd i.rd).foldlM (fun s i => exec img i s) (s.setMemory m) =
      [Inst.instI j].foldlM (fun s i => exec img i s) (s.setMemory m)
    rw [extract_setReg hwidth, List.foldlM_cons, hexec]
    rfl

/-- A machine that has 7 in every register. -/
def machineAtRest : State integers :=
  ⟨fun _ => 7, fun _ => 7, fun _ => 0, [], 0, ([] : List (BitVec 32)), []⟩

/-- A byte that is stored and loaded back into the register of its own address. -/
theorem rule_preserves_sb_lb :
    [Inst.instI ⟨.sb, 6, 5, 0⟩, .instI ⟨.slli, 5, 6, 56⟩, .instI ⟨.srai, 5, 5, 56⟩].foldlM
        (fun s i => exec ⟨[], [], []⟩ i s) machineAtRest =
      [Inst.instI ⟨.sb, 6, 5, 0⟩, .instI ⟨.lb, 5, 5, 0⟩].foldlM
        (fun s i => exec ⟨[], [], []⟩ i s) machineAtRest := by
  have hrule : rule [.instI ⟨.sb, 6, 5, 0⟩, .instI ⟨.lb, 5, 5, 0⟩] =
      some [.instI ⟨.sb, 6, 5, 0⟩, .instI ⟨.slli, 5, 6, 56⟩, .instI ⟨.srai, 5, 5, 56⟩] := by decide
  exact rule_preserves hrule ⟨[], [], []⟩ machineAtRest

end RedundantLoadElimination

end Optim

end Rv64
end Cact
