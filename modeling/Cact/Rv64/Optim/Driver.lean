import Cact.Rv64.Optim.Sound

/-!
# The assembly loop of the driver

`optimizeAsm` is a sequence of single rewritings (`optimizeAsm_steps`), so that
`assemblyPasses_preserve` is about what the driver does. The rules look at their
window only, and the loop over the windows of one block lifts to modules.

The conditions of the rewritings are not always met: `sharedCondition` is the code of a
program that tests one condition twice.
-/

namespace Cact

namespace Rv64

open Ir (Fault)

namespace Optim

/-! ## Windows of one block -/

/-- A rule that looks at the first `window` instructions only. -/
def Local (window : Nat) (rule : List Inst → Option (List Inst)) : Prop :=
  ∀ w rest : List Inst, w.length = window → rule (w ++ rest) = rule w

/-- One window of a block is replaced. -/
def Rewrite (window : Nat) (rule : List Inst → Option (List Inst)) (l l' : List Inst) : Prop :=
  ∃ before w w' after, w.length = window ∧ rule w = some w' ∧
    l = before ++ w ++ after ∧ l' = before ++ w' ++ after

theorem peepholeFrom_rewrites {window : Nat} {rule : List Inst → Option (List Inst)}
    (hloc : Local window rule) (i : Nat) (l : List Inst) :
    Relation.ReflTransGen (Rewrite window rule) l (peepholeFrom window rule i l).1 := by
  induction i generalizing l with
  | zero => exact .refl
  | succ i ih =>
    unfold peepholeFrom
    split
    · exact ih l
    · rename_i hlen
      split
      · exact ih l
      · rename_i repl hrule
        have hwin : ((l.drop i).take window).length = window := by
          rw [List.length_take, List.length_drop]
          omega
        rw [← List.take_append_drop window (l.drop i), hloc _ _ hwin] at hrule
        refine .head ⟨l.take i, (l.drop i).take window, repl, l.drop (i + window), hwin, hrule, ?_,
          rfl⟩ (ih _)
        rw [List.append_assoc, ← List.drop_drop, List.take_append_drop, List.take_append_drop]

theorem local_rule1 : Local 3 BranchCondSimplification.rule1 := by
  intro w rest hw
  obtain ⟨a, b, c, rfl⟩ := List.length_eq_three.mp hw
  cases b with
  | instI i => cases c <;> rfl
  | _ => rfl

theorem local_rule2 : Local 2 BranchCondSimplification.rule2 := by
  intro w rest hw
  obtain ⟨a, b, rfl⟩ := List.length_eq_two.mp hw
  cases a with
  | instR i => cases b <;> rfl
  | _ => rfl

theorem local_rule3 : Local 2 BranchCondSimplification.rule3 := by
  intro w rest hw
  obtain ⟨a, b, rfl⟩ := List.length_eq_two.mp hw
  cases a with
  | pseudoR i => cases b <;> rfl
  | _ => rfl

theorem local_load : Local 2 RedundantLoadElimination.rule := by
  intro w rest hw
  obtain ⟨a, b, rfl⟩ := List.length_eq_two.mp hw
  cases a with
  | instI i => cases b <;> rfl
  | _ => rfl

/-! ## Blocks of a module -/

/-- The site of one block's instructions in a module. -/
def blockSite (globals : List Global) (literals : List FloatLiteral) (fsBefore : List Func)
    (name : String) (bsBefore : List Block) (label : String) (before after : List Inst)
    (bsAfter : List Block) (fsAfter : List Func) : Site :=
  ⟨globals, literals, fsBefore, name, bsBefore, label, before, after, bsAfter, fsAfter⟩

/-- What is done to the instructions of a block, wherever it stands in a module,
is a sequence of rewritings. -/
def Lifts (f : List Inst → List Inst) : Prop :=
  ∀ (globals : List Global) (literals : List FloatLiteral) (fsBefore : List Func) (name : String)
    (bsBefore : List Block) (label : String) (insts : List Inst) (bsAfter : List Block)
    (fsAfter : List Func),
    AsmSteps Guard.none
      ⟨globals, fsBefore ++ ⟨name, bsBefore ++ ⟨label, insts⟩ :: bsAfter⟩ :: fsAfter, literals⟩
      ⟨globals, fsBefore ++ ⟨name, bsBefore ++ ⟨label, f insts⟩ :: bsAfter⟩ :: fsAfter, literals⟩

theorem lifts_of_rewrites {f : List Inst → List Inst} {window : Nat}
    {rule : List Inst → Option (List Inst)}
    (hf : ∀ l, Relation.ReflTransGen (Rewrite window rule) l (f l))
    (hstep : ∀ (s : Site) (w w' : List Inst), w.length = window → rule w = some w' →
      AsmStep Guard.none (s.plug w) (s.plug w')) : Lifts f := by
  intro globals literals fsBefore name bsBefore label insts bsAfter fsAfter
  have hrun := hf insts
  generalize f insts = l' at hrun ⊢
  induction hrun with
  | refl => exact .refl
  | tail _ hr ih =>
    obtain ⟨before, w, w', after, hlen, hw, rfl, rfl⟩ := hr
    exact ih.tail (hstep (blockSite globals literals fsBefore name bsBefore label before after
      bsAfter fsAfter) w w' hlen hw)

theorem Lifts.comp {f g : List Inst → List Inst} (hf : Lifts f) (hg : Lifts g) :
    Lifts fun l => g (f l) := by
  intro globals literals fsBefore name bsBefore label insts bsAfter fsAfter
  exact (hf globals literals fsBefore name bsBefore label insts bsAfter fsAfter).trans
    (hg globals literals fsBefore name bsBefore label (f insts) bsAfter fsAfter)

/-- All blocks of a function, from the first to the last. -/
theorem lifts_blocks {f : List Inst → List Inst} (hf : Lifts f) (globals : List Global)
    (literals : List FloatLiteral) (fsBefore : List Func) (name : String) (fsAfter : List Func)
    (bs bsBefore : List Block) :
    AsmSteps Guard.none ⟨globals, fsBefore ++ ⟨name, bsBefore ++ bs⟩ :: fsAfter, literals⟩
      ⟨globals, fsBefore ++ ⟨name, bsBefore ++ bs.map fun b => { b with insts := f b.insts }⟩ ::
        fsAfter, literals⟩ := by
  induction bs generalizing bsBefore with
  | nil => exact .refl
  | cons b bs ih =>
    have hb := hf globals literals fsBefore name bsBefore b.label b.insts bs fsAfter
    have hbs := ih (bsBefore ++ [{ b with insts := f b.insts }])
    simp only [List.append_assoc, List.singleton_append] at hbs
    exact hb.trans hbs

/-- All functions of a module. -/
theorem lifts_funcs {f : List Inst → List Inst} (hf : Lifts f) (globals : List Global)
    (literals : List FloatLiteral) (fs fsBefore : List Func) :
    AsmSteps Guard.none ⟨globals, fsBefore ++ fs, literals⟩
      ⟨globals, fsBefore ++ fs.map fun func =>
        { func with blocks := func.blocks.map fun b => { b with insts := f b.insts } },
        literals⟩ := by
  induction fs generalizing fsBefore with
  | nil => exact .refl
  | cons func fs ih =>
    have hfunc := lifts_blocks hf globals literals fsBefore func.name fs func.blocks []
    have hfs := ih (fsBefore ++
      [{ func with blocks := func.blocks.map fun b => { b with insts := f b.insts } }])
    simp only [List.append_assoc, List.singleton_append] at hfs
    exact hfunc.trans hfs

theorem mapInsts_steps {f : List Inst → List Inst × Bool} (hf : Lifts fun l => (f l).1)
    (m : Module) : AsmSteps Guard.none m (mapInsts f m).1 :=
  lifts_funcs hf m.globals m.floatLiterals m.funcs []

/-! ## The passes -/

theorem lifts_rule {window : Nat} {rule : List Inst → Option (List Inst)}
    (hloc : Local window rule) (hmem : (window, rule) ∈ BranchCondSimplification.rules)
    (hlast : ∀ w w', w.length = window → rule w = some w' →
      ∃ br, w.getLast? = some (.pseudoB br)) :
    Lifts fun l => (peepholeApply window rule l).1 := by
  refine lifts_of_rewrites (fun l => peepholeFrom_rewrites hloc _ l) fun s w w' hlen hw => ?_
  obtain ⟨br, hbr⟩ := hlast w w' hlen hw
  subst hlen
  exact .branchCond s rule w w' br hmem hw hbr trivial

/-- A window of the first rule ends in a branch on zero, and so do those of the others. -/
theorem last_rule1 (w w' : List Inst) (hlen : w.length = 3)
    (hw : BranchCondSimplification.rule1 w = some w') : ∃ br, w.getLast? = some (.pseudoB br) := by
  obtain ⟨a, b, c, rfl⟩ := List.length_eq_three.mp hlen
  cases b with
  | instI i => cases c <;> first | exact ⟨_, rfl⟩ | cases hw
  | _ => cases hw

theorem last_rule2 (w w' : List Inst) (hlen : w.length = 2)
    (hw : BranchCondSimplification.rule2 w = some w') : ∃ br, w.getLast? = some (.pseudoB br) := by
  obtain ⟨a, b, rfl⟩ := List.length_eq_two.mp hlen
  cases a with
  | instR i => cases b <;> first | exact ⟨_, rfl⟩ | cases hw
  | _ => cases hw

theorem last_rule3 (w w' : List Inst) (hlen : w.length = 2)
    (hw : BranchCondSimplification.rule3 w = some w') : ∃ br, w.getLast? = some (.pseudoB br) := by
  obtain ⟨a, b, rfl⟩ := List.length_eq_two.mp hlen
  cases a with
  | pseudoR i => cases b <;> first | exact ⟨_, rfl⟩ | cases hw
  | _ => cases hw

theorem branchCond_steps {m m' : Module} {changed : Bool}
    (h : BranchCondSimplification.apply m = .ok (m', changed)) : AsmSteps Guard.none m m' := by
  cases h
  refine mapInsts_steps (.comp (.comp (lifts_rule local_rule1 ?_ last_rule1)
    (lifts_rule local_rule2 ?_ last_rule2)) (lifts_rule local_rule3 ?_ last_rule3)) m <;>
    simp [BranchCondSimplification.rules]

theorem redundantLoad_steps {m m' : Module} {changed : Bool}
    (h : RedundantLoadElimination.apply m = .ok (m', changed)) : AsmSteps Guard.none m m' := by
  cases h
  have hlift : Lifts fun l => (peepholeApply 2 RedundantLoadElimination.rule l).1 :=
    lifts_of_rewrites (fun l => peepholeFrom_rewrites local_load (l.length + 1 - 2) l)
      fun s w w' hlen hw => .redundantLoad s w w' hlen hw
  exact mapInsts_steps hlift m

/-! ## Redundant jumps -/

namespace RedundantJumpElimination

/-- The blocks of one function. The first label stays, so that the jump of the block
before it can be looked at afterwards. -/
theorem applyBlocks_steps {bs bs' : List Block} {changed : Bool}
    (h : applyBlocks bs = .ok (bs', changed)) :
    bs'.map Block.label = bs.map Block.label ∧
      ∀ (globals : List Global) (literals : List FloatLiteral) (fsBefore : List Func)
        (name : String) (bsBefore : List Block) (fsAfter : List Func),
        AsmSteps Guard.none ⟨globals, fsBefore ++ ⟨name, bsBefore ++ bs⟩ :: fsAfter, literals⟩
          ⟨globals, fsBefore ++ ⟨name, bsBefore ++ bs'⟩ :: fsAfter, literals⟩ := by
  induction bs generalizing bs' changed with
  | nil =>
    cases h
    exact ⟨rfl, fun _ _ _ _ _ _ => .refl⟩
  | cons b bs ih =>
    cases bs with
    | nil =>
      cases h
      exact ⟨rfl, fun _ _ _ _ _ _ => .refl⟩
    | cons next rest =>
      unfold applyBlocks at h
      cases hrest : applyBlocks (next :: rest) with
      | error e =>
        rw [hrest] at h
        cases h
      | ok r =>
        obtain ⟨rest', changed'⟩ := r
        rw [hrest] at h
        obtain ⟨hlabels, hsteps⟩ := ih hrest
        have htail : ∀ (globals : List Global) (literals : List FloatLiteral)
            (fsBefore : List Func) (name : String) (bsBefore : List Block) (fsAfter : List Func),
            AsmSteps Guard.none
              ⟨globals, fsBefore ++ ⟨name, bsBefore ++ b :: next :: rest⟩ :: fsAfter, literals⟩
              ⟨globals, fsBefore ++ ⟨name, bsBefore ++ b :: rest'⟩ :: fsAfter, literals⟩ := by
          intro globals literals fsBefore name bsBefore fsAfter
          have hs := hsteps globals literals fsBefore name (bsBefore ++ [b]) fsAfter
          simpa using hs
        simp only [bind, Except.bind] at h
        cases hlast : b.insts.getLast? with
        | none =>
          rw [hlast] at h
          cases h
        | some last =>
          rw [hlast] at h
          simp only at h
          split at h
          · -- the jump is removed
            rename_i hjump
            cases h
            refine ⟨by simp [hlabels], fun globals literals fsBefore name bsBefore fsAfter => ?_⟩
            refine (htail globals literals fsBefore name bsBefore fsAfter).tail ?_
            cases rest' with
            | nil => simp at hlabels
            | cons next' rest' =>
              simp only [List.map_cons, List.cons.injEq] at hlabels
              have hinsts : b.insts = b.insts.dropLast ++ [.pseudoJ ⟨.j, next'.label⟩] := by
                rw [hlabels.1, ← hjump]
                exact (List.dropLast_append_getLast? last hlast).symm
              have hstep : AsmStep Guard.none _ _ := .redundantJump
                (blockSite globals literals fsBefore name bsBefore b.label b.insts.dropLast []
                  (next' :: rest') fsAfter) next' rest' rfl rfl trivial
              simp only [Site.plug, Site.plugFunc, blockSite, List.append_nil, ← hinsts] at hstep
              exact hstep
          · cases h
            refine ⟨by simp [hlabels], htail⟩

theorem applyFuncs_steps {fs fs' : List Func} {changed : Bool}
    (h : applyFuncs fs = .ok (fs', changed)) (globals : List Global)
    (literals : List FloatLiteral) (fsBefore : List Func) :
    AsmSteps Guard.none ⟨globals, fsBefore ++ fs, literals⟩
      ⟨globals, fsBefore ++ fs', literals⟩ := by
  induction fs generalizing fs' changed fsBefore with
  | nil =>
    cases h
    exact .refl
  | cons f fs ih =>
    unfold applyFuncs at h
    cases hb : applyBlocks f.blocks with
    | error e =>
      rw [hb] at h
      cases h
    | ok r =>
      obtain ⟨blocks, changed₁⟩ := r
      rw [hb] at h
      cases hfs : applyFuncs fs with
      | error e =>
        simp only [bind, Except.bind, hfs] at h
        cases h
      | ok r =>
        obtain ⟨fs₁, changed₂⟩ := r
        simp only [bind, Except.bind, hfs] at h
        cases h
        have hfunc := (applyBlocks_steps hb).2 globals literals fsBefore f.name [] fs
        have hrest := ih hfs (fsBefore ++ [{ f with blocks := blocks }])
        simp only [List.append_assoc, List.singleton_append] at hrest
        exact hfunc.trans hrest

theorem apply_steps {m m' : Module} {changed : Bool} (h : apply m = .ok (m', changed)) :
    AsmSteps Guard.none m m' := by
  unfold apply at h
  cases hf : applyFuncs m.funcs with
  | error e =>
    rw [hf] at h
    cases h
  | ok r =>
    obtain ⟨funcs, changed'⟩ := r
    rw [hf] at h
    cases h
    exact applyFuncs_steps hf m.globals m.floatLiterals []

end RedundantJumpElimination

/-! ## The loop -/

theorem pass_steps {p : Module → Except Fault (Module × Bool)} (hp : p ∈ assemblyPasses)
    {m m' : Module} {changed : Bool} (h : p m = .ok (m', changed)) : AsmSteps Guard.none m m' := by
  simp only [assemblyPasses, List.mem_cons, List.not_mem_nil, or_false] at hp
  obtain rfl | rfl | rfl | rfl := hp
  · exact RedundantJumpElimination.apply_steps h
  · exact .single (.deadLabels m m' changed h)
  · exact branchCond_steps h
  · exact redundantLoad_steps h

theorem applyPasses_steps {ps : List (Module → Except Fault (Module × Bool))}
    (hps : ∀ p ∈ ps, p ∈ assemblyPasses) {m m' : Module} {changed : Bool}
    (h : applyPasses ps m = .ok (m', changed)) : AsmSteps Guard.none m m' := by
  induction ps generalizing m changed with
  | nil =>
    cases h
    exact .refl
  | cons p ps ih =>
    unfold applyPasses at h
    cases hp : p m with
    | error e =>
      rw [hp] at h
      cases h
    | ok r =>
      obtain ⟨m₁, changed₁⟩ := r
      rw [hp] at h
      cases hrest : applyPasses ps m₁ with
      | error e =>
        simp only [bind, Except.bind, hrest] at h
        cases h
      | ok r =>
        obtain ⟨m₂, changed₂⟩ := r
        simp only [bind, Except.bind, hrest] at h
        cases h
        exact (pass_steps (hps p List.mem_cons_self) hp).trans
          (ih (fun q hq => hps q (List.mem_cons_of_mem p hq)) hrest)

/-- **What the driver does** is a sequence of rewritings. -/
theorem optimizeAsm_steps {fuel : Nat} {m m' : Module} (h : optimizeAsm fuel m = .ok (some m')) :
    AsmSteps Guard.none m m' := by
  induction fuel generalizing m with
  | zero => cases h
  | succ fuel ih =>
    unfold optimizeAsm at h
    cases hp : applyPasses assemblyPasses m with
    | error e =>
      rw [hp] at h
      cases h
    | ok r =>
      obtain ⟨m₁, changed⟩ := r
      rw [hp] at h
      have hround := applyPasses_steps (fun p hp => hp) hp
      simp only [bind, Except.bind] at h
      split at h
      · exact hround.trans (ih h)
      · cases h
        exact hround

/-! ## A condition that is tested twice -/

/-- The assembly of

    int main() {
      int a; int b;
      a = get_int(); b = get_int();
      if (a < b) print_int(1);
      if (a < b) print_int(2);
      return 0;
    }

with the second comparison removed by common subexpression elimination. -/
def sharedCondition : Module where
  globals := []
  floatLiterals := []
  funcs := [
    { name := "main"
      blocks := [
        ⟨"main", [.instI ⟨.addi, 2, 2, -16⟩, .pseudoJ ⟨.j, ".Lmain_entry"⟩]⟩,
        ⟨".Lmain_entry",
          [.instI ⟨.sd, 8, 2, 0⟩,
            .pseudoJ ⟨.call, "get_int"⟩,
            .pseudoR ⟨.mv, 8, 10⟩,
            .pseudoJ ⟨.call, "get_int"⟩,
            .instR ⟨.slt, 8, 8, 10⟩,
            .pseudoB ⟨.bnez, 8, ".Lmain_if_true_4_2"⟩,
            .pseudoJ ⟨.j, ".Lmain_if_exit_4_2"⟩]⟩,
        ⟨".Lmain_if_true_4_2",
          [.pseudoLI ⟨10, 1⟩,
            .pseudoJ ⟨.call, "print_int"⟩,
            .pseudoJ ⟨.j, ".Lmain_if_exit_4_2"⟩]⟩,
        ⟨".Lmain_if_exit_4_2",
          [.pseudoB ⟨.bnez, 8, ".Lmain_if_true_5_2"⟩,
            .pseudoJ ⟨.j, ".Lmain_if_exit_5_2"⟩]⟩,
        ⟨".Lmain_if_true_5_2",
          [.pseudoLI ⟨10, 2⟩,
            .pseudoJ ⟨.call, "print_int"⟩,
            .pseudoJ ⟨.j, ".Lmain_if_exit_5_2"⟩]⟩,
        ⟨".Lmain_if_exit_5_2",
          [.pseudoLI ⟨10, 0⟩,
            .instI ⟨.ld, 8, 2, 0⟩,
            .pseudoJ ⟨.j, ".Lmain_epilogue"⟩]⟩,
        ⟨".Lmain_epilogue", [.instI ⟨.addi, 2, 2, 16⟩, .pseudoRet]⟩] }]

/-- What the driver makes of it: the comparison is fused into the first branch, and
nothing computes the condition that the second branch tests. -/
def sharedConditionOptimized : Module where
  globals := []
  floatLiterals := []
  funcs := [
    { name := "main"
      blocks := [
        ⟨"main",
          [.instI ⟨.addi, 2, 2, -16⟩,
            .instI ⟨.sd, 8, 2, 0⟩,
            .pseudoJ ⟨.call, "get_int"⟩,
            .pseudoR ⟨.mv, 8, 10⟩,
            .pseudoJ ⟨.call, "get_int"⟩,
            .instB ⟨.blt, 8, 10, ".Lmain_if_true_4_2"⟩,
            .pseudoJ ⟨.j, ".Lmain_if_exit_4_2"⟩]⟩,
        ⟨".Lmain_if_true_4_2", [.pseudoLI ⟨10, 1⟩, .pseudoJ ⟨.call, "print_int"⟩]⟩,
        ⟨".Lmain_if_exit_4_2",
          [.pseudoB ⟨.bnez, 8, ".Lmain_if_true_5_2"⟩,
            .pseudoJ ⟨.j, ".Lmain_if_exit_5_2"⟩]⟩,
        ⟨".Lmain_if_true_5_2", [.pseudoLI ⟨10, 2⟩, .pseudoJ ⟨.call, "print_int"⟩]⟩,
        ⟨".Lmain_if_exit_5_2",
          [.pseudoLI ⟨10, 0⟩,
            .instI ⟨.ld, 8, 2, 0⟩,
            .instI ⟨.addi, 2, 2, 16⟩,
            .pseudoRet]⟩] }]

/-- The start of the run on the input `0 1`. -/
def start (m : Module) : Conf integers := initConf integers m ([0, 1] : List (BitVec 32))

theorem wellFormed_sharedCondition : sharedCondition.WellFormed :=
  ⟨by decide, by decide⟩

/-- The end of a run that takes at most 30 steps. -/
def final (m : Module) : Conf integers := (machine integers m.image).run 30 (start m)

theorem not_sameRun_of_final {m m' : Module} (h : (stepConf m.image (final m)).isNone)
    (h' : (stepConf m'.image (final m')).isNone)
    (hne : (final m).state.output ≠ (final m').state.output) :
    ¬ SameRun integers ([0, 1] : List (BitVec 32)) m m' :=
  DetMachine.not_obsEq_of_run 30 30 (Option.isNone_iff_eq_none.mp h)
    (Option.isNone_iff_eq_none.mp h') hne

/-- The program prints 1 and 2; what the driver makes of it prints 1 only. -/
theorem optimizeAsm_sharedCondition :
    optimizeAsm 4 sharedCondition = .ok (some sharedConditionOptimized) ∧
      ¬ SameRun integers ([0, 1] : List (BitVec 32)) sharedCondition sharedConditionOptimized := by
  have hout : (final sharedCondition).state.output = [.int 1, .int 2] := by decide +kernel
  have hout' : (final sharedConditionOptimized).state.output = [.int 1] := by decide +kernel
  refine ⟨by decide +kernel, not_sameRun_of_final (by decide +kernel) (by decide +kernel) ?_⟩
  rw [hout, hout']
  decide

end Optim

end Rv64
end Cact
