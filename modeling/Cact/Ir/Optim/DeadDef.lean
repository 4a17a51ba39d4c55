import Cact.Ir.Check
import Cact.Ir.EraseRun
import Cact.Ir.Optim.CopyPropagation

/-!
# Dead definition elimination (`transform/optim/dead_def.hpp`)

A definition is erased when its variable has no uses and the instruction no side effects.
A sweep goes through all instructions of the program, and sees the uses that are left at
that moment. Sweeps are repeated until one of them erases nothing.

- `removable`, `eliminate`, `apply`: the pass.
- `EraseStep`: one instruction is erased.
- `Outcome`: what a sweep has done.
- `deadDef_safeMeaning`: the meaning on safe inputs, and the form of the program, are kept.
- `deadDef_terminates`: the pass ends, and leaves no definition that it could erase.
-/

namespace Cact

namespace Ir

open Vm
open CopyPropagation (inScope uses)

namespace DeadDefElimination

/-- The result has no uses, and nothing else depends on the instruction. -/
def removable (prog : Program) (fn : String) (i : Inst) : Bool :=
  match i.definedVar with
  | some v => !(prog.funcs.any fun g => inScope fn v.var g.name && uses v.var g) && !i.hasSideEffect
  | none => false

/-- `block->erase(it)` -/
def eraseInst (prog : Program) (fn : String) (id : BlockId) (k : Nat) : Program :=
  match prog.findFunc fn with
  | some f => prog.replaceFunc (f.eraseAt id k)
  | none => prog

/-- The sweep through a block: the instructions that are left, and the place of the first. -/
def sweepInsts (fn : String) (id : BlockId) : Program → Nat → List Inst → Program × Bool
  | prog, _, [] => (prog, false)
  | prog, k, i :: insts =>
    if removable prog fn i then
      let (prog', _) := sweepInsts fn id (eraseInst prog fn id k) k insts
      (prog', true)
    else sweepInsts fn id prog (k + 1) insts

def sweepBlocks (fn : String) : Program → List Block → Program × Bool
  | prog, [] => (prog, false)
  | prog, b :: bs =>
    let (prog', changed) := sweepInsts fn b.id prog 0 b.insts
    let (prog'', changed') := sweepBlocks fn prog' bs
    (prog'', changed || changed')

def sweepFuncs : Program → List Func → Program × Bool
  | prog, [] => (prog, false)
  | prog, f :: fs =>
    let (prog', changed) := sweepBlocks f.name prog f.blocks
    let (prog'', changed') := sweepFuncs prog' fs
    (prog'', changed || changed')

/-- `eliminate` -/
def eliminate (prog : Program) : Program × Bool := sweepFuncs prog prog.funcs

/-- The loop of `apply`, for a number of rounds. -/
def loop : Nat → Program → Option (Program × Bool)
  | 0, _ => none
  | rounds + 1, prog =>
    let (prog', changed) := eliminate prog
    if changed then (loop rounds prog').map fun r => (r.1, true) else some (prog', false)

/-- `apply` -/
def apply (rounds : Nat) (prog : Program) : Except Fault (Option (Program × Bool)) :=
  if prog.isSsa then .ok (loop rounds prog)
  else .error (.compilerError "DeadDefElimination requires SSA form")

/-! ## One instruction -/

section Step

variable {env : Env} {p q : Program} {f : Func} {id : BlockId} {k : Nat} {b : Block} {i : Inst}

/-- An instruction is erased that nothing depends on. -/
inductive EraseStep (p q : Program) : Prop
  | mk {f f' : Func} {id : BlockId} {k : Nat} {b : Block} {i : Inst} {r : LeftValue}
      (hf : p.findFunc f.name = some f) (h : f.Erases f' id k b i r) (hq : q = p.replaceFunc f')

/-- The programs that the pass is made for: in SSA form, with phis where they are executed. -/
structure Fit (env : Env) (p : Program) : Prop where
  wellFormed : p.WellFormed env
  phis : p.PhisPlaced

theorem EraseStep.fit (h : EraseStep p q) (hp : Fit env p) : Fit env q := by
  obtain ⟨hf, h, rfl⟩ := h
  have hmem := Program.mem_of_findFunc hf
  exact ⟨h.program_wellFormed hp.wellFormed hf (hp.phis _ hmem),
    h.program_phisPlaced hp.wellFormed hf hp.phis⟩

theorem EraseStep.safeMeaning (h : EraseStep p q) (hp : Fit env p) : SafeMeaning env p q := by
  obtain ⟨hf, h, rfl⟩ := h
  exact safeMeaning_erase hp.wellFormed hf (hp.phis _ (Program.mem_of_findFunc hf)) h

/-- What holds after the erased instructions holds after one more. -/
theorem steps_kept (h : Relation.ReflTransGen EraseStep p q) (hp : Fit env p) :
    Fit env q ∧ SafeMeaning env p q := by
  induction h with
  | refl => exact ⟨hp, .refl⟩
  | tail _ hstep ih => exact ⟨hstep.fit ih.1, ih.2.trans (hstep.safeMeaning ih.1)⟩

/-- The number of instructions of a program. -/
def size (p : Program) : Nat := (p.funcs.map fun f => (f.blocks.map fun b => b.insts.length).sum).sum

theorem sum_lt_of_mem {α : Type} {l : List α} {g g' : α → Nat} {a : α} (ha : a ∈ l)
    (hlt : g' a < g a) (hle : ∀ c ∈ l, g' c ≤ g c) : (l.map g').sum < (l.map g).sum := by
  induction l with
  | nil => cases ha
  | cons c l ih =>
    rw [List.map_cons, List.map_cons, List.sum_cons, List.sum_cons]
    have hc := hle c (by simp)
    rcases List.mem_cons.1 ha with rfl | ha
    · have hrest : (l.map g').sum ≤ (l.map g).sum :=
        List.sum_le_sum fun d hd => hle d (List.mem_cons_of_mem _ hd)
      omega
    · have hrest := ih ha fun d hd => hle d (List.mem_cons_of_mem _ hd)
      omega

theorem EraseStep.size_lt (h : EraseStep p q) (hwf : p.WellFormed env) : size q < size p := by
  obtain ⟨hf, h, rfl⟩ := h
  rename_i f f' id k b i r
  have hname : f'.name = f.name := by rw [h.eq]; rfl
  have hmem := Program.mem_of_findFunc hf
  obtain ⟨hb, hid⟩ := Func.mem_of_block? h.block
  let len : Block → Nat := fun c => c.insts.length
  have hfunc : (f'.blocks.map len).sum < (f.blocks.map len).sum := by
    rw [h.eq]
    show ((f.blocks.map _).map len).sum < _
    rw [List.map_map]
    refine sum_lt_of_mem hb ?_ fun c _ => ?_
    · dsimp only [Function.comp, len]
      rw [if_pos hid, ← Block.length_eraseAt h.inst]
      exact Nat.lt_succ_self _
    · dsimp only [Function.comp, len]
      split
      · exact List.length_eraseIdx_le ..
      · exact Nat.le_refl _
  show ((p.funcs.map _).map fun f : Func => (f.blocks.map len).sum).sum < _
  rw [List.map_map]
  refine sum_lt_of_mem hmem ?_ fun c hc => ?_
  · dsimp only [Function.comp]
    rw [if_pos hname.symm]
    exact hfunc
  · dsimp only [Function.comp]
    split
    · rename_i heq
      rw [List.inj_on_of_nodup_map hwf.names hc hmem (heq.trans hname)]
      exact hfunc.le
    · exact Nat.le_refl _

end Step

/-! ## Sweeps -/

section Sweep

variable {env : Env} {p q : Program} {f : Func} {id : BlockId} {k : Nat} {b : Block} {i : Inst}
  {fn : String}

/-- What a sweep has done: it has erased instructions, or it has found nothing to erase. -/
structure Outcome (p : Program) (out : Program × Bool) (none : Prop) : Prop where
  steps : Relation.ReflTransGen EraseStep p out.1
  changed : out.2 = true → Relation.TransGen EraseStep p out.1
  unchanged : out.2 = false → out.1 = p ∧ none

theorem Outcome.refl {P : Prop} (h : P) : Outcome p (p, false) P where
  steps := .refl
  changed hc := by cases hc
  unchanged _ := ⟨rfl, h⟩

/-- A sweep and then another one. -/
theorem Outcome.andThen {none none' : Prop} {c c' : Bool} {r : Program}
    (h : Outcome p (q, c) none) (h' : Outcome q (r, c') none') :
    Outcome p (r, c || c') (none ∧ (q = p → none')) where
  steps := h.steps.trans h'.steps
  changed hc := by
    rcases Bool.or_eq_true_iff.1 hc with hc | hc
    · exact (h.changed hc).trans_left h'.steps
    · exact Relation.TransGen.trans_right h.steps (h'.changed hc)
  unchanged hc := by
    obtain ⟨hc, hc'⟩ := Bool.or_eq_false_iff.1 hc
    obtain ⟨hq, hn⟩ := h.unchanged hc
    obtain ⟨hr, hn'⟩ := h'.unchanged hc'
    exact ⟨hr.trans hq, hn, fun _ => hn'⟩

theorem inScope_self (fn : String) (v : Var) : inScope fn v fn = true := by
  cases v <;> simp [inScope]

/-- A removable instruction may be erased. -/
theorem erases_of_removable (hf : p.findFunc fn = some f) (hb : f.block? id = some b)
    (hi : b.insts[k]? = some i) (hr : removable p fn i = true) :
    ∃ r, f.Erases (f.eraseAt id k) id k b i r := by
  unfold removable at hr
  split at hr
  · rename_i r hres
    rw [Bool.and_eq_true, Bool.not_eq_true', Bool.not_eq_true', List.any_eq_false] at hr
    obtain ⟨hunused, hpure⟩ := hr
    refine ⟨r, rfl, hb, hi, hres, hpure, fun x hx hxr => ?_⟩
    have hno := hunused f (Program.mem_of_findFunc hf)
    rw [findFunc_name hf, inScope_self, Bool.true_and] at hno
    exact hno (List.any_eq_true.2 ⟨x, hx, by simp [hxr]⟩)
  · cases hr

/-- The functions that a sweep through a block leaves alone, and the other blocks. -/
structure Beyond (p q : Program) (fn : String) (id : BlockId) (f : Func) : Prop where
  others : ∀ name, name ≠ fn → q.findFunc name = p.findFunc name
  func : ∃ g, q.findFunc fn = some g ∧ ∀ t, t ≠ id → g.block? t = f.block? t

theorem sweepInsts_outcome {insts : List Inst} (hf : p.findFunc fn = some f)
    (hb : f.block? id = some b) (hk : b.insts.drop k = insts) :
    Outcome p (sweepInsts fn id p k insts) (∀ i ∈ insts, removable p fn i = false) ∧
      Beyond p (sweepInsts fn id p k insts).1 fn id f := by
  induction insts generalizing p f b k with
  | nil => exact ⟨.refl (List.forall_mem_nil _), fun _ _ => rfl, f, hf, fun _ _ => rfl⟩
  | cons i insts ih =>
    have hi : b.insts[k]? = some i := by rw [← List.head?_drop, hk]; rfl
    have hrest : b.insts.drop (k + 1) = insts := by rw [← List.tail_drop, hk]; rfl
    unfold sweepInsts
    dsimp only
    split
    · rename_i hr
      obtain ⟨r, he⟩ := erases_of_removable hf hb hi hr
      have hname := findFunc_name hf
      have hself : p.findFunc f.name = some f := findFunc_self hf
      have hp := Program.replaces hself (show (f.eraseAt id k).name = f.name from rfl)
      have herase : eraseInst p fn id k = p.replaceFunc (f.eraseAt id k) := by
        unfold eraseInst
        rw [hf]
      rw [herase]
      have hstep : EraseStep p (p.replaceFunc (f.eraseAt id k)) := .mk hself he rfl
      have hfound : (p.replaceFunc (f.eraseAt id k)).findFunc fn = some (f.eraseAt id k) := by
        rw [hp.funcs, if_pos hname.symm]
      -- the instructions to come have moved up to the place of this one
      have hdrop : (b.eraseAt k).insts.drop k = insts := by
        have hlt := (List.getElem?_eq_some_iff.1 hi).1
        show (b.insts.eraseIdx k).drop k = insts
        rw [List.eraseIdx_eq_take_drop_succ, List.drop_append, List.length_take,
          Nat.min_eq_left hlt.le, Nat.sub_self, List.drop_zero, hrest, List.drop_take,
          Nat.sub_self, List.take_zero, List.nil_append]
      obtain ⟨hout, hothers, g, hg, hgb⟩ := ih hfound he.block?_self hdrop
      refine ⟨⟨.head hstep hout.steps, fun _ => .head' hstep hout.steps, fun hc => by cases hc⟩, ?_,
        g, hg, ?_⟩
      · intro name hn
        rw [hothers name hn, hp.funcs, if_neg fun heq => hn (heq.trans hname)]
      · intro t ht
        rw [hgb t ht, he.block?_of_ne ht]
    · rename_i hr
      obtain ⟨hout, hbeyond⟩ := ih hf hb hrest
      refine ⟨⟨hout.steps, hout.changed, fun hc => ?_⟩, hbeyond⟩
      obtain ⟨hq, hnone⟩ := hout.unchanged hc
      refine ⟨hq, fun j hj => ?_⟩
      rcases List.mem_cons.1 hj with rfl | hj
      · simpa using hr
      · exact hnone j hj

theorem sweepBlocks_outcome {bs : List Block} (hf : p.findFunc fn = some f)
    (hb : ∀ b ∈ bs, f.block? b.id = some b) (hd : (bs.map Block.id).Nodup) :
    Outcome p (sweepBlocks fn p bs) (∀ b ∈ bs, ∀ i ∈ b.insts, removable p fn i = false) ∧
      ∀ name, name ≠ fn → (sweepBlocks fn p bs).1.findFunc name = p.findFunc name := by
  induction bs generalizing p f with
  | nil => exact ⟨.refl (List.forall_mem_nil _), fun _ _ => rfl⟩
  | cons b bs ih =>
    rw [List.map_cons, List.nodup_cons] at hd
    obtain ⟨hout, hothers, g, hg, hgb⟩ := sweepInsts_outcome hf (hb b (by simp)) List.drop_zero
    have hnext : ∀ c ∈ bs, g.block? c.id = some c := by
      intro c hc
      have hne : c.id ≠ b.id := fun heq => hd.1 (heq ▸ List.mem_map_of_mem hc)
      rw [hgb c.id hne]
      exact hb c (List.mem_cons_of_mem _ hc)
    obtain ⟨hout', hothers'⟩ := ih hg hnext hd.2
    have hboth := hout.andThen hout'
    refine ⟨⟨hboth.steps, hboth.changed, fun hc => ?_⟩, fun name hn => ?_⟩
    · obtain ⟨hq, hnone, hnone'⟩ := hboth.unchanged hc
      have hfirst := (hout.unchanged (Bool.or_eq_false_iff.1 hc).1).1
      refine ⟨hq, fun c hc' => ?_⟩
      rcases List.mem_cons.1 hc' with rfl | hc'
      · exact hnone
      · have hrest := hnone' hfirst c hc'
        rwa [hfirst] at hrest
    · exact (hothers' name hn).trans (hothers name hn)

theorem sweepFuncs_outcome {fs : List Func} (hf : ∀ f ∈ fs, p.findFunc f.name = some f)
    (hs : ∀ f ∈ fs, f.Ssa) (hd : (fs.map Func.name).Nodup) :
    Outcome p (sweepFuncs p fs)
      (∀ f ∈ fs, ∀ b ∈ f.blocks, ∀ i ∈ b.insts, removable p f.name i = false) := by
  induction fs generalizing p with
  | nil => exact .refl (List.forall_mem_nil _)
  | cons f fs ih =>
    rw [List.map_cons, List.nodup_cons] at hd
    have hself : ∀ b ∈ f.blocks, f.block? b.id = some b := fun b hb =>
      Func.block?_self (hs f (by simp)) hb
    obtain ⟨hout, hothers⟩ := sweepBlocks_outcome (hf f (by simp)) hself (hs f (by simp)).blocks
    have hout' := ih (p := (sweepBlocks f.name p f.blocks).1) (fun g hg => by
      have hne : g.name ≠ f.name := fun heq => hd.1 (heq ▸ List.mem_map_of_mem hg)
      rw [hothers g.name hne]
      exact hf g (List.mem_cons_of_mem _ hg)) (fun g hg => hs g (List.mem_cons_of_mem _ hg)) hd.2
    have hboth := hout.andThen hout'
    refine ⟨hboth.steps, hboth.changed, fun hc => ?_⟩
    obtain ⟨hq, hnone, hnone'⟩ := hboth.unchanged hc
    have hfirst := (hout.unchanged (Bool.or_eq_false_iff.1 hc).1).1
    refine ⟨hq, fun g hg => ?_⟩
    rcases List.mem_cons.1 hg with rfl | hg
    · exact hnone
    · have hrest := hnone' hfirst g hg
      rwa [hfirst] at hrest

/-- Nothing is left that a sweep would erase. -/
def Swept (p : Program) : Prop :=
  ∀ f ∈ p.funcs, ∀ b ∈ f.blocks, ∀ i ∈ b.insts, removable p f.name i = false

theorem eliminate_outcome (hwf : p.WellFormed env) : Outcome p (eliminate p) (Swept p) :=
  sweepFuncs_outcome (fun _ hf => hwf.findFunc hf) hwf.ssa hwf.names

end Sweep

/-! ## The pass -/

section Pass

variable {env : Env} {p q : Program} {rounds : Nat} {changed : Bool}

theorem loop_ok (hp : Fit env p) (h : loop rounds p = some (q, changed)) :
    Relation.ReflTransGen EraseStep p q ∧ Swept q := by
  induction rounds generalizing p q changed with
  | zero => cases h
  | succ rounds ih =>
    have hout := eliminate_outcome hp.wellFormed
    unfold loop at h
    dsimp only at h
    split at h
    · obtain ⟨⟨r, c⟩, hr, h⟩ := Option.map_eq_some_iff.1 h
      cases h
      obtain ⟨hsteps, hswept⟩ := ih (steps_kept hout.steps hp).1 hr
      exact ⟨hout.steps.trans hsteps, hswept⟩
    · rename_i hc
      cases h
      obtain ⟨hq, hswept⟩ := hout.unchanged (by simpa using hc)
      rw [hq]
      exact ⟨.refl, hswept⟩

theorem size_lt_of_steps (h : Relation.TransGen EraseStep p q) (hp : Fit env p) :
    size q < size p := by
  induction h using Relation.TransGen.head_induction_on with
  | single h => exact h.size_lt hp.wellFormed
  | head h _ ih => exact (ih (h.fit hp)).trans (h.size_lt hp.wellFormed)

/-- Every round but the last makes the program smaller. -/
theorem loop_total (hp : Fit env p) (h : size p < rounds) : ∃ r, loop rounds p = some r := by
  induction rounds generalizing p with
  | zero => omega
  | succ rounds ih =>
    have hout := eliminate_outcome hp.wellFormed
    unfold loop
    dsimp only
    split
    · rename_i hc
      have hlt := size_lt_of_steps (hout.changed hc) hp
      obtain ⟨r, hr⟩ := ih (steps_kept hout.steps hp).1 (by omega)
      rw [hr]
      exact ⟨_, rfl⟩
    · exact ⟨_, rfl⟩

/-- The pass ends after at most one round for each instruction and one more, and every
definition it leaves is used or has side effects. -/
theorem deadDef_terminates (hp : Fit env p) (hs : p.isSsa = true) (hr : size p < rounds) :
    ∃ q changed, apply rounds p = .ok (some (q, changed)) ∧ Swept q := by
  obtain ⟨⟨q, changed⟩, hq⟩ := loop_total hp hr
  refine ⟨q, changed, ?_, (loop_ok hp hq).2⟩
  unfold apply
  rw [if_pos hs, hq]

/-- A chain of two definitions that leads nowhere. -/
def deadChainMain (insts : List Inst) : Func where
  name := "main"
  retType := .int32
  params := []
  locals := []
  blocks := [
    { id := 0
      label := "entry"
      insts := .call ⟨some (.temp .int32 0), ⟨.func (.product .nil) .int32, .builtin "get_int"⟩, []⟩
        :: insts
      exit := some (.ret (.left (.temp .int32 0))) }]
  temps := [⟨.int32, 0⟩, ⟨.int32, 0⟩, ⟨.int32, 0⟩]
  tempLabelCount := 0
  nextBlock := 1

def deadChain (insts : List Inst) : Program where
  isSsa := true
  globals := []
  funcs := [deadChainMain insts]
  builtins := []
  nextAlloc := 0

def deadChainInsts : List Inst := [
  .binary ⟨.add, some (.temp .int32 1), .left (.temp .int32 0), .const (.ofInt 1)⟩,
  .binary ⟨.mul, some (.temp .int32 2), .left (.temp .int32 1), .const (.ofInt 2)⟩]

theorem fit_deadChain : Fit quiet (deadChain deadChainInsts) where
  wellFormed := Program.wellFormed_of_check (fun _ _ => []) (by decide)
  phis := by
    intro f hf
    cases List.mem_singleton.1 hf
    exact ⟨by decide, by decide⟩

theorem deadDef_terminates_deadChain :
    ∃ q changed, apply 4 (deadChain deadChainInsts) = .ok (some (q, changed)) ∧ Swept q :=
  deadDef_terminates fit_deadChain rfl (by decide)

end Pass

end DeadDefElimination
end Ir
end Cact
