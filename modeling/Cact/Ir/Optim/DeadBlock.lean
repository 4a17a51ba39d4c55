import Cact.Ir.Analysis.Available
import Cact.Ir.Check
import Cact.Ir.Erase
import Cact.Ir.Fewer
import Cact.Ir.Runs
import Cact.Ir.Analysis.DataFlow
import Cact.Lib.Search

/-!
# Elimination of dead blocks (`transform/optim/dead_block.hpp`)

The pass searches each function from its entrance, takes the arguments for blocks it has not
found out of the phis, and removes these blocks. No frame ever stands in one of them, and no
phi is entered from one, so the two programs run in lock-step. Nothing has to be known about
the program for that: it need not even be in SSA form.

- `eliminateFunc`, `eliminate`, `apply`: the pass.
- `Pruned`, `exec_pruned`: functions without their dead blocks, and their steps.
- `deadBlock_sameMeaning`: the pass keeps the meaning of every program.
- `deadBlock_terminates`: it ends after two rounds.
-/

namespace Cact

namespace Ir

open Vm

/-- A path of jumps leads to the block. -/
def Func.Reachable (f : Func) (b : BlockId) : Prop :=
  ∃ e, f.entrance = some e ∧ Relation.ReflTransGen f.BlockEdge e.id b

/-- The blocks are objects of their own, and control never comes to a block that has no
exit or is not there. -/
structure Func.Wired (f : Func) : Prop where
  distinct : f.Distinct
  entrance : ∃ e, f.entrance = some e
  exits : ∀ id, f.Reachable id → ∃ b, f.block? id = some b ∧ b.exit.isSome

namespace DeadBlockElimination

/-! ## The pass -/

/-- `targets(curr->exit())`. -/
def targets (f : Func) (b : BlockId) : Except Fault (List BlockId) := do
  let blk ← deref (f.block? b)
  let e ← deref blk.exit
  return e.targets

/-- The blocks that the worklist has come to when it is empty. -/
def reachable (fuel : Nat) (f : Func) : Except Fault (Option (Finset BlockId)) := do
  let entry ← deref f.entrance
  search (targets f) fuel entry.id

/-- `refine_phi`. -/
def refinePhi (reachable : Finset BlockId) (p : PhiInst) : Bool × PhiInst :=
  let args := p.args.filter fun a => a.1 ∈ reachable
  (args.length != p.args.length, { p with args })

/-- The loop over the phis at the head of a block. -/
def refineInsts (reachable : Finset BlockId) : List Inst → List Inst
  | .phi p :: insts =>
    let r := refinePhi reachable p
    .phi (if r.1 then r.2 else p) :: refineInsts reachable insts
  -- `break` at the first instruction that is no phi
  | insts => insts

def refineBlock (reachable : Finset BlockId) (b : Block) : Block :=
  { b with insts := refineInsts reachable b.insts }

/-- The function with the reachable blocks only. -/
def prune (reachable : Finset BlockId) (f : Func) : Func :=
  let blocks := f.blocks.map fun b => if b.id ∈ reachable then refineBlock reachable b else b
  { f with blocks := blocks.filter fun b => b.id ∈ reachable }

/-- `eliminate` for one function, and whether a block was removed. -/
def eliminateFunc (fuel : Nat) (f : Func) : Except Fault (Option (Func × Bool)) := do
  let r ← reachable fuel f
  return r.map fun reachable => (prune reachable f, reachable.card != f.blocks.length)

def eliminateFuncs (fuel : Nat) : List Func → Except Fault (Option (List Func × Bool))
  | [] => return some ([], false)
  | f :: fs => do
    let some (f', changed) ← eliminateFunc fuel f | return none
    let some (fs', changed') ← eliminateFuncs fuel fs | return none
    return some (f' :: fs', changed || changed')

/-- `eliminate`. -/
def eliminate (fuel : Nat) (prog : Program) : Except Fault (Option (Program × Bool)) := do
  let r ← eliminateFuncs fuel prog.funcs
  return r.map fun r => ({ prog with funcs := r.1 }, r.2)

/-- `apply`: rounds of `eliminate` until one of them removes nothing. -/
def apply (fuel : Nat) : Nat → Program → Except Fault (Option (Program × Bool))
  | 0, _ => return none
  | rounds + 1, prog => do
    let some (prog', changed) ← eliminate fuel prog | return none
    if changed then return (← apply fuel rounds prog').map fun r => (r.1, true)
    else return some (prog', false)

/-! ## What is left of a function -/

section Refine

variable {reachable : Finset BlockId} {f : Func} {b : Block} {id : BlockId}

/-- The phi with its arguments for reachable blocks. -/
def within (reachable : Finset BlockId) (p : PhiInst) : PhiInst :=
  { p with args := p.args.filter fun a => a.1 ∈ reachable }

/-- A phi that has not changed has only such arguments. -/
theorem refinePhi_eq (p : PhiInst) :
    (if (refinePhi reachable p).1 then (refinePhi reachable p).2 else p) = within reachable p := by
  unfold refinePhi within
  dsimp only
  split
  · rfl
  · rename_i h
    have hlen : (p.args.filter fun a => a.1 ∈ reachable).length = p.args.length := by simpa using h
    rw [List.filter_eq_self.2 (List.length_filter_eq_length_iff.1 hlen)]

theorem refineInsts_phi (p : PhiInst) (insts : List Inst) :
    refineInsts reachable (.phi p :: insts) =
      .phi (within reachable p) :: refineInsts reachable insts := by
  rw [← refinePhi_eq]
  rfl

/-- The phis at the head are refined, and everything behind them is as before. -/
theorem refineInsts_get (reachable : Finset BlockId) (insts : List Inst) (k : Nat) :
    (refineInsts reachable insts)[k]? = insts[k]? ∨ ∃ p, insts[k]? = some (.phi p) ∧
      (refineInsts reachable insts)[k]? = some (.phi (within reachable p)) := by
  induction insts generalizing k with
  | nil => exact .inl rfl
  | cons i insts ih =>
    cases i with
    | phi p =>
      rw [refineInsts_phi]
      cases k with
      | zero => exact .inr ⟨p, rfl, rfl⟩
      | succ k => simpa using ih k
    | _ => exact .inl rfl

theorem length_refineInsts (insts : List Inst) :
    (refineInsts reachable insts).length = insts.length := by
  induction insts with
  | nil => rfl
  | cons i insts ih =>
    cases i with
    | phi p =>
      rw [refineInsts_phi, List.length_cons, List.length_cons, ih]
    | _ => rfl

theorem length_insts_refineBlock : (refineBlock reachable b).insts.length = b.insts.length :=
  length_refineInsts b.insts

theorem phis_refineBlock : (refineBlock reachable b).phis = b.phis.map (within reachable) := by
  obtain ⟨_, _, insts, _⟩ := b
  unfold refineBlock Block.phis
  dsimp only
  induction insts with
  | nil => rfl
  | cons i insts ih =>
    cases i with
    | phi p =>
      rw [refineInsts_phi]
      simpa [List.takeWhile_cons, Inst.isPhi] using ih
    | _ => rfl

theorem targets_refineBlock : (refineBlock reachable b).targets = b.targets := rfl

theorem results_refineInsts (insts : List Inst) :
    (refineInsts reachable insts).filterMap Inst.definedVar = insts.filterMap Inst.definedVar := by
  induction insts with
  | nil => rfl
  | cons i insts ih =>
    cases i with
    | phi p =>
      rw [refineInsts_phi, List.filterMap_cons, List.filterMap_cons, ih]
      rfl
    | _ => rfl

/-- From a reachable block a phi takes what it took before. -/
theorem value_within {p : PhiInst} (h : id ∈ reachable) :
    (within reachable p).value id = p.value id := by
  have hfind : (p.args.filter fun a => a.1 ∈ reachable).find? (fun a => a.1 == id) =
      p.args.find? fun a => a.1 == id := by
    rw [List.find?_filter]
    refine List.find?_congr fun a _ => ?_
    by_cases ha : a.1 = id
    · simp [ha, h]
    · simp [ha]
  unfold PhiInst.value within
  rw [hfind]

theorem blocks_prune : (prune reachable f).blocks =
    (f.blocks.filter fun b => b.id ∈ reachable).map (refineBlock reachable) := by
  unfold prune
  dsimp only
  induction f.blocks with
  | nil => rfl
  | cons b bs ih =>
    by_cases hb : b.id ∈ reachable
    · have hid : (refineBlock reachable b).id = b.id := rfl
      simp [hb, hid, ih]
    · simp [hb, ih]

theorem block?_prune (h : id ∈ reachable) :
    (prune reachable f).block? id = (f.block? id).map (refineBlock reachable) := by
  unfold Func.block?
  rw [blocks_prune, List.find?_map, List.find?_filter]
  refine congrArg (Option.map _) (List.find?_congr fun b _ => ?_)
  have hid' : (refineBlock reachable b).id = b.id := rfl
  by_cases hid : b.id = id
  · simp [hid, hid', h]
  · simp [hid, hid']

theorem mem_prune : b ∈ (prune reachable f).blocks ↔
    ∃ c ∈ f.blocks, c.id ∈ reachable ∧ refineBlock reachable c = b := by
  rw [blocks_prune]
  simp [and_assoc]

end Refine

/-- What the pass makes of a function whose search has ended: the blocks that were found
have exits, and all they jump to was found too. -/
structure Pruned (f f' : Func) (reachable : Finset BlockId) : Prop where
  eq : f' = prune reachable f
  entry : ∃ e, f.entrance = some e ∧ e.id ∈ reachable
  closed : ∀ id ∈ reachable, ∃ b, f.block? id = some b ∧ b.exit.isSome ∧
    ∀ t ∈ b.targets, t ∈ reachable
  found : ∀ id ∈ reachable, f'.Reachable id

section Pruned

variable {f f' : Func} {reachable : Finset BlockId} {id : BlockId}

/-- Paths from the entrance do not lead out of what was found. -/
theorem Pruned.reach (h : Pruned f f' reachable) {k : Nat} (hr : f.graph.Reach (some (id, k))) :
    id ∈ reachable := by
  generalize hp : (some (id, k) : Point) = p at hr
  -- a call comes to the entrance, and a jump from what was found stays there
  induction hr generalizing id k with
  | entry => cases hp
  | @step p q hr he ih =>
    subst hp
    cases he with
    | call hb =>
      obtain ⟨e, hentry, hmem⟩ := h.entry
      cases hb.symm.trans hentry
      exact hmem
    | inst => exact ih rfl
    | jump hb ht =>
      obtain ⟨b, hb', -, hclosed⟩ := h.closed _ (ih rfl)
      cases hb.symm.trans hb'
      exact hclosed _ ht

theorem Pruned.block? (h : Pruned f f' reachable) (hid : id ∈ reachable) :
    f'.block? id = (f.block? id).map (refineBlock reachable) := by
  rw [h.eq, block?_prune hid]

theorem Pruned.entrance (h : Pruned f f' reachable) :
    f'.entrance = f.entrance.map (refineBlock reachable) := by
  obtain ⟨e, he, hmem⟩ := h.entry
  obtain ⟨bs, hbs⟩ := List.head?_eq_some_iff.1 he
  rw [he, h.eq]
  unfold Func.entrance
  rw [blocks_prune, hbs]
  simp [hmem]

/-- A block of the pruned function is what is left of a block that was found. -/
theorem Pruned.of_block? (h : Pruned f f' reachable) {b' : Block} (hb : f'.block? id = some b') :
    id ∈ reachable ∧ ∃ b, f.block? id = some b ∧ refineBlock reachable b = b' := by
  obtain ⟨hmem, rfl⟩ := Func.mem_of_block? hb
  rw [h.eq] at hmem
  obtain ⟨c, -, hc, rfl⟩ := mem_prune.1 hmem
  have hid : (refineBlock reachable c).id ∈ reachable := hc
  rw [h.block? hid] at hb
  obtain ⟨b, hb, heq⟩ := Option.map_eq_some_iff.1 hb
  exact ⟨hid, b, hb, heq⟩

end Pruned

/-! ## Steps -/

section Steps

variable {env : Env} {prog prog' : Program} {s : State env} {fr : Frame} {rest : List Frame}
  {f f' : Func} {reachable : Finset BlockId}

/-- The programs before and after a round. -/
structure PrunedProgram (prog prog' : Program) : Prop where
  globals : prog'.globals = prog.globals
  funcs : List.Forall₂ (fun f f' => ∃ reachable, Pruned f f' reachable) prog.funcs prog'.funcs

theorem PrunedProgram.findFunc (h : PrunedProgram prog prog') (name : String) :
    Option.Rel (fun f f' => ∃ reachable, Pruned f f' reachable) (prog.findFunc name)
      (prog'.findFunc name) := by
  refine find?_rel h.funcs ?_
  rintro f f' ⟨reachable, hp⟩
  rw [hp.eq]
  rfl

theorem PrunedProgram.find (h : PrunedProgram prog prog') {name : String}
    (hf : prog.findFunc name = some f) :
    ∃ f' reachable, prog'.findFunc name = some f' ∧ Pruned f f' reachable := by
  have hfind := h.findFunc name
  rw [hf] at hfind
  generalize ho : prog'.findFunc name = o at hfind
  cases hfind with
  | @some _ f' hp =>
    obtain ⟨reachable, hp⟩ := hp
    exact ⟨f', reachable, rfl, hp⟩

/-- A block that was found is found again, with fewer arguments in its phis. -/
theorem blockAt_pruned (hf : prog.findFunc fr.func = some f)
    (hf' : prog'.findFunc fr.func = some f') (hp : Pruned f f' reachable) {id : BlockId}
    (hid : id ∈ reachable) : ∃ b, blockAt prog fr id = .ok b ∧
      blockAt prog' fr id = .ok (refineBlock reachable b) := by
  obtain ⟨b, hb, -⟩ := hp.closed id hid
  refine ⟨b, (blockAt_eq_ok hf).2 hb, (blockAt_eq_ok hf').2 ?_⟩
  rw [hp.block? hid, hb]
  rfl

theorem runPhis_within {sc : Scope} {prev : Option BlockId} (hprev : ∀ id ∈ prev, id ∈ reachable)
    (phis : List PhiInst) :
    runPhis env sc prev (phis.map (within reachable)) = runPhis env sc prev phis := by
  unfold runPhis
  cases prev with
  | none =>
    dsimp only
    rw [List.isEmpty_map]
  | some id =>
    dsimp only
    have hread : ∀ p, readPhi env sc id (within reachable p) = readPhi env sc id p := fun p => by
      unfold readPhi
      rw [value_within (hprev id rfl)]
      rfl
    rw [List.mapM_map, show readPhi env sc id ∘ within reachable = readPhi env sc id from
      funext hread]

theorem enterBlock_pruned (hf : prog.findFunc fr.func = some f)
    (hf' : prog'.findFunc fr.func = some f') (hp : Pruned f f' reachable) {t : BlockId}
    (ht : t ∈ reachable) {prev : Option BlockId} (hprev : ∀ id ∈ prev, id ∈ reachable) :
    enterBlock prog' s fr rest prev t = enterBlock prog s fr rest prev t := by
  obtain ⟨b, hb, hb'⟩ := blockAt_pruned hf hf' hp ht
  unfold enterBlock
  rw [hb, hb']
  show (runPhis env _ prev (refineBlock reachable b).phis >>= _) =
    (runPhis env _ prev b.phis >>= _)
  rw [phis_refineBlock, runPhis_within hprev, List.length_map]

theorem enterFunc_pruned (hf : prog.findFunc f.name = some f)
    (hf' : prog'.findFunc f.name = some f') (hp : Pruned f f' reachable) (args : List View) :
    enterFunc prog' s f' args = enterFunc prog s f args := by
  obtain ⟨e, he, hmem⟩ := hp.entry
  have hlayout : ∀ mem top, layoutFunc env.float mem top f' args =
      layoutFunc env.float mem top f args := fun mem top => by
    rw [hp.eq]
    rfl
  have hname : f'.name = f.name := by
    rw [hp.eq]
    rfl
  unfold enterFunc
  rw [hlayout, hp.entrance, he, hname]
  exact bind_congr fun l => enterBlock_pruned hf hf' hp hmem nofun

theorem execInst_pruned (h : PrunedProgram prog prog') (i : Inst) :
    execInst prog' s fr rest i = execInst prog s fr rest i := by
  cases i with
  | call c =>
    show (_ >>= fun _ => _ >>= fun _ => _) = (_ >>= fun _ => _ >>= fun _ => _)
    refine bind_congr fun dest => bind_congr fun args => ?_
    cases c.func.defn with
    | func name =>
      dsimp only
      cases hf : prog.findFunc name with
      | none =>
        have hfind := h.findFunc name
        rw [hf] at hfind
        generalize prog'.findFunc name = o at hfind
        cases hfind
        rfl
      | some f =>
        obtain ⟨f', reachable, hf', hp⟩ := h.find hf
        rw [hf']
        have hname := findFunc_name hf
        subst hname
        exact enterFunc_pruned hf hf' hp args
    | _ => rfl
  | _ => rfl

/-- A frame at a point that paths lead to stands in a block that was found. -/
theorem PrunedProgram.stands (h : PrunedProgram prog prog') (hs : Vm.Stands prog s)
    (hfr : fr ∈ s.frames) :
    ∃ f f' reachable, prog.findFunc fr.func = some f ∧ prog'.findFunc fr.func = some f' ∧
      Pruned f f' reachable ∧ fr.block ∈ reachable := by
  obtain ⟨f, hf, hr⟩ := hs fr hfr
  obtain ⟨f', reachable, hf', hp⟩ := h.find hf
  exact ⟨f, f', reachable, hf, hf', hp, hp.reach hr⟩

theorem execReturn_pruned (hs : Vm.Stands prog s) (h : PrunedProgram prog prog')
    (hrest : ∀ fr ∈ rest, fr ∈ s.frames) (v : View) :
    execReturn prog' s fr rest v = execReturn prog s fr rest v := by
  cases rest with
  | nil => rfl
  | cons caller rest =>
    obtain ⟨f, f', reachable, hf, hf', hp, hmem⟩ := h.stands hs (hrest caller (by simp))
    obtain ⟨b, hb, hb'⟩ := blockAt_pruned hf hf' hp hmem
    -- the caller waits at a call, which is no phi
    have hcall : ((refineBlock reachable b).insts[caller.idx]?).bind callResult =
        (b.insts[caller.idx]?).bind callResult := by
      show ((refineInsts reachable b.insts)[caller.idx]?).bind callResult = _
      rcases refineInsts_get reachable b.insts caller.idx with heq | ⟨p, hi, hi'⟩
      · rw [heq]
      · rw [hi, hi']
        rfl
    unfold execReturn
    dsimp only
    rw [hb, hb']
    show (deref (((refineBlock reachable b).insts[caller.idx]?).bind callResult) >>= _) =
      (deref ((b.insts[caller.idx]?).bind callResult) >>= _)
    rw [hcall]

/-- Where paths lead to, both programs take the same step. -/
theorem exec_pruned (h : PrunedProgram prog prog') (hs : Vm.Stands prog s) :
    exec prog' s = exec prog s := by
  unfold exec
  cases hfrs : s.frames with
  | nil => rfl
  | cons fr rest =>
    dsimp only
    obtain ⟨f, f', reachable, hf, hf', hp, hmem⟩ := h.stands hs (show fr ∈ s.frames by simp [hfrs])
    obtain ⟨b, hb, hb'⟩ := blockAt_pruned hf hf' hp hmem
    rw [hb, hb']
    show execAt prog' s fr rest (refineBlock reachable b) = execAt prog s fr rest b
    unfold execAt
    have hinst : (refineBlock reachable b).insts[fr.idx]? =
        (refineInsts reachable b.insts)[fr.idx]? := rfl
    rw [hinst]
    rcases refineInsts_get reachable b.insts fr.idx with heq | ⟨p, hi, hi'⟩
    · rw [heq]
      cases b.insts[fr.idx]? with
      | some i => exact execInst_pruned h i
      | none =>
        -- the exit leads from one block that was found to another
        have hblock := (blockAt_eq_ok hf).1 hb
        obtain ⟨b₁, hb₁, -, hclosed⟩ := hp.closed _ hmem
        cases hblock.symm.trans hb₁
        have henter : ∀ t ∈ b.targets, enterBlock prog' s fr rest (some fr.block) t =
            enterBlock prog s fr rest (some fr.block) t := fun t ht =>
          enterBlock_pruned hf hf' hp (hclosed t ht) fun id hid => by
            cases hid
            exact hmem
        show (deref b.exit >>= _) = (deref b.exit >>= _)
        cases hexit : b.exit with
        | none => rfl
        | some e =>
          have htargets : ∀ t ∈ e.targets, t ∈ b.targets := fun t ht => by
            simpa [Block.targets, hexit] using ht
          show execExit prog' s fr rest e = execExit prog s fr rest e
          cases e with
          | jump t => exact henter t (htargets t (by simp [Exit.targets]))
          | branch cond t t' =>
            refine bind_congr fun v => bind_congr fun c => henter _ (htargets _ ?_)
            cases c <;> simp [Exit.targets]
          | ret exp =>
            refine bind_congr fun v => execReturn_pruned hs h (fun fr' hfr' => ?_) v
            simp [hfrs, hfr']
    · -- a phi cannot be executed here, refined or not
      rw [hi, hi']
      rfl

theorem initial_pruned (h : PrunedProgram prog prog') (input : env.Input) :
    initial prog' input = initial prog input := by
  have hstart : start prog' input = start prog input := by
    unfold start
    rw [h.globals]
    refine bind_congr fun l => ?_
    cases hf : prog.findFunc "main" with
    | none =>
      have hfind := h.findFunc "main"
      rw [hf] at hfind
      generalize prog'.findFunc "main" = o at hfind
      cases hfind
      rfl
    | some f =>
      obtain ⟨f', reachable, hf', hp⟩ := h.find hf
      rw [hf']
      have hself := findFunc_self hf
      rw [← findFunc_name hf] at hf'
      exact enterFunc_pruned hself hf' hp []
  unfold initial
  rw [hstart]

/-- A round cannot be seen from outside. -/
theorem PrunedProgram.sameMeaning (h : PrunedProgram prog prog') : SameMeaning env prog prog' :=
  fun input => obsEq_of_stands (initial_pruned h input) fun _ => exec_pruned h

end Steps

/-! ## Rounds -/

section Rounds

variable {env : Env} {prog prog' : Program} {f f' : Func} {seen : Finset BlockId} {fuel : Nat}
  {changed : Bool}

theorem targets_eq_ok {id : BlockId} {ts : List BlockId} :
    targets f id = .ok ts ↔ ∃ b, f.block? id = some b ∧ b.exit.isSome ∧ b.targets = ts := by
  unfold targets
  constructor
  · intro h
    obtain ⟨b, hb, h⟩ := Except.bind_eq_ok.1 h
    obtain ⟨e, he, h⟩ := Except.bind_eq_ok.1 h
    cases h
    rw [deref_eq_ok] at hb he
    exact ⟨b, hb, by simp [he], by simp [Block.targets, he]⟩
  · rintro ⟨b, hb, he, rfl⟩
    obtain ⟨e, he⟩ := Option.isSome_iff_exists.1 he
    rw [hb]
    show (deref b.exit >>= _) = _
    rw [Block.targets, he]
    rfl

/-- What a search that has ended says about the function. -/
theorem pruned_of_reachable (h : reachable fuel f = .ok (some seen)) :
    Pruned f (prune seen f) seen := by
  obtain ⟨e, he, h⟩ := Except.bind_eq_ok.1 h
  have he := deref_eq_ok.1 he
  obtain ⟨hfound, hclosed⟩ := search_ok h
  have hentry : e.id ∈ seen := (hfound _).2 .start
  have hblocks : ∀ id ∈ seen, ∃ b, f.block? id = some b ∧ b.exit.isSome ∧
      ∀ t ∈ b.targets, t ∈ seen := by
    intro id hid
    obtain ⟨ts, hts, hsub⟩ := hclosed id hid
    obtain ⟨b, hb, hexit, rfl⟩ := targets_eq_ok.1 hts
    exact ⟨b, hb, hexit, hsub⟩
  have hentrance : (prune seen f).entrance = some (refineBlock seen e) := by
    obtain ⟨bs, hbs⟩ := List.head?_eq_some_iff.1 he
    unfold Func.entrance
    rw [blocks_prune, hbs]
    simp [hentry]
  refine ⟨rfl, ⟨e, he, hentry⟩, hblocks, fun id hid => ⟨_, hentrance, ?_⟩⟩
  -- the jumps that were followed are still there
  have hpath := (hfound id).1 hid
  clear hid
  induction hpath with
  | start => exact .refl
  | @next a b ts ha hts hb ih =>
    refine ih.tail ?_
    obtain ⟨blk, hblk, -, rfl⟩ := targets_eq_ok.1 hts
    have hkept : (prune seen f).block? a = some (refineBlock seen blk) := by
      rw [block?_prune ((hfound a).2 ha), hblk]
      rfl
    obtain ⟨hmem, hid⟩ := Func.mem_of_block? hkept
    exact ⟨_, hmem, hid, hb⟩

theorem eliminateFunc_ok (h : eliminateFunc fuel f = .ok (some (f', changed))) :
    ∃ seen, Pruned f f' seen ∧ changed = (seen.card != f.blocks.length) := by
  obtain ⟨r, hr, h⟩ := Except.bind_eq_ok.1 h
  cases r with
  | none => cases h
  | some seen =>
    cases h
    exact ⟨seen, pruned_of_reachable hr, rfl⟩

theorem eliminateFuncs_ok {fs fs' : List Func}
    (h : eliminateFuncs fuel fs = .ok (some (fs', changed))) :
    List.Forall₂ (fun f f' => ∃ seen, Pruned f f' seen) fs fs' := by
  induction fs generalizing fs' changed with
  | nil =>
    cases h
    exact .nil
  | cons f fs ih =>
    obtain ⟨r, hr, h⟩ := Except.bind_eq_ok.1 h
    rcases r with _ | ⟨f', changed'⟩
    · cases h
    · obtain ⟨rs, hrs, h⟩ := Except.bind_eq_ok.1 h
      rcases rs with _ | ⟨fs'', changed''⟩
      · cases h
      · cases h
        obtain ⟨seen, hp, -⟩ := eliminateFunc_ok hr
        exact .cons ⟨seen, hp⟩ (ih hrs)

theorem eliminate_ok (h : eliminate fuel prog = .ok (some (prog', changed))) :
    PrunedProgram prog prog' := by
  obtain ⟨r, hr, h⟩ := Except.bind_eq_ok.1 h
  rcases r with _ | ⟨fs, changed'⟩
  · cases h
  · cases h
    exact ⟨rfl, eliminateFuncs_ok hr⟩

/-- What every round keeps, and the last round establishes. -/
theorem apply_ok {P : Program → Program → Prop} {rounds : Nat}
    (hlast : ∀ p q, PrunedProgram p q → P p q)
    (hround : ∀ p q r, PrunedProgram p q → P q r → P p r)
    (h : apply fuel rounds prog = .ok (some (prog', changed))) : P prog prog' := by
  induction rounds generalizing prog prog' changed with
  | zero => cases h
  | succ rounds ih =>
    obtain ⟨r, hr, h⟩ := Except.bind_eq_ok.1 h
    rcases r with _ | ⟨q, changed'⟩
    · cases h
    · have hq := eliminate_ok hr
      dsimp only at h
      split at h
      · obtain ⟨r, hr', h⟩ := Except.bind_eq_ok.1 h
        rcases r with _ | ⟨q', changed''⟩
        · cases h
        · cases h
          exact hround _ _ _ hq (ih hr')
      · cases h
        exact hlast _ _ hq

/-- A path of jumps leads to every block, and the phis have arguments for blocks only. -/
structure NoDeadBlocks (f : Func) : Prop where
  reachable : ∀ b ∈ f.blocks, f.Reachable b.id
  sources : ∀ b ∈ f.blocks, ∀ p ∈ b.phis, ∀ a ∈ p.args, ∃ c ∈ f.blocks, c.id = a.1

theorem Pruned.noDeadBlocks (h : Pruned f f' seen) : NoDeadBlocks f' := by
  have hmem : ∀ b ∈ f'.blocks, ∃ c, c.id ∈ seen ∧ refineBlock seen c = b := by
    intro b hb
    rw [h.eq] at hb
    obtain ⟨c, -, hc, hcb⟩ := mem_prune.1 hb
    exact ⟨c, hc, hcb⟩
  refine ⟨fun b hb => ?_, fun b hb p hp a ha => ?_⟩
  · obtain ⟨c, hc, rfl⟩ := hmem b hb
    exact h.found _ hc
  · obtain ⟨c, -, rfl⟩ := hmem b hb
    rw [phis_refineBlock] at hp
    obtain ⟨p, -, rfl⟩ := List.mem_map.1 hp
    have hseen : a.1 ∈ seen := by simpa using (List.mem_filter.1 ha).2
    obtain ⟨d, hd, -⟩ := h.closed _ hseen
    have hkept := h.block? hseen
    rw [hd] at hkept
    obtain ⟨hmem', hid⟩ := Func.mem_of_block? hkept
    exact ⟨_, hmem', hid⟩

theorem PrunedProgram.noDeadBlocks (h : PrunedProgram prog prog') :
    ∀ f ∈ prog'.funcs, NoDeadBlocks f := by
  intro f' hf'
  obtain ⟨f, -, seen, hp⟩ := exists_of_mem_right h.funcs hf'
  exact hp.noDeadBlocks

/-- In a function without dead blocks whose phis are in their places control can reach the end
of every block. -/
theorem connected_of_noDeadBlocks (hs : f.Ssa) (hp : f.PhisPlaced) (hd : NoDeadBlocks f) :
    f.Connected := by
  -- from the start of a block its end is reached instruction by instruction
  have hend : ∀ {id b}, f.block? id = some b → f.graph.Reach (some (id, b.phis.length)) →
      f.graph.Reach (some (id, b.insts.length)) := by
    intro id b hb hstart
    have hall : ∀ n, b.phis.length + n ≤ b.insts.length →
        f.graph.Reach (some (id, b.phis.length + n)) := by
      intro n
      induction n with
      | zero => exact fun _ => hstart
      | succ n ih =>
        intro hn
        have hi := List.getElem?_eq_getElem (l := b.insts) (i := b.phis.length + n) (by omega)
        have hphi := hp.first b (Func.mem_of_block? hb).1 _ _ hi (by omega)
        exact (ih (by omega)).step (.inst hb hi hphi)
    have hlen := hall (b.insts.length - b.phis.length)
    have hle := b.phis_length_le
    rw [show b.phis.length + (b.insts.length - b.phis.length) = b.insts.length by omega] at hlen
    exact hlen (Nat.le_refl _)
  have hreach : ∀ e, f.entrance = some e → ∀ id, Relation.ReflTransGen f.BlockEdge e.id id →
      ∀ b, f.block? id = some b → f.graph.Reach (some (id, b.phis.length)) := by
    intro e he id hpath
    induction hpath with
    | refl =>
      intro b hb
      cases (Func.block?_entrance he).symm.trans hb
      rw [hp.entrance e he]
      exact .step .entry (.call he (hp.entrance e he))
    | tail _ hedge ih =>
      obtain ⟨c, hc, rfl, ht⟩ := hedge
      intro b hb
      have hself := Func.block?_self hs hc
      exact (hend hself (ih c hself)).step (.jump hself ht hb)
  intro id b hb
  obtain ⟨hmem, rfl⟩ := Func.mem_of_block? hb
  obtain ⟨e, he, hpath⟩ := hd.reachable b hmem
  exact hend hb (hreach e he _ hpath b hb)

/-- The pass keeps the meaning of every program it accepts, and leaves no dead blocks. -/
theorem deadBlock_sameMeaning {rounds : Nat}
    (h : apply fuel rounds prog = .ok (some (prog', changed))) :
    SameMeaning env prog prog' ∧ ∀ f ∈ prog'.funcs, NoDeadBlocks f := by
  constructor
  · exact apply_ok (P := SameMeaning env) (fun p q h => h.sameMeaning)
      (fun p q r h hqr => h.sameMeaning.trans hqr) h
  · exact apply_ok (P := fun _ q => ∀ f ∈ q.funcs, NoDeadBlocks f)
      (fun p q h => h.noDeadBlocks) (fun p q r _ hqr => hqr) h

/-- A function that returns a phi at a join, one side of which is dead. -/
def deadSideMain : Func where
  name := "main"
  retType := .int32
  params := []
  locals := []
  blocks := [
    { id := 0, label := "entry", insts := [], exit := some (.jump 2) },
    { id := 1, label := "dead", insts := [], exit := some (.jump 2) },
    { id := 2
      label := "join"
      insts := [.phi ⟨some (.temp .int32 0), [(0, .const (.ofInt 1)), (1, .const (.ofInt 2))]⟩]
      exit := some (.ret (.left (.temp .int32 0))) }]
  temps := [⟨.int32, 2⟩]
  tempLabelCount := 0
  nextBlock := 3

def deadSide : Program where
  isSsa := true
  globals := []
  funcs := [deadSideMain]
  builtins := []
  nextAlloc := 0

/-- The program without the dead side, whose phi has one argument left. -/
def deadSidePruned : Program := { deadSide with funcs := [prune {0, 2} deadSideMain] }

theorem deadBlock_sameMeaning_deadSide :
    SameMeaning quiet deadSide deadSidePruned ∧ ∀ f ∈ deadSidePruned.funcs, NoDeadBlocks f :=
  deadBlock_sameMeaning (show apply 4 2 deadSide = .ok (some (deadSidePruned, true)) from rfl)

end Rounds

/-! ## Termination -/

section Termination

variable {prog : Program} {f f' : Func} {seen : Finset BlockId} {fuel : Nat}

/-- It is enough that all blocks have exits, and jump to blocks. -/
theorem wired_of_blocks (hd : f.Distinct) (hne : f.blocks ≠ [])
    (h : ∀ b ∈ f.blocks, b.exit.isSome ∧ ∀ t ∈ b.targets, ∃ c ∈ f.blocks, c.id = t) :
    f.Wired := by
  refine ⟨hd, ?_, ?_⟩
  · obtain ⟨e, bs, he⟩ := List.exists_cons_of_ne_nil hne
    exact ⟨e, by rw [Func.entrance, he]; rfl⟩
  · rintro id ⟨e, he, hpath⟩
    have hblock : ∃ b ∈ f.blocks, b.id = id := by
      cases hpath with
      | refl => exact ⟨e, List.mem_of_mem_head? he, rfl⟩
      | tail _ hedge =>
        obtain ⟨b, hb, -, ht⟩ := hedge
        exact (h b hb).2 _ ht
    obtain ⟨b, hb, rfl⟩ := hblock
    have hsome : (f.block? b.id).isSome := List.find?_isSome.2 ⟨b, hb, by simp⟩
    obtain ⟨c, hc⟩ := Option.isSome_iff_exists.1 hsome
    exact ⟨c, hc, (h c (Func.mem_of_block? hc).1).1⟩

/-- What the search finds can be reached. -/
theorem reachable_of_found {e : Block} {id : BlockId} (he : f.entrance = some e)
    (h : Found (targets f) e.id id) : f.Reachable id := by
  refine ⟨e, he, ?_⟩
  induction h with
  | start => exact .refl
  | next _ hts hb ih =>
    obtain ⟨b, hb', -, rfl⟩ := targets_eq_ok.1 hts
    obtain ⟨hmem, hid⟩ := Func.mem_of_block? hb'
    exact ih.tail ⟨b, hmem, hid, hb⟩

theorem exists_reachable (h : f.Wired) : ∃ fuel seen, reachable fuel f = .ok (some seen) := by
  obtain ⟨e, he⟩ := h.entrance
  have hnodes : ∀ id, Found (targets f) e.id id →
      id ∈ (f.blocks.map Block.id).toFinset ∧ ∃ ts, targets f id = .ok ts := by
    intro id hid
    obtain ⟨b, hb, hexit⟩ := h.exits id (reachable_of_found he hid)
    obtain ⟨hmem, rfl⟩ := Func.mem_of_block? hb
    exact ⟨List.mem_toFinset.2 (List.mem_map_of_mem hmem), _, targets_eq_ok.2 ⟨b, hb, hexit, rfl⟩⟩
  obtain ⟨fuel, seen, hs⟩ := search_total hnodes
  refine ⟨fuel, seen, ?_⟩
  unfold reachable
  rw [he]
  exact hs

theorem eliminateFunc_mono {n m : Nat} {r : Func × Bool} (hnm : n ≤ m)
    (h : eliminateFunc n f = .ok (some r)) : eliminateFunc m f = .ok (some r) := by
  unfold eliminateFunc at h ⊢
  obtain ⟨o, ho, h⟩ := Except.bind_eq_ok.1 h
  cases o with
  | none => cases h
  | some seen =>
    have hm : reachable m f = .ok (some seen) := by
      obtain ⟨e, he, ho⟩ := Except.bind_eq_ok.1 ho
      unfold reachable
      rw [he]
      exact search_mono hnm ho
    rw [hm]
    exact h

/-- One number of rounds is enough for all functions. -/
theorem eliminateFuncs_total {fs : List Func} {g : Func → Func × Bool}
    (h : ∀ f ∈ fs, ∃ fuel, eliminateFunc fuel f = .ok (some (g f))) :
    ∃ fuel, ∀ n, fuel ≤ n → eliminateFuncs n fs =
      .ok (some (fs.map fun f => (g f).1, fs.any fun f => (g f).2)) := by
  induction fs with
  | nil => exact ⟨0, fun n _ => rfl⟩
  | cons f fs ih =>
    obtain ⟨k, hk⟩ := h f (by simp)
    obtain ⟨m, hm⟩ := ih fun f' hf' => h f' (by simp [hf'])
    refine ⟨max k m, fun n hn => ?_⟩
    simp only [eliminateFuncs]
    rw [eliminateFunc_mono (by omega) hk]
    show (eliminateFuncs n fs >>= _) = _
    rw [hm n (by omega)]
    rfl

/-- What can be reached was found. -/
theorem Pruned.mem_of_reachable (h : Pruned f f' seen) (hd : f.Distinct) {id : BlockId}
    (hr : f.Reachable id) : id ∈ seen := by
  obtain ⟨e, he, hpath⟩ := hr
  induction hpath with
  | refl =>
    obtain ⟨e', he', hmem⟩ := h.entry
    cases he.symm.trans he'
    exact hmem
  | tail _ hedge ih =>
    obtain ⟨b, hb, rfl, ht⟩ := hedge
    obtain ⟨c, hc, -, hclosed⟩ := h.closed _ ih
    obtain ⟨hmem, hid⟩ := Func.mem_of_block? hc
    rw [hd.eq_of_id hmem hb hid] at hclosed
    exact hclosed _ ht

theorem refineInsts_refineInsts {seen' : Finset BlockId} (hsub : seen ⊆ seen')
    (insts : List Inst) : refineInsts seen' (refineInsts seen insts) = refineInsts seen insts := by
  induction insts with
  | nil => rfl
  | cons i insts ih =>
    cases i with
    | phi p =>
      have hargs : within seen' (within seen p) = within seen p := by
        unfold within
        refine congrArg _ (List.filter_eq_self.2 fun a ha => ?_)
        have hmem : a.1 ∈ seen := by simpa using (List.mem_filter.1 ha).2
        simpa using hsub hmem
      rw [refineInsts_phi, refineInsts_phi, ih, hargs]
    | _ => rfl

theorem Pruned.distinct (h : Pruned f f' seen) (hd : f.Distinct) : f'.Distinct := by
  have hids : f'.blocks.map Block.id = (f.blocks.filter fun b => b.id ∈ seen).map Block.id := by
    rw [h.eq, blocks_prune, List.map_map]
    rfl
  unfold Func.Distinct
  rw [hids]
  exact hd.sublist (List.filter_sublist.map _)

/-- The jumps that are left were there before. -/
theorem Pruned.reachable (h : Pruned f f' seen) {id : BlockId} (hr : f'.Reachable id) :
    f.Reachable id := by
  obtain ⟨e', he', hpath⟩ := hr
  rw [h.entrance] at he'
  obtain ⟨e, he, rfl⟩ := Option.map_eq_some_iff.1 he'
  refine ⟨e, he, ?_⟩
  induction hpath with
  | refl => exact .refl
  | tail _ hedge ih =>
    obtain ⟨b, hb, rfl, ht⟩ := hedge
    rw [h.eq] at hb
    obtain ⟨c, hc, -, rfl⟩ := mem_prune.1 hb
    exact ih.tail ⟨c, hc, rfl, ht⟩

/-- A function without dead blocks is searched without an error. -/
theorem Pruned.wired (h : Pruned f f' seen) (hd : f.Distinct) : f'.Wired := by
  refine ⟨h.distinct hd, ?_, fun id hr => ?_⟩
  · obtain ⟨e, he, -⟩ := h.entry
    exact ⟨_, by rw [h.entrance, he]; rfl⟩
  · have hmem := h.mem_of_reachable hd (h.reachable hr)
    obtain ⟨b, hb, hexit, -⟩ := h.closed id hmem
    refine ⟨refineBlock seen b, ?_, hexit⟩
    rw [h.block? hmem, hb]
    rfl

/-- A second round finds every block, and changes nothing. -/
theorem Pruned.stable (h : Pruned f f' seen) (hd : f.Distinct) :
    ∃ fuel, eliminateFunc fuel f' = .ok (some (f', false)) := by
  have hd' := h.distinct hd
  obtain ⟨fuel, seen', hs⟩ := exists_reachable (h.wired hd)
  have hp := pruned_of_reachable hs
  -- the second search finds the blocks that are left, and no others
  have hall : ∀ b ∈ f'.blocks, b.id ∈ seen' := fun b hb =>
    hp.mem_of_reachable hd' (h.noDeadBlocks.reachable b hb)
  have hseen : seen' = (f'.blocks.map Block.id).toFinset := by
    ext id
    rw [List.mem_toFinset, List.mem_map]
    constructor
    · intro hid
      obtain ⟨b, hb, -⟩ := hp.closed id hid
      exact ⟨b, Func.mem_of_block? hb⟩
    · rintro ⟨b, hb, rfl⟩
      exact hall b hb
  -- so the phis have lost all their dead arguments in the first round
  have hsub : seen ⊆ seen' := fun id hid => hp.mem_of_reachable hd' (h.found id hid)
  have hprune : prune seen' f' = f' := by
    have hblocks : (prune seen' f').blocks = f'.blocks := by
      rw [blocks_prune, List.filter_eq_self.2 fun b hb => by simpa using hall b hb]
      refine (List.map_congr_left (g := id) fun b hb => ?_).trans (List.map_id _)
      rw [h.eq] at hb
      obtain ⟨c, -, -, rfl⟩ := mem_prune.1 hb
      unfold refineBlock
      rw [refineInsts_refineInsts hsub]
      rfl
    calc prune seen' f' = { f' with blocks := (prune seen' f').blocks } := rfl
      _ = f' := by rw [hblocks]
  refine ⟨fuel, ?_⟩
  unfold eliminateFunc
  rw [hs]
  show Except.ok (some (prune seen' f', seen'.card != f'.blocks.length)) = _
  rw [hprune, hseen, List.toFinset_card_of_nodup hd', List.length_map]
  simp

/-- Two rounds, the second of which changes nothing. -/
theorem apply_two {prog' : Program} {changed : Bool}
    (h : eliminate fuel prog = .ok (some (prog', changed)))
    (hlast : eliminate fuel prog' = .ok (some (prog', false))) :
    apply fuel 2 prog = .ok (some (prog', changed)) := by
  simp only [apply]
  rw [h]
  show (if changed = true then _ else _) = _
  cases changed with
  | true =>
    rw [if_pos rfl, hlast]
    rfl
  | false => rfl

/-- The pass ends after at most two rounds, and a further round would change nothing. -/
theorem deadBlock_terminates (h : ∀ f ∈ prog.funcs, f.Wired) :
    ∃ fuel prog' changed, apply fuel 2 prog = .ok (some (prog', changed)) ∧
      eliminate fuel prog' = .ok (some (prog', false)) := by
  have hfirst : ∀ f ∈ prog.funcs, ∃ r : Func × Bool, (∃ fuel, eliminateFunc fuel f = .ok (some r)) ∧
      ∃ fuel, eliminateFunc fuel r.1 = .ok (some (r.1, false)) := by
    intro f hf
    obtain ⟨fuel, seen, hs⟩ := exists_reachable (h f hf)
    have hp := pruned_of_reachable hs
    refine ⟨(prune seen f, seen.card != f.blocks.length), ⟨fuel, ?_⟩, hp.stable (h f hf).distinct⟩
    unfold eliminateFunc
    rw [hs]
    rfl
  have hne : Nonempty (Func × Bool) := ⟨⟨"", .unit, [], [], [], [], 0, 0⟩, false⟩
  choose! g hg hstable using hfirst
  obtain ⟨k, hk⟩ := eliminateFuncs_total hg
  have hsecond : ∀ f ∈ prog.funcs.map fun f => (g f).1,
      ∃ fuel, eliminateFunc fuel f = .ok (some (f, false)) := by
    intro f' hf'
    obtain ⟨f, hf, rfl⟩ := List.mem_map.1 hf'
    exact hstable f hf
  obtain ⟨m, hm⟩ := eliminateFuncs_total (g := fun f => (f, false)) hsecond
  -- enough fuel for both rounds
  have h₁ := hk (max k m) (by omega)
  have h₂ := hm (max k m) (by omega)
  let prog' : Program := { prog with funcs := prog.funcs.map fun f => (g f).1 }
  let changed := prog.funcs.any fun f => (g f).2
  have hround : eliminate (max k m) prog = .ok (some (prog', changed)) := by
    unfold eliminate
    rw [h₁]
    rfl
  have hlast : eliminate (max k m) prog' = .ok (some (prog', false)) := by
    unfold eliminate
    rw [show eliminateFuncs (max k m) prog'.funcs = _ from h₂]
    simp [prog', List.map_map, Function.comp_def, pure, Except.pure, bind, Except.bind]
  exact ⟨max k m, prog', changed, apply_two hround hlast, hlast⟩

theorem deadBlock_terminates_deadSide :
    ∃ fuel prog' changed, apply fuel 2 deadSide = .ok (some (prog', changed)) ∧
      eliminate fuel prog' = .ok (some (prog', false)) := by
  refine deadBlock_terminates fun f hf => ?_
  cases List.mem_singleton.1 hf
  exact wired_of_blocks (by unfold Func.Distinct; decide) (by decide) (by decide)

end Termination

/-! ## Well-formed programs -/

section WellFormed

variable {env : Env} {prog prog' : Program} {f f' : Func} {seen : Finset BlockId} {id : BlockId}
  {b : Block} {k : Nat} {v : Var}

theorem get_of_refineInsts {insts : List Inst} {i : Inst} (h : (refineInsts seen insts)[k]? = some i)
    (hp : i.isPhi = false) : insts[k]? = some i := by
  rcases refineInsts_get seen insts k with heq | ⟨p, -, hi'⟩
  · exact heq.symm.trans h
  · rw [h] at hi'
    cases hi'
    cases hp

/-- An instruction of a refined block is one of the block, or a phi with fewer arguments. -/
theorem mem_refineInsts {insts : List Inst} {i : Inst} (h : i ∈ refineInsts seen insts) :
    i ∈ insts ∨ ∃ p, .phi p ∈ insts ∧ i = .phi (within seen p) := by
  obtain ⟨k, hk⟩ := List.mem_iff_getElem?.1 h
  rcases refineInsts_get seen insts k with heq | ⟨p, hi, hi'⟩
  · exact .inl (List.mem_of_getElem? (heq.symm.trans hk))
  · rw [hk] at hi'
    exact .inr ⟨p, List.mem_of_getElem? hi, Option.some.inj hi'⟩

theorem length_phis_refineBlock : (refineBlock seen b).phis.length = b.phis.length := by
  rw [phis_refineBlock, List.length_map]

theorem defsAt_refineBlock : (refineBlock seen b).defsAt k = b.defsAt k := by
  unfold Block.defsAt
  rw [length_phis_refineBlock]
  split
  · rw [phis_refineBlock, List.filterMap_map]
    rfl
  · split
    · rfl
    · show (((refineInsts seen b.insts)[k - 1]?.bind _).toList) = _
      rcases refineInsts_get seen b.insts (k - 1) with heq | ⟨p, hi, hi'⟩
      · rw [heq]
      · rw [hi, hi']
        rfl

theorem Pruned.edge (h : Pruned f f' seen) {p q : Point} (he : f'.Edge p q) : f.Edge p q := by
  cases he with
  | call hb hp =>
    rw [h.entrance] at hb
    obtain ⟨b, hc, rfl⟩ := Option.map_eq_some_iff.1 hb
    rw [phis_refineBlock, List.map_eq_nil_iff] at hp
    show f.Edge none (some (b.id, 0))
    exact .call hc hp
  | inst hb hi hp =>
    obtain ⟨-, b, hc, rfl⟩ := h.of_block? hb
    exact .inst hc (get_of_refineInsts hi hp) hp
  | jump hb ht hb' =>
    obtain ⟨-, b, hc, rfl⟩ := h.of_block? hb
    obtain ⟨-, b', hc', rfl⟩ := h.of_block? hb'
    rw [length_phis_refineBlock, length_insts_refineBlock]
    exact .jump hc ht hc'

theorem Pruned.defsAt (h : Pruned f f' seen) {p : Point} : f'.defsAt p v → f.defsAt p v := by
  cases p with
  | none => exact id
  | some p =>
    rintro ⟨b', hb', hv⟩
    obtain ⟨-, b, hc, rfl⟩ := h.of_block? hb'
    rw [defsAt_refineBlock] at hv
    exact ⟨b, hc, hv⟩

/-- A path of the pruned function is one of the whole function, with the same definitions. -/
theorem Pruned.misses (h : Pruned f f' seen) {p : Point} (hm : f'.graph.Misses v p) :
    f.graph.Misses v p := by
  induction hm with
  | entry => exact .entry
  | @step p q _ he hn ih =>
    refine ih.step (h.edge he) fun hd => hn ?_
    -- the point lies in a block that was kept
    obtain ⟨id, k, c, rfl, hc⟩ : ∃ id k c, q = some (id, k) ∧ f'.block? id = some c := by
      cases he with
      | call hb => exact ⟨_, _, _, rfl, Func.block?_entrance hb⟩
      | inst hb => exact ⟨_, _, _, rfl, hb⟩
      | jump _ _ hb' => exact ⟨_, _, _, rfl, hb'⟩
    obtain ⟨-, b, hb, rfl⟩ := h.of_block? hc
    obtain ⟨b₁, hb₁, hv⟩ := hd
    cases hb.symm.trans hb₁
    exact ⟨_, hc, by rw [defsAt_refineBlock]; exact hv⟩

theorem Pruned.graph_reach (h : Pruned f f' seen) {p : Point} (hr : f'.graph.Reach p) :
    f.graph.Reach p := by
  induction hr with
  | entry => exact .entry
  | step _ he ih => exact ih.step (h.edge he)

theorem Pruned.usedAt (h : Pruned f f' seen) {p : BlockId × Nat} {u : LeftValue}
    (hu : f'.UsedAt p u) : f.UsedAt p u := by
  cases hu with
  | inst hb hi hp hv =>
    obtain ⟨-, b, hc, rfl⟩ := h.of_block? hb
    exact .inst hc (get_of_refineInsts hi hp) hp hv
  | exit hb he hv =>
    obtain ⟨-, b, hc, rfl⟩ := h.of_block? hb
    rw [length_insts_refineBlock]
    exact .exit hc he hv
  | phi hb ht hb' hp hv =>
    obtain ⟨hid, b, hc, rfl⟩ := h.of_block? hb
    obtain ⟨-, b', hc', rfl⟩ := h.of_block? hb'
    rw [phis_refineBlock] at hp
    obtain ⟨p, hp', rfl⟩ := List.mem_map.1 hp
    rw [value_within hid] at hv
    rw [length_insts_refineBlock]
    exact .phi hc ht hc' hp' hv

theorem Pruned.mentions (h : Pruned f f' seen) {x : Value} (hx : f'.Mentions x) :
    f.Mentions x := by
  cases hx with
  | used hb hi hx =>
    obtain ⟨-, b, hc, rfl⟩ := h.of_block? hb
    rcases mem_refineInsts hi with hi | ⟨p, hp, rfl⟩
    · exact .used hc hi hx
    · obtain ⟨a, ha, rfl⟩ := List.mem_map.1 hx
      exact .used hc hp (List.mem_map.2 ⟨a, List.mem_of_mem_filter ha, rfl⟩)
  | result hb hi hv =>
    obtain ⟨-, b, hc, rfl⟩ := h.of_block? hb
    rcases mem_refineInsts hi with hi | ⟨p, hp, rfl⟩
    · exact .result hc hi hv
    · exact .result hc hp hv
  | exit hb he hx =>
    obtain ⟨-, b, hc, rfl⟩ := h.of_block? hb
    exact .exit hc he hx

theorem Pruned.ssa (h : Pruned f f' seen) (hs : f.Ssa) : f'.Ssa := by
  refine ⟨h.distinct hs.blocks, ?_, fun p u hu hd => ?_, fun id b t b' hb ht hb' hr p hp => ?_⟩
  · have hres : f'.results = (f.blocks.filter fun b => b.id ∈ seen).flatMap fun b =>
        b.insts.filterMap Inst.definedVar := by
      unfold Func.results
      rw [h.eq, blocks_prune, List.flatMap_map]
      refine List.flatMap_congr fun b _ => results_refineInsts b.insts
    rw [hres]
    refine hs.results.sublist (List.Sublist.map _ ?_)
    exact List.Sublist.flatMap List.filter_sublist _
  · obtain ⟨q, hq⟩ := hd
    have hready := hs.uses p u (h.usedAt hu) ⟨q, h.defsAt hq⟩
    exact fun hm => hready (h.misses hm)
  · obtain ⟨hid, b, hc, rfl⟩ := h.of_block? hb
    obtain ⟨-, b', hc', rfl⟩ := h.of_block? hb'
    rw [phis_refineBlock] at hp
    obtain ⟨p, hp', rfl⟩ := List.mem_map.1 hp
    rw [value_within hid]
    rw [length_insts_refineBlock] at hr
    exact hs.args id b t b' hc ht hc' (h.graph_reach hr) p hp'

theorem Pruned.wellTyped (h : Pruned f f' seen) (hg : prog'.globals = prog.globals)
    (ht : f.WellTyped env prog) : f'.WellTyped env prog' := by
  have hslot : f'.slotType = f.slotType := by
    rw [h.eq]
    rfl
  refine ht.of_fewer hslot hg (fun x => h.mentions) fun id b' i hb hi => ?_
  obtain ⟨-, b, hc, rfl⟩ := h.of_block? hb
  refine ⟨b, hc, (mem_refineInsts hi).imp (fun h => h) ?_⟩
  rintro ⟨p, hp, rfl⟩
  exact ⟨p, _, rfl, hp, fun a => List.mem_of_mem_filter⟩

/-- A program without its dead blocks is still well formed. -/
theorem PrunedProgram.wellFormed (h : PrunedProgram prog prog') (hwf : prog.WellFormed env) :
    prog'.WellFormed env := by
  have hfuncs : ∀ {β : Type} (g : Func → β), (∀ f seen, g (prune seen f) = g f) →
      prog'.funcs.map g = prog.funcs.map g := by
    intro β g hg
    have hall := h.funcs
    generalize prog.funcs = fs, prog'.funcs = fs' at hall
    induction hall with
    | nil => rfl
    | cons hp _ ih =>
      obtain ⟨seen, hp⟩ := hp
      rw [List.map_cons, List.map_cons, ih, hp.eq, hg]
  refine hwf.of_fewer h.globals (hfuncs Func.name fun _ _ => rfl)
    (hfuncs Func.allocs fun _ _ => rfl) fun f' hf' => ?_
  obtain ⟨f, hf, seen, hp⟩ := exists_of_mem_right h.funcs hf'
  exact ⟨hp.ssa (hwf.ssa f hf), hp.wellTyped h.globals (hwf.typed f hf)⟩

end WellFormed

end DeadBlockElimination
end Ir
end Cact
