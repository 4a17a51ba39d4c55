import Cact.Ir.Moves

/-!
# Runs of well-formed programs

What holds of the slots of a frame at the points of a function, and is kept by its moves,
holds of every frame in every run. A program that differs in its instructions only, and
whose instructions do the same in the states of such a run, has the same run.

- `Flow`: an invariant of the moves, along the jumps that are allowed.
- `RunInv.exec`: the invariant of a run.
- `Program.Alike`: programs of one outline.
- `obsEq_of_alike`: two such programs run in lock-step.
- `obsEq_of_stands`: so do programs that do the same wherever paths lead to.
-/

namespace Cact

namespace Ir

namespace Vm

/-! ## Invariants of runs -/

section Invariant

variable {env : Env} (prog : Program) (good : String → BlockId → BlockId → Prop)
  (K : Func → BlockId × Nat → Scope → Prop) (G : Slots)

/-- The move may be one between blocks only if the jump is good. -/
def Allowed (f : Func) (p q : BlockId × Nat) : Prop :=
  ∀ b, f.block? p.1 = some b → p.2 = b.insts.length → good f.name p.1 q.1

/-- `K` holds of the slots at the entry of every function, and good moves keep it. -/
structure Flow (env : Env) : Prop where
  globals : G.Typed prog.slotType
  entry : ∀ f ∈ prog.funcs, ∀ b, f.entrance = some b → b.phis = [] → ∀ sc : Scope,
    sc.Typed prog f → sc.globals = G → K f (b.id, 0) sc
  move : ∀ f ∈ prog.funcs, ∀ p q sc sc', f.graph.Reach (some p) → sc.Typed prog f →
    sc.globals = G → K f p sc → Moves env f p sc q sc' → Allowed good f p q → K f q sc'

/-- Every frame stands at a point of its function, and `K` holds there. -/
structure RunInv (s : State env) : Prop where
  globals : s.globals = G
  frames : ∀ fr ∈ s.frames, ∃ f, prog.findFunc fr.func = some f ∧
    f.graph.Reach (some (fr.block, fr.idx)) ∧ (s.scope fr).Typed prog f ∧
    K f (fr.block, fr.idx) (s.scope fr)

/-- If the step is one from block to block, then along a good jump. -/
def JumpsWell (s t : State env) : Prop :=
  ∀ fr fr' rest f b, s.frames = fr :: rest → t.frames = fr' :: rest →
    prog.findFunc fr.func = some f → f.block? fr.block = some b → fr.idx = b.insts.length →
    good fr.func fr.block fr'.block

variable {prog good K G}

theorem scope_eq {s t : State env} (h : t.globals = s.globals) (fr : Frame) :
    t.scope fr = s.scope fr := by
  unfold State.scope
  rw [h]

/-- The invariant after a frame has moved, with frames below it that have not. -/
theorem RunInv.of_move {s t : State env} (hwf : prog.WellFormed env) (hK : Flow prog good K G env)
    (h : RunInv prog K G s) {fr : Frame} {rest : List Frame} (hfr : fr ∈ s.frames)
    (hrest : ∀ fr ∈ rest, fr ∈ s.frames) {f : Func} {q : BlockId × Nat} {sc : Scope}
    (hf : prog.findFunc fr.func = some f) (hm : Moves env f (fr.block, fr.idx) (s.scope fr) q sc)
    (ha : Allowed good f (fr.block, fr.idx) q)
    (ht : t.frames = { fr with block := q.1, idx := q.2, vars := sc.vars } :: rest)
    (hg : t.globals = sc.globals) : RunInv prog K G t := by
  obtain ⟨f', hf', hr, hty, hk⟩ := h.frames fr hfr
  cases hf.symm.trans hf'
  have hmem := Program.mem_of_findFunc hf
  obtain ⟨hty', hsg⟩ := hm.typed (hwf.typed f hmem) (hwf.ssa f hmem) hty
  have hGs : sc.globals = s.globals := hsg
  refine ⟨hg.trans (hGs.trans h.globals), ?_⟩
  intro fr' hfr'
  rw [ht] at hfr'
  rcases List.mem_cons.1 hfr' with rfl | hfr'
  · have hsc : t.scope { fr with block := q.1, idx := q.2, vars := sc.vars } = sc := by
      unfold State.scope
      rw [hg]
    rw [hsc]
    exact ⟨f, hf, hr.step hm.edge, hty', hK.move f hmem _ _ _ _ hr hty h.globals hk hm ha⟩
  · rw [scope_eq (hg.trans hGs)]
    exact h.frames fr' (hrest fr' hfr')

theorem RunInv.step {s t : State env} (hwf : prog.WellFormed env) (hK : Flow prog good K G env)
    (h : RunInv prog K G s) (hj : JumpsWell prog good s t) (he : ExecStep prog s t) :
    RunInv prog K G t := by
  cases he with
  | @move fr rest f q sc hs hf hm ht hg =>
    refine h.of_move hwf hK (by simp [hs]) (fun x hx => by simp [hs, hx]) hf hm ?_ ht hg
    intro b hb hk
    rw [findFunc_name hf]
    exact hj fr _ rest f b hs ht hf hb hk
  | @call f b l args hf hb hp hl ht hg =>
    have hmem := Program.mem_of_findFunc hf
    refine ⟨hg.trans h.globals, ?_⟩
    intro fr' hfr'
    rw [scope_eq hg]
    rw [ht] at hfr'
    rcases List.mem_cons.1 hfr' with rfl | hfr'
    · have hty : (s.scope ⟨f.name, b.id, 0, l.vars, s.top⟩).Typed prog f :=
        ⟨typed_layoutFunc (hwf.allocs_nodup hmem) hl, by
          show s.globals.Typed prog.slotType
          rw [h.globals]
          exact hK.globals⟩
      have hreach : f.graph.Reach (some (b.id, 0)) := by
        exact .step .entry (.call hb hp)
      exact ⟨f, hf, hreach, hty, hK.entry f hmem b hb hp _ hty h.globals⟩
    · exact h.frames fr' hfr'
  | @ret fr caller rest f b q sc hs hf hb hlt hm ht hg =>
    refine h.of_move hwf hK (by simp [hs]) (fun x hx => by simp [hs, hx]) hf hm ?_ ht hg
    intro b' hb' hk
    cases hb.symm.trans hb'
    omega
  | finish ht hg => exact ⟨hg.trans h.globals, by simp [ht]⟩

/-- A step of a run keeps the invariant. -/
theorem RunInv.exec {s t : State env} (hwf : prog.WellFormed env) (hK : Flow prog good K G env)
    (h : RunInv prog K G s) (hj : JumpsWell prog good s t) (he : exec prog s = .ok t) :
    RunInv prog K G t := by
  refine h.step hwf hK hj (exec_cases (fun fr hfr => ?_) he)
  obtain ⟨f, hf, hr, -⟩ := h.frames fr hfr
  exact ⟨f, hf, hr⟩

/-- The globals of a run are those laid out at its start. -/
theorem typed_layoutGlobals {l : Layout} (hwf : prog.WellFormed env)
    (h : layoutGlobals env.float prog.globals = .ok l) : l.vars.Typed prog.slotType := by
  have hty := typed_allocs typed_none (by simpa using hwf.globals_nodup) h
  intro k
  cases k with
  | named d => cases d <;> exact hty _
  | _ => exact hty _

/-- A run starts in the invariant. -/
theorem RunInv.start {s : State env} {input : env.Input} {l : Layout}
    (hwf : prog.WellFormed env) (hl : layoutGlobals env.float prog.globals = .ok l)
    (hK : Flow prog good K l.vars env) (h : start prog input = .ok s) :
    RunInv prog K l.vars s := by
  obtain ⟨l', hl', h⟩ := Except.bind_eq_ok.1 h
  cases hl.symm.trans hl'
  obtain ⟨f, hf, h⟩ := Except.bind_eq_ok.1 h
  refine RunInv.step hwf hK ⟨rfl, ?_⟩ ?_ (enterFunc_call (deref_eq_ok.1 hf) h)
  · rintro fr ⟨⟩
  · rintro fr fr' rest f b ⟨⟩

end Invariant

/-! ## Programs of one outline -/

end Vm

/-- Blocks with as many phis and as many instructions, and the same calls. -/
structure Block.Alike (b b' : Block) : Prop where
  id : b'.id = b.id
  phis : b'.phis.length = b.phis.length
  length : b'.insts.length = b.insts.length
  calls : ∀ k : Nat, (b'.insts[k]?).bind Vm.callResult = (b.insts[k]?).bind Vm.callResult
  exit : b'.exit.isSome = b.exit.isSome

/-- Functions with the same variables. -/
structure Func.Alike (f f' : Func) : Prop where
  name : f'.name = f.name
  params : f'.params = f.params
  locals : f'.locals = f.locals
  temps : f'.temps = f.temps
  blocks : List.Forall₂ Block.Alike f.blocks f'.blocks

/-- Programs that differ in their instructions and exits only. -/
structure Program.Alike (p p' : Program) : Prop where
  globals : p'.globals = p.globals
  funcs : List.Forall₂ Func.Alike p.funcs p'.funcs

theorem find?_rel {α : Type} {R : α → α → Prop} {p : α → Bool} {l l' : List α}
    (h : List.Forall₂ R l l') (hp : ∀ a b, R a b → p b = p a) :
    Option.Rel R (l.find? p) (l'.find? p) := by
  induction h with
  | nil => exact .none
  | @cons a b l l' hab _ ih =>
    rw [List.find?_cons, List.find?_cons, hp a b hab]
    cases p a with
    | true => exact .some hab
    | false => exact ih

theorem exists_of_mem_right {α : Type} {R : α → α → Prop} {l l' : List α} {b : α}
    (h : List.Forall₂ R l l') (hb : b ∈ l') : ∃ a ∈ l, R a b := by
  induction h with
  | nil => cases hb
  | @cons a c l l' hac _ ih =>
    rcases List.mem_cons.1 hb with rfl | hb
    · exact ⟨a, by simp, hac⟩
    · obtain ⟨a', ha', h⟩ := ih hb
      exact ⟨a', by simp [ha'], h⟩

theorem Func.Alike.block? {f f' : Func} (h : f.Alike f') (id : BlockId) :
    Option.Rel Block.Alike (f.block? id) (f'.block? id) :=
  find?_rel h.blocks fun b b' hb => by rw [hb.id]

theorem Func.Alike.entrance {f f' : Func} (h : f.Alike f') :
    Option.Rel Block.Alike f.entrance f'.entrance := by
  have hblocks := h.blocks
  unfold Func.entrance
  generalize f.blocks = l, f'.blocks = l' at hblocks
  cases hblocks with
  | nil => exact .none
  | cons hb _ => exact .some hb

theorem Program.Alike.findFunc {p p' : Program} (h : p.Alike p') (name : String) :
    Option.Rel Func.Alike (p.findFunc name) (p'.findFunc name) :=
  find?_rel h.funcs fun f f' hf => by rw [hf.name]

namespace Vm

section Alike

variable {env : Env} {prog prog' : Program} {s : State env} {fr : Frame} {rest : List Frame}

theorem layoutFunc_alike {f f' : Func} (h : f.Alike f') (float : Floats) (mem : Memory)
    (top : Nat) (args : List View) :
    layoutFunc float mem top f' args = layoutFunc float mem top f args := by
  unfold layoutFunc frameSize
  rw [h.params, h.locals, h.temps]

/-- The block a frame goes to, in both programs. -/
theorem blockAt_alike (h : prog.Alike prog') (fr : Frame) (t : BlockId) :
    (∃ e, blockAt prog fr t = .error e ∧ blockAt prog' fr t = .error e) ∨
      ∃ f f' b b', prog.findFunc fr.func = some f ∧ prog'.findFunc fr.func = some f' ∧
        f.block? t = some b ∧ f'.block? t = some b' ∧ f.Alike f' ∧ b.Alike b' ∧
        blockAt prog fr t = .ok b ∧ blockAt prog' fr t = .ok b' := by
  unfold blockAt
  have hfind := h.findFunc fr.func
  cases hf : prog.findFunc fr.func with
  | none =>
    rw [hf] at hfind
    generalize prog'.findFunc fr.func = o at hfind
    cases hfind
    exact .inl ⟨_, rfl, rfl⟩
  | some f =>
    rw [hf] at hfind
    generalize hf' : prog'.findFunc fr.func = o at hfind
    cases hfind with
    | @some _ f' hff =>
      show (∃ e, deref (f.block? t) = .error e ∧ deref (f'.block? t) = .error e) ∨ ∃ _ _ _ _, _
      have hblock := hff.block? t
      cases hb : f.block? t with
      | none =>
        rw [hb] at hblock
        generalize hb' : f'.block? t = o at hblock
        cases hblock
        exact .inl ⟨_, rfl, rfl⟩
      | some b =>
        rw [hb] at hblock
        generalize hb' : f'.block? t = o at hblock
        cases hblock with
        | some hbb =>
          refine .inr ⟨f, f', b, _, rfl, rfl, hb, hb', hff, hbb, ?_, ?_⟩
          · exact congrArg deref hb
          · exact congrArg deref hb'

/-- Both programs enter a block alike, when its phis do the same. -/
theorem enterBlock_alike (h : prog.Alike prog') {prev : Option BlockId} {t : BlockId}
    (hphis : ∀ f f' b b', prog.findFunc fr.func = some f → prog'.findFunc fr.func = some f' →
      f.block? t = some b → f'.block? t = some b' → b.Alike b' →
      runPhis env (s.scope fr) prev b'.phis = runPhis env (s.scope fr) prev b.phis) :
    enterBlock prog' s fr rest prev t = enterBlock prog s fr rest prev t := by
  unfold enterBlock
  rcases blockAt_alike h fr t with ⟨e, he, he'⟩ | ⟨f, f', b, b', hf, hf', hb, hb', -, hbb, ho, ho'⟩
  · rw [he, he']
  · rw [ho, ho']
    show (runPhis env _ prev b'.phis >>= _) = (runPhis env _ prev b.phis >>= _)
    rw [hphis f f' b b' hf hf' hb hb' hbb, hbb.phis]

theorem enterFunc_alike (h : prog.Alike prog') {f f' : Func} (hff : f.Alike f')
    (args : List View) : enterFunc prog' s f' args = enterFunc prog s f args := by
  unfold enterFunc
  rw [layoutFunc_alike hff]
  refine bind_congr fun l => ?_
  have hentr := hff.entrance
  generalize f.entrance = o, f'.entrance = o' at hentr
  cases hentr with
  | none => rfl
  | @some b b' hbb =>
    show enterBlock prog' _ _ _ _ b'.id = enterBlock prog _ _ _ _ b.id
    rw [hbb.id, hff.name]
    refine enterBlock_alike h fun _ _ c c' _ _ _ _ hcc => ?_
    have hempty : c'.phis.isEmpty = c.phis.isEmpty := by
      rw [Bool.eq_iff_iff, List.isEmpty_iff_length_eq_zero, List.isEmpty_iff_length_eq_zero, hcc.phis]
    unfold runPhis
    dsimp only
    rw [hempty]

theorem execInst_alike (h : prog.Alike prog') (i : Inst) :
    execInst prog' s fr rest i = execInst prog s fr rest i := by
  cases i with
  | call c =>
    show (_ >>= fun _ => _ >>= fun _ => _) = (_ >>= fun _ => _ >>= fun _ => _)
    refine bind_congr fun dest => bind_congr fun args => ?_
    cases c.func.defn with
    | func name =>
      have hfind := h.findFunc name
      dsimp only
      generalize prog.findFunc name = o, prog'.findFunc name = o' at hfind
      cases hfind with
      | none => rfl
      | some hff => exact enterFunc_alike h hff args
    | _ => rfl
  | _ => rfl

theorem execReturn_alike (h : prog.Alike prog') (v : View) :
    execReturn prog' s fr rest v = execReturn prog s fr rest v := by
  cases rest with
  | nil => rfl
  | cons caller rest =>
    unfold execReturn
    dsimp only
    rcases blockAt_alike h caller caller.block with
      ⟨e, he, he'⟩ | ⟨f, f', b, b', -, -, -, -, -, hbb, ho, ho'⟩
    · rw [he, he']
    · rw [ho, ho']
      show (deref ((b'.insts[caller.idx]?).bind callResult) >>= _) =
        (deref ((b.insts[caller.idx]?).bind callResult) >>= _)
      rw [hbb.calls]

/-- An exit does the same in both programs, when the phis of its targets do. -/
theorem execExit_alike (h : prog.Alike prog') {e : Exit}
    (hphis : ∀ t ∈ e.targets, ∀ f f' b b', prog.findFunc fr.func = some f →
      prog'.findFunc fr.func = some f' → f.block? t = some b → f'.block? t = some b' →
      runPhis env (s.scope fr) (some fr.block) b'.phis =
        runPhis env (s.scope fr) (some fr.block) b.phis) :
    execExit prog' s fr rest e = execExit prog s fr rest e := by
  have henter : ∀ t ∈ e.targets, enterBlock prog' s fr rest (some fr.block) t =
      enterBlock prog s fr rest (some fr.block) t := fun t ht =>
    enterBlock_alike h fun f f' b b' hf hf' hb hb' _ => hphis t ht f f' b b' hf hf' hb hb'
  cases e with
  | jump t => exact henter t (by simp [Exit.targets])
  | branch cond t t' =>
    refine bind_congr fun v => bind_congr fun c => henter _ ?_
    cases c <;> simp [Exit.targets]
  | ret exp => exact bind_congr fun v => execReturn_alike h v

/-- Two programs of one outline take the same step, when the next instruction or exit does
the same in both. -/
theorem exec_alike (h : prog.Alike prog') (hs : s.frames = fr :: rest) {f f' : Func}
    {b b' : Block} (hf : prog.findFunc fr.func = some f) (hf' : prog'.findFunc fr.func = some f')
    (hb : f.block? fr.block = some b) (hb' : f'.block? fr.block = some b')
    (hinst : ∀ i i', b.insts[fr.idx]? = some i → b'.insts[fr.idx]? = some i' →
      execInst prog s fr rest i' = execInst prog s fr rest i)
    (hexit : ∀ e e', b.insts.length ≤ fr.idx → b.exit = some e → b'.exit = some e' →
      execExit prog s fr rest e' = execExit prog s fr rest e ∧
      ∀ t ∈ e'.targets, ∀ c c', f.block? t = some c → f'.block? t = some c' →
        runPhis env (s.scope fr) (some fr.block) c'.phis =
          runPhis env (s.scope fr) (some fr.block) c.phis) :
    exec prog' s = exec prog s := by
  unfold exec
  rw [hs]
  dsimp only
  rcases blockAt_alike h fr fr.block with
    ⟨e, he, he'⟩ | ⟨g, g', c, c', hg, hg', hc, hc', -, hcc, ho, ho'⟩
  · rw [he, he']
    rfl
  · cases hf.symm.trans hg
    cases hf'.symm.trans hg'
    cases hb.symm.trans hc
    cases hb'.symm.trans hc'
    rw [ho, ho']
    show execAt prog' s fr rest b' = execAt prog s fr rest b
    unfold execAt
    cases hi : b.insts[fr.idx]? with
    | some i =>
      have hlt := (List.getElem?_eq_some_iff.1 hi).1
      have hi' := List.getElem?_eq_getElem (l := b'.insts) (hcc.length.symm ▸ hlt)
      rw [hi']
      exact (execInst_alike h _).trans (hinst _ _ hi hi')
    | none =>
      have hle := List.getElem?_eq_none_iff.1 hi
      rw [List.getElem?_eq_none_iff.2 (hcc.length.symm ▸ hle)]
      have hsome := hcc.exit
      cases he : b.exit with
      | none =>
        rw [he, Option.isSome_none, Option.isSome_eq_false_iff, Option.isNone_iff_eq_none] at hsome
        rw [hsome]
        rfl
      | some e =>
        rw [he, Option.isSome_some, Option.isSome_iff_exists] at hsome
        obtain ⟨e', he'⟩ := hsome
        obtain ⟨heq, hphis⟩ := hexit e e' hle he he'
        rw [he']
        refine (execExit_alike h fun t ht g g' d d' hg hg' hd hd' => ?_).trans heq
        cases hf.symm.trans hg
        cases hf'.symm.trans hg'
        exact hphis t ht d d' hd hd'

theorem initial_alike (h : prog.Alike prog') (input : env.Input) :
    initial prog' input = initial prog input := by
  have hstart : start prog' input = start prog input := by
    unfold start
    rw [h.globals]
    refine bind_congr fun l => ?_
    have hfind := h.findFunc "main"
    generalize prog.findFunc "main" = o, prog'.findFunc "main" = o' at hfind
    cases hfind with
    | none => rfl
    | some hff => exact enterFunc_alike h hff []
  unfold initial
  rw [hstart]

theorem step_of_ok {s t : State env} (hlive : ¬s.result.isSome) (he : exec prog s = .ok t) :
    (machine env prog).step s = some t := by
  show step prog s = some t
  rw [step, if_neg hlive, he]

theorem step_of_error {s : State env} {e : Fault} (hlive : ¬s.result.isSome)
    (he : exec prog s = .error e) : (machine env prog).step s = some s.fail := by
  show step prog s = some s.fail
  rw [step, if_neg hlive, he]

/-- Two programs of one outline run in lock-step, when every step of the run does the same
in both. -/
theorem obsEq_of_alike {good : String → BlockId → BlockId → Prop}
    {K : Func → BlockId × Nat → Scope → Prop} {Clean : State env → Prop}
    (hwf : prog.WellFormed env) (h : prog.Alike prog')
    (hK : ∀ l, layoutGlobals env.float prog.globals = .ok l → Flow prog good K l.vars env)
    (hgood : ∀ s t, Clean s → exec prog s = .ok t → JumpsWell prog good s t)
    (hexec : ∀ l s, layoutGlobals env.float prog.globals = .ok l → RunInv prog K l.vars s →
      Clean s → exec prog' s = exec prog s)
    {input : env.Input}
    (hclean : ∀ s, (machine env prog).Reaches (initial prog input) s → Clean s) :
    (machine env prog).ObsEq (initial prog input) (machine env prog') (initial prog' input) := by
  let R : State env → State env → Prop := fun s s' => s' = s ∧
    (machine env prog).Reaches (initial prog input) s ∧ (s.result = none →
      ∃ l, layoutGlobals env.float prog.globals = .ok l ∧ RunInv prog K l.vars s)
  have hsim : DetMachine.Simulation (machine env prog) (machine env prog') R fun _ _ => 0 := by
    refine ⟨?_, ?_⟩
    · rintro _ s ⟨rfl, -, -⟩
      rfl
    · rintro _ s ⟨rfl, hr, hinv⟩
      cases hres : s.result with
      | some v =>
        have hstop : ∀ p : Program, (machine env p).step s = none := fun p =>
          if_pos (by rw [hres]; rfl)
        exact .halt (hstop prog) (hstop prog') rfl
      | none =>
        obtain ⟨l, hl, hi⟩ := hinv hres
        have hlive : ¬s.result.isSome := by rw [hres]; simp
        have heq := hexec l s hl hi (hclean s hr)
        cases he : exec prog s with
        | ok t =>
          have ht := step_of_ok hlive he
          have ht' := step_of_ok hlive (heq.trans he)
          refine .both t t (DetMachine.reachesPlus_of_step ht)
            (DetMachine.reachesPlus_of_step ht') ⟨rfl, hr.tail ht, fun _ => ⟨l, hl, ?_⟩⟩
          exact hi.exec hwf (hK l hl) (hgood s t (hclean s hr) he) he
        | error e =>
          have ht := step_of_error hlive he
          have ht' := step_of_error hlive (heq.trans he)
          refine .both s.fail s.fail (DetMachine.reachesPlus_of_step ht)
            (DetMachine.reachesPlus_of_step ht') ⟨rfl, hr.tail ht, ?_⟩
          rintro ⟨⟩
  refine hsim.obsEq ⟨initial_alike h input, .refl, fun hres => ?_⟩
  unfold initial at hres ⊢
  cases hs : start prog input with
  | error e =>
    rw [hs] at hres
    cases hres
  | ok s =>
    obtain ⟨l, hl, -⟩ := Except.bind_eq_ok.1 hs
    exact ⟨l, hl, RunInv.start hwf hl (hK l hl) hs⟩

end Alike

/-! ## Runs in lock-step -/

section Lockstep

variable {env : Env} {prog prog' : Program} {s t : State env}

/-- Two programs run in lock-step, when they do the same in the states of an invariant. -/
theorem obsEq_of_exec {input : env.Input} {I : State env → Prop}
    (hinit : initial prog' input = initial prog input)
    (hstart : ∀ s, start prog input = .ok s → I s)
    (hkeep : ∀ s t, I s → exec prog s = .ok t → I t)
    (hexec : ∀ s, I s → exec prog' s = exec prog s) :
    (machine env prog).ObsEq (initial prog input) (machine env prog') (initial prog' input) := by
  let R : State env → State env → Prop := fun s s' => s' = s ∧ (s.result = none → I s)
  have hsim : DetMachine.Simulation (machine env prog) (machine env prog') R fun _ _ => 0 := by
    refine ⟨?_, ?_⟩
    · rintro _ s ⟨rfl, -⟩
      rfl
    · rintro _ s ⟨rfl, hinv⟩
      cases hres : s.result with
      | some v =>
        have hstop : ∀ p : Program, (machine env p).step s = none := fun p =>
          if_pos (by rw [hres]; rfl)
        exact .halt (hstop prog) (hstop prog') rfl
      | none =>
        have hlive : ¬s.result.isSome := by rw [hres]; simp
        have heq := hexec s (hinv hres)
        cases he : exec prog s with
        | ok t =>
          have ht := step_of_ok hlive he
          have ht' := step_of_ok hlive (heq.trans he)
          exact .both t t (DetMachine.reachesPlus_of_step ht)
            (DetMachine.reachesPlus_of_step ht') ⟨rfl, fun _ => hkeep s t (hinv hres) he⟩
        | error e =>
          have ht := step_of_error hlive he
          have ht' := step_of_error hlive (heq.trans he)
          refine .both s.fail s.fail (DetMachine.reachesPlus_of_step ht)
            (DetMachine.reachesPlus_of_step ht') ⟨rfl, ?_⟩
          rintro ⟨⟩
  refine hsim.obsEq ⟨hinit, fun hres => ?_⟩
  unfold initial at hres ⊢
  cases hs : start prog input with
  | error e =>
    rw [hs] at hres
    cases hres
  | ok s => exact hstart s hs

/-- Every frame stands where a path of its function leads to. -/
def Stands (prog : Program) (s : State env) : Prop :=
  ∀ fr ∈ s.frames, ∃ f, prog.findFunc fr.func = some f ∧
    f.graph.Reach (some (fr.block, fr.idx))

theorem Stands.step (h : Stands prog s) (he : ExecStep prog s t) : Stands prog t := by
  -- a frame that moves goes along an edge, and the frames below it are as before
  have hmove : ∀ {fr : Frame} {f : Func} {q : BlockId × Nat} {sc : Scope} {rest : List Frame},
      fr ∈ s.frames → (∀ fr' ∈ rest, fr' ∈ s.frames) → prog.findFunc fr.func = some f →
      Moves env f (fr.block, fr.idx) (s.scope fr) q sc →
      t.frames = { fr with block := q.1, idx := q.2, vars := sc.vars } :: rest →
      Stands prog t := by
    intro fr f q sc rest hfr hrest hf hm ht fr' hfr'
    rw [ht] at hfr'
    rcases List.mem_cons.1 hfr' with rfl | hfr'
    · obtain ⟨f', hf', hr⟩ := h fr hfr
      cases hf.symm.trans hf'
      exact ⟨f, hf, hr.step hm.edge⟩
    · exact h fr' (hrest fr' hfr')
  cases he with
  | move hs hf hm ht _ => exact hmove (by simp [hs]) (fun x hx => by simp [hs, hx]) hf hm ht
  | call hf hb hp _ ht _ =>
    intro fr hfr
    rw [ht] at hfr
    rcases List.mem_cons.1 hfr with rfl | hfr
    · exact ⟨_, hf, .step .entry (.call hb hp)⟩
    · exact h fr hfr
  | ret hs hf _ _ hm ht _ => exact hmove (by simp [hs]) (fun x hx => by simp [hs, hx]) hf hm ht
  | finish ht _ =>
    intro fr hfr
    rw [ht] at hfr
    cases hfr

theorem Stands.exec (h : Stands prog s) (he : exec prog s = .ok t) : Stands prog t :=
  h.step (exec_cases h he)

theorem Stands.start {input : env.Input} (h : start prog input = .ok s) : Stands prog s := by
  obtain ⟨l, -, h⟩ := Except.bind_eq_ok.1 h
  obtain ⟨f, hf, h⟩ := Except.bind_eq_ok.1 h
  refine Stands.step (fun fr hfr => ?_) (enterFunc_call (deref_eq_ok.1 hf) h)
  cases hfr

/-- It is enough to look at the points that paths lead to. -/
theorem obsEq_of_stands {input : env.Input}
    (hinit : initial prog' input = initial prog input)
    (hexec : ∀ s : State env, Stands prog s → exec prog' s = exec prog s) :
    (machine env prog).ObsEq (initial prog input) (machine env prog') (initial prog' input) :=
  obsEq_of_exec hinit (fun _ => Stands.start) (fun _ _ => Stands.exec) hexec

end Lockstep

end Vm
end Ir
end Cact
