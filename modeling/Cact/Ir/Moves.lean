import Cact.Ir.Scopes

/-!
# What a step does to the frames

Every step of the machine moves the running frame to the next point of its function,
calls, returns to the frame below, or ends the run. What holds of the point and the
slots of a frame, and is kept by its moves, therefore holds of every frame in a run.

- `Moves`: one step of a frame, with the slots before and after it.
- `exec_cases`: the four kinds of steps.
- `Moves.of_end`, `Moves.of_unary`, `Moves.of_binary`: the moves from a given point.
- `Moves.updates`: a move writes what is defined at the point it leads to.
- `Moves.typed`, `Moves.same`: so the slots keep their types, and all others their words.
-/

namespace Cact

namespace Ir

namespace Vm

/-- A frame of `f` moves from one point and its slots to the next. What a call writes to
its result is not known here, except that it is of the result's type. -/
inductive Moves (env : Env) (f : Func) : BlockId × Nat → Scope → BlockId × Nat → Scope → Prop
  | unary {id : BlockId} {b : Block} {k : Nat} {u : UnaryInst} {sc : Scope} {s : State env}
      {w : Word} (hb : f.block? id = some b) (hi : b.insts[k]? = some (.unary u))
      (hw : execUnary s sc u = .ok w) :
      Moves env f (id, k) sc (id, k + 1) (setVar env sc u.result w)
  | binary {id : BlockId} {b : Block} {k : Nat} {i : BinaryInst} {sc : Scope} {s : State env}
      {lhs rhs : View} {dest : Ty} {w : Word} (hb : f.block? id = some b)
      (hi : b.insts[k]? = some (.binary i)) (hop : i.op ≠ .store)
      (hl : viewOf env sc i.lhs = .ok lhs) (hr : viewOf env sc i.rhs = .ok rhs)
      (hd : resultType env sc i.result = .ok dest) (hw : evalInst s i.op dest lhs rhs = .ok w) :
      Moves env f (id, k) sc (id, k + 1) (setVar env sc i.result w)
  | store {id : BlockId} {b : Block} {k : Nat} {i : BinaryInst} {sc : Scope}
      (hb : f.block? id = some b) (hi : b.insts[k]? = some (.binary i)) (hop : i.op = .store) :
      Moves env f (id, k) sc (id, k + 1) sc
  | call {id : BlockId} {b : Block} {k : Nat} {c : CallInst} {sc : Scope} {dest : Ty}
      {w : Option Word} (hb : f.block? id = some b) (hi : b.insts[k]? = some (.call c))
      (hd : resultType env sc c.result = .ok dest) (hw : ∀ x, w = some x → fitTy dest x = x) :
      Moves env f (id, k) sc (id, k + 1) (w.elim sc (setVar env sc c.result))
  | jump {id t : BlockId} {b b' : Block} {sc sc' : Scope} (hb : f.block? id = some b)
      (ht : t ∈ b.targets) (hb' : f.block? t = some b')
      (hr : runPhis env sc (some id) b'.phis = .ok sc') :
      Moves env f (id, b.insts.length) sc (t, b'.phis.length) sc'

theorem Moves.edge {env : Env} {f : Func} {p q : BlockId × Nat} {sc sc' : Scope}
    (h : Moves env f p sc q sc') : f.Edge (some p) (some q) := by
  cases h with
  | jump hb ht hb' _ => exact .jump hb ht hb'
  | _ hb hi => exact .inst hb hi rfl

/-! ## What moves from a point -/

section From

variable {env : Env} {f : Func} {id : BlockId} {k : Nat} {b : Block} {q : BlockId × Nat}
  {sc sc' : Scope}

/-- From the end of a block a frame moves along a jump. -/
theorem Moves.of_end (h : Moves env f (id, b.insts.length) sc q sc') (hb : f.block? id = some b) :
    ∃ t b', t ∈ b.targets ∧ f.block? t = some b' ∧ q = (t, b'.phis.length) ∧
      runPhis env sc (some id) b'.phis = .ok sc' := by
  generalize hk : b.insts.length = k at h
  have hend : ∀ {b' : Block} {i : Inst}, f.block? id = some b' → b'.insts[k]? ≠ some i := by
    intro b' i hb' hi
    cases hb.symm.trans hb'
    rw [← hk, List.getElem?_eq_none (Nat.le_refl _)] at hi
    cases hi
  cases h with
  | jump hb' ht hb'' hr =>
    cases hb.symm.trans hb'
    exact ⟨_, _, ht, hb'', rfl, hr⟩
  | unary hb' hi => exact absurd hi (hend hb')
  | binary hb' hi => exact absurd hi (hend hb')
  | store hb' hi => exact absurd hi (hend hb')
  | call hb' hi => exact absurd hi (hend hb')

/-- From an instruction a frame moves behind it. -/
theorem Moves.of_unary {u : UnaryInst} (h : Moves env f (id, k) sc q sc')
    (hb : f.block? id = some b) (hi : b.insts[k]? = some (.unary u)) :
    ∃ (s : State env) (w : Word), execUnary s sc u = .ok w ∧ q = (id, k + 1) ∧
      sc' = setVar env sc u.result w := by
  have hget : ∀ {b' : Block} {i : Inst}, f.block? id = some b' → b'.insts[k]? = some i →
      i = .unary u := by
    intro b' i hb' hi'
    cases hb.symm.trans hb'
    rw [hi] at hi'
    exact (Option.some.inj hi').symm
  cases h with
  | unary hb' hi' hw =>
    cases hget hb' hi'
    exact ⟨_, _, hw, rfl, rfl⟩
  | binary hb' hi' => cases hget hb' hi'
  | store hb' hi' => cases hget hb' hi'
  | call hb' hi' => cases hget hb' hi'
  | jump hb' =>
    cases hb.symm.trans hb'
    rw [List.getElem?_eq_none (Nat.le_refl _)] at hi
    cases hi

theorem Moves.of_binary {i : BinaryInst} (h : Moves env f (id, k) sc q sc')
    (hb : f.block? id = some b) (hi : b.insts[k]? = some (.binary i)) (hop : i.op ≠ .store) :
    ∃ (s : State env) (lhs rhs : View) (dest : Ty) (w : Word), viewOf env sc i.lhs = .ok lhs ∧
      viewOf env sc i.rhs = .ok rhs ∧ resultType env sc i.result = .ok dest ∧
      evalInst s i.op dest lhs rhs = .ok w ∧ q = (id, k + 1) ∧ sc' = setVar env sc i.result w := by
  have hget : ∀ {b' : Block} {j : Inst}, f.block? id = some b' → b'.insts[k]? = some j →
      j = .binary i := by
    intro b' j hb' hj
    cases hb.symm.trans hb'
    rw [hi] at hj
    exact (Option.some.inj hj).symm
  cases h with
  | binary hb' hi' _ hl hr hd hw =>
    cases hget hb' hi'
    exact ⟨_, _, _, _, _, hl, hr, hd, hw, rfl, rfl⟩
  | store hb' hi' hs =>
    cases hget hb' hi'
    exact absurd hs hop
  | unary hb' hi' => cases hget hb' hi'
  | call hb' hi' => cases hget hb' hi'
  | jump hb' =>
    cases hb.symm.trans hb'
    rw [List.getElem?_eq_none (Nat.le_refl _)] at hi
    cases hi

end From

/-! ## What a move writes -/

section Updates

variable {env : Env} {prog : Program} {f : Func} {p q : BlockId × Nat} {sc sc' : Scope}
  {id : BlockId} {b : Block} {k : Nat} {i : Inst} {v : LeftValue} {w : Word}

theorem defsAt_inst_iff {x : Var} (hb : f.block? id = some b) (hi : b.insts[k]? = some i)
    (hp : i.isPhi = false) :
    f.defsAt (some (id, k + 1)) x ↔ ∃ r, i.definedVar = some r ∧ r.var = x := by
  show (∃ b', f.block? id = some b' ∧ x ∈ b'.defsAt (k + 1)) ↔ _
  simp [hb, Block.defsAt_inst hi hp]

theorem defsAt_phis_iff {x : Var} (hb : f.block? id = some b) :
    f.defsAt (some (id, b.phis.length)) x ↔ ∃ p ∈ b.phis, ∃ r, p.result = some r ∧ r.var = x := by
  show (∃ b', f.block? id = some b' ∧ x ∈ b'.defsAt b.phis.length) ↔ _
  simp [hb, Block.defsAt_phis]

/-- The slot of a result is in the frame. -/
theorem local_type (hf : f.WellTyped env prog) (hb : f.block? id = some b) (hi : i ∈ b.insts)
    (hv : i.definedVar = some v) : f.slotType (env.slotOf v.var) = some (viewType v.type) := by
  obtain ⟨t, ht⟩ := Option.isSome_iff_exists.1 (hf.results id b hb i hi v hv)
  have htype := hf.slots v (.result hb hi hv)
  unfold Program.typeIn at htype
  rw [ht] at htype ⊢
  exact htype

/-- What a move to `q` may write: results that are defined there, each in a slot of its
own and with a word of its type. -/
structure Updates (env : Env) (f : Func) (q : BlockId × Nat)
    (us : List (Option LeftValue × Word)) : Prop where
  fits : Fits env f us
  defs : ∀ u ∈ us, ∀ v ∈ u.1, f.Mentions (.left v) ∧ f.defsAt (some q) v.var
  apart : (us.filterMap Prod.fst).Pairwise fun u v => env.slotOf u.var ≠ env.slotOf v.var

/-- The result of an instruction is the only thing written. -/
theorem updates_inst (hf : f.WellTyped env prog) (hb : f.block? id = some b)
    (hi : b.insts[k]? = some i) (hp : i.isPhi = false)
    (hw : ∀ v, i.definedVar = some v → fitTy (viewType v.type) w = w) :
    Updates env f (id, k + 1) [(i.definedVar, w)] := by
  have hmem := List.mem_of_getElem? hi
  refine ⟨?_, ?_, ?_⟩
  · intro u hu v hv
    rw [List.mem_singleton.1 hu] at hv ⊢
    exact ⟨_, local_type hf hb hmem hv, hw v hv⟩
  · intro u hu v hv
    rw [List.mem_singleton.1 hu] at hv
    exact ⟨.result hb hmem hv, (defsAt_inst_iff hb hi hp).2 ⟨v, hv, rfl⟩⟩
  · cases hd : i.definedVar <;> simp

theorem runPhis_eq_ok {prev : BlockId} {phis : List PhiInst} :
    runPhis env sc (some prev) phis = .ok sc' ↔
      ∃ us, phis.mapM (readPhi env sc prev) = .ok us ∧ setVars env sc us = sc' := by
  unfold runPhis
  dsimp only
  rw [Except.bind_eq_ok]
  simp only [Except.pure_eq_ok]
  rfl

theorem readPhi_eq_ok {prev : BlockId} {ph : PhiInst} {u : Option LeftValue × Word} :
    readPhi env sc prev ph = .ok u ↔ ∃ x y t, ph.value prev = .ok x ∧ viewOf env sc x = .ok y ∧
      resultType env sc ph.result = .ok t ∧ u.1 = ph.result ∧
      assign env.float t t y.word = .ok u.2 := by
  unfold readPhi
  constructor
  · intro h
    obtain ⟨x, hx, h⟩ := Except.bind_eq_ok.1 h
    obtain ⟨y, hy, h⟩ := Except.bind_eq_ok.1 h
    obtain ⟨t, ht, h⟩ := Except.bind_eq_ok.1 h
    obtain ⟨w, hw, h⟩ := Except.bind_eq_ok.1 h
    cases h
    exact ⟨x, y, t, hx, hy, ht, rfl, hw⟩
  · rintro ⟨x, y, t, hx, hy, ht, hu, hw⟩
    refine Except.bind_eq_ok.2 ⟨x, hx, Except.bind_eq_ok.2 ⟨y, hy, Except.bind_eq_ok.2 ⟨t, ht, ?_⟩⟩⟩
    refine Except.bind_eq_ok.2 ⟨u.2, hw, ?_⟩
    rw [Except.pure_eq_ok, ← hu]

theorem updates_phis (hf : f.WellTyped env prog) (hs : f.Ssa) (ht : sc.Typed prog f)
    {prev : BlockId} {us : List (Option LeftValue × Word)} (hb : f.block? id = some b)
    (hu : b.phis.mapM (readPhi env sc prev) = .ok us) :
    Updates env f (id, b.phis.length) us := by
  refine ⟨?_, ?_, ?_⟩
  · intro u hmem v hv
    obtain ⟨p, hp, hr⟩ := Except.mapM_mem_right hu hmem
    obtain ⟨x, y, t, -, -, hrt, hres, hw⟩ := readPhi_eq_ok.1 hr
    have hv' : p.result = some v := hres ▸ hv
    have hins := Block.mem_insts_of_mem_phis hp
    rw [hv', resultType_mentioned ht hf (.result hb hins hv')] at hrt
    cases hrt
    exact ⟨_, local_type hf hb hins hv', fitTy_assign hw⟩
  · intro u hmem v hv
    obtain ⟨p, hp, hr⟩ := Except.mapM_mem_right hu hmem
    obtain ⟨x, y, t, -, -, -, hres, -⟩ := readPhi_eq_ok.1 hr
    have hv' : p.result = some v := hres ▸ hv
    exact ⟨.result hb (Block.mem_insts_of_mem_phis hp) hv', (defsAt_phis_iff hb).2 ⟨p, hp, v, hv', rfl⟩⟩
  · have hres : us.map Prod.fst = b.phis.map PhiInst.result := by
      refine Except.mapM_map_eq hu fun p u hpu => ?_
      obtain ⟨x, y, t, -, -, -, hres, -⟩ := readPhi_eq_ok.1 hpu
      exact hres
    have hfilter : us.filterMap Prod.fst = b.phis.filterMap PhiInst.result := by
      simpa [List.filterMap_map, Function.comp_def] using congrArg (List.filterMap fun r => r) hres
    rw [hfilter]
    refine (hs.phis hb).imp_of_mem fun {u v} hmu hmv hne heq => hne ?_
    obtain ⟨p, hp, hpu⟩ := List.mem_filterMap.1 hmu
    obtain ⟨p', hp', hpv⟩ := List.mem_filterMap.1 hmv
    exact hf.apart u v (.result hb (Block.mem_insts_of_mem_phis hp) hpu)
      (.result hb (Block.mem_insts_of_mem_phis hp') hpv) heq

theorem Moves.updates (hf : f.WellTyped env prog) (hs : f.Ssa) (ht : sc.Typed prog f)
    (h : Moves env f p sc q sc') : ∃ us, setVars env sc us = sc' ∧ Updates env f q us := by
  have hres : ∀ {id b} {k : Nat} {i : Inst} {v}, f.block? id = some b → b.insts[k]? = some i →
      i.definedVar = some v → resultType env sc i.definedVar = .ok (viewType v.type) := by
    intro id b k i v hb hi hv
    rw [hv]
    exact resultType_mentioned ht hf (.result hb (List.mem_of_getElem? hi) hv)
  cases h with
  | unary hb hi hw =>
    refine ⟨[(_, _)], rfl, updates_inst hf hb hi rfl fun v hv => ?_⟩
    exact fitTy_execUnary hw (hres hb hi hv)
  | binary hb hi hop hl hr hd hw =>
    refine ⟨[(_, _)], rfl, updates_inst hf hb hi rfl fun v hv => ?_⟩
    cases hd.symm.trans (hres hb hi hv)
    exact fitTy_evalInst hw
  | store hb hi hop => exact ⟨[], rfl, ⟨nofun, nofun, .nil⟩⟩
  | @call _ _ _ _ _ _ w hb hi hd hw =>
    cases w with
    | none => exact ⟨[], rfl, ⟨nofun, nofun, .nil⟩⟩
    | some w =>
      refine ⟨[(_, _)], rfl, updates_inst hf hb hi rfl fun v hv => ?_⟩
      cases hd.symm.trans (hres hb hi hv)
      exact hw w rfl
  | jump hb htgt hb' hr =>
    obtain ⟨us, hus, rfl⟩ := runPhis_eq_ok.1 hr
    exact ⟨us, rfl, updates_phis hf hs ht hb' hus⟩

/-- A move keeps the types of the slots, and does not touch the globals. -/
theorem Moves.typed (hf : f.WellTyped env prog) (hs : f.Ssa) (ht : sc.Typed prog f)
    (h : Moves env f p sc q sc') : sc'.Typed prog f ∧ sc'.globals = sc.globals := by
  obtain ⟨us, rfl, hu⟩ := h.updates hf hs ht
  exact typed_setVars ht hu.fits

/-- A move changes what is defined at the point it leads to, and nothing else. -/
theorem Moves.same (hf : f.WellTyped env prog) (hs : f.Ssa) (ht : sc.Typed prog f)
    (h : Moves env f p sc q sc') (hv : f.Mentions (.left v)) (hd : ¬f.defsAt (some q) v.var) :
    sc'.get env v.var = sc.get env v.var := by
  obtain ⟨us, rfl, hu⟩ := h.updates hf hs ht
  refine get_setVars_of_ne fun u hmem v' hv' heq => hd ?_
  obtain ⟨hm, hdef⟩ := hu.defs u hmem v' hv'
  rwa [← hf.apart v' v hm hv heq]

/-- The slot of a result has the word that an instruction wrote. -/
theorem get_result (hf : f.WellTyped env prog) (ht : sc.Typed prog f) (hb : f.block? id = some b)
    (hi : i ∈ b.insts) (hv : i.definedVar = some v) (hw : fitTy (viewType v.type) w = w) :
    (setVar env sc (some v) w).get env v.var = some ⟨viewType v.type, w⟩ := by
  have hlocal := local_type hf hb hi hv
  have hmem : (some v, w) ∈ [(some v, w)] := List.mem_singleton.2 rfl
  refine get_setVars_self ht ?_ ?_ hmem hlocal
  · intro u hu v' hv'
    rw [List.mem_singleton.1 hu] at hv' ⊢
    cases hv'
    exact ⟨_, hlocal, hw⟩
  · simp

/-- The slot of a phi's result has the word that the phi read. -/
theorem get_phi (hf : f.WellTyped env prog) (hs : f.Ssa) (ht : sc.Typed prog f)
    (hb : f.block? id = some b) {src : BlockId}
    (hr : runPhis env sc (some src) b.phis = .ok sc') {ph : PhiInst} (hp : ph ∈ b.phis)
    (hv : ph.result = some v) : ∃ x y w, ph.value src = .ok x ∧ viewOf env sc x = .ok y ∧
      assign env.float (viewType v.type) (viewType v.type) y.word = .ok w ∧
      sc'.get env v.var = some ⟨viewType v.type, w⟩ := by
  obtain ⟨us, hus, rfl⟩ := runPhis_eq_ok.1 hr
  obtain ⟨u, hu, hread⟩ := Except.mapM_mem_left hus hp
  obtain ⟨x, y, t, hx, hy, hrt, hres, hw⟩ := readPhi_eq_ok.1 hread
  have hmem := Block.mem_insts_of_mem_phis hp
  rw [hv, resultType_mentioned ht hf (.result hb hmem hv)] at hrt
  cases hrt
  refine ⟨x, y, u.2, hx, hy, hw, ?_⟩
  have hup := updates_phis hf hs ht hb hus
  refine get_setVars_self ht hup.fits hup.apart ?_ (local_type hf hb hmem hv)
  rw [← hv, ← hres]
  exact hu

end Updates

section Cases

variable {env : Env} {prog : Program} {s t : State env} {fr : Frame} {rest : List Frame}
  {f : Func}

theorem findFunc_name {name : String} (h : prog.findFunc name = some f) : f.name = name := by
  have hname := List.find?_some h
  simpa using hname

theorem findFunc_self {name : String} (h : prog.findFunc name = some f) :
    prog.findFunc f.name = some f := by
  rw [findFunc_name h, h]

theorem blockAt_eq_ok {b : Block} {id : BlockId} (hf : prog.findFunc fr.func = some f) :
    blockAt prog fr id = .ok b ↔ f.block? id = some b := by
  simp [blockAt, hf, deref]
  show (f.block? id).elim _ _ = _ ↔ _
  cases f.block? id <;> simp

/-- The points a path leads to lie in their blocks. -/
theorem reach_le {id : BlockId} {k : Nat} (h : f.graph.Reach (some (id, k))) :
    ∃ b, f.block? id = some b ∧ k ≤ b.insts.length := by
  cases h with
  | step _ he =>
    cases he with
    | call hb => exact ⟨_, Func.block?_entrance hb, Nat.zero_le _⟩
    | inst hb hi => exact ⟨_, hb, (List.getElem?_eq_some_iff.1 hi).1⟩
    | jump _ _ hb' => exact ⟨_, hb', Block.phis_length_le⟩

/-- What a step can do. -/
inductive ExecStep (prog : Program) (s t : State env) : Prop
  | move {fr : Frame} {rest : List Frame} {f : Func} {q : BlockId × Nat} {sc : Scope}
      (hs : s.frames = fr :: rest) (hf : prog.findFunc fr.func = some f)
      (hm : Moves env f (fr.block, fr.idx) (s.scope fr) q sc)
      (ht : t.frames = { fr with block := q.1, idx := q.2, vars := sc.vars } :: rest)
      (hg : t.globals = sc.globals)
  | call {f : Func} {b : Block} {l : Layout} {args : List View}
      (hf : prog.findFunc f.name = some f) (hb : f.entrance = some b) (hp : b.phis = [])
      (hl : layoutFunc env.float s.mem s.top f args = .ok l)
      (ht : t.frames = ⟨f.name, b.id, 0, l.vars, s.top⟩ :: s.frames) (hg : t.globals = s.globals)
  | ret {fr caller : Frame} {rest : List Frame} {f : Func} {b : Block} {q : BlockId × Nat}
      {sc : Scope} (hs : s.frames = fr :: caller :: rest) (hf : prog.findFunc caller.func = some f)
      (hb : f.block? caller.block = some b) (hlt : caller.idx < b.insts.length)
      (hm : Moves env f (caller.block, caller.idx) (s.scope caller) q sc)
      (ht : t.frames = { caller with block := q.1, idx := q.2, vars := sc.vars } :: rest)
      (hg : t.globals = sc.globals)
  | finish (ht : t.frames = []) (hg : t.globals = s.globals)

theorem enterBlock_move {target : BlockId} {b : Block} (hs : s.frames = fr :: rest)
    (hf : prog.findFunc fr.func = some f) (hb : f.block? fr.block = some b)
    (hk : fr.idx = b.insts.length) (ht : target ∈ b.targets)
    (h : enterBlock prog s fr rest (some fr.block) target = .ok t) : ExecStep prog s t := by
  obtain ⟨b', hb', h⟩ := Except.bind_eq_ok.1 h
  obtain ⟨sc, hsc, h⟩ := Except.bind_eq_ok.1 h
  cases h
  have hm := Moves.jump hb ht ((blockAt_eq_ok hf).1 hb') hsc
  rw [← hk] at hm
  exact .move hs hf hm rfl rfl

theorem enterFunc_call {name : String} {args : List View} (hf : prog.findFunc name = some f)
    (h : enterFunc prog s f args = .ok t) : ExecStep prog s t := by
  obtain ⟨l, hl, h⟩ := Except.bind_eq_ok.1 h
  obtain ⟨b, hb, h⟩ := Except.bind_eq_ok.1 h
  obtain ⟨b', hb', h⟩ := Except.bind_eq_ok.1 h
  obtain ⟨sc, hsc, h⟩ := Except.bind_eq_ok.1 h
  have hself := findFunc_self hf
  have hentr := deref_eq_ok.1 hb
  have hbb : b' = b := by
    have hb'' : f.block? b.id = some b' := (blockAt_eq_ok hself).1 hb'
    rw [Func.block?_entrance hentr] at hb''
    cases hb''
    rfl
  subst hbb
  unfold runPhis at hsc
  dsimp only at hsc
  split at hsc
  · rename_i hp
    cases hsc
    cases h
    rw [List.isEmpty_iff] at hp
    refine .call hself hentr hp hl ?_ rfl
    simp [hp, State.scope]
  · cases hsc

theorem execInst_cases {b : Block} {i : Inst} (hs : s.frames = fr :: rest)
    (hf : prog.findFunc fr.func = some f) (hb : f.block? fr.block = some b)
    (hi : b.insts[fr.idx]? = some i) (h : execInst prog s fr rest i = .ok t) :
    ExecStep prog s t := by
  cases i with
  | phi p => cases h
  | unary u =>
    obtain ⟨w, hw, h⟩ := Except.bind_eq_ok.1 h
    cases h
    exact .move hs hf (.unary hb hi hw) rfl rfl
  | binary i =>
    obtain ⟨lhs, hl, h⟩ := Except.bind_eq_ok.1 h
    obtain ⟨rhs, hr, h⟩ := Except.bind_eq_ok.1 h
    obtain ⟨dest, hd, h⟩ := Except.bind_eq_ok.1 h
    split at h
    · rename_i hop
      obtain ⟨m, -, h⟩ := Except.bind_eq_ok.1 h
      cases h
      exact .move hs hf (.store hb hi hop) rfl rfl
    · rename_i hop
      obtain ⟨w, hw, h⟩ := Except.bind_eq_ok.1 h
      cases h
      exact .move hs hf (.binary hb hi hop hl hr hd hw) rfl rfl
  | call c =>
    obtain ⟨dest, hd, h⟩ := Except.bind_eq_ok.1 h
    obtain ⟨args, -, h⟩ := Except.bind_eq_ok.1 h
    split at h
    · obtain ⟨g, hg, h⟩ := Except.bind_eq_ok.1 h
      exact enterFunc_call (deref_eq_ok.1 hg) h
    · obtain ⟨⟨u, w⟩, hu, h⟩ := Except.bind_eq_ok.1 h
      cases h
      refine .move hs hf (.call hb hi hd (w := w) fun x hx => ?_) ?_ ?_
      · exact fitTy_execBuiltin (hx ▸ hu)
      · cases w <;> rfl
      · cases w <;> rfl
    · cases h

theorem callResult_eq_some {i : Option Inst} {r : Option LeftValue}
    (h : i.bind callResult = some r) : ∃ c, i = some (.call c) ∧ c.result = r := by
  obtain ⟨j, rfl, h⟩ := Option.bind_eq_some_iff.1 h
  cases j with
  | call c =>
    cases h
    exact ⟨c, rfl, rfl⟩
  | _ => cases h

theorem execReturn_cases {v : View} (hs : s.frames = fr :: rest)
    (hg : ∀ fr ∈ rest, ∃ f, prog.findFunc fr.func = some f)
    (h : execReturn prog s fr rest v = .ok t) : ExecStep prog s t := by
  cases rest with
  | nil =>
    obtain ⟨w, -, h⟩ := Except.bind_eq_ok.1 h
    cases h
    exact .finish rfl rfl
  | cons caller rest =>
    obtain ⟨g, hg⟩ := hg caller (by simp)
    obtain ⟨b, hb, h⟩ := Except.bind_eq_ok.1 h
    have hb' := (blockAt_eq_ok hg).1 hb
    obtain ⟨result, hres, h⟩ := Except.bind_eq_ok.1 h
    obtain ⟨dest, hd, h⟩ := Except.bind_eq_ok.1 h
    obtain ⟨w, hw, h⟩ := Except.bind_eq_ok.1 h
    cases h
    obtain ⟨c, hi, rfl⟩ := callResult_eq_some (deref_eq_ok.1 hres)
    refine .ret hs hg hb' (List.getElem?_eq_some_iff.1 hi).1
      (.call hb' hi hd (w := some w) fun x hx => ?_) rfl rfl
    cases hx
    exact fitTy_assign hw

/-- Every step of a run moves a frame, calls, returns or ends. -/
theorem exec_cases (hloc : ∀ fr ∈ s.frames, ∃ f, prog.findFunc fr.func = some f ∧
    f.graph.Reach (some (fr.block, fr.idx))) (h : exec prog s = .ok t) : ExecStep prog s t := by
  unfold exec at h
  split at h
  · cases h
  · rename_i fr rest hs
    obtain ⟨f, hf, hr⟩ := hloc fr (by simp [hs])
    obtain ⟨b, hb, h⟩ := Except.bind_eq_ok.1 h
    have hb' := (blockAt_eq_ok hf).1 hb
    unfold execAt at h
    split at h
    · rename_i i hi
      exact execInst_cases hs hf hb' hi h
    · rename_i hi
      obtain ⟨e, he, h⟩ := Except.bind_eq_ok.1 h
      have he' := deref_eq_ok.1 he
      have hk : fr.idx = b.insts.length := by
        obtain ⟨b₁, hb₁, hle⟩ := reach_le hr
        rw [hb'] at hb₁
        cases hb₁
        have hge := List.getElem?_eq_none_iff.1 hi
        omega
      cases e with
      | jump target =>
        exact enterBlock_move hs hf hb' hk (by simp [Block.targets, he', Exit.targets]) h
      | branch cond tt tf =>
        obtain ⟨v, -, h⟩ := Except.bind_eq_ok.1 h
        obtain ⟨c, -, h⟩ := Except.bind_eq_ok.1 h
        refine enterBlock_move hs hf hb' hk ?_ h
        cases c <;> simp [Block.targets, he', Exit.targets]
      | ret exp =>
        obtain ⟨v, -, h⟩ := Except.bind_eq_ok.1 h
        refine execReturn_cases hs (fun fr' hfr' => ?_) h
        obtain ⟨g, hg, -⟩ := hloc fr' (by simp [hs, hfr'])
        exact ⟨g, hg⟩

end Cases

end Vm
end Ir
end Cact
