import Cact.Ir.Erase
import Cact.Ir.Safe

/-!
# Erasing a definition that nothing uses keeps the meaning

The program without the instruction runs beside the program with it. Their states differ in
the word of the erased variable, which nothing reads, and in the positions behind the
instruction. When the first run executes the instruction, the second one waits. The
instruction may fail, so this is about runs that do not.

- `Slots.Near`, `Scope.Near`: slots that differ in some of their words only.
- `Erase.Twin`, `Erase.Beside`: the frames, and the states, of the two runs.
- `Erase.exec_other`, `Erase.exec_self`: a step of both runs, and the step past the instruction.
- `safeMeaning_erase`: the two programs cannot be told apart on safe inputs.
-/

namespace Cact

namespace Ir

namespace Vm

/-! ## Slots that agree but for some words -/

/-- The slots have the same types, and outside of `D` the same words. -/
structure Slots.Near (D : Var → Prop) (vars vars' : Slots) : Prop where
  same : ∀ v, ¬D v → vars' v = vars v
  types : ∀ v, (vars' v).map Slot.type = (vars v).map Slot.type

structure Scope.Near (D : Var → Prop) (sc sc' : Scope) : Prop where
  globals : sc'.globals = sc.globals
  vars : Slots.Near D sc.vars sc'.vars

namespace Slots.Near

variable {D : Var → Prop} {vars vars' : Slots} {v : Var} {w w' : Word}

theorem refl : Near D vars vars := ⟨fun _ _ => rfl, fun _ => rfl⟩

theorem isSome (h : Near D vars vars') (v : Var) : (vars' v).isSome = (vars v).isSome := by
  rw [← Option.isSome_map (f := Slot.type), h.types, Option.isSome_map]

theorem type_set (vars : Slots) (v u : Var) (w : Word) :
    (vars.set v w u).map Slot.type = (vars u).map Slot.type := by
  unfold Slots.set
  split
  · cases vars u <;> rfl
  · rfl

theorem set (h : Near D vars vars') : Near D (vars.set v w) (vars'.set v w) where
  same u hu := by
    unfold Slots.set
    rw [h.same u hu]
  types u := by rw [type_set, type_set, h.types]

/-- A word that nobody looks at is written on one side. -/
theorem set_left (h : Near D vars vars') (hv : D v) : Near D (vars.set v w) vars' where
  same u hu := by
    have hne : u ≠ v := by
      rintro rfl
      exact hu hv
    rw [h.same u hu, Slots.set_of_ne hne]
  types u := by rw [type_set, h.types]

end Slots.Near

theorem Together.follows {α β : Type} {R : α → β → Prop} {x : Except Fault α}
    {y : Except Fault β} (h : Together R x y) : Follows R x y := by
  cases h with
  | ok hR => exact .ok hR
  | error => exact .error

namespace Scope.Near

variable {env : Env} {D : Var → Prop} {sc sc' : Scope} {r : LeftValue} {w : Word}
  {res : Option LeftValue} {us : List (Option LeftValue × Word)}

theorem viewOf (h : sc.Near D sc') {x : Value} (hx : ∀ u, x = .left u → ¬D (env.slotOf u.var)) :
    viewOf env sc' x = viewOf env sc x := by
  cases x with
  | const c => rfl
  | left u =>
    unfold Vm.viewOf slotAt
    dsimp only
    rw [h.globals, h.vars.same _ (hx u rfl)]

theorem resultType (h : sc.Near D sc') : resultType env sc' res = resultType env sc res := by
  cases res with
  | none => rfl
  | some v =>
    have htype := h.vars.types (env.slotOf v.var)
    unfold Vm.resultType slotAt
    dsimp only
    rw [h.globals]
    -- the slot is in both frames, and of one type there, or in neither
    cases hs : sc.vars (env.slotOf v.var) with
    | none =>
      rw [hs, Option.map_none, Option.map_eq_none_iff] at htype
      rw [htype]
    | some t =>
      rw [hs] at htype
      obtain ⟨t', ht', htt⟩ := Option.map_eq_some_iff.1 htype
      rw [ht', Option.some_or, Option.some_or]
      dsimp only
      split
      · rfl
      · exact congrArg Except.ok htt

theorem setVar (h : sc.Near D sc') : (setVar env sc res w).Near D (setVar env sc' res w) := by
  cases res with
  | none => exact h
  | some v =>
    unfold Vm.setVar
    dsimp only
    rw [h.vars.isSome]
    split
    · exact ⟨h.globals, h.vars.set⟩
    · exact ⟨congrArg (Slots.set · _ w) h.globals, h.vars⟩

theorem setVars (h : sc.Near D sc') : (setVars env sc us).Near D (setVars env sc' us) := by
  induction us generalizing sc sc' with
  | nil => exact h
  | cons u us ih => exact ih h.setVar

theorem setVar_left (h : sc.Near D sc') (hr : D (env.slotOf r.var))
    (hl : (sc.vars (env.slotOf r.var)).isSome) : (Vm.setVar env sc (some r) w).Near D sc' := by
  rw [setVar_local hl]
  exact ⟨h.globals, h.vars.set_left hr⟩

end Scope.Near

theorem isSome_setVar {env : Env} {sc : Scope} {res : Option LeftValue} {w : Word} (v : Var) :
    ((setVar env sc res w).vars v).isSome = (sc.vars v).isSome := by
  cases res with
  | none => rfl
  | some u =>
    unfold setVar
    dsimp only
    split
    · rw [← Option.isSome_map (f := Slot.type), Slots.Near.type_set, Option.isSome_map]
    · rfl

theorem isSome_setVars {env : Env} {sc : Scope} {us : List (Option LeftValue × Word)} (v : Var) :
    ((setVars env sc us).vars v).isSome = (sc.vars v).isSome := by
  induction us generalizing sc with
  | nil => rfl
  | cons u us ih => exact ih.trans (isSome_setVar v)

/-! ## Phis -/

section Phis

variable {env : Env} {D : Var → Prop} {sc sc' : Scope} {src : BlockId} {phis : List PhiInst}
  {ph : PhiInst} {r : LeftValue} {k : Nat}

/-- A value whose slot is not among the ones that differ. -/
def Clear (env : Env) (D : Var → Prop) (x : Value) : Prop :=
  ∀ u, x = .left u → ¬D (env.slotOf u.var)

theorem readPhi_near (h : sc.Near D sc') (hc : ∀ x ∈ ph.args.map Prod.snd, Clear env D x) :
    readPhi env sc' src ph = readPhi env sc src ph := by
  unfold readPhi
  cases hv : ph.value src with
  | error e => rfl
  | ok x =>
    obtain ⟨a, ha, rfl⟩ := PhiInst.value_mem hv
    show (viewOf env sc' a.2 >>= _) = (viewOf env sc a.2 >>= _)
    rw [h.viewOf (hc _ (List.mem_map_of_mem ha)), h.resultType]

theorem runPhis_near {prev : Option BlockId} (h : sc.Near D sc')
    (hc : ∀ ph ∈ phis, ∀ x ∈ ph.args.map Prod.snd, Clear env D x) :
    Follows (Scope.Near D) (runPhis env sc prev phis) (runPhis env sc' prev phis) := by
  cases prev with
  | none =>
    unfold runPhis
    dsimp only
    split
    · exact .ok h
    · exact .error
  | some src =>
    have hread : phis.mapM (readPhi env sc' src) = phis.mapM (readPhi env sc src) :=
      Except.mapM_congr fun p hp => readPhi_near h (hc p hp)
    show Follows _ (phis.mapM (readPhi env sc src) >>= _) (phis.mapM (readPhi env sc' src) >>= _)
    rw [hread]
    exact .bind fun us _ => .ok h.setVars

/-- The phi that is missing writes what nobody looks at. -/
theorem runPhis_eraseIdx {prev : Option BlockId} (h : sc.Near D sc') (hk : phis[k]? = some ph)
    (hr : ph.result = some r) (hD : D (env.slotOf r.var))
    (hl : (sc.vars (env.slotOf r.var)).isSome)
    (hc : ∀ ph ∈ phis.eraseIdx k, ∀ x ∈ ph.args.map Prod.snd, Clear env D x) :
    Follows (Scope.Near D) (runPhis env sc prev phis) (runPhis env sc' prev (phis.eraseIdx k)) := by
  obtain ⟨hlt, rfl⟩ := List.getElem?_eq_some_iff.1 hk
  cases prev with
  | none =>
    unfold runPhis
    dsimp only
    rw [if_neg]
    · exact .error
    · rw [List.isEmpty_iff]
      rintro rfl
      cases hlt
  | some src =>
    intro out hout
    obtain ⟨us, hus, rfl⟩ := runPhis_eq_ok.1 hout
    -- the phis in front of the erased one, the phi itself, and the phis behind it
    rw [← List.take_append_drop k phis, List.drop_eq_getElem_cons hlt, List.mapM_append] at hus
    obtain ⟨us₁, h₁, hus⟩ := Except.bind_eq_ok.1 hus
    obtain ⟨us₂, h₂, hus⟩ := Except.bind_eq_ok.1 hus
    cases hus
    rw [List.mapM_cons] at h₂
    obtain ⟨u, hu, h₂⟩ := Except.bind_eq_ok.1 h₂
    obtain ⟨us₃, h₃, h₂⟩ := Except.bind_eq_ok.1 h₂
    cases h₂
    obtain ⟨x, y, t, -, -, -, hres, -⟩ := readPhi_eq_ok.1 hu
    have hread : (phis.eraseIdx k).mapM (readPhi env sc' src) = .ok (us₁ ++ us₃) := by
      rw [Except.mapM_congr fun p hp => readPhi_near h (hc p hp), List.eraseIdx_eq_take_drop_succ,
        List.mapM_append]
      exact Except.bind_eq_ok.2 ⟨us₁, h₁, Except.bind_eq_ok.2 ⟨us₃, h₃, rfl⟩⟩
    refine ⟨_, runPhis_eq_ok.2 ⟨_, hread, rfl⟩, ?_⟩
    unfold Vm.setVars
    rw [List.foldl_append, List.foldl_append, List.foldl_cons, hres, hr]
    have hfirst : (Vm.setVars env sc us₁).Near D (Vm.setVars env sc' us₁) := h.setVars
    exact (hfirst.setVar_left hD ((isSome_setVars _).trans hl)).setVars

end Phis

/-! ## Frames -/

namespace Erase

section Frames

variable (env : Env) (f : Func) (id : BlockId) (k : Nat) (r : LeftValue)

/-- The slot of the erased variable, in the frames of its function. -/
def Dead (name : String) (v : Var) : Prop := name = f.name ∧ v = env.slotOf r.var

/-- Where a frame of the first run stands in the second. -/
def newIdx (name : String) (t : BlockId) (j : Nat) : Nat :=
  if name = f.name ∧ t = id ∧ k < j then j - 1 else j

/-- The frames of one call in the two runs. -/
structure Twin (fr fr' : Frame) : Prop where
  func : fr'.func = fr.func
  block : fr'.block = fr.block
  base : fr'.base = fr.base
  idx : fr'.idx = newIdx f id k fr.func fr.block fr.idx
  vars : fr.vars.Near (Dead env f r fr.func) fr'.vars

/-- The states of the two runs, which differ in their frames only. -/
structure Beside (s s' : State env) : Prop where
  same : s' = { s with frames := s'.frames }
  frames : List.Forall₂ (Twin env f id k r) s.frames s'.frames

/-- The blocks that the two runs find: the same, or the one that has lost the instruction. -/
inductive Facing (b : Block) (name : String) (t : BlockId) : Block → Block → Prop
  | same (c : Block) (h : ¬(name = f.name ∧ t = id)) : Facing b name t c c
  | erased (hn : name = f.name) (ht : t = id) : Facing b name t b (b.eraseAt k)

variable {env f id k r}

theorem same_of {s s' : State env} (hg : s'.globals = s.globals) (hm : s'.mem = s.mem)
    (ht : s'.top = s.top) (hi : s'.input = s.input) (ho : s'.output = s.output)
    (hr : s'.result = s.result) : s' = { s with frames := s'.frames } := by
  cases s
  cases s'
  cases hg
  cases hm
  cases ht
  cases hi
  cases ho
  cases hr
  rfl

theorem newIdx_of_not {name : String} {t : BlockId} {j : Nat} (h : ¬(name = f.name ∧ t = id)) :
    newIdx f id k name t j = j := if_neg fun hc => h ⟨hc.1, hc.2.1⟩

theorem newIdx_self {j : Nat} : newIdx f id k f.name id j = if k < j then j - 1 else j := by
  unfold newIdx
  by_cases hj : k < j <;> simp [hj]

/-- Both frames go on behind their instruction. -/
theorem newIdx_succ {name : String} {t : BlockId} {j : Nat}
    (h : ¬(name = f.name ∧ t = id ∧ j = k)) :
    newIdx f id k name t (j + 1) = newIdx f id k name t j + 1 := by
  unfold newIdx
  by_cases hat : name = f.name ∧ t = id
  · obtain ⟨hn, ht⟩ := hat
    have hne : j ≠ k := fun hj => h ⟨hn, ht, hj⟩
    by_cases hlt : k < j
    · rw [if_pos ⟨hn, ht, by omega⟩, if_pos ⟨hn, ht, hlt⟩]
      omega
    · rw [if_neg fun hc => by omega, if_neg fun hc => hlt hc.2.2]
  · rw [if_neg fun hc => hat ⟨hc.1, hc.2.1⟩, if_neg fun hc => hat ⟨hc.1, hc.2.1⟩]

theorem Twin.scope {fr fr' : Frame} (h : Twin env f id k r fr fr') (g : Slots) :
    Scope.Near (Dead env f r fr.func) ⟨fr.vars, g⟩ ⟨fr'.vars, g⟩ := ⟨rfl, h.vars⟩

theorem Twin.advance {fr fr' : Frame} (h : Twin env f id k r fr fr')
    (hat : ¬(fr.func = f.name ∧ fr.block = id ∧ fr.idx = k)) {sc sc' : Scope}
    (hsc : sc.Near (Dead env f r fr.func) sc') :
    Twin env f id k r { fr with vars := sc.vars, idx := fr.idx + 1 }
      { fr' with vars := sc'.vars, idx := fr'.idx + 1 } where
  func := h.func
  block := h.block
  base := h.base
  idx := by
    show fr'.idx + 1 = _
    rw [h.idx]
    exact (newIdx_succ hat).symm
  vars := hsc.vars

end Frames

section Run

variable {env : Env} {prog prog' : Program} {f f' : Func} {id : BlockId} {k : Nat} {b : Block}
  {i : Inst} {r : LeftValue} {s : State env} {frs : List Frame} {fr fr' : Frame}
  {rest rest' : List Frame}

/-! ## Blocks and operands -/

theorem blockAt_facing (hp : prog.Replaces prog' f f') (h : f.Erases f' id k b i r)
    (hfr : fr'.func = fr.func) (t : BlockId) :
    Follows (Facing f id k b fr.func t) (blockAt prog fr t) (blockAt prog' fr' t) := by
  by_cases hf : fr.func = f.name
  · rw [(blockAt_self hp hf t).1, (blockAt_self hp (hfr.trans hf) t).2]
    by_cases ht : t = id
    · subst ht
      rw [h.block, h.block?_self]
      exact .ok (.erased hf rfl)
    · rw [h.block?_of_ne ht]
      intro c hc
      exact ⟨c, hc, .same c fun hat => ht hat.2⟩
  · rw [blockAt_other hp fun he => hf (hfr.symm.trans he)]
    intro c hc
    refine ⟨c, ?_, .same c fun hat => hf hat.1⟩
    unfold blockAt at hc ⊢
    rw [hfr]
    exact hc

/-- No operand of the function is kept in the slot of the erased variable. -/
theorem clear_operand (hwf : prog.WellFormed env) (hf : f ∈ prog.funcs)
    (h : f.Erases f' id k b i r) {x : Value} (hx : x ∈ f.operands) {name : String} :
    Clear env (Dead env f r name) x := by
  rintro u rfl ⟨-, hslot⟩
  have hu := Func.mentions_of_operand (hwf.ssa f hf) hx
  have hr : f.Mentions (.left r) := .result h.block (List.mem_of_getElem? h.inst) h.result
  refine h.unused _ hx (congrArg some ?_)
  exact (hwf.typed f hf).apart u r hu hr hslot

/-- What stands in the block of a frame is clear of the erased variable. -/
theorem clear_block (hwf : prog.WellFormed env) (hp : prog.Replaces prog' f f')
    (h : f.Erases f' id k b i r) {t : BlockId} {c : Block} (hc : blockAt prog fr t = .ok c) :
    (∀ j ∈ c.insts, ∀ x ∈ j.used, Clear env (Dead env f r fr.func) x) ∧
      ∀ e, c.exit = some e → ∀ x, e.used = some x → Clear env (Dead env f r fr.func) x := by
  by_cases hf : fr.func = f.name
  · have hmem := Program.mem_of_findFunc hp.found
    have hblock : f.block? t = some c := by
      rw [(blockAt_self hp hf t).1] at hc
      exact deref_eq_ok.1 hc
    constructor
    · intro j hj x hx
      exact clear_operand hwf hmem h (Func.operand_of_used hblock hj hx)
    · intro e he x hx
      exact clear_operand hwf hmem h (Func.operand_of_exit hblock he hx)
  · constructor
    · intro j _ x _ u _ hdead
      exact hf hdead.1
    · intro e _ x _ u _ hdead
      exact hf hdead.1

theorem clear_phis (hwf : prog.WellFormed env) (hp : prog.Replaces prog' f f')
    (h : f.Erases f' id k b i r) {t : BlockId} {c : Block} (hc : blockAt prog fr t = .ok c) :
    ∀ ph ∈ c.phis, ∀ x ∈ ph.args.map Prod.snd, Clear env (Dead env f r fr.func) x :=
  fun _ hph x hx => (clear_block hwf hp h hc).1 _ (Block.mem_insts_of_mem_phis hph) x hx

/-! ## Entering a block -/

/-- What the phis of the two blocks do. -/
theorem runPhis_facing (hwf : prog.WellFormed env) (hp : prog.Replaces prog' f f')
    (hph : f.PhisPlaced) (h : f.Erases f' id k b i r) {t : BlockId} {c c' : Block}
    (hc : blockAt prog fr t = .ok c) (hcc : Facing f id k b fr.func t c c') {sc sc' : Scope}
    (hsc : sc.Near (Dead env f r fr.func) sc') {prev : Option BlockId}
    (hl : prev ≠ none → fr.func = f.name → (sc.vars (env.slotOf r.var)).isSome) :
    Follows (Scope.Near (Dead env f r fr.func)) (runPhis env sc prev c.phis)
      (runPhis env sc' prev c'.phis) := by
  have hclear := clear_phis hwf hp h hc
  cases hcc with
  | same => exact runPhis_near hsc hclear
  | erased hn ht =>
    have hfirst := h.first hph
    rw [hfirst.phis_eraseAt h.inst]
    split
    · rename_i hphi
      have hlt := hfirst.lt_of_isPhi h.inst hphi
      have hget := h.inst
      rw [Block.get_phis hlt, List.getElem?_eq_getElem hlt] at hget
      cases hget
      cases prev with
      | none =>
        -- no block comes before this one, so the phi cannot be read
        have hne : ¬b.phis.isEmpty := by
          rw [List.isEmpty_iff]
          intro hnil
          rw [hnil] at hlt
          cases hlt
        unfold runPhis
        dsimp only
        rw [if_neg hne]
        exact .error
      | some src =>
        refine runPhis_eraseIdx hsc (List.getElem?_eq_getElem hlt) h.result ⟨hn, rfl⟩
          (hl nofun hn) fun q hq => ?_
        exact hclear q (List.mem_of_mem_eraseIdx hq)
    · exact runPhis_near hsc hclear

/-- Both runs enter a block. -/
theorem enterBlock_erase (hwf : prog.WellFormed env) (hp : prog.Replaces prog' f f')
    (hph : f.PhisPlaced) (h : f.Erases f' id k b i r) (hfr : fr'.func = fr.func)
    (hbase : fr'.base = fr.base) (hvars : fr.vars.Near (Dead env f r fr.func) fr'.vars)
    (hrest : List.Forall₂ (Twin env f id k r) rest rest') {prev : Option BlockId}
    (hl : prev ≠ none → fr.func = f.name → (fr.vars (env.slotOf r.var)).isSome) (t : BlockId) :
    Follows (Beside env f id k r) (enterBlock prog s fr rest prev t)
      (enterBlock prog' { s with frames := frs } fr' rest' prev t) := by
  refine (blockAt_facing hp h hfr t).andThen fun c c' hc _ hcc => ?_
  have hsc : (s.scope fr).Near (Dead env f r fr.func)
      (State.scope { s with frames := frs } fr') := ⟨rfl, hvars⟩
  refine (runPhis_facing hwf hp hph h hc hcc hsc hl).andThen fun out out' _ _ hout => .ok ⟨?_, ?_⟩
  · exact same_of hout.globals rfl rfl rfl rfl rfl
  · refine .cons ⟨hfr, rfl, hbase, ?_, hout.vars⟩ hrest
    show c'.phis.length = newIdx f id k fr.func t c.phis.length
    cases hcc with
    | same _ hat => exact (newIdx_of_not hat).symm
    | erased hn ht => rw [hn, ht, newIdx_self, (h.first hph).length_phis_eraseAt h.inst]

/-- Both runs enter a function. -/
theorem enterFunc_erase (hwf : prog.WellFormed env) (hp : prog.Replaces prog' f f')
    (hph : f.PhisPlaced) (h : f.Erases f' id k b i r)
    (hfrs : List.Forall₂ (Twin env f id k r) s.frames frs) {m : Func}
    (hm : prog.findFunc m.name = some m) (args : List View) :
    Follows (Beside env f id k r) (enterFunc prog s m args)
      (enterFunc prog' { s with frames := frs } (if m.name = f.name then f' else m) args) := by
  by_cases hmf : m.name = f.name
  · have hm' : m = f := Option.some.inj (hm.symm.trans ((congrArg _ hmf).trans hp.found))
    subst hm'
    rw [if_pos rfl]
    have hlayout : layoutFunc env.float s.mem s.top f' args =
        layoutFunc env.float s.mem s.top m args := by
      rw [h.eq]
      rfl
    show Follows _ (layoutFunc env.float s.mem s.top m args >>= _)
      (layoutFunc env.float s.mem s.top f' args >>= _)
    rw [hlayout]
    refine .bind fun l _ => ?_
    cases hc : m.entrance with
    | none => exact .error
    | some c =>
      rw [h.entrance, hc, Option.map_some]
      have hid : (if c.id = id then c.eraseAt k else c).id = c.id := by split <;> rfl
      have hname : f'.name = m.name := by rw [h.eq]; rfl
      show Follows _ (enterBlock prog _ ⟨m.name, c.id, 0, l.vars, s.top⟩ _ none c.id)
        (enterBlock prog' _ ⟨f'.name, (if c.id = id then c.eraseAt k else c).id, 0, l.vars, s.top⟩
          _ none (if c.id = id then c.eraseAt k else c).id)
      rw [hid, hname]
      exact enterBlock_erase hwf hp hph h rfl rfl .refl hfrs (fun hn => absurd rfl hn) c.id
  · rw [if_neg hmf]
    refine .bind fun l _ => .bind fun c _ => ?_
    exact enterBlock_erase hwf hp hph h rfl rfl .refl hfrs (fun hn => absurd rfl hn) c.id

/-! ## Instructions and exits -/

theorem execUnary_near {D : Var → Prop} {sc sc' : Scope} {u : UnaryInst} (hsc : sc.Near D sc')
    (hc : Clear env D u.operand) :
    execUnary { s with frames := frs } sc' u = execUnary s sc u := by
  unfold execUnary
  rw [hsc.viewOf hc, hsc.resultType]

/-- Both runs execute an instruction that they both have. -/
theorem execInst_erase (hwf : prog.WellFormed env) (hp : prog.Replaces prog' f f')
    (hph : f.PhisPlaced) (h : f.Erases f' id k b i r) (hs : s.frames = fr :: rest)
    (htw : Twin env f id k r fr fr') (hrest : List.Forall₂ (Twin env f id k r) rest rest')
    (hat : ¬(fr.func = f.name ∧ fr.block = id ∧ fr.idx = k)) {j : Inst}
    (hc : ∀ x ∈ j.used, Clear env (Dead env f r fr.func) x) :
    Follows (Beside env f id k r) (execInst prog s fr rest j)
      (execInst prog' { s with frames := fr' :: rest' } fr' rest' j) := by
  have hsc : (s.scope fr).Near (Dead env f r fr.func)
      (State.scope { s with frames := fr' :: rest' } fr') := htw.scope s.globals
  have hadv : ∀ (t : State env) (sc sc' : Scope), sc.Near (Dead env f r fr.func) sc' →
      Beside env f id k r (t.advance fr rest sc)
        (State.advance { t with frames := fr' :: rest' } fr' rest' sc') := by
    intro t sc sc' hn
    exact ⟨same_of hn.globals rfl rfl rfl rfl rfl, .cons (htw.advance hat hn) hrest⟩
  cases j with
  | phi p => exact .error
  | unary u =>
    have hu : execUnary { s with frames := fr' :: rest' }
        (State.scope { s with frames := fr' :: rest' } fr') u = execUnary s (s.scope fr) u :=
      execUnary_near hsc (hc _ (by simp [Inst.used]))
    show Follows _ (execUnary s (s.scope fr) u >>= _) (execUnary _ _ u >>= _)
    rw [hu]
    exact .bind fun w _ => .ok (hadv s _ _ hsc.setVar)
  | binary j =>
    show Follows _ (viewOf env (s.scope fr) j.lhs >>= fun _ => viewOf env (s.scope fr) j.rhs >>=
      fun _ => resultType env (s.scope fr) j.result >>= _) (viewOf env _ j.lhs >>= _)
    rw [hsc.viewOf (hc j.lhs (by simp [Inst.used])), hsc.viewOf (hc j.rhs (by simp [Inst.used])),
      hsc.resultType]
    refine .bind fun lhs _ => .bind fun rhs _ => .bind fun dest _ => ?_
    split_ifs
    · exact .bind fun mem _ => .ok (hadv { s with mem := mem } _ _ hsc)
    · exact .bind fun w _ => .ok (hadv s _ _ hsc.setVar)
  | call c =>
    have hargs : c.args.mapM (viewOf env (State.scope { s with frames := fr' :: rest' } fr')) =
        c.args.mapM (viewOf env (s.scope fr)) :=
      Except.mapM_congr fun x hx => hsc.viewOf (hc x hx)
    show Follows _ (resultType env (s.scope fr) c.result >>= fun _ =>
      c.args.mapM (viewOf env (s.scope fr)) >>= _) (resultType env _ c.result >>= _)
    rw [hargs, hsc.resultType]
    refine .bind fun dest _ => .bind fun args _ => ?_
    cases c.func.defn with
    | alloc a => exact .error
    | builtin name =>
      dsimp only
      -- the builtin does the same in both states
      refine (execBuiltin_frames name dest args).follows.andThen ?_
      rintro ⟨t, w⟩ _ - - rfl
      refine .ok (hadv t _ _ ?_)
      cases w with
      | none => exact hsc
      | some w => exact hsc.setVar
    | func name =>
      dsimp only
      rw [hp.funcs]
      cases hm : prog.findFunc name with
      | none => exact .error
      | some m =>
        have hname : m.name = name := findFunc_name hm
        have hfrs : List.Forall₂ (Twin env f id k r) s.frames (fr' :: rest') := by
          rw [hs]
          exact .cons htw hrest
        have henter := enterFunc_erase hwf hp hph h hfrs (findFunc_self hm) args
        rw [hname] at henter
        split_ifs at henter ⊢
        · exact henter
        · exact henter

/-- The instruction that a frame waits at stands in both blocks. -/
theorem get_facing {c c' : Block} (htw : Twin env f id k r fr fr')
    (hat : ¬(fr.func = f.name ∧ fr.block = id ∧ fr.idx = k))
    (hcc : Facing f id k b fr.func fr.block c c') :
    c'.insts[fr'.idx]? = c.insts[fr.idx]? ∧ c'.exit = c.exit := by
  rw [htw.idx]
  cases hcc with
  | same _ hn => rw [newIdx_of_not hn]; exact ⟨rfl, rfl⟩
  | erased hn ht =>
    refine ⟨?_, rfl⟩
    have hne : fr.idx ≠ k := fun hk => hat ⟨hn, ht, hk⟩
    rw [hn, ht, newIdx_self]
    split
    · rw [Block.get_eraseAt_ge (by omega), Nat.sub_add_cancel (by omega)]
    · rw [Block.get_eraseAt_lt (by omega)]

/-- Both runs return. -/
theorem execReturn_erase (hp : prog.Replaces prog' f f') (h : f.Erases f' id k b i r)
    (htw : Twin env f id k r fr fr') (hrest : List.Forall₂ (Twin env f id k r) rest rest')
    (v : View) :
    Follows (Beside env f id k r) (execReturn prog s fr rest v)
      (execReturn prog' { s with frames := frs } fr' rest' v) := by
  cases hrest with
  | nil => exact .bind fun w _ => .ok ⟨rfl, .nil⟩
  | @cons caller caller' rest rest' hcaller hrest =>
    have hsc : (s.scope caller).Near (Dead env f r caller.func)
        (State.scope { s with frames := frs } caller') := hcaller.scope s.globals
    have hblock := blockAt_facing hp h hcaller.func caller.block
    show Follows _ (blockAt prog caller caller.block >>= _) (blockAt prog' caller' caller'.block >>= _)
    rw [hcaller.block]
    refine hblock.andThen fun c c' hc _ hcc => ?_
    intro out hout
    obtain ⟨res, hres, hout⟩ := Except.bind_eq_ok.1 hout
    obtain ⟨dest, hdest, hout⟩ := Except.bind_eq_ok.1 hout
    obtain ⟨w, hw, hout⟩ := Except.bind_eq_ok.1 hout
    cases hout
    -- the caller waits at a call, which is not the erased instruction
    have hat : ¬(caller.func = f.name ∧ caller.block = id ∧ caller.idx = k) := by
      rintro ⟨hf, ht, hk⟩
      cases hcc with
      | same _ hn => exact hn ⟨hf, ht⟩
      | erased _ _ =>
        obtain ⟨j, hj, -⟩ := callResult_eq_some (deref_eq_ok.1 hres)
        rw [hk, h.inst] at hj
        cases hj
        have hpure := h.pure
        cases hpure
    rw [← (get_facing hcaller hat hcc).1] at hres
    rw [← hsc.resultType] at hdest
    refine ⟨_, Except.bind_eq_ok.2 ⟨res, hres, Except.bind_eq_ok.2 ⟨dest, hdest,
      Except.bind_eq_ok.2 ⟨w, hw, rfl⟩⟩⟩, ?_⟩
    have hset : (setVar env _ res w).Near _ (setVar env _ res w) := hsc.setVar
    exact ⟨same_of hset.globals rfl htw.base rfl rfl rfl, .cons (hcaller.advance hat hset) hrest⟩

/-- Both runs leave their block. -/
theorem execExit_erase (hwf : prog.WellFormed env) (hp : prog.Replaces prog' f f')
    (hph : f.PhisPlaced) (h : f.Erases f' id k b i r) (htw : Twin env f id k r fr fr')
    (hrest : List.Forall₂ (Twin env f id k r) rest rest')
    (hl : fr.func = f.name → (fr.vars (env.slotOf r.var)).isSome) {e : Exit}
    (hc : ∀ x, e.used = some x → Clear env (Dead env f r fr.func) x) :
    Follows (Beside env f id k r) (execExit prog s fr rest e)
      (execExit prog' { s with frames := frs } fr' rest' e) := by
  have hsc : (s.scope fr).Near (Dead env f r fr.func)
      (State.scope { s with frames := frs } fr') := htw.scope s.globals
  have henter : ∀ t, Follows (Beside env f id k r)
      (enterBlock prog s fr rest (some fr.block) t)
      (enterBlock prog' { s with frames := frs } fr' rest' (some fr'.block) t) := by
    intro t
    rw [htw.block]
    exact enterBlock_erase hwf hp hph h htw.func htw.base htw.vars hrest (fun _ => hl) t
  cases e with
  | jump t => exact henter t
  | branch cond t t' =>
    show Follows _ (viewOf env (s.scope fr) cond >>= _) (viewOf env _ cond >>= _)
    rw [hsc.viewOf (hc cond rfl)]
    exact .bind fun v _ => .bind fun x _ => henter _
  | ret exp =>
    show Follows _ (viewOf env (s.scope fr) exp >>= _) (viewOf env _ exp >>= _)
    rw [hsc.viewOf (hc exp rfl)]
    exact .bind fun v _ => execReturn_erase hp h htw hrest v

/-! ## Steps -/

/-- The running frame is at the erased instruction. -/
def At (f : Func) (id : BlockId) (k : Nat) (s : State env) : Prop :=
  ∃ fr ∈ s.frames.head?, fr.func = f.name ∧ fr.block = id ∧ fr.idx = k

instance (f : Func) (id : BlockId) (k : Nat) (s : State env) : Decidable (At f id k s) :=
  match hs : s.frames.head? with
  | none => .isFalse (by rintro ⟨fr, hfr, -⟩; rw [hs] at hfr; cases hfr)
  | some fr => decidable_of_iff (fr.func = f.name ∧ fr.block = id ∧ fr.idx = k) (by simp [At, hs])

/-- A step of both runs. -/
theorem exec_other (hwf : prog.WellFormed env) (hp : prog.Replaces prog' f f')
    (hph : f.PhisPlaced) (h : f.Erases f' id k b i r) {s' : State env}
    (hR : Beside env f id k r s s') (hat : ¬At f id k s)
    (hl : ∀ fr ∈ s.frames, fr.func = f.name → (fr.vars (env.slotOf r.var)).isSome) :
    Follows (Beside env f id k r) (exec prog s) (exec prog' s') := by
  obtain ⟨hsame, hfrs⟩ := hR
  unfold exec
  generalize hs' : s'.frames = frs' at hfrs
  cases hs : s.frames with
  | nil => exact .error
  | cons fr rest =>
    rw [hs] at hfrs
    cases hfrs with
    | @cons _ fr' _ rest' htw hrest =>
      rw [hs'] at hsame
      subst hsame
      have hnot : ¬(fr.func = f.name ∧ fr.block = id ∧ fr.idx = k) := fun hc =>
        hat ⟨fr, by simp [hs], hc⟩
      have hblock := blockAt_facing hp h htw.func fr.block
      show Follows _ (blockAt prog fr fr.block >>= _) (blockAt prog' fr' fr'.block >>= _)
      rw [htw.block]
      refine hblock.andThen fun c c' hc _ hcc => ?_
      obtain ⟨hget, hexit⟩ := get_facing htw hnot hcc
      obtain ⟨hinsts, hexits⟩ := clear_block hwf hp h hc
      unfold execAt
      rw [hget, hexit]
      cases hj : c.insts[fr.idx]? with
      | some j =>
        exact execInst_erase hwf hp hph h hs htw hrest hnot (hinsts j (List.mem_of_getElem? hj))
      | none =>
        refine .bind fun e he => ?_
        exact execExit_erase hwf hp hph h htw hrest (hl fr (by simp [hs]))
          (hexits e (deref_eq_ok.1 he))

/-- The step that only the first run takes. -/
theorem exec_self (hp : prog.Replaces prog' f f') (h : f.Erases f' id k b i r) {s' t : State env}
    (hR : Beside env f id k r s s') (hat : At f id k s)
    (hl : ∀ fr ∈ s.frames, fr.func = f.name → (fr.vars (env.slotOf r.var)).isSome)
    (he : exec prog s = .ok t) : Beside env f id k r t s' ∧ ¬At f id k t := by
  obtain ⟨fr, hfr, hf, ht, hk⟩ := hat
  obtain ⟨rest, hs⟩ := List.head?_eq_some_iff.1 (Option.mem_def.1 hfr)
  obtain ⟨hsame, hfrs⟩ := hR
  generalize hs' : s'.frames = frs' at hfrs hsame
  rw [hs] at hfrs
  cases hfrs with
  | @cons _ fr' _ rest' htw hrest =>
    have hexec : execInst prog s fr rest i = .ok t := by
      unfold exec at he
      rw [hs] at he
      obtain ⟨c, hc, he⟩ := Except.bind_eq_ok.1 he
      rw [(blockAt_self hp hf _).1, ht, h.block] at hc
      cases hc
      unfold execAt at he
      rw [hk, h.inst] at he
      exact he
    -- the step goes behind the instruction and writes its result
    obtain ⟨w, hw⟩ : ∃ w, t = s.advance fr rest (setVar env (s.scope fr) (some r) w) := by
      have hres := h.result
      have hpure := h.pure
      cases i with
      | phi p => cases hexec
      | call c => cases hpure
      | unary u =>
        obtain ⟨w, -, hexec⟩ := Except.bind_eq_ok.1 hexec
        cases hexec
        exact ⟨w, by rw [show u.result = some r from hres]⟩
      | binary j =>
        obtain ⟨lhs, -, hexec⟩ := Except.bind_eq_ok.1 hexec
        obtain ⟨rhs, -, hexec⟩ := Except.bind_eq_ok.1 hexec
        obtain ⟨dest, -, hexec⟩ := Except.bind_eq_ok.1 hexec
        have hop : j.op ≠ .store := by simpa [Inst.hasSideEffect] using hpure
        rw [if_neg hop] at hexec
        obtain ⟨w, -, hexec⟩ := Except.bind_eq_ok.1 hexec
        cases hexec
        exact ⟨w, by rw [show j.result = some r from hres]⟩
    subst hw
    have hlocal := hl fr (by simp [hs]) hf
    have hnear : (setVar env (s.scope fr) (some r) w).Near (Dead env f r fr.func)
        ⟨fr'.vars, s.globals⟩ := (htw.scope s.globals).setVar_left ⟨hf, rfl⟩ hlocal
    refine ⟨⟨?_, ?_⟩, ?_⟩
    · rw [hsame]
      show State.mk .. = State.mk ..
      rw [show s.globals = _ from hnear.globals]
      rfl
    · rw [hs']
      refine .cons ⟨htw.func, htw.block, htw.base, ?_, hnear.vars⟩ hrest
      show fr'.idx = newIdx f id k fr.func fr.block (fr.idx + 1)
      rw [htw.idx, hf, ht, hk, newIdx_self, newIdx_self, if_neg (Nat.lt_irrefl k),
        if_pos (Nat.lt_succ_self k), Nat.add_sub_cancel]
    · rintro ⟨fr₁, hfr₁, -, -, hk₁⟩
      cases hfr₁
      have hsucc : fr.idx + 1 = k := hk₁
      omega

end Run

end Erase

/-! ## The whole run -/

/-- On safe inputs an erased definition is not missed. -/
theorem safeMeaning_erase {env : Env} {prog : Program} {f f' : Func} {id : BlockId} {k : Nat}
    {b : Block} {i : Inst} {r : LeftValue} (hwf : prog.WellFormed env)
    (hf : prog.findFunc f.name = some f) (hph : f.PhisPlaced) (h : f.Erases f' id k b i r) :
    SafeMeaning env prog (prog.replaceFunc f') := by
  intro input hsafe
  have hp : prog.Replaces (prog.replaceFunc f') f f' := Program.replaces hf (by rw [h.eq]; rfl)
  let good : String → BlockId → BlockId → Prop := fun _ _ _ => True
  let K : Func → BlockId × Nat → Scope → Prop := fun _ _ _ => True
  have hflow : ∀ l, layoutGlobals env.float prog.globals = .ok l → Flow prog good K l.vars env :=
    fun l hl => ⟨typed_layoutGlobals hwf hl, fun _ _ _ _ _ _ _ _ => trivial,
      fun _ _ _ _ _ _ _ _ _ _ _ _ => trivial⟩
  let R : State env → State env → Prop := fun s s' => Erase.Beside env f id k r s s' ∧
    ∃ l, layoutGlobals env.float prog.globals = .ok l ∧ RunInv prog K l.vars s
  -- the slot of the erased variable is in the frames of its function
  have hlocal : ∀ s : State env, (∃ l, layoutGlobals env.float prog.globals = .ok l ∧
      RunInv prog K l.vars s) → ∀ fr ∈ s.frames, fr.func = f.name →
      (fr.vars (env.slotOf r.var)).isSome := by
    rintro s ⟨l, -, hi⟩ fr hfr hname
    obtain ⟨g, hg, -, hty, -⟩ := hi.frames fr hfr
    rw [hname, hf] at hg
    cases hg
    have hmem := Program.mem_of_findFunc hf
    rw [show fr.vars = (s.scope fr).vars from rfl, hty.vars.isSome]
    exact (hwf.typed f hmem).results id b h.block i (List.mem_of_getElem? h.inst) r h.result
  refine obsEq_of_follows (fun s => if Erase.At f id k s then 1 else 0) hsafe
    (R := R) ?_ ?_ ?_
  · rintro s s' ⟨hR, -⟩
    rw [hR.same]
    exact ⟨rfl, rfl⟩
  · intro s hs
    obtain ⟨l, hl, hs'⟩ := Except.bind_eq_ok.1 hs
    obtain ⟨m, hm, hs'⟩ := Except.bind_eq_ok.1 hs'
    have hm' := deref_eq_ok.1 hm
    have hname := findFunc_name hm'
    obtain ⟨t, ht, hR⟩ := Erase.enterFunc_erase hwf hp hph h .nil (findFunc_self hm')
      [] s hs'
    refine ⟨t, ?_, hR, l, hl, RunInv.start hwf hl (hflow l hl) hs⟩
    refine Except.bind_eq_ok.2 ⟨l, hl, Except.bind_eq_ok.2 ⟨_, ?_, ht⟩⟩
    rw [deref_eq_ok, hp.funcs, hname]
    split
    · rfl
    · exact hm'
  · rintro s s' t ⟨hR, hi⟩ hlive he
    have hloc := hlocal s hi
    obtain ⟨l, hl, hi⟩ := hi
    have hi' := hi.exec hwf (hflow l hl) (fun _ _ _ _ _ _ _ _ _ _ => trivial) he
    by_cases hat : Erase.At f id k s
    · obtain ⟨hR', hat'⟩ := Erase.exec_self hp h hR hat hloc he
      refine .inr ⟨⟨hR', l, hl, hi'⟩, ?_⟩
      rw [if_pos hat, if_neg hat']
      exact Nat.one_pos
    · obtain ⟨t', ht', hR'⟩ := Erase.exec_other hwf hp hph h hR hat hloc t he
      exact .inl ⟨t', ht', hR', l, hl, hi'⟩

end Vm
end Ir
end Cact
