import Cact.Ir.Laws

/-!
# Replacing operands

The values that instructions and exits read are replaced one by one, and nothing else
changes: the same instructions stand in the same places and define the same variables.
If the replaced values read the same in the states of a run, the run stays the same.

- `Inst.mapUsed` … `Program.mapUsed`: the replacement.
- `Func.graph_mapUsed`, `Program.alike_mapUsed`: what it leaves alone.
- `exec_mapUsed`: the same step, when the operands read the same.
- `Program.WellFormed.mapUsed`: well-formed programs stay well formed.
-/

namespace Cact

namespace Ir

def PhiInst.mapUsed (g : Value → Value) (p : PhiInst) : PhiInst :=
  { p with args := p.args.map fun a => (a.1, g a.2) }

/-- The instruction with every operand replaced. -/
def Inst.mapUsed (g : Value → Value) : Inst → Inst
  | phi p => phi (p.mapUsed g)
  | unary u => unary { u with operand := g u.operand }
  | binary b => binary { b with lhs := g b.lhs, rhs := g b.rhs }
  | call c => call { c with args := c.args.map g }

def Exit.mapUsed (g : Value → Value) : Exit → Exit
  | branch c t f => branch (g c) t f
  | jump t => jump t
  | ret e => ret (g e)

def Block.mapUsed (g : Value → Value) (b : Block) : Block :=
  { b with insts := b.insts.map (Inst.mapUsed g), exit := b.exit.map (Exit.mapUsed g) }

def Func.mapUsed (g : Value → Value) (f : Func) : Func :=
  { f with blocks := f.blocks.map (Block.mapUsed g) }

/-- The replacement may differ from function to function. -/
def Program.mapUsed (g : String → Value → Value) (p : Program) : Program :=
  { p with funcs := p.funcs.map fun f => f.mapUsed (g f.name) }

/-- The values a function reads. -/
def Func.operands (f : Func) : List Value :=
  f.blocks.flatMap fun b => b.insts.flatMap Inst.used ++ (b.exit.bind Exit.used).toList

/-! ## Where values stand -/

theorem PhiInst.value_mem {p : PhiInst} {b : BlockId} {x : Value} (h : p.value b = .ok x) :
    ∃ a ∈ p.args, a.2 = x := by
  unfold PhiInst.value at h
  split at h
  · rename_i a ha
    exact ⟨a, List.mem_of_find?_eq_some ha, Except.ok.inj h⟩
  · cases h

namespace Func

variable {f : Func} {id : BlockId} {b : Block} {i : Inst} {x : Value}

theorem operand_of_used (hb : f.block? id = some b) (hi : i ∈ b.insts) (hx : x ∈ i.used) :
    x ∈ f.operands :=
  List.mem_flatMap.2 ⟨b, (mem_of_block? hb).1, List.mem_append_left _ (List.mem_flatMap.2 ⟨i, hi, hx⟩)⟩

theorem operand_of_exit {e : Exit} (hb : f.block? id = some b) (he : b.exit = some e)
    (hx : e.used = some x) : x ∈ f.operands :=
  List.mem_flatMap.2 ⟨b, (mem_of_block? hb).1, List.mem_append_right _ (by simp [he, hx])⟩

/-- What a point reads stands in an instruction or an exit. -/
theorem mentions_of_usedAt {p : BlockId × Nat} {u : LeftValue} (h : f.UsedAt p u) :
    f.Mentions (.left u) := by
  cases h with
  | inst hb hi hp hv =>
    obtain ⟨x, hx, hxv⟩ := List.mem_filterMap.1 hv
    cases x with
    | const c => cases hxv
    | left w =>
      cases hxv
      exact .used hb (List.mem_of_getElem? hi) hx
  | exit hb he hv => exact .exit hb he hv
  | phi hb ht hb' hp hv =>
    obtain ⟨a, ha, hav⟩ := PhiInst.value_mem hv
    exact .used hb' (Block.mem_insts_of_mem_phis hp) (hav ▸ List.mem_map_of_mem ha)

theorem operand_of_usedAt {p : BlockId × Nat} {u : LeftValue} (h : f.UsedAt p u) :
    .left u ∈ f.operands := by
  cases h with
  | inst hb hi hp hv =>
    obtain ⟨x, hx, hxv⟩ := List.mem_filterMap.1 hv
    cases x with
    | const c => cases hxv
    | left w =>
      cases hxv
      exact operand_of_used hb (List.mem_of_getElem? hi) hx
  | exit hb he hv => exact operand_of_exit hb he hv
  | phi hb ht hb' hp hv =>
    obtain ⟨a, ha, hav⟩ := PhiInst.value_mem hv
    exact operand_of_used hb' (Block.mem_insts_of_mem_phis hp) (hav ▸ List.mem_map_of_mem ha)

theorem exists_mention_of_defsAt {q : Point} {v : Var} (hd : f.defsAt q v) :
    ∃ t, f.Mentions (.left ⟨t, v⟩) := by
  cases q with
  | none => cases hd
  | some q =>
    obtain ⟨b, hb, hv⟩ := hd
    obtain ⟨j, i, r, hj, hir, rfl, -⟩ := Block.mem_defsAt hv
    exact ⟨r.type, .result hb (List.mem_of_getElem? hj) hir⟩

end Func

/-! ## What the replacement leaves alone -/

namespace Inst

variable {g : Value → Value} {i : Inst}

@[simp] theorem definedVar_mapUsed : (i.mapUsed g).definedVar = i.definedVar := by
  cases i <;> rfl

@[simp] theorem isPhi_mapUsed : (i.mapUsed g).isPhi = i.isPhi := by cases i <;> rfl

@[simp] theorem used_mapUsed : (i.mapUsed g).used = i.used.map g := by
  cases i with
  | phi p => simp [mapUsed, used, PhiInst.mapUsed]
  | _ => rfl

@[simp] theorem callResult_mapUsed : Vm.callResult (i.mapUsed g) = Vm.callResult i := by
  cases i <;> rfl

end Inst

namespace Exit

variable {g : Value → Value} {e : Exit}

@[simp] theorem targets_mapUsed : (e.mapUsed g).targets = e.targets := by cases e <;> rfl

@[simp] theorem used_mapUsed : (e.mapUsed g).used = e.used.map g := by cases e <;> rfl

end Exit

namespace Block

variable {g : Value → Value} {b : Block}

@[simp] theorem id_mapUsed : (b.mapUsed g).id = b.id := rfl

@[simp] theorem insts_mapUsed : (b.mapUsed g).insts = b.insts.map (Inst.mapUsed g) := rfl

@[simp] theorem exit_mapUsed : (b.mapUsed g).exit = b.exit.map (Exit.mapUsed g) := rfl

@[simp] theorem phis_mapUsed : (b.mapUsed g).phis = b.phis.map (PhiInst.mapUsed g) := by
  unfold phis
  rw [insts_mapUsed]
  induction b.insts with
  | nil => rfl
  | cons i l ih =>
    cases i with
    | phi p => exact congrArg (List.cons (p.mapUsed g)) ih
    | _ => rfl

@[simp] theorem targets_mapUsed : (b.mapUsed g).targets = b.targets := by
  unfold targets
  rw [exit_mapUsed]
  cases b.exit <;> simp

theorem defsAt_mapUsed (k : Nat) : (b.mapUsed g).defsAt k = b.defsAt k := by
  unfold defsAt
  simp [List.filterMap_map, Function.comp_def, PhiInst.mapUsed, Option.bind_map]

theorem alike_mapUsed : b.Alike (b.mapUsed g) where
  id := rfl
  phis := by simp
  length := by simp
  calls k := by simp [Option.bind_map]
  exit := by simp

end Block

namespace Func

variable {g : Value → Value} {f : Func}

theorem block?_mapUsed (id : BlockId) :
    (f.mapUsed g).block? id = (f.block? id).map (Block.mapUsed g) := by
  unfold block? mapUsed
  rw [List.find?_map]
  rfl

theorem entrance_mapUsed : (f.mapUsed g).entrance = f.entrance.map (Block.mapUsed g) := by
  unfold entrance mapUsed
  rw [List.head?_map]

theorem alike_mapUsed : f.Alike (f.mapUsed g) where
  name := rfl
  params := rfl
  locals := rfl
  temps := rfl
  blocks := by
    unfold mapUsed
    rw [List.forall₂_map_right_iff, List.forall₂_same]
    exact fun b _ => b.alike_mapUsed

theorem edge_mapUsed {p q : Point} (h : f.Edge p q) : (f.mapUsed g).Edge p q := by
  cases h with
  | @call b hb hp =>
    exact .call (b := b.mapUsed g) (by rw [entrance_mapUsed, hb]; rfl) (by simp [hp])
  | @inst id b k i hb hi hp =>
    refine .inst (b := b.mapUsed g) (i := i.mapUsed g) (by rw [block?_mapUsed, hb]; rfl) ?_ ?_
    · simp [hi]
    · simpa using hp
  | @jump id t b b' hb ht hb' =>
    have hjump : (f.mapUsed g).Edge (some (id, (b.mapUsed g).insts.length))
        (some (t, (b'.mapUsed g).phis.length)) :=
      .jump (by rw [block?_mapUsed, hb]; rfl) (by simpa using ht) (by rw [block?_mapUsed, hb']; rfl)
    simpa using hjump

theorem of_edge_mapUsed {p q : Point} (h : (f.mapUsed g).Edge p q) : f.Edge p q := by
  cases h with
  | call hb hp =>
    rw [entrance_mapUsed] at hb
    obtain ⟨c, hc, rfl⟩ := Option.map_eq_some_iff.1 hb
    rw [Block.phis_mapUsed, List.map_eq_nil_iff] at hp
    exact Edge.call (b := c) hc hp
  | inst hb hi hp =>
    rw [block?_mapUsed] at hb
    obtain ⟨c, hc, rfl⟩ := Option.map_eq_some_iff.1 hb
    rw [Block.insts_mapUsed, List.getElem?_map] at hi
    obtain ⟨j, hj, rfl⟩ := Option.map_eq_some_iff.1 hi
    exact .inst hc hj (by simpa using hp)
  | jump hb ht hb' =>
    rw [block?_mapUsed] at hb hb'
    obtain ⟨c, hc, rfl⟩ := Option.map_eq_some_iff.1 hb
    obtain ⟨c', hc', rfl⟩ := Option.map_eq_some_iff.1 hb'
    simpa using Edge.jump hc (by simpa using ht) hc'

theorem defsAt_mapUsed : (f.mapUsed g).defsAt = f.defsAt := by
  funext p v
  cases p with
  | none => rfl
  | some p =>
    show (∃ b, (f.mapUsed g).block? p.1 = some b ∧ v ∈ b.defsAt p.2) =
      ∃ b, f.block? p.1 = some b ∧ v ∈ b.defsAt p.2
    rw [block?_mapUsed]
    cases f.block? p.1 <;> simp [Block.defsAt_mapUsed]

/-- The points and the definitions stay where they are. -/
theorem graph_mapUsed : (f.mapUsed g).graph = f.graph := by
  have hedge : (f.mapUsed g).Edge = f.Edge := by
    funext p q
    exact propext ⟨of_edge_mapUsed, edge_mapUsed⟩
  unfold graph
  congr 1
  exact defsAt_mapUsed

theorem operands_mapUsed : (f.mapUsed g).operands = f.operands.map g := by
  unfold operands mapUsed
  rw [List.flatMap_map, List.map_flatMap]
  refine List.flatMap_congr fun b _ => ?_
  rw [List.map_append, List.map_flatMap, Block.insts_mapUsed, List.flatMap_map, Block.exit_mapUsed]
  congr 1
  · exact List.flatMap_congr fun i _ => Inst.used_mapUsed
  · cases b.exit with
    | none => rfl
    | some e => cases e <;> rfl

theorem results_mapUsed : (f.mapUsed g).results = f.results := by
  unfold results mapUsed
  simp [List.flatMap_map, List.filterMap_map]

end Func

namespace Program

variable {g : String → Value → Value} {p : Program}

theorem alike_mapUsed : p.Alike (p.mapUsed g) where
  globals := rfl
  funcs := by
    unfold mapUsed
    rw [List.forall₂_map_right_iff, List.forall₂_same]
    exact fun f _ => f.alike_mapUsed

theorem findFunc_mapUsed {name : String} {f : Func} (h : p.findFunc name = some f) :
    (p.mapUsed g).findFunc name = some (f.mapUsed (g name)) := by
  have hname := Vm.findFunc_name h
  unfold findFunc mapUsed at *
  rw [List.find?_map]
  have hfind : (p.funcs.find? ((fun f => f.name == name) ∘ fun f => f.mapUsed (g f.name))) = some f := h
  rw [hfind, Option.map_some, hname]

end Program

/-! ## Composition -/

section Compose

variable {g g' : Value → Value}

theorem Inst.mapUsed_mapUsed (i : Inst) : (i.mapUsed g).mapUsed g' = i.mapUsed (g' ∘ g) := by
  cases i <;> simp [mapUsed, PhiInst.mapUsed]

theorem Exit.mapUsed_mapUsed (e : Exit) : (e.mapUsed g).mapUsed g' = e.mapUsed (g' ∘ g) := by
  cases e <;> rfl

theorem Block.mapUsed_mapUsed (b : Block) : (b.mapUsed g).mapUsed g' = b.mapUsed (g' ∘ g) := by
  unfold mapUsed
  simp only [List.map_map, Option.map_map]
  congr 1
  · exact List.map_congr_left fun i _ => i.mapUsed_mapUsed
  · cases b.exit with
    | none => rfl
    | some e => exact congrArg some e.mapUsed_mapUsed

theorem Func.mapUsed_mapUsed (f : Func) : (f.mapUsed g).mapUsed g' = f.mapUsed (g' ∘ g) := by
  unfold mapUsed
  rw [List.map_map]
  congr 1
  exact List.map_congr_left fun b _ => b.mapUsed_mapUsed

theorem Program.mapUsed_mapUsed (p : Program) (g g' : String → Value → Value) :
    (p.mapUsed g).mapUsed g' = p.mapUsed fun n => g' n ∘ g n := by
  unfold mapUsed
  rw [List.map_map]
  congr 1
  exact List.map_congr_left fun f _ => f.mapUsed_mapUsed

theorem Inst.mapUsed_congr {i : Inst} (h : ∀ x ∈ i.used, g x = g' x) :
    i.mapUsed g = i.mapUsed g' := by
  cases i with
  | phi p =>
    have hargs : p.args.map (fun a => (a.1, g a.2)) = p.args.map fun a => (a.1, g' a.2) :=
      List.map_congr_left fun a ha => by rw [h a.2 (List.mem_map_of_mem ha)]
    simp only [mapUsed, PhiInst.mapUsed, hargs]
  | unary u => simp [mapUsed, h u.operand (by simp [used])]
  | binary b => simp [mapUsed, h b.lhs (by simp [used]), h b.rhs (by simp [used])]
  | call c =>
    have hargs : c.args.map g = c.args.map g' := List.map_congr_left h
    simp [mapUsed, hargs]

theorem Exit.mapUsed_congr {e : Exit} (h : ∀ x ∈ e.used, g x = g' x) :
    e.mapUsed g = e.mapUsed g' := by
  cases e with
  | jump t => rfl
  | branch c t f => exact congrArg (branch · t f) (h c rfl)
  | ret v => exact congrArg ret (h v rfl)

/-- Only what is done to the operands counts. -/
theorem Func.mapUsed_congr {f : Func} (h : ∀ x ∈ f.operands, g x = g' x) :
    f.mapUsed g = f.mapUsed g' := by
  unfold mapUsed
  congr 1
  refine List.map_congr_left fun b hb => ?_
  unfold Block.mapUsed
  congr 1
  · refine List.map_congr_left fun i hi => Inst.mapUsed_congr fun x hx => h x ?_
    exact List.mem_flatMap.2 ⟨b, hb, List.mem_append_left _ (List.mem_flatMap.2 ⟨i, hi, hx⟩)⟩
  · cases he : b.exit with
    | none => rfl
    | some e =>
      refine congrArg some (Exit.mapUsed_congr fun x hx => h x ?_)
      refine List.mem_flatMap.2 ⟨b, hb, List.mem_append_right _ ?_⟩
      rw [he]
      exact Option.mem_toList.2 hx

theorem Inst.mapUsed_id (i : Inst) : i.mapUsed (fun x => x) = i := by
  cases i <;> simp [mapUsed, PhiInst.mapUsed]

theorem Func.mapUsed_id (f : Func) : f.mapUsed (fun x => x) = f := by
  have hblock : ∀ b : Block, b.mapUsed (fun x => x) = b := by
    intro b
    have hinsts : b.insts.map (Inst.mapUsed fun x => x) = b.insts :=
      List.map_id'' Inst.mapUsed_id b.insts
    have hexit : b.exit.map (Exit.mapUsed fun x => x) = b.exit := by
      cases b.exit with
      | none => rfl
      | some e => cases e <;> rfl
    unfold Block.mapUsed
    rw [hinsts, hexit]
  unfold mapUsed
  rw [List.map_id'' hblock]

theorem Func.mapUsed_eq_self {f : Func} (h : ∀ x ∈ f.operands, g x = x) : f.mapUsed g = f :=
  (mapUsed_congr h).trans f.mapUsed_id

theorem Program.mapUsed_eq_self {p : Program} {g : String → Value → Value}
    (h : ∀ f ∈ p.funcs, ∀ x ∈ f.operands, g f.name x = x) : p.mapUsed g = p := by
  have hfuncs : p.funcs.map (fun f => f.mapUsed (g f.name)) = p.funcs := by
    conv_rhs => rw [← List.map_id p.funcs]
    exact List.map_congr_left fun f hf => Func.mapUsed_eq_self (h f hf)
  unfold mapUsed
  rw [hfuncs]

theorem Func.mentions_of_operand {f : Func} (hs : f.Ssa) {x : Value} (hx : x ∈ f.operands) :
    f.Mentions x := by
  obtain ⟨b, hb, hx⟩ := List.mem_flatMap.1 hx
  have hself := block?_self hs hb
  rcases List.mem_append.1 hx with hx | hx
  · obtain ⟨i, hi, hx⟩ := List.mem_flatMap.1 hx
    exact .used hself hi hx
  · obtain ⟨e, he, hx⟩ := Option.bind_eq_some_iff.1 (Option.mem_toList.1 hx)
    exact .exit hself he hx

end Compose

/-! ## The same run -/

namespace Vm

section Exec

variable {env : Env} {prog : Program} {s : State env} {fr : Frame} {rest : List Frame}
  {g : Value → Value}

/-- An instruction whose operands read the same does the same. -/
theorem execInst_mapUsed {i : Inst}
    (h : i.isPhi = false → ∀ x ∈ i.used, viewOf env (s.scope fr) (g x) = viewOf env (s.scope fr) x) :
    execInst prog s fr rest (i.mapUsed g) = execInst prog s fr rest i := by
  cases i with
  | phi p => rfl
  | unary u =>
    have hu := h rfl u.operand (by simp [Inst.used])
    unfold execInst execUnary
    dsimp only [Inst.mapUsed]
    rw [hu]
  | binary b =>
    have hl := h rfl b.lhs (by simp [Inst.used])
    have hr := h rfl b.rhs (by simp [Inst.used])
    unfold execInst
    dsimp only [Inst.mapUsed]
    rw [hl, hr]
  | call c =>
    have hargs : (c.args.map g).mapM (viewOf env (s.scope fr)) =
        c.args.mapM (viewOf env (s.scope fr)) := by
      rw [List.mapM_map]
      exact Except.mapM_congr fun x hx => h rfl x hx
    unfold execInst
    dsimp only [Inst.mapUsed]
    rw [hargs]

theorem execExit_mapUsed {e : Exit}
    (h : ∀ x ∈ e.used, viewOf env (s.scope fr) (g x) = viewOf env (s.scope fr) x) :
    execExit prog s fr rest (e.mapUsed g) = execExit prog s fr rest e := by
  cases e with
  | jump t => rfl
  | branch c t f =>
    unfold execExit
    dsimp only [Exit.mapUsed]
    rw [h c rfl]
  | ret v =>
    unfold execExit
    dsimp only [Exit.mapUsed]
    rw [h v rfl]

theorem value_mapUsed (p : PhiInst) (b : BlockId) : (p.mapUsed g).value b = (p.value b).map g := by
  unfold PhiInst.value PhiInst.mapUsed
  rw [List.find?_map]
  simp only [Function.comp_def]
  cases p.args.find? fun a => a.1 == b <;> rfl

theorem runPhis_mapUsed {sc : Scope} {prev : BlockId} {phis : List PhiInst}
    (h : ∀ p ∈ phis, ∀ x, p.value prev = .ok x → viewOf env sc (g x) = viewOf env sc x) :
    runPhis env sc (some prev) (phis.map (PhiInst.mapUsed g)) = runPhis env sc (some prev) phis := by
  have hread : (phis.map (PhiInst.mapUsed g)).mapM (readPhi env sc prev) =
      phis.mapM (readPhi env sc prev) := by
    rw [List.mapM_map]
    refine Except.mapM_congr fun p hp => ?_
    show readPhi env sc prev (p.mapUsed g) = _
    unfold readPhi
    rw [value_mapUsed]
    cases hv : p.value prev with
    | error e => rfl
    | ok x =>
      show (viewOf env sc (g x) >>= _) = (viewOf env sc x >>= _)
      rw [h p hp x hv]
      rfl
  unfold runPhis
  dsimp only
  rw [hread]

/-- The step of a frame whose operands read the same. -/
theorem exec_mapUsed {K : Func → BlockId × Nat → Scope → Prop} {G : Slots}
    {g : String → Value → Value} (hconst : ∀ n c, g n (.const c) = .const c)
    (hs : RunInv prog K G s)
    (h : ∀ fr ∈ s.frames, ∀ f, prog.findFunc fr.func = some f → ∀ v,
      f.UsedAt (fr.block, fr.idx) v →
      viewOf env (s.scope fr) (g fr.func (.left v)) = viewOf env (s.scope fr) (.left v)) :
    exec (prog.mapUsed g) s = exec prog s := by
  cases hfr : s.frames with
  | nil =>
    unfold exec
    rw [hfr]
  | cons fr rest =>
    have hmem : fr ∈ s.frames := by simp [hfr]
    obtain ⟨f, hf, hr, -⟩ := hs.frames fr hmem
    obtain ⟨b, hb, hle⟩ := reach_le hr
    have hview : ∀ x : Value, (∀ v, x = .left v → f.UsedAt (fr.block, fr.idx) v) →
        viewOf env (s.scope fr) (g fr.func x) = viewOf env (s.scope fr) x := by
      intro x hx
      cases x with
      | const c => rw [hconst]
      | left v => exact h fr hmem f hf v (hx v rfl)
    have hb' : (f.mapUsed (g fr.func)).block? fr.block = some (b.mapUsed (g fr.func)) := by
      rw [Func.block?_mapUsed, hb]
      rfl
    refine exec_alike Program.alike_mapUsed hfr hf (Program.findFunc_mapUsed hf) hb hb' ?_ ?_
    · intro i i' hi hi'
      rw [Block.insts_mapUsed, List.getElem?_map, hi] at hi'
      cases hi'
      refine execInst_mapUsed fun hp x hx => hview x fun v hv => ?_
      subst hv
      exact .inst hb hi hp (List.mem_filterMap.2 ⟨_, hx, rfl⟩)
    · intro e e' hlen he he'
      have hidx : fr.idx = b.insts.length := by omega
      rw [Block.exit_mapUsed, he] at he'
      cases he'
      refine ⟨execExit_mapUsed fun x hx => hview x fun v hv => ?_, ?_⟩
      · rw [hidx]
        exact .exit hb he (hv ▸ hx)
      · intro t ht c c' hc hc'
        rw [Func.block?_mapUsed, hc] at hc'
        cases hc'
        rw [Block.phis_mapUsed]
        refine runPhis_mapUsed fun p hp x hx => hview x fun v hv => ?_
        rw [hidx]
        refine .phi hb ?_ hc hp (hv ▸ hx)
        unfold Block.targets
        rw [he]
        simpa using ht

end Exec

end Vm

/-! ## Well-formed programs -/

section WellFormed

open Vm

variable {env : Env} {prog : Program} {f : Func} {g : Value → Value}

theorem mem_insts_mapUsed {b : Block} {i : Inst} (h : i ∈ (b.mapUsed g).insts) :
    ∃ j ∈ b.insts, j.mapUsed g = i := by
  rw [Block.insts_mapUsed] at h
  exact List.mem_map.1 h

/-- What is read at a point was read there before, or replaces what was. -/
theorem usedAt_mapUsed (hconst : ∀ c, g (.const c) = .const c) {p : BlockId × Nat} {v : LeftValue}
    (h : (f.mapUsed g).UsedAt p v) : ∃ u, f.UsedAt p u ∧ g (.left u) = .left v := by
  have hleft : ∀ {x : Value}, g x = .left v → ∃ u, x = .left u := by
    intro x hx
    cases x with
    | const c =>
      rw [hconst] at hx
      cases hx
    | left u => exact ⟨u, rfl⟩
  cases h with
  | inst hb hi hp hv =>
    rw [Func.block?_mapUsed] at hb
    obtain ⟨c, hc, rfl⟩ := Option.map_eq_some_iff.1 hb
    rw [Block.insts_mapUsed, List.getElem?_map] at hi
    obtain ⟨j, hj, rfl⟩ := Option.map_eq_some_iff.1 hi
    obtain ⟨x, hx, hxv⟩ := List.mem_filterMap.1 hv
    rw [Inst.used_mapUsed] at hx
    obtain ⟨y, hy, rfl⟩ := List.mem_map.1 hx
    have hgy : g y = .left v := by
      cases hgy : g y with
      | const c =>
        rw [hgy] at hxv
        cases hxv
      | left w =>
        rw [hgy] at hxv
        cases hxv
        rfl
    obtain ⟨u, rfl⟩ := hleft hgy
    rw [Inst.isPhi_mapUsed] at hp
    exact ⟨u, .inst hc hj hp (List.mem_filterMap.2 ⟨_, hy, rfl⟩), hgy⟩
  | exit hb he hv =>
    rw [Func.block?_mapUsed] at hb
    obtain ⟨c, hc, rfl⟩ := Option.map_eq_some_iff.1 hb
    rw [Block.exit_mapUsed] at he
    obtain ⟨e, he', rfl⟩ := Option.map_eq_some_iff.1 he
    rw [Exit.used_mapUsed] at hv
    obtain ⟨y, hy, hgy⟩ := Option.map_eq_some_iff.1 hv
    obtain ⟨u, rfl⟩ := hleft hgy
    rw [Block.insts_mapUsed, List.length_map]
    exact ⟨u, .exit hc he' hy, hgy⟩
  | phi hb ht hb' hp hv =>
    rw [Func.block?_mapUsed] at hb hb'
    obtain ⟨c, hc, rfl⟩ := Option.map_eq_some_iff.1 hb
    obtain ⟨c', hc', rfl⟩ := Option.map_eq_some_iff.1 hb'
    rw [Block.phis_mapUsed] at hp
    obtain ⟨q, hq, rfl⟩ := List.mem_map.1 hp
    rw [value_mapUsed] at hv
    cases hy : q.value _ with
    | error e =>
      rw [hy] at hv
      cases hv
    | ok y =>
      rw [hy] at hv
      have hgy : g y = .left v := Except.ok.inj hv
      obtain ⟨u, rfl⟩ := hleft hgy
      rw [Block.insts_mapUsed, List.length_map]
      exact ⟨u, .phi hc (by simpa using ht) hc' hq hy, hgy⟩

theorem mentions_mapUsed {x : Value} (h : (f.mapUsed g).Mentions x) :
    (∃ v, x = .left v ∧ f.Mentions x) ∨ ∃ y, f.Mentions y ∧ g y = x := by
  cases h with
  | used hb hi hx =>
    rw [Func.block?_mapUsed] at hb
    obtain ⟨c, hc, rfl⟩ := Option.map_eq_some_iff.1 hb
    obtain ⟨j, hj, rfl⟩ := mem_insts_mapUsed hi
    rw [Inst.used_mapUsed] at hx
    obtain ⟨y, hy, rfl⟩ := List.mem_map.1 hx
    exact .inr ⟨y, .used hc hj hy, rfl⟩
  | result hb hi hv =>
    rw [Func.block?_mapUsed] at hb
    obtain ⟨c, hc, rfl⟩ := Option.map_eq_some_iff.1 hb
    obtain ⟨j, hj, rfl⟩ := mem_insts_mapUsed hi
    rw [Inst.definedVar_mapUsed] at hv
    exact .inl ⟨_, rfl, .result hc hj hv⟩
  | exit hb he hx =>
    rw [Func.block?_mapUsed] at hb
    obtain ⟨c, hc, rfl⟩ := Option.map_eq_some_iff.1 hb
    rw [Block.exit_mapUsed] at he
    obtain ⟨e, he', rfl⟩ := Option.map_eq_some_iff.1 he
    rw [Exit.used_mapUsed] at hx
    obtain ⟨y, hy, rfl⟩ := Option.map_eq_some_iff.1 hx
    exact .inr ⟨y, .exit hc he' hy, rfl⟩

/-- What may replace the variables of a function: values of the same types that are
ready wherever the replaced variables are read. -/
structure Func.Replaces (f : Func) (g : Value → Value) : Prop where
  const : ∀ c, g (.const c) = .const c
  type : ∀ v, f.Mentions (.left v) → viewType (g (.left v)).typeOf = viewType v.type
  left : ∀ v u, f.Mentions (.left v) → g (.left v) = .left u → f.Mentions (.left u)
  typed : ∀ v c, f.Mentions (.left v) → g (.left v) = .const c → c.WellTyped
  ready : ∀ p v u, f.UsedAt p v → g (.left v) = .left u → f.graph.Ready u.var (some p)

theorem Func.Replaces.type_eq (h : f.Replaces g) {x : Value} (hx : f.Mentions x) :
    viewType (g x).typeOf = viewType x.typeOf := by
  cases x with
  | const c => rw [h.const]
  | left v => exact h.type v hx

theorem Func.Ssa.mapUsed (hs : f.Ssa) (h : f.Replaces g) : (f.mapUsed g).Ssa where
  blocks := by
    have hids : (f.mapUsed g).blocks.map Block.id = f.blocks.map Block.id := by
      unfold Func.mapUsed
      rw [List.map_map]
      rfl
    rw [hids]
    exact hs.blocks
  results := by
    rw [Func.results_mapUsed]
    exact hs.results
  uses p v hv := by
    obtain ⟨u, hu, hgu⟩ := usedAt_mapUsed h.const hv
    rw [Func.graph_mapUsed]
    exact h.ready p u v hu hgu
  args id b t b' hb ht hb' hr p hp := by
    rw [Func.block?_mapUsed] at hb hb'
    obtain ⟨c, hc, rfl⟩ := Option.map_eq_some_iff.1 hb
    obtain ⟨c', hc', rfl⟩ := Option.map_eq_some_iff.1 hb'
    rw [Block.phis_mapUsed] at hp
    obtain ⟨q, hq, rfl⟩ := List.mem_map.1 hp
    rw [Func.graph_mapUsed, Block.insts_mapUsed, List.length_map] at hr
    obtain ⟨x, hx⟩ := hs.args id c t c' hc (by simpa using ht) hc' hr q hq
    exact ⟨g x, by rw [value_mapUsed, hx]; rfl⟩

theorem Func.WellTyped.mapUsed {G : String → Value → Value} (ht : f.WellTyped env prog)
    (h : f.Replaces g) : (f.mapUsed g).WellTyped env (prog.mapUsed G) := by
  have hment : ∀ v, (f.mapUsed g).Mentions (.left v) → f.Mentions (.left v) := by
    intro v hv
    rcases mentions_mapUsed hv with ⟨-, -, hm⟩ | ⟨y, hy, hgy⟩
    · exact hm
    · cases y with
      | const c =>
        rw [h.const] at hgy
        cases hgy
      | left u => exact h.left u v hy hgy
  refine ⟨fun v hv => ht.slots v (hment v hv),
    fun u v hu hv => ht.apart u v (hment u hu) (hment v hv), ?_, ?_, ?_, ?_⟩
  · intro id b hb i hi v hv
    rw [Func.block?_mapUsed] at hb
    obtain ⟨c, hc, rfl⟩ := Option.map_eq_some_iff.1 hb
    obtain ⟨j, hj, rfl⟩ := mem_insts_mapUsed hi
    rw [Inst.definedVar_mapUsed] at hv
    exact ht.results id c hc j hj v hv
  · intro c hc
    rcases mentions_mapUsed hc with ⟨v, hv, -⟩ | ⟨y, hy, hgy⟩
    · cases hv
    · cases y with
      | const c' =>
        rw [h.const] at hgy
        cases hgy
        exact ht.consts c hy
      | left u => exact h.typed u c hy hgy
  · intro id b hb u hu hop r hr
    rw [Func.block?_mapUsed] at hb
    obtain ⟨c, hc, rfl⟩ := Option.map_eq_some_iff.1 hb
    obtain ⟨j, hj, hju⟩ := mem_insts_mapUsed hu
    cases j with
    | unary w =>
      cases hju
      rw [ht.movs id c hc w hj hop r hr]
      exact (h.type_eq (.used hc hj (by simp [Inst.used]))).symm
    | _ => cases hju
  · intro id b hb p hp r hr a ha
    rw [Func.block?_mapUsed] at hb
    obtain ⟨c, hc, rfl⟩ := Option.map_eq_some_iff.1 hb
    obtain ⟨j, hj, hjp⟩ := mem_insts_mapUsed hp
    cases j with
    | phi q =>
      cases hjp
      obtain ⟨a', ha', rfl⟩ := List.mem_map.1 ha
      rw [ht.phis id c hc q hj r hr a' ha']
      exact (h.type_eq (.used hc hj (List.mem_map_of_mem ha'))).symm
    | _ => cases hjp

/-- Well-formed programs stay well formed. -/
theorem Program.WellFormed.mapUsed {g : String → Value → Value} (h : prog.WellFormed env)
    (hg : ∀ f ∈ prog.funcs, f.Replaces (g f.name)) : (prog.mapUsed g).WellFormed env where
  names := by
    have hnames : (prog.mapUsed g).funcs.map Func.name = prog.funcs.map Func.name := by
      unfold Program.mapUsed
      rw [List.map_map]
      rfl
    rw [hnames]
    exact h.names
  allocs := by
    have hallocs : (prog.mapUsed g).funcs.flatMap Func.allocs = prog.funcs.flatMap Func.allocs := by
      unfold Program.mapUsed
      rw [List.flatMap_map]
      rfl
    rw [hallocs]
    exact h.allocs
  ssa f' hf' := by
    obtain ⟨f, hf, rfl⟩ := List.mem_map.1 hf'
    exact (h.ssa f hf).mapUsed (hg f hf)
  typed f' hf' := by
    obtain ⟨f, hf, rfl⟩ := List.mem_map.1 hf'
    exact (h.typed f hf).mapUsed (hg f hf)
  scalars := h.scalars
  inits := h.inits

end WellFormed

end Ir
end Cact
