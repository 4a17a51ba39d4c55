import Cact.Ir.Operands

/-!
# Replacing instructions in their places

Some instructions with one or two operands are replaced by others of this kind that have the
same results. Blocks, phis, calls and exits stay, so the points and the definitions of a
function stay what they are. Where a new instruction reads what is ready there the function
stays in SSA form, and where it does what the old one did the run stays the same.

- `Block.Patched`, `Func.Patched`, `Program.Patched`: the replacement.
- `Func.Patched.graph`, `Program.Patched.alike`: what it leaves alone.
- `Inst.FitsAt`: what a new instruction may read.
- `Program.Patched.wellFormed`: well-formed programs stay well formed.
- `Program.Patched.sameMeaning`: the same run, when the new instructions do the same.
-/

namespace Cact

namespace Ir

/-- An instruction with one or two operands. -/
def Inst.isPlain : Inst → Bool
  | .unary _ | .binary _ => true
  | _ => false

/-- One instruction in the place of another with the same result. -/
structure Inst.Swaps (i i' : Inst) : Prop where
  plain : i.isPlain = true
  plain' : i'.isPlain = true
  result : i'.definedVar = i.definedVar

/-- Some instructions of a block are replaced, each by one that `R` allows in its place. -/
structure Block.Patched (R : BlockId × Nat → Inst → Inst → Prop) (b b' : Block) : Prop where
  eq : b' = { b with insts := b'.insts }
  length : b'.insts.length = b.insts.length
  insts : ∀ (k : Nat) i i', b.insts[k]? = some i → b'.insts[k]? = some i' →
    i' = i ∨ i.Swaps i' ∧ R (b.id, k) i i'

structure Func.Patched (R : BlockId × Nat → Inst → Inst → Prop) (f f' : Func) : Prop where
  eq : f' = { f with blocks := f'.blocks }
  blocks : List.Forall₂ (Block.Patched R) f.blocks f'.blocks

structure Program.Patched (R : Func → BlockId × Nat → Inst → Inst → Prop) (p p' : Program) :
    Prop where
  eq : p' = { p with funcs := p'.funcs }
  funcs : List.Forall₂ (fun f f' => f.Patched (R f) f') p.funcs p'.funcs

/-! ## What the replacement leaves alone -/

namespace Block

variable {R : BlockId × Nat → Inst → Inst → Prop} {b b' : Block}

theorem Patched.refl : b.Patched R b := by
  refine ⟨rfl, rfl, fun k i i' hi hi' => .inl ?_⟩
  rw [hi] at hi'
  exact (Option.some.inj hi').symm

namespace Patched

variable (h : b.Patched R b')

include h

theorem id_eq : b'.id = b.id := by rw [h.eq]

theorem exit_eq : b'.exit = b.exit := by rw [h.eq]

theorem targets_eq : b'.targets = b.targets := by
  unfold targets
  rw [h.exit_eq]

/-- The instruction that a place has afterwards. -/
theorem get {k : Nat} {i : Inst} (hi : b.insts[k]? = some i) : ∃ i', b'.insts[k]? = some i' ∧
    (i' = i ∨ i.Swaps i' ∧ R (b.id, k) i i') := by
  have hk : k < b'.insts.length := h.length ▸ (List.getElem?_eq_some_iff.1 hi).1
  have hi' := List.getElem?_eq_getElem hk
  exact ⟨_, hi', h.insts k i _ hi hi'⟩

/-- The instruction that a place had before. -/
theorem get_old {k : Nat} {i' : Inst} (hi' : b'.insts[k]? = some i') : ∃ i, b.insts[k]? = some i ∧
    (i' = i ∨ i.Swaps i' ∧ R (b.id, k) i i') := by
  have hk : k < b.insts.length := h.length ▸ (List.getElem?_eq_some_iff.1 hi').1
  have hi := List.getElem?_eq_getElem hk
  exact ⟨_, hi, h.insts k _ i' hi hi'⟩

/-- Phis are not replaced. -/
theorem phis_eq : b'.phis = b.phis := by
  have hinsts := h.insts
  have hlen := h.length
  unfold phis
  generalize b.insts = l, b'.insts = l', b.id = id at hinsts hlen
  clear h
  -- the place of the first instruction does not matter
  have hweak : ∀ (k : Nat) i i', l[k]? = some i → l'[k]? = some i' → i' = i ∨ i.Swaps i' :=
    fun k i i' hi hi' => (hinsts k i i' hi hi').imp_right And.left
  clear hinsts
  induction l generalizing l' with
  | nil =>
    cases List.length_eq_zero_iff.1 hlen
    rfl
  | cons i l ih =>
    cases l' with
    | nil => cases hlen
    | cons i' l' =>
      have htail := ih l' (by simpa using hlen) fun k j j' hj hj' => hweak (k + 1) j j' hj hj'
      rcases hweak 0 i i' rfl rfl with rfl | hs
      · cases i' with
        | phi p => exact congrArg (List.cons p) htail
        | _ => rfl
      · -- neither of the two instructions is a phi
        have hplain := hs.plain
        have hplain' := hs.plain'
        cases i <;> cases hplain <;> cases i' <;> cases hplain' <;> rfl

theorem definedVar_eq {k : Nat} {i i' : Inst} (hi : b.insts[k]? = some i)
    (hi' : b'.insts[k]? = some i') : i'.definedVar = i.definedVar := by
  rcases h.insts k i i' hi hi' with rfl | ⟨hs, -⟩
  · rfl
  · exact hs.result

theorem isPhi_eq {k : Nat} {i i' : Inst} (hi : b.insts[k]? = some i)
    (hi' : b'.insts[k]? = some i') : i'.isPhi = i.isPhi := by
  rcases h.insts k i i' hi hi' with rfl | ⟨hs, -⟩
  · rfl
  · have hplain := hs.plain
    have hplain' := hs.plain'
    cases i <;> cases hplain <;> cases i' <;> cases hplain' <;> rfl

theorem callResult_eq {k : Nat} {i i' : Inst} (hi : b.insts[k]? = some i)
    (hi' : b'.insts[k]? = some i') : Vm.callResult i' = Vm.callResult i := by
  rcases h.insts k i i' hi hi' with rfl | ⟨hs, -⟩
  · rfl
  · have hplain := hs.plain
    have hplain' := hs.plain'
    cases i <;> cases hplain <;> cases i' <;> cases hplain' <;> rfl

/-- Whatever is the same for the instructions of each place is the same for the places. -/
theorem bind_get {A : Type} {g : Inst → Option A} (k : Nat)
    (hg : ∀ i i', b.insts[k]? = some i → b'.insts[k]? = some i' → g i' = g i) :
    (b'.insts[k]?).bind g = (b.insts[k]?).bind g := by
  cases hi : b.insts[k]? with
  | some i =>
    obtain ⟨i', hi', -⟩ := h.get hi
    rw [hi']
    exact hg i i' hi hi'
  | none =>
    have hle := List.getElem?_eq_none_iff.1 hi
    rw [List.getElem?_eq_none_iff.2 (h.length.symm ▸ hle)]

theorem defsAt_eq (k : Nat) : b'.defsAt k = b.defsAt k := by
  unfold defsAt
  rw [h.phis_eq]
  have hbind : (b'.insts[k - 1]?.bind fun i => i.definedVar.map LeftValue.var) =
      b.insts[k - 1]?.bind fun i => i.definedVar.map LeftValue.var :=
    h.bind_get _ fun i i' hi hi' => by rw [h.definedVar_eq hi hi']
  rw [hbind]

theorem results_eq : b'.insts.filterMap Inst.definedVar = b.insts.filterMap Inst.definedVar := by
  have hmap : b'.insts.map Inst.definedVar = b.insts.map Inst.definedVar := by
    refine List.ext_getElem? fun k => ?_
    rw [List.getElem?_map, List.getElem?_map]
    have hbind := h.bind_get (g := fun i => some i.definedVar) k fun i i' hi hi' => by
      rw [h.definedVar_eq hi hi']
    simpa [Option.map_eq_bind, Function.comp_def] using hbind
  have hid : ∀ l : List Inst,
      l.filterMap Inst.definedVar = (l.map Inst.definedVar).filterMap fun r => r :=
    fun l => by simp [List.filterMap_map]
  rw [hid, hid, hmap]

theorem alike : b.Alike b' where
  id := h.id_eq
  phis := by rw [h.phis_eq]
  length := h.length
  calls k := h.bind_get k fun _ _ hi hi' => h.callResult_eq hi hi'
  exit := by rw [h.exit_eq]

end Patched

end Block

namespace Func

variable {R : BlockId × Nat → Inst → Inst → Prop} {f f' : Func}

theorem Patched.refl : f.Patched R f :=
  ⟨rfl, List.forall₂_same.2 fun _ _ => .refl⟩

namespace Patched

theorem alike (h : f.Patched R f') : f.Alike f' where
  name := by rw [h.eq]
  params := by rw [h.eq]
  locals := by rw [h.eq]
  temps := by rw [h.eq]
  blocks := h.blocks.imp fun _ _ hb => hb.alike

theorem block? (h : f.Patched R f') (id : BlockId) :
    Option.Rel (Block.Patched R) (f.block? id) (f'.block? id) :=
  find?_rel h.blocks fun b b' hb => by rw [hb.id_eq]

theorem block?_new (h : f.Patched R f') {id : BlockId} {b : Block} (hb : f.block? id = some b) :
    ∃ b', f'.block? id = some b' ∧ b.Patched R b' := by
  have hrel := h.block? id
  rw [hb] at hrel
  generalize f'.block? id = o at hrel
  cases hrel with
  | some hbb => exact ⟨_, rfl, hbb⟩

theorem block?_old (h : f.Patched R f') {id : BlockId} {b' : Block} (hb : f'.block? id = some b') :
    ∃ b, f.block? id = some b ∧ b.Patched R b' := by
  have hrel := h.block? id
  rw [hb] at hrel
  generalize f.block? id = o at hrel
  cases hrel with
  | some hbb => exact ⟨_, rfl, hbb⟩

theorem entrance (h : f.Patched R f') :
    Option.Rel (Block.Patched R) f.entrance f'.entrance := by
  have hblocks := h.blocks
  unfold Func.entrance
  generalize f.blocks = l, f'.blocks = l' at hblocks
  cases hblocks with
  | nil => exact .none
  | cons hb _ => exact .some hb

theorem edge (h : f.Patched R f') {p q : Point} (he : f.Edge p q) : f'.Edge p q := by
  cases he with
  | @call b hb hp =>
    have hrel := h.entrance
    rw [hb] at hrel
    generalize ho : f'.entrance = o at hrel
    cases hrel with
    | @some _ b' hbb =>
      rw [← hbb.id_eq]
      exact .call ho (hbb.phis_eq.trans hp)
  | inst hb hi hp =>
    obtain ⟨b', hb', hbb⟩ := h.block?_new hb
    obtain ⟨i', hi', -⟩ := hbb.get hi
    exact .inst hb' hi' ((hbb.isPhi_eq hi hi').trans hp)
  | jump hb ht hb₂ =>
    obtain ⟨b', hb', hbb⟩ := h.block?_new hb
    obtain ⟨b₂', hb₂', hbb₂⟩ := h.block?_new hb₂
    rw [← hbb.length, ← hbb₂.phis_eq]
    exact .jump hb' (hbb.targets_eq.symm ▸ ht) hb₂'

theorem of_edge (h : f.Patched R f') {p q : Point} (he : f'.Edge p q) : f.Edge p q := by
  cases he with
  | @call b' hb hp =>
    have hrel := h.entrance
    rw [hb] at hrel
    generalize ho : f.entrance = o at hrel
    cases hrel with
    | some hbb =>
      rw [hbb.id_eq]
      exact .call ho (hbb.phis_eq.symm.trans hp)
  | inst hb hi hp =>
    obtain ⟨b, hb', hbb⟩ := h.block?_old hb
    obtain ⟨i, hi', -⟩ := hbb.get_old hi
    exact .inst hb' hi' ((hbb.isPhi_eq hi' hi).symm.trans hp)
  | jump hb ht hb₂ =>
    obtain ⟨b, hb', hbb⟩ := h.block?_old hb
    obtain ⟨b₂, hb₂', hbb₂⟩ := h.block?_old hb₂
    rw [hbb.length, hbb₂.phis_eq]
    exact .jump hb' (hbb.targets_eq ▸ ht) hb₂'

/-- The points and the definitions stay where they are. -/
theorem graph (h : f.Patched R f') : f'.graph = f.graph := by
  have hedge : f'.Edge = f.Edge := by
    funext p q
    exact propext ⟨h.of_edge, h.edge⟩
  have hdefs : f'.defsAt = f.defsAt := by
    funext p v
    cases p with
    | none => rfl
    | some p =>
      refine propext ⟨?_, ?_⟩
      · rintro ⟨b', hb', hv⟩
        obtain ⟨b, hb, hbb⟩ := h.block?_old hb'
        exact ⟨b, hb, hbb.defsAt_eq _ ▸ hv⟩
      · rintro ⟨b, hb, hv⟩
        obtain ⟨b', hb', hbb⟩ := h.block?_new hb
        exact ⟨b', hb', (hbb.defsAt_eq _).symm ▸ hv⟩
  unfold Func.graph
  congr 1

theorem blockIds_eq (h : f.Patched R f') : f'.blocks.map Block.id = f.blocks.map Block.id := by
  have hblocks := h.blocks
  generalize f.blocks = l, f'.blocks = l' at hblocks
  induction hblocks with
  | nil => rfl
  | cons hb _ ih => rw [List.map_cons, List.map_cons, hb.id_eq, ih]

theorem results_eq (h : f.Patched R f') : f'.results = f.results := by
  have hblocks := h.blocks
  unfold Func.results
  generalize f.blocks = l, f'.blocks = l' at hblocks
  induction hblocks with
  | nil => rfl
  | cons hb _ ih => rw [List.flatMap_cons, List.flatMap_cons, hb.results_eq, ih]

end Patched

/-- The blocks of both functions by their places. -/
theorem Patched.mem (h : f.Patched R f') :
    List.Forall₂ (fun b b' => b.Patched R b' ∧ b ∈ f.blocks) f.blocks f'.blocks := by
  have hblocks := h.blocks
  generalize f.blocks = l, f'.blocks = l' at hblocks
  induction hblocks with
  | nil => exact .nil
  | cons hb _ ih =>
    exact .cons ⟨hb, by simp⟩ (ih.imp fun _ _ hc => ⟨hc.1, List.mem_cons_of_mem _ hc.2⟩)

/-- More instructions of one block are replaced. -/
theorem Patched.updateBlock (h : f.Patched R f') (hs : f.Ssa) {id : BlockId} {b : Block}
    {insts : List Inst} (hb : f.block? id = some b)
    (hbb : b.Patched R { b with insts }) :
    f.Patched R (f'.updateBlock id fun b' => { b' with insts }) where
  eq := by
    have heq := h.eq
    unfold Func.updateBlock
    rw [heq]
  blocks := by
    unfold Func.updateBlock
    rw [List.forall₂_map_right_iff]
    refine h.mem.imp fun c c' ⟨hc, hmem⟩ => ?_
    obtain ⟨-, rfl⟩ := mem_of_block? hb
    split
    · rename_i hid
      -- blocks with one number are one block
      rw [hc.id_eq] at hid
      have hself := block?_self hs hmem
      rw [hid, hb] at hself
      cases hself
      have hnew : ({ c' with insts } : Block) = { b with insts } := by rw [hc.eq]
      show b.Patched R { c' with insts }
      rw [hnew]
      exact hbb
    · exact hc

end Func

theorem Program.Patched.alike {R : Func → BlockId × Nat → Inst → Inst → Prop} {p p' : Program}
    (h : p.Patched R p') : p.Alike p' where
  globals := by rw [h.eq]
  funcs := h.funcs.imp fun _ _ hf => hf.alike

/-! ## What the new instructions read -/

/-- The instruction reads variables that are ready at the point, and if it is a move it is one
between slots of one type. -/
structure Inst.FitsAt (f : Func) (p : BlockId × Nat) (i : Inst) : Prop where
  ready : ∀ v ∈ i.usedVars, f.graph.Ready v.var (some p)
  mentions : ∀ v, .left v ∈ i.used → f.Mentions (.left v)
  consts : ∀ c, .const c ∈ i.used → c.WellTyped
  movs : ∀ u, i = .unary u → u.op = .mov → ∀ r ∈ u.result,
    Vm.viewType r.type = Vm.viewType u.operand.typeOf

/-- The instructions that `R` allows read what they may. -/
def Func.Fits (f : Func) (R : BlockId × Nat → Inst → Inst → Prop) : Prop :=
  ∀ p i i', R p i i' → i'.FitsAt f p

section WellFormed

variable {R : BlockId × Nat → Inst → Inst → Prop} {f f' : Func} {env : Vm.Env} {prog prog' : Program}

/-- The instruction at a place is one that was there, or one that fits. -/
theorem Func.Patched.inst_old (h : f.Patched R f') (hR : f.Fits R) {id : BlockId} {b' : Block}
    {i' : Inst} (hb' : f'.block? id = some b') (hi' : i' ∈ b'.insts) : ∃ b, f.block? id = some b ∧
      b.Patched R b' ∧ ∃ i ∈ b.insts, i'.definedVar = i.definedVar ∧
        (i' = i ∨ i'.isPlain = true ∧ ∃ k, i'.FitsAt f (id, k)) := by
  obtain ⟨b, hb, hbb⟩ := h.block?_old hb'
  obtain ⟨k, hk⟩ := List.mem_iff_getElem?.1 hi'
  obtain ⟨i, hi, hii⟩ := hbb.get_old hk
  refine ⟨b, hb, hbb, i, List.mem_of_getElem? hi, hbb.definedVar_eq hi hk, ?_⟩
  rw [(mem_of_block? hb).2] at hii
  exact hii.imp_right fun ⟨hs, hr⟩ => ⟨hs.plain', k, hR _ _ _ hr⟩

theorem Func.Patched.ready_of_usedAt (h : f.Patched R f') (hR : f.Fits R) (hs : f.Ssa)
    {p : BlockId × Nat} {v : LeftValue} (hv : f'.UsedAt p v) : f.graph.Ready v.var (some p) := by
  cases hv with
  | inst hb' hi' hp hv =>
    obtain ⟨b, hb, hbb⟩ := h.block?_old hb'
    obtain ⟨i, hi, heq | ⟨-, hr⟩⟩ := hbb.get_old hi'
    · cases heq
      exact hs.uses _ v (.inst hb hi hp hv)
    · rw [(mem_of_block? hb).2] at hr
      exact (hR _ _ _ hr).ready v hv
  | exit hb' he hv =>
    obtain ⟨b, hb, hbb⟩ := h.block?_old hb'
    rw [hbb.length]
    exact hs.uses _ v (.exit hb (hbb.exit_eq ▸ he) hv)
  | phi hb' ht hb₂' hp hv =>
    obtain ⟨b, hb, hbb⟩ := h.block?_old hb'
    obtain ⟨b₂, hb₂, hbb₂⟩ := h.block?_old hb₂'
    rw [hbb.length]
    exact hs.uses _ v (.phi hb (hbb.targets_eq ▸ ht) hb₂ (hbb₂.phis_eq ▸ hp) hv)

/-- The function stays in SSA form. -/
theorem Func.Patched.ssa (h : f.Patched R f') (hR : f.Fits R) (hs : f.Ssa) : f'.Ssa where
  blocks := h.blockIds_eq ▸ hs.blocks
  results := h.results_eq ▸ hs.results
  uses p v hv := h.graph ▸ h.ready_of_usedAt hR hs hv
  args id b' t b₂' hb' ht hb₂' hr p hp := by
    obtain ⟨b, hb, hbb⟩ := h.block?_old hb'
    obtain ⟨b₂, hb₂, hbb₂⟩ := h.block?_old hb₂'
    rw [h.graph, hbb.length] at hr
    exact hs.args id b t b₂ hb (hbb.targets_eq ▸ ht) hb₂ hr p (hbb₂.phis_eq ▸ hp)

/-- A variable of the new function is one of the old, and a constant is of its type. -/
theorem Func.Patched.mentions (h : f.Patched R f') (hR : f.Fits R) {x : Value}
    (hx : f'.Mentions x) : f.Mentions x ∨ ∃ c, x = .const c ∧ c.WellTyped := by
  cases hx with
  | used hb' hi' hx =>
    obtain ⟨b, hb, -, i, hi, -, rfl | ⟨-, k, hfit⟩⟩ := h.inst_old hR hb' hi'
    · exact .inl (.used hb hi hx)
    · cases x with
      | const c => exact .inr ⟨c, rfl, hfit.consts c hx⟩
      | left v => exact .inl (hfit.mentions v hx)
  | result hb' hi' hv =>
    obtain ⟨b, hb, -, i, hi, hres, -⟩ := h.inst_old hR hb' hi'
    exact .inl (.result hb hi (hres ▸ hv))
  | exit hb' he hx =>
    obtain ⟨b, hb, hbb⟩ := h.block?_old hb'
    exact .inl (.exit hb (hbb.exit_eq ▸ he) hx)

theorem Func.Patched.typed (h : f.Patched R f') (hR : f.Fits R) (ht : f.WellTyped env prog)
    (hg : prog'.globals = prog.globals) : f'.WellTyped env prog' := by
  have hment : ∀ v, f'.Mentions (.left v) → f.Mentions (.left v) := fun v hv => by
    rcases h.mentions hR hv with hv | ⟨c, hc, -⟩
    · exact hv
    · cases hc
  have hslot : f'.slotType = f.slotType := by
    unfold Func.slotType
    rw [h.alike.params, h.alike.locals, h.alike.temps]
  have htype : ∀ k, prog'.typeIn f' k = prog.typeIn f k := fun k => by
    unfold Program.typeIn Program.slotType
    rw [hslot, hg]
  refine ⟨fun v hv => (htype _).trans (ht.slots v (hment v hv)),
    fun u v hu hv => ht.apart u v (hment u hu) (hment v hv), ?_, ?_, ?_, ?_⟩
  · intro id b' hb' i' hi' v hv
    obtain ⟨b, hb, -, i, hi, hres, -⟩ := h.inst_old hR hb' hi'
    rw [hslot]
    exact ht.results id b hb i hi v (hres ▸ hv)
  · intro c hc
    rcases h.mentions hR hc with hc | ⟨d, hd, hwt⟩
    · exact ht.consts c hc
    · cases hd
      exact hwt
  · intro id b' hb' u hu hop r hr
    obtain ⟨b, hb, -, i, hi, -, rfl | ⟨-, k, hfit⟩⟩ := h.inst_old hR hb' hu
    · exact ht.movs id b hb u hi hop r hr
    · exact hfit.movs u rfl hop r hr
  · intro id b' hb' p hp r hr a ha
    obtain ⟨b, hb, -, i, hi, -, rfl | ⟨hplain, -⟩⟩ := h.inst_old hR hb' hp
    · exact ht.phis id b hb p hi r hr a ha
    · cases hplain

end WellFormed

section Whole

variable {R : Func → BlockId × Nat → Inst → Inst → Prop} {env : Vm.Env} {prog prog' : Program}

/-- Well-formed programs stay well formed. -/
theorem Program.Patched.wellFormed (h : prog.Patched R prog') (hwf : prog.WellFormed env)
    (hR : ∀ f ∈ prog.funcs, f.Fits (R f)) : prog'.WellFormed env := by
  have hold : ∀ f' ∈ prog'.funcs, ∃ f ∈ prog.funcs, f.Patched (R f) f' :=
    fun f' hf' => exists_of_mem_right h.funcs hf'
  have hglobals : prog'.globals = prog.globals := h.alike.globals
  have heach : ∀ {A : Type} (g : Func → A), (∀ f f', f.Alike f' → g f' = g f) →
      prog'.funcs.map g = prog.funcs.map g := by
    intro A g hg
    have hfuncs := h.alike.funcs
    generalize prog.funcs = l, prog'.funcs = l' at hfuncs
    induction hfuncs with
    | nil => rfl
    | cons hf _ ih => rw [List.map_cons, List.map_cons, hg _ _ hf, ih]
  refine ⟨?_, ?_, ?_, ?_, ?_, ?_⟩
  · rw [heach Func.name fun f f' hf => hf.name]
    exact hwf.names
  · have hallocs : prog'.funcs.flatMap Func.allocs = prog.funcs.flatMap Func.allocs := by
      rw [List.flatMap_def, List.flatMap_def, heach Func.allocs fun f f' hf => by
        unfold Func.allocs
        rw [hf.params, hf.locals]]
    rw [hallocs, hglobals]
    exact hwf.allocs
  · intro f' hf'
    obtain ⟨f, hf, hff⟩ := hold f' hf'
    exact hff.ssa (hR f hf) (hwf.ssa f hf)
  · intro f' hf'
    obtain ⟨f, hf, hff⟩ := hold f' hf'
    exact hff.typed (hR f hf) (hwf.typed f hf) hglobals
  · rw [hglobals]
    exact hwf.scalars
  · rw [hglobals]
    exact hwf.inits

open Vm

/-- The new instructions do what the old ones did, wherever a run with the invariant `K` comes
to them. -/
def Func.SameWith (env : Env) (prog : Program) (f : Func)
    (K : BlockId × Nat → Scope → Prop) (R : BlockId × Nat → Inst → Inst → Prop) : Prop :=
  ∀ p i i', R p i i' → ∀ (s : State env) fr rest, (s.scope fr).Typed prog f → K p (s.scope fr) →
    execInst prog s fr rest i' = execInst prog s fr rest i

/-- The function of a name afterwards. -/
theorem Program.Patched.findFunc_new (h : prog.Patched R prog') {name : String} {f : Func}
    (hf : prog.findFunc name = some f) :
    ∃ f', prog'.findFunc name = some f' ∧ f.Patched (R f) f' := by
  have hrel : Option.Rel (fun f f' : Func => f.Patched (R f) f') (prog.findFunc name)
      (prog'.findFunc name) := find?_rel h.funcs fun f f' hf => by rw [hf.alike.name]
  rw [hf] at hrel
  generalize prog'.findFunc name = o at hrel
  cases hrel with
  | some hff => exact ⟨_, rfl, hff⟩

/-- The run stays the same. -/
theorem Program.Patched.sameMeaning {K : Func → BlockId × Nat → Scope → Prop}
    (h : prog.Patched R prog') (hwf : prog.WellFormed env)
    (hK : ∀ l, layoutGlobals env.float prog.globals = .ok l →
      Flow prog (fun _ _ _ => True) K l.vars env)
    (hR : ∀ f ∈ prog.funcs, f.SameWith env prog (K f) (R f)) : SameMeaning env prog prog' := by
  intro input
  refine obsEq_of_alike hwf h.alike hK ?_ ?_ fun _ _ => trivial
  · intro s t _ _ fr fr' rest f b _ _ _ _ _
    trivial
  · intro l s hl hinv _
    cases hs : s.frames with
    | nil =>
      unfold exec
      rw [hs]
    | cons fr rest =>
      obtain ⟨f, hf, hr, hty, hk⟩ := hinv.frames fr (by simp [hs])
      obtain ⟨b, hb, -⟩ := reach_le hr
      obtain ⟨f', hf', hff⟩ := h.findFunc_new hf
      obtain ⟨b', hb', hbb⟩ := hff.block?_new hb
      refine exec_alike h.alike hs hf hf' hb hb' ?_ ?_
      · intro i i' hi hi'
        rcases hbb.insts _ i i' hi hi' with rfl | ⟨-, hii⟩
        · rfl
        · rw [(Func.mem_of_block? hb).2] at hii
          exact hR f (Program.mem_of_findFunc hf) _ i i' hii s fr rest hty hk
      · -- exits and phis are the same
        intro e e' _ he he'
        rw [hbb.exit_eq, he] at he'
        cases he'
        refine ⟨rfl, fun t _ c c' hc hc' => ?_⟩
        obtain ⟨d, hd, hcd⟩ := hff.block?_new hc
        cases hc'.symm.trans hd
        rw [hcd.phis_eq]

end Whole

end Ir
end Cact
