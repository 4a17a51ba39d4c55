import Cact.Ir.Ssa

/-!
# Checking that a program is well formed

Which variables are available at the start of each block is enough to check that a
function is in SSA form: the table has to be empty at the entrance, and what it lists for
a block has to be available at the end of every block that jumps there. Everything else
that makes a program well formed is checked value by value.

- `Func.ssaCheck`, `ssa_of_check`: SSA form, from a table of available variables.
- `Func.typeCheck`, `wellTyped_of_check`: the types of the values.
- `Program.check`, `wellFormed_of_check`: whole programs.
-/

namespace Cact

namespace Ir

open Vm

instance (c : ConstexprValue) : Decidable c.WellTyped :=
  match c with
  | ⟨t, .monostate⟩ => inferInstanceAs (Decidable (t = .unit))
  | ⟨t, .int _⟩ => inferInstanceAs (Decidable (t = .int32))
  | ⟨t, .int64 _⟩ => inferInstanceAs (Decidable (t = .integer))
  | ⟨t, .float _⟩ => inferInstanceAs (Decidable (t = .float32))
  | ⟨t, .bool _⟩ => inferInstanceAs (Decidable (t = .int1))
  | ⟨t, .double _⟩ => inferInstanceAs (Decidable (t = .float64 ∨ t = .floating))
  | ⟨t, .bytes _⟩ => inferInstanceAs (Decidable (t.isArray = true))

/-! ## SSA form -/

/-- The results of the first `k` instructions. -/
def Block.resultsTo (b : Block) (k : Nat) : List Var :=
  (b.insts.take k).filterMap fun i => i.definedVar.map LeftValue.var

namespace Func

variable (f : Func) (avail : BlockId → List Var)

/-- A variable may be read behind the first `k` instructions of a block. -/
def readable (b : Block) (k : Nat) (v : Var) : Bool :=
  (avail b.id).contains v || (b.resultsTo k).contains v || !(f.results.map LeftValue.var).contains v

/-- A value may be read behind the first `k` instructions of a block. -/
def readableValue (b : Block) (k : Nat) : Value → Bool
  | .const _ => true
  | .left v => f.readable avail b k v.var

/-- The jumps from one block to another keep the table, and the phis find what they read. -/
def jumpCheck (b c : Block) : Bool :=
  !b.targets.contains c.id ||
    ((avail c.id).all fun v => (avail b.id).contains v || (b.resultsTo b.insts.length).contains v) &&
    c.phis.all fun p =>
      match p.value b.id with
      | .ok x => f.readableValue avail b b.insts.length x
      | .error _ => false

/-- The instructions and the exit of a block read what is available there. -/
def useCheck (b : Block) : Bool :=
  ((List.range b.insts.length).all fun k =>
    match b.insts[k]? with
    | some i => i.isPhi || i.used.all (f.readableValue avail b k)
    | none => true) &&
  ((b.exit.bind Exit.used).all (f.readableValue avail b b.insts.length))

/-- SSA form, with the variables that are available at the start of each block. -/
def ssaCheck : Bool :=
  decide (f.blocks.map Block.id).Nodup &&
  decide (f.results.map LeftValue.var).Nodup &&
  (f.entrance.all fun b => (avail b.id).isEmpty) &&
  (f.blocks.all fun b => f.useCheck avail b && f.blocks.all fun c => f.jumpCheck avail b c)

variable {f avail} {b : Block} {k : Nat} {v : Var} {id : BlockId}

theorem resultsTo_phis : b.resultsTo b.phis.length =
    b.phis.filterMap fun p => p.result.map LeftValue.var := by
  have htake : b.insts.take b.phis.length = b.insts.takeWhile Inst.isPhi := by
    rw [Block.phis_length]
    exact (List.prefix_iff_eq_take.1 (List.takeWhile_prefix Inst.isPhi)).symm
  unfold Block.resultsTo
  rw [htake, ← List.map_filterMap, ← Block.results_phis, List.map_filterMap]

theorem mem_resultsTo_succ {i : Inst} (hi : b.insts[k]? = some i) :
    v ∈ b.resultsTo (k + 1) ↔ v ∈ b.resultsTo k ∨ ∃ r, i.definedVar = some r ∧ r.var = v := by
  unfold Block.resultsTo
  rw [List.take_add_one, hi, List.filterMap_append, List.mem_append]
  simp [Option.map_eq_some_iff]

theorem mem_results_of_defsAt {q : Point} (h : f.defsAt q v) : v ∈ f.results.map LeftValue.var := by
  cases q with
  | none => cases h
  | some q =>
    obtain ⟨b, hb, hv⟩ := h
    obtain ⟨j, i, r, hj, hir, rfl, -⟩ := Block.mem_defsAt hv
    refine List.mem_map_of_mem (List.mem_flatMap.2 ⟨b, (mem_of_block? hb).1, ?_⟩)
    exact List.mem_filterMap.2 ⟨i, List.mem_of_getElem? hj, hir⟩

/-- The parts of the check. -/
structure SsaTable (f : Func) (avail : BlockId → List Var) : Prop where
  blocks : (f.blocks.map Block.id).Nodup
  results : (f.results.map LeftValue.var).Nodup
  entry : ∀ b, f.entrance = some b → avail b.id = []
  uses : ∀ b ∈ f.blocks, f.useCheck avail b = true
  jumps : ∀ b ∈ f.blocks, ∀ c ∈ f.blocks, f.jumpCheck avail b c = true

theorem ssaTable_of_check (h : f.ssaCheck avail = true) : f.SsaTable avail := by
  unfold ssaCheck at h
  simp only [Bool.and_eq_true, decide_eq_true_eq, List.all_eq_true] at h
  obtain ⟨⟨⟨hblocks, hresults⟩, hentry⟩, hall⟩ := h
  refine ⟨hblocks, hresults, fun b hb => ?_, fun b hb => (hall b hb).1, fun b hb => (hall b hb).2⟩
  rw [hb] at hentry
  simpa using hentry

theorem SsaTable.block?_self (h : f.SsaTable avail) (hb : b ∈ f.blocks) :
    f.block? b.id = some b := by
  have hsome : (f.block? b.id).isSome := List.find?_isSome.2 ⟨b, hb, by simp⟩
  obtain ⟨c, hc⟩ := Option.isSome_iff_exists.1 hsome
  obtain ⟨hmem, hid⟩ := mem_of_block? hc
  rw [hc, List.inj_on_of_nodup_map h.blocks hmem hb hid]

/-- What a jump brings to a block was available before it. -/
theorem SsaTable.jump (h : f.SsaTable avail) {c : Block} {t : BlockId} (hb : f.block? id = some b)
    (ht : t ∈ b.targets) (hc : f.block? t = some c) :
    (∀ v ∈ avail t, v ∈ avail id ∨ v ∈ b.resultsTo b.insts.length) ∧
      ∀ p ∈ c.phis, ∃ x, p.value id = .ok x ∧ f.readableValue avail b b.insts.length x = true := by
  obtain ⟨hbm, rfl⟩ := mem_of_block? hb
  obtain ⟨hcm, rfl⟩ := mem_of_block? hc
  have hjump := h.jumps b hbm c hcm
  unfold jumpCheck at hjump
  rw [List.contains_iff_mem.2 ht] at hjump
  simp only [Bool.not_true, Bool.false_or, Bool.and_eq_true, List.all_eq_true] at hjump
  refine ⟨fun v hv => by simpa using hjump.1 v hv, fun p hp => ?_⟩
  have hphi := hjump.2 p hp
  cases hx : p.value b.id with
  | ok x =>
    rw [hx] at hphi
    exact ⟨x, rfl, hphi⟩
  | error e =>
    rw [hx] at hphi
    cases hphi

/-- What a path has missed is neither in the table nor among the results it has passed. -/
theorem SsaTable.notMem_of_misses (h : f.SsaTable avail) {q : Point} (hm : f.graph.Misses v q) :
    ∀ id k b, q = some (id, k) → f.block? id = some b → v ∉ avail id ∧ v ∉ b.resultsTo k := by
  induction hm with
  | entry => rintro id k b ⟨⟩
  | step _ he hn ih =>
    rintro id k b rfl hb
    cases he with
    | call hb' hp =>
      rw [block?_entrance hb'] at hb
      cases hb
      rw [h.entry _ hb']
      exact ⟨by simp, by simp [Block.resultsTo]⟩
    | @inst _ b' k i hb' hi hp =>
      cases hb.symm.trans hb'
      obtain ⟨htable, hpast⟩ := ih id k b rfl hb
      refine ⟨htable, fun hv => ?_⟩
      rcases (mem_resultsTo_succ hi).1 hv with hv | ⟨r, hr, rfl⟩
      · exact hpast hv
      · refine hn ⟨b, hb, ?_⟩
        rw [Block.defsAt_inst hi hp, hr]
        simp
    | @jump src t b' c hb' ht hc =>
      cases hb.symm.trans hc
      obtain ⟨htable, hpast⟩ := ih src _ b' rfl hb'
      refine ⟨fun hv => ?_, fun hv => hn ⟨b, hb, ?_⟩⟩
      · rcases (h.jump hb' ht hb).1 v hv with hv | hv
        · exact htable hv
        · exact hpast hv
      · rw [Block.defsAt_phis, ← resultsTo_phis]
        exact hv

theorem SsaTable.ready (h : f.SsaTable avail) (hb : f.block? id = some b)
    (hv : f.readable avail b k v = true) : f.graph.Ready v (some (id, k)) := by
  rintro ⟨q, hd⟩ hm
  obtain ⟨htable, hpast⟩ := h.notMem_of_misses hm id k b rfl hb
  obtain ⟨-, rfl⟩ := mem_of_block? hb
  have hres := mem_results_of_defsAt hd
  unfold readable at hv
  simp only [Bool.or_eq_true, List.contains_iff_mem, Bool.not_eq_true', ← Bool.not_eq_true] at hv
  rcases hv with (hv | hv) | hv
  · exact htable hv
  · exact hpast hv
  · exact hv hres

/-- A function that passes the check is in SSA form. -/
theorem ssa_of_check (h : f.ssaCheck avail = true) : f.Ssa := by
  have htable := ssaTable_of_check h
  refine ⟨htable.blocks, htable.results, ?_, ?_⟩
  · intro p v hv
    cases hv with
    | @inst id b k i v hb hi hp hv =>
      obtain ⟨x, hx, hxv⟩ := List.mem_filterMap.1 hv
      cases x with
      | const c => cases hxv
      | left u =>
        cases hxv
        have huse := htable.uses b (mem_of_block? hb).1
        unfold useCheck at huse
        rw [Bool.and_eq_true, List.all_eq_true] at huse
        have hk := huse.1 k (List.mem_range.2 (List.getElem?_eq_some_iff.1 hi).1)
        rw [hi] at hk
        dsimp only at hk
        rw [hp, Bool.false_or, List.all_eq_true] at hk
        exact htable.ready hb (hk _ hx)
    | @exit id b e v hb he hv =>
      have huse := htable.uses b (mem_of_block? hb).1
      unfold useCheck at huse
      rw [Bool.and_eq_true, he] at huse
      have hread := huse.2
      rw [Option.bind_some, hv, Option.all_some] at hread
      exact htable.ready hb hread
    | @phi id t b c p v hb ht hc hp hv =>
      obtain ⟨x, hx, hread⟩ := (htable.jump hb ht hc).2 p hp
      cases hx.symm.trans hv
      exact htable.ready hb hread
  · intro id b t c hb ht hc _ p hp
    obtain ⟨x, hx, -⟩ := (htable.jump hb ht hc).2 p hp
    exact ⟨x, hx⟩

end Func

/-! ## Types -/

namespace Func

/-- The values that stand in a function. -/
def mentioned (f : Func) : List Value :=
  f.blocks.flatMap fun b =>
    (b.insts.flatMap fun i => i.used ++ (i.definedVar.map Value.left).toList) ++
      (b.exit.bind Exit.used).toList

theorem mem_mentioned {f : Func} {x : Value} (h : f.Mentions x) : x ∈ f.mentioned := by
  unfold mentioned
  cases h with
  | used hb hi hx =>
    refine List.mem_flatMap.2 ⟨_, (mem_of_block? hb).1, List.mem_append_left _ ?_⟩
    exact List.mem_flatMap.2 ⟨_, hi, List.mem_append_left _ hx⟩
  | result hb hi hv =>
    refine List.mem_flatMap.2 ⟨_, (mem_of_block? hb).1, List.mem_append_left _ ?_⟩
    exact List.mem_flatMap.2 ⟨_, hi, List.mem_append_right _ (by simp [hv])⟩
  | exit hb he hx =>
    refine List.mem_flatMap.2 ⟨_, (mem_of_block? hb).1, List.mem_append_right _ ?_⟩
    simp [he, hx]

variable (prog : Program) (f : Func) (slotOf : Var → Var)

/-- A value has a type that fits its slot, or its content. -/
def valueCheck : Value → Bool
  | .const c => decide c.WellTyped
  | .left v => decide (prog.typeIn f (slotOf v.var) = some (viewType v.type))

/-- Copies are between values of one type, and results are variables of the function. -/
def instCheck (i : Inst) : Bool :=
  (i.definedVar.all fun r => (f.slotType (slotOf r.var)).isSome) &&
  match i with
  | .unary u => !decide (u.op = .mov) ||
      u.result.all fun r => decide (viewType r.type = viewType u.operand.typeOf)
  | .phi p => p.result.all fun r => p.args.all fun a => decide (viewType r.type = viewType a.2.typeOf)
  | _ => true

/-- The types of a function, where variables are kept in the slots `slotOf`. -/
def typeCheck : Bool :=
  f.mentioned.all (valueCheck prog f slotOf) &&
  (f.mentioned.all fun x => f.mentioned.all fun y =>
    match x, y with
    | .left u, .left v => !decide (slotOf u.var = slotOf v.var) || decide (u.var = v.var)
    | _, _ => true) &&
  f.blocks.all fun b => b.insts.all (instCheck f slotOf)

variable {prog f} {env : Env}

/-- A function that passes the check is well typed. -/
theorem wellTyped_of_check (h : typeCheck prog f env.slotOf = true) : f.WellTyped env prog := by
  unfold typeCheck at h
  simp only [Bool.and_eq_true, List.all_eq_true] at h
  obtain ⟨⟨hvalues, hapart⟩, hinsts⟩ := h
  have hinst : ∀ {id b i}, f.block? id = some b → i ∈ b.insts → instCheck f env.slotOf i = true :=
    fun hb hi => hinsts _ (mem_of_block? hb).1 _ hi
  refine ⟨?_, ?_, ?_, ?_, ?_, ?_⟩
  · intro v hv
    simpa [valueCheck] using hvalues _ (mem_mentioned hv)
  · intro u v hu hv heq
    have hsame := hapart _ (mem_mentioned hu) _ (mem_mentioned hv)
    simpa [heq] using hsame
  · intro id b hb i hi v hv
    have hall := hinst hb hi
    unfold instCheck at hall
    rw [Bool.and_eq_true, hv] at hall
    exact hall.1
  · intro c hc
    simpa [valueCheck] using hvalues _ (mem_mentioned hc)
  · intro id b hb u hu hop r hr
    have hall := hinst hb hu
    unfold instCheck at hall
    rw [Bool.and_eq_true] at hall
    have htypes := hall.2
    dsimp only at htypes
    rw [Option.mem_def.1 hr, hop] at htypes
    simpa using htypes
  · intro id b hb p hp r hr a ha
    have hall := hinst hb hp
    unfold instCheck at hall
    rw [Bool.and_eq_true] at hall
    have htypes := hall.2
    dsimp only at htypes
    rw [Option.mem_def.1 hr] at htypes
    simp only [Option.all_some, List.all_eq_true, decide_eq_true_eq] at htypes
    exact htypes a ha

end Func

/-! ## Programs -/

namespace Program

/-- The initial value of a global fits its type, and scalars known at compile time are no
references. -/
def globalCheck (a : Alloc) : Bool :=
  (!a.comptime || a.type.isArray || !a.reference) &&
  (a.reference || a.init.all fun c =>
    decide c.WellTyped && decide (viewType c.type = viewType a.type))

/-- A program is well formed, with the variables that are available at the start of each
block of its functions. -/
def check (prog : Program) (slotOf : Var → Var) (avail : String → BlockId → List Var) : Bool :=
  decide (prog.funcs.map Func.name).Nodup &&
  decide ((prog.globals ++ prog.funcs.flatMap Func.allocs).map Alloc.id).Nodup &&
  (prog.funcs.all fun f => f.ssaCheck (avail f.name) && Func.typeCheck prog f slotOf) &&
  prog.globals.all globalCheck

/-- The slots of the variables, with one for every version or without. -/
def slotKey (versions : Bool) : Var → Var
  | .ssa a n => if versions then .ssa a n else .named (.alloc a)
  | v => v

theorem slotOf_eq (env : Env) : env.slotOf = slotKey env.versions := by
  funext v
  cases v <;> rfl

/-- A program that passes the check is well formed. -/
theorem wellFormed_of_check {prog : Program} {env : Env} (avail : String → BlockId → List Var)
    (h : ∀ versions, prog.check (slotKey versions) avail = true) : prog.WellFormed env := by
  replace h := h env.versions
  rw [← slotOf_eq] at h
  unfold check at h
  simp only [Bool.and_eq_true, decide_eq_true_eq, List.all_eq_true] at h
  obtain ⟨⟨⟨hnames, hallocs⟩, hfuncs⟩, hglobals⟩ := h
  refine ⟨hnames, hallocs, fun f hf => Func.ssa_of_check (hfuncs f hf).1,
    fun f hf => Func.wellTyped_of_check (hfuncs f hf).2, ?_, ?_⟩
  · intro a ha hc harr
    have hglobal := hglobals a ha
    unfold globalCheck at hglobal
    rw [hc, harr, Bool.and_eq_true] at hglobal
    simpa using hglobal.1
  · intro a ha href c hc
    have hglobal := hglobals a ha
    unfold globalCheck at hglobal
    rw [href, Option.mem_def.1 hc, Bool.and_eq_true] at hglobal
    simpa using hglobal.2

end Program

/-- A machine whose input is all zeros, and that does not compute with floating numbers. -/
def quiet : Env where
  Input := Unit
  readInt _ := (0, ())
  readFloat _ := .ok (0, ())
  readDouble _ := (0, ())
  float := {
    arithS := fun _ x _ => x
    arithD := fun _ x _ => x
    compareS := fun _ _ _ => false
    compareD := fun _ _ _ => false
    convert := fun _ _ w => w }
  versions := false

end Ir
end Cact
