import Cact.Ir.Slots
import Cact.Lib.DefGraph

/-!
# Functions in SSA form

A point of a function is a block and the number of its next instruction, and the call
itself comes before the first of them. The phis of a block are executed on the way into
it, so the first point of a block lies behind them.

- `Func.graph`: the points, and the variables defined on arrival at each.
- `Func.Ssa`: one definition for every variable, and no use without it.
- `Func.WellTyped`: every variable is used at the type of its slot.
- `Program.WellFormed`: the programs the passes work on.
-/

namespace Cact

namespace Ir

open Vm

/-! ## Points and definitions -/

/-- A point of a function; `none` is the call of it. A function whose first block has
phis cannot be called, and a phi behind other instructions cannot be passed. -/
abbrev Point := Option (BlockId × Nat)

namespace Block

/-- The variables defined on arrival at instruction `k`: the phis come before the first
instruction that is not one of them. -/
def defsAt (b : Block) (k : Nat) : List Var :=
  if k = b.phis.length then b.phis.filterMap fun p => p.result.map LeftValue.var
  else if k < b.phis.length then []
  else (b.insts[k - 1]?.bind fun i => i.definedVar.map LeftValue.var).toList

end Block

namespace Func

/-- The steps from one point to the next. -/
inductive Edge (f : Func) : Point → Point → Prop
  | call {b : Block} (hb : f.entrance = some b) (hp : b.phis = []) : Edge f none (some (b.id, 0))
  | inst {id : BlockId} {b : Block} {k : Nat} {i : Inst} (hb : f.block? id = some b)
      (hi : b.insts[k]? = some i) (hp : i.isPhi = false) : Edge f (some (id, k)) (some (id, k + 1))
  | jump {id t : BlockId} {b b' : Block} (hb : f.block? id = some b) (ht : t ∈ b.targets)
      (hb' : f.block? t = some b') :
      Edge f (some (id, b.insts.length)) (some (t, b'.phis.length))

/-- The variables defined on arrival at a point. -/
def defsAt (f : Func) : Point → Var → Prop
  | none, _ => False
  | some (id, k), v => ∃ b, f.block? id = some b ∧ v ∈ b.defsAt k

/-- The points of a function with its definitions. -/
def graph (f : Func) : DefGraph Point Var where
  entry := none
  edge := f.Edge
  defs := f.defsAt
  entry_defs _ h := h

/-- The values an instruction or an exit reads at a point. -/
inductive UsedAt (f : Func) : BlockId × Nat → LeftValue → Prop
  | inst {id : BlockId} {b : Block} {k : Nat} {i : Inst} {v : LeftValue}
      (hb : f.block? id = some b) (hi : b.insts[k]? = some i) (hp : i.isPhi = false)
      (hv : v ∈ i.usedVars) : UsedAt f (id, k) v
  | exit {id : BlockId} {b : Block} {e : Exit} {v : LeftValue} (hb : f.block? id = some b)
      (he : b.exit = some e) (hv : e.used = some (.left v)) : UsedAt f (id, b.insts.length) v
  | phi {id t : BlockId} {b b' : Block} {p : PhiInst} {v : LeftValue} (hb : f.block? id = some b)
      (ht : t ∈ b.targets) (hb' : f.block? t = some b') (hp : p ∈ b'.phis)
      (hv : p.value id = .ok (.left v)) : UsedAt f (id, b.insts.length) v

/-- The results of the instructions. -/
def results (f : Func) : List LeftValue := f.blocks.flatMap fun b => b.insts.filterMap Inst.definedVar

/-- SSA form: a variable has one definition, and it is available wherever the variable is
used. A phi reads its argument at the end of the block it comes from, and it has one for
every such block that can be reached. -/
structure Ssa (f : Func) : Prop where
  blocks : (f.blocks.map Block.id).Nodup
  results : (f.results.map LeftValue.var).Nodup
  uses : ∀ p v, f.UsedAt p v → f.graph.Ready v.var (some p)
  args : ∀ id b t b', f.block? id = some b → t ∈ b.targets → f.block? t = some b' →
    f.graph.Reach (some (id, b.insts.length)) → ∀ p ∈ b'.phis, ∃ x, p.value id = .ok x

end Func

/-! ## Types -/

/-- A constant holds an alternative that its type has. -/
def ConstexprValue.WellTyped (c : ConstexprValue) : Prop :=
  match c.val with
  | .monostate => c.type = .unit
  | .int _ => c.type = .int32
  | .int64 _ => c.type = .integer
  | .float _ => c.type = .float32
  | .bool _ => c.type = .int1
  | .double _ => c.type = .float64 ∨ c.type = .floating
  | .bytes _ => c.type.isArray = true

/-- The word of a constant that is no array is a word of its type. -/
theorem ConstexprValue.WellTyped.fit {c : ConstexprValue} (h : c.WellTyped)
    (harr : c.type.isArray = false) :
    ∃ w, (viewConst c).data = .word w ∧ fitTy (viewType c.type) w = w := by
  obtain ⟨t, v⟩ := c
  cases v with
  | monostate => exact ⟨0, rfl, fitTy_zero _⟩
  | int v =>
    cases (h : t = .int32)
    exact ⟨_, rfl, by simp [viewType, fitTy, Vm.fit]⟩
  | int64 v =>
    cases (h : t = .integer)
    exact ⟨_, rfl, rfl⟩
  | float bits =>
    cases (h : t = .float32)
    exact ⟨_, rfl, by simp [viewType, fitTy, Vm.fit]⟩
  | bool v =>
    cases (h : t = .int1)
    exact ⟨_, rfl, fit_boolWord⟩
  | double bits =>
    refine ⟨_, rfl, ?_⟩
    rcases (h : t = .float64 ∨ t = .floating) with rfl | rfl <;> rfl
  | bytes buf =>
    rw [show t.isArray = true from h] at harr
    cases harr

namespace Func

/-- The values that stand in an instruction or in the exit of a block. -/
inductive Mentions (f : Func) : Value → Prop
  | used {id : BlockId} {b : Block} {i : Inst} {x : Value} (hb : f.block? id = some b)
      (hi : i ∈ b.insts) (hx : x ∈ i.used) : Mentions f x
  | result {id : BlockId} {b : Block} {i : Inst} {v : LeftValue} (hb : f.block? id = some b)
      (hi : i ∈ b.insts) (hv : i.definedVar = some v) : Mentions f (.left v)
  | exit {id : BlockId} {b : Block} {e : Exit} {x : Value} (hb : f.block? id = some b)
      (he : b.exit = some e) (hx : e.used = some x) : Mentions f x

end Func

/-- The type of the slot a variable of a function is kept in. -/
def Program.typeIn (prog : Program) (f : Func) (k : Var) : Option Ty :=
  (f.slotType k).or (prog.slotType k)

/-- Every variable has a slot of the type it is used at, different variables have
different slots, and what an instruction defines is not a global. Constants are of their
types, and a copy is between slots of one type. -/
structure Func.WellTyped (env : Env) (prog : Program) (f : Func) : Prop where
  slots : ∀ v, f.Mentions (.left v) →
    prog.typeIn f (env.slotOf v.var) = some (viewType v.type)
  apart : ∀ u v, f.Mentions (.left u) → f.Mentions (.left v) →
    env.slotOf u.var = env.slotOf v.var → u.var = v.var
  results : ∀ id b, f.block? id = some b → ∀ i ∈ b.insts, ∀ v, i.definedVar = some v →
    (f.slotType (env.slotOf v.var)).isSome
  consts : ∀ c, f.Mentions (.const c) → c.WellTyped
  movs : ∀ id b, f.block? id = some b → ∀ u, .unary u ∈ b.insts → u.op = .mov →
    ∀ r ∈ u.result, viewType r.type = viewType u.operand.typeOf
  phis : ∀ id b, f.block? id = some b → ∀ p, .phi p ∈ b.insts → ∀ r ∈ p.result,
    ∀ a ∈ p.args, viewType r.type = viewType a.2.typeOf

/-- The allocations of a function. -/
def Func.allocs (f : Func) : List Alloc := f.params ++ f.locals

/-- A program whose functions are well typed and in SSA form. Allocations are objects of
their own, and a scalar with a value known at compile time is no reference. -/
structure Program.WellFormed (env : Env) (prog : Program) : Prop where
  names : (prog.funcs.map Func.name).Nodup
  allocs : ((prog.globals ++ prog.funcs.flatMap Func.allocs).map Alloc.id).Nodup
  ssa : ∀ f ∈ prog.funcs, f.Ssa
  typed : ∀ f ∈ prog.funcs, f.WellTyped env prog
  scalars : ∀ a ∈ prog.globals, a.comptime = true → a.type.isArray = false → a.reference = false
  inits : ∀ a ∈ prog.globals, a.reference = false → ∀ c ∈ a.init,
    c.WellTyped ∧ viewType c.type = viewType a.type

namespace Program.WellFormed

variable {env : Env} {prog : Program} {f g : Func}

theorem globals_nodup (h : prog.WellFormed env) : (prog.globals.map Alloc.id).Nodup := by
  have hall := h.allocs
  rw [List.map_append] at hall
  exact hall.of_append_left

theorem allocs_nodup (h : prog.WellFormed env) (hf : f ∈ prog.funcs) :
    ((f.params ++ f.locals).map Alloc.id).Nodup := by
  have hall := h.allocs
  rw [List.map_append, List.map_flatMap] at hall
  exact (List.nodup_flatMap.1 hall.of_append_right).1 f hf

theorem not_global (h : prog.WellFormed env) (hf : f ∈ prog.funcs) {a : AllocId}
    (ha : a ∈ f.allocs.map Alloc.id) : a ∉ prog.globals.map Alloc.id := by
  intro hg
  have hall := h.allocs
  rw [List.map_append, List.map_flatMap, List.nodup_append] at hall
  exact hall.2.2 a hg a (List.mem_flatMap.2 ⟨f, hf, ha⟩) rfl

/-- Different functions have different allocations. -/
theorem allocs_disjoint (h : prog.WellFormed env) (hf : f ∈ prog.funcs) (hg : g ∈ prog.funcs)
    (hne : f ≠ g) : (f.allocs.map Alloc.id).Disjoint (g.allocs.map Alloc.id) := by
  have hall := h.allocs
  rw [List.map_append, List.map_flatMap] at hall
  have hsymm : Std.Symm (Function.onFun List.Disjoint fun f : Func => f.allocs.map Alloc.id) :=
    ⟨fun _ _ h => h.symm⟩
  exact (List.nodup_flatMap.1 hall.of_append_right).2.forall hf hg hne

end Program.WellFormed

theorem Program.mem_of_findFunc {prog : Program} {f : Func} {name : String}
    (h : prog.findFunc name = some f) : f ∈ prog.funcs := List.mem_of_find?_eq_some h

/-! ## Blocks and their phis -/

namespace Block

variable {b : Block} {k : Nat} {i : Inst}

theorem phis_length : b.phis.length = (b.insts.takeWhile Inst.isPhi).length := by
  unfold phis
  have hall : ∀ i ∈ b.insts.takeWhile Inst.isPhi, i.isPhi = true := fun i hi =>
    List.all_eq_true.1 (List.all_takeWhile ..) i hi
  generalize b.insts.takeWhile Inst.isPhi = l at hall
  induction l with
  | nil => rfl
  | cons i l ih =>
    have hi := hall i (by simp)
    cases i with
    | phi p =>
      rw [List.filterMap_cons]
      exact congrArg (· + 1) (ih fun j hj => hall j (List.mem_cons_of_mem _ hj))
    | _ => cases hi

theorem results_phis : b.phis.filterMap PhiInst.result =
    (b.insts.takeWhile Inst.isPhi).filterMap Inst.definedVar := by
  unfold phis
  have hall : ∀ i ∈ b.insts.takeWhile Inst.isPhi, i.isPhi = true := fun i hi =>
    List.all_eq_true.1 (List.all_takeWhile ..) i hi
  generalize b.insts.takeWhile Inst.isPhi = l at hall
  induction l with
  | nil => rfl
  | cons i l ih =>
    have hi := hall i (by simp)
    cases i with
    | phi p =>
      have hrest := ih fun j hj => hall j (List.mem_cons_of_mem _ hj)
      rw [List.filterMap_cons, List.filterMap_cons, List.filterMap_cons, hrest]
      rfl
    | _ => cases hi

theorem phis_length_le : b.phis.length ≤ b.insts.length := by
  rw [phis_length]
  exact (List.takeWhile_prefix _).length_le

/-- The first instruction that is not a phi comes behind the phis. -/
theorem phis_length_le_of_get (hi : b.insts[k]? = some i) (hp : i.isPhi = false) :
    b.phis.length ≤ k := by
  rw [phis_length]
  by_contra hlt
  have hk : k < (b.insts.takeWhile Inst.isPhi).length := by omega
  have heq := (List.takeWhile_prefix Inst.isPhi).getElem hk
  have hmem := List.getElem_mem hk
  rw [heq, (List.getElem?_eq_some_iff.1 hi).2] at hmem
  have htrue := List.all_eq_true.1 (List.all_takeWhile ..) i hmem
  rw [hp] at htrue
  cases htrue

theorem mem_takeWhile_of_mem_phis {p : PhiInst} (hp : p ∈ b.phis) :
    .phi p ∈ b.insts.takeWhile Inst.isPhi := by
  obtain ⟨i, hi, h⟩ := List.mem_filterMap.1 hp
  cases i with
  | phi q =>
    cases h
    exact hi
  | _ => cases h

theorem mem_insts_of_mem_phis {p : PhiInst} (hp : p ∈ b.phis) : .phi p ∈ b.insts :=
  (List.takeWhile_prefix _).subset (mem_takeWhile_of_mem_phis hp)

theorem defsAt_phis : b.defsAt b.phis.length = b.phis.filterMap fun p => p.result.map LeftValue.var :=
  if_pos rfl

theorem defsAt_inst (hi : b.insts[k]? = some i) (hp : i.isPhi = false) :
    b.defsAt (k + 1) = (i.definedVar.map LeftValue.var).toList := by
  have hle := phis_length_le_of_get hi hp
  rw [defsAt, if_neg (by omega), if_neg (by omega), Nat.add_sub_cancel, hi]
  rfl

/-- What is defined on arrival at a point is the result of an instruction before it. -/
theorem mem_defsAt {v : Var} (h : v ∈ b.defsAt k) : ∃ j i r, b.insts[j]? = some i ∧
    i.definedVar = some r ∧ r.var = v ∧ k = if j < b.phis.length then b.phis.length else j + 1 := by
  unfold defsAt at h
  split at h
  · rename_i hk
    obtain ⟨p, hp, hpr⟩ := List.mem_filterMap.1 h
    obtain ⟨r, hr, rfl⟩ := Option.map_eq_some_iff.1 hpr
    obtain ⟨j, hj, hjp⟩ := List.mem_iff_getElem.1 (mem_takeWhile_of_mem_phis hp)
    refine ⟨j, .phi p, r, ?_, hr, rfl, ?_⟩
    · rw [← hjp, (List.takeWhile_prefix _).getElem hj]
      exact List.getElem?_eq_getElem _
    · rw [if_pos (phis_length ▸ hj), hk]
  · split at h
    · cases h
    · rename_i hne hlt
      obtain ⟨i, hi, hir⟩ := Option.bind_eq_some_iff.1 (Option.mem_toList.1 h)
      obtain ⟨r, hr, rfl⟩ := Option.map_eq_some_iff.1 hir
      exact ⟨k - 1, i, r, hi, hr, rfl, by rw [if_neg (by omega)]; omega⟩

end Block

namespace Func

variable {f : Func}

theorem block?_entrance {b : Block} (h : f.entrance = some b) : f.block? b.id = some b := by
  obtain ⟨bs, hbs⟩ := List.head?_eq_some_iff.1 h
  simp [block?, hbs]

theorem mem_of_block? {id : BlockId} {b : Block} (h : f.block? id = some b) :
    b ∈ f.blocks ∧ b.id = id :=
  ⟨List.mem_of_find?_eq_some h, by simpa using List.find?_some h⟩

theorem block?_self (hs : f.Ssa) {b : Block} (hb : b ∈ f.blocks) : f.block? b.id = some b := by
  have hsome : (f.block? b.id).isSome := List.find?_isSome.2 ⟨b, hb, by simp⟩
  obtain ⟨c, hc⟩ := Option.isSome_iff_exists.1 hsome
  obtain ⟨hmem, hid⟩ := mem_of_block? hc
  rw [hc, List.inj_on_of_nodup_map hs.blocks hmem hb hid]

/-- Instructions in different places have different results. -/
theorem Ssa.place_eq (h : f.Ssa) {id id' : BlockId} {b b' : Block} {j j' : Nat} {i i' : Inst}
    {r r' : LeftValue} (hb : f.block? id = some b) (hb' : f.block? id' = some b')
    (hi : b.insts[j]? = some i) (hi' : b'.insts[j']? = some i') (hr : i.definedVar = some r)
    (hr' : i'.definedVar = some r') (hv : r.var = r'.var) : b = b' ∧ j = j' := by
  obtain ⟨hmem, rfl⟩ := mem_of_block? hb
  obtain ⟨hmem', rfl⟩ := mem_of_block? hb'
  have hres := h.results
  unfold Func.results at hres
  rw [List.map_flatMap, List.nodup_flatMap] at hres
  have hin : ∀ {b : Block} {j : Nat} {i : Inst} {r : LeftValue}, b.insts[j]? = some i →
      i.definedVar = some r → r.var ∈ (b.insts.filterMap Inst.definedVar).map LeftValue.var :=
    fun hi hr => List.mem_map_of_mem (List.mem_filterMap.2 ⟨_, List.mem_of_getElem? hi, hr⟩)
  have hbb : b = b' := by
    by_contra hne
    have hsymm : Std.Symm (Function.onFun List.Disjoint fun b : Block =>
        (b.insts.filterMap Inst.definedVar).map LeftValue.var) := ⟨fun _ _ h => h.symm⟩
    exact hres.2.forall hmem hmem' hne (hin hi hr) (hv ▸ hin hi' hr')
  subst hbb
  refine ⟨rfl, ?_⟩
  have hpair := hres.1 b hmem
  rw [List.map_filterMap, List.Nodup, List.pairwise_filterMap, List.pairwise_iff_getElem] at hpair
  obtain ⟨hj, hij⟩ := List.getElem?_eq_some_iff.1 hi
  obtain ⟨hj', hij'⟩ := List.getElem?_eq_some_iff.1 hi'
  have hget : ∀ {i : Inst} {r : LeftValue}, i.definedVar = some r →
      i.definedVar.map LeftValue.var = some r.var := fun h => by rw [h]; rfl
  rcases Nat.lt_trichotomy j j' with hlt | heq | hlt
  · exact absurd hv (hpair j j' hj hj' hlt _ (hij ▸ hget hr) _ (hij' ▸ hget hr'))
  · exact heq
  · exact absurd hv.symm (hpair j' j hj' hj hlt _ (hij' ▸ hget hr') _ (hij ▸ hget hr))

theorem Ssa.unique (h : f.Ssa) (v : Var) : f.graph.Unique v := by
  intro p q hp hq
  cases p with
  | none => cases hp
  | some p =>
    cases q with
    | none => cases hq
    | some q =>
      obtain ⟨b, hb, hbv⟩ := hp
      obtain ⟨b', hb', hbv'⟩ := hq
      obtain ⟨j, i, r, hi, hr, hrv, hk⟩ := Block.mem_defsAt hbv
      obtain ⟨j', i', r', hi', hr', hrv', hk'⟩ := Block.mem_defsAt hbv'
      obtain ⟨rfl, rfl⟩ := h.place_eq hb hb' hi hi' hr hr' (hrv.trans hrv'.symm)
      have hid : p.1 = q.1 := (mem_of_block? hb).2.symm.trans (mem_of_block? hb').2
      exact congrArg some (Prod.ext hid (hk.trans hk'.symm))

/-- The phis of a block have different results. -/
theorem Ssa.phis (h : f.Ssa) {id : BlockId} {b : Block} (hb : f.block? id = some b) :
    (b.phis.filterMap PhiInst.result).Pairwise fun u v => u.var ≠ v.var := by
  have hres := h.results
  unfold Func.results at hres
  rw [List.map_flatMap, List.nodup_flatMap] at hres
  have hnodup := hres.1 b (mem_of_block? hb).1
  rw [List.Nodup, List.pairwise_map] at hnodup
  have hsub : (b.phis.filterMap PhiInst.result).Sublist (b.insts.filterMap Inst.definedVar) := by
    rw [Block.results_phis]
    exact (List.takeWhile_sublist Inst.isPhi).filterMap _
  exact hnodup.sublist hsub

/-- A result is defined somewhere. -/
theorem exists_defsAt {id : BlockId} {b : Block} {i : Inst} {r : LeftValue}
    (hb : f.block? id = some b) (hi : i ∈ b.insts) (hr : i.definedVar = some r) :
    ∃ q, f.defsAt q r.var := by
  obtain ⟨k, hk, hki⟩ := List.mem_iff_getElem.1 hi
  have hget : b.insts[k]? = some i := by rw [← hki]; exact List.getElem?_eq_getElem hk
  by_cases hlt : k < b.phis.length
  · refine ⟨some (id, b.phis.length), b, hb, ?_⟩
    have hmem : i ∈ b.insts.takeWhile Inst.isPhi := by
      rw [Block.phis_length] at hlt
      rw [← hki, ← (List.takeWhile_prefix Inst.isPhi).getElem hlt]
      exact List.getElem_mem hlt
    have hres : r ∈ b.phis.filterMap PhiInst.result := by
      rw [Block.results_phis]
      exact List.mem_filterMap.2 ⟨i, hmem, hr⟩
    rw [Block.defsAt_phis]
    obtain ⟨p, hp, hpr⟩ := List.mem_filterMap.1 hres
    exact List.mem_filterMap.2 ⟨p, hp, by rw [hpr]; rfl⟩
  · refine ⟨some (id, k + 1), b, hb, ?_⟩
    unfold Block.defsAt
    rw [if_neg (by omega), if_neg (by omega), Nat.add_sub_cancel, hget]
    simp [hr]

/-- The edges that lead to a definition: past the instruction, or along a jump to the phi. -/
theorem Ssa.edge_defines (h : f.Ssa) {p q : Point} {id : BlockId} {b : Block} {i : Inst}
    {r : LeftValue} (he : f.Edge p q) (hd : f.defsAt q r.var) (hb : f.block? id = some b)
    (hi : i ∈ b.insts) (hr : i.definedVar = some r) :
    (∃ k : Nat, b.insts[k]? = some i ∧ i.isPhi = false ∧ p = some (id, k) ∧ q = some (id, k + 1)) ∨
    ∃ ph src c, i = .phi ph ∧ ph ∈ b.phis ∧ f.block? src = some c ∧ id ∈ c.targets ∧
      p = some (src, c.insts.length) ∧ q = some (id, b.phis.length) := by
  obtain ⟨k, hk⟩ := List.mem_iff_getElem?.1 hi
  cases he with
  | @call b' hb' hp =>
    obtain ⟨c, hc, hv⟩ := hd
    rw [block?_entrance hb'] at hc
    cases hc
    have hlen : b'.phis.length = 0 := by rw [hp]; rfl
    have hphis := Block.defsAt_phis (b := b')
    rw [hlen, hp] at hphis
    rw [hphis] at hv
    cases hv
  | @inst id' b' k' i' hb' hi' hp =>
    obtain ⟨c, hc, hv⟩ := hd
    rw [hb'] at hc
    cases hc
    rw [Block.defsAt_inst hi' hp] at hv
    obtain ⟨r', hr', hrr⟩ := Option.map_eq_some_iff.1 (Option.mem_toList.1 hv)
    obtain ⟨rfl, rfl⟩ := h.place_eq hb' hb hi' hk hr' hr hrr
    have hid : id' = id := (mem_of_block? hb').2.symm.trans (mem_of_block? hb).2
    rw [hk] at hi'
    cases hi'
    subst hid
    exact .inl ⟨k', hk, hp, rfl, rfl⟩
  | @jump src t c b' hc ht hb' =>
    obtain ⟨d, hd, hv⟩ := hd
    rw [hb'] at hd
    cases hd
    rw [Block.defsAt_phis] at hv
    obtain ⟨ph, hph, hv⟩ := List.mem_filterMap.1 hv
    obtain ⟨r', hr', hrr⟩ := Option.map_eq_some_iff.1 hv
    obtain ⟨k', hk'⟩ := List.mem_iff_getElem?.1 (Block.mem_insts_of_mem_phis hph)
    obtain ⟨rfl, rfl⟩ := h.place_eq hb' hb hk' hk hr' hr hrr
    have hid : t = id := (mem_of_block? hb').2.symm.trans (mem_of_block? hb).2
    rw [hk] at hk'
    cases hk'
    subst hid
    exact .inr ⟨ph, src, c, rfl, hph, hc, ht, rfl, rfl⟩

end Func

end Ir
end Cact
