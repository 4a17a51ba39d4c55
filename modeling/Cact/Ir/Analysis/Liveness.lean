import Cact.Ir.Analysis.DataFlow

/-!
# Liveness (`analysis/dataflow/liveness.hpp`)

A variable is live at the start of a block when some path from there comes to a use of
it before any definition. A phi uses its argument at the end of the block the argument
belongs to.

- `liveness`: the `FlowTrait`, at the context `LiveContext.init` computes.
- `LiveIn`: liveness by paths.
- `liveness_exact`: the solver finds the variables that are live by paths.
-/

namespace Cact

namespace Ir

namespace Analysis

/-! ## The analysis -/

/-- What is collected in a block: `gen`, `kill` and its part of `phi_uses`. -/
structure LiveSets where
  gen : FlowSet Var
  kill : FlowSet Var
  phiUses : BlockId → Option (FlowSet Var)

namespace LiveSets

/-- An argument of a phi. -/
def phiArg (s : LiveSets) (arg : BlockId × Value) : LiveSets :=
  match arg.2.asVar with
  | none => s
  | some v => { s with
      phiUses := Function.update s.phiUses arg.1
        (some (((s.phiUses arg.1).getD .empty).insert v.var)) }

/-- A use, of a variable that is not defined before it in the block. -/
def use (s : LiveSets) (v : LeftValue) : LiveSets :=
  if s.kill.contains v.var then s else { s with gen := s.gen.insert v.var }

def define (s : LiveSets) (v : LeftValue) : LiveSets := { s with kill := s.kill.insert v.var }

/-- An instruction: what it uses, then what it defines. -/
def inst (s : LiveSets) (i : Inst) : LiveSets :=
  let s :=
    match i with
    | .phi p => p.args.foldl phiArg s
    | i => i.usedVars.foldl use s
  match i.definedVar with
  | none => s
  | some v => s.define v

/-- The sets of a block. -/
def block (b : Block) : Except Fault LiveSets := do
  let s := b.insts.foldl inst ⟨.empty, .empty, fun _ => none⟩
  match b.exit with
  | none => throw .nullPointer
  | some e =>
    match e.used.bind Value.asVar with
    | none => return s
    | some v => return s.use v

end LiveSets

/-- `Liveness::Context`. -/
structure LiveContext where
  gen : BlockId → Option (FlowSet Var)
  kill : BlockId → Option (FlowSet Var)
  phiUses : BlockId → Option (BlockId → Option (FlowSet Var))

namespace LiveContext

/-- What `init` does with a block. -/
def addBlock (ctx : LiveContext) (b : Block) : Except Fault LiveContext := do
  let s ← LiveSets.block b
  return {
    gen := Function.update ctx.gen b.id (some s.gen)
    kill := Function.update ctx.kill b.id (some s.kill)
    phiUses := Function.update ctx.phiUses b.id (some s.phiUses) }

/-- `init`. -/
def init (cfg : ControlFlowGraph) : Except Fault LiveContext :=
  cfg.func.blocks.foldlM addBlock ⟨fun _ => none, fun _ => none, fun _ => none⟩

/-- `.at` on one of the maps. -/
def at? (m : BlockId → Option (FlowSet Var)) (b : BlockId) : Except Fault (FlowSet Var) :=
  match m b with
  | none => .error .outOfRange
  | some s => .ok s

end LiveContext

/-- `flow::Liveness` at a context. -/
def liveness (ctx : LiveContext) : FlowTrait (FlowSet Var) where
  isForward := false
  boundary := .empty
  top := .empty
  meet := .unionSet
  transfer blk out := do
    let kill ← LiveContext.at? ctx.kill blk.id
    let gen ← LiveContext.at? ctx.gen blk.id
    let rest ← out.difference kill
    return rest.unionSet gen
  edgeTransfer src dst dstIn :=
    match (ctx.phiUses dst).bind fun uses => uses src with
    | some uses => dstIn.unionSet uses
    | none => dstIn

/-- The analysis of a function. -/
def solveLiveness (cfg : ControlFlowGraph) (fuel : Nat) :
    Except Fault (Option (DataFlow (FlowSet Var))) := do
  let ctx ← LiveContext.init cfg
  (liveness ctx).solve cfg fuel

/-! ## Liveness by paths -/

/-- The instruction defines the variable. -/
def Defines (v : Var) (i : Inst) : Prop := ∃ r, i.definedVar = some r ∧ r.var = v

/-- The instruction uses the variable itself, and not as a phi does. -/
def Uses (v : Var) (i : Inst) : Prop := i.isPhi = false ∧ ∃ u ∈ i.usedVars, u.var = v

/-- The phi has the variable as an argument for the block. -/
def PhiUses (v : Var) (b : BlockId) (i : Inst) : Prop :=
  ∃ p u, i = .phi p ∧ (b, .left u) ∈ p.args ∧ u.var = v

/-- Control passes from one point to the next. A point of a block is in front of one of its
instructions, or of the exit. -/
inductive Next (f : Func) : Block × Nat → Block × Nat → Prop
  | inst {b : Block} {k : Nat} (hb : b ∈ f.blocks) (hk : k < b.insts.length) :
      Next f (b, k) (b, k + 1)
  | jump {b c : Block} (hb : b ∈ f.blocks) (hc : c ∈ f.blocks) (ht : c.id ∈ b.targets) :
      Next f (b, b.insts.length) (c, 0)

/-- The variable is used at a point. -/
inductive UsedAt (f : Func) (v : Var) : Block × Nat → Prop
  | inst {b : Block} {k : Nat} {i : Inst} (hi : b.insts[k]? = some i) (hu : Uses v i) :
      UsedAt f v (b, k)
  | exit {b : Block} {e : Exit} {u : LeftValue} (he : b.exit = some e)
      (hu : e.used = some (.left u)) (hv : u.var = v) : UsedAt f v (b, b.insts.length)
  | phi {b c : Block} {i : Inst} (hc : c ∈ f.blocks) (ht : c.id ∈ b.targets) (hi : i ∈ c.insts)
      (hu : PhiUses v b.id i) : UsedAt f v (b, b.insts.length)

/-- The next instruction defines the variable. -/
def DefinedAt (v : Var) (p : Block × Nat) : Prop := ∃ i, p.1.insts[p.2]? = some i ∧ Defines v i

/-- A step of a path that does not define the variable. -/
def Passes (f : Func) (v : Var) (p q : Block × Nat) : Prop := Next f p q ∧ ¬DefinedAt v p

/-- Some path from the start of the block comes to a use before any definition. -/
def LiveIn (f : Func) (v : Var) (b : Block) : Prop :=
  ∃ q, Relation.ReflTransGen (Passes f v) (b, 0) q ∧ UsedAt f v q

/-! ## The sets of a block -/

namespace LiveSets

variable {s : LiveSets} {v : Var} {i : Inst} {p : BlockId}

/-- The variable is among the uses of a phi for the block `p`. -/
def HasPhiUse (s : LiveSets) (p : BlockId) (v : Var) : Prop :=
  ((s.phiUses p).getD .empty).contains v = true

theorem foldl_phiArg_gen (args : List (BlockId × Value)) (s : LiveSets) :
    (args.foldl phiArg s).gen = s.gen ∧ (args.foldl phiArg s).kill = s.kill := by
  induction args generalizing s with
  | nil => exact ⟨rfl, rfl⟩
  | cons a args ih =>
    have ha : (phiArg s a).gen = s.gen ∧ (phiArg s a).kill = s.kill := by
      unfold phiArg
      split
      · exact ⟨rfl, rfl⟩
      · exact ⟨rfl, rfl⟩
    rw [List.foldl_cons, (ih _).1, (ih _).2]
    exact ha

theorem hasPhiUse_phiArg {a : BlockId × Value} :
    (s.phiArg a).HasPhiUse p v ↔ s.HasPhiUse p v ∨ ∃ u, a = (p, .left u) ∧ u.var = v := by
  obtain ⟨q, x⟩ := a
  cases x with
  | const c => simp [phiArg, Value.asVar]
  | left u =>
    by_cases hq : p = q
    · subst hq
      simp only [HasPhiUse, phiArg, Value.asVar, Function.update_self, Option.getD_some,
        FlowSet.contains_insert, Bool.or_eq_true, decide_eq_true_iff, Prod.mk.injEq, true_and,
        Value.left.injEq, exists_eq_left']
      rw [or_comm, @eq_comm _ v]
    · simp [HasPhiUse, phiArg, Value.asVar, hq, Ne.symm hq]

theorem hasPhiUse_foldl {args : List (BlockId × Value)} :
    (args.foldl phiArg s).HasPhiUse p v ↔
      s.HasPhiUse p v ∨ ∃ u, (p, .left u) ∈ args ∧ u.var = v := by
  induction args generalizing s with
  | nil => simp
  | cons a args ih =>
    rw [List.foldl_cons, ih, hasPhiUse_phiArg, or_assoc]
    refine or_congr_right ?_
    constructor
    · rintro (⟨u, rfl, hu⟩ | ⟨u, hmem, hu⟩)
      · exact ⟨u, by simp, hu⟩
      · exact ⟨u, List.mem_cons_of_mem _ hmem, hu⟩
    · rintro ⟨u, hmem, hu⟩
      rcases List.mem_cons.1 hmem with rfl | hmem
      · exact .inl ⟨u, rfl, hu⟩
      · exact .inr ⟨u, hmem, hu⟩

theorem use_kill (u : LeftValue) : (s.use u).kill = s.kill := by
  unfold use
  split <;> rfl

theorem use_phiUses (u : LeftValue) : (s.use u).phiUses = s.phiUses := by
  unfold use
  split <;> rfl

theorem contains_use {u : LeftValue} : (s.use u).gen.contains v = true ↔
    s.gen.contains v = true ∨ (u.var = v ∧ s.kill.contains v = false) := by
  unfold use
  split
  next hk =>
    constructor
    · exact .inl
    · rintro (h | ⟨rfl, h⟩)
      · exact h
      · rw [hk] at h
        cases h
  next hk =>
    rw [FlowSet.contains_insert, Bool.or_eq_true, decide_eq_true_iff, or_comm, @eq_comm _ v]
    refine or_congr_right (iff_self_and.2 ?_)
    rintro rfl
    simpa using hk

theorem foldl_use {us : List LeftValue} :
    (us.foldl use s).kill = s.kill ∧ (us.foldl use s).phiUses = s.phiUses ∧
      ((us.foldl use s).gen.contains v = true ↔
        s.gen.contains v = true ∨ ((∃ u ∈ us, u.var = v) ∧ s.kill.contains v = false)) := by
  induction us generalizing s with
  | nil => simp
  | cons u us ih =>
    obtain ⟨hkill, hphi, hgen⟩ := ih (s := s.use u)
    refine ⟨hkill.trans (use_kill u), hphi.trans (use_phiUses u), ?_⟩
    rw [List.foldl_cons, hgen, contains_use, use_kill, List.exists_mem_cons_iff, or_and_right,
      or_assoc]

/-- The sets after the uses of an instruction. -/
theorem uses_spec {t : LiveSets} (ht : t = match i with
      | .phi p => p.args.foldl phiArg s
      | i => i.usedVars.foldl use s) :
    t.kill = s.kill ∧ (t.gen.contains v = true ↔
      s.gen.contains v = true ∨ (Uses v i ∧ s.kill.contains v = false)) ∧
    (t.HasPhiUse p v ↔ s.HasPhiUse p v ∨ PhiUses v p i) := by
  cases i with
  | phi q =>
    obtain ⟨hgen, hkill⟩ := foldl_phiArg_gen q.args s
    rw [ht]
    refine ⟨hkill, ?_, ?_⟩
    · rw [hgen]
      simp [Uses, Inst.isPhi]
    · rw [hasPhiUse_foldl]
      simp [PhiUses]
  | _ =>
    obtain ⟨hkill, hphi, hgen⟩ := foldl_use (s := s) (v := v)
    rw [ht]
    refine ⟨hkill, ?_, ?_⟩
    · rw [hgen]
      simp [Uses, Inst.isPhi]
    · unfold HasPhiUse
      rw [hphi]
      simp [PhiUses]

/-- What an instruction does to the sets. -/
theorem inst_spec : ((s.inst i).kill.contains v = true ↔ s.kill.contains v = true ∨ Defines v i) ∧
    ((s.inst i).gen.contains v = true ↔
      s.gen.contains v = true ∨ (Uses v i ∧ s.kill.contains v = false)) ∧
    ((s.inst i).HasPhiUse p v ↔ s.HasPhiUse p v ∨ PhiUses v p i) := by
  obtain ⟨hkill, hgen, hphi⟩ := uses_spec (s := s) (i := i) (v := v) (p := p) rfl
  unfold inst
  dsimp only
  split
  next hnone =>
    refine ⟨?_, hgen, hphi⟩
    rw [hkill]
    simp [Defines, hnone]
  next r hr =>
    refine ⟨?_, hgen, hphi⟩
    show (FlowSet.insert _ r.var).contains v = true ↔ _
    rw [FlowSet.contains_insert, Bool.or_eq_true, decide_eq_true_iff, hkill, or_comm, @eq_comm _ v]
    refine or_congr_right ⟨fun h => ⟨r, hr, h⟩, ?_⟩
    rintro ⟨r', hr', h⟩
    cases hr.symm.trans hr'
    exact h

/-- An instruction of the list uses the variable, and none before it defines it. -/
def UsedFirst (v : Var) (l : List Inst) : Prop :=
  ∃ (k : Nat) (i : Inst), l[k]? = some i ∧ Uses v i ∧
    ∀ (j : Nat) (i' : Inst), j < k → l[j]? = some i' → ¬Defines v i'

theorem usedFirst_cons {l : List Inst} :
    UsedFirst v (i :: l) ↔ Uses v i ∨ (¬Defines v i ∧ UsedFirst v l) := by
  constructor
  · rintro ⟨k, i', hi', hu, hbefore⟩
    cases k with
    | zero =>
      cases hi'
      exact .inl hu
    | succ k =>
      refine .inr ⟨hbefore 0 i (by omega) rfl, k, i', hi', hu, fun j j' hj hj' => ?_⟩
      exact hbefore (j + 1) j' (by omega) hj'
  · rintro (hu | ⟨hd, k, i', hi', hu, hbefore⟩)
    · exact ⟨0, i, rfl, hu, by simp⟩
    · refine ⟨k + 1, i', hi', hu, fun j j' hj hj' => ?_⟩
      cases j with
      | zero =>
        cases hj'
        exact hd
      | succ j => exact hbefore j j' (by omega) hj'

/-- What a list of instructions does to the sets. -/
theorem foldl_inst {l : List Inst} :
    ((l.foldl inst s).kill.contains v = true ↔ s.kill.contains v = true ∨ ∃ i ∈ l, Defines v i) ∧
    ((l.foldl inst s).gen.contains v = true ↔ s.gen.contains v = true ∨
      (s.kill.contains v = false ∧ UsedFirst v l)) ∧
    ((l.foldl inst s).HasPhiUse p v ↔ s.HasPhiUse p v ∨ ∃ i ∈ l, PhiUses v p i) := by
  induction l generalizing s with
  | nil => simp [UsedFirst]
  | cons i l ih =>
    obtain ⟨hkill, hgen, hphi⟩ := inst_spec (s := s) (i := i) (v := v) (p := p)
    obtain ⟨hkill', hgen', hphi'⟩ := ih (s := s.inst i)
    refine ⟨?_, ?_, ?_⟩
    · rw [List.foldl_cons, hkill', hkill, or_assoc, List.exists_mem_cons_iff]
    · have hfalse : (s.inst i).kill.contains v = false ↔
          s.kill.contains v = false ∧ ¬Defines v i := by
        rw [← Bool.not_eq_true, hkill, not_or, Bool.not_eq_true]
      rw [List.foldl_cons, hgen', hgen, hfalse, usedFirst_cons, or_assoc, and_assoc,
        @and_comm (Uses v i), ← and_or_left]
    · rw [List.foldl_cons, hphi', hphi, or_assoc, List.exists_mem_cons_iff]

/-- What the sets of a block hold. -/
structure Spec (b : Block) (s : LiveSets) : Prop where
  kill : ∀ v, s.kill.contains v = true ↔ ∃ i ∈ b.insts, Defines v i
  gen : ∀ v, s.gen.contains v = true ↔
    UsedFirst v b.insts ∨ ((∃ e u, b.exit = some e ∧ e.used = some (.left u) ∧ u.var = v) ∧
      ¬∃ i ∈ b.insts, Defines v i)
  phiUses : ∀ p v, s.HasPhiUse p v ↔ ∃ i ∈ b.insts, PhiUses v p i

theorem block_spec {b : Block} (hb : b.exit.isSome) : ∃ s, block b = .ok s ∧ Spec b s := by
  obtain ⟨e, he⟩ := Option.isSome_iff_exists.1 hb
  have hinsts := fun v p => foldl_inst (s := ⟨.empty, .empty, fun _ => none⟩) (l := b.insts)
    (v := v) (p := p)
  simp only [HasPhiUse, Option.getD_none, FlowSet.contains_empty, Bool.false_eq_true, false_or,
    true_and] at hinsts
  unfold block
  dsimp only
  rw [he]
  generalize b.insts.foldl inst ⟨.empty, .empty, fun _ => none⟩ = s at hinsts
  dsimp only
  cases hu : e.used.bind Value.asVar with
  | none =>
    refine ⟨s, rfl, fun v => (hinsts v 0).1, fun v => ?_, fun p v => (hinsts v p).2.2⟩
    rw [(hinsts v 0).2.1]
    refine (or_iff_left ?_).symm
    rintro ⟨⟨e', u, he', hu', -⟩, -⟩
    cases he.symm.trans he'
    rw [hu'] at hu
    cases hu
  | some u =>
    have hused : e.used = some (.left u) := by
      obtain ⟨x, hx, hxu⟩ := Option.bind_eq_some_iff.1 hu
      cases x with
      | const c => cases hxu
      | left u' =>
        cases hxu
        exact hx
    refine ⟨s.use u, rfl, fun v => ?_, fun v => ?_, fun p v => ?_⟩
    · rw [use_kill]
      exact (hinsts v 0).1
    · rw [contains_use, (hinsts v 0).2.1, ← Bool.not_eq_true, (hinsts v 0).1]
      refine or_congr_right (and_congr_left' ?_)
      constructor
      · exact fun huv => ⟨e, u, he, hused, huv⟩
      · rintro ⟨e', u', he', hu', huv⟩
        cases he.symm.trans he'
        cases hused.symm.trans hu'
        exact huv
    · unfold HasPhiUse
      rw [use_phiUses]
      exact (hinsts v p).2.2

end LiveSets

/-! ## The context -/

instance : Infinite Var := Infinite.of_injective Var.temp fun _ _ h => Var.temp.inj h

/-- The variables of a function. -/
def vars (f : Func) : Finset Var :=
  (f.blocks.flatMap fun b =>
    (b.insts.flatMap fun i => i.usedVars.map LeftValue.var ++ (i.definedVar.map LeftValue.var).toList) ++
    ((b.exit.bind Exit.used).bind Value.var?).toList).toFinset

section

variable {f : Func} {b : Block} {i : Inst} {v : Var} {cfg : ControlFlowGraph} {ctx : LiveContext}

theorem mem_vars_of_inst (hb : b ∈ f.blocks) (hi : i ∈ b.insts)
    (h : Uses v i ∨ Defines v i ∨ ∃ p, PhiUses v p i) : v ∈ vars f := by
  have hmem : ∀ w, w ∈ i.usedVars.map LeftValue.var ++ (i.definedVar.map LeftValue.var).toList →
      w ∈ vars f := by
    intro w hw
    refine List.mem_toFinset.2 (List.mem_flatMap.2 ⟨b, hb, List.mem_append_left _ ?_⟩)
    exact List.mem_flatMap.2 ⟨i, hi, hw⟩
  refine hmem v (List.mem_append.2 ?_)
  rcases h with ⟨-, u, hu, rfl⟩ | ⟨r, hr, rfl⟩ | ⟨p, q, u, rfl, hu, rfl⟩
  · exact .inl (List.mem_map_of_mem hu)
  · exact .inr (by simp [hr])
  · refine .inl (List.mem_map_of_mem (List.mem_filterMap.2 ⟨.left u, ?_, rfl⟩))
    exact List.mem_map_of_mem hu

theorem mem_vars_of_exit (hb : b ∈ f.blocks)
    (h : ∃ e u, b.exit = some e ∧ e.used = some (.left u) ∧ u.var = v) : v ∈ vars f := by
  obtain ⟨e, u, he, hu, rfl⟩ := h
  refine List.mem_toFinset.2 (List.mem_flatMap.2 ⟨b, hb, List.mem_append_right _ ?_⟩)
  simp [he, hu, Value.var?]

namespace LiveContext

/-- The context of a function, after the blocks outside of `rest`. -/
structure Holds (f : Func) (rest : List Block) (ctx : LiveContext) : Prop where
  mem : ∀ b ∈ rest, b ∈ f.blocks
  block : ∀ b ∈ f.blocks, b ∉ rest → ∃ s, LiveSets.Spec b s ∧ ctx.gen b.id = some s.gen ∧
    ctx.kill b.id = some s.kill ∧ ctx.phiUses b.id = some s.phiUses
  outside : ∀ n, n ∉ f.blocks.map Block.id → ctx.phiUses n = none

theorem init_spec (h : cfg.Of f) (hd : f.Distinct) : Yields (init cfg) (Holds f []) := by
  unfold init
  rw [h.func_eq]
  refine Yields.foldlM (I := Holds f) ?_
    ⟨fun b hb => hb, fun b hb hn => absurd hb hn, fun n _ => rfl⟩
  intro c rest ctx hc
  have hmem := hc.mem c (by simp)
  obtain ⟨s, hs, hspec⟩ := LiveSets.block_spec (h.exits c hmem)
  unfold addBlock
  rw [hs]
  refine Yields.pure ⟨fun b hb => hc.mem b (List.mem_cons_of_mem c hb), fun b hb hrest => ?_,
    fun n hn => ?_⟩
  · by_cases hbc : b = c
    · subst hbc
      exact ⟨s, hspec, Function.update_self .., Function.update_self .., Function.update_self ..⟩
    · have hid : b.id ≠ c.id := fun hid => hbc (hd.eq_of_id hb hmem hid)
      obtain ⟨s', hspec', hgen, hkill, hphi⟩ := hc.block b hb (by simp [hbc, hrest])
      exact ⟨s', hspec', (Function.update_of_ne hid ..).trans hgen,
        (Function.update_of_ne hid ..).trans hkill, (Function.update_of_ne hid ..).trans hphi⟩
  · have hne : n ≠ c.id := by
      rintro rfl
      exact hn (List.mem_map_of_mem hmem)
    exact (Function.update_of_ne hne ..).trans (hc.outside n hn)

end LiveContext

/-! ## The solution -/

/-- A set of variables of the function. -/
def Bounded (f : Func) : FlowSet Var → Prop
  | .univ => False
  | .of s => s ⊆ vars f

theorem Bounded.of_contains {d : FlowSet Var} (h : ∀ v, d.contains v = true → v ∈ vars f) :
    Bounded f d := by
  obtain ⟨s, hs, rfl⟩ := FlowSet.eq_of_of_bounded h
  exact hs

theorem Bounded.mem_vars {d : FlowSet Var} (h : Bounded f d) (hv : d.contains v = true) :
    v ∈ vars f := by
  cases d with
  | univ => exact h.elim
  | of s => exact h (by simpa [FlowSet.contains] using hv)

/-- What `edge_transfer` adds on the edge from `src` to `dst`. -/
def edgeUses (ctx : LiveContext) (src dst : BlockId) : FlowSet Var :=
  ((ctx.phiUses dst).bind fun uses => uses src).getD .empty

theorem contains_edgeTransfer {src dst : BlockId} {d : FlowSet Var} :
    ((liveness ctx).edgeTransfer src dst d).contains v = true ↔
      d.contains v = true ∨ (edgeUses ctx src dst).contains v = true := by
  unfold edgeUses liveness
  dsimp only
  cases (ctx.phiUses dst).bind fun uses => uses src with
  | none => simp
  | some uses => simp

/-- What `transfer` returns. -/
def through (ctx : LiveContext) (b : Block) (d : FlowSet Var) : FlowSet Var :=
  (d.minus ((ctx.kill b.id).getD .empty)).unionSet ((ctx.gen b.id).getD .empty)

theorem contains_through {d : FlowSet Var} (hc : LiveContext.Holds f [] ctx) (hb : b ∈ f.blocks)
    (hd : Bounded f d) : (through ctx b d).contains v = true ↔
      (d.contains v = true ∧ ¬∃ i ∈ b.insts, Defines v i) ∨
        ((ctx.gen b.id).getD .empty).contains v = true := by
  obtain ⟨s, hs, -, hkill, -⟩ := hc.block b hb (by simp)
  obtain ⟨k, hk, hkeq⟩ := FlowSet.eq_of_of_bounded (a := s.kill) (u := vars f) fun w hw => by
    obtain ⟨i, hi, hdef⟩ := (hs.kill w).1 hw
    exact mem_vars_of_inst hb hi (.inr (.inl hdef))
  have hkc := hs.kill v
  unfold through
  rw [hkill, Option.getD_some, FlowSet.contains_unionSet, Bool.or_eq_true]
  refine or_congr_left ?_
  rw [← hkc, hkeq]
  cases d with
  | univ => exact hd.elim
  | of t => simp [FlowSet.minus, FlowSet.contains]

theorem gen_iff (hc : LiveContext.Holds f [] ctx) (hb : b ∈ f.blocks) :
    ((ctx.gen b.id).getD .empty).contains v = true ↔ LiveSets.UsedFirst v b.insts ∨
      ((∃ e u, b.exit = some e ∧ e.used = some (.left u) ∧ u.var = v) ∧
        ¬∃ i ∈ b.insts, Defines v i) := by
  obtain ⟨s, hs, hgen, -, -⟩ := hc.block b hb (by simp)
  rw [hgen]
  exact hs.gen v

theorem edgeUses_iff (hc : LiveContext.Holds f [] ctx) (hb : b ∈ f.blocks) {src : BlockId} :
    (edgeUses ctx src b.id).contains v = true ↔ ∃ i ∈ b.insts, PhiUses v src i := by
  obtain ⟨s, hs, -, -, hphi⟩ := hc.block b hb (by simp)
  unfold edgeUses
  rw [hphi]
  exact hs.phiUses src v

theorem bounded_edgeUses (hc : LiveContext.Holds f [] ctx) (src dst : BlockId)
    (hv : (edgeUses ctx src dst).contains v = true) : v ∈ vars f := by
  by_cases hdst : dst ∈ f.blocks.map Block.id
  · obtain ⟨b, hb, rfl⟩ := List.mem_map.1 hdst
    obtain ⟨i, hi, hu⟩ := (edgeUses_iff hc hb).1 hv
    exact mem_vars_of_inst hb hi (.inr (.inr ⟨src, hu⟩))
  · simp [edgeUses, hc.outside dst hdst] at hv

theorem bounded_through {d : FlowSet Var} (hc : LiveContext.Holds f [] ctx) (hb : b ∈ f.blocks)
    (hd : Bounded f d) : Bounded f (through ctx b d) := by
  refine .of_contains fun v hv => ?_
  rw [contains_through hc hb hd, gen_iff hc hb] at hv
  rcases hv with ⟨hv, -⟩ | ⟨k, i, hi, hu, -⟩ | ⟨hexit, -⟩
  · exact hd.mem_vars hv
  · exact mem_vars_of_inst hb (List.mem_of_getElem? hi) (.inl hu)
  · exact mem_vars_of_exit hb hexit

/-- The sets of live variables grow towards a solution. -/
def livenessLawful (h : cfg.Of f) (hc : LiveContext.Holds f [] ctx) :
    (liveness ctx).Lawful cfg where
  le d d' := d'.Le d
  ok := Bounded f
  rank d :=
    match d with
    | .univ => 0
    | .of s => (vars f).card - s.card
  value := through ctx
  le_refl _ := .refl
  le_trans _ _ _ hd hd' := .trans hd' hd
  rank_lt d d' hd hd' hle hne := by
    cases d with
    | univ => exact hd.elim
    | of s =>
      cases d' with
      | univ => exact hd'.elim
      | of t =>
        have hcard := Finset.card_le_card hd
        have hlt : t.card < s.card := Finset.card_lt_card
          (Finset.ssubset_iff_subset_ne.2 ⟨hle, fun heq => hne (congrArg FlowSet.of heq.symm)⟩)
        dsimp only
        omega
  le_top d := by
    show FlowSet.empty.Le d
    cases d with
    | univ => trivial
    | of s => exact Finset.empty_subset s
  meet_le_left _ _ := FlowSet.le_unionSet_left
  meet_le_right _ _ := FlowSet.le_unionSet_right
  le_meet _ _ _ hd hd' := FlowSet.unionSet_le hd hd'
  edge_mono src dst d d' hle := by
    unfold liveness
    dsimp only
    split
    · exact FlowSet.unionSet_le (hle.trans FlowSet.le_unionSet_left) FlowSet.le_unionSet_right
    · exact hle
  value_mono b d d' hle :=
    FlowSet.unionSet_le ((FlowSet.minus_mono hle).trans FlowSet.le_unionSet_left)
      FlowSet.le_unionSet_right
  transfer_eq b hb d hd := by
    obtain ⟨s, -, hgen, hkill, -⟩ := hc.block b (h.func_eq ▸ hb) (by simp)
    cases d with
    | univ => exact hd.elim
    | of t =>
      show (do
        let kill ← LiveContext.at? ctx.kill b.id
        let gen ← LiveContext.at? ctx.gen b.id
        let rest ← (FlowSet.of t).difference kill
        return rest.unionSet gen : Except Fault (FlowSet Var)) = _
      simp only [LiveContext.at?, hgen, hkill, through, bind, Except.bind, FlowSet.difference_of,
        Option.getD_some]
      rfl
  ok_default := Finset.empty_subset _
  ok_top := Finset.empty_subset _
  ok_boundary := Finset.empty_subset _
  ok_meet d d' hd hd' := .of_contains fun v hv => by
    have hor : d.contains v = true ∨ d'.contains v = true := by
      have hv : (d.unionSet d').contains v = true := hv
      simpa using hv
    exact hor.elim hd.mem_vars hd'.mem_vars
  ok_edge src dst d hd := .of_contains fun v hv => by
    rcases contains_edgeTransfer.1 hv with hv | hv
    · exact hd.mem_vars hv
    · exact bounded_edgeUses hc src dst hv
  ok_value b hb d hd := bounded_through hc (h.func_eq ▸ hb) hd

theorem contains_gather_liveness {x : BlockId → FlowSet Var} :
    ((liveness ctx).gather cfg b x).contains v = true ↔ ∃ t ∈ cfg.succ b.id,
      (x t).contains v = true ∨ (edgeUses ctx b.id t).contains v = true := by
  have hfold : ∀ (ts : List BlockId) (d : FlowSet Var),
      (ts.foldl (fun newIn p => newIn.unionSet ((liveness ctx).edgeTransfer b.id p (x p))) d).contains
        v = true ↔ d.contains v = true ∨ ∃ t ∈ ts,
          (x t).contains v = true ∨ (edgeUses ctx b.id t).contains v = true := by
    intro ts
    induction ts with
    | nil => simp
    | cons t ts ih =>
      intro d
      rw [List.foldl_cons, ih, FlowSet.contains_unionSet, Bool.or_eq_true, contains_edgeTransfer,
        List.exists_mem_cons_iff, or_assoc]
  have hgather : ((liveness ctx).gather cfg b x).contains v = true ↔
      (((cfg.succ b.id).foldl
        (fun newIn p => newIn.unionSet ((liveness ctx).edgeTransfer b.id p (x p)))
        FlowSet.empty).contains v = true) := by
    unfold FlowTrait.gather
    dsimp only
    split
    · show (FlowSet.unionSet _ FlowSet.empty).contains v = true ↔ _
      rw [FlowSet.contains_unionSet, FlowSet.contains_empty, Bool.or_false]
      rfl
    · rfl
  rw [hgather, hfold, FlowSet.contains_empty]
  simp

/-! ## Paths -/

theorem passes_block (hb : b ∈ f.blocks) {k : Nat} (hk : k ≤ b.insts.length)
    (hn : ∀ (j : Nat) (i : Inst), j < k → b.insts[j]? = some i → ¬Defines v i) :
    Relation.ReflTransGen (Passes f v) (b, 0) (b, k) := by
  induction k with
  | zero => exact .refl
  | succ k ih =>
    refine .tail (ih (by omega) fun j i hj => hn j i (by omega)) ⟨.inst hb hk, ?_⟩
    rintro ⟨i, hi, hd⟩
    exact hn k i (by omega) hi hd

theorem passes_through (hb : b ∈ f.blocks) (hn : ¬∃ i ∈ b.insts, Defines v i) :
    Relation.ReflTransGen (Passes f v) (b, 0) (b, b.insts.length) :=
  passes_block hb le_rfl fun _ i _ hi hd => hn ⟨i, List.mem_of_getElem? hi, hd⟩

theorem not_definedAt_end : ¬DefinedAt v (b, b.insts.length) := by
  rintro ⟨i, hi, -⟩
  rw [List.getElem?_eq_none le_rfl] at hi
  cases hi

/-- A variable that the block uses first is live. -/
theorem liveIn_of_gen (hb : b ∈ f.blocks) (h : LiveSets.UsedFirst v b.insts ∨
      ((∃ e u, b.exit = some e ∧ e.used = some (.left u) ∧ u.var = v) ∧
        ¬∃ i ∈ b.insts, Defines v i)) : LiveIn f v b := by
  rcases h with ⟨k, i, hi, hu, hn⟩ | ⟨⟨e, u, he, hu, hv⟩, hn⟩
  · have hk : k < b.insts.length := (List.getElem?_eq_some_iff.1 hi).1
    exact ⟨(b, k), passes_block hb hk.le hn, .inst hi hu⟩
  · exact ⟨_, passes_through hb hn, .exit he hu hv⟩

/-- So is one that the block does not define and a successor needs. -/
theorem liveIn_of_succ {c : Block} (hb : b ∈ f.blocks) (hc : c ∈ f.blocks) (ht : c.id ∈ b.targets)
    (hn : ¬∃ i ∈ b.insts, Defines v i)
    (h : LiveIn f v c ∨ ∃ i ∈ c.insts, PhiUses v b.id i) : LiveIn f v b := by
  rcases h with ⟨q, hq, hu⟩ | ⟨i, hi, hu⟩
  · refine ⟨q, (passes_through hb hn).trans (.head ⟨.jump hb hc ht, not_definedAt_end⟩ hq), hu⟩
  · exact ⟨_, passes_through hb hn, .phi hc ht hi hu⟩

/-- Along a path that does not define the variable it stays in the sets, back to the point
where the path starts. -/
theorem live_back {x : BlockId → FlowSet Var}
    (hsolved : ∀ c ∈ f.blocks, LiveSets.UsedFirst v c.insts ∨
      ((¬∃ i ∈ c.insts, Defines v i) ∧ ((∃ e u, c.exit = some e ∧ e.used = some (.left u) ∧
        u.var = v) ∨ ∃ d ∈ f.blocks, d.id ∈ c.targets ∧
          ((x d.id).contains v = true ∨ ∃ i ∈ d.insts, PhiUses v c.id i))) →
        (x c.id).contains v = true)
    {p q : Block × Nat} (hpq : Relation.ReflTransGen (Passes f v) p q) (hu : UsedAt f v q)
    (hp : p.1 ∈ f.blocks) :
    (∃ (k : Nat) (i : Inst), p.2 ≤ k ∧ p.1.insts[k]? = some i ∧ Uses v i ∧
      ∀ (j : Nat) (i' : Inst), p.2 ≤ j → j < k → p.1.insts[j]? = some i' → ¬Defines v i') ∨
    ((∀ (j : Nat) (i' : Inst), p.2 ≤ j → p.1.insts[j]? = some i' → ¬Defines v i') ∧
      ((∃ e u, p.1.exit = some e ∧ e.used = some (.left u) ∧ u.var = v) ∨
        ∃ d ∈ f.blocks, d.id ∈ p.1.targets ∧
          ((x d.id).contains v = true ∨ ∃ i ∈ d.insts, PhiUses v p.1.id i))) := by
  induction hpq using Relation.ReflTransGen.head_induction_on with
  | refl =>
    have hend : ∀ (b : Block) (j : Nat) (i' : Inst), b.insts.length ≤ j →
        b.insts[j]? = some i' → ¬Defines v i' := by
      intro b j i' hj hi'
      rw [List.getElem?_eq_none hj] at hi'
      cases hi'
    cases hu with
    | inst hi hu =>
      exact .inl ⟨_, _, le_rfl, hi, hu, fun j i' hj hj' => absurd hj (by simpa using hj')⟩
    | exit he hu hv => exact .inr ⟨hend _, .inl ⟨_, _, he, hu, hv⟩⟩
    | phi hc ht hi hu => exact .inr ⟨hend _, .inr ⟨_, hc, ht, .inr ⟨_, hi, hu⟩⟩⟩
  | head hstep _ ih =>
    obtain ⟨hnext, hdef⟩ := hstep
    cases hnext with
    | @inst b k hb hk =>
      -- the instruction at `k` does not define the variable
      have hhere : ∀ (j : Nat) (i' : Inst), k ≤ j → (k + 1 ≤ j → ¬Defines v i') →
          b.insts[j]? = some i' → ¬Defines v i' := by
        intro j i' hj hlater hi' hd
        rcases Nat.eq_or_lt_of_le hj with rfl | hj
        · exact hdef ⟨i', hi', hd⟩
        · exact hlater hj hd
      rcases ih hb with ⟨m, i, hm, hi, hu, hn⟩ | ⟨hn, hrest⟩
      · refine .inl ⟨m, i, by simp at hm ⊢; omega, hi, hu, fun j i' hj hjm hi' => ?_⟩
        exact hhere j i' hj (fun hj' => hn j i' hj' hjm hi') hi'
      · refine .inr ⟨fun j i' hj hi' => ?_, hrest⟩
        exact hhere j i' hj (fun hj' => hn j i' hj' hi') hi'
    | @jump b c hb hc ht =>
      refine .inr ⟨fun j i' hj hi' => ?_, .inr ⟨c, hc, ht, .inl (hsolved c hc ?_)⟩⟩
      · rw [List.getElem?_eq_none hj] at hi'
        cases hi'
      · rcases ih hc with ⟨m, i, -, hi, hu, hn⟩ | ⟨hn, hrest⟩
        · exact .inl ⟨m, i, hi, hu, fun j i' hj => hn j i' (Nat.zero_le j) hj⟩
        · refine .inr ⟨?_, hrest⟩
          rintro ⟨i, hi, hd⟩
          obtain ⟨j, hj⟩ := List.mem_iff_getElem?.1 hi
          exact hn j i (Nat.zero_le j) hj hd

/-- The variables that are live by paths. -/
noncomputable def trueLive (f : Func) (n : BlockId) : FlowSet Var :=
  open Classical in .of ((vars f).filter fun v => ∃ b ∈ f.blocks, b.id = n ∧ LiveIn f v b)

theorem contains_trueLive (hd : f.Distinct) (hb : b ∈ f.blocks) :
    (trueLive f b.id).contains v = true ↔ v ∈ vars f ∧ LiveIn f v b := by
  simp only [trueLive, FlowSet.contains, decide_eq_true_iff, Finset.mem_filter]
  refine and_congr_right fun _ => ⟨?_, fun h => ⟨b, hb, rfl, h⟩⟩
  rintro ⟨c, hc, hid, h⟩
  exact hd.eq_of_id hc hb hid ▸ h

theorem trueLive_outside {n : BlockId} (hn : ∀ b ∈ f.blocks, b.id ≠ n) :
    (trueLive f n).contains v = false := by
  simp only [trueLive, FlowSet.contains, decide_eq_false_iff_not, Finset.mem_filter]
  rintro ⟨-, b, hb, hbn, -⟩
  exact hn b hb hbn

theorem bounded_trueLive (n : BlockId) : Bounded f (trueLive f n) := by
  classical
  exact Finset.filter_subset _ _

/-- The successors a block needs a variable in. -/
theorem gather_iff (h : cfg.Of f) (hc : LiveContext.Holds f [] ctx) (hb : b ∈ f.blocks)
    (hd : f.Distinct) {x : BlockId → FlowSet Var}
    (hx : ∀ n, (∀ b ∈ f.blocks, b.id ≠ n) → (x n).contains v = false) :
    ((liveness ctx).gather cfg b x).contains v = true ↔ ∃ c ∈ f.blocks, c.id ∈ b.targets ∧
      ((x c.id).contains v = true ∨ ∃ i ∈ c.insts, PhiUses v b.id i) := by
  rw [contains_gather_liveness]
  constructor
  · rintro ⟨t, ht, hv⟩
    obtain ⟨blk, hblk, hid, htargets⟩ := (h.edges.mem_succ b.id t).1 ht
    obtain rfl := hd.eq_of_id hblk hb hid
    by_cases hblock : t ∈ f.blocks.map Block.id
    · obtain ⟨c, hcb, rfl⟩ := List.mem_map.1 hblock
      exact ⟨c, hcb, htargets, by rwa [edgeUses_iff hc hcb] at hv⟩
    · -- a target that is no block holds nothing
      have hnone : edgeUses ctx blk.id t = .empty := by
        simp [edgeUses, hc.outside t hblock]
      have hout := hx t fun c hcb hct => hblock (hct ▸ List.mem_map_of_mem hcb)
      rw [hnone, hout] at hv
      simp at hv
  · rintro ⟨c, hcb, ht, hv⟩
    refine ⟨c.id, (h.edges.mem_succ b.id c.id).2 ⟨b, hb, rfl, ht⟩, ?_⟩
    rwa [edgeUses_iff hc hcb]

theorem below_trueLive (h : cfg.Of f) (hc : LiveContext.Holds f [] ctx) (hd : f.Distinct) :
    (livenessLawful h hc).Below (trueLive f) where
  consistent b hb := by
    rw [h.func_eq] at hb
    have hbounded : Bounded f ((liveness ctx).gather cfg b (trueLive f)) :=
      (livenessLawful h hc).ok_gather b bounded_trueLive
    show (through ctx b ((liveness ctx).gather cfg b (trueLive f))).Le (trueLive f b.id)
    obtain ⟨s, hs, heq⟩ := FlowSet.eq_of_of_bounded
      fun v hv => (bounded_through hc hb hbounded).mem_vars hv
    rw [heq]
    refine FlowSet.le_of_contains fun v hv => ?_
    rw [contains_trueLive hd hb]
    refine ⟨hs hv, ?_⟩
    have hthrough : (through ctx b ((liveness ctx).gather cfg b (trueLive f))).contains v = true := by
      rw [heq]
      simpa [FlowSet.contains] using hv
    rw [contains_through hc hb hbounded, gen_iff hc hb,
      gather_iff h hc hb hd fun n hn => trueLive_outside hn] at hthrough
    rcases hthrough with ⟨⟨c, hcb, ht, hlive⟩, hn⟩ | hgen
    · refine liveIn_of_succ hb hcb ht hn (hlive.imp_left fun hlive => ?_)
      exact ((contains_trueLive hd hcb).1 hlive).2
    · exact liveIn_of_gen hb hgen
  default n hn := by
    rw [h.func_eq] at hn
    show FlowSet.Le FlowSet.empty (trueLive f n)
    exact Finset.empty_subset _

/-- The analysis ends, and a variable is in the set at the start of a block if and only if
some path from there comes to a use of it before any definition. -/
theorem liveness_exact (h : cfg.Of f) (hd : f.Distinct) :
    ∃ fuel flow, solveLiveness cfg fuel = .ok (some flow) ∧ ∀ b ∈ f.blocks,
      ∃ s, flow.in b.id = .of s ∧ ∀ v, v ∈ s ↔ LiveIn f v b := by
  obtain ⟨ctx, hctx, hc⟩ := LiveContext.init_spec h hd
  obtain ⟨fuel, flow, hsolve, hgreatest⟩ :=
    (livenessLawful h hc).solve_greatest (h.func_eq.symm ▸ hd)
  have hle : ∀ n, (flow.flowOut n).Le (trueLive f n) :=
    hgreatest.greatest _ (below_trueLive h hc hd)
  have hbounded : ∀ n, Bounded f (flow.flowOut n) := fun n =>
    .of_contains fun v hv => (bounded_trueLive n).mem_vars ((hle n).contains hv)
  have hsolved : ∀ b ∈ f.blocks,
      flow.flowOut b.id = through ctx b ((liveness ctx).gather cfg b flow.flowOut) := fun b hb =>
    hgreatest.solved b (h.func_eq ▸ hb)
  refine ⟨fuel, ⟨cfg, flow.flowOut, flow.flowIn⟩, ?_, fun b hb => ?_⟩
  · unfold solveLiveness
    rw [hctx]
    exact hsolve
  · have hin : ∀ v, (flow.flowOut b.id).contains v = true ↔ LiveIn f v b := by
      intro v
      refine ⟨fun hv => ((contains_trueLive hd hb).1 ((hle b.id).contains hv)).2, ?_⟩
      -- the sets solve the equations, so they hold what the paths demand
      have hback : ∀ c ∈ f.blocks, LiveSets.UsedFirst v c.insts ∨
          ((¬∃ i ∈ c.insts, Defines v i) ∧ ((∃ e u, c.exit = some e ∧ e.used = some (.left u) ∧
            u.var = v) ∨ ∃ d ∈ f.blocks, d.id ∈ c.targets ∧
              ((flow.flowOut d.id).contains v = true ∨ ∃ i ∈ d.insts, PhiUses v c.id i))) →
            (flow.flowOut c.id).contains v = true := by
        intro c hcb hneed
        have hout : ∀ n, (∀ b ∈ f.blocks, b.id ≠ n) → (flow.flowOut n).contains v = false := by
          intro n hn
          by_contra hv
          rw [Bool.not_eq_false] at hv
          have htrue := (hle n).contains hv
          rw [trueLive_outside hn] at htrue
          cases htrue
        rw [hsolved c hcb, contains_through hc hcb ((livenessLawful h hc).ok_gather c hbounded),
          gen_iff hc hcb, gather_iff h hc hcb hd hout]
        rcases hneed with hfirst | ⟨hn, hexit | hsucc⟩
        · exact .inr (.inl hfirst)
        · exact .inr (.inr ⟨hexit, hn⟩)
        · exact .inl ⟨hsucc, hn⟩
      rintro ⟨q, hq, hu⟩
      refine hback b hb ?_
      rcases live_back hback hq hu hb with ⟨m, i, -, hi, hu, hn⟩ | ⟨hn, hrest⟩
      · exact .inl ⟨m, i, hi, hu, fun j i' hj => hn j i' (Nat.zero_le j) hj⟩
      · refine .inr ⟨?_, hrest⟩
        rintro ⟨i, hi, hdef⟩
        obtain ⟨j, hj⟩ := List.mem_iff_getElem?.1 hi
        exact hn j i (Nat.zero_le j) hj hdef
    obtain ⟨s, -, hs⟩ := FlowSet.eq_of_of_bounded fun v hv => (hbounded b.id).mem_vars hv
    refine ⟨s, hs, fun v => ?_⟩
    rw [← hin v, hs, FlowSet.contains, decide_eq_true_iff]

/-- A loop that counts in a phi until the condition `%2` fails. -/
def phiLoop : Func where
  name := "main"
  retType := .unit
  params := []
  locals := []
  blocks := [⟨0, "entry", [], some (.jump 1)⟩,
    ⟨1, "loop", [.phi ⟨some (.temp .int32 0), [(0, .const (.ofInt 0)), (1, .left (.temp .int32 1))]⟩,
        .binary ⟨.add, some (.temp .int32 1), .left (.temp .int32 0), .const (.ofInt 1)⟩],
      some (.branch (.left (.temp .int1 2)) 1 2)⟩,
    ⟨2, "exit", [], some (.ret .void)⟩]
  temps := []
  tempLabelCount := 0
  nextBlock := 3

/-- The condition is live at the start of the loop. -/
theorem liveness_exact_phiLoop : ∃ cfg fuel flow s, ControlFlowGraph.build phiLoop = .ok cfg ∧
    solveLiveness cfg fuel = .ok (some flow) ∧ flow.in 1 = .of s ∧ .temp 2 ∈ s := by
  obtain ⟨cfg, hcfg⟩ : ∃ cfg, ControlFlowGraph.build phiLoop = .ok cfg :=
    ControlFlowGraph.exists_build (by decide)
  have hd : phiLoop.Distinct := by
    show List.Nodup [0, 1, 2]
    decide
  obtain ⟨fuel, flow, hsolve, hspec⟩ := liveness_exact (ControlFlowGraph.of_build hcfg) hd
  have hloop : ∀ b, b ∈ phiLoop.blocks.tail.take 1 → b ∈ phiLoop.blocks := fun b hb =>
    List.mem_of_mem_tail (List.mem_of_mem_take hb)
  obtain ⟨s, hs, hiff⟩ := hspec _ (hloop _ List.mem_cons_self)
  refine ⟨cfg, fuel, flow, s, hcfg, hsolve, hs, (hiff _).2 ?_⟩
  refine liveIn_of_gen (hloop _ List.mem_cons_self) (.inr ⟨⟨_, _, rfl, rfl, rfl⟩, ?_⟩)
  rintro ⟨i, hi, r, hr, hv⟩
  simp only [List.mem_cons, List.not_mem_nil, or_false] at hi
  rcases hi with rfl | rfl
  · cases hr
    cases hv
  · cases hr
    cases hv

end

end Analysis
end Ir
end Cact
