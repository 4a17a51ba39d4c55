import Cact.Ir.Analysis.DataFlow
import Cact.Lib.Dominators
import Cact.Lib.StdMap

/-!
# Dominance (`analysis/dataflow/dominance.hpp`, `analysis/dominance.hpp`)

The analysis finds the dominators of each block, the tree the immediate ones, and the
frontier of a block the joins it reaches without dominating them. Unordered containers
are walked in an order of their own, which the theorems leave open.

- `dominance`: the `FlowTrait`, with `dominance_solve` for what the solver finds.
- `DominanceTree.build`: immediate dominators as those with the most dominators.
- `DominanceFrontier.build`: the walk up the tree from each predecessor of a join.
-/

namespace Cact

namespace Ir

/-- The blocks of a function. -/
def Func.blockIds (f : Func) : Finset BlockId := (f.blocks.map Block.id).toFinset

theorem Func.mem_blockIds {f : Func} {n : BlockId} :
    n ∈ f.blockIds ↔ ∃ b ∈ f.blocks, b.id = n := by simp [blockIds]

/-- The label in the text of an error. -/
def Func.labelOf (f : Func) (b : BlockId) : String :=
  ((f.block? b).map Block.label).getD ""

namespace Analysis

/-! ## The analysis -/

/-- `flow::Dominance`. -/
def dominance : FlowTrait (FlowSet BlockId) where
  isForward := true
  boundary := .empty
  top := .univ
  meet := .intersectionSet
  transfer blk d := .ok (d.insert blk.id)
  edgeTransfer _ _ d := d

section Analysis

variable {cfg : ControlFlowGraph} {f : Func} {e b : Block} {x : BlockId → FlowSet BlockId}

/-- The universe, or a set of blocks of the function. -/
def Within (f : Func) : FlowSet BlockId → Prop
  | .univ => True
  | .of s => s ⊆ f.blockIds

/-- How far a set can still shrink. -/
def shrinks (f : Func) : FlowSet BlockId → Nat
  | .univ => f.blockIds.card + 1
  | .of s => s.card

theorem shrinks_lt {d d' : FlowSet BlockId} (hd : Within f d) (hle : d.Le d')
    (hne : d ≠ d') : shrinks f d < shrinks f d' := by
  cases d with
  | univ =>
    cases d' with
    | univ => exact absurd rfl hne
    | of t => exact hle.elim
  | of s =>
    cases d' with
    | univ => exact Nat.lt_succ_of_le (Finset.card_le_card hd)
    | of t =>
      refine Finset.card_lt_card (Finset.ssubset_iff_subset_ne.2 ⟨hle, fun hst => hne ?_⟩)
      rw [hst]

theorem Within.intersectionSet {d d' : FlowSet BlockId} (hd : Within f d) (hd' : Within f d') :
    Within f (d.intersectionSet d') := by
  cases d with
  | univ => exact hd'
  | of s =>
    cases d' with
    | univ => exact hd
    | of t => exact Finset.inter_subset_left.trans hd

theorem Within.insert {d : FlowSet BlockId} (hb : b ∈ f.blocks) (hd : Within f d) :
    Within f (d.insert b.id) := by
  cases d with
  | univ => trivial
  | of s => exact Finset.insert_subset (Func.mem_blockIds.2 ⟨b, hb, rfl⟩) hd

/-- The sets of dominators shrink towards a solution. -/
def dominanceLawful (cfg : ControlFlowGraph) : dominance.Lawful cfg where
  le := FlowSet.Le
  ok := Within cfg.func
  rank := shrinks cfg.func
  value b d := d.insert b.id
  le_refl _ := .refl
  le_trans _ _ _ := .trans
  rank_lt _ _ hd _ hle hne := shrinks_lt hd hle hne
  le_top _ := FlowSet.le_univ
  meet_le_left _ _ := FlowSet.intersectionSet_le_left
  meet_le_right _ _ := FlowSet.intersectionSet_le_right
  le_meet _ _ _ := FlowSet.le_intersectionSet
  edge_mono _ _ _ _ h := h
  value_mono _ _ _ h := FlowSet.insert_mono h
  transfer_eq _ _ _ _ := rfl
  ok_default := Finset.empty_subset _
  ok_top := trivial
  ok_boundary := Finset.empty_subset _
  ok_meet _ _ := Within.intersectionSet
  ok_edge _ _ _ h := h
  ok_value _ hb _ := Within.insert hb

theorem isBoundary_dominance (h : cfg.Of f) (he : f.entrance = some e) :
    dominance.isBoundary cfg b = (b.id == e.id) := by
  simp [FlowTrait.isBoundary, dominance, h.func_eq, he]

theorem contains_foldl_intersectionSet {ps : List BlockId} {a : FlowSet BlockId} {d : BlockId} :
    (ps.foldl (fun newIn p => newIn.intersectionSet (x p)) a).contains d = true ↔
      a.contains d = true ∧ ∀ p ∈ ps, (x p).contains d = true := by
  induction ps generalizing a with
  | nil => simp
  | cons p ps ih => rw [List.foldl_cons, ih]; simp [and_assoc]

theorem foldl_intersectionSet_univ {ps : List BlockId} (h : ∀ p ∈ ps, x p = .univ) :
    ps.foldl (fun newIn p => FlowSet.intersectionSet newIn (x p)) FlowSet.univ = .univ := by
  induction ps with
  | nil => rfl
  | cons p ps ih =>
    rw [List.foldl_cons, h p (by simp)]
    exact ih fun q hq => h q (List.mem_cons_of_mem _ hq)

theorem contains_gather (h : cfg.Of f) (he : f.entrance = some e) {d : BlockId} :
    (dominance.gather cfg b x).contains d = true ↔
      b.id ≠ e.id ∧ ∀ p, f.BlockEdge p b.id → (x p).contains d = true := by
  have hfold : ∀ p, p ∈ cfg.pred b.id ↔ f.BlockEdge p b.id := fun p => h.edges.mem_pred p b.id
  unfold FlowTrait.gather
  simp only [isBoundary_dominance h he, beq_iff_eq]
  split
  next hb =>
    show (FlowSet.intersectionSet _ FlowSet.empty).contains d = true ↔ _
    simp [hb]
  next hb =>
    show (List.foldl (fun newIn p => FlowSet.intersectionSet newIn (x p)) .univ
      (cfg.pred b.id)).contains d = true ↔ _
    rw [contains_foldl_intersectionSet]
    simp [hb, FlowSet.contains, hfold]

theorem gather_univ (h : cfg.Of f) (he : f.entrance = some e) (hb : b.id ≠ e.id)
    (hx : ∀ p, f.BlockEdge p b.id → x p = .univ) : dominance.gather cfg b x = .univ := by
  unfold FlowTrait.gather
  simp only [isBoundary_dominance h he, beq_iff_eq, if_neg hb]
  exact foldl_intersectionSet_univ fun p hp => hx p ((h.edges.mem_pred p b.id).1 hp)

/-- The nodes of a path before the last one are blocks. -/
theorem mem_blockIds_of_walk {n : BlockId} {l : List BlockId} (hl : Walk f.BlockEdge e.id n l) :
    ∀ d ∈ l, d = n ∨ d ∈ f.blockIds := by
  induction hl with
  | nil => exact fun d hd => .inl (List.mem_singleton.1 hd)
  | @snoc p n l hl hp ih =>
    obtain ⟨blk, hblk, hid, -⟩ := hp
    rw [List.forall_mem_cons]
    refine ⟨.inl rfl, fun d hd => .inr ?_⟩
    rcases ih d hd with rfl | hd
    · exact Func.mem_blockIds.2 ⟨blk, hblk, hid⟩
    · exact hd

/-- The dominators of a reachable block. -/
noncomputable def trueDoms (f : Func) (e : Block) (n : BlockId) : Finset BlockId :=
  open Classical in (Insert.insert n f.blockIds).filter (Dominates f.BlockEdge e.id · n)

theorem mem_trueDoms {n : BlockId} (hr : Reachable f.BlockEdge e.id n) (d : BlockId) :
    d ∈ trueDoms f e n ↔ Dominates f.BlockEdge e.id d n := by
  classical
  unfold trueDoms
  rw [Finset.mem_filter, and_iff_right_iff_imp, Finset.mem_insert]
  intro hd
  obtain ⟨l, hl⟩ := hr
  exact mem_blockIds_of_walk hl d (hd l hl)

theorem trueDoms_spec (n : BlockId) (hr : Reachable f.BlockEdge e.id n) (d : BlockId) :
    d ∈ trueDoms f e n ↔ Dominates f.BlockEdge e.id d n :=
  mem_trueDoms hr d

/-- The dominators of a reachable block; the universe for the others. -/
noncomputable def trueDominators (f : Func) (e : Block) (n : BlockId) : FlowSet BlockId :=
  open Classical in
  if n ∈ f.blockIds then
    if Reachable f.BlockEdge e.id n then .of (trueDoms f e n) else .univ
  else .empty

theorem below_trueDominators (h : cfg.Of f) (he : f.entrance = some e) :
    (dominanceLawful cfg).Below (trueDominators f e) where
  consistent b hb := by
    classical
    rw [h.func_eq] at hb
    have hid : b.id ∈ f.blockIds := Func.mem_blockIds.2 ⟨b, hb, rfl⟩
    have hpred : ∀ p, f.BlockEdge p b.id → p ∈ f.blockIds := by
      rintro p ⟨blk, hblk, rfl, -⟩
      exact Func.mem_blockIds.2 ⟨blk, hblk, rfl⟩
    show (trueDominators f e b.id).Le
      ((dominance.gather cfg b (trueDominators f e)).insert b.id)
    by_cases hr : Reachable f.BlockEdge e.id b.id
    · simp only [trueDominators, hid, hr, if_true]
      refine FlowSet.le_of_contains fun d hd => ?_
      rw [mem_trueDoms hr] at hd
      rw [FlowSet.contains_insert, Bool.or_eq_true, decide_eq_true_iff, contains_gather h he]
      by_cases hdb : d = b.id
      · exact .inl hdb
      · refine .inr ⟨StrictlyDominates.ne_entry ⟨hdb, hd⟩, fun p hp => ?_⟩
        by_cases hpr : Reachable f.BlockEdge e.id p
        · have hdp := (mem_trueDoms hpr d).2 (StrictlyDominates.dominates_pred ⟨hdb, hd⟩ hp)
          simp [trueDominators, hpred p hp, hpr, FlowSet.contains, hdp]
        · simp [trueDominators, hpred p hp, hpr, FlowSet.contains]
    · have hne : b.id ≠ e.id := by
        intro heq
        exact hr (heq ▸ Reachable.start)
      rw [gather_univ h he hne]
      · exact FlowSet.le_univ
      · intro p hp
        have hpr : ¬Reachable f.BlockEdge e.id p := fun hpr => hr (hpr.step hp)
        simp [trueDominators, hpred p hp, hpr]
  default n hn := by
    rw [h.func_eq] at hn
    have hid : n ∉ f.blockIds := by
      rw [Func.mem_blockIds]
      rintro ⟨b, hb, hbn⟩
      exact hn b hb hbn
    simp only [trueDominators, hid, if_false]
    exact (FlowSet.Le.refl : FlowSet.Le FlowSet.empty FlowSet.empty)

/-- The sets a solved analysis holds: the dominators of each reachable block, and the
universe at the others. -/
structure Dominators (f : Func) (e : Block) (flow : DataFlow (FlowSet BlockId)) : Prop where
  func : flow.cfg.func = f
  reachable : ∀ b ∈ f.blocks, Reachable f.BlockEdge e.id b.id →
    flow.out b.id = .of (trueDoms f e b.id)
  unreachable : ∀ b ∈ f.blocks, ¬Reachable f.BlockEdge e.id b.id → flow.out b.id = .univ

theorem dominators_of_greatest (h : cfg.Of f) (he : f.entrance = some e) {s : Flow (FlowSet BlockId)}
    (hs : (dominanceLawful cfg).Greatest s) : Dominators f e ⟨cfg, s.flowIn, s.flowOut⟩ := by
  have hsolved : ∀ b ∈ f.blocks,
      s.flowOut b.id = (dominance.gather cfg b s.flowOut).insert b.id := fun b hb =>
    hs.solved b (h.func_eq ▸ hb)
  have hbelow := hs.greatest _ (below_trueDominators h he)
  have hsound : ∀ n l, Walk f.BlockEdge e.id n l → ∀ b ∈ f.blocks, b.id = n → ∀ d,
      (s.flowOut n).contains d = true → d ∈ l := by
    intro n l hl
    induction hl with
    | nil =>
      intro b hb hbn d hd
      rw [← hbn, hsolved b hb, FlowSet.contains_insert, Bool.or_eq_true, decide_eq_true_iff,
        contains_gather h he] at hd
      rcases hd with hd | hd
      · simp [hd, hbn]
      · exact absurd hbn hd.1
    | @snoc p n l hl hp ih =>
      intro b hb hbn d hd
      rw [← hbn, hsolved b hb, FlowSet.contains_insert, Bool.or_eq_true, decide_eq_true_iff,
        contains_gather h he] at hd
      rcases hd with hd | hd
      · simp [hd, hbn]
      · obtain ⟨blk, hblk, hpid, -⟩ := id hp
        exact List.mem_cons_of_mem _ (ih blk hblk hpid d (hd.2 p (hbn ▸ hp)))
  refine ⟨h.func_eq, fun b hb hr => ?_, fun b hb hr => ?_⟩
  · have hiff : ∀ d, (s.flowOut b.id).contains d = true ↔ Dominates f.BlockEdge e.id d b.id := by
      intro d
      refine ⟨fun hd l hl => hsound b.id l hl b hb rfl d hd, fun hd => ?_⟩
      refine (hbelow b.id).contains ?_
      simp [trueDominators, Func.mem_blockIds.2 ⟨b, hb, rfl⟩, hr, FlowSet.contains,
        (mem_trueDoms hr d).2 hd]
    show s.flowOut b.id = _
    cases hout : s.flowOut b.id with
    | univ =>
      obtain ⟨l, hl⟩ := id hr
      obtain ⟨d, hd⟩ := Infinite.exists_notMem_finset l.toFinset
      have hdom := (hiff d).1 (by rw [hout]; rfl)
      exact absurd (List.mem_toFinset.2 (hdom l hl)) hd
    | of t =>
      refine congrArg FlowSet.of (Finset.ext fun d => ?_)
      rw [mem_trueDoms hr, ← hiff d, hout, FlowSet.contains, decide_eq_true_iff]
  · have hle := hbelow b.id
    simp only [trueDominators, Func.mem_blockIds.2 ⟨b, hb, rfl⟩, hr, if_true, if_false] at hle
    cases hout : s.flowOut b.id with
    | univ => exact hout
    | of t =>
      rw [hout] at hle
      exact hle.elim

/-- The solver ends, with the dominators of every reachable block. -/
theorem dominance_solve (h : cfg.Of f) (hd : f.Distinct) (he : f.entrance = some e) :
    ∃ fuel flow, dominance.solve cfg fuel = .ok (some flow) ∧ Dominators f e flow := by
  obtain ⟨fuel, s, hs, hgreatest⟩ :=
    (dominanceLawful cfg).solve_greatest (h.func_eq.symm ▸ hd)
  exact ⟨fuel, _, hs, dominators_of_greatest h he hgreatest⟩

end Analysis

/-! ## The dominance tree -/

/-- An order in which the elements of an unordered container are walked. -/
structure HashOrder where
  list : Finset BlockId → List BlockId
  nodup : ∀ s, (list s).Nodup
  mem_list : ∀ s b, b ∈ list s ↔ b ∈ s

/-- `DominanceTree`. -/
structure DominanceTree where
  func : Func
  idomMap : BlockId → Option (Option BlockId)
  childrenMap : BlockId → List BlockId

namespace DominanceTree

/-- `idom`. -/
def idom (tree : DominanceTree) (b : BlockId) : Except Fault (Option BlockId) :=
  match tree.idomMap b with
  | none => .error (.compilerError s!"Block {tree.func.labelOf b} not found in dominance tree")
  | some i => .ok i

/-- `children`. -/
def children (tree : DominanceTree) (b : BlockId) : List BlockId := tree.childrenMap b

/-- One dominator of `block` against the closest one so far. -/
def closer (flow : DataFlow (FlowSet BlockId)) (block : BlockId) (idom : Option BlockId)
    (d : BlockId) : Except Fault (Option BlockId) :=
  if d = block then .ok idom
  else
    match idom with
    | none => .ok (some d)
    | some i => do
      let size ← (← flow.outAt d).size
      let size' ← (← flow.outAt i).size
      return if size > size' then some d else some i

/-- The immediate dominator of a block, from its dominators in some order. -/
def closest (flow : DataFlow (FlowSet BlockId)) (order : HashOrder) (block : BlockId) :
    Except Fault (Option BlockId) := do
  let doms ← (← flow.outAt block).elems
  (order.list doms).foldlM (closer flow block) none

/-- The constructor. `order` is the order of the dominators of each block, and `entries`
that of the map. -/
def build (order : BlockId → HashOrder) (entries : HashOrder) (flow : DataFlow (FlowSet BlockId)) :
    Except Fault DominanceTree := do
  let func := flow.cfg.func
  let idoms ← func.blocks.mapM fun blk => do
    let idom ← closest flow (order blk.id) blk.id
    return (blk.id, idom)
  let idomMap b := idoms.lookup b
  return ⟨func, idomMap, fun b => (entries.list func.blockIds).filter fun c => idomMap c == some (some b)⟩

section

variable {f : Func} {e b : Block} {flow : DataFlow (FlowSet BlockId)} {order : BlockId → HashOrder}
  {entries : HashOrder} {tree : DominanceTree}

theorem outAt_eq (h : Dominators f e flow) (hb : b ∈ f.blocks) :
    flow.outAt b.id = .ok (flow.out b.id) := by
  unfold DataFlow.outAt
  rw [h.func, if_pos (List.mem_map_of_mem hb)]

/-- The size of the set of dominators of a dominator. -/
theorem size_outAt (h : Dominators f e flow) (hb : b ∈ f.blocks)
    (hr : Reachable f.BlockEdge e.id b.id) :
    (flow.outAt b.id >>= FlowSet.size) = .ok (trueDoms f e b.id).card := by
  rw [outAt_eq h hb, h.reachable b hb hr]
  rfl

/-- A dominator of a block is a block. -/
theorem exists_block_of_dominates {d : BlockId} (hb : b ∈ f.blocks)
    (hr : Reachable f.BlockEdge e.id b.id) (hd : Dominates f.BlockEdge e.id d b.id) :
    ∃ c ∈ f.blocks, c.id = d := by
  obtain ⟨l, hl⟩ := hr
  rcases mem_blockIds_of_walk hl d (hd l hl) with rfl | hd
  · exact ⟨b, hb, rfl⟩
  · exact Func.mem_blockIds.1 hd

/-- The closest of the strict dominators seen so far, those that are not in `rest`. -/
structure Closest (f : Func) (e b : Block) (rest : List BlockId) (idom : Option BlockId) :
    Prop where
  strict : ∀ i, idom = some i → StrictlyDominates f.BlockEdge e.id i b.id
  max : ∀ d, StrictlyDominates f.BlockEdge e.id d b.id → d ∉ rest →
    ∃ i, idom = some i ∧ (trueDoms f e d).card ≤ (trueDoms f e i).card

theorem closer_spec (h : Dominators f e flow) (hb : b ∈ f.blocks)
    (hr : Reachable f.BlockEdge e.id b.id) {d : BlockId} {rest : List BlockId}
    {idom : Option BlockId} (hd : Dominates f.BlockEdge e.id d b.id)
    (hc : Closest f e b (d :: rest) idom) :
    Yields (closer flow b.id idom d) (Closest f e b rest) := by
  have hsize : ∀ c, Dominates f.BlockEdge e.id c b.id →
      (flow.outAt c >>= FlowSet.size) = .ok (trueDoms f e c).card := by
    intro c hc
    obtain ⟨blk, hblk, rfl⟩ := exists_block_of_dominates hb hr hc
    exact size_outAt h hblk (hc.reachable hr)
  unfold closer
  split
  next hdb =>
    refine Yields.ok ⟨hc.strict, fun c hcb hrest => hc.max c hcb ?_⟩
    have hcd : c ≠ d := fun heq => hcb.1 (heq.trans hdb)
    simp [hcd, hrest]
  next hdb =>
    have hstrict : StrictlyDominates f.BlockEdge e.id d b.id := ⟨hdb, hd⟩
    cases idom with
    | none =>
      refine Yields.ok ⟨fun i hi => Option.some.inj hi ▸ hstrict, fun c hcb hrest => ?_⟩
      by_cases hcd : c = d
      · exact ⟨d, rfl, hcd ▸ le_rfl⟩
      · obtain ⟨i, hi, -⟩ := hc.max c hcb (by simp [hcd, hrest])
        cases hi
    | some i =>
      have hi := hc.strict i rfl
      have hkeep : ∀ j, StrictlyDominates f.BlockEdge e.id j b.id →
          (trueDoms f e d).card ≤ (trueDoms f e j).card →
          (trueDoms f e i).card ≤ (trueDoms f e j).card → Closest f e b rest (some j) := by
        intro j hj hdj hij
        refine ⟨fun k hk => Option.some.inj hk ▸ hj, fun c hcb hrest => ⟨j, rfl, ?_⟩⟩
        by_cases hcd : c = d
        · exact hcd ▸ hdj
        · obtain ⟨k, hk, hle⟩ := hc.max c hcb (by simp [hcd, hrest])
          cases hk
          exact hle.trans hij
      have hrun : (do
          let size ← (← flow.outAt d).size
          let size' ← (← flow.outAt i).size
          return if size > size' then some d else some i : Except Fault (Option BlockId)) =
          .ok (if (trueDoms f e d).card > (trueDoms f e i).card then some d else some i) := by
        have hsd := hsize d hd
        have hsi := hsize i hi.2
        rw [Except.bind_eq_ok] at hsd hsi
        obtain ⟨sd, hsd, hnd⟩ := hsd
        obtain ⟨si, hsi, hni⟩ := hsi
        simp only [hsd, hsi, hnd, hni, bind, Except.bind]
        rfl
      dsimp only
      rw [hrun]
      refine Yields.ok ?_
      split
      next hlt => exact hkeep d hstrict le_rfl hlt.le
      next hle => exact hkeep i hi (not_lt.1 hle) le_rfl

theorem closest_spec (h : Dominators f e flow) (hb : b ∈ f.blocks)
    (hr : Reachable f.BlockEdge e.id b.id) (o : HashOrder) :
    Yields (closest flow o b.id) fun idom => ∀ d, idom = some d ↔ IsIdom f.BlockEdge e.id d b.id := by
  unfold closest
  rw [outAt_eq h hb, h.reachable b hb hr]
  have hfold : Yields ((o.list (trueDoms f e b.id)).foldlM (closer flow b.id) none)
      fun idom => (∀ d ∈ ([] : List BlockId), Dominates f.BlockEdge e.id d b.id) ∧
        Closest f e b [] idom := by
    refine Yields.foldlM (I := fun rest idom =>
      (∀ d ∈ rest, Dominates f.BlockEdge e.id d b.id) ∧ Closest f e b rest idom) ?_ ⟨?_, ?_⟩
    · intro d rest idom hi
      refine (closer_spec h hb hr (hi.1 d (by simp)) hi.2).mono fun idom' hc => ⟨fun c hc' => ?_, hc⟩
      exact hi.1 c (List.mem_cons_of_mem d hc')
    · intro d hd
      exact (mem_trueDoms hr d).1 ((o.mem_list _ _).1 hd)
    · refine ⟨nofun, fun d hd hn => ?_⟩
      exact absurd ((o.mem_list _ _).2 ((mem_trueDoms hr d).2 hd.2)) hn
  refine hfold.mono fun idom hc d => ?_
  constructor
  · intro hd
    refine .of_card_le trueDoms_spec hr
      (hc.2.strict d hd) fun c hcb => ?_
    obtain ⟨i, hi, hle⟩ := hc.2.max c hcb (by simp)
    cases hd.symm.trans hi
    exact hle
  · intro hd
    obtain ⟨i, hi, hle⟩ := hc.2.max d hd.1 (by simp)
    have hid : IsIdom f.BlockEdge e.id i b.id := by
      refine .of_card_le trueDoms_spec hr
        (hc.2.strict i hi) fun c hcb => ?_
      obtain ⟨j, hj, hle⟩ := hc.2.max c hcb (by simp)
      cases hi.symm.trans hj
      exact hle
    rw [hi, IsIdom.unique hr hid hd]

/-- The tree holds the immediate dominators. -/
structure Correct (f : Func) (e : Block) (tree : DominanceTree) : Prop where
  idom : ∀ b ∈ f.blocks, ∃ i, tree.idom b.id = .ok i ∧
    ∀ d, i = some d ↔ IsIdom f.BlockEdge e.id d b.id
  children : ∀ p c, c ∈ tree.children p ↔ c ∈ f.blockIds ∧ IsIdom f.BlockEdge e.id p c

theorem build_spec (h : Dominators f e flow) (hd : f.Distinct)
    (hall : ∀ b ∈ f.blocks, Reachable f.BlockEdge e.id b.id) :
    Yields (build order entries flow) (Correct f e) := by
  have hclosest : ∀ b ∈ f.blocks, ∃ p, (do
      let idom ← closest flow (order b.id) b.id
      return (b.id, idom) : Except Fault (BlockId × Option BlockId)) = .ok p := by
    intro b hb
    obtain ⟨i, hi, -⟩ := closest_spec h hb (hall b hb) (order b.id)
    exact ⟨(b.id, i), by rw [hi]; rfl⟩
  obtain ⟨idoms, hidoms⟩ := Except.exists_mapM hclosest
  have hkeys : idoms.map Prod.fst = f.blocks.map Block.id := by
    refine Except.mapM_map_eq hidoms fun b p hp => ?_
    obtain ⟨i, -, hi⟩ := Except.bind_eq_ok.1 hp
    cases hi
    rfl
  have hlookup : ∀ b ∈ f.blocks, ∃ i, idoms.lookup b.id = some i ∧
      ∀ d, i = some d ↔ IsIdom f.BlockEdge e.id d b.id := by
    intro b hb
    obtain ⟨p, hp, hfp⟩ := Except.mapM_mem_left hidoms hb
    obtain ⟨i, hi, hspec⟩ := closest_spec h hb (hall b hb) (order b.id)
    rw [hi] at hfp
    cases hfp
    exact ⟨i, lookup_of_mem (hkeys ▸ hd) hp, hspec⟩
  unfold build
  simp only [h.func]
  rw [hidoms]
  refine Yields.pure ⟨fun b hb => ?_, fun p c => ?_⟩
  · obtain ⟨i, hi, hspec⟩ := hlookup b hb
    exact ⟨i, by simp [DominanceTree.idom, hi], hspec⟩
  · show c ∈ (entries.list f.blockIds).filter _ ↔ _
    rw [List.mem_filter, entries.mem_list]
    refine and_congr_right fun hc => ?_
    obtain ⟨b, hb, rfl⟩ := Func.mem_blockIds.1 hc
    obtain ⟨i, hi, hspec⟩ := hlookup b hb
    rw [hi, ← hspec p]
    simp

/-- The constructor walks the dominators of every block, and cannot walk the universe. -/
theorem reachable_of_build (h : Dominators f e flow) (ht : build order entries flow = .ok tree)
    (hb : b ∈ f.blocks) : Reachable f.BlockEdge e.id b.id := by
  by_contra hr
  unfold build at ht
  obtain ⟨idoms, hidoms, -⟩ := Except.bind_eq_ok.1 ht
  rw [h.func] at hidoms
  obtain ⟨p, -, hp⟩ := Except.mapM_mem_left hidoms hb
  obtain ⟨i, hi, -⟩ := Except.bind_eq_ok.1 hp
  unfold closest at hi
  rw [outAt_eq h hb, h.unreachable b hb hr] at hi
  cases hi

end

end DominanceTree

/-! ## The dominance frontier -/

/-- `frontier_map`. -/
abbrev Frontiers := BlockId → FlowSet BlockId

/-- `DominanceFrontier`. -/
structure DominanceFrontier where
  func : Func
  frontierMap : Frontiers

namespace DominanceFrontier

/-- `frontier`. -/
def frontier (fr : DominanceFrontier) (b : BlockId) : Except Fault (FlowSet BlockId) :=
  if b ∈ fr.func.blocks.map Block.id then .ok (fr.frontierMap b)
  else .error (.compilerError s!"Block {fr.func.labelOf b} not found in dominance frontier")

/-- One step of the runner: it dominates the predecessor, and does not dominate the block. -/
def run (tree : DominanceTree) (block : BlockId) (s : Option BlockId × Frontiers) :
    Except Fault (Option BlockId × Frontiers) :=
  match s.1 with
  | none => .ok s
  | some runner => do
    let up ← tree.idom runner
    return (up, Function.update s.2 runner ((s.2 runner).insert block))

/-- The runner climbs from a predecessor of the block to the immediate dominator. -/
def climb (tree : DominanceTree) (fuel : Nat) (block idom : BlockId) (m : Option Frontiers)
    (pred : BlockId) : Except Fault (Option Frontiers) :=
  match m with
  | none => .ok none
  | some m => do
    let r ← whileM (fun s => s.1.isSome && s.1 != some idom) (run tree block) fuel (some pred, m)
    return r.map Prod.snd

/-- What the constructor does with a block. -/
def join (cfg : ControlFlowGraph) (tree : DominanceTree) (fuel : Nat) (m : Option Frontiers)
    (blk : Block) : Except Fault (Option Frontiers) := do
  match ← tree.idom blk.id with
  | none => return m
  | some idom =>
    if cfg.pred blk.id = [] then throw .outOfRange
    else (cfg.pred blk.id).foldlM (climb tree fuel blk.id idom) m

/-- The constructor, with a bound on the tests of each climb. -/
def build (cfg : ControlFlowGraph) (tree : DominanceTree) (fuel : Nat) :
    Except Fault (Option DominanceFrontier) := do
  let m ← cfg.func.blocks.foldlM (join cfg tree fuel) (some fun _ => .empty)
  return m.map fun m => ⟨cfg.func, m⟩

variable {f : Func} {e b : Block} {cfg : ControlFlowGraph} {tree : DominanceTree}
  {m m' m'' : Frontiers} {R R' : BlockId → BlockId → Prop} {i r : BlockId} {fuel : Nat}

/-- The frontiers after the pairs of `R` are added. -/
def Adds (m m' : Frontiers) (R : BlockId → BlockId → Prop) : Prop :=
  ∀ n w, (m' n).contains w = true ↔ (m n).contains w = true ∨ R n w

theorem Adds.trans (h : Adds m m' R) (h' : Adds m' m'' R') :
    Adds m m'' fun n w => R n w ∨ R' n w := by
  intro n w
  rw [h' n w, h n w, or_assoc]

theorem Adds.congr (h : Adds m m' R) (hR : ∀ n w, R n w ↔ R' n w) : Adds m m' R' := by
  intro n w
  rw [h n w, hR n w]

/-- What each round adds, a loop adds. -/
theorem foldlM_adds {A : Type} {g : Option Frontiers → A → Except Fault (Option Frontiers)}
    {R : A → BlockId → BlockId → Prop} {l : List A}
    (hg : ∀ a ∈ l, ∀ m, ∃ m', g (some m) a = .ok (some m') ∧ Adds m m' (R a)) (m : Frontiers) :
    ∃ m', l.foldlM g (some m) = .ok (some m') ∧ Adds m m' fun n w => ∃ a ∈ l, R a n w := by
  induction l generalizing m with
  | nil => exact ⟨m, rfl, fun n w => by simp⟩
  | cons a l ih =>
    obtain ⟨m₁, h₁, hadds₁⟩ := hg a (by simp) m
    obtain ⟨m₂, h₂, hadds₂⟩ := ih (fun a' ha' => hg a' (List.mem_cons_of_mem _ ha')) m₁
    refine ⟨m₂, ?_, (hadds₁.trans hadds₂).congr fun n w => ?_⟩
    · rw [List.foldlM_cons, h₁]
      exact h₂
    · rw [List.exists_mem_cons_iff]

/-- From a block that `i` dominates the runner goes through the dominators below `i`. -/
theorem runner_spec (ht : DominanceTree.Correct f e tree)
    (hall : ∀ b ∈ f.blocks, Reachable f.BlockEdge e.id b.id) (block : BlockId)
    (hr : r ∈ f.blockIds) (hi : Dominates f.BlockEdge e.id i r)
    (hfuel : (trueDoms f e r).card < fuel) (m : Frontiers) :
    ∃ s, whileM (fun s => s.1.isSome && s.1 != some i) (run tree block) fuel (some r, m) =
        .ok (some s) ∧
      Adds m s.2 fun n w => w = block ∧ Dominates f.BlockEdge e.id n r ∧
        ¬Dominates f.BlockEdge e.id n i := by
  induction fuel generalizing r m with
  | zero => omega
  | succ fuel ih =>
    obtain ⟨b, hb, rfl⟩ := Func.mem_blockIds.1 hr
    have hreach := hall b hb
    by_cases hri : i = b.id
    · refine ⟨(some b.id, m), by simp [whileM, hri], fun n w => ?_⟩
      rw [hri]
      simp
    · have hstrict : StrictlyDominates f.BlockEdge e.id i b.id := ⟨hri, hi⟩
      obtain ⟨j?, hj?, hspec⟩ := ht.idom b hb
      obtain ⟨j, hj⟩ := exists_isIdom trueDoms_spec hreach
        hstrict.ne_entry
      obtain rfl := (hspec j).2 hj
      obtain ⟨c, hc, hcj⟩ := DominanceTree.exists_block_of_dominates hb hreach hj.1.2
      have hlt := hj.1.card_lt trueDoms_spec hreach
      obtain ⟨s, hs, hadds⟩ := ih (Func.mem_blockIds.2 ⟨c, hc, hcj⟩) (hj.2 i hstrict) (by omega)
        (Function.update m b.id ((m b.id).insert block))
      refine ⟨s, ?_, fun n w => ?_⟩
      · have hcond : (some b.id != some i) = true := by
          simpa using Ne.symm hri
        simp only [whileM, Option.isSome_some, hcond, Bool.and_self, if_true, run, hj?, bind,
          Except.bind, pure, Except.pure]
        exact hs
      · rw [hadds n w]
        by_cases hnb : n = b.id
        · subst hnb
          have hnot : ¬Dominates f.BlockEdge e.id b.id i := fun h =>
            hri (Dominates.antisymm hreach hi h)
          have hrefl : Dominates f.BlockEdge e.id b.id b.id := Dominates.refl
          rw [Function.update_self, FlowSet.contains_insert, Bool.or_eq_true, decide_eq_true_iff]
          tauto
        · rw [Function.update_of_ne hnb]
          have hiff : Dominates f.BlockEdge e.id n b.id ↔ Dominates f.BlockEdge e.id n j := by
            rw [← hj.strictlyDominates_iff hreach]
            exact ⟨fun h => ⟨hnb, h⟩, fun h => h.2⟩
          dsimp only
          rw [hiff]

theorem card_trueDoms_le {n : BlockId} (hn : n ∈ f.blockIds) :
    (trueDoms f e n).card ≤ f.blocks.length := by
  classical
  have hsub : trueDoms f e n ⊆ f.blockIds := by
    unfold trueDoms
    rw [Finset.insert_eq_of_mem hn]
    exact Finset.filter_subset _ _
  refine (Finset.card_le_card hsub).trans ((List.toFinset_card_le _).trans ?_)
  rw [List.length_map]

/-- What is added for a block: it is in the frontier of the dominators of its predecessors
that do not strictly dominate it. -/
def Joins (f : Func) (e blk : Block) (n w : BlockId) : Prop :=
  w = blk.id ∧ ∃ p, f.BlockEdge p blk.id ∧ Dominates f.BlockEdge e.id n p ∧
    ¬StrictlyDominates f.BlockEdge e.id n blk.id

theorem join_spec (h : cfg.Of f) (ht : DominanceTree.Correct f e tree)
    (hall : ∀ b ∈ f.blocks, Reachable f.BlockEdge e.id b.id)
    (hentry : ∀ p, ¬f.BlockEdge p e.id) (hfuel : f.blocks.length < fuel) (hb : b ∈ f.blocks)
    (m : Frontiers) :
    ∃ m', join cfg tree fuel (some m) b = .ok (some m') ∧ Adds m m' (Joins f e b) := by
  obtain ⟨i?, hi?, hspec⟩ := ht.idom b hb
  have hreach := hall b hb
  unfold join
  rw [hi?]
  cases i? with
  | none =>
    refine ⟨m, rfl, fun n w => ?_⟩
    have hno : ¬Joins f e b n w := by
      rintro ⟨-, p, hp, -⟩
      by_cases hbe : b.id = e.id
      · exact hentry p (hbe ▸ hp)
      · obtain ⟨i, hi⟩ := exists_isIdom trueDoms_spec hreach hbe
        cases (hspec i).2 hi
    simp [hno]
  | some i =>
    have hi := (hspec i).1 rfl
    obtain ⟨p₀, -, hp₀⟩ := hreach.exists_pred hi.1.ne_entry
    have hne : cfg.pred b.id ≠ [] := List.ne_nil_of_mem ((h.edges.mem_pred p₀ b.id).2 hp₀)
    have hclimb : ∀ p ∈ cfg.pred b.id, ∀ m, ∃ m', climb tree fuel b.id i (some m) p = .ok (some m') ∧
        Adds m m' fun n w => w = b.id ∧ Dominates f.BlockEdge e.id n p ∧
          ¬Dominates f.BlockEdge e.id n i := by
      intro p hp m
      have hpb := (h.edges.mem_pred p b.id).1 hp
      obtain ⟨blk, hblk, hid, -⟩ := id hpb
      have hmem : p ∈ f.blockIds := Func.mem_blockIds.2 ⟨blk, hblk, hid⟩
      obtain ⟨s, hs, hadds⟩ := runner_spec ht hall b.id hmem (hi.1.dominates_pred hpb)
        ((card_trueDoms_le hmem).trans_lt hfuel) m
      refine ⟨s.2, ?_, hadds⟩
      unfold climb
      simp only [hs]
      rfl
    obtain ⟨m', hm', hadds⟩ := foldlM_adds hclimb m
    refine ⟨m', ?_, hadds.congr fun n w => ?_⟩
    · show (if cfg.pred b.id = [] then throw .outOfRange
        else (cfg.pred b.id).foldlM (climb tree fuel b.id i) (some m)) = _
      rw [if_neg hne]
      exact hm'
    · unfold Joins
      rw [hi.strictlyDominates_iff hreach]
      constructor
      · rintro ⟨p, hp, hw, hn⟩
        exact ⟨hw, p, (h.edges.mem_pred p b.id).1 hp, hn⟩
      · rintro ⟨hw, p, hp, hn⟩
        exact ⟨p, (h.edges.mem_pred p b.id).2 hp, hw, hn⟩

/-- The frontier of a block: the blocks it does not strictly dominate, but has a dominated
predecessor of. -/
theorem build_spec (h : cfg.Of f) (ht : DominanceTree.Correct f e tree)
    (hall : ∀ b ∈ f.blocks, Reachable f.BlockEdge e.id b.id)
    (hentry : ∀ p, ¬f.BlockEdge p e.id) (hfuel : f.blocks.length < fuel) :
    ∃ fr, build cfg tree fuel = .ok (some fr) ∧ ∀ b ∈ f.blocks, ∃ s, fr.frontier b.id = .ok s ∧
      ∀ w, s.contains w = true ↔ w ∈ f.blockIds ∧ (∃ p, f.BlockEdge p w ∧
        Dominates f.BlockEdge e.id b.id p) ∧ ¬StrictlyDominates f.BlockEdge e.id b.id w := by
  obtain ⟨m, hm, hadds⟩ := foldlM_adds
    (fun b hb m => join_spec h ht hall hentry hfuel hb m) fun _ => .empty
  refine ⟨⟨f, m⟩, ?_, fun b hb => ⟨m b.id, ?_, fun w => ?_⟩⟩
  · unfold build
    rw [h.func_eq, hm]
    rfl
  · unfold frontier
    rw [if_pos (List.mem_map_of_mem hb)]
  · rw [hadds b.id w, FlowSet.contains_empty]
    constructor
    · rintro (hno | ⟨blk, hblk, rfl, p, hp, hdom, hn⟩)
      · cases hno
      · exact ⟨Func.mem_blockIds.2 ⟨blk, hblk, rfl⟩, ⟨p, hp, hdom⟩, hn⟩
    · rintro ⟨hw, ⟨p, hp, hdom⟩, hn⟩
      obtain ⟨blk, hblk, rfl⟩ := Func.mem_blockIds.1 hw
      exact .inr ⟨blk, hblk, rfl, p, hp, hdom, hn⟩

end DominanceFrontier

/-! ## Every graph -/

section

variable {f : Func} {e : Block} {cfg : ControlFlowGraph}

/-- The solver ends, with the blocks on every path to each reachable block. The tree can be
built if and only if every block is reachable; then it has the one strict dominator of each
block that every other strict dominator dominates. -/
theorem dominance_exact (h : cfg.Of f) (hd : f.Distinct) (he : f.entrance = some e)
    (order : BlockId → HashOrder) (entries : HashOrder) :
    ∃ fuel flow, dominance.solve cfg fuel = .ok (some flow) ∧
      (∀ b ∈ f.blocks, Reachable f.BlockEdge e.id b.id → ∃ s, flow.out b.id = .of s ∧
        ∀ d, d ∈ s ↔ ∀ l, Walk f.BlockEdge e.id b.id l → d ∈ l) ∧
      ((∃ tree, DominanceTree.build order entries flow = .ok tree) ↔
        ∀ b ∈ f.blocks, Reachable f.BlockEdge e.id b.id) ∧
      ∀ tree, DominanceTree.build order entries flow = .ok tree → ∀ b ∈ f.blocks,
        (b.id = e.id → tree.idom b.id = .ok none) ∧
        (b.id ≠ e.id → ∃ i, tree.idom b.id = .ok (some i) ∧ ∀ d, d = i ↔
          StrictlyDominates f.BlockEdge e.id d b.id ∧
            ∀ c, StrictlyDominates f.BlockEdge e.id c b.id → Dominates f.BlockEdge e.id c d) := by
  obtain ⟨fuel, flow, hsolve, hflow⟩ := dominance_solve h hd he
  refine ⟨fuel, flow, hsolve, fun b hb hr => ?_, ⟨?_, fun hall => ?_⟩, fun tree ht b hb => ?_⟩
  · exact ⟨trueDoms f e b.id, hflow.reachable b hb hr, mem_trueDoms hr⟩
  · rintro ⟨tree, ht⟩ b hb
    exact DominanceTree.reachable_of_build hflow ht hb
  · obtain ⟨tree, ht, -⟩ : Yields (DominanceTree.build order entries flow) _ :=
      DominanceTree.build_spec hflow hd hall
    exact ⟨tree, ht⟩
  · have hall : ∀ b ∈ f.blocks, Reachable f.BlockEdge e.id b.id := fun b hb =>
      DominanceTree.reachable_of_build hflow ht hb
    obtain ⟨tree', ht', hcorrect⟩ : Yields (DominanceTree.build order entries flow) _ :=
      DominanceTree.build_spec hflow hd hall
    cases ht.symm.trans ht'
    obtain ⟨i?, hi?, hspec⟩ := hcorrect.idom b hb
    constructor
    · intro hbe
      cases i? with
      | none => exact hi?
      | some i => exact absurd hbe ((hspec i).1 rfl).1.ne_entry
    · intro hbe
      obtain ⟨i, hi⟩ := exists_isIdom trueDoms_spec
        (hall b hb) hbe
      obtain rfl := (hspec i).2 hi
      refine ⟨i, hi?, fun d => ?_⟩
      rw [← Option.some_inj, @eq_comm _ (some d)]
      exact hspec d

/-- A function whose second block no edge leads to. -/
def deadBlock : Func where
  name := "main"
  retType := .unit
  params := []
  locals := []
  blocks := [⟨0, "entry", [], some (.ret .void)⟩, ⟨1, "dead", [], some (.ret .void)⟩]
  temps := []
  tempLabelCount := 0
  nextBlock := 2

/-- There the solver ends, but no tree comes of it: not even the entry gets its place. -/
theorem deadBlock_no_tree :
    (∃ cfg, ControlFlowGraph.build deadBlock = .ok cfg) ∧ deadBlock.Distinct ∧
      ∀ cfg, ControlFlowGraph.build deadBlock = .ok cfg →
        (∃ fuel flow, dominance.solve cfg fuel = .ok (some flow)) ∧
        ∀ fuel flow, dominance.solve cfg fuel = .ok (some flow) → ∀ order entries tree,
          DominanceTree.build order entries flow ≠ .ok tree := by
  have hd : deadBlock.Distinct := by
    show List.Nodup [0, 1]
    decide
  refine ⟨ControlFlowGraph.exists_build (by decide), hd, fun cfg hcfg => ?_⟩
  have h := ControlFlowGraph.of_build hcfg
  obtain ⟨fuel, flow, hsolve, hflow⟩ := dominance_solve h hd rfl
  refine ⟨⟨fuel, flow, hsolve⟩, fun fuel' flow' hsolve' order entries tree ht => ?_⟩
  cases FlowTrait.solve_unique _ _ hsolve hsolve'
  have hreach : Reachable deadBlock.BlockEdge 0 1 :=
    DominanceTree.reachable_of_build (b := ⟨1, "dead", [], some (.ret .void)⟩) hflow ht (by decide)
  obtain ⟨p, -, blk, hblk, -, hedge⟩ := hreach.exists_pred (by decide)
  simp only [deadBlock, List.mem_cons, List.not_mem_nil, or_false] at hblk
  rcases hblk with rfl | rfl
  · simp [Block.targets, Exit.targets] at hedge
  · simp [Block.targets, Exit.targets] at hedge

/-- A loop of one block. -/
def selfLoop : Func where
  name := "main"
  retType := .unit
  params := []
  locals := []
  blocks := [⟨0, "entry", [], some (.jump 1)⟩,
    ⟨1, "loop", [], some (.branch (.const (.ofBool true)) 1 2)⟩, ⟨2, "exit", [], some (.ret .void)⟩]
  temps := []
  tempLabelCount := 0
  nextBlock := 3

theorem selfLoop_distinct : selfLoop.Distinct := by
  show List.Nodup [0, 1, 2]
  decide

theorem selfLoop_edge {p t : BlockId} :
    selfLoop.BlockEdge p t ↔ (p = 0 ∧ t = 1) ∨ (p = 1 ∧ (t = 1 ∨ t = 2)) := by
  simp only [Func.BlockEdge, selfLoop, List.exists_mem_cons_iff, List.not_mem_nil, false_and,
    exists_false, or_false]
  simp [Block.targets, Exit.targets, @eq_comm _ _ p]

theorem selfLoop_reachable : ∀ b ∈ selfLoop.blocks, Reachable selfLoop.BlockEdge 0 b.id := by
  have h₀ : Reachable selfLoop.BlockEdge 0 0 := Reachable.start
  have h₁ : Reachable selfLoop.BlockEdge 0 1 := h₀.step (selfLoop_edge.2 (by simp))
  have h₂ : Reachable selfLoop.BlockEdge 0 2 := h₁.step (selfLoop_edge.2 (by simp))
  simpa [selfLoop] using ⟨h₀, h₁, h₂⟩

/-- The order of the numbers. -/
def HashOrder.sorted : HashOrder where
  list s := s.sort
  nodup s := s.sort_nodup _
  mem_list _ _ := Finset.mem_sort _

theorem dominance_exact_selfLoop : ∃ cfg fuel flow tree,
    ControlFlowGraph.build selfLoop = .ok cfg ∧ dominance.solve cfg fuel = .ok (some flow) ∧
      DominanceTree.build (fun _ => .sorted) .sorted flow = .ok tree ∧ tree.idom 0 = .ok none := by
  obtain ⟨cfg, hcfg⟩ : ∃ cfg, ControlFlowGraph.build selfLoop = .ok cfg :=
    ControlFlowGraph.exists_build (by decide)
  obtain ⟨fuel, flow, hsolve, -, htree, hidom⟩ := dominance_exact (ControlFlowGraph.of_build hcfg)
    selfLoop_distinct rfl (fun _ => .sorted) .sorted
  obtain ⟨tree, ht⟩ := htree.2 selfLoop_reachable
  exact ⟨cfg, fuel, flow, tree, hcfg, hsolve, ht, (hidom tree ht _ List.mem_cons_self).1 rfl⟩

/-- The frontier of a block: the blocks with a predecessor that it dominates, and that it
does not strictly dominate. -/
theorem frontier_exact (h : cfg.Of f) (hd : f.Distinct) (he : f.entrance = some e)
    (hall : ∀ b ∈ f.blocks, Reachable f.BlockEdge e.id b.id)
    (hentry : ∀ p, ¬f.BlockEdge p e.id) (order : BlockId → HashOrder) (entries : HashOrder) :
    ∃ fuel flow tree fuel' fr, dominance.solve cfg fuel = .ok (some flow) ∧
      DominanceTree.build order entries flow = .ok tree ∧
      DominanceFrontier.build cfg tree fuel' = .ok (some fr) ∧
      ∀ n ∈ f.blocks, ∃ s, fr.frontier n.id = .ok (.of s) ∧ ∀ w, w ∈ s ↔
        w ∈ f.blockIds ∧ (∃ p, f.BlockEdge p w ∧ Dominates f.BlockEdge e.id n.id p) ∧
          ¬StrictlyDominates f.BlockEdge e.id n.id w := by
  obtain ⟨fuel, flow, hsolve, hflow⟩ := dominance_solve h hd he
  obtain ⟨tree, ht, hcorrect⟩ : Yields (DominanceTree.build order entries flow) _ :=
    DominanceTree.build_spec hflow hd hall
  obtain ⟨fr, hfr, hspec⟩ :=
    DominanceFrontier.build_spec h hcorrect hall hentry (Nat.lt_succ_self f.blocks.length)
  refine ⟨fuel, flow, tree, _, fr, hsolve, ht, hfr, fun n hn => ?_⟩
  obtain ⟨s, hs, hiff⟩ := hspec n hn
  cases s with
  | univ =>
    obtain ⟨w, hw⟩ := Infinite.exists_notMem_finset f.blockIds
    exact absurd ((hiff w).1 rfl).1 hw
  | of s => exact ⟨s, hs, fun w => by rw [← hiff w, FlowSet.contains, decide_eq_true_iff]⟩

/-- The block of the loop is in its own frontier. -/
theorem frontier_exact_selfLoop : ∃ cfg tree fuel fr s,
    ControlFlowGraph.build selfLoop = .ok cfg ∧
      DominanceFrontier.build cfg tree fuel = .ok (some fr) ∧ fr.frontier 1 = .ok (.of s) ∧
      1 ∈ s := by
  obtain ⟨cfg, hcfg⟩ : ∃ cfg, ControlFlowGraph.build selfLoop = .ok cfg :=
    ControlFlowGraph.exists_build (by decide)
  have hentry : ∀ p, ¬selfLoop.BlockEdge p 0 := fun p hp => by simp [selfLoop_edge] at hp
  obtain ⟨-, -, tree, fuel, fr, -, -, hfr, hspec⟩ := frontier_exact
    (ControlFlowGraph.of_build hcfg) selfLoop_distinct rfl selfLoop_reachable hentry
    (fun _ => .sorted) .sorted
  obtain ⟨s, hs, hiff⟩ :=
    hspec ⟨1, "loop", [], some (.branch (.const (.ofBool true)) 1 2)⟩ (by simp [selfLoop])
  refine ⟨cfg, tree, fuel, fr, s, hcfg, hfr, hs, (hiff 1).2 ⟨?_, ⟨1, ?_, .refl⟩, fun h => h.1 rfl⟩⟩
  · decide
  · exact selfLoop_edge.2 (by simp)

end

end Analysis
end Ir
end Cact
