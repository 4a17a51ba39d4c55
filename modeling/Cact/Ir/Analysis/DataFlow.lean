import Cact.Ir.Ir
import Cact.Lib.Equations
import Cact.Lib.Exact
import Cact.Lib.Loop

/-!
# Data flow analysis (`analysis/cfg.hpp`, `analysis/dataflow/framework.hpp`)

The control flow graph of a function and the solver of data flow equations. The sets
of the source are unordered, so the graph keeps its sets of blocks as lists in the
order they are walked in, and the theorems are about every order. A `while` loop takes
a bound on its tests; it ends when some bound is enough.

- `ControlFlowGraph`: predecessors and successors, with `build` for the constructor.
- `FlowSet`: `Set`, with the universe as an element of its own.
- `FlowTrait`, `solve`: the framework.
- `FlowTrait.Lawful`, `Lawful.solve_greatest`: what a lawful analysis computes.
-/

namespace Cact

namespace Ir

/-- The blocks of a function are objects of their own. -/
def Func.Distinct (f : Func) : Prop := (f.blocks.map Block.id).Nodup

theorem Func.Distinct.eq_of_id {f : Func} (h : f.Distinct) {b c : Block} (hb : b ∈ f.blocks)
    (hc : c ∈ f.blocks) (hid : b.id = c.id) : b = c :=
  List.inj_on_of_nodup_map h hb hc hid

/-- Control can pass from one block to another. -/
def Func.BlockEdge (f : Func) (b t : BlockId) : Prop :=
  ∃ blk ∈ f.blocks, blk.id = b ∧ t ∈ blk.targets

namespace Analysis

/-! ## The control flow graph -/

/-- `ControlFlowGraph`. A block without an entry in a map has no neighbours there. -/
structure ControlFlowGraph where
  func : Func
  succ : BlockId → List BlockId
  pred : BlockId → List BlockId

namespace ControlFlowGraph

/-- Insertion into an unordered set. -/
def insertNode (s : List BlockId) (b : BlockId) : List BlockId := if b ∈ s then s else s ++ [b]

/-- `connect`. -/
def connect (cfg : ControlFlowGraph) (src dst : BlockId) : ControlFlowGraph :=
  { cfg with
    succ := Function.update cfg.succ src (insertNode (cfg.succ src) dst)
    pred := Function.update cfg.pred dst (insertNode (cfg.pred dst) src) }

/-- What the constructor does with a block. The exit of a block that has none is an empty
optional. -/
def connectExit (cfg : ControlFlowGraph) (blk : Block) : Except Fault ControlFlowGraph :=
  match blk.exit with
  | none => .error .nullPointer
  | some e => .ok (e.targets.foldl (fun cfg t => cfg.connect blk.id t) cfg)

/-- The constructor. -/
def build (func : Func) : Except Fault ControlFlowGraph :=
  func.blocks.foldlM connectExit ⟨func, fun _ => [], fun _ => []⟩

/-- The graph has the edges `E`, each of them once. -/
structure HasEdges (cfg : ControlFlowGraph) (E : BlockId → BlockId → Prop) : Prop where
  succ_nodup : ∀ b, (cfg.succ b).Nodup
  pred_nodup : ∀ b, (cfg.pred b).Nodup
  mem_succ : ∀ b t, t ∈ cfg.succ b ↔ E b t
  mem_pred : ∀ b t, b ∈ cfg.pred t ↔ E b t

/-- The graph of a function, with its sets in some order. -/
structure Of (cfg : ControlFlowGraph) (func : Func) : Prop where
  func_eq : cfg.func = func
  exits : ∀ b ∈ func.blocks, b.exit.isSome
  edges : cfg.HasEdges func.BlockEdge

variable {cfg cfg' : ControlFlowGraph} {func : Func} {E : BlockId → BlockId → Prop}

theorem mem_insertNode {s : List BlockId} {a b : BlockId} :
    a ∈ insertNode s b ↔ a ∈ s ∨ a = b := by
  unfold insertNode
  split
  next h =>
    constructor
    · exact Or.inl
    · rintro (ha | rfl)
      · exact ha
      · exact h
  next => simp

theorem nodup_insertNode {s : List BlockId} {b : BlockId} (h : s.Nodup) : (insertNode s b).Nodup := by
  unfold insertNode
  split
  next => exact h
  next hb => exact List.nodup_append.2 ⟨h, by simp, by rintro a ha c hc rfl; simp_all⟩

theorem HasEdges.congr {E' : BlockId → BlockId → Prop} (h : cfg.HasEdges E)
    (hE : ∀ b t, E b t ↔ E' b t) : cfg.HasEdges E' where
  succ_nodup := h.succ_nodup
  pred_nodup := h.pred_nodup
  mem_succ b t := (h.mem_succ b t).trans (hE b t)
  mem_pred b t := (h.mem_pred b t).trans (hE b t)

theorem HasEdges.connect (h : cfg.HasEdges E) (src dst : BlockId) :
    (cfg.connect src dst).HasEdges fun b t => E b t ∨ (b = src ∧ t = dst) where
  succ_nodup b := by
    by_cases hb : b = src
    · subst hb
      simpa [ControlFlowGraph.connect] using nodup_insertNode (h.succ_nodup b)
    · simpa [ControlFlowGraph.connect, hb] using h.succ_nodup b
  pred_nodup b := by
    by_cases hb : b = dst
    · subst hb
      simpa [ControlFlowGraph.connect] using nodup_insertNode (h.pred_nodup b)
    · simpa [ControlFlowGraph.connect, hb] using h.pred_nodup b
  mem_succ b t := by
    by_cases hb : b = src
    · subst hb
      simp [ControlFlowGraph.connect, mem_insertNode, h.mem_succ]
    · simp [ControlFlowGraph.connect, hb, h.mem_succ]
  mem_pred b t := by
    by_cases ht : t = dst
    · subst ht
      simp [ControlFlowGraph.connect, mem_insertNode, h.mem_pred]
    · simp [ControlFlowGraph.connect, ht, h.mem_pred]

theorem HasEdges.foldl_connect (h : cfg.HasEdges E) (src : BlockId) (ts : List BlockId) :
    (ts.foldl (fun cfg t => cfg.connect src t) cfg).HasEdges
      fun b t => E b t ∨ (b = src ∧ t ∈ ts) := by
  induction ts generalizing cfg E with
  | nil => simpa using h
  | cons t ts ih =>
    have hts := ih (h.connect src t)
    simpa only [List.foldl_cons, List.mem_cons, and_or_left, or_assoc] using hts

theorem foldl_connect_func (cfg : ControlFlowGraph) (src : BlockId) (ts : List BlockId) :
    (ts.foldl (fun cfg t => cfg.connect src t) cfg).func = cfg.func := by
  induction ts generalizing cfg with
  | nil => rfl
  | cons t ts ih => exact ih _

theorem foldlM_connectExit {bs : List Block} (h : cfg.HasEdges E)
    (hb : bs.foldlM connectExit cfg = .ok cfg') :
    cfg'.func = cfg.func ∧ (∀ b ∈ bs, b.exit.isSome) ∧
      cfg'.HasEdges fun b t => E b t ∨ ∃ blk ∈ bs, blk.id = b ∧ t ∈ blk.targets := by
  induction bs generalizing cfg E with
  | nil =>
    cases hb
    exact ⟨rfl, by simp, by simpa using h⟩
  | cons blk bs ih =>
    rw [List.foldlM_cons, Except.bind_eq_ok] at hb
    obtain ⟨cfg₁, h₁, hrest⟩ := hb
    unfold connectExit at h₁
    split at h₁
    next => cases h₁
    next e he =>
      cases h₁
      have htargets : blk.targets = e.targets := by simp [Block.targets, he]
      obtain ⟨hfunc, hexits, hedges⟩ := ih (h.foldl_connect blk.id e.targets) hrest
      refine ⟨hfunc.trans (foldl_connect_func cfg blk.id e.targets), ?_, ?_⟩
      · rw [List.forall_mem_cons]
        exact ⟨by simp [he], hexits⟩
      · rw [← htargets] at hedges
        have hiff : ∀ b t, (E b t ∨ b = blk.id ∧ t ∈ blk.targets) ∨
            (∃ blk ∈ bs, blk.id = b ∧ t ∈ blk.targets) ↔
            E b t ∨ ∃ c ∈ blk :: bs, c.id = b ∧ t ∈ c.targets := by
          intro b t
          rw [List.exists_mem_cons_iff, or_assoc, @eq_comm _ b]
        exact hedges.congr hiff

/-- The constructor makes the graph of the function. -/
theorem of_build (h : build func = .ok cfg) : cfg.Of func := by
  have hempty : HasEdges ⟨func, fun _ => [], fun _ => []⟩ fun _ _ => False :=
    ⟨fun _ => List.nodup_nil, fun _ => List.nodup_nil, by simp, by simp⟩
  obtain ⟨hfunc, hexits, hedges⟩ := foldlM_connectExit hempty h
  refine ⟨hfunc, hexits, hedges.congr fun b t => ?_⟩
  rw [false_or]
  exact Iff.rfl

theorem exists_foldlM_connectExit {bs : List Block} (h : ∀ b ∈ bs, b.exit.isSome)
    (cfg : ControlFlowGraph) : ∃ cfg', bs.foldlM connectExit cfg = .ok cfg' := by
  induction bs generalizing cfg with
  | nil => exact ⟨cfg, rfl⟩
  | cons blk bs ih =>
    obtain ⟨e, he⟩ := Option.isSome_iff_exists.1 (h blk (by simp))
    obtain ⟨cfg', hcfg'⟩ := ih (fun b hb => h b (List.mem_cons_of_mem _ hb))
      (e.targets.foldl (fun cfg t => cfg.connect blk.id t) cfg)
    refine ⟨cfg', ?_⟩
    rw [List.foldlM_cons, Except.bind_eq_ok]
    exact ⟨_, by simp [connectExit, he], hcfg'⟩

/-- It fails only where a block has no exit. -/
theorem exists_build (h : ∀ b ∈ func.blocks, b.exit.isSome) : ∃ cfg, build func = .ok cfg :=
  exists_foldlM_connectExit h _

end ControlFlowGraph

/-! ## Sets -/

/-- `Set`. Where the universe flag of the source is set, the elements beside it are not
looked at. -/
inductive FlowSet (T : Type)
  | univ
  | of (elems : Finset T)
  deriving DecidableEq

namespace FlowSet

variable {T : Type}

def empty : FlowSet T := .of ∅

instance : Inhabited (FlowSet T) := ⟨empty⟩

/-- Inclusion. -/
def Le : FlowSet T → FlowSet T → Prop
  | _, univ => True
  | univ, of _ => False
  | of a, of b => a ⊆ b

variable {a b c : FlowSet T} {x y : T}

@[simp] theorem le_univ : a.Le univ := by cases a <;> trivial

theorem le_of {s t : Finset T} : (of s).Le (of t) ↔ s ⊆ t := Iff.rfl

theorem Le.refl : a.Le a := by
  cases a with
  | univ => trivial
  | of s => exact Finset.Subset.refl s

theorem Le.trans (h : a.Le b) (h' : b.Le c) : a.Le c := by
  cases a <;> cases b <;> cases c <;> simp_all only [Le]
  exact Finset.Subset.trans h h'

variable [DecidableEq T]

def intersectionSet : FlowSet T → FlowSet T → FlowSet T
  | univ, b => b
  | a, univ => a
  | of a, of b => of (a ∩ b)

def unionSet : FlowSet T → FlowSet T → FlowSet T
  | of a, of b => of (a ∪ b)
  | _, _ => univ

def difference : FlowSet T → FlowSet T → Except Fault (FlowSet T)
  | univ, univ => .ok empty
  | univ, of b =>
    if b = ∅ then .ok univ
    else .error (.compilerError "Cannot difference non-trivial set from universe set")
  | of _, univ => .ok empty
  | of a, of b => .ok (of (a \ b))

/-- What a loop over the set goes through. -/
def elems : FlowSet T → Except Fault (Finset T)
  | univ => .error (.compilerError "Cannot iterate over universe set")
  | of a => .ok a

def size : FlowSet T → Except Fault Nat
  | univ => .error (.compilerError "Cannot get size of universe set")
  | of a => .ok a.card

def contains : FlowSet T → T → Bool
  | univ, _ => true
  | of a, x => decide (x ∈ a)

def insert : FlowSet T → T → FlowSet T
  | univ, _ => univ
  | of a, x => of (Insert.insert x a)

@[simp] theorem contains_empty : (empty : FlowSet T).contains x = false := by simp [empty, contains]

@[simp] theorem contains_intersectionSet :
    (a.intersectionSet b).contains x = (a.contains x && b.contains x) := by
  cases a <;> cases b <;> simp [intersectionSet, contains]

@[simp] theorem contains_unionSet :
    (a.unionSet b).contains x = (a.contains x || b.contains x) := by
  cases a <;> cases b <;> simp [unionSet, contains]

@[simp] theorem contains_insert : (a.insert x).contains y = (decide (y = x) || a.contains y) := by
  cases a <;> simp [insert, contains]

theorem intersectionSet_le_left : (a.intersectionSet b).Le a := by
  cases a <;> cases b <;> simp [intersectionSet, Le]

theorem intersectionSet_le_right : (a.intersectionSet b).Le b := by
  cases a <;> cases b <;> simp [intersectionSet, Le]

theorem le_intersectionSet (ha : c.Le a) (hb : c.Le b) : c.Le (a.intersectionSet b) := by
  cases a <;> cases b <;> cases c <;> simp_all [intersectionSet, Le, Finset.subset_inter_iff]

theorem le_of_contains {s : Finset T} (h : ∀ x ∈ s, a.contains x = true) : (of s).Le a := by
  cases a with
  | univ => trivial
  | of t => exact fun x hx => by simpa [contains] using h x hx

theorem Le.contains (h : a.Le b) (hx : a.contains x = true) : b.contains x = true := by
  cases a <;> cases b <;> simp_all [FlowSet.contains, Le]
  exact h hx

theorem le_unionSet_left : a.Le (a.unionSet b) := by
  cases a <;> cases b <;> simp [unionSet, Le]

theorem le_unionSet_right : b.Le (a.unionSet b) := by
  cases a <;> cases b <;> simp [unionSet, Le]

theorem unionSet_le (ha : a.Le c) (hb : b.Le c) : (a.unionSet b).Le c := by
  cases a <;> cases b <;> cases c <;> simp_all [unionSet, Le, Finset.union_subset_iff]

/-- `difference`, where it does not throw. -/
def minus : FlowSet T → FlowSet T → FlowSet T
  | univ, _ => univ
  | of _, univ => empty
  | of a, of b => of (a \ b)

theorem difference_of {s : Finset T} : (of s).difference b = .ok ((of s).minus b) := by
  cases b <;> rfl

theorem minus_mono (h : a.Le b) : (a.minus c).Le (b.minus c) := by
  cases a with
  | univ =>
    cases b with
    | univ => exact .refl
    | of t => exact h.elim
  | of s =>
    cases b with
    | univ => exact le_univ
    | of t =>
      cases c with
      | univ => exact .refl
      | of k => exact Finset.sdiff_subset_sdiff h (Finset.Subset.refl k)

/-- Only finite sets have bounds. -/
theorem eq_of_of_bounded [Infinite T] {u : Finset T} (h : ∀ x, a.contains x = true → x ∈ u) :
    ∃ s ⊆ u, a = of s := by
  cases a with
  | univ =>
    obtain ⟨x, hx⟩ := Infinite.exists_notMem_finset u
    exact absurd (h x rfl) hx
  | of s => exact ⟨s, fun x hx => h x (by simpa [contains] using hx), rfl⟩

theorem insert_mono (h : a.Le b) : (a.insert x).Le (b.insert x) := by
  cases a <;> cases b <;> simp_all [insert, Le, Finset.insert_subset_insert]

end FlowSet

/-! ## The framework -/

/-- A `FlowTrait`, at its context. An analysis without an `edge_transfer` has the
identity. -/
structure FlowTrait (D : Type) where
  isForward : Bool
  boundary : D
  top : D
  meet : D → D → D
  transfer : Block → D → Except Fault D
  edgeTransfer : BlockId → BlockId → D → D

/-- The maps of the solver, and its flag. A block without an entry has the value of the
default constructor. -/
structure Flow (D : Type) where
  flowIn : BlockId → D
  flowOut : BlockId → D
  changed : Bool

/-- `DataFlow`: the maps of a solved analysis. -/
structure DataFlow (D : Type) where
  cfg : ControlFlowGraph
  «in» : BlockId → D
  out : BlockId → D

/-- `out.at`. -/
def DataFlow.outAt {D : Type} (flow : DataFlow D) (b : BlockId) : Except Fault D :=
  if b ∈ flow.cfg.func.blocks.map Block.id then .ok (flow.out b) else .error .outOfRange

namespace FlowTrait

variable {D : Type} (tr : FlowTrait D) (cfg : ControlFlowGraph)

/-- `is_boundary`. -/
def isBoundary (blk : Block) : Bool :=
  if tr.isForward then cfg.func.entrance.any fun e => blk.id == e.id
  else
    match blk.exit with
    | some (.ret _) => true
    | _ => false

/-- `flow_pred`: backward analysis is forward analysis in the reversed graph. -/
def flowPred : BlockId → List BlockId := if tr.isForward then cfg.pred else cfg.succ

/-- The value on the edge between a block and one of its flow predecessors. -/
def edgeOut (blk p : BlockId) (d : D) : D :=
  if tr.isForward then tr.edgeTransfer p blk d else tr.edgeTransfer blk p d

/-- `new_in`. -/
def gather (blk : Block) (out : BlockId → D) : D :=
  let newIn := (tr.flowPred cfg blk.id).foldl
    (fun newIn p => tr.meet newIn (tr.edgeOut blk.id p (out p))) tr.top
  if tr.isBoundary cfg blk then tr.meet newIn tr.boundary else newIn

/-- The initial values of a block. -/
def initBlock (s : Flow D) (blk : Block) : Except Fault (Flow D) :=
  if tr.isBoundary cfg blk then do
    let newOut ← tr.transfer blk tr.boundary
    return { s with
      flowIn := Function.update s.flowIn blk.id tr.boundary
      flowOut := Function.update s.flowOut blk.id newOut }
  else
    .ok { s with
      flowIn := Function.update s.flowIn blk.id tr.top
      flowOut := Function.update s.flowOut blk.id tr.top }

def init [Inhabited D] : Except Fault (Flow D) :=
  cfg.func.blocks.foldlM (tr.initBlock cfg) ⟨fun _ => default, fun _ => default, true⟩

/-- The equation of a block, once. -/
def visit [DecidableEq D] (s : Flow D) (blk : Block) : Except Fault (Flow D) := do
  let newIn := tr.gather cfg blk s.flowOut
  let newOut ← tr.transfer blk newIn
  let s := { s with flowIn := Function.update s.flowIn blk.id newIn }
  if newOut = s.flowOut blk.id then return s
  else return { s with flowOut := Function.update s.flowOut blk.id newOut, changed := true }

/-- The body of the `while` loop. -/
def pass [DecidableEq D] (s : Flow D) : Except Fault (Flow D) :=
  cfg.func.blocks.foldlM (tr.visit cfg) { s with changed := false }

/-- `solve`, with a bound on the tests of the loop. -/
def solve [DecidableEq D] [Inhabited D] (fuel : Nat) : Except Fault (Option (DataFlow D)) := do
  let s ← tr.init cfg
  let r ← whileM Flow.changed (tr.pass cfg) fuel s
  return r.map fun s =>
    if tr.isForward then ⟨cfg, s.flowIn, s.flowOut⟩ else ⟨cfg, s.flowOut, s.flowIn⟩

/-- A larger bound does not change the result. -/
theorem solve_mono [DecidableEq D] [Inhabited D] {fuel fuel' : Nat} {a : DataFlow D}
    (hle : fuel ≤ fuel') (h : tr.solve cfg fuel = .ok (some a)) :
    tr.solve cfg fuel' = .ok (some a) := by
  unfold solve at h ⊢
  simp only [Except.bind_eq_ok, Except.pure_eq_ok, Option.map_eq_some_iff] at h ⊢
  obtain ⟨s, hs, r, hr, t, rfl, ha⟩ := h
  exact ⟨s, hs, some t, whileM_mono hle hr, t, rfl, ha⟩

/-- A solver that ends ends with the same maps, whatever the bound. -/
theorem solve_unique [DecidableEq D] [Inhabited D] {fuel fuel' : Nat} {a b : DataFlow D}
    (ha : tr.solve cfg fuel = .ok (some a)) (hb : tr.solve cfg fuel' = .ok (some b)) : a = b := by
  unfold solve at ha hb
  simp only [Except.bind_eq_ok, Except.pure_eq_ok, Option.map_eq_some_iff] at ha hb
  obtain ⟨s, hs, r, hr, t, rfl, rfl⟩ := ha
  obtain ⟨s', hs', r', hr', t', rfl, rfl⟩ := hb
  cases hs.symm.trans hs'
  have h := whileM_mono (le_max_left fuel fuel') hr
  have h' := whileM_mono (le_max_right fuel fuel') hr'
  cases h.symm.trans h'
  rfl

/-! ## Lawful analyses -/

/-- An analysis whose operations are monotone in an order with `top` on top, in which
`meet` is the greatest lower bound, and whose values go down only so far. `value` is what
`transfer` returns from a value that occurs. -/
structure Lawful [Inhabited D] where
  le : D → D → Prop
  ok : D → Prop
  rank : D → Nat
  value : Block → D → D
  le_refl : ∀ d, le d d
  le_trans : ∀ d₁ d₂ d₃, le d₁ d₂ → le d₂ d₃ → le d₁ d₃
  rank_lt : ∀ d d', ok d → ok d' → le d d' → d ≠ d' → rank d < rank d'
  le_top : ∀ d, le d tr.top
  meet_le_left : ∀ d d', le (tr.meet d d') d
  meet_le_right : ∀ d d', le (tr.meet d d') d'
  le_meet : ∀ c d d', le c d → le c d' → le c (tr.meet d d')
  edge_mono : ∀ a b d d', le d d' → le (tr.edgeTransfer a b d) (tr.edgeTransfer a b d')
  value_mono : ∀ b d d', le d d' → le (value b d) (value b d')
  transfer_eq : ∀ b ∈ cfg.func.blocks, ∀ d, ok d → tr.transfer b d = .ok (value b d)
  ok_default : ok default
  ok_top : ok tr.top
  ok_boundary : ok tr.boundary
  ok_meet : ∀ d d', ok d → ok d' → ok (tr.meet d d')
  ok_edge : ∀ a b d, ok d → ok (tr.edgeTransfer a b d)
  ok_value : ∀ b ∈ cfg.func.blocks, ∀ d, ok d → ok (value b d)

namespace Lawful

variable {tr : FlowTrait D} {cfg : ControlFlowGraph} [Inhabited D] (L : tr.Lawful cfg)
  {x y : BlockId → D} {b : Block}

theorem edgeOut_mono (L : tr.Lawful cfg) (blk p : BlockId) {d d' : D} (h : L.le d d') :
    L.le (tr.edgeOut blk p d) (tr.edgeOut blk p d') := by
  unfold edgeOut
  split
  · exact L.edge_mono _ _ _ _ h
  · exact L.edge_mono _ _ _ _ h

theorem meet_mono {c c' d d' : D} (hc : L.le c c') (hd : L.le d d') :
    L.le (tr.meet c d) (tr.meet c' d') :=
  L.le_meet _ _ _ (L.le_trans _ _ _ (L.meet_le_left c d) hc)
    (L.le_trans _ _ _ (L.meet_le_right c d) hd)

theorem gather_mono (b : Block) (h : ∀ n, L.le (x n) (y n)) :
    L.le (tr.gather cfg b x) (tr.gather cfg b y) := by
  have hfold : ∀ (ps : List BlockId) (c c' : D), L.le c c' →
      L.le (ps.foldl (fun d p => tr.meet d (tr.edgeOut b.id p (x p))) c)
        (ps.foldl (fun d p => tr.meet d (tr.edgeOut b.id p (y p))) c') := by
    intro ps
    induction ps with
    | nil => exact fun c c' hc => hc
    | cons p ps ih => exact fun c c' hc => ih _ _ (L.meet_mono hc (L.edgeOut_mono b.id p (h p)))
  unfold gather
  dsimp only
  split
  · exact L.meet_mono (hfold _ _ _ (L.le_refl _)) (L.le_refl _)
  · exact hfold _ _ _ (L.le_refl _)

theorem ok_edgeOut (blk p : BlockId) {d : D} (h : L.ok d) : L.ok (tr.edgeOut blk p d) := by
  unfold edgeOut
  split
  · exact L.ok_edge _ _ _ h
  · exact L.ok_edge _ _ _ h

theorem ok_gather (b : Block) (h : ∀ n, L.ok (x n)) : L.ok (tr.gather cfg b x) := by
  have hfold : ∀ (ps : List BlockId) (c : D), L.ok c →
      L.ok (ps.foldl (fun d p => tr.meet d (tr.edgeOut b.id p (x p))) c) := by
    intro ps
    induction ps with
    | nil => exact fun c hc => hc
    | cons p ps ih => exact fun c hc => ih _ (L.ok_meet _ _ hc (L.ok_edgeOut b.id p (h p)))
  unfold gather
  dsimp only
  split
  · exact L.ok_meet _ _ (hfold _ _ L.ok_top) L.ok_boundary
  · exact hfold _ _ L.ok_top

theorem gather_le_boundary (hb : tr.isBoundary cfg b = true) (x : BlockId → D) :
    L.le (tr.gather cfg b x) tr.boundary := by
  unfold gather
  rw [if_pos hb]
  exact L.meet_le_right _ _

/-- The equations of the analysis. -/
def equations (hd : cfg.func.Distinct) : Equations Block BlockId D where
  nodes := cfg.func.blocks
  key := Block.id
  rhs b x := L.value b (tr.gather cfg b x)
  le := L.le
  ok := L.ok
  rank := L.rank
  key_inj _ hb _ hc h := hd.eq_of_id hb hc h
  le_refl := L.le_refl
  le_trans := L.le_trans
  rank_lt := L.rank_lt
  mono b _ _ _ h := L.value_mono b _ _ (L.gather_mono b h)
  rhs_ok b hb _ h := L.ok_value b hb _ (L.ok_gather b h)

/-- What is below the values of the equations, everywhere. Outside of the function there
is only the default value. -/
structure Below (y : BlockId → D) : Prop where
  consistent : ∀ b ∈ cfg.func.blocks, L.le (y b.id) (L.value b (tr.gather cfg b y))
  default : ∀ n, (∀ b ∈ cfg.func.blocks, b.id ≠ n) → L.le (y n) default

/-- The values solve the equations, and no solution is above them. -/
structure Greatest (s : Flow D) : Prop where
  gathered : ∀ b ∈ cfg.func.blocks, s.flowIn b.id = tr.gather cfg b s.flowOut
  solved : ∀ b ∈ cfg.func.blocks, s.flowOut b.id = L.value b (tr.gather cfg b s.flowOut)
  greatest : ∀ y, L.Below y → ∀ n, L.le (y n) (s.flowOut n)

/-- What holds before every test of the loop. -/
structure Inv (hd : cfg.func.Distinct) (s : Flow D) : Prop where
  descending : (L.equations hd).Descending s.flowOut
  greatest : ∀ y, L.Below y → ∀ n, L.le (y n) (s.flowOut n)
  done : s.changed = false → L.Greatest s

/-- The values the loop starts with. -/
structure Initial (rest : List Block) (s : Flow D) : Prop where
  changed : s.changed = true
  mem : ∀ b ∈ rest, b ∈ cfg.func.blocks
  boundary : ∀ b ∈ cfg.func.blocks, b ∉ rest →
    s.flowOut b.id = if tr.isBoundary cfg b then L.value b tr.boundary else tr.top
  outside : ∀ n, (∀ b ∈ cfg.func.blocks, b.id ≠ n) → s.flowOut n = Inhabited.default

theorem init_spec (hd : cfg.func.Distinct) : Yields (tr.init cfg) (L.Initial []) := by
  refine Yields.foldlM (I := L.Initial) ?_ ⟨rfl, fun b hb => hb, ?_, fun n _ => rfl⟩
  · intro c rest s h
    have hc := h.mem c (by simp)
    have hnew : ∀ d i, d = (if tr.isBoundary cfg c then L.value c tr.boundary else tr.top) →
        L.Initial rest ⟨i, Function.update s.flowOut c.id d, s.changed⟩ := by
      intro d i hdval
      refine ⟨h.changed, fun b hb => h.mem b (List.mem_cons_of_mem c hb), ?_, ?_⟩
      · intro b hb hrest
        by_cases hbc : b = c
        · subst hbc
          exact (Function.update_self b.id d s.flowOut).trans hdval
        · have hid : b.id ≠ c.id := fun hid => hbc (hd.eq_of_id hb hc hid)
          simp only [Function.update_of_ne hid]
          exact h.boundary b hb (by simp [hbc, hrest])
      · intro n hn
        simp only [Function.update_of_ne (hn c hc).symm]
        exact h.outside n hn
    unfold initBlock
    split
    next hb =>
      rw [L.transfer_eq c hc _ L.ok_boundary]
      exact Yields.ok (hnew _ _ (by rw [if_pos hb]))
    next hb => exact Yields.ok (hnew _ _ (by rw [if_neg hb]))
  · exact fun b hb hn => absurd hb hn

theorem Initial.inv (hd : cfg.func.Distinct) {s : Flow D} (h : L.Initial [] s) :
    L.Inv hd s where
  descending := by
    refine ⟨fun n => ?_, fun b hb => ?_⟩
    · by_cases hn : ∀ b ∈ cfg.func.blocks, b.id ≠ n
      · rw [h.outside n hn]
        exact L.ok_default
      · push Not at hn
        obtain ⟨b, hb, rfl⟩ := hn
        rw [h.boundary b hb (by simp)]
        split
        · exact L.ok_value b hb _ L.ok_boundary
        · exact L.ok_top
    · show L.le (L.value b (tr.gather cfg b s.flowOut)) (s.flowOut b.id)
      rw [h.boundary b hb (by simp)]
      split
      next hbd => exact L.value_mono b _ _ (L.gather_le_boundary hbd _)
      next => exact L.le_top _
  greatest y hy n := by
    by_cases hn : ∀ b ∈ cfg.func.blocks, b.id ≠ n
    · rw [h.outside n hn]
      exact hy.default n hn
    · push Not at hn
      obtain ⟨b, hb, rfl⟩ := hn
      rw [h.boundary b hb (by simp)]
      split
      next hbd =>
        exact L.le_trans _ _ _ (hy.consistent b hb) (L.value_mono b _ _ (L.gather_le_boundary hbd _))
      next => exact L.le_top _
  done hc := by
    rw [h.changed] at hc
    cases hc

section Loop

variable [DecidableEq D]

/-- What holds within a pass that started with the values of `s₀`, before the blocks of
`rest`. -/
structure PassInv (hd : cfg.func.Distinct) (s₀ : Flow D) (rest : List Block) (s : Flow D) :
    Prop where
  mem : ∀ b ∈ rest, b ∈ cfg.func.blocks
  descending : (L.equations hd).Descending s.flowOut
  greatest : ∀ y, L.Below y → ∀ n, L.le (y n) (s.flowOut n)
  potential_le : (L.equations hd).potential s.flowOut ≤ (L.equations hd).potential s₀.flowOut
  potential_lt : s.changed = true →
    (L.equations hd).potential s.flowOut < (L.equations hd).potential s₀.flowOut
  done : s.changed = false → ∀ b ∈ cfg.func.blocks, b ∉ rest →
    s.flowIn b.id = tr.gather cfg b s.flowOut ∧
      s.flowOut b.id = L.value b (tr.gather cfg b s.flowOut)

theorem visit_spec (hd : cfg.func.Distinct) {s₀ s : Flow D} {c : Block} {rest : List Block}
    (h : L.PassInv hd s₀ (c :: rest) s) : Yields (tr.visit cfg s c) (L.PassInv hd s₀ rest) := by
  have hc := h.mem c (by simp)
  have hmem : ∀ b ∈ rest, b ∈ cfg.func.blocks := fun b hb => h.mem b (List.mem_cons_of_mem c hb)
  unfold visit
  dsimp only
  rw [L.transfer_eq c hc _ (L.ok_gather c h.descending.ok)]
  simp only [bind, Except.bind]
  split
  next heq =>
    refine Yields.pure ⟨hmem, h.descending, h.greatest, h.potential_le, h.potential_lt, ?_⟩
    intro hch b hb hrest
    by_cases hbc : b = c
    · subst hbc
      exact ⟨Function.update_self _ _ _, heq.symm⟩
    · have hid : b.id ≠ c.id := fun hid => hbc (hd.eq_of_id hb hc hid)
      obtain ⟨hin, hout⟩ := h.done hch b hb (by simp [hbc, hrest])
      exact ⟨(Function.update_of_ne hid _ _).trans hin, hout⟩
  next hne =>
    have hlt := Equations.potential_step_lt (E := L.equations hd) h.descending hc hne
    refine Yields.pure ⟨hmem, h.descending.step hc, fun y hy => ?_, ?_, fun _ => ?_, nofun⟩
    · exact Equations.Consistent.le_step (E := L.equations hd) hy.consistent hc (h.greatest y hy)
    · exact hlt.le.trans h.potential_le
    · exact hlt.trans_le h.potential_le

theorem pass_spec (hd : cfg.func.Distinct) {s : Flow D} (h : L.Inv hd s) :
    Yields (tr.pass cfg s) (L.PassInv hd s []) := by
  refine Yields.foldlM (I := L.PassInv hd s) (fun c rest s' h' => L.visit_spec hd h') ?_
  exact ⟨fun b hb => hb, h.descending, h.greatest, le_rfl, nofun, fun _ b hb hn => absurd hb hn⟩

/-- The solver ends, with the greatest solution of the equations. -/
theorem solve_greatest (hd : cfg.func.Distinct) :
    ∃ fuel s, tr.solve cfg fuel = .ok (some
      (if tr.isForward then ⟨cfg, s.flowIn, s.flowOut⟩ else ⟨cfg, s.flowOut, s.flowIn⟩)) ∧
      L.Greatest s := by
  obtain ⟨s₀, hs₀, hinit⟩ := L.init_spec hd
  let μ : Flow D → Nat := fun s =>
    2 * (L.equations hd).potential s.flowOut + if s.changed then 1 else 0
  have hstep : ∀ s, L.Inv hd s → s.changed = true →
      Yields (tr.pass cfg s) fun s' => L.Inv hd s' ∧ μ s' < μ s := by
    intro s hs hc
    refine (L.pass_spec hd hs).mono fun s' hs' => ⟨⟨hs'.descending, hs'.greatest, fun hch => ?_⟩, ?_⟩
    · have hdone := hs'.done hch
      exact ⟨fun b hb => (hdone b hb (by simp)).1, fun b hb => (hdone b hb (by simp)).2, hs'.greatest⟩
    · show μ s' < μ s
      simp only [μ, if_pos hc]
      cases hch : s'.changed with
      | true =>
        have hlt := hs'.potential_lt hch
        simp only [if_pos]
        omega
      | false =>
        have hle := hs'.potential_le
        simp only [Bool.false_eq_true, if_false]
        omega
  obtain ⟨fuel, s, hs, hinv, hstop⟩ := whileM_total (I := L.Inv hd) (μ := μ) wellFounded_lt hstep
    (Initial.inv L hd hinit)
  refine ⟨fuel, s, ?_, hinv.done hstop⟩
  unfold solve
  rw [hs₀]
  simp only [bind, Except.bind, hs]
  rfl

end Loop

end Lawful
end FlowTrait
end Analysis
end Ir
end Cact
