import Cact.Ir.Analysis.DataFlow
import Cact.Ir.Order
import Cact.Ir.Scopes
import Cact.Lib.ParallelCopy
import Cact.Lib.StdMap

/-!
# Copies for phis (`transform/ssa/destruct.hpp`)

`schedule_copy` writes the phis of the successors of a block as moves at its end. The
phis read all their arguments before any of them is written, and the moves have to do
the same one after the other.

- `phiCopies`, `Schedule`, `scheduleCopy`: the pass on a block.
- `runMoves`: what the moves do with the words of the variables.
- `initMap_spec`: the map that the moves are made from.
- `Schedule.Inv`: the invariant of the loop, by `ParallelCopy.Pending`.
- `schedule_copy_iff`: when the moves do what the phis do.
-/

namespace Cact

namespace Ir

open Analysis (ControlFlowGraph)

/-! ## The pass -/

/-- An element of `copy_set`. -/
structure Copy where
  src : Value
  dest : LeftValue
  deriving DecidableEq, Repr

/-- The copies for the phis of the successors of a block. -/
def phiCopies (cfg : ControlFlowGraph) (f : Func) (b : BlockId) : Except Fault (List Copy) := do
  let blocks ← (cfg.succ b).mapM fun succ => Vm.deref (f.block? succ)
  (blocks.flatMap Block.phis).mapM fun phi => do
    let src ← phi.value b
    let dest ← Vm.deref phi.result
    return ⟨src, dest⟩

section Pass

variable (o : VarOrder)

/-- `map` after the first pass. -/
def initMap (copies : List Copy) : StdMap Value Value :=
  copies.foldl (fun m c =>
    (m.assign (Value.lt o) c.src c.src).assign (Value.lt o) (.left c.dest) (.left c.dest))
    ⟨[], fun _ => .void⟩

/-- `used` after the first pass. -/
def initUsed (copies : List Copy) : StdMap Value Bool :=
  copies.foldl (fun m c => m.assign (Value.lt o) c.src true) ⟨[], fun _ => false⟩

/-- The state of the loop. The back of the worklist is the head of its list. -/
structure Schedule where
  func : Func
  moves : List UnaryInst
  map : StdMap Value Value
  worklist : List Copy
  copySet : List Copy

namespace Schedule

/-- A copy of the worklist: those that waited for its source follow. -/
def copy (s : Schedule) (c : Copy) (rest : List Copy) : Schedule where
  func := s.func
  moves := s.moves ++ [⟨.mov, some c.dest, s.map.get (Value.lt o) c.src .void⟩]
  map := s.map.assign (Value.lt o) c.src (.left c.dest)
  worklist := (s.copySet.filter fun d => c.src.var? = some d.dest.var).reverse ++ rest
  copySet := s.copySet.filter fun d => !decide (c.src.var? = some d.dest.var)

/-- Every copy waits for another: the destination of the first is saved. -/
def breakCycle (b : BlockId) (s : Schedule) (c : Copy) (rest : List Copy) : Schedule :=
  let (temp, func) := s.func.newTemp c.dest.type b
  { func := func
    moves := s.moves ++ [⟨.mov, some temp, .left c.dest⟩]
    map := s.map.assign (Value.lt o) (.left c.dest) (.left temp)
    worklist := [c]
    copySet := rest }

/-- A round of the inner loop, or what the outer loop does when that has ended. -/
def round (b : BlockId) (s : Schedule) : Except Fault Schedule :=
  match s.worklist, s.copySet with
  | c :: rest, _ => .ok (s.copy o c rest)
  | [], c :: rest => .ok (s.breakCycle o b c rest)
  | [], [] => .ok s

def pending (s : Schedule) : Bool := !(s.worklist.isEmpty && s.copySet.isEmpty)

/-- The first two passes. A set of pairs is walked through in its order, which is that of
`inOrder`. -/
def init (f : Func) (copies inOrder : List Copy) : Schedule where
  func := f
  moves := []
  map := initMap o copies
  worklist := (inOrder.filter fun c =>
    !(initUsed o copies).get (Value.lt o) (.left c.dest) false).reverse
  copySet := inOrder.filter fun c => (initUsed o copies).get (Value.lt o) (.left c.dest) false

end Schedule

/-- `schedule_copy`. -/
def scheduleCopy (inOrder : List Copy → List Copy) (fuel : Nat) (cfg : ControlFlowGraph) (f : Func)
    (b : BlockId) : Except Fault (Option Func) := do
  let copies ← phiCopies cfg f b
  let s ← whileM Schedule.pending (Schedule.round o b) fuel (.init o f copies (inOrder copies))
  return s.map fun s =>
    s.func.updateBlock b fun blk => { blk with insts := blk.insts ++ s.moves.map .unary }

end Pass

/-! ## What moves do -/

/-- The words of the variables. -/
abbrev Words := Var → Vm.Word

/-- The word of a value. -/
def Value.wordIn (τ : Words) : Value → Vm.Word
  | const c => (Vm.viewConst c).word
  | left v => τ v.var

def runMove (τ : Words) (u : UnaryInst) : Words :=
  match u.result with
  | none => τ
  | some d => Function.update τ d.var (u.operand.wordIn τ)

def runMoves (τ : Words) (moves : List UnaryInst) : Words := moves.foldl runMove τ

@[simp] theorem runMoves_append (τ : Words) (moves : List UnaryInst) (u : UnaryInst) :
    runMoves τ (moves ++ [u]) = runMove (runMoves τ moves) u := by
  simp [runMoves]

/-- The moves give every destination the word its source had before them, and change
nothing else that the function had before. -/
structure CopiesAtOnce (f : Func) (copies : List Copy) (moves : List UnaryInst) : Prop where
  /-- a temporary that is written is none the function had before -/
  fresh : ∀ u ∈ moves, ∃ r, u.result = some r ∧
    (r.var ∈ copies.map (fun c => c.dest.var) ∨ ∃ i, r.var = .temp i ∧ f.temps.length ≤ i)
  once : (moves.map fun u => u.result.map LeftValue.var).Nodup
  dest : ∀ τ, ∀ c ∈ copies, runMoves τ moves c.dest.var = c.src.wordIn τ
  frame : ∀ τ v, v ∉ copies.map (fun c => c.dest.var) → (∀ i, v = .temp i → i < f.temps.length) →
    runMoves τ moves v = τ v

/-- The order tells the constants among the sources apart. -/
def ToldApart (copies : List Copy) : Prop :=
  ∀ c ∈ copies, ∀ d ∈ copies, ∀ x y, c.src = .const x → d.src = .const y → x.val ≠ y.val →
    x.val.lt y.val = true ∨ y.val.lt x.val = true

/-! ## The map of the first pass -/

/-- Where the word of a value is. -/
def Value.place : Value → Var ⊕ Vm.Word
  | const c => .inr (Vm.viewConst c).word
  | left v => .inl v.var

open ParallelCopy (valueAt Pending)

@[simp] theorem valueAt_place (τ : Words) (v : Value) : valueAt τ v.place = v.wordIn τ := by
  cases v <;> rfl

section InitMap

variable {o : VarOrder} {copies : List Copy} {v : Value}

/-- The assignments of the first pass. -/
def entries (copies : List Copy) : List (Value × Value) :=
  copies.flatMap fun c => [(c.src, c.src), (.left c.dest, .left c.dest)]

theorem mem_entries {p : Value × Value} : p ∈ entries copies ↔
    p.1 = p.2 ∧ ∃ c ∈ copies, p.1 = c.src ∨ p.1 = .left c.dest := by
  obtain ⟨k, v⟩ := p
  simp only [entries, List.mem_flatMap, List.mem_cons, Prod.mk.injEq, List.not_mem_nil, or_false]
  constructor
  · rintro ⟨c, hc, ⟨rfl, rfl⟩ | ⟨rfl, rfl⟩⟩
    · exact ⟨rfl, c, hc, .inl rfl⟩
    · exact ⟨rfl, c, hc, .inr rfl⟩
  · rintro ⟨rfl, c, hc, rfl | rfl⟩
    · exact ⟨c, hc, .inl ⟨rfl, rfl⟩⟩
    · exact ⟨c, hc, .inr ⟨rfl, rfl⟩⟩

theorem initMap_assigned : (initMap o copies).Assigned (Value.lt o) (entries copies) := by
  have hfold := StdMap.Assigned.foldl Value.lt_irrefl Value.lt_trans (entries copies)
    (StdMap.Assigned.nil : StdMap.Assigned (Value.lt o) [] ⟨[], fun _ => Value.void⟩)
  rw [List.nil_append] at hfold
  rw [entries, List.foldl_flatMap] at hfold
  exact hfold

theorem initUsed_assigned :
    (initUsed o copies).Assigned (Value.lt o) (copies.map fun c => (c.src, true)) := by
  have hfold := StdMap.Assigned.foldl Value.lt_irrefl Value.lt_trans (copies.map fun c => (c.src, true))
    (StdMap.Assigned.nil : StdMap.Assigned (Value.lt o) [] ⟨[], fun _ => false⟩)
  rw [List.nil_append, List.foldl_map] at hfold
  exact hfold

/-- A variable counts as used when it is a source. -/
theorem used_iff {d : LeftValue} : (initUsed o copies).get (Value.lt o) (.left d) false = true ↔
    ∃ c ∈ copies, c.src.var? = some d.var := by
  have hm : (initUsed o copies).Assigned (Value.lt o) _ := initUsed_assigned
  constructor
  · intro h
    cases hs : StdMap.slot (Value.lt o) (initUsed o copies).keys (.left d) with
    | none => simp [StdMap.get, hs] at h
    | some k =>
      obtain ⟨hk, hkd, hdk⟩ := StdMap.slot_eq_some hs
      obtain ⟨p, hp, rfl⟩ := hm.keys k hk
      obtain ⟨c, hc, rfl⟩ := List.mem_map.1 hp
      obtain ⟨w, hw, hvar⟩ := Value.eq_left_of_not_lt hkd hdk
      refine ⟨c, hc, ?_⟩
      rw [show c.src = .left w from hw, Value.var?, hvar]
  · rintro ⟨c, hc, hvar⟩
    obtain ⟨w, hw, hwd⟩ : ∃ w, c.src = .left w ∧ w.var = d.var := by
      cases hsrc : c.src with
      | const x => simp [hsrc, Value.var?] at hvar
      | left w => exact ⟨w, rfl, by simpa [hsrc, Value.var?] using hvar⟩
    have hfound := hm.found (c.src, true) (List.mem_map_of_mem hc)
    have hlt : ∀ k, Value.lt o k (.left d) = Value.lt o k c.src ∧
        Value.lt o (.left d) k = Value.lt o c.src k := by
      intro k
      cases k <;> simp [hw, Value.lt, hwd]
    obtain ⟨k, hk⟩ := Option.isSome_iff_exists.1 hfound
    obtain ⟨hmem, hkc, hck⟩ := StdMap.slot_eq_some hk
    obtain ⟨k', hk'⟩ := Option.isSome_iff_exists.1 (StdMap.slot_isSome Value.lt_trans hm.sorted hmem
      ((hlt k).1.trans hkc) ((hlt k).2.trans hck))
    rw [StdMap.get_of_slot hk']
    obtain ⟨p, hp, hval, -⟩ := hm.vals k' (StdMap.slot_eq_some hk').1
    obtain ⟨c', -, rfl⟩ := List.mem_map.1 hp
    exact hval

/-- The key of the map that a value is taken for. -/
def keyOf (o : VarOrder) (copies : List Copy) (v : Value) : Value :=
  (StdMap.slot (Value.lt o) (initMap o copies).keys v).getD v

/-- A value that the first pass has seen. -/
def Seen (copies : List Copy) (v : Value) : Prop := ∃ c ∈ copies, v = c.src ∨ v = .left c.dest

theorem slot_keyOf (h : Seen copies v) :
    StdMap.slot (Value.lt o) (initMap o copies).keys v = some (keyOf o copies v) := by
  have hfound := initMap_assigned (o := o).found (v, v) (mem_entries.2 ⟨rfl, h⟩)
  obtain ⟨k, hk⟩ := Option.isSome_iff_exists.1 hfound
  rw [keyOf, hk]
  rfl

/-- What is stored for a key is a value that is not told apart from it. -/
theorem vals_initMap {k : Value} (h : k ∈ (initMap o copies).keys) :
    ∃ v, (initMap o copies).vals k = v ∧ Seen copies v ∧
      Value.lt o k v = false ∧ Value.lt o v k = false := by
  obtain ⟨p, hp, hval, hkp, hpk⟩ := initMap_assigned.vals k h
  obtain ⟨heq, hseen⟩ := mem_entries.1 hp
  rw [heq] at hkp hpk hseen
  exact ⟨p.2, hval, hseen, hkp, hpk⟩

theorem seen_of_mem_keys {k : Value} (h : k ∈ (initMap o copies).keys) : Seen copies k := by
  obtain ⟨p, hp, rfl⟩ := initMap_assigned.keys k h
  exact (mem_entries.1 hp).2

theorem keyOf_mem (h : Seen copies v) : keyOf o copies v ∈ (initMap o copies).keys :=
  (StdMap.slot_eq_some (slot_keyOf h)).1

theorem keyOf_self {k : Value} (h : k ∈ (initMap o copies).keys) : keyOf o copies k = k := by
  rw [keyOf, StdMap.slot_self Value.lt_irrefl initMap_assigned.sorted h]
  rfl

/-- Where the word of a key is at first. -/
def origin (o : VarOrder) (copies : List Copy) (k : Value) : Var ⊕ Vm.Word :=
  ((initMap o copies).vals k).place

/-- A variable lies in itself, and a constant in no variable. -/
theorem origin_keyOf (h : Seen copies v) {x : Var} :
    origin o copies (keyOf o copies v) = .inl x ↔ v.var? = some x := by
  obtain ⟨hmem, hkv, hvk⟩ := StdMap.slot_eq_some (slot_keyOf (o := o) h)
  obtain ⟨u, hu, -, hku, huk⟩ := vals_initMap hmem
  rw [origin, hu]
  cases v with
  | left w =>
    obtain ⟨w', hw', hvar⟩ := Value.eq_left_of_not_lt hkv hvk
    rw [hw'] at hku huk
    obtain ⟨w'', rfl, hvar'⟩ := Value.eq_left_of_not_lt huk hku
    simp [Value.place, Value.var?, hvar', hvar]
  | const c =>
    obtain ⟨d, hd, -⟩ := Value.eq_const_of_not_lt hkv hvk
    rw [hd] at hku huk
    obtain ⟨d', rfl, -⟩ := Value.eq_const_of_not_lt huk hku
    simp [Value.place, Value.var?]

/-- Different keys lie in different variables. -/
theorem origin_injective {s t : Value} {x : Var} (hs : s ∈ (initMap o copies).keys)
    (ht : t ∈ (initMap o copies).keys) (hsx : origin o copies s = .inl x)
    (htx : origin o copies t = .inl x) : s = t := by
  rw [← keyOf_self hs, origin_keyOf (seen_of_mem_keys hs)] at hsx
  rw [← keyOf_self ht, origin_keyOf (seen_of_mem_keys ht)] at htx
  cases s with
  | const c => cases hsx
  | left v =>
    cases t with
    | const c => cases htx
    | left w =>
      have hvar : v.var = w.var := Option.some.inj (hsx.trans htx.symm)
      refine initMap_assigned.sorted.eq_of_not_lt hs ht ?_ ?_
      · simp [Value.lt, hvar, o.irrefl]
      · simp [Value.lt, hvar, o.irrefl]

end InitMap

/-! ## The loop -/

namespace Schedule

section Loop

variable {o : VarOrder} {f : Func} {b : BlockId} {copies : List Copy} {s : Schedule}
  {done : List Copy} {temps : List Var}

/-- A copy, from the key of its source to its variable. -/
def arrow (o : VarOrder) (copies : List Copy) (c : Copy) : Value × Var :=
  (keyOf o copies c.src, c.dest.var)

/-- What holds between two moves, when the copies of `done` have been made and the
temporaries `temps` have been used. -/
structure Inv (o : VarOrder) (f : Func) (copies : List Copy) (s : Schedule) (done : List Copy)
    (temps : List Var) : Prop where
  keys : s.map.keys = (initMap o copies).keys
  perm : (done ++ s.worklist ++ s.copySet).Perm copies
  func : ∃ new, s.func = { f with temps := f.temps ++ new }
  movs : ∀ u ∈ s.moves, u.op = .mov
  new : ∀ t ∈ temps, ∃ i, t = .temp i ∧ f.temps.length ≤ i ∧ i < s.func.temps.length
  results : (s.moves.map fun u => u.result.map LeftValue.var).Perm
    ((done.map (fun c : Copy => c.dest.var) ++ temps).map some)
  pending : ∀ σ, Pending (fun k => ∃ c ∈ copies, k = keyOf o copies c.src) (origin o copies) σ
    (s.worklist.map (arrow o copies)) (s.copySet.map (arrow o copies)) (done.map (arrow o copies))
    temps (fun k => (s.map.vals k).place) (runMoves σ s.moves)

theorem seen_src {c : Copy} (hc : c ∈ copies) : Seen copies c.src := ⟨c, hc, .inl rfl⟩

theorem seen_dest {c : Copy} (hc : c ∈ copies) : Seen copies (.left c.dest) := ⟨c, hc, .inr rfl⟩

theorem key_mem {k : Value} (h : ∃ c ∈ copies, k = keyOf o copies c.src) :
    k ∈ (initMap o copies).keys := by
  obtain ⟨c, hc, rfl⟩ := h
  exact keyOf_mem (seen_src hc)

/-- An assignment to a value that has been seen changes what is stored for its key. -/
theorem Inv.assign (h : s.Inv o f copies done temps) {v w : Value} (hv : Seen copies v) :
    s.map.assign (Value.lt o) v w =
      ⟨s.map.keys, Function.update s.map.vals (keyOf o copies v) w⟩ := by
  apply StdMap.assign_of_slot
  rw [h.keys]
  exact slot_keyOf hv

theorem place_update {vals : Value → Value} {k : Value} {w : LeftValue} :
    (fun k' => (Function.update vals k (.left w) k').place) =
      Function.update (fun k' => (vals k').place) k (.inl w.var) := by
  funext k'
  by_cases hk : k' = k
  · subst hk
    rw [Function.update_self, Function.update_self]
    rfl
  · rw [Function.update_of_ne hk, Function.update_of_ne hk]

/-- The copies that wait for a source, as arrows. -/
theorem freed_arrows {c : Copy} (hc : c ∈ copies) (waiting : List Copy) :
    ParallelCopy.freed (origin o copies) (keyOf o copies c.src) (waiting.map (arrow o copies)) =
      (waiting.filter fun d => c.src.var? = some d.dest.var).map (arrow o copies) := by
  rw [ParallelCopy.freed, List.filter_map]
  congr 1
  refine List.filter_congr fun d _ => ?_
  simp only [Function.comp, arrow, origin_keyOf (seen_src hc)]

theorem kept_arrows {c : Copy} (hc : c ∈ copies) (waiting : List Copy) :
    ParallelCopy.kept (origin o copies) (keyOf o copies c.src) (waiting.map (arrow o copies)) =
      (waiting.filter fun d => !decide (c.src.var? = some d.dest.var)).map (arrow o copies) := by
  rw [ParallelCopy.kept, List.filter_map]
  congr 1
  refine List.filter_congr fun d _ => ?_
  simp only [Function.comp, arrow, origin_keyOf (seen_src hc)]

/-- A copy of the worklist is made. -/
theorem Inv.copy {c : Copy} {rest : List Copy} (h : s.Inv o f copies done temps)
    (hw : s.worklist = c :: rest) : (s.copy o c rest).Inv o f copies (c :: done) temps where
  keys := by
    have hc : c ∈ copies := h.perm.subset (by simp [hw])
    exact (congrArg StdMap.keys (h.assign (seen_src hc) (w := .left c.dest))).trans h.keys
  perm := by
    refine List.Perm.trans ?_ h.perm
    have hsplit := List.filter_append_perm (fun d : Copy => decide (c.src.var? = some d.dest.var)) s.copySet
    rw [← Multiset.coe_eq_coe] at hsplit ⊢
    simp only [Schedule.copy, hw, ← Multiset.coe_add, ← Multiset.cons_coe, Multiset.coe_reverse,
      ← Multiset.singleton_add] at hsplit ⊢
    rw [← hsplit]
    abel
  func := h.func
  movs u hu := by
    rcases List.mem_append.1 hu with hu | hu
    · exact h.movs u hu
    · rw [List.mem_singleton.1 hu]
  new := h.new
  results := by
    simp only [Schedule.copy, List.map_append, List.map_cons, List.map_nil, Option.map_some]
    refine List.perm_append_comm.trans ?_
    exact List.Perm.cons _ (by simpa using h.results)
  pending σ := by
    have hc : c ∈ copies := h.perm.subset (by simp [hw])
    have hp := h.pending σ
    rw [hw, List.map_cons] at hp
    have hnext := hp.copy fun s t x hs ht => origin_injective (key_mem hs) (key_mem ht)
    have hget : s.map.get (Value.lt o) c.src .void = s.map.vals (keyOf o copies c.src) := by
      apply StdMap.get_of_slot
      rw [h.keys]
      exact slot_keyOf (seen_src hc)
    simp only [Schedule.copy, h.assign (seen_src hc), runMoves_append, runMove, hget, place_update,
      List.map_append, List.map_reverse, List.map_cons]
    rw [← freed_arrows hc, ← kept_arrows hc, ← valueAt_place]
    exact hnext

/-- The destination of a copy is saved. -/
theorem Inv.breakCycle {c : Copy} {rest : List Copy} (h : s.Inv o f copies done temps)
    (hf : ∀ c ∈ copies, ∀ i, c.src.var? = some (.temp i) ∨ c.dest.var = .temp i → i < f.temps.length)
    (hw : s.worklist = []) (hs : s.copySet = c :: rest) :
    (s.breakCycle o b c rest).Inv o f copies done (.temp s.func.temps.length :: temps) where
  keys := by
    have hc : c ∈ copies := h.perm.subset (by simp [hs])
    exact (congrArg StdMap.keys (h.assign (seen_dest hc)
      (w := .left (.temp c.dest.type s.func.temps.length)))).trans h.keys
  perm := by
    refine List.Perm.trans ?_ h.perm
    rw [hw, hs]
    simp [Schedule.breakCycle, Func.newTemp]
  func := by
    obtain ⟨new, hnew⟩ := h.func
    refine ⟨new ++ [⟨c.dest.type, b⟩], ?_⟩
    simp [Schedule.breakCycle, Func.newTemp, hnew]
  movs u hu := by
    rcases List.mem_append.1 hu with hu | hu
    · exact h.movs u hu
    · rw [List.mem_singleton.1 hu]
  new t ht := by
    obtain ⟨new, hnew⟩ := h.func
    have hlen : (s.breakCycle o b c rest).func.temps.length = s.func.temps.length + 1 := by
      simp [Schedule.breakCycle, Func.newTemp]
    rcases List.mem_cons.1 ht with rfl | ht
    · refine ⟨_, rfl, ?_, by omega⟩
      simp [hnew]
    · obtain ⟨i, hi, hle, hlt⟩ := h.new t ht
      exact ⟨i, hi, hle, by omega⟩
  results := by
    simp only [Schedule.breakCycle, Func.newTemp, List.map_append, List.map_cons, List.map_nil,
      Option.map_some, LeftValue.temp]
    refine List.perm_append_comm.trans (List.Perm.trans (List.Perm.cons _ h.results) ?_)
    rw [List.map_append]
    exact List.perm_middle.symm
  pending σ := by
    have hc : c ∈ copies := h.perm.subset (by simp [hs])
    have hle : f.temps.length ≤ s.func.temps.length := by
      obtain ⟨new, hnew⟩ := h.func
      simp [hnew]
    have hp := h.pending σ
    rw [hw, hs, List.map_nil, List.map_cons] at hp
    have horigin : origin o copies (keyOf o copies (.left c.dest)) = .inl c.dest.var :=
      (origin_keyOf (seen_dest hc)).2 rfl
    have hnext := hp.save (t := .temp s.func.temps.length) horigin
      (fun s' x hs' => origin_injective (key_mem hs') (keyOf_mem (seen_dest hc))) ?_ ?_
    · simp only [Schedule.breakCycle, Func.newTemp, h.assign (seen_dest hc), runMoves_append, runMove,
        place_update]
      exact hnext
    · -- the new temporary is none of the destinations and none of those used before
      intro hmem
      rcases List.mem_append.1 hmem with hmem | hmem
      · obtain ⟨a, ha, hat⟩ := List.mem_map.1 hmem
        obtain ⟨d, hd, rfl⟩ : ∃ d ∈ copies, arrow o copies d = a := by
          rcases List.mem_append.1 ha with ha | ha
          · obtain ⟨d, hd, hda⟩ := List.mem_map.1 ha
            exact ⟨d, h.perm.subset (by simp [hd]), hda⟩
          · rw [← List.map_cons, ← hs] at ha
            obtain ⟨d, hd, hda⟩ := List.mem_map.1 ha
            exact ⟨d, h.perm.subset (by simp [hd]), hda⟩
        have hlt := hf d hd s.func.temps.length (.inr hat)
        omega
      · obtain ⟨i, hi, -, hlt⟩ := h.new _ hmem
        cases hi
        omega
    · rintro k ⟨d, hd, rfl⟩ heq
      have hlt := hf d hd s.func.temps.length (.inl ((origin_keyOf (seen_src hd)).1 heq))
      omega

/-- The loop starts with the copies whose destinations are no sources. -/
theorem init_inv {inOrder : List Copy} (hperm : inOrder.Perm copies)
    (hdest : (copies.map fun c => c.dest.var).Nodup) :
    (init o f copies inOrder).Inv o f copies [] [] where
  keys := rfl
  perm := by
    refine List.Perm.trans ?_ hperm
    have hsplit := List.filter_append_perm
      (fun c : Copy => (initUsed o copies).get (Value.lt o) (.left c.dest) false) inOrder
    refine List.Perm.trans ?_ hsplit
    exact ((List.reverse_perm _).append_right _).trans List.perm_append_comm
  func := ⟨[], by simp [init]⟩
  movs u hu := by cases hu
  new t ht := by cases ht
  results := by simp [init]
  pending σ := by
    refine Pending.init ?_ ?_ ?_
    · rw [← List.map_append, List.map_map]
      refine List.Nodup.perm hdest (List.Perm.map _ ?_)
      have hsplit := List.filter_append_perm
        (fun c : Copy => (initUsed o copies).get (Value.lt o) (.left c.dest) false) inOrder
      refine hperm.symm.trans (hsplit.symm.trans (List.perm_append_comm.trans ?_))
      exact (List.reverse_perm _).symm.append_right _
    · intro a ha
      rw [← List.map_append] at ha
      obtain ⟨c, hc, rfl⟩ := List.mem_map.1 ha
      refine ⟨c, hperm.subset ?_, rfl⟩
      simp only [init, List.mem_append, List.mem_reverse, List.mem_filter] at hc
      rcases hc with hc | hc
      · exact hc.1
      · exact hc.1
    · rintro a ha k ⟨d, hd, rfl⟩ heq
      obtain ⟨c, hc, rfl⟩ := List.mem_map.1 ha
      obtain ⟨-, hunused⟩ := List.mem_filter.1 (List.mem_reverse.1 hc)
      have hused := used_iff (o := o).2 ⟨d, hd, (origin_keyOf (seen_src hd)).1 heq⟩
      rw [hused] at hunused
      cases hunused

/-- What is still to be done. -/
def size (s : Schedule) : Nat := 2 * s.copySet.length + s.worklist.length

/-- A round keeps the invariant, and less is left to do. -/
theorem Inv.round (h : s.Inv o f copies done temps)
    (hf : ∀ c ∈ copies, ∀ i, c.src.var? = some (.temp i) ∨ c.dest.var = .temp i → i < f.temps.length)
    (hp : s.pending = true) : Yields (s.round o b) fun s' =>
      (∃ done temps, s'.Inv o f copies done temps) ∧ s'.size < s.size := by
  unfold Schedule.round
  cases hw : s.worklist with
  | cons c rest =>
    refine ⟨_, rfl, ⟨_, _, h.copy hw⟩, ?_⟩
    have hsplit := (List.filter_append_perm
      (fun d : Copy => decide (c.src.var? = some d.dest.var)) s.copySet).length_eq
    simp only [size, Schedule.copy, hw, List.length_append, List.length_reverse,
      List.length_cons] at hsplit ⊢
    omega
  | nil =>
    cases hs : s.copySet with
    | nil => simp [Schedule.pending, hw, hs] at hp
    | cons c rest =>
      refine ⟨_, rfl, ⟨_, _, h.breakCycle hf hw hs⟩, ?_⟩
      simp only [size, Schedule.breakCycle, Func.newTemp, hw, hs, List.length_cons, List.length_nil]
      omega

/-- The loop ends, and then every copy has been made. -/
theorem ends {inOrder : List Copy} (hperm : inOrder.Perm copies)
    (hdest : (copies.map fun c => c.dest.var).Nodup)
    (hf : ∀ c ∈ copies, ∀ i, c.src.var? = some (.temp i) ∨ c.dest.var = .temp i → i < f.temps.length) :
    ∃ fuel s done temps,
      whileM Schedule.pending (Schedule.round o b) fuel (init o f copies inOrder) = .ok (some s) ∧
        s.Inv o f copies done temps ∧ done.Perm copies := by
  have hround (s : Schedule) (h : ∃ done temps, s.Inv o f copies done temps)
      (hp : s.pending = true) : Yields (Schedule.round o b s) fun s' =>
        (∃ done temps, s'.Inv o f copies done temps) ∧ size s' < size s := by
    obtain ⟨done, temps, h⟩ := h
    exact h.round hf hp
  obtain ⟨fuel, s, hs, ⟨done, temps, hinv⟩, hend⟩ :=
    whileM_total Nat.lt_wfRel.wf hround ⟨[], [], init_inv hperm hdest⟩
  refine ⟨fuel, s, done, temps, hs, hinv, ?_⟩
  have hempty : s.worklist = [] ∧ s.copySet = [] := by simpa [Schedule.pending] using hend
  have hdone := hinv.perm
  rw [hempty.1, hempty.2, List.append_nil, List.append_nil] at hdone
  exact hdone

end Loop

end Schedule

/-! ## What the copies read -/

section Words

variable {o : VarOrder} {f : Func} {copies : List Copy} {s : Schedule} {done : List Copy}
  {temps : List Var}

/-- The word of a constant is that of its payload. -/
theorem word_congr {c d : ConstexprValue} (h : c.val = d.val) :
    (Vm.viewConst c).word = (Vm.viewConst d).word := by
  simp only [Vm.viewConst, Vm.View.word, h]

/-- Payloads of one alternative with the same word are the same. -/
theorem val_eq_of_word {c d : ConstexprValue} (hi : c.val.index = d.val.index)
    (hb : ∀ buf, c.val ≠ .bytes buf) (h : (Vm.viewConst c).word = (Vm.viewConst d).word) :
    c.val = d.val := by
  have hset : ∀ x y : BitVec 32, x.setWidth 64 = y.setWidth 64 → x = y := by
    intro x y hxy
    have hlow := congrArg (BitVec.setWidth 32) hxy
    simpa using hlow
  obtain ⟨t, p⟩ := c
  obtain ⟨t', q⟩ := d
  dsimp only [Vm.viewConst, Vm.View.word] at hi hb h ⊢
  cases p with
  | monostate => cases q <;> simp_all [Payload.index]
  | int x => cases q with
    | int y => rw [hset x y h]
    | _ => simp [Payload.index] at hi
  | int64 x => cases q <;> simp_all [Payload.index]
  | float x => cases q with
    | float y => rw [hset x y h]
    | _ => simp [Payload.index] at hi
  | bool x => cases q with
    | bool y => cases x <;> cases y <;> first | rfl | simp [boolWord] at h
    | _ => simp [Payload.index] at hi
  | double x => cases q <;> simp_all [Payload.index]
  | bytes buf => exact absurd rfl (hb buf)

/-- What a destination holds in the end: the word of the value stored for its source. -/
theorem Schedule.Inv.dest (h : s.Inv o f copies done temps) (hdone : done.Perm copies) (τ : Words)
    {c : Copy} (hc : c ∈ copies) :
    runMoves τ s.moves c.dest.var = ((initMap o copies).vals (keyOf o copies c.src)).wordIn τ := by
  have hmade := (h.pending τ).made (Schedule.arrow o copies c)
    (List.mem_map_of_mem (hdone.symm.subset hc))
  rw [← valueAt_place]
  exact hmade

theorem copiesAtOnce_iff (h : s.Inv o f copies done temps) (hdone : done.Perm copies) :
    CopiesAtOnce f copies s.moves ↔ ∀ τ, ∀ c ∈ copies,
      ((initMap o copies).vals (keyOf o copies c.src)).wordIn τ = c.src.wordIn τ := by
  have hdests := hdone.map fun c => c.dest.var
  constructor
  · intro hall τ c hc
    rw [← h.dest hdone τ hc]
    exact hall.dest τ c hc
  · intro hall
    constructor
    · intro u hu
      have hr := h.results.subset (List.mem_map_of_mem hu)
      obtain ⟨v, hv, hvu⟩ := List.mem_map.1 hr
      obtain ⟨r, hr, hrv⟩ := Option.map_eq_some_iff.1 hvu.symm
      refine ⟨r, hr, ?_⟩
      rw [hrv]
      rcases List.mem_append.1 hv with hv | hv
      · exact .inl (hdests.subset hv)
      · obtain ⟨i, hi, hle, -⟩ := h.new v hv
        exact .inr ⟨i, hi, hle⟩
    · have hnodup := (h.pending fun _ => 0).dests
      refine (h.results.nodup_iff).2 (List.Nodup.map (Option.some_injective _) ?_)
      simp only [List.map_append, List.map_map, List.append_assoc] at hnodup
      rw [List.nodup_append] at hnodup ⊢
      refine ⟨hnodup.1, ?_, fun a ha b hb => hnodup.2.2 a ha b ?_⟩
      · exact (hnodup.2.1.sublist ((List.sublist_append_right _ _).trans (List.sublist_append_right _ _)))
      · exact List.mem_append_right _ (List.mem_append_right _ hb)
    · intro τ c hc
      rw [h.dest hdone τ hc]
      exact hall τ c hc
    · intro τ v hv hold
      refine (h.pending τ).frame v ?_ ?_
      · rw [List.map_map]
        exact fun hmem => hv (hdests.subset hmem)
      · intro hmem
        obtain ⟨i, hi, hle, -⟩ := h.new v hmem
        have hlt := hold i hi
        omega

/-- A constant among the sources is taken for one that is a source itself. -/
theorem key_const {c : Copy} (hc : c ∈ copies) {x : ConstexprValue} (hx : c.src = .const x) :
    ∃ k, keyOf o copies c.src = .const k ∧ (∃ d ∈ copies, d.src = .const k) ∧
      k.val.lt x.val = false ∧ x.val.lt k.val = false := by
  obtain ⟨hmem, hkv, hvk⟩ := StdMap.slot_eq_some (slot_keyOf (o := o) (Schedule.seen_src hc))
  rw [hx] at hkv hvk
  obtain ⟨k, hk, hkx, hxk⟩ := Value.eq_const_of_not_lt hkv hvk
  refine ⟨k, hx ▸ hk, ?_, hkx, hxk⟩
  obtain ⟨d, hd, hseen | hseen⟩ := seen_of_mem_keys hmem
  · exact ⟨d, hd, by rw [← hseen, hx, hk]⟩
  · rw [hx, hk] at hseen
    cases hseen

/-- Every source is stored for its own key exactly if the order tells the constants apart. -/
theorem words_iff (hscalar : ∀ c ∈ copies, ∀ x, c.src = .const x → ∀ buf, x.val ≠ .bytes buf) :
    (∀ τ, ∀ c ∈ copies, ((initMap o copies).vals (keyOf o copies c.src)).wordIn τ =
      c.src.wordIn τ) ↔ ToldApart copies := by
  constructor
  · intro hall c hc d hd x y hx hy hne
    -- a constant with the key of another one has its word
    have hkey : ∀ c ∈ copies, ∀ x, c.src = .const x →
        ∃ k, keyOf o copies c.src = .const k ∧ k.val = x.val := by
      intro c hc x hx
      obtain ⟨k, hk, ⟨d, hd, hdk⟩, hkx, hxk⟩ := key_const (o := o) hc hx
      have hself : keyOf o copies d.src = .const k := by
        rw [hdk, ← hk]
        exact keyOf_self (keyOf_mem (Schedule.seen_src hc))
      have hword := (hall (fun _ => 0) d hd).symm.trans ((hself.trans hk.symm) ▸ hall (fun _ => 0) c hc)
      rw [hdk, hx] at hword
      refine ⟨k, hk, (val_eq_of_word ?_ (hscalar c hc x hx) hword.symm).symm⟩
      exact Payload.index_eq hxk hkx
    obtain ⟨k, hk, hkx⟩ := hkey c hc x hx
    obtain ⟨l, hl, hly⟩ := hkey d hd y hy
    by_contra hnot
    rw [not_or, Bool.not_eq_true, Bool.not_eq_true] at hnot
    have heq := initMap_assigned.sorted.eq_of_not_lt (keyOf_mem (o := o) (Schedule.seen_src hc))
      (keyOf_mem (Schedule.seen_src hd)) (by rw [hk, hl, Value.lt, hkx, hly]; exact hnot.1)
      (by rw [hk, hl, Value.lt, hkx, hly]; exact hnot.2)
    rw [hk, hl] at heq
    cases heq
    exact hne (hkx.symm.trans hly)
  · intro htold τ c hc
    have hsame : ∀ d ∈ copies, ∀ e ∈ copies, ∀ x y, d.src = .const x → e.src = .const y →
        x.val.lt y.val = false → y.val.lt x.val = false → x.val = y.val := by
      intro d hd e he x y hx hy hxy hyx
      by_contra hne
      rcases htold d hd e he x y hx hy hne with hlt | hlt
      · exact absurd (hlt.symm.trans hxy) (by simp)
      · exact absurd (hlt.symm.trans hyx) (by simp)
    cases hsrc : c.src with
    | left v =>
      have horigin := (origin_keyOf (o := o) (Schedule.seen_src hc) (x := v.var)).2 (by rw [hsrc]; rfl)
      rw [← hsrc, ← valueAt_place]
      unfold origin at horigin
      rw [horigin, hsrc]
      rfl
    | const x =>
      obtain ⟨k, hk, ⟨d, hd, hdk⟩, hkx, hxk⟩ := key_const (o := o) hc hsrc
      obtain ⟨u, hu, ⟨e, he, hue⟩, hku, huk⟩ := vals_initMap (keyOf_mem (o := o) (Schedule.seen_src hc))
      rw [hk] at hku huk
      obtain ⟨y, rfl, hyk, hky⟩ := Value.eq_const_of_not_lt huk hku
      have hey : e.src = .const y := by
        rcases hue with hue | hue
        · exact hue.symm
        · cases hue
      rw [← hsrc, hu, hsrc]
      refine word_congr ?_
      exact (hsame e he d hd y k hey hdk hyk hky).trans (hsame d hd c hc k x hdk hsrc hkx hxk)

end Words

/-! ## Results -/

/-- The moves that are appended for the phis of the successors give every destination what
its source held, if and only if no two constants among the sources are equal to the order
and yet different, as 0.0 and -0.0 are. -/
theorem schedule_copy_iff (o : VarOrder) {inOrder : List Copy → List Copy}
    (hord : ∀ copies, (inOrder copies).Perm copies) {cfg : ControlFlowGraph} {f : Func} {b : BlockId}
    {copies : List Copy} (hcopies : phiCopies cfg f b = .ok copies)
    (hdest : (copies.map fun c => c.dest.var).Nodup)
    (htemps : ∀ c ∈ copies, ∀ i, c.src.var? = some (.temp i) ∨ c.dest.var = .temp i →
      i < f.temps.length)
    (hscalar : ∀ c ∈ copies, ∀ x, c.src = .const x → ∀ buf, x.val ≠ .bytes buf) :
    ∃ fuel new moves, scheduleCopy o inOrder fuel cfg f b =
        .ok (some ({ f with temps := f.temps ++ new }.updateBlock b fun blk =>
          { blk with insts := blk.insts ++ moves.map Inst.unary })) ∧
      (∀ u ∈ moves, u.op = .mov) ∧ (CopiesAtOnce f copies moves ↔ ToldApart copies) := by
  obtain ⟨fuel, s, done, temps, hrun, hinv, hdone⟩ :=
    Schedule.ends (o := o) (b := b) (hord copies) hdest htemps
  obtain ⟨new, hnew⟩ := hinv.func
  refine ⟨fuel, new, s.moves, ?_, hinv.movs, ?_⟩
  · unfold scheduleCopy
    rw [hcopies, ← hnew]
    dsimp only [bind, Except.bind]
    rw [hrun]
    rfl
  · rw [copiesAtOnce_iff hinv hdone]
    exact words_iff hscalar

/-- A loop that swaps two numbers, of which the first is 0.0 at the start. -/
def swapLoop (second : BitVec 32) : Func where
  name := "swap_loop"
  retType := .unit
  params := []
  locals := []
  blocks := [
    ⟨0, "entry", [], some (.jump 1)⟩,
    ⟨1, "body", [
      .phi ⟨some (.temp (.prim .float32) 0),
        [(0, .const (.ofFloat 0)), (1, .left (.temp (.prim .float32) 1))]⟩,
      .phi ⟨some (.temp (.prim .float32) 1),
        [(0, .const (.ofFloat second)), (1, .left (.temp (.prim .float32) 0))]⟩],
      some (.jump 1)⟩]
  temps := [⟨.prim .float32, 1⟩, ⟨.prim .float32, 1⟩]
  tempLabelCount := 0
  nextBlock := 2

def swapLoopGraph (second : BitVec 32) : ControlFlowGraph where
  func := swapLoop second
  succ _ := [1]
  pred b := if b = 1 then [0, 1] else []

/-- The copies of the two blocks. -/
def swapLoopCopies (second : BitVec 32) : BlockId → List Copy
  | 0 => [⟨.const (.ofFloat 0), .temp (.prim .float32) 0⟩,
      ⟨.const (.ofFloat second), .temp (.prim .float32) 1⟩]
  | _ => [⟨.left (.temp (.prim .float32) 1), .temp (.prim .float32) 0⟩,
      ⟨.left (.temp (.prim .float32) 0), .temp (.prim .float32) 1⟩]

/-- Behind the loop body the moves swap the two numbers. -/
theorem schedule_copy_iff_swap : ∃ fuel new moves,
    scheduleCopy .byNumbers id fuel (swapLoopGraph 0x80000000) (swapLoop 0x80000000) 1 =
        .ok (some ({ swapLoop 0x80000000 with
          temps := (swapLoop 0x80000000).temps ++ new }.updateBlock 1 fun blk =>
            { blk with insts := blk.insts ++ moves.map Inst.unary })) ∧
      (∀ u ∈ moves, u.op = .mov) ∧
      (CopiesAtOnce (swapLoop 0x80000000) (swapLoopCopies 0x80000000 1) moves ↔
        ToldApart (swapLoopCopies 0x80000000 1)) := by
  refine schedule_copy_iff .byNumbers (fun l => show (id l).Perm l from .refl l) (by decide)
    (by decide) ?_ ?_
  · intro c hc i hi
    have hid : i = 0 ∨ i = 1 := by
      rcases List.mem_pair.1 hc with rfl | rfl
      · simp_all [Value.var?, LeftValue.temp]
        tauto
      · simp_all [Value.var?, LeftValue.temp]
        tauto
    show i < 2
    omega
  · intro c hc x hx
    rcases List.mem_pair.1 hc with rfl | rfl <;> cases hx

/-- At the start of the loop both numbers become -0.0, when they should be 0.0 and -0.0. -/
theorem schedule_copy_negative_zero :
    (phiCopies (swapLoopGraph 0x80000000) (swapLoop 0x80000000) 0 =
      .ok (swapLoopCopies 0x80000000 0)) ∧
    ∃ fuel moves, scheduleCopy .byNumbers id fuel (swapLoopGraph 0x80000000) (swapLoop 0x80000000) 0 =
        .ok (some ((swapLoop 0x80000000).updateBlock 0 fun blk =>
          { blk with insts := blk.insts ++ moves.map Inst.unary })) ∧
      ¬CopiesAtOnce (swapLoop 0x80000000) (swapLoopCopies 0x80000000 0) moves := by
  refine ⟨by decide, 3, [⟨.mov, some (.temp (.prim .float32) 1), .const (.ofFloat 0x80000000)⟩,
    ⟨.mov, some (.temp (.prim .float32) 0), .left (.temp (.prim .float32) 1)⟩], by decide, ?_⟩
  intro h
  have hzero := h.dest (fun _ => 0) ⟨.const (.ofFloat 0), .temp (.prim .float32) 0⟩ (by decide)
  revert hzero
  decide

/-! ## The moves in the virtual machine -/

namespace Vm

/-- The words in the slots of a scope. -/
def wordsOf (env : Env) (sc : Scope) : Words := fun v => ((sc.get env v).map Slot.word).getD 0

/-- What the machine does for a move between slots of one type is what `runMove` says,
where no other variable is kept in the slot of the result. -/
theorem wordsOf_mov {env : Env} {s : State env} {sc : Scope} {u : UnaryInst} {d : LeftValue}
    {v : View} {w : Word} (hop : u.op = .mov) (hres : u.result = some d)
    (hview : viewOf env sc u.operand = .ok v) (htype : resultType env sc (some d) = .ok v.type)
    (hfit : fitTy v.type v.word = v.word) (hex : execUnary s sc u = .ok w)
    (hlocal : (sc.vars (env.slotOf d.var)).isSome)
    (hslots : ∀ x, env.slotOf x = env.slotOf d.var → x = d.var) :
    wordsOf env (setVar env sc u.result w) = runMove (wordsOf env sc) u := by
  have hw : w = v.word := by
    unfold execUnary at hex
    rw [hview, hres, htype, hop] at hex
    exact assign_self hex hfit
  have hword : v.word = u.operand.wordIn (wordsOf env sc) := by
    cases hoperand : u.operand with
    | const c =>
      rw [hoperand] at hview
      cases hview
      rfl
    | left x =>
      rw [hoperand] at hview
      have hget : ∃ slot, sc.get env x.var = some slot ∧ v.word = slot.word := by
        have hmap : (slotAt env sc x).map (fun s => (⟨s.type, .word s.word⟩ : View)) = .ok v := hview
        unfold slotAt at hmap
        unfold Scope.get
        cases hslot : (sc.vars (env.slotOf x.var)).or (sc.globals (env.slotOf x.var)) with
        | none =>
          rw [hslot] at hmap
          cases hmap
        | some slot =>
          rw [hslot] at hmap
          dsimp only at hmap
          refine ⟨slot, rfl, ?_⟩
          split at hmap
          next =>
            cases hmap
            rfl
          next =>
            cases hmap
            rfl
      obtain ⟨slot, hslot, hv⟩ := hget
      rw [hv, Value.wordIn, wordsOf, hslot]
      rfl
  funext x
  simp only [runMove, hres]
  by_cases hx : x = d.var
  · subst hx
    obtain ⟨slot, hslot⟩ := Option.isSome_iff_exists.1 hlocal
    have hget : sc.get env d.var = some slot := by
      unfold Scope.get
      rw [hslot]
      rfl
    rw [Function.update_self, wordsOf, get_setVar_self hlocal hget, ← hword, hw]
    rfl
  · rw [Function.update_of_ne hx, wordsOf, get_setVar_of_ne]
    · rfl
    · intro d' hd' heq
      cases hd'
      exact hx (hslots x heq.symm)

end Vm

end Ir
end Cact
