import Cact.Lowering.Colorize

/-!
# What the rounds of the allocator keep

Between two merges the edges, the aliases and the move partners are fixed: nodes only
wander between the worklists and moves between theirs. `Keeps` is that frame. A round
that keeps the stack as it is too is `Quiet`.

- `Core`: lists, maps, aliases and edges of the allocator agree.
- `Tracked`: the moves with a place are those of the nodes that are still there.
- `enableMoves_quiet`, `decrementDegree_quiet`, `freezeMoves_quiet`, `unfreeze_keeps`:
  the operations that the rounds are made of.
-/

namespace Cact

namespace Lowering

/-- The lists a node passes through before it gets its colour. -/
def NodeList.Working : NodeList → Prop
  | .initial | .simplify | .freeze | .toSpill | .selectStack => True
  | .precolored | .spilled | .coalesced | .colored => False

/-- A move that may still be coalesced. -/
def MoveList.Pending : MoveList → Prop
  | .ready | .scheduled => True
  | .coalesced | .constrained | .frozen => False

instance : DecidablePred MoveList.Pending := fun l => by
  cases l <;> unfold MoveList.Pending <;> infer_instance

namespace BriggsAllocator

variable {V : Type}

/-- A node that was not merged into another one. -/
def Live (s : BriggsAllocator V) (v : V) : Prop :=
  ∃ l, s.nodes.place v = some l ∧ l ≠ .coalesced

/-- A move with a list that says it is still pending. -/
def Pending (s : BriggsAllocator V) (m : V × V) : Prop :=
  ∃ l, s.moves.place m = some l ∧ l.Pending

/-- The move partners of the nodes in `R` are in `R`, both ways, and the moves that have
a place are those of the nodes in `R`. -/
structure Tracked (R : V → Prop) (s : BriggsAllocator V) : Prop where
  partner : ∀ a b, R a → b ∈ (s.graph.node a).move →
    R b ∧ a ∈ (s.graph.node b).move ∧ a ≠ b
  place : ∀ a b, (s.moves.place (a, b)).isSome ↔ R a ∧ b ∈ (s.graph.node a).move

section Frame

/-- Nodes that change their list go from one worklist to another. -/
def Wander (w w' : Worklists NodeList V) : Prop :=
  ∀ v, w'.place v = w.place v ∨
    ∃ l l', w.place v = some l ∧ w'.place v = some l' ∧ l.Working ∧ l'.Working ∧ l' ≠ .initial

/-- Nodes wander between worklists and moves between theirs; nothing else changes, but
for degrees. -/
structure Keeps (s s' : BriggsAllocator V) : Prop where
  nodes : s'.nodes.Coherent
  moves : s'.moves.Coherent
  graph : s.graph.Frame s'.graph
  edges : ∀ v, (s'.graph.node v).interfere = (s.graph.node v).interfere
  place : Wander s.nodes s'.nodes
  tracked : ∀ m, (s'.moves.place m).isSome = (s.moves.place m).isSome
  pending : ∀ m, s'.Pending m → s.Pending m
  colors : s'.colors = s.colors
  spilled : s'.spilled = s.spilled
  priority : s'.priority = s.priority

/-- A change that leaves the select stack alone. -/
structure Quiet (s s' : BriggsAllocator V) : Prop extends s.Keeps s' where
  stack : ∀ v, s'.nodes.place v = some .selectStack ↔ s.nodes.place v = some .selectStack

variable {s s' s'' : BriggsAllocator V} {v : V}

theorem Wander.refl (w : Worklists NodeList V) : Wander w w := fun _ => Or.inl rfl

theorem Wander.trans {w w' w'' : Worklists NodeList V} (h : Wander w w') (h' : Wander w' w'') :
    Wander w w'' := by
  intro v
  rcases h' v with h₂ | ⟨l₁, l₂, hl₁, hl₂, hw₁, hw₂, hi₂⟩
  · rw [h₂]
    exact h v
  · rcases h v with h₁ | ⟨l, l', hl, hl', hw, _, _⟩
    · exact Or.inr ⟨l₁, l₂, h₁ ▸ hl₁, hl₂, hw₁, hw₂, hi₂⟩
    · exact Or.inr ⟨l, l₂, hl, hl₂, hw, hw₂, hi₂⟩

/-- The lists that are not worklists keep their nodes. -/
theorem Wander.place_iff {w w' : Worklists NodeList V} (h : Wander w w') {l : NodeList}
    (hl : ¬l.Working) : w'.place v = some l ↔ w.place v = some l := by
  rcases h v with h | ⟨l₁, l₂, h₁, h₂, hw₁, hw₂, _⟩
  · rw [h]
  · rw [h₁, h₂]
    constructor
    · rintro ⟨⟩
      exact absurd hw₂ hl
    · rintro ⟨⟩
      exact absurd hw₁ hl

theorem Wander.isSome_place {w w' : Worklists NodeList V} (h : Wander w w') :
    (w'.place v).isSome = (w.place v).isSome := by
  rcases h v with h | ⟨l₁, l₂, h₁, h₂, _⟩
  · rw [h]
  · rw [h₁, h₂]
    rfl

theorem Wander.initial {w w' : Worklists NodeList V} (h : Wander w w')
    (hv : w'.place v = some .initial) : w.place v = some .initial := by
  rcases h v with h | ⟨l₁, l₂, h₁, h₂, _, _, hi⟩
  · rw [← h, hv]
  · rw [h₂] at hv
    cases hv
    exact absurd rfl hi

theorem Keeps.trans (h : s.Keeps s') (h' : s'.Keeps s'') : s.Keeps s'' :=
  ⟨h'.nodes, h'.moves, h.graph.trans h'.graph, fun v => (h'.edges v).trans (h.edges v),
    h.place.trans h'.place, fun m => (h'.tracked m).trans (h.tracked m),
    fun m hm => h.pending m (h'.pending m hm), h'.colors.trans h.colors,
    h'.spilled.trans h.spilled, h'.priority.trans h.priority⟩

theorem Quiet.trans (h : s.Quiet s') (h' : s'.Quiet s'') : s.Quiet s'' :=
  ⟨h.toKeeps.trans h'.toKeeps, fun v => (h'.stack v).trans (h.stack v)⟩

theorem live_iff : s.Live v ↔
    (s.nodes.place v).isSome ∧ s.nodes.place v ≠ some .coalesced := by
  unfold Live
  cases s.nodes.place v <;> simp

theorem Wander.live_iff (h : Wander s.nodes s'.nodes) : s'.Live v ↔ s.Live v := by
  rw [BriggsAllocator.live_iff, BriggsAllocator.live_iff, h.isSome_place, ne_eq, ne_eq,
    h.place_iff (l := .coalesced) id]

theorem Keeps.live_iff (h : s.Keeps s') : s'.Live v ↔ s.Live v := h.place.live_iff

theorem Tracked.keeps {R : V → Prop} (hs : s.Tracked R) (h : s.Keeps s') : s'.Tracked R where
  partner := fun a b ha hb => by
    rw [h.graph.move] at hb ⊢
    exact hs.partner a b ha hb
  place := fun a b => by
    rw [h.tracked, h.graph.move]
    exact hs.place a b

theorem Tracked.congr {R R' : V → Prop} (hs : s.Tracked R) (h : ∀ v, R' v ↔ R v) :
    s.Tracked R' := by
  have hR : R' = R := funext fun v => propext (h v)
  rw [hR]
  exact hs

theorem Tracked.keeps_live (hs : s.Tracked s.Live) (h : s.Keeps s') : s'.Tracked s'.Live :=
  (hs.keeps h).congr fun _ => h.live_iff

variable [LinearOrder V]

/-- Lists, maps, aliases and edges agree. -/
structure Core (s : BriggsAllocator V) : Prop where
  nodes : s.nodes.Coherent
  moves : s.moves.Coherent
  nodup : s.graph.keys.Nodup
  needs : ∀ v ∈ s.graph.keys, s.graph.needRegister v = true
  placed : ∀ v, (s.nodes.place v).isSome ↔ v ∈ s.graph.keys
  forest : s.graph.AliasForest
  edges : s.graph.EdgeInv
  pinned : ∀ v ∈ s.graph.keys,
    (s.nodes.place v = some .precolored ↔ (s.graph.node v).color.isSome)
  root : ∀ v, s.Live v → s.graph.aliases v = v
  phase : ∀ v l, s.nodes.place v = some l → l ≠ .spilled ∧ l ≠ .colored

theorem Core.keeps_refl (hs : s.Core) : s.Keeps s :=
  ⟨hs.nodes, hs.moves, .refl _, fun _ => rfl, .refl _, fun _ => rfl, fun _ h => h, rfl, rfl, rfl⟩

theorem Core.quiet_refl (hs : s.Core) : s.Quiet s := ⟨hs.keeps_refl, fun _ => Iff.rfl⟩

theorem Core.keeps (hs : s.Core) (h : s.Keeps s') : s'.Core where
  nodes := h.nodes
  moves := h.moves
  nodup := h.graph.keys ▸ hs.nodup
  needs := by
    rw [h.graph.keys, h.graph.needRegister]
    exact hs.needs
  placed := fun v => by
    rw [h.graph.keys, h.place.isSome_place]
    exact hs.placed v
  forest := h.graph.aliasForest hs.forest
  edges := hs.edges.frame h.graph h.edges
  pinned := fun v hv => by
    rw [h.graph.color, h.place.place_iff (l := .precolored) id]
    exact hs.pinned v (h.graph.keys ▸ hv)
  root := fun v hv => by
    rw [h.graph.aliases]
    exact hs.root v (h.live_iff.1 hv)
  phase := fun v l hl => by
    constructor
    · rintro rfl
      exact (hs.phase v _ ((h.place.place_iff id).1 hl)).1 rfl
    · rintro rfl
      exact (hs.phase v _ ((h.place.place_iff id).1 hl)).2 rfl

theorem Core.live_mem (hs : s.Core) (h : s.Live v) : v ∈ s.graph.keys :=
  (hs.placed v).1 (live_iff.1 h).1

theorem Core.aliasOf_live (hs : s.Core) (h : s.Live v) : s.graph.aliasOf v = v :=
  InterfereGraph.aliasOf_root (hs.root v h)

theorem Core.place_eq (hs : s.Core) (h : v ∈ s.graph.keys) : ∃ l, s.nodes.place v = some l :=
  Option.isSome_iff_exists.1 ((hs.placed v).2 h)

end Frame

/-! ## Relocations -/

section Relocate

variable [LinearOrder V] {s : BriggsAllocator V} {v : V}

theorem relocateMove_quiet (hs : s.Core) {m : V × V} {l : MoveList}
    (hm : s.moves.place m = some l) (l' : MoveList) (hl : l'.Pending → l.Pending) :
    Yields (s.relocateMove m l') fun s' =>
      s.Quiet s' ∧ s'.moves.place m = some l' ∧ s'.nodes = s.nodes ∧
        ∀ m' ≠ m, s'.moves.place m' = s.moves.place m' := by
  obtain ⟨w, hw, hcoh, hplace⟩ := Worklists.relocate_spec (m := l') hs.moves hm
  refine ⟨{ s with moves := w }, by rw [relocateMove, hw]; rfl, ?_, ?_, rfl, ?_⟩
  · refine ⟨⟨hs.nodes, hcoh, .refl _, fun _ => rfl, fun _ => Or.inl rfl, fun m' => ?_,
      fun m' hm' => ?_, rfl, rfl, rfl⟩, fun _ => Iff.rfl⟩
    · show (w.place m').isSome = _
      rw [hplace, Function.update_apply]
      by_cases h : m' = m
      · subst h
        simp [hm]
      · simp [h]
    · obtain ⟨k, hk, hpend⟩ := hm'
      have hk' : w.place m' = some k := hk
      rw [hplace, Function.update_apply] at hk'
      by_cases h : m' = m
      · subst h
        simp only [if_true, Option.some.injEq] at hk'
        subst hk'
        exact ⟨l, hm, hl hpend⟩
      · rw [if_neg h] at hk'
        exact ⟨k, hk', hpend⟩
  · show w.place m = _
    rw [hplace, Function.update_self]
  · intro m' hm'
    show w.place m' = _
    rw [hplace, Function.update_of_ne hm']

theorem relocateNode_spec (hs : s.Core) {l : NodeList} (hv : s.nodes.place v = some l)
    (l' : NodeList) :
    ∃ w, s.relocateNode v l' = .ok { s with nodes := w } ∧ w.Coherent ∧
      w.place = Function.update s.nodes.place v (some l') := by
  obtain ⟨w, hw, hcoh, hplace⟩ := Worklists.relocate_spec (m := l') hs.nodes hv
  refine ⟨w, ?_, hcoh, hplace⟩
  rw [relocateNode, hw]
  rfl

/-- From one worklist to another. -/
theorem relocateNode_keeps (hs : s.Core) {l : NodeList} (hv : s.nodes.place v = some l)
    (l' : NodeList) (hl : l.Working) (hl' : l'.Working) (hi : l' ≠ .initial) :
    Yields (s.relocateNode v l') fun s' => s.Keeps s' ∧ s'.moves = s.moves ∧
      s'.nodes.place = Function.update s.nodes.place v (some l') := by
  obtain ⟨w, hw, hcoh, hplace⟩ := relocateNode_spec hs hv l'
  refine ⟨_, hw, ⟨hcoh, hs.moves, .refl _, fun _ => rfl, fun u => ?_, fun _ => rfl,
    fun _ h => h, rfl, rfl, rfl⟩, rfl, hplace⟩
  show w.place u = _ ∨ ∃ l l', _ ∧ w.place u = _ ∧ _
  rw [hplace, Function.update_apply]
  by_cases h : u = v
  · subst h
    exact Or.inr ⟨l, l', hv, by simp, hl, hl', hi⟩
  · exact Or.inl (if_neg h)

theorem relocateNode_quiet (hs : s.Core) {l : NodeList} (hv : s.nodes.place v = some l)
    (l' : NodeList) (hl : l.Working) (hl' : l'.Working) (hi : l' ≠ .initial) (hne : l ≠ .selectStack)
    (hne' : l' ≠ .selectStack) : Yields (s.relocateNode v l') s.Quiet := by
  refine (relocateNode_keeps hs hv l' hl hl' hi).mono fun s' h => ⟨h.1, fun u => ?_⟩
  rw [h.2.2, Function.update_apply]
  by_cases hu : u = v
  · subst hu
    rw [if_pos rfl, hv]
    simp [hne, hne']
  · rw [if_neg hu]

end Relocate

/-! ## Operations on moves -/

section Moves

variable [LinearOrder V] {s s' : BriggsAllocator V} {R : V → Prop} {dest v : V}

theorem effectiveMoves_spec (hs : s.Core) (ht : s.Tracked R) (hd : R dest)
    (hk : dest ∈ s.graph.keys) (hroot : s.graph.aliases dest = dest) :
    Yields (s.effectiveMoves dest) fun ms =>
      ∀ m ∈ ms, m.1 = dest ∧ m.2 ∈ (s.graph.node dest).move ∧ s.Pending m := by
  have hget := InterfereGraph.get_of_mem hs.forest hk
  rw [InterfereGraph.aliasOf_root hroot] at hget
  have hfilter := Yields.filterM (ε := LookupFault)
    (l := (s.graph.inOrder (s.graph.node dest).move).map fun src => (dest, src))
    (p := fun mov => do
      let loc ← s.moves.listAt mov
      return loc = .scheduled || loc = .ready)
    (q := fun mov => (s.moves.place mov).any fun loc => loc = .scheduled || loc = .ready) ?_
  · refine ⟨_, by unfold effectiveMoves; rw [hget]; exact hfilter, fun m hm => ?_⟩
    rw [List.mem_filter, List.mem_map] at hm
    obtain ⟨⟨b, hb, rfl⟩, hp⟩ := hm
    refine ⟨rfl, (InterfereGraph.mem_inOrder.1 hb).2, ?_⟩
    obtain ⟨l, hl, hl'⟩ := (Option.any_eq_true _ _).1 hp
    refine ⟨l, hl, ?_⟩
    rcases (by simpa using hl' : l = .scheduled ∨ l = .ready) with rfl | rfl <;> trivial
  · intro m hm
    obtain ⟨b, hb, rfl⟩ := List.mem_map.1 hm
    have hb' := (InterfereGraph.mem_inOrder.1 hb).2
    obtain ⟨l, hl⟩ := Option.isSome_iff_exists.1 ((ht.place dest b).2 ⟨hd, hb'⟩)
    rw [Worklists.listAt_eq hl, hl]
    rfl

theorem moveRelated_yields (hs : s.Core) (ht : s.Tracked R) (hd : R dest)
    (hk : dest ∈ s.graph.keys) (hroot : s.graph.aliases dest = dest) :
    Yields (s.moveRelated dest) fun _ => True :=
  (effectiveMoves_spec hs ht hd hk hroot).bind fun _ _ => .pure trivial

theorem enableMoves_quiet (hs : s.Core) (ht : s.Tracked R) (hd : R dest)
    (hk : dest ∈ s.graph.keys) (hroot : s.graph.aliases dest = dest) :
    Yields (s.enableMoves dest) s.Quiet := by
  refine (effectiveMoves_spec hs ht hd hk hroot).bind fun ms hms => ?_
  refine Yields.foldlM_inv (fun m hm s' h => ?_) hs.quiet_refl
  have hs' := hs.keeps h.toKeeps
  obtain ⟨rfl, hmove, _⟩ := hms m hm
  have hplace : (s'.moves.place m).isSome := by
    rw [h.tracked]
    exact (ht.place m.1 m.2).2 ⟨hd, hmove⟩
  obtain ⟨l, hl⟩ := Option.isSome_iff_exists.1 hplace
  rw [Worklists.listAt_eq hl]
  show Yields (if l = .scheduled then _ else _) _
  by_cases hsch : l = .scheduled
  · rw [if_pos hsch]
    have hpend : MoveList.Pending .ready → l.Pending := fun _ => hsch ▸ trivial
    exact (relocateMove_quiet hs' hl .ready hpend).mono fun s'' h' => h.trans h'.1
  · rw [if_neg hsch]
    exact .pure h

end Moves

/-! ## Operations on nodes -/

section Nodes

variable [LinearOrder V] {s s' : BriggsAllocator V} {v : V} {l : NodeList}

theorem adjacent_spec (hs : s.Core) (hk : v ∈ s.graph.keys) :
    Yields (s.adjacent v) fun as => ∀ a ∈ as,
      ∃ l, s.nodes.place a = some l ∧ l ≠ .coalesced ∧ l ≠ .selectStack := by
  have hget := InterfereGraph.get_of_mem hs.forest hk
  have hfilter := Yields.filterM (ε := LookupFault)
    (l := s.graph.inOrder (s.graph.node (s.graph.aliasOf v)).interfere)
    (p := fun adj => do
      let loc ← s.nodes.listAt adj
      return !(loc = .selectStack || loc = .coalesced))
    (q := fun adj => (s.nodes.place adj).any fun loc =>
      !(loc = .selectStack || loc = .coalesced)) ?_
  · refine ⟨_, by unfold adjacent; rw [hget]; exact hfilter, fun a ha => ?_⟩
    rw [List.mem_filter] at ha
    obtain ⟨l, hl, hl'⟩ := (Option.any_eq_true _ _).1 ha.2
    refine ⟨l, hl, ?_, ?_⟩ <;> rintro rfl <;> simp at hl'
  · intro a ha
    obtain ⟨l, hl⟩ := hs.place_eq (InterfereGraph.mem_inOrder.1 ha).1
    rw [Worklists.listAt_eq hl, hl]
    rfl

theorem Core.working (hs : s.Core) (hv : s.nodes.place v = some l) (hp : l ≠ .precolored)
    (hc : l ≠ .coalesced) : l.Working := by
  have hphase := hs.phase v l hv
  cases l with
  | precolored => exact absurd rfl hp
  | coalesced => exact absurd rfl hc
  | spilled => exact absurd rfl hphase.1
  | colored => exact absurd rfl hphase.2
  | _ => trivial

omit [LinearOrder V] in
/-- A worklist other than the stack stays one. -/
theorem Quiet.working (h : s.Quiet s') (hv : s.nodes.place v = some l) (hl : l.Working)
    (hne : l ≠ .selectStack) :
    ∃ l', s'.nodes.place v = some l' ∧ l'.Working ∧ l' ≠ .selectStack := by
  have hstack : s'.nodes.place v ≠ some .selectStack := fun h' => by
    rw [h.stack, hv] at h'
    cases h'
    exact hne rfl
  rcases h.place v with hp | ⟨_, l', _, hl', _, hw, _⟩
  · exact ⟨l, hp.trans hv, hl, hne⟩
  · exact ⟨l', hl', hw, fun h' => hstack (h' ▸ hl')⟩

theorem quiet_modifyDegree (hs : s.Core) (d : UInt64) : s.Quiet { s with
    graph := s.graph.modify v fun n => { n with degree := d } } := by
  have hframe : s.graph.Frame (s.graph.modify v fun n => { n with degree := d }) :=
    InterfereGraph.frame_modify (fun _ => rfl) fun _ => rfl
  refine ⟨⟨hs.nodes, hs.moves, hframe, fun w => ?_, fun _ => Or.inl rfl, fun _ => rfl, fun _ h => h, rfl, rfl, rfl⟩,
    fun _ => Iff.rfl⟩
  simp only [InterfereGraph.modify, Function.update_apply]
  by_cases h : w = v
  · rw [if_pos h, h]
  · rw [if_neg h]

theorem decrementDegree_quiet (hs : s.Core) (ht : s.Tracked s.Live)
    (hv : s.nodes.place v = some l) (hc : l ≠ .coalesced) (hst : l ≠ .selectStack) :
    Yields (s.decrementDegree v) s.Quiet := by
  have hlive : s.Live v := ⟨l, hv, hc⟩
  have hk := hs.live_mem hlive
  unfold decrementDegree
  rw [Worklists.listAt_eq hv, InterfereGraph.get_of_mem hs.forest hk]
  show Yields (if l = .precolored then _ else _) _
  by_cases hp : l = .precolored
  · rw [if_pos hp]
    exact .pure hs.quiet_refl
  rw [if_neg hp]
  have hw := hs.working hv hp hc
  have h₁ := quiet_modifyDegree (v := s.graph.aliasOf v) hs
    ((s.graph.node (s.graph.aliasOf v)).degree - 1)
  show Yields (if _ = s.graph.maxColor then _ else _) _
  split
  · have hs₁ := hs.keeps h₁.toKeeps
    have ht₁ := ht.keeps_live h₁.toKeeps
    refine (enableMoves_quiet hs₁ ht₁ hlive hk (hs.root v hlive)).bind fun s₂ h₂ => ?_
    have h₂ := h₁.trans h₂
    have hs₂ := hs.keeps h₂.toKeeps
    refine (adjacent_spec hs₂ (h₂.graph.keys ▸ hk)).bind fun as has => ?_
    have hfold : Yields (as.foldlM enableMoves s₂) s.Quiet := by
      -- the neighbours are live, and stay so while moves are enabled
      have hlive₂ : ∀ a ∈ as, s.Live a := fun a ha => by
        obtain ⟨l, hl, hcl, _⟩ := has a ha
        exact h₂.live_iff.1 ⟨l, hl, hcl⟩
      refine Yields.foldlM_inv (fun a ha s' h => ?_) h₂
      have hs' := hs.keeps h.toKeeps
      have ha' := h.live_iff.2 (hlive₂ a ha)
      exact (enableMoves_quiet hs' (ht.keeps_live h.toKeeps) ha' (hs'.live_mem ha')
        (hs'.root a ha')).mono fun _ h' => h.trans h'
    refine hfold.bind fun s₃ h₃ => ?_
    have hs₃ := hs.keeps h₃.toKeeps
    have hlive₃ := h₃.live_iff.2 hlive
    obtain ⟨l', hl', hw', hst'⟩ := h₃.working hv hw hst
    refine (moveRelated_yields hs₃ (ht.keeps_live h₃.toKeeps) hlive₃ (hs₃.live_mem hlive₃)
      (hs₃.root v hlive₃)).bind fun b _ => ?_
    cases b with
    | true =>
      exact (relocateNode_quiet hs₃ hl' .freeze hw' trivial (by simp) hst' (by simp)).mono
        fun _ h => h₃.trans h
    | false =>
      exact (relocateNode_quiet hs₃ hl' .simplify hw' trivial (by simp) hst' (by simp)).mono
        fun _ h => h₃.trans h
  · exact .pure h₁

/-- Nothing but worklists around the node: `unfreeze` puts it back to the simple ones. -/
theorem unfreeze_keeps (hs : s.Core) (ht : s.Tracked s.Live) (hlive : s.Live v) :
    Yields (s.unfreeze v) s.Keeps := by
  obtain ⟨l, hv, hc⟩ := id hlive
  have hk := hs.live_mem hlive
  unfold unfreeze
  rw [Worklists.listAt_eq hv, InterfereGraph.get_of_mem hs.forest hk]
  show Yields (if l = .precolored then _ else _) _
  by_cases hp : l = .precolored
  · rw [if_pos hp]
    exact .pure hs.keeps_refl
  rw [if_neg hp]
  refine (moveRelated_yields hs ht hlive hk (hs.root v hlive)).bind fun b _ => ?_
  cases b with
  | true => exact .pure hs.keeps_refl
  | false =>
    show Yields (if s.graph.maxColor ≤ _ then _ else _) _
    split
    · exact .pure hs.keeps_refl
    · exact (relocateNode_keeps hs hv .simplify (hs.working hv hp hc) trivial
        (by simp)).mono fun _ h => h.1

theorem freezeMove_quiet (hs : s.Core) (ht : s.Tracked s.Live) {m : V × V} (hm : s.Live m.1)
    (hmove : m.2 ∈ (s.graph.node m.1).move) :
    Yields (freezeMove m.1 s m) fun s' => s.Quiet s' ∧ ¬s'.Pending m := by
  obtain ⟨lm, hlm⟩ := Option.isSome_iff_exists.1 ((ht.place m.1 m.2).2 ⟨hm, hmove⟩)
  have hpend : MoveList.Pending .frozen → lm.Pending := fun h => h.elim
  refine (relocateMove_quiet hs hlm .frozen hpend).bind fun s₁ ⟨h₁, hfrozen, _, _⟩ => ?_
  have hs₁ := hs.keeps h₁.toKeeps
  have hno : ¬s₁.Pending m := by
    rintro ⟨l, hl, hp⟩
    have hl' := hl.symm.trans hfrozen
    cases hl'
    exact hp
  have hlive : s₁.Live m.2 := h₁.live_iff.2 (ht.partner m.1 m.2 hm hmove).1
  obtain ⟨l, hl, hc⟩ := id hlive
  simp only [↓reduceIte]
  rw [hs₁.aliasOf_live hlive, InterfereGraph.get_of_mem hs₁.forest (hs₁.live_mem hlive)]
  refine (moveRelated_yields hs₁ (ht.keeps_live h₁.toKeeps) hlive (hs₁.live_mem hlive)
    (hs₁.root _ hlive)).bind fun b _ => ?_
  cases b with
  | true => exact .pure ⟨h₁, hno⟩
  | false =>
    show Yields (if s₁.graph.maxColor ≤ _ then _ else _) _
    split
    · exact .pure ⟨h₁, hno⟩
    · rw [Worklists.listAt_eq hl]
      show Yields (if l = .freeze then _ else _) _
      by_cases hf : l = .freeze
      · rw [if_pos hf]
        subst hf
        exact (relocateNode_quiet hs₁ hl .simplify trivial trivial (by simp) (by simp)
          (by simp)).mono fun s₂ h₂ => ⟨h₁.trans h₂, fun hp => hno (h₂.pending m hp)⟩
      · rw [if_neg hf]
        exact .pure ⟨h₁, hno⟩

/-- The moves of a frozen node are not pending any more; without any nothing happens. -/
theorem freezeMoves_quiet (hs : s.Core) (ht : s.Tracked s.Live) (hlive : s.Live v) :
    Yields (s.freezeMoves v) fun s' => s.Quiet s' ∧
      (s' = s ∨ ∃ m, s.Live m.1 ∧ m.2 ∈ (s.graph.node m.1).move ∧ s.Pending m ∧
        ¬s'.Pending m) := by
  refine (effectiveMoves_spec hs ht hlive (hs.live_mem hlive) (hs.root v hlive)).bind
    fun ms hms => ?_
  have hone : ∀ m ∈ ms, ∀ s', s.Quiet s' →
      Yields (freezeMove v s' m) fun s'' => s.Quiet s'' ∧ ¬s''.Pending m := by
    intro m hm s' h
    obtain ⟨rfl, hmove, _⟩ := hms m hm
    exact (freezeMove_quiet (hs.keeps h.toKeeps) (ht.keeps_live h.toKeeps)
      (h.live_iff.2 hlive) (by rw [h.graph.move]; exact hmove)).mono
      fun s'' h' => ⟨h.trans h'.1, h'.2⟩
  cases ms with
  | nil => exact .pure ⟨hs.quiet_refl, Or.inl rfl⟩
  | cons m ms =>
    rw [List.foldlM_cons]
    obtain ⟨rfl, hmove, hp⟩ := hms m (by simp)
    refine (hone m (by simp) s hs.quiet_refl).bind fun s₁ h₁ => ?_
    -- once frozen, a move is not pending again
    have hfold : Yields (ms.foldlM (freezeMove m.1) s₁) fun s' => s.Quiet s' ∧ ¬s'.Pending m := by
      refine Yields.foldlM_inv (fun m' hm' s' h => ?_) h₁
      obtain ⟨hfst, hmove', _⟩ := hms m' (by simp [hm'])
      rw [← hfst] at hmove' hlive ⊢
      exact (freezeMove_quiet (hs.keeps h.1.toKeeps) (ht.keeps_live h.1.toKeeps)
        (h.1.live_iff.2 hlive) (by rw [h.1.graph.move]; exact hmove')).mono
        fun s'' h' => ⟨h.1.trans h'.1, fun hp' => h.2 (h'.1.pending m hp')⟩
    exact hfold.mono fun s' h => ⟨h.1, Or.inr ⟨m, hlive, hmove, hp, h.2⟩⟩

end Nodes

end BriggsAllocator

end Lowering

end Cact
