import Cact.Lib.Exact
import Cact.Lowering.ColorizeMerge

/-!
# Degrees

The degree of a node goes up with every edge and down with every neighbour that is put on
the stack or merged away, one at a time. What an operation does to the nodes and to their
degrees is read off from its successful runs, so that nothing has to be known about the
lists of moves.

- `active`: the neighbours that the degree of a node still has to account for.
- `Shuffled`: nodes change from one worklist to another.
- `Shape`: lists, aliases and edges agree.
- `Weighed`: the degrees inside a round, with the decrements to come.
-/

namespace Cact

namespace Lowering

/-- The worklists of the main loop. -/
def NodeList.Waiting : NodeList → Prop
  | .simplify | .freeze | .toSpill => True
  | .precolored | .initial | .spilled | .coalesced | .colored | .selectStack => False

namespace BriggsAllocator

variable {V : Type}

/-- The neighbours of a node that are neither on the select stack nor coalesced away. -/
def active (s : BriggsAllocator V) (v : V) : Finset V :=
  (s.graph.node v).interfere.filter fun w =>
    s.nodes.place w ≠ some .selectStack ∧ s.nodes.place w ≠ some .coalesced

/-- The neighbours of a node that get their colours before it, if the nodes in `pre` are
below it on the stack. -/
def later [DecidableEq V] (s : BriggsAllocator V) (pre : List V) (n : V) : Finset V :=
  (s.graph.node n).interfere.filter fun w => s.nodes.place w ≠ some .coalesced ∧ w ∉ pre

/-! ## Nodes between the worklists -/

/-- Nodes change from one worklist to another; moves and degrees may be different. -/
structure Shuffled (s s' : BriggsAllocator V) : Prop where
  graph : SameEdges s.graph s'.graph
  maxColor : s'.graph.maxColor = s.graph.maxColor
  nodes : s'.nodes.Coherent
  place : ∀ v, s'.nodes.place v = s.nodes.place v ∨ ∃ l l', s.nodes.place v = some l ∧
    s'.nodes.place v = some l' ∧ l.Waiting ∧ l'.Waiting
  stack : s'.nodes.values .selectStack = s.nodes.values .selectStack
  colors : s'.colors = s.colors
  spilled : s'.spilled = s.spilled

section Shuffled

variable {s s' s'' : BriggsAllocator V} {v : V} {l : NodeList}

theorem Shuffled.refl (hs : s.nodes.Coherent) : s.Shuffled s :=
  ⟨.refl _, rfl, hs, fun _ => Or.inl rfl, rfl, rfl, rfl⟩

/-- The lists that are not worklists keep their nodes. -/
theorem Shuffled.place_iff (h : s.Shuffled s') (hl : ¬l.Waiting) :
    s'.nodes.place v = some l ↔ s.nodes.place v = some l := by
  rcases h.place v with h | ⟨l₁, l₂, h₁, h₂, hw₁, hw₂⟩
  · rw [h]
  · rw [h₁, h₂]
    refine iff_of_false ?_ ?_
    · rintro ⟨⟩
      exact hl hw₂
    · rintro ⟨⟩
      exact hl hw₁

theorem Shuffled.waiting (h : s.Shuffled s') (hv : s'.nodes.place v = some l) (hl : l.Waiting) :
    ∃ l', s.nodes.place v = some l' ∧ l'.Waiting := by
  rcases h.place v with h | ⟨l₁, l₂, h₁, _, hw₁, _⟩
  · exact ⟨l, h ▸ hv, hl⟩
  · exact ⟨l₁, h₁, hw₁⟩

theorem Shuffled.waiting' (h : s.Shuffled s') (hv : s.nodes.place v = some l) (hl : l.Waiting) :
    ∃ l', s'.nodes.place v = some l' ∧ l'.Waiting := by
  rcases h.place v with h | ⟨l₁, l₂, _, h₂, _, hw₂⟩
  · exact ⟨l, h.trans hv, hl⟩
  · exact ⟨l₂, h₂, hw₂⟩

theorem Shuffled.trans (h : s.Shuffled s') (h' : s'.Shuffled s'') : s.Shuffled s'' := by
  refine ⟨h.graph.trans h'.graph, h'.maxColor.trans h.maxColor, h'.nodes, fun v => ?_,
    h'.stack.trans h.stack, h'.colors.trans h.colors, h'.spilled.trans h.spilled⟩
  rcases h'.place v with h₂ | ⟨l₁, l₂, h₁, h₂, hw₁, hw₂⟩
  · rw [h₂]
    exact h.place v
  · obtain ⟨l, hl, hw⟩ := h.waiting h₁ hw₁
    exact Or.inr ⟨l, l₂, hl, h₂, hw, hw₂⟩

theorem Shuffled.active (h : s.Shuffled s') (v : V) : s'.active v = s.active v := by
  unfold BriggsAllocator.active
  rw [h.graph.interfere]
  refine Finset.filter_congr fun w _ => ?_
  rw [ne_eq, ne_eq, h.place_iff (l := .selectStack) id, h.place_iff (l := .coalesced) id]

theorem Shuffled.later [DecidableEq V] (h : s.Shuffled s') (pre : List V) (n : V) :
    s'.later pre n = s.later pre n := by
  unfold BriggsAllocator.later
  rw [h.graph.interfere]
  refine Finset.filter_congr fun w _ => ?_
  rw [ne_eq, h.place_iff (l := .coalesced) id]

end Shuffled

/-! ## The shape of a state -/

section Shape

variable [LinearOrder V] {g : InterfereGraph V} {s s' : BriggsAllocator V} {v : V}
  {k l : NodeList}

/-- Lists, aliases and edges agree while the main loop on `g` runs, and only precoloured
nodes have colours. -/
structure Shape (g : InterfereGraph V) (s : BriggsAllocator V) : Prop where
  nodes : s.nodes.Coherent
  keys : s.graph.keys = g.keys
  nodup : s.graph.keys.Nodup
  needs : ∀ v ∈ s.graph.keys, s.graph.needRegister v = true
  placed : ∀ v, (s.nodes.place v).isSome ↔ v ∈ s.graph.keys
  forest : s.graph.AliasForest
  edges : s.graph.EdgeInv
  root : ∀ v, s.Live v → s.graph.aliases v = v
  phase : ∀ v l, s.nodes.place v = some l →
    l.Waiting ∨ l = .precolored ∨ l = .coalesced ∨ l = .selectStack
  colors : ∀ v, (s.colors v).isSome ↔ s.nodes.place v = some .precolored
  spilled : s.spilled = []

theorem Shape.live_mem (hs : s.Shape g) (hv : s.Live v) : v ∈ s.graph.keys :=
  (hs.placed v).1 (live_iff.1 hv).1

theorem Shape.aliasOf_live (hs : s.Shape g) (hv : s.Live v) : s.graph.aliasOf v = v :=
  InterfereGraph.aliasOf_root (hs.root v hv)

theorem Shape.get_live (hs : s.Shape g) (hv : s.Live v) : s.graph.get v = .ok (s.graph.node v) := by
  rw [InterfereGraph.get_of_mem hs.forest (hs.live_mem hv), hs.aliasOf_live hv]

theorem Shape.place_eq (hs : s.Shape g) (hv : v ∈ s.graph.keys) :
    ∃ l, s.nodes.place v = some l :=
  Option.isSome_iff_exists.1 ((hs.placed v).2 hv)

/-- Nodes leave the worklists for other lists; the edges stay. -/
theorem Shape.of_place (hs : s.Shape g) (hg : SameEdges s.graph s'.graph)
    (hn : s'.nodes.Coherent) (hc : s'.colors = s.colors) (hsp : s'.spilled = s.spilled)
    (hp : ∀ v, s'.nodes.place v = s.nodes.place v ∨ ∃ l l', s.nodes.place v = some l ∧
      s'.nodes.place v = some l' ∧ l.Waiting ∧
        (l'.Waiting ∨ l' = .coalesced ∨ l' = .selectStack)) : s'.Shape g where
  nodes := hn
  keys := hg.keys.trans hs.keys
  nodup := hg.keys ▸ hs.nodup
  needs := by
    rw [hg.keys, hg.needRegister]
    exact hs.needs
  placed := fun v => by
    rw [hg.keys, ← hs.placed v]
    rcases hp v with h | ⟨l, l', h, h', _⟩
    · rw [h]
    · rw [h, h']
      exact Iff.rfl
  forest := hg.aliasForest hs.forest
  edges := by
    refine ⟨fun u v => ?_, fun u => ?_, fun u v => ?_, fun u v => ?_⟩
    · rw [hg.interfere, hg.interfere]
      exact hs.edges.symm u v
    · rw [hg.interfere]
      exact hs.edges.irrefl u
    · rw [hg.interfere, hg.keys]
      exact hs.edges.mem u v
    · rw [hg.interfere, hg.interfere, hg.aliasOf, hg.aliasOf]
      exact hs.edges.closed u v
  root := fun v ⟨l, hl, hne⟩ => by
    rw [hg.aliases]
    refine hs.root v ?_
    rcases hp v with h | ⟨k, _, h, _, hw, _⟩
    · exact ⟨l, h ▸ hl, hne⟩
    · exact ⟨k, h, fun hk => by subst hk; exact hw⟩
  phase := fun v l hl => by
    rcases hp v with h | ⟨_, l', _, h', _, hw⟩
    · exact hs.phase v l (h ▸ hl)
    · rw [h'] at hl
      cases hl
      exact hw.imp_right Or.inr
  colors := fun v => by
    rw [hc, hs.colors]
    rcases hp v with h | ⟨l, l', h, h', hw, hw'⟩
    · rw [h]
    · rw [h, h']
      refine iff_of_false ?_ ?_
      · rintro ⟨⟩
        exact hw
      · rintro ⟨⟩
        exact hw'.elim id (by simp)
  spilled := hsp.trans hs.spilled

theorem Shape.shuffled (hs : s.Shape g) (h : s.Shuffled s') : s'.Shape g :=
  hs.of_place h.graph h.nodes h.colors h.spilled fun v =>
    (h.place v).imp_right fun ⟨l, l', hl, hl', hw, hw'⟩ => ⟨l, l', hl, hl', hw, Or.inl hw'⟩

end Shape

/-! ## Operations that did not throw -/

section Operations

variable [LinearOrder V] {g : InterfereGraph V} {s s' : BriggsAllocator V} {v w : V}
  {k l : NodeList}

omit [LinearOrder V] in
theorem sameEdges_of_moves (h : s' = { s with moves := s'.moves }) : SameEdges s.graph s'.graph := by
  rw [h]
  exact .refl _

omit [LinearOrder V] in
theorem shuffled_of_moves (hs : s.nodes.Coherent) (h : s' = { s with moves := s'.moves }) :
    s.Shuffled s' := by
  rw [h]
  exact ⟨.refl _, rfl, hs, fun _ => Or.inl rfl, rfl, rfl, rfl⟩

theorem relocateMove_ok {m : V × V} {k : MoveList} (h : s.relocateMove m k = .ok s') :
    s' = { s with moves := s'.moves } := by
  obtain ⟨w, -, h⟩ := Except.bind_eq_ok.1 h
  cases h
  rfl

theorem enableMoves_ok (h : s.enableMoves v = .ok s') : s' = { s with moves := s'.moves } := by
  obtain ⟨ms, -, h⟩ := Except.bind_eq_ok.1 h
  refine foldlM_ok_inv (I := fun t => t = { s with moves := t.moves }) ?_ rfl h
  intro m _ t u ht hu
  obtain ⟨k, -, hu⟩ := Except.bind_eq_ok.1 hu
  by_cases hk : k = .scheduled
  · rw [if_pos hk] at hu
    rw [relocateMove_ok hu, ht]
  · rw [if_neg hk] at hu
    cases hu
    exact ht

theorem relocateNode_ok (h : s.relocateNode v l = .ok s') :
    ∃ w, s.nodes.relocate v l = .ok w ∧ s' = { s with nodes := w } := by
  obtain ⟨w, hw, h⟩ := Except.bind_eq_ok.1 h
  cases h
  exact ⟨w, hw, rfl⟩

/-- What a relocation does, whatever the two lists are. -/
theorem relocateNode_place (hn : s.nodes.Coherent) (hv : s.nodes.place v = some k)
    (h : s.relocateNode v l = .ok s') : s' = { s with nodes := s'.nodes } ∧ s'.nodes.Coherent ∧
      s'.nodes.place = Function.update s.nodes.place v (some l) ∧
      ∀ m ≠ k, s'.nodes.values m =
        if m = l then s.nodes.values m ++ [v] else s.nodes.values m := by
  obtain ⟨w, hw, rfl⟩ := relocateNode_ok h
  obtain ⟨w', hw', hcoh, hplace⟩ := Worklists.relocate_spec (m := l) hn hv
  rw [hw] at hw'
  cases hw'
  exact ⟨rfl, hcoh, hplace, fun m hm => Worklists.values_relocate hv hw hm⟩

/-- From one worklist to another. -/
theorem relocateNode_shuffled (hn : s.nodes.Coherent) (hv : s.nodes.place v = some k)
    (hk : k.Waiting) (hl : l.Waiting) (h : s.relocateNode v l = .ok s') :
    s.Shuffled s' ∧ s'.graph = s.graph ∧
      s'.nodes.place = Function.update s.nodes.place v (some l) := by
  obtain ⟨heq, hcoh, hplace, hvalues⟩ := relocateNode_place hn hv h
  have hgraph : s'.graph = s.graph := by rw [heq]
  refine ⟨⟨hgraph ▸ .refl _, by rw [hgraph], hcoh, fun u => ?_, ?_, by rw [heq], by rw [heq]⟩,
    hgraph, hplace⟩
  · rw [hplace, Function.update_apply]
    by_cases hu : u = v
    · subst hu
      exact Or.inr ⟨k, l, hv, if_pos rfl, hk, hl⟩
    · exact Or.inl (if_neg hu)
  · rw [hvalues _ fun h => by subst h; exact hk, if_neg fun h => by subst h; exact hl]

/-- `adjacent` lists the active neighbours, each of them once. -/
theorem adjacent_ok (hs : s.Shape g) (hv : s.Live v) {as : List V} (h : s.adjacent v = .ok as) :
    as.Nodup ∧ ∀ a, a ∈ as ↔ a ∈ s.active v := by
  obtain ⟨n, hn, h⟩ := Except.bind_eq_ok.1 h
  rw [hs.get_live hv] at hn
  cases hn
  have hfilter := (filterM_ok h).2 (fun a => decide (s.nodes.place a ≠ some .selectStack ∧
    s.nodes.place a ≠ some .coalesced)) fun a _ b hb => by
      obtain ⟨k, hk, hb⟩ := Except.bind_eq_ok.1 hb
      cases hb
      rw [Worklists.place_of_listAt hk]
      cases k <;> simp
  rw [hfilter]
  refine ⟨(hs.nodup.filter _).filter _, fun a => ?_⟩
  rw [List.mem_filter, InterfereGraph.mem_inOrder, active, Finset.mem_filter, decide_eq_true_eq]
  exact ⟨fun h => ⟨h.1.2, h.2⟩, fun h => ⟨⟨hs.edges.mem _ _ h.1, h.1⟩, h.2⟩⟩

theorem decrementDegree_precolored (hv : s.nodes.place v = some .precolored)
    (h : s.decrementDegree v = .ok s') : s' = s := by
  unfold decrementDegree at h
  rw [Worklists.listAt_eq hv] at h
  cases h
  rfl

/-- The node loses one from its degree, and changes its list if the degree was critical. -/
theorem decrementDegree_ok (hs : s.Shape g) (hv : s.nodes.place v = some k) (hk : k.Waiting)
    (h : s.decrementDegree v = .ok s') : s.Shuffled s' ∧
      (∀ w, (s'.graph.node w).degree =
        if w = v then (s.graph.node v).degree - 1 else (s.graph.node w).degree) ∧
      (∀ w ≠ v, s'.nodes.place w = s.nodes.place w) ∧
      ((s.graph.node v).degree ≠ s.graph.maxColor → s'.nodes.place v = s.nodes.place v) := by
  have hlive : s.Live v := ⟨k, hv, fun h => by subst h; exact hk⟩
  have hne : k ≠ .precolored := fun h => by subst h; exact hk
  unfold decrementDegree at h
  rw [Worklists.listAt_eq hv, hs.get_live hlive, hs.aliasOf_live hlive] at h
  obtain ⟨_, hl, h⟩ := Except.bind_eq_ok.1 h
  cases hl
  rw [if_neg hne] at h
  obtain ⟨_, hn, h⟩ := Except.bind_eq_ok.1 h
  cases hn
  obtain ⟨s₁, hs₁⟩ : ∃ t : BriggsAllocator V, t = { s with graph := s.graph.modify v fun n =>
    { n with degree := (s.graph.node v).degree - 1 } } := ⟨_, rfl⟩
  have h : (if (s.graph.node v).degree = s.graph.maxColor then do
      let s ← s₁.enableMoves v
      let s ← (← s.adjacent v).foldlM enableMoves s
      if ← s.moveRelated v then s.relocateNode v .freeze else s.relocateNode v .simplify
    else .ok s₁) = .ok s' := by
    rw [hs₁]
    exact h
  have hdegree : ∀ w, (s₁.graph.node w).degree =
      if w = v then (s.graph.node v).degree - 1 else (s.graph.node w).degree := fun w => by
    subst hs₁
    simp only [InterfereGraph.modify, Function.update_apply]
    by_cases hw : w = v
    · simp [hw]
    · simp [hw]
  have hshuffled : s.Shuffled s₁ := by
    subst hs₁
    refine ⟨⟨rfl, rfl, rfl, fun w => ?_, fun w => ?_⟩, rfl, hs.nodes, fun _ => Or.inl rfl, rfl,
      rfl, rfl⟩
    · simp only [InterfereGraph.modify, Function.update_apply]
      by_cases hw : w = v
      · rw [if_pos hw, hw]
      · rw [if_neg hw]
    · simp only [InterfereGraph.modify, Function.update_apply]
      by_cases hw : w = v
      · rw [if_pos hw, hw]
      · rw [if_neg hw]
  have hnodes : s₁.nodes = s.nodes := by
    subst hs₁
    rfl
  by_cases hd : (s.graph.node v).degree = s.graph.maxColor
  · rw [if_pos hd] at h
    obtain ⟨s₂, h₂, h⟩ := Except.bind_eq_ok.1 h
    obtain ⟨as, -, h⟩ := Except.bind_eq_ok.1 h
    obtain ⟨s₃, h₃, h⟩ := Except.bind_eq_ok.1 h
    obtain ⟨b, -, h⟩ := Except.bind_eq_ok.1 h
    -- nothing but moves is touched in between
    have hmoves : s₃ = { s₁ with moves := s₃.moves } := by
      refine foldlM_ok_inv (I := fun t => t = { s₁ with moves := t.moves }) ?_
        (enableMoves_ok h₂) h₃
      intro a _ t u ht hu
      rw [enableMoves_ok hu, ht]
    have hgraph₃ : s₃.graph = s₁.graph := by rw [hmoves]
    have hnodes₃ : s₃.nodes = s.nodes := by
      rw [hmoves]
      exact hnodes
    have hrel : ∃ l : NodeList, l.Waiting ∧ s₃.relocateNode v l = .ok s' := by
      cases b with
      | true => exact ⟨.freeze, trivial, h⟩
      | false => exact ⟨.simplify, trivial, h⟩
    obtain ⟨l, hl, hrel⟩ := hrel
    obtain ⟨h₄, hgraph, hplace⟩ := relocateNode_shuffled (hnodes₃ ▸ hs.nodes)
      (hnodes₃ ▸ hv) hk hl hrel
    refine ⟨(hshuffled.trans (shuffled_of_moves (hnodes ▸ hs.nodes) hmoves)).trans h₄,
      fun w => ?_, fun w hw => ?_, fun hcrit => ?_⟩
    · rw [hgraph, hgraph₃]
      exact hdegree w
    · rw [hplace, Function.update_of_ne hw, hnodes₃]
    · exact absurd hd hcrit
  · rw [if_neg hd] at h
    cases h
    exact ⟨hshuffled, hdegree, fun w _ => by rw [hnodes], fun _ => by rw [hnodes]⟩

end Operations

/-! ## The degrees inside a round -/

/-- `simplify` or `freeze`: the lists of the nodes that will get a colour for sure. -/
def Low (s : BriggsAllocator V) (v : V) : Prop :=
  s.nodes.place v = some .simplify ∨ s.nodes.place v = some .freeze

/-- The degrees while `D v` decrements of `v` are still to come: they cover the active
neighbours, and those of the low nodes outside `X` are below the number of colours, or
will be after the `E v` last decrements. -/
structure Weighed (X : Set V) (D E : V → Nat) (s : BriggsAllocator V) : Prop where
  counted : ∀ v, (s.graph.node v).degree.toNat ≤ (s.graph.node v).interfere.card
  covers : ∀ v l, s.nodes.place v = some l → l.Waiting →
    (s.active v).card + D v ≤ (s.graph.node v).degree.toNat
  low : ∀ v, s.Low v → v ∉ X →
    (s.graph.node v).degree.toNat < s.graph.maxColor.toNat + E v

/-- Nodes change their worklists, but no node of a high degree becomes low. -/
structure Settled (s s' : BriggsAllocator V) : Prop extends s.Shuffled s' where
  degree : ∀ v, (s'.graph.node v).degree = (s.graph.node v).degree
  low : ∀ v, s'.Low v → s.Low v ∨ (s.graph.node v).degree < s.graph.maxColor

section Weighed

variable {g : InterfereGraph V} {s s' s'' : BriggsAllocator V} {v : V} {k l : NodeList}
  {X : Set V} {D D' E E' : V → Nat}

theorem Settled.refl (hs : s.nodes.Coherent) : s.Settled s :=
  ⟨.refl hs, fun _ => rfl, fun _ h => Or.inl h⟩

theorem Settled.trans (h : s.Settled s') (h' : s'.Settled s'') : s.Settled s'' := by
  refine ⟨h.toShuffled.trans h'.toShuffled, fun v => (h'.degree v).trans (h.degree v),
    fun v hv => ?_⟩
  rcases h'.low v hv with hv | hv
  · exact h.low v hv
  · rw [h.degree, h.maxColor] at hv
    exact Or.inr hv

theorem settled_of_moves (hs : s.nodes.Coherent) (h : s' = { s with moves := s'.moves }) :
    s.Settled s' := by
  refine ⟨shuffled_of_moves hs h, fun v => by rw [h], fun v hv => Or.inl ?_⟩
  rw [h] at hv
  exact hv

theorem low_lt (h : (s.graph.node v).degree < s.graph.maxColor) :
    (s.graph.node v).degree.toNat < s.graph.maxColor.toNat := UInt64.lt_iff_toNat_lt.1 h

theorem Weighed.settled (hw : s.Weighed X D E) (h : s.Settled s') : s'.Weighed X D E where
  counted := fun v => by
    rw [h.degree, h.graph.interfere]
    exact hw.counted v
  covers := fun v l hv hl => by
    obtain ⟨k, hk, hkw⟩ := h.waiting hv hl
    rw [h.degree, h.active]
    exact hw.covers v k hk hkw
  low := fun v hv hX => by
    rw [h.degree, h.maxColor]
    rcases h.low v hv with hv | hv
    · exact hw.low v hv hX
    · have hlt := low_lt hv
      omega

/-- There may be less to come than was said. -/
theorem Weighed.mono (hw : s.Weighed X D E) (hD : ∀ v, D' v ≤ D v)
    (hE : ∀ v, s.Low v → E v ≤ E' v) : s.Weighed X D' E' where
  counted := hw.counted
  covers := fun v l hv hl => by
    have hcov := hw.covers v l hv hl
    have hle := hD v
    omega
  low := fun v hv hX => by
    have hlow := hw.low v hv hX
    have hle := hE v hv
    omega

variable [LinearOrder V]

/-- One of the decrements to come. -/
theorem Weighed.decrement (hs : s.Shape g) (hw : s.Weighed X D E)
    (hv : s.nodes.place v = some k) (hk : k.Waiting) (h : s.decrementDegree v = .ok s')
    (hpos : D' v + 1 ≤ D v) (hD : ∀ w ≠ v, D' w ≤ D w) (hE : ∀ w ≠ v, E w ≤ E' w)
    (hle : E v ≤ 1) : s'.Weighed X D' E' := by
  obtain ⟨hsh, hdegree, hplace, hcrit⟩ := decrementDegree_ok hs hv hk h
  have hcov := hw.covers v k hv hk
  have hsub : ((s.graph.node v).degree - 1).toNat = (s.graph.node v).degree.toNat - 1 := by
    rw [UInt64.toNat_sub_of_le]
    · rfl
    · rw [UInt64.le_iff_toNat_le]
      show 1 ≤ _
      omega
  refine ⟨fun w => ?_, fun w l hl hlw => ?_, fun w hlow hX => ?_⟩
  · rw [hdegree, hsh.graph.interfere]
    have hcount := hw.counted w
    by_cases hwv : w = v
    · subst hwv
      rw [if_pos rfl, hsub]
      omega
    · rw [if_neg hwv]
      exact hcount
  · rw [hdegree, hsh.active]
    by_cases hwv : w = v
    · subst hwv
      rw [if_pos rfl, hsub]
      omega
    · rw [if_neg hwv]
      rw [hplace w hwv] at hl
      have hcov' := hw.covers w l hl hlw
      have hle' := hD w hwv
      omega
  · rw [hdegree, hsh.maxColor]
    by_cases hwv : w = v
    · subst hwv
      rw [if_pos rfl, hsub]
      by_cases hmax : (s.graph.node w).degree = s.graph.maxColor
      · rw [← hmax]
        omega
      -- a degree that was not critical was below it already
      · have hlow' : s.Low w := by
          unfold Low at hlow ⊢
          rw [← hcrit hmax]
          exact hlow
        have hbound := hw.low w hlow' hX
        have hne : (s.graph.node w).degree.toNat ≠ s.graph.maxColor.toNat := fun h' =>
          hmax (UInt64.toNat_inj.1 h')
        omega
    · rw [if_neg hwv]
      have hlow' : s.Low w := by
        unfold Low at hlow ⊢
        rw [← hplace w hwv]
        exact hlow
      have hbound := hw.low w hlow' hX
      have hle' := hE w hwv
      omega

/-- A node that becomes simple under the conditions of `unfreeze` and `freeze_moves`. -/
theorem relocateNode_settled (hn : s.nodes.Coherent) (hv : s.nodes.place v = some k)
    (hk : k.Waiting) (hlt : (s.graph.node v).degree < s.graph.maxColor)
    (h : s.relocateNode v .simplify = .ok s') : s.Settled s' := by
  obtain ⟨hsh, hgraph, hplace⟩ := relocateNode_shuffled (l := .simplify) hn hv hk trivial h
  refine ⟨hsh, fun w => by rw [hgraph], fun w hw => ?_⟩
  by_cases hwv : w = v
  · subst hwv
    exact Or.inr hlt
  · unfold Low at hw
    rw [hplace, Function.update_of_ne hwv] at hw
    exact Or.inl hw

theorem freezeMove_settled {dest : V} {m : V × V} (hs : s.Shape g)
    (h : freezeMove dest s m = .ok s') : s.Settled s' := by
  obtain ⟨s₁, h₁, h⟩ := Except.bind_eq_ok.1 h
  have hmoves := relocateMove_ok h₁
  have hset := settled_of_moves hs.nodes hmoves
  have hs₁ := hs.shuffled hset.toShuffled
  generalize hx : (if s₁.graph.aliasOf m.1 = s₁.graph.aliasOf dest then s₁.graph.aliasOf m.2
    else s₁.graph.aliasOf m.1) = x at h
  have hroot : s₁.graph.aliasOf x = x := by
    subst hx
    split
    · exact hs₁.forest.aliasOf_idem _
    · exact hs₁.forest.aliasOf_idem _
  obtain ⟨b, -, h⟩ := Except.bind_eq_ok.1 h
  cases b with
  | true =>
    cases h
    exact hset
  | false =>
    obtain ⟨n, hn, h⟩ := Except.bind_eq_ok.1 h
    have hnode : n = s₁.graph.node x := by
      rw [InterfereGraph.get, hroot, InterfereGraph.nodeAt] at hn
      by_cases hk : x ∈ s₁.graph.keys
      · rw [if_pos hk] at hn
        cases hn
        rfl
      · rw [if_neg hk] at hn
        cases hn
    subst hnode
    by_cases hmax : s₁.graph.maxColor ≤ (s₁.graph.node x).degree
    · rw [if_pos hmax] at h
      cases h
      exact hset
    · rw [if_neg hmax] at h
      obtain ⟨k, hk, h⟩ := Except.bind_eq_ok.1 h
      by_cases hf : k = .freeze
      · rw [if_pos hf] at h
        subst hf
        exact hset.trans (relocateNode_settled hs₁.nodes (Worklists.place_of_listAt hk) trivial
          (UInt64.not_le.1 hmax) h)
      · rw [if_neg hf] at h
        cases h
        exact hset

theorem freezeMoves_settled (hs : s.Shape g) (h : s.freezeMoves v = .ok s') : s.Settled s' := by
  obtain ⟨ms, -, h⟩ := Except.bind_eq_ok.1 h
  refine foldlM_ok_inv (I := s.Settled) ?_ (.refl hs.nodes) h
  intro m _ t u ht hu
  exact ht.trans (freezeMove_settled (hs.shuffled ht.toShuffled) hu)

/-- `unfreeze` does nothing, or makes a node simple that has no pending move. -/
theorem unfreeze_ok (hs : s.Shape g) (hroot : s.graph.aliasOf v = v) (h : s.unfreeze v = .ok s') :
    s' = s ∨ ∃ k, s.nodes.place v = some k ∧ k ≠ .precolored ∧ s.moveRelated v = .ok false ∧
      (s.graph.node v).degree < s.graph.maxColor ∧ s.relocateNode v .simplify = .ok s' := by
  obtain ⟨k, hk, h⟩ := Except.bind_eq_ok.1 h
  have hplace := Worklists.place_of_listAt hk
  by_cases hp : k = .precolored
  · rw [if_pos hp] at h
    cases h
    exact Or.inl rfl
  rw [if_neg hp] at h
  obtain ⟨b, hb, h⟩ := Except.bind_eq_ok.1 h
  cases b with
  | true =>
    cases h
    exact Or.inl rfl
  | false =>
    have hmem : v ∈ s.graph.keys := (hs.placed v).1 (by rw [hplace]; rfl)
    rw [InterfereGraph.get_of_mem hs.forest hmem, hroot] at h
    obtain ⟨_, hn, h⟩ := Except.bind_eq_ok.1 h
    cases hn
    by_cases hmax : s.graph.maxColor ≤ (s.graph.node v).degree
    · rw [if_pos hmax] at h
      cases h
      exact Or.inl rfl
    · rw [if_neg hmax] at h
      exact Or.inr ⟨k, hplace, hp, hb, UInt64.not_le.1 hmax, h⟩

end Weighed

end BriggsAllocator

end Lowering

end Cact
