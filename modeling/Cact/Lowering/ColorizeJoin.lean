import Cact.Lowering.ColorizeRounds

/-!
# Coalescing and the degrees

A merge takes one active neighbour from every neighbour of `src` and gives it `dest`
instead. While the loop over the edges runs, a neighbour may have the new edge before it
has lost the old one, so that its degree is too high by one until its turn comes.

- `Joins`: what the state has to be like for two nodes to be merged.
- `Joining`: the state inside the loop over the edges, with the nodes to come.
- `Balanced.step`: a round that does not disturb keeps the invariant.
-/

namespace Cact

namespace Lowering

namespace BriggsAllocator

variable {V : Type}

/-! ## The moves of a merge -/

/-- Two states that differ in moves and move partners only. -/
structure SameNodes (s s' : BriggsAllocator V) : Prop where
  nodes : s'.nodes = s.nodes
  graph : SameEdges s.graph s'.graph
  maxColor : s'.graph.maxColor = s.graph.maxColor
  degree : ∀ v, (s'.graph.node v).degree = (s.graph.node v).degree
  colors : s'.colors = s.colors
  spilled : s'.spilled = s.spilled

section SameNodes

variable {s s' s'' : BriggsAllocator V} {v : V}

theorem SameNodes.refl (s : BriggsAllocator V) : s.SameNodes s :=
  ⟨rfl, .refl _, rfl, fun _ => rfl, rfl, rfl⟩

theorem SameNodes.trans (h : s.SameNodes s') (h' : s'.SameNodes s'') : s.SameNodes s'' :=
  ⟨h'.nodes.trans h.nodes, h.graph.trans h'.graph, h'.maxColor.trans h.maxColor,
    fun v => (h'.degree v).trans (h.degree v), h'.colors.trans h.colors,
    h'.spilled.trans h.spilled⟩

theorem sameNodes_of_moves (h : s' = { s with moves := s'.moves }) : s.SameNodes s' := by
  rw [h]
  exact ⟨rfl, .refl _, rfl, fun _ => rfl, rfl, rfl⟩

theorem SameNodes.settled (hs : s.nodes.Coherent) (h : s.SameNodes s') : s.Settled s' := by
  refine ⟨⟨h.graph, h.maxColor, h.nodes ▸ hs, fun v => Or.inl (by rw [h.nodes]),
    by rw [h.nodes], h.colors, h.spilled⟩, h.degree, fun v hv => Or.inl ?_⟩
  unfold Low at hv ⊢
  rw [← h.nodes]
  exact hv

variable [LinearOrder V] {dest src m : V}

theorem sameNodes_modifyMove (f : Finset V → Finset V) : s.SameNodes (s.modifyMove v f) := by
  refine ⟨rfl, sameEdges_modifyMove f, rfl, fun w => ?_, rfl, rfl⟩
  simp only [modifyMove, InterfereGraph.modify, Function.update_apply]
  by_cases hw : w = s.graph.aliasOf v
  · rw [if_pos hw, hw]
  · rw [if_neg hw]

theorem replaceMove_ok {old : V × V} {new : Option (V × V)}
    (h : s.replaceMove old new = .ok s') : s' = { s with moves := s'.moves } := by
  obtain ⟨w, -, h⟩ := Except.bind_eq_ok.1 h
  cases h
  rfl

theorem mergeMove_ok (h : mergeMove dest src s m = .ok s') : s.SameNodes s' := by
  obtain ⟨n, -, h⟩ := Except.bind_eq_ok.1 h
  by_cases hsrc : m ∉ n.move
  · rw [if_pos hsrc] at h
    cases h
    exact .refl s
  rw [if_neg hsrc] at h
  obtain ⟨n', -, h⟩ := Except.bind_eq_ok.1 h
  by_cases hdest : m ∈ n'.move
  · rw [if_pos hdest] at h
    cases h
    exact .refl s
  rw [if_neg hdest] at h
  obtain ⟨_, -, h⟩ := Except.bind_eq_ok.1 h
  obtain ⟨s₂, h₂, h⟩ := Except.bind_eq_ok.1 h
  have hmodify : s.SameNodes (if m = dest then s.modifyMove m fun l => l.erase src
      else (s.modifyMove m fun l => l.erase src).modifyMove m fun l => insert dest l) := by
    by_cases hmd : m = dest
    · rw [if_pos hmd]
      exact sameNodes_modifyMove _
    · rw [if_neg hmd]
      exact (sameNodes_modifyMove _).trans (sameNodes_modifyMove _)
  exact (hmodify.trans (sameNodes_of_moves (replaceMove_ok h₂))).trans
    (sameNodes_of_moves (replaceMove_ok h))

/-- Up to the second loop of `merge`, the node is taken from its list and nothing else
happens to nodes. -/
theorem mergeMoves_ok (h : s.mergeMoves dest src = .ok s') :
    ∃ s₁, s.relocateNode src .coalesced = .ok s₁ ∧ s₁.SameNodes s' := by
  obtain ⟨s₁, h₁, h⟩ := Except.bind_eq_ok.1 h
  obtain ⟨s₂, h₂, h⟩ := Except.bind_eq_ok.1 h
  obtain ⟨s₃, h₃, h⟩ := Except.bind_eq_ok.1 h
  obtain ⟨n, -, h⟩ := Except.bind_eq_ok.1 h
  cases h
  have hloop : s₁.SameNodes s₃ :=
    foldlM_ok_inv (I := s₁.SameNodes) (fun m _ t u ht hu => ht.trans (mergeMove_ok hu))
      (sameNodes_of_moves (enableMoves_ok h₂)) h₃
  exact ⟨s₁, h₁, hloop.trans (sameNodes_modifyMove _)⟩

/-- `merge` from its second loop on. -/
theorem merge_ok (h : s.merge dest src = .ok s') : ∃ s₁ s₂ n k s₃,
    s.mergeMoves dest src = .ok s₁ ∧
    s₁.graph.keys.foldlM (mergeEdge dest src) s₁ = .ok s₂ ∧ s₂.graph.get dest = .ok n ∧
    s₂.nodes.listAt dest = .ok k ∧
    (if s₂.graph.maxColor ≤ n.degree ∧ k = .freeze then s₂.relocateNode dest .toSpill
      else .ok s₂) = .ok s₃ ∧
    s' = { s₃ with graph := s₃.graph.setAlias dest src } := by
  obtain ⟨t₁, h₁, h⟩ := Except.bind_eq_ok.1 h
  obtain ⟨t₂, h₂, h⟩ := Except.bind_eq_ok.1 h
  obtain ⟨t₃, h₃, h⟩ := Except.bind_eq_ok.1 h
  obtain ⟨n₃, hn₃, h⟩ := Except.bind_eq_ok.1 h
  obtain ⟨s₂, hs₂, h⟩ := Except.bind_eq_ok.1 h
  obtain ⟨n, hn, h⟩ := Except.bind_eq_ok.1 h
  obtain ⟨k, hk, h⟩ := Except.bind_eq_ok.1 h
  have hfirst : s.mergeMoves dest src = .ok _ := Except.bind_eq_ok.2 ⟨t₁, h₁,
    Except.bind_eq_ok.2 ⟨t₂, h₂, Except.bind_eq_ok.2 ⟨t₃, h₃,
      Except.bind_eq_ok.2 ⟨n₃, hn₃, rfl⟩⟩⟩⟩
  by_cases hc : s₂.graph.maxColor ≤ n.degree ∧ k = .freeze
  · rw [if_pos hc] at h
    obtain ⟨s₃, hs₃, h⟩ := Except.bind_eq_ok.1 h
    cases h
    exact ⟨_, s₂, n, k, s₃, hfirst, hs₂, hn, hk, (if_pos hc).trans hs₃, rfl⟩
  · rw [if_neg hc] at h
    cases h
    exact ⟨_, s₂, n, k, s₂, hfirst, hs₂, hn, hk, if_neg hc, rfl⟩

end SameNodes

/-! ## The edges of a merge -/

section Edges

variable [LinearOrder V] {g : InterfereGraph V} {s s' t t' u : BriggsAllocator V}
  {X : Set V} {D E E' : V → Nat} {dest src n v x y : V} {l : List V}

/-- A new edge: the degrees at both ends grow with the neighbours. -/
theorem Weighed.edge (hw : t.Weighed X D E) (hxy : x ≠ y)
    (hx : y ∉ (t.graph.node x).interfere) (hy : x ∉ (t.graph.node y).interfere)
    (hn : t'.nodes = t.nodes) (hmax : t'.graph.maxColor = t.graph.maxColor)
    (hedge : ∀ v w, w ∈ (t'.graph.node v).interfere ↔
      w ∈ (t.graph.node v).interfere ∨ (v = x ∧ w = y) ∨ (v = y ∧ w = x))
    (hdeg : ∀ v, (t'.graph.node v).degree =
      (t.graph.node v).degree + if v = x ∨ v = y then 1 else 0)
    (hcard : ∀ v, (t'.graph.node v).interfere.card < 2 ^ 64) (hX : x ∈ X)
    (hEy : E y + 1 ≤ E' y) (hE : ∀ v ≠ y, E v ≤ E' v) : t'.Weighed X D E' := by
  -- one end, seen from which the other is new
  have hend : ∀ v w, (v = x ∧ w = y) ∨ (v = y ∧ w = x) →
      (t'.graph.node v).degree.toNat = (t.graph.node v).degree.toNat + 1 ∧
      (t'.graph.node v).interfere.card = (t.graph.node v).interfere.card + 1 ∧
      (t'.active v).card ≤ (t.active v).card + 1 := by
    intro v w hvw
    have hw' : w ∉ (t.graph.node v).interfere := by
      rcases hvw with ⟨rfl, rfl⟩ | ⟨rfl, rfl⟩
      · exact hx
      · exact hy
    have hset : (t'.graph.node v).interfere = insert w (t.graph.node v).interfere := by
      ext z
      rw [hedge, Finset.mem_insert]
      rcases hvw with ⟨rfl, rfl⟩ | ⟨rfl, rfl⟩
      · simp [hxy, or_comm]
      · simp [hxy.symm, or_comm]
    have hcard' := Finset.card_insert_of_notMem hw'
    have hcount := hw.counted v
    have hlt := hcard v
    rw [hset] at hlt
    refine ⟨?_, by rw [hset, hcard'], ?_⟩
    · rw [hdeg, if_pos (hvw.imp And.left And.left), UInt64.toNat_add]
      show ((t.graph.node v).degree.toNat + 1) % 2 ^ 64 = _
      exact Nat.mod_eq_of_lt (by omega)
    · have hsub : t'.active v ⊆ insert w (t.active v) := fun z hz => by
        rw [active, hset, hn, Finset.mem_filter, Finset.mem_insert] at hz
        rw [active, Finset.mem_insert, Finset.mem_filter]
        exact hz.1.imp_right fun h => ⟨h, hz.2⟩
      exact (Finset.card_le_card hsub).trans (Finset.card_insert_le ..)
  have hrest : ∀ v, v ≠ x → v ≠ y → (t'.graph.node v).degree = (t.graph.node v).degree ∧
      (t'.graph.node v).interfere = (t.graph.node v).interfere := by
    intro v hvx hvy
    refine ⟨by simp [hdeg, hvx, hvy], ?_⟩
    ext z
    simp [hedge, hvx, hvy]
  refine ⟨fun v => ?_, fun v k hv hk => ?_, fun v hv hvX => ?_⟩
  · have hcount := hw.counted v
    by_cases hvxy : v = x ∨ v = y
    · obtain ⟨hd, hc, _⟩ := hend v (if v = x then y else x) (by
        rcases hvxy with rfl | rfl
        · simp
        · simp [hxy.symm])
      omega
    · obtain ⟨hd, hc⟩ := hrest v (fun h => hvxy (Or.inl h)) fun h => hvxy (Or.inr h)
      rw [hd, hc]
      exact hcount
  · rw [hn] at hv
    have hcov := hw.covers v k hv hk
    by_cases hvxy : v = x ∨ v = y
    · obtain ⟨hd, _, ha⟩ := hend v (if v = x then y else x) (by
        rcases hvxy with rfl | rfl
        · simp
        · simp [hxy.symm])
      omega
    · obtain ⟨hd, hc⟩ := hrest v (fun h => hvxy (Or.inl h)) fun h => hvxy (Or.inr h)
      have hactive : t'.active v = t.active v := by
        unfold active
        rw [hc, hn]
      rw [hd, hactive]
      exact hcov
  · have hv' : t.Low v := by
      unfold Low at hv ⊢
      rw [← hn]
      exact hv
    have hlow := hw.low v hv' hvX
    rw [hmax]
    have hvx : v ≠ x := fun h => hvX (h ▸ hX)
    by_cases hvy : v = y
    · subst hvy
      obtain ⟨hd, _⟩ := hend v x (Or.inr ⟨rfl, rfl⟩)
      omega
    · have hle := hE v hvy
      rw [(hrest v hvx hvy).1]
      omega

/-- Two nodes that may be merged: neither is on the stack, and they do not interfere. -/
structure Joins (g : InterfereGraph V) (X : Set V) (s : BriggsAllocator V) (dest src : V) :
    Prop where
  balanced : s.Balanced g X
  small : g.keys.length < 2 ^ 64
  dest_live : s.Live dest
  src_waiting : ∃ k, s.nodes.place src = some k ∧ k.Waiting
  dest_stack : s.nodes.place dest ≠ some .selectStack
  dest_simplify : s.nodes.place dest ≠ some .simplify
  ne : dest ≠ src
  apart : dest ∉ (s.graph.node src).interfere

/-- The decrement that a neighbour of `src` has to come. -/
def toCome (s : BriggsAllocator V) (src : V) (l : List V) (v : V) : Nat :=
  if v ∈ l.toFinset ∩ (s.graph.node src).interfere then 1 else 0

/-- The new edge of a neighbour of `src` whose decrement is to come. -/
def ahead (s t : BriggsAllocator V) (dest src : V) (l : List V) (v : V) : Nat :=
  if v ∈ l.toFinset ∩ (s.graph.node src).interfere ∧ dest ∈ (t.graph.node v).interfere then 1
  else 0

theorem toCome_eq (v : V) : s.toCome src l v =
    if v ∈ l ∧ v ∈ (s.graph.node src).interfere then 1 else 0 := by
  simp [toCome]

theorem ahead_eq (v : V) : s.ahead t dest src l v =
    if v ∈ l ∧ v ∈ (s.graph.node src).interfere ∧ dest ∈ (t.graph.node v).interfere then 1
    else 0 := by
  simp [ahead, and_assoc]

/-- The state in the loop over the edges, with the nodes to come; `s` is the state in
front of `merge`. -/
structure Joining (g : InterfereGraph V) (X : Set V) (s : BriggsAllocator V) (dest src : V)
    (l : List V) (t : BriggsAllocator V) : Prop where
  shape : t.Shape g
  nodup : l.Nodup
  aliases : t.graph.aliases = s.graph.aliases
  maxColor : t.graph.maxColor = s.graph.maxColor
  place : ∀ v ≠ src, t.nodes.place v = s.nodes.place v ∨ ∃ k k',
    s.nodes.place v = some k ∧ t.nodes.place v = some k' ∧ k.Waiting ∧ k'.Waiting
  src_place : t.nodes.place src = some .coalesced
  dest_place : t.nodes.place dest = s.nodes.place dest
  stack : t.nodes.values .selectStack = s.nodes.values .selectStack
  kept : (t.graph.node src).interfere = (s.graph.node src).interfere
  grown : ∀ v ≠ dest, ∀ w ∈ (t.graph.node v).interfere,
    w ∈ (s.graph.node v).interfere ∨ (w = dest ∧ v ∈ (s.graph.node src).interfere)
  moved : ∀ v ∈ (s.graph.node src).interfere, v ∉ l →
    t.graph.aliasOf v ∈ (t.graph.node dest).interfere
  weighed : t.Weighed (insert dest X) (s.toCome src l) (s.ahead t dest src l)

theorem Joins.start (hj : s.Joins g X dest src) (h : s.mergeMoves dest src = .ok t) :
    s.Joining g X dest src t.graph.keys t := by
  obtain ⟨s₁, h₁, hsame⟩ := mergeMoves_ok h
  obtain ⟨k, hk, hkw⟩ := hj.src_waiting
  have hs := hj.balanced.shape
  obtain ⟨heq, hcoh, hplace, hvalues⟩ := relocateNode_place hs.nodes hk h₁
  have hgraph : s₁.graph = s.graph := by rw [heq]
  have hcolors : s₁.colors = s.colors := by rw [heq]
  have hspilled : s₁.spilled = s.spilled := by rw [heq]
  have hedges : SameEdges s.graph t.graph := hgraph ▸ hsame.graph
  have hdegree : ∀ v, (t.graph.node v).degree = (s.graph.node v).degree := fun v => by
    rw [hsame.degree, hgraph]
  have hplace' : t.nodes.place = Function.update s.nodes.place src (some .coalesced) := by
    rw [hsame.nodes, hplace]
  have hne : ∀ v ≠ src, t.nodes.place v = s.nodes.place v := fun v hv => by
    rw [hplace', Function.update_of_ne hv]
  have hshape : t.Shape g := hs.of_place hedges (hsame.nodes ▸ hcoh)
    (hsame.colors.trans hcolors) (hsame.spilled.trans hspilled) fun v => by
      by_cases hv : v = src
      · subst hv
        refine Or.inr ⟨k, .coalesced, hk, ?_, hkw, Or.inr (Or.inl rfl)⟩
        rw [hplace', Function.update_self]
      · exact Or.inl (hne v hv)
  have hactive : ∀ v, t.active v = (s.active v).erase src := fun v => by
    ext w
    rw [active, active, hedges.interfere, Finset.mem_erase, Finset.mem_filter, Finset.mem_filter,
      hplace', Function.update_apply]
    by_cases hw : w = src
    · simp [hw]
    · simp [hw]
  refine ⟨hshape, hshape.nodup, hedges.aliases, by rw [hsame.maxColor, hgraph],
    fun v hv => Or.inl (hne v hv), by rw [hplace', Function.update_self], hne dest hj.ne, ?_,
    hedges.interfere src, fun v _ w hw => Or.inl (hedges.interfere v ▸ hw), fun v hv hl => ?_,
    ⟨fun v => ?_, fun v m hv hm => ?_, fun v hv hX => ?_⟩⟩
  · rw [hsame.nodes, hvalues _ fun h => by subst h; exact hkw]
    simp
  · exact absurd (hedges.keys ▸ hs.edges.mem _ _ hv) hl
  · rw [hdegree, hedges.interfere]
    exact hj.balanced.weighed.counted v
  · have hvs : v ≠ src := by
      rintro rfl
      rw [hplace', Function.update_self] at hv
      cases hv
      exact hm
    rw [hne v hvs] at hv
    have hcov := hj.balanced.weighed.covers v m hv hm
    rw [hdegree, hactive]
    simp only [toCome_eq]
    by_cases hadj : v ∈ (s.graph.node src).interfere
    -- the neighbour loses `src`
    · have hmem : src ∈ s.active v := by
        rw [active, Finset.mem_filter, hk]
        refine ⟨hs.edges.symm _ _ hadj, ?_, ?_⟩
        · rintro ⟨⟩
          exact hkw
        · rintro ⟨⟩
          exact hkw
      have hcard := Finset.card_erase_add_one hmem
      have hone : (if v ∈ t.graph.keys ∧ v ∈ (s.graph.node src).interfere then 1 else 0) ≤ 1 := by
        split <;> omega
      omega
    · have hle := Finset.card_erase_le (s := s.active v) (a := src)
      rw [if_neg fun h => hadj h.2]
      omega
  · rw [hdegree, hsame.maxColor, hgraph]
    have hvs : v ≠ src := by
      rintro rfl
      unfold Low at hv
      rw [hplace', Function.update_self] at hv
      simp at hv
    have hlow : s.Low v := by
      unfold Low at hv ⊢
      rw [hne v hvs] at hv
      exact hv
    have hlt := hj.balanced.weighed.low v hlow fun h => hX (Set.mem_insert_of_mem _ h)
    omega

theorem Joining.dest_live (hj : s.Joins g X dest src) (h : s.Joining g X dest src l t) :
    t.Live dest := by
  obtain ⟨k, hk, hne⟩ := hj.dest_live
  exact ⟨k, h.dest_place.trans hk, hne⟩

theorem Joining.src_root (hj : s.Joins g X dest src) (h : s.Joining g X dest src l t) :
    t.graph.aliases src = src := by
  obtain ⟨k, hk, hkw⟩ := hj.src_waiting
  rw [h.aliases]
  exact hj.balanced.shape.root src ⟨k, hk, fun h => by subst h; exact hkw⟩

theorem Joining.src_mem (h : s.Joining g X dest src l t) : src ∈ t.graph.keys :=
  (h.shape.placed src).1 (by rw [h.src_place]; rfl)

theorem Joining.get_src (hj : s.Joins g X dest src) (h : s.Joining g X dest src l t) :
    t.graph.get src = .ok (t.graph.node src) := by
  rw [InterfereGraph.get_of_mem h.shape.forest h.src_mem,
    InterfereGraph.aliasOf_root (h.src_root hj)]

/-- The edge of a neighbour is entered at `dest`. -/
theorem Joining.edge (hj : s.Joins g X dest src) (h : s.Joining g X dest src (n :: l) t)
    (hn : n ∈ (s.graph.node src).interfere) :
    s.Joining g X dest src (n :: l) { t with graph := t.graph.interfere dest n } ∧
      t.graph.aliasOf n ∈ ((t.graph.interfere dest n).node dest).interfere := by
  have hs := h.shape
  have hn' : n ∈ (t.graph.node src).interfere := h.kept ▸ hn
  have hd : dest ∈ t.graph.keys := hs.live_mem (h.dest_live hj)
  have hk : n ∈ t.graph.keys := hs.edges.mem _ _ hn'
  have hdest : t.graph.aliasOf dest = dest := hs.aliasOf_live (h.dest_live hj)
  have hsrc : t.graph.aliasOf src = src := InterfereGraph.aliasOf_root (h.src_root hj)
  -- under its alias the neighbour is next to `src`, so it is neither `src` nor `dest`
  have hcl := hs.edges.closed _ _ hn'
  rw [hsrc] at hcl
  have hne_src : t.graph.aliasOf n ≠ src := fun h' => hs.edges.irrefl src (h' ▸ hcl)
  have hne_dest : dest ≠ t.graph.aliasOf n := fun h' => hj.apart (h.kept ▸ h' ▸ hcl)
  have hframe := InterfereGraph.frame_interfere hs.needs hs.forest hd hk
  have hmax := InterfereGraph.maxColor_interfere hs.needs hs.forest hd hk
  have hmem := fun x y =>
    InterfereGraph.mem_interfere_interfere hs.needs hs.forest hd hk (x := x) (y := y)
  have hdeg := fun y => InterfereGraph.degree_interfere hs.needs hs.forest hd hk
    (by rw [hdest]; exact hne_dest) (y := y)
  rw [hdest] at hmem hdeg
  simp only [ne_eq, hne_dest, not_false_eq_true, true_and] at hmem
  have hedges := hs.edges.interfere hs.needs hs.forest hd hk
  have hshape : Shape g { t with graph := t.graph.interfere dest n } :=
    { nodes := hs.nodes
      keys := hframe.keys.trans hs.keys
      nodup := hframe.keys ▸ hs.nodup
      needs := by
        rw [hframe.keys, hframe.needRegister]
        exact hs.needs
      placed := by
        rw [hframe.keys]
        exact hs.placed
      forest := hframe.aliasForest hs.forest
      edges := hedges
      root := fun w hw => by
        rw [hframe.aliases]
        exact hs.root w hw
      phase := hs.phase
      colors := hs.colors
      spilled := hs.spilled }
  have hcard : ∀ v, ((t.graph.interfere dest n).node v).interfere.card < 2 ^ 64 := fun v => by
    have hsub : ((t.graph.interfere dest n).node v).interfere ⊆ t.graph.keys.toFinset :=
      fun w hw => by
        rw [List.mem_toFinset, ← hframe.keys]
        exact hedges.mem v w hw
    refine ((Finset.card_le_card hsub).trans (List.toFinset_card_le _)).trans_lt ?_
    rw [hs.keys]
    exact hj.small
  refine ⟨⟨hshape, h.nodup, hframe.aliases.trans h.aliases, hmax.trans h.maxColor, h.place,
    h.src_place, h.dest_place, h.stack, ?_, fun v hv w hw => ?_, fun v hv hl => ?_, ?_⟩, ?_⟩
  · rw [← h.kept]
    ext x
    rw [hmem]
    refine or_iff_left ?_
    rintro (⟨hx, _⟩ | ⟨hx, _⟩)
    · exact hj.ne hx.symm
    · exact hne_src hx.symm
  · rcases (hmem w v).1 hw with hw | ⟨rfl, _⟩ | ⟨rfl, rfl⟩
    · exact h.grown v hv w hw
    · exact absurd rfl hv
    · exact Or.inr ⟨rfl, h.kept ▸ hcl⟩
  · show (t.graph.interfere dest n).aliasOf v ∈ _
    rw [hframe.aliasOf, hmem]
    exact Or.inl (h.moved v hv hl)
  · by_cases hnew : t.graph.aliasOf n ∈ (t.graph.node dest).interfere
    -- the edge is there already
    · have hback := hs.edges.symm _ _ hnew
      have hset : ∀ v, ((t.graph.interfere dest n).node v).interfere =
          (t.graph.node v).interfere := fun v => by
        ext w
        rw [hmem]
        refine or_iff_left_of_imp ?_
        rintro (⟨rfl, rfl⟩ | ⟨rfl, rfl⟩)
        · exact hnew
        · exact hback
      have hdeg' : ∀ v, ((t.graph.interfere dest n).node v).degree = (t.graph.node v).degree :=
        fun v => by
          rw [hdeg]
          simp [hnew, hback]
      have hahead : s.ahead { t with graph := t.graph.interfere dest n } dest src (n :: l) =
          s.ahead t dest src (n :: l) := by
        funext v
        simp only [ahead, hset]
      rw [hahead]
      refine ⟨fun v => ?_, fun v m hv hm => ?_, fun v hv hX => ?_⟩
      · show ((t.graph.interfere dest n).node v).degree.toNat ≤ _
        rw [hdeg', hset]
        exact h.weighed.counted v
      · show _ ≤ ((t.graph.interfere dest n).node v).degree.toNat
        have hactive : active { t with graph := t.graph.interfere dest n } v = t.active v := by
          simp only [active, hset]
        rw [hdeg', hactive]
        exact h.weighed.covers v m hv hm
      · show ((t.graph.interfere dest n).node v).degree.toNat <
          (t.graph.interfere dest n).maxColor.toNat + _
        rw [hdeg', hmax]
        exact h.weighed.low v hv hX
    · have hback : dest ∉ (t.graph.node (t.graph.aliasOf n)).interfere := fun h' =>
        hnew (hs.edges.symm _ _ h')
      -- as the edge is new, the turn of the alias is still to come
      have hcome : t.graph.aliasOf n ∈ n :: l := by
        by_contra hout
        have hmoved := h.moved _ (h.kept ▸ hcl) hout
        rw [hs.forest.aliasOf_idem] at hmoved
        exact hnew hmoved
      refine h.weighed.edge hne_dest hnew hback rfl hmax (fun v w => hmem w v) (fun v => ?_) hcard
        (Set.mem_insert dest X) ?_ fun v hv => ?_
      · show ((t.graph.interfere dest n).node v).degree = _
        rw [hdeg]
        simp [hnew, hback]
      · have hin : dest ∈ ((t.graph.interfere dest n).node (t.graph.aliasOf n)).interfere :=
          (hmem _ _).2 (Or.inr (Or.inr ⟨rfl, rfl⟩))
        simp only [ahead_eq]
        rw [if_neg fun h' => hback h'.2.2, if_pos ⟨hcome, h.kept ▸ hcl, hin⟩]
      · simp only [ahead_eq]
        by_cases hcond : v ∈ n :: l ∧ v ∈ (s.graph.node src).interfere ∧
            dest ∈ (t.graph.node v).interfere
        · rw [if_pos hcond, if_pos ⟨hcond.1, hcond.2.1, (hmem dest v).2 (Or.inl hcond.2.2)⟩]
        · rw [if_neg hcond]
          exact Nat.zero_le _
  · rw [hmem]
    exact Or.inr (Or.inl ⟨rfl, rfl⟩)

/-- The turn of a neighbour is over. -/
theorem Joining.next (h : s.Joining g X dest src (n :: l) t) (hsh : t.Shuffled u)
    (hdest : u.nodes.place dest = t.nodes.place dest)
    (hmoved : n ∈ (s.graph.node src).interfere →
      t.graph.aliasOf n ∈ (t.graph.node dest).interfere)
    (hw : u.Weighed (insert dest X) (s.toCome src l) (s.ahead u dest src l)) :
    s.Joining g X dest src l u where
  shape := h.shape.shuffled hsh
  nodup := (List.nodup_cons.1 h.nodup).2
  aliases := hsh.graph.aliases.trans h.aliases
  maxColor := hsh.maxColor.trans h.maxColor
  place := fun v hv => by
    rcases hsh.place v with hp | ⟨k₁, k₂, h₁, h₂, hw₁, hw₂⟩
    · rw [hp]
      exact h.place v hv
    · rcases h.place v hv with hp | ⟨k, _, hk, _, hkw, _⟩
      · exact Or.inr ⟨k₁, k₂, hp ▸ h₁, h₂, hw₁, hw₂⟩
      · exact Or.inr ⟨k, k₂, hk, h₂, hkw, hw₂⟩
  src_place := (hsh.place_iff (l := .coalesced) id).2 h.src_place
  dest_place := hdest.trans h.dest_place
  stack := hsh.stack.trans h.stack
  kept := (hsh.graph.interfere src).trans h.kept
  grown := fun v hv w hw => h.grown v hv w (hsh.graph.interfere v ▸ hw)
  moved := fun v hv hl => by
    rw [hsh.graph.interfere, hsh.graph.aliasOf]
    by_cases hvn : v = n
    · subst hvn
      exact hmoved hv
    · exact h.moved v hv (by simp [hvn, hl])
  weighed := hw

theorem toCome_le (v : V) : s.toCome src l v ≤ s.toCome src (n :: l) v := by
  simp only [toCome_eq]
  by_cases hv : v ∈ l ∧ v ∈ (s.graph.node src).interfere
  · rw [if_pos hv, if_pos ⟨List.mem_cons_of_mem n hv.1, hv.2⟩]
  · rw [if_neg hv]
    exact Nat.zero_le _

theorem ahead_le (hu : ∀ v, (u.graph.node v).interfere = (t.graph.node v).interfere)
    (hv : v ≠ n ∨ v ∉ (s.graph.node src).interfere) :
    s.ahead t dest src (n :: l) v ≤ s.ahead u dest src l v := by
  simp only [ahead_eq]
  rw [hu]
  by_cases hc : v ∈ n :: l ∧ v ∈ (s.graph.node src).interfere ∧ dest ∈ (t.graph.node v).interfere
  · have hvn : v ≠ n := hv.resolve_right fun h => h hc.2.1
    rw [if_pos hc, if_pos ⟨(List.mem_cons.1 hc.1).resolve_left hvn, hc.2⟩]
  · rw [if_neg hc]
    exact Nat.zero_le _

/-- A neighbour whose degree is not decremented is not low. -/
theorem Joining.skip (h : s.Joining g X dest src (n :: l) t)
    (hmoved : n ∈ (s.graph.node src).interfere →
      t.graph.aliasOf n ∈ (t.graph.node dest).interfere)
    (hn : n ∈ (s.graph.node src).interfere → ¬t.Low n) : s.Joining g X dest src l t := by
  refine h.next (.refl h.shape.nodes) rfl hmoved (h.weighed.mono toCome_le fun v hv => ?_)
  refine ahead_le (fun _ => rfl) ?_
  by_cases hvn : v = n
  · subst hvn
    exact Or.inr fun hadj => hn hadj hv
  · exact Or.inl hvn

theorem Joining.decrement (hj : s.Joins g X dest src) (h : s.Joining g X dest src (n :: l) t)
    (hn : n ∈ (s.graph.node src).interfere)
    (hmoved : t.graph.aliasOf n ∈ (t.graph.node dest).interfere) {k : NodeList}
    (hk : t.nodes.place n = some k) (hc : k ≠ .coalesced) (hst : k ≠ .selectStack)
    (hu : t.decrementDegree n = .ok u) : s.Joining g X dest src l u := by
  rcases h.shape.phase n k hk with hw | rfl | rfl | rfl
  · obtain ⟨hsh, _, hplace, _⟩ := decrementDegree_ok h.shape hk hw hu
    have hnd : dest ≠ n := fun h' => hj.apart (h' ▸ hn)
    have hout := (List.nodup_cons.1 h.nodup).1
    refine h.next hsh (hplace dest hnd) (fun _ => hmoved) (h.weighed.decrement h.shape hk hw hu ?_
      (fun w _ => toCome_le w) (fun w hw => ahead_le hsh.graph.interfere (Or.inl hw)) ?_)
    · simp only [toCome_eq]
      rw [if_neg fun h' => hout h'.1, if_pos ⟨List.mem_cons_self, hn⟩]
    · simp only [ahead_eq]
      split <;> omega
  · rw [decrementDegree_precolored hk hu]
    refine h.skip (fun _ => hmoved) fun _ hlow => ?_
    simp [Low, hk] at hlow
  · exact absurd rfl hc
  · exact absurd rfl hst

theorem Joining.round (hj : s.Joins g X dest src) (h : s.Joining g X dest src (n :: l) t)
    (hu : mergeEdge dest src t n = .ok u) : s.Joining g X dest src l u := by
  obtain ⟨_, hget, hu⟩ := Except.bind_eq_ok.1 hu
  rw [h.get_src hj] at hget
  cases hget
  rw [h.kept] at hu
  by_cases hn : n ∈ (s.graph.node src).interfere
  · rw [if_neg (not_not.2 hn)] at hu
    obtain ⟨hedge, hmoved⟩ := h.edge hj hn
    have hmoved' : InterfereGraph.aliasOf (t.graph.interfere dest n) n ∈
        ((t.graph.interfere dest n).node dest).interfere := by
      have hframe := InterfereGraph.frame_interfere h.shape.needs h.shape.forest
        (h.shape.live_mem (h.dest_live hj)) (h.shape.edges.mem _ _ (h.kept ▸ hn))
      rw [hframe.aliasOf]
      exact hmoved
    obtain ⟨k, hk, hu⟩ := Except.bind_eq_ok.1 hu
    have hplace := Worklists.place_of_listAt hk
    by_cases hloc : k ≠ .selectStack ∧ k ≠ .coalesced
    · rw [if_pos hloc] at hu
      exact hedge.decrement hj hn hmoved' hplace hloc.2 hloc.1 hu
    · rw [if_neg hloc] at hu
      cases hu
      refine hedge.skip (fun _ => hmoved') fun _ hlow => hloc ?_
      have hlow' : t.Low n := hlow
      rw [Low, hplace] at hlow'
      rcases hlow' with h' | h'
      · cases h'
        simp
      · cases h'
        simp
  · rw [if_pos hn] at hu
    cases hu
    exact h.skip (fun h' => absurd h' hn) fun h' => absurd h' hn

/-- After the loop, with the full node put aside, every low degree is low again. -/
theorem Joining.weighed_done (hj : s.Joins g X dest src) (h : s.Joining g X dest src [] t)
    {k : NodeList} (hk : t.nodes.place dest = some k)
    (hu : (if t.graph.maxColor ≤ (t.graph.node dest).degree ∧ k = .freeze then
      t.relocateNode dest .toSpill else .ok t) = .ok u) :
    t.Shuffled u ∧ u.graph = t.graph ∧ u.Weighed X (fun _ => 0) fun _ => 0 := by
  have hw : t.Weighed (insert dest X) (fun _ => 0) fun _ => 0 :=
    h.weighed.mono (fun _ => Nat.zero_le _) fun v _ => by simp [ahead]
  by_cases hfull : t.graph.maxColor ≤ (t.graph.node dest).degree ∧ k = .freeze
  · rw [if_pos hfull] at hu
    rw [hfull.2] at hk
    obtain ⟨hsh, hgraph, hplace⟩ :=
      relocateNode_shuffled (k := .freeze) (l := .toSpill) h.shape.nodes hk trivial trivial hu
    refine ⟨hsh, hgraph, fun v => ?_, fun v m hv hm => ?_, fun v hv hX => ?_⟩
    · rw [hgraph]
      exact hw.counted v
    · obtain ⟨m', hm', hmw⟩ := hsh.waiting hv hm
      rw [hgraph, hsh.active]
      exact hw.covers v m' hm' hmw
    · rw [hgraph]
      have hvd : v ≠ dest := by
        rintro rfl
        rw [Low, hplace, Function.update_self] at hv
        simp at hv
      rw [Low, hplace, Function.update_of_ne hvd] at hv
      exact hw.low v hv fun h' => hX (h'.resolve_left hvd)
  · rw [if_neg hfull] at hu
    cases hu
    refine ⟨.refl h.shape.nodes, rfl, hw.counted, hw.covers, fun v hv hX => ?_⟩
    by_cases hvd : v = dest
    · subst hvd
      have hfreeze : k = .freeze := by
        rcases hv with hv | hv
        · exact absurd (h.dest_place.symm.trans hv) hj.dest_simplify
        · rw [hk] at hv
          exact Option.some.inj hv
      exact low_lt (UInt64.not_le.1 fun h' => hfull ⟨h', hfreeze⟩)
    · exact hw.low v hv fun h' => hX (h'.resolve_left hvd)

/-- A merge gives a node of the stack `dest` for `src`, if anything. -/
theorem Joining.later_le (hj : s.Joins g X dest src) (h : s.Joining g X dest src [] t)
    (hi : ∀ v, (u.graph.node v).interfere = (t.graph.node v).interfere)
    (hco : ∀ v, u.nodes.place v = some .coalesced ↔ t.nodes.place v = some .coalesced)
    (pre : List V) (hn : ∀ m ∈ n :: pre, m ∈ s.nodes.values .selectStack) :
    (u.later pre n).card ≤ (s.later pre n).card := by
  have hs := hj.balanced.shape
  obtain ⟨k, hk, hkw⟩ := hj.src_waiting
  have hsrc : src ∉ s.nodes.values .selectStack := fun h' => by
    rw [Worklists.mem_values hs.nodes, hk] at h'
    cases h'
    exact hkw
  have hnd : n ≠ dest := by
    rintro rfl
    exact hj.dest_stack ((Worklists.mem_values hs.nodes).1 (hn n List.mem_cons_self))
  -- the node `src` is merged now, and no other
  have hold : ∀ w, u.nodes.place w ≠ some .coalesced → w ≠ src ∧
      s.nodes.place w ≠ some .coalesced := fun w hw => by
    rw [ne_eq, hco] at hw
    have hws : w ≠ src := fun h' => hw (h' ▸ h.src_place)
    refine ⟨hws, fun h' => hw ?_⟩
    rcases h.place w hws with hp | ⟨m, _, hm, _, hmw, _⟩
    · exact hp.trans h'
    · rw [h'] at hm
      cases hm
      exact absurd hmw id
  by_cases hadj : n ∈ (s.graph.node src).interfere
  · have hmem : src ∈ s.later pre n := by
      rw [later, Finset.mem_filter, hk]
      refine ⟨hs.edges.symm _ _ hadj, fun h' => ?_,
        fun h' => hsrc (hn src (List.mem_cons_of_mem n h'))⟩
      cases h'
      exact hkw
    have hsub : u.later pre n ⊆ insert dest ((s.later pre n).erase src) := fun w hw => by
      rw [later, Finset.mem_filter, hi] at hw
      obtain ⟨hws, hwc⟩ := hold w hw.2.1
      rw [Finset.mem_insert, Finset.mem_erase, later, Finset.mem_filter]
      rcases h.grown n hnd w hw.1 with h' | h'
      · exact Or.inr ⟨hws, h', hwc, hw.2.2⟩
      · exact Or.inl h'.1
    calc (u.later pre n).card ≤ (insert dest ((s.later pre n).erase src)).card :=
          Finset.card_le_card hsub
      _ ≤ ((s.later pre n).erase src).card + 1 := Finset.card_insert_le ..
      _ = (s.later pre n).card := Finset.card_erase_add_one hmem
  · refine Finset.card_le_card fun w hw => ?_
    rw [later, Finset.mem_filter, hi] at hw
    obtain ⟨_, hwc⟩ := hold w hw.2.1
    rw [later, Finset.mem_filter]
    rcases h.grown n hnd w hw.1 with h' | h'
    · exact ⟨h', hwc, hw.2.2⟩
    · exact absurd h'.2 hadj

theorem Joins.merge (hj : s.Joins g X dest src) (h : s.merge dest src = .ok s') :
    s'.Balanced g X ∧ s'.nodes.values .selectStack = s.nodes.values .selectStack ∧
      s'.graph.aliasOf dest = dest := by
  obtain ⟨s₁, s₂, n, k, s₃, h₁, h₂, hn, hk, h₃, rfl⟩ := merge_ok h
  have hjoined : s.Joining g X dest src [] s₂ := by
    refine foldlM_ok (I := s.Joining g X dest src) (fun m l t u ht hu => ht.round hj hu)
      (l := s₁.graph.keys) ?_ h₂
    rw [List.append_nil]
    exact hj.start h₁
  have hlive := hjoined.dest_live hj
  rw [hjoined.shape.get_live hlive] at hn
  cases hn
  obtain ⟨hsh, hgraph, hweighed⟩ :=
    hjoined.weighed_done hj (Worklists.place_of_listAt hk) h₃
  have hshape := hjoined.shape.shuffled hsh
  have hsrc : s₃.graph.aliases src = src := by
    rw [hgraph]
    exact hjoined.src_root hj
  have hdest : s₃.graph.aliases dest = dest := by
    rw [hgraph]
    exact hjoined.shape.root dest hlive
  have hsmem : src ∈ s₃.graph.keys := hgraph ▸ hjoined.src_mem
  have hdmem : dest ∈ s₃.graph.keys := hgraph ▸ hjoined.shape.live_mem hlive
  have hco : s₃.nodes.place src = some .coalesced :=
    (hsh.place_iff (l := .coalesced) id).2 hjoined.src_place
  have halias : ∀ v ≠ src, (s₃.graph.setAlias dest src).aliases v = s₃.graph.aliases v :=
    fun v hv => Function.update_of_ne hv ..
  have hkept : (s₃.graph.node src).interfere = (s.graph.node src).interfere := by
    rw [hgraph]
    exact hjoined.kept
  have hshape' : Shape g { s₃ with graph := s₃.graph.setAlias dest src } :=
    { hshape with
      forest := hshape.forest.setAlias hshape.nodup hsmem hdmem hsrc hdest hj.ne.symm
      edges := hshape.edges.setAlias hshape.forest hshape.nodup hsmem hsrc hdest hj.ne.symm
        fun v hv => by
          rw [hkept] at hv
          rw [hgraph]
          exact hjoined.moved v hv (by simp)
      root := fun v ⟨m, hm, hne⟩ => by
        have hvs : v ≠ src := by
          rintro rfl
          have hm' : s₃.nodes.place v = some m := hm
          rw [hco] at hm'
          cases hm'
          exact hne rfl
        exact (halias v hvs).trans (hshape.root v ⟨m, hm, hne⟩) }
  refine ⟨⟨hshape', fun v hv => ?_, ⟨hweighed.counted, hweighed.covers, hweighed.low⟩,
    hj.balanced.stacked.congr (hsh.stack.trans hjoined.stack) (fun pre m hm => ?_)
      (hsh.maxColor.trans hjoined.maxColor)⟩, hsh.stack.trans hjoined.stack, ?_⟩
  · have hv' : s₃.nodes.place v = some .coalesced := hv
    by_cases hvs : v = src
    · rw [hvs]
      show Function.update s₃.graph.aliases src dest src ≠ src
      rw [Function.update_self]
      exact hj.ne
    · rw [halias v hvs, hgraph, hjoined.aliases]
      refine hj.balanced.gone v ?_
      rw [hsh.place_iff (l := .coalesced) id] at hv'
      rcases hjoined.place v hvs with hp | ⟨_, m, _, hm, _, hmw⟩
      · rw [← hp, hv']
      · rw [hv'] at hm
        cases hm
        exact absurd hmw id
  · refine hjoined.later_le hj (fun v => ?_) (fun v => ?_) pre hm
    · show (s₃.graph.node v).interfere = _
      rw [hgraph]
    · exact hsh.place_iff (l := .coalesced) id
  · exact InterfereGraph.aliasOf_root ((halias dest hj.ne).trans hdest)

end Edges

/-! ## `coalesce` -/

section Coalesce

variable [LinearOrder V] {g : InterfereGraph V} {s s' t : BriggsAllocator V} {X : Set V}
  {v x y : V} {mov : V × V} {c : MoveList}

theorem ends_ok (hs : s.Shape g) (h : s.ends mov = .ok (x, y)) :
    s.graph.aliasOf x = x ∧ s.graph.aliasOf y = y := by
  have h₁ := hs.forest.aliasOf_idem mov.1
  have h₂ := hs.forest.aliasOf_idem mov.2
  obtain ⟨k, -, h⟩ := Except.bind_eq_ok.1 h
  by_cases hk : k = .precolored
  · rw [if_pos hk] at h
    cases h
    exact ⟨h₂, h₁⟩
  · rw [if_neg hk] at h
    cases h
    exact ⟨h₁, h₂⟩

/-- The two nodes are different nodes of the graph that do not interfere. -/
theorem coalesceCase_mergable (hx : s.graph.aliasOf x = x) (hy : s.graph.aliasOf y = y)
    (h : s.coalesceCase x y = .ok .mergable) : x ≠ y ∧ x ∈ s.graph.keys ∧
      y ∉ (s.graph.node x).interfere ∧ ∃ k, s.nodes.place y = some k ∧ k ≠ .precolored := by
  unfold coalesceCase at h
  by_cases hxy : x = y
  · rw [if_pos hxy] at h
    cases h
  rw [if_neg hxy] at h
  obtain ⟨k, hk, h⟩ := Except.bind_eq_ok.1 h
  by_cases hp : k = .precolored
  · rw [if_pos hp] at h
    cases h
  rw [if_neg hp] at h
  obtain ⟨b, hb, h⟩ := Except.bind_eq_ok.1 h
  cases b with
  | true => cases h
  | false =>
    unfold InterfereGraph.interferes at hb
    dsimp only at hb
    rw [hx, hy, if_neg hxy] at hb
    obtain ⟨_, -, hb⟩ := Except.bind_eq_ok.1 hb
    obtain ⟨n, hn, hb⟩ := Except.bind_eq_ok.1 hb
    unfold InterfereGraph.nodeAt at hn
    by_cases hmem : x ∈ s.graph.keys
    · rw [if_pos hmem] at hn
      cases hn
      cases hb' : decide (y ∈ (s.graph.node x).interfere) with
      | true =>
        rw [hb'] at hb
        cases hb
      | false =>
        exact ⟨hxy, hmem, of_decide_eq_false hb', k, Worklists.place_of_listAt hk, hp⟩
    · rw [if_neg hmem] at hn
      cases hn

/-- A node without pending moves once `mov` is settled has no other pending move before. -/
theorem effectiveMoves_of_settled (h : s.relocateMove mov c = .ok s')
    (hr : s'.moveRelated v = .ok false) :
    ∃ ms, s.effectiveMoves v = .ok ms ∧ ∀ m ∈ ms, m = mov := by
  obtain ⟨w, hw, heq⟩ := Except.bind_eq_ok.1 h
  cases heq
  obtain ⟨ms', hms', hr⟩ := Except.bind_eq_ok.1 hr
  have hnil : ms' = [] := by
    cases ms' with
    | nil => rfl
    | cons => cases hr
  subst hnil
  obtain ⟨n, hn, hfilter⟩ := Except.bind_eq_ok.1 hms'
  obtain ⟨hall, hq⟩ := filterM_ok hfilter
  obtain ⟨lm, hlm⟩ := Worklists.place_of_relocate hw
  have hlist : ∀ m ∈ (s.graph.inOrder n.move).map fun src => (v, src),
      ∃ l, s.moves.listAt m = .ok l ∧ (m ≠ mov → w.listAt m = .ok l) := by
    intro m hm
    by_cases hmm : m = mov
    · subst hmm
      exact ⟨lm, Worklists.listAt_eq hlm, fun h => absurd rfl h⟩
    · obtain ⟨b, hb⟩ := hall m hm
      obtain ⟨l, hl, -⟩ := Except.bind_eq_ok.1 hb
      have hl' : w.listAt m = .ok l := hl
      exact ⟨l, (Worklists.listAt_relocate hw hmm).symm.trans hl', fun _ => hl'⟩
  have hs := Yields.filterM (ε := LookupFault)
    (l := (s.graph.inOrder n.move).map fun src => (v, src))
    (p := fun mov => do
      let loc ← s.moves.listAt mov
      return loc = .scheduled || loc = .ready)
    (q := fun m => (s.moves.listAt m).toOption.any fun loc => loc = .scheduled || loc = .ready)
    fun m hm => by
      obtain ⟨l, hl, -⟩ := hlist m hm
      rw [hl]
      rfl
  refine ⟨_, Except.bind_eq_ok.2 ⟨n, hn, hs⟩, fun m hm => ?_⟩
  obtain ⟨hml, hpend⟩ := List.mem_filter.1 hm
  by_contra hmm
  obtain ⟨l, hl, hl'⟩ := hlist m hml
  -- such a move would be pending afterwards as well
  have hempty := hq (fun m => (w.listAt m).toOption.any fun loc =>
    loc = .scheduled || loc = .ready) fun a _ b hb => by
      obtain ⟨k, hk, hb⟩ := Except.bind_eq_ok.1 hb
      have hk' : w.listAt a = .ok k := hk
      rw [hk']
      cases hb
      rfl
  have hafter : ((w.listAt m).toOption.any fun loc =>
      loc = .scheduled || loc = .ready) = true := by
    rw [hl' hmm]
    rw [hl] at hpend
    exact hpend
  have hin : m ∈ ([] : List (V × V)) := by
    rw [hempty]
    exact List.mem_filter.2 ⟨hml, hafter⟩
  cases hin

theorem Balanced.unfreeze (hs : s.Balanced g X) (hr : s.graph.aliasOf v = v)
    (hst : s.nodes.place v = some .selectStack →
      (s.graph.node v).degree < s.graph.maxColor → s.moveRelated v ≠ .ok false)
    (h : s.unfreeze v = .ok s') : s.Settled s' ∧ s' = { s with nodes := s'.nodes } := by
  rcases unfreeze_ok hs.shape hr h with rfl | ⟨k, hk, hp, hrel, hlt, h⟩
  · exact ⟨.refl hs.shape.nodes, rfl⟩
  have hw : k.Waiting := by
    rcases hs.shape.phase v k hk with hw | rfl | rfl | rfl
    · exact hw
    · exact absurd rfl hp
    · obtain ⟨k', hk', hne⟩ := hs.live_of_root hr hk
      rw [hk] at hk'
      cases hk'
      exact absurd rfl hne
    · exact absurd hrel (hst hk hlt)
  exact ⟨relocateNode_settled hs.shape.nodes hk hw hlt h,
    (relocateNode_place hs.shape.nodes hk h).1⟩

/-- The state in front of a merge that does not reach into the stack. -/
theorem Balanced.joins (hs : s.Balanced g X) (hsmall : g.keys.length < 2 ^ 64)
    (hsimple : (s.nodes.values .simplify).isEmpty = true) (hd : ¬s.Disturbs)
    (hmov : s.moves.front .ready = .ok mov) (hxy : s.ends mov = .ok (x, y))
    (hcase : s.coalesceCase x y = .ok .mergable) (h : s.relocateMove mov .coalesced = .ok s') :
    s'.Joins g X x y := by
  obtain ⟨hx, hy⟩ := ends_ok hs.shape hxy
  obtain ⟨hne, hmem, hadj, k, hk, hp⟩ := coalesceCase_mergable hx hy hcase
  have hm := relocateMove_ok h
  have hg : s'.graph = s.graph := by rw [hm]
  have hn : s'.nodes = s.nodes := by rw [hm]
  have hno : ∀ v, v = x ∨ v = y → s.nodes.place v ≠ some .selectStack := fun v hv hst => by
    refine hd ⟨hsimple, mov, x, y, .mergable, hmov, hxy, hcase, Or.inl ⟨rfl, ?_⟩⟩
    rcases hv with rfl | rfl
    · exact Or.inl hst
    · exact Or.inr hst
  obtain ⟨kx, hkx⟩ := hs.shape.place_eq hmem
  have hwaiting : k.Waiting := by
    rcases hs.shape.phase y k hk with hw | rfl | rfl | rfl
    · exact hw
    · exact absurd rfl hp
    · obtain ⟨k', hk', hne'⟩ := hs.live_of_root hy hk
      rw [hk] at hk'
      cases hk'
      exact absurd rfl hne'
    · exact absurd hk (hno y (Or.inr rfl))
  have hs' := hs.settled (settled_of_moves hs.shape.nodes hm)
  refine ⟨hs', hsmall, hs'.live_of_root (k := kx) (by rw [hg]; exact hx) (hn ▸ hkx),
    ⟨k, hn ▸ hk, hwaiting⟩, hn ▸ hno x (Or.inl rfl), ?_, hne, ?_⟩
  · rw [hn]
    exact (Worklists.values_eq_nil hs.shape.nodes).1 (List.isEmpty_iff.1 hsimple) x
  · rw [hg]
    exact fun h' => hadj (hs.shape.edges.symm _ _ h')

/-- `coalesce`, unless it reaches into the stack. -/
theorem Balanced.coalesce (hs : s.Balanced g X) (hsmall : g.keys.length < 2 ^ 64)
    (hsimple : (s.nodes.values .simplify).isEmpty = true) (hd : ¬s.Disturbs)
    (h : s.coalesce = .ok s') :
    s'.Balanced g X ∧ s'.nodes.values .selectStack = s.nodes.values .selectStack := by
  obtain ⟨mov, hmov, h⟩ := Except.bind_eq_ok.1 h
  obtain ⟨⟨x, y⟩, hxy, h⟩ := Except.bind_eq_ok.1 h
  obtain ⟨case, hcase, h⟩ := Except.bind_eq_ok.1 h
  obtain ⟨hx, hy⟩ := ends_ok hs.shape hxy
  have hsettle : ∀ {c : MoveList} {s₁ : BriggsAllocator V}, s.relocateMove mov c = .ok s₁ →
      s.Settled s₁ ∧ s₁.graph = s.graph ∧ s₁.nodes = s.nodes := fun h₁ => by
    have hm := relocateMove_ok h₁
    exact ⟨settled_of_moves hs.shape.nodes hm, by rw [hm], by rw [hm]⟩
  -- an end that `unfreeze` would take off the stack makes the round one that disturbs
  have hkeep : ∀ v, (v = x ∨ v = y) → case = .same ∨ case = .constrained →
      ∀ {c : MoveList} {s₁ : BriggsAllocator V}, s.relocateMove mov c = .ok s₁ →
      s.nodes.place v = some .selectStack → (s.graph.node v).degree < s.graph.maxColor →
      s₁.moveRelated v ≠ .ok false := by
    intro v hv hc c s₁ h₁ hst hlt hrel
    have hun : s.Unstacks mov v := ⟨hst, hlt, effectiveMoves_of_settled h₁ hrel⟩
    refine hd ⟨hsimple, mov, x, y, case, hmov, hxy, hcase, Or.inr ⟨hc, ?_⟩⟩
    rcases hv with rfl | rfl
    · exact Or.inl hun
    · exact Or.inr hun
  cases case with
  | same =>
    obtain ⟨s₁, h₁, h⟩ := Except.bind_eq_ok.1 h
    obtain ⟨hset, hg, hn⟩ := hsettle h₁
    obtain ⟨hset', -⟩ := (hs.settled hset).unfreeze (by rw [hg]; exact hx)
      (by rw [hg, hn]; exact hkeep x (Or.inl rfl) (Or.inl rfl) h₁) h
    exact ⟨(hs.settled hset).settled hset', hset'.stack.trans hset.stack⟩
  | constrained =>
    obtain ⟨s₁, h₁, h⟩ := Except.bind_eq_ok.1 h
    obtain ⟨s₂, h₂, h⟩ := Except.bind_eq_ok.1 h
    obtain ⟨hset, hg, hn⟩ := hsettle h₁
    have hs₁ := hs.settled hset
    obtain ⟨hset₂, heq₂⟩ := hs₁.unfreeze (by rw [hg]; exact hx)
      (by rw [hg, hn]; exact hkeep x (Or.inl rfl) (Or.inr rfl) h₁) h₂
    have hg₂ : s₂.graph = s₁.graph := by rw [heq₂]
    have hrel : s₂.moveRelated y = s₁.moveRelated y := by
      rw [heq₂]
      rfl
    obtain ⟨hset₃, -⟩ := (hs₁.settled hset₂).unfreeze (by rw [hg₂, hg]; exact hy)
      (by
        rw [hset₂.place_iff (l := .selectStack) id, hrel, hg₂, hg, hn]
        exact hkeep y (Or.inr rfl) (Or.inr rfl) h₁) h
    exact ⟨(hs₁.settled hset₂).settled hset₃,
      (hset₃.stack.trans hset₂.stack).trans hset.stack⟩
  | mergable =>
    obtain ⟨s₁, h₁, h⟩ := Except.bind_eq_ok.1 h
    obtain ⟨s₂, h₂, h⟩ := Except.bind_eq_ok.1 h
    have hjoins := hs.joins hsmall hsimple hd hmov hxy hcase h₁
    obtain ⟨hs₂, hstack, hx₂⟩ := hjoins.merge h₂
    obtain ⟨hset₃, -⟩ := hs₂.unfreeze hx₂ (fun hst => by
      rw [← Worklists.mem_values hs₂.shape.nodes, hstack,
        Worklists.mem_values hjoins.balanced.shape.nodes] at hst
      exact absurd hst hjoins.dest_stack) h
    exact ⟨hs₂.settled hset₃, (hset₃.stack.trans hstack).trans (hsettle h₁).1.stack⟩
  | scheduled =>
    obtain ⟨hset, -⟩ := hsettle h
    exact ⟨hs.settled hset, hset.stack⟩

/-! ## A round of the main loop -/

/-- No round takes one from a degree that is zero. -/
theorem Balanced.decrements_pos (hs : s.Balanced g X) (hsmall : g.keys.length < 2 ^ 64)
    (hd : ¬s.Disturbs) (h : s.Decrements t v) {n : InterfereNode V}
    (hn : t.graph.get v = .ok n) : 0 < n.degree := by
  have hfinish : ∀ {D E : V → Nat} {Y : Set V} {k : NodeList}, t.Shape g → t.Weighed Y D E →
      t.nodes.place v = some k → k.Waiting → 1 ≤ D v → 0 < n.degree := by
    intro D E Y k hshape hw hk hkw hD
    rw [hshape.get_live ⟨k, hk, fun h => by subst h; exact hkw⟩] at hn
    cases hn
    have hcov := hw.covers v k hk hkw
    rw [UInt64.lt_iff_toNat_lt]
    show 0 < _
    omega
  cases h with
  | simplify front push neighbors rounds place =>
    obtain ⟨hshape, hlive, -, -, hweighed, -⟩ := hs.push front push neighbors
    obtain ⟨hnd, hmem⟩ := adjacent_ok hshape hlive neighbors
    have hdraining := foldlM_ok (I := Draining X _ _)
      (fun a l t u ht hu => ht.round hshape hu)
      ⟨.refl hshape.nodes, hnd, fun a ha => (hmem a).1 ha, hweighed⟩ rounds
    rcases hdraining.place hshape with hp | ⟨k, hk, hkw⟩
    · exact absurd hp place
    · exact hfinish (hshape.shuffled hdraining.shuffled) hdraining.weighed hk hkw (by simp)
  | @merge mov x y m s₁ s₂ s₃ l vs simple front ends mergable settle moves neighbors rounds get
      neighbor edge stack gone place =>
    have hjoins := hs.joins hsmall simple hd front ends mergable settle
    have hstart := hjoins.start moves
    rw [neighbors] at hstart
    have hjoining := foldlM_ok (I := s₁.Joining g X x y) (fun m l t u ht hu => ht.round hjoins hu)
      hstart rounds
    rw [hjoining.get_src hjoins] at get
    cases get
    have hadj : v ∈ (s₁.graph.node y).interfere := hjoining.kept ▸ neighbor
    obtain ⟨hedge, -⟩ := hjoining.edge hjoins hadj
    rw [← edge] at hedge
    have hmem : v ∈ t.graph.keys := by
      rw [hedge.shape.keys, ← hjoins.balanced.shape.keys]
      exact hjoins.balanced.shape.edges.mem _ _ hadj
    obtain ⟨k, hk⟩ := hedge.shape.place_eq hmem
    rcases hedge.shape.phase v k hk with hw | rfl | rfl | rfl
    · refine hfinish hedge.shape hedge.weighed hk hw ?_
      simp only [toCome_eq]
      rw [if_pos ⟨List.mem_cons_self, hadj⟩]
    · exact absurd hk place
    · exact absurd hk gone
    · exact absurd hk stack

/-- A round that does not disturb keeps the invariant, and what is on the stack stays. -/
theorem Balanced.step (hs : s.Balanced g X) (hsmall : g.keys.length < 2 ^ 64)
    (hX : ∀ v, s.Chooses v → v ∈ X) (hd : ¬s.Disturbs) (h : s.step = .ok s') :
    s'.Balanced g X ∧ s.nodes.values .selectStack <+: s'.nodes.values .selectStack := by
  unfold BriggsAllocator.step at h
  cases hsimple : (s.nodes.values .simplify).isEmpty with
  | false =>
    rw [hsimple] at h
    exact hs.simplify h
  | true =>
    cases hready : (s.moves.values .ready).isEmpty with
    | false =>
      rw [hsimple, hready] at h
      obtain ⟨hs', hstack⟩ := hs.coalesce hsmall hsimple hd h
      exact ⟨hs', hstack ▸ List.prefix_rfl⟩
    | true =>
      cases hfreeze : (s.nodes.values .freeze).isEmpty with
      | false =>
        rw [hsimple, hready, hfreeze] at h
        have hset := hs.freeze h
        exact ⟨hs.settled hset, hset.stack ▸ List.prefix_rfl⟩
      | true =>
        cases hspill : (s.nodes.values .toSpill).isEmpty with
        | false =>
          rw [hsimple, hready, hfreeze, hspill] at h
          obtain ⟨hs', hstack⟩ := hs.spill (fun first hf =>
            hX _ ⟨hsimple, hready, hfreeze, first, hf, rfl⟩) h
          exact ⟨hs', hstack ▸ List.prefix_rfl⟩
        | true =>
          rw [hsimple, hready, hfreeze, hspill] at h
          cases h
          exact ⟨hs, List.prefix_rfl⟩

end Coalesce

end BriggsAllocator

end Lowering

end Cact
