import Cact.Lowering.ColorizeInv

/-!
# Merging two nodes

`merge dest src` hands the moves and the edges of `src` over to `dest`. As long as the
two have no move partner in common, the moves with a place stay exactly those of the
nodes that are left, and every edge of `src` reappears at `dest`.

- `MovesMerged`: the state inside the loop over the moves, with the nodes to come.
- `EdgesMerged`: the state inside the loop over the edges.
- `merge_spec`: the invariant of the main loop survives a merge, with a node less.
-/

namespace Cact

namespace Lowering

namespace BriggsAllocator

variable {V : Type}

/-! ## The moves -/

/-- Two graphs that differ in degrees and moves only. -/
structure SameEdges (g g' : InterfereGraph V) : Prop where
  keys : g'.keys = g.keys
  aliases : g'.aliases = g.aliases
  needRegister : g'.needRegister = g.needRegister
  interfere : ∀ v, (g'.node v).interfere = (g.node v).interfere
  color : ∀ v, (g'.node v).color = (g.node v).color

theorem SameEdges.refl (g : InterfereGraph V) : SameEdges g g :=
  ⟨rfl, rfl, rfl, fun _ => rfl, fun _ => rfl⟩

theorem SameEdges.trans {g g' g'' : InterfereGraph V} (h : SameEdges g g')
    (h' : SameEdges g' g'') : SameEdges g g'' :=
  ⟨h'.keys.trans h.keys, h'.aliases.trans h.aliases, h'.needRegister.trans h.needRegister,
    fun v => (h'.interfere v).trans (h.interfere v), fun v => (h'.color v).trans (h.color v)⟩

theorem SameEdges.aliasOf {g g' : InterfereGraph V} (h : SameEdges g g') (v : V) :
    g'.aliasOf v = g.aliasOf v := by
  unfold InterfereGraph.aliasOf
  rw [h.aliases, h.keys]

section Moves

variable [LinearOrder V]

/-- The partners of a node when the nodes `l` are still to be visited. -/
def movedTo (s : BriggsAllocator V) (dest src : V) (l : List V) (v : V) : Finset V :=
  if v ∈ (s.graph.node src).move ∧ v ∉ l.toFinset then
    if v = dest then (s.graph.node v).move.erase src
    else insert dest ((s.graph.node v).move.erase src)
  else (s.graph.node v).move

/-- The moves with a place at that point. -/
def TracksMerged (s : BriggsAllocator V) (R : V → Prop) (dest src : V) (l : List V) (a b : V) :
    Prop :=
  (R a ∧ b ∈ (s.graph.node a).move ∧ ¬(a = src ∧ b ∉ l) ∧ ¬(b = src ∧ a ∉ l)) ∨
    (a = dest ∧ b ∈ (s.graph.node src).move ∧ b ∉ l ∧ b ≠ dest) ∨
    (b = dest ∧ a ∈ (s.graph.node src).move ∧ a ∉ l ∧ a ≠ dest)

/-- The state in the first loop of `merge`, which started in `s`. -/
structure MovesMerged (s : BriggsAllocator V) (R : V → Prop) (dest src : V) (l : List V)
    (s' : BriggsAllocator V) : Prop where
  nodup : l.Nodup
  moves : s'.moves.Coherent
  nodes : s'.nodes = s.nodes
  graph : SameEdges s.graph s'.graph
  move : ∀ v, (s'.graph.node v).move = s.movedTo dest src l v
  place : ∀ a b, (s'.moves.place (a, b)).isSome ↔ s.TracksMerged R dest src l a b
  colors : s'.colors = s.colors
  spilled : s'.spilled = s.spilled
  priority : s'.priority = s.priority

variable {s s' : BriggsAllocator V} {R : V → Prop} {dest src m v w : V} {l : List V}

theorem sameEdges_modifyMove (f : Finset V → Finset V) :
    SameEdges s.graph (s.modifyMove v f).graph := by
  refine ⟨rfl, rfl, rfl, fun w => ?_, fun w => ?_⟩
  · simp only [modifyMove, InterfereGraph.modify, Function.update_apply]
    by_cases h : w = s.graph.aliasOf v
    · rw [if_pos h, h]
    · rw [if_neg h]
  · simp only [modifyMove, InterfereGraph.modify, Function.update_apply]
    by_cases h : w = s.graph.aliasOf v
    · rw [if_pos h, h]
    · rw [if_neg h]

theorem move_modifyMove (f : Finset V → Finset V) (hv : s.graph.aliases v = v) :
    ((s.modifyMove v f).graph.node w).move =
      if w = v then f (s.graph.node v).move else (s.graph.node w).move := by
  simp only [modifyMove, InterfereGraph.modify, Function.update_apply,
    InterfereGraph.aliasOf_root hv]
  by_cases h : w = v
  · rw [if_pos h, if_pos h]
  · rw [if_neg h, if_neg h]

/-- What the loop over the moves relies on. -/
structure Mergeable (s : BriggsAllocator V) (R : V → Prop) (dest src : V) : Prop where
  forest : s.graph.AliasForest
  tracked : s.Tracked R
  root : ∀ v, R v → v ∈ s.graph.keys ∧ s.graph.aliases v = v
  dest_mem : R dest
  src_mem : R src
  ne : dest ≠ src
  disjoint : ∀ m ∈ (s.graph.node src).move, m ∉ (s.graph.node dest).move

theorem mergeMove_replace (hm : s.Mergeable R dest src) (hmove : m ∈ (s.graph.node src).move)
    (hml : m ∉ l) (hcoh : s'.moves.Coherent)
    (hplace : ∀ a b, (s'.moves.place (a, b)).isSome ↔ s.TracksMerged R dest src (m :: l) a b) :
    Yields (do
      let t ← s'.replaceMove (src, m) (if m = dest then none else some (dest, m))
      t.replaceMove (m, src) (if m = dest then none else some (m, dest))) fun t =>
        t = { s' with moves := t.moves } ∧ t.moves.Coherent ∧
        ∀ a b, (t.moves.place (a, b)).isSome ↔ s.TracksMerged R dest src l a b := by
  obtain ⟨hRm, hback, hne⟩ := hm.tracked.partner src m hm.src_mem hmove
  have hin : (s'.moves.place (src, m)).isSome :=
    (hplace src m).2 (Or.inl ⟨hm.src_mem, hmove, by simp, fun h => hne h.1.symm⟩)
  have hout : (s'.moves.place (m, src)).isSome :=
    (hplace m src).2 (Or.inl ⟨hRm, hback, fun h => hne h.1.symm, by simp⟩)
  obtain ⟨l₁, hl₁⟩ := Option.isSome_iff_exists.1 hin
  obtain ⟨l₂, hl₂⟩ := Option.isSome_iff_exists.1 hout
  by_cases hmd : m = dest
  · subst hmd
    simp only [if_true]
    obtain ⟨w₁, hw₁, hcoh₁, hplace₁⟩ := Worklists.remove_spec hcoh hl₁
    have hl₂' : w₁.place (m, src) = some l₂ := by
      rw [hplace₁, Function.update_of_ne (by simp [hm.ne]), hl₂]
    obtain ⟨w₂, hw₂, hcoh₂, hplace₂⟩ := Worklists.remove_spec hcoh₁ hl₂'
    refine ⟨{ s' with moves := w₂ }, ?_, rfl, hcoh₂, fun a b => ?_⟩
    · simp only [replaceMove, hw₁]
      show (do return { s' with moves := ← w₁.replace (m, src) none }) = _
      rw [hw₂]
      rfl
    · show (w₂.place (a, b)).isSome ↔ _
      rw [hplace₂, hplace₁, Function.update_apply, Function.update_apply]
      have hK := hplace a b
      unfold TracksMerged at hK ⊢
      have hpart := hm.tracked.partner
      grind
  · simp only [if_neg hmd]
    have hno₁ : s'.moves.place (dest, m) = none := by
      rw [← Option.not_isSome_iff_eq_none, hplace]
      have hdis := hm.disjoint m hmove
      unfold TracksMerged
      grind
    have hno₂ : s'.moves.place (m, dest) = none := by
      rw [← Option.not_isSome_iff_eq_none, hplace]
      have hdis := hm.disjoint m hmove
      have hpart := hm.tracked.partner m dest hRm
      unfold TracksMerged
      grind
    obtain ⟨w₁, hw₁, hcoh₁, hplace₁⟩ := Worklists.replace_spec hcoh hl₁ hno₁
    have hl₂' : w₁.place (m, src) = some l₂ := by
      rw [hplace₁, Function.update_of_ne (by simp [hmd]), Function.update_of_ne (by simp [hne.symm]),
        hl₂]
    have hno₂' : w₁.place (m, dest) = none := by
      rw [hplace₁, Function.update_of_ne (by simp [hmd]), Function.update_of_ne (by simp [hne.symm]),
        hno₂]
    obtain ⟨w₂, hw₂, hcoh₂, hplace₂⟩ := Worklists.replace_spec hcoh₁ hl₂' hno₂'
    refine ⟨{ s' with moves := w₂ }, ?_, rfl, hcoh₂, fun a b => ?_⟩
    · simp only [replaceMove, hw₁]
      show (do return { s' with moves := ← w₁.replace (m, src) (some (m, dest)) }) = _
      rw [hw₂]
      rfl
    · show (w₂.place (a, b)).isSome ↔ _
      rw [hplace₂, hplace₁]
      simp only [Function.update_apply, Prod.mk.injEq]
      have hsrc : src ∉ (s.graph.node src).move := fun h =>
        (hm.tracked.partner src src hm.src_mem h).2.2 rfl
      -- the two pairs that are entered, the two that are taken out, and all others
      by_cases h₁ : a = m ∧ b = dest
      · rw [if_pos h₁]
        exact iff_of_true rfl (Or.inr (Or.inr ⟨h₁.2, h₁.1 ▸ hmove, h₁.1 ▸ hml, h₁.1 ▸ hmd⟩))
      rw [if_neg h₁]
      by_cases h₂ : a = m ∧ b = src
      · rw [if_pos h₂]
        obtain ⟨rfl, rfl⟩ := h₂
        refine iff_of_false (by simp) ?_
        rintro (⟨_, _, _, h⟩ | ⟨_, h, _⟩ | ⟨h, _⟩)
        · exact h ⟨rfl, hml⟩
        · exact hsrc h
        · exact hm.ne h.symm
      rw [if_neg h₂]
      by_cases h₃ : a = dest ∧ b = m
      · rw [if_pos h₃]
        exact iff_of_true rfl (Or.inr (Or.inl ⟨h₃.1, h₃.2 ▸ hmove, h₃.2 ▸ hml, h₃.2 ▸ hmd⟩))
      rw [if_neg h₃]
      by_cases h₄ : a = src ∧ b = m
      · rw [if_pos h₄]
        obtain ⟨rfl, rfl⟩ := h₄
        refine iff_of_false (by simp) ?_
        rintro (⟨_, _, h, _⟩ | ⟨h, _⟩ | ⟨_, h, _⟩)
        · exact h ⟨rfl, hml⟩
        · exact hm.ne h.symm
        · exact hsrc h
      rw [if_neg h₄, hplace]
      unfold TracksMerged
      simp only [List.mem_cons]
      grind

theorem SameEdges.aliasForest {g g' : InterfereGraph V} (h : SameEdges g g')
    (hg : g.AliasForest) : g'.AliasForest := by
  obtain ⟨hdepth, hmem, houtside⟩ := hg
  exact ⟨by rw [h.aliases, h.keys]; exact hdepth, by rw [h.aliases, h.keys]; exact hmem,
    by rw [h.aliases, h.keys]; exact houtside⟩

theorem MovesMerged.get (hm : s.Mergeable R dest src) (h : s.MovesMerged R dest src l s')
    (hv : R v) : s'.graph.get v = .ok (s'.graph.node v) := by
  obtain ⟨hk, hroot⟩ := hm.root v hv
  rw [InterfereGraph.get_of_mem (h.graph.aliasForest hm.forest) (h.graph.keys ▸ hk),
    h.graph.aliasOf, InterfereGraph.aliasOf_root hroot]

theorem Mergeable.movedTo_src (hm : s.Mergeable R dest src) :
    s.movedTo dest src l src = (s.graph.node src).move := by
  have hsrc : src ∉ (s.graph.node src).move := fun h =>
    (hm.tracked.partner src src hm.src_mem h).2.2 rfl
  exact if_neg fun h => hsrc h.1

theorem movedTo_dest_subset :
    s.movedTo dest src l dest ⊆ (s.graph.node dest).move := by
  unfold movedTo
  split
  · rw [if_pos rfl]
    exact Finset.erase_subset ..
  · exact Finset.Subset.refl _

/-- Whether a node was visited only matters for the partners of `src`. -/
theorem movedTo_cons (h : v ≠ m ∨ v ∉ (s.graph.node src).move) :
    s.movedTo dest src (m :: l) v = s.movedTo dest src l v := by
  unfold movedTo
  rcases h with h | h
  · simp only [List.mem_toFinset, List.mem_cons, h, false_or]
  · rw [if_neg fun h' => h h'.1, if_neg fun h' => h h'.1]

theorem mergeMove_spec (hm : s.Mergeable R dest src) (h : s.MovesMerged R dest src (m :: l) s') :
    Yields (mergeMove dest src s' m) (s.MovesMerged R dest src l) := by
  have hnd := List.nodup_cons.1 h.nodup
  unfold mergeMove
  rw [h.get hm hm.src_mem]
  show Yields (if m ∉ (s'.graph.node src).move then _ else _) _
  rw [h.move, hm.movedTo_src]
  by_cases hmove : m ∈ (s.graph.node src).move
  · rw [if_neg (not_not.2 hmove), h.get hm hm.dest_mem]
    show Yields (if m ∈ (s'.graph.node dest).move then _ else _) _
    have hdis : m ∉ (s'.graph.node dest).move := by
      rw [h.move]
      exact fun h' => hm.disjoint m hmove (movedTo_dest_subset h')
    have hRm := (hm.tracked.partner src m hm.src_mem hmove).1
    have hroot : s'.graph.aliases m = m := by
      rw [h.graph.aliases]
      exact (hm.root m hRm).2
    rw [if_neg hdis, h.get hm hRm]
    -- the partner sets after the two updates
    show Yields (do
      let t ← (if m = dest then s'.modifyMove m fun l => l.erase src
        else (s'.modifyMove m fun l => l.erase src).modifyMove m fun l => insert dest l).replaceMove
          (src, m) (if m = dest then none else some (dest, m))
      t.replaceMove (m, src) (if m = dest then none else some (m, dest))) _
    generalize hs₂ : (if m = dest then s'.modifyMove m fun l => l.erase src
      else (s'.modifyMove m fun l => l.erase src).modifyMove m fun l => insert dest l) = s₂
    have hrest : s₂.moves = s'.moves ∧ s₂.nodes = s'.nodes ∧ s₂.colors = s'.colors ∧
        s₂.spilled = s'.spilled ∧ s₂.priority = s'.priority ∧ SameEdges s'.graph s₂.graph := by
      subst hs₂
      split
      · exact ⟨rfl, rfl, rfl, rfl, rfl, sameEdges_modifyMove _⟩
      · exact ⟨rfl, rfl, rfl, rfl, rfl, (sameEdges_modifyMove _).trans (sameEdges_modifyMove _)⟩
    obtain ⟨hmoves, hnodes, hcolors, hspilled, hprio, hsame⟩ := hrest
    have hmove₂ : ∀ v, (s₂.graph.node v).move = s.movedTo dest src l v := by
      intro v
      have hroot' : (s'.modifyMove m fun l => l.erase src).graph.aliases m = m := hroot
      by_cases hv : v = m
      · have hold : (s'.graph.node m).move = (s.graph.node m).move := by
          rw [h.move]
          exact if_neg fun h' => h'.2 (by simp)
        subst hs₂ hv
        have hin : v ∈ (s.graph.node src).move ∧ v ∉ l.toFinset := ⟨hmove, by simpa using hnd.1⟩
        rw [movedTo, if_pos hin]
        by_cases hvd : v = dest
        · rw [if_pos hvd, if_pos hvd, move_modifyMove _ hroot, if_pos rfl, hold]
        · rw [if_neg hvd, if_neg hvd, move_modifyMove _ hroot', if_pos rfl,
            move_modifyMove _ hroot, if_pos rfl, hold]
      · have hkeep : (s₂.graph.node v).move = (s'.graph.node v).move := by
          subst hs₂
          split
          · rw [move_modifyMove _ hroot, if_neg hv]
          · rw [move_modifyMove _ hroot', if_neg hv, move_modifyMove _ hroot, if_neg hv]
        rw [hkeep, h.move, movedTo_cons (Or.inl hv)]
    have hreplace := mergeMove_replace hm hmove hnd.1 (hmoves ▸ h.moves)
      (by rw [hmoves]; exact h.place)
    refine hreplace.mono fun t ⟨ht, hcoh, hplace⟩ => ?_
    rw [ht]
    exact ⟨hnd.2, hcoh, hnodes.trans h.nodes, h.graph.trans hsame, hmove₂, hplace,
      hcolors.trans h.colors, hspilled.trans h.spilled, hprio.trans h.priority⟩
  · rw [if_pos hmove]
    refine .pure ⟨hnd.2, h.moves, h.nodes, h.graph, fun v => ?_, fun a b => ?_, h.colors,
      h.spilled, h.priority⟩
    · rw [h.move]
      refine movedTo_cons ?_
      by_cases hv : v = m
      · exact Or.inr (hv ▸ hmove)
      · exact Or.inl hv
    · rw [h.place]
      unfold TracksMerged
      simp only [List.mem_cons]
      have hback := hm.tracked.partner m src
      grind

theorem mergeMoves_loop (hm : s.Mergeable R dest src) (hcoh : s.moves.Coherent)
    (hnd : s.graph.keys.Nodup) :
    Yields (s.graph.keys.foldlM (mergeMove dest src) s) (s.MovesMerged R dest src []) := by
  refine Yields.foldlM (I := s.MovesMerged R dest src) (fun m l s' h => mergeMove_spec hm h) ?_
  have hall : ∀ v ∈ (s.graph.node src).move, v ∈ s.graph.keys := fun v hv =>
    (hm.root v (hm.tracked.partner src v hm.src_mem hv).1).1
  refine ⟨hnd, hcoh, rfl, .refl _,
    fun v => (if_neg fun h => h.2 (List.mem_toFinset.2 (hall v h.1))).symm,
    fun a b => ?_, rfl, rfl, rfl⟩
  have hback := fun h => (hm.tracked.partner a src h)
  rw [hm.tracked.place]
  unfold TracksMerged
  grind

/-- `dest` takes over the remaining partners of `src`, and `src` is out. -/
theorem MovesMerged.tracked (hm : s.Mergeable R dest src) (h : s.MovesMerged R dest src [] s') :
    (s'.modifyMove dest fun l => ((l ∪ (s'.graph.node src).move).erase dest).erase src).Tracked
      fun v => R v ∧ v ≠ src := by
  have hroot : s'.graph.aliases dest = dest := by
    rw [h.graph.aliases]
    exact (hm.root dest hm.dest_mem).2
  have hpart := hm.tracked.partner
  have hsrc : (s'.graph.node src).move = (s.graph.node src).move := by
    rw [h.move, hm.movedTo_src]
  have hmove : ∀ a b, R a → a ≠ src → (b ∈ ((s'.modifyMove dest fun l =>
      ((l ∪ (s'.graph.node src).move).erase dest).erase src).graph.node a).move ↔
      b ≠ src ∧ b ≠ a ∧ (b ∈ (s.graph.node a).move ∨
        (a = dest ∧ b ∈ (s.graph.node src).move) ∨
        (b = dest ∧ a ∈ (s.graph.node src).move))) := by
    intro a b ha hne
    have hself := hpart a a ha
    have hback := hpart a src ha
    have hout := hpart src b hm.src_mem
    have hne' := hm.ne
    rw [move_modifyMove _ hroot, hsrc, h.move, h.move]
    unfold movedTo
    simp only [List.mem_toFinset, List.not_mem_nil, not_false_eq_true, and_true, if_true]
    by_cases hd : a = dest
    · subst hd
      by_cases hin : a ∈ (s.graph.node src).move
      · rw [if_pos rfl, if_pos hin]
        simp only [Finset.mem_erase, Finset.mem_union]
        grind
      · rw [if_pos rfl, if_neg hin]
        simp only [Finset.mem_erase, Finset.mem_union]
        grind
    · by_cases hin : a ∈ (s.graph.node src).move
      · rw [if_neg hd, if_pos hin, if_neg hd]
        simp only [Finset.mem_erase, Finset.mem_insert]
        grind
      · rw [if_neg hd, if_neg hin]
        grind
  constructor
  · rintro a b ⟨ha, hne⟩ hb
    rw [hmove a b ha hne] at hb
    have hRb : R b := by
      rcases hb.2.2 with hb' | ⟨_, hb'⟩ | ⟨rfl, _⟩
      · exact (hpart a b ha hb').1
      · exact (hpart src b hm.src_mem hb').1
      · exact hm.dest_mem
    refine ⟨⟨hRb, hb.1⟩, (hmove b a hRb hb.1).2 ⟨hne, hb.2.1.symm, ?_⟩, hb.2.1.symm⟩
    rcases hb.2.2 with hb' | hb' | hb'
    · exact Or.inl (hpart a b ha hb').2.1
    · exact Or.inr (Or.inr hb')
    · exact Or.inr (Or.inl hb')
  · intro a b
    show (s'.moves.place (a, b)).isSome ↔ _
    rw [h.place]
    unfold TracksMerged
    simp only [List.not_mem_nil, not_false_eq_true, and_true, true_and]
    have hself := hpart a b
    have hout := hpart src a hm.src_mem
    have hout' := hpart src b hm.src_mem
    have hdest := hm.dest_mem
    have hne := hm.ne
    have hiff := hmove a b
    grind

end Moves

/-! ## The edges -/

section Edges

variable [LinearOrder V] {s s' : BriggsAllocator V} {dest src u v n : V} {l : List V}

theorem Core.interfere (hs : s.Core) (hu : u ∈ s.graph.keys) (hv : v ∈ s.graph.keys) :
    ({ s with graph := s.graph.interfere u v } : BriggsAllocator V).Core := by
  have hframe := InterfereGraph.frame_interfere hs.needs hs.forest hu hv
  refine ⟨hs.nodes, hs.moves, ?_, ?_, ?_, hframe.aliasForest hs.forest,
    hs.edges.interfere hs.needs hs.forest hu hv, ?_, ?_, hs.phase⟩
  · rw [hframe.keys]
    exact hs.nodup
  · rw [hframe.keys, hframe.needRegister]
    exact hs.needs
  · rw [hframe.keys]
    exact hs.placed
  · intro w hw
    rw [hframe.color]
    exact hs.pinned w (hframe.keys ▸ hw)
  · intro w hw
    rw [hframe.aliases]
    exact hs.root w hw

/-- What the loop over the edges relies on. -/
structure Inheriting (s : BriggsAllocator V) (dest src : V) : Prop where
  dest_mem : dest ∈ s.graph.keys
  src_mem : src ∈ s.graph.keys
  dest_root : s.graph.aliases dest = dest
  src_root : s.graph.aliases src = src
  ne : dest ≠ src
  apart : dest ∉ (s.graph.node src).interfere

/-- The state in the second loop of `merge`, which started in `s`. -/
structure EdgesMerged (s : BriggsAllocator V) (dest src : V) (l : List V)
    (s' : BriggsAllocator V) : Prop where
  core : s'.Core
  tracked : s'.Tracked s'.Live
  graph : s.graph.Frame s'.graph
  place : Wander s.nodes s'.nodes
  grown : ∀ u v, v ∈ (s.graph.node u).interfere → v ∈ (s'.graph.node u).interfere
  kept : (s'.graph.node src).interfere = (s.graph.node src).interfere
  moved : ∀ v ∈ (s.graph.node src).interfere, v ∉ l →
    s'.graph.aliasOf v ∈ (s'.graph.node dest).interfere
  colors : s'.colors = s.colors
  spilled : s'.spilled = s.spilled
  priority : s'.priority = s.priority

/-- Nodes wandering about do not undo anything. -/
theorem EdgesMerged.keeps {t : BriggsAllocator V} (h : s.EdgesMerged dest src l s')
    (hk : s'.Keeps t) : s.EdgesMerged dest src l t where
  core := h.core.keeps hk
  tracked := h.tracked.keeps_live hk
  graph := h.graph.trans hk.graph
  place := h.place.trans hk.place
  grown := fun u v hv => by
    rw [hk.edges]
    exact h.grown u v hv
  kept := (hk.edges src).trans h.kept
  moved := fun v hv hl => by
    rw [hk.edges, hk.graph.aliasOf]
    exact h.moved v hv hl
  colors := hk.colors.trans h.colors
  spilled := hk.spilled.trans h.spilled
  priority := hk.priority.trans h.priority

theorem EdgesMerged.get_src (hm : s.Inheriting dest src) (h : s.EdgesMerged dest src l s') :
    s'.graph.get src = .ok (s'.graph.node src) := by
  have hroot : s'.graph.aliases src = src := by rw [h.graph.aliases, hm.src_root]
  rw [InterfereGraph.get_of_mem h.core.forest (h.graph.keys ▸ hm.src_mem),
    InterfereGraph.aliasOf_root hroot]

/-- The edge of one neighbour is entered at `dest`. -/
theorem EdgesMerged.interfere (hm : s.Inheriting dest src)
    (h : s.EdgesMerged dest src (n :: l) s') (hn : n ∈ (s.graph.node src).interfere) :
    s.EdgesMerged dest src l { s' with graph := s'.graph.interfere dest n } := by
  have hn' : n ∈ (s'.graph.node src).interfere := h.kept ▸ hn
  have hd : dest ∈ s'.graph.keys := h.graph.keys ▸ hm.dest_mem
  have hk : n ∈ s'.graph.keys := h.core.edges.mem _ _ hn'
  have hdest : s'.graph.aliasOf dest = dest :=
    InterfereGraph.aliasOf_root (by rw [h.graph.aliases, hm.dest_root])
  have hsrc : s'.graph.aliasOf src = src :=
    InterfereGraph.aliasOf_root (by rw [h.graph.aliases, hm.src_root])
  have hframe := InterfereGraph.frame_interfere h.core.needs h.core.forest hd hk
  have hmem := fun x y =>
    InterfereGraph.mem_interfere_interfere h.core.needs h.core.forest hd hk (x := x) (y := y)
  rw [hdest] at hmem
  -- under its alias the neighbour is next to `src`, so it is neither `src` nor `dest`
  have hcl := h.core.edges.closed _ _ hn'
  rw [hsrc] at hcl
  have hne_src : s'.graph.aliasOf n ≠ src := fun h' => h.core.edges.irrefl src (h' ▸ hcl)
  have hne_dest : dest ≠ s'.graph.aliasOf n := fun h' => hm.apart (h.kept ▸ h' ▸ hcl)
  refine ⟨h.core.interfere hd hk, ?_, h.graph.trans hframe, h.place, fun u v hv => ?_, ?_,
    fun v hv hl => ?_, h.colors, h.spilled, h.priority⟩
  · exact ⟨fun a b ha hb => by
      have hb' : b ∈ ((s'.graph.interfere dest n).node a).move := hb
      show s'.Live b ∧ a ∈ ((s'.graph.interfere dest n).node b).move ∧ a ≠ b
      rw [hframe.move] at hb' ⊢
      exact h.tracked.partner a b ha hb', fun a b => by
      show (s'.moves.place (a, b)).isSome ↔ s'.Live a ∧
        b ∈ ((s'.graph.interfere dest n).node a).move
      rw [hframe.move]
      exact h.tracked.place a b⟩
  · exact (hmem v u).2 (Or.inl (h.grown u v hv))
  · rw [← h.kept]
    ext x
    rw [hmem]
    constructor
    · rintro (hx | ⟨_, ⟨hx, _⟩ | ⟨hx, _⟩⟩)
      · exact hx
      · exact absurd hx.symm hm.ne
      · exact absurd hx.symm hne_src
    · exact Or.inl
  · show (s'.graph.interfere dest n).aliasOf v ∈ _
    rw [hframe.aliasOf, hmem]
    by_cases hvn : v = n
    · subst hvn
      exact Or.inr ⟨hne_dest, Or.inl ⟨rfl, rfl⟩⟩
    · exact Or.inl (h.moved v hv (by simp [hvn, hl]))

theorem mergeEdge_spec (hm : s.Inheriting dest src) (h : s.EdgesMerged dest src (n :: l) s') :
    Yields (mergeEdge dest src s' n) (s.EdgesMerged dest src l) := by
  unfold mergeEdge
  rw [h.get_src hm]
  show Yields (if n ∉ (s'.graph.node src).interfere then _ else _) _
  rw [h.kept]
  by_cases hn : n ∈ (s.graph.node src).interfere
  · rw [if_neg (not_not.2 hn)]
    have h₁ := h.interfere hm hn
    have hk : n ∈ s'.graph.keys := h.core.edges.mem _ _ (h.kept ▸ hn)
    obtain ⟨p, hp⟩ := h.core.place_eq hk
    rw [Worklists.listAt_eq hp]
    show Yields (if p ≠ .selectStack ∧ p ≠ .coalesced then _ else _) _
    split
    · rename_i hloc
      exact (decrementDegree_quiet h₁.core h₁.tracked hp hloc.2 hloc.1).mono
        fun t ht => h₁.keeps ht.toKeeps
    · exact .pure h₁
  · rw [if_pos hn]
    refine .pure ⟨h.core, h.tracked, h.graph, h.place, h.grown, h.kept, fun v hv hl => ?_,
      h.colors, h.spilled, h.priority⟩
    have hvn : v ≠ n := fun h' => hn (h' ▸ hv)
    exact h.moved v hv (by simp [hvn, hl])

theorem mergeEdges_loop (hm : s.Inheriting dest src) (hs : s.Core) (ht : s.Tracked s.Live) :
    Yields (s.graph.keys.foldlM (mergeEdge dest src) s) (s.EdgesMerged dest src []) := by
  refine Yields.foldlM (I := s.EdgesMerged dest src) (fun n l s' h => mergeEdge_spec hm h) ?_
  exact ⟨hs, ht, .refl _, .refl _, fun _ _ h => h, rfl,
    fun v hv hl => absurd (hs.edges.mem _ _ hv) hl, rfl, rfl, rfl⟩

end Edges

/-! ## The invariant of the main loop -/

section Merge

variable [LinearOrder V] {g : InterfereGraph V} {s s' : BriggsAllocator V} {dest src v : V}
  {l : NodeList}

/-- What holds once the allocator is set up on the graph `g`: merged nodes are aliases,
no edge of `g` was lost, and no colour was handed out yet. -/
structure Prepared (g : InterfereGraph V) (s : BriggsAllocator V) : Prop where
  core : s.Core
  tracked : s.Tracked s.Live
  gone : ∀ v, s.nodes.place v = some .coalesced → s.graph.aliases v ≠ v
  keys : s.graph.keys = g.keys
  color : ∀ v, (s.graph.node v).color = (g.node v).color
  grown : ∀ u v, v ∈ (g.node u).interfere → v ∈ (s.graph.node u).interfere
  colors : ∀ v ∈ g.keys, s.colors v = (g.node v).color
  spilled : s.spilled = []

/-- What holds between the rounds of the main loop. -/
structure Inv (g : InterfereGraph V) (s : BriggsAllocator V) : Prop extends Prepared g s where
  started : ∀ v, s.nodes.place v ≠ some .initial

theorem Prepared.keeps (h : s.Prepared g) (hk : s.Keeps s') : s'.Prepared g where
  core := h.core.keeps hk
  tracked := h.tracked.keeps_live hk
  gone := fun v hv => by
    rw [hk.graph.aliases]
    exact h.gone v ((hk.place.place_iff id).1 hv)
  keys := hk.graph.keys.trans h.keys
  color := fun v => (hk.graph.color v).trans (h.color v)
  grown := fun u v hv => by
    rw [hk.edges]
    exact h.grown u v hv
  colors := by
    rw [hk.colors]
    exact h.colors
  spilled := hk.spilled.trans h.spilled

theorem Inv.keeps (h : s.Inv g) (hk : s.Keeps s') : s'.Inv g :=
  ⟨h.toPrepared.keeps hk, fun v hv => h.started v (hk.place.initial hv)⟩

theorem Core.sameEdges (hs : s.Core) (h : SameEdges s.graph s'.graph)
    (hn : s'.nodes = s.nodes) (hm : s'.moves.Coherent) : s'.Core where
  nodes := hn ▸ hs.nodes
  moves := hm
  nodup := h.keys ▸ hs.nodup
  needs := by
    rw [h.keys, h.needRegister]
    exact hs.needs
  placed := by
    rw [h.keys, hn]
    exact hs.placed
  forest := h.aliasForest hs.forest
  edges := by
    refine ⟨fun u v => ?_, fun u => ?_, fun u v => ?_, fun u v => ?_⟩
    · rw [h.interfere, h.interfere]
      exact hs.edges.symm u v
    · rw [h.interfere]
      exact hs.edges.irrefl u
    · rw [h.interfere, h.keys]
      exact hs.edges.mem u v
    · rw [h.interfere, h.interfere, h.aliasOf, h.aliasOf]
      exact hs.edges.closed u v
  pinned := fun v hv => by
    rw [h.color, hn]
    exact hs.pinned v (h.keys ▸ hv)
  root := fun v hv => by
    rw [h.aliases]
    refine hs.root v ?_
    unfold Live at hv ⊢
    rw [← hn]
    exact hv
  phase := by
    rw [hn]
    exact hs.phase

/-- The merged node leaves its worklist for good. -/
theorem relocateNode_coalesced (hs : s.Core) (hv : s.nodes.place src = some l)
    (hl : l.Working) :
    Yields (s.relocateNode src .coalesced) fun s' => s'.Core ∧ s'.graph = s.graph ∧
      s'.moves = s.moves ∧ s'.colors = s.colors ∧ s'.spilled = s.spilled ∧
      s'.nodes.place = Function.update s.nodes.place src (some .coalesced) := by
  obtain ⟨w, hw, hcoh, hplace⟩ := relocateNode_spec hs hv .coalesced
  have hlive : ∀ v, Live { s with nodes := w } v → s.Live v := fun v h => by
    obtain ⟨k, hk, hne⟩ := h
    have hk' : w.place v = some k := hk
    rw [hplace, Function.update_apply] at hk'
    by_cases hvs : v = src
    · rw [if_pos hvs] at hk'
      cases hk'
      exact absurd rfl hne
    · rw [if_neg hvs] at hk'
      exact ⟨k, hk', hne⟩
  refine ⟨_, hw, ⟨hcoh, hs.moves, hs.nodup, hs.needs, fun v => ?_, hs.forest, hs.edges,
    fun v hk => ?_, fun v h => hs.root v (hlive v h), fun v k hk => ?_⟩, rfl, rfl, rfl, rfl, hplace⟩
  · show (w.place v).isSome ↔ _
    rw [hplace, ← hs.placed v, Function.update_apply]
    by_cases hvs : v = src
    · simp [hvs, hv]
    · simp [hvs]
  · show w.place v = _ ↔ _
    rw [hplace, ← hs.pinned v hk, Function.update_apply]
    by_cases hvs : v = src
    · rw [if_pos hvs, hvs, hv]
      refine iff_of_false (by simp) ?_
      rintro ⟨⟩
      exact hl
    · rw [if_neg hvs]
  · have hk' : w.place v = some k := hk
    rw [hplace, Function.update_apply] at hk'
    by_cases hvs : v = src
    · rw [if_pos hvs] at hk'
      cases hk'
      simp
    · rw [if_neg hvs] at hk'
      exact hs.phase v k hk'

/-- The last lines of `merge`: the merged node becomes an alias. -/
theorem EdgesMerged.setAlias {t : BriggsAllocator V} (hm : t.Inheriting dest src)
    (h : t.EdgesMerged dest src [] s') (hsrc : t.nodes.place src = some .coalesced)
    (hdest : t.Live dest)
    (hgone : ∀ v ≠ src, t.nodes.place v = some .coalesced → t.graph.aliases v ≠ v)
    (hstarted : ∀ v, t.nodes.place v ≠ some .initial)
    (hkeys : t.graph.keys = g.keys) (hcolor : ∀ v, (t.graph.node v).color = (g.node v).color)
    (hgrown : ∀ u v, v ∈ (g.node u).interfere → v ∈ (t.graph.node u).interfere)
    (hcolors : ∀ v ∈ g.keys, t.colors v = (g.node v).color) (hspilled : t.spilled = []) :
    Inv g { s' with graph := s'.graph.setAlias dest src } ∧ s'.Live dest := by
  have hd : s'.graph.aliases dest = dest := by rw [h.graph.aliases, hm.dest_root]
  have hr : s'.graph.aliases src = src := by rw [h.graph.aliases, hm.src_root]
  have hdk : dest ∈ s'.graph.keys := h.graph.keys ▸ hm.dest_mem
  have hsk : src ∈ s'.graph.keys := h.graph.keys ▸ hm.src_mem
  have hno : ¬s'.Live src := by
    rintro ⟨k, hk, hne⟩
    have hk' := (h.place.place_iff (l := .coalesced) id).2 hsrc
    rw [hk] at hk'
    cases hk'
    exact hne rfl
  have halias : ∀ v ≠ src, (s'.graph.setAlias dest src).aliases v = s'.graph.aliases v :=
    fun v hv => Function.update_of_ne hv ..
  have hcore : Core { s' with graph := s'.graph.setAlias dest src } :=
    { h.core with
      forest := h.core.forest.setAlias h.core.nodup hsk hdk hr hd hm.ne.symm
      edges := h.core.edges.setAlias h.core.forest h.core.nodup hsk hr hd hm.ne.symm
        fun v hv => h.moved v (h.kept ▸ hv) (by simp)
      root := fun v hv => by
        have hvs : v ≠ src := fun h' => hno (h' ▸ hv)
        exact (halias v hvs).trans (h.core.root v hv) }
  refine ⟨⟨⟨hcore, ⟨h.tracked.partner, h.tracked.place⟩, fun v hv => ?_,
    h.graph.keys.trans hkeys, fun v => (h.graph.color v).trans (hcolor v),
    fun u v hv => h.grown u v (hgrown u v hv), ?_, h.spilled.trans hspilled⟩, fun v hv => ?_⟩,
    h.place.live_iff.2 hdest⟩
  · by_cases hvs : v = src
    · rw [hvs]
      show Function.update s'.graph.aliases src dest src ≠ src
      rw [Function.update_self]
      exact hm.ne
    · rw [halias v hvs, h.graph.aliases]
      exact hgone v hvs ((h.place.place_iff id).1 hv)
  · show ∀ v ∈ g.keys, s'.colors v = _
    rw [h.colors]
    exact hcolors
  · exact hstarted v (h.place.initial hv)

/-- Nodes that do not interfere and have no common move partner can be merged: the
invariant holds again, and one node less is left. -/
theorem merge_spec (hi : s.Inv g) (hdest : s.Live dest) (hsrc : s.nodes.place src = some l)
    (hl : l.Working) (hne : dest ≠ src) (hapart : dest ∉ (s.graph.node src).interfere)
    (hdisj : ∀ m ∈ (s.graph.node src).move, m ∉ (s.graph.node dest).move) :
    Yields (s.merge dest src) fun s' => s'.Inv g ∧ s'.Live dest ∧
      ∀ v, s'.nodes.place v = some .coalesced ↔ v = src ∨ s.nodes.place v = some .coalesced := by
  have hs := hi.core
  have hsl : s.Live src := ⟨l, hsrc, fun h => by subst h; exact hl⟩
  have hdk := hs.live_mem hdest
  have hsk := hs.live_mem hsl
  unfold merge
  refine (relocateNode_coalesced hs hsrc hl).bind
    fun s₁ ⟨hs₁, hg₁, hm₁, hc₁, hsp₁, hplace₁⟩ => ?_
  have hk₁ : src ∈ s₁.graph.keys := hg₁ ▸ hsk
  have hr₁ : s₁.graph.aliases src = src := hg₁ ▸ hs.root src hsl
  have ht₁ : s₁.Tracked s.Live := by
    obtain ⟨hpart, hplace⟩ := hi.tracked
    exact ⟨by rw [hg₁]; exact hpart, by rw [hg₁, hm₁]; exact hplace⟩
  refine (enableMoves_quiet hs₁ ht₁ hsl hk₁ hr₁).bind fun s₂ h₂ => ?_
  have hs₂ := hs₁.keeps h₂.toKeeps
  have hmerge : s₂.Mergeable s.Live dest src := by
    refine ⟨hs₂.forest, ht₁.keeps h₂.toKeeps, fun v hv => ?_, hdest, hsl, hne, fun m hm => ?_⟩
    · rw [h₂.graph.keys, h₂.graph.aliases, hg₁]
      exact ⟨hs.live_mem hv, hs.root v hv⟩
    · rw [h₂.graph.move, hg₁] at hm ⊢
      exact hdisj m hm
  refine (mergeMoves_loop hmerge hs₂.moves hs₂.nodup).bind fun s₃ h₃ => ?_
  rw [h₃.get hmerge hsl]
  have ht₄ := h₃.tracked hmerge
  have hsame := h₃.graph.trans (sameEdges_modifyMove (s := s₃) (v := dest)
    fun l => ((l ∪ (s₃.graph.node src).move).erase dest).erase src)
  have hs₄ := hs₂.sameEdges hsame h₃.nodes h₃.moves
  have hcol₄ : (s₃.modifyMove dest fun l =>
      ((l ∪ (s₃.graph.node src).move).erase dest).erase src).colors = s₂.colors := h₃.colors
  have hsp₄ : (s₃.modifyMove dest fun l =>
      ((l ∪ (s₃.graph.node src).move).erase dest).erase src).spilled = s₂.spilled := h₃.spilled
  have hn₄ : (s₃.modifyMove dest fun l =>
      ((l ∪ (s₃.graph.node src).move).erase dest).erase src).nodes = s₂.nodes := h₃.nodes
  show Yields (do
    let s ← (s₃.modifyMove dest fun l =>
      ((l ∪ (s₃.graph.node src).move).erase dest).erase src).graph.keys.foldlM
        (mergeEdge dest src) (s₃.modifyMove dest fun l =>
          ((l ∪ (s₃.graph.node src).move).erase dest).erase src)
    _) _
  generalize (s₃.modifyMove dest fun l =>
    ((l ∪ (s₃.graph.node src).move).erase dest).erase src) = s₄ at *
  -- the nodes of `s₄` are those of `s`, but for `src`
  have hwander : Wander s₁.nodes s₄.nodes := hn₄ ▸ h₂.place
  have hlive₄ : ∀ v, s₄.Live v ↔ s.Live v ∧ v ≠ src := fun v => by
    rw [hwander.live_iff, live_iff, live_iff, hplace₁, Function.update_apply]
    by_cases hv : v = src
    · simp [hv]
    · simp [hv]
  have hplace₄ : ∀ v, s₄.nodes.place v = some .coalesced ↔
      v = src ∨ s.nodes.place v = some .coalesced := fun v => by
    rw [hwander.place_iff (l := .coalesced) id, hplace₁, Function.update_apply]
    by_cases hv : v = src
    · simp [hv]
    · simp [hv]
  have hinh : s₄.Inheriting dest src := by
    refine ⟨?_, ?_, ?_, ?_, hne, ?_⟩
    · rw [hsame.keys, h₂.graph.keys, hg₁]
      exact hdk
    · rw [hsame.keys, h₂.graph.keys, hg₁]
      exact hsk
    · rw [hsame.aliases, h₂.graph.aliases, hg₁]
      exact hs.root dest hdest
    · rw [hsame.aliases, h₂.graph.aliases, hg₁]
      exact hs.root src hsl
    · rw [hsame.interfere, h₂.edges, hg₁]
      exact hapart
  refine (mergeEdges_loop hinh hs₄ (ht₄.congr hlive₄)).bind fun s₅ h₅ => ?_
  have hdest₅ : s₅.Live dest := h₅.place.live_iff.2 ((hlive₄ dest).2 ⟨hdest, hne⟩)
  have hlast : ∀ s₆, s₄.EdgesMerged dest src [] s₆ →
      Yields (pure { s₆ with graph := s₆.graph.setAlias dest src } : Except LookupFault _)
        fun s' : BriggsAllocator V => s'.Inv g ∧ s'.Live dest ∧
          ∀ v, s'.nodes.place v = some .coalesced ↔
            v = src ∨ s.nodes.place v = some .coalesced := by
    intro s₆ h₆
    have hfinal := h₆.setAlias (g := g) hinh ((hplace₄ src).2 (Or.inl rfl))
      ((hlive₄ dest).2 ⟨hdest, hne⟩) ?_ ?_ ?_ ?_ ?_ ?_ ?_
    · refine .pure ⟨hfinal.1, hfinal.2, fun v => ?_⟩
      rw [← hplace₄]
      exact h₆.place.place_iff id
    · intro v hv hco
      rw [hsame.aliases, h₂.graph.aliases, hg₁]
      exact hi.gone v (((hplace₄ v).1 hco).resolve_left hv)
    · intro v hv
      have hv₁ := hwander.initial hv
      rw [hplace₁, Function.update_apply] at hv₁
      by_cases hvs : v = src
      · rw [if_pos hvs] at hv₁
        cases hv₁
      · rw [if_neg hvs] at hv₁
        exact hi.started v hv₁
    · rw [hsame.keys, h₂.graph.keys, hg₁]
      exact hi.keys
    · intro v
      rw [hsame.color, h₂.graph.color, hg₁]
      exact hi.color v
    · intro u v hv
      rw [hsame.interfere, h₂.edges, hg₁]
      exact hi.grown u v hv
    · rw [hcol₄, h₂.colors, hc₁]
      exact hi.colors
    · rw [hsp₄, h₂.spilled, hsp₁]
      exact hi.spilled
  rw [InterfereGraph.get_of_mem h₅.core.forest (h₅.core.live_mem hdest₅)]
  obtain ⟨p, hp, _⟩ := id hdest₅
  rw [Worklists.listAt_eq hp]
  show Yields (if s₅.graph.maxColor ≤ _ ∧ p = .freeze then _ else _) _
  split
  · rename_i hcond
    have hfreeze : s₅.nodes.place dest = some .freeze := hcond.2 ▸ hp
    exact ((relocateNode_keeps h₅.core hfreeze .toSpill trivial trivial
      (by simp)).mono fun t ht => h₅.keeps ht.1).bind hlast
  · exact (Yields.pure h₅).bind hlast

end Merge

end BriggsAllocator

end Lowering

end Cact
