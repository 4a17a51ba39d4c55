import Cact.Lowering.ColorizeMerge

/-!
# The main loop

Every round makes progress: it merges two nodes, or settles a move, or puts a node on the
stack, or makes a node simple, or lets a move wait. The first of these that happens
outweighs what it may undo of the later ones, whatever the degrees are.

- `rank`: the five counts, the heaviest first.
- `Skips`: a round that merges two nodes with a move partner in common.
- `step_spec`: a round that does not skip keeps the invariant and lowers the rank.
-/

namespace Cact

namespace Lowering

namespace BriggsAllocator

variable {V : Type} [LinearOrder V]

/-! ## The rank of a state -/

/-- The nodes that are not in the list `l`. -/
def outside (s : BriggsAllocator V) (l : NodeList) : Nat :=
  (s.graph.keys.toFinset.filter fun v => s.nodes.place v ≠ some l).card

open Classical in
/-- The moves with the property `p`. -/
noncomputable def countMoves (s : BriggsAllocator V) (p : V × V → Prop) : Nat :=
  ((s.graph.keys.toFinset ×ˢ s.graph.keys.toFinset).filter p).card

/-- Nodes that are left, pending moves, nodes off the stack, nodes that are not simple,
and ready moves. -/
noncomputable def rank (s : BriggsAllocator V) : ℕ ×ₗ ℕ ×ₗ ℕ ×ₗ ℕ ×ₗ ℕ :=
  toLex (s.outside .coalesced, toLex (s.countMoves s.Pending, toLex (s.outside .selectStack,
    toLex (s.outside .simplify, s.countMoves fun m => s.moves.place m = some .ready))))

section Rank

variable {s s' : BriggsAllocator V} {v : V} {l : NodeList}

theorem outside_le (hk : s'.graph.keys = s.graph.keys)
    (h : ∀ v, s.nodes.place v = some l → s'.nodes.place v = some l) :
    s'.outside l ≤ s.outside l := by
  unfold outside
  rw [hk]
  exact Finset.card_le_card (Finset.monotone_filter_right _ fun v _ hv hp => hv (h v hp))

theorem outside_lt (hk : s'.graph.keys = s.graph.keys)
    (h : ∀ v, s.nodes.place v = some l → s'.nodes.place v = some l)
    (hv : v ∈ s.graph.keys) (hold : s.nodes.place v ≠ some l) (hnew : s'.nodes.place v = some l) :
    s'.outside l < s.outside l := by
  unfold outside
  rw [hk]
  refine Finset.card_lt_card ((Finset.ssubset_iff_of_subset
    (Finset.monotone_filter_right _ fun v _ hv hp => hv (h v hp))).2 ⟨v, ?_, ?_⟩)
  · simp [hv, hold]
  · simp [hnew]

theorem countMoves_le {p q : V × V → Prop} (hk : s'.graph.keys = s.graph.keys)
    (h : ∀ m, p m → q m) : s'.countMoves p ≤ s.countMoves q := by
  classical
  unfold countMoves
  rw [hk]
  exact Finset.card_le_card (Finset.monotone_filter_right _ fun m _ hm => h m hm)

theorem countMoves_lt {p q : V × V → Prop} {m : V × V} (hk : s'.graph.keys = s.graph.keys)
    (h : ∀ m, p m → q m) (hm₁ : m.1 ∈ s.graph.keys) (hm₂ : m.2 ∈ s.graph.keys) (hq : q m)
    (hp : ¬p m) : s'.countMoves p < s.countMoves q := by
  classical
  unfold countMoves
  rw [hk]
  refine Finset.card_lt_card ((Finset.ssubset_iff_of_subset
    (Finset.monotone_filter_right _ fun m _ hm => h m hm)).2 ⟨m, ?_, ?_⟩)
  · simp [hm₁, hm₂, hq]
  · simp [hp]

theorem rank_lt_of_merged (hk : s'.graph.keys = s.graph.keys)
    (h : ∀ v, s.nodes.place v = some .coalesced → s'.nodes.place v = some .coalesced)
    (hv : v ∈ s.graph.keys) (hold : s.nodes.place v ≠ some .coalesced)
    (hnew : s'.nodes.place v = some .coalesced) : s'.rank < s.rank :=
  Prod.Lex.toLex_lt_toLex.2 (Or.inl (outside_lt hk h hv hold hnew))

theorem Keeps.outside_coalesced (h : s.Keeps s') : s'.outside .coalesced ≤ s.outside .coalesced :=
  outside_le h.graph.keys fun _ hv => (h.place.place_iff id).2 hv

theorem rank_lt_of_settled {m : V × V} (h : s.Keeps s') (hm₁ : m.1 ∈ s.graph.keys)
    (hm₂ : m.2 ∈ s.graph.keys) (hold : s.Pending m) (hnew : ¬s'.Pending m) :
    s'.rank < s.rank := by
  refine Prod.Lex.toLex_lt_toLex'.2 ⟨h.outside_coalesced, fun _ => ?_⟩
  exact Prod.Lex.toLex_lt_toLex.2
    (Or.inl (countMoves_lt h.graph.keys h.pending hm₁ hm₂ hold hnew))

theorem rank_lt_of_stacked (h : s.Keeps s')
    (hstack : ∀ v, s.nodes.place v = some .selectStack → s'.nodes.place v = some .selectStack)
    (hv : v ∈ s.graph.keys) (hold : s.nodes.place v ≠ some .selectStack)
    (hnew : s'.nodes.place v = some .selectStack) : s'.rank < s.rank := by
  refine Prod.Lex.toLex_lt_toLex'.2 ⟨h.outside_coalesced, fun _ => ?_⟩
  refine Prod.Lex.toLex_lt_toLex'.2 ⟨countMoves_le h.graph.keys h.pending, fun _ => ?_⟩
  exact Prod.Lex.toLex_lt_toLex.2 (Or.inl (outside_lt h.graph.keys hstack hv hold hnew))

theorem rank_lt_of_simple (h : s.Quiet s')
    (hsimple : ∀ v, s.nodes.place v = some .simplify → s'.nodes.place v = some .simplify)
    (hv : v ∈ s.graph.keys) (hold : s.nodes.place v ≠ some .simplify)
    (hnew : s'.nodes.place v = some .simplify) : s'.rank < s.rank := by
  refine Prod.Lex.toLex_lt_toLex'.2 ⟨h.outside_coalesced, fun _ => ?_⟩
  refine Prod.Lex.toLex_lt_toLex'.2 ⟨countMoves_le h.graph.keys h.pending, fun _ => ?_⟩
  refine Prod.Lex.toLex_lt_toLex'.2 ⟨outside_le h.graph.keys fun v => (h.stack v).2, fun _ => ?_⟩
  exact Prod.Lex.toLex_lt_toLex.2 (Or.inl (outside_lt h.graph.keys hsimple hv hold hnew))

theorem rank_lt_of_waiting {m : V × V} (h : s.Quiet s') (hn : s'.nodes = s.nodes)
    (hready : ∀ m, s'.moves.place m = some .ready → s.moves.place m = some .ready)
    (hm₁ : m.1 ∈ s.graph.keys) (hm₂ : m.2 ∈ s.graph.keys)
    (hold : s.moves.place m = some .ready) (hnew : s'.moves.place m ≠ some .ready) :
    s'.rank < s.rank := by
  refine Prod.Lex.toLex_lt_toLex'.2 ⟨h.outside_coalesced, fun _ => ?_⟩
  refine Prod.Lex.toLex_lt_toLex'.2 ⟨countMoves_le h.graph.keys h.pending, fun _ => ?_⟩
  refine Prod.Lex.toLex_lt_toLex'.2 ⟨outside_le h.graph.keys fun v => (h.stack v).2, fun _ => ?_⟩
  refine Prod.Lex.toLex_lt_toLex'.2 ⟨outside_le h.graph.keys (by simp [hn]), fun _ => ?_⟩
  exact countMoves_lt h.graph.keys hready hm₁ hm₂ hold hnew

end Rank

/-! ## The rounds -/

section Rounds

variable {g : InterfereGraph V} {s s' : BriggsAllocator V} {v x y : V} {l : NodeList}

/-- What a round has to achieve. -/
def Progress (g : InterfereGraph V) (s s' : BriggsAllocator V) : Prop :=
  s'.Inv g ∧ s'.rank < s.rank

theorem exists_front {L T : Type} {w : Worklists L T} (hw : w.Coherent) {k : L}
    (h : (w.values k).isEmpty = false) : ∃ t, w.front k = .ok t ∧ w.place t = some k := by
  cases hv : w.values k with
  | nil => simp [hv] at h
  | cons t ts => exact ⟨t, Worklists.front_eq hv, Worklists.place_of_values_cons hw hv⟩

theorem simplify_spec (hi : s.Inv g) (hne : (s.nodes.values .simplify).isEmpty = false) :
    Yields s.simplify (s.Progress g) := by
  have hs := hi.core
  obtain ⟨n, hn, hplace⟩ := exists_front hs.nodes hne
  have hlive : s.Live n := ⟨_, hplace, by simp⟩
  unfold simplify
  rw [hn]
  refine (relocateNode_keeps hs hplace .selectStack trivial trivial (by simp)).bind
    fun s₁ ⟨h₁, _, hp₁⟩ => ?_
  have hs₁ := hs.keeps h₁
  refine (adjacent_spec hs₁ (hs₁.live_mem (h₁.live_iff.2 hlive))).bind fun as has => ?_
  have hfold : Yields (as.foldlM decrementDegree s₁) s₁.Quiet := by
    refine Yields.foldlM_inv (fun a ha t ht => ?_) hs₁.quiet_refl
    obtain ⟨p, hp, hpc, hps⟩ := has a ha
    have hlive₁ : s₁.Live a := ⟨p, hp, hpc⟩
    obtain ⟨q, hq, hqc⟩ := ht.live_iff.2 hlive₁
    have hqs : q ≠ .selectStack := fun h => by
      rw [h, ht.stack, hp] at hq
      cases hq
      exact hps rfl
    exact (decrementDegree_quiet (hs₁.keeps ht.toKeeps)
      ((hi.tracked.keeps_live h₁).keeps_live ht.toKeeps) hq hqc hqs).mono
        fun _ h => ht.trans h
  refine hfold.mono fun s₂ h₂ => ?_
  have hkeeps := h₁.trans h₂.toKeeps
  refine ⟨hi.keeps hkeeps, rank_lt_of_stacked hkeeps (fun v hv => ?_) (hs.live_mem hlive)
    (by simp [hplace]) ?_⟩
  · rw [h₂.stack, hp₁, Function.update_apply]
    split
    · rfl
    · exact hv
  · rw [h₂.stack, hp₁, Function.update_self]

/-- `freeze` and `spill` alike: the node becomes simple and its moves are given up. -/
theorem toSimplify_spec (hi : s.Inv g) (hv : s.nodes.place v = some l) (hl : l.Working)
    (hns : l ≠ .simplify) (hne : l ≠ .selectStack) :
    Yields (do
      let s ← s.relocateNode v .simplify
      s.freezeMoves v) (s.Progress g) := by
  have hs := hi.core
  have hlive : s.Live v := ⟨l, hv, fun h => by subst h; exact hl⟩
  obtain ⟨s₁, hok, h₁, hm₁, hp₁⟩ := relocateNode_keeps hs hv .simplify hl trivial (by simp)
  obtain ⟨t, hok', hq₁⟩ := relocateNode_quiet hs hv .simplify hl trivial (by simp) hne (by simp)
  obtain rfl : s₁ = t := by
    rw [hok] at hok'
    cases hok'
    rfl
  have hs₁ := hs.keeps h₁
  rw [hok]
  refine (freezeMoves_quiet hs₁ (hi.tracked.keeps_live h₁) (h₁.live_iff.2 hlive)).mono
    fun s₂ ⟨h₂, hcase⟩ => ?_
  have hquiet := hq₁.trans h₂
  refine ⟨hi.keeps hquiet.toKeeps, ?_⟩
  rcases hcase with rfl | ⟨m, hm, hmove, hpend, hno⟩
  · refine rank_lt_of_simple hq₁ (fun u hu => ?_) (hs.live_mem hlive) ?_ ?_
    · rw [hp₁, Function.update_apply]
      split
      · rfl
      · exact hu
    · rw [hv]
      simp [hns]
    · rw [hp₁, Function.update_self]
  · have hm' := h₁.live_iff.1 hm
    rw [h₁.graph.move] at hmove
    exact rank_lt_of_settled hquiet.toKeeps (hs.live_mem hm')
      (hs.live_mem (hi.tracked.partner _ _ hm' hmove).1) (h₁.pending m hpend) hno

theorem freeze_spec (hi : s.Inv g) (hne : (s.nodes.values .freeze).isEmpty = false) :
    Yields s.freeze (s.Progress g) := by
  obtain ⟨f, hf, hplace⟩ := exists_front hi.core.nodes hne
  unfold freeze
  rw [hf]
  exact toSimplify_spec hi hplace trivial (by simp) (by simp)

theorem foldl_mem {α : Type} (f : α → α → α) (hf : ∀ a b, f a b = a ∨ f a b = b) (l : List α)
    (a : α) : l.foldl f a = a ∨ l.foldl f a ∈ l := by
  induction l generalizing a with
  | nil => exact Or.inl rfl
  | cons b l ih =>
    rw [List.foldl_cons]
    rcases ih (f a b) with h | h
    · rw [h]
      rcases hf a b with h' | h'
      · exact Or.inl h'
      · exact Or.inr (by simp [h'])
    · exact Or.inr (by simp [h])

theorem spill_spec (hi : s.Inv g) (hne : (s.nodes.values .toSpill).isEmpty = false) :
    Yields s.spill (s.Progress g) := by
  obtain ⟨f, hf, hplace⟩ := exists_front hi.core.nodes hne
  unfold spill
  rw [hf]
  -- the candidate is one of the list, whatever the priorities are
  have hmem := foldl_mem (fun m n =>
    if s.graph.lessPriority (s.quotient n) (s.quotient m) then n else m)
    (fun m n => by split <;> simp) (s.nodes.values .toSpill) f
  have hcand : s.nodes.place ((s.nodes.values .toSpill).foldl (fun m n =>
      if s.graph.lessPriority (s.quotient n) (s.quotient m) then n else m) f) =
      some .toSpill := by
    rcases hmem with h | h
    · rw [h]
      exact hplace
    · exact (Worklists.mem_values hi.core.nodes).1 h
  exact toSimplify_spec hi hcand trivial (by simp) (by simp)

/-! ## Coalescing -/

omit [LinearOrder V] in
theorem not_pending {m : V × V} {k : MoveList} (h : s.moves.place m = some k)
    (hk : ¬k.Pending) : ¬s.Pending m := by
  rintro ⟨k', h', hp⟩
  rw [h] at h'
  cases h'
  exact hk hp


/-- The next round merges `y` into `x`. -/
def Merges (s : BriggsAllocator V) (x y : V) : Prop :=
  (s.nodes.values .simplify).isEmpty = true ∧ ∃ mov, s.moves.front .ready = .ok mov ∧
    s.ends mov = .ok (x, y) ∧ s.coalesceCase x y = .ok .mergable

/-- The next round merges two nodes with a move partner in common: the round in which
`merge` skips a partner. -/
def Skips (s : BriggsAllocator V) : Prop :=
  ∃ x y, s.Merges x y ∧ ∃ m, m ∈ (s.graph.node x).move ∧ m ∈ (s.graph.node y).move

/-- `Skips`, computed. -/
def skips (s : BriggsAllocator V) : Bool :=
  match s.moves.front .ready with
  | .error _ => false
  | .ok mov => match s.ends mov with
    | .error _ => false
    | .ok (x, y) => (s.nodes.values .simplify).isEmpty &&
        (s.coalesceCase x y).toOption = some .mergable &&
        decide (∃ m ∈ (s.graph.node x).move, m ∈ (s.graph.node y).move)

theorem not_skips (h : s.skips = false) : ¬s.Skips := by
  rintro ⟨x, y, ⟨hsimple, mov, hmov, hxy, hc⟩, m, hx, hy⟩
  unfold skips at h
  rw [hmov] at h
  dsimp only at h
  rw [hxy] at h
  dsimp only at h
  rw [hc, hsimple] at h
  simp only [Except.toOption, decide_true, Bool.true_and, decide_eq_false_iff_not] at h
  exact h ⟨m, hx, hy⟩

theorem interferes_eq (hs : s.Core) (hx : s.Live x) (hy : s.Live y) (hne : x ≠ y) :
    s.graph.interferes x y = .ok (decide (y ∈ (s.graph.node x).interfere)) := by
  unfold InterfereGraph.interferes
  dsimp only
  rw [hs.aliasOf_live hx, hs.aliasOf_live hy, InterfereGraph.nodeAt_of_mem (hs.live_mem hx),
    InterfereGraph.nodeAt_of_mem (hs.live_mem hy)]
  simp only [if_neg hne]
  rfl

theorem interferes_yields (hs : s.Core) (hx : x ∈ s.graph.keys) (hy : y ∈ s.graph.keys) :
    Yields (s.graph.interferes x y) fun _ => True := by
  unfold InterfereGraph.interferes
  dsimp only
  rw [InterfereGraph.nodeAt_of_mem (hs.forest.aliasOf_mem hx),
    InterfereGraph.nodeAt_of_mem (hs.forest.aliasOf_mem hy)]
  show Yields (if _ = _ then _ else _) _
  split
  · exact .pure trivial
  · exact .pure trivial

theorem mergable_yields (hs : s.Core) (hx : x ∈ s.graph.keys) (hy : y ∈ s.graph.keys) :
    Yields (s.graph.mergable x y) fun _ => True := by
  have hx' := hs.forest.aliasOf_mem hx
  have hy' := hs.forest.aliasOf_mem hy
  unfold InterfereGraph.mergable
  show Yields (if _ = _ then _ else _) _
  split
  · exact .pure trivial
  rw [InterfereGraph.nodeAt_of_mem hx', InterfereGraph.nodeAt_of_mem hy']
  show Yields (if _ then _ else _) _
  split
  · exact .pure trivial
  refine (interferes_yields hs hx' hy').bind fun b _ => ?_
  cases b with
  | true => exact .pure trivial
  | false =>
    have hgeorge : Yields ((s.graph.inOrder (s.graph.node (s.graph.aliasOf y)).interfere).allM
        fun neighbor => do
          if (← s.graph.nodeAt neighbor).degree < s.graph.maxColor then return true
          s.graph.interferes (s.graph.aliasOf x) neighbor) fun _ => True := by
      refine Yields.allM fun n hn => ?_
      have hk := (InterfereGraph.mem_inOrder.1 hn).1
      rw [InterfereGraph.nodeAt_of_mem hk]
      show Yields (if _ then _ else _) _
      split
      · exact .pure trivial
      · exact interferes_yields hs hx' hk
    refine hgeorge.bind fun b _ => ?_
    have hbriggs := Yields.filterM (ε := LookupFault)
      (l := s.graph.inOrder
        (s.graph.mergePreview (s.graph.aliasOf x) (s.graph.aliasOf y)).interfere)
      (p := fun neighbor => do
        return decide (s.graph.maxColor ≤ (← s.graph.nodeAt neighbor).degree))
      (q := fun n => decide (s.graph.maxColor ≤ (s.graph.node n).degree)) fun n hn => by
        rw [InterfereGraph.nodeAt_of_mem (InterfereGraph.mem_inOrder.1 hn).1]
        rfl
    have hcount : Yields _ fun _ => True := ⟨_, hbriggs, trivial⟩
    exact hcount.bind fun _ _ => .pure trivial

/-- What the conditions of `coalesce` say about two different nodes. -/
theorem coalesceCase_spec (hs : s.Core) (hx : s.Live x) (hy : s.Live y) (hne : x ≠ y) :
    Yields (s.coalesceCase x y) fun c => c ≠ .same ∧
      (c = .mergable → s.nodes.place y ≠ some .precolored ∧ x ∉ (s.graph.node y).interfere) := by
  obtain ⟨p, hp, _⟩ := id hy
  unfold coalesceCase
  rw [Worklists.listAt_eq hp, interferes_eq hs hx hy hne]
  show Yields (if x = y then _ else _) _
  rw [if_neg hne]
  show Yields (if p = .precolored then _ else _) _
  by_cases hpre : p = .precolored
  · rw [if_pos hpre]
    exact .pure (by simp)
  rw [if_neg hpre]
  show Yields (if decide _ = true then _ else _) _
  by_cases hint : y ∈ (s.graph.node x).interfere
  · simp only [hint, decide_true, if_true]
    exact .pure (by simp)
  simp only [hint, decide_false]
  refine (mergable_yields hs (hs.live_mem hx) (hs.live_mem hy)).bind fun b _ => ?_
  cases b with
  | true =>
    refine .pure ⟨by simp, fun _ => ⟨?_, fun h => hint (hs.edges.symm _ _ h)⟩⟩
    rw [hp]
    simpa using hpre
  | false => exact .pure (by simp)

theorem coalesce_spec (hi : s.Inv g) (hsimple : (s.nodes.values .simplify).isEmpty = true)
    (hne : (s.moves.values .ready).isEmpty = false) (hskip : ¬s.Skips) :
    Yields s.coalesce (s.Progress g) := by
  have hs := hi.core
  obtain ⟨mov, hmov, hplace⟩ := exists_front hs.moves hne
  obtain ⟨hl₁, hmove⟩ := (hi.tracked.place mov.1 mov.2).1 (by simp [hplace])
  obtain ⟨hl₂, hmove', hdiff⟩ := hi.tracked.partner _ _ hl₁ hmove
  have hk₁ := hs.live_mem hl₁
  have hk₂ := hs.live_mem hl₂
  have hpend : s.Pending mov := ⟨_, hplace, trivial⟩
  obtain ⟨p, hp, _⟩ := id hl₂
  -- both ends are live, so the move is between the two nodes themselves
  have hends : ∃ x y, s.ends mov = .ok (x, y) ∧ s.Live x ∧ s.Live y ∧ x ≠ y := by
    unfold ends
    dsimp only
    rw [hs.aliasOf_live hl₁, hs.aliasOf_live hl₂, Worklists.listAt_eq hp]
    by_cases hpre : p = .precolored
    · exact ⟨mov.2, mov.1, by simp [hpre, bind, Except.bind, pure, Except.pure], hl₂, hl₁,
        hdiff.symm⟩
    · exact ⟨mov.1, mov.2, by simp [hpre, bind, Except.bind, pure, Except.pure], hl₁, hl₂, hdiff⟩
  obtain ⟨x, y, hxy, hx, hy, hne'⟩ := hends
  obtain ⟨c, hc, hsame, hmerg⟩ := coalesceCase_spec hs hx hy hne'
  unfold coalesce
  rw [hmov]
  show Yields (s.ends mov >>= _) _
  rw [hxy]
  show Yields (s.coalesceCase x y >>= _) _
  rw [hc]
  cases c with
  | same => exact absurd rfl hsame
  | constrained =>
    refine (relocateMove_quiet hs hplace .constrained fun h => h.elim).bind
      fun s₁ ⟨h₁, hp₁, _, _⟩ => ?_
    have ht₁ := hi.tracked.keeps_live h₁.toKeeps
    refine (unfreeze_keeps (hs.keeps h₁.toKeeps) ht₁ (h₁.live_iff.2 hx)).bind fun s₂ h₂ => ?_
    have h₁₂ := h₁.toKeeps.trans h₂
    refine (unfreeze_keeps (hs.keeps h₁₂) (hi.tracked.keeps_live h₁₂)
      (h₁₂.live_iff.2 hy)).mono fun s₃ h₃ => ?_
    have hno : ¬s₃.Pending mov := fun h =>
      not_pending hp₁ (fun h => h) (h₂.pending mov (h₃.pending mov h))
    exact ⟨hi.keeps (h₁₂.trans h₃), rank_lt_of_settled (h₁₂.trans h₃) hk₁ hk₂ hpend hno⟩
  | mergable =>
    obtain ⟨hpre, hapart⟩ := hmerg rfl
    have hdisj : ∀ m ∈ (s.graph.node y).move, m ∉ (s.graph.node x).move := fun m hm hm' =>
      hskip ⟨x, y, ⟨hsimple, mov, hmov, hxy, hc⟩, m, hm', hm⟩
    refine (relocateMove_quiet hs hplace .coalesced fun h => h.elim).bind
      fun s₁ ⟨h₁, _, hn₁, _⟩ => ?_
    have hi₁ := hi.keeps h₁.toKeeps
    obtain ⟨q, hq, hqc⟩ := id hy
    have hq₁ : s₁.nodes.place y = some q := hn₁ ▸ hq
    have hw := hs.working hq (fun h => hpre (h ▸ hq)) hqc
    refine (merge_spec hi₁ (h₁.live_iff.2 hx) hq₁ hw hne' (by rw [h₁.edges]; exact hapart)
      (by rw [h₁.graph.move, h₁.graph.move]; exact hdisj)).bind fun s₂ ⟨hi₂, hx₂, hco⟩ => ?_
    refine (unfreeze_keeps hi₂.core hi₂.tracked hx₂).mono fun s₃ h₃ => ?_
    have hi₃ := hi₂.keeps h₃
    have hco₃ : ∀ v, s₃.nodes.place v = some .coalesced ↔
        v = y ∨ s.nodes.place v = some .coalesced := fun v => by
      rw [h₃.place.place_iff (l := .coalesced) id, hco, hn₁]
    refine ⟨hi₃, rank_lt_of_merged (hi₃.keys.trans hi.keys.symm)
      (fun v hv => (hco₃ v).2 (Or.inr hv)) (hs.live_mem hy) ?_ ((hco₃ y).2 (Or.inl rfl))⟩
    rw [hq]
    simpa using hqc
  | scheduled =>
    refine (relocateMove_quiet hs hplace .scheduled fun _ => trivial).mono
      fun s₁ ⟨h₁, hp₁, hn₁, hrest⟩ => ?_
    refine ⟨hi.keeps h₁.toKeeps, rank_lt_of_waiting h₁ hn₁ (fun m hm => ?_) hk₁ hk₂ hplace
      (by simp [hp₁])⟩
    by_cases h : m = mov
    · rw [h]
      exact hplace
    · rw [← hrest m h]
      exact hm

/-- One round of the main loop. -/
theorem step_spec (hi : s.Inv g) (hbusy : s.busy = true) (hskip : ¬s.Skips) :
    Yields s.step (s.Progress g) := by
  unfold step
  cases hsimple : (s.nodes.values .simplify).isEmpty with
  | false => exact simplify_spec hi hsimple
  | true =>
    cases hready : (s.moves.values .ready).isEmpty with
    | false => exact coalesce_spec hi hsimple hready hskip
    | true =>
      cases hfreeze : (s.nodes.values .freeze).isEmpty with
      | false => exact freeze_spec hi hfreeze
      | true =>
        cases hspill : (s.nodes.values .toSpill).isEmpty with
        | false => exact spill_spec hi hspill
        | true => simp [busy, hsimple, hready, hfreeze, hspill] at hbusy

end Rounds

end BriggsAllocator

end Lowering

end Cact
