import Cact.Lowering.ColorizeDegree
import Cact.Lowering.ColorizeLoop

/-!
# Rounds that leave the stack alone

As long as no round reaches into the select stack, the degrees cover the neighbours that
are left, and a node of the stack has less neighbours above it than there are colours,
unless it was spilled on purpose.

- `Disturbs`: a round that coalesces a move of a node on the stack.
- `Decrements`: where a round takes one from a degree.
- `Balanced`: the invariant of the rounds that do not disturb.
-/

namespace Cact

namespace Lowering

namespace BriggsAllocator

variable {V : Type} [LinearOrder V]

/-! ## What a round does -/

/-- The candidate of `spill`. -/
def candidate (s : BriggsAllocator V) (first : V) : V :=
  (s.nodes.values .toSpill).foldl (fun m n =>
    if s.graph.lessPriority (s.quotient n) (s.quotient m) then n else m) first

/-- The next round is a call of `spill` that chooses `v`. -/
def Chooses (s : BriggsAllocator V) (v : V) : Prop :=
  (s.nodes.values .simplify).isEmpty = true ∧ (s.moves.values .ready).isEmpty = true ∧
    (s.nodes.values .freeze).isEmpty = true ∧
    ∃ first, s.nodes.front .toSpill = .ok first ∧ s.candidate first = v

/-- Once `mov` is settled, `unfreeze` takes `v` off the stack. -/
def Unstacks (s : BriggsAllocator V) (mov : V × V) (v : V) : Prop :=
  s.nodes.place v = some .selectStack ∧ (s.graph.node v).degree < s.graph.maxColor ∧
    ∃ ms, s.effectiveMoves v = .ok ms ∧ ∀ m ∈ ms, m = mov

/-- The next round coalesces a move one end of which is already on the stack, and merges
that end or takes it off. -/
def Disturbs (s : BriggsAllocator V) : Prop :=
  (s.nodes.values .simplify).isEmpty = true ∧ ∃ mov x y c, s.moves.front .ready = .ok mov ∧
    s.ends mov = .ok (x, y) ∧ s.coalesceCase x y = .ok c ∧
    ((c = .mergable ∧ (s.nodes.place x = some .selectStack ∨
        s.nodes.place y = some .selectStack)) ∨
      ((c = .same ∨ c = .constrained) ∧ (s.Unstacks mov x ∨ s.Unstacks mov y)))

/-- `merge` up to its second loop. -/
def mergeMoves (s : BriggsAllocator V) (dest src : V) :
    Except LookupFault (BriggsAllocator V) := do
  let s ← s.relocateNode src .coalesced
  let s ← s.enableMoves src
  let s ← s.graph.keys.foldlM (mergeMove dest src) s
  let inherited := (← s.graph.get src).move
  return s.modifyMove dest fun l => ((l ∪ inherited).erase dest).erase src

/-- The round that starts in `s` comes to decrement the degree of `v` in the state `t`. -/
inductive Decrements (s t : BriggsAllocator V) (v : V) : Prop
  | simplify {n : V} {s₁ : BriggsAllocator V} {l as : List V}
      (front : s.nodes.front .simplify = .ok n) (push : s.relocateNode n .selectStack = .ok s₁)
      (neighbors : s₁.adjacent n = .ok (l ++ v :: as))
      (rounds : l.foldlM decrementDegree s₁ = .ok t)
      (place : t.nodes.place v ≠ some .precolored)
  | merge {mov : V × V} {x y : V} {n : InterfereNode V} {s₁ s₂ s₃ : BriggsAllocator V}
      {l vs : List V} (simple : (s.nodes.values .simplify).isEmpty = true)
      (front : s.moves.front .ready = .ok mov) (ends : s.ends mov = .ok (x, y))
      (mergable : s.coalesceCase x y = .ok .mergable)
      (settle : s.relocateMove mov .coalesced = .ok s₁) (moves : s₁.mergeMoves x y = .ok s₂)
      (neighbors : s₂.graph.keys = l ++ v :: vs)
      (rounds : l.foldlM (mergeEdge x y) s₂ = .ok s₃) (get : s₃.graph.get y = .ok n)
      (neighbor : v ∈ n.interfere) (edge : t = { s₃ with graph := s₃.graph.interfere x v })
      (stack : t.nodes.place v ≠ some .selectStack) (gone : t.nodes.place v ≠ some .coalesced)
      (place : t.nodes.place v ≠ some .precolored)

/-! ## The invariant -/

/-- A node of the stack outside `X` has less neighbours that get their colours before it
than there are colours. -/
structure Stacked (X : Set V) (s : BriggsAllocator V) : Prop where
  nodup : (s.nodes.values .selectStack).Nodup
  room : ∀ pre n post, s.nodes.values .selectStack = pre ++ n :: post → n ∉ X →
    (s.later pre n).card < s.graph.maxColor.toNat

/-- What holds between two rounds if the nodes that are chosen to be spilled are in `X`. -/
structure Balanced (g : InterfereGraph V) (X : Set V) (s : BriggsAllocator V) : Prop where
  shape : s.Shape g
  gone : ∀ v, s.nodes.place v = some .coalesced → s.graph.aliases v ≠ v
  weighed : s.Weighed X (fun _ => 0) fun _ => 0
  stacked : s.Stacked X

section Balanced

variable {g : InterfereGraph V} {s s' t : BriggsAllocator V} {X : Set V} {n v : V}
  {k l : NodeList}

theorem Stacked.congr (hs : s.Stacked X)
    (hstack : s'.nodes.values .selectStack = s.nodes.values .selectStack)
    (hlater : ∀ pre n, (∀ m ∈ n :: pre, m ∈ s.nodes.values .selectStack) →
      (s'.later pre n).card ≤ (s.later pre n).card)
    (hmax : s'.graph.maxColor = s.graph.maxColor) : s'.Stacked X where
  nodup := hstack ▸ hs.nodup
  room := fun pre n post h hX => by
    rw [hstack] at h
    rw [hmax]
    have hmem : ∀ m ∈ n :: pre, m ∈ s.nodes.values .selectStack := fun m hm => by
      rw [h, List.mem_append, List.mem_cons]
      rcases List.mem_cons.1 hm with hm | hm
      · exact Or.inr (Or.inl hm)
      · exact Or.inl hm
    exact (hlater pre n hmem).trans_lt (hs.room pre n post h hX)

theorem Balanced.settled (hs : s.Balanced g X) (h : s.Settled s') : s'.Balanced g X where
  shape := hs.shape.shuffled h.toShuffled
  gone := fun v hv => by
    rw [h.graph.aliases]
    exact hs.gone v ((h.place_iff (l := .coalesced) id).1 hv)
  weighed := hs.weighed.settled h
  stacked := hs.stacked.congr h.stack (fun pre n _ => by rw [h.later]) h.maxColor

/-- The node at the root of a chain of aliases was not merged. -/
theorem Balanced.live_of_root (hs : s.Balanced g X) (hr : s.graph.aliasOf v = v)
    (hv : s.nodes.place v = some k) : s.Live v := by
  refine ⟨k, hv, fun hk => ?_⟩
  subst hk
  refine hs.gone v hv ?_
  rw [← hr]
  exact hs.shape.forest.root v

/-! ## `simplify` -/

/-- The node is pushed, and the decrements of its neighbours are still to come. -/
theorem Balanced.push (hs : s.Balanced g X) (hn : s.nodes.front .simplify = .ok n)
    (hpush : s.relocateNode n .selectStack = .ok s') {as : List V} (has : s'.adjacent n = .ok as) :
    s'.Shape g ∧ s'.Live n ∧ s'.Stacked X ∧
      (∀ v, s'.nodes.place v = some .coalesced → s'.graph.aliases v ≠ v) ∧
      s'.Weighed X (fun v => if v ∈ as then 1 else 0) (fun _ => 0) ∧
      s'.nodes.values .selectStack = s.nodes.values .selectStack ++ [n] := by
  obtain ⟨ts, hts⟩ := Worklists.values_of_front hn
  have hplace : s.nodes.place n = some .simplify := Worklists.place_of_values_cons hs.shape.nodes hts
  obtain ⟨heq, hcoh, hplace', hvalues⟩ := relocateNode_place hs.shape.nodes hplace hpush
  have hgraph : s'.graph = s.graph := by rw [heq]
  have hshape : s'.Shape g := hs.shape.of_place (hgraph ▸ .refl _) hcoh (by rw [heq])
    (by rw [heq]) fun v => by
      rw [hplace', Function.update_apply]
      by_cases hv : v = n
      · subst hv
        exact Or.inr ⟨.simplify, .selectStack, hplace, if_pos rfl, trivial, Or.inr (Or.inr rfl)⟩
      · exact Or.inl (if_neg hv)
  have hlive : s'.Live n := ⟨.selectStack, by rw [hplace', Function.update_self], by simp⟩
  have hco : ∀ v, s'.nodes.place v = some .coalesced ↔ s.nodes.place v = some .coalesced := by
    intro v
    rw [hplace', Function.update_apply]
    by_cases hv : v = n
    · simp [hv, hplace]
    · rw [if_neg hv]
  have hstack : s'.nodes.values .selectStack = s.nodes.values .selectStack ++ [n] := by
    rw [hvalues _ (by simp), if_pos rfl]
  have hlater : ∀ pre m, s'.later pre m = s.later pre m := fun pre m => by
    unfold later
    rw [hgraph]
    exact Finset.filter_congr fun w _ => by rw [ne_eq, hco]
  -- the active neighbours of the others are those from before, but for `n`
  have hactive : ∀ v, s'.active v = (s.active v).erase n := fun v => by
    ext w
    rw [active, active, hgraph, Finset.mem_erase, Finset.mem_filter, Finset.mem_filter, hplace',
      Function.update_apply]
    by_cases hw : w = n
    · simp [hw]
    · simp [hw]
  obtain ⟨-, hmem⟩ := adjacent_ok hshape hlive has
  refine ⟨hshape, hlive, ⟨?_, fun pre m post h hX => ?_⟩, fun v hv => ?_,
    ⟨fun v => ?_, fun v l hv hl => ?_, fun v hv hX => ?_⟩, hstack⟩
  · rw [hstack]
    refine List.nodup_append.2 ⟨hs.stacked.nodup, List.nodup_singleton n, ?_⟩
    rintro a ha b hb rfl
    rw [Worklists.mem_values hs.shape.nodes, List.mem_singleton.1 hb, hplace] at ha
    cases ha
  · rw [hlater, hgraph]
    rw [hstack] at h
    rcases List.eq_nil_or_concat post with rfl | ⟨post', b, rfl⟩
    · obtain ⟨rfl, hmn⟩ := List.append_inj' h rfl
      cases hmn
      -- the node itself: the neighbours that are not below it are the active ones
      have hsame : s.later (s.nodes.values .selectStack) n = s.active n := by
        unfold later active
        refine Finset.filter_congr fun w _ => ?_
        rw [Worklists.mem_values hs.shape.nodes, and_comm]
      have hcov := hs.weighed.covers n _ hplace trivial
      have hlow := hs.weighed.low n (Or.inl hplace) hX
      rw [hsame]
      omega
    · rw [List.concat_eq_append, ← List.cons_append, ← List.append_assoc] at h
      exact hs.stacked.room pre m post' (List.append_inj' h rfl).1 hX
  · rw [hgraph]
    exact hs.gone v ((hco v).1 hv)
  · rw [hgraph]
    exact hs.weighed.counted v
  · rw [hgraph, hactive]
    have hvn : v ≠ n := by
      rintro rfl
      rw [hplace', Function.update_self] at hv
      cases hv
      exact hl
    have hold : s.nodes.place v = some l := by
      rw [← hv, hplace', Function.update_of_ne hvn]
    have hcov := hs.weighed.covers v l hold hl
    by_cases hva : v ∈ as
    · have hadj : v ∈ (s.graph.node n).interfere := by
        have h := (hmem v).1 hva
        rw [active, hgraph, Finset.mem_filter] at h
        exact h.1
      have hn' : n ∈ s.active v := by
        rw [active, Finset.mem_filter, hplace]
        exact ⟨hs.shape.edges.symm _ _ hadj, by simp, by simp⟩
      have hcard := Finset.card_erase_add_one hn'
      rw [if_pos hva]
      omega
    · have hle := Finset.card_erase_le (s := s.active v) (a := n)
      rw [if_neg hva]
      omega
  · rw [hgraph]
    have hv' : s.Low v := by
      unfold Low at hv ⊢
      have hvn : v ≠ n := by
        rintro rfl
        rw [hplace', Function.update_self] at hv
        simp at hv
      rw [hplace', Function.update_of_ne hvn] at hv
      exact hv
    exact hs.weighed.low v hv' hX

/-- The state in the loop of `simplify`, with the neighbours to come. -/
structure Draining (X : Set V) (s : BriggsAllocator V) (n : V) (l : List V)
    (t : BriggsAllocator V) : Prop where
  shuffled : s.Shuffled t
  nodup : l.Nodup
  active : ∀ a ∈ l, a ∈ s.active n
  weighed : t.Weighed X (fun v => if v ∈ l then 1 else 0) fun _ => 0

/-- An active neighbour is precoloured or stands on a worklist. -/
theorem Draining.place (hs : s.Shape g) {a : V} {l : List V} (h : s.Draining X n (a :: l) t) :
    t.nodes.place a = some .precolored ∨ ∃ k, t.nodes.place a = some k ∧ k.Waiting := by
  have ha := h.active a (by simp)
  rw [BriggsAllocator.active, Finset.mem_filter] at ha
  obtain ⟨hadj, hnostack, hnoco⟩ := ha
  obtain ⟨k, hk⟩ := hs.place_eq (hs.edges.mem _ _ hadj)
  rcases hs.phase a k hk with hw | rfl | rfl | rfl
  · exact Or.inr (h.shuffled.waiting' hk hw)
  · exact Or.inl ((h.shuffled.place_iff (l := .precolored) id).2 hk)
  · exact absurd hk hnoco
  · exact absurd hk hnostack

theorem Draining.round (hs : s.Shape g) {a : V} {l : List V} (h : s.Draining X n (a :: l) t)
    {u : BriggsAllocator V} (hu : t.decrementDegree a = .ok u) : s.Draining X n l u := by
  obtain ⟨hal, hnd⟩ := List.nodup_cons.1 h.nodup
  have hrest : ∀ b ∈ l, b ∈ s.active n := fun b hb => h.active b (List.mem_cons_of_mem a hb)
  have hD : ∀ v, (if v ∈ l then 1 else 0) ≤ if v ∈ a :: l then 1 else 0 := fun v => by
    by_cases hv : v ∈ l
    · rw [if_pos hv, if_pos (List.mem_cons_of_mem a hv)]
    · rw [if_neg hv]
      exact Nat.zero_le _
  rcases h.place hs with hpre | ⟨k, hk, hw⟩
  · rw [decrementDegree_precolored hpre hu]
    exact ⟨h.shuffled, hnd, hrest, h.weighed.mono hD fun _ _ => le_rfl⟩
  · have hshape := hs.shuffled h.shuffled
    refine ⟨h.shuffled.trans (decrementDegree_ok hshape hk hw hu).1, hnd, hrest,
      h.weighed.decrement hshape hk hw hu ?_ (fun w _ => hD w) (fun _ _ => le_rfl) (by simp)⟩
    simp [hal]

theorem Balanced.simplify (hs : s.Balanced g X) (h : s.simplify = .ok s') :
    s'.Balanced g X ∧ s.nodes.values .selectStack <+: s'.nodes.values .selectStack := by
  obtain ⟨n, hn, h⟩ := Except.bind_eq_ok.1 h
  obtain ⟨s₁, h₁, h⟩ := Except.bind_eq_ok.1 h
  obtain ⟨as, has, h⟩ := Except.bind_eq_ok.1 h
  obtain ⟨hshape, hlive, hstacked, hgone, hweighed, hstack⟩ := hs.push hn h₁ has
  obtain ⟨hnd, hmem⟩ := adjacent_ok hshape hlive has
  have hdrained : s₁.Draining X n [] s' := by
    refine foldlM_ok (I := s₁.Draining X n) (fun a l t u ht hu => ht.round hshape hu)
      (l := as) ?_ h
    rw [List.append_nil]
    exact ⟨.refl hshape.nodes, hnd, fun a ha => (hmem a).1 ha, hweighed⟩
  have hsh := hdrained.shuffled
  refine ⟨⟨hshape.shuffled hsh, fun v hv => ?_, ?_,
    hstacked.congr hsh.stack (fun pre m _ => by rw [hsh.later]) hsh.maxColor⟩, ?_⟩
  · rw [hsh.graph.aliases]
    exact hgone v ((hsh.place_iff (l := .coalesced) id).1 hv)
  · exact hdrained.weighed.mono (fun _ => Nat.zero_le _) fun _ _ => le_rfl
  · rw [hsh.stack, hstack]
    exact List.prefix_append ..

/-! ## `freeze` and `spill` -/

theorem Balanced.freeze (hs : s.Balanced g X) (h : s.freeze = .ok s') : s.Settled s' := by
  obtain ⟨f, hf, h⟩ := Except.bind_eq_ok.1 h
  obtain ⟨s₁, h₁, h⟩ := Except.bind_eq_ok.1 h
  obtain ⟨ts, hts⟩ := Worklists.values_of_front hf
  have hplace := Worklists.place_of_values_cons hs.shape.nodes hts
  obtain ⟨hsh, hgraph, hplace'⟩ :=
    relocateNode_shuffled (k := .freeze) (l := .simplify) hs.shape.nodes hplace trivial trivial h₁
  have hset : s.Settled s₁ := by
    refine ⟨hsh, fun v => by rw [hgraph], fun v hv => Or.inl ?_⟩
    by_cases hvf : v = f
    · subst hvf
      exact Or.inr hplace
    · unfold Low at hv
      rw [hplace', Function.update_of_ne hvf] at hv
      exact hv
  exact hset.trans (freezeMoves_settled (hs.shape.shuffled hsh) h)

/-- The node that `spill` chooses is the one exception, whatever its degree is. -/
theorem Balanced.spill (hs : s.Balanced g X) (hX : ∀ first,
    s.nodes.front .toSpill = .ok first → s.candidate first ∈ X) (h : s.spill = .ok s') :
    s'.Balanced g X ∧ s'.nodes.values .selectStack = s.nodes.values .selectStack := by
  obtain ⟨first, hf, h⟩ := Except.bind_eq_ok.1 h
  obtain ⟨s₁, h₁, h⟩ := Except.bind_eq_ok.1 h
  obtain ⟨ts, hts⟩ := Worklists.values_of_front hf
  have hplace : s.nodes.place (s.candidate first) = some .toSpill := by
    rcases foldl_mem (fun m n => if s.graph.lessPriority (s.quotient n) (s.quotient m) then n
      else m) (fun m n => by split <;> simp) (s.nodes.values .toSpill) first with hm | hm
    · unfold candidate
      rw [hm]
      exact Worklists.place_of_values_cons hs.shape.nodes hts
    · exact (Worklists.mem_values hs.shape.nodes).1 hm
  obtain ⟨hsh, hgraph, hplace'⟩ :=
    relocateNode_shuffled (k := .toSpill) (l := .simplify) hs.shape.nodes hplace trivial trivial h₁
  have hshape := hs.shape.shuffled hsh
  have hset := freezeMoves_settled hshape h
  have hbalanced : s₁.Balanced g X := by
    refine ⟨hshape, fun v hv => ?_, ⟨fun v => ?_, fun v l hv hl => ?_, fun v hv hvX => ?_⟩,
      hs.stacked.congr hsh.stack (fun pre m _ => by rw [hsh.later]) hsh.maxColor⟩
    · rw [hgraph]
      exact hs.gone v ((hsh.place_iff (l := .coalesced) id).1 hv)
    · rw [hgraph]
      exact hs.weighed.counted v
    · obtain ⟨k, hk, hw⟩ := hsh.waiting hv hl
      rw [hgraph, hsh.active]
      exact hs.weighed.covers v k hk hw
    · rw [hgraph]
      have hne : v ≠ s.candidate first := by
        rintro rfl
        exact hvX (hX first hf)
      unfold Low at hv
      rw [hplace', Function.update_of_ne hne] at hv
      exact hs.weighed.low v hv hvX
  exact ⟨hbalanced.settled hset, hset.stack.trans hsh.stack⟩

end Balanced

end BriggsAllocator

end Lowering

end Cact
