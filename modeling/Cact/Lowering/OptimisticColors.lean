import Cact.Lowering.AssignColors
import Cact.Lowering.ColorizeJoin

/-!
# Optimistic colouring

A node that is simplified with less neighbours than colours will find a free colour when
the stack is unwound. So only nodes that `spill` has chosen are spilled in the end, with
those that were merged into them; that is, unless a round has disturbed the stack.

- `Optimistic`: what the main loop and the unwinding of the stack promise.
- `colorize_optimistic`: a run none of whose rounds disturbs the stack keeps it.
- `frozenOneWay`: a graph on which a round does disturb, and nothing of it is kept.
-/

namespace Cact

namespace Lowering

variable {V : Type}

/-- The degrees count the edges, and the nodes can be counted. -/
structure InterfereGraph.Counted (g : InterfereGraph V) : Prop where
  degree : ∀ v, (g.node v).degree.toNat = (g.node v).interfere.card
  small : g.keys.length < 2 ^ 64

namespace BriggsAllocator

variable [LinearOrder V]

/-- The degree of a node on a worklist is at least the number of its neighbours that are
neither on the stack nor coalesced away. -/
def Covers (s : BriggsAllocator V) : Prop :=
  ∀ v l, s.nodes.place v = some l → l.Waiting →
    (s.active v).card ≤ (s.graph.node v).degree.toNat

/-- A round of the main loop from `s` on chooses `v` to be spilled. -/
def Chosen (s : BriggsAllocator V) (v : V) : Prop :=
  ∃ t, Rounds busy step s t ∧ t.Chooses v

/-- The guarantee of optimistic colouring, for the main loop that starts in `s`. -/
structure Optimistic (g : InterfereGraph V) (priority : Nat → Int) (s : BriggsAllocator V) :
    Prop where
  covers : ∀ t, Rounds busy step s t → t.Covers
  positive : ∀ t, Rounds busy step s t → ∀ u v n, t.Decrements u v →
    u.graph.get v = .ok n → 0 < n.degree
  stays : ∀ t u, Rounds busy step s t → t.step = .ok u → ∀ v,
    t.nodes.place v = some .selectStack → u.nodes.place v = some .selectStack
  colored : ∀ fuel r, colorize fuel (start g priority) = .ok (some r) → ∀ v ∈ g.keys,
    ¬s.Chosen (r.graph.aliasOf v) → (r.colors v).isSome
  spilled : ∀ fuel r, colorize fuel (start g priority) = .ok (some r) → ∀ v ∈ r.spilled,
    s.Chosen (r.graph.aliasOf v)

/-! ## The start of the main loop -/

section Start

variable {g : InterfereGraph V} {s t u : BriggsAllocator V} {X : Set V} {v : V} {l : NodeList}

/-- The state in the loop of `initialize`. -/
structure Sorting (g : InterfereGraph V) (s t : BriggsAllocator V) : Prop where
  graph : t.graph = g
  nodes : t.nodes.Coherent
  colors : t.colors = s.colors
  stack : t.nodes.values .selectStack = []
  low : ∀ v, t.Low v → (g.node v).degree < g.maxColor

theorem Sorting.relocate (h : Sorting g s t) (hl : l ≠ .selectStack)
    (hlow : l = .simplify ∨ l = .freeze → (g.node v).degree < g.maxColor)
    (hu : t.relocateNode v l = .ok u) : Sorting g s u := by
  obtain ⟨w, hw, -⟩ := relocateNode_ok hu
  obtain ⟨k, hk⟩ := Worklists.place_of_relocate hw
  obtain ⟨heq, hcoh, hplace, hvalues⟩ := relocateNode_place h.nodes hk hu
  have hks : k ≠ .selectStack := by
    rintro rfl
    exact (Worklists.values_eq_nil h.nodes).1 h.stack v hk
  refine ⟨by rw [heq]; exact h.graph, hcoh, by rw [heq]; exact h.colors, ?_, fun w hlw => ?_⟩
  · rw [hvalues _ hks.symm, if_neg hl.symm]
    exact h.stack
  · rw [Low, hplace, Function.update_apply] at hlw
    by_cases hwv : w = v
    · subst hwv
      exact hlow (by simpa using hlw)
    · rw [if_neg hwv] at hlw
      exact h.low w hlw

theorem Sorting.round (hg : g.WellFormed) (h : Sorting g s t) (hu : t.initializeNode v = .ok u) :
    Sorting g s u := by
  obtain ⟨n, hn, hu⟩ := Except.bind_eq_ok.1 hu
  have hnode : n = g.node v := by
    rw [h.graph, InterfereGraph.get, InterfereGraph.aliasOf_root (hg.unmerged v),
      InterfereGraph.nodeAt] at hn
    by_cases hk : v ∈ g.keys
    · rw [if_pos hk] at hn
      cases hn
      rfl
    · rw [if_neg hk] at hn
      cases hn
  rw [hnode, h.graph] at hu
  by_cases hmax : g.maxColor ≤ (g.node v).degree
  · rw [if_pos hmax] at hu
    exact h.relocate (by simp) (by simp) hu
  · rw [if_neg hmax] at hu
    have hlt := UInt64.not_le.1 hmax
    obtain ⟨b, -, hu⟩ := Except.bind_eq_ok.1 hu
    cases b with
    | true => exact h.relocate (by simp) (fun _ => hlt) hu
    | false => exact h.relocate (by simp) (fun _ => hlt) hu

/-- The invariant holds in front of the main loop. -/
theorem initialize_balanced (hg : g.WellFormed) (hc : g.Counted) (priority : Nat → Int)
    (h : (start g priority).initializeNodes = .ok s) : s.Balanced g X := by
  have he := start_entered hg priority
  obtain ⟨s', hs', hi⟩ := initializeNodes_spec (he.prepared hg)
  rw [h] at hs'
  cases hs'
  have hstart : Sorting g (start g priority) (start g priority) := by
    refine ⟨he.graph, he.nodes, rfl, (Worklists.values_eq_nil he.nodes).2 fun v => ?_,
      fun v hv => ?_⟩
    · rw [he.place]
      split
      · split <;> simp
      · simp
    · rw [Low, he.place] at hv
      exfalso
      split at hv
      · split at hv <;> simp at hv
      · simp at hv
  have hsorted : Sorting g (start g priority) s :=
    foldlM_ok_inv (I := Sorting g (start g priority))
      (fun v _ t u ht hu => ht.round hg hu) hstart h
  have hshape : s.Shape g := by
    refine ⟨hi.core.nodes, hi.keys, hi.core.nodup, hi.core.needs, hi.core.placed,
      hi.core.forest, hi.core.edges, hi.core.root, fun v l hl => ?_, fun v => ?_, hi.spilled⟩
    · have hphase := hi.core.phase v l hl
      have hstarted := hi.started v
      cases l with
      | spilled => exact absurd rfl hphase.1
      | colored => exact absurd rfl hphase.2
      | initial => exact absurd hl hstarted
      | precolored => exact Or.inr (Or.inl rfl)
      | coalesced => exact Or.inr (Or.inr (Or.inl rfl))
      | selectStack => exact Or.inr (Or.inr (Or.inr rfl))
      | simplify => exact Or.inl trivial
      | freeze => exact Or.inl trivial
      | toSpill => exact Or.inl trivial
    · rw [hsorted.colors, he.colors]
      by_cases hv : v ∈ g.keys
      · rw [if_pos hv, ← hsorted.graph]
        exact (hi.core.pinned v (hi.keys ▸ hv)).symm
      · rw [if_neg hv]
        refine iff_of_false (by simp) fun hp => hv ?_
        rw [← hi.keys]
        exact (hi.core.placed v).1 (by rw [hp]; rfl)
  refine ⟨hshape, hi.gone, ⟨fun v => ?_, fun v l _ _ => ?_, fun v hv _ => ?_⟩, ⟨?_, ?_⟩⟩
  · rw [hsorted.graph, hc.degree]
  · rw [hsorted.graph, hc.degree]
    have hle := Finset.card_filter_le (s.graph.node v).interfere fun w =>
      s.nodes.place w ≠ some .selectStack ∧ s.nodes.place w ≠ some .coalesced
    rw [hsorted.graph] at hle
    unfold active
    rw [hsorted.graph]
    exact hle
  · rw [hsorted.graph]
    have hlt := UInt64.lt_iff_toNat_lt.1 (hsorted.low v hv)
    omega
  · rw [hsorted.stack]
    exact List.nodup_nil
  · intro pre n post hst _
    rw [hsorted.stack] at hst
    simp at hst

/-- The invariant holds in front of every test of the main loop. -/
theorem Balanced.rounds (hs : s.Balanced g X) (hsmall : g.keys.length < 2 ^ 64)
    (hX : ∀ v, s.Chosen v → v ∈ X)
    (hd : ∀ t, Rounds busy BriggsAllocator.step s t → ¬t.Disturbs)
    (h : Rounds busy BriggsAllocator.step s t) : t.Balanced g X := by
  induction h with
  | refl => exact hs
  | tail hr _ hstep ih =>
    exact (ih.step hsmall (fun v hv => hX v ⟨_, hr, hv⟩) (hd _ hr) hstep).1

end Start

/-! ## Unwinding the stack -/

section Unwind

variable {g : InterfereGraph V} {s s' t : BriggsAllocator V} {X : Set V} {n v : V}

omit [LinearOrder V] in
theorem mem_foldl_filter (f : V → Option Nat) (l : List V) (ok : List Nat) {c : Nat}
    (hc : c ∈ ok) (h : ∀ n ∈ l, f n ≠ some c) :
    c ∈ l.foldl (fun ok n => match f n with
      | some c => ok.filter (· ≠ c)
      | none => ok) ok := by
  induction l generalizing ok with
  | nil => exact hc
  | cons n l ih =>
    rw [List.foldl_cons]
    refine ih _ ?_ fun m hm => h m (List.mem_cons_of_mem n hm)
    have hn := h n List.mem_cons_self
    cases hf : f n with
    | none => exact hc
    | some d =>
      rw [hf] at hn
      exact List.mem_filter.2 ⟨hc, decide_eq_true fun h' => hn (by rw [h'])⟩

/-- If no colour is left over, the neighbours have all of them. -/
theorem okColors_nil {m : InterfereNode V} (h : s.okColors m = []) {c : Nat}
    (hc : c < s.graph.maxColor.toNat) :
    ∃ v ∈ m.interfere, s.colors (s.graph.aliasOf v) = some c := by
  by_contra hno
  have hmem := mem_foldl_filter (fun v => s.colors (s.graph.aliasOf v))
    (s.graph.inOrder m.interfere) (List.range s.graph.maxColor.toNat) (List.mem_range.2 hc)
    fun v hv hcol => hno ⟨v, (InterfereGraph.mem_inOrder.1 hv).2, hcol⟩
  have hok : c ∈ s.okColors m := hmem
  rw [h] at hok
  cases hok

/-- The state while the stack of `t` is unwound. -/
structure Unwound (X : Set V) (t s : BriggsAllocator V) : Prop where
  graph : s.graph = t.graph
  nodes : s.nodes.Coherent
  stack : s.nodes.values .selectStack <+: t.nodes.values .selectStack
  place : ∀ v, s.nodes.place v = t.nodes.place v ∨ (t.nodes.place v = some .selectStack ∧
    (s.nodes.place v = some .colored ∨ s.nodes.place v = some .spilled ∧ v ∈ X))
  colored : ∀ v, (s.colors v).isSome ↔
    s.nodes.place v = some .precolored ∨ s.nodes.place v = some .colored
  spilled : s.spilled = []

theorem Balanced.unwound (ht : t.Balanced g X) : Unwound X t t := by
  refine ⟨rfl, ht.shape.nodes, List.prefix_rfl, fun v => Or.inl rfl, fun v => ?_,
    ht.shape.spilled⟩
  rw [ht.shape.colors]
  refine (or_iff_left fun h => ?_).symm
  rcases ht.shape.phase v _ h with hw | h | h | h
  · exact hw
  · cases h
  · cases h
  · cases h

/-- A node of the stack that was not chosen finds a colour: the neighbours that have
theirs are less than the colours. -/
theorem Unwound.okColors_ne_nil (ht : t.Balanced g X) (h : Unwound X t s) {pre : List V}
    (hpre : s.nodes.values .selectStack = pre ++ [n]) (hX : n ∉ X) :
    s.okColors (t.graph.node n) ≠ [] := by
  intro hnil
  obtain ⟨post, hpost⟩ := h.stack
  rw [hpre, List.append_assoc, List.singleton_append] at hpost
  have hroom := ht.stacked.room pre n post hpost.symm hX
  have hstack : t.nodes.place n = some .selectStack := by
    rw [← Worklists.mem_values ht.shape.nodes, ← hpost]
    simp
  have hlive : t.Live n := ⟨_, hstack, by simp⟩
  -- every colour is that of a neighbour which is merged into none and not below `n`
  have hsub : Finset.range t.graph.maxColor.toNat ⊆
      (t.later pre n).image fun a => (s.colors a).getD 0 := by
    intro c hc
    obtain ⟨w, hw, hcol⟩ := okColors_nil hnil (h.graph ▸ Finset.mem_range.1 hc)
    rw [h.graph] at hcol
    refine Finset.mem_image.2 ⟨t.graph.aliasOf w, ?_, by simp [hcol]⟩
    have hcl := ht.shape.edges.closed _ _ hw
    rw [ht.shape.aliasOf_live hlive] at hcl
    refine Finset.mem_filter.2 ⟨hcl, fun hco => ?_, fun hmem => ?_⟩
    · exact ht.gone _ hco (ht.shape.forest.root w)
    · have hcolored := (h.colored (t.graph.aliasOf w)).1 (by rw [hcol]; rfl)
      have hbelow : s.nodes.place (t.graph.aliasOf w) = some .selectStack := by
        rw [← Worklists.mem_values h.nodes, hpre]
        exact List.mem_append_left _ hmem
      rw [hbelow] at hcolored
      simp at hcolored
  have hcard := (Finset.card_le_card hsub).trans Finset.card_image_le
  rw [Finset.card_range] at hcard
  omega

theorem Unwound.relocate (ht : t.Balanced g X) (h : Unwound X t s) {pre : List V}
    (hpre : s.nodes.values .selectStack = pre ++ [n]) {colors : V → Option Nat} {l : NodeList}
    (hl : l = .colored ∨ l = .spilled ∧ n ∈ X) (hcol : (colors n).isSome ↔ l = .colored)
    (hrest : ∀ v ≠ n, colors v = s.colors v)
    (hs' : ({ s with colors := colors } : BriggsAllocator V).relocateNode n l = .ok s') :
    Unwound X t s' := by
  have hplace : s.nodes.place n = some .selectStack := by
    rw [← Worklists.mem_values h.nodes, hpre]
    simp
  have hstack : t.nodes.place n = some .selectStack := by
    rcases h.place n with h' | ⟨h', _⟩
    · rw [← h', hplace]
    · exact h'
  have hls : l ≠ .selectStack := by
    rcases hl with rfl | ⟨rfl, _⟩ <;> simp
  obtain ⟨w, hw, heq⟩ := relocateNode_ok hs'
  obtain ⟨w', hw', hcoh, hplace'⟩ := Worklists.relocate_spec (m := l) h.nodes hplace
  rw [hw] at hw'
  cases hw'
  subst heq
  have hnd : (pre ++ [n]).Nodup := by
    rw [← hpre]
    exact h.stack.sublist.nodup ht.stacked.nodup
  have hout : n ∉ pre := fun hmem =>
    (List.disjoint_of_nodup_append hnd) hmem (List.mem_singleton_self n)
  refine ⟨h.graph, hcoh, ?_, fun v => ?_, fun v => ?_, h.spilled⟩
  · have hvalues := Worklists.values_relocate_self h.nodes hplace hw hls
    show w.values .selectStack <+: _
    rw [hvalues, hpre, List.filter_append, List.filter_eq_self.2 fun m hm => by
      simpa using fun h' : m = n => hout (h' ▸ hm)]
    refine List.IsPrefix.trans ?_ h.stack
    simp [hpre]
  · show w.place v = _ ∨ _ ∧ (w.place v = _ ∨ w.place v = _ ∧ _)
    rw [hplace', Function.update_apply]
    by_cases hvn : v = n
    · subst hvn
      refine Or.inr ⟨hstack, ?_⟩
      rcases hl with rfl | ⟨rfl, hX⟩
      · exact Or.inl (if_pos rfl)
      · exact Or.inr ⟨if_pos rfl, hX⟩
    · rw [if_neg hvn]
      exact h.place v
  · show (colors v).isSome ↔ w.place v = _ ∨ w.place v = _
    rw [hplace', Function.update_apply]
    by_cases hvn : v = n
    · subst hvn
      rw [hcol, if_pos rfl]
      rcases hl with rfl | ⟨rfl, _⟩ <;> simp
    · rw [if_neg hvn, hrest v hvn]
      exact h.colored v

theorem Unwound.round (ht : t.Balanced g X) (h : Unwound X t s) (hs' : s.assignColor = .ok s') :
    Unwound X t s' := by
  obtain ⟨n, hn, hs'⟩ := Except.bind_eq_ok.1 hs'
  obtain ⟨m, hm, hs'⟩ := Except.bind_eq_ok.1 hs'
  obtain ⟨pre, hpre⟩ := Worklists.values_of_back hn
  have hplace : s.nodes.place n = some .selectStack := by
    rw [← Worklists.mem_values h.nodes, hpre]
    simp
  have hlive : t.Live n := by
    refine ⟨.selectStack, ?_, by simp⟩
    rcases h.place n with h' | ⟨h', _⟩
    · rw [← h', hplace]
    · exact h'
  rw [h.graph, ht.shape.get_live hlive] at hm
  cases hm
  cases hok : s.okColors (t.graph.node n) with
  | nil =>
    rw [hok] at hs'
    have hX : n ∈ X := by
      by_contra hX
      exact h.okColors_ne_nil ht hpre hX hok
    have hnone : ¬(s.colors n).isSome := by
      rw [h.colored, hplace]
      simp
    have hsame : ({ s with colors := s.colors } : BriggsAllocator V).relocateNode n .spilled =
        .ok s' := hs'
    refine h.relocate ht hpre (Or.inr ⟨rfl, hX⟩) ?_ (fun _ _ => rfl) hsame
    simp [hnone]
  | cons c cs =>
    rw [hok] at hs'
    exact h.relocate ht hpre (Or.inl rfl) (by simp) (fun v hv => Function.update_of_ne hv ..) hs'

/-- Where a node can be once both loops are through. -/
theorem Unwound.final (ht : t.Balanced g X) (hb : t.busy = false) (h : Unwound X t s)
    (hstack : s.nodes.values .selectStack = []) (hv : v ∈ g.keys) :
    (s.nodes.place v = some .coalesced ∧ ¬t.Live v) ∨ (t.Live v ∧
      ((s.colors v).isSome ∨ s.nodes.place v = some .spilled ∧ v ∈ X)) := by
  simp only [busy, Bool.or_eq_false_iff, Bool.not_eq_false', List.isEmpty_iff] at hb
  obtain ⟨⟨⟨hsimple, hfreeze⟩, hspill⟩, _⟩ := hb
  have hnone := fun {l} h => (Worklists.values_eq_nil (l := l) ht.shape.nodes).1 h v
  obtain ⟨l, hl⟩ := ht.shape.place_eq (ht.shape.keys ▸ hv)
  rcases h.place v with h' | ⟨h₁, h₂⟩
  · rcases ht.shape.phase v l hl with hw | rfl | rfl | rfl
    · cases l with
      | simplify => exact absurd hl (hnone hsimple)
      | freeze => exact absurd hl (hnone hfreeze)
      | toSpill => exact absurd hl (hnone hspill)
      | _ => exact hw.elim
    · exact Or.inr ⟨⟨_, hl, by simp⟩, Or.inl ((h.colored v).2 (Or.inl (h'.trans hl)))⟩
    · refine Or.inl ⟨h'.trans hl, ?_⟩
      rintro ⟨k, hk, hne⟩
      rw [hl] at hk
      cases hk
      exact hne rfl
    · exact absurd (h'.trans hl) ((Worklists.values_eq_nil h.nodes).1 hstack v)
  · exact Or.inr ⟨⟨_, h₁, by simp⟩, h₂.imp_left fun h' => (h.colored v).2 (Or.inr h')⟩

/-- The colours of the result are those of the aliases, and so is what is spilled. -/
theorem Unwound.result (ht : t.Balanced g X) (hb : t.busy = false) (h : Unwound X t s)
    (hstack : s.nodes.values .selectStack = []) {r : BriggsAllocator V}
    (hr : r = (s.nodes.values .coalesced).foldl colorCoalesced s) :
    (∀ v ∈ g.keys, r.graph.aliasOf v ∉ X → (r.colors v).isSome) ∧
      ∀ v ∈ r.spilled ++ r.nodes.values .spilled, r.graph.aliasOf v ∈ X := by
  have hmem : ∀ v, v ∈ s.nodes.values .coalesced ↔ s.nodes.place v = some .coalesced :=
    fun v => Worklists.mem_values h.nodes
  have hplaced : ∀ v, (s.nodes.place v).isSome → v ∈ g.keys := fun v hv => by
    rw [← ht.shape.keys, ← ht.shape.placed v]
    rcases h.place v with h' | ⟨h', _⟩
    · rw [← h']
      exact hv
    · rw [h']
      rfl
  -- the alias of a node is a node that was not merged: it has a colour, or it was chosen
  have hroot : ∀ v ∈ g.keys, t.Live (t.graph.aliasOf v) ∧
      ((s.colors (t.graph.aliasOf v)).isSome ∨ t.graph.aliasOf v ∈ X) := fun v hv => by
    have hk := ht.shape.forest.aliasOf_mem (ht.shape.keys ▸ hv)
    obtain ⟨k, hp⟩ := ht.shape.place_eq hk
    have hlive := ht.live_of_root (ht.shape.forest.aliasOf_idem v) hp
    rcases h.final ht hb hstack (ht.shape.keys ▸ hk) with ⟨_, h'⟩ | ⟨_, h' | h'⟩
    · exact absurd hlive h'
    · exact ⟨hlive, Or.inl h'⟩
    · exact ⟨hlive, Or.inr h'.2⟩
  have hgone : ∀ v, s.nodes.place v = some .coalesced → v ∈ g.keys ∧ ¬t.Live v ∧
      s.colors v = none := fun v hv => by
    have hk := hplaced v (by rw [hv]; rfl)
    have hcol : s.colors v = none := Option.not_isSome_iff_eq_none.1 fun h' => by
      rw [h.colored, hv] at h'
      simp at h'
    rcases h.final ht hb hstack hk with ⟨_, h'⟩ | ⟨_, h' | ⟨h', _⟩⟩
    · exact ⟨hk, h', hcol⟩
    · rw [hcol] at h'
      cases h'
    · rw [hv] at h'
      cases h'
  obtain ⟨hnodes, hgraph, hcolors, hspilled⟩ := colorCoalesced_foldl (s := s)
    (s.nodes.values .coalesced)
    (fun n hn m hm hnm => by
      have hm' := (hgone m ((hmem m).1 hm)).2.1
      rw [← hnm, h.graph] at hm'
      exact hm' (hroot n (hgone n ((hmem n).1 hn)).1).1)
    fun n hn => Or.inl (hgone n ((hmem n).1 hn)).2.2
  rw [← hr] at hnodes hgraph hcolors hspilled
  refine ⟨fun v hv hX => ?_, fun v hv => ?_⟩
  · rw [hgraph, h.graph] at hX
    have hcol := (hroot v hv).2.resolve_right hX
    rw [hcolors, h.graph]
    by_cases hco : v ∈ s.nodes.values .coalesced
    · rw [if_pos hco]
      exact hcol
    · rw [if_neg hco]
      rcases h.final ht hb hstack hv with ⟨h', _⟩ | ⟨hl, _⟩
      · exact absurd ((hmem v).2 h') hco
      · rw [ht.shape.aliasOf_live hl] at hcol
        exact hcol
  · rw [hgraph, h.graph]
    rw [List.mem_append, hspilled, h.spilled, hnodes] at hv
    rcases hv with (hv | ⟨hv, hnone⟩) | hv
    · cases hv
    · rw [h.graph] at hnone
      refine (hroot v (hgone v ((hmem v).1 hv)).1).2.resolve_left fun h' => ?_
      rw [hnone] at h'
      cases h'
    · rw [Worklists.mem_values h.nodes] at hv
      rcases h.final ht hb hstack (hplaced v (by rw [hv]; rfl)) with ⟨h', _⟩ | ⟨hl, h' | ⟨_, hX⟩⟩
      · rw [hv] at h'
        cases h'
      · rw [h.colored, hv] at h'
        simp at h'
      · rw [ht.shape.aliasOf_live hl]
        exact hX

end Unwind

/-! ## Runs that do not disturb the stack -/

section Runs

variable {g : InterfereGraph V} {s : BriggsAllocator V} {v : V}

/-- As long as no round coalesces a move of a node on the stack, the degrees cover the
neighbours that are left and the promise is kept. -/
theorem colorize_optimistic (hg : g.WellFormed) (hc : g.Counted) (priority : Nat → Int)
    (hs : (start g priority).initializeNodes = .ok s)
    (hd : ∀ t, Rounds busy step s t → ¬t.Disturbs) : Optimistic g priority s := by
  have hinit : s.Balanced g {v | s.Chosen v} := initialize_balanced hg hc priority hs
  have hround : ∀ t, Rounds busy step s t → t.Balanced g {v | s.Chosen v} := fun t hr =>
    hinit.rounds hc.small (fun _ h => h) hd hr
  have hresult : ∀ fuel r, colorize fuel (start g priority) = .ok (some r) →
      (∀ v ∈ g.keys, ¬s.Chosen (r.graph.aliasOf v) → (r.colors v).isSome) ∧
        ∀ v ∈ r.spilled, s.Chosen (r.graph.aliasOf v) := by
    intro fuel r h
    obtain ⟨s', hs', h⟩ := Except.bind_eq_ok.1 h
    rw [hs] at hs'
    cases hs'
    obtain ⟨o, ho, h⟩ := Except.bind_eq_ok.1 h
    cases o with
    | none => cases h
    | some t =>
      obtain ⟨o, ho', h⟩ := Except.bind_eq_ok.1 h
      cases o with
      | none => cases h
      | some u =>
        cases h
        obtain ⟨hr, hb⟩ := whileM_ok ho
        obtain ⟨hr', hstack⟩ := whileM_ok ho'
        have ht := hround t hr
        have hu : Unwound {v | s.Chosen v} t u :=
          hr'.inv (fun _ _ hI _ hbody => hI.round ht hbody) ht.unwound
        exact hu.result ht hb (by simpa using hstack) rfl
  refine ⟨fun t hr v l hv hl => ?_, fun t hr u v n hdec hn => ?_, fun t u hr hstep v hv => ?_,
    fun fuel r h => (hresult fuel r h).1, fun fuel r h => (hresult fuel r h).2⟩
  · exact (hround t hr).weighed.covers v l hv hl
  · exact (hround t hr).decrements_pos hc.small (hd t hr) hdec hn
  · have ht := hround t hr
    obtain ⟨hu, hprefix⟩ := ht.step hc.small (fun v h => ⟨t, hr, h⟩) (hd t hr) hstep
    rw [← Worklists.mem_values hu.shape.nodes]
    exact hprefix.subset ((Worklists.mem_values ht.shape.nodes).2 hv)

/-- `Chooses`, computed. -/
def chooses (s : BriggsAllocator V) (v : V) : Bool :=
  (s.nodes.values .simplify).isEmpty && (s.moves.values .ready).isEmpty &&
    (s.nodes.values .freeze).isEmpty &&
    (s.nodes.front .toSpill).toOption.any fun first => s.candidate first = v

theorem not_chooses (h : s.chooses v = false) : ¬s.Chooses v := by
  rintro ⟨hsimple, hready, hfreeze, first, hf, hv⟩
  unfold chooses at h
  rw [hsimple, hready, hfreeze, hf] at h
  simp [Except.toOption, hv] at h

/-- `Unstacks`, computed. -/
def unstacks (s : BriggsAllocator V) (mov : V × V) (v : V) : Bool :=
  s.nodes.place v = some .selectStack && decide ((s.graph.node v).degree < s.graph.maxColor) &&
    (s.effectiveMoves v).toOption.any fun ms => ms.all (· = mov)

theorem unstacks_of {mov : V × V} (h : s.Unstacks mov v) : s.unstacks mov v = true := by
  obtain ⟨hst, hlt, ms, hms, hall⟩ := h
  unfold unstacks
  rw [hms]
  simpa [Except.toOption, hst, hlt] using hall

/-- `Disturbs`, computed. -/
def disturbs (s : BriggsAllocator V) : Bool :=
  (s.nodes.values .simplify).isEmpty &&
    (s.moves.front .ready).toOption.any fun mov =>
      (s.ends mov).toOption.any fun p =>
        (s.coalesceCase p.1 p.2).toOption.any fun c =>
          (c = .mergable && (s.nodes.place p.1 = some .selectStack ||
            s.nodes.place p.2 = some .selectStack)) ||
          ((c = .same || c = .constrained) && (s.unstacks mov p.1 || s.unstacks mov p.2))

theorem not_disturbs (h : s.disturbs = false) : ¬s.Disturbs := by
  rintro ⟨hsimple, mov, x, y, c, hmov, hxy, hc, hcase⟩
  unfold disturbs at h
  rw [hsimple, hmov] at h
  simp only [Except.toOption, Option.any_some, hxy, hc, Bool.true_and] at h
  rcases hcase with ⟨rfl, hst⟩ | ⟨hc', hun⟩
  · rcases hst with hst | hst
    · simp [hst] at h
    · simp [hst] at h
  · have hun' := hun.imp unstacks_of unstacks_of
    rcases hc' with rfl | rfl
    · rcases hun' with hun' | hun'
      · simp [hun'] at h
      · simp [hun'] at h
    · rcases hun' with hun' | hun'
      · simp [hun'] at h
      · simp [hun'] at h

end Runs

/-! ## A disturbed stack -/

/-- Nodes `1`, `2` and `3` interfere with one another, and `2` with `0`, too, to which it
also has a move. The move is settled in one direction, `0` goes to the stack, and the
other direction takes it off again. -/
def bothDirections : InterfereGraph Nat where
  maxColor := 2
  keys := [0, 1, 2, 3]
  node := fun v => match v with
    | 0 => ⟨{2}, {2}, 1, none⟩
    | 1 => ⟨{2, 3}, ∅, 2, none⟩
    | 2 => ⟨{0, 1, 3}, {0}, 3, none⟩
    | 3 => ⟨{1, 2}, ∅, 2, none⟩
    | _ => .new
  aliases := id
  prior := fun _ => 0
  needRegister := fun _ => true
  lessPriority := fun _ _ => false

/-- The same edges with a move between `0` and `1`, which do not interfere. -/
def oneDirection : InterfereGraph Nat :=
  { bothDirections with node := fun v => match v with
    | 0 => ⟨{2}, {1}, 1, none⟩
    | 1 => ⟨{2, 3}, {0}, 2, none⟩
    | 2 => ⟨{0, 1, 3}, ∅, 3, none⟩
    | 3 => ⟨{1, 2}, ∅, 2, none⟩
    | _ => .new }

theorem bothDirections_wellFormed : bothDirections.WellFormed :=
  wellFormed_of_four rfl rfl rfl
    (fun v hv => by
      obtain ⟨k, rfl⟩ := Nat.exists_eq_add_of_le hv
      rw [Nat.add_comm]
      rfl)
    (by decide) (by decide)

theorem oneDirection_wellFormed : oneDirection.WellFormed :=
  wellFormed_of_four rfl rfl rfl
    (fun v hv => by
      obtain ⟨k, rfl⟩ := Nat.exists_eq_add_of_le hv
      rw [Nat.add_comm]
      rfl)
    (by decide) (by decide)

theorem counted_of_four {g : InterfereGraph Nat} (hk : g.keys = [0, 1, 2, 3])
    (hnew : ∀ v, 4 ≤ v → g.node v = .new)
    (hdegree : ∀ v < 4, (g.node v).degree.toNat = (g.node v).interfere.card) : g.Counted := by
  refine ⟨fun v => ?_, by rw [hk]; decide⟩
  by_cases hv : v < 4
  · exact hdegree v hv
  · rw [hnew v (by omega)]
    rfl

theorem bothDirections_counted : bothDirections.Counted :=
  counted_of_four rfl
    (fun v hv => by
      obtain ⟨k, rfl⟩ := Nat.exists_eq_add_of_le hv
      rw [Nat.add_comm]
      rfl)
    (by decide)

theorem oneDirection_counted : oneDirection.Counted :=
  counted_of_four rfl
    (fun v hv => by
      obtain ⟨k, rfl⟩ := Nat.exists_eq_add_of_le hv
      rw [Nat.add_comm]
      rfl)
    (by decide)

/-- The allocator spills `2`, which was never chosen. -/
theorem bothDirections_not_optimistic : ¬∀ (V : Type) [LinearOrder V] (g : InterfereGraph V)
    (priority : Nat → Int) (s : BriggsAllocator V), g.WellFormed → g.Counted →
    (start g priority).initializeNodes = .ok s → Optimistic g priority s := by
  intro h
  cases hs : (start bothDirections fun _ => 0).initializeNodes with
  | error e =>
    have hok : (start bothDirections fun _ => 0).initializeNodes.toOption.isSome = true := by
      decide +kernel
    rw [hs] at hok
    cases hok
  | ok s =>
    have hopt := h Nat bothDirections _ s bothDirections_wellFormed bothDirections_counted hs
    have hrun : ((colorize 9 (start bothDirections fun _ => 0)).toOption.any fun o => o.any
        fun r => decide (2 ∈ r.spilled) && r.graph.aliasOf 2 = 2) = true := by decide +kernel
    obtain ⟨o, ho, hany⟩ := (Option.any_eq_true _ _).1 hrun
    obtain ⟨r, rfl, hr⟩ := (Option.any_eq_true _ _).1 hany
    simp only [Bool.and_eq_true, decide_eq_true_eq] at hr
    have hcol : colorize 9 (start bothDirections fun _ => 0) = .ok (some r) := by
      cases hc : colorize 9 (start bothDirections fun _ => 0) with
      | error e =>
        rw [hc] at ho
        cases ho
      | ok o =>
        rw [hc] at ho
        cases ho
        rfl
    obtain ⟨t, ht, hchosen⟩ := hopt.spilled 9 r hcol 2 hr.1
    rw [hr.2] at hchosen
    have hevery : (start bothDirections fun _ => 0).initializeNodes.toOption.any
        (everyRound busy BriggsAllocator.step (fun s => !s.chooses 2) 9) = true := by
      decide +kernel
    rw [hs] at hevery
    exact not_chooses (by simpa using check_of_everyRound hevery ht) hchosen

theorem oneDirection_optimistic :
    ∃ s, (start oneDirection fun _ => 0).initializeNodes = .ok s ∧
      Optimistic oneDirection (fun _ => 0) s := by
  have hevery : (start oneDirection fun _ => 0).initializeNodes.toOption.any
      (everyRound busy BriggsAllocator.step (fun s => !s.disturbs) 9) = true := by decide +kernel
  cases hs : (start oneDirection fun _ => 0).initializeNodes with
  | error e =>
    rw [hs] at hevery
    cases hevery
  | ok s =>
    rw [hs] at hevery
    exact ⟨s, rfl, colorize_optimistic oneDirection_wellFormed oneDirection_counted _ hs
      fun t ht => not_disturbs (by simpa using check_of_everyRound hevery ht)⟩

end BriggsAllocator

end Lowering

end Cact
