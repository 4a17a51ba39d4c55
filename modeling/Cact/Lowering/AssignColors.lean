import Cact.Lowering.ColorizeLoop

/-!
# The allocator as a whole

The constructor and `initialize` establish the invariant of the main loop, and the stack
is unwound over a graph that does not change any more: a node gets a colour that none of
its coloured neighbours has.

- `Allocated`: what the result has to be.
- `colorize_allocates`: a run none of whose rounds skips a move partner gets there.
- `sharedPartner`: a graph on which a round does skip one, and the main loop never ends.
-/

namespace Cact

namespace Lowering

namespace InterfereGraph

variable {V : Type}

/-- The graphs the class can build: nodes need a register, edges and moves are symmetric
and between different nodes, and nothing is merged yet. -/
structure WellFormed (g : InterfereGraph V) : Prop where
  nodup : g.keys.Nodup
  needs : ∀ v ∈ g.keys, g.needRegister v = true
  unmerged : ∀ v, g.aliases v = v
  interfere_symm : ∀ u v, v ∈ (g.node u).interfere → u ∈ (g.node v).interfere
  interfere_irrefl : ∀ u, u ∉ (g.node u).interfere
  interfere_mem : ∀ u v, v ∈ (g.node u).interfere → v ∈ g.keys
  move_symm : ∀ u v, v ∈ (g.node u).move → u ∈ (g.node v).move
  move_irrefl : ∀ u, u ∉ (g.node u).move
  move_mem : ∀ u v, v ∈ (g.node u).move → v ∈ g.keys

/-- Precoloured nodes interfere with one another and have different colours. -/
structure Precolored (g : InterfereGraph V) : Prop where
  interfere : ∀ u ∈ g.keys, ∀ v ∈ g.keys, u ≠ v → (g.node u).color.isSome →
    (g.node v).color.isSome → v ∈ (g.node u).interfere
  distinct : ∀ u ∈ g.keys, ∀ v ∈ g.keys, ∀ c, u ≠ v → (g.node u).color = some c →
    (g.node v).color ≠ some c

end InterfereGraph

namespace BriggsAllocator

variable {V : Type} [LinearOrder V]

/-! ## The constructor -/

section Start

variable {g : InterfereGraph V} {s : BriggsAllocator V} {v : V}

theorem pushAll_spec (value : V) (l : List V) (hl : l.Nodup) (w : Worklists MoveList (V × V))
    (hw : w.Coherent) (hno : ∀ b ∈ l, w.place (value, b) = none) :
    (l.foldl (fun moves src => moves.pushBack .ready (value, src)) w).Coherent ∧
      ∀ a b, (l.foldl (fun moves src => moves.pushBack .ready (value, src)) w).place (a, b) =
        if a = value ∧ b ∈ l then some .ready else w.place (a, b) := by
  induction l generalizing w with
  | nil => exact ⟨hw, fun a b => by simp⟩
  | cons c l ih =>
    obtain ⟨hc, hl⟩ := List.nodup_cons.1 hl
    have hno' : ∀ b ∈ l, (w.pushBack .ready (value, c)).place (value, b) = none := fun b hb => by
      have hbc : (value, b) ≠ (value, c) := fun h => hc ((Prod.mk.inj h).2 ▸ hb)
      rw [Worklists.place_pushBack, Function.update_of_ne hbc]
      exact hno b (List.mem_cons_of_mem c hb)
    obtain ⟨hcoh, hplace⟩ := ih hl (w.pushBack .ready (value, c))
      (Worklists.pushBack_coherent hw (hno c (by simp))) hno'
    refine ⟨hcoh, fun a b => ?_⟩
    rw [List.foldl_cons, hplace, Worklists.place_pushBack, Function.update_apply]
    by_cases ha : a = value
    · by_cases hb : b = c
      · simp [ha, hb]
      · simp [ha, hb]
    · simp [ha]

/-- The state after the constructor has entered the nodes `done`. -/
structure Entered (g : InterfereGraph V) (entered : List V) (s : BriggsAllocator V) : Prop where
  graph : s.graph = g
  nodes : s.nodes.Coherent
  moves : s.moves.Coherent
  place : ∀ v, s.nodes.place v =
    if v ∈ entered then some (if (g.node v).color.isSome then .precolored else .initial) else none
  ready : ∀ a b, s.moves.place (a, b) =
    if a ∈ entered ∧ b ∈ (g.node a).move then some .ready else none
  colors : ∀ v, s.colors v = if v ∈ entered then (g.node v).color else none
  spilled : s.spilled = []

theorem enter_graph : (s.enter v).graph = s.graph := by
  unfold BriggsAllocator.enter
  dsimp only
  cases (s.graph.node v).color <;> rfl

theorem enter_spilled : (s.enter v).spilled = s.spilled := by
  unfold BriggsAllocator.enter
  dsimp only
  cases (s.graph.node v).color <;> rfl

theorem enter_nodes : (s.enter v).nodes = s.nodes.pushBack
    (if (s.graph.node v).color.isSome then .precolored else .initial) v := by
  unfold BriggsAllocator.enter
  dsimp only
  cases (s.graph.node v).color <;> rfl

theorem enter_moves : (s.enter v).moves = (s.graph.inOrder (s.graph.node v).move).foldl
    (fun moves src => moves.pushBack .ready (v, src)) s.moves := by
  unfold BriggsAllocator.enter
  dsimp only
  cases (s.graph.node v).color <;> rfl

theorem enter_colors : (s.enter v).colors = match (s.graph.node v).color with
    | some c => Function.update s.colors v (some c)
    | none => s.colors := by
  unfold BriggsAllocator.enter
  dsimp only
  cases (s.graph.node v).color <;> rfl

theorem Entered.enter {entered : List V} (hg : g.WellFormed) (h : Entered g entered s)
    (hv : v ∉ entered) : Entered g (entered ++ [v]) (s.enter v) := by
  have hno : s.nodes.place v = none := by rw [h.place, if_neg hv]
  have hmem : ∀ b, b ∈ g.inOrder (g.node v).move ↔ b ∈ (g.node v).move := fun b => by
    rw [InterfereGraph.mem_inOrder]
    exact ⟨fun h => h.2, fun h => ⟨hg.move_mem v b h, h⟩⟩
  obtain ⟨hcoh, hready⟩ := pushAll_spec v (g.inOrder (g.node v).move) (hg.nodup.filter _) s.moves
    h.moves fun b _ => by rw [h.ready, if_neg fun h' => hv h'.1]
  have hready' : ∀ a b, ((g.inOrder (g.node v).move).foldl (fun moves src =>
      moves.pushBack .ready (v, src)) s.moves).place (a, b) =
      if a ∈ entered ++ [v] ∧ b ∈ (g.node a).move then some .ready else none := fun a b => by
    rw [hready, h.ready]
    by_cases hav : a = v
    · subst hav
      simp [hmem, hv]
    · simp [hav]
  refine ⟨?_, ?_, ?_, fun u => ?_, fun a b => ?_, fun u => ?_, ?_⟩
  · rw [enter_graph, h.graph]
  · rw [enter_nodes]
    exact Worklists.pushBack_coherent h.nodes hno
  · rw [enter_moves, h.graph]
    exact hcoh
  · rw [enter_nodes, Worklists.place_pushBack, Function.update_apply, h.place, h.graph]
    by_cases huv : u = v
    · simp [huv]
    · simp [huv]
  · rw [enter_moves, h.graph]
    exact hready' a b
  · rw [enter_colors, h.graph]
    by_cases huv : u = v
    · subst huv
      cases hcol : (g.node u).color with
      | some c => simp
      | none => simp [h.colors, hv]
    · cases hcol : (g.node v).color with
      | some c => simp [huv, h.colors]
      | none => simp [huv, h.colors]
  · rw [enter_spilled, h.spilled]

theorem start_entered (hg : g.WellFormed) (priority : Nat → Int) :
    Entered g g.keys (start g priority) := by
  have hfold : ∀ (l entered : List V) (s : BriggsAllocator V), (entered ++ l).Nodup →
      Entered g entered s → Entered g (entered ++ l) (l.foldl BriggsAllocator.enter s) := by
    intro l
    induction l with
    | nil => exact fun entered s _ h => by simpa using h
    | cons v l ih =>
      intro entered s hnd h
      have hv : v ∉ entered := fun hv =>
        (List.disjoint_of_nodup_append hnd) hv (List.mem_cons_self ..)
      rw [List.foldl_cons, List.append_cons]
      exact ih (entered ++ [v]) (s.enter v) (by simpa using hnd) (h.enter hg hv)
  have hnil : Entered g [] ⟨.empty, .empty, g, fun _ => none, [], priority⟩ :=
    ⟨rfl, Worklists.coherent_empty, Worklists.coherent_empty, fun v => by simp,
      fun a b => by simp, fun v => by simp, rfl⟩
  exact hfold g.keys [] _ (by simpa using hg.nodup) hnil

theorem Entered.prepared (hg : g.WellFormed) (h : Entered g g.keys s) : s.Prepared g := by
  have hlive : ∀ v, s.Live v ↔ v ∈ g.keys := fun v => by
    rw [live_iff, h.place]
    by_cases hv : v ∈ g.keys
    · rw [if_pos hv]
      refine iff_of_true ⟨rfl, ?_⟩ hv
      split
      · simp
      · simp
    · simp [hv]
  refine ⟨⟨h.nodes, h.moves, ?_, ?_, ?_, ?_, ?_, ?_, ?_, ?_⟩, ⟨?_, ?_⟩, ?_, ?_, ?_, ?_, ?_, ?_⟩
  · rw [h.graph]
    exact hg.nodup
  · rw [h.graph]
    exact hg.needs
  · intro v
    rw [h.place, h.graph]
    split
    · simp_all
    · simp_all
  · rw [h.graph]
    refine ⟨fun v => ?_, fun v hv => by rw [hg.unmerged]; exact hv, fun v _ => hg.unmerged v⟩
    exact hg.unmerged _
  · rw [h.graph]
    refine ⟨hg.interfere_symm, hg.interfere_irrefl, hg.interfere_mem, fun u v hv => ?_⟩
    rw [InterfereGraph.aliasOf_root (hg.unmerged u), InterfereGraph.aliasOf_root (hg.unmerged v)]
    exact hv
  · intro v hv
    rw [h.graph] at hv ⊢
    rw [h.place, if_pos hv]
    cases (g.node v).color with
    | some c => simp
    | none => simp
  · intro v _
    rw [h.graph]
    exact hg.unmerged v
  · intro v l hl
    rw [h.place] at hl
    by_cases hv : v ∈ g.keys
    · rw [if_pos hv] at hl
      cases hc : (g.node v).color with
      | some c =>
        simp [hc] at hl
        simp [← hl]
      | none =>
        simp [hc] at hl
        simp [← hl]
    · simp [hv] at hl
  · intro a b ha hb
    rw [h.graph] at hb ⊢
    refine ⟨(hlive b).2 (hg.move_mem a b hb), hg.move_symm a b hb, ?_⟩
    rintro rfl
    exact hg.move_irrefl a hb
  · intro a b
    rw [h.ready, hlive, h.graph]
    split
    · simp_all
    · simp_all
  · intro v hv
    obtain ⟨_, hne⟩ := live_iff.1 ((hlive v).2 (by
      by_contra hk
      rw [h.place, if_neg hk] at hv
      cases hv))
    exact absurd hv hne
  · rw [h.graph]
  · rw [h.graph]
    exact fun _ => rfl
  · rw [h.graph]
    exact fun _ _ h => h
  · intro v hv
    rw [h.colors, if_pos hv]
  · exact h.spilled

/-! ## `initialize` -/

theorem initializeNodes_spec (hp : s.Prepared g) :
    Yields s.initializeNodes fun s' => s'.Inv g := by
  have hs := hp.core
  have hfold : Yields ((s.nodes.values .initial).foldlM initializeNode s) fun s' =>
      s.Keeps s' ∧ ∀ v, s'.nodes.place v = some .initial → v ∈ ([] : List V) := by
    refine Yields.foldlM (I := fun l s' => (∀ v ∈ l, s.nodes.place v = some .initial) ∧
      s.Keeps s' ∧ ∀ v, s'.nodes.place v = some .initial → v ∈ l) ?_ ?_ |>.mono fun s' h => h.2
    · intro v l s' ⟨hl, hk, hinit⟩
      have hs' := hs.keeps hk
      have hplace : ∃ p, s'.nodes.place v = some p ∧ p.Working := by
        rcases hk.place v with h | ⟨_, p, _, h, _, hw, _⟩
        · exact ⟨_, h.trans (hl v (by simp)), trivial⟩
        · exact ⟨p, h, hw⟩
      obtain ⟨p, hp', hw⟩ := hplace
      have hlive : s'.Live v := ⟨p, hp', fun h => by subst h; exact hw⟩
      have hmk := hs'.live_mem hlive
      have hone : ∀ k : NodeList, k.Working → k ≠ .initial →
          Yields (s'.relocateNode v k) fun s'' =>
            (∀ u ∈ l, s.nodes.place u = some .initial) ∧ s.Keeps s'' ∧
              ∀ u, s''.nodes.place u = some .initial → u ∈ l := by
        intro k hk' hne
        refine (relocateNode_keeps hs' hp' k hw hk' hne).mono fun s'' ⟨h, _, hplace⟩ =>
          ⟨fun u hu => hl u (by simp [hu]), hk.trans h, fun u hu => ?_⟩
        rw [hplace, Function.update_apply] at hu
        by_cases huv : u = v
        · rw [if_pos huv] at hu
          cases hu
          exact absurd rfl hne
        · rw [if_neg huv] at hu
          exact (List.mem_cons.1 (hinit u hu)).resolve_left huv
      unfold initializeNode
      rw [InterfereGraph.get_of_mem hs'.forest hmk]
      show Yields (if s'.graph.maxColor ≤ _ then _ else _) _
      split
      · exact hone .toSpill trivial (by simp)
      · refine (moveRelated_yields hs' (hp.tracked.keeps_live hk) hlive hmk
          (hs'.root v hlive)).bind fun b _ => ?_
        cases b with
        | true => exact hone .freeze trivial (by simp)
        | false => exact hone .simplify trivial (by simp)
    · exact ⟨fun v hv => (Worklists.mem_values hs.nodes).1 hv, hs.keeps_refl,
        fun v hv => (Worklists.mem_values hs.nodes).2 hv⟩
  refine hfold.mono fun s' h => ⟨hp.keeps h.1, fun v hv => ?_⟩
  simpa using h.2 v hv

end Start

/-! ## The main loop -/

/-- Without a skipped partner the main loop ends, with nothing left on its lists. -/
theorem mainLoop_total {g : InterfereGraph V} {s : BriggsAllocator V} (hi : s.Inv g)
    (hskip : ∀ t, Rounds busy step s t → ¬t.Skips) :
    ∃ n t, whileM busy step n s = .ok (some t) ∧ t.Inv g ∧ t.busy = false := by
  have hround : ∀ t, (t.Inv g ∧ Rounds busy step s t) → busy t = true →
      Yields (step t) fun u => (u.Inv g ∧ Rounds busy step s u) ∧ u.rank < t.rank := by
    intro t ⟨ht, hr⟩ hb
    obtain ⟨u, hu, hi', hlt⟩ := step_spec ht hb (hskip t hr)
    exact ⟨u, hu, ⟨hi', hr.tail hb hu⟩, hlt⟩
  obtain ⟨n, t, hn, ht, hb⟩ := whileM_total wellFounded_lt hround ⟨hi, .refl⟩
  exact ⟨n, t, hn, ht.1, hb⟩

/-! ## Handing out colours -/

section Colors

variable {g : InterfereGraph V} {s t : BriggsAllocator V} {u v : V}

omit [LinearOrder V] in
theorem not_mem_foldl_filter (f : V → Option Nat) (l : List V) (ok : List Nat) {c : Nat}
    (h : c ∈ l.foldl (fun ok n => match f n with
      | some c => ok.filter (· ≠ c)
      | none => ok) ok) : c ∈ ok ∧ ∀ n ∈ l, f n ≠ some c := by
  induction l generalizing ok with
  | nil => exact ⟨h, by simp⟩
  | cons n l ih =>
    rw [List.foldl_cons] at h
    obtain ⟨hc, hl⟩ := ih _ h
    cases hn : f n with
    | none =>
      rw [hn] at hc
      refine ⟨hc, fun m hm => ?_⟩
      rcases List.mem_cons.1 hm with rfl | hm
      · simp [hn]
      · exact hl m hm
    | some d =>
      rw [hn] at hc
      have hc' : c ∈ ok ∧ c ≠ d := by simpa using hc
      refine ⟨hc'.1, fun m hm => ?_⟩
      rcases List.mem_cons.1 hm with rfl | hm
      · rw [hn]
        exact fun h => hc'.2 (Option.some.inj h).symm
      · exact hl m hm

/-- A colour that is left over is not the colour of a neighbour. -/
theorem okColors_spec {n : InterfereNode V} {c : Nat} (h : c ∈ s.okColors n) :
    ∀ v ∈ s.graph.keys, v ∈ n.interfere → s.colors (s.graph.aliasOf v) ≠ some c :=
  fun v hk hv => (not_mem_foldl_filter (fun v => s.colors (s.graph.aliasOf v)) _ _ h).2 v
    (InterfereGraph.mem_inOrder.2 ⟨hk, hv⟩)

theorem moveColor_mem {n : InterfereNode V} {ok : List Nat} {c : Nat}
    (h : s.moveColor n ok = some c) : c ∈ ok := by
  have hfold : ∀ (l : List V) (best : Option Nat), (∀ c, best = some c → c ∈ ok) →
      ∀ c, l.foldl (fun best move => match s.colors (s.graph.aliasOf move) with
        | some c => if c ∈ ok then some c else best
        | none => best) best = some c → c ∈ ok := by
    intro l
    induction l with
    | nil => exact fun best h => h
    | cons m l ih =>
      intro best hb
      rw [List.foldl_cons]
      refine ih _ fun c hc => ?_
      cases hm : s.colors (s.graph.aliasOf m) with
      | none =>
        rw [hm] at hc
        exact hb c hc
      | some d =>
        rw [hm] at hc
        dsimp only at hc
        by_cases hd : d ∈ ok
        · rw [if_pos hd] at hc
          cases hc
          exact hd
        · rw [if_neg hd] at hc
          exact hb c hc
  exact hfold _ none (by simp) c h

omit [LinearOrder V] in
theorem bestColor_mem (c : Nat) (cs : List Nat) : s.bestColor c cs ∈ c :: cs := by
  unfold bestColor
  rcases foldl_mem (fun best c => if s.priority best < s.priority c then c else best)
    (fun a b => by split <;> simp) cs c with h | h
  · simp [h]
  · simp [h]

/-- The state while the stack is unwound, over the graph and the lists of `t`. -/
structure Painted (g : InterfereGraph V) (t s : BriggsAllocator V) : Prop where
  graph : s.graph = t.graph
  nodes : s.nodes.Coherent
  place : ∀ v, s.nodes.place v = t.nodes.place v ∨ (t.nodes.place v = some .selectStack ∧
    (s.nodes.place v = some .colored ∨ s.nodes.place v = some .spilled))
  colored : ∀ v ∈ g.keys, ((s.colors v).isSome ↔
    s.nodes.place v = some .precolored ∨ s.nodes.place v = some .colored)
  pinned : ∀ v ∈ g.keys, ∀ c, (g.node v).color = some c → s.colors v = some c
  proper : ∀ u v c, t.Live u → t.Live v → v ∈ (t.graph.node u).interfere →
    s.colors u = some c → s.colors v ≠ some c
  spilled : s.spilled = []

theorem Inv.painted (hi : t.Inv g) (hg : g.Precolored) : Painted g t t := by
  refine ⟨rfl, hi.core.nodes, fun v => Or.inl rfl, fun v hv => ?_, fun v hv c hc => ?_,
    fun u v c hu hv hadj hc => ?_, hi.spilled⟩
  · rw [hi.colors v hv, ← hi.color, ← hi.core.pinned v (hi.keys ▸ hv)]
    refine ⟨Or.inl, fun h => h.resolve_right fun h => ?_⟩
    exact (hi.core.phase v _ h).2 rfl
  · rw [hi.colors v hv, hc]
  · have hku : u ∈ g.keys := hi.keys ▸ hi.core.live_mem hu
    have hkv : v ∈ g.keys := hi.keys ▸ hi.core.live_mem hv
    have hne : u ≠ v := by
      rintro rfl
      exact hi.core.edges.irrefl u hadj
    rw [hi.colors u hku] at hc
    rw [hi.colors v hkv]
    exact hg.distinct u hku v hkv c hne hc

/-- A node of the stack gets its colour or is spilled. -/
theorem Painted.relocate (hi : t.Inv g) (h : Painted g t s) {n : V}
    (hn : s.nodes.place n = some .selectStack) (colors : V → Option Nat) (l : NodeList)
    (hl : l = .colored ∨ l = .spilled) (hcol : (colors n).isSome ↔ l = .colored)
    (hrest : ∀ v ≠ n, colors v = s.colors v)
    (hnew : ∀ v, t.Live v → v ∈ (t.graph.node n).interfere → ∀ c, colors n = some c →
      s.colors v ≠ some c) :
    Yields ({ s with colors := colors }.relocateNode n l) fun s' => Painted g t s' ∧
      s'.nodes.place = Function.update s.nodes.place n (some l) := by
  obtain ⟨w, hw, hcoh, hplace⟩ := Worklists.relocate_spec (m := l) h.nodes hn
  have hstack : t.nodes.place n = some .selectStack := by
    rcases h.place n with h' | ⟨_, h' | h'⟩
    · rw [← h', hn]
    · simp [hn] at h'
    · simp [hn] at h'
  have hkn : n ∈ g.keys := hi.keys ▸ hi.core.live_mem ⟨_, hstack, by simp⟩
  refine ⟨{ s with colors := colors, nodes := w }, by simp only [relocateNode, hw]; rfl,
    ⟨h.graph, hcoh, fun v => ?_, fun v hv => ?_, fun v hv c hc => ?_,
      fun u v c hu hv hadj hc => ?_, h.spilled⟩, hplace⟩
  · show w.place v = _ ∨ _ ∧ (w.place v = _ ∨ w.place v = _)
    rw [hplace, Function.update_apply]
    by_cases hvn : v = n
    · subst hvn
      refine Or.inr ⟨hstack, ?_⟩
      simpa using hl
    · rw [if_neg hvn]
      exact h.place v
  · show (colors v).isSome ↔ w.place v = _ ∨ w.place v = _
    rw [hplace, Function.update_apply]
    by_cases hvn : v = n
    · subst hvn
      rw [hcol, if_pos rfl]
      rcases hl with rfl | rfl <;> simp
    · rw [if_neg hvn, hrest v hvn]
      exact h.colored v hv
  · show colors v = some c
    have hvn : v ≠ n := by
      rintro rfl
      have hs := (h.colored v hkn).1 (by rw [h.pinned v hkn c hc]; rfl)
      simp [hn] at hs
    rw [hrest v hvn]
    exact h.pinned v hv c hc
  · have hc' : colors u = some c := hc
    show colors v ≠ some c
    by_cases hun : u = n
    · subst hun
      have hvu : v ≠ u := fun h' => hi.core.edges.irrefl u (h' ▸ hadj)
      rw [hrest v hvu]
      exact hnew v hv hadj c hc'
    · rw [hrest u hun] at hc'
      by_cases hvn : v = n
      · subst hvn
        exact fun hc'' => hnew u hu (hi.core.edges.symm _ _ hadj) c hc'' hc'
      · rw [hrest v hvn]
        exact h.proper u v c hu hv hadj hc'

theorem assignColor_spec (hi : t.Inv g) (h : Painted g t s)
    (hne : (s.nodes.values .selectStack).isEmpty = false) :
    Yields s.assignColor fun s' => Painted g t s' ∧
      ∃ n ∈ g.keys, s.nodes.place n = some .selectStack ∧
        s'.nodes.place n ≠ some .selectStack ∧
        ∀ v, s'.nodes.place v = some .selectStack → s.nodes.place v = some .selectStack := by
  obtain ⟨n, hn, hplace⟩ := Worklists.back_spec h.nodes hne
  have hstack : t.nodes.place n = some .selectStack := by
    rcases h.place n with h' | ⟨h', _⟩
    · rw [← h', hplace]
    · exact h'
  have hlive : t.Live n := ⟨_, hstack, by simp⟩
  have hk := hi.core.live_mem hlive
  have hdone : ∀ l, l = .colored ∨ l = .spilled → ∀ s' : BriggsAllocator V, Painted g t s' ∧
      s'.nodes.place = Function.update s.nodes.place n (some l) → Painted g t s' ∧
      ∃ n ∈ g.keys, s.nodes.place n = some .selectStack ∧
        s'.nodes.place n ≠ some .selectStack ∧
        ∀ v, s'.nodes.place v = some .selectStack → s.nodes.place v = some .selectStack := by
    rintro l hl s' ⟨hp, hs'⟩
    refine ⟨hp, n, hi.keys ▸ hk, hplace, ?_, fun v hv => ?_⟩
    · rw [hs', Function.update_self]
      rcases hl with rfl | rfl <;> simp
    · rw [hs', Function.update_apply] at hv
      by_cases hvn : v = n
      · rw [hvn, hplace]
      · rw [if_neg hvn] at hv
        exact hv
  unfold assignColor
  rw [hn]
  have hget : s.graph.get n = .ok (t.graph.node n) := by
    rw [h.graph, InterfereGraph.get_of_mem hi.core.forest hk, hi.core.aliasOf_live hlive]
  show Yields (s.graph.get n >>= _) _
  rw [hget]
  dsimp only [bind, Except.bind]
  cases hok : s.okColors (t.graph.node n) with
  | nil =>
    have hnone : ¬(s.colors n).isSome := by
      rw [h.colored n (hi.keys ▸ hk), hplace]
      simp
    have hrel := h.relocate hi hplace s.colors .spilled (Or.inr rfl) (by simp [hnone])
      (fun _ _ => rfl) fun v _ _ c hc => by simp [hc] at hnone
    exact hrel.mono fun s' h' => hdone .spilled (Or.inr rfl) s' h'
  | cons c cs =>
    have hbest : (s.moveColor (t.graph.node n) (c :: cs)).getD (s.bestColor c cs) ∈
        s.okColors (t.graph.node n) := by
      rw [hok]
      cases hm : s.moveColor (t.graph.node n) (c :: cs) with
      | none => exact bestColor_mem c cs
      | some d => exact moveColor_mem hm
    have hrel := h.relocate hi hplace (Function.update s.colors n (some
      ((s.moveColor (t.graph.node n) (c :: cs)).getD (s.bestColor c cs)))) .colored
      (Or.inl rfl) (by simp) (fun v hv => Function.update_of_ne hv ..) ?_
    · exact hrel.mono fun s' h' => hdone .colored (Or.inl rfl) s' h'
    · intro v hv hadj d hd
      rw [Function.update_self] at hd
      cases hd
      have hne' := okColors_spec hbest v (h.graph ▸ hi.core.live_mem hv) hadj
      rw [h.graph, hi.core.aliasOf_live hv] at hne'
      exact hne'

theorem assignLoop_total (hi : t.Inv g) (h : Painted g t s) :
    ∃ n s', whileM (fun s => !(s.nodes.values .selectStack).isEmpty) assignColor n s =
      .ok (some s') ∧ Painted g t s' ∧ ∀ v, s'.nodes.place v ≠ some .selectStack := by
  have hround : ∀ s, Painted g t s → (!(s.nodes.values .selectStack).isEmpty) = true →
      Yields s.assignColor fun s' => Painted g t s' ∧
        (g.keys.toFinset.filter fun v => s'.nodes.place v = some .selectStack).card <
          (g.keys.toFinset.filter fun v => s.nodes.place v = some .selectStack).card := by
    intro s hs hc
    refine (assignColor_spec hi hs (by simpa using hc)).mono
      fun s' ⟨hs', n, hk, hold, hnew, hsub⟩ => ⟨hs', ?_⟩
    refine Finset.card_lt_card ((Finset.ssubset_iff_of_subset
      (Finset.monotone_filter_right _ fun v _ hv => hsub v hv)).2 ⟨n, ?_, ?_⟩)
    · simp [hk, hold]
    · simp [hnew]
  obtain ⟨n, s', hn, hs', hcond⟩ := whileM_total wellFounded_lt hround h
  refine ⟨n, s', hn, hs', (Worklists.values_eq_nil hs'.nodes).1 ?_⟩
  simpa using hcond

/-- The merged nodes get the colours of their aliases, or are spilled with them. -/
theorem colorCoalesced_foldl (l : List V) (hl : ∀ n ∈ l, ∀ m ∈ l, s.graph.aliasOf n ≠ m)
    (hno : ∀ n ∈ l, s.colors n = none ∨ s.colors n = s.colors (s.graph.aliasOf n)) :
    (l.foldl colorCoalesced s).nodes = s.nodes ∧ (l.foldl colorCoalesced s).graph = s.graph ∧
      (∀ v, (l.foldl colorCoalesced s).colors v =
        if v ∈ l then s.colors (s.graph.aliasOf v) else s.colors v) ∧
      ∀ v, v ∈ (l.foldl colorCoalesced s).spilled ↔
        v ∈ s.spilled ∨ (v ∈ l ∧ s.colors (s.graph.aliasOf v) = none) := by
  induction l generalizing s with
  | nil => exact ⟨rfl, rfl, fun v => by simp, fun v => by simp⟩
  | cons n l ih =>
    rw [List.foldl_cons]
    cases hc : s.colors (s.graph.aliasOf n) with
    | none =>
      have hstep : s.colorCoalesced n = { s with spilled := s.spilled ++ [n] } := by
        simp [colorCoalesced, hc]
      have hnone : s.colors n = none := by
        rcases hno n (by simp) with h | h
        · exact h
        · rw [h, hc]
      obtain ⟨hn, hg, hcol, hsp⟩ := ih (s := s.colorCoalesced n)
        (by rw [hstep]; exact fun a ha b hb => hl a (by simp [ha]) b (by simp [hb]))
        (by rw [hstep]; exact fun a ha => hno a (by simp [ha]))
      rw [hstep] at hn hg hcol hsp ⊢
      refine ⟨hn, hg, fun v => ?_, fun v => ?_⟩
      · rw [hcol]
        by_cases hv : v = n
        · subst hv
          simp [hc, hnone]
        · simp [hv]
      · rw [hsp]
        by_cases hv : v = n
        · subst hv
          simp [hc]
        · simp [hv]
    | some c =>
      have hstep : s.colorCoalesced n =
          { s with colors := Function.update s.colors n (some c) } := by
        simp [colorCoalesced, hc]
      have hali : ∀ a ∈ n :: l, Function.update s.colors n (some c) (s.graph.aliasOf a) =
          s.colors (s.graph.aliasOf a) := fun a ha =>
        Function.update_of_ne (hl a ha n (by simp)) ..
      have hno' : ∀ a ∈ l, Function.update s.colors n (some c) a = none ∨
          Function.update s.colors n (some c) a =
            Function.update s.colors n (some c) (s.graph.aliasOf a) := fun a ha => by
        rw [hali a (by simp [ha])]
        by_cases han : a = n
        · subst han
          exact Or.inr (by rw [Function.update_self, hc])
        · rw [Function.update_of_ne han]
          exact hno a (by simp [ha])
      obtain ⟨hn, hg, hcol, hsp⟩ := ih (s := s.colorCoalesced n)
        (by rw [hstep]; exact fun a ha b hb => hl a (by simp [ha]) b (by simp [hb]))
        (by rw [hstep]; exact hno')
      rw [hstep] at hn hg hcol hsp ⊢
      refine ⟨hn, hg, fun v => ?_, fun v => ?_⟩
      · rw [hcol]
        by_cases hvl : v ∈ l
        · simp [hvl, hali]
        · by_cases hv : v = n
          · subst hv
            simp [hvl, hc]
          · simp [hv, hvl]
      · rw [hsp]
        by_cases hvl : v ∈ l
        · simp [hvl, hali]
        · by_cases hv : v = n
          · subst hv
            simp [hvl, hc]
          · simp [hv, hvl]

end Colors

/-! ## The allocation -/

/-- What the result `r` has to be: every node has a colour or is spilled, precoloured
nodes keep their colours, merged nodes share that of their alias, and no two nodes have
one colour whose aliases stand for nodes that interfere in the graph. -/
structure Allocated (g : InterfereGraph V) (r : BriggsAllocator V) : Prop where
  total : ∀ v ∈ g.keys, ((r.colors v).isSome ↔ v ∉ r.spilled)
  precolored : ∀ v ∈ g.keys, ∀ c, (g.node v).color = some c → r.colors v = some c
  coalesced : ∀ v ∈ g.keys, r.nodes.place v = some .coalesced →
    r.colors v = r.colors (r.graph.aliasOf v)
  proper : ∀ u ∈ g.keys, ∀ v ∈ g.keys, ∀ u₀ v₀ c, v₀ ∈ (g.node u₀).interfere →
    r.graph.aliasOf u = r.graph.aliasOf u₀ → r.graph.aliasOf v = r.graph.aliasOf v₀ →
    r.colors u = some c → r.colors v ≠ some c

/-- `colorize` ends without a lookup of something missing, with a proper allocation. -/
def Allocates (g : InterfereGraph V) (priority : Nat → Int) : Prop :=
  ∃ fuel r, colorize fuel (start g priority) = .ok (some r) ∧ Allocated g r

section Result

variable {g : InterfereGraph V} {s t : BriggsAllocator V} {v : V}

theorem Inv.live_aliasOf (hi : t.Inv g) (hv : v ∈ g.keys) : t.Live (t.graph.aliasOf v) := by
  have hk := hi.core.forest.aliasOf_mem (hi.keys ▸ hv)
  rw [live_iff]
  refine ⟨(hi.core.placed _).2 hk, fun h => ?_⟩
  exact hi.gone _ h (hi.core.forest.root v)

/-- Where a node can be once both loops are through. -/
theorem Painted.final (hi : t.Inv g) (hb : t.busy = false) (h : Painted g t s)
    (hstack : ∀ v, s.nodes.place v ≠ some .selectStack) (hv : v ∈ g.keys) :
    (s.nodes.place v = some .coalesced ∧ ¬t.Live v) ∨ (t.Live v ∧
      (s.nodes.place v = some .precolored ∨ s.nodes.place v = some .colored ∨
        s.nodes.place v = some .spilled)) := by
  simp only [busy, Bool.or_eq_false_iff, Bool.not_eq_false', List.isEmpty_iff] at hb
  obtain ⟨⟨⟨hsimple, hfreeze⟩, hspill⟩, _⟩ := hb
  obtain ⟨l, hl⟩ := hi.core.place_eq (hi.keys ▸ hv)
  rcases h.place v with h' | ⟨h₁, h₂⟩
  · rw [hl] at h'
    cases l with
    | coalesced =>
      refine Or.inl ⟨h', ?_⟩
      rintro ⟨k, hk, hne⟩
      rw [hl] at hk
      cases hk
      exact hne rfl
    | precolored => exact Or.inr ⟨⟨_, hl, by simp⟩, Or.inl h'⟩
    | initial => exact absurd hl (hi.started v)
    | simplify => exact absurd hl ((Worklists.values_eq_nil hi.core.nodes).1 hsimple v)
    | freeze => exact absurd hl ((Worklists.values_eq_nil hi.core.nodes).1 hfreeze v)
    | toSpill => exact absurd hl ((Worklists.values_eq_nil hi.core.nodes).1 hspill v)
    | spilled => exact absurd rfl (hi.core.phase v _ hl).1
    | colored => exact absurd rfl (hi.core.phase v _ hl).2
    | selectStack => exact absurd h' (hstack v)
  · exact Or.inr ⟨⟨_, h₁, by simp⟩, Or.inr h₂⟩

theorem Painted.allocated (hi : t.Inv g) (hb : t.busy = false) (h : Painted g t s)
    (hstack : ∀ v, s.nodes.place v ≠ some .selectStack) {r : BriggsAllocator V}
    (hr : r = (s.nodes.values .coalesced).foldl colorCoalesced s) :
    Allocated g { r with spilled := r.spilled ++ r.nodes.values .spilled } := by
  have hmem : ∀ v, v ∈ s.nodes.values .coalesced ↔ s.nodes.place v = some .coalesced :=
    fun v => Worklists.mem_values h.nodes
  -- a merged node is a node of the graph, and its alias was not merged
  have hgone : ∀ v, s.nodes.place v = some .coalesced → v ∈ g.keys ∧ ¬t.Live v := fun v hv => by
    have hk : v ∈ g.keys := by
      rw [← hi.keys, ← hi.core.placed v]
      rcases h.place v with h' | ⟨h', _⟩
      · rw [← h', hv]
        rfl
      · rw [h']
        rfl
    refine ⟨hk, ?_⟩
    rcases h.final hi hb hstack hk with ⟨_, h'⟩ | ⟨_, h' | h' | h'⟩
    · exact h'
    · simp [hv] at h'
    · simp [hv] at h'
    · simp [hv] at h'
  obtain ⟨hnodes, hgraph, hcolors, hspilled⟩ := colorCoalesced_foldl (s := s)
    (s.nodes.values .coalesced)
    (fun n hn m hm hnm => by
      have hm' := (hgone m ((hmem m).1 hm)).2
      rw [← hnm, h.graph] at hm'
      exact hm' (hi.live_aliasOf (hgone n ((hmem n).1 hn)).1))
    (fun n hn => by
      have hn' := (hmem n).1 hn
      refine Or.inl (Option.not_isSome_iff_eq_none.1 fun hs => ?_)
      rw [h.colored n (hgone n hn').1, hn'] at hs
      simp at hs)
  rw [← hr] at hnodes hgraph hcolors hspilled
  have halias : ∀ v ∈ g.keys, r.colors v = s.colors (t.graph.aliasOf v) := fun v hv => by
    rw [hcolors, h.graph]
    split
    · rfl
    · rename_i hco
      rcases h.final hi hb hstack hv with ⟨h', _⟩ | ⟨hl, _⟩
      · exact absurd ((hmem v).2 h') hco
      · rw [hi.core.aliasOf_live hl]
  have haliask : ∀ v ∈ g.keys, t.graph.aliasOf v ∈ g.keys := fun v hv => by
    have hk := hi.core.forest.aliasOf_mem (hi.keys ▸ hv)
    rw [← hi.keys]
    exact hk
  refine ⟨fun v hv => ?_, fun v hv c hc => ?_, fun v hv _ => ?_,
    fun u hu v hv u₀ v₀ c hadj hu₀ hv₀ hc => ?_⟩
  · show (r.colors v).isSome ↔ v ∉ r.spilled ++ r.nodes.values .spilled
    rw [List.mem_append, hspilled, h.spilled, hnodes, hmem, Worklists.mem_values h.nodes,
      halias v hv, h.graph]
    rcases h.final hi hb hstack hv with ⟨h', _⟩ | ⟨hl, h'⟩
    · rw [h']
      cases s.colors (t.graph.aliasOf v) <;> simp
    · rw [hi.core.aliasOf_live hl, h.colored v hv]
      rcases h' with h' | h' | h'
      · simp [h']
      · simp [h']
      · simp [h']
  · show r.colors v = some c
    rw [halias v hv]
    have hp := h.pinned v hv c hc
    have hplace := (h.colored v hv).1 (by rw [hp]; rfl)
    rcases h.final hi hb hstack hv with ⟨h', _⟩ | ⟨hl, _⟩
    · simp [h'] at hplace
    · rw [hi.core.aliasOf_live hl, hp]
  · show r.colors v = r.colors (r.graph.aliasOf v)
    rw [hgraph, h.graph, halias v hv, halias _ (haliask v hv), hi.core.forest.aliasOf_idem]
  · have hc' : r.colors u = some c := hc
    have hu₀' : r.graph.aliasOf u = r.graph.aliasOf u₀ := hu₀
    have hv₀' : r.graph.aliasOf v = r.graph.aliasOf v₀ := hv₀
    show r.colors v ≠ some c
    rw [hgraph, h.graph] at hu₀' hv₀'
    rw [halias u hu] at hc'
    rw [halias v hv]
    refine h.proper _ _ c (hi.live_aliasOf hu) (hi.live_aliasOf hv) ?_ hc'
    rw [hu₀', hv₀']
    exact hi.core.edges.closed _ _ (hi.grown _ _ hadj)

/-- As long as no round merges two nodes with a move partner in common, the allocator
does its work on every graph. -/
theorem colorize_allocates (hg : g.WellFormed) (hpre : g.Precolored) (priority : Nat → Int)
    (hskip : ∀ s t, (start g priority).initializeNodes = .ok s → Rounds busy step s t →
      ¬t.Skips) : Allocates g priority := by
  obtain ⟨s, hs, hi⟩ := initializeNodes_spec ((start_entered hg priority).prepared hg)
  obtain ⟨n, t, hn, ht, hb⟩ := mainLoop_total hi fun t hr => hskip s t hs hr
  obtain ⟨m, u, hm, hu, hstack⟩ := assignLoop_total ht (ht.painted hpre)
  refine ⟨max n m, _, ?_, hu.allocated ht hb hstack rfl⟩
  unfold colorize
  rw [hs]
  show (whileM busy step (max n m) s >>= _) = _
  rw [whileM_mono (le_max_left n m) hn]
  show (whileM _ assignColor (max n m) t >>= _) = _
  rw [whileM_mono (le_max_right n m) hm]
  rfl

end Result

/-! ## A skipped partner -/

/-- Four nodes without an interference; `1` is precoloured. Once `0` and `3` are merged
into `1`, the merge of `2` enters the move between `3` and `1` a second time. -/
def sharedPartner : InterfereGraph Nat where
  maxColor := 2
  keys := [0, 1, 2, 3]
  node := fun v => match v with
    | 0 => ⟨∅, {1, 2, 3}, 0, none⟩
    | 1 => ⟨∅, {0, 3}, 0, some 1⟩
    | 2 => ⟨∅, {0, 3}, 0, none⟩
    | 3 => ⟨∅, {0, 1, 2}, 0, none⟩
    | _ => .new
  aliases := id
  prior := fun _ => 0
  needRegister := fun _ => true
  lessPriority := fun _ _ => false

/-- The same nodes with the moves `0`–`1` and `2`–`3` alone. -/
def noSharedPartner : InterfereGraph Nat :=
  { sharedPartner with node := fun v => match v with
    | 0 => ⟨∅, {1}, 0, none⟩
    | 1 => ⟨∅, {0}, 0, some 1⟩
    | 2 => ⟨∅, {3}, 0, none⟩
    | 3 => ⟨∅, {2}, 0, none⟩
    | _ => .new }

/-- A graph on the nodes `0` to `3` is checked there. -/
theorem wellFormed_of_four {g : InterfereGraph Nat} (hk : g.keys = [0, 1, 2, 3])
    (hneed : g.needRegister = fun _ => true) (hali : g.aliases = id)
    (hnew : ∀ v, 4 ≤ v → g.node v = .new)
    (hedge : ∀ u < 4, ∀ v ∈ (g.node u).interfere,
      u ∈ (g.node v).interfere ∧ u ≠ v ∧ v < 4)
    (hmove : ∀ u < 4, ∀ v ∈ (g.node u).move, u ∈ (g.node v).move ∧ u ≠ v ∧ v < 4) :
    g.WellFormed := by
  have hmove' : ∀ u v, v ∈ (g.node u).move → u ∈ (g.node v).move ∧ u ≠ v ∧ v < 4 := by
    intro u v hv
    by_cases hu : u < 4
    · exact hmove u hu v hv
    · rw [hnew u (by omega)] at hv
      cases hv
  have hedge' : ∀ u v, v ∈ (g.node u).interfere →
      u ∈ (g.node v).interfere ∧ u ≠ v ∧ v < 4 := by
    intro u v hv
    by_cases hu : u < 4
    · exact hedge u hu v hv
    · rw [hnew u (by omega)] at hv
      cases hv
  have hmem : ∀ v < 4, v ∈ g.keys := fun v hv => by
    rw [hk]
    interval_cases v <;> simp
  exact ⟨by rw [hk]; decide, fun v _ => by rw [hneed], fun v => by rw [hali]; rfl,
    fun u v h => (hedge' u v h).1, fun u h => (hedge' u u h).2.1 rfl,
    fun u v h => hmem v (hedge' u v h).2.2, fun u v h => (hmove' u v h).1,
    fun u h => (hmove' u u h).2.1 rfl, fun u v h => hmem v (hmove' u v h).2.2⟩

theorem sharedPartner_wellFormed : sharedPartner.WellFormed :=
  wellFormed_of_four rfl rfl rfl
    (fun v hv => by
      obtain ⟨k, rfl⟩ := Nat.exists_eq_add_of_le hv
      rw [Nat.add_comm]
      rfl)
    (by decide) (by decide)

theorem noSharedPartner_wellFormed : noSharedPartner.WellFormed :=
  wellFormed_of_four rfl rfl rfl
    (fun v hv => by
      obtain ⟨k, rfl⟩ := Nat.exists_eq_add_of_le hv
      rw [Nat.add_comm]
      rfl)
    (by decide) (by decide)

omit [LinearOrder V] in
/-- With one precoloured node there is nothing to check. -/
theorem precolored_of_unique {g : InterfereGraph V} (w : V)
    (h : ∀ u ∈ g.keys, (g.node u).color.isSome → u = w) : g.Precolored := by
  refine ⟨fun u hu v hv hne hcu hcv => ?_, fun u hu v hv c hne hcu hcv => ?_⟩
  · exact absurd ((h u hu hcu).trans (h v hv hcv).symm) hne
  · exact hne ((h u hu (by rw [hcu]; rfl)).trans (h v hv (by rw [hcv]; rfl)).symm)

/-- The state the main loop stays in once a move that was coalesced is ready again: the
entry at the front of the list is not the one the map points to. -/
structure Circling (mov : V × V) (r : V) (s : BriggsAllocator V) : Prop where
  simple : (s.nodes.values .simplify).isEmpty = true
  ready : ∃ i es, s.moves.entries .ready = (i, mov) :: es
  coalesced : ∃ j, s.moves.loc mov = some (.coalesced, j) ∧
    (j, mov) ∈ s.moves.entries .coalesced
  same₁ : s.graph.aliasOf mov.1 = r
  same₂ : s.graph.aliasOf mov.2 = r
  pinned : s.nodes.place r = some .precolored

theorem Circling.step {mov : V × V} {r : V} {s : BriggsAllocator V} (h : Circling mov r s) :
    s.busy = true ∧ ∀ t, s.step = .ok t → Circling mov r t := by
  obtain ⟨i, es, hready⟩ := h.ready
  obtain ⟨j, hloc, hmem⟩ := h.coalesced
  have hvals : s.moves.values .ready = mov :: es.map Prod.snd := by
    simp [Worklists.values, hready]
  refine ⟨by simp [busy, hvals], fun t ht => ?_⟩
  have hstep : s.step = s.coalesce := by
    unfold BriggsAllocator.step
    rw [h.simple, hvals]
    rfl
  have hends : s.ends mov = .ok (r, r) := by
    unfold ends
    dsimp only
    rw [h.same₁, h.same₂, Worklists.listAt_eq h.pinned]
    rfl
  have hcase : s.coalesceCase r r = .ok .same := by
    unfold coalesceCase
    rw [if_pos rfl]
    rfl
  have hany : (s.moves.entries .coalesced).any (fun e => e.1 == j) = true :=
    List.any_eq_true.2 ⟨(j, mov), hmem, by simp⟩
  have hrel : ∃ w, s.moves.relocate mov .coalesced = .ok w ∧
      w.entries .ready = s.moves.entries .ready ∧
      ∃ k, w.loc mov = some (.coalesced, k) ∧ (k, mov) ∈ w.entries .coalesced := by
    unfold Worklists.relocate Worklists.eraseAt
    rw [hloc]
    simp only [hany, if_true]
    refine ⟨_, rfl, ?_, s.moves.fresh, ?_, ?_⟩
    · simp [Worklists.pushBack]
    · simp [Worklists.pushBack]
    · simp [Worklists.pushBack]
  obtain ⟨w, hw, hr, hc⟩ := hrel
  have hco : s.coalesce = .ok { s with moves := w } := by
    unfold coalesce
    rw [Worklists.front_eq hvals]
    show (s.ends mov >>= _) = _
    rw [hends]
    show (s.coalesceCase r r >>= _) = _
    rw [hcase]
    show (s.relocateMove mov .coalesced >>= _) = _
    simp only [relocateMove, hw]
    show unfreeze { s with moves := w } r = _
    unfold unfreeze
    rw [Worklists.listAt_eq h.pinned]
    rfl
  rw [hstep, hco] at ht
  cases ht
  exact ⟨h.simple, ⟨i, es, hr.trans hready⟩, hc, h.same₁, h.same₂, h.pinned⟩

/-- Whether the main loop on `g` circles on a move after `n` rounds. -/
def circles (g : InterfereGraph V) (priority : Nat → Int) (n : Nat) (mov : V × V) (r : V) : Bool :=
  ((start g priority).initializeNodes.toOption.bind (roundsAfter busy BriggsAllocator.step n)).any
    fun s => (s.nodes.values .simplify).isEmpty && (s.moves.values .ready).head? = some mov &&
      (s.moves.loc mov).any (fun p => p.1 = .coalesced &&
        (p.2, mov) ∈ s.moves.entries .coalesced) &&
      s.graph.aliasOf mov.1 = r && s.graph.aliasOf mov.2 = r && s.nodes.place r = some .precolored

theorem not_allocates_of_circles {g : InterfereGraph V} {priority : Nat → Int} {n : Nat}
    {mov : V × V} {r : V} (h : circles g priority n mov r = true) : ¬Allocates g priority := by
  rintro ⟨fuel, res, hrun, _⟩
  unfold circles at h
  unfold colorize at hrun
  cases hs : (start g priority).initializeNodes with
  | error e =>
    rw [hs] at h
    cases h
  | ok s =>
    rw [hs] at h hrun
    obtain ⟨t, ht, hcheck⟩ := (Option.any_eq_true _ _).1 h
    have hrounds := rounds_of_roundsAfter ht
    have hcircle : Circling mov r t := by
      simp only [Bool.and_eq_true, decide_eq_true_eq, Option.any_eq_true, Prod.exists] at hcheck
      obtain ⟨⟨⟨⟨⟨hsimple, hhead⟩, l, j, hloc, hl, hmem⟩, h₁⟩, h₂⟩, hpin⟩ := hcheck
      subst hl
      refine ⟨hsimple, ?_, ⟨j, hloc, hmem⟩, h₁, h₂, hpin⟩
      cases hes : t.moves.entries .ready with
      | nil => simp [Worklists.values, hes] at hhead
      | cons e es =>
        simp only [Worklists.values, hes, List.map_cons, List.head?_cons, Option.some.injEq]
          at hhead
        exact ⟨e.1, es, by rw [← hhead]⟩
    have hloop : ∃ u, whileM busy BriggsAllocator.step fuel s = .ok (some u) := by
      cases hw : whileM busy BriggsAllocator.step fuel s with
      | error e =>
        have hrun' : (whileM busy BriggsAllocator.step fuel s >>= _) = _ := hrun
        rw [hw] at hrun'
        cases hrun'
      | ok o =>
        have hrun' : (whileM busy BriggsAllocator.step fuel s >>= _) = _ := hrun
        rw [hw] at hrun'
        cases o with
        | none => cases hrun'
        | some u => exact ⟨u, rfl⟩
    obtain ⟨u, hu⟩ := hloop
    obtain ⟨m, hm⟩ := whileM_of_rounds hrounds hu
    exact whileM_diverges (J := Circling mov r) (fun _ h => h.step.1) (fun _ h => h.step.2) m
      hcircle hm

theorem sharedPartner_not_allocates : ¬∀ (V : Type) [LinearOrder V] (g : InterfereGraph V)
    (priority : Nat → Int), g.WellFormed → g.Precolored → Allocates g priority := by
  intro h
  have hcircles : circles sharedPartner (fun _ => 0) 5 (3, 1) 1 = true := by decide +kernel
  exact not_allocates_of_circles hcircles (h Nat sharedPartner _ sharedPartner_wellFormed
    (precolored_of_unique 1 (by decide)))

theorem noSharedPartner_allocates : Allocates noSharedPartner fun _ => 0 := by
  refine colorize_allocates noSharedPartner_wellFormed (precolored_of_unique 1 (by decide)) _
    fun s t hs hr => not_skips ?_
  have hevery : (start noSharedPartner fun _ => 0).initializeNodes.toOption.any
      (everyRound busy BriggsAllocator.step (fun s => !s.skips) 9) = true := by decide +kernel
  rw [hs] at hevery
  simpa using check_of_everyRound hevery hr

end BriggsAllocator

end Lowering

end Cact
