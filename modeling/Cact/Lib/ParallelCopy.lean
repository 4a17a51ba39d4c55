import Mathlib

/-!
# Parallel copies, one after the other

A set of copies is to happen at once, and is written out as single moves. Each source
has a place, a variable or a constant, where its value can be read at the moment: at
first its own, later the destination it was last copied to, or a temporary. A copy is
ready when no source lies in its destination any more.

- `Pending`: what holds between two moves.
- `Pending.init`, `Pending.copy`, `Pending.save`: it holds at the start, and the two kinds
  of moves keep it.
- `Pending.correct`: nothing left to do means that every copy has been made.
-/

namespace Cact

namespace ParallelCopy

variable {S V W : Type}

/-- The value at a place. -/
def valueAt (τ : V → W) : V ⊕ W → W
  | .inl v => τ v
  | .inr w => w

section Update

variable [DecidableEq V] {τ : V → W} {p : V ⊕ W} {v : V} {w : W}

theorem valueAt_update_of_ne (h : p ≠ .inl v) : valueAt (Function.update τ v w) p = valueAt τ p := by
  cases p with
  | inr w' => rfl
  | inl u => exact Function.update_of_ne (fun hu => h (congrArg Sum.inl hu)) w τ

theorem valueAt_update_self : valueAt (Function.update τ v w) (.inl v) = w := by
  rw [valueAt, Function.update_self]

end Update

section Freed

variable [DecidableEq V] [DecidableEq W] (origin : S → V ⊕ W)

/-- The copies of `waiting` that can be made when the source `s` has been copied. -/
def freed (s : S) (waiting : List (S × V)) : List (S × V) :=
  waiting.filter fun c => origin s = .inl c.2

/-- Those that cannot. -/
def kept (s : S) (waiting : List (S × V)) : List (S × V) :=
  waiting.filter fun c => !decide (origin s = .inl c.2)

theorem perm_freed (c : S × V) (ready waiting done : List (S × V)) :
    (c :: done ++ ((freed origin c.1 waiting).reverse ++ ready) ++ kept origin c.1 waiting).Perm
      (done ++ c :: ready ++ waiting) := by
  have hsplit : (waiting : Multiset (S × V)) = freed origin c.1 waiting + kept origin c.1 waiting :=
    (Multiset.coe_eq_coe.2 (List.filter_append_perm _ waiting)).symm
  rw [← Multiset.coe_eq_coe]
  simp only [← Multiset.coe_add, ← Multiset.cons_coe, Multiset.coe_reverse, hsplit,
    ← Multiset.singleton_add]
  abel

end Freed

/-- The state between two moves: `σ` are the variables before the first, `τ` those of
the moment. -/
structure Pending (used : S → Prop) (origin : S → V ⊕ W) (σ : V → W)
    (ready waiting done : List (S × V)) (temps : List V) (place : S → V ⊕ W) (τ : V → W) :
    Prop where
  /-- no variable is written twice -/
  dests : ((done ++ ready ++ waiting).map Prod.snd ++ temps).Nodup
  sources : ∀ c ∈ ready ++ waiting, used c.1
  /-- the sources do not lie in temporaries -/
  fresh : ∀ s, used s → ∀ t ∈ temps, origin s ≠ .inl t
  lies : ∀ s, used s → place s = origin s ∨ (∃ c ∈ done, place s = .inl c.2) ∨
    ∃ t ∈ temps, place s = .inl t
  value : ∀ s, used s → valueAt τ (place s) = valueAt σ (origin s)
  free : ∀ c ∈ ready, ∀ s, used s → place s ≠ .inl c.2
  still : ∀ c ∈ waiting, ∀ s, used s → origin s = .inl c.2 → place s = origin s
  made : ∀ c ∈ done, τ c.2 = valueAt σ (origin c.1)
  frame : ∀ v, v ∉ done.map Prod.snd → v ∉ temps → τ v = σ v

namespace Pending

variable {used : S → Prop} {origin : S → V ⊕ W} {σ τ : V → W}
  {ready waiting done : List (S × V)} {temps : List V} {place : S → V ⊕ W} {c : S × V}

/-- At the start every source is in its own place. -/
theorem init (hd : ((ready ++ waiting).map Prod.snd).Nodup) (hu : ∀ c ∈ ready ++ waiting, used c.1)
    (hr : ∀ c ∈ ready, ∀ s, used s → origin s ≠ .inl c.2) :
    Pending used origin σ ready waiting [] [] origin σ where
  dests := by simpa using hd
  sources := hu
  fresh s _ t ht := by cases ht
  lies s _ := .inl rfl
  value s _ := rfl
  free := hr
  still c _ s _ _ := rfl
  made c hc := by cases hc
  frame v _ _ := rfl

/-- When nothing is left to do, every copy has been made. -/
theorem correct (h : Pending used origin σ [] [] done temps place τ) :
    (∀ c ∈ done, τ c.2 = valueAt σ (origin c.1)) ∧
      ∀ v, v ∉ done.map Prod.snd → v ∉ temps → τ v = σ v :=
  ⟨h.made, h.frame⟩

/-- A source does not lie in the destination of a copy that is not made yet, unless it
has been there from the start. -/
theorem place_ne (h : Pending used origin σ ready waiting done temps place τ)
    (hc : c ∈ ready ++ waiting) {s : S} (hs : used s) (ho : origin s ≠ .inl c.2) :
    place s ≠ .inl c.2 := by
  have hnodup := h.dests
  rw [List.append_assoc, List.map_append, List.append_assoc, List.nodup_append] at hnodup
  obtain ⟨-, hrest, hdone⟩ := hnodup
  rw [List.nodup_append] at hrest
  have hmem : c.2 ∈ (ready ++ waiting).map Prod.snd := List.mem_map_of_mem hc
  intro hp
  rcases h.lies s hs with heq | ⟨d, hd, heq⟩ | ⟨t, ht, heq⟩
  · exact ho (heq.symm.trans hp)
  · rw [heq] at hp
    have hdc : d.2 = c.2 := Sum.inl.inj hp
    exact hdone d.2 (List.mem_map_of_mem hd) c.2 (List.mem_append_left _ hmem) hdc
  · rw [heq] at hp
    exact hrest.2.2 c.2 hmem t ht (Sum.inl.inj hp).symm

section Moves

variable [DecidableEq S] [DecidableEq V] [DecidableEq W]

/-- A copy that is ready is made. Those that waited for its source become ready. -/
theorem copy (h : Pending used origin σ (c :: ready) waiting done temps place τ)
    (inj : ∀ s t x, used s → used t → origin s = .inl x → origin t = .inl x → s = t) :
    Pending used origin σ ((freed origin c.1 waiting).reverse ++ ready)
      (kept origin c.1 waiting) (c :: done) temps
      (Function.update place c.1 (.inl c.2))
      (Function.update τ c.2 (valueAt τ (place c.1))) where
  dests := by
    have hperm := perm_freed origin c ready waiting done
    exact ((hperm.map Prod.snd).append_right temps).nodup_iff.2 h.dests
  sources d hd := by
    rcases List.mem_append.1 hd with hd | hd
    · rcases List.mem_append.1 hd with hd | hd
      · have hw := List.mem_of_mem_filter (List.mem_reverse.1 hd)
        exact h.sources d (List.mem_append_right _ hw)
      · exact h.sources d (List.mem_append_left _ (List.mem_cons_of_mem c hd))
    · exact h.sources d (List.mem_append_right _ (List.mem_of_mem_filter hd))
  fresh := h.fresh
  lies s hs := by
    by_cases hsc : s = c.1
    · rw [hsc, Function.update_self]
      exact .inr (.inl ⟨c, by simp, rfl⟩)
    · rw [Function.update_of_ne hsc]
      rcases h.lies s hs with heq | ⟨d, hd, heq⟩ | ht
      · exact .inl heq
      · exact .inr (.inl ⟨d, List.mem_cons_of_mem c hd, heq⟩)
      · exact .inr (.inr ht)
  value s hs := by
    by_cases hsc : s = c.1
    · rw [hsc, Function.update_self, valueAt_update_self]
      exact h.value c.1 (hsc ▸ hs)
    · rw [Function.update_of_ne hsc, valueAt_update_of_ne (h.free c (by simp) s hs)]
      exact h.value s hs
  free d hd s hs := by
    have hused : used c.1 := h.sources c (by simp)
    have hne : d ∈ ready ∨ d ∈ waiting → c.2 ≠ d.2 := by
      intro hd
      have hnodup := h.dests
      simp only [List.map_append, List.map_cons, List.nodup_append, List.nodup_cons] at hnodup
      rcases hd with hd | hd
      · intro heq
        exact hnodup.1.1.2.1.1 (heq ▸ List.mem_map_of_mem hd)
      · exact hnodup.1.2.2 c.2 (by simp) d.2 (List.mem_map_of_mem hd)
    by_cases hsc : s = c.1
    · rw [hsc, Function.update_self]
      intro heq
      refine hne ?_ (Sum.inl.inj heq)
      rcases List.mem_append.1 hd with hd | hd
      · exact .inr (List.mem_of_mem_filter (List.mem_reverse.1 hd))
      · exact .inl hd
    · rw [Function.update_of_ne hsc]
      rcases List.mem_append.1 hd with hd | hd
      · -- only the source just copied was in the destination of a copy set free
        obtain ⟨hw, ho⟩ := List.mem_filter.1 (List.mem_reverse.1 hd)
        have ho : origin c.1 = .inl d.2 := by simpa using ho
        refine h.place_ne (List.mem_append_right _ hw) hs fun hod => hsc ?_
        exact inj s c.1 d.2 hs hused hod ho
      · exact h.free d (List.mem_cons_of_mem c hd) s hs
  still d hd s hs ho := by
    obtain ⟨hw, hnot⟩ := List.mem_filter.1 hd
    have hsc : s ≠ c.1 := by
      rintro rfl
      simp [ho] at hnot
    rw [Function.update_of_ne hsc]
    exact h.still d hw s hs ho
  made d hd := by
    rcases List.mem_cons.1 hd with rfl | hd
    · rw [Function.update_self]
      exact h.value d.1 (h.sources d (by simp))
    · have hne : d.2 ≠ c.2 := by
        have hnodup := h.dests
        simp only [List.map_append, List.map_cons, List.nodup_append] at hnodup
        exact hnodup.1.1.2.2 d.2 (List.mem_map_of_mem hd) c.2 (by simp)
      rw [Function.update_of_ne hne]
      exact h.made d hd
  frame v hv ht := by
    rw [List.map_cons, List.mem_cons, not_or] at hv
    rw [Function.update_of_ne hv.1]
    exact h.frame v hv.2 ht

omit [DecidableEq W] in
/-- No copy is ready: the destination of one is saved in a new temporary, and the copy
is ready then. -/
theorem save (h : Pending used origin σ [] (c :: waiting) done temps place τ) {s : S} {t : V}
    (hs : origin s = .inl c.2)
    (inj : ∀ s' x, used s' → origin s' = .inl x → origin s = .inl x → s' = s)
    (ht : t ∉ (done ++ c :: waiting).map Prod.snd ++ temps) (hto : ∀ s, used s → origin s ≠ .inl t) :
    Pending used origin σ [c] waiting done (t :: temps) (Function.update place s (.inl t))
      (Function.update τ t (τ c.2)) where
  dests := by
    have hnodup := h.dests
    rw [List.append_nil] at hnodup
    rw [List.append_assoc, List.singleton_append]
    exact (List.perm_middle.nodup_iff).2 (List.nodup_cons.2 ⟨ht, hnodup⟩)
  sources d hd := h.sources d hd
  fresh s' hs' u hu := by
    rcases List.mem_cons.1 hu with rfl | hu
    · exact hto s' hs'
    · exact h.fresh s' hs' u hu
  lies s' hs' := by
    by_cases hss : s' = s
    · rw [hss, Function.update_self]
      exact .inr (.inr ⟨t, by simp, rfl⟩)
    · rw [Function.update_of_ne hss]
      rcases h.lies s' hs' with heq | hd | ⟨u, hu, heq⟩
      · exact .inl heq
      · exact .inr (.inl hd)
      · exact .inr (.inr ⟨u, List.mem_cons_of_mem t hu, heq⟩)
  value s' hs' := by
    by_cases hss : s' = s
    · subst hss
      rw [Function.update_self, valueAt_update_self, ← h.value s' hs',
        h.still c (by simp) s' hs' hs, hs]
      rfl
    · rw [Function.update_of_ne hss, valueAt_update_of_ne, h.value s' hs']
      -- nothing lies in the new temporary
      intro hp
      simp only [List.mem_append, List.mem_map, not_or, not_exists, not_and] at ht
      rcases h.lies s' hs' with heq | ⟨d, hd, heq⟩ | ⟨u, hu, heq⟩
      · exact hto s' hs' (heq.symm.trans hp)
      · exact ht.1 d (.inl hd) (Sum.inl.inj (heq.symm.trans hp))
      · exact ht.2 (Sum.inl.inj (heq.symm.trans hp) ▸ hu)
  free d hd s' hs' := by
    have hdc : d = c := by simpa using hd
    subst hdc
    by_cases hss : s' = s
    · rw [hss, Function.update_self]
      intro heq
      have htd : t = d.2 := Sum.inl.inj heq
      exact ht (List.mem_append_left _ (List.mem_map.2 ⟨d, by simp, htd.symm⟩))
    · rw [Function.update_of_ne hss]
      exact h.place_ne (by simp) hs' fun ho => hss (inj s' d.2 hs' ho hs)
  still d hd s' hs' ho := by
    have hss : s' ≠ s := by
      rintro rfl
      have hnodup := h.dests
      simp only [List.append_nil, List.map_append, List.map_cons, List.nodup_append,
        List.nodup_cons] at hnodup
      have hdc : c.2 = d.2 := Sum.inl.inj (hs.symm.trans ho)
      exact hnodup.1.2.1.1 (hdc ▸ List.mem_map_of_mem hd)
    rw [Function.update_of_ne hss]
    exact h.still d (List.mem_cons_of_mem c hd) s' hs' ho
  made d hd := by
    have hne : d.2 ≠ t := by
      intro heq
      exact ht (List.mem_append_left _ (List.mem_map.2 ⟨d, List.mem_append_left _ hd, heq⟩))
    rw [Function.update_of_ne hne]
    exact h.made d hd
  frame v hv htv := by
    rw [List.mem_cons, not_or] at htv
    rw [Function.update_of_ne htv.1]
    exact h.frame v hv htv.2

end Moves

end Pending
end ParallelCopy
end Cact
