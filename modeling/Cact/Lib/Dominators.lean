import Mathlib

/-!
# Dominators of a graph

A directed graph with an entry. A node dominates another when it lies on every path
from the entry to it. A walk is the list of the nodes of a path, the last one first,
so that the part of the path up to one of its nodes is a suffix of the list.

- `Dominates.antisymm`, `Dominates.total`: the dominators of a reachable node form a
  chain.
- `StrictlyDominates.card_lt`: the closer a dominator, the more dominators it has.
- `IsIdom`, `exists_isIdom`: the immediate dominator.
- `IsIdom.dominates_pred`: it dominates every predecessor.
-/

namespace Cact

variable {N : Type}

/-- The nodes of a path from `a`, the last one first. -/
inductive Walk (edge : N → N → Prop) (a : N) : N → List N → Prop
  | nil : Walk edge a a [a]
  | snoc {b c : N} {l : List N} : Walk edge a b l → edge b c → Walk edge a c (c :: l)

namespace Walk

variable {edge : N → N → Prop} {a b c : N} {l l₁ l₂ l₃ : List N}

theorem last_mem (h : Walk edge a b l) : b ∈ l := by
  cases h with
  | nil => exact List.mem_cons_self
  | snoc _ _ => exact List.mem_cons_self

theorem first_mem (h : Walk edge a b l) : a ∈ l := by
  induction h with
  | nil => exact List.mem_cons_self
  | snoc _ _ ih => exact List.mem_cons_of_mem _ ih

theorem exists_tail (h : Walk edge a b l) : ∃ t, l = b :: t := by
  cases h with
  | nil => exact ⟨[], rfl⟩
  | snoc _ _ => exact ⟨_, rfl⟩

/-- The last edge of a walk. -/
theorem of_cons (h : Walk edge a b (c :: l)) (hl : l ≠ []) :
    c = b ∧ ∃ p, Walk edge a p l ∧ edge p b := by
  cases h with
  | nil => exact absurd rfl hl
  | snoc h he => exact ⟨rfl, _, h, he⟩

/-- The part of a walk up to one of its nodes. -/
theorem suffix (h : Walk edge a b (l₁ ++ c :: l₂)) : Walk edge a c (c :: l₂) := by
  induction l₁ generalizing b with
  | nil =>
    obtain ⟨t, ht⟩ := h.exists_tail
    cases ht
    exact h
  | cons d l₁ ih =>
    obtain ⟨_, p, hp, _⟩ := h.of_cons (by simp)
    exact ih hp

/-- The part of a walk up to one of its nodes can be exchanged. -/
theorem exchange (h : Walk edge a b (l₁ ++ c :: l₂)) (h' : Walk edge a c (c :: l₃)) :
    Walk edge a b (l₁ ++ c :: l₃) := by
  induction l₁ generalizing b with
  | nil =>
    obtain ⟨t, ht⟩ := h.exists_tail
    cases ht
    exact h'
  | cons d l₁ ih =>
    obtain ⟨rfl, p, hp, he⟩ := h.of_cons (by simp)
    exact (ih hp).snoc he

/-- A walk that comes to its last node only once. -/
theorem first_arrival (h : Walk edge a b l) : ∃ t, Walk edge a b (b :: t) ∧ b ∉ t := by
  induction hn : l.length using Nat.strong_induction_on generalizing l with
  | _ n ih =>
    obtain ⟨t, rfl⟩ := h.exists_tail
    by_cases hb : b ∈ t
    · obtain ⟨l₁, l₂, rfl⟩ := List.append_of_mem hb
      have hlast : Walk edge a b ((b :: l₁) ++ b :: l₂) := h
      have hsuf : Walk edge a b (b :: l₂) := hlast.suffix
      exact ih (b :: l₂).length (by simp at hn ⊢; omega) hsuf rfl
    · exact ⟨t, h, hb⟩

end Walk

section Dominators

variable (edge : N → N → Prop) (entry : N)

/-- Some path leads from the entry to `b`. -/
def Reachable (b : N) : Prop := ∃ l, Walk edge entry b l

/-- `d` lies on every path from the entry to `b`. -/
def Dominates (d b : N) : Prop := ∀ l, Walk edge entry b l → d ∈ l

def StrictlyDominates (d b : N) : Prop := d ≠ b ∧ Dominates edge entry d b

/-- The strict dominator that every other one dominates. -/
def IsIdom (i b : N) : Prop :=
  StrictlyDominates edge entry i b ∧ ∀ d, StrictlyDominates edge entry d b → Dominates edge entry d i

end Dominators

variable {edge : N → N → Prop} {entry b c d i p u v w : N}

theorem Reachable.start : Reachable edge entry entry := ⟨[entry], .nil⟩

theorem Reachable.step (h : Reachable edge entry b) (he : edge b c) : Reachable edge entry c := by
  obtain ⟨l, hl⟩ := h
  exact ⟨c :: l, hl.snoc he⟩

/-- A reachable node other than the entry has a reachable predecessor. -/
theorem Reachable.exists_pred (h : Reachable edge entry b) (hb : b ≠ entry) :
    ∃ p, Reachable edge entry p ∧ edge p b := by
  obtain ⟨l, hl⟩ := h
  cases hl with
  | nil => exact absurd rfl hb
  | snoc hl he => exact ⟨_, ⟨_, hl⟩, he⟩

/-! ## The order of the dominators -/

namespace Dominates

theorem refl : Dominates edge entry b b := fun _ h => h.last_mem

theorem of_entry : Dominates edge entry entry b := fun _ h => h.first_mem

theorem trans (h : Dominates edge entry d c) (h' : Dominates edge entry c b) :
    Dominates edge entry d b := by
  intro l hl
  obtain ⟨l₁, l₂, rfl⟩ := List.append_of_mem (h' l hl)
  exact List.mem_append_right _ (h _ hl.suffix)

theorem reachable (h : Dominates edge entry d b) (hb : Reachable edge entry b) :
    Reachable edge entry d := by
  obtain ⟨l, hl⟩ := hb
  obtain ⟨l₁, l₂, rfl⟩ := List.append_of_mem (h l hl)
  exact ⟨_, hl.suffix⟩

/-- Only the entry dominates the entry. -/
theorem eq_entry (h : Dominates edge entry d entry) : d = entry := by
  simpa using h [entry] .nil

theorem antisymm (hb : Reachable edge entry b) (h : Dominates edge entry c b)
    (h' : Dominates edge entry b c) : c = b := by
  obtain ⟨l, hl⟩ := hb
  obtain ⟨t, ht, hn⟩ := hl.first_arrival
  rcases List.mem_cons.1 (h _ ht) with hcb | hct
  · exact hcb
  · -- the walk to `c` inside the walk to `b` would have to come to `b` before
    obtain ⟨l₁, l₂, rfl⟩ := List.append_of_mem hct
    have hlast : Walk edge entry b ((b :: l₁) ++ c :: l₂) := ht
    have hc : Walk edge entry c (c :: l₂) := hlast.suffix
    exact absurd (List.mem_append_right _ (h' _ hc)) hn

theorem total (hw : Reachable edge entry w) (hu : Dominates edge entry u w)
    (hv : Dominates edge entry v w) : Dominates edge entry u v ∨ Dominates edge entry v u := by
  by_contra hno
  obtain ⟨huv, hvu⟩ := not_or.1 hno
  unfold Dominates at huv hvu
  push Not at huv hvu
  obtain ⟨lv, hlv, hu_lv⟩ := huv
  obtain ⟨lu, hlu, hv_lu⟩ := hvu
  obtain ⟨tv, rfl⟩ := hlv.exists_tail
  obtain ⟨tu, rfl⟩ := hlu.exists_tail
  obtain ⟨l, hl⟩ := hw
  -- after its last visit to `v` the walk passes `u`, and from there on `v` no more
  obtain ⟨l₁, l₂, rfl, hv_l₁⟩ := List.eq_append_cons_of_mem (hv _ hl)
  have hu_l₁ : u ∈ l₁ := by
    rcases List.mem_append.1 (hu _ (hl.exchange hlv)) with h | h
    · exact h
    · exact absurd h hu_lv
  obtain ⟨l₃, l₄, rfl⟩ := List.append_of_mem hu_l₁
  rw [List.append_assoc, List.cons_append] at hl
  rcases List.mem_append.1 (hv _ (hl.exchange hlu)) with h | h
  · exact hv_l₁ (List.mem_append_left _ h)
  · exact hv_lu h

/-- A dominator of all predecessors dominates the node. -/
theorem of_preds (hb : b ≠ entry)
    (h : ∀ p, edge p b → Reachable edge entry p → Dominates edge entry d p) :
    Dominates edge entry d b := by
  intro l hl
  cases hl with
  | nil => exact absurd rfl hb
  | snoc hl he => exact List.mem_cons_of_mem _ (h _ he ⟨_, hl⟩ _ hl)

end Dominates

namespace StrictlyDominates

theorem trans_dominates (hb : Reachable edge entry b) (h : StrictlyDominates edge entry d c)
    (h' : Dominates edge entry c b) : StrictlyDominates edge entry d b := by
  refine ⟨fun hdb => h.1 ?_, h.2.trans h'⟩
  exact Dominates.antisymm (h'.reachable hb) h.2 (hdb ▸ h')

theorem dominates_trans (hb : Reachable edge entry b) (h : Dominates edge entry d c)
    (h' : StrictlyDominates edge entry c b) : StrictlyDominates edge entry d b := by
  refine ⟨fun hdb => h'.1 ?_, h.trans h'.2⟩
  exact Dominates.antisymm hb h'.2 (hdb ▸ h)

/-- A strict dominator dominates every predecessor. -/
theorem dominates_pred (h : StrictlyDominates edge entry d b) (he : edge p b) :
    Dominates edge entry d p := by
  intro l hl
  rcases List.mem_cons.1 (h.2 _ (hl.snoc he)) with hdb | hd
  · exact absurd hdb h.1
  · exact hd

theorem ne_entry (h : StrictlyDominates edge entry d b) : b ≠ entry := by
  rintro rfl
  exact h.1 h.2.eq_entry

/-- A dominator has fewer dominators than what it dominates. -/
theorem card_lt {doms : N → Finset N} (hdoms : ∀ b, Reachable edge entry b → ∀ d,
    d ∈ doms b ↔ Dominates edge entry d b) (hb : Reachable edge entry b)
    (h : StrictlyDominates edge entry d b) : (doms d).card < (doms b).card := by
  have hd := h.2.reachable hb
  refine Finset.card_lt_card ⟨fun c hc => ?_, fun hsub => h.1 ?_⟩
  · exact (hdoms b hb c).2 (((hdoms d hd c).1 hc).trans h.2)
  · exact Dominates.antisymm hb h.2 ((hdoms d hd b).1 (hsub ((hdoms b hb b).2 .refl)))

end StrictlyDominates

/-! ## The immediate dominator -/

namespace IsIdom

theorem unique (hb : Reachable edge entry b) (hi : IsIdom edge entry i b)
    (hc : IsIdom edge entry c b) : i = c :=
  Dominates.antisymm (hc.1.2.reachable hb) (hc.2 i hi.1) (hi.2 c hc.1)

/-- The strict dominator with the most dominators is the immediate one. -/
theorem of_card_le {doms : N → Finset N} (hdoms : ∀ b, Reachable edge entry b → ∀ d,
    d ∈ doms b ↔ Dominates edge entry d b) (hb : Reachable edge entry b)
    (hi : StrictlyDominates edge entry i b)
    (hmax : ∀ d, StrictlyDominates edge entry d b → (doms d).card ≤ (doms i).card) :
    IsIdom edge entry i b := by
  refine ⟨hi, fun d hd => ?_⟩
  rcases Dominates.total hb hd.2 hi.2 with h | h
  · exact h
  · by_cases heq : i = d
    · exact heq ▸ Dominates.refl
    · have hlt := StrictlyDominates.card_lt hdoms (hd.2.reachable hb) ⟨heq, h⟩
      exact absurd (hmax d hd) (by omega)

/-- The strict dominators are the dominators of the immediate one. -/
theorem strictlyDominates_iff (hb : Reachable edge entry b) (hi : IsIdom edge entry i b) :
    StrictlyDominates edge entry d b ↔ Dominates edge entry d i := by
  constructor
  · exact hi.2 d
  · intro h
    exact StrictlyDominates.dominates_trans hb h hi.1

end IsIdom

/-- Every reachable node other than the entry has an immediate dominator. -/
theorem exists_isIdom {doms : N → Finset N} (hdoms : ∀ b, Reachable edge entry b → ∀ d,
    d ∈ doms b ↔ Dominates edge entry d b) (hb : Reachable edge entry b) (hne : b ≠ entry) :
    ∃ i, IsIdom edge entry i b := by
  classical
  have hentry : entry ∈ (doms b).erase b :=
    Finset.mem_erase.2 ⟨hne.symm, (hdoms b hb entry).2 .of_entry⟩
  obtain ⟨i, hi, hmax⟩ := Finset.exists_max_image ((doms b).erase b) (fun d => (doms d).card)
    ⟨entry, hentry⟩
  obtain ⟨hib, hid⟩ := Finset.mem_erase.1 hi
  refine ⟨i, .of_card_le hdoms hb ⟨hib, (hdoms b hb i).1 hid⟩ fun d hd => ?_⟩
  exact hmax d (Finset.mem_erase.2 ⟨hd.1, (hdoms b hb d).2 hd.2⟩)

end Cact
