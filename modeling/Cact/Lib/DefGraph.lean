import Mathlib

/-!
# Definitions along the paths of a graph

A graph of program points with an entry, and at each point the variables that are
defined on arrival there. A variable is available at a point when no path from the
entry gets there without passing a definition of it. The lemmas are about programs
in which every variable has one definition and the operands of a definition are
available where it is computed.

- `Misses v p`: a path to `p` that does not define `v`.
- `Avail.operand`: what a definition reads is available wherever its result is.
- `Reads.stable`: and it is not defined again while the result is available.
- `Law.step`: so what a definition established about its result and its operands goes on
  to hold at every point where the result is available.
-/

namespace Cact

/-- A graph of points, and the variables defined on arrival at each of them. -/
structure DefGraph (P V : Type) where
  entry : P
  edge : P → P → Prop
  defs : P → V → Prop
  /-- nothing is defined on arrival at the entry -/
  entry_defs : ∀ v, ¬defs entry v

namespace DefGraph

variable {P V : Type} (g : DefGraph P V)

/-- The points a path leads to from the entry. -/
inductive Reach : P → Prop
  | entry : Reach g.entry
  | step {p q : P} : Reach p → g.edge p q → Reach q

/-- The points a path that does not define `v` leads to from the entry. -/
inductive Misses (v : V) : P → Prop
  | entry : Misses v g.entry
  | step {p q : P} : Misses v p → g.edge p q → ¬g.defs q v → Misses v q

/-- Every path to the point defines `v`. -/
def Avail (v : V) (p : P) : Prop := ¬g.Misses v p

/-- `v` is defined nowhere, or available. -/
def Ready (v : V) (p : P) : Prop := (∃ q, g.defs q v) → g.Avail v p

/-- The definition of a variable is in one place. -/
def Unique (v : V) : Prop := ∀ p q, g.defs p v → g.defs q v → p = q

/-- Wherever `v` is about to be defined, `w` is ready to be read. -/
def Reads (v w : V) : Prop := ∀ p q, g.edge p q → g.defs q v → g.Ready w p

variable {g} {v w : V} {p q : P}

theorem Misses.reach (h : g.Misses v p) : g.Reach p := by
  induction h with
  | entry => exact .entry
  | step _ he _ ih => exact ih.step he

/-- A path to a point where `v` is defined comes there without `v` for the first time. -/
theorem Reach.first_arrival (hr : g.Reach p) :
    g.Misses v p ∨ ∃ q r, g.defs r v ∧ g.Misses v q ∧ g.edge q r := by
  induction hr with
  | entry => exact .inl .entry
  | @step p q _ he ih =>
    rcases ih with hp | hfirst
    · by_cases hd : g.defs q v
      · exact .inr ⟨p, q, hd, hp, he⟩
      · exact .inl (hp.step he hd)
    · exact .inr hfirst

theorem Reach.misses_before (hr : g.Reach q) (hu : g.Unique v) (hd : g.defs q v) :
    ∃ p, g.Misses v p ∧ g.edge p q := by
  rcases hr.first_arrival (v := v) with hq | ⟨p, r, hr', hp, he⟩
  · cases hq with
    | entry => exact absurd hd (g.entry_defs v)
    | step _ _ hn => exact absurd hd hn
  · exact ⟨p, hp, hu r q hr' hd ▸ he⟩

theorem Avail.of_edge (h : g.Avail v q) (he : g.edge p q) (hn : ¬g.defs q v) : g.Avail v p :=
  fun hm => h (hm.step he hn)

theorem Ready.of_edge (h : g.Ready v q) (he : g.edge p q) (hn : ¬g.defs q v) : g.Ready v p :=
  fun hd => (h hd).of_edge he hn

/-- A path without `w` has no `v` either, when `v` reads `w`. -/
theorem Reads.misses (h : g.Reads v w) (hw : ∃ q, g.defs q w) (hm : g.Misses w p) :
    g.Misses v p := by
  induction hm with
  | entry => exact .entry
  | @step p q hm he hn ih =>
    refine ih.step he fun hd => ?_
    exact h p q he hd hw hm

/-- What a definition reads is available wherever its result is. -/
theorem Avail.operand (hv : g.Avail v p) (h : g.Reads v w) : g.Ready w p :=
  fun hw hm => hv (h.misses hw hm)

/-- It is enough to reread `v` itself where `w` is not ready, as a phi in a loop does. -/
theorem Reads.of_self (h : ∀ p q, g.edge p q → g.defs q v → g.Ready w p ∨ g.Ready v p) :
    g.Reads v w := by
  have hmiss : (∃ q, g.defs q w) → ∀ p, g.Misses w p → g.Misses v p := by
    intro hw p hm
    induction hm with
    | entry => exact .entry
    | @step p q hm he hn ih =>
      refine ih.step he fun hd => ?_
      rcases h p q he hd with hp | hp
      · exact hp hw hm
      · exact hp ⟨q, hd⟩ ih
  intro p q he hd hw hm
  rcases h p q he hd with hp | hp
  · exact hp hw hm
  · exact hp ⟨q, hd⟩ (hmiss hw p hm)

/-- What a definition reads is not defined again while the result is available. -/
theorem Reads.not_defs (h : g.Reads v w) (hu : g.Unique w) (hr : g.Reach q) (hv : g.Avail v q)
    (hn : ¬g.defs q v) : ¬g.defs q w := by
  intro hw
  obtain ⟨p, hp, he⟩ := hr.misses_before hu hw
  exact hv ((h.misses ⟨q, hw⟩ hp).step he hn)

/-- Nothing a definition reads is defined in the same place. -/
theorem Reads.not_defs_self (h : g.Reads v w) (hu : g.Unique w) (hr : g.Reach q)
    (hv : g.defs q v) : ¬g.defs q w := by
  intro hw
  obtain ⟨p, hp, he⟩ := hr.misses_before hu hw
  exact h p q he hv ⟨q, hw⟩ hp

/-- Where `v` is available, what it reads is not defined on arrival. -/
theorem Reads.stable (h : g.Reads v w) (hu : g.Unique w) (hr : g.Reach q) (hv : g.Avail v q) :
    ¬g.defs q w := by
  by_cases hd : g.defs q v
  · exact h.not_defs_self hu hr hd
  · exact h.not_defs hu hr hv hd

/-! ## Laws -/

/-- Something a definition of `v` establishes about `v` and the variables it reads. It
stays true while none of these changes. -/
structure Law (g : DefGraph P V) (E : Type) (same : E → E → V → Prop) where
  var : V
  operands : V → Prop
  holds : E → Prop
  reads : ∀ w, operands w → g.Reads var w ∧ g.Unique w
  stable : ∀ e e', same e e' var → (∀ w, operands w → same e e' w) → holds e → holds e'

/-- One step along an edge keeps a law. -/
theorem Law.step {E : Type} {same : E → E → V → Prop} (l : Law g E same) {e e' : E}
    (hr : g.Reach p) (he : g.edge p q)
    (hsame : ∀ v, v = l.var ∨ l.operands v → ¬g.defs q v → same e e' v)
    (hnew : g.defs q l.var → l.holds e') (hold : g.Avail l.var p → l.holds e)
    (hav : g.Avail l.var q) : l.holds e' := by
  by_cases hd : g.defs q l.var
  · exact hnew hd
  · refine l.stable e e' (hsame _ (.inl rfl) hd) (fun w hw => hsame w (.inr hw) ?_)
      (hold (hav.of_edge he hd))
    exact (l.reads w hw).1.stable (l.reads w hw).2 (hr.step he) hav

end DefGraph

end Cact
