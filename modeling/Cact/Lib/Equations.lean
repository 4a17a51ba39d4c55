import Mathlib

/-!
# Equations solved by lowering values

A system of equations gives each of finitely many nodes a value computed from the
values of all nodes. It is solved from above: as long as some node has a value other
than its equation demands, the node gets that one. The values only ever go down, so
this ends, and it ends in the greatest solution.

- `Equations`: the system, with its order and a rank that bounds how far values go down.
- `Descending`, `Consistent`: what lies above, and what lies below its right-hand sides.
- `potential_step_lt`: a step that changes a value lowers the potential.
- `Consistent.le_step`: what lies below and is consistent stays below.
-/

namespace Cact

/-- A system of equations. Values are compared by `le`; `ok` are the values that occur. -/
structure Equations (B N D : Type) where
  nodes : List B
  key : B → N
  rhs : B → (N → D) → D
  le : D → D → Prop
  ok : D → Prop
  rank : D → Nat
  key_inj : ∀ b ∈ nodes, ∀ c ∈ nodes, key b = key c → b = c
  le_refl : ∀ d, le d d
  le_trans : ∀ d₁ d₂ d₃, le d₁ d₂ → le d₂ d₃ → le d₁ d₃
  rank_lt : ∀ d d', ok d → ok d' → le d d' → d ≠ d' → rank d < rank d'
  mono : ∀ b ∈ nodes, ∀ x y, (∀ n, le (x n) (y n)) → le (rhs b x) (rhs b y)
  rhs_ok : ∀ b ∈ nodes, ∀ x, (∀ n, ok (x n)) → ok (rhs b x)

namespace Equations

variable {B N D : Type} [DecidableEq N] (E : Equations B N D)

/-- The node gets the value its equation demands. -/
def step (x : N → D) (b : B) : N → D := Function.update x (E.key b) (E.rhs b x)

/-- The values are those that occur, and none is below the one its equation demands. -/
structure Descending (x : N → D) : Prop where
  ok : ∀ n, E.ok (x n)
  le : ∀ b ∈ E.nodes, E.le (E.rhs b x) (x (E.key b))

/-- No value is above the one its equation demands. -/
def Consistent (x : N → D) : Prop := ∀ b ∈ E.nodes, E.le (x (E.key b)) (E.rhs b x)

/-- How far the values can still go down. -/
def potential (x : N → D) : Nat := (E.nodes.map fun b => E.rank (x (E.key b))).sum

variable {E} {x y : N → D} {b : B}

@[simp] theorem step_key : E.step x b (E.key b) = E.rhs b x := by simp [step]

theorem step_of_ne {n : N} (h : n ≠ E.key b) : E.step x b n = x n := by simp [step, h]

theorem step_eq_self (h : E.rhs b x = x (E.key b)) : E.step x b = x := by
  unfold step
  rw [h, Function.update_eq_self]

theorem Descending.step_le (h : E.Descending x) (hb : b ∈ E.nodes) (n : N) :
    E.le (E.step x b n) (x n) := by
  by_cases hn : n = E.key b
  · rw [hn, step_key]
    exact h.le b hb
  · rw [step_of_ne hn]
    exact E.le_refl _

theorem Descending.step (h : E.Descending x) (hb : b ∈ E.nodes) : E.Descending (E.step x b) where
  ok n := by
    by_cases hn : n = E.key b
    · rw [hn, step_key]
      exact E.rhs_ok b hb x h.ok
    · rw [step_of_ne hn]
      exact h.ok n
  le c hc := by
    have hmono := E.mono c hc (E.step x b) x (h.step_le hb)
    by_cases hcb : E.key c = E.key b
    · obtain rfl := E.key_inj c hc b hb hcb
      rw [step_key]
      exact hmono
    · rw [step_of_ne hcb]
      exact E.le_trans _ _ _ hmono (h.le c hc)

/-- What is consistent and below the values stays below them. -/
theorem Consistent.le_step (hy : E.Consistent y) (hb : b ∈ E.nodes) (h : ∀ n, E.le (y n) (x n))
    (n : N) : E.le (y n) (E.step x b n) := by
  by_cases hn : n = E.key b
  · rw [hn, step_key]
    exact E.le_trans _ _ _ (hy b hb) (E.mono b hb y x h)
  · rw [step_of_ne hn]
    exact h n

theorem potential_step_lt (h : E.Descending x) (hb : b ∈ E.nodes)
    (hne : E.rhs b x ≠ x (E.key b)) : E.potential (E.step x b) < E.potential x := by
  have hrank : ∀ c ∈ E.nodes, E.rank (E.step x b (E.key c)) ≤ E.rank (x (E.key c)) := by
    intro c hc
    by_cases heq : E.step x b (E.key c) = x (E.key c)
    · rw [heq]
    · exact (E.rank_lt _ _ ((h.step hb).ok _) (h.ok _) (h.step_le hb _) heq).le
  refine List.sum_lt_sum _ _ hrank ⟨b, hb, ?_⟩
  rw [step_key]
  exact E.rank_lt _ _ (E.rhs_ok b hb x h.ok) (h.ok _) (h.le b hb) hne

end Equations
end Cact
