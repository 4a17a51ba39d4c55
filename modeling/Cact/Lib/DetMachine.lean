import Mathlib

/-!
# Deterministic machines and simulations between them

A machine is a partial step function with a trace of what it has shown so far.
A state without a step has halted, and its verdict is what an observer is left
with. Everything a caller can see of a run is in `ObsEq`: which verdicts the
run halts with, and which traces it gets to show (also when it never halts).

`Simulation` is the proof rule of this development. Related states either have
both halted with one verdict, or one or both of them can run on to related
states; a side that waits must make the rank decrease. Determinism turns this
one rule into both directions of `ObsEq`.
-/

namespace Cact

universe u v w

/-- A deterministic machine: `step s = none` when `s` has halted. -/
structure DetMachine (S : Type u) (E : Type v) (V : Type w) where
  step : S → Option S
  trace : S → List E
  verdict : S → V
  trace_mono : ∀ s t, step s = some t → trace s <+: trace t

namespace DetMachine

variable {S S' S'' : Type u} {E : Type v} {V : Type w}

/-- `n` steps lead from `s` to `t`. -/
def Steps (m : DetMachine S E V) : Nat → S → S → Prop
  | 0, s, t => s = t
  | n + 1, s, t => ∃ u, m.step s = some u ∧ m.Steps n u t

/-- Some number of steps leads from `s` to `t`. -/
def Reaches (m : DetMachine S E V) (s t : S) : Prop := ∃ n, m.Steps n s t

/-- At least one step leads from `s` to `t`. -/
def ReachesPlus (m : DetMachine S E V) (s t : S) : Prop := ∃ n, m.Steps (n + 1) s t

/-- The run from `s` halts with verdict `v` and final trace `tr`. -/
def Halts (m : DetMachine S E V) (s : S) (tr : List E) (v : V) : Prop :=
  ∃ t, m.Reaches s t ∧ m.step t = none ∧ m.trace t = tr ∧ m.verdict t = v

/-- The run from `s` shows at least `tr` at some point. -/
def Emits (m : DetMachine S E V) (s : S) (tr : List E) : Prop :=
  ∃ t, m.Reaches s t ∧ tr <+: m.trace t

/-- Two runs cannot be told apart: they halt alike and show the same traces. -/
structure ObsEq (m : DetMachine S E V) (s : S) (m' : DetMachine S' E V) (s' : S') : Prop where
  halts : ∀ tr v, m.Halts s tr v ↔ m'.Halts s' tr v
  emits : ∀ tr, m.Emits s tr ↔ m'.Emits s' tr

theorem ObsEq.refl (m : DetMachine S E V) (s : S) : m.ObsEq s m s :=
  ⟨fun _ _ => Iff.rfl, fun _ => Iff.rfl⟩

theorem ObsEq.symm {m : DetMachine S E V} {s : S} {m' : DetMachine S' E V} {s' : S'}
    (h : m.ObsEq s m' s') : m'.ObsEq s' m s :=
  ⟨fun tr v => (h.halts tr v).symm, fun tr => (h.emits tr).symm⟩

theorem ObsEq.trans {m : DetMachine S E V} {s : S} {m' : DetMachine S' E V} {s' : S'}
    {m'' : DetMachine S'' E V} {s'' : S''} (h : m.ObsEq s m' s') (h' : m'.ObsEq s' m'' s'') :
    m.ObsEq s m'' s'' :=
  ⟨fun tr v => (h.halts tr v).trans (h'.halts tr v), fun tr => (h.emits tr).trans (h'.emits tr)⟩

/-! ## Step counting -/

section Steps

variable {m : DetMachine S E V} {s t u : S} {n k : Nat}

@[simp] theorem steps_zero : m.Steps 0 s t ↔ s = t := Iff.rfl

theorem steps_one (h : m.step s = some t) : m.Steps 1 s t := ⟨t, h, rfl⟩

theorem Steps.trans (h : m.Steps n s t) (h' : m.Steps k t u) : m.Steps (n + k) s u := by
  induction n generalizing s with
  | zero =>
    cases h
    simpa using h'
  | succ n ih =>
    obtain ⟨v, hv, h⟩ := h
    rw [Nat.succ_add]
    exact ⟨v, hv, ih h⟩

/-- A run that is at least as long as another passes through the other's end. -/
theorem Steps.split (h : m.Steps n s t) (h' : m.Steps k s u) (hk : k ≤ n) :
    m.Steps (n - k) u t := by
  induction k generalizing n s with
  | zero =>
    cases h'
    simpa using h
  | succ k ih =>
    cases n with
    | zero => omega
    | succ n =>
      obtain ⟨v, hv, h⟩ := h
      obtain ⟨v', hv', h'⟩ := h'
      rw [hv] at hv'
      cases hv'
      rw [Nat.succ_sub_succ]
      exact ih h h' (by omega)

/-- Runs of one length end in one state. -/
theorem Steps.det (h : m.Steps n s t) (h' : m.Steps n s u) : t = u := by
  have hrest := h.split h' (Nat.le_refl n)
  rw [Nat.sub_self] at hrest
  exact hrest.symm

/-- A halted state ends every run that reaches it. -/
theorem Steps.le_of_halted (h : m.Steps n s t) (ht : m.step t = none) (h' : m.Steps k s u) :
    k ≤ n := by
  by_contra hlt
  obtain ⟨j, hj⟩ : ∃ j, k - n = j + 1 := ⟨k - n - 1, by omega⟩
  have hrest := h'.split h (by omega)
  rw [hj] at hrest
  obtain ⟨v, hv, -⟩ := hrest
  rw [ht] at hv
  cases hv

theorem Steps.trace_mono (h : m.Steps n s t) : m.trace s <+: m.trace t := by
  induction n generalizing s with
  | zero =>
    cases h
    exact List.prefix_refl _
  | succ n ih =>
    obtain ⟨v, hv, h⟩ := h
    exact (m.trace_mono s v hv).trans (ih h)

theorem Reaches.refl : m.Reaches s s := ⟨0, rfl⟩

theorem Reaches.trans (h : m.Reaches s t) (h' : m.Reaches t u) : m.Reaches s u := by
  obtain ⟨n, hn⟩ := h
  obtain ⟨k, hk⟩ := h'
  exact ⟨n + k, hn.trans hk⟩

theorem Reaches.tail (h : m.Reaches s t) (h' : m.step t = some u) : m.Reaches s u :=
  h.trans ⟨1, steps_one h'⟩

theorem ReachesPlus.reaches (h : m.ReachesPlus s t) : m.Reaches s t := by
  obtain ⟨n, hn⟩ := h
  exact ⟨n + 1, hn⟩

theorem reachesPlus_of_step (h : m.step s = some t) : m.ReachesPlus s t := ⟨0, steps_one h⟩

theorem ReachesPlus.trans (h : m.ReachesPlus s t) (h' : m.Reaches t u) : m.ReachesPlus s u := by
  obtain ⟨n, hn⟩ := h
  obtain ⟨k, hk⟩ := h'
  exact ⟨n + k, by rw [Nat.add_right_comm]; exact hn.trans hk⟩

/-- An invariant of every step holds in every state a run reaches. -/
theorem Reaches.invariant {I : S → Prop} (hI : ∀ a b, I a → m.step a = some b → I b)
    (h : m.Reaches s t) (hs : I s) : I t := by
  obtain ⟨n, hn⟩ := h
  induction n generalizing s with
  | zero =>
    cases hn
    exact hs
  | succ n ih =>
    obtain ⟨v, hv, hn⟩ := hn
    exact ih (hI s v hs hv) hn

end Steps

/-! ## Bounded runs -/

/-- The run for at most `n` steps. -/
def run (m : DetMachine S E V) : Nat → S → S
  | 0, s => s
  | n + 1, s =>
    match m.step s with
    | none => s
    | some t => m.run n t

theorem reaches_run (m : DetMachine S E V) (n : Nat) (s : S) : m.Reaches s (m.run n s) := by
  induction n generalizing s with
  | zero => exact .refl
  | succ n ih =>
    unfold run
    split
    · exact .refl
    · rename_i t ht
      exact Reaches.trans ⟨1, steps_one ht⟩ (ih t)

/-- A run halts in one way only. -/
theorem Halts.det {m : DetMachine S E V} {s : S} {tr tr' : List E} {v v' : V}
    (h : m.Halts s tr v) (h' : m.Halts s tr' v') : tr = tr' ∧ v = v' := by
  obtain ⟨t, ⟨n, hn⟩, ht, rfl, rfl⟩ := h
  obtain ⟨t', ⟨k, hk⟩, ht', rfl, rfl⟩ := h'
  have hle := hn.le_of_halted ht hk
  have hge := hk.le_of_halted ht' hn
  obtain rfl : n = k := by omega
  obtain rfl := hn.det hk
  exact ⟨rfl, rfl⟩

/-- Runs that halt with different traces can be told apart. -/
theorem not_obsEq_of_run {m : DetMachine S E V} {s : S} {m' : DetMachine S' E V} {s' : S'}
    (n k : Nat) (h : m.step (m.run n s) = none) (h' : m'.step (m'.run k s') = none)
    (hne : m.trace (m.run n s) ≠ m'.trace (m'.run k s')) : ¬ m.ObsEq s m' s' := by
  intro hobs
  have hhalt : m'.Halts s' _ _ := (hobs.halts _ _).mp ⟨_, m.reaches_run n s, h, rfl, rfl⟩
  exact hne (hhalt.det ⟨_, m'.reaches_run k s', h', rfl, rfl⟩).1

/-! ## The simulation rule -/

/-- What related states may do next: halt together, run on together, or let one
side run on while the rank of the pair decreases. -/
inductive Progress (m : DetMachine S E V) (m' : DetMachine S' E V) (R : S → S' → Prop)
    (rank : S → S' → Nat) (s : S) (s' : S') : Prop
  | halt (h : m.step s = none) (h' : m'.step s' = none) (hv : m.verdict s = m'.verdict s')
  | both (t : S) (t' : S') (h : m.ReachesPlus s t) (h' : m'.ReachesPlus s' t') (hR : R t t')
  | left (t : S) (h : m.ReachesPlus s t) (hR : R t s') (hr : rank t s' < rank s s')
  | right (t' : S') (h' : m'.ReachesPlus s' t') (hR : R s t') (hr : rank s t' < rank s s')

/-- `R` is a simulation between two machines: related states have shown the same
and always make progress. -/
structure Simulation (m : DetMachine S E V) (m' : DetMachine S' E V) (R : S → S' → Prop)
    (rank : S → S' → Nat) : Prop where
  trace_eq : ∀ s s', R s s' → m.trace s = m'.trace s'
  progress : ∀ s s', R s s' → Progress m m' R rank s s'

namespace Simulation

variable {m : DetMachine S E V} {m' : DetMachine S' E V} {R : S → S' → Prop}
  {rank : S → S' → Nat}

/-- Simulations are symmetric. -/
theorem swap (h : Simulation m m' R rank) :
    Simulation m' m (fun s' s => R s s') (fun s' s => rank s s') where
  trace_eq s' s hR := (h.trace_eq s s' hR).symm
  progress s' s hR := by
    cases h.progress s s' hR with
    | halt h h' hv => exact .halt h' h hv.symm
    | both t t' h h' hR => exact .both t' t h' h hR
    | left t h hR hr => exact .right t h hR hr
    | right t' h' hR hr => exact .left t' h' hR hr

/-- The left run to a halted state is matched on the right. The induction is on
the number of left steps that remain and, while the left side waits, on the rank. -/
theorem halts_right (h : Simulation m m' R rank) {s t : S} {s' : S'} (hR : R s s') {n : Nat}
    (hn : m.Steps n s t) (ht : m.step t = none) :
    ∃ t', m'.Reaches s' t' ∧ m'.step t' = none ∧ m'.trace t' = m.trace t ∧
      m'.verdict t' = m.verdict t := by
  induction n using Nat.strongRecOn generalizing s s' with
  | _ n ihn =>
    induction hk : rank s s' using Nat.strongRecOn generalizing s' with
    | _ k ihk =>
      subst hk
      cases h.progress s s' hR with
      | halt hs hs' hv =>
        have hn0 : n = 0 := by
          cases n with
          | zero => rfl
          | succ n =>
            obtain ⟨v, hv, -⟩ := hn
            rw [hs] at hv
            cases hv
        subst hn0
        cases hn
        exact ⟨s', .refl, hs', (h.trace_eq _ _ hR).symm, hv.symm⟩
      | both u u' hu hu' hR' =>
        obtain ⟨j, hj⟩ := hu
        have hle := hn.le_of_halted ht hj
        obtain ⟨t', hr, hrest⟩ := ihn (n - (j + 1)) (by omega) hR' (hn.split hj hle)
        exact ⟨t', hu'.reaches.trans hr, hrest⟩
      | left u hu hR' _ =>
        obtain ⟨j, hj⟩ := hu
        have hle := hn.le_of_halted ht hj
        exact ihn (n - (j + 1)) (by omega) hR' (hn.split hj hle)
      | right u' hu' hR' hr =>
        obtain ⟨t', hr', hrest⟩ := ihk (rank s u') hr hR' rfl
        exact ⟨t', hu'.reaches.trans hr', hrest⟩

/-- What the left run shows, the right run shows as well. -/
theorem emits_right (h : Simulation m m' R rank) {s t : S} {s' : S'} (hR : R s s') {n : Nat}
    (hn : m.Steps n s t) : ∃ t', m'.Reaches s' t' ∧ m.trace t <+: m'.trace t' := by
  induction n using Nat.strongRecOn generalizing s s' with
  | _ n ihn =>
    induction hk : rank s s' using Nat.strongRecOn generalizing s' with
    | _ k ihk =>
      subst hk
      by_cases hn0 : n = 0
      · subst hn0
        cases hn
        exact ⟨s', .refl, h.trace_eq _ _ hR ▸ List.prefix_refl _⟩
      cases h.progress s s' hR with
      | halt hs _ _ =>
        obtain ⟨n, rfl⟩ := Nat.exists_eq_succ_of_ne_zero hn0
        obtain ⟨v, hv, -⟩ := hn
        rw [hs] at hv
        cases hv
      | both u u' hu hu' hR' =>
        obtain ⟨j, hj⟩ := hu
        by_cases hle : j + 1 ≤ n
        · obtain ⟨t', hr, ht'⟩ := ihn (n - (j + 1)) (by omega) hR' (hn.split hj hle)
          exact ⟨t', hu'.reaches.trans hr, ht'⟩
        · -- the run stops inside the burst, whose end has shown at least as much
          have hrest := hj.split hn (by omega)
          exact ⟨u', hu'.reaches, by rw [← h.trace_eq u u' hR']; exact hrest.trace_mono⟩
      | left u hu hR' _ =>
        obtain ⟨j, hj⟩ := hu
        by_cases hle : j + 1 ≤ n
        · exact ihn (n - (j + 1)) (by omega) hR' (hn.split hj hle)
        · have hrest := hj.split hn (by omega)
          exact ⟨s', .refl, by rw [← h.trace_eq u s' hR']; exact hrest.trace_mono⟩
      | right u' hu' hR' hr =>
        obtain ⟨t', hr', ht'⟩ := ihk (rank s u') hr hR' rfl
        exact ⟨t', hu'.reaches.trans hr', ht'⟩

/-- Related states cannot be told apart. -/
theorem obsEq (h : Simulation m m' R rank) {s : S} {s' : S'} (hR : R s s') : m.ObsEq s m' s' where
  halts tr v := by
    constructor
    · rintro ⟨t, ⟨n, hn⟩, ht, rfl, rfl⟩
      exact h.halts_right hR hn ht
    · rintro ⟨t, ⟨n, hn⟩, ht, rfl, rfl⟩
      exact h.swap.halts_right hR hn ht
  emits tr := by
    constructor
    · rintro ⟨t, ⟨n, hn⟩, ht⟩
      obtain ⟨t', hr, ht'⟩ := h.emits_right hR hn
      exact ⟨t', hr, ht.trans ht'⟩
    · rintro ⟨t, ⟨n, hn⟩, ht⟩
      obtain ⟨t', hr, ht'⟩ := h.swap.emits_right hR hn
      exact ⟨t', hr, ht.trans ht'⟩

end Simulation

/-- The states of the left run that are not hidden inside a burst are matched on
the right. The induction is on the number of left steps. -/
theorem follow {m : DetMachine S E V} {m' : DetMachine S' E V} {R : S → S' → Prop}
    {Vis : S → Prop}
    (hburst : ∀ s s', R s s' → m.step s = none ∨
      ∃ k t t', m.Steps (k + 1) s t ∧ m'.Reaches s' t' ∧ R t t' ∧
        ∀ j u, 0 < j → j ≤ k → m.Steps j s u → ¬ Vis u)
    (n : Nat) {s t : S} {s' : S'} (hR : R s s') (hn : m.Steps n s t) (ht : Vis t) :
    ∃ t', m'.Reaches s' t' ∧ R t t' := by
  induction n using Nat.strongRecOn generalizing s s' with
  | _ n ih =>
    by_cases hn0 : n = 0
    · subst hn0
      cases hn
      exact ⟨s', .refl, hR⟩
    obtain hs | ⟨k, u, u', hu, hu', hR', hhidden⟩ := hburst s s' hR
    · obtain ⟨n, rfl⟩ := Nat.exists_eq_succ_of_ne_zero hn0
      obtain ⟨v, hv, -⟩ := hn
      rw [hs] at hv
      cases hv
    · by_cases hle : k + 1 ≤ n
      · obtain ⟨t', ht', hRt⟩ := ih (n - (k + 1)) (by omega) hR' (hn.split hu hle)
        exact ⟨t', hu'.trans ht', hRt⟩
      · exact absurd ht (hhidden n t (by omega) (by omega) hn)

end DetMachine

end Cact
