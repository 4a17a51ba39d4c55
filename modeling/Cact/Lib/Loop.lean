import Mathlib

/-!
# Loops of fallible computations

A `for` loop over a list is `List.foldlM`; a `while` loop is `whileM`, cut off after
a number of rounds, so that a loop that does not end is one that no number of rounds
is enough for.

- `Yields x Q`: `x` does not throw and its result satisfies `Q`.
- `Yields.foldlM`, `Yields.allM`, `Yields.filterM`: the rules of the list loops.
- `foldlM_ok`, `filterM_ok`: what a loop that did not throw has kept.
- `whileM_total`: a loop with an invariant and a decreasing measure ends.
- `whileM_ok`, `Rounds.inv`: a loop that has ended, and what its rounds have kept.
- `whileM_diverges`: a loop with an invariant that keeps its condition does not.
-/

namespace Cact

variable {ε σ α β : Type}

/-! ## Computations that do not throw -/

/-- `x` succeeds with a result that satisfies `Q`. -/
def Yields (x : Except ε α) (Q : α → Prop) : Prop := ∃ a, x = .ok a ∧ Q a

namespace Yields

variable {x : Except ε α} {Q Q' : α → Prop}

theorem pure {a : α} (h : Q a) : Yields (Pure.pure a : Except ε α) Q := ⟨a, rfl, h⟩

theorem ok {a : α} (h : Q a) : Yields (.ok a : Except ε α) Q := ⟨a, rfl, h⟩

theorem mono (h : Yields x Q) (hq : ∀ a, Q a → Q' a) : Yields x Q' := by
  obtain ⟨a, rfl, ha⟩ := h
  exact ⟨a, rfl, hq a ha⟩

theorem bind {f : α → Except ε β} {R : β → Prop} (h : Yields x Q)
    (hf : ∀ a, Q a → Yields (f a) R) : Yields (x >>= f) R := by
  obtain ⟨a, rfl, ha⟩ := h
  exact hf a ha

/-- What holds of the state before each round, with the elements still to come. -/
theorem foldlM {f : σ → α → Except ε σ} {I : List α → σ → Prop} {l : List α}
    (hf : ∀ a l s, I (a :: l) s → Yields (f s a) (I l)) {s : σ} (hs : I l s) :
    Yields (l.foldlM f s) (I []) := by
  induction l generalizing s with
  | nil => exact ⟨s, rfl, hs⟩
  | cons a l ih =>
    rw [List.foldlM_cons]
    exact (hf a l s hs).bind fun s' hs' => ih hs'

/-- What every round keeps, whatever the element. -/
theorem foldlM_inv {f : σ → α → Except ε σ} {I : σ → Prop} {l : List α}
    (hf : ∀ a ∈ l, ∀ s, I s → Yields (f s a) I) {s : σ} (hs : I s) :
    Yields (l.foldlM f s) I := by
  have hfold : Yields (l.foldlM f s) fun s => (∀ a ∈ ([] : List α), a ∈ l) ∧ I s := by
    refine foldlM (f := f) (I := fun l' s => (∀ a ∈ l', a ∈ l) ∧ I s) ?_ ⟨fun a ha => ha, hs⟩
    intro a l' s h
    refine (hf a (h.1 a (by simp)) s h.2).mono fun s' hs' => ⟨fun b hb => ?_, hs'⟩
    exact h.1 b (List.mem_cons_of_mem a hb)
  exact hfold.mono fun s h => h.2

theorem allM {p : α → Except ε Bool} {l : List α} (h : ∀ a ∈ l, Yields (p a) fun _ => True) :
    Yields (l.allM p) fun _ => True := by
  induction l with
  | nil => exact ⟨true, rfl, trivial⟩
  | cons a l ih =>
    simp only [List.allM]
    refine (h a (by simp)).bind fun b _ => ?_
    cases b with
    | true => exact ih fun c hc => h c (by simp [hc])
    | false => exact ⟨false, rfl, trivial⟩

theorem filterAuxM {p : α → Except ε Bool} {q : α → Bool} {l acc : List α}
    (h : ∀ a ∈ l, p a = .ok (q a)) :
    l.filterAuxM p acc = .ok ((l.filter q).reverse ++ acc) := by
  induction l generalizing acc with
  | nil => rfl
  | cons a l ih =>
    simp only [List.filterAuxM, h a (by simp)]
    show List.filterAuxM p l (cond (q a) (a :: acc) acc) = _
    rw [ih fun b hb => h b (by simp [hb])]
    cases hq : q a with
    | true => simp [hq]
    | false => simp [hq]

theorem filterM {p : α → Except ε Bool} {q : α → Bool} {l : List α}
    (h : ∀ a ∈ l, p a = .ok (q a)) : l.filterM p = .ok (l.filter q) := by
  unfold List.filterM
  rw [filterAuxM h]
  show Except.ok _ = _
  simp

end Yields

/-! ## Computations that did not throw -/

/-- What the rounds of a loop over a list keep, if none of them throws: with the elements
still to come, of which the last ones may lie behind the end of the loop. -/
theorem foldlM_ok {f : σ → α → Except ε σ} {I : List α → σ → Prop}
    (hf : ∀ a l s s', I (a :: l) s → f s a = .ok s' → I l s') {l rest : List α} {s s' : σ}
    (hs : I (l ++ rest) s) (h : l.foldlM f s = .ok s') : I rest s' := by
  induction l generalizing s with
  | nil =>
    cases h
    exact hs
  | cons a l ih =>
    rw [List.foldlM_cons] at h
    cases ha : f s a with
    | error e =>
      rw [ha] at h
      cases h
    | ok t =>
      rw [ha] at h
      exact ih (hf a (l ++ rest) s t hs ha) h

theorem foldlM_ok_inv {f : σ → α → Except ε σ} {I : σ → Prop} {l : List α} {s s' : σ}
    (hf : ∀ a ∈ l, ∀ s s', I s → f s a = .ok s' → I s') (hs : I s)
    (h : l.foldlM f s = .ok s') : I s' := by
  have hround : ∀ a l' s s', ((∀ b ∈ a :: l', b ∈ l) ∧ I s) → f s a = .ok s' →
      (∀ b ∈ l', b ∈ l) ∧ I s' := fun a l' s s' hI ha =>
    ⟨fun b hb => hI.1 b (List.mem_cons_of_mem a hb),
      hf a (hI.1 a List.mem_cons_self) s s' hI.2 ha⟩
  have hstart : (∀ b ∈ l ++ [], b ∈ l) ∧ I s := ⟨fun b hb => by simpa using hb, hs⟩
  exact (foldlM_ok (I := fun l' s => (∀ b ∈ l', b ∈ l) ∧ I s) hround hstart h).2

theorem filterAuxM_ok {p : α → Except ε Bool} {l acc r : List α}
    (h : l.filterAuxM p acc = .ok r) : (∀ a ∈ l, ∃ b, p a = .ok b) ∧
      ∀ q : α → Bool, (∀ a ∈ l, ∀ b, p a = .ok b → b = q a) →
        r = (l.filter q).reverse ++ acc := by
  induction l generalizing acc with
  | nil =>
    cases h
    exact ⟨nofun, fun q _ => rfl⟩
  | cons a l ih =>
    simp only [List.filterAuxM] at h
    cases ha : p a with
    | error e =>
      rw [ha] at h
      cases h
    | ok b =>
      rw [ha] at h
      obtain ⟨hall, hr⟩ := @ih (cond b (a :: acc) acc) h
      refine ⟨fun c hc => ?_, fun q hq => ?_⟩
      · rcases List.mem_cons.mp hc with rfl | hc
        · exact ⟨b, ha⟩
        · exact hall c hc
      · rw [hr q fun c hc => hq c (List.mem_cons_of_mem a hc), List.filter_cons,
          ← hq a List.mem_cons_self b ha]
        cases b <;> simp

/-- A filter whose test did not throw on any element. -/
theorem filterM_ok {p : α → Except ε Bool} {l r : List α} (h : l.filterM p = .ok r) :
    (∀ a ∈ l, ∃ b, p a = .ok b) ∧
      ∀ q : α → Bool, (∀ a ∈ l, ∀ b, p a = .ok b → b = q a) → r = l.filter q := by
  unfold List.filterM at h
  cases haux : l.filterAuxM p [] with
  | error e =>
    rw [haux] at h
    cases h
  | ok r' =>
    rw [haux] at h
    cases h
    obtain ⟨hall, hr⟩ := filterAuxM_ok haux
    exact ⟨hall, fun q hq => by simp [hr q hq]⟩

/-! ## While loops -/

/-- `while (cond s) s = body s;`, for at most `fuel` tests of the condition. -/
def whileM (cond : σ → Bool) (body : σ → Except ε σ) : Nat → σ → Except ε (Option σ)
  | 0, _ => .ok none
  | fuel + 1, s => if cond s then body s >>= whileM cond body fuel else .ok (some s)

/-- The states in front of the tests of a loop that starts in `s`. -/
inductive Rounds (cond : σ → Bool) (body : σ → Except ε σ) (s : σ) : σ → Prop
  | refl : Rounds cond body s s
  | tail {t u : σ} : Rounds cond body s t → cond t = true → body t = .ok u →
      Rounds cond body s u

section While

variable {cond : σ → Bool} {body : σ → Except ε σ}

theorem whileM_mono {n m : Nat} {s t : σ} (hnm : n ≤ m)
    (h : whileM cond body n s = .ok (some t)) : whileM cond body m s = .ok (some t) := by
  induction n generalizing m s with
  | zero => simp [whileM] at h
  | succ n ih =>
    obtain ⟨m, rfl⟩ : ∃ k, m = k + 1 := ⟨m - 1, by omega⟩
    simp only [whileM] at h ⊢
    by_cases hc : cond s = true
    · rw [if_pos hc] at h ⊢
      cases hb : body s with
      | error e =>
        rw [hb] at h
        cases h
      | ok u =>
        rw [hb] at h
        exact ih (by omega) h
    · rw [if_neg hc] at h ⊢
      exact h

/-- A loop whose rounds keep `I` and make the measure decrease ends, without throwing. -/
theorem whileM_total {μ : σ → α} {r : α → α → Prop} (hwf : WellFounded r) {I : σ → Prop}
    (hstep : ∀ s, I s → cond s = true → Yields (body s) fun s' => I s' ∧ r (μ s') (μ s))
    {s : σ} (hs : I s) :
    ∃ n t, whileM cond body n s = .ok (some t) ∧ I t ∧ cond t = false := by
  generalize hx : μ s = x
  induction x using hwf.induction generalizing s with
  | _ x ih =>
    by_cases hc : cond s = true
    · obtain ⟨u, hu, hI, hr⟩ := hstep s hs hc
      obtain ⟨n, t, hn, ht⟩ := ih (μ u) (hx ▸ hr) hI rfl
      refine ⟨n + 1, t, ?_, ht⟩
      simp only [whileM]
      rw [if_pos hc, hu]
      exact hn
    · refine ⟨1, s, ?_, hs, by simpa using hc⟩
      simp only [whileM]
      rw [if_neg hc]

/-- A loop whose rounds keep `J`, which implies the condition, never ends. -/
theorem whileM_diverges {J : σ → Prop} (hcond : ∀ s, J s → cond s = true)
    (hstep : ∀ s, J s → ∀ u, body s = .ok u → J u) (n : Nat) {s t : σ} (hs : J s) :
    whileM cond body n s ≠ .ok (some t) := by
  induction n generalizing s with
  | zero => simp [whileM]
  | succ n ih =>
    simp only [whileM]
    rw [if_pos (hcond s hs)]
    cases hb : body s with
    | error e => exact fun h => by cases h
    | ok u => exact ih (hstep s hs u hb)

/-- The first rounds of a loop can be run off. -/
theorem whileM_of_rounds {s t u : σ} (h : Rounds cond body s t) {n : Nat}
    (hn : whileM cond body n s = .ok (some u)) :
    ∃ m, whileM cond body m t = .ok (some u) := by
  induction h with
  | refl => exact ⟨n, hn⟩
  | tail _ hc hb ih =>
    obtain ⟨m, hm⟩ := ih
    cases m with
    | zero => simp [whileM] at hm
    | succ m =>
      simp only [whileM] at hm
      rw [if_pos hc, hb] at hm
      exact ⟨m, hm⟩

/-- Where a loop ends, its condition fails. -/
theorem whileM_ok {n : Nat} {s t : σ} (h : whileM cond body n s = .ok (some t)) :
    Rounds cond body s t ∧ cond t = false := by
  have hrun : ∀ (n : Nat) (u : σ), Rounds cond body s u → whileM cond body n u = .ok (some t) →
      Rounds cond body s t ∧ cond t = false := by
    intro n
    induction n with
    | zero => exact fun u _ hu => by cases hu
    | succ n ih =>
      intro u hr hu
      simp only [whileM] at hu
      by_cases hc : cond u = true
      · rw [if_pos hc] at hu
        cases hb : body u with
        | error e =>
          rw [hb] at hu
          cases hu
        | ok v =>
          rw [hb] at hu
          exact ih v (hr.tail hc hb) hu
      · rw [if_neg hc] at hu
        cases hu
        exact ⟨hr, by simpa using hc⟩
  exact hrun n s .refl h

/-- What every round keeps holds in front of every test. -/
theorem Rounds.inv {I : σ → Prop} {s t : σ} (hr : Rounds cond body s t)
    (hstep : ∀ s s', I s → cond s = true → body s = .ok s' → I s') (hs : I s) : I t := by
  induction hr with
  | refl => exact hs
  | tail _ hc hb ih => exact hstep _ _ ih hc hb

/-- The state in front of the test after `n` rounds. -/
def roundsAfter (cond : σ → Bool) (body : σ → Except ε σ) : Nat → σ → Option σ
  | 0, s => some s
  | n + 1, s => if cond s then (body s).toOption.bind (roundsAfter cond body n) else none

/-- Whether the loop ends within `n` tests and passes the check in front of each. -/
def everyRound (cond : σ → Bool) (body : σ → Except ε σ) (check : σ → Bool) : Nat → σ → Bool
  | 0, _ => false
  | n + 1, s => check s &&
      (!cond s || (body s).toOption.all (everyRound cond body check n))

theorem Rounds.head {s t u : σ} (hc : cond s = true) (hb : body s = .ok u)
    (h : Rounds cond body u t) : Rounds cond body s t := by
  induction h with
  | refl => exact .tail .refl hc hb
  | tail _ hc' hb' ih => exact .tail ih hc' hb'

theorem Rounds.cases_head {s t : σ} (h : Rounds cond body s t) :
    t = s ∨ cond s = true ∧ ∃ u, body s = .ok u ∧ Rounds cond body u t := by
  induction h with
  | refl => exact Or.inl rfl
  | tail _ hc hb ih =>
    rcases ih with rfl | ⟨hc', u, hu, hr⟩
    · exact Or.inr ⟨hc, _, hb, .refl⟩
    · exact Or.inr ⟨hc', u, hu, .tail hr hc hb⟩

theorem rounds_of_roundsAfter {n : Nat} {s t : σ} (h : roundsAfter cond body n s = some t) :
    Rounds cond body s t := by
  induction n generalizing s with
  | zero =>
    cases h
    exact .refl
  | succ n ih =>
    simp only [roundsAfter] at h
    by_cases hc : cond s = true
    · rw [if_pos hc] at h
      cases hb : body s with
      | error e =>
        rw [hb] at h
        cases h
      | ok u =>
        rw [hb] at h
        exact .head hc hb (ih h)
    · rw [if_neg hc] at h
      cases h

theorem check_of_everyRound {check : σ → Bool} {n : Nat} {s t : σ}
    (h : everyRound cond body check n s = true) (hr : Rounds cond body s t) :
    check t = true := by
  induction n generalizing s with
  | zero => cases h
  | succ n ih =>
    simp only [everyRound, Bool.and_eq_true, Bool.or_eq_true, Bool.not_eq_true'] at h
    rcases hr.cases_head with rfl | ⟨hc, u, hu, hr⟩
    · exact h.1
    · refine ih (h.2.resolve_left (by simp [hc]) |> fun h => ?_) hr
      rw [hu] at h
      exact h

end While

end Cact
