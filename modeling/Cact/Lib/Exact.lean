import Mathlib

/-!
# Exact specifications of fallible computations

A computation threads a state and may throw. `Exact x s C Q` says when it succeeds
from the state `s`: if and only if `C` holds, and then with a result and a state
that satisfy `Q`. The rules follow the way a computation is put together, so that
an `iff` for the whole comes from an `iff` for each of its steps.

- `bind_eq_ok`, `ok_bind` …: what a successful run of `Except` went through.
- `Exact.bind`, `Exact.mono`, `Exact.mapM`: the rules.
-/

namespace Cact

variable {ε σ α β : Type}

/-! ## Successful runs -/

namespace Except

theorem bind_eq_ok {x : Except ε α} {f : α → Except ε β} {b : β} :
    (x >>= f) = .ok b ↔ ∃ a, x = .ok a ∧ f a = .ok b := by
  cases x with
  | error e => simp [bind, Except.bind]
  | ok a => simp [bind, Except.bind]

@[simp] theorem pure_eq_ok {a b : α} : (pure a : Except ε α) = .ok b ↔ a = b := by
  simp [pure, Except.pure]

@[simp] theorem throw_ne_ok {e : ε} {a : α} : (throw e : Except ε α) = .ok a ↔ False := by
  simp [throw, throwThe, MonadExceptOf.throw]

theorem mapM_eq_ok {f : α → Except ε β} {as : List α} {bs : List β} :
    as.mapM f = .ok bs ↔ List.Forall₂ (fun a b => f a = .ok b) as bs := by
  induction as generalizing bs with
  | nil =>
    rw [List.mapM_nil, pure_eq_ok, List.forall₂_nil_left_iff]
    exact eq_comm
  | cons a as ih =>
    rw [List.mapM_cons, bind_eq_ok, List.forall₂_cons_left_iff]
    constructor
    · rintro ⟨b, hb, h⟩
      obtain ⟨bs', hbs', h⟩ := bind_eq_ok.1 h
      cases h
      exact ⟨b, bs', hb, ih.1 hbs', rfl⟩
    · rintro ⟨b, bs', hb, hbs', rfl⟩
      exact ⟨b, hb, bind_eq_ok.2 ⟨bs', ih.2 hbs', rfl⟩⟩

section MapM

variable {γ : Type} {f : α → Except ε β} {as : List α} {bs : List β}

theorem mapM_mem_right {b : β} (h : as.mapM f = .ok bs) (hb : b ∈ bs) : ∃ a ∈ as, f a = .ok b := by
  induction mapM_eq_ok.1 h with
  | nil => cases hb
  | @cons a b' as bs ha hrest ih =>
    rcases List.mem_cons.1 hb with rfl | hb
    · exact ⟨a, by simp, ha⟩
    · obtain ⟨a', ha', hf⟩ := ih (mapM_eq_ok.2 hrest) hb
      exact ⟨a', List.mem_cons_of_mem _ ha', hf⟩

theorem mapM_mem_left {a : α} (h : as.mapM f = .ok bs) (ha : a ∈ as) : ∃ b ∈ bs, f a = .ok b := by
  induction mapM_eq_ok.1 h with
  | nil => cases ha
  | @cons a' b as bs hb hrest ih =>
    rcases List.mem_cons.1 ha with rfl | ha
    · exact ⟨b, by simp, hb⟩
    · obtain ⟨b', hb', hf⟩ := ih (mapM_eq_ok.2 hrest) ha
      exact ⟨b', List.mem_cons_of_mem _ hb', hf⟩

theorem mapM_map_eq {g : α → γ} {g' : β → γ} (h : as.mapM f = .ok bs)
    (hg : ∀ a b, f a = .ok b → g' b = g a) : bs.map g' = as.map g := by
  induction mapM_eq_ok.1 h with
  | nil => rfl
  | cons hb hrest ih => rw [List.map_cons, List.map_cons, hg _ _ hb, ih (mapM_eq_ok.2 hrest)]

theorem exists_mapM (h : ∀ a ∈ as, ∃ b, f a = .ok b) : ∃ bs, as.mapM f = .ok bs := by
  induction as with
  | nil => exact ⟨[], rfl⟩
  | cons a as ih =>
    obtain ⟨b, hb⟩ := h a (by simp)
    obtain ⟨bs, hbs⟩ := ih fun a' ha' => h a' (List.mem_cons_of_mem _ ha')
    exact ⟨b :: bs, mapM_eq_ok.2 (.cons hb (mapM_eq_ok.1 hbs))⟩

theorem mapM_congr {f' : α → Except ε β} (h : ∀ a ∈ as, f a = f' a) : as.mapM f = as.mapM f' := by
  induction as with
  | nil => rfl
  | cons a as ih =>
    rw [List.mapM_cons, List.mapM_cons, h a (by simp),
      ih fun a' ha' => h a' (List.mem_cons_of_mem _ ha')]

end MapM

end Except

/-! ## Successful runs with a state -/

theorem run_bind_eq_ok {x : StateT σ (Except ε) α} {f : α → StateT σ (Except ε) β} {s : σ}
    {r : β × σ} : (x >>= f) s = .ok r ↔ ∃ a s₁, x s = .ok (a, s₁) ∧ f a s₁ = .ok r := by
  show (x s >>= fun p => f p.1 p.2) = .ok r ↔ _
  rw [Except.bind_eq_ok, Prod.exists]

theorem run_pure_eq_ok {s s' : σ} {a b : α} :
    (pure a : StateT σ (Except ε) α) s = .ok (b, s') ↔ a = b ∧ s = s' := by
  show (Except.ok (a, s) : Except ε (α × σ)) = .ok (b, s') ↔ _
  rw [Except.ok.injEq, Prod.mk.injEq]

theorem run_lift_eq_ok {y : Except ε α} {s s' : σ} {a : α} :
    (liftM y : StateT σ (Except ε) α) s = .ok (a, s') ↔ y = .ok a ∧ s = s' := by
  cases y with
  | error e =>
    show (Except.error e : Except ε (α × σ)) = .ok (a, s') ↔ _
    simp
  | ok b =>
    show (Except.ok (b, s) : Except ε (α × σ)) = .ok (a, s') ↔ _
    rw [Except.ok.injEq, Except.ok.injEq, Prod.mk.injEq]

/-! ## Exact specifications -/

/-- From `s` the computation succeeds if and only if `C` holds, and then with a result
and a state that satisfy `Q`. -/
def Exact (x : StateT σ (Except ε) α) (s : σ) (C : Prop) (Q : α → σ → Prop) : Prop :=
  match x s with
  | .ok (a, s') => C ∧ Q a s'
  | .error _ => ¬C

namespace Exact

variable {x : StateT σ (Except ε) α} {f : α → StateT σ (Except ε) β} {s : σ}
  {C C' : Prop} {Q Q' : α → σ → Prop} {R : β → σ → Prop}

theorem of_ok {a : α} {s' : σ} (h : x s = .ok (a, s')) (hc : C) (hq : Q a s') : Exact x s C Q := by
  unfold Exact
  rw [h]
  exact ⟨hc, hq⟩

theorem of_error {e : ε} (h : x s = .error e) (hc : ¬C) : Exact x s C Q := by
  unfold Exact
  rw [h]
  exact hc

/-- The state and the result of a computation that succeeds. -/
theorem exists_ok (h : Exact x s C Q) (hc : C) : ∃ a s', x s = .ok (a, s') ∧ Q a s' := by
  unfold Exact at h
  cases hx : x s with
  | error e =>
    rw [hx] at h
    exact absurd hc h
  | ok r =>
    rw [hx] at h
    exact ⟨r.1, r.2, rfl, h.2⟩

theorem cond_of_ok (h : Exact x s C Q) {a : α} {s' : σ} (hx : x s = .ok (a, s')) :
    C ∧ Q a s' := by
  unfold Exact at h
  rw [hx] at h
  exact h

theorem mono (h : Exact x s C Q) (hq : ∀ a s', Q a s' → Q' a s') : Exact x s C Q' := by
  unfold Exact at h ⊢
  cases hx : x s with
  | error e =>
    rw [hx] at h
    exact h
  | ok r =>
    rw [hx] at h
    exact ⟨h.1, hq _ _ h.2⟩

theorem congr (h : Exact x s C Q) (hc : C ↔ C') : Exact x s C' Q := by
  rwa [← propext hc]

/-- A condition that is known to hold. -/
theorem drop (h : Exact x s (C ∧ C') Q) (hc : C) : Exact x s C' Q :=
  h.congr ⟨And.right, fun h' => ⟨hc, h'⟩⟩

theorem bind (hx : Exact x s C Q) (hf : ∀ a s', Q a s' → Exact (f a) s' C' R) :
    Exact (x >>= f) s (C ∧ C') R := by
  unfold Exact at hx
  cases h : x s with
  | error e =>
    rw [h] at hx
    refine of_error (e := e) ?_ fun hc => hx hc.1
    show (x s >>= fun p => f p.1 p.2) = _
    rw [h]
    rfl
  | ok r =>
    rw [h] at hx
    have hr : (x >>= f) s = f r.1 r.2 := by
      show (x s >>= fun p => f p.1 p.2) = _
      rw [h]
      rfl
    have hfr := hf r.1 r.2 hx.2
    unfold Exact at hfr ⊢
    rw [hr]
    cases h' : f r.1 r.2 with
    | error e =>
      rw [h'] at hfr
      exact fun hc => hfr hc.2
    | ok q =>
      rw [h'] at hfr
      exact ⟨⟨hx.1, hfr.1⟩, hfr.2⟩

/-- The first of two steps always succeeds. -/
theorem step (hx : Exact x s True Q) (hf : ∀ a s', Q a s' → Exact (f a) s' C R) :
    Exact (x >>= f) s C R :=
  (hx.bind hf).drop trivial

/-- The second of two steps always succeeds. -/
theorem last (hx : Exact x s C Q) (hf : ∀ a s', Q a s' → Exact (f a) s' True R) :
    Exact (x >>= f) s C R :=
  (hx.bind hf).congr (and_iff_left trivial)

theorem pure {a : α} (hq : Q a s) : Exact (Pure.pure a : StateT σ (Except ε) α) s True Q :=
  ⟨trivial, hq⟩

theorem throw {e : ε} : Exact (throw e : StateT σ (Except ε) α) s False Q := not_false

/-- A step that does not touch the state. -/
theorem lift {y : Except ε α} (h : C ↔ ∃ a, y = .ok a) (hq : ∀ a, y = .ok a → Q a s) :
    Exact (liftM y : StateT σ (Except ε) α) s C Q := by
  cases y with
  | error e => exact of_error (e := e) rfl fun hc => by simpa using h.mp hc
  | ok a => exact of_ok (a := a) rfl (h.mpr ⟨a, rfl⟩) (hq a rfl)

theorem map {g : α → β} (h : Exact x s C Q) (hq : ∀ a s', Q a s' → R (g a) s') :
    Exact (g <$> x) s C R := by
  rw [map_eq_pure_bind]
  exact h.last fun a s' ha => Exact.pure (hq a s' ha)

/-- A step for each item of a list, where `I` relates the items done and their results
to the state. -/
theorem mapM {f : α → StateT σ (Except ε) β} {C : α → Prop} {I : List β → σ → Prop}
    {as : List α} (hstep : ∀ a ∈ as, ∀ bs s, I bs s → Exact (f a) s (C a) fun b s' => I (bs ++ [b]) s')
    (h : I [] s) : Exact (as.mapM f) s (∀ a ∈ as, C a) I := by
  suffices key : ∀ bs s, I bs s →
      Exact (as.mapM f) s (∀ a ∈ as, C a) fun bs' s' => I (bs ++ bs') s' from key [] s h
  clear h
  induction as with
  | nil =>
    intro bs s hs
    exact (Exact.pure (by simpa using hs)).congr (by simp)
  | cons a as ih =>
    intro bs s hs
    rw [List.mapM_cons]
    have hhead := hstep a List.mem_cons_self bs s hs
    refine Exact.congr (hhead.bind fun b s₁ h₁ => ?_) List.forall_mem_cons.symm
    refine (ih (fun a ha => hstep a (List.mem_cons_of_mem _ ha)) (bs ++ [b]) s₁ h₁).last ?_
    intro bs' s₂ h₂
    exact Exact.pure (by simpa using h₂)

end Exact
end Cact
