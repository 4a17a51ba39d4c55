import Cact.Ir.Runs

/-!
# Runs without errors

An instruction that is taken away, or put in a simpler form, may have failed before. A pass
that does so keeps the meaning of a program on the inputs whose runs do not fail.

- `Safe`: the run on an input ends in no error.
- `SafeMeaning`: the same meaning on all such inputs.
- `Follows`: a computation that returns whatever another one does.
- `obsEq_of_follows`: the simulation rule for runs that do not fail.
-/

namespace Cact

namespace Ir

namespace Vm

/-! ## Safe inputs -/

/-- No error ends the run. -/
def Safe (env : Env) (prog : Program) (input : env.Input) : Prop :=
  ∀ tr, ¬(machine env prog).Halts (initial prog input) tr (some .error)

/-- Two programs cannot be told apart on the inputs that are safe for the first. -/
def SafeMeaning (env : Env) (p q : Program) : Prop :=
  ∀ input, Safe env p input →
    (machine env p).ObsEq (initial p input) (machine env q) (initial q input)

section Meaning

variable {env : Env} {p q r : Program} {input : env.Input}

theorem Safe.of_obsEq (h : Safe env p input)
    (ho : (machine env p).ObsEq (initial p input) (machine env q) (initial q input)) :
    Safe env q input := fun tr hq => h tr ((ho.halts tr _).2 hq)

theorem SafeMeaning.refl : SafeMeaning env p p := fun _ _ => .refl _ _

theorem SafeMeaning.trans (h : SafeMeaning env p q) (h' : SafeMeaning env q r) :
    SafeMeaning env p r :=
  fun input hs => (h input hs).trans (h' input (hs.of_obsEq (h input hs)))

theorem SameMeaning.safe (h : SameMeaning env p q) : SafeMeaning env p q := fun input _ => h input

/-- The second program has no errors that the first does not have. -/
theorem SafeMeaning.safe (h : SafeMeaning env p q) (hs : Safe env p input) : Safe env q input :=
  hs.of_obsEq (h input hs)

/-- A state of a safe run is no state after an error. -/
theorem Safe.result_ne {s : State env} (h : Safe env p input)
    (hr : (machine env p).Reaches (initial p input) s) : s.result ≠ some .error := by
  intro hres
  refine h s.output ⟨s, hr, ?_, rfl, hres⟩
  show step p s = none
  rw [step, if_pos (by rw [hres]; rfl)]

/-- No step of a safe run fails. -/
theorem Safe.exec_ok {s : State env} (h : Safe env p input)
    (hr : (machine env p).Reaches (initial p input) s) (hlive : s.result = none) :
    ∃ t, exec p s = .ok t := by
  cases he : exec p s with
  | ok t => exact ⟨t, rfl⟩
  | error e =>
    have hstep := step_of_error (by rw [hlive]; simp) he
    exact absurd rfl (h.result_ne (hr.tail hstep))

/-- A safe run starts. -/
theorem Safe.start_ok (h : Safe env p input) : ∃ s, start p input = .ok s := by
  cases hs : start p input with
  | ok s => exact ⟨s, rfl⟩
  | error e =>
    have hres := h.result_ne (s := initial p input) .refl
    unfold initial at hres
    rw [hs] at hres
    exact absurd rfl hres

end Meaning

/-! ## One computation after another -/

/-- Whatever the first computation returns, the second returns something related. -/
def Follows {α β : Type} (R : α → β → Prop) (x : Except Fault α) (y : Except Fault β) : Prop :=
  ∀ a, x = .ok a → ∃ b, y = .ok b ∧ R a b

namespace Follows

variable {α β γ δ : Type} {R : α → β → Prop} {Q : γ → δ → Prop}

theorem ok {a : α} {b : β} (h : R a b) : Follows R (.ok a) (.ok b) := by
  intro a' ha
  cases ha
  exact ⟨b, rfl, h⟩

theorem error {e : Fault} {y : Except Fault β} : Follows R (.error e) y := nofun

/-- The same computation, and then ones that follow each other. -/
theorem bind {x : Except Fault γ} {f : γ → Except Fault α} {g : γ → Except Fault β}
    (h : ∀ c, x = .ok c → Follows R (f c) (g c)) : Follows R (x >>= f) (x >>= g) := by
  cases x with
  | error e => exact .error
  | ok c => exact h c rfl

/-- Two computations that follow each other, and then ones that do. -/
theorem andThen {x : Except Fault γ} {y : Except Fault δ} {f : γ → Except Fault α}
    {g : δ → Except Fault β} (hx : Follows Q x y)
    (h : ∀ c d, x = .ok c → y = .ok d → Q c d → Follows R (f c) (g d)) :
    Follows R (x >>= f) (y >>= g) := by
  cases x with
  | error e => exact .error
  | ok c =>
    obtain ⟨d, rfl, hq⟩ := hx c rfl
    exact h c d rfl rfl hq

theorem mono {R' : α → β → Prop} {x : Except Fault α} {y : Except Fault β} (h : Follows R x y)
    (hR : ∀ a b, R a b → R' a b) : Follows R' x y := by
  intro a ha
  obtain ⟨b, hb, hab⟩ := h a ha
  exact ⟨b, hb, hR a b hab⟩

end Follows

/-! ## The simulation rule -/

section Simulation

variable {env : Env} {p q : Program} {input : env.Input}

/-- In a relation between the states of a safe run and those of another, every step of the
first is one of the second as well, or one that the second does not need. -/
theorem obsEq_of_follows {R : State env → State env → Prop} (rank : State env → Nat)
    (hsafe : Safe env p input)
    (hsame : ∀ s s', R s s' → s'.output = s.output ∧ s'.result = s.result)
    (hstart : Follows R (start p input) (start q input))
    (hstep : ∀ s s' t, R s s' → s.result = none → exec p s = .ok t →
      (∃ t', exec q s' = .ok t' ∧ R t t') ∨ (R t s' ∧ rank t < rank s)) :
    (machine env p).ObsEq (initial p input) (machine env q) (initial q input) := by
  let S : State env → State env → Prop := fun s s' =>
    R s s' ∧ (machine env p).Reaches (initial p input) s
  have hsim : DetMachine.Simulation (machine env p) (machine env q) S fun s _ => rank s := by
    refine ⟨fun s s' h => (hsame s s' h.1).1.symm, ?_⟩
    rintro s s' ⟨hR, hr⟩
    obtain ⟨-, hres'⟩ := hsame s s' hR
    cases hres : s.result with
    | some v =>
      refine .halt ?_ ?_ hres'.symm
      · exact if_pos (by rw [hres]; rfl)
      · exact if_pos (by rw [hres', hres]; rfl)
    | none =>
      obtain ⟨t, he⟩ := hsafe.exec_ok hr hres
      have ht := step_of_ok (by rw [hres]; simp) he
      rcases hstep s s' t hR hres he with ⟨t', he', hR'⟩ | ⟨hR', hlt⟩
      · have ht' := step_of_ok (by rw [hres', hres]; simp) he'
        exact .both t t' (DetMachine.reachesPlus_of_step ht)
          (DetMachine.reachesPlus_of_step ht') ⟨hR', hr.tail ht⟩
      · exact .left t (DetMachine.reachesPlus_of_step ht) ⟨hR', hr.tail ht⟩ hlt
  obtain ⟨s, hs⟩ := hsafe.start_ok
  obtain ⟨s', hs', hR⟩ := hstart s hs
  refine hsim.obsEq ⟨?_, .refl⟩
  unfold initial
  rw [hs, hs']
  exact hR

end Simulation

end Vm
end Ir
end Cact
