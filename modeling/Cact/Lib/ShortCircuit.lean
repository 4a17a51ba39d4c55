import Mathlib.Data.List.Basic

/-!
# Conditions that are cut short

A condition is a nest of `and` and `or` over atoms. Atoms are evaluated from the left, in a
state that they change, and only as long as they decide something. Code for a condition has
one place for each atom, from where control goes on to one of two places.

- `Nest.Eval`, `Nest.Stops`: the evaluation of a condition, and one that an atom ends.
- `Wired`: the places of the atoms lead to each other as the condition asks.
- `Wired.path`: control passes the atoms that are evaluated, and arrives where it should.
-/

namespace Cact

/-- A condition over atoms. -/
inductive Nest (α : Type)
  | atom (a : α)
  | and (l r : Nest α)
  | or (l r : Nest α)

namespace Nest

variable {α β σ P : Type}

def map (f : α → β) : Nest α → Nest β
  | atom a => atom (f a)
  | and l r => and (l.map f) (r.map f)
  | or l r => or (l.map f) (r.map f)

/-- The atoms, from the left. -/
def atoms : Nest α → List α
  | atom a => [a]
  | and l r => l.atoms ++ r.atoms
  | or l r => l.atoms ++ r.atoms

/-! ## Evaluation -/

section Eval

variable (E : α → σ → Bool → σ → Prop)

/-- From a state, the condition has a value, after some atoms have been evaluated. -/
inductive Eval : Nest α → σ → List α → Bool → σ → Prop
  | atom {a : α} {s s' : σ} {b : Bool} : E a s b s' → Eval (atom a) s [a] b s'
  | and_true {l r : Nest α} {s s₁ s' : σ} {as bs : List α} {b : Bool} :
    Eval l s as true s₁ → Eval r s₁ bs b s' → Eval (and l r) s (as ++ bs) b s'
  | and_false {l r : Nest α} {s s' : σ} {as : List α} :
    Eval l s as false s' → Eval (and l r) s as false s'
  | or_true {l r : Nest α} {s s' : σ} {as : List α} :
    Eval l s as true s' → Eval (or l r) s as true s'
  | or_false {l r : Nest α} {s s₁ s' : σ} {as bs : List α} {b : Bool} :
    Eval l s as false s₁ → Eval r s₁ bs b s' → Eval (or l r) s (as ++ bs) b s'

/-- From a state, some atoms are evaluated, and then one that has no value. -/
inductive Stops : Nest α → σ → List α → α → σ → Prop
  | atom {a : α} {s : σ} : (∀ b s', ¬E a s b s') → Stops (atom a) s [] a s
  | and_left {l r : Nest α} {s s' : σ} {as : List α} {a : α} :
    Stops l s as a s' → Stops (and l r) s as a s'
  | and_right {l r : Nest α} {s s₁ s' : σ} {as bs : List α} {a : α} :
    Eval E l s as true s₁ → Stops r s₁ bs a s' → Stops (and l r) s (as ++ bs) a s'
  | or_left {l r : Nest α} {s s' : σ} {as : List α} {a : α} :
    Stops l s as a s' → Stops (or l r) s as a s'
  | or_right {l r : Nest α} {s s₁ s' : σ} {as bs : List α} {a : α} :
    Eval E l s as false s₁ → Stops r s₁ bs a s' → Stops (or l r) s (as ++ bs) a s'

variable {E} {n : Nest α} {s s' t : σ} {as bs : List α} {a : α} {b c : Bool}

theorem eval_or_stops (n : Nest α) (s : σ) :
    (∃ as b s', n.Eval E s as b s') ∨ ∃ as a s', n.Stops E s as a s' := by
  induction n generalizing s with
  | atom a =>
    by_cases h : ∃ b s', E a s b s'
    · obtain ⟨b, s', h⟩ := h
      exact .inl ⟨_, b, s', .atom h⟩
    · exact .inr ⟨_, a, s, .atom fun b s' hE => h ⟨b, s', hE⟩⟩
  | and l r ihl ihr =>
    rcases ihl s with ⟨as, b, s₁, hl⟩ | ⟨as, a, s₁, hl⟩
    · cases b with
      | false => exact .inl ⟨as, false, s₁, .and_false hl⟩
      | true =>
        rcases ihr s₁ with ⟨bs, b, s', hr⟩ | ⟨bs, a, s', hr⟩
        · exact .inl ⟨_, b, s', .and_true hl hr⟩
        · exact .inr ⟨_, a, s', .and_right hl hr⟩
    · exact .inr ⟨as, a, s₁, .and_left hl⟩
  | or l r ihl ihr =>
    rcases ihl s with ⟨as, b, s₁, hl⟩ | ⟨as, a, s₁, hl⟩
    · cases b with
      | true => exact .inl ⟨as, true, s₁, .or_true hl⟩
      | false =>
        rcases ihr s₁ with ⟨bs, b, s', hr⟩ | ⟨bs, a, s', hr⟩
        · exact .inl ⟨_, b, s', .or_false hl hr⟩
        · exact .inr ⟨_, a, s', .or_right hl hr⟩
    · exact .inr ⟨as, a, s₁, .or_left hl⟩

/-- Atoms that have one value give the condition one value. -/
theorem Eval.det (hE : ∀ a s b s' c t, E a s b s' → E a s c t → b = c ∧ s' = t)
    (h : n.Eval E s as b s') (h' : n.Eval E s bs c t) : as = bs ∧ b = c ∧ s' = t := by
  induction h generalizing bs c t with
  | atom h =>
    cases h' with
    | atom h' => exact ⟨rfl, hE _ _ _ _ _ _ h h'⟩
  | and_true _ _ ihl ihr =>
    cases h' with
    | and_true hl hr =>
      obtain ⟨rfl, -, rfl⟩ := ihl hl
      obtain ⟨rfl, rfl, rfl⟩ := ihr hr
      exact ⟨rfl, rfl, rfl⟩
    | and_false hl => cases (ihl hl).2.1
  | and_false _ ihl =>
    cases h' with
    | and_true hl _ => cases (ihl hl).2.1
    | and_false hl => exact ihl hl
  | or_true _ ihl =>
    cases h' with
    | or_true hl => exact ihl hl
    | or_false hl _ => cases (ihl hl).2.1
  | or_false _ _ ihl ihr =>
    cases h' with
    | or_true hl => cases (ihl hl).2.1
    | or_false hl hr =>
      obtain ⟨rfl, -, rfl⟩ := ihl hl
      obtain ⟨rfl, rfl, rfl⟩ := ihr hr
      exact ⟨rfl, rfl, rfl⟩

theorem Stops.not_eval (hE : ∀ a s b s' c t, E a s b s' → E a s c t → b = c ∧ s' = t)
    (h : n.Stops E s as a s') : ¬n.Eval E s bs b t := by
  induction h generalizing bs b t with
  | atom h =>
    rintro ⟨h'⟩
    exact h _ _ h'
  | and_left _ ih | or_left _ ih =>
    intro h'
    cases h' <;> exact ih ‹_›
  | and_right hl _ ih =>
    intro h'
    cases h' with
    | and_true hl' hr' =>
      obtain ⟨-, -, rfl⟩ := hl.det hE hl'
      exact ih hr'
    | and_false hl' => cases (hl.det hE hl').2.1
  | or_right hl _ ih =>
    intro h'
    cases h' with
    | or_true hl' => cases (hl.det hE hl').2.1
    | or_false hl' hr' =>
      obtain ⟨-, -, rfl⟩ := hl.det hE hl'
      exact ih hr'

end Eval

/-! ## Places -/

section Places

variable (At : P → α → P → P → Prop) (E : α → σ → Bool → σ → Prop)

/-- The code of a condition starts at `p` and goes on to `t` or `f`. The right part has a
place of its own, to which the left part leads if it decides nothing. -/
def Wired : Nest α → P → P → P → Prop
  | atom a, p, t, f => At p a t f
  | and l r, p, t, f => ∃ q, Wired l p q f ∧ Wired r q t f
  | or l r, p, t, f => ∃ q, Wired l p t q ∧ Wired r q t f

/-- Control passes some atoms, from place to place. -/
inductive Path : P → σ → List α → P → σ → Prop
  | nil (p : P) (s : σ) : Path p s [] p s
  | cons {p q t f : P} {a : α} {as : List α} {b : Bool} {s s₁ s' : σ} : At p a t f →
    E a s b s₁ → Path (if b then t else f) s₁ as q s' → Path p s (a :: as) q s'

variable {At E} {n : Nest α} {p q r t f : P} {s s₁ s' : σ} {as bs : List α} {a : α} {b : Bool}

theorem Path.append (h : Path At E p s as q s₁) (h' : Path At E q s₁ bs r s') :
    Path At E p s (as ++ bs) r s' := by
  induction h with
  | nil => exact h'
  | cons hat hE _ ih => exact .cons hat hE (ih h')

/-- Control passes the atoms that are evaluated, in their order, and arrives at the place
for the value of the condition. -/
theorem Wired.path (hw : n.Wired At p t f) (h : n.Eval E s as b s') :
    Path At E p s as (if b then t else f) s' := by
  induction h generalizing p t f with
  | atom h => exact .cons hw h (.nil _ _)
  | and_true _ _ ihl ihr =>
    obtain ⟨q, hl, hr⟩ := hw
    exact (ihl hl).append (ihr hr)
  | @and_false _ _ s s' as _ ihl =>
    obtain ⟨q, hl, -⟩ := hw
    have hpath : Path At E p s as f s' := ihl hl
    exact hpath
  | @or_true _ _ s s' as _ ihl =>
    obtain ⟨q, hl, -⟩ := hw
    have hpath : Path At E p s as t s' := ihl hl
    exact hpath
  | or_false _ _ ihl ihr =>
    obtain ⟨q, hl, hr⟩ := hw
    exact (ihl hl).append (ihr hr)

/-- An atom without value is where control gets to and no farther. -/
theorem Wired.path_of_stops (hw : n.Wired At p t f) (h : n.Stops E s as a s') :
    ∃ q t' f', Path At E p s as q s' ∧ At q a t' f' := by
  induction h generalizing p t f with
  | atom _ => exact ⟨p, t, f, .nil _ _, hw⟩
  | and_left _ ih | or_left _ ih =>
    obtain ⟨q, hl, -⟩ := hw
    exact ih hl
  | and_right hl _ ih | or_right hl _ ih =>
    obtain ⟨q, hwl, hwr⟩ := hw
    obtain ⟨q', t', f', hpath, hat⟩ := ih hwr
    exact ⟨q', t', f', (hwl.path hl).append hpath, hat⟩

end Places

end Nest
end Cact
