import Cact.Ir.Ssa

/-!
# Reading and writing the slots of a well-typed function

In a function whose variables are used at the types of their slots, what an operand
means is the word in its slot, and writing a result changes no other variable.

- `Scope.get`, `wordOf`: the slot of a variable, and the word of a value.
- `viewOf_eq`: the view of a value is its type and its word.
- `setVars`: several results written one after the other, as the phis of a block are.
-/

namespace Cact

namespace Ir

namespace Vm

section Scope

variable (env : Env) (sc : Scope)

/-- The slot a variable is kept in. -/
def Scope.get (v : Var) : Option Slot :=
  (sc.vars (env.slotOf v)).or (sc.globals (env.slotOf v))

/-- The word a value stands for. -/
def wordOf : Value → Option Word
  | .const c =>
    match (viewConst c).data with
    | .word w => some w
    | .bytes _ => none
  | .left v => (sc.get env v.var).map Slot.word

end Scope

/-- The view of a value whose variables hold the words `σ`. -/
def viewIn (σ : Var → Word) : Value → View
  | .const c => viewConst c
  | .left v => ⟨viewType v.type, .word (σ v.var)⟩

/-- The slots of a frame of `f` and of the globals have the types that are declared. -/
structure Scope.Typed (prog : Program) (f : Func) (sc : Scope) : Prop where
  vars : sc.vars.Typed f.slotType
  globals : sc.globals.Typed prog.slotType

section Reads

variable {env : Env} {prog : Program} {f : Func} {sc : Scope} {v : LeftValue} {w : Word}

theorem Scope.Typed.get_type (h : sc.Typed prog f) (v : Var) :
    (sc.get env v).map Slot.type = prog.typeIn f (env.slotOf v) := by
  unfold Scope.get Program.typeIn
  rw [← (h.vars _).1, ← (h.globals _).1]
  cases sc.vars (env.slotOf v) <;> rfl

theorem Scope.Typed.get_fit (h : sc.Typed prog f) {v : Var} {s : Slot}
    (hs : sc.get env v = some s) : fitTy s.type s.word = s.word := by
  unfold Scope.get at hs
  rcases Option.or_eq_some_iff.1 hs with hv | ⟨-, hg⟩
  · exact (h.vars _).2 s hv
  · exact (h.globals _).2 s hg

/-- A variable that stands in a function has a slot, and it is of the variable's type. -/
theorem Scope.Typed.get_mentioned (h : sc.Typed prog f) (hf : f.WellTyped env prog)
    (hv : f.Mentions (.left v)) : ∃ w, sc.get env v.var = some ⟨viewType v.type, w⟩ ∧
      fitTy (viewType v.type) w = w := by
  have htype : (sc.get env v.var).map Slot.type = _ := h.get_type v.var
  rw [hf.slots v hv] at htype
  obtain ⟨s, hs, hst⟩ := Option.map_eq_some_iff.1 htype
  rw [← hst]
  exact ⟨s.word, hs, h.get_fit hs⟩

theorem slotAt_of_get (h : sc.get env v.var = some ⟨viewType v.type, w⟩) :
    slotAt env sc v = .ok ⟨viewType v.type, w⟩ := by
  unfold Scope.get at h
  unfold slotAt
  rw [h]
  dsimp only
  split <;> rfl

theorem slotAt_mentioned (h : sc.Typed prog f) (hf : f.WellTyped env prog)
    (hv : f.Mentions (.left v)) : ∃ w, sc.get env v.var = some ⟨viewType v.type, w⟩ ∧
      slotAt env sc v = .ok ⟨viewType v.type, w⟩ ∧ fitTy (viewType v.type) w = w := by
  obtain ⟨w, hw, hfit⟩ := h.get_mentioned hf hv
  exact ⟨w, hw, slotAt_of_get hw, hfit⟩

theorem resultType_mentioned (h : sc.Typed prog f) (hf : f.WellTyped env prog)
    (hv : f.Mentions (.left v)) : resultType env sc (some v) = .ok (viewType v.type) := by
  obtain ⟨w, -, hs, -⟩ := slotAt_mentioned h hf hv
  show (slotAt env sc v).map Slot.type = _
  rw [hs]
  rfl

/-- The view of a value is its type and its word. -/
theorem viewOf_eq (h : sc.Typed prog f) (hf : f.WellTyped env prog) {x : Value}
    (hx : ∀ v, x = .left v → f.Mentions (.left v)) (hw : wordOf env sc x = some w) :
    viewOf env sc x = .ok ⟨viewType x.typeOf, .word w⟩ := by
  cases x with
  | const c =>
    cases hdata : (viewConst c).data with
    | word w' =>
      have hww : w' = w := by simpa [wordOf, hdata] using hw
      rw [← hww, ← hdata]
      rfl
    | bytes _ => simp [wordOf, hdata] at hw
  | left v =>
    obtain ⟨w', hget, hs, -⟩ := slotAt_mentioned h hf (hx v rfl)
    have hww : w' = w := by simpa [wordOf, hget] using hw
    show (slotAt env sc v).map _ = _
    rw [hs, hww]
    rfl

theorem wordOf_mentioned (h : sc.Typed prog f) (hf : f.WellTyped env prog)
    (hv : f.Mentions (.left v)) : ∃ w, wordOf env sc (.left v) = some w ∧
      fitTy (viewType v.type) w = w := by
  obtain ⟨w, hget, hfit⟩ := h.get_mentioned hf hv
  exact ⟨w, by rw [wordOf, hget]; rfl, hfit⟩

/-- Two values of one type and one word cannot be told apart. -/
theorem viewOf_congr {x y : Value} (h : sc.Typed prog f) (hf : f.WellTyped env prog)
    (hx : ∀ v, x = .left v → f.Mentions (.left v)) (hy : ∀ v, y = .left v → f.Mentions (.left v))
    (ht : viewType x.typeOf = viewType y.typeOf)
    (hw : wordOf env sc x = wordOf env sc y) (hs : (wordOf env sc x).isSome) :
    viewOf env sc x = viewOf env sc y := by
  obtain ⟨w, hxw⟩ := Option.isSome_iff_exists.1 hs
  rw [viewOf_eq h hf hx hxw, viewOf_eq h hf hy (hw ▸ hxw), ht]

end Reads

/-! ## Writing results -/

/-- Results written one after the other. -/
def setVars (env : Env) (sc : Scope) (us : List (Option LeftValue × Word)) : Scope :=
  us.foldl (fun sc u => setVar env sc u.1 u.2) sc

section Writes

variable {env : Env} {prog : Program} {f : Func} {sc : Scope} {v : LeftValue} {w : Word}
  {us : List (Option LeftValue × Word)}

theorem setVar_local (h : (sc.vars (env.slotOf v.var)).isSome) :
    setVar env sc (some v) w = { sc with vars := sc.vars.set (env.slotOf v.var) w } := if_pos h

theorem get_setVar_of_ne {r : Option LeftValue} {u : Var}
    (h : ∀ v ∈ r, env.slotOf v.var ≠ env.slotOf u) :
    (setVar env sc r w).get env u = sc.get env u := by
  cases r with
  | none => rfl
  | some v =>
    have hne : env.slotOf u ≠ env.slotOf v.var := fun h' => h v rfl h'.symm
    unfold setVar Scope.get
    dsimp only
    split
    · dsimp only
      rw [Slots.set_of_ne hne]
    · dsimp only
      rw [Slots.set_of_ne hne]

theorem get_setVar_self {s : Slot} (hl : (sc.vars (env.slotOf v.var)).isSome)
    (h : sc.get env v.var = some s) :
    (setVar env sc (some v) w).get env v.var = some { s with word := w } := by
  rw [setVar_local hl]
  unfold Scope.get at h ⊢
  obtain ⟨s', hs'⟩ := Option.isSome_iff_exists.1 hl
  rw [hs'] at h
  cases h
  dsimp only
  rw [Slots.set_self, hs']
  rfl

/-- The results are variables of the function, and their words are of their types. -/
def Fits (env : Env) (f : Func) (us : List (Option LeftValue × Word)) : Prop :=
  ∀ u ∈ us, ∀ v ∈ u.1, ∃ t, f.slotType (env.slotOf v.var) = some t ∧ fitTy t u.2 = u.2

theorem typed_setVars (h : sc.Typed prog f) (hu : Fits env f us) :
    (setVars env sc us).Typed prog f ∧ (setVars env sc us).globals = sc.globals := by
  induction us generalizing sc with
  | nil => exact ⟨h, rfl⟩
  | cons u us ih =>
    have htail : Fits env f us := fun u' hu' => hu u' (List.mem_cons_of_mem _ hu')
    obtain ⟨r, w⟩ := u
    cases r with
    | none => exact ih h htail
    | some v =>
      obtain ⟨t, ht, hfit⟩ := hu (some v, w) (by simp) v rfl
      have hl : (sc.vars (env.slotOf v.var)).isSome := by
        rw [h.vars.isSome, ht]
        rfl
      have htyped : ({ sc with vars := sc.vars.set (env.slotOf v.var) w } : Scope).Typed prog f :=
        ⟨h.vars.set fun t' ht' => by rw [ht] at ht'; cases ht'; exact hfit, h.globals⟩
      have hset := ih htyped htail
      rw [← setVar_local hl] at hset
      refine ⟨hset.1, hset.2.trans ?_⟩
      rw [setVar_local hl]

theorem get_setVars_of_ne {u : Var}
    (h : ∀ p ∈ us, ∀ v ∈ p.1, env.slotOf v.var ≠ env.slotOf u) :
    (setVars env sc us).get env u = sc.get env u := by
  induction us generalizing sc with
  | nil => rfl
  | cons p us ih =>
    exact (ih fun q hq => h q (List.mem_cons_of_mem _ hq)).trans
      (get_setVar_of_ne (h p (by simp)))

/-- A result has the word that was written to it, when no other result has its slot. -/
theorem get_setVars_self {t : Ty} (h : sc.Typed prog f) (hu : Fits env f us)
    (hd : (us.filterMap Prod.fst).Pairwise fun u v => env.slotOf u.var ≠ env.slotOf v.var)
    (hv : (some v, w) ∈ us) (ht : f.slotType (env.slotOf v.var) = some t) :
    (setVars env sc us).get env v.var = some ⟨t, w⟩ := by
  induction us generalizing sc with
  | nil => simp at hv
  | cons p us ih =>
    have htail : Fits env f us := fun u' hu' => hu u' (List.mem_cons_of_mem _ hu')
    have hhead : Fits env f [p] := fun u' hu' => hu u' (by simp at hu'; simp [hu'])
    have hstep := typed_setVars h hhead
    rcases List.mem_cons.1 hv with rfl | hv'
    · have hcons : ((some v, w) :: us).filterMap Prod.fst = v :: us.filterMap Prod.fst := rfl
      rw [hcons, List.pairwise_cons] at hd
      have hrest : (setVars env (setVar env sc (some v) w) us).get env v.var = _ :=
        get_setVars_of_ne fun q hq v' hv' => (hd.1 v' (List.mem_filterMap.2 ⟨q, hq, hv'⟩)).symm
      have htype : (sc.vars (env.slotOf v.var)).map Slot.type = some t := (h.vars _).1.trans ht
      obtain ⟨s, hs, rfl⟩ := Option.map_eq_some_iff.1 htype
      refine hrest.trans (get_setVar_self (s := s) (by rw [hs]; rfl) ?_)
      unfold Scope.get
      rw [hs]
      rfl
    · refine ih hstep.1 htail ?_ hv'
      cases hp : p.1 with
      | none => rwa [List.filterMap_cons_none hp] at hd
      | some _ =>
        rw [List.filterMap_cons_some hp] at hd
        exact hd.of_cons

end Writes

end Vm
end Ir
end Cact
