import Cact.Ir.Ir

/-!
# Calling convention (`lowering/abi.hpp`, `rv64/abi.hpp`)

`assign_call_regs` walks a signature with one counter for each register class
and hands out parameter registers until a class runs dry.

- `assignCallRegs`: the function as the source has it. The branch that accepts
  a reference does not end the iteration, so a reference is assigned twice.
- `positional`: the assignment of a signature without references, by position.
- `CallRegsOk`: what a calling convention needs, argument by argument.
- `assignCallRegs_length`, `assignCallRegs_eq_positional`: how the two relate.
-/

namespace Cact

namespace Lowering

open Ir

/-- `RegisterABI`. The parameter registers and the return register are registers
of the class, and no parameter register is listed twice. -/
structure RegisterABI where
  size : Nat
  calleeSaved : List Nat
  parameters : List Nat
  returnValue : Nat
  name : Nat → String
  parameters_lt : ∀ r ∈ parameters, r < size
  parameters_nodup : parameters.Nodup
  returnValue_lt : returnValue < size

/-- `TargetABI`: one class of registers for integers and references, one for
floating-point values. -/
structure TargetABI where
  generals : RegisterABI
  floats : RegisterABI

/-- `reg_of`, by register class. -/
def TargetABI.regClass (abi : TargetABI) (fp : Bool) : RegisterABI :=
  if fp then abi.floats else abi.generals

/-- `reg_of`. -/
def TargetABI.regOf (abi : TargetABI) (type : Ty) : RegisterABI := abi.regClass type.isFp

/-! ## `assign_call_regs` -/

/-- The counters and the result list of `assign_call_regs`. -/
structure AssignState where
  numGeneral : Nat
  numFloat : Nat
  paramRegs : List (Option Nat)
  deriving DecidableEq, Repr

/-- The local `assign` on the general registers. -/
def AssignState.assignGeneral (s : AssignState) (params : List Nat) : AssignState :=
  if s.numGeneral < params.length then
    { s with
      numGeneral := s.numGeneral + 1
      paramRegs := s.paramRegs ++ [params[s.numGeneral]?] }
  else { s with paramRegs := s.paramRegs ++ [none] }

/-- The local `assign` on the floating registers. -/
def AssignState.assignFloat (s : AssignState) (params : List Nat) : AssignState :=
  if s.numFloat < params.length then
    { s with
      numFloat := s.numFloat + 1
      paramRegs := s.paramRegs ++ [params[s.numFloat]?] }
  else { s with paramRegs := s.paramRegs ++ [none] }

/-- One iteration of the loop of `assign_call_regs`. A reference is assigned in
the first branch and falls through to the second, which assigns it again. -/
def assignStep (abi : TargetABI) (s : AssignState) (type : Ty) : Except Fault AssignState := do
  let s ←
    if !type.isPrimitive then
      if type.isReference then pure (s.assignGeneral abi.generals.parameters)
      else .error (.compilerError "non-primitive parameter type")
    else pure s
  if type.isFp then pure (s.assignFloat abi.floats.parameters)
  else pure (s.assignGeneral abi.generals.parameters)

/-- `assign_call_regs`. -/
def assignCallRegs (types : List Ty) (abi : TargetABI) : Except Fault (List (Option Nat)) :=
  (types.foldlM (assignStep abi) ⟨0, 0, []⟩).map AssignState.paramRegs

/-- `assign_param_regs`. -/
def assignParamRegs (params : List Alloc) (abi : TargetABI) : Except Fault (List (Option Nat)) :=
  assignCallRegs (params.map Alloc.type) abi

/-- `assign_arg_regs`. -/
def assignArgRegs (args : List Value) (abi : TargetABI) : Except Fault (List (Option Nat)) :=
  assignCallRegs (args.map Value.typeOf) abi

/-! ## What a calling convention needs -/

/-- The types a signature is made of. -/
structure ArgTy where
  ty : Ty
  ok : ty.isPrimitive = true ∨ ty.isReference = true

/-- How many of the first `i` arguments go to the register class `fp`. -/
def classRank (types : List Ty) (fp : Bool) (i : Nat) : Nat :=
  (types.take i).countP fun t => t.isFp == fp

/-- One entry for each argument: the `k`-th argument of a class gets the `k`-th
parameter register of that class while there is one, and no two arguments share
a register. -/
structure CallRegsOk (abi : TargetABI) (types : List Ty) (regs : List (Option Nat)) : Prop where
  length_eq : regs.length = types.length
  entry : ∀ i t, types[i]? = some t →
    regs[i]? = some ((abi.regOf t).parameters[classRank types t.isFp i]?)
  distinct : ∀ (i j : Nat) (t u : Ty) (r : Nat), types[i]? = some t → types[j]? = some u → i ≠ j →
    regs[i]? = some (some r) → regs[j]? = some (some r) → t.isFp ≠ u.isFp

/-- The registers of a signature by position, from given counts of each class. -/
def positional (abi : TargetABI) : Nat → Nat → List Ty → List (Option Nat)
  | _, _, [] => []
  | g, f, t :: ts =>
    if t.isFp then abi.floats.parameters[f]? :: positional abi g (f + 1) ts
    else abi.generals.parameters[g]? :: positional abi (g + 1) f ts

section Positional

variable {abi : TargetABI}

@[simp] theorem positional_length (g f : Nat) (types : List Ty) :
    (positional abi g f types).length = types.length := by
  induction types generalizing g f with
  | nil => rfl
  | cons t ts ih =>
    rw [positional]
    split <;> simp [ih]

@[simp] theorem classRank_zero (types : List Ty) (fp : Bool) : classRank types fp 0 = 0 := by
  simp [classRank]

theorem classRank_succ (t : Ty) (ts : List Ty) (fp : Bool) (i : Nat) :
    classRank (t :: ts) fp (i + 1) = classRank ts fp i + if t.isFp = fp then 1 else 0 := by
  simp [classRank, List.countP_cons]

/-- Counting goes on: each argument of a class raises the rank of the later ones. -/
theorem classRank_lt {types : List Ty} {i j : Nat} {t : Ty} (h : types[i]? = some t)
    (hij : i < j) : classRank types t.isFp i < classRank types t.isFp j := by
  induction types generalizing i j with
  | nil => simp at h
  | cons u us ih =>
    cases j with
    | zero => omega
    | succ j =>
      cases i with
      | zero =>
        simp only [List.getElem?_cons_zero, Option.some.injEq] at h
        simp [h, classRank_succ]
      | succ i =>
        rw [classRank_succ, classRank_succ]
        have hlt := ih (by simpa using h) (Nat.lt_of_succ_lt_succ hij)
        omega

theorem positional_getElem? (g f : Nat) {types : List Ty} {i : Nat} {t : Ty}
    (h : types[i]? = some t) :
    (positional abi g f types)[i]? =
      some ((abi.regOf t).parameters[(if t.isFp then f else g) + classRank types t.isFp i]?) := by
  induction types generalizing g f i with
  | nil => simp at h
  | cons u us ih =>
    cases i with
    | zero =>
      simp only [List.getElem?_cons_zero, Option.some.injEq] at h
      subst h
      rw [positional]
      split <;> rename_i hfp <;> simp [hfp, TargetABI.regOf, TargetABI.regClass]
    | succ i =>
      have hi : us[i]? = some t := by simpa using h
      rw [positional, classRank_succ]
      -- the head raises the count of its own class only
      cases hu : u.isFp <;> cases ht : t.isFp <;>
        simp [ht, ih _ _ hi, Nat.add_assoc, Nat.add_comm 1]

theorem getElem?_inj_of_nodup {l : List Nat} (hl : l.Nodup) {i j r : Nat}
    (hi : l[i]? = some r) (hj : l[j]? = some r) : i = j := by
  obtain ⟨hi', hir⟩ := List.getElem?_eq_some_iff.mp hi
  obtain ⟨hj', hjr⟩ := List.getElem?_eq_some_iff.mp hj
  exact (List.Nodup.getElem_inj_iff hl).mp (hir.trans hjr.symm)

/-- The positional assignment is a calling convention. -/
theorem positional_ok (types : List Ty) : CallRegsOk abi types (positional abi 0 0 types) where
  length_eq := positional_length 0 0 types
  entry i t h := by
    have hentry : (positional abi 0 0 types)[i]? = _ := positional_getElem? 0 0 h
    simpa using hentry
  distinct i j t u r hi hj hne hri hrj heq := by
    rw [positional_getElem? 0 0 hi] at hri
    rw [positional_getElem? 0 0 hj] at hrj
    simp only [Option.some.injEq, ite_self, Nat.zero_add] at hri hrj
    rw [TargetABI.regOf, heq] at hri
    -- equal registers have equal ranks, and ranks within one class increase
    have hrank := getElem?_inj_of_nodup (abi.regOf u).parameters_nodup hri hrj
    rcases Nat.lt_or_gt_of_ne hne with hlt | hlt
    · have := classRank_lt hi hlt
      rw [heq] at this
      omega
    · have := classRank_lt hj hlt
      omega

end Positional

/-! ## The loop of `assign_call_regs` -/

section Loop

variable {abi : TargetABI}

/-- The counters after `g` general and `f` floating arguments: each stops at the
end of its register list. -/
structure Counted (abi : TargetABI) (g f : Nat) (s : AssignState) : Prop where
  general : s.numGeneral = min g abi.generals.parameters.length
  float : s.numFloat = min f abi.floats.parameters.length

theorem Counted.assignGeneral {g f : Nat} {s : AssignState} (h : Counted abi g f s) :
    Counted abi (g + 1) f (s.assignGeneral abi.generals.parameters) ∧
      (s.assignGeneral abi.generals.parameters).paramRegs =
        s.paramRegs ++ [abi.generals.parameters[g]?] := by
  have hg := h.general
  unfold AssignState.assignGeneral
  split
  · have hs : s.numGeneral = g := by omega
    exact ⟨⟨by simp; omega, h.float⟩, by rw [hs]⟩
  · have hs : abi.generals.parameters.length ≤ g := by omega
    exact ⟨⟨by simp only []; omega, h.float⟩, by rw [List.getElem?_eq_none hs]⟩

theorem Counted.assignFloat {g f : Nat} {s : AssignState} (h : Counted abi g f s) :
    Counted abi g (f + 1) (s.assignFloat abi.floats.parameters) ∧
      (s.assignFloat abi.floats.parameters).paramRegs =
        s.paramRegs ++ [abi.floats.parameters[f]?] := by
  have hf := h.float
  unfold AssignState.assignFloat
  split
  · have hs : s.numFloat = f := by omega
    exact ⟨⟨h.general, by simp; omega⟩, by rw [hs]⟩
  · have hs : abi.floats.parameters.length ≤ f := by omega
    exact ⟨⟨h.general, by simp only []; omega⟩, by rw [List.getElem?_eq_none hs]⟩

theorem assignStep_prim (s : AssignState) {t : Ty} (ht : t.isPrimitive = true) :
    assignStep abi s t = .ok (if t.isFp then s.assignFloat abi.floats.parameters
      else s.assignGeneral abi.generals.parameters) := by
  cases hfp : t.isFp <;> simp [assignStep, ht, hfp, pure, bind, Except.pure, Except.bind]

theorem assignStep_ref (s : AssignState) {t : Ty} (ht : t.isReference = true) :
    assignStep abi s t = .ok ((s.assignGeneral abi.generals.parameters).assignGeneral
      abi.generals.parameters) := by
  cases t <;> simp [Ty.isReference] at ht
  simp [assignStep, Ty.isPrimitive, Ty.isReference, Ty.isFp, pure, bind, Except.pure, Except.bind]

/-- Primitives take the next register of their class. -/
theorem foldlM_assign_prim {g f : Nat} {s : AssignState} (h : Counted abi g f s)
    {types : List Ty} (hts : ∀ t ∈ types, t.isPrimitive = true) :
    ∃ s', types.foldlM (assignStep abi) s = .ok s' ∧
      s'.paramRegs = s.paramRegs ++ positional abi g f types := by
  induction types generalizing g f s with
  | nil => exact ⟨s, rfl, by simp [positional]⟩
  | cons t ts ih =>
    have hts' : ∀ u ∈ ts, u.isPrimitive = true := fun u hu => hts u (by simp [hu])
    rw [List.foldlM_cons, assignStep_prim s (hts t (by simp)), positional]
    cases hfp : t.isFp with
    | true =>
      obtain ⟨hc, hr⟩ := h.assignFloat
      obtain ⟨s', hs', hr'⟩ := ih hc hts'
      exact ⟨s', hs', by simp [hr', hr]⟩
    | false =>
      obtain ⟨hc, hr⟩ := h.assignGeneral
      obtain ⟨s', hs', hr'⟩ := ih hc hts'
      exact ⟨s', hs', by simp [hr', hr]⟩

/-- Without references the loop computes the positional assignment. -/
theorem assignCallRegs_eq_positional {types : List Ty}
    (hts : ∀ t ∈ types, t.isPrimitive = true) :
    assignCallRegs types abi = .ok (positional abi 0 0 types) := by
  have h0 : Counted abi 0 0 ⟨0, 0, []⟩ := ⟨by simp, by simp⟩
  obtain ⟨s, hs, hr⟩ := foldlM_assign_prim h0 hts
  rw [assignCallRegs, hs]
  simp [Except.map, hr]

@[simp] theorem assignGeneral_length (s : AssignState) (params : List Nat) :
    (s.assignGeneral params).paramRegs.length = s.paramRegs.length + 1 := by
  unfold AssignState.assignGeneral
  split <;> simp

@[simp] theorem assignFloat_length (s : AssignState) (params : List Nat) :
    (s.assignFloat params).paramRegs.length = s.paramRegs.length + 1 := by
  unfold AssignState.assignFloat
  split <;> simp

/-- A type adds one entry, and a reference one more. -/
theorem assignStep_length (abi : TargetABI) (s : AssignState) (t : ArgTy) :
    ∃ s', assignStep abi s t.ty = .ok s' ∧
      s'.paramRegs.length = s.paramRegs.length + 1 + if t.ty.isReference then 1 else 0 := by
  rcases t.ok with ht | ht
  · have hr : t.ty.isReference = false := by
      cases h : t.ty <;> simp_all [Ty.isPrimitive, Ty.isReference]
    refine ⟨_, assignStep_prim s ht, ?_⟩
    split <;> simp [hr]
  · exact ⟨_, assignStep_ref s ht, by simp [ht]⟩

theorem foldlM_assign_length (abi : TargetABI) (s : AssignState) (types : List ArgTy) :
    ∃ s', (types.map ArgTy.ty).foldlM (assignStep abi) s = .ok s' ∧
      s'.paramRegs.length = s.paramRegs.length + types.length +
        (types.map ArgTy.ty).countP Ty.isReference := by
  induction types generalizing s with
  | nil => exact ⟨s, rfl, rfl⟩
  | cons t ts ih =>
    obtain ⟨s₁, h₁, hl₁⟩ := assignStep_length abi s t
    obtain ⟨s₂, h₂, hl₂⟩ := ih s₁
    refine ⟨s₂, by rw [List.map_cons, List.foldlM_cons, h₁]; exact h₂, ?_⟩
    rw [hl₂, hl₁, List.map_cons, List.countP_cons, List.length_cons]
    omega

theorem assignCallRegs_length (abi : TargetABI) (types : List ArgTy) :
    ∃ regs, assignCallRegs (types.map ArgTy.ty) abi = .ok regs ∧
      regs.length = types.length + (types.map ArgTy.ty).countP Ty.isReference := by
  obtain ⟨s, hs, hl⟩ := foldlM_assign_length abi ⟨0, 0, []⟩ types
  exact ⟨s.paramRegs, by rw [assignCallRegs, hs]; rfl, by simpa using hl⟩

end Loop

end Lowering
end Cact
