import Cact.Rv64.Abi

/-!
# Precolouring of calls and parameters (`lowering/regalloc/precolorize.hpp`)

Register allocation starts from variables that stand for physical registers.
`Precolorize` moves parameters out of their registers at the head of a function
and arguments into their registers in front of a call; both sides ask
`assign_call_regs` where the `i`-th argument lives.

- `mapRegisters`: one proxy variable for each physical register.
- `colorizeParam`, `colorizeCall`: the moves of the callee and of the caller.
- `CallConvention`: a signature has a calling convention and both sides follow it.
- `callConvention_iff`: exactly the signatures without references have one.
-/

namespace Cact

namespace Lowering

open Ir

/-! ## Register proxies -/

/-- `PrecolorVars`: the proxy of each register, by class and number. -/
structure PrecolorVars where
  proxies : List ((Bool × Nat) × Alloc)

/-- `at`. -/
def PrecolorVars.get (p : PrecolorVars) (type : Ty) (idx : Nat) : Except Fault Alloc :=
  match p.proxies.find? fun e => e.1 == (type.isFp, idx) with
  | some e => .ok e.2
  | none => .error .nullPointer

/-- The local `map` of `map_registers`, on one register class. -/
def mapClass (abi : TargetABI) (type : Ty) (s : PrecolorVars × Program) (idx : Nat) :
    PrecolorVars × Program :=
  let (pre, prog) := s
  let name := "__reg_" ++ (abi.regOf type).name idx
  let proxy := Alloc.variable prog.nextAlloc name type none false
  (⟨pre.proxies ++ [((type.isFp, idx), proxy)]⟩,
    { prog.addGlobal proxy with nextAlloc := prog.nextAlloc + 1 })

/-- `map_registers`. -/
def mapRegisters (abi : TargetABI) (prog : Program) : PrecolorVars × Program :=
  let s := (List.range abi.generals.size).foldl (mapClass abi .integer) (⟨[]⟩, prog)
  (List.range abi.floats.size).foldl (mapClass abi .floating) s

section Proxies

variable {abi : TargetABI}

theorem find?_append_of_isSome {α : Type*} {p : α → Bool} {l l' : List α}
    (h : (l.find? p).isSome = true) : ((l ++ l').find? p).isSome = true := by
  rw [List.find?_append]
  cases hl : l.find? p with
  | none => simp [hl] at h
  | some a => simp

/-- Proxies are only added, and a class gets one for each of its registers. -/
theorem foldl_mapClass_isSome (type : Ty) (s : PrecolorVars × Program) (idxs : List Nat)
    (key : Bool × Nat)
    (h : (s.1.proxies.find? fun e => e.1 == key).isSome = true ∨
      (type.isFp = key.1 ∧ key.2 ∈ idxs)) :
    (((idxs.foldl (mapClass abi type) s).1.proxies.find? fun e => e.1 == key).isSome = true) := by
  induction idxs generalizing s with
  | nil =>
    rcases h with h | ⟨-, h⟩
    · exact h
    · simp at h
  | cons i is ih =>
    rw [List.foldl_cons]
    refine ih _ ?_
    rcases h with h | ⟨hfp, hmem⟩
    · exact .inl (find?_append_of_isSome h)
    · rcases List.mem_cons.mp hmem with rfl | hmem
      · refine .inl ?_
        simp [mapClass, List.find?_append, hfp]
      · exact .inr ⟨hfp, hmem⟩

/-- Every register of the target has a proxy. -/
theorem mapRegisters_get (prog : Program) (type : Ty) {idx : Nat}
    (h : idx < (abi.regOf type).size) :
    ∃ a, (mapRegisters abi prog).1.get type idx = .ok a := by
  have hsome : ((mapRegisters abi prog).1.proxies.find?
      fun e => e.1 == (type.isFp, idx)).isSome = true := by
    rw [TargetABI.regOf, TargetABI.regClass] at h
    cases hfp : type.isFp with
    | true =>
      rw [hfp] at h
      exact foldl_mapClass_isSome _ _ _ _ (.inr ⟨rfl, List.mem_range.mpr h⟩)
    | false =>
      rw [hfp] at h
      refine foldl_mapClass_isSome _ _ _ _ (.inl ?_)
      exact foldl_mapClass_isSome _ _ _ _ (.inr ⟨rfl, List.mem_range.mpr h⟩)
  obtain ⟨e, he⟩ := Option.isSome_iff_exists.mp hsome
  exact ⟨e.2, by rw [PrecolorVars.get, he]⟩

end Proxies

/-! ## The callee's side -/

def mov (result : LeftValue) (operand : Value) : Inst := .unary ⟨.mov, some result, operand⟩

/-- The loop of `colorize_param` from parameter `i` on: each parameter that has
a register is loaded from it, in front of what is there. -/
def colorizeParamLoop (pre : PrecolorVars) :
    List Alloc → List (Option Nat) → List Inst → Except Fault (List Inst)
  | [], _, insts => .ok insts
  | _ :: _, [], _ => .error .outOfRange
  | _ :: params, none :: regs, insts => colorizeParamLoop pre params regs insts
  | p :: params, some reg :: regs, insts => do
    let proxy ← pre.get p.type reg
    colorizeParamLoop pre params regs (mov p.value.left (.left proxy.value.left) :: insts)

/-- `colorize_param`: the instructions of the entry block afterwards. -/
def colorizeParam (abi : TargetABI) (pre : PrecolorVars) (params : List Alloc)
    (entry : List Inst) : Except Fault (List Inst) := do
  let regs ← assignParamRegs params abi
  colorizeParamLoop pre params regs entry

/-! ## The caller's side -/

/-- The loop of `colorize_call` over the arguments: the moves to put in front of
the call, and the arguments that the call is left with. -/
def colorizeCallLoop (pre : PrecolorVars) :
    List Value → List (Option Nat) → Except Fault (List Inst × List Value)
  | [], _ => .ok ([], [])
  | _ :: _, [] => .error .outOfRange
  | arg :: args, none :: regs => do
    let (moves, args') ← colorizeCallLoop pre args regs
    .ok (moves, arg :: args')
  | arg :: args, some reg :: regs => do
    let proxy ← pre.get arg.typeOf reg
    let (moves, args') ← colorizeCallLoop pre args regs
    .ok (mov proxy.value.left arg :: moves, .left proxy.value.left :: args')

/-- What `colorize_call` puts in the place of one call. -/
def colorizeCallInst (abi : TargetABI) (pre : PrecolorVars) (c : CallInst) :
    Except Fault (List Inst) := do
  let regs ← assignArgRegs c.args abi
  let (moves, args) ← colorizeCallLoop pre c.args regs
  match c.result with
  | some result =>
    let retval ← pre.get result.type (abi.regOf result.type).returnValue
    .ok (moves ++ [.call ⟨some retval.value.left, c.func, args⟩,
      mov result (.left retval.value.left)])
  | none => .ok (moves ++ [.call ⟨none, c.func, args⟩])

/-- `colorize_call`. -/
def colorizeCall (abi : TargetABI) (pre : PrecolorVars) (insts : List Inst) :
    Except Fault (List Inst) :=
  (insts.mapM fun i =>
    match i with
    | Inst.call c => colorizeCallInst abi pre c
    | i => .ok [i]).map List.flatten

/-! ## Both sides follow the assignment -/

/-- The moves of a callee: each parameter with a register is read from its proxy. -/
def paramMoves (pre : PrecolorVars) (params : List Alloc) (regs : List (Option Nat)) : List Inst :=
  (params.zip regs).filterMap fun (p, reg) => do
    let proxy ← (pre.get p.type (← reg)).toOption
    return mov p.value.left (.left proxy.value.left)

/-- The moves of a caller: each argument with a register is written to its proxy. -/
def argMoves (pre : PrecolorVars) (args : List Value) (regs : List (Option Nat)) : List Inst :=
  (args.zip regs).filterMap fun (a, reg) => do
    let proxy ← (pre.get a.typeOf (← reg)).toOption
    return mov proxy.value.left a

/-- A signature has a calling convention, and both the moves of a callee with
that signature and those of its callers follow it. -/
structure CallConvention (abi : TargetABI) (types : List Ty) (regs : List (Option Nat)) :
    Prop where
  assigned : assignCallRegs types abi = .ok regs
  ok : CallRegsOk abi types regs
  callee : ∀ (prog : Program) (params : List Alloc) (entry : List Inst),
    params.map Alloc.type = types →
    colorizeParam abi (mapRegisters abi prog).1 params entry =
      .ok ((paramMoves (mapRegisters abi prog).1 params regs).reverse ++ entry)
  caller : ∀ (prog : Program) (c : CallInst), c.args.map Value.typeOf = types →
    ∃ result args after, colorizeCallInst abi (mapRegisters abi prog).1 c =
      .ok (argMoves (mapRegisters abi prog).1 c.args regs ++ Inst.call ⟨result, c.func, args⟩ :: after)

/-- Every register of the assignment belongs to the class of its argument. -/
def Placed (abi : TargetABI) : List Ty → List (Option Nat) → Prop :=
  List.Forall₂ fun t reg => ∀ r, reg = some r → r < (abi.regOf t).size

section Moves

variable {abi : TargetABI}

theorem CallRegsOk.placed {types : List Ty} {regs : List (Option Nat)}
    (h : CallRegsOk abi types regs) : Placed abi types regs := by
  refine List.forall₂_iff_get.mpr ⟨h.length_eq.symm, fun i hi hi' r hr => ?_⟩
  have hentry := h.entry i types[i] (List.getElem?_eq_getElem hi)
  rw [List.getElem?_eq_getElem hi', Option.some.injEq] at hentry
  simp only [List.get_eq_getElem] at hr ⊢
  exact (abi.regOf _).parameters_lt r (List.mem_of_getElem? (hentry ▸ hr))

theorem colorizeParamLoop_eq (prog : Program) {params : List Alloc} {regs : List (Option Nat)}
    (h : Placed abi (params.map Alloc.type) regs) (insts : List Inst) :
    colorizeParamLoop (mapRegisters abi prog).1 params regs insts =
      .ok ((paramMoves (mapRegisters abi prog).1 params regs).reverse ++ insts) := by
  induction params generalizing regs insts with
  | nil => rfl
  | cons p params ih =>
    cases h with
    | cons hhead htail =>
      rename_i reg regs
      cases reg with
      | none => simpa [colorizeParamLoop, paramMoves] using ih htail insts
      | some r =>
        obtain ⟨a, ha⟩ := mapRegisters_get prog p.type (hhead r rfl)
        simp only [colorizeParamLoop, ha, bind, Except.bind]
        rw [ih htail]
        simp [paramMoves, ha, Except.toOption]

theorem colorizeCallLoop_eq (prog : Program) {args : List Value} {regs : List (Option Nat)}
    (h : Placed abi (args.map Value.typeOf) regs) :
    ∃ args', colorizeCallLoop (mapRegisters abi prog).1 args regs =
      .ok (argMoves (mapRegisters abi prog).1 args regs, args') := by
  induction args generalizing regs with
  | nil => exact ⟨[], rfl⟩
  | cons a args ih =>
    cases h with
    | cons hhead htail =>
      rename_i reg regs
      obtain ⟨args', hargs⟩ := ih htail
      cases reg with
      | none =>
        refine ⟨a :: args', ?_⟩
        simp [colorizeCallLoop, hargs, argMoves, bind, Except.bind]
      | some r =>
        obtain ⟨p, hp⟩ := mapRegisters_get prog a.typeOf (hhead r rfl)
        refine ⟨.left p.value.left :: args', ?_⟩
        simp [colorizeCallLoop, hargs, argMoves, hp, bind, Except.bind, Except.toOption]

/-- Whatever the assignment, both sides move what it says. -/
theorem CallRegsOk.convention {types : List Ty} {regs : List (Option Nat)}
    (h : CallRegsOk abi types regs) (ha : assignCallRegs types abi = .ok regs) :
    CallConvention abi types regs where
  assigned := ha
  ok := h
  callee prog params entry htypes := by
    subst htypes
    rw [colorizeParam, assignParamRegs, ha]
    exact colorizeParamLoop_eq prog h.placed entry
  caller prog c htypes := by
    subst htypes
    obtain ⟨args', hargs⟩ := colorizeCallLoop_eq prog h.placed
    cases hres : c.result with
    | none =>
      refine ⟨none, args', [], ?_⟩
      simp [colorizeCallInst, assignArgRegs, ha, hargs, hres, bind, Except.bind]
    | some result =>
      obtain ⟨p, hp⟩ := mapRegisters_get prog result.type (abi.regOf result.type).returnValue_lt
      refine ⟨some p.value.left, args', [mov result (.left p.value.left)], ?_⟩
      simp [colorizeCallInst, assignArgRegs, ha, hargs, hres, hp, bind, Except.bind]

end Moves

/-- **A signature of primitives and references has a calling convention exactly
when it has no reference.** -/
theorem callConvention_iff (abi : TargetABI) (types : List ArgTy) :
    (∃ regs, CallConvention abi (types.map ArgTy.ty) regs) ↔
      ∀ t ∈ types, t.ty.isReference = false := by
  constructor
  · rintro ⟨regs, h⟩
    obtain ⟨regs', ha, hlen⟩ := assignCallRegs_length abi types
    have heq : regs' = regs := Except.ok.inj (ha.symm.trans h.assigned)
    have hcount : (types.map ArgTy.ty).countP Ty.isReference = 0 := by
      have hl := h.ok.length_eq
      rw [← heq, hlen, List.length_map] at hl
      omega
    intro t ht
    simpa using List.countP_eq_zero.mp hcount t.ty (List.mem_map_of_mem ht)
  · intro h
    have hprim : ∀ t ∈ types.map ArgTy.ty, t.isPrimitive = true := by
      intro t ht
      obtain ⟨a, ha, rfl⟩ := List.mem_map.mp ht
      exact a.ok.resolve_right (by simp [h a ha])
    exact ⟨_, (positional_ok _).convention (assignCallRegs_eq_positional hprim)⟩

/-- A signature of an array and an integer: the array takes both `a0` and `a1`,
and the integer is third. No assignment of its three entries is a convention. -/
theorem callConvention_slice_int :
    assignCallRegs [.reference .int32 false true, .int32] Rv64.abi =
        .ok [some 10, some 11, some 12] ∧
      ¬ ∃ regs, CallConvention Rv64.abi [.reference .int32 false true, .int32] regs := by
  have hregs : assignCallRegs [.reference .int32 false true, .int32] Rv64.abi =
      .ok [some 10, some 11, some 12] := by decide
  refine ⟨hregs, ?_⟩
  rintro ⟨regs, h⟩
  have heq := Except.ok.inj (hregs.symm.trans h.assigned)
  have hlen := h.ok.length_eq
  rw [← heq] at hlen
  simp at hlen

end Lowering
end Cact
