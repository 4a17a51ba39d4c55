import Cact.Rv64.IselLegal

/-!
# Stack slots (`rv64/isel.hpp`)

Where the code of a call stores the arguments that have no register, and where that of a
function loads the parameters that live in memory, both from the stack pointer.

- `AccessesStack`: code that ends in an access at an offset from the stack pointer.
- `slotCode`: the part of a call sequence that belongs to one argument.
- `stackArg_accesses`, `translateLoad_param`: the slots of both sides.
-/

namespace Cact

namespace Rv64

namespace Isel

open Ir (Ty Fault ConstexprValue Value LeftValue Alloc AllocId CallInst)

/-! ## Accesses next to the stack pointer -/

section Access

/-- The base register, the offset and the size of a memory access. -/
def access? : Inst → Option (GeneralReg × Word × Nat)
  | .instI i =>
    match i.op with
    | .ld | .sd => some (i.rs1, i.imm.signExtend 64, 8)
    | .lw | .lwu | .sw => some (i.rs1, i.imm.signExtend 64, 4)
    | .lh | .lhu | .sh => some (i.rs1, i.imm.signExtend 64, 2)
    | .lb | .lbu | .sb => some (i.rs1, i.imm.signExtend 64, 1)
    | _ => none
  | .instFI i =>
    match i.op with
    | .flw | .fsw => some (i.rs1, i.imm.signExtend 64, 4)
    | .fld | .fsd => some (i.rs1, i.imm.signExtend 64, 8)
  | _ => none

/-- The size of a value of the type in memory. -/
def typeWidth (t : Ty) : Nat := if isInt1 t then 1 else if is32BitOp t then 4 else 8

/-- The code ends in an access of `w` bytes, `off` bytes from the stack pointer. -/
def AccessesStack (env : Env) (insts : List Inst) (off : Word) (w : Nat) : Prop :=
  ∃ front last base imm, insts = front ++ [last] ∧ access? last = some (base, imm, w) ∧
    (∃ (img : Image) (s s' : State env), execAll img front s = .ok s') ∧
    ∀ (img : Image) (s s' : State env), execAll img front s = .ok s' →
      s'.regs base + imm = s.regs regSp + off

variable {env : Env} {insts : List Inst} {off off' : Word} {w w' : Nat} {t : Ty}

/-- Code keeps a register that none of its instructions writes. -/
theorem execAll_regs_of_notMem {img : Image} {s s' : State env} {r : GeneralReg}
    (hinsts : ∀ i ∈ insts, i.usesPc = false ∧ r ∉ i.writes) (h : execAll img insts s = .ok s') :
    s'.regs r = s.regs r := by
  induction insts generalizing s with
  | nil =>
    cases h
    rfl
  | cons i is ih =>
    obtain ⟨hpc, hr⟩ := hinsts i List.mem_cons_self
    rw [execAll, List.foldlM_cons] at h
    obtain ⟨s₁, h₁, h₂⟩ := Except.bind_eq_ok.mp h
    rw [ih (fun j hj => hinsts j (List.mem_cons_of_mem _ hj)) h₂, exec_regs_of_notMem hpc h₁ hr]

/-- Code has one last access. -/
theorem AccessesStack.unique (h : AccessesStack env insts off w)
    (h' : AccessesStack env insts off' w') : off = off' ∧ w = w' := by
  obtain ⟨front, last, base, imm, rfl, hacc, ⟨img, s, s', hrun⟩, haddr⟩ := h
  obtain ⟨front', last', base', imm', heq, hacc', -, haddr'⟩ := h'
  obtain ⟨rfl, hlast⟩ := List.append_inj' heq rfl
  cases hlast
  rw [hacc] at hacc'
  cases hacc'
  have hoff := (haddr img s s' hrun).symm.trans (haddr' img s s' hrun)
  exact ⟨add_left_cancel hoff, rfl⟩

theorem not_isInt1_of_isFp (h : t.isFp = true) : isInt1 t = false := by
  unfold isInt1
  split
  · cases h
  · rfl

theorem access?_loadInst (rd : Fin 32) (base : GeneralReg) (imm : BitVec 32) :
    access? (loadInst t rd base imm) = some (base, imm.signExtend 64, typeWidth t) := by
  unfold loadInst typeWidth
  by_cases hfp : t.isFp = true
  · have hint1 : isInt1 t = false := by
      unfold isInt1
      split
      · cases hfp
      · rfl
    rw [if_pos hfp, hint1]
    cases is32BitOp t <;> rfl
  · rw [if_neg hfp]
    cases isInt1 t <;> cases is32BitOp t <;> rfl

theorem access?_storeInst (rs : Fin 32) (base : GeneralReg) (imm : BitVec 32) :
    access? (storeInst t rs base imm) = some (base, imm.signExtend 64, typeWidth t) := by
  unfold storeInst typeWidth
  by_cases hfp : t.isFp = true
  · have hint1 : isInt1 t = false := by
      unfold isInt1
      split
      · cases hfp
      · rfl
    rw [if_pos hfp, hint1]
    cases is32BitOp t <;> rfl
  · rw [if_neg hfp]
    cases isInt1 t <;> cases is32BitOp t <;> rfl

/-- An access at an offset that `resolve_addr` has split. -/
theorem accessesStack_resolveAddr (input : env.Input) {access : GeneralReg → BitVec 32 → Inst}
    (h : ∀ base imm, access? (access base imm) = some (base, imm.signExtend 64, w)) :
    AccessesStack env ((resolveAddr regSp off).1 ++
      [access (resolveAddr regSp off).2.1 (resolveAddr regSp off).2.2]) off w := by
  refine ⟨_, _, _, _, rfl, h _ _, ?_⟩
  unfold resolveAddr
  by_cases hfit : fitsI12 off = true
  · rw [if_pos hfit]
    refine ⟨⟨⟨[], [], []⟩, zeroState input, zeroState input, rfl⟩, ?_⟩
    rintro img s s' ⟨⟩
    exact congrArg (s.regs regSp + ·) (signed32_of_fits hfit)
  · rw [if_neg hfit]
    have hcode (s : State env) : ∃ ρ, (∀ img, execAll img (addRegImm regT0 regSp off false) s =
        .ok { s with regs := ρ }) ∧ ρ regT0 = s.regs regSp + off := by
      have hadd : Computes (addRegImm regT0 regSp off false) s.regs regT0 (s.regs regSp + off) :=
        addRegImm_computes false (by decide)
      obtain ⟨ρ, hrun, hval, -⟩ := hadd
      exact ⟨ρ, fun img => execAll_of_runRegs img hrun, hval⟩
    constructor
    · obtain ⟨ρ, hrun, -⟩ := hcode (zeroState input)
      exact ⟨⟨[], [], []⟩, zeroState input, _, hrun _⟩
    · intro img s s' hs'
      obtain ⟨ρ, hrun, hval⟩ := hcode s
      rw [hrun img] at hs'
      cases hs'
      show ρ regT0 + _ = _
      rw [hval]
      exact add_zero _

/-- An access with an offset of its own, behind code that keeps the stack pointer. -/
theorem accessesStack_direct (input : env.Input) (front : List Inst) {last : Inst} {imm : BitVec 32}
    (hacc : access? last = some (regSp, imm.signExtend 64, w))
    (hrun : ∃ s', execAll ⟨[], [], []⟩ front (zeroState input) = .ok s')
    (hsp : ∀ img (s s' : State env), execAll img front s = .ok s' → s'.regs regSp = s.regs regSp) :
    AccessesStack env (front ++ [last]) (imm.signExtend 64) w := by
  obtain ⟨s', hs'⟩ := hrun
  refine ⟨front, last, regSp, _, rfl, hacc, ⟨_, _, s', hs'⟩, ?_⟩
  intro img s s₁ hs₁
  rw [hsp img s s₁ hs₁]

end Access

/-! ## The caller's slots -/

section Caller

variable {env : Env} {ctx : Ctx}

/-- The size of the store that puts an argument into its slot. -/
def storedWidth (ctx : Ctx) (arg : Value) : Nat :=
  match lookupReg ctx.regs arg, arg with
  | none, .const c => if (extractImm c).isSome then 8 else typeWidth arg.typeOf
  | _, _ => typeWidth arg.typeOf

/-- The offset of the `k`-th slot, counted in 32 bits. -/
def slotOffset (k : Nat) : Word := (BitVec.ofNat 32 (8 * k)).signExtend 64

/-- The argument is in a register or a constant that is stored. -/
def Storable (ctx : Ctx) (arg : Value) : Prop :=
  (lookupReg ctx.regs arg).isSome ∨ IsStoredConst arg

/-- Loading a literal can succeed, and keeps the stack pointer. -/
theorem loadFloatConst_runs (input : env.Input) {pool : List FloatLiteral} {c : ConstexprValue}
    {t : Ty} : ∃ s', execAll ⟨[], [], []⟩ (loadFloatConst pool c t regFt0).1 (zeroState input) =
      .ok s' := by
  unfold loadFloatConst
  cases is32BitOp t
  · exact ⟨_, rfl⟩
  · exact ⟨_, rfl⟩

theorem loadFloatConst_keeps_sp {pool : List FloatLiteral} {c : ConstexprValue} {t : Ty}
    {img : Image} {s s' : State env}
    (h : execAll img (loadFloatConst pool c t regFt0).1 s = .ok s') :
    s'.regs regSp = s.regs regSp := by
  refine execAll_regs_of_notMem ?_ h
  unfold loadFloatConst
  cases is32BitOp t <;> simp [Inst.usesPc, Inst.writes, regT0, regSp]

theorem stackArg_accesses (input : env.Input) (pool : List FloatLiteral) {arg : Value} (k : Nat)
    (h : Storable ctx arg) : AccessesStack env (stackArg ctx pool arg (8 * k)).1 (slotOffset k)
      (storedWidth ctx arg) := by
  unfold stackArg storedWidth
  cases arg with
  | left v =>
    have hreg : (lookupReg ctx.regs (.left v)).isSome := h.resolve_right id
    obtain ⟨r, hr⟩ := Option.isSome_iff_exists.mp hreg
    rw [hr]
    exact accessesStack_resolveAddr input (access?_storeInst r)
  | const c =>
    have hstored : IsStoredConst (.const c) := h.resolve_left (by simp [lookupReg])
    dsimp only [lookupReg]
    cases himm : extractImm c with
    | some imm =>
      refine accessesStack_direct input [.pseudoLI ⟨regT0, imm⟩] rfl ⟨_, rfl⟩ ?_
      rintro img s s' ⟨⟩
      rfl
    | none =>
      have hfp : (Value.const c).typeOf.isFp = true := by
        simpa [IsStoredConst, himm, Value.typeOf] using hstored
      dsimp only
      rw [if_pos hfp]
      have hwidth : access? (.instFI ⟨if is32BitOp (Value.const c).typeOf then .fsw else .fsd, regFt0,
          regSp, BitVec.ofNat 32 (8 * k)⟩) = some (regSp, slotOffset k, typeWidth c.type) := by
        have hint1 : isInt1 c.type = false := not_isInt1_of_isFp hfp
        unfold typeWidth
        rw [hint1]
        cases h32 : is32BitOp c.type <;> simp [Value.typeOf, h32, access?, slotOffset]
      exact accessesStack_direct input _ hwidth (loadFloatConst_runs input)
        fun _ _ _ => loadFloatConst_keeps_sp

/-- The code that stores the argument `i` of a call, from the slot `k` on. -/
def slotCode (ctx : Ctx) : List FloatLiteral → Nat → List (Value × Option Nat) → Nat → List Inst
  | _, _, [], _ => []
  | _, _, (_, some _) :: _, 0 => []
  | pool, k, (_, some _) :: args, i + 1 => slotCode ctx pool k args i
  | pool, k, (arg, none) :: _, 0 => (stackArg ctx pool arg (8 * k)).1
  | pool, k, (arg, none) :: args, i + 1 =>
    slotCode ctx (stackArg ctx pool arg (8 * k)).2 (k + 1) args i

/-- The call sequence consists of the code of its arguments, in their order. -/
theorem stackArgs_eq_flatMap (args : List (Value × Option Nat)) (pool : List FloatLiteral) (k : Nat) :
    (stackArgs ctx pool (8 * k) args).1 =
      (List.range args.length).flatMap (slotCode ctx pool k args) := by
  induction args generalizing pool k with
  | nil => rfl
  | cons a args ih =>
    rw [List.length_cons, List.range_succ_eq_map, List.flatMap_cons, List.flatMap_map]
    obtain ⟨arg, reg⟩ := a
    cases reg with
    | some r => exact ih pool k
    | none =>
      show _ ++ (stackArgs ctx _ (8 * (k + 1)) args).1 = _
      rw [ih]
      rfl

theorem slotCode_of_some {args : List (Value × Option Nat)} {i r : Nat} {arg : Value}
    (h : args[i]? = some (arg, some r)) (pool : List FloatLiteral) (k : Nat) :
    slotCode ctx pool k args i = [] := by
  induction args generalizing pool k i with
  | nil => cases h
  | cons a args ih =>
    cases i with
    | zero =>
      cases h
      rfl
    | succ i =>
      obtain ⟨arg', reg⟩ := a
      cases reg with
      | some r => exact ih h pool k
      | none => exact ih h _ (k + 1)

theorem slotCode_of_length_le {args : List (Value × Option Nat)} {i : Nat} (h : args[i]? = none)
    (pool : List FloatLiteral) (k : Nat) : slotCode ctx pool k args i = [] := by
  induction args generalizing pool k i with
  | nil => rw [slotCode]
  | cons a args ih =>
    cases i with
    | zero => cases h
    | succ i =>
      obtain ⟨arg', reg⟩ := a
      cases reg with
      | some r => exact ih h pool k
      | none => exact ih h _ (k + 1)

/-- How many of the first `i` arguments have no register. -/
def slotRank (args : List (Value × Option Nat)) (i : Nat) : Nat :=
  (args.take i).countP fun a => a.2.isNone

theorem slotCode_of_none {args : List (Value × Option Nat)} {i : Nat} {arg : Value}
    (h : args[i]? = some (arg, none)) (pool : List FloatLiteral) (k : Nat) :
    ∃ pool', slotCode ctx pool k args i = (stackArg ctx pool' arg (8 * (k + slotRank args i))).1 := by
  induction args generalizing pool k i with
  | nil => cases h
  | cons a args ih =>
    cases i with
    | zero =>
      cases h
      exact ⟨pool, rfl⟩
    | succ i =>
      obtain ⟨arg', reg⟩ := a
      cases reg with
      | some r =>
        obtain ⟨pool', hcode⟩ := ih h pool k
        refine ⟨pool', hcode.trans ?_⟩
        simp [slotRank, List.take_succ_cons]
      | none =>
        obtain ⟨pool', hcode⟩ := ih h (stackArg ctx pool arg' (8 * k)).2 (k + 1)
        refine ⟨pool', hcode.trans ?_⟩
        have hrank : k + 1 + slotRank args i = k + slotRank ((arg', none) :: args) (i + 1) := by
          simp [slotRank, List.take_succ_cons]
          omega
        rw [hrank]

end Caller

/-! ## The callee's slots -/

section Callee

theorem and_not_seven {v : Word} (h : v &&& 7#64 = 0) : (v + 8#64 - 1) &&& ~~~ (8#64 - 1) = v := by
  have hadd : v + 8#64 - 1 = v ||| 7#64 := by
    rw [← BitVec.add_eq_or_of_and_eq_zero _ _ h, add_sub_assoc]
    rfl
  have hseven : (8#64 - 1) = 7#64 := rfl
  rw [hadd, hseven]
  ext i hi
  have hbit : (v[i] && (7#64)[i]) = false := by
    rw [← BitVec.getElem_and, h]
    simp
  rw [BitVec.getElem_and, BitVec.getElem_or, BitVec.getElem_not]
  cases hv : v[i] <;> cases h7 : (7#64)[i] <;> simp [hv, h7] at hbit ⊢

theorem toNat_and_seven (v : Word) : (v &&& 7#64).toNat = v.toNat % 8 := by
  rw [BitVec.toNat_and]
  show v.toNat &&& (2 ^ 3 - 1) = _
  rw [Nat.and_two_pow_sub_one_eq_mod]

/-- An aligned offset is not moved. -/
theorem alignUp_eight {x : Nat} (h : x % 8 = 0) :
    BitVec.ofNat 64 (alignUp x 8) = BitVec.ofNat 64 x := by
  unfold alignUp
  rw [and_not_seven]
  · exact BitVec.ofNat_toNat 64 (BitVec.ofNat 64 x) |>.trans (BitVec.setWidth_eq _)
  · refine BitVec.eq_of_toNat_eq ?_
    rw [toNat_and_seven, BitVec.toNat_ofNat]
    show x % 2 ^ 64 % 8 = 0
    omega

theorem alignUp_mod_eight (x : Nat) : alignUp x 8 % 8 = 0 ∧ alignUp x 16 % 8 = 0 := by
  have hmod (w m : Word) (hm : ~~~m &&& 7#64 = 0) : (w &&& ~~~m).toNat % 8 = 0 := by
    rw [← toNat_and_seven, BitVec.and_assoc, hm]
    simp
  exact ⟨hmod _ _ (by decide), hmod _ _ (by decide)⟩

/-- How many of the first `i` parameters live in memory. -/
def memoryRank (params : List Alloc) (i : Nat) : Nat :=
  (params.take i).countP Alloc.reference

/-- The slot of a parameter in memory. -/
theorem placeParams_lookup {params : List Alloc} {i offset : Nat} {p : Alloc}
    (hoff : offset % 8 = 0) (hids : (params.map Alloc.id).Nodup) (hi : params[i]? = some p)
    (href : p.reference = true) :
    ∃ n, (placeParams params offset).lookup p.id = some n ∧
      BitVec.ofNat 64 n = BitVec.ofNat 64 (offset + 8 * memoryRank params i) := by
  induction params generalizing offset i with
  | nil => cases hi
  | cons a as ih =>
    rw [List.map_cons, List.nodup_cons] at hids
    cases i with
    | zero =>
      cases hi
      refine ⟨alignUp offset 8, ?_, alignUp_eight hoff⟩
      simp [placeParams, href]
    | succ i =>
      have hmem : p ∈ as := List.mem_of_getElem? hi
      have hne : p.id ≠ a.id := fun h => hids.1 (h ▸ List.mem_map_of_mem hmem)
      by_cases ha : a.reference = true
      · have hnext : (alignUp offset 8 + 8) % 8 = 0 := by
          have := (alignUp_mod_eight offset).1
          omega
        obtain ⟨n, hn, hval⟩ := ih hnext hids.2 hi
        refine ⟨n, ?_, ?_⟩
        · have hbeq : (p.id == a.id) = false := beq_false_of_ne hne
          simpa [placeParams, ha, List.lookup_cons, hbeq] using hn
        · have hrank : memoryRank (a :: as) (i + 1) = memoryRank as i + 1 := by
            simp [memoryRank, List.take_succ_cons, ha]
          rw [hval, hrank, Nat.add_assoc, BitVec.ofNat_add, alignUp_eight hoff, ← BitVec.ofNat_add]
          congr 1
          omega
      · obtain ⟨n, hn, hval⟩ := ih hoff hids.2 hi
        refine ⟨n, ?_, ?_⟩
        · simpa [placeParams, ha] using hn
        · have hrank : memoryRank (a :: as) (i + 1) = memoryRank as i := by
            simp [memoryRank, List.take_succ_cons, ha]
          rw [hval, hrank]

theorem placeLocals_ids {locals : List Alloc} {offset last : Nat} {slots : List (AllocId × Nat)}
    (h : placeLocals locals offset = .ok (slots, last)) : ∀ s ∈ slots, s.1 ∈ locals.map Alloc.id := by
  induction locals generalizing offset last slots with
  | nil =>
    cases h
    simp
  | cons a as ih =>
    rw [placeLocals] at h
    by_cases ha : a.reference = true
    · rw [if_pos ha] at h
      obtain ⟨sz, -, h⟩ := Except.bind_eq_ok.mp h
      obtain ⟨align, -, h⟩ := Except.bind_eq_ok.mp h
      obtain ⟨⟨rest, last'⟩, hrest, h⟩ := Except.bind_eq_ok.mp h
      cases h
      rintro s (_ | ⟨_, hs⟩)
      · simp
      · exact List.mem_cons_of_mem _ (ih hrest s hs)
    · rw [if_neg ha] at h
      intro s hs
      exact List.mem_cons_of_mem _ (ih h s hs)

/-- The offset of a parameter in memory, from the stack pointer of the callee. -/
theorem computeFrame_param {f : Ir.Func} {frame : FrameLayout} {i : Nat} {p : Alloc}
    (hframe : computeFrame f = .ok frame) (hids : ((f.locals ++ f.params).map Alloc.id).Nodup)
    (hi : f.params[i]? = some p) (href : p.reference = true) :
    ∃ n, frame.spillOffsets.lookup p.id = some n ∧
      BitVec.ofNat 64 n = BitVec.ofNat 64 frame.totalSize + BitVec.ofNat 64 (8 * memoryRank f.params i) := by
  obtain ⟨⟨slots, last⟩, hlocals, hrest⟩ := Except.bind_eq_ok.mp hframe
  cases hrest
  rw [List.map_append, List.nodup_append] at hids
  obtain ⟨-, hparams, hdisj⟩ := hids
  have hmem : p.id ∈ f.params.map Alloc.id := List.mem_map_of_mem (List.mem_of_getElem? hi)
  have hnone : slots.lookup p.id = none := by
    rw [List.lookup_eq_none_iff]
    intro s hs
    exact bne_iff_ne.mpr fun heq => hdisj s.1 (placeLocals_ids hlocals s hs) p.id hmem heq.symm
  obtain ⟨n, hn, hval⟩ := placeParams_lookup (alignUp_mod_eight last).2 hparams hi href
  refine ⟨n, ?_, ?_⟩
  · rw [List.lookup_append, hnone]
    exact hn
  · rw [hval, BitVec.ofNat_add]
    rfl

/-- The type of a value that a register or a slot holds. -/
def IsScalar (t : Ty) : Prop := t.isPrimitive = true ∨ t.isReference = true

/-- A parameter in memory is loaded from its slot, at the width of its type. -/
theorem translateLoad_param {env : Env} (input : env.Input) {ctx : Ctx} (pool : List FloatLiteral)
    {f : Ir.Func} {i : Nat} {p : Alloc} (rd : Fin 32)
    (hframe : computeFrame f = .ok ctx.frame) (hids : ((f.locals ++ f.params).map Alloc.id).Nodup)
    (hi : f.params[i]? = some p) (href : p.reference = true) (halloc : ctx.alloc p.id = some p)
    (ht : IsScalar p.type) :
    ∃ code, translateLoad ctx pool rd (.left p.value.left) = .ok (code, pool) ∧
      AccessesStack env code
        (BitVec.ofNat 64 ctx.frame.totalSize + BitVec.ofNat 64 (8 * memoryRank f.params i))
        (typeWidth p.type) := by
  obtain ⟨n, hn, hval⟩ := computeFrame_param hframe hids hi href
  have hslot : ctx.spillOffset p = some (BitVec.ofNat 64 n) := by
    rw [Ctx.spillOffset, hn]
    rfl
  have hresolve : resolveAlloc ctx (.left p.value.left) = .ok (some p) := by
    simp [resolveAlloc, Ir.NamedValue.left, Alloc.value, href, halloc]
  have helem : referenceElem (Value.left p.value.left).typeOf = .ok p.type := by
    have hborrow : p.type.borrow p.immutable = .reference p.type p.immutable false := by
      rcases ht with ht | ht <;> cases htype : p.type <;> simp [htype, Ty.isPrimitive,
        Ty.isReference] at ht <;> rfl
    simp [referenceElem, Ir.NamedValue.left, Alloc.value, href, hborrow, Value.typeOf]
  refine ⟨_, ?_, accessesStack_resolveAddr input (access?_loadInst rd)⟩
  unfold translateLoad
  rw [hresolve, helem, ← hval]
  simp only [bind, Except.bind, Option.bind_some, hslot]
  rfl

end Callee

end Isel
end Rv64
end Cact
