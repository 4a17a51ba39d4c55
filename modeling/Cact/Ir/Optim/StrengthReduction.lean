import Cact.Ir.Optim.ConstexprFolder
import Cact.Ir.Runs
import Mathlib.Data.Nat.Log

/-!
# Multiplications made shifts (`transform/optim/strength_reduce.hpp`)

A multiplication by a power of two becomes a shift. The amount of the shift is a constant
that is given the type of the factor it stands for, whatever the payload of that type is.

- `log2Pow2`: the exponent of a constant that is a power of two.
- `ArithmeticStrengthReduction.reduce`: what becomes of one instruction.
- `Replaces`: the new instruction computes the same, from constants that can be read.
- `reduce_replaces_iff`: it does, if and only if the factor is an `i32`.
-/

namespace Cact

namespace Ir

namespace ArithmeticStrengthReduction

/-! ## The pass -/

section Log2

variable {n : Nat}

/-- The loop of `log2_pow2_impl`. -/
def log2Loop (uv : BitVec n) (k : Nat) : Nat :=
  if 1 < uv then log2Loop (uv >>> 1) (k + 1) else k
termination_by uv.toNat
decreasing_by
  rename_i h
  have hlt : (1#n).toNat < uv.toNat := h
  rw [BitVec.toNat_ushiftRight, Nat.shiftRight_eq_div_pow]
  omega

/-- `log2_pow2_impl` of an integer type. -/
def log2Pow2Impl (v : BitVec n) : Option Nat :=
  if v.sle 0 then none
  else if v &&& (v - 1) ≠ 0 then none
  else some (log2Loop v 0)

end Log2

/-- `log2_pow2`. -/
def log2Pow2 (c : ConstexprValue) : Option Nat :=
  match c.val with
  | .int v => log2Pow2Impl v
  | .int64 v => log2Pow2Impl v
  | _ => none

/-- The shift for `c` and `x`, the factors of a multiplication. -/
def shift (b : BinaryInst) (c : ConstexprValue) (x : Value) : Option BinaryInst :=
  if b.op = .mul then
    (log2Pow2 c).map fun n => ⟨.shl, b.result, x, .const ⟨c.type, .int (BitVec.ofNat 32 n)⟩⟩
  else none

/-- What an instruction is replaced by, if it is. -/
def reduce (b : BinaryInst) : Option BinaryInst :=
  match b.lhs, b.rhs with
  | .const c, x => shift b c x
  | x, .const c => shift b c x
  | .left _, .left _ => none

/-- An instruction after the pass. -/
def reduceInst : Inst → Inst
  | .binary b => .binary ((reduce b).getD b)
  | i => i

def reduceBlock (b : Block) : Block := { b with insts := b.insts.map reduceInst }

def reduceFunc (f : Func) : Func := { f with blocks := f.blocks.map reduceBlock }

/-- The instruction is one that the pass replaces. -/
def isReduced : Inst → Bool
  | .binary b => (reduce b).isSome
  | _ => false

/-- `apply`, with whether anything was replaced. -/
def apply (prog : Program) : Program × Bool :=
  ({ prog with funcs := prog.funcs.map reduceFunc },
    prog.funcs.any fun f => f.blocks.any fun b => b.insts.any isReduced)

/-! ## Powers of two -/

section Log2

variable {n : Nat} {v : BitVec n}

theorem one_lt_iff : 1 < v ↔ 1 < v.toNat := by
  have hlt := v.isLt
  rw [BitVec.lt_def]
  show 1 % 2 ^ n < v.toNat ↔ _
  by_cases hn : n = 0
  · subst hn
    omega
  · rw [Nat.mod_eq_of_lt (Nat.one_lt_two_pow hn)]

theorem log2Loop_of_toNat {k : Nat} (h : v.toNat = 2 ^ k) (a : Nat) : log2Loop v a = a + k := by
  induction k generalizing v a with
  | zero =>
    rw [log2Loop, if_neg (by rw [one_lt_iff, h]; decide)]
    rfl
  | succ k ih =>
    have hhalf : (v >>> 1).toNat = 2 ^ k := by
      rw [BitVec.toNat_ushiftRight, h, Nat.shiftRight_eq_div_pow, Nat.pow_succ]
      omega
    have hgt : 1 < v.toNat := by
      rw [h]
      exact Nat.one_lt_two_pow (by omega)
    rw [log2Loop, if_pos (one_lt_iff.2 hgt), ih hhalf]
    omega

/-- The constants that are taken for powers of two are positive ones. -/
theorem log2Pow2Impl_spec {k : Nat} (h : log2Pow2Impl v = some k) : v.toNat = 2 ^ k ∧ k < n := by
  unfold log2Pow2Impl at h
  split at h
  · cases h
  · next hpos =>
    split at h
    · cases h
    · next hand =>
      have hne : v.toNat ≠ 0 := by
        rintro hzero
        have hv : v = 0 := BitVec.eq_of_toNat_eq hzero
        rw [hv] at hpos
        exact hpos (by simp [BitVec.sle_eq_decide])
      have hsub : (v - 1).toNat = v.toNat - 1 := by
        have hle : 1 ≤ v := by
          have hlt := v.isLt
          rw [BitVec.le_def]
          show 1 % 2 ^ n ≤ _
          exact le_trans (Nat.mod_le 1 _) (by omega)
        rw [BitVec.toNat_sub_of_le hle]
        show v.toNat - 1 % 2 ^ n = _
        have hlt := v.isLt
        by_cases hn : n = 0
        · subst hn
          omega
        · rw [Nat.mod_eq_of_lt (Nat.one_lt_two_pow hn)]
      have hmask : v.toNat &&& (v.toNat - 1) = 0 := by
        have hzero := congrArg BitVec.toNat (not_not.1 hand)
        rw [BitVec.toNat_and, hsub] at hzero
        exact hzero
      obtain ⟨j, hj⟩ := (Nat.and_sub_one_eq_zero_iff_isPowerOfTwo hne).1 hmask
      rw [log2Loop_of_toNat hj] at h
      cases h
      rw [Nat.zero_add]
      refine ⟨hj, ?_⟩
      have hlt := v.isLt
      rw [hj] at hlt
      exact (Nat.pow_lt_pow_iff_right (by decide)).1 hlt

theorem mul_eq_shiftLeft {k : Nat} (h : v.toNat = 2 ^ k) (x : BitVec n) : x * v = x <<< k := by
  refine BitVec.eq_of_toNat_eq ?_
  rw [BitVec.toNat_mul, h, BitVec.toNat_shiftLeft, Nat.shiftLeft_eq]

end Log2

/-! ## What a replacement must be -/

/-- What the machine computes for an instruction on two operands. -/
def compute (float : Vm.Floats) (σ : Var → Vm.Word) (b : BinaryInst) : Except Fault Vm.Word :=
  Vm.evalBinary float b.op ((b.result.map fun r => Vm.viewType r.type).getD .unit)
    (Vm.viewIn σ b.lhs) (Vm.viewIn σ b.rhs)

/-- The operands and the result are of one type, and the constants are of theirs. -/
structure Typed (b : BinaryInst) (t : Ty) : Prop where
  lhs : b.lhs.typeOf = t
  rhs : b.rhs.typeOf = t
  result : ∀ r ∈ b.result, r.type = t
  consts : ∀ c, .const c ∈ [b.lhs, b.rhs] → c.WellTyped

/-- Neither the folder nor the machine finds another alternative in the constant than its
type says. -/
structure Readable (c : ConstexprValue) : Prop where
  typed : c.WellTyped
  folds : ∀ float op d, d.WellTyped →
    ConstexprFolder.fold float op c d ≠ .error .badVariantAccess ∧
      ConstexprFolder.fold float op d c ≠ .error .badVariantAccess

/-- The new instruction writes the same, whatever the variables hold, and its constants can
be read. -/
structure Replaces (b b' : BinaryInst) : Prop where
  result : b'.result = b.result
  same : ∀ float σ, compute float σ b' = compute float σ b
  consts : ∀ c, .const c ∈ [b'.lhs, b'.rhs] → Readable c

section Replaces

variable {float : Vm.Floats} {σ : Var → Vm.Word} {b b' : BinaryInst} {c d : ConstexprValue}
  {t : Ty} {x : Value} {n : Nat}

theorem folded_ne (mk : BitVec n → ConstexprValue) (w : Option (BitVec n)) :
    folded mk w ≠ .error .badVariantAccess := by
  cases w <;> simp [folded]

theorem foldInteger_ne (mk : BitVec n → ConstexprValue) (op : InstOp) (l r : BitVec n) :
    foldInteger mk op l r ≠ .error .badVariantAccess := by
  cases op with
  | div | mod =>
    show (if r = 0 then _ else folded mk _) ≠ _
    split
    · simp
    · exact folded_ne _ _
  | add | sub | mul | shl | shrl | shra => exact folded_ne _ _
  | _ => simp [foldInteger, foldedBool]

theorem foldFloating_ne (mk : BitVec n → ConstexprValue)
    (arith : InstOp → BitVec n → BitVec n → BitVec n)
    (compare : InstOp → BitVec n → BitVec n → Bool) (op : InstOp) (l r : BitVec n) :
    foldFloating mk arith compare op l r ≠ .error .badVariantAccess := by
  cases op with
  | div =>
    show (if r.toNat % 2 ^ (n - 1) = 0 then _ else folded mk _) ≠ _
    split
    · simp
    · exact folded_ne _ _
  | _ => simp [foldFloating, foldedBool, folded]

/-- Constants of one primitive type hold the same alternative. -/
theorem fold_ne_of_wellTyped (hc : c.WellTyped) (hd : d.WellTyped) (op : InstOp) :
    ConstexprFolder.fold float op c d ≠ .error .badVariantAccess := by
  unfold ConstexprFolder.fold
  split
  · simp
  · next hprim =>
    split
    · simp
    · next heqv =>
      have heq : c.type = d.type := by
        simp only [Bool.or_eq_true, Bool.not_eq_true', not_or, Bool.not_eq_false] at hprim heqv
        exact eq_of_eqv hprim.1 hprim.2 heqv
      obtain ⟨t, p⟩ := c
      obtain ⟨t', q⟩ := d
      cases (heq : t = t')
      cases p with
      | int l =>
        cases (hc : t = .int32)
        cases q with
        | int r => exact foldInteger_ne _ _ _ _
        | double r => simp [ConstexprValue.WellTyped] at hd
        | _ => cases hd
      | int64 l =>
        cases (hc : t = .integer)
        cases q with
        | int64 r => exact foldInteger_ne _ _ _ _
        | double r => simp [ConstexprValue.WellTyped] at hd
        | _ => cases hd
      | bool l =>
        cases (hc : t = .int1)
        cases q with
        | bool r => cases op <;> simp [foldBool, foldedBool]
        | double r => simp [ConstexprValue.WellTyped] at hd
        | _ => cases hd
      | float l =>
        cases (hc : t = .float32)
        cases q with
        | float r => exact foldFloating_ne _ _ _ _ _ _
        | double r => simp [ConstexprValue.WellTyped] at hd
        | _ => cases hd
      | double l =>
        obtain rfl | rfl := (hc : t = .float64 ∨ t = .floating)
        · cases q with
          | double r => exact foldFloating_ne _ _ _ _ _ _
          | _ => cases hd
        · cases q with
          | double r => exact foldFloating_ne _ _ _ _ _ _
          | _ => cases hd
      | monostate => simp
      | bytes buf => simp

theorem readable_of_wellTyped (h : c.WellTyped) : Readable c where
  typed := h
  folds _ _ _ hd := ⟨fold_ne_of_wellTyped h hd _, fold_ne_of_wellTyped hd h _⟩

theorem shift_eq (h : shift b c x = some b') : b.op = .mul ∧ ∃ k, log2Pow2 c = some k ∧
    b' = ⟨.shl, b.result, x, .const ⟨c.type, .int (BitVec.ofNat 32 k)⟩⟩ := by
  unfold shift at h
  split at h
  · next hop =>
    obtain ⟨k, hk, rfl⟩ := Option.map_eq_some_iff.1 h
    exact ⟨hop, k, hk, rfl⟩
  · cases h

/-- One factor is the constant that is looked at, the first where both are constants. -/
theorem reduce_eq (h : reduce b = some b') : ∃ c x, shift b c x = some b' ∧
    (b.lhs = .const c ∧ b.rhs = x ∨ b.lhs = x ∧ b.rhs = .const c) := by
  unfold reduce at h
  split at h
  · next c hl => exact ⟨c, b.rhs, h, .inl ⟨hl, rfl⟩⟩
  · next c hr _ => exact ⟨c, b.lhs, h, .inr ⟨rfl, hr⟩⟩
  · cases h

/-- A constant that is taken for a power of two is one, in the width of its type. -/
theorem log2Pow2_spec {k : Nat} (hc : c.WellTyped) (h : log2Pow2 c = some k) :
    (∃ v, c = .ofInt v ∧ v.toNat = 2 ^ k ∧ k < 32) ∨
      ∃ v, c = .ofInt64 v ∧ v.toNat = 2 ^ k ∧ k < 64 := by
  obtain ⟨t, p⟩ := c
  cases p with
  | int v =>
    cases (hc : t = .int32)
    exact .inl ⟨v, rfl, log2Pow2Impl_spec h⟩
  | int64 v =>
    cases (hc : t = .integer)
    exact .inr ⟨v, rfl, log2Pow2Impl_spec h⟩
  | _ => cases h

/-- A binary operator on two views of `i32`. -/
theorem evalBinary_word32 {op : InstOp} {a w r : Vm.Word} {z : BitVec 32}
    (hop : Vm.isComparison op = false) (hlog : ∀ a b, Vm.logicalOp float op .int32 a b = none)
    (h : arith op (a.setWidth 32) (w.setWidth 32) = some z) (hr : r = z.setWidth 64) :
    Vm.evalBinary float op .int32 ⟨.int32, .word a⟩ ⟨.int32, .word w⟩ = .ok r := by
  show Vm.evalPrimitive float op .int32 .int32 .int32 a w = _
  unfold Vm.evalPrimitive
  rw [hop]
  simp [Vm.arithmetic, hlog, Vm.cast, Vm.fit, h, hr]

/-- A binary operator on two views of `Int`. -/
theorem evalBinary_word64 {op : InstOp} {a w r : Vm.Word}
    (hop : Vm.isComparison op = false) (hlog : ∀ a b, Vm.logicalOp float op .int a b = none)
    (h : arith op a w = some r) :
    Vm.evalBinary float op .integer ⟨.integer, .word a⟩ ⟨.integer, .word w⟩ = .ok r := by
  show Vm.evalPrimitive float op .int .int .int a w = _
  unfold Vm.evalPrimitive
  rw [hop]
  simp [Vm.arithmetic, hlog, Vm.cast, Vm.fit, h]

theorem viewIn_word (hx : x.typeOf = t) (ht : t = .int32 ∨ t = .integer)
    (hc : ∀ c, x = .const c → c.WellTyped) : ∃ w, Vm.viewIn σ x = ⟨t, .word w⟩ := by
  cases x with
  | left v =>
    obtain rfl : v.type = t := hx
    refine ⟨σ v.var, ?_⟩
    show (⟨Vm.viewType v.type, _⟩ : Vm.View) = _
    obtain ht | ht := ht
    · rw [ht]
      rfl
    · rw [ht]
      rfl
  | const c =>
    have harr : c.type.isArray = false := by
      rw [show c.type = t from hx]
      obtain rfl | rfl := ht <;> rfl
    obtain ⟨w, hw, -⟩ := (hc c rfl).fit harr
    refine ⟨w, ?_⟩
    show (⟨Vm.viewType c.type, (Vm.viewConst c).data⟩ : Vm.View) = _
    rw [hw, show c.type = t from hx]
    obtain rfl | rfl := ht <;> rfl

/-- The shift computes what the multiplication does, whichever factor the constant is. -/
theorem same_shift {k : Nat} (hx : x.typeOf = c.type) (hxc : ∀ c, x = .const c → c.WellTyped)
    (hc : c.WellTyped) (hk : log2Pow2 c = some k) :
    let shifted := Vm.evalBinary float .shl c.type (Vm.viewIn σ x)
      (Vm.viewConst ⟨c.type, .int (BitVec.ofNat 32 k)⟩)
    Vm.evalBinary float .mul c.type (Vm.viewIn σ x) (Vm.viewConst c) = shifted ∧
      Vm.evalBinary float .mul c.type (Vm.viewConst c) (Vm.viewIn σ x) = shifted := by
  intro shifted
  obtain ⟨v, rfl, hv, hlt⟩ | ⟨v, rfl, hv, hlt⟩ := log2Pow2_spec hc hk
  · obtain ⟨w, hw⟩ : ∃ w, Vm.viewIn σ x = ⟨.int32, .word w⟩ := viewIn_word hx (.inl rfl) hxc
    have hamount : (BitVec.ofNat 32 k).toNat % 32 = k := by
      rw [BitVec.toNat_ofNat]
      omega
    have hfit : ∀ u : BitVec 32, (u.setWidth 64).setWidth 32 = u := by simp
    have hshift : shifted = .ok ((w.setWidth 32 <<< k).setWidth 64) := by
      show Vm.evalBinary float .shl .int32 (Vm.viewIn σ x) _ = _
      rw [hw]
      refine evalBinary_word32 rfl (fun _ _ => rfl) ?_ rfl
      show some (w.setWidth 32 <<< _) = _
      rw [hfit, hamount]
    rw [hshift, hw]
    constructor
    · refine evalBinary_word32 rfl (fun _ _ => rfl) ?_ rfl
      show some (w.setWidth 32 * (v.setWidth 64).setWidth 32) = _
      rw [hfit, mul_eq_shiftLeft hv]
    · refine evalBinary_word32 rfl (fun _ _ => rfl) ?_ rfl
      show some ((v.setWidth 64).setWidth 32 * w.setWidth 32) = _
      rw [hfit, BitVec.mul_comm, mul_eq_shiftLeft hv]
  · obtain ⟨w, hw⟩ : ∃ w, Vm.viewIn σ x = ⟨.integer, .word w⟩ := viewIn_word hx (.inr rfl) hxc
    have hamount : ((BitVec.ofNat 32 k).setWidth 64).toNat % 64 = k := by
      rw [BitVec.toNat_setWidth, BitVec.toNat_ofNat]
      omega
    have hshift : shifted = .ok (w <<< k) := by
      show Vm.evalBinary float .shl .integer (Vm.viewIn σ x) _ = _
      rw [hw]
      refine evalBinary_word64 rfl (fun _ _ => rfl) ?_
      show some (w <<< _) = _
      rw [hamount]
    rw [hshift, hw]
    constructor
    · refine evalBinary_word64 rfl (fun _ _ => rfl) ?_
      show some (w * v) = _
      rw [mul_eq_shiftLeft hv]
    · refine evalBinary_word64 rfl (fun _ _ => rfl) ?_
      show some (v * w) = _
      rw [BitVec.mul_comm, mul_eq_shiftLeft hv]

theorem Typed.factors (hb : Typed b t)
    (h : b.lhs = .const c ∧ b.rhs = x ∨ b.lhs = x ∧ b.rhs = .const c) :
    c.type = t ∧ x.typeOf = t ∧ c.WellTyped ∧ ∀ d, x = .const d → d.WellTyped := by
  have hl := hb.lhs
  have hr := hb.rhs
  obtain ⟨hcl, rfl⟩ | ⟨rfl, hcr⟩ := h
  · rw [hcl] at hl
    refine ⟨hl, hr, hb.consts c (by simp [hcl]), fun d hd => hb.consts d (by simp [hd])⟩
  · rw [hcr] at hr
    refine ⟨hr, hl, hb.consts c (by simp [hcr]), fun d hd => hb.consts d (by simp [hd])⟩

/-- The shift writes what the multiplication would have, at both widths. -/
theorem reduce_same (hb : Typed b t) (h : reduce b = some b') :
    compute float σ b' = compute float σ b := by
  obtain ⟨c, x, hs, hcx⟩ := reduce_eq h
  obtain ⟨hop, k, hk, rfl⟩ := shift_eq hs
  obtain ⟨rfl, hxt, hc, hxc⟩ := hb.factors hcx
  unfold compute
  cases hres : b.result with
  | none => rfl
  | some r =>
    have htype : Vm.viewType r.type = c.type := by
      rw [hb.result r hres]
      obtain ⟨v, rfl, -⟩ | ⟨v, rfl, -⟩ := log2Pow2_spec hc hk <;> rfl
    have hsame : Vm.evalBinary float .mul c.type (Vm.viewIn σ x) (Vm.viewConst c) = _ ∧ _ :=
      same_shift hxt hxc hc hk
    rw [hop]
    obtain ⟨hl, hr⟩ | ⟨hl, hr⟩ := hcx
    · rw [hl, hr]
      show Vm.evalBinary float .shl (Vm.viewType r.type) (Vm.viewIn σ x) _ =
        Vm.evalBinary float .mul (Vm.viewType r.type) (Vm.viewConst c) (Vm.viewIn σ x)
      rw [htype]
      exact hsame.2.symm
    · rw [hl, hr]
      show Vm.evalBinary float .shl (Vm.viewType r.type) (Vm.viewIn σ x) _ =
        Vm.evalBinary float .mul (Vm.viewType r.type) (Vm.viewIn σ x) (Vm.viewConst c)
      rw [htype]
      exact hsame.1.symm

/-- **Reduction of multiplications**: the shift that stands for a multiplication writes the
same and its amount can be read, if and only if the factors are of type `i32`. Of type `Int`
they are 64 bits wide, and so would the amount have to be. -/
theorem reduce_replaces_iff (hb : Typed b t) (h : reduce b = some b') :
    Replaces b b' ↔ t = .int32 := by
  obtain ⟨c, x, hs, hcx⟩ := reduce_eq h
  obtain ⟨hop, k, hk, hb'⟩ := shift_eq hs
  obtain ⟨rfl, -, hc, hxc⟩ := hb.factors hcx
  constructor
  · intro hrep
    have hread := hrep.consts ⟨c.type, .int (BitVec.ofNat 32 k)⟩ (by simp [hb'])
    exact hread.typed
  · intro ht
    refine ⟨by rw [hb'], fun float σ => reduce_same hb h, fun d hd => readable_of_wellTyped ?_⟩
    rw [hb', List.mem_cons, List.mem_singleton] at hd
    obtain hd | hd := hd
    · exact hxc d hd.symm
    · cases hd
      exact ht

end Replaces

/-! ## Whole programs -/

section Runs

open Vm

variable {env : Env} {prog : Program} {f : Func} {b : BinaryInst} {blk : Block} {i : Inst}
  {sc : Scope} {x : Value}

@[simp] theorem isPhi_reduceInst : (reduceInst i).isPhi = i.isPhi := by cases i <;> rfl

@[simp] theorem callResult_reduceInst : callResult (reduceInst i) = callResult i := by
  cases i <;> rfl

@[simp] theorem phis_reduceBlock : (reduceBlock blk).phis = blk.phis := by
  unfold Block.phis reduceBlock
  induction blk.insts with
  | nil => rfl
  | cons i l ih =>
    cases i with
    | phi p => exact congrArg (List.cons p) ih
    | _ => rfl

theorem alike_apply : prog.Alike (apply prog).1 where
  globals := rfl
  funcs := by
    refine List.forall₂_map_right_iff.2 (List.forall₂_same.2 fun f _ => ?_)
    refine ⟨rfl, rfl, rfl, rfl, List.forall₂_map_right_iff.2 (List.forall₂_same.2 fun blk _ => ?_)⟩
    constructor
    · rfl
    · rw [phis_reduceBlock]
    · exact List.length_map _
    · intro k
      show ((blk.insts.map reduceInst)[k]?).bind _ = _
      rw [List.getElem?_map, Option.bind_map]
      exact congrArg _ (funext fun i => callResult_reduceInst)
    · rfl

/-- The words of the variables in a scope. -/
def wordsIn (env : Env) (sc : Scope) (v : Var) : Word := ((sc.get env v).map Slot.word).getD 0

theorem viewOf_eq_viewIn (h : sc.Typed prog f) (hf : f.WellTyped env prog)
    (hx : ∀ v, x = .left v → f.Mentions (.left v)) :
    viewOf env sc x = .ok (viewIn (wordsIn env sc) x) := by
  cases x with
  | const c => rfl
  | left v =>
    obtain ⟨w, hget, hs, -⟩ := slotAt_mentioned h hf (hx v rfl)
    have hword : wordsIn env sc v.var = w := by
      rw [wordsIn, hget]
      rfl
    show (slotAt env sc v).map _ = Except.ok (View.mk (viewType v.type) (.word _))
    rw [hs, hword]
    rfl

/-- What an arithmetic instruction of a function does is told by what it computes. -/
theorem execInst_binary {s : State env} {fr : Frame} {rest : List Frame}
    (h : (s.scope fr).Typed prog f) (hf : f.WellTyped env prog) (hop : b.op = .mul ∨ b.op = .shl)
    (hl : ∀ v, b.lhs = .left v → f.Mentions (.left v))
    (hr : ∀ v, b.rhs = .left v → f.Mentions (.left v))
    (hres : ∀ r, b.result = some r → f.Mentions (.left r)) :
    execInst prog s fr rest (.binary b) =
      (compute env.float (wordsIn env (s.scope fr)) b).map fun w =>
        s.advance fr rest (setVar env (s.scope fr) b.result w) := by
  have hdest : resultType env (s.scope fr) b.result =
      .ok ((b.result.map fun r => viewType r.type).getD .unit) := by
    cases hbr : b.result with
    | none => rfl
    | some r => exact resultType_mentioned h hf (hres r hbr)
  have hstore : ¬b.op = .store := by
    obtain hop | hop := hop <;> rw [hop] <;> decide
  have heval : ∀ dest l r, evalInst s b.op dest l r = Vm.evalBinary env.float b.op dest l r := by
    intro dest l r
    obtain hop | hop := hop <;> rw [hop] <;> rfl
  unfold execInst
  dsimp only
  rw [viewOf_eq_viewIn h hf hl, viewOf_eq_viewIn h hf hr, hdest]
  dsimp only [bind, Except.bind]
  rw [if_neg hstore, heval]
  unfold compute
  generalize Vm.evalBinary env.float b.op _ _ _ = computed
  cases computed <;> rfl

/-- The factors and the product of every multiplication that is replaced are of type `i32`. -/
def AllInt32 (prog : Program) : Prop :=
  ∀ f ∈ prog.funcs, ∀ blk ∈ f.blocks, ∀ b, .binary b ∈ blk.insts → (reduce b).isSome →
    b.lhs.typeOf = .int32 ∧ b.rhs.typeOf = .int32 ∧ ∀ r ∈ b.result, r.type = .int32

theorem execInst_reduceInst {s : State env} {fr : Frame} {rest : List Frame} {id : BlockId}
    (h : (s.scope fr).Typed prog f) (hf : f.WellTyped env prog) (hall : AllInt32 prog)
    (hmem : f ∈ prog.funcs) (hblk : f.block? id = some blk) (hi : i ∈ blk.insts) :
    execInst prog s fr rest (reduceInst i) = execInst prog s fr rest i := by
  cases i with
  | binary b =>
    show execInst prog s fr rest (.binary ((reduce b).getD b)) = _
    cases hred : reduce b with
    | none => rfl
    | some b' =>
      obtain ⟨hlt, hrt, hres⟩ := hall f hmem blk (Func.mem_of_block? hblk).1 b hi (by rw [hred]; rfl)
      have hl : f.Mentions b.lhs := .used hblk hi (by simp [Inst.used])
      have hr : f.Mentions b.rhs := .used hblk hi (by simp [Inst.used])
      have hresult : ∀ r, b.result = some r → f.Mentions (.left r) := fun r hbr =>
        .result hblk hi hbr
      have htyped : Typed b .int32 := by
        refine ⟨hlt, hrt, hres, fun c hc => ?_⟩
        rw [List.mem_cons, List.mem_singleton] at hc
        obtain hc | hc := hc
        · exact hf.consts c (hc ▸ hl)
        · exact hf.consts c (hc ▸ hr)
      obtain ⟨c, x, hs, hcx⟩ := reduce_eq hred
      obtain ⟨hop, k, -, hb'⟩ := shift_eq hs
      have hx : ∀ v, x = .left v → f.Mentions (.left v) := by
        rintro v rfl
        obtain ⟨-, hrx⟩ | ⟨hlx, -⟩ := hcx
        · exact hrx ▸ hr
        · exact hlx ▸ hl
      rw [Option.getD_some,
        execInst_binary h hf (.inl hop) (fun v hv => hv ▸ hl) (fun v hv => hv ▸ hr) hresult,
        execInst_binary h hf (.inr (by rw [hb'])) (by rw [hb']; exact hx) (by rw [hb']; simp)
          (by rw [hb']; exact hresult), reduce_same htyped hred, hb']
  | _ => rfl

theorem exec_apply {K : Func → BlockId × Nat → Scope → Prop} {G : Slots} {s : State env}
    (hwf : prog.WellFormed env) (hall : AllInt32 prog) (hs : RunInv prog K G s) :
    exec (apply prog).1 s = exec prog s := by
  cases hfr : s.frames with
  | nil =>
    unfold exec
    rw [hfr]
  | cons fr rest =>
    obtain ⟨f, hf, hr, ht, -⟩ := hs.frames fr (by simp [hfr])
    obtain ⟨blk, hb, -⟩ := reach_le hr
    have hmem := Program.mem_of_findFunc hf
    have hblock : ∀ id, (reduceFunc f).block? id = (f.block? id).map reduceBlock := by
      intro id
      unfold reduceFunc Func.block?
      rw [List.find?_map]
      rfl
    have hf' : (apply prog).1.findFunc fr.func = some (reduceFunc f) := by
      have hfind : (apply prog).1.findFunc fr.func = (prog.findFunc fr.func).map reduceFunc := by
        unfold apply Program.findFunc
        rw [List.find?_map]
        rfl
      rw [hfind, hf]
      rfl
    have hb' : (reduceFunc f).block? fr.block = some (reduceBlock blk) := by
      rw [hblock, hb]
      rfl
    refine exec_alike alike_apply hfr hf hf' hb hb' ?_ ?_
    · intro i i' hi hi'
      rw [reduceBlock, List.getElem?_map, hi] at hi'
      cases hi'
      exact execInst_reduceInst ht (hwf.typed f hmem) hall hmem hb (List.mem_of_getElem? hi)
    · intro e e' _ he he'
      cases he.symm.trans he'
      refine ⟨rfl, fun t _ c c' hc hc' => ?_⟩
      rw [hblock, hc] at hc'
      cases hc'
      rw [phis_reduceBlock]

/-- A program whose multiplications are replaced by shifts is not told apart from it. -/
theorem apply_sameMeaning (hwf : prog.WellFormed env) (hall : AllInt32 prog) :
    SameMeaning env prog (apply prog).1 := by
  have hobs := @obsEq_of_alike env prog (apply prog).1 (fun _ _ _ => True) (fun _ _ _ => True)
    (fun _ => True) hwf alike_apply
  refine fun input => hobs ?_ ?_ ?_ ?_
  · intro l hl
    constructor
    · exact typed_layoutGlobals hwf hl
    · intros
      trivial
    · intros
      trivial
  · intro s t _ _ fr fr' rest f b _ _ _ _ _
    trivial
  · intro l s _ hinv _
    exact exec_apply hwf hall hinv
  · intro s _
    trivial

end Runs

/-- `%0 * 8`, for a factor of 32 bits. -/
def timesEight : BinaryInst :=
  ⟨.mul, some (.temp .int32 1), .left (.temp .int32 0), .const (.ofInt 8)⟩

theorem log2Pow2Impl_eight (n : Nat) (hn : n = 32 ∨ n = 64) :
    log2Pow2Impl (8#n) = some 3 := by
  obtain rfl | rfl := hn
  · simp [log2Pow2Impl, log2Loop_of_toNat (show (8#32).toNat = 2 ^ 3 from rfl)]
  · simp [log2Pow2Impl, log2Loop_of_toNat (show (8#64).toNat = 2 ^ 3 from rfl)]

theorem reduce_replaces_iff_timesEight : Replaces timesEight
    ⟨.shl, some (.temp .int32 1), .left (.temp .int32 0), .const (.ofInt 3)⟩ ↔
      Ty.int32 = .int32 := by
  refine reduce_replaces_iff ⟨rfl, rfl, ?_, ?_⟩ ?_
  · rintro r hr
    cases hr
    rfl
  · intro c hc
    simp only [timesEight, List.mem_cons, List.not_mem_nil, reduceCtorEq, false_or, or_false] at hc
    cases hc
    rfl
  · simp [reduce, timesEight, shift, ConstexprValue.ofInt, log2Pow2, log2Pow2Impl_eight]

/-- `%0 * 8`, for a factor of the size of a pointer. -/
def timesEightWide : BinaryInst :=
  ⟨.mul, some (.temp .integer 1), .left (.temp .integer 0), .const (.ofInt64 8)⟩

/-- Its shift has an amount of type `Int` that holds an `int`, on which the folder throws. -/
theorem timesEightWide_unreadable :
    (∃ b', reduce timesEightWide = some b' ∧ ¬Replaces timesEightWide b' ∧
      .const ⟨.integer, .int 3⟩ ∈ [b'.lhs, b'.rhs]) ∧
    ∀ float, ConstexprFolder.fold float .shl (.ofInt64 1) ⟨.integer, .int 3⟩ =
      .error .badVariantAccess := by
  refine ⟨⟨⟨.shl, some (.temp .integer 1), .left (.temp .integer 0), .const ⟨.integer, .int 3⟩⟩,
    ?_, ?_, by simp⟩, fun float => rfl⟩
  · simp [reduce, timesEightWide, shift, ConstexprValue.ofInt64, log2Pow2, log2Pow2Impl_eight]
  · intro hrep
    have hread := hrep.consts ⟨.integer, .int 3⟩ (by simp)
    have htype : Ty.integer = .int32 := hread.typed
    cases htype

end ArithmeticStrengthReduction

end Ir
end Cact
