import Cact.Ir.Equal
import Cact.Ir.Scopes
import Cact.Lib.Exact
import Cact.Lib.Paste
import Cact.Rv64.Abi

/-!
# Array initialisers as memory operations (`lowering/array.hpp`)

A `STORE` of an array constant becomes a `memset` to zero, a `memcpy` from an image of the
constant, or both. Which of them is decided by comparing elements with zero, as numbers.

- `prune`: the constant without the zeros at its end.
- `ArrayInitLowering.lowerInst`, … , `ArrayInitLowering.apply`: the pass.
- `SameBytes`: what stands for a `STORE` leaves the same bytes in memory.
- `sameBytes_iff`: when that is so.
-/

namespace Cact

namespace Lowering

open Ir Ir.Vm

namespace ArrayInitLowering

/-! ## The pass -/

/-- The bytes of an element. -/
def element (p : Primitive) (buf : List (BitVec 8)) (i : Nat) : List (BitVec 8) :=
  (buf.drop (i * p.sizeOf)).take p.sizeOf

/-- An element equals zero, as a value of its C++ type. -/
def isZero (p : Primitive) (buf : List (BitVec 8)) (i : Nat) : Bool :=
  ConstexprValue.elemEqv p (element p buf i) (List.replicate p.sizeOf 0)

/-- The loop of `prune`: the size without the elements at the end that equal zero. -/
def prunedSize (p : Primitive) (buf : List (BitVec 8)) : Nat → Nat
  | 0 => 0
  | size + 1 => if isZero p buf size then prunedSize p buf size else size + 1

/-- `prune`. -/
def prune (c : ConstexprValue) : Except Fault ConstexprValue :=
  match c.type, c.val with
  | .array (.prim p) size, .bytes buf =>
    let size := prunedSize p buf size
    .ok ⟨.array (.prim p) size, .bytes (buf.take (size * p.sizeOf))⟩
  | .array _ _, _ => .error (.compilerError "Type is not Primitive")
  | _, _ => .ok c

/-- The name of the image that is made at a value of the counter. -/
def symbol (func : String) (cnt : Nat) : String := "__init_" ++ func ++ "_" ++ toString cnt

/-- `findBuiltin`. -/
def findBuiltin (prog : Program) (name : String) : Except Fault BuiltinFunc :=
  match prog.builtins.find? fun f => f.name == name with
  | some f => .ok f
  | none => .error (.compilerError s!"builtin-function '{name}' not found")

/-- `value` of a builtin. -/
def builtinValue (f : BuiltinFunc) : NamedValue := ⟨f.type, .builtin f.name⟩

/-- `std::get<ConstexprValue>`. -/
def asConst : Value → Except Fault ConstexprValue
  | .const c => .ok c
  | .left _ => .error (.compilerError "bad variant access")

/-- The images made so far, and the counter of the block. -/
structure Images where
  cnt : Nat
  nextAlloc : AllocId
  globals : List Alloc
  deriving DecidableEq, Repr

/-- What stands for an instruction after the pass, and the image it reads. -/
structure Lowered where
  inst : Inst
  insts : List Inst
  image : Option Alloc
  deriving DecidableEq, Repr

/-- An instruction that the pass leaves alone. -/
def Lowered.same (i : Inst) : Lowered := ⟨i, [i], none⟩

/-- The instruction is a `STORE` of an array. -/
def isArrayStore : Inst → Bool
  | .binary b => b.op == .store && b.rhs.typeOf.isArray
  | _ => false

/-- A `STORE` of an array. -/
def lowerStore (prog : Program) (func : String) (images : Images) (b : BinaryInst) :
    Except Fault (Lowered × Images) := do
  let type := b.rhs.typeOf
  let size ← Rv64.size type
  let init ← asConst b.rhs
  let memset := Inst.call ⟨none, builtinValue (← findBuiltin prog "memset"),
    [b.lhs, .const (.ofInt64 0), .const (.ofInt64 (BitVec.ofNat 64 size))]⟩
  if init.eqv (← ConstexprValue.zerosLike init.type) then
    return (⟨.binary b, [memset], none⟩, images)
  else
    let pruned ← prune init
    let pruneSize ← Rv64.size pruned.type
    let proxy := Alloc.constant images.nextAlloc (symbol func images.cnt) pruned.type pruned true
    let memcpy := Inst.call ⟨none, builtinValue (← findBuiltin prog "memcpy"),
      [b.lhs, .left proxy.value.left, .const (.ofInt64 (BitVec.ofNat 64 pruneSize))]⟩
    let insts := if pruneSize ≠ size then [memset, memcpy] else [memcpy]
    return (⟨.binary b, insts, some proxy⟩,
      ⟨images.cnt + 1, images.nextAlloc + 1, images.globals ++ [proxy]⟩)

/-- The body of the loop over a block. -/
def lowerInst (prog : Program) (func : String) (images : Images) (i : Inst) :
    Except Fault (Lowered × Images) :=
  match i with
  | .binary b =>
    if isArrayStore (.binary b) then lowerStore prog func images b
    else .ok (.same (.binary b), images)
  | i => .ok (.same i, images)

/-- A loop with a state that makes a list. -/
def mapAccumM {α β σ : Type} (f : σ → α → Except Fault (β × σ)) :
    σ → List α → Except Fault (List β × σ)
  | s, [] => .ok ([], s)
  | s, a :: as => do
    let (b, s) ← f s a
    let (bs, s) ← mapAccumM f s as
    return (b :: bs, s)

/-- `apply_block`, which counts its images from zero. -/
def lowerBlock (prog : Program) (func : String) (images : Images) (b : Block) :
    Except Fault (List Lowered × Images) :=
  mapAccumM (lowerInst prog func) { images with cnt := 0 } b.insts

/-- `apply_func`. -/
def lowerFunc (prog : Program) (images : Images) (f : Func) :
    Except Fault (List (List Lowered) × Images) :=
  mapAccumM (lowerBlock prog f.name) images f.blocks

/-- The lists of the pass, function by function and block by block. -/
def lowerFuncs (prog : Program) : Except Fault (List (List (List Lowered)) × Images) :=
  mapAccumM (lowerFunc prog) ⟨0, prog.nextAlloc, []⟩ prog.funcs

/-- A block with its instructions replaced. -/
def putBlock (b : Block) (ls : List Lowered) : Block := { b with insts := ls.flatMap Lowered.insts }

def putFunc (f : Func) (bs : List (List Lowered)) : Func :=
  { f with blocks := f.blocks.zipWith putBlock bs }

/-- `apply`. -/
def apply (prog : Program) : Except Fault (Program × Bool) := do
  let (funcs, images) ← lowerFuncs prog
  return ({ prog with
      funcs := prog.funcs.zipWith putFunc funcs
      globals := prog.globals ++ images.globals
      nextAlloc := images.nextAlloc },
    prog.funcs.any fun f => f.blocks.any fun b => b.insts.any isArrayStore)

/-! ## What the operations do to memory -/

section Memory

variable {p : Primitive} {mem : Memory} {dst : Word} {float : Floats}

/-- `STORE`, by what it reads and writes of a state. -/
def storeMem (float : Floats) (mem : Memory) (lhs rhs : View) : Except Fault Memory := do
  if lhs.word.toNat < 0x1000 then throw (.compilerError "invalid memory access")
  match lhs.type with
  | .reference elem _ true =>
    match rhs.type with
    | .array _ size => assignMemory float mem (.array elem size) lhs.word rhs
    | _ => throw (.compilerError "Type is not Array")
  | .reference elem _ false => assignMemory float mem elem lhs.word rhs
  | _ => throw (.compilerError "store expected reference type")

/-- The builtins that write to memory. -/
def builtinMem (float : Floats) (name : String) (mem : Memory) (args : List View) :
    Except Fault Memory := do
  match name, args with
  | "memset", dst :: v :: n :: _ =>
    let v ← argNumber float .int v
    let n ← argNumber float .int n
    return fill mem dst.word n.toNat (v.setWidth 8)
  | "memcpy", dst :: src :: n :: _ =>
    let n ← argNumber float .int n
    return copy mem dst.word src.word n.toNat
  | _, _ => throw (.compilerError "Builtin function not found")

theorem execStore_eq {env : Env} (s : State env) (lhs rhs : View) :
    execStore s lhs rhs = storeMem env.float s.mem lhs rhs := rfl

theorem execBuiltin_eq {env : Env} (s : State env) {name : String} (dest : Ty) (args : List View)
    (hname : name = "memset" ∨ name = "memcpy") : execBuiltin s name dest args =
      (builtinMem env.float name s.mem args).map fun mem => ({ s with mem := mem }, none) := by
  obtain rfl | rfl := hname
  · match args with
    | dst :: v :: n :: _ =>
      show (argNumber env.float .int v >>= _) = (argNumber env.float .int v >>= _).map _
      cases argNumber env.float .int v with
      | error e => rfl
      | ok v =>
        show (argNumber env.float .int n >>= _) = (argNumber env.float .int n >>= _).map _
        cases argNumber env.float .int n <;> rfl
    | [] | [_] | [_, _] => rfl
  · match args with
    | dst :: src :: n :: _ =>
      show (argNumber env.float .int n >>= _) = (argNumber env.float .int n >>= _).map _
      cases argNumber env.float .int n <;> rfl
    | [] | [_] | [_, _] => rfl

/-- A call of one of them, where the variables hold `σ`. -/
def callMem (float : Floats) (σ : Var → Word) (mem : Memory) (i : Inst) : Except Fault Memory :=
  match i with
  | .call c =>
    match c.func.defn with
    | .builtin name => builtinMem float name mem (c.args.map (viewIn σ))
    | _ => .error (.compilerError "not a builtin")
  | _ => .error (.compilerError "not a call")

/-- The image stands in memory where its symbol says, apart from the `size` bytes at `dst`. -/
structure ImageAt (σ : Var → Word) (mem : Memory) (dst : Word) (size : Nat) (a : Alloc) : Prop where
  bytes : ∀ c buf, a.init = some c → c.val = .bytes buf → ∀ (i : Nat) (hi : i < buf.length),
    mem (σ (.named (.alloc a.id)) + BitVec.ofNat 64 i) = buf[i]
  apart : ∀ c buf, a.init = some c → c.val = .bytes buf → ∀ i : Nat, i < buf.length →
    size ≤ (σ (.named (.alloc a.id)) + BitVec.ofNat 64 i - dst).toNat

/-- The instructions leave in memory what the `STORE` they stand for does. -/
def SameBytes (float : Floats) (l : Lowered) : Prop :=
  ∀ b, l.inst = .binary b → isArrayStore (.binary b) = true → ∀ σ mem, 0x1000 ≤ (viewIn σ b.lhs).word.toNat →
    (∀ a ∈ l.image, ImageAt σ mem (viewIn σ b.lhs).word b.rhs.typeOf.sizeOf a) →
    ∃ mem', storeMem float mem (viewIn σ b.lhs) (viewIn σ b.rhs) = .ok mem' ∧
      l.insts.foldlM (callMem float σ) mem = .ok mem'

/-! ### The bytes of a `STORE` -/

theorem byte_bytesWord (l : List (BitVec 8)) (k : Nat) (hk : k < l.length) :
    BitVec.ofNat 8 (bytesWord l / 256 ^ k) = l[k] := by
  induction l generalizing k with
  | nil => simp at hk
  | cons b bs ih =>
    rw [bytesWord]
    cases k with
    | zero =>
      refine BitVec.eq_of_toNat_eq ?_
      have hb := b.isLt
      rw [BitVec.toNat_ofNat, List.getElem_cons_zero]
      omega
    | succ k =>
      have hb := b.isLt
      have hdiv : (b.toNat + 256 * bytesWord bs) / 256 ^ (k + 1) = bytesWord bs / 256 ^ k := by
        rw [Nat.pow_succ', ← Nat.div_div_eq_div_mul]
        congr 1
        omega
      rw [hdiv, ih k (by simpa using hk), List.getElem_cons_succ]

theorem bytesWord_lt (l : List (BitVec 8)) : bytesWord l < 256 ^ l.length := by
  induction l with
  | nil => simp [bytesWord]
  | cons b bs ih =>
    have hb := b.isLt
    rw [bytesWord, List.length_cons, Nat.pow_succ']
    omega

/-- A word that is written after it has been fitted to its type. -/
theorem writeWord_fit {l : List (BitVec 8)} (hl : l.length = p.sizeOf) :
    writeWord mem dst p.sizeOf (fit p (BitVec.ofNat 64 (bytesWord l))) = Paste.paste mem dst l := by
  have hsize : p.sizeOf ≤ 8 := by cases p <;> decide
  have hlt := bytesWord_lt l
  have hfit : (fit p (BitVec.ofNat 64 (bytesWord l))).toNat = bytesWord l := by
    rw [hl] at hlt
    cases p <;> simp only [Primitive.sizeOf] at hlt <;> simp [fit] <;> omega
  funext a
  unfold writeWord
  by_cases ha : (a - dst).toNat < p.sizeOf
  · rw [if_pos ha, hfit, byte_bytesWord l _ (by omega), Paste.paste_of_lt (by omega)]
  · rw [if_neg ha, Paste.paste_of_le (by omega)]

theorem length_element {n : Nat} {buf : List (BitVec 8)} (hbuf : buf.length = n * p.sizeOf) {i : Nat}
    (hi : i < n) : (element p buf i).length = p.sizeOf := by
  have hle : (i + 1) * p.sizeOf ≤ n * p.sizeOf := Nat.mul_le_mul_right _ hi
  rw [Nat.succ_mul] at hle
  rw [element, List.length_take, List.length_drop]
  omega

/-- The elements of an array are written one after the other. -/
theorem assignArray_eq {n : Nat} {buf : List (BitVec 8)} {t : Ty} (ht : t.flatElem = .prim p)
    (hle : n ≤ t.flatLength) (hbuf : buf.length = n * p.sizeOf) (hfit : n * p.sizeOf ≤ 2 ^ 64) :
    assignArray float mem t (.array (.prim p) n) dst buf = .ok (Paste.paste mem dst buf) := by
  have hsrc : (Ty.array (.prim p) n).flatLength = n := Nat.mul_one n
  have hloop : ∀ k, k ≤ n → (List.range k).foldlM (fun mem i => do
      let w := BitVec.ofNat 64 (bytesWord (element p buf i))
      let w ← assign float (.prim p) (.prim p) w
      return writeWord mem (dst + BitVec.ofNat 64 (i * p.sizeOf)) p.sizeOf w) mem =
        (.ok (Paste.paste mem dst (buf.take (k * p.sizeOf))) : Except Fault Memory) := by
    intro k
    induction k with
    | zero =>
      intro _
      rw [Nat.zero_mul, List.take_zero, Paste.paste_nil]
      rfl
    | succ k ih =>
      intro hk
      have hmul : (k + 1) * p.sizeOf ≤ n * p.sizeOf := Nat.mul_le_mul_right _ hk
      rw [Nat.succ_mul] at hmul
      have helem := length_element hbuf hk
      have htake : buf.take ((k + 1) * p.sizeOf) = buf.take (k * p.sizeOf) ++ element p buf k := by
        rw [Nat.succ_mul, element, List.take_add]
      have hlen : (buf.take (k * p.sizeOf)).length = k * p.sizeOf := by
        rw [List.length_take]
        omega
      rw [List.range_succ, List.foldlM_append, ih (by omega), htake,
        Paste.paste_append (by rw [hlen, helem]; omega), hlen]
      show (assign float (.prim p) (.prim p) _ >>= _) >>= _ = _
      have hassign : assign float (.prim p) (.prim p) (BitVec.ofNat 64 (bytesWord (element p buf k))) =
          .ok (fit p (BitVec.ofNat 64 (bytesWord (element p buf k)))) := if_pos rfl
      rw [hassign, ← writeWord_fit helem]
      rfl
  have hall := hloop n le_rfl
  rw [← hbuf, List.take_length] at hall
  unfold assignArray
  rw [hsrc, if_neg (by omega), ht]
  exact hall

end Memory

/-! ## Zeros -/

section Zeros

variable {p : Primitive} {n : Nat} {buf : List (BitVec 8)}

/-- An element that equals zero has no bit set, if it stands where the zeros at the end are. -/
def Trimmable (p : Primitive) (n : Nat) (buf : List (BitVec 8)) : Prop :=
  ∀ i, i < n → (∀ j, i ≤ j → j < n → isZero p buf j = true) →
    element p buf i = List.replicate p.sizeOf 0

theorem prunedSize_le : prunedSize p buf n ≤ n := by
  induction n with
  | zero => exact le_rfl
  | succ n ih =>
    rw [prunedSize]
    split
    · omega
    · exact le_rfl

theorem prunedSize_le_iff {i : Nat} :
    prunedSize p buf n ≤ i ↔ ∀ j, i ≤ j → j < n → isZero p buf j = true := by
  induction n with
  | zero => simp [prunedSize]
  | succ n ih =>
    rw [prunedSize]
    split
    · next hz =>
      rw [ih]
      constructor
      · intro h j hij hj
        obtain rfl | hlt := Nat.eq_or_lt_of_le (Nat.le_of_lt_succ hj)
        · exact hz
        · exact h j hij hlt
      · intro h j hij hj
        exact h j hij (by omega)
    · next hz =>
      constructor
      · intro h j hij hj
        omega
      · intro h
        by_contra hlt
        exact hz (h n (by omega) (by omega))

/-- The bytes that the lowered instructions leave. -/
def loweredBytes (p : Primitive) (n : Nat) (buf : List (BitVec 8)) : List (BitVec 8) :=
  buf.take (prunedSize p buf n * p.sizeOf) ++
    List.replicate ((n - prunedSize p buf n) * p.sizeOf) 0

theorem length_loweredBytes (hbuf : buf.length = n * p.sizeOf) :
    (loweredBytes p n buf).length = buf.length := by
  have hle : prunedSize p buf n * p.sizeOf ≤ n * p.sizeOf := Nat.mul_le_mul_right _ prunedSize_le
  rw [loweredBytes, List.length_append, List.length_take, List.length_replicate, Nat.sub_mul]
  omega

/-- A tail of zeros, element by element. -/
theorem drop_eq_replicate_iff {k : Nat} (hbuf : buf.length = n * p.sizeOf) (hk : k ≤ n) :
    buf.drop (k * p.sizeOf) = List.replicate ((n - k) * p.sizeOf) 0 ↔
      ∀ i, k ≤ i → i < n → element p buf i = List.replicate p.sizeOf 0 := by
  have hlen : (buf.drop (k * p.sizeOf)).length = (n - k) * p.sizeOf := by
    rw [List.length_drop, hbuf, Nat.sub_mul]
  rw [List.eq_replicate_iff]
  constructor
  · rintro ⟨-, hzero⟩ i hki hi
    refine List.eq_replicate_iff.2 ⟨length_element hbuf hi, fun x hx => hzero x ?_⟩
    have hmul : k * p.sizeOf ≤ i * p.sizeOf := Nat.mul_le_mul_right _ hki
    have hdrop : buf.drop (i * p.sizeOf) =
        (buf.drop (k * p.sizeOf)).drop (i * p.sizeOf - k * p.sizeOf) := by
      rw [List.drop_drop]
      congr 1
      omega
    rw [element, hdrop] at hx
    exact List.mem_of_mem_drop (List.mem_of_mem_take hx)
  · intro hall
    refine ⟨hlen, fun x hx => ?_⟩
    obtain ⟨j, hj, rfl⟩ := List.getElem_of_mem hx
    have hpos := p.sizeOf_pos
    rw [hlen] at hj
    -- the byte is in the element its index divides to
    have hdiv : j / p.sizeOf < n - k := Nat.div_lt_of_lt_mul (by rwa [Nat.mul_comm])
    have hmod := Nat.mod_lt j hpos
    have helem := hall (k + j / p.sizeOf) (Nat.le_add_right _ _) (Nat.add_lt_of_lt_sub' hdiv)
    have hindex : (k + j / p.sizeOf) * p.sizeOf + j % p.sizeOf = k * p.sizeOf + j := by
      have hj' := Nat.div_add_mod' j p.sizeOf
      rw [Nat.add_mul]
      omega
    have hbound : k * p.sizeOf + j < buf.length := by
      rw [List.length_drop] at hlen
      omega
    have hmem : buf[k * p.sizeOf + j] ∈ element p buf (k + j / p.sizeOf) := by
      rw [element, List.mem_take_iff_getElem]
      refine ⟨j % p.sizeOf, ?_, ?_⟩
      · rw [List.length_drop] at hlen ⊢
        omega
      · simp only [List.getElem_drop, hindex]
    rw [List.getElem_drop]
    exact List.eq_of_mem_replicate (helem ▸ hmem)

/-- Nothing is lost if and only if the zeros at the end are zeros in all their bits. -/
theorem loweredBytes_eq_iff (hbuf : buf.length = n * p.sizeOf) :
    loweredBytes p n buf = buf ↔ Trimmable p n buf := by
  have hsplit : loweredBytes p n buf = buf ↔ buf.drop (prunedSize p buf n * p.sizeOf) =
      List.replicate ((n - prunedSize p buf n) * p.sizeOf) 0 := by
    have htake := List.take_append_drop (prunedSize p buf n * p.sizeOf) buf
    constructor
    · intro h
      rw [loweredBytes] at h
      exact (List.append_cancel_left (h.trans htake.symm)).symm
    · intro h
      rw [loweredBytes, ← h]
      exact htake
  rw [hsplit, drop_eq_replicate_iff hbuf prunedSize_le]
  constructor
  · intro h i hi hzero
    exact h i (prunedSize_le_iff.2 hzero) hi
  · intro h i hki hi
    exact h i hi (prunedSize_le_iff.1 hki)

end Zeros

/-! ## One `STORE` -/

/-- A `STORE` of an array constant through a reference to an array that it fits in, as the
generator makes them: the elements of the constant are primitive, whatever the dimensions
of the array are. -/
structure ArrayStore (b : BinaryInst) (p : Primitive) (n : Nat) (buf : List (BitVec 8)) : Prop where
  op : b.op = .store
  rhs : b.rhs = .const ⟨.array (.prim p) n, .bytes buf⟩
  length : buf.length = n * p.sizeOf
  small : n * p.sizeOf < 2 ^ 63
  lhs : ∃ v elem size, b.lhs = .left v ∧ (Ty.array elem size).flatElem = .prim p ∧
    n ≤ (Ty.array elem size).flatLength ∧
      (viewType v.type = .reference elem false true ∧ size = n ∨
        viewType v.type = .reference (.array elem size) false false)

/-- The functions that the pass calls have been added. -/
structure StandardLib (prog : Program) (ms mc : BuiltinFunc) : Prop where
  memset : findBuiltin prog "memset" = .ok ms
  memcpy : findBuiltin prog "memcpy" = .ok mc

theorem name_of_findBuiltin {prog : Program} {name : String} {f : BuiltinFunc}
    (h : findBuiltin prog name = .ok f) : f.name = name := by
  unfold findBuiltin at h
  split at h
  · next g hg =>
    cases h
    simpa using List.find?_some hg
  · cases h

/-- The call of `memset` for a `STORE`. -/
def memsetCall (ms : BuiltinFunc) (b : BinaryInst) (size : Nat) : Inst :=
  .call ⟨none, builtinValue ms,
    [b.lhs, .const (.ofInt64 0), .const (.ofInt64 (BitVec.ofNat 64 size))]⟩

/-- The call of `memcpy` for a `STORE`. -/
def memcpyCall (mc : BuiltinFunc) (b : BinaryInst) (proxy : Alloc) (size : Nat) : Inst :=
  .call ⟨none, builtinValue mc,
    [b.lhs, .left proxy.value.left, .const (.ofInt64 (BitVec.ofNat 64 size))]⟩

section Store

variable {prog : Program} {ms mc : BuiltinFunc} {func : String} {images : Images} {b : BinaryInst}
  {p : Primitive} {n : Nat} {buf : List (BitVec 8)} {float : Floats} {σ : Var → Word} {mem : Memory}

/-- The image of a constant. -/
def imageOf (func : String) (images : Images) (p : Primitive) (n : Nat) (buf : List (BitVec 8)) :
    Alloc :=
  .constant images.nextAlloc (symbol func images.cnt) (.array (.prim p) (prunedSize p buf n))
    ⟨.array (.prim p) (prunedSize p buf n), .bytes (buf.take (prunedSize p buf n * p.sizeOf))⟩ true

theorem storeMem_eq (h : ArrayStore b p n buf) (hdst : 0x1000 ≤ (viewIn σ b.lhs).word.toNat) :
    storeMem float mem (viewIn σ b.lhs) (viewIn σ b.rhs) =
      .ok (Paste.paste mem (viewIn σ b.lhs).word buf) := by
  obtain ⟨v, elem, size, hl, helem, hlen, htype⟩ := h.lhs
  have hfit : n * p.sizeOf ≤ 2 ^ 64 := le_trans (le_of_lt h.small) (by decide)
  have hassign : assignArray float mem (.array elem size) (.array (.prim p) n)
      (viewIn σ b.lhs).word buf = _ := assignArray_eq helem hlen h.length hfit
  unfold storeMem
  rw [if_neg (by omega), h.rhs]
  rw [hl] at hassign ⊢
  dsimp only [viewIn, viewConst]
  obtain ⟨htype, rfl⟩ | htype := htype
  · rw [htype]
    exact hassign
  · rw [htype]
    exact hassign

/-- The constant equals the zero constant when the pruned one is empty. -/
theorem eqv_zeros_iff :
    ConstexprValue.eqv ⟨.array (.prim p) n, .bytes buf⟩
      ⟨(Ty.array (.prim p) n).flatten, .bytes (List.replicate (Ty.array (.prim p) n).sizeOf 0)⟩ =
        true ↔ prunedSize p buf n = 0 := by
  have htype : Ty.eqv (.array (.prim p) n) (Ty.array (.prim p) n).flatten = true := by
    have hflat : (Ty.array (.prim p) n).flatten = .array (.prim p) n :=
      congrArg (Ty.array (.prim p)) (Nat.mul_one n)
    rw [hflat]
    simp [Ty.eqv, Ty.le, Ty.weight, Ty.leFuel]
  have hzeros : ∀ i, i < n → element p (List.replicate (Ty.array (.prim p) n).sizeOf 0) i =
      List.replicate p.sizeOf 0 := by
    intro i hi
    have hle : (i + 1) * p.sizeOf ≤ n * p.sizeOf := Nat.mul_le_mul_right _ hi
    rw [Nat.succ_mul] at hle
    rw [element, List.drop_replicate, List.take_replicate, Nat.min_eq_left]
    show p.sizeOf ≤ n * p.sizeOf - i * p.sizeOf
    omega
  have hall : ConstexprValue.eqv ⟨.array (.prim p) n, .bytes buf⟩
      ⟨(Ty.array (.prim p) n).flatten, .bytes (List.replicate (Ty.array (.prim p) n).sizeOf 0)⟩ =
        ConstexprValue.bytesEqv p (n * 1) buf
          (List.replicate (Ty.array (.prim p) n).sizeOf 0) := by
    unfold ConstexprValue.eqv
    rw [htype]
    rfl
  rw [hall, ConstexprValue.bytesEqv, Nat.mul_one, List.all_eq_true, ← Nat.le_zero, prunedSize_le_iff]
  constructor
  · intro h j _ hj
    have helem := h j (List.mem_range.2 hj)
    have hz := hzeros j hj
    rw [element] at hz
    rw [hz] at helem
    exact helem
  · intro h j hj
    have hz := hzeros j (List.mem_range.1 hj)
    rw [element] at hz
    rw [hz]
    exact h j (Nat.zero_le _) (List.mem_range.1 hj)

/-- What the pass makes of a `STORE`. -/
theorem lowerStore_eq (h : ArrayStore b p n buf) (hlib : StandardLib prog ms mc) :
    lowerStore prog func images b =
      if prunedSize p buf n = 0 then
        .ok (⟨.binary b, [memsetCall ms b (p.sizeOf * n)], none⟩, images)
      else
        .ok (⟨.binary b,
          (if prunedSize p buf n = n then [] else [memsetCall ms b (p.sizeOf * n)]) ++
            [memcpyCall mc b (imageOf func images p n buf) (p.sizeOf * prunedSize p buf n)],
          some (imageOf func images p n buf)⟩,
          ⟨images.cnt + 1, images.nextAlloc + 1, images.globals ++ [imageOf func images p n buf]⟩) := by
  have hsize : ∀ k, Rv64.size (.array (.prim p) k) = .ok (p.sizeOf * k) := by
    intro k
    cases p <;> rfl
  have hpos := p.sizeOf_pos
  have hcond : p.sizeOf * prunedSize p buf n ≠ p.sizeOf * n ↔ ¬prunedSize p buf n = n := by
    rw [Ne, Nat.mul_right_inj (by omega)]
  unfold lowerStore
  rw [h.rhs]
  dsimp only [Value.typeOf, bind, Except.bind, asConst]
  rw [hsize n, hlib.memset]
  dsimp only [ConstexprValue.zerosLike]
  by_cases hzero : prunedSize p buf n = 0
  · rw [if_pos (eqv_zeros_iff.2 hzero), if_pos hzero]
    rfl
  · rw [if_neg (fun heq => hzero (eqv_zeros_iff.1 heq)), if_neg hzero]
    dsimp only [prune]
    rw [hsize, hlib.memcpy]
    dsimp only
    by_cases hfull : prunedSize p buf n = n
    · rw [if_neg (by rw [hcond]; exact not_not.2 hfull), if_pos hfull]
      rfl
    · rw [if_pos (hcond.2 hfull), if_neg hfull]
      rfl

theorem argNumber_ofInt64 (w : Word) : argNumber float .int (viewConst (.ofInt64 w)) = .ok w := rfl

theorem callMem_memset {k : Nat} (hms : ms.name = "memset") (hk : k < 2 ^ 63) :
    callMem float σ mem (memsetCall ms b k) =
      .ok (Paste.paste mem (viewIn σ b.lhs).word (List.replicate k 0)) := by
  have hnat : (BitVec.ofNat 64 k).toNat = k := by
    rw [BitVec.toNat_ofNat]
    omega
  have hcall : callMem float σ mem (memsetCall ms b k) = builtinMem float ms.name mem
      [viewIn σ b.lhs, viewConst (.ofInt64 0), viewConst (.ofInt64 (BitVec.ofNat 64 k))] := rfl
  rw [hcall, hms]
  show Except.ok (fill mem _ (BitVec.ofNat 64 k).toNat ((0#64).setWidth 8)) = _
  rw [hnat]
  exact congrArg _ (Paste.fill_eq_paste k 0)

theorem callMem_memcpy {proxy : Alloc} {x : List (BitVec 8)} (hmc : mc.name = "memcpy")
    (hk : x.length < 2 ^ 63) (hx : ∀ (i : Nat) (hi : i < x.length),
      mem (σ (.named (.alloc proxy.id)) + BitVec.ofNat 64 i) = x[i]) :
    callMem float σ mem (memcpyCall mc b proxy x.length) =
      .ok (Paste.paste mem (viewIn σ b.lhs).word x) := by
  have hnat : (BitVec.ofNat 64 x.length).toNat = x.length := by
    rw [BitVec.toNat_ofNat]
    omega
  have hcall : callMem float σ mem (memcpyCall mc b proxy x.length) = builtinMem float mc.name mem
      [viewIn σ b.lhs, viewIn σ (.left proxy.value.left),
        viewConst (.ofInt64 (BitVec.ofNat 64 x.length))] := rfl
  have hsrc : (viewIn σ (.left proxy.value.left)).word = σ (.named (.alloc proxy.id)) := by
    show σ (.named proxy.value.defn) = _
    rw [Alloc.value_defn]
  rw [hcall, hmc]
  show Except.ok (copy mem _ (viewIn σ (.left proxy.value.left)).word
    (BitVec.ofNat 64 x.length).toNat) = _
  rw [hnat, hsrc]
  exact congrArg _ (Paste.copy_eq_paste hx)

/-- The lowered instructions write the pruned bytes, and zeros behind them. -/
theorem lowered_mem (h : ArrayStore b p n buf) (hlib : StandardLib prog ms mc) {l : Lowered}
    {images' : Images} (hl : lowerStore prog func images b = .ok (l, images'))
    (himage : ∀ a ∈ l.image, ImageAt σ mem (viewIn σ b.lhs).word (n * p.sizeOf) a) :
    l.insts.foldlM (callMem float σ) mem =
      .ok (Paste.paste mem (viewIn σ b.lhs).word (loweredBytes p n buf)) := by
  have hms := name_of_findBuiltin hlib.memset
  have hmc := name_of_findBuiltin hlib.memcpy
  have hle : prunedSize p buf n * p.sizeOf ≤ n * p.sizeOf := Nat.mul_le_mul_right _ prunedSize_le
  have hsmall := h.small
  rw [lowerStore_eq h hlib] at hl
  unfold loweredBytes
  split at hl
  · next hzero =>
    cases hl
    rw [List.foldlM_cons, callMem_memset hms (by rw [Nat.mul_comm]; exact hsmall), hzero,
      Nat.zero_mul, List.take_zero, Nat.sub_zero, List.nil_append, Nat.mul_comm p.sizeOf]
    rfl
  · next hzero =>
    cases hl
    have hat := himage _ rfl
    have htake : (buf.take (prunedSize p buf n * p.sizeOf)).length = prunedSize p buf n * p.sizeOf := by
      rw [List.length_take, h.length]
      omega
    have hbytes := hat.bytes _ _ rfl rfl
    have hcopy : ∀ mem' : Memory, (∀ (i : Nat)
        (hi : i < (buf.take (prunedSize p buf n * p.sizeOf)).length),
        mem' (σ (.named (.alloc images.nextAlloc)) + BitVec.ofNat 64 i) =
          (buf.take (prunedSize p buf n * p.sizeOf))[i]) →
        callMem float σ mem' (memcpyCall mc b (imageOf func images p n buf)
          (p.sizeOf * prunedSize p buf n)) = .ok (Paste.paste mem' (viewIn σ b.lhs).word
            (buf.take (prunedSize p buf n * p.sizeOf))) := by
      intro mem' hread
      have hsize : p.sizeOf * prunedSize p buf n =
          (buf.take (prunedSize p buf n * p.sizeOf)).length := by rw [htake, Nat.mul_comm]
      rw [hsize]
      exact callMem_memcpy hmc (by rw [htake]; omega) hread
    by_cases hfull : prunedSize p buf n = n
    · rw [if_pos hfull, List.nil_append, List.foldlM_cons, hcopy mem hbytes, hfull, Nat.sub_self,
        Nat.zero_mul]
      simp [pure, Except.pure, bind, Except.bind]
    · rw [if_neg hfull, List.cons_append, List.foldlM_cons,
        callMem_memset hms (by rw [Nat.mul_comm]; exact hsmall)]
      dsimp only [bind, Except.bind, List.nil_append]
      rw [List.foldlM_cons, hcopy, Paste.paste_over, List.drop_replicate, htake, Nat.mul_comm p.sizeOf,
        Nat.sub_mul]
      · rfl
      · rw [htake, List.length_replicate, Nat.mul_comm p.sizeOf]
        exact hle
      · intro i hi
        rw [Paste.paste_apart]
        · exact hbytes i hi
        · rw [List.length_replicate, Nat.mul_comm p.sizeOf]
          exact hat.apart _ _ rfl rfl i hi

theorem isArrayStore_of (h : ArrayStore b p n buf) : isArrayStore (.binary b) = true := by
  show (b.op == .store && b.rhs.typeOf.isArray) = true
  rw [h.op, h.rhs]
  rfl

/-- What stands for a `STORE` is right if and only if no zero at the end has a bit set. -/
theorem sameBytes_iff (h : ArrayStore b p n buf) (hlib : StandardLib prog ms mc) {l : Lowered}
    {images' : Images} (hl : lowerStore prog func images b = .ok (l, images'))
    (hfresh : ∀ v, b.lhs = .left v → v.var ≠ .named (.alloc images.nextAlloc)) :
    SameBytes float l ↔ Trimmable p n buf := by
  have hinst : l.inst = .binary b := by
    rw [lowerStore_eq h hlib] at hl
    split at hl <;> cases hl <;> rfl
  have htype : b.rhs.typeOf.sizeOf = n * p.sizeOf := by
    rw [h.rhs]
    rfl
  have hlen := length_loweredBytes h.length
  have hsmall := h.small
  rw [← loweredBytes_eq_iff h.length]
  constructor
  · intro hsame
    obtain ⟨v, elem, size, hv, -⟩ := h.lhs
    -- the image stands right behind the array
    let dst : Word := 0x1000
    let src : Word := dst + BitVec.ofNat 64 (n * p.sizeOf)
    let σ : Var → Word := fun u => if u = v.var then dst else src
    let mem : Memory :=
      Paste.paste (fun _ => 0) src (buf.take (prunedSize p buf n * p.sizeOf))
    have hdst : (viewIn σ b.lhs).word = dst := by
      rw [hv]
      exact if_pos rfl
    have himage : ∀ a ∈ l.image, ImageAt σ mem (viewIn σ b.lhs).word (n * p.sizeOf) a := by
      intro a ha
      rw [lowerStore_eq h hlib] at hl
      split at hl
      · cases hl
        cases ha
      · cases hl
        cases ha
        have hsrc : σ (.named (.alloc images.nextAlloc)) = src := if_neg (Ne.symm (hfresh v hv))
        have htake : (buf.take (prunedSize p buf n * p.sizeOf)).length ≤ n * p.sizeOf := by
          rw [List.length_take, h.length]
          exact Nat.min_le_right _ _
        constructor
        · intro c x hc hx i hi
          cases hc
          cases hx
          have hoff : (src + BitVec.ofNat 64 i - src).toNat = i := Paste.toNat_offset (by omega)
          show mem (σ (.named (.alloc images.nextAlloc)) + _) = _
          rw [hsrc]
          show Paste.paste _ src _ _ = _
          rw [Paste.paste_of_lt (by rwa [hoff])]
          simp only [hoff]
        · intro c x hc hx i hi
          cases hc
          cases hx
          show _ ≤ (σ (.named (.alloc images.nextAlloc)) + _ - _).toNat
          rw [hsrc, hdst]
          show _ ≤ (dst + BitVec.ofNat 64 (n * p.sizeOf) + BitVec.ofNat 64 i - dst).toNat
          rw [BitVec.add_assoc, ← BitVec.ofNat_add, Paste.toNat_offset (by omega)]
          exact Nat.le_add_right _ _
    obtain ⟨mem', hstore, hrun⟩ := hsame b hinst (isArrayStore_of h) σ mem
      (by rw [hdst]; decide) (by rw [htype]; exact himage)
    rw [storeMem_eq h (by rw [hdst]; decide)] at hstore
    rw [lowered_mem h hlib hl himage, ← hstore] at hrun
    refine Paste.paste_inj hlen ?_ (Except.ok.inj hrun)
    rw [hlen, h.length]
    omega
  · intro heq b' hb' _ σ mem hdst himage
    rw [hinst] at hb'
    cases hb'
    rw [htype] at himage
    refine ⟨_, storeMem_eq h hdst, ?_⟩
    rw [lowered_mem h hlib hl himage, heq]

end Store

end ArrayInitLowering

end Lowering
end Cact
