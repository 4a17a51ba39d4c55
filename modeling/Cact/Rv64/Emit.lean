import Cact.Gen.Gen
import Cact.Rv64.Inst

/-!
# The assembly text of a module (`rv64/emit.cpp`)

`Module::toString` writes a module as assembly text: the functions, then the globals
in one of three sections each, then the pool of literals. Here the text is a list of
lines, and an assembler says what they define.

- `Module.lines`: the lines, section by section.
- `Object`, `assemble`: the sections and the symbols that an assembler makes of them.
- `Module.globals_defined_iff`: when every global is defined once, with its contents.
-/

namespace Cact

namespace Ir

/-! ## Equality of constants -/

/-- `==` of floating-point numbers: no NaN equals anything, and both zeros are equal.
`e` is the width of the exponent and `m` that of the mantissa. -/
def floatEq (e m : Nat) {w : Nat} (a b : BitVec w) : Bool :=
  let nan (v : BitVec w) : Bool := v.toNat % 2 ^ (m + e) > (2 ^ e - 1) * 2 ^ m
  let zero (v : BitVec w) : Bool := v.toNat % 2 ^ (m + e) == 0
  !nan a && !nan b && (a == b || (zero a && zero b))

/-- The primitives that data is made of. -/
def Primitive.isData : Primitive → Bool
  | int1 | int32 | float32 | float64 => true
  | _ => false

/-- The number that some bytes stand for, the lowest first. -/
def ofBytes : List (BitVec 8) → Nat
  | [] => 0
  | b :: bs => b.toNat + 256 * ofBytes bs

/-- `==` of two elements of an array. -/
def elemEq (p : Primitive) (a b : List (BitVec 8)) : Bool :=
  match p with
  | .float32 => floatEq 8 23 (BitVec.ofNat 32 (ofBytes a)) (BitVec.ofNat 32 (ofBytes b))
  | .float64 | .float => floatEq 11 52 (BitVec.ofNat 64 (ofBytes a)) (BitVec.ofNat 64 (ofBytes b))
  | _ => a == b

/-- The first `k` elements of a buffer, of `n` bytes each. -/
def elements (n : Nat) : Nat → List (BitVec 8) → List (List (BitVec 8))
  | 0, _ => []
  | k + 1, buf => buf.take n :: elements n k (buf.drop n)

/-- `==` of two payloads that are not buffers. -/
def Payload.eq : Payload → Payload → Bool
  | monostate, monostate => true
  | int v, int v' => v == v'
  | int64 v, int64 v' => v == v'
  | float v, float v' => floatEq 8 23 v v'
  | double v, double v' => floatEq 11 52 v v'
  | bool v, bool v' => v == v'
  | _, _ => false

/-- `operator==`: buffers are compared element by element. -/
def ConstexprValue.eq (lhs rhs : ConstexprValue) : Bool :=
  lhs.type.eqv rhs.type &&
    match lhs.type.flatten, lhs.val, rhs.val with
    | .array (.prim p) size, .bytes a, .bytes b =>
      ((elements p.sizeOf size a).zip (elements p.sizeOf size b)).all fun (x, y) => elemEq p x y
    | _, a, b => a.eq b

end Ir

namespace Rv64

open Ir (Ty Primitive ConstexprValue Payload Fault ofBytes elements)
open Gen (bytesOf length_bytesOf)

/-! ## Lines -/

inductive Section
  | text | rodata | data | bss
  deriving DecidableEq, Repr

/-- A line of assembly. -/
inductive Line
  /-- a directive that defines nothing -/
  | plain (text : String)
  | section (s : Section)
  | align (log2 : Nat)
  | balign (n : Nat)
  | globl (name : String)
  /-- `.size`: a number of bytes, or the distance to the label -/
  | size (name : String) (n : Option Nat)
  | label (name : String)
  | inst (i : Inst)
  | byte (v : BitVec 8)
  | word (v : BitVec 32)
  | dword (v : BitVec 64)
  | zero (n : Nat)
  | lcomm (name : String) (n : Nat)
  deriving DecidableEq, Repr

/-- `Block::toString`. -/
def Block.lines (b : Block) : List Line :=
  (if b.label.isEmpty then [] else [.label b.label]) ++ b.insts.map Line.inst

/-- `Func::toString`. -/
def Func.lines (f : Func) : List Line :=
  [.globl f.name, .plain (".type " ++ f.name ++ ", @function")] ++ f.blocks.flatMap Block.lines ++
    [.size f.name none]

/-- `FloatLiteral::toString`. -/
def FloatLiteral.lines (l : FloatLiteral) : List Line :=
  [.balign 8, .label l.label] ++
    match l.value.val with
    | .float v => [.word v]
    | .double v => [.dword v]
    | _ => []

/-- `flush_zeros`. -/
def flushZeros (n run : Nat) : List Line := if run = 0 then [] else [.zero (run * n)]

/-- An element that is not zero. -/
def elemLine (p : Primitive) (e : List (BitVec 8)) : Line :=
  match p with
  | .int1 => .byte (if ofBytes e = 0 then 0 else 1)
  | .int32 | .float32 => .word (BitVec.ofNat 32 (ofBytes e))
  | .int | .float64 => .dword (BitVec.ofNat 64 (ofBytes e))
  | .float => .zero p.sizeOf

/-- `append_global_val`, after `run` elements that are zero. -/
def globalVal (p : Primitive) (run : Nat) : List (List (BitVec 8)) → List Line
  | [] => flushZeros p.sizeOf run
  | e :: es =>
    if e.all (· == 0) then globalVal p (run + 1) es
    else flushZeros p.sizeOf run ++ elemLine p e :: globalVal p 0 es

/-- The value of a global that has one. -/
def valueLines (type : Ty) (c : ConstexprValue) : List Line :=
  match type.flatten, c.val with
  | .array (.prim p) size, .bytes buf => globalVal p 0 (elements p.sizeOf size buf)
  | .prim _, .int v => [.word v]
  | .prim _, .int64 v => [.dword v]
  | .prim _, .float v => [.word v]
  | .prim _, .double v => [.dword v]
  | .prim _, .bool v => [.byte (if v then 1 else 0)]
  | _, _ => []

/-- `Global::toString`, of a global with a value. -/
def Global.lines (g : Global) : List Line :=
  [.align 2, .size g.name (some g.type.sizeOf), .globl g.name, .label g.name] ++
    match g.init with
    | some c => valueLines g.type c
    | none => []

/-- `is_zero_init`. -/
def Global.isZeroInit (g : Global) : Except Fault Bool :=
  match g.init with
  | none => .ok true
  | some c => do return c.eq (← ConstexprValue.zerosLike g.type)

/-- A global in the `.bss` section. -/
def Global.bssLines (g : Global) : List Line := [.align 2, .lcomm g.name g.type.sizeOf]

/-- A section, unless it is empty. -/
def sectionLines (s : Section) (used : Bool) (lines : List Line) : List Line :=
  if used then .section s :: lines else []

/-- The head of every module. -/
def headLines : List Line :=
  [.plain ".option nopic",
    .plain ".attribute arch, \"rv64i2p0_m2p0_a2p0_f2p0_d2p0_c2p0\"",
    .plain ".attribute unaligned_access, 0", .plain ".attribute stack_align, 16",
    .section .text, .align 1]

/-- `Module::toString`. The globals go to sections by `comptime` and `is_zero_init`. -/
def Module.lines (m : Module) : Except Fault (List Line) := do
  let globals ← m.globals.mapM fun g => do return (g, ← g.isZeroInit)
  let rodata := globals.filter fun (g, zero) => g.comptime && !zero
  let data := globals.filter fun (g, zero) => !g.comptime && !zero
  let bss := globals.filter fun (g, zero) => !g.comptime && zero
  return headLines ++ m.funcs.flatMap Func.lines ++
    sectionLines .rodata (globals.any fun (g, _) => g.comptime)
      (rodata.flatMap fun (g, _) => g.lines) ++
    sectionLines .data (!data.isEmpty) (data.flatMap fun (g, _) => g.lines) ++
    sectionLines .bss (!bss.isEmpty) (bss.flatMap fun (g, _) => g.bssLines) ++
    sectionLines .rodata (!m.floatLiterals.isEmpty) (m.floatLiterals.flatMap FloatLiteral.lines) ++
    [.plain ".ident \"CACT compiler\""]

/-! ## Assembling -/

/-- A symbol: its section and its offset there. -/
structure Symbol where
  name : String
  sec : Section
  offset : Nat
  deriving DecidableEq, Repr

/-- What has been assembled so far. -/
structure Object where
  current : Section
  bytes : Section → List (BitVec 8)
  defs : List Symbol

namespace Object

/-- An object file before its first line. -/
def empty : Object := ⟨.text, fun _ => [], []⟩

/-- Bytes at the end of a section. -/
def emit (o : Object) (s : Section) (bs : List (BitVec 8)) : Object :=
  { o with bytes := Function.update o.bytes s (o.bytes s ++ bs) }

/-- A symbol at the end of a section. -/
def define (o : Object) (s : Section) (name : String) : Object :=
  { o with defs := o.defs ++ [⟨name, s, (o.bytes s).length⟩] }

/-- Zeros up to a multiple of `n`. -/
def pad (o : Object) (n : Nat) : Object :=
  o.emit o.current (List.replicate ((n - (o.bytes o.current).length % n) % n) 0)

/-- One line, where `enc` encodes instructions. -/
def line (enc : Inst → List (BitVec 8)) (o : Object) : Line → Object
  | .plain _ | .globl _ | .size _ _ => o
  | .section s => { o with current := s }
  | .align log2 => o.pad (2 ^ log2)
  | .balign n => o.pad n
  | .label name => o.define o.current name
  | .inst i => o.emit o.current (enc i)
  | .byte v => o.emit o.current (bytesOf v.toNat 1)
  | .word v => o.emit o.current (bytesOf v.toNat 4)
  | .dword v => o.emit o.current (bytesOf v.toNat 8)
  | .zero n => o.emit o.current (List.replicate n 0)
  | .lcomm name n => (o.define .bss name).emit .bss (List.replicate n 0)

/-- The `n` bytes at a symbol. -/
def contents (o : Object) (d : Symbol) (n : Nat) : List (BitVec 8) :=
  ((o.bytes d.sec).drop d.offset).take n

end Object

/-- The object file of some lines. -/
def assemble (enc : Inst → List (BitVec 8)) (o : Object) (lines : List Line) : Object :=
  lines.foldl (Object.line enc) o

section Assemble

variable {enc : Inst → List (BitVec 8)} {o : Object} {g : Global} {d : Symbol}

@[simp] theorem assemble_nil : assemble enc o [] = o := rfl

@[simp] theorem assemble_cons (l : Line) (ls : List Line) :
    assemble enc o (l :: ls) = assemble enc (o.line enc l) ls := rfl

theorem assemble_append (ls ls' : List Line) :
    assemble enc o (ls ++ ls') = assemble enc (assemble enc o ls) ls' := List.foldl_append

/-- The symbol a line defines. -/
def Line.defines : Line → Option String
  | .label name => some name
  | .lcomm name _ => some name
  | _ => none

theorem assemble_names (ls : List Line) :
    (assemble enc o ls).defs.map Symbol.name =
      o.defs.map Symbol.name ++ ls.filterMap Line.defines := by
  induction ls generalizing o with
  | nil => simp
  | cons l ls ih =>
    rw [assemble_cons, ih]
    cases l <;> simp [Object.line, Object.define, Object.emit, Object.pad, Line.defines,
      List.filterMap_cons]

/-- What has been assembled stays where it is. -/
structure Object.Extends (o o' : Object) : Prop where
  bytes : ∀ s, o.bytes s <+: o'.bytes s
  defs : o.defs <+: o'.defs

theorem Object.Extends.refl (o : Object) : o.Extends o :=
  ⟨fun _ => List.prefix_rfl, List.prefix_rfl⟩

theorem Object.Extends.trans {o₁ o₂ o₃ : Object} (h : o₁.Extends o₂) (h' : o₂.Extends o₃) :
    o₁.Extends o₃ :=
  ⟨fun s => (h.bytes s).trans (h'.bytes s), h.defs.trans h'.defs⟩

theorem Object.extends_emit (o : Object) (s : Section) (bs : List (BitVec 8)) :
    o.Extends (o.emit s bs) where
  bytes s' := by
    by_cases h : s' = s
    · subst h
      simp [Object.emit]
    · simp [Object.emit, h]
  defs := List.prefix_rfl

theorem Object.extends_define (o : Object) (s : Section) (name : String) :
    o.Extends (o.define s name) :=
  ⟨fun _ => List.prefix_rfl, List.prefix_append _ _⟩

theorem Object.extends_line (o : Object) (l : Line) : o.Extends (o.line enc l) := by
  cases l with
  | plain | globl | size | «section» => exact ⟨fun _ => List.prefix_rfl, List.prefix_rfl⟩
  | label name => exact o.extends_define _ _
  | lcomm name n => exact (o.extends_define _ _).trans (Object.extends_emit _ _ _)
  | align | balign | inst | byte | word | dword | zero => exact o.extends_emit _ _

theorem Object.extends_assemble (ls : List Line) : o.Extends (assemble enc o ls) := by
  induction ls generalizing o with
  | nil => exact .refl o
  | cons l ls ih => exact (o.extends_line l).trans ih

/-- The bytes stand at the symbol. -/
def Object.HasContents (o : Object) (d : Symbol) (bs : List (BitVec 8)) : Prop :=
  d ∈ o.defs ∧ bs <+: (o.bytes d.sec).drop d.offset

theorem Object.HasContents.mono {o' : Object} {bs : List (BitVec 8)} (h : o.HasContents d bs)
    (he : o.Extends o') : o'.HasContents d bs := by
  refine ⟨he.defs.subset h.1, h.2.trans ?_⟩
  obtain ⟨t, ht⟩ := he.bytes d.sec
  rw [← ht, List.drop_append]
  exact List.prefix_append _ _

theorem Object.HasContents.contents {bs : List (BitVec 8)} (h : o.HasContents d bs) :
    o.contents d bs.length = bs := by
  rw [Object.contents]
  exact (List.prefix_iff_eq_take.mp h.2).symm

end Assemble

/-! ## The lines of a value -/

/-- The bytes of a line of data. -/
def Line.data : Line → Option (List (BitVec 8))
  | .byte v => some (bytesOf v.toNat 1)
  | .word v => some (bytesOf v.toNat 4)
  | .dword v => some (bytesOf v.toNat 8)
  | .zero n => some (List.replicate n 0)
  | _ => none

/-- The lines are data, these bytes. -/
def IsData (ls : List Line) (bs : List (BitVec 8)) : Prop :=
  ∃ parts : List (List (BitVec 8)), ls.map Line.data = parts.map some ∧ parts.flatten = bs

theorem IsData.nil : IsData [] [] := ⟨[], rfl, rfl⟩

theorem IsData.cons {l : Line} {ls : List Line} {b bs : List (BitVec 8)} (hl : l.data = some b)
    (h : IsData ls bs) : IsData (l :: ls) (b ++ bs) := by
  obtain ⟨parts, hp, rfl⟩ := h
  exact ⟨b :: parts, by simp [hl, hp], rfl⟩

theorem IsData.append {ls ls' : List Line} {bs bs' : List (BitVec 8)} (h : IsData ls bs)
    (h' : IsData ls' bs') : IsData (ls ++ ls') (bs ++ bs') := by
  obtain ⟨parts, hp, rfl⟩ := h
  obtain ⟨parts', hp', rfl⟩ := h'
  exact ⟨parts ++ parts', by simp [hp, hp'], by simp⟩

theorem IsData.assemble {enc : Inst → List (BitVec 8)} {ls : List Line} {bs : List (BitVec 8)}
    (h : IsData ls bs) (o : Object) : assemble enc o ls = o.emit o.current bs := by
  obtain ⟨parts, hp, rfl⟩ := h
  induction ls generalizing o parts with
  | nil =>
    cases parts with
    | nil => simp [Object.emit]
    | cons => simp at hp
  | cons l ls ih =>
    cases parts with
    | nil => simp at hp
    | cons b parts =>
      simp only [List.map_cons, List.cons.injEq] at hp
      have hline : o.line enc l = o.emit o.current b := by
        cases l <;> simp_all [Line.data, Object.line]
      rw [assemble_cons, hline, ih _ parts hp.2]
      simp [Object.emit]

theorem ofBytes_lt (bs : List (BitVec 8)) : ofBytes bs < 256 ^ bs.length := by
  induction bs with
  | nil => simp [ofBytes]
  | cons b bs ih =>
    have hb := b.isLt
    rw [List.length_cons, Nat.pow_succ, ofBytes]
    omega

theorem bytesOf_ofBytes (bs : List (BitVec 8)) : bytesOf (ofBytes bs) bs.length = bs := by
  induction bs with
  | nil => rfl
  | cons b bs ih =>
    have hb := b.isLt
    have hdiv : (b.toNat + 256 * ofBytes bs) / 256 = ofBytes bs := by omega
    rw [ofBytes, List.length_cons, bytesOf, hdiv, ih]
    congr 1
    refine BitVec.eq_of_toNat_eq ?_
    rw [BitVec.toNat_ofNat]
    omega

/-- A number of `n` bytes, written and read. -/
theorem bytesOf_setWidth {e : List (BitVec 8)} {n : Nat} (h : e.length = n) :
    bytesOf (BitVec.ofNat (8 * n) (ofBytes e)).toNat n = e := by
  have hlt := ofBytes_lt e
  rw [h, show (256 : Nat) = 2 ^ 8 from rfl, ← Nat.pow_mul] at hlt
  rw [BitVec.toNat_ofNat, Nat.mod_eq_of_lt hlt, ← h, bytesOf_ofBytes]

/-- An element of data is written as it stands in the buffer. -/
theorem elemLine_data {p : Primitive} {e : List (BitVec 8)} (hp : p.isData = true)
    (hlen : e.length = p.sizeOf) (hbool : p = .int1 → ∀ b ∈ e, b = 0 ∨ b = 1) :
    (elemLine p e).data = some e := by
  cases p with
  | int1 =>
    obtain ⟨b, rfl⟩ := List.length_eq_one_iff.mp hlen
    rcases hbool rfl b (by simp) with rfl | rfl
    · rfl
    · rfl
  | int32 => exact congrArg some (bytesOf_setWidth hlen)
  | float32 => exact congrArg some (bytesOf_setWidth hlen)
  | float64 => exact congrArg some (bytesOf_setWidth hlen)
  | int => cases hp
  | float => cases hp

theorem flushZeros_data (n run : Nat) :
    IsData (flushZeros n run) (List.replicate (run * n) 0) := by
  unfold flushZeros
  by_cases h : run = 0
  · subst h
    simpa using IsData.nil
  · rw [if_neg h]
    simpa using IsData.cons (l := .zero (run * n)) rfl .nil

/-- A run of zero elements, and the elements that are left. -/
theorem globalVal_data {p : Primitive} (hp : p.isData = true) (es : List (List (BitVec 8)))
    (run : Nat) (hlen : ∀ e ∈ es, e.length = p.sizeOf)
    (hbool : p = .int1 → ∀ e ∈ es, ∀ b ∈ e, b = 0 ∨ b = 1) :
    IsData (globalVal p run es) (List.replicate (run * p.sizeOf) 0 ++ es.flatten) := by
  induction es generalizing run with
  | nil => simpa [globalVal] using flushZeros_data p.sizeOf run
  | cons e es ih =>
    have hes : ∀ e ∈ es, e.length = p.sizeOf := fun e he => hlen e (List.mem_cons_of_mem _ he)
    have hbs : p = .int1 → ∀ e ∈ es, ∀ b ∈ e, b = 0 ∨ b = 1 :=
      fun h e he => hbool h e (List.mem_cons_of_mem _ he)
    rw [globalVal, List.flatten_cons]
    by_cases hz : e.all (· == 0) = true
    · have he : e = List.replicate p.sizeOf 0 :=
        List.eq_replicate_iff.mpr ⟨hlen e List.mem_cons_self, by simpa using hz⟩
      have hrun := ih (run + 1) hes hbs
      rw [Nat.add_mul, Nat.one_mul, List.replicate_add, List.append_assoc, ← he] at hrun
      rwa [if_pos hz]
    · rw [if_neg hz]
      refine (flushZeros_data p.sizeOf run).append (.cons ?_ ?_)
      · exact elemLine_data hp (hlen e List.mem_cons_self)
          fun h => hbool h e List.mem_cons_self
      · simpa using ih 0 hes hbs

theorem elements_flatten {n k : Nat} {buf : List (BitVec 8)} (h : buf.length = n * k) :
    (elements n k buf).flatten = buf := by
  induction k generalizing buf with
  | zero => simpa [elements, eq_comm] using List.eq_nil_of_length_eq_zero h
  | succ k ih =>
    have hd : (buf.drop n).length = n * k := by
      rw [List.length_drop, h, Nat.mul_succ]
      omega
    rw [elements, List.flatten_cons, ih hd, List.take_append_drop]

theorem length_of_mem_elements {n k : Nat} {buf e : List (BitVec 8)} (h : buf.length = n * k)
    (he : e ∈ elements n k buf) : e.length = n := by
  induction k generalizing buf with
  | zero => cases he
  | succ k ih =>
    rw [Nat.mul_succ] at h
    rcases List.mem_cons.mp he with rfl | he
    · rw [List.length_take, h]
      omega
    · exact ih (by rw [List.length_drop, h]; omega) he

/-! ## Globals -/

/-- The value of a global fits its type: a number of the type, or the buffer of an array. -/
inductive FitsType : Ty → ConstexprValue → Prop
  | int (v : BitVec 32) : FitsType .int32 (.ofInt v)
  | bool (v : Bool) : FitsType .int1 (.ofBool v)
  | float (v : BitVec 32) : FitsType .float32 (.ofFloat v)
  | double (v : BitVec 64) : FitsType .float64 (.ofDouble v)
  | array {elem : Ty} {n : Nat} {p : Primitive} {buf : List (BitVec 8)} (hp : p.isData = true)
      (helem : elem.flatElem = .prim p) (hlen : buf.length = (Ty.array elem n).sizeOf)
      (hbool : p = .int1 → ∀ b ∈ buf, b = 0 ∨ b = 1) :
      FitsType (.array elem n) ⟨(Ty.array elem n).flatten, .bytes buf⟩

/-- The contents of a global. -/
def Global.image (g : Global) : List (BitVec 8) :=
  match g.init.map ConstexprValue.val with
  | some (.int v) => bytesOf v.toNat 4
  | some (.int64 v) => bytesOf v.toNat 8
  | some (.float v) => bytesOf v.toNat 4
  | some (.double v) => bytesOf v.toNat 8
  | some (.bool v) => bytesOf (if v then 1 else 0) 1
  | some (.bytes buf) => buf
  | some .monostate | none => List.replicate g.type.sizeOf 0

theorem valueLines_data {t : Ty} {c : ConstexprValue} (h : FitsType t c) {g : Global}
    (hg : g.init = some c) : IsData (valueLines t c) g.image := by
  unfold Global.image
  rw [hg]
  cases h with
  | int v => simpa [valueLines, Ty.flatten, ConstexprValue.ofInt] using IsData.cons rfl .nil
  | bool v =>
    cases v
    · exact ⟨[[0]], rfl, rfl⟩
    · exact ⟨[[1]], rfl, rfl⟩
  | float v => simpa [valueLines, Ty.flatten, ConstexprValue.ofFloat] using IsData.cons rfl .nil
  | double v => simpa [valueLines, Ty.flatten, ConstexprValue.ofDouble] using IsData.cons rfl .nil
  | @array elem n p buf hp helem hlen hbool =>
    have hsize : buf.length = p.sizeOf * (n * elem.flatLength) := by
      rw [hlen, Ty.sizeOf_flat, Ty.flatElem, helem, Ty.flatLength, Ty.sizeOf]
    have hdata := globalVal_data hp (elements p.sizeOf (n * elem.flatLength) buf) 0
      (fun e he => length_of_mem_elements hsize he) fun h1 e he b hb =>
        hbool h1 b (elements_flatten hsize ▸ List.mem_flatten.mpr ⟨e, he, hb⟩)
    simpa [valueLines, Ty.flatten, helem, elements_flatten hsize] using hdata

theorem length_image {g : Global} (h : ∀ c ∈ g.init, FitsType g.type c) :
    g.image.length = g.type.sizeOf := by
  unfold Global.image
  cases hg : g.init with
  | none => simp
  | some c =>
    have hf := h c hg
    generalize g.type = t at hf
    cases hf with
    | int v => exact length_bytesOf _ _
    | bool v => exact length_bytesOf _ _
    | float v => exact length_bytesOf _ _
    | double v => exact length_bytesOf _ _
    | array hp helem hlen hbool => exact hlen

/-! ## Modules -/

/-- The symbols a module has a definition for. -/
def Module.symbols (m : Module) : List String :=
  (m.funcs.flatMap Func.lines).filterMap Line.defines ++ m.globals.map Global.name ++
    m.floatLiterals.map FloatLiteral.label

/-- The global is defined exactly once, in full and with its contents. -/
def Object.Defines (o : Object) (g : Global) : Prop :=
  ∃ d, o.defs.filter (fun d => d.name == g.name) = [d] ∧
    o.contents d g.type.sizeOf = g.image

section Defines

variable {enc : Inst → List (BitVec 8)} {o : Object} {g : Global}

/-- The lines of a global leave a symbol with its contents. -/
theorem lines_hasContents (h : ∀ c ∈ g.init, FitsType g.type c) {c : ConstexprValue}
    (hg : g.init = some c) (o : Object) :
    ∃ d, d.name = g.name ∧ (assemble enc o g.lines).HasContents d g.image := by
  have hdata := valueLines_data (h c hg) hg
  have hlines : g.lines = [.align 2, .size g.name (some g.type.sizeOf), .globl g.name,
      .label g.name] ++ valueLines g.type c := by
    rw [Global.lines, hg]
  rw [hlines, assemble_append, hdata.assemble]
  refine ⟨⟨g.name, (o.pad (2 ^ 2)).current, ((o.pad (2 ^ 2)).bytes (o.pad (2 ^ 2)).current).length⟩,
    rfl, ?_, ?_⟩
  · simp [Object.line, Object.define, Object.emit]
  · simp [Object.line, Object.define, Object.emit]

theorem bssLines_hasContents (g : Global) (o : Object) :
    ∃ d, d.name = g.name ∧
      (assemble enc o g.bssLines).HasContents d (List.replicate g.type.sizeOf 0) := by
  refine ⟨⟨g.name, .bss, ((o.pad (2 ^ 2)).bytes .bss).length⟩, rfl, ?_, ?_⟩
  · simp [Global.bssLines, Object.line, Object.define, Object.emit]
  · simp [Global.bssLines, Object.line, Object.define, Object.emit]

/-- What some lines define is there when they stand among others. -/
theorem hasContents_of_slice {ls lines : List Line} {name : String} {bs : List (BitVec 8)}
    (h : ∀ o, ∃ d, d.name = name ∧ (assemble enc o ls).HasContents d bs) (hls : ls <:+: lines) :
    ∃ d, d.name = name ∧ (assemble enc o lines).HasContents d bs := by
  obtain ⟨pre, post, rfl⟩ := hls
  obtain ⟨d, hname, hd⟩ := h (assemble enc o pre)
  refine ⟨d, hname, ?_⟩
  rw [assemble_append, assemble_append]
  exact hd.mono (Object.extends_assemble post)

/-- A name that occurs once among the symbols leaves no choice. -/
theorem filter_eq_singleton {ds : List Symbol} {d : Symbol} (hd : d ∈ ds)
    (hnd : (ds.map Symbol.name).count d.name ≤ 1) :
    ds.filter (fun e => e.name == d.name) = [d] := by
  have hmem : d ∈ ds.filter fun e => e.name == d.name := List.mem_filter.mpr ⟨hd, beq_self_eq_true _⟩
  have hlen : (ds.filter fun e => e.name == d.name).length ≤ 1 := by
    rw [List.count_eq_countP, List.countP_map, List.countP_eq_length_filter] at hnd
    exact hnd
  obtain ⟨e, he⟩ := List.length_eq_one_iff.mp (le_antisymm hlen (List.length_pos_of_mem hmem))
  rw [he] at hmem ⊢
  rw [List.mem_singleton.mp hmem]

end Defines

section Lines

variable {m : Module} {gs : List (Global × Bool)}

/-- The globals that go to a section, by `comptime` and `is_zero_init`. -/
def placed (comptime zero : Bool) (gs : List (Global × Bool)) : List Global :=
  (gs.filter fun p => p.1.comptime == comptime && p.2 == zero).map Prod.fst

/-- The lines of a module whose globals are known to be zero or not. -/
def linesOf (m : Module) (gs : List (Global × Bool)) : List Line :=
  headLines ++ m.funcs.flatMap Func.lines ++
    sectionLines .rodata (gs.any fun (g, _) => g.comptime)
      ((placed true false gs).flatMap Global.lines) ++
    sectionLines .data (!(placed false false gs).isEmpty)
      ((placed false false gs).flatMap Global.lines) ++
    sectionLines .bss (!(placed false true gs).isEmpty)
      ((placed false true gs).flatMap Global.bssLines) ++
    sectionLines .rodata (!m.floatLiterals.isEmpty) (m.floatLiterals.flatMap FloatLiteral.lines) ++
    [.plain ".ident \"CACT compiler\""]

/-- Which globals are zero. -/
def Zeros (m : Module) (gs : List (Global × Bool)) : Prop :=
  gs.map Prod.fst = m.globals ∧ ∀ p ∈ gs, p.1.isZeroInit = .ok p.2

theorem isZeroInit_ok {g : Global} (h : ∀ c ∈ g.init, FitsType g.type c) :
    ∃ z, g.isZeroInit = .ok z := by
  unfold Global.isZeroInit
  cases hg : g.init with
  | none => exact ⟨true, rfl⟩
  | some c =>
    have hf := h c hg
    generalize g.type = t at hf
    cases hf with
    | int | bool | float | double | array => exact ⟨_, rfl⟩

theorem exists_zeros (h : ∀ g ∈ m.globals, ∀ c ∈ g.init, FitsType g.type c) :
    ∃ gs, Zeros m gs ∧ m.lines = .ok (linesOf m gs) := by
  have hmap : ∀ l : List Global, (∀ g ∈ l, ∀ c ∈ g.init, FitsType g.type c) →
      ∃ gs, (l.mapM fun g => do return (g, ← g.isZeroInit) : Except Fault _) = .ok gs ∧
        gs.map Prod.fst = l ∧ ∀ p ∈ gs, p.1.isZeroInit = .ok p.2 := by
    intro l hl
    induction l with
    | nil => exact ⟨[], rfl, rfl, by simp⟩
    | cons g l ih =>
      obtain ⟨gs, hgs, hfst, hz⟩ := ih fun g hg => hl g (List.mem_cons_of_mem _ hg)
      obtain ⟨z, hgz⟩ := isZeroInit_ok (hl g List.mem_cons_self)
      refine ⟨(g, z) :: gs, ?_, by simp [hfst], List.forall_mem_cons.mpr ⟨hgz, hz⟩⟩
      rw [List.mapM_cons, hgs, hgz]
      rfl
  obtain ⟨gs, hgs, hfst, hz⟩ := hmap m.globals h
  refine ⟨gs, ⟨hfst, hz⟩, ?_⟩
  rw [Module.lines, hgs]
  simp [linesOf, placed, List.flatMap_map, bind, Except.bind, pure, Except.pure]

theorem mem_placed {comptime zero : Bool} {g : Global} :
    g ∈ placed comptime zero gs ↔ g.comptime = comptime ∧ (g, zero) ∈ gs := by
  simp [placed, and_comm]

theorem infix_sectionLines {s : Section} {used : Bool} {ls lines : List Line} (hls : ls <:+: lines)
    (hused : used = true) : ls <:+: sectionLines s used lines := by
  rw [sectionLines, if_pos hused]
  exact hls.trans (List.suffix_cons _ _).isInfix

theorem infix_left {ls as : List Line} {bs : List Line} (h : ls <:+: as) : ls <:+: as ++ bs :=
  h.trans (List.prefix_append _ _).isInfix

theorem infix_right {ls as : List Line} {bs : List Line} (h : ls <:+: bs) : ls <:+: as ++ bs :=
  h.trans (List.suffix_append _ _).isInfix

theorem names_sectionLines {s : Section} {used : Bool} {lines : List Line}
    (h : used = false → lines = []) :
    (sectionLines s used lines).filterMap Line.defines = lines.filterMap Line.defines := by
  unfold sectionLines
  cases used with
  | false => simp [h rfl]
  | true => simp [Line.defines, List.filterMap_cons]

theorem IsData.names {ls : List Line} {bs : List (BitVec 8)} (h : IsData ls bs) :
    ls.filterMap Line.defines = [] := by
  obtain ⟨parts, hp, -⟩ := h
  refine List.filterMap_eq_nil_iff.mpr fun l hl => ?_
  have hdata : l.data ∈ parts.map some := hp ▸ List.mem_map_of_mem hl
  cases l <;> simp_all [Line.defines, Line.data]

theorem names_lines {g : Global} (h : ∀ c ∈ g.init, FitsType g.type c) :
    g.lines.filterMap Line.defines = [g.name] := by
  cases hg : g.init with
  | none => simp [Global.lines, hg, Line.defines, List.filterMap_cons]
  | some c =>
    have hv := (valueLines_data (h c hg) hg).names
    simp [Global.lines, hg, Line.defines, List.filterMap_cons, hv]

/-- The names of some globals. -/
theorem names_flatMap {l : List Global} {f : Global → List Line}
    (h : ∀ g ∈ l, (f g).filterMap Line.defines = [g.name]) :
    (l.flatMap f).filterMap Line.defines = l.map Global.name := by
  induction l with
  | nil => rfl
  | cons g l ih =>
    rw [List.flatMap_cons, List.filterMap_append, h g List.mem_cons_self,
      ih fun g hg => h g (List.mem_cons_of_mem _ hg)]
    rfl

theorem names_literals (ls : List FloatLiteral) :
    (ls.flatMap FloatLiteral.lines).filterMap Line.defines = ls.map FloatLiteral.label := by
  induction ls with
  | nil => rfl
  | cons l ls ih =>
    rw [List.flatMap_cons, List.filterMap_append, ih, FloatLiteral.lines]
    cases l.value.val <;> simp [Line.defines, List.filterMap_cons]

/-- The symbols that the lines define. -/
theorem names_linesOf (h : ∀ g ∈ m.globals, ∀ c ∈ g.init, FitsType g.type c) (hz : Zeros m gs) :
    (linesOf m gs).filterMap Line.defines =
      (m.funcs.flatMap Func.lines).filterMap Line.defines ++
        (placed true false gs ++ placed false false gs ++ placed false true gs).map Global.name ++
        m.floatLiterals.map FloatLiteral.label := by
  have hfit : ∀ {a b g}, g ∈ placed a b gs → g.lines.filterMap Line.defines = [g.name] := by
    intro a b g hg
    refine names_lines (h g ?_)
    rw [← hz.1]
    exact List.mem_map_of_mem (mem_placed.mp hg).2
  have hro : (gs.any fun (g, _) => g.comptime) = false →
      (placed true false gs).flatMap Global.lines = [] := by
    intro hany
    have hnil : placed true false gs = [] := List.eq_nil_iff_forall_not_mem.mpr fun g hg => by
      obtain ⟨hc, hm⟩ := mem_placed.mp hg
      exact absurd hc (by simpa using List.any_eq_false.mp hany _ hm)
    rw [hnil]
    rfl
  have hempty : ∀ {l : List Global} {f : Global → List Line}, (!l.isEmpty) = false →
      l.flatMap f = [] := by
    intro l f hl
    have hnil : l = [] := by simpa using hl
    rw [hnil]
    rfl
  have hlit : (!m.floatLiterals.isEmpty) = false →
      m.floatLiterals.flatMap FloatLiteral.lines = [] := by
    intro hl
    have hnil : m.floatLiterals = [] := by simpa using hl
    rw [hnil]
    rfl
  have hhead : headLines.filterMap Line.defines = [] := rfl
  have hident : [Line.plain ".ident \"CACT compiler\""].filterMap Line.defines = [] := rfl
  unfold linesOf
  simp only [List.filterMap_append, names_sectionLines hro, names_sectionLines hempty,
    names_sectionLines hlit, hhead, hident, names_literals, names_flatMap fun g hg => hfit hg,
    List.map_append, List.append_nil, List.nil_append, List.append_assoc]
  rw [names_flatMap fun g _ => by simp [Global.bssLines, Line.defines, List.filterMap_cons]]

theorem placed_cons (a b : Bool) (g : Global) (z : Bool) (gs : List (Global × Bool)) :
    placed a b ((g, z) :: gs) =
      if g.comptime = a ∧ z = b then g :: placed a b gs else placed a b gs := by
  by_cases h : g.comptime = a ∧ z = b
  · simp [placed, h]
  · rw [if_neg h]
    simp only [placed, List.filter_cons]
    rw [if_neg (by simpa using h)]

theorem count_placed_le (name : String) (gs : List (Global × Bool)) :
    ((placed true false gs ++ placed false false gs ++ placed false true gs).map Global.name).count
      name ≤ ((gs.map Prod.fst).map Global.name).count name := by
  induction gs with
  | nil => simp [placed]
  | cons p gs ih =>
    obtain ⟨g, z⟩ := p
    simp only [List.map_append, List.count_append] at ih
    simp only [placed_cons, List.map_append, List.count_append, List.map_cons, List.count_cons]
    -- a global goes to at most one of the three sections
    cases g.comptime <;> cases z <;>
      simp only [and_true, and_false, Bool.false_eq_true, Bool.true_eq_false, if_true, if_false,
        List.map_cons, List.count_cons] <;> omega

/-- The lines of a global stand in its section. -/
theorem infix_linesOf {g : Global} {comptime : Bool} (h : g ∈ placed comptime false gs) :
    g.lines <:+: linesOf m gs := by
  obtain ⟨hc, hm⟩ := mem_placed.mp h
  have hin : ∀ {l : List Global}, g ∈ l → g.lines <:+: l.flatMap Global.lines := by
    intro l hl
    obtain ⟨as, bs, rfl⟩ := List.append_of_mem hl
    exact ⟨as.flatMap Global.lines, bs.flatMap Global.lines, by simp⟩
  unfold linesOf
  cases comptime with
  | true =>
    have hused : (gs.any fun (g, _) => g.comptime) = true := List.any_eq_true.mpr ⟨_, hm, hc⟩
    exact infix_left (infix_left (infix_left (infix_left (infix_right
      (infix_sectionLines (hin h) hused)))))
  | false =>
    have hused : (!(placed false false gs).isEmpty) = true := by
      simpa using List.ne_nil_of_mem h
    exact infix_left (infix_left (infix_left (infix_right (infix_sectionLines (hin h) hused))))

theorem bss_infix_linesOf {g : Global} (h : g ∈ placed false true gs) :
    g.bssLines <:+: linesOf m gs := by
  have hin : g.bssLines <:+: (placed false true gs).flatMap Global.bssLines := by
    obtain ⟨as, bs, heq⟩ := List.append_of_mem h
    exact ⟨as.flatMap Global.bssLines, bs.flatMap Global.bssLines, by simp [heq]⟩
  have hused : (!(placed false true gs).isEmpty) = true := by simpa using List.ne_nil_of_mem h
  exact infix_left (infix_left (infix_right (infix_sectionLines hin hused)))

/-- The symbols of a module are defined once at most. -/
theorem count_names_le (h : ∀ g ∈ m.globals, ∀ c ∈ g.init, FitsType g.type c) (hz : Zeros m gs)
    (hnd : m.symbols.Nodup) (name : String) :
    ((linesOf m gs).filterMap Line.defines).count name ≤ 1 := by
  refine le_trans ?_ (List.nodup_iff_count_le_one.mp hnd name)
  have hle := count_placed_le name gs
  rw [hz.1] at hle
  rw [names_linesOf h hz, Module.symbols]
  simp only [List.count_append]
  omega

variable {enc : Inst → List (BitVec 8)} {g : Global}

/-- A symbol with the name of a global is the definition of the global. -/
theorem defines_iff (h : ∀ g ∈ m.globals, ∀ c ∈ g.init, FitsType g.type c) (hz : Zeros m gs)
    (hnd : m.symbols.Nodup) {bs : List (BitVec 8)} (hlen : bs.length = g.type.sizeOf)
    (hd : ∃ d, d.name = g.name ∧ (assemble enc .empty (linesOf m gs)).HasContents d bs) :
    (assemble enc .empty (linesOf m gs)).Defines g ↔ g.image = bs := by
  obtain ⟨d, hname, hcont⟩ := hd
  have hfilter : (assemble enc .empty (linesOf m gs)).defs.filter (fun e => e.name == g.name) =
      [d] := by
    rw [← hname]
    refine filter_eq_singleton hcont.1 ?_
    rw [assemble_names]
    exact count_names_le h hz hnd d.name
  have hget := hcont.contents
  rw [hlen] at hget
  constructor
  · rintro ⟨d', hd', himg⟩
    rw [hfilter] at hd'
    cases hd'
    rw [← himg, hget]
  · rintro himg
    exact ⟨d, hfilter, by rw [hget, himg]⟩

/-- A constant that is zero is nowhere. -/
theorem not_defines (h : ∀ g ∈ m.globals, ∀ c ∈ g.init, FitsType g.type c) (hz : Zeros m gs)
    (hnd : m.symbols.Nodup) (hg : (g, true) ∈ gs) (hc : g.comptime = true) :
    ¬(assemble enc .empty (linesOf m gs)).Defines g := by
  rintro ⟨d, hd, -⟩
  obtain ⟨hmem, hname⟩ := List.mem_filter.mp
    (show d ∈ (assemble enc .empty (linesOf m gs)).defs.filter _ from hd ▸ List.mem_cons_self)
  have hin := List.mem_map_of_mem (f := Symbol.name) hmem
  rw [assemble_names, beq_iff_eq.mp hname, names_linesOf h hz] at hin
  have hgm : g.name ∈ m.globals.map Global.name := by
    rw [← hz.1]
    exact List.mem_map_of_mem (List.mem_map_of_mem hg)
  obtain ⟨hleft, -, hdisj⟩ := List.nodup_append.mp hnd
  obtain ⟨-, hnames, htext⟩ := List.nodup_append.mp hleft
  simp only [Object.empty, List.map_nil, List.nil_append, List.mem_append] at hin
  rcases hin with (htxt | hmem) | hlit
  · exact htext _ htxt _ hgm rfl
  · -- another global of the same name would be this one, which is in no section
    obtain ⟨g', hg', heq⟩ := List.mem_map.mp hmem
    have hsec : ∃ a b, g' ∈ placed a b gs ∧ ¬(a = true ∧ b = true) := by
      rcases List.mem_append.mp hg' with hg' | hg'
      · rcases List.mem_append.mp hg' with hg' | hg'
        · exact ⟨true, false, hg', by simp⟩
        · exact ⟨false, false, hg', by simp⟩
      · exact ⟨false, true, hg', by simp⟩
    obtain ⟨a, b, hpl, hab⟩ := hsec
    obtain ⟨hca, hgs⟩ := mem_placed.mp hpl
    have hsame : g' = g := List.inj_on_of_nodup_map hnames
      (hz.1 ▸ List.mem_map_of_mem hgs) (hz.1 ▸ List.mem_map_of_mem hg) heq
    subst hsame
    have hb : b = true := by
      have h₁ := hz.2 _ hgs
      rw [hz.2 _ hg] at h₁
      exact (Except.ok.inj h₁).symm
    exact hab ⟨hca ▸ hc, hb⟩
  · exact hdisj _ (List.mem_append_right _ hgm) _ hlit rfl

end Lines

/-! ## When every global is defined -/

/-- The text defines every global of the module exactly once, in full and with its
contents, if and only if every global that `is_zero_init` is a variable whose bytes are
all zero: a constant that is zero goes to no section, and a floating-point zero with
a sign loses it in `.bss`. -/
theorem Module.globals_defined_iff (enc : Inst → List (BitVec 8)) (m : Module)
    (hfit : ∀ g ∈ m.globals, ∀ c ∈ g.init, FitsType g.type c) (hnd : m.symbols.Nodup) :
    (∃ lines, m.lines = .ok lines ∧ ∀ g ∈ m.globals, (assemble enc .empty lines).Defines g) ↔
      ∀ g ∈ m.globals, g.isZeroInit = .ok true →
        g.comptime = false ∧ g.image = List.replicate g.type.sizeOf 0 := by
  obtain ⟨gs, hz, hlines⟩ := exists_zeros hfit
  have hgs : ∀ g ∈ m.globals, ∃ z, (g, z) ∈ gs ∧ g.isZeroInit = .ok z := by
    intro g hg
    rw [← hz.1] at hg
    obtain ⟨⟨g', z⟩, hm, rfl⟩ := List.mem_map.mp hg
    exact ⟨z, hm, hz.2 _ hm⟩
  have hbss : ∀ g, (g, true) ∈ gs → g.comptime = false →
      ((assemble enc .empty (linesOf m gs)).Defines g ↔
        g.image = List.replicate g.type.sizeOf 0) := fun g hg hc =>
    defines_iff hfit hz hnd List.length_replicate
      (hasContents_of_slice (bssLines_hasContents g) (bss_infix_linesOf (mem_placed.mpr ⟨hc, hg⟩)))
  constructor
  · rintro ⟨lines, hl, hdef⟩ g hg hzero
    rw [hlines] at hl
    cases hl
    obtain ⟨z, hm, hgz⟩ := hgs g hg
    rw [hzero] at hgz
    cases hgz
    cases hc : g.comptime with
    | true => exact absurd (hdef g hg) (not_defines hfit hz hnd hm hc)
    | false => exact ⟨rfl, (hbss g hm hc).mp (hdef g hg)⟩
  · intro hcond
    refine ⟨_, hlines, fun g hg => ?_⟩
    obtain ⟨z, hm, hgz⟩ := hgs g hg
    cases z with
    | true => exact (hbss g hm (hcond g hg hgz).1).mpr (hcond g hg hgz).2
    | false =>
      cases hinit : g.init with
      | none => simp [Global.isZeroInit, hinit] at hgz
      | some c =>
        exact (defines_iff hfit hz hnd (length_image (hfit g hg))
          (hasContents_of_slice (lines_hasContents (hfit g hg) hinit)
            (infix_linesOf (mem_placed.mpr ⟨rfl, hm⟩)))).mpr rfl

/-- `int count = 0; const bool flags[2] = {true, false};` -/
def countAndFlags : Module where
  globals := [
    ⟨"count_0", .int32, some (.ofInt 0), false⟩,
    ⟨"flags_0", .array .int1 2, some ⟨.array .int1 2, .bytes [1, 0]⟩, true⟩]
  funcs := []
  floatLiterals := []

theorem countAndFlags_defined : ∃ lines, countAndFlags.lines = .ok lines ∧
    ∀ g ∈ countAndFlags.globals, (assemble (fun _ => []) .empty lines).Defines g := by
  refine (Module.globals_defined_iff _ countAndFlags ?_ (by decide)).mpr ?_
  · intro g hg c hc
    rcases List.mem_cons.mp hg with rfl | hg
    · cases hc
      exact .int 0
    · rw [List.mem_singleton.mp hg] at hc ⊢
      cases hc
      exact .array (p := .int1) rfl rfl rfl (by decide)
  · decide

/-- `const int zeros[2] = {0, 0};` -/
def constantZeros : Module where
  globals := [⟨"zeros_0", .array .int32 2,
    some ⟨.array .int32 2, .bytes [0, 0, 0, 0, 0, 0, 0, 0]⟩, true⟩]
  funcs := []
  floatLiterals := []

/-- The constant is in no section, so that a reference to it has no definition. -/
theorem constantZeros_undefined :
    (∀ g ∈ constantZeros.globals, ∀ c ∈ g.init, FitsType g.type c) ∧ constantZeros.symbols.Nodup ∧
      ¬∃ lines, constantZeros.lines = .ok lines ∧
        ∀ g ∈ constantZeros.globals, (assemble (fun _ => []) .empty lines).Defines g := by
  refine ⟨fun g hg c hc => ?_, by decide, ?_⟩
  · rw [List.mem_singleton.mp hg] at hc ⊢
    cases hc
    exact .array (p := .int32) rfl rfl rfl (by decide)
  · rintro ⟨lines, hl, hdef⟩
    have hlines : constantZeros.lines = .ok (headLines ++
        [.section .rodata, .plain ".ident \"CACT compiler\""]) := by decide
    rw [hlines] at hl
    cases hl
    obtain ⟨d, hd, -⟩ := hdef _ List.mem_cons_self
    revert hd
    simp [headLines, Object.line, Object.pad, Object.emit, Object.empty]

end Rv64
end Cact
