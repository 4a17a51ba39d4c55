import Cact.Lib.Intervals
import Cact.Lib.StdMap
import Cact.Rv64.StackSlots

/-!
# The layout of frames and globals (`rv64/isel.hpp`, `rv64/vm/exec.cpp`)

`compute_frame` and `place_globals` hand out addresses by moving an offset forward. Both
round it up to the size of the next object, which need not be a power of two, and count
in 64 bits.

- `le_alignUp`, `alignUp_lt`, `dvd_alignUp`: what rounding up does.
- `FrameLaid`, `GlobalsLaid`: the objects are apart, inside and aligned.
- `computeFrame_laid`, `placeGlobals_laid`: they are laid out so, unless the offset wraps.
-/

namespace Cact

namespace Rv64

open Ir (Ty Alloc AllocId Fault)
open Intervals (Interval)

/-! ## Rounding up -/

section Align

variable {x align e : Nat}

/-- The bits of a mask and the others. -/
theorem toNat_and_not_add (y m : Word) : (y &&& ~~~m).toNat + (y &&& m).toNat = y.toNat := by
  have hapart : y &&& ~~~m &&& (y &&& m) = 0#64 := by
    rw [BitVec.and_comm y m, BitVec.and_assoc, ← BitVec.and_assoc (~~~m), BitVec.not_and_self]
    simp
  have hall : y &&& ~~~m ||| y &&& m = y := by
    rw [← BitVec.and_or_distrib_left, BitVec.not_or_self, BitVec.and_allOnes]
  calc (y &&& ~~~m).toNat + (y &&& m).toNat
      = (y &&& ~~~m ||| y &&& m).toNat := by
        rw [← BitVec.add_eq_or_of_and_eq_zero _ _ hapart, BitVec.toNat_add_of_and_eq_zero hapart]
    _ = y.toNat := by rw [hall]

theorem toNat_pred (hpos : 0 < align) (h : align ≤ 2 ^ 64) :
    (BitVec.ofNat 64 align - 1).toNat = align - 1 := by
  rw [BitVec.toNat_sub, BitVec.toNat_ofNat]
  show (2 ^ 64 - 1 + align % 2 ^ 64) % 2 ^ 64 = align - 1
  omega

theorem toNat_bumped (hpos : 0 < align) (h : x + align ≤ 2 ^ 64) :
    (BitVec.ofNat 64 x + BitVec.ofNat 64 align - 1).toNat = x + align - 1 := by
  rw [← BitVec.ofNat_add]
  exact toNat_pred (by omega) h

/-- Rounding up takes away the bits below the alignment. -/
theorem alignUp_add (hpos : 0 < align) (h : x + align ≤ 2 ^ 64) :
    ∃ low ≤ align - 1, alignUp x align + low = x + align - 1 := by
  refine ⟨_, ?_, (toNat_and_not_add _ _).trans (toNat_bumped hpos h)⟩
  rw [BitVec.toNat_and]
  exact Nat.and_le_right.trans (toNat_pred hpos (by omega)).le

theorem le_alignUp (hpos : 0 < align) (h : x + align ≤ 2 ^ 64) : x ≤ alignUp x align := by
  obtain ⟨low, hlow, hsum⟩ := alignUp_add hpos h
  omega

theorem alignUp_lt (hpos : 0 < align) (h : x + align ≤ 2 ^ 64) : alignUp x align < x + align := by
  obtain ⟨low, hlow, hsum⟩ := alignUp_add hpos h
  omega

/-- A power of two that divides the alignment divides the rounded offset. -/
theorem dvd_alignUp {k : Nat} (hpos : 0 < align) (hle : align ≤ 2 ^ 64)
    (hdvd : 2 ^ k ∣ align) : 2 ^ k ∣ alignUp x align := by
  -- the mask has all bits below the power
  have hbits : ∀ i < k, (align - 1).testBit i = true := by
    intro i hi
    obtain ⟨c, rfl⟩ := hdvd
    have hc : 0 < c := Nat.pos_of_mul_pos_left hpos
    obtain ⟨c, rfl⟩ : ∃ d, c = d + 1 := ⟨c - 1, by omega⟩
    have hsplit : 2 ^ k * (c + 1) - 1 = 2 ^ k * c + (2 ^ k - 1) := by
      have := Nat.two_pow_pos k
      rw [Nat.mul_add]
      omega
    rw [hsplit, Nat.testBit_two_pow_mul_add _ (by have := Nat.two_pow_pos k; omega), if_pos hi,
      Nat.testBit_two_pow_sub_one]
    exact decide_eq_true hi
  refine Nat.dvd_of_mod_eq_zero (Nat.eq_of_testBit_eq fun i => ?_)
  rw [Nat.testBit_mod_two_pow, Nat.zero_testBit]
  by_cases hi : i < k
  · have hmask : (BitVec.ofNat 64 align - 1).getLsbD i = true := by
      rw [← BitVec.testBit_toNat, toNat_pred hpos hle]
      exact hbits i hi
    rw [alignUp, BitVec.testBit_toNat, BitVec.getLsbD_and, BitVec.getLsbD_not, hmask]
    simp
  · simp [hi]

end Align

/-- The size of the elements of a type is a power of two that divides the size. -/
theorem size_flatElem : ∀ {t : Ty} {sz : Nat}, size t = .ok sz → 0 < sz →
    ∃ k, size t.flatElem = .ok (2 ^ k) ∧ 2 ^ k ∣ sz
  | .array elem n, sz, h, hpos => by
    rw [size] at h
    obtain ⟨esz, helem, rfl⟩ := map_eq_ok h
    obtain ⟨k, hk, hdvd⟩ := size_flatElem helem (Nat.pos_of_mul_pos_right hpos)
    exact ⟨k, hk, hdvd.mul_right n⟩
  | .prim p, sz, h, _ => by
    cases p with
    | int1 =>
      cases h
      exact ⟨0, rfl, dvd_rfl⟩
    | int32 | float32 =>
      cases h
      exact ⟨2, rfl, dvd_rfl⟩
    | int | float | float64 =>
      cases h
      exact ⟨3, rfl, dvd_rfl⟩
  | .reference _ _ _, sz, h, _ => by
    cases h
    exact ⟨3, rfl, dvd_rfl⟩
  | .product .nil, sz, h, hpos => by
    cases h
    exact absurd hpos (Nat.lt_irrefl 0)
  | .product (.cons _ _), _, h, _ => by cases h
  | .sum _, _, h, _ => by cases h
  | .func _ _, _, h, _ => by cases h
  | .top, _, h, _ => by cases h
  | .bottom, _, h, _ => by cases h

/-- The size of an object; 0 for a type without size. -/
def objectSize (t : Ty) : Nat :=
  match size t with
  | .ok n => n
  | .error _ => 0

/-- Room enough for objects of these types, with what rounding up adds. -/
def roundedSize (types : List Ty) : Nat := (types.map fun t => 2 * objectSize t).sum

/-- The interval holds an object of the type, and unless it is empty its start is a
multiple of the size of an element. -/
structure Holds (t : Ty) (i : Interval) : Prop where
  size : size t = .ok i.size
  aligned : 0 < i.size → ∃ e, Rv64.size t.flatElem = .ok e ∧ e ∣ i.start

/-- One step of both allocators. -/
theorem holds_alignTo {t : Ty} {sz x : Nat} (h : size t = .ok sz) (hfit : x + 2 * sz ≤ 2 ^ 64) :
    x ≤ Isel.alignTo x sz ∧ Isel.alignTo x sz + sz ≤ x + 2 * sz ∧
      Holds t ⟨Isel.alignTo x sz, sz⟩ := by
  unfold Isel.alignTo
  by_cases hsz : sz > 1
  · rw [if_pos hsz]
    have hle : x ≤ alignUp x sz := le_alignUp (by omega) (by omega)
    have hlt : alignUp x sz < x + sz := alignUp_lt (by omega) (by omega)
    refine ⟨hle, by omega, h, fun hpos => ?_⟩
    obtain ⟨k, hk, hdvd⟩ := size_flatElem h hpos
    exact ⟨2 ^ k, hk, dvd_alignUp hpos (by omega) hdvd⟩
  · rw [if_neg hsz]
    refine ⟨Nat.le_refl x, by omega, h, fun hpos => ?_⟩
    obtain ⟨k, hk, hdvd⟩ := size_flatElem h hpos
    have hone : sz = 1 := by
      change 0 < sz at hpos
      omega
    rw [hone] at hdvd
    exact ⟨2 ^ k, hk, hdvd.trans (one_dvd x)⟩

/-! ## Frames -/

namespace Isel

section Frame

/-- The allocations that live in memory. -/
def memoryAllocs (allocs : List Alloc) : List Alloc := allocs.filter Alloc.reference

variable {f : Ir.Func} {frame : FrameLayout} {locals params : List Alloc} {offset last : Nat}
  {slots : List (AllocId × Nat)} {a : Alloc}

theorem memoryAllocs_cons_pos (ha : a.reference = true) :
    memoryAllocs (a :: locals) = a :: memoryAllocs locals :=
  List.filter_cons_of_pos ha

theorem memoryAllocs_cons_neg (ha : ¬a.reference = true) :
    memoryAllocs (a :: locals) = memoryAllocs locals :=
  List.filter_cons_of_neg ha

/-- The slots of the locals, in a row. -/
theorem placeLocals_laid (h : placeLocals locals offset = .ok (slots, last))
    (hfit : offset + roundedSize ((memoryAllocs locals).map Alloc.type) ≤ 2 ^ 64) :
    ∃ is, slots.map Prod.fst = (memoryAllocs locals).map Alloc.id ∧
      List.Forall₂ (fun a i => (a.id, i.start) ∈ slots ∧ Holds a.type i) (memoryAllocs locals) is ∧
      Intervals.Laid offset is last ∧
      last ≤ offset + roundedSize ((memoryAllocs locals).map Alloc.type) := by
  induction locals generalizing offset last slots with
  | nil =>
    cases h
    exact ⟨[], rfl, .nil, Nat.le_refl _, Nat.le_add_right _ _⟩
  | cons a as ih =>
    rw [placeLocals] at h
    by_cases ha : a.reference = true
    · rw [if_pos ha] at h
      obtain ⟨sz, hsz, h⟩ := Except.bind_eq_ok.mp h
      obtain ⟨align, halign, h⟩ := Except.bind_eq_ok.mp h
      obtain ⟨⟨rest, last'⟩, hrest, h⟩ := Except.bind_eq_ok.mp h
      cases h
      rw [hsz] at halign
      cases halign
      rw [memoryAllocs_cons_pos ha] at hfit ⊢
      have hrounded : roundedSize ((a :: memoryAllocs as).map Alloc.type) =
          2 * sz + roundedSize ((memoryAllocs as).map Alloc.type) := by
        simp [roundedSize, objectSize, hsz]
      rw [hrounded] at hfit ⊢
      obtain ⟨hle, hstop, hholds⟩ := holds_alignTo hsz (show offset + 2 * sz ≤ 2 ^ 64 by omega)
      obtain ⟨is, hkeys, hall, hlaid, hlast⟩ := ih hrest (by omega)
      refine ⟨⟨alignTo offset sz, sz⟩ :: is, ?_, .cons ⟨List.mem_cons_self, hholds⟩ ?_,
        ⟨hle, hlaid⟩, by omega⟩
      · rw [List.map_cons, hkeys, List.map_cons]
      · exact hall.imp fun b i hb => ⟨List.mem_cons_of_mem _ hb.1, hb.2⟩
    · rw [if_neg ha] at h
      rw [memoryAllocs_cons_neg ha] at hfit ⊢
      exact ih h hfit

/-- The locals have slots if their types have sizes. -/
theorem placeLocals_isOk :
    (∃ r, placeLocals locals offset = .ok r) ↔
      ∀ a ∈ memoryAllocs locals, ∃ n, size a.type = .ok n := by
  induction locals generalizing offset with
  | nil => simp [placeLocals, memoryAllocs]
  | cons a as ih =>
    by_cases ha : a.reference = true
    · rw [placeLocals, if_pos ha, memoryAllocs_cons_pos ha, List.forall_mem_cons]
      constructor
      · rintro ⟨r, hr⟩
        obtain ⟨sz, hsz, hr⟩ := Except.bind_eq_ok.mp hr
        obtain ⟨align, -, hr⟩ := Except.bind_eq_ok.mp hr
        obtain ⟨rest, hrest, -⟩ := Except.bind_eq_ok.mp hr
        exact ⟨⟨sz, hsz⟩, ih.mp ⟨rest, hrest⟩⟩
      · rintro ⟨⟨sz, hsz⟩, hrest⟩
        obtain ⟨⟨rest, last⟩, hlast⟩ := ih.mpr hrest
        simp only [hsz, bind, Except.bind]
        rw [hlast]
        exact ⟨_, rfl⟩
    · rw [placeLocals, if_neg ha, memoryAllocs_cons_neg ha]
      exact ih

theorem alignUp_eight_eq {x : Nat} (hx : x % 8 = 0) (hfit : x + 8 ≤ 2 ^ 64) : alignUp x 8 = x := by
  have hle : x ≤ alignUp x 8 := le_alignUp (by omega) hfit
  have hlt : alignUp x 8 < x + 8 := alignUp_lt (by omega) hfit
  have hmod := (alignUp_mod_eight x).1
  omega

/-- The slots of the parameters, in a row. -/
theorem placeParams_laid (hoff : offset % 8 = 0) (hfit : offset + 8 * params.length ≤ 2 ^ 64) :
    ∃ is, (placeParams params offset).map Prod.fst = (memoryAllocs params).map Alloc.id ∧
      List.Forall₂ (fun p i => (p.id, i.start) ∈ placeParams params offset ∧ i.size = 8 ∧
        8 ∣ i.start) (memoryAllocs params) is ∧
      Intervals.Laid offset is (offset + 8 * params.length) := by
  induction params generalizing offset with
  | nil => exact ⟨[], rfl, .nil, Nat.le_refl _⟩
  | cons p ps ih =>
    rw [List.length_cons] at hfit ⊢
    by_cases hp : p.reference = true
    · obtain ⟨is, hkeys, hall, hlaid⟩ := ih (show (offset + 8) % 8 = 0 by omega) (by omega)
      rw [placeParams, if_pos hp, memoryAllocs_cons_pos hp, alignUp_eight_eq hoff (by omega)]
      refine ⟨⟨offset, 8⟩ :: is, ?_, .cons ⟨List.mem_cons_self, rfl, ?_⟩ ?_, Nat.le_refl _, ?_⟩
      · rw [List.map_cons, hkeys, List.map_cons]
      · exact Nat.dvd_of_mod_eq_zero hoff
      · exact hall.imp fun b i hb => ⟨List.mem_cons_of_mem _ hb.1, hb.2⟩
      · exact hlaid.mono (by omega)
    · obtain ⟨is, hkeys, hall, hlaid⟩ := ih hoff (by omega)
      rw [placeParams, if_neg hp, memoryAllocs_cons_neg hp]
      exact ⟨is, hkeys, hall, hlaid.mono (by omega)⟩

/-- A value that only grows along a list is at least what each element makes it. -/
theorem le_foldl_of_mem {α : Type} {g : Nat → α → Nat} (hgrows : ∀ n x, n ≤ g n x) {x : α} {m : Nat}
    (hx : ∀ n, m ≤ g n x) {l : List α} (hmem : x ∈ l) (n : Nat) : m ≤ l.foldl g n := by
  have hfold : ∀ (l : List α) (n : Nat), n ≤ l.foldl g n := by
    intro l
    induction l with
    | nil => exact fun n => Nat.le_refl n
    | cons y ys ih => exact fun n => (hgrows n y).trans (ih (g n y))
  induction l generalizing n with
  | nil => cases hmem
  | cons y ys ih =>
    rcases List.mem_cons.mp hmem with rfl | hys
    · exact (hx n).trans (hfold ys _)
    · exact ih hys _

theorem le_outgoingArgArea {b : Ir.Block} {c : Ir.CallInst} (hb : b ∈ f.blocks)
    (hc : Ir.Inst.call c ∈ b.insts) : c.args.length * 8 ≤ outgoingArgArea f := by
  refine le_foldl_of_mem (fun n i => ?_) (x := Ir.Inst.call c) (fun n => Nat.le_max_right _ _)
    (List.mem_flatMap.mpr ⟨b, hb, hc⟩) 0
  cases i with
  | call _ => exact Nat.le_max_left _ _
  | _ => exact Nat.le_refl n

/-- The layout of a frame: an interval for each local in memory and for each parameter in
memory. A parameter's slot lies behind the frame, where the caller has left eight bytes for
each argument. -/
structure FrameLaid (f : Ir.Func) (frame : FrameLayout) (locals params : List Interval) : Prop where
  total_mod : frame.totalSize % 16 = 0
  /-- no call of the function stores an argument behind the outgoing area -/
  outgoing : ∀ b ∈ f.blocks, ∀ c, Ir.Inst.call c ∈ b.insts → c.args.length * 8 ≤ outgoingArgArea f
  locals_hold : List.Forall₂ (fun a i => frame.spillOffsets.lookup a.id = some i.start ∧
    Holds a.type i) (memoryAllocs f.locals) locals
  locals_mem : ∀ i ∈ locals, outgoingArgArea f ≤ i.start ∧ i.stop ≤ frame.totalSize
  params_hold : List.Forall₂ (fun p i => frame.spillOffsets.lookup p.id = some i.start ∧
    i.size = 8 ∧ 8 ∣ i.start) (memoryAllocs f.params) params
  params_mem : ∀ i ∈ params,
    frame.totalSize ≤ i.start ∧ i.stop ≤ frame.totalSize + 8 * f.params.length
  disjoint : (locals ++ params).Pairwise fun i j => Disjoint i.elems j.elems

/-- The frame, and the slots of the parameters behind it, end below the top of the address
space. -/
def FrameFits (f : Ir.Func) : Prop :=
  outgoingArgArea f + roundedSize ((memoryAllocs f.locals).map Alloc.type) + 16 +
    8 * f.params.length ≤ 2 ^ 64

theorem memoryAllocs_ids_nodup {allocs : List Alloc} (h : (allocs.map Alloc.id).Nodup) :
    ((memoryAllocs allocs).map Alloc.id).Nodup :=
  h.sublist (List.filter_sublist.map _)

/-- The frame of a function is laid out. -/
theorem computeFrame_laid (hframe : computeFrame f = .ok frame)
    (hids : ((f.locals ++ f.params).map Alloc.id).Nodup) (hfit : FrameFits f) :
    ∃ locals params, FrameLaid f frame locals params := by
  obtain ⟨⟨slots, last⟩, hplaced, hrest⟩ := Except.bind_eq_ok.mp hframe
  cases hrest
  unfold FrameFits at hfit
  obtain ⟨locals, hkeys, hlocals, hlaid, hlast⟩ := placeLocals_laid hplaced (by omega)
  -- the frame ends at the next multiple of 16
  have htotal : last ≤ alignTo last 16 ∧ alignTo last 16 < last + 16 := by
    rw [alignTo, if_pos (by decide)]
    exact ⟨le_alignUp (by decide) (by omega), alignUp_lt (by decide) (by omega)⟩
  have hmod : 16 ∣ alignTo last 16 := by
    rw [alignTo, if_pos (by decide)]
    exact @dvd_alignUp last 16 4 (by decide) (by decide) dvd_rfl
  obtain ⟨params, hkeys', hparams, hlaid'⟩ :=
    @placeParams_laid f.params (alignTo last 16) (by omega) (by omega)
  have hnodup : ((slots ++ placeParams f.params (alignTo last 16)).map Prod.fst).Nodup := by
    rw [List.map_append, hkeys, hkeys', ← List.map_append, memoryAllocs, memoryAllocs,
      ← List.filter_append]
    exact memoryAllocs_ids_nodup hids
  refine ⟨locals, params, ⟨Nat.mod_eq_zero_of_dvd hmod, ?_, ?_, ?_, ?_, ?_, ?_⟩⟩
  · exact fun b hb c hc => le_outgoingArgArea hb hc
  · exact hlocals.imp fun a i h =>
      ⟨lookup_of_mem hnodup (List.mem_append_left _ h.1), h.2⟩
  · intro i hi
    obtain ⟨hlow, hhigh⟩ := hlaid.mem hi
    exact ⟨hlow, hhigh.trans htotal.1⟩
  · exact hparams.imp fun p i h =>
      ⟨lookup_of_mem hnodup (List.mem_append_right _ h.1), h.2⟩
  · exact fun i hi => hlaid'.mem hi
  · exact ((hlaid.mono htotal.1).append hlaid').pairwise_disjoint

theorem computeFrame_isOk :
    (∃ frame, computeFrame f = .ok frame) ↔
      ∀ a ∈ memoryAllocs f.locals, ∃ n, size a.type = .ok n := by
  rw [← placeLocals_isOk]
  constructor
  · rintro ⟨frame, hframe⟩
    obtain ⟨r, hr, -⟩ := Except.bind_eq_ok.mp hframe
    exact ⟨r, hr⟩
  · rintro ⟨⟨slots, last⟩, hr⟩
    exact ⟨_, Except.bind_eq_ok.mpr ⟨_, hr, rfl⟩⟩

end Frame

end Isel

/-! ## Globals -/

section Globals

variable {globals : List Global} {literals : List FloatLiteral} {p p' : Placement}

/-- The bytes of a literal. -/
def literalSize (lit : FloatLiteral) : Nat :=
  match lit.value.val with
  | .float _ => 4
  | _ => 8

theorem placeGlobal_eq {g : Global} (h : placeGlobal p g = .ok p') :
    ∃ sz, size g.type = .ok sz ∧ p'.symbols = p.symbols ++ [(g.name, Isel.alignTo p.offset sz)] ∧
      p'.offset = Isel.alignTo p.offset sz + sz := by
  obtain ⟨sz, hsz, h⟩ := Except.bind_eq_ok.mp h
  refine ⟨sz, hsz, ?_⟩
  dsimp only at h
  -- whatever is stored
  split at h
  case h_8 buf _ =>
    by_cases hmem : memSize < Isel.alignTo p.offset sz + sz
    · rw [if_pos (by exact hmem)] at h
      cases h
    · rw [if_neg (by exact hmem)] at h
      cases h
      exact ⟨rfl, rfl⟩
  all_goals
    obtain ⟨mem, -, h⟩ := Except.bind_eq_ok.mp h
    cases h
    exact ⟨rfl, rfl⟩

theorem placeLiteral_eq {lit : FloatLiteral} (h : placeLiteral p lit = .ok p') :
    p'.symbols = p.symbols ++ [(lit.label, alignUp p.offset 8)] ∧
      p'.offset = alignUp p.offset 8 + literalSize lit := by
  unfold placeLiteral at h
  unfold literalSize
  cases hval : lit.value.val <;> rw [hval] at h
  case float v | double v =>
    obtain ⟨mem, -, h⟩ := Except.bind_eq_ok.mp h
    cases h
    exact ⟨rfl, rfl⟩
  all_goals
    cases h
    exact ⟨rfl, rfl⟩

/-- The globals, in a row. -/
theorem foldlM_placeGlobal_laid (h : globals.foldlM placeGlobal p = .ok p')
    (hfit : p.offset + roundedSize (globals.map Global.type) ≤ 2 ^ 64) :
    ∃ is, p'.symbols = p.symbols ++ List.zip (globals.map Global.name) (is.map Interval.start) ∧
      List.Forall₂ (fun g i => Holds g.type i) globals is ∧ Intervals.Laid p.offset is p'.offset ∧
      p'.offset ≤ p.offset + roundedSize (globals.map Global.type) := by
  induction globals generalizing p with
  | nil =>
    cases h
    exact ⟨[], (List.append_nil _).symm, .nil, Nat.le_refl _, Nat.le_add_right _ _⟩
  | cons g gs ih =>
    rw [List.foldlM_cons] at h
    obtain ⟨p₁, h₁, h⟩ := Except.bind_eq_ok.mp h
    obtain ⟨sz, hsz, hsymbols, hoffset⟩ := placeGlobal_eq h₁
    have hrounded : roundedSize ((g :: gs).map Global.type) =
        2 * sz + roundedSize (gs.map Global.type) := by
      simp [roundedSize, objectSize, hsz]
    rw [hrounded] at hfit ⊢
    obtain ⟨hle, hstop, hholds⟩ := holds_alignTo hsz (show p.offset + 2 * sz ≤ 2 ^ 64 by omega)
    obtain ⟨is, hsyms, hall, hlaid, hlast⟩ := ih h (by omega)
    refine ⟨⟨Isel.alignTo p.offset sz, sz⟩ :: is, ?_, .cons hholds hall, ⟨hle, ?_⟩, by omega⟩
    · rw [hsyms, hsymbols, List.append_assoc]
      rfl
    · rw [hoffset] at hlaid
      exact hlaid

/-- The literals, in a row. -/
theorem foldlM_placeLiteral_laid (h : literals.foldlM placeLiteral p = .ok p')
    (hfit : p.offset + 16 * literals.length ≤ 2 ^ 64) :
    ∃ is, p'.symbols = p.symbols ++
        List.zip (literals.map FloatLiteral.label) (is.map Interval.start) ∧
      List.Forall₂ (fun lit i => i.size = literalSize lit ∧ 8 ∣ i.start) literals is ∧
      Intervals.Laid p.offset is p'.offset := by
  induction literals generalizing p with
  | nil =>
    cases h
    exact ⟨[], (List.append_nil _).symm, .nil, Nat.le_refl _⟩
  | cons lit lits ih =>
    rw [List.foldlM_cons] at h
    obtain ⟨p₁, h₁, h⟩ := Except.bind_eq_ok.mp h
    obtain ⟨hsymbols, hoffset⟩ := placeLiteral_eq h₁
    rw [List.length_cons] at hfit
    have hsize : literalSize lit ≤ 8 := by
      unfold literalSize
      split <;> decide
    have hle : p.offset ≤ alignUp p.offset 8 := le_alignUp (by decide) (by omega)
    have hlt : alignUp p.offset 8 < p.offset + 8 := alignUp_lt (by decide) (by omega)
    obtain ⟨is, hsyms, hall, hlaid⟩ := ih h (by omega)
    refine ⟨⟨alignUp p.offset 8, literalSize lit⟩ :: is, ?_, .cons ⟨rfl, ?_⟩ hall, hle, ?_⟩
    · rw [hsyms, hsymbols, List.append_assoc]
      rfl
    · exact Nat.dvd_of_mod_eq_zero (Isel.alignUp_mod_eight p.offset).1
    · rw [hoffset] at hlaid
      exact hlaid

/-- The placement of globals and literals: an interval for each. -/
structure GlobalsLaid (globals : List Global) (literals : List FloatLiteral) (p : Placement)
    (gs ls : List Interval) : Prop where
  symbols : p.symbols = List.zip (globals.map Global.name) (gs.map Interval.start) ++
    List.zip (literals.map FloatLiteral.label) (ls.map Interval.start)
  globals_hold : List.Forall₂ (fun g i => Holds g.type i) globals gs
  literals_hold : List.Forall₂ (fun lit i => i.size = literalSize lit ∧ 8 ∣ i.start) literals ls
  mem : ∀ i ∈ gs ++ ls, globalBase ≤ i.start ∧ i.stop ≤ p.offset
  disjoint : (gs ++ ls).Pairwise fun i j => Disjoint i.elems j.elems

/-- The globals and literals end below the top of the address space. -/
def GlobalsFit (globals : List Global) (literals : List FloatLiteral) : Prop :=
  globalBase + roundedSize (globals.map Global.type) + 16 * literals.length ≤ 2 ^ 64

theorem placeGlobals_laid (h : placeGlobals globals literals = .ok p)
    (hfit : GlobalsFit globals literals) : ∃ gs ls, GlobalsLaid globals literals p gs ls := by
  obtain ⟨p₁, hglobals, hliterals⟩ := Except.bind_eq_ok.mp h
  unfold GlobalsFit at hfit
  obtain ⟨gs, hsyms, hgs, hlaid, hlast⟩ := foldlM_placeGlobal_laid hglobals (by
    show globalBase + _ ≤ _
    omega)
  change p₁.offset ≤ globalBase + _ at hlast
  obtain ⟨ls, hsyms', hls, hlaid'⟩ := foldlM_placeLiteral_laid hliterals (by omega)
  have hall := hlaid.append hlaid'
  refine ⟨gs, ls, ⟨?_, hgs, hls, fun i hi => hall.mem hi, hall.pairwise_disjoint⟩⟩
  rw [hsyms', hsyms]
  rfl

end Globals

/-! ## The layouts that the sources promise -/

section Claims

/-- The parameters that come in a register and live in memory. -/
def spilledParams (params : List Alloc) (regs : List (Option Nat)) : List Alloc :=
  ((params.zip regs).filter fun e => e.1.reference && e.2.isSome).map Prod.fst

/-- Each object of the allocations is in memory, apart from the others. -/
def Apart (types : List Ty) (is : List Interval) : Prop :=
  List.Forall₂ (fun t (i : Interval) => size t = .ok i.size ∧
    ∃ e, size t.flatElem = .ok e ∧ e ∣ i.start) types is ∧
  is.Pairwise fun i j => Disjoint i.elems j.elems

theorem Apart.cons {t : Ty} {ts : List Ty} {is : List Interval} (h : Apart (t :: ts) is) :
    ∃ start n is', is = ⟨start, n⟩ :: is' ∧ size t = .ok n ∧
      (∃ e, size t.flatElem = .ok e ∧ e ∣ start) ∧
      (∀ j ∈ is', Disjoint (Interval.elems ⟨start, n⟩) j.elems) ∧ Apart ts is' := by
  obtain ⟨hall, hdisj⟩ := h
  cases hall with
  | @cons _ i _ is' hhead htail =>
    rw [List.pairwise_cons] at hdisj
    exact ⟨i.start, i.size, is', rfl, hhead.1, hhead.2, hdisj.1, htail, hdisj.2⟩

/-- All locals and spilled parameters have slots of their own inside the frame. -/
def AllInFrame (f : Ir.Func) : Prop :=
  ∀ regs, Lowering.assignParamRegs f.params abi = .ok regs →
    ∃ frame is, Isel.computeFrame f = .ok frame ∧ frame.totalSize % 16 = 0 ∧
      (Isel.memoryAllocs f.locals ++ spilledParams f.params regs).map
        (fun a => frame.spillOffsets.lookup a.id) = is.map (fun i => some i.start) ∧
      Apart ((Isel.memoryAllocs f.locals ++ spilledParams f.params regs).map Alloc.type) is ∧
      ∀ i ∈ is, Isel.outgoingArgArea f ≤ i.start ∧ i.stop ≤ frame.totalSize

/-- All globals have bytes of their own. -/
def AllPlaced (globals : List Global) : Prop :=
  ∀ p, placeGlobals globals [] = .ok p →
    ∃ is, p.symbols.map Prod.snd = is.map Interval.start ∧ Apart (globals.map Global.type) is

/-- A function with one parameter, which is spilled. -/
def spilledParam : Ir.Func :=
  ⟨"f", .int32, [⟨0, "x", .int32, false, false, true, none, nofun⟩], [], [], [], 0, 0⟩

/-- A function without parameters, with locals of these types in memory. -/
def localsOf (types : List Ty) : Ir.Func :=
  ⟨"f", .int32, [], types.mapIdx fun k t => ⟨k, "x", t, false, false, true, none, nofun⟩, [], [], 0, 0⟩

/-- Two arrays that fill the address space. -/
def hugeTypes : List Ty := [.array .int32 (2 ^ 61), .array .int32 (2 ^ 61), .int32]

/-- An empty array behind a boolean. -/
def emptyTypes : List Ty := [.prim .int1, .array .int32 0]

theorem spilledParam_frame : Isel.computeFrame spilledParam = .ok ⟨0, [(0, 0)]⟩ := rfl

theorem hugeLocals_frame : Isel.computeFrame (localsOf hugeTypes) =
    .ok ⟨16, [(0, 0), (1, 2 ^ 63), (2, 0)]⟩ := rfl

theorem emptyLocals_frame : Isel.computeFrame (localsOf emptyTypes) =
    .ok ⟨16, [(0, 0), (1, 1)]⟩ := rfl

/-- Globals that fill the address space. -/
def hugeGlobals : List Global :=
  [⟨"a", .array .int32 (2 ^ 61), none, false⟩, ⟨"b", .int32, none, false⟩,
    ⟨"c", .array .int32 (2 ^ 61), none, false⟩]

theorem hugeGlobals_placed :
    (placeGlobals hugeGlobals []).map Placement.symbols =
      .ok [("a", 2 ^ 63), ("b", 0), ("c", 2 ^ 63)] := rfl

/-- The slot of a spilled parameter is outside the frame, an offset that wraps comes back to
the first slot, and an empty array is not aligned. -/
theorem not_allInFrame : ¬AllInFrame spilledParam ∧ ¬AllInFrame (localsOf hugeTypes) ∧
    ¬AllInFrame (localsOf emptyTypes) ∧ ¬AllPlaced hugeGlobals := by
  refine ⟨?_, ?_, ?_, ?_⟩
  · intro h
    obtain ⟨frame, is, hframe, -, -, hapart, hin⟩ := h [some 10] rfl
    rw [spilledParam_frame] at hframe
    cases hframe
    obtain ⟨start, n, is, rfl, hsize, -, -, -⟩ := Apart.cons hapart
    cases hsize
    exact absurd (hin _ List.mem_cons_self).2 (by simp [Interval.stop])
  · intro h
    obtain ⟨frame, is, hframe, -, -, hapart, hin⟩ := h [] rfl
    rw [hugeLocals_frame] at hframe
    cases hframe
    obtain ⟨start, n, is, rfl, hsize, -, -, -⟩ := Apart.cons hapart
    cases hsize
    exact absurd (hin _ List.mem_cons_self).2 (by simp [Interval.stop])
  · intro h
    obtain ⟨frame, is, hframe, -, hslots, hapart, -⟩ := h [] rfl
    rw [emptyLocals_frame] at hframe
    cases hframe
    obtain ⟨start, n, is, rfl, -, -, -, hrest⟩ := Apart.cons hapart
    obtain ⟨start', n', is, rfl, -, ⟨e, he, hdvd⟩, -, -⟩ := Apart.cons hrest
    have hslots : [some 0, some 1] = some start :: some start' :: is.map _ := hslots
    obtain ⟨hstart, -⟩ := List.cons.inj (List.cons.inj hslots).2
    cases hstart
    cases he
    exact absurd hdvd (by decide)
  · intro h
    obtain ⟨p, hp, hsymbols⟩ := map_eq_ok hugeGlobals_placed
    obtain ⟨is, hstarts, hapart⟩ := h p hp
    obtain ⟨start₁, n₁, is, rfl, hsize₁, -, hdisj, hrest⟩ := Apart.cons hapart
    obtain ⟨start₂, n₂, is, rfl, -, -, -, hrest⟩ := Apart.cons hrest
    obtain ⟨start₃, n₃, is, rfl, hsize₃, -, -, -⟩ := Apart.cons hrest
    rw [hsymbols] at hstarts
    have hstarts : [2 ^ 63, 0, 2 ^ 63] = start₁ :: start₂ :: start₃ :: is.map _ := hstarts
    rw [List.cons.injEq, List.cons.injEq, List.cons.injEq] at hstarts
    obtain ⟨rfl, -, rfl, -⟩ := hstarts
    cases hsize₁
    cases hsize₃
    -- the first and the third array start at the same address
    exact Interval.not_disjoint_of_start_eq rfl (by decide) (by decide)
      (hdisj _ (List.mem_cons_of_mem _ List.mem_cons_self))

/-- Frames, and what the machine does with globals: unless the offset wraps, everything in
memory is apart from the rest, inside and aligned. -/
theorem memory_laid :
    (∀ f : Ir.Func, (∃ frame, Isel.computeFrame f = .ok frame) ↔
      ∀ a ∈ Isel.memoryAllocs f.locals, ∃ n, size a.type = .ok n) ∧
    (∀ f frame, Isel.computeFrame f = .ok frame → ((f.locals ++ f.params).map Alloc.id).Nodup →
      Isel.FrameFits f → ∃ locals params, Isel.FrameLaid f frame locals params) ∧
    ∀ globals literals p, placeGlobals globals literals = .ok p → GlobalsFit globals literals →
      ∃ gs ls, GlobalsLaid globals literals p gs ls := by
  refine ⟨fun f => Isel.computeFrame_isOk, ?_, ?_⟩
  · exact fun f frame hframe hids hfit => Isel.computeFrame_laid hframe hids hfit
  · exact fun globals literals p hp hfit => placeGlobals_laid hp hfit

/-- A boolean and an integer. -/
def paddedTypes : List Ty := [.prim .int1, .int32]

def paddedGlobals : List Global :=
  [⟨"a", .prim .int1, none, false⟩, ⟨"b", .int32, none, false⟩]

def paddedLiterals : List FloatLiteral := [⟨"l", ⟨.prim .float64, .double 0⟩⟩]

theorem memory_laid_padded :
    (∃ locals params, Isel.FrameLaid (localsOf paddedTypes) ⟨16, [(0, 0), (1, 4)]⟩ locals params) ∧
      ∃ p, placeGlobals paddedGlobals paddedLiterals = .ok p ∧
        ∃ gs ls, GlobalsLaid paddedGlobals paddedLiterals p gs ls := by
  constructor
  · have hfit : Isel.FrameFits (localsOf paddedTypes) := by
      unfold Isel.FrameFits
      decide
    exact memory_laid.2.1 (localsOf paddedTypes) _ rfl (by decide) hfit
  · have hfit : GlobalsFit paddedGlobals paddedLiterals := by
      unfold GlobalsFit
      decide
    refine ⟨_, rfl, ?_⟩
    exact memory_laid.2.2 paddedGlobals paddedLiterals _ rfl hfit

end Claims

end Rv64
end Cact
