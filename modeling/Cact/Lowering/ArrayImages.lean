import Cact.Lowering.ArrayInit

/-!
# The images of array initialisers

Every array constant of a program that is not all zeros gets an image, a global with a
name of its own to copy from. The counter in the name starts anew in every block.

- `symbols`: the names of the images, in the order they are made.
- `SymbolsApart`: when no name is given twice.
- `Exact`: the pass leaves the bytes of every array, and every image has its own name.
- `array_init_iff`: when that is so.
-/

namespace Cact

namespace Lowering

open Ir Ir.Vm

namespace ArrayInitLowering

/-! ## Names -/

section Names

variable {f g : String} {i j : Nat}

theorem symbol_toList (f : String) (i : Nat) :
    (symbol f i).toList = "__init_".toList ++ (f.toList ++ '_' :: Nat.toDigits 10 i) := by
  have hdigits : (toString i).toList = Nat.toDigits 10 i := by
    rw [Nat.toString_eq_repr, Nat.toList_repr]
  unfold symbol
  rw [String.toList_append, String.toList_append, String.toList_append, hdigits]
  simp

/-- The counter stands behind the last underscore. -/
theorem symbol_inj (h : symbol f i = symbol g j) : f = g ∧ i = j := by
  have hlist := congrArg String.toList h
  rw [symbol_toList, symbol_toList] at hlist
  have hrest := List.append_cancel_left hlist
  have hrev := congrArg List.reverse hrest
  have hsplit : ∀ (s : String) (k : Nat), (s.toList ++ '_' :: Nat.toDigits 10 k).reverse =
      (Nat.toDigits 10 k).reverse ++ '_' :: s.toList.reverse := by
    intro s k
    simp
  have htake : ∀ (s : String) (k : Nat), ((Nat.toDigits 10 k).reverse ++ '_' :: s.toList.reverse).takeWhile
      (· != '_') = (Nat.toDigits 10 k).reverse := by
    intro s k
    rw [List.takeWhile_append_of_pos]
    · simp
    · intro c hc
      rw [bne_iff_ne]
      rintro rfl
      exact Nat.underscore_not_in_toDigits (List.mem_reverse.1 hc)
  rw [hsplit, hsplit] at hrev
  have hdigits := congrArg (List.takeWhile (· != '_')) hrev
  rw [htake, htake] at hdigits
  have hij : i = j := by
    have hd := List.reverse_injective hdigits
    rw [← Nat.ofDigitChars_ten_toDigits (n := i), hd, Nat.ofDigitChars_ten_toDigits]
  subst hij
  have hnames := List.append_cancel_right hrest
  exact ⟨String.toList_injective hnames, rfl⟩

/-- The names that the images of blocks get: a block is a function and a number of images. -/
def namesOf (blocks : List (String × Nat)) : List String :=
  blocks.flatMap fun b => (List.range b.2).map (symbol b.1)

theorem mem_namesOf {s : String} {blocks : List (String × Nat)} :
    s ∈ namesOf blocks ↔ ∃ b ∈ blocks, ∃ k < b.2, symbol b.1 k = s := by
  simp [namesOf, List.mem_flatMap, List.mem_map, List.mem_range]

/-- No name is given twice if and only if no two blocks of one function have images. -/
theorem nodup_namesOf (blocks : List (String × Nat)) :
    (namesOf blocks).Nodup ↔ ((blocks.filter fun b => b.2 != 0).map Prod.fst).Nodup := by
  induction blocks with
  | nil => simp [namesOf]
  | cons b blocks ih =>
    have hhead : ((List.range b.2).map (symbol b.1)).Nodup :=
      List.nodup_range.map fun i j h => (symbol_inj h).2
    have hcons : namesOf (b :: blocks) = (List.range b.2).map (symbol b.1) ++ namesOf blocks := rfl
    rw [hcons, List.nodup_append, ih, List.filter_cons]
    by_cases hzero : b.2 = 0
    · simp [hzero]
    · rw [if_pos (by simpa using hzero), List.map_cons, List.nodup_cons]
      constructor
      · rintro ⟨-, hrest, hapart⟩
        refine ⟨fun hmem => ?_, hrest⟩
        obtain ⟨c, hc, hcb⟩ := List.mem_map.1 hmem
        obtain ⟨hc, hcne⟩ := List.mem_filter.1 hc
        -- both blocks make an image at the counter zero
        have hmine : symbol b.1 0 ∈ (List.range b.2).map (symbol b.1) :=
          List.mem_map_of_mem (List.mem_range.2 (Nat.pos_of_ne_zero hzero))
        have hother : symbol b.1 0 ∈ namesOf blocks := by
          have hpos : 0 < c.2 := Nat.pos_of_ne_zero (by simpa using hcne)
          exact mem_namesOf.2 ⟨c, hc, 0, hpos, by rw [hcb]⟩
        exact hapart _ hmine _ hother rfl
      · rintro ⟨hnew, hrest⟩
        refine ⟨hhead, hrest, ?_⟩
        rintro s hs t ht rfl
        obtain ⟨k, -, rfl⟩ := List.mem_map.1 hs
        obtain ⟨c, hc, j, hj, hcj⟩ := mem_namesOf.1 ht
        refine hnew (List.mem_map.2 ⟨c, List.mem_filter.2 ⟨hc, ?_⟩, (symbol_inj hcj).1⟩)
        rw [bne_iff_ne]
        omega

end Names

/-! ## Programs -/

/-- An array constant that is not all zeros. -/
def hasImage : Value → Bool
  | .const ⟨.array (.prim p) n, .bytes buf⟩ => prunedSize p buf n != 0
  | _ => false

/-- The instruction is a `STORE` that is given an image. -/
def needsImage : Inst → Bool
  | .binary b => isArrayStore (.binary b) && hasImage b.rhs
  | _ => false

def imageCount (b : Block) : Nat := (b.insts.filter needsImage).length

/-- The blocks of a program with the number of their images. -/
def blocksOf (fs : List Func) : List (String × Nat) :=
  fs.flatMap fun f => f.blocks.map fun b => (f.name, imageCount b)

def symbols (prog : Program) : List String := namesOf (blocksOf prog.funcs)

/-- The arrays are stored as the generator does, and the library functions are there. -/
structure Ready (prog : Program) (ms mc : BuiltinFunc) : Prop where
  lib : StandardLib prog ms mc
  stores : ∀ f ∈ prog.funcs, ∀ blk ∈ f.blocks, ∀ b, .binary b ∈ blk.insts →
    isArrayStore (.binary b) = true → ∃ p n buf, ArrayStore b p n buf
  fresh : ∀ f ∈ prog.funcs, ∀ blk ∈ f.blocks, ∀ b, .binary b ∈ blk.insts →
    ∀ v a, b.lhs = .left v → v.var = .named (.alloc a) → a < prog.nextAlloc

/-- No zero at the end of the array that is stored has a bit set. -/
def Keeps (i : Inst) : Prop :=
  ∀ b p n buf, i = .binary b → isArrayStore i = true →
    b.rhs = .const ⟨.array (.prim p) n, .bytes buf⟩ → Trimmable p n buf

/-- At most one block of every function has images, different functions with images have
different names, and no global has the name of an image. -/
structure SymbolsApart (prog : Program) : Prop where
  blocks : (((blocksOf prog.funcs).filter fun b => b.2 != 0).map Prod.fst).Nodup
  globals : ∀ a ∈ prog.globals, a.name ∉ symbols prog

/-- The pass leaves the bytes of every array that is stored, and the name of every image is
the name of one global. -/
def Exact (float : Floats) (prog : Program) : Prop :=
  ∃ lss images prog' changed, lowerFuncs prog = .ok (lss, images) ∧
    apply prog = .ok (prog', changed) ∧ (∀ bs ∈ lss, ∀ ls ∈ bs, ∀ l ∈ ls, SameBytes float l) ∧
      ∀ a ∈ images.globals, (prog'.globals.map Alloc.name).count a.name = 1

section Loops

variable {prog : Program} {ms mc : BuiltinFunc} {float : Floats} {func : String}

theorem mapAccumM_ok {α β σ : Type} {f : σ → α → Except Fault (β × σ)} {I : List α → σ → Prop}
    {R : α → β → Prop} {s : σ} {as : List α} (h : I [] s)
    (hstep : ∀ done s a, a ∈ as → I done s →
      ∃ b s', f s a = .ok (b, s') ∧ I (done ++ [a]) s' ∧ R a b) :
    ∃ bs s', mapAccumM f s as = .ok (bs, s') ∧ I as s' ∧ List.Forall₂ R as bs := by
  have hall : ∀ (as : List α) (done : List α) (s : σ), I done s →
      (∀ done s a, a ∈ as → I done s → ∃ b s', f s a = .ok (b, s') ∧ I (done ++ [a]) s' ∧ R a b) →
      ∃ bs s', mapAccumM f s as = .ok (bs, s') ∧ I (done ++ as) s' ∧ List.Forall₂ R as bs := by
    intro as
    induction as with
    | nil =>
      intro done s hI _
      exact ⟨[], s, rfl, by rwa [List.append_nil], .nil⟩
    | cons a as ih =>
      intro done s hI hstep
      obtain ⟨b, s', hb, hI', hR⟩ := hstep done s a List.mem_cons_self hI
      obtain ⟨bs, t, hbs, hIt, hRs⟩ := ih (done ++ [a]) s' hI' fun done s a ha =>
        hstep done s a (List.mem_cons_of_mem _ ha)
      refine ⟨b :: bs, t, ?_, by rwa [List.append_assoc] at hIt, .cons hR hRs⟩
      rw [mapAccumM, hb]
      dsimp only [bind, Except.bind]
      rw [hbs]
      rfl
  exact hall as [] s h hstep

/-- What the pass makes of an instruction. -/
def InstDone (float : Floats) (i : Inst) (l : Lowered) : Prop :=
  l.inst = i ∧ (SameBytes float l ↔ Keeps i)

/-- The images of a state, counted from those of the state before. -/
structure Made (prog : Program) (before : Images) (names : List String) (s : Images) : Prop where
  fresh : prog.nextAlloc ≤ s.nextAlloc
  names : s.globals.map Alloc.name = before.globals.map Alloc.name ++ names

theorem lowerInst_done {images s : Images} {i : Inst} (hlib : StandardLib prog ms mc)
    (hstore : ∀ b, i = .binary b → isArrayStore i = true → ∃ p n buf, ArrayStore b p n buf)
    (hfresh : ∀ b, i = .binary b → ∀ v a, b.lhs = .left v → v.var = .named (.alloc a) →
      a < prog.nextAlloc)
    (hs : Made prog images ((List.range s.cnt).map (symbol func)) s) :
    ∃ l s', lowerInst prog func s i = .ok (l, s') ∧
      (s'.cnt = if needsImage i then s.cnt + 1 else s.cnt) ∧
      Made prog images ((List.range s'.cnt).map (symbol func)) s' ∧ InstDone float i l := by
  by_cases harr : isArrayStore i = true
  · cases i with
    | binary b =>
      obtain ⟨p, n, buf, hb⟩ := hstore b rfl harr
      have hne : ∀ v, b.lhs = .left v → v.var ≠ .named (.alloc s.nextAlloc) := by
        intro v hv hvar
        have hlt := hfresh b rfl v _ hv hvar
        exact absurd hlt (not_lt.2 hs.fresh)
      have hneeds : needsImage (.binary b) = (prunedSize p buf n != 0) := by
        show (isArrayStore (.binary b) && hasImage b.rhs) = _
        rw [harr, hb.rhs]
        rfl
      have hlower : lowerInst prog func s (.binary b) = lowerStore prog func s b := if_pos harr
      have hkeeps : Keeps (.binary b) ↔ Trimmable p n buf := by
        constructor
        · intro h
          exact h b p n buf rfl harr hb.rhs
        · intro h b' p' n' buf' heq _ hrhs
          cases heq
          cases hb.rhs.symm.trans hrhs
          exact h
      have heq : lowerStore prog func s b = _ := lowerStore_eq hb hlib
      rw [hlower, hneeds]
      by_cases hzero : prunedSize p buf n = 0
      · rw [if_pos hzero] at heq
        refine ⟨_, _, heq, ?_, hs, rfl, ?_⟩
        · rw [hzero]
          rfl
        · rw [hkeeps]
          exact sameBytes_iff hb hlib heq hne
      · rw [if_neg hzero] at heq
        refine ⟨_, _, heq, ?_, ⟨?_, ?_⟩, rfl, ?_⟩
        · rw [if_pos (by simpa using hzero)]
        · exact le_trans hs.fresh (Nat.le_succ _)
        · dsimp only
          rw [List.map_append, hs.names, List.range_succ, List.map_append, List.append_assoc]
          rfl
        · rw [hkeeps]
          exact sameBytes_iff hb hlib heq hne
    | _ => cases harr
  · refine ⟨.same i, s, ?_, ?_, hs, rfl, ?_⟩
    · cases i with
      | binary b => exact if_neg harr
      | _ => rfl
    · have hneeds : needsImage i = false := by
        cases i with
        | binary b =>
          show (isArrayStore (.binary b) && hasImage b.rhs) = _
          rw [eq_false_of_ne_true harr]
          rfl
        | _ => rfl
      rw [hneeds]
      rfl
    · refine iff_of_true ?_ ?_
      · intro b hb hstore
        rw [show Inst.binary b = i from hb.symm] at hstore
        exact absurd hstore harr
      · intro b p n buf _ hstore
        exact absurd hstore harr

theorem lowerBlock_done {images : Images} {names : List String} {before : Images} {blk : Block}
    (hlib : StandardLib prog ms mc)
    (hstore : ∀ b, .binary b ∈ blk.insts → isArrayStore (.binary b) = true →
      ∃ p n buf, ArrayStore b p n buf)
    (hfresh : ∀ b, .binary b ∈ blk.insts → ∀ v a, b.lhs = .left v → v.var = .named (.alloc a) →
      a < prog.nextAlloc)
    (hs : Made prog before names images) :
    ∃ ls s', lowerBlock prog func images blk = .ok (ls, s') ∧
      Made prog before (names ++ (List.range (imageCount blk)).map (symbol func)) s' ∧
      List.Forall₂ (InstDone float) blk.insts ls := by
  let I : List Inst → Images → Prop := fun done s => s.cnt = (done.filter needsImage).length ∧
    Made prog images ((List.range s.cnt).map (symbol func)) s
  have hstep : ∀ done s i, i ∈ blk.insts → I done s →
      ∃ l s', lowerInst prog func s i = .ok (l, s') ∧ I (done ++ [i]) s' ∧ InstDone float i l := by
    rintro done s i hi ⟨hcnt, hmade⟩
    obtain ⟨l, s', hl, hcnt', hmade', hdone⟩ := lowerInst_done hlib
      (fun b hb harr => hstore b (hb ▸ hi) (hb ▸ harr)) (fun b hb => hfresh b (hb ▸ hi)) hmade
    refine ⟨l, s', hl, ⟨?_, hmade'⟩, hdone⟩
    rw [hcnt', hcnt, List.filter_append, List.length_append, List.filter_cons]
    split <;> rfl
  have hstart : I [] { images with cnt := 0 } := ⟨rfl, hs.fresh, by simp⟩
  obtain ⟨ls, s', hls, ⟨hcnt, hmade⟩, hall⟩ := mapAccumM_ok hstart hstep
  refine ⟨ls, s', hls, ⟨hmade.fresh, ?_⟩, hall⟩
  rw [hmade.names, hs.names, List.append_assoc, hcnt]
  rfl

theorem lowerFunc_done {images : Images} {names : List String} {before : Images} {f : Func}
    (hlib : StandardLib prog ms mc)
    (hstore : ∀ blk ∈ f.blocks, ∀ b, .binary b ∈ blk.insts → isArrayStore (.binary b) = true →
      ∃ p n buf, ArrayStore b p n buf)
    (hfresh : ∀ blk ∈ f.blocks, ∀ b, .binary b ∈ blk.insts → ∀ v a, b.lhs = .left v →
      v.var = .named (.alloc a) → a < prog.nextAlloc)
    (hs : Made prog before names images) :
    ∃ bs s', lowerFunc prog images f = .ok (bs, s') ∧
      Made prog before (names ++ namesOf (blocksOf [f])) s' ∧
      List.Forall₂ (fun blk ls => List.Forall₂ (InstDone float) blk.insts ls) f.blocks bs := by
  let I : List Block → Images → Prop := fun done s =>
    Made prog before (names ++ namesOf (done.map fun b => (f.name, imageCount b))) s
  have hstep : ∀ done s blk, blk ∈ f.blocks → I done s →
      ∃ ls s', lowerBlock prog f.name s blk = .ok (ls, s') ∧ I (done ++ [blk]) s' ∧
        List.Forall₂ (InstDone float) blk.insts ls := by
    intro done s blk hblk hmade
    obtain ⟨ls, s', hls, hmade', hall⟩ :=
      lowerBlock_done hlib (hstore blk hblk) (hfresh blk hblk) hmade
    refine ⟨ls, s', hls, ?_, hall⟩
    show Made prog before (names ++ namesOf ((done ++ [blk]).map _)) s'
    rw [List.map_append, namesOf, List.flatMap_append, ← List.append_assoc]
    simpa [namesOf] using hmade'
  have hstart : I [] images := by
    show Made prog before (names ++ []) images
    rwa [List.append_nil]
  obtain ⟨bs, s', hbs, hmade, hall⟩ := mapAccumM_ok hstart hstep
  refine ⟨bs, s', hbs, ?_, hall⟩
  have hblocks : blocksOf [f] = f.blocks.map fun b => (f.name, imageCount b) := by
    simp [blocksOf]
  rwa [hblocks]

theorem lowerFuncs_done (float : Floats) (h : Ready prog ms mc) :
    ∃ lss images, lowerFuncs prog = .ok (lss, images) ∧
      images.globals.map Alloc.name = symbols prog ∧
      List.Forall₂ (fun f bs => List.Forall₂ (fun blk ls =>
        List.Forall₂ (InstDone float) blk.insts ls) f.blocks bs) prog.funcs lss := by
  let start : Images := ⟨0, prog.nextAlloc, []⟩
  let I : List Func → Images → Prop := fun done s => Made prog start (namesOf (blocksOf done)) s
  have hstep : ∀ done s f, f ∈ prog.funcs → I done s →
      ∃ bs s', lowerFunc prog s f = .ok (bs, s') ∧ I (done ++ [f]) s' ∧
        List.Forall₂ (fun blk ls => List.Forall₂ (InstDone float) blk.insts ls) f.blocks bs := by
    intro done s f hf hmade
    obtain ⟨bs, s', hbs, hmade', hall⟩ := lowerFunc_done h.lib (h.stores f hf) (h.fresh f hf) hmade
    refine ⟨bs, s', hbs, ?_, hall⟩
    show Made prog start (namesOf (blocksOf (done ++ [f]))) s'
    rwa [blocksOf, List.flatMap_append, namesOf, List.flatMap_append]
  have hstart : I [] start := ⟨le_rfl, rfl⟩
  obtain ⟨lss, images, hlss, hmade, hall⟩ := mapAccumM_ok hstart hstep
  exact ⟨lss, images, hlss, hmade.names, hall⟩

/-- Names that are given once. -/
theorem count_eq_one_iff {given new : List String} :
    (∀ s ∈ new, (given ++ new).count s = 1) ↔ new.Nodup ∧ ∀ g ∈ given, g ∉ new := by
  constructor
  · intro h
    refine ⟨List.nodup_iff_count_le_one.2 fun s => ?_, fun g hg hnew => ?_⟩
    · by_cases hs : s ∈ new
      · have hone := h s hs
        rw [List.count_append] at hone
        omega
      · rw [List.count_eq_zero.2 hs]
        exact Nat.zero_le 1
    · have hone := h g hnew
      have hpos := List.count_pos_iff.2 hg
      have hpos' := List.count_pos_iff.2 hnew
      rw [List.count_append] at hone
      omega
  · rintro ⟨hnodup, hapart⟩ s hs
    rw [List.count_append, List.count_eq_one_of_mem hnodup hs,
      List.count_eq_zero.2 fun hg => hapart s hg hs]

theorem forall_forall₂ {α β : Type} {R : α → β → Prop} {P : α → Prop} {Q : β → Prop} {as : List α}
    {bs : List β} (h : List.Forall₂ R as bs) (hR : ∀ a b, R a b → (Q b ↔ P a)) :
    (∀ b ∈ bs, Q b) ↔ ∀ a ∈ as, P a := by
  induction h with
  | nil => simp
  | cons hab _ ih => rw [List.forall_mem_cons, List.forall_mem_cons, hR _ _ hab, ih]

theorem sameBytes_lowered_iff (h : Ready prog ms mc) {lss : List (List (List Lowered))}
    {images : Images} (hlower : lowerFuncs prog = .ok (lss, images)) :
    (∀ bs ∈ lss, ∀ ls ∈ bs, ∀ l ∈ ls, SameBytes float l) ↔
      ∀ f ∈ prog.funcs, ∀ blk ∈ f.blocks, ∀ i ∈ blk.insts, Keeps i := by
  obtain ⟨lss', images', hlower', -, hall⟩ := lowerFuncs_done float h
  cases hlower.symm.trans hlower'
  exact forall_forall₂ hall fun f bs hf => forall_forall₂ hf fun blk ls hblk =>
    forall_forall₂ hblk fun i l hl => hl.2

theorem count_names_iff (float : Floats) (h : Ready prog ms mc) {lss : List (List (List Lowered))} {images : Images}
    {prog' : Program} {changed : Bool} (hlower : lowerFuncs prog = .ok (lss, images))
    (happly : apply prog = .ok (prog', changed)) :
    (∀ a ∈ images.globals, (prog'.globals.map Alloc.name).count a.name = 1) ↔
      SymbolsApart prog := by
  obtain ⟨lss', images', hlower', hnames, -⟩ := lowerFuncs_done float h
  cases hlower.symm.trans hlower'
  have hglobals : prog'.globals = prog.globals ++ images.globals := by
    unfold apply at happly
    rw [hlower] at happly
    cases happly
    rfl
  have hmap : (∀ a ∈ images.globals, (prog'.globals.map Alloc.name).count a.name = 1) ↔
      ∀ s ∈ symbols prog, (prog.globals.map Alloc.name ++ symbols prog).count s = 1 := by
    rw [hglobals, List.map_append, hnames, ← hnames, List.forall_mem_map]
  rw [hmap, count_eq_one_iff, symbols, nodup_namesOf]
  constructor
  · rintro ⟨hblocks, hgiven⟩
    exact ⟨hblocks, fun a ha => hgiven _ (List.mem_map_of_mem ha)⟩
  · intro hapart
    exact ⟨hapart.blocks, List.forall_mem_map.2 hapart.globals⟩

/-- **Array initialisers**: the memory operations that stand for the stores of arrays leave
the bytes that the stores would have, each from an image of its own, if and only if no zero
at the end of an array has a bit set, which negative zeros do, and no two blocks of a
function have images. -/
theorem array_init_iff (float : Floats) (h : Ready prog ms mc) : Exact float prog ↔
    (∀ f ∈ prog.funcs, ∀ blk ∈ f.blocks, ∀ i ∈ blk.insts, Keeps i) ∧ SymbolsApart prog := by
  constructor
  · rintro ⟨lss, images, prog', changed, hlower, happly, hsame, hone⟩
    exact ⟨(sameBytes_lowered_iff h hlower).1 hsame, (count_names_iff float h hlower happly).1 hone⟩
  · rintro ⟨hkeeps, hapart⟩
    obtain ⟨lss, images, hlower, -⟩ := lowerFuncs_done float h
    obtain ⟨prog', changed, happly⟩ : ∃ prog' changed, apply prog = .ok (prog', changed) := by
      unfold apply
      rw [hlower]
      exact ⟨_, _, rfl⟩
    exact ⟨lss, images, prog', changed, hlower, happly, (sameBytes_lowered_iff h hlower).2 hkeeps,
      (count_names_iff float h hlower happly).2 hapart⟩

end Loops

/-! ## Arrays of one number -/

/-- The array of one `float` is stored. -/
def storeOne (buf : List (BitVec 8)) : BinaryInst :=
  ⟨.store, none, .left (.temp (.reference .float32 false true) 0),
    .const ⟨.array .float32 1, .bytes buf⟩⟩

def memset : BuiltinFunc := ⟨"memset", .func .top .unit⟩

def memcpy : BuiltinFunc := ⟨"memcpy", .func .top .unit⟩

/-- A function that stores an array in each of its blocks. -/
def storing (bufs : List (List (BitVec 8))) : Program where
  isSsa := false
  globals := []
  funcs := [{
    name := "main"
    retType := .unit
    params := []
    locals := []
    blocks := bufs.map fun buf => ⟨0, "block", [.binary (storeOne buf)], none⟩
    temps := []
    tempLabelCount := 0
    nextBlock := 0 }]
  builtins := [memset, memcpy]
  nextAlloc := 0

theorem ready_storing {bufs : List (List (BitVec 8))} (h : ∀ buf ∈ bufs, buf.length = 4) :
    Ready (storing bufs) memset memcpy := by
  have hmem : ∀ f ∈ (storing bufs).funcs, ∀ blk ∈ f.blocks, ∀ b, .binary b ∈ blk.insts →
      ∃ buf ∈ bufs, b = storeOne buf := by
    intro f hf blk hblk b hb
    obtain rfl := List.mem_singleton.1 hf
    obtain ⟨buf, hbuf, rfl⟩ := List.mem_map.1 hblk
    cases List.mem_singleton.1 hb
    exact ⟨buf, hbuf, rfl⟩
  refine ⟨⟨rfl, rfl⟩, ?_, ?_⟩
  · intro f hf blk hblk b hb _
    obtain ⟨buf, hbuf, rfl⟩ := hmem f hf blk hblk b hb
    refine ⟨.float32, 1, buf, rfl, rfl, h buf hbuf, by decide, ?_⟩
    exact ⟨_, .float32, 1, rfl, rfl, le_rfl, .inl ⟨rfl, rfl⟩⟩
  · intro f hf blk hblk b hb v a hv hvar
    obtain ⟨buf, hbuf, rfl⟩ := hmem f hf blk hblk b hb
    cases hv
    cases hvar

/-- The array `{1.0f}` alone. -/
theorem array_init_iff_one : Ready (storing [[0, 0, 0x80, 0x3f]]) memset memcpy ∧
    ∀ float, Exact float (storing [[0, 0, 0x80, 0x3f]]) := by
  have hready : Ready (storing [[0, 0, 0x80, 0x3f]]) memset memcpy := ready_storing (by decide)
  refine ⟨hready, fun float => (array_init_iff float hready).2 ⟨?_, ?_⟩⟩
  · intro f hf blk hblk i hi b p n buf hib _ hrhs
    obtain rfl := List.mem_singleton.1 hf
    obtain rfl := List.mem_singleton.1 hblk
    obtain rfl := List.mem_singleton.1 hi
    cases hib
    cases hrhs
    exact (loweredBytes_eq_iff rfl).1 (by decide)
  · exact ⟨by decide, by decide⟩

/-- The array `{-0.0f}` is filled with zeros; of the arrays `{1.0f}` and `{2.0f}` in two
blocks of a function, both images are named `__init_main_0`. -/
theorem array_init_lost : (∀ float, ¬Exact float (storing [[0, 0, 0, 0x80]])) ∧
    ∀ float, ¬Exact float (storing [[0, 0, 0x80, 0x3f], [0, 0, 0, 0x40]]) := by
  constructor
  · rintro float ⟨lss, images, prog', changed, hlower, -, hsame, -⟩
    have hready : Ready (storing [[0, 0, 0, 0x80]]) memset memcpy := ready_storing (by decide)
    have hkeeps := (sameBytes_lowered_iff hready hlower).1 hsame _ (List.mem_singleton_self _) _
      (List.mem_singleton_self _) _ (List.mem_singleton_self _) _ _ _ _ rfl rfl rfl
    have heq := (loweredBytes_eq_iff rfl).2 hkeeps
    exact absurd heq (by decide)
  · rintro float ⟨lss, images, prog', changed, hlower, happly, -, hone⟩
    have hready : Ready (storing [[0, 0, 0x80, 0x3f], [0, 0, 0, 0x40]]) memset memcpy :=
      ready_storing (by decide)
    have hapart := (count_names_iff float hready hlower happly).1 hone
    exact absurd hapart.blocks (by decide)

end ArrayInitLowering

end Lowering
end Cact
