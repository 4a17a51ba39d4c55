import Cact.Ir.Halves
import Cact.Lib.Copies

/-!
# Cloning a function (`ir/func.cpp`, `Func::clone`)

Here pointers are told apart as the source does: a temporary belongs to the function it
points to, blocks and allocations stand at addresses of the whole heap, and the address
`null` is no object's. A clone copies the objects of a function to fresh addresses, with
instructions that still point to the original, and mends them in two walks: over the
variables and over the labels.

- `Linked.Func`: a function with its pointers.
- `mapVars`, `mapLabels`: the walks over `vars` and `labels` (`analysis/utils.hpp`).
- `Func.clone`: the function of the source.
- `Func.rename`, `Isomorphism`: the same function at other addresses.
- `clone_isomorphism`, `clone_apart`, `clone_inside`: what a clone is.
-/

namespace Cact

namespace Ir

namespace Linked

/-- The address of a function. -/
abbrev FuncId := Nat

/-- `nullptr`. -/
abbrev null : Nat := 0

/-! ## Functions with their pointers -/

/-- What a `LeftValue` refers to. A temporary is one of the function it points to. -/
inductive Var
  | named (defn : NameDef)
  | temp (id : Nat) (func : FuncId)
  | ssa (defn : AllocId) (version : Nat)
  deriving DecidableEq, Repr

structure LeftValue where
  type : Ty
  var : Var
  deriving DecidableEq, Repr

inductive Value
  | const (c : ConstexprValue)
  | left (v : LeftValue)
  deriving DecidableEq, Repr

inductive Inst
  | phi (result : Option LeftValue) (args : List (BlockId × Value))
  | unary (op : UnaryInstOp) (result : Option LeftValue) (operand : Value)
  | binary (op : InstOp) (result : Option LeftValue) (lhs rhs : Value)
  | call (result : Option LeftValue) (func : NamedValue) (args : List Value)
  deriving DecidableEq, Repr

inductive Exit
  | branch (cond : Value) (trueTarget falseTarget : BlockId)
  | jump (target : BlockId)
  | ret (exp : Value)
  deriving DecidableEq, Repr

structure Block where
  id : BlockId
  label : String
  insts : List Inst
  exit : Option Exit
  deriving DecidableEq, Repr

structure Func where
  id : FuncId
  name : String
  retType : Ty
  params : List Alloc
  locals : List Alloc
  blocks : List Block
  temps : List TempInfo
  tempLabelCount : Nat
  deriving DecidableEq, Repr

/-! ## Variables and labels -/

section Walks

variable (φ : Var → Var) (β : BlockId → BlockId)

def LeftValue.mapVar (v : LeftValue) : LeftValue := ⟨v.type, φ v.var⟩

namespace Value

/-- `as_var`. -/
def vars : Value → List Var
  | const _ => []
  | left v => [v.var]

def mapVars : Value → Value
  | const c => const c
  | left v => left (v.mapVar φ)

@[simp] theorem vars_mapVars (v : Value) : (v.mapVars φ).vars = v.vars.map φ := by
  cases v <;> rfl

end Value

namespace Inst

/-- `defined_var`. -/
def result : Inst → Option LeftValue
  | phi r _ => r
  | unary _ r _ => r
  | binary _ r _ _ => r
  | call r _ _ => r

/-- `used`. -/
def used : Inst → List Value
  | phi _ args => args.map Prod.snd
  | unary _ _ x => [x]
  | binary _ _ x y => [x, y]
  | call _ _ args => args

/-- `vars`: the variables an instruction uses, then the one it defines. What a call calls
is not among them. -/
def vars (i : Inst) : List Var := i.used.flatMap Value.vars ++ i.result.toList.map LeftValue.var

/-- `sources`. -/
def sources : Inst → List BlockId
  | phi _ args => args.map Prod.fst
  | _ => []

def mapVars : Inst → Inst
  | phi r args => phi (r.map (LeftValue.mapVar φ)) (args.map fun a => (a.1, a.2.mapVars φ))
  | unary op r x => unary op (r.map (LeftValue.mapVar φ)) (x.mapVars φ)
  | binary op r x y => binary op (r.map (LeftValue.mapVar φ)) (x.mapVars φ) (y.mapVars φ)
  | call r f args => call (r.map (LeftValue.mapVar φ)) f (args.map (Value.mapVars φ))

def mapSources : Inst → Inst
  | phi r args => phi r (args.map fun a => (β a.1, a.2))
  | i => i

@[simp] theorem used_mapVars (i : Inst) : (i.mapVars φ).used = i.used.map (Value.mapVars φ) := by
  cases i with
  | phi r args =>
    show (args.map _).map _ = (args.map _).map _
    rw [List.map_map, List.map_map]
    rfl
  | _ => rfl

@[simp] theorem result_mapVars (i : Inst) :
    (i.mapVars φ).result = i.result.map (LeftValue.mapVar φ) := by cases i <;> rfl

@[simp] theorem vars_mapVars (i : Inst) : (i.mapVars φ).vars = i.vars.map φ := by
  unfold vars
  rw [used_mapVars, result_mapVars, List.map_append, List.flatMap_map, List.map_flatMap]
  simp only [Value.vars_mapVars]
  cases i.result <;> rfl

@[simp] theorem sources_mapVars (i : Inst) : (i.mapVars φ).sources = i.sources := by
  cases i with
  | phi r args =>
    show (args.map _).map _ = args.map _
    rw [List.map_map]
    rfl
  | _ => rfl

@[simp] theorem vars_mapSources (i : Inst) : (i.mapSources β).vars = i.vars := by
  cases i with
  | phi r args =>
    show ((args.map _).map _).flatMap _ ++ _ = (args.map _).flatMap _ ++ _
    rw [List.map_map]
    rfl
  | _ => rfl

@[simp] theorem sources_mapSources (i : Inst) : (i.mapSources β).sources = i.sources.map β := by
  cases i with
  | phi r args =>
    show (args.map _).map _ = (args.map _).map _
    rw [List.map_map, List.map_map]
    rfl
  | _ => rfl

end Inst

namespace Exit

/-- `used_var`. -/
def vars : Exit → List Var
  | branch c _ _ => c.vars
  | jump _ => []
  | ret x => x.vars

/-- `targets`. A branch may lack one. -/
def targets : Exit → List BlockId
  | branch _ t f => [t, f].filter fun b => b != null
  | jump t => [t]
  | ret _ => []

def mapVars : Exit → Exit
  | branch c t f => branch (c.mapVars φ) t f
  | jump t => jump t
  | ret x => ret (x.mapVars φ)

/-- The exit with each of its `targets` replaced. -/
def mapTargets : Exit → Exit
  | branch c t f => branch c (if t = null then null else β t) (if f = null then null else β f)
  | jump t => jump (β t)
  | ret x => ret x

@[simp] theorem vars_mapVars (e : Exit) : (e.mapVars φ).vars = e.vars.map φ := by
  cases e with
  | jump t => rfl
  | _ => exact Value.vars_mapVars φ _

@[simp] theorem targets_mapVars (e : Exit) : (e.mapVars φ).targets = e.targets := by
  cases e <;> rfl

@[simp] theorem vars_mapTargets (e : Exit) : (e.mapTargets β).vars = e.vars := by
  cases e <;> rfl

end Exit

end Walks

namespace Block

/-- `vars` of a block that has its exit. -/
def vars (b : Block) : List Var := b.insts.flatMap Inst.vars ++ b.exit.toList.flatMap Exit.vars

/-- What `labels` collects from a block: the targets of its exit and the sources of its phis. -/
def labels (b : Block) : List BlockId :=
  b.exit.toList.flatMap Exit.targets ++ b.insts.flatMap Inst.sources

/-- The walk over the variables of a block. It goes on to the exit, which has to be there. -/
def mapVars (φ : Var → Var) (b : Block) : Except Fault Block := do
  let exit ← b.exit.elim (.error .nullPointer) .ok
  return { b with insts := b.insts.map (Inst.mapVars φ), exit := some (exit.mapVars φ) }

/-- The walk over the labels of a block. -/
def mapLabels (β : BlockId → BlockId) (b : Block) : Except Fault Block := do
  let exit ← b.exit.elim (.error .nullPointer) .ok
  return { b with insts := b.insts.map (Inst.mapSources β), exit := some (exit.mapTargets β) }

/-- `clone`: the copy still points to what the block points to. -/
def clone (pre : String) (addr : BlockId) (b : Block) : Block :=
  ⟨addr, pre ++ b.label, b.insts, b.exit⟩

end Block

/-! ## The function -/

/-- The addresses that the next objects of each kind get. -/
structure Heap where
  nextAlloc : AllocId
  nextBlock : BlockId
  nextFunc : FuncId
  deriving DecidableEq, Repr

/-- `Alloc::clone`. -/
def cloneAlloc (pre : String) (addr : AllocId) (a : Alloc) : Alloc :=
  { a with id := addr, name := pre ++ a.name }

/-- A variable of the clone: an allocation is replaced if it has been copied. -/
def Var.relink (allocMap : AllocId → Option AllocId) (func : FuncId) : Var → Var
  | named (.alloc a) => named (.alloc ((allocMap a).getD a))
  | named d => named d
  | temp id _ => temp id func
  | ssa a n => ssa ((allocMap a).getD a) n

/-- `clone`. The maps are looked up with `operator[]`, which has `nullptr` for a block
that is not in them. -/
def Func.clone (pre : String) (f : Func) (h : Heap) : Except Fault (Func × Heap) := do
  let params := copyAll Alloc.id (cloneAlloc pre) f.params h.nextAlloc fun _ => none
  let locals := copyAll Alloc.id (cloneAlloc pre) f.locals params.next params.moved
  let copies := copyAll Block.id (Block.clone pre) f.blocks h.nextBlock fun _ => none
  let blockMap := fun b => (copies.moved b).getD null
  let temps := f.temps.map fun t => (⟨t.type, blockMap t.block⟩ : TempInfo)
  let blocks ← copies.objs.mapM (Block.mapVars (Var.relink locals.moved h.nextFunc))
  let blocks ← blocks.mapM (Block.mapLabels blockMap)
  return (⟨h.nextFunc, pre ++ f.name, f.retType, params.objs, locals.objs, blocks, temps, 0⟩,
    ⟨locals.next, copies.next, h.nextFunc + 1⟩)

/-! ## The same function elsewhere -/

/-- Where the objects of a function are after it is moved, and how its names begin. -/
structure Renaming where
  pre : String
  alloc : AllocId → AllocId
  block : BlockId → BlockId
  func : FuncId

namespace Renaming

variable (r : Renaming)

def var : Var → Var
  | .named (.alloc a) => .named (.alloc (r.alloc a))
  | .named d => .named d
  | .temp id _ => .temp id r.func
  | .ssa a n => .ssa (r.alloc a) n

def inst (i : Inst) : Inst := (i.mapVars r.var).mapSources r.block

def exit (e : Exit) : Exit := (e.mapVars r.var).mapTargets r.block

end Renaming

def Block.rename (r : Renaming) (b : Block) : Block :=
  ⟨r.block b.id, r.pre ++ b.label, b.insts.map r.inst, b.exit.map r.exit⟩

namespace Func

/-- The function at the addresses of a renaming. Its labels are counted anew. -/
def rename (r : Renaming) (f : Func) : Func where
  id := r.func
  name := r.pre ++ f.name
  retType := f.retType
  params := f.params.map fun a => cloneAlloc r.pre (r.alloc a.id) a
  locals := f.locals.map fun a => cloneAlloc r.pre (r.alloc a.id) a
  blocks := f.blocks.map (Block.rename r)
  temps := f.temps.map fun t => ⟨t.type, r.block t.block⟩
  tempLabelCount := 0

def allocIds (f : Func) : List AllocId := (f.params ++ f.locals).map Alloc.id

def blockIds (f : Func) : List BlockId := f.blocks.map Block.id

/-- `vars` of a function. -/
def vars (f : Func) : List Var := f.blocks.flatMap Block.vars

/-- `labels` of a function. -/
def labels (f : Func) : List BlockId := f.blocks.flatMap Block.labels

end Func

/-- The allocation a variable names. -/
def Var.allocOf : Var → Option AllocId
  | named (.alloc a) => some a
  | ssa a _ => some a
  | _ => none

/-- The function a temporary belongs to. -/
def Var.funcOf : Var → Option FuncId
  | temp _ f => some f
  | _ => none

/-- The objects of a function stand at addresses of their own, which the heap has given
out, as it has those that the function names. -/
structure Func.Stored (f : Func) (h : Heap) : Prop where
  func : f.id < h.nextFunc
  allocs : f.allocIds.Nodup
  allocs_lt : ∀ a ∈ f.allocIds, a < h.nextAlloc
  named_lt : ∀ v ∈ f.vars, ∀ a ∈ v.allocOf, a < h.nextAlloc
  blocks : f.blockIds.Nodup
  blocks_lt : ∀ b ∈ f.blockIds, b < h.nextBlock
  blocks_ne : null ∉ f.blockIds
  null_lt : null < h.nextBlock

/-- All blocks have exits, control stays within the function, and its temporaries are its
own. -/
structure Func.Closed (f : Func) : Prop where
  exits : ∀ b ∈ f.blocks, b.exit.isSome
  labels : ∀ l ∈ f.labels, l ∈ f.blockIds
  temps : ∀ v ∈ f.vars, ∀ a ∈ v.funcOf, a = f.id

/-- `g` is `f` elsewhere: what is different in `f` is different in `g`. What `f` names but
does not own stays as it is. -/
structure Isomorphism (f g : Func) (r : Renaming) : Prop where
  eq : g = f.rename r
  allocs : ∀ a ∈ f.allocIds ++ f.vars.filterMap Var.allocOf,
    ∀ b ∈ f.allocIds ++ f.vars.filterMap Var.allocOf, r.alloc a = r.alloc b → a = b
  blocks : ∀ a ∈ f.blockIds ++ f.labels, ∀ b ∈ f.blockIds ++ f.labels, r.block a = r.block b → a = b
  others : ∀ a, a ∉ f.allocIds → r.alloc a = a

/-- The functions have no object in common, and no variable of `g` names one of `f`. -/
structure Apart (f g : Func) : Prop where
  func : g.id ≠ f.id
  allocs : f.allocIds.Disjoint g.allocIds
  blocks : f.blockIds.Disjoint g.blockIds
  named : ∀ v ∈ g.vars, ∀ a ∈ v.allocOf, a ∉ f.allocIds

/-! ## What a clone is -/

section Clone

variable {f : Func} {h : Heap} {pre : String}

/-- Where the allocations of a function are copied to. -/
def Func.movedAllocs (pre : String) (f : Func) (h : Heap) : Copies Alloc :=
  copyAll Alloc.id (cloneAlloc pre) (f.params ++ f.locals) h.nextAlloc fun _ => none

/-- Where the blocks of a function are copied to. -/
def Func.movedBlocks (pre : String) (f : Func) (h : Heap) : Copies Block :=
  copyAll Block.id (Block.clone pre) f.blocks h.nextBlock fun _ => none

/-- What `clone` does to the addresses and names of a function. -/
def Func.cloneRenaming (pre : String) (f : Func) (h : Heap) : Renaming where
  pre := pre
  alloc a := ((f.movedAllocs pre h).moved a).getD a
  block b := ((f.movedBlocks pre h).moved b).getD null
  func := h.nextFunc

theorem relink_eq (v : Var) :
    v.relink (f.movedAllocs pre h).moved h.nextFunc = (f.cloneRenaming pre h).var v := by
  cases v with
  | named d => cases d <;> rfl
  | _ => rfl

/-- The walk over the variables of a block with an exit. -/
theorem Block.mapVars_eq_ok {φ : Var → Var} {b : Block} (hb : b.exit.isSome) :
    b.mapVars φ =
      .ok { b with insts := b.insts.map (Inst.mapVars φ), exit := b.exit.map (Exit.mapVars φ) } := by
  obtain ⟨e, he⟩ := Option.isSome_iff_exists.1 hb
  unfold mapVars
  rw [he]
  rfl

/-- The walk over the labels of a block with an exit. -/
theorem Block.mapLabels_eq_ok {β : BlockId → BlockId} {b : Block} (hb : b.exit.isSome) :
    b.mapLabels β = .ok { b with
      insts := b.insts.map (Inst.mapSources β), exit := b.exit.map (Exit.mapTargets β) } := by
  obtain ⟨e, he⟩ := Option.isSome_iff_exists.1 hb
  unfold mapLabels
  rw [he]
  rfl

theorem relocates_allocs (pre : String) (hs : f.Stored h) :
    Relocates f.allocIds h.nextAlloc (f.movedAllocs pre h).next (f.movedAllocs pre h).moved :=
  relocates_copyAll hs.allocs

theorem relocates_blocks (pre : String) (hs : f.Stored h) :
    Relocates f.blockIds h.nextBlock (f.movedBlocks pre h).next (f.movedBlocks pre h).moved :=
  relocates_copyAll hs.blocks

/-- The allocations of the clone. -/
theorem cloneAllocs_eq (pre : String) (hs : f.Stored h) :
    (f.movedAllocs pre h).objs = (f.params ++ f.locals).map fun a =>
      cloneAlloc pre ((f.cloneRenaming pre h).alloc a.id) a := by
  refine (objs_copyAll hs.allocs).trans (List.map_congr_left fun a ha => ?_)
  obtain ⟨y, hy, -⟩ := (relocates_allocs pre hs).fresh a.id (List.mem_map_of_mem ha)
  show cloneAlloc pre (((f.movedAllocs pre h).moved a.id).getD 0) a =
    cloneAlloc pre (((f.movedAllocs pre h).moved a.id).getD a.id) a
  rw [hy]
  rfl

/-- The blocks of the clone, after both walks. -/
theorem cloneBlocks_eq (pre : String) (hs : f.Stored h) (hexits : ∀ b ∈ f.blocks, b.exit.isSome) :
    ((f.movedBlocks pre h).objs.mapM
        (Block.mapVars (Var.relink (f.movedAllocs pre h).moved h.nextFunc)) >>= fun blocks =>
      blocks.mapM (Block.mapLabels (f.cloneRenaming pre h).block)) =
      .ok (f.blocks.map (Block.rename (f.cloneRenaming pre h))) := by
  have hrelink : Var.relink (f.movedAllocs pre h).moved h.nextFunc = (f.cloneRenaming pre h).var :=
    funext relink_eq
  have hobjs : (f.movedBlocks pre h).objs =
      f.blocks.map fun b => b.clone pre ((f.cloneRenaming pre h).block b.id) :=
    objs_copyAll hs.blocks
  rw [hrelink, hobjs]
  set r := f.cloneRenaming pre h
  -- neither walk stops, as the copies have the exits of the originals
  have hvars : (f.blocks.map fun b => b.clone pre (r.block b.id)).mapM (Block.mapVars r.var) =
      .ok ((f.blocks.map fun b => b.clone pre (r.block b.id)).map fun b => { b with
        insts := b.insts.map (Inst.mapVars r.var), exit := b.exit.map (Exit.mapVars r.var) }) := by
    refine (Except.mapM_congr fun b hb => ?_).trans List.mapM_pure
    obtain ⟨c, hc, rfl⟩ := List.mem_map.1 hb
    exact Block.mapVars_eq_ok (hexits c hc)
  rw [hvars]
  refine (Except.mapM_congr fun b hb => Block.mapLabels_eq_ok ?_).trans ?_
  · obtain ⟨c, hc, rfl⟩ := List.mem_map.1 hb
    obtain ⟨d, hd, rfl⟩ := List.mem_map.1 hc
    rw [Option.isSome_map]
    exact hexits d hd
  · refine List.mapM_pure.trans (congrArg _ ?_)
    rw [List.map_map, List.map_map]
    refine List.map_congr_left fun b _ => ?_
    unfold Block.rename Renaming.inst Renaming.exit
    simp only [Function.comp_apply, Block.clone, List.map_map, Option.map_map]
    rfl

/-- A closed function is cloned, to itself at other addresses. -/
theorem clone_eq_ok (hs : f.Stored h) (hexits : ∀ b ∈ f.blocks, b.exit.isSome) :
    f.clone pre h = .ok (f.rename (f.cloneRenaming pre h),
      ⟨(f.movedAllocs pre h).next, (f.movedBlocks pre h).next, h.nextFunc + 1⟩) := by
  let params := copyAll Alloc.id (cloneAlloc pre) f.params h.nextAlloc fun _ => none
  let locals := copyAll Alloc.id (cloneAlloc pre) f.locals params.next params.moved
  -- the two loops over the allocations go on with one map
  have happend : f.movedAllocs pre h = ⟨params.objs ++ locals.objs, locals.moved, locals.next⟩ :=
    copyAll_append
  have hobjs := (congrArg Copies.objs happend).symm.trans (cloneAllocs_eq pre hs)
  rw [List.map_append] at hobjs
  obtain ⟨hparams, hlocals⟩ := List.append_inj hobjs (by rw [List.length_map, length_objs_copyAll])
  have hmoved : locals.moved = (f.movedAllocs pre h).moved := (congrArg Copies.moved happend).symm
  have hnext : locals.next = (f.movedAllocs pre h).next := (congrArg Copies.next happend).symm
  show ((f.movedBlocks pre h).objs.mapM (Block.mapVars (Var.relink locals.moved h.nextFunc)) >>=
    fun blocks => blocks.mapM (Block.mapLabels (f.cloneRenaming pre h).block) >>= fun blocks =>
      pure ((⟨h.nextFunc, pre ++ f.name, f.retType, params.objs, locals.objs, blocks,
        (f.rename (f.cloneRenaming pre h)).temps, 0⟩ : Func),
        (⟨locals.next, (f.movedBlocks pre h).next, h.nextFunc + 1⟩ : Heap))) = _
  rw [← bind_assoc, hmoved, cloneBlocks_eq pre hs hexits, hparams, hlocals, hnext]
  rfl

/-- Where an allocation of the function goes, and where another one stays. -/
theorem alloc_cases (pre : String) (hs : f.Stored h) (a : AllocId) :
    (a ∈ f.allocIds ∧ h.nextAlloc ≤ (f.cloneRenaming pre h).alloc a) ∨
      (a ∉ f.allocIds ∧ (f.cloneRenaming pre h).alloc a = a) := by
  by_cases ha : a ∈ f.allocIds
  · obtain ⟨y, hy, hle, -⟩ := (relocates_allocs pre hs).fresh a ha
    refine .inl ⟨ha, ?_⟩
    show h.nextAlloc ≤ ((f.movedAllocs pre h).moved a).getD a
    rw [hy]
    exact hle
  · refine .inr ⟨ha, ?_⟩
    show ((f.movedAllocs pre h).moved a).getD a = a
    rw [show (f.movedAllocs pre h).moved a = none from moved_of_not_mem ha]
    rfl

theorem nextBlock_le_block (pre : String) (hs : f.Stored h) {b : BlockId} (hb : b ∈ f.blockIds) :
    h.nextBlock ≤ (f.cloneRenaming pre h).block b := by
  obtain ⟨y, hy, hle, -⟩ := (relocates_blocks pre hs).fresh b hb
  show h.nextBlock ≤ ((f.movedBlocks pre h).moved b).getD null
  rw [hy]
  exact hle

theorem alloc_inj (pre : String) (hs : f.Stored h) {a b : AllocId}
    (ha : a < h.nextAlloc) (hb : b < h.nextAlloc)
    (hab : (f.cloneRenaming pre h).alloc a = (f.cloneRenaming pre h).alloc b) : a = b := by
  have hmoved := relocates_allocs pre hs
  rcases alloc_cases pre hs a with ⟨hma, hla⟩ | ⟨hma, hea⟩
  · rcases alloc_cases pre hs b with ⟨hmb, -⟩ | ⟨-, heb⟩
    · -- both are copied
      obtain ⟨y, hy, -⟩ := hmoved.fresh a hma
      obtain ⟨z, hz, -⟩ := hmoved.fresh b hmb
      refine hmoved.inj a hma b hmb ?_
      have hyz : ((f.movedAllocs pre h).moved a).getD a =
        ((f.movedAllocs pre h).moved b).getD b := hab
      rw [hy, hz] at hyz ⊢
      exact congrArg some hyz
    · exact absurd (hab.trans heb ▸ hla) (Nat.not_le.2 hb)
  · rcases alloc_cases pre hs b with ⟨-, hlb⟩ | ⟨-, heb⟩
    · exact absurd (hab.symm.trans hea ▸ hlb) (Nat.not_le.2 ha)
    · exact hea.symm.trans (hab.trans heb)

theorem block_inj (pre : String) (hs : f.Stored h) {a b : BlockId} (ha : a ∈ f.blockIds)
    (hb : b ∈ f.blockIds)
    (hab : (f.cloneRenaming pre h).block a = (f.cloneRenaming pre h).block b) : a = b := by
  have hmoved := relocates_blocks pre hs
  obtain ⟨y, hy, -⟩ := hmoved.fresh a ha
  obtain ⟨z, hz, -⟩ := hmoved.fresh b hb
  refine hmoved.inj a ha b hb ?_
  have hyz : ((f.movedBlocks pre h).moved a).getD null =
    ((f.movedBlocks pre h).moved b).getD null := hab
  rw [hy, hz] at hyz ⊢
  exact congrArg some hyz

/-- A clone is the original at other addresses. -/
theorem clone_isomorphism (pre : String) (hs : f.Stored h) (hc : f.Closed) :
    Isomorphism f (f.rename (f.cloneRenaming pre h)) (f.cloneRenaming pre h) := by
  have hlt : ∀ a ∈ f.allocIds ++ f.vars.filterMap Var.allocOf, a < h.nextAlloc := by
    intro a ha
    rcases List.mem_append.1 ha with ha | ha
    · exact hs.allocs_lt a ha
    · obtain ⟨v, hv, hva⟩ := List.mem_filterMap.1 ha
      exact hs.named_lt v hv a hva
  have hown : ∀ b ∈ f.blockIds ++ f.labels, b ∈ f.blockIds := by
    intro b hb
    rcases List.mem_append.1 hb with hb | hb
    · exact hb
    · exact hc.labels b hb
  refine ⟨rfl, ?_, ?_, ?_⟩
  · intro a ha b hb hab
    exact alloc_inj pre hs (hlt a ha) (hlt b hb) hab
  · intro a ha b hb hab
    exact block_inj pre hs (hown a ha) (hown b hb) hab
  · intro a ha
    rcases alloc_cases pre hs a with ⟨hma, -⟩ | ⟨-, hea⟩
    · exact absurd hma ha
    · exact hea

/-! ### Variables and labels of the clone -/

theorem vars_rename (r : Renaming) (f : Func) : (f.rename r).vars = f.vars.map r.var := by
  show (f.blocks.map _).flatMap Block.vars = (f.blocks.flatMap Block.vars).map _
  rw [List.flatMap_map, List.map_flatMap]
  refine congrArg (List.flatMap · f.blocks) (funext fun b => ?_)
  show (b.insts.map r.inst).flatMap Inst.vars ++ (b.exit.map r.exit).toList.flatMap Exit.vars =
    (b.insts.flatMap Inst.vars ++ b.exit.toList.flatMap Exit.vars).map r.var
  have hexit : ∀ e : Exit, (r.exit e).vars = e.vars.map r.var := by
    intro e
    simp [Renaming.exit]
  rw [List.map_append, List.flatMap_map, List.map_flatMap]
  congr 1
  · simp [Renaming.inst]
  · cases b.exit with
    | none => rfl
    | some e => simpa using hexit e

theorem allocOf_var {r : Renaming} {v : Var} {a : AllocId} (hv : (r.var v).allocOf = some a) :
    ∃ b, v.allocOf = some b ∧ r.alloc b = a := by
  cases v with
  | named d =>
    cases d with
    | alloc b => exact ⟨b, rfl, Option.some.inj hv⟩
    | _ => cases hv
  | ssa b n => exact ⟨b, rfl, Option.some.inj hv⟩
  | temp i g => cases hv

theorem funcOf_var {r : Renaming} {v : Var} {a : FuncId} (hv : (r.var v).funcOf = some a) :
    a = r.func := by
  cases v with
  | named d => cases d <;> cases hv
  | ssa b n => cases hv
  | temp i g => exact (Option.some.inj hv).symm

theorem mem_targets_mapTargets {β : BlockId → BlockId} {e : Exit} {l : BlockId}
    (hl : l ∈ (e.mapTargets β).targets) : ∃ t ∈ e.targets, l = β t := by
  cases e with
  | branch c t u =>
    obtain ⟨hmem, hne⟩ := List.mem_filter.1 hl
    -- a target that is replaced was not null
    have hfrom : ∀ s, l = (if s = null then null else β s) → (s != null) = true ∧ l = β s := by
      intro s hs
      split_ifs at hs with hnull
      · simp [hs] at hne
      · exact ⟨bne_iff_ne.2 hnull, hs⟩
    rcases List.mem_cons.1 hmem with ht | hmem
    · obtain ⟨hnull, hl⟩ := hfrom t ht
      exact ⟨t, List.mem_filter.2 ⟨List.mem_cons_self, hnull⟩, hl⟩
    · obtain ⟨hnull, hl⟩ := hfrom u (List.mem_singleton.1 hmem)
      exact ⟨u, List.mem_filter.2 ⟨List.mem_cons_of_mem _ List.mem_cons_self, hnull⟩, hl⟩
  | jump t => exact ⟨t, List.mem_cons_self, List.mem_singleton.1 hl⟩
  | ret x => cases hl

theorem mem_labels_rename {r : Renaming} {l : BlockId} (hl : l ∈ (f.rename r).labels) :
    ∃ t ∈ f.labels, l = r.block t := by
  obtain ⟨c, hc, hl⟩ := List.mem_flatMap.1 hl
  obtain ⟨b, hb, rfl⟩ := List.mem_map.1 hc
  have hlift : ∀ t ∈ b.labels, t ∈ f.labels := fun t ht => List.mem_flatMap.2 ⟨b, hb, ht⟩
  rcases List.mem_append.1 hl with hl | hl
  · obtain ⟨x, hx, hl⟩ := List.mem_flatMap.1 hl
    obtain ⟨e, he, rfl⟩ := Option.map_eq_some_iff.1 (Option.mem_toList.1 hx)
    obtain ⟨t, ht, rfl⟩ := mem_targets_mapTargets hl
    rw [Exit.targets_mapVars] at ht
    refine ⟨t, hlift t (List.mem_append_left _ ?_), rfl⟩
    exact List.mem_flatMap.2 ⟨e, Option.mem_toList.2 he, ht⟩
  · obtain ⟨x, hx, hl⟩ := List.mem_flatMap.1 hl
    obtain ⟨i, hi, rfl⟩ := List.mem_map.1 hx
    unfold Renaming.inst at hl
    rw [Inst.sources_mapSources, Inst.sources_mapVars] at hl
    obtain ⟨t, ht, rfl⟩ := List.mem_map.1 hl
    refine ⟨t, hlift t (List.mem_append_right _ ?_), rfl⟩
    exact List.mem_flatMap.2 ⟨i, hi, ht⟩

/-- Nothing of a clone is the original's. -/
theorem clone_apart (pre : String) (hs : f.Stored h) :
    Apart f (f.rename (f.cloneRenaming pre h)) := by
  have hallocs : (f.rename (f.cloneRenaming pre h)).allocIds =
      f.allocIds.map (f.cloneRenaming pre h).alloc := by
    show ((f.params.map _ ++ f.locals.map _).map Alloc.id) = ((f.params ++ f.locals).map _).map _
    rw [← List.map_append, List.map_map, List.map_map]
    rfl
  have hblocks : (f.rename (f.cloneRenaming pre h)).blockIds =
      f.blockIds.map (f.cloneRenaming pre h).block := by
    show (f.blocks.map _).map _ = (f.blocks.map _).map _
    rw [List.map_map, List.map_map]
    rfl
  constructor
  case func => exact Nat.ne_of_gt hs.func
  case allocs =>
    rw [hallocs]
    intro a ha hmem
    obtain ⟨b, hb, rfl⟩ := List.mem_map.1 hmem
    rcases alloc_cases pre hs b with ⟨-, hle⟩ | ⟨hnot, -⟩
    · exact absurd hle (Nat.not_le.2 (hs.allocs_lt _ ha))
    · exact hnot hb
  case blocks =>
    rw [hblocks]
    intro b hb hmem
    obtain ⟨c, hc, rfl⟩ := List.mem_map.1 hmem
    exact absurd (nextBlock_le_block pre hs hc) (Nat.not_le.2 (hs.blocks_lt _ hb))
  case named =>
    intro v hv a hva ha
    rw [vars_rename] at hv
    obtain ⟨u, hu, rfl⟩ := List.mem_map.1 hv
    obtain ⟨b, hub, rfl⟩ := allocOf_var hva
    rcases alloc_cases pre hs b with ⟨-, hle⟩ | ⟨hnot, heq⟩
    · exact absurd hle (Nat.not_le.2 (hs.allocs_lt _ ha))
    · exact hnot (heq ▸ ha)

/-- What a clone points to is its own. -/
theorem clone_inside (pre : String) (h : Heap) (hc : f.Closed) :
    (f.rename (f.cloneRenaming pre h)).Closed := by
  constructor
  case exits =>
    intro c hmem
    obtain ⟨b, hb, rfl⟩ := List.mem_map.1 hmem
    show (b.exit.map _).isSome = true
    rw [Option.isSome_map]
    exact hc.exits b hb
  case labels =>
    intro l hl
    obtain ⟨t, ht, rfl⟩ := mem_labels_rename hl
    obtain ⟨b, hb, hbt⟩ := List.mem_map.1 (hc.labels t ht)
    exact List.mem_map.2 ⟨_, List.mem_map_of_mem hb, congrArg (f.cloneRenaming pre h).block hbt⟩
  case temps =>
    intro v hv a hva
    rw [vars_rename] at hv
    obtain ⟨u, hu, rfl⟩ := List.mem_map.1 hv
    exact funcOf_var hva

/-- The temporaries of a clone are defined in its blocks, as far as those of the original
are in blocks that are still there. -/
theorem clone_containers (pre : String) (h : Heap) (f : Func) :
    ∀ t ∈ (f.rename (f.cloneRenaming pre h)).temps,
      t.block = null ∨ t.block ∈ (f.rename (f.cloneRenaming pre h)).blockIds := by
  intro t ht
  obtain ⟨u, -, rfl⟩ := List.mem_map.1 ht
  by_cases hu : u.block ∈ f.blockIds
  · obtain ⟨b, hb, hbu⟩ := List.mem_map.1 hu
    refine .inr (List.mem_map.2 ⟨_, List.mem_map_of_mem hb, ?_⟩)
    exact congrArg (f.cloneRenaming pre h).block hbu
  · left
    show ((f.movedBlocks pre h).moved u.block).getD null = null
    rw [show (f.movedBlocks pre h).moved u.block = none from moved_of_not_mem hu]
    rfl

end Clone

end Linked

/-! ## What the inliner builds on -/

open Linked (Heap Isomorphism Apart)

/-- A clone is the original elsewhere and has nothing in common with it, and a block that is
split behind its phis does what it did, with all phis redirected. -/
theorem clone_and_split (pre : String) {f : Linked.Func} {h : Heap} (hs : f.Stored h)
    (hc : f.Closed) {c : Func} (hf : c.Fresh) {b : BlockId} {blk : Block}
    (hb : c.block? b = some blk) (hx : blk.exit.isSome) {k : Nat} (hk : k ≤ blk.insts.length)
    (hphi : ∀ i ∈ blk.insts.drop k, i.isPhi = false) (e : Exit) (label : String) :
    (∃ g h' r, f.clone pre h = .ok (g, h') ∧ Isomorphism f g r ∧ Apart f g ∧ g.Closed ∧
      ∀ t ∈ g.temps, t.block = Linked.null ∨ t.block ∈ g.blockIds) ∧
    ∃ n g, c.split b k e label = .ok (n, g) ∧
      (∀ (env : Vm.Env) (p : Program), p.findFunc c.name = some c →
        Vm.SameMeaning env p (p.replaceFunc (g.setExit b (.jump n)))) ∧
      g.sources.Perm (c.sources.map (redirect b n)) ∧ b ∉ g.sources := by
  constructor
  · exact ⟨_, _, f.cloneRenaming pre h, Linked.clone_eq_ok hs hc.exits,
      Linked.clone_isomorphism pre hs hc, Linked.clone_apart pre hs,
      Linked.clone_inside pre h hc, Linked.clone_containers pre h f⟩
  · obtain ⟨x, hx⟩ := Option.isSome_iff_exists.1 hx
    obtain ⟨n, g, hsplit⟩ : ∃ n g, c.split b k e label = .ok (n, g) :=
      ⟨_, _, Func.split_eq_ok.2 ⟨blk, x, hb, hx, rfl, rfl⟩⟩
    refine ⟨n, g, hsplit, fun env p hp => ?_, ?_, ?_⟩
    · have hcut := Func.Cut.of_split hf hb hk (fun i hi => hphi i ?_) hsplit
      · exact Vm.sameMeaning_cut (Program.replaces hp hcut.name) hcut
      · rw [← List.head?_drop] at hi
        exact List.mem_of_mem_head? hi
    · exact Func.sources_split_of_not_phi hf.ids hb hphi hsplit
    · rw [Func.mem_sources_split_iff hf hb hsplit]
      rintro ⟨i, hi, hbi⟩
      rw [Inst.sources_of_not_phi (hphi i hi)] at hbi
      cases hbi

/-- A loop of one block that counts, with a phi at its head. -/
def countingLoop : Func where
  name := "main"
  retType := .prim .int32
  params := []
  locals := []
  blocks := [
    ⟨0, "entry", [], some (.jump 1)⟩,
    ⟨1, "loop", [
      .phi ⟨some (.temp (.prim .int32) 0),
        [(0, .const (.ofInt 0)), (1, .left (.temp (.prim .int32) 1))]⟩,
      .binary ⟨.add, some (.temp (.prim .int32) 1), .left (.temp (.prim .int32) 0),
        .const (.ofInt 1)⟩],
      some (.branch (.const (.ofBool true)) 1 2)⟩,
    ⟨2, "exit", [], some (.ret (.left (.temp (.prim .int32) 1)))⟩]
  temps := [⟨.prim .int32, 1⟩, ⟨.prim .int32, 1⟩]
  tempLabelCount := 0
  nextBlock := 3

theorem countingLoop_fresh : countingLoop.Fresh := by
  constructor <;> decide

/-- A function that adds its argument to a global and calls itself. -/
def addAll : Linked.Func where
  id := 1
  name := "add_all"
  retType := .unit
  params := [.variable 2 "x" (.prim .int32) none false]
  locals := []
  blocks := [
    ⟨1, "entry", [
      .binary .add (some ⟨.prim .int32, .named (.alloc 1)⟩)
        (.left ⟨.prim .int32, .named (.alloc 1)⟩) (.left ⟨.prim .int32, .named (.alloc 2)⟩),
      .binary .sub (some ⟨.prim .int32, .temp 0 1⟩) (.left ⟨.prim .int32, .named (.alloc 2)⟩)
        (.const (.ofInt 1))], some (.branch (.const (.ofBool true)) 2 3)⟩,
    ⟨2, "again", [.call none ⟨.func (.product (.ofList [.prim .int32])) .unit, .func "add_all"⟩
      [.left ⟨.prim .int32, .temp 0 1⟩]], some (.jump 3)⟩,
    ⟨3, "exit", [], some (.ret (.const .void))⟩]
  temps := [⟨.prim .int32, 1⟩]
  tempLabelCount := 0

/-- A clone of one function, and the loop split between its phi and its addition. -/
theorem clone_and_split_loop :
    (∃ g h' r, addAll.clone "inline_" ⟨3, 4, 2⟩ = .ok (g, h') ∧ Isomorphism addAll g r ∧
      Apart addAll g ∧ g.Closed ∧
      ∀ t ∈ g.temps, t.block = Linked.null ∨ t.block ∈ g.blockIds) ∧
    ∃ n g, countingLoop.split 1 1 (.jump 2) "next" = .ok (n, g) ∧
      (∀ (env : Vm.Env) (p : Program), p.findFunc countingLoop.name = some countingLoop →
        Vm.SameMeaning env p (p.replaceFunc (g.setExit 1 (.jump n)))) ∧
      g.sources.Perm (countingLoop.sources.map (redirect 1 n)) ∧ 1 ∉ g.sources := by
  refine clone_and_split "inline_" ?_ ?_ countingLoop_fresh rfl rfl ?_ ?_ (.jump 2) "next"
  · constructor <;> decide
  · constructor <;> decide
  · decide
  · decide

/-- Split in front of its phi, the loop moves to the new block with a phi that still names
the old one. -/
theorem split_before_phi : ¬∀ (c : Func) (b : BlockId) (blk : Block) (k : Nat) (e : Exit)
    (label : String) (n : BlockId) (g : Func), c.Fresh → c.block? b = some blk →
    k < blk.insts.length → c.split b k e label = .ok (n, g) → b ∉ g.sources := by
  intro hall
  refine hall countingLoop 1 _ 0 (.jump 2) "next" 3 _ countingLoop_fresh rfl (by decide) rfl ?_
  decide

end Ir
end Cact
