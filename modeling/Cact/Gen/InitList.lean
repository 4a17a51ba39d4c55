import Cact.Ast.Checked
import Cact.Gen.Gen
import Cact.Lib.Buffer

/-!
# Initialiser lists (`backend/ir/gen/decl.cpp`)

Analysis reads a list of constants as the elements of an array of any dimensions in
row-major order. `construct` reads it so only at the top, where the type is flattened:
below it puts each constant where a row starts.

- `given`, `position`: the constants of a list, and what their paths in it denote.
- `writes`: what `construct` writes, in order; `landing`: where.
- `FitsVal`: what analysis has found out about a list.
- `inPlace_iff`: every constant is put in its position if and only if the list is `Regular`.
-/

namespace Cact

namespace Gen

open Ast
open Ir (Ty Fault ConstexprValue)

/-! ## What a list gives -/

mutual

/-- The constants of an initialiser in their order, each with its path. -/
def givenVal {d : Decor} : InitVal d → List (List Nat × ConstExp)
  | .exp c => [([], c)]
  | .list _ vals => given vals 0

/-- The constants of the elements of a list, which are numbered from `i` on. -/
def given {d : Decor} (vals : InitVals d) (i : Nat) : List (List Nat × ConstExp) :=
  match vals with
  | .nil => []
  | .cons v vs => (givenVal v).map (fun g => (i :: g.1, g.2)) ++ given vs (i + 1)

end

/-- The row-major position that a path denotes. The last index counts the elements of
the array at the end of the path over all its dimensions. -/
def position : Ty → List Nat → Nat
  | _, [i] => i
  | .array elem _, i :: path => i * elem.flatLength + position elem path
  | _, _ => 0

/-- Where in the buffer the position is. -/
def offset (target : Ty) (path : List Nat) : Nat := position target path * target.flatElem.sizeOf

/-! ## What is written -/

mutual

/-- The writes of `constructVal`. -/
def writesVal (elem targetElem : Ty) (v : InitVal checked) (off : Nat) :
    Except Fault (List (Nat × ConstExp)) :=
  match v with
  | .exp c => .ok [(off, c)]
  | .list _ vals => do
    let elem ← asArray elem
    let targetElem ← asArray targetElem
    writes elem targetElem vals off

/-- The writes of `construct`: each constant and the offset it is written at. -/
def writes (elem targetElem : Ty) (vals : InitVals checked) (off : Nat) :
    Except Fault (List (Nat × ConstExp)) :=
  match vals with
  | .nil => .ok []
  | .cons v vs => do
    let ws ← writesVal elem targetElem v off
    let ws' ← writes elem targetElem vs (off + targetElem.sizeOf)
    return ws ++ ws'

end

/-- The writes of `genInitVal` for a list. -/
def listWrites (type : Ty) (vals : InitVals checked) (target : Ty) :
    Except Fault (List (Nat × ConstExp)) := do
  let elem ← asArray type
  let target ← layoutType elem target
  let targetElem ← asArray target
  writes elem targetElem vals 0

/-- The bytes of a write. -/
def chunk (w : Nat × ConstExp) : Nat × List (BitVec 8) := (w.1, constBytes w.2)

def writeAll (buf : List (BitVec 8)) (ws : List (Nat × ConstExp)) :
    Except Fault (List (BitVec 8)) :=
  ws.foldlM (fun buf w => writeBytes buf w.1 (constBytes w.2)) buf

theorem writeAll_append (buf : List (BitVec 8)) (ws ws' : List (Nat × ConstExp)) :
    writeAll buf (ws ++ ws') = writeAll buf ws >>= fun buf => writeAll buf ws' :=
  List.foldlM_append

mutual

theorem constructVal_eq {buf : List (BitVec 8)} : ∀ {elem targetElem : Ty} {v : InitVal checked}
    {off : Nat} {ws : List (Nat × ConstExp)}, writesVal elem targetElem v off = .ok ws →
    constructVal elem targetElem v off buf = writeAll buf ws
  | elem, targetElem, .exp c, off, ws, h => by
    rw [writesVal] at h
    cases h
    rw [constructVal, writeAll, List.foldlM_cons]
    exact (bind_pure _).symm
  | elem, targetElem, .list type vals, off, ws, h => by
    rw [writesVal] at h
    obtain ⟨elem', helem, h⟩ := Except.bind_eq_ok.mp h
    obtain ⟨targetElem', htarget, h⟩ := Except.bind_eq_ok.mp h
    rw [constructVal, helem, htarget]
    exact construct_eq h

/-- `construct` performs its writes one after another. -/
theorem construct_eq {buf : List (BitVec 8)} : ∀ {elem targetElem : Ty} {vals : InitVals checked}
    {off : Nat} {ws : List (Nat × ConstExp)}, writes elem targetElem vals off = .ok ws →
    construct elem targetElem vals off buf = writeAll buf ws
  | elem, targetElem, .nil, off, ws, h => by
    rw [writes] at h
    cases h
    rfl
  | elem, targetElem, .cons v vs, off, ws, h => by
    rw [writes] at h
    obtain ⟨first, hfirst, h⟩ := Except.bind_eq_ok.mp h
    obtain ⟨rest, hrest, h⟩ := Except.bind_eq_ok.mp h
    cases h
    rw [construct, constructVal_eq hfirst, writeAll_append]
    refine bind_congr fun buf' => ?_
    exact construct_eq hrest

end

/-! ## What analysis has found out -/

/-- All elements are constants of the type. -/
def Consts (type : Ty) : InitVals checked → Prop
  | .nil => True
  | .cons v vs => (∃ c, v = .exp c ∧ c.type = type) ∧ Consts type vs

/-- A list of constants for an array of any dimensions. -/
def FitsFlat (target : Ty) (vals : InitVals checked) : Prop :=
  Consts target.flatElem vals ∧ vals.length ≤ target.flatLength

mutual

/-- An element that is a list fits an element of the target. The type of the elements
that analysis has given the list it is in has at least the same dimensions. -/
def FitsVal (elem target : Ty) : InitVal checked → Prop
  | .exp _ => False
  | .list _ vals =>
    (elem.isArray = true ∧ target.isArray = true ∧ FitsFlat target vals) ∨
      ∃ e m t n, elem = .array e m ∧ target = .array t n ∧ vals.length ≤ n ∧ FitsVals e t vals

def FitsVals (elem target : Ty) : InitVals checked → Prop
  | .nil => True
  | .cons v vs => FitsVal elem target v ∧ FitsVals elem target vs

end

variable {elem elem' target type : Ty} {vals : InitVals checked} {n m : Nat}

/-- Elements of a type without elements are constants. -/
theorem consts_of_typed (hof : elem.OfInit) (hscalar : elem.isArray = false) :
    ∀ {vals : InitVals checked}, vals.Typed elem → Consts elem vals
  | .nil, _ => trivial
  | .cons v vs, ⟨hv, hfit, hvs⟩ => by
    refine ⟨?_, consts_of_typed hof hscalar hvs⟩
    have hcases := (Ty.constructable_scalar hv.ofInit hof hscalar).mp hfit
    cases v with
    | exp c =>
      refine ⟨c, rfl, hcases.resolve_left ?_⟩
      cases c <;> nofun
    | list type vals =>
      obtain ⟨e, rfl, -⟩ := hv
      rcases hcases with h | rfl
      · cases h
      · cases hscalar

theorem Consts.mono (hof : elem.OfInit) (hof' : elem'.OfInit) (hscalar' : elem'.isArray = false)
    (hfit : elem.constructable elem' = true) :
    ∀ {vals : InitVals checked}, Consts elem vals → Consts elem' vals
  | .nil, _ => trivial
  | .cons v vs, ⟨⟨c, hc, htype⟩, hvs⟩ => by
    refine ⟨⟨c, hc, ?_⟩, hvs.mono hof hof' hscalar' hfit⟩
    rcases (Ty.constructable_scalar hof hof' hscalar').mp hfit with rfl | rfl
    · cases c <;> cases htype
    · exact htype

theorem fitsFlat_of_typed (htarget : target.OfInit) (harr : target.isArray = true)
    (hof : elem.OfInit) (hscalar : elem.isArray = false) (htyped : vals.Typed elem)
    (hfit : (Ty.array elem vals.length).constructable target = true) : FitsFlat target vals := by
  obtain ⟨t, n, rfl⟩ := Ty.exists_array harr
  obtain ⟨helem, hlen⟩ := (Ty.constructable_flat hscalar).mp hfit
  have hflat : t.flatElem.OfInit := Ty.OfInit.flatElem (a := t) htarget
  exact ⟨(consts_of_typed hof hscalar htyped).mono hof hflat (Ty.isArray_flatElem t) helem, hlen⟩

/-- Only lists may initialise arrays. -/
theorem isArray_of_typed {v : InitVal checked} (hv : v.Typed) (harr : target.isArray = true)
    (hfit : v.typeOf.constructable target = true) : v.typeOf.isArray = true := by
  obtain ⟨e, m, rfl⟩ := Ty.exists_array harr
  cases v with
  | exp c =>
    have hbot : c.type ≠ .bottom := by cases c <;> nofun
    have hscalar : c.type.isArray = false := by cases c <;> rfl
    cases (Ty.not_constructable_array c.ofInit_type hscalar hbot).symm.trans hfit
  | list type vals =>
    obtain ⟨e, rfl, -⟩ := hv
    rfl

mutual

/-- An accepted list fits every type that it may initialise. -/
theorem fitsVal_of_typed : ∀ {v : InitVal checked} {elem target : Ty}, v.Typed → elem.OfInit →
    target.OfInit → v.typeOf.isArray = true → v.typeOf.constructable elem = true →
    v.typeOf.constructable target = true → FitsVal elem target v
  | .exp c, _, _, _, _, _, harr, _, _ => by cases c <;> cases harr
  | .list _ vals, elem, target, ⟨e₀, rfl, hof, htyped⟩, helem, htarget, _, hfit, hfit' => by
    have harr := Ty.constructable_array (a := .array e₀ vals.length) hof helem rfl hfit
    have harr' := Ty.constructable_array (a := .array e₀ vals.length) hof htarget rfl hfit'
    rw [FitsVal]
    cases h₀ : e₀.isArray with
    | false => exact .inl ⟨harr, harr', fitsFlat_of_typed htarget harr' hof h₀ htyped hfit'⟩
    | true =>
      obtain ⟨e, m, rfl⟩ := Ty.exists_array harr
      obtain ⟨t, n, rfl⟩ := Ty.exists_array harr'
      obtain ⟨-, hle, -⟩ := (Ty.constructable_nested h₀).mp hfit
      obtain ⟨-, hle', hlen⟩ := (Ty.constructable_nested h₀).mp hfit'
      exact .inr ⟨e, m, t, n, rfl, rfl, hlen,
        fitsVals_of_typed htyped hof helem htarget h₀ hle hle'⟩

theorem fitsVals_of_typed : ∀ {vals : InitVals checked} {e₀ elem target : Ty}, vals.Typed e₀ →
    e₀.OfInit → elem.OfInit → target.OfInit → e₀.isArray = true →
    e₀.constructable elem = true → e₀.constructable target = true → FitsVals elem target vals
  | .nil, _, _, _, _, _, _, _, _, _, _ => trivial
  | .cons v vs, e₀, elem, target, ⟨hv, hfit, hvs⟩, hof, helem, htarget, h₀, hle, hle' => by
    have harr := isArray_of_typed hv h₀ hfit
    exact ⟨fitsVal_of_typed hv helem htarget harr
        (Ty.constructable_trans hv.ofInit hof helem hfit hle)
        (Ty.constructable_trans hv.ofInit hof htarget hfit hle'),
      fitsVals_of_typed hvs hof helem htarget h₀ hle hle'⟩

end

/-! ## Where constants land -/

/-- Where `construct` puts the element at a path. -/
def landing : Ty → List Nat → Nat
  | .array elem _, i :: path => i * elem.sizeOf + landing elem path
  | _, _ => 0

@[simp] theorem landing_nil (target : Ty) : landing target [] = 0 := by cases target <;> rfl

theorem writes_consts {off : Nat} :
    ∀ {vals : InitVals checked} {i : Nat}, Consts type vals →
      writes elem target vals (off + i * target.sizeOf) =
        .ok ((given vals i).map fun g => (off + landing (.array target n) g.1, g.2))
  | .nil, i, _ => rfl
  | .cons v vs, i, ⟨⟨c, hc, _⟩, hvs⟩ => by
    subst hc
    have hrest : writes elem target vs (off + (i + 1) * target.sizeOf) = _ := writes_consts hvs
    rw [writes, writesVal, Nat.add_assoc, ← Nat.succ_mul, hrest, given, givenVal]
    simp only [List.map_cons, List.map_nil, List.map_append, landing, landing_nil, Nat.add_zero]
    rfl

mutual

theorem writesVal_fits : ∀ {v : InitVal checked} {elem target : Ty} {off : Nat},
    FitsVal elem target v → writesVal elem target v off =
      .ok ((givenVal v).map fun g => (off + landing target g.1, g.2))
  | .list _ vals, elem, target, off, h => by
    rw [FitsVal] at h
    rcases h with ⟨harr, harr', hconsts, -⟩ | ⟨e, m, t, n, rfl, rfl, -, hvals⟩
    · obtain ⟨e, m, rfl⟩ := Ty.exists_array harr
      obtain ⟨t, n, rfl⟩ := Ty.exists_array harr'
      have hflat : writes e t vals (off + 0 * t.sizeOf) = _ := writes_consts (n := n) hconsts
      rw [Nat.zero_mul] at hflat
      exact hflat
    · have hnested : writes e t vals (off + 0 * t.sizeOf) = _ := writes_fits (n := n) hvals
      rw [Nat.zero_mul] at hnested
      exact hnested

theorem writes_fits : ∀ {vals : InitVals checked} {elem target : Ty} {n off i : Nat},
    FitsVals elem target vals → writes elem target vals (off + i * target.sizeOf) =
      .ok ((given vals i).map fun g => (off + landing (.array target n) g.1, g.2))
  | .nil, _, _, _, _, _, _ => rfl
  | .cons v vs, elem, target, n, off, i, ⟨hv, hvs⟩ => by
    have hrest : writes elem target vs (off + (i + 1) * target.sizeOf) = _ := writes_fits (n := n) hvs
    rw [writes, writesVal_fits hv, Nat.add_assoc, ← Nat.succ_mul, hrest, given, List.map_append,
      List.map_map]
    simp only [Function.comp_def, landing, Nat.add_assoc]
    rfl

end

/-! ## Positions -/

/-- Constants of the element type are given for positions from `lo` to `hi`, in order. -/
structure Spread (target : Ty) (lo : Nat) (gs : List (List Nat × ConstExp)) (hi : Nat) : Prop where
  types : ∀ g ∈ gs, g.2.type = target.flatElem
  inside : ∀ g ∈ gs, lo ≤ position target g.1 ∧ position target g.1 < hi
  sorted : gs.Pairwise fun g h => position target g.1 < position target h.1

variable {gs gs' : List (List Nat × ConstExp)} {lo mid hi i : Nat}

theorem Spread.nil : Spread target lo [] hi := ⟨nofun, nofun, List.Pairwise.nil⟩

theorem Spread.append (hlo : lo ≤ mid) (hhi : mid ≤ hi) (h : Spread target lo gs mid)
    (h' : Spread target mid gs' hi) : Spread target lo (gs ++ gs') hi := by
  refine ⟨fun g hg => ?_, fun g hg => ?_, ?_⟩
  · exact (List.mem_append.mp hg).elim (h.types g) (h'.types g)
  · rcases List.mem_append.mp hg with hg | hg
    · exact ⟨(h.inside g hg).1, (h.inside g hg).2.trans_le hhi⟩
    · exact ⟨hlo.trans (h'.inside g hg).1, (h'.inside g hg).2⟩
  · exact List.pairwise_append.mpr ⟨h.sorted, h'.sorted, fun g hg g' hg' =>
      (h.inside g hg).2.trans_le (h'.inside g' hg').1⟩

theorem Spread.mono (hle : hi ≤ n) (h : Spread target lo gs hi) : Spread target lo gs n :=
  ⟨h.types, fun g hg => ⟨(h.inside g hg).1, (h.inside g hg).2.trans_le hle⟩, h.sorted⟩

@[simp] theorem position_single (target : Ty) (i : Nat) : position target [i] = i := by
  cases target <;> rfl

theorem spread_consts : ∀ {vals : InitVals checked} {i : Nat}, Consts target.flatElem vals →
    Spread target i (given vals i) (i + vals.length)
  | .nil, i, _ => Spread.nil
  | .cons v vs, i, ⟨⟨c, hc, htype⟩, hvs⟩ => by
    subst hc
    have hrest : Spread target (i + 1) (given vs (i + 1)) (i + 1 + vs.length) := spread_consts hvs
    have hfirst : Spread target i [([i], c)] (i + 1) := by
      refine ⟨?_, ?_, List.pairwise_singleton _ _⟩ <;> intro g hg <;> cases List.mem_singleton.mp hg
      · exact htype
      · rw [position_single]
        exact ⟨Nat.le_refl i, Nat.lt_succ_self i⟩
    rw [Nat.add_right_comm] at hrest
    exact hfirst.append (Nat.le_succ i) (Nat.succ_le_succ (Nat.le_add_right i _)) hrest

theorem given_ne_nil : ∀ {vals : InitVals checked} {i : Nat}, ∀ g ∈ given vals i, g.1 ≠ []
  | .nil, _, g, hg => by cases hg
  | .cons v vs, i, g, hg => by
    rw [given] at hg
    rcases List.mem_append.mp hg with hg | hg
    · obtain ⟨g', -, rfl⟩ := List.mem_map.mp hg
      exact List.cons_ne_nil _ _
    · exact given_ne_nil g hg

theorem position_cons {path : List Nat} (h : path ≠ []) :
    position (.array target n) (i :: path) = i * target.flatLength + position target path := by
  cases path with
  | nil => exact (h rfl).elim
  | cons j path => rfl

/-- The elements of a part, seen from the array it is a part of. -/
theorem Spread.part (hne : ∀ g ∈ gs, g.1 ≠ []) (h : Spread target 0 gs target.flatLength) :
    Spread (.array target n) (i * target.flatLength)
      (gs.map fun g => (i :: g.1, g.2)) ((i + 1) * target.flatLength) := by
  refine ⟨fun g hg => ?_, fun g hg => ?_, ?_⟩
  · obtain ⟨g', hg', rfl⟩ := List.mem_map.mp hg
    exact h.types g' hg'
  · obtain ⟨g', hg', rfl⟩ := List.mem_map.mp hg
    have hlt := (h.inside g' hg').2
    rw [position_cons (hne g' hg'), Nat.succ_mul]
    exact ⟨Nat.le_add_right _ _, Nat.add_lt_add_left hlt _⟩
  · refine List.pairwise_map.mpr (h.sorted.imp_of_mem fun hg hg' hlt => ?_)
    rw [position_cons (hne _ hg), position_cons (hne _ hg')]
    exact Nat.add_lt_add_left hlt _

mutual

theorem spread_val : ∀ {v : InitVal checked} {elem target : Ty}, FitsVal elem target v →
    Spread target 0 (givenVal v) target.flatLength ∧ ∀ g ∈ givenVal v, g.1 ≠ []
  | .list _ vals, elem, target, h => by
    rw [FitsVal] at h
    refine ⟨?_, given_ne_nil⟩
    rcases h with ⟨-, -, hconsts, hlen⟩ | ⟨e, m, t, n, rfl, rfl, hlen, hvals⟩
    · have hspread : Spread target 0 (given vals 0) (0 + vals.length) := spread_consts hconsts
      exact hspread.mono (by rwa [Nat.zero_add])
    · have hspread := spread_vals (n := n) (i := 0) hvals
      rw [Nat.zero_mul, Nat.zero_add] at hspread
      exact hspread.mono (Nat.mul_le_mul_right _ hlen)

theorem spread_vals : ∀ {vals : InitVals checked} {elem target : Ty} {n i : Nat},
    FitsVals elem target vals → Spread (.array target n) (i * target.flatLength) (given vals i)
      ((i + vals.length) * target.flatLength)
  | .nil, _, _, _, _, _ => Spread.nil
  | .cons v vs, elem, target, n, i, ⟨hv, hvs⟩ => by
    obtain ⟨hval, hne⟩ := spread_val hv
    have hrest := spread_vals (n := n) (i := i + 1) hvs
    rw [Nat.add_right_comm] at hrest
    exact (hval.part hne).append (Nat.mul_le_mul_right _ (Nat.le_succ i))
      (Nat.mul_le_mul_right _ (Nat.succ_le_succ (Nat.le_add_right i _))) hrest

end

/-! ## Lists that are put in position -/

/-- A list of constants, not of lists. -/
def isFlat {d : Decor} : InitVals d → Bool
  | .cons (.exp _) _ => true
  | _ => false

mutual

/-- Every list of several constants in it is for an array whose elements have one
constant each. -/
def RegularVal {d : Decor} : Ty → InitVal d → Prop
  | .array elem _, .list _ vals =>
    (isFlat vals = true → vals.length ≤ 1 ∨ elem.flatLength = 1) ∧ RegularVals elem vals
  | _, _ => True

def RegularVals {d : Decor} (elem : Ty) : InitVals d → Prop
  | .nil => True
  | .cons v vs => RegularVal elem v ∧ RegularVals elem vs

end

/-- The lists in an initialiser are regular: at the top constants may stand for an array
of any dimensions. -/
def Regular {d : Decor} (target : Ty) (vals : InitVals d) : Prop :=
  ∀ elem n, target = .array elem n → RegularVals elem vals

theorem regularVals_consts : ∀ {vals : InitVals checked}, Consts type vals → RegularVals elem vals
  | .nil, _ => trivial
  | .cons v vs, ⟨⟨c, hc, _⟩, hvs⟩ => by
    subst hc
    exact ⟨by cases elem <;> trivial, regularVals_consts hvs⟩

theorem isFlat_fits : FitsVals elem target vals → isFlat vals = false := by
  intro h
  cases vals with
  | nil => rfl
  | cons v vs =>
    cases v with
    | exp c => exact h.1.elim
    | list _ _ => rfl

theorem mem_given_consts : ∀ {vals : InitVals checked} {i : Nat}, Consts type vals →
    ∀ path, (∃ c, (path, c) ∈ given vals i) ↔ ∃ k, path = [k] ∧ i ≤ k ∧ k < i + vals.length
  | .nil, i, _, path => by
    constructor
    · rintro ⟨c, hc⟩
      cases hc
    · rintro ⟨k, -, hle, hlt⟩
      rw [InitVals.length] at hlt
      omega
  | .cons v vs, i, ⟨⟨c₀, hc, _⟩, hvs⟩, path => by
    subst hc
    have hrest := mem_given_consts (i := i + 1) hvs path
    have hsplit : (∃ c, (path, c) ∈ given (InitVals.cons (.exp c₀) vs) i) ↔
        path = [i] ∨ ∃ c, (path, c) ∈ given vs (i + 1) := by
      simp only [given, givenVal, List.map_cons, List.map_nil, List.singleton_append, List.mem_cons,
        Prod.mk.injEq, exists_or, exists_and_left, exists_eq, and_true]
    rw [hsplit, hrest, InitVals.length]
    constructor
    · rintro (rfl | ⟨k, rfl, hle, hlt⟩)
      · exact ⟨i, rfl, by omega, by omega⟩
      · exact ⟨k, rfl, by omega, by omega⟩
    · rintro ⟨k, rfl, hle, hlt⟩
      by_cases hk : k = i
      · exact .inl (by rw [hk])
      · exact .inr ⟨k, rfl, by omega, by omega⟩

/-- Constants one row apart are in their positions if a row is one constant. -/
theorem landing_consts (hpos : 0 < target.flatElem.sizeOf) (h : Consts type vals) :
    (∀ g ∈ given vals 0, landing (.array target n) g.1 = offset (.array target n) g.1) ↔
      (vals.length ≤ 1 ∨ target.flatLength = 1) := by
  have hland : ∀ k : Nat, landing (.array target n) [k] = offset (.array target n) [k] ↔
      k = 0 ∨ target.flatLength = 1 := by
    intro k
    rw [landing, landing_nil, offset, position_single, Ty.flatElem, Ty.sizeOf_flat, Nat.add_zero]
    constructor
    · intro heq
      rcases Nat.eq_zero_or_pos k with hk | hk
      · exact .inl hk
      · have hcancel := Nat.eq_of_mul_eq_mul_left hk heq
        exact .inr (Nat.eq_of_mul_eq_mul_left hpos (by rw [hcancel, Nat.mul_one]))
    · rintro (rfl | h1)
      · rw [Nat.zero_mul, Nat.zero_mul]
      · rw [h1, Nat.mul_one]
  constructor
  · intro hall
    by_cases hlen : vals.length ≤ 1
    · exact .inl hlen
    · obtain ⟨c, hc⟩ := (mem_given_consts (i := 0) h [1]).mpr ⟨1, rfl, by omega, by omega⟩
      exact ((hland 1).mp (hall _ hc)).imp (fun h => by omega) id
  · intro hcond g hg
    obtain ⟨k, hk, -, hlt⟩ := (mem_given_consts (i := 0) h g.1).mp ⟨g.2, hg⟩
    rw [hk, hland]
    exact hcond.imp (fun hlen => by omega) id

/-- In a part a constant is in position if it is in the array. -/
theorem landing_part {path : List Nat} (hne : path ≠ []) :
    landing (.array target n) (i :: path) = offset (.array target n) (i :: path) ↔
      landing target path = offset target path := by
  rw [landing, offset, position_cons hne, Ty.flatElem, Ty.sizeOf_flat, offset, Nat.add_mul,
    Nat.mul_comm target.flatElem.sizeOf, ← Nat.mul_assoc, Nat.add_left_cancel_iff]

mutual

theorem regularVal_iff : ∀ {v : InitVal checked} {elem target : Ty}, 0 < target.flatElem.sizeOf →
    FitsVal elem target v →
    (RegularVal target v ↔ ∀ g ∈ givenVal v, landing target g.1 = offset target g.1)
  | .list _ vals, elem, target, hpos, h => by
    rw [FitsVal] at h
    rcases h with ⟨-, harr, hconsts, -⟩ | ⟨e, m, t, n, rfl, rfl, -, hvals⟩
    · obtain ⟨t, n, rfl⟩ := Ty.exists_array harr
      have ht : 0 < t.flatElem.sizeOf := hpos
      rw [RegularVal, givenVal, landing_consts ht hconsts]
      constructor
      · rintro ⟨hflat, -⟩
        cases vals with
        | nil => exact .inl (Nat.zero_le 1)
        | cons v vs =>
          obtain ⟨⟨c, rfl, -⟩, -⟩ := hconsts
          exact hflat rfl
      · exact fun hcond => ⟨fun _ => hcond, regularVals_consts hconsts⟩
    · have ht : 0 < t.flatElem.sizeOf := hpos
      rw [RegularVal, givenVal, isFlat_fits hvals, regularVals_iff (n := n) (i := 0) ht hvals]
      exact ⟨fun h => h.2, fun h => ⟨nofun, h⟩⟩

theorem regularVals_iff : ∀ {vals : InitVals checked} {elem target : Ty} {n i : Nat},
    0 < target.flatElem.sizeOf → FitsVals elem target vals → (RegularVals target vals ↔
      ∀ g ∈ given vals i, landing (.array target n) g.1 = offset (.array target n) g.1)
  | .nil, _, _, _, _, _, _ => ⟨fun _ => nofun, fun _ => trivial⟩
  | .cons v vs, elem, target, n, i, hpos, ⟨hv, hvs⟩ => by
    have hne := (spread_val hv).2
    rw [RegularVals, regularVal_iff hpos hv, regularVals_iff (n := n) (i := i + 1) hpos hvs, given]
    simp only [List.mem_append, or_imp, forall_and, List.mem_map, forall_exists_index, and_imp,
      forall_apply_eq_imp_iff₂]
    refine and_congr_left fun _ => forall₂_congr fun g hg => ?_
    exact (landing_part (hne g hg)).symm

end

/-! ## The buffer -/

/-- Each constant of a list is in the buffer in its position, and the rest is zero. -/
structure Initialised (target : Ty) (vals : InitVals checked) (buf : List (BitVec 8)) : Prop where
  length : buf.length = target.sizeOf
  given : ∀ g ∈ given vals 0, ∀ k < (constBytes g.2).length,
    buf[offset target g.1 + k]? = (constBytes g.2)[k]?
  zero : ∀ k < buf.length, (∀ g ∈ Gen.given vals 0,
    k < offset target g.1 ∨ offset target g.1 + (constBytes g.2).length ≤ k) → buf[k]? = some 0

/-- Generation writes each constant of a list in its position, stays inside of the buffer
and leaves the rest zero. -/
def InPlace (type : Ty) (vals : InitVals checked) (target : Ty) : Prop :=
  ∃ ws buf, listWrites type vals target = .ok ws ∧
    genInitVal (.list type vals) target = .ok ⟨target.flatten, .bytes buf⟩ ∧
    ws = (given vals 0).map (fun g => (offset target g.1, g.2)) ∧
    Buffer.Inside target.sizeOf (ws.map chunk) ∧ Initialised target vals buf

theorem length_constBytes (c : ConstExp) : (constBytes c).length = c.type.sizeOf := by
  cases c <;> exact length_bytesOf _ _

theorem writeAll_eq : ∀ {ws : List (Nat × ConstExp)} {buf : List (BitVec 8)},
    Buffer.Inside buf.length (ws.map chunk) → writeAll buf ws = .ok (Buffer.puts buf (ws.map chunk))
  | [], _, _ => rfl
  | w :: ws, buf, h => by
    have hw : w.1 + (constBytes w.2).length ≤ buf.length := h (chunk w) List.mem_cons_self
    have hwrite : writeBytes buf w.1 (constBytes w.2) =
        .ok (Buffer.put buf w.1 (constBytes w.2)) := if_pos hw
    have hrest : Buffer.Inside (Buffer.put buf w.1 (constBytes w.2)).length (ws.map chunk) := by
      rw [Buffer.length_put hw]
      exact fun w' hw' => h w' (List.mem_cons_of_mem _ hw')
    rw [writeAll, List.foldlM_cons, hwrite]
    exact writeAll_eq hrest

section Chunks

variable (h : Spread target 0 gs target.flatLength)
include h

theorem Spread.length_chunk {g : List Nat × ConstExp} (hg : g ∈ gs) :
    (constBytes g.2).length = target.flatElem.sizeOf := by
  rw [length_constBytes, h.types g hg]

theorem Spread.chunks_inside :
    Buffer.Inside target.sizeOf ((gs.map fun g => (offset target g.1, g.2)).map chunk) := by
  intro w hw
  obtain ⟨w', hw', rfl⟩ := List.mem_map.mp hw
  obtain ⟨g, hg, rfl⟩ := List.mem_map.mp hw'
  have hlt : position target g.1 + 1 ≤ target.flatLength := (h.inside g hg).2
  calc offset target g.1 + (constBytes g.2).length
      = (position target g.1 + 1) * target.flatElem.sizeOf := by
        rw [h.length_chunk hg, offset, Nat.succ_mul]
    _ ≤ target.flatLength * target.flatElem.sizeOf := Nat.mul_le_mul_right _ hlt
    _ = target.sizeOf := (Nat.mul_comm _ _).trans target.sizeOf_flat.symm

theorem Spread.chunks_apart :
    Buffer.Apart ((gs.map fun g => (offset target g.1, g.2)).map chunk) := by
  refine List.pairwise_map.mpr (List.pairwise_map.mpr (h.sorted.imp_of_mem fun {g g'} hg _ hlt => ?_))
  calc offset target g.1 + (constBytes g.2).length
      = (position target g.1 + 1) * target.flatElem.sizeOf := by
        rw [h.length_chunk hg, offset, Nat.succ_mul]
    _ ≤ position target g'.1 * target.flatElem.sizeOf := Nat.mul_le_mul_right _ hlt

end Chunks

/-- A buffer of zeros after the constants are written in their positions. -/
theorem initialised_puts (h : Spread target 0 (given vals 0) target.flatLength) :
    Initialised target vals (Buffer.puts (List.replicate target.sizeOf 0)
      (((given vals 0).map fun g => (offset target g.1, g.2)).map chunk)) := by
  have hinside := h.chunks_inside
  rw [← List.length_replicate (n := target.sizeOf) (a := (0 : BitVec 8))] at hinside
  have hlen := Buffer.length_puts hinside
  rw [List.length_replicate] at hlen
  refine ⟨hlen, fun g hg k hk => ?_, fun k hk hout => ?_⟩
  · exact Buffer.getElem?_puts_inside hinside h.chunks_apart
      (List.mem_map_of_mem (List.mem_map_of_mem hg)) hk
  · rw [Buffer.getElem?_puts_outside hinside, List.getElem?_replicate_of_lt (by rwa [hlen] at hk)]
    intro w hw
    obtain ⟨w', hw', rfl⟩ := List.mem_map.mp hw
    obtain ⟨g, hg, rfl⟩ := List.mem_map.mp hw'
    exact hout g hg

/-! ## Accepted lists -/

theorem layoutType_flat (h : elem.isArray = false) :
    layoutType elem (.array target n) = .ok (Ty.array target n).flatten := by
  cases htarget : target.isArray with
  | true => simp [layoutType, asArray, h, htarget]
  | false =>
    have hflatten : (Ty.array target n).flatten = .array target n := by
      rw [Ty.flatten, Ty.flatElem_of_not_array htarget, Ty.flatLength_of_not_array htarget,
        Nat.mul_one]
    rw [hflatten]
    simp [layoutType, asArray, h, htarget]

theorem layoutType_nested (h : elem.isArray = true) :
    layoutType elem (.array target n) = .ok (.array target n) := by
  simp [layoutType, asArray, h]

theorem flatten_flatten (t : Ty) : t.flatten.flatten = t.flatten := by
  cases t with
  | array elem n =>
    have hscalar := Ty.isArray_flatElem elem
    simp only [Ty.flatten, Ty.flatElem_of_not_array hscalar, Ty.flatLength_of_not_array hscalar,
      Nat.mul_one]
  | _ => rfl

/-- How generation goes about a list, and when it writes what it should. -/
structure Written (elem : Ty) (vals : InitVals checked) (target : Ty)
    (ws : List (Nat × ConstExp)) : Prop where
  layout : ∃ t n, layoutType elem target = .ok (.array t n) ∧
    (Ty.array t n).flatten = target.flatten ∧ (Ty.array t n).sizeOf = target.sizeOf ∧
    writes elem t vals 0 = .ok ws
  spread : Spread target 0 (given vals 0) target.flatLength
  placed_iff : ws = (given vals 0).map (fun g => (offset target g.1, g.2)) ↔ Regular target vals

theorem written_flat (hscalar : elem.isArray = false) (h : FitsFlat (.array target n) vals) :
    ∃ ws, Written elem vals (.array target n) ws := by
  obtain ⟨hconsts, hlen⟩ := h
  have hws : writes elem target.flatElem vals (0 + 0 * target.flatElem.sizeOf) = _ :=
    writes_consts (n := n * target.flatLength) hconsts
  rw [Nat.zero_mul] at hws
  refine ⟨_, ⟨_, _, layoutType_flat hscalar,
    flatten_flatten (.array target n), ?_, hws⟩, ?_, ?_⟩
  · exact Ty.sizeOf_flatten (.array target n)
  · have hspread : Spread (.array target n) 0 (given vals 0) (0 + vals.length) :=
      spread_consts hconsts
    exact hspread.mono (by rwa [Nat.zero_add])
  · refine iff_of_true (List.map_congr_left fun g hg => ?_) ?_
    · -- the flattened type has the elements where the positions are
      obtain ⟨k, hk, -⟩ := (mem_given_consts (i := 0) hconsts g.1).mp ⟨g.2, hg⟩
      rw [hk, landing, landing_nil, offset, position_single, Nat.zero_add, Nat.add_zero, Ty.flatElem]
    · intro t m ht
      cases ht
      exact regularVals_consts hconsts

theorem written_nested (harr : elem.isArray = true) (hpos : 0 < target.flatElem.sizeOf)
    (h : FitsVals elem target vals) (hlen : vals.length ≤ n) :
    ∃ ws, Written elem vals (.array target n) ws := by
  have hws : writes elem target vals (0 + 0 * target.sizeOf) = _ := writes_fits (n := n) h
  rw [Nat.zero_mul] at hws
  refine ⟨_, ⟨target, n, layoutType_nested harr, rfl, rfl, hws⟩, ?_, ?_⟩
  · have hspread := spread_vals (n := n) (i := 0) h
    rw [Nat.zero_mul, Nat.zero_add] at hspread
    exact hspread.mono (Nat.mul_le_mul_right _ hlen)
  · have hregular : Regular (.array target n) vals ↔ RegularVals target vals := by
      constructor
      · exact fun hall => hall target n rfl
      · intro hvals t m ht
        cases ht
        exact hvals
    rw [hregular, regularVals_iff (n := n) (i := 0) hpos h, List.map_inj_left]
    simp only [Nat.zero_add, Prod.mk.injEq, and_true]

theorem flatElem_arrayType (t : BasicType) : ∀ dims : List Nat,
    (arrayType t.toTy dims).OfInit ∧ (arrayType t.toTy dims).flatElem = t.toTy
  | [] => by cases t <;> exact ⟨trivial, rfl⟩
  | _ :: dims => flatElem_arrayType t dims

theorem written_of_accepted {raws : InitVals raw} {t : BasicType} {dims : List Nat}
    (h : analysisInitVal (.list () raws) = .ok (.list type vals))
    (hfit : type.constructable (arrayType t.toTy dims) = true) :
    ∃ elem ws, type = .array elem vals.length ∧ Written elem vals (arrayType t.toTy dims) ws := by
  obtain ⟨elem, rfl, hof, htyped⟩ := analysisInitVal_typed h
  obtain ⟨htarget, hflat⟩ := flatElem_arrayType t dims
  have hpos : 0 < (arrayType t.toTy dims).flatElem.sizeOf := by
    rw [hflat]
    cases t <;> decide
  have harr := Ty.constructable_array (a := .array elem vals.length) hof htarget rfl hfit
  generalize arrayType t.toTy dims = target at *
  obtain ⟨e, n, rfl⟩ := Ty.exists_array harr
  have he : e.OfInit := htarget
  have hposElem : 0 < e.flatElem.sizeOf := hpos
  refine ⟨elem, ?_⟩
  cases hscalar : elem.isArray with
  | false =>
    have hfits := fitsFlat_of_typed htarget harr hof hscalar htyped hfit
    obtain ⟨ws, hws⟩ := written_flat hscalar hfits
    exact ⟨ws, rfl, hws⟩
  | true =>
    obtain ⟨-, hle, hlen⟩ := (Ty.constructable_nested hscalar).mp hfit
    have hfits := fitsVals_of_typed htyped hof hof he hscalar (Ty.constructable_refl hof) hle
    obtain ⟨ws, hws⟩ := written_nested hscalar hposElem hfits hlen
    exact ⟨ws, rfl, hws⟩

theorem Written.inPlace {ws : List (Nat × ConstExp)} (h : Written elem vals target ws) :
    InPlace (.array elem m) vals target ↔ Regular target vals := by
  obtain ⟨t, n, hlayout, hflatten, hsize, hws⟩ := h.layout
  have hlist : listWrites (.array elem m) vals target = .ok ws := by
    rw [listWrites, asArray]
    show layoutType elem target >>= _ = _
    rw [hlayout]
    exact hws
  rw [← h.placed_iff]
  constructor
  · rintro ⟨ws', buf, hws', -, rfl, -⟩
    exact Except.ok.inj (hlist.symm.trans hws')
  · intro hplace
    refine ⟨ws, _, hlist, ?_, hplace, ?_, initialised_puts h.spread⟩
    · have hinside := h.spread.chunks_inside
      rw [← hplace, ← List.length_replicate (n := target.sizeOf) (a := (0 : BitVec 8))] at hinside
      rw [genInitVal, asArray]
      show layoutType elem target >>= _ = _
      rw [hlayout]
      show construct elem t vals 0 (List.replicate (Ty.array t n).sizeOf 0) >>= _ = _
      rw [construct_eq hws, hsize, writeAll_eq hinside, ← hplace, hflatten]
      rfl
    · rw [hplace]
      exact h.spread.chunks_inside

/-- A list of constants. -/
def constList {d : Decor} : List Int → InitVals d
  | [] => .nil
  | v :: vs => .cons (.exp (.int (BitVec.ofInt 32 v))) (constList vs)

/-- `{{1}, {}, {2, 3}}`, where the lists have these decorations. -/
def jagged {d : Decor} (a b c : d.type) : InitVals d :=
  .cons (.list a (constList [1])) (.cons (.list b .nil) (.cons (.list c (constList [2, 3])) .nil))

/-- `{{{1, 2}, {3, 4}}, {5, 6, 7, 8}}` -/
def flatSublist {d : Decor} (a b c e : d.type) : InitVals d :=
  .cons (.list a (.cons (.list b (constList [1, 2])) (.cons (.list c (constList [3, 4])) .nil)))
    (.cons (.list e (constList [5, 6, 7, 8])) .nil)

end Gen

end Cact
