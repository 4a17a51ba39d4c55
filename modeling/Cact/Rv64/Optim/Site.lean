import Cact.Rv64.Optim.Passes
import Cact.Rv64.Window

/-!
# A window of a module as a window of its code

Filling two windows into one site gives two modules whose images differ in a
window (`Splice`). The functions and blocks around the window only matter through
the labels they carry, and these move with the code.

- `labelsOf_append`, `labelsOf_move`, `mem_labelsOf`: where labels point.
- `Site.splice`: the two images.
- `Site.init_related`: the runs of both modules start in related states.
-/

namespace Cact

namespace Rv64

open Ir (Fault)

/-! ## Labels -/

@[simp] theorem flatOf_nil : flatOf [] = [] := rfl

@[simp] theorem flatOf_cons (b : Block) (bs : List Block) :
    flatOf (b :: bs) = b.insts ++ flatOf bs := rfl

@[simp] theorem flatOf_append (as bs : List Block) : flatOf (as ++ bs) = flatOf as ++ flatOf bs :=
  List.flatMap_append

theorem labelsOf_append (n : Nat) (as bs : List Block) :
    labelsOf n (as ++ bs) = labelsOf n as ++ labelsOf (n + (flatOf as).length) bs := by
  induction as generalizing n with
  | nil => simp [labelsOf]
  | cons b as ih => simp [labelsOf, ih, Nat.add_assoc]

theorem mem_labelsOf {n : Nat} {bs : List Block} {e : String × Nat} (h : e ∈ labelsOf n bs) :
    n ≤ e.2 ∧ e.2 ≤ n + (flatOf bs).length := by
  induction bs generalizing n with
  | nil => cases h
  | cons b bs ih =>
    simp only [flatOf_cons, List.length_append]
    obtain rfl | h := List.mem_cons.mp h
    · simp
    · have hb := ih h
      omega

/-- Labels move with the code they stand in. -/
theorem labelsOf_move {f : Nat → Nat} {n n' : Nat} (bs : List Block)
    (hf : ∀ k, f (n + k) = n' + k) :
    (labelsOf n bs).map (fun e => (e.1, f e.2)) = labelsOf n' bs := by
  induction bs generalizing n n' with
  | nil => rfl
  | cons b bs ih =>
    have hn : f n = n' := hf 0
    have htail : ∀ k, f (n + b.insts.length + k) = n' + b.insts.length + k := by
      intro k
      rw [Nat.add_assoc, hf, Nat.add_assoc]
    simp only [labelsOf, List.map_cons, hn, ih htail]

theorem labelsOf_fixed {f : Nat → Nat} {n : Nat} (bs : List Block)
    (hf : ∀ k ≤ n + (flatOf bs).length, f k = k) :
    (labelsOf n bs).map (fun e => (e.1, f e.2)) = labelsOf n bs := by
  refine (List.map_congr_left fun e he => ?_).trans (List.map_id' _)
  rw [hf e.2 (mem_labelsOf he).2]

namespace Optim

namespace Site

variable (s : Site)

/-- The blocks before the one with the window. -/
def outerBefore : List Block := s.funcsBefore.flatMap Func.blocks ++ s.blocksBefore

/-- The blocks after the one with the window. -/
def outerAfter : List Block := s.blocksAfter ++ s.funcsAfter.flatMap Func.blocks

theorem plug_blocks (w : List Inst) :
    (s.plug w).blocks =
      s.outerBefore ++ ⟨s.label, s.before ++ w ++ s.after⟩ :: s.outerAfter := by
  simp [plug, Module.blocks, plugFunc, outerBefore, outerAfter]

theorem plug_flat (w : List Inst) : (s.plug w).flat = s.codeBefore ++ w ++ s.codeAfter := by
  unfold Module.flat
  rw [plug_blocks]
  simp [codeBefore, codeAfter, outerBefore, outerAfter]

theorem plug_labels (w : List Inst) :
    (s.plug w).labels = labelsOf 0 s.outerBefore ++
      (s.label, (flatOf s.outerBefore).length) ::
        labelsOf (s.codeBefore.length + w.length + s.after.length) s.outerAfter := by
  unfold Module.labels
  rw [plug_blocks, labelsOf_append]
  simp only [labelsOf, Nat.zero_add, codeBefore, outerBefore, List.length_append]
  congr 3
  omega

/-- The images of the site with two windows. -/
def splice (w w' : List Inst) : Splice :=
  ⟨s.codeBefore, w, w', s.codeAfter, (s.plug w).labels, (s.plug w).image.symbols⟩

variable (w w' : List Inst)

theorem plug_image : (s.plug w).image = (s.splice w w').source := by
  unfold Module.image Splice.source
  rw [plug_flat]
  rfl

theorem outerBefore_le : (flatOf s.outerBefore).length ≤ s.codeBefore.length := by
  simp [codeBefore, outerBefore]

theorem labelsOutside : (s.splice w w').LabelsOutside := by
  intro e he
  have hle := s.outerBefore_le
  change e ∈ (s.plug w).labels at he
  rw [plug_labels] at he
  simp only [List.mem_append, List.mem_cons] at he
  obtain he | rfl | he := he
  · have hb := (mem_labelsOf he).2
    left
    simp only [splice]
    omega
  · exact .inl hle
  · have hb := (mem_labelsOf he).1
    right
    simp only [splice]
    omega

theorem labels_moved (hpos : 0 < w.length) :
    (s.plug w').labels = (s.splice w w').target.labels := by
  have hle := s.outerBefore_le
  have hmove : ∀ k ≤ s.codeBefore.length, (s.splice w w').move k = k :=
    fun k hk => Splice.move_le hk
  change _ = (s.plug w).labels.map _
  rw [plug_labels, plug_labels, List.map_append, List.map_cons,
    labelsOf_fixed _ fun k hk => hmove k (by omega), hmove _ hle]
  congr 2
  refine (labelsOf_move _ fun k => ?_).symm
  rw [Splice.move_ge (by simp only [splice]; omega) hpos]
  simp only [splice]
  omega

theorem plug_image' (hpos : 0 < w.length) : (s.plug w').image = (s.splice w w').target := by
  have hl := labels_moved s w w' hpos
  unfold Module.image
  rw [plug_flat, hl]
  rfl

/-- A label has moved with the code. -/
theorem findLabel_plug (hpos : 0 < w.length) (l : String) :
    findLabel (s.plug w').labels l =
      (findLabel (s.plug w).labels l).map (s.splice w w').move := by
  rw [labels_moved s w w' hpos]
  exact Splice.findLabel_target l

/-- The labels a window needs and does not find. -/
def missing (labels : List (String × Nat)) (w : List Inst) : Option String :=
  (w.filterMap needsLabel).find? fun l => (findLabel labels l).isNone

theorem undefinedLabel_plug (hpos : 0 < w.length)
    (hneeds : missing (s.plug w).labels w' = missing (s.plug w).labels w) :
    undefinedLabel (s.plug w').flat (s.plug w').labels =
      undefinedLabel (s.plug w).flat (s.plug w).labels := by
  have hdef : (fun l => (findLabel (s.plug w').labels l).isNone) =
      fun l => (findLabel (s.plug w).labels l).isNone := by
    funext l
    rw [findLabel_plug s w w' hpos, Option.isNone_map]
  unfold missing at hneeds
  unfold undefinedLabel
  rw [hdef, plug_flat, plug_flat]
  simp only [List.filterMap_append, List.find?_append, hneeds]

/-- The runs of both modules start in related states. -/
theorem init_related (env : Env) (input : env.Input) (hpos : 0 < w.length)
    (hneeds : missing (s.plug w).labels w' = missing (s.plug w).labels w) :
    (s.splice w w').Related (initConf env (s.plug w) input) (initConf env (s.plug w') input) := by
  have hundef := undefinedLabel_plug s w w' hpos hneeds
  have hmain := findLabel_plug s w w' hpos "main"
  have hplace (v : List Inst) : placeGlobals (s.plug v).globals (s.plug v).floatLiterals =
      placeGlobals s.globals s.floatLiterals := rfl
  unfold initConf
  rw [hplace w, hplace w']
  cases placeGlobals s.globals s.floatLiterals with
  | error e => exact ⟨rfl, Splice.outside_zero, by simp, by simp [State.relocate], fun _ _ => rfl⟩
  | ok p =>
    simp only [entryPoint, hundef]
    cases undefinedLabel (s.plug w).flat (s.plug w).labels with
    | some l => exact ⟨rfl, Splice.outside_zero, by simp, by simp [State.relocate], fun _ _ => rfl⟩
    | none =>
      simp only [hmain]
      cases hm : findLabel (s.plug w).labels "main" with
      | none =>
        exact ⟨rfl, Splice.outside_zero, by simp, by simp [State.relocate], fun _ _ => rfl⟩
      | some pc =>
        obtain ⟨e, he, rfl⟩ := Splice.mem_of_findLabel hm
        exact ⟨rfl, labelsOutside s w w' e he, by simp, by simp [State.relocate], fun _ _ => rfl⟩

end Site

end Optim

end Rv64
end Cact
