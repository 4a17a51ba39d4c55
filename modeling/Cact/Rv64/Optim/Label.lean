import Cact.Rv64.Optim.Site

/-!
# `DeadLabelElimination` is right

The pass moves no instruction: the module has the same code before and after it,
and every label an instruction mentions keeps its place. The one label that the
machine looks up by itself is `main`, and it is kept when it is the label of a
function.

- `Module.WellFormed`: what instruction selection guarantees.
- `DeadLabelElimination.flat_eq`, `DeadLabelElimination.labels_eq`: the code and
  the labels after the pass.
- `DeadLabelElimination.obsEq`: the runs are the same.
-/

namespace Cact

namespace Rv64

open Ir (Fault)

/-- What instruction selection guarantees: it emits no instruction that handles the
program counter as a number, and only a function's first block is labelled like
a function (the others have labels that start with `.L`). -/
structure Module.WellFormed (m : Module) : Prop where
  noPc : ∀ inst ∈ m.flat, inst.usesPc = false
  mainFirst : ∀ f ∈ m.funcs, "main" ∉ (f.blocks.map Block.label).tail

theorem labelsOf_fst (n : Nat) (bs : List Block) :
    (labelsOf n bs).map Prod.fst = bs.map Block.label := by
  induction bs generalizing n with
  | nil => rfl
  | cons b bs ih => simp [labelsOf, ih]

/-- An instruction sees of the labels only the one it mentions. -/
theorem exec_congr {env : Env} {img img' : Image} {inst : Inst} (s : State env)
    (hsym : img'.symbols = img.symbols) (hlen : img'.code.length = img.code.length)
    (htgt : ∀ l, inst.target = some l → img'.branchTarget l = img.branchTarget l) :
    exec img' inst s = exec img inst s := by
  cases inst with
  | instB i => simp only [exec, execB, htgt i.target rfl]
  | instJ i => simp only [exec, execJ, htgt i.target rfl]
  | pseudoB i => simp only [exec, execPseudoB, htgt i.target rfl]
  | pseudoJ i => simp only [exec, execPseudoJ, htgt i.target rfl]
  | pseudoL i => simp only [exec, execPseudoL, hsym]
  | pseudoRet => simp only [exec, execPseudoRet, hlen]
  | _ => rfl

/-- Images with the same code whose labels agree on it make the same steps. -/
theorem stepConf_congr {env : Env} {img img' : Image} (hcode : img'.code = img.code)
    (hsym : img'.symbols = img.symbols)
    (htgt : ∀ inst ∈ img.code, ∀ l, inst.target = some l → img'.branchTarget l = img.branchTarget l)
    (c : Conf env) : stepConf img' c = stepConf img c := by
  unfold stepConf
  rw [hcode]
  cases c.fault with
  | some e => rfl
  | none =>
    cases hi : img.code[c.state.pc]? with
    | none => rfl
    | some inst =>
      have hmem : inst ∈ img.code := List.mem_of_getElem? hi
      simp only [exec_congr { c.state with pc := c.state.pc + 1 } hsym
        (congrArg List.length hcode) (htgt inst hmem)]

theorem find?_congr_mem {α : Type} {p q : α → Bool} {l : List α} (h : ∀ a ∈ l, p a = q a) :
    l.find? p = l.find? q := by
  induction l with
  | nil => rfl
  | cons a l ih =>
    obtain ⟨ha, hl⟩ := List.forall_mem_cons.mp h
    rw [List.find?_cons, List.find?_cons, ha, ih hl]

theorem needsLabel_target {inst : Inst} {l : String} (h : needsLabel inst = some l) :
    inst.target = some l := by
  cases inst with
  | pseudoJ i =>
    simp only [needsLabel] at h
    split at h
    · cases h
    · exact h
  | _ => exact h

namespace Optim

namespace DeadLabelElimination

variable {needed : List String}

/-- The labels that stay. -/
def keep (needed : List String) (labels : List (String × Nat)) : List (String × Nat) :=
  labels.filter fun e => e.1 ∈ needed

theorem findLabel_keep {labels : List (String × Nat)} {l : String} (h : l ∈ needed) :
    findLabel (keep needed labels) l = findLabel labels l := by
  unfold findLabel keep
  rw [← List.filter_reverse, List.find?_filter]
  congr 1
  refine find?_congr_mem fun e _ => ?_
  by_cases he : e.1 = l
  · simp [he, h]
  · simp [he]

/-- **One block of the second loop.** -/
theorem squash_spec {kept kept' : List Block} {b : Block} (h : squash needed kept b = .ok kept')
    (n : Nat) :
    flatOf kept'.reverse = flatOf kept.reverse ++ b.insts ∧
      labelsOf n kept'.reverse = labelsOf n kept.reverse ++
        keep needed [(b.label, n + (flatOf kept.reverse).length)] := by
  unfold squash at h
  split at h
  · rename_i hb
    cases h
    simp [labelsOf_append, labelsOf, keep, hb]
  · rename_i hb
    split at h
    · cases h
    · cases h
      simp [labelsOf_append, labelsOf, keep, hb]

/-- The second loop over the blocks of a function. -/
theorem squash_fold {bs kept kept' : List Block}
    (h : bs.foldlM (squash needed) kept = .ok kept') (n : Nat) :
    flatOf kept'.reverse = flatOf kept.reverse ++ flatOf bs ∧
      labelsOf n kept'.reverse = labelsOf n kept.reverse ++
        keep needed (labelsOf (n + (flatOf kept.reverse).length) bs) := by
  induction bs generalizing kept with
  | nil =>
    cases h
    simp [labelsOf, keep]
  | cons b bs ih =>
    rw [List.foldlM_cons] at h
    cases hb : squash needed kept b with
    | error e =>
      rw [hb] at h
      cases h
    | ok kept₁ =>
      rw [hb] at h
      obtain ⟨hflat, hlabels⟩ := squash_spec hb n
      obtain ⟨hflat', hlabels'⟩ := ih h
      rw [hflat', hlabels', hflat, hlabels]
      refine ⟨by simp, ?_⟩
      rw [List.append_assoc, keep, keep, ← List.filter_append, keep]
      simp [labelsOf, Nat.add_assoc]

theorem squashFunc_spec {f f' : Func} (h : squashFunc needed f = .ok f') (n : Nat) :
    flatOf f'.blocks = flatOf f.blocks ∧ labelsOf n f'.blocks = keep needed (labelsOf n f.blocks) := by
  unfold squashFunc at h
  cases hk : f.blocks.foldlM (squash needed) [] with
  | error e =>
    rw [hk] at h
    cases h
  | ok kept =>
    rw [hk] at h
    cases h
    have hspec := squash_fold hk n
    simpa [labelsOf] using hspec

/-- All functions: the code stays, and the needed labels stay where they are. -/
theorem squashFuncs_spec {fs fs' : List Func} (h : fs.mapM (squashFunc needed) = .ok fs')
    (n : Nat) :
    flatOf (fs'.flatMap Func.blocks) = flatOf (fs.flatMap Func.blocks) ∧
      labelsOf n (fs'.flatMap Func.blocks) = keep needed (labelsOf n (fs.flatMap Func.blocks)) := by
  induction fs generalizing fs' n with
  | nil =>
    cases h
    exact ⟨rfl, rfl⟩
  | cons f fs ih =>
    rw [List.mapM_cons] at h
    cases hf : squashFunc needed f with
    | error e =>
      rw [hf] at h
      cases h
    | ok f₁ =>
      rw [hf] at h
      cases hfs : fs.mapM (squashFunc needed) with
      | error e =>
        rw [hfs] at h
        cases h
      | ok fs₁ =>
        rw [hfs] at h
        cases h
        obtain ⟨hflat, hlabels⟩ := squashFunc_spec hf n
        obtain ⟨hflat', hlabels'⟩ := ih hfs (n + (flatOf f.blocks).length)
        simp only [List.flatMap_cons, flatOf_append, labelsOf_append, hflat, hflat', hlabels,
          hlabels', keep, List.filter_append, and_self]

/-- What a successful run over a list has done with each of its elements. -/
theorem forall_of_mapM {α β : Type} {f : α → Except Fault β} {l : List α} {l' : List β}
    (h : l.mapM f = .ok l') : List.Forall₂ (fun a b => f a = .ok b) l l' := by
  induction l generalizing l' with
  | nil =>
    cases h
    exact .nil
  | cons a l ih =>
    rw [List.mapM_cons] at h
    cases ha : f a with
    | error e =>
      rw [ha] at h
      cases h
    | ok b =>
      rw [ha] at h
      cases hl : l.mapM f with
      | error e =>
        rw [hl] at h
        cases h
      | ok bs =>
        rw [hl] at h
        cases h
        exact .cons ha (ih hl)

theorem forall₂_exists_left {α β : Type} {R : α → β → Prop} {l : List α} {l' : List β}
    (h : List.Forall₂ R l l') {b : β} (hb : b ∈ l') : ∃ a ∈ l, R a b := by
  induction h with
  | nil => cases hb
  | cons hR _ ih =>
    obtain rfl | hb := List.mem_cons.mp hb
    · exact ⟨_, List.mem_cons_self, hR⟩
    · obtain ⟨a, ha, hab⟩ := ih hb
      exact ⟨a, List.mem_cons_of_mem _ ha, hab⟩

theorem forall₂_exists_right {α β : Type} {R : α → β → Prop} {l : List α} {l' : List β}
    (h : List.Forall₂ R l l') {a : α} (ha : a ∈ l) : ∃ b ∈ l', R a b := by
  induction h with
  | nil => cases ha
  | cons hR _ ih =>
    obtain rfl | ha := List.mem_cons.mp ha
    · exact ⟨_, List.mem_cons_self, hR⟩
    · obtain ⟨b, hb, hab⟩ := ih ha
      exact ⟨b, List.mem_cons_of_mem _ hb, hab⟩

section Apply

variable {m m' : Module} {changed : Bool}

/-- The parts of a successful run of the pass. -/
theorem apply_spec (h : apply m = .ok (m', changed)) :
    ∃ entries funcs, m.funcs.mapM entryLabel = .ok entries ∧
      m.funcs.mapM (squashFunc (labelsIn m ++ entries)) = .ok funcs ∧
      m' = { m with funcs := funcs } := by
  unfold apply at h
  cases he : m.funcs.mapM entryLabel with
  | error e =>
    rw [he] at h
    cases h
  | ok entries =>
    rw [he] at h
    cases hf : m.funcs.mapM (squashFunc (labelsIn m ++ entries)) with
    | error e =>
      simp only [bind, Except.bind, hf] at h
      cases h
    | ok funcs =>
      simp only [bind, Except.bind, hf] at h
      cases h
      exact ⟨entries, funcs, rfl, hf, rfl⟩

theorem flat_eq (h : apply m = .ok (m', changed)) : m'.flat = m.flat := by
  obtain ⟨entries, funcs, -, hf, rfl⟩ := apply_spec h
  exact (squashFuncs_spec hf 0).1

/-- The first label of a function is among the entries. -/
theorem entry_of_mem {fs : List Func} {entries : List String}
    (h : fs.mapM entryLabel = .ok entries) {f : Func} (hf : f ∈ fs) :
    ∃ b bs, f.blocks = b :: bs ∧ b.label ∈ entries := by
  obtain ⟨l, hl, hfl⟩ := forall₂_exists_right (forall_of_mapM h) hf
  unfold entryLabel at hfl
  split at hfl
  · cases hfl
  · rename_i b bs hblocks
    cases hfl
    exact ⟨b, bs, hblocks, hl⟩

/-- **The labels after the pass**: those the code mentions, and `main`, are where
they were. -/
theorem labels_eq (hm : m.WellFormed) (h : apply m = .ok (m', changed)) {l : String}
    (hl : l ∈ labelsIn m ∨ l = "main") : findLabel m'.labels l = findLabel m.labels l := by
  obtain ⟨entries, funcs, he, hf, rfl⟩ := apply_spec h
  have hlabels : ({ m with funcs := funcs } : Module).labels =
      keep (labelsIn m ++ entries) m.labels := (squashFuncs_spec hf 0).2
  rw [hlabels]
  by_cases hmem : l ∈ labelsIn m ++ entries
  · exact findLabel_keep hmem
  · -- `main` is no function's label, so it is no label at all
    obtain hl | rfl := hl
    · exact absurd (List.mem_append_left _ hl) hmem
    have hnone : ∀ e ∈ m.labels, e.1 ≠ "main" := by
      rintro e hlab heq
      have hfst : e.1 ∈ m.blocks.map Block.label := by
        rw [← labelsOf_fst 0]
        exact List.mem_map_of_mem hlab
      rw [heq] at hfst
      obtain ⟨b, hb, hbl⟩ := List.mem_map.mp hfst
      obtain ⟨f, hfm, hbf⟩ := List.mem_flatMap.mp hb
      obtain ⟨b₀, bs, hblocks, hent⟩ := entry_of_mem he hfm
      have htail := hm.mainFirst f hfm
      rw [hblocks] at hbf htail
      obtain rfl | hbs := List.mem_cons.mp hbf
      · rw [hbl] at hent
        exact hmem (List.mem_append_right _ hent)
      · exact htail (hbl ▸ List.mem_map_of_mem hbs)
    have hfind : ∀ labels : List (String × Nat), (∀ e ∈ labels, e.1 ≠ "main") →
        findLabel labels "main" = none := by
      intro labels hno
      unfold findLabel
      rw [Option.map_eq_none_iff, List.find?_eq_none]
      intro e hmem
      simpa using hno e (List.mem_reverse.mp hmem)
    have hkeep : ∀ e ∈ keep (labelsIn m ++ entries) m.labels, e.1 ≠ "main" :=
      fun e hmem => hnone e (List.mem_of_mem_filter hmem)
    rw [hfind _ hnone, hfind _ hkeep]

theorem wellFormed (hm : m.WellFormed) (h : apply m = .ok (m', changed)) : m'.WellFormed where
  noPc := by
    rw [flat_eq h]
    exact hm.noPc
  mainFirst := by
    obtain ⟨entries, funcs, he, hf, rfl⟩ := apply_spec h
    intro f' hf'
    obtain ⟨f, hfm, hsq⟩ := forall₂_exists_left (forall_of_mapM hf) hf'
    obtain ⟨b, bs, hblocks, hent⟩ := entry_of_mem he hfm
    have htail := hm.mainFirst f hfm
    have hlabels : f'.blocks.map Block.label =
        (f.blocks.map Block.label).filter (· ∈ labelsIn m ++ entries) := by
      rw [← labelsOf_fst 0, (squashFunc_spec hsq 0).2, ← labelsOf_fst 0 f.blocks, keep,
        List.filter_map]
      rfl
    have hmem : b.label ∈ labelsIn m ++ entries := List.mem_append_right _ hent
    rw [hlabels, hblocks, List.map_cons, List.filter_cons, if_pos (by simpa using hmem)]
    rw [hblocks] at htail
    exact fun hin => htail (List.mem_of_mem_filter hin)

/-- **The run is the same after the pass.** -/
theorem obsEq (hm : m.WellFormed) (h : apply m = .ok (m', changed)) (env : Env)
    (input : env.Input) :
    (machine env m.image).ObsEq (initConf env m input) (machine env m'.image)
      (initConf env m' input) := by
  obtain ⟨hglobals, hliterals⟩ :
      m'.globals = m.globals ∧ m'.floatLiterals = m.floatLiterals := by
    obtain ⟨entries, funcs, -, -, rfl⟩ := apply_spec h
    exact ⟨rfl, rfl⟩
  have hflat := flat_eq h
  have hmain := labels_eq hm h (.inr rfl)
  have htarget : ∀ inst ∈ m.flat, ∀ l, inst.target = some l →
      findLabel m'.labels l = findLabel m.labels l :=
    fun inst hi l hl => labels_eq hm h (.inl (List.mem_filterMap.mpr ⟨inst, hi, hl⟩))
  have hundef : undefinedLabel m'.flat m'.labels = undefinedLabel m.flat m.labels := by
    unfold undefinedLabel
    rw [hflat]
    refine find?_congr_mem fun l hl => ?_
    obtain ⟨inst, hi, hl⟩ := List.mem_filterMap.mp hl
    rw [htarget inst hi l (needsLabel_target hl)]
  have hinit : initConf env m' input = initConf env m input := by
    unfold initConf entryPoint
    rw [hglobals, hliterals, hundef, hmain]
  have hstep : ∀ c : Conf env, stepConf m'.image c = stepConf m.image c := by
    refine stepConf_congr hflat ?_ ?_
    · unfold Module.image
      rw [hglobals, hliterals]
    · intro inst hi l hl
      unfold Image.branchTarget
      exact congrArg (Option.getD · 0) (htarget inst hi l hl)
  have hsim : DetMachine.Simulation (machine env m.image) (machine env m'.image) Eq
      (fun _ _ => 0) := by
    refine ⟨fun c c' hc => by rw [hc]; rfl, ?_⟩
    rintro c _ rfl
    cases hc : stepConf m.image c with
    | none => exact .halt hc ((hstep c).trans hc) rfl
    | some t =>
      exact .both t t (DetMachine.reachesPlus_of_step hc)
        (DetMachine.reachesPlus_of_step ((hstep c).trans hc)) rfl
  exact hsim.obsEq hinit.symm

end Apply

end DeadLabelElimination

end Optim

end Rv64
end Cact
