import Cact.Gen.Code
import Cact.Ir.Ssa
import Cact.Lib.ShortCircuit

/-!
# Conditions (`backend/ir/gen/stmt.cpp`)

`branch` gives each operand of `&&` and `||` that is no such condition itself a block, or
for the first of them the block that it started from.

- `nest`: a condition as a nest over its atoms.
- `Branched`, `branch_spec`: what `branch` does to the function.
- `AtomRun`, `Decides`: the run through the code of an atom, and of a condition.
- `branch_implements`: the code of a condition cuts its evaluation short.
-/

namespace Cact

namespace Gen

open Ast
open Ir (Ty Fault Value Inst Exit Block BlockId Func)

/-! ## What is generated -/

/-- The operands of `&&` and `||` are atoms unless they are such conditions. -/
def nest : Exp checked → Nest (Exp checked)
  | .binary .and _ l r => .and (nest l) (nest r)
  | .binary .or _ l r => .or (nest l) (nest r)
  | e => .atom e

/-- An atom of a condition, with its code and where that starts. -/
structure Atom where
  exp : Exp checked
  block : BlockId
  start : Nat
  code : List Inst
  value : Value

/-- The block ends in this code, from an index on, and this exit. -/
def EndsIn (F : Func) (b : BlockId) (start : Nat) (code : List Inst) (exit : Exit) : Prop :=
  ∃ blk, F.block? b = some blk ∧ start ≤ blk.insts.length ∧ blk.insts.drop start = code ∧
    blk.exit = some exit

/-- The block is there, and starts without phis. -/
def Enterable (F : Func) (b : BlockId) : Prop := ∃ blk, F.block? b = some blk ∧ blk.phis = []

/-- At a place is the code of an atom, and goes on to the start of two blocks. -/
structure At (F : Func) (p : BlockId × Nat) (a : Atom) (t f : BlockId × Nat) : Prop where
  place : p = (a.block, a.start)
  starts : t.2 = 0 ∧ f.2 = 0
  enterable : Enterable F t.1 ∧ Enterable F f.1
  ends : EndsIn F a.block a.start a.code (.branch a.value t.1 f.1)

/-- The code of the atom is what `gen` appends for its expression. -/
def Atom.Generated (a : Atom) : Prop :=
  ∃ s s', genExp a.exp a.block s = .ok (a.value, s') ∧ Appends a.block a.code s s'

/-- Every block has an address below that of the next one. -/
def Bounded (s : GenState) : Prop := ∀ b ∈ s.func.blocks, b.id < s.func.nextBlock

/-- Code has been appended to a block, and new blocks are there, each with an exit. -/
structure Grown (scope : BlockId) (code : List Inst) (news : List Block) (s s' : GenState) :
    Prop where
  state : ∃ temps labels, s' = { s with func := { s.func with
    blocks := addCode scope code s.func.blocks ++ news
    temps := temps
    tempLabelCount := labels
    nextBlock := s.func.nextBlock + news.length } }
  noPhi : ∀ i ∈ code, i.isPhi = false
  ids : ∀ b ∈ news, s.func.nextBlock ≤ b.id ∧ b.id < s.func.nextBlock + news.length
  nodup : (news.map Block.id).Nodup
  noPhis : ∀ b ∈ news, ∀ i ∈ b.insts, i.isPhi = false

/-- Wherever the blocks stand, the atoms lead to each other. -/
def WiredIn (n : Nest Atom) (scope : BlockId) (start : Nat) (code : List Inst) (exit : Exit)
    (news : List Block) (t f : BlockId) : Prop :=
  ∀ F : Func, EndsIn F scope start code exit → (∀ b ∈ news, F.block? b.id = some b) →
    Enterable F t → Enterable F f → n.Wired (At F) (scope, start) (t, 0) (f, 0)

/-- A block ends in the code of an atom, and in a branch on its value. -/
def Hosts (atoms : List Atom) (b : BlockId) (start : Nat) (code : List Inst) (exit : Exit) : Prop :=
  ∃ a ∈ atoms, a.block = b ∧ a.start = start ∧ a.code = code ∧ ∃ t f, exit = .branch a.value t f

theorem Hosts.mono {as bs : List Atom} {b : BlockId} {start : Nat} {code : List Inst} {exit : Exit}
    (h : Hosts as b start code exit) (hsub : ∀ a ∈ as, a ∈ bs) : Hosts bs b start code exit := by
  obtain ⟨a, ha, hrest⟩ := h
  exact ⟨a, hsub a ha, hrest⟩

variable {scope t f : BlockId} {code : List Inst} {news : List Block} {s s₁ s₂ s₃ s' : GenState}
  {exit : Exit}

/-- Blocks with other addresses stay as they are. -/
theorem map_update_of_ne {b : BlockId} {g : Block → Block} {blocks : List Block}
    (h : ∀ blk ∈ blocks, blk.id ≠ b) :
    (blocks.map fun blk => if blk.id = b then g blk else blk) = blocks := by
  have hid : ∀ blk ∈ blocks, (if blk.id = b then g blk else blk) = blk :=
    fun blk hblk => if_neg (h blk hblk)
  rw [List.map_congr_left hid, List.map_id']

theorem Appends.grown (h : Appends scope code s s') : Grown scope code [] s s' := by
  obtain ⟨hcode, temps, rfl⟩ := h
  refine ⟨⟨temps, s.func.tempLabelCount, ?_⟩, hcode, nofun, List.nodup_nil, nofun⟩
  rw [List.append_nil]
  rfl

theorem addCode_ids {c : List Inst} {blocks : List Block} {b : Block}
    (hb : b ∈ addCode scope c blocks) : ∃ b' ∈ blocks, b'.id = b.id := by
  obtain ⟨b', hb', rfl⟩ := List.mem_map.mp hb
  refine ⟨b', hb', ?_⟩
  by_cases h : b'.id = scope
  · rw [if_pos h]
  · rw [if_neg h]

theorem Grown.bounded (h : Grown scope code news s s') (hs : Bounded s) : Bounded s' := by
  obtain ⟨temps, labels, rfl⟩ := h.state
  intro b hb
  rcases List.mem_append.mp hb with hb | hb
  · obtain ⟨b', hb', hid⟩ := addCode_ids hb
    have hlt := hs b' hb'
    rw [hid] at hlt
    exact Nat.lt_of_lt_of_le hlt (Nat.le_add_right _ _)
  · exact (h.ids b hb).2

/-- A new block gets the code of the right operand and an exit, behind the left operand. -/
theorem join_blocks {b : BlockId} {label : String} {cl cr : List Inst} {blocks nl nr : List Block}
    (hne : b ≠ scope) (hold : ∀ blk ∈ addCode scope cl blocks, blk.id ≠ b)
    (hnl : ∀ blk ∈ nl, blk.id ≠ b) (hnr : ∀ blk ∈ nr, blk.id ≠ b) :
    ((addCode b cr (addCode scope cl (blocks ++ [⟨b, label, [], none⟩]) ++ nl) ++ nr).map
      fun blk => if blk.id = b then blk.setExit exit else blk) =
      addCode scope cl blocks ++ ⟨b, label, cr, some exit⟩ :: (nl ++ nr) := by
  have hleft : addCode scope cl (blocks ++ [⟨b, label, [], none⟩]) =
      addCode scope cl blocks ++ [⟨b, label, [], none⟩] := by
    rw [addCode, List.map_append, ← addCode]
    simp [hne]
  have hright : addCode b cr (addCode scope cl blocks ++ [⟨b, label, [], none⟩] ++ nl) =
      addCode scope cl blocks ++ [⟨b, label, cr, none⟩] ++ nl := by
    rw [addCode, List.map_append, List.map_append, map_update_of_ne hold, map_update_of_ne hnl]
    simp
  rw [hleft, hright, List.map_append, List.map_append, List.map_append, map_update_of_ne hold,
    map_update_of_ne hnl, map_update_of_ne hnr]
  simp [Block.setExit]

/-- The right operand has a new block, and the left one the block of the condition. -/
theorem Grown.join {b : BlockId} {cl cr : List Inst} {nl nr : List Block} {u : Unit}
    (hs : Bounded s) (hscope : scope < s.func.nextBlock) (hb : newTempBlock s = .ok (b, s₁))
    (hl : Grown scope cl nl s₁ s₂) (hr : Grown b cr nr s₂ s₃) (hset : setExit b exit s₃ = .ok (u, s')) :
    ∃ label, Grown scope cl (⟨b, label, cr, some exit⟩ :: (nl ++ nr)) s s' := by
  cases hb
  cases hset
  obtain ⟨templ, labl, rfl⟩ := hl.state
  obtain ⟨tempr, labr, rfl⟩ := hr.state
  -- the blocks that were there, and those of the operands, have other addresses
  have hold : ∀ blk ∈ addCode scope cl s.func.blocks, blk.id ≠ s.func.nextBlock := by
    intro blk hblk heq
    obtain ⟨b', hb', hid⟩ := addCode_ids hblk
    exact Nat.ne_of_lt (hs b' hb') (hid.trans heq)
  have hnl : ∀ blk ∈ nl, s.func.nextBlock + 1 ≤ blk.id := fun blk hblk => (hl.ids blk hblk).1
  have hnl' : ∀ blk ∈ nl, blk.id < s.func.nextBlock + 1 + nl.length :=
    fun blk hblk => (hl.ids blk hblk).2
  have hnr : ∀ blk ∈ nr, s.func.nextBlock + 1 + nl.length ≤ blk.id :=
    fun blk hblk => (hr.ids blk hblk).1
  have hlt : ∀ blk ∈ nr, s.func.nextBlock < blk.id := fun blk hblk =>
    Nat.lt_of_lt_of_le (Nat.lt_add_right nl.length (Nat.lt_succ_self _)) (hnr blk hblk)
  have hnr' : ∀ blk ∈ nr, blk.id < s.func.nextBlock + 1 + nl.length + nr.length :=
    fun blk hblk => (hr.ids blk hblk).2
  have hblocks := @join_blocks scope exit s.func.nextBlock ("L" ++ toString s.func.tempLabelCount)
    cl cr s.func.blocks nl nr (Nat.ne_of_gt hscope) hold
    (fun blk hblk => Nat.ne_of_gt (hnl blk hblk))
    (fun blk hblk => Nat.ne_of_gt (hlt blk hblk))
  refine ⟨"L" ++ toString s.func.tempLabelCount, ⟨tempr, labr, ?_⟩, hl.noPhi, ?_, ?_, ?_⟩
  · have hnext : ∀ k : Nat, k + (nl.length + nr.length + 1) = k + 1 + nl.length + nr.length := by
      intro k
      omega
    rw [List.length_cons, List.length_append, ← hblocks, hnext]
    rfl
  · rw [List.length_cons, List.length_append]
    intro blk hblk
    rcases List.mem_cons.mp hblk with rfl | hblk
    · exact ⟨Nat.le_refl _, Nat.lt_add_of_pos_right (Nat.succ_pos _)⟩
    · rcases List.mem_append.mp hblk with hblk | hblk
      · exact ⟨Nat.le_of_succ_le (hnl blk hblk), Nat.lt_of_lt_of_le (hnl' blk hblk) (by omega)⟩
      · exact ⟨Nat.le_of_lt (hlt blk hblk), Nat.lt_of_lt_of_le (hnr' blk hblk) (by omega)⟩
  · rw [List.map_cons, List.map_append, List.nodup_cons, List.nodup_append]
    refine ⟨?_, hl.nodup, hr.nodup, ?_⟩
    · rw [List.mem_append, List.mem_map, List.mem_map]
      rintro (⟨blk, hblk, hid⟩ | ⟨blk, hblk, hid⟩)
      · exact Nat.ne_of_gt (hnl blk hblk) hid
      · exact Nat.ne_of_gt (hlt blk hblk) hid
    · intro x hx y hy
      obtain ⟨blk, hblk, rfl⟩ := List.mem_map.mp hx
      obtain ⟨blk', hblk', rfl⟩ := List.mem_map.mp hy
      exact Nat.ne_of_lt (Nat.lt_of_lt_of_le (hnl' blk hblk) (hnr blk' hblk'))
  · intro blk hblk
    rcases List.mem_cons.mp hblk with rfl | hblk
    · exact hr.noPhi
    · rcases List.mem_append.mp hblk with hblk | hblk
      · exact hl.noPhis blk hblk
      · exact hr.noPhis blk hblk

theorem phis_eq_nil {blk : Block} (h : ∀ i ∈ blk.insts, i.isPhi = false) : blk.phis = [] := by
  unfold Block.phis
  cases hinsts : blk.insts with
  | nil => rfl
  | cons i is =>
    have hi : i.isPhi = false := h i (by rw [hinsts]; exact List.mem_cons_self)
    rw [List.takeWhile_cons_of_neg (by rw [hi]; exact Bool.false_ne_true)]
    rfl

/-- What `branch` does: it appends to its block and makes others, each with an atom of the
condition, and the atoms lead to each other. -/
structure Branched (cond : Exp checked) (scope t f : BlockId) (start : Nat) (exit : Exit)
    (s s' : GenState) (code : List Inst) (news : List Block) (n : Nest Atom) : Prop where
  grown : Grown scope code news s s'
  shape : n.map Atom.exp = nest cond
  generated : ∀ a ∈ n.atoms, a.Generated
  first : Hosts n.atoms scope start code exit
  others : ∀ b ∈ news, ∃ e, b.exit = some e ∧ Hosts n.atoms b.id 0 b.insts e
  wired : WiredIn n scope start code exit news t f

def BranchSpec (cond : Exp checked) (scope t f : BlockId) : Prop :=
  ∀ {s s' : GenState} {exit : Exit}, branch cond scope t f s = .ok (exit, s') → Bounded s →
    scope < s.func.nextBlock → ∀ start, ∃ code news n,
      Branched cond scope t f start exit s s' code news n

/-- A condition of two operands, where `tl` and `fl` are the targets of the left one. -/
theorem branch_join {l r cond : Exp checked} {tl fl : BlockId → BlockId}
    (join : Nest Atom → Nest Atom → Nest Atom)
    (htl : ∀ F b, Enterable F t → Enterable F f → Enterable F b →
      Enterable F (tl b) ∧ Enterable F (fl b))
    (hatoms : ∀ nl nr, (join nl nr).atoms = nl.atoms ++ nr.atoms)
    (hshape : ∀ nl nr, nl.map Atom.exp = nest l → nr.map Atom.exp = nest r →
      (join nl nr).map Atom.exp = nest cond)
    (hjoin : ∀ nl nr F p b, Nest.Wired (At F) nl p (tl b, 0) (fl b, 0) →
      Nest.Wired (At F) nr (b, 0) (t, 0) (f, 0) →
      Nest.Wired (At F) (join nl nr) p (t, 0) (f, 0))
    (ihl : ∀ b, BranchSpec l scope (tl b) (fl b)) (ihr : ∀ b, BranchSpec r b t f)
    (h : (do
      let rightBlock ← newTempBlock
      let leftExit ← branch l scope (tl rightBlock) (fl rightBlock)
      let rightExit ← branch r rightBlock t f
      setExit rightBlock rightExit
      return leftExit : GenM Exit) s = .ok (exit, s'))
    (hs : Bounded s) (hscope : scope < s.func.nextBlock) (start : Nat) :
    ∃ code news n, Branched cond scope t f start exit s s' code news n := by
  obtain ⟨b, s₁, hb, h⟩ := run_bind_eq_ok.mp h
  obtain ⟨leftExit, s₂, hleft, h⟩ := run_bind_eq_ok.mp h
  obtain ⟨rightExit, s₃, hright, h⟩ := run_bind_eq_ok.mp h
  obtain ⟨u, s₄, hset, h⟩ := run_bind_eq_ok.mp h
  obtain ⟨rfl, rfl⟩ := run_pure_eq_ok.mp h
  have hs₁ : Bounded s₁ := by
    cases hb
    intro blk hblk
    rcases List.mem_append.mp hblk with hblk | hblk
    · exact Nat.lt_succ_of_lt (hs blk hblk)
    · rw [List.mem_singleton.mp hblk]
      exact Nat.lt_succ_self _
  have hnext : s₁.func.nextBlock = s.func.nextBlock + 1 ∧ b = s.func.nextBlock := by
    cases hb
    exact ⟨rfl, rfl⟩
  obtain ⟨cl, newl, nl, hl⟩ :=
    ihl b hleft hs₁ (by rw [hnext.1]; exact Nat.lt_succ_of_lt hscope) start
  have hlt : b < s₂.func.nextBlock := by
    obtain ⟨temps, labels, rfl⟩ := hl.grown.state
    show b < s₁.func.nextBlock + newl.length
    rw [hnext.1, hnext.2]
    exact Nat.lt_of_lt_of_le (Nat.lt_succ_self _) (Nat.le_add_right _ _)
  obtain ⟨cr, newr, nr, hr⟩ := ihr b hright (hl.grown.bounded hs₁) hlt 0
  obtain ⟨label, hgrown⟩ := Grown.join hs hscope hb hl.grown hr.grown hset
  refine ⟨cl, _, join nl nr, hgrown, hshape _ _ hl.shape hr.shape, ?_, ?_, ?_, ?_⟩
  · rw [hatoms]
    intro a ha
    exact (List.mem_append.mp ha).elim (hl.generated a) (hr.generated a)
  · rw [hatoms]
    exact hl.first.mono fun a ha => List.mem_append_left _ ha
  · rw [hatoms]
    have hleft : ∀ a ∈ nl.atoms, a ∈ nl.atoms ++ nr.atoms := fun a ha => List.mem_append_left _ ha
    have hright : ∀ a ∈ nr.atoms, a ∈ nl.atoms ++ nr.atoms := fun a ha => List.mem_append_right _ ha
    intro blk hblk
    rcases List.mem_cons.mp hblk with rfl | hblk
    · exact ⟨rightExit, rfl, hr.first.mono hright⟩
    · rcases List.mem_append.mp hblk with hblk | hblk
      · obtain ⟨e, he, hosts⟩ := hl.others blk hblk
        exact ⟨e, he, hosts.mono hleft⟩
      · obtain ⟨e, he, hosts⟩ := hr.others blk hblk
        exact ⟨e, he, hosts.mono hright⟩
  · intro F hends hnews ht hf
    have hblk := hnews _ List.mem_cons_self
    have hb : Enterable F b := ⟨_, hblk, phis_eq_nil hr.grown.noPhi⟩
    obtain ⟨htl, hfl⟩ := htl F b ht hf hb
    refine hjoin nl nr F _ b ?_ ?_
    · refine hl.wired F hends (fun blk hblk => hnews blk ?_) htl hfl
      exact List.mem_cons_of_mem _ (List.mem_append_left _ hblk)
    · refine hr.wired F ⟨_, hblk, Nat.zero_le _, rfl, rfl⟩ (fun blk hblk => hnews blk ?_) ht hf
      exact List.mem_cons_of_mem _ (List.mem_append_right _ hblk)

theorem branch_spec (cond : Exp checked) (scope t f : BlockId) : BranchSpec cond scope t f := by
  induction cond, scope, t, f using branch.induct with
  | case1 scope t f type l r ihl ihr =>
    intro s s' exit h hs hscope start
    refine branch_join .and (fun F b ht hf hb => ⟨hb, hf⟩) (fun nl nr => rfl) ?_ ?_ ihl ihr h hs
      hscope start
    · exact fun nl nr hl hr => congrArg₂ Nest.and hl hr
    · exact fun nl nr F p b hl hr => ⟨(b, 0), hl, hr⟩
  | case2 scope t f type l r ihl ihr =>
    intro s s' exit h hs hscope start
    refine branch_join .or (fun F b ht hf hb => ⟨ht, hb⟩) (fun nl nr => rfl) ?_ ?_ ihl ihr h hs
      hscope start
    · exact fun nl nr hl hr => congrArg₂ Nest.or hl hr
    · exact fun nl nr F p b hl hr => ⟨(b, 0), hl, hr⟩
  | case3 scope t f cond hand hor =>
    intro s s' exit h hs hscope start
    have hbranch : branch cond scope t f = (do
        let v ← genExp cond scope
        return .branch v t f) := by
      unfold branch
      split
      · exact absurd rfl (hand _ _ _)
      · exact absurd rfl (hor _ _ _)
      · rfl
    have hnest : nest cond = .atom cond := by
      unfold nest
      split
      · exact absurd rfl (hand _ _ _)
      · exact absurd rfl (hor _ _ _)
      · rfl
    rw [hbranch] at h
    obtain ⟨v, s₁, hv, h⟩ := run_bind_eq_ok.mp h
    obtain ⟨rfl, rfl⟩ := run_pure_eq_ok.mp h
    obtain ⟨code, hcode⟩ := genExp_appends cond hv
    refine ⟨code, [], .atom ⟨cond, scope, start, code, v⟩, hcode.grown, ?_, ?_, ?_, nofun, ?_⟩
    · rw [hnest, Nest.map]
    · rintro a (_ | ⟨_, ⟨⟩⟩)
      exact ⟨s, s₁, hv, hcode⟩
    · exact ⟨_, List.mem_cons_self, rfl, rfl, rfl, t, f, rfl⟩
    · intro F hends _ ht hf
      exact ⟨rfl, ⟨rfl, rfl⟩, ⟨ht, hf⟩, hends⟩

/-! ## Runs -/

section Runs

open Ir.Vm (machine viewOf isTrue)

variable {env : Ir.Vm.Env} (prog : Ir.Program) {F : Func}

/-- The state with the running call at another place. -/
def placeAt (σ : Ir.Vm.State env) (p : BlockId × Nat) : Ir.Vm.State env :=
  { σ with frames := σ.frames.modifyHead fun fr => { fr with block := p.1, idx := p.2 } }

/-- The running call of `σ` is running in `τ` too, at a place. -/
def Stands (σ τ : Ir.Vm.State env) (p : BlockId × Nat) : Prop :=
  τ.result = none ∧ ∃ fr fr' rest, σ.frames = fr :: rest ∧ τ.frames = fr' :: rest ∧
    fr'.func = fr.func ∧ fr'.base = fr.base ∧ (fr'.block, fr'.idx) = p

/-- The place behind the code of the atom. -/
def Atom.stop (a : Atom) : BlockId × Nat := (a.block, a.start + a.code.length)

/-- The run through the code of an atom: it ends as soon as the call has come to the end of
the code, and the atom has a value there. -/
def AtomRun (a : Atom) (σ : Ir.Vm.State env) (b : Bool) (τ : Ir.Vm.State env) : Prop :=
  (∃ n, (machine env prog).Steps n (placeAt σ (a.block, a.start)) τ ∧ Stands σ τ a.stop ∧
    ∀ m < n, ∀ u, (machine env prog).Steps m (placeAt σ (a.block, a.start)) u →
      ¬Stands σ u a.stop) ∧
  ∃ fr rest v, τ.frames = fr :: rest ∧ viewOf env (τ.scope fr) a.value = .ok v ∧
    isTrue env.float v = .ok b

variable {prog} {a : Atom} {σ τ τ' : Ir.Vm.State env} {b c : Bool}

theorem AtomRun.det (h : AtomRun prog a σ b τ) (h' : AtomRun prog a σ c τ') : b = c ∧ τ = τ' := by
  obtain ⟨⟨n, hn, hstop, hfirst⟩, fr, rest, v, hfr, hv, hb⟩ := h
  obtain ⟨⟨m, hm, hstop', hfirst'⟩, fr', rest', v', hfr', hv', hc⟩ := h'
  -- neither of the two first arrivals is before the other
  have hnm : n = m := by
    rcases Nat.lt_trichotomy n m with hlt | heq | hlt
    · exact absurd hstop (hfirst' n hlt τ hn)
    · exact heq
    · exact absurd hstop' (hfirst m hlt τ' hm)
  subst hnm
  obtain rfl := hn.det hm
  rw [hfr] at hfr'
  cases hfr'
  rw [hv] at hv'
  cases hv'
  rw [hb] at hc
  cases hc
  exact ⟨rfl, rfl⟩

/-- The running call is one of the function. -/
def Running (F : Func) (σ : Ir.Vm.State env) : Prop := ∃ fr rest, σ.frames = fr :: rest ∧ fr.func = F.name

theorem AtomRun.running (hσ : Running F σ) (h : AtomRun prog a σ b τ) : Running F τ := by
  obtain ⟨fr, rest, hfr, hname⟩ := hσ
  obtain ⟨⟨n, -, ⟨-, fr₁, fr₂, rest', hfr₁, hfr₂, hfunc, -⟩, -⟩, -⟩ := h
  rw [hfr] at hfr₁
  cases hfr₁
  exact ⟨fr₂, rest, hfr₂, hfunc.trans hname⟩

/-- Entering a block without phis changes the place only. -/
theorem enterBlock_eq {fr : Ir.Vm.Frame} {rest : List Ir.Vm.Frame} {prev t : BlockId}
    (hF : prog.findFunc fr.func = some F) (hfr : τ.frames = fr :: rest) (ht : Enterable F t) :
    Ir.Vm.enterBlock prog τ fr rest (some prev) t = .ok (placeAt τ (t, 0)) := by
  obtain ⟨blk, hblk, hphis⟩ := ht
  have hat : Ir.Vm.blockAt prog fr t = .ok blk :=
    Except.bind_eq_ok.mpr ⟨F, Ir.Vm.deref_eq_ok.mpr hF, Ir.Vm.deref_eq_ok.mpr hblk⟩
  have hrun : Ir.Vm.runPhis env (τ.scope fr) (some prev) [] = .ok (τ.scope fr) := rfl
  rw [Ir.Vm.enterBlock, hat]
  show (Ir.Vm.runPhis env (τ.scope fr) (some prev) blk.phis >>= _) = _
  rw [hphis, hrun, placeAt, hfr]
  rfl

/-- Behind an atom, the branch leads to the target for its value. -/
theorem AtomRun.reaches {p t f : BlockId × Nat} (hF : prog.findFunc F.name = some F)
    (hσ : Running F σ) (hat : At F p a t f) (h : AtomRun prog a σ b τ) :
    (machine env prog).Reaches (placeAt σ p) (placeAt τ (if b then t else f)) := by
  obtain ⟨fr, rest, hfr, hname⟩ := h.running hσ
  obtain ⟨⟨n, hn, ⟨hresult, fr₁, fr₂, rest₁, -, hfr₂, -, -, hstop⟩, -⟩, fr₃, rest₃, v, hfr₃, hv, hb⟩ := h
  rw [hfr] at hfr₂ hfr₃
  cases hfr₂
  cases hfr₃
  obtain ⟨blk, hblk, hle, hcode, hexit⟩ := hat.ends
  obtain ⟨hblock, hidx⟩ := Prod.mk.inj hstop
  rw [← hname] at hF
  have hblockAt : Ir.Vm.blockAt prog fr fr.block = .ok blk := by
    rw [hblock]
    exact Except.bind_eq_ok.mpr ⟨F, Ir.Vm.deref_eq_ok.mpr hF, Ir.Vm.deref_eq_ok.mpr hblk⟩
  -- the call stands behind the last instruction
  have hnone : blk.insts[fr.idx]? = none := by
    have hlen := congrArg List.length hcode
    rw [List.length_drop] at hlen
    rw [List.getElem?_eq_none_iff, hidx]
    omega
  have hexec : Ir.Vm.exec prog τ = .ok (placeAt τ (if b then t else f)) := by
    have hgoal : Ir.Vm.execExit prog τ fr rest (.branch a.value t.1 f.1) =
        .ok (placeAt τ (if b then t else f)) := by
      refine Except.bind_eq_ok.mpr ⟨v, hv, Except.bind_eq_ok.mpr ⟨b, hb, ?_⟩⟩
      cases b with
      | true =>
        refine (enterBlock_eq hF hfr hat.enterable.1).trans ?_
        rw [if_pos rfl, ← hat.starts.1]
      | false =>
        refine (enterBlock_eq hF hfr hat.enterable.2).trans ?_
        rw [if_neg Bool.false_ne_true, ← hat.starts.2]
    rw [Ir.Vm.exec, hfr]
    refine Except.bind_eq_ok.mpr ⟨blk, hblockAt, ?_⟩
    rw [Ir.Vm.execAt, hnone]
    refine Except.bind_eq_ok.mpr ⟨_, Ir.Vm.deref_eq_ok.mpr hexit, hgoal⟩
  have hstep : (machine env prog).step τ = some (placeAt τ (if b then t else f)) := by
    show Ir.Vm.step prog τ = _
    rw [Ir.Vm.step, hresult, hexec]
    rfl
  rw [hat.place]
  exact ⟨n + 1, hn.trans (DetMachine.steps_one hstep)⟩

/-- Control passes atoms as the machine runs. -/
theorem reaches_of_path {p q : BlockId × Nat} {as : List Atom} (hF : prog.findFunc F.name = some F)
    (hσ : Running F σ) (h : Nest.Path (At F) (AtomRun prog) p σ as q τ) :
    (machine env prog).Reaches (placeAt σ p) (placeAt τ q) := by
  induction h with
  | nil => exact ⟨0, rfl⟩
  | cons hat hrun _ ih =>
    obtain ⟨n, hn⟩ := hrun.reaches hF hσ hat
    obtain ⟨m, hm⟩ := ih (hrun.running hσ)
    exact ⟨n + m, hn.trans hm⟩

/-- What the caller leaves: the block of the condition has its exit too. -/
def installed (s' : GenState) (scope : BlockId) (exit : Exit) : Func :=
  s'.func.updateBlock scope fun b => b.setExit exit

theorem find?_map_id {g : Block → Block} (hg : ∀ b, (g b).id = b.id) (blocks : List Block)
    (b : BlockId) : (blocks.map g).find? (fun blk => blk.id == b) =
      (blocks.find? fun blk => blk.id == b).map g := by
  rw [List.find?_map]
  have hcomp : ((fun blk : Block => blk.id == b) ∘ g) = fun blk => blk.id == b := by
    funext blk
    rw [Function.comp_apply, hg]
  rw [hcomp]

theorem find?_of_nodup {blocks : List Block} (hn : (blocks.map Block.id).Nodup) {b : Block}
    (hb : b ∈ blocks) : (blocks.find? fun blk => blk.id == b.id) = some b := by
  have hsome : (blocks.find? fun blk => blk.id == b.id).isSome :=
    List.find?_isSome.mpr ⟨b, hb, beq_self_eq_true _⟩
  obtain ⟨c, hc⟩ := Option.isSome_iff_exists.mp hsome
  have hid : c.id = b.id := by simpa using List.find?_some hc
  rw [hc, List.inj_on_of_nodup_map hn (List.mem_of_find?_eq_some hc) hb hid]

/-- A block of the function that the caller leaves. -/
theorem installed_block? (hgrown : Grown scope code news s s') (b : BlockId) :
    (installed s' scope exit).block? b =
      (((s.func.block? b).map fun blk =>
        if blk.id = scope then { blk with insts := blk.insts ++ code } else blk).or
          (news.find? fun blk => blk.id == b)).map
        fun blk => if blk.id = scope then blk.setExit exit else blk := by
  obtain ⟨temps, labels, rfl⟩ := hgrown.state
  have hset : ∀ blk : Block, (if blk.id = scope then blk.setExit exit else blk).id = blk.id := by
    intro blk
    by_cases h : blk.id = scope
    · rw [if_pos h, Block.setExit]
    · rw [if_neg h]
  have hadd : ∀ blk : Block, (if blk.id = scope then { blk with insts := blk.insts ++ code }
      else blk).id = blk.id := by
    intro blk
    by_cases h : blk.id = scope
    · rw [if_pos h]
    · rw [if_neg h]
  rw [installed, Func.updateBlock, Func.block?, find?_map_id hset, List.find?_append, addCode,
    find?_map_id hadd, Func.block?]

/-- The function that the caller leaves has the code of the condition. -/
theorem Branched.installed {cond : Exp checked} {n : Nest Atom} {blk : Block} (hs : Bounded s)
    (hblk : s.func.block? scope = some blk)
    (h : Branched cond scope t f blk.insts.length exit s s' code news n) :
    EndsIn (installed s' scope exit) scope blk.insts.length code exit ∧
      ∀ b ∈ news, (Gen.installed s' scope exit).block? b.id = some b := by
  obtain ⟨hmem, hid⟩ := Ir.Func.mem_of_block? hblk
  have hscope : scope < s.func.nextBlock := hid ▸ hs blk hmem
  constructor
  · refine ⟨{ blk with insts := blk.insts ++ code, exit := some exit }, ?_, ?_, ?_, rfl⟩
    · rw [installed_block? h.grown, hblk]
      simp [hid, Block.setExit]
    · exact (Nat.le_add_right _ _).trans_eq List.length_append.symm
    · exact List.drop_left
  · intro b hb
    have hle := (h.grown.ids b hb).1
    have hnone : s.func.block? b.id = none := by
      rw [Func.block?, List.find?_eq_none]
      intro blk' hblk' heq
      exact Nat.ne_of_lt (Nat.lt_of_lt_of_le (hs blk' hblk') hle) (beq_iff_eq.mp heq)
    have hne : b.id ≠ scope := Nat.ne_of_gt (Nat.lt_of_lt_of_le hscope hle)
    rw [installed_block? h.grown, hnone, find?_of_nodup h.grown.nodup hb]
    simp [hne]

/-- The blocks that a condition is generated into. -/
def OfCondition (s s' : GenState) (scope b : BlockId) : Prop :=
  b = scope ∨ (s.func.nextBlock ≤ b ∧ b < s'.func.nextBlock)

/-- The outcome of a condition: it has a value, one only, the run has passed the atoms that
decide it, and control is at the block for the value; or the run has passed some atoms, and
then comes to one whose code it does not get through. -/
def Decides (prog : Ir.Program) (F : Func) (n : Nest Atom) (p t f : BlockId × Nat)
    (σ : Ir.Vm.State env) : Prop :=
  (∃ as b τ, n.Eval (AtomRun prog) σ as b τ ∧
    (∀ bs c τ', n.Eval (AtomRun prog) σ bs c τ' → bs = as ∧ c = b ∧ τ' = τ) ∧
    Nest.Path (At F) (AtomRun prog) p σ as (if b then t else f) τ ∧
    (machine env prog).Reaches (placeAt σ p) (placeAt τ (if b then t else f))) ∨
  ∃ as a τ, n.Stops (AtomRun prog) σ as a τ ∧ (∀ bs c τ', ¬n.Eval (AtomRun prog) σ bs c τ') ∧
    Nest.Path (At F) (AtomRun prog) p σ as (a.block, a.start) τ ∧
    (machine env prog).Reaches (placeAt σ p) (placeAt τ (a.block, a.start))

theorem decides {n : Nest Atom} {p t f : BlockId × Nat} (hF : prog.findFunc F.name = some F)
    (hσ : Running F σ) (hw : n.Wired (At F) p t f) : Decides prog F n p t f σ := by
  have hdet : ∀ (a : Atom) (s : Ir.Vm.State env) (b : Bool) (s' : Ir.Vm.State env) (c : Bool)
      (t : Ir.Vm.State env), AtomRun prog a s b s' → AtomRun prog a s c t → b = c ∧ s' = t :=
    fun a s b s' c t h h' => h.det h'
  rcases Nest.eval_or_stops n σ with ⟨as, b, τ, heval⟩ | ⟨as, a, τ, hstops⟩
  · refine .inl ⟨as, b, τ, heval, ?_, hw.path heval, reaches_of_path hF hσ (hw.path heval)⟩
    intro bs c τ' heval'
    exact heval'.det hdet heval
  · obtain ⟨q, t', f', hpath, hat⟩ := hw.path_of_stops hstops
    rw [hat.place] at hpath
    refine .inr ⟨as, a, τ, hstops, ?_, hpath, reaches_of_path hF hσ hpath⟩
    exact fun bs c τ' => hstops.not_eval hdet

/-- The code of a condition: every new block has the code of one atom and one exit, and in
every program that has the blocks, control gets from the atom at the start to the block for
the value of the condition, past the atoms that are evaluated. -/
def Implements (cond : Exp checked) (scope t f : BlockId) (start : Nat) (exit : Exit)
    (s s' : GenState) : Prop :=
  ∃ code news n, Branched cond scope t f start exit s s' code news n ∧
    ∀ (env : Ir.Vm.Env) (prog : Ir.Program) (F : Func), prog.findFunc F.name = some F →
      (∀ b, OfCondition s s' scope b → F.block? b = (installed s' scope exit).block? b) →
      Enterable F t → Enterable F f → ∀ σ : Ir.Vm.State env, Running F σ →
        Decides prog F n (scope, start) (t, 0) (f, 0) σ

theorem branch_implements {cond : Exp checked} {blk : Block}
    (h : branch cond scope t f s = .ok (exit, s')) (hs : Bounded s)
    (hblk : s.func.block? scope = some blk) :
    Implements cond scope t f blk.insts.length exit s s' := by
  obtain ⟨hmem, hid⟩ := Ir.Func.mem_of_block? hblk
  have hscope : scope < s.func.nextBlock := hid ▸ hs blk hmem
  obtain ⟨code, news, n, hb⟩ := branch_spec cond scope t f h hs hscope blk.insts.length
  refine ⟨code, news, n, hb, ?_⟩
  intro env prog F hF hsame ht hf σ hσ
  obtain ⟨⟨blk', hblk', hends⟩, hnews⟩ := hb.installed hs hblk
  refine decides hF hσ (hb.wired F ⟨blk', ?_, hends⟩ ?_ ht hf)
  · rw [hsame scope (.inl rfl), hblk']
  · intro b hmem
    have hb' : b.id < s'.func.nextBlock := by
      obtain ⟨temps, labels, rfl⟩ := hb.grown.state
      exact (hb.grown.ids b hmem).2
    rw [hsame b.id (.inr ⟨(hb.grown.ids b hmem).1, hb'⟩), hnews b hmem]

/-- `true || false` on the left of `&& false`. -/
def orAnd : Exp checked :=
  .binary .and (.prim .int1) (.binary .or (.prim .int1) (.const (.bool true)) (.const (.bool false)))
    (.const (.bool false))

/-- A function with three empty blocks. -/
def threeBlocks : GenState where
  irDefs := []
  varNameCount := []
  allocs := []
  func := { emptyFunc "f" .int32 [] with
    blocks := [⟨0, "entry", [], none⟩, ⟨1, "if_true", [], none⟩, ⟨2, "if_exit", [], none⟩]
    nextBlock := 3 }
  loops := []

theorem branch_implements_orAnd :
    ∃ exit s', branch orAnd 0 1 2 threeBlocks = .ok (exit, s') ∧
      Implements orAnd 0 1 2 0 exit threeBlocks s' := by
  have hs : Bounded threeBlocks := by
    unfold Bounded
    decide
  refine ⟨_, _, rfl, ?_⟩
  show Implements _ _ _ _ (Block.insts ⟨0, "entry", [], none⟩).length _ _ _
  exact branch_implements rfl hs rfl

end Runs

end Gen
end Cact
