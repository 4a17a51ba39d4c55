import Cact.Ir.Optim.CommonExprWalk
import Cact.Ir.Optim.DeadBlock

/-!
# Common subexpression elimination ends

A function without dead blocks has a dominance tree, and down the tree a block has more
dominators than its parent. So the walk comes to an end in every branch. Dead blocks are why
the pass may only run after they have been removed.

- `walk_some`: the walk ends.
- `exists_eliminate`: so does the pass on one function.
- `commonExpr_terminates`: and on a program.
-/

namespace Cact

namespace Ir

open Vm Analysis

namespace CommonSubexprElimination

section Walk

variable {f : Func} {entry : Block} {tree : DominanceTree} {id : BlockId}

/-- A step of the walk keeps the numbers of the blocks. -/
def SameIds (f g : Func) : Prop := g.blocks.map Block.id = f.blocks.map Block.id

theorem SameIds.updateBlock {g : Func} (h : SameIds f g) (insts : List Inst) :
    SameIds f (g.updateBlock id fun b => { b with insts }) := by
  have hids : ((g.updateBlock id fun b => { b with insts }).blocks).map Block.id =
      g.blocks.map Block.id := by
    unfold Func.updateBlock
    rw [List.map_map]
    refine List.map_congr_left fun b _ => ?_
    dsimp only [Function.comp]
    split <;> rfl
  exact hids.trans h

theorem SameIds.block? {g : Func} (h : SameIds f g) (hid : id ∈ f.blocks.map Block.id) :
    ∃ b, g.block? id = some b := by
  unfold SameIds at h
  rw [← h] at hid
  obtain ⟨b, hb, heq⟩ := List.mem_map.1 hid
  exact Option.isSome_iff_exists.1 (List.find?_isSome.2 ⟨b, hb, by simpa using heq⟩)

theorem exists_foldlM_option {A S : Type} {P : S → Prop} {g : S → A → Option S} {l : List A} {s : S}
    (hg : ∀ s, P s → ∀ a ∈ l, ∃ t, g s a = some t ∧ P t) (hs : P s) :
    ∃ t, l.foldlM g s = some t ∧ P t := by
  induction l generalizing s with
  | nil => exact ⟨s, rfl, hs⟩
  | cons a l ih =>
    obtain ⟨t, ht, hPt⟩ := hg s hs a List.mem_cons_self
    obtain ⟨u, hu, hPu⟩ := ih (fun s hs a ha => hg s hs a (List.mem_cons_of_mem _ ha)) hPt
    refine ⟨u, ?_, hPu⟩
    rw [List.foldlM_cons, ht]
    exact hu

/-- The walk ends: down the tree the number of dominators grows. -/
theorem walk_some (ht : DominanceTree.Correct f entry tree)
    (hall : ∀ b ∈ f.blocks, Reachable f.BlockEdge entry.id b.id) (depth : Nat) (ctx : Context)
    (hid : id ∈ f.blocks.map Block.id)
    (hdepth : f.blocks.length < depth + (trueDoms f entry id).card) {s : Func × Bool}
    (hs : SameIds f s.1) : ∃ t, walk tree depth ctx s id = some t ∧ SameIds f t.1 := by
  have hreach : ∀ {id}, id ∈ f.blocks.map Block.id → Reachable f.BlockEdge entry.id id := by
    intro id hid
    obtain ⟨b, hb, rfl⟩ := List.mem_map.1 hid
    exact hall b hb
  induction depth generalizing ctx id s with
  | zero =>
    -- there are no more dominators than blocks
    have hsub : trueDoms f entry id ⊆ (f.blocks.map Block.id).toFinset := by
      intro d hd
      obtain ⟨l, hl⟩ := hreach hid
      rcases mem_blockIds_of_walk hl d ((mem_trueDoms (hreach hid) d).1 hd l hl) with rfl | hd
      · exact List.mem_toFinset.2 hid
      · obtain ⟨b, hb, hbd⟩ := Func.mem_blockIds.1 hd
        exact List.mem_toFinset.2 (List.mem_map.2 ⟨b, hb, hbd⟩)
    have hcard := (Finset.card_le_card hsub).trans (List.toFinset_card_le _)
    rw [List.length_map] at hcard
    omega
  | succ depth ih =>
    obtain ⟨g, changed⟩ := s
    obtain ⟨b, hb⟩ := hs.block? hid
    unfold walk
    dsimp only
    rw [hb]
    show ∃ t, (tree.children id).foldlM _ _ = some t ∧ _
    refine exists_foldlM_option (P := fun s : Func × Bool => SameIds f s.1)
      (fun s hs c hc => ?_) (hs.updateBlock _)
    obtain ⟨hc, hidom⟩ := (ht.children id c).1 hc
    obtain ⟨b', hb', rfl⟩ := Func.mem_blockIds.1 hc
    have hmem : b'.id ∈ f.blocks.map Block.id := List.mem_map_of_mem hb'
    have hlt := StrictlyDominates.card_lt trueDoms_spec (hreach hmem) hidom.1
    exact ih _ hmem (by omega) hs

end Walk

section Pass

variable {f : Func}

/-- Paths of jumps are walks. -/
theorem reachable_of_path {entry : Block} {id : BlockId}
    (h : Relation.ReflTransGen f.BlockEdge entry.id id) : Reachable f.BlockEdge entry.id id := by
  induction h with
  | refl => exact .start
  | tail _ he ih => exact ih.step he

/-- The pass ends on a function without dead blocks. -/
theorem exists_eliminate (hw : f.Wired) (hd : DeadBlockElimination.NoDeadBlocks f)
    (orders : Orders) : ∃ n, ∀ fuel, n ≤ fuel → ∃ r, eliminate orders fuel f = .ok (some r) := by
  obtain ⟨entry, he⟩ := hw.entrance
  have hall : ∀ b ∈ f.blocks, Reachable f.BlockEdge entry.id b.id := by
    intro b hb
    obtain ⟨e, he', hpath⟩ := hd.reachable b hb
    cases he.symm.trans he'
    exact reachable_of_path hpath
  have hexits : ∀ b ∈ f.blocks, b.exit.isSome := by
    intro b hb
    obtain ⟨c, hc, hexit⟩ := hw.exits b.id (hd.reachable b hb)
    obtain ⟨hmem, hid⟩ := Func.mem_of_block? hc
    rwa [hw.distinct.eq_of_id hb hmem hid.symm]
  obtain ⟨cfg, hcfg⟩ := ControlFlowGraph.exists_build hexits
  obtain ⟨n, flow, hsolve, hdom⟩ := dominance_solve (ControlFlowGraph.of_build hcfg) hw.distinct he
  obtain ⟨tree, htree, hcorrect⟩ :
      Yields (DominanceTree.build orders.dominators orders.entries flow) _ :=
    DominanceTree.build_spec hdom hw.distinct hall
  have hentry : entry.id ∈ f.blocks.map Block.id :=
    List.mem_map_of_mem (List.mem_of_mem_head? he)
  refine ⟨max n (f.blocks.length + 1), fun fuel hfuel => ?_⟩
  obtain ⟨t, ht, -⟩ := walk_some (s := (f, false)) hcorrect hall fuel .start hentry (by omega) rfl
  refine ⟨t, ?_⟩
  unfold eliminate
  rw [hcfg]
  show (dominance.solve cfg fuel >>= _) = _
  rw [dominance.solve_mono cfg (by omega) hsolve]
  show (DominanceTree.build orders.dominators orders.entries flow >>= _) = _
  rw [htree, he]
  exact congrArg Except.ok ht

theorem exists_eliminateFuncs {fs : List Func}
    (h : ∀ f ∈ fs, f.Wired ∧ DeadBlockElimination.NoDeadBlocks f) (orders : String → Orders) :
    ∃ n, ∀ fuel, n ≤ fuel → ∃ r, eliminateFuncs orders fuel fs = .ok (some r) := by
  induction fs with
  | nil => exact ⟨0, fun _ _ => ⟨_, rfl⟩⟩
  | cons f fs ih =>
    obtain ⟨hw, hd⟩ := h f List.mem_cons_self
    obtain ⟨n, hn⟩ := exists_eliminate hw hd (orders f.name)
    obtain ⟨m, hm⟩ := ih fun g hg => h g (List.mem_cons_of_mem _ hg)
    refine ⟨max n m, fun fuel hfuel => ?_⟩
    obtain ⟨r, hr⟩ := hn fuel (by omega)
    obtain ⟨rs, hrs⟩ := hm fuel (by omega)
    refine ⟨(r.1 :: rs.1, r.2 || rs.2), ?_⟩
    unfold eliminateFuncs
    rw [hr]
    show (eliminateFuncs orders fuel fs >>= _) = _
    rw [hrs]
    rfl

end Pass

/-! ## An expression that is computed three times -/

/-- A sum before a branch, on one side of it with its operands exchanged, and behind the join. -/
def thriceMain : Func where
  name := "main"
  retType := .int32
  params := []
  locals := []
  blocks := [
    { id := 0
      label := "entry"
      insts := [
        .call ⟨some (.temp .int32 0), ⟨.func (.product .nil) .int32, .builtin "get_int"⟩, []⟩,
        .binary ⟨.add, some (.temp .int32 1), .left (.temp .int32 0), .const (.ofInt 1)⟩,
        .binary ⟨.lt, some (.temp .int1 2), .left (.temp .int32 1), .const (.ofInt 7)⟩]
      exit := some (.branch (.left (.temp .int1 2)) 1 2) },
    { id := 1
      label := "side"
      insts := [.binary ⟨.add, some (.temp .int32 3), .const (.ofInt 1), .left (.temp .int32 0)⟩]
      exit := some (.ret (.left (.temp .int32 3))) },
    { id := 2
      label := "join"
      insts := [.binary ⟨.add, some (.temp .int32 4), .left (.temp .int32 0), .const (.ofInt 1)⟩]
      exit := some (.ret (.left (.temp .int32 4))) }]
  temps := [⟨.int32, 0⟩, ⟨.int32, 0⟩, ⟨.int1, 0⟩, ⟨.int32, 1⟩, ⟨.int32, 2⟩]
  tempLabelCount := 0
  nextBlock := 3

def thrice : Program where
  isSsa := true
  globals := []
  funcs := [thriceMain]
  builtins := []
  nextAlloc := 0

/-- An environment whose floating-point operators are commutative. -/
def symmetric : Env :=
  { quiet with
    float := {
      arithS := fun _ _ _ => 0
      arithD := fun _ _ _ => 0
      compareS := fun _ _ _ => false
      compareD := fun _ _ _ => false
      convert := fun _ _ w => w } }

theorem commutes_symmetric : symmetric.float.Commutes :=
  ⟨fun _ _ _ _ => rfl, fun _ _ _ _ => rfl, fun _ _ _ _ => rfl, fun _ _ _ _ => rfl,
    fun _ => ⟨rfl, rfl⟩⟩

theorem wired_thrice : thriceMain.Wired :=
  DeadBlockElimination.wired_of_blocks (by unfold Func.Distinct; decide) (by decide) (by decide)

theorem noDeadBlocks_thrice : DeadBlockElimination.NoDeadBlocks thriceMain where
  reachable := by
    have hentry : thriceMain.Reachable 0 := ⟨_, rfl, .refl⟩
    have hside : thriceMain.Reachable 1 := ⟨_, rfl, .single ⟨_, List.mem_cons_self, rfl, by decide⟩⟩
    have hjoin : thriceMain.Reachable 2 := ⟨_, rfl, .single ⟨_, List.mem_cons_self, rfl, by decide⟩⟩
    simpa [thriceMain] using ⟨hentry, hside, hjoin⟩
  sources := by decide

theorem fit_thrice : ∀ f ∈ thrice.funcs, f.Wired ∧ DeadBlockElimination.NoDeadBlocks f := by
  intro f hf
  cases List.mem_singleton.1 hf
  exact ⟨wired_thrice, noDeadBlocks_thrice⟩

theorem wellFormed_thrice : thrice.WellFormed symmetric :=
  Program.wellFormed_of_check (fun _ id => if id = 0 then [] else [.temp 0, .temp 1, .temp 2])
    (by decide)

theorem oneValue_thrice : thrice.OneValue := ⟨by decide, by decide⟩

theorem oneType_thrice : ∀ f ∈ thrice.funcs, OneType f := by decide

theorem connected_thrice : ∀ f ∈ thrice.funcs, f.Connected := by
  intro f hf
  cases List.mem_singleton.1 hf
  exact DeadBlockElimination.connected_of_noDeadBlocks (wellFormed_thrice.ssa _ hf)
    ⟨by decide, by decide⟩ noDeadBlocks_thrice

/-! ## The pass -/

section Whole

variable {env : Env} {prog prog' : Program}

/-- The pass ends on every program without dead blocks, in whatever orders its containers are
walked. -/
theorem commonExpr_terminates {prog : Program} (hssa : prog.isSsa = true)
    (h : ∀ f ∈ prog.funcs, f.Wired ∧ DeadBlockElimination.NoDeadBlocks f) (orders : String → Orders) :
    ∃ fuel prog' changed, apply orders fuel prog = .ok (some (prog', changed)) := by
  obtain ⟨n, hn⟩ := exists_eliminateFuncs h orders
  obtain ⟨r, hr⟩ := hn n (Nat.le_refl n)
  refine ⟨n, { prog with funcs := r.1 }, r.2, ?_⟩
  unfold apply
  rw [hssa, hr]
  rfl

theorem commonExpr_terminates_thrice : ∃ fuel prog' changed,
    apply (fun _ => ⟨fun _ => .sorted, .sorted⟩) fuel thrice = .ok (some (prog', changed)) :=
  commonExpr_terminates rfl fit_thrice _

end Whole

end CommonSubexprElimination

end Ir
end Cact
