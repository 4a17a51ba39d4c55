import Cact.Ir.Runs

/-!
# Splitting a block (`ir/func.cpp`, `Func::split`)

The instructions of a block from a position on move to a new block with the block's exit,
and the phis that named the block name the new one. The walk over the phis comes before
the new block joins the function, so it does not see those that have moved.

- `Func.split`: the function of the source.
- `Func.sources`, `redirect`: what phis name, before and after.
- `sources_split`: all phis are redirected but those that moved.
- `Cut`: what a lookup finds once the first half leads to the second.
-/

namespace Cact

namespace Ir

/-! ## The sources of phis -/

namespace PhiInst

/-- The phi with each source replaced. -/
def mapSources (g : BlockId → BlockId) (p : PhiInst) : PhiInst :=
  { p with args := p.args.map fun a => (g a.1, a.2) }

theorem sources_mapSources (g : BlockId → BlockId) (p : PhiInst) :
    (p.mapSources g).sources = p.sources.map g := by
  unfold mapSources sources
  rw [List.map_map, List.map_map]
  rfl

end PhiInst

namespace Inst

/-- The instruction with each source of a phi replaced. -/
def mapSources (g : BlockId → BlockId) : Inst → Inst
  | .phi p => .phi (p.mapSources g)
  | i => i

@[simp] theorem isPhi_mapSources (g : BlockId → BlockId) (i : Inst) :
    (i.mapSources g).isPhi = i.isPhi := by cases i <;> rfl

@[simp] theorem sources_mapSources (g : BlockId → BlockId) (i : Inst) :
    (i.mapSources g).sources = i.sources.map g := by
  cases i with
  | phi p => exact p.sources_mapSources g
  | _ => rfl

theorem sources_of_not_phi {i : Inst} (h : i.isPhi = false) : i.sources = [] := by
  cases i with
  | phi p => cases h
  | _ => rfl

end Inst

namespace Block

/-- The block with each source of its phis replaced. -/
def mapSources (g : BlockId → BlockId) (b : Block) : Block :=
  { b with insts := b.insts.map (Inst.mapSources g) }

/-- What stays of a block, with the exit it gets. -/
def keep (k : Nat) (e : Exit) (b : Block) : Block :=
  { b with insts := b.insts.take k, exit := some e }

/-- `sources` of a block. -/
def sources (b : Block) : List BlockId := b.insts.flatMap Inst.sources

theorem sources_mapSources (g : BlockId → BlockId) (b : Block) :
    (b.mapSources g).sources = b.sources.map g := by
  unfold sources mapSources
  rw [List.flatMap_map, List.map_flatMap]
  simp only [Inst.sources_mapSources]

end Block

/-- A pointer to one block becomes one to another. -/
def redirect (b n s : BlockId) : BlockId := if s = b then n else s

@[simp] theorem redirect_self (b n : BlockId) : redirect b n b = n := if_pos rfl

theorem redirect_of_ne {b n s : BlockId} (h : s ≠ b) : redirect b n s = s := if_neg h

/-- Pointers that are not the new one stay apart. -/
theorem redirect_inj {b n s t : BlockId} (hs : s ≠ n) (ht : t ≠ n) :
    redirect b n s = redirect b n t ↔ s = t := by
  unfold redirect
  split_ifs with h h' h'
  · exact ⟨fun _ => h.trans h'.symm, fun _ => rfl⟩
  · exact ⟨fun hn => absurd hn.symm ht, fun hn => absurd (hn.symm.trans h) h'⟩
  · exact ⟨fun hn => absurd hn hs, fun hn => absurd (hn.trans h') h⟩
  · rfl

theorem not_mem_map_redirect {b n : BlockId} (h : n ≠ b) (l : List BlockId) :
    b ∉ l.map (redirect b n) := by
  rw [List.mem_map]
  rintro ⟨s, -, hs⟩
  unfold redirect at hs
  split_ifs at hs with hsb
  · exact h hs
  · exact hsb hs

/-! ## The function -/

namespace Func

/-- `sources` of a function. -/
def sources (f : Func) : List BlockId := f.blocks.flatMap Block.sources

/-- `split`, at the instruction number `k` of block `b`. The second half is returned. -/
def split (f : Func) (b : BlockId) (k : Nat) (prevExit : Exit) (nextLabel : String) :
    Except Fault (BlockId × Func) := do
  let blk ← Vm.deref (f.block? b)
  let exit ← Vm.deref blk.exit
  let next : Block := ⟨f.nextBlock, nextLabel, blk.insts.drop k, some exit⟩
  let f' := f.updateBlock b (Block.keep k prevExit)
  return (next.id, { f' with
    blocks := f'.blocks.map (Block.mapSources (redirect b next.id)) ++ [next]
    nextBlock := f.nextBlock + 1 })

/-- The exit of a block is set. -/
def setExit (f : Func) (b : BlockId) (e : Exit) : Func := f.updateBlock b fun blk => blk.setExit e

/-- The blocks of a function stand at addresses of their own, and nothing in it points to
where the next one will be. -/
structure Fresh (f : Func) : Prop where
  ids : (f.blocks.map Block.id).Nodup
  blocks : ∀ blk ∈ f.blocks, blk.id ≠ f.nextBlock
  targets : ∀ blk ∈ f.blocks, f.nextBlock ∉ blk.targets
  sources : f.nextBlock ∉ f.sources

/-! ## Lookups in an updated function -/

section Lookup

variable {f : Func} {b : BlockId} {h : Block → Block}

theorem find?_map_of_id (hid : ∀ blk, (h blk).id = blk.id) (l : List Block) (t : BlockId) :
    (l.map h).find? (fun blk => blk.id == t) = (l.find? fun blk => blk.id == t).map h := by
  rw [List.find?_map]
  have hsame : (fun blk : Block => blk.id == t) ∘ h = fun blk => blk.id == t := by
    funext blk
    show ((h blk).id == t) = (blk.id == t)
    rw [hid]
  rw [hsame]

theorem block?_updateBlock (hid : ∀ blk, (h blk).id = blk.id) (t : BlockId) :
    (f.updateBlock b h).block? t = (f.block? t).map fun blk => if t = b then h blk else blk := by
  have hkeep : ∀ blk : Block, (if blk.id = b then h blk else blk).id = blk.id := by
    intro blk
    split_ifs
    · exact hid blk
    · rfl
  refine (find?_map_of_id hkeep f.blocks t).trans ?_
  refine Option.map_congr fun blk hblk => ?_
  have ht : blk.id = t := by simpa using List.find?_some hblk
  rw [ht]

/-- The block that is updated, among the others. -/
theorem blocks_updateBlock {blk : Block} (hn : (f.blocks.map Block.id).Nodup)
    (hb : f.block? b = some blk) :
    ∃ l r, f.blocks = l ++ blk :: r ∧ ∀ h, (f.updateBlock b h).blocks = l ++ h blk :: r := by
  have hid : blk.id = b := by simpa using List.find?_some hb
  obtain ⟨l, r, hlr⟩ := List.append_of_mem (List.mem_of_find?_eq_some hb)
  rw [hlr, List.map_append, List.map_cons, List.nodup_append] at hn
  obtain ⟨-, hr, hl⟩ := hn
  -- the other blocks stand at other addresses
  have hother : ∀ c ∈ l ++ r, c.id ≠ b := by
    rintro c hc hcb
    rcases List.mem_append.1 hc with hc | hc
    · exact hl _ (List.mem_map_of_mem hc) _ List.mem_cons_self (hcb.trans hid.symm)
    · exact (List.nodup_cons.1 hr).1 (List.mem_map.2 ⟨c, hc, hcb.trans hid.symm⟩)
  refine ⟨l, r, hlr, fun h => ?_⟩
  have hkeep : ∀ m : List Block, (∀ c ∈ m, c.id ≠ b) →
      m.map (fun c => if c.id = b then h c else c) = m := by
    intro m hm
    conv_rhs => rw [← List.map_id m]
    exact List.map_congr_left fun c hc => if_neg (hm c hc)
  show f.blocks.map _ = _
  rw [hlr, List.map_append, List.map_cons, if_pos hid,
    hkeep l fun c hc => hother c (List.mem_append_left r hc),
    hkeep r fun c hc => hother c (List.mem_append_right l hc)]

end Lookup

/-! ## What has been redirected -/

section Sources

variable {f g : Func} {b n : BlockId} {k : Nat} {e : Exit} {label : String} {blk : Block}

/-- What `split` does. -/
theorem split_eq_ok : f.split b k e label = .ok (n, g) ↔ ∃ blk x, f.block? b = some blk ∧
    blk.exit = some x ∧ n = f.nextBlock ∧ g = { f with
      blocks := (f.updateBlock b (Block.keep k e)).blocks.map (Block.mapSources (redirect b n)) ++
        [⟨n, label, blk.insts.drop k, some x⟩]
      nextBlock := f.nextBlock + 1 } := by
  constructor
  · intro h
    obtain ⟨blk, hb, h⟩ := Except.bind_eq_ok.1 h
    obtain ⟨x, hx, h⟩ := Except.bind_eq_ok.1 h
    obtain ⟨rfl, rfl⟩ := Prod.mk.inj (Except.ok.inj h)
    exact ⟨blk, x, Vm.deref_eq_ok.1 hb, Vm.deref_eq_ok.1 hx, rfl, rfl⟩
  · rintro ⟨blk, x, hb, hx, rfl, rfl⟩
    refine Except.bind_eq_ok.2 ⟨blk, Vm.deref_eq_ok.2 hb, ?_⟩
    exact Except.bind_eq_ok.2 ⟨x, Vm.deref_eq_ok.2 hx, rfl⟩

/-- The phis that did not move name the second half where they named the block. -/
theorem sources_split (hf : (f.blocks.map Block.id).Nodup) (hb : f.block? b = some blk)
    (hs : f.split b k e label = .ok (n, g)) :
    ∃ rest, f.sources.Perm (rest ++ (blk.insts.drop k).flatMap Inst.sources) ∧
      g.sources.Perm (rest.map (redirect b n) ++ (blk.insts.drop k).flatMap Inst.sources) := by
  obtain ⟨blk', x, hb', -, rfl, rfl⟩ := split_eq_ok.1 hs
  cases hb.symm.trans hb'
  obtain ⟨l, r, hlr, hup⟩ := blocks_updateBlock hf hb
  refine ⟨(l ++ blk.keep k e :: r).flatMap Block.sources, ?_, ?_⟩
  · have hblk : blk.sources = (blk.keep k e).sources ++ (blk.insts.drop k).flatMap Inst.sources := by
      show blk.insts.flatMap _ = (blk.insts.take k).flatMap _ ++ _
      rw [← List.flatMap_append, List.take_append_drop]
    show (f.blocks.flatMap Block.sources).Perm _
    rw [hlr, List.flatMap_append, List.flatMap_append, List.flatMap_cons, List.flatMap_cons, hblk]
    -- what has moved comes before the blocks behind the split one
    simp only [List.append_assoc]
    exact ((List.perm_append_comm).append_left _).append_left _
  · show (List.flatMap Block.sources (_ ++ _)).Perm _
    rw [hup, List.flatMap_append, List.flatMap_map, List.map_flatMap]
    simp only [Block.sources_mapSources]
    exact List.Perm.of_eq (congrArg _ (List.flatMap_singleton _ _))

/-- The split block is still named by the phis that moved, and by no other. -/
theorem mem_sources_split_iff (hf : f.Fresh) (hb : f.block? b = some blk)
    (hs : f.split b k e label = .ok (n, g)) :
    b ∈ g.sources ↔ ∃ i ∈ blk.insts.drop k, b ∈ i.sources := by
  obtain ⟨rest, -, hperm⟩ := sources_split hf.ids hb hs
  obtain ⟨-, -, -, -, hn, -⟩ := split_eq_ok.1 hs
  have hid : blk.id = b := by simpa using List.find?_some hb
  have hne : n ≠ b := by
    rw [hn, ← hid]
    exact (hf.blocks blk (List.mem_of_find?_eq_some hb)).symm
  rw [hperm.mem_iff, List.mem_append, List.mem_flatMap]
  exact or_iff_right (not_mem_map_redirect hne rest)

/-- When no phi moves, every phi that named the block names the second half. -/
theorem sources_split_of_not_phi (hf : (f.blocks.map Block.id).Nodup) (hb : f.block? b = some blk)
    (hphi : ∀ i ∈ blk.insts.drop k, i.isPhi = false) (hs : f.split b k e label = .ok (n, g)) :
    g.sources.Perm (f.sources.map (redirect b n)) := by
  obtain ⟨rest, hold, hnew⟩ := sources_split hf hb hs
  have hmoved : (blk.insts.drop k).flatMap Inst.sources = [] := by
    rw [List.flatMap_eq_nil_iff]
    exact fun i hi => Inst.sources_of_not_phi (hphi i hi)
  rw [hmoved, List.append_nil] at hold hnew
  exact hnew.trans (hold.map _).symm

end Sources

/-! ## The two halves -/

/-- `g` is `f` with the block `b` in two halves at `k`, and the second stands at `n`. The
first leads to the second. -/
structure Cut (f g : Func) (b n : BlockId) (k : Nat) (blk : Block) : Prop where
  name : g.name = f.name
  params : g.params = f.params
  locals : g.locals = f.locals
  temps : g.temps = f.temps
  entrance : g.entrance.map Block.id = f.entrance.map Block.id
  block : f.block? b = some blk
  absent : f.block? n = none
  position : k ≤ blk.insts.length
  noPhi : ∀ i, blk.insts[k]? = some i → i.isPhi = false
  first : g.block? b = some { blk with
    insts := (blk.insts.take k).map (Inst.mapSources (redirect b n)), exit := some (.jump n) }
  second : ∃ c, g.block? n = some c ∧ c.insts = blk.insts.drop k ∧ c.exit = blk.exit
  other : ∀ t, t ≠ b → t ≠ n → g.block? t = (f.block? t).map (Block.mapSources (redirect b n))
  targets : ∀ c ∈ f.blocks, n ∉ c.targets
  sources : n ∉ f.sources

theorem block?_eq_none {f : Func} {n : BlockId} (h : ∀ blk ∈ f.blocks, blk.id ≠ n) :
    f.block? n = none := by
  refine List.find?_eq_none.2 fun blk hblk => ?_
  simpa using h blk hblk

section Cut

variable {f g : Func} {b n : BlockId} {k : Nat} {e : Exit} {label : String} {blk : Block}

/-- A lookup behind `split`. -/
theorem block?_split {x : Exit} (hf : f.Fresh) (hb : f.block? b = some blk)
    (hx : blk.exit = some x) (hs : f.split b k e label = .ok (n, g)) (t : BlockId) :
    g.block? t = if t = n then some ⟨n, label, blk.insts.drop k, some x⟩ else
      (f.block? t).map fun c =>
        (if t = b then c.keep k e else c).mapSources (redirect b n) := by
  obtain ⟨blk', x', hb', hx', rfl, rfl⟩ := split_eq_ok.1 hs
  cases hb.symm.trans hb'
  cases hx.symm.trans hx'
  have hold : ((f.updateBlock b (Block.keep k e)).blocks.map
      (Block.mapSources (redirect b f.nextBlock))).find? (fun c => c.id == t) =
      (f.block? t).map fun c =>
        (if t = b then c.keep k e else c).mapSources (redirect b f.nextBlock) := by
    have hup := block?_updateBlock (f := f) (b := b) (h := Block.keep k e) (fun _ => rfl) t
    refine (find?_map_of_id (h := Block.mapSources _) (fun _ => rfl) _ t).trans ?_
    refine (congrArg (Option.map _) hup).trans ?_
    rw [Option.map_map]
    rfl
  show List.find? _ (_ ++ _) = _
  rw [List.find?_append, hold]
  by_cases ht : t = f.nextBlock
  · rw [ht, if_pos rfl, block?_eq_none hf.blocks]
    refine (Option.none_or).trans ?_
    rw [List.find?_cons_of_pos]
    exact beq_self_eq_true f.nextBlock
  · have hlast : List.find? (fun c : Block => c.id == t)
        [⟨f.nextBlock, label, blk.insts.drop k, some x⟩] = none := by
      refine List.find?_eq_none.2 ?_
      simpa using fun h => ht h.symm
    rw [if_neg ht, hlast, Option.or_none]

/-- Once its first half leads to the second, a block that was split behind its phis is cut. -/
theorem Cut.of_split (hf : f.Fresh) (hb : f.block? b = some blk) (hk : k ≤ blk.insts.length)
    (hphi : ∀ i, blk.insts[k]? = some i → i.isPhi = false)
    (hs : f.split b k e label = .ok (n, g)) : Cut f (g.setExit b (.jump n)) b n k blk := by
  obtain ⟨blk', x, hb', hx, hn, hg⟩ := split_eq_ok.1 hs
  cases hb.symm.trans hb'
  have hid : blk.id = b := by simpa using List.find?_some hb
  have hne : b ≠ n := by
    rw [hn, ← hid]
    exact hf.blocks blk (List.mem_of_find?_eq_some hb)
  have hlook : ∀ t, (g.setExit b (.jump n)).block? t = _ := fun t =>
    (block?_updateBlock (h := fun blk => blk.setExit (.jump n)) (fun _ => rfl) t).trans
      (congrArg (Option.map _) (block?_split hf hb hx hs t))
  constructor
  case name => rw [hg]; rfl
  case params => rw [hg]; rfl
  case locals => rw [hg]; rfl
  case temps => rw [hg]; rfl
  case entrance =>
    rw [hg]
    have hmem := List.mem_of_find?_eq_some hb
    unfold Func.entrance setExit updateBlock
    cases hblocks : f.blocks with
    | nil => simp [hblocks] at hmem
    | cons c rest =>
      -- neither update touches the address of the first block
      have hkeep : (if c.id = b then c.keep k e else c).id = c.id := by
        split_ifs <;> rfl
      show some (Block.id (if _ then _ else _)) = some c.id
      split_ifs
      all_goals exact congrArg some hkeep
  case block => exact hb
  case absent =>
    rw [hn]
    exact block?_eq_none hf.blocks
  case position => exact hk
  case noPhi => exact hphi
  case first =>
    rw [hlook, if_neg hne, hb]
    simp only [if_true, Option.map_some]
    rfl
  case second =>
    refine ⟨⟨n, label, blk.insts.drop k, some x⟩, (hlook n).trans ?_, rfl, hx.symm⟩
    rw [if_pos rfl, Option.map_some, if_neg hne.symm]
  case other =>
    intro t htb htn
    rw [hlook, if_neg htn]
    simp only [if_neg htb, Option.map_map]
    rfl
  case targets =>
    rw [hn]
    exact hf.targets
  case sources =>
    rw [hn]
    exact hf.sources

end Cut

end Func

end Ir
end Cact
