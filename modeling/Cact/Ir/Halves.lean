import Cact.Ir.Split

/-!
# A cut block does what the whole one did

A program with a cut block runs beside the program with the whole one. A frame in the
second half of the block stands in the new block, at the same instruction; when the
running frame comes to the cut it still has to jump, and the other run waits.

- `Together`: computations that fail together or return related values.
- `Frame.place`: where a frame stands after the cut.
- `Stand`, `Related`: the frames, and the states, of the two runs.
- `exec_cut`, `exec_between`: a step of both runs, and the jump between the halves.
- `sameMeaning_cut`: the two programs cannot be told apart.
-/

namespace Cact

namespace Ir

namespace Vm

/-! ## Outcomes -/

/-- Both computations fail, or both return and their values are related. -/
inductive Together {α β : Type} (R : α → β → Prop) : Except Fault α → Except Fault β → Prop
  | ok {a : α} {b : β} (h : R a b) : Together R (.ok a) (.ok b)
  | error {e e' : Fault} : Together R (.error e) (.error e')

namespace Together

variable {α β γ : Type} {R : α → β → Prop}

/-- The same computation, and then ones that go together. -/
theorem bind {x : Except Fault γ} {p : γ → Except Fault α} {q : γ → Except Fault β}
    (h : ∀ c, x = .ok c → Together R (p c) (q c)) : Together R (x >>= p) (x >>= q) := by
  cases x with
  | error e => exact .error
  | ok c => exact h c rfl

/-- Two computations that go together, and then ones that do. -/
theorem andThen {δ : Type} {Q : γ → δ → Prop} {x : Except Fault γ} {y : Except Fault δ}
    {p : γ → Except Fault α} {q : δ → Except Fault β} (hx : Together Q x y)
    (h : ∀ c d, Q c d → Together R (p c) (q d)) : Together R (x >>= p) (y >>= q) := by
  cases hx with
  | error => exact .error
  | ok hq => exact h _ _ hq

end Together

/-! ## Frames -/

section Frames

variable (f : Func) (b n : BlockId) (k : Nat)

/-- Where a frame stands after the block `b` of `f` is cut at `k`. -/
def Frame.place (fr : Frame) : Frame :=
  if fr.func = f.name ∧ fr.block = b ∧ k ≤ fr.idx then { fr with block := n, idx := fr.idx - k }
  else fr

/-- The frames of the two runs: all in their places, or the running one at the cut, with
the jump to the second half still to come. -/
inductive Stand : List Frame → List Frame → Prop
  | placed (frs : List Frame) : Stand frs (frs.map (Frame.place f b n k))
  | between (fr : Frame) (rest : List Frame) (hf : fr.func = f.name) (hb : fr.block = b)
      (hk : fr.idx = k) : Stand (fr :: rest) (fr :: rest.map (Frame.place f b n k))

/-- No frame of the first run stands in the block that its program does not have. -/
def Inside (frs : List Frame) : Prop := ∀ fr ∈ frs, fr.func = f.name → fr.block ≠ n

/-- The states of the two runs, which differ in their frames only. -/
structure Related {env : Env} (s s' : State env) : Prop where
  same : s' = { s with frames := s'.frames }
  frames : Stand f b n k s.frames s'.frames
  inside : Inside f n s.frames

variable {f b n k}

namespace Frame

theorem place_of_mem {fr : Frame} (hf : fr.func = f.name) (hb : fr.block = b) (hk : k ≤ fr.idx) :
    fr.place f b n k = { fr with block := n, idx := fr.idx - k } := if_pos ⟨hf, hb, hk⟩

theorem place_of_not {fr : Frame} (h : ¬(fr.func = f.name ∧ fr.block = b ∧ k ≤ fr.idx)) :
    fr.place f b n k = fr := if_neg h

@[simp] theorem place_func (fr : Frame) : (fr.place f b n k).func = fr.func := by
  unfold place
  split_ifs <;> rfl

@[simp] theorem place_vars (fr : Frame) : (fr.place f b n k).vars = fr.vars := by
  unfold place
  split_ifs <;> rfl

@[simp] theorem place_base (fr : Frame) : (fr.place f b n k).base = fr.base := by
  unfold place
  split_ifs <;> rfl

end Frame

/-- A frame that has not passed the cut stands where it stood. -/
theorem Stand.top {fr : Frame} (rest : List Frame)
    (h : fr.func = f.name → fr.block = b → fr.idx ≤ k) :
    Stand f b n k (fr :: rest) (fr :: rest.map (Frame.place f b n k)) := by
  by_cases hat : fr.func = f.name ∧ fr.block = b ∧ fr.idx = k
  · exact .between fr rest hat.1 hat.2.1 hat.2.2
  · have hplace : fr.place f b n k = fr := by
      refine Frame.place_of_not ?_
      rintro ⟨hf, hb, hk⟩
      exact hat ⟨hf, hb, Nat.le_antisymm (h hf hb) hk⟩
    have hstand := Stand.placed (f := f) (b := b) (n := n) (k := k) (fr :: rest)
    rwa [List.map_cons, hplace] at hstand

/-- Both frames go on behind their instruction. -/
theorem Stand.advance (fr : Frame) (rest : List Frame) (vars : Slots) :
    Stand f b n k ({ fr with vars := vars, idx := fr.idx + 1 } :: rest)
      ({ fr.place f b n k with vars := vars, idx := (fr.place f b n k).idx + 1 } ::
        rest.map (Frame.place f b n k)) := by
  by_cases hat : fr.func = f.name ∧ fr.block = b ∧ k ≤ fr.idx
  · obtain ⟨hf, hb, hk⟩ := hat
    have hnext : Frame.place f b n k { fr with vars := vars, idx := fr.idx + 1 } =
        { fr with block := n, vars := vars, idx := fr.idx + 1 - k } :=
      Frame.place_of_mem hf hb (Nat.le_succ_of_le hk)
    have hstand := Stand.placed (f := f) (b := b) (n := n) (k := k)
      ({ fr with vars := vars, idx := fr.idx + 1 } :: rest)
    rw [List.map_cons, hnext] at hstand
    rw [Frame.place_of_mem hf hb hk]
    have hidx : fr.idx + 1 - k = fr.idx - k + 1 := by omega
    simpa only [hidx] using hstand
  · rw [Frame.place_of_not hat]
    refine .top rest fun hf hb => ?_
    -- the frame is in the first half, so the next instruction is at most at the cut
    by_contra hlt
    exact hat ⟨hf, hb, by dsimp only at hlt; omega⟩

end Frames

/-! ## Phis -/

section Phis

variable {b n : BlockId}

/-- A redirected phi has the same argument for the redirected edge. -/
theorem value_mapSources {p : PhiInst} {s : BlockId} (hs : s ≠ n) (hp : n ∉ p.sources) :
    (p.mapSources (redirect b n)).value (redirect b n s) = p.value s := by
  have hfind : (p.mapSources (redirect b n)).args.find? (fun a => a.1 == redirect b n s) =
      (p.args.find? fun a => a.1 == s).map fun a => (redirect b n a.1, a.2) := by
    show (p.args.map fun a => (redirect b n a.1, a.2)).find? _ = _
    rw [List.find?_map]
    refine congrArg _ (List.find?_congr fun a ha => ?_)
    have ha' : a.1 ≠ n := fun h => hp (h ▸ List.mem_map_of_mem ha)
    show (redirect b n a.1 == redirect b n s) = (a.1 == s)
    rw [Bool.eq_iff_iff, beq_iff_eq, beq_iff_eq]
    exact redirect_inj ha' hs
  unfold PhiInst.value
  rw [hfind]
  cases p.args.find? fun a => a.1 == s <;> rfl

theorem phis_mapSources (g : BlockId → BlockId) (c : Block) :
    (c.mapSources g).phis = c.phis.map (PhiInst.mapSources g) := by
  show (((c.insts.map _).takeWhile _).filterMap _) = ((c.insts.takeWhile _).filterMap _).map _
  induction c.insts with
  | nil => rfl
  | cons i l ih =>
    cases i with
    | phi p => exact congrArg (p.mapSources g :: ·) ih
    | _ => rfl

/-- The phis before a position behind them. -/
theorem takeWhile_take {α : Type} {p : α → Bool} {l : List α} {k : Nat}
    (h : ∀ a, l[k]? = some a → p a = false) : (l.take k).takeWhile p = l.takeWhile p := by
  induction l generalizing k with
  | nil => rw [List.take_nil]
  | cons a l ih =>
    cases k with
    | zero =>
      have ha := h a rfl
      rw [List.take_zero, List.takeWhile_cons_of_neg (by simp [ha])]
      rfl
    | succ k =>
      have hl := ih fun a' ha' => h a' ha'
      rw [List.take_succ_cons, List.takeWhile_cons, List.takeWhile_cons, hl]

/-- Phis that are read for a redirected edge do what they did. -/
theorem runPhis_mapSources {env : Env} {sc : Scope} {prev : Option BlockId} {phis : List PhiInst}
    (hprev : ∀ s ∈ prev, s ≠ n) (hphis : ∀ p ∈ phis, n ∉ p.sources) :
    runPhis env sc (prev.map (redirect b n)) (phis.map (PhiInst.mapSources (redirect b n))) =
      runPhis env sc prev phis := by
  cases prev with
  | none => cases phis <;> rfl
  | some s =>
    have hread : ∀ p ∈ phis, readPhi env sc (redirect b n s) (p.mapSources (redirect b n)) =
        readPhi env sc s p := by
      intro p hp
      unfold readPhi
      rw [value_mapSources (hprev s rfl) (hphis p hp)]
      rfl
    show ((phis.map _).mapM _ >>= _) = (phis.mapM _ >>= _)
    rw [List.mapM_map]
    exact congrArg (· >>= _) (Except.mapM_congr hread)

end Phis

end Vm

namespace Func.Cut

variable {f g : Func} {b n : BlockId} {k : Nat} {blk : Block}

/-- The phis at the head of the split block are in its first half. -/
theorem takeWhile_isPhi (h : Cut f g b n k blk) :
    (blk.insts.take k).takeWhile Inst.isPhi = blk.insts.takeWhile Inst.isPhi :=
  Vm.takeWhile_take h.noPhi

/-- What a jump finds in both functions: blocks with the same phis, redirected. -/
theorem target (h : Cut f g b n k blk) {t : BlockId} {c : Block} (hc : f.block? t = some c) :
    ∃ c', g.block? t = some c' ∧ c'.phis = c.phis.map (PhiInst.mapSources (redirect b n)) := by
  by_cases ht : t = b
  · subst ht
    cases h.block.symm.trans hc
    refine ⟨_, h.first, ?_⟩
    have hfirst := Vm.phis_mapSources (redirect t n) { blk with insts := blk.insts.take k }
    refine hfirst.trans (congrArg _ ?_)
    exact congrArg (List.filterMap _) h.takeWhile_isPhi
  · have htn : t ≠ n := by
      rintro rfl
      cases h.absent.symm.trans hc
    refine ⟨c.mapSources (redirect b n), ?_, Vm.phis_mapSources _ c⟩
    rw [h.other t ht htn, hc]
    rfl

theorem no_target (h : Cut f g b n k blk) {t : BlockId} (ht : t ≠ n) (hc : f.block? t = none) :
    g.block? t = none := by
  have htb : t ≠ b := by
    rintro rfl
    cases h.block.symm.trans hc
  rw [h.other t htb ht, hc]
  rfl

/-- The phis of the split block stand before the cut. -/
theorem length_phis_le (h : Cut f g b n k blk) : blk.phis.length ≤ k := by
  have hle : (blk.insts.takeWhile Inst.isPhi).length ≤ k := by
    rw [← h.takeWhile_isPhi]
    refine (List.takeWhile_prefix _).length_le.trans ?_
    rw [List.length_take]
    exact Nat.min_le_left _ _
  exact (List.length_filterMap_le _ _).trans hle

/-- No phi names the second half yet. -/
theorem not_mem_sources (h : Cut f g b n k blk) {t : BlockId} {c : Block}
    (hc : f.block? t = some c) {p : PhiInst} (hp : p ∈ c.phis) : n ∉ p.sources := by
  intro hn
  obtain ⟨i, hi, hip⟩ := List.mem_filterMap.1 hp
  have hmem := (List.takeWhile_prefix Inst.isPhi).subset hi
  refine h.sources (List.mem_flatMap.2 ⟨c, List.mem_of_find?_eq_some hc, ?_⟩)
  refine List.mem_flatMap.2 ⟨i, hmem, ?_⟩
  cases i with
  | phi q =>
    cases hip
    exact hn
  | _ => cases hip

end Func.Cut

/-! ## Programs -/

/-- `q` has `g` where `p` has `f`, and is the same otherwise. -/
structure Program.Replaces (p q : Program) (f g : Func) : Prop where
  globals : q.globals = p.globals
  found : p.findFunc f.name = some f
  funcs : ∀ name, q.findFunc name = if name = f.name then some g else p.findFunc name

/-- The program after a function has changed. -/
def Program.replaceFunc (p : Program) (g : Func) : Program :=
  { p with funcs := p.funcs.map fun f => if f.name = g.name then g else f }

theorem Program.replaces {p : Program} {f g : Func} (hf : p.findFunc f.name = some f)
    (hg : g.name = f.name) : p.Replaces (p.replaceFunc g) f g := by
  refine ⟨rfl, hf, fun name => ?_⟩
  have hkeep : ∀ h : Func, (if h.name = g.name then g else h).name = h.name := by
    intro h
    split_ifs with heq
    · exact heq.symm
    · rfl
  have hfind : (p.replaceFunc g).findFunc name =
      (p.findFunc name).map fun h => if h.name = g.name then g else h := by
    show (p.funcs.map _).find? _ = (p.funcs.find? _).map _
    rw [List.find?_map]
    refine congrArg _ (congrArg (List.find? · p.funcs) ?_)
    funext h
    exact congrArg (· == name) (hkeep h)
  rw [hfind]
  by_cases hn : name = f.name
  · rw [if_pos hn, hn, hf, Option.map_some, if_pos hg.symm]
  · rw [if_neg hn]
    conv_rhs => rw [← Option.map_id_apply (x := p.findFunc name)]
    refine Option.map_congr fun h hh => if_neg ?_
    have hname : h.name = name := by simpa using List.find?_some hh
    rw [hname, hg]
    exact hn

namespace Vm

section Run

variable {env : Env} {prog prog' : Program} {f g : Func} {b n : BlockId} {k : Nat} {blk : Block}
  {s : State env} {frs : List Frame} {fr fr' : Frame} {rest : List Frame}

theorem blockAt_self (hp : prog.Replaces prog' f g) (hfr : fr.func = f.name) (t : BlockId) :
    blockAt prog fr t = deref (f.block? t) ∧ blockAt prog' fr t = deref (g.block? t) := by
  constructor
  · show (deref (prog.findFunc fr.func) >>= _) = _
    rw [hfr, hp.found]
    rfl
  · show (deref (prog'.findFunc fr.func) >>= _) = _
    rw [hp.funcs, if_pos hfr]
    rfl

theorem blockAt_other (hp : prog.Replaces prog' f g) (hfr : fr.func ≠ f.name) (t : BlockId) :
    blockAt prog' fr t = blockAt prog fr t := by
  show (deref (prog'.findFunc fr.func) >>= _) = _
  rw [hp.funcs, if_neg hfr]
  rfl

/-- Both runs enter a block. -/
theorem enterBlock_cut (hp : prog.Replaces prog' f g) (h : f.Cut g b n k blk)
    (hfr' : fr'.func = fr.func) (hvars : fr'.vars = fr.vars) (hbase : fr'.base = fr.base)
    (hrest : Inside f n rest) {prev prev' : Option BlockId} {target : BlockId}
    (hself : fr.func = f.name → prev' = prev.map (redirect b n))
    (hother : fr.func ≠ f.name → prev' = prev)
    (hprev : fr.func = f.name → ∀ s ∈ prev, s ≠ n) (ht : fr.func = f.name → target ≠ n) :
    Together (Related f b n k) (enterBlock prog s fr rest prev target)
      (enterBlock prog' { s with frames := frs } fr' (rest.map (Frame.place f b n k)) prev'
        target) := by
  have hscope : State.scope { s with frames := frs } fr' = s.scope fr :=
    congrArg (fun vars => Scope.mk vars s.globals) hvars
  have hframe : ∀ (i : Nat) (vars : Slots),
      { fr' with block := target, idx := i, vars := vars } =
        { fr with block := target, idx := i, vars := vars } := by
    intro i vars
    rw [hfr', hbase]
  by_cases hf : fr.func = f.name
  · unfold enterBlock
    rw [(blockAt_self hp hf target).1, (blockAt_self hp (hfr'.trans hf) target).2, hself hf]
    cases hc : f.block? target with
    | none =>
      rw [h.no_target (ht hf) hc]
      exact .error
    | some c =>
      obtain ⟨c', hc', hphis⟩ := h.target hc
      rw [hc']
      show Together _ (runPhis env _ _ _ >>= _) (runPhis env _ _ _ >>= _)
      rw [hscope, hphis, runPhis_mapSources (hprev hf) fun p => h.not_mem_sources hc]
      refine .bind fun sc _ => .ok ⟨rfl, ?_, ?_⟩
      · show Stand f b n k _ ({ fr' with block := target, idx := _, vars := sc.vars } :: _)
        rw [hframe, List.length_map]
        -- the block is entered behind its phis, which the cut does not separate
        refine .top rest fun _ hb => ?_
        rw [show target = b from hb] at hc
        cases h.block.symm.trans hc
        exact h.length_phis_le
      · rintro x hx hxf
        rcases List.mem_cons.1 hx with rfl | hx
        · exact ht hf
        · exact hrest x hx hxf
  · have hblock : blockAt prog' fr' target = blockAt prog fr target := by
      rw [blockAt_other hp (fun he => hf (hfr'.symm.trans he))]
      unfold blockAt
      rw [hfr']
    unfold enterBlock
    rw [hblock, hother hf, hscope]
    refine .bind fun c _ => .bind fun sc _ => .ok ⟨rfl, ?_, ?_⟩
    · show Stand f b n k _ ({ fr' with block := target, idx := _, vars := sc.vars } :: _)
      rw [hframe]
      exact .top rest fun he => absurd he hf
    · rintro x hx hxf
      rcases List.mem_cons.1 hx with rfl | hx
      · exact absurd hxf hf
      · exact hrest x hx hxf

/-- The states of the two runs while all frames are in their places. -/
def State.place (f : Func) (b n : BlockId) (k : Nat) (s : State env) : State env :=
  { s with frames := s.frames.map (Frame.place f b n k) }

theorem ids_ne (h : f.Cut g b n k blk) {c : Block} (hc : c ∈ f.blocks) : c.id ≠ n := by
  intro hid
  have hnone := List.find?_eq_none.1 h.absent c hc
  exact hnone (beq_iff_eq.2 hid)

/-- Both runs enter a function. -/
theorem enterFunc_cut (hp : prog.Replaces prog' f g) (h : f.Cut g b n k blk)
    (hin : Inside f n s.frames) {m : Func} (hm : prog.findFunc m.name = some m)
    (args : List View) :
    Together (Related f b n k) (enterFunc prog s m args)
      (enterFunc prog' (s.place f b n k) (if m.name = f.name then g else m) args) := by
  by_cases hmf : m.name = f.name
  · have hm' : m = f := Option.some.inj (hm.symm.trans ((congrArg _ hmf).trans hp.found))
    subst hm'
    rw [if_pos rfl]
    have hlayout : layoutFunc env.float s.mem s.top g args =
        layoutFunc env.float s.mem s.top m args := by
      unfold layoutFunc frameSize
      rw [h.params, h.locals, h.temps]
    show Together _ (layoutFunc env.float s.mem s.top m args >>= _)
      (layoutFunc env.float s.mem s.top g args >>= _)
    rw [hlayout]
    refine .bind fun l _ => ?_
    have hentr := h.entrance
    cases hc : m.entrance with
    | none =>
      rw [hc, Option.map_none, Option.map_eq_none_iff] at hentr
      rw [hentr]
      exact .error
    | some c =>
      rw [hc, Option.map_some] at hentr
      obtain ⟨c', hc', hid⟩ := Option.map_eq_some_iff.1 hentr
      rw [hc']
      have hmem : c ∈ m.blocks := List.mem_of_mem_head? hc
      show Together _ (enterBlock prog _ ⟨m.name, c.id, 0, l.vars, s.top⟩ _ none c.id)
        (enterBlock prog' _ ⟨g.name, c'.id, 0, l.vars, s.top⟩ _ none c'.id)
      rw [hid, h.name]
      exact enterBlock_cut hp h rfl rfl rfl hin (fun _ => rfl) (fun _ => rfl)
        (fun _ _ hs => by cases hs) fun _ => ids_ne h hmem
  · rw [if_neg hmf]
    show Together _ (layoutFunc env.float s.mem s.top m args >>= _)
      (layoutFunc env.float s.mem s.top m args >>= _)
    refine .bind fun l _ => .bind fun c _ => ?_
    exact enterBlock_cut hp h rfl rfl rfl hin (fun _ => rfl) (fun _ => rfl)
      (fun he => absurd he hmf) fun he => absurd he hmf

theorem related_advance (hin : Inside f n (fr :: rest)) (t : State env) (sc : Scope) :
    Related f b n k (t.advance fr rest sc)
      (State.advance { t with frames := frs } (fr.place f b n k)
        (rest.map (Frame.place f b n k)) sc) := by
  refine ⟨rfl, Stand.advance fr rest sc.vars, ?_⟩
  rintro x hx hxf
  rcases List.mem_cons.1 hx with rfl | hx
  · exact hin fr List.mem_cons_self hxf
  · exact hin x (List.mem_cons_of_mem _ hx) hxf

/-- A builtin does not look at the frames. -/
theorem execBuiltin_frames (name : String) (dest : Ty) (args : List View) :
    Together (fun r r' => r' = ({ r.1 with frames := frs }, r.2))
      (execBuiltin s name dest args) (execBuiltin { s with frames := frs } name dest args) := by
  unfold execBuiltin
  split
  all_goals first
    | exact .error
    | exact .bind fun _ _ => .ok rfl
    | exact .bind fun _ _ => .bind fun _ _ => .ok rfl

/-- Where a frame stands after the cut there is the same instruction, up to the sources of
phis, or behind the last one the same exit. -/
theorem block?_place (h : f.Cut g b n k blk) (hf : fr.func = f.name) (hn : fr.block ≠ n)
    {c : Block} (hc : f.block? fr.block = some c) :
    ∃ c', g.block? (fr.place f b n k).block = some c' ∧
      (c'.insts[(fr.place f b n k).idx]? = c.insts[fr.idx]? ∨
        c'.insts[(fr.place f b n k).idx]? =
          (c.insts[fr.idx]?).map (Inst.mapSources (redirect b n))) ∧
      (c.insts.length ≤ fr.idx → c'.exit = c.exit ∧
        (fr.place f b n k).block = redirect b n fr.block) := by
  by_cases hb : fr.block = b
  · rw [hb] at hc
    cases h.block.symm.trans hc
    have hpos := h.position
    by_cases hk : k ≤ fr.idx
    · -- the second half
      rw [Frame.place_of_mem hf hb hk]
      obtain ⟨c', hc', hinsts, hexit⟩ := h.second
      refine ⟨c', hc', .inl ?_, fun _ => ⟨hexit, ?_⟩⟩
      · rw [hinsts, List.getElem?_drop, Nat.add_sub_cancel' hk]
      · rw [hb, redirect_self]
    · -- the first half, where an instruction is left
      rw [Frame.place_of_not fun hat => hk hat.2.2, hb]
      refine ⟨_, h.first, .inr ?_, fun hle => ?_⟩
      · rw [List.getElem?_map, List.getElem?_take_of_lt (by omega)]
      · omega
  · rw [Frame.place_of_not fun hat => hb hat.2.1]
    refine ⟨c.mapSources (redirect b n), ?_, .inr ?_, fun _ => ⟨rfl, ?_⟩⟩
    · rw [h.other _ hb hn, hc]
      rfl
    · exact List.getElem?_map
    · exact (redirect_of_ne hb).symm

theorem block?_place_none (h : f.Cut g b n k blk) (hn : fr.block ≠ n)
    (hc : f.block? fr.block = none) : g.block? (fr.place f b n k).block = none := by
  have hb : fr.block ≠ b := by
    intro hb
    rw [hb] at hc
    cases h.block.symm.trans hc
  rw [Frame.place_of_not fun hat => hb hat.2.1]
  exact h.no_target hn hc

/-- The blocks where a frame stands in the two runs. -/
structure Twins (f : Func) (b n : BlockId) (k : Nat) (fr : Frame) (c c' : Block) : Prop where
  inst : c'.insts[(fr.place f b n k).idx]? = c.insts[fr.idx]? ∨
    c'.insts[(fr.place f b n k).idx]? = (c.insts[fr.idx]?).map (Inst.mapSources (redirect b n))
  exit : c.insts.length ≤ fr.idx → c'.exit = c.exit
  block : c.insts.length ≤ fr.idx →
    (fr.place f b n k).block = if fr.func = f.name then redirect b n fr.block else fr.block
  mem : fr.func = f.name → c ∈ f.blocks

theorem blockAt_place (hp : prog.Replaces prog' f g) (h : f.Cut g b n k blk)
    (hn : fr.func = f.name → fr.block ≠ n) :
    Together (Twins f b n k fr) (blockAt prog fr fr.block)
      (blockAt prog' (fr.place f b n k) (fr.place f b n k).block) := by
  by_cases hf : fr.func = f.name
  · rw [(blockAt_self hp hf _).1, (blockAt_self hp (fr.place_func.trans hf) _).2]
    cases hc : f.block? fr.block with
    | none =>
      rw [block?_place_none h (hn hf) hc]
      exact .error
    | some c =>
      obtain ⟨c', hc', hinst, hexit⟩ := block?_place h hf (hn hf) hc
      rw [hc']
      refine .ok ⟨hinst, fun hle => (hexit hle).1, fun hle => ?_, fun _ => ?_⟩
      · rw [if_pos hf]
        exact (hexit hle).2
      · exact List.mem_of_find?_eq_some hc
  · have hplace : fr.place f b n k = fr := Frame.place_of_not fun hat => hf hat.1
    rw [hplace, blockAt_other hp hf]
    cases blockAt prog fr fr.block with
    | error e => exact .error
    | ok c =>
      refine .ok ⟨.inl ?_, fun _ => rfl, fun _ => ?_, fun he => absurd he hf⟩
      · rw [hplace]
      · rw [hplace, if_neg hf]

@[simp] theorem callResult_mapSources (r : BlockId → BlockId) (i : Inst) :
    callResult (i.mapSources r) = callResult i := by cases i <;> rfl

/-- Phis are not executed as instructions, so their sources do not matter there. -/
theorem execInst_mapSources {r : BlockId → BlockId} (i : Inst) :
    execInst prog s fr rest (i.mapSources r) = execInst prog s fr rest i := by cases i <;> rfl

/-- Both runs execute an instruction. -/
theorem execInst_cut (hp : prog.Replaces prog' f g) (h : f.Cut g b n k blk)
    (hs : s.frames = fr :: rest) (hin : Inside f n s.frames) (i : Inst) :
    Together (Related f b n k) (execInst prog s fr rest i)
      (execInst prog' (s.place f b n k) (fr.place f b n k) (rest.map (Frame.place f b n k)) i) := by
  have hscope : (s.place f b n k).scope (fr.place f b n k) = s.scope fr :=
    congrArg (fun vars => Scope.mk vars s.globals) (fr.place_vars)
  have hadv : ∀ (t : State env) (sc : Scope), Related f b n k (t.advance fr rest sc)
      (State.advance { t with frames := s.frames.map (Frame.place f b n k) } (fr.place f b n k)
        (rest.map (Frame.place f b n k)) sc) :=
    fun t sc => related_advance (hs ▸ hin) t sc
  unfold execInst
  rw [hscope]
  cases i with
  | phi p => exact .error
  | unary u => exact .bind fun w _ => .ok (hadv s _)
  | binary i =>
    refine .bind fun lhs _ => .bind fun rhs _ => .bind fun dest _ => ?_
    split_ifs
    · refine .bind fun mem _ => .ok ?_
      exact hadv { s with mem := mem } _
    · exact .bind fun w _ => .ok (hadv s _)
  | call c =>
    refine .bind fun dest _ => .bind fun args _ => ?_
    cases c.func.defn with
    | alloc a => exact .error
    | builtin name =>
      dsimp only
      refine (execBuiltin_frames name dest args).andThen ?_
      rintro ⟨t, w⟩ _ rfl
      exact .ok (hadv t _)
    | func name =>
      dsimp only
      rw [hp.funcs]
      cases hm : prog.findFunc name with
      | none =>
        have hname : name ≠ f.name := by
          rintro rfl
          cases hp.found.symm.trans hm
        rw [if_neg hname]
        exact .error
      | some m =>
        have hname : m.name = name := by simpa using List.find?_some hm
        have henter := enterFunc_cut hp h hin ((congrArg _ hname).trans hm) args
        rw [hname] at henter
        split_ifs at henter ⊢
        · exact henter
        · exact henter

/-- Both runs return. -/
theorem execReturn_cut (hp : prog.Replaces prog' f g) (h : f.Cut g b n k blk)
    (hbase : fr'.base = fr.base) (hin : Inside f n rest) (v : View) :
    Together (Related f b n k) (execReturn prog s fr rest v)
      (execReturn prog' { s with frames := frs } fr' (rest.map (Frame.place f b n k)) v) := by
  cases rest with
  | nil =>
    refine .bind fun w _ => .ok ⟨rfl, .placed [], ?_⟩
    rintro x ⟨⟩
  | cons caller rest =>
    have hscope : State.scope { s with frames := frs } (caller.place f b n k) = s.scope caller :=
      congrArg (fun vars => Scope.mk vars s.globals) caller.place_vars
    refine (blockAt_place hp h (hin caller List.mem_cons_self)).andThen fun c c' hcc => ?_
    -- both callers wait at the same call
    have hcall : (c'.insts[(caller.place f b n k).idx]?).bind callResult =
        (c.insts[caller.idx]?).bind callResult := by
      rcases hcc.inst with hi | hi
      · rw [hi]
      · rw [hi]
        cases c.insts[caller.idx]? with
        | none => rfl
        | some i => exact callResult_mapSources _ i
    rw [hcall]
    refine .bind fun result _ => ?_
    dsimp only
    rw [hscope]
    refine .bind fun dest _ => .bind fun w _ => .ok ?_
    rw [hbase]
    have hadv : Related f b n k (s.advance caller rest (setVar env (s.scope caller) result w))
        (State.advance { s with frames := frs } (caller.place f b n k)
          (rest.map (Frame.place f b n k)) (setVar env (s.scope caller) result w)) :=
      related_advance hin s _
    exact ⟨rfl, hadv.frames, hadv.inside⟩

/-- Both runs execute an exit. -/
theorem execExit_cut (hp : prog.Replaces prog' f g) (h : f.Cut g b n k blk)
    (hin : Inside f n (fr :: rest)) {e : Exit} (ht : fr.func = f.name → n ∉ e.targets)
    (hplace : (fr.place f b n k).block =
      if fr.func = f.name then redirect b n fr.block else fr.block) :
    Together (Related f b n k) (execExit prog s fr rest e)
      (execExit prog' { s with frames := frs } (fr.place f b n k)
        (rest.map (Frame.place f b n k)) e) := by
  have hscope : State.scope { s with frames := frs } (fr.place f b n k) = s.scope fr :=
    congrArg (fun vars => Scope.mk vars s.globals) fr.place_vars
  have hrest : Inside f n rest := fun x hx => hin x (List.mem_cons_of_mem _ hx)
  have henter : ∀ t ∈ e.targets, Together (Related f b n k)
      (enterBlock prog s fr rest (some fr.block) t)
      (enterBlock prog' { s with frames := frs } (fr.place f b n k)
        (rest.map (Frame.place f b n k)) (some (fr.place f b n k).block) t) := by
    intro t hmem
    refine enterBlock_cut hp h fr.place_func fr.place_vars fr.place_base hrest
      (fun hf => ?_) (fun hf => ?_) (fun hf x hx => ?_) fun hf => ?_
    · rw [hplace, if_pos hf]
      rfl
    · rw [hplace, if_neg hf]
    · cases hx
      exact hin fr List.mem_cons_self hf
    · rintro rfl
      exact ht hf hmem
  unfold execExit
  rw [hscope]
  cases e with
  | jump t => exact henter t List.mem_cons_self
  | branch c t u =>
    refine .bind fun v _ => .bind fun cond _ => henter _ ?_
    cases cond
    · exact List.mem_cons_of_mem _ List.mem_cons_self
    · exact List.mem_cons_self
  | ret x => exact .bind fun v _ => execReturn_cut hp h fr.place_base hrest v

/-- A step of both runs, when all frames are in their places. -/
theorem exec_cut (hp : prog.Replaces prog' f g) (h : f.Cut g b n k blk)
    (hin : Inside f n s.frames) :
    Together (Related f b n k) (exec prog s) (exec prog' (s.place f b n k)) := by
  unfold exec
  cases hs : s.frames with
  | nil =>
    rw [show (s.place f b n k).frames = [] from congrArg _ hs]
    exact .error
  | cons fr rest =>
    rw [show (s.place f b n k).frames = fr.place f b n k :: rest.map (Frame.place f b n k) from
      congrArg _ hs]
    dsimp only
    have hn := hin fr (hs ▸ List.mem_cons_self)
    refine (blockAt_place hp h hn).andThen fun c c' hcc => ?_
    unfold execAt
    cases hi : c.insts[fr.idx]? with
    | some i =>
      have hinst := execInst_cut hp h hs hin i
      rcases hcc.inst with hi' | hi'
      · rw [hi', hi]
        exact hinst
      · rw [hi', hi]
        refine Eq.mp (congrArg _ ?_) hinst
        exact (execInst_mapSources i).symm
    | none =>
      have hle := List.getElem?_eq_none_iff.1 hi
      have hi' : c'.insts[(fr.place f b n k).idx]? = none := by
        rcases hcc.inst with hi' | hi'
        · rw [hi', hi]
        · rw [hi', hi]
          rfl
      rw [hi']
      dsimp only
      rw [hcc.exit hle]
      cases he : c.exit with
      | none => exact .error
      | some e =>
        refine execExit_cut hp h (hs ▸ hin) (fun hf hmem => ?_) (hcc.block hle)
        refine h.targets c (hcc.mem hf) ?_
        unfold Block.targets
        rw [he]
        exact hmem

/-- The running frame is at the cut: it jumps to the second half. -/
theorem exec_between (hp : prog.Replaces prog' f g) (h : f.Cut g b n k blk)
    (hf : fr.func = f.name) (hb : fr.block = b) (hk : fr.idx = k) :
    exec prog' { s with frames := fr :: frs } =
      .ok { s with frames := fr.place f b n k :: frs } := by
  obtain ⟨c, hc, hinsts, -⟩ := h.second
  have hnone : ((blk.insts.take k).map (Inst.mapSources (redirect b n)))[k]? = none := by
    refine List.getElem?_eq_none ?_
    rw [List.length_map, List.length_take]
    exact Nat.min_le_left _ _
  -- no phi waits at the head of the second half
  have hphis : c.phis = [] := by
    have htake : (blk.insts.drop k).takeWhile Inst.isPhi = [] := by
      cases hd : blk.insts.drop k with
      | nil => rfl
      | cons i l =>
        have hi : blk.insts[k]? = some i := by
          rw [← List.head?_drop, hd]
          rfl
        exact List.takeWhile_cons_of_neg (by simp [h.noPhi i hi])
    unfold Block.phis
    rw [hinsts, htake]
    rfl
  have hplace : fr.place f b n k = { fr with block := n, idx := 0 } := by
    rw [Frame.place_of_mem hf hb (Nat.le_of_eq hk.symm), hk, Nat.sub_self]
  unfold exec
  dsimp only
  rw [(blockAt_self hp hf _).2, hb, h.first]
  show execAt prog' _ fr frs _ = _
  unfold execAt
  rw [hk, hnone]
  show enterBlock prog' _ fr frs (some fr.block) n = _
  unfold enterBlock
  rw [(blockAt_self hp hf _).2, hc, hplace]
  show (runPhis env _ _ c.phis >>= _) = _
  rw [hphis]
  rfl

/-- Both runs start. -/
theorem start_cut (hp : prog.Replaces prog' f g) (h : f.Cut g b n k blk) (input : env.Input) :
    Together (Related f b n k) (start prog input) (start prog' input) := by
  unfold start
  rw [hp.globals, hp.funcs]
  refine .bind fun l _ => ?_
  cases hm : prog.findFunc "main" with
  | none =>
    have hname : "main" ≠ f.name := by
      intro hname
      rw [hname] at hm
      cases hp.found.symm.trans hm
    rw [if_neg hname]
    exact .error
  | some m =>
    have hname : m.name = "main" := by simpa using List.find?_some hm
    have henter := enterFunc_cut
      (s := ⟨[], l.vars, l.mem, paddingTo (l.cur + 4) 16, input, [], none⟩)
      hp h (fun fr hfr => by cases hfr) ((congrArg _ hname).trans hm) []
    rw [hname] at henter
    split_ifs at henter ⊢
    · exact henter
    · exact henter

/-- Whether the second run still has to jump to the second half. -/
def State.behind (n : BlockId) (s : State env) : Nat :=
  match s.frames with
  | fr :: _ => if fr.block = n then 0 else 1
  | [] => 0

theorem simulation_cut (hp : prog.Replaces prog' f g) (h : f.Cut g b n k blk) :
    DetMachine.Simulation (machine env prog) (machine env prog') (Related f b n k)
      fun _ s' => s'.behind n := by
  constructor
  · intro s s' hR
    rw [hR.same]
    rfl
  · intro s s' hR
    have hres : s'.result = s.result := by rw [hR.same]
    cases hr : s.result with
    | some v =>
      have hstop : (machine env prog).step s = none := if_pos (by rw [hr]; rfl)
      have hstop' : (machine env prog').step s' = none := if_pos (by rw [hres, hr]; rfl)
      exact .halt hstop hstop' hres.symm
    | none =>
      have hlive : ¬s.result.isSome := by rw [hr]; simp
      have hlive' : ¬s'.result.isSome := by rw [hres, hr]; simp
      obtain ⟨hsame, hstand, hin⟩ := hR
      generalize hfrs : s.frames = frs, hfrs' : s'.frames = frs' at hstand
      cases hstand with
      | placed =>
        have hs' : s' = s.place f b n k := by
          rw [hsame, hfrs', ← hfrs]
          rfl
        have hboth := exec_cut hp h hin
        rw [← hs'] at hboth
        generalize he : exec prog s = r, he' : exec prog' s' = r' at hboth
        cases hboth with
        | ok hR =>
          exact .both _ _ (DetMachine.reachesPlus_of_step (step_of_ok hlive he))
            (DetMachine.reachesPlus_of_step (step_of_ok hlive' he')) hR
        | error =>
          refine .both s.fail s'.fail (DetMachine.reachesPlus_of_step (step_of_error hlive he))
            (DetMachine.reachesPlus_of_step (step_of_error hlive' he')) ⟨?_, ?_, hin⟩
          · rw [hs']
            rfl
          · rw [hs']
            exact .placed s.frames
      | between fr rest hf hb hk =>
        -- the first run waits while the second jumps
        have hs' : s' = { s with frames := fr :: rest.map (Frame.place f b n k) } := by
          rw [hsame, hfrs']
        have hjump : exec prog' { s with frames := fr :: rest.map (Frame.place f b n k) } =
            .ok { s with frames := fr.place f b n k :: rest.map (Frame.place f b n k) } :=
          exec_between hp h hf hb hk
        rw [← hs'] at hjump
        have hne : b ≠ n := by
          rintro rfl
          cases h.block.symm.trans h.absent
        refine .right _ (DetMachine.reachesPlus_of_step (step_of_ok hlive' hjump)) ⟨rfl, ?_, hin⟩ ?_
        · rw [hfrs]
          exact .placed (fr :: rest)
        · rw [Frame.place_of_mem hf hb (Nat.le_of_eq hk.symm)]
          unfold State.behind
          rw [hfrs']
          dsimp only
          rw [if_pos rfl, hb, if_neg hne]
          exact Nat.one_pos

/-- A program with the block in two halves cannot be told from the one with the whole. -/
theorem sameMeaning_cut (hp : prog.Replaces prog' f g) (h : f.Cut g b n k blk) :
    SameMeaning env prog prog' := by
  intro input
  refine (simulation_cut hp h).obsEq ?_
  have hstart := start_cut hp h input
  unfold initial
  generalize start prog input = r, start prog' input = r' at hstart
  cases hstart with
  | ok hR => exact hR
  | error => exact ⟨rfl, .placed [], fun fr hfr => by cases hfr⟩

end Run

end Vm

end Ir
end Cact
