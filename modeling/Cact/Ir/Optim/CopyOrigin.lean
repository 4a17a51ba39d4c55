import Cact.Ir.Optim.CopyTable

/-!
# Where the copies come from

An entry of the table comes from a global, from a move, or from a phi whose arguments have
a root in common in the table as it was then. In a well-formed program every entry is new
when it is made, so the table is built entry by entry.

- `Origin`: the origin of one entry.
- `Built`, `built_copies`: the table of a function.
- `Built.types`, `Built.reads`: what a copy has to do with its original.
- `Built.mov_of_cycle`: no cycle without a move.
-/

namespace Cact

namespace Ir

namespace CopyPropagation

/-- Where an entry comes from, with the table as it was when the entry was made. -/
inductive Origin (prog : Program) (f : Func) (cs : Copies) : Var → Value → Prop
  | global {a : Alloc} {c : ConstexprValue} (ha : a ∈ prog.globals) (hc : a.comptime = true)
      (harr : a.type.isArray = false) (hi : a.init = some c) :
      Origin prog f cs (.named (.alloc a.id)) (.const c)
  | mov {id : BlockId} {b : Block} {u : UnaryInst} {r : LeftValue} (hb : f.block? id = some b)
      (hi : .unary u ∈ b.insts) (hop : u.op = .mov) (harr : u.operand.typeOf.isArray = false)
      (hr : u.result = some r) : Origin prog f cs r.var u.operand
  | phi {id : BlockId} {b : Block} {p : PhiInst} {r : LeftValue} {x : Value}
      (hb : f.block? id = some b) (hi : .phi p ∈ b.insts) (hr : p.result = some r)
      (hargs : ∀ a ∈ p.args, ∃ l, a.2 = .left l ∧ ((getRoot cs a.2).eqv (.left r) = true ∨
        x = getRoot cs a.2 ∨ x.eqv (getRoot cs a.2) = true))
      (hx : ∃ a ∈ p.args, x = getRoot cs a.2) (hne : x.eqv (.left r) = false) :
      Origin prog f cs r.var x

/-- A table in which every entry was new when it was made. -/
inductive Built (prog : Program) (f : Func) : Copies → Prop
  | nil : Built prog f []
  | snoc {cs : Copies} {v : Var} {x : Value} (h : Built prog f cs) (ho : Origin prog f cs v x)
      (hv : v ∉ cs.map Prod.fst) : Built prog f (cs ++ [(v, x)])

section Build

variable {prog : Program} {f : Func} {cs : Copies}

theorem Built.nodup (h : Built prog f cs) : (cs.map Prod.fst).Nodup := by
  induction h with
  | nil => exact List.nodup_nil
  | snoc _ _ hv ih =>
    rw [← insert_of_notMem hv]
    exact nodup_insert ih

/-- What the arguments of a phi have in common. -/
theorem uniform_spec {r : LeftValue} {args : List (BlockId × Value)} {u : Option Value} {x : Value}
    (h : uniform cs r args u = some (some x)) :
    (∀ a ∈ args, ∃ l, a.2 = .left l ∧ ((getRoot cs a.2).eqv (.left r) = true ∨
      x = getRoot cs a.2 ∨ x.eqv (getRoot cs a.2) = true)) ∧ (∀ y ∈ u, x = y) ∧
    (u = none → ∃ a ∈ args, x = getRoot cs a.2 ∧ x.eqv (.left r) = false) := by
  induction args generalizing u with
  | nil =>
    cases h
    refine ⟨nofun, fun y hy => Option.some.inj hy, nofun⟩
  | cons a args ih =>
    obtain ⟨id, y⟩ := a
    cases y with
    | const c => cases h
    | left l =>
      unfold uniform at h
      dsimp only at h
      split at h
      · rename_i hself
        obtain ⟨hall, hu, hx⟩ := ih h
        refine ⟨List.forall_mem_cons.2 ⟨⟨l, rfl, .inl hself⟩, hall⟩, hu, fun hnone => ?_⟩
        obtain ⟨a, ha, hax⟩ := hx hnone
        exact ⟨a, List.mem_cons_of_mem _ ha, hax⟩
      · rename_i hself
        split at h
        · obtain ⟨hall, hu, -⟩ := ih h
          have hx := hu _ rfl
          refine ⟨List.forall_mem_cons.2 ⟨⟨l, rfl, .inr (.inl hx)⟩, hall⟩, nofun, fun _ => ?_⟩
          exact ⟨(id, .left l), by simp, hx, by rw [hx]; simpa using hself⟩
        · split at h
          · rename_i y heq
            obtain ⟨hall, hu, -⟩ := ih h
            have hx := hu y rfl
            refine ⟨List.forall_mem_cons.2 ⟨⟨l, rfl, .inr (.inr ?_)⟩, hall⟩, ?_, nofun⟩
            · rw [hx]
              exact heq
            · intro z hz
              cases hz
              exact hx
          · cases h

/-- An instruction adds an entry for its result, or nothing. -/
theorem collect_cases {id : BlockId} {b : Block} {i : Inst} (hb : f.block? id = some b)
    (hi : i ∈ b.insts) : collect cs i = cs ∨ ∃ r x, i.definedVar = some r ∧
      collect cs i = insert cs r.var x ∧ Origin prog f cs r.var x := by
  cases i with
  | unary u =>
    unfold collect
    dsimp only
    split
    · rename_i r hr
      split
      · rename_i hcond
        rw [Bool.and_eq_true, decide_eq_true_eq, Bool.not_eq_true'] at hcond
        exact .inr ⟨r, u.operand, hr, rfl, .mov hb hi hcond.1 hcond.2 hr⟩
      · exact .inl rfl
    · exact .inl rfl
  | phi p =>
    unfold collect
    dsimp only
    split
    · rename_i r hr
      split
      · rename_i x hx
        obtain ⟨hall, -, huniform⟩ := uniform_spec hx
        obtain ⟨a, ha, hax, hne⟩ := huniform rfl
        exact .inr ⟨r, x, hr, rfl, .phi hb hi hr hall ⟨a, ha, hax⟩ hne⟩
      · exact .inl rfl
    · exact .inl rfl
  | _ => exact .inl rfl

/-- Entries for new variables that come from the globals. -/
theorem built_globals {gs : List (Var × Value)} (h : Built prog f cs)
    (ho : ∀ e ∈ gs, ∀ cs, Origin prog f cs e.1 e.2)
    (hn : (cs.map Prod.fst ++ gs.map Prod.fst).Nodup) :
    Built prog f (cs ++ gs) ∧ gs.foldl (fun cs c => insert cs c.1 c.2) cs = cs ++ gs := by
  induction gs generalizing cs with
  | nil => exact ⟨by simpa using h, by simp⟩
  | cons e gs ih =>
    have hnew : e.1 ∉ cs.map Prod.fst := by
      rw [List.nodup_append] at hn
      exact fun hmem => hn.2.2 e.1 hmem e.1 (by simp) rfl
    rw [List.foldl_cons, insert_of_notMem hnew]
    have hrest := ih (h.snoc (ho e (by simp) cs) hnew)
      (fun e' he' => ho e' (List.mem_cons_of_mem _ he')) (by simpa using hn)
    simpa using hrest

/-- Entries for the results of instructions, which are new as well. -/
theorem built_insts {gs : List Var} {done todo : List Inst} (h : Built prog f cs)
    (hi : ∀ i ∈ todo, ∃ id b, f.block? id = some b ∧ i ∈ b.insts)
    (hk : ∀ v ∈ cs.map Prod.fst, v ∈ gs ∨ v ∈ (done.filterMap Inst.definedVar).map LeftValue.var)
    (hn : (((done ++ todo).filterMap Inst.definedVar).map LeftValue.var).Nodup)
    (hg : ∀ i ∈ todo, ∀ r ∈ i.definedVar, r.var ∉ gs) :
    Built prog f (todo.foldl collect cs) := by
  induction todo generalizing cs done with
  | nil => exact h
  | cons i todo ih =>
    rw [List.foldl_cons]
    obtain ⟨id, b, hb, hib⟩ := hi i (by simp)
    have hrest : ∀ {cs : Copies}, Built prog f cs → (∀ v ∈ cs.map Prod.fst,
        v ∈ gs ∨ v ∈ ((done ++ [i]).filterMap Inst.definedVar).map LeftValue.var) →
        Built prog f (todo.foldl collect cs) := fun h hk =>
      ih h (fun j hj => hi j (List.mem_cons_of_mem _ hj)) hk (by simpa using hn)
        fun j hj => hg j (List.mem_cons_of_mem _ hj)
    have hmono : ∀ v, v ∈ (done.filterMap Inst.definedVar).map LeftValue.var →
        v ∈ ((done ++ [i]).filterMap Inst.definedVar).map LeftValue.var := by
      intro v hv
      rw [List.filterMap_append, List.map_append]
      exact List.mem_append_left _ hv
    have hcases : collect cs i = cs ∨ ∃ r x, i.definedVar = some r ∧
        collect cs i = insert cs r.var x ∧ Origin prog f cs r.var x := collect_cases hb hib
    rcases hcases with heq | ⟨r, x, hr, heq, ho⟩
    · rw [heq]
      exact hrest h fun v hv => (hk v hv).imp_right (hmono v)
    · have hnew : r.var ∉ cs.map Prod.fst := by
        intro hmem
        rcases hk _ hmem with hgs | hdone
        · exact hg i (by simp) r hr hgs
        · rw [List.filterMap_append, List.map_append, List.nodup_append] at hn
          refine hn.2.2 r.var hdone r.var ?_ rfl
          exact List.mem_map_of_mem (List.mem_filterMap.2 ⟨i, by simp, hr⟩)
      rw [heq, insert_of_notMem hnew]
      refine hrest (h.snoc ho hnew) fun v hv => ?_
      rw [List.map_append, List.mem_append] at hv
      rcases hv with hv | hv
      · exact (hk v hv).imp_right (hmono v)
      · rw [List.mem_singleton.1 hv]
        exact .inr (List.mem_map_of_mem (List.mem_filterMap.2 ⟨i, by simp, hr⟩))

theorem globalCopy_eq_some {a : Alloc} {e : Var × Value} (h : globalCopy a = some e) :
    ∃ c, a.comptime = true ∧ a.type.isArray = false ∧ a.init = some c ∧
      e = (.named (.alloc a.id), .const c) := by
  unfold globalCopy at h
  split at h
  · rename_i hcond
    rw [Bool.and_eq_true, Bool.not_eq_true'] at hcond
    obtain ⟨c, hc, rfl⟩ := Option.map_eq_some_iff.1 h
    exact ⟨c, hcond.1, hcond.2, hc, rfl⟩
  · cases h

theorem mem_allocs_of_slotType {a : AllocId} (h : (f.slotType (.named (.alloc a))).isSome) :
    a ∈ f.allocs.map Alloc.id := by
  unfold Func.slotType allocType at h
  rw [Option.isSome_map, List.find?_isSome] at h
  obtain ⟨b, hb, hab⟩ := h
  exact List.mem_map.2 ⟨b, hb, by simpa using hab⟩

variable {env : Vm.Env}

/-- Results are not globals. -/
theorem result_not_global (hwf : prog.WellFormed env) (hf : f ∈ prog.funcs) {id : BlockId}
    {b : Block} {i : Inst} {r : LeftValue} (hb : f.block? id = some b) (hi : i ∈ b.insts)
    (hr : i.definedVar = some r) {a : Alloc} (ha : a ∈ prog.globals) :
    r.var ≠ .named (.alloc a.id) := by
  intro heq
  have hslot := (hwf.typed f hf).results id b hb i hi r hr
  rw [heq] at hslot
  exact hwf.not_global hf (mem_allocs_of_slotType hslot) (List.mem_map_of_mem ha)

/-- The entries of the globals come first. -/
theorem built_globalCopies (hwf : prog.WellFormed env) :
    Built prog f (globalCopies prog) ∧ globalCopies prog = prog.globals.filterMap globalCopy := by
  have hbuilt : Built prog f ([] ++ prog.globals.filterMap globalCopy) ∧
      globalCopies prog = [] ++ prog.globals.filterMap globalCopy := by
    refine built_globals .nil ?_ ?_
    · intro e he cs
      obtain ⟨a, ha, hae⟩ := List.mem_filterMap.1 he
      obtain ⟨c, hc, harr, hi, rfl⟩ := globalCopy_eq_some hae
      exact .global ha hc harr hi
    · have hn := hwf.globals_nodup
      rw [List.map_nil, List.nil_append, List.Nodup, List.pairwise_map, List.pairwise_filterMap]
      rw [List.Nodup, List.pairwise_map] at hn
      refine hn.imp fun {a b} hne e he e' he' heq => hne ?_
      obtain ⟨c, -, -, -, rfl⟩ := globalCopy_eq_some he
      obtain ⟨c', -, -, -, rfl⟩ := globalCopy_eq_some he'
      exact NameDef.alloc.inj (Var.named.inj heq)
  rw [hbuilt.2]
  exact ⟨hbuilt.1, by simp⟩

/-- The table of a function is built entry by entry. -/
theorem built_copies (hwf : prog.WellFormed env) (hf : f ∈ prog.funcs) :
    Built prog f (copies prog f) := by
  have hs := hwf.ssa f hf
  obtain ⟨hglobals, heq⟩ : Built prog f (globalCopies prog) ∧ _ := built_globalCopies hwf
  have hkeys : ∀ v ∈ (globalCopies prog).map Prod.fst,
      v ∈ (prog.globals.filterMap globalCopy).map Prod.fst ∨
        v ∈ (([] : List Inst).filterMap Inst.definedVar).map LeftValue.var := by
    intro v hv
    rw [heq] at hv
    exact .inl hv
  refine built_insts hglobals ?_ hkeys ?_ ?_
  · intro i hi
    obtain ⟨b, hb, hib⟩ := List.mem_flatMap.1 hi
    exact ⟨b.id, b, Func.block?_self hs hb, hib⟩
  · have hres := hs.results
    unfold Func.results at hres
    rwa [List.nil_append, List.filterMap_flatMap]
  · intro i hi r hr hmem
    obtain ⟨b, hb, hib⟩ := List.mem_flatMap.1 hi
    obtain ⟨e, he, heq⟩ := List.mem_map.1 hmem
    obtain ⟨a, ha, hae⟩ := List.mem_filterMap.1 he
    obtain ⟨c, -, -, -, rfl⟩ := globalCopy_eq_some hae
    exact result_not_global hwf hf (Func.block?_self hs hb) hib hr ha heq.symm

end Build

/-! ## A copy and its original -/

section Facts

variable {prog : Program} {f : Func} {cs : Copies} {env : Vm.Env} {v w : Var} {x y z : Value}

/-- A variable of the function, or a constant of its type. -/
def Fine (f : Func) (x : Value) : Prop :=
  (∀ u, x = .left u → f.Mentions (.left u)) ∧ ∀ c, x = .const c → c.WellTyped

/-- Uses of one variable are of one type. -/
theorem mention_type (ht : f.WellTyped env prog) {u v : LeftValue} (hu : f.Mentions (.left u))
    (hv : f.Mentions (.left v)) (h : u.var = v.var) : Vm.viewType u.type = Vm.viewType v.type := by
  have hslot := ht.slots u hu
  rw [h, ht.slots v hv] at hslot
  exact (Option.some.inj hslot).symm

/-- Copies are of the types of their originals. -/
def WellTypedCopies (f : Func) (cs : Copies) : Prop :=
  ∀ v x, (v, x) ∈ cs → ∀ l, f.Mentions (.left l) → l.var = v →
    Vm.viewType l.type = Vm.viewType x.typeOf ∧ Fine f x

theorem Chain.types (hn : (cs.map Prod.fst).Nodup) (hc : WellTypedCopies f cs)
    (h : Chain cs y z) (hy : Fine f y) :
    Vm.viewType y.typeOf = Vm.viewType z.typeOf ∧ Fine f z := by
  induction h with
  | refl => exact ⟨rfl, hy⟩
  | @tail z z' _ hz ih =>
    obtain ⟨htype, hfine⟩ := ih
    cases z with
    | const c => cases hz
    | left l =>
      obtain ⟨htype', hfine'⟩ := hc l.var z' ((find_left hn).1 hz) l (hfine.1 l rfl) rfl
      exact ⟨htype.trans htype', hfine'⟩

theorem Built.types (h : Built prog f cs) (hwf : prog.WellFormed env) (hf : f ∈ prog.funcs) :
    WellTypedCopies f cs := by
  have ht := hwf.typed f hf
  induction h with
  | nil => nofun
  | @snoc cs v x hb ho _ ih =>
    intro v' x' hmem l hl hlv
    rcases List.mem_append.1 hmem with hmem | hmem
    · exact ih v' x' hmem l hl hlv
    · cases List.mem_singleton.1 hmem
      cases ho with
      | @global a c ha hc harr hi =>
        have href := hwf.scalars a ha hc harr
        obtain ⟨hwt, htype⟩ := hwf.inits a ha href c hi
        refine ⟨?_, nofun, fun c' hc' => Value.const.inj hc' ▸ hwt⟩
        have hslot := ht.slots l hl
        rw [hlv] at hslot
        have hlocal : f.slotType (.named (.alloc a.id)) = none := by
          rw [← Option.not_isSome_iff_eq_none]
          exact fun h => hwf.not_global hf (mem_allocs_of_slotType h) (List.mem_map_of_mem ha)
        have hglobal : prog.slotType (.named (.alloc a.id)) = some (Vm.viewType a.type) := by
          show allocType prog.globals a.id = _
          rw [allocType_of_mem hwf.globals_nodup ha]
          simp [Alloc.value, href]
        have htype' : some (Vm.viewType l.type) = some (Vm.viewType a.type) := by
          rw [← hslot, ← hglobal]
          show (f.slotType (.named (.alloc a.id))).or _ = _
          rw [hlocal]
          rfl
        rw [Option.some.inj htype', ← htype]
        rfl
      | @mov id b u r hb hi hop harr hr =>
        have hment : f.Mentions u.operand := .used hb hi (by simp [Inst.used])
        refine ⟨?_, fun v hv => hv ▸ hment, fun c hc => ht.consts c (hc ▸ hment)⟩
        rw [mention_type ht hl (.result hb hi hr) hlv]
        exact ht.movs id b hb u hi hop r hr
      | @phi id b p r x hb' hi hr hargs hx hne =>
        obtain ⟨a, ha, rfl⟩ := hx
        have hment : f.Mentions a.2 := .used hb' hi (List.mem_map_of_mem ha)
        have hfine : Fine f a.2 :=
          ⟨fun v hv => hv ▸ hment, fun c hc => ht.consts c (hc ▸ hment)⟩
        obtain ⟨htype, hfine'⟩ := chain_getRoot.types hb.nodup ih hfine
        refine ⟨?_, hfine'⟩
        rw [mention_type ht hl (.result hb' hi hr) hlv, ht.phis id b hb' p hi r hr a ha, htype]

/-- The definition of a copy reads its original. -/
def ReadyCopies (f : Func) (cs : Copies) : Prop :=
  ∀ v l, (v, Value.left l) ∈ cs → f.graph.Reads v l.var ∧ ∃ q, f.defsAt q v

/-- What a variable is a copy of is ready wherever the variable is. -/
theorem Chain.ready (hn : (cs.map Prod.fst).Nodup) (hc : ReadyCopies f cs) {p : Point}
    {l m : LeftValue} (h : Chain cs (.left l) z) (hl : f.graph.Ready l.var p) (hz : z = .left m) :
    f.graph.Ready m.var p := by
  induction h generalizing m with
  | refl =>
    cases hz
    exact hl
  | @tail z z' _ hstep ih =>
    subst hz
    cases z with
    | const c => cases hstep
    | left l' =>
      obtain ⟨hreads, hdef⟩ := hc l'.var m ((find_left hn).1 hstep)
      exact (ih rfl hdef).operand hreads

theorem Built.reads (h : Built prog f cs) (hs : f.Ssa) : ReadyCopies f cs := by
  induction h with
  | nil => nofun
  | @snoc cs v x hb ho _ ih =>
    intro v' l hmem
    rcases List.mem_append.1 hmem with hmem | hmem
    · exact ih v' l hmem
    · obtain ⟨rfl, hl⟩ := Prod.mk.inj (List.mem_singleton.1 hmem)
      cases ho with
      | global => cases hl
      | @mov id b u r hbk hi hop harr hr =>
        refine ⟨fun p q he hd => ?_, Func.exists_defsAt hbk hi hr⟩
        rcases hs.edge_defines he hd hbk hi hr with ⟨k, hk, hp, rfl, -⟩ | ⟨ph, src, c, hph, -⟩
        · exact hs.uses (id, k) l (.inst hbk hk hp (List.mem_filterMap.2 ⟨u.operand, by simp [Inst.used], hl ▸ rfl⟩))
        · cases hph
      | @phi id b p r x hbk hi hr hargs hx hne =>
        subst hl
        refine ⟨DefGraph.Reads.of_self fun pt q he hd => ?_, Func.exists_defsAt hbk hi hr⟩
        rcases hs.edge_defines he hd hbk hi hr with ⟨k, hk, hp, -⟩ | ⟨ph, src, c, hph, hmem, hc, ht, rfl, -⟩
        · cases hp
        · cases hph
          by_cases hreach : f.graph.Reach (some (src, c.insts.length))
          · obtain ⟨y, hy⟩ := hs.args src c id b hc ht hbk hreach p hmem
            obtain ⟨a, ha, rfl⟩ := PhiInst.value_mem hy
            obtain ⟨m, hm, hroot⟩ := hargs a ha
            have hready := hs.uses _ m (.phi hc ht hbk hmem (hm ▸ hy))
            have hchain : Chain cs a.2 _ := chain_getRoot
            rw [hm] at hchain hroot
            cases hg : getRoot cs (.left m) with
            | const c => rw [hg] at hroot; simp at hroot
            | left m' =>
              rw [hg] at hroot
              have hm' := hchain.ready hb.nodup ih hready hg
              simp only [Value.eqv_left, Value.left.injEq] at hroot
              rcases hroot with hself | rfl | heq
              · exact .inr (hself ▸ hm')
              · exact .inl hm'
              · exact .inl (heq ▸ hm')
          · exact .inl fun _ hm => absurd hm.reach hreach

/-- The originals of a function's copies are used in it. -/
theorem Built.used (h : Built prog f cs) {l : LeftValue} (hl : (v, Value.left l) ∈ cs) :
    uses l.var f = true := by
  have hin : ∀ {id : BlockId} {b : Block} {i : Inst} {l : LeftValue}, f.block? id = some b →
      i ∈ b.insts → .left l ∈ i.used → uses l.var f = true := by
    intro id b i l hb hi hl
    refine List.any_eq_true.2 ⟨.left l, ?_, by simp [Value.var?]⟩
    refine List.mem_flatMap.2 ⟨b, (Func.mem_of_block? hb).1, List.mem_append_left _ ?_⟩
    exact List.mem_flatMap.2 ⟨i, hi, hl⟩
  induction h generalizing v l with
  | nil => cases hl
  | @snoc cs v' x hb ho _ ih =>
    rcases List.mem_append.1 hl with hmem | hmem
    · exact ih hmem
    · obtain ⟨rfl, hx⟩ := Prod.mk.inj (List.mem_singleton.1 hmem)
      cases ho with
      | global => cases hx
      | @mov id b u r hbk hi hop harr hr =>
        exact hin hbk hi (by simp [Inst.used, hx])
      | @phi id b p r x hbk hi hr hargs hroot hne =>
        subst hx
        obtain ⟨a, ha, hax⟩ := hroot
        obtain ⟨m, hm, -⟩ := hargs a ha
        have hchain : Chain cs a.2 _ := chain_getRoot
        rw [← hax] at hchain
        rcases Relation.ReflTransGen.cases_tail hchain with heq | ⟨y, -, hy⟩
        · exact hin hbk hi (List.mem_map.2 ⟨a, ha, heq.symm⟩)
        · cases y with
          | const c => cases hy
          | left n => exact ih ((find_left hb.nodup).1 hy)

/-- Every cycle goes through a move. -/
theorem Built.mov_of_cycle (h : Built prog f cs) (hc : ¬NoCycle cs) :
    ∃ id b u r, f.block? id = some b ∧ .unary u ∈ b.insts ∧ u.op = .mov ∧
      u.operand.typeOf.isArray = false ∧ u.result = some r ∧
      Relation.TransGen (Copy cs) r.var r.var ∧ (r.var, u.operand) ∈ cs := by
  induction h with
  | nil =>
    refine absurd (fun v hv => ?_) hc
    obtain ⟨w, ⟨l, hl, -⟩, -⟩ := Relation.TransGen.head'_iff.1 hv
    cases hl
  | @snoc cs v x hb ho hv ih =>
    by_cases hac : NoCycle cs
    · -- the new entry closes the cycle
      obtain ⟨w, hw⟩ : ∃ w, Relation.TransGen (Copy (cs ++ [(v, x)])) w w := by
        simpa [NoCycle] using hc
      cases x with
      | const c =>
        refine absurd (Relation.TransGen.mono (fun a b hab => ?_) _ _ hw) (hac w)
        obtain ⟨l, hl, rfl⟩ := hab
        simp only [List.mem_append, List.mem_singleton, Prod.mk.injEq, reduceCtorEq, and_false,
          or_false] at hl
        exact ⟨l, hl, rfl⟩
      | left l =>
        have hpath : Relation.ReflTransGen (Copy cs) l.var v := by
          refine path_of_new_cycle hac (Relation.TransGen.mono (fun a b hab => ?_) _ _ hw)
          obtain ⟨m, hm, rfl⟩ := hab
          rcases List.mem_append.1 hm with hm | hm
          · exact .inl ⟨m, hm, rfl⟩
          · obtain ⟨rfl, hml⟩ := Prod.mk.inj (List.mem_singleton.1 hm)
            exact .inr ⟨rfl, congrArg LeftValue.var (Value.left.inj hml)⟩
        have hcyc : Relation.TransGen (Copy (cs ++ [(v, Value.left l)])) v v :=
          .head' ⟨l, by simp, rfl⟩ (Relation.ReflTransGen.mono (fun _ _ => Copy.append) _ _ hpath)
        generalize hx : Value.left l = x at ho hcyc
        cases ho with
        | global => cases hx
        | @mov id b u r hbk hi hop harr hr =>
          exact ⟨id, b, u, r, hbk, hi, hop, harr, hr, hcyc, by simp⟩
        | @phi id b p r _ hbk hi hr hargs hroot hne =>
          -- the root of the phi's arguments was no copy, so it is the phi itself
          obtain ⟨a, -, rfl⟩ := hroot
          have hend := find_getRoot (x := a.2) hb.nodup hac
          rw [← hx] at hend hne
          rcases Relation.ReflTransGen.cases_head hpath with heq | ⟨u, ⟨m, hm, -⟩, -⟩
          · rw [Value.eqv_left.2 heq] at hne
            cases hne
          · exact absurd (List.mem_map_of_mem hm) (find_left_eq_none.1 hend)
    · obtain ⟨id, b, u, r, hbk, hi, hop, harr, hr, hcyc, hmem⟩ := ih hac
      exact ⟨id, b, u, r, hbk, hi, hop, harr, hr,
        Relation.TransGen.mono (fun _ _ => Copy.append) _ _ hcyc, List.mem_append_left _ hmem⟩

end Facts

end CopyPropagation

end Ir
end Cact
