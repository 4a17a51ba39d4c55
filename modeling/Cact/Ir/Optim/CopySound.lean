import Cact.Ir.Globals
import Cact.Ir.Optim.CopyOrigin

/-!
# Copy propagation keeps the meaning of a program

In every state of a run a copy that is available has the word of its original: the move or
the phi that defines it has written it there, and in SSA form neither of them changes
while the copy is available. Replacing copies by what their chains lead to is therefore
not seen by any instruction. A phi whose arguments are zeros of both signs is the one
exception, since the source takes the two zeros for equal.

- `Program.OneZero`: equal constants of the program have the same bits.
- `copyLaw`, `copy_new`: what the definition of a copy establishes.
- `word_of_chain`: a variable and the values of its chain have one word.
- `sound_of_chain`: replacing values along chains keeps the meaning.
-/

namespace Cact

namespace Ir

/-- The constants of a program: initial values of globals, and operands. -/
def Program.constants (prog : Program) : List ConstexprValue :=
  prog.globals.filterMap Alloc.init ++ prog.funcs.flatMap fun f => f.operands.filterMap fun
    | .const c => some c
    | .left _ => none

/-- Constants that the source takes for equal are the same. Only a program with zeros of
both signs does not satisfy this. -/
def Program.OneZero (prog : Program) : Prop :=
  ∀ c ∈ prog.constants, ∀ d ∈ prog.constants, c.eqv d = true → c.val = d.val

theorem Program.mem_constants_of_operand {prog : Program} {f : Func} {c : ConstexprValue}
    (hf : f ∈ prog.funcs) (hc : .const c ∈ f.operands) : c ∈ prog.constants :=
  List.mem_append_right _ (List.mem_flatMap.2 ⟨f, hf, List.mem_filterMap.2 ⟨_, hc, rfl⟩⟩)

namespace CopyPropagation

open Vm

section Table

variable {prog : Program} {f : Func} {cs : Copies} {env : Env} {v : Var} {x y : Value}

/-- Every entry has an origin, in the table of the entries before it. -/
theorem Built.origin (h : Built prog f cs) (hx : (v, x) ∈ cs) :
    ∃ cs₀ cs₁, cs = cs₀ ++ cs₁ ∧ Built prog f cs₀ ∧ Origin prog f cs₀ v x := by
  induction h with
  | nil => cases hx
  | @snoc cs v' x' hb ho hv ih =>
    rcases List.mem_append.1 hx with hmem | hmem
    · obtain ⟨cs₀, cs₁, rfl, hb₀, ho₀⟩ := ih hmem
      exact ⟨cs₀, cs₁ ++ [(v', x')], by simp, hb₀, ho₀⟩
    · obtain ⟨rfl, rfl⟩ := Prod.mk.inj (List.mem_singleton.1 hmem)
      exact ⟨cs, [(v, x)], rfl, hb, ho⟩

/-- The constants of a table are no arrays, and they are constants of the program. -/
theorem Built.consts (h : Built prog f cs) (hwf : prog.WellFormed env) (hf : f ∈ prog.funcs)
    {c : ConstexprValue} (hc : (v, Value.const c) ∈ cs) :
    c.type.isArray = false ∧ c ∈ prog.constants := by
  induction h generalizing v c with
  | nil => cases hc
  | @snoc cs v' x' hb ho _ ih =>
    rcases List.mem_append.1 hc with hmem | hmem
    · exact ih hmem
    · obtain ⟨rfl, hx⟩ := Prod.mk.inj (List.mem_singleton.1 hmem)
      cases ho with
      | @global a d ha hct harr hi =>
        cases hx
        have htype := (hwf.inits a ha (hwf.scalars a ha hct harr) c hi).2
        refine ⟨?_, List.mem_append_left _ (List.mem_filterMap.2 ⟨a, ha, hi⟩)⟩
        rwa [← isArray_viewType, htype, isArray_viewType]
      | @mov id b u r hbk hi hop harr hr =>
        rw [← hx] at harr
        refine ⟨harr, Program.mem_constants_of_operand hf ?_⟩
        exact Func.operand_of_used hbk hi (by simp [Inst.used, hx])
      | @phi id b p r x hbk hi hr hargs hroot hne =>
        -- the root of a variable is a constant only if an entry holds the constant
        obtain ⟨a, ha, hax⟩ := hroot
        obtain ⟨m, hm, -⟩ := hargs a ha
        have hchain : Chain cs a.2 _ := chain_getRoot
        rw [← hax, ← hx] at hchain
        rcases Relation.ReflTransGen.cases_tail hchain with heq | ⟨z, -, hz⟩
        · rw [hm] at heq
          cases heq
        · cases z with
          | const d => cases hz
          | left n => exact ih ((find_left hb.nodup).1 hz)

/-- A copy that is not defined in the function is a global. -/
theorem Built.global_of_undefined (h : Built prog f cs) (hx : (v, x) ∈ cs)
    (hd : ¬∃ q, f.defsAt q v) : ∃ a ∈ prog.globals, ∃ c, a.comptime = true ∧
      a.type.isArray = false ∧ a.init = some c ∧ v = .named (.alloc a.id) ∧ x = .const c := by
  obtain ⟨cs₀, -, -, -, ho⟩ := h.origin hx
  cases ho with
  | global ha hc harr hi => exact ⟨_, ha, _, hc, harr, hi, rfl, rfl⟩
  | mov hb hi hop harr hr => exact absurd (Func.exists_defsAt hb hi hr) hd
  | phi hb hi hr => exact absurd (Func.exists_defsAt hb hi hr) hd

end Table

/-! ## What the definition of a copy establishes -/

section Laws

variable {env : Env} {prog : Program} {f : Func} {cs : Copies} {sc sc' : Scope} {v : Var}
  {x y : Value} {p q : BlockId × Nat}

/-- A variable and its original have the same word. -/
def copyLaw (env : Env) (f : Func) (v : Var) (x : Value)
    (h : ∀ w, x.var? = some w → f.graph.Reads v w ∧ f.graph.Unique w) : SlotLaw env f where
  var := v
  operands w := x.var? = some w
  holds sc := (sc.get env v).map Slot.word = wordOf env sc x
  reads := h
  stable sc sc' hv hx hold := by
    have hvar : sc'.get env v = sc.get env v := hv
    have hword : wordOf env sc' x = wordOf env sc x := by
      cases x with
      | const c => rfl
      | left l =>
        have hl : sc'.get env l.var = sc.get env l.var := hx l.var rfl
        show (sc'.get env l.var).map _ = (sc.get env l.var).map _
        rw [hl]
    rw [hvar, hword]
    exact hold

/-- The laws of the copies in the tables of the functions. -/
def CopyLaws (env : Env) (T : Func → Copies) (f : Func) (l : SlotLaw env f) : Prop :=
  ∃ v x h, (v, x) ∈ T f ∧ (∃ q, f.defsAt q v) ∧ l = copyLaw env f v x h

/-- A value that is no array constant has a word of its type. -/
theorem wordOf_fine (ht : f.WellTyped env prog) (hty : sc.Typed prog f) (hx : Fine f x)
    (harr : ∀ c, x = .const c → c.type.isArray = false) :
    ∃ w, wordOf env sc x = some w ∧ fitTy (viewType x.typeOf) w = w := by
  cases x with
  | const c =>
    obtain ⟨w, hdata, hfit⟩ := (hx.2 c rfl).fit (harr c rfl)
    exact ⟨w, by simp [wordOf, hdata], hfit⟩
  | left l => exact wordOf_mentioned hty ht (hx.1 l rfl)

/-- A global that is known at compile time holds its value. -/
theorem word_of_global (hwf : prog.WellFormed env) (hf : f ∈ prog.funcs) {l : Layout}
    (hl : layoutGlobals env.float prog.globals = .ok l) (hty : sc.Typed prog f)
    (hg : sc.globals = l.vars) {a : Alloc} {c : ConstexprValue} (ha : a ∈ prog.globals)
    (hc : a.comptime = true) (harr : a.type.isArray = false) (hi : a.init = some c) :
    (sc.get env (.named (.alloc a.id))).map Slot.word = wordOf env sc (.const c) := by
  have href := hwf.scalars a ha hc harr
  obtain ⟨hwt, htype⟩ := hwf.inits a ha href c hi
  obtain ⟨w, hw, hslot⟩ := slot_allocs hl hwf.globals_nodup ha href hi
  have hlocal : sc.vars (.named (.alloc a.id)) = none := by
    have hnone : f.slotType (.named (.alloc a.id)) = none := by
      rw [← Option.not_isSome_iff_eq_none]
      exact fun h => hwf.not_global hf (mem_allocs_of_slotType h) (List.mem_map_of_mem ha)
    rw [← Option.not_isSome_iff_eq_none, hty.vars.isSome, hnone]
    simp
  have hcarr : c.type.isArray = false := by rwa [← isArray_viewType, htype, isArray_viewType]
  obtain ⟨w', hdata, hfit⟩ := hwt.fit hcarr
  have hview : (viewConst c).type = viewType a.type := htype
  have hword : (viewConst c).word = w' := by
    unfold View.word
    rw [hdata]
  rw [hview, hword] at hw
  rw [htype] at hfit
  have heq := assign_self hw hfit
  unfold Scope.get Env.slotOf
  dsimp only
  rw [hlocal, hg, hslot, heq]
  simp [wordOf, hdata]

variable {T : Func → Copies}

/-- A copy that is ready has the word of its original. -/
theorem word_of_entry (hwf : prog.WellFormed env) (hf : f ∈ prog.funcs)
    (hb : Built prog f (T f)) {l : Layout} (hl : layoutGlobals env.float prog.globals = .ok l)
    (hty : sc.Typed prog f) (hg : sc.globals = l.vars) (hK : Holds (CopyLaws env T) f p sc)
    (hx : (v, x) ∈ T f) (hr : f.graph.Ready v (some p)) :
    (sc.get env v).map Slot.word = wordOf env sc x := by
  by_cases hd : ∃ q, f.defsAt q v
  · have hreads : ∀ w, x.var? = some w → f.graph.Reads v w ∧ f.graph.Unique w := by
      intro w hw
      cases x with
      | const c => cases hw
      | left m =>
        cases hw
        exact ⟨(hb.reads (hwf.ssa f hf) v m hx).1, (hwf.ssa f hf).unique _⟩
    exact hK (copyLaw env f v x hreads) ⟨v, x, hreads, hx, hd, rfl⟩ (hr hd)
  · obtain ⟨a, ha, c, hc, harr, hi, rfl, rfl⟩ := hb.global_of_undefined hx hd
    exact word_of_global hwf hf hl hty hg ha hc harr hi

/-- The values of a chain have one word. -/
theorem word_of_chain (hwf : prog.WellFormed env) (hf : f ∈ prog.funcs)
    (hb : Built prog f (T f)) {l : Layout} (hl : layoutGlobals env.float prog.globals = .ok l)
    (hty : sc.Typed prog f) (hg : sc.globals = l.vars) (hK : Holds (CopyLaws env T) f p sc)
    (h : Chain (T f) x y) (hr : ∀ m, x = .left m → f.graph.Ready m.var (some p)) :
    wordOf env sc x = wordOf env sc y := by
  induction h with
  | refl => rfl
  | @tail y z hxy hyz ih =>
    cases y with
    | const c => cases hyz
    | left m =>
      have hready : f.graph.Ready m.var (some p) := by
        cases x with
        | const c =>
          rcases Relation.ReflTransGen.cases_head hxy with heq | ⟨_, hc, -⟩
          · cases heq
          · cases hc
        | left n => exact Chain.ready hb.nodup (hb.reads (hwf.ssa f hf)) hxy (hr n rfl) rfl
      exact ih.trans (word_of_entry hwf hf hb hl hty hg hK ((find_left hb.nodup).1 hyz) hready)

/-- What the definition of a copy reads is not written by the step that defines it. -/
theorem wordOf_step (hwf : prog.WellFormed env) (hf : f ∈ prog.funcs) (hb : Built prog f cs)
    (hty : sc.Typed prog f) (hr : f.graph.Reach (some p)) (hm : Moves env f p sc q sc')
    (hx : (v, x) ∈ cs) (hfine : Fine f x) (hd : f.defsAt (some q) v) :
    wordOf env sc' x = wordOf env sc x := by
  have hs := hwf.ssa f hf
  cases x with
  | const c => rfl
  | left m =>
    have hreads := (hb.reads hs v m hx).1
    have hnot := hreads.not_defs_self (hs.unique _) (hr.step hm.edge) hd
    have hsame := hm.same (hwf.typed f hf) hs hty (hfine.1 m rfl) hnot
    show (sc'.get env m.var).map _ = (sc.get env m.var).map _
    rw [hsame]

/-- A move copies the word of its operand. -/
theorem copy_mov (hwf : prog.WellFormed env) (hf : f ∈ prog.funcs) (hty : sc.Typed prog f)
    (hr : f.graph.Reach (some p)) (hm : Moves env f p sc q sc') {id : BlockId} {b : Block}
    {u : UnaryInst} {r : LeftValue} (hb : f.block? id = some b) (hi : .unary u ∈ b.insts)
    (hop : u.op = .mov) (harr : u.operand.typeOf.isArray = false) (hres : u.result = some r)
    (hd : f.defsAt (some q) r.var) :
    (sc'.get env r.var).map Slot.word = wordOf env sc u.operand := by
  have hs := hwf.ssa f hf
  have ht := hwf.typed f hf
  have hment : f.Mentions u.operand := .used hb hi (by simp [Inst.used])
  rcases hs.edge_defines hm.edge hd hb hi hres with ⟨k, hk, -, hp, hq⟩ | ⟨ph, -, -, hph, -⟩
  · cases hp
    obtain ⟨s, w, hw, -, rfl⟩ := hm.of_unary hb hk
    obtain ⟨w₀, hw₀, hfit⟩ := wordOf_fine ht hty (x := u.operand)
      ⟨fun m hm => hm ▸ hment, fun c hc => ht.consts c (hc ▸ hment)⟩
      fun c hc => by rw [hc] at harr; exact harr
    have hview := viewOf_eq hty ht (fun m hm => hm ▸ hment) hw₀
    have hdest := resultType_mentioned hty ht (.result hb hi hres)
    obtain ⟨vw, hvw, hw⟩ := Except.bind_eq_ok.1 hw
    cases hview.symm.trans hvw
    obtain ⟨dest, hdst, hw⟩ := Except.bind_eq_ok.1 hw
    rw [hres, hdest] at hdst
    cases hdst
    rw [hop, ht.movs id b hb u hi hop r hres] at hw
    have heq := assign_self hw hfit
    rw [hres, heq, get_result ht hty hb hi hres]
    · exact hw₀.symm
    · rw [ht.movs id b hb u hi hop r hres]
      exact hfit
  · cases hph

/-- Roots that the source takes for equal have one word. -/
theorem wordOf_eqv (hwf : prog.WellFormed env) (hf : f ∈ prog.funcs) (hz : prog.OneZero)
    (hb : Built prog f cs) {u w : Var} (hx : (u, x) ∈ cs ∨ ∃ l, x = .left l)
    (hy : (w, y) ∈ cs ∨ ∃ l, y = .left l) (h : x.eqv y = true) :
    wordOf env sc x = wordOf env sc y := by
  cases x with
  | const c =>
    cases y with
    | const d =>
      have hc := (hb.consts hwf hf (hx.resolve_right (by simp))).2
      have hd := (hb.consts hwf hf (hy.resolve_right (by simp))).2
      have hval := hz c hc d hd h
      unfold wordOf viewConst
      dsimp only
      rw [hval]
    | left l => cases h
  | left l =>
    cases y with
    | const d => cases h
    | left m =>
      rw [Value.eqv_left] at h
      unfold wordOf
      dsimp only
      rw [h]

theorem root_entry (hn : (cs.map Prod.fst).Nodup) (h : Chain cs x y) (hx : ∃ l, x = .left l) :
    (∃ u, (u, y) ∈ cs) ∨ ∃ l, y = .left l := by
  rcases Relation.ReflTransGen.cases_tail h with rfl | ⟨z, -, hz⟩
  · exact .inr hx
  · cases z with
    | const d => cases hz
    | left n => exact .inl ⟨n.var, (find_left hn).1 hz⟩

/-- A phi takes the word of an argument, and all of them have the word of the root. -/
theorem copy_phi (hwf : prog.WellFormed env) (hf : f ∈ prog.funcs) (hz : prog.OneZero)
    (hb : Built prog f (T f)) {l : Layout} (hl : layoutGlobals env.float prog.globals = .ok l)
    (hty : sc.Typed prog f) (hg : sc.globals = l.vars) (hK : Holds (CopyLaws env T) f p sc)
    (hr : f.graph.Reach (some p)) (hm : Moves env f p sc q sc') {cs₁ : Copies}
    (hcs : T f = cs ++ cs₁) {id : BlockId} {b : Block} {ph : PhiInst}
    {r : LeftValue} (hbk : f.block? id = some b) (hi : .phi ph ∈ b.insts)
    (hres : ph.result = some r) (hx : (r.var, x) ∈ T f)
    (hargs : ∀ a ∈ ph.args, ∃ l, a.2 = .left l ∧ ((getRoot cs a.2).eqv (.left r) = true ∨
      x = getRoot cs a.2 ∨ x.eqv (getRoot cs a.2) = true))
    (hd : f.defsAt (some q) r.var) :
    (sc'.get env r.var).map Slot.word = wordOf env sc x := by
  have hs := hwf.ssa f hf
  have ht := hwf.typed f hf
  rcases hs.edge_defines hm.edge hd hbk hi hres with ⟨k, -, hp, -⟩ | ⟨ph', src, c, hph, hmem, hc, htgt, hpe, hqe⟩
  · cases hp
  · cases hph
    cases hpe
    cases hqe
    obtain ⟨t, b', -, hb', hq, hrun⟩ := hm.of_end hc
    obtain ⟨rfl, -⟩ := Prod.mk.inj hq
    cases hbk.symm.trans hb'
    obtain ⟨y, vw, w, hy, hvw, hassign, hget⟩ := get_phi ht hs hty hbk hrun hmem hres
    obtain ⟨a, ha, rfl⟩ := PhiInst.value_mem hy
    obtain ⟨m, hma, hroot⟩ := hargs a ha
    have hment : f.Mentions a.2 := .used hbk hi (List.mem_map_of_mem ha)
    have hready : f.graph.Ready m.var (some (src, c.insts.length)) :=
      hs.uses _ m (.phi hc htgt hbk hmem (hma ▸ hy))
    obtain ⟨w₀, hw₀, hfit⟩ := wordOf_mentioned hty ht (hma ▸ hment : f.Mentions (.left m))
    rw [← hma] at hw₀
    have hview := viewOf_eq hty ht (fun m hm => hm ▸ hment) hw₀
    cases hview.symm.trans hvw
    have htype := ht.phis id b hbk ph hi r hres a ha
    have hfit' : fitTy (viewType r.type) w₀ = w₀ := by
      rw [htype, hma]
      exact hfit
    cases assign_self hassign hfit'
    rw [hget]
    show some w₀ = _
    rw [← hw₀]
    -- the argument has the word of its root
    have hchain : Chain cs a.2 (getRoot cs a.2) := chain_getRoot
    have hchain' : Chain (T f) a.2 (getRoot cs a.2) := hcs ▸ hchain.append
    have hword := word_of_chain hwf hf hb hl hty hg hK hchain' fun m' hm' => by
      cases hma.symm.trans hm'
      exact hready
    rw [hword]
    rcases hroot with hself | rfl | heqv
    · -- the root is the phi itself, whose law holds already
      cases hρ : getRoot cs a.2 with
      | const d =>
        rw [hρ] at hself
        cases hself
      | left r' =>
        rw [hρ, Value.eqv_left] at hself
        have hself' : f.graph.Ready r.var (some (src, c.insts.length)) := by
          rw [hρ, hma] at hchain'
          rw [← hself]
          exact Chain.ready hb.nodup (hb.reads hs) hchain' hready rfl
        have hentry := word_of_entry hwf hf hb hl hty hg hK hx hself'
        rw [← hentry, ← hself]
        rfl
    · rfl
    · have hρ : (∃ u, (u, getRoot cs a.2) ∈ T f) ∨ ∃ l, getRoot cs a.2 = .left l :=
        root_entry hb.nodup hchain' ⟨m, hma⟩
      rcases hρ with ⟨u, hu⟩ | hleft
      · exact (wordOf_eqv hwf hf hz hb (.inl hx) (.inl hu) heqv).symm
      · exact (wordOf_eqv hwf hf hz hb (w := r.var) (.inl hx) (.inr hleft) heqv).symm

/-- The definition of a copy writes the word of its original. -/
theorem copy_new (hwf : prog.WellFormed env) (hf : f ∈ prog.funcs) (hz : prog.OneZero)
    (hb : Built prog f (T f)) {l : Layout} (hl : layoutGlobals env.float prog.globals = .ok l)
    (hty : sc.Typed prog f) (hg : sc.globals = l.vars) (hK : Holds (CopyLaws env T) f p sc)
    (hr : f.graph.Reach (some p)) (hm : Moves env f p sc q sc') (hx : (v, x) ∈ T f)
    (hd : f.defsAt (some q) v) : (sc'.get env v).map Slot.word = wordOf env sc' x := by
  obtain ⟨cs₀, cs₁, hcs, -, ho⟩ := hb.origin hx
  cases ho with
  | @global a c ha hc harr hi =>
    obtain ⟨b, hbk, hv⟩ := hd
    obtain ⟨j, i, r, hj, hir, hrv, -⟩ := Block.mem_defsAt hv
    exact absurd hrv (result_not_global hwf hf hbk (List.mem_of_getElem? hj) hir ha)
  | @mov id b u r hbk hi hop harr hres =>
    have hfine := ((hb.types hwf hf) _ _ hx r (.result hbk hi hres) rfl).2
    rw [wordOf_step hwf hf hb hty hr hm hx hfine hd]
    exact copy_mov hwf hf hty hr hm hbk hi hop harr hres hd
  | @phi id b ph r _ hbk hi hres hargs =>
    have hfine := ((hb.types hwf hf) _ _ hx r (.result hbk hi hres) rfl).2
    rw [wordOf_step hwf hf hb hty hr hm hx hfine hd]
    exact copy_phi hwf hf hz hb hl hty hg hK hr hm hcs hbk hi hres hx hargs hd

end Laws

/-! ## Replacing values along chains -/

section Along

variable {env : Env} {prog : Program} {f : Func} {T : Func → Copies} {g : String → Value → Value}
  {v : Var}

/-- The replacement goes along the chains of a table for every function. -/
structure Along (prog : Program) (T : Func → Copies) (g : String → Value → Value) : Prop where
  const : ∀ n c, g n (.const c) = .const c
  built : ∀ f ∈ prog.funcs, Built prog f (T f)
  chain : ∀ f ∈ prog.funcs, ∀ x, f.Mentions x → Chain (T f) x (g f.name x)

/-- The copies of all functions have the words of their originals throughout a run. -/
theorem flow_copies (hwf : prog.WellFormed env) (hz : prog.OneZero) (ha : Along prog T g)
    {l : Layout} (hl : layoutGlobals env.float prog.globals = .ok l) :
    Flow prog (fun _ _ _ => True) (Holds (CopyLaws env T)) l.vars env := by
  refine flow_of_laws hwf (typed_layoutGlobals hwf hl) ?_ ?_
  · rintro f hf _ ⟨v, x, h, hx, ⟨q, hd⟩, rfl⟩ u hu
    obtain ⟨t, hment⟩ := Func.exists_mention_of_defsAt hd
    rcases hu with rfl | hu
    · exact ⟨t, hment⟩
    · cases x with
      | const c => cases hu
      | left m =>
        cases hu
        have hfine := ((ha.built f hf).types hwf hf _ _ hx _ hment rfl).2
        exact ⟨m.type, hfine.1 m rfl⟩
  · rintro f hf _ ⟨v, x, h, hx, -, rfl⟩ p q sc sc' hr hty hg hK hm - hd
    exact copy_new hwf hf hz (ha.built f hf) hl hty hg hK hr hm hx hd

theorem replaces_of_along (hwf : prog.WellFormed env) (ha : Along prog T g) (hf : f ∈ prog.funcs) :
    f.Replaces (g f.name) := by
  have hb := ha.built f hf
  have hs := hwf.ssa f hf
  have htypes : ∀ v : LeftValue, f.Mentions (.left v) →
      viewType v.type = viewType (g f.name (.left v)).typeOf ∧ Fine f (g f.name (.left v)) :=
    fun v hv => (ha.chain f hf (.left v) hv).types hb.nodup (hb.types hwf hf)
      ⟨fun u hu => hu ▸ hv, nofun⟩
  refine ⟨ha.const f.name, fun v hv => (htypes v hv).1.symm, ?_, ?_, ?_⟩
  · intro v u hv hu
    exact (htypes v hv).2.1 u hu
  · intro v c hv hc
    exact (htypes v hv).2.2 c hc
  · intro p v u hv hu
    have hchain := ha.chain f hf (.left v) (Func.mentions_of_usedAt hv)
    exact Chain.ready hb.nodup (hb.reads hs) hchain (hs.uses p v hv) hu

/-- No constant comes in that was not in the program. -/
theorem oneZero_of_along (hwf : prog.WellFormed env) (hz : prog.OneZero) (ha : Along prog T g) :
    (prog.mapUsed g).OneZero := by
  have hsub : ∀ c ∈ (prog.mapUsed g).constants, c ∈ prog.constants := by
    intro c hc
    rcases List.mem_append.1 hc with hc | hc
    · exact List.mem_append_left _ hc
    · obtain ⟨f', hf', hc⟩ := List.mem_flatMap.1 hc
      obtain ⟨f, hf, rfl⟩ := List.mem_map.1 hf'
      obtain ⟨y, hy, hyc⟩ := List.mem_filterMap.1 hc
      rw [Func.operands_mapUsed] at hy
      obtain ⟨x, hx, rfl⟩ := List.mem_map.1 hy
      have hment := Func.mentions_of_operand (hwf.ssa f hf) hx
      have hb := ha.built f hf
      cases hgx : g f.name x with
      | left m =>
        rw [hgx] at hyc
        cases hyc
      | const d =>
        rw [hgx] at hyc
        cases hyc
        cases x with
        | const e =>
          rw [ha.const] at hgx
          cases hgx
          exact Program.mem_constants_of_operand hf hx
        | left m =>
          have hchain := ha.chain f hf _ hment
          rw [hgx] at hchain
          rcases root_entry hb.nodup hchain ⟨m, rfl⟩ with ⟨u, hu⟩ | ⟨n, hn⟩
          · exact (hb.consts hwf hf hu).2
          · cases hn
  intro c hc d hd
  exact hz c (hsub c hc) d (hsub d hd)

/-- Replacing values along the chains of their copies cannot be seen. -/
theorem sound_of_chain (hwf : prog.WellFormed env) (hz : prog.OneZero) (ha : Along prog T g) :
    SameMeaning env prog (prog.mapUsed g) := by
  intro input
  refine obsEq_of_alike hwf Program.alike_mapUsed
    (fun l hl => flow_copies hwf hz ha hl) ?_ ?_ fun _ _ => trivial
  · intro s t _ _ fr fr' rest f b _ _ _ _ _
    trivial
  · intro l s hl hinv _
    refine exec_mapUsed ha.const hinv ?_
    intro fr hfr f hf v hv
    obtain ⟨f', hf', -, hty, hK⟩ := hinv.frames fr hfr
    cases hf.symm.trans hf'
    have hmem := Program.mem_of_findFunc hf
    have hb := ha.built f hmem
    have hs := hwf.ssa f hmem
    have hment := Func.mentions_of_usedAt hv
    have hname := findFunc_name hf
    have hchain := ha.chain f hmem _ hment
    rw [hname] at hchain
    have hword := word_of_chain hwf hmem hb hl hty hinv.globals hK hchain fun m hm => by
      cases hm
      exact hs.uses _ v hv
    have hfine : Fine f (.left v) := ⟨fun u hu => hu ▸ hment, nofun⟩
    obtain ⟨htype, hfine'⟩ := hchain.types hb.nodup (hb.types hwf hmem) hfine
    obtain ⟨w, hw, -⟩ := wordOf_mentioned hty (hwf.typed f hmem) hment
    exact (viewOf_congr hty (hwf.typed f hmem) hfine.1 hfine'.1 htype hword (by rw [hw]; rfl)).symm

end Along

end CopyPropagation

end Ir
end Cact
