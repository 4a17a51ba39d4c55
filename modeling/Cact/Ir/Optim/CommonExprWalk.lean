import Cact.Ir.Analysis.Available
import Cact.Ir.Optim.CommonExprLaws

/-!
# The walk down the dominance tree

The tables are read in two ways, once for the types of the values and once for the values
themselves in a state of a run. In both an expression relates its result to its operands
wherever the result is available, so equal numbers stand for equal types and, in every state,
for equal values. A move from the first value of a number writes the word that the replaced
instruction would have written.

- `Reading`: the two ways to read the tables.
- `Known`, `Known.visit`: what the tables say at a point, and the step past an instruction.
- `Replaced`, `walk_patched`: the walk replaces instructions by moves that do the same.
- `fits_replaced`, `same_replaced`: what the moves that come in do.
- `eliminate_patched`: the pass on one function.
-/

namespace Cact

namespace Ir

open Vm Analysis

namespace CommonSubexprElimination

/-! ## Readings of the tables -/

/-- A value is read as its type, and as what it stands for if that is known. -/
def mean (σ : Value → Option Data) (x : Value) : Ty × Option Data := (viewType x.typeOf, σ x)

/-- The operator takes operands to a result, in types and in what is known of the values. -/
def Computes (float : Floats) (f : Func) (op : Op) (X Y Z : Ty × Option Data) : Prop :=
  Applied f op X.1 Y.1 Z.1 ∧ (X.2 = none ∧ Y.2 = none ∧ Z.2 = none ∨
    ∃ a b w, X.2 = some a ∧ Y.2 = some b ∧ Z.2 = some (.word w) ∧
      evalExpr float op Z.1 ⟨X.1, a⟩ ⟨Y.1, b⟩ = .ok w)

/-- The tables are read without values, or with those of a scope in which the results that
are available have the values of their expressions. -/
inductive Reading (env : Env) (prog : Program) (f : Func) (p : BlockId × Nat) :
    (Value → Option Data) → Prop
  | types : Reading env prog f p fun _ => none
  | scope {sc : Scope} (ht : sc.Typed prog f) (hK : Holds (ExprLaws env) f p sc) :
      Reading env prog f p (dataOf env sc)

/-- A value that an instruction at the point may read. -/
def InScope (f : Func) (p : BlockId × Nat) (x : Value) : Prop :=
  x = .void ∨ f.Mentions x ∧ ∀ l, x = .left l → f.graph.Ready l.var (some p)

/-- A result that is available. -/
def IsResult (f : Func) (p : BlockId × Nat) (x : Value) : Prop :=
  ∃ l, x = .left l ∧ f.Mentions (.left l) ∧ f.graph.Avail l.var (some p)

section Readings

variable {env : Env} {prog : Program} {f : Func} {p q : BlockId × Nat} {σ : Value → Option Data}
  {op : Op} {X Y Z : Ty × Option Data} {x : Value}

theorem Reading.mono (h : f.Settles p q) (hσ : Reading env prog f q σ) : Reading env prog f p σ := by
  cases hσ with
  | types => exact .types
  | scope ht hK => exact .scope ht fun l hl hav => hK l hl (h _ hav)

theorem InScope.mono (h : f.Settles p q) (hx : InScope f p x) : InScope f q x :=
  hx.imp_right fun ⟨hm, hr⟩ => ⟨hm, fun l hl => h.ready (hr l hl)⟩

theorem IsResult.mono (h : f.Settles p q) (hx : IsResult f p x) : IsResult f q x := by
  obtain ⟨l, hl, hm, hav⟩ := hx
  exact ⟨l, hl, hm, h _ hav⟩

theorem InScope.left (hx : InScope f p x) : ∀ l, x = .left l → f.Mentions (.left l) :=
  left_of_void_or (hx.imp_right And.left)

theorem computes_comm (hfl : env.float.Commutes) (hop : op.commutative = true)
    (h : Computes env.float f op X Y Z) : Computes env.float f op Y X Z := by
  obtain ⟨ht, hv⟩ := h
  refine ⟨ht.comm hop, ?_⟩
  rcases hv with ⟨hX, hY, hZ⟩ | ⟨a, b, w, hX, hY, hZ, hw⟩
  · exact .inl ⟨hY, hX, hZ⟩
  · exact .inr ⟨b, a, w, hY, hX, hZ, evalExpr_comm hfl hop hw⟩

theorem functional_computes (ho : OneType f) {float : Floats} :
    Numbering.Functional (Computes float f) := by
  rintro op ⟨X, a⟩ ⟨Y, b⟩ ⟨Z, c⟩ ⟨Z', c'⟩ ⟨ht, hv⟩ ⟨ht', hv'⟩
  obtain rfl : Z = Z' := ht.unique ho ht'
  dsimp only at hv hv'
  rcases hv with ⟨rfl, rfl, rfl⟩ | ⟨a₁, b₁, w, rfl, rfl, rfl, hw⟩
  · rcases hv' with ⟨-, -, rfl⟩ | ⟨_, _, _, h, -⟩
    · rfl
    · cases h
  · rcases hv' with ⟨h, -⟩ | ⟨a₂, b₂, w', h₁, h₂, rfl, hw'⟩
    · cases h
    · cases h₁
      cases h₂
      cases hw.symm.trans hw'
      rfl

/-- The source takes values for equal that are read alike. -/
theorem respects (hwf : prog.WellFormed env) (hf : f ∈ prog.funcs) (hone : prog.OneValue)
    (hσ : Reading env prog f p σ) : Numbering.Respects Value.eqv (mean σ) (InScope f p) := by
  have ht := hwf.typed f hf
  have hconst : ∀ c, InScope f p (.const c) → c ∈ .void :: prog.constants := by
    rintro c (hc | ⟨hc, -⟩)
    · cases hc
      exact List.mem_cons_self
    · exact List.mem_cons_of_mem _ (Program.mem_constants_of_mentions hf hc)
  refine ⟨fun x hx => ?_, fun x y hx hy hxy => ?_⟩
  · cases x with
    | left l => exact Value.eqv_left.2 rfl
    | const c =>
      rcases List.mem_cons.1 (hconst c hx) with rfl | hc
      · decide
      · exact hone.refl c hc
  · cases x with
    | const c =>
      cases y with
      | left l => cases hxy
      | const d =>
        have hview := hone.view c (hconst c hx) d (hconst d hy) hxy
        have htype : viewType c.type = viewType d.type := congrArg View.type hview
        have hdata : σ (.const c) = σ (.const d) := by
          cases hσ with
          | types => rfl
          | scope _ _ =>
            unfold dataOf viewOf
            dsimp only
            rw [hview]
        exact Prod.ext htype hdata
    | left u =>
      cases y with
      | const d => cases hxy
      | left v =>
        rw [Value.eqv_left] at hxy
        have hu := hx.left u rfl
        have hv := hy.left v rfl
        have htype : viewType u.type = viewType v.type := by
          have hslot := ht.slots u hu
          rw [hxy, ht.slots v hv] at hslot
          exact (Option.some.inj hslot).symm
        have hdata : σ (.left u) = σ (.left v) := by
          cases hσ with
          | types => rfl
          | @scope sc hty _ =>
            obtain ⟨w, hget, hslot, -⟩ := slotAt_mentioned hty ht hu
            obtain ⟨w', hget', hslot', -⟩ := slotAt_mentioned hty ht hv
            rw [hxy, hget', htype] at hget
            cases hget
            unfold dataOf viewOf
            dsimp only
            rw [hslot, hslot', htype]
        exact Prod.ext htype hdata

variable {id : BlockId} {b : Block} {k : Nat} {i : Inst} {e : Expr}

/-- Behind an expression the result is what the operator makes of the operands. -/
theorem Reading.computes (hwf : prog.WellFormed env) (hf : f ∈ prog.funcs)
    (hb : f.block? id = some b) (hi : b.insts[k]? = some i) (he : expr? i = some e)
    (hav : f.graph.Avail e.result.var (some q)) (hσ : Reading env prog f q σ) :
    Computes env.float f e.op (mean σ e.lhs) (mean σ e.rhs) (mean σ (.left e.result)) := by
  have hmem := List.mem_of_getElem? hi
  refine ⟨⟨e, mem_exprs hb hmem he, rfl, rfl, .inl ⟨rfl, rfl⟩⟩, ?_⟩
  cases hσ with
  | types => exact .inl ⟨rfl, rfl, rfl⟩
  | scope hty hK =>
    have hreads : ∀ u, e.lhs.var? = some u ∨ e.rhs.var? = some u →
        f.graph.Reads e.result.var u ∧ f.graph.Unique u := fun u hu =>
      ⟨reads_operand (hwf.ssa f hf) hb hmem he hu, (hwf.ssa f hf).unique u⟩
    exact .inr (hK (exprLaw env f e hreads) ⟨id, b, i, e, hreads, hb, hmem, he, rfl⟩ hav)

end Readings

/-! ## What the tables say at a point -/

/-- At a point the tables are sound in every reading. -/
structure Known (env : Env) (prog : Program) (f : Func) (p : BlockId × Nat) (ctx : Context) :
    Prop where
  sound : ∀ σ, Reading env prog f p σ →
    ctx.Sound (mean σ) (Computes env.float f) (IsResult f p)
  keys : ctx.Keys (InScope f p)
  void : ctx.valueOf 0 = some .void

section Tables

variable {env : Env} {prog : Program} {f : Func} {p q : BlockId × Nat} {ctx : Context}
  {id : BlockId} {b : Block} {k : Nat} {i : Inst} {e : Expr} {x : Value}

theorem Known.start : Known env prog f p .start where
  sound σ _ := by
    refine ⟨?_, ?_, ?_⟩
    · intro n v hv
      cases List.mem_singleton.1 hv
      exact Nat.zero_lt_one
    · intro x n hx
      cases List.mem_singleton.1 hx
      exact ⟨.void, rfl, rfl⟩
    · rintro op a b n ⟨⟩
  keys x n hx := by
    cases List.mem_singleton.1 hx
    exact .inl rfl
  void := rfl

/-- The tables are handed down to where everything is still available. -/
theorem Known.mono (h : Known env prog f p ctx) (hs : f.Settles p q) : Known env prog f q ctx where
  sound σ hσ := (h.sound σ (hσ.mono hs)).mono fun _ => IsResult.mono hs
  keys := h.keys.mono fun _ => InScope.mono hs
  void := h.void

/-- The number stands for the value in every reading. -/
def Numbers (env : Env) (prog : Program) (f : Func) (p : BlockId × Nat) (ctx : Context) (n : Nat)
    (x : Value) : Prop :=
  ∃ v, ctx.valueOf n = some v ∧ ∀ σ, Reading env prog f p σ → mean σ x = mean σ v

theorem Numbers.extends {ctx' : Context} {n : Nat} (h : Numbers env prog f p ctx n x)
    (hext : ctx.Extends ctx') : Numbers env prog f p ctx' n x := by
  obtain ⟨v, hv, hm⟩ := h
  exact ⟨v, hext n v hv, hm⟩

/-- An operand gets a number. -/
theorem Known.lookup (hwf : prog.WellFormed env) (hf : f ∈ prog.funcs) (hone : prog.OneValue)
    (h : Known env prog f p ctx) (hx : InScope f p x) :
    Known env prog f p (ctx.lookup Value.eqv x).1 ∧ ctx.Extends (ctx.lookup Value.eqv x).1 ∧
      Numbers env prog f p (ctx.lookup Value.eqv x).1 (ctx.lookup Value.eqv x).2 x := by
  have hall := fun σ hσ => (h.sound σ hσ).lookup h.keys (respects hwf hf hone hσ) hx
  obtain ⟨-, hkeys, hext, v, hv, -⟩ := hall _ .types
  refine ⟨⟨fun σ hσ => (hall σ hσ).1, hkeys, hext 0 _ h.void⟩, hext, v, hv, fun σ hσ => ?_⟩
  obtain ⟨-, -, -, v', hv', hm⟩ := hall σ hσ
  cases hv.symm.trans hv'
  exact hm

/-- The point in front of an expression that control can come to, and its two operands with
their numbers. -/
structure Before (env : Env) (prog : Program) (f : Func) (id : BlockId) (k : Nat) (e : Expr)
    (ctx : Context) (m n : Nat) : Prop where
  known : Known env prog f (id, k) ctx
  lhs : Numbers env prog f (id, k) ctx m e.lhs
  rhs : Numbers env prog f (id, k) ctx n e.rhs

/-- What the result may be replaced by: an available result that is read like it. -/
def Replaces (env : Env) (prog : Program) (f : Func) (p : BlockId × Nat) (e : Expr) (z : Value) :
    Prop :=
  IsResult f p z ∧ ∀ σ, Reading env prog f p σ →
    Computes env.float f e.op (mean σ e.lhs) (mean σ e.rhs) (mean σ z)

/-- The result gets the number of its expression. -/
theorem Before.convert (hwf : prog.WellFormed env) (hf : f ∈ prog.funcs) (ho : OneType f)
    (hb : f.block? id = some b) (hi : b.insts[k]? = some i) (he : expr? i = some e)
    (hr : f.graph.Reach (some (id, k))) {m n : Nat} (h : Before env prog f id k e ctx m n) :
    Known env prog f (id, k + 1)
        (ctx.convert Value.eqv .void e.op m n (.left e.result)).1 ∧
      (ctx.convert Value.eqv .void e.op m n (.left e.result)).1.exprOf e.op m n ≠ none ∧
      ∀ z, (ctx.convert Value.eqv .void e.op m n (.left e.result)).2 = some z →
        Replaces env prog f (id, k) e z := by
  have hs := hwf.ssa f hf
  have hres := definedVar_of_expr he
  have hphi : i.isPhi = false := by
    have hplain := isPlain_of_expr he
    cases i <;> first | rfl | cases hplain
  have hset : f.Settles (id, k) (id, k + 1) :=
    Func.settles_succ hb (Block.phis_length_le_of_get hi hphi)
  have hav : f.graph.Avail e.result.var (some (id, k + 1)) := Func.avail_result hb hi hphi hres
  have hment : f.Mentions (.left e.result) := .result hb (List.mem_of_getElem? hi) hres
  obtain ⟨x, hx, hmx⟩ := h.lhs
  obtain ⟨y, hy, hmy⟩ := h.rhs
  -- the result has no number yet
  have hfresh : ∀ z, InScope f (id, k) z → z.eqv (.left e.result) = false := by
    intro z hz
    cases hzr : z.eqv (.left e.result) with
    | false => rfl
    | true =>
      cases z with
      | const c => cases hzr
      | left l =>
        rw [Value.eqv_left] at hzr
        rcases hz with hz | ⟨-, hready⟩
        · cases hz
        · have hd := Func.exists_defsAt hb (List.mem_of_getElem? hi) hres
          have hbefore := hready l rfl (hzr ▸ hd)
          rw [hzr] at hbefore
          exact absurd hbefore (Func.not_avail_before hs hb hi hphi hres hr)
  have hconv := fun σ (hσ : Reading env prog f (id, k + 1) σ) => by
    have hσ' := hσ.mono hset
    have happ := Reading.computes hwf hf hb hi he hav hσ
    rw [hmx σ hσ', hmy σ hσ'] at happ
    exact ((h.known.sound σ hσ').mono fun _ => IsResult.mono hset).convert .void
      h.known.keys (functional_computes ho) hfresh (Value.eqv_left.2 rfl) hx hy
      ⟨e.result, rfl, hment, hav⟩ happ
  obtain ⟨-, hkeys, hext, hnone⟩ := hconv _ .types
  refine ⟨⟨fun σ hσ => (hconv σ hσ).1, hkeys.mono ?_, hext 0 _ h.known.void⟩, hnone, ?_⟩
  · rintro z (hz | rfl)
    · exact hz.mono hset
    · refine .inr ⟨hment, fun l hl => ?_⟩
      cases hl
      exact fun _ => hav
  · intro z hz
    have happ := fun σ (hσ : Reading env prog f (id, k) σ) =>
      Numbering.convert_some (h.known.sound σ hσ) hz hx hy
    refine ⟨(happ _ .types).1, fun σ hσ => ?_⟩
    rw [hmx σ hσ, hmy σ hσ]
    exact (happ σ hσ).2

/-- The same number for the expression with its operands exchanged. -/
theorem Known.commute (hfl : env.float.Commutes) (h : Known env prog f p ctx) {op : Op}
    {m n : Nat} (hop : op.commutative = true) (hn : ctx.exprOf op m n ≠ none) :
    Known env prog f p (ctx.commute op m n) where
  sound σ hσ := (h.sound σ hσ).commute hn fun _ _ _ => computes_comm hfl hop
  keys := h.keys
  void := h.void

/-- An operand that the instruction reads is in scope in front of it. -/
theorem inScope_operand (hs : f.Ssa) (hb : f.block? id = some b) (hi : b.insts[k]? = some i)
    (he : expr? i = some e) (hx : x = e.lhs ∨ x = e.rhs) : InScope f (id, k) x := by
  refine (mentions_operand hb (List.mem_of_getElem? hi) he hx).imp_right fun hm => ⟨hm, ?_⟩
  intro l hl
  have hphi : i.isPhi = false := by
    have hplain := isPlain_of_expr he
    cases i <;> first | rfl | cases hplain
  exact hs.uses _ l (.inst hb hi hphi (usedVars_of_operand he hx hl))

/-- The tables behind an expression, and what the expression is replaced by. -/
theorem Known.visit (hwf : prog.WellFormed env) (hf : f ∈ prog.funcs) (hone : prog.OneValue)
    (ho : OneType f) (hfl : env.float.Commutes) (hb : f.block? id = some b)
    (hi : b.insts[k]? = some i) (he : expr? i = some e) (hr : f.graph.Reach (some (id, k)))
    (h : Known env prog f (id, k) ctx) :
    Known env prog f (id, k + 1) (visit ctx i).1 ∧ ∀ i', (visit ctx i).2 = some i' →
      ∃ z, i' = .unary ⟨.mov, some e.result, z⟩ ∧ Replaces env prog f (id, k) e z := by
  have hs := hwf.ssa f hf
  have hlhs := inScope_operand hs hb hi he (.inl rfl)
  have hrhs := inScope_operand hs hb hi he (.inr rfl)
  obtain ⟨hk₁, -, hn₁⟩ := h.lookup hwf hf hone hlhs
  cases i with
  | phi p => cases he
  | call c => cases he
  | unary u =>
    obtain ⟨r, hres, rfl, hload, hmov⟩ := expr_unary he
    -- the second operand is `void`, which has the number 0
    have hvoid : Numbers env prog f (id, k) (ctx.lookup Value.eqv u.operand).1 0 .void :=
      ⟨.void, hk₁.void, fun _ _ => rfl⟩
    obtain ⟨hk₂, -, hz⟩ := Before.convert hwf hf ho hb hi he hr ⟨hk₁, hn₁, hvoid⟩
    unfold CommonSubexprElimination.visit
    dsimp only
    rw [hres]
    dsimp only
    rw [if_neg (by simp [hload, hmov])]
    refine ⟨hk₂, fun i' hi' => ?_⟩
    obtain ⟨z, hz', rfl⟩ := Option.map_eq_some_iff.1 hi'
    exact ⟨z, rfl, hz z hz'⟩
  | binary j =>
    obtain ⟨r, hres, rfl, hload, hstore⟩ := expr_binary he
    obtain ⟨hk₂, hext, hn₂⟩ := hk₁.lookup hwf hf hone hrhs
    obtain ⟨hk₃, hnone, hz⟩ := Before.convert hwf hf ho hb hi he hr ⟨hk₂, hn₁.extends hext, hn₂⟩
    unfold CommonSubexprElimination.visit
    dsimp only
    rw [hres]
    dsimp only
    rw [if_neg (by simp [hload, hstore])]
    refine ⟨?_, fun i' hi' => ?_⟩
    · dsimp only
      split
      · rename_i hc
        exact hk₃.commute hfl hc hnone
      · exact hk₃
    · obtain ⟨z, hz', rfl⟩ := Option.map_eq_some_iff.1 hi'
      exact ⟨z, rfl, hz z hz'⟩

/-- Other instructions are left alone. -/
theorem visit_other (hi : expr? i = none) : visit ctx i = (ctx, none) := by
  cases i with
  | phi p => rfl
  | call c => rfl
  | unary u =>
    unfold expr? at hi
    unfold visit
    dsimp only at hi ⊢
    cases hr : u.result with
    | none => rfl
    | some r =>
      dsimp only
      split
      · rfl
      · rename_i hop
        rw [if_neg hop, hr] at hi
        cases hi
  | binary j =>
    unfold expr? at hi
    unfold visit
    dsimp only at hi ⊢
    cases hr : j.result with
    | none => rfl
    | some r =>
      dsimp only
      split
      · rfl
      · rename_i hop
        rw [if_neg hop, hr] at hi
        cases hi

end Tables

/-! ## The walk -/

/-- An expression is replaced by a move from a result that is read like its own. -/
def Replaced (env : Env) (prog : Program) (f : Func) (p : BlockId × Nat) (i i' : Inst) : Prop :=
  ∃ e z, expr? i = some e ∧ i' = .unary ⟨.mov, some e.result, z⟩ ∧ Replaces env prog f p e z ∧
    ∃ b, f.block? p.1 = some b ∧ i ∈ b.insts

section Walk

variable {env : Env} {prog : Program} {f : Func} {ctx : Context} {id : BlockId} {b : Block}
  {k : Nat} {i i' : Inst} {e : Expr}

theorem expr_mov {r : Option LeftValue} {x : Value} : expr? (.unary ⟨.mov, r, x⟩) = none := rfl

/-- What the pass relies on, for one function of a program. -/
structure Setting (env : Env) (prog : Program) (f : Func) : Prop where
  wf : prog.WellFormed env
  mem : f ∈ prog.funcs
  values : prog.OneValue
  types : OneType f
  floats : env.float.Commutes
  connected : f.Connected

/-- The instruction that a place has during the walk. -/
def AtPlace (env : Env) (prog : Program) (f : Func) (b : Block) (k : Nat) (i' : Inst) : Prop :=
  ∃ i, b.insts[k]? = some i ∧ (i' = i ∨ i.Swaps i' ∧ Replaced env prog f (b.id, k) i i')

/-- One instruction, which may have been replaced before. -/
theorem visit_spec (hset : Setting env prog f) (hb : f.block? b.id = some b)
    (hk : k < b.insts.length) (hi : AtPlace env prog f b k i)
    (h : Known env prog f (b.id, max k b.phis.length) ctx) :
    Known env prog f (b.id, max (k + 1) b.phis.length) (visit ctx i).1 ∧
      AtPlace env prog f b k ((visit ctx i).2.getD i) := by
  -- where nothing is replaced the tables are handed on
  have hother : expr? i = none →
      Known env prog f (b.id, max (k + 1) b.phis.length) (visit ctx i).1 ∧
        AtPlace env prog f b k ((visit ctx i).2.getD i) := by
    intro hnone
    rw [visit_other hnone]
    refine ⟨?_, hi⟩
    rcases Nat.lt_or_ge k b.phis.length with hlt | hge
    · rw [Nat.max_eq_right (by omega)] at h ⊢
      exact h
    · rw [Nat.max_eq_left (by omega)] at h ⊢
      exact h.mono (Func.settles_succ hb hge)
  obtain ⟨i₀, hi₀, rfl | ⟨-, e, z, -, rfl, -⟩⟩ := hi
  · cases he : expr? i with
    | none => exact hother he
    | some e =>
      have hphi : i.isPhi = false := by
        have hplain := isPlain_of_expr he
        cases i <;> first | rfl | cases hplain
      have hge := Block.phis_length_le_of_get hi₀ hphi
      rw [Nat.max_eq_left hge] at h
      rw [Nat.max_eq_left (by omega)]
      have hr := Func.reach_of_le hb hge (Nat.le_of_lt hk) (hset.connected b.id b hb)
      obtain ⟨hknown, hnew⟩ :=
        h.visit hset.wf hset.mem hset.values hset.types hset.floats hb hi₀ he hr
      refine ⟨hknown, i, hi₀, ?_⟩
      cases hv : (visit ctx i).2 with
      | none => exact .inl rfl
      | some i' =>
        obtain ⟨z, rfl, hz⟩ := hnew i' hv
        refine .inr ⟨⟨isPlain_of_expr he, rfl, (definedVar_of_expr he).symm⟩, e, z, he, rfl, hz, b, hb, ?_⟩
        exact List.mem_of_getElem? hi₀
  · exact hother expr_mov

/-- The instructions from a place on. -/
theorem visitInsts_spec (hset : Setting env prog f) (hb : f.block? b.id = some b) (l : List Inst)
    (hl : k + l.length = b.insts.length)
    (hi : ∀ j i, l[j]? = some i → AtPlace env prog f b (k + j) i)
    (h : Known env prog f (b.id, max k b.phis.length) ctx) :
    Known env prog f (b.id, b.insts.length) (visitInsts ctx l).1 ∧
      (visitInsts ctx l).2.1.length = l.length ∧
      ∀ j i, (visitInsts ctx l).2.1[j]? = some i → AtPlace env prog f b (k + j) i := by
  induction l generalizing k ctx with
  | nil =>
    have hk : k = b.insts.length := hl
    rw [hk, Nat.max_eq_left Block.phis_length_le] at h
    exact ⟨h, rfl, hi⟩
  | cons i l ih =>
    rw [List.length_cons] at hl
    obtain ⟨hknown, hplace⟩ := visit_spec hset hb (by omega) (hi 0 i rfl) h
    obtain ⟨hend, hlen, hrest⟩ := ih (by omega) (fun j i' hj => by
      rw [show k + 1 + j = k + (j + 1) by omega]
      exact hi (j + 1) i' hj) hknown
    refine ⟨hend, congrArg (· + 1) hlen, fun j i' hj => ?_⟩
    cases j with
    | zero =>
      cases hj
      exact hplace
    | succ j =>
      rw [show k + (j + 1) = k + 1 + j by omega]
      exact hrest j i' hj

/-- Whatever every step of a fold keeps, the fold keeps. -/
theorem foldlM_option {A S : Type} {P : S → Prop} {g : S → A → Option S} {l : List A} {s t : S}
    (hg : ∀ s, P s → ∀ a ∈ l, ∀ t, g s a = some t → P t) (hs : P s) (h : l.foldlM g s = some t) :
    P t := by
  induction l generalizing s with
  | nil =>
    cases h
    exact hs
  | cons a l ih =>
    rw [List.foldlM_cons] at h
    obtain ⟨s', hs', h⟩ := Option.bind_eq_some_iff.1 h
    exact ih (fun s hs a ha => hg s hs a (List.mem_cons_of_mem _ ha))
      (hg s hs a List.mem_cons_self s' hs') h

/-- The walk down from a block with sound tables replaces expressions only. -/
theorem walk_patched (hset : Setting env prog f) {entry : Block} (he : f.entrance = some entry)
    {tree : DominanceTree} (ht : DominanceTree.Correct f entry tree) (depth : Nat) {s t : Func × Bool}
    (hs : f.Patched (Replaced env prog f) s.1)
    (hk : ∀ b, f.block? id = some b → Known env prog f (id, b.phis.length) ctx)
    (h : walk tree depth ctx s id = some t) : f.Patched (Replaced env prog f) t.1 := by
  induction depth generalizing ctx id s t with
  | zero => cases h
  | succ depth ih =>
    obtain ⟨g, changed⟩ := s
    obtain ⟨b', hb', h⟩ := Option.bind_eq_some_iff.1 h
    obtain ⟨b, hb, hbb⟩ := hs.block?_old hb'
    obtain ⟨-, rfl⟩ := Func.mem_of_block? hb
    have hplaces : ∀ j i, b'.insts[j]? = some i → AtPlace env prog f b (0 + j) i := by
      intro j i hj
      rw [Nat.zero_add]
      exact hbb.get_old hj
    have hstart : Known env prog f (b.id, max 0 b.phis.length) ctx := by
      rw [Nat.max_eq_right (Nat.zero_le _)]
      exact hk b hb
    have hspec := visitInsts_spec hset hb b'.insts ((Nat.zero_add _).trans hbb.length) hplaces hstart
    generalize visitInsts ctx b'.insts = r at h hspec
    obtain ⟨ctx', insts, changed'⟩ := r
    obtain ⟨hend, hlen, hnew⟩ := hspec
    refine foldlM_option (P := fun s => f.Patched (Replaced env prog f) s.1) ?_ ?_ h
    · -- the children are dominated by the block, so its tables are sound there
      intro s hs c hc t hct
      refine ih hs (fun c' hc' => ?_) hct
      obtain ⟨-, hidom⟩ := (ht.children b.id c).1 hc
      exact hend.mono (Func.settles_dominates he hb hidom.1 _)
    · refine hs.updateBlock (hset.wf.ssa f hset.mem) hb ⟨rfl, hlen.trans hbb.length, ?_⟩
      intro k i i' hi hi'
      obtain ⟨i₀, hi₀, hrep⟩ := hnew k i' hi'
      rw [Nat.zero_add] at hi₀ hrep
      cases hi.symm.trans hi₀
      exact hrep

end Walk

/-! ## The pass -/

section Pass

variable {env : Env} {prog : Program} {f f' : Func}

/-- The moves that come in read what they may. -/
theorem fits_replaced (hset : Setting env prog f) : f.Fits (Replaced env prog f) := by
  rintro p i _ ⟨e, z, he, rfl, ⟨⟨l, rfl, hment, hav⟩, hcomp⟩, b, hb, hi⟩
  have hown : Applied f e.op (viewType e.lhs.typeOf) (viewType e.rhs.typeOf)
      (viewType e.result.type) := ⟨e, mem_exprs hb hi he, rfl, rfl, .inl ⟨rfl, rfl⟩⟩
  refine ⟨fun v hv => ?_, fun v hv => ?_, fun c hc => ?_, ?_⟩
  · cases List.mem_singleton.1 hv
    exact fun _ => hav
  · cases List.mem_singleton.1 hv
    exact hment
  · cases List.mem_singleton.1 hc
  · rintro _ ⟨⟩ - r ⟨⟩
    exact hown.unique hset.types (hcomp _ .types).1

/-- And they write what the expressions wrote. -/
theorem same_replaced (hset : Setting env prog f) :
    f.SameWith env prog (Holds (ExprLaws env) f) (Replaced env prog f) := by
  rintro p i _ ⟨e, z, he, rfl, ⟨⟨l, rfl, hment, hav⟩, hcomp⟩, b, hb, hi⟩ s fr rest hty hK
  have ht := hset.wf.typed f hset.mem
  have hown : Applied f e.op (viewType e.lhs.typeOf) (viewType e.rhs.typeOf)
      (viewType e.result.type) := ⟨e, mem_exprs hb hi he, rfl, rfl, .inl ⟨rfl, rfl⟩⟩
  obtain ⟨happ, hvals⟩ := hcomp _ (.scope hty hK)
  have htype : viewType e.result.type = viewType l.type := hown.unique hset.types happ
  have hlhs := left_of_void_or (.inr (mentions_lhs hb hi he))
  have hrhs := left_of_void_or (mentions_rhs hb hi he)
  have hdest := resultType_mentioned hty ht (.result hb hi (definedVar_of_expr he))
  rcases hvals with ⟨hnone, -⟩ | ⟨a, a', w, ha, ha', hw, heval⟩
  · -- in a scope every value of the function stands for something
    obtain ⟨a, ha, -⟩ := viewOf_data hty ht hlhs
    cases hnone.symm.trans ha
  · have hl := viewOf_of_data hty ht hlhs ha
    have hr := viewOf_of_data hty ht hrhs ha'
    have hz := viewOf_of_data hty ht (x := .left l) (fun m hm => hm ▸ hment) hw
    have hassign := assign_of_evalExpr heval
    have heval' : evalExpr env.float e.op (viewType e.result.type) ⟨viewType e.lhs.typeOf, a⟩
        ⟨viewType e.rhs.typeOf, a'⟩ = .ok w := by
      rw [htype]
      exact heval
    have hassign' : assign env.float (viewType e.result.type) (viewType l.type) w = .ok w := by
      rw [htype]
      exact hassign
    rw [execInst_expr he, hl, hr, hdest]
    show (execUnary s (s.scope fr) ⟨.mov, some e.result, .left l⟩ >>= _) =
      (evalExpr env.float e.op _ _ _ >>= _)
    rw [heval']
    have hmov : execUnary s (s.scope fr) ⟨.mov, some e.result, .left l⟩ = .ok w := by
      unfold execUnary
      dsimp only
      rw [hz, hdest]
      exact hassign'
    rw [hmov]

/-- One function. -/
theorem eliminate_patched (hset : Setting env prog f) {orders : Orders} {fuel : Nat}
    {changed : Bool} (h : eliminate orders fuel f = .ok (some (f', changed))) :
    f.Patched (Replaced env prog f) f' := by
  obtain ⟨cfg, hcfg, h⟩ := Except.bind_eq_ok.1 h
  obtain ⟨flow?, hflow, h⟩ := Except.bind_eq_ok.1 h
  cases flow? with
  | none => cases h
  | some flow =>
    obtain ⟨tree, htree, h⟩ := Except.bind_eq_ok.1 h
    obtain ⟨entry, hentry, h⟩ := Except.bind_eq_ok.1 h
    have he := deref_eq_ok.1 hentry
    have hof := ControlFlowGraph.of_build hcfg
    have hd : f.Distinct := (hset.wf.ssa f hset.mem).blocks
    obtain ⟨fuel', flow', hsolve, hdom⟩ := dominance_solve hof hd he
    cases FlowTrait.solve_unique _ _ hflow hsolve
    have hall : ∀ b ∈ f.blocks, Reachable f.BlockEdge entry.id b.id := fun b hb =>
      DominanceTree.reachable_of_build hdom htree hb
    obtain ⟨tree', htree', hcorrect⟩ :
        Yields (DominanceTree.build orders.dominators orders.entries flow) _ :=
      DominanceTree.build_spec hdom hd hall
    cases htree.symm.trans htree'
    exact walk_patched (s := (f, false)) (t := (f', changed)) hset he hcorrect fuel .refl
      (fun _ _ => .start) (Except.ok.inj h)

theorem eliminateFuncs_patched {orders : String → Orders} {fuel : Nat} {fs fs' : List Func}
    {changed : Bool} (hset : ∀ f ∈ fs, Setting env prog f)
    (h : eliminateFuncs orders fuel fs = .ok (some (fs', changed))) :
    List.Forall₂ (fun f f' => f.Patched (Replaced env prog f) f') fs fs' := by
  induction fs generalizing fs' changed with
  | nil =>
    cases h
    exact .nil
  | cons f fs ih =>
    obtain ⟨r, hr, h⟩ := Except.bind_eq_ok.1 h
    cases r with
    | none => cases h
    | some r =>
      obtain ⟨rs, hrs, h⟩ := Except.bind_eq_ok.1 h
      cases rs with
      | none => cases h
      | some rs =>
        cases h
        exact .cons (eliminate_patched (hset f (by simp)) hr)
          (ih (fun g hg => hset g (List.mem_cons_of_mem _ hg)) hrs)

end Pass

end CommonSubexprElimination

end Ir
end Cact
