import Cact.Ir.Optim.CommonExprEval
import Cact.Ir.Optim.CopySound

/-!
# The values of the expressions in a run

What an expression computes is in its result, and in SSA form neither the operands nor the
result change while the result is available. So in every state of a run the results that are
available have the values of their expressions.

- `OneType`, `Program.OneValue`: what the pass relies on.
- `Applied`: the types that an operator takes operands to.
- `dataOf`, `Expr.Holds`: values in a scope, and a result with the value of its expression.
- `ExprLaws`, `flow_exprs`: the invariant of runs.
-/

namespace Cact

namespace Ir

open Vm

/-- Constants that the source takes for equal stand for the same, and every constant equals
itself: there are no NaNs, and not zeros of both signs. -/
structure Program.OneValue (prog : Program) : Prop where
  refl : ∀ c ∈ prog.constants, c.eqv c = true
  view : ∀ c ∈ .void :: prog.constants, ∀ d ∈ .void :: prog.constants, c.eqv d = true →
    viewConst c = viewConst d

theorem Program.mem_constants_of_mentions {prog : Program} {f : Func} {c : ConstexprValue}
    (hf : f ∈ prog.funcs) (hc : f.Mentions (.const c)) : c ∈ prog.constants := by
  refine mem_constants_of_operand hf ?_
  cases hc with
  | used hb hi hx => exact Func.operand_of_used hb hi hx
  | exit hb he hx => exact Func.operand_of_exit hb he hx

namespace CommonSubexprElimination

/-! ## Types of expressions -/

/-- The expressions of a function. -/
def exprs (f : Func) : List Expr := f.blocks.flatMap fun b => b.insts.filterMap expr?

/-- The operands of the expression have these types. -/
def Expr.Takes (e : Expr) (X Y : Ty) : Prop := viewType e.lhs.typeOf = X ∧ viewType e.rhs.typeOf = Y

instance (e : Expr) (X Y : Ty) : Decidable (e.Takes X Y) := inferInstanceAs (Decidable (_ ∧ _))

/-- Expressions with one operator and operands of the same types have results of the same type.
The numbers do not know the types of results, which differ for conversions only. -/
def OneType (f : Func) : Prop :=
  ∀ e ∈ exprs f, ∀ e' ∈ exprs f, e.op = e'.op →
    (e.Takes (viewType e'.lhs.typeOf) (viewType e'.rhs.typeOf) ∨ e.op.commutative = true ∧
      e.Takes (viewType e'.rhs.typeOf) (viewType e'.lhs.typeOf)) →
    viewType e.result.type = viewType e'.result.type

instance (f : Func) : Decidable (OneType f) := inferInstanceAs (Decidable (∀ _ ∈ _, _))

/-- Some expression of the function takes operands of types `X` and `Y`, or the other way
round, to type `Z`. -/
def Applied (f : Func) (op : Op) (X Y Z : Ty) : Prop :=
  ∃ e ∈ exprs f, e.op = op ∧ viewType e.result.type = Z ∧
    (e.Takes X Y ∨ op.commutative = true ∧ e.Takes Y X)

section Types

variable {f : Func} {op : Op} {X Y Z Z' : Ty} {id : BlockId} {b : Block} {i : Inst} {e : Expr}

theorem mem_exprs (hb : f.block? id = some b) (hi : i ∈ b.insts) (h : expr? i = some e) :
    e ∈ exprs f :=
  List.mem_flatMap.2 ⟨b, (Func.mem_of_block? hb).1, List.mem_filterMap.2 ⟨i, hi, h⟩⟩

theorem Applied.comm (h : Applied f op X Y Z) (hop : op.commutative = true) :
    Applied f op Y X Z := by
  obtain ⟨e, he, rfl, hZ, ht | ⟨-, ht⟩⟩ := h
  · exact ⟨e, he, rfl, hZ, .inr ⟨hop, ht⟩⟩
  · exact ⟨e, he, rfl, hZ, .inl ht⟩

theorem Applied.unique (ho : OneType f) (h : Applied f op X Y Z) (h' : Applied f op X Y Z') :
    Z = Z' := by
  obtain ⟨e, he, hop, rfl, ht⟩ := h
  obtain ⟨e', he', hop', rfl, ht'⟩ := h'
  refine ho e he e' he' (hop.trans hop'.symm) ?_
  rw [hop]
  -- each of the two takes the operands in one of the two orders
  rcases ht with ⟨rfl, rfl⟩ | ⟨hc, rfl, rfl⟩ <;> rcases ht' with ⟨hl, hr⟩ | ⟨hc', hl, hr⟩
  · exact .inl ⟨hl.symm, hr.symm⟩
  · exact .inr ⟨hc', hr.symm, hl.symm⟩
  · exact .inr ⟨hc, hr.symm, hl.symm⟩
  · exact .inl ⟨hl.symm, hr.symm⟩

end Types

/-! ## Values of expressions -/

/-- What a value stands for in a scope. -/
def dataOf (env : Env) (sc : Scope) (x : Value) : Option Data :=
  match viewOf env sc x with
  | .ok v => some v.data
  | .error _ => none

/-- The result of the expression has its value. -/
def Expr.Holds (env : Env) (e : Expr) (sc : Scope) : Prop :=
  ∃ a b w, dataOf env sc e.lhs = some a ∧ dataOf env sc e.rhs = some b ∧
    dataOf env sc (.left e.result) = some (.word w) ∧
    evalExpr env.float e.op (viewType e.result.type) ⟨viewType e.lhs.typeOf, a⟩
      ⟨viewType e.rhs.typeOf, b⟩ = .ok w

section Values

variable {env : Env} {prog : Program} {f : Func} {sc sc' : Scope} {x : Value} {v : LeftValue}
  {w : Word} {e : Expr} {id : BlockId} {b : Block} {i : Inst} {k : Nat} {p q : BlockId × Nat}

theorem dataOf_congr (h : ∀ v, x.var? = some v → SameSlot env sc sc' v) :
    dataOf env sc' x = dataOf env sc x := by
  cases x with
  | const c => rfl
  | left l =>
    have hget : sc'.get env l.var = sc.get env l.var := h l.var rfl
    have hslot : slotAt env sc' l = slotAt env sc l := by
      unfold Scope.get at hget
      unfold slotAt
      rw [hget]
    have hview : viewOf env sc' (.left l) = viewOf env sc (.left l) := by
      show (slotAt env sc' l).map _ = (slotAt env sc l).map _
      rw [hslot]
    unfold dataOf
    rw [hview]

/-- The view of a value that stands in the function. -/
theorem viewOf_data (hty : sc.Typed prog f) (ht : f.WellTyped env prog)
    (hx : ∀ l, x = .left l → f.Mentions (.left l)) :
    ∃ a, dataOf env sc x = some a ∧ viewOf env sc x = .ok ⟨viewType x.typeOf, a⟩ := by
  cases x with
  | const c => exact ⟨_, rfl, rfl⟩
  | left l =>
    obtain ⟨w, hw, -⟩ := wordOf_mentioned hty ht (hx l rfl)
    have hview := viewOf_eq hty ht hx hw
    refine ⟨.word w, ?_, hview⟩
    unfold dataOf
    rw [hview]

theorem viewOf_of_data {a : Data} (hty : sc.Typed prog f) (ht : f.WellTyped env prog)
    (hx : ∀ l, x = .left l → f.Mentions (.left l)) (ha : dataOf env sc x = some a) :
    viewOf env sc x = .ok ⟨viewType x.typeOf, a⟩ := by
  obtain ⟨a', ha', hview⟩ := viewOf_data hty ht hx
  cases ha.symm.trans ha'
  exact hview

/-- The operands of an expression stand in the function. -/
theorem mentions_lhs (hb : f.block? id = some b) (hi : i ∈ b.insts) (h : expr? i = some e) :
    f.Mentions e.lhs := .used hb hi (used_of_expr h).1

theorem mentions_rhs (hb : f.block? id = some b) (hi : i ∈ b.insts) (h : expr? i = some e) :
    e.rhs = .void ∨ f.Mentions e.rhs :=
  (used_of_expr h).2.symm.imp_right fun hx => .used hb hi hx

theorem mentions_operand (hb : f.block? id = some b) (hi : i ∈ b.insts) (h : expr? i = some e)
    (hx : x = e.lhs ∨ x = e.rhs) : x = .void ∨ f.Mentions x := by
  rcases hx with rfl | rfl
  · exact .inr (mentions_lhs hb hi h)
  · exact mentions_rhs hb hi h

theorem left_of_void_or (h : x = .void ∨ f.Mentions x) : ∀ l, x = .left l → f.Mentions (.left l) := by
  rintro l rfl
  rcases h with h | h
  · cases h
  · exact h

/-- An operand that is a variable is one the instruction uses. -/
theorem usedVars_of_operand (h : expr? i = some e) (hx : x = e.lhs ∨ x = e.rhs)
    (hl : x = .left v) : v ∈ i.usedVars := by
  obtain ⟨hlhs, hrhs⟩ := used_of_expr h
  refine List.mem_filterMap.2 ⟨.left v, ?_, rfl⟩
  rcases hx with rfl | rfl
  · exact hl ▸ hlhs
  · rcases hrhs with hr | hr
    · exact hl ▸ hr
    · rw [hl] at hr
      cases hr

/-- The result of an expression reads the operands. -/
theorem reads_operand (hs : f.Ssa) (hb : f.block? id = some b) (hi : i ∈ b.insts)
    (h : expr? i = some e) {u : Var} (hu : e.lhs.var? = some u ∨ e.rhs.var? = some u) :
    f.graph.Reads e.result.var u := by
  intro p q he hd
  rcases hs.edge_defines he hd hb hi (definedVar_of_expr h) with
    ⟨k, hk, hp, rfl, -⟩ | ⟨ph, -, -, rfl, -⟩
  · have hused : ∀ x : Value, x = e.lhs ∨ x = e.rhs → x.var? = some u →
        f.graph.Ready u (some (id, k)) := by
      intro x hx hxu
      cases x with
      | const c => cases hxu
      | left l =>
        cases hxu
        exact hs.uses _ l (.inst hb hk hp (usedVars_of_operand h hx rfl))
    exact hu.elim (hused _ (.inl rfl)) (hused _ (.inr rfl))
  · cases h

/-- What the definition of a result establishes. -/
def exprLaw (env : Env) (f : Func) (e : Expr)
    (h : ∀ u, e.lhs.var? = some u ∨ e.rhs.var? = some u →
      f.graph.Reads e.result.var u ∧ f.graph.Unique u) : SlotLaw env f where
  var := e.result.var
  operands u := e.lhs.var? = some u ∨ e.rhs.var? = some u
  holds := e.Holds env
  reads := h
  stable sc sc' hv hx := by
    rintro ⟨a, b, w, ha, hb, hw, heval⟩
    refine ⟨a, b, w, ?_, ?_, ?_, heval⟩
    · rw [dataOf_congr fun u hu => hx u (.inl hu), ha]
    · rw [dataOf_congr fun u hu => hx u (.inr hu), hb]
    · have hkeep : dataOf env sc' (.left e.result) = dataOf env sc (.left e.result) :=
        dataOf_congr fun u hu => by
          cases hu
          exact hv
      rw [hkeep, hw]

/-- The laws of all expressions of a function. -/
def ExprLaws (env : Env) (f : Func) (l : SlotLaw env f) : Prop :=
  ∃ id b i e h, f.block? id = some b ∧ i ∈ b.insts ∧ expr? i = some e ∧ l = exprLaw env f e h

/-- Its definition gives a result the value of its expression. -/
theorem holds_new (hs : f.Ssa) (ht : f.WellTyped env prog) (hty : sc.Typed prog f)
    (hr : f.graph.Reach (some p)) (hm : Moves env f p sc q sc') (hb : f.block? id = some b)
    (hi : i ∈ b.insts) (h : expr? i = some e) (hd : f.defsAt (some q) e.result.var) :
    e.Holds env sc' := by
  have hres := definedVar_of_expr h
  rcases hs.edge_defines hm.edge hd hb hi hres with ⟨k, hk, hp, hpe, -⟩ | ⟨ph, -, -, rfl, -⟩
  · cases hpe
    obtain ⟨lhs, rhs, dest, w, hl, hrr, hdest, hw, rfl⟩ := moves_expr hm hb hk h
    -- the operands are not written by the step
    have hkeep : ∀ x : Value, x = e.lhs ∨ x = e.rhs →
        dataOf env (setVar env sc (some e.result) w) x = dataOf env sc x := by
      refine fun x hx => dataOf_congr fun u hu => ?_
      have hor : e.lhs.var? = some u ∨ e.rhs.var? = some u := by
        rcases hx with rfl | rfl
        · exact .inl hu
        · exact .inr hu
      have hreads := reads_operand hs hb hi h hor
      have hnot := hreads.not_defs_self (hs.unique _) (hr.step hm.edge) hd
      cases x with
      | const c => cases hu
      | left l =>
        cases hu
        exact hm.same ht hs hty (left_of_void_or (mentions_operand hb hi h hx) l rfl) hnot
    obtain ⟨a, ha, hview⟩ := viewOf_data hty ht (left_of_void_or (.inr (mentions_lhs hb hi h)))
    obtain ⟨a', ha', hview'⟩ := viewOf_data hty ht (left_of_void_or (mentions_rhs hb hi h))
    cases hl.symm.trans hview
    cases hrr.symm.trans hview'
    rw [resultType_mentioned hty ht (.result hb hi hres)] at hdest
    cases hdest
    refine ⟨a, a', w, (hkeep _ (.inl rfl)).trans ha, (hkeep _ (.inr rfl)).trans ha', ?_, hw⟩
    have hget := get_result ht hty hb hi hres (fitTy_evalExpr hw)
    unfold dataOf viewOf
    dsimp only
    rw [slotAt_of_get hget]
    rfl
  · cases h

/-- In every run the results that are available have the values of their expressions. -/
theorem flow_exprs (hwf : prog.WellFormed env) {l : Layout}
    (hl : layoutGlobals env.float prog.globals = .ok l) :
    Flow prog (fun _ _ _ => True) (Holds (ExprLaws env)) l.vars env := by
  refine flow_of_laws hwf (typed_layoutGlobals hwf hl) ?_ ?_
  · rintro f hf _ ⟨id, b, i, e, h, hb, hi, he, rfl⟩ u hu
    have hleft : ∀ x : Value, x = e.lhs ∨ x = e.rhs → x.var? = some u →
        ∃ t, f.Mentions (.left ⟨t, u⟩) := by
      intro x hx hxu
      cases x with
      | const c => cases hxu
      | left l =>
        cases hxu
        exact ⟨l.type, left_of_void_or (mentions_operand hb hi he hx) l rfl⟩
    rcases hu with rfl | hu | hu
    · exact ⟨e.result.type, .result hb hi (definedVar_of_expr he)⟩
    · exact hleft _ (.inl rfl) hu
    · exact hleft _ (.inr rfl) hu
  · rintro f hf _ ⟨id, b, i, e, h, hb, hi, he, rfl⟩ p q sc sc' hr hty hg hK hm - hd
    exact holds_new (hwf.ssa f hf) (hwf.typed f hf) hty hr hm hb hi he hd

end Values

end CommonSubexprElimination

end Ir
end Cact
