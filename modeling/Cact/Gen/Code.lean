import Cact.Gen.Gen
import Cact.Lib.Exact

/-!
# The code of expressions (`backend/ir/gen/expr.cpp`)

The code of an expression goes to the end of one block. It makes temporaries, and leaves
everything else as it is.

- `Appends`: the effect of code on the state of the generator.
- `genExp_appends`: expressions have no other.
-/

namespace Cact

namespace Gen

open Ast
open Ir (Ty Fault NameDef NamedValue LeftValue Value Inst Block BlockId TempInfo)

/-- The blocks after code is appended to one of them. -/
def addCode (scope : BlockId) (code : List Inst) (blocks : List Block) : List Block :=
  blocks.map fun b => if b.id = scope then { b with insts := b.insts ++ code } else b

theorem addCode_nil (scope : BlockId) (blocks : List Block) : addCode scope [] blocks = blocks := by
  have hid : (fun b : Block => if b.id = scope then { b with insts := b.insts ++ [] } else b) = id := by
    funext b
    rw [List.append_nil]
    exact ite_self b
  rw [addCode, hid, List.map_id]

theorem addCode_addCode (scope : BlockId) (c d : List Inst) (blocks : List Block) :
    addCode scope d (addCode scope c blocks) = addCode scope (c ++ d) blocks := by
  rw [addCode, addCode, addCode, List.map_map]
  refine List.map_congr_left fun b _ => ?_
  by_cases hb : b.id = scope
  · simp [hb]
  · simp [hb]

/-- Code has been appended to a block. -/
def Appends (scope : BlockId) (code : List Inst) (s s' : GenState) : Prop :=
  (∀ i ∈ code, i.isPhi = false) ∧ ∃ temps : List TempInfo,
    s' = { s with func := { s.func with blocks := addCode scope code s.func.blocks, temps := temps } }

variable {scope : BlockId} {code c d : List Inst} {s s₁ s' : GenState}

theorem Appends.refl : Appends scope [] s s := by
  refine ⟨fun i hi => absurd hi List.not_mem_nil, s.func.temps, ?_⟩
  rw [addCode_nil]

theorem Appends.trans (h : Appends scope c s s₁) (h' : Appends scope d s₁ s') :
    Appends scope (c ++ d) s s' := by
  obtain ⟨hc, temps, rfl⟩ := h
  obtain ⟨hd, temps', rfl⟩ := h'
  refine ⟨fun i hi => (List.mem_append.mp hi).elim (hc i) (hd i), temps', ?_⟩
  rw [← addCode_addCode]

theorem newTemp_appends {type : Ty} {v : LeftValue} (h : newTemp type scope s = .ok (v, s')) :
    Appends scope [] s s' := by
  cases h
  refine ⟨fun i hi => absurd hi List.not_mem_nil, s.func.temps ++ [⟨type, scope⟩], ?_⟩
  rw [addCode_nil]

theorem append_appends {i : Inst} {u : Unit} (hi : i.isPhi = false)
    (h : append scope i s = .ok (u, s')) : Appends scope [i] s s' := by
  cases h
  exact ⟨by simpa using hi, s.func.temps, rfl⟩

theorem findDef_state {d : SymDef} {n : NameDef} (h : findDef d s = .ok (n, s')) : s' = s := by
  unfold findDef at h
  split at h <;> cases h
  rfl

theorem findAlloc_state {id : Ir.AllocId} {a : Ir.Alloc} (h : findAlloc id s = .ok (a, s')) :
    s' = s := by
  unfold findAlloc at h
  split at h <;> cases h
  rfl

theorem genLVal_state {v : LVal checked} {n : NamedValue} (h : genLVal v s = .ok (n, s')) :
    s' = s := by
  obtain ⟨d, s₁, hd, h₁⟩ := run_bind_eq_ok.mp h
  rw [← findDef_state hd]
  cases d with
  | alloc id =>
    obtain ⟨a, s₂, ha, h₂⟩ := run_bind_eq_ok.mp h₁
    rw [← findAlloc_state ha]
    by_cases href : a.reference = true
    · rw [if_pos href] at h₂
      exact (run_pure_eq_ok.mp h₂).2.symm
    · rw [if_neg href] at h₂
      exact (run_pure_eq_ok.mp h₂).2.symm
  | func _ | builtin _ => exact (run_pure_eq_ok.mp h₁).2.symm

theorem genVar_appends {v : LVal checked} {n : LeftValue} (h : genVar v scope s = .ok (n, s')) :
    ∃ code, Appends scope code s s' := by
  obtain ⟨named, s₁, hnamed, h₁⟩ := run_bind_eq_ok.mp h
  rw [genLVal_state hnamed] at h₁
  have hplain : (pure named.left : GenM LeftValue) s = .ok (n, s') →
      ∃ code, Appends scope code s s' := by
    intro hpure
    rw [(run_pure_eq_ok.mp hpure).2]
    exact ⟨[], .refl⟩
  cases htype : named.type with
  | reference elem readonly isSlice =>
    rw [htype] at h₁
    cases isSlice with
    | true => exact hplain h₁
    | false =>
      obtain ⟨temp, s₂, htemp, h₂⟩ := run_bind_eq_ok.mp h₁
      obtain ⟨u, s₃, hload, h₃⟩ := run_bind_eq_ok.mp h₂
      rw [← (run_pure_eq_ok.mp h₃).2]
      exact ⟨_, (newTemp_appends htemp).trans (append_appends rfl hload)⟩
  | _ =>
    rw [htype] at h₁
    exact hplain h₁

theorem genOperator_appends {op : BinaryOp} {type : Ty} {l r : Value} {v : LeftValue}
    (h : genOperator op type l r scope s = .ok (v, s')) : ∃ code, Appends scope code s s' := by
  unfold genOperator at h
  by_cases hop : op ≠ .index
  · rw [if_pos hop] at h
    obtain ⟨result, s₁, hresult, h⟩ := run_bind_eq_ok.mp h
    obtain ⟨irOp, s₂, hirOp, h⟩ := run_bind_eq_ok.mp h
    obtain ⟨-, rfl⟩ := run_lift_eq_ok.mp hirOp
    obtain ⟨u, s₃, happend, h⟩ := run_bind_eq_ok.mp h
    obtain ⟨-, rfl⟩ := run_pure_eq_ok.mp h
    exact ⟨_, (newTemp_appends hresult).trans (append_appends rfl happend)⟩
  · rw [if_neg hop] at h
    have hload : (do
        let ref ← newTemp (type.borrow true) scope
        let result ← newTemp type scope
        append scope (.binary ⟨.borrowElem, some ref, l, r⟩)
        append scope (.unary ⟨.load, some result, .left ref⟩)
        return result : GenM LeftValue) s = .ok (v, s') → ∃ code, Appends scope code s s' := by
      intro h
      obtain ⟨ref, s₁, href, h⟩ := run_bind_eq_ok.mp h
      obtain ⟨result, s₂, hresult, h⟩ := run_bind_eq_ok.mp h
      obtain ⟨u, s₃, hborrow, h⟩ := run_bind_eq_ok.mp h
      obtain ⟨u', s₄, hload, h⟩ := run_bind_eq_ok.mp h
      obtain ⟨-, rfl⟩ := run_pure_eq_ok.mp h
      exact ⟨_, (((newTemp_appends href).trans (newTemp_appends hresult)).trans
        (append_appends rfl hborrow)).trans (append_appends rfl hload)⟩
    cases type with
    | reference elem readonly isSlice =>
      obtain ⟨result, s₁, hresult, h⟩ := run_bind_eq_ok.mp h
      obtain ⟨u, s₂, happend, h⟩ := run_bind_eq_ok.mp h
      obtain ⟨-, rfl⟩ := run_pure_eq_ok.mp h
      exact ⟨_, (newTemp_appends hresult).trans (append_appends rfl happend)⟩
    | _ => exact hload h

/-- The end of a call, when its arguments are there. -/
theorem genCall_appends {result : Option LeftValue} {f : LVal checked} {vs : List Value} {v : Value}
    (h : (do
      let func ← genLVal f
      append scope (.call ⟨result, func, vs⟩)
      return (result.map Value.left).getD .void : GenM Value) s = .ok (v, s')) :
    ∃ code, Appends scope code s s' := by
  obtain ⟨func, s₁, hfunc, h⟩ := run_bind_eq_ok.mp h
  obtain ⟨u, s₂, happend, h⟩ := run_bind_eq_ok.mp h
  obtain ⟨-, rfl⟩ := run_pure_eq_ok.mp h
  rw [genLVal_state hfunc] at happend
  exact ⟨_, append_appends rfl happend⟩

mutual

/-- An expression appends its code to the block. -/
theorem genExp_appends : ∀ (e : Exp checked) {s s' : GenState} {v : Value},
    genExp e scope s = .ok (v, s') → ∃ code, Appends scope code s s'
  | .paren e, s, s', v, h => genExp_appends e h
  | .lval w, s, s', v, h => by
    obtain ⟨n, s₁, hn, h⟩ := run_bind_eq_ok.mp h
    obtain ⟨-, rfl⟩ := run_pure_eq_ok.mp h
    exact genVar_appends hn
  | .elem type l r, s, s', v, h => by
    obtain ⟨lv, s₁, hl, h⟩ := run_bind_eq_ok.mp h
    obtain ⟨rv, s₂, hr, h⟩ := run_bind_eq_ok.mp h
    obtain ⟨n, s₃, hn, h⟩ := run_bind_eq_ok.mp h
    obtain ⟨-, rfl⟩ := run_pure_eq_ok.mp h
    obtain ⟨cl, hcl⟩ := genExp_appends l hl
    obtain ⟨cr, hcr⟩ := genExp_appends r hr
    obtain ⟨cn, hcn⟩ := genOperator_appends hn
    exact ⟨_, (hcl.trans hcr).trans hcn⟩
  | .const c, s, s', v, h => by
    obtain ⟨-, rfl⟩ := run_pure_eq_ok.mp h
    exact ⟨[], .refl⟩
  | .unary op e, s, s', v, h => by
    obtain ⟨operand, s₁, he, h⟩ := run_bind_eq_ok.mp h
    obtain ⟨result, s₂, hresult, h⟩ := run_bind_eq_ok.mp h
    obtain ⟨u, s₃, happend, h⟩ := run_bind_eq_ok.mp h
    obtain ⟨-, rfl⟩ := run_pure_eq_ok.mp h
    obtain ⟨ce, hce⟩ := genExp_appends e he
    exact ⟨_, (hce.trans (newTemp_appends hresult)).trans (append_appends rfl happend)⟩
  | .binary op type l r, s, s', v, h => by
    obtain ⟨lv, s₁, hl, h⟩ := run_bind_eq_ok.mp h
    obtain ⟨rv, s₂, hr, h⟩ := run_bind_eq_ok.mp h
    obtain ⟨n, s₃, hn, h⟩ := run_bind_eq_ok.mp h
    obtain ⟨-, rfl⟩ := run_pure_eq_ok.mp h
    obtain ⟨cl, hcl⟩ := genExp_appends l hl
    obtain ⟨cr, hcr⟩ := genExp_appends r hr
    obtain ⟨cn, hcn⟩ := genOperator_appends hn
    exact ⟨_, (hcl.trans hcr).trans hcn⟩
  | .call type f args, s, s', v, h => by
    obtain ⟨vs, s₁, hargs, h⟩ := run_bind_eq_ok.mp h
    obtain ⟨ca, hca⟩ := genArgs_appends args hargs
    by_cases hunit : type.eqv .unit = true
    · rw [if_pos hunit] at h
      obtain ⟨cc, hcc⟩ := genCall_appends h
      exact ⟨_, hca.trans hcc⟩
    · rw [if_neg hunit] at h
      obtain ⟨result, s₂, hresult, h⟩ := run_bind_eq_ok.mp h
      rw [map_eq_pure_bind] at hresult
      obtain ⟨t, s₃, ht, hresult⟩ := run_bind_eq_ok.mp hresult
      obtain ⟨-, rfl⟩ := run_pure_eq_ok.mp hresult
      obtain ⟨cc, hcc⟩ := genCall_appends h
      exact ⟨_, (hca.trans (newTemp_appends ht)).trans hcc⟩

theorem genArgs_appends : ∀ (es : Exps checked) {s s' : GenState} {vs : List Value},
    genArgs es scope s = .ok (vs, s') → ∃ code, Appends scope code s s'
  | .nil, s, s', vs, h => by
    obtain ⟨-, rfl⟩ := run_pure_eq_ok.mp h
    exact ⟨[], .refl⟩
  | .cons e es, s, s', vs, h => by
    obtain ⟨v, s₁, he, h⟩ := run_bind_eq_ok.mp h
    obtain ⟨ws, s₂, hes, h⟩ := run_bind_eq_ok.mp h
    obtain ⟨-, rfl⟩ := run_pure_eq_ok.mp h
    obtain ⟨ce, hce⟩ := genExp_appends e he
    obtain ⟨ces, hces⟩ := genArgs_appends es hes
    exact ⟨_, hce.trans hces⟩

end

end Gen
end Cact
