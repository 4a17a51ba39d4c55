import Cact.Rv64.Window

/-!
# Straight code and branches

A piece of code that only computes into one register runs through to its end,
and its effect is a function on register files. A branch after it is decided by
the registers alone.

- `Inst.compute?`: the register an arithmetic instruction sets, and its new value.
- `Straight`, `effects`, `straight_steps`: a run of such instructions.
- `Inst.branch?`: the condition of a branch.
-/

namespace Cact

namespace Rv64

open Ir (Fault)

/-- The general registers of a state. -/
abbrev RegFile := GeneralReg → Word

/-- The opcodes of arithmetic with an immediate. -/
def OpI.isAlu : OpI → Bool
  | addi | slli | slti | sltiu | xori | srli | srai | ori | andi => true
  | addiw | slliw | srliw | sraiw => true
  | _ => false

/-- What an arithmetic instruction does: the register it sets, and to what. -/
def Inst.compute? : Inst → Option (GeneralReg × (RegFile → Word))
  | instR i => some (i.rd, fun ρ => aluR i.op (ρ i.rs1) (ρ i.rs2))
  | instI i => if i.op.isAlu then some (i.rd, fun ρ => aluI i.op (ρ i.rs1) i.imm) else none
  | pseudoR i => some (i.rd, fun ρ => aluPseudo i.op (ρ i.rs1))
  | _ => none

/-- The code computes into the register `x` only. -/
def Straight (x : GeneralReg) (l : List Inst) : Prop := ∀ i ∈ l, ∃ v, i.compute? = some (x, v)

/-- What an instruction does to the registers. -/
def effect (i : Inst) (ρ : RegFile) : RegFile :=
  match i.compute? with
  | some (rd, v) => Function.update ρ rd (v ρ)
  | none => ρ

/-- What a piece of code does to the registers. -/
def effects (l : List Inst) (ρ : RegFile) : RegFile := l.foldl (fun ρ i => effect i ρ) ρ

@[simp] theorem effects_nil (ρ : RegFile) : effects [] ρ = ρ := rfl

@[simp] theorem effects_cons (i : Inst) (l : List Inst) (ρ : RegFile) :
    effects (i :: l) ρ = effects l (effect i ρ) := rfl

theorem effect_of_compute {i : Inst} {x : GeneralReg} {v : RegFile → Word}
    (h : i.compute? = some (x, v)) (ρ : RegFile) : effect i ρ = Function.update ρ x (v ρ) := by
  simp only [effect, h]

/-- A branch: its label and its condition. -/
def Inst.branch? : Inst → Option (String × (RegFile → Bool))
  | instB i => some (i.target, fun ρ => takenB i.op (ρ i.rs1) (ρ i.rs2))
  | pseudoB i => some (i.target, fun ρ => takenPseudo i.op (ρ i.rs1))
  | _ => none

section Exec

variable {env : Env} {img : Image} {i : Inst} {x : GeneralReg} {v : RegFile → Word}

theorem exec_compute (h : i.compute? = some (x, v)) (s : State env) :
    exec img i s = .ok (s.setReg x (v s.regs)) := by
  cases i with
  | instR i => cases h; rfl
  | pseudoR i => cases h; rfl
  | instI i =>
    obtain ⟨op, rd, rs1, imm⟩ := i
    cases op <;> simp only [Inst.compute?, OpI.isAlu, if_true, Bool.false_eq_true, if_false] at h <;>
      cases h <;> rfl
  | _ => cases h

theorem writes_of_compute (h : i.compute? = some (x, v)) : i.writes = [x] := by
  cases i with
  | instR i => cases h; rfl
  | pseudoR i => cases h; rfl
  | instI i =>
    obtain ⟨op, rd, rs1, imm⟩ := i
    cases op <;> simp only [Inst.compute?, OpI.isAlu, if_true, Bool.false_eq_true, if_false] at h <;>
      cases h <;> rfl
  | _ => cases h

theorem exec_branch {l : String} {b : RegFile → Bool} (h : i.branch? = some (l, b))
    (s : State env) :
    exec img i s = .ok (s.jump (if b s.regs then img.branchTarget l else s.pc)) := by
  cases i with
  | instB i =>
    cases h
    simp only [exec, execB]
    split <;> rfl
  | pseudoB i =>
    cases h
    simp only [exec, execPseudoB]
    split <;> rfl
  | _ => cases h

theorem writes_of_branch {l : String} {b : RegFile → Bool} (h : i.branch? = some (l, b)) :
    i.writes = [] := by
  cases i with
  | instB i => rfl
  | pseudoB i => rfl
  | _ => cases h

end Exec

/-! ## Runs of straight code -/

section Run

variable {env : Env} {img : Image} {x : GeneralReg}

/-- The state at another index with other registers. -/
def Conf.put (c : Conf env) (ρ : RegFile) (pc : Nat) : Conf env :=
  ⟨{ c.state with regs := ρ, pc := pc }, none⟩

/-- The code from an index on begins with `l`. -/
def CodeAt (img : Image) (pc : Nat) (l : List Inst) : Prop :=
  ∀ k < l.length, img.code[pc + k]? = l[k]?

theorem CodeAt.head {pc : Nat} {i : Inst} {l : List Inst} (h : CodeAt img pc (i :: l)) :
    img.code[pc]? = some i := h 0 (Nat.zero_lt_succ _)

theorem CodeAt.tail {pc : Nat} {i : Inst} {l : List Inst} (h : CodeAt img pc (i :: l)) :
    CodeAt img (pc + 1) l := by
  intro k hk
  have hk' := h (k + 1) (Nat.succ_lt_succ hk)
  rw [Nat.add_assoc, Nat.add_comm 1 k, hk', List.getElem?_cons_succ]

theorem CodeAt.append {pc : Nat} {l l' : List Inst} (h : CodeAt img pc (l ++ l')) :
    CodeAt img pc l ∧ CodeAt img (pc + l.length) l' := by
  constructor
  · intro k hk
    have hk' := h k (by simp only [List.length_append]; omega)
    rw [hk', List.getElem?_append_left hk]
  · intro k hk
    have hk' := h (l.length + k) (by simp only [List.length_append]; omega)
    rw [Nat.add_assoc, hk', List.getElem?_append_right (Nat.le_add_right _ _),
      Nat.add_sub_cancel_left]

theorem step_compute {c : Conf env} {i : Inst} {v : RegFile → Word} (hf : c.fault = none)
    (hi : img.code[c.state.pc]? = some i) (h : i.compute? = some (x, v)) :
    (machine env img).step c = some (c.put (effect i c.state.regs) (c.state.pc + 1)) := by
  have hstep := stepConf_of_code hf hi
  rw [exec_compute h] at hstep
  rw [effect_of_compute h]
  exact hstep

theorem step_branch {c : Conf env} {i : Inst} {l : String} {b : RegFile → Bool}
    (hf : c.fault = none) (hi : img.code[c.state.pc]? = some i) (h : i.branch? = some (l, b)) :
    (machine env img).step c = some (c.put c.state.regs
      (if b c.state.regs then img.branchTarget l else c.state.pc + 1)) := by
  have hstep := stepConf_of_code hf hi
  rw [exec_branch h] at hstep
  exact hstep

theorem codeAt_window (sp : Splice) : CodeAt sp.source sp.before.length sp.window :=
  fun _ hk => Splice.source_code_window hk

theorem codeAt_window' (sp : Splice) : CodeAt sp.target sp.before.length sp.window' :=
  fun _ hk => Splice.target_code_window hk

/-- Straight code runs through to its end. -/
theorem straight_steps (l : List Inst) {c : Conf env} (hf : c.fault = none)
    (hcode : CodeAt img c.state.pc l) (hl : Straight x l) :
    (machine env img).Steps l.length c (c.put (effects l c.state.regs) (c.state.pc + l.length)) := by
  induction l generalizing c with
  | nil =>
    obtain ⟨s, f⟩ := c
    cases hf
    rfl
  | cons i l ih =>
    obtain ⟨⟨v, hv⟩, hl⟩ := List.forall_mem_cons.mp hl
    have hrest := ih (c := c.put (effect i c.state.regs) (c.state.pc + 1)) rfl hcode.tail hl
    refine ⟨_, step_compute hf hcode.head hv, ?_⟩
    rw [List.length_cons, Nat.add_comm l.length 1, ← Nat.add_assoc]
    exact hrest

/-- Straight code leaves every other register alone. -/
theorem effects_of_ne {l : List Inst} (hl : Straight x l) {r : GeneralReg} (hr : r ≠ x)
    (ρ : RegFile) : effects l ρ r = ρ r := by
  induction l generalizing ρ with
  | nil => rfl
  | cons i l ih =>
    obtain ⟨⟨v, hv⟩, hl⟩ := List.forall_mem_cons.mp hl
    rw [effects_cons, ih hl, effect_of_compute hv, Function.update_of_ne hr]

/-- A register that is live after straight code which does not set it is live before. -/
theorem live_before_straight {l : List Inst} {c : Conf env} (hf : c.fault = none)
    (hcode : CodeAt img c.state.pc l) (hl : Straight x l) {r : GeneralReg} (hr : r ≠ x)
    (hlive : Live img (c.put (effects l c.state.regs) (c.state.pc + l.length)) r) :
    Live img c r := by
  induction l generalizing c with
  | nil =>
    obtain ⟨s, f⟩ := c
    cases hf
    exact hlive
  | cons i l ih =>
    obtain ⟨⟨v, hv⟩, hl⟩ := List.forall_mem_cons.mp hl
    have hrest : Live img (c.put (effect i c.state.regs) (c.state.pc + 1)) r := by
      refine ih rfl hcode.tail hl ?_
      rw [List.length_cons, Nat.add_comm l.length 1, ← Nat.add_assoc] at hlive
      exact hlive
    refine .later (step_compute hf hcode.head hv) hcode.head ?_ hrest
    rw [writes_of_compute hv]
    simpa using hr

/-- Where a run of straight code is after some of its steps. -/
theorem pc_inside_straight {l : List Inst} {c : Conf env} (hf : c.fault = none)
    (hcode : CodeAt img c.state.pc l) (hl : Straight x l) {j : Nat} {u : Conf env}
    (hj : j ≤ l.length) (hu : (machine env img).Steps j c u) : u.state.pc = c.state.pc + j := by
  have hsplit : l = l.take j ++ l.drop j := (List.take_append_drop j l).symm
  rw [hsplit] at hcode
  have hrun := straight_steps (l.take j) hf hcode.append.1
    (fun i hi => hl i (List.mem_of_mem_take hi))
  rw [List.length_take, Nat.min_eq_left hj] at hrun
  rw [hu.det hrun]
  rfl

end Run

end Rv64
end Cact
