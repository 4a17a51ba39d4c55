import Cact.Rv64.Vm

/-!
# What an instruction reads and writes

`exec_relocate` is the one fact about instructions that the proofs about assembly
passes use: an instruction sees of a state only the registers it reads, and it
does not look at the program counter as a number. So it does the same in a state
with other values in the other registers, and with every index of the code moved.

- `Inst.reads`, `Inst.writes`: general registers only; the passes touch no others.
- `State.relocate`: a state after the code has moved.
- `machine`: the machine of a module, whose trace only grows.
-/

namespace Cact

namespace Rv64

open Ir (Fault)

/-! ## Registers of an instruction -/

/-- The opcodes whose operand is a general register. -/
def OpFR.readsGeneral : OpFR → Bool
  | fcvtSW | fcvtDW | fcvtSL | fcvtDL | fmvWX => true
  | _ => false

/-- The opcodes whose result is a general register. -/
def OpFR.writesGeneral : OpFR → Bool
  | feqS | fltS | fleS | feqD | fltD | fleD | fcvtWS | fcvtWD | fcvtLS | fcvtLD | fmvXW => true
  | _ => false

def Builtin.reads : Builtin → List GeneralReg
  | printInt | printBool => [10]
  | memcpy | memset => [10, 11, 12]
  | _ => []

def Builtin.writes : Builtin → List GeneralReg
  | getInt => [10]
  | _ => []

/-- The builtin function a jump instruction calls. -/
def PseudoJ.builtin (i : PseudoJ) : Option Builtin :=
  match i.op with
  | .j => none
  | .call => builtin? i.target

namespace Inst

/-- The general registers whose values an instruction depends on. -/
def reads : Inst → List GeneralReg
  | instR i => [i.rs1, i.rs2]
  | instFR i => if i.op.readsGeneral then [i.rs1.id] else []
  | instI i => if storeWidth i.op = 0 then [i.rs1] else [i.rs1, i.rd]
  | instB i => [i.rs1, i.rs2]
  | instFI i => [i.rs1]
  | instJ _ => []
  | instU _ => []
  | pseudoR i => [i.rs1]
  | pseudoLI _ => []
  | pseudoL i => if i.op = .sgd ∨ i.op = .sgw then [i.rd] else []
  | pseudoB i => [i.rs1]
  | pseudoJ i => (i.builtin.map Builtin.reads).getD []
  | pseudoRet => []

/-- The general registers an instruction sets, whatever they held. -/
def writes : Inst → List GeneralReg
  | instR i => [i.rd]
  | instFR i => if i.op.writesGeneral then [i.rd.id] else []
  | instI i => if storeWidth i.op = 0 then [i.rd] else []
  | instB _ => []
  | instFI _ => []
  | instJ i => [i.rd]
  | instU i => [i.rd]
  | pseudoR i => [i.rd]
  | pseudoLI i => [i.rd]
  | pseudoL i => if i.op = .sgd ∨ i.op = .sgw then [] else [i.rd]
  | pseudoB _ => []
  | pseudoJ i => (i.builtin.map Builtin.writes).getD []
  | pseudoRet => []

end Inst

/-! ## Moving a state -/

namespace State

variable {env : Env}

/-- The state after the code has moved by `φ`, with registers `ρ`. -/
def relocate (φ : Nat → Nat) (ρ : GeneralReg → Word) (s : State env) : State env :=
  { s with regs := ρ, pc := φ s.pc, callStack := s.callStack.map φ }

/-- The registers of a moved state after the registers in `ws` are set as in `s`. -/
def merge (ws : List GeneralReg) (s : State env) (ρ : GeneralReg → Word) : GeneralReg → Word :=
  fun r => if r ∈ ws then s.regs r else ρ r

@[simp] theorem merge_nil (s : State env) (ρ : GeneralReg → Word) : s.merge [] ρ = ρ := by
  funext r
  simp [merge]

@[simp] theorem merge_setReg (s : State env) (r : GeneralReg) (v : Word)
    (ρ : GeneralReg → Word) : (s.setReg r v).merge [r] ρ = Function.update ρ r v := by
  funext r'
  by_cases h : r' = r
  · subst h
    simp [merge, setReg]
  · simp [merge, h]

@[simp] theorem merge_setInput (ws : List GeneralReg) (s : State env) (input : env.Input)
    (ρ : GeneralReg → Word) : (s.setInput input).merge ws ρ = s.merge ws ρ := rfl

variable (φ : Nat → Nat) (ρ : GeneralReg → Word) (s : State env)

@[simp] theorem relocate_regs : (s.relocate φ ρ).regs = ρ := rfl
@[simp] theorem relocate_fregs : (s.relocate φ ρ).fregs = s.fregs := rfl
@[simp] theorem relocate_memory : (s.relocate φ ρ).memory = s.memory := rfl
@[simp] theorem relocate_input : (s.relocate φ ρ).input = s.input := rfl
@[simp] theorem relocate_output : (s.relocate φ ρ).output = s.output := rfl
@[simp] theorem relocate_pc : (s.relocate φ ρ).pc = φ s.pc := rfl
@[simp] theorem relocate_callStack : (s.relocate φ ρ).callStack = s.callStack.map φ := rfl

@[simp] theorem relocate_setReg (r : GeneralReg) (v : Word) :
    (s.relocate φ ρ).setReg r v = (s.setReg r v).relocate φ (Function.update ρ r v) := rfl

@[simp] theorem relocate_getF (r : FloatReg) : (s.relocate φ ρ).getF r = s.getF r := rfl
@[simp] theorem relocate_getD (r : FloatReg) : (s.relocate φ ρ).getD r = s.getD r := rfl

@[simp] theorem relocate_setF (r : FloatReg) (v : BitVec 32) :
    (s.relocate φ ρ).setF r v = (s.setF r v).relocate φ ρ := rfl

@[simp] theorem relocate_setD (r : FloatReg) (v : Word) :
    (s.relocate φ ρ).setD r v = (s.setD r v).relocate φ ρ := rfl

@[simp] theorem relocate_setMemory :
    (s.relocate φ ρ).setMemory = fun m => (s.setMemory m).relocate φ ρ := rfl

@[simp] theorem relocate_setInput (input : env.Input) :
    (s.relocate φ ρ).setInput input = (s.setInput input).relocate φ ρ := rfl

@[simp] theorem relocate_print (e : Event) :
    (s.relocate φ ρ).print e = (s.print e).relocate φ ρ := rfl

@[simp] theorem relocate_jump (pc : Nat) :
    (s.relocate φ ρ).jump (φ pc) = (s.jump pc).relocate φ ρ := rfl

end State

section Frame

variable {env : Env} {img img' : Image} {φ : Nat → Nat}

/-- Where the labels and the end of the code have moved to. -/
structure Moved (φ : Nat → Nat) (img img' : Image) : Prop where
  symbols_eq : img'.symbols = img.symbols
  length_eq : img'.code.length = φ img.code.length
  target_eq : ∀ l, img'.branchTarget l = φ (img.branchTarget l)

theorem execR_relocate (i : InstR) (s : State env) {ρ : GeneralReg → Word}
    (h : ∀ r ∈ (Inst.instR i).reads, ρ r = s.regs r) :
    execR i (s.relocate φ ρ) =
      (execR i s).relocate φ ((execR i s).merge (Inst.instR i).writes ρ) := by
  have h1 : ρ i.rs1 = s.regs i.rs1 := h _ (by simp [Inst.reads])
  have h2 : ρ i.rs2 = s.regs i.rs2 := h _ (by simp [Inst.reads])
  simp [execR, Inst.writes, h1, h2]

theorem execFR_relocate (i : InstFR) (s : State env) {ρ : GeneralReg → Word}
    (h : ∀ r ∈ (Inst.instFR i).reads, ρ r = s.regs r) :
    execFR i (s.relocate φ ρ) =
      (execFR i s).map fun t => t.relocate φ (t.merge (Inst.instFR i).writes ρ) := by
  obtain ⟨op, rd, rs1, rs2⟩ := i
  cases op <;>
    simp only [Inst.reads, OpFR.readsGeneral, Bool.false_eq_true, if_true, if_false,
      List.mem_singleton, forall_eq] at h <;>
    simp only [execFR, Inst.writes, OpFR.writesGeneral, InstFR.rs2Id] <;>
    cases rs2 <;> simp [h, bind, Except.bind, pure, Except.pure, Except.map]

@[simp] theorem map_ok {α β : Type} (f : α → β) (a : α) :
    (Except.ok a : Except Fault α).map f = .ok (f a) := rfl

@[simp] theorem map_map {α β γ : Type} (g : β → γ) (f : α → β) (x : Except Fault α) :
    (x.map f).map g = x.map fun a => g (f a) := by cases x <;> rfl

theorem execI_relocate (i : InstI) (s : State env) {ρ : GeneralReg → Word}
    (hpc : (Inst.instI i).usesPc = false)
    (h : ∀ r ∈ (Inst.instI i).reads, ρ r = s.regs r) :
    execI i (s.relocate φ ρ) =
      (execI i s).map fun t => t.relocate φ (t.merge (Inst.instI i).writes ρ) := by
  obtain ⟨op, rd, rs1, imm⟩ := i
  cases op <;> simp [Inst.reads, storeWidth] at h <;> simp [Inst.usesPc] at hpc <;>
    simp [execI, Inst.writes, storeWidth, h]

theorem execFI_relocate (i : InstFI) (s : State env) {ρ : GeneralReg → Word}
    (h : ∀ r ∈ (Inst.instFI i).reads, ρ r = s.regs r) :
    execFI i (s.relocate φ ρ) = (execFI i s).map fun t => t.relocate φ ρ := by
  have h1 : ρ i.rs1 = s.regs i.rs1 := h _ (by simp [Inst.reads])
  cases hop : i.op <;> simp [execFI, hop, h1]

theorem execPseudoL_relocate (i : PseudoL) (s : State env) {ρ : GeneralReg → Word}
    (hm : Moved φ img img') (h : ∀ r ∈ (Inst.pseudoL i).reads, ρ r = s.regs r) :
    execPseudoL img' i (s.relocate φ ρ) =
      (execPseudoL img i s).map fun t => t.relocate φ (t.merge (Inst.pseudoL i).writes ρ) := by
  cases hop : i.op <;> simp [Inst.reads, hop] at h <;>
    simp [execPseudoL, Inst.writes, hop, h, hm.symbols_eq]

theorem execBuiltin_relocate (f : Builtin) (s : State env) {ρ : GeneralReg → Word}
    (h : ∀ r ∈ f.reads, ρ r = s.regs r) :
    execBuiltin f (s.relocate φ ρ) =
      (execBuiltin f s).map fun t => t.relocate φ (t.merge f.writes ρ) := by
  cases f <;> simp [Builtin.reads] at h <;>
    simp [execBuiltin, Builtin.writes, h, bind, Except.bind, pure, Except.pure]
  case memcpy =>
    cases checkBlock "memcpy" (s.regs 10) (s.regs 12) <;>
      cases checkBlock "memcpy" (s.regs 11) (s.regs 12) <;> rfl
  case memset => cases checkBlock "memset" (s.regs 10) (s.regs 12) <;> rfl

theorem execPseudoJ_relocate (i : PseudoJ) (s : State env) {ρ : GeneralReg → Word}
    (hm : Moved φ img img') (h : ∀ r ∈ (Inst.pseudoJ i).reads, ρ r = s.regs r) :
    execPseudoJ img' i (s.relocate φ ρ) =
      (execPseudoJ img i s).map fun t => t.relocate φ (t.merge (Inst.pseudoJ i).writes ρ) := by
  cases hop : i.op with
  | j => simp [execPseudoJ, Inst.writes, PseudoJ.builtin, hop, hm.target_eq]
  | call =>
    cases hf : builtin? i.target with
    | none =>
      simp [execPseudoJ, Inst.writes, PseudoJ.builtin, hop, hf, hm.target_eq]
      rfl
    | some f =>
      simp only [execPseudoJ, Inst.writes, PseudoJ.builtin, hop, hf]
      exact execBuiltin_relocate f s (by simpa [Inst.reads, PseudoJ.builtin, hop, hf] using h)

/-- **An instruction depends on the registers it reads only, and not on where the
code lies.** -/
theorem exec_relocate (inst : Inst) (s : State env) {ρ : GeneralReg → Word}
    (hm : Moved φ img img') (hpc : inst.usesPc = false)
    (h : ∀ r ∈ inst.reads, ρ r = s.regs r) :
    exec img' inst (s.relocate φ ρ) =
      (exec img inst s).map fun t => t.relocate φ (t.merge inst.writes ρ) := by
  cases inst with
  | instR i => simp [exec, execR_relocate i s h]
  | instFR i => exact execFR_relocate i s h
  | instI i => exact execI_relocate i s hpc h
  | instB i =>
    have h1 : ρ i.rs1 = s.regs i.rs1 := h _ (by simp [Inst.reads])
    have h2 : ρ i.rs2 = s.regs i.rs2 := h _ (by simp [Inst.reads])
    simp only [exec, execB, Inst.writes, State.relocate_regs, h1, h2, hm.target_eq, map_ok]
    split <;> simp
  | instFI i => simp [exec, Inst.writes, execFI_relocate i s h]
  | instJ i => simp [Inst.usesPc] at hpc
  | instU i =>
    have hop : i.op = .lui := by
      cases hop : i.op with
      | lui => rfl
      | auipc => simp [Inst.usesPc, hop] at hpc
    simp [exec, execU, Inst.writes, hop]
  | pseudoR i =>
    have h1 : ρ i.rs1 = s.regs i.rs1 := h _ (by simp [Inst.reads])
    simp [exec, execPseudoR, Inst.writes, h1]
  | pseudoLI i => simp [exec, execPseudoLI, Inst.writes]
  | pseudoL i => exact execPseudoL_relocate i s hm h
  | pseudoB i =>
    have h1 : ρ i.rs1 = s.regs i.rs1 := h _ (by simp [Inst.reads])
    simp only [exec, execPseudoB, Inst.writes, State.relocate_regs, h1, hm.target_eq, map_ok]
    split <;> simp
  | pseudoJ i => exact execPseudoJ_relocate i s hm h
  | pseudoRet =>
    simp only [exec, execPseudoRet, Inst.writes, State.relocate_callStack, map_ok,
      State.merge_nil, hm.length_eq]
    cases s.callStack <;> rfl

end Frame

/-! ## What an instruction leaves alone -/

section Unchanged

variable {env : Env} {img : Image}

theorem relocate_self {φ : Nat → Nat} {s : State env} (hpc : φ s.pc = s.pc)
    (hcs : ∀ n ∈ s.callStack, φ n = n) : s.relocate φ s.regs = s := by
  have hmap : s.callStack.map φ = s.callStack := by
    rw [List.map_congr_left hcs, List.map_id']
  rw [State.relocate, hpc, hmap]

theorem Moved.refl (img : Image) : Moved id img img := ⟨rfl, rfl, fun _ => rfl⟩

/-- An instruction leaves every register alone that it does not write. -/
theorem exec_regs_of_notMem {inst : Inst} {s t : State env} (hpc : inst.usesPc = false)
    (h : exec img inst s = .ok t) {r : GeneralReg} (hr : r ∉ inst.writes) :
    t.regs r = s.regs r := by
  have hrel := exec_relocate inst s (Moved.refl img) hpc (fun _ _ => rfl)
  have hself : s.relocate id s.regs = s := relocate_self rfl (fun _ _ => rfl)
  rw [hself, h, map_ok] at hrel
  have ht : t.regs r = t.merge inst.writes s.regs r :=
    congrFun (congrArg State.regs (Except.ok.inj hrel)) r
  rw [ht, State.merge, if_neg hr]

/-- Code indices an instruction can leave in a state: those that were there, and
those of labels and of the end of the code. -/
theorem exec_indices {inst : Inst} {s t : State env} (hpc : inst.usesPc = false)
    (h : exec img inst s = .ok t) {P : Nat → Prop} (hlen : P img.code.length)
    (htgt : ∀ l, P (img.branchTarget l)) (hs : P s.pc) (hcs : ∀ n ∈ s.callStack, P n) :
    P t.pc ∧ ∀ n ∈ t.callStack, P n := by
  classical
  -- move every other index away: nothing in `s` moves, so nothing in `t` does
  let φ : Nat → Nat := fun n => if P n then n else n + 1
  have hfix : ∀ n, φ n = n ↔ P n := by
    intro n
    by_cases hn : P n <;> simp [φ, hn]
  have hm : Moved φ img img :=
    ⟨rfl, ((hfix _).mpr hlen).symm, fun l => ((hfix _).mpr (htgt l)).symm⟩
  have hrel := exec_relocate inst s hm hpc (fun _ _ => rfl)
  rw [relocate_self ((hfix _).mpr hs) (fun n hn => (hfix n).mpr (hcs n hn)), h, map_ok] at hrel
  have ht := Except.ok.inj hrel
  refine ⟨(hfix _).mp (congrArg State.pc ht).symm, fun n hn => ?_⟩
  have hmap : t.callStack = t.callStack.map φ := congrArg State.callStack ht
  obtain ⟨i, hi, rfl⟩ := List.mem_iff_getElem.mp hn
  have hget : (t.callStack.map φ)[i]? = t.callStack[i]? := by rw [← hmap]
  rw [List.getElem?_map, List.getElem?_eq_getElem hi] at hget
  exact (hfix _).mp (Option.some.inj hget)

theorem execFR_output (i : InstFR) {s t : State env} (h : execFR i s = .ok t) :
    t.output = s.output := by
  obtain ⟨op, rd, rs1, rs2⟩ := i
  cases op <;> cases rs2 <;>
    simp [execFR, InstFR.rs2Id, bind, Except.bind, pure, Except.pure] at h <;> subst h <;> rfl

theorem map_eq_ok {α β : Type} {f : α → β} {x : Except Fault α} {b : β}
    (h : x.map f = .ok b) : ∃ a, x = .ok a ∧ f a = b := by
  cases x with
  | error e => cases h
  | ok a => exact ⟨a, rfl, Except.ok.inj h⟩

theorem execI_output (i : InstI) {s t : State env} (h : execI i s = .ok t) :
    t.output = s.output := by
  obtain ⟨op, rd, rs1, imm⟩ := i
  cases op <;> simp only [execI] at h
  case jalr =>
    cases h
    simp only [State.jump]
    split <;> rfl
  all_goals
    first
    | cases h; rfl
    | obtain ⟨v, -, rfl⟩ := map_eq_ok h; rfl

theorem execFI_output (i : InstFI) {s t : State env} (h : execFI i s = .ok t) :
    t.output = s.output := by
  cases hop : i.op <;> simp only [execFI, hop] at h <;>
    obtain ⟨v, -, rfl⟩ := map_eq_ok h <;> rfl

theorem execPseudoL_output (i : PseudoL) {s t : State env} (h : execPseudoL img i s = .ok t) :
    t.output = s.output := by
  cases hop : i.op <;> simp only [execPseudoL, hop] at h
  case la => cases h; rfl
  all_goals obtain ⟨v, -, rfl⟩ := map_eq_ok h; rfl

theorem execBuiltin_output (f : Builtin) {s t : State env} (h : execBuiltin f s = .ok t) :
    s.output <+: t.output := by
  cases f <;> simp only [execBuiltin, bind, Except.bind, pure, Except.pure] at h
  case getFloat =>
    obtain ⟨v, -, rfl⟩ := map_eq_ok h
    exact List.prefix_refl _
  case memcpy =>
    cases h1 : checkBlock "memcpy" (s.regs 10) (s.regs 12) <;>
      cases h2 : checkBlock "memcpy" (s.regs 11) (s.regs 12) <;> rw [h1] at h <;>
      simp [h2] at h
    subst h
    exact List.prefix_refl _
  case memset =>
    cases h1 : checkBlock "memset" (s.regs 10) (s.regs 12) <;> simp [h1] at h
    subst h
    exact List.prefix_refl _
  case getInt => cases h; exact List.prefix_refl _
  case getDouble => cases h; exact List.prefix_refl _
  all_goals
    cases h
    exact List.prefix_append _ _

/-- What is printed stays printed. -/
theorem exec_output {inst : Inst} {s t : State env} (h : exec img inst s = .ok t) :
    s.output <+: t.output := by
  cases inst with
  | instFR i => exact (execFR_output i h).symm ▸ List.prefix_refl _
  | instI i => exact (execI_output i h).symm ▸ List.prefix_refl _
  | instFI i => exact (execFI_output i h).symm ▸ List.prefix_refl _
  | pseudoL i => exact (execPseudoL_output i h).symm ▸ List.prefix_refl _
  | pseudoJ i =>
    simp only [exec, execPseudoJ] at h
    split at h
    · cases h; exact List.prefix_refl _
    · split at h
      · exact execBuiltin_output _ h
      · cases h; exact List.prefix_refl _
  | instB i =>
    cases h
    unfold execB
    split <;> exact List.prefix_refl _
  | pseudoB i =>
    cases h
    unfold execPseudoB
    split <;> exact List.prefix_refl _
  | instU i =>
    cases h
    unfold execU
    split <;> exact List.prefix_refl _
  | pseudoRet =>
    cases h
    unfold execPseudoRet
    split <;> exact List.prefix_refl _
  | instR i => cases h; exact List.prefix_refl _
  | instJ i => cases h; exact List.prefix_refl _
  | pseudoR i => cases h; exact List.prefix_refl _
  | pseudoLI i => cases h; exact List.prefix_refl _

end Unchanged

/-! ## The machine of a module -/

section Machine

variable {env : Env}

theorem stepConf_output {img : Image} {c c' : Conf env} (h : stepConf img c = some c') :
    c.state.output <+: c'.state.output := by
  unfold stepConf at h
  split at h
  · cases h
  · split at h
    · cases h
    · rename_i inst _
      cases h
      cases hexec : exec img inst { c.state with pc := c.state.pc + 1 } with
      | error e => exact List.prefix_refl _
      | ok t =>
        have hout := exec_output hexec
        exact hout

/-- The loop of `execute`. -/
def machine (env : Env) (img : Image) : DetMachine (Conf env) Event (Except Fault (BitVec 8)) where
  step := stepConf img
  trace c := c.state.output
  verdict := verdict
  trace_mono _ _ h := stepConf_output h

end Machine

end Rv64
end Cact
