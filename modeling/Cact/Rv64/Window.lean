import Cact.Rv64.Frame

/-!
# Replacing a window of instructions

Two pieces of code differ in one window only. `Splice.Related` is the relation
between their runs: outside the window the states are equal up to the move of the
code and up to registers that are dead, which means that the run will not read
them before it sets them. `Splice.step` is the step lemma for the instructions
both share; what the window itself does is left to each rule, as `Splice.Burst`.

- `Live`: the registers a run may still read.
- `Splice`: the two images and the window.
- `Splice.obsEq`, `Splice.follow`: what follows once the window is dealt with.
-/

namespace Cact

namespace Rv64

open Ir (Fault)

section Live

variable {env : Env}

/-- The run from a state of the loop reads the register before it sets it. The
result of the run counts as a use of `a0`. -/
inductive Live (img : Image) : Conf env → GeneralReg → Prop
  | read {c : Conf env} {inst : Inst} {r : GeneralReg} (hf : c.fault = none)
      (hi : img.code[c.state.pc]? = some inst) (hr : r ∈ inst.reads) : Live img c r
  | result {c : Conf env} (hf : c.fault = none) (h : stepConf img c = none) : Live img c 10
  | later {c c' : Conf env} {inst : Inst} {r : GeneralReg} (h : stepConf img c = some c')
      (hi : img.code[c.state.pc]? = some inst) (hr : r ∉ inst.writes) (hl : Live img c' r) :
      Live img c r

end Live

section Steps

variable {env : Env} {img : Image} {c : Conf env} {inst : Inst}

/-- The state the instruction at the program counter is executed in. -/
def State.advance (s : State env) : State env := s.jump (s.pc + 1)

theorem stepConf_of_code (hf : c.fault = none) (hi : img.code[c.state.pc]? = some inst) :
    stepConf img c = some (.next c.state (exec img inst c.state.advance)) := by
  unfold stepConf
  simp only [hf, hi]
  rfl

theorem stepConf_of_end (hf : c.fault = none) (hi : img.code[c.state.pc]? = none) :
    stepConf img c = none := by
  unfold stepConf
  simp only [hf, hi]

theorem stepConf_of_fault {e : Fault} (hf : c.fault = some e) : stepConf img c = none := by
  unfold stepConf
  simp only [hf]

/-- A register that is live after an instruction which does not set it is live before. -/
theorem Live.before {r : GeneralReg} {t : State env} (hf : c.fault = none)
    (hi : img.code[c.state.pc]? = some inst) (ht : exec img inst c.state.advance = .ok t)
    (hr : r ∉ inst.writes) (hl : Live img (⟨t, none⟩ : Conf env) r) : Live img c r := by
  refine .later ?_ hi hr hl
  rw [stepConf_of_code hf hi, ht]
  rfl

end Steps

/-! ## Two images that differ in a window -/

structure Splice where
  before : List Inst
  window : List Inst
  window' : List Inst
  after : List Inst
  labels : List (String × Nat)
  symbols : List (String × Nat)

namespace Splice

variable (sp : Splice)

/-- Where an index of the old code is in the new code. -/
def move (n : Nat) : Nat :=
  if n ≤ sp.before.length then n else n - sp.window.length + sp.window'.length

/-- Not strictly inside the window. -/
def Outside (n : Nat) : Prop :=
  n ≤ sp.before.length ∨ sp.before.length + sp.window.length ≤ n

def source : Image := ⟨sp.before ++ sp.window ++ sp.after, sp.labels, sp.symbols⟩

def target : Image :=
  ⟨sp.before ++ sp.window' ++ sp.after, sp.labels.map fun e => (e.1, sp.move e.2), sp.symbols⟩

variable {sp}

theorem move_le {n : Nat} (h : n ≤ sp.before.length) : sp.move n = n := if_pos h

theorem move_ge {n : Nat} (h : sp.before.length + sp.window.length ≤ n)
    (hpos : 0 < sp.window.length) : sp.move n = n - sp.window.length + sp.window'.length :=
  if_neg (by omega)

@[simp] theorem move_zero : sp.move 0 = 0 := move_le (Nat.zero_le _)

theorem findLabel_map (labels : List (String × Nat)) (f : Nat → Nat) (l : String) :
    findLabel (labels.map fun e => (e.1, f e.2)) l = (findLabel labels l).map f := by
  unfold findLabel
  rw [← List.map_reverse, List.find?_map, Option.map_map, Option.map_map]
  rfl

theorem findLabel_target (l : String) :
    findLabel sp.target.labels l = (findLabel sp.labels l).map sp.move := findLabel_map _ _ l

theorem moved (hpos : 0 < sp.window.length) : Moved sp.move sp.source sp.target where
  symbols_eq := rfl
  length_eq := by
    rw [move_ge (by simp [source]) hpos]
    simp only [source, target, List.length_append]
    omega
  target_eq l := by
    unfold Image.branchTarget
    rw [findLabel_target]
    cases h : findLabel sp.labels l <;> simp [source, h]

/-- Labels do not point into the window. -/
def LabelsOutside (sp : Splice) : Prop := ∀ e ∈ sp.labels, sp.Outside e.2

theorem mem_of_findLabel {labels : List (String × Nat)} {l : String} {n : Nat}
    (h : findLabel labels l = some n) : ∃ e ∈ labels, e.2 = n := by
  unfold findLabel at h
  obtain ⟨e, he, rfl⟩ := Option.map_eq_some_iff.mp h
  exact ⟨e, List.mem_reverse.mp (List.mem_of_find?_eq_some he), rfl⟩

theorem outside_zero : sp.Outside 0 := .inl (Nat.zero_le _)

theorem outside_branchTarget (hl : sp.LabelsOutside) (l : String) :
    sp.Outside (sp.source.branchTarget l) := by
  unfold Image.branchTarget
  cases h : findLabel sp.source.labels l with
  | none => exact outside_zero
  | some n =>
    obtain ⟨e, he, rfl⟩ := mem_of_findLabel h
    exact hl e he

theorem outside_end : sp.Outside sp.source.code.length := by
  right
  simp only [source, List.length_append]
  omega

/-- Outside the window both images have the same code. -/
theorem code_move {n : Nat} (h : sp.Outside n) (hne : n ≠ sp.before.length) :
    sp.target.code[sp.move n]? = sp.source.code[n]? ∧ sp.move (n + 1) = sp.move n + 1 ∧
      sp.Outside (n + 1) := by
  obtain h | h := h
  · have hlt : n < sp.before.length := by omega
    refine ⟨?_, ?_, .inl hlt⟩
    · rw [move_le h]
      simp only [source, target, List.append_assoc]
      rw [List.getElem?_append_left hlt, List.getElem?_append_left hlt]
    · rw [move_le h, move_le hlt]
  · have hlt : sp.before.length < n := by omega
    have hn : sp.move n = n - sp.window.length + sp.window'.length := if_neg (by omega)
    have hn' : sp.move (n + 1) = n + 1 - sp.window.length + sp.window'.length := if_neg (by omega)
    refine ⟨?_, by omega, .inr (by omega)⟩
    rw [hn]
    simp only [source, target]
    rw [List.getElem?_append_right (by simp; omega), List.getElem?_append_right (by simp; omega)]
    congr 1
    simp only [List.length_append]
    omega

/-- The code of the window. -/
theorem source_code_window {k : Nat} (hk : k < sp.window.length) :
    sp.source.code[sp.before.length + k]? = sp.window[k]? := by
  simp only [source, List.append_assoc]
  rw [List.getElem?_append_right (Nat.le_add_right _ _), Nat.add_sub_cancel_left,
    List.getElem?_append_left hk]

theorem target_code_window {k : Nat} (hk : k < sp.window'.length) :
    sp.target.code[sp.before.length + k]? = sp.window'[k]? := by
  simp only [target, List.append_assoc]
  rw [List.getElem?_append_right (Nat.le_add_right _ _), Nat.add_sub_cancel_left,
    List.getElem?_append_left hk]

/-! ## The relation -/

section Related

variable {env : Env}

/-- Two states of the loops outside the window, equal up to dead registers. -/
structure Related (sp : Splice) (c c' : Conf env) : Prop where
  fault_eq : c'.fault = c.fault
  pc_outside : sp.Outside c.state.pc
  callStack_outside : ∀ n ∈ c.state.callStack, sp.Outside n
  state_eq : c'.state = c.state.relocate sp.move c'.state.regs
  live_eq : ∀ r, Live sp.source c r → c'.state.regs r = c.state.regs r

variable {c c' : Conf env}

theorem Related.trace_eq (h : sp.Related c c') : c'.state.output = c.state.output := by
  rw [h.state_eq]
  rfl

/-- States that agree in everything but the general registers and the program counter. -/
theorem relocate_congr {φ : Nat → Nat} {s s' t t' : State env} {ρ ρ' : GeneralReg → Word}
    {q : Nat} {m : Memory} (h : s' = s.relocate φ s'.regs)
    (ht : t = { s with regs := ρ, pc := q, memory := m })
    (ht' : t' = { s' with regs := ρ', pc := φ q, memory := m }) :
    t' = t.relocate φ t'.regs := by
  rw [ht', ht, h]
  rfl

/-- Related states run on to related states when they agree again after a window. -/
theorem Related.of_window (h : sp.Related c c') {t t' : State env} (ρ ρ' : GeneralReg → Word)
    (q : Nat) (m : Memory) (hq : sp.Outside q)
    (ht : t = { c.state with regs := ρ, pc := q, memory := m })
    (ht' : t' = { c'.state with regs := ρ', pc := sp.move q, memory := m })
    (hlive : ∀ r, Live sp.source (⟨t, none⟩ : Conf env) r → ρ' r = ρ r) :
    sp.Related (⟨t, none⟩ : Conf env) ⟨t', none⟩ where
  fault_eq := rfl
  pc_outside := by
    rw [ht]
    exact hq
  callStack_outside := by
    rw [ht]
    exact h.callStack_outside
  state_eq := relocate_congr h.state_eq ht ht'
  live_eq r hr := by
    have hval := hlive r hr
    simp only [ht, ht']
    exact hval

/-- A fault ends the run: nothing is live after it. -/
theorem not_live_of_fault {img : Image} {s : State env} {e : Fault} {r : GeneralReg} :
    ¬ Live img (⟨s, some e⟩ : Conf env) r := by
  intro hr
  cases hr with
  | read hf _ _ => cases hf
  | result hf _ => cases hf
  | later hs _ _ _ => cases hs

/-- Related states in which both runs fail stay related. -/
theorem Related.fail (h : sp.Related c c') (e : Fault) :
    sp.Related (⟨c.state, some e⟩ : Conf env) ⟨c'.state, some e⟩ :=
  ⟨rfl, h.pc_outside, h.callStack_outside, h.state_eq, fun _ hr => absurd hr not_live_of_fault⟩

/-- At the window both program counters are the same number. -/
theorem Related.pc_eq (h : sp.Related c c') (hpc : c.state.pc = sp.before.length) :
    c'.state.pc = sp.before.length := by
  have hmove : sp.move c.state.pc = sp.before.length := by rw [hpc, move_le (Nat.le_refl _)]
  rw [h.state_eq]
  exact hmove

theorem Related.memory_eq (h : sp.Related c c') : c'.state.memory = c.state.memory := by
  rw [h.state_eq]
  rfl

/-- **One instruction outside the window.** -/
theorem Related.step (hl : sp.LabelsOutside) (hpos : 0 < sp.window.length)
    (hpc : ∀ inst ∈ sp.source.code, inst.usesPc = false) (h : sp.Related c c')
    (hne : c.fault = none → c.state.pc ≠ sp.before.length) :
    (stepConf sp.source c = none ∧ stepConf sp.target c' = none ∧ verdict c = verdict c') ∨
      ∃ t t', stepConf sp.source c = some t ∧ stepConf sp.target c' = some t' ∧
        sp.Related t t' := by
  cases hf : c.fault with
  | some e =>
    have hf' : c'.fault = some e := h.fault_eq.trans hf
    refine .inl ⟨stepConf_of_fault hf, stepConf_of_fault hf', ?_⟩
    simp only [verdict, hf, hf']
  | none =>
    have hf' : c'.fault = none := h.fault_eq.trans hf
    obtain ⟨hcode, hnext, hout⟩ := code_move h.pc_outside (hne hf)
    have hpc' : c'.state.pc = sp.move c.state.pc := by
      rw [h.state_eq]
      rfl
    cases hi : sp.source.code[c.state.pc]? with
    | none =>
      -- both have run off the end of the code, and `a0` is live there
      have hs := stepConf_of_end hf hi
      have hi' : sp.target.code[c'.state.pc]? = none := by rw [hpc', hcode, hi]
      refine .inl ⟨hs, stepConf_of_end hf' hi', ?_⟩
      simp only [verdict, hf, hf', h.live_eq 10 (.result hf hs)]
    | some inst =>
      have hi' : sp.target.code[c'.state.pc]? = some inst := by rw [hpc', hcode, hi]
      have hinst := hpc inst (List.mem_of_getElem? hi)
      have hadv : c'.state.advance = c.state.advance.relocate sp.move c'.state.regs := by
        rw [h.state_eq]
        simp only [State.advance, State.jump, State.relocate, hnext]
      have hreads : ∀ r ∈ inst.reads, c'.state.regs r = c.state.advance.regs r :=
        fun r hr => h.live_eq r (.read hf hi hr)
      have hexec := exec_relocate inst c.state.advance (moved hpos) hinst hreads
      refine .inr ⟨_, _, stepConf_of_code hf hi, stepConf_of_code hf' hi', ?_⟩
      rw [hadv, hexec]
      cases ht : exec sp.source inst c.state.advance with
      | error e => exact h.fail e
      | ok t =>
        obtain ⟨hpct, hcst⟩ := exec_indices hinst ht outside_end (outside_branchTarget hl) hout
          h.callStack_outside
        refine ⟨rfl, hpct, hcst, rfl, fun r hr => ?_⟩
        show t.merge inst.writes c'.state.regs r = t.regs r
        unfold State.merge
        split
        · rfl
        · rename_i hw
          rw [h.live_eq r (.before hf hi ht hw hr), exec_regs_of_notMem hinst ht hw]
          rfl

end Related

/-! ## The simulation -/

section Simulation

variable {env : Env} {sp : Splice}

/-- The run through the window: related states again after it, and inside it in
between. The new run may stand still, as long as the window is left. -/
def Burst (sp : Splice) (c c' : Conf env) : Prop :=
  ∃ k t t', (machine env sp.source).Steps (k + 1) c t ∧ (machine env sp.target).Reaches c' t' ∧
    sp.Related t t' ∧
    (∀ j u, 0 < j → j ≤ k → (machine env sp.source).Steps j c u → ¬ sp.Outside u.state.pc) ∧
    ((machine env sp.target).ReachesPlus c' t' ∨ t' = c' ∧ t.state.pc ≠ sp.before.length)

/-- What is known of two images that differ in a window, for the runs from `init`. -/
structure Sound (sp : Splice) (init : Conf env) : Prop where
  labels_outside : sp.LabelsOutside
  window_pos : 0 < sp.window.length
  noPc : ∀ inst ∈ sp.source.code, inst.usesPc = false
  burst : ∀ c c' : Conf env, (machine env sp.source).Reaches init c → sp.Related c c' →
    c.fault = none → c.state.pc = sp.before.length → sp.Burst c c'

/-- Related states of which the first occurs in the run. -/
def Matched (sp : Splice) (init c c' : Conf env) : Prop :=
  sp.Related c c' ∧ (machine env sp.source).Reaches init c

/-- The old run may move alone at the start of the window. -/
def rank (sp : Splice) (c _c' : Conf env) : Nat :=
  if c.fault = none ∧ c.state.pc = sp.before.length then 1 else 0

variable {init : Conf env}

/-- Matched states have halted, take one step each, or run through the window. -/
theorem Sound.cases (hs : sp.Sound init) {c c' : Conf env} (h : sp.Matched init c c') :
    (stepConf sp.source c = none ∧ stepConf sp.target c' = none ∧ verdict c = verdict c') ∨
      (∃ t t', stepConf sp.source c = some t ∧ stepConf sp.target c' = some t' ∧
        sp.Matched init t t') ∨
      (c.fault = none ∧ c.state.pc = sp.before.length) ∧ sp.Burst c c' := by
  by_cases hat : c.fault = none ∧ c.state.pc = sp.before.length
  · exact .inr (.inr ⟨hat, hs.burst c c' h.2 h.1 hat.1 hat.2⟩)
  · obtain hhalt | ⟨t, t', ht, ht', hR⟩ :=
      h.1.step hs.labels_outside hs.window_pos hs.noPc (fun hf hpc => hat ⟨hf, hpc⟩)
    · exact .inl hhalt
    · exact .inr (.inl ⟨t, t', ht, ht', hR, h.2.tail ht⟩)

theorem Sound.simulation (hs : sp.Sound init) :
    DetMachine.Simulation (machine env sp.source) (machine env sp.target) (sp.Matched init)
      sp.rank where
  trace_eq _ _ h := h.1.trace_eq.symm
  progress c c' h := by
    obtain ⟨hc, hc', hv⟩ | ⟨t, t', ht, ht', hR⟩ | ⟨hat, k, t, t', hk, -, hR, -, hmove⟩ := hs.cases h
    · exact .halt hc hc' hv
    · exact .both t t' (DetMachine.reachesPlus_of_step ht) (DetMachine.reachesPlus_of_step ht') hR
    · have hM : sp.Matched init t t' := ⟨hR, h.2.trans ⟨k + 1, hk⟩⟩
      obtain hplus | ⟨rfl, hne⟩ := hmove
      · exact .both t t' ⟨k, hk⟩ hplus hM
      · refine .left t ⟨k, hk⟩ hM ?_
        have h0 : sp.rank t t' = 0 := if_neg fun h => hne h.2
        have h1 : sp.rank c t' = 1 := if_pos hat
        omega

/-- Runs from related states cannot be told apart. -/
theorem Sound.obsEq (hs : sp.Sound init) {init' : Conf env} (h : sp.Related init init') :
    (machine env sp.source).ObsEq init (machine env sp.target) init' :=
  hs.simulation.obsEq ⟨h, .refl⟩

/-- The new run passes through a related state wherever the old run is outside the window. -/
theorem Sound.follow (hs : sp.Sound init) {init' : Conf env} (h : sp.Related init init')
    {c : Conf env} (hc : (machine env sp.source).Reaches init c) (hout : sp.Outside c.state.pc) :
    ∃ c', (machine env sp.target).Reaches init' c' ∧ sp.Related c c' := by
  have hburst : ∀ a b, sp.Matched init a b → (machine env sp.source).step a = none ∨
      ∃ k t t', (machine env sp.source).Steps (k + 1) a t ∧
        (machine env sp.target).Reaches b t' ∧ sp.Matched init t t' ∧
        ∀ j u, 0 < j → j ≤ k → (machine env sp.source).Steps j a u → ¬ sp.Outside u.state.pc := by
    intro a b hab
    obtain ⟨ha, -, -⟩ | ⟨t, t', ht, ht', hR⟩ | ⟨-, k, t, t', hk, hk', hR, hin, -⟩ := hs.cases hab
    · exact .inl ha
    · refine .inr ⟨0, t, t', DetMachine.steps_one ht, ⟨1, DetMachine.steps_one ht'⟩, hR, ?_⟩
      intro j u h0 h1
      omega
    · exact .inr ⟨k, t, t', hk, hk', ⟨hR, hab.2.trans ⟨k + 1, hk⟩⟩, hin⟩
  obtain ⟨n, hn⟩ := hc
  obtain ⟨c', hc', hR⟩ := DetMachine.follow hburst n ⟨h, .refl⟩ hn hout
  exact ⟨c', hc', hR.1⟩

end Simulation

end Splice

end Rv64
end Cact
