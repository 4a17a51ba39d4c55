import Cact.Rv64.Optim.Site
import Cact.Rv64.Straight

/-!
# The rule of `RedundantLoadElimination`

What a load reads from where something at least as wide has just been stored is
the low part of the stored register, extended as the load extends it.

- `loadBytes_storeBytes`, `load_store`: reading back the low bytes.
- `extract_value`: `gen_extract` computes what the load would have read.
- `burst`: the run through the window.
-/

namespace Cact

namespace Rv64

open Ir (Fault)

namespace Optim

namespace RedundantLoadElimination

/-! ## Reading back -/

theorem loadBytes_storeBytes_at (mem : Memory) (a v n w k : Nat) (h : k + n ≤ w) :
    loadBytes (storeBytes mem a w v) (a + k) n = v / 256 ^ k % 256 ^ n := by
  induction n generalizing k with
  | zero => simp [loadBytes, Nat.mod_one]
  | succ n ih =>
    have hbyte : (storeBytes mem a w v (a + k)).toNat = v / 256 ^ k % 256 := by
      unfold storeBytes
      rw [if_pos (by omega), Nat.add_sub_cancel_left]
      rfl
    rw [loadBytes, hbyte, Nat.add_assoc a k 1, ih (k + 1) (by omega), Nat.pow_succ, Nat.pow_succ,
      Nat.mul_comm (256 ^ n) 256, Nat.mod_mul, Nat.div_div_eq_div_mul]

/-- The low bytes of a number that has just been stored. -/
theorem loadBytes_storeBytes (mem : Memory) (a v : Nat) {n w : Nat} (h : n ≤ w) :
    loadBytes (storeBytes mem a w v) a n = v % 256 ^ n := by
  have h0 := loadBytes_storeBytes_at mem a v n w 0 (by omega)
  rwa [Nat.add_zero, Nat.pow_zero, Nat.div_one] at h0

/-- An access that is allowed is allowed for fewer bytes. -/
theorem checkAccess_mono {what what' : String} {addr : Word} {n w a : Nat} (h : n ≤ w)
    (hw : checkAccess what addr w = .ok a) : checkAccess what' addr n = .ok a := by
  unfold checkAccess at hw ⊢
  split at hw
  · cases hw
  · split at hw
    · cases hw
    · rename_i hlt
      cases hw
      unfold memSize at hlt
      have hsum : (addr + BitVec.ofNat 64 n).toNat = addr.toNat + n := by
        rw [BitVec.toNat_add, BitVec.toNat_ofNat]
        omega
      rw [if_neg (by unfold memSize; omega), if_neg (by unfold memSize; omega)]

/-- **Reading back**: a load from where a wider store has just been. -/
theorem load_store {mem mem' : Memory} {addr : Word} {n w v : Nat} (h : n ≤ w)
    (hs : store mem addr w v = .ok mem') : load mem' addr n = .ok (v % 256 ^ n) := by
  obtain ⟨a, ha, rfl⟩ := map_eq_ok hs
  unfold load
  rw [checkAccess_mono h ha, map_ok, loadBytes_storeBytes _ _ _ h]

/-! ## Extraction -/

theorem extract_setWidth (x : Word) (k : Nat) :
    BitVec.ofNat k (x.toNat % 2 ^ k) = x.setWidth k := by
  apply BitVec.eq_of_toNat_eq
  simp

theorem shl_shr_unsigned (x : Word) (k : Nat) (hk : k ≤ 64) :
    (x <<< (64 - k)) >>> (64 - k) = BitVec.ofNat 64 (x.toNat % 2 ^ k) := by
  ext i hi
  rw [← BitVec.getLsbD_eq_getElem, ← BitVec.getLsbD_eq_getElem, BitVec.getLsbD_ofNat,
    Nat.testBit_mod_two_pow, BitVec.testBit_toNat, BitVec.getLsbD_ushiftRight,
    BitVec.getLsbD_shiftLeft, Nat.add_sub_cancel_left]
  by_cases hik : i < k
  · simp [hi, hik, show 64 - k + i < 64 by omega]
  · simp [hik, show ¬ 64 - k + i < 64 by omega]

theorem shl_shr_signed (x : Word) (k : Nat) (h0 : 0 < k) (hk : k ≤ 64) :
    (x <<< (64 - k)).sshiftRight (64 - k) = (x.setWidth k).signExtend 64 := by
  ext i hi
  simp only [BitVec.getElem_sshiftRight, BitVec.getElem_signExtend, BitVec.getLsbD_shiftLeft,
    BitVec.msb_eq_getLsbD_last, BitVec.getLsbD_setWidth]
  by_cases hik : i < k
  · simp [hik, hi, show 64 - k + i < 64 by omega]
  · simp [hik, show ¬ 64 - k + i < 64 by omega, show k - 1 < k by omega,
      show ¬ 63 < 64 - k by omega, show 63 - (64 - k) = k - 1 by omega]

theorem genExtract_straight (op : OpI) (dst src : GeneralReg) :
    Straight dst (genExtract op dst src) := by
  cases op <;> simp [genExtract, Straight, Inst.compute?, OpI.isAlu]

theorem signExtend_zero : (0 : BitVec 32).signExtend 64 = 0 := by decide

/-- `gen_extract` computes what the load reads back. -/
theorem extract_value {op : OpI} (hop : loadWidth op ≠ 0) (dst src : GeneralReg) (ρ : RegFile) :
    effects (genExtract op dst src) ρ dst = extend op ((ρ src).toNat % 256 ^ loadWidth op) := by
  have hpow : 256 ^ loadWidth op = 2 ^ (8 * loadWidth op) := by rw [Nat.pow_mul]
  have hs48 : ((48 : BitVec 32) &&& 0x3F#32).toNat = 64 - 16 := by decide
  have hs56 : ((56 : BitVec 32) &&& 0x3F#32).toNat = 64 - 8 := by decide
  have hs32 : ((32 : BitVec 32) &&& 0x3F#32).toNat = 64 - 32 := by decide
  rw [hpow]
  cases op <;> simp only [loadWidth, ne_eq, not_true_eq_false] at hop <;>
    simp only [genExtract, effects_cons, effects_nil, effect, Inst.compute?, OpI.isAlu, if_true,
      Function.update_self, aluI, extend, loadWidth, signExtend_zero, hs32, hs48, hs56,
      Nat.reduceMul]
  case ld =>
    have hadd : ρ src + 0 = ρ src := by simp
    rw [extract_setWidth, BitVec.setWidth_eq, hadd]
  case lw =>
    have hadd : low (ρ src) + 0 = low (ρ src) := by simp
    rw [extract_setWidth, hadd, low]
  case lwu => exact shl_shr_unsigned (ρ src) 32 (by decide)
  case lb => rw [extract_setWidth, shl_shr_signed (ρ src) 8 (by decide) (by decide)]
  case lbu =>
    have hmask : (ρ src).toNat &&& 2 ^ 8 - 1 = (ρ src).toNat % 2 ^ 8 :=
      Nat.and_two_pow_sub_one_eq_mod _ 8
    have himm : ((0xff : BitVec 32).signExtend 64).toNat = 2 ^ 8 - 1 := by decide
    apply BitVec.eq_of_toNat_eq
    rw [BitVec.toNat_and, himm, hmask, BitVec.toNat_ofNat]
    omega
  case lh => rw [extract_setWidth, shl_shr_signed (ρ src) 16 (by decide) (by decide)]
  case lhu => exact shl_shr_unsigned (ρ src) 16 (by decide)

/-! ## The run through the window -/

section Burst

variable {env : Env}

theorem exec_store (img : Image) {i : InstI} (hop : storeWidth i.op ≠ 0) (s : State env) :
    exec img (.instI i) s =
      (store s.memory (s.regs i.rs1 + i.imm.signExtend 64) (storeWidth i.op)
        (s.regs i.rd).toNat).map s.setMemory := by
  obtain ⟨op, rd, rs1, imm⟩ := i
  cases op <;> simp only [storeWidth, ne_eq, not_true_eq_false] at hop <;> rfl

theorem exec_load {img : Image} {i : InstI} (hop : loadWidth i.op ≠ 0) (s : State env) :
    exec img (.instI i) s =
      (load s.memory (s.regs i.rs1 + i.imm.signExtend 64) (loadWidth i.op)).map fun v =>
        s.setReg i.rd (extend i.op v) := by
  obtain ⟨op, rd, rs1, imm⟩ := i
  cases op <;> simp only [loadWidth, ne_eq, not_true_eq_false] at hop <;> rfl

theorem writes_of_load {i : InstI} (hop : loadWidth i.op ≠ 0) : (Inst.instI i).writes = [i.rd] := by
  obtain ⟨op, rd, rs1, imm⟩ := i
  cases op <;> simp only [loadWidth, ne_eq, not_true_eq_false] at hop <;> rfl

/-- A window of the rule. -/
structure StoreLoad (w w' : List Inst) where
  st : InstI
  ld : InstI
  window_eq : w = [.instI st, .instI ld]
  window'_eq : w' = .instI st :: genExtract ld.op ld.rd st.rd
  store_width : storeWidth st.op ≠ 0
  load_width : loadWidth ld.op ≠ 0
  width_le : loadWidth ld.op ≤ storeWidth st.op
  rs1_eq : ld.rs1 = st.rs1
  imm_eq : ld.imm = st.imm

theorem storeLoad_of_rule {w w' : List Inst} (hlen : w.length = 2) (h : rule w = some w') :
    Nonempty (StoreLoad w w') := by
  unfold rule at h
  split at h
  · rename_i st ld rest
    have hrest : rest = [] := List.length_eq_zero_iff.mp (by simpa using hlen)
    subst hrest
    split at h
    · cases h
    · rename_i hw
      split at h
      · cases h
      · split at h
        · cases h
        · rename_i hle hsame
          cases h
          rw [not_or] at hw hsame
          exact ⟨⟨st, ld, rfl, rfl, hw.1, hw.2, by omega, (Decidable.not_not.mp hsame.1).symm,
            (Decidable.not_not.mp hsame.2).symm⟩⟩
  · cases h

/-- Both runs leave the window in related states. -/
theorem StoreLoad.burst (sp : Splice) (f : StoreLoad sp.window sp.window') {c c' : Conf env}
    (h : sp.Related c c') (hf : c.fault = none) (hpc : c.state.pc = sp.before.length) :
    sp.Burst c c' := by
  have hcode := f.window_eq ▸ codeAt_window sp
  have hcode' := f.window'_eq ▸ codeAt_window' sp
  have hlen : sp.window.length = 2 := congrArg List.length f.window_eq
  have hlen' : sp.window'.length = (genExtract f.ld.op f.ld.rd f.st.rd).length + 1 :=
    congrArg List.length f.window'_eq
  have hf' : c'.fault = none := h.fault_eq.trans hf
  have hpc' := h.pc_eq hpc
  rw [← hpc] at hcode
  rw [← hpc'] at hcode'
  -- both registers of the store are live
  have hreads : (Inst.instI f.st).reads = [f.st.rs1, f.st.rd] := if_neg f.store_width
  have hrs1 : c'.state.regs f.st.rs1 = c.state.regs f.st.rs1 :=
    h.live_eq _ (.read hf hcode.head (by simp [hreads]))
  have hrd : c'.state.regs f.st.rd = c.state.regs f.st.rd :=
    h.live_eq _ (.read hf hcode.head (by simp [hreads]))
  have hstep := stepConf_of_code hf hcode.head
  have hstep' := stepConf_of_code hf' hcode'.head
  have hargs : store c'.state.memory (c'.state.regs f.st.rs1 + f.st.imm.signExtend 64)
      (storeWidth f.st.op) (c'.state.regs f.st.rd).toNat =
      store c.state.memory (c.state.regs f.st.rs1 + f.st.imm.signExtend 64)
        (storeWidth f.st.op) (c.state.regs f.st.rd).toNat := by
    rw [h.memory_eq, hrs1, hrd]
  have hexec := exec_store sp.source f.store_width c.state.advance
  have hexec' := exec_store sp.target f.store_width c'.state.advance
  change _ = (store c'.state.memory (c'.state.regs f.st.rs1 + f.st.imm.signExtend 64)
    (storeWidth f.st.op) (c'.state.regs f.st.rd).toNat).map _ at hexec'
  change _ = (store c.state.memory (c.state.regs f.st.rs1 + f.st.imm.signExtend 64)
    (storeWidth f.st.op) (c.state.regs f.st.rd).toNat).map _ at hexec
  rw [hexec] at hstep
  rw [hexec', hargs] at hstep'
  cases hs : store c.state.memory (c.state.regs f.st.rs1 + f.st.imm.signExtend 64)
      (storeWidth f.st.op) (c.state.regs f.st.rd).toNat with
  | error e =>
    -- the store fails in both runs
    rw [hs] at hstep hstep'
    refine ⟨0, _, _, DetMachine.steps_one hstep, ⟨1, DetMachine.steps_one hstep'⟩, h.fail e, ?_,
      .inl (DetMachine.reachesPlus_of_step hstep')⟩
    intro j u h0 hj
    omega
  | ok m =>
    rw [hs] at hstep hstep'
    -- the load reads the low bytes of the stored register
    have hload := load_store f.width_le hs
    rw [← f.rs1_eq, ← f.imm_eq] at hload
    have hstep2 := stepConf_of_code (c := .next c.state (.ok (c.state.advance.setMemory m))) rfl
      hcode.tail.head
    rw [exec_load f.load_width] at hstep2
    change _ = some (Conf.next _ ((load m (c.state.regs f.ld.rs1 + f.ld.imm.signExtend 64)
      (loadWidth f.ld.op)).map _)) at hstep2
    rw [hload] at hstep2
    have hrun' := straight_steps _ (c := .next c'.state (.ok (c'.state.advance.setMemory m))) rfl
      hcode'.tail (genExtract_straight f.ld.op f.ld.rd f.st.rd)
    have hsteps : (machine env sp.source).Steps 2 c _ := ⟨_, hstep, _, hstep2, rfl⟩
    have hsteps' : (machine env sp.target).Steps
        ((genExtract f.ld.op f.ld.rd f.st.rd).length + 1) c' _ := ⟨_, hstep', hrun'⟩
    refine ⟨1, _, _, hsteps, ⟨_, hsteps'⟩, ?_, ?_, .inl ⟨_, hsteps'⟩⟩
    · refine h.of_window (Function.update c.state.regs f.ld.rd
        (extend f.ld.op ((c.state.regs f.st.rd).toNat % 256 ^ loadWidth f.ld.op)))
        (effects (genExtract f.ld.op f.ld.rd f.st.rd) c'.state.regs)
        (sp.before.length + sp.window.length) m (.inr (Nat.le_refl _)) ?_ ?_ ?_
      · rw [← hpc, hlen]
        rfl
      · have hmove : sp.move (sp.before.length + sp.window.length) =
            c'.state.pc + 1 + (genExtract f.ld.op f.ld.rd f.st.rd).length := by
          rw [Splice.move_ge (Nat.le_refl _) (by omega)]
          omega
        rw [hmove]
        rfl
      · intro r hr
        by_cases hrz : r = f.ld.rd
        · subst hrz
          rw [extract_value f.load_width, hrd, Function.update_self]
        · have hlive : Live sp.source c r := by
            refine .later hstep hcode.head ?_ (.later hstep2 hcode.tail.head ?_ hr)
            · simp [Inst.writes, f.store_width]
            · rw [writes_of_load f.load_width]
              simpa using hrz
          rw [effects_of_ne (genExtract_straight _ _ _) hrz, Function.update_of_ne hrz,
            h.live_eq r hlive]
    · intro j u h0 hj hu hout
      obtain rfl : j = 1 := by omega
      have hu1 := hu.det (DetMachine.steps_one hstep)
      rw [hu1] at hout
      change sp.Outside (c.state.pc + 1) at hout
      obtain hout | hout := hout <;> omega

end Burst

/-! ## The window on one state -/

section Window

variable {env : Env} {img : Image} {s : State env}

theorem straight_foldlM {x : GeneralReg} {l : List Inst} (hl : Straight x l) :
    l.foldlM (fun s i => exec img i s) s = .ok { s with regs := effects l s.regs } := by
  induction l generalizing s with
  | nil => rfl
  | cons i l ih =>
    obtain ⟨⟨v, hv⟩, hl⟩ := List.forall_mem_cons.mp hl
    rw [List.foldlM_cons, exec_compute hv]
    show l.foldlM (fun s i => exec img i s) (s.setReg x (v s.regs)) = _
    rw [ih hl, effects_cons, effect_of_compute hv]
    rfl

/-- The extraction changes one register, to what the load would have read. -/
theorem extract_setReg {op : OpI} (hop : loadWidth op ≠ 0) (dst src : GeneralReg) :
    (genExtract op dst src).foldlM (fun s i => exec img i s) s =
      .ok (s.setReg dst (extend op ((s.regs src).toNat % 256 ^ loadWidth op))) := by
  have hstraight := genExtract_straight op dst src
  rw [straight_foldlM hstraight]
  have hregs : effects (genExtract op dst src) s.regs =
      Function.update s.regs dst (extend op ((s.regs src).toNat % 256 ^ loadWidth op)) := by
    funext r
    by_cases hr : r = dst
    · rw [hr, extract_value hop, Function.update_self]
    · rw [effects_of_ne hstraight hr, Function.update_of_ne hr]
  rw [hregs]
  rfl

end Window

end RedundantLoadElimination

end Optim

end Rv64
end Cact
