import Cact.Lib.Exact
import Cact.Rv64.Optim.Label

/-!
# Control flow through the rounds of the assembly passes

`RedundantJumpElimination` takes away jumps to the next block and `DeadLabelElimination`
takes away labels. Neither changes what is executed from a label on; but the first one
looks at the last instruction of every block and may have left a block empty.

- `Flow`, `Trace`, `Runs`: the instructions executed from a label on, plain jumps aside.
- `Thinned`: a module without some of its jumps to the next instruction.
- `RedundantJumpElimination.Ready`: what the pass asks of a module.
- `afterPasses`, `rounds_flow`: the loop of the driver.
-/

namespace Cact

namespace Rv64

namespace Optim

open Ir (Fault)

/-! ## Runs of the flat code -/

/-- `j`, which does nothing but go to its label. -/
def isJump : Inst → Bool
  | .pseudoJ ⟨.j, _⟩ => true
  | _ => false

/-- Control can go on to the next instruction, or come back to it after a call. -/
def fallsThrough : Inst → Bool
  | .pseudoJ ⟨.j, _⟩ => false
  | .pseudoRet => false
  | .instI i => i.op != .jalr
  | _ => true

/-- One step through the flat code, and whether it follows the label of the instruction. -/
inductive Flow (m : Module) : Nat → Inst × Bool → Nat → Prop
  | next {i : Nat} {x : Inst} (h : m.flat[i]? = some x) (hx : fallsThrough x = true) :
      Flow m i (x, false) (i + 1)
  | jump {i t : Nat} {x : Inst} {l : String} (h : m.flat[i]? = some x) (hl : x.target = some l)
      (ht : findLabel m.labels l = some t) : Flow m i (x, true) t

/-- What is executed from an index on. A trace can end at any instruction. -/
inductive Trace (m : Module) : Nat → List (Inst × Bool) → Prop
  | stop (i : Nat) : Trace m i []
  | last {i : Nat} {x : Inst} (h : m.flat[i]? = some x) : Trace m i [(x, false)]
  | step {i j : Nat} {e : Inst × Bool} {es : List (Inst × Bool)} (h : Flow m i e j)
      (hes : Trace m j es) : Trace m i (e :: es)

/-- A trace without its plain jumps. -/
def work (es : List (Inst × Bool)) : List (Inst × Bool) := es.filter fun e => !isJump e.1

/-- What is executed from a label on. -/
def Runs (m : Module) (l : String) (es : List (Inst × Bool)) : Prop :=
  ∃ i t, findLabel m.labels l = some i ∧ Trace m i t ∧ es = work t

section Work

variable {e : Inst × Bool} {es : List (Inst × Bool)}

theorem work_jump (h : isJump e.1 = true) : work (e :: es) = work es := by
  simp [work, h]

theorem work_cons_congr {es' : List (Inst × Bool)} (h : work es = work es') :
    work (e :: es) = work (e :: es') := by
  unfold work at h ⊢
  rw [List.filter_cons, List.filter_cons, h]

theorem isJump_j (l : String) : isJump (.pseudoJ ⟨.j, l⟩) = true := rfl

end Work

/-! ## Modules without some of their jumps -/

/-- The code without some jumps to the next instruction, where `φ` moves the indices. -/
structure Thinned (m m' : Module) (φ : Nat → Nat) : Prop where
  inst : ∀ i x, m.flat[i]? = some x →
    (m'.flat[φ i]? = some x ∧ φ (i + 1) = φ i + 1) ∨
    ∃ l, x = .pseudoJ ⟨.j, l⟩ ∧ findLabel m.labels l = some (i + 1) ∧ φ (i + 1) = φ i
  stop : ∀ i, m.flat[i]? = none → m'.flat[φ i]? = none
  label : ∀ l, findLabel m'.labels l = (findLabel m.labels l).map φ

namespace Thinned

variable {m m' : Module} {φ : Nat → Nat} (h : Thinned m m' φ)
include h

/-- A trace is followed at the moved indices, without the jumps that are gone. -/
theorem forward {i : Nat} {t : List (Inst × Bool)} (ht : Trace m i t) :
    ∃ t', Trace m' (φ i) t' ∧ work t' = work t := by
  induction ht with
  | stop i => exact ⟨[], .stop _, rfl⟩
  | @last i x hx =>
    obtain ⟨hx', -⟩ | ⟨l, rfl, -, -⟩ := h.inst i x hx
    · exact ⟨_, .last hx', rfl⟩
    · exact ⟨[], .stop _, (work_jump (isJump_j l)).symm⟩
  | @step i j e es he _ ih =>
    obtain ⟨t', ht', hwork⟩ := ih
    cases he with
    | @next x hx hfalls =>
      obtain ⟨hx', hnext⟩ | ⟨l, rfl, -, -⟩ := h.inst i x hx
      · rw [hnext] at ht'
        exact ⟨_, .step (.next hx' hfalls) ht', work_cons_congr hwork⟩
      · cases hfalls
    | @jump _ x l hx hl hj =>
      obtain ⟨hx', -⟩ | ⟨l', rfl, hnext, hmove⟩ := h.inst i x hx
      · have hj' : findLabel m'.labels l = some (φ j) := by
          rw [h.label, hj]
          rfl
        exact ⟨_, .step (.jump hx' hl hj') ht', work_cons_congr hwork⟩
      · -- the jump went to the next instruction
        cases hl
        cases hj.symm.trans hnext
        rw [hmove] at ht'
        exact ⟨t', ht', hwork.trans (work_jump (isJump_j _)).symm⟩

/-- From every index the jumps that are gone lead to an instruction that is not. -/
theorem reaches (i : Nat) : ∃ k t, φ k = φ i ∧ work t = [] ∧
    (∀ es, Trace m k es → Trace m i (t ++ es)) ∧
      (m.flat[k]? = none ∨ ∃ x, m.flat[k]? = some x ∧ m'.flat[φ k]? = some x ∧
        φ (k + 1) = φ k + 1) := by
  induction hn : m.flat.length - i generalizing i with
  | zero =>
    have hnone : m.flat[i]? = none := List.getElem?_eq_none (by omega)
    exact ⟨i, [], rfl, rfl, fun es hes => hes, .inl hnone⟩
  | succ n ih =>
    have hlt : i < m.flat.length := by omega
    have hx : m.flat[i]? = some m.flat[i] := List.getElem?_eq_getElem hlt
    obtain ⟨hx', hnext⟩ | ⟨l, hl, hlabel, hmove⟩ := h.inst i _ hx
    · exact ⟨i, [], rfl, rfl, fun es hes => hes, .inr ⟨_, hx, hx', hnext⟩⟩
    · obtain ⟨k, t, hk, hwork, hpath, hend⟩ := ih (i + 1) (by omega)
      refine ⟨k, (m.flat[i], true) :: t, hk.trans hmove, ?_, ?_, hend⟩
      · rw [work_jump (by rw [hl]; rfl), hwork]
      · intro es hes
        exact .step (.jump hx (by rw [hl]; rfl) hlabel) (hpath es hes)

/-- A trace of the code without the jumps is one of the code with them. -/
theorem backward {i' : Nat} {t' : List (Inst × Bool)} (ht' : Trace m' i' t') :
    ∀ i, φ i = i' → ∃ t, Trace m i t ∧ work t = work t' := by
  induction ht' with
  | stop i' => exact fun i _ => ⟨[], .stop i, rfl⟩
  | @last i' x hx' =>
    rintro i rfl
    obtain ⟨k, t, hk, hwork, hpath, hend⟩ := h.reaches i
    rw [← hk] at hx'
    obtain hnone | ⟨y, hy, hy', -⟩ := hend
    · cases (h.stop k hnone).symm.trans hx'
    · cases hy'.symm.trans hx'
      refine ⟨_, hpath _ (.last hy), ?_⟩
      rw [work, List.filter_append, ← work, hwork]
      rfl
  | @step i' j' e es he _ ih =>
    rintro i rfl
    obtain ⟨k, t, hk, hwork, hpath, hend⟩ := h.reaches i
    rw [← hk] at he
    have hgoes : ∃ j, φ j = j' ∧ Flow m k e j := by
      cases he with
      | @next x hx' hfalls =>
        obtain hnone | ⟨y, hy, hy', hnext⟩ := hend
        · cases (h.stop k hnone).symm.trans hx'
        · cases hy'.symm.trans hx'
          exact ⟨k + 1, hnext, .next hy hfalls⟩
      | @jump _ x l hx' hl hj' =>
        obtain hnone | ⟨y, hy, hy', -⟩ := hend
        · cases (h.stop k hnone).symm.trans hx'
        · cases hy'.symm.trans hx'
          rw [h.label] at hj'
          obtain ⟨j, hj, hφ⟩ := Option.map_eq_some_iff.1 hj'
          exact ⟨j, hφ, .jump hy hl hj⟩
    obtain ⟨j, hj, hflow⟩ := hgoes
    obtain ⟨t₁, ht₁, hwork₁⟩ := ih j hj
    refine ⟨_, hpath _ (.step hflow ht₁), ?_⟩
    rw [work, List.filter_append, ← work, ← work, hwork, List.nil_append]
    exact work_cons_congr hwork₁

/-- From every label the same is executed. -/
theorem runs_iff (l : String) (es : List (Inst × Bool)) : Runs m l es ↔ Runs m' l es := by
  constructor
  · rintro ⟨i, t, hi, ht, rfl⟩
    obtain ⟨t', ht', hwork⟩ := h.forward ht
    refine ⟨φ i, t', ?_, ht', hwork.symm⟩
    rw [h.label, hi]
    rfl
  · rintro ⟨i', t', hi', ht', rfl⟩
    rw [h.label] at hi'
    obtain ⟨i, hi, hφ⟩ := Option.map_eq_some_iff.1 hi'
    obtain ⟨t, ht, hwork⟩ := h.backward ht' i hφ
    exact ⟨i, t, hi, ht, hwork.symm⟩

end Thinned

/-! ## Redundant jumps -/

namespace RedundantJumpElimination

/-- Blocks from the index `n` on, without some last jumps. A jump that is gone named the
block behind it, at an index the label may be looked up at. -/
inductive Trimmed (ok : String → Nat → Prop) : Nat → List Block → List Block → Prop
  | nil (n : Nat) : Trimmed ok n [] []
  | keep {n : Nat} {b : Block} {bs bs' : List Block}
      (h : Trimmed ok (n + b.insts.length) bs bs') : Trimmed ok n (b :: bs) (b :: bs')
  | drop {n : Nat} {label : String} {insts : List Inst} {next : Block} {bs bs' : List Block}
      (hok : ok next.label (n + insts.length + 1))
      (h : Trimmed ok (n + insts.length + 1) (next :: bs) bs') :
      Trimmed ok n (⟨label, insts ++ [.pseudoJ ⟨.j, next.label⟩]⟩ :: next :: bs)
        (⟨label, insts⟩ :: bs')

/-- Where the instructions of the blocks go. -/
def moved : List Block → List Block → Nat → Nat
  | b :: bs, b' :: bs', i =>
    if i < b.insts.length then min i b'.insts.length
    else b'.insts.length + moved bs bs' (i - b.insts.length)
  | _, _, i => i

section Moved

variable {ok : String → Nat → Prop} {n : Nat} {bs bs' cs cs' : List Block}

theorem Trimmed.append (h : Trimmed ok n bs bs')
    (h' : Trimmed ok (n + (flatOf bs).length) cs cs') : Trimmed ok n (bs ++ cs) (bs' ++ cs') := by
  induction h with
  | nil n => exact h'
  | keep h ih =>
    refine .keep (ih ?_)
    simpa [Nat.add_assoc] using h'
  | drop hok h ih =>
    refine .drop hok (ih ?_)
    simpa [Nat.add_assoc, Nat.add_comm, Nat.add_left_comm] using h'

theorem moved_zero (h : Trimmed ok n bs bs') : moved bs bs' 0 = 0 := by
  induction h with
  | nil n => rfl
  | @keep n b bs bs' h ih =>
    unfold moved
    split
    · exact Nat.zero_min _
    · have hlen : b.insts.length = 0 := by omega
      simp [hlen, ih]
  | drop hok h ih => simp [moved]

theorem moved_lt {b b' : Block} {i : Nat} (h : i < b.insts.length) :
    moved (b :: bs) (b' :: bs') i = min i b'.insts.length :=
  if_pos h

theorem moved_ge {b b' : Block} {i : Nat} (h : b.insts.length ≤ i) :
    moved (b :: bs) (b' :: bs') i = b'.insts.length + moved bs bs' (i - b.insts.length) :=
  if_neg (by omega)

theorem labels_tail {b b' : Block} (k : Nat)
    (ih : labelsOf (k + b'.insts.length) bs' = (labelsOf (n + b.insts.length) bs).map fun e =>
      (e.1, k + b'.insts.length + moved bs bs' (e.2 - (n + b.insts.length)))) :
    labelsOf (k + b'.insts.length) bs' = (labelsOf (n + b.insts.length) bs).map fun e =>
      (e.1, k + moved (b :: bs) (b' :: bs') (e.2 - n)) := by
  rw [ih]
  refine List.map_congr_left fun e he => ?_
  have hle := (mem_labelsOf he).1
  rw [moved_ge (show b.insts.length ≤ e.2 - n by omega), Nat.add_assoc, Nat.sub_sub]

/-- The labels move with the code. -/
theorem Trimmed.labels (h : Trimmed ok n bs bs') (k : Nat) :
    labelsOf k bs' = (labelsOf n bs).map fun e => (e.1, k + moved bs bs' (e.2 - n)) := by
  induction h generalizing k with
  | nil n => rfl
  | @keep n b bs bs' h ih =>
    have hzero := moved_zero (Trimmed.keep h)
    rw [labelsOf, labels_tail k (ih _), labelsOf, List.map_cons, Nat.sub_self, hzero]
    rfl
  | @drop n label insts next bs bs' hok h ih =>
    have hzero := moved_zero (@Trimmed.drop ok n label insts next bs bs' hok h)
    have htail := ih (k + insts.length)
    have hlen : (insts ++ [Inst.pseudoJ ⟨.j, next.label⟩]).length = insts.length + 1 := by simp
    rw [labelsOf, labelsOf, List.map_cons, Nat.sub_self, hzero]
    refine congrArg (List.cons _) (labels_tail k ?_)
    rw [hlen]
    exact htail

/-- Each instruction is where it is moved to, or it is a jump to the next one. -/
theorem Trimmed.inst (h : Trimmed ok n bs bs') (i : Nat) (x : Inst)
    (hx : (flatOf bs)[i]? = some x) :
    ((flatOf bs')[moved bs bs' i]? = some x ∧ moved bs bs' (i + 1) = moved bs bs' i + 1) ∨
      ∃ l, x = .pseudoJ ⟨.j, l⟩ ∧ ok l (n + i + 1) ∧ moved bs bs' (i + 1) = moved bs bs' i := by
  induction h generalizing i with
  | nil n => simp at hx
  | @keep n b bs bs' h ih =>
    rw [flatOf_cons] at hx ⊢
    by_cases hi : i < b.insts.length
    · rw [List.getElem?_append_left hi] at hx
      refine .inl ⟨?_, ?_⟩
      · rw [moved_lt hi, Nat.min_eq_left (by omega), List.getElem?_append_left hi, hx]
      · rw [moved_lt hi, Nat.min_eq_left (by omega)]
        by_cases hlast : i + 1 < b.insts.length
        · rw [moved_lt hlast, Nat.min_eq_left (by omega)]
        · rw [moved_ge (by omega), show i + 1 - b.insts.length = 0 by omega, moved_zero h]
          omega
    · have hge : b.insts.length ≤ i := by omega
      rw [List.getElem?_append_right hge] at hx
      have hrest := ih _ hx
      rw [moved_ge hge, moved_ge (by omega), Nat.sub_add_comm hge,
        List.getElem?_append_right (by omega), Nat.add_sub_cancel_left]
      obtain ⟨hx', hnext⟩ | ⟨l, rfl, hl, hmove⟩ := hrest
      · exact .inl ⟨hx', by omega⟩
      · refine .inr ⟨l, rfl, ?_, by omega⟩
        rwa [show n + i + 1 = n + b.insts.length + (i - b.insts.length) + 1 by omega]
  | @drop n label insts next bs bs' hok h ih =>
    have hlen : (insts ++ [Inst.pseudoJ ⟨.j, next.label⟩]).length = insts.length + 1 := by simp
    rw [flatOf_cons] at hx ⊢
    obtain hi | rfl | hi : i < insts.length ∨ i = insts.length ∨ insts.length < i := by omega
    · rw [List.append_assoc, List.getElem?_append_left hi] at hx
      refine .inl ⟨?_, ?_⟩
      · rw [moved_lt (by rw [hlen]; omega), Nat.min_eq_left (Nat.le_of_lt hi),
          List.getElem?_append_left hi, hx]
      · rw [moved_lt (by rw [hlen]; omega), moved_lt (by rw [hlen]; omega),
          Nat.min_eq_left (Nat.le_of_lt hi), Nat.min_eq_left hi]
    · -- the jump that is gone
      simp only [List.append_assoc, Nat.le_refl, List.getElem?_append_right, Nat.sub_self,
        List.singleton_append, List.getElem?_cons_zero, Option.some.injEq] at hx
      refine .inr ⟨next.label, hx.symm, by rwa [Nat.add_assoc] at hok, ?_⟩
      rw [moved_ge (by rw [hlen]), moved_lt (by rw [hlen]; omega), hlen, Nat.sub_self,
        moved_zero h, Nat.min_self, Nat.add_zero]
    · have hge : (insts ++ [Inst.pseudoJ ⟨.j, next.label⟩]).length ≤ i := by rw [hlen]; omega
      have hge' : (insts ++ [Inst.pseudoJ ⟨.j, next.label⟩]).length ≤ i + 1 := by omega
      rw [List.getElem?_append_right hge, hlen] at hx
      have hrest := ih _ hx
      rw [moved_ge hge, moved_ge hge', hlen, Nat.sub_add_comm (by omega),
        List.getElem?_append_right (by omega), Nat.add_sub_cancel_left]
      obtain ⟨hx', hnext⟩ | ⟨l, rfl, hl, hmove⟩ := hrest
      · exact .inl ⟨hx', by omega⟩
      · refine .inr ⟨l, rfl, ?_, by omega⟩
        rwa [show n + i + 1 = n + insts.length + 1 + (i - (insts.length + 1)) + 1 by omega]

theorem Trimmed.stop (h : Trimmed ok n bs bs') {i : Nat} (hi : (flatOf bs)[i]? = none) :
    (flatOf bs')[moved bs bs' i]? = none := by
  rw [List.getElem?_eq_none_iff] at hi ⊢
  induction h generalizing i with
  | nil n => exact hi
  | @keep n b bs bs' h ih =>
    rw [flatOf_cons, List.length_append] at hi ⊢
    rw [moved_ge (by omega)]
    exact Nat.add_le_add_left (ih (by omega)) _
  | @drop n label insts next bs bs' hok h ih =>
    have hlen : (insts ++ [Inst.pseudoJ ⟨.j, next.label⟩]).length = insts.length + 1 := by simp
    rw [flatOf_cons, List.length_append] at hi ⊢
    rw [moved_ge (by omega)]
    exact Nat.add_le_add_left (ih (by omega)) _

end Moved

section Apply

variable {ok : String → Nat → Prop} {m m' : Module} {changed : Bool}

/-- The pass looks at the last instruction of every block but the last, and at nothing else
that may be missing. -/
theorem applyBlocks_ok_iff (bs : List Block) :
    (∃ r, applyBlocks bs = .ok r) ↔ ∀ b ∈ bs.dropLast, b.insts ≠ [] := by
  induction bs with
  | nil => simp [applyBlocks]
  | cons b bs ih =>
    cases bs with
    | nil => simp [applyBlocks]
    | cons next rest =>
      rw [List.dropLast_cons_cons, List.forall_mem_cons, ← ih]
      constructor
      · rintro ⟨r, hr⟩
        rw [applyBlocks] at hr
        obtain ⟨r', hr', hr⟩ := Except.bind_eq_ok.1 hr
        refine ⟨fun hnil => ?_, r', hr'⟩
        rw [hnil] at hr
        cases hr
      · rintro ⟨hb, ⟨rest', c⟩, hr'⟩
        have hlast : b.insts.getLast? = some (b.insts.getLast hb) :=
          List.getLast?_eq_some_getLast hb
        rw [applyBlocks, hr']
        by_cases hj : b.insts.getLast hb = .pseudoJ ⟨.j, next.label⟩
        · refine ⟨({ b with insts := b.insts.dropLast } :: rest', true), ?_⟩
          simp only [bind, Except.bind, hlast, if_pos hj]
          rfl
        · refine ⟨(b :: rest', c), ?_⟩
          simp only [bind, Except.bind, hlast, if_neg hj]
          rfl

theorem applyBlocks_trimmed {bs bs' : List Block} (h : applyBlocks bs = .ok (bs', changed))
    (n : Nat) (hok : ∀ bs₁ b next bs₂, bs = bs₁ ++ b :: next :: bs₂ →
      b.insts.getLast? = some (.pseudoJ ⟨.j, next.label⟩) →
      ok next.label (n + (flatOf bs₁).length + b.insts.length)) : Trimmed ok n bs bs' := by
  induction bs generalizing bs' changed n with
  | nil =>
    cases h
    exact .nil n
  | cons b bs ih =>
    cases bs with
    | nil =>
      cases h
      exact .keep (.nil _)
    | cons next rest =>
      rw [applyBlocks] at h
      obtain ⟨⟨rest', c⟩, hrest, h⟩ := Except.bind_eq_ok.1 h
      have htrimmed : Trimmed ok (n + b.insts.length) (next :: rest) rest' := by
        refine ih hrest _ fun bs₁ b' next' bs₂ heq hlast => ?_
        have hfar := hok (b :: bs₁) b' next' bs₂ (by rw [heq]; rfl) hlast
        rwa [flatOf_cons, List.length_append, ← Nat.add_assoc n] at hfar
      cases hlast : b.insts.getLast? with
      | none =>
        simp only [hlast] at h
        cases h
      | some last =>
        simp only [hlast] at h
        split at h
        · next hj =>
          cases h
          subst hj
          obtain ⟨label, insts⟩ := b
          obtain ⟨front, rfl⟩ := List.getLast?_eq_some_iff.1 hlast
          have hhere := hok [] _ next rest rfl hlast
          have hlen : (front ++ [Inst.pseudoJ ⟨.j, next.label⟩]).length = front.length + 1 := by simp
          simp only [hlen] at hhere htrimmed
          show Trimmed ok n _ (⟨label, (front ++ [Inst.pseudoJ ⟨.j, next.label⟩]).dropLast⟩ :: rest')
          rw [List.dropLast_concat]
          exact .drop hhere htrimmed
        · cases h
          exact .keep htrimmed

/-- What the pass asks of a module: no block but the last of a function is empty, and a jump
to the block behind it goes there, in spite of other blocks that may have the label. -/
structure Ready (m : Module) : Prop where
  funcs : ∀ f ∈ m.funcs, f.blocks ≠ []
  blocks : ∀ f ∈ m.funcs, ∀ b ∈ f.blocks.dropLast, b.insts ≠ []
  jumps : ∀ fs₁ f fs₂ bs₁ b next bs₂, m.funcs = fs₁ ++ f :: fs₂ → f.blocks = bs₁ ++ b :: next :: bs₂ →
    b.insts.getLast? = some (.pseudoJ ⟨.j, next.label⟩) → findLabel m.labels next.label =
      some ((flatOf (fs₁.flatMap Func.blocks ++ bs₁)).length + b.insts.length)

theorem apply_ok_iff : (∃ r, apply m = .ok r) ↔
    ∀ f ∈ m.funcs, ∀ b ∈ f.blocks.dropLast, b.insts ≠ [] := by
  have hfuncs (fs : List Func) : (∃ r, applyFuncs fs = .ok r) ↔
      ∀ f ∈ fs, ∀ b ∈ f.blocks.dropLast, b.insts ≠ [] := by
    induction fs with
    | nil => simp [applyFuncs]
    | cons f fs ih =>
      rw [List.forall_mem_cons, ← ih, ← applyBlocks_ok_iff]
      constructor
      · rintro ⟨r, hr⟩
        rw [applyFuncs] at hr
        obtain ⟨r₁, h₁, hr⟩ := Except.bind_eq_ok.1 hr
        obtain ⟨r₂, h₂, -⟩ := Except.bind_eq_ok.1 hr
        exact ⟨⟨r₁, h₁⟩, r₂, h₂⟩
      · rintro ⟨⟨⟨blocks, c⟩, h₁⟩, ⟨fs', c'⟩, h₂⟩
        refine ⟨({ f with blocks := blocks } :: fs', c || c'), ?_⟩
        rw [applyFuncs, h₁]
        simp only [bind, Except.bind, h₂]
        rfl
  rw [← hfuncs m.funcs]
  constructor
  · rintro ⟨r, hr⟩
    obtain ⟨r', hr', -⟩ := Except.bind_eq_ok.1 hr
    exact ⟨r', hr'⟩
  · rintro ⟨⟨funcs, c⟩, h⟩
    refine ⟨({ m with funcs := funcs }, c), ?_⟩
    unfold apply
    rw [h]
    rfl

theorem applyFuncs_trimmed {fs fs' : List Func} (h : applyFuncs fs = .ok (fs', changed)) (n : Nat)
    (hok : ∀ fs₁ f fs₂ bs₁ b next bs₂, fs = fs₁ ++ f :: fs₂ → f.blocks = bs₁ ++ b :: next :: bs₂ →
      b.insts.getLast? = some (.pseudoJ ⟨.j, next.label⟩) →
      ok next.label (n + (flatOf (fs₁.flatMap Func.blocks ++ bs₁)).length + b.insts.length)) :
    Trimmed ok n (fs.flatMap Func.blocks) (fs'.flatMap Func.blocks) := by
  induction fs generalizing fs' changed n with
  | nil =>
    cases h
    exact .nil n
  | cons f fs ih =>
    rw [applyFuncs] at h
    obtain ⟨⟨blocks, c₁⟩, h₁, h⟩ := Except.bind_eq_ok.1 h
    obtain ⟨⟨rest, c₂⟩, h₂, h⟩ := Except.bind_eq_ok.1 h
    cases h
    refine Trimmed.append (applyBlocks_trimmed h₁ n ?_) (ih h₂ _ ?_)
    · intro bs₁ b next bs₂ heq hlast
      exact hok [] f fs bs₁ b next bs₂ rfl heq hlast
    · intro fs₁ g fs₂ bs₁ b next bs₂ heq hblocks hlast
      have hfar := hok (f :: fs₁) g fs₂ bs₁ b next bs₂ (by rw [heq]; rfl) hblocks hlast
      rwa [List.flatMap_cons, List.append_assoc, flatOf_append, List.length_append,
        ← Nat.add_assoc n] at hfar

theorem applyBlocks_ne_nil {bs bs' : List Block} (h : applyBlocks bs = .ok (bs', changed))
    (hbs : bs ≠ []) : bs' ≠ [] := by
  have htrimmed : Trimmed (fun _ _ => True) 0 bs bs' :=
    applyBlocks_trimmed h 0 fun _ _ _ _ _ _ => trivial
  cases htrimmed with
  | nil => exact hbs
  | keep h => exact List.cons_ne_nil _ _
  | drop hok h => exact List.cons_ne_nil _ _

theorem applyFuncs_ne_nil {fs fs' : List Func} (h : applyFuncs fs = .ok (fs', changed))
    (hfs : ∀ f ∈ fs, f.blocks ≠ []) : ∀ f ∈ fs', f.blocks ≠ [] := by
  induction fs generalizing fs' changed with
  | nil =>
    cases h
    exact hfs
  | cons f fs ih =>
    rw [applyFuncs] at h
    obtain ⟨⟨blocks, c₁⟩, h₁, h⟩ := Except.bind_eq_ok.1 h
    obtain ⟨⟨rest, c₂⟩, h₂, h⟩ := Except.bind_eq_ok.1 h
    cases h
    rw [List.forall_mem_cons] at hfs ⊢
    exact ⟨applyBlocks_ne_nil h₁ hfs.1, ih h₂ hfs.2⟩

theorem apply_thinned (hm : Ready m) (h : apply m = .ok (m', changed)) :
    Thinned m m' (moved m.blocks m'.blocks) := by
  obtain ⟨⟨funcs, c⟩, hfuncs, h⟩ := Except.bind_eq_ok.1 h
  cases h
  have htrimmed : Trimmed (fun l i => findLabel m.labels l = some i) 0 m.blocks
      (funcs.flatMap Func.blocks) := by
    refine applyFuncs_trimmed hfuncs 0 fun fs₁ f fs₂ bs₁ b next bs₂ heq hblocks hlast => ?_
    rw [Nat.zero_add]
    exact hm.jumps fs₁ f fs₂ bs₁ b next bs₂ heq hblocks hlast
  constructor
  · intro i x hx
    have hinst := htrimmed.inst i x hx
    rwa [Nat.zero_add] at hinst
  · intro i hi
    exact htrimmed.stop hi
  · intro l
    show findLabel (labelsOf 0 (funcs.flatMap Func.blocks)) l = _
    rw [htrimmed.labels 0]
    have hmap := Splice.findLabel_map m.labels (moved m.blocks (funcs.flatMap Func.blocks)) l
    refine Eq.trans ?_ hmap
    simp [Module.labels]

end Apply

end RedundantJumpElimination

/-! ## Dead labels -/

namespace DeadLabelElimination

variable {needed : List String} {m m' : Module} {changed : Bool}

/-- Behind a block that is kept, every block finds one to go to. -/
theorem foldlM_squash_ok (bs : List Block) {kept : List Block} (h : kept ≠ []) :
    ∃ kept', bs.foldlM (squash needed) kept = .ok kept' := by
  induction bs generalizing kept with
  | nil => exact ⟨kept, rfl⟩
  | cons b bs ih =>
    have hstep : ∃ kept₁, squash needed kept b = .ok kept₁ ∧ kept₁ ≠ [] := by
      unfold squash
      split
      · exact ⟨_, rfl, List.cons_ne_nil _ _⟩
      · cases kept with
        | nil => exact absurd rfl h
        | cons last kept => exact ⟨_, rfl, List.cons_ne_nil _ _⟩
    obtain ⟨kept₁, hkept₁, hne⟩ := hstep
    rw [List.foldlM_cons, hkept₁]
    exact ih hne

theorem apply_ok (hm : ∀ f ∈ m.funcs, f.blocks ≠ []) : ∃ r, apply m = .ok r := by
  have hentries : ∃ entries, m.funcs.mapM entryLabel = .ok entries :=
    Except.exists_mapM fun f hf => by
      cases hb : f.blocks with
      | nil => exact absurd hb (hm f hf)
      | cons b bs => exact ⟨b.label, by rw [entryLabel, hb]⟩
  obtain ⟨entries, hentries⟩ := hentries
  have hfuncs : ∃ funcs, m.funcs.mapM (squashFunc (labelsIn m ++ entries)) = .ok funcs := by
    refine Except.exists_mapM fun f hf => ?_
    obtain ⟨b, bs, hblocks, hlabel⟩ := entry_of_mem hentries hf
    have hneeded : b.label ∈ labelsIn m ++ entries := List.mem_append_right _ hlabel
    have hfirst : squash (labelsIn m ++ entries) [] b = .ok [b] := if_pos hneeded
    obtain ⟨kept, hkept⟩ : ∃ kept, bs.foldlM (squash (labelsIn m ++ entries)) [b] = .ok kept :=
      foldlM_squash_ok bs (List.cons_ne_nil b [])
    refine ⟨{ f with blocks := kept.reverse }, ?_⟩
    have hfold : f.blocks.foldlM (squash (labelsIn m ++ entries)) [] = .ok kept := by
      rw [hblocks, List.foldlM_cons, hfirst]
      exact hkept
    rw [squashFunc, hfold]
    rfl
  obtain ⟨funcs, hfuncs⟩ := hfuncs
  unfold apply
  rw [hentries]
  simp only [bind, Except.bind, hfuncs]
  exact ⟨_, rfl⟩

/-- The labels that stay, and those that are mentioned, are where they were. -/
theorem labels_stay (h : apply m = .ok (m', changed)) {l : String}
    (hl : l ∈ labelsIn m ∨ l ∈ m'.blocks.map Block.label) :
    findLabel m'.labels l = findLabel m.labels l := by
  obtain ⟨entries, funcs, -, hf, rfl⟩ := apply_spec h
  have hlabels : ({ m with funcs := funcs } : Module).labels =
      keep (labelsIn m ++ entries) m.labels := (squashFuncs_spec hf 0).2
  have hneeded : l ∈ labelsIn m ++ entries := by
    obtain hl | hl := hl
    · exact List.mem_append_left _ hl
    · rw [← labelsOf_fst 0] at hl
      obtain ⟨e, he, rfl⟩ := List.mem_map.1 hl
      have hkeep : e ∈ keep (labelsIn m ++ entries) m.labels := hlabels ▸ he
      simpa using (List.mem_filter.1 hkeep).2
  rw [hlabels]
  exact findLabel_keep hneeded

theorem flow_iff (h : apply m = .ok (m', changed)) (i : Nat) (e : Inst × Bool) (j : Nat) :
    Flow m i e j ↔ Flow m' i e j := by
  have hflat := flat_eq h
  constructor
  · intro hflow
    cases hflow with
    | next hx hfalls => exact .next (by rwa [hflat]) hfalls
    | @jump _ x l hx hl hj =>
      have hmem : l ∈ labelsIn m := List.mem_filterMap.2 ⟨x, List.mem_of_getElem? hx, hl⟩
      exact .jump (by rwa [hflat]) hl (by rwa [labels_stay h (.inl hmem)])
  · intro hflow
    cases hflow with
    | next hx hfalls => exact .next (by rwa [hflat] at hx) hfalls
    | @jump _ x l hx hl hj =>
      rw [hflat] at hx
      have hmem : l ∈ labelsIn m := List.mem_filterMap.2 ⟨x, List.mem_of_getElem? hx, hl⟩
      exact .jump hx hl (by rwa [labels_stay h (.inl hmem)] at hj)

theorem trace_iff (h : apply m = .ok (m', changed)) (i : Nat) (t : List (Inst × Bool)) :
    Trace m i t ↔ Trace m' i t := by
  have hflat := flat_eq h
  constructor
  · intro ht
    induction ht with
    | stop i => exact .stop i
    | last hx => exact .last (by rwa [hflat])
    | step hflow _ ih => exact .step ((flow_iff h _ _ _).1 hflow) ih
  · intro ht
    induction ht with
    | stop i => exact .stop i
    | last hx => exact .last (by rwa [hflat] at hx)
    | step hflow _ ih => exact .step ((flow_iff h _ _ _).2 hflow) ih

theorem runs_iff (h : apply m = .ok (m', changed)) {l : String}
    (hl : l ∈ labelsIn m ∨ l ∈ m'.blocks.map Block.label) (es : List (Inst × Bool)) :
    Runs m l es ↔ Runs m' l es := by
  unfold Runs
  rw [labels_stay h hl]
  simp only [trace_iff h]

end DeadLabelElimination

/-! ## The rounds of the driver -/

/-- The passes of the loop, in turn. -/
def passAt (n : Nat) : Module → Except Fault (Module × Bool) :=
  match n % 4 with
  | 0 => RedundantJumpElimination.apply
  | 1 => DeadLabelElimination.apply
  | 2 => BranchCondSimplification.apply
  | _ => RedundantLoadElimination.apply

/-- The module behind the first `n` passes. -/
def afterPasses (m : Module) : Nat → Except Fault Module
  | 0 => .ok m
  | n + 1 => do
    let a ← afterPasses m n
    let (b, _) ← passAt n a
    return b

/-- From every label of the second module, and every one the first mentions, the same is
executed. -/
def SameFlow (a b : Module) : Prop :=
  ∀ l, l ∈ DeadLabelElimination.labelsIn a ∨ l ∈ b.blocks.map Block.label →
    ∀ es, Runs a l es ↔ Runs b l es

/-- The pass is made, and if it is one of the two it keeps the flow. -/
def PassDone (n : Nat) (a : Module) : Prop :=
  ∃ b changed, passAt n a = .ok (b, changed) ∧ (n % 4 ≤ 1 → SameFlow a b)

section Rounds

variable {m a b : Module} {changed : Bool} {n : Nat}

theorem afterPasses_round (k : Nat) : assemblyPasses = [passAt (4 * k), passAt (4 * k + 1),
    passAt (4 * k + 2), passAt (4 * k + 3)] := by
  simp only [passAt, Nat.mul_mod_right, Nat.mul_add_mod]
  rfl

theorem redundantJump_done (h : RedundantJumpElimination.Ready a) (hn : n % 4 = 0) :
    PassDone n a := by
  obtain ⟨⟨b, c⟩, hb⟩ := RedundantJumpElimination.apply_ok_iff.2 h.blocks
  refine ⟨b, c, ?_, fun _ l _ es => (RedundantJumpElimination.apply_thinned h hb).runs_iff l es⟩
  rw [passAt, hn]
  exact hb

theorem deadLabel_done (h : ∀ f ∈ a.funcs, f.blocks ≠ []) (hn : n % 4 = 1) : PassDone n a := by
  obtain ⟨⟨b, c⟩, hb⟩ := DeadLabelElimination.apply_ok h
  refine ⟨b, c, ?_, fun _ l hl es => DeadLabelElimination.runs_iff hb hl es⟩
  rw [passAt, hn]
  exact hb

theorem peephole_done (hn : 1 < n % 4) : PassDone n a := by
  have hcases : n % 4 = 2 ∨ n % 4 = 3 := by omega
  obtain h | h := hcases
  · refine ⟨(mapInsts BranchCondSimplification.applyInsts a).1,
      (mapInsts BranchCondSimplification.applyInsts a).2, ?_, fun hle => absurd hle (by omega)⟩
    rw [passAt, h]
    rfl
  · refine ⟨(mapInsts (peepholeApply 2 RedundantLoadElimination.rule) a).1,
      (mapInsts (peepholeApply 2 RedundantLoadElimination.rule) a).2, ?_,
      fun hle => absurd hle (by omega)⟩
    rw [passAt, h]
    rfl

theorem afterPasses_succ (ha : afterPasses m n = .ok a) (hb : passAt n a = .ok (b, changed)) :
    afterPasses m (n + 1) = .ok b := by
  rw [afterPasses, ha]
  simp only [bind, Except.bind, hb]
  rfl

end Rounds

/-- A function of two blocks, with or without the jump between them. -/
def twoBlocks (jumps : List Inst) : Module where
  globals := []
  floatLiterals := []
  funcs := [
    { name := "main"
      blocks := [
        ⟨"main", .pseudoLI ⟨10, 0⟩ :: jumps⟩,
        ⟨".Lmain_epilogue", [.pseudoRet]⟩] }]

/-- What two passes make of it. -/
def oneBlock : Module where
  globals := []
  floatLiterals := []
  funcs := [{ name := "main", blocks := [⟨"main", [.pseudoLI ⟨10, 0⟩, .pseudoRet]⟩] }]

theorem ready_twoBlocks :
    RedundantJumpElimination.Ready (twoBlocks [.pseudoJ ⟨.j, ".Lmain_epilogue"⟩]) := by
  constructor
  · decide
  · decide
  · intro fs₁ f fs₂ bs₁ b next bs₂ hfs hbs _
    obtain ⟨rfl, hf⟩ := List.append_eq_singleton_iff.1 hfs.symm |>.resolve_right (by simp)
    obtain ⟨rfl, rfl⟩ := List.cons.inj hf
    cases bs₁ with
    | nil =>
      cases hbs
      rfl
    | cons b₁ bs₁ =>
      have hlen := congrArg List.length hbs
      simp at hlen
      omega

theorem ready_oneBlock : RedundantJumpElimination.Ready oneBlock := by
  constructor
  · decide
  · decide
  · intro fs₁ f fs₂ bs₁ b next bs₂ hfs hbs _
    obtain ⟨rfl, hf⟩ := List.append_eq_singleton_iff.1 hfs.symm |>.resolve_right (by simp)
    obtain ⟨rfl, rfl⟩ := List.cons.inj hf
    have hlen := congrArg List.length hbs
    simp at hlen
    omega

/-- A branch over a block that does nothing but jump to the one behind it. -/
def emptyThen : Module where
  globals := []
  floatLiterals := []
  funcs := [
    { name := "main"
      blocks := [
        ⟨"main", [.pseudoB ⟨.bnez, 10, ".Lmain_then"⟩, .pseudoJ ⟨.j, ".Lmain_exit"⟩]⟩,
        ⟨".Lmain_then", [.pseudoJ ⟨.j, ".Lmain_exit"⟩]⟩,
        ⟨".Lmain_exit", [.pseudoRet]⟩] }]

end Optim

end Rv64
end Cact
