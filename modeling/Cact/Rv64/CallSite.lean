import Cact.Lowering.Precolorize
import Cact.Rv64.StackSlots

/-!
# Arguments on the stack (`rv64/isel.hpp`, `regalloc/spill.hpp`, `reg2mem.hpp`)

A caller stores the arguments that have no register into slots of eight bytes, counted
by its own `assign_arg_regs`. The callee counts the parameters that live in memory, among
them those that register allocation has spilled.

- `regToMemParams`, `spillParams`, `replaceUse`: the passes between a signature and its code.
- `CallSite`: a call and its callee, before and after register allocation.
- `CallSite.Agrees`: each argument is loaded where it was stored, and at the same width.
- `callSite_agrees_iff`: the calls that agree.
-/

namespace Cact

namespace Rv64

namespace Isel

open Ir (Ty Fault ConstexprValue Value LeftValue Alloc AllocId CallInst)

/-! ## Calls through register allocation -/

section CallSites

/-- The allocation lives in memory. -/
def toMemory (a : Alloc) : Alloc := { a with reference := true }

/-- `RegToMem`, on parameters: those without a register live in memory. -/
def regToMemParams (params : List Alloc) (regs : List (Option Nat)) : List Alloc :=
  List.zipWith (fun p reg => if reg.isNone then toMemory p else p) params regs

/-- `Spill`, on parameters. -/
def spillParams (spilled : List AllocId) (params : List Alloc) : List Alloc :=
  params.map fun p => if p.id ∈ spilled then toMemory p else p

/-- `RegisterReplacement`, on an argument: a variable with a register becomes the proxy of
the register, and keeps its type. -/
def replaceUse (color : ColorMap) (pre : Lowering.PrecolorVars) : Value → Except Fault Value
  | .const c => .ok (.const c)
  | .left v =>
    match color.lookup v.var with
    | none => .ok (.left v)
    | some r => (pre.get v.type r).map fun proxy => .left ⟨v.type, proxy.value.left.var⟩

/-- A call and its callee: the signature before register allocation, and both sides after
it, when instructions are selected. -/
structure CallSite where
  args : List Value
  params : List Alloc
  regs : List (Option Nat)
  types_eq : args.map Value.typeOf = params.map Alloc.type
  assigned : Lowering.assignArgRegs args abi = .ok regs
  /-- the parameters that register allocation spills -/
  spilled : List AllocId
  prog : Ir.Program
  color : ColorMap
  moves : List Ir.Inst
  regArgs : List Value
  colorized : Lowering.colorizeCallLoop (Lowering.mapRegisters abi prog).1 args regs =
    .ok (moves, regArgs)
  call : CallInst
  replaced : regArgs.mapM (replaceUse color (Lowering.mapRegisters abi prog).1) = .ok call.args
  caller : Ctx
  slots : List (Option Nat)
  slotted : Lowering.assignArgRegs call.args abi = .ok slots
  storable : ∀ arg ∈ call.args, Storable caller arg
  callee : Ir.Func
  lowered : callee.params = spillParams spilled (regToMemParams params regs)
  ids_nodup : ((callee.locals ++ callee.params).map Alloc.id).Nodup
  inside : Ctx
  framed : computeFrame callee = .ok inside.frame
  resolved : ∀ p ∈ callee.params, inside.alloc p.id = some p

/-- Types that have registers are scalar. -/
theorem isScalar_of_assigned {types : List Ty} {regs : List (Option Nat)}
    (h : Lowering.assignCallRegs types abi = .ok regs) : ∀ t ∈ types, IsScalar t := by
  have hstep : ∀ (types : List Ty) (s s' : Lowering.AssignState),
      types.foldlM (Lowering.assignStep abi) s = .ok s' → ∀ t ∈ types, IsScalar t := by
    intro types
    induction types with
    | nil => simp
    | cons t ts ih =>
      intro s s' hs
      rw [List.foldlM_cons] at hs
      obtain ⟨s₁, h₁, h₂⟩ := Except.bind_eq_ok.mp hs
      refine List.forall_mem_cons.mpr ⟨?_, ih s₁ s' h₂⟩
      by_contra hscalar
      rw [IsScalar, not_or, Bool.not_eq_true, Bool.not_eq_true] at hscalar
      simp only [Lowering.assignStep, hscalar] at h₁
      cases h₁
  rw [Lowering.assignCallRegs] at h
  obtain ⟨s, hs, -⟩ := map_eq_ok h
  exact hstep types _ _ hs

/-- What `mapM` makes of an element. -/
theorem mapM_getElem? {α β : Type} {f : α → Except Fault β} {as : List α} {bs : List β}
    (h : as.mapM f = .ok bs) {i : Nat} {a : α} (ha : as[i]? = some a) :
    ∃ b, bs[i]? = some b ∧ f a = .ok b := by
  induction as generalizing bs i with
  | nil => cases ha
  | cons x as ih =>
    rw [List.mapM_cons] at h
    obtain ⟨b, hb, h⟩ := Except.bind_eq_ok.mp h
    obtain ⟨rest, hrest, h⟩ := Except.bind_eq_ok.mp h
    cases h
    cases i with
    | zero =>
      cases ha
      exact ⟨b, rfl, hb⟩
    | succ i => exact ih hrest ha

/-- `colorize_call` leaves an argument without register as it is, and puts the proxy in
the place of another one. -/
theorem colorizeCallLoop_getElem? {pre : Lowering.PrecolorVars} {args args' : List Value}
    {regs : List (Option Nat)} {moves : List Ir.Inst}
    (h : Lowering.colorizeCallLoop pre args regs = .ok (moves, args')) {i : Nat} {a : Value}
    (ha : args[i]? = some a) :
    (regs[i]? = some none ∧ args'[i]? = some a) ∨
      ∃ r proxy, regs[i]? = some (some r) ∧ pre.get a.typeOf r = .ok proxy ∧
        args'[i]? = some (.left proxy.value.left) := by
  induction args generalizing args' regs moves i with
  | nil => cases ha
  | cons x args ih =>
    cases regs with
    | nil => cases h
    | cons reg regs =>
      cases reg with
      | none =>
        obtain ⟨⟨ms, as⟩, hrest, h⟩ := Except.bind_eq_ok.mp h
        cases h
        cases i with
        | zero =>
          cases ha
          exact .inl ⟨rfl, rfl⟩
        | succ i => exact ih hrest ha
      | some r =>
        obtain ⟨proxy, hproxy, h⟩ := Except.bind_eq_ok.mp h
        obtain ⟨⟨ms, as⟩, hrest, h⟩ := Except.bind_eq_ok.mp h
        cases h
        cases i with
        | zero =>
          cases ha
          exact .inr ⟨r, proxy, rfl, hproxy, rfl⟩
        | succ i => exact ih hrest ha

theorem mapM_length {α β : Type} {f : α → Except Fault β} {as : List α} {bs : List β}
    (h : as.mapM f = .ok bs) : bs.length = as.length := by
  induction as generalizing bs with
  | nil =>
    cases h
    rfl
  | cons x as ih =>
    rw [List.mapM_cons] at h
    obtain ⟨b, -, h⟩ := Except.bind_eq_ok.mp h
    obtain ⟨rest, hrest, h⟩ := Except.bind_eq_ok.mp h
    cases h
    exact congrArg (· + 1) (ih hrest)

theorem colorizeCallLoop_length {pre : Lowering.PrecolorVars} {args args' : List Value}
    {regs : List (Option Nat)} {moves : List Ir.Inst}
    (h : Lowering.colorizeCallLoop pre args regs = .ok (moves, args')) :
    args'.length = args.length := by
  induction args generalizing args' regs moves with
  | nil =>
    cases h
    rfl
  | cons x args ih =>
    cases regs with
    | nil => cases h
    | cons reg regs =>
      cases reg with
      | none =>
        obtain ⟨⟨ms, as⟩, hrest, h⟩ := Except.bind_eq_ok.mp h
        cases h
        exact congrArg (· + 1) (ih hrest)
      | some r =>
        obtain ⟨proxy, -, h⟩ := Except.bind_eq_ok.mp h
        obtain ⟨⟨ms, as⟩, hrest, h⟩ := Except.bind_eq_ok.mp h
        cases h
        exact congrArg (· + 1) (ih hrest)

theorem replaceUse_typeOf {color : ColorMap} {pre : Lowering.PrecolorVars} {v w : Value}
    (h : replaceUse color pre v = .ok w) : w.typeOf = v.typeOf := by
  cases v with
  | const c =>
    cases h
    rfl
  | left v =>
    simp only [replaceUse] at h
    split at h
    · cases h
      rfl
    · obtain ⟨proxy, -, rfl⟩ := map_eq_ok h
      rfl

theorem countP_take {α : Type} (p : α → Bool) (l : List α) (i : Nat) :
    (l.take i).countP p = (List.range i).countP fun j => (l[j]?).any p := by
  induction i with
  | zero => rfl
  | succ i ih =>
    rw [List.take_add_one, List.countP_append, ih, List.range_succ, List.countP_append]
    cases hi : l[i]? <;> simp [List.countP_cons, hi]

/-- Of two predicates one of which implies the other, the same number of elements has both
exactly when they agree. -/
theorem countP_eq_iff {α : Type} {p q : α → Bool} {l : List α} (h : ∀ x ∈ l, p x = true → q x = true) :
    l.countP p = l.countP q ↔ ∀ x ∈ l, q x = true → p x = true := by
  induction l with
  | nil => simp
  | cons x l ih =>
    have htail := ih fun y hy => h y (List.mem_cons_of_mem _ hy)
    have hle : l.countP p ≤ l.countP q :=
      List.countP_mono_left fun y hy => h y (List.mem_cons_of_mem _ hy)
    have hhead := h x List.mem_cons_self
    rw [List.forall_mem_cons, ← htail]
    cases hp : p x <;> cases hq : q x
    · simp [hp, hq]
    · simp [hp, hq]
      omega
    · simp [hp, hq] at hhead
    · simp [hp, hq]

namespace CallSite

variable {env : Env} (c : CallSite)

/-- The arguments that instruction selection sees, with the registers it finds for them. -/
def slotArgs : List (Value × Option Nat) := c.call.args.zip c.slots

/-- The instructions of the call sequence that belong to the argument `i`. -/
def argCode (pool : List FloatLiteral) (i : Nat) : List Inst := slotCode c.caller pool 0 c.slotArgs i

/-- The call sequence is the code of its arguments and the call. -/
theorem translateCall_code {pool : List FloatLiteral} {r : List Inst × List FloatLiteral}
    (h : translateCall c.caller pool c.call = .ok r) :
    ∃ name, r.1 = (List.range c.slotArgs.length).flatMap (c.argCode pool) ++
      [.pseudoJ ⟨.call, name⟩] := by
  obtain ⟨regs, hregs, h⟩ := Except.bind_eq_ok.mp h
  rw [c.slotted] at hregs
  cases hregs
  obtain ⟨name, -, h⟩ := Except.bind_eq_ok.mp h
  cases h
  exact ⟨name, congrArg (· ++ _) (stackArgs_eq_flatMap c.slotArgs pool 0)⟩

/-- Every argument that has no register is stored where the callee loads it from, and at
the same width. The stack pointer of the callee is that of the caller less its frame. -/
def Agrees (env : Env) (pool : List FloatLiteral) : Prop :=
  ∀ i p, c.callee.params[i]? = some p → c.regs[i]? = some none →
    ∃ off w, AccessesStack env (c.argCode pool i) off w ∧
      ∀ rd pool', ∃ load, translateLoad c.inside pool' rd (.left p.value.left) = .ok (load, pool') ∧
        AccessesStack env load (BitVec.ofNat 64 c.inside.frame.totalSize + off) w

/-- The slot of the argument `i`: both sides count the same arguments in front of it, and
an integer constant fills its slot. -/
structure SlotAgrees (i : Nat) (p : Alloc) : Prop where
  stored : c.slots[i]? = some none
  offset : slotOffset (slotRank c.slotArgs i) = BitVec.ofNat 64 (8 * memoryRank c.callee.params i)
  width : ∀ k, c.call.args[i]? = some (.const k) → (extractImm k).isSome → typeWidth p.type = 8

/-- An argument at instruction selection: it has the type it had where it has no register,
and that of a proxy elsewhere. -/
theorem call_arg {i : Nat} {a : Value} (ha : c.args[i]? = some a) :
    ∃ b, c.call.args[i]? = some b ∧ ((c.regs[i]? = some none ∧ b.typeOf = a.typeOf) ∨
      ∃ r proxy, c.regs[i]? = some (some r) ∧
        (Lowering.mapRegisters abi c.prog).1.get a.typeOf r = .ok proxy ∧
          b.typeOf = proxy.value.type) := by
  rcases colorizeCallLoop_getElem? c.colorized ha with ⟨hnone, ha'⟩ | ⟨r, proxy, hr, hproxy, ha'⟩
  · obtain ⟨b, hb, hreplace⟩ := mapM_getElem? c.replaced ha'
    exact ⟨b, hb, .inl ⟨hnone, replaceUse_typeOf hreplace⟩⟩
  · obtain ⟨b, hb, hreplace⟩ := mapM_getElem? c.replaced ha'
    exact ⟨b, hb, .inr ⟨r, proxy, hr, hproxy, replaceUse_typeOf hreplace⟩⟩

/-- A parameter at instruction selection: it lives in memory if it has no register or has
been spilled. -/
theorem callee_param {i : Nat} {p : Alloc} (hp : c.callee.params[i]? = some p) :
    ∃ p₀ reg, c.params[i]? = some p₀ ∧ c.regs[i]? = some reg ∧ p.type = p₀.type ∧
      (reg = none → p.reference = true) := by
  rw [c.lowered, spillParams, List.getElem?_map, Option.map_eq_some_iff] at hp
  obtain ⟨q, hq, rfl⟩ := hp
  rw [regToMemParams, List.getElem?_zipWith_eq_some] at hq
  obtain ⟨p₀, reg, hp₀, hreg, rfl⟩ := hq
  refine ⟨p₀, reg, hp₀, hreg, ?_, ?_⟩
  · split <;> split <;> rfl
  · rintro rfl
    show (if (toMemory p₀).id ∈ c.spilled then toMemory (toMemory p₀) else toMemory p₀).reference = _
    split <;> rfl

/-- The argument of a parameter. -/
theorem param_arg {i : Nat} {p : Alloc} (hp : c.callee.params[i]? = some p) :
    ∃ a, c.args[i]? = some a ∧ a.typeOf = p.type := by
  obtain ⟨p₀, reg, hp₀, -, htype, -⟩ := c.callee_param hp
  have ha : (c.args.map Value.typeOf)[i]? = some p₀.type := by
    rw [c.types_eq, List.getElem?_map, hp₀]
    rfl
  rw [List.getElem?_map, Option.map_eq_some_iff] at ha
  obtain ⟨a, ha, hatype⟩ := ha
  exact ⟨a, ha, hatype.trans htype.symm⟩

theorem slotArgs_getElem? {i : Nat} {b : Value} (hb : c.call.args[i]? = some b) :
    c.slotArgs[i]? = (c.slots[i]?).map fun reg => (b, reg) := by
  rw [slotArgs, List.zip, List.getElem?_zipWith, hb]
  cases c.slots[i]? <;> rfl

/-- The code of an argument that instruction selection finds a register for is empty. -/
theorem argCode_of_ne {i : Nat} {b : Value} (hb : c.call.args[i]? = some b)
    (h : c.slots[i]? ≠ some none) (pool : List FloatLiteral) : c.argCode pool i = [] := by
  have hslot := c.slotArgs_getElem? hb
  cases hreg : c.slots[i]? with
  | none => exact slotCode_of_length_le (by rw [hslot, hreg]; rfl) pool 0
  | some reg =>
    cases reg with
    | none => exact absurd hreg h
    | some r => exact slotCode_of_some (by rw [hslot, hreg]; rfl) pool 0

theorem argCode_accesses (input : env.Input) {i : Nat} {b : Value} (hb : c.call.args[i]? = some b)
    (h : c.slots[i]? = some none) (pool : List FloatLiteral) :
    AccessesStack env (c.argCode pool i) (slotOffset (slotRank c.slotArgs i))
      (storedWidth c.caller b) := by
  have hslot : c.slotArgs[i]? = some (b, none) := by
    rw [c.slotArgs_getElem? hb, h]
    rfl
  obtain ⟨pool', hcode⟩ := slotCode_of_none hslot pool 0
  rw [argCode, hcode, Nat.zero_add]
  exact stackArg_accesses input pool' _ (c.storable b (List.mem_of_getElem? hb))

theorem not_accesses_nil (off : Word) (w : Nat) : ¬AccessesStack env [] off w := by
  rintro ⟨front, last, -, -, h, -⟩
  simp at h

/-- Only an integer constant is stored at another width than that of its type. -/
theorem storedWidth_eq_iff {ctx : Ctx} {b : Value} {t : Ty} (ht : b.typeOf = t) :
    storedWidth ctx b = typeWidth t ↔
      ∀ k, b = .const k → (extractImm k).isSome → typeWidth t = 8 := by
  cases b with
  | left v =>
    have hwidth : storedWidth ctx (.left v) = typeWidth t := by
      unfold storedWidth
      cases lookupReg ctx.regs (.left v) <;> exact congrArg typeWidth ht
    simp [hwidth]
  | const k =>
    by_cases himm : (extractImm k).isSome
    · have hwidth : storedWidth ctx (.const k) = 8 := if_pos himm
      rw [hwidth]
      constructor
      · intro h _ _ _
        exact h.symm
      · intro h
        exact (h k rfl himm).symm
    · have hwidth : storedWidth ctx (.const k) = typeWidth t := (if_neg himm).trans (ht ▸ rfl)
      refine iff_of_true hwidth ?_
      rintro _ ⟨⟩ hsome
      exact absurd hsome himm

/-- Both sides of a call agree on an argument exactly when its slot does. -/
theorem agrees_iff (input : env.Input) (pool : List FloatLiteral) :
    c.Agrees env pool ↔
      ∀ i p, c.callee.params[i]? = some p → c.regs[i]? = some none → c.SlotAgrees i p := by
  have hboth (i : Nat) (p : Alloc) (hp : c.callee.params[i]? = some p)
      (hreg : c.regs[i]? = some none) : ∃ b, c.call.args[i]? = some b ∧ b.typeOf = p.type ∧
        p.reference = true ∧ IsScalar p.type := by
    obtain ⟨p₀, reg, hp₀, hreg', htype, href⟩ := c.callee_param hp
    rw [hreg] at hreg'
    cases hreg'
    obtain ⟨a, ha, hatype⟩ := c.param_arg hp
    obtain ⟨b, hb, ⟨-, hbtype⟩ | ⟨r, proxy, hr, -⟩⟩ := c.call_arg ha
    · refine ⟨b, hb, by rw [hbtype, hatype], href rfl, ?_⟩
      rw [← hatype]
      exact isScalar_of_assigned c.assigned _ (List.mem_map_of_mem (List.mem_of_getElem? ha))
    · rw [hreg] at hr
      cases hr
  constructor
  · intro h i p hp hreg
    obtain ⟨b, hb, htype, href, hscalar⟩ := hboth i p hp hreg
    obtain ⟨off, w, hstore, hload⟩ := h i p hp hreg
    have hslot : c.slots[i]? = some none := by
      by_contra hne
      rw [c.argCode_of_ne hb hne pool] at hstore
      exact not_accesses_nil _ _ hstore
    obtain ⟨rfl, rfl⟩ := hstore.unique (c.argCode_accesses input hb hslot pool)
    obtain ⟨code, hcode, hacc⟩ := hload 0 []
    obtain ⟨code', hcode', hacc'⟩ := translateLoad_param input [] 0 c.framed c.ids_nodup hp href
      (c.resolved p (List.mem_of_getElem? hp)) hscalar
    rw [hcode] at hcode'
    cases hcode'
    obtain ⟨hoff, hwidth⟩ := hacc.unique hacc'
    refine ⟨hslot, add_left_cancel hoff, fun k hk => ?_⟩
    rw [hb] at hk
    exact (storedWidth_eq_iff htype).mp hwidth k (Option.some.inj hk)
  · intro h i p hp hreg
    obtain ⟨b, hb, htype, href, hscalar⟩ := hboth i p hp hreg
    obtain ⟨hslot, hoff, hwidth⟩ := h i p hp hreg
    refine ⟨_, _, c.argCode_accesses input hb hslot pool, fun rd pool' => ?_⟩
    obtain ⟨code, hcode, hacc⟩ := translateLoad_param input pool' rd c.framed c.ids_nodup hp
      href (c.resolved p (List.mem_of_getElem? hp)) hscalar
    refine ⟨code, hcode, ?_⟩
    have hw : storedWidth c.caller b = typeWidth p.type :=
      (storedWidth_eq_iff htype).mpr fun k hk => hwidth k (hk ▸ hb)
    rw [hoff, hw]
    exact hacc

/-! ### Signatures without references -/

/-- The proxy of a register has the type of its class. -/
theorem mapRegisters_type {prog : Ir.Program} {t : Ty} {r : Nat} {proxy : Alloc}
    (h : (Lowering.mapRegisters abi prog).1.get t r = .ok proxy) :
    proxy.value.type.isPrimitive = true ∧ proxy.value.type.isFp = t.isFp := by
  have hclass : ∀ (type : Ty) (idxs : List Nat) (s : Lowering.PrecolorVars × Ir.Program),
      type.isPrimitive = true →
      (∀ e ∈ s.1.proxies, e.2.value.type.isPrimitive = true ∧ e.2.value.type.isFp = e.1.1) →
      ∀ e ∈ (idxs.foldl (Lowering.mapClass abi type) s).1.proxies,
        e.2.value.type.isPrimitive = true ∧ e.2.value.type.isFp = e.1.1 := by
    intro type idxs
    induction idxs with
    | nil => intro s _ hs; exact hs
    | cons i is ih =>
      intro s htype hs
      refine ih _ htype ?_
      intro e he
      rcases List.mem_append.mp he with he | he
      · exact hs e he
      · cases List.mem_singleton.mp he
        exact ⟨htype, rfl⟩
  have hall := hclass .floating (List.range abi.floats.size) _ rfl
    (hclass .integer (List.range abi.generals.size) (⟨[]⟩, prog) rfl (by simp))
  unfold Lowering.PrecolorVars.get at h
  split at h
  · rename_i e he
    cases h
    have hkey := List.find?_some he
    have hprim := hall e (List.mem_of_find?_eq_some he)
    simp only [beq_iff_eq] at hkey
    exact ⟨hprim.1, by rw [hprim.2, hkey]⟩
  · cases h

/-- The assignment by position depends on the classes only. -/
theorem positional_congr {types types' : List Ty}
    (h : types.map Ty.isFp = types'.map Ty.isFp) (g f : Nat) :
    Lowering.positional abi g f types = Lowering.positional abi g f types' := by
  induction types generalizing types' g f with
  | nil =>
    cases types' with
    | nil => rfl
    | cons => cases h
  | cons t ts ih =>
    cases types' with
    | nil => cases h
    | cons t' ts' =>
      obtain ⟨ht, hts⟩ := List.cons.inj h
      simp only [Lowering.positional, ht, ih hts]

/-- Without references, instruction selection finds the registers that the arguments have. -/
theorem slots_eq_regs (h : ∀ a ∈ c.args, a.typeOf.isReference = false) : c.slots = c.regs := by
  have hprim : ∀ a ∈ c.args, a.typeOf.isPrimitive = true := by
    intro a ha
    have hscalar := isScalar_of_assigned c.assigned _ (List.mem_map_of_mem ha)
    exact hscalar.resolve_right (by simp [h a ha])
  have hlen : c.call.args.length = c.args.length :=
    (mapM_length c.replaced).trans (colorizeCallLoop_length c.colorized)
  -- a register argument has become a proxy of its own class
  have hclass : ∀ (i : Nat) (b : Value), c.call.args[i]? = some b → ∃ a, c.args[i]? = some a ∧
      b.typeOf.isPrimitive = true ∧ b.typeOf.isFp = a.typeOf.isFp := by
    intro i b hb
    have hi : i < c.args.length := hlen ▸ (List.getElem?_eq_some_iff.mp hb).1
    have ha := List.getElem?_eq_getElem hi
    obtain ⟨b', hb', ⟨-, htype⟩ | ⟨r, proxy, -, hproxy, htype⟩⟩ := c.call_arg ha
    · cases hb.symm.trans hb'
      exact ⟨_, ha, htype ▸ hprim _ (List.getElem_mem hi), by rw [htype]⟩
    · cases hb.symm.trans hb'
      rw [htype]
      exact ⟨_, ha, mapRegisters_type hproxy⟩
  have hslots : c.slots = Lowering.positional abi 0 0 (c.call.args.map Value.typeOf) := by
    refine (Except.ok.inj ((Lowering.assignCallRegs_eq_positional ?_).symm.trans c.slotted)).symm
    intro t ht
    obtain ⟨b, hb, rfl⟩ := List.mem_map.mp ht
    obtain ⟨i, hi⟩ := List.getElem?_of_mem hb
    obtain ⟨a, -, hbprim, -⟩ := hclass i b hi
    exact hbprim
  have hregs : c.regs = Lowering.positional abi 0 0 (c.args.map Value.typeOf) := by
    refine (Except.ok.inj ((Lowering.assignCallRegs_eq_positional ?_).symm.trans c.assigned)).symm
    intro t ht
    obtain ⟨a, ha, rfl⟩ := List.mem_map.mp ht
    exact hprim a ha
  rw [hslots, hregs]
  refine positional_congr (List.ext_getElem (by simp [hlen]) fun i hi hi' => ?_) 0 0
  simp only [List.getElem_map]
  simp only [List.length_map] at hi hi'
  obtain ⟨a, ha, -, hfp⟩ := hclass i _ (List.getElem?_eq_getElem hi)
  rw [List.getElem?_eq_getElem hi'] at ha
  rw [hfp, Option.some.inj ha]

/-- Slots of eight bytes are told apart below the range of 32-bit offsets. -/
theorem slotOffset_eq_iff {k n : Nat} (hk : k < 2 ^ 28) (hn : n < 2 ^ 28) :
    slotOffset k = BitVec.ofNat 64 (8 * n) ↔ k = n := by
  have hval : slotOffset k = BitVec.ofNat 64 (8 * k) := by
    unfold slotOffset
    refine BitVec.eq_of_toInt_eq ?_
    rw [BitVec.toInt_signExtend_of_le (by omega), BitVec.toInt_eq_toNat_bmod,
      BitVec.toInt_eq_toNat_bmod, BitVec.toNat_ofNat, BitVec.toNat_ofNat, Int.bmod_def, Int.bmod_def]
    split <;> split <;> omega
  rw [hval]
  constructor
  · intro h
    have := congrArg BitVec.toNat h
    rw [BitVec.toNat_ofNat, BitVec.toNat_ofNat] at this
    omega
  · rintro rfl
    rfl

/-- Without references, an argument's slot is the same on both sides exactly when every
parameter in memory in front of it is on the stack. -/
theorem ranks_eq_iff (h : ∀ a ∈ c.args, a.typeOf.isReference = false) {i : Nat} {p : Alloc}
    (hp : c.callee.params[i]? = some p) :
    slotRank c.slotArgs i = memoryRank c.callee.params i ↔
      ∀ j q, j < i → c.callee.params[j]? = some q → q.reference = true → c.regs[j]? = some none := by
  have hparam : ∀ j, j < i → ∃ q, c.callee.params[j]? = some q := fun j hj =>
    ⟨_, List.getElem?_eq_getElem (hj.trans (List.getElem?_eq_some_iff.mp hp).1)⟩
  have hslot : ∀ (j : Nat) (q : Alloc), c.callee.params[j]? = some q →
      ((c.slotArgs[j]?).any (fun a => a.2.isNone) = true ↔ c.regs[j]? = some none) := by
    intro j q hq
    obtain ⟨a, ha, -⟩ := c.param_arg hq
    obtain ⟨b, hb, -⟩ := c.call_arg ha
    rw [c.slotArgs_getElem? hb, c.slots_eq_regs h]
    rcases c.regs[j]? with _ | _ | r <;> simp
  rw [slotRank, memoryRank, countP_take, countP_take, countP_eq_iff]
  · constructor
    · intro hall j q hj hq href
      refine (hslot j q hq).mp (hall j (List.mem_range.mpr hj) ?_)
      rw [hq]
      exact href
    · intro hall j hj href
      obtain ⟨q, hq⟩ := hparam j (List.mem_range.mp hj)
      rw [hq] at href
      exact (hslot j q hq).mpr (hall j q (List.mem_range.mp hj) hq href)
  · intro j hj hnone
    obtain ⟨q, hq⟩ := hparam j (List.mem_range.mp hj)
    obtain ⟨p₀, reg, -, hreg, -, href⟩ := c.callee_param hq
    have hreg' := (hslot j q hq).mp hnone
    rw [hreg, Option.some.injEq] at hreg'
    rw [hq]
    exact href hreg'

/-- No parameter that came in a register and lives in memory stands in front of one on the
stack, and no integer constant on the stack is narrower than its slot. -/
structure PlainSlots : Prop where
  spills : ∀ (i j : Nat) (q : Alloc), j < i → i < c.callee.params.length → c.regs[i]? = some none →
    c.callee.params[j]? = some q → q.reference = true → c.regs[j]? = some none
  constants : ∀ (i : Nat) (k : ConstexprValue), c.regs[i]? = some none →
    c.call.args[i]? = some (.const k) → (extractImm k).isSome → typeWidth k.type = 8

end CallSite

/-! ### Nine integers -/

/-- `int f(int, int, int, int, int, int, int, int, int)`. -/
def nineParams : List Alloc := (List.range 9).map fun i => .variable i "" .int32 none false

/-- The registers of nine integers. -/
def nineRegs : List (Option Nat) := (List.range 8).map (fun i => some (10 + i)) ++ [none]

def proxyOf (t : Ty) (i : Nat) : Value := .left ⟨t, .named (.alloc i)⟩

/-- The callee, with some parameters spilled. -/
def nineCallee (spilled : List AllocId) : Ir.Func :=
  ⟨"f", .int32, spillParams spilled (regToMemParams nineParams nineRegs), [], [], [], 0, 0⟩

/-- The call `f(%0, ..., %8)`, with `%8` in `s2`. -/
def nineCall : CallInst :=
  ⟨none, ⟨.int32, .func "f"⟩,
    (List.range 8).map (fun i => proxyOf .integer (10 + i)) ++ [proxyOf .int32 18]⟩

/-- The allocations of the callee. -/
def nineAllocs (spilled : List AllocId) (id : AllocId) : Option Alloc :=
  (nineCallee spilled).params.find? fun p => p.id == id

/-- A call with nine integers, to a function that has spilled some of its parameters. -/
def nineArgs (spilled : List AllocId)
    (ids_nodup : ((nineCallee spilled).params.map Alloc.id).Nodup)
    (resolved : ∀ p ∈ (nineCallee spilled).params, nineAllocs spilled p.id = some p) : CallSite where
  args := (List.range 9).map fun i => .left ⟨.int32, .temp i⟩
  params := nineParams
  regs := nineRegs
  types_eq := rfl
  assigned := rfl
  spilled := spilled
  prog := ⟨false, [], [], [], 0⟩
  color := [(.temp 8, 18)]
  moves := (List.range 8).map fun i =>
    Lowering.mov ⟨.integer, .named (.alloc (10 + i))⟩ (.left ⟨.int32, .temp i⟩)
  regArgs := (List.range 8).map (fun i => proxyOf .integer (10 + i)) ++ [.left ⟨.int32, .temp 8⟩]
  colorized := rfl
  call := nineCall
  replaced := rfl
  caller := ⟨fun _ => none, ⟨0, []⟩, (List.finRange 32).map fun r => (.named (.alloc r.val), r)⟩
  slots := nineRegs
  slotted := rfl
  storable := by
    have hregs : ∀ arg ∈ nineCall.args, (lookupReg ((List.finRange 32).map fun r =>
        (.named (.alloc r.val), r)) arg).isSome := by decide
    exact fun arg harg => .inl (hregs arg harg)
  callee := nineCallee spilled
  lowered := rfl
  ids_nodup := ids_nodup
  inside := ⟨nineAllocs spilled, ⟨0, placeParams (nineCallee spilled).params 0⟩, []⟩
  framed := by
    have htotal : alignTo 0 16 = 0 := by decide
    show Except.ok (FrameLayout.mk (alignTo 0 16) ([] ++ placeParams _ (alignTo 0 16))) = _
    rw [htotal]
    rfl
  resolved := resolved

end CallSites

end Isel
end Rv64
end Cact
