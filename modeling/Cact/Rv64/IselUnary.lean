import Cact.Ir.Scopes
import Cact.Lib.StdMap
import Cact.Lowering.Precolorize
import Cact.Rv64.IselBinary

/-!
# Code of unary instructions (`rv64/isel.hpp`, `lowering/regalloc/main.hpp`)

Before instructions are selected, `RegisterReplacement` puts the proxies of registers in
the place of variables. A proxy that is read keeps the type of the variable, but one
that is written has the type of its register class, so that the widths of the emitted
instructions are no longer those of the instruction.

- `replace`, `replaceUnary`: the replacement; `replaceUnary_eq`: what it leaves.
- `Encodes`: a register holds a value of a type.
- `regCode`, `effect`: the code for an operand in a register, and what it computes.
- `regRight_iff`, `constRight_iff`: for which values that is what the instruction says, with
  the operand in a register and as a constant; `unary_right_iff`: both.
-/

namespace Cact

namespace Rv64

namespace Isel

open Ir (Ty Primitive Fault ConstexprValue Payload Value LeftValue Var UnaryInstOp UnaryInst)
open Lowering (PrecolorVars mapRegisters mapClass)

/-! ## The replacement -/

/-- `register_type`. -/
def registerType (t : Ty) : Ty := if t.isFp then .floating else .integer

/-- `replace`. -/
def replace (color : ColorMap) (pre : PrecolorVars) (v : LeftValue) (retainValtype : Bool) :
    Except Fault LeftValue :=
  match color.lookup v.var with
  | none => .ok v
  | some r => do
    let value := (← pre.get v.type r).value.left
    return if retainValtype then { value with type := v.type } else value

/-- `RegisterReplacement`, on a unary instruction. -/
def replaceUnary (color : ColorMap) (pre : PrecolorVars) (inst : UnaryInst) :
    Except Fault UnaryInst := do
  let result ← inst.result.mapM fun v => replace color pre v false
  let operand ←
    match inst.operand with
    | .left v => do pure (Value.left (← replace color pre v true))
    | .const c => pure (Value.const c)
  return ⟨inst.op, result, operand⟩

/-- The registers that instruction selection is given: those of the proxies. -/
def proxyRegs (pre : PrecolorVars) : ColorMap :=
  pre.proxies.map fun e => (e.2.value.left.var, Fin.ofNat 32 e.1.2)

section Proxies

/-- The proxies of a class, with allocations from `start` on. -/
def classProxies (type : Ty) (start k : Nat) : List ((Bool × Nat) × Ir.Alloc) :=
  (List.range k).map fun i =>
    ((type.isFp, i), .variable (start + i) ("__reg_" ++ (abi.regOf type).name i) type none false)

theorem foldl_mapClass (type : Ty) (s : PrecolorVars × Ir.Program) (k : Nat) :
    ((List.range k).foldl (mapClass abi type) s).1.proxies =
      s.1.proxies ++ classProxies type s.2.nextAlloc k ∧
    ((List.range k).foldl (mapClass abi type) s).2.nextAlloc = s.2.nextAlloc + k := by
  induction k with
  | zero => simp [classProxies]
  | succ k ih =>
    rw [List.range_succ, List.foldl_append, List.foldl_cons, List.foldl_nil]
    obtain ⟨hproxies, hnext⟩ := ih
    constructor
    · simp only [mapClass, hproxies, hnext, classProxies, List.range_succ, List.map_append,
        List.append_assoc, List.map_cons, List.map_nil]
    · show ((List.range k).foldl (mapClass abi type) s).2.nextAlloc + 1 = _
      rw [hnext]
      rfl

theorem mapRegisters_proxies (prog : Ir.Program) :
    (mapRegisters abi prog).1.proxies =
      classProxies .integer prog.nextAlloc 32 ++ classProxies .floating (prog.nextAlloc + 32) 32 := by
  have hint := foldl_mapClass .integer (⟨[]⟩, prog) 32
  have hfloat := foldl_mapClass .floating ((List.range 32).foldl (mapClass abi .integer) (⟨[]⟩, prog)) 32
  rw [hint.1, hint.2, List.nil_append] at hfloat
  exact hfloat.1

theorem proxyRegs_nodup (prog : Ir.Program) :
    ((proxyRegs (mapRegisters abi prog).1).map Prod.fst).Nodup := by
  rw [proxyRegs, mapRegisters_proxies, List.map_map]
  have hids : (classProxies .integer prog.nextAlloc 32 ++
      classProxies .floating (prog.nextAlloc + 32) 32).map (fun e => e.2.value.left.var) =
        (List.range 64).map fun i => .named (.alloc (prog.nextAlloc + i)) := by
    rw [show List.range 64 = List.range (32 + 32) from rfl, List.range_add, List.map_append,
      List.map_append, classProxies, classProxies, List.map_map, List.map_map, List.map_map]
    simp only [Function.comp_def, Ir.NamedValue.left, Ir.Alloc.value_defn, Ir.Alloc.variable,
      Nat.add_assoc]
  show ((classProxies .integer prog.nextAlloc 32 ++
      classProxies .floating (prog.nextAlloc + 32) 32).map fun e => e.2.value.left.var).Nodup
  rw [hids]
  refine List.Nodup.map (fun i j h => ?_) List.nodup_range
  simpa using h

/-- The proxy of a register has the type of the register's class. -/
theorem get_proxy (prog : Ir.Program) (t : Ty) (r : Fin 32) :
    ∃ a, (mapRegisters abi prog).1.get t r = .ok a ∧ a.value.left.type = registerType t ∧
      (proxyRegs (mapRegisters abi prog).1).lookup a.value.left.var = some r := by
  have hlt : r.val < (abi.regOf t).size := by
    unfold Lowering.TargetABI.regOf Lowering.TargetABI.regClass
    split <;> exact r.isLt
  obtain ⟨a, ha⟩ := Lowering.mapRegisters_get prog t hlt
  refine ⟨a, ha, ?_⟩
  unfold PrecolorVars.get at ha
  split at ha
  next e he =>
    cases ha
    have hkey : e.1 = (t.isFp, r.val) := by simpa using List.find?_some he
    have hmem := List.mem_of_find?_eq_some he
    constructor
    · rw [mapRegisters_proxies] at hmem
      rcases List.mem_append.1 hmem with hmem | hmem
      · obtain ⟨i, -, rfl⟩ := List.mem_map.1 hmem
        rw [registerType, ← (Prod.mk.inj hkey).1]
        rfl
      · obtain ⟨i, -, rfl⟩ := List.mem_map.1 hmem
        rw [registerType, ← (Prod.mk.inj hkey).1]
        rfl
    · refine lookup_of_mem (proxyRegs_nodup prog) (List.mem_map.2 ⟨e, hmem, ?_⟩)
      rw [hkey]
      simp
  next => cases ha

end Proxies

/-! ## What registers hold -/

/-- A register with the content `x` holds the value that the IR machine keeps as `w`. -/
def Encodes (t : Primitive) (w x : Word) : Prop :=
  match t with
  | .int1 | .int | .float64 | .float => x = w
  | .int32 => x = (low w).signExtend 64
  | .float32 => low x = low w

/-- The register `r` of the class of a type. -/
def content {env : Env} (t : Primitive) (s : State env) (r : Fin 32) : Word :=
  if Ir.Vm.isFloating t then s.fregs r else s.regs r

/-- The code for an operand of type `p` in `rs` and a result of type `q` in `rd`. -/
def regCode (op : UnaryInstOp) (p q : Primitive) (rd rs : Fin 32) : List Inst :=
  match op with
  | .mov =>
    if rd = rs then []
    else if Ir.Vm.isFloating q then [fmov .floating false rd rs]
    else [.pseudoR ⟨.mv, rd, rs⟩]
  | .neg => if Ir.Vm.isFloating q then [fmov .floating true rd rs] else [.pseudoR ⟨.neg, rd, rs⟩]
  | .not => [.pseudoR ⟨.seqz, rd, rs⟩]
  | .convert => convertReg (.prim p) (registerType (.prim q)) rd rs
  | _ => []

/-- What the code computes, from the content of the operand's register. -/
def effect (unit : FloatUnit) (op : UnaryInstOp) (p q : Primitive) (x : Word) : Word :=
  match op with
  | .mov => x
  | .neg => if Ir.Vm.isFloating q then x ^^^ 0x8000000000000000#64 else -x
  | .not => ofBool (x == 0)
  | .convert =>
    match p with
    | .int32 => (low x).signExtend 64
    | .float32 => unit.widen (low x)
    | _ => x
  | _ => x

section Code

variable {env : Env} {p q : Primitive} {rd rs : Fin 32} {s : State env}

@[simp] theorem isFp_prim : (Ty.prim p).isFp = Ir.Vm.isFloating p := by
  cases p <;> rfl

theorem isFp_registerType : (registerType (.prim p)).isFp = Ir.Vm.isFloating p := by
  cases p <;> rfl

theorem is32BitOp_registerType : is32BitOp (registerType (.prim p)) = false := by
  cases p <;> rfl

theorem isInt1_registerType : isInt1 (registerType (.prim p)) = false := by
  cases p <;> rfl

theorem fmov_registerType {negate : Bool} :
    fmov (registerType (.prim p)) negate rd rs = fmov .floating negate rd rs := by
  cases p <;> rfl

/-- The unary operators that compute. -/
def IsUnary (op : UnaryInstOp) : Prop := op = .mov ∨ op = .neg ∨ op = .not ∨ op = .convert

/-- The code that is selected after the replacement. -/
theorem translateUnary_reg {ctx : Ctx} {pool : List FloatLiteral} {op : UnaryInstOp} {x y : Var}
    (hop : IsUnary op) (hx : ctx.regs.lookup x = some rd) (hy : ctx.regs.lookup y = some rs) :
    translateUnary ctx pool ⟨op, some ⟨registerType (.prim q), x⟩, .left ⟨.prim p, y⟩⟩ =
      .ok (regCode op p q rd rs, pool) := by
  unfold translateUnary
  simp only [lookupReg, hx, isFp_registerType]
  rcases hop with rfl | rfl | rfl | rfl
  · simp only [translateMov, lookupReg, hy, regCode]
    by_cases heq : rd = rs
    · rw [if_pos heq, if_pos heq]
      rfl
    · rw [if_neg heq, if_neg heq]
      cases hq : Ir.Vm.isFloating q with
      | true =>
        rw [fmov_registerType]
        rfl
      | false => rfl
  · simp only [translateNeg, lookupReg, hy, regCode]
    cases hq : Ir.Vm.isFloating q with
    | true =>
      rw [fmov_registerType]
      rfl
    | false =>
      rw [is32BitOp_registerType]
      rfl
  · simp only [translateNot, lookupReg, hy, isInt1_registerType, regCode]
    rfl
  · simp only [translateConvert, lookupReg, hy, regCode]
    rfl

theorem signInject_self {v : Word} : signInject v v false = v := by
  apply BitVec.eq_of_getLsbD_eq
  intro i hi
  simp only [signInject, BitVec.getLsbD_or, BitVec.getLsbD_and, BitVec.getLsbD_not, BitVec.getLsbD_xor]
  cases v.getLsbD i <;> cases (BitVec.intMin 64).getLsbD i <;> simp [hi]

theorem signInject_negate {v : Word} : signInject v v true = v ^^^ 0x8000000000000000#64 := by
  have hmin : BitVec.intMin 64 = 0x8000000000000000#64 := rfl
  apply BitVec.eq_of_getLsbD_eq
  intro i hi
  simp only [signInject, hmin, BitVec.getLsbD_or, BitVec.getLsbD_and, BitVec.getLsbD_not,
    BitVec.getLsbD_xor, if_true]
  cases v.getLsbD i <;> cases (0x8000000000000000#64).getLsbD i <;> simp [hi]

theorem execAll_single {img : Image} {i : Inst} {s' : State env} (h : exec img i s = .ok s') :
    execAll img [i] s = .ok s' := by
  rw [execAll, List.foldlM_cons, h]
  rfl

theorem exec_fmov {img : Image} {negate : Bool} :
    exec img (fmov .floating negate rd rs) s =
      .ok (s.setD rd (if negate then s.fregs rs ^^^ 0x8000000000000000#64 else s.fregs rs)) := by
  cases negate with
  | true =>
    show Except.ok (s.setD rd (signInject (s.fregs rs) (s.fregs rs) true)) = _
    rw [signInject_negate]
    rfl
  | false =>
    show Except.ok (s.setD rd (signInject (s.fregs rs) (s.fregs rs) false)) = _
    rw [signInject_self]
    rfl

theorem content_setD {v : Word} (hq : Ir.Vm.isFloating q = true) :
    content q (s.setD rd v) rd = v := by
  simp [content, State.setD, hq]

theorem content_setReg {v : Word} (hq : Ir.Vm.isFloating q = false) :
    content q (s.setReg rd v) rd = v := by
  simp [content, State.setReg, hq]

theorem content_of_floating (hp : Ir.Vm.isFloating p = true) : content p s rs = s.fregs rs := by
  rw [content, if_pos hp]

theorem content_of_general (hp : Ir.Vm.isFloating p = false) : content p s rs = s.regs rs := by
  rw [content, hp]
  rfl

/-- The code leaves its effect in the register of the result. -/
def Runs (p q : Primitive) (rd rs : Fin 32) (img : Image) (s : State env) (insts : List Inst)
    (f : Word → Word) : Prop :=
  ∃ s', execAll img insts s = .ok s' ∧ content q s' rd = f (content p s rs)

theorem runs_floating {img : Image} {i : Inst} {f : Word → Word} (hp : Ir.Vm.isFloating p = true)
    (hq : Ir.Vm.isFloating q = true) (h : exec img i s = .ok (s.setD rd (f (s.fregs rs)))) :
    Runs p q rd rs img s [i] f :=
  ⟨_, execAll_single h, by rw [content_setD hq, content_of_floating hp]⟩

theorem runs_general {img : Image} {i : Inst} {f : Word → Word} (hp : Ir.Vm.isFloating p = false)
    (hq : Ir.Vm.isFloating q = false) (h : exec img i s = .ok (s.setReg rd (f (s.regs rs)))) :
    Runs p q rd rs img s [i] f :=
  ⟨_, execAll_single h, by rw [content_setReg hq, content_of_general hp]⟩

theorem runs_move (hclass : Ir.Vm.isFloating p = Ir.Vm.isFloating q) (img : Image) :
    Runs p q rd rs img s (regCode .mov p q rd rs) id := by
  unfold regCode
  by_cases heq : rd = rs
  · rw [if_pos heq]
    refine ⟨s, rfl, ?_⟩
    rw [heq, content, content, hclass]
    rfl
  · rw [if_neg heq]
    cases hq : Ir.Vm.isFloating q with
    | true => exact runs_floating (hclass.trans hq) hq exec_fmov
    | false => exact runs_general (hclass.trans hq) hq rfl

/-- The code of a conversion within a class: it is one to the wide type of the class. -/
def convertCode (p : Primitive) (rd rs : Fin 32) : List Inst :=
  match p with
  | .int32 => [.instI ⟨.addiw, rd, rs, 0⟩]
  | .int1 | .int => [.pseudoR ⟨.mv, rd, rs⟩]
  | .float32 => [.instFR ⟨.fcvtDS, .float rd, .float rs, none⟩]
  | .float64 | .float => if rd = rs then [] else [fmov .floating false rd rs]

theorem regCode_convert (hclass : Ir.Vm.isFloating p = Ir.Vm.isFloating q) :
    regCode .convert p q rd rs = convertCode p rd rs := by
  have hfmov : fmov (registerType (.prim q)) false rd rs = fmov .floating false rd rs :=
    fmov_registerType
  unfold regCode convertReg
  simp only [isFp_prim, isFp_registerType, is32BitOp_registerType, ← hclass, hfmov]
  cases p <;> rfl

theorem runs_convert (hclass : Ir.Vm.isFloating p = Ir.Vm.isFloating q) (img : Image) :
    Runs p q rd rs img s (regCode .convert p q rd rs) (effect env.float .convert p q) := by
  rw [regCode_convert hclass]
  have hmove : Runs p q rd rs img s _ id := runs_move hclass img
  cases p with
  | int1 => exact runs_general rfl hclass.symm rfl
  | int => exact runs_general rfl hclass.symm rfl
  | int32 =>
    refine runs_general rfl hclass.symm ?_
    show Except.ok (s.setReg rd ((low (s.regs rs) + 0#32).signExtend 64)) = _
    rw [BitVec.add_zero]
    rfl
  | float32 => exact runs_floating rfl hclass.symm rfl
  | float64 =>
    have hq : Ir.Vm.isFloating q = true := hclass.symm
    rw [regCode, if_pos hq] at hmove
    exact hmove
  | float =>
    have hq : Ir.Vm.isFloating q = true := hclass.symm
    rw [regCode, if_pos hq] at hmove
    exact hmove

/-- The code computes its effect, except for `NOT` on floating-point values. -/
theorem regCode_runs {op : UnaryInstOp} (hop : IsUnary op)
    (hclass : Ir.Vm.isFloating p = Ir.Vm.isFloating q)
    (hnot : op = .not → Ir.Vm.isFloating q = false) (img : Image) :
    Runs p q rd rs img s (regCode op p q rd rs) (effect env.float op p q) := by
  rcases hop with rfl | rfl | rfl | rfl
  · exact runs_move hclass img
  · cases hq : Ir.Vm.isFloating q with
    | true =>
      have heffect : effect env.float .neg p q = fun x => x ^^^ 0x8000000000000000#64 :=
        funext fun x => if_pos hq
      rw [heffect, regCode, if_pos hq]
      exact runs_floating (hclass.trans hq) hq exec_fmov
    | false =>
      have hne : ¬Ir.Vm.isFloating q = true := by simp [hq]
      have heffect : effect env.float .neg p q = fun x => -x := funext fun x => if_neg hne
      rw [heffect, regCode, if_neg hne]
      exact runs_general (hclass.trans hq) hq rfl
  · exact runs_general (hclass.trans (hnot rfl)) (hnot rfl) rfl
  · exact runs_convert hclass img

end Code

/-! ## What the instruction says -/

/-- What the IR machine computes from the word `w` of an operand of type `p`, for a result
of type `q`. -/
def irResult (float : Ir.Vm.Floats) (op : UnaryInstOp) (p q : Primitive) (w : Word) :
    Except Fault Word :=
  match op with
  | .mov | .convert => Ir.Vm.assign float (.prim q) (.prim p) w
  | _ => Ir.Vm.evalUnary float op (.prim q) ⟨.prim p, .word w⟩

theorem execUnary_result {machine : Ir.Vm.Env} {t : Ir.Vm.State machine} {sc : Ir.Vm.Scope}
    {op : UnaryInstOp} {result : Option LeftValue} {operand : Value} {p q : Primitive} {w : Word}
    (hop : IsUnary op) (hv : Ir.Vm.viewOf machine sc operand = .ok ⟨.prim p, .word w⟩)
    (ht : Ir.Vm.resultType machine sc result = .ok (.prim q)) :
    Ir.Vm.execUnary t sc ⟨op, result, operand⟩ = irResult machine.float op p q w := by
  unfold Ir.Vm.execUnary
  rw [hv, ht]
  rcases hop with rfl | rfl | rfl | rfl <;> rfl

/-- A word that the IR machine keeps for a value of the type. -/
def IsValue (p : Primitive) (w : Word) : Prop :=
  match p with
  | .int1 => w = 0 ∨ w = 1
  | _ => Ir.Vm.fit p w = w

/-- The two machines round alike. -/
structure SameRounding (float : Ir.Vm.Floats) (unit : FloatUnit) : Prop where
  widen : ∀ w, float.convert .float32 .float w = unit.widen (low w)
  narrow : ∀ w, low (float.convert .float .float32 w) = unit.narrow w

/-- When a copy of a register is the conversion from `p` to `q`. -/
def CopyCondition (unit : FloatUnit) (p q : Primitive) (w : Word) : Prop :=
  match p, q with
  | .int, .int32 => (low w).signExtend 64 = w
  | .int, .int1 => w = 0 ∨ w = 1
  | .float32, .float => False
  | .float, .float32 => low w = unit.narrow w
  | _, _ => True

/-- For which operands the code is right. -/
def UnaryCondition (unit : FloatUnit) (op : UnaryInstOp) (p q : Primitive) (w : Word) : Prop :=
  match op with
  | .neg =>
    match p with
    | .int1 => w = 0
    | .int32 => low w ≠ BitVec.intMin 32
    | .float32 => False
    | _ => True
  | .not => Ir.Vm.isFloating p = false
  | .convert =>
    match p, q with
    | .float32, .float32 => low (unit.widen (low w)) = low w
    | .float32, .float => True
    | _, _ => CopyCondition unit p q w
  | _ => CopyCondition unit p q w

section Semantics

variable {float : Ir.Vm.Floats} {unit : FloatUnit} {op : UnaryInstOp} {p q : Primitive} {w : Word}

theorem low_setWidth (v : BitVec 32) : low (v.setWidth 64) = v := by
  simp [low]

theorem low_signExtend (v : BitVec 32) : low (v.signExtend 64) = v := by
  apply BitVec.eq_of_getLsbD_eq
  intro i hi
  have h : i < 64 := by omega
  rw [low, BitVec.getLsbD_setWidth, BitVec.getLsbD_signExtend, if_pos hi]
  simp [h, hi]

theorem low_fit_int32 (v : Word) : low (Ir.Vm.fit .int32 v) = low v := by
  simp [low, Ir.Vm.fit]

theorem low_fit_float32 (v : Word) : low (Ir.Vm.fit .float32 v) = low v := by
  simp [low, Ir.Vm.fit]

/-- The sign of a double is not in the low half. -/
theorem low_flip (v : Word) : low (v ^^^ 0x8000000000000000#64) = low v := by
  rw [low, BitVec.setWidth_xor]
  simp [low]

theorem flip_ne (v : Word) : v ^^^ 0x8000000000000000#64 ≠ v := by
  simp

/-- A register holds every value. -/
theorem exists_encodes (p : Primitive) (w : Word) : ∃ x, Encodes p w x := by
  cases p with
  | int32 => exact ⟨_, rfl⟩
  | float32 => exact ⟨w, rfl⟩
  | int1 => exact ⟨w, rfl⟩
  | int => exact ⟨w, rfl⟩
  | float64 => exact ⟨w, rfl⟩
  | float => exact ⟨w, rfl⟩

/-- The pairs of types that the IR machine assigns between. -/
inductive Assigns : Primitive → Primitive → Prop
  | same (t : Primitive) : Assigns t t
  | intOfInt32 : Assigns .int32 .int
  | intOfInt1 : Assigns .int1 .int
  | int32OfInt : Assigns .int .int32
  | int1OfInt : Assigns .int .int1
  | floatOfFloat32 : Assigns .float32 .float
  | float32OfFloat : Assigns .float .float32
  | floatOfFloat64 : Assigns .float64 .float
  | float64OfFloat : Assigns .float .float64

theorem assigns_of_ok {w' : Word} (h : Ir.Vm.assignPrimitive float q p w = .ok w') :
    Assigns p q := by
  unfold Ir.Vm.assignPrimitive at h
  split at h
  next heq =>
    rw [heq]
    exact .same _
  next =>
    split at h
    all_goals first | constructor | cases h

theorem Assigns.same_class (h : Assigns p q) : Ir.Vm.isFloating p = Ir.Vm.isFloating q := by
  cases h <;> rfl

/-- The instructions of a type compute a value of its class. -/
theorem irResult_class {w' : Word} (hop : IsUnary op) (hpq : op = .neg ∨ op = .not → p = q)
    (h : irResult float op p q w = .ok w') : Ir.Vm.isFloating p = Ir.Vm.isFloating q := by
  rcases hop with rfl | rfl | rfl | rfl
  · exact (assigns_of_ok h).same_class
  · rw [hpq (.inl rfl)]
  · rw [hpq (.inr rfl)]
  · exact (assigns_of_ok h).same_class

theorem ofInt_toInt_signExtend (v : BitVec 32) : BitVec.ofInt 64 v.toInt = v.signExtend 64 := by
  rfl

theorem cast_int32_int : Ir.Vm.cast float .int32 .int w = (low w).signExtend 64 := rfl

theorem cast_int_int32 : Ir.Vm.cast float .int .int32 w = (low w).setWidth 64 := by
  show Ir.Vm.fit .int32 (BitVec.ofInt 64 w.toInt) = _
  rw [BitVec.ofInt_toInt]
  rfl

theorem cast_int1_int (h : w = 0 ∨ w = 1) : Ir.Vm.cast float .int1 .int w = w := by
  rcases h with rfl | rfl <;> rfl

theorem cast_int_int1 : Ir.Vm.cast float .int .int1 w = if w = 0 then 0 else 1 := by
  show Ir.boolWord (w.toInt != 0) = _
  by_cases h : w = 0
  · rw [if_pos h, h]
    rfl
  · rw [if_neg h]
    have hne : w.toInt ≠ 0 := fun h' => h (BitVec.eq_of_toInt_eq (by simpa using h'))
    simp [Ir.boolWord, hne]

/-- The registers that hold the value before hold the value after. -/
def Carries (p q : Primitive) (w w' : Word) (f : Word → Word) : Prop :=
  ∀ x, Encodes p w x → Encodes q w' (f x)

theorem carries_of_eq {w' v : Word} {f : Word → Word} (hp : ∀ x, Encodes p w x ↔ x = v) :
    Carries p q w w' f ↔ Encodes q w' (f v) := by
  constructor
  · intro h
    exact h v ((hp v).2 rfl)
  · intro h x hx
    rw [(hp x).1 hx]
    exact h

theorem encodes_fit (hw : IsValue p w) : Encodes p (Ir.Vm.fit p w) = Encodes p w := by
  funext x
  cases p with
  | int1 => rcases hw with rfl | rfl <;> rfl
  | int32 => rw [Encodes, Encodes, low_fit_int32]
  | float32 => rw [Encodes, Encodes, low_fit_float32]
  | int => rfl
  | float64 => rfl
  | float => rfl

theorem copy_iff {w' : Word} (hround : SameRounding float unit) (hw : IsValue p w)
    (h : Ir.Vm.assignPrimitive float q p w = .ok w') :
    Carries p q w w' id ↔ CopyCondition unit p q w := by
  cases assigns_of_ok h with
  | same =>
    have hw' : w' = Ir.Vm.fit p w := by simpa [Ir.Vm.assignPrimitive] using h.symm
    subst hw'
    have hcopy : CopyCondition unit p p w := by cases p <;> trivial
    refine iff_of_true (fun x hx => ?_) hcopy
    rw [encodes_fit hw]
    exact hx
  | intOfInt32 =>
    cases h
    rw [carries_of_eq fun x => Iff.rfl]
    exact iff_of_true cast_int32_int.symm trivial
  | intOfInt1 =>
    cases h
    rw [carries_of_eq fun x => Iff.rfl]
    exact iff_of_true (cast_int1_int hw).symm trivial
  | int32OfInt =>
    cases h
    rw [carries_of_eq fun x => Iff.rfl, cast_int_int32]
    simp only [Encodes, CopyCondition, low_setWidth, id]
    exact eq_comm
  | int1OfInt =>
    cases h
    rw [carries_of_eq fun x => Iff.rfl, cast_int_int1]
    show w = (if w = 0 then 0 else 1) ↔ w = 0 ∨ w = 1
    by_cases h0 : w = 0
    · simp [h0]
    · rw [if_neg h0]
      exact ⟨.inr, fun h => h.resolve_left h0⟩
  | floatOfFloat32 =>
    cases h
    refine iff_of_false (fun hall => ?_) id
    -- the upper half of the register is free
    have hself := hall w rfl
    have hflip := hall (w ^^^ 0x8000000000000000#64) (low_flip w)
    exact flip_ne w (hflip.trans hself.symm)
  | float32OfFloat =>
    cases h
    rw [carries_of_eq fun x => Iff.rfl]
    show low w = low (Ir.Vm.fit .float32 (float.convert .float .float32 w)) ↔ _
    rw [low_fit_float32, hround.narrow]
    rfl
  | floatOfFloat64 =>
    cases h
    rw [carries_of_eq fun x => Iff.rfl]
    exact iff_of_true rfl trivial
  | float64OfFloat =>
    cases h
    rw [carries_of_eq fun x => Iff.rfl]
    exact iff_of_true rfl trivial

theorem toInt_neg_signExtend (v : BitVec 32) :
    -(v.signExtend 64) = (-v).signExtend 64 ↔ v ≠ BitVec.intMin 32 := by
  have hext (u : BitVec 32) : (u.signExtend 64).toInt = u.toInt :=
    BitVec.toInt_signExtend_of_le (by omega)
  have hlo := BitVec.le_toInt v
  have hhi := BitVec.toInt_lt (x := v)
  constructor
  · rintro h rfl
    exact absurd h (by decide)
  · intro h
    have hne : v.toInt ≠ -2147483648 := fun hmin => h (BitVec.eq_of_toInt_eq hmin)
    refine BitVec.eq_of_toInt_eq ?_
    rw [BitVec.toInt_neg, hext, hext, BitVec.toInt_neg, Int.bmod_def, Int.bmod_def]
    omega

theorem neg_iff {w' : Word} (hw : IsValue p w) (h : irResult float .neg p p w = .ok w') :
    Carries p p w w' (effect unit .neg p p) ↔ UnaryCondition unit .neg p p w := by
  have hw' : w' = Ir.Vm.fit p (Ir.Vm.negate p (Ir.Vm.fit p w)) := by
    have hcast : Ir.Vm.cast float p p w = Ir.Vm.fit p w := if_pos rfl
    rw [← hcast]
    cases h
    rfl
  subst hw'
  cases p with
  | int1 =>
    rw [carries_of_eq fun x => Iff.rfl]
    rcases hw with rfl | rfl
    · exact iff_of_true rfl rfl
    · refine iff_of_false (fun h => ?_) (fun h => ?_)
      · exact absurd (show -(1 : Word) = Ir.Vm.fit .int1 (Ir.Vm.fit .int1 1) from h) (by decide)
      · exact absurd (show (1 : Word) = 0 from h) (by decide)
  | int32 =>
    rw [carries_of_eq fun x => Iff.rfl]
    have hlow : low (Ir.Vm.fit .int32 (Ir.Vm.negate .int32 (Ir.Vm.fit .int32 w))) = -low w := by
      rw [low_fit_int32]
      show low ((-low (Ir.Vm.fit .int32 w)).setWidth 64) = _
      rw [low_setWidth, low_fit_int32]
    show -((low w).signExtend 64) = (low _).signExtend 64 ↔ _
    rw [hlow]
    exact toInt_neg_signExtend (low w)
  | float32 =>
    refine iff_of_false (fun hall => ?_) id
    -- the sign of a double is flipped, that of the float stays
    have hself : low (w ^^^ 0x8000000000000000#64) = low _ := hall w rfl
    have hlow : low (Ir.Vm.fit .float32 (Ir.Vm.negate .float32 (Ir.Vm.fit .float32 w))) =
        low w ^^^ 0x80000000#32 := by
      rw [low_fit_float32]
      show low ((low (Ir.Vm.fit .float32 w) ^^^ 0x80000000#32).setWidth 64) = _
      rw [low_setWidth, low_fit_float32]
    rw [low_flip, hlow] at hself
    exact absurd hself.symm (by simp)
  | int =>
    rw [carries_of_eq fun x => Iff.rfl]
    exact iff_of_true rfl trivial
  | float64 =>
    rw [carries_of_eq fun x => Iff.rfl]
    exact iff_of_true rfl trivial
  | float =>
    rw [carries_of_eq fun x => Iff.rfl]
    exact iff_of_true rfl trivial

theorem convert_iff {w' : Word} (hround : SameRounding float unit) (hw : IsValue p w)
    (h : Ir.Vm.assignPrimitive float q p w = .ok w') :
    Carries p q w w' (effect unit .convert p q) ↔ UnaryCondition unit .convert p q w := by
  have hcopy := copy_iff hround hw h
  cases assigns_of_ok h with
  | same =>
    cases p with
    | int32 =>
      rw [carries_of_eq fun x => Iff.rfl]
      rw [carries_of_eq fun x => Iff.rfl] at hcopy
      have hsigned : effect unit .convert .int32 .int32 ((low w).signExtend 64) =
          (low w).signExtend 64 := by
        show (low ((low w).signExtend 64)).signExtend 64 = _
        rw [low_signExtend]
      rw [hsigned]
      exact hcopy
    | float32 =>
      have hw' : w' = Ir.Vm.fit .float32 w := by cases h; rfl
      subst hw'
      show (∀ x, low x = low w → low (unit.widen (low x)) = low (Ir.Vm.fit .float32 w)) ↔
        low (unit.widen (low w)) = low w
      rw [low_fit_float32]
      constructor
      · intro hall
        exact hall w rfl
      · intro hlow x hx
        rw [hx]
        exact hlow
    | int1 => exact hcopy
    | int => exact hcopy
    | float64 => exact hcopy
    | float => exact hcopy
  | intOfInt32 =>
    cases h
    rw [carries_of_eq fun x => Iff.rfl]
    refine iff_of_true ?_ trivial
    show (low ((low w).signExtend 64)).signExtend 64 = Ir.Vm.cast float .int32 .int w
    rw [low_signExtend]
    exact cast_int32_int.symm
  | floatOfFloat32 =>
    cases h
    refine iff_of_true (fun x hx => ?_) trivial
    show unit.widen (low x) = float.convert .float32 .float w
    rw [hround.widen, hx]
  | intOfInt1 => exact hcopy
  | int32OfInt => exact hcopy
  | int1OfInt => exact hcopy
  | float32OfFloat => exact hcopy
  | floatOfFloat64 => exact hcopy
  | float64OfFloat => exact hcopy

theorem low_eq_zero {v : Word} : low v = 0 ↔ (low v).signExtend 64 = 0 := by
  constructor
  · intro h
    rw [h]
    rfl
  · intro h
    rw [← low_signExtend (low v), h]
    rfl

theorem cast_bool (hp : Ir.Vm.isFloating p = false) (b : Bool) :
    Ir.Vm.fit p (Ir.Vm.cast float .int1 p (Ir.boolWord b)) = Ir.boolWord b := by
  cases b <;> cases p <;> first | rfl | cases hp

theorem not_carries {w' : Word} (hw : IsValue p w) (hp : Ir.Vm.isFloating p = false)
    (h : irResult float .not p p w = .ok w') :
    Carries p p w w' (effect unit .not p p) := by
  have hcast : Ir.Vm.cast float p p w = Ir.Vm.fit p w := if_pos rfl
  have hw' : w' = Ir.boolWord (Ir.Vm.cast float p .int1 (Ir.Vm.fit p w) == 0) := by
    rw [← cast_bool hp, ← hcast]
    cases h
    rfl
  subst hw'
  cases p with
  | int1 =>
    rw [carries_of_eq fun x => Iff.rfl]
    rcases hw with rfl | rfl <;> rfl
  | int =>
    rw [carries_of_eq fun x => Iff.rfl]
    show ofBool (w == 0) = Ir.boolWord (Ir.Vm.cast float .int .int1 w == 0)
    rw [cast_int_int1]
    by_cases h0 : w = 0
    · rw [if_pos h0, h0]
      rfl
    · rw [if_neg h0, beq_eq_false_iff_ne.2 h0]
      rfl
  | int32 =>
    rw [carries_of_eq fun x => Iff.rfl]
    have hbool : Ir.Vm.cast float .int32 .int1 (Ir.Vm.fit .int32 w) =
        Ir.boolWord ((low w).toInt != 0) := by
      show Ir.boolWord ((low (Ir.Vm.fit .int32 w)).toInt != 0) = _
      rw [low_fit_int32]
    rw [hbool]
    show ofBool ((low w).signExtend 64 == 0) = _
    by_cases h0 : low w = 0
    · rw [h0]
      rfl
    · have hsigned : (low w).signExtend 64 ≠ 0 := fun h => h0 (low_eq_zero.2 h)
      have hint : (low w).toInt ≠ 0 := fun h => h0 (BitVec.eq_of_toInt_eq h)
      rw [beq_eq_false_iff_ne.2 hsigned, bne_iff_ne.2 hint]
      rfl
  | float32 => cases hp
  | float64 => cases hp
  | float => cases hp

/-- The effect of the code, against what the instruction says. -/
theorem carries_iff {w' : Word} (hround : SameRounding float unit) (hop : IsUnary op)
    (hpq : op = .neg ∨ op = .not → p = q) (hnot : op = .not → Ir.Vm.isFloating p = false)
    (hw : IsValue p w) (h : irResult float op p q w = .ok w') :
    Carries p q w w' (effect unit op p q) ↔ UnaryCondition unit op p q w := by
  rcases hop with rfl | rfl | rfl | rfl
  · exact copy_iff hround hw h
  · obtain rfl := hpq (.inl rfl)
    exact neg_iff hw h
  · obtain rfl := hpq (.inr rfl)
    exact iff_of_true (not_carries hw (hnot rfl) h) (hnot rfl)
  · exact convert_iff hround hw h

/-- Where the IR machine has no result, nothing is asked of the operand. -/
theorem condition_of_error {e : Fault} (hop : IsUnary op) (hpq : op = .neg ∨ op = .not → p = q)
    (h : irResult float op p q w = .error e) : UnaryCondition unit op p q w := by
  rcases hop with rfl | rfl | rfl | rfl
  · cases p <;> cases q <;> trivial
  · obtain rfl := hpq (.inl rfl)
    cases h
  · obtain rfl := hpq (.inr rfl)
    cases h
  · cases p <;> cases q <;> trivial

end Semantics

/-! ## The code against the instruction -/

section Right

variable {machine : Ir.Vm.Env} {env : Env} {op : UnaryInstOp} {p q : Primitive} {w : Word}

/-- The registers that a variable of the type gets. -/
def Allocatable (t : Primitive) (r : Fin 32) : Prop :=
  if Ir.Vm.isFloating t then r ≠ 5 else r ∉ reservedGprs

/-- The code for an operand in a register leaves what the IR machine computes. -/
def RegRight (machine : Ir.Vm.Env) (env : Env) (op : UnaryInstOp) (p q : Primitive) (w : Word) :
    Prop :=
  ∀ (t : Ir.Vm.State machine) (sc : Ir.Vm.Scope) (x y : Var) (w' : Word),
    Ir.Vm.viewOf machine sc (.left ⟨.prim p, y⟩) = .ok ⟨.prim p, .word w⟩ →
    Ir.Vm.resultType machine sc (some ⟨.prim q, x⟩) = .ok (.prim q) →
    Ir.Vm.execUnary t sc ⟨op, some ⟨.prim q, x⟩, .left ⟨.prim p, y⟩⟩ = .ok w' →
    ∀ (prog : Ir.Program) (color : ColorMap) (rd rs : Fin 32),
      color.lookup x = some rd → color.lookup y = some rs → Allocatable q rd → Allocatable p rs →
      ∀ (alloc : Ir.AllocId → Option Ir.Alloc) (frame : FrameLayout) (pool : List FloatLiteral),
        ∃ inst insts,
          replaceUnary color (mapRegisters abi prog).1
            ⟨op, some ⟨.prim q, x⟩, .left ⟨.prim p, y⟩⟩ = .ok inst ∧
          translateUnary ⟨alloc, frame, proxyRegs (mapRegisters abi prog).1⟩ pool inst =
            .ok (insts, pool) ∧
          ∀ (img : Image) (s : State env), Encodes p w (content p s rs) →
            ∃ s', execAll img insts s = .ok s' ∧ Encodes q w' (content q s' rd)

/-- What the replacement leaves: the operand keeps its type, the result does not. -/
theorem replaceUnary_eq (prog : Ir.Program) {color : ColorMap} {x y : Var} {rd rs : Fin 32}
    (hx : color.lookup x = some rd) (hy : color.lookup y = some rs) :
    ∃ x' y', replaceUnary color (mapRegisters abi prog).1
        ⟨op, some ⟨.prim q, x⟩, .left ⟨.prim p, y⟩⟩ =
          .ok ⟨op, some ⟨registerType (.prim q), x'⟩, .left ⟨.prim p, y'⟩⟩ ∧
      (proxyRegs (mapRegisters abi prog).1).lookup x' = some rd ∧
      (proxyRegs (mapRegisters abi prog).1).lookup y' = some rs := by
  obtain ⟨a, ha, hatype, hareg⟩ := get_proxy prog (.prim q) rd
  obtain ⟨b, hb, -, hbreg⟩ := get_proxy prog (.prim p) rs
  refine ⟨a.value.left.var, b.value.left.var, ?_, hareg, hbreg⟩
  have hresult : replace color (mapRegisters abi prog).1 ⟨.prim q, x⟩ false =
      .ok ⟨registerType (.prim q), a.value.left.var⟩ := by
    rw [replace, hx, ← hatype]
    simp only [ha]
    rfl
  have hoperand : replace color (mapRegisters abi prog).1 ⟨.prim p, y⟩ true =
      .ok ⟨.prim p, b.value.left.var⟩ := by
    rw [replace, hy]
    simp only [hb]
    rfl
  rw [replaceUnary]
  simp only [Option.mapM, hresult, hoperand]
  rfl

/-- The code that is selected for an instruction, whatever its registers. -/
theorem selected (prog : Ir.Program) (p q : Primitive) {color : ColorMap} {x y : Var}
    {rd rs : Fin 32} (hop : IsUnary op) (hx : color.lookup x = some rd) (hy : color.lookup y = some rs)
    (alloc : Ir.AllocId → Option Ir.Alloc) (frame : FrameLayout) (pool : List FloatLiteral) :
    ∃ inst, replaceUnary color (mapRegisters abi prog).1
        ⟨op, some ⟨.prim q, x⟩, .left ⟨.prim p, y⟩⟩ = .ok inst ∧
      translateUnary ⟨alloc, frame, proxyRegs (mapRegisters abi prog).1⟩ pool inst =
        .ok (regCode op p q rd rs, pool) := by
  obtain ⟨x', y', hinst, hx', hy'⟩ := replaceUnary_eq prog hx hy
  refine ⟨_, hinst, ?_⟩
  generalize proxyRegs (mapRegisters abi prog).1 = regs at hx' hy' ⊢
  exact translateUnary_reg hop hx' hy'

/-- A scope with an operand of type `p` and a result of type `q`. -/
def twoSlots (p q : Primitive) (w : Word) : Ir.Vm.Scope where
  vars := fun v => if v = .temp 0 then some ⟨.prim q, 0⟩ else if v = .temp 1 then some ⟨.prim p, w⟩ else none
  globals := fun _ => none

/-- A machine all of whose registers hold one word, but for `f10`. -/
def constantState (input : env.Input) (x y : Word) : State env :=
  { zeroState input with regs := fun _ => x, fregs := fun r => if r = 10 then y else x }

theorem allocatable_ten (t : Primitive) : Allocatable t 10 := by
  unfold Allocatable
  cases t <;> decide

theorem allocatable_eleven (t : Primitive) : Allocatable t 11 := by
  unfold Allocatable
  cases t <;> decide

theorem content_constantState {input : env.Input} {x y : Word} (t : Primitive) :
    content t (constantState input x y) 11 = x := by
  cases t <;> rfl

/-- `NOT` of a floating-point value compares a general register and sets another one. -/
theorem not_runs_not {w' : Word} (hp : Ir.Vm.isFloating p = true) (input : env.Input) (img : Image) :
    ∃ y, ∀ s', execAll img (regCode .not p p 10 11) (constantState input x y) = .ok s' →
      ¬Encodes p w' (content p s' 10) := by
  refine ⟨~~~w', fun s' hexec henc => ?_⟩
  cases hexec
  rw [content, if_pos hp] at henc
  have henc : Encodes p w' (~~~w') := henc
  have hself : low (~~~w') = low w' := by
    cases p with
    | float32 => exact henc
    | float64 => exact congrArg low henc
    | float => exact congrArg low henc
    | int1 => cases hp
    | int32 => cases hp
    | int => cases hp
  rw [low, BitVec.setWidth_not (by omega)] at hself
  exact absurd hself (by simp [low])

/-- Code that is right computes what the instruction says, from every content of the
register of its operand. -/
theorem RegRight.carries {w' : Word} (hright : RegRight machine env op p q w) (hop : IsUnary op)
    (h : irResult machine.float op p q w = .ok w') (t : Ir.Vm.State machine) (input : env.Input)
    (img : Image) {x : Word} (hx : Encodes p w x) (y : Word) :
    ∃ s', execAll img (regCode op p q 10 11) (constantState input x y) = .ok s' ∧
      Encodes q w' (content q s' 10) := by
  let prog : Ir.Program := ⟨false, [], [], [], 0⟩
  let color : ColorMap := [(.temp 0, 10), (.temp 1, 11)]
  have hrd : color.lookup (.temp 0) = some 10 := rfl
  have hrs : color.lookup (.temp 1) = some 11 := rfl
  have hview : Ir.Vm.viewOf machine (twoSlots p q w) (.left ⟨.prim p, .temp 1⟩) =
      .ok ⟨.prim p, .word w⟩ := rfl
  have htype : Ir.Vm.resultType machine (twoSlots p q w) (some ⟨.prim q, .temp 0⟩) =
      .ok (.prim q) := rfl
  have hexec : Ir.Vm.execUnary t (twoSlots p q w)
      ⟨op, some ⟨.prim q, .temp 0⟩, .left ⟨.prim p, .temp 1⟩⟩ = .ok w' := by
    rw [← h]
    exact execUnary_result hop hview htype
  obtain ⟨inst, insts, hinst, hinsts, hrun⟩ := hright t (twoSlots p q w) (.temp 0) (.temp 1) w'
    hview htype hexec prog color 10 11 hrd hrs (allocatable_ten q) (allocatable_eleven p)
    (fun _ => none) ⟨0, []⟩ []
  obtain ⟨inst', hinst', hinsts'⟩ := selected prog p q hop hrd hrs (fun _ => none) ⟨0, []⟩ []
  cases hinst.symm.trans hinst'
  cases hinsts.symm.trans hinsts'
  refine hrun img (constantState input x y) ?_
  rw [content_constantState]
  exact hx

theorem regRight_iff (hround : SameRounding machine.float env.float) (hop : IsUnary op)
    (hpq : op = .neg ∨ op = .not → p = q) (hw : IsValue p w) (t : Ir.Vm.State machine)
    (input : env.Input) :
    RegRight machine env op p q w ↔ UnaryCondition env.float op p q w := by
  constructor
  · intro hright
    cases h : irResult machine.float op p q w with
    | error e => exact condition_of_error hop hpq h
    | ok w' =>
      have hclass := irResult_class hop hpq h
      have hrun (x : Word) (hx : Encodes p w x) :=
        hright.carries hop h t input ⟨[], [], []⟩ hx
      by_cases hfloating : op = .not ∧ Ir.Vm.isFloating p = true
      · -- the general registers say nothing about the floating ones
        obtain ⟨rfl, hp⟩ := hfloating
        obtain rfl := hpq (.inr rfl)
        obtain ⟨x, hx⟩ := exists_encodes p w
        obtain ⟨y, hy⟩ := not_runs_not hp input ⟨[], [], []⟩
        obtain ⟨s', hexec, henc⟩ := hrun x hx y
        exact absurd henc (hy s' hexec)
      · have hnot : op = .not → Ir.Vm.isFloating p = false := by
          intro hop'
          simpa [hop'] using hfloating
        refine (carries_iff hround hop hpq hnot hw h).1 fun x hx => ?_
        obtain ⟨s', hexec, henc⟩ := hrun x hx x
        obtain ⟨s'', hexec', heffect⟩ : Runs p q 10 11 ⟨[], [], []⟩ (constantState input x x)
            (regCode op p q 10 11) (effect env.float op p q) :=
          regCode_runs hop hclass (fun hop' => hclass ▸ hnot hop') ⟨[], [], []⟩
        cases hexec.symm.trans hexec'
        rw [heffect, content_constantState] at henc
        exact henc
  · intro hcondition t sc x y w' hview htype hexec prog color rd rs hx hy _ _ alloc frame pool
    have h : irResult machine.float op p q w = .ok w' :=
      (execUnary_result hop hview htype).symm.trans hexec
    have hclass := irResult_class hop hpq h
    have hnot : op = .not → Ir.Vm.isFloating p = false := by
      rintro rfl
      exact hcondition
    obtain ⟨inst, hinst, hinsts⟩ := selected prog p q hop hx hy alloc frame pool
    refine ⟨inst, _, hinst, hinsts, fun img s hs => ?_⟩
    obtain ⟨s', hexec, heffect⟩ : Runs p q rd rs img s _ (effect env.float op p q) :=
      regCode_runs hop hclass (fun hop' => hclass ▸ hnot hop') img
    refine ⟨s', hexec, ?_⟩
    rw [heffect]
    exact (carries_iff hround hop hpq hnot hw h).2 hcondition _ hs

end Right

/-! ## Constant operands -/

section Const

variable {machine : Ir.Vm.Env} {env : Env} {op : UnaryInstOp} {p q : Primitive} {w : Word}

/-- A constant of a primitive type, and the word that the IR machine keeps for it. -/
inductive IsConst : ConstexprValue → Primitive → Word → Prop
  | bool (b : Bool) : IsConst ⟨.prim .int1, .bool b⟩ .int1 (Ir.boolWord b)
  | int (v : BitVec 32) : IsConst ⟨.prim .int32, .int v⟩ .int32 (v.setWidth 64)
  | int64 (v : Word) : IsConst ⟨.prim .int, .int64 v⟩ .int v
  | float (v : BitVec 32) : IsConst ⟨.prim .float32, .float v⟩ .float32 (v.setWidth 64)
  | float64 (v : Word) : IsConst ⟨.prim .float64, .double v⟩ .float64 v
  | double (v : Word) : IsConst ⟨.prim .float, .double v⟩ .float v

theorem IsConst.view {c : ConstexprValue} (h : IsConst c p w) :
    Ir.Vm.viewConst c = ⟨.prim p, .word w⟩ := by
  cases h <;> rfl

theorem IsConst.isValue {c : ConstexprValue} (h : IsConst c p w) : IsValue p w := by
  cases h with
  | bool b => cases b <;> simp [IsValue, Ir.boolWord]
  | int v => simp [IsValue, Ir.Vm.fit]
  | float v => simp [IsValue, Ir.Vm.fit]
  | int64 v => rfl
  | float64 v => rfl
  | double v => rfl

/-- The memory holds the literals of the pool at their labels. -/
def HoldsPool (img : Image) (mem : Memory) (pool : List FloatLiteral) : Prop :=
  ∀ l ∈ pool,
    let addr := BitVec.ofNat 64 ((findLabel img.symbols l.label).getD 0)
    match l.value.val with
    | .float v => load mem addr 4 = .ok v.toNat
    | .double v => load mem addr 8 = .ok v.toNat
    | _ => True

/-- The code for a constant leaves what the instruction says, on every machine with the
memory. -/
def ConstRight (env : Env) (q : Primitive) (w' : Word) (img : Image) (mem : Memory)
    (insts : List Inst) (rd : Fin 32) : Prop :=
  ∀ s : State env, s.memory = mem →
    ∃ s', execAll img insts s = .ok s' ∧ Encodes q w' (content q s' rd)

/-- For which constants the code is right. There is none for a conversion, nor for an
operation on a floating-point constant. -/
def ConstCondition (unit : FloatUnit) (op : UnaryInstOp) (p q : Primitive) (w : Word) : Prop :=
  op = .convert ∨ (op ≠ .mov ∧ Ir.Vm.isFloating p = true) ∨ UnaryCondition unit op p q w

/-- The code leaves the effect on a content that encodes the constant, and every one. -/
structure Gives (env : Env) (p q : Primitive) (w : Word) (img : Image) (mem : Memory)
    (insts : List Inst) (rd : Fin 32) (f : Word → Word) : Prop where
  run : ∀ s : State env, s.memory = mem → ∃ x s', Encodes p w x ∧
    execAll img insts s = .ok s' ∧ content q s' rd = f x
  every : ∀ x, Encodes p w x → ∃ s s' : State env, s.memory = mem ∧
    execAll img insts s = .ok s' ∧ content q s' rd = f x

theorem Gives.right_iff {w' : Word} {img : Image} {mem : Memory} {insts : List Inst}
    {rd : Fin 32} {f : Word → Word} (h : Gives env p q w img mem insts rd f) :
    ConstRight env q w' img mem insts rd ↔ Carries p q w w' f := by
  constructor
  · intro hright x hx
    obtain ⟨s, s', hmem, hexec, hcontent⟩ := h.every x hx
    obtain ⟨s'', hexec', henc⟩ := hright s hmem
    cases hexec.symm.trans hexec'
    rw [← hcontent]
    exact henc
  · intro hcarries s hmem
    obtain ⟨x, s', hx, hexec, hcontent⟩ := h.run s hmem
    refine ⟨s', hexec, ?_⟩
    rw [hcontent]
    exact hcarries x hx

/-- An integer constant is in the code as its sign extension. -/
theorem IsConst.imm {c : ConstexprValue} (h : IsConst c p w) (hp : Ir.Vm.isFloating p = false) :
    ∃ imm, extractImm c = some imm ∧ ∀ x, Encodes p w x ↔ x = imm := by
  cases h with
  | bool b => cases b <;> exact ⟨_, rfl, fun x => Iff.rfl⟩
  | int v =>
    refine ⟨_, rfl, fun x => ?_⟩
    rw [Encodes, low_setWidth]
  | int64 v => exact ⟨_, rfl, fun x => Iff.rfl⟩
  | float v => cases hp
  | float64 v => cases hp
  | double v => cases hp

theorem gives_li {img : Image} {mem : Memory} {rd : Fin 32} {imm : Word} {f : Word → Word}
    (input : env.Input) (hq : Ir.Vm.isFloating q = false) (himm : ∀ x, Encodes p w x ↔ x = imm) :
    Gives env p q w img mem [.pseudoLI ⟨rd, f imm⟩] rd f where
  run s _ := ⟨imm, _, (himm imm).2 rfl, rfl, content_setReg hq⟩
  every x hx := by
    rw [(himm x).1 hx]
    exact ⟨{ zeroState input with memory := mem }, _, rfl, rfl, content_setReg hq⟩

theorem content_setF {s : State env} {r : Fin 32} {v : BitVec 32}
    (hq : Ir.Vm.isFloating q = true) :
    content q (s.setF r v) r = (s.fregs r).extractLsb' 32 32 ++ v :=
  content_setD hq

/-- The machine that loads a literal: its address is in `t0`. -/
def atLiteral (img : Image) (label : String) (s : State env) : State env :=
  s.setReg regT0 (BitVec.ofNat 64 ((findLabel img.symbols label).getD 0))

theorem exec_literal {img : Image} {s : State env} {label : String} {rd : Fin 32} {op : OpFI} :
    execAll img [.pseudoL ⟨.la, regT0, label⟩, .instFI ⟨op, rd, regT0, 0⟩] s =
      execFI ⟨op, rd, regT0, 0⟩ (atLiteral img label s) := by
  simp only [execAll, List.foldlM_cons, List.foldlM_nil]
  show exec img (.instFI ⟨op, rd, regT0, 0⟩) (atLiteral img label s) >>= pure = _
  rw [bind_pure]
  rfl

theorem atLiteral_addr {img : Image} {s : State env} {label : String} :
    (atLiteral img label s).regs regT0 + (0 : BitVec 12).signExtend 64 =
      BitVec.ofNat 64 ((findLabel img.symbols label).getD 0) := by
  simp [atLiteral, State.setReg]

theorem exec_flw {img : Image} {s : State env} {label : String} {rd : Fin 32} {v : BitVec 32}
    (h : load s.memory (BitVec.ofNat 64 ((findLabel img.symbols label).getD 0)) 4 = .ok v.toNat) :
    execAll img [.pseudoL ⟨.la, regT0, label⟩, .instFI ⟨.flw, rd, regT0, 0⟩] s =
      .ok ((atLiteral img label s).setF rd v) := by
  rw [exec_literal]
  show (load s.memory ((atLiteral img label s).regs regT0 + (0 : BitVec 12).signExtend 64) 4).map
    _ = _
  rw [atLiteral_addr, h]
  show Except.ok ((atLiteral img label s).setF rd (BitVec.ofNat 32 v.toNat)) = _
  rw [BitVec.ofNat_toNat, BitVec.setWidth_eq]

theorem exec_fld {img : Image} {s : State env} {label : String} {rd : Fin 32} {v : Word}
    (h : load s.memory (BitVec.ofNat 64 ((findLabel img.symbols label).getD 0)) 8 = .ok v.toNat) :
    execAll img [.pseudoL ⟨.la, regT0, label⟩, .instFI ⟨.fld, rd, regT0, 0⟩] s =
      .ok ((atLiteral img label s).setD rd v) := by
  rw [exec_literal]
  show (load s.memory ((atLiteral img label s).regs regT0 + (0 : BitVec 12).signExtend 64) 8).map
    _ = _
  rw [atLiteral_addr, h]
  show Except.ok ((atLiteral img label s).setD rd (BitVec.ofNat 64 v.toNat)) = _
  rw [BitVec.ofNat_toNat, BitVec.setWidth_eq]

theorem low_append (u v : BitVec 32) : low (u ++ v) = v := by
  rw [low, BitVec.setWidth_append]
  simp

theorem append_of_low {x : Word} {v : BitVec 32} (h : low x = v) :
    x.extractLsb' 32 32 ++ v = x := by
  rw [← h]
  apply BitVec.eq_of_getLsbD_eq
  intro i hi
  rw [BitVec.getLsbD_append]
  by_cases hlow : i < 32
  · simp [low, hlow]
  · have hadd : 32 + (i - 32) = i := by omega
    simp [hlow, hadd]
    omega

/-- A literal of eight bytes is in the register as it is. -/
theorem gives_fld {img : Image} {mem : Memory} {rd : Fin 32} {label : String} {v : Word}
    (input : env.Input) (hq : Ir.Vm.isFloating q = true) (hv : ∀ x, Encodes p w x ↔ x = v)
    (h : load mem (BitVec.ofNat 64 ((findLabel img.symbols label).getD 0)) 8 = .ok v.toNat) :
    Gives env p q w img mem
      [.pseudoL ⟨.la, regT0, label⟩, .instFI ⟨.fld, rd, regT0, 0⟩] rd id where
  run s hs := by
    subst hs
    exact ⟨v, _, (hv v).2 rfl, exec_fld h, content_setD hq⟩
  every x hx := by
    rw [(hv x).1 hx]
    exact ⟨{ zeroState input with memory := mem }, _, rfl, exec_fld h, content_setD hq⟩

/-- One of four bytes is in the lower half, below what the register held. -/
theorem gives_flw {img : Image} {mem : Memory} {rd : Fin 32} {label : String} {v : BitVec 32}
    (input : env.Input) (hq : Ir.Vm.isFloating q = true) (hv : ∀ x, Encodes p w x ↔ low x = v)
    (h : load mem (BitVec.ofNat 64 ((findLabel img.symbols label).getD 0)) 4 = .ok v.toNat) :
    Gives env p q w img mem
      [.pseudoL ⟨.la, regT0, label⟩, .instFI ⟨.flw, rd, regT0, 0⟩] rd id where
  run s hs := by
    subst hs
    exact ⟨_, _, (hv _).2 (low_append _ v), exec_flw h, content_setF hq⟩
  every x hx := by
    refine ⟨{ constantState input x x with memory := mem }, _, rfl, exec_flw h, ?_⟩
    rw [content_setF hq]
    show (if rd = 10 then x else x).extractLsb' 32 32 ++ v = x
    rw [ite_self]
    exact append_of_low ((hv x).1 hx)

theorem gives_literal {c : ConstexprValue} {img : Image} {mem : Memory} {rd : Fin 32}
    {pool : List FloatLiteral} (input : env.Input) (hc : IsConst c p w)
    (hp : Ir.Vm.isFloating p = true) (hq : Ir.Vm.isFloating q = true)
    (hmem : HoldsPool img mem (loadFloatConst pool c c.type rd).2) :
    Gives env p q w img mem (loadFloatConst pool c c.type rd).1 rd id := by
  have hlast := hmem ⟨".L_fc_" ++ toString pool.length, c⟩ (List.mem_append_right _ (List.mem_singleton.2 rfl))
  cases hc with
  | float v =>
    refine gives_flw input hq (fun x => ?_) hlast
    rw [Encodes, low_setWidth]
  | float64 v => exact gives_fld input hq (fun x => Iff.rfl) hlast
  | double v => exact gives_fld input hq (fun x => Iff.rfl) hlast
  | bool b => cases hp
  | int v => cases hp
  | int64 v => cases hp

/-- The code of a constant: a literal for a copy, nothing for a conversion. -/
theorem translateUnary_const {ctx : Ctx} {pool pool' : List FloatLiteral} {x : Var} {rd : Fin 32}
    {c : ConstexprValue} {insts : List Inst} (unit : FloatUnit) (hop : IsUnary op)
    (hc : IsConst c p w) (hclass : Ir.Vm.isFloating p = Ir.Vm.isFloating q) (hx : ctx.regs.lookup x = some rd)
    (h : translateUnary ctx pool ⟨op, some ⟨registerType (.prim q), x⟩, .const c⟩ = .ok (insts, pool')) :
    (op ≠ .convert ∧ Ir.Vm.isFloating p = false ∧ ∃ imm, extractImm c = some imm ∧
      insts = [.pseudoLI ⟨rd, effect unit op p q imm⟩]) ∨
    (op = .mov ∧ Ir.Vm.isFloating p = true ∧
      (insts, pool') = loadFloatConst pool c c.type rd) := by
  unfold translateUnary at h
  simp only [lookupReg, hx, isFp_registerType] at h
  cases hp : Ir.Vm.isFloating p with
  | true =>
    have hq : Ir.Vm.isFloating q = true := hclass.symm.trans hp
    have himm : extractImm c = none := by cases hc <;> first | rfl | cases hp
    refine .inr ?_
    rcases hop with rfl | rfl | rfl | rfl
    · simp only [translateMov, himm, hq, if_true] at h
      exact ⟨rfl, rfl, (Except.ok.inj h).symm⟩
    · simp only [translateNeg, lookupReg, hq, if_true] at h
      cases h
    · simp only [translateNot, lookupReg, himm] at h
      cases h
    · cases h
  | false =>
    have hq : Ir.Vm.isFloating q = false := hclass.symm.trans hp
    obtain ⟨imm, himm, -⟩ := hc.imm hp
    refine .inl ?_
    rcases hop with rfl | rfl | rfl | rfl
    · simp only [translateMov, himm] at h
      cases h
      exact ⟨by decide, rfl, imm, himm, rfl⟩
    · simp only [translateNeg, lookupReg, himm, hq] at h
      cases h
      refine ⟨by decide, rfl, imm, himm, ?_⟩
      simp only [effect, hq]
      rfl
    · simp only [translateNot, lookupReg, himm] at h
      cases h
      refine ⟨by decide, rfl, imm, himm, ?_⟩
      simp [effect, ofBool]
    · cases h

/-- The code for a constant operand is right just under the condition. -/
theorem constRight_iff {w' : Word} {c : ConstexprValue} {ctx : Ctx} {pool pool' : List FloatLiteral}
    {x : Var} {rd : Fin 32} {insts : List Inst} {img : Image} {mem : Memory}
    (hround : SameRounding machine.float env.float) (hop : IsUnary op)
    (hpq : op = .neg ∨ op = .not → p = q) (hc : IsConst c p w)
    (hres : irResult machine.float op p q w = .ok w') (hx : ctx.regs.lookup x = some rd)
    (h : translateUnary ctx pool ⟨op, some ⟨registerType (.prim q), x⟩, .const c⟩ =
      .ok (insts, pool')) (hmem : HoldsPool img mem pool') (input : env.Input) :
    ConstRight env q w' img mem insts rd ↔ ConstCondition env.float op p q w := by
  have hclass := irResult_class hop hpq hres
  rcases translateUnary_const env.float hop hc hclass hx h with
    ⟨hne, hp, imm, himm, rfl⟩ | ⟨rfl, hp, hlit⟩
  · obtain ⟨imm', himm', hencodes⟩ := hc.imm hp
    cases himm.symm.trans himm'
    rw [(gives_li input (hclass.symm.trans hp) hencodes).right_iff,
      carries_iff hround hop hpq (fun _ => hp) hc.isValue hres]
    simp [ConstCondition, hne, hp]
  · obtain ⟨rfl, rfl⟩ := Prod.mk.inj hlit
    have hgives : Gives env p q w img mem (loadFloatConst pool c c.type rd).1 rd id :=
      gives_literal input hc hp (hclass.symm.trans hp) hmem
    have hcarries : Carries p q w w' id ↔ UnaryCondition env.float .mov p q w :=
      carries_iff hround hop hpq (fun h => by cases h) hc.isValue hres
    refine (hgives.right_iff.trans hcarries).trans ?_
    simp [ConstCondition]

/-- The replacement leaves a constant operand. -/
theorem replaceUnary_const (prog : Ir.Program) {color : ColorMap} {c : ConstexprValue} {x : Var}
    {rd : Fin 32} {inst : UnaryInst} (hx : color.lookup x = some rd)
    (h : replaceUnary color (mapRegisters abi prog).1 ⟨op, some ⟨.prim q, x⟩, .const c⟩ = .ok inst) :
    ∃ x', inst = ⟨op, some ⟨registerType (.prim q), x'⟩, .const c⟩ ∧
      (proxyRegs (mapRegisters abi prog).1).lookup x' = some rd := by
  obtain ⟨a, ha, hatype, hareg⟩ := get_proxy prog (.prim q) rd
  refine ⟨a.value.left.var, ?_, hareg⟩
  have hresult : replace color (mapRegisters abi prog).1 ⟨.prim q, x⟩ false =
      .ok ⟨registerType (.prim q), a.value.left.var⟩ := by
    rw [replace, hx, ← hatype]
    simp only [ha]
    rfl
  rw [replaceUnary] at h
  simp only [Option.mapM, hresult] at h
  cases h
  rfl

/-- Code that is emitted for an operation on a constant, where the IR machine computes
`w'` and the memory holds the literals. -/
def EmitsConst (machine : Ir.Vm.Env) (op : UnaryInstOp) (q : Primitive) (c : ConstexprValue)
    (w' : Word) (rd : Fin 32) (img : Image) (mem : Memory) (insts : List Inst) : Prop :=
  ∃ (t : Ir.Vm.State machine) (sc : Ir.Vm.Scope) (prog : Ir.Program) (color : ColorMap) (x : Var)
    (alloc : Ir.AllocId → Option Ir.Alloc) (frame : FrameLayout) (pool pool' : List FloatLiteral)
    (inst : UnaryInst),
    Ir.Vm.resultType machine sc (some ⟨.prim q, x⟩) = .ok (.prim q) ∧
    Ir.Vm.execUnary t sc ⟨op, some ⟨.prim q, x⟩, .const c⟩ = .ok w' ∧
    color.lookup x = some rd ∧
    replaceUnary color (mapRegisters abi prog).1 ⟨op, some ⟨.prim q, x⟩, .const c⟩ = .ok inst ∧
    translateUnary ⟨alloc, frame, proxyRegs (mapRegisters abi prog).1⟩ pool inst =
      .ok (insts, pool') ∧
    HoldsPool img mem pool'

/-- The code of a unary instruction is right just for the operands of the condition. The
checker gives a negation the type of its operand. -/
theorem unary_right_iff (hround : SameRounding machine.float env.float) (hop : IsUnary op)
    (hpq : op = .neg ∨ op = .not → p = q) (hw : IsValue p w) (t : Ir.Vm.State machine)
    (input : env.Input) :
    (RegRight machine env op p q w ↔ UnaryCondition env.float op p q w) ∧
    ∀ (c : ConstexprValue) (w' : Word) (rd : Fin 32) (img : Image) (mem : Memory)
      (insts : List Inst), IsConst c p w → EmitsConst machine op q c w' rd img mem insts →
      (ConstRight env q w' img mem insts rd ↔ ConstCondition env.float op p q w) := by
  constructor
  · exact regRight_iff hround hop hpq hw t input
  · rintro c w' rd img mem insts hc
      ⟨t, sc, prog, color, x, alloc, frame, pool, pool', inst, htype, hexec, hx, hinst, hinsts, hmem⟩
    have hview : Ir.Vm.viewOf machine sc (.const c) = .ok ⟨.prim p, .word w⟩ :=
      congrArg Except.ok hc.view
    have h : irResult machine.float op p q w = .ok w' := by
      rw [← hexec]
      exact (execUnary_result hop hview htype).symm
    obtain ⟨x', rfl, hx'⟩ := replaceUnary_const prog hx hinst
    generalize proxyRegs (mapRegisters abi prog).1 = regs at hx' hinsts
    exact constRight_iff hround hop hpq hc h hx' hinsts hmem input

/-- An IR machine for programs without floating-point values. -/
def integerMachine : Ir.Vm.Env where
  Input := List (BitVec 32)
  readInt l := (l.headD 0, l.tail)
  readFloat _ := .error .outOfBounds
  readDouble l := (0, l)
  float := ⟨fun _ _ _ => 0, fun _ _ _ => 0, fun _ _ _ => false, fun _ _ _ => false, fun _ _ _ => 0⟩
  versions := false

def idleMachine : Ir.Vm.State integerMachine := ⟨[], fun _ => none, fun _ => 0, 0, [], [], none⟩

theorem sameRounding_integers : SameRounding integerMachine.float Optim.integers.float :=
  ⟨fun _ => rfl, fun _ => rfl⟩

/-- The negation of 7 is right in every register. -/
theorem unary_right_neg_seven :
    RegRight integerMachine Optim.integers .neg .int32 .int32 7 ∧
    EmitsConst integerMachine .neg .int32 ⟨.prim .int32, .int 7⟩ 0xFFFFFFF9 10 ⟨[], [], []⟩ (fun _ => 0)
      [.pseudoLI ⟨10, 0xFFFFFFFFFFFFFFF9⟩] ∧
    ConstRight Optim.integers .int32 0xFFFFFFF9 ⟨[], [], []⟩ (fun _ => 0)
      [.pseudoLI ⟨10, 0xFFFFFFFFFFFFFFF9⟩] 10 := by
  have hiff : (RegRight integerMachine Optim.integers .neg .int32 .int32 7 ↔ _) ∧ _ :=
    unary_right_iff sameRounding_integers (.inr (.inl rfl)) (fun _ => rfl) rfl idleMachine
      ([] : List (BitVec 32))
  have hcondition : UnaryCondition Optim.integers.float .neg .int32 .int32 7 := by
    show (7 : BitVec 32) ≠ BitVec.intMin 32
    decide
  have hemits : EmitsConst integerMachine .neg .int32 ⟨.prim .int32, .int 7⟩ 0xFFFFFFF9 10
      ⟨[], [], []⟩ (fun _ => 0) [.pseudoLI ⟨10, 0xFFFFFFFFFFFFFFF9⟩] := by
    refine ⟨idleMachine, twoSlots .int32 .int32 0, ⟨false, [], [], [], 0⟩, [(.temp 0, 10)], .temp 0,
      fun _ => none, ⟨0, []⟩, [], [], _, rfl, rfl, rfl, rfl, rfl, ?_⟩
    intro l hl
    cases hl
  exact ⟨hiff.1.2 hcondition, hemits,
    (hiff.2 _ _ _ _ _ _ (.int 7) hemits).2 (.inr (.inr hcondition))⟩

/-- The least `i32` is negated to a word that is not sign-extended, and an `f32` keeps
its sign. -/
theorem neg_not_right :
    ¬RegRight integerMachine Optim.integers .neg .int32 .int32 0x80000000 ∧
    ¬RegRight integerMachine Optim.integers .neg .float32 .float32 0x3F800000 := by
  have hint : RegRight integerMachine Optim.integers .neg .int32 .int32 0x80000000 ↔ _ :=
    regRight_iff sameRounding_integers (.inr (.inl rfl)) (fun _ => rfl) rfl idleMachine
      ([] : List (BitVec 32))
  have hfloat : RegRight integerMachine Optim.integers .neg .float32 .float32 0x3F800000 ↔ _ :=
    regRight_iff sameRounding_integers (.inr (.inl rfl)) (fun _ => rfl) rfl idleMachine
      ([] : List (BitVec 32))
  constructor
  · intro hright
    exact hint.1 hright rfl
  · exact hfloat.1

end Const

end Isel
end Rv64
end Cact
