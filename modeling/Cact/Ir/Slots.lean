import Cact.Ir.Vm

/-!
# Slots keep their types

The slots of a frame are laid out from the declarations of its function, and from then
on only their words change. What an operation computes for a slot is a word of the
slot's type, so every slot always holds one.

- `fitTy_execUnary`, `fitTy_evalInst` …: the results of the operations.
- `Slots.Typed`: slots of given types that hold words of them.
- `typed_layoutFunc`: the slots a call starts with.
-/

namespace Cact

namespace Ir

/-- The bytes of a type that a slot keeps. -/
def fitTy (t : Ty) (w : Vm.Word) : Vm.Word :=
  match t with
  | .prim p => Vm.fit p w
  | _ => w

@[simp] theorem fitTy_zero (t : Ty) : fitTy t 0 = 0 := by
  cases t with
  | prim p => cases p <;> rfl
  | _ => rfl

/-- The type of the slot an allocation of a list has. -/
def allocType (allocs : List Alloc) (a : AllocId) : Option Ty :=
  (allocs.find? fun b => b.id == a).map fun b => Vm.viewType b.value.type

/-- The slot of an allocation has the allocation's type. -/
theorem allocType_of_mem {allocs : List Alloc} {a : Alloc} (hn : (allocs.map Alloc.id).Nodup)
    (ha : a ∈ allocs) : allocType allocs a.id = some (Vm.viewType a.value.type) := by
  unfold allocType
  obtain ⟨b, hb⟩ := Option.isSome_iff_exists.1
    (List.find?_isSome (p := fun b => b.id == a.id) |>.2 ⟨a, ha, by simp⟩)
  have hid : b.id = a.id := by simpa using List.find?_some hb
  rw [hb, List.inj_on_of_nodup_map hn (List.mem_of_find?_eq_some hb) ha hid]
  rfl

/-- The slots of a frame. -/
def Func.slotType (f : Func) : Var → Option Ty
  | .named (.alloc a) => allocType (f.params ++ f.locals) a
  | .temp i => (f.temps[i]?).map fun t => Vm.viewType t.type
  | .ssa a _ => allocType (f.params ++ f.locals) a
  | _ => none

/-- The slots of the globals. -/
def Program.slotType (prog : Program) : Var → Option Ty
  | .named (.alloc a) => allocType prog.globals a
  | _ => none

namespace Vm

/-! ## Results of operations -/

section Results

variable {float : Floats} {p q : Primitive} {w w' : Word} {t t' : Ty}

@[simp] theorem fit_fit : fit p (fit p w) = fit p w := by
  cases p <;> simp [fit]

@[simp] theorem fit_boolWord {b : Bool} : fit .int1 (boolWord b) = boolWord b := by
  cases b <;> rfl

@[simp] theorem fit_cast : fit q (cast float p q w) = cast float p q w := by
  unfold cast
  split
  · exact fit_fit
  · split
    · exact fit_fit
    · split
      · rename_i h
        rw [h, fit_boolWord]
      · exact fit_fit

theorem fit_assignPrimitive (h : assignPrimitive float p q w = .ok w') : fit p w' = w' := by
  unfold assignPrimitive at h
  split at h
  · cases h
    exact fit_fit
  · split at h
    any_goals
      cases h
      exact fit_cast
    any_goals
      cases h
      rfl
    cases h

theorem fitTy_assign (h : assign float t t' w = .ok w') : fitTy t w' = w' := by
  unfold assign at h
  split at h
  · exact fit_assignPrimitive h
  · cases h
    rfl
  · rfl
  · rfl
  · rfl
  · cases h

/-- A word of a type is assigned to that type as it is. -/
theorem assign_self (h : assign float t t w = .ok w') (hw : fitTy t w = w) : w' = w := by
  cases t with
  | prim p =>
    have hp : assignPrimitive float p p w = .ok w' := h
    unfold assignPrimitive at hp
    rw [if_pos rfl] at hp
    cases hp
    exact hw
  | reference elem r slice =>
    unfold assign at h
    dsimp only at h
    split at h
    · cases h
      rfl
    · cases h
  | product ts =>
    cases ts with
    | nil =>
      cases h
      rfl
    | cons _ _ => cases h
  | _ => cases h

theorem fitTy_assignLoaded {mem : Memory} {elem : Ty} {addr : Word}
    (h : assignLoaded float mem t elem addr = .ok w') : fitTy t w' = w' := by
  unfold assignLoaded at h
  split at h
  · rfl
  · exact fitTy_assign h

theorem fitTy_fit {d : Primitive} (h : asPrimitive t = .ok d) : fitTy t (fit d w) = fit d w := by
  cases t with
  | prim p =>
    cases h
    exact fit_fit
  | _ => rfl

theorem fitTy_evalBinary {op : InstOp} {lhs rhs : View}
    (h : evalBinary float op t lhs rhs = .ok w') : fitTy t w' = w' := by
  obtain ⟨d, hd, h⟩ := Except.bind_eq_ok.1 h
  obtain ⟨l, -, h⟩ := Except.bind_eq_ok.1 h
  obtain ⟨r, -, h⟩ := Except.bind_eq_ok.1 h
  unfold evalPrimitive at h
  dsimp only at h
  split at h
  · cases h
    exact fitTy_fit hd
  · cases h

theorem fitTy_evalUnary {op : UnaryInstOp} {operand : View}
    (h : evalUnary float op t operand = .ok w') : fitTy t w' = w' := by
  obtain ⟨o, -, h⟩ := Except.bind_eq_ok.1 h
  obtain ⟨d, hd, h⟩ := Except.bind_eq_ok.1 h
  dsimp only at h
  split at h
  · cases h
    exact fitTy_fit hd
  · cases h
    exact fitTy_fit hd

variable {env : Env} {s : State env} {sc : Scope}

theorem fitTy_execUnary {u : UnaryInst} (h : execUnary s sc u = .ok w')
    (ht : resultType env sc u.result = .ok t) : fitTy t w' = w' := by
  obtain ⟨operand, -, h⟩ := Except.bind_eq_ok.1 h
  obtain ⟨t', ht', h⟩ := Except.bind_eq_ok.1 h
  rw [ht] at ht'
  cases ht'
  split at h
  · exact fitTy_assign h
  · exact fitTy_assign h
  · exact fitTy_evalUnary h
  · exact fitTy_evalUnary h
  · split at h
    · exact fitTy_assignLoaded h
    · cases h
  · cases h
  · cases h

theorem fitTy_evalInst {op : InstOp} {lhs rhs : View}
    (h : evalInst s op t lhs rhs = .ok w') : fitTy t w' = w' := by
  unfold evalInst at h
  split at h
  · obtain ⟨_, -, h⟩ := Except.bind_eq_ok.1 h
    exact fitTy_assignLoaded h
  · obtain ⟨_, -, h⟩ := Except.bind_eq_ok.1 h
    exact fitTy_assign h
  · obtain ⟨_, -, h⟩ := Except.bind_eq_ok.1 h
    exact fitTy_assign h
  · exact fitTy_evalBinary h

theorem fitTy_builtinResult {p : Primitive} (h : builtinResult float p t w = .ok w') :
    fitTy t w' = w' := by
  unfold builtinResult at h
  split at h
  · cases h
    exact fit_cast
  · cases h

theorem fitTy_execBuiltin {name : String} {args : List View} {u : State env}
    (h : execBuiltin s name t args = .ok (u, some w')) : fitTy t w' = w' := by
  unfold execBuiltin at h
  split at h
  · obtain ⟨_, -, h⟩ := Except.bind_eq_ok.1 h
    obtain ⟨_, -, h⟩ := Except.bind_eq_ok.1 h
    cases h
  · obtain ⟨_, -, h⟩ := Except.bind_eq_ok.1 h
    cases h
  · obtain ⟨_, hw, h⟩ := Except.bind_eq_ok.1 h
    cases h
    exact fitTy_builtinResult hw
  · obtain ⟨_, -, h⟩ := Except.bind_eq_ok.1 h
    obtain ⟨_, hw, h⟩ := Except.bind_eq_ok.1 h
    cases h
    exact fitTy_builtinResult hw
  · obtain ⟨_, hw, h⟩ := Except.bind_eq_ok.1 h
    cases h
    exact fitTy_builtinResult hw
  all_goals first
    | cases h
    | obtain ⟨_, -, h⟩ := Except.bind_eq_ok.1 h
      cases h

end Results

/-! ## Typed slots -/

/-- The slots have these types, and hold words of them. -/
def Slots.Typed (slots : Slots) (T : Var → Option Ty) : Prop :=
  ∀ k, (slots k).map Slot.type = T k ∧ ∀ s, slots k = some s → fitTy s.type s.word = s.word

section Slots

variable {slots : Slots} {T : Var → Option Ty} {k : Var} {w : Word}

theorem Slots.Typed.isSome (h : slots.Typed T) : (slots k).isSome = (T k).isSome := by
  rw [← (h k).1, Option.isSome_map]

theorem Slots.Typed.set (h : slots.Typed T) (hw : ∀ t, T k = some t → fitTy t w = w) :
    (slots.set k w).Typed T := by
  intro u
  unfold Slots.set
  by_cases hu : u = k
  · subst hu
    rw [if_pos rfl]
    refine ⟨?_, ?_⟩
    · rw [← (h u).1, Option.map_map]
      rfl
    · intro s hs
      obtain ⟨s', hs', rfl⟩ := Option.map_eq_some_iff.1 hs
      exact hw s'.type (by rw [← (h u).1, hs']; rfl)
  · rw [if_neg hu]
    exact h u

theorem Slots.set_of_ne {u : Var} (h : u ≠ k) : slots.set k w u = slots u := if_neg h

theorem Slots.set_self : slots.set k w k = (slots k).map fun s => { s with word := w } := if_pos rfl

end Slots


/-! ## The slots of a frame -/

/-- The slots of a list of allocations. -/
def allocTypes (allocs : List Alloc) : Var → Option Ty
  | .named (.alloc a) => allocType allocs a
  | _ => none

section Layout

variable {float : Floats} {l l' : Layout} {done : List Alloc} {a : Alloc}

theorem allocType_append_self (hn : a.id ∉ done.map Alloc.id) :
    allocType (done ++ [a]) a.id = some (viewType a.value.type) := by
  have hnone : done.find? (fun b => b.id == a.id) = none := by
    rw [List.find?_eq_none]
    intro b hb h
    exact hn (List.mem_map.2 ⟨b, hb, by simpa using h⟩)
  simp [allocType, List.find?_append, hnone]

theorem allocType_append_of_ne {i : AllocId} (h : i ≠ a.id) :
    allocType (done ++ [a]) i = allocType done i := by
  have hne : ¬a.id = i := fun h' => h h'.symm
  simp [allocType, List.find?_append, hne]

theorem typed_push (h : l.vars.Typed (allocTypes done)) (hn : a.id ∉ done.map Alloc.id)
    {w : Word} (hw : fitTy (viewType a.value.type) w = w) (n : Nat) :
    (l.push (.named (.alloc a.id)) ⟨viewType a.value.type, w⟩ n).vars.Typed
      (allocTypes (done ++ [a])) := by
  intro k
  show (Function.update l.vars _ _ k).map _ = _ ∧ ∀ s, Function.update l.vars _ _ k = some s → _
  by_cases hk : k = .named (.alloc a.id)
  · subst hk
    rw [Function.update_self]
    refine ⟨(allocType_append_self hn).symm, ?_⟩
    rintro s ⟨⟩
    exact hw
  · rw [Function.update_of_ne hk]
    refine ⟨?_, (h k).2⟩
    rw [(h k).1]
    unfold allocTypes
    split
    · exact (allocType_append_of_ne fun h' => hk (by rw [h'])).symm
    · rfl

theorem typed_write {v : View} {cur : Nat} (h : l.vars.Typed (allocTypes (done ++ [a])))
    (hn : a.id ∉ done.map Alloc.id) (hl : l.write float a cur v = .ok l') :
    l'.vars.Typed (allocTypes (done ++ [a])) := by
  unfold Layout.write at hl
  split at hl
  · obtain ⟨m, -, hl⟩ := Except.bind_eq_ok.1 hl
    cases hl
    exact h
  · rename_i href
    obtain ⟨w, hw, hl⟩ := Except.bind_eq_ok.1 hl
    cases hl
    refine h.set fun t ht => ?_
    have hself : some (viewType a.value.type) = some t := (allocType_append_self hn).symm.trans ht
    have htype : a.value.type = a.type := by simp [Alloc.value, href]
    rw [htype] at hself
    cases hself
    exact fitTy_assign hw

theorem typed_alloc (h : l.vars.Typed (allocTypes done)) (hn : a.id ∉ done.map Alloc.id)
    (hl : alloc float l a = .ok l') : l'.vars.Typed (allocTypes (done ++ [a])) := by
  have hpush := typed_push h hn (w := if a.reference then BitVec.ofNat 64 l.cur else 0) (by
    by_cases href : a.reference = true
    · cases ht : a.type <;> simp [Alloc.value, href, Ty.borrow, ht, viewType, fitTy]
    · rw [if_neg href]
      exact fitTy_zero _) (stackSize a)
  unfold alloc at hl
  dsimp only at hl
  split at hl
  · cases hl
    exact hpush
  · exact typed_write hpush hn hl

theorem typed_allocParam {v : View} (h : l.vars.Typed (allocTypes done))
    (hn : a.id ∉ done.map Alloc.id) (hl : allocParam float l (a, v) = .ok l') :
    l'.vars.Typed (allocTypes (done ++ [a])) := by
  obtain ⟨l₁, hl₁, hl⟩ := Except.bind_eq_ok.1 hl
  exact typed_write (typed_alloc h hn hl₁) hn hl

theorem typed_allocs {allocs : List Alloc} (h : l.vars.Typed (allocTypes done))
    (hn : ((done ++ allocs).map Alloc.id).Nodup)
    (hl : allocs.foldlM (alloc float) l = .ok l') : l'.vars.Typed (allocTypes (done ++ allocs)) := by
  induction allocs generalizing l done with
  | nil =>
    cases hl
    simpa using h
  | cons a allocs ih =>
    rw [List.foldlM_cons] at hl
    obtain ⟨l₁, hl₁, hl⟩ := Except.bind_eq_ok.1 hl
    have hna : a.id ∉ done.map Alloc.id := by
      rw [List.map_append, List.nodup_append] at hn
      exact fun hmem => hn.2.2 _ hmem _ (by simp) rfl
    have hrest := ih (typed_alloc h hna hl₁) (by simpa using hn) hl
    simpa using hrest

theorem typed_allocParams {params : List (Alloc × View)} (h : l.vars.Typed (allocTypes done))
    (hn : ((done ++ params.map Prod.fst).map Alloc.id).Nodup)
    (hl : params.foldlM (allocParam float) l = .ok l') :
    l'.vars.Typed (allocTypes (done ++ params.map Prod.fst)) := by
  induction params generalizing l done with
  | nil =>
    cases hl
    simpa using h
  | cons p params ih =>
    rw [List.foldlM_cons] at hl
    obtain ⟨l₁, hl₁, hl⟩ := Except.bind_eq_ok.1 hl
    have hna : p.1.id ∉ done.map Alloc.id := by
      rw [List.map_append, List.nodup_append] at hn
      exact fun hmem => hn.2.2 _ hmem _ (by simp) rfl
    have hrest := ih (typed_allocParam h hna hl₁) (by simpa using hn) hl
    simpa using hrest

theorem typed_none : Slots.Typed (fun _ => none) (allocTypes []) := by
  intro k
  constructor
  · unfold allocTypes
    split <;> rfl
  · rintro s ⟨⟩

/-- The slots a call starts with are those its function declares. -/
theorem typed_layoutFunc {mem : Memory} {top : Nat} {f : Func} {args : List View}
    (hn : ((f.params ++ f.locals).map Alloc.id).Nodup)
    (hl : layoutFunc float mem top f args = .ok l) : l.vars.Typed f.slotType := by
  unfold layoutFunc at hl
  split at hl
  · cases hl
  · rename_i hlen
    simp only [ne_eq, not_not] at hlen
    obtain ⟨l₁, hl₁, hl⟩ := Except.bind_eq_ok.1 hl
    obtain ⟨l₂, hl₂, hl⟩ := Except.bind_eq_ok.1 hl
    cases hl
    have hzip : (f.params.zip args).map Prod.fst = f.params :=
      List.map_fst_zip (by omega)
    have hdistinct : (([] ++ (f.params.zip args).map Prod.fst).map Alloc.id).Nodup := by
      rw [hzip]
      simpa using List.Nodup.of_append_left (by simpa using hn)
    have hparams := typed_allocParams typed_none hdistinct hl₁
    rw [hzip, List.nil_append] at hparams
    have hlocals := typed_allocs hparams hn hl₂
    intro k
    unfold addTemps Func.slotType
    cases k with
    | named d =>
      cases d with
      | alloc i => exact hlocals (.named (.alloc i))
      | func n => exact hlocals (.named (.func n))
      | builtin n => exact hlocals (.named (.builtin n))
    | temp i =>
      refine ⟨?_, fun s hs => ?_⟩
      · rw [Option.map_map]
        rfl
      · obtain ⟨t, -, rfl⟩ := Option.map_eq_some_iff.1 hs
        exact fitTy_zero _
    | ssa a n => exact hlocals (.named (.alloc a))

end Layout

end Vm
end Ir
end Cact
