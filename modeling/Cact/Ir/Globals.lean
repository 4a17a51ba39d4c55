import Cact.Ir.Slots

/-!
# The values variables start with

A variable of a scalar type that is no reference is kept in its slot, and what it is
initialised with is written there when the slot is laid out. Laying out other variables
leaves the slot alone.

- `slot_alloc`, `slot_alloc_of_ne`: what one allocation does to the slots.
- `slot_allocs`: the slot of an initialised variable after all of a list.
-/

namespace Cact

namespace Ir

namespace Vm

variable {float : Floats} {l l' : Layout} {a b : Alloc} {v : Var} {allocs : List Alloc}
  {c : ConstexprValue}

@[simp] theorem isArray_viewType (t : Ty) : (viewType t).isArray = t.isArray := by
  cases t <;> rfl

theorem slot_write_of_ne {x : View} {cur : Nat} (h : l.write float a cur x = .ok l')
    (hv : v ≠ .named (.alloc a.id)) : l'.vars v = l.vars v := by
  unfold Layout.write at h
  split at h
  · obtain ⟨m, -, h⟩ := Except.bind_eq_ok.1 h
    cases h
    rfl
  · obtain ⟨w, -, h⟩ := Except.bind_eq_ok.1 h
    cases h
    exact Slots.set_of_ne hv

theorem slot_push_of_ne {u : Var} {s : Slot} {n : Nat} (hv : v ≠ u) :
    (l.push u s n).vars v = l.vars v := Function.update_of_ne hv _ _

/-- Other slots stay as they are. -/
theorem slot_alloc_of_ne (h : alloc float l a = .ok l') (hv : v ≠ .named (.alloc a.id)) :
    l'.vars v = l.vars v := by
  unfold alloc at h
  dsimp only at h
  split at h
  · cases h
    exact slot_push_of_ne hv
  · exact (slot_write_of_ne h hv).trans (slot_push_of_ne hv)

/-- The slot of an initialised variable holds the value, as a word of its type. -/
theorem slot_alloc (h : alloc float l a = .ok l') (href : a.reference = false)
    (hc : a.init = some c) :
    ∃ w, assign float (viewType a.type) (viewConst c).type (viewConst c).word = .ok w ∧
      l'.vars (.named (.alloc a.id)) = some ⟨viewType a.type, w⟩ := by
  have htype : a.value.type = a.type := by simp [Alloc.value, href]
  unfold alloc at h
  rw [hc] at h
  dsimp only at h
  unfold Layout.write at h
  rw [href, if_neg (by simp), if_neg (by simp)] at h
  obtain ⟨w, hw, h⟩ := Except.bind_eq_ok.1 h
  cases h
  refine ⟨w, hw, ?_⟩
  show Slots.set _ _ _ _ = _
  rw [Slots.set_self]
  show (Function.update l.vars _ _ _).map _ = _
  rw [Function.update_self, htype]
  rfl

theorem slot_allocs_of_notMem (h : allocs.foldlM (alloc float) l = .ok l')
    (hv : ∀ a ∈ allocs, v ≠ .named (.alloc a.id)) : l'.vars v = l.vars v := by
  induction allocs generalizing l with
  | nil =>
    cases h
    rfl
  | cons a allocs ih =>
    rw [List.foldlM_cons] at h
    obtain ⟨l₁, hl₁, h⟩ := Except.bind_eq_ok.1 h
    exact (ih h fun b hb => hv b (List.mem_cons_of_mem _ hb)).trans
      (slot_alloc_of_ne hl₁ (hv a (by simp)))

/-- An initialised variable keeps its value while the rest of its list is laid out. -/
theorem slot_allocs (h : allocs.foldlM (alloc float) l = .ok l')
    (hn : (allocs.map Alloc.id).Nodup) (ha : a ∈ allocs) (href : a.reference = false)
    (hc : a.init = some c) :
    ∃ w, assign float (viewType a.type) (viewConst c).type (viewConst c).word = .ok w ∧
      l'.vars (.named (.alloc a.id)) = some ⟨viewType a.type, w⟩ := by
  induction allocs generalizing l with
  | nil => cases ha
  | cons b allocs ih =>
    rw [List.foldlM_cons] at h
    obtain ⟨l₁, hl₁, hrest⟩ := Except.bind_eq_ok.1 h
    rw [List.map_cons, List.nodup_cons] at hn
    rcases List.mem_cons.1 ha with rfl | ha
    · obtain ⟨w, hw, hslot⟩ := slot_alloc hl₁ href hc
      refine ⟨w, hw, (slot_allocs_of_notMem hrest fun b hb heq => hn.1 ?_).trans hslot⟩
      rw [NameDef.alloc.inj (Var.named.inj heq)]
      exact List.mem_map_of_mem hb
    · exact ih hrest hn.2 ha

end Vm
end Ir
end Cact
