import Cact.Lib.Loop
import Cact.Lib.Worklists

/-!
# The interference graph (`lowering/regalloc/graph.hpp`)

The nodes of the graph are left values. Two nodes that must not share a register
interfere, two that a move connects would like to, and a node that was merged into
another one is an alias of it from then on.

- `InterfereGraph`: nodes, edges and aliases, with the operations of the class.
- `AliasForest`: what keeps `alias` well defined, and what `set_alias` does to it.
- `EdgeInv`: the edges are symmetric, and merging never loses one.
-/

namespace Cact

namespace Lowering

/-- `InterfereNode`. -/
structure InterfereNode (V : Type) where
  interfere : Finset V
  move : Finset V
  degree : UInt64
  color : Option Nat

/-- `InterfereNode{.value = value}`. -/
def InterfereNode.new {V : Type} : InterfereNode V := ⟨∅, ∅, 0, none⟩

/-- `InterfereGraph`. `keys` are the keys of the map `nodes_` in their order, which is
also the order every set of nodes is walked in. `need_register` is a property of a left
value alone. Priorities are quotients of doubles: `lessPriority` compares two of them,
given by numerator and denominator. -/
structure InterfereGraph (V : Type) where
  maxColor : UInt64
  keys : List V
  node : V → InterfereNode V
  aliases : V → V
  prior : V → Int
  needRegister : V → Bool
  lessPriority : Int × UInt64 → Int × UInt64 → Bool

namespace InterfereGraph

variable {V : Type}

/-- `alias`: the end of the chain of aliases, which is no longer than there are nodes.
(The source also shortens the chain it has walked.) -/
def aliasOf (g : InterfereGraph V) (v : V) : V := g.aliases^[g.keys.length] v

section Operations

variable [LinearOrder V]

/-- `ensure`. -/
def ensure (g : InterfereGraph V) (v : V) : InterfereGraph V :=
  if v ∈ g.keys then g
  else { g with
    keys := g.keys.orderedInsert (· ≤ ·) v
    node := Function.update g.node v .new }

def modify (g : InterfereGraph V) (v : V) (f : InterfereNode V → InterfereNode V) :
    InterfereGraph V :=
  { g with node := Function.update g.node v (f (g.node v)) }

/-- `nodes_[v]`. The source would enter a node that is not there; here that is a lookup
of a missing node. -/
def nodeAt (g : InterfereGraph V) (v : V) : Except LookupFault (InterfereNode V) :=
  if v ∈ g.keys then .ok (g.node v) else .error .outOfRange

/-- `operator[]`. -/
def get (g : InterfereGraph V) (v : V) : Except LookupFault (InterfereNode V) :=
  g.nodeAt (g.aliasOf v)

/-- `set_alias`. -/
def setAlias (g : InterfereGraph V) (dest src : V) : InterfereGraph V :=
  { g with aliases := Function.update g.aliases src dest }

/-- The elements of a set of nodes in the order of the set. -/
def inOrder (g : InterfereGraph V) (s : Finset V) : List V := g.keys.filter (· ∈ s)

/-- One direction of `interfere`. -/
def addEdge (g : InterfereGraph V) (u v : V) : InterfereGraph V :=
  if v ∈ (g.node u).interfere then g
  else g.modify u fun n => { n with interfere := insert v n.interfere, degree := n.degree + 1 }

/-- `interfere`. -/
def interfere (g : InterfereGraph V) (u v : V) : InterfereGraph V :=
  if !g.needRegister u || !g.needRegister v then g
  else
    let u' := g.aliasOf u
    let v' := g.aliasOf v
    if u' = v' then g
    else (((g.ensure u').ensure v').addEdge u' v').addEdge v' u'

/-- `move`. -/
def move (g : InterfereGraph V) (u v : V) : InterfereGraph V :=
  if !g.needRegister u || !g.needRegister v then g
  else
    let u' := g.aliasOf u
    let v' := g.aliasOf v
    if u' = v' then g
    else
      let g := (g.ensure u').ensure v'
      let g := g.modify u' fun n => { n with move := insert v' n.move }
      g.modify v' fun n => { n with move := insert u' n.move }

/-- `pin`. -/
def pin (g : InterfereGraph V) (value : V) (color : Nat) : InterfereGraph V :=
  let v := g.aliasOf value
  (g.ensure v).modify v fun n => { n with color := some color }

/-- `interferes`. -/
def interferes (g : InterfereGraph V) (a b : V) : Except LookupFault Bool := do
  let a := g.aliasOf a
  let b := g.aliasOf b
  if a = b then return false
  let _ ← g.nodeAt b
  let n ← g.nodeAt a
  return b ∈ n.interfere

/-- `merge_preview`, of two nodes that are not aliases. -/
def mergePreview (g : InterfereGraph V) (dest src : V) : InterfereNode V :=
  { (InterfereNode.new : InterfereNode V) with
    interfere := (g.keys.filter fun v =>
      v ≠ dest ∧ (src ∈ (g.node v).interfere ∨ dest ∈ (g.node v).interfere)).toFinset
    move := (g.keys.filter fun v =>
      v ≠ dest ∧ (src ∈ (g.node v).move ∨ dest ∈ (g.node v).move)).toFinset }

/-- `mergable`. -/
def mergable (g : InterfereGraph V) (dest src : V) : Except LookupFault Bool := do
  let dest := g.aliasOf dest
  let src := g.aliasOf src
  if dest = src then return false
  let _ ← g.nodeAt dest
  let n ← g.nodeAt src
  if n.color.isSome then return false
  if ← g.interferes dest src then return false
  let george ← (g.inOrder n.interfere).allM fun neighbor => do
    if (← g.nodeAt neighbor).degree < g.maxColor then return true
    g.interferes dest neighbor
  let significant ← (g.inOrder (g.mergePreview dest src).interfere).filterM fun neighbor => do
    return g.maxColor ≤ (← g.nodeAt neighbor).degree
  return george || significant.length < g.maxColor.toNat

end Operations

/-! ## Aliases -/

/-- Chains of aliases end, and they stay among the nodes. -/
structure AliasForest [DecidableEq V] (g : InterfereGraph V) : Prop where
  depth : ∀ v, Function.IsFixedPt g.aliases
    (g.aliases^[(g.keys.filter fun v => g.aliases v ≠ v).length] v)
  mem : ∀ v ∈ g.keys, g.aliases v ∈ g.keys
  outside : ∀ v, v ∉ g.keys → g.aliases v = v

theorem aliasOf_root {g : InterfereGraph V} {v : V} (h : g.aliases v = v) :
    g.aliasOf v = v :=
  Function.iterate_fixed h _

section Alias

variable {g : InterfereGraph V} {u v : V}

theorem iterate_eq_of_isFixedPt {f : V → V} {n m : Nat} (hnm : n ≤ m)
    (h : Function.IsFixedPt f (f^[n] v)) : f^[m] v = f^[n] v := by
  obtain ⟨k, rfl⟩ := Nat.exists_eq_add_of_le' hnm
  rw [Function.iterate_add_apply]
  exact Function.iterate_fixed h k

variable [DecidableEq V]

theorem AliasForest.aliasOf_eq (hg : g.AliasForest) (v : V) :
    g.aliasOf v = g.aliases^[(g.keys.filter fun v => g.aliases v ≠ v).length] v :=
  iterate_eq_of_isFixedPt (List.length_filter_le ..) (hg.depth v)

theorem AliasForest.root (hg : g.AliasForest) (v : V) : g.aliases (g.aliasOf v) = g.aliasOf v := by
  rw [hg.aliasOf_eq]
  exact hg.depth v

theorem AliasForest.aliasOf_idem (hg : g.AliasForest) (v : V) :
    g.aliasOf (g.aliasOf v) = g.aliasOf v := aliasOf_root (hg.root v)

theorem AliasForest.aliasOf_mem (hg : g.AliasForest) (h : v ∈ g.keys) : g.aliasOf v ∈ g.keys := by
  unfold aliasOf
  generalize g.keys.length = n
  induction n generalizing v with
  | zero => exact h
  | succ n ih =>
    rw [Function.iterate_succ_apply]
    exact ih (hg.mem v h)

/-- Redirecting one root lengthens every chain by at most that step. -/
theorem iterate_update {p : V → V} {src dest : V} (hsrc : p src = src) (hdest : p dest = dest)
    (hne : src ≠ dest) (n : Nat) (v : V) (h : Function.IsFixedPt p (p^[n] v)) :
    (Function.update p src dest)^[n + 1] v = if p^[n] v = src then dest else p^[n] v := by
  have hroot : Function.update p src dest dest = dest := by
    rw [Function.update_of_ne hne.symm, hdest]
  induction n generalizing v with
  | zero =>
    show Function.update p src dest v = if v = src then dest else v
    rw [Function.update_apply]
    by_cases hv : v = src
    · rw [if_pos hv, if_pos hv]
    · rw [if_neg hv, if_neg hv]
      exact h
  | succ n ih =>
    rw [Function.iterate_succ_apply]
    by_cases hv : v = src
    · subst hv
      rw [Function.update_self, Function.iterate_fixed hroot, Function.iterate_fixed hsrc,
        if_pos rfl]
    · rw [Function.update_of_ne hv]
      exact ih (p v) h

theorem isFixedPt_update {p : V → V} {src dest : V} (hsrc : p src = src) (hdest : p dest = dest)
    (hne : src ≠ dest) (n : Nat) (v : V) (h : Function.IsFixedPt p (p^[n] v)) :
    Function.IsFixedPt (Function.update p src dest) ((Function.update p src dest)^[n + 1] v) := by
  rw [iterate_update hsrc hdest hne n v h]
  show Function.update p src dest _ = _
  by_cases hv : p^[n] v = src
  · rw [if_pos hv, Function.update_of_ne hne.symm, hdest]
  · rw [if_neg hv, Function.update_of_ne hv]
    exact h

end Alias

section SetAlias

variable [LinearOrder V] {g : InterfereGraph V} {src dest : V}

theorem AliasForest.length_setAlias (hnd : g.keys.Nodup) (hmem : src ∈ g.keys)
    (hsrc : g.aliases src = src) (hne : src ≠ dest) :
    ((g.setAlias dest src).keys.filter fun v => (g.setAlias dest src).aliases v ≠ v).length
      = (g.keys.filter fun v => g.aliases v ≠ v).length + 1 := by
  have hperm : ((g.setAlias dest src).keys.filter
      fun v => (g.setAlias dest src).aliases v ≠ v).Perm
      (src :: g.keys.filter fun v => g.aliases v ≠ v) := by
    refine (List.perm_ext_iff_of_nodup (hnd.filter _) ?_).2 fun v => ?_
    · rw [List.nodup_cons]
      exact ⟨by simp [hsrc], hnd.filter _⟩
    · simp only [setAlias, List.mem_filter, List.mem_cons, Function.update_apply]
      by_cases hv : v = src
      · subst hv
        simp [hmem, hne.symm]
      · simp [hv]
  exact hperm.length_eq

theorem AliasForest.aliasOf_setAlias (hg : g.AliasForest) (hnd : g.keys.Nodup)
    (hmem : src ∈ g.keys) (hsrc : g.aliases src = src) (hdest : g.aliases dest = dest)
    (hne : src ≠ dest) (v : V) :
    (g.setAlias dest src).aliasOf v = if g.aliasOf v = src then dest else g.aliasOf v := by
  have hlen := length_setAlias hnd hmem hsrc hne
  have hle : (g.keys.filter fun v => g.aliases v ≠ v).length + 1 ≤ g.keys.length := by
    rw [← hlen]
    exact List.length_filter_le ..
  have hiter := iterate_update hsrc hdest hne _ v (hg.depth v)
  have hfix := isFixedPt_update hsrc hdest hne _ v (hg.depth v)
  show (Function.update g.aliases src dest)^[g.keys.length] v = _
  rw [iterate_eq_of_isFixedPt hle hfix, hiter, hg.aliasOf_eq]

theorem AliasForest.setAlias (hg : g.AliasForest) (hnd : g.keys.Nodup)
    (hmem : src ∈ g.keys) (hmem' : dest ∈ g.keys) (hsrc : g.aliases src = src)
    (hdest : g.aliases dest = dest) (hne : src ≠ dest) : (g.setAlias dest src).AliasForest := by
  refine ⟨fun v => ?_, fun v hv => ?_, fun v hv => ?_⟩
  · rw [length_setAlias hnd hmem hsrc hne]
    exact isFixedPt_update hsrc hdest hne _ v (hg.depth v)
  · show Function.update g.aliases src dest v ∈ g.keys
    rw [Function.update_apply]
    split
    · exact hmem'
    · exact hg.mem v hv
  · show Function.update g.aliases src dest v = v
    have hvs : v ≠ src := by
      rintro rfl
      exact hv hmem
    rw [Function.update_of_ne hvs]
    exact hg.outside v hv

end SetAlias

/-! ## Edges -/

/-- Two graphs that differ in degrees and interferences only. -/
structure Frame (g g' : InterfereGraph V) : Prop where
  keys : g'.keys = g.keys
  aliases : g'.aliases = g.aliases
  needRegister : g'.needRegister = g.needRegister
  move : ∀ v, (g'.node v).move = (g.node v).move
  color : ∀ v, (g'.node v).color = (g.node v).color

/-- Interference is a symmetric relation between different nodes, and what interferes
also does so under the aliases. -/
structure EdgeInv (g : InterfereGraph V) : Prop where
  symm : ∀ u v, v ∈ (g.node u).interfere → u ∈ (g.node v).interfere
  irrefl : ∀ u, u ∉ (g.node u).interfere
  mem : ∀ u v, v ∈ (g.node u).interfere → v ∈ g.keys
  closed : ∀ u v, v ∈ (g.node u).interfere →
    g.aliasOf v ∈ (g.node (g.aliasOf u)).interfere

section Frame

variable {g g' g'' : InterfereGraph V}

theorem Frame.refl (g : InterfereGraph V) : g.Frame g :=
  ⟨rfl, rfl, rfl, fun _ => rfl, fun _ => rfl⟩

theorem Frame.trans (h : g.Frame g') (h' : g'.Frame g'') : g.Frame g'' :=
  ⟨h'.keys.trans h.keys, h'.aliases.trans h.aliases, h'.needRegister.trans h.needRegister,
    fun v => (h'.move v).trans (h.move v), fun v => (h'.color v).trans (h.color v)⟩

theorem Frame.aliasOf (h : g.Frame g') (v : V) : g'.aliasOf v = g.aliasOf v := by
  unfold InterfereGraph.aliasOf
  rw [h.aliases, h.keys]

theorem Frame.aliasForest [DecidableEq V] (h : g.Frame g') (hg : g.AliasForest) :
    g'.AliasForest := by
  obtain ⟨hdepth, hmem, houtside⟩ := hg
  exact ⟨by rw [h.aliases, h.keys]; exact hdepth, by rw [h.aliases, h.keys]; exact hmem,
    by rw [h.aliases, h.keys]; exact houtside⟩

/-- The invariant of the edges speaks of nothing but edges, nodes and aliases. -/
theorem EdgeInv.frame (hg : g.EdgeInv) (h : g.Frame g')
    (hi : ∀ v, (g'.node v).interfere = (g.node v).interfere) : g'.EdgeInv := by
  refine ⟨fun u v => ?_, fun u => ?_, fun u v => ?_, fun u v => ?_⟩
  · rw [hi, hi]
    exact hg.symm u v
  · rw [hi]
    exact hg.irrefl u
  · rw [hi, h.keys]
    exact hg.mem u v
  · rw [hi, hi, h.aliasOf, h.aliasOf]
    exact hg.closed u v

end Frame

section Edges

variable [LinearOrder V] {g : InterfereGraph V} {u v w : V}

theorem ensure_of_mem (h : v ∈ g.keys) : g.ensure v = g := if_pos h

theorem nodeAt_of_mem (h : v ∈ g.keys) : g.nodeAt v = .ok (g.node v) := if_pos h

theorem get_of_mem (hg : g.AliasForest) (h : v ∈ g.keys) :
    g.get v = .ok (g.node (g.aliasOf v)) := nodeAt_of_mem (hg.aliasOf_mem h)

theorem mem_inOrder {s : Finset V} : v ∈ g.inOrder s ↔ v ∈ g.keys ∧ v ∈ s := by
  simp [inOrder]

theorem frame_modify {f : InterfereNode V → InterfereNode V}
    (hmove : ∀ n, (f n).move = n.move) (hcolor : ∀ n, (f n).color = n.color) :
    g.Frame (g.modify v f) := by
  refine ⟨rfl, rfl, rfl, fun w => ?_, fun w => ?_⟩
  · by_cases h : w = v
    · subst h
      simp [modify, hmove]
    · simp [modify, h]
  · by_cases h : w = v
    · subst h
      simp [modify, hcolor]
    · simp [modify, h]

theorem frame_addEdge : g.Frame (g.addEdge u v) := by
  unfold addEdge
  split
  · exact Frame.refl g
  · exact frame_modify (fun _ => rfl) fun _ => rfl

theorem mem_interfere_addEdge {x y : V} : x ∈ ((g.addEdge u v).node y).interfere ↔
    x ∈ (g.node y).interfere ∨ (y = u ∧ x = v) := by
  unfold addEdge
  by_cases hv : v ∈ (g.node u).interfere
  · rw [if_pos hv]
    constructor
    · exact Or.inl
    · rintro (h | ⟨rfl, rfl⟩)
      · exact h
      · exact hv
  · rw [if_neg hv]
    by_cases hy : y = u
    · subst hy
      simp [modify, or_comm]
    · simp [modify, hy]

theorem degree_addEdge {y : V} : ((g.addEdge u v).node y).degree =
    (g.node y).degree + if y = u ∧ v ∉ (g.node u).interfere then 1 else 0 := by
  unfold addEdge
  by_cases hv : v ∈ (g.node u).interfere
  · simp [hv]
  · rw [if_neg hv]
    by_cases hy : y = u
    · subst hy
      simp [modify, hv]
    · simp [modify, hy]

variable (hneed : ∀ v ∈ g.keys, g.needRegister v = true) (hg : g.AliasForest)

include hneed hg

private theorem interfere_eq (hu : u ∈ g.keys) (hv : v ∈ g.keys) : g.interfere u v =
    if g.aliasOf u = g.aliasOf v then g
    else (g.addEdge (g.aliasOf u) (g.aliasOf v)).addEdge (g.aliasOf v) (g.aliasOf u) := by
  simp only [interfere, hneed u hu, hneed v hv]
  simp [ensure_of_mem (hg.aliasOf_mem hu), ensure_of_mem (hg.aliasOf_mem hv)]

theorem frame_interfere (hu : u ∈ g.keys) (hv : v ∈ g.keys) : g.Frame (g.interfere u v) := by
  rw [interfere_eq hneed hg hu hv]
  split
  · exact Frame.refl g
  · exact frame_addEdge.trans frame_addEdge

/-- The one edge `interfere` adds, between the two aliases. -/
theorem mem_interfere_interfere (hu : u ∈ g.keys) (hv : v ∈ g.keys) {x y : V} :
    x ∈ ((g.interfere u v).node y).interfere ↔ x ∈ (g.node y).interfere ∨
      (g.aliasOf u ≠ g.aliasOf v ∧
        ((y = g.aliasOf u ∧ x = g.aliasOf v) ∨ (y = g.aliasOf v ∧ x = g.aliasOf u))) := by
  rw [interfere_eq hneed hg hu hv]
  by_cases h : g.aliasOf u = g.aliasOf v
  · simp [h]
  · rw [if_neg h, mem_interfere_addEdge, mem_interfere_addEdge]
    simp [h, or_assoc]

/-- The degree counts the edge that `interfere` adds, at both ends. -/
theorem degree_interfere (hu : u ∈ g.keys) (hv : v ∈ g.keys) (hne : g.aliasOf u ≠ g.aliasOf v)
    {y : V} : ((g.interfere u v).node y).degree = (g.node y).degree +
      if (y = g.aliasOf u ∧ g.aliasOf v ∉ (g.node (g.aliasOf u)).interfere) ∨
        (y = g.aliasOf v ∧ g.aliasOf u ∉ (g.node (g.aliasOf v)).interfere) then 1 else 0 := by
  rw [interfere_eq hneed hg hu hv, if_neg hne, degree_addEdge, degree_addEdge]
  simp only [mem_interfere_addEdge]
  by_cases hy : y = g.aliasOf u
  · subst hy
    simp [hne]
  · simp [hy, Ne.symm hne]

theorem maxColor_interfere (hu : u ∈ g.keys) (hv : v ∈ g.keys) :
    (g.interfere u v).maxColor = g.maxColor := by
  have hedge : ∀ (g : InterfereGraph V) (x y : V), (g.addEdge x y).maxColor = g.maxColor := by
    intro g x y
    unfold addEdge
    split
    · rfl
    · rfl
  rw [interfere_eq hneed hg hu hv]
  split
  · rfl
  · rw [hedge, hedge]

theorem EdgeInv.interfere (he : g.EdgeInv) (hu : u ∈ g.keys) (hv : v ∈ g.keys) :
    (g.interfere u v).EdgeInv := by
  have hmem := fun x y => mem_interfere_interfere hneed hg hu hv (x := x) (y := y)
  have hframe := frame_interfere hneed hg hu hv
  refine ⟨fun x y h => ?_, fun x h => ?_, fun x y h => ?_, fun x y h => ?_⟩
  · rw [hmem] at h ⊢
    rcases h with h | ⟨hne, ⟨rfl, rfl⟩ | ⟨rfl, rfl⟩⟩
    · exact Or.inl (he.symm x y h)
    · exact Or.inr ⟨hne, Or.inr ⟨rfl, rfl⟩⟩
    · exact Or.inr ⟨hne, Or.inl ⟨rfl, rfl⟩⟩
  · rw [hmem] at h
    rcases h with h | ⟨hne, ⟨hx, hx'⟩ | ⟨hx, hx'⟩⟩
    · exact he.irrefl x h
    · exact hne (hx.symm.trans hx')
    · exact hne (hx'.symm.trans hx)
  · rw [hmem] at h
    rw [hframe.keys]
    rcases h with h | ⟨_, ⟨_, rfl⟩ | ⟨_, rfl⟩⟩
    · exact he.mem x y h
    · exact hg.aliasOf_mem hv
    · exact hg.aliasOf_mem hu
  · rw [hframe.aliasOf, hframe.aliasOf, hmem]
    rw [hmem] at h
    rcases h with h | ⟨hne, ⟨rfl, rfl⟩ | ⟨rfl, rfl⟩⟩
    · exact Or.inl (he.closed x y h)
    · exact Or.inr ⟨hne, Or.inl ⟨hg.aliasOf_idem u, hg.aliasOf_idem v⟩⟩
    · exact Or.inr ⟨hne, Or.inr ⟨hg.aliasOf_idem v, hg.aliasOf_idem u⟩⟩

end Edges

/-- Merging: once `dest` has the edges of `src`, the edges stand under the new aliases. -/
theorem EdgeInv.setAlias [LinearOrder V] {g : InterfereGraph V} {src dest : V} (he : g.EdgeInv)
    (hg : g.AliasForest) (hnd : g.keys.Nodup) (hmem : src ∈ g.keys)
    (hsrc : g.aliases src = src) (hdest : g.aliases dest = dest) (hne : src ≠ dest)
    (hall : ∀ v ∈ (g.node src).interfere, g.aliasOf v ∈ (g.node dest).interfere) :
    (g.setAlias dest src).EdgeInv := by
  have halias := hg.aliasOf_setAlias hnd hmem hsrc hdest hne
  refine ⟨he.symm, he.irrefl, he.mem, fun u v h => ?_⟩
  rw [halias, halias]
  show _ ∈ (g.node _).interfere
  have hcl := he.closed u v h
  by_cases hu : g.aliasOf u = src
  · rw [if_pos hu]
    rw [hu] at hcl
    have hv : g.aliasOf v ≠ src := fun hv => he.irrefl src (hv ▸ hcl)
    rw [if_neg hv, ← hg.aliasOf_idem]
    exact hall _ hcl
  · rw [if_neg hu]
    by_cases hv : g.aliasOf v = src
    · rw [if_pos hv]
      rw [hv] at hcl
      have hall' := hall _ (he.symm _ _ hcl)
      rw [hg.aliasOf_idem] at hall'
      exact he.symm _ _ hall'
    · rw [if_neg hv]
      exact hcl

end InterfereGraph

end Lowering

end Cact
