import Mathlib

/-!
# Graphs under construction

A builder allocates nodes and gives each, once, the list of its successors. Until
then the node is open. `Grows` says what a piece of work has done to a graph: which
of the old nodes it closed, and which old nodes it made edges to. Pieces of work
compose, and so do the two things one wants to know in the end: that every new node
can be reached, or that some new node never got an edge.

- `OpenGraph`, `alloc`, `close`: the graph and the two steps of a builder.
- `Grows`: what a piece of work does; `Grows.trans`.
- `Reach`, `Orphan`: reachable nodes and nodes without an edge to them.
-/

namespace Cact

/-- Nodes are numbered; a node without a list of successors is open. -/
structure OpenGraph where
  next : Nat
  out : Nat → Option (List Nat)

namespace OpenGraph

variable {F F₁ F₂ : OpenGraph} {S S₁ L L₁ : Set Nat} {a b e t : Nat}

/-- A new node. -/
def alloc (F : OpenGraph) : OpenGraph := { F with next := F.next + 1 }

/-- The successors of a node. -/
def close (F : OpenGraph) (b : Nat) (ts : List Nat) : OpenGraph :=
  { F with out := Function.update F.out b (some ts) }

@[simp] theorem alloc_next (F : OpenGraph) : F.alloc.next = F.next + 1 := rfl

@[simp] theorem alloc_out (F : OpenGraph) : F.alloc.out = F.out := rfl

@[simp] theorem close_next (F : OpenGraph) (b : Nat) (ts : List Nat) :
    (F.close b ts).next = F.next := rfl

@[simp] theorem close_out_self (F : OpenGraph) (b : Nat) (ts : List Nat) :
    (F.close b ts).out b = some ts := by simp [close]

theorem close_out_of_ne (F : OpenGraph) {b c : Nat} (ts : List Nat) (h : c ≠ b) :
    (F.close b ts).out c = F.out c := by simp [close, h]

/-- `b` has been allocated and is open. -/
def Open (F : OpenGraph) (b : Nat) : Prop := b < F.next ∧ F.out b = none

/-- There is an edge from `b` to `t`. -/
def Edge (F : OpenGraph) (b t : Nat) : Prop := ∃ ts, F.out b = some ts ∧ t ∈ ts

/-- Edges lead from `b` to `t`. -/
def Reach (F : OpenGraph) : Nat → Nat → Prop := Relation.ReflTransGen F.Edge

/-- No edge leads to `e`. -/
def Orphan (F : OpenGraph) (e : Nat) : Prop := ∀ b, ¬F.Edge b e

/-- Only allocated nodes have edges, and only to allocated nodes. -/
structure Closed (F : OpenGraph) : Prop where
  out_lt : ∀ b ts, F.out b = some ts → b < F.next
  target_lt : ∀ b t, F.Edge b t → t < F.next

/-! ## What a piece of work does -/

/-- Work that closes old nodes of `S` and new ones, and makes edges to old nodes of `L`
and new ones. -/
structure Grows (F F' : OpenGraph) (S L : Set Nat) : Prop where
  le : F.next ≤ F'.next
  keep : ∀ b ts, F.out b = some ts → F'.out b = some ts
  frame : ∀ b, b < F.next → b ∉ S → F'.out b = F.out b
  closed : F.Closed → F'.Closed
  target : ∀ b t, F'.Edge b t → F.Edge b t ∨ t ∈ L ∨ F.next ≤ t

theorem Grows.refl (F : OpenGraph) (S L : Set Nat) : F.Grows F S L where
  le := le_rfl
  keep _ _ h := h
  frame _ _ _ := rfl
  closed h := h
  target _ _ h := .inl h

/-- The second piece of work may also use what the first has allocated. -/
theorem Grows.trans (h : F.Grows F₁ S L) (h₁ : F₁.Grows F₂ S₁ L₁)
    (hS : ∀ b ∈ S₁, b ∈ S ∨ F.next ≤ b) (hL : ∀ t ∈ L₁, t ∈ L ∨ F.next ≤ t) :
    F.Grows F₂ S L where
  le := h.le.trans h₁.le
  keep b ts hb := h₁.keep b ts (h.keep b ts hb)
  frame b hb hS' := by
    have hb₁ : b ∉ S₁ := fun hm => (hS b hm).elim hS' (by omega)
    rw [h₁.frame b (hb.trans_le h.le) hb₁, h.frame b hb hS']
  closed hc := h₁.closed (h.closed hc)
  target b t he := by
    rcases h₁.target b t he with h' | ht | ht
    · exact h.target b t h'
    · exact .inr (hL t ht)
    · exact .inr (.inr (h.le.trans ht))

theorem Grows.mono {S' L' : Set Nat} (h : F.Grows F₁ S L) (hS : S ⊆ S') (hL : L ⊆ L') :
    F.Grows F₁ S' L' :=
  (Grows.refl F S' L').trans h (fun _ hb => .inl (hS hb)) fun _ ht => .inl (hL ht)

theorem grows_alloc (F : OpenGraph) (S L : Set Nat) : F.Grows F.alloc S L where
  le := Nat.le_succ _
  keep _ _ h := h
  frame _ _ _ := rfl
  closed h := ⟨fun b ts hb => Nat.lt_succ_of_lt (h.out_lt b ts hb),
    fun b t he => Nat.lt_succ_of_lt (h.target_lt b t he)⟩
  target _ _ h := .inl h

theorem grows_close {ts : List Nat} (ho : F.Open b) (hb : b ∈ S)
    (hts : ∀ t ∈ ts, t < F.next ∧ t ∈ L) : F.Grows (F.close b ts) S L where
  le := le_rfl
  keep c cs hc := by
    have hne : c ≠ b := by
      rintro rfl
      rw [ho.2] at hc
      cases hc
    rw [close_out_of_ne F ts hne, hc]
  frame c _ hS := close_out_of_ne F ts fun h => hS (h ▸ hb)
  closed h := by
    constructor
    · intro c cs hc
      by_cases hcb : c = b
      · exact hcb ▸ ho.1
      · exact h.out_lt c cs (by rwa [close_out_of_ne F ts hcb] at hc)
    · rintro c t ⟨cs, hc, ht⟩
      by_cases hcb : c = b
      · subst hcb
        rw [close_out_self] at hc
        cases hc
        exact (hts t ht).1
      · rw [close_out_of_ne F ts hcb] at hc
        exact h.target_lt c t ⟨cs, hc, ht⟩
  target c t := by
    rintro ⟨cs, hc, ht⟩
    by_cases hcb : c = b
    · subst hcb
      rw [close_out_self] at hc
      cases hc
      exact .inr (.inl (hts t ht).2)
    · rw [close_out_of_ne F ts hcb] at hc
      exact .inl ⟨cs, hc, ht⟩

/-! ## Open nodes -/

theorem open_alloc : F.alloc.Open b ↔ F.Open b ∨ b = F.next ∧ F.out b = none := by
  simp only [Open, alloc_next, alloc_out]
  constructor
  · rintro ⟨hlt, hb⟩
    rcases Nat.lt_succ_iff_lt_or_eq.mp hlt with h | h
    · exact .inl ⟨h, hb⟩
    · exact .inr ⟨h, hb⟩
  · rintro (⟨hlt, hb⟩ | ⟨rfl, hb⟩)
    · exact ⟨by omega, hb⟩
    · exact ⟨by omega, hb⟩

theorem Closed.open_alloc (h : F.Closed) : F.alloc.Open b ↔ F.Open b ∨ b = F.next := by
  rw [OpenGraph.open_alloc]
  refine or_congr_right ⟨And.left, fun hb => ⟨hb, ?_⟩⟩
  cases hb' : F.out b with
  | none => rfl
  | some ts => exact absurd (h.out_lt b ts hb') (by omega)

theorem open_close {ts : List Nat} : (F.close b ts).Open a ↔ F.Open a ∧ a ≠ b := by
  simp only [Open, close_next]
  by_cases hab : a = b
  · subst hab
    simp
  · simp [close_out_of_ne F ts hab, hab]

theorem Grows.open_of_notMem (h : F.Grows F₁ S L) (hb : b < F.next) (hS : b ∉ S) :
    F₁.Open b ↔ F.Open b := by
  have hle := h.le
  rw [Open, Open, h.frame b hb hS]
  exact and_congr_left fun _ => ⟨fun _ => hb, fun _ => by omega⟩

/-! ## Reachable nodes and orphans -/

theorem Grows.edge (h : F.Grows F₁ S L) (he : F.Edge a b) : F₁.Edge a b := by
  obtain ⟨ts, hts, hb⟩ := he
  exact ⟨ts, h.keep a ts hts, hb⟩

theorem Grows.reach (h : F.Grows F₁ S L) (hr : F.Reach a b) : F₁.Reach a b :=
  hr.lift id fun _ _ he => h.edge he

theorem reach_close {ts : List Nat} (ht : t ∈ ts) : (F.close b ts).Reach b t :=
  .single ⟨ts, close_out_self F b ts, ht⟩

/-- A node without an edge to it stays so while new nodes are connected. -/
theorem Grows.orphan (h : F.Grows F₁ S L) (he : e < F.next) (hL : e ∉ L) (ho : F.Orphan e) :
    F₁.Orphan e := by
  intro b hb
  rcases h.target b e hb with hb | ht | ht
  · exact ho b hb
  · exact hL ht
  · omega

/-- No edge leads to a node before it is allocated. -/
theorem Closed.orphan (h : F.Closed) (he : F.next ≤ e) : F.Orphan e :=
  fun b hb => absurd (h.target_lt b e hb) (by omega)

end OpenGraph
end Cact
