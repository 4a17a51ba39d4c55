import Cact.Lib.Loop

/-!
# Searching a graph

A search keeps the nodes it has seen and a stack of those whose successors are still to be
looked at. A node goes on the stack when it is seen for the first time. What the successors
of a node are may be unknown, which ends the search with an error.

- `Found`: the nodes that a path leads to.
- `search_ok`: the search has seen these when it ends, and knows the successors of each.
- `search_total`: it ends when there are finitely many, with known successors.
-/

namespace Cact

/-- The nodes seen so far, and those among them that are still to be looked at. -/
structure Search (α : Type) where
  seen : Finset α
  pending : List α

section Search

variable {ε α : Type} [DecidableEq α] (next : α → Except ε (List α))

namespace Search

/-- A node is seen. -/
def visit (s : Search α) (a : α) : Search α :=
  if a ∈ s.seen then s else ⟨insert a s.seen, a :: s.pending⟩

/-- The successors of the last pending node are seen. -/
def round (s : Search α) : Except ε (Search α) :=
  match s.pending with
  | [] => .ok s
  | a :: rest => do
    let succs ← next a
    return succs.foldl visit { s with pending := rest }

end Search

/-- What has been seen from `start` when nothing is pending any more. -/
def search (fuel : Nat) (start : α) : Except ε (Option (Finset α)) := do
  let s ← whileM (fun s => !s.pending.isEmpty) (Search.round next) fuel ⟨{start}, [start]⟩
  return s.map Search.seen

/-- The nodes that a path leads to from `start`. -/
inductive Found (start : α) : α → Prop
  | start : Found start start
  | next {a b : α} {succs : List α} : Found start a → next a = .ok succs → b ∈ succs →
      Found start b

variable {next} {start a : α} {s : Search α}

/-! ## Rounds of a search -/

namespace Search

theorem mem_visit {b : α} : b ∈ (s.visit a).seen ↔ b = a ∨ b ∈ s.seen := by
  unfold visit
  split
  · rename_i ha
    exact ⟨.inr, fun h => h.elim (fun h => h ▸ ha) id⟩
  · exact Finset.mem_insert

theorem mem_foldl_visit {l : List α} {b : α} :
    b ∈ (l.foldl visit s).seen ↔ b ∈ l ∨ b ∈ s.seen := by
  induction l generalizing s with
  | nil => simp
  | cons a l ih =>
    rw [List.foldl_cons, ih, mem_visit, List.mem_cons]
    tauto

/-- What is pending has been seen, and what is not pending has been looked at. -/
structure Inv (next : α → Except ε (List α)) (start : α) (s : Search α) : Prop where
  nodup : s.pending.Nodup
  pending : ∀ a ∈ s.pending, a ∈ s.seen
  root : start ∈ s.seen
  found : ∀ a ∈ s.seen, Found next start a
  closed : ∀ a ∈ s.seen, a ∉ s.pending → ∃ succs, next a = .ok succs ∧ ∀ b ∈ succs, b ∈ s.seen

/-- New nodes are pending, and the old ones are as before. -/
theorem foldl_visit {l : List α} (hn : s.pending.Nodup) (hp : ∀ a ∈ s.pending, a ∈ s.seen) :
    (l.foldl visit s).pending.Nodup ∧
      (∀ a ∈ (l.foldl visit s).pending, a ∈ (l.foldl visit s).seen) ∧
      ∀ a ∈ (l.foldl visit s).seen, a ∉ (l.foldl visit s).pending → a ∈ s.seen ∧ a ∉ s.pending := by
  induction l generalizing s with
  | nil => exact ⟨hn, hp, fun a ha hnp => ⟨ha, hnp⟩⟩
  | cons b l ih =>
    rw [List.foldl_cons]
    by_cases hb : b ∈ s.seen
    · rw [show s.visit b = s from if_pos hb]
      exact ih hn hp
    · have hvisit : s.visit b = ⟨insert b s.seen, b :: s.pending⟩ := if_neg hb
      rw [hvisit]
      have hn' : (b :: s.pending).Nodup := List.nodup_cons.2 ⟨fun h => hb (hp b h), hn⟩
      have hp' : ∀ a ∈ b :: s.pending, a ∈ insert b s.seen := by
        intro a ha
        rcases List.mem_cons.1 ha with rfl | ha
        · exact Finset.mem_insert_self _ _
        · exact Finset.mem_insert_of_mem (hp a ha)
      obtain ⟨hnod, hpend, hold⟩ := ih (s := ⟨insert b s.seen, b :: s.pending⟩) hn' hp'
      refine ⟨hnod, hpend, fun a ha hnp => ?_⟩
      obtain ⟨hseen, hnot⟩ := hold a ha hnp
      rw [List.mem_cons, not_or] at hnot
      exact ⟨(Finset.mem_insert.1 hseen).resolve_left hnot.1, hnot.2⟩

omit [DecidableEq α] in
theorem Inv.start_state : Inv next start ⟨{start}, [start]⟩ := by
  refine ⟨by simp, by simp, by simp, ?_, ?_⟩
  · intro a ha
    rw [Finset.mem_singleton.1 ha]
    exact .start
  · intro a ha hn
    exact absurd (List.mem_singleton.2 (Finset.mem_singleton.1 ha)) hn

/-- A round keeps the invariant, and looks at one pending node. -/
theorem Inv.round (h : Inv next start s) {s' : Search α} (hr : s.round next = .ok s') :
    Inv next start s' := by
  obtain ⟨seen, pending⟩ := s
  cases pending with
  | nil =>
    cases hr
    exact h
  | cons a rest =>
    simp only [Search.round] at hr
    cases ha : next a with
    | error e =>
      rw [ha] at hr
      cases hr
    | ok succs =>
      rw [ha] at hr
      cases hr
      have hnod := List.nodup_cons.1 h.nodup
      obtain ⟨hn, hp, hold⟩ := foldl_visit (s := ⟨seen, rest⟩) (l := succs) hnod.2
        fun b hb => h.pending b (List.mem_cons_of_mem _ hb)
      have hmono : ∀ b ∈ seen, b ∈ (succs.foldl visit ⟨seen, rest⟩).seen := fun b hb =>
        mem_foldl_visit.2 (.inr hb)
      refine ⟨hn, hp, hmono _ h.root, ?_, ?_⟩
      · intro b hb
        rcases mem_foldl_visit.1 hb with hb | hb
        · exact .next (h.found a (h.pending a (by simp))) ha hb
        · exact h.found b hb
      · intro b hb hnp
        obtain ⟨hseen, hrest⟩ := hold b hb hnp
        by_cases hba : b = a
        · subst hba
          exact ⟨succs, ha, fun c hc => mem_foldl_visit.2 (.inl hc)⟩
        · obtain ⟨l, hl, hsub⟩ := h.closed b hseen (by simp [hba, hrest])
          exact ⟨l, hl, fun c hc => hmono c (hsub c hc)⟩

end Search

/-! ## Results of a search -/

/-- The search sees what can be found, and it has looked at all of it. -/
theorem search_ok {fuel : Nat} {seen : Finset α} (h : search next fuel start = .ok (some seen)) :
    (∀ a, a ∈ seen ↔ Found next start a) ∧
      ∀ a ∈ seen, ∃ succs, next a = .ok succs ∧ ∀ b ∈ succs, b ∈ seen := by
  unfold search at h
  cases hw : whileM (fun s : Search α => !s.pending.isEmpty) (Search.round next) fuel
      ⟨{start}, [start]⟩ with
  | error e =>
    rw [hw] at h
    cases h
  | ok o =>
    rw [hw] at h
    cases o with
    | none => cases h
    | some s =>
      cases h
      obtain ⟨hrounds, hend⟩ := whileM_ok hw
      have hinv : s.Inv next start :=
        hrounds.inv (fun s s' hs _ hr => hs.round hr) Search.Inv.start_state
      have hnil : s.pending = [] := by simpa using hend
      have hclosed : ∀ a ∈ s.seen, ∃ succs, next a = .ok succs ∧ ∀ b ∈ succs, b ∈ s.seen :=
        fun a ha => hinv.closed a ha (by simp [hnil])
      refine ⟨fun a => ⟨hinv.found a, fun hf => ?_⟩, hclosed⟩
      induction hf with
      | start => exact hinv.root
      | next _ hnext hb ih =>
        obtain ⟨succs, hs, hsub⟩ := hclosed _ ih
        cases hnext.symm.trans hs
        exact hsub _ hb

/-- A search through finitely many nodes with known successors ends. -/
theorem search_total {nodes : Finset α}
    (h : ∀ a, Found next start a → a ∈ nodes ∧ ∃ succs, next a = .ok succs) :
    ∃ fuel seen, search next fuel start = .ok (some seen) := by
  -- a node is looked at once: the nodes to see and those to look at become less
  let todo : Search α → Nat := fun s => 2 * (nodes \ s.seen).card + s.pending.length
  have hvisit : ∀ (s : Search α) (a : α), a ∈ nodes → todo (s.visit a) ≤ todo s := by
    intro s a ha
    unfold Search.visit
    split
    · exact Nat.le_refl _
    · rename_i hns
      have hlt : (nodes \ insert a s.seen).card < (nodes \ s.seen).card := by
        refine Finset.card_lt_card ⟨Finset.sdiff_subset_sdiff (Finset.Subset.refl _)
          (Finset.subset_insert _ _), fun hsub => ?_⟩
        have hmem := hsub (Finset.mem_sdiff.2 ⟨ha, hns⟩)
        exact (Finset.mem_sdiff.1 hmem).2 (Finset.mem_insert_self _ _)
      show 2 * (nodes \ insert a s.seen).card + (a :: s.pending).length ≤ _
      simp only [List.length_cons, todo]
      omega
  have hfold : ∀ (l : List α) (s : Search α), (∀ a ∈ l, a ∈ nodes) →
      todo (l.foldl Search.visit s) ≤ todo s := by
    intro l
    induction l with
    | nil => exact fun s _ => Nat.le_refl _
    | cons a l ih =>
      intro s hl
      rw [List.foldl_cons]
      exact (ih (s.visit a) fun b hb => hl b (List.mem_cons_of_mem _ hb)).trans
        (hvisit s a (hl a (by simp)))
  have hstep : ∀ s : Search α, s.Inv next start → (!s.pending.isEmpty) = true →
      Yields (s.round next) fun s' => s'.Inv next start ∧ todo s' < todo s := by
    rintro ⟨seen, pending⟩ hinv hc
    cases pending with
    | nil => simp at hc
    | cons a rest =>
      have hfound := hinv.found a (hinv.pending a (by simp))
      obtain ⟨succs, ha⟩ := (h a hfound).2
      have hround : Search.round next ⟨seen, a :: rest⟩ =
          .ok (succs.foldl Search.visit ⟨seen, rest⟩) := by
        simp only [Search.round, ha]
        rfl
      have hle := hfold succs ⟨seen, rest⟩ fun b hb => (h b (.next hfound ha hb)).1
      refine ⟨_, hround, hinv.round hround, Nat.lt_of_le_of_lt hle ?_⟩
      simp only [todo, List.length_cons]
      omega
  obtain ⟨fuel, s, hs, -, -⟩ := whileM_total wellFounded_lt hstep Search.Inv.start_state
  refine ⟨fuel, s.seen, ?_⟩
  unfold search
  rw [hs]
  rfl

/-- More rounds than a search needs make no difference. -/
theorem search_mono {n m : Nat} {seen : Finset α} (hnm : n ≤ m)
    (h : search next n start = .ok (some seen)) : search next m start = .ok (some seen) := by
  unfold search at h ⊢
  cases hw : whileM (fun s : Search α => !s.pending.isEmpty) (Search.round next) n
      ⟨{start}, [start]⟩ with
  | error e =>
    rw [hw] at h
    cases h
  | ok o =>
    rw [hw] at h
    cases o with
    | none => cases h
    | some s =>
      rw [whileM_mono hnm hw]
      exact h

end Search

end Cact
