import Mathlib.Data.List.Basic

/-!
# Writes into a buffer

A buffer is a list of fixed length, and a write replaces a stretch of it.

- `put`, `puts`: one write, and several in their order.
- `Apart`: each write starts behind the one before it.
- `getElem?_puts_inside`, `getElem?_puts_outside`: writes that are apart can all be read
  back, and nothing else has changed.
-/

namespace Cact

namespace Buffer

variable {β : Type} {buf xs : List β} {ws : List (Nat × List β)} {w : Nat × List β} {off i k : Nat}

/-- The buffer after a write. -/
def put (buf : List β) (off : Nat) (xs : List β) : List β :=
  buf.take off ++ xs ++ buf.drop (off + xs.length)

theorem length_put (h : off + xs.length ≤ buf.length) : (put buf off xs).length = buf.length := by
  simp only [put, List.length_append, List.length_take, List.length_drop]
  omega

theorem getElem?_put_inside (h : off + xs.length ≤ buf.length) (hk : k < xs.length) :
    (put buf off xs)[off + k]? = xs[k]? := by
  have htake : (buf.take off).length = off := by
    rw [List.length_take]
    omega
  rw [put, List.append_assoc, List.getElem?_append_right (by omega), htake, Nat.add_sub_cancel_left,
    List.getElem?_append_left hk]

theorem getElem?_put_outside (h : off + xs.length ≤ buf.length)
    (hi : i < off ∨ off + xs.length ≤ i) : (put buf off xs)[i]? = buf[i]? := by
  have htake : (buf.take off).length = off := by
    rw [List.length_take]
    omega
  rcases hi with hi | hi
  · rw [put, List.append_assoc, List.getElem?_append_left (by omega), List.getElem?_take_of_lt hi]
  · rw [put, List.getElem?_append_right (by rw [List.length_append]; omega), List.getElem?_drop,
      List.length_append, htake]
    congr 1
    omega

/-- The buffer after several writes. -/
def puts (buf : List β) (ws : List (Nat × List β)) : List β :=
  ws.foldl (fun buf w => put buf w.1 w.2) buf

/-- The writes stay inside of the first `n` places. -/
def Inside (n : Nat) (ws : List (Nat × List β)) : Prop := ∀ w ∈ ws, w.1 + w.2.length ≤ n

/-- Each write starts behind those before it. -/
def Apart (ws : List (Nat × List β)) : Prop := ws.Pairwise fun w w' => w.1 + w.2.length ≤ w'.1

theorem length_puts (h : Inside buf.length ws) : (puts buf ws).length = buf.length := by
  induction ws generalizing buf with
  | nil => rfl
  | cons w ws ih =>
    have hw := length_put (h w List.mem_cons_self)
    have hws : Inside (put buf w.1 w.2).length ws := by
      rw [hw]
      exact fun w' hw' => h w' (List.mem_cons_of_mem _ hw')
    exact (ih hws).trans hw

/-- What no write touches is as before. -/
theorem getElem?_puts_outside (h : Inside buf.length ws)
    (hi : ∀ w ∈ ws, i < w.1 ∨ w.1 + w.2.length ≤ i) : (puts buf ws)[i]? = buf[i]? := by
  induction ws generalizing buf with
  | nil => rfl
  | cons w ws ih =>
    have hw := h w List.mem_cons_self
    have hws : Inside (put buf w.1 w.2).length ws := by
      rw [length_put hw]
      exact fun w' hw' => h w' (List.mem_cons_of_mem _ hw')
    exact (ih hws fun w' hw' => hi w' (List.mem_cons_of_mem _ hw')).trans
      (getElem?_put_outside hw (hi w List.mem_cons_self))

/-- What is written can be read back: later writes are behind it. -/
theorem getElem?_puts_inside (h : Inside buf.length ws) (hapart : Apart ws) (hw : w ∈ ws)
    (hk : k < w.2.length) : (puts buf ws)[w.1 + k]? = w.2[k]? := by
  induction ws generalizing buf with
  | nil => cases hw
  | cons w' ws ih =>
    have hw' := h w' List.mem_cons_self
    have hws : Inside (put buf w'.1 w'.2).length ws := by
      rw [length_put hw']
      exact fun v hv => h v (List.mem_cons_of_mem _ hv)
    obtain ⟨hbehind, hrest⟩ := List.pairwise_cons.mp hapart
    rcases List.mem_cons.mp hw with rfl | hmem
    · refine (getElem?_puts_outside hws fun v hv => .inl ?_).trans (getElem?_put_inside hw' hk)
      have := hbehind v hv
      omega
    · exact ih hws hrest hmem

end Buffer

end Cact
