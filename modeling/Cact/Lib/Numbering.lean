import Mathlib

/-!
# Value numbering

Values get numbers, and so do expressions, an operator applied to two numbers. A value that
is the result of an expression with a number gets that number, and can be replaced by the
value that had it first. Whatever values mean, and whatever operators do with meanings,
equal numbers stand for equal meanings, as long as operators have one result. So one
induction over the numbering serves types, words and all other interpretations.

- `assocFind`, `assocSet`: unordered maps as lists of their entries.
- `Numbering`, `lookup`, `convert`, `commute`: the tables, and what is done with them.
- `Sound`: the tables agree with an interpretation.
- `convert_some`: the value that replaces a result is a result of the same operation.
- `Sound.convert`, `Sound.commute`: the tables stay sound.
-/

namespace Cact

/-! ## Unordered maps -/

section Assoc

variable {K A : Type} (eq : K → K → Bool)

/-- The entry of a key. Keys are compared with `==` of the source, which may be partial. -/
def assocFind (m : List (K × A)) (k : K) : Option A := (m.find? fun e => eq e.1 k).map Prod.snd

/-- `m[k] = a` -/
def assocSet (m : List (K × A)) (k : K) (a : A) : List (K × A) :=
  if m.any fun e => eq e.1 k then m.map fun e => if eq e.1 k then (e.1, a) else e else m ++ [(k, a)]

/-- The comparison of keys that are equal only to themselves. -/
def sameKey [DecidableEq K] (k k' : K) : Bool := decide (k = k')

@[simp] theorem sameKey_iff [DecidableEq K] {k k' : K} : sameKey k k' = true ↔ k = k' := by
  simp [sameKey]

variable {eq} {m : List (K × A)} {k k' : K} {a b : A}

theorem mem_of_assocFind (h : assocFind eq m k = some a) : ∃ k', (k', a) ∈ m ∧ eq k' k = true := by
  obtain ⟨e, he, rfl⟩ := Option.map_eq_some_iff.1 h
  have hek := List.find?_some he
  exact ⟨e.1, List.mem_of_find?_eq_some he, hek⟩

theorem assocFind_eq_none : assocFind eq m k = none ↔ ∀ e ∈ m, eq e.1 k = false := by
  unfold assocFind
  simp

/-- An entry is the one that was set, or it was there before. -/
theorem mem_assocSet (h : (k', b) ∈ assocSet eq m k a) :
    (k', b) ∈ m ∨ b = a ∧ (k' = k ∨ eq k' k = true) := by
  unfold assocSet at h
  split at h
  · obtain ⟨e, he, heq⟩ := List.mem_map.1 h
    split at heq
    · rename_i hk
      cases heq
      exact .inr ⟨rfl, .inr hk⟩
    · cases heq
      exact .inl he
  · rcases List.mem_append.1 h with h | h
    · exact .inl h
    · cases List.mem_singleton.1 h
      exact .inr ⟨rfl, .inl rfl⟩

theorem mem_keys_assocSet (h : (k', b) ∈ assocSet eq m k a) : (∃ c, (k', c) ∈ m) ∨ k' = k := by
  unfold assocSet at h
  split at h
  · obtain ⟨e, he, heq⟩ := List.mem_map.1 h
    refine .inl ⟨e.2, ?_⟩
    split at heq <;> cases heq <;> exact he
  · rcases List.mem_append.1 h with h | h
    · exact .inl ⟨b, h⟩
    · cases List.mem_singleton.1 h
      exact .inr rfl

/-- A new key is added behind the others. -/
theorem assocSet_new (h : assocFind eq m k = none) : assocSet eq m k a = m ++ [(k, a)] := by
  unfold assocSet
  rw [if_neg]
  simpa using assocFind_eq_none.1 h

theorem assocFind_append (h : assocFind eq m k = none) (hk : eq k k = true) :
    assocFind eq (m ++ [(k, a)]) k = some a := by
  unfold assocFind
  rw [List.find?_append, List.find?_eq_none.2 (by simpa using assocFind_eq_none.1 h)]
  simp [hk]

theorem length_le_assocSet : m.length ≤ (assocSet eq m k a).length := by
  unfold assocSet
  split <;> simp

section Lawful

variable [DecidableEq K]

theorem assocFind_set_self : assocFind sameKey (assocSet sameKey m k a) k = some a := by
  unfold assocSet
  split
  · rename_i h
    obtain ⟨e, he, hek⟩ := List.any_eq_true.1 h
    unfold assocFind
    rw [List.find?_map]
    have hcond : ((fun e : K × A => sameKey e.1 k) ∘
        fun e => if sameKey e.1 k = true then (e.1, a) else e) = fun e => sameKey e.1 k := by
      funext e
      dsimp only [Function.comp]
      split <;> rfl
    rw [hcond]
    obtain ⟨d, hd⟩ := Option.isSome_iff_exists.1
      (List.find?_isSome (p := fun e : K × A => sameKey e.1 k) |>.2 ⟨e, he, hek⟩)
    have hdk := List.find?_some hd
    rw [hd, Option.map_some, Option.map_some, if_pos hdk]
  · rename_i h
    refine assocFind_append (assocFind_eq_none.2 fun e he => ?_) (by simp)
    cases hek : sameKey e.1 k with
    | false => rfl
    | true => exact absurd (List.any_eq_true.2 ⟨e, he, hek⟩) h

theorem assocFind_set_of_ne (h : k' ≠ k) :
    assocFind sameKey (assocSet sameKey m k a) k' = assocFind sameKey m k' := by
  unfold assocSet assocFind
  split
  · rw [List.find?_map, Option.map_map]
    have hcond : ((fun e : K × A => sameKey e.1 k') ∘
        fun e => if sameKey e.1 k = true then (e.1, a) else e) = fun e => sameKey e.1 k' := by
      funext e
      dsimp only [Function.comp]
      split <;> rfl
    rw [hcond]
    refine Option.map_congr fun e he => ?_
    have hek := List.find?_some he
    dsimp only [Function.comp]
    rw [if_neg]
    intro hek'
    exact h ((sameKey_iff.1 hek).symm.trans (sameKey_iff.1 hek'))
  · rw [List.find?_append]
    have hne : sameKey k k' = false := by
      cases hk : sameKey k k' with
      | false => rfl
      | true => exact absurd (sameKey_iff.1 hk).symm h
    cases m.find? fun e => sameKey e.1 k' <;> simp [hne]

end Lawful

end Assoc

/-! ## The tables -/

/-- The numbers of values and of expressions, and the first value of each number. -/
structure Numbering (V O : Type) where
  valueNum : List (V × Nat)
  exprNum : List ((O × Nat × Nat) × Nat)
  numValue : List (Nat × V)

namespace Numbering

section Tables

variable {V O : Type} (eq : V → V → Bool)

/-- The first value of a number. -/
def valueOf (N : Numbering V O) (n : Nat) : Option V := assocFind sameKey N.numValue n

/-- A value gets the next number. -/
def insert (N : Numbering V O) (v : V) : Numbering V O :=
  { N with
    valueNum := assocSet eq N.valueNum v N.valueNum.length
    numValue := assocSet sameKey N.numValue N.valueNum.length v }

/-- The number of a value that should have one: otherwise it gets the number 0. -/
def numAt (N : Numbering V O) (v : V) : Numbering V O × Nat :=
  match assocFind eq N.valueNum v with
  | some n => (N, n)
  | none => ({ N with valueNum := N.valueNum ++ [(v, 0)] }, 0)

/-- The number of a value, which may be new. -/
def lookup (N : Numbering V O) (v : V) : Numbering V O × Nat :=
  if (assocFind eq N.valueNum v).isSome then N.numAt eq v else (N.insert eq v).numAt eq v

variable [DecidableEq O]

/-- The number of an expression. -/
def exprOf (N : Numbering V O) (op : O) (a b : Nat) : Option Nat :=
  assocFind sameKey N.exprNum (op, a, b)

/-- The result of an expression gets the number that the expression has, and the first value
of this number is returned; a new expression gets the number of its result. -/
def convert (default : V) (N : Numbering V O) (op : O) (a b : Nat) (r : V) :
    Numbering V O × Option V :=
  match N.exprOf op a b with
  | some n => ({ N with valueNum := assocSet eq N.valueNum r n }, some ((N.valueOf n).getD default))
  | none =>
    let (N, n) := (N.insert eq r).numAt eq r
    ({ N with exprNum := assocSet sameKey N.exprNum (op, a, b) n }, none)

/-- The expression with its operands exchanged has the same number. -/
def commute (N : Numbering V O) (op : O) (a b : Nat) : Numbering V O :=
  { N with exprNum := assocSet sameKey N.exprNum (op, b, a) ((N.exprOf op a b).getD 0) }

end Tables

/-! ## Interpretations -/

section Sound

variable {V O D : Type} {eq : V → V → Bool}

/-- The tables agree with an interpretation: values of one number have one meaning, and the
number of an expression stands for what the operator makes of the meanings of its operands.
The values that expressions stand for satisfy `P`. -/
structure Sound (mean : V → D) (applies : O → D → D → D → Prop) (P : V → Prop)
    (N : Numbering V O) : Prop where
  bound : ∀ n v, (n, v) ∈ N.numValue → n < N.valueNum.length
  nums : ∀ x n, (x, n) ∈ N.valueNum → ∃ v, N.valueOf n = some v ∧ mean x = mean v
  exprs : ∀ op a b n, ((op, a, b), n) ∈ N.exprNum → ∃ x y z, N.valueOf a = some x ∧
    N.valueOf b = some y ∧ N.valueOf n = some z ∧ P z ∧ applies op (mean x) (mean y) (mean z)

/-- The values that have numbers are all in `dom`. -/
def Keys (dom : V → Prop) (N : Numbering V O) : Prop := ∀ x n, (x, n) ∈ N.valueNum → dom x

/-- The equality of the table is one of meanings. -/
structure Respects (eq : V → V → Bool) (mean : V → D) (dom : V → Prop) : Prop where
  refl : ∀ x, dom x → eq x x = true
  mean : ∀ x y, dom x → dom y → eq x y = true → mean x = mean y

/-- What has a first value keeps it. -/
def Extends (N N' : Numbering V O) : Prop := ∀ n v, N.valueOf n = some v → N'.valueOf n = some v

variable {mean : V → D} {applies : O → D → D → D → Prop} {P Q : V → Prop} {dom dom' : V → Prop}
  {N N' : Numbering V O} {x y r v : V} {op : O} {a b n : Nat}

theorem Extends.trans {N'' : Numbering V O} (h : Extends N N') (h' : Extends N' N'') :
    Extends N N'' := fun n v hv => h' n v (h n v hv)

theorem Keys.mono (h : Keys dom N) (hd : ∀ x, dom x → dom' x) : Keys dom' N :=
  fun x n hx => hd x (h x n hx)

theorem Sound.mono (h : Sound mean applies P N) (hP : ∀ z, P z → Q z) : Sound mean applies Q N where
  bound := h.bound
  nums := h.nums
  exprs op a b n he := by
    obtain ⟨x, y, z, hx, hy, hz, hPz, happ⟩ := h.exprs op a b n he
    exact ⟨x, y, z, hx, hy, hz, hP z hPz, happ⟩

theorem Sound.valueOf_lt (h : Sound mean applies P N) (hv : N.valueOf n = some v) :
    n < N.valueNum.length := by
  obtain ⟨k, hk, heq⟩ := mem_of_assocFind hv
  cases sameKey_iff.1 heq
  exact h.bound n v hk

/-- The next number is not in use. -/
theorem Sound.extends_insert (h : Sound mean applies P N) (eq : V → V → Bool) (r : V) :
    Extends N (N.insert eq r) := by
  intro n v hv
  have hne : n ≠ N.valueNum.length := Nat.ne_of_lt (h.valueOf_lt hv)
  exact (assocFind_set_of_ne hne).trans hv

theorem valueOf_insert : (insert eq N r).valueOf N.valueNum.length = some r := assocFind_set_self

theorem Sound.insert (h : Sound mean applies P N) (hr : assocFind eq N.valueNum r = none) :
    Sound mean applies P (N.insert eq r) := by
  have hext := h.extends_insert eq r
  have hvals : (N.insert eq r).valueNum = N.valueNum ++ [(r, N.valueNum.length)] := assocSet_new hr
  refine ⟨fun n v hv => ?_, fun x n hx => ?_, fun op a b n he => ?_⟩
  · rw [hvals, List.length_append, List.length_singleton]
    rcases mem_assocSet hv with hv | ⟨-, hn⟩
    · exact Nat.lt_succ_of_lt (h.bound n v hv)
    · have heq : n = N.valueNum.length := by simpa using hn
      omega
  · rw [hvals] at hx
    rcases List.mem_append.1 hx with hx | hx
    · obtain ⟨v, hv, hm⟩ := h.nums x n hx
      exact ⟨v, hext n v hv, hm⟩
    · cases List.mem_singleton.1 hx
      exact ⟨r, valueOf_insert, rfl⟩
  · obtain ⟨x, y, z, hx, hy, hz, hPz, happ⟩ := h.exprs op a b n he
    exact ⟨x, y, z, hext a x hx, hext b y hy, hext n z hz, hPz, happ⟩

theorem Keys.insert (h : Keys dom N) (hr : dom r) : Keys dom (N.insert eq r) := by
  intro x n hx
  rcases mem_keys_assocSet hx with ⟨c, hc⟩ | rfl
  · exact h x c hc
  · exact hr

/-- A new value is found right after it was inserted. -/
theorem numAt_insert (hr : assocFind eq N.valueNum r = none) (hrefl : eq r r = true) :
    (N.insert eq r).numAt eq r = (N.insert eq r, N.valueNum.length) := by
  unfold numAt
  have hvals : (N.insert eq r).valueNum = N.valueNum ++ [(r, N.valueNum.length)] := assocSet_new hr
  rw [hvals, assocFind_append hr hrefl]

/-- The number of an operand stands for its meaning. -/
theorem Sound.lookup (h : Sound mean applies P N) (hk : Keys dom N)
    (he : Respects eq mean dom) (hx : dom x) :
    Sound mean applies P (N.lookup eq x).1 ∧ Keys dom (N.lookup eq x).1 ∧
      Extends N (N.lookup eq x).1 ∧
      ∃ v, (N.lookup eq x).1.valueOf (N.lookup eq x).2 = some v ∧ mean x = mean v := by
  unfold Numbering.lookup
  cases hf : assocFind eq N.valueNum x with
  | some n =>
    have hnum : N.numAt eq x = (N, n) := by
      unfold numAt
      rw [hf]
    rw [Option.isSome_some, if_pos rfl, hnum]
    refine ⟨h, hk, fun _ _ hv => hv, ?_⟩
    obtain ⟨k, hkn, hkx⟩ := mem_of_assocFind hf
    obtain ⟨v, hv, hm⟩ := h.nums k n hkn
    exact ⟨v, hv, (he.mean k x (hk k n hkn) hx hkx).symm.trans hm⟩
  | none =>
    rw [Option.isSome_none, if_neg (by simp), numAt_insert hf (he.refl x hx)]
    exact ⟨h.insert hf, hk.insert hx, h.extends_insert eq x, x, valueOf_insert, rfl⟩

variable [DecidableEq O]

/-- The value that replaces a result is what the operator makes of the operands. -/
theorem convert_some {default : V} (h : Sound mean applies P N)
    (hv : (N.convert eq default op a b r).2 = some v) (ha : N.valueOf a = some x)
    (hb : N.valueOf b = some y) :
    P v ∧ applies op (mean x) (mean y) (mean v) := by
  unfold convert at hv
  split at hv
  · rename_i n hn
    obtain ⟨e, hmem, heq⟩ := mem_of_assocFind hn
    cases sameKey_iff.1 heq
    obtain ⟨x', y', z, hx, hy, hz, hPz, happ⟩ := h.exprs op a b n hmem
    cases hx.symm.trans ha
    cases hy.symm.trans hb
    cases hv
    rw [hz]
    exact ⟨hPz, happ⟩
  · cases hv

/-- The operators have one result. -/
def Functional (applies : O → D → D → D → Prop) : Prop :=
  ∀ op X Y Z Z', applies op X Y Z → applies op X Y Z' → Z = Z'

theorem Sound.convert (default : V) (h : Sound mean applies P N) (hk : Keys dom N)
    (hfun : Functional applies) (hfresh : ∀ z, dom z → eq z r = false) (hrefl : eq r r = true)
    (ha : N.valueOf a = some x) (hb : N.valueOf b = some y) (hr : P r)
    (happ : applies op (mean x) (mean y) (mean r)) :
    Sound mean applies P (N.convert eq default op a b r).1 ∧
      Keys (fun z => dom z ∨ z = r) (N.convert eq default op a b r).1 ∧
      Extends N (N.convert eq default op a b r).1 ∧
      (N.convert eq default op a b r).1.exprOf op a b ≠ none := by
  have hnew : assocFind eq N.valueNum r = none :=
    assocFind_eq_none.2 fun e he => hfresh e.1 (hk e.1 e.2 he)
  unfold Numbering.convert
  cases hn : N.exprOf op a b with
  | some n =>
    dsimp only
    obtain ⟨e, hmem, heq⟩ := mem_of_assocFind hn
    cases sameKey_iff.1 heq
    obtain ⟨x', y', z, hx, hy, hz, -, happ'⟩ := h.exprs op a b n hmem
    cases hx.symm.trans ha
    cases hy.symm.trans hb
    rw [assocSet_new hnew]
    refine ⟨⟨fun n v hv => ?_, fun w m hw => ?_, h.exprs⟩, fun w m hw => ?_, fun _ _ hv => hv, ?_⟩
    · rw [List.length_append]
      exact Nat.lt_add_right _ (h.bound n v hv)
    · rcases List.mem_append.1 hw with hw | hw
      · exact h.nums w m hw
      · cases List.mem_singleton.1 hw
        exact ⟨z, hz, hfun op _ _ _ _ happ happ'⟩
    · rcases List.mem_append.1 hw with hw | hw
      · exact .inl (hk w m hw)
      · cases List.mem_singleton.1 hw
        exact .inr rfl
    · show N.exprOf op a b ≠ none
      rw [hn]
      simp
  | none =>
    dsimp only
    rw [numAt_insert hnew hrefl]
    have hext := h.extends_insert eq r
    have hs := h.insert hnew
    refine ⟨⟨hs.bound, hs.nums, fun op' a' b' n he => ?_⟩, ?_, hext, ?_⟩
    · rcases mem_assocSet he with he | ⟨rfl, hkey⟩
      · exact hs.exprs op' a' b' n he
      · have hkey' : (op', a', b') = (op, a, b) := by simpa using hkey
        cases hkey'
        have hself : (Numbering.insert eq N r).valueOf N.valueNum.length = some r := valueOf_insert
        exact ⟨x, y, r, hext _ _ ha, hext _ _ hb, hself, hr, happ⟩
    · exact (hk.mono fun z hz => .inl hz).insert (.inr rfl)
    · show assocFind _ (assocSet _ _ _ _) _ ≠ none
      rw [assocFind_set_self]
      simp

theorem Sound.commute (h : Sound mean applies P N) (he : N.exprOf op a b ≠ none)
    (hcomm : ∀ X Y Z, applies op X Y Z → applies op Y X Z) :
    Sound mean applies P (N.commute op a b) := by
  obtain ⟨n, hn⟩ := Option.ne_none_iff_exists'.1 he
  refine ⟨h.bound, h.nums, fun op' a' b' m hm => ?_⟩
  unfold Numbering.commute at hm
  rw [hn] at hm
  rcases mem_assocSet hm with hm | ⟨hmn, hkey⟩
  · exact h.exprs op' a' b' m hm
  · have hkey' : (op', a', b') = (op, b, a) := by simpa using hkey
    cases hkey'
    cases hmn
    obtain ⟨e, hmem, heq⟩ := mem_of_assocFind hn
    cases sameKey_iff.1 heq
    obtain ⟨x, y, z, hx, hy, hz, hPz, happ⟩ := h.exprs op a b n hmem
    exact ⟨y, x, z, hy, hx, hz, hPz, hcomm _ _ _ happ⟩

end Sound

end Numbering

end Cact
