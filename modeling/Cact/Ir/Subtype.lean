import Cact.Ir.Ir

/-!
# The order of the types (`backend/ir/type.hpp`)

Arrays apart, `operator<=` is a preorder and `operator|` its join. Arrays are left out
because they decay to references and references to them, which is not transitive.

- `Ty.leFuel_eq_le`: the order does not depend on the fuel it is computed with.
- `Ty.le_sum_left`, … , `Ty.le_reference`: what each pair of alternatives comes to.
- `Adt`: a type without arrays, whose sums are as their constructor leaves them.
- `Ty.mkSum`, `Ty.bitOr`: the constructor of sums, and `operator|` with what it may throw.
- `Adt.type_algebra`: the laws.
-/

namespace Cact

namespace Ir

theorem Ty.weight_pos (t : Ty) : 0 < t.weight := by
  cases t <;> simp [Ty.weight]

theorem Tys.weight_le_of_mem {t : Ty} : ∀ {ts : Tys}, t ∈ ts.toList → t.weight ≤ ts.weight
  | .nil, h => by cases h
  | .cons u us, h => by
    rw [Tys.weight]
    obtain rfl | h := List.mem_cons.1 h
    · exact Nat.le_add_right _ _
    · exact le_trans (Tys.weight_le_of_mem h) (Nat.le_add_left _ _)

namespace Ty

/-! ## The order without its fuel -/

section Fuel

variable {n m : Nat} {a b t : Ty} {items : Tys}

theorem all_congr_mem {α : Type} {l : List α} {p q : α → Bool} (h : ∀ x ∈ l, p x = q x) :
    l.all p = l.all q := by
  rw [Bool.eq_iff_iff, List.all_eq_true, List.all_eq_true]
  exact forall₂_congr fun x hx => by rw [h x hx]

theorem any_congr_mem {α : Type} {l : List α} {p q : α → Bool} (h : ∀ x ∈ l, p x = q x) :
    l.any p = l.any q := by
  rw [Bool.eq_iff_iff, List.any_eq_true, List.any_eq_true]
  exact exists_congr fun x => and_congr_right fun hx => by rw [h x hx]

/-- The recursive calls are all on smaller types. -/
theorem leFuel_congr
    (h : ∀ x y : Ty, x.weight + y.weight < a.weight + b.weight → leFuel n x y = leFuel m x y) :
    leFuel (n + 1) a b = leFuel (m + 1) a b := by
  have hsum : ∀ items, a = sum items → ∀ x ∈ items.toList, leFuel n x b = leFuel m x b := by
    rintro items rfl x hx
    have hle := Tys.weight_le_of_mem hx
    exact h x b (by rw [weight]; omega)
  have hsum' : ∀ items, b = sum items → ∀ y ∈ items.toList, leFuel n a y = leFuel m a y := by
    rintro items rfl y hy
    have hle := Tys.weight_le_of_mem hy
    exact h a y (by rw [weight]; omega)
  cases a with
  | bottom => rfl
  | sum items =>
    cases b with
    | top => rfl
    | _ => exact all_congr_mem (hsum items rfl)
  | prim p =>
    cases b with
    | sum items => exact any_congr_mem (hsum' items rfl)
    | _ => rfl
  | top =>
    cases b with
    | sum items => exact any_congr_mem (hsum' items rfl)
    | _ => rfl
  | product items =>
    cases b with
    | sum items' => exact any_congr_mem (hsum' items' rfl)
    | product items' =>
      refine congrArg (_ && ·) (all_congr_mem fun p hp => ?_)
      obtain ⟨hx, hy⟩ := List.of_mem_zip (a := p.1) (b := p.2) hp
      have hle := Tys.weight_le_of_mem hx
      have hle' := Tys.weight_le_of_mem hy
      exact h p.1 p.2 (by rw [weight, weight]; omega)
    | _ => rfl
  | func params ret =>
    cases b with
    | sum items' => exact any_congr_mem (hsum' items' rfl)
    | func params' ret' =>
      show (leFuel n params' params && leFuel n ret ret') = _
      rw [h params' params (by simp only [weight]; omega), h ret ret' (by simp only [weight]; omega)]
      rfl
    | _ => rfl
  | array elem size =>
    cases b with
    | sum items' => exact any_congr_mem (hsum' items' rfl)
    | array elem' size' =>
      show (leFuel n elem elem' && leFuel n elem' elem && _) = _
      rw [h elem elem' (by simp only [weight]; omega), h elem' elem (by simp only [weight]; omega)]
      rfl
    | reference elem' readonly isSlice =>
      show (leFuel n elem elem' && (readonly || leFuel n elem' elem)) = _
      rw [h elem elem' (by simp only [weight]; omega), h elem' elem (by simp only [weight]; omega)]
      rfl
    | _ => rfl
  | reference elem readonly isSlice =>
    cases b with
    | sum items' => exact any_congr_mem (hsum' items' rfl)
    | array elem' size' =>
      show (leFuel n elem elem' && !readonly && leFuel n elem' elem) = _
      rw [h elem elem' (by simp only [weight]; omega), h elem' elem (by simp only [weight]; omega)]
      rfl
    | reference elem' readonly' isSlice' =>
      show (leFuel n elem elem' && _ && (readonly' || leFuel n elem' elem)) = _
      rw [h elem elem' (by simp only [weight]; omega), h elem' elem (by simp only [weight]; omega)]
      rfl
    | _ => rfl

/-- Fuel for the nodes of both types is enough. -/
theorem leFuel_eq_le (h : a.weight + b.weight ≤ n) : leFuel n a b = le a b := by
  have hall : ∀ k : Nat, ∀ a b : Ty, ∀ n m : Nat, a.weight + b.weight ≤ k →
      a.weight + b.weight ≤ n → a.weight + b.weight ≤ m → leFuel n a b = leFuel m a b := by
    intro k
    induction k with
    | zero =>
      intro a b n m hk
      have hpos := a.weight_pos
      omega
    | succ k ih =>
      intro a b n m hk hn hm
      have hpos := a.weight_pos
      obtain ⟨n, rfl⟩ : ∃ j, n = j + 1 := ⟨n - 1, by omega⟩
      obtain ⟨m, rfl⟩ : ∃ j, m = j + 1 := ⟨m - 1, by omega⟩
      exact leFuel_congr fun x y hxy => ih x y n m (by omega) (by omega) (by omega)
  exact hall _ a b _ _ le_rfl h le_rfl

end Fuel

/-! ## Pairs of alternatives -/

section Pairs

variable {a b t u : Ty} {items items' : Tys}

/-- Neither a sum nor `Bottom`. -/
def isAtom : Ty → Bool
  | sum _ | bottom => false
  | _ => true

/-- The order by its recursive calls. -/
theorem le_unfold (a b : Ty) : ∃ n, le a b = leFuel (n + 1) a b ∧
    ∀ x y : Ty, x.weight + y.weight < a.weight + b.weight → leFuel n x y = le x y := by
  have hpos := a.weight_pos
  refine ⟨a.weight + b.weight - 1, ?_, fun x y h => leFuel_eq_le (by omega)⟩
  rw [show a.weight + b.weight - 1 + 1 = a.weight + b.weight by omega]
  rfl

@[simp] theorem le_bottom (t : Ty) : le bottom t = true := by
  obtain ⟨n, h, -⟩ := le_unfold bottom t
  rw [h]
  rfl

@[simp] theorem le_top (t : Ty) : le t top = true := by
  obtain ⟨n, h, -⟩ := le_unfold t top
  rw [h]
  cases t <;> rfl

/-- Every summand has to be below. -/
theorem le_sum_left : le (sum items) t = true ↔ ∀ x ∈ items.toList, le x t = true := by
  obtain ⟨n, h, hrec⟩ := le_unfold (sum items) t
  have hall : le (sum items) t = items.toList.all fun x => le x t := by
    rw [h]
    have hcongr : (items.toList.all fun x => leFuel n x t) = items.toList.all fun x => le x t := by
      refine all_congr_mem fun x hx => hrec x t ?_
      have hle := Tys.weight_le_of_mem hx
      simp only [weight]
      omega
    cases t with
    | top => simp [leFuel]
    | _ => exact hcongr
  rw [hall, List.all_eq_true]

/-- An atom has to be below a summand. -/
theorem le_sum_right (ht : t.isAtom = true) :
    le t (sum items) = true ↔ ∃ x ∈ items.toList, le t x = true := by
  obtain ⟨n, h, hrec⟩ := le_unfold t (sum items)
  have hany : le t (sum items) = items.toList.any fun x => le t x := by
    rw [h]
    have hcongr : (items.toList.any fun x => leFuel n t x) = items.toList.any fun x => le t x := by
      refine any_congr_mem fun x hx => hrec t x ?_
      have hle := Tys.weight_le_of_mem hx
      simp only [weight]
      omega
    cases t with
    | bottom | sum items' => cases ht
    | _ => exact hcongr
  rw [hany, List.any_eq_true]

theorem le_product : le (product items) (product items') = true ↔
    List.Forall₂ (fun x y => le x y = true) items.toList items'.toList := by
  obtain ⟨n, h, hrec⟩ := le_unfold (product items) (product items')
  have hzip : ((items.toList.zip items'.toList).all fun p => leFuel n p.1 p.2) =
      (items.toList.zip items'.toList).all fun p => le p.1 p.2 := by
    refine all_congr_mem fun p hp => hrec p.1 p.2 ?_
    obtain ⟨hx, hy⟩ := List.of_mem_zip (a := p.1) (b := p.2) hp
    have hle := Tys.weight_le_of_mem hx
    have hle' := Tys.weight_le_of_mem hy
    simp only [weight]
    omega
  have hle : le (product items) (product items') =
      (items.toList.length == items'.toList.length &&
        (items.toList.zip items'.toList).all fun p => le p.1 p.2) := by
    rw [h, ← hzip]
    rfl
  rw [hle, List.forall₂_iff_zip, Bool.and_eq_true, beq_iff_eq, List.all_eq_true]
  exact and_congr_right fun _ => ⟨fun hz x y hxy => hz (x, y) hxy, fun hz p hp => hz hp⟩

theorem le_func {params ret params' ret' : Ty} : le (func params ret) (func params' ret') = true ↔
    le params' params = true ∧ le ret ret' = true := by
  obtain ⟨n, h, hrec⟩ := le_unfold (func params ret) (func params' ret')
  rw [h, ← hrec params' params (by simp only [weight]; omega),
    ← hrec ret ret' (by simp only [weight]; omega), ← Bool.and_eq_true]
  rfl

/-- A reference that can be written to is to exactly its type. -/
theorem le_reference {elem elem' : Ty} {readonly readonly' isSlice isSlice' : Bool} :
    le (reference elem readonly isSlice) (reference elem' readonly' isSlice') = true ↔
      le elem elem' = true ∧ (readonly = true → readonly' = true) ∧
        (readonly' = true ∨ le elem' elem = true) := by
  obtain ⟨n, h, hrec⟩ := le_unfold (reference elem readonly isSlice)
    (reference elem' readonly' isSlice')
  rw [h, ← hrec elem elem' (by simp only [weight]; omega),
    ← hrec elem' elem (by simp only [weight]; omega)]
  show (leFuel n elem elem' && !(readonly && !readonly') && (readonly' || leFuel n elem' elem)) =
    true ↔ _
  cases readonly <;> cases readonly' <;> simp

theorem not_le_bottom (ha : a.isAtom = true) : le a bottom = false := by
  obtain ⟨n, h, -⟩ := le_unfold a bottom
  rw [h]
  cases a with
  | bottom | sum items => cases ha
  | _ => rfl

end Pairs

/-! ## Types without arrays -/

/-- The items of a sum as its constructor leaves them. -/
structure Summable (items : List Ty) : Prop where
  two : 2 ≤ items.length
  proper : bottom ∉ items
  apart : items.Pairwise fun t u => eqv t u = false

end Ty

mutual

/-- No array stands in the type, and its sums are well formed. -/
def Ty.Algebraic : Ty → Prop
  | .prim _ | .top | .bottom => True
  | .sum items => items.Algebraic ∧ Ty.Summable items.toList
  | .product items => items.Algebraic
  | .func params ret => params.Algebraic ∧ ret.Algebraic
  | .array _ _ => False
  | .reference elem _ _ => elem.Algebraic

def Tys.Algebraic : Tys → Prop
  | .nil => True
  | .cons t ts => t.Algebraic ∧ ts.Algebraic

end

theorem Tys.algebraic_iff : ∀ ts : Tys, ts.Algebraic ↔ ∀ t ∈ ts.toList, t.Algebraic
  | .nil => by simp [Tys.Algebraic, Tys.toList]
  | .cons t ts => by
    rw [Tys.Algebraic, Tys.toList, List.forall_mem_cons, Tys.algebraic_iff ts]

namespace Ty

section Order

variable {a b c t u : Ty} {items : Tys}

/-- The pairs of atoms that are in the order. -/
inductive AtomLe : Ty → Ty → Prop
  | top (a : Ty) : AtomLe a top
  | prim (p : Primitive) : AtomLe (prim p) (prim p)
  | product {xs ys : Tys} (h : List.Forall₂ (fun x y => le x y = true) xs.toList ys.toList) :
      AtomLe (product xs) (product ys)
  | func {params ret params' ret' : Ty} (h : le params' params = true) (h' : le ret ret' = true) :
      AtomLe (func params ret) (func params' ret')
  | reference {elem elem' : Ty} {readonly readonly' isSlice isSlice' : Bool}
      (h : le elem elem' = true) (hr : readonly = true → readonly' = true)
      (h' : readonly' = true ∨ le elem' elem = true) :
      AtomLe (reference elem readonly isSlice) (reference elem' readonly' isSlice')

theorem atomLe_of_le (ha : a.isAtom = true) (hb : b.isAtom = true) (hna : a.Algebraic)
    (hnb : b.Algebraic) (h : le a b = true) : AtomLe a b := by
  -- pairs of different alternatives compute to `false`
  have hfalse : (∀ n, leFuel (n + 1) a b = false) → AtomLe a b := by
    intro hall
    obtain ⟨n, hn, -⟩ := le_unfold a b
    rw [hn, hall n] at h
    cases h
  cases b with
  | bottom | sum items => cases hb
  | array elem size => exact hnb.elim
  | top => exact .top a
  | prim q =>
    cases a with
    | bottom | sum items => cases ha
    | array elem size => exact hna.elim
    | prim p =>
      obtain ⟨n, hn, -⟩ := le_unfold (prim p) (prim q)
      obtain rfl : p = q := beq_iff_eq.1 (hn.symm.trans h)
      exact .prim p
    | _ => exact hfalse fun n => rfl
  | product ys =>
    cases a with
    | bottom | sum items => cases ha
    | array elem size => exact hna.elim
    | product xs => exact .product (le_product.1 h)
    | _ => exact hfalse fun n => rfl
  | func params' ret' =>
    cases a with
    | bottom | sum items => cases ha
    | array elem size => exact hna.elim
    | func params ret => exact .func (le_func.1 h).1 (le_func.1 h).2
    | _ => exact hfalse fun n => rfl
  | reference elem' readonly' isSlice' =>
    cases a with
    | bottom | sum items => cases ha
    | array elem size => exact hna.elim
    | reference elem readonly isSlice =>
      obtain ⟨he, hr, he'⟩ := le_reference.1 h
      exact .reference he hr he'
    | _ => exact hfalse fun n => rfl

theorem le_of_atomLe (h : AtomLe a b) : le a b = true := by
  cases h with
  | top => exact le_top a
  | prim p =>
    obtain ⟨n, hn, -⟩ := le_unfold (prim p) (prim p)
    rw [hn]
    exact beq_self_eq_true p
  | product h => exact le_product.2 h
  | func h h' => exact le_func.2 ⟨h, h'⟩
  | reference h hr h' => exact le_reference.2 ⟨h, hr, h'⟩

/-- What is below a summand is below the sum. -/
theorem le_sum_of_mem (hu : u ∈ items.toList) (h : le t u = true) : le t (sum items) = true := by
  induction hw : t.weight using Nat.strong_induction_on generalizing t with
  | _ w ih =>
    subst hw
    cases t with
    | bottom => exact le_bottom _
    | sum ts =>
      refine le_sum_left.2 fun x hx => ih x.weight ?_ (le_sum_left.1 h x hx) rfl
      have hle := Tys.weight_le_of_mem hx
      rw [weight]
      omega
    | _ => exact (le_sum_right rfl).2 ⟨u, hu, h⟩

theorem le_refl (ht : t.Algebraic) : le t t = true := by
  induction hw : t.weight using Nat.strong_induction_on generalizing t with
  | _ w ih =>
    subst hw
    cases t with
    | bottom => exact le_bottom _
    | array elem size => exact ht.elim
    | sum ts =>
      refine le_sum_left.2 fun x hx => le_sum_of_mem hx (ih x.weight ?_ ?_ rfl)
      · have hle := Tys.weight_le_of_mem hx
        rw [weight]
        omega
      · exact (Tys.algebraic_iff ts).1 ht.1 x hx
    | top => exact le_top _
    | prim p => exact le_of_atomLe (.prim p)
    | product ts =>
      refine le_product.2 (List.forall₂_same.2 fun x hx => ih x.weight ?_ ?_ rfl)
      · have hle := Tys.weight_le_of_mem hx
        rw [weight]
        omega
      · exact (Tys.algebraic_iff ts).1 ht x hx
    | func params ret =>
      exact le_func.2 ⟨ih params.weight (by simp only [weight]; omega) ht.1 rfl,
        ih ret.weight (by simp only [weight]; omega) ht.2 rfl⟩
    | reference elem readonly isSlice =>
      have helem : elem.Algebraic := ht
      have hself := ih elem.weight (by simp only [weight]; omega) helem rfl
      exact le_reference.2 ⟨hself, id, .inr hself⟩

theorem forall₂_trans_mem {α : Type} {R : α → α → Prop} {xs ys zs : List α}
    (h : List.Forall₂ R xs ys) (h' : List.Forall₂ R ys zs)
    (htrans : ∀ x ∈ xs, ∀ y ∈ ys, ∀ z ∈ zs, R x y → R y z → R x z) : List.Forall₂ R xs zs := by
  induction h generalizing zs with
  | nil => exact h'
  | @cons x y xs ys hxy _ ih =>
    cases h' with
    | cons hyz hrest =>
      refine .cons (htrans x (by simp) y (by simp) _ (by simp) hxy hyz) (ih hrest ?_)
      intro x' hx' y' hy' z' hz'
      exact htrans x' (List.mem_cons_of_mem _ hx') y' (List.mem_cons_of_mem _ hy') z'
        (List.mem_cons_of_mem _ hz')

theorem le_trans (ha : a.Algebraic) (hb : b.Algebraic) (hc : c.Algebraic) (hab : le a b = true)
    (hbc : le b c = true) : le a c = true := by
  -- functions turn the order of their parameters round, so it is the three together that shrink
  induction hw : a.weight + b.weight + c.weight using Nat.strong_induction_on
    generalizing a b c with
  | _ w ih =>
    subst hw
    by_cases hatom : a.isAtom = true
    swap
    · cases a with
      | bottom => exact le_bottom _
      | sum ts =>
        refine le_sum_left.2 fun x hx => ?_
        have hle := Tys.weight_le_of_mem hx
        exact ih _ (by simp only [weight]; omega) ((Tys.algebraic_iff ts).1 ha.1 x hx) hb hc
          (le_sum_left.1 hab x hx) hbc rfl
      | _ => exact absurd rfl hatom
    by_cases hbatom : b.isAtom = true
    swap
    · cases b with
      | bottom =>
        rw [not_le_bottom hatom] at hab
        cases hab
      | sum ts =>
        obtain ⟨y, hy, hay⟩ := (le_sum_right hatom).1 hab
        have hle := Tys.weight_le_of_mem hy
        exact ih _ (by simp only [weight]; omega) ha ((Tys.algebraic_iff ts).1 hb.1 y hy) hc hay
          (le_sum_left.1 hbc y hy) rfl
      | _ => exact absurd rfl hbatom
    by_cases hcatom : c.isAtom = true
    swap
    · cases c with
      | bottom =>
        rw [not_le_bottom hbatom] at hbc
        cases hbc
      | sum ts =>
        obtain ⟨z, hz, hbz⟩ := (le_sum_right hbatom).1 hbc
        have hle := Tys.weight_le_of_mem hz
        exact (le_sum_right hatom).2 ⟨z, hz, ih _ (by simp only [weight]; omega) ha hb
          ((Tys.algebraic_iff ts).1 hc.1 z hz) hab hbz rfl⟩
      | _ => exact absurd rfl hcatom
    have hab' := atomLe_of_le hatom hbatom ha hb hab
    have hbc' := atomLe_of_le hbatom hcatom hb hc hbc
    cases hbc' with
    | top => exact le_top a
    | prim p => exact hab
    | @product ys zs hyz =>
      cases hab' with
      | @product xs _ hxy =>
        refine le_product.2 (forall₂_trans_mem hxy hyz fun x hx y hy z hz hxy hyz => ?_)
        have hx' := Tys.weight_le_of_mem hx
        have hy' := Tys.weight_le_of_mem hy
        have hz' := Tys.weight_le_of_mem hz
        exact ih _ (by simp only [weight]; omega) ((Tys.algebraic_iff xs).1 ha x hx)
          ((Tys.algebraic_iff ys).1 hb y hy) ((Tys.algebraic_iff zs).1 hc z hz) hxy hyz rfl
    | func hparams' hret' =>
      cases hab' with
      | func hparams hret =>
        refine le_func.2 ⟨?_, ?_⟩
        · exact ih _ (by simp only [weight]; omega) hc.1 hb.1 ha.1 hparams' hparams rfl
        · exact ih _ (by simp only [weight]; omega) ha.2 hb.2 hc.2 hret hret' rfl
    | @reference elem' elem'' readonly' readonly'' _ _ hlow hr' hcb =>
      cases hab' with
      | @reference elem _ readonly _ _ _ hlow' hr hba =>
        have haelem : elem.Algebraic := ha
        have hbelem : elem'.Algebraic := hb
        have hcelem : elem''.Algebraic := hc
        refine le_reference.2 ⟨?_, fun h => hr' (hr h), ?_⟩
        · exact ih _ (by simp only [weight]; omega) haelem hbelem hcelem hlow' hlow rfl
        · by_cases hro : readonly'' = true
          · exact .inl hro
          · -- all three can be written to, so they are to equal types
            have hro' : ¬readonly' = true := fun h => hro (hr' h)
            exact .inr (ih _ (by simp only [weight]; omega) hcelem hbelem haelem
              (hcb.resolve_left hro) (hba.resolve_left hro') rfl)

theorem le_array {elem elem' : Ty} {size size' : Nat} : le (array elem size) (array elem' size') = true ↔
    le elem elem' = true ∧ le elem' elem = true ∧ size = size' := by
  obtain ⟨n, h, hrec⟩ := le_unfold (array elem size) (array elem' size')
  rw [h, ← hrec elem elem' (by simp only [weight]; omega),
    ← hrec elem' elem (by simp only [weight]; omega)]
  show (leFuel n elem elem' && leFuel n elem' elem && size == size') = true ↔ _
  rw [Bool.and_eq_true, Bool.and_eq_true, beq_iff_eq, and_assoc]

/-- Every type is below itself, arrays and sums of all kinds included. -/
theorem le_self (t : Ty) : le t t = true := by
  induction hw : t.weight using Nat.strong_induction_on generalizing t with
  | _ w ih =>
    subst hw
    cases t with
    | bottom => exact le_bottom _
    | top => exact le_top _
    | prim p => exact le_of_atomLe (.prim p)
    | array elem size =>
      have helem := ih elem.weight (by simp only [weight]; omega) elem rfl
      exact le_array.2 ⟨helem, helem, rfl⟩
    | sum ts =>
      refine le_sum_left.2 fun x hx => le_sum_of_mem hx (ih x.weight ?_ x rfl)
      have hle := Tys.weight_le_of_mem hx
      rw [weight]
      omega
    | product ts =>
      refine le_product.2 (List.forall₂_same.2 fun x hx => ih x.weight ?_ x rfl)
      have hle := Tys.weight_le_of_mem hx
      rw [weight]
      omega
    | func params ret =>
      exact le_func.2 ⟨ih params.weight (by simp only [weight]; omega) params rfl,
        ih ret.weight (by simp only [weight]; omega) ret rfl⟩
    | reference elem readonly isSlice =>
      have hself := ih elem.weight (by simp only [weight]; omega) elem rfl
      exact le_reference.2 ⟨hself, id, .inr hself⟩

end Order

/-! ## Unions -/

section Union

variable {a b c t u : Ty} {items ts : List Ty}

theorem eqv_iff : eqv t u = true ↔ le t u = true ∧ le u t = true := by
  rw [eqv, Bool.and_eq_true]

theorem eqv_comm (t u : Ty) : eqv t u = eqv u t := Bool.and_comm _ _

/-- A type is below another when its summands are. -/
theorem le_iff_summands : le a t = true ↔ ∀ x ∈ a.summands, le x t = true := by
  cases a with
  | sum items => exact le_sum_left
  | _ => simp [summands]

/-- What `dedup` has kept so far is apart, and covers what it has seen. -/
theorem foldl_dedup (kept : List Ty) (hkept : kept.Pairwise fun t u => eqv t u = false) :
    let unique := ts.foldl (fun unique t => if unique.any (eqv t) then unique else unique ++ [t]) kept
    (unique.Pairwise fun t u => eqv t u = false) ∧ (∀ u ∈ unique, u ∈ kept ∨ u ∈ ts) ∧
      kept ⊆ unique ∧ ∀ t ∈ ts, ∃ u ∈ unique, t = u ∨ eqv t u = true := by
  induction ts generalizing kept with
  | nil => exact ⟨hkept, fun u hu => .inl hu, List.Subset.refl _, by simp⟩
  | cons t ts ih =>
    rw [List.foldl_cons]
    by_cases hany : kept.any (eqv t) = true
    · rw [if_pos hany]
      obtain ⟨hpair, hmem, hsub, hcover⟩ := ih kept hkept
      refine ⟨hpair, fun u hu => (hmem u hu).imp_right (List.mem_cons_of_mem t), hsub, ?_⟩
      rw [List.forall_mem_cons]
      obtain ⟨u, hu, htu⟩ := List.any_eq_true.1 hany
      exact ⟨⟨u, hsub hu, .inr htu⟩, hcover⟩
    · rw [if_neg hany]
      have hnew : (kept ++ [t]).Pairwise fun t u => eqv t u = false := by
        refine List.pairwise_append.2 ⟨hkept, List.pairwise_singleton _ _, fun u hu v hv => ?_⟩
        rw [List.mem_singleton] at hv
        subst hv
        rw [eqv_comm, ← Bool.not_eq_true]
        exact fun h => hany (List.any_eq_true.2 ⟨u, hu, h⟩)
      obtain ⟨hpair, hmem, hsub, hcover⟩ := ih _ hnew
      refine ⟨hpair, fun u hu => ?_, fun u hu => hsub (List.mem_append_left _ hu), ?_⟩
      · obtain h | h := hmem u hu
        · obtain h | h := List.mem_append.1 h
          · exact .inl h
          · exact .inr (List.mem_cons.2 (.inl (List.mem_singleton.1 h)))
        · exact .inr (List.mem_cons_of_mem _ h)
      · rw [List.forall_mem_cons]
        exact ⟨⟨t, hsub (List.mem_append_right _ (List.mem_singleton_self t)), .inl rfl⟩, hcover⟩

theorem dedup_apart (ts : List Ty) : (dedup ts).Pairwise fun t u => eqv t u = false :=
  (foldl_dedup [] .nil).1

theorem mem_of_mem_dedup (h : u ∈ dedup ts) : u ∈ ts :=
  ((foldl_dedup [] .nil).2.1 u h).resolve_left (by simp)

theorem dedup_covers (h : t ∈ ts) : ∃ u ∈ dedup ts, t = u ∨ eqv t u = true :=
  (foldl_dedup [] .nil).2.2.2 t h

/-- The union is the one type that is left, or the sum of those that are. -/
theorem union_cases (ha : a ≠ bottom) (hb : b ≠ bottom) (h : eqv a b = false) :
    (∃ t, dedup (a.summands ++ b.summands) = [t] ∧ union a b = t) ∨
      (∀ t, dedup (a.summands ++ b.summands) ≠ [t]) ∧
        union a b = sum (Tys.ofList (dedup (a.summands ++ b.summands))) := by
  unfold union
  rw [if_neg ha, if_neg hb, if_neg (by rw [h]; decide)]
  split
  · next t ht => exact .inl ⟨t, ht, rfl⟩
  · next ts hts => exact .inr ⟨hts, rfl⟩

theorem summand_le_union (ha : a ≠ bottom) (hb : b ≠ bottom) (h : eqv a b = false)
    (ht : t ∈ a.summands ++ b.summands) (htt : t.Algebraic) : le t (union a b) = true := by
  obtain ⟨u, hu, htu⟩ := dedup_covers ht
  have hle : le t u = true := by
    obtain rfl | htu := htu
    · exact le_refl htt
    · exact (eqv_iff.1 htu).1
  obtain ⟨v, hv, hunion⟩ | ⟨-, hunion⟩ := union_cases ha hb h
  · rw [hv, List.mem_singleton] at hu
    rw [hunion, ← hu]
    exact hle
  · rw [hunion]
    exact le_sum_of_mem (by rwa [Tys.toList_ofList]) hle

theorem algebraic_of_mem_summands (ha : a.Algebraic) (ht : t ∈ a.summands) : t.Algebraic := by
  cases a with
  | sum items => exact (Tys.algebraic_iff items).1 ha.1 t ht
  | _ =>
    obtain rfl := List.mem_singleton.1 ht
    exact ha

theorem ne_bottom_of_mem_summands (ha : a.Algebraic) (hne : a ≠ bottom) (ht : t ∈ a.summands) :
    t ≠ bottom := by
  cases a with
  | sum items =>
    rintro rfl
    exact ha.2.proper ht
  | _ =>
    obtain rfl := List.mem_singleton.1 ht
    exact hne

theorem summands_ne_nil (ha : a.Algebraic) : a.summands ≠ [] := by
  cases a with
  | sum items =>
    intro hnil
    have htwo := ha.2.two
    rw [show items.toList = [] from hnil] at htwo
    simp at htwo
  | _ => exact List.cons_ne_nil _ _

theorem le_union_left (ha : a.Algebraic) : le a (union a b) = true := by
  by_cases hna : a = bottom
  · rw [hna]
    exact le_bottom _
  by_cases hnb : b = bottom
  · rw [union, if_neg hna, if_pos hnb]
    exact le_refl ha
  by_cases h : eqv a b = true
  · rw [union, if_neg hna, if_neg hnb, if_pos h]
    exact le_refl ha
  · refine le_iff_summands.2 fun t ht => ?_
    exact summand_le_union hna hnb (Bool.not_eq_true _ ▸ h) (List.mem_append_left _ ht)
      (algebraic_of_mem_summands ha ht)

theorem le_union_right (hb : b.Algebraic) : le b (union a b) = true := by
  by_cases hna : a = bottom
  · rw [union, if_pos hna]
    exact le_refl hb
  by_cases hnb : b = bottom
  · rw [hnb]
    exact le_bottom _
  by_cases h : eqv a b = true
  · rw [union, if_neg hna, if_neg hnb, if_pos h]
    exact (eqv_iff.1 h).2
  · refine le_iff_summands.2 fun t ht => ?_
    exact summand_le_union hna hnb (Bool.not_eq_true _ ▸ h) (List.mem_append_right _ ht)
      (algebraic_of_mem_summands hb ht)

theorem union_le (hac : le a c = true) (hbc : le b c = true) : le (union a b) c = true := by
  by_cases hna : a = bottom
  · rwa [union, if_pos hna]
  by_cases hnb : b = bottom
  · rwa [union, if_neg hna, if_pos hnb]
  by_cases h : eqv a b = true
  · rwa [union, if_neg hna, if_neg hnb, if_pos h]
  have hall : ∀ t ∈ dedup (a.summands ++ b.summands), le t c = true := by
    intro t ht
    obtain ht | ht := List.mem_append.1 (mem_of_mem_dedup ht)
    · exact le_iff_summands.1 hac t ht
    · exact le_iff_summands.1 hbc t ht
  obtain ⟨t, ht, hunion⟩ | ⟨-, hunion⟩ := union_cases hna hnb (Bool.not_eq_true _ ▸ h)
  · rw [hunion]
    exact hall t (by simp [ht])
  · rw [hunion]
    exact le_sum_left.2 (by rwa [Tys.toList_ofList])

/-- What is collected for a sum is as the constructor of sums wants it. -/
theorem summable_dedup (ha : a.Algebraic) (hb : b.Algebraic) (hna : a ≠ bottom) (hnb : b ≠ bottom)
    (h : ∀ t, dedup (a.summands ++ b.summands) ≠ [t]) :
    Summable (dedup (a.summands ++ b.summands)) where
  two := by
    have hne : dedup (a.summands ++ b.summands) ≠ [] := by
      intro hnil
      obtain ⟨t, ts, hts⟩ := List.exists_cons_of_ne_nil (summands_ne_nil ha)
      have hmem : t ∈ a.summands ++ b.summands := by rw [hts]; simp
      obtain ⟨u, hu, -⟩ := dedup_covers hmem
      rw [hnil] at hu
      cases hu
    generalize dedup (a.summands ++ b.summands) = unique at h hne
    match unique with
    | [] => exact absurd rfl hne
    | [t] => exact absurd rfl (h t)
    | _ :: _ :: _ => simp
  proper hmem := by
    obtain ht | ht := List.mem_append.1 (mem_of_mem_dedup hmem)
    · exact ne_bottom_of_mem_summands ha hna ht rfl
    · exact ne_bottom_of_mem_summands hb hnb ht rfl
  apart := dedup_apart _

theorem algebraic_union (ha : a.Algebraic) (hb : b.Algebraic) : (union a b).Algebraic := by
  by_cases hna : a = bottom
  · rwa [union, if_pos hna]
  by_cases hnb : b = bottom
  · rwa [union, if_neg hna, if_pos hnb]
  by_cases h : eqv a b = true
  · rwa [union, if_neg hna, if_neg hnb, if_pos h]
  have hall : ∀ t ∈ dedup (a.summands ++ b.summands), t.Algebraic := by
    intro t ht
    obtain ht | ht := List.mem_append.1 (mem_of_mem_dedup ht)
    · exact algebraic_of_mem_summands ha ht
    · exact algebraic_of_mem_summands hb ht
  obtain ⟨t, ht, hunion⟩ | ⟨hts, hunion⟩ := union_cases hna hnb (Bool.not_eq_true _ ▸ h)
  · rw [hunion]
    exact hall t (by simp [ht])
  · rw [hunion]
    refine ⟨(Tys.algebraic_iff _).2 (by rwa [Tys.toList_ofList]), ?_⟩
    rw [Tys.toList_ofList]
    exact summable_dedup ha hb hna hnb hts

end Union

/-! ## The constructor of sums -/

/-- `Sum::append`. -/
def append (items : List Ty) (item : Ty) : List Ty :=
  if item = bottom then items
  else if items.any fun i => eqv i item then items
  else items ++ [item]

/-- The constructor of `Sum`. -/
def mkSum (items : List Ty) : Except Fault Ty :=
  let kept := items.foldl append []
  if kept.length < 2 then .error (.compilerError "Sum type must have at least 2 items")
  else .ok (sum (Tys.ofList kept))

/-- `operator|`, with what the constructor of `Sum` throws. -/
def bitOr (lhs rhs : Ty) : Except Fault Ty :=
  if lhs = bottom then .ok rhs
  else if rhs = bottom then .ok lhs
  else if eqv lhs rhs then .ok lhs
  else
    match dedup (lhs.summands ++ rhs.summands) with
    | [t] => .ok t
    | ts => mkSum ts

theorem foldl_append (ts kept : List Ty) (hproper : bottom ∉ ts)
    (hapart : (kept ++ ts).Pairwise fun t u => eqv t u = false) :
    ts.foldl append kept = kept ++ ts := by
  induction ts generalizing kept with
  | nil => simp
  | cons t ts ih =>
    rw [List.mem_cons, not_or] at hproper
    have hany : ¬(kept.any fun i => eqv i t) = true := by
      intro h
      obtain ⟨u, hu, hut⟩ := List.any_eq_true.1 h
      have hne := (List.pairwise_append.1 hapart).2.2 u hu t (by simp)
      rw [hut] at hne
      cases hne
    have hstep : append kept t = kept ++ [t] := by
      rw [append, if_neg (Ne.symm hproper.1), if_neg hany]
    rw [List.foldl_cons, hstep, ih _ hproper.2 (by simpa using hapart)]
    simp

theorem mkSum_of_summable {ts : List Ty} (h : Summable ts) : mkSum ts = .ok (sum (Tys.ofList ts)) := by
  have hkept : ts.foldl append [] = ts := by
    rw [foldl_append ts [] h.proper (by simpa using h.apart)]
    rfl
  have htwo := h.two
  rw [mkSum, hkept]
  exact if_neg (by omega)

/-- The union of types throws nothing. -/
theorem bitOr_eq_union {a b : Ty} (ha : a.Algebraic) (hb : b.Algebraic) :
    bitOr a b = .ok (union a b) := by
  by_cases hna : a = bottom
  · rw [bitOr, union, if_pos hna, if_pos hna]
  by_cases hnb : b = bottom
  · rw [bitOr, union, if_neg hna, if_neg hna, if_pos hnb, if_pos hnb]
  by_cases h : eqv a b = true
  · rw [bitOr, union, if_neg hna, if_neg hna, if_neg hnb, if_neg hnb, if_pos h, if_pos h]
  rw [bitOr, if_neg hna, if_neg hnb, if_neg h]
  obtain ⟨t, ht, hunion⟩ | ⟨hts, hunion⟩ := union_cases hna hnb (Bool.not_eq_true _ ▸ h)
  · rw [hunion, ht]
  · rw [hunion, ← mkSum_of_summable (summable_dedup ha hb hna hnb hts)]
    split
    · next t ht => exact absurd ht (hts t)
    · rfl

end Ty

/-! ## The laws -/

/-- A type without arrays. -/
structure Adt where
  ty : Ty
  algebraic : ty.Algebraic

namespace Adt

/-- `<=` is a preorder on the types without arrays. -/
instance : Preorder Adt where
  le a b := a.ty.le b.ty = true
  le_refl a := Ty.le_refl a.algebraic
  le_trans a b c := Ty.le_trans a.algebraic b.algebraic c.algebraic

/-- `|`, which stays among the types without arrays. -/
def union (a b : Adt) : Adt := ⟨a.ty.union b.ty, Ty.algebraic_union a.algebraic b.algebraic⟩

/-- `==`: subtypes of each other. -/
def Same (a b : Adt) : Prop := a ≤ b ∧ b ≤ a

theorem isLUB_union (a b : Adt) : IsLUB {a, b} (a.union b) := by
  constructor
  · rintro c (rfl | rfl)
    · exact Ty.le_union_left c.algebraic
    · exact Ty.le_union_right c.algebraic
  · intro c hc
    exact Ty.union_le (hc (Set.mem_insert a {b})) (hc (Set.mem_insert_of_mem a rfl))

/-- **The algebra of types**: the subtype test is reflexive and transitive, and the union of
two types can be built, is their least upper bound, and so is commutative, associative and
idempotent up to `==`. -/
theorem type_algebra (a b c : Adt) :
    (a.ty.le a.ty = true ∧ (a.ty.le b.ty = true → b.ty.le c.ty = true → a.ty.le c.ty = true)) ∧
    Ty.bitOr a.ty b.ty = .ok (a.union b).ty ∧ IsLUB {a, b} (a.union b) ∧
    Same (a.union b) (b.union a) ∧ Same ((a.union b).union c) (a.union (b.union c)) ∧
    Same (a.union a) a := by
  have hle : ∀ x y : Adt, x ≤ x.union y ∧ y ≤ x.union y := fun x y =>
    ⟨(isLUB_union x y).1 (by simp), (isLUB_union x y).1 (by simp)⟩
  have hmin : ∀ x y z : Adt, x ≤ z → y ≤ z → x.union y ≤ z := fun x y z hx hy =>
    (isLUB_union x y).2 (by rintro w (rfl | rfl) <;> assumption)
  refine ⟨⟨Ty.le_refl a.algebraic, Ty.le_trans a.algebraic b.algebraic c.algebraic⟩,
    Ty.bitOr_eq_union a.algebraic b.algebraic, isLUB_union a b, ?_, ?_, ?_⟩
  · constructor
    · exact hmin _ _ _ (hle b a).2 (hle b a).1
    · exact hmin _ _ _ (hle a b).2 (hle a b).1
  · constructor
    · refine hmin _ _ _ (hmin _ _ _ (hle _ _).1 ?_) ?_
      · exact le_trans (hle b c).1 (hle a (b.union c)).2
      · exact le_trans (hle b c).2 (hle a (b.union c)).2
    · refine hmin _ _ _ ?_ (hmin _ _ _ ?_ (hle _ _).2)
      · exact le_trans (hle a b).1 (hle (a.union b) c).1
      · exact le_trans (hle a b).2 (hle (a.union b) c).1
  · constructor
    · exact hmin _ _ _ (le_refl a) (le_refl a)
    · exact (hle a a).1

end Adt

end Ir
end Cact
