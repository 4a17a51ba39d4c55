import Mathlib.Data.BitVec
import Mathlib.Data.List.GetD

/-!
# Lists written to memory

A memory is a function of its addresses, which wrap around. `paste` writes a list from an
address on; filling and copying are cases of it.
-/

namespace Cact

namespace Paste

variable {w : Nat} {β : Type} {mem mem' : BitVec w → β} {dst src a : BitVec w} {x y : List β}

/-- The memory after a list is written. -/
def paste (mem : BitVec w → β) (dst : BitVec w) (x : List β) : BitVec w → β := fun a =>
  x.getD (a - dst).toNat (mem a)

theorem paste_of_lt (h : (a - dst).toNat < x.length) : paste mem dst x a = x[(a - dst).toNat] :=
  List.getD_eq_getElem _ _ h

theorem paste_of_le (h : x.length ≤ (a - dst).toNat) : paste mem dst x a = mem a :=
  List.getD_eq_default _ _ h

@[simp] theorem paste_nil : paste mem dst [] = mem := by
  funext a
  exact paste_of_le (Nat.zero_le _)

theorem toNat_offset {i : Nat} (h : i < 2 ^ w) : (dst + BitVec.ofNat w i - dst).toNat = i := by
  rw [BitVec.add_comm, BitVec.add_sub_cancel, BitVec.toNat_ofNat, Nat.mod_eq_of_lt h]

/-- The written list can be read back. -/
theorem paste_inj (hlen : x.length = y.length) (hfit : x.length ≤ 2 ^ w)
    (h : paste mem dst x = paste mem dst y) : x = y := by
  refine List.ext_getElem hlen fun i hi hi' => ?_
  have hoff : (dst + BitVec.ofNat w i - dst).toNat = i := toNat_offset (by omega)
  have hread := congrFun h (dst + BitVec.ofNat w i)
  rw [paste_of_lt (by rwa [hoff]), paste_of_lt (by rwa [hoff])] at hread
  simpa only [hoff] using hread

/-- Writing over the start of what was written. -/
theorem paste_over (h : x.length ≤ y.length) :
    paste (paste mem dst y) dst x = paste mem dst (x ++ y.drop x.length) := by
  funext a
  by_cases hx : (a - dst).toNat < x.length
  · rw [paste_of_lt hx, paste_of_lt (by rw [List.length_append]; omega), List.getElem_append_left hx]
  · rw [paste_of_le (by omega)]
    by_cases hy : (a - dst).toNat < y.length
    · rw [paste_of_lt hy, paste_of_lt (by rw [List.length_append, List.length_drop]; omega),
        List.getElem_append_right (by omega), List.getElem_drop]
      congr 1
      omega
    · rw [paste_of_le (by omega), paste_of_le (by rw [List.length_append, List.length_drop]; omega)]

/-- One list after the other. -/
theorem paste_append (h : x.length + y.length ≤ 2 ^ w) :
    paste mem dst (x ++ y) = paste (paste mem dst x) (dst + BitVec.ofNat w x.length) y := by
  funext a
  have hsub : a - (dst + BitVec.ofNat w x.length) = (a - dst) - BitVec.ofNat w x.length := by
    rw [BitVec.sub_eq_iff_eq_add, BitVec.add_comm dst, ← BitVec.add_assoc, BitVec.sub_add_cancel,
      BitVec.sub_add_cancel]
  have hlt := (a - dst).isLt
  have hoff : (a - (dst + BitVec.ofNat w x.length)).toNat =
      (2 ^ w - x.length % 2 ^ w + (a - dst).toNat) % 2 ^ w := by
    rw [hsub, BitVec.toNat_sub, BitVec.toNat_ofNat]
  by_cases hy : y = []
  · subst hy
    rw [paste_nil, List.append_nil]
  have hpos : 0 < y.length := List.length_pos_of_ne_nil hy
  rw [Nat.mod_eq_of_lt (show x.length < 2 ^ w by omega)] at hoff
  by_cases hx : (a - dst).toNat < x.length
  · rw [Nat.mod_eq_of_lt (by omega)] at hoff
    rw [paste_of_lt (by rw [List.length_append]; omega), List.getElem_append_left hx,
      paste_of_le (by rw [hoff]; omega), paste_of_lt hx]
  · have hoff' : (a - (dst + BitVec.ofNat w x.length)).toNat = (a - dst).toNat - x.length := by
      rw [hoff, show 2 ^ w - x.length + (a - dst).toNat = (a - dst).toNat - x.length + 2 ^ w by omega,
        Nat.add_mod_right, Nat.mod_eq_of_lt (by omega)]
    by_cases hlen : (a - dst).toNat < x.length + y.length
    · rw [paste_of_lt (by rwa [List.length_append]), List.getElem_append_right (by omega),
        paste_of_lt (by rw [hoff']; omega)]
      simp only [hoff']
    · rw [paste_of_le (by rw [List.length_append]; omega), paste_of_le (by rw [hoff']; omega),
        paste_of_le (by omega)]

/-- `memset`. -/
theorem fill_eq_paste (n : Nat) (v : β) :
    (fun a => if (a - dst).toNat < n then v else mem a) = paste mem dst (List.replicate n v) := by
  funext a
  by_cases h : (a - dst).toNat < n
  · rw [if_pos h, paste_of_lt (by rwa [List.length_replicate]), List.getElem_replicate]
  · rw [if_neg h, paste_of_le (by rw [List.length_replicate]; omega)]

/-- `memcpy` of a list that stands in memory. -/
theorem copy_eq_paste (hx : ∀ (i : Nat) (hi : i < x.length), mem' (src + BitVec.ofNat w i) = x[i]) :
    (fun a => if (a - dst).toNat < x.length then mem' (src + (a - dst)) else mem a) =
      paste mem dst x := by
  funext a
  by_cases h : (a - dst).toNat < x.length
  · have hread := hx _ h
    rw [BitVec.ofNat_toNat, BitVec.setWidth_eq] at hread
    rw [if_pos h, paste_of_lt h, hread]
  · rw [if_neg h, paste_of_le (by omega)]

/-- A list that stands apart from what is written is still there. -/
theorem paste_apart (h : y.length ≤ (src - dst).toNat) : paste mem dst y src = mem src :=
  paste_of_le h

end Paste

end Cact
