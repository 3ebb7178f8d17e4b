import Mathlib

namespace Comparison

variable {K : Type}

structure TotalPreorder (compar : K → K → Int) : Prop where
  flip : ∀ a b, compar a b < 0 ↔ 0 < compar b a
  trans : ∀ a b c, compar a b ≤ 0 → compar b c ≤ 0 → compar a c ≤ 0

section

variable {compar : K → K → Int} {a b c : K}

theorem le_of_not_lt (h : TotalPreorder compar) (hab : ¬compar b a < 0) : compar a b ≤ 0 := by
  rw [h.flip] at hab
  omega

theorem lt_of_lt_of_le (h : TotalPreorder compar) (hab : compar a b < 0) (hbc : compar b c ≤ 0) : compar a c < 0 := by
  by_contra hac
  have hba := h.trans b c a hbc (le_of_not_lt h hac)
  have hpos := (h.flip a b).mp hab
  omega

theorem lt_of_le_of_lt (h : TotalPreorder compar) (hab : compar a b ≤ 0) (hbc : compar b c < 0) : compar a c < 0 := by
  by_contra hac
  have hcb := h.trans c a b (le_of_not_lt h hac) hab
  have hpos := (h.flip b c).mp hbc
  omega

theorem lt_trans (h : TotalPreorder compar) (hab : compar a b < 0) (hbc : compar b c < 0) : compar a c < 0 :=
  lt_of_lt_of_le h hab (by omega)

theorem zero_comm (h : TotalPreorder compar) : compar a b = 0 ↔ compar b a = 0 := by
  have hab := h.flip a b
  have hba := h.flip b a
  omega

theorem zero_trans (h : TotalPreorder compar) (hab : compar a b = 0) (hbc : compar b c = 0) : compar a c = 0 := by
  have hle := h.trans a b c (by omega) (by omega)
  have hge := h.trans c b a (by rw [zero_comm h] at hbc; omega) (by rw [zero_comm h] at hab; omega)
  have hflip := h.flip a c
  omega

end

end Comparison
