import Mathlib

namespace HalfEven

def Nearest (q : ℚ) (n : ℤ) : Prop := |q - n| ≤ 1 / 2 ∧ (|q - n| = 1 / 2 → Even n)

def rounded (d s : ℕ) : ℕ := if d < 2 * (s % d) ∨ 2 * (s % d) = d ∧ s / d % 2 = 1 then s / d + 1 else s / d

theorem nearest_int (n : ℤ) : Nearest n n := by
  rw [Nearest,sub_self,abs_zero]
  exact ⟨by norm_num,fun h => absurd h (by norm_num)⟩

theorem nearest_of_lt {q : ℚ} {n : ℤ} (h : |q - n| < 1 / 2) : Nearest q n := ⟨h.le,fun heq => absurd heq h.ne⟩

theorem nearest_of_tie {q : ℚ} {n : ℤ} (h : |q - n| = 1 / 2) (he : Even n) : Nearest q n := ⟨h.le,fun _ => he⟩

theorem Nearest.closest {q : ℚ} {n : ℤ} (h : Nearest q n) (m : ℤ) : |q - n| ≤ |q - m| := by
  rcases eq_or_ne m n with rfl | hne
  · exact le_rfl
  · have hone : (1 : ℚ) ≤ |(m : ℚ) - n| := by
      have hint : 1 ≤ |m - n| := Int.one_le_abs (sub_ne_zero.mpr hne)
      exact_mod_cast hint
    have htri := abs_sub_le (m : ℚ) q n
    have hhalf := h.1
    rw [abs_sub_comm (m : ℚ) q] at htri
    linarith

theorem quotient_distance {d : ℕ} (hd : 0 < d) (s : ℕ) (n : ℤ) :
    |(s : ℚ) / d - n| = |(s : ℤ) - n * d| / (d : ℚ) := by
  have hpos : (0 : ℚ) < d := by exact_mod_cast hd
  rw [show (s : ℚ) / d - n = ((s : ℚ) - n * d) / d by field_simp,abs_div,abs_of_pos hpos]
  push_cast
  rfl

theorem nearest_iff {d : ℕ} (hd : 0 < d) (s : ℕ) (n : ℤ) :
    Nearest ((s : ℚ) / d) n ↔ 2 * |(s : ℤ) - n * d| ≤ d ∧ (2 * |(s : ℤ) - n * d| = d → Even n) := by
  have hpos : (0 : ℚ) < d := by exact_mod_cast hd
  have hle : ((|(s : ℤ) - n * d| : ℤ) : ℚ) / d ≤ 1 / 2 ↔ 2 * |(s : ℤ) - n * d| ≤ d := by
    rw [div_le_div_iff₀ hpos two_pos,one_mul,mul_comm]
    exact_mod_cast Iff.rfl
  have heq : ((|(s : ℤ) - n * d| : ℤ) : ℚ) / d = 1 / 2 ↔ 2 * |(s : ℤ) - n * d| = d := by
    rw [div_eq_div_iff hpos.ne' two_ne_zero,one_mul,mul_comm]
    exact_mod_cast Iff.rfl
  rw [Nearest,quotient_distance hd,← hle,← heq]

theorem rounded_nearest {d : ℕ} (hd : 0 < d) (s : ℕ) : Nearest ((s : ℚ) / d) (rounded d s) := by
  have hdiv : (d : ℤ) * (s / d : ℕ) + (s % d : ℕ) = s := by exact_mod_cast Nat.div_add_mod s d
  have hmod := Nat.mod_lt s hd
  rw [nearest_iff hd,rounded]
  generalize s / d = q at *
  generalize s % d = r at *
  by_cases hup : d < 2 * r ∨ 2 * r = d ∧ q % 2 = 1
  · have hval : (s : ℤ) - ((q + 1 : ℕ) : ℤ) * d = -(d - r : ℤ) := by
      rw [← hdiv]
      push_cast
      ring
    rw [if_pos hup,hval,abs_neg,abs_of_nonneg (by omega)]
    refine ⟨by omega,fun heq => ?_⟩
    rw [Int.even_iff]
    omega
  · have hval : (s : ℤ) - (q : ℤ) * d = r := by
      rw [← hdiv]
      ring
    rw [if_neg hup,hval,abs_of_nonneg (Int.natCast_nonneg _)]
    refine ⟨by omega,fun heq => ?_⟩
    rw [Int.even_iff]
    omega

end HalfEven
