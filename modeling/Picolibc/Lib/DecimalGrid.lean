import Mathlib

namespace DecimalGrid

def Cell (B k n : ℕ) (q : ℚ) : Prop := (n : ℚ) * B ^ k ≤ q ∧ q < (n + 1) * B ^ k

section

variable {B k n : ℕ} {q : ℚ}

theorem cell_floor : Cell B 0 n q ↔ ⌊q⌋ = n := by
  rw [Int.floor_eq_iff,Cell]
  simp

theorem cell_shift (h : Cell B k n q) (hB : 0 < B) : Cell B (k + 1) n (q * B) := by
  have hpos : (0 : ℚ) < B := by exact_mod_cast hB
  rw [Cell,pow_succ,← mul_assoc,← mul_assoc]
  exact ⟨mul_le_mul_of_nonneg_right h.1 hpos.le,mul_lt_mul_of_pos_right h.2 hpos⟩

theorem le_of_cell (hB : 0 < B) (h : Cell B k n q) {m : ℕ} : (m : ℚ) * B ^ k ≤ q ↔ m ≤ n := by
  have hpos : (0 : ℚ) < (B : ℚ) ^ k := by positivity
  constructor
  · intro hm
    have hlt := lt_of_mul_lt_mul_right (hm.trans_lt h.2) hpos.le
    have hcast : m < n + 1 := by exact_mod_cast hlt
    omega
  · intro hm
    have hcast : (m : ℚ) ≤ n := by exact_mod_cast hm
    exact (mul_le_mul_of_nonneg_right hcast hpos.le).trans h.1

theorem cell_coarser (hB : 0 < B) (h : Cell B k n q) : Cell B (k + 1) (n / B) q := by
  have hpos : (0 : ℚ) < (B : ℚ) ^ k := by positivity
  have hlow : n / B * B ≤ n := Nat.div_mul_le_self n B
  have hhigh : n + 1 ≤ (n / B + 1) * B := Nat.lt_mul_of_div_lt (Nat.lt_succ_self _) hB
  have hlow' : ((n / B : ℕ) : ℚ) * B ≤ n := by exact_mod_cast hlow
  have hhigh' : (n : ℚ) + 1 ≤ (((n / B : ℕ) : ℚ) + 1) * B := by exact_mod_cast hhigh
  rw [Cell,pow_succ',← mul_assoc,← mul_assoc]
  exact ⟨(mul_le_mul_of_nonneg_right hlow' hpos.le).trans h.1,h.2.trans_le (mul_le_mul_of_nonneg_right hhigh' hpos.le)⟩

end

section

variable {B k m : ℕ} {S : Set ℚ}

theorem beyond_gap (hS : S.OrdConnected) {x y p : ℚ} (hx : x ∈ S) (hy : y ∈ S) (hp : p ∉ S) : p < x ↔ p < y := by
  constructor
  · intro h
    by_contra hle
    exact hp (hS.out hy hx ⟨not_lt.mp hle,h.le⟩)
  · intro h
    by_contra hle
    exact hp (hS.out hx hy ⟨not_lt.mp hle,h.le⟩)

theorem finer_of_gap (hB : 0 < B) {m : ℕ} {j : ℤ} (hm : (m : ℚ) * (B : ℚ) ^ j ∈ S)
    (hgap : ∀ n : ℕ, (n : ℚ) * B ^ (k + 1) ∉ S) : j ≤ k := by
  have hne : (B : ℚ) ≠ 0 := by positivity
  by_contra hlt
  obtain ⟨e,rfl⟩ := Int.le.dest (show ((k + 1 : ℕ) : ℤ) ≤ j by omega)
  refine hgap (m * B ^ e) ?_
  rw [zpow_add₀ hne,zpow_natCast,zpow_natCast] at hm
  convert hm using 1
  push_cast
  ring

theorem fewest_digits (hB : 1 < B) (hS : S.OrdConnected) (hm : (m : ℚ) * B ^ k ∈ S)
    (hgap : ∀ n : ℕ, (n : ℚ) * B ^ (k + 1) ∉ S) {m' : ℕ} {j : ℤ} (hm' : (m' : ℚ) * (B : ℚ) ^ j ∈ S) :
    (Nat.digits B m).length ≤ (Nat.digits B m').length := by
  have hpos : (0 : ℚ) < (B : ℚ) ^ k := by positivity
  have hzero : (0 : ℚ) ∉ S := by simpa using hgap 0
  have hnonzero : m' ≠ 0 := by
    rintro rfl
    exact hzero (by simpa using hm')
  have hsome : m ≠ 0 := by
    rintro rfl
    exact hzero (by simpa using hm)
  have hlow : ((m / B : ℕ) : ℚ) * B ^ (k + 1) < (m : ℚ) * B ^ k := by
    have hdiv : ((m / B : ℕ) : ℚ) * B ≤ m := by exact_mod_cast Nat.div_mul_le_self m B
    refine lt_of_le_of_ne ?_ fun heq => hgap _ (heq ▸ hm)
    rw [pow_succ',← mul_assoc]
    exact mul_le_mul_of_nonneg_right hdiv hpos.le
  have hbelow := (beyond_gap hS hm hm' (hgap _)).mp hlow
  have hfine : (B : ℚ) ^ j ≤ (B : ℚ) ^ k := by
    rw [← zpow_natCast]
    exact zpow_le_zpow_right₀ (by exact_mod_cast hB.le) (finer_of_gap (by omega) hm' hgap)
  have hlt : ((m / B : ℕ) : ℚ) * B < m' := by
    rw [pow_succ',← mul_assoc] at hbelow
    exact lt_of_mul_lt_mul_right (hbelow.trans_le (mul_le_mul_of_nonneg_left hfine (by positivity))) hpos.le
  have hquot : m / B ≤ m' / B := by
    rw [Nat.le_div_iff_mul_le (by omega)]
    exact le_of_lt (by exact_mod_cast hlt)
  rw [Nat.digits_def' hB (Nat.pos_of_ne_zero hsome),Nat.digits_def' hB (Nat.pos_of_ne_zero hnonzero),List.length_cons,List.length_cons]
  exact Nat.succ_le_succ (Nat.le_length_digits_le B _ _ hquot)

end

end DecimalGrid
