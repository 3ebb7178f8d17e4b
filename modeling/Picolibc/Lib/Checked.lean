import Mathlib

namespace Checked

def Fits (bits : Nat) (x : Int) : Prop := -2 ^ (bits - 1) ≤ x ∧ x < 2 ^ (bits - 1)

instance (bits : Nat) (x : Int) : Decidable (Fits bits x) := inferInstanceAs (Decidable (_ ∧ _))

def signed (bits : Nat) (x : Int) : Option Int := if Fits bits x then some x else none

def unsigned (bits : Nat) (x : Int) : Int := x % 2 ^ bits

def wrap (bits : Nat) (x : Int) : Int := (x + 2 ^ (bits - 1)) % 2 ^ bits - 2 ^ (bits - 1)

def signed32 (u : Nat) : Int := if u < 2 ^ 31 then u else u - 2 ^ 32

def int32 (n : Nat) : Int := signed32 (n % 2 ^ 32)

variable {bits : Nat} {x : Int}

theorem pow_le {m n : Nat} (h : m ≤ n) : (2 : Int) ^ m ≤ 2 ^ n :=
  pow_le_pow_right₀ (by omega) h

theorem pow_step (h : 0 < bits) : (2 : Int) ^ bits = 2 * 2 ^ (bits - 1) := by
  obtain ⟨n,rfl⟩ : ∃ n, bits = n + 1 := ⟨bits - 1,by omega⟩
  rw [Nat.add_sub_cancel,pow_succ]
  omega

theorem Fits.mono {bits' : Nat} (h : Fits bits x) (hle : bits ≤ bits') : Fits bits' x := by
  have := pow_le (show bits - 1 ≤ bits' - 1 by omega)
  unfold Fits at *
  omega

theorem fits_short (h : 16 ≤ bits) (h1 : -32768 ≤ x) (h2 : x < 32768) : Fits bits x :=
  Fits.mono (show Fits 16 x from ⟨h1,h2⟩) h

theorem fits_word (h : 32 ≤ bits) (h1 : -2147483648 ≤ x) (h2 : x < 2147483648) : Fits bits x :=
  Fits.mono (show Fits 32 x from ⟨h1,h2⟩) h

theorem signed_fits (h : Fits bits x) : signed bits x = some x := if_pos h

theorem signed_some {y : Int} (h : signed bits x = some y) : y = x := by
  unfold signed at h
  split_ifs at h
  exact (Option.some.inj h).symm

theorem unsigned_eq (h1 : 0 ≤ x) (h2 : x < 2 ^ bits) : unsigned bits x = x :=
  Int.emod_eq_of_lt h1 h2

theorem unsigned_short (h : 16 ≤ bits) (h1 : 0 ≤ x) (h2 : x < 65536) : unsigned bits x = x :=
  unsigned_eq h1 (h2.trans_le (pow_le h))

theorem unsigned_word (h : 32 ≤ bits) (h1 : 0 ≤ x) (h2 : x < 4294967296) : unsigned bits x = x :=
  unsigned_eq h1 (h2.trans_le (pow_le h))

theorem unsigned_sub_unsigned (x y : Int) :
    unsigned bits (x - unsigned bits y) = unsigned bits (x - y) := by
  simp [unsigned]

theorem unsigned_unsigned {bits' : Nat} (h : bits ≤ bits') (x : Int) :
    unsigned bits (unsigned bits' x) = unsigned bits x :=
  Int.emod_emod_of_dvd x (pow_dvd_pow 2 h)

theorem wrap_fits (h0 : 0 < bits) (h : Fits bits x) : wrap bits x = x := by
  have hp := pow_step h0
  unfold Fits at h
  rw [wrap,Int.emod_eq_of_lt (by omega) (by omega)]
  omega

theorem wrap_unsigned (x : Int) : wrap bits (unsigned bits x) = wrap bits x := by
  simp [wrap,unsigned]

theorem tmod_zero_iff {n : Int} : x.tmod n = 0 ↔ x % n = 0 := by
  rw [← Int.dvd_iff_tmod_eq_zero,← Int.dvd_iff_emod_eq_zero]

theorem trunc_nonneg (n : Int) (h : 0 ≤ x) : x.tdiv n = x / n ∧ x.tmod n = x % n :=
  ⟨Int.tdiv_eq_ediv_of_nonneg h,Int.tmod_eq_emod_of_nonneg h⟩

theorem trunc_neg (n : Int) (h : x ≤ 0) : x.tdiv n = -(-x / n) ∧ x.tmod n = -(-x % n) := by
  have hn := trunc_nonneg n (show 0 ≤ -x by omega)
  rw [Int.neg_tdiv,Int.neg_tmod] at hn
  omega

theorem int32_small {n : Nat} (hn : n < 2 ^ 31) : int32 n = n := by
  rw [int32,Nat.mod_eq_of_lt (by omega),signed32,if_pos hn]

theorem int32_lt (n : Nat) : int32 n < 2 ^ 31 := by
  rw [int32,signed32]
  split <;> omega

theorem int32_le (n : Nat) : int32 n ≤ n := by
  rw [int32,signed32]
  split <;> omega

end Checked
