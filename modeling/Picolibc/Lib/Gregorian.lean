import Mathlib

namespace Gregorian

def leap (y : Int) : Bool := decide (y % 4 = 0) && (decide (y % 100 ≠ 0) || decide (y % 400 = 0))

def yearLength (y : Int) : Int := if leap y then 366 else 365

def monthLength (y : Int) : Nat → Int
  | 1 => if leap y then 29 else 28
  | 3 | 5 | 8 | 10 => 30
  | _ => 31

def monthStart (y : Int) : Nat → Int
  | 0 => 0
  | m + 1 => monthStart y m + monthLength y m

def yearStart (y : Int) : Int :=
  365 * (y - 1970) + ((y - 1) / 4 - 492) - ((y - 1) / 100 - 19) + ((y - 1) / 400 - 4)

def dayNumber (y : Int) (m : Nat) (d : Int) : Int := yearStart y + monthStart y m + (d - 1)

structure Date (y : Int) (m : Nat) (d : Int) : Prop where
  month : m < 12
  first : 1 ≤ d
  last : d ≤ monthLength y m

theorem leap_iff (y : Int) : leap y = true ↔ y % 4 = 0 ∧ (y % 100 ≠ 0 ∨ y % 400 = 0) := by
  simp [leap]

theorem leap_add (y k : Int) : leap (y + 400 * k) = leap y := by
  rw [Bool.eq_iff_iff,leap_iff,leap_iff]
  omega

theorem yearLength_pos (y : Int) : 365 ≤ yearLength y ∧ yearLength y ≤ 366 := by
  unfold yearLength
  split_ifs <;> omega

theorem yearStart_epoch : yearStart 1970 = 0 := rfl

theorem yearStart_succ (y : Int) : yearStart (y + 1) = yearStart y + yearLength y := by
  have hl := leap_iff y
  unfold yearStart yearLength
  split_ifs with h
  · have := hl.mp h
    omega
  · have : ¬(y % 4 = 0 ∧ (y % 100 ≠ 0 ∨ y % 400 = 0)) := fun hh => h (hl.mpr hh)
    omega

theorem yearStart_add (y k : Int) : yearStart (y + 400 * k) = yearStart y + 146097 * k := by
  unfold yearStart
  omega

theorem yearStart_lt {y z : Int} (h : y < z) : yearStart (y + 1) ≤ yearStart z := by
  unfold yearStart
  omega

theorem year_unique {n y z : Int} (h1 : yearStart y ≤ n) (h2 : n < yearStart (y + 1))
    (h3 : yearStart z ≤ n) (h4 : n < yearStart (z + 1)) : y = z := by
  rcases lt_trichotomy y z with h | h | h
  · have := yearStart_lt h
    omega
  · exact h
  · have := yearStart_lt h
    omega

theorem monthLength_pos (y : Int) (m : Nat) : 28 ≤ monthLength y m ∧ monthLength y m ≤ 31 := by
  unfold monthLength
  split
  · split_ifs <;> omega
  all_goals omega

theorem monthStart_lt (y : Int) {m k : Nat} (h : m < k) : monthStart y (m + 1) ≤ monthStart y k := by
  induction k with
  | zero => omega
  | succ k ih =>
    rcases Nat.lt_succ_iff_lt_or_eq.mp h with hk | rfl
    · have hle := ih hk
      have hpos := (monthLength_pos y k).1
      rw [show monthStart y (k + 1) = monthStart y k + monthLength y k from rfl]
      omega
    · exact le_refl _

theorem month_unique {y n : Int} {m k : Nat} (h1 : monthStart y m ≤ n) (h2 : n < monthStart y (m + 1))
    (h3 : monthStart y k ≤ n) (h4 : n < monthStart y (k + 1)) : m = k := by
  rcases lt_trichotomy m k with h | h | h
  · have := monthStart_lt y h
    omega
  · exact h
  · have := monthStart_lt y h
    omega

theorem monthStart_year (y : Int) : monthStart y 12 = yearLength y := by
  simp only [monthStart,monthLength,yearLength]
  split_ifs <;> rfl

theorem monthStart_nonneg (y : Int) (m : Nat) : 0 ≤ monthStart y m := by
  induction m with
  | zero => exact le_refl _
  | succ m ih =>
    have := (monthLength_pos y m).1
    rw [monthStart]
    omega

theorem month_exists (y : Int) {n : Int} (h0 : 0 ≤ n) {k : Nat} (h : n < monthStart y k) :
    ∃ m, m < k ∧ monthStart y m ≤ n ∧ n < monthStart y (m + 1) := by
  induction k with
  | zero => exact absurd h (not_lt.mpr h0)
  | succ k ih =>
    by_cases hk : n < monthStart y k
    · obtain ⟨m,hm,hrest⟩ := ih hk
      exact ⟨m,Nat.lt_succ_of_lt hm,hrest⟩
    · exact ⟨k,Nat.lt_succ_self k,not_lt.mp hk,h⟩

theorem date_exists (y : Int) {n : Int} (h0 : 0 ≤ n) (h : n < yearLength y) :
    ∃ m d, Date y m d ∧ monthStart y m + (d - 1) = n := by
  rw [← monthStart_year] at h
  obtain ⟨m,hm,hlow,hhigh⟩ := month_exists y h0 h
  rw [monthStart] at hhigh
  exact ⟨m,n - monthStart y m + 1,⟨hm,by omega,by omega⟩,by omega⟩

theorem monthStart_common {y z : Int} (hz : leap z = false) {m : Nat} (hm : m ≤ 12) :
    monthStart y m = monthStart z m + if leap y = true ∧ 2 ≤ m then 1 else 0 := by
  interval_cases m <;> cases hy : leap y <;> simp [monthStart,monthLength,hy,hz]

theorem Date.within {y d : Int} {m : Nat} (h : Date y m d) :
    0 ≤ monthStart y m + (d - 1) ∧ monthStart y m + (d - 1) < yearLength y := by
  have h0 := monthStart_nonneg y m
  have h1 := monthStart_lt y h.month
  rw [monthStart_year,monthStart] at h1
  have := h.first
  have := h.last
  omega

theorem date_unique {y z d e : Int} {m k : Nat} (h : Date y m d) (h' : Date z k e)
    (heq : dayNumber y m d = dayNumber z k e) : y = z ∧ m = k ∧ d = e := by
  have hw := h.within
  have hw' := h'.within
  unfold dayNumber at heq
  obtain rfl : y = z := by
    apply year_unique (n := yearStart y + (monthStart y m + (d - 1)))
    · omega
    · rw [yearStart_succ]
      omega
    · omega
    · rw [yearStart_succ]
      omega
  have := h.first
  have := h.last
  have := h'.first
  have := h'.last
  obtain rfl : m = k := by
    apply month_unique (y := y) (n := monthStart y m + (d - 1))
    · omega
    · rw [monthStart]
      omega
    · omega
    · rw [monthStart]
      omega
  exact ⟨rfl,rfl,by omega⟩

def marchStart (y : Int) : Int := 365 * y + y / 4 - y / 100 + y / 400

theorem monthStart_two (y : Int) : monthStart y 2 = yearLength y - 306 := by
  simp only [monthStart,monthLength,yearLength]
  split_ifs <;> rfl

theorem marchStart_eq (y : Int) : marchStart y = yearStart y + monthStart y 2 + 719468 := by
  have h := yearStart_succ y
  rw [monthStart_two]
  unfold marchStart
  unfold yearStart at *
  omega

theorem marchStart_add (y k : Int) : marchStart (y + 400 * k) = marchStart y + 146097 * k := by
  unfold marchStart
  omega

theorem marchStart_succ (y : Int) : marchStart (y + 1) = marchStart y + yearLength (y + 1) := by
  have h := yearStart_succ y
  have h' := yearStart_succ (y + 1)
  rw [marchStart_eq,marchStart_eq,monthStart_two,monthStart_two]
  omega

theorem monthStart_march (y : Int) {k : Nat} (hk : k ≤ 9) :
    monthStart y (k + 2) = monthStart y 2 + (153 * k + 2) / 5 := by
  interval_cases k <;> simp [monthStart,monthLength] <;> omega

theorem monthLength_march (y : Int) {k : Nat} (hk : k ≤ 9) :
    monthLength y (k + 2) = (153 * (k + 1 : Int) + 2) / 5 - (153 * k + 2) / 5 := by
  interval_cases k <;> rfl

end Gregorian
