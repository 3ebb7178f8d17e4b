import Mathlib
import Picolibc.Lib.HalfEven

open HalfEven

namespace BinaryFormat

structure Format where
  prec : Nat
  emax : Nat
  wide : 1 < prec
  ranged : 0 < emax

namespace Format

variable (f : Format)

def emin : ℤ := 1 - f.emax

def hidden : Nat := 2 ^ (f.prec - 1)

def inf : Nat := (2 * f.emax + 1) * f.hidden

def biased (b : Nat) : Nat := b / f.hidden

def fraction (b : Nat) : Nat := b % f.hidden

def ulp (e : ℤ) : ℚ := 2 ^ (e - (f.prec - 1 : ℕ))

def value (b : Nat) : ℚ :=
  if f.biased b = 0 then f.fraction b * f.ulp f.emin
  else (f.hidden + f.fraction b) * f.ulp (f.biased b - f.emax)

structure Binade (x : ℚ) (e : ℤ) : Prop where
  range : f.emin ≤ e
  low : 2 ^ e ≤ x ∨ e = f.emin
  high : x < 2 ^ (e + 1)

def Delivers (m : ℚ) (b : Nat) : Prop := if 2 ^ (f.emax + 1) ≤ m then b = f.inf else b < f.inf ∧ f.value b = m

def Rounds (x : ℚ) (b : Nat) : Prop :=
  ∃ (e : ℤ) (n : Nat), f.Binade x e ∧ Nearest (x / f.ulp e) n ∧ f.Delivers (n * f.ulp e) b

def pack (e : ℤ) (n : Nat) : Nat := if n < f.hidden then n else (e + f.emax).toNat * f.hidden + (n - f.hidden)

theorem hidden_pos : 0 < f.hidden := Nat.two_pow_pos _

theorem two_hidden : 2 * f.hidden = 2 ^ f.prec := by
  have hprec := f.wide
  rw [hidden,← pow_succ']
  congr 1
  omega

theorem ulp_pos (e : ℤ) : 0 < f.ulp e := zpow_pos two_pos _

theorem hidden_ulp (e : ℤ) : f.hidden * f.ulp e = 2 ^ e := by
  rw [hidden,ulp]
  push_cast
  rw [← zpow_natCast,← zpow_add₀ two_ne_zero]
  congr 1
  ring

theorem ulp_succ (e : ℤ) : f.ulp (e + 1) = 2 * f.ulp e := by
  rw [ulp,ulp,← zpow_one_add₀ two_ne_zero]
  congr 1
  ring

theorem pack_value {e : ℤ} (he : f.emin ≤ e) {n : Nat} (hn : n < 2 * f.hidden) (hsub : n < f.hidden → e = f.emin) :
    f.value (f.pack e n) = n * f.ulp e := by
  have hpos := f.hidden_pos
  unfold pack value biased fraction
  by_cases hlow : n < f.hidden
  · rw [if_pos hlow,Nat.div_eq_of_lt hlow,Nat.mod_eq_of_lt hlow,if_pos rfl,hsub hlow]
  · have hrest : n - f.hidden < f.hidden := by omega
    have hexp : 0 < (e + f.emax).toNat := by
      unfold emin at he
      omega
    have hcast : ((e + f.emax).toNat : ℤ) - f.emax = e := by
      unfold emin at he
      omega
    rw [if_neg hlow,Nat.add_comm,Nat.add_mul_div_right _ _ hpos,Nat.div_eq_of_lt hrest,Nat.add_mul_mod_self_right,
      Nat.mod_eq_of_lt hrest,Nat.zero_add,if_neg hexp.ne',hcast,Nat.cast_sub (not_lt.mp hlow)]
    congr 1
    ring

theorem pack_finite {e : ℤ} (he : e ≤ f.emax) {n : Nat} (hn : n < 2 * f.hidden) : f.pack e n < f.inf := by
  have hpos := f.hidden_pos
  unfold pack inf
  split_ifs with hlow
  · nlinarith [f.ranged]
  · have hexp : (e + f.emax).toNat ≤ 2 * f.emax := by omega
    have hmul := Nat.mul_le_mul_right f.hidden hexp
    rw [Nat.add_mul,Nat.one_mul]
    omega

end Format

def Sticky (y : Nat) (x : ℚ) : Prop := if y % 2 = 0 then x = y else (y : ℚ) - 1 < x ∧ x < y + 1

def shiftOut (y : Nat) : Nat := y / 2 ||| y % 2

theorem or_one (y : Nat) : y ||| 1 = if y % 2 = 0 then y + 1 else y := by
  have hlow : (y ||| 1) % 2 ^ 1 = (y % 2 ^ 1) ||| 1 := Nat.or_mod_two_pow
  have hhigh : (y ||| 1) / 2 ^ 1 = y / 2 ^ 1 := by
    rw [Nat.or_div_two_pow]
    exact Nat.or_zero _
  have hbits : ∀ m < 2, m ||| 1 = 1 := by decide
  rw [hbits (y % 2 ^ 1) (Nat.mod_lt _ (by decide))] at hlow
  split_ifs <;> omega

theorem or_pow (y k : Nat) : y ||| 2 ^ k = if y / 2 ^ k % 2 = 1 then y else y + 2 ^ k := by
  have hlow : (y ||| 2 ^ k) % 2 ^ k = y % 2 ^ k := by
    rw [Nat.or_mod_two_pow,Nat.mod_self,Nat.or_zero]
  have hhigh : (y ||| 2 ^ k) / 2 ^ k = if y / 2 ^ k % 2 = 0 then y / 2 ^ k + 1 else y / 2 ^ k := by
    rw [Nat.or_div_two_pow,Nat.div_self (Nat.two_pow_pos k),or_one]
  have hsplit := Nat.div_add_mod (y ||| 2 ^ k) (2 ^ k)
  have hparts := Nat.div_add_mod y (2 ^ k)
  rw [hlow,hhigh] at hsplit
  by_cases hbit : y / 2 ^ k % 2 = 1
  · rw [if_neg (by omega)] at hsplit
    rw [if_pos hbit]
    omega
  · rw [if_pos (by omega),Nat.mul_add] at hsplit
    rw [if_neg hbit]
    omega

theorem shiftOut_eq (y : Nat) : shiftOut y = if y % 2 = 1 ∧ y / 2 % 2 = 0 then y / 2 + 1 else y / 2 := by
  rcases Nat.mod_two_eq_zero_or_one y with h | h
  · rw [shiftOut,h,Nat.or_zero,if_neg (by omega)]
  · rw [shiftOut,h,or_one]
    split_ifs <;> omega

theorem sticky_even {y : Nat} {x : ℚ} (h : Sticky y x) (hy : y % 2 = 0) : x = y := by
  rwa [Sticky,if_pos hy] at h

theorem sticky_bounds {y : Nat} {x : ℚ} (h : Sticky y x) : (y : ℚ) - 1 < x ∧ x < y + 1 := by
  unfold Sticky at h
  split_ifs at h with hy
  · rw [h]
    exact ⟨by linarith,by linarith⟩
  · exact h

theorem sticky_odd {y : Nat} {x : ℚ} (hy : y % 2 = 1) (hlow : (y : ℚ) - 1 < x) (hhigh : x < y + 1) : Sticky y x := by
  rw [Sticky,if_neg (by omega)]
  exact ⟨hlow,hhigh⟩

theorem sticky_self (y : Nat) : Sticky y y := by
  unfold Sticky
  split_ifs
  · rfl
  · exact ⟨by linarith,by linarith⟩

theorem sticky_shift {y : Nat} {x : ℚ} (h : Sticky y x) : Sticky (shiftOut y) (x / 2) := by
  have hdiv : ((2 * (y / 2) + y % 2 : ℕ) : ℚ) = y := by exact_mod_cast Nat.div_add_mod y 2
  obtain ⟨hlow,hhigh⟩ := sticky_bounds h
  rw [shiftOut_eq]
  rcases Nat.mod_two_eq_zero_or_one y with hy | hy
  · have hx := sticky_even h hy
    rw [hy] at hdiv
    push_cast at hdiv
    have hhalf : x / 2 = (y / 2 : ℕ) := by linarith
    rw [if_neg (by omega),hhalf]
    exact sticky_self _
  · rw [hy] at hdiv
    push_cast at hdiv
    by_cases heven : y / 2 % 2 = 0
    · rw [if_pos ⟨hy,heven⟩]
      exact sticky_odd (by omega) (by push_cast; linarith) (by push_cast; linarith)
    · rw [if_neg fun hc => heven hc.2]
      exact sticky_odd (by omega) (by linarith) (by linarith)

theorem sticky_or {y u k : Nat} {t : ℚ} (h : Sticky y (u / 2 ^ k)) (hpos : 0 < t) (hlt : t < 1) :
    Sticky (y ||| 1) ((u + t) / 2 ^ k) := by
  have hpow : (0 : ℚ) < 2 ^ k := by positivity
  obtain ⟨hlow,hhigh⟩ := sticky_bounds h
  have hgrow : (u : ℚ) / 2 ^ k < (u + t) / 2 ^ k := (div_lt_div_iff_of_pos_right hpow).mpr (by linarith)
  have hnext : (u + t : ℚ) / 2 ^ k < y + 1 := by
    rw [div_lt_iff₀ hpow] at hhigh ⊢
    have hint : u + 1 ≤ (y + 1) * 2 ^ k := by exact_mod_cast hhigh
    have hcast : ((u + 1 : ℕ) : ℚ) ≤ (((y + 1) * 2 ^ k : ℕ) : ℚ) := by exact_mod_cast hint
    push_cast at hcast
    linarith
  rw [or_one]
  split_ifs with hy
  · have hx := sticky_even h hy
    exact sticky_odd (by omega) (by push_cast; linarith) (by push_cast; linarith)
  · exact sticky_odd (by omega) (by linarith) hnext

def roundsUp (y : Nat) : Prop := y &&& 3 = 3 ∨ y &&& 6 = 6

theorem roundsUp_iff (y : Nat) : roundsUp y ↔ y % 4 = 3 ∨ y % 8 = 6 := by
  have hthree : y &&& 3 = y % 4 := Nat.and_two_pow_sub_one_eq_mod y 2
  have hsix : y &&& 6 = y % 8 &&& 6 := by
    have hmod : (y &&& 6) % 2 ^ 3 = y % 2 ^ 3 &&& 6 % 2 ^ 3 := Nat.and_mod_two_pow
    rwa [Nat.mod_eq_of_lt (lt_of_le_of_lt Nat.and_le_right (by decide))] at hmod
  have hbits : ∀ m < 8, m &&& 6 = 6 ↔ m = 6 ∨ m = 7 := by decide
  rw [roundsUp,hthree,hsix,hbits _ (Nat.mod_lt _ (by decide))]
  omega

instance (y : Nat) : Decidable (roundsUp y) := inferInstanceAs (Decidable (_ ∨ _))

def unguarded (y : Nat) : Nat := (if roundsUp y then y + 4 else y) / 4

theorem nearest_inside {x : ℚ} {n : ℕ} (hlow : (n : ℚ) - 1 / 2 < x) (hhigh : x < n + 1 / 2) : Nearest x n := by
  have habs : |x - ((n : ℤ) : ℚ)| < 1 / 2 := by
    rw [Int.cast_natCast,abs_lt]
    constructor <;> linarith
  exact ⟨habs.le,fun heq => absurd heq habs.ne⟩

theorem nearest_tie {x : ℚ} {n : ℕ} (h : |x - n| = 1 / 2) (heven : n % 2 = 0) : Nearest x n := by
  refine ⟨?_,fun _ => ?_⟩
  · rw [Int.cast_natCast]
    exact h.le
  · rw [Int.even_iff]
    omega

theorem unguarded_nearest {y : Nat} {x : ℚ} (h : Sticky y (4 * x)) : Nearest x (unguarded y) := by
  obtain ⟨q,r,hr,rfl⟩ : ∃ q r, r < 4 ∧ y = 4 * q + r := ⟨y / 4,y % 4,Nat.mod_lt _ (by decide),by omega⟩
  obtain ⟨hlow,hhigh⟩ := sticky_bounds h
  have hvalue : unguarded (4 * q + r) = if r = 3 ∨ r = 2 ∧ q % 2 = 1 then q + 1 else q := by
    have hup : roundsUp (4 * q + r) ↔ r = 3 ∨ r = 2 ∧ q % 2 = 1 := by
      rw [roundsUp_iff]
      omega
    rw [unguarded]
    split_ifs <;> grind
  rw [hvalue]
  interval_cases r
  · have hx := sticky_even h (by omega)
    push_cast at hx
    exact nearest_inside (by simp; linarith) (by simp; linarith)
  · push_cast at hlow hhigh
    exact nearest_inside (by simp; linarith) (by simp; linarith)
  · have hx := sticky_even h (by omega)
    push_cast at hx
    by_cases hodd : q % 2 = 1
    · rw [if_pos (.inr ⟨rfl,hodd⟩)]
      refine nearest_tie ?_ (by omega)
      rw [abs_of_neg (by push_cast; linarith)]
      push_cast
      linarith
    · rw [if_neg (by omega)]
      refine nearest_tie ?_ (by omega)
      rw [abs_of_pos (by linarith)]
      linarith
  · push_cast at hlow hhigh
    exact nearest_inside (by simp; linarith) (by simp; linarith)

namespace Format

variable {f : Format}

theorem binade_of {x : ℚ} {e : ℤ} {y : Nat} (he : f.emin ≤ e) (h : Sticky y (4 * (x / f.ulp e)))
    (hlow : 4 * f.hidden ≤ y ∨ e = f.emin) (hhigh : y < 8 * f.hidden) : f.Binade x e := by
  have hulp := f.ulp_pos e
  have hpow := f.hidden_ulp e
  have hnext : (2 : ℚ) ^ (e + 1) = 2 * (f.hidden * f.ulp e) := by
    rw [hpow,zpow_add_one₀ two_ne_zero]
    ring
  refine ⟨he,?_,?_⟩
  · refine hlow.imp (fun hlow => ?_) id
    have hx : (4 * f.hidden : ℚ) ≤ 4 * (x / f.ulp e) := by
      have hcast : ((4 * f.hidden : ℕ) : ℚ) ≤ y := by exact_mod_cast hlow
      push_cast at hcast
      rcases Nat.mod_two_eq_zero_or_one y with hy | hy
      · rw [sticky_even h hy]
        exact hcast
      · have hodd : ((4 * f.hidden + 1 : ℕ) : ℚ) ≤ y := by exact_mod_cast (show 4 * f.hidden + 1 ≤ y by omega)
        push_cast at hodd
        linarith [(sticky_bounds h).1]
    rw [← hpow,← le_div_iff₀ hulp]
    linarith
  · have hx : 4 * (x / f.ulp e) < 8 * f.hidden := by
      rcases Nat.mod_two_eq_zero_or_one y with hy | hy
      · rw [sticky_even h hy]
        exact_mod_cast hhigh
      · have hodd : ((y + 1 : ℕ) : ℚ) ≤ ((8 * f.hidden : ℕ) : ℚ) := by exact_mod_cast hhigh
        push_cast at hodd
        linarith [(sticky_bounds h).2]
    rw [hnext,← mul_assoc,← div_lt_iff₀ hulp]
    linarith

theorem delivers_pack {e : ℤ} (he : f.emin ≤ e) {n : Nat} (hn : n < 2 * f.hidden) (hsub : n < f.hidden → e = f.emin) :
    f.Delivers (n * f.ulp e) (if f.emax + 1 ≤ e then f.inf else f.pack e n) := by
  have hulp := f.ulp_pos e
  have hpow := f.hidden_ulp e
  have hnext : (2 : ℚ) ^ (e + 1) = 2 * (f.hidden * f.ulp e) := by
    rw [hpow,zpow_add_one₀ two_ne_zero]
    ring
  have hnat : (2 : ℚ) ^ (f.emax + 1) = 2 ^ ((f.emax : ℤ) + 1) := by
    rw [← zpow_natCast]
    push_cast
    rfl
  rw [Delivers,hnat]
  by_cases hbig : (f.emax : ℤ) + 1 ≤ e
  · have hhidden : f.hidden ≤ n := by
      by_contra hlow
      have hmin := hsub (not_le.mp hlow)
      have hranged := f.ranged
      unfold emin at hmin
      omega
    have hle : (2 : ℚ) ^ ((f.emax : ℤ) + 1) ≤ n * f.ulp e := by
      calc (2 : ℚ) ^ ((f.emax : ℤ) + 1) ≤ 2 ^ e := zpow_le_zpow_right₀ one_le_two hbig
        _ = f.hidden * f.ulp e := hpow.symm
        _ ≤ n * f.ulp e := by gcongr
    rw [if_pos hle,if_pos hbig]
  · have hlt : n * f.ulp e < (2 : ℚ) ^ ((f.emax : ℤ) + 1) := by
      calc n * f.ulp e < (2 * f.hidden : ℕ) * f.ulp e := by gcongr
        _ = 2 ^ (e + 1) := by
          rw [hnext]
          push_cast
          ring
        _ ≤ 2 ^ ((f.emax : ℤ) + 1) := zpow_le_zpow_right₀ one_le_two (by omega)
    rw [if_neg (not_le.mpr hlt),if_neg hbig]
    exact ⟨f.pack_finite (by omega) hn,f.pack_value he hn hsub⟩

theorem delivers_carry {e : ℤ} (he : f.emin ≤ e) :
    f.Delivers ((2 * f.hidden : ℕ) * f.ulp e) (if f.emax + 1 ≤ e + 1 then f.inf else f.pack (e + 1) f.hidden) := by
  have hpos := f.hidden_pos
  have hvalue : ((2 * f.hidden : ℕ) : ℚ) * f.ulp e = f.hidden * f.ulp (e + 1) := by
    rw [f.ulp_succ]
    push_cast
    ring
  rw [hvalue]
  exact delivers_pack (by omega) (by omega) fun h => absurd h (lt_irrefl _)

end Format

end BinaryFormat
