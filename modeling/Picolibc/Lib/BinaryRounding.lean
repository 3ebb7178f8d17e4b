import Mathlib
import Picolibc.Lib.BinaryFormat

open HalfEven

namespace BinaryFormat

section

variable {x : ℚ} {m n k : ℤ}

theorem nearest_unique (hm : Nearest x m) (hn : Nearest x n) : m = n := by
  obtain ⟨hmlow,hmhigh⟩ := abs_le.mp hm.1
  obtain ⟨hnlow,hnhigh⟩ := abs_le.mp hn.1
  by_contra hne
  wlog hlt : m < n generalizing m n
  · exact this hn hm hnlow hnhigh hmlow hmhigh (Ne.symm hne) (by omega)
  have hgap : (m : ℚ) + 1 ≤ n := by exact_mod_cast hlt
  have hmtie : |x - m| = 1 / 2 := by rw [abs_of_nonneg (by linarith)]; linarith
  have hntie : |x - n| = 1 / 2 := by rw [abs_of_nonpos (by linarith)]; linarith
  have hstep : n = m + 1 := by
    have hle : (n : ℚ) ≤ m + 1 := by linarith
    have hle' : n ≤ m + 1 := by exact_mod_cast hle
    omega
  have hmeven := hm.2 hmtie
  have hneven := hn.2 hntie
  rw [Int.even_iff] at hmeven hneven
  omega

theorem le_nearest (h : (k : ℚ) ≤ x) (hn : Nearest x n) : k ≤ n := by
  obtain ⟨hlow,hhigh⟩ := abs_le.mp hn.1
  have hlt : (k : ℚ) < n + 1 := by linarith
  have hlt' : k < n + 1 := by exact_mod_cast hlt
  omega

theorem nearest_le (h : x ≤ k) (hn : Nearest x n) : n ≤ k := by
  obtain ⟨hlow,hhigh⟩ := abs_le.mp hn.1
  have hlt : (n : ℚ) < k + 1 := by linarith
  have hlt' : n < k + 1 := by exact_mod_cast hlt
  omega

theorem nearest_below (h : x < k - 1 / 2) (hn : Nearest x n) : n < k := by
  obtain ⟨hlow,hhigh⟩ := abs_le.mp hn.1
  have hlt : (n : ℚ) < k := by linarith
  exact_mod_cast hlt

theorem nearest_even_up (h : (k : ℚ) - 1 / 2 ≤ x) (hk : Even k) (hn : Nearest x n) : k ≤ n := by
  obtain ⟨hlow,hhigh⟩ := abs_le.mp hn.1
  by_contra hlt
  have hle : (n : ℚ) ≤ k - 1 := by exact_mod_cast (show n ≤ k - 1 by omega)
  have htie : |x - n| = 1 / 2 := by rw [abs_of_nonneg (by linarith)]; linarith
  have hstep : n = k - 1 := by
    have hge : (k : ℚ) - 1 ≤ n := by linarith
    have hge' : k - 1 ≤ n := by exact_mod_cast hge
    omega
  have heven := hn.2 htie
  rw [Int.even_iff] at heven hk
  omega

end

namespace Format

variable {f : Format} {x : ℚ}

theorem ulp_mono {e e' : ℤ} (h : e ≤ e') : f.ulp e ≤ f.ulp e' := zpow_le_zpow_right₀ one_le_two (by omega)

theorem Binade.unique {e e' : ℤ} (h : f.Binade x e) (h' : f.Binade x e') : e = e' := by
  have hle : ∀ {a b : ℤ}, f.Binade x a → f.Binade x b → a ≤ b := by
    intro a b ha hb
    rcases ha.low with hlow | hmin
    · have hlt := (zpow_lt_zpow_iff_right₀ (one_lt_two : (1 : ℚ) < 2)).mp (hlow.trans_lt hb.high)
      omega
    · exact hmin ▸ hb.range
  exact le_antisymm (hle h h') (hle h' h)

theorem value_split (q : Nat) {r : Nat} (hr : r < f.hidden) :
    f.value (f.hidden * q + r) = if q = 0 then r * f.ulp f.emin else (f.hidden + r) * f.ulp (q - f.emax) := by
  have hquot : (f.hidden * q + r) / f.hidden = q := by
    rw [Nat.mul_add_div f.hidden_pos,Nat.div_eq_of_lt hr,Nat.add_zero]
  have hrem : (f.hidden * q + r) % f.hidden = r := by rw [Nat.mul_add_mod,Nat.mod_eq_of_lt hr]
  unfold value biased fraction
  rw [hquot,hrem]

theorem value_lt_succ (b : Nat) : f.value b < f.value (b + 1) := by
  have hpos := f.hidden_pos
  obtain ⟨q,r,hr,rfl⟩ : ∃ q r, r < f.hidden ∧ b = f.hidden * q + r :=
    ⟨b / f.hidden,b % f.hidden,Nat.mod_lt _ hpos,(Nat.div_add_mod b f.hidden).symm⟩
  rw [value_split q hr]
  by_cases hlast : r + 1 = f.hidden
  · have hnext : f.hidden * q + r + 1 = f.hidden * (q + 1) + 0 := by
      rw [Nat.mul_add]
      omega
    have hfull : (r : ℚ) + 1 = f.hidden := by exact_mod_cast hlast
    rw [hnext,value_split (q + 1) hpos,if_neg (Nat.succ_ne_zero q)]
    by_cases hzero : q = 0
    · have hexp : ((q + 1 : ℕ) : ℤ) - f.emax = f.emin := by
        rw [hzero,emin]
        rfl
      rw [if_pos hzero,hexp]
      refine mul_lt_mul_of_pos_right ?_ (f.ulp_pos _)
      push_cast
      linarith
    · have hexp : ((q + 1 : ℕ) : ℤ) - f.emax = q - f.emax + 1 := by
        push_cast
        ring
      have hulp := f.ulp_pos (q - f.emax)
      rw [if_neg hzero,hexp,f.ulp_succ]
      push_cast
      nlinarith
  · rw [Nat.add_assoc,value_split q (show r + 1 < f.hidden by omega)]
    push_cast
    split_ifs
    · exact mul_lt_mul_of_pos_right (by linarith) (f.ulp_pos _)
    · exact mul_lt_mul_of_pos_right (by linarith) (f.ulp_pos _)

theorem value_injective : Function.Injective f.value := (strictMono_nat_of_lt_succ value_lt_succ).injective

theorem value_zero : f.value 0 = 0 := by
  unfold value biased fraction
  simp

theorem Delivers.unique {m : ℚ} {b b' : Nat} (h : f.Delivers m b) (h' : f.Delivers m b') : b = b' := by
  unfold Delivers at h h'
  split_ifs at h h' with hbig
  · rw [h,h']
  · exact value_injective (h.2.trans h'.2.symm)

theorem Rounds.unique {b b' : Nat} (h : f.Rounds x b) (h' : f.Rounds x b') : b = b' := by
  obtain ⟨e,n,hbin,hnear,hdel⟩ := h
  obtain ⟨e',n',hbin',hnear',hdel'⟩ := h'
  obtain rfl := hbin.unique hbin'
  obtain rfl : n = n' := by exact_mod_cast nearest_unique hnear hnear'
  exact hdel.unique hdel'

theorem binade_exact {e : ℤ} {n : Nat} (he : f.emin ≤ e) (hn : n < 2 * f.hidden) (hsub : n < f.hidden → e = f.emin) :
    f.Binade (n * f.ulp e) e := by
  have hulp := f.ulp_pos e
  refine ⟨he,?_,?_⟩
  · by_cases hlow : n < f.hidden
    · exact .inr (hsub hlow)
    · left
      rw [← f.hidden_ulp e]
      exact mul_le_mul_of_nonneg_right (by exact_mod_cast not_lt.mp hlow) hulp.le
  · rw [zpow_add_one₀ two_ne_zero,← f.hidden_ulp e]
    have hlt : (n : ℚ) < 2 * f.hidden := by exact_mod_cast hn
    nlinarith

theorem rounds_exact {e : ℤ} {n b : Nat} (he : f.emin ≤ e) (hn : n < 2 * f.hidden) (hsub : n < f.hidden → e = f.emin) :
    f.Rounds (n * f.ulp e) b ↔ f.Delivers (n * f.ulp e) b := by
  have hbin := binade_exact he hn hsub
  have hnear : Nearest (n * f.ulp e / f.ulp e) n := by
    rw [mul_div_cancel_right₀ _ (f.ulp_pos e).ne']
    exact nearest_int n
  refine ⟨fun h => ?_,fun h => ⟨e,n,hbin,hnear,h⟩⟩
  obtain ⟨e',n',hbin',hnear',hdel⟩ := h
  obtain rfl := hbin.unique hbin'
  obtain rfl : n = n' := by exact_mod_cast nearest_unique hnear hnear'
  exact hdel

theorem binade_quotient {e : ℤ} (h : f.Binade x e) : (f.hidden ≤ x / f.ulp e ∨ e = f.emin) ∧ x / f.ulp e < 2 * f.hidden := by
  have hulp := f.ulp_pos e
  refine ⟨h.low.imp (fun hlow => ?_) id,?_⟩
  · rwa [le_div_iff₀ hulp,f.hidden_ulp]
  · rw [div_lt_iff₀ hulp,mul_assoc,f.hidden_ulp,← zpow_one_add₀ two_ne_zero,add_comm]
    exact h.high

theorem binade_nearest {e : ℤ} {n : Nat} (h : f.Binade x e) (hn : Nearest (x / f.ulp e) n) :
    n ≤ 2 * f.hidden ∧ (n < f.hidden → e = f.emin) := by
  obtain ⟨hlow,hhigh⟩ := binade_quotient h
  constructor
  · have hle := @nearest_le _ _ (2 * f.hidden : ℕ) (by push_cast; exact hhigh.le) hn
    exact_mod_cast hle
  · intro hsmall
    refine hlow.resolve_left fun hnorm => ?_
    have hle := @le_nearest _ _ (f.hidden : ℕ) (by exact_mod_cast hnorm) hn
    omega

theorem carry_iff {e : ℤ} {n : Nat} (h : f.Binade x e) (hn : Nearest (x / f.ulp e) n) :
    n = 2 * f.hidden ↔ (2 * f.hidden - 1 / 2) * f.ulp e ≤ x := by
  have hle := (binade_nearest h hn).1
  rw [← le_div_iff₀ (f.ulp_pos e)]
  constructor
  · intro hcarry
    by_contra hsmall
    have hlt := @nearest_below _ _ (2 * f.hidden : ℕ) (by push_cast; exact not_le.mp hsmall) hn
    omega
  · intro hbig
    have hge := @nearest_even_up _ _ (2 * f.hidden : ℕ) (by push_cast; exact hbig) (by simp) hn
    omega

theorem binade_rounds {e : ℤ} {n : Nat} (h : f.Binade x e) (hn : Nearest (x / f.ulp e) n) :
    f.Rounds x (if n = 2 * f.hidden then (if f.emax + 1 ≤ e + 1 then f.inf else f.pack (e + 1) f.hidden)
      else if f.emax + 1 ≤ e then f.inf else f.pack e n) := by
  obtain ⟨hle,hsub⟩ := binade_nearest h hn
  refine ⟨e,n,h,hn,?_⟩
  split_ifs with hcarry
  all_goals first
    | rw [hcarry]
      have hdel := @delivers_carry f e h.range
      split_ifs at hdel
      exact hdel
    | have hdel := @delivers_pack f e h.range n (by omega) hsub
      split_ifs at hdel
      exact hdel

def exponent (f : Format) (x : ℚ) : ℤ := if x < 2 ^ f.emin then f.emin else Int.log 2 x

def round (f : Format) (x : ℚ) : Nat :=
  let e := f.exponent x
  let n := rounded (x / f.ulp e).den (x / f.ulp e).num.toNat
  if n = 2 * f.hidden then (if f.emax + 1 ≤ e + 1 then f.inf else f.pack (e + 1) f.hidden)
  else if f.emax + 1 ≤ e then f.inf else f.pack e n

theorem exponent_binade (x : ℚ) : f.Binade x (f.exponent x) := by
  have htwo : (1 : ℕ) < 2 := one_lt_two
  unfold exponent
  split_ifs with hsmall
  · refine ⟨le_rfl,.inr rfl,hsmall.trans ?_⟩
    exact zpow_lt_zpow_right₀ one_lt_two (by omega)
  · have hpos : 0 < x := (zpow_pos two_pos _).trans_le (not_lt.mp hsmall)
    have hlow := Int.zpow_log_le_self htwo hpos
    have hhigh := Int.lt_zpow_succ_log_self htwo x
    push_cast at hlow hhigh
    refine ⟨?_,.inl hlow,hhigh⟩
    have hlt := (zpow_lt_zpow_iff_right₀ (one_lt_two : (1 : ℚ) < 2)).mp ((not_lt.mp hsmall).trans_lt hhigh)
    omega

theorem round_rounds (hx : 0 ≤ x) : f.Rounds x (f.round x) := by
  refine binade_rounds (exponent_binade x) ?_
  have hnum : 0 ≤ (x / f.ulp (f.exponent x)).num := Rat.num_nonneg.mpr (div_nonneg hx (f.ulp_pos _).le)
  have hnear := rounded_nearest (x / f.ulp (f.exponent x)).den_pos (x / f.ulp (f.exponent x)).num.toNat
  have hcast : (((x / f.ulp (f.exponent x)).num.toNat : ℕ) : ℚ) = (x / f.ulp (f.exponent x)).num := by
    exact_mod_cast congrArg (Int.cast (R := ℚ)) (Int.toNat_of_nonneg hnum)
  rwa [hcast,Rat.num_div_den] at hnear

def overflow (f : Format) : ℚ := (2 * f.hidden - 1 / 2) * f.ulp f.emax

theorem top_ulp (f : Format) : 2 * f.hidden * f.ulp f.emax = 2 ^ (f.emax + 1) := by
  rw [mul_assoc,f.hidden_ulp,pow_succ',← zpow_natCast]

theorem delivers_inf {m : ℚ} {b : Nat} (h : f.Delivers m b) : b = f.inf ↔ 2 ^ (f.emax + 1) ≤ m := by
  unfold Delivers at h
  split_ifs at h with hbig
  · exact ⟨fun _ => hbig,fun _ => h⟩
  · exact ⟨fun heq => absurd heq h.1.ne,fun hle => absurd hle hbig⟩

theorem rounds_inf {b : Nat} (h : f.Rounds x b) : b = f.inf ↔ f.overflow ≤ x := by
  obtain ⟨e,n,hbin,hnear,hdel⟩ := h
  obtain ⟨hlow,hhigh⟩ := binade_quotient hbin
  obtain ⟨hle,hsub⟩ := binade_nearest hbin hnear
  have hpos := f.hidden_pos
  have hranged := f.ranged
  have hulp := f.ulp_pos e
  rw [delivers_inf hdel,← f.top_ulp,overflow]
  rcases lt_trichotomy e f.emax with hlt | rfl | hgt
  · have hstep : 2 * f.ulp e ≤ f.ulp f.emax := by
      rw [← f.ulp_succ]
      exact ulp_mono (by omega)
    have hn : (n : ℚ) ≤ 2 * f.hidden := by exact_mod_cast hle
    have hone : (1 : ℚ) ≤ f.hidden := by exact_mod_cast hpos
    rw [div_lt_iff₀ hulp] at hhigh
    constructor
    · intro hbig
      nlinarith
    · intro hbig
      nlinarith
  · rw [mul_le_mul_iff_of_pos_right hulp,← carry_iff hbin hnear]
    constructor
    · intro hbig
      have hge : 2 * f.hidden ≤ n := by exact_mod_cast hbig
      omega
    · intro hcarry
      rw [hcarry]
      push_cast
      exact le_rfl
  · have hnorm := hlow.resolve_right fun hmin => by
      unfold emin at hmin
      omega
    have hstep : 2 * f.ulp f.emax ≤ f.ulp e := by
      rw [← f.ulp_succ]
      exact ulp_mono (by omega)
    have hn : (f.hidden : ℚ) ≤ n := by
      exact_mod_cast not_lt.mp fun hsmall => absurd (hsub hsmall) (by unfold emin; omega)
    have hone : (1 : ℚ) ≤ f.hidden := by exact_mod_cast hpos
    have hbase := f.ulp_pos f.emax
    rw [le_div_iff₀ hulp] at hnorm
    constructor
    · intro _
      nlinarith
    · intro _
      nlinarith

theorem delivers_zero {m : ℚ} {b : Nat} (h : f.Delivers m b) : b = 0 ↔ m = 0 := by
  have hinf : 0 < f.inf := Nat.mul_pos (Nat.succ_pos _) f.hidden_pos
  unfold Delivers at h
  split_ifs at h with hbig
  · rw [h]
    refine ⟨fun h0 => absurd h0 hinf.ne',?_⟩
    rintro rfl
    exact absurd hbig (not_le.mpr (by positivity))
  · constructor
    · rintro rfl
      rw [← h.2,value_zero]
    · rintro rfl
      exact @value_injective f _ _ (h.2.trans value_zero.symm)

theorem rounds_zero {b : Nat} (h : f.Rounds x b) : b = 0 ↔ x ≤ f.ulp f.emin / 2 := by
  obtain ⟨e,n,hbin,hnear,hdel⟩ := h
  obtain ⟨hlow,-⟩ := binade_quotient hbin
  have hulp := f.ulp_pos e
  have hone : (1 : ℚ) ≤ f.hidden := by exact_mod_cast f.hidden_pos
  have hzero : (n : ℚ) * f.ulp e = 0 ↔ n = 0 := by
    rw [mul_eq_zero,or_iff_left hulp.ne']
    exact Nat.cast_eq_zero
  rw [delivers_zero hdel,hzero]
  constructor
  · rintro rfl
    obtain ⟨-,hupper⟩ := abs_le.mp hnear.1
    push_cast at hupper
    have hmin : e = f.emin := hlow.resolve_left fun hnorm => by linarith
    have hq : x / f.ulp e ≤ 1 / 2 := by linarith
    rw [div_le_iff₀ hulp,hmin] at hq
    linarith
  · intro hsmall
    have hmin : e = f.emin := hlow.resolve_left fun hnorm => by
      rw [le_div_iff₀ hulp] at hnorm
      have hmono := @ulp_mono f f.emin e hbin.range
      nlinarith
    subst hmin
    have hhalf : x / f.ulp f.emin ≤ 1 / 2 := by
      rw [div_le_iff₀ hulp]
      linarith
    by_contra hne
    obtain ⟨hlower,-⟩ := abs_le.mp hnear.1
    have hup : (1 : ℚ) ≤ ((n : ℤ) : ℚ) := by exact_mod_cast Nat.one_le_iff_ne_zero.mpr hne
    have hn : ((n : ℤ) : ℚ) = 1 := by linarith
    have htie : |x / f.ulp f.emin - ((n : ℤ) : ℚ)| = 1 / 2 := by
      rw [abs_of_nonpos (by linarith)]
      linarith
    have heven := hnear.2 htie
    rw [show (n : ℤ) = 1 by exact_mod_cast hn] at heven
    exact absurd heven (by decide)

theorem round_zero (hx : 0 ≤ x) (h : x ≤ f.ulp f.emin / 2) : f.Rounds x 0 := by
  have hround := @round_rounds f x hx
  rwa [(rounds_zero hround).mpr h] at hround

theorem round_inf (hx : 0 ≤ x) (h : f.overflow ≤ x) : f.Rounds x f.inf := by
  have hround := @round_rounds f x hx
  rwa [(rounds_inf hround).mpr h] at hround

theorem decimal_limits (f : Format) {lo hi : Nat} (hlo : 2 ^ (f.emax + f.prec - 1) ≤ 10 ^ lo) (hhi : 2 ^ (f.emax + 1) ≤ 10 ^ hi) :
    (10 : ℚ) ^ (-lo : ℤ) ≤ f.ulp f.emin / 2 ∧ f.overflow ≤ 10 ^ hi := by
  have hwide := f.wide
  constructor
  · have hulp : f.ulp f.emin / 2 = (2 ^ (f.emax + f.prec - 1))⁻¹ := by
      rw [ulp,emin,div_eq_mul_inv,← zpow_sub_one₀ two_ne_zero,← zpow_natCast,← zpow_neg]
      congr 1
      omega
    rw [hulp,zpow_neg,zpow_natCast]
    exact inv_anti₀ (by positivity) (by exact_mod_cast hlo)
  · have htop : f.overflow ≤ 2 ^ (f.emax + 1) := by
      rw [← f.top_ulp,overflow]
      exact mul_le_mul_of_nonneg_right (by linarith) (f.ulp_pos _).le
    exact htop.trans (by exact_mod_cast hhi)

def Carries (f : Format) (x : ℚ) : Prop :=
  ∃ e, f.emin ≤ e ∧ e ≤ f.emax ∧ (2 * f.hidden - 1 / 2) * f.ulp e ≤ x ∧ x < 2 ^ (e + 1)

theorem carried_binade {e : ℤ} (he : f.emin ≤ e) (hlow : (2 * f.hidden - 1 / 2) * f.ulp e ≤ x) (hhigh : x < 2 ^ (e + 1)) :
    f.Binade x e := by
  refine ⟨he,.inl (le_trans ?_ hlow),hhigh⟩
  have hone : (1 : ℚ) ≤ f.hidden := by exact_mod_cast f.hidden_pos
  rw [← f.hidden_ulp e]
  exact mul_le_mul_of_nonneg_right (by linarith) (f.ulp_pos e).le

theorem power_delivers {e : ℤ} (he : f.emin ≤ e) {b : Nat} (h : f.Rounds (2 ^ e) b) : f.Delivers (2 ^ e) b := by
  have hpos := f.hidden_pos
  rw [← f.hidden_ulp e] at h ⊢
  exact (rounds_exact he (by omega) (fun hlt => absurd hlt (lt_irrefl _))).mp h

end Format

end BinaryFormat
