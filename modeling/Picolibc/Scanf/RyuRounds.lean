import Mathlib
import Picolibc.Scanf.RyuEngine

open BinaryFormat HalfEven

namespace Scanf

theorem half_even {y : ℚ} {m shift : Nat} {tz : Bool} (hshift : 0 < shift) (hlow : (m : ℚ) ≤ y) (hhigh : y < m + 1)
    (hexact : tz = true ↔ y = m) :
    Nearest (y / 2 ^ shift) ((m / 2 ^ shift + (m / 2 ^ (shift - 1) % 2 != 0 &&
      (!(tz && m % 2 ^ (shift - 1) == 0) || m / 2 ^ shift % 2 != 0)).toNat : ℕ) : ℤ) := by
  obtain ⟨s,rfl⟩ : ∃ s, shift = s + 1 := ⟨shift - 1,by omega⟩
  have hpow : (0 : ℚ) < 2 ^ s := by positivity
  have hquot : m / 2 ^ (s + 1) = m / 2 ^ s / 2 := by rw [pow_succ,Nat.div_div_eq_div_mul]
  have hsplit := Nat.div_add_mod m (2 ^ s)
  have hmod := Nat.mod_lt m (Nat.two_pow_pos s)
  have hcast : (2 : ℚ) ^ s * (m / 2 ^ s : ℕ) + (m % 2 ^ s : ℕ) = m := by exact_mod_cast hsplit
  have hrest : ((m % 2 ^ s : ℕ) : ℚ) + 1 ≤ 2 ^ s := by exact_mod_cast hmod
  have hnonneg : (0 : ℚ) ≤ (m % 2 ^ s : ℕ) := Nat.cast_nonneg _
  rw [Nat.add_sub_cancel,hquot,pow_succ,← div_div]
  have hwlow : ((m / 2 ^ s : ℕ) : ℚ) ≤ y / 2 ^ s := by
    rw [le_div_iff₀ hpow]
    linarith
  have hwhigh : y / 2 ^ s < (m / 2 ^ s : ℕ) + 1 := by
    rw [div_lt_iff₀ hpow]
    linarith
  have hwexact : (tz && m % 2 ^ s == 0) = true ↔ y / 2 ^ s = (m / 2 ^ s : ℕ) := by
    rw [Bool.and_eq_true,beq_iff_eq,hexact,div_eq_iff hpow.ne']
    constructor
    · rintro ⟨hy,hzero⟩
      rw [hzero,Nat.cast_zero] at hcast
      linarith
    · intro hy
      have hsmall : ((m % 2 ^ s : ℕ) : ℚ) = 0 := by linarith
      exact ⟨by linarith,by exact_mod_cast hsmall⟩
  generalize y / 2 ^ s = x at *
  generalize m / 2 ^ s = h at *
  generalize (tz && m % 2 ^ s == 0) = t at *
  obtain ⟨q,hq⟩ : ∃ q, h / 2 = q := ⟨_,rfl⟩
  rw [hq]
  have hhalf := Nat.div_add_mod h 2
  rw [hq] at hhalf
  rcases Nat.mod_two_eq_zero_or_one h with hbit | hbit
  · have hh : (h : ℚ) = 2 * q := by
      rw [hbit] at hhalf
      exact_mod_cast hhalf.symm
    refine nearest_of_lt ?_
    rw [hbit,abs_lt]
    push_cast
    constructor <;> simp <;> linarith
  · have hh : (h : ℚ) = 2 * q + 1 := by
      rw [hbit] at hhalf
      exact_mod_cast hhalf.symm
    rw [hbit]
    cases t with
    | false =>
      have hne : x ≠ h := fun heq => absurd (hwexact.mpr heq) Bool.false_ne_true
      have hgt : (h : ℚ) < x := lt_of_le_of_ne hwlow hne.symm
      refine nearest_of_lt ?_
      rw [abs_lt]
      simp
      constructor <;> linarith
    | true =>
      have heq : x = h := hwexact.mp rfl
      rcases Nat.mod_two_eq_zero_or_one q with heven | hodd
      · refine nearest_of_tie ?_ ?_
        · rw [heven,heq,hh]
          simp
          rw [show (2 * (q : ℚ) + 1) / 2 - q = 1 / 2 by ring]
          norm_num
        · have hstay : Even ((q : ℕ) : ℤ) := by
            rw [Int.even_iff]
            omega
          simpa [heven] using hstay
      · refine nearest_of_tie ?_ ?_
        · rw [hodd,heq,hh]
          simp
          rw [show (2 * (q : ℚ) + 1) / 2 - (q + 1) = -(1 / 2) by ring]
          norm_num
        · have hup : Even ((q + 1 : ℕ) : ℤ) := by
            rw [Int.even_iff]
            omega
          simpa [hodd] using hup

theorem or_field {hi lo k : Nat} (h : lo < 2 ^ k) : hi * 2 ^ k ||| lo = hi * 2 ^ k + lo := by
  rw [← Nat.shiftLeft_eq,Nat.shiftLeft_add_eq_or_of_lt h]

theorem fields_pack (f : Format) {e : ℤ} {q : Nat} {up : Bool} (hmax : e ≤ f.emax)
    (hlow : f.hidden ≤ q ∨ e = f.emin) (hhigh : q < 2 * f.hidden) (biased : Nat)
    (hbiased : (biased : ℤ) = if q < f.hidden then 0 else e + f.emax) :
    (if (q + up.toNat) % f.hidden = 0 ∧ up = true then biased + 1 else biased) * f.hidden + (q + up.toNat) % f.hidden =
      if q + up.toNat = 2 * f.hidden then (if f.emax + 1 ≤ e + 1 then f.inf else f.pack (e + 1) f.hidden)
      else if f.emax + 1 ≤ e then f.inf else f.pack e (q + up.toNat) := by
  have hpos := f.hidden_pos
  have hmin : f.emin = 1 - f.emax := rfl
  have hpack : ∀ (e : ℤ) (b n : Nat), f.hidden ≤ n → (b : ℤ) = e + f.emax → f.pack e n = b * f.hidden + (n - f.hidden) := by
    intro e b n hn hb
    rw [Format.pack,if_neg (not_lt.mpr hn),← hb,Int.toNat_natCast]
  have hinf : ∀ b : Nat, (b : ℤ) = 2 * f.emax + 1 → f.inf = b * f.hidden := by
    intro b hb
    have hb' : b = 2 * f.emax + 1 := by exact_mod_cast hb
    rw [hb']
    rfl
  have hle : up.toNat ≤ 1 := Bool.toNat_le up
  have hup : up = true ↔ up.toNat = 1 := by cases up <;> simp
  simp only [hup]
  generalize up.toNat = u at *
  generalize hH : f.hidden = H at *
  by_cases hsub : q < H
  · have hzero : biased = 0 := by
      rw [if_pos hsub] at hbiased
      exact_mod_cast hbiased
    have hemin : e = f.emin := hlow.resolve_left (not_le.mpr hsub)
    rw [if_neg (show ¬q + u = 2 * H by omega),if_neg (show ¬(f.emax : ℤ) + 1 ≤ e by have := f.ranged; omega)]
    by_cases hcarry : q + u = H
    · rw [hcarry,Nat.mod_self,if_pos ⟨rfl,by omega⟩,hpack e (biased + 1) H le_rfl (by push_cast; omega)]
      omega
    · have hlt : q + u < H := by omega
      rw [Nat.mod_eq_of_lt hlt,if_neg (by omega),hzero,Format.pack,hH,if_pos hlt]
      omega
  · rw [if_neg hsub] at hbiased
    by_cases hcarry : q + u = 2 * H
    · rw [if_pos hcarry,hcarry,Nat.mul_mod_left,if_pos ⟨rfl,by omega⟩]
      split_ifs with htop
      · rw [hinf (biased + 1) (by push_cast; omega)]
        rfl
      · rw [hpack (e + 1) (biased + 1) H le_rfl (by push_cast; omega)]
        omega
    · have hrest : (q + u) % H = q + u - H := by
        rw [Nat.mod_eq_sub_mod (by omega),Nat.mod_eq_of_lt (by omega)]
      rw [if_neg hcarry,if_neg (by omega),hrest,if_neg (by omega),hpack e biased (q + u) (by omega) hbiased]

theorem quotient_range (f : Format) {m L shift : Nat} (hlower : 2 ^ L ≤ m) (hupper : m < 2 ^ (L + 1)) :
    (L + 1 = shift + f.prec → f.hidden ≤ m / 2 ^ shift) ∧ (L + 1 ≤ shift + f.prec → m / 2 ^ shift < 2 * f.hidden) ∧
      (L + 2 ≤ shift + f.prec → m / 2 ^ shift < f.hidden) := by
  have hwide := f.wide
  rw [f.two_hidden,Format.hidden]
  refine ⟨fun h => ?_,fun h => ?_,fun h => ?_⟩
  · rw [Nat.le_div_iff_mul_le (Nat.two_pow_pos _),← pow_add]
    exact (Nat.pow_le_pow_right two_pos (by omega)).trans hlower
  · rw [Nat.div_lt_iff_lt_mul (Nat.two_pow_pos _),← pow_add]
    exact hupper.trans_le (Nat.pow_le_pow_right two_pos (by omega))
  · rw [Nat.div_lt_iff_lt_mul (Nat.two_pow_pos _),← pow_add]
    exact hupper.trans_le (Nat.pow_le_pow_right two_pos (by omega))

theorem floors_binade {f : Format} {v : ℚ} {r : Binary} (h : Floors f.prec v r) :
    f.Binade v (max (r.e2 + r.m2.log2) f.emin) := by
  have hne : r.m2 ≠ 0 := (lt_of_lt_of_le (Nat.two_pow_pos _) h.wide).ne'
  have hscale : (0 : ℚ) < 2 ^ r.e2 := by positivity
  have hpower : ∀ k : ℕ, (2 : ℚ) ^ (r.e2 + k) = 2 ^ k * 2 ^ r.e2 := fun k => by
    rw [zpow_add₀ two_ne_zero,zpow_natCast,mul_comm]
  have hhigh : v < 2 ^ (r.e2 + r.m2.log2 + 1) := by
    have hnat : r.m2 + 1 ≤ 2 ^ (r.m2.log2 + 1) := Nat.lt_log2_self
    have hcast : (r.m2 : ℚ) + 1 ≤ 2 ^ (r.m2.log2 + 1) := by exact_mod_cast hnat
    have hle := mul_le_mul_of_nonneg_right hcast hscale.le
    rw [← hpower] at hle
    push_cast at hle
    rw [add_assoc]
    exact h.high.trans_le hle
  refine ⟨le_max_right _ _,?_,hhigh.trans_le (zpow_le_zpow_right₀ one_le_two (by omega))⟩
  rcases le_total (r.e2 + r.m2.log2) f.emin with hsmall | hlarge
  · exact .inr (max_eq_right hsmall)
  · left
    have hcast : (2 : ℚ) ^ r.m2.log2 ≤ r.m2 := by exact_mod_cast Nat.log2_self_le hne
    rw [max_eq_left hlarge,hpower]
    exact (mul_le_mul_of_nonneg_right hcast hscale.le).trans h.low

theorem Width.finish_rounds (w : Width) {v : ℚ} {r : Binary} (h : Floors w.format.prec v r) :
    w.format.Rounds v (w.finish r) := by
  have hwide := w.format.wide
  have hmin : w.format.emin = 1 - w.format.emax := rfl
  have hbin := floors_binade h
  have hne : r.m2 ≠ 0 := (lt_of_lt_of_le (Nat.two_pow_pos _) h.wide).ne'
  have hlower : 2 ^ r.m2.log2 ≤ r.m2 := Nat.log2_self_le hne
  have hupper : r.m2 < 2 ^ (r.m2.log2 + 1) := Nat.lt_log2_self
  have hprec : w.format.prec < r.m2.log2 + 1 :=
    (Nat.pow_lt_pow_iff_right (by decide : 1 < 2)).mp (h.wide.trans_lt hupper)
  have hscale : (2 : ℚ) ^ r.e2 ≠ 0 := by positivity
  obtain ⟨b,hb⟩ : ∃ b, (max 0 (r.e2 + w.format.emax + r.m2.log2)).toNat = b := ⟨_,rfl⟩
  obtain ⟨e,he⟩ : ∃ e, max (r.e2 + r.m2.log2) w.format.emin = e := ⟨_,rfl⟩
  obtain ⟨shift,hshift⟩ : ∃ shift : ℕ,
    ((if b = 0 then 1 else b : ℕ) - r.e2 - w.format.emax - (w.format.prec - 1 : ℕ)).toNat = shift := ⟨_,rfl⟩
  have hexp : ((if b = 0 then 1 else b : ℕ) : ℤ) = e + w.format.emax := by
    split_ifs <;> omega
  have hgap : e - (w.format.prec - 1 : ℕ) = r.e2 + shift := by
    rw [hexp] at hshift
    omega
  have hulp : w.format.ulp e = 2 ^ r.e2 * 2 ^ shift := by
    rw [Format.ulp,hgap,zpow_add₀ two_ne_zero,zpow_natCast]
  have hquot : v / w.format.ulp e = v / 2 ^ r.e2 / 2 ^ shift := by rw [hulp,div_div]
  have hpos : (0 : ℚ) < 2 ^ r.e2 := by positivity
  have hnear := half_even (y := v / 2 ^ r.e2) (show 0 < shift by omega) ((le_div_iff₀ hpos).mpr h.low)
    ((div_lt_iff₀ hpos).mpr h.high) (h.exact.trans (div_eq_iff hscale).symm)
  rw [← hquot] at hnear
  rw [he] at hbin
  obtain ⟨hnormal,hbelow,hsub⟩ := @quotient_range w.format _ _ shift hlower hupper
  have hrounds := Format.binade_rounds hbin hnear
  unfold Width.finish
  rw [hb]
  dsimp only
  rw [hshift]
  by_cases hover : 2 * w.format.emax < b
  · have hlarge : (w.format.emax : ℤ) + 1 ≤ e := by
      rw [if_neg (by omega)] at hexp
      omega
    have hnext : (w.format.emax : ℤ) + 1 ≤ e + 1 := by omega
    rw [if_pos hlarge,if_pos hnext,ite_self] at hrounds
    rw [if_pos hover]
    exact hrounds
  · have hmax : e ≤ w.format.emax := by
      have := w.format.ranged
      split_ifs at hexp <;> omega
    have hlow : w.format.hidden ≤ r.m2 / 2 ^ shift ∨ e = w.format.emin := by
      by_cases hzero : r.e2 + r.m2.log2 ≤ w.format.emin
      · exact .inr (by omega)
      · exact .inl (hnormal (by omega))
    have hbiased : (b : ℤ) = if r.m2 / 2 ^ shift < w.format.hidden then 0 else e + w.format.emax := by
      by_cases hzero : b = 0
      · rw [if_pos (hsub (by omega)),hzero]
        rfl
      · rw [if_neg (not_lt.mpr (hnormal (by omega)))]
        rw [if_neg hzero] at hexp
        exact hexp
    rw [if_neg hover,or_field (Nat.mod_lt _ (Nat.two_pow_pos _)),← Format.hidden,
      fields_pack w.format hmax hlow (hbelow (by omega)) b hbiased]
    exact hrounds

theorem atod_rounds {m : Nat} {e : ℤ} (hm : 0 < m) (hk : m < 10 ^ 17) (hlow : -341 ≤ e) (hhigh : e < 309) :
    binary64.Rounds (m * 10 ^ e) (atodEngine m e) := by
  have hk' : m < 2 ^ 57 := hk.trans (by decide)
  have hwide := (widened_range hm hk').2.1
  unfold atodEngine
  split_ifs with hsign
  · obtain ⟨n,rfl⟩ := Int.eq_ofNat_of_zero_le hsign
    obtain ⟨hfloor,hceil⟩ := log2pow5_floor n (by omega)
    rw [Int.toNat_natCast,zpow_natCast]
    refine atod.finish_rounds (Width.up_floors atod_sized hm hk' hfloor (Width.up_eq atod_sized hm hk' hceil ?_))
    exact Mediants.floor_eq_of_apart (double_powers n (by omega)) (Nat.two_pow_pos _) (Nat.two_pow_pos _) hwide
  · obtain ⟨n,rfl⟩ : ∃ n : ℕ, e = -((n + 1 : ℕ) : ℤ) := ⟨(-e).toNat - 1,by omega⟩
    obtain ⟨hfloor,hceil⟩ := log2pow5_floor (n + 1) (by omega)
    rw [neg_neg,Int.toNat_natCast]
    have hfive : 0 < 5 ^ (n + 1) * 4 := Nat.mul_pos (by positivity) (by decide)
    have hm2 := Width.down_eq atod_sized hm hk' hfloor (multipleOfPowerOf5 m (n + 1)) (Eq.symm
      (Mediants.floor_eq_of_apart (double_inverses n (by omega)) hfive (Nat.two_pow_pos _) hwide))
    have hexact : multipleOfPowerOf5 m (n + 1) = true ↔
        (atod.downExp m (n + 1) + (n + 1 : ℕ) < 0 ∨ 2 ^ (atod.downExp m (n + 1) + (n + 1 : ℕ)).toNat ∣ m) ∧ 5 ^ (n + 1) ∣ m := by
      -- ten has a factor two of its own: behind the point the scaled significand keeps no bit below 2 ^ e10
      have hlog := (widened_range hm hk').2.2
      have hsmall : (atod.downExp m (n + 1) + (n + 1 : ℕ)).toNat = 0 := by
        have htwo : 2 ≤ log2pow5 (n + 1) := by
          have hlt := (Nat.pow_lt_pow_iff_right (by decide : 1 < 2)).mp
            ((show 2 ^ 2 < 5 ^ (n + 1) by
              calc 2 ^ 2 < 5 ^ 1 := by decide
                _ ≤ 5 ^ (n + 1) := Nat.pow_le_pow_right (by decide) (by omega)).trans hceil)
          omega
        have hprec : atod.format.prec = 53 := rfl
        rw [Width.downExp,ceilLog2pow5,hprec]
        omega
      rw [multipleOfPowerOf5_iff hm (hk.trans (by decide)),hsmall,pow_zero]
      simp
    have hdown : atod.down (multipleOfPowerOf5 m (n + 1)) m (n + 1) = ⟨_,atod.downExp m (n + 1),multipleOfPowerOf5 m (n + 1)⟩ :=
      congrArg (fun m2 => Binary.mk m2 _ _) hm2
    rw [hdown]
    exact atod.finish_rounds (Width.down_floors atod_sized hm hk' hceil hexact)

theorem float_inverses_aside {i n : Nat} (hi : i = 25 ∨ i = 26) (hn : n < 2 ^ 30) (hne : n ≠ 614426533) :
    n * atof.invPow5 i / 2 ^ 65 = n * 2 ^ log2pow5 i / (5 ^ i * 16) := by
  have hsmall : n < 2 * 614426533 := hn.trans (by decide)
  rcases hi with rfl | rfl
  · refine (Mediants.floor_eq_aside (a := 41358803) (b := 684224000) (t := 37139805) (c := 32920807) (d := 544629066) (by decide)
      (by decide) ?_ ?_ (by positivity) (Nat.two_pow_pos _) ?_ (hn.trans (by decide)) (hn.trans (by decide)) hsmall hne).symm
    all_goals decide
  · refine (Mediants.floor_eq_aside (a := 41358803) (b := 855280000) (t := 29711844) (c := 47776729) (d := 987999599) (by decide)
      (by decide) ?_ ?_ (by positivity) (Nat.two_pow_pos _) ?_ (hn.trans (by decide)) (hn.trans (by decide)) hsmall hne).symm
    all_goals decide

-- the one significand whose product with the rounded-up inverse crosses an integer: its last bits are rounded away
theorem aside_finish {i : Nat} (hi : i = 25 ∨ i = 26) : atof.finish (atof.down false 614426533 i) =
    atof.finish ⟨614426533 * 2 ^ log2pow5 i / (5 ^ i * 16),atof.downExp 614426533 i,false⟩ := by
  rcases hi with rfl | rfl <;> decide

theorem widened_odd {k m n : Nat} (hodd : n % 2 = 1) (h : widened k m = n) : m = n := by
  rw [widened] at h
  cases hshift : k - 1 - m.log2 with
  | zero => rwa [hshift,pow_zero,mul_one] at h
  | succ s =>
    have heven : 2 ∣ n := ⟨m * 2 ^ s,by rw [← h,hshift,pow_succ']; ring⟩
    omega

theorem atof_rounds {m : Nat} {e : ℤ} (hm : 0 < m) (hk : m < 10 ^ 9) (hlow : -54 ≤ e) (hhigh : e < 40) :
    binary32.Rounds (m * 10 ^ e) (atofEngine m e) := by
  have hk' : m < 2 ^ 30 := hk.trans (by decide)
  have hwide := (widened_range hm hk').2.1
  unfold atofEngine
  split_ifs with hsign
  · obtain ⟨n,rfl⟩ := Int.eq_ofNat_of_zero_le hsign
    obtain ⟨hfloor,hceil⟩ := log2pow5_floor n (by omega)
    rw [Int.toNat_natCast,zpow_natCast]
    refine atof.finish_rounds (Width.up_floors atof_sized hm hk' hfloor (Width.up_eq atof_sized hm hk' hceil ?_))
    exact Mediants.floor_eq_of_apart (float_powers n (by omega)) (Nat.two_pow_pos _) (Nat.two_pow_pos _) hwide
  · obtain ⟨n,rfl⟩ : ∃ n : ℕ, e = -((n + 1 : ℕ) : ℤ) := ⟨(-e).toNat - 1,by omega⟩
    obtain ⟨hfloor,hceil⟩ := log2pow5_floor (n + 1) (by omega)
    rw [neg_neg,Int.toNat_natCast,sub_neg_eq_add]
    obtain ⟨tz,htz⟩ : ∃ tz : Bool, ((decide (atof.downExp m (n + 1) < -((n + 1 : ℕ) : ℤ)) ||
        (decide (atof.downExp m (n + 1) + (n + 1 : ℕ) < atof.word) &&
          multipleOfPowerOf2 m (atof.downExp m (n + 1) + (n + 1 : ℕ)).toNat)) && multipleOfPowerOf5_32 m (n + 1)) = tz :=
      ⟨_,rfl⟩
    have hexact : tz = true ↔
        (atof.downExp m (n + 1) + (n + 1 : ℕ) < 0 ∨ 2 ^ (atof.downExp m (n + 1) + (n + 1 : ℕ)).toNat ∣ m) ∧ 5 ^ (n + 1) ∣ m := by
      have hlog := (widened_range hm hk').2.2
      have hword : atof.downExp m (n + 1) + (n + 1 : ℕ) < atof.word := by
        have hprec : atof.format.prec = 24 := rfl
        have hbits : atof.word = 32 := rfl
        rw [Width.downExp,ceilLog2pow5,hprec,hbits]
        omega
      have hneg : atof.downExp m (n + 1) < -((n + 1 : ℕ) : ℤ) ↔ atof.downExp m (n + 1) + (n + 1 : ℕ) < 0 := by omega
      rw [← htz,Bool.and_eq_true,Bool.or_eq_true,Bool.and_eq_true,decide_eq_true_iff,decide_eq_true_iff,
        multipleOfPowerOf2_iff,multipleOfPowerOf5_32_iff hm,hneg,and_iff_right hword]
    have hfive : 0 < 5 ^ (n + 1) * 16 := Nat.mul_pos (by positivity) (by decide)
    have hrounds := atof.finish_rounds (Width.down_floors atof_sized hm hk' hceil hexact)
    rw [htz]
    by_cases haside : (n + 1 = 25 ∨ n + 1 = 26) ∧ m = 614426533
    · obtain ⟨hi,rfl⟩ := haside
      have hself : widened 30 614426533 = 614426533 := by decide
      have hoff : tz = false := by
        refine Bool.eq_false_iff.mpr fun htrue => ?_
        have hdvd := (Dvd.intro_left (5 ^ n) rfl : 5 ∣ 5 ^ n * 5).trans (hexact.mp htrue).2
        omega
      rw [hself,hoff] at hrounds
      rw [hoff,aside_finish hi]
      exact hrounds
    · have hm2 := Width.down_eq atof_sized hm hk' hfloor tz (by
        by_cases hi : n + 1 = 25 ∨ n + 1 = 26
        · exact float_inverses_aside hi hwide fun heq => haside ⟨hi,widened_odd (by decide) heq⟩
        · exact Eq.symm (Mediants.floor_eq_of_apart (float_inverses n (by omega) (by omega) (by omega)) hfive
            (Nat.two_pow_pos _) hwide))
      have hdown : atof.down tz m (n + 1) = ⟨_,atof.downExp m (n + 1),tz⟩ := congrArg (fun m2 => Binary.mk m2 _ _) hm2
      rw [hdown]
      exact hrounds

end Scanf
