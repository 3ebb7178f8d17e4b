import Mathlib
import Picolibc.Lib.BinaryRounding
import Picolibc.Scanf.HexAssembly
import Picolibc.Scanf.RyuTable

open BinaryFormat HalfEven

namespace Scanf

def mulShift (word m factor j : Nat) : Nat :=
  (m * (factor % 2 ^ word) / 2 ^ word + m * (factor / 2 ^ word)) / 2 ^ (j - word) % 2 ^ word

def multipleOfPowerOf2 (value p : Nat) : Bool := value &&& (2 ^ p - 1) == 0

def pow5Factor : Nat → Nat → Nat
  | 0, _ => 0
  | fuel + 1, value =>
    let value := value * 14757395258967641293 % 2 ^ 64
    if 3689348814741910323 < value then 0 else pow5Factor fuel value + 1

def pow5factor32 : Nat → Nat → Nat
  | 0, _ => 0
  | fuel + 1, value => if value % 5 ≠ 0 then 0 else pow5factor32 fuel (value / 5) + 1

def multipleOfPowerOf5 (value p : Nat) : Bool := p ≤ pow5Factor value value

def multipleOfPowerOf5_32 (value p : Nat) : Bool := p ≤ pow5factor32 value value

structure Binary where
  m2 : Nat
  e2 : ℤ
  trailingZeros : Bool

structure Width where
  format : Format
  word : Nat
  bitcount : Nat
  pow5 : Nat → Nat
  invPow5 : Nat → Nat

def atod : Width := ⟨binary64,64,125,doubleComputePow5,doubleComputeInvPow5⟩

def atof : Width := ⟨binary32,32,61,fun i => doubleComputePow5 i / 2 ^ 64,fun i => doubleComputeInvPow5 i / 2 ^ 64 + 1⟩

namespace Width

variable (w : Width)

def upExp (m10 e10 : Nat) : ℤ := m10.log2 + e10 + log2pow5 e10 - w.format.prec

def up (m10 e10 : Nat) : Binary where
  m2 := mulShift w.word m10 (w.pow5 e10) (w.upExp m10 e10 - e10 - ceilLog2pow5 e10 + w.bitcount).toNat
  e2 := w.upExp m10 e10
  trailingZeros := w.upExp m10 e10 < e10 ||
    (w.upExp m10 e10 - e10 < w.word && multipleOfPowerOf2 m10 (w.upExp m10 e10 - e10).toNat)

def downExp (m10 i : Nat) : ℤ := m10.log2 - i - ceilLog2pow5 i - w.format.prec

def down (trailingZeros : Bool) (m10 i : Nat) : Binary where
  m2 := mulShift w.word m10 (w.invPow5 i) (w.downExp m10 i + i + ceilLog2pow5 i - 1 + w.bitcount).toNat
  e2 := w.downExp m10 i
  trailingZeros := trailingZeros

def finish (r : Binary) : Nat :=
  let ieeeE2 := (max 0 (r.e2 + w.format.emax + r.m2.log2)).toNat
  if 2 * w.format.emax < ieeeE2 then (2 * w.format.emax + 1) * 2 ^ (w.format.prec - 1)
  else
    let shift := ((if ieeeE2 = 0 then 1 else ieeeE2 : ℕ) - r.e2 - w.format.emax - (w.format.prec - 1 : ℕ)).toNat
    let trailingZeros := r.trailingZeros && r.m2 % 2 ^ (shift - 1) == 0
    let lastRemovedBit := r.m2 / 2 ^ (shift - 1) % 2
    let roundUp := lastRemovedBit != 0 && (!trailingZeros || r.m2 / 2 ^ shift % 2 != 0)
    let ieeeM2 := (r.m2 / 2 ^ shift + roundUp.toNat) % 2 ^ (w.format.prec - 1)
    let ieeeE2 := if ieeeM2 = 0 ∧ roundUp = true then ieeeE2 + 1 else ieeeE2
    ieeeE2 * 2 ^ (w.format.prec - 1) ||| ieeeM2

end Width

def atodEngine (m10 : Nat) (e10 : ℤ) : Nat :=
  atod.finish (if 0 ≤ e10 then atod.up m10 e10.toNat
    else atod.down (multipleOfPowerOf5 m10 (-e10).toNat) m10 (-e10).toNat)

def atofEngine (m10 : Nat) (e10 : ℤ) : Nat :=
  atof.finish (if 0 ≤ e10 then atof.up m10 e10.toNat
    else atof.down ((atof.downExp m10 (-e10).toNat < e10 || (atof.downExp m10 (-e10).toNat - e10 < atof.word &&
        multipleOfPowerOf2 m10 (atof.downExp m10 (-e10).toNat - e10).toNat)) && multipleOfPowerOf5_32 m10 (-e10).toNat)
      m10 (-e10).toNat)

theorem mulShift_eq (word m factor : Nat) {j : Nat} (hj : word ≤ j) :
    mulShift word m factor j = m * factor / 2 ^ j % 2 ^ word := by
  have hsplit : m * (factor % 2 ^ word) / 2 ^ word + m * (factor / 2 ^ word) = m * factor / 2 ^ word := by
    rw [← Nat.add_mul_div_left _ _ (Nat.two_pow_pos word)]
    congr 1
    calc m * (factor % 2 ^ word) + 2 ^ word * (m * (factor / 2 ^ word))
        = m * (factor % 2 ^ word + 2 ^ word * (factor / 2 ^ word)) := by ring
      _ = m * factor := by rw [Nat.mod_add_div]
  rw [mulShift,hsplit,Nat.div_div_eq_div_mul,← pow_add,Nat.add_sub_cancel' hj]

theorem multipleOfPowerOf2_iff (value p : Nat) : multipleOfPowerOf2 value p = true ↔ 2 ^ p ∣ value := by
  rw [multipleOfPowerOf2,beq_iff_eq,Nat.and_two_pow_sub_one_eq_mod,Nat.dvd_iff_mod_eq_zero]

theorem pow5factor32_iff {fuel value p : Nat} (hfuel : value ≤ fuel) (hpos : 0 < value) :
    p ≤ pow5factor32 fuel value ↔ 5 ^ p ∣ value := by
  induction fuel generalizing value p with
  | zero => omega
  | succ fuel ih =>
    cases p with
    | zero => simp
    | succ p =>
      rw [pow5factor32]
      split_ifs with hfive
      · refine ⟨fun h => absurd h (Nat.not_succ_le_zero p),fun h => absurd ?_ hfive⟩
        exact Nat.mod_eq_zero_of_dvd ((Dvd.intro_left (5 ^ p) rfl).trans h)
      · obtain ⟨q,rfl⟩ : 5 ∣ value := Nat.dvd_of_mod_eq_zero (not_not.mp hfive)
        rw [Nat.mul_div_cancel_left q (by decide),Nat.succ_le_succ_iff,ih (by omega) (by omega),pow_succ',
          Nat.mul_dvd_mul_iff_left (by decide)]

theorem fifth (value : Nat) (h : value < 2 ^ 64) :
    (value % 5 = 0 → value * 14757395258967641293 % 2 ^ 64 = value / 5) ∧
      (value * 14757395258967641293 % 2 ^ 64 ≤ 3689348814741910323 → value % 5 = 0) := by
  have hsplit := Nat.div_add_mod (value * 14757395258967641293) (2 ^ 64)
  have hlt : value * 14757395258967641293 % 2 ^ 64 < 2 ^ 64 := Nat.mod_lt _ (by decide)
  generalize value * 14757395258967641293 % 2 ^ 64 = r at *
  generalize value * 14757395258967641293 / 2 ^ 64 = q at *
  -- five times the inverse is one more than four times 2 ^ 64
  obtain ⟨t,ht⟩ : ∃ t : ℤ, t = 4 * value - 5 * q := ⟨_,rfl⟩
  have hfive : (5 * r : ℤ) = value + 2 ^ 64 * t := by
    rw [ht]
    omega
  constructor
  · intro hdvd
    omega
  · intro hle
    have hzero : t = 0 := by omega
    omega

theorem pow5Factor_eq {fuel value : Nat} (h : value < 2 ^ 64) : pow5Factor fuel value = pow5factor32 fuel value := by
  induction fuel generalizing value with
  | zero => rfl
  | succ fuel ih =>
    obtain ⟨hquot,hdvd⟩ := fifth value h
    rw [pow5Factor,pow5factor32]
    by_cases hfive : value % 5 = 0
    · have hle : value / 5 ≤ 3689348814741910323 := by omega
      rw [hquot hfive,if_neg (not_lt.mpr hle),if_neg (not_not.mpr hfive),ih (by omega)]
    · rw [if_pos (not_le.mp fun hle => hfive (hdvd hle)),if_pos hfive]

theorem multipleOfPowerOf5_iff {value : Nat} (hpos : 0 < value) (h : value < 2 ^ 64) (p : Nat) :
    multipleOfPowerOf5 value p = true ↔ 5 ^ p ∣ value := by
  rw [multipleOfPowerOf5,decide_eq_true_iff,pow5Factor_eq h,pow5factor32_iff le_rfl hpos]

theorem multipleOfPowerOf5_32_iff {value : Nat} (hpos : 0 < value) (p : Nat) :
    multipleOfPowerOf5_32 value p = true ↔ 5 ^ p ∣ value := by
  rw [multipleOfPowerOf5_32,decide_eq_true_iff,pow5factor32_iff le_rfl hpos]

structure Floors (prec : Nat) (v : ℚ) (r : Binary) : Prop where
  low : (r.m2 : ℚ) * 2 ^ r.e2 ≤ v
  high : v < (r.m2 + 1) * 2 ^ r.e2
  exact : r.trailingZeros = true ↔ v = r.m2 * 2 ^ r.e2
  wide : 2 ^ prec ≤ r.m2

theorem floors_of_div {prec : Nat} {v : ℚ} {x D : Nat} {e2 : ℤ} {tz : Bool} (hD : 0 < D) (hv : v * D = x * 2 ^ e2)
    (hexact : tz = true ↔ D ∣ x) (hwide : 2 ^ prec * D ≤ x) : Floors prec v ⟨x / D,e2,tz⟩ := by
  have hpos : (0 : ℚ) < D := by exact_mod_cast hD
  have hscale : (0 : ℚ) < 2 ^ e2 := by positivity
  have hlow : ((x / D : ℕ) : ℚ) * D ≤ x := by exact_mod_cast Nat.div_mul_le_self x D
  have hhigh : (x : ℚ) < ((x / D : ℕ) + 1) * D := by exact_mod_cast (Nat.div_lt_iff_lt_mul hD).mp (Nat.lt_succ_self _)
  refine ⟨?_,?_,hexact.trans ⟨fun hdvd => ?_,fun heq => ?_⟩,(Nat.le_div_iff_mul_le hD).mpr hwide⟩
  · refine le_of_mul_le_mul_right ?_ hpos
    rw [hv,mul_right_comm]
    exact mul_le_mul_of_nonneg_right hlow hscale.le
  · refine lt_of_mul_lt_mul_right ?_ hpos.le
    rw [hv,mul_right_comm]
    exact mul_lt_mul_of_pos_right hhigh hscale
  · have hfull : ((x / D : ℕ) : ℚ) * D = x := by exact_mod_cast Nat.div_mul_cancel hdvd
    refine mul_right_cancel₀ hpos.ne' ?_
    rw [hv,mul_right_comm,hfull]
  · have hfull : ((x / D : ℕ) : ℚ) * D = x := by
      refine mul_right_cancel₀ hscale.ne' ?_
      rw [← hv,heq,mul_right_comm]
    exact ⟨x / D,by rw [mul_comm]; exact_mod_cast hfull.symm⟩

theorem two_part {m s a : Nat} {z : ℤ} (h : (a : ℤ) = z + s) : 2 ^ a ∣ m * 2 ^ s ↔ z < 0 ∨ 2 ^ z.toNat ∣ m := by
  by_cases hz : z < 0
  · have hle : a ≤ s := by omega
    exact ⟨fun _ => .inl hz,fun _ => (pow_dvd_pow 2 hle).mul_left m⟩
  · have hsum : a = z.toNat + s := by omega
    rw [hsum,pow_add,Nat.mul_dvd_mul_iff_right (Nat.two_pow_pos s),or_iff_right hz]

structure Sized (w : Width) (k : Nat) : Prop where
  prec : w.format.prec + 2 ≤ k
  word : w.word + w.format.prec + 1 ≤ w.bitcount
  room : w.format.prec + 2 ≤ w.word
  fits : k ≤ w.word

def widened (k m : Nat) : Nat := m * 2 ^ (k - 1 - m.log2)

section

variable {w : Width} {k m : Nat}

theorem widened_range (hm : 0 < m) (hk : m < 2 ^ k) :
    2 ^ (k - 1) ≤ widened k m ∧ widened k m < 2 ^ k ∧ m.log2 + 1 ≤ k := by
  have hlog : m.log2 < k := (Nat.log2_lt hm.ne').mpr hk
  refine ⟨?_,?_,hlog⟩
  · calc 2 ^ (k - 1) = 2 ^ m.log2 * 2 ^ (k - 1 - m.log2) := by rw [← pow_add]; congr 1; omega
      _ ≤ widened k m := Nat.mul_le_mul_right _ (Nat.log2_self_le hm.ne')
  · calc widened k m < 2 ^ (m.log2 + 1) * 2 ^ (k - 1 - m.log2) :=
          Nat.mul_lt_mul_of_pos_right Nat.lt_log2_self (Nat.two_pow_pos _)
      _ = 2 ^ k := by rw [← pow_add]; congr 1; omega

theorem mulShift_floor (hs : Sized w k) (hm : 0 < m) (hk : m < 2 ^ k) {f x j : Nat} (hx : x < 2 ^ w.word)
    (hj : j + w.format.prec + 1 = m.log2 + w.bitcount)
    (hfloor : widened k m * f / 2 ^ (w.bitcount + k - w.format.prec - 2) = x) : mulShift w.word m f j = x := by
  have hlog := (widened_range hm hk).2.2
  have hword := hs.word
  have hshift : w.bitcount + k - w.format.prec - 2 = j + (k - 1 - m.log2) := by omega
  rw [hshift,pow_add,widened,Nat.mul_right_comm,Nat.mul_div_mul_right _ _ (Nat.two_pow_pos _)] at hfloor
  rw [mulShift_eq _ _ _ (by omega),hfloor,Nat.mod_eq_of_lt hx]

theorem Width.up_eq (hs : Sized w k) (hm : 0 < m) (hk : m < 2 ^ k) {e : Nat} (hpow : 5 ^ e < 2 ^ (log2pow5 e + 1))
    (hfloor : widened k m * w.pow5 e / 2 ^ (w.bitcount + k - w.format.prec - 2) =
      widened k m * 5 ^ e / 2 ^ (log2pow5 e + (k - w.format.prec - 1))) :
    (w.up m e).m2 = widened k m * 5 ^ e / 2 ^ (log2pow5 e + (k - w.format.prec - 1)) := by
  have hword := hs.word
  have hprec := hs.prec
  refine mulShift_floor hs hm hk ?_ ?_ hfloor
  · rw [Nat.div_lt_iff_lt_mul (Nat.two_pow_pos _)]
    calc widened k m * 5 ^ e < 2 ^ k * 2 ^ (log2pow5 e + 1) :=
          Nat.mul_lt_mul'' (widened_range hm hk).2.1 hpow
      _ ≤ 2 ^ w.word * 2 ^ (log2pow5 e + (k - w.format.prec - 1)) := by
          have hroom := hs.room
          rw [← pow_add,← pow_add]
          exact Nat.pow_le_pow_right two_pos (by omega)
  · rw [Width.upExp,ceilLog2pow5]
    omega

theorem Width.up_floors (hs : Sized w k) (hm : 0 < m) (hk : m < 2 ^ k) {e : Nat} (hpow : 2 ^ log2pow5 e ≤ 5 ^ e)
    (hm2 : (w.up m e).m2 = widened k m * 5 ^ e / 2 ^ (log2pow5 e + (k - w.format.prec - 1))) :
    Floors w.format.prec (m * 10 ^ e) (w.up m e) := by
  obtain ⟨hlow,-,hlog⟩ := widened_range hm hk
  have hprec := hs.prec
  have hfits := hs.fits
  have hup : w.up m e = ⟨widened k m * 5 ^ e / 2 ^ (log2pow5 e + (k - w.format.prec - 1)),w.upExp m e,
      (w.up m e).trailingZeros⟩ := by
    rw [← hm2]
    rfl
  rw [hup]
  refine floors_of_div (Nat.two_pow_pos _) ?_ ?_ ?_
  · have hexp : (e : ℤ) + (log2pow5 e + (k - w.format.prec - 1) : ℕ) = (k - 1 - m.log2 : ℕ) + w.upExp m e := by
      rw [Width.upExp]
      omega
    have hten : (10 : ℚ) ^ e = 5 ^ e * 2 ^ e := by rw [← mul_pow]; norm_num
    have htwo : (2 : ℚ) ^ e * 2 ^ (log2pow5 e + (k - w.format.prec - 1)) = 2 ^ (k - 1 - m.log2) * 2 ^ w.upExp m e := by
      rw [← zpow_natCast,← zpow_natCast,← zpow_natCast,← zpow_add₀ two_ne_zero,← zpow_add₀ two_ne_zero,hexp]
    rw [hten,widened]
    push_cast
    linear_combination (m : ℚ) * 5 ^ e * htwo
  · have hcop : Nat.Coprime (2 ^ (log2pow5 e + (k - w.format.prec - 1))) (5 ^ e) := Nat.Coprime.pow _ _ (by decide)
    have hz : ((log2pow5 e + (k - w.format.prec - 1) : ℕ) : ℤ) = (w.upExp m e - e) + (k - 1 - m.log2 : ℕ) := by
      rw [Width.upExp]
      omega
    have hlarge : ∀ p : Nat, 2 ^ p ∣ m → p < w.word := fun p hp => by
      have hle := (Nat.le_of_dvd hm hp).trans_lt hk
      exact ((Nat.pow_lt_pow_iff_right (by decide : 1 < 2)).mp hle).trans_le hfits
    rw [hcop.dvd_mul_right,widened,two_part hz,Width.up]
    simp only [Bool.or_eq_true,Bool.and_eq_true,decide_eq_true_iff,multipleOfPowerOf2_iff]
    have hneg : w.upExp m e < e ↔ w.upExp m e - e < 0 := by omega
    rw [hneg]
    refine or_congr_right ⟨And.right,fun hdvd => ⟨?_,hdvd⟩⟩
    have hlt := hlarge _ hdvd
    omega
  · calc 2 ^ w.format.prec * 2 ^ (log2pow5 e + (k - w.format.prec - 1)) = 2 ^ (k - 1) * 2 ^ log2pow5 e := by
          rw [← pow_add,← pow_add]
          congr 1
          omega
      _ ≤ widened k m * 5 ^ e := Nat.mul_le_mul hlow hpow

theorem Width.down_eq (hs : Sized w k) (hm : 0 < m) (hk : m < 2 ^ k) {i : Nat} (hpow : 2 ^ log2pow5 i ≤ 5 ^ i)
    (tz : Bool) (hfloor : widened k m * w.invPow5 i / 2 ^ (w.bitcount + k - w.format.prec - 2) =
      widened k m * 2 ^ log2pow5 i / (5 ^ i * 2 ^ (k - w.format.prec - 2))) :
    (w.down tz m i).m2 = widened k m * 2 ^ log2pow5 i / (5 ^ i * 2 ^ (k - w.format.prec - 2)) := by
  have hword := hs.word
  have hprec := hs.prec
  have hroom := hs.room
  refine mulShift_floor hs hm hk ?_ ?_ hfloor
  · have hscale : 0 < 2 ^ (k - w.format.prec - 2) := Nat.two_pow_pos _
    rw [Nat.div_lt_iff_lt_mul (Nat.mul_pos (by positivity) hscale)]
    calc widened k m * 2 ^ log2pow5 i < 2 ^ k * 2 ^ log2pow5 i :=
          Nat.mul_lt_mul_of_pos_right (widened_range hm hk).2.1 (Nat.two_pow_pos _)
      _ ≤ 2 ^ k * 5 ^ i := Nat.mul_le_mul_left _ hpow
      _ ≤ 2 ^ w.word * 2 ^ (k - w.format.prec - 2) * 5 ^ i := by
          rw [← pow_add]
          exact Nat.mul_le_mul_right _ (Nat.pow_le_pow_right two_pos (by omega))
      _ = 2 ^ w.word * (5 ^ i * 2 ^ (k - w.format.prec - 2)) := by ring
  · rw [Width.downExp,ceilLog2pow5]
    omega

theorem Width.down_floors (hs : Sized w k) (hm : 0 < m) (hk : m < 2 ^ k) {i : Nat} (hpow : 5 ^ i < 2 ^ (log2pow5 i + 1))
    {tz : Bool} (htz : tz = true ↔ (w.downExp m i + i < 0 ∨ 2 ^ (w.downExp m i + i).toNat ∣ m) ∧ 5 ^ i ∣ m) :
    Floors w.format.prec (m * 10 ^ (-i : ℤ))
      ⟨widened k m * 2 ^ log2pow5 i / (5 ^ i * 2 ^ (k - w.format.prec - 2)),w.downExp m i,tz⟩ := by
  obtain ⟨hlow,-,hlog⟩ := widened_range hm hk
  have hprec := hs.prec
  have hfive : (0 : ℚ) < 5 ^ i := by positivity
  refine floors_of_div (Nat.mul_pos (by positivity) (Nat.two_pow_pos _)) ?_ (htz.trans ?_) ?_
  · have hexp : -(i : ℤ) + (k - w.format.prec - 2 : ℕ) = (k - 1 - m.log2 : ℕ) + log2pow5 i + w.downExp m i := by
      rw [Width.downExp,ceilLog2pow5]
      omega
    have hten : (10 : ℚ) ^ (-i : ℤ) * 5 ^ i = 2 ^ (-i : ℤ) := by
      rw [show (10 : ℚ) = 5 * 2 by norm_num,mul_zpow,zpow_neg,zpow_natCast,mul_right_comm,inv_mul_cancel₀ hfive.ne',one_mul]
    have htwo : (2 : ℚ) ^ (-i : ℤ) * 2 ^ (k - w.format.prec - 2) =
        2 ^ (k - 1 - m.log2) * 2 ^ log2pow5 i * 2 ^ w.downExp m i := by
      rw [← zpow_natCast,← zpow_natCast,← zpow_natCast,← zpow_add₀ two_ne_zero,← zpow_add₀ two_ne_zero,
        ← zpow_add₀ two_ne_zero,hexp]
    rw [widened]
    push_cast
    linear_combination (m : ℚ) * 2 ^ (k - w.format.prec - 2) * hten + (m : ℚ) * htwo
  · have hcop : Nat.Coprime (5 ^ i) (2 ^ (k - w.format.prec - 2)) := Nat.Coprime.pow _ _ (by decide)
    have hcop' : ∀ a, Nat.Coprime (5 ^ i) (2 ^ a) := fun a => Nat.Coprime.pow _ _ (by decide)
    have hz : ((k - w.format.prec - 2 : ℕ) : ℤ) = (w.downExp m i + i) + (k - 1 - m.log2 + log2pow5 i : ℕ) := by
      rw [Width.downExp,ceilLog2pow5]
      omega
    have hsplit : ∀ x, 5 ^ i * 2 ^ (k - w.format.prec - 2) ∣ x ↔ 2 ^ (k - w.format.prec - 2) ∣ x ∧ 5 ^ i ∣ x := fun x =>
      ⟨fun h => ⟨(dvd_mul_left _ _).trans h,(dvd_mul_right _ _).trans h⟩,fun h => hcop.mul_dvd_of_dvd_of_dvd h.2 h.1⟩
    rw [hsplit,widened,mul_assoc,← pow_add,two_part hz,(hcop' _).dvd_mul_right]
  · calc 2 ^ w.format.prec * (5 ^ i * 2 ^ (k - w.format.prec - 2))
        = 5 ^ i * 2 ^ (k - 2) := by
          rw [mul_left_comm,← pow_add]
          congr 2
          omega
      _ ≤ 2 ^ (log2pow5 i + 1) * 2 ^ (k - 2) := Nat.mul_le_mul_right _ hpow.le
      _ = 2 ^ (k - 1) * 2 ^ log2pow5 i := by
          rw [← pow_add,← pow_add]
          congr 1
          omega
      _ ≤ widened k m * 2 ^ log2pow5 i := Nat.mul_le_mul_right _ hlow

end

theorem atod_sized : Sized atod 57 := ⟨by decide,by decide,by decide,by decide⟩

theorem atof_sized : Sized atof 30 := ⟨by decide,by decide,by decide,by decide⟩

end Scanf
