import Mathlib
import Picolibc.Lib.HalfEven
import Picolibc.Printf.FloatLayout

open Numerals HalfEven

namespace Printf

section

variable (k : DtoxKind)

def DtoxKind.biased (ufi : Nat) : Nat := ufi / 2 ^ k.expShift % (k.expMask + 1)

def DtoxKind.fraction (ufi : Nat) : Nat := ufi % 2 ^ k.expShift

def DtoxKind.Finite (ufi : Nat) : Prop := k.biased ufi < k.expMask

def DtoxKind.exponent (ufi : Nat) : ℤ :=
  if k.biased ufi = 0 then if k.fraction ufi = 0 then 0 else 1 - k.expBias else k.biased ufi - k.expBias

def DtoxKind.magnitude (ufi : Nat) : ℚ :=
  if k.biased ufi = 0 then k.fraction ufi * 2 ^ (1 - k.expBias - k.expShift : ℤ)
  else (2 ^ k.expShift + k.fraction ufi) * 2 ^ (k.biased ufi - k.expBias - k.expShift : ℤ)

def hexValue (ds : List Nat) (e : ℤ) : ℚ := horner 16 0 ds / 16 ^ (ds.length - 1) * 2 ^ e

structure Sound : Prop where
  msb : k.sigMsb = 2 ^ k.expShift
  mask : k.sigMask = 2 ^ k.expShift - 1
  field : ∃ n, k.expMask = 2 ^ n - 1
  bias : k.expMask = k.expBias * 2 + 1
  unit : 0 < k.expBias
  align : k.expShift + k.sigShift = 4 * (k.ndigs - 1)
  some : 1 < k.ndigs
  small : k.ndigs ≤ 14

end

section

variable {k : DtoxKind} {ufi : Nat}

theorem f64_sound : Sound f64 := ⟨by decide,by decide,⟨11,by decide⟩,by decide,by decide,by decide,by decide,by decide⟩

theorem f32_sound : Sound f32 := ⟨by decide,by decide,⟨8,by decide⟩,by decide,by decide,by decide,by decide,by decide⟩

theorem exp_biased (hk : Sound k) (ufi : Nat) : k.exp ufi = k.biased ufi := by
  obtain ⟨n,hn⟩ := hk.field
  have hpos : 0 < 2 ^ n := Nat.two_pow_pos n
  rw [DtoxKind.exp,DtoxKind.biased,hn,Nat.shiftRight_eq_div_pow,Nat.and_two_pow_sub_one_eq_mod,
    Nat.sub_add_cancel hpos]

theorem sig_fraction (hk : Sound k) (ufi : Nat) : k.sig ufi = k.fraction ufi * 2 ^ k.sigShift := by
  rw [DtoxKind.sig,DtoxKind.fraction,hk.mask,Nat.and_two_pow_sub_one_eq_mod,Nat.shiftLeft_eq]

theorem fraction_lt (k : DtoxKind) (ufi : Nat) : k.fraction ufi < 2 ^ k.expShift := Nat.mod_lt _ (Nat.two_pow_pos _)

theorem sig_zero (hk : Sound k) (ufi : Nat) : k.sig ufi = 0 ↔ k.fraction ufi = 0 := by
  rw [sig_fraction hk,Nat.mul_eq_zero]
  exact or_iff_left (Nat.two_pow_pos _).ne'

theorem sig_msb (hk : Sound k) (ufi : Nat) :
    k.sig ufi ||| k.sigMsb <<< k.sigShift = (2 ^ k.expShift + k.fraction ufi) * 2 ^ k.sigShift := by
  have hlt := fraction_lt k ufi
  rw [sig_fraction hk,hk.msb,← Nat.shiftLeft_eq,← Nat.shiftLeft_or_distrib,← Nat.shiftLeft_eq]
  congr 1
  have hor := Nat.two_pow_add_eq_or_of_lt hlt 1
  rw [mul_one] at hor
  rw [hor,Nat.or_comm]

def DtoxKind.significand (k : DtoxKind) (ufi : Nat) : Nat :=
  (if k.biased ufi = 0 then k.fraction ufi else 2 ^ k.expShift + k.fraction ufi) * 2 ^ k.sigShift

theorem unpack_eq (hk : Sound k) (ufi : Nat) : dtoxUnpack k ufi = (k.exponent ufi,k.significand ufi) := by
  unfold dtoxUnpack DtoxKind.exponent DtoxKind.significand
  rw [sig_msb hk,exp_biased hk]
  by_cases hexp : k.biased ufi = 0
  · by_cases hfrac : k.fraction ufi = 0
    · simp [hexp,hfrac,sig_fraction hk]
    · simp [hexp,hfrac,sig_fraction hk]
  · simp [hexp]

theorem significand_lt (hk : Sound k) (ufi : Nat) : k.significand ufi < 2 * 16 ^ (k.ndigs - 1) := by
  have hlt := fraction_lt k ufi
  have hbound : (if k.biased ufi = 0 then k.fraction ufi else 2 ^ k.expShift + k.fraction ufi) < 2 * 2 ^ k.expShift := by
    split_ifs <;> omega
  have hpow : (16 : Nat) ^ (k.ndigs - 1) = 2 ^ k.expShift * 2 ^ k.sigShift := by
    rw [← pow_add,hk.align,pow_mul]
    rfl
  rw [DtoxKind.significand,hpow,← mul_assoc]
  exact Nat.mul_lt_mul_of_pos_right hbound (Nat.two_pow_pos _)

theorem magnitude_eq (hk : Sound k) (ufi : Nat) :
    k.magnitude ufi = k.significand ufi / 16 ^ (k.ndigs - 1) * 2 ^ k.exponent ufi := by
  have hpow : (16 : ℚ) ^ (k.ndigs - 1) = 2 ^ k.expShift * 2 ^ k.sigShift := by
    rw [← pow_add,hk.align,pow_mul]
    norm_num
  have hscale : ∀ (m : ℕ) (e : ℤ), (m : ℚ) * 2 ^ (e - k.expShift : ℤ) =
      ((m * 2 ^ k.sigShift : ℕ) : ℚ) / 16 ^ (k.ndigs - 1) * 2 ^ e := by
    intro m e
    rw [hpow,zpow_sub₀ two_ne_zero,zpow_natCast]
    push_cast
    field_simp
  unfold DtoxKind.magnitude DtoxKind.significand DtoxKind.exponent
  by_cases hexp : k.biased ufi = 0
  · rw [if_pos hexp,if_pos hexp,if_pos hexp]
    by_cases hfrac : k.fraction ufi = 0
    · simp [hfrac]
    · rw [if_neg hfrac]
      exact hscale _ _
  · rw [if_neg hexp,if_neg hexp,if_neg hexp,← hscale]
    push_cast
    rfl

theorem dtoxRound_eq {bits : Nat} (hbits : 0 < bits) (s : Nat) : dtoxRound bits s = 2 ^ bits * rounded (2 ^ bits) s := by
  have hhalf : 1 <<< (bits - 1) <<< 1 = 2 ^ bits := by
    rw [Nat.shiftLeft_eq,Nat.shiftLeft_eq,one_mul,← pow_add,Nat.sub_add_cancel hbits]
  have hpow : 2 ^ bits = 2 * 1 <<< (bits - 1) := by
    rw [← hhalf,Nat.shiftLeft_eq _ 1]
    omega
  have hdiv := Nat.div_add_mod' s (2 ^ bits)
  have hmod := Nat.mod_lt s (Nat.two_pow_pos bits)
  have hodd : s >>> bits &&& 1 = s / 2 ^ bits % 2 := by rw [Nat.shiftRight_eq_div_pow,Nat.and_one_is_mod]
  have hfloor : ∀ x, x - x % 2 ^ bits = 2 ^ bits * (x / 2 ^ bits) := fun x => by
    have hx := Nat.div_add_mod x (2 ^ bits)
    omega
  unfold dtoxRound rounded
  dsimp only
  rw [hhalf,hodd,hfloor]
  generalize 1 <<< (bits - 1) = half at *
  congr 1
  by_cases hup : half < s % 2 ^ bits ∨ s / 2 ^ bits % 2 ≠ 0
  · rw [if_pos hup]
    by_cases hhigh : half ≤ s % 2 ^ bits
    · rw [if_pos (by omega)]
      exact Nat.div_eq_of_lt_le (by linarith) (by linarith)
    · rw [if_neg (by omega)]
      exact Nat.div_eq_of_lt_le (by linarith [Nat.zero_le half,Nat.zero_le (s % 2 ^ bits)]) (by linarith)
  · rw [if_neg hup,if_neg (by omega)]

theorem loop_all (conv : Nat) {d prec : Nat} (h : d ≤ prec + 1) (s : Nat) :
    dtoxLoop conv d s prec = ((fixed 16 d s).map (dtoxDigit conv),prec) := by
  induction d generalizing s with
  | zero => rfl
  | succ d ih =>
    have hlow : s &&& 0xf = s % 16 := Nat.and_two_pow_sub_one_eq_mod s 4
    rw [dtoxLoop,if_neg (fun hc => absurd hc.2 (by omega)),if_neg (by omega),ih (by omega),hlow,
      Nat.shiftRight_eq_div_pow]
    simp [fixed]

structure Trimmed (d s prec q z : Nat) : Prop where
  total : q + 1 + z = d
  least : prec ≤ q
  zeros : 16 ^ z ∣ s
  last : prec < q → s / 16 ^ z % 16 ≠ 0

theorem loop_trim (conv : Nat) {d prec : Nat} (h : prec < d) (s : Nat) : ∃ q z, Trimmed d s prec q z ∧
    dtoxLoop conv d s prec = ((fixed 16 (q + 1) (s / 16 ^ z)).map (dtoxDigit conv),q) := by
  induction d generalizing s with
  | zero => omega
  | succ d ih =>
    have hlow : s &&& 0xf = s % 16 := Nat.and_two_pow_sub_one_eq_mod s 4
    have hshift : s >>> 4 = s / 16 := Nat.shiftRight_eq_div_pow s 4
    by_cases hskip : s % 16 = 0 ∧ prec < d
    · obtain ⟨q,z,ht,hloop⟩ := ih hskip.2 (s / 16)
      have hdiv : s / 16 / 16 ^ z = s / 16 ^ (z + 1) := by rw [Nat.div_div_eq_div_mul,← pow_succ']
      rw [dtoxLoop,hlow,hshift,if_pos hskip,hloop,hdiv]
      refine ⟨q,z + 1,⟨by have := ht.total; omega,ht.least,?_,fun hq => hdiv ▸ ht.last hq⟩,rfl⟩
      rw [pow_succ']
      exact Nat.mul_dvd_of_dvd_div (Nat.dvd_of_mod_eq_zero hskip.1) ht.zeros
    · refine ⟨d,0,⟨rfl,by omega,by simp,fun hlt => ?_⟩,?_⟩
      · rw [pow_zero,Nat.div_one]
        exact fun hz => hskip ⟨hz,hlt⟩
      · have hprec : (if prec < d then d else prec) = d := by
          split_ifs <;> omega
        rw [dtoxLoop,hlow,hshift,if_neg hskip,hprec,loop_all conv (by omega)]
        simp [fixed]

structure Shown (k : DtoxKind) (ufi : Nat) (prec : ℤ) (ds : List Nat) : Prop where
  digit : ∀ d ∈ ds, d < 16
  some : 0 < ds.length
  exact : prec < 0 → ds.length ≤ k.ndigs ∧ hexValue ds (k.exponent ufi) = k.magnitude ufi ∧
    (1 < ds.length → ds.getLast? ≠ .some 0)
  rounds : 0 ≤ prec → prec < k.ndigs - 1 → ds.length = prec + 1 ∧
    ∃ n : ℤ, Nearest (k.magnitude ufi / 2 ^ k.exponent ufi * 16 ^ prec.toNat) n ∧
      hexValue ds (k.exponent ufi) = n / 16 ^ prec.toNat * 2 ^ k.exponent ufi
  whole : k.ndigs - 1 ≤ prec → ds.length = k.ndigs ∧ hexValue ds (k.exponent ufi) = k.magnitude ufi

theorem fixed_value {s q z : Nat} (hs : s < 16 ^ (q + 1 + z)) (hz : 16 ^ z ∣ s) (e : ℤ) :
    hexValue (fixed 16 (q + 1) (s / 16 ^ z)) e = s / 16 ^ (q + z) * 2 ^ e := by
  obtain ⟨m,rfl⟩ := hz
  have hm : m < 16 ^ (q + 1) := by
    rw [pow_add,mul_comm] at hs
    exact Nat.lt_of_mul_lt_mul_right hs
  rw [hexValue,horner_fixed,fixed_length,Nat.mul_div_cancel_left m (by positivity),Nat.mod_eq_of_lt hm,Nat.add_sub_cancel,
    pow_add]
  push_cast
  field_simp

theorem fixed_last (q x : Nat) : (fixed 16 (q + 1) x).getLast? = some (x % 16) := by
  rw [fixed,List.getLast?_append]
  rfl

theorem round_digits (conv : Nat) {s n p i : Nat} (hs : s < 2 * 16 ^ n) (hn : n = p + (i + 1)) :
    dtoxLoop conv (n + 1) (16 ^ (i + 1) * rounded (16 ^ (i + 1)) s) p =
      ((fixed 16 (p + 1) (rounded (16 ^ (i + 1)) s)).map (dtoxDigit conv),p) ∧
      rounded (16 ^ (i + 1)) s < 16 ^ (p + 1) := by
  have hpos : 0 < 16 ^ (i + 1) := by positivity
  obtain ⟨q,z,ht,hloop⟩ := loop_trim conv (show p < n + 1 by omega) (16 ^ (i + 1) * rounded (16 ^ (i + 1)) s)
  have htotal := ht.total
  have hleast := ht.least
  have hq : q = p := by
    by_contra hne
    obtain ⟨j,hj⟩ : ∃ j, i + 1 = z + (j + 1) := ⟨i - z,by omega⟩
    refine ht.last (by omega) ?_
    rw [hj,pow_add 16 z,mul_assoc,Nat.mul_div_cancel_left _ (by positivity),pow_succ' 16 j,mul_assoc,Nat.mul_mod_right]
  have hz : z = i + 1 := by omega
  rw [hloop,hq,hz,Nat.mul_div_cancel_left _ hpos]
  refine ⟨rfl,?_⟩
  have hround : rounded (16 ^ (i + 1)) s ≤ s / 16 ^ (i + 1) + 1 := by
    unfold rounded
    split_ifs <;> omega
  have hquot : s / 16 ^ (i + 1) < 2 * 16 ^ p := by
    refine Nat.div_lt_of_lt_mul ?_
    rw [hn,pow_add 16 p] at hs
    linarith
  have hone : 1 ≤ 16 ^ p := Nat.one_le_two_pow.trans (Nat.pow_le_pow_left (by decide) p)
  rw [pow_succ 16 p]
  omega

theorem prec_digits (hk : Sound k) (conv ufi : Nat) (prec : ℤ) :
    ∃ ds, dtoxLoop conv k.ndigs (dtoxPrec k (k.significand ufi) prec).1 (dtoxPrec k (k.significand ufi) prec).2 =
      (ds.map (dtoxDigit conv),ds.length - 1) ∧ Shown k ufi prec ds := by
  have hlt := significand_lt hk ufi
  have hsome := hk.some
  obtain ⟨n,hn⟩ : ∃ n, k.ndigs = n + 1 := ⟨k.ndigs - 1,by omega⟩
  rw [hn,Nat.add_sub_cancel] at hlt
  have hfit : k.significand ufi < 16 ^ (n + 1) := by
    rw [pow_succ]
    omega
  have hmag := magnitude_eq hk ufi
  rw [hn,Nat.add_sub_cancel] at hmag
  unfold dtoxPrec
  by_cases hneg : prec < 0
  · rw [if_pos hneg,hn]
    obtain ⟨q,z,ht,hloop⟩ := loop_trim conv (show 0 < n + 1 by omega) (k.significand ufi)
    have htotal := ht.total
    refine ⟨_,by rw [hloop,fixed_length,Nat.add_sub_cancel],fixed_lt (by decide) _ _,by rw [fixed_length]; omega,fun _ => ?_,
      fun h => absurd hneg (not_lt.mpr h),fun h => by omega⟩
    refine ⟨by rw [fixed_length]; omega,?_,fun hlen => ?_⟩
    · rw [fixed_value (by rwa [htotal]) ht.zeros,hmag,show q + z = n by omega]
    · rw [fixed_length] at hlen
      rw [fixed_last]
      exact fun h => ht.last (by omega) (Option.some.inj h)
  rw [if_neg hneg]
  by_cases hall : (k.ndigs : ℤ) - 1 ≤ prec
  · have hvalue : hexValue (fixed 16 (n + 1) (k.significand ufi)) (k.exponent ufi) = k.magnitude ufi := by
      have h := @fixed_value (k.significand ufi) n 0 (by simpa using hfit) (by simp) (k.exponent ufi)
      rw [pow_zero,Nat.div_one] at h
      exact h.trans hmag.symm
    rw [if_pos hall,hn,Nat.add_sub_cancel,loop_all conv le_rfl]
    exact ⟨fixed 16 (n + 1) (k.significand ufi),by rw [fixed_length,Nat.add_sub_cancel],fixed_lt (by decide) _ _,
      by rw [fixed_length]; omega,fun h => absurd h hneg,fun _ h => by omega,fun _ => ⟨by rw [fixed_length,hn],hvalue⟩⟩
  · obtain ⟨p,rfl⟩ := Int.eq_ofNat_of_zero_le (not_lt.mp hneg)
    have hp : p < n := by omega
    obtain ⟨i,hi⟩ : ∃ i, n = p + (i + 1) := ⟨n - p - 1,by omega⟩
    have hbits : (n - p) <<< 2 = 4 * (i + 1) := by
      rw [Nat.shiftLeft_eq]
      omega
    have hgrid : 2 ^ (4 * (i + 1)) = 16 ^ (i + 1) := by rw [pow_mul]; rfl
    rw [if_neg hall,Int.toNat_natCast,hn,Nat.add_sub_cancel,hbits,dtoxRound_eq (by omega),hgrid]
    obtain ⟨hloop,hm⟩ := round_digits conv hlt hi
    rw [hloop]
    refine ⟨_,by rw [fixed_length,Nat.add_sub_cancel],fixed_lt (by decide) _ _,by rw [fixed_length]; omega,
      fun h => absurd h hneg,fun _ _ => ⟨by rw [fixed_length]; rfl,rounded (16 ^ (i + 1)) (k.significand ufi),?_,?_⟩,
      fun h => by omega⟩
    · have hquot : k.magnitude ufi / 2 ^ k.exponent ufi * 16 ^ p = k.significand ufi / (16 ^ (i + 1) : ℕ) := by
        rw [hmag,mul_div_cancel_right₀ _ (zpow_ne_zero _ two_ne_zero),hi,pow_add 16 p]
        push_cast
        field_simp
      rw [Int.toNat_natCast,hquot]
      exact rounded_nearest (by positivity) _
    · rw [hexValue,horner_fixed,Nat.mod_eq_of_lt hm,fixed_length,Nat.add_sub_cancel,Int.toNat_natCast]
      push_cast
      rfl

theorem engine_digits (hk : Sound k) (hfin : k.Finite ufi) (prec : ℤ) (conv : Nat) :
    ∃ ds, dtoxEngine k ufi prec conv =
      (⟨decide (2 ^ (k.size - 1) ≤ ufi),false,false,k.exponent ufi,ds.map (dtoxDigit conv)⟩,ds.length - 1) ∧
      Shown k ufi prec ds := by
  obtain ⟨ds,hloop,hs⟩ := prec_digits hk conv ufi prec
  refine ⟨ds,?_,hs⟩
  have hordinary : k.exp ufi ≠ k.expBias * 2 + 1 := by
    rw [exp_biased hk,← hk.bias]
    exact hfin.ne
  rw [dtoxEngine,if_neg (fun h => hordinary h.2)]
  dsimp only
  rw [unpack_eq hk,hloop]

theorem exponent_bound (hk : Sound k) (hfin : k.Finite ufi) : (k.exponent ufi).natAbs ≤ k.expBias := by
  have hbias := hk.bias
  have hunit := hk.unit
  unfold DtoxKind.Finite at hfin
  unfold DtoxKind.exponent
  split_ifs <;> omega

theorem padded_value {ds : List Nat} (h : 0 < ds.length) (P : Nat) (e : ℤ) : hexValue (padded ds P) e = hexValue ds e := by
  obtain ⟨n,hn⟩ : ∃ n, ds.length = n + 1 := ⟨ds.length - 1,by omega⟩
  rw [hexValue,hexValue,padded,horner_append,horner_replicate,List.length_append,List.length_replicate,hn,
    show n + 1 + (P + 1 - (n + 1)) - 1 = n + (P + 1 - (n + 1)) by omega,Nat.add_sub_cancel,pow_add]
  push_cast
  field_simp

theorem padded_digit {ds : List Nat} (h : ∀ d ∈ ds, d < 16) (P : Nat) : ∀ d ∈ padded ds P, d < 16 := by
  intro d hd
  rcases List.mem_append.mp hd with hd | hd
  · exact h d hd
  · rw [(List.mem_replicate.mp hd).2]
    decide

structure HexNumeral (k : DtoxKind) (ufi : Nat) (digits : Option Nat) (ds : List Nat) : Prop where
  digit : ∀ d ∈ ds, d < 16
  some : 0 < ds.length
  exact : digits = none → hexValue ds (k.exponent ufi) = k.magnitude ufi ∧ (1 < ds.length → ds.getLast? ≠ .some 0)
  rounds : ∀ p, digits = .some p → ds.length = p + 1 ∧
    ∃ n : ℤ, Nearest (k.magnitude ufi / 2 ^ k.exponent ufi * 16 ^ p) n ∧
      hexValue ds (k.exponent ufi) = n / 16 ^ p * 2 ^ k.exponent ufi

def precArg (digits : Option Nat) : ℤ := digits.elim (-1) (↑)

def shownPrec (prec : ℤ) (len : Nat) : Nat := if prec ≤ len then len - 1 else prec.toNat

theorem Shown.length_le {prec : ℤ} {ds : List Nat} (h : Shown k ufi prec ds) : ds.length ≤ k.ndigs := by
  rcases lt_or_ge prec 0 with hneg | hpos
  · exact (h.exact hneg).1
  · rcases lt_or_ge prec (k.ndigs - 1) with hlt | hge
    · have hlen := (h.rounds hpos hlt).1
      omega
    · exact (h.whole hge).1.le

theorem shownPrec_some {p : Nat} {ds : List Nat} (h : Shown k ufi p ds) (hk : Sound k) :
    shownPrec p ds.length = if p = k.ndigs then k.ndigs - 1 else p := by
  have hsome := hk.some
  unfold shownPrec
  rcases Nat.lt_or_ge p (k.ndigs - 1) with hlt | hge
  · have hlen := (h.rounds (by omega) (by omega)).1
    rw [if_pos (by omega),if_neg (by omega)]
    omega
  · have hlen := (h.whole (by omega)).1
    split_ifs <;> omega

theorem shown_numeral {digits : Option Nat} {ds : List Nat} (hk : Sound k) (h : Shown k ufi (precArg digits) ds)
    (hne : digits ≠ .some k.ndigs) : HexNumeral k ufi digits (padded ds (shownPrec (precArg digits) ds.length)) := by
  have hsome := h.some
  cases digits with
  | none =>
    obtain ⟨hle,hvalue,hlast⟩ := h.exact (by decide)
    have hshort : shownPrec (precArg none) ds.length = ds.length - 1 := if_pos (by simp [precArg])
    have hsame : padded ds (shownPrec (precArg none) ds.length) = ds := by
      rw [hshort,padded,Nat.sub_add_cancel hsome,Nat.sub_self,List.replicate_zero,List.append_nil]
    rw [hsame]
    exact ⟨h.digit,hsome,fun _ => ⟨hvalue,hlast⟩,fun _ hp => (Option.some_ne_none _ hp.symm).elim⟩
  | some p =>
    have hp : shownPrec p ds.length = p := by
      rw [shownPrec_some h hk,if_neg (fun heq => hne (congrArg some heq))]
    have hroom : ds.length ≤ p + 1 := by
      rw [← hp,shownPrec]
      split_ifs <;> omega
    have hlen := padded_length hroom
    rw [precArg,Option.elim_some,hp]
    refine ⟨padded_digit h.digit p,by omega,fun hp => (Option.some_ne_none _ hp).elim,fun q hq => ?_⟩
    obtain rfl := Option.some.inj hq
    refine ⟨hlen,?_⟩
    rw [padded_value hsome]
    rcases Nat.lt_or_ge p (k.ndigs - 1) with hlt | hge
    · exact (h.rounds (by simp [precArg]) (by simp only [precArg,Option.elim_some]; omega)).2
    · rw [(h.whole (by simp only [precArg,Option.elim_some]; omega)).2]
      obtain ⟨i,rfl⟩ := Nat.exists_eq_add_of_le hge
      have hint : k.magnitude ufi / 2 ^ k.exponent ufi * 16 ^ (k.ndigs - 1 + i) = ((k.significand ufi * 16 ^ i : ℕ) : ℤ) := by
        rw [magnitude_eq hk,mul_div_cancel_right₀ _ (zpow_ne_zero _ two_ne_zero),pow_add]
        push_cast
        field_simp
      refine ⟨((k.significand ufi * 16 ^ i : ℕ) : ℤ),?_,?_⟩
      · rw [hint]
        exact nearest_int _
      · rw [← hint]
        field_simp

end

def Conv.hexLead (v : Conv Unit) (k : DtoxKind) (ufi : Nat) : List UInt8 :=
  v.signText (decide (2 ^ (k.size - 1) ≤ ufi)) ++ [byte '0',if v.letter.isUpper then byte 'X' else byte 'x']

def Conv.hexBody (v : Conv Unit) (k : DtoxKind) (ufi : Nat) (ds : List Nat) : List UInt8 :=
  mantissaText (digitText v.letter.isUpper) (decide (Flag.alt ∈ v.flags)) ds ++
    exponentText (if v.letter.isUpper then 'P' else 'p') 1 (k.exponent ufi)

def Conv.hexText (b : Build) (v : Conv Unit) (args : List Arg) (k : DtoxKind) (ds : List Nat) : List UInt8 :=
  { v.asked b args with digits := none }.text (v.hexLead k (v.value args).toNat) (v.hexBody k (v.value args).toNat ds)

def Conv.hexInts (b : Build) (e : FloatEngine) (v : Conv Unit) (args : List Arg) : List Int :=
  Printf.hexInts e (lenFlags b v.len (v.given (starWidth b args) (starPrec b v args))) (v.asked b args).columns
    ((v.asked b args).digits.getD 0 : Nat) (lower v.letter.char - v.letter.char.toNat) (v.value args).toNat

structure Conv.HexPrints (b : Build) (e : FloatEngine) (long : FloatText) (v : Conv Unit) (args : List Arg) : Prop where
  text : ∃ o ds, format b (floatText e b long) (render [.conv v]) args = .ok o ∧ o.failed = false ∧
    HexNumeral e.kind (v.value args).toNat (v.asked b args).digits ds ∧ o.text = v.hexText b args e.kind ds
  ints : ∀ n ∈ v.hexInts b e args, InInt b n

structure FloatEngine.Fits (e : FloatEngine) : Prop where
  sound : Sound e.kind
  wide : e.kind.expBias < 1000 ∨ e.float64 = true ∧ e.kind.expBias < 10000

structure Conv.GivenFloat (b : Build) (k : DtoxKind) (v : Conv Unit) (args : List Arg) : Prop where
  given : v.Given b args
  floats : b.floats ≠ .off
  plain : v.argTy b = skipFloatTy b
  finite : k.Finite (v.value args).toNat

section

variable {b : Build} {e : FloatEngine} {long : FloatText} {v : Conv Unit} {args : List Arg}

theorem floatOut_hex (hb : b.Full) (hl : v.letter ∈ [Letter.a,.A]) (h : v.GivenFloat b e.kind args) :
    v.floatOut b (floatText e b long) args =
      hexFloat e (lenFlags b v.len (v.given (starWidth b args) (starPrec b v args))) (v.asked b args).columns
        ((v.asked b args).digits.getD 0 : Nat) (lower v.letter.char - v.letter.char.toNat) (v.value args).toNat := by
  simp only [List.mem_cons,List.not_mem_nil,or_false] at hl
  have hfloats : v.letter ∈ Letter.floats := by
    rcases hl with hl | hl <;> simp [hl,Letter.floats]
  have hlow : lower v.letter.char = 'a'.toNat := by
    rcases hl with hl | hl <;> rw [hl] <;> decide
  rw [Conv.floatOut,floatText,if_neg (plain_float hfloats hb h.floats h.plain _ _)]
  dsimp only
  rw [if_pos ⟨hb.c99,hlow⟩]

theorem dtoxDigit_text (upper : Bool) {d : Nat} (h : d < 16) :
    dtoxDigit (if upper then 32 else 0) d = digitText upper d := by
  interval_cases d <;> cases upper <;> decide

structure HexLaid (e : FloatEngine) (f : Flags) (digits : Option Nat) (width : Int) (upper : Bool) (ufi : Nat)
    (ds : List Nat) (digit : Nat → UInt8) (st : Style) : Prop where
  shown : Shown e.kind ufi (precArg digits) ds
  hex : st.hex = true
  laid : Scientific ds (digitText upper) digit (if upper then 32 else 0) (e.kind.exponent ufi) st
    (shownPrec (precArg digits) ds.length) 1 (if upper then 'P' else 'p')
  out : hexFloat e f width (digits.getD 0 : Nat) (if upper then 32 else 0) ufi =
    layoutFinite f width (if upper then 32 else 0) (decide (2 ^ (e.kind.size - 1) ≤ ufi)) (e.kind.exponent ufi) digit st
  ints : hexInts e f width (digits.getD 0 : Nat) (if upper then 32 else 0) ufi =
    let l := layoutLengths f.alt (e.kind.exponent ufi) (signChar f (decide (2 ^ (e.kind.size - 1) ≤ ufi))) st
    l ++ [if l.getLastD 0 < width then width - l.getLastD 0 else 0]

theorem hex_laid (he : e.Fits) {ufi : Nat} (hfin : e.kind.Finite ufi) {f : Flags} {digits : Option Nat}
    (hf : f.prec = digits.isSome) (width : Int) (upper : Bool) :
    ∃ ds digit st, HexLaid e f digits width upper ufi ds digit st := by
  obtain ⟨ds,hengine,hshown⟩ := engine_digits he.sound hfin (precArg digits) (if upper then 32 else 0)
  have hle := hshown.length_le
  have hsmall := he.sound.small
  have hsome := hshown.some
  have hbound := exponent_bound he.sound hfin
  have hwide : (e.kind.exponent ufi).natAbs < 1000 ∨ e.float64 = true ∧ (e.kind.exponent ufi).natAbs < 10000 :=
    he.wide.imp hbound.trans_lt (And.imp_right hbound.trans_lt)
  have hprec : (if f.prec = true then ((digits.getD 0 : Nat) : ℤ) else -1) = precArg digits := by
    rw [hf]
    cases digits <;> rfl
  have hndigs : (1 + (ds.length - 1)) % 256 = ds.length := by omega
  refine ⟨ds,fun i => (ds.map (dtoxDigit (if upper then 32 else 0))).getD i (e.stale i),
    { hexStyle (precArg digits) (ds.length - 1) with ndigsExp := widen e (e.kind.exponent ufi) 1 },hshown,rfl,?_,?_,?_⟩
  · refine ⟨fun i hi => ?_,by cases upper <;> decide,hsome,⟨rfl,rfl⟩,?_,?_,hndigs,by cases upper <;> rfl,by decide,
      widen_eq e (by decide) (by decide) hwide⟩
    · rw [List.getD_eq_getElem _ _ (by rwa [List.length_map]),List.getElem_map]
      exact dtoxDigit_text upper (hshown.digit _ (List.getElem_mem hi))
    · simp only [hexStyle,hndigs,shownPrec]
      have hlow : -1 ≤ precArg digits := by
        cases digits <;> simp [precArg]
      split_ifs <;> omega
    · unfold shownPrec
      split_ifs <;> omega
  · unfold hexFloat layoutFloat
    dsimp only
    rw [hprec,hengine]
    rfl
  · unfold hexInts
    dsimp only
    rw [hprec,hengine]
    rfl

theorem split_unique {α : Type} {x : α} {p q l m : List α} (hp : x ∉ p) (hq : x ∉ q) (h : p ++ x :: l = q ++ x :: m) :
    p = q ∧ l = m := by
  induction p generalizing q with
  | nil =>
    cases q with
    | nil => exact ⟨rfl,List.tail_eq_of_cons_eq h⟩
    | cons y q => exact absurd (List.head_eq_of_cons_eq h ▸ List.mem_cons_self) hq
  | cons y p ih =>
    cases q with
    | nil => exact absurd (List.head_eq_of_cons_eq h ▸ List.mem_cons_self) hp
    | cons z q =>
      obtain ⟨hhead,htail⟩ := List.cons_eq_cons.mp h
      obtain ⟨hpq,hlm⟩ := ih (fun hx => hp (List.mem_cons_of_mem y hx)) (fun hx => hq (List.mem_cons_of_mem z hx)) htail
      exact ⟨by rw [hhead,hpq],hlm⟩

theorem field_shape {F : Field} {lead body : List UInt8} {x : UInt8} (hl : x ∉ lead) (hs : x ≠ byte ' ') (hz : x ≠ byte '0') :
    ∃ pre post, x ∉ pre ∧ F.text lead body = pre ++ body ++ post := by
  unfold Field.text
  split_ifs with h₁ h₂
  · exact ⟨lead,_,hl,rfl⟩
  · refine ⟨lead ++ List.replicate (F.room (lead ++ body)) (byte '0'),[],?_,(List.append_nil _).symm⟩
    simp [hl,hz]
  · refine ⟨List.replicate (F.room (lead ++ body)) (byte ' ') ++ lead,[],?_,by simp⟩
    simp [hl,hs]

theorem glyph_apart (upper : Bool) {d : Nat} (h : d < 16) : digitText upper d ≠ byte '.' ∧
    digitText upper d ≠ byte (if upper then 'P' else 'p') := by
  interval_cases d <;> cases upper <;> decide

theorem signText_apart (v : Conv Unit) (minus : Bool) : byte '.' ∉ v.signText minus ∧ (v.signText minus).length ≤ 1 := by
  unfold Conv.signText signText
  split_ifs <;> decide

theorem hexText_shape {k : DtoxKind} {ds : List Nat} (hds : ∀ d ∈ ds, d < 16) (hlen : 1 < ds.length) :
    ∃ pre post, byte '.' ∉ pre ∧ v.hexText b args k ds = pre ++ byte '.' ::
      ((ds.drop 1).map (digitText v.letter.isUpper) ++ byte (if v.letter.isUpper then 'P' else 'p') :: post) := by
  have hlead : byte '.' ∉ v.hexLead k (v.value args).toNat := by
    rw [Conv.hexLead,List.mem_append]
    rintro (hs | hx)
    · exact (signText_apart v _).1 hs
    · revert hx
      cases v.letter.isUpper <;> decide
  obtain ⟨pre,post,hpre,htext⟩ := @field_shape { v.asked b args with digits := none } _
    (v.hexBody k (v.value args).toNat ds) _ hlead (by decide) (by decide)
  obtain ⟨d,ds,rfl⟩ := List.exists_cons_of_length_pos (show 0 < ds.length by omega)
  refine ⟨pre ++ [digitText v.letter.isUpper d],(if k.exponent (v.value args).toNat < 0 then byte '-' else byte '+') ::
    ((⟨false,false,0,some 1⟩ : Field).numeral (numeralText false 10 (k.exponent (v.value args).toNat).natAbs) ++ post),?_,?_⟩
  · have hd := (glyph_apart v.letter.isUpper (hds d List.mem_cons_self)).1
    simp [hpre,hd.symm]
  · rw [Conv.hexText,htext,Conv.hexBody,mantissaText,if_pos (.inl hlen),exponentText]
    simp

theorem hexText_length {k : DtoxKind} {ds ds' : List Nat} (hds : ∀ d ∈ ds, d < 16) (hds' : ∀ d ∈ ds', d < 16)
    (hlen : 1 < ds.length) (hlen' : 1 < ds'.length) (h : v.hexText b args k ds = v.hexText b args k ds') :
    ds.length = ds'.length := by
  obtain ⟨p,q,hp,htext⟩ := @hexText_shape b v args k ds hds hlen
  obtain ⟨p',q',hp',htext'⟩ := @hexText_shape b v args k ds' hds' hlen'
  rw [htext,htext'] at h
  have hmark : ∀ l : List Nat, (∀ d ∈ l, d < 16) →
      byte (if v.letter.isUpper then 'P' else 'p') ∉ (l.drop 1).map (digitText v.letter.isUpper) := by
    intro l hl hin
    obtain ⟨d,hd,heq⟩ := List.mem_map.mp hin
    exact (glyph_apart v.letter.isUpper (hl d (List.mem_of_mem_drop hd))).2 heq
  have hrest := (split_unique hp hp' h).2
  have htail := congrArg List.length (split_unique (hmark ds hds) (hmark ds' hds') hrest).1
  simp only [List.length_map,List.length_drop] at htail
  omega

theorem exponent_digits (he : e.Fits) {ufi : Nat} (hfin : e.kind.Finite ufi) :
    max 1 (Nat.digits 10 (e.kind.exponent ufi).natAbs).length ≤ 4 := by
  have hlen := (Nat.digits_length_le_iff (show 1 < 10 by decide) (k := 4) (e.kind.exponent ufi).natAbs).mpr
  have hbound := exponent_bound he.sound hfin
  have hwide := he.wide
  omega

theorem hex_output (hb : b.Full) (he : e.Fits) (hl : v.letter ∈ [Letter.a,.A]) (h : v.GivenFloat b e.kind args) :
    ∃ ds rs, Shown e.kind (v.value args).toNat (precArg (v.asked b args).digits) ds ∧
      format b (floatText e b long) (render [.conv v]) args = .ok ⟨v.hexText b args e.kind
        (padded ds (shownPrec (precArg (v.asked b args).digits) ds.length)),rs,false⟩ ∧
      ((∀ n ∈ v.hexInts b e args, InInt b n) ↔ shownPrec (precArg (v.asked b args).digits) ds.length = 0 ∨
        5 + max 1 (Nat.digits 10 (e.kind.exponent (v.value args).toNat).natAbs).length +
          (v.signText (decide (2 ^ (e.kind.size - 1) ≤ (v.value args).toNat))).length +
          (shownPrec (precArg (v.asked b args).digits) ds.length + 1) < 2 ^ (b.intBits - 1)) := by
  have hfloats : v.letter ∈ Letter.floats := by
    simp only [List.mem_cons,List.not_mem_nil,or_false] at hl
    rcases hl with hl | hl <;> simp [hl,Letter.floats]
  have hconv : lower v.letter.char - v.letter.char.toNat = if v.letter.isUpper then 32 else 0 := by
    simp only [List.mem_cons,List.not_mem_nil,or_false] at hl
    rcases hl with hl | hl <;> rw [hl] <;> decide
  have hmark : hexMark (if v.letter.isUpper then 32 else 0) true =
      [byte '0',if v.letter.isUpper then byte 'X' else byte 'x'] := by
    cases v.letter.isUpper <;> decide
  have hlay := given_laid hb v (starWidth b args) (starPrec b v args)
  have hbig : (2 : ℤ) ^ 7 ≤ 2 ^ (b.intBits - 1) := by
    have h₁ := hb.target.char_le
    have h₂ := hb.target.short_le
    exact pow_le_pow_right₀ (by norm_num) (by omega)
  obtain ⟨ds,digit,st,hlaid⟩ := @hex_laid e he _ h.finite _ (v.asked b args).digits hlay.prec
    (v.asked b args).columns v.letter.isUpper
  obtain ⟨rs,hfmt⟩ := @format_float b (floatText e b long) v args hb hfloats h.floats h.given.fits
  refine ⟨ds,rs,hlaid.shown,?_,?_⟩
  · have htext := hlaid.laid.text hb.full (v.asked b args) hlay.left hlay.zero
      (decide (2 ^ (e.kind.size - 1) ≤ (v.value args).toNat))
    rw [hfmt,floatOut_hex hb hl h,hconv]
    rw [given_sign hb,given_alt hb,hlaid.hex,hmark] at htext
    have hout := congrArg (fun o : List UInt8 × Int => o.1 ++ tail b o.2) hlaid.out
    exact congrArg (fun t : List UInt8 => Except.ok (⟨t,rs,false⟩ : Output)) (hout.trans htext)
  · have hdigits := exponent_digits he h.finite
    have hsign := (signText_apart v (decide (2 ^ (e.kind.size - 1) ≤ (v.value args).toNat))).2
    have hbase : Scientific.base (e.kind.exponent (v.value args).toNat) st 1
        (signChar (lenFlags b v.len (v.given (starWidth b args) (starPrec b v args)))
          (decide (2 ^ (e.kind.size - 1) ≤ (v.value args).toNat))) =
        5 + max 1 (Nat.digits 10 (e.kind.exponent (v.value args).toNat).natAbs).length +
          (v.signText (decide (2 ^ (e.kind.size - 1) ≤ (v.value args).toNat))).length := by
      rw [Scientific.base,hlaid.hex,given_sign hb,if_pos rfl]
      push_cast
      ring
    have hiff := hlaid.laid.ints_iff (lenFlags b v.len (v.given (starWidth b args) (starPrec b v args))).alt
      (signChar (lenFlags b v.len (v.given (starWidth b args) (starPrec b v args)))
        (decide (2 ^ (e.kind.size - 1) ≤ (v.value args).toNat))) (M := 2 ^ (b.intBits - 1))
      (by rw [hbase]; omega) (Int.natCast_nonneg _)
      (by exact_mod_cast h.given.width)
    rw [hbase] at hiff
    rw [Conv.hexInts,hconv]
    refine Iff.trans ?_ (hiff.trans (or_congr_right ?_))
    · exact iff_of_eq (by rw [hlaid.ints]; rfl)
    · norm_cast

theorem hex_short (hb : b.Full) (he : e.Fits) (hl : v.letter ∈ [Letter.a,.A]) (h : v.GivenFloat b e.kind args)
    (hdig : (v.asked b args).digits = some e.kind.ndigs) : ¬v.HexPrints b e long args := by
  obtain ⟨ds,rs,hs,hfmt,-⟩ := @hex_output b e long v args hb he hl h
  rintro ⟨⟨o,ds',hrun,-,hnum,htext⟩,-⟩
  have hmany := he.sound.some
  have hwhole : ds.length = e.kind.ndigs := (hs.whole (by rw [hdig]; simp [precArg])).1
  have hshort : shownPrec (precArg (v.asked b args).digits) ds.length = e.kind.ndigs - 1 := by
    rw [hdig,precArg,Option.elim_some,shownPrec,if_pos (by omega),hwhole]
  have hpad : (padded ds (e.kind.ndigs - 1)).length = e.kind.ndigs := by
    rw [padded_length (by omega)]
    omega
  have hasked := (hnum.rounds _ hdig).1
  rw [hfmt,hshort] at hrun
  have hsame : v.hexText b args e.kind (padded ds (e.kind.ndigs - 1)) = v.hexText b args e.kind ds' :=
    (congrArg Output.text (Except.ok.inj hrun)).trans htext
  have hequal := hexText_length (padded_digit hs.digit _) hnum.digit (by omega) (by omega) hsame
  omega

theorem hex_text_iff (hb : b.Full) (he : e.Fits) (hl : v.letter ∈ [Letter.a,.A]) (h : v.GivenFloat b e.kind args) :
    v.HexPrints b e long args ↔ (v.asked b args).digits ≠ some e.kind.ndigs ∧
      (v.asked b args).digits.getD 0 + 6 + max 1 (Nat.digits 10 (e.kind.exponent (v.value args).toNat).natAbs).length +
        (v.signText (decide (2 ^ (e.kind.size - 1) ≤ (v.value args).toNat))).length < 2 ^ (b.intBits - 1) := by
  obtain ⟨ds,rs,hs,hfmt,hints⟩ := @hex_output b e long v args hb he hl h
  have hlen := exponent_digits he h.finite
  have hsign := (signText_apart v (decide (2 ^ (e.kind.size - 1) ≤ (v.value args).toNat))).2
  have hsome := hs.some
  have hle := hs.length_le
  have hsmall := he.sound.small
  have hbig : 2 ^ 7 ≤ 2 ^ (b.intBits - 1) := by
    have h₁ := hb.target.char_le
    have h₂ := hb.target.short_le
    exact Nat.pow_le_pow_right (by decide) (by omega)
  have hroom : (v.asked b args).digits ≠ some e.kind.ndigs → ((∀ n ∈ v.hexInts b e args, InInt b n) ↔
      (v.asked b args).digits.getD 0 + 6 + max 1 (Nat.digits 10 (e.kind.exponent (v.value args).toNat).natAbs).length +
        (v.signText (decide (2 ^ (e.kind.size - 1) ≤ (v.value args).toNat))).length < 2 ^ (b.intBits - 1)) := by
    intro hne
    rw [hints]
    cases hdig : (v.asked b args).digits with
    | none =>
      rw [shownPrec,if_pos (by simp [precArg]),Option.getD_none]
      omega
    | some p =>
      rw [hdig] at hs hne
      rw [precArg,Option.elim_some,shownPrec_some hs he.sound,if_neg (fun heq => hne (congrArg some heq)),Option.getD_some]
      omega
  constructor
  · rintro ⟨⟨o,ds',hrun,hran,hnum,htext⟩,hin⟩
    have hne : (v.asked b args).digits ≠ some e.kind.ndigs := fun hdig =>
      @hex_short b e long v args hb he hl h hdig ⟨⟨o,ds',hrun,hran,hnum,htext⟩,hin⟩
    exact ⟨hne,(hroom hne).mp hin⟩
  · rintro ⟨hne,hfit⟩
    exact ⟨⟨_,_,hfmt,rfl,shown_numeral he.sound hs hne,rfl⟩,(hroom hne).mpr hfit⟩

end

def hexConv (prec : List (Fin 10)) : Conv Unit := ⟨(),[],.none,.lit prec,.none,.a,bare_length .a⟩

def doubleEngine : FloatEngine := ⟨f64,17,fun _ _ _ _ => (⟨false,false,false,0,[byte '0']⟩,1),fun _ => 0,true,false⟩

theorem doubleEngine_fits : doubleEngine.Fits := ⟨f64_sound,.inr ⟨rfl,by decide⟩⟩

theorem hexConv_given (prec : List (Fin 10)) {x : Nat} (hp : ((hexConv prec).asked lp64 [.double x]).digits.getD 0 < 2 ^ 31)
    (hx : f64.Finite x) : (hexConv prec).GivenFloat lp64 f64 [.double x] := by
  refine ⟨⟨fun k e hk => ?_,show 0 < 2 ^ 31 by decide,hp⟩,by decide,rfl,hx⟩
  cases k with
  | zero =>
    obtain rfl := Option.some.inj hk
    exact ⟨.double x,rfl,rfl⟩
  | succ k => cases hk

theorem hex_text_three : (hexConv [3]).HexPrints lp64 doubleEngine noFloats [.double 0x3ff8000000000000] := by
  refine (hex_text_iff lp64_full doubleEngine_fits (by decide) (hexConv_given [3] (by decide) (by unfold DtoxKind.Finite; decide))).mpr
    ⟨by decide,?_⟩
  have hexp : doubleEngine.kind.exponent ((hexConv [3]).value [.double 0x3ff8000000000000]).toNat = 0 := by decide
  rw [hexp]
  simp
  decide

theorem stored_digits_short : ¬(hexConv [1,4]).HexPrints lp64 doubleEngine noFloats [.double 0x3ff0000000000000] ∧
    (format lp64 (floatText doubleEngine lp64 noFloats) (render [.conv (hexConv [1,4])]) [.double 0x3ff0000000000000]).map
      Output.text = .ok ("0x1.0000000000000p+0".toList.map byte) :=
  ⟨hex_short lp64_full doubleEngine_fits (by decide)
    (hexConv_given [1,4] (by decide) (by unfold DtoxKind.Finite; decide)) (by decide),by decide⟩

end Printf
