import Mathlib
import Picolibc.Printf.Vfprintf

namespace Printf

def positional (base val : Nat) : List Nat := if val = 0 then [0] else Nat.digits base val

theorem ultoaLoop_digits {base n val : Nat} (hb : 2 ≤ base % 32) (hn : 0 < n) (hv : val < 2 ^ n) :
    ultoaLoop base n val = (positional (base % 32) val).map (ultoaDigit base) := by
  induction n generalizing val with
  | zero => exact absurd hn (Nat.lt_irrefl 0)
  | succ n ih =>
    have hdiv : val / (base % 32) < 2 ^ n := by
      refine Nat.div_lt_of_lt_mul (hv.trans_le ?_)
      rw [pow_succ,Nat.mul_comm]
      exact Nat.mul_le_mul_right _ hb
    rw [ultoaLoop,positional]
    by_cases hzero : val / (base % 32) = 0
    · have hlt : val < base % 32 := (Nat.div_eq_zero_iff_lt (by omega)).mp hzero
      rw [if_pos hzero,Nat.mod_eq_of_lt hlt]
      by_cases hval : val = 0
      · simp [hval]
      · rw [if_neg hval,Nat.digits_of_lt _ _ hval hlt]
        rfl
    · have hval : val ≠ 0 := by
        rintro rfl
        exact hzero (Nat.zero_div _)
      have hpos : 0 < n := by
        rcases Nat.eq_zero_or_pos n with rfl | hpos
        · exact absurd (Nat.lt_one_iff.mp hdiv) hzero
        · exact hpos
      rw [if_neg hzero,if_neg hval,ih hpos hdiv,positional,if_neg hzero,
        Nat.digits_def' (by omega) (Nat.pos_of_ne_zero hval),List.map_cons]

structure Build.Target (b : Build) : Prop where
  char_le : 8 ≤ b.shortBits
  short_le : b.shortBits ≤ b.intBits
  int_le : b.intBits ≤ b.longBits
  long_le : b.longBits ≤ b.llongBits

section

variable {b : Build}

theorem ultoaBits_ge (hb : b.Target) : b.longBits ≤ ultoaBits b := by
  unfold ultoaBits
  split_ifs
  · exact hb.long_le
  · exact le_rfl

theorem ultoaInvert_digits (hb : b.Target) {base val : Nat} (hbase : 2 ≤ base % 32) (hv : val < 2 ^ ultoaBits b) :
    ultoaInvert b val base = (positional (base % 32) val).map (ultoaDigit base) := by
  have h := ultoaBits_ge hb
  have h₁ := hb.char_le
  have h₂ := hb.short_le
  have h₃ := hb.int_le
  exact ultoaLoop_digits hbase (by omega) hv

theorem wrapS_range {w : Nat} (hw : 0 < w) (v : Int) : -2 ^ (w - 1) ≤ wrapS w v ∧ wrapS w v < 2 ^ (w - 1) := by
  have hpow : (2 : Nat) ^ w = 2 * 2 ^ (w - 1) := by
    rw [← pow_succ']
    congr 1
    omega
  have hpos : 0 < (2 : Nat) ^ w := Nat.two_pow_pos w
  have hlo := Int.le_bmod (x := v) hpos
  have hhi := Int.bmod_lt (x := v) hpos
  rw [hpow] at hlo hhi
  unfold wrapS
  rw [hpow]
  push_cast at hlo hhi ⊢
  constructor <;> omega

theorem wrapS_self {w : Nat} (hw : 0 < w) {v : Int} (h : -2 ^ (w - 1) ≤ v ∧ v < 2 ^ (w - 1)) : wrapS w v = v := by
  have hpow : (2 : Nat) ^ w = 2 * 2 ^ (w - 1) := by
    rw [← pow_succ']
    congr 1
    omega
  unfold wrapS
  rw [hpow]
  refine Int.bmod_eq_of_le ?_ ?_ <;> push_cast <;> omega

theorem wrapU_self {w : Nat} {v : Nat} (h : v < 2 ^ w) : wrapU w v = v := by
  unfold wrapU
  have hlt : (v : Int) < 2 ^ w := by exact_mod_cast h
  rw [Int.emod_eq_of_lt (by omega) hlt]
  rfl

theorem wrapU_lt (w : Nat) (v : Int) : wrapU w v < 2 ^ w := by
  unfold wrapU
  have hpos : (0 : Int) < 2 ^ w := by positivity
  have hlt := Int.emod_lt_of_pos v hpos
  have hge := Int.emod_nonneg v (ne_of_gt hpos)
  have : ((v % 2 ^ w).toNat : Int) < ((2 ^ w : Nat) : Int) := by
    rw [Int.toNat_of_nonneg hge]
    exact_mod_cast hlt
  exact_mod_cast this

theorem wrapU_congr {w : Nat} {x y : Int} (h : x ≡ y [ZMOD 2 ^ w]) : wrapU w x = wrapU w y :=
  congrArg Int.toNat h

theorem wrapU_modEq (w : Nat) (x : Int) : (wrapU w x : Int) ≡ x [ZMOD 2 ^ w] := by
  have hge : 0 ≤ x % 2 ^ w := Int.emod_nonneg x (by positivity)
  rw [wrapU,Int.toNat_of_nonneg hge]
  exact Int.mod_modEq x (2 ^ w)

theorem wrapS_modEq (w : Nat) (x : Int) : wrapS w x ≡ x [ZMOD 2 ^ w] := by
  have h := Int.bmod_emod (x := x) (m := 2 ^ w)
  rw [Int.ModEq,wrapS]
  exact_mod_cast h

theorem natAbs_lt {w : Nat} (hw : 0 < w) {x : Int} (h : -2 ^ (w - 1) ≤ x ∧ x < 2 ^ (w - 1)) : x.natAbs < 2 ^ w := by
  have hpow : (2 : Int) ^ w = 2 * 2 ^ (w - 1) := by
    rw [← pow_succ']
    congr 1
    omega
  have hint : (x.natAbs : Int) < ((2 ^ w : Nat) : Int) := by
    rw [Nat.cast_pow,Nat.cast_ofNat,hpow]
    omega
  exact_mod_cast hint

theorem magnitude {w : Nat} (hw : 0 < w) {x : Int} (h : -2 ^ (w - 1) ≤ x ∧ x < 2 ^ (w - 1)) :
    wrapU w (if x < 0 then wrapS w (wrapU w (-wrapU w x)) else x) = x.natAbs := by
  have hlt := natAbs_lt hw h
  by_cases hneg : x < 0
  · have hcongr : wrapS w (wrapU w (-wrapU w x)) ≡ (x.natAbs : Int) [ZMOD 2 ^ w] := by
      have habs : (x.natAbs : Int) = -x := by omega
      rw [habs]
      exact ((wrapS_modEq w _).trans (wrapU_modEq w _)).trans (wrapU_modEq w x).neg
    rw [if_pos hneg,wrapU_congr hcongr,wrapU_self hlt]
  · have habs : x = (x.natAbs : Int) := by omega
    rw [if_neg hneg]
    conv_lhs => rw [habs]
    exact wrapU_self hlt

theorem wrapS_mono {w u : Nat} (hw : 0 < w) (hu : w ≤ u) (v : Int) :
    -2 ^ (u - 1) ≤ wrapS w v ∧ wrapS w v < 2 ^ (u - 1) := by
  obtain ⟨hlo,hhi⟩ := wrapS_range hw v
  have hle : (2 : Int) ^ (w - 1) ≤ 2 ^ (u - 1) := by
    exact_mod_cast Nat.pow_le_pow_right (by decide) (Nat.sub_le_sub_right hu 1)
  constructor <;> omega

theorem argToSigned_range (hb : b.Target) (f : Flags) (v : Int) :
    -2 ^ (ultoaBits b - 1) ≤ argToSigned b f v ∧ argToSigned b f v < 2 ^ (ultoaBits b - 1) := by
  have h := ultoaBits_ge hb
  have h₁ := hb.char_le
  have h₂ := hb.short_le
  have h₃ := hb.int_le
  unfold argToSigned
  split_ifs
  · exact wrapS_range (by omega) _
  · exact wrapS_mono (by omega) h v
  · exact wrapS_mono (by omega) (by omega) _
  · exact wrapS_mono (by omega) (by omega) _
  · exact wrapS_mono (by omega) (by omega) v

theorem wrapU_mono {w u : Nat} (hu : w ≤ u) (v : Int) : wrapU w v < 2 ^ u :=
  (wrapU_lt w v).trans_le (Nat.pow_le_pow_right (by decide) hu)

theorem argToUnsigned_lt (hb : b.Target) (f : Flags) (v : Int) : argToUnsigned b f v < 2 ^ ultoaBits b := by
  have h := ultoaBits_ge hb
  have h₁ := hb.char_le
  have h₂ := hb.short_le
  have h₃ := hb.int_le
  unfold argToUnsigned
  split_ifs
  · exact wrapU_lt _ _
  · exact wrapU_mono h v
  · exact wrapU_mono (by omega) _
  · exact wrapU_mono (by omega) _
  · exact wrapU_mono (by omega) v

end

end Printf
