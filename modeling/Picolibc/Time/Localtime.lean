import Mathlib
import Picolibc.Time.Undo

namespace Time

open Checked Gregorian

def Shifted (T : Target) (tzenv : Option (List Char)) (z : Zone) (t : Int) : Prop :=
  ∃ tm z' utc, localtimeR T tzenv z t = some (some tm,z') ∧
    gmtimeR T (t - z'.info.offset tm.isdst) = some (some utc) ∧ tm = { utc with isdst := tm.isdst }

def LimitsDefined (T : Target) (tzenv : Option (List Char)) (z : Zone) (year : Int) : Prop :=
  ∃ z', tzset T tzenv z = some z' ∧ (z'.daylight = true → (z'.info.lookup T year).isSome)

theorem limitsDefined_iff {T : Target} {tzenv : Option (List Char)} {z : Zone} {year : Int} : LimitsDefined T tzenv z year ↔
    (tzset T tzenv z).any (fun z' => !z'.daylight || (z'.info.lookup T year).isSome) = true := by
  unfold LimitsDefined
  cases tzset T tzenv z with
  | none => simp
  | some z' => cases hd : z'.daylight <;> simp [hd]

section

variable {T : Target} {tzenv : Option (List Char)} {z z' : Zone}

theorem tzset_sameRules (h : tzset T tzenv z = some z') :
    SameRules z'.info ⟨false,0,(tzRules T tzenv).1,(tzRules T tzenv).2⟩ := by
  simp only [tzset,Option.bind_eq_bind,Option.bind_eq_some_iff,Option.pure_def,Option.some.injEq] at h
  obtain ⟨⟨known,info⟩,hl,rfl⟩ := h
  rcases tzcalcLimits_cases hl with ⟨-,-,rfl⟩ | ⟨-,-,-,hr⟩
  · exact ⟨rfl,rfl⟩
  · exact hr

theorem lookup_sameRules {info info' : Tzinfo} {year : Int} {known : Bool} (h : info.lookup T year = some (known,info')) :
    SameRules info' info := by
  unfold Tzinfo.lookup at h
  split_ifs at h
  · cases h
    exact ⟨rfl,rfl⟩
  · rcases tzcalcLimits_cases h with ⟨-,-,rfl⟩ | ⟨-,-,-,hr⟩
    · exact ⟨rfl,rfl⟩
    · exact hr

theorem localDst_isSome (t year : Int) :
    (localDst T z t year).isSome ↔ (z.daylight = true → (z.info.lookup T year).isSome) := by
  unfold localDst
  split_ifs with hd
  · simp only [hd,Option.bind_eq_bind,Option.pure_def,forall_const]
    cases z.info.lookup T year <;> simp
  · simp [hd]

theorem localDst_sameRules {t year isdst : Int} {info : Tzinfo} (h : localDst T z t year = some (isdst,info)) :
    SameRules info z.info := by
  unfold localDst at h
  split_ifs at h
  · simp only [Option.bind_eq_bind,Option.bind_eq_some_iff,Option.pure_def] at h
    obtain ⟨⟨known,info'⟩,hl,heq⟩ := h
    cases heq
    exact lookup_sameRules hl
  · cases h
    exact ⟨rfl,rfl⟩

end

theorem offset_range {info : Tzinfo} {lo hi : Int} (h0 : lo ≤ info.rule0.offset ∧ info.rule0.offset ≤ hi)
    (h1 : lo ≤ info.rule1.offset ∧ info.rule1.offset ≤ hi) (i : Int) : lo ≤ info.offset i ∧ info.offset i ≤ hi := by
  unfold Tzinfo.offset
  split_ifs
  · exact h1
  · exact h0

theorem civil_near {T : Target} (hT : T.Valid) {t off : Int} (h1 : -86400 ≤ off) (h2 : off ≤ 86400)
    (hlow : Fits T.intBits ((civilTm t).year - 1)) (hhigh : Fits T.intBits ((civilTm t).year + 1)) :
    gmtimeR T (t - off) = some (some (civilTm (t - off))) := by
  have hy := (inYear_iff t ((civilTm t).year + 1900)).mpr rfl
  have hy' := (inYear_iff (t - off) ((civilTm (t - off)).year + 1900)).mpr rfl
  have hnear := inYear_near hy hy' (by omega) (by omega)
  have hf : Fits T.intBits (civilTm (t - off)).year := by
    unfold Fits at hlow hhigh ⊢
    omega
  have hl : Fits T.intBits (civilTm t).year := by
    unfold Fits at hlow hhigh ⊢
    omega
  have hrange := civil_range hT hl
  have hfits : Fits 64 (t - off) := by
    unfold Fits
    omega
  rw [gmtimeR_eq hT hfits,if_pos hf]

theorem localtime_civil {T : Target} (hT : T.Valid) {tzenv : Option (List Char)} {z w : Zone} (hw : tzset T tzenv z = some w)
    {t i : Int} {info : Tzinfo} (ht : Fits 64 t) (hoff : -86400 ≤ info.offset i ∧ info.offset i ≤ 86400)
    (hlow : Fits T.intBits ((civilTm t).year - 1)) (hfit : Fits T.intBits ((civilTm t).year + 1900))
    (hdst : localDst T w t ((civilTm t).year + 1900) = some (i,info)) : localtimeR T tzenv z t =
      some (some { civilTm (t - info.offset i) with isdst := i },{ w with info := info }) := by
  have hyear : Fits T.intBits (civilTm t).year := by
    unfold Fits at *
    omega
  rw [localtimeR,gmtimeR_eq hT ht,if_pos hyear]
  simp only [Option.bind_eq_bind,Option.bind_some]
  rw [yearBase,Target.int,signed_fits hfit,Option.bind_some,hw,Option.bind_some,hdst,Option.bind_some,
    shiftTm_civilTm hT hoff.1 hoff.2 (signed_fits hlow) i]
  rfl

theorem localtime_shifts {T : Target} (hT : T.Valid) {tzenv : Option (List Char)}
    (h0 : -86400 ≤ (tzRules T tzenv).1.offset ∧ (tzRules T tzenv).1.offset ≤ 86400)
    (h1 : -86400 ≤ (tzRules T tzenv).2.offset ∧ (tzRules T tzenv).2.offset ≤ 86400) (z : Zone) {t : Int} (ht : Fits 64 t)
    {utc : Tm} (hgm : gmtimeR T t = some (some utc)) (hlow : Fits T.intBits (utc.year - 1))
    (hhigh : Fits T.intBits (utc.year + 1)) :
    Shifted T tzenv z t ↔ Fits T.intBits (utc.year + 1900) ∧ LimitsDefined T tzenv z (utc.year + 1900) := by
  have hcivil : utc = civilTm t := by
    rw [gmtimeR_eq hT ht] at hgm
    split_ifs at hgm
    · exact (Option.some.inj (Option.some.inj hgm)).symm
    · exact absurd (Option.some.inj hgm) (by simp)
  subst hcivil
  constructor
  · rintro ⟨tm,z',utc,hl,-,-⟩
    simp only [localtimeR,hgm,Option.bind_eq_bind,Option.bind_some,Option.bind_eq_some_iff,Option.pure_def] at hl
    obtain ⟨year,hyear,w,hw,⟨i,info⟩,hdst,-⟩ := hl
    have hfit : Fits T.intBits ((civilTm t).year + 1900) := by
      by_contra hno
      rw [yearBase,Target.int,signed,if_neg hno] at hyear
      exact absurd hyear (by simp)
    obtain rfl := signed_some hyear
    exact ⟨hfit,w,hw,(localDst_isSome t _).mp (by rw [← yearBase,hdst]; rfl)⟩
  · rintro ⟨hfit,w,hw,hdef⟩
    obtain ⟨⟨i,info⟩,hdst⟩ := Option.isSome_iff_exists.mp ((localDst_isSome t _).mpr hdef)
    have hoff : info.offset = Tzinfo.offset ⟨false,0,(tzRules T tzenv).1,(tzRules T tzenv).2⟩ :=
      (localDst_sameRules hdst).offset.trans (tzset_sameRules hw).offset
    obtain ⟨hlo,hhi⟩ := @offset_range ⟨false,0,(tzRules T tzenv).1,(tzRules T tzenv).2⟩ _ _ h0 h1 i
    rw [← hoff] at hlo hhi
    exact ⟨{ civilTm (t - info.offset i) with isdst := i },{ w with info := info },_,
      localtime_civil hT hw ht ⟨hlo,hhi⟩ hlow hfit hdst,civil_near hT hlo hhi hlow hhigh,rfl⟩

theorem localtime_shifts_summer : Shifted lp64 julianTz .start 1720000000 := by
  have hgm : gmtimeR lp64 1720000000 = some (some ⟨40,46,9,3,6,124,3,184,0⟩) := by decide
  have hlim : LimitsDefined lp64 julianTz .start 2024 := limitsDefined_iff.mpr (by decide)
  exact (localtime_shifts lp64_valid (by rw [julianTz_rules]; decide) (by rw [julianTz_rules]; decide) .start (by decide)
    hgm (by decide) (by decide)).mpr ⟨by decide,hlim⟩

theorem localtime_undefined_far : gmtimeR lp64 189000000000000 = some (some ⟨0,0,0,31,6,5989241,4,211,0⟩) ∧
    localtimeR lp64 julianTz .start 189000000000000 = none ∧ ¬Shifted lp64 julianTz .start 189000000000000 := by
  have hgm : gmtimeR lp64 189000000000000 = some (some ⟨0,0,0,31,6,5989241,4,211,0⟩) := by decide
  have hnone : localtimeR lp64 julianTz .start 189000000000000 = none := by decide
  refine ⟨hgm,hnone,?_⟩
  rintro ⟨tm,z',utc,hl,-⟩
  rw [hnone] at hl
  exact absurd hl (by simp)

end Time
