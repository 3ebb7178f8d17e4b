import Mathlib
import Picolibc.Time.Limits

namespace Time

open Checked Gregorian

structure Tm.Ints (T : Target) (tm : Tm) : Prop where
  sec : Fits T.intBits tm.sec
  min : Fits T.intBits tm.min
  hour : Fits T.intBits tm.hour
  mday : Fits T.intBits tm.mday
  mon : Fits T.intBits tm.mon
  year : Fits T.intBits tm.year

def Tm.mins (tm : Tm) : Int := tm.min + tm.sec / 60

def Tm.hours (tm : Tm) : Int := tm.hour + tm.mins / 60

def Tm.days (tm : Tm) : Int := tm.mday + tm.hours / 24

def Tm.instant (tm : Tm) : Int :=
  dayNumber (tm.year + tm.mon / 12 + 1900) (tm.mon % 12).toNat tm.mday * 86400 + (tm.hour * 3600 + tm.min * 60 + tm.sec)

structure Tm.CarriesFit (T : Target) (tm : Tm) : Prop where
  mins : Fits T.intBits tm.mins
  hours : Fits T.intBits tm.hours
  days : Fits T.intBits tm.days

structure Months.Good (year : Int) (s : Months) : Prop where
  low : 0 ≤ s.mon
  high : s.mon < 12
  feb : s.daysInFeb = if isleap (year + s.yearOff + 1900) ≠ 0 then 29 else 28

def Months.day (year : Int) (s : Months) : Int := dayNumber (year + s.yearOff + 1900) s.mon.toNat s.mday

theorem dayNumber_mday (y : Int) (m : Nat) (d e : Int) : dayNumber y m (d + e) = dayNumber y m d + e := by
  unfold dayNumber
  omega

theorem dayNumber_next (y : Int) (m : Nat) (d : Int) : dayNumber y (m + 1) d = dayNumber y m (d + monthLength y m) := by
  unfold dayNumber
  rw [monthStart]
  omega

theorem dayNumber_newYear (y d : Int) : dayNumber (y + 1) 0 d = dayNumber y 11 (d + monthLength y 11) := by
  have hyear := monthStart_year y
  have hsucc := yearStart_succ y
  rw [monthStart] at hyear
  unfold dayNumber
  rw [show monthStart (y + 1) 0 = 0 from rfl]
  omega

theorem trunc_floor {x n : Int} (hn : 0 < n) :
    (0 ≤ x.tmod n → x / n = x.tdiv n ∧ x % n = x.tmod n) ∧
      (x.tmod n < 0 → x / n = x.tdiv n - 1 ∧ x % n = x.tmod n + n ∧ x.tdiv n ≤ 0) := by
  obtain ⟨hsum,hlow,hhigh,hpos,-⟩ := @trunc_split x n hn
  constructor
  · intro hr
    have hd : x / n = x.tdiv n := by
      rw [Int.ediv_eq_iff_of_pos hn]
      omega
    rw [Int.emod_def,hd,Int.mul_comm]
    omega
  · intro hr
    have hd : x / n = x.tdiv n - 1 := by
      rw [Int.ediv_eq_iff_of_pos hn,Int.sub_mul]
      omega
    have hq : x.tdiv n ≤ 0 := by
      have hx : x < 0 := not_le.mp fun h => absurd (hpos h) (not_le.mpr hr)
      have htrunc := (trunc_neg n hx.le).1
      have hquot := Int.ediv_nonneg (show 0 ≤ -x by omega) hn.le
      omega
    rw [Int.emod_def,hd,Int.mul_sub,Int.mul_comm]
    omega

section

variable {T : Target} (hT : T.Valid)

include hT

theorem int_width : 32768 ≤ (2 : Int) ^ (T.intBits - 1) :=
  pow_le (show 15 ≤ T.intBits - 1 by have := hT.int; omega)

theorem carry_eq {n x next : Int} (hn : 0 < n) (hn' : n ≤ 60) (hnext : Fits T.intBits next) :
    carry T n x next = if Fits T.intBits (next + x / n) then some (x % n,next + x / n) else none := by
  obtain ⟨-,hlow,hhigh,-⟩ := @trunc_split x n hn
  obtain ⟨hwhole,hpart⟩ := @trunc_floor x n hn
  unfold carry
  by_cases hin : 0 ≤ x ∧ x < n
  · have hd : x / n = 0 := Int.ediv_eq_zero_of_lt hin.1 hin.2
    have hm : x % n = x := Int.emod_eq_of_lt hin.1 hin.2
    rw [if_neg (by omega),hd,hm,Int.add_zero,if_pos hnext]
    rfl
  rw [if_pos (by omega)]
  simp only [Option.bind_eq_bind,Option.pure_def]
  by_cases hr : x.tmod n < 0
  · obtain ⟨hd,hm,hq⟩ := hpart hr
    have hshort := hT.int_short (show -32768 ≤ x.tmod n + n by omega) (by omega)
    simp only [if_pos hr,hshort,Option.bind_some]
    rw [hd,hm,← Int.add_sub_assoc]
    by_cases hfit : Fits T.intBits (next + x.tdiv n - 1)
    · have hquot : Fits T.intBits (next + x.tdiv n) := by
        unfold Fits at hnext hfit ⊢
        omega
      rw [if_pos hfit,Target.int,signed_fits hquot,Option.bind_some,Target.int,signed_fits hfit,Option.bind_some]
    · rw [if_neg hfit]
      cases hquot : T.int (next + x.tdiv n) with
      | none => rfl
      | some v =>
        obtain rfl := signed_some hquot
        rw [Option.bind_some,Target.int,signed,if_neg hfit]
        rfl
  · obtain ⟨hd,hm⟩ := hwhole (not_lt.mp hr)
    simp only [if_neg hr]
    rw [hd,hm,Target.int,signed]
    split_ifs with hfit
    · rfl
    · rfl

omit hT in
theorem isleap2_eq (y : Int) {off : Int} (hlow : Fits T.intBits (off - 400)) (hhigh : Fits T.intBits (off + 400)) :
    isleap2 T y off = some (isleap (y + off)) := by
  obtain ⟨hsum,h1,h2,-⟩ := @trunc_split y 400 (by decide)
  have hfit : Fits T.intBits (y.tmod 400 + off) := by
    unfold Fits at hlow hhigh ⊢
    omega
  unfold isleap2
  split_ifs with hzero
  · have hl : leap (y.tmod 400 + off) = leap (y + off) := by
      rw [show y + off = y.tmod 400 + off + 400 * y.tdiv 400 by omega,leap_add]
    rw [Target.int,signed_fits hfit]
    simp only [Option.bind_eq_bind,Option.bind_some,Option.pure_def,isleap_eq,hl]
  · rw [not_not.mp hzero,Int.add_zero]
    rfl

omit hT in
theorem turnYear_eq (year : Int) (s : Months) (mon : Int) {off : Int} (hlow : Fits T.intBits (off - 400))
    (hhigh : Fits T.intBits (off + 2300)) : turnYear T year s mon off =
      some { s with mon := mon, yearOff := off, daysInFeb := if isleap (year + off + 1900) ≠ 0 then 29 else 28 } := by
  have hoff : Fits T.intBits off := by
    unfold Fits at *
    omega
  have hbase : Fits T.intBits (off + 1900) := by
    unfold Fits at *
    omega
  rw [turnYear,Target.int,signed_fits hoff]
  simp only [Option.bind_eq_bind,Option.bind_some,Option.pure_def]
  rw [Target.int,yearBase,signed_fits hbase,Option.bind_some,isleap2_eq year _ _,Option.bind_some,Int.add_assoc]
  · unfold Fits at *
    omega
  · unfold Fits at *
    omega

omit hT in
theorem good_length {year : Int} {s : Months} (h : s.Good year) :
    daysInMonth s.daysInFeb s.mon = monthLength (year + s.yearOff + 1900) s.mon.toNat := by
  have hmon : s.mon = (s.mon.toNat : Int) := by
    have := h.low
    omega
  rw [h.feb,hmon,daysInMonth_eq _ (by have := h.high; omega),Int.toNat_natCast]

def Months.Settled (year : Int) (s s' : Months) : Prop :=
  s'.Good year ∧ Date (year + s'.yearOff + 1900) s'.mon.toNat s'.mday ∧ s'.day year = s.day year

theorem foreMonths_eq {year : Int} (n : Nat) {s : Months} (h : s.Good year) (hpos : 1 ≤ s.mday) (hfuel : s.mday ≤ n)
    (hfit : Fits T.intBits s.mday) (hlow : 2400 - 2 ^ (T.intBits - 1) ≤ s.yearOff)
    (hhigh : 28 * s.yearOff + s.mday ≤ 28 * (2 ^ (T.intBits - 1) - 2400)) :
    ∃ s', foreMonths T year n s = some s' ∧ Months.Settled year s s' := by
  induction n generalizing s with
  | zero => omega
  | succ n ih =>
    have hlen := good_length h
    have hrange := monthLength_pos (year + s.yearOff + 1900) s.mon.toNat
    have hwide := int_width hT
    obtain ⟨hmlow,hmhigh,hfeb⟩ := h
    rw [foreMonths,hlen]
    split_ifs with hlt
    · have hmday : Fits T.intBits (s.mday - monthLength (year + s.yearOff + 1900) s.mon.toNat) := by
        unfold Fits at hfit ⊢
        omega
      rw [Target.int,signed_fits hmday]
      simp only [Option.bind_eq_bind,Option.bind_some]
      rw [hT.int_short (by omega) (by omega),Option.bind_some]
      by_cases hyear : s.mon + 1 = 12
      · have hdec : s.mon.toNat = 11 := by omega
        rw [hdec] at hmday hlt hrange ⊢
        have hturn := @turnYear_eq T year { s with mday := s.mday - monthLength (year + s.yearOff + 1900) 11 } 0
          (s.yearOff + 1) (by unfold Fits; omega) (by unfold Fits; omega)
        rw [if_pos hyear,hturn,Option.bind_some]
        obtain ⟨s',hrun,hgood,hdate,hday⟩ := @ih { s with
            mon := 0, yearOff := s.yearOff + 1, mday := s.mday - monthLength (year + s.yearOff + 1900) 11
            daysInFeb := if isleap (year + (s.yearOff + 1) + 1900) ≠ 0 then 29 else 28 }
          ⟨le_refl _,by dsimp only; omega,rfl⟩ (by dsimp only; omega) (by dsimp only; omega) hmday (by dsimp only; omega)
          (by dsimp only; omega)
        refine ⟨s',hrun,hgood,hdate,hday.trans ?_⟩
        show dayNumber (year + (s.yearOff + 1) + 1900) 0 _ = dayNumber (year + s.yearOff + 1900) s.mon.toNat s.mday
        rw [hdec,show year + (s.yearOff + 1) + 1900 = year + s.yearOff + 1900 + 1 by omega,dayNumber_newYear,
          Int.sub_add_cancel]
      · rw [if_neg hyear,Option.pure_def,Option.bind_some]
        have hnat : (s.mon + 1).toNat = s.mon.toNat + 1 := by omega
        obtain ⟨s',hrun,hgood,hdate,hday⟩ := @ih { s with
            mon := s.mon + 1, mday := s.mday - monthLength (year + s.yearOff + 1900) s.mon.toNat }
          ⟨by dsimp only; omega,by dsimp only; omega,hfeb⟩ (by dsimp only; omega) (by dsimp only; omega) hmday hlow
          (by dsimp only; omega)
        refine ⟨s',hrun,hgood,hdate,hday.trans ?_⟩
        show dayNumber (year + s.yearOff + 1900) (s.mon + 1).toNat _ = dayNumber (year + s.yearOff + 1900) s.mon.toNat s.mday
        rw [hnat,dayNumber_next,Int.sub_add_cancel]
    · exact ⟨s,rfl,⟨hmlow,hmhigh,hfeb⟩,⟨by omega,hpos,not_lt.mp hlt⟩,rfl⟩

theorem backMonths_eq {year : Int} (n : Nat) {s : Months} (h : s.Good year)
    (hle : s.mday ≤ monthLength (year + s.yearOff + 1900) s.mon.toNat) (hfuel : 0 < s.mday + n)
    (hfit : Fits T.intBits s.mday) (hhigh : s.yearOff ≤ 2 ^ (T.intBits - 1) - 2400)
    (hlow : 28 * (2400 - 2 ^ (T.intBits - 1)) ≤ 28 * s.yearOff + s.mday) :
    ∃ s', backMonths T year n s = some s' ∧ Months.Settled year s s' := by
  induction n generalizing s with
  | zero => exact ⟨s,rfl,h,⟨by have := h.high; have := h.low; omega,by omega,hle⟩,rfl⟩
  | succ n ih =>
    have hwide := int_width hT
    obtain ⟨hmlow,hmhigh,hfeb⟩ := h
    rw [backMonths]
    split_ifs with hneg
    · simp only [Option.bind_eq_bind]
      rw [hT.int_short (by omega) (by omega),Option.bind_some]
      by_cases hyear : s.mon - 1 = -1
      · have hjan : s.mon.toNat = 0 := by omega
        have hturn := @turnYear_eq T year s 11 (s.yearOff - 1) (by unfold Fits; omega) (by unfold Fits; omega)
        have hgood : Months.Good year { s with
            mon := 11, yearOff := s.yearOff - 1
            daysInFeb := if isleap (year + (s.yearOff - 1) + 1900) ≠ 0 then 29 else 28 } := ⟨by dsimp only; omega,by dsimp only; omega,rfl⟩
        have hlen : daysInMonth _ 11 = monthLength (year + (s.yearOff - 1) + 1900) 11 := good_length hgood
        have hrange := monthLength_pos (year + (s.yearOff - 1) + 1900) 11
        have hmday : Fits T.intBits (s.mday + monthLength (year + (s.yearOff - 1) + 1900) 11) := by
          unfold Fits at hfit ⊢
          omega
        dsimp only at hlen
        rw [if_pos hyear,hturn,Option.bind_some]
        dsimp only
        rw [hlen,Target.int,signed_fits hmday,Option.bind_some]
        obtain ⟨s',hrun,hgood,hdate,hday⟩ := @ih { s with
            mon := 11, yearOff := s.yearOff - 1, mday := s.mday + monthLength (year + (s.yearOff - 1) + 1900) 11
            daysInFeb := if isleap (year + (s.yearOff - 1) + 1900) ≠ 0 then 29 else 28 }
          ⟨hgood.low,hgood.high,rfl⟩ (show _ ≤ monthLength (year + (s.yearOff - 1) + 1900) 11 by dsimp only; omega)
          (by dsimp only; omega) hmday (by dsimp only; omega) (by dsimp only; omega)
        refine ⟨s',hrun,hgood,hdate,hday.trans ?_⟩
        show dayNumber (year + (s.yearOff - 1) + 1900) 11 _ = dayNumber (year + s.yearOff + 1900) s.mon.toNat s.mday
        rw [hjan,show year + s.yearOff + 1900 = year + (s.yearOff - 1) + 1900 + 1 by omega,dayNumber_newYear]
      · have hgood : Months.Good year { s with mon := s.mon - 1 } := ⟨by dsimp only; omega,by dsimp only; omega,hfeb⟩
        have hlen := good_length hgood
        have hrange := monthLength_pos (year + s.yearOff + 1900) (s.mon - 1).toNat
        have hmday : Fits T.intBits (s.mday + monthLength (year + s.yearOff + 1900) (s.mon - 1).toNat) := by
          unfold Fits at hfit ⊢
          omega
        have hnat : s.mon.toNat = (s.mon - 1).toNat + 1 := by omega
        dsimp only at hlen
        rw [if_neg hyear,Option.pure_def,Option.bind_some]
        dsimp only
        rw [hlen,Target.int,signed_fits hmday,Option.bind_some]
        obtain ⟨s',hrun,hgood,hdate,hday⟩ := @ih { s with
            mon := s.mon - 1, mday := s.mday + monthLength (year + s.yearOff + 1900) (s.mon - 1).toNat }
          ⟨hgood.low,hgood.high,hfeb⟩ (by dsimp only; omega) (by dsimp only; omega) hmday hhigh (by dsimp only; omega)
        refine ⟨s',hrun,hgood,hdate,hday.trans ?_⟩
        show dayNumber (year + s.yearOff + 1900) (s.mon - 1).toNat _ = dayNumber (year + s.yearOff + 1900) s.mon.toNat s.mday
        rw [hnat,dayNumber_next]
    · exact ⟨s,rfl,⟨hmlow,hmhigh,hfeb⟩,⟨by omega,by omega,hle⟩,rfl⟩

theorem clock_carries {tm : Tm} (h : tm.Ints T) :
    carry T 60 tm.sec tm.min = (if Fits T.intBits tm.mins then some (tm.sec % 60,tm.mins) else none) ∧
      carry T 60 tm.mins tm.hour = (if Fits T.intBits tm.hours then some (tm.mins % 60,tm.hours) else none) ∧
        carry T 24 tm.hours tm.mday = if Fits T.intBits tm.days then some (tm.hours % 24,tm.days) else none :=
  ⟨carry_eq hT (by decide) (by decide) h.min,carry_eq hT (by decide) (by decide) h.hour,
    carry_eq hT (by decide) (by decide) h.mday⟩

theorem months_settle {tm : Tm} (h : tm.Ints T) (hdays : Fits T.intBits tm.days) {feb : Int}
    (hfeb : feb = if isleap (tm.year + tm.mon / 12 + 1900) ≠ 0 then 29 else 28) :
    ∃ s', (if tm.days ≤ 0 then backMonths T tm.year (tm.days.natAbs + 1) ⟨tm.mon % 12,tm.days,tm.mon / 12,feb⟩
      else foreMonths T tm.year tm.days.natAbs ⟨tm.mon % 12,tm.days,tm.mon / 12,feb⟩) = some s' ∧
        Months.Settled tm.year ⟨tm.mon % 12,tm.days,tm.mon / 12,feb⟩ s' := by
  have hwide := int_width hT
  have hmon := h.mon
  have hgood : Months.Good tm.year ⟨tm.mon % 12,tm.days,tm.mon / 12,feb⟩ := ⟨by dsimp only; omega,by dsimp only; omega,hfeb⟩
  have hlen := monthLength_pos (tm.year + tm.mon / 12 + 1900) (tm.mon % 12).toNat
  have hdays' := hdays
  unfold Fits at hmon hdays'
  split_ifs with hneg
  · exact backMonths_eq hT _ hgood (by dsimp only; omega) (by dsimp only; omega) hdays (by dsimp only; omega)
      (by dsimp only; omega)
  · exact foreMonths_eq hT _ hgood (by dsimp only; omega) (by dsimp only; omega) hdays (by dsimp only; omega)
      (by dsimp only; omega)

omit hT in
theorem settled_civil {tm : Tm} {feb : Int} {s' : Months}
    (h : Months.Settled tm.year ⟨tm.mon % 12,tm.days,tm.mon / 12,feb⟩ s') :
    civilTm tm.instant = ⟨tm.sec % 60,tm.mins % 60,tm.hours % 24,s'.mday,s'.mon,tm.year + s'.yearOff,
      (tm.instant / 86400 + 4) % 7,monthStart (tm.year + s'.yearOff + 1900) s'.mon.toNat + (s'.mday - 1),0⟩ := by
  obtain ⟨hgood,hdate,hday⟩ := h
  have hstart : Months.day tm.year ⟨tm.mon % 12,tm.days,tm.mon / 12,feb⟩ =
      dayNumber (tm.year + tm.mon / 12 + 1900) (tm.mon % 12).toNat tm.mday + tm.hours / 24 := by
    rw [← dayNumber_mday]
    rfl
  have hsec : tm.mins = tm.min + tm.sec / 60 := rfl
  have hmin : tm.hours = tm.hour + tm.mins / 60 := rfl
  refine (civilTm_brokenDown tm.instant).unique ⟨⟨by dsimp only; omega,by dsimp only; omega,by dsimp only; omega,hgood.low,hdate⟩,
    ?_,rfl,rfl,rfl⟩
  show dayNumber (tm.year + s'.yearOff + 1900) s'.mon.toNat s'.mday * 86400 +
    (tm.hours % 24 * 3600 + tm.mins % 60 * 60 + tm.sec % 60) = tm.instant
  rw [show dayNumber (tm.year + s'.yearOff + 1900) s'.mon.toNat s'.mday = _ from hday.trans hstart,Tm.instant]
  omega

theorem validateStructure_some {tm : Tm} (h : tm.Ints T) (hc : tm.CarriesFit T) :
    validateStructure T tm = some (decide (Fits T.intBits (civilTm tm.instant).year),{ civilTm tm.instant with
      year := T.toInt (civilTm tm.instant).year, wday := tm.wday, yday := tm.yday, isdst := tm.isdst }) := by
  have hwide := int_width hT
  have hmon := h.mon
  unfold Fits at hmon
  have hyear : Fits T.intBits (0 + tm.mon / 12) := by
    unfold Fits
    omega
  have hoff : Fits T.intBits (tm.mon / 12 + 1900) := by
    unfold Fits
    omega
  have hzero : Fits T.intBits 0 := fits_short hT.int (by decide) (by decide)
  obtain ⟨s',hrun,hsettled⟩ := months_settle hT h hc.days rfl
  have hcivil := settled_civil hsettled
  obtain ⟨h1,h2,h3⟩ := clock_carries hT h
  have h4 := @carry_eq T hT 12 tm.mon 0 (by decide) (by decide) hzero
  have hleap := @isleap2_eq T tm.year (tm.mon / 12 + 1900) (by unfold Fits; omega) (by unfold Fits; omega)
  rw [if_pos hc.mins] at h1
  rw [if_pos hc.hours] at h2
  rw [if_pos hc.days] at h3
  rw [if_pos hyear,Int.zero_add] at h4
  rw [← Int.add_assoc] at hleap
  rw [validateStructure,h1]
  simp only [Option.bind_eq_bind,Option.bind_some,Option.pure_def]
  rw [h2,Option.bind_some,h3,Option.bind_some,h4,Option.bind_some,yearBase,Target.int,signed_fits hoff,
    Option.bind_some,hleap,Option.bind_some,hcivil]
  dsimp only
  by_cases hneg : tm.days ≤ 0
  · rw [if_pos hneg] at hrun ⊢
    rw [hrun,Option.bind_some]
  · rw [if_neg hneg] at hrun ⊢
    rw [hrun,Option.bind_some]

theorem validateStructure_none {tm : Tm} (h : tm.Ints T) (hc : ¬tm.CarriesFit T) : validateStructure T tm = none := by
  obtain ⟨h1,h2,h3⟩ := clock_carries hT h
  rw [validateStructure]
  simp only [Option.bind_eq_bind,Option.pure_def]
  rw [h1]
  by_cases hmins : Fits T.intBits tm.mins
  · rw [if_pos hmins,Option.bind_some,h2]
    by_cases hhours : Fits T.intBits tm.hours
    · rw [if_pos hhours,Option.bind_some,h3,if_neg fun hdays => hc ⟨hmins,hhours,hdays⟩]
      rfl
    · rw [if_neg hhours]
      rfl
  · rw [if_neg hmins]
    rfl

end

end Time
