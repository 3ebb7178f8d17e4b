import Mathlib
import Picolibc.Time.Gmtime

namespace Time

open Checked Gregorian

def monthLengths : List (List Int) :=
  [[31,28,31,30,31,30,31,31,30,31,30,31],[31,29,31,30,31,30,31,31,30,31,30,31]]

def monthLengthsAt (leap mon : Int) : Int := (monthLengths.getD leap.toNat []).getD mon.toNat 0

def daysBeforeMonth : List Int := [0,31,59,90,120,151,181,212,243,273,304,334]

def daysInMonth (daysInFeb mon : Int) : Int := if mon = 1 then daysInFeb else monthLengthsAt 0 mon

def daysInYear (T : Target) (year : Int) : Option Int := do
  let leap ← isleap2 T year yearBase
  pure (365 + leap)

def carry (T : Target) (n x next : Int) : Option (Int × Int) :=
  if x < 0 ∨ n - 1 < x then do
    let next ← T.int (next + x.tdiv n)
    if x.tmod n < 0 then do
      let x ← T.int (x.tmod n + n)
      let next ← T.int (next - 1)
      pure (x,next)
    else pure (x.tmod n,next)
  else pure (x,next)

structure Months where
  mon : Int
  mday : Int
  yearOff : Int
  daysInFeb : Int
  deriving DecidableEq, Repr

def turnYear (T : Target) (year : Int) (s : Months) (mon yearOff : Int) : Option Months := do
  let yearOff ← T.int yearOff
  let off ← T.int (yearOff + yearBase)
  let leap ← isleap2 T year off
  pure { s with mon := mon, yearOff := yearOff, daysInFeb := if leap ≠ 0 then 29 else 28 }

def backMonths (T : Target) (year : Int) : Nat → Months → Option Months
  | 0, s => some s
  | n + 1, s =>
    if s.mday ≤ 0 then do
      let mon ← T.int (s.mon - 1)
      let s ← if mon = -1 then turnYear T year s 11 (s.yearOff - 1) else pure { s with mon := mon }
      let mday ← T.int (s.mday + daysInMonth s.daysInFeb s.mon)
      backMonths T year n { s with mday := mday }
    else some s

def foreMonths (T : Target) (year : Int) : Nat → Months → Option Months
  | 0, s => some s
  | n + 1, s =>
    if daysInMonth s.daysInFeb s.mon < s.mday then do
      let mday ← T.int (s.mday - daysInMonth s.daysInFeb s.mon)
      let s := { s with mday := mday }
      let mon ← T.int (s.mon + 1)
      let s ← if mon = 12 then turnYear T year s 0 (s.yearOff + 1) else pure { s with mon := mon }
      foreMonths T year n s
    else some s

def validateStructure (T : Target) (tm : Tm) : Option (Bool × Tm) := do
  let (sec,min) ← carry T 60 tm.sec tm.min
  let (min,hour) ← carry T 60 min tm.hour
  let (hour,mday) ← carry T 24 hour tm.mday
  let (mon,yearOff) ← carry T 12 tm.mon 0
  let off ← T.int (yearOff + yearBase)
  let leap ← isleap2 T tm.year off
  let s : Months := ⟨mon,mday,yearOff,if leap ≠ 0 then 29 else 28⟩
  let s ← if mday ≤ 0 then backMonths T tm.year (mday.natAbs + 1) s
    else foreMonths T tm.year mday.natAbs s
  let year := tm.year + s.yearOff
  pure (decide (Fits T.intBits year),{ tm with
    sec := sec, min := min, hour := hour, mday := s.mday, mon := s.mon, year := T.toInt year })

def daysPerHcen : Int := 3652425

def addYearsIn (T : Target) (bits : Nat) : Nat → Int → Int → Option Int
  | 0, _, days => some days
  | n + 1, y, days => do
    let len ← daysInYear T (T.toInt y)
    let days ← signed bits (days + len)
    addYearsIn T bits n (y + 1) days

def subYearsIn (T : Target) (bits : Nat) : Nat → Int → Int → Option Int
  | 0, y, days => do
    let len ← daysInYear T (T.toInt y)
    signed bits (days - len)
  | n + 1, y, days => do
    let len ← daysInYear T (T.toInt y)
    let days ← signed bits (days - len)
    subYearsIn T bits n (y - 1) days

def hundredCentury (T : Target) (year : Int) : Int :=
  if 0 < year then year.tdiv 10000 else T.toInt (T.uint (-(T.uint (-T.uint year) / 10000)))

def yearDaysIn (T : Target) (bits : Nat) (year days : Int) : Option Int :=
  if 70 < year then addYearsIn T bits (year - 70).toNat 70 days
  else if year < 70 then subYearsIn T bits (69 - year).toNat 69 days
  else pure days

def secondsOfDay (T : Target) (tm : Tm) : Option Int := do
  let mins ← T.long (tm.min * secsPerMin)
  let hours ← T.long (tm.hour * secsPerHour)
  let secs ← T.long (tm.sec + mins)
  T.long (secs + hours)

def dayOfYear (T : Target) (tm : Tm) : Option Int := do
  let days ← T.int (tm.mday - 1)
  let days := days + daysBeforeMonth.getD tm.mon.toNat 0
  let leap ← isleap2 T tm.year yearBase
  pure (if 1 < tm.mon ∧ leap ≠ 0 then days + 1 else days)

def daysSinceEpochIn (T : Target) (bits : Nat) (year days : Int) : Option Int :=
  if 32 < bits then do
    let hcen := hundredCentury T year
    let span ← T.long (hcen * 10000)
    let year ← T.long (year - span)
    let whole ← signed bits (hcen * daysPerHcen)
    let days ← signed bits (days + whole)
    yearDaysIn T bits (T.toInt year) days
  else yearDaysIn T bits year days

def dayMaxIn (bits : Nat) : Int := (2 ^ (bits - 1) - 1 : Int).tdiv secsPerDay

def dayMinIn (bits : Nat) : Int := (-2 ^ (bits - 1) : Int).tdiv secsPerDay

structure Utc where
  tim : Int
  days : Int
  tm : Tm
  deriving DecidableEq, Repr

def mktimeUtcIn (T : Target) (bits : Nat) (tm : Tm) : Option (Utc × Bool) := do
  let (valid,tm) ← validateStructure T tm
  if valid = false then pure (⟨-1,0,tm⟩,true)
  else do
    let tim ← secondsOfDay T tm
    let yday ← dayOfYear T tm
    let tm := { tm with yday := T.toInt yday }
    let days ← daysSinceEpochIn T bits tm.year yday
    if days < dayMinIn bits ∨ dayMaxIn bits < days then pure (⟨-1,0,tm⟩,true)
    else do
      let daysecs ← signed bits (days * secsPerDay)
      let tim ← signed bits (tim + daysecs)
      if 0 < daysecs ∧ tim < 0 then pure (⟨-1,0,tm⟩,true)
      else pure (⟨tim,days,tm⟩,false)

def mktimeUtc (T : Target) (tm : Tm) : Option Utc := (mktimeUtcIn T 64 tm).map Prod.fst

def setTmWdayIn (T : Target) (bits : Nat) (days : Int) (tm : Tm) : Option Tm := do
  let days ← signed bits (days + 4)
  let wday := T.toInt (days.tmod 7)
  let wday ← if wday < 0 then T.int (wday + 7) else pure wday
  pure { tm with wday := wday }

def setTmWday (T : Target) (days : Int) (tm : Tm) : Option Tm := setTmWdayIn T 64 days tm

def timegmIn (T : Target) (bits : Nat) (tm : Tm) : Option ((Int × Tm) × Bool) := do
  let (u,eoverflow) ← mktimeUtcIn T bits tm
  if u.tim = -1 then pure ((u.tim,u.tm),eoverflow)
  else do
    let tm ← setTmWdayIn T bits u.days { u.tm with isdst := 0 }
    pure ((u.tim,tm),eoverflow)

def timegm (T : Target) (tm : Tm) : Option (Int × Tm) := (timegmIn T 64 tm).map Prod.fst

theorem daysInMonth_eq (y : Int) {m : Nat} (hm : m < 12) :
    daysInMonth (if isleap y ≠ 0 then 29 else 28) m = monthLength y m := by
  have hfeb : (if isleap y ≠ 0 then (29 : Int) else 28) = if leap y then 29 else 28 := by
    rw [isleap_eq]
    split_ifs <;> simp_all
  rw [hfeb]
  interval_cases m <;> rfl

theorem monthStart_table (y : Int) {m : Nat} (hm : m < 12) :
    (if 1 < (m : Int) ∧ isleap y ≠ 0 then daysBeforeMonth.getD m 0 + 1 else daysBeforeMonth.getD m 0) =
      monthStart y m := by
  rw [isleap_eq]
  interval_cases m <;> cases h : leap y <;> simp [monthStart,monthLength,daysBeforeMonth,h]

theorem carry_in (T : Target) {n x next : Int} (h1 : 0 ≤ x) (h2 : x < n) :
    carry T n x next = some (x,next) := by
  rw [carry,if_neg (by omega)]
  rfl

section

variable {T : Target} (hT : T.Valid) {bits : Nat}

include hT

theorem isleap2_base (y : Int) : isleap2 T y 1900 = some (isleap (y + 1900)) := by
  have hm : -400 < y.tmod 400 ∧ y.tmod 400 < 400 ∧ (y.tmod 400 - y) % 400 = 0 := by
    rcases Int.le_total y 0 with h | h
    · have := (trunc_neg 400 h).2
      omega
    · have := (trunc_nonneg 400 h).2
      omega
  have hl : leap (y.tmod 400 + 1900) = leap (y + 1900) := by
    rw [Bool.eq_iff_iff,leap_iff,leap_iff]
    omega
  rw [isleap2,if_pos (by decide),hT.int_short (by omega) (by omega)]
  simp only [Option.bind_eq_bind,Option.bind_some,Option.pure_def,isleap_eq,hl]

theorem daysInYear_eq (y : Int) : daysInYear T y = some (yearLength (y + 1900)) := by
  rw [daysInYear,yearBase,isleap2_base hT]
  simp only [Option.bind_eq_bind,Option.bind_some,Option.pure_def,isleap_eq,yearLength]
  split_ifs <;> rfl

theorem addYearsIn_eq (n : Nat) {y d : Int} (hd : Fits bits d) (hy : Fits T.intBits y) (hy' : Fits T.intBits (y + n)) :
    addYearsIn T bits n y d = signed bits (d + (yearStart (y + n + 1900) - yearStart (y + 1900))) := by
  induction n generalizing y d with
  | zero => rw [addYearsIn,Nat.cast_zero,Int.add_zero,Int.sub_self,Int.add_zero,signed_fits hd]
  | succ n ih =>
    have hlen := yearLength_pos (y + 1900)
    have hsucc := yearStart_succ (y + 1900)
    have hmono : yearStart (y + 1900 + 1) ≤ yearStart (y + (n + 1 : Nat) + 1900) := yearStart_lt (by omega)
    rw [addYearsIn,hT.toInt_fits hy,daysInYear_eq hT]
    simp only [Option.bind_eq_bind,Option.bind_some]
    by_cases hfit : Fits bits (d + yearLength (y + 1900))
    · have hnext : Fits T.intBits (y + 1) := by
        unfold Fits at hy hy' ⊢
        omega
      rw [signed_fits hfit,Option.bind_some,ih hfit hnext (by rwa [show y + 1 + (n : Int) = y + (n + 1 : Nat) by omega])]
      congr 1
      rw [show y + 1 + (n : Int) + 1900 = y + ((n + 1 : Nat) : Int) + 1900 by omega,show y + 1 + 1900 = y + 1900 + 1 by omega]
      omega
    · have hno : ¬Fits bits (d + (yearStart (y + (n + 1 : Nat) + 1900) - yearStart (y + 1900))) := by
        unfold Fits at hd hfit ⊢
        omega
      rw [signed,if_neg hfit,signed,if_neg hno]
      rfl

theorem subYearsIn_eq (n : Nat) {y d : Int} (hd : Fits bits d) (hy : Fits T.intBits y) (hy' : Fits T.intBits (y - n)) :
    subYearsIn T bits n y d = signed bits (d - (yearStart (y + 1901) - yearStart (y - n + 1900))) := by
  induction n generalizing y d with
  | zero =>
    have hsucc := yearStart_succ (y + 1900)
    rw [subYearsIn,hT.toInt_fits hy,daysInYear_eq hT]
    simp only [Option.bind_eq_bind,Option.bind_some]
    congr 1
    rw [Nat.cast_zero,Int.sub_zero,show y + 1901 = y + 1900 + 1 by omega]
    omega
  | succ n ih =>
    have hlen := yearLength_pos (y + 1900)
    have hsucc := yearStart_succ (y + 1900)
    have hmono : yearStart (y - (n + 1 : Nat) + 1900 + 1) ≤ yearStart (y + 1900) := yearStart_lt (by omega)
    have hstep := yearStart_succ (y - (n + 1 : Nat) + 1900)
    have hpos := yearLength_pos (y - (n + 1 : Nat) + 1900)
    rw [subYearsIn,hT.toInt_fits hy,daysInYear_eq hT]
    simp only [Option.bind_eq_bind,Option.bind_some]
    rw [show y + 1901 = y + 1900 + 1 by omega]
    by_cases hfit : Fits bits (d - yearLength (y + 1900))
    · have hnext : Fits T.intBits (y - 1) := by
        unfold Fits at hy hy' ⊢
        omega
      rw [signed_fits hfit,Option.bind_some,ih hfit hnext (by rwa [show y - 1 - (n : Int) = y - (n + 1 : Nat) by omega])]
      congr 1
      rw [show y - 1 - (n : Int) + 1900 = y - ((n + 1 : Nat) : Int) + 1900 by omega,show y - 1 + 1901 = y + 1900 by omega]
      omega
    · have hno : ¬Fits bits (d - (yearStart (y + 1900 + 1) - yearStart (y - (n + 1 : Nat) + 1900))) := by
        unfold Fits at hd hfit ⊢
        omega
      rw [signed,if_neg hfit,signed,if_neg hno]
      rfl

theorem yearDaysIn_eq {y d : Int} (hd : Fits bits d) (hy : Fits T.intBits y) :
    yearDaysIn T bits y d = signed bits (d + yearStart (y + 1900)) := by
  have h0 : yearStart 1970 = 0 := yearStart_epoch
  unfold yearDaysIn
  split_ifs with hlt hgt
  · have hlast : (70 : Int) + ((y - 70).toNat : Int) = y := by omega
    rw [addYearsIn_eq hT _ hd (fits_short hT.int (by decide) (by decide)) (by rwa [hlast]),hlast,
      show (70 : Int) + 1900 = 1970 from rfl,h0,Int.sub_zero]
  · have hlast : (69 : Int) - ((69 - y).toNat : Int) = y := by omega
    rw [subYearsIn_eq hT _ hd (fits_short hT.int (by decide) (by decide)) (by rwa [hlast]),hlast,
      show (69 : Int) + 1901 = 1970 from rfl,h0]
    congr 1
    omega
  · obtain rfl : y = 70 := by omega
    rw [show (70 : Int) + 1900 = 1970 from rfl,h0,Int.add_zero,signed_fits hd]
    rfl

theorem hundredCentury_eq {y : Int} (h : Fits T.intBits y) :
    hundredCentury T y = y.tdiv 10000 := by
  have hp := pow_step (show 0 < T.intBits by have := hT.int; omega)
  unfold Fits at h
  unfold hundredCentury
  split_ifs with hy
  · rfl
  · have hq := (trunc_neg 10000 (show y ≤ 0 by omega)).1
    have hneg : T.uint (-T.uint y) = -y := by
      rw [← Int.zero_sub,Target.uint,Target.uint,unsigned_sub_unsigned,Int.zero_sub]
      exact unsigned_eq (by omega) (by omega)
    rw [hneg,hq,Target.toInt,Target.uint,wrap_unsigned]
    exact hT.toInt_fits ⟨by omega,by omega⟩

theorem validateStructure_normal {tm : Tm} (h : tm.Normal) (hf : Fits T.intBits tm.year) :
    validateStructure T tm = some (true,tm) := by
  obtain ⟨sec,min,hour,mday,mon,year,wday,yday,isdst⟩ := tm
  obtain ⟨h1,h2,h3,h4,h5⟩ := h
  dsimp only at *
  obtain ⟨m,rfl⟩ := Int.eq_ofNat_of_zero_le h4
  rw [Int.toNat_natCast] at h5
  have hm := h5.month
  have hd1 := h5.first
  have hd2 := h5.last
  have hlen := monthLength_pos (year + 1900) m
  have hfore : foreMonths T year mday.natAbs ⟨m,mday,0,if isleap (year + 1900) ≠ 0 then 29 else 28⟩ =
      some ⟨m,mday,0,if isleap (year + 1900) ≠ 0 then 29 else 28⟩ := by
    obtain ⟨k,hk⟩ : ∃ k, mday.natAbs = k + 1 := ⟨mday.natAbs - 1,by omega⟩
    rw [hk,foreMonths,daysInMonth_eq _ hm,if_neg (by dsimp only; omega)]
  rw [validateStructure]
  dsimp only
  rw [carry_in T h1.1 h1.2]
  simp only [Option.bind_eq_bind,Option.bind_some]
  rw [carry_in T h2.1 h2.2]
  simp only [Option.bind_some]
  rw [carry_in T h3.1 h3.2]
  simp only [Option.bind_some]
  rw [carry_in T (show (0 : Int) ≤ m by omega) (by omega)]
  simp only [Option.bind_some,yearBase,Int.zero_add]
  rw [hT.int_short (by omega) (by omega),Option.bind_some,isleap2_base hT,Option.bind_some]
  rw [if_neg (by omega),hfore,Option.bind_some]
  simp only [Int.add_zero,Option.pure_def,hf,decide_true,hT.toInt_fits hf]

theorem secondsOfDay_eq {tm : Tm} (h : tm.Normal) :
    secondsOfDay T tm = some (tm.hour * 3600 + tm.min * 60 + tm.sec) := by
  have hsec := h.sec
  have hmin := h.min
  have hhour := h.hour
  rw [secondsOfDay,secsPerMin,secsPerHour,hT.long_word (by omega) (by omega)]
  simp only [Option.bind_eq_bind,Option.bind_some]
  rw [hT.long_word (by omega) (by omega),Option.bind_some,hT.long_word (by omega) (by omega),
    Option.bind_some,hT.long_word (by omega) (by omega),Option.some.injEq]
  omega

theorem dayOfYear_eq {tm : Tm} (h : tm.Normal) :
    dayOfYear T tm = some (monthStart (tm.year + 1900) tm.mon.toNat + (tm.mday - 1)) := by
  have hmon : (tm.mon.toNat : Int) = tm.mon := by
    have := h.mon
    omega
  have htable := monthStart_table (tm.year + 1900) h.date.month
  have hfirst := h.date.first
  have hlast := h.date.last
  have hlen := monthLength_pos (tm.year + 1900) tm.mon.toNat
  rw [hmon] at htable
  rw [dayOfYear,hT.int_short (by omega) (by omega)]
  simp only [Option.bind_eq_bind,Option.bind_some]
  rw [yearBase,isleap2_base hT,Option.bind_some,← htable,Option.pure_def,Option.some.injEq]
  split_ifs <;> omega

theorem daysSinceEpochIn_eq (hbits : bits = 32 ∨ bits = 64) {y d : Int} (hy : Fits T.intBits y) (h1 : 0 ≤ d) (h2 : d ≤ 366) :
    daysSinceEpochIn T bits y d = signed bits (d + yearStart (y + 1900)) := by
  rcases hbits with rfl | rfl
  · rw [daysSinceEpochIn,if_neg (by decide),yearDaysIn_eq hT (fits_word (le_refl _) (by omega) (by omega)) hy]
  · have hyb : -2147483648 ≤ y ∧ y < 2147483648 := hy.mono hT.intMax
    obtain ⟨c,hc⟩ : ∃ c, c = y.tdiv 10000 := ⟨_,rfl⟩
    have hcb : -2147483648 ≤ c * 10000 ∧ c * 10000 < 2147483648 ∧ -10000 < y - c * 10000 ∧
        y - c * 10000 < 10000 := by
      rcases Int.le_total y 0 with hneg | hpos
      · have := (trunc_neg 10000 hneg).1
        omega
      · have := (trunc_nonneg 10000 hpos).1
        omega
    have hstart : yearStart (y + 1900) = yearStart (y - c * 10000 + 1900) + c * 3652425 := by
      rw [show y + 1900 = y - c * 10000 + 1900 + 400 * (25 * c) by omega,yearStart_add]
      omega
    have hwhole : Fits 64 (c * 3652425) := by
      unfold Fits
      omega
    have hsum : Fits 64 (d + c * 3652425) := by
      unfold Fits
      omega
    rw [daysSinceEpochIn,if_pos (by decide),hundredCentury_eq hT hy,← hc]
    simp only [Option.bind_eq_bind]
    rw [hT.long_word hcb.1 hcb.2.1,Option.bind_some,hT.long_word (by omega) (by omega),Option.bind_some,
      daysPerHcen,signed_fits hwhole,Option.bind_some,signed_fits hsum,Option.bind_some,
      hT.toInt_short (by omega) (by omega),
      yearDaysIn_eq hT hsum (fits_short hT.int (by omega) (by omega)),hstart]
    congr 1
    omega

theorem mktimeUtcIn_normal {tm : Tm} (h : tm.Normal) (hf : Fits T.intBits tm.year) :
    mktimeUtcIn T 64 tm = some (⟨tm.clock,tm.day,{ tm with
      yday := monthStart (tm.year + 1900) tm.mon.toNat + (tm.mday - 1) }⟩,false) := by
  have hyb : -2147483648 ≤ tm.year ∧ tm.year < 2147483648 := hf.mono hT.intMax
  have hin := h.date.within
  have hyl := yearLength_pos (tm.year + 1900)
  have hsec := h.sec
  have hmin := h.min
  have hhour := h.hour
  have hday : monthStart (tm.year + 1900) tm.mon.toNat + (tm.mday - 1) + yearStart (tm.year + 1900) = tm.day := by
    rw [Tm.day,dayNumber]
    omega
  have hdb : -2 ^ 42 ≤ tm.day ∧ tm.day < 2 ^ 42 := by
    rw [← hday]
    unfold yearStart
    omega
  have hfits : ∀ x : Int, -2 ^ 62 ≤ x → x < 2 ^ 62 → Fits 64 x := fun x h1 h2 => ⟨by omega,by omega⟩
  have hmax : dayMaxIn 64 = 106751991167300 := rfl
  have hmin' : dayMinIn 64 = -106751991167300 := rfl
  rw [mktimeUtcIn,validateStructure_normal hT h hf]
  simp only [Option.bind_eq_bind,Option.bind_some]
  rw [if_neg (by decide),secondsOfDay_eq hT h,Option.bind_some,dayOfYear_eq hT h,Option.bind_some,
    hT.toInt_short (by omega) (by omega),daysSinceEpochIn_eq hT (.inr rfl) hf (by omega) (by omega),hday,
    signed_fits (hfits _ (by omega) (by omega)),Option.bind_some,if_neg (by omega),secsPerDay,
    signed_fits (hfits _ (by omega) (by omega)),Option.bind_some,signed_fits (hfits _ (by omega) (by omega)),
    Option.bind_some,if_neg (by omega),Option.pure_def]
  simp only [Option.some.injEq,Prod.mk.injEq,Utc.mk.injEq,and_true]
  rw [Tm.clock]
  omega

theorem mktimeUtc_normal {tm : Tm} (h : tm.Normal) (hf : Fits T.intBits tm.year) :
    mktimeUtc T tm = some ⟨tm.clock,tm.day,{ tm with
      yday := monthStart (tm.year + 1900) tm.mon.toNat + (tm.mday - 1) }⟩ := by
  rw [mktimeUtc,mktimeUtcIn_normal hT h hf]
  rfl

theorem setTmWdayIn_eq {d : Int} (h : Fits bits (d + 4)) (tm : Tm) :
    setTmWdayIn T bits d tm = some { tm with wday := (d + 4) % 7 } := by
  have hm : T.toInt ((d + 4).tmod 7) = (d + 4).tmod 7 := by
    rcases Int.le_total (d + 4) 0 with hneg | hpos
    · have := (trunc_neg 7 hneg).2
      exact hT.toInt_short (by omega) (by omega)
    · have := (trunc_nonneg 7 hpos).2
      exact hT.toInt_short (by omega) (by omega)
  simp only [setTmWdayIn,signed_fits h,hm,Option.bind_eq_bind,Option.bind_some,Option.pure_def]
  rcases Int.le_total (d + 4) 0 with hneg | hpos
  · have hr := (trunc_neg 7 hneg).2
    split_ifs
    · rw [hT.int_short (by omega) (by omega),Option.bind_some]
      congr 2
      omega
    · congr 2
      omega
  · have hr := (trunc_nonneg 7 hpos).2
    rw [if_neg (by omega)]
    congr 2

theorem setTmWday_eq {tm : Tm} {d : Int} (h1 : -2 ^ 62 ≤ d) (h2 : d < 2 ^ 62) :
    setTmWday T d tm = some { tm with wday := (d + 4) % 7 } :=
  setTmWdayIn_eq hT ⟨by omega,by omega⟩ tm

theorem timegm_brokenDown {t : Int} {tm : Tm} (h : BrokenDown t tm) (hf : Fits T.intBits tm.year) :
    timegm T tm = some (t,tm) := by
  obtain ⟨hn,htime,hwday,hyday,hdst⟩ := h
  have hyb : -2147483648 ≤ tm.year ∧ tm.year < 2147483648 := hf.mono hT.intMax
  have hin := hn.date.within
  have hyl := yearLength_pos (tm.year + 1900)
  have hdb : Fits 64 (tm.day + 4) := by
    rw [Tm.day,dayNumber]
    unfold Fits yearStart
    omega
  have hdiv := hn.clock_div
  rw [htime] at hdiv
  obtain ⟨sec,min,hour,mday,mon,year,wday,yday,isdst⟩ := tm
  rw [timegm,timegmIn,mktimeUtcIn_normal hT hn hf]
  simp only [Option.bind_eq_bind,Option.bind_some,htime,Option.pure_def]
  dsimp only at hyday hwday hdst
  rw [← hyday,setTmWdayIn_eq hT hdb,← hdiv,← hwday,← hdst,Option.bind_some]
  split_ifs <;> rfl

end

def InYear (t y : Int) : Prop := yearStart y * 86400 ≤ t ∧ t < yearStart (y + 1) * 86400

theorem BrokenDown.inYear {t : Int} {tm : Tm} (h : BrokenDown t tm) : InYear t (tm.year + 1900) := by
  have hin := h.normal.date.within
  have hsec := h.normal.sec
  have hmin := h.normal.min
  have hhour := h.normal.hour
  have htime := h.time
  rw [Tm.clock,Tm.day,dayNumber] at htime
  rw [InYear,yearStart_succ]
  omega

theorem utc_round_trip {T : Target} (hT : T.Valid) {t : Int} (ht : Fits 64 t) :
    ∃ y, InYear t y ∧ (∀ z, InYear t z → z = y) ∧
      (gmtimeR T t = some none ↔ ¬Fits T.intBits (y - 1900)) ∧
      (Fits T.intBits (y - 1900) → ∃ tm, gmtimeR T t = some (some tm) ∧ BrokenDown t tm ∧
        (∀ tm', BrokenDown t tm' → tm' = tm) ∧ timegm T tm = some (t,tm)) := by
  have hb := civilTm_brokenDown t
  have hyear : (civilTm t).year + 1900 - 1900 = (civilTm t).year := by omega
  refine ⟨(civilTm t).year + 1900,hb.inYear,?_,?_,?_⟩
  · intro z hz
    have hy := hb.inYear
    unfold InYear at hy hz
    exact year_unique (n := t / 86400) (by omega) (by omega) (by omega) (by omega)
  · rw [hyear,gmtimeR_eq hT ht]
    split_ifs with hf <;> simp [hf]
  · intro hf
    rw [hyear] at hf
    exact ⟨civilTm t,by rw [gmtimeR_eq hT ht,if_pos hf],hb,fun tm' h' => h'.unique hb,
      timegm_brokenDown hT hb hf⟩

def lp64 : Target := ⟨32,64⟩

theorem lp64_valid : lp64.Valid := ⟨by decide,by decide,by decide⟩

theorem utc_round_trip_before_epoch :
    gmtimeR lp64 (-1) = some (some ⟨59,59,23,31,11,69,3,364,0⟩) ∧
      ∃ y, InYear (-1) y ∧ (∀ z, InYear (-1) z → z = y) ∧
        (gmtimeR lp64 (-1) = some none ↔ ¬Fits lp64.intBits (y - 1900)) ∧
        (Fits lp64.intBits (y - 1900) → ∃ tm, gmtimeR lp64 (-1) = some (some tm) ∧ BrokenDown (-1) tm ∧
          (∀ tm', BrokenDown (-1) tm' → tm' = tm) ∧ timegm lp64 tm = some (-1,tm)) :=
  ⟨by decide,utc_round_trip lp64_valid (by decide)⟩

end Time
