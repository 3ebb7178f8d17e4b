import Mathlib
import Picolibc.Lib.Checked
import Picolibc.Lib.Gregorian

namespace Time

open Checked Gregorian

structure Target where
  intBits : Nat
  longBits : Nat
  deriving DecidableEq, Repr

structure Target.Valid (T : Target) : Prop where
  int : 16 ≤ T.intBits
  intMax : T.intBits ≤ 32
  long : 32 ≤ T.longBits

namespace Target

variable (T : Target)

def int (x : Int) : Option Int := signed T.intBits x

def long (x : Int) : Option Int := signed T.longBits x

def uint (x : Int) : Int := unsigned T.intBits x

def ulong (x : Int) : Int := unsigned T.longBits x

def toInt (x : Int) : Int := wrap T.intBits x

def toLong (x : Int) : Int := wrap T.longBits x

end Target

def timeT (x : Int) : Option Int := signed 64 x

structure Tm where
  sec : Int
  min : Int
  hour : Int
  mday : Int
  mon : Int
  year : Int
  wday : Int
  yday : Int
  isdst : Int
  deriving DecidableEq, Repr

def secsPerMin : Int := 60

def secsPerHour : Int := 3600

def secsPerDay : Int := 86400

def daysPerWeek : Int := 7

def yearBase : Int := 1900

def epochAdjustmentDays : Int := 719468

def adjustedEpochYear : Int := 0

def adjustedEpochWday : Int := 3

def daysPerEra : Int := 146097

def daysPerCentury : Int := 36524

def daysPer4Years : Int := 3 * 365 + 366

def daysPerYear : Int := 365

def daysInJanuary : Int := 31

def daysInFebruary : Int := 28

def yearsPerEra : Int := 400

def isleap (y : Int) : Int :=
  if y.tmod 4 = 0 ∧ (y.tmod 100 ≠ 0 ∨ y.tmod 400 = 0) then 1 else 0

def isleap2 (T : Target) (y yOff : Int) : Option Int :=
  if yOff ≠ 0 then do
    let y ← T.int (y.tmod 400 + yOff)
    pure (isleap y)
  else pure (isleap y)

def splitDays (T : Target) (lcltime : Int) : Option (Int × Int) := do
  let days ← timeT (lcltime.tdiv secsPerDay + epochAdjustmentDays)
  let rem := T.toLong (lcltime.tmod secsPerDay)
  if rem < 0 then do
    let rem ← T.long (rem + secsPerDay)
    let days ← timeT (days - 1)
    pure (rem,days)
  else pure (rem,days)

def weekDay (T : Target) (days : Int) : Option Int := do
  let weekday := T.toInt ((← timeT (adjustedEpochWday + days)).tmod daysPerWeek)
  if weekday < 0 then T.int (weekday + daysPerWeek) else pure weekday

def splitEra (T : Target) (days : Int) : Option (Int × Int) := do
  let era := (← if 0 ≤ days then pure days else timeT (days - (daysPerEra - 1))).tdiv daysPerEra
  let eraday := T.ulong (← timeT (days - (← timeT (era * daysPerEra))))
  pure (era,eraday)

def gmtimeR (T : Target) (lcltime : Int) : Option (Option Tm) := do
  let (rem,days) ← splitDays T lcltime
  let hour := T.toInt (rem.tdiv secsPerHour)
  let rem := rem.tmod secsPerHour
  let min := T.toInt (rem.tdiv secsPerMin)
  let sec := T.toInt (rem.tmod secsPerMin)
  let wday ← weekDay T days
  let (era,eraday) ← splitEra T days
  let erayear := T.uint (T.ulong (eraday - eraday / (daysPer4Years - 1) + eraday / daysPerCentury
    - eraday / (daysPerEra - 1)) / 365)
  let yearday := T.uint (T.ulong (eraday
    - T.uint (daysPerYear * erayear + erayear / 4 - erayear / 100)))
  let month := T.uint (5 * yearday + 2) / 153
  let day := T.uint (yearday - T.uint (153 * month + 2) / 5 + 1)
  let month := T.uint (month + if month < 10 then 2 else -10)
  let year ← timeT ((← timeT (T.uint (adjustedEpochYear + erayear) + (← timeT (era * yearsPerEra))))
    + if month ≤ 1 then 1 else 0)
  let yday := T.toInt (if daysPerYear - daysInJanuary - daysInFebruary ≤ yearday
    then T.uint (yearday - (daysPerYear - daysInJanuary - daysInFebruary))
    else T.uint (yearday + daysInJanuary + daysInFebruary + isleap (T.toInt erayear)))
  let year ← timeT (year - yearBase)
  if 2 ^ (T.intBits - 1) - 1 < year ∨ year < -2 ^ (T.intBits - 1) then pure none
  else pure (some ⟨sec,min,hour,T.toInt day,T.toInt month,T.toInt year,wday,yday,0⟩)

structure Tm.Normal (tm : Tm) : Prop where
  sec : 0 ≤ tm.sec ∧ tm.sec < 60
  min : 0 ≤ tm.min ∧ tm.min < 60
  hour : 0 ≤ tm.hour ∧ tm.hour < 24
  mon : 0 ≤ tm.mon
  date : Date (tm.year + 1900) tm.mon.toNat tm.mday

def Tm.day (tm : Tm) : Int := dayNumber (tm.year + 1900) tm.mon.toNat tm.mday

def Tm.clock (tm : Tm) : Int := tm.day * 86400 + (tm.hour * 3600 + tm.min * 60 + tm.sec)

structure BrokenDown (t : Int) (tm : Tm) : Prop where
  normal : tm.Normal
  time : tm.clock = t
  wday : tm.wday = (t / 86400 + 4) % 7
  yday : tm.yday = monthStart (tm.year + 1900) tm.mon.toNat + (tm.mday - 1)
  isdst : tm.isdst = 0

theorem Tm.Normal.clock_div {tm : Tm} (h : tm.Normal) : tm.clock / 86400 = tm.day := by
  have := h.sec
  have := h.min
  have := h.hour
  unfold Tm.clock
  omega

theorem BrokenDown.unique {t : Int} {tm tm' : Tm} (h : BrokenDown t tm) (h' : BrokenDown t tm') :
    tm = tm' := by
  obtain ⟨sec,min,hour,mday,mon,year,wday,yday,isdst⟩ := tm
  obtain ⟨sec',min',hour',mday',mon',year',wday',yday',isdst'⟩ := tm'
  obtain ⟨⟨h1,h2,h3,h4,h5⟩,h6,h7,h8,h9⟩ := h
  obtain ⟨⟨k1,k2,k3,k4,k5⟩,k6,k7,k8,k9⟩ := h'
  unfold Tm.clock Tm.day at h6 k6
  dsimp only at *
  obtain ⟨hy,hm,rfl⟩ := date_unique h5 k5 (by omega)
  obtain rfl : mon = mon' := by omega
  obtain rfl : year = year' := by omega
  obtain rfl : hour = hour' := by omega
  obtain rfl : min = min' := by omega
  obtain rfl : sec = sec' := by omega
  rw [h7,h8,h9,k7,k8,k9]

def civilYear (n : Int) : Int :=
  let e := n % 146097
  (e - e / 1460 + e / 36524 - e / 146096) / 365

theorem century_year {e c d y : Int} (hc : c = e / 1460) (hd : d = e / 36524) (h1 : 0 ≤ e) (h2 : e < 146096)
    (hy : y = (e - c + d) / 365) : 0 ≤ y ∧ y ≤ 399 ∧ marchStart y ≤ e ∧ e < marchStart (y + 1) := by
  have hdb : 0 ≤ d ∧ d ≤ 3 := by omega
  have hbase : y / 100 = d := by
    obtain ⟨hd₁,hd₂⟩ := hdb
    clear h1 h2
    interval_cases d <;> omega
  obtain ⟨w,hw⟩ : ∃ w, w = y - 100 * d := ⟨_,rfl⟩
  have hyear : y = 100 * d + w := by omega
  have hwb : 0 ≤ w ∧ w ≤ 99 := by omega
  have hlow : 365 * w + w / 4 ≤ e - 36524 * d := by omega
  have hhigh : e - 36524 * d < 365 * (w + 1) + (w + 1) / 4 - (if w = 99 ∧ d ≠ 3 then 1 else 0) := by
    split_ifs <;> omega
  clear hc hd hy hbase hw
  have hthis : marchStart y = 36524 * d + (365 * w + w / 4) := by
    unfold marchStart
    omega
  have hnext : marchStart (y + 1) = 36524 * d + (365 * (w + 1) + (w + 1) / 4 - (if w = 99 ∧ d ≠ 3 then 1 else 0)) := by
    unfold marchStart
    split_ifs <;> omega
  rw [hthis,hnext]
  exact ⟨by omega,by omega,by omega,by omega⟩

theorem civilYear_bounds (n : Int) {e y : Int} (he : e = n % 146097) (hy : y = civilYear n) :
    0 ≤ y ∧ y ≤ 399 ∧ marchStart y ≤ e ∧ e < marchStart (y + 1) := by
  have heb : 0 ≤ e ∧ e < 146097 := by omega
  unfold civilYear at hy
  rw [← he] at hy
  dsimp only at hy
  by_cases hlast : e = 146096
  · rw [hlast] at hy ⊢
    obtain rfl : y = 399 := hy
    decide
  · have hzero : e / 146096 = 0 := by omega
    rw [hzero,sub_zero] at hy
    exact century_year rfl rfl heb.1 (by omega) hy

theorem isleap_eq (y : Int) : isleap y = if leap y then 1 else 0 := by
  have h : (y.tmod 4 = 0 ∧ (y.tmod 100 ≠ 0 ∨ y.tmod 400 = 0)) ↔ leap y = true := by
    rw [leap_iff]
    simp only [tmod_zero_iff,ne_eq]
  simp only [isleap,h]

theorem timeT_eq {x : Int} (h1 : -9223372036854775808 ≤ x) (h2 : x < 9223372036854775808) :
    timeT x = some x :=
  signed_fits ⟨h1,h2⟩

section

variable {T : Target} (hT : T.Valid) {t x : Int}

include hT

theorem Target.Valid.int_short (h1 : -32768 ≤ x) (h2 : x < 32768) : T.int x = some x :=
  signed_fits (fits_short hT.int h1 h2)

theorem Target.Valid.long_word (h1 : -2147483648 ≤ x) (h2 : x < 2147483648) : T.long x = some x :=
  signed_fits (fits_word hT.long h1 h2)

theorem Target.Valid.toInt_fits (h : Fits T.intBits x) : T.toInt x = x :=
  wrap_fits (by have := hT.int; omega) h

theorem Target.Valid.toInt_short (h1 : -32768 ≤ x) (h2 : x < 32768) : T.toInt x = x :=
  hT.toInt_fits (fits_short hT.int h1 h2)

theorem Target.Valid.toLong_word (h1 : -2147483648 ≤ x) (h2 : x < 2147483648) : T.toLong x = x :=
  wrap_fits (by have := hT.long; omega) (fits_word hT.long h1 h2)

theorem Target.Valid.uint_short (h1 : 0 ≤ x) (h2 : x < 65536) : T.uint x = x :=
  unsigned_short hT.int h1 h2

theorem Target.Valid.ulong_word (h1 : 0 ≤ x) (h2 : x < 4294967296) : T.ulong x = x :=
  unsigned_word hT.long h1 h2

theorem splitDays_eq (ht : Fits 64 t) : splitDays T t = some (t % 86400,t / 86400 + 719468) := by
  have htb : -9223372036854775808 ≤ t ∧ t < 9223372036854775808 := ht
  have hd : timeT (t.tdiv 86400 + 719468) = some (t.tdiv 86400 + 719468) := by
    rcases Int.le_total t 0 with hneg | hpos
    · have := (trunc_neg 86400 hneg).1
      exact timeT_eq (by omega) (by omega)
    · have := (trunc_nonneg 86400 hpos).1
      exact timeT_eq (by omega) (by omega)
  have hl : T.toLong (t.tmod 86400) = t.tmod 86400 := by
    rcases Int.le_total t 0 with hneg | hpos
    · have := (trunc_neg 86400 hneg).2
      exact hT.toLong_word (by omega) (by omega)
    · have := (trunc_nonneg 86400 hpos).2
      exact hT.toLong_word (by omega) (by omega)
  simp only [splitDays,secsPerDay,epochAdjustmentDays,hd,hl,Option.bind_eq_bind,Option.bind_some]
  split_ifs with hr
  · have hneg : t ≤ 0 := by
      by_contra hpos
      have := (trunc_nonneg 86400 (show 0 ≤ t by omega)).2
      omega
    obtain ⟨hq,hm⟩ := trunc_neg 86400 hneg
    rw [hT.long_word (by omega) (by omega),timeT_eq (by omega) (by omega)]
    simp only [Option.bind_some,Option.pure_def,Option.some.injEq,Prod.mk.injEq]
    omega
  · simp only [Option.pure_def,Option.some.injEq,Prod.mk.injEq]
    rcases Int.le_total t 0 with hneg | hpos
    · have := trunc_neg 86400 hneg
      omega
    · have := trunc_nonneg 86400 hpos
      omega

theorem weekDay_eq {n : Int} (h1 : -2 ^ 62 ≤ n) (h2 : n < 2 ^ 62) :
    weekDay T n = some ((n + 3) % 7) := by
  have hm : T.toInt ((3 + n).tmod 7) = (3 + n).tmod 7 := by
    rcases Int.le_total (3 + n) 0 with hneg | hpos
    · have := (trunc_neg 7 hneg).2
      exact hT.toInt_short (by omega) (by omega)
    · have := (trunc_nonneg 7 hpos).2
      exact hT.toInt_short (by omega) (by omega)
  have hd : timeT (3 + n) = some (3 + n) := timeT_eq (by omega) (by omega)
  simp only [weekDay,adjustedEpochWday,daysPerWeek,hd,hm,Option.bind_eq_bind,Option.bind_some]
  rcases Int.le_total (3 + n) 0 with hneg | hpos
  · have hr := (trunc_neg 7 hneg).2
    split_ifs
    · rw [hT.int_short (by omega) (by omega),Option.some.injEq]
      omega
    · rw [Option.pure_def,Option.some.injEq]
      omega
  · have hr := (trunc_nonneg 7 hpos).2
    rw [if_neg (by omega),Option.pure_def,Option.some.injEq]
    omega

theorem splitEra_eq {n : Int} (h1 : -2 ^ 62 ≤ n) (h2 : n < 2 ^ 62) :
    splitEra T n = some (n / 146097,n % 146097) := by
  have hmul : timeT (n / 146097 * 146097) = some (n / 146097 * 146097) := timeT_eq (by omega) (by omega)
  have hsub : timeT (n - n / 146097 * 146097) = some (n % 146097) := by
    rw [timeT_eq (by omega) (by omega),Option.some.injEq]
    omega
  have hul : T.ulong (n % 146097) = n % 146097 := hT.ulong_word (by omega) (by omega)
  simp only [splitEra,daysPerEra,Option.bind_eq_bind,Option.pure_def,Int.reduceSub]
  split_ifs with hn
  · simp only [Option.bind_some,(trunc_nonneg 146097 hn).1,hmul,hsub,hul]
  · have hdiv : (n - 146096).tdiv 146097 = n / 146097 := by
      rw [(trunc_neg 146097 (show n - 146096 ≤ 0 by omega)).1]
      omega
    rw [timeT_eq (by omega) (by omega)]
    simp only [Option.bind_some,hdiv,hmul,hsub,hul]

end

def civilYearday (n : Int) : Int :=
  n % 146097 - (365 * civilYear n + civilYear n / 4 - civilYear n / 100)

def civilMonth (n : Int) : Int := (5 * civilYearday n + 2) / 153

def civilMon (n : Int) : Int := civilMonth n + if civilMonth n < 10 then 2 else -10

def civilTm (t : Int) : Tm :=
  let n := t / 86400 + 719468
  { sec := t % 86400 % 3600 % 60
    min := t % 86400 % 3600 / 60
    hour := t % 86400 / 3600
    mday := civilYearday n - (153 * civilMonth n + 2) / 5 + 1
    mon := civilMon n
    year := civilYear n + n / 146097 * 400 + (if civilMon n ≤ 1 then 1 else 0) - 1900
    wday := (n + 3) % 7
    yday := if 306 ≤ civilYearday n then civilYearday n - 306
      else civilYearday n + 59 + isleap (civilYear n)
    isdst := 0 }

theorem civilYearday_bounds (n : Int) : 0 ≤ civilYearday n ∧ civilYearday n ≤ 365 ∧
    (civilYearday n = 365 → leap (civilYear n + 1) = true) := by
  obtain ⟨y,hy⟩ : ∃ y, y = civilYear n := ⟨_,rfl⟩
  obtain ⟨h1,h2,h3,h4⟩ := civilYear_bounds n rfl hy
  have hstart : civilYearday n = n % 146097 - marchStart y := by
    unfold civilYearday marchStart
    rw [← hy,show y / 400 = 0 by omega]
    omega
  rw [marchStart_succ] at h4
  have hlen := yearLength_pos (y + 1)
  refine ⟨by omega,by omega,fun h => ?_⟩
  by_contra hnl
  rw [← hy] at hnl
  rw [yearLength,if_neg hnl] at h4
  omega

theorem civilMonth_bounds (n : Int) : 0 ≤ civilMonth n ∧ civilMonth n ≤ 11 := by
  have := civilYearday_bounds n
  unfold civilMonth
  omega

theorem civilYearday_eq (n : Int) : n = marchStart (civilYear n + 400 * (n / 146097)) + civilYearday n := by
  obtain ⟨y,hy⟩ : ∃ y, y = civilYear n := ⟨_,rfl⟩
  obtain ⟨h1,h2,-,-⟩ := civilYear_bounds n rfl hy
  rw [marchStart_add]
  unfold civilYearday marchStart
  rw [← hy,show y / 400 = 0 by omega]
  omega

theorem civil_late {y n : Int} (hn : n = marchStart y + civilYearday n) (hk : civilMonth n < 10) :
    let m := (civilMonth n + 2).toNat
    let d := civilYearday n - (153 * civilMonth n + 2) / 5 + 1
    Date y m d ∧ dayNumber y m d = n - 719468 ∧
      monthStart y m + (d - 1) = civilYearday n + 59 + isleap y := by
  have hb := (civilMonth_bounds n).1
  obtain ⟨k,hk'⟩ := Int.eq_ofNat_of_zero_le hb
  have hk9 : k ≤ 9 := by omega
  have hstart := monthStart_march y hk9
  have hlen := monthLength_march y hk9
  have htwo := monthStart_two y
  have hmarch := marchStart_eq y
  have hyl : yearLength y = 365 + isleap y := by
    rw [isleap_eq,yearLength]
    split_ifs <;> rfl
  have hdef : civilMonth n = (5 * civilYearday n + 2) / 153 := rfl
  rw [hk'] at hdef ⊢
  have hm : ((k : Int) + 2).toNat = k + 2 := by omega
  dsimp only
  rw [hm]
  refine ⟨⟨by omega,by omega,?_⟩,?_,?_⟩
  · rw [hlen]
    omega
  · rw [dayNumber,hstart]
    omega
  · rw [hstart]
    omega

theorem civil_early {y n : Int} (hn : n = marchStart y + civilYearday n) (hk : 10 ≤ civilMonth n)
    (hleap : civilYearday n = 365 → leap (y + 1) = true) :
    let m := (civilMonth n - 10).toNat
    let d := civilYearday n - (153 * civilMonth n + 2) / 5 + 1
    Date (y + 1) m d ∧ dayNumber (y + 1) m d = n - 719468 ∧
      monthStart (y + 1) m + (d - 1) = civilYearday n - 306 := by
  have hb := (civilMonth_bounds n).2
  have hyb := civilYearday_bounds n
  have hdef : civilMonth n = (5 * civilYearday n + 2) / 153 := rfl
  have hmarch := marchStart_eq y
  have htwo := monthStart_two y
  have hnext := yearStart_succ y
  dsimp only
  obtain hk' | hk' : civilMonth n = 10 ∨ civilMonth n = 11 := by omega
  · rw [hk'] at hdef ⊢
    have h0 : monthStart (y + 1) ((10 : Int) - 10).toNat = 0 := rfl
    have hl : monthLength (y + 1) ((10 : Int) - 10).toNat = 31 := rfl
    exact ⟨⟨by decide,by omega,by omega⟩,by rw [dayNumber]; omega,by omega⟩
  · rw [hk'] at hdef ⊢
    have h0 : monthStart (y + 1) ((11 : Int) - 10).toNat = 31 := rfl
    have hl : monthLength (y + 1) ((11 : Int) - 10).toNat = if leap (y + 1) then 29 else 28 := rfl
    refine ⟨⟨by decide,by omega,?_⟩,by rw [dayNumber]; omega,by omega⟩
    rw [hl]
    split_ifs with h
    · omega
    · have : civilYearday n ≠ 365 := fun h' => h (hleap h')
      omega

theorem brokenDown_civilTm {t y : Int} {m : Nat} (hy : (civilTm t).year + 1900 = y)
    (hm : (civilTm t).mon = m) (hdate : Date y m (civilTm t).mday)
    (hday : dayNumber y m (civilTm t).mday = t / 86400)
    (hyday : (civilTm t).yday = monthStart y m + ((civilTm t).mday - 1)) : BrokenDown t (civilTm t) := by
  have hm' : (civilTm t).mon.toNat = m := by omega
  have hsec : (civilTm t).sec = t % 86400 % 3600 % 60 := rfl
  have hmin : (civilTm t).min = t % 86400 % 3600 / 60 := rfl
  have hhour : (civilTm t).hour = t % 86400 / 3600 := rfl
  have hwday : (civilTm t).wday = (t / 86400 + 719468 + 3) % 7 := rfl
  refine ⟨⟨by omega,by omega,by omega,by omega,by rw [hy,hm']; exact hdate⟩,?_,by omega,?_,rfl⟩
  · rw [Tm.clock,Tm.day,hy,hm',hday]
    omega
  · rw [hy,hm',hyday]

theorem civilTm_brokenDown (t : Int) : BrokenDown t (civilTm t) := by
  obtain ⟨n,hn⟩ : ∃ n, n = t / 86400 + 719468 := ⟨_,rfl⟩
  have hday := civilYearday_eq n
  have hmb := civilMonth_bounds n
  obtain ⟨y,hy⟩ : ∃ y, y = civilYear n + 400 * (n / 146097) := ⟨_,rfl⟩
  rw [← hy] at hday
  have hleap : isleap (civilYear n) = isleap y := by rw [isleap_eq,isleap_eq,hy,leap_add]
  have hdef : civilMonth n = (5 * civilYearday n + 2) / 153 := rfl
  obtain ⟨tm,htm⟩ : ∃ tm, tm = civilTm t := ⟨_,rfl⟩
  have hfields := htm
  rw [civilTm,← hn] at hfields
  by_cases hk : civilMonth n < 10
  · have hmon : civilMon n = civilMonth n + 2 := by rw [civilMon,if_pos hk]
    obtain ⟨h1,h2,h3⟩ := civil_late hday hk
    rw [hmon,if_neg (by omega),if_neg (by omega)] at hfields
    apply brokenDown_civilTm (y := y) (m := (civilMonth n + 2).toNat)
    · rw [← htm,hfields]
      dsimp only
      omega
    · rw [← htm,hfields]
      dsimp only
      omega
    · rw [← htm,hfields]
      exact h1
    · rw [← htm,hfields,h2]
      omega
    · rw [← htm,hfields,h3,hleap]
  · have hmon : civilMon n = civilMonth n - 10 := by rw [civilMon,if_neg hk,Int.sub_eq_add_neg]
    have hlp : civilYearday n = 365 → leap (y + 1) = true := by
      intro h
      have := (civilYearday_bounds n).2.2 h
      rwa [hy,show civilYear n + 400 * (n / 146097) + 1 = civilYear n + 1 + 400 * (n / 146097) by omega,
        leap_add]
    obtain ⟨h1,h2,h3⟩ := civil_early hday (by omega) hlp
    rw [hmon,if_pos (by omega),if_pos (by omega)] at hfields
    apply brokenDown_civilTm (y := y + 1) (m := (civilMonth n - 10).toNat)
    · rw [← htm,hfields]
      dsimp only
      omega
    · rw [← htm,hfields]
      dsimp only
      omega
    · rw [← htm,hfields]
      exact h1
    · rw [← htm,hfields,h2]
      omega
    · rw [← htm,hfields,h3]

section

variable {T : Target} (hT : T.Valid) {t : Int}

include hT

theorem gmtimeR_eq (ht : Fits 64 t) :
    gmtimeR T t = some (if Fits T.intBits (civilTm t).year then some (civilTm t) else none) := by
  have htb : -9223372036854775808 ≤ t ∧ t < 9223372036854775808 := ht
  obtain ⟨n,hn⟩ : ∃ n, n = t / 86400 + 719468 := ⟨_,rfl⟩
  have hnb : -2 ^ 62 ≤ n ∧ n < 2 ^ 62 := by omega
  obtain ⟨y,hy⟩ : ∃ y, y = civilYear n := ⟨_,rfl⟩
  obtain ⟨hy1,hy2,-,-⟩ := civilYear_bounds n rfl hy
  obtain ⟨hd1,hd2,-⟩ := civilYearday_bounds n
  obtain ⟨hm1,hm2⟩ := civilMonth_bounds n
  obtain ⟨e,he⟩ : ∃ e, e = n % 146097 := ⟨_,rfl⟩
  have hval : (e - e / 1460 + e / 36524 - e / 146096) / 365 = y := by rw [he,hy,civilYear]
  have hera : T.uint (T.ulong (e - e / 1460 + e / 36524 - e / 146096) / 365) = y := by
    have heb : 0 ≤ e ∧ e < 146097 := by omega
    have hsum : 0 ≤ e - e / 1460 + e / 36524 - e / 146096 ∧
        e - e / 1460 + e / 36524 - e / 146096 < 4294967296 := by
      clear he hval
      omega
    rw [hT.ulong_word hsum.1 hsum.2,hval,hT.uint_short (by omega) (by omega)]
  have hyd : T.uint (T.ulong (e - T.uint (365 * y + y / 4 - y / 100))) = civilYearday n := by
    have hle : T.intBits ≤ T.longBits := hT.intMax.trans hT.long
    simp only [Target.uint,Target.ulong]
    rw [unsigned_unsigned hle,unsigned_sub_unsigned,he,hy]
    exact hT.uint_short hd1 (by omega)
  have hmo : T.uint (5 * civilYearday n + 2) / 153 = civilMonth n := by
    rw [hT.uint_short (by omega) (by omega)]
    rfl
  have hday : T.uint (civilYearday n - T.uint (153 * civilMonth n + 2) / 5 + 1) =
      civilYearday n - (153 * civilMonth n + 2) / 5 + 1 := by
    unfold civilMonth at *
    rw [hT.uint_short (x := 153 * _ + 2) (by omega) (by omega),hT.uint_short (by omega) (by omega)]
  have hmon : T.uint (civilMonth n + if civilMonth n < 10 then 2 else -10) = civilMon n := by
    unfold civilMon
    split_ifs <;> exact hT.uint_short (by omega) (by omega)
  have hmonb : 0 ≤ civilMon n ∧ civilMon n ≤ 11 := by
    unfold civilMon
    split_ifs <;> omega
  have hyday : T.toInt (if 306 ≤ civilYearday n then T.uint (civilYearday n - 306)
      else T.uint (civilYearday n + 31 + 28 + isleap (T.toInt y))) =
      if 306 ≤ civilYearday n then civilYearday n - 306 else civilYearday n + 59 + isleap y := by
    have hle : 0 ≤ isleap y ∧ isleap y ≤ 1 := by
      unfold isleap
      split_ifs <;> omega
    rw [hT.toInt_short (x := y) (by omega) (by omega)]
    split_ifs
    · rw [hT.uint_short (by omega) (by omega),hT.toInt_short (by omega) (by omega)]
    · rw [hT.uint_short (by omega) (by omega),hT.toInt_short (by omega) (by omega)]
      omega
  have hone : 0 ≤ (if civilMon n ≤ 1 then (1 : Int) else 0) ∧ (if civilMon n ≤ 1 then (1 : Int) else 0) ≤ 1 := by
    split_ifs <;> omega
  have hyear : (civilTm t).year = y + n / 146097 * 400 + (if civilMon n ≤ 1 then 1 else 0) - 1900 := by
    rw [civilTm,← hn,hy]
  have hfit : (2 ^ (T.intBits - 1) - 1 < (civilTm t).year ∨ (civilTm t).year < -2 ^ (T.intBits - 1)) ↔
      ¬Fits T.intBits (civilTm t).year := by
    unfold Fits
    omega
  rw [gmtimeR,splitDays_eq hT ht,← hn]
  simp only [Option.bind_eq_bind,Option.bind_some,weekDay_eq hT hnb.1 hnb.2,splitEra_eq hT hnb.1 hnb.2,
    daysPer4Years,daysPerEra,daysPerCentury,daysPerYear,daysInJanuary,daysInFebruary,adjustedEpochYear,
    yearsPerEra,yearBase,secsPerHour,secsPerMin,Int.reduceMul,Int.reduceAdd,Int.reduceSub,← he,hera,hyd,hmo,
    hday,hmon,hyday]
  rw [hT.uint_short (x := 0 + y) (by omega) (by omega),timeT_eq (x := n / 146097 * 400) (by omega) (by omega)]
  simp only [Option.bind_some]
  rw [timeT_eq (x := 0 + y + n / 146097 * 400) (by omega) (by omega)]
  simp only [Option.bind_some]
  rw [timeT_eq (by omega) (by omega)]
  simp only [Option.bind_some]
  rw [timeT_eq (by omega) (by omega)]
  simp only [Option.bind_some,Option.pure_def]
  have hrem : (t % 86400).tdiv 3600 = t % 86400 / 3600 ∧ (t % 86400).tmod 3600 = t % 86400 % 3600 :=
    trunc_nonneg 3600 (by omega)
  have hsec : (t % 86400 % 3600).tdiv 60 = t % 86400 % 3600 / 60 ∧
      (t % 86400 % 3600).tmod 60 = t % 86400 % 3600 % 60 := trunc_nonneg 60 (by omega)
  rw [Int.zero_add,← hyear,hrem.1,hrem.2,hsec.1,hsec.2,
    hT.toInt_short (x := t % 86400 / 3600) (by omega) (by omega),
    hT.toInt_short (x := t % 86400 % 3600 / 60) (by omega) (by omega),
    hT.toInt_short (x := t % 86400 % 3600 % 60) (by omega) (by omega),
    hT.toInt_short (x := civilMon n) (by omega) (by omega),
    hT.toInt_short (x := civilYearday n - (153 * civilMonth n + 2) / 5 + 1) (by omega) (by omega)]
  by_cases hf : Fits T.intBits (civilTm t).year
  · rw [if_neg (fun h => hfit.mp h hf),if_pos hf,hT.toInt_fits hf,civilTm]
    simp only [← hn,← hy]
  · rw [if_pos (hfit.mpr hf),if_neg hf]

end

end Time
