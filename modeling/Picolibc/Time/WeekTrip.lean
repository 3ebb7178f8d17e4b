import Mathlib
import Picolibc.Time.RoundTrip

open Numerals

namespace Strptime

open Printf hiding Fits Mode Spec

open Checked Gregorian Time Strtoi

open Strftime hiding digit number convert recurse int

def weekFmt (c : Char) : List Char := ['%','Y',' ','%',c,' ','%','w']

inductive Weeks where
  | sunday
  | monday
  deriving DecidableEq, Repr

def Weeks.letter : Weeks → Char
  | sunday => 'U'
  | monday => 'W'

def Weeks.start : Weeks → Int
  | sunday => 0
  | monday => 1

def Weeks.since (k : Weeks) (wday : Int) : Int := (wday + (7 - k.start)) % 7

def Weeks.number (k : Weeks) (tm : Tm) : Int := (tm.yday + 7 - k.since tm.wday) / 7

def Weeks.store : Weeks → State → Int → State
  | sunday => storeWeekSun
  | monday => storeWeekMon

def Weeks.seen : Weeks → Seen
  | sunday => { Seen.none with year := true, wday := true, weekSun := true }
  | monday => { Seen.none with year := true, wday := true, weekMon := true }

section

variable {T : Target} {tm : Tm} {y : Int} {m : Nat} {d : Int} {k : Weeks} (hT : T.Valid) (hy : 1970 ≤ y ∧ y ≤ 9999)

theorem fillWday_seen {ymd : Seen} (h : ymd.wday = true) : fillWday T ymd tm = some tm := by
  rw [fillWday,if_neg (by simp [h])]
  rfl

theorem fillMon_keeps {tm' : Tm} (h : fillMon T tm = some tm') : ∃ mon, tm' = { tm with mon := mon } := by
  simp only [fillMon,Option.bind_eq_bind,Option.bind_eq_some_iff,Option.pure_def,Option.some.injEq] at h
  obtain ⟨year,-,rfl⟩ := h
  exact ⟨_,rfl⟩

theorem fillMday_keeps {tm' : Tm} (h : fillMday T tm = some tm') : ∃ mday, tm' = { tm with mday := mday } := by
  simp only [fillMday,Option.bind_eq_bind,Option.bind_eq_some_iff,Option.pure_def,Option.some.injEq] at h
  obtain ⟨before,-,mday,-,early,-,rfl⟩ := h
  exact ⟨_,rfl⟩

theorem fillDate_keeps {ymd ymd' : Seen} {tm' : Tm} (hmon : ymd.mon = false) (hmday : ymd.mday = false)
    (hyear : ymd.year = true) (hyday : ymd.yday = true) (h : fillDate T ymd tm = some (tm',ymd')) :
    tm'.yday = tm.yday ∧ ymd' = ymd := by
  rw [fillDate,if_neg (by simp [hmon]),if_pos ⟨hyear,hyday⟩] at h
  simp only [hmon,hmday,Bool.false_eq_true,if_false,Option.bind_eq_bind,Option.bind_eq_some_iff,Option.pure_def,
    Option.some.injEq,Prod.mk.injEq] at h
  obtain ⟨tm₁,hmon₁,tm₂,hmday₂,rfl,rfl⟩ := h
  obtain ⟨mon,rfl⟩ := fillMon_keeps hmon₁
  obtain ⟨mday,rfl⟩ := fillMday_keeps hmday₂
  exact ⟨rfl,rfl⟩

def Weeks.read (k : Weeks) (y wnum wday : Int) : Int := wnum * 7 + k.since wday - k.since (weekdayOf (yearStart y))

include hT hy

theorem setWeekNumber_eq {wnum wday ampm : Int} (hw : 0 ≤ wday ∧ wday ≤ 6) (h0 : 0 ≤ k.read y wnum wday) :
    setWeekNumber T ⟨⟨0,0,0,0,0,y - 1900,wday,0,0⟩,k.seen,wnum,ampm⟩ =
      some ⟨0,0,0,0,0,y - 1900,wday,k.read y wnum wday,0⟩ := by
  have hy1 : 1 ≤ y ∧ y ≤ 9999 := by omega
  have hfirst : firstWeekday y = weekdayOf (yearStart y) := if_pos hy.1
  have hrange : 0 ≤ weekdayOf (yearStart y) ∧ weekdayOf (yearStart y) < 7 := by
    unfold weekdayOf
    omega
  cases k with
  | sunday =>
    have hread : Weeks.sunday.read y wnum wday = wnum * 7 + wday - weekdayOf (yearStart y) := by
      change wnum * 7 + (wday + (7 - 0)) % 7 - (weekdayOf (yearStart y) + (7 - 0)) % 7 = _
      omega
    rw [hread] at h0 ⊢
    rw [setWeekNumber,if_pos (show Weeks.sunday.seen.weekSun = true from rfl),setWeekNumberSun,full_year hT hy1]
    simp only [Option.bind_eq_bind,Option.bind_some,firstDay_some hT hy1,hfirst]
    rw [clampYday,if_neg (not_lt.mpr h0)]
    rfl
  | monday =>
    have hread : Weeks.monday.read y wnum wday =
        wnum * 7 + (wday + 6).tmod 7 - (weekdayOf (yearStart y) + 6).tmod 7 := by
      rw [(trunc_nonneg 7 (by omega)).2,(trunc_nonneg 7 (by omega)).2]
      rfl
    rw [hread] at h0 ⊢
    rw [setWeekNumber,if_neg (show ¬Weeks.monday.seen.weekSun = true by decide),
      if_neg (show ¬Weeks.monday.seen.weekMon4 = true by decide),setWeekNumberMon,full_year hT hy1]
    simp only [Option.bind_eq_bind,Option.bind_some,firstDay_some hT hy1,hfirst]
    rw [clampYday,if_neg (not_lt.mpr h0)]
    rfl

theorem fillWeek_eq {wnum wday ampm : Int} (hw : 0 ≤ wday ∧ wday ≤ 6) (h0 : 0 ≤ k.read y wnum wday) :
    fillWeek T ⟨⟨0,0,0,0,0,y - 1900,wday,0,0⟩,k.seen,wnum,ampm⟩ =
      some (⟨0,0,0,0,0,y - 1900,wday,k.read y wnum wday,0⟩,{ k.seen with yday := true }) := by
  rw [fillWeek,if_pos (by cases k <;> exact ⟨rfl,rfl,rfl⟩),setWeekNumber_eq hT hy hw h0]
  rfl

theorem finish_week (hdate : Date y m d) {wnum wday ampm : Int} {buf : List UInt8} (hw : 0 ≤ wday ∧ wday ≤ 6)
    (hread : k.read y wnum wday = monthStart y m + (d - 1)) :
    finish T ⟨⟨0,0,0,0,0,y - 1900,wday,0,0⟩,k.seen,wnum,ampm⟩ buf = some (dated y m d wday,some buf) := by
  have hy1 : 1 ≤ y ∧ y ≤ 9999 := by omega
  have hlow := hdate.within.1
  have hweek := @fillWeek_eq T y k hT hy wnum wday ampm hw (by omega)
  have hfill := @fillDate_yday T y m d hT hy1 hdate { k.seen with yday := true } (by cases k <;> rfl) rfl
    (by cases k <;> rfl) (by cases k <;> rfl) wday 0 0 0
  rw [hread] at hweek
  exact finish_steps hweek (by cases k <;> rfl) hfill (fillWday_seen (by cases k <;> rfl))

theorem finish_late {wnum wday ampm : Int} {buf : List UInt8} (hw : 0 ≤ wday ∧ wday ≤ 6) (h0 : 0 ≤ k.read y wnum wday)
    {tm : Tm} {rest : Option (List UInt8)}
    (h : finish T ⟨⟨0,0,0,0,0,y - 1900,wday,0,0⟩,k.seen,wnum,ampm⟩ buf = some (tm,rest)) : tm.yday = k.read y wnum wday := by
  have hweek := @fillWeek_eq T y k hT hy wnum wday ampm hw h0
  have hhour : ∀ tm, fillHour { k.seen with yday := true } ampm tm = some tm := fun tm =>
    if_neg (show ¬k.seen.ampm = true by cases k <;> decide)
  rw [finish,hweek,Option.bind_eq_bind,Option.bind_some] at h
  simp only [hhour,Option.bind_eq_bind,Option.bind_eq_some_iff,Option.pure_def,Option.some.injEq,Prod.mk.injEq] at h
  obtain ⟨⟨tm₁,ymd₁⟩,hdate,tm₂,hwday,rfl,-⟩ := h
  obtain ⟨hyday,rfl⟩ := fillDate_keeps (by cases k <;> rfl) (by cases k <;> rfl) (by cases k <;> rfl) (by rfl) hdate
  rw [fillWday_seen (by cases k <;> rfl)] at hwday
  obtain rfl := Option.some.inj hwday
  exact hyday

end

section

variable {T : Target} {builtins : Bool} {tzenv : Option (List Char)} {z : Zone} {y : Int} {m : Nat} {d : Int} {k : Weeks}
  {ytext utext wtext : List UInt8} (hT : T.Valid) (h : YearRead y m d ytext)

include hT h

theorem strptime_week {wnum wday : Int} (hu : Numeral utext wnum) (hw : Numeral wtext wday) (hrange : 0 ≤ wnum ∧ wnum ≤ 53)
    (hday : 0 ≤ wday ∧ wday ≤ 6) :
    strptime T builtins tzenv z (ytext ++ byte ' ' :: (utext ++ byte ' ' :: wtext)) (weekFmt k.letter) =
      finish T ⟨⟨0,0,0,0,0,y - 1900,wday,0,0⟩,k.seen,wnum,0⟩ [] := by
  have hspace : ∀ rest, Apart (byte ' ' :: rest) := apart_cons (by decide)
  have hweek : ∀ (st : State) (rest : List UInt8), Apart rest → conversion T builtins tzenv z k.letter st (utext ++ rest) =
      some (k.store st wnum,some rest) := by
    intro st rest hrest
    cases k with
    | sunday => exact numeric_numeral hT hu (by omega) hrest (by omega) (by omega) storeWeekSun
    | monday => exact numeric_numeral hT hu (by omega) hrest (by omega) (by omega) storeWeekMon
  have hwday : ∀ st : State, conversion T builtins tzenv z 'w' st (wtext ++ []) = some (storeWday st wday,some []) := fun st =>
    numeric_numeral hT hw (by omega) apart_nil (by omega) (by omega) storeWday
  refine strptimeDepth_finish ?_
  rw [weekFmt,parse_year hT h (hspace _),parse_space (numeral_head hu hrange.1 _),
    parse_conversion (by cases k <;> decide) (by cases k <;> decide) (hweek _ _ (hspace _)),
    parse_space (by simpa using numeral_head hw hday.1 []),← List.append_nil wtext,
    parse_conversion (by decide) (by decide) (hwday _),parse]
  cases k <;> rfl

end

theorem number_read {tm : Tm} {k : Weeks}
    (hwday : tm.wday = weekdayOf (yearStart (tm.year + 1900) + tm.yday)) :
    k.read (tm.year + 1900) (k.number tm) tm.wday =
      tm.yday + if weekdayOf (yearStart (tm.year + 1900)) = k.start then 7 else 0 := by
  unfold Weeks.read Weeks.number Weeks.since
  rw [hwday]
  unfold weekdayOf
  cases k with
  | sunday =>
    rw [Weeks.start]
    split_ifs <;> omega
  | monday =>
    rw [Weeks.start]
    split_ifs <;> omega

theorem number_range {tm : Tm} {k : Weeks} (hyday : 0 ≤ tm.yday ∧ tm.yday ≤ 366) :
    0 ≤ k.number tm ∧ k.number tm ≤ 53 := by
  unfold Weeks.number Weeks.since
  omega

section

variable {b : Build} {ft : FloatText} {zones : Zones} {tm : Tm} {maxsize : Nat} {k : Weeks}
  (hb : b.Full) (hbits : 16 ≤ b.intBits) (hsize : maxsize < 2 ^ b.sizeBits)

include hbits

theorem emit_week (hyday : 0 ≤ tm.yday ∧ tm.yday ≤ 366) (hw : 0 ≤ tm.wday ∧ tm.wday ≤ 6) :
    emit b zones tm none 0 k.letter = some (.printed d2 [.int (k.number tm)]) := by
  cases k with
  | sunday =>
    have hnumber : Weeks.sunday.number tm = (tm.yday + 7 - tm.wday).tdiv 7 := by
      rw [(trunc_nonneg 7 (by omega)).1]
      change (tm.yday + 7 - (tm.wday + (7 - 0)) % 7) / 7 = _
      omega
    change weekSun b tm = _
    rw [weekSun,int_short hbits (by omega) (by omega),Option.bind_eq_bind,Option.bind_some,
      int_short hbits (by omega) (by omega),Option.bind_some,hnumber]
    rfl
  | monday =>
    have hnumber : Weeks.monday.number tm = (tm.yday + 7 - (tm.wday + 6) % 7).tdiv 7 := by
      rw [(trunc_nonneg 7 (by omega)).1]
      rfl
    change weekMon b tm = _
    rw [weekMon,isoWday_eq hbits hw,Option.bind_eq_bind,Option.bind_some,int_short hbits (by omega) (by omega),
      Option.bind_some,int_short hbits (by omega) (by omega),Option.bind_some,hnumber]
    rfl

include hb hsize

theorem strftime_week (hy : 1970 ≤ tm.year + 1900 ∧ tm.year + 1900 ≤ 9999) (h : Dated tm) (hroom : 3 * b.intBits + 5 < maxsize) :
    ∃ ytext utext wtext, strftime b ft zones tm maxsize (weekFmt k.letter) =
      some (some (ytext ++ byte ' ' :: (utext ++ byte ' ' :: wtext))) ∧ Numeral ytext (tm.year + 1900) ∧
        Numeral utext (k.number tm) ∧ Numeral wtext tm.wday := by
  obtain ⟨hlow,hhigh⟩ := h.date.within
  rw [← h.yday] at hlow hhigh
  have hlen := yearLength_pos (tm.year + 1900)
  have hwday := h.wday
  unfold weekdayOf at hwday
  have hrange := @number_range tm k (by omega)
  obtain ⟨w,hw⟩ := Int.eq_ofNat_of_zero_le (show 0 ≤ tm.wday by omega)
  obtain ⟨ytext,hyp,hynum,hylen⟩ := @year_shown b ft tm hb hbits (by omega)
  obtain ⟨utext,hup,hunum,hulen⟩ := @prints_padded b ft hb hbits d2 2 rfl (by decide) (by decide) (k.number tm) (by omega)
  have hu := @emit_week b zones tm k hbits (by omega) (by omega)
  have hdigit : emit b zones tm none 0 'w' = some (.chars [digitByte w]) := by
    change some (Strftime.digit tm.wday) = _
    rw [hw,digit_eq (by omega)]
  refine ⟨ytext,utext,[digitByte w],?_,hynum,hunum,by rw [hw]; exact numeral_digit (by omega)⟩
  change scan b ft zones tm (strftimeDepth b ft zones tm 1) maxsize [] .text (weekFmt k.letter) = _
  rw [weekFmt,scan_emit (by decide) (by decide) rfl hyp (by simp; omega) hsize,scan_char (by decide) (by simp; omega) hsize,
    scan_emit (by cases k <;> decide) (by cases k <;> decide) hu hup (by simp; omega) hsize,
    scan_char (by decide) (by simp; omega) hsize,
    scan_emit (by decide) (by decide) hdigit (prints_chars _) (by simp; omega) hsize]
  simp [scan]

theorem week_restored (hy : 1970 ≤ tm.year + 1900 ∧ tm.year + 1900 ≤ 9999) (h : Dated tm) (hroom : 3 * b.intBits + 5 < maxsize)
    {T : Target} (hT : T.Valid) {builtins : Bool} {tzenv : Option (List Char)} {z : Zone} :
    Restores b ft zones maxsize T builtins tzenv z (weekFmt k.letter) tm ↔
      weekdayOf (dayNumber (tm.year + 1900) 0 1) ≠ k.start := by
  obtain ⟨hlow,hhigh⟩ := h.date.within
  have hyday := h.yday
  rw [← hyday] at hlow hhigh
  have hlen := yearLength_pos (tm.year + 1900)
  have hw : 0 ≤ tm.wday ∧ tm.wday ≤ 6 := by
    have hwday := h.wday
    unfold weekdayOf at hwday
    omega
  have hrange := @number_range tm k (by omega)
  have hread := @number_read tm k h.wday
  have hjan : dayNumber (tm.year + 1900) 0 1 = yearStart (tm.year + 1900) := by
    rw [dayNumber,show monthStart (tm.year + 1900) 0 = 0 from rfl]
    omega
  obtain ⟨ytext,utext,wtext,htext,hynum,hunum,hwnum⟩ := @strftime_week b ft zones tm maxsize k hb hbits hsize hy h hroom
  have hparse := @strptime_week T builtins tzenv z (tm.year + 1900) tm.mon.toNat tm.mday k ytext utext wtext hT
    ⟨by omega,h.date,hynum⟩ (k.number tm) tm.wday hunum hwnum (by omega) hw
  rw [hjan]
  constructor
  · rintro ⟨text,tm',htext',hparse',hsame⟩ hstart
    rw [htext] at htext'
    obtain rfl := Option.some.inj (Option.some.inj htext')
    rw [hparse] at hparse'
    rw [if_pos hstart] at hread
    have hlate := finish_late hT hy hw (by omega) hparse'
    have := hsame.yday
    omega
  · intro hne
    rw [if_neg hne,Int.add_zero,hyday] at hread
    rw [finish_week hT hy h.date hw hread] at hparse
    refine ⟨_,_,htext,hparse,⟨?_,?_,rfl,hyday.symm,rfl⟩⟩
    · exact Int.add_sub_cancel _ _
    · exact Int.toNat_of_nonneg h.mon

end

theorem week_restored_leap_day : Restores Printf.lp64 noFloats utcZones 128 Time.lp64 true none Zone.start (weekFmt 'U') leapDay ↔
    weekdayOf (dayNumber (leapDay.year + 1900) 0 1) ≠ 0 :=
  @week_restored Printf.lp64 noFloats utcZones leapDay 128 .sunday lp64_full (by decide) (by decide) (by decide) leapDay_dated
    (by decide) Time.lp64 lp64_valid true none Zone.start

theorem sunday_2006 : Dated (newYear 2006 0) ∧
    strftime Printf.lp64 noFloats utcZones (newYear 2006 0) 128 (weekFmt 'U') =
      some (some (['2','0','0','6',' ','0','1',' ','0'].map byte)) ∧
    strptime Time.lp64 true none Zone.start (['2','0','0','6',' ','0','1',' ','0'].map byte) (weekFmt 'U') =
      some (⟨0,0,0,8,0,106,0,7,-1⟩,some []) ∧
    ¬Restores Printf.lp64 noFloats utcZones 128 Time.lp64 true none Zone.start (weekFmt 'U') (newYear 2006 0) := by
  have hprint : strftime Printf.lp64 noFloats utcZones (newYear 2006 0) 128 (weekFmt 'U') =
      some (some (['2','0','0','6',' ','0','1',' ','0'].map byte)) := by decide
  have hread : strptime Time.lp64 true none Zone.start (['2','0','0','6',' ','0','1',' ','0'].map byte) (weekFmt 'U') =
      some (⟨0,0,0,8,0,106,0,7,-1⟩,some []) := by decide +kernel
  refine ⟨⟨by decide,⟨by decide,by decide,by decide⟩,by decide,by decide⟩,hprint,hread,?_⟩
  rintro ⟨text,tm',htext,hparse,hsame⟩
  rw [hprint] at htext
  obtain rfl := Option.some.inj (Option.some.inj htext)
  rw [hread] at hparse
  obtain ⟨rfl,-⟩ := Prod.mk.inj (Option.some.inj hparse)
  exact absurd hsame.yday (by decide)

end Strptime
