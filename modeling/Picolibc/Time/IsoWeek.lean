import Mathlib
import Picolibc.Time.Limits
import Picolibc.Time.YearText

open Numerals

namespace Strftime

open Printf hiding Fits

open Checked Gregorian Time Strtoi

def weekOneMonday (y : Int) : Int := dayNumber y 0 4 - (weekdayOf (dayNumber y 0 4) + 6) % 7

structure IsoDate (n year week weekday : Int) : Prop where
  counted : 1 ≤ week
  monday : 1 ≤ weekday
  sunday : weekday ≤ 7
  day : n = weekOneMonday year + 7 * (week - 1) + (weekday - 1)
  within : n < weekOneMonday (year + 1)

def dayOf (tm : Tm) : Int := yearStart (tm.year + 1900) + tm.yday

structure Placed (tm : Tm) : Prop where
  first : 0 ≤ tm.yday
  last : tm.yday < yearLength (tm.year + 1900)
  wday : tm.wday = weekdayOf (dayOf tm)

theorem weekOneMonday_eq (y : Int) : weekOneMonday y = yearStart y + 3 - (yearStart y + 6) % 7 := by
  unfold weekOneMonday weekdayOf dayNumber
  rw [show monthStart y 0 = 0 from rfl]
  omega

theorem weekOneMonday_lt {y z : Int} (h : y < z) : weekOneMonday (y + 1) ≤ weekOneMonday z := by
  have hstart := yearStart_lt h
  rw [weekOneMonday_eq,weekOneMonday_eq]
  omega

theorem IsoDate.first {n year week weekday : Int} (h : IsoDate n year week weekday) : weekOneMonday year ≤ n := by
  obtain ⟨hweek,hmonday,-,hday,-⟩ := h
  omega

theorem isoDate_unique {n year week weekday year' week' weekday' : Int} (h : IsoDate n year week weekday)
    (h' : IsoDate n year' week' weekday') : year = year' ∧ week = week' ∧ weekday = weekday' := by
  have hfirst := h.first
  have hfirst' := h'.first
  obtain ⟨-,hmonday,hsunday,hday,hwithin⟩ := h
  obtain ⟨-,hmonday',hsunday',hday',hwithin'⟩ := h'
  obtain rfl : year = year' := by
    rcases lt_trichotomy year year' with hlt | heq | hgt
    · have := weekOneMonday_lt hlt
      omega
    · exact heq
    · have := weekOneMonday_lt hgt
      omega
  exact ⟨rfl,by omega,by omega⟩

theorem leap_congr {y z : Int} (h : y % 400 = z % 400) : leap y = leap z := by
  rw [Bool.eq_iff_iff,leap_iff,leap_iff]
  omega

theorem dayOf_inj {tm tm' : Tm} (h : Placed tm) (h' : Placed tm') (heq : dayOf tm = dayOf tm') :
    tm.year = tm'.year ∧ tm.yday = tm'.yday := by
  obtain ⟨hlow,hhigh,-⟩ := h
  obtain ⟨hlow',hhigh',-⟩ := h'
  unfold dayOf at heq
  have hyear : tm.year + 1900 = tm'.year + 1900 := by
    apply @year_unique (yearStart (tm.year + 1900) + tm.yday)
    · omega
    · rw [yearStart_succ]
      omega
    · omega
    · rw [yearStart_succ]
      omega
  rw [hyear] at heq
  omega

def isoAdjust (tm : Tm) : Int :=
  if tm.yday + 4 ≤ (tm.wday + 6) % 7 then -1 else
  if yearLength (tm.year + 1900) ≤ tm.yday + 3 - (tm.wday + 6) % 7 then 1 else
  0

theorem isoAdjust_week {tm : Tm} (h : Placed tm) : weekOneMonday (tm.year + 1900 + isoAdjust tm) ≤ dayOf tm ∧
    dayOf tm < weekOneMonday (tm.year + 1900 + isoAdjust tm + 1) := by
  obtain ⟨hlow,hhigh,hwday⟩ := h
  have hsucc := yearStart_succ (tm.year + 1900)
  have hprev := yearStart_succ (tm.year + 1900 - 1)
  have hlen := yearLength_pos (tm.year + 1900 - 1)
  have hlen' := yearLength_pos (tm.year + 1900)
  have hlen'' := yearLength_pos (tm.year + 1900 + 1)
  have hnext := yearStart_succ (tm.year + 1900 + 1)
  rw [Int.sub_add_cancel] at hprev
  unfold weekdayOf at hwday
  unfold isoAdjust
  unfold dayOf at *
  split_ifs with hearly hlate
  · rw [← Int.sub_eq_add_neg,Int.sub_add_cancel,weekOneMonday_eq,weekOneMonday_eq]
    omega
  · rw [weekOneMonday_eq,weekOneMonday_eq]
    omega
  · rw [Int.add_zero,weekOneMonday_eq,weekOneMonday_eq]
    omega

theorem mem_previousYear {yday wday lp : Int} (h0 : 0 ≤ yday) (hw : 0 ≤ wday ∧ wday ≤ 6) (hl : 0 ≤ lp ∧ lp ≤ 1) :
    pack yday wday lp ∈ previousYear ↔ yday + 4 ≤ (wday + 6) % 7 := by
  simp only [previousYear,pack,List.mem_cons,List.not_mem_nil,or_false]
  omega

theorem mem_nextYear {yday wday lp : Int} (hlast : yday < 365 + lp) (hw : 0 ≤ wday ∧ wday ≤ 6)
    (hl : 0 ≤ lp ∧ lp ≤ 1) : pack yday wday lp ∈ nextYear ↔ 365 + lp ≤ yday + 3 - (wday + 6) % 7 := by
  simp only [nextYear,pack,List.mem_cons,List.not_mem_nil,or_false]
  omega

section

variable {b : Build} {ft : FloatText} {zones : Zones} {tm : Tm} {maxsize : Nat} (hbits : 16 ≤ b.intBits)

include hbits

theorem int_short {x : Int} (h1 : -32768 ≤ x) (h2 : x < 32768) : int b x = some x := signed_fits (fits_short hbits h1 h2)

theorem isleap2_eq {y k : Int} (hk : k ≠ 0) (hsmall : -30000 ≤ k ∧ k ≤ 30000) :
    isleap2 b y k = some (if leap (y + k) then 1 else 0) := by
  have hrange : -400 < y.tmod 400 ∧ y.tmod 400 < 400 ∧ y.tmod 400 % 400 = y % 400 := by
    rcases le_or_gt 0 y with h | h
    · rw [(trunc_nonneg 400 h).2]
      omega
    · rw [(trunc_neg 400 h.le).2]
      omega
  have hyear : (timeTarget b).int (y.tmod 400 + k) = some (y.tmod 400 + k) := int_short hbits (by omega) (by omega)
  rw [isleap2,Time.isleap2,if_pos hk,hyear,Option.bind_eq_bind,Option.bind_some,isleap_eq,
    leap_congr (show (y.tmod 400 + k) % 400 = (y + k) % 400 by omega)]
  rfl

theorem leap_shifted {y k : Int} (hk : k = 0 ∨ k = 2000) (d : Int) (hd : d = 1900 ∨ d = 1899) :
    isleap2 b y (d - k) = some (if leap (y + d) then 1 else 0) := by
  rw [isleap2_eq hbits (by omega) (by omega),leap_congr (show (y + (d - k)) % 400 = (y + d) % 400 by omega)]

theorem isoYearAdjust_eq (h : Placed tm) : isoYearAdjust b tm = some (isoAdjust tm) := by
  obtain ⟨hlow,hhigh,hwday⟩ := h
  have hw : 0 ≤ tm.wday ∧ tm.wday ≤ 6 := by
    unfold weekdayOf at hwday
    omega
  have hlen : yearLength (tm.year + 1900) = 365 + if leap (tm.year + 1900) then 1 else 0 := by
    unfold yearLength
    split_ifs <;> rfl
  obtain ⟨lp,hlp⟩ : ∃ lp : Int, lp = if leap (tm.year + 1900) then 1 else 0 := ⟨_,rfl⟩
  have hl : 0 ≤ lp ∧ lp ≤ 1 := by
    rw [hlp]
    split_ifs <;> decide
  rw [← hlp] at hlen
  rw [isoYearAdjust,yearBase,leap_shifted hbits (by split_ifs <;> simp) 1900 (.inl rfl),Option.bind_eq_bind,Option.bind_some,
    ← hlp,int_short hbits (by unfold pack; omega) (by unfold pack; omega),Option.bind_some]
  simp only [mem_previousYear hlow hw hl,mem_nextYear (by omega : tm.yday < 365 + lp) hw hl]
  unfold isoAdjust
  rw [hlen]
  rfl

theorem absYear_eq (hy : 2 ≤ tm.year + 1900 ∧ tm.year + 1900 ≤ 9999) : absYear b tm = some (tm.year + 1900) := by
  rw [absYear,yearBase,int_short hbits (by omega) (by omega),Option.bind_eq_bind,Option.bind_some,abs_of_pos (by omega)]
  rfl

omit hbits in
theorem isoAdjust_range : -1 ≤ isoAdjust tm ∧ isoAdjust tm ≤ 1 := by
  unfold isoAdjust
  split_ifs <;> decide

theorem parts_eq (hy : 2 ≤ tm.year + 1900 ∧ tm.year + 1900 ≤ 9999) :
    centuryPart b tm = some ((tm.year + 1900) / 100) ∧ yearPart b tm = some ((tm.year + 1900) % 100) := by
  unfold centuryPart yearPart
  split_ifs with h0
  · obtain ⟨hd,hm⟩ := trunc_nonneg 100 h0
    rw [hd,hm,show yearBase.tdiv 100 = 19 from rfl]
    refine ⟨congrArg some ?_,congrArg some ?_⟩ <;> omega
  · obtain ⟨hd,hm⟩ := trunc_nonneg 100 (show 0 ≤ tm.year + 1900 by omega)
    rw [absYear_eq hbits hy,Option.map_some,Option.map_some,hd,hm]
    exact ⟨rfl,rfl⟩

omit hbits in
theorem isoSign_eq (hy : 2 ≤ tm.year + 1900) (adjust : Int) : isoSign tm adjust = (false,adjust) := by
  rw [isoSign,yearBase,if_neg (by omega),if_neg (by omega),decide_eq_false (by omega)]

theorem isoYear_eq (h : Placed tm) (hy : 2 ≤ tm.year + 1900 ∧ tm.year + 1900 ≤ 9999) :
    isoYear b tm none 0 = some (yearText b none none 0 (tm.year + 1900 + isoAdjust tm).natAbs) := by
  obtain ⟨hlow,hhigh⟩ := @isoAdjust_range tm
  obtain ⟨hcentury,hyear⟩ := @parts_eq b tm hbits hy
  have hcast : (2 : Int) ^ 16 ≤ 2 ^ b.intBits := pow_le hbits
  obtain ⟨c,hc⟩ : ∃ c, c = carryCentury ((tm.year + 1900) / 100) ((tm.year + 1900) % 100 + isoAdjust tm) := ⟨_,rfl⟩
  have hcarry : c.1 * 100 + c.2 = tm.year + 1900 + isoAdjust tm ∧ 0 ≤ c.2 ∧ c.2 ≤ 99 := by
    rw [hc,carryCentury]
    split_ifs <;> dsimp only <;> omega
  rw [isoYear,isoYearAdjust_eq hbits h,hcentury,hyear]
  simp only [Option.bind_eq_bind,Option.bind_some,isoSign_eq hy.1,← hc]
  rw [int_short hbits (by omega) (by omega),Option.bind_some,int_short hbits (by omega) (by omega),Option.bind_some,
    hcarry.1,wrapU,Int.emod_eq_of_lt (by omega) (by omega)]
  simp only [yearSign,Bool.false_eq_true,if_false,reduceCtorEq,false_and]
  rw [show (tm.year + 1900 + isoAdjust tm).toNat = (tm.year + 1900 + isoAdjust tm).natAbs by omega]
  rfl

theorem isoShortYear_eq (h : Placed tm) (hy : 2 ≤ tm.year + 1900 ∧ tm.year + 1900 ≤ 9999) :
    isoShortYear b tm = some (.printed d2 [.int ((tm.year + 1900 + isoAdjust tm) % 100)]) := by
  obtain ⟨hlow,hhigh⟩ := @isoAdjust_range tm
  have hm : (((tm.year + 1900) % 100 + isoAdjust tm).tmod 100 + 100).tmod 100 = (tm.year + 1900 + isoAdjust tm) % 100 := by
    rcases le_or_gt 0 ((tm.year + 1900) % 100 + isoAdjust tm) with h0 | h0
    · rw [(trunc_nonneg 100 h0).2,(trunc_nonneg 100 (by omega)).2]
      omega
    · rw [(trunc_neg 100 h0.le).2,(trunc_nonneg 100 (by omega)).2]
      omega
  rw [isoShortYear,isoYearAdjust_eq hbits h,(parts_eq hbits hy).2]
  simp only [Option.bind_eq_bind,Option.bind_some,isoSign_eq hy.1,hm]
  rfl

def isoWeekNumber (tm : Tm) : Int := (dayOf tm - weekOneMonday (tm.year + 1900 + isoAdjust tm)) / 7 + 1

theorem isoWday_eq (hw : 0 ≤ tm.wday ∧ tm.wday ≤ 6) : isoWday b tm = some ((tm.wday + 6) % 7) := by
  unfold isoWday
  split_ifs with h
  · rw [int_short hbits (by omega) (by omega)]
    exact congrArg some (by omega)
  · exact congrArg some (by omega)

theorem lastWeek_eq (h : Placed tm) (hearly : tm.yday + 4 ≤ (tm.wday + 6) % 7) :
    lastWeek b tm ((tm.wday + 6) % 7) = some (isoWeekNumber tm) := by
  have hlow := h.first
  have hwday := h.wday
  have hprev := yearStart_succ (tm.year + 1900 - 1)
  rw [Int.sub_add_cancel] at hprev
  have hlen : yearLength (tm.year + 1900 - 1) = 365 + if leap (tm.year + 1899) then 1 else 0 := by
    rw [show tm.year + 1900 - 1 = tm.year + 1899 by omega]
    unfold yearLength
    split_ifs <;> rfl
  obtain ⟨lp,hlp⟩ : ∃ lp : Int, lp = if leap (tm.year + 1899) then 1 else 0 := ⟨_,rfl⟩
  have hl : 0 ≤ lp ∧ lp ≤ 1 := by
    rw [hlp]
    split_ifs <;> decide
  rw [lastWeek,yearBase,show (1900 : Int) - 1 = 1899 from rfl,leap_shifted hbits (by split_ifs <;> simp) 1899 (.inr rfl),
    ← hlp,Option.bind_eq_bind,Option.bind_some,int_short hbits (by omega) (by omega),Option.bind_some,
    int_short hbits (by omega) (by omega),Option.bind_some]
  rw [← hlp] at hlen
  refine congrArg some ?_
  rw [isoWeekNumber,isoAdjust,if_pos hearly,← Int.sub_eq_add_neg,weekOneMonday_eq]
  unfold weekdayOf at hwday
  unfold dayOf at *
  split_ifs <;> omega

theorem isoWeek_eq (h : Placed tm) : isoWeek b tm = some (.printed d2 [.int (isoWeekNumber tm)]) := by
  have hlow := h.first
  have hhigh := h.last
  have hwday := h.wday
  have hlen := yearLength_pos (tm.year + 1900)
  have hsucc := yearStart_succ (tm.year + 1900)
  have hdiv : (tm.yday + 10 - (tm.wday + 6) % 7).tdiv 7 = (tm.yday + 10 - (tm.wday + 6) % 7) / 7 :=
    (trunc_nonneg 7 (by omega)).1
  rw [isoWeek,isoYearAdjust_eq hbits h,isoWday_eq hbits (by unfold weekdayOf at hwday; omega)]
  simp only [Option.bind_eq_bind,Option.bind_some]
  rw [int_short hbits (by omega) (by omega),Option.bind_some,int_short hbits (by omega) (by omega),Option.bind_some,hdiv]
  have hweek : (if 0 < isoAdjust tm then some 1 else if isoAdjust tm < 0 then lastWeek b tm ((tm.wday + 6) % 7) else
      some ((tm.yday + 10 - (tm.wday + 6) % 7) / 7)) = some (isoWeekNumber tm) := by
    by_cases hearly : tm.yday + 4 ≤ (tm.wday + 6) % 7
    · rw [isoAdjust,if_pos hearly,if_neg (by decide),if_pos (by decide),lastWeek_eq hbits h hearly]
    · rw [isoWeekNumber,isoAdjust,if_neg hearly]
      unfold weekdayOf at hwday
      unfold dayOf at *
      by_cases hlate : yearLength (tm.year + 1900) ≤ tm.yday + 3 - (tm.wday + 6) % 7
      · rw [if_pos hlate,if_pos (by decide),weekOneMonday_eq]
        exact congrArg some (by omega)
      · rw [if_neg hlate,if_neg (by decide),if_neg (by decide),Int.add_zero,weekOneMonday_eq]
        exact congrArg some (by omega)
  rw [hweek]
  rfl

omit hbits in
theorem isoDate_of (h : Placed tm) :
    IsoDate (dayOf tm) (tm.year + 1900 + isoAdjust tm) (isoWeekNumber tm) ((tm.wday + 6) % 7 + 1) := by
  obtain ⟨hlow,hhigh⟩ := isoAdjust_week h
  have hwday := h.wday
  have hmonday := weekOneMonday_eq (tm.year + 1900 + isoAdjust tm)
  unfold weekdayOf at hwday
  unfold isoWeekNumber
  refine ⟨?_,?_,?_,?_,hhigh⟩ <;> omega

structure IsoShown (b : Build) (ft : FloatText) (zones : Zones) (tm : Tm) (maxsize : Nat) (year week weekday : Int) : Prop where
  long : ∃ text, strftime b ft zones tm maxsize ['%','G'] = some (some text) ∧ Numeral text year
  number : ∃ text, strftime b ft zones tm maxsize ['%','V'] = some (some text) ∧ Numeral text week
  day : ∃ text, strftime b ft zones tm maxsize ['%','u'] = some (some text) ∧ Numeral text weekday
  short : ∃ text, strftime b ft zones tm maxsize ['%','g'] = some (some text) ∧ Numeral text (year % 100)

omit hbits in
theorem emit_weekday (h : Placed tm) : ∃ w : Nat, w < 10 ∧ (w : Int) = (tm.wday + 6) % 7 + 1 ∧
    emit b zones tm none 0 'u' = some (.chars [digitByte w]) := by
  have hwday := h.wday
  unfold weekdayOf at hwday
  obtain ⟨w,hw⟩ := Int.eq_ofNat_of_zero_le (show 0 ≤ (tm.wday + 6) % 7 + 1 by omega)
  refine ⟨w,by omega,hw.symm,?_⟩
  change some (if tm.wday = 0 then .chars [byte '7'] else digit tm.wday) = _
  split_ifs with h0
  · obtain rfl : w = 7 := by omega
    rfl
  · rw [show tm.wday = w by omega,digit_eq (by omega)]

omit hbits in
theorem isoWeekNumber_range (h : Placed tm) : 1 ≤ isoWeekNumber tm ∧ isoWeekNumber tm ≤ 53 := by
  obtain ⟨hlow,hhigh⟩ := isoAdjust_week h
  have hlen := yearLength_pos (tm.year + 1900 + isoAdjust tm)
  have hsucc := yearStart_succ (tm.year + 1900 + isoAdjust tm)
  rw [weekOneMonday_eq] at hlow hhigh
  rw [isoWeekNumber,weekOneMonday_eq]
  omega

variable (hb : b.Full)

include hb

theorem iso_shown (h : Placed tm) (hy : 2 ≤ tm.year + 1900 ∧ tm.year + 1900 ≤ 9999) (hroom : b.intBits + 1 < maxsize)
    (hsize : maxsize < 2 ^ b.sizeBits) : IsoShown b ft zones tm maxsize (tm.year + 1900 + isoAdjust tm) (isoWeekNumber tm)
      ((tm.wday + 6) % 7 + 1) := by
  obtain ⟨hlow,hhigh⟩ := @isoAdjust_range tm
  obtain ⟨hfirst,hlast⟩ := isoWeekNumber_range h
  have hsmall : (tm.year + 1900 + isoAdjust tm).natAbs < 2 ^ b.intBits :=
    (show (tm.year + 1900 + isoAdjust tm).natAbs < 2 ^ 16 by omega).trans_le (Nat.pow_le_pow_right (by decide) hbits)
  obtain ⟨gtext,hgp,hgnum,-,hglen⟩ := @prints_signed b ft hb (tm.year + 1900 + isoAdjust tm) hsmall
  rw [if_neg (by omega)] at hgp
  obtain ⟨vtext,hvp,hvnum,hvlen⟩ := @prints_number b ft hb (by omega) d2 (.lit [2]) 2 rfl rfl (fun _ _ => rfl)
    (isoWeekNumber tm) (fits_short hbits (by omega) (by omega)) (.inl (by decide))
  obtain ⟨stext,hsp,hsnum,hslen⟩ := @prints_number b ft hb (by omega) d2 (.lit [2]) 2 rfl rfl (fun _ _ => rfl)
    ((tm.year + 1900 + isoAdjust tm) % 100) (fits_short hbits (by omega) (by omega)) (.inl (by decide))
  obtain ⟨w,hw,hval,he⟩ := @emit_weekday b zones tm h
  refine ⟨⟨gtext,?_,hgnum (by omega)⟩,⟨vtext,?_,hvnum⟩,⟨[digitByte w],?_,?_⟩,⟨stext,?_,hsnum⟩⟩
  · exact strftime_emit (by decide) (by decide) (isoYear_eq hbits h hy) hgp (by omega) hsize
  · exact strftime_emit (by decide) (by decide) (isoWeek_eq hbits h) hvp (by omega) hsize
  · exact strftime_emit (by decide) (by decide) he (prints_chars _) (by rw [List.length_singleton]; omega) hsize
  · rw [← hval]
    exact numeral_digit hw
  · exact strftime_emit (by decide) (by decide) (isoShortYear_eq hbits h hy) hsp (by omega) hsize

omit hbits hb in
theorem IsoShown.unique {year week weekday year' week' weekday' : Int} {tm' : Tm}
    (h : IsoShown b ft zones tm maxsize year week weekday) (h' : IsoShown b ft zones tm' maxsize year' week' weekday')
    (heq : ∀ c ∈ ['G','V','u'], strftime b ft zones tm' maxsize ['%',c] = strftime b ft zones tm maxsize ['%',c]) :
    year' = year ∧ week' = week ∧ weekday' = weekday := by
  have hsame : ∀ {c : Char} {x x' : Int}, c ∈ ['G','V','u'] →
      (∃ text, strftime b ft zones tm maxsize ['%',c] = some (some text) ∧ Numeral text x) →
        (∃ text, strftime b ft zones tm' maxsize ['%',c] = some (some text) ∧ Numeral text x') → x' = x := by
    rintro c x x' hc ⟨text,htext,hnum⟩ ⟨text',htext',hnum'⟩
    rw [heq c hc,htext] at htext'
    obtain rfl := Option.some.inj (Option.some.inj htext')
    exact hnum'.unique hnum
  exact ⟨hsame (by decide) h.long h'.long,hsame (by decide) h.number h'.number,hsame (by decide) h.day h'.day⟩

theorem iso_week_date (h : Placed tm) (hy : 2 ≤ tm.year + 1900 ∧ tm.year + 1900 ≤ 9999) (hroom : b.intBits + 1 < maxsize)
    (hsize : maxsize < 2 ^ b.sizeBits) : (∃ year week weekday, IsoDate (dayOf tm) year week weekday ∧
      IsoShown b ft zones tm maxsize year week weekday) ∧
      ∀ tm', Placed tm' → 2 ≤ tm'.year + 1900 ∧ tm'.year + 1900 ≤ 9999 →
        (∀ c ∈ ['G','V','u'], strftime b ft zones tm' maxsize ['%',c] = strftime b ft zones tm maxsize ['%',c]) →
          tm'.year = tm.year ∧ tm'.yday = tm.yday := by
  have hshown := @iso_shown b ft zones tm maxsize hbits hb h hy hroom hsize
  refine ⟨⟨_,_,_,isoDate_of h,hshown⟩,fun tm' h' hy' heq => ?_⟩
  have hshown' := @iso_shown b ft zones tm' maxsize hbits hb h' hy' hroom hsize
  obtain ⟨hyear,hweek,hday⟩ := hshown.unique hshown' heq
  have hd := (isoDate_of h).day
  have hd' := (isoDate_of h').day
  rw [hyear,hweek,hday,← hd] at hd'
  exact dayOf_inj h' h hd'

end

theorem iso_week_date_2021 : Placed (newYear 2021 5) ∧
    (∃ year week weekday, IsoDate (dayOf (newYear 2021 5)) year week weekday ∧
      IsoShown Printf.lp64 noFloats utcZones (newYear 2021 5) 64 year week weekday) ∧
      ∀ tm', Placed tm' → 2 ≤ tm'.year + 1900 ∧ tm'.year + 1900 ≤ 9999 →
        (∀ c ∈ ['G','V','u'], strftime Printf.lp64 noFloats utcZones tm' 64 ['%',c] =
          strftime Printf.lp64 noFloats utcZones (newYear 2021 5) 64 ['%',c]) →
          tm'.year = (newYear 2021 5).year ∧ tm'.yday = (newYear 2021 5).yday :=
  ⟨⟨by decide,by decide,by decide⟩,
    iso_week_date (by decide) lp64_full ⟨by decide,by decide,by decide⟩ (by decide) (by decide) (by decide)⟩

end Strftime
