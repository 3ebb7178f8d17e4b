import Mathlib
import Picolibc.Time.IsoWeek
import Picolibc.Time.Strptime

open Numerals

namespace Strptime

open Checked Gregorian Time Strtoi

open Strftime hiding digit number scan convert recurse int

def Apart (rest : List UInt8) : Prop := ∀ c ∈ rest.head?, 10 ≤ (digitToVal c).toNat

section

variable {T : Target} {builtins : Bool} {tzenv : Option (List Char)} {z : Zone} {text rest buf : List UInt8} {x : Int}
  {st st' : State} {nested : List Char → List UInt8 → Tm → Parsed} {fmt : List Char}

theorem strtol_numeral (hT : T.Valid) (h : Numeral text x) (h0 : 0 ≤ x) (hx : x < 32768) (hrest : Apart rest) :
    strtol T builtins (text ++ rest) = some (x,rest) := by
  obtain ⟨ds,hne,hlt,rfl,hval⟩ := h
  have hlong := hT.long
  have hbound := pow_le (show 15 ≤ T.longBits - 1 by omega)
  have hcast : ((2 ^ (T.longBits - 1) : Nat) : Int) = 2 ^ (T.longBits - 1) := by push_cast; rfl
  have hlen : ds.length ≠ 0 := fun h => hne (List.length_eq_zero_iff.mp h)
  have hint : T.toInt x = x := hT.toInt_short (by omega) hx
  have hparse := @strtoi_decimal ⟨T.longBits,true,builtins⟩ (by dsimp only; omega) rfl ds hne hlt rest hrest
    (by dsimp only; omega)
  rw [if_neg (by omega),List.nil_append,strtol,hparse]
  dsimp only
  rw [if_neg hlen,hval,Int.natAbs_of_nonneg h0,hint,List.drop_left' (by simp)]

theorem numeric_numeral (hT : T.Valid) (h : Numeral text x) (hx : 0 ≤ x ∧ x < 32768) (hrest : Apart rest) {lo hi : Int}
    (hlo : lo ≤ x) (hhi : x ≤ hi) (store : State → Int → State) :
    numeric T builtins lo hi store st (text ++ rest) = some (store st x,some rest) := by
  rw [numeric,strtol_numeral hT h hx.1 hx.2 hrest]
  simp only
  rw [if_neg (by omega)]

theorem numericYear_numeral (hT : T.Valid) (h : Numeral text x) (hx : 0 ≤ x ∧ x < 32768) (hrest : Apart rest) :
    numericYear T builtins (fun ret => T.int (ret - yearBase)) st (text ++ rest) =
      some (storeYear st (x - 1900),some rest) := by
  have hy : T.int (x - yearBase) = some (x - 1900) := hT.int_short (by unfold yearBase; omega) (by unfold yearBase; omega)
  rw [numericYear,strtol_numeral hT h hx.1 hx.2 hrest]
  simp only [hy,Option.bind_eq_bind,Option.bind_some]
  rfl

theorem parse_conversion {c : Char} (hc : c ≠ 'E' ∧ c ≠ 'O') (hn : nestedFormat c = none)
    (h : conversion T builtins tzenv z c st buf = some (st',some rest)) :
    parse T builtins tzenv z nested .text ('%' :: c :: fmt) st buf = parse T builtins tzenv z nested .text fmt st' rest := by
  rw [parse,if_neg (by decide),if_pos rfl,parse,if_neg (by tauto),convert,hn]
  dsimp only
  rw [h]
  rfl

theorem parse_char {c : Char} (hc : c ≠ '%') (hs : isspace (Printf.byte c) = false) :
    parse T builtins tzenv z nested .text (c :: fmt) st (Printf.byte c :: buf) =
      parse T builtins tzenv z nested .text fmt st buf := by
  rw [parse,if_neg (by simp [hs]),if_neg hc,expect,if_pos rfl]
  rfl

theorem parse_space (hbuf : ∀ c ∈ buf.head?, isspace c = false) :
    parse T builtins tzenv z nested .text (' ' :: fmt) st (Printf.byte ' ' :: buf) =
      parse T builtins tzenv z nested .text fmt st buf := by
  have hskip : skipSpace (Printf.byte ' ' :: buf) = buf := by
    rw [skipSpace,List.dropWhile_cons_of_pos (by decide)]
    cases buf with
    | nil => rfl
    | cons c buf => exact List.dropWhile_cons_of_neg (by simp [hbuf c rfl])
  rw [parse,if_pos (by decide),hskip]

theorem numeral_head (h : Numeral text x) (h0 : 0 ≤ x) (rest : List UInt8) : ∀ c ∈ (text ++ rest).head?, isspace c = false := by
  obtain ⟨ds,hne,hlt,rfl,-⟩ := h
  obtain ⟨d,ds,rfl⟩ := List.exists_cons_of_ne_nil hne
  rw [if_neg (by omega)]
  simpa using (digitByte_decimal (hlt d List.mem_cons_self)).2.1

end

theorem isLeapYear_eq (y : Int) : isLeapYear y = leap y := by
  rw [isLeapYear,isleap_eq]
  cases leap y <;> rfl

theorem firstDayFrom_eq {n : Nat} {y ret : Int} (hy : y = 1969 + n) (h0 : 0 ≤ ret) (h7 : ret < 7) :
    firstDayFrom n y ret = (ret + yearStart (y + 1)) % 7 := by
  induction n generalizing y ret with
  | zero =>
    obtain rfl : y = 1969 := by simpa using hy
    rw [firstDayFrom,show (1969 : Int) + 1 = 1970 from rfl,yearStart_epoch]
    omega
  | succ n ih =>
    have hsucc := yearStart_succ y
    have hlen : yearLength y = 365 + isleap y := by
      rw [isleap_eq,yearLength]
      split_ifs <;> rfl
    have hmod := (trunc_nonneg 7 (show 0 ≤ ret + 365 + isleap y by have := yearLength_pos y; omega)).2
    rw [firstDayFrom,ih (by omega) (by omega) (by omega),hmod,Int.sub_add_cancel]
    omega

def firstWeekday (y : Int) : Int := if 1970 ≤ y then weekdayOf (yearStart y) else 4

theorem before_eq (y : Int) {m : Nat} (hm : m < 12) :
    daysBeforeMonth[m]? = some (monthStart y m - if leap y = true ∧ 2 ≤ m then 1 else 0) := by
  interval_cases m <;> cases hy : leap y <;> simp [daysBeforeMonth,monthStart,monthLength,hy]

theorem findMonth_spec (yday leap : Int) {n i : Nat} : i ≤ findMonth yday leap n i ∧ findMonth yday leap n i ≤ i + n ∧
    (∀ j, i ≤ j → j < findMonth yday leap n i → daysBeforeMonth.getD j 0 + leap ≤ yday) ∧
      (findMonth yday leap n i < i + n → yday < daysBeforeMonth.getD (findMonth yday leap n i) 0 + leap) := by
  induction n generalizing i with
  | zero => exact ⟨le_rfl,le_rfl,fun j h1 h2 => absurd h2 (not_lt.mpr h1),fun h => absurd h (lt_irrefl _)⟩
  | succ n ih =>
    rw [findMonth]
    split_ifs with h
    · exact ⟨le_rfl,by omega,fun j h1 h2 => absurd h2 (not_lt.mpr h1),fun _ => h⟩
    · obtain ⟨hlow,hhigh,hpast,hstop⟩ := @ih (i + 1)
      refine ⟨by omega,by omega,fun j h1 h2 => ?_,fun hlt => hstop (by omega)⟩
      rcases Nat.eq_or_lt_of_le h1 with rfl | hlt
      · exact not_lt.mp h
      · exact hpast j hlt h2

theorem monthOf_eq {y yday : Int} {m : Nat} (hm : m < 12) (h1 : monthStart y m ≤ yday) (h2 : yday < monthStart y (m + 1)) :
    monthOf (isleap y) yday = m := by
  have hleap : isleap y = if leap y then 1 else 0 := isleap_eq y
  have hdays : ∀ j, 2 ≤ j → j < 12 → daysBeforeMonth.getD j 0 + isleap y = monthStart y j := by
    intro j h2 h12
    rw [List.getD_eq_getElem?_getD,before_eq y h12,Option.getD_some,hleap]
    simp only [h2,and_true]
    omega
  have hone : monthStart y 1 = 31 := rfl
  rw [monthOf,show daysBeforeMonth.getD 1 0 = 31 from rfl]
  split_ifs with h
  · have := @month_unique y yday m 0 h1 h2 (le_trans (monthStart_nonneg y m) h1)
      (by rw [Nat.zero_add,hone]; exact h)
    omega
  · obtain ⟨hlow,hhigh,hpast,hstop⟩ := @findMonth_spec yday (isleap y) 10 2
    obtain ⟨r,hr⟩ : ∃ r, findMonth yday (isleap y) 10 2 = r + 1 := ⟨findMonth yday (isleap y) 10 2 - 1,by omega⟩
    rw [hr] at hlow hhigh hpast hstop ⊢
    have hfirst : monthStart y r ≤ yday := by
      rcases Nat.eq_or_lt_of_le (show 1 ≤ r by omega) with rfl | hr2
      · omega
      · rw [← hdays r hr2 (by omega)]
        exact hpast r hr2 (by omega)
    have hlast : yday < monthStart y (r + 1) := by
      rcases Nat.lt_or_ge (r + 1) 12 with hlt | hge
      · rw [← hdays (r + 1) (by omega) hlt]
        exact hstop (by omega)
      · obtain rfl : r = 11 := by omega
        exact h2.trans_le (monthStart_lt y hm)
    have := @month_unique y yday m r h1 h2 hfirst hlast
    omega

theorem early_iff (y : Int) (m : Nat) : (!leap y || decide ((m : Int) < 2)) = !decide (leap y = true ∧ 2 ≤ m) := by
  cases leap y
  · rfl
  · by_cases hm : 2 ≤ m
    · simp only [hm,decide_eq_false (show ¬(m : Int) < 2 by omega)]
      rfl
    · simp only [hm,decide_eq_true (show (m : Int) < 2 by omega)]
      rfl

section

variable {T : Target} {tm : Tm} {y : Int} {m : Nat} {d : Int} (hT : T.Valid) (hy : 1 ≤ y ∧ y ≤ 9999)

include hT hy

theorem full_year : T.int (y - 1900 + yearBase) = some y := by
  rw [yearBase,Int.sub_add_cancel]
  exact hT.int_short (by omega) (by omega)

theorem firstDay_some : firstDay T y = some (firstWeekday y) := by
  rw [firstDay,hT.int_short (by omega) (by omega),Option.bind_eq_bind,Option.bind_some,firstWeekday]
  split_ifs with h
  · rw [firstDayFrom_eq (by omega) (by decide) (by decide),Int.sub_add_cancel,weekdayOf,Int.add_comm]
    rfl
  · rw [show (y - 1 - 1969).toNat = 0 by omega]
    rfl

theorem early_eq (hyear : tm.year = y - 1900) (hmon : tm.mon = m) :
    early T tm = some (!decide (leap y = true ∧ 2 ≤ m)) := by
  rw [early,hyear,full_year hT hy,Option.bind_eq_bind,Option.bind_some,isLeapYear_eq,hmon,early_iff]
  rfl

theorem fillYday_eq (hdate : Date y m d) (hyear : tm.year = y - 1900) (hmon : tm.mon = m) (hmday : tm.mday = d) :
    fillYday T tm = some { tm with yday := monthStart y m + (d - 1) } := by
  obtain ⟨hlow,hhigh⟩ := hdate.within
  have hlen := yearLength_pos y
  have hbefore : beforeMonth tm.mon = some (monthStart y m - if leap y = true ∧ 2 ≤ m then 1 else 0) := by
    rw [beforeMonth,hmon,if_neg (by omega),Int.toNat_natCast,before_eq y hdate.month]
  rw [fillYday,hbefore,early_eq hT hy hyear hmon,hmday,Option.bind_eq_bind,Option.bind_some]
  by_cases hleap : leap y = true ∧ 2 ≤ m
  · rw [if_pos hleap,hT.int_short (by omega) (by omega)]
    simp only [Option.bind_eq_bind,Option.bind_some,hleap,and_self,decide_true,Bool.not_true,Bool.false_eq_true,if_false]
    rw [show monthStart y m - 1 + d = monthStart y m + (d - 1) by omega]
    rfl
  · rw [if_neg hleap,hT.int_short (by omega) (by omega)]
    simp only [Option.bind_eq_bind,Option.bind_some,hleap,decide_false,Bool.not_false,if_true]
    rw [show monthStart y m - 0 + d - 1 = monthStart y m + (d - 1) by omega]
    rfl

theorem fillMon_eq (hdate : Date y m d) (hyear : tm.year = y - 1900) (hyday : tm.yday = monthStart y m + (d - 1)) :
    fillMon T tm = some { tm with mon := m } := by
  have hfirst := hdate.first
  have hlast := hdate.last
  rw [fillMon,hyear,full_year hT hy,Option.bind_eq_bind,Option.bind_some,hyday,
    monthOf_eq hdate.month (by omega) (by rw [monthStart]; omega)]
  rfl

theorem fillMday_eq (hdate : Date y m d) (hyear : tm.year = y - 1900) (hmon : tm.mon = m)
    (hyday : tm.yday = monthStart y m + (d - 1)) : fillMday T tm = some { tm with mday := d } := by
  have hfirst := hdate.first
  have hlast := hdate.last
  have hlen := monthLength_pos y m
  have hbefore : beforeMonth tm.mon = some (monthStart y m - if leap y = true ∧ 2 ≤ m then 1 else 0) := by
    rw [beforeMonth,hmon,if_neg (by omega),Int.toNat_natCast,before_eq y hdate.month]
  rw [fillMday,hbefore,early_eq hT hy hyear hmon,hyday,Option.bind_eq_bind,Option.bind_some]
  by_cases hleap : leap y = true ∧ 2 ≤ m
  · rw [if_pos hleap,hT.int_short (by omega) (by omega)]
    simp only [Option.bind_eq_bind,Option.bind_some,hleap,and_self,decide_true,Bool.not_true,Bool.false_eq_true,if_false]
    rw [show monthStart y m + (d - 1) - (monthStart y m - 1) = d by omega]
    rfl
  · rw [if_neg hleap,hT.int_short (by omega) (by omega)]
    simp only [Option.bind_eq_bind,Option.bind_some,hleap,decide_false,Bool.not_false,if_true]
    rw [show monthStart y m + (d - 1) - (monthStart y m - 0) + 1 = d by omega]
    rfl

def dated (y : Int) (m : Nat) (d wday : Int) : Tm := ⟨0,0,0,d,m,y - 1900,wday,monthStart y m + (d - 1),-1⟩

def derivedWday (y : Int) (m : Nat) (d : Int) : Int := (firstWeekday y + (monthStart y m + (d - 1))) % 7

theorem fillWday_eq {ymd : Seen} {wday : Int} (hyear : ymd.year = true) (hyday : ymd.yday = true) (hwday : ymd.wday = false)
    (hdate : Date y m d) : fillWday T ymd { dated y m d wday with isdst := tm.isdst } =
      some { dated y m d (derivedWday y m d) with isdst := tm.isdst } := by
  obtain ⟨hlow,hhigh⟩ := hdate.within
  have hlen := yearLength_pos y
  have hfirst : 0 ≤ firstWeekday y ∧ firstWeekday y < 7 := by
    unfold firstWeekday weekdayOf
    split_ifs <;> omega
  rw [fillWday,if_pos ⟨hyear,hyday,by simp [hwday]⟩]
  simp only [dated]
  rw [full_year hT hy,Option.bind_eq_bind,Option.bind_some,firstDay_some hT hy,Option.bind_some,
    hT.int_short (by omega) (by omega),Option.bind_some,(trunc_nonneg 7 (by omega)).2]
  rfl

omit hT hy in
theorem finish_steps {st : State} {tm₁ tm₂ tm₃ : Tm} {ymd₁ ymd₂ : Seen} {buf : List UInt8}
    (hweek : fillWeek T st = some (tm₁,ymd₁)) (hampm : ymd₁.ampm = false) (hdate : fillDate T ymd₁ tm₁ = some (tm₂,ymd₂))
    (hwday : fillWday T ymd₂ tm₂ = some tm₃) : finish T st buf = some ({ tm₃ with isdst := -1 },some buf) := by
  have hhour : fillHour ymd₁ st.ampm tm₁ = some tm₁ := by
    rw [fillHour,if_neg (by simp [hampm])]
  rw [finish,hweek,Option.bind_eq_bind,Option.bind_some]
  simp only [hhour,hdate,hwday,Option.bind_eq_bind,Option.bind_some]
  rfl

theorem finish_date (hdate : Date y m d) {wday yday isdst wnum ampm : Int} {buf : List UInt8} :
    finish T ⟨⟨0,0,0,d,m,y - 1900,wday,yday,isdst⟩,Seen.none.ymd,wnum,ampm⟩ buf =
      some (dated y m d (derivedWday y m d),some buf) := by
  have hyday := @fillYday_eq T ⟨0,0,0,d,m,y - 1900,wday,yday,isdst⟩ y m d hT hy hdate rfl rfl rfl
  have hfill : fillDate T Seen.none.ymd ⟨0,0,0,d,m,y - 1900,wday,yday,isdst⟩ =
      some ({ dated y m d wday with isdst := isdst },{ Seen.none.ymd with yday := true }) := by
    rw [fillDate,if_pos ⟨rfl,rfl,rfl⟩,if_neg (by decide),hyday]
    rfl
  have hwday := @fillWday_eq T ⟨0,0,0,0,0,0,0,0,isdst⟩ y m d hT hy { Seen.none.ymd with yday := true } wday rfl rfl rfl hdate
  exact finish_steps rfl rfl hfill hwday

theorem fillDate_yday (hdate : Date y m d) {ymd : Seen} (hyear : ymd.year = true) (hyday : ymd.yday = true)
    (hmon : ymd.mon = false) (hmday : ymd.mday = false) {wday mon mday isdst : Int} :
    fillDate T ymd ⟨0,0,0,mday,mon,y - 1900,wday,monthStart y m + (d - 1),isdst⟩ =
      some ({ dated y m d wday with isdst := isdst },ymd) := by
  have hfillMon : fillMon T ⟨0,0,0,mday,mon,y - 1900,wday,monthStart y m + (d - 1),isdst⟩ =
      some ⟨0,0,0,mday,m,y - 1900,wday,monthStart y m + (d - 1),isdst⟩ := fillMon_eq hT hy hdate rfl rfl
  have hfillMday : fillMday T ⟨0,0,0,mday,m,y - 1900,wday,monthStart y m + (d - 1),isdst⟩ =
      some ⟨0,0,0,d,m,y - 1900,wday,monthStart y m + (d - 1),isdst⟩ := fillMday_eq hT hy hdate rfl rfl rfl
  rw [fillDate,if_neg (by simp [hmon]),if_pos ⟨hyear,hyday⟩]
  simp only [hmon,hmday,Bool.false_eq_true,if_false,hfillMon,hfillMday,Option.bind_eq_bind,Option.bind_some]
  rfl

theorem finish_yday (hdate : Date y m d) {wday mon mday isdst wnum ampm : Int} {buf : List UInt8} :
    finish T ⟨⟨0,0,0,mday,mon,y - 1900,wday,monthStart y m + (d - 1),isdst⟩,
      { Seen.none with year := true, yday := true },wnum,ampm⟩ buf = some (dated y m d (derivedWday y m d),some buf) := by
  have hfill := @fillDate_yday T y m d hT hy hdate { Seen.none with year := true, yday := true } rfl rfl rfl rfl
    wday mon mday isdst
  have hwday := @fillWday_eq T ⟨0,0,0,0,0,0,0,0,isdst⟩ y m d hT hy { Seen.none with year := true, yday := true } wday
    rfl rfl rfl hdate
  exact finish_steps rfl rfl hfill hwday

end

def yjFmt : List Char := ['%','Y',' ','%','j']

structure YearRead (y : Int) (m : Nat) (d : Int) (ytext : List UInt8) : Prop where
  range : 1 ≤ y ∧ y ≤ 9999
  date : Date y m d
  text : Numeral ytext y

theorem apart_nil : Apart [] := fun _ h => absurd h (by simp)

theorem apart_cons {c : UInt8} (hc : 10 ≤ (digitToVal c).toNat) (rest : List UInt8) : Apart (c :: rest) := by
  intro e he
  obtain rfl : c = e := by simpa using he
  exact hc

section

variable {T : Target} {builtins : Bool} {tzenv : Option (List Char)} {z : Zone} {y : Int} {m : Nat} {d : Int}
  {ytext mtext dtext jtext : List UInt8} (hT : T.Valid) (h : YearRead y m d ytext)

include hT h

theorem parse_year {nested : List Char → List UInt8 → Tm → Parsed} {fmt : List Char} {rest : List UInt8} (hrest : Apart rest)
    (st : State) : parse T builtins tzenv z nested .text ('%' :: 'Y' :: fmt) st (ytext ++ rest) =
      parse T builtins tzenv z nested .text fmt (storeYear st (y - 1900)) rest := by
  have hy := h.range
  exact parse_conversion (by decide) (by decide) (numericYear_numeral hT h.text (by omega) hrest)

theorem parse_ymd (hm : Numeral mtext (m + 1)) (hd : Numeral dtext d) {nested : List Char → List UInt8 → Tm → Parsed} :
    parse T builtins tzenv z nested .text ymdFmt ⟨⟨0,0,0,0,0,0,0,0,0⟩,.none,0,0⟩
        (ytext ++ Printf.byte '-' :: (mtext ++ Printf.byte '-' :: dtext)) =
      some (⟨⟨0,0,0,d,m,y - 1900,0,0,0⟩,Seen.none.ymd,0,0⟩,some []) := by
  have hmonth := h.date.month
  have hfirst := h.date.first
  have hlast := h.date.last
  have hlen := monthLength_pos y m
  have hdash : ∀ rest, Apart (Printf.byte '-' :: rest) := apart_cons (by decide)
  have hmon : ∀ (st : State) (rest : List UInt8), Apart rest → conversion T builtins tzenv z 'm' st (mtext ++ rest) =
      some (storeMon st (m + 1 - 1),some rest) := fun st rest hrest =>
    numeric_numeral hT hm (by omega) hrest (by omega) (by omega) (fun st i => storeMon st (i - 1))
  have hmday : ∀ st : State, conversion T builtins tzenv z 'd' st (dtext ++ []) = some (storeMday st d,some []) := fun st =>
    numeric_numeral hT hd (by omega) apart_nil (by omega) (by omega) storeMday
  rw [ymdFmt,parse_year hT h (hdash _),parse_char (by decide) (by decide),
    parse_conversion (by decide) (by decide) (hmon _ _ (hdash _)),parse_char (by decide) (by decide),← List.append_nil dtext,
    parse_conversion (by decide) (by decide) (hmday _),parse,Int.add_sub_cancel]
  rfl

omit hT h in
theorem strptimeDepth_finish {depth : Nat} {fmt : List Char} {buf rest : List UInt8} {tm : Tm} {st : State}
    (hparse : parse T builtins tzenv z (strptimeDepth T builtins tzenv z depth) .text fmt ⟨tm,.none,0,0⟩ buf =
      some (st,some rest)) : strptimeDepth T builtins tzenv z (depth + 1) fmt buf tm = finish T st rest := by
  rw [strptimeDepth]
  simp only [hparse,Option.bind_eq_bind,Option.bind_some]

theorem strptimeDepth_ymd (hm : Numeral mtext (m + 1)) (hd : Numeral dtext d) (depth : Nat) :
    strptimeDepth T builtins tzenv z (depth + 1) ymdFmt (ytext ++ Printf.byte '-' :: (mtext ++ Printf.byte '-' :: dtext))
      ⟨0,0,0,0,0,0,0,0,0⟩ = some (dated y m d (derivedWday y m d),some []) :=
  (strptimeDepth_finish (parse_ymd hT h hm hd)).trans (finish_date hT h.range h.date)

theorem strptime_full (hm : Numeral mtext (m + 1)) (hd : Numeral dtext d) :
    strptime T builtins tzenv z (ytext ++ Printf.byte '-' :: (mtext ++ Printf.byte '-' :: dtext)) ['%','F'] =
      some (dated y m d (derivedWday y m d),some []) := by
  have hparse : parse T builtins tzenv z (strptimeDepth T builtins tzenv z 1) .text ['%','F'] ⟨⟨0,0,0,0,0,0,0,0,0⟩,.none,0,0⟩
      (ytext ++ Printf.byte '-' :: (mtext ++ Printf.byte '-' :: dtext)) =
        some (⟨dated y m d (derivedWday y m d),Seen.none.ymd,0,0⟩,some []) := by
    rw [parse,if_neg (by decide),if_pos rfl,parse,if_neg (by decide),convert,show nestedFormat 'F' = some (ymdFmt,Seen.ymd) from rfl]
    dsimp only
    rw [recurse,strptimeDepth_ymd hT h hm hd 0,Option.bind_eq_bind,Option.bind_some]
    dsimp only
    rw [if_neg (by simp)]
    rfl
  exact (strptimeDepth_finish hparse).trans (finish_date hT h.range h.date)

theorem strptime_yj (hj : Numeral jtext (monthStart y m + (d - 1) + 1)) :
    strptime T builtins tzenv z (ytext ++ Printf.byte ' ' :: jtext) yjFmt =
      some (dated y m d (derivedWday y m d),some []) := by
  obtain ⟨hlow,hhigh⟩ := h.date.within
  have hlen := yearLength_pos y
  have hyday : ∀ st : State, conversion T builtins tzenv z 'j' st (jtext ++ []) =
      some (storeYday st (monthStart y m + (d - 1) + 1 - 1),some []) := fun st =>
    numeric_numeral hT hj (by omega) apart_nil (by omega) (by omega) (fun st i => storeYday st (i - 1))
  have hparse : parse T builtins tzenv z (strptimeDepth T builtins tzenv z 1) .text yjFmt ⟨⟨0,0,0,0,0,0,0,0,0⟩,.none,0,0⟩
      (ytext ++ Printf.byte ' ' :: jtext) = some (⟨⟨0,0,0,0,0,y - 1900,0,monthStart y m + (d - 1),0⟩,
        { Seen.none with year := true, yday := true },0,0⟩,some []) := by
    rw [yjFmt,parse_year hT h (apart_cons (by decide) _),parse_space (by simpa using numeral_head hj (by omega) []),
      ← List.append_nil jtext,parse_conversion (by decide) (by decide) (hyday _),parse,Int.add_sub_cancel]
    rfl
  exact (strptimeDepth_finish hparse).trans (finish_yday hT h.range h.date)

end

end Strptime
