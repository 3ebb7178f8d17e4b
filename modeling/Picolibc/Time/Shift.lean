import Mathlib
import Picolibc.Time.Local

namespace Time

open Checked Gregorian

structure OnDay (d : Int) (tm : Tm) : Prop where
  mon : 0 ≤ tm.mon
  date : Date (tm.year + 1900) tm.mon.toNat tm.mday
  day : tm.day = d
  wday : tm.wday = (d + 4) % 7
  yday : tm.yday = monthStart (tm.year + 1900) tm.mon.toNat + (tm.mday - 1)

theorem monthLengthsAt_eq (y : Int) {m : Nat} (hm : m < 12) :
    monthLengthsAt (isleap y) m = monthLength y m := by
  rw [isleap_eq]
  interval_cases m <;> cases h : leap y <;> simp [monthLengthsAt,monthLengths,monthLength,h]

theorem monthLengthsAt_december (y : Int) : monthLengthsAt (isleap y) 11 = 31 :=
  monthLengthsAt_eq y (show 11 < 12 by decide)

theorem onDay_of {d y : Int} {m : Nat} {tm : Tm} (hy : tm.year + 1900 = y) (hm : tm.mon = m)
    (hdate : Date y m tm.mday) (hday : dayNumber y m tm.mday = d) (hw : tm.wday = (d + 4) % 7)
    (hyd : tm.yday = monthStart y m + (tm.mday - 1)) : OnDay d tm := by
  have hm' : tm.mon.toNat = m := by omega
  exact ⟨by omega,by rwa [hy,hm'],by rwa [Tm.day,hy,hm'],hw,by rw [hy,hm',hyd]⟩

theorem nextDay_time (len : Int) (tm : Tm) : (nextDay len tm).sec = tm.sec ∧
    (nextDay len tm).min = tm.min ∧ (nextDay len tm).hour = tm.hour ∧ (nextDay len tm).isdst = tm.isdst := by
  unfold nextDay
  dsimp only
  split_ifs <;> exact ⟨rfl,rfl,rfl,rfl⟩

theorem nextDay_onDay {d : Int} {tm : Tm} (h : OnDay d tm) :
    OnDay (d + 1) (nextDay (monthLengthsAt (isleap (tm.year + 1900)) tm.mon) tm) := by
  obtain ⟨sec,min,hour,mday,mon,year,wday,yday,isdst⟩ := tm
  obtain ⟨h1,h2,h3,h4,h5⟩ := h
  dsimp only at *
  obtain ⟨m,rfl⟩ := Int.eq_ofNat_of_zero_le h1
  rw [Int.toNat_natCast] at h2 h5
  have hd : yearStart (year + 1900) + monthStart (year + 1900) m + (mday - 1) = d := h3
  have hm := h2.month
  have hfirst := h2.first
  have hlast := h2.last
  have hlen := monthLength_pos (year + 1900) m
  have hnext : monthStart (year + 1900) (m + 1) = monthStart (year + 1900) m + monthLength (year + 1900) m := rfl
  have hw : (if 6 < wday + 1 then 0 else wday + 1) = (d + 1 + 4) % 7 := by
    split_ifs <;> omega
  rw [monthLengthsAt_eq _ hm]
  unfold nextDay
  dsimp only
  rw [hw]
  split_ifs with hover hyear
  · obtain rfl : m = 11 := by omega
    have htw : monthStart (year + 1900) (11 + 1) = yearLength (year + 1900) := monthStart_year _
    have hys := yearStart_succ (year + 1900)
    have hone := monthLength_pos (year + 1 + 1900) 0
    have hzero : monthStart (year + 1 + 1900) 0 = 0 := rfl
    refine onDay_of (y := year + 1 + 1900) (m := 0) rfl rfl ⟨by omega,?_,?_⟩ ?_ rfl ?_
    · dsimp only
      omega
    · dsimp only
      omega
    · rw [dayNumber,hzero,show year + 1 + 1900 = year + 1900 + 1 by omega]
      dsimp only
      omega
    · dsimp only
      omega
  · have hone := monthLength_pos (year + 1900) (m + 1)
    refine onDay_of (y := year + 1900) (m := m + 1) rfl rfl ⟨by omega,?_,?_⟩ ?_ rfl ?_
    · dsimp only
      omega
    · dsimp only
      omega
    · rw [dayNumber]
      dsimp only
      omega
    · dsimp only
      omega
  · refine onDay_of (y := year + 1900) (m := m) rfl rfl ⟨hm,?_,?_⟩ ?_ rfl ?_
    · dsimp only
      omega
    · dsimp only
      omega
    · rw [dayNumber]
      dsimp only
      omega
    · dsimp only
      omega

theorem prevDay_onDay {T : Target} {d : Int} {tm : Tm} (h : OnDay d tm)
    (hf : T.int (tm.year - 1) = some (tm.year - 1)) :
    ∃ tm', prevDay T (monthLengthsAt (isleap (tm.year + 1900))) tm = some tm' ∧ OnDay (d - 1) tm' ∧
      tm'.sec = tm.sec ∧ tm'.min = tm.min ∧ tm'.hour = tm.hour ∧ tm'.isdst = tm.isdst := by
  obtain ⟨sec,min,hour,mday,mon,year,wday,yday,isdst⟩ := tm
  obtain ⟨h1,h2,h3,h4,h5⟩ := h
  dsimp only at *
  obtain ⟨m,rfl⟩ := Int.eq_ofNat_of_zero_le h1
  rw [Int.toNat_natCast] at h2 h5
  have hd : yearStart (year + 1900) + monthStart (year + 1900) m + (mday - 1) = d := h3
  have hm := h2.month
  have hfirst := h2.first
  have hlast := h2.last
  have hw : (if wday - 1 < 0 then 6 else wday - 1) = (d - 1 + 4) % 7 := by
    split_ifs <;> omega
  unfold prevDay
  dsimp only
  rw [hw,hf,monthLengthsAt_december]
  split_ifs with hzero hyear
  · obtain rfl : m = 0 := by omega
    have hys := yearStart_succ (year - 1 + 1900)
    rw [show year - 1 + 1900 + 1 = year + 1900 by omega] at hys
    have htw := monthStart_year (year - 1 + 1900)
    have hlast' : monthStart (year - 1 + 1900) 12 =
      monthStart (year - 1 + 1900) 11 + monthLength (year - 1 + 1900) 11 := rfl
    have hdec : monthLength (year - 1 + 1900) 11 = 31 := rfl
    have hz : monthStart (year + 1900) 0 = 0 := rfl
    have hyl : yearLength (year - 1 + 1900) = 365 + isleap (year - 1 + 1900) := by
      rw [isleap_eq,yearLength]
      split_ifs <;> rfl
    refine ⟨_,rfl,onDay_of (y := year - 1 + 1900) (m := 11) rfl rfl ⟨by decide,?_,?_⟩ ?_ rfl ?_,
      rfl,rfl,rfl,rfl⟩
    · dsimp only
      omega
    · dsimp only
      omega
    · rw [dayNumber]
      dsimp only
      omega
    · dsimp only [yearBase]
      omega
  · obtain ⟨k,rfl⟩ : ∃ k, m = k + 1 := ⟨m - 1,by omega⟩
    have hk : ((k + 1 : Nat) : Int) - 1 = (k : Nat) := by omega
    have hlen := monthLength_pos (year + 1900) k
    have hstart : monthStart (year + 1900) (k + 1) = monthStart (year + 1900) k + monthLength (year + 1900) k := rfl
    rw [hk,monthLengthsAt_eq _ (by omega)]
    refine ⟨_,rfl,onDay_of (y := year + 1900) (m := k) rfl rfl ⟨by omega,?_,?_⟩ ?_ rfl ?_,
      rfl,rfl,rfl,rfl⟩
    · dsimp only
      omega
    · dsimp only
      omega
    · rw [dayNumber]
      dsimp only
      omega
    · dsimp only
      omega
  · refine ⟨_,rfl,onDay_of (y := year + 1900) (m := m) rfl rfl ⟨hm,?_,?_⟩ ?_ rfl ?_,rfl,rfl,rfl,rfl⟩
    · dsimp only
      omega
    · dsimp only
      omega
    · rw [dayNumber]
      dsimp only
      omega
    · dsimp only
      omega

theorem onDay_civilTm {t : Int} {tm : Tm} (h : OnDay (t / 86400) tm) (hsec : 0 ≤ tm.sec ∧ tm.sec < 60)
    (hmin : 0 ≤ tm.min ∧ tm.min < 60) (hhour : 0 ≤ tm.hour ∧ tm.hour < 24)
    (htime : tm.hour * 3600 + tm.min * 60 + tm.sec = t % 86400) :
    tm = { civilTm t with isdst := tm.isdst } := by
  have hb : BrokenDown t { tm with isdst := 0 } := by
    refine ⟨⟨hsec,hmin,hhour,h.mon,h.date⟩,?_,h.wday,h.yday,rfl⟩
    have hday : Tm.day { tm with isdst := 0 } = t / 86400 := h.day
    rw [Tm.clock,hday]
    dsimp only
    omega
  rw [← hb.unique (civilTm_brokenDown t)]

theorem brokenDown_onDay {t : Int} {tm : Tm} (h : BrokenDown t tm) : OnDay (t / 86400) tm := by
  refine ⟨h.normal.mon,h.normal.date,?_,h.wday,h.yday⟩
  rw [← h.time,h.normal.clock_div]

theorem borrow_eq {n x next : Int} (h1 : -n ≤ x) (h2 : x < 2 * n) :
    borrow n x next = (x % n,next + x / n) := by
  unfold borrow
  split_ifs with hge hlt
  · have hd : x / n = 1 := by
      rw [Int.ediv_eq_iff_of_pos (by omega)]
      omega
    rw [Int.emod_def,hd,Int.mul_one]
  · have hd : x / n = -1 := by
      rw [Int.ediv_eq_iff_of_pos (by omega)]
      omega
    rw [Int.emod_def,hd,Prod.mk.injEq]
    omega
  · rw [Int.emod_eq_of_lt (by omega) (by omega),Int.ediv_eq_zero_of_lt (by omega) (by omega),Int.add_zero]

theorem trunc_split {x n : Int} (hn : 0 < n) : x.tdiv n * n + x.tmod n = x ∧ -n < x.tmod n ∧ x.tmod n < n ∧
    (0 ≤ x → 0 ≤ x.tmod n) ∧ (x ≤ 0 → x.tmod n ≤ 0) := by
  refine ⟨Int.tdiv_mul_add_tmod x n,?_,Int.tmod_lt_of_pos x hn,Int.tmod_nonneg n,?_⟩
  · have := Int.lt_tmod_of_pos x hn
    omega
  · intro h
    rw [(trunc_neg n h).2]
    have := Int.emod_nonneg (-x) (show n ≠ 0 by omega)
    omega

theorem shiftTm_civilTm {T : Target} (hT : T.Valid) {t off : Int} (h1 : -86400 ≤ off) (h2 : off ≤ 86400)
    (hf : T.int ((civilTm t).year - 1) = some ((civilTm t).year - 1)) (i : Int) :
    shiftTm T (monthLengthsAt (isleap ((civilTm t).year + 1900))) off { civilTm t with isdst := i } =
      some { civilTm (t - off) with isdst := i } := by
  have hon := brokenDown_onDay (civilTm_brokenDown t)
  have hs : (civilTm t).sec = t % 86400 % 3600 % 60 := rfl
  have hm : (civilTm t).min = t % 86400 % 3600 / 60 := rfl
  have hh : (civilTm t).hour = t % 86400 / 3600 := rfl
  obtain ⟨a1,a2,a3,a4,a5⟩ := trunc_split (x := off) (n := 3600) (by decide)
  obtain ⟨b1,b2,b3,b4,b5⟩ := trunc_split (x := off.tmod 3600) (n := 60) (by decide)
  unfold shiftTm
  dsimp only
  rw [secsPerHour,secsPerMin,hT.toInt_short (by omega) (by omega),hT.toInt_short (by omega) (by omega),
    hT.toInt_short (by omega) (by omega),
    borrow_eq (x := (civilTm t).sec - (off.tmod 3600).tmod 60) (by omega) (by omega)]
  dsimp only
  rw [borrow_eq (by omega) (by omega)]
  dsimp only
  generalize hsec : ((civilTm t).sec - (off.tmod 3600).tmod 60) % 60 = sec
  generalize hcar : ((civilTm t).sec - (off.tmod 3600).tmod 60) / 60 = c
  generalize hmin : ((civilTm t).min - (off.tmod 3600).tdiv 60 + c) % 60 = min
  generalize hhour : (civilTm t).hour - off.tdiv 3600 + ((civilTm t).min - (off.tmod 3600).tdiv 60 + c) / 60 = hour
  have htime : hour * 3600 + min * 60 + sec = t % 86400 - off := by omega
  have hsb : 0 ≤ sec ∧ sec < 60 := by omega
  have hmb : 0 ≤ min ∧ min < 60 := by omega
  clear hsec hcar hmin hhour a1 a2 a3 a4 a5 b1 b2 b3 b4 b5 hs hm hh
  have hon' : ∀ k, OnDay (t / 86400) { civilTm t with sec := sec, min := min, hour := k, isdst := i } :=
    fun k => ⟨hon.mon,hon.date,hon.day,hon.wday,hon.yday⟩
  split_ifs with hge hlt
  · have hnext := nextDay_onDay (hon' (hour - 24))
    obtain ⟨n1,n2,n3,n4⟩ := nextDay_time (monthLengthsAt (isleap ((civilTm t).year + 1900)) (civilTm t).mon)
      { civilTm t with sec := sec, min := min, hour := hour - 24, isdst := i }
    dsimp only at hnext n1 n2 n3 n4
    rw [show t / 86400 + 1 = (t - off) / 86400 by omega] at hnext
    rw [Option.pure_def,onDay_civilTm hnext (by omega) (by omega) (by omega) (by omega),n4]
  · obtain ⟨tm',hprev,hon'',n1,n2,n3,n4⟩ := prevDay_onDay (T := T) (hon' (hour + 24)) hf
    dsimp only at hprev n1 n2 n3 n4
    rw [show t / 86400 - 1 = (t - off) / 86400 by omega] at hon''
    rw [hprev,onDay_civilTm hon'' (by omega) (by omega) (by omega) (by omega),n4]
  · have hsame := hon' hour
    rw [show t / 86400 = (t - off) / 86400 by omega] at hsame
    rw [Option.pure_def,onDay_civilTm hsame hsb hmb ⟨by dsimp only; omega,by dsimp only; omega⟩
      (by dsimp only; omega)]

end Time
