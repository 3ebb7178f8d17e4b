import Mathlib
import Picolibc.Time.Localtime

namespace Time

open Checked Gregorian

def weekdayOf (n : Int) : Int := (n + 4) % 7

def commonYear : Int := 2001

inductive RuleDay (y : Int) (r : Rule) : Int → Prop where
  | weekday {m : Nat} {mday : Int} : r.ch = .month → r.m = m + 1 → Date y m mday → weekdayOf (dayNumber y m mday) = r.d →
      (if r.n = 5 then monthLength y m < mday + 7 else 7 * (r.n - 1) < mday ∧ mday ≤ 7 * r.n) →
        RuleDay y r (dayNumber y m mday)
  | julian {m : Nat} {mday : Int} : r.ch = .julian → Date commonYear m mday → monthStart commonYear m + mday = r.d →
      RuleDay y r (dayNumber y m mday)
  | day : r.ch = .day → RuleDay y r (yearStart y + r.d)

structure Rule.Valid (r : Rule) : Prop where
  set : r.ch ≠ .unset
  month : r.ch = .month → (1 ≤ r.m ∧ r.m ≤ 12) ∧ (1 ≤ r.n ∧ r.n ≤ 5) ∧ 0 ≤ r.d ∧ r.d ≤ 6
  julian : r.ch = .julian → 1 ≤ r.d ∧ r.d ≤ 365
  day : r.ch = .day → 0 ≤ r.d ∧ r.d ≤ 365

theorem ruleDay_unique {y : Int} {r : Rule} {n n' : Int} (h : RuleDay y r n) (h' : RuleDay y r n') : n = n' := by
  cases h with
  | @weekday m mday hch hm hdate hwday hweek =>
    cases h' with
    | @weekday m' mday' _ hm' hdate' hwday' hweek' =>
      obtain rfl : m = m' := by omega
      have := hdate.last
      have := hdate'.last
      unfold weekdayOf dayNumber at hwday hwday'
      unfold dayNumber
      split_ifs at hweek hweek' <;> omega
    | julian hch' => exact absurd (hch.symm.trans hch') (by decide)
    | day hch' => exact absurd (hch.symm.trans hch') (by decide)
  | @julian m mday hch hdate hsum =>
    cases h' with
    | weekday hch' => exact absurd (hch.symm.trans hch') (by decide)
    | @julian m' mday' _ hdate' hsum' =>
      have hsame : dayNumber commonYear m mday = dayNumber commonYear m' mday' := by
        unfold dayNumber
        omega
      obtain ⟨-,rfl,rfl⟩ := date_unique hdate hdate' hsame
      rfl
    | day hch' => exact absurd (hch.symm.trans hch') (by decide)
  | day hch =>
    cases h' with
    | weekday hch' => exact absurd (hch.symm.trans hch') (by decide)
    | julian hch' => exact absurd (hch.symm.trans hch') (by decide)
    | day => rfl

theorem isleap_ne_zero (y : Int) : isleap y ≠ 0 ↔ leap y = true := by
  rw [isleap_eq]
  split_ifs with h
  · exact iff_of_true (by decide) h
  · exact iff_of_false (fun hn => hn rfl) h

theorem monthsBefore_eq (y : Int) {m : Nat} (hm : m ≤ 12) : monthsBefore (isleap y) m = monthStart y m := by
  induction m with
  | zero => rfl
  | succ m ih => rw [monthsBefore,ih (by omega),monthLengthsAt_eq y (by omega),monthStart]

theorem dropWeeks_eq {len v : Int} (h0 : 0 ≤ v) (h1 : v ≤ 34) (hlen : 28 ≤ len) :
    dropWeeks len v.toNat v = if len ≤ v then v - 7 else v := by
  obtain ⟨k,hk⟩ := Int.eq_ofNat_of_zero_le h0
  subst hk
  rw [Int.toNat_natCast]
  cases k with
  | zero => rw [dropWeeks,if_neg (by omega)]
  | succ k =>
    rw [dropWeeks,daysPerWeek]
    split_ifs with hle
    · cases k with
      | zero => rfl
      | succ k => rw [dropWeeks,if_neg (by omega)]
    · rfl

section

variable {T : Target} (hint : T.intBits = 32) {x y : Int}

include hint

theorem int_fits (h1 : -2147483648 ≤ x) (h2 : x < 2147483648) : T.int x = some x := by
  rw [Target.int,hint]
  exact signed_fits ⟨h1,h2⟩

omit hint in
theorem yearStart_range (hy : 1970 ≤ y) (hy' : y ≤ 5000000) : 0 ≤ yearStart y ∧ yearStart y ≤ 1826000000 := by
  unfold yearStart
  omega

variable (hy : 1970 ≤ y) (hy' : y ≤ 5000000)

include hy hy'

theorem daysToYear_some : daysToYear T y = some (yearStart y) := by
  have h4 := (trunc_nonneg 4 (show 0 ≤ y - 1970 - 1 + 2 by omega)).1
  have h100 := (trunc_nonneg 100 (show 0 ≤ y - 1970 - 1 + 70 by omega)).1
  have h400 := (trunc_nonneg 400 (show 0 ≤ y - 1970 - 1 + 370 by omega)).1
  rw [daysToYear,epochYear,int_fits hint (by omega) (by omega)]
  simp only [Option.bind_eq_bind,Option.bind_some]
  rw [int_fits hint (by omega) (by omega),Option.bind_some,h4,int_fits hint (by omega) (by omega),Option.bind_some,h100,
    int_fits hint (by omega) (by omega),Option.bind_some,h400,int_fits hint (by omega) (by omega),Option.some.injEq]
  unfold yearStart
  omega

theorem julianDay_right {r : Rule} (hch : r.ch = .julian) (hd : 1 ≤ r.d ∧ r.d ≤ 365) :
    ∃ n, ruleDays T r y (yearStart y) = some n ∧ RuleDay y r n ∧ 0 ≤ n ∧ n ≤ 1827000000 := by
  obtain ⟨hlow,hhigh⟩ := yearStart_range hy hy'
  have hlen : yearLength commonYear = 365 := rfl
  obtain ⟨m,mday,hdate,hsum⟩ := date_exists commonYear (show 0 ≤ r.d - 1 by omega) (by omega)
  have hcommon := @monthStart_common y commonYear rfl m hdate.month.le
  -- a common year starts March on its day 60
  have hmarch : 2 ≤ m ↔ 60 ≤ r.d := by
    have hm := hdate.month
    have := hdate.first
    have := hdate.last
    have htwo : monthStart commonYear 2 = 59 := rfl
    constructor
    · intro hle
      rcases Nat.lt_or_eq_of_le hle with hlt | rfl
      · have hnext := monthStart_lt commonYear hlt
        have hpos := (monthLength_pos commonYear 2).1
        rw [monthStart] at hnext
        omega
      · omega
    · intro hle
      by_contra hlt
      have hnext := monthStart_lt commonYear (show m < 2 by omega)
      rw [monthStart] at hnext
      omega
  have hleap : (isleap y ≠ 0 ∧ 60 ≤ r.d) ↔ leap y = true ∧ 2 ≤ m := by rw [isleap_ne_zero,hmarch]
  have hwide : monthLength commonYear m ≤ monthLength y m := by
    have hm := hdate.month
    interval_cases m <;> cases h : leap y <;> simp [monthLength,commonYear,h,show leap 2001 = false from rfl]
  have hday : dayNumber y m mday = yearStart y + r.d + (if isleap y ≠ 0 ∧ 60 ≤ r.d then 1 else 0) - 1 := by
    rw [dayNumber,hcommon]
    simp only [hleap]
    omega
  refine ⟨dayNumber y m mday,?_,.julian hch hdate (by omega),?_,?_⟩
  · rw [ruleDays,hch]
    dsimp only
    rw [int_fits hint (by omega) (by omega)]
    simp only [Option.bind_eq_bind,Option.bind_some]
    rw [hday]
    split_ifs <;>
      rw [int_fits hint (by omega) (by omega),Option.bind_some,int_fits hint (by omega) (by omega)]
  · rw [hday]
    split_ifs <;> omega
  · rw [hday]
    split_ifs <;> omega

theorem monthDay_right {r : Rule} (hch : r.ch = .month) (hm : 1 ≤ r.m ∧ r.m ≤ 12) (hn : 1 ≤ r.n ∧ r.n ≤ 5)
    (hd : 0 ≤ r.d ∧ r.d ≤ 6) :
    ∃ n, ruleDays T r y (yearStart y) = some n ∧ RuleDay y r n ∧ 0 ≤ n ∧ n ≤ 1827000000 := by
  obtain ⟨hlow,hhigh⟩ := yearStart_range hy hy'
  obtain ⟨m,hm'⟩ : ∃ m : Nat, r.m = m + 1 := ⟨(r.m - 1).toNat,by omega⟩
  have hmonth : m < 12 := by omega
  have hnat : (max r.m 1).toNat - 1 = m := by omega
  have hstart := monthStart_nonneg y m
  have hend := monthStart_lt y hmonth
  have hlen := monthLength_pos y m
  have hyl := yearLength_pos y
  rw [monthStart_year,monthStart] at hend
  have hwday := (trunc_nonneg 7 (show 0 ≤ 4 + (yearStart y + monthStart y m) by omega)).2
  generalize hdiff : (if r.d - (4 + (yearStart y + monthStart y m)) % 7 < 0 then
    r.d - (4 + (yearStart y + monthStart y m)) % 7 + 7 else r.d - (4 + (yearStart y + monthStart y m)) % 7) = diff
  have hdb : 0 ≤ diff ∧ diff ≤ 6 ∧ (4 + (yearStart y + monthStart y m) + diff) % 7 = r.d := by
    split_ifs at hdiff <;> omega
  generalize hday : (if monthLength y m ≤ (r.n - 1) * 7 + diff then (r.n - 1) * 7 + diff - 7 else (r.n - 1) * 7 + diff) = mday
  have hmd : 0 ≤ mday ∧ mday < monthLength y m ∧ (4 + (yearStart y + monthStart y m) + mday) % 7 = r.d := by
    split_ifs at hday <;> omega
  refine ⟨dayNumber y m (mday + 1),?_,.weekday hch hm' ⟨hmonth,by omega,by omega⟩ ?_ ?_,?_,?_⟩
  · rw [ruleDays,hch]
    dsimp only
    rw [hnat,monthsBefore_eq y hmonth.le,int_fits hint (by omega) (by omega)]
    simp only [Option.bind_eq_bind,Option.bind_some]
    rw [epochWday,int_fits hint (by omega) (by omega),Option.bind_some,daysPerWeek,hwday,hdiff,monthLengthsAt_eq y hmonth,
      dropWeeks_eq (by omega) (by omega) hlen.1,hday,int_fits hint (by omega) (by omega),Option.some.injEq,dayNumber]
    omega
  · rw [weekdayOf,dayNumber]
    omega
  · split_ifs at hday ⊢ <;> omega
  · rw [dayNumber]
    omega
  · rw [dayNumber]
    omega

theorem ruleDays_right {r : Rule} (hr : r.Valid) :
    ∃ n, ruleDays T r y (yearStart y) = some n ∧ RuleDay y r n ∧ 0 ≤ n ∧ n ≤ 1827000000 := by
  obtain ⟨hlow,hhigh⟩ := yearStart_range hy hy'
  cases hch : r.ch with
  | unset => exact absurd hch hr.set
  | julian => exact julianDay_right hint hy hy' hch (hr.julian hch)
  | day =>
    have hd := hr.day hch
    refine ⟨_,?_,.day hch,by omega,by omega⟩
    rw [ruleDays,hch]
    exact int_fits hint (by omega) (by omega)
  | month =>
    obtain ⟨hm,hn,hd⟩ := hr.month hch
    exact monthDay_right hint hy hy' hch hm hn hd

theorem ruleChange_right {r : Rule} (hr : r.Valid) (hs : Fits 32 r.s)
    (hfits : ∀ n, RuleDay y r n → Fits 64 (n * 86400 + r.s + r.offset)) :
    ∃ n, RuleDay y r n ∧ ruleChange T r y (yearStart y) = some { r with change := n * 86400 + r.s + r.offset } := by
  obtain ⟨n,hdays,hday,hlow,hhigh⟩ := ruleDays_right hint hy hy' hr
  unfold Fits at hs
  refine ⟨n,hday,?_⟩
  rw [ruleChange,hdays,secsPerDay]
  simp only [Option.bind_eq_bind,Option.bind_some]
  rw [timeT_eq (by omega) (by omega),Option.bind_some,timeT_eq (by omega) (by omega),Option.bind_some,timeT,
    signed_fits (hfits n hday)]
  rfl

end

def ChangeAt (y : Int) (r : Rule) (change : Int) : Prop := ∃ n, (∀ n', RuleDay y r n' ↔ n' = n) ∧ change = n * 86400 + r.s + r.offset

theorem limits_right {T : Target} (hint : T.intBits = 32) {info : Tzinfo} {y : Int} (hy : 1970 ≤ y) (hy' : y ≤ 5000000)
    (h0 : info.rule0.Valid) (h1 : info.rule1.Valid) (hs0 : Fits 32 info.rule0.s) (hs1 : Fits 32 info.rule1.s)
    (hf0 : ∀ n, RuleDay y info.rule0 n → Fits 64 (n * 86400 + info.rule0.s + info.rule0.offset))
    (hf1 : ∀ n, RuleDay y info.rule1 n → Fits 64 (n * 86400 + info.rule1.s + info.rule1.offset)) :
    ∃ info', tzcalcLimits T info y = some (true,info') ∧ info'.year = y ∧ SameRules info' info ∧
      ChangeAt y info.rule0 info'.rule0.change ∧ ChangeAt y info.rule1 info'.rule1.change ∧
        info'.north = decide (info'.rule0.change < info'.rule1.change) := by
  obtain ⟨n0,hday0,hc0⟩ := ruleChange_right hint hy hy' h0 hs0 hf0
  obtain ⟨n1,hday1,hc1⟩ := ruleChange_right hint hy hy' h1 hs1 hf1
  have honly : ∀ {r : Rule} {n : Int}, RuleDay y r n → ∀ n', RuleDay y r n' ↔ n' = n := by
    intro r n hn n'
    exact ⟨fun h => ruleDay_unique h hn,fun h => h ▸ hn⟩
  refine ⟨⟨decide (n0 * 86400 + info.rule0.s + info.rule0.offset < n1 * 86400 + info.rule1.s + info.rule1.offset),y,
    { info.rule0 with change := n0 * 86400 + info.rule0.s + info.rule0.offset },
    { info.rule1 with change := n1 * 86400 + info.rule1.s + info.rule1.offset }⟩,?_,rfl,⟨rfl,rfl⟩,⟨n0,honly hday0,rfl⟩,⟨n1,honly hday1,rfl⟩,rfl⟩
  rw [tzcalcLimits,epochYear,if_neg (by omega),daysToYear_some hint hy hy']
  simp only [Option.bind_eq_bind,Option.bind_some]
  rw [hc0,Option.bind_some,hc1]
  rfl

def usInfo : Tzinfo := ⟨false,0,⟨.month,3,2,0,7200,0,18000⟩,⟨.month,11,1,0,7200,0,14400⟩⟩

theorem usInfo_valid : usInfo.rule0.Valid ∧ usInfo.rule1.Valid :=
  ⟨⟨by decide,fun _ => by decide,fun h => absurd h (by decide),fun h => absurd h (by decide)⟩,
    ⟨by decide,fun _ => by decide,fun h => absurd h (by decide),fun h => absurd h (by decide)⟩⟩

theorem ruleDay_fits {y n : Int} (hy : 1970 ≤ y) (hy' : y ≤ 5000000) {r : Rule} (hd : 0 ≤ r.d ∧ r.d ≤ 365)
    (h : RuleDay y r n) : 0 ≤ n ∧ n ≤ 1827000000 := by
  obtain ⟨hlow,hhigh⟩ := yearStart_range hy hy'
  have hlen := yearLength_pos y
  cases h with
  | weekday _ _ hdate _ _ =>
    have := hdate.within
    unfold dayNumber
    omega
  | @julian m mday _ hdate hsum =>
    have hcommon := @monthStart_common y commonYear rfl m hdate.month.le
    have := hdate.first
    have := monthStart_nonneg commonYear m
    unfold dayNumber
    split_ifs at hcommon <;> omega
  | day => omega

theorem limits_right_2024 : tzcalcLimits lp64 usInfo 2024 =
      some (true,⟨true,2024,⟨.month,3,2,0,7200,1710054000,18000⟩,⟨.month,11,1,0,7200,1730613600,14400⟩⟩) ∧
    ∃ info', tzcalcLimits lp64 usInfo 2024 = some (true,info') ∧ info'.year = 2024 ∧ SameRules info' usInfo ∧
      ChangeAt 2024 usInfo.rule0 info'.rule0.change ∧ ChangeAt 2024 usInfo.rule1 info'.rule1.change ∧
        info'.north = decide (info'.rule0.change < info'.rule1.change) := by
  refine ⟨by decide,limits_right rfl (by decide) (by decide) usInfo_valid.1 usInfo_valid.2 (by decide) (by decide)
    (fun n hn => ?_) fun n hn => ?_⟩
  · obtain ⟨hlow,hhigh⟩ := ruleDay_fits (by decide) (by decide) (by decide) hn
    simp only [Fits,usInfo]
    omega
  · obtain ⟨hlow,hhigh⟩ := ruleDay_fits (by decide) (by decide) (by decide) hn
    simp only [Fits,usInfo]
    omega

end Time
