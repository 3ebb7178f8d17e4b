import Mathlib
import Picolibc.Time.History
import Picolibc.Time.Shift

namespace Time

open Checked Gregorian

def yearInfo (T : Target) (tzenv : Option (List Char)) (year : Int) : Option Tzinfo :=
  (tzcalcLimits T ⟨false,0,(tzRules T tzenv).1,(tzRules T tzenv).2⟩ year).map Prod.snd

structure Tzinfo.Apart (info : Tzinfo) (year : Int) : Prop where
  gap : info.rule0.change + 172800 < info.rule1.change ∨ info.rule1.change + 172800 < info.rule0.change
  first : yearStart year * 86400 + 172800 < info.rule0.change ∧
    yearStart year * 86400 + 172800 < info.rule1.change
  last : info.rule0.change < yearStart (year + 1) * 86400 - 172800 ∧
    info.rule1.change < yearStart (year + 1) * 86400 - 172800

structure Documented (T : Target) (tzenv : Option (List Char)) : Prop where
  std : -86400 ≤ (tzRules T tzenv).1.offset ∧ (tzRules T tzenv).1.offset ≤ 86400
  dst : -86400 ≤ (tzRules T tzenv).2.offset ∧ (tzRules T tzenv).2.offset ≤ 86400
  apart : (tzRules T tzenv).1.offset ≠ (tzRules T tzenv).2.offset → ∀ year info, 1970 ≤ year →
    yearInfo T tzenv year = some info → info.Apart year

def Undone (T : Target) (tzenv : Option (List Char)) (z : Zone) (t : Int) : Prop :=
  ∃ r z1, localtimeR T tzenv z t = some (r,z1) ∧
    ∀ tm, r = some tm → ∃ z2, mktime T tzenv z1 tm = some ((t,tm),z2)

def Tzinfo.localOffset (info : Tzinfo) (t : Int) : Int := info.offset (info.daylightAt t).toInt

def Tzinfo.Repeated (info : Tzinfo) (t : Int) : Prop :=
  info.rule0.change - (info.rule1.offset - info.rule0.offset) ≤ t ∧ t < info.rule0.change

def Undoable (T : Target) (tzenv : Option (List Char)) (z : Zone) (t y : Int) : Prop :=
  Fits T.intBits (y - 1900) → Fits T.intBits y ∧ (tzset T tzenv z).isSome ∧
    ((tzRules T tzenv).1.offset = (tzRules T tzenv).2.offset → t - (tzRules T tzenv).1.offset ≠ -1) ∧
    ((tzRules T tzenv).1.offset ≠ (tzRules T tzenv).2.offset → ∃ info, yearInfo T tzenv y = some info ∧
      t - info.localOffset t ≠ -1 ∧ ∀ y', InYear (t - info.localOffset t) y' →
        (y' = y → ¬info.Repeated t) ∧
        (y' ≠ y → 1970 ≤ y' → ∃ info', yearInfo T tzenv y' = some info' ∧ info'.north = info.north))

theorem yearInfo_some {T : Target} {tzenv : Option (List Char)} {year : Int} {info : Tzinfo}
    (hy : 1970 ≤ year) (h : yearInfo T tzenv year = some info) :
    tzcalcLimits T ⟨false,0,(tzRules T tzenv).1,(tzRules T tzenv).2⟩ year = some (true,info) ∧
      info.year = year ∧ info.rule0.offset = (tzRules T tzenv).1.offset ∧
      info.rule1.offset = (tzRules T tzenv).2.offset ∧
      info.north = decide (info.rule0.change < info.rule1.change) := by
  obtain ⟨⟨known,info'⟩,hl,rfl⟩ := Option.map_eq_some_iff.mp h
  rcases tzcalcLimits_cases hl with ⟨hlt,-⟩ | ⟨-,rfl,hyear,hr⟩
  · omega
  · have h0 : info'.rule0.form.offset = (tzRules T tzenv).1.form.offset := congrArg Rule.offset hr.1
    have h1 : info'.rule1.form.offset = (tzRules T tzenv).2.form.offset := congrArg Rule.offset hr.2
    refine ⟨hl,hyear,h0,h1,?_⟩
    rw [tzcalcLimits,epochYear,if_neg (by omega)] at hl
    simp only [Option.bind_eq_bind,Option.bind_eq_some_iff,Option.pure_def,Option.some.injEq,
      Prod.mk.injEq] at hl
    obtain ⟨_,-,_,-,_,-,-,rfl⟩ := hl
    rfl

theorem tzset_isSome {T : Target} {tzenv : Option (List Char)} {z : Zone}
    (h : 1970 ≤ z.info.year → (yearInfo T tzenv z.info.year).isSome) : (tzset T tzenv z).isSome := by
  have hl : (tzcalcLimits T ⟨z.info.north,z.info.year,(tzRules T tzenv).1,(tzRules T tzenv).2⟩
      z.info.year).isSome := by
    by_cases hy : 1970 ≤ z.info.year
    · have hc : tzcalcLimits T ⟨z.info.north,z.info.year,(tzRules T tzenv).1,(tzRules T tzenv).2⟩
          z.info.year = tzcalcLimits T ⟨false,0,(tzRules T tzenv).1,(tzRules T tzenv).2⟩ z.info.year :=
        tzcalcLimits_congr T ⟨rfl,rfl⟩ hy
      rw [hc]
      simpa [yearInfo] using h hy
    · rw [tzcalcLimits,epochYear,if_pos (by omega)]
      rfl
  obtain ⟨p,hp⟩ := Option.isSome_iff_exists.mp hl
  simp [tzset,hp]

theorem tzset_year {T : Target} {tzenv : Option (List Char)} {z z' : Zone} (hz : Cached z.info)
    (h : tzset T tzenv z = some z') :
    1970 ≤ z'.info.year → (yearInfo T tzenv z'.info.year).isSome := by
  intro hy
  obtain ⟨-,hyear,-,⟨h0,-⟩ | ⟨-,hl⟩⟩ := tzset_cases hz h
  · omega
  · rw [hyear,yearInfo,hl]
    rfl

theorem mktime_civil {T : Target} (hT : T.Valid) {tzenv : Option (List Char)} {z : Zone} {l i : Int}
    (hf : Fits T.intBits (civilTm l).year) :
    mktime T tzenv z { civilTm l with isdst := i } =
      if l = -1 then some ((-1,{ civilTm l with isdst := i }),z)
      else (tzset T tzenv z).bind fun z' =>
        (resolveDst T z' ⟨l,l / 86400,{ civilTm l with isdst := i }⟩).bind fun (r,info) =>
          (timeT (r.tim + info.offset r.isdst)).bind fun tim =>
            (setTmWday T r.days { r.tm with isdst := r.isdst }).bind fun tm =>
              some ((tim,tm),{ z' with info := info }) := by
  have hb := civilTm_brokenDown l
  have hn : Tm.Normal { civilTm l with isdst := i } :=
    ⟨hb.normal.sec,hb.normal.min,hb.normal.hour,hb.normal.mon,hb.normal.date⟩
  have hclock : Tm.clock { civilTm l with isdst := i } = l := hb.time
  have hday : Tm.day { civilTm l with isdst := i } = l / 86400 := by
    rw [← hn.clock_div,hclock]
  have hu := mktimeUtc_normal hT hn hf
  dsimp only at hu
  rw [hclock,hday,← hb.yday] at hu
  rw [mktime,hu]
  simp only [Option.bind_eq_bind,Option.bind_some,Option.pure_def]
  split_ifs with hl
  · rw [hl]
  · rfl

theorem setTmWday_civil {T : Target} (hT : T.Valid) {l i : Int} (hl : -2 ^ 62 ≤ l) (hl' : l < 2 ^ 62) :
    setTmWday T (l / 86400) { civilTm l with isdst := i } = some { civilTm l with isdst := i } := by
  rw [setTmWday_eq hT (by omega) (by omega),← (civilTm_brokenDown l).wday]

def Tzinfo.inOverlap (info : Tzinfo) (l : Int) : Prop :=
  info.rule1.change - info.rule0.offset ≤ l ∧ l < info.rule1.change - info.rule1.offset

def Tzinfo.localDaylight (info : Tzinfo) (l : Int) : Bool :=
  if info.north then
    decide (info.rule0.change - info.rule1.offset ≤ l ∧ l < info.rule1.change - info.rule0.offset)
  else decide (info.rule0.change - info.rule1.offset ≤ l ∨ l < info.rule1.change - info.rule0.offset)

instance (info : Tzinfo) (l : Int) : Decidable (info.inOverlap l) := inferInstanceAs (Decidable (_ ∧ _))

def Tzinfo.Bounded (info : Tzinfo) : Prop :=
  Fits 62 info.rule0.change ∧ Fits 62 info.rule1.change ∧ Fits 62 info.rule0.offset ∧ Fits 62 info.rule1.offset

theorem decideDst_eq {T : Target} {info : Tzinfo} {i year : Int} {u : Utc} (h : info.Bounded) :
    decideDst T info i year u = if info.inOverlap u.tim then some ⟨i,u.tim,u.days,u.tm⟩
      else if 0 ≤ i ∧ (info.localDaylight u.tim).toInt ≠ i then
        correct T info (info.localDaylight u.tim).toInt year u
      else some ⟨(info.localDaylight u.tim).toInt,u.tim,u.days,u.tm⟩ := by
  unfold Tzinfo.Bounded Fits at h
  rw [decideDst,timeT_eq (by omega) (by omega),timeT_eq (by omega) (by omega),timeT_eq (by omega) (by omega)]
  rfl

theorem correct_isdst {T : Target} {info : Tzinfo} {i year : Int} {u : Utc} {r : Decision}
    (h : correct T info i year u = some r) : r.isdst = i := by
  unfold correct at h
  split_ifs at h
  all_goals
    simp only [Option.bind_eq_bind,Option.bind_eq_some_iff,Option.pure_def,Option.some.injEq] at h
    obtain ⟨_,-,_,-,_,-,_,-,_,-,rfl⟩ := h
    rfl

theorem toInt_inj {a b : Bool} : a.toInt = b.toInt ↔ a = b := by
  cases a <;> cases b <;> decide

theorem toInt_range (b : Bool) : 0 ≤ b.toInt ∧ ¬1 < b.toInt := by
  cases b <;> decide

theorem decideDst_settled {T : Target} {info : Tzinfo} {b : Bool} {year : Int} {u : Utc} (hb : info.Bounded)
    (h : info.inOverlap u.tim ∨ info.localDaylight u.tim = b) :
    decideDst T info b.toInt year u = some ⟨b.toInt,u.tim,u.days,u.tm⟩ := by
  rw [decideDst_eq hb]
  split_ifs with hov hne
  · rfl
  · rcases h with h | h
    · exact absurd h hov
    · exact absurd (congrArg Bool.toInt h) hne.2
  · rcases h with h | h
    · exact absurd h hov
    · rw [h]

theorem decideDst_changed {T : Target} {info : Tzinfo} {b : Bool} {year : Int} {u : Utc} {r : Decision}
    (hb : info.Bounded) (h : ¬(info.inOverlap u.tim ∨ info.localDaylight u.tim = b))
    (hr : decideDst T info b.toInt year u = some r) : r.isdst ≠ b.toInt := by
  rw [not_or] at h
  have hne : (info.localDaylight u.tim).toInt ≠ b.toInt := fun heq => h.2 (toInt_inj.mp heq)
  rw [decideDst_eq hb,if_neg h.1,if_pos ⟨(toInt_range b).1,hne⟩] at hr
  rw [correct_isdst hr]
  exact hne

section

variable {info info' : Tzinfo} {t y y' : Int} (h0 : -86400 ≤ info.rule0.offset ∧ info.rule0.offset ≤ 86400)
  (h1 : -86400 ≤ info.rule1.offset ∧ info.rule1.offset ≤ 86400)

include h0 h1

theorem localOffset_range (t : Int) : -86400 ≤ info.localOffset t ∧ info.localOffset t ≤ 86400 := by
  unfold Tzinfo.localOffset Tzinfo.offset
  split_ifs <;> omega

theorem settled_same_year (hap : info.Apart y)
    (hn : info.north = decide (info.rule0.change < info.rule1.change)) :
    (info.inOverlap (t - info.localOffset t) ∨
      info.localDaylight (t - info.localOffset t) = info.daylightAt t) ↔ ¬info.Repeated t := by
  have hgap := hap.gap
  have hlocal : info.localOffset t = info.offset (info.daylightAt t).toInt := rfl
  have hday : info.daylightAt t = true ↔ if info.rule0.change < info.rule1.change then
      info.rule0.change ≤ t ∧ t < info.rule1.change else
      info.rule0.change ≤ t ∨ t < info.rule1.change := by
    unfold Tzinfo.daylightAt
    rw [hn]
    split_ifs <;> simp_all
  unfold Tzinfo.inOverlap Tzinfo.localDaylight Tzinfo.Repeated
  rw [hn]
  cases hd : info.daylightAt t with
  | true =>
    rw [hd] at hday hlocal
    have ho : info.localOffset t = info.rule1.offset := hlocal
    have hin := hday.mp rfl
    rw [ho]
    by_cases hnorth : info.rule0.change < info.rule1.change
    · rw [if_pos hnorth] at hin
      rw [decide_eq_true hnorth,if_pos rfl,decide_eq_true_iff]
      omega
    · rw [if_neg hnorth] at hin
      rw [decide_eq_false hnorth,if_neg Bool.false_ne_true,decide_eq_true_iff]
      omega
  | false =>
    rw [hd] at hday hlocal
    have ho : info.localOffset t = info.rule0.offset := hlocal
    have hout := mt hday.mpr Bool.false_ne_true
    rw [ho]
    by_cases hnorth : info.rule0.change < info.rule1.change
    · rw [if_pos hnorth] at hout
      rw [decide_eq_true hnorth,if_pos rfl,decide_eq_false_iff_not]
      omega
    · rw [if_neg hnorth] at hout
      rw [decide_eq_false hnorth,if_neg Bool.false_ne_true,decide_eq_false_iff_not]
      omega

theorem settled_other_year (h0' : info'.rule0.offset = info.rule0.offset)
    (h1' : info'.rule1.offset = info.rule1.offset) (hap : info.Apart y) (hap' : info'.Apart y')
    (hy : InYear t y) (hy' : InYear (t - info.localOffset t) y') (hne : y' ≠ y) :
    (info'.inOverlap (t - info.localOffset t) ∨
      info'.localDaylight (t - info.localOffset t) = info.daylightAt t) ↔ info'.north = info.north := by
  have hoff := localOffset_range h0 h1 t
  generalize info.localOffset t = off at *
  have hf := hap.first
  have hl := hap.last
  have hf' := hap'.first
  have hl' := hap'.last
  unfold InYear at hy hy'
  have hside : yearStart (y' + 1) ≤ yearStart y ∨ yearStart (y + 1) ≤ yearStart y' :=
    (lt_or_gt_of_ne hne).imp yearStart_lt yearStart_lt
  have hover : ¬info'.inOverlap (t - off) := by
    unfold Tzinfo.inOverlap
    omega
  have hlocal : info'.localDaylight (t - off) = !info'.north := by
    unfold Tzinfo.localDaylight
    cases info'.north <;> simp <;> omega
  have hday : info.daylightAt t = !info.north := by
    unfold Tzinfo.daylightAt
    cases info.north <;> simp <;> omega
  rw [hlocal,hday,Bool.not_inj_iff]
  exact or_iff_right hover

end

theorem inYear_iff (t y : Int) : InYear t y ↔ y = (civilTm t).year + 1900 := by
  have hb := (civilTm_brokenDown t).inYear
  constructor
  · intro h
    unfold InYear at h hb
    exact year_unique (n := t / 86400) (by omega) (by omega) (by omega) (by omega)
  · rintro rfl
    exact hb

theorem inYear_near {t l y y' : Int} (hy : InYear t y) (hy' : InYear l y') (h1 : t - 86400 ≤ l)
    (h2 : l ≤ t + 86400) : y - 1 ≤ y' ∧ y' ≤ y + 1 := by
  unfold InYear at hy hy'
  constructor
  · by_contra hlt
    have h3 := yearStart_lt (show y' + 1 < y by omega)
    have h4 := yearStart_succ (y' + 1)
    have h5 := yearLength_pos (y' + 1)
    omega
  · by_contra hlt
    have h3 := yearStart_lt (show y + 1 < y' by omega)
    have h4 := yearStart_succ (y + 1)
    have h5 := yearLength_pos (y + 1)
    omega

theorem inYear_epoch {t y : Int} (hy : InYear t y) (ht : 0 ≤ t) : 1970 ≤ y := by
  by_contra hlt
  have h3 := yearStart_lt (show y < 1970 by omega)
  rw [yearStart_epoch] at h3
  unfold InYear at hy
  omega

def zoneOffset (T : Target) (tzenv : Option (List Char)) (b : Bool) : Int :=
  if b then (tzRules T tzenv).2.offset else (tzRules T tzenv).1.offset

theorem zoneOffset_range {T : Target} {tzenv : Option (List Char)} (hdoc : Documented T tzenv) (b : Bool) :
    -86400 ≤ zoneOffset T tzenv b ∧ zoneOffset T tzenv b ≤ 86400 := by
  have h0 := hdoc.std
  have h1 := hdoc.dst
  unfold zoneOffset
  split_ifs <;> omega

theorem sign_toInt (b : Bool) : (if 0 < b.toInt then 1 else b.toInt) = b.toInt := by
  cases b <;> rfl

theorem bounded_of_apart {info : Tzinfo} {y : Int} (hap : info.Apart y)
    (h0 : -86400 ≤ info.rule0.offset ∧ info.rule0.offset ≤ 86400)
    (h1 : -86400 ≤ info.rule1.offset ∧ info.rule1.offset ≤ 86400) (hy : Fits 32 y) : info.Bounded := by
  have hf := hap.first
  have hl := hap.last
  have hs := yearStart_succ y
  have hlen := yearLength_pos y
  have hb : -2 ^ 42 ≤ yearStart y ∧ yearStart y < 2 ^ 42 := by
    unfold Fits at hy
    unfold yearStart
    omega
  unfold Tzinfo.Bounded Fits
  omega

section

variable {T : Target} {tzenv : Option (List Char)} {z z' : Zone} (hz : Cached z.info)
  (h : tzset T tzenv z = some z') {l : Int} {b : Bool}

include hz h

theorem resolveDst_std {u : Utc} (hd : (tzRules T tzenv).1.offset = (tzRules T tzenv).2.offset) :
    resolveDst T z' u = some (⟨0,u.tim,u.days,u.tm⟩,z'.info) := by
  rw [resolveDst,if_neg]
  · rfl
  · rw [(tzset_cases hz h).1,hd]
    simp

theorem resolveDst_fresh {u : Utc} (hd : (tzRules T tzenv).1.offset ≠ (tzRules T tzenv).2.offset)
    (hf : Fits T.intBits (u.tm.year + 1900)) (hy : u.tm.year + 1900 ≠ 0) (hb : u.tm.isdst = b.toInt) :
    resolveDst T z' u = if u.tm.year + 1900 < 1970 then
        some (⟨b.toInt,u.tim,u.days,u.tm⟩,z'.info)
      else (yearInfo T tzenv (u.tm.year + 1900)).bind fun info =>
        (decideDst T info b.toInt u.tm.year u).bind fun r => some (r,info) := by
  have hday : z'.daylight = true := by
    rw [(tzset_cases hz h).1]
    simpa using hd
  have hint : T.int (u.tm.year + yearBase) = some (u.tm.year + 1900) := signed_fits hf
  rw [resolveDst,if_pos hday,hint,hb,sign_toInt]
  simp only [Option.bind_eq_bind,Option.bind_some,Option.pure_def]
  rw [lookup_fresh hz h (.inl hy)]
  split_ifs with hlt
  · rfl
  · rw [yearInfo,Option.bind_map]
    cases hl : tzcalcLimits T ⟨false,0,(tzRules T tzenv).1,(tzRules T tzenv).2⟩ (u.tm.year + 1900) with
    | none => rfl
    | some p =>
      obtain ⟨known,info⟩ := p
      rcases tzcalcLimits_cases hl with ⟨hlt',-⟩ | ⟨-,rfl,-⟩
      · exact absurd hlt' hlt
      · rfl

theorem tzset_offset (b : Bool) : z'.info.offset b.toInt = zoneOffset T tzenv b := by
  rw [(tzset_rules hz h).offset]
  cases b <;> rfl

end

theorem yearInfo_offset {T : Target} {tzenv : Option (List Char)} {year : Int} {info : Tzinfo}
    (hy : 1970 ≤ year) (h : yearInfo T tzenv year = some info) (b : Bool) :
    info.offset b.toInt = zoneOffset T tzenv b := by
  obtain ⟨-,-,h0,h1,-⟩ := yearInfo_some hy h
  cases b
  · exact h0
  · exact h1

theorem yearInfo_fits {T : Target} (hT : T.Valid) {tzenv : Option (List Char)} {year : Int} {info : Tzinfo}
    (hy : 1970 ≤ year) (h : yearInfo T tzenv year = some info) : Fits T.intBits year := by
  obtain ⟨hl,-⟩ := yearInfo_some hy h
  rw [tzcalcLimits,epochYear,if_neg (by omega)] at hl
  simp only [daysToYear,epochYear,Option.bind_eq_bind,Option.bind_eq_some_iff] at hl
  obtain ⟨_,⟨years,hyears,days,hdays,-⟩,-⟩ := hl
  obtain rfl := signed_some hyears
  have hfit : Fits T.intBits ((year - 1970) * 365) := by
    unfold Target.int signed at hdays
    split_ifs at hdays with hfit
    exact hfit
  have hp := pow_le (show 15 ≤ T.intBits - 1 by have := hT.int; omega)
  unfold Fits at hfit ⊢
  omega

theorem setTmWday_isdst {T : Target} {d : Int} {tm tm' : Tm} (h : setTmWday T d tm = some tm') :
    tm'.isdst = tm.isdst := by
  unfold setTmWday setTmWdayIn at h
  simp only [Option.bind_eq_bind,Option.bind_eq_some_iff,Option.pure_def] at h
  obtain ⟨_,-,h⟩ := h
  split_ifs at h
  all_goals
    simp only [Option.bind_eq_some_iff,Option.some.injEq] at h
    obtain ⟨_,-,rfl⟩ := h
    rfl

theorem civil_range {T : Target} (hT : T.Valid) {l : Int} (hf : Fits T.intBits (civilTm l).year) :
    -2 ^ 61 ≤ l ∧ l < 2 ^ 61 := by
  have hyb : -2147483648 ≤ (civilTm l).year ∧ (civilTm l).year < 2147483648 := hf.mono hT.intMax
  have hin := (civilTm_brokenDown l).inYear
  have hs := yearStart_succ ((civilTm l).year + 1900)
  have hlen := yearLength_pos ((civilTm l).year + 1900)
  have hb : -2 ^ 42 ≤ yearStart ((civilTm l).year + 1900) ∧ yearStart ((civilTm l).year + 1900) < 2 ^ 42 := by
    unfold yearStart
    omega
  unfold InYear at hin
  omega

def Kept (T : Target) (tzenv : Option (List Char)) (z : Zone) (l : Int) (b : Bool) : Prop :=
  ∃ z', mktime T tzenv z { civilTm l with isdst := b.toInt } =
    some ((l + zoneOffset T tzenv b,{ civilTm l with isdst := b.toInt }),z')

section

variable {T : Target} (hT : T.Valid) {tzenv : Option (List Char)} (hdoc : Documented T tzenv) {z z' : Zone}
  (hz : Cached z.info) (h : tzset T tzenv z = some z') {l : Int} {b : Bool}
  (hf : Fits T.intBits (civilTm l).year)

include hT hdoc hf

theorem finish_kept {info : Tzinfo} (hoff : info.offset b.toInt = zoneOffset T tzenv b) :
    ((timeT (l + info.offset b.toInt)).bind fun tim =>
      (setTmWday T (l / 86400) { civilTm l with isdst := b.toInt }).bind fun tm =>
        some ((tim,tm),{ z' with info := info })) =
      some ((l + zoneOffset T tzenv b,{ civilTm l with isdst := b.toInt }),{ z' with info := info }) := by
  have hl := civil_range hT hf
  have hb := zoneOffset_range hdoc b
  rw [hoff,timeT_eq (by omega) (by omega),setTmWday_civil hT (by omega) (by omega)]
  rfl

include hz h

theorem kept_std (hd : (tzRules T tzenv).1.offset = (tzRules T tzenv).2.offset)
    (hne : l ≠ -1) : Kept T tzenv z l false := by
  refine ⟨{ z' with info := z'.info },?_⟩
  rw [mktime_civil hT hf,if_neg hne,h,Option.bind_some,resolveDst_std hz h hd,Option.bind_some]
  exact finish_kept hT hdoc hf (tzset_offset hz h false)

theorem kept_unknown (hd : (tzRules T tzenv).1.offset ≠ (tzRules T tzenv).2.offset)
    (hne : l ≠ -1) (hfy : Fits T.intBits ((civilTm l).year + 1900))
    (hy : (civilTm l).year + 1900 ≠ 0) (hlt : (civilTm l).year + 1900 < 1970) : Kept T tzenv z l b := by
  refine ⟨{ z' with info := z'.info },?_⟩
  rw [mktime_civil hT hf,if_neg hne,h,Option.bind_some,resolveDst_fresh hz h hd hfy hy rfl,if_pos hlt,
    Option.bind_some]
  exact finish_kept hT hdoc hf (tzset_offset hz h b)

theorem kept_known (hd : (tzRules T tzenv).1.offset ≠ (tzRules T tzenv).2.offset)
    (hne : l ≠ -1) (hfy : Fits T.intBits ((civilTm l).year + 1900))
    (hge : 1970 ≤ (civilTm l).year + 1900) :
    Kept T tzenv z l b ↔ ∃ info, yearInfo T tzenv ((civilTm l).year + 1900) = some info ∧
      (info.inOverlap l ∨ info.localDaylight l = b) := by
  unfold Kept
  rw [mktime_civil hT hf,if_neg hne,h,Option.bind_some,
    resolveDst_fresh hz h hd hfy (by dsimp only; omega) rfl,if_neg (by dsimp only; omega)]
  dsimp only
  cases hinfo : yearInfo T tzenv ((civilTm l).year + 1900) with
  | none => simp
  | some info =>
    obtain ⟨-,-,h0,h1,-⟩ := yearInfo_some hge hinfo
    have hb := bounded_of_apart (hdoc.apart hd _ _ hge hinfo) (h0 ▸ hdoc.std) (h1 ▸ hdoc.dst)
      (hfy.mono hT.intMax)
    rw [Option.bind_some]
    constructor
    · rintro ⟨z3,hz3⟩
      refine ⟨info,rfl,?_⟩
      by_contra hset
      simp only [Option.bind_eq_some_iff,Option.some.injEq] at hz3
      obtain ⟨⟨r,_⟩,⟨r',hr,heq⟩,tim,-,tm,htm,heq'⟩ := hz3
      cases heq
      have hisdst := decideDst_changed hb hset hr
      have hsame := setTmWday_isdst htm
      cases heq'
      exact hisdst hsame.symm
    · rintro ⟨info',heq,hset⟩
      cases heq
      refine ⟨{ z' with info := info },?_⟩
      rw [decideDst_settled hb hset]
      exact finish_kept hT hdoc hf (yearInfo_offset hge hinfo b)

theorem kept_iff (hd : (tzRules T tzenv).1.offset ≠ (tzRules T tzenv).2.offset)
    (hne : l ≠ -1) (hge : 1970 ≤ (civilTm l).year + 1900) :
    Kept T tzenv z l b ↔ ∃ info, yearInfo T tzenv ((civilTm l).year + 1900) = some info ∧
      (info.inOverlap l ∨ info.localDaylight l = b) := by
  by_cases hfy : Fits T.intBits ((civilTm l).year + 1900)
  · exact kept_known hT hdoc hz h hf hd hne hfy hge
  · constructor
    · rintro ⟨z3,hz3⟩
      have hday : z'.daylight = true := by
        rw [(tzset_cases hz h).1]
        simpa using hd
      have hint : T.int ((civilTm l).year + yearBase) = none := if_neg hfy
      rw [mktime_civil hT hf,if_neg hne,h,Option.bind_some,resolveDst,if_pos hday,hint] at hz3
      cases hz3
    · rintro ⟨info,hinfo,-⟩
      exact absurd (yearInfo_fits hT hge hinfo) hfy

omit hdoc hz h in
theorem not_kept_error (hne : 0 ≤ l + zoneOffset T tzenv b) (hl : l = -1) : ¬Kept T tzenv z l b := by
  rintro ⟨z3,hz3⟩
  rw [mktime_civil hT hf,if_pos hl] at hz3
  simp only [Option.some.injEq,Prod.mk.injEq] at hz3
  omega

end

theorem undone_iff_kept {T : Target} (hT : T.Valid) {tzenv : Option (List Char)} (hdoc : Documented T tzenv)
    {z z' : Zone} {t : Int} (ht : Fits 64 t) (ht0 : 0 ≤ t) (hf : Fits T.intBits (civilTm t).year)
    (hfy : Fits T.intBits ((civilTm t).year + 1900)) (h : tzset T tzenv z = some z') {b : Bool} {info : Tzinfo}
    (hl : localDst T z' t ((civilTm t).year + 1900) = some (b.toInt,info))
    (hoff : info.offset b.toInt = zoneOffset T tzenv b) :
    Undone T tzenv z t ↔ Kept T tzenv { z' with info := info } (t - zoneOffset T tzenv b) b := by
  have hy := inYear_epoch ((inYear_iff t _).mpr rfl) ht0
  have hint : T.int ((civilTm t).year + yearBase) = some ((civilTm t).year + 1900) := signed_fits hfy
  have hprev : T.int ((civilTm t).year - 1) = some ((civilTm t).year - 1) := by
    apply signed_fits
    unfold Fits at hf ⊢
    omega
  have hb := zoneOffset_range hdoc b
  have hlt : localtimeR T tzenv z t = some (some { civilTm (t - zoneOffset T tzenv b) with isdst := b.toInt },
      { z' with info := info }) := by
    rw [localtimeR,gmtimeR_eq hT ht,if_pos hf]
    simp only [Option.bind_eq_bind,Option.bind_some]
    rw [hint,Option.bind_some,h,Option.bind_some,hl,Option.bind_some,hoff,
      shiftTm_civilTm hT hb.1 hb.2 hprev]
    rfl
  unfold Undone Kept
  rw [hlt]
  constructor
  · rintro ⟨r,z1,heq,hall⟩
    cases heq
    obtain ⟨z2,hz2⟩ := hall _ rfl
    exact ⟨z2,by rw [hz2,Int.sub_add_cancel]⟩
  · rintro ⟨z2,hz2⟩
    refine ⟨_,_,rfl,?_⟩
    rintro tm heq
    cases heq
    exact ⟨z2,by rw [hz2,Int.sub_add_cancel]⟩

theorem localDst_std {T : Target} {tzenv : Option (List Char)} {z z' : Zone} (hz : Cached z.info)
    (h : tzset T tzenv z = some z') (hd : (tzRules T tzenv).1.offset = (tzRules T tzenv).2.offset)
    (t year : Int) : localDst T z' t year = some (false.toInt,z'.info) := by
  rw [localDst,if_neg]
  · rfl
  · rw [(tzset_cases hz h).1,hd]
    simp

theorem localDst_fresh {T : Target} {tzenv : Option (List Char)} {z z' : Zone} (hz : Cached z.info)
    (h : tzset T tzenv z = some z') (hd : (tzRules T tzenv).1.offset ≠ (tzRules T tzenv).2.offset)
    (t : Int) {year : Int} (hy : 1970 ≤ year) :
    localDst T z' t year = (yearInfo T tzenv year).map fun info => ((info.daylightAt t).toInt,info) := by
  have hday : z'.daylight = true := by
    rw [(tzset_cases hz h).1]
    simpa using hd
  rw [localDst,if_pos hday,lookup_fresh hz h (.inl (by omega)),if_neg (by omega),yearInfo]
  cases hl : tzcalcLimits T ⟨false,0,(tzRules T tzenv).1,(tzRules T tzenv).2⟩ year with
  | none => rfl
  | some p =>
    obtain ⟨known,info⟩ := p
    rcases tzcalcLimits_cases hl with ⟨hlt,-⟩ | ⟨-,rfl,-⟩
    · omega
    · rfl

theorem undone_defined {T : Target} (hT : T.Valid) {tzenv : Option (List Char)} {z : Zone} {t : Int}
    (ht : Fits 64 t) (hf : Fits T.intBits (civilTm t).year) (h : Undone T tzenv z t) :
    Fits T.intBits ((civilTm t).year + 1900) ∧ ∃ z', tzset T tzenv z = some z' ∧
      (localDst T z' t ((civilTm t).year + 1900)).isSome := by
  obtain ⟨r,z1,hl,-⟩ := h
  rw [localtimeR,gmtimeR_eq hT ht,if_pos hf] at hl
  simp only [Option.bind_eq_bind,Option.bind_some,Option.bind_eq_some_iff] at hl
  obtain ⟨year,hyear,z',hz',p,hp,-⟩ := hl
  have hval : year = (civilTm t).year + 1900 := signed_some hyear
  refine ⟨?_,z',hz',by rw [← hval,hp]; rfl⟩
  unfold Target.int signed at hyear
  split_ifs at hyear with hfit
  exact hfit

theorem local_year {T : Target} {t l : Int} (ht0 : 0 ≤ t) (h1 : t - 86400 ≤ l) (h2 : l ≤ t + 86400)
    (hfy : Fits T.intBits ((civilTm t).year + 1900)) :
    1969 ≤ (civilTm l).year + 1900 ∧ Fits T.intBits (civilTm l).year := by
  have hy := (inYear_iff t _).mpr rfl
  have hyear := inYear_epoch hy ht0
  have hnear := inYear_near hy ((inYear_iff l _).mpr rfl) h1 h2
  unfold Fits at *
  omega

section

variable {T : Target} (hT : T.Valid) {tzenv : Option (List Char)} (hdoc : Documented T tzenv)
  {z z' : Zone} (hz : Cached z.info) {t : Int} (ht : Fits 64 t) (ht0 : 0 ≤ t)
  (hf : Fits T.intBits (civilTm t).year) (hfy : Fits T.intBits ((civilTm t).year + 1900))
  (h : tzset T tzenv z = some z')

include hT hdoc hz ht ht0 hf hfy h

theorem undone_std (hd : (tzRules T tzenv).1.offset = (tzRules T tzenv).2.offset) :
    Undone T tzenv z t ↔ t - (tzRules T tzenv).1.offset ≠ -1 := by
  have hb := hdoc.std
  have hlf := (local_year (l := t - (tzRules T tzenv).1.offset) ht0 (by omega) (by omega) hfy).2
  have hz' : Cached z'.info := (tzset_cases hz h).2.2.1
  obtain ⟨z2,hz2⟩ := Option.isSome_iff_exists.mp (tzset_isSome (tzset_year hz h))
  have hoff : zoneOffset T tzenv false = (tzRules T tzenv).1.offset := rfl
  rw [undone_iff_kept hT hdoc ht ht0 hf hfy h (localDst_std hz h hd _ _) (tzset_offset hz h false),hoff]
  constructor
  · intro hk herr
    exact not_kept_error hT hlf (by rw [hoff]; omega) herr hk
  · intro hne
    exact kept_std hT hdoc hz' hz2 hlf hd hne

theorem undone_dst (hd : (tzRules T tzenv).1.offset ≠ (tzRules T tzenv).2.offset) {info : Tzinfo}
    (hinfo : yearInfo T tzenv ((civilTm t).year + 1900) = some info) :
    Undone T tzenv z t ↔ t - info.localOffset t ≠ -1 ∧ ∀ y', InYear (t - info.localOffset t) y' →
      (y' = (civilTm t).year + 1900 → ¬info.Repeated t) ∧
      (y' ≠ (civilTm t).year + 1900 → 1970 ≤ y' →
        ∃ info', yearInfo T tzenv y' = some info' ∧ info'.north = info.north) := by
  have hy := (inYear_iff t _).mpr rfl
  have hge := inYear_epoch hy ht0
  obtain ⟨-,hyear,h0,h1,hnorth⟩ := yearInfo_some hge hinfo
  have hap := hdoc.apart hd _ _ hge hinfo
  have hb := zoneOffset_range hdoc (info.daylightAt t)
  have hoff : zoneOffset T tzenv (info.daylightAt t) = info.localOffset t :=
    (yearInfo_offset hge hinfo _).symm
  rw [hoff] at hb
  obtain ⟨hl69,hlf⟩ := local_year (T := T) (l := t - info.localOffset t) ht0 (by omega) (by omega) hfy
  have hz1 : Cached info := .inr (by omega)
  have hset : (tzset T tzenv { z' with info := info }).isSome := by
    apply tzset_isSome
    intro _
    dsimp only
    rw [hyear,hinfo]
    rfl
  obtain ⟨z2,hz2⟩ := Option.isSome_iff_exists.mp hset
  have hldst : localDst T z' t ((civilTm t).year + 1900) = some ((info.daylightAt t).toInt,info) := by
    rw [localDst_fresh hz h hd t hge,hinfo]
    rfl
  rw [undone_iff_kept hT hdoc ht ht0 hf hfy h hldst (yearInfo_offset hge hinfo _),hoff]
  by_cases herr : t - info.localOffset t = -1
  · refine iff_of_false (not_kept_error hT hlf (by rw [hoff]; omega) herr) (fun hc => hc.1 herr)
  rw [and_iff_right herr]
  have hylocal : ∀ y', InYear (t - info.localOffset t) y' ↔ y' = (civilTm (t - info.localOffset t)).year + 1900 :=
    inYear_iff _
  simp only [hylocal,forall_eq]
  by_cases hepoch : 1970 ≤ (civilTm (t - info.localOffset t)).year + 1900
  · rw [kept_iff hT hdoc hz1 hz2 hlf hd herr hepoch]
    by_cases hsame : (civilTm (t - info.localOffset t)).year + 1900 = (civilTm t).year + 1900
    · rw [hsame,hinfo]
      simp only [Option.some.injEq,exists_eq_left']
      rw [settled_same_year (h0 ▸ hdoc.std) (h1 ▸ hdoc.dst) hap hnorth]
      simp
    · simp only [hsame,false_imp_iff,true_and,ne_eq,not_false_eq_true,true_imp_iff,hepoch]
      apply exists_congr
      intro info'
      apply and_congr_right
      intro hinfo'
      obtain ⟨-,-,h0',h1',-⟩ := yearInfo_some hepoch hinfo'
      exact settled_other_year (h0 ▸ hdoc.std) (h1 ▸ hdoc.dst) (h0'.trans h0.symm) (h1'.trans h1.symm) hap
        (hdoc.apart hd _ _ hepoch hinfo') hy ((inYear_iff _ _).mpr rfl) hsame
  · have hlfy : Fits T.intBits ((civilTm (t - info.localOffset t)).year + 1900) := by
      unfold Fits at hfy ⊢
      omega
    refine iff_of_true (kept_unknown hT hdoc hz1 hz2 hlf hd herr hlfy (by omega) (by omega)) ⟨?_,?_⟩
    · intro hsame
      omega
    · intro _ hge'
      exact absurd hge' hepoch

end

theorem mktime_undoes_localtime {T : Target} (hT : T.Valid) {tzenv : Option (List Char)}
    (hdoc : Documented T tzenv) {z : Zone} (hz : Reached T z) {t y : Int} (ht : Fits 64 t) (ht0 : 0 ≤ t)
    (hy : InYear t y) : Undone T tzenv z t ↔ Undoable T tzenv z t y := by
  have hzc := reached_cached hz
  obtain rfl := (inYear_iff t y).mp hy
  have hge := inYear_epoch hy ht0
  rw [Undoable,show (civilTm t).year + 1900 - 1900 = (civilTm t).year by omega]
  by_cases hf : Fits T.intBits (civilTm t).year
  · rw [forall_prop_of_true hf]
    constructor
    · intro hu
      obtain ⟨hfy,z',h,hl⟩ := undone_defined hT ht hf hu
      refine ⟨hfy,by rw [h]; rfl,fun hd => (undone_std hT hdoc hzc ht ht0 hf hfy h hd).mp hu,fun hd => ?_⟩
      rw [localDst_fresh hzc h hd t hge,Option.isSome_map] at hl
      obtain ⟨info,hinfo⟩ := Option.isSome_iff_exists.mp hl
      exact ⟨info,hinfo,(undone_dst hT hdoc hzc ht ht0 hf hfy h hd hinfo).mp hu⟩
    · rintro ⟨hfy,hset,hstd,hdst⟩
      obtain ⟨z',h⟩ := Option.isSome_iff_exists.mp hset
      by_cases hd : (tzRules T tzenv).1.offset = (tzRules T tzenv).2.offset
      · exact (undone_std hT hdoc hzc ht ht0 hf hfy h hd).mpr (hstd hd)
      · obtain ⟨info,hinfo,hcond⟩ := hdst hd
        exact (undone_dst hT hdoc hzc ht ht0 hf hfy h hd hinfo).mpr hcond
  · refine iff_of_true ⟨none,z,?_,fun tm hn => by cases hn⟩ (fun hf' => absurd hf' hf)
    rw [localtimeR,gmtimeR_eq hT ht,if_neg hf]
    rfl

theorem daysToYear_eq {T : Target} {year days : Int} (hy : 1970 ≤ year) (h : daysToYear T year = some days) :
    days = yearStart year := by
  simp only [daysToYear,epochYear,Option.bind_eq_bind,Option.bind_eq_some_iff] at h
  obtain ⟨years,h1,d1,h2,d2,h3,d3,h4,h5⟩ := h
  have e1 := signed_some h1
  have e2 := signed_some h2
  have e3 := signed_some h3
  have e4 := signed_some h4
  have e5 := signed_some h5
  rw [(trunc_nonneg 4 (show 0 ≤ years - 1 + 2 by omega)).1] at e3
  rw [(trunc_nonneg 100 (show 0 ≤ years - 1 + 70 by omega)).1] at e4
  rw [(trunc_nonneg 400 (show 0 ≤ years - 1 + 370 by omega)).1] at e5
  unfold yearStart
  omega

theorem julian_change {T : Target} {r r' : Rule} {year days : Int} (hch : r.ch = .julian)
    (h : ruleChange T r year days = some r') :
    r'.change = (days + r.d + (if isleap year ≠ 0 ∧ 60 ≤ r.d then 1 else 0) - 1) * 86400 + r.s + r.offset := by
  simp only [ruleChange,ruleDays,hch,Option.bind_eq_bind,Option.bind_eq_some_iff,Option.pure_def,
    Option.some.injEq] at h
  obtain ⟨d,⟨a,ha,b,hb,hd⟩,c1,hc1,c2,hc2,c3,hc3,rfl⟩ := h
  have e1 := signed_some ha
  have e2 := signed_some hb
  have e3 := signed_some hd
  have e4 := signed_some hc1
  have e5 := signed_some hc2
  have e6 := signed_some hc3
  dsimp only
  rw [e6,e5,e4,e3,e2,e1,secsPerDay]

theorem julian_apart {T : Target} {tzenv : Option (List Char)} {r0 r1 : Rule} (hr : tzRules T tzenv = (r0,r1))
    (h0 : r0.ch = .julian) (h1 : r1.ch = .julian) (hd0 : 60 ≤ r0.d ∧ r0.d ≤ 360) (hd1 : 60 ≤ r1.d ∧ r1.d ≤ 360)
    (hgap : r0.d + 5 < r1.d ∨ r1.d + 5 < r0.d) (hs0 : 0 ≤ r0.s + r0.offset ∧ r0.s + r0.offset ≤ 172800)
    (hs1 : 0 ≤ r1.s + r1.offset ∧ r1.s + r1.offset ≤ 172800) {year : Int} {info : Tzinfo} (hy : 1970 ≤ year)
    (h : yearInfo T tzenv year = some info) : info.Apart year := by
  obtain ⟨hl,-⟩ := yearInfo_some hy h
  rw [hr,tzcalcLimits,epochYear,if_neg (by omega)] at hl
  simp only [Option.bind_eq_bind,Option.bind_eq_some_iff,Option.pure_def,Option.some.injEq,
    Prod.mk.injEq,true_and] at hl
  obtain ⟨days,hdays,r0',hr0,r1',hr1,rfl⟩ := hl
  have hc0 := julian_change h0 hr0
  have hc1 := julian_change h1 hr1
  have hlen := yearLength_pos year
  have hsucc := yearStart_succ year
  rw [daysToYear_eq hy hdays] at hc0 hc1
  constructor
  · dsimp only
    split_ifs at hc0 hc1 <;> omega
  · dsimp only
    split_ifs at hc0 hc1 <;> omega
  · dsimp only
    split_ifs at hc0 hc1 <;> omega

def julianTz : Option (List Char) :=
  some ['E','S','T','5','E','D','T',',','J','6','0',',','J','3','0','0']

theorem julianTz_rules : tzRules lp64 julianTz = (⟨.julian,0,0,60,7200,0,18000⟩,⟨.julian,0,0,300,7200,0,14400⟩) := by
  decide

theorem julianTz_documented : Documented lp64 julianTz := by
  refine ⟨by rw [julianTz_rules]; decide,by rw [julianTz_rules]; decide,fun _ year info hy h => ?_⟩
  exact julian_apart julianTz_rules rfl rfl (by decide) (by decide) (by decide) (by decide) (by decide) hy h

theorem mktime_undoes_localtime_summer :
    (localtimeR lp64 julianTz .start 1720000000).map Prod.fst = some (some ⟨40,46,5,3,6,124,3,184,1⟩) ∧
      Undone lp64 julianTz .start 1720000000 := by
  have hy : InYear 1720000000 2024 := ⟨by decide,by decide⟩
  refine ⟨by decide,
    (mktime_undoes_localtime lp64_valid julianTz_documented .start (by decide) (by decide) hy).mpr ?_⟩
  refine fun _ => ⟨by decide,by decide,fun hd => ?_,fun _ => ?_⟩
  · rw [julianTz_rules] at hd
    exact absurd hd (by decide)
  · refine ⟨⟨true,2024,⟨.julian,0,0,60,7200,1709276400,18000⟩,⟨.julian,0,0,300,7200,1730008800,14400⟩⟩,
      by decide,by decide,fun y' hy' => ?_⟩
    obtain rfl : y' = 2024 := (inYear_iff _ _).mp hy'
    exact ⟨fun _ hr => absurd hr.2 (by decide),fun hne => absurd rfl hne⟩

def irishTz : Option (List Char) :=
  some ['I','S','T','-','1','G','M','T','0',',','J','3','0','0',',','J','8','5','/','1']

theorem irishTz_rules : tzRules lp64 irishTz = (⟨.julian,0,0,300,7200,0,-3600⟩,⟨.julian,0,0,85,3600,0,0⟩) := by
  decide

theorem irishTz_documented : Documented lp64 irishTz := by
  refine ⟨by rw [irishTz_rules]; decide,by rw [irishTz_rules]; decide,fun _ year info hy h => ?_⟩
  exact julian_apart irishTz_rules rfl rfl (by decide) (by decide) (by decide) (by decide) (by decide) hy h

def est5 : Option (List Char) := some ['E','S','T','5']

theorem est5_documented : Documented lp64 est5 := by
  have hr : tzRules lp64 est5 = (⟨.unset,0,0,0,0,0,18000⟩,⟨.unset,0,0,0,0,0,18000⟩) := by decide
  refine ⟨by rw [hr]; decide,by rw [hr]; decide,fun hd => ?_⟩
  rw [hr] at hd
  exact absurd rfl hd

def roundTrip (T : Target) (tzenv : Option (List Char)) (z : Zone) (t : Int) : Option (Tm × Int × Tm) := do
  let (r,z1) ← localtimeR T tzenv z t
  let tm ← r
  let (p,_) ← mktime T tzenv z1 tm
  pure (tm,p)

theorem not_undone {T : Target} {tzenv : Option (List Char)} {z : Zone} {t : Int} {tm : Tm} {p : Int × Tm}
    (h : roundTrip T tzenv z t = some (tm,p)) (hne : p ≠ (t,tm)) : ¬Undone T tzenv z t := by
  rintro ⟨r,z1,hl,hall⟩
  simp only [roundTrip,hl,Option.bind_eq_bind,Option.bind_some] at h
  cases r with
  | none => cases h
  | some tm' =>
    obtain ⟨z2,hz2⟩ := hall tm' rfl
    simp only [Option.bind_some,hz2,Option.pure_def,Option.some.injEq,Prod.mk.injEq] at h
    obtain ⟨rfl,rfl⟩ := h
    exact hne rfl

theorem mktime_misses_localtime :
    (Documented lp64 irishTz ∧ ¬Undone lp64 irishTz .start 1729990000) ∧
      Documented lp64 est5 ∧ ¬Undone lp64 est5 .start 17999 := by
  have hirish : roundTrip lp64 irishTz .start 1729990000 =
      some (⟨40,46,1,27,9,124,0,300,0⟩,1729990000,⟨40,46,0,27,9,124,0,300,1⟩) := by decide
  have hest : roundTrip lp64 est5 .start 17999 =
      some (⟨59,59,23,31,11,69,3,364,0⟩,-1,⟨59,59,23,31,11,69,3,364,0⟩) := by decide
  exact ⟨⟨irishTz_documented,not_undone hirish (by decide)⟩,est5_documented,not_undone hest (by decide)⟩

end Time
