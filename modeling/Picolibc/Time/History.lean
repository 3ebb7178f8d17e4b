import Mathlib
import Picolibc.Time.Local

namespace Time

inductive TimeCall where
  | tzset
  | localtime (t : Int)
  | mktime (tm : Tm)
  deriving DecidableEq, Repr

inductive Answer where
  | none
  | fields (tm : Option Tm)
  | stamp (t : Int) (tm : Tm)
  deriving DecidableEq, Repr

def TimeCall.run (T : Target) (tzenv : Option (List Char)) (z : Zone) : TimeCall → Option (Answer × Zone)
  | .tzset => (Time.tzset T tzenv z).map (fun z => (.none,z))
  | .localtime t => (localtimeR T tzenv z t).map (fun r => (.fields r.1,r.2))
  | .mktime tm => (Time.mktime T tzenv z tm).map (fun r => (.stamp r.1.1 r.1.2,r.2))

inductive Reached (T : Target) : Zone → Prop
  | start : Reached T .start
  | call {z z' : Zone} {a : Answer} (hz : Reached T z) (tzenv : Option (List Char)) (c : TimeCall)
      (hc : c.run T tzenv z = some (a,z')) : Reached T z'

def Cached (info : Tzinfo) : Prop := (info.year = 0 ∧ info.north = false) ∨ 1970 ≤ info.year

def Rule.form (r : Rule) : Rule := ⟨r.ch,r.m,r.n,r.d,r.s,0,r.offset⟩

def SameRules (info info' : Tzinfo) : Prop :=
  info.rule0.form = info'.rule0.form ∧ info.rule1.form = info'.rule1.form

theorem SameRules.offset {info info' : Tzinfo} (h : SameRules info info') :
    info.offset = info'.offset := by
  have h0 : info.rule0.form.offset = info'.rule0.form.offset := congrArg Rule.offset h.1
  have h1 : info.rule1.form.offset = info'.rule1.form.offset := congrArg Rule.offset h.2
  have h0' : info.rule0.offset = info'.rule0.offset := h0
  have h1' : info.rule1.offset = info'.rule1.offset := h1
  funext isdst
  rw [Tzinfo.offset,Tzinfo.offset,h0',h1']

theorem ruleChange_unchanged (T : Target) (r : Rule) (year days : Int) :
    ruleChange T r year days = ruleChange T r.form year days := rfl

theorem ruleChange_rule {T : Target} {r r' : Rule} {year days : Int}
    (h : ruleChange T r year days = some r') : r'.form = r.form := by
  simp only [ruleChange,Option.bind_eq_bind,Option.bind_eq_some_iff,Option.pure_def,Option.some.injEq] at h
  obtain ⟨_,-,_,-,_,-,_,-,rfl⟩ := h
  rfl

theorem tzcalcLimits_cases {T : Target} {info info' : Tzinfo} {year : Int} {known : Bool}
    (h : tzcalcLimits T info year = some (known,info')) :
    (year < 1970 ∧ known = false ∧ info' = info) ∨
      (1970 ≤ year ∧ known = true ∧ info'.year = year ∧ SameRules info' info) := by
  unfold tzcalcLimits epochYear at h
  split_ifs at h with hy
  · cases h
    exact .inl ⟨hy,rfl,rfl⟩
  · simp only [Option.bind_eq_bind,Option.bind_eq_some_iff,Option.pure_def,Option.some.injEq,
      Prod.mk.injEq] at h
    obtain ⟨days,-,r0,h0,r1,h1,rfl,rfl⟩ := h
    exact .inr ⟨by omega,rfl,rfl,ruleChange_rule h0,ruleChange_rule h1⟩

theorem tzcalcLimits_cached {T : Target} {info info' : Tzinfo} {year : Int} {known : Bool}
    (hc : Cached info) (h : tzcalcLimits T info year = some (known,info')) : Cached info' := by
  rcases tzcalcLimits_cases h with ⟨-,-,rfl⟩ | ⟨hy,-,rfl,-⟩
  · exact hc
  · exact .inr hy

theorem tzcalcLimits_congr (T : Target) {info info' : Tzinfo} {year : Int} (h : SameRules info info')
    (hy : 1970 ≤ year) : tzcalcLimits T info year = tzcalcLimits T info' year := by
  have h0 : ∀ days, ruleChange T info.rule0 year days = ruleChange T info'.rule0 year days := by
    intro days
    rw [ruleChange_unchanged,h.1,← ruleChange_unchanged]
  have h1 : ∀ days, ruleChange T info.rule1 year days = ruleChange T info'.rule1 year days := by
    intro days
    rw [ruleChange_unchanged,h.2,← ruleChange_unchanged]
  have hn : ¬year < epochYear := by
    unfold epochYear
    omega
  simp only [tzcalcLimits,if_neg hn,h0,h1]

theorem tzset_cases {T : Target} {tzenv : Option (List Char)} {z z' : Zone} (hz : Cached z.info)
    (h : tzset T tzenv z = some z') :
    z'.daylight = decide ((tzRules T tzenv).1.offset ≠ (tzRules T tzenv).2.offset) ∧
      z'.info.year = z.info.year ∧ Cached z'.info ∧
      ((z.info.year = 0 ∧ z'.info = ⟨false,0,(tzRules T tzenv).1,(tzRules T tzenv).2⟩) ∨
        (1970 ≤ z.info.year ∧ tzcalcLimits T ⟨false,0,(tzRules T tzenv).1,(tzRules T tzenv).2⟩ z.info.year =
          some (true,z'.info))) := by
  simp only [tzset,Option.bind_eq_bind,Option.bind_eq_some_iff,Option.pure_def,Option.some.injEq] at h
  obtain ⟨⟨known,info⟩,hl,rfl⟩ := h
  have hcase := tzcalcLimits_cases hl
  rcases hz with ⟨hy,hn⟩ | hy
  · obtain ⟨-,-,rfl⟩ : z.info.year < 1970 ∧ known = false ∧
        info = { z.info with rule0 := (tzRules T tzenv).1, rule1 := (tzRules T tzenv).2 } := by
      rcases hcase with hcase | ⟨hge,-⟩
      · exact hcase
      · omega
    exact ⟨rfl,rfl,.inl ⟨hy,hn⟩,.inl ⟨hy,by simp [hy,hn]⟩⟩
  · obtain ⟨-,rfl,hyear,-⟩ : 1970 ≤ z.info.year ∧ known = true ∧ info.year = z.info.year ∧ _ := by
      rcases hcase with ⟨hlt,-⟩ | hcase
      · omega
      · exact hcase
    refine ⟨rfl,hyear,.inr (by dsimp only; omega),.inr ⟨hy,?_⟩⟩
    rw [← hl]
    exact tzcalcLimits_congr T ⟨rfl,rfl⟩ hy

theorem tzset_rules {T : Target} {tzenv : Option (List Char)} {z z' : Zone} (hz : Cached z.info)
    (h : tzset T tzenv z = some z') :
    SameRules z'.info ⟨false,0,(tzRules T tzenv).1,(tzRules T tzenv).2⟩ := by
  rcases (tzset_cases hz h).2.2.2 with ⟨-,heq⟩ | ⟨hy,hl⟩
  · rw [heq]
    exact ⟨rfl,rfl⟩
  · rcases tzcalcLimits_cases hl with ⟨hlt,-⟩ | ⟨-,-,-,hr⟩
    · omega
    · exact hr

theorem lookup_fresh {T : Target} {tzenv : Option (List Char)} {z z' : Zone} (hz : Cached z.info)
    (h : tzset T tzenv z = some z') {year : Int} (hy : year ≠ 0 ∨ z.info.year ≠ 0) :
    z'.info.lookup T year = if year < 1970 then some (false,z'.info)
      else tzcalcLimits T ⟨false,0,(tzRules T tzenv).1,(tzRules T tzenv).2⟩ year := by
  obtain ⟨-,hyear,-,hcase⟩ := tzset_cases hz h
  have hcache : z.info.year = 0 ∨ 1970 ≤ z.info.year := by
    rcases hz with ⟨h0,-⟩ | h1
    · exact .inl h0
    · exact .inr h1
  unfold Tzinfo.lookup
  by_cases heq : year = z'.info.year
  · rcases hcase with ⟨h0,-⟩ | ⟨h1,hl⟩
    · omega
    · rw [if_pos heq,if_neg (by omega),← hl,heq,hyear]
  · rw [if_neg heq]
    by_cases hlt : year < 1970
    · rw [if_pos hlt,tzcalcLimits,epochYear,if_pos hlt]
    · rw [if_neg hlt]
      exact tzcalcLimits_congr T (tzset_rules hz h) (by omega)

theorem lookup_cached {T : Target} {info info' : Tzinfo} {year : Int} {known : Bool} (hc : Cached info)
    (h : info.lookup T year = some (known,info')) : Cached info' := by
  unfold Tzinfo.lookup at h
  split_ifs at h
  · cases h
    exact hc
  · exact tzcalcLimits_cached hc h

theorem localDst_cached {T : Target} {z : Zone} {info : Tzinfo} {t year isdst : Int} (hc : Cached z.info)
    (h : localDst T z t year = some (isdst,info)) : Cached info := by
  unfold localDst at h
  split_ifs at h
  · simp only [Option.bind_eq_bind,Option.bind_eq_some_iff,Option.pure_def] at h
    obtain ⟨⟨known,info'⟩,hl,heq⟩ := h
    cases heq
    exact lookup_cached hc hl
  · cases h
    exact hc

theorem resolveDst_cached {T : Target} {z : Zone} {info : Tzinfo} {u : Utc} {r : Decision}
    (hc : Cached z.info) (h : resolveDst T z u = some (r,info)) : Cached info := by
  unfold resolveDst at h
  by_cases hd : z.daylight = true
  · rw [if_pos hd] at h
    simp only [Option.bind_eq_bind,Option.bind_eq_some_iff,Option.pure_def] at h
    obtain ⟨y,-,⟨known,info'⟩,hl,h⟩ := h
    have hc' := lookup_cached hc hl
    cases known with
    | false =>
      cases h
      exact hc'
    | true =>
      simp only [if_true,Option.bind_eq_some_iff] at h
      obtain ⟨d,-,heq⟩ := h
      cases heq
      exact hc'
  · rw [if_neg hd] at h
    cases h
    exact hc

theorem run_cached {T : Target} {tzenv : Option (List Char)} {z z' : Zone} {c : TimeCall} {a : Answer}
    (hz : Cached z.info) (h : c.run T tzenv z = some (a,z')) : Cached z'.info := by
  cases c with
  | tzset =>
    obtain ⟨w,hw,heq⟩ := Option.map_eq_some_iff.mp h
    cases heq
    exact (tzset_cases hz hw).2.2.1
  | localtime t =>
    obtain ⟨⟨r,w⟩,hr,heq⟩ := Option.map_eq_some_iff.mp h
    cases heq
    simp only [localtimeR,Option.bind_eq_bind,Option.bind_eq_some_iff,Option.pure_def] at hr
    obtain ⟨g,-,hr⟩ := hr
    cases g with
    | none =>
      cases hr
      exact hz
    | some tm =>
      simp only [Option.bind_eq_some_iff] at hr
      obtain ⟨year,-,w',hw,⟨isdst,info⟩,hl,tm',-,heq⟩ := hr
      cases heq
      exact localDst_cached (tzset_cases hz hw).2.2.1 hl
  | mktime tm =>
    obtain ⟨⟨r,w⟩,hr,heq⟩ := Option.map_eq_some_iff.mp h
    cases heq
    simp only [Time.mktime,Option.bind_eq_bind,Option.bind_eq_some_iff,Option.pure_def] at hr
    obtain ⟨u,-,hr⟩ := hr
    split_ifs at hr
    · cases hr
      exact hz
    · simp only [Option.bind_eq_some_iff] at hr
      obtain ⟨w',hw,⟨d,info⟩,hl,tim,-,tm',-,heq⟩ := hr
      cases heq
      exact resolveDst_cached (tzset_cases hz hw).2.2.1 hl

theorem reached_cached {T : Target} {z : Zone} (h : Reached T z) : Cached z.info := by
  induction h with
  | start => exact .inl ⟨rfl,rfl⟩
  | call _ _ _ hc ih => exact run_cached ih hc

inductive Agree : Option (Bool × Tzinfo) → Option (Bool × Tzinfo) → Prop
  | same (r : Option (Bool × Tzinfo)) : Agree r r
  | unknown {info info' : Tzinfo} (h : info.offset = info'.offset) : Agree (some (false,info)) (some (false,info'))

theorem lookup_agree {T : Target} {tzenv : Option (List Char)} {z w z' w' : Zone}
    (hz : Cached z.info) (hw : Cached w.info) (hz' : tzset T tzenv z = some z')
    (hw' : tzset T tzenv w = some w') (year : Int)
    (hy : year = 0 → (z.info.year = 0 ↔ w.info.year = 0)) :
    Agree (z'.info.lookup T year) (w'.info.lookup T year) := by
  by_cases hboth : year = 0 ∧ z.info.year = 0
  · have hz0 := hboth.2
    have hw0 := (hy hboth.1).mp hz0
    rcases (tzset_cases hz hz').2.2.2 with ⟨-,h1⟩ | ⟨h1,-⟩
    · rcases (tzset_cases hw hw').2.2.2 with ⟨-,h2⟩ | ⟨h2,-⟩
      · rw [h1,h2]
        exact .same _
      · omega
    · omega
  · rw [lookup_fresh hz hz' (by omega),lookup_fresh hw hw' (by omega)]
    split_ifs
    · apply Agree.unknown
      rw [(tzset_rules hz hz').offset,(tzset_rules hw hw').offset]
    · exact .same _

def TimeCall.year (T : Target) : TimeCall → Option Int
  | .tzset => none
  | .localtime t => ((gmtimeR T t).bind id).map (fun tm => tm.year + 1900)
  | .mktime tm => (mktimeUtc T tm).map (fun u => u.tm.year + 1900)

def NoLeak (T : Target) (tzenv : Option (List Char)) (c : TimeCall) (z w : Zone) : Prop :=
  c.year T = some 0 → (tzRules T tzenv).1.offset ≠ (tzRules T tzenv).2.offset →
    (z.info.year = 0 ↔ w.info.year = 0)

section

variable {T : Target} {tzenv : Option (List Char)} {z w z' w' : Zone} (hz : Cached z.info)
  (hw : Cached w.info) (hz' : tzset T tzenv z = some z') (hw' : tzset T tzenv w = some w')

include hz hw hz' hw'

omit hw hw' in
theorem daylight_on (hon : z'.daylight = true) :
    (tzRules T tzenv).1.offset ≠ (tzRules T tzenv).2.offset := by
  rw [(tzset_cases hz hz').1] at hon
  exact of_decide_eq_true hon

theorem daylight_agree : z'.daylight = w'.daylight := by
  rw [(tzset_cases hz hz').1,(tzset_cases hw hw').1]

theorem localDst_agree {t year i j : Int} {info info' : Tzinfo}
    (hy : year = 0 → z'.daylight = true → (z.info.year = 0 ↔ w.info.year = 0))
    (h1 : localDst T z' t year = some (i,info)) (h2 : localDst T w' t year = some (j,info')) :
    i = j ∧ info.offset = info'.offset := by
  have hd := daylight_agree hz hw hz' hw'
  unfold localDst at h1 h2
  by_cases hon : z'.daylight = true
  · rw [if_pos hon] at h1
    rw [if_pos (hd ▸ hon)] at h2
    have ha := lookup_agree hz hw hz' hw' year (fun h => hy h hon)
    revert h1 h2
    generalize z'.info.lookup T year = p at ha ⊢
    generalize w'.info.lookup T year = q at ha ⊢
    intro h1 h2
    cases ha with
    | same r =>
      rw [h1] at h2
      cases h2
      exact ⟨rfl,rfl⟩
    | unknown h =>
      cases h1
      cases h2
      exact ⟨rfl,h⟩
  · rw [if_neg hon] at h1
    rw [if_neg (hd ▸ hon)] at h2
    cases h1
    cases h2
    refine ⟨rfl,?_⟩
    rw [(tzset_rules hz hz').offset,(tzset_rules hw hw').offset]

theorem resolveDst_agree {u : Utc} {d e : Decision} {info info' : Tzinfo}
    (hy : u.tm.year + 1900 = 0 → z'.daylight = true → (z.info.year = 0 ↔ w.info.year = 0))
    (h1 : resolveDst T z' u = some (d,info)) (h2 : resolveDst T w' u = some (e,info')) :
    d = e ∧ info.offset = info'.offset := by
  have hd := daylight_agree hz hw hz' hw'
  unfold resolveDst at h1 h2
  by_cases hon : z'.daylight = true
  · rw [if_pos hon] at h1
    rw [if_pos (hd ▸ hon)] at h2
    simp only [Option.bind_eq_bind,Option.bind_eq_some_iff] at h1 h2
    obtain ⟨y,hyy,h1⟩ := h1
    obtain ⟨y',hyy',h2⟩ := h2
    obtain rfl : y = y' := Option.some.inj (hyy.symm.trans hyy')
    have hval : y = u.tm.year + 1900 := Checked.signed_some hyy
    have ha := lookup_agree hz hw hz' hw' y (fun h => hy (hval ▸ h) hon)
    revert h1 h2
    generalize z'.info.lookup T y = p at ha ⊢
    generalize w'.info.lookup T y = q at ha ⊢
    rintro ⟨⟨k,i⟩,rfl,h1⟩ ⟨⟨k',i'⟩,rfl,h2⟩
    cases ha with
    | same =>
      rw [h1] at h2
      cases h2
      exact ⟨rfl,rfl⟩
    | unknown h =>
      cases h1
      cases h2
      exact ⟨rfl,h⟩
  · rw [if_neg hon] at h1
    rw [if_neg (hd ▸ hon)] at h2
    cases h1
    cases h2
    refine ⟨rfl,?_⟩
    rw [(tzset_rules hz hz').offset,(tzset_rules hw hw').offset]

end

theorem history_independent {T : Target} {z w : Zone} (hz : Reached T z) (hw : Reached T w)
    {tzenv : Option (List Char)} {c : TimeCall} (hc : NoLeak T tzenv c z w) {a b : Answer} {z' w' : Zone}
    (h1 : c.run T tzenv z = some (a,z')) (h2 : c.run T tzenv w = some (b,w')) : a = b := by
  have hzc := reached_cached hz
  have hwc := reached_cached hw
  cases c with
  | tzset =>
    obtain ⟨p,-,he1⟩ := Option.map_eq_some_iff.mp h1
    obtain ⟨q,-,he2⟩ := Option.map_eq_some_iff.mp h2
    cases he1
    cases he2
    rfl
  | localtime t =>
    obtain ⟨⟨r,p⟩,hr,he1⟩ := Option.map_eq_some_iff.mp h1
    obtain ⟨⟨s,q⟩,hs,he2⟩ := Option.map_eq_some_iff.mp h2
    cases he1
    cases he2
    simp only [localtimeR,Option.bind_eq_bind,Option.bind_eq_some_iff,Option.pure_def] at hr hs
    obtain ⟨g,hg,hr⟩ := hr
    obtain ⟨g',hg',hs⟩ := hs
    obtain rfl : g = g' := Option.some.inj (hg.symm.trans hg')
    cases g with
    | none =>
      cases hr
      cases hs
      rfl
    | some tm =>
      simp only [Option.bind_eq_some_iff] at hr hs
      obtain ⟨year,hyear,p',hp,⟨i,info⟩,hi,tm1,htm1,he⟩ := hr
      obtain ⟨year',hyear',q',hq,⟨j,info'⟩,hj,tm2,htm2,he'⟩ := hs
      obtain rfl : year = year' := Option.some.inj (hyear.symm.trans hyear')
      have hval : year = tm.year + 1900 := Checked.signed_some hyear
      obtain ⟨rfl,hoff⟩ := localDst_agree hzc hwc hp hq (fun h0 hon => hc
        (by simp [TimeCall.year,hg,← hval,h0]) (daylight_on hzc hp hon)) hi hj
      rw [hoff] at htm1
      obtain rfl : tm1 = tm2 := Option.some.inj (htm1.symm.trans htm2)
      cases he
      cases he'
      rfl
  | mktime tm =>
    obtain ⟨⟨r,p⟩,hr,he1⟩ := Option.map_eq_some_iff.mp h1
    obtain ⟨⟨s,q⟩,hs,he2⟩ := Option.map_eq_some_iff.mp h2
    cases he1
    cases he2
    simp only [Time.mktime,Option.bind_eq_bind,Option.bind_eq_some_iff,Option.pure_def] at hr hs
    obtain ⟨u,hu,hr⟩ := hr
    obtain ⟨u',hu',hs⟩ := hs
    obtain rfl : u = u' := Option.some.inj (hu.symm.trans hu')
    by_cases herr : u.tim = -1
    · rw [if_pos herr] at hr hs
      cases hr
      cases hs
      rfl
    · rw [if_neg herr] at hr hs
      simp only [Option.bind_eq_some_iff] at hr hs
      obtain ⟨p',hp,⟨d,info⟩,hd,tim,htim,tm1,htm1,he⟩ := hr
      obtain ⟨q',hq,⟨e,info'⟩,he0,tim',htim',tm2,htm2,he'⟩ := hs
      obtain ⟨rfl,hoff⟩ := resolveDst_agree hzc hwc hp hq (fun h0 hon => hc
        (by simp [TimeCall.year,hu,h0]) (daylight_on hzc hp hon)) hd he0
      rw [hoff] at htim
      obtain rfl : tim = tim' := Option.some.inj (htim.symm.trans htim')
      obtain rfl : tm1 = tm2 := Option.some.inj (htm1.symm.trans htm2)
      cases he
      cases he'
      rfl

def est5edt : Option (List Char) := some ['E','S','T','5','E','D','T']

def Zone.after (T : Target) (tzenv : Option (List Char)) (z : Zone) (c : TimeCall) : Zone :=
  match c.run T tzenv z with
  | some (_,z') => z'
  | none => z

theorem reached_after {T : Target} {z : Zone} (hz : Reached T z) (tzenv : Option (List Char))
    (c : TimeCall) : Reached T (z.after T tzenv c) := by
  unfold Zone.after
  split
  · exact hz.call _ _ ‹_›
  · exact hz

def warmed : Zone := Zone.start.after lp64 est5edt (.localtime 0)

theorem warmed_reached : Reached lp64 warmed := reached_after .start _ _

theorem history_independent_summer :
    ∃ a z' w', (TimeCall.localtime 1720000000).run lp64 est5edt .start = some (a,z') ∧
      (TimeCall.localtime 1720000000).run lp64 est5edt warmed = some (a,w') ∧
      a = .fields (some ⟨40,46,5,3,6,124,3,184,1⟩) := by
  have h1 : ((TimeCall.localtime 1720000000).run lp64 est5edt .start).map Prod.fst =
      some (.fields (some ⟨40,46,5,3,6,124,3,184,1⟩)) := by decide +kernel
  have h2 : ((TimeCall.localtime 1720000000).run lp64 est5edt warmed).isSome := by decide
  have hyear : (TimeCall.localtime 1720000000).year lp64 = some 2024 := by decide
  obtain ⟨⟨a,z'⟩,hz,ha⟩ := Option.map_eq_some_iff.mp h1
  obtain ⟨⟨b,w'⟩,hw⟩ := Option.isSome_iff_exists.mp h2
  have hab := history_independent .start warmed_reached (fun h => by rw [hyear] at h; cases h) hz hw
  exact ⟨a,z',w',hz,hab ▸ hw,ha⟩

theorem year_zero_leaks : ¬ ∀ z w, Reached lp64 z → Reached lp64 w → ∀ tzenv c a b z' w',
    TimeCall.run lp64 tzenv z c = some (a,z') → TimeCall.run lp64 tzenv w c = some (b,w') → a = b := by
  intro hall
  have h1 : ((TimeCall.localtime (-62150000000)).run lp64 est5edt .start).map Prod.fst =
      some (.fields (some ⟨40,6,3,18,6,-1900,2,199,1⟩)) := by decide +kernel
  have h2 : ((TimeCall.localtime (-62150000000)).run lp64 est5edt warmed).map Prod.fst =
      some (.fields (some ⟨40,6,2,18,6,-1900,2,199,-1⟩)) := by decide +kernel
  obtain ⟨⟨a,z'⟩,hz,ha⟩ := Option.map_eq_some_iff.mp h1
  obtain ⟨⟨b,w'⟩,hw,hb⟩ := Option.map_eq_some_iff.mp h2
  have hab := hall .start warmed .start warmed_reached _ _ _ _ _ _ hz hw
  dsimp only at ha hb
  rw [ha,hb] at hab
  exact absurd hab (by decide)

end Time
