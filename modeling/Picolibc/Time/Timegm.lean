import Mathlib
import Picolibc.Time.Validate

namespace Time

open Checked Gregorian

section

variable {T : Target} (hT : T.Valid) {bits : Nat}

include hT

variable {tm : Tm} (h : tm.Ints T) (hc : tm.CarriesFit T)

include h hc

theorem mktimeUtcIn_far (hf : ¬Fits T.intBits (civilTm tm.instant).year) :
    ∃ tm', mktimeUtcIn T bits tm = some (⟨-1,0,tm'⟩,true) := by
  rw [mktimeUtcIn,validateStructure_some hT h hc,decide_eq_false hf]
  exact ⟨_,rfl⟩

theorem mktimeUtcIn_eq (hbits : bits = 32 ∨ bits = 64) (hf : Fits T.intBits (civilTm tm.instant).year) :
    mktimeUtcIn T bits tm = (signed bits (tm.instant / 86400)).bind fun days =>
      if days < dayMinIn bits ∨ dayMaxIn bits < days then
        some (⟨-1,0,{ civilTm tm.instant with wday := tm.wday, isdst := tm.isdst }⟩,true)
      else (signed bits (days * 86400)).bind fun daysecs =>
        (signed bits (tm.instant % 86400 + daysecs)).bind fun tim =>
          if 0 < daysecs ∧ tim < 0 then some (⟨-1,0,{ civilTm tm.instant with wday := tm.wday, isdst := tm.isdst }⟩,true)
          else some (⟨tim,days,{ civilTm tm.instant with wday := tm.wday, isdst := tm.isdst }⟩,false) := by
  have hb := civilTm_brokenDown tm.instant
  have hn : Tm.Normal { civilTm tm.instant with wday := tm.wday, yday := tm.yday, isdst := tm.isdst } :=
    ⟨hb.normal.sec,hb.normal.min,hb.normal.hour,hb.normal.mon,hb.normal.date⟩
  have hsecs : secondsOfDay T { civilTm tm.instant with wday := tm.wday, yday := tm.yday, isdst := tm.isdst } =
      some (tm.instant % 86400) := by
    have hclock := hb.time
    have hdiv := hb.normal.clock_div
    rw [secondsOfDay_eq hT hn,Option.some.injEq]
    rw [hclock] at hdiv
    unfold Tm.clock at hclock
    dsimp only
    omega
  have hyday : dayOfYear T { civilTm tm.instant with wday := tm.wday, yday := tm.yday, isdst := tm.isdst } =
      some (civilTm tm.instant).yday := by
    rw [dayOfYear_eq hT hn,hb.yday]
  have hwithin := hb.normal.date.within
  have hlen := yearLength_pos ((civilTm tm.instant).year + 1900)
  have hdays : (civilTm tm.instant).yday + yearStart ((civilTm tm.instant).year + 1900) = tm.instant / 86400 := by
    have hdiv := hb.normal.clock_div
    rw [hb.time] at hdiv
    rw [hdiv,hb.yday,Tm.day,dayNumber]
    omega
  rw [← hb.yday] at hwithin
  rw [mktimeUtcIn,validateStructure_some hT h hc,decide_eq_true hf,hT.toInt_fits hf]
  simp only [Option.bind_eq_bind,Option.bind_some,Option.pure_def]
  rw [if_neg (by decide),hsecs,Option.bind_some,hyday,Option.bind_some,hT.toInt_short (by omega) (by omega),
    daysSinceEpochIn_eq hT hbits hf hwithin.1 (by omega),hdays]
  rfl

end

structure Timely (T : Target) (bits : Nat) (tm : Tm) : Prop where
  carries : tm.CarriesFit T
  error : tm.instant = -1 → tm.wday = 3 ∧ tm.isdst = 0
  days : Fits T.intBits (civilTm tm.instant).year → Fits bits (tm.instant / 86400)
  first : Fits T.intBits (civilTm tm.instant).year →
    ¬(-2 ^ (bits - 1) ≤ tm.instant ∧ tm.instant < dayMinIn bits * 86400)
  last : Fits T.intBits (civilTm tm.instant).year →
    ¬(2 ^ (bits - 1) ≤ tm.instant ∧ tm.instant < (dayMaxIn bits + 1) * 86400)

def Normalises (T : Target) (bits : Nat) (tm : Tm) : Prop :=
  ∃ t tm' eoverflow, timegmIn T bits tm = some ((t,tm'),eoverflow) ∧
    if Fits bits tm.instant ∧ Fits T.intBits (civilTm tm.instant).year then
      t = tm.instant ∧ tm' = civilTm tm.instant ∧ eoverflow = false
    else t = -1 ∧ eoverflow = true

section

variable {T : Target} (hT : T.Valid) {bits : Nat} (hbits : bits = 32 ∨ bits = 64) {tm : Tm} (h : tm.Ints T)

include hT hbits h

omit hT h in
theorem day_limits : (bits = 32 ∧ dayMinIn bits = -24855 ∧ dayMaxIn bits = 24855 ∧ (2 : Int) ^ (bits - 1) = 2147483648) ∨
    (bits = 64 ∧ dayMinIn bits = -106751991167300 ∧ dayMaxIn bits = 106751991167300 ∧
      (2 : Int) ^ (bits - 1) = 9223372036854775808) := by
  rcases hbits with rfl | rfl
  · exact .inl ⟨rfl,by decide,by decide,by decide⟩
  · exact .inr ⟨rfl,by decide,by decide,by decide⟩

omit hbits in
theorem timegm_far (hc : tm.CarriesFit T) (hf : ¬Fits T.intBits (civilTm tm.instant).year) :
    Normalises T bits tm ∧ Timely T bits tm := by
  obtain ⟨tm',hutc⟩ := @mktimeUtcIn_far T hT bits tm h hc hf
  refine ⟨⟨-1,tm',true,?_,?_⟩,hc,fun hone => ?_,fun hfit => absurd hfit hf,fun hfit => absurd hfit hf,
    fun hfit => absurd hfit hf⟩
  · rw [timegmIn,hutc]
    rfl
  · rw [if_neg fun hboth => hf hboth.2]
    exact ⟨rfl,rfl⟩
  · rw [hone] at hf
    exact absurd (fits_short hT.int (show -32768 ≤ (civilTm (-1)).year by decide) (by decide)) hf

theorem timegm_rejected (hc : tm.CarriesFit T) (hf : Fits T.intBits (civilTm tm.instant).year)
    (hd : Fits bits (tm.instant / 86400))
    (hout : tm.instant / 86400 < dayMinIn bits ∨ dayMaxIn bits < tm.instant / 86400) :
    Normalises T bits tm ↔ Timely T bits tm := by
  have hlim := day_limits hbits
  have hutc := mktimeUtcIn_eq hT h hc hbits hf
  rw [signed_fits hd,Option.bind_some,if_pos hout] at hutc
  have hrun : timegmIn T bits tm = some ((-1,{ civilTm tm.instant with wday := tm.wday, isdst := tm.isdst }),true) := by
    rw [timegmIn,hutc]
    rfl
  have hfirst : ¬(-2 ^ (bits - 1) ≤ tm.instant ∧ tm.instant < dayMinIn bits * 86400) ↔ ¬Fits bits tm.instant := by
    unfold Fits
    omega
  constructor
  · rintro ⟨t,tm',e,heq,hall⟩
    rw [hrun] at heq
    cases heq
    have hno : ¬Fits bits tm.instant := by
      intro hfit
      rw [if_pos ⟨hfit,hf⟩] at hall
      exact absurd hall.2.2 (by decide)
    exact ⟨hc,fun hone => by omega,fun _ => hd,fun _ => hfirst.mpr hno,fun _ => by omega⟩
  · intro htimely
    refine ⟨-1,_,true,hrun,?_⟩
    rw [if_neg fun hboth => hfirst.mp (htimely.first hf) hboth.1]
    exact ⟨rfl,rfl⟩

theorem timegm_accepted (hc : tm.CarriesFit T) (hf : Fits T.intBits (civilTm tm.instant).year)
    (hd : Fits bits (tm.instant / 86400))
    (hin : ¬(tm.instant / 86400 < dayMinIn bits ∨ dayMaxIn bits < tm.instant / 86400)) :
    Normalises T bits tm ↔ Timely T bits tm := by
  have hlim := day_limits hbits
  have hutc := mktimeUtcIn_eq hT h hc hbits hf
  have hsecs : Fits bits (tm.instant / 86400 * 86400) := by
    unfold Fits
    omega
  rw [signed_fits hd,Option.bind_some,if_neg hin,signed_fits hsecs,Option.bind_some,
    show tm.instant % 86400 + tm.instant / 86400 * 86400 = tm.instant by omega] at hutc
  by_cases hfit : Fits bits tm.instant
  · rw [signed_fits hfit,Option.bind_some,if_neg (by omega)] at hutc
    have hb := civilTm_brokenDown tm.instant
    have htimely : Timely T bits tm ↔ (tm.instant = -1 → tm.wday = 3 ∧ tm.isdst = 0) := by
      refine ⟨fun ht => ht.error,fun he => ⟨hc,he,fun _ => hd,fun _ => by omega,fun _ => ?_⟩⟩
      unfold Fits at hfit
      omega
    rw [htimely]
    by_cases hone : tm.instant = -1
    · rw [hone] at hutc hfit hf
      have hrun : timegmIn T bits tm = some ((-1,{ civilTm (-1) with wday := tm.wday, isdst := tm.isdst }),false) := by
        rw [timegmIn,hutc]
        rfl
      have hsame : { civilTm (-1) with wday := tm.wday, isdst := tm.isdst } = civilTm (-1) ↔ tm.wday = 3 ∧ tm.isdst = 0 := by
        refine ⟨fun heq => ⟨congrArg Tm.wday heq,congrArg Tm.isdst heq⟩,fun heq => ?_⟩
        rw [heq.1,heq.2]
        decide
      unfold Normalises
      rw [hone,forall_prop_of_true rfl,← hsame,hrun]
      simp only [if_pos (And.intro hfit hf)]
      constructor
      · rintro ⟨t,tm',e,heq,-,htm,-⟩
        cases heq
        exact htm
      · exact fun htm => ⟨_,_,_,rfl,rfl,htm,rfl⟩
    · have hwday : Fits bits (tm.instant / 86400 + 4) := by
        unfold Fits
        omega
      refine iff_of_true ⟨tm.instant,civilTm tm.instant,false,?_,?_⟩ fun heq => absurd heq hone
      · rw [timegmIn,hutc]
        simp only [Option.bind_eq_bind,Option.bind_some]
        rw [if_neg hone,setTmWdayIn_eq hT hwday,Option.bind_some,← hb.wday,← hb.isdst]
        rfl
      · rw [if_pos ⟨hfit,hf⟩]
        exact ⟨rfl,rfl,rfl⟩
  · rw [signed,if_neg hfit] at hutc
    refine iff_of_false ?_ ?_
    · rintro ⟨t,tm',e,heq,-⟩
      rw [timegmIn,hutc] at heq
      exact absurd heq (by simp)
    · intro htimely
      have hlast := htimely.last hf
      unfold Fits at hfit
      omega

end

theorem timegm_normalises {T : Target} (hT : T.Valid) {bits : Nat} (hbits : bits = 32 ∨ bits = 64) {tm : Tm}
    (h : tm.Ints T) : Normalises T bits tm ↔ Timely T bits tm := by
  by_cases hc : tm.CarriesFit T
  · by_cases hf : Fits T.intBits (civilTm tm.instant).year
    · by_cases hd : Fits bits (tm.instant / 86400)
      · by_cases hout : tm.instant / 86400 < dayMinIn bits ∨ dayMaxIn bits < tm.instant / 86400
        · exact timegm_rejected hT hbits h hc hf hd hout
        · exact timegm_accepted hT hbits h hc hf hd hout
      · have hutc := mktimeUtcIn_eq hT h hc hbits hf
        rw [signed,if_neg hd] at hutc
        refine iff_of_false ?_ fun htimely => hd (htimely.days hf)
        rintro ⟨t,tm',e,heq,-⟩
        rw [timegmIn,hutc] at heq
        exact absurd heq (by simp)
    · obtain ⟨hn,ht⟩ := timegm_far hT h hc hf
      exact iff_of_true hn ht
  · refine iff_of_false ?_ fun htimely => hc htimely.carries
    rintro ⟨t,tm',e,heq,-⟩
    rw [timegmIn,mktimeUtcIn,validateStructure_none hT h hc] at heq
    exact absurd heq (by simp)

def scattered : Tm := ⟨75,-3,25,0,14,123,0,0,1⟩

theorem scattered_ints : scattered.Ints lp64 := ⟨by decide,by decide,by decide,by decide,by decide,by decide⟩

theorem timegm_normalises_scattered : timegmIn lp64 64 scattered = some ((1709254695,⟨15,58,0,1,2,124,5,60,0⟩),false) ∧
    Normalises lp64 64 scattered :=
  ⟨by decide,(timegm_normalises lp64_valid (.inr rfl) scattered_ints).mpr ⟨⟨by decide,by decide,by decide⟩,
    fun hone => absurd hone (by decide),fun _ => by decide,fun _ => by decide,fun _ => by decide⟩⟩

theorem timegm_misses : ¬Normalises lp64 64 ⟨60,2147483647,0,1,0,70,0,0,0⟩ ∧
    ¬Normalises lp64 64 ⟨59,59,23,31,11,69,0,0,0⟩ ∧ ¬Normalises ⟨32,32⟩ 32 ⟨52,45,20,13,11,1,0,0,0⟩ := by
  have hwraps : timegmIn lp64 64 ⟨60,2147483647,0,1,0,70,0,0,0⟩ = none := by decide
  have herror : timegmIn lp64 64 ⟨59,59,23,31,11,69,0,0,0⟩ = some ((-1,⟨59,59,23,31,11,69,0,364,0⟩),false) := by decide
  have hfirst : timegmIn ⟨32,32⟩ 32 ⟨52,45,20,13,11,1,0,0,0⟩ = some ((-1,⟨52,45,20,13,11,1,0,346,0⟩),true) := by
    decide
  refine ⟨?_,?_,?_⟩
  · rintro ⟨t,tm,e,heq,-⟩
    rw [hwraps] at heq
    exact absurd heq (by simp)
  · rintro ⟨t,tm,e,heq,hall⟩
    rw [herror] at heq
    cases heq
    rw [if_pos (by decide)] at hall
    exact absurd hall.2.1 (by decide)
  · rintro ⟨t,tm,e,heq,hall⟩
    rw [hfirst] at heq
    cases heq
    rw [if_pos (by decide)] at hall
    exact absurd hall.2.2 (by decide)

end Time
