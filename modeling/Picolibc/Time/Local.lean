import Mathlib
import Picolibc.Time.Tzset

namespace Time

open Checked Gregorian

def Tzinfo.lookup (T : Target) (info : Tzinfo) (year : Int) : Option (Bool × Tzinfo) :=
  if year = info.year then some (true,info) else tzcalcLimits T info year

def Tzinfo.daylightAt (info : Tzinfo) (t : Int) : Bool :=
  if info.north then decide (info.rule0.change ≤ t ∧ t < info.rule1.change)
  else decide (info.rule0.change ≤ t ∨ t < info.rule1.change)

def Tzinfo.offset (info : Tzinfo) (isdst : Int) : Int :=
  if isdst = 1 then info.rule1.offset else info.rule0.offset

def borrow (n x next : Int) : Int × Int :=
  if n ≤ x then (x - n,next + 1) else if x < 0 then (x + n,next - 1) else (x,next)

def nextDay (len : Int) (tm : Tm) : Tm :=
  let tm := { tm with
    yday := tm.yday + 1
    wday := if 6 < tm.wday + 1 then 0 else tm.wday + 1
    mday := tm.mday + 1 }
  if len < tm.mday then
    let tm := { tm with mday := tm.mday - len, mon := tm.mon + 1 }
    if tm.mon = 12 then { tm with mon := 0, year := tm.year + 1, yday := 0 } else tm
  else tm

def prevDay (T : Target) (lens : Int → Int) (tm : Tm) : Option Tm :=
  let tm := { tm with
    yday := tm.yday - 1
    wday := if tm.wday - 1 < 0 then 6 else tm.wday - 1
    mday := tm.mday - 1 }
  if tm.mday = 0 then
    if tm.mon - 1 < 0 then do
      let year ← T.int (tm.year - 1)
      pure { tm with mon := 11, year := year, yday := 364 + isleap (year + yearBase), mday := lens 11 }
    else pure { tm with mon := tm.mon - 1, mday := lens (tm.mon - 1) }
  else pure tm

def shiftTm (T : Target) (lens : Int → Int) (offset : Int) (tm : Tm) : Option Tm :=
  let hours := T.toInt (offset.tdiv secsPerHour)
  let offset := offset.tmod secsPerHour
  let mins := T.toInt (offset.tdiv secsPerMin)
  let secs := T.toInt (offset.tmod secsPerMin)
  let (sec,min) := borrow 60 (tm.sec - secs) (tm.min - mins)
  let (min,hour) := borrow 60 min (tm.hour - hours)
  let tm := { tm with sec := sec, min := min, hour := hour }
  if 24 ≤ tm.hour then pure (nextDay (lens tm.mon) { tm with hour := tm.hour - 24 })
  else if tm.hour < 0 then prevDay T lens { tm with hour := tm.hour + 24 }
  else pure tm

def localDst (T : Target) (z : Zone) (t year : Int) : Option (Int × Tzinfo) :=
  if z.daylight then do
    let (known,info) ← z.info.lookup T year
    pure (if known then (info.daylightAt t).toInt else -1,info)
  else pure (0,z.info)

def localtimeR (T : Target) (tzenv : Option (List Char)) (z : Zone) (t : Int) :
    Option (Option Tm × Zone) := do
  match ← gmtimeR T t with
  | none => pure (none,z)
  | some tm => do
    let year ← T.int (tm.year + yearBase)
    let z ← tzset T tzenv z
    let (isdst,info) ← localDst T z t year
    let tm ← shiftTm T (monthLengthsAt (isleap year)) (info.offset isdst) { tm with isdst := isdst }
    pure (some tm,{ z with info := info })

def rollDays (T : Target) (before after days : Int) (tm : Tm) : Option (Int × Tm) :=
  if after = before then pure (days,tm)
  else do
    let mday := if 1 < after - before then -1 else if after - before < -1 then 1 else after - before
    let days ← timeT (days + mday)
    let yday ← T.int (tm.yday + mday)
    if yday < 0 then do
      let year ← T.int (tm.year - 1)
      let len ← daysInYear T year
      pure (days,{ tm with yday := len - 1 })
    else do
      let len ← daysInYear T tm.year
      pure (days,{ tm with yday := if len - 1 < yday then yday - len else yday })

structure Decision where
  isdst : Int
  tim : Int
  days : Int
  tm : Tm
  deriving DecidableEq, Repr

def correct (T : Target) (info : Tzinfo) (isdst year : Int) (u : Utc) : Option Decision := do
  let diff := T.toInt (info.rule0.offset - info.rule1.offset)
  let diff ← if isdst = 0 then T.int (-diff) else pure diff
  let sec ← T.int (u.tm.sec + diff)
  let tim ← timeT (u.tim + diff)
  let (_,tm) ← validateStructure T { u.tm with sec := sec }
  let (days,tm') ← rollDays T u.tm.mday tm.mday u.days { tm with year := year }
  pure ⟨isdst,tim,days,{ tm' with year := tm.year }⟩

def decideDst (T : Target) (info : Tzinfo) (tmIsdst year : Int) (u : Utc) : Option Decision := do
  let startdstDst ← timeT (info.rule0.change - info.rule1.offset)
  let startstdDst ← timeT (info.rule1.change - info.rule1.offset)
  let startstdStd ← timeT (info.rule1.change - info.rule0.offset)
  if startstdStd ≤ u.tim ∧ u.tim < startstdDst then pure ⟨tmIsdst,u.tim,u.days,u.tm⟩
  else do
    let isdst := (if info.north then decide (startdstDst ≤ u.tim ∧ u.tim < startstdStd)
      else decide (startdstDst ≤ u.tim ∨ u.tim < startstdStd)).toInt
    if 0 ≤ tmIsdst ∧ isdst ≠ tmIsdst then correct T info isdst year u
    else pure ⟨isdst,u.tim,u.days,u.tm⟩

def resolveDst (T : Target) (z : Zone) (u : Utc) : Option (Decision × Tzinfo) :=
  if z.daylight then do
    let y ← T.int (u.tm.year + yearBase)
    let tmIsdst := if 0 < u.tm.isdst then 1 else u.tm.isdst
    let (known,info) ← z.info.lookup T y
    let r ← if known then decideDst T info tmIsdst u.tm.year u
      else pure ⟨tmIsdst,u.tim,u.days,u.tm⟩
    pure (r,info)
  else pure (⟨0,u.tim,u.days,u.tm⟩,z.info)

def mktime (T : Target) (tzenv : Option (List Char)) (z : Zone) (tm : Tm) :
    Option ((Int × Tm) × Zone) := do
  let u ← mktimeUtc T tm
  if u.tim = -1 then pure ((u.tim,u.tm),z)
  else do
    let z ← tzset T tzenv z
    let (r,info) ← resolveDst T z u
    let tim ← timeT (r.tim + info.offset r.isdst)
    let tm ← setTmWday T r.days { r.tm with isdst := r.isdst }
    pure ((tim,tm),{ z with info := info })

end Time
