import Mathlib
import Picolibc.Stdio.Strtoi
import Picolibc.Time.Localtime
import Picolibc.Time.Strftime

namespace Strptime

open Checked Time Strtoi

open Strftime hiding digit number scan convert recurse int

def hmFmt : List Char := ['%','H',':','%','M']

structure Seen where
  mday : Bool
  mon : Bool
  year : Bool
  wday : Bool
  yday : Bool
  weekSun : Bool
  weekMon : Bool
  weekMon4 : Bool
  ampm : Bool
  deriving DecidableEq, Repr

def Seen.none : Seen := ⟨false,false,false,false,false,false,false,false,false⟩

def Seen.ymd (s : Seen) : Seen := { s with mday := true, mon := true, year := true }

def Seen.week (s : Seen) : Bool := s.weekSun || s.weekMon || s.weekMon4

structure State where
  tm : Tm
  ymd : Seen
  wnum : Int
  ampm : Int
  deriving DecidableEq, Repr

abbrev Outcome := Option (State × Option (List UInt8))

def Outcome.andThen (r : Outcome) (k : State → List UInt8 → Outcome) : Outcome :=
  match r with
  | some (st,some buf) => k st buf
  | r => r

abbrev Parsed := Option (Tm × Option (List UInt8))

def matchString (buf : List UInt8) : List (List Char) → Int → Option (Int × List UInt8)
  | [], _ => none
  | name :: names, i =>
    let text := name.map Printf.byte
    if (buf.take text.length).map Strftime.toLower = text.map Strftime.toLower then some (i,buf.drop text.length)
    else matchString buf names (i + 1)

def skipSpace (buf : List UInt8) : List UInt8 := buf.dropWhile isspace

def expect (c : UInt8) (st : State) : List UInt8 → Outcome
  | [] => some (st,none)
  | d :: buf => some (st,if d = c then some buf else none)

def unknown (c : Char) (st : State) : List UInt8 → Outcome
  | [] => none
  | d :: buf => if d = Printf.byte '%' then some (st,some buf) else expect (Printf.byte c) st buf

def nestedFormat (c : Char) : Option (List Char × (Seen → Seen)) :=
  if c = 'c' then some (timeCFmt,fun s => { s.ymd with wday := true }) else
  if c = 'D' then some (mdyFmt,Seen.ymd) else
  if c = 'F' then some (ymdFmt,Seen.ymd) else
  if c = 'r' then some (timeAmpmFmt,id) else
  if c = 'R' then some (hmFmt,id) else
  if c = 'T' then some (timeUxFmt,id) else
  if c = 'x' then some (timeXFmt,Seen.ymd) else
  if c = 'X' then some (timeUxFmt,id) else
  none

def isLeapYear (y : Int) : Bool := isleap y ≠ 0

def firstDayFrom : Nat → Int → Int → Int
  | 0, _, ret => ret
  | n + 1, y, ret => firstDayFrom n (y - 1) ((ret + 365 + isleap y).tmod 7)

def findMonth (yday leap : Int) : Nat → Nat → Nat
  | 0, i => i
  | n + 1, i => if yday < daysBeforeMonth.getD i 0 + leap then i else findMonth yday leap n (i + 1)

section

variable (T : Target) (builtins : Bool)

def strtol (buf : List UInt8) : Option (Int × List UInt8) :=
  let r := strtoi ⟨T.longBits,true,builtins⟩ buf 10
  if r.stop = 0 then none else some (T.toInt r.value,buf.drop r.stop)

def numeric (lo hi : Int) (store : State → Int → State) (st : State) (buf : List UInt8) : Outcome :=
  match strtol T builtins buf with
  | none => some (st,none)
  | some (ret,rest) => some (if ret < lo ∨ hi < ret then (st,none) else (store st ret,some rest))

def numericYear (year : Int → Option Int) (st : State) (buf : List UInt8) : Outcome :=
  match strtol T builtins buf with
  | none => some (st,none)
  | some (ret,rest) => do
    let y ← year ret
    pure ({ st with tm := { st.tm with year := y }, ymd := { st.ymd with year := true } },some rest)

def named (names : List (List Char)) (store : State → Int → State) (st : State) (buf : List UInt8) : Outcome :=
  match matchString buf names 0 with
  | none => some (st,none)
  | some (i,rest) => some (store st i,some rest)

def storeWday (st : State) (i : Int) : State :=
  { st with tm := { st.tm with wday := i }, ymd := { st.ymd with wday := true } }

def storeMon (st : State) (i : Int) : State :=
  { st with tm := { st.tm with mon := i }, ymd := { st.ymd with mon := true } }

def storeMday (st : State) (i : Int) : State :=
  { st with tm := { st.tm with mday := i }, ymd := { st.ymd with mday := true } }

def storeYday (st : State) (i : Int) : State :=
  { st with tm := { st.tm with yday := i }, ymd := { st.ymd with yday := true } }

def storeYear (st : State) (i : Int) : State :=
  { st with tm := { st.tm with year := i }, ymd := { st.ymd with year := true } }

def storeHour (st : State) (i : Int) : State := { st with tm := { st.tm with hour := i } }

def storeMin (st : State) (i : Int) : State := { st with tm := { st.tm with min := i } }

def storeSec (st : State) (i : Int) : State := { st with tm := { st.tm with sec := i } }

def storeAmpm (st : State) (i : Int) : State := { st with ampm := i, ymd := { st.ymd with ampm := true } }

def storeWeekSun (st : State) (i : Int) : State := { st with wnum := i, ymd := { st.ymd with weekSun := true } }

def storeWeekMon (st : State) (i : Int) : State := { st with wnum := i, ymd := { st.ymd with weekMon := true } }

def storeWeekMon4 (st : State) (i : Int) : State := { st with wnum := i, ymd := { st.ymd with weekMon4 := true } }

def epoch (tzenv : Option (List Char)) (z : Zone) (st : State) (buf : List UInt8) : Outcome :=
  let r := strtoi ⟨64,true,builtins⟩ buf 10
  if r.stop = 0 ∨ r.errno.isSome then some (st,none) else do
    match ← localtimeR T tzenv z r.value with
    | (none,_) => pure (st,none)
    | (some tm,_) =>
      pure ({ st with tm := tm, ymd := { st.ymd.ymd with yday := true, wday := true } },some (buf.drop r.stop))

def conversion (tzenv : Option (List Char)) (z : Zone) (c : Char) (st : State) (buf : List UInt8) : Outcome :=
  if c = 'A' then named timeWeekday storeWday st buf else
  if c = 'a' then named timeWday storeWday st buf else
  if c = 'B' then named timeMonth storeMon st buf else
  if c = 'b' ∨ c = 'h' then named timeMon storeMon st buf else
  if c = 'C' then numericYear T builtins (fun ret => do T.int ((← T.int (ret * 100)) - yearBase)) st buf else
  if c = 'd' ∨ c = 'e' then numeric T builtins 1 31 storeMday st buf else
  if c = 'H' ∨ c = 'k' then numeric T builtins 0 23 storeHour st buf else
  if c = 'I' ∨ c = 'l' then numeric T builtins 1 12 (fun st i => storeHour st (if i = 12 then 0 else i)) st buf else
  if c = 'j' then numeric T builtins 1 366 (fun st i => storeYday st (i - 1)) st buf else
  if c = 'm' then numeric T builtins 1 12 (fun st i => storeMon st (i - 1)) st buf else
  if c = 'M' then numeric T builtins 0 59 storeMin st buf else
  if c = 'p' then named timeAmPm storeAmpm st buf else
  if c = 's' then epoch T builtins tzenv z st buf else
  if c = 'S' then numeric T builtins 0 61 storeSec st buf else
  if c = 'n' ∨ c = 't' then some (st,some (skipSpace buf)) else
  if c = 'u' then numeric T builtins 1 7 (fun st i => storeWday st (if i = 7 then 0 else i)) st buf else
  if c = 'w' then numeric T builtins 0 6 storeWday st buf else
  if c = 'U' then numeric T builtins 0 53 storeWeekSun st buf else
  if c = 'V' then numeric T builtins 1 53 storeWeekMon4 st buf else
  if c = 'W' then numeric T builtins 0 53 storeWeekMon st buf else
  if c = 'y' then numeric T builtins 0 99 (fun st i => storeYear st (if i < 70 then 100 + i else i)) st buf else
  if c = 'Y' then numericYear T builtins (fun ret => T.int (ret - yearBase)) st buf else
  if c = 'Z' then some (st,some buf) else
  if c = '%' then expect (Printf.byte '%') st buf else
  unknown c st buf

inductive Mode where
  | text
  | start
  | alt
  deriving DecidableEq, Repr

variable (tzenv : Option (List Char)) (z : Zone)

def recurse (nested : List Char → List UInt8 → Tm → Parsed) (fmt : List Char) (seen : Seen → Seen) (c : Char) (st : State)
    (buf : List UInt8) : Outcome := do
  let (tm,rest) ← nested fmt buf st.tm
  match rest with
  | none => pure ({ st with tm := tm },none)
  | some rest =>
    if c = 'F' ∧ rest = buf then pure ({ st with tm := tm },none)
    else pure ({ st with tm := tm, ymd := seen st.ymd },some rest)

def convert (nested : List Char → List UInt8 → Tm → Parsed) (c : Char) (st : State) (buf : List UInt8) : Outcome :=
  match nestedFormat c with
  | some (fmt,seen) => recurse nested fmt seen c st buf
  | none => conversion T builtins tzenv z c st buf

def parse (nested : List Char → List UInt8 → Tm → Parsed) : Mode → List Char → State → List UInt8 → Outcome
  | .text, [], st, buf => some (st,some buf)
  | _, [], st, buf => expect (Printf.byte '%') st buf
  | .text, c :: fmt, st, buf =>
    if isspace (Printf.byte c) then parse nested .text fmt st (skipSpace buf) else
    if c = '%' then parse nested .start fmt st buf else
    Outcome.andThen (expect (Printf.byte c) st buf) fun st buf => parse nested .text fmt st buf
  | .start, c :: fmt, st, buf =>
    if c = 'E' ∨ c = 'O' then parse nested .alt fmt st buf else
    Outcome.andThen (convert T builtins tzenv z nested c st buf) fun st buf => parse nested .text fmt st buf
  | .alt, c :: fmt, st, buf =>
    Outcome.andThen (convert T builtins tzenv z nested c st buf) fun st buf => parse nested .text fmt st buf

def firstDay (year : Int) : Option Int := do
  let year ← T.int (year - 1)
  pure (firstDayFrom (year - 1969).toNat year 4)

def clampYday (yday fday : Int) (tm : Tm) : Tm :=
  if yday < 0 then { tm with wday := fday, yday := 0 } else { tm with yday := yday }

def setWeekNumberSun (tm : Tm) (wnum : Int) : Option Tm := do
  let fday ← firstDay T (← T.int (tm.year + yearBase))
  pure (clampYday (wnum * 7 + tm.wday - fday) fday tm)

def setWeekNumberMon (tm : Tm) (wnum : Int) : Option Tm := do
  let fday := ((← firstDay T (← T.int (tm.year + yearBase))) + 6).tmod 7
  pure (clampYday (wnum * 7 + (tm.wday + 6).tmod 7 - fday) ((fday + 1).tmod 7) tm)

def setWeekNumberMon4 (tm : Tm) (wnum : Int) : Option Tm := do
  let fday ← firstDay T (← T.int (tm.year + yearBase))
  let wnum := if 4 ≤ fday then wnum + 1 else wnum
  pure (clampYday ((wnum - 1) * 7 + tm.wday - fday) fday tm)

def setWeekNumber (st : State) : Option Tm :=
  if st.ymd.weekSun then setWeekNumberSun T st.tm st.wnum else
  if st.ymd.weekMon4 then setWeekNumberMon4 T st.tm st.wnum else
  setWeekNumberMon T st.tm st.wnum

def fillWeek (st : State) : Option (Tm × Seen) :=
  if st.ymd.week ∧ st.ymd.year ∧ st.ymd.wday then do
    let tm ← setWeekNumber T st
    pure (tm,{ st.ymd with yday := true })
  else pure (st.tm,st.ymd)

def fillHour (ymd : Seen) (ampm : Int) (tm : Tm) : Option Tm :=
  if ymd.ampm then
    if 12 < tm.hour then none else
    some { tm with hour := if tm.hour = 12 then ampm * 12 else tm.hour + ampm * 12 }
  else some tm

def monthOf (leap yday : Int) : Int :=
  if yday < daysBeforeMonth.getD 1 0 then 0 else findMonth yday leap 10 2 - 1

def beforeMonth (mon : Int) : Option Int := if mon < 0 then none else daysBeforeMonth[mon.toNat]?

def early (tm : Tm) : Option Bool := do
  let year ← T.int (tm.year + yearBase)
  pure (!isLeapYear year || decide (tm.mon < 2))

def fillYday (tm : Tm) : Option Tm := do
  let before ← beforeMonth tm.mon
  let yday ← T.int (before + tm.mday)
  pure { tm with yday := if ← early T tm then yday - 1 else yday }

def fillMon (tm : Tm) : Option Tm := do
  let year ← T.int (tm.year + yearBase)
  pure { tm with mon := monthOf (isleap year) tm.yday }

def fillMday (tm : Tm) : Option Tm := do
  let before ← beforeMonth tm.mon
  let mday ← T.int (tm.yday - before)
  pure { tm with mday := if ← early T tm then mday + 1 else mday }

def fillDate (ymd : Seen) (tm : Tm) : Option (Tm × Seen) :=
  if ymd.year ∧ ymd.mon ∧ ymd.mday then
    if ymd.yday then pure (tm,ymd) else do
      let tm ← fillYday T tm
      pure (tm,{ ymd with yday := true })
  else if ymd.year ∧ ymd.yday then do
    let tm ← if ymd.mon then pure tm else fillMon T tm
    let tm ← if ymd.mday then pure tm else fillMday T tm
    pure (tm,ymd)
  else pure (tm,ymd)

def fillWday (ymd : Seen) (tm : Tm) : Option Tm :=
  if ymd.year ∧ ymd.yday ∧ ¬ymd.wday then do
    let fday ← firstDay T (← T.int (tm.year + yearBase))
    let days ← T.int (fday + tm.yday)
    pure { tm with wday := days.tmod 7 }
  else pure tm

def finish (st : State) (buf : List UInt8) : Parsed := do
  let (tm,ymd) ← fillWeek T st
  match fillHour ymd st.ampm tm with
  | none => pure (tm,none)
  | some tm => do
    let (tm,ymd) ← fillDate T ymd tm
    let tm ← fillWday T ymd tm
    pure ({ tm with isdst := -1 },some buf)

def strptimeDepth : Nat → List Char → List UInt8 → Tm → Parsed
  | 0 => fun _ _ _ => none
  | depth + 1 => fun fmt buf tm => do
    let (st,rest) ← parse T builtins tzenv z (strptimeDepth depth) .text fmt ⟨tm,.none,0,0⟩ buf
    match rest with
    | none => pure (st.tm,none)
    | some buf => finish T st buf

def strptime (buf : List UInt8) (fmt : List Char) : Parsed :=
  strptimeDepth T builtins tzenv z 2 fmt buf ⟨0,0,0,0,0,0,0,0,0⟩

end

end Strptime
