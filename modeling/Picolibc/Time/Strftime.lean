import Mathlib
import Picolibc.Printf.IntText
import Picolibc.Time.Gmtime

namespace Strftime

open Printf Checked Time

def timeWday : List (List Char) :=
  [['S','u','n'],['M','o','n'],['T','u','e'],['W','e','d'],['T','h','u'],['F','r','i'],['S','a','t']]

def timeWeekday : List (List Char) :=
  [['S','u','n','d','a','y'],['M','o','n','d','a','y'],['T','u','e','s','d','a','y'],['W','e','d','n','e','s','d','a','y'],
    ['T','h','u','r','s','d','a','y'],['F','r','i','d','a','y'],['S','a','t','u','r','d','a','y']]

def timeMon : List (List Char) :=
  [['J','a','n'],['F','e','b'],['M','a','r'],['A','p','r'],['M','a','y'],['J','u','n'],['J','u','l'],['A','u','g'],
    ['S','e','p'],['O','c','t'],['N','o','v'],['D','e','c']]

def timeMonth : List (List Char) :=
  [['J','a','n','u','a','r','y'],['F','e','b','r','u','a','r','y'],['M','a','r','c','h'],['A','p','r','i','l'],['M','a','y'],
    ['J','u','n','e'],['J','u','l','y'],['A','u','g','u','s','t'],['S','e','p','t','e','m','b','e','r'],
    ['O','c','t','o','b','e','r'],['N','o','v','e','m','b','e','r'],['D','e','c','e','m','b','e','r']]

def timeAmPm : List (List Char) := [['A','M'],['P','M']]

def timeCFmt : List Char :=
  ['%','a',' ','%','b',' ','%','e',' ','%','H',':','%','M',':','%','S',' ','%','Y']

def timeXFmt : List Char := ['%','m','/','%','d','/','%','y']

def mdyFmt : List Char := ['%','m','/','%','d','/','%','y']

def timeUxFmt : List Char := ['%','H',':','%','M',':','%','S']

def timeAmpmFmt : List Char := ['%','I',':','%','M',':','%','S',' ','%','p']

def ymdFmt : List Char := ['%','Y','-','%','m','-','%','d']

def nameAt (names : List (List Char)) (i : Int) : Option (List UInt8) :=
  if i < 0 then none else (names[i.toNat]?).map (fun name => name.map byte)

def toLower (c : UInt8) : UInt8 := if 65 ≤ c ∧ c ≤ 90 then c + 32 else c

structure Zones where
  offset : Bool → Int
  tzname : Bool → List UInt8

abbrev Result := Option (Option (List UInt8))

def Result.andThen (r : Result) (k : List UInt8 → Result) : Result :=
  match r with
  | some (some out) => k out
  | r => r

inductive Emit where
  | chars (text : List UInt8)
  | printed (fmt : List Char) (args : List Arg)
  | stop
  deriving DecidableEq

inductive Mode where
  | text
  | start
  | padded (pad : Char)
  | width (pad : Option Char) (n : Nat)
  | alt (pad : Option Char) (n : Nat)
  deriving DecidableEq

inductive Next where
  | mode (m : Mode)
  | conv (pad : Option Char) (n : Nat)
  deriving DecidableEq

def afterWidth (pad : Option Char) (n : Nat) (c : Char) : Next :=
  if c = 'E' ∨ c = 'O' then .mode (.alt pad n) else .conv pad n

def afterPad (pad : Option Char) (c : Char) : Next :=
  if isDigit c ∧ c ≠ '0' then .mode (.width pad (digitVal c)) else afterWidth pad 0 c

def Mode.next : Mode → Char → Next
  | text, _ => .mode text
  | start, c => if c = '0' ∨ c = '+' then .mode (padded c) else afterPad none c
  | padded pad, c => afterPad (some pad) c
  | width pad n, c => if isDigit c then .mode (width pad (10 * n + digitVal c)) else afterWidth pad n c
  | alt pad n, _ => .conv pad n

def d1 : List Char := ['%','.','1','d']

def d2 : List Char := ['%','.','2','d']

def d3 : List Char := ['%','.','3','d']

def blank2 : List Char := ['%','2','d']

def clock2 : List Char := ['%','.','2','d',':','%','.','2','d']

def clock3 : List Char := ['%','.','2','d',':','%','.','2','d',':','%','.','2','d']

def yearFmt (sign : Option Char) (pad : Option Char) : List Char :=
  sign.toList ++ '%' :: ((if pad.isSome then ['0'] else []) ++ ['.','*','u'])

def vFmt (pad : Option Char) (width : Nat) : List Char :=
  let width := if pad.isSome then width else 10
  let width := (if width < 6 then 6 else width) - 6
  ['%','e','-','%','b','-','%'] ++ pad.getD '+' ::
    ((if width ≠ 0 then (Nat.digits 10 width).reverse.map digitChar else []) ++ ['Y'])

def nestedFormat (pad : Option Char) (width : Nat) (c : Char) : Option (List Char) :=
  if c = 'c' then some timeCFmt else
  if c = 'r' then some timeAmpmFmt else
  if c = 'x' then some timeXFmt else
  if c = 'X' then some timeUxFmt else
  if c = 'D' then some mdyFmt else
  if c = 'F' then some ymdFmt else
  if c = 'v' then some (vFmt pad width) else
  none

section

variable (b : Build)

def int (x : Int) : Option Int := signed b.intBits x

def long (x : Int) : Option Int := signed b.longBits x

def llong (x : Int) : Option Int := signed b.llongBits x

def timeTarget : Target := ⟨b.intBits,b.longBits⟩

def isleap2 (y yOff : Int) : Option Int := Time.isleap2 (timeTarget b) y yOff

def pack (yd wd lp : Int) : Int := yd * 16 + wd * 2 + lp

def previousYear : List Int :=
  [pack 0 5 0,pack 0 6 0,pack 0 0 0,pack 0 5 1,pack 0 6 1,pack 0 0 1,pack 1 6 0,pack 1 0 0,pack 1 6 1,pack 1 0 1,pack 2 0 0,
    pack 2 0 1]

def nextYear : List Int :=
  [pack 362 1 0,pack 363 1 1,pack 363 1 0,pack 363 2 0,pack 364 1 1,pack 364 2 1,pack 364 1 0,pack 364 2 0,pack 364 3 0,
    pack 365 1 1,pack 365 2 1,pack 365 3 1]

def isoYearAdjust (tm : Tm) : Option Int := do
  let leap ← isleap2 b tm.year (yearBase - if tm.year < 0 then 0 else 2000)
  let key ← int b (pack tm.yday tm.wday leap)
  pure (if key ∈ previousYear then -1 else if key ∈ nextYear then 1 else 0)

def absYear (tm : Tm) : Option Int := do
  let year ← int b (tm.year + yearBase)
  pure |year|

def century (tm : Tm) (pad : Option Char) (width : Nat) : Option Emit := do
  let year ← int b (tm.year + yearBase)
  let century := year.tdiv 100 - if year.tmod 100 < 0 then 1 else 0
  let pos := if 100 ≤ century ∧ pad = some '+' then [byte '+'] else []
  let width := if width < 1 then 1 else width
  pure (.printed ['%','s','%','.','*','d'] [.charPtr (some pos),.int (wrapS b.intBits width),.int century])

def centuryPart (tm : Tm) : Option Int :=
  if 0 ≤ tm.year then some (tm.year.tdiv 100 + yearBase.tdiv 100) else (absYear b tm).map (fun year => year.tdiv 100)

def yearPart (tm : Tm) : Option Int :=
  if 0 ≤ tm.year then some (tm.year.tmod 100) else (absYear b tm).map (fun year => year.tmod 100)

def isoSign (tm : Tm) (adjust : Int) : Bool × Int :=
  if adjust < 0 ∧ tm.year ≤ -yearBase then (true,1) else
  if 0 < adjust ∧ tm.year < -yearBase then (true,-1) else
  (decide (tm.year < -yearBase),adjust)

def carryCentury (century year : Int) : Int × Int :=
  if year = -1 then (century - 1,99) else if year = 100 then (century + 1,0) else (century,year)

def isoShortYear (tm : Tm) : Option Emit := do
  let adjust := (isoSign tm (← isoYearAdjust b tm)).2
  let year ← yearPart b tm
  pure (.printed d2 [.int (((year + adjust).tmod 100 + 100).tmod 100)])

def yearWidth (sign : Option Char) (width : Nat) : Nat := if width ≠ 0 ∧ sign.isSome then width - 1 else width

def yearText (sign pad : Option Char) (width year : Nat) : Emit :=
  .printed (yearFmt sign pad) [.int (wrapS b.intBits (yearWidth sign width)),.int year]

def yearSign (negative : Bool) (pad : Option Char) (year : Nat) : Option Char :=
  if negative then some '-' else if pad = some '+' ∧ 10000 ≤ year then some '+' else none

def isoYear (tm : Tm) (pad : Option Char) (width : Nat) : Option Emit := do
  let signed := isoSign tm (← isoYearAdjust b tm)
  let century ← centuryPart b tm
  let year ← yearPart b tm
  let carried := carryCentury century (year + signed.2)
  let year := wrapU b.intBits (← int b ((← int b (carried.1 * 100)) + carried.2))
  pure (yearText b (yearSign signed.1 pad year) pad width year)

def isoWday (tm : Tm) : Option Int := if tm.wday ≠ 0 then int b (tm.wday - 1) else pure 6

def number (fmt : List Char) (x : Option Int) : Option Emit := do
  let x ← x
  pure (.printed fmt [.int x])

def lastWeek (tm : Tm) (wday : Int) : Option Int := do
  let leap ← isleap2 b tm.year (yearBase - 1 - if tm.year < 0 then 0 else 2000)
  let late ← int b ((← int b (wday - tm.yday)) - leap)
  pure (52 + if late ≤ 4 then 1 else 0)

def isoWeek (tm : Tm) : Option Emit := do
  let adjust ← isoYearAdjust b tm
  let wday ← isoWday b tm
  let week := (← int b ((← int b (tm.yday + 10)) - wday)).tdiv 7
  number d2 (if 0 < adjust then some 1 else if adjust < 0 then lastWeek b tm wday else some week)

def weekSun (tm : Tm) : Option Emit := do
  let days ← int b ((← int b (tm.yday + 7)) - tm.wday)
  pure (.printed d2 [.int (days.tdiv 7)])

def weekMon (tm : Tm) : Option Emit := do
  let wday ← isoWday b tm
  let days ← int b ((← int b (tm.yday + 7)) - wday)
  pure (.printed d2 [.int (days.tdiv 7)])

def shortYear (tm : Tm) : Emit :=
  let year := tm.year.tmod 100
  .printed d2 [.int (if year < 0 then year + 100 else year)]

def year (tm : Tm) (pad : Option Char) (width : Nat) : Emit :=
  let negative := decide (tm.year < -yearBase)
  let year := wrapU b.intBits (wrapU b.intBits tm.year + yearBase)
  let year := if negative then wrapU b.intBits (2 ^ b.intBits - 1 - year + 1) else year
  yearText b (yearSign negative pad year) pad width year

def hour12 (tm : Tm) : Int := if tm.hour = 0 ∨ tm.hour = 12 then 12 else tm.hour.tmod 12

def epochSeconds (zones : Zones) (tm : Tm) : Option Emit := do
  let offset ← if 0 ≤ tm.isdst then long b (-zones.offset (decide (0 < tm.isdst))) else pure 0
  let days ← llong b ((← llong b (tm.year - 69)).tdiv 4 - (← int b (tm.year - 1)).tdiv 100)
  let days ← llong b (days + (← int b (tm.year + 299)).tdiv 400)
  let days ← llong b (days + (← int b ((← int b (tm.year - 70)) * 365)))
  let days ← llong b (days + tm.yday)
  let hours ← llong b ((← llong b (days * 24)) + tm.hour)
  let mins ← llong b ((← llong b (hours * 60)) + tm.min)
  let secs ← llong b ((← llong b (mins * 60)) + tm.sec)
  pure (.printed ['%','l','l','d'] [.llong (← llong b (secs - offset))])

def zoneOffset (zones : Zones) (tm : Tm) : Option Emit :=
  if 0 ≤ tm.isdst then do
    let offset ← long b (-zones.offset (decide (0 < tm.isdst)))
    pure (.printed ['%','+','0','3','l','d','%','.','2','l','d']
      [.long (offset.tdiv secsPerHour),.long (|offset.tdiv secsPerMin|.tmod 60)])
  else pure (.chars [])

def zoneName (zones : Zones) (tm : Tm) : Emit := .chars (if 0 ≤ tm.isdst then zones.tzname (decide (0 < tm.isdst)) else [])

def named (names : List (List Char)) (i : Int) : Option Emit := do
  let text ← nameAt names i
  pure (.chars text)

def ampm (lower : Bool) (tm : Tm) : Option Emit := do
  let text ← nameAt timeAmPm (if tm.hour < 12 then 0 else 1)
  pure (.chars (if lower then text.map toLower else text))

def digit (x : Int) : Emit := .chars [UInt8.ofNat (wrapU 8 ('0'.toNat + x))]

def emit (zones : Zones) (tm : Tm) (pad : Option Char) (width : Nat) (c : Char) : Option Emit :=
  if c = 'a' then named timeWday tm.wday else
  if c = 'A' then named timeWeekday tm.wday else
  if c = 'b' ∨ c = 'h' then named timeMon tm.mon else
  if c = 'B' then named timeMonth tm.mon else
  if c = 'C' then century b tm pad width else
  if c = 'd' then number d2 tm.mday else
  if c = 'e' then number blank2 tm.mday else
  if c = 'g' then isoShortYear b tm else
  if c = 'G' then isoYear b tm pad width else
  if c = 'H' then number d2 tm.hour else
  if c = 'k' then number blank2 tm.hour else
  if c = 'I' then number d2 (hour12 tm) else
  if c = 'l' then number blank2 (hour12 tm) else
  if c = 'j' then number d3 (int b (tm.yday + 1)) else
  if c = 'm' then number d2 (int b (tm.mon + 1)) else
  if c = 'M' then number d2 tm.min else
  if c = 'n' then some (.chars [10]) else
  if c = 'p' then ampm false tm else
  if c = 'P' then ampm true tm else
  if c = 'q' then number d1 (some (tm.mon.tdiv 3 + 1)) else
  if c = 'R' then some (.printed clock2 [.int tm.hour,.int tm.min]) else
  if c = 's' then epochSeconds b zones tm else
  if c = 'S' then number d2 tm.sec else
  if c = 't' then some (.chars [9]) else
  if c = 'T' then some (.printed clock3 [.int tm.hour,.int tm.min,.int tm.sec]) else
  if c = 'u' then some (if tm.wday = 0 then .chars [byte '7'] else digit tm.wday) else
  if c = 'U' then weekSun b tm else
  if c = 'V' then isoWeek b tm else
  if c = 'w' then some (digit tm.wday) else
  if c = 'W' then weekMon b tm else
  if c = 'y' then some (shortYear tm) else
  if c = 'Y' then some (year b tm pad width) else
  if c = 'z' then zoneOffset b zones tm else
  if c = 'Z' then some (zoneName zones tm) else
  if c = '%' then some (.chars [byte '%']) else
  some .stop

def putChars (limit : Nat) (out : List UInt8) : List UInt8 → Option (List UInt8)
  | [] => some out
  | c :: text => if out.length < limit then putChars limit (out ++ [c]) text else none

def Emit.run (ft : FloatText) (maxsize : Nat) (out : List UInt8) : Emit → Result
  | chars text => some (putChars (wrapU b.sizeBits (maxsize - 1)) out text)
  | printed fmt args =>
    match format b ft fmt args with
    | .error _ => none
    | .ok o => some (if o.failed ∨ maxsize ≤ out.length + o.text.length then none else some (out ++ o.text))
  | stop => some none

variable (ft : FloatText) (zones : Zones) (tm : Tm)

def recurse (nested : List Char → Nat → Result) (maxsize : Nat) (out : List UInt8) (fmt : List Char) : Result := do
  match ← nested fmt (wrapU b.sizeBits (maxsize - out.length)) with
  | none => pure none
  | some text => pure (if text = [] then none else some (out ++ text))

def convert (nested : List Char → Nat → Result) (maxsize : Nat) (out : List UInt8) (pad : Option Char) (width : Nat)
    (c : Char) : Result :=
  match nestedFormat pad (min width (2 ^ b.longBits - 1)) c with
  | some fmt => recurse b nested maxsize out fmt
  | none => do
    let e ← emit b zones tm pad (min width (2 ^ b.longBits - 1)) c
    e.run b ft maxsize out

def scan (nested : List Char → Nat → Result) (maxsize : Nat) : List UInt8 → Mode → List Char → Result
  | out, .text, [] => some (some out)
  | _, _, [] => some none
  | out, .text, c :: fmt =>
    if c = '%' then scan nested maxsize out .start fmt else
    if out.length < wrapU b.sizeBits (maxsize - 1) then scan nested maxsize (out ++ [byte c]) .text fmt else
    some none
  | out, m, c :: fmt =>
    match m.next c with
    | .mode m => scan nested maxsize out m fmt
    | .conv pad width =>
      Result.andThen (convert b ft zones tm nested maxsize out pad width c) fun out => scan nested maxsize out .text fmt

def strftimeDepth : Nat → List Char → Nat → Result
  | 0 => fun _ _ => none
  | depth + 1 => fun fmt maxsize => scan b ft zones tm (strftimeDepth depth) maxsize [] .text fmt

def strftime (maxsize : Nat) (fmt : List Char) : Result := strftimeDepth b ft zones tm 2 fmt maxsize

end

end Strftime
