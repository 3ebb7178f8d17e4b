import Mathlib
import Picolibc.Time.Mktime

namespace Time

open Checked

inductive RuleKind where
  | unset
  | julian
  | day
  | month
  deriving DecidableEq, Repr

structure Rule where
  ch : RuleKind
  m : Int
  n : Int
  d : Int
  s : Int
  change : Int
  offset : Int
  deriving DecidableEq, Repr

structure Tzinfo where
  north : Bool
  year : Int
  rule0 : Rule
  rule1 : Rule
  deriving DecidableEq, Repr

structure Zone where
  info : Tzinfo
  daylight : Bool
  timezone : Int
  deriving DecidableEq, Repr

def zeroRule : Rule := ⟨.unset,0,0,0,0,0,0⟩

def defaultTzrule : Rule := ⟨.julian,0,0,0,0,0,0⟩

def Zone.start : Zone := ⟨⟨false,0,zeroRule,zeroRule⟩,false,0⟩

def tznameMin : Nat := 3

def tznameMax : Nat := 10

def isSpace (c : Char) : Bool := c = ' ' || (decide (9 ≤ c.toNat) && decide (c.toNat ≤ 13))

def charAt (s : List Char) (n : Nat) : Char := s.getD n (Char.ofNat 0)

def scanDigits : List Char → Nat → Nat × List Char
  | [], acc => (acc,[])
  | c :: s, acc => if c.isDigit then scanDigits s (acc * 10 + (c.toNat - 48)) else (acc,c :: s)

def scanSign : List Char → Bool × List Char
  | '-' :: s => (true,s)
  | '+' :: s => (false,s)
  | s => (false,s)

def scanNumber (s : List Char) : Option (Bool × Nat × List Char) :=
  let (neg,t) := scanSign (s.dropWhile isSpace)
  let (v,rest) := scanDigits t 0
  if rest.length = t.length then none else some (neg,v,rest)

def scanHu (s : List Char) : Option (Int × List Char) :=
  (scanNumber s).map (fun (neg,v,rest) => ((if neg then -(v : Int) else v) % 65536,rest))

def scanLit (c : Char) : List Char → Option (List Char)
  | [] => none
  | d :: s => if d = c then some s else none

def scanHus (sep : Char) : Nat → List Char → List Int × List Char
  | 0, s => ([],s)
  | k + 1, s =>
    match scanHu s with
    | none => ([],s)
    | some (v,rest) =>
      if k = 0 then ([v],rest)
      else
        match scanLit sep rest with
        | none => ([v],rest)
        | some rest' =>
          let (vs,last) := scanHus sep k rest'
          (v :: vs,if vs = [] then rest else last)

def scanName (allowed : Char → Bool) (s : List Char) : List Char := (s.take 11).takeWhile allowed

def isTzAlpha (c : Char) : Bool := c.isAlpha

def isTzQuoted (c : Char) : Bool := c = '-' || c = '+' || c.isAlphanum

def strtoul (T : Target) (s : List Char) : Option (Int × List Char) :=
  (scanNumber s).map (fun (neg,v,rest) =>
    (if 2 ^ T.longBits ≤ v then 2 ^ T.longBits - 1
      else T.ulong (if neg then -(v : Int) else v),rest))

def hms (vs : List Int) (hour : Int) : Int :=
  vs.getD 2 0 + 60 * vs.getD 1 0 + 3600 * vs.getD 0 hour

def readStd (s : List Char) : Option (List Char) :=
  if charAt s 0 = '<' then
    let s := s.tail
    let n := (scanName isTzQuoted s).length
    if n < tznameMin ∨ tznameMax < n ∨ charAt s n ≠ '>' then none else some (s.drop (n + 1))
  else
    let n := (scanName isTzAlpha s).length
    if n < tznameMin ∨ tznameMax < n then none else some (s.drop n)

inductive DstName where
  | absent
  | bad
  | named (rest : List Char)
  deriving DecidableEq, Repr

def readDst (s : List Char) (stale : Nat) : DstName :=
  if charAt s 0 = '<' then
    let s := s.tail
    let name := scanName isTzQuoted s
    if name = [] ∧ charAt s 0 = '>' then .absent
    else
      let n := if name = [] then stale else name.length
      if n < tznameMin ∨ tznameMax < n ∨ charAt s n ≠ '>' then .bad else .named (s.drop (n + 1))
  else
    let name := scanName isTzAlpha s
    if name = [] then .absent
    else if name.length < tznameMin ∨ tznameMax < name.length then .bad
    else .named (s.drop name.length)

def readSign (s : List Char) : Int × List Char :=
  if charAt s 0 = '-' then (-1,s.tail)
  else if charAt s 0 = '+' then (1,s.tail)
  else (1,s)

def usDefault (first : Bool) : Rule :=
  if first then ⟨.month,3,2,0,0,0,0⟩ else ⟨.month,11,1,0,0,0,0⟩

def readDay (T : Target) (first : Bool) (s : List Char) : Option (Rule × List Char) :=
  if charAt s 0 = 'M' then
    match scanHus '.' 3 s.tail with
    | ([m,w,d],rest) =>
      if m < 1 ∨ 12 < m ∨ w < 1 ∨ 5 < w ∨ 6 < d then none
      else some (⟨.month,m,w,d,0,0,0⟩,rest)
    | _ => none
  else
    let (ch,s) := if charAt s 0 = 'J' then (RuleKind.julian,s.tail) else (RuleKind.day,s)
    match strtoul T s with
    | none => some (usDefault first,s)
    | some (d,rest) => some (⟨ch,0,0,T.toInt (d % 65536),0,0,0⟩,rest)

def readTime (s : List Char) : Option (Int × List Char) :=
  if charAt s 0 = '/' then
    match scanHus ':' 3 s.tail with
    | ([],_) => none
    | (vs,rest) => some (hms vs 2,rest)
  else some (hms [] 2,s)

def readRule (T : Target) (first : Bool) (offset : Int) (s : List Char) : Option (Rule × List Char) := do
  let s := if charAt s 0 = ',' then s.tail else s
  let (rule,s) ← readDay T first s
  let (time,s) ← readTime s
  pure ({ rule with s := T.toInt time, offset := offset },s)

def readTz (T : Target) (tzenv : List Char) : Option (Rule × Rule) := do
  let s := if charAt tzenv 0 = ':' then tzenv.tail else tzenv
  let s ← readStd s
  let (sign,s) := readSign s
  let (vs,rest) := scanHus ':' 3 s
  if vs = [] then none
  else do
    let std := sign * hms vs 0
    match readDst rest (s.length - rest.length) with
    | .bad => none
    | .absent => pure ({ zeroRule with offset := std },{ zeroRule with offset := std })
    | .named s => do
      let (sign,s) := readSign s
      let (vs,rest) := scanHus ':' 3 s
      let dst := if vs = [] then std - 3600 else sign * hms vs 0
      let (rule0,s) ← readRule T true std rest
      let (rule1,_) ← readRule T false dst s
      pure (rule0,rule1)

def tzRules (T : Target) (tzenv : Option (List Char)) : Rule × Rule :=
  ((tzenv.bind (readTz T)).getD (defaultTzrule,defaultTzrule))

def epochYear : Int := 1970

def epochWday : Int := 4

def monthsBefore (leap : Int) : Nat → Int
  | 0 => 0
  | j + 1 => monthsBefore leap j + monthLengthsAt leap j

def dropWeeks (len : Int) : Nat → Int → Int
  | 0, mDay => mDay
  | k + 1, mDay => if len ≤ mDay then dropWeeks len k (mDay - daysPerWeek) else mDay

def ruleDays (T : Target) (rule : Rule) (year yearDays : Int) : Option Int :=
  match rule.ch with
  | .julian => do
    let days ← T.int (yearDays + rule.d)
    let days ← T.int (days + if isleap year ≠ 0 ∧ 60 ≤ rule.d then 1 else 0)
    T.int (days - 1)
  | .day => T.int (yearDays + rule.d)
  | _ => do
    let leap := isleap year
    let j := (max rule.m 1).toNat
    let days ← T.int (yearDays + monthsBefore leap (j - 1))
    let mWday := (← T.int (epochWday + days)).tmod daysPerWeek
    let wdayDiff := if rule.d - mWday < 0 then rule.d - mWday + daysPerWeek else rule.d - mWday
    let mDay := (rule.n - 1) * daysPerWeek + wdayDiff
    let mDay := dropWeeks (monthLengthsAt leap (j - 1 : Nat)) mDay.toNat mDay
    T.int (days + mDay)

def ruleChange (T : Target) (rule : Rule) (year yearDays : Int) : Option Rule := do
  let days ← ruleDays T rule year yearDays
  let change ← timeT (days * secsPerDay)
  let change ← timeT (change + rule.s)
  let change ← timeT (change + rule.offset)
  pure { rule with change := change }

def daysToYear (T : Target) (year : Int) : Option Int := do
  let years ← T.int (year - epochYear)
  let days ← T.int (years * 365)
  let days ← T.int (days + (years - 1 + 2).tdiv 4)
  let days ← T.int (days - (years - 1 + 70).tdiv 100)
  T.int (days + (years - 1 + 370).tdiv 400)

def tzcalcLimits (T : Target) (info : Tzinfo) (year : Int) : Option (Bool × Tzinfo) :=
  if year < epochYear then some (false,info)
  else do
    let yearDays ← daysToYear T year
    let rule0 ← ruleChange T info.rule0 year yearDays
    let rule1 ← ruleChange T info.rule1 year yearDays
    pure (true,⟨decide (rule0.change < rule1.change),year,rule0,rule1⟩)

def tzset (T : Target) (tzenv : Option (List Char)) (z : Zone) : Option Zone := do
  let rules := tzRules T tzenv
  let (_,info) ← tzcalcLimits T { z.info with rule0 := rules.1, rule1 := rules.2 } z.info.year
  pure ⟨info,decide (rules.1.offset ≠ rules.2.offset),rules.1.offset⟩

end Time
