import Mathlib
import Picolibc.Lib.Ascii

namespace Fnmatch

open Ascii

structure Flags where
  noescape : Bool
  pathname : Bool
  period : Bool
  leadingDir : Bool
  casefold : Bool
deriving DecidableEq,Repr

inductive Ret where
  | zero
  | noMatch
  | tooDeep
  | spent
deriving DecidableEq,Repr

def islower (c : UInt8) : Bool := 0x61 ≤ c && c ≤ 0x7a

def isupper (c : UInt8) : Bool := 0x41 ≤ c && c ≤ 0x5a

def isalpha (c : UInt8) : Bool := islower c || isupper c

def isxdigit (c : UInt8) : Bool := isdigit c || (0x41 ≤ c && c ≤ 0x46) || (0x61 ≤ c && c ≤ 0x66)

def isalnum (c : UInt8) : Bool := isalpha c || isdigit c

def isblank (c : UInt8) : Bool := c == 0x20 || c == 0x09

def isspace (c : UInt8) : Bool := c == 0x20 || (0x09 ≤ c && c ≤ 0x0d)

def iscntrl (c : UInt8) : Bool := c < 0x20 || c == 0x7f

def isgraph (c : UInt8) : Bool := 0x21 ≤ c && c ≤ 0x7e

def isprint (c : UInt8) : Bool := 0x20 ≤ c && c ≤ 0x7e

def ispunct (c : UInt8) : Bool := isgraph c && !isalnum c

def tolower (c : UInt8) : UInt8 := if isupper c then c + 0x20 else c

def letters (s : String) : List UInt8 := s.toList.map fun c => UInt8.ofNat c.toNat

def classes : List (List UInt8 × (UInt8 → Bool)) :=
  [(letters "alnum",isalnum),(letters "alpha",isalpha),(letters "blank",isblank),(letters "cntrl",iscntrl),
    (letters "digit",isdigit),(letters "graph",isgraph),(letters "lower",islower),(letters "print",isprint),
    (letters "punct",ispunct),(letters "space",isspace),(letters "upper",isupper),(letters "xdigit",isxdigit)]

def fold (f : Flags) (c : UInt8) : UInt8 := if f.casefold then tolower c else c

def charLe (signedChar : Bool) (a b : UInt8) : Bool := if signedChar then a.toInt8 ≤ b.toInt8 else a ≤ b

inductive Elem where
  | one (c : UInt8)
  | range (c c2 : UInt8)
  | named (name : List UInt8)
deriving DecidableEq,Repr

def Elem.hit (signedChar : Bool) (test : UInt8) : Elem → Bool
  | .one c => c == test
  | .range c c2 => charLe signedChar c test && charLe signedChar test c2
  | .named name =>
    match classes.find? (fun cl => cl.1 == name) with
    | none => false
    | some cl => cl.2 test

inductive Scan where
  | error
  | slash
  | elem (e : Elem) (pattern : List UInt8)

def unescape (f : Flags) (c : UInt8) (pattern : List UInt8) : UInt8 × List UInt8 :=
  if c = 92 ∧ f.noescape = false then (pattern.headD 0,pattern.tail) else (c,pattern)

def equivalence (c : UInt8) (pattern : List UInt8) : UInt8 × List UInt8 :=
  if c = 91 ∧ pattern.headD 0 = 61 ∧ pattern.getD 1 0 ≠ 0 ∧ pattern.getD 2 0 = 61 ∧ pattern.getD 3 0 = 93 then
    (pattern.getD 1 0,pattern.drop 4)
  else (c,pattern)

def colLength : Nat → List UInt8 → Option Nat
  | _, [] => none
  | colLen, x :: pattern => if x = 46 ∧ pattern.headD 0 = 93 then some colLen else colLength (colLen + 1) pattern

def collating (c : UInt8) (pattern : List UInt8) : Option (UInt8 × List UInt8) :=
  if c = 91 ∧ pattern.headD 0 = 46 ∧ pattern.getD 1 0 ≠ 0 then
    match colLength 1 (pattern.drop 2) with
    | none => some (c,pattern)
    | some colLen => if 1 < colLen then none else some (pattern.getD 1 0,pattern.drop 4)
  else some (c,pattern)

def charClass (c : UInt8) (pattern : List UInt8) : Option (List UInt8 × List UInt8) :=
  if c = 91 ∧ pattern.headD 0 = 58 then
    let name := (pattern.drop 1).takeWhile islower
    if pattern.getD (1 + name.length) 0 = 58 ∧ pattern.getD (1 + name.length + 1) 0 = 93 then
      some (name,pattern.drop (1 + name.length + 2))
    else none
  else none

def rangeEnd (f : Flags) (c : UInt8) (pattern : List UInt8) : Scan :=
  if pattern.headD 0 = 45 ∧ pattern.getD 1 0 ≠ 0 ∧ pattern.getD 1 0 ≠ 93 then
    let r := unescape f (pattern.getD 1 0) (pattern.drop 2)
    if r.1 = 0 then .error else .elem (.range c (fold f r.1)) r.2
  else .elem (.one c) pattern

def element (f : Flags) (c : UInt8) (pattern : List UInt8) : Scan :=
  let r := unescape f c pattern
  if r.1 = 0 then .error
  else if r.1 = 47 ∧ f.pathname = true then .slash
  else
    let r := equivalence r.1 r.2
    match collating r.1 r.2 with
    | none => .error
    | some (c,pattern) =>
      match charClass c pattern with
      | some (name,pattern) => .elem (.named name) pattern
      | none => rangeEnd f (fold f c) pattern

inductive Range where
  | error
  | noMatch
  | found (newp : List UInt8)
  | spent

def rangeLoop (f : Flags) (signedChar negate : Bool) (test : UInt8) : Nat → Bool → UInt8 → List UInt8 → Range
  | 0, _, _, _ => .spent
  | fuel + 1, ok, c, pattern =>
    match element f c pattern with
    | .error => .error
    | .slash => .noMatch
    | .elem e pattern =>
      let ok := ok || e.hit signedChar test
      if pattern.headD 0 ≠ 93 then rangeLoop f signedChar negate test fuel ok (pattern.headD 0) pattern.tail
      else if ok = negate then .noMatch
      else .found pattern.tail

def negated (pattern : List UInt8) : Bool := pattern.headD 0 == 33 || pattern.headD 0 == 94

def listStart (pattern : List UInt8) : List UInt8 := if negated pattern then pattern.tail else pattern

def rangematch (f : Flags) (signedChar : Bool) (pattern : List UInt8) (test : UInt8) : Range :=
  rangeLoop f signedChar (negated pattern) (fold f test) (pattern.length + 2) false ((listStart pattern).headD 0)
    (listStart pattern).tail

def barred (f : Flags) (prev : Option UInt8) (string : List UInt8) : Bool :=
  string.headD 0 == 46 && f.period && (prev.isNone || (f.pathname && prev == some 47))

def starLoop (f : Flags) (go : List UInt8 → Ret) : List UInt8 → Ret
  | [] => .noMatch
  | test :: string =>
    match go (test :: string) with
    | .zero => .zero
    | .tooDeep => .tooDeep
    | .spent => .spent
    | .noMatch => if test = 47 ∧ f.pathname = true then .noMatch else starLoop f go string

def sameChar (f : Flags) (c x : UInt8) : Bool := c == x || (f.casefold && tolower c == tolower x)

def ordinary (f : Flags) (go : Option UInt8 → List UInt8 → Ret) (c : UInt8) : List UInt8 → Ret
  | [] => .noMatch
  | x :: string => if sameChar f c x then go (some x) string else .noMatch

def wild (f : Flags) (prev : Option UInt8) (go : UInt8 → List UInt8 → Ret) : List UInt8 → Ret
  | [] => .noMatch
  | x :: string =>
    if x = 47 ∧ f.pathname = true then .noMatch
    else if barred f prev (x :: string) then .noMatch
    else go x string

def fnmatchLoop (signedChar : Bool) : Nat → Flags → Nat → List UInt8 → Option UInt8 → List UInt8 → Ret
  | 0, _, _, _, _, _ => .spent
  | _ + 1, f, _, [], _, string =>
    if f.leadingDir = true ∧ string.headD 0 = 47 then .zero else if string = [] then .zero else .noMatch
  | fuel + 1, f, level, c :: pattern, prev, string =>
    if c = 63 then wild f prev (fun x string => fnmatchLoop signedChar fuel f level pattern (some x) string) string
    else if c = 42 then
      let pattern := pattern.dropWhile (· = 42)
      if barred f prev string then .noMatch
      else if pattern = [] then
        if f.pathname = true then if f.leadingDir = true ∨ 47 ∉ string then .zero else .noMatch else .zero
      else if pattern.headD 0 = 47 ∧ f.pathname = true then
        if 47 ∈ string then
          fnmatchLoop signedChar fuel f level pattern ((string.takeWhile (· ≠ 47)).getLast?.or prev)
            (string.dropWhile (· ≠ 47))
        else .noMatch
      else if level = 0 then .tooDeep
      else starLoop f (fnmatchLoop signedChar fuel { f with period := false } (level - 1) pattern none) string
    else if c = 91 then
      wild f prev (fun x rest =>
        match rangematch f signedChar pattern x with
        | .error =>
          ordinary f (fun prev string => fnmatchLoop signedChar fuel f level pattern prev string) 91 (x :: rest)
        | .noMatch => .noMatch
        | .spent => .spent
        | .found newp => fnmatchLoop signedChar fuel f level newp (some x) rest) string
    else if c = 92 ∧ f.noescape = false ∧ pattern ≠ [] then
      ordinary f (fun prev string => fnmatchLoop signedChar fuel f level pattern.tail prev string) (pattern.headD 0) string
    else ordinary f (fun prev string => fnmatchLoop signedChar fuel f level pattern prev string) c string

end Fnmatch
