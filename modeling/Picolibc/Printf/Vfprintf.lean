import Mathlib

namespace Printf

inductive CTy where
  | int
  | long
  | llong
  | wint
  | uint32
  | double
  | ldouble
  | charPtr
  | wcharPtr
  | ptr
  deriving DecidableEq, Repr

inductive Floats where
  | off
  | float
  | double
  deriving DecidableEq, Repr

structure Build where
  shrink : Bool
  longLong : Bool
  c99 : Bool
  posArgs : Bool
  percentB : Bool
  wchar : Bool
  floats : Floats
  longDouble : Bool
  shortBits : Nat
  intBits : Nat
  longBits : Nat
  llongBits : Nat
  ptrBits : Nat
  intmaxBits : Nat
  sizeBits : Nat
  ptrdiffBits : Nat
  slot : CTy → Nat
  wctomb : Nat → Option (List UInt8)

structure Flags where
  zfill : Bool
  plus : Bool
  space : Bool
  lpad : Bool
  alt : Bool
  width : Bool
  prec : Bool
  long : Bool
  short : Bool
  repd : Bool
  negative : Bool
  deriving DecidableEq, Repr

def Flags.zero : Flags := ⟨false,false,false,false,false,false,false,false,false,false,false⟩

def Flags.belowLong (f : Flags) : Bool := !f.long && !f.short && !f.repd && !f.negative

def Flags.belowWidth (f : Flags) : Bool := !f.width && !f.prec && f.belowLong

inductive Arg where
  | int (v : Int)
  | long (v : Int)
  | llong (v : Int)
  | wint (v : Nat)
  | uint32 (v : Nat)
  | double (v : Nat)
  | ldouble (v : Nat)
  | charPtr (s : Option (List UInt8))
  | wcharPtr (s : Option (List Nat))
  | ptr (v : Nat)
  deriving DecidableEq, Repr

namespace Arg

def ty : Arg → CTy
  | int _ => .int
  | long _ => .long
  | llong _ => .llong
  | wint _ => .wint
  | uint32 _ => .uint32
  | double _ => .double
  | ldouble _ => .ldouble
  | charPtr _ => .charPtr
  | wcharPtr _ => .wcharPtr
  | ptr _ => .ptr

def bits : Arg → Int
  | int v => v
  | long v => v
  | llong v => v
  | wint v => v
  | uint32 v => v
  | double v => v
  | ldouble v => v
  | ptr v => v
  | charPtr _ => 0
  | wcharPtr _ => 0

def str : Arg → Option (List UInt8)
  | charPtr s => s
  | _ => none

def wstr : Arg → Option (List Nat)
  | wcharPtr s => s
  | _ => none

end Arg

inductive Fault where
  | badArg
  | pastEnd
  deriving DecidableEq, Repr

structure VaList where
  args : List Arg
  pos : Nat
  deriving DecidableEq, Repr

structure Read where
  pos : Nat
  ty : CTy
  deriving DecidableEq, Repr

structure Output where
  text : List UInt8
  reads : List Read
  failed : Bool
  deriving DecidableEq, Repr

def Output.andThen (o : Output) (k : Except Fault Output) : Except Fault Output :=
  if o.failed then .ok o else
  match k with
  | .error e => .error e
  | .ok r => .ok ⟨o.text ++ r.text,o.reads ++ r.reads,r.failed⟩

def wrapS (w : Nat) (v : Int) : Int := v.bmod (2 ^ w)

def wrapU (w : Nat) (v : Int) : Nat := (v % 2 ^ w).toNat

def nul : Char := '\x00'

def byte (c : Char) : UInt8 := UInt8.ofNat c.toNat

def lower (c : Char) : Nat := c.toNat ||| 32

def isDigit (c : Char) : Bool := decide ('0'.toNat ≤ c.toNat) && decide (c.toNat ≤ '9'.toNat)

def digitVal (c : Char) : Nat := c.toNat - '0'.toNat

def isFlag (c : Char) : Bool := c = '0' || c = '+' || c = ' ' || c = '-' || c = '#' || c = '\''

section

variable (b : Build)

def isFloat (c : Char) : Bool :=
  (decide ('e'.toNat ≤ lower c) && decide (lower c ≤ 'g'.toNat)) || (b.c99 && decide (lower c = 'a'.toNat))

def setFlag (f : Flags) (c : Char) : Flags :=
  if c = '0' then { f with zfill := f.zfill || !b.shrink } else
  if c = '+' then { f with plus := f.plus || !b.shrink, space := f.space || !b.shrink } else
  if c = ' ' then { f with space := f.space || !b.shrink } else
  if c = '-' then { f with lpad := f.lpad || !b.shrink } else
  if c = '#' then { f with alt := true } else
  f

def checkIntSize (bits : Nat) (f : Flags) : Flags :=
  if bits = b.intBits then f else
  if bits = b.longBits then { f with long := true } else
  if bits = b.llongBits then { f with long := true, repd := true } else
  if bits = b.shortBits then { f with short := true } else
  f

def checkIntSizes (f : Flags) (c : Char) : Option Flags :=
  if c = 'l' then some { f with repd := f.repd || f.long, long := true } else
  if c = 'h' then some { f with repd := f.repd || f.short, short := true } else
  if c = 'L' then some { f with repd := true, long := true } else
  if b.c99 ∧ c = 'j' then some (checkIntSize b b.intmaxBits f) else
  if b.c99 ∧ c = 'z' then some (checkIntSize b b.sizeBits f) else
  if b.c99 ∧ c = 't' then some (checkIntSize b b.ptrdiffBits f) else
  none

def intTy (f : Flags) : CTy := if f.long then if f.repd then .llong else .long else .int

def ptrTy : CTy := if b.intBits < b.ptrBits then .long else .int

def readable (given want : CTy) : Bool := given = want || (given = .ptr && want = ptrTy b)

def vaArg (t : CTy) (ap : VaList) : Except Fault (Arg × VaList) :=
  match ap.args[ap.pos]? with
  | none => .error .badArg
  | some a => if readable b a.ty t then .ok (a,{ ap with pos := ap.pos + 1 }) else .error .badArg

def skipArg (t : CTy) (ap : VaList) : Except Fault VaList :=
  match ap.args[ap.pos]? with
  | none => .error .badArg
  | some a => if b.slot a.ty = b.slot t then .ok { ap with pos := ap.pos + 1 } else .error .badArg

structure Scan where
  flags : Flags
  width : Int
  argno : Int
  deriving DecidableEq, Repr

inductive ScanStep where
  | next (s : Scan)
  | stop (argno : Int) (c : Char) (flags : Flags)
  deriving DecidableEq, Repr

def scanSizes (s : Scan) (c : Char) : ScanStep :=
  match checkIntSizes b s.flags c with
  | some f => .next { s with flags := f }
  | none => .stop s.argno c s.flags

def scanStep (cur : Int) (s : Scan) (c : Char) : ScanStep :=
  if s.flags.belowWidth && isFlag c then .next s else
  if s.flags.belowLong then
    if isDigit c then
      .next { s with width := 10 * s.width + digitVal c, flags := { s.flags with width := true } }
    else if c = '$' then
      if s.argno ≠ 0 then
        if s.width = cur then .stop s.width 'c' s.flags else .next { s with width := 0 }
      else .next { s with argno := s.width, width := 0 }
    else if c = '*' then .next { s with width := 0 }
    else if c = '.' then .next { s with width := 0 }
    else scanSizes b s c
  else scanSizes b s c

def skipFloatTy : CTy :=
  match b.floats with
  | .float => .uint32
  | _ => .double

def skipTy (f : Flags) (c : Char) : CTy :=
  if isFloat b c then skipFloatTy b else
  if c = 'c' then if f.long then .wint else .int else
  if c = 's' then .charPtr else
  intTy f

inductive Found where
  | arg (t : CTy)
  | absent
  | pastEnd
  deriving DecidableEq, Repr

inductive ScanMode where
  | text
  | conv (s : Scan)
  deriving DecidableEq, Repr

def Scan.init : Scan := ⟨.zero,0,0⟩

def scanArg (cur : Int) : ScanMode → List Char → Found
  | .text, [] => .absent
  | .text, ['%'] => .absent
  | .text, '%' :: '%' :: fmt => scanArg cur .text fmt
  | .text, '%' :: c :: fmt => scanArg cur (.conv .init) (c :: fmt)
  | .text, _ :: fmt => scanArg cur .text fmt
  | .conv s, [] =>
    if s.argno = 0 then .absent else
    if s.argno = cur then .arg (skipTy b s.flags nul) else
    .pastEnd
  | .conv s, c :: fmt =>
    match scanStep b cur s c with
    | .next s => scanArg cur (.conv s) fmt
    | .stop argno c f =>
      if argno = 0 then .absent else
      if argno = cur then .arg (skipTy b f c) else
      scanArg cur .text fmt

def skipFrom (fmt : List Char) : Nat → Int → VaList → Except Fault VaList
  | 0, _, ap => .ok ap
  | n + 1, cur, ap =>
    match scanArg b cur .text fmt with
    | .pastEnd => .error .pastEnd
    | .absent => .ok ap
    | .arg t =>
      match skipArg b t ap with
      | .error e => .error e
      | .ok ap => skipFrom fmt n (cur + 1) ap

def skipToArg (fmt : List Char) (ap : VaList) (target : Int) : Except Fault VaList :=
  skipFrom b fmt (target - 1).toNat 1 ap

structure Spec where
  flags : Flags
  width : Int
  prec : Int
  argno : Int
  deriving DecidableEq, Repr

def Spec.init : Spec := ⟨.zero,0,0,0⟩

inductive Step where
  | next (sp : Spec) (ap : VaList) (reads : List Read)
  | ret
  | conv
  deriving DecidableEq, Repr

def Spec.setStar (sp : Spec) (v : Int) : Spec :=
  if sp.flags.prec then if b.shrink then sp else { sp with prec := v }
  else if b.shrink then { sp with flags := { sp.flags with width := true } }
  else { sp with width := v, flags := { sp.flags with width := true } }

def readStar (sp : Spec) (ap : VaList) : Except Fault Step :=
  match vaArg b .int ap with
  | .error e => .error e
  | .ok (a,ap') => .ok (.next (sp.setStar b (wrapS b.intBits a.bits)) ap' [⟨ap.pos,.int⟩])

def readPositional (orig : List Char) (sp : Spec) (ap : VaList) : Except Fault Step :=
  match skipToArg b orig { ap with pos := 0 } (if sp.flags.prec then sp.prec else sp.width) with
  | .error e => .error e
  | .ok ap =>
    match vaArg b .int ap with
    | .error e => .error e
    | .ok (a,ap') =>
      let v := wrapS b.intBits a.bits
      .ok (.next (if sp.flags.prec then { sp with prec := v } else { sp with width := v }) ap' [⟨ap.pos,.int⟩])

def convSizes (sp : Spec) (ap : VaList) (c : Char) : Step :=
  match checkIntSizes b sp.flags c with
  | some f => .next { sp with flags := f } ap []
  | none => .conv

def Spec.digit (sp : Spec) (c : Char) : Spec :=
  if b.shrink then sp else
  if sp.flags.prec then { sp with prec := 10 * sp.prec + digitVal c } else
  { sp with width := 10 * sp.width + digitVal c, flags := { sp.flags with width := true } }

def convStep (orig : List Char) (sp : Spec) (ap : VaList) (c : Char) : Except Fault Step :=
  if sp.flags.belowWidth && isFlag c then .ok (.next { sp with flags := setFlag b sp.flags c } ap []) else
  if sp.flags.belowLong then
    if isDigit c then .ok (.next (sp.digit b c) ap [])
    else if c = '*' then
      if b.posArgs ∧ sp.argno ≠ 0 then .ok (.next sp ap []) else readStar b sp ap
    else if c = '.' then
      if sp.flags.prec then .ok .ret else
      .ok (.next { sp with flags := { sp.flags with prec := true } } ap [])
    else if b.posArgs ∧ c = '$' then
      if sp.argno ≠ 0 then readPositional b orig sp ap else
      .ok (.next ⟨.zero,0,0,sp.width⟩ ap [])
    else .ok (convSizes b sp ap c)
  else .ok (convSizes b sp ap c)

def ultoaBits : Nat := if b.longLong then b.llongBits else b.longBits

def argToSigned (f : Flags) (v : Int) : Int :=
  if f.long then
    if f.repd then wrapS (ultoaBits b) (wrapS b.llongBits v) else wrapS b.longBits v
  else if f.short then
    if f.repd then wrapS 8 (wrapS b.intBits v) else wrapS b.shortBits (wrapS b.intBits v)
  else wrapS b.intBits v

def argToUnsigned (f : Flags) (v : Int) : Nat :=
  if f.long then
    if f.repd then wrapU (ultoaBits b) (wrapU b.llongBits v) else wrapU b.longBits v
  else if f.short then
    if f.repd then wrapU 8 (wrapU b.intBits v) else wrapU b.shortBits (wrapU b.intBits v)
  else wrapU b.intBits v

def ultoaDigit (base v : Nat) : UInt8 :=
  if 9 < v then UInt8.ofNat (v + ('a'.toNat - '0'.toNat - 10 + 16 - base) + '0'.toNat)
  else UInt8.ofNat (v + '0'.toNat)

def ultoaLoop (base : Nat) : Nat → Nat → List UInt8
  | 0, _ => []
  | n + 1, val =>
    ultoaDigit base (val % (base % 32)) ::
      if val / (base % 32) = 0 then [] else ultoaLoop base n (val / (base % 32))

def ultoaInvert (val base : Nat) : List UInt8 := ultoaLoop base (ultoaBits b) val

def lead (f : Flags) (c : Char) : List UInt8 :=
  if f.alt then if c = nul then [byte '0'] else [byte '0',byte c] else
  if f.negative then [byte '-'] else
  if f.plus then [byte '+'] else
  if f.space then [byte ' '] else
  []

def intBody (f : Flags) (width prec : Int) (c : Char) (buf : List UInt8) : List UInt8 × Int :=
  if b.shrink then (lead f c ++ buf.reverse,width) else
  let bufLen : Int := buf.length
  let f := if f.prec then { f with zfill := false } else f
  let short := f.prec && decide (bufLen < prec)
  let len := if short then prec else bufLen
  let f := if short && decide (c = nul) then { f with alt := false } else f
  let len := len + (lead f c).length
  let zeros := !f.lpad && f.zfill
  let prec := if zeros then bufLen + (if len < width then width - len else 0) else prec
  let len := if zeros && decide (len < width) then width else len
  let blanks := if f.lpad then 0 else (width - len).toNat
  (List.replicate blanks (byte ' ') ++ lead f c ++ List.replicate (prec - bufLen).toNat (byte '0') ++ buf.reverse,
    width - len - blanks)

def strBody (f : Flags) (width : Int) (s : List UInt8) : List UInt8 × Int :=
  let blanks := if f.lpad then 0 else (width - s.length).toNat
  (List.replicate blanks (byte ' ') ++ s,width - blanks - s.length)

def tail (width : Int) : List UInt8 := if b.shrink then [] else List.replicate width.toNat (byte ' ')

def closed (ap : VaList) (t : CTy) (body : List UInt8 × Int) : Output :=
  ⟨body.1 ++ tail b body.2,[⟨ap.pos,t⟩],false⟩

def nullText : List UInt8 := ['(','n','u','l','l',')'].map byte

def clip (f : Flags) (prec : Int) (s : List UInt8) : List UInt8 := if f.prec then s.take prec.toNat else s

def mbsBytes (max : Option Nat) : List Nat → Nat → Option (List UInt8)
  | [], _ => some []
  | w :: ws, len =>
    if max.any (· ≤ len) then some [] else
    match b.wctomb w with
    | none => none
    | some l =>
      if max.any (· < len + l.length) then some [] else
      (mbsBytes max ws (len + l.length)).map (l ++ ·)

def signedBody (f : Flags) (width prec : Int) (c : Char) (v : Int) : List UInt8 × Int :=
  let x := argToSigned b f v
  let neg := decide (x < 0)
  let x := if x < 0 then wrapS (ultoaBits b) (wrapU (ultoaBits b) (-wrapU (ultoaBits b) x)) else x
  let f := { f with negative := f.negative || neg, alt := false }
  let buf := if b.shrink = false ∧ x = 0 ∧ f.prec ∧ prec = 0 then [] else
    ultoaInvert b (wrapU (ultoaBits b) x) 10
  intBody b f width prec c buf

def unsignedBody (f : Flags) (width prec : Int) (base : Nat) (c : Char) (v : Int) : List UInt8 × Int :=
  let x := argToUnsigned b f v
  let f := if x = 0 then { f with alt := false } else f
  let buf := if b.shrink = false ∧ x = 0 ∧ f.prec ∧ prec = 0 then [] else ultoaInvert b x base
  intBody b f width prec c buf

def unsignedKnown (c : Char) : Bool :=
  c = 'u' || c = 'o' || c = 'p' || decide (lower c = 'x'.toNat) || (b.percentB && decide (lower c = 'b'.toNat))

def unsignedFlags (f : Flags) (c : Char) : Flags :=
  let f := if c = 'u' then { f with alt := false } else
    if c = 'p' then { f with alt := true, long := f.long || decide (b.intBits < b.ptrBits) } else f
  { f with plus := false, space := false }

def unsignedBase (c : Char) : Nat :=
  if c = 'u' then 10 else if c = 'o' then 8 else if c = 'p' then 16 else
  if lower c = 'x'.toNat then ('x'.toNat - c.toNat) ||| 16 else 2

def unsignedLetter (c : Char) : Char := if c = 'o' then nul else if c = 'p' then 'x' else c

def intConv (f : Flags) (width prec : Int) (c : Char) (ap : VaList) : Except Fault (Output × VaList) :=
  if c = 'd' ∨ c = 'i' then
    match vaArg b (intTy f) ap with
    | .error e => .error e
    | .ok (a,ap') => .ok (closed b ap (intTy f) (signedBody b f width prec c a.bits),ap')
  else if unsignedKnown b c then
    let f := unsignedFlags b f c
    match vaArg b (intTy f) ap with
    | .error e => .error e
    | .ok (a,ap') =>
      .ok (closed b ap (intTy f) (unsignedBody b f width prec (unsignedBase c) (unsignedLetter c) a.bits),ap')
  else .ok (⟨[byte '%',byte c],[],false⟩,ap)

def encoded (ap : VaList) (t : CTy) (f : Flags) (width : Int) : Option (List UInt8) → Output
  | none => ⟨[],[⟨ap.pos,t⟩],true⟩
  | some l => closed b ap t (strBody f width l)

def wideText (f : Flags) (prec : Int) : Option (List Nat) → Option (List UInt8)
  | none => some (clip f prec nullText)
  | some ws => mbsBytes b (if f.prec then some prec.toNat else none) ws 0

def charConv (f : Flags) (width : Int) (ap : VaList) : Except Fault (Output × VaList) :=
  if b.wchar ∧ ¬b.shrink ∧ f.long then
    match vaArg b .wint ap with
    | .error e => .error e
    | .ok (a,ap') =>
      .ok (encoded b ap .wint f width (b.wctomb (wrapU 32 a.bits)),ap')
  else
    match vaArg b .int ap with
    | .error e => .error e
    | .ok (a,ap') =>
      let s := [UInt8.ofNat (wrapU 8 a.bits)]
      .ok (closed b ap .int (if b.shrink then (s,width) else strBody f width s),ap')

def strConv (f : Flags) (width prec : Int) (ap : VaList) : Except Fault (Output × VaList) :=
  if b.wchar ∧ ¬b.shrink ∧ f.long then
    match vaArg b .wcharPtr ap with
    | .error e => .error e
    | .ok (a,ap') =>
      .ok (encoded b ap .wcharPtr f width (wideText b f prec a.wstr),ap')
  else
    match vaArg b .charPtr ap with
    | .error e => .error e
    | .ok (a,ap') =>
      let s := a.str.getD nullText
      .ok (closed b ap .charPtr (if b.shrink then (s,width) else strBody f width (clip f prec s)),ap')

abbrev FloatText := Flags → Int → Int → Char → Nat → List UInt8 × Int

def floatTy (f : Flags) : CTy :=
  if b.longDouble ∧ f.long ∧ f.repd then .ldouble else skipFloatTy b

def floatStub : List UInt8 := ['*','f','l','o','a','t','*'].map byte

variable (ft : FloatText)

def floatConv (f : Flags) (width prec : Int) (c : Char) (ap : VaList) : Except Fault (Output × VaList) :=
  let t := if b.floats = .off then .double else floatTy b f
  match vaArg b t ap with
  | .error e => .error e
  | .ok (a,ap') =>
    let body := if b.floats = .off then strBody f width floatStub else ft f width prec c a.bits.toNat
    .ok (closed b ap t body,ap')

def Spec.adjust (sp : Spec) : Spec :=
  if b.shrink then sp else
  let sp := if sp.prec < 0 then { sp with prec := 0, flags := { sp.flags with prec := false } } else sp
  if sp.width < 0 then { sp with width := -sp.width, flags := { sp.flags with lpad := true } } else sp

def convert (sp : Spec) (c : Char) (ap : VaList) : Except Fault (Output × VaList) :=
  let sp := sp.adjust b
  if b.shrink = false ∧ isFloat b c then floatConv b ft sp.flags sp.width sp.prec c ap else
  if c = 'c' then charConv b sp.flags sp.width ap else
  if c = 's' then strConv b sp.flags sp.width sp.prec ap else
  intConv b sp.flags sp.width sp.prec c ap

def toValue (orig : List Char) (sp : Spec) (ap : VaList) : Except Fault VaList :=
  if b.posArgs ∧ sp.argno ≠ 0 then skipToArg b orig { ap with pos := 0 } sp.argno else .ok ap

inductive Mode where
  | text
  | conv (sp : Spec)
  deriving DecidableEq, Repr

def scanFormat (orig : List Char) : Mode → List Char → VaList → Except Fault Output
  | .text, [], _ => .ok ⟨[],[],false⟩
  | .text, ['%'], _ => .error .pastEnd
  | .text, '%' :: '%' :: fmt, ap => Output.andThen ⟨[byte '%'],[],false⟩ (scanFormat orig .text fmt ap)
  | .text, '%' :: c :: fmt, ap => scanFormat orig (.conv .init) (c :: fmt) ap
  | .text, c :: fmt, ap => Output.andThen ⟨[byte c],[],false⟩ (scanFormat orig .text fmt ap)
  | .conv _, [], _ => .error .pastEnd
  | .conv sp, c :: fmt, ap =>
    match convStep b orig sp ap c with
    | .error e => .error e
    | .ok .ret => .ok ⟨[],[],false⟩
    | .ok (.next sp ap reads) => Output.andThen ⟨[],reads,false⟩ (scanFormat orig (.conv sp) fmt ap)
    | .ok .conv =>
      match toValue b orig sp ap with
      | .error e => .error e
      | .ok ap =>
        match convert b ft sp c ap with
        | .error e => .error e
        | .ok (o,ap) => o.andThen (scanFormat orig .text fmt ap)

def format (fmt : List Char) (args : List Arg) : Except Fault Output :=
  scanFormat b ft fmt .text fmt ⟨args,0⟩

end

section

variable {S : Type} (put : S → UInt8 → S × Bool)

def deliver : S → List UInt8 → S × Bool
  | s, [] => (s,true)
  | s, c :: l =>
    match put s c with
    | (s,true) => deliver s l
    | (s,false) => (s,false)

def vfprintf (b : Build) (ft : FloatText) (s : S) (fmt : List Char) (args : List Arg) :
    Except Fault (S × Int) :=
  match format b ft fmt args with
  | .error e => .error e
  | .ok o =>
    match deliver put s o.text with
    | (s,true) => .ok (s,if o.failed then -1 else o.text.length)
    | (s,false) => .ok (s,-1)

end

end Printf
