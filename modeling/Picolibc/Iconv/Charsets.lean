import Mathlib
import Picolibc.Multibyte.Bulk

namespace Iconv

open Ascii Multibyte Utf8

structure Host where
  bigEndian : Bool
  hasUcs : Bool
  hasIso : Bool
  hasWindows : Bool
  hasJis : Bool
  isoConv : Nat → Nat → Nat
  isoMax : Nat → Nat
  cpConv : Nat → Nat → Nat
  cpMax : Nat → Nat
  shiftJisToUnicode : Nat → Option Nat
  eucJpToUnicode : Nat → Option Nat
  unicodeToShiftJis : Nat → Option Nat
  unicodeToEucJp : Nat → Option Nat

def Host.jisToUnicode (host : Host) (jis : Nat) : Option Nat :=
  if jis &&& 0x8080 ≠ 0 then none else host.eucJpToUnicode (if 0xff < jis then jis ||| 0x8080 else jis)

def Host.unicodeToJis (host : Host) (jis : Nat) : Option Nat := do
  let eucJp ← host.unicodeToEucJp (jis % 0x10000)
  if 0xffff < eucJp then none else some (if 0xff < eucJp then eucJp &&& 0x7f7f else eucJp)

inductive LocaleId where
  | c
  | utf8
  | ucs2
  | ucs2le
  | ucs2be
  | ucs4
  | ucs4le
  | ucs4be
  | iso8859 (k : Fin 15)
  | cp (k : Fin 27)
  | jis
  | eucjp
  | sjis
  deriving DecidableEq, Repr

abbrev Mbtowc := List UInt8 → Nat → Mbstate → Conv

abbrev Wctomb := Nat → Mbstate → Mbstate × Option (List UInt8)

def asciiMbtowc : Mbtowc := fun s n st =>
  if n = 0 then ⟨st,-2,none⟩ else
  let c := (charAt s 0).toNat
  if 0x80 ≤ c then ⟨st,-1,none⟩ else
  ⟨st,if c = 0 then 0 else 1,some c⟩

def ucsValue (big : Bool) (l : List UInt8) : Nat :=
  (if big then l else l.reverse).foldl (fun v b => v * 256 + b.toNat) 0

def ucsMbtowc (width : Nat) (big : Bool) : Mbtowc := fun s n st =>
  if n < width then ⟨st,-1,none⟩ else ⟨st,width,some (ucsValue big (s.take width))⟩

def isoMbtowc (host : Host) (k : Nat) : Mbtowc := fun s n st =>
  if n = 0 then ⟨st,-2,none⟩ else
  let t := (charAt s 0).toNat
  if 0xa0 ≤ t ∧ 0 < k then
    let wc := host.isoConv (k - 1) (t - 0xa0)
    if wc = 0 then ⟨st,-1,some wc⟩ else ⟨st,1,some wc⟩
  else ⟨st,if t = 0 then 0 else 1,some t⟩

def cpMbtowc (host : Host) (k : Nat) : Mbtowc := fun s n st =>
  if n = 0 then ⟨st,-2,none⟩ else
  let t := (charAt s 0).toNat
  if 0x80 ≤ t then
    let wc := host.cpConv k (t - 0x80)
    if wc = 0 then ⟨st,-1,some wc⟩ else ⟨st,1,some wc⟩
  else ⟨st,if t = 0 then 0 else 1,some t⟩

def isSjis1 (c : UInt8) : Bool :=
  (0x81 ≤ c.toNat && c.toNat ≤ 0x9f) || (0xe0 ≤ c.toNat && c.toNat ≤ 0xef)

def isSjis2 (c : UInt8) : Bool :=
  (0x40 ≤ c.toNat && c.toNat ≤ 0x7e) || (0x80 ≤ c.toNat && c.toNat ≤ 0xfc)

def isSjis1b (c : UInt8) : Bool := c.toNat ≤ 0x7f || (0xa1 ≤ c.toNat && c.toNat ≤ 0xdf)

def isEucjp1 (c : UInt8) : Bool := c.toNat = 0x8e || c.toNat = 0x8f || (0xa1 ≤ c.toNat && c.toNat ≤ 0xfe)

def isEucjp2 (c : UInt8) : Bool := 0xa1 ≤ c.toNat && c.toNat ≤ 0xfe

def isJis (c : UInt8) : Bool := 0x21 ≤ c.toNat && c.toNat ≤ 0x7e

def lookedUp (u : Option Nat) (st : Mbstate) (i : Nat) : Conv :=
  match u with
  | none => ⟨st,-1,none⟩
  | some wc => ⟨st,i,some wc⟩

def sjisPair (host : Host) (st : Mbstate) (ch : UInt8) (i : Nat) : Conv :=
  if isSjis2 ch then
    lookedUp (host.shiftJisToUnicode (st.b0.toNat * 256 + ch.toNat)) { st with count := 0 } i
  else ⟨st,-1,none⟩

def sjisMbtowc (host : Host) : Mbtowc := fun s n st =>
  if n = 0 then ⟨st,-2,none⟩ else
  let ch := charAt s 0
  if st.count = 0 then
    if isSjis1 ch then
      let st := { st with count := 1, b0 := ch }
      if n ≤ 1 then ⟨st,-2,none⟩ else sjisPair host st (charAt s 1) 2
    else if !isSjis1b ch then ⟨st,-1,none⟩
    else if ch = 0 then ⟨st,0,some 0⟩
    else lookedUp (host.shiftJisToUnicode ch.toNat) { st with count := 0 } 1
  else if st.count = 1 then sjisPair host st ch 1
  else lookedUp (host.shiftJisToUnicode 0) { st with count := 0 } 1

def eucjpThird (host : Host) (st : Mbstate) (ch : UInt8) (i : Nat) : Conv :=
  if isEucjp2 ch then
    lookedUp (host.eucJpToUnicode ((st.b0.toNat * 256 + st.b1.toNat) * 256 + ch.toNat)) { st with count := 0 } i
  else ⟨st,-1,none⟩

def eucjpSecond (host : Host) (st : Mbstate) (s : List UInt8) (n : Nat) (ch : UInt8) (i : Nat) : Conv :=
  if isEucjp2 ch then
    if st.b0 = 0x8f then
      let st := { st with count := 2, b1 := ch }
      if n ≤ i then ⟨st,-2,none⟩ else eucjpThird host st (charAt s i) (i + 1)
    else lookedUp (host.eucJpToUnicode (st.b0.toNat * 256 + ch.toNat)) { st with count := 0 } i
  else ⟨st,-1,none⟩

def eucjpMbtowc (host : Host) : Mbtowc := fun s n st =>
  if n = 0 then ⟨st,-2,none⟩ else
  let ch := charAt s 0
  if st.count = 0 then
    if isEucjp1 ch then
      let st := { st with count := 1, b0 := ch }
      if n ≤ 1 then ⟨st,-2,none⟩ else eucjpSecond host st s n (charAt s 1) 2
    else if ch = 0 then ⟨st,0,some 0⟩
    else lookedUp (host.eucJpToUnicode ch.toNat) { st with count := 0 } 1
  else if st.count = 1 then eucjpSecond host st s n ch 1
  else if st.count = 2 then eucjpThird host st ch 1
  else lookedUp (host.eucJpToUnicode 0) { st with count := 0 } 1

inductive JisCharType where
  | escape
  | dollar
  | bracket
  | at
  | b
  | j
  | nul
  | jisChar
  | other
  deriving DecidableEq, Repr

inductive JisState where
  | ascii
  | jis
  | aEsc
  | aEscDl
  | jis1
  | jEsc
  | jEscBr
  | inv
  deriving DecidableEq, Repr

inductive JisAction where
  | copyA
  | copyJ1
  | copyJ2
  | makeA
  | noop
  | empty
  | error
  deriving DecidableEq, Repr

def JisState.code : JisState → Nat
  | .ascii => 0
  | .jis => 1
  | .aEsc => 2
  | .aEscDl => 3
  | .jis1 => 4
  | .jEsc => 5
  | .jEscBr => 6
  | .inv => 7

def JisState.ofCode : Nat → JisState
  | 0 => .ascii
  | 1 => .jis
  | 2 => .aEsc
  | 3 => .aEscDl
  | 4 => .jis1
  | 5 => .jEsc
  | 6 => .jEscBr
  | _ => .inv

def jisCharType (c : UInt8) : JisCharType :=
  if c = 0x1b then .escape
  else if c = 0x24 then .dollar
  else if c = 0x40 then .at
  else if c = 0x28 then .bracket
  else if c = 0x42 then .b
  else if c = 0x4a then .j
  else if c = 0 then .nul
  else if isJis c then .jisChar
  else .other

def jisStateTable : JisState → JisCharType → JisState
  | .ascii, .escape => .aEsc
  | .ascii, _ => .ascii
  | .jis, .escape => .jEsc
  | .jis, .nul => .inv
  | .jis, .other => .inv
  | .jis, _ => .jis1
  | .aEsc, .dollar => .aEscDl
  | .aEsc, _ => .ascii
  | .aEscDl, .at => .jis
  | .aEscDl, .b => .jis
  | .aEscDl, _ => .ascii
  | .jis1, .escape => .inv
  | .jis1, .nul => .inv
  | .jis1, .other => .inv
  | .jis1, _ => .jis
  | .jEsc, .bracket => .jEscBr
  | .jEsc, _ => .inv
  | .jEscBr, .b => .ascii
  | .jEscBr, .j => .ascii
  | .jEscBr, _ => .inv
  | .inv, _ => .ascii

def jisActionTable : JisState → JisCharType → JisAction
  | .ascii, .escape => .noop
  | .ascii, .nul => .empty
  | .ascii, _ => .copyA
  | .jis, .escape => .noop
  | .jis, .nul => .error
  | .jis, .other => .error
  | .jis, _ => .copyJ1
  | .aEsc, .dollar => .noop
  | .aEsc, _ => .copyA
  | .aEscDl, .at => .noop
  | .aEscDl, .b => .noop
  | .aEscDl, _ => .copyA
  | .jis1, .escape => .error
  | .jis1, .nul => .error
  | .jis1, .other => .error
  | .jis1, _ => .copyJ2
  | .jEsc, .bracket => .noop
  | .jEsc, _ => .error
  | .jEscBr, .b => .makeA
  | .jEscBr, .j => .makeA
  | .jEscBr, _ => .error
  | .inv, _ => .copyA

def jisLoop (host : Host) (t : List UInt8) (st : Mbstate) :
    List UInt8 → Nat → JisState → UInt8 → Nat → Conv
  | [], _, curr, b0, _ => ⟨{ st with count := curr.code, b0 := b0 },-2,none⟩
  | c :: cs, i, curr, b0, ptr =>
    let next := jisStateTable curr (jisCharType c)
    match jisActionTable curr (jisCharType c) with
    | .noop => jisLoop host t st cs (i + 1) next b0 ptr
    | .empty => ⟨{ st with count := 0, b0 := b0 },0,some 0⟩
    | .copyA => ⟨{ st with count := 0, b0 := b0 },i + 1,some (charAt t ptr).toNat⟩
    | .copyJ1 => jisLoop host t st cs (i + 1) next c ptr
    | .copyJ2 =>
      lookedUp (host.jisToUnicode (b0.toNat * 256 + c.toNat)) { st with count := 1, b0 := b0 } (i + 1)
    | .makeA => jisLoop host t st cs (i + 1) next b0 (i + 1)
    | .error => ⟨{ st with b0 := b0 },-1,none⟩

def jisMbtowc (host : Host) : Mbtowc := fun s n st =>
  if n = 0 then ⟨st,-2,none⟩ else jisLoop host s st (s.take n) 0 (.ofCode st.count) st.b0 0

def asciiWctomb : Wctomb := fun wchar st =>
  if 0x80 ≤ wchar then (st,none) else (st,some [UInt8.ofNat wchar])

def ucsBytes (width : Nat) (big : Bool) (wchar : Nat) : List UInt8 :=
  let l := (List.range width).map fun i => UInt8.ofNat (wchar / 256 ^ i)
  if big then l.reverse else l

def ucsWctomb (width : Nat) (big : Bool) : Wctomb := fun wchar st =>
  if 0xd800 ≤ wchar ∧ wchar ≤ 0xdfff then (st,none) else (st,some (ucsBytes width big wchar))

def tableWctomb (conv : Nat → Nat) (max base count : Nat) : Wctomb := fun wchar st =>
  if base ≤ wchar then
    if max < wchar then (st,none) else
    (st,((List.range count).find? fun mb => conv mb = wchar).map fun mb => [UInt8.ofNat (mb + base)])
  else (st,some [UInt8.ofNat wchar])

def iso1Wctomb : Wctomb := fun wchar st =>
  if 0x100 ≤ wchar then (st,none) else (st,some [UInt8.ofNat wchar])

def isoWctomb (host : Host) (k : Nat) : Wctomb :=
  if k = 0 then iso1Wctomb else tableWctomb (host.isoConv (k - 1)) (host.isoMax (k - 1)) 0xa0 0x60

def cpWctomb (host : Host) (k : Nat) : Wctomb := tableWctomb (host.cpConv k) (host.cpMax k) 0x80 0x80

def sjisWctomb (host : Host) : Wctomb := fun wchar st =>
  match host.unicodeToShiftJis wchar with
  | none => (st,none)
  | some jischar =>
    let char2 := UInt8.ofNat jischar
    let char1 := UInt8.ofNat (jischar / 256)
    (st,some (if char1 ≠ 0 then [char1,char2] else [char2]))

def eucjpWctomb (host : Host) : Wctomb := fun wchar st =>
  match host.unicodeToEucJp wchar with
  | none => (st,none)
  | some jischar =>
    let char2 := UInt8.ofNat jischar
    let char1 := UInt8.ofNat (jischar / 256)
    let char0 := UInt8.ofNat (jischar / 65536)
    (st,some (if char0 ≠ 0 then [char0,char1,char2] else if char1 ≠ 0 then [char1,char2] else [char2]))

def jisWctomb (host : Host) : Wctomb := fun wchar st =>
  match host.unicodeToJis wchar with
  | none => (st,none)
  | some jischar =>
    let char2 := UInt8.ofNat jischar
    let char1 := UInt8.ofNat (jischar / 256)
    if char1 ≠ 0 then
      if st.count = 0 then ({ st with count := 1 },some [0x1b,0x24,0x42,char1,char2])
      else (st,some [char1,char2])
    else if st.count ≠ 0 then ({ st with count := 0 },some [0x1b,0x28,0x42,char2])
    else (st,some [char2])

def LocaleId.getMbtowc (host : Host) : LocaleId → Mbtowc
  | .c => asciiMbtowc
  | .utf8 => utf8Mbtowc
  | .ucs2 => ucsMbtowc 2 host.bigEndian
  | .ucs2le => ucsMbtowc 2 false
  | .ucs2be => ucsMbtowc 2 true
  | .ucs4 => ucsMbtowc 4 host.bigEndian
  | .ucs4le => ucsMbtowc 4 false
  | .ucs4be => ucsMbtowc 4 true
  | .iso8859 k => isoMbtowc host k
  | .cp k => cpMbtowc host k
  | .jis => jisMbtowc host
  | .eucjp => eucjpMbtowc host
  | .sjis => sjisMbtowc host

def LocaleId.getWctomb (host : Host) : LocaleId → Wctomb
  | .c => asciiWctomb
  | .utf8 => fun wchar st => (st,utf8Wctomb wchar)
  | .ucs2 => ucsWctomb 2 host.bigEndian
  | .ucs2le => ucsWctomb 2 false
  | .ucs2be => ucsWctomb 2 true
  | .ucs4 => ucsWctomb 4 host.bigEndian
  | .ucs4le => ucsWctomb 4 false
  | .ucs4be => ucsWctomb 4 true
  | .iso8859 k => isoWctomb host k
  | .cp k => cpWctomb host k
  | .jis => jisWctomb host
  | .eucjp => eucjpWctomb host
  | .sjis => sjisWctomb host

end Iconv
