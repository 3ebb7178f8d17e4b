import Mathlib
import Picolibc.Multibyte.Convert

namespace Multibyte

structure Shared where
  count : Int
  b0 : UInt8
  b1 : UInt8
  b2 : UInt8
  b3 : UInt8
  deriving DecidableEq, Repr

def Shared.initial : Shared := ⟨0,0,0,0,0⟩

def Shared.ucs (big : Bool) (ps : Shared) : Nat :=
  if big then ps.b0.toNat * 16777216 + ps.b1.toNat * 65536 + ps.b2.toNat * 256 + ps.b3.toNat
  else ps.b3.toNat * 16777216 + ps.b2.toNat * 65536 + ps.b1.toNat * 256 + ps.b0.toNat

def Shared.setUcs (big : Bool) (ps : Shared) (v : Nat) : Shared :=
  let byte k := UInt8.ofNat (v / k)
  if big then ⟨ps.count,byte 16777216,byte 65536,byte 256,byte 1⟩
  else ⟨ps.count,byte 1,byte 256,byte 65536,byte 16777216⟩

def Shared.mb (ps : Shared) : Mbstate := ⟨ps.count.toNat,ps.b0,ps.b1,ps.b2,ps.b3⟩

def Mbstate.shared (st : Mbstate) : Shared := ⟨st.count,st.b0,st.b1,st.b2,st.b3⟩

def highSurrogateFirst : Nat := 0xd800

def highSurrogateLast : Nat := 0xdbff

def lowSurrogateFirst : Nat := 0xdc00

def lowSurrogateLast : Nat := 0xdfff

def char32IsSurrogate (c : Nat) : Bool := decide (highSurrogateFirst ≤ c) && decide (c ≤ lowSurrogateLast)

def char32IsValid (c : Nat) : Bool := decide (c ≤ 0x10ffff) && !char32IsSurrogate c

def char16IsHighSurrogate (c : Nat) : Bool := decide (highSurrogateFirst ≤ c) && decide (c ≤ highSurrogateLast)

def char16IsLowSurrogate (c : Nat) : Bool := decide (lowSurrogateFirst ≤ c) && decide (c ≤ lowSurrogateLast)

structure Emit where
  state : Shared
  ret : Int
  out : List UInt8
  eilseq : Bool
  deriving DecidableEq, Repr

def Emit.fail (ps : Shared) : Emit := ⟨ps,-1,[],true⟩

def wcrtomb (s : Bool) (wc : Nat) (ps : Shared) : Emit :=
  match utf8Wctomb (if s then wc else 0) with
  | none => .fail { ps with count := 0 }
  | some bytes => ⟨ps,bytes.length,if s then bytes else [],false⟩

def leadCount (c8 : Nat) : Nat → Nat → Option Nat
  | 0, count => some count
  | fuel + 1, count =>
    if c8 &&& (1 <<< (6 - count)) ≠ 0 then
      if 4 < count then none else leadCount c8 fuel (count + 1)
    else some count

def c8rtomb (big s : Bool) (c8 : UInt8) (ps : Shared) : Emit :=
  let c8 := if s then c8.toNat else 0
  if c8 ≤ 0x7f then
    if ps.count ≠ 0 then .fail ps else wcrtomb s c8 ps
  else if 0xc0 ≤ c8 then
    if ps.count ≠ 0 ∨ c8 ≤ 0xc1 then .fail ps else
    match leadCount c8 6 1 with
    | none => .fail ps
    | some count =>
      let c32 := (c8 &&& ((1 <<< (6 - count)) - 1)) <<< (6 * count)
      if char32IsValid c32 = false then .fail ps
      else ⟨{ ps.setUcs big c32 with count := -count },0,[],false⟩
  else
    let count := (-ps.count).toNat
    let c8 := c8 &&& 0x3f
    if count = 0 ∨ (ps.ucs big = 0 ∧ c8 < 0x80 >>> count) then .fail ps else
    let count := count - 1
    let c32 := ps.ucs big ||| (c8 <<< (6 * count))
    if char32IsValid c32 = false then .fail ps else
    let ps : Shared := { ps with count := -count }
    if count ≠ 0 then ⟨ps.setUcs big c32,0,[],false⟩ else wcrtomb s c32 ps

def c16rtomb (big s : Bool) (c16 : UInt16) (ps : Shared) : Emit :=
  let c16 := c16.toNat
  if ps.count = -1 then
    let ps : Shared := { ps with count := 0 }
    if char16IsLowSurrogate c16 then wcrtomb s (ps.ucs big ||| (c16 &&& 0x3ff)) ps
    else .fail ps
  else if char16IsHighSurrogate c16 then
    ⟨{ ps.setUcs big (((c16 &&& 0x3ff) <<< 10) + 0x10000) with count := -1 },0,[],false⟩
  else wcrtomb s c16 ps

structure Got (α : Type) where
  state : Shared
  ret : Int
  unit : Option α
  eilseq : Bool
  deriving DecidableEq, Repr

def mbrtoc32 (s : List UInt8) (n : Nat) (ps : Shared) : Got Nat :=
  let r := mbrtowc (some s) n ps.mb
  ⟨r.conv.state.shared,r.conv.ret,if r.conv.ret = -2 ∨ r.conv.ret = -1 then none else r.conv.wc,r.eilseq⟩

def unitCount (c32 : Nat) : Nat → Nat → Nat → Nat × Nat
  | 0, count, c8 => (count,c8)
  | fuel + 1, count, c8 =>
    if 1 <<< (6 * count + (6 - count)) ≤ c32 then unitCount c32 fuel (count + 1) (c8 ||| (1 <<< (6 - count)))
    else (count,c8)

def mbrtoc8 (big : Bool) (s : List UInt8) (n : Nat) (ps : Shared) : Got UInt8 :=
  if ps.count < 0 then
    let count := (-ps.count).toNat - 1
    ⟨{ ps with count := -count },-3,some (UInt8.ofNat (0x80 ||| ((ps.ucs big >>> (6 * count)) &&& 0x3f))),false⟩
  else
    let r := mbrtoc32 s n ps
    match r.unit with
    | none => ⟨r.state,r.ret,none,r.eilseq⟩
    | some c32 =>
      if 0x7f < c32 then
        let (count,c8) := unitCount c32 6 1 0xc0
        ⟨{ r.state.setUcs big c32 with count := -count },r.ret,
          some (UInt8.ofNat (c8 ||| (c32 >>> (6 * count)))),r.eilseq⟩
      else ⟨r.state,r.ret,some (UInt8.ofNat c32),r.eilseq⟩

def mbrtoc16 (big : Bool) (s : List UInt8) (n : Nat) (ps : Shared) : Got UInt16 :=
  if ps.count = -1 then
    ⟨{ ps.setUcs big 0 with count := 0 },-3,
      some (UInt16.ofNat ((ps.ucs big &&& 0x3ff) + lowSurrogateFirst)),false⟩
  else
    let r := mbrtowc (some s) n ps.mb
    let ps := r.conv.state.shared
    if r.conv.ret = -2 ∨ r.conv.ret = -1 then ⟨ps,r.conv.ret,none,r.eilseq⟩ else
    let wc := r.conv.wc.getD 0
    if 0x10000 ≤ wc then
      ⟨{ ps.setUcs big wc with count := -1 },r.conv.ret,
        some (UInt16.ofNat (((wc - 0x10000) >>> 10) + highSurrogateFirst)),r.eilseq⟩
    else ⟨ps,r.conv.ret,some (UInt16.ofNat wc),r.eilseq⟩

end Multibyte
