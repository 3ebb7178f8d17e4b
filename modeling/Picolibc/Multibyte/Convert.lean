import Mathlib
import Picolibc.Lib.Ascii

namespace Multibyte

open Ascii

structure Mbstate where
  count : Nat
  b0 : UInt8
  b1 : UInt8
  b2 : UInt8
  b3 : UInt8
  deriving DecidableEq, Repr

def Mbstate.initial : Mbstate := ⟨0,0,0,0,0⟩

structure Conv where
  state : Mbstate
  ret : Int
  wc : Option Nat
  deriving DecidableEq, Repr

def sizeMax : Nat := 2 ^ 64 - 1

def bump (n : Nat) : Nat := if n < sizeMax then n + 1 else n

def notTail (ch : UInt8) : Prop := ch.toNat < 0x80 ∨ 0xbf < ch.toNat

instance (ch : UInt8) : Decidable (notTail ch) := inferInstanceAs (Decidable (_ ∨ _))

def twoByte (s : List UInt8) (n : Nat) (st : Mbstate) (ch : UInt8) (i : Nat) : Conv :=
  let st := { st with b0 := ch }
  let n := if st.count = 0 then n else bump n
  let st := if st.count = 0 then { st with count := 1 } else st
  if n < 2 then ⟨st,-2,none⟩ else
  let ch := charAt s i
  if notTail ch then ⟨st,-1,none⟩ else
  if st.b0.toNat < 0xc2 then ⟨st,-1,none⟩ else
  ⟨{ st with count := 0 },i + 1,some (((st.b0.toNat &&& 0x1f) <<< 6) ||| (ch.toNat &&& 0x3f))⟩

def threeByte (s : List UInt8) (n : Nat) (st : Mbstate) (ch : UInt8) (i : Nat) : Conv :=
  let st := { st with b0 := ch }
  let n := if st.count = 0 then n else bump n
  let st := if st.count = 0 then { st with count := 1 } else st
  if n < 2 then ⟨st,-2,none⟩ else
  let ch := if st.count = 1 then charAt s i else st.b1
  let i := if st.count = 1 then i + 1 else i
  if st.b0.toNat = 0xe0 ∧ ch.toNat < 0xa0 then ⟨st,-1,none⟩ else
  if notTail ch then ⟨st,-1,none⟩ else
  let st := { st with b1 := ch }
  let n := if st.count = 1 then n else bump n
  let st := if st.count = 1 then { st with count := 2 } else st
  if n < 3 then ⟨st,-2,none⟩ else
  let ch := charAt s i
  if notTail ch then ⟨st,-1,none⟩ else
  let st := { st with count := 0 }
  let tmp := ((st.b0.toNat &&& 0x0f) <<< 12) ||| ((st.b1.toNat &&& 0x3f) <<< 6) ||| (ch.toNat &&& 0x3f)
  if 0xd800 ≤ tmp ∧ tmp ≤ 0xdfff then ⟨st,-1,none⟩ else
  ⟨st,i + 1,some tmp⟩

def fourByte (s : List UInt8) (n : Nat) (st : Mbstate) (ch : UInt8) (i : Nat) : Conv :=
  let st := { st with b0 := ch }
  let n := if st.count = 0 then n else bump n
  let st := if st.count = 0 then { st with count := 1 } else st
  if n < 2 then ⟨st,-2,none⟩ else
  let ch := if st.count = 1 then charAt s i else st.b1
  let i := if st.count = 1 then i + 1 else i
  if (st.b0.toNat = 0xf0 ∧ ch.toNat < 0x90) ∨ (st.b0.toNat = 0xf4 ∧ 0x90 ≤ ch.toNat) then
    ⟨st,-1,none⟩ else
  if notTail ch then ⟨st,-1,none⟩ else
  let st := { st with b1 := ch }
  let n := if st.count = 1 then n else bump n
  let st := if st.count = 1 then { st with count := 2 } else st
  if n < 3 then ⟨st,-2,none⟩ else
  let ch := if st.count = 2 then charAt s i else st.b2
  let i := if st.count = 2 then i + 1 else i
  if notTail ch then ⟨st,-1,none⟩ else
  let st := { st with b2 := ch }
  let n := if st.count = 2 then n else bump n
  let st := if st.count = 2 then { st with count := 3 } else st
  if n < 4 then ⟨st,-2,none⟩ else
  let ch := charAt s i
  if notTail ch then ⟨st,-1,none⟩ else
  let tmp := ((st.b0.toNat &&& 0x07) <<< 18) ||| ((st.b1.toNat &&& 0x3f) <<< 12) |||
    ((st.b2.toNat &&& 0x3f) <<< 6) ||| (ch.toNat &&& 0x3f)
  ⟨{ st with count := 0 },i + 1,some tmp⟩

def utf8Mbtowc (s : List UInt8) (n : Nat) (st : Mbstate) : Conv :=
  if n = 0 then ⟨st,-2,none⟩ else
  let ch := if st.count = 0 then charAt s 0 else st.b0
  let i := if st.count = 0 then 1 else 0
  if ch.toNat = 0 then ⟨{ st with count := 0 },0,some 0⟩ else
  if ch.toNat ≤ 0x7f then ⟨{ st with count := 0 },1,some ch.toNat⟩ else
  if 0xc0 ≤ ch.toNat ∧ ch.toNat ≤ 0xdf then
    if ch.toNat = 0xc0 then ⟨st,-1,none⟩ else twoByte s n st ch i
  else if 0xe0 ≤ ch.toNat ∧ ch.toNat ≤ 0xef then threeByte s n st ch i
  else if 0xf0 ≤ ch.toNat ∧ ch.toNat ≤ 0xf4 then fourByte s n st ch i
  else ⟨st,-1,none⟩

structure Result where
  conv : Conv
  eilseq : Bool
  deriving DecidableEq, Repr

def mbrtowc (s : Option (List UInt8)) (n : Nat) (ps : Mbstate) : Result :=
  let r : Conv := match s with
    | some s => utf8Mbtowc s n ps
    | none => { utf8Mbtowc [0] 1 ps with wc := none }
  if r.ret = -1 then ⟨{ r with state := { r.state with count := 0 } },true⟩ else ⟨r,false⟩

def utf8Wctomb (wchar : Nat) : Option (List UInt8) :=
  if wchar ≤ 0x7f then some [UInt8.ofNat wchar] else
  if 0x80 ≤ wchar ∧ wchar ≤ 0x7ff then
    some [UInt8.ofNat (0xc0 ||| ((wchar &&& 0x7c0) >>> 6)),UInt8.ofNat (0x80 ||| (wchar &&& 0x3f))] else
  if 0x800 ≤ wchar ∧ wchar ≤ 0xffff then
    if 0xd800 ≤ wchar ∧ wchar ≤ 0xdfff then none else
    some [UInt8.ofNat (0xe0 ||| ((wchar &&& 0xf000) >>> 12)),
      UInt8.ofNat (0x80 ||| ((wchar &&& 0xfc0) >>> 6)),UInt8.ofNat (0x80 ||| (wchar &&& 0x3f))] else
  if 0x10000 ≤ wchar ∧ wchar ≤ 0x10ffff then
    some [UInt8.ofNat (0xf0 ||| ((wchar &&& 0x1c0000) >>> 18)),
      UInt8.ofNat (0x80 ||| ((wchar &&& 0x3f000) >>> 12)),
      UInt8.ofNat (0x80 ||| ((wchar &&& 0xfc0) >>> 6)),UInt8.ofNat (0x80 ||| (wchar &&& 0x3f))] else
  none

end Multibyte
