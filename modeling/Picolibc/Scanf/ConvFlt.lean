import Mathlib
import Picolibc.Lib.Ascii
import Picolibc.Scanf.HexAssembly

open Ascii

namespace Scanf

structure Source (σ : Type) where
  getc : σ → Option UInt8 × σ
  ungetc : Option UInt8 → σ → σ

inductive Build where
  | strtod
  | strtof
  | vfscanf (long : Bool)
  | fvfscanf
  deriving DecidableEq, Repr

namespace Build

def kind : Build → FltKind
  | .strtod | .vfscanf _ => double
  | .strtof | .fvfscanf => float

def strto : Build → Bool
  | .strtod | .strtof => true
  | .vfscanf _ | .fvfscanf => false

def long : Build → Bool
  | .strtod => true
  | .vfscanf long => long
  | .strtof | .fvfscanf => false

variable (b : Build)

def target : Target := if b.long then double.target else float.target

def digits (hex : Bool) : Nat :=
  match hex, b.long with
  | false, true => 16
  | false, false => 8
  | true, true => 15
  | true, false => 7

def maxPossibleExp : Nat := b.kind.maxExp.toNat + b.kind.mantDig * 4

theorem wide : 4 ≤ b.kind.uintBits := by
  cases b <;> simp [kind,double,float]

def checkWidth (width : BitVec 32) : Bool × BitVec 32 := if b.strto then (true,width) else (width - 1 ≠ 0,width - 1)

end Build

theorem toLower_toNat (c : UInt8) :
    (toLower c).toNat = if c.toNat / 32 % 2 = 1 then c.toNat else c.toNat + 32 := by
  rw [toLower,UInt8.toNat_or]
  exact BinaryFormat.or_pow c.toNat 5

def isalpha (c : UInt8) : Bool := 0x61 ≤ toLower c && toLower c ≤ 0x7a

def isalnum (c : UInt8) : Bool := isdigit c || isalpha c

inductive Front where
  | nan
  | inf
  | zero
  | hex (uint : Nat) (exp : ℤ) (overflow : Nat)
  | dec (uint uintdigits : Nat) (exp : ℤ) (overflow : Nat)
  deriving DecidableEq, Repr

structure Reading (σ : Type) where
  value : Option (Bool × Front)
  stream : σ
  deriving DecidableEq, Repr

structure Acc where
  uint : Nat
  uintdigits : Nat
  overflow : Nat
  exp : ℤ
  any : Bool
  two : Bool
  dot : Bool
  ovfl : Bool
  fhex : Bool
  deriving DecidableEq, Repr

namespace Acc

def start : Acc := ⟨0,0,0,0,false,false,false,false,false⟩

variable (b : Build) (a : Acc)

def base : Nat := if a.fhex then 16 else 10

def digitVal (i : UInt8) : UInt8 := if a.fhex ∧ toLower i - 0x61 ≤ 5 then toLower i - 0x61 + 10 else i - 0x30

def isFull : Bool := !a.ovfl && decide (b.digits a.fhex < a.uintdigits)

def half (c : Nat) : Nat := if a.isFull b ∧ a.base = 10 ∧ 5 ≤ c then 2 else a.overflow

def tail (c : Nat) : Nat := if a.isFull b ∧ a.base = 10 ∧ c = 5 then 0 else c

def drop (c : Nat) : Acc :=
  { a with
    two := a.two || a.any
    any := true
    ovfl := true
    overflow := a.half b c ||| (if a.tail b c ≠ 0 then 1 else 0)
    exp := if a.dot then a.exp else a.exp + 1 }

def keep (c : Nat) : Acc :=
  let uint := (a.uint * a.base + c) % 2 ^ b.kind.uintBits
  { a with
    two := a.two || a.any
    any := true
    exp := if a.dot then a.exp - 1 else a.exp
    uint := uint
    uintdigits := if uint ≠ 0 then a.uintdigits + 1 else a.uintdigits }

def addDigit (c : Nat) : Acc := if a.ovfl || a.isFull b then a.drop b c else a.keep b c

def setDot : Acc := { a with dot := true }

def setHex : Acc := { a with fhex := true, any := false, two := false }

def step : Option UInt8 → Option Acc
  | none => none
  | some i =>
    if (a.digitVal i).toNat < a.base then some (a.addDigit b (a.digitVal i).toNat) else
    if i = 0x2e ∧ a.dot = false then some a.setDot else
    if toLower i = 0x78 ∧ a.any = true ∧ a.two = false ∧ a.fhex = false ∧ a.uint = 0 then some a.setHex else none

def expMatch : UInt8 := if a.fhex then 0x70 else 0x65

def scaledExp : ℤ := if a.fhex then a.exp * 4 else a.exp

end Acc

variable {σ : Type} (b : Build) (src : Source σ)

def pstrNfinity : List UInt8 := [0x6e,0x66,0x69,0x6e,0x69,0x74,0x79]

def pstrAn : List UInt8 := [0x61,0x6e]

def operatePstr : List UInt8 → BitVec 32 → σ → Option (BitVec 32) × σ
  | [], width, s => (some width,s)
  | c :: p, width, s =>
    let mismatch := fun (width : BitVec 32) (s : σ) => (if p = pstrNfinity.drop 3 then some width else none,s)
    let w := b.checkWidth width
    if w.1 = false then mismatch w.2 s else
    let i := src.getc s
    if i.1 = none then mismatch w.2 i.2 else
    if i.1.map toLower = some c then operatePstr p w.2 i.2 else
    mismatch w.2 (src.ungetc i.1 i.2)

def nanChars : Nat → Option UInt8 → BitVec 32 → σ → Option (Option UInt8 × σ)
  | 0, _, _, _ => none
  | fuel + 1, i, width, s =>
    let w := b.checkWidth width
    if w.1 = false then some (i,s) else
    let r := src.getc s
    if r.1 ≠ some 0x29 ∧ r.1.any (fun c => isalnum c || c = 0x5f) = true then nanChars fuel r.1 w.2 r.2
    else some r

def nanSuffix (fuel : Nat) (width : BitVec 32) (s : σ) : Option (Bool × σ) :=
  let w := b.checkWidth width
  if w.1 = false then some (true,s) else
  let i := src.getc s
  if i.1 = some 0x28 then (nanChars b src fuel i.1 w.2 i.2).map fun r => (r.1 = some 0x29,r.2)
  else some (true,src.ungetc i.1 i.2)

def scanDigits : Nat → Acc → Option UInt8 → BitVec 32 → σ → Option (Acc × Option UInt8 × BitVec 32 × σ)
  | 0, _, _, _, _ => none
  | fuel + 1, a, i, width, s =>
    match a.step b i with
    | none => some (a,i,width,s)
    | some a =>
      let w := b.checkWidth width
      if w.1 = false then some (a,i,w.2,s) else
      let r := src.getc s
      if r.1 = none then some (a,r.1,w.2,r.2) else scanDigits fuel a r.1 w.2 r.2

def accumulate (expacc : Nat) (i : UInt8) : Nat :=
  if expacc < b.maxPossibleExp then expacc * 10 + (i - 0x30).toNat else expacc

def scanExp : Nat → Nat → UInt8 → BitVec 32 → σ → Option (Nat × Option UInt8 × BitVec 32 × σ)
  | 0, _, _, _, _ => none
  | fuel + 1, expacc, i, width, s =>
    let expacc := accumulate b expacc i
    let w := b.checkWidth width
    if w.1 = false then some (expacc,some i,w.2,s) else
    let r := src.getc s
    match r.1 with
    | none => some (expacc,none,w.2,r.2)
    | some i => if isdigit i then scanExp fuel expacc i w.2 r.2 else some (expacc,some i,w.2,r.2)

def front (a : Acc) (exp : ℤ) : Front :=
  if a.uint = 0 then .zero else
  if a.fhex then .hex a.uint exp a.overflow else .dec a.uint a.uintdigits exp a.overflow

def noExp (minus : Bool) (a : Acc) (exp : ℤ) (i : Option UInt8) (width : BitVec 32) (s : σ) : Reading σ :=
  ⟨some (minus,front a exp),if width ≠ 0 then src.ungetc i s else s⟩

def signExp (esign : Option UInt8) (expacc : Nat) : ℤ := if esign = some 0x2d then -expacc else expacc

def exponentDigits (fuel : Nat) (minus : Bool) (a : Acc) (exp : ℤ) (i esign edig : Option UInt8) (width : BitVec 32)
    (s : σ) : Option (Reading σ) :=
  let backOut := fun (s : σ) => noExp src minus a exp i width (if esign.isSome then src.ungetc esign s else s)
  match edig with
  | none => some (backOut (src.ungetc edig s))
  | some d =>
    if isdigit d then
      (scanExp b src fuel 0 d width s).map fun r =>
        noExp src minus a (exp + signExp esign r.1) r.2.1 r.2.2.1 r.2.2.2
    else some (backOut (src.ungetc edig s))

def exponent (fuel : Nat) (minus : Bool) (a : Acc) (exp : ℤ) (i : Option UInt8) (width : BitVec 32) (s : σ) :
    Option (Reading σ) :=
  let w := b.checkWidth width
  if w.1 = false then some (noExp src minus a exp i w.2 s) else
  let r := src.getc s
  if r.1 = some 0x2d ∨ r.1 = some 0x2b then
    let w := b.checkWidth w.2
    if w.1 = false then some (noExp src minus a exp i w.2 (src.ungetc r.1 r.2)) else
    let d := src.getc r.2
    exponentDigits b src fuel minus a exp i r.1 d.1 w.2 d.2
  else exponentDigits b src fuel minus a exp i none r.1 w.2 r.2

def matchExp (fuel : Nat) (minus : Bool) (a : Acc) (i : Option UInt8) (width : BitVec 32) (s : σ) : Option (Reading σ) :=
  if i.map toLower = some a.expMatch then exponent b src fuel minus a a.scaledExp i width s
  else some (noExp src minus a a.scaledExp i width s)

def number (fuel : Nat) (minus : Bool) (i : Option UInt8) (width : BitVec 32) (s : σ) : Option (Reading σ) :=
  (scanDigits b src fuel Acc.start i width s).bind fun r =>
    if r.1.any = false ∧ r.1.fhex = false then some ⟨none,src.ungetc r.2.1 r.2.2.2⟩ else
    if r.1.any = false ∧ b.strto = true then
      let back := src.getc (src.ungetc r.2.1 (src.ungetc r.2.1 r.2.2.2))
      matchExp b src fuel minus r.1 back.1 r.2.2.1 back.2
    else matchExp b src fuel minus r.1 r.2.1 r.2.2.1 r.2.2.2

def subject (fuel : Nat) (minus : Bool) (i : Option UInt8) (width : BitVec 32) (s : σ) : Option (Reading σ) :=
  if i.map toLower = some 0x6e then
    let r := operatePstr b src pstrAn width s
    match r.1 with
    | none => some ⟨none,r.2⟩
    | some width =>
      (nanSuffix b src fuel width r.2).map fun r => ⟨if r.1 then some (minus,.nan) else none,r.2⟩
  else if i.map toLower = some 0x69 then
    let r := operatePstr b src pstrNfinity width s
    some ⟨r.1.map fun _ => (minus,.inf),r.2⟩
  else number b src fuel minus i width s

def convFlt (fuel : Nat) (width : BitVec 32) (s : σ) : Option (Reading σ) :=
  let i := src.getc s
  if i.1 = some 0x2d ∨ i.1 = some 0x2b then
    let w := b.checkWidth width
    if w.1 = false then some ⟨none,i.2⟩ else
    let r := src.getc i.2
    if r.1 = none then some ⟨none,r.2⟩ else subject b src fuel (i.1 = some 0x2d) r.1 w.2 r.2
  else subject b src fuel false i.1 width i.2

end Scanf
