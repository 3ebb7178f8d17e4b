import Mathlib
import Picolibc.Printf.IntText

namespace Printf

structure DtoxKind where
  size : Nat
  expShift : Nat
  expMask : Nat
  sigShift : Nat
  sigMask : Nat
  sigMsb : Nat
  expBias : Nat
  ndigs : Nat
  deriving DecidableEq, Repr

def f64 : DtoxKind := ⟨64,52,0x7ff,0,0xfffffffffffff,0x10000000000000,1023,14⟩

def f32 : DtoxKind := ⟨32,23,0xff,1,0x7fffff,0x800000,127,7⟩

structure Dtoa where
  minus : Bool
  nan : Bool
  inf : Bool
  exp : Int
  digits : List UInt8
  deriving DecidableEq, Repr

structure FloatEngine where
  kind : DtoxKind
  maxDig : Nat
  decimal : Nat → Nat → Bool → Int → Dtoa × Nat
  stale : Nat → UInt8
  float64 : Bool
  large : Bool

def toCase (conv : Nat) (c : Char) : UInt8 := UInt8.ofNat (c.toNat - conv)

def dtoxDigit (conv dig : Nat) : UInt8 :=
  UInt8.ofNat ((if 9 < dig then dig + ('a'.toNat - conv) - 10 - '0'.toNat else dig) + '0'.toNat)

def dtoxLoop (conv : Nat) : Nat → Nat → Nat → List UInt8 × Nat
  | 0, _, prec => ([],prec)
  | d + 1, s, prec =>
    if s &&& 0xf = 0 ∧ prec < d then dtoxLoop conv d (s >>> 4) prec else
    let r := dtoxLoop conv d (s >>> 4) (if prec < d then d else prec)
    (r.1 ++ [dtoxDigit conv (s &&& 0xf)],r.2)

def dtoxRound (bits s : Nat) : Nat :=
  let half := 1 <<< (bits - 1)
  let rest := s % (half <<< 1)
  let s := if half < rest ∨ s >>> bits &&& 1 ≠ 0 then s + half else s
  s - s % (half <<< 1)

section

variable (k : DtoxKind)

def DtoxKind.exp (ufi : Nat) : Nat := ufi >>> k.expShift &&& k.expMask

def DtoxKind.sig (ufi : Nat) : Nat := (ufi &&& k.sigMask) <<< k.sigShift

def dtoxUnpack (ufi : Nat) : Int × Nat :=
  if k.sig ufi ≠ 0 ∨ k.exp ufi ≠ 0 then
    if k.exp ufi = 0 then (1 - k.expBias,k.sig ufi) else
    (k.exp ufi - k.expBias,k.sig ufi ||| k.sigMsb <<< k.sigShift)
  else (k.exp ufi,k.sig ufi)

def dtoxPrec (s : Nat) (prec : Int) : Nat × Nat :=
  if prec < 0 then (s,0) else
  if (k.ndigs : Int) - 1 ≤ prec then (s,k.ndigs - 1) else
  (dtoxRound ((k.ndigs - 1 - prec.toNat) <<< 2) s,prec.toNat)

def dtoxEngine (ufi : Nat) (prec : Int) (conv : Nat) : Dtoa × Nat :=
  let minus := decide (2 ^ (k.size - 1) ≤ ufi)
  if (k.sig ufi ≠ 0 ∨ k.exp ufi ≠ 0) ∧ k.exp ufi = k.expBias * 2 + 1 then
    (⟨minus,decide (k.sig ufi ≠ 0),decide (k.sig ufi = 0),0,[]⟩,0)
  else
    let r := dtoxPrec k (dtoxUnpack k ufi).2 prec
    let l := dtoxLoop conv k.ndigs r.1 r.2
    (⟨minus,false,false,(dtoxUnpack k ufi).1,l.1⟩,l.2)

end

def signChar (f : Flags) (minus : Bool) : List UInt8 :=
  if minus then [byte '-'] else if f.plus then [byte '+'] else if f.space then [byte ' '] else []

structure Style where
  letter : Char
  hex : Bool
  exp : Bool
  fix : Bool
  prec : Int
  ndigs : Nat
  ndigsExp : Nat

def trimZeros (digit : Nat → UInt8) : Nat → Nat
  | 0 => 0
  | n + 1 => if digit n = byte '0' then trimZeros digit n else n + 1

def general (f : Flags) (exp : Int) (digit : Nat → UInt8) (st : Style) : Style :=
  let prec := if st.prec = 0 then 1 else st.prec
  let ndigs := trimZeros digit st.ndigs
  let shown := if f.alt then prec else ndigs
  if -4 ≤ exp ∧ exp < prec then
    { st with fix := true, ndigs := ndigs, prec := if exp < shown then shown - (exp + 1) else 0 }
  else { st with ndigs := ndigs, prec := shown - 1 }

def expDigits : Nat → Nat → List UInt8
  | 0, exp => [UInt8.ofNat ('0'.toNat + exp)]
  | n + 1, exp => UInt8.ofNat (exp / 10 ^ (n + 1) + '0'.toNat) :: expDigits n (exp % 10 ^ (n + 1))

def fixDigits (digit : Int → UInt8) : Nat → Int → List UInt8
  | 0, n => if n = -1 then [byte '.',digit n] else [digit n]
  | k + 1, n => (if n = -1 then [byte '.',digit n] else [digit n]) ++ fixDigits digit k (n - 1)

def fixBody (alt : Bool) (exp : Int) (digit : Nat → UInt8) (st : Style) : List UInt8 :=
  let out := fun n : Int => if 0 ≤ exp - n ∧ exp - n < st.ndigs then digit (exp - n).toNat else byte '0'
  let top := if 0 < exp then exp else 0
  fixDigits out (top + st.prec).toNat top ++ if alt ∧ st.prec = 0 then [byte '.'] else []

def expBody (conv : Nat) (alt : Bool) (exp : Int) (digit : Nat → UInt8) (st : Style) : List UInt8 :=
  [digit 0] ++
    (if 0 < st.prec then
      byte '.' :: (List.range' 1 st.prec.toNat).map (fun pos => if pos < st.ndigs then digit pos else byte '0')
    else if alt then [byte '.'] else []) ++
    [toCase conv st.letter,if exp < 0 then byte '-' else byte '+'] ++ expDigits (st.ndigsExp - 1) exp.natAbs

def layoutLengths (alt : Bool) (exp : Int) (sign : List UInt8) (st : Style) : List Int :=
  let n : Int := if st.fix then if 0 < exp then exp + 1 else 1 else 3 + (if st.hex then 2 else 0) + st.ndigsExp
  let n := n + sign.length
  if st.prec ≠ 0 then [n,st.prec + 1,n + (st.prec + 1)] else [n,if alt then n + 1 else n]

def layoutLength (alt : Bool) (exp : Int) (sign : List UInt8) (st : Style) : Int :=
  (layoutLengths alt exp sign st).getLastD 0

def layoutFinite (f : Flags) (width : Int) (conv : Nat) (minus : Bool) (exp : Int) (digit : Nat → UInt8)
    (st : Style) : List UInt8 × Int :=
  let st := if st.exp || st.fix then st else general f exp digit st
  let sign := signChar f minus
  let n := layoutLength f.alt exp sign st
  let room := if n < width then width - n else 0
  ((if f.lpad || f.zfill then [] else List.replicate room.toNat (byte ' ')) ++ sign ++
      (if st.hex then [byte '0',toCase conv 'x'] else []) ++
      (if !f.lpad && f.zfill then List.replicate room.toNat (byte '0') else []) ++
      (if st.fix then fixBody f.alt exp digit st else expBody conv f.alt exp digit st),
    if f.lpad then room else 0)

def layoutSpecial (f : Flags) (width : Int) (conv : Nat) (d : Dtoa) : List UInt8 × Int :=
  let sign := signChar f d.minus
  let n : Int := if sign = [] then 3 else 4
  let room := if n < width then width - n else 0
  let pnt := if d.nan then ['n','a','n'] else ['i','n','f']
  ((if f.lpad then [] else List.replicate room.toNat (byte ' ')) ++ sign ++ pnt.map (toCase conv),
    if f.lpad then room else 0)

section

variable (e : FloatEngine)

def widen (exp : Int) (ndigsExp : Nat) : Nat :=
  let n := if exp < -9 ∨ 9 < exp then 2 else ndigsExp
  let n := if exp < -99 ∨ 99 < exp then 3 else n
  let n := if e.float64 ∧ (exp < -999 ∨ 999 < exp) then 4 else n
  if e.float64 ∧ e.large ∧ (exp < -9999 ∨ 9999 < exp) then 5 else n

def layoutFloat (f : Flags) (width : Int) (conv : Nat) (d : Dtoa) (st : Style) : List UInt8 × Int :=
  if d.nan || d.inf then layoutSpecial f width conv d else
  layoutFinite f width conv d.minus d.exp (fun i => d.digits.getD i (e.stale i))
    { st with ndigsExp := widen e d.exp st.ndigsExp }

def hexStyle (prec : Int) (shown : Nat) : Style :=
  let ndigs := (1 + shown) % 256
  ⟨'p',true,true,false,if prec ≤ ndigs then ndigs - 1 else prec,ndigs,1⟩

def hexFloat (f : Flags) (width prec : Int) (conv bits : Nat) : List UInt8 × Int :=
  let prec := if f.prec then prec else -1
  let r := dtoxEngine e.kind bits prec conv
  layoutFloat e f width conv r.1 (hexStyle prec r.2)

def hexInts (f : Flags) (width prec : Int) (conv bits : Nat) : List Int :=
  let prec := if f.prec then prec else -1
  let r := dtoxEngine e.kind bits prec conv
  let st := hexStyle prec r.2
  let l := layoutLengths f.alt r.1.exp (signChar f r.1.minus) { st with ndigsExp := widen e r.1.exp st.ndigsExp }
  l ++ [if l.getLastD 0 < width then width - l.getLastD 0 else 0]

def decimalFloat (f : Flags) (width prec : Int) (c conv bits : Nat) : List UInt8 × Int :=
  let prec := if f.prec then prec else 6
  if c = 'e'.toNat then
    let r := e.decimal bits (min (wrapU 8 (prec + 1)) e.maxDig) false 0
    layoutFloat e f width conv r.1 ⟨'e',false,true,false,prec,r.2 % 256,2⟩
  else if c = 'f'.toNat then
    let r := e.decimal bits (min (e.maxDig % 256) e.maxDig) true prec
    layoutFloat e f width conv r.1 ⟨'f',false,false,true,prec,r.2 % 256,2⟩
  else
    let ndigs := wrapU 8 prec
    let ndigs := if ndigs < 1 then 1 else ndigs
    let r := e.decimal bits (min ndigs e.maxDig) false 0
    layoutFloat e f width conv r.1 ⟨'e',false,false,false,prec,r.2 % 256,2⟩

def floatText (b : Build) (long : FloatText) : FloatText := fun f width prec c bits =>
  if b.longDouble ∧ f.long ∧ f.repd then long f width prec c bits else
  let conv := lower c - c.toNat
  if b.c99 ∧ lower c = 'a'.toNat then hexFloat e f width prec conv bits else
  decimalFloat e f width prec (lower c) conv bits

end

end Printf
