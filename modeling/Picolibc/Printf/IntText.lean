import Mathlib
import Picolibc.Printf.Minimal

open Numerals

namespace Printf

structure Field where
  left : Bool
  zero : Bool
  columns : Nat
  digits : Option Nat
  deriving DecidableEq, Repr

def Field.room (F : Field) (text : List UInt8) : Nat := F.columns - text.length

def Field.numeral (F : Field) (ds : List UInt8) : List UInt8 :=
  List.replicate (F.digits.getD 1 - ds.length) (byte '0') ++ ds

def Field.text (F : Field) (sign body : List UInt8) : List UInt8 :=
  if F.left then sign ++ body ++ List.replicate (F.room (sign ++ body)) (byte ' ') else
  if F.zero ∧ F.digits = none then sign ++ List.replicate (F.room (sign ++ body)) (byte '0') ++ body else
  List.replicate (F.room (sign ++ body)) (byte ' ') ++ sign ++ body

def Width.value (x : Int) : Width Unit → Int
  | none => 0
  | lit w => (w : Nat)
  | star _ => x

def Prec.value (y : Int) : Prec Unit → Option Int
  | none => .none
  | lit ds => some (horner 10 0 (ds.map Fin.val))
  | star _ => some y

def Conv.field (v : Conv Unit) (x y : Int) : Field where
  left := decide (Flag.minus ∈ v.flags) || decide (v.width.value x < 0)
  zero := decide (Flag.zero ∈ v.flags)
  columns := (v.width.value x).natAbs
  digits := (v.prec.value y).bind (fun p => if p < 0 then none else some p.toNat)

def digitText (upper : Bool) (d : Nat) : UInt8 :=
  if d < 10 then UInt8.ofNat ('0'.toNat + d) else
  UInt8.ofNat ((if upper then 'A'.toNat else 'a'.toNat) + (d - 10))

def numeralText (upper : Bool) (base x : Nat) : List UInt8 := (Nat.digits base x).reverse.map (digitText upper)

def Len.bits (b : Build) : Len → Nat
  | none => b.intBits
  | hh => 8
  | h => b.shortBits
  | l => b.longBits
  | ll => b.llongBits
  | L => b.llongBits
  | j => b.intmaxBits
  | z => b.sizeBits
  | t => b.ptrdiffBits

def signText (fs : List Flag) (x : Int) : List UInt8 :=
  if x < 0 then [byte '-'] else
  if Flag.plus ∈ fs then [byte '+'] else
  if Flag.space ∈ fs then [byte ' '] else
  []

def hexText (fs : List Flag) (c : Char) (x : Nat) : List UInt8 :=
  if Flag.alt ∈ fs ∧ x ≠ 0 then [byte '0',byte c] else []

def Conv.leadText (b : Build) (v : Conv Unit) (a : Int) : List UInt8 :=
  match v.letter with
  | .d => signText v.flags (wrapS (v.len.bits b) a)
  | .i => signText v.flags (wrapS (v.len.bits b) a)
  | .x => hexText v.flags 'x' (wrapU (v.len.bits b) a)
  | .X => hexText v.flags 'X' (wrapU (v.len.bits b) a)
  | _ => []

def Conv.digitsText (b : Build) (v : Conv Unit) (a : Int) : List UInt8 :=
  match v.letter with
  | .d => numeralText false 10 (wrapS (v.len.bits b) a).natAbs
  | .i => numeralText false 10 (wrapS (v.len.bits b) a).natAbs
  | .x => numeralText false 16 (wrapU (v.len.bits b) a)
  | .X => numeralText true 16 (wrapU (v.len.bits b) a)
  | .o => numeralText false 8 (wrapU (v.len.bits b) a)
  | _ => numeralText false 10 (wrapU (v.len.bits b) a)

def Conv.cText (b : Build) (v : Conv Unit) (x y a : Int) : List UInt8 :=
  (v.field x y).text (v.leadText b a) ((v.field x y).numeral (v.digitsText b a))

def signedParts (b : Build) (f : Flags) (prec a : Int) : Flags × List UInt8 :=
  let x := argToSigned b f a
  let neg := decide (x < 0)
  let x := if x < 0 then wrapS (ultoaBits b) (wrapU (ultoaBits b) (-wrapU (ultoaBits b) x)) else x
  ({ f with negative := f.negative || neg, alt := false },
    if b.shrink = false ∧ x = 0 ∧ f.prec ∧ prec = 0 then [] else ultoaInvert b (wrapU (ultoaBits b) x) 10)

def unsignedParts (b : Build) (f : Flags) (prec : Int) (base : Nat) (a : Int) : Flags × List UInt8 :=
  let x := argToUnsigned b f a
  let f := if x = 0 then { f with alt := false } else f
  (f,if b.shrink = false ∧ x = 0 ∧ f.prec ∧ prec = 0 then [] else ultoaInvert b x base)

def layoutInts (f : Flags) (width prec : Int) (c : Char) (buf : List UInt8) : List Int :=
  let bufLen : Int := buf.length
  let f := if f.prec then { f with zfill := false } else f
  let short := f.prec && decide (bufLen < prec)
  let len := if short then prec else bufLen
  let f := if short && decide (c = nul) then { f with alt := false } else f
  let lens := (List.range ((lead f c).length + 1)).map (fun k : Nat => len + k)
  let len := len + (lead f c).length
  let zeros := !f.lpad && f.zfill
  let prec := if zeros then bufLen + (if len < width then width - len else 0) else prec
  let len := if zeros && decide (len < width) then width else len
  let len := if f.lpad then len else max len width
  lens ++ [prec,len,width - len]

def Conv.parts (b : Build) (v : Conv Unit) (x y a : Int) : Flags × List UInt8 :=
  let sp := (v.spec b x y 0).adjust b
  let c := v.letter.char
  if c = 'd' ∨ c = 'i' then signedParts b sp.flags sp.prec a else
  unsignedParts b (unsignedFlags b sp.flags c) sp.prec (unsignedBase c) a

def Letter.mark (l : Letter) : Char := if l.char = 'd' ∨ l.char = 'i' then l.char else unsignedLetter l.char

def Conv.ints (b : Build) (v : Conv Unit) (x y a : Int) : List Int :=
  let sp := (v.spec b x y 0).adjust b
  layoutInts (v.parts b x y a).1 sp.width sp.prec v.letter.mark (v.parts b x y a).2

def InInt (b : Build) (n : Int) : Prop := -2 ^ (b.intBits - 1) ≤ n ∧ n < 2 ^ (b.intBits - 1)

structure Build.Full (b : Build) : Prop where
  full : b.shrink = false
  target : b.Target
  c99 : b.c99 = true
  whole : ultoaBits b = b.llongBits
  intmax : b.intmaxBits ∈ [b.intBits,b.longBits,b.llongBits,b.shortBits]
  size : b.sizeBits ∈ [b.intBits,b.longBits,b.llongBits,b.shortBits]
  ptrdiff : b.ptrdiffBits ∈ [b.intBits,b.longBits,b.llongBits,b.shortBits]
  room : b.llongBits + 2 < 2 ^ (b.intBits - 1)

section

variable {b : Build} {ft : FloatText}

theorem setFlags_full (hb : b.shrink = false) (fs : List Flag) (f : Flags) :
    setFlags b f fs = { f with
      zfill := f.zfill || decide (Flag.zero ∈ fs)
      plus := f.plus || decide (Flag.plus ∈ fs)
      space := f.space || (decide (Flag.plus ∈ fs) || decide (Flag.space ∈ fs))
      lpad := f.lpad || decide (Flag.minus ∈ fs)
      alt := f.alt || decide (Flag.alt ∈ fs) } := by
  induction fs generalizing f with
  | nil => simp [setFlags]
  | cons g fs ih =>
    have hstep : setFlags b f (g :: fs) = setFlags b (setFlag b f g.char) fs := rfl
    rw [hstep,ih]
    cases g <;> simp [setFlag,Flag.char,hb]

theorem checkIntSize_eq (bits : Nat) {f : Flags} (hl : f.long = false) (hs : f.short = false) (hr : f.repd = false) :
    checkIntSize b bits f = { f with
      long := (checkIntSize b bits .zero).long
      short := (checkIntSize b bits .zero).short
      repd := (checkIntSize b bits .zero).repd } := by
  obtain ⟨zfill,plus,space,lpad,alt,width,prec,long,short,repd,negative⟩ := f
  obtain rfl : long = false := hl
  obtain rfl : short = false := hs
  obtain rfl : repd = false := hr
  unfold checkIntSize
  split_ifs <;> rfl

theorem lenFlags_eq (hb : b.c99 = true) {f : Flags} (hf : f.belowLong = true) (m : Len) :
    lenFlags b m f = { f with
      long := (lenFlags b m .zero).long
      short := (lenFlags b m .zero).short
      repd := (lenFlags b m .zero).repd } := by
  simp only [Flags.belowLong,Bool.and_eq_true,Bool.not_eq_true'] at hf
  obtain ⟨⟨⟨hl,hs⟩,hr⟩,-⟩ := hf
  have hsize : ∀ bits, checkIntSize b bits f = { f with
      long := (checkIntSize b bits .zero).long
      short := (checkIntSize b bits .zero).short
      repd := (checkIntSize b bits .zero).repd } := fun bits => checkIntSize_eq bits hl hs hr
  cases m with
  | j => simpa [lenFlags,Len.chars,checkIntSizes,hb] using hsize b.intmaxBits
  | z => simpa [lenFlags,Len.chars,checkIntSizes,hb] using hsize b.sizeBits
  | t => simpa [lenFlags,Len.chars,checkIntSizes,hb] using hsize b.ptrdiffBits
  | none =>
    obtain ⟨zfill,plus,space,lpad,alt,width,prec,long,short,repd,negative⟩ := f
    obtain rfl : long = false := hl
    obtain rfl : short = false := hs
    obtain rfl : repd = false := hr
    rfl
  | _ => simp [lenFlags,Len.chars,checkIntSizes,hl,hs,hr,Flags.zero]

theorem wrapS_wrapS {w u : Nat} (h : w ≤ u) (v : Int) : wrapS w (wrapS u v) = wrapS w v :=
  Int.bmod_bmod_of_dvd (Nat.pow_dvd_pow 2 h)

theorem wrapU_wrapU {w u : Nat} (h : w ≤ u) (v : Int) : wrapU w (wrapU u v) = wrapU w v := by
  have hdvd : (2 : Int) ^ w ∣ 2 ^ u := pow_dvd_pow 2 h
  exact wrapU_congr ((wrapU_modEq u v).of_dvd hdvd)

structure Sized (f g : Flags) : Prop where
  long : f.long = g.long
  short : f.short = g.short
  repd : f.repd = g.repd

theorem arg_size (hb : b.Full) {bits : Nat} (hm : bits ∈ [b.intBits,b.longBits,b.llongBits,b.shortBits]) {f : Flags}
    (hf : Sized f (checkIntSize b bits .zero)) (v : Int) :
    argToSigned b f v = wrapS bits v ∧ argToUnsigned b f v = wrapU bits v := by
  obtain ⟨hl,hs,hr⟩ := hf
  simp only [List.mem_cons,List.not_mem_nil,or_false] at hm
  have hshort := hb.target.short_le
  unfold argToSigned argToUnsigned
  by_cases h₁ : bits = b.intBits
  · simp [checkIntSize,h₁,Flags.zero] at hl hs hr
    simp [hl,hs,h₁]
  by_cases h₂ : bits = b.longBits
  · rw [checkIntSize,if_neg h₁,if_pos h₂] at hl hr
    simp [hl,hr,h₂,Flags.zero]
  by_cases h₃ : bits = b.llongBits
  · rw [checkIntSize,if_neg h₁,if_neg h₂,if_pos h₃] at hl hr
    simp [hl,hr,h₃,hb.whole,wrapS_wrapS le_rfl,wrapU_wrapU le_rfl]
  have h₄ : bits = b.shortBits := by tauto
  rw [checkIntSize,if_neg h₁,if_neg h₂,if_neg h₃,if_pos h₄] at hl hs hr
  simp [hl,hs,hr,h₄,Flags.zero,wrapS_wrapS hshort,wrapU_wrapU hshort]

theorem arg_len (hb : b.Full) (m : Len) {f : Flags} (hf : Sized f (lenFlags b m .zero)) (v : Int) :
    argToSigned b f v = wrapS (m.bits b) v ∧ argToUnsigned b f v = wrapU (m.bits b) v := by
  have hshort := hb.target.short_le
  have hchar : 8 ≤ b.intBits := hb.target.char_le.trans hshort
  cases m with
  | j => exact arg_size hb hb.intmax (by simpa [lenFlags,Len.chars,checkIntSizes,hb.c99] using hf) v
  | z => exact arg_size hb hb.size (by simpa [lenFlags,Len.chars,checkIntSizes,hb.c99] using hf) v
  | t => exact arg_size hb hb.ptrdiff (by simpa [lenFlags,Len.chars,checkIntSizes,hb.c99] using hf) v
  | _ =>
    obtain ⟨hl,hs,hr⟩ := hf
    simp [lenFlags,Len.chars,checkIntSizes,Flags.zero] at hl hs hr
    simp [argToSigned,argToUnsigned,hl,hs,hr,Len.bits,hb.whole,wrapS_wrapS,wrapU_wrapU,hshort,hchar]

def Conv.given (v : Conv Unit) (x y : Int) : Flags where
  zfill := (v.field x y).zero
  plus := decide (Flag.plus ∈ v.flags)
  space := decide (Flag.plus ∈ v.flags) || decide (Flag.space ∈ v.flags)
  lpad := (v.field x y).left
  alt := decide (Flag.alt ∈ v.flags)
  width := decide (v.width ≠ .none)
  prec := (v.field x y).digits.isSome
  long := false
  short := false
  repd := false
  negative := false

theorem start_full (hb : b.shrink = false) (v : Conv Unit) : v.start b 0 =
    ⟨⟨decide (Flag.zero ∈ v.flags),decide (Flag.plus ∈ v.flags),
      decide (Flag.plus ∈ v.flags) || decide (Flag.space ∈ v.flags),decide (Flag.minus ∈ v.flags),
      decide (Flag.alt ∈ v.flags),false,false,false,false,false,false⟩,0,0,0⟩ := by
  rw [Conv.start,setFlags_full hb]
  simp [Flags.zero]

theorem apply_full (hb : b.shrink = false) (v : Conv Unit) (x y : Int) :
    v.prec.apply b (v.width.apply b (v.start b 0) x) y =
      ⟨⟨decide (Flag.zero ∈ v.flags),decide (Flag.plus ∈ v.flags),
        decide (Flag.plus ∈ v.flags) || decide (Flag.space ∈ v.flags),decide (Flag.minus ∈ v.flags),
        decide (Flag.alt ∈ v.flags),decide (v.width ≠ .none),(v.prec.value y).isSome,false,false,false,false⟩,
        v.width.value x,(v.prec.value y).getD 0,0⟩ := by
  rw [start_full hb]
  cases hw : v.width <;> cases hp : v.prec <;>
    simp [Width.apply,Prec.apply,Width.value,Prec.value,Spec.setWidth,Spec.setPrec,Spec.setStar,Spec.point,hb]

theorem adjust_full (hb : b.shrink = false) (f : Flags) (w p n : Int) : (⟨f,w,p,n⟩ : Spec).adjust b =
    ⟨{ f with prec := f.prec && decide (0 ≤ p), lpad := f.lpad || decide (w < 0) },(w.natAbs : Nat),(p.toNat : Nat),n⟩ := by
  unfold Spec.adjust
  rw [if_neg (by simp [hb])]
  by_cases h₁ : p < 0
  · rw [if_pos h₁,Int.toNat_of_nonpos h₁.le,decide_eq_false (not_le.mpr h₁)]
    by_cases h₂ : w < 0
    · rw [if_pos h₂,decide_eq_true h₂,Int.ofNat_natAbs_of_nonpos h₂.le]
      simp
    · rw [if_neg h₂,decide_eq_false h₂,Int.natAbs_of_nonneg (not_lt.mp h₂)]
      simp
  · rw [if_neg h₁,Int.toNat_of_nonneg (not_lt.mp h₁),decide_eq_true (not_lt.mp h₁)]
    by_cases h₂ : w < 0
    · rw [if_pos h₂,decide_eq_true h₂,Int.ofNat_natAbs_of_nonpos h₂.le]
      simp
    · rw [if_neg h₂,decide_eq_false h₂,Int.natAbs_of_nonneg (not_lt.mp h₂)]
      simp

theorem spec_adjust (hb : b.Full) (v : Conv Unit) (x y : Int) : (v.spec b x y 0).adjust b =
    ⟨lenFlags b v.len (v.given x y),(v.field x y).columns,((v.field x y).digits.getD 0 : Nat),0⟩ := by
  have hdigits : ((v.prec.value y).isSome && decide (0 ≤ (v.prec.value y).getD 0)) = (v.field x y).digits.isSome ∧
      ((v.prec.value y).getD 0).toNat = (v.field x y).digits.getD 0 := by
    unfold Conv.field
    cases v.prec.value y with
    | none => exact ⟨rfl,rfl⟩
    | some p =>
      by_cases hp : p < 0
      · simp [hp,Int.toNat_of_nonpos hp.le]
      · simp [hp,not_lt.mp hp]
  rw [Conv.spec,apply_full hb.full,adjust_full hb.full,lenFlags_eq hb.c99 (by rfl),
    lenFlags_eq hb.c99 (f := v.given x y) (by rfl)]
  simp only [hdigits.1,hdigits.2]
  rfl

theorem intBody_given (hb : b.shrink = false) {f g : Flags} (hprec : f.prec = true) (w : Int) {d n : Nat} (c : Char)
    (buf : List UInt8) (hn : n = max d buf.length)
    (hg : g = if buf.length < d ∧ c = nul then { f with alt := false } else f) :
    intBody b f w d c buf =
      (List.replicate (if f.lpad then 0 else (w - (n + (lead g c).length)).toNat) (byte ' ') ++ lead g c ++
        List.replicate (d - buf.length) (byte '0') ++ buf.reverse,
        w - (n + (lead g c).length) - (if f.lpad then 0 else (w - (n + (lead g c).length)).toNat : Nat)) := by
  have hzeros : ((d : Int) - buf.length).toNat = d - buf.length := by omega
  obtain ⟨zfill,plus,space,lpad,alt,width,prec,long,short,repd,negative⟩ := f
  obtain rfl : prec = true := hprec
  subst hg
  by_cases hshort : buf.length < d
  · have hmax : n = d := by omega
    by_cases hc : c = nul
    · subst hc
      simp [intBody,hb,hshort,hmax]
      exact ⟨rfl,rfl⟩
    · simp [intBody,hb,hshort,hmax,hc]
      exact ⟨rfl,rfl⟩
  · have hmax : n = buf.length := by omega
    simp [intBody,hb,hshort,hmax]
    exact ⟨rfl,rfl⟩

theorem intBody_field (hb : b.shrink = false) {F : Field} {f : Flags} (hleft : f.lpad = F.left)
    (hzero : f.zfill = F.zero) (hprec : f.prec = F.digits.isSome) (c : Char) (buf : List UInt8) :
    (intBody b f F.columns (F.digits.getD 0 : Nat) c buf).1 ++
      tail b (intBody b f F.columns (F.digits.getD 0 : Nat) c buf).2 =
        F.text (lead (if buf.length < F.digits.getD 0 ∧ c = nul then { f with alt := false } else f) c)
          (List.replicate (F.digits.getD 0 - buf.length) (byte '0') ++ buf.reverse) := by
  obtain ⟨left,zero,columns,digits⟩ := F
  simp only at hleft hzero hprec
  cases digits with
  | none =>
    simp only [Option.isSome_none] at hprec
    simp only [Option.getD_none,Nat.not_lt_zero,false_and,if_false]
    generalize hL : lead f c = L
    have hroom : ((columns : Int) - (buf.length + L.length)).toNat = columns - (L.length + buf.length) := by omega
    have hfill : ((columns : Int) - if (buf.length : Int) + L.length < columns then (columns : Int) else
        buf.length + L.length).toNat = 0 := by
      split_ifs <;> omega
    have hzeros : (if (buf.length : Int) + L.length < columns then (columns : Int) - (buf.length + L.length) else
        0).toNat = columns - (L.length + buf.length) := by
      split_ifs <;> omega
    cases left <;> cases zero <;>
      simp [intBody,tail,hb,hprec,hleft,hzero,Field.text,Field.room,hL,hroom,hfill,hzeros]
  | some d =>
    simp only [Option.isSome_some] at hprec
    simp only [Option.getD_some]
    generalize hg : (if buf.length < d ∧ c = nul then { f with alt := false } else f) = g
    rw [intBody_given hb hprec _ c buf rfl hg.symm]
    generalize lead g c = L
    have hlen : d - buf.length + buf.length = max d buf.length := by omega
    have hroom : ((columns : Int) - (max (d : Int) buf.length + L.length)).toNat =
        columns - (L.length + max d buf.length) := by
      omega
    cases left <;> simp [tail,hb,hleft,Field.text,Field.room,hlen,hroom]

def Radix (base : Nat) (upper : Bool) : Prop :=
  base = 10 ∧ upper = false ∨ base = 8 ∧ upper = false ∨ base = 16 ∧ upper = false ∨ base = 48 ∧ upper = true

theorem digit_text {base d : Nat} {upper : Bool} (h : Radix base upper) (hd : d < base % 32) :
    ultoaDigit base d = digitText upper d := by
  rcases h with ⟨rfl,rfl⟩ | ⟨rfl,rfl⟩ | ⟨rfl,rfl⟩ | ⟨rfl,rfl⟩ <;> norm_num at hd <;> interval_cases d <;> decide

theorem radix_two {base : Nat} {upper : Bool} (h : Radix base upper) : 2 ≤ base % 32 := by
  rcases h with ⟨rfl,rfl⟩ | ⟨rfl,rfl⟩ | ⟨rfl,rfl⟩ | ⟨rfl,rfl⟩ <;> norm_num

theorem numeral_reverse {base x : Nat} {upper : Bool} (h : Radix base upper) :
    ((Nat.digits (base % 32) x).map (ultoaDigit base)).reverse = numeralText upper (base % 32) x := by
  rw [numeralText,← List.map_reverse]
  refine List.map_congr_left (fun d hd => digit_text h ?_)
  exact Nat.digits_lt_base (radix_two h) (List.mem_reverse.mp hd)

theorem numeral_field {base x : Nat} {upper : Bool} (h : Radix base upper) (F : Field) {buf : List UInt8}
    (hbuf : buf = if x = 0 ∧ F.digits = some 0 then [] else (positional (base % 32) x).map (ultoaDigit base)) :
    List.replicate (F.digits.getD 0 - buf.length) (byte '0') ++ buf.reverse =
      F.numeral (numeralText upper (base % 32) x) := by
  unfold Field.numeral
  by_cases hx : x = 0
  · subst hx
    have hzero : ultoaDigit base 0 = byte '0' := by simp [ultoaDigit,byte]
    cases hd : F.digits with
    | none => simp [hbuf,hd,positional,numeralText,hzero]
    | some d =>
      cases d with
      | zero => simp [hbuf,hd,numeralText]
      | succ d => simp [hbuf,hd,positional,numeralText,hzero,List.replicate_succ']
  · have hpos : positional (base % 32) x = Nat.digits (base % 32) x := if_neg hx
    rw [if_neg (fun h => hx h.1),hpos] at hbuf
    rw [hbuf,numeral_reverse h,numeralText,List.length_map,List.length_map,List.length_reverse]
    have hlen : 0 < (Nat.digits (base % 32) x).length :=
      List.length_pos_of_ne_nil (Nat.digits_ne_nil_iff_ne_zero.mpr hx)
    cases F.digits with
    | none =>
      have h₁ : 0 - (Nat.digits (base % 32) x).length = 1 - (Nat.digits (base % 32) x).length := by omega
      rw [Option.getD_none,Option.getD_none,h₁]
    | some d => rfl

theorem ultoaBits_pos (hb : b.Target) : 0 < ultoaBits b := by
  have hbits := ultoaBits_ge hb
  have h₁ := hb.char_le
  have h₂ := hb.short_le
  have h₃ := hb.int_le
  omega

theorem buf_length (hb : b.Target) {base x : Nat} {upper : Bool} (h : Radix base upper) (hx : x < 2 ^ ultoaBits b) :
    ((positional (base % 32) x).map (ultoaDigit base)).length ≤ ultoaBits b := by
  have htwo := radix_two h
  rw [List.length_map,positional]
  split_ifs with hzero
  · exact ultoaBits_pos hb
  · refine (Nat.digits_length_le_iff htwo x).mpr (hx.trans_le ?_)
    exact Nat.pow_le_pow_left htwo _

structure Laid (F : Field) (f : Flags) : Prop where
  left : f.lpad = F.left
  zero : f.zfill = F.zero
  prec : f.prec = F.digits.isSome

theorem parts_empty {F : Field} {f : Flags} (hf : Laid F f) :
    (f.prec = true ∧ ((F.digits.getD 0 : Nat) : Int) = 0) ↔ F.digits = some 0 := by
  rw [hf.prec]
  cases F.digits <;> simp

theorem signedParts_eq (hb : b.Full) {F : Field} {f : Flags} (hf : Laid F f) (hneg : f.negative = false) (a : Int) :
    signedParts b f (F.digits.getD 0 : Nat) a =
      ({ f with negative := decide (argToSigned b f a < 0), alt := false },
        if (argToSigned b f a).natAbs = 0 ∧ F.digits = some 0 then [] else
          (positional 10 (argToSigned b f a).natAbs).map (ultoaDigit 10)) := by
  have hd := signed_digits hb.target f a
  have hzero : (if argToSigned b f a < 0 then wrapS (ultoaBits b)
      (wrapU (ultoaBits b) (-wrapU (ultoaBits b) (argToSigned b f a))) else argToSigned b f a) = 0 ↔
        (argToSigned b f a).natAbs = 0 := by
    have hmag := magnitude (ultoaBits_pos hb.target) (argToSigned_range hb.target f a)
    constructor
    · intro hx
      rw [hx] at hmag
      rw [← hmag]
      simp [wrapU]
    · intro hx
      have hval : argToSigned b f a = 0 := Int.natAbs_eq_zero.mp hx
      rw [hval]
      rfl
  simp only [signedParts,hzero,hb.full,true_and,parts_empty hf,hneg,Bool.false_or]
  rw [← hd]

theorem unsignedParts_eq (hb : b.Full) {F : Field} {f : Flags} (hf : Laid F f) {base : Nat} {upper : Bool}
    (h : Radix base upper) (a : Int) :
    unsignedParts b f (F.digits.getD 0 : Nat) base a =
      (if argToUnsigned b f a = 0 then { f with alt := false } else f,
        if argToUnsigned b f a = 0 ∧ F.digits = some 0 then [] else
          (positional (base % 32) (argToUnsigned b f a)).map (ultoaDigit base)) := by
  have hprec : (if argToUnsigned b f a = 0 then { f with alt := false } else f).prec = f.prec := by
    split_ifs <;> rfl
  rw [← ultoaInvert_digits hb.target (radix_two h) (argToUnsigned_lt hb.target f a)]
  simp only [unsignedParts,hprec,hb.full,true_and,parts_empty hf]

theorem body_text (hb : b.Full) {F : Field} {f : Flags} (hf : Laid F f) {c : Char} (hc : c ≠ nul) {base x : Nat}
    {upper : Bool} (h : Radix base upper) {buf : List UInt8}
    (hbuf : buf = if x = 0 ∧ F.digits = some 0 then [] else (positional (base % 32) x).map (ultoaDigit base)) :
    (intBody b f F.columns (F.digits.getD 0 : Nat) c buf).1 ++
      tail b (intBody b f F.columns (F.digits.getD 0 : Nat) c buf).2 =
        F.text (lead f c) (F.numeral (numeralText upper (base % 32) x)) := by
  rw [intBody_field hb.full hf.left hf.zero hf.prec,if_neg (fun hn => hc hn.2),numeral_field h F hbuf]

theorem intTy_given (hb : b.Full) (v : Conv Unit) (x y : Int) :
    intTy (lenFlags b v.len (v.given x y)) = intTy (lenFlags b v.len .zero) := by
  rw [lenFlags_eq hb.c99 (f := v.given x y) (by rfl)]
  rfl

theorem intTy_unsigned {c : Char} (hc : c ≠ 'p') (f : Flags) : intTy (unsignedFlags b f c) = intTy f := by
  unfold unsignedFlags
  rw [if_neg hc]
  split_ifs <;> rfl

def Letter.ints : List Letter := [.d,.i,.u,.o,.x,.X]

theorem argTy_int {v : Conv Unit} (hl : v.letter ∈ Letter.ints) : v.argTy b = intTy (lenFlags b v.len .zero) := by
  simp only [Letter.ints,List.mem_cons,List.not_mem_nil,or_false] at hl
  rcases hl with hl | hl | hl | hl | hl | hl <;> simp [Conv.argTy,hl,Letter.valueTy]

theorem letter_ints {l : Letter} (hl : l ∈ Letter.ints) :
    l.char = 'd' ∨ l.char = 'i' ∨ l ∈ [Letter.u,.o,.x,.X,.p] ∧ l.char ≠ 'p' := by
  simp only [Letter.ints,List.mem_cons,List.not_mem_nil,or_false] at hl
  rcases hl with rfl | rfl | rfl | rfl | rfl | rfl <;> decide

theorem convert_parts (hb : b.Full) {v : Conv Unit} (hl : v.letter ∈ Letter.ints) {args : List Arg} {i : Nat} {a : Arg}
    (ha : args[i]? = some a) (ht : a.ty = v.argTy b) (x y : Int) :
    convert b ft (v.spec b x y 0) v.letter.char ⟨args,i⟩ =
      .ok (closed b ⟨args,i⟩ (v.argTy b) (intBody b (v.parts b x y a.bits).1 (v.field x y).columns
        ((v.field x y).digits.getD 0 : Nat) v.letter.mark (v.parts b x y a.bits).2),⟨args,i + 1⟩) := by
  have hread : vaArg b (v.argTy b) ⟨args,i⟩ = .ok (a,⟨args,i + 1⟩) := vaArg_ok ha (by simp [readable,ht])
  have hty : v.argTy b = intTy ((v.spec b x y 0).adjust b).flags := by
    rw [spec_adjust hb,argTy_int hl]
    exact (intTy_given hb v x y).symm
  have hsigned : v.letter.char = 'd' ∨ v.letter.char = 'i' →
      convert b ft (v.spec b x y 0) v.letter.char ⟨args,i⟩ =
        .ok (closed b ⟨args,i⟩ (v.argTy b) (intBody b (v.parts b x y a.bits).1 (v.field x y).columns
          ((v.field x y).digits.getD 0 : Nat) v.letter.mark (v.parts b x y a.bits).2),⟨args,i + 1⟩) := by
    intro hc
    rw [hty] at hread ⊢
    rw [convert_signed hc hread,Letter.mark,if_pos hc,Conv.parts,if_pos hc,spec_adjust hb]
    rfl
  rcases letter_ints hl with hc | hc | ⟨hu,hp⟩
  · exact hsigned (.inl hc)
  · exact hsigned (.inr hc)
  · obtain ⟨hint,hd,hk,-,-⟩ := letter_unsigned hu b
    obtain ⟨hf,hc,hs⟩ := letter_int (b := b) hint
    rw [hty,← intTy_unsigned (b := b) hp] at hread ⊢
    rw [convert_unsigned hf hc hs hd hk hread,Letter.mark,if_neg hd,Conv.parts,if_neg hd,spec_adjust hb]
    rfl

theorem format_single {v : Conv Unit} (hm : v.len.known b = true) {args : List Arg}
    (hf : Fits b [.conv v] args) : ∃ a, args[v.starCount]? = some a ∧ a.ty = v.argTy b ∧
      ∀ o ap, convert b ft (v.spec b (intAt b args 0) (intAt b args v.width.stars.length) 0) v.letter.char
        ⟨args,v.starCount⟩ = .ok (o,ap) → o.failed = false →
          ∃ rs, format b ft (render [.conv v]) args = .ok ⟨o.text,rs,false⟩ := by
  have hhead : ∀ (k : Nat) (e : Unit × CTy), (v.mentions b)[k]? = some e →
      ∃ a : Arg, args[0 + k]? = some a ∧ a.ty = e.2 := by
    intro k e hk
    rw [Nat.zero_add]
    exact hf k e (by simpa [mentions,Piece.mentions] using hk)
  obtain ⟨hw,hp,a,ha,ht⟩ := fits_conv hhead
  rw [Nat.zero_add] at ha
  refine ⟨a,ha,ht,fun o ap hc ho => ?_⟩
  have hscan := @scan_conv b ft (render [.conv v]) [] v hm args 0 hw hp
  rw [Nat.zero_add,← Conv.starCount,convertThen,hc] at hscan
  have hformat : format b ft (render [.conv v]) args =
      scanFormat b ft (render [.conv v]) (.conv .init) (v.chars ++ []) ⟨args,0⟩ := scan_text_conv unit_plain v
  obtain ⟨text,rs,failed⟩ := o
  obtain rfl : failed = false := ho
  rw [hformat,hscan]
  simp [Output.andThen,scanFormat]

theorem given_laid (hb : b.Full) (v : Conv Unit) (x y : Int) : Laid (v.field x y) (lenFlags b v.len (v.given x y)) := by
  rw [lenFlags_eq hb.c99 (f := v.given x y) (by rfl)]
  exact ⟨rfl,rfl,rfl⟩

theorem given_sized (hb : b.Full) (v : Conv Unit) (x y : Int) :
    Sized (lenFlags b v.len (v.given x y)) (lenFlags b v.len .zero) := by
  rw [lenFlags_eq hb.c99 (f := v.given x y) (by rfl)]
  exact ⟨rfl,rfl,rfl⟩

theorem given_lead (hb : b.Full) (v : Conv Unit) (x y : Int) (c : Char) (neg : Bool) :
    lead { lenFlags b v.len (v.given x y) with negative := neg, alt := false } c =
      if neg then [byte '-'] else if Flag.plus ∈ v.flags then [byte '+'] else
        if Flag.space ∈ v.flags then [byte ' '] else [] := by
  rw [lenFlags_eq hb.c99 (f := v.given x y) (by rfl)]
  by_cases hplus : Flag.plus ∈ v.flags <;> simp [lead,Conv.given,hplus]

structure Decomposed (b : Build) (v : Conv Unit) (x y a : Int) (base : Nat) (upper : Bool) (n : Nat) : Prop where
  radix : Radix base upper
  laid : Laid (v.field x y) (v.parts b x y a).1
  buf : (v.parts b x y a).2 = if n = 0 ∧ (v.field x y).digits = some 0 then [] else
    (positional (base % 32) n).map (ultoaDigit base)
  digits : v.digitsText b a = numeralText upper (base % 32) n
  range : n < 2 ^ ultoaBits b

theorem signed_decomposed (hb : b.Full) {v : Conv Unit} (hl : v.letter = .d ∨ v.letter = .i) (x y a : Int) :
    Decomposed b v x y a 10 false (wrapS (v.len.bits b) a).natAbs ∧
      lead (v.parts b x y a).1 v.letter.mark = v.leadText b a := by
  have hc : v.letter.char = 'd' ∨ v.letter.char = 'i' := by
    rcases hl with hl | hl <;> simp [hl,Letter.char]
  have hneg : (lenFlags b v.len (v.given x y)).negative = false := by
    rw [lenFlags_eq hb.c99 (f := v.given x y) (by rfl)]
    rfl
  have hval := (arg_len hb v.len (given_sized hb v x y) a).1
  have hparts : v.parts b x y a =
      signedParts b (lenFlags b v.len (v.given x y)) ((v.field x y).digits.getD 0 : Nat) a := by
    rw [Conv.parts,if_pos hc,spec_adjust hb]
  rw [signedParts_eq hb (given_laid hb v x y) hneg,hval] at hparts
  have hrange : (wrapS (v.len.bits b) a).natAbs < 2 ^ ultoaBits b := by
    rw [← hval]
    exact natAbs_lt (ultoaBits_pos hb.target) (argToSigned_range hb.target _ a)
  refine ⟨⟨.inl ⟨rfl,rfl⟩,?_,?_,?_,hrange⟩,?_⟩
  · rw [hparts]
    obtain ⟨h₁,h₂,h₃⟩ := given_laid hb v x y
    exact ⟨h₁,h₂,h₃⟩
  · rw [hparts]
  · rcases hl with hl | hl <;> simp [Conv.digitsText,hl]
  · rw [hparts,given_lead hb]
    rcases hl with hl | hl <;> simp [Conv.leadText,hl,signText]

structure Unsigned (v : Conv Unit) (n : Nat) (g : Flags) : Prop where
  plus : g.plus = false
  space : g.space = false
  negative : g.negative = false
  alt : g.alt = decide (Flag.alt ∈ v.flags ∧ v.letter ≠ .u ∧ n ≠ 0)

theorem Unsigned.lead {v : Conv Unit} {n : Nat} {g : Flags} (h : Unsigned v n g) (c : Char) :
    Printf.lead g c = if g.alt then if c = nul then [byte '0'] else [byte '0',byte c] else [] := by
  simp [Printf.lead,h.plus,h.space,h.negative]

theorem unsignedFlags_laid {F : Field} {f : Flags} (h : Laid F f) (c : Char) : Laid F (unsignedFlags b f c) := by
  obtain ⟨h₁,h₂,h₃⟩ := h
  unfold unsignedFlags
  split_ifs <;> exact ⟨h₁,h₂,h₃⟩

theorem unsignedFlags_sized {f g : Flags} (h : Sized f g) {c : Char} (hc : c ≠ 'p') : Sized (unsignedFlags b f c) g := by
  obtain ⟨h₁,h₂,h₃⟩ := h
  unfold unsignedFlags
  rw [if_neg hc]
  split_ifs <;> exact ⟨h₁,h₂,h₃⟩

theorem laid_alt {F : Field} {f : Flags} (h : Laid F f) (p : Prop) [Decidable p] :
    Laid F (if p then { f with alt := false } else f) := by
  obtain ⟨h₁,h₂,h₃⟩ := h
  split_ifs <;> exact ⟨h₁,h₂,h₃⟩

theorem unsigned_decomposed (hb : b.Full) {v : Conv Unit} {base : Nat} {upper : Bool}
    (hl : v.letter = .u ∧ base = 10 ∧ upper = false ∨ v.letter = .o ∧ base = 8 ∧ upper = false ∨
      v.letter = .x ∧ base = 16 ∧ upper = false ∨ v.letter = .X ∧ base = 48 ∧ upper = true) (x y a : Int) :
    Decomposed b v x y a base upper (wrapU (v.len.bits b) a) ∧
      Unsigned v (wrapU (v.len.bits b) a) (v.parts b x y a).1 := by
  have hradix : Radix base upper := by
    unfold Radix
    tauto
  have hd : ¬(v.letter.char = 'd' ∨ v.letter.char = 'i') := by
    rcases hl with ⟨hl,-⟩ | ⟨hl,-⟩ | ⟨hl,-⟩ | ⟨hl,-⟩ <;> rw [hl] <;> decide
  have hp : v.letter.char ≠ 'p' := by
    rcases hl with ⟨hl,-⟩ | ⟨hl,-⟩ | ⟨hl,-⟩ | ⟨hl,-⟩ <;> rw [hl] <;> decide
  have hbase : unsignedBase v.letter.char = base := by
    rcases hl with ⟨hl,rfl,-⟩ | ⟨hl,rfl,-⟩ | ⟨hl,rfl,-⟩ | ⟨hl,rfl,-⟩ <;> rw [hl] <;> decide
  have hlaid := unsignedFlags_laid (b := b) (given_laid hb v x y) v.letter.char
  have hval := (arg_len hb v.len (unsignedFlags_sized (b := b) (given_sized hb v x y) hp) a).2
  have hparts : v.parts b x y a = unsignedParts b (unsignedFlags b (lenFlags b v.len (v.given x y)) v.letter.char)
      ((v.field x y).digits.getD 0 : Nat) base a := by
    rw [Conv.parts,if_neg hd,spec_adjust hb,hbase]
  rw [unsignedParts_eq hb hlaid hradix,hval] at hparts
  have hrange : wrapU (v.len.bits b) a < 2 ^ ultoaBits b := by
    rw [← hval]
    exact argToUnsigned_lt hb.target _ a
  refine ⟨⟨hradix,?_,?_,?_,hrange⟩,?_⟩
  · rw [hparts]
    exact laid_alt hlaid _
  · rw [hparts]
  · rcases hl with ⟨hl,rfl,rfl⟩ | ⟨hl,rfl,rfl⟩ | ⟨hl,rfl,rfl⟩ | ⟨hl,rfl,rfl⟩ <;> simp [Conv.digitsText,hl]
  · rw [hparts,lenFlags_eq hb.c99 (f := v.given x y) (by rfl)]
    rcases hl with ⟨hl,-⟩ | ⟨hl,-⟩ | ⟨hl,-⟩ | ⟨hl,-⟩ <;> by_cases hn : wrapU (v.len.bits b) a = 0 <;>
      constructor <;> simp [hl,hn,unsignedFlags,Letter.char,Conv.given]

theorem mark_ne_nul {l : Letter} (h : l ∈ [Letter.d,.i,.u,.x,.X]) : l.mark ≠ nul := by
  simp only [List.mem_cons,List.not_mem_nil,or_false] at h
  rcases h with rfl | rfl | rfl | rfl | rfl <;> decide

theorem decomposed (hb : b.Full) {v : Conv Unit} (h : v.letter ∈ [Letter.d,.i,.u,.x,.X]) (x y a : Int) :
    ∃ base upper n, Decomposed b v x y a base upper n ∧
      lead (v.parts b x y a).1 v.letter.mark = v.leadText b a := by
  simp only [List.mem_cons,List.not_mem_nil,or_false] at h
  rcases h with h | h | h | h | h
  · obtain ⟨hdec,hlead⟩ := signed_decomposed hb (.inl h) x y a
    exact ⟨_,_,_,hdec,hlead⟩
  · obtain ⟨hdec,hlead⟩ := signed_decomposed hb (.inr h) x y a
    exact ⟨_,_,_,hdec,hlead⟩
  · obtain ⟨hdec,hun⟩ := unsigned_decomposed hb (.inl ⟨h,rfl,rfl⟩) x y a
    refine ⟨_,_,_,hdec,?_⟩
    rw [hun.lead,hun.alt]
    simp [h,Conv.leadText]
  · obtain ⟨hdec,hun⟩ := unsigned_decomposed hb (.inr (.inr (.inl ⟨h,rfl,rfl⟩))) x y a
    refine ⟨_,_,_,hdec,?_⟩
    rw [hun.lead,hun.alt]
    simp [h,Conv.leadText,hexText,Letter.mark,Letter.char,unsignedLetter,nul]
  · obtain ⟨hdec,hun⟩ := unsigned_decomposed hb (.inr (.inr (.inr ⟨h,rfl,rfl⟩))) x y a
    refine ⟨_,_,_,hdec,?_⟩
    rw [hun.lead,hun.alt]
    simp [h,Conv.leadText,hexText,Letter.mark,Letter.char,unsignedLetter,nul]

theorem layoutInts_eq {F : Field} {f g : Flags} (hf : Laid F f) {c : Char} {buf : List UInt8} {m : Nat}
    (hg : g = if buf.length < F.digits.getD 0 ∧ c = nul then { f with alt := false } else f)
    (hm : m = max (F.digits.getD 0) buf.length) : layoutInts f F.columns (F.digits.getD 0 : Nat) c buf =
      (List.range ((lead g c).length + 1)).map (fun k : Nat => m + (k : Int)) ++
        [if F.left = false ∧ F.zero = true ∧ F.digits = none then
          buf.length + (if (buf.length : Int) + (lead g c).length < F.columns then
            (F.columns : Int) - (buf.length + (lead g c).length) else 0) else (F.digits.getD 0 : Nat),
        if F.left then m + ((lead g c).length : Int) else max (m + ((lead g c).length : Int)) F.columns,
        F.columns - (if F.left then m + ((lead g c).length : Int) else
          max (m + ((lead g c).length : Int)) F.columns)] := by
  obtain ⟨left,zero,columns,digits⟩ := F
  obtain ⟨zfill,plus,space,lpad,alt,width,prec,long,short,repd,negative⟩ := f
  obtain ⟨h₁,h₂,h₃⟩ := hf
  simp only at h₁ h₂ h₃
  subst h₁ h₂ h₃
  cases digits with
  | none =>
    obtain rfl : m = buf.length := by simpa using hm
    have hmax : ∀ L : Nat, max (if (buf.length : Int) + L < columns then (columns : Int) else buf.length + L) columns =
        max ((buf.length : Int) + L) columns := by
      intro L
      split_ifs <;> omega
    simp only [Option.getD_none,Nat.not_lt_zero,false_and,if_false] at hg
    subst hg
    cases lpad <;> cases zfill <;> simp [layoutInts,hmax]
  | some d =>
    simp only [Option.getD_some] at hm hg
    subst hg
    by_cases hshort : buf.length < d
    · obtain rfl : m = d := by omega
      by_cases hc : c = nul
      · cases lpad <;> simp [layoutInts,hc,hshort] <;> rfl
      · cases lpad <;> simp [layoutInts,hc,hshort] <;> rfl
    · obtain rfl : m = buf.length := by omega
      cases lpad <;> simp [layoutInts,hshort] <;> rfl

theorem ints_iff {F : Field} {f g : Flags} (hf : Laid F f) {c : Char} {buf : List UInt8}
    (hg : g = if buf.length < F.digits.getD 0 ∧ c = nul then { f with alt := false } else f)
    (hbuf : buf.length + (lead g c).length < 2 ^ (b.intBits - 1)) (hcols : F.columns < 2 ^ (b.intBits - 1))
    (hdigits : F.digits.getD 0 < 2 ^ (b.intBits - 1)) :
    (∀ n ∈ layoutInts f F.columns (F.digits.getD 0 : Nat) c buf, InInt b n) ↔
      F.digits.getD 0 + (lead g c).length < 2 ^ (b.intBits - 1) := by
  obtain ⟨m,hm⟩ : ∃ m, m = max (F.digits.getD 0) buf.length := ⟨_,rfl⟩
  rw [layoutInts_eq hf hg hm]
  unfold InInt
  have hcast : (2 : Int) ^ (b.intBits - 1) = ((2 ^ (b.intBits - 1) : Nat) : Int) := by push_cast; rfl
  rw [hcast]
  clear hg
  generalize 2 ^ (b.intBits - 1) = M at *
  generalize lead g c = L at *
  generalize F.digits.getD 0 = d at *
  constructor
  · intro h
    have hlast := h (m + (L.length : Int)) (by simp)
    omega
  · intro h n hn
    have hmL : m + L.length < M := by omega
    simp only [List.mem_append,List.mem_map,List.mem_range,List.mem_cons,List.not_mem_nil,or_false] at hn
    rcases hn with ⟨k,hk,rfl⟩ | rfl | rfl | rfl
    · omega
    · split_ifs <;> omega
    · split_ifs <;> omega
    · split_ifs <;> omega

theorem text_length (F : Field) (sign body : List UInt8) :
    (F.text sign body).length = max F.columns (sign.length + body.length) := by
  unfold Field.text Field.room
  split_ifs <;> simp <;> omega

def starWidth (b : Build) (args : List Arg) : Int := intAt b args 0

def starPrec (b : Build) (v : Conv Unit) (args : List Arg) : Int := intAt b args v.width.stars.length

def Conv.value (v : Conv Unit) (args : List Arg) : Int := (args[v.starCount]?.map Arg.bits).getD 0

def Conv.asked (b : Build) (v : Conv Unit) (args : List Arg) : Field := v.field (starWidth b args) (starPrec b v args)

structure Conv.Given (b : Build) (v : Conv Unit) (args : List Arg) : Prop where
  fits : Fits b [.conv v] args
  width : (v.asked b args).columns < 2 ^ (b.intBits - 1)
  prec : (v.asked b args).digits.getD 0 < 2 ^ (b.intBits - 1)

def Conv.Prints (b : Build) (ft : FloatText) (v : Conv Unit) (args : List Arg) : Prop :=
  (∃ o, format b ft (render [.conv v]) args = .ok o ∧ o.failed = false ∧
    o.text = v.cText b (starWidth b args) (starPrec b v args) (v.value args) ∧
      o.text.length = max (v.asked b args).columns ((v.leadText b (v.value args)).length +
        ((v.asked b args).numeral (v.digitsText b (v.value args))).length)) ∧
    ∀ n ∈ v.ints b (starWidth b args) (starPrec b v args) (v.value args), InInt b n

theorem format_int (hb : b.Full) {v : Conv Unit} (hl : v.letter ∈ Letter.ints) {args : List Arg}
    (hf : Fits b [.conv v] args) : ∃ rs, format b ft (render [.conv v]) args =
      .ok ⟨(intBody b (v.parts b (starWidth b args) (starPrec b v args) (v.value args)).1 (v.asked b args).columns
        ((v.asked b args).digits.getD 0 : Nat) v.letter.mark
          (v.parts b (starWidth b args) (starPrec b v args) (v.value args)).2).1 ++
        tail b (intBody b (v.parts b (starWidth b args) (starPrec b v args) (v.value args)).1 (v.asked b args).columns
          ((v.asked b args).digits.getD 0 : Nat) v.letter.mark
            (v.parts b (starWidth b args) (starPrec b v args) (v.value args)).2).2,rs,false⟩ := by
  have hm : v.len.known b = true := by cases hlen : v.len <;> simp [Len.known,hb.c99]
  obtain ⟨a,ha,ht,hformat⟩ := @format_single b ft v hm args hf
  have hval : v.value args = a.bits := by simp [Conv.value,ha]
  have hconv := @convert_parts b ft hb v hl args v.starCount a ha ht (starWidth b args) (starPrec b v args)
  rw [hval]
  exact hformat _ _ hconv rfl

theorem lead_length (f : Flags) (c : Char) : (lead f c).length ≤ 2 := by
  unfold lead
  split_ifs <;> simp

theorem int_body (hb : b.Full) {v : Conv Unit} (hl : v.letter ∈ [Letter.d,.i,.u,.x,.X]) (x y a : Int) :
    (intBody b (v.parts b x y a).1 (v.field x y).columns ((v.field x y).digits.getD 0 : Nat) v.letter.mark
        (v.parts b x y a).2).1 ++
      tail b (intBody b (v.parts b x y a).1 (v.field x y).columns ((v.field x y).digits.getD 0 : Nat) v.letter.mark
        (v.parts b x y a).2).2 = v.cText b x y a := by
  obtain ⟨base,upper,n,hdec,hlead⟩ := decomposed hb hl x y a
  have htext := body_text hb hdec.laid (mark_ne_nul hl) hdec.radix hdec.buf
  rwa [hlead,← hdec.digits] at htext

theorem scan_int (hb : b.Full) {v : Conv Unit} (hl : v.letter ∈ [Letter.d,.i,.u,.x,.X]) {orig rest : List Char}
    {args : List Arg} {i : Nat} {a : Arg} (hw : v.width.stars ≠ [] → IntAt args i)
    (hp : v.prec.stars ≠ [] → IntAt args (i + v.width.stars.length)) (ha : args[i + v.starCount]? = some a)
    (ht : a.ty = v.argTy b) : ∃ rs, scanFormat b ft orig .text ((Piece.conv v).chars ++ rest) ⟨args,i⟩ =
      Output.andThen ⟨v.cText b (intAt b args i) (intAt b args (i + v.width.stars.length)) a.bits,rs,false⟩
        (scanFormat b ft orig .text rest ⟨args,i + v.starCount + 1⟩) := by
  have hints : v.letter ∈ Letter.ints := by
    simp only [Letter.ints,List.mem_cons,List.not_mem_nil,or_false] at hl ⊢
    tauto
  have hm : v.len.known b = true := by cases hlen : v.len <;> simp [Len.known,hb.c99]
  rw [scan_text_conv unit_plain v,scan_conv hm hw hp,convertThen,Nat.add_assoc i,← Conv.starCount,
    convert_parts hb hints ha ht]
  dsimp only [closed]
  rw [int_body hb hl,andThen_reads]
  exact ⟨_,rfl⟩

theorem int_text_iff (hb : b.Full) {v : Conv Unit} (hl : v.letter ∈ [Letter.d,.i,.u,.x,.X]) {args : List Arg}
    (h : v.Given b args) : v.Prints b ft args ↔
      (v.asked b args).digits.getD 0 + (v.leadText b (v.value args)).length < 2 ^ (b.intBits - 1) := by
  have hints : v.letter ∈ Letter.ints := by
    simp only [Letter.ints,List.mem_cons,List.not_mem_nil,or_false] at hl ⊢
    tauto
  have hmark := mark_ne_nul hl
  obtain ⟨base,upper,n,hdec,hlead⟩ := decomposed hb hl (starWidth b args) (starPrec b v args) (v.value args)
  have hbuf : (v.parts b (starWidth b args) (starPrec b v args) (v.value args)).2.length ≤ ultoaBits b := by
    rw [hdec.buf]
    split_ifs
    · exact Nat.zero_le _
    · exact buf_length hb.target hdec.radix hdec.range
  have hsmall : (v.parts b (starWidth b args) (starPrec b v args) (v.value args)).2.length +
      (lead (v.parts b (starWidth b args) (starPrec b v args) (v.value args)).1 v.letter.mark).length <
        2 ^ (b.intBits - 1) := by
    have hroom := hb.room
    have hwhole := hb.whole
    have htwo := lead_length (v.parts b (starWidth b args) (starPrec b v args) (v.value args)).1 v.letter.mark
    omega
  have hiff := ints_iff (b := b) hdec.laid (if_neg (fun hn => hmark hn.2)).symm hsmall h.width h.prec
  rw [hlead] at hiff
  rw [Conv.Prints,Conv.ints,spec_adjust hb]
  refine ⟨fun hp => hiff.mp hp.2,fun hlt => ⟨?_,hiff.mpr hlt⟩⟩
  obtain ⟨rs,hformat⟩ := @format_int b ft hb v hints args h.fits
  have htext := int_body hb hl (starWidth b args) (starPrec b v args) (v.value args)
  exact ⟨_,hformat,rfl,htext,(congrArg List.length htext).trans (text_length _ _ _)⟩

end

def plusInt (prec : List (Fin 10)) : Conv Unit := ⟨(),[.plus],.none,.lit prec,.none,.d,bare_length .d⟩

theorem lp64_full : lp64.Full :=
  ⟨rfl,⟨by decide,by decide,by decide,by decide⟩,rfl,rfl,by decide,by decide,by decide,by decide⟩

theorem int_text_plus_three : (plusInt [3]).Prints lp64 noFloats [.int 42] := by
  refine (int_text_iff lp64_full (by decide) ⟨?_,by decide,by decide⟩).mpr (by decide)
  intro k e hk
  cases k with
  | zero =>
    obtain rfl := Option.some.inj hk
    exact ⟨.int 42,rfl,rfl⟩
  | succ k => cases hk

theorem sign_overflows_int :
    ¬(plusInt [2,1,4,7,4,8,3,6,4,7]).Prints lp64 noFloats [.int 42] ∧
      (plusInt [2,1,4,7,4,8,3,6,4,7]).asked lp64 [.int 42] = ⟨false,false,0,some (2 ^ 31 - 1)⟩ := by
  refine ⟨?_,by decide⟩
  rintro ⟨-,hints⟩
  have hbad := hints (2 ^ 31) (by decide)
  exact absurd hbad.2 (by decide)

end Printf
