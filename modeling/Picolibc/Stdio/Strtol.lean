import Mathlib
import Picolibc.Stdio.Strtoi

open Numerals Strtoi

namespace Strtol

inductive Chars where
  | narrow
  | wide16
  | wide32
  deriving DecidableEq, Repr

def Chars.bits : Chars → Nat
  | .narrow => 8
  | .wide16 => 16
  | .wide32 => 32

def Chars.uint : Chars → UInt32 → UInt32
  | .wide16, i => i.toUInt16.toUInt32
  | _, i => i

structure Str (chars : Chars) where
  units : List UInt32
  wellformed : ∀ c ∈ units, c ≠ 0 ∧ c.toNat < 2 ^ chars.bits

def digitToVal (c : UInt32) : UInt32 :=
  (if 0x39 < c then ((c - 1) ||| 0x20) + (0x30 - 0x61 + 11) else c) - 0x30

def toLower (c : UInt32) : UInt32 := c ||| 0x20

section

variable (k : Kind) (chars : Chars)

def digits (neg : Bool) (base : Nat) : Nat → List UInt32 → Scan → Scan
  | _, [], s => s
  | pos, c :: str, s =>
    let i := (chars.uint (digitToVal c)).toNat
    if base ≤ i then s else digits neg base (pos + 1) str { addDigit k neg base s i with stop := pos + 1 }

def number (neg : Bool) (base : Nat) (pos : Nat) : List UInt32 → Strtoi.Result
  | 0x30 :: c :: str =>
    if toLower c = 0x78 ∧ base ||| 16 = 16 then
      finish k neg (digits k chars neg 16 (pos + 2) str ⟨0,false,pos + 1⟩)
    else finish k neg (digits k chars neg (if base = 0 then 8 else base) pos (0x30 :: c :: str) ⟨0,false,0⟩)
  | [0x30] => finish k neg (digits k chars neg (if base = 0 then 8 else base) pos [0x30] ⟨0,false,0⟩)
  | str => finish k neg (digits k chars neg (if base = 0 then 10 else base) pos str ⟨0,false,0⟩)

def signed (base : Nat) (pos : Nat) : List UInt32 → Strtoi.Result
  | 0x2d :: str => number k chars true base (pos + 1) str
  | 0x2b :: str => number k chars false base (pos + 1) str
  | str => number k chars false base pos str

def strtoi (space : UInt32 → Bool) (str : Str chars) (ibase : BitVec 32) : Strtoi.Result :=
  let base := ibase.toNat
  if 36 < base ∨ base = 1 then ⟨0,0,some .einval⟩ else
  signed k chars base (str.units.takeWhile space).length (str.units.dropWhile space)

end

section

variable (chars : Chars) (longBits : Nat) (builtins : Bool)

def strtol := strtoi ⟨longBits,true,builtins⟩ chars

def strtoul := strtoi ⟨longBits,false,builtins⟩ chars

def strtoll := strtoi ⟨64,true,builtins⟩ chars

def strtoull := strtoi ⟨64,false,builtins⟩ chars

def strtoimax := strtoi ⟨64,true,builtins⟩ chars

def strtoumax := strtoi ⟨64,false,builtins⟩ chars

end

def digit (c : UInt32) : Option Nat :=
  if 0x30 ≤ c ∧ c ≤ 0x39 then some (c.toNat - 0x30) else
  if 0x41 ≤ c ∧ c ≤ 0x5a then some (c.toNat - 0x41 + 10) else
  if 0x61 ≤ c ∧ c ≤ 0x7a then some (c.toNat - 0x61 + 10) else none

def Digits (b : Nat) (text : List UInt32) (ds : List Nat) : Prop :=
  text.map digit = ds.map some ∧ ∀ d ∈ ds, d < b

inductive Magnitude (base : Nat) : List UInt32 → Nat → Prop where
  | plain {text : List UInt32} {ds : List Nat} : base ≠ 0 → ds ≠ [] → Digits base text ds →
      Magnitude base text (horner base 0 ds)
  | hex {x : UInt32} {text : List UInt32} {ds : List Nat} : base = 0 ∨ base = 16 → x = 0x78 ∨ x = 0x58 →
      ds ≠ [] → Digits 16 text ds → Magnitude base (0x30 :: x :: text) (horner 16 0 ds)
  | octal {text : List UInt32} {ds : List Nat} : base = 0 → Digits 8 (0x30 :: text) ds →
      Magnitude base (0x30 :: text) (horner 8 0 ds)
  | decimal {text : List UInt32} {ds : List Nat} : base = 0 → text.head? ≠ some 0x30 → ds ≠ [] →
      Digits 10 text ds → Magnitude base text (horner 10 0 ds)

inductive Subject (base : Nat) : List UInt32 → Int → Prop where
  | bare {text : List UInt32} {m : Nat} : Magnitude base text m → Subject base text m
  | plus {text : List UInt32} {m : Nat} : Magnitude base text m → Subject base (0x2b :: text) m
  | minus {text : List UInt32} {m : Nat} : Magnitude base text m → Subject base (0x2d :: text) (-m)

structure Longest (base : Nat) (str text : List UInt32) (v : Int) : Prop where
  subject : Subject base text v
  here : text <+: str
  longest : ∀ text' v', Subject base text' v' → text' <+: str → text'.length ≤ text.length

section

variable (k : Kind)

def least : Int := if k.signed then -2 ^ (k.bits - 1) else 0

def greatest : Int := if k.signed then 2 ^ (k.bits - 1) - 1 else 2 ^ k.bits - 1

def Representable (v : Int) : Prop :=
  if k.signed then least k ≤ v ∧ v ≤ greatest k else v.natAbs < 2 ^ k.bits

instance (v : Int) : Decidable (Representable k v) := inferInstanceAs (Decidable (ite _ _ _))

def delivered (v : Int) : Int := if k.signed then v else v % 2 ^ k.bits

def nearest (v : Int) : Int := if v < least k then least k else greatest k

def edge (v : Int) : Int := if k.signed ∧ v < 0 then least k else greatest k

def clamped (limit : Int → Int) (v : Int) (stop : Nat) : Strtoi.Result :=
  if Representable k v then ⟨delivered k v,stop,none⟩ else ⟨limit v,stop,some .erange⟩

def ValidBase (ibase : BitVec 32) : Prop := ibase.toInt = 0 ∨ 2 ≤ ibase.toInt ∧ ibase.toInt ≤ 36

structure Parses (limit : Int → Int) (space : UInt32 → Bool) (str : List UInt32) (ibase : BitVec 32)
    (r : Strtoi.Result) : Prop where
  invalid : ¬ValidBase ibase → r.value = 0 ∧ r.errno = some .einval
  absent : ValidBase ibase → (¬∃ text v, Subject ibase.toNat text v ∧ text <+: str.dropWhile space) → r = ⟨0,0,none⟩
  parsed : ValidBase ibase → ∀ text v, Longest ibase.toNat (str.dropWhile space) text v →
    r = clamped k limit v ((str.takeWhile space).length + text.length)

end

theorem or_toNat (n : Nat) : n ||| 32 = if n / 32 % 2 = 1 then n else n + 32 := by
  have hlow : (n ||| 32) % 2 ^ 6 = (n % 2 ^ 6) ||| 32 := Nat.or_mod_two_pow
  have hhigh : (n ||| 32) / 2 ^ 6 = n / 2 ^ 6 := by
    rw [Nat.or_div_two_pow]
    exact Nat.or_zero _
  have hbits : ∀ m < 64, m ||| 32 = if m / 32 % 2 = 1 then m else m + 32 := by decide
  rw [hbits (n % 2 ^ 6) (Nat.mod_lt _ (by decide))] at hlow
  split_ifs at hlow ⊢ <;> omega

theorem digitToVal_toNat (c : UInt32) :
    (digitToVal c).toNat =
      if 57 < c.toNat then ((c.toNat - 1 ||| 32) + 4294967210) % 4294967296 else (c.toNat + 4294967248) % 4294967296 := by
  have hc := c.toNat_lt
  unfold digitToVal
  by_cases h : 57 < c.toNat
  · have hlt : (0x39 : UInt32) < c := UInt32.lt_iff_toNat_lt.mpr h
    have hle : (1 : UInt32) ≤ c := UInt32.le_iff_toNat_le.mpr (by simpa using by omega)
    rw [if_pos hlt,if_pos h,UInt32.toNat_sub,UInt32.toNat_add,UInt32.toNat_or,UInt32.toNat_sub_of_le _ _ hle]
    simp
    omega
  · have hlt : ¬(0x39 : UInt32) < c := fun hlt => h (UInt32.lt_iff_toNat_lt.mp hlt)
    rw [if_neg hlt,if_neg h,UInt32.toNat_sub]
    simp
    omega

theorem digit_toNat (c : UInt32) :
    digit c =
      if 48 ≤ c.toNat ∧ c.toNat ≤ 57 then some (c.toNat - 48) else
      if 65 ≤ c.toNat ∧ c.toNat ≤ 90 then some (c.toNat - 55) else
      if 97 ≤ c.toNat ∧ c.toNat ≤ 122 then some (c.toNat - 87) else none := by
  simp only [digit,UInt32.le_iff_toNat_le]
  split_ifs with h₁ h₂ h₃ <;> simp_all <;> omega

theorem uint_toNat (chars : Chars) (i : UInt32) :
    (chars.uint i).toNat = if chars = .wide16 then i.toNat % 65536 else i.toNat := by
  cases chars <;> simp [Chars.uint]

theorem digit_val {chars : Chars} {c : UInt32} (hc : c.toNat < 2 ^ chars.bits) :
    match digit c with
    | some d => (chars.uint (digitToVal c)).toNat = d ∧ d < 36
    | none => 36 ≤ (chars.uint (digitToVal c)).toNat := by
  have hlt := c.toNat_lt
  rw [uint_toNat,digitToVal_toNat,or_toNat,digit_toNat]
  by_cases hwide : chars = .wide16
  · subst hwide
    have hunit : c.toNat < 65536 := hc
    rw [if_pos rfl]
    split_ifs <;> dsimp only <;> omega
  · rw [if_neg hwide]
    split_ifs <;> dsimp only <;> omega

theorem digit_lt {c : UInt32} {d : Nat} (h : digit c = some d) : d < 36 := by
  rw [digit_toNat] at h
  split_ifs at h <;> simp at h <;> omega

def leading (b : Nat) : List UInt32 → List Nat
  | [] => []
  | c :: str =>
    match digit c with
    | some d => if d < b then d :: leading b str else []
    | none => []

theorem leading_digits (b : Nat) (str : List UInt32) : Digits b (str.take (leading b str).length) (leading b str) := by
  induction str with
  | nil => exact ⟨rfl,by simp [leading]⟩
  | cons c str ih =>
    unfold leading
    split
    next d hd =>
      split_ifs with hlt
      · exact ⟨by simp [hd,ih.1],by simpa using ⟨hlt,ih.2⟩⟩
      · exact ⟨by simp,by simp⟩
    next => exact ⟨by simp,by simp⟩

theorem leading_length (b : Nat) (str : List UInt32) : (leading b str).length ≤ str.length := by
  have h := congrArg List.length (leading_digits b str).1
  simp only [List.length_map,List.length_take] at h
  omega

theorem digits_leading {b : Nat} {text : List UInt32} {ds : List Nat} (h : Digits b text ds) (rest : List UInt32) :
    leading b (text ++ rest) = ds ++ leading b rest := by
  obtain ⟨hmap,hlt⟩ := h
  induction text generalizing ds with
  | nil =>
    obtain rfl : ds = [] := by simpa using hmap.symm
    rfl
  | cons c text ih =>
    cases ds with
    | nil => simp at hmap
    | cons d ds =>
      obtain ⟨hd,hrest⟩ := List.cons.inj hmap
      rw [List.cons_append,leading,hd]
      simp only [if_pos (hlt d List.mem_cons_self)]
      rw [ih hrest fun e he => hlt e (List.mem_cons_of_mem d he),List.cons_append]

theorem digits_length {b : Nat} {text : List UInt32} {ds : List Nat} (h : Digits b text ds) :
    text.length = ds.length := by
  simpa using congrArg List.length h.1

theorem digits_longest {b : Nat} {text str : List UInt32} {ds : List Nat} (h : Digits b text ds) (hpre : text <+: str) :
    text.length ≤ (leading b str).length ∧ (text.length = (leading b str).length → ds = leading b str) := by
  obtain ⟨rest,rfl⟩ := hpre
  rw [digits_leading h,digits_length h,List.length_append]
  refine ⟨by omega,fun heq => ?_⟩
  have hnil : leading b rest = [] := List.length_eq_zero_iff.mp (by omega)
  rw [hnil,List.append_nil]

def Tracks (limit v : Nat) (s : Scan) : Prop := s.oflow = false ∧ s.val = v ∧ v ≤ limit ∨ s.oflow = true ∧ limit < v

section

variable {k : Kind} {chars : Chars} {neg : Bool} {base : Nat}

theorem addDigit_overflow {v d stop : Nat} (hd : d < base) (h : limit k neg < v * base + d) :
    (addDigit k neg base ⟨v,false,stop⟩ d).oflow = true := by
  have hcut : limit k neg / base < v ∨ v = limit k neg / base ∧ limit k neg % base < d := by
    by_contra hcut
    push Not at hcut
    obtain ⟨hle,hrem⟩ := hcut
    have hmod := Nat.div_add_mod (limit k neg) base
    rcases hle.lt_or_eq with hlt | heq
    · have hmul := Nat.mul_le_mul_right base hlt
      rw [Nat.succ_mul,Nat.mul_comm (limit k neg / base)] at hmul
      omega
    · have hlast := hrem heq
      rw [← heq,Nat.mul_comm] at hmod
      omega
  unfold addDigit
  split_ifs with hbuiltin hmul
  · rfl
  · have hlimit : limit k neg = 2 ^ k.bits - 1 := by simp [limit,hbuiltin.2]
    simpa using by omega
  · rfl

theorem addDigit_sticky (s : Scan) (d : Nat) (h : s.oflow = true) : (addDigit k neg base s d).oflow = true := by
  unfold addDigit
  split_ifs <;> simp [h]

theorem addDigit_tracks (hk : 0 < k.bits) (hbase : 0 < base) {s : Scan} {v d : Nat} (hd : d < base)
    (h : Tracks (limit k neg) v s) : Tracks (limit k neg) (v * base + d) (addDigit k neg base s d) := by
  rcases h with ⟨hflag,rfl,-⟩ | ⟨hflag,hlt⟩
  · obtain ⟨v,oflow,stop⟩ := s
    obtain rfl : oflow = false := hflag
    by_cases hle : v * base + d ≤ limit k neg
    · rw [addDigit_ok hk hbase hle]
      exact .inl ⟨rfl,rfl,hle⟩
    · exact .inr ⟨addDigit_overflow hd (not_le.mp hle),not_le.mp hle⟩
  · have hmul : v ≤ v * base := Nat.le_mul_of_pos_right v hbase
    exact .inr ⟨addDigit_sticky s d hflag,by omega⟩

theorem digits_tracks (hk : 0 < k.bits) (hbase : 0 < base) (hmax : base ≤ 36) {str : List UInt32}
    (hstr : ∀ c ∈ str, c.toNat < 2 ^ chars.bits) {s : Scan} {v : Nat} (h : Tracks (limit k neg) v s) (pos : Nat) :
    Tracks (limit k neg) (horner base v (leading base str)) (digits k chars neg base pos str s) ∧
      (digits k chars neg base pos str s).stop =
        if leading base str = [] then s.stop else pos + (leading base str).length := by
  induction str generalizing s v pos with
  | nil => exact ⟨h,rfl⟩
  | cons c str ih =>
    have hval := digit_val (hstr c List.mem_cons_self)
    unfold digits leading
    cases hdigit : digit c with
    | none =>
      rw [hdigit] at hval
      rw [if_pos (le_trans hmax hval)]
      exact ⟨h,rfl⟩
    | some d =>
      rw [hdigit] at hval
      simp only [hval.1]
      by_cases hd : d < base
      · have hstep : Tracks (limit k neg) (v * base + d) { addDigit k neg base s d with stop := pos + 1 } :=
          addDigit_tracks hk hbase hd h
        obtain ⟨hrun,hstop⟩ := ih (fun e he => hstr e (List.mem_cons_of_mem c he)) hstep (pos + 1)
        rw [if_neg (not_le.mpr hd),if_pos hd,horner_cons]
        refine ⟨hrun,hstop.trans ?_⟩
        rw [if_neg (List.cons_ne_nil d _),List.length_cons]
        by_cases hnil : leading base str = []
        · simp [hnil]
        · rw [if_neg hnil]
          omega
      · rw [if_pos (not_lt.mp hd),if_neg hd]
        exact ⟨h,rfl⟩

theorem bmod_small {n : Nat} {v : Int} (hlow : -2 ^ n ≤ v) (hhigh : v < 2 ^ n) : v.bmod (2 ^ (n + 1)) = v := by
  have hpow : (2 : Int) ^ (n + 1) = 2 * 2 ^ n := pow_succ' 2 n
  exact Int.bmod_eq_of_le (by push_cast; omega) (by push_cast; omega)

theorem bmod_half (n : Nat) : ((2 : Int) ^ n).bmod (2 ^ (n + 1)) = -2 ^ n := by
  have hpow : (2 : Int) ^ (n + 1) = 2 * 2 ^ n := pow_succ' 2 n
  have hpos : (0 : Int) < 2 ^ n := by positivity
  have hmod : (2 : Int) ^ n % 2 ^ (n + 1) = 2 ^ n := Int.emod_eq_of_lt hpos.le (by omega)
  rw [Int.bmod_def]
  push_cast
  rw [hmod,if_neg (by omega)]
  omega

theorem finish_unsigned {bits m : Nat} {builtins : Bool} {s : Scan} (h : Tracks (limit ⟨bits,false,builtins⟩ neg) m s) :
    finish ⟨bits,false,builtins⟩ neg s =
      clamped ⟨bits,false,builtins⟩ (edge ⟨bits,false,builtins⟩) (if neg then -m else m) s.stop := by
  have hlimit : limit ⟨bits,false,builtins⟩ neg = 2 ^ bits - 1 := rfl
  have hpos : 0 < 2 ^ bits := Nat.two_pow_pos bits
  have habs : (if neg then -m else m : Int).natAbs = m := by cases neg <;> simp
  rw [hlimit] at h
  rcases h with ⟨hflag,rfl,hle⟩ | ⟨hflag,hlt⟩
  · have hrep : Representable ⟨bits,false,builtins⟩ (if neg then -s.val else s.val) := by
      rw [Representable,if_neg Bool.false_ne_true,habs]
      show s.val < 2 ^ bits
      omega
    rw [clamped,if_pos hrep]
    simp [finish,hflag,delivered]
  · have hrep : ¬Representable ⟨bits,false,builtins⟩ (if neg then -m else m) := by
      rw [Representable,if_neg Bool.false_ne_true,habs]
      show ¬m < 2 ^ bits
      omega
    rw [clamped,if_neg hrep]
    simp [finish,hflag,edge,greatest]

theorem finish_signed {n m : Nat} {builtins : Bool} {s : Scan} (h : Tracks (limit ⟨n + 1,true,builtins⟩ neg) m s) :
    finish ⟨n + 1,true,builtins⟩ neg s =
      clamped ⟨n + 1,true,builtins⟩ (edge ⟨n + 1,true,builtins⟩) (if neg then -m else m) s.stop := by
  have hlimit : limit ⟨n + 1,true,builtins⟩ neg = 2 ^ n - 1 + if neg then 1 else 0 := rfl
  have hpos : 0 < 2 ^ n := Nat.two_pow_pos n
  have hcast : ((2 ^ n : Nat) : Int) = 2 ^ n := by push_cast; rfl
  have hrep : Representable ⟨n + 1,true,builtins⟩ (if neg then -m else m) ↔ m ≤ limit ⟨n + 1,true,builtins⟩ neg := by
    rw [hlimit,Representable,if_pos rfl]
    show -(2 : Int) ^ n ≤ _ ∧ _ ≤ (2 : Int) ^ n - 1 ↔ _
    rw [← hcast]
    cases neg <;> simp <;> omega
  rcases h with ⟨hflag,rfl,hle⟩ | ⟨hflag,hlt⟩
  · have hrange := hrep.mpr hle
    rw [clamped,if_pos hrange]
    rw [Representable,if_pos rfl] at hrange
    simp only [finish,hflag,Bool.false_eq_true,if_false,if_true,delivered]
    rw [@bmod_small n _ hrange.1 (Int.lt_of_le_sub_one hrange.2)]
  · rw [clamped,if_neg fun hr => absurd (hrep.mp hr) (not_le.mpr hlt)]
    have hout : (limit ⟨n + 1,true,builtins⟩ neg : Int).bmod (2 ^ (n + 1)) =
        edge ⟨n + 1,true,builtins⟩ (if neg then -m else m) := by
      rw [hlimit] at hlt ⊢
      cases neg with
      | false =>
        have hlast : ((2 ^ n - 1 + 0 : Nat) : Int) = 2 ^ n - 1 := by push_cast [hpos]; ring
        have hedge : edge ⟨n + 1,true,builtins⟩ m = 2 ^ n - 1 := if_neg fun h => absurd h.2 (by omega)
        simp only [Bool.false_eq_true,if_false,hlast,hedge]
        exact bmod_small (by omega) (by omega)
      | true =>
        have hlast : ((2 ^ n - 1 + 1 : Nat) : Int) = 2 ^ n := by rw [Nat.sub_add_cancel hpos,hcast]
        have hedge : edge ⟨n + 1,true,builtins⟩ (-m) = -2 ^ n := if_pos ⟨rfl,by simp at hlt; omega⟩
        simp only [if_true,hlast,hedge]
        exact bmod_half n
    simp only [finish,hflag,if_true,hout]

theorem finish_clamped (hk : 0 < k.bits) {s : Scan} {m : Nat} (h : Tracks (limit k neg) m s) :
    finish k neg s = clamped k (edge k) (if neg then -m else m) s.stop := by
  obtain ⟨bits,signed,builtins⟩ := k
  cases signed with
  | false => exact finish_unsigned h
  | true =>
    obtain ⟨n,rfl⟩ := Nat.exists_eq_add_of_lt hk
    rw [Nat.zero_add] at h ⊢
    exact finish_signed h

end

def hexadecimal (base : Nat) : List UInt32 → Bool
  | 0x30 :: c :: _ => toLower c = 0x78 ∧ base ||| 16 = 16
  | _ => false

def radix (base : Nat) (str : List UInt32) : Nat :=
  if base = 0 then if str.head? = some 0x30 then 8 else 10 else base

def magnitude (base : Nat) (str : List UInt32) : Option (Nat × Nat) :=
  if hexadecimal base str then
    if leading 16 (str.drop 2) = [] then some (1,0) else
    some (2 + (leading 16 (str.drop 2)).length,horner 16 0 (leading 16 (str.drop 2)))
  else if leading (radix base str) str = [] then none else
    some ((leading (radix base str) str).length,horner (radix base str) 0 (leading (radix base str) str))

def isMinus (str : List UInt32) : Bool := str.head? = some 0x2d

def afterSign (str : List UInt32) : Nat := if str.head? = some 0x2d ∨ str.head? = some 0x2b then 1 else 0

def subject (base : Nat) (str : List UInt32) : Option (Nat × Int) :=
  (magnitude base (str.drop (afterSign str))).map fun r =>
    (afterSign str + r.1,if isMinus str then -r.2 else r.2)

section

variable {k : Kind} {chars : Chars} {neg : Bool} {base : Nat}

theorem number_eq (pos : Nat) (str : List UInt32) :
    number k chars neg base pos str =
      finish k neg (if hexadecimal base str then digits k chars neg 16 (pos + 2) (str.drop 2) ⟨0,false,pos + 1⟩
        else digits k chars neg (radix base str) pos str ⟨0,false,0⟩) := by
  unfold number
  split
  next c str =>
    by_cases h : toLower c = 0x78 ∧ base ||| 16 = 16
    · simp [h,hexadecimal]
    · simp [h,hexadecimal,radix]
  next => simp [hexadecimal,radix]
  next h₁ h₂ =>
    have hhead : str.head? ≠ some 0x30 := by
      cases str with
      | nil => simp
      | cons c str =>
        rintro hc
        obtain rfl : c = 0x30 := by simpa using hc
        cases str with
        | nil => exact h₂ rfl
        | cons d str => exact h₁ d str rfl
    have hhex : hexadecimal base str = false := by
      unfold hexadecimal
      split
      next => simp at hhead
      next => rfl
    simp [hhex,radix,hhead]

theorem representable_zero : Representable k 0 := by
  have hpos : (0 : Int) < 2 ^ (k.bits - 1) := by positivity
  unfold Representable least greatest
  split_ifs
  · omega
  · simp

theorem clamped_zero (stop : Nat) : clamped k (edge k) (if neg then -(0 : Nat) else (0 : Nat)) stop = ⟨0,stop,none⟩ := by
  have hzero : (if neg then -((0 : Nat) : Int) else ((0 : Nat) : Int)) = 0 := by cases neg <;> rfl
  rw [hzero,clamped,if_pos representable_zero]
  simp [delivered]

theorem tracks_zero (limit stop : Nat) : Tracks limit 0 ⟨0,false,stop⟩ := .inl ⟨rfl,rfl,Nat.zero_le _⟩

theorem number_magnitude (hk : 0 < k.bits) (hmax : base ≤ 36) {str : List UInt32}
    (hstr : ∀ c ∈ str, c.toNat < 2 ^ chars.bits) (pos : Nat) :
    number k chars neg base pos str =
      (magnitude base str).elim ⟨0,0,none⟩ fun r => clamped k (edge k) (if neg then -r.2 else r.2) (pos + r.1) := by
  rw [number_eq,magnitude]
  by_cases hhex : hexadecimal base str = true
  · have hrest : ∀ c ∈ str.drop 2, c.toNat < 2 ^ chars.bits := fun c hc => hstr c (List.mem_of_mem_drop hc)
    obtain ⟨hrun,hstop⟩ :=
      @digits_tracks k chars neg 16 hk (by decide) (by decide) _ hrest _ _ (tracks_zero _ (pos + 1)) (pos + 2)
    rw [if_pos hhex,if_pos hhex,finish_clamped hk hrun,hstop]
    by_cases hnil : leading 16 (str.drop 2) = []
    · rw [if_pos hnil,if_pos hnil,hnil]
      rfl
    · rw [if_neg hnil,if_neg hnil,Nat.add_assoc]
      rfl
  · have hpos : 0 < radix base str := by unfold radix; split_ifs <;> omega
    have hle : radix base str ≤ 36 := by unfold radix; split_ifs <;> omega
    obtain ⟨hrun,hstop⟩ := @digits_tracks k chars neg (radix base str) hk hpos hle _ hstr _ _ (tracks_zero _ 0) pos
    rw [if_neg hhex,if_neg hhex,finish_clamped hk hrun,hstop]
    by_cases hnil : leading (radix base str) str = []
    · rw [if_pos hnil,if_pos hnil,hnil]
      exact clamped_zero 0
    · rw [if_neg hnil,if_neg hnil]
      rfl

end

theorem lower_x (c : UInt32) : toLower c = 0x78 ↔ c = 0x78 ∨ c = 0x58 := by
  have hor : (toLower c).toNat = c.toNat ||| 32 := UInt32.toNat_or c 0x20
  rw [← UInt32.toNat_inj,hor,or_toNat,← UInt32.toNat_inj,← UInt32.toNat_inj]
  show _ = 120 ↔ c.toNat = 120 ∨ c.toNat = 88
  split_ifs <;> omega

theorem or_sixteen (base : Nat) : base ||| 16 = 16 ↔ base = 0 ∨ base = 16 := by
  constructor
  · intro h
    have hle : base ≤ 16 := by
      have hor := @Nat.left_le_or base 16
      omega
    have hsmall : ∀ b ≤ 16, b ||| 16 = 16 → b = 0 ∨ b = 16 := by decide
    exact hsmall base hle h
  · rintro (rfl | rfl) <;> rfl

theorem hexadecimal_iff (base : Nat) (str : List UInt32) :
    hexadecimal base str = true ↔
      ∃ x text, str = 0x30 :: x :: text ∧ (x = 0x78 ∨ x = 0x58) ∧ (base = 0 ∨ base = 16) := by
  constructor
  · intro h
    unfold hexadecimal at h
    split at h
    next x text =>
      obtain ⟨hx,hbase⟩ := of_decide_eq_true h
      exact ⟨x,text,rfl,(lower_x x).mp hx,(or_sixteen base).mp hbase⟩
    next => exact absurd h Bool.false_ne_true
  · rintro ⟨x,text,rfl,hx,hbase⟩
    exact decide_eq_true ⟨(lower_x x).mpr hx,(or_sixteen base).mpr hbase⟩

def Covers (base : Nat) (str : List UInt32) (len m : Nat) : Prop :=
  ∃ r, magnitude base str = some r ∧ len ≤ r.1 ∧ (len = r.1 → m = r.2)

section

variable {base : Nat} {str text : List UInt32} {ds : List Nat}

theorem leading_nonempty {b : Nat} (h : Digits b text ds) (hds : ds ≠ []) (hpre : text <+: str) :
    leading b str ≠ [] := by
  obtain ⟨rest,rfl⟩ := hpre
  rw [digits_leading h]
  exact List.append_ne_nil_of_left_ne_nil hds _

theorem covers_plain (hhex : hexadecimal base str = false) (h : Digits (radix base str) text ds) (hds : ds ≠ [])
    (hpre : text <+: str) : Covers base str text.length (horner (radix base str) 0 ds) := by
  obtain ⟨hle,heq⟩ := digits_longest h hpre
  refine ⟨((leading (radix base str) str).length,horner (radix base str) 0 (leading (radix base str) str)),?_,hle,
    fun hlen => by rw [heq hlen]⟩
  rw [magnitude,if_neg (by simp [hhex]),if_neg (leading_nonempty h hds hpre)]

theorem covers_hex {x : UInt32} (hx : x = 0x78 ∨ x = 0x58) (hbase : base = 0 ∨ base = 16)
    (h : Digits 16 text ds) (hds : ds ≠ []) (hpre : 0x30 :: x :: text <+: str) :
    Covers base str (text.length + 2) (horner 16 0 ds) := by
  obtain ⟨rest,rfl⟩ := hpre
  have hhex : hexadecimal base (0x30 :: x :: text ++ rest) = true :=
    (hexadecimal_iff base _).mpr ⟨x,text ++ rest,rfl,hx,hbase⟩
  obtain ⟨hle,heq⟩ := digits_longest h (List.prefix_append text rest)
  have hnil : leading 16 (text ++ rest) ≠ [] := leading_nonempty h hds (List.prefix_append text rest)
  refine ⟨(2 + (leading 16 (text ++ rest)).length,horner 16 0 (leading 16 (text ++ rest))),?_,by simp; omega,
    fun hlen => by rw [heq (by simp at hlen; omega)]⟩
  rw [magnitude,if_pos hhex]
  exact if_neg hnil

theorem covers_zero {b : Nat} (hhex : hexadecimal base str = true) (hpos : 0 < b) (hb : b ≤ 16) (h : Digits b text ds)
    (hds : ds ≠ []) (hpre : text <+: str) : Covers base str text.length (horner b 0 ds) := by
  obtain ⟨x,rest,rfl,hx,-⟩ := (hexadecimal_iff base str).mp hhex
  have hzero : digit 0x30 = some 0 := by decide
  have hletter : digit x = some 33 := by rcases hx with rfl | rfl <;> decide
  have hlead : leading b (0x30 :: x :: rest) = [0] := by
    rw [leading,hzero]
    simp only [if_pos hpos]
    rw [leading,hletter]
    simp only [if_neg (show ¬33 < b by omega)]
  obtain ⟨hle,heq⟩ := digits_longest h hpre
  rw [hlead,List.length_singleton] at hle heq
  have hlen : text.length = 1 := by
    have hlen := List.length_pos_iff.mpr hds
    rw [← digits_length h] at hlen
    omega
  rw [heq hlen,hlen]
  unfold Covers magnitude
  rw [if_pos hhex]
  by_cases hnil : leading 16 rest = []
  · exact ⟨(1,0),if_pos hnil,le_rfl,fun _ => by simp [horner_cons,horner_nil]⟩
  · exact ⟨_,if_neg hnil,by simp; omega,fun hlen => by simp at hlen; omega⟩

theorem magnitude_longest {m : Nat} (h : Magnitude base text m) (hpre : text <+: str) : Covers base str text.length m := by
  cases h with
  | plain hbase hds hdigits =>
    by_cases hhex : hexadecimal base str = true
    · obtain ⟨-,-,-,-,hwhich⟩ := (hexadecimal_iff base str).mp hhex
      exact covers_zero hhex (by omega) (by omega) hdigits hds hpre
    · have hradix : radix base str = base := if_neg hbase
      have hcover := @covers_plain base str text
      rw [hradix] at hcover
      exact hcover (by simpa using hhex) hdigits hds hpre
  | hex hbase hx hds hdigits => exact covers_hex hx hbase hdigits hds hpre
  | @octal text ds hbase hdigits =>
    have hds : ds ≠ [] := fun hnil => by simpa [hnil] using digits_length hdigits
    by_cases hhex : hexadecimal base str = true
    · exact covers_zero hhex (by decide) (by decide) hdigits hds hpre
    · obtain ⟨rest,rfl⟩ := hpre
      have hradix : radix base (0x30 :: text ++ rest) = 8 := by simp [radix,hbase]
      have hcover := @covers_plain base (0x30 :: text ++ rest) (0x30 :: text)
      rw [hradix] at hcover
      exact hcover (by simpa using hhex) hdigits hds (List.prefix_append _ _)
  | @decimal text ds hbase hhead hds hdigits =>
    obtain ⟨rest,rfl⟩ := hpre
    have hfirst : (text ++ rest).head? = text.head? := by
      cases text with
      | nil => exact absurd (List.length_eq_zero_iff.mp (digits_length hdigits).symm) hds
      | cons c text => rfl
    have hhex : hexadecimal base (text ++ rest) = false := by
      by_contra hhex
      obtain ⟨x,more,heq,-,-⟩ := (hexadecimal_iff base _).mp (by simpa using hhex)
      rw [heq] at hfirst
      exact hhead hfirst.symm
    have hradix : radix base (text ++ rest) = 10 := by rw [radix,if_pos hbase,hfirst,if_neg hhead]
    have hcover := @covers_plain base (text ++ rest) text
    rw [hradix] at hcover
    exact hcover hhex hdigits hds (List.prefix_append _ _)

theorem zero_magnitude (hbase : base = 0 ∨ base = 16) : Magnitude base [0x30] 0 := by
  have hdigits : ∀ b, 0 < b → Digits b [0x30] [0] := by
    refine fun b hb => ⟨?_,by simpa using hb⟩
    have hzero : digit 0x30 = some 0 := by decide
    simp [hzero]
  rcases hbase with rfl | rfl
  · exact @Magnitude.octal 0 [] [0] rfl (hdigits 8 (by decide))
  · exact @Magnitude.plain 16 [0x30] [0] (by decide) (by decide) (hdigits 16 (by decide))

theorem magnitude_sound {r : Nat × Nat} (h : magnitude base str = some r) : Magnitude base (str.take r.1) r.2 := by
  unfold magnitude at h
  split_ifs at h with hhex hnil hnil
  · obtain rfl := Option.some.inj h
    obtain ⟨x,text,rfl,-,hbase⟩ := (hexadecimal_iff base str).mp hhex
    exact zero_magnitude hbase
  · obtain rfl := Option.some.inj h
    obtain ⟨x,text,rfl,hx,hbase⟩ := (hexadecimal_iff base str).mp hhex
    rw [Nat.add_comm 2]
    exact .hex hbase hx hnil (leading_digits 16 text)
  · obtain rfl := Option.some.inj h
    by_cases hbase : base = 0
    · have hdigits := leading_digits (radix base str) str
      have hlen : (leading (radix base str) str).length ≠ 0 := fun hlen => hnil (List.length_eq_zero_iff.mp hlen)
      by_cases hhead : str.head? = some 0x30
      · have hradix : radix base str = 8 := by rw [radix,if_pos hbase,if_pos hhead]
        rw [hradix] at hdigits hlen ⊢
        obtain ⟨rest,rfl⟩ := List.head?_eq_some_iff.mp hhead
        obtain ⟨n,hn⟩ := Nat.exists_eq_succ_of_ne_zero hlen
        have htake : (0x30 :: rest).take (leading 8 (0x30 :: rest)).length = 0x30 :: rest.take n := by rw [hn]; rfl
        rw [htake] at hdigits ⊢
        exact .octal hbase hdigits
      · have hradix : radix base str = 10 := by rw [radix,if_pos hbase,if_neg hhead]
        rw [hradix] at hdigits hlen hnil ⊢
        refine .decimal hbase ?_ hnil hdigits
        rwa [List.head?_take,if_neg hlen]
    · have hradix : radix base str = base := if_neg hbase
      rw [hradix] at hnil ⊢
      exact .plain hbase hnil (leading_digits base str)

theorem magnitude_within {r : Nat × Nat} (h : magnitude base str = some r) : r.1 ≤ str.length := by
  unfold magnitude at h
  split_ifs at h with hhex hnil hnil
  · obtain rfl := Option.some.inj h
    obtain ⟨x,text,rfl,-,-⟩ := (hexadecimal_iff base str).mp hhex
    simp
  · obtain rfl := Option.some.inj h
    obtain ⟨x,text,rfl,-,-⟩ := (hexadecimal_iff base str).mp hhex
    have hle := leading_length 16 text
    simp
    omega
  · obtain rfl := Option.some.inj h
    exact leading_length _ str

theorem magnitude_first {m : Nat} (h : Magnitude base text m) : ∃ c d, text.head? = some c ∧ digit c = some d := by
  have hfirst : ∀ {b : Nat} {text : List UInt32} {ds : List Nat}, Digits b text ds → ds ≠ [] →
      ∃ c d, text.head? = some c ∧ digit c = some d := by
    intro b text ds hdigits hds
    obtain ⟨hmap,-⟩ := hdigits
    cases text with
    | nil => exact absurd (List.map_eq_nil_iff.mp hmap.symm) hds
    | cons c text =>
      cases ds with
      | nil => exact absurd rfl hds
      | cons d ds => exact ⟨c,d,rfl,(List.cons.inj hmap).1⟩
  cases h with
  | plain hbase hds hdigits => exact hfirst hdigits hds
  | hex hbase hx hds hdigits => exact ⟨0x30,0,rfl,by decide⟩
  | octal hbase hdigits => exact ⟨0x30,0,rfl,by decide⟩
  | decimal hbase hhead hds hdigits => exact hfirst hdigits hds

theorem no_sign {m : Nat} (h : Magnitude base text m) (hpre : text <+: str) :
    str.head? ≠ some 0x2d ∧ str.head? ≠ some 0x2b := by
  obtain ⟨c,d,hc,hd⟩ := magnitude_first h
  obtain ⟨rest,rfl⟩ := hpre
  have hhead : (text ++ rest).head? = some c := by rw [List.head?_append,hc]; rfl
  rw [hhead]
  constructor
  · rintro hminus
    obtain rfl := Option.some.inj hminus
    have hnone : digit 0x2d = none := by decide
    exact absurd (hd.symm.trans hnone) (Option.some_ne_none d)
  · rintro hplus
    obtain rfl := Option.some.inj hplus
    have hnone : digit 0x2b = none := by decide
    exact absurd (hd.symm.trans hnone) (Option.some_ne_none d)

theorem subject_longest {v : Int} (h : Subject base text v) (hpre : text <+: str) :
    ∃ r, subject base str = some r ∧ text.length ≤ r.1 ∧ (text.length = r.1 → v = r.2) := by
  unfold subject isMinus afterSign
  cases h with
  | bare hm =>
    obtain ⟨hminus,hplus⟩ := no_sign hm hpre
    obtain ⟨r,hr,hle,heq⟩ := magnitude_longest hm hpre
    simp only [hminus,hplus,or_self,if_false,List.drop_zero,hr]
    exact ⟨_,rfl,by simpa using hle,fun hlen => by simpa using heq (by simpa using hlen)⟩
  | @plus text m hm =>
    obtain ⟨rest,rfl⟩ := hpre
    obtain ⟨r,hr,hle,heq⟩ := magnitude_longest hm (List.prefix_append text rest)
    refine ⟨(1 + r.1,(r.2 : Int)),?_,by simp; omega,fun hlen => ?_⟩
    · simp [hr]
    · rw [heq (by simp at hlen; omega)]
  | @minus text m hm =>
    obtain ⟨rest,rfl⟩ := hpre
    obtain ⟨r,hr,hle,heq⟩ := magnitude_longest hm (List.prefix_append text rest)
    refine ⟨(1 + r.1,-(r.2 : Int)),?_,by simp; omega,fun hlen => ?_⟩
    · simp [hr]
    · rw [heq (by simp at hlen; omega)]

theorem subject_within {r : Nat × Int} (h : subject base str = some r) : r.1 ≤ str.length := by
  unfold subject at h
  obtain ⟨m,hm,rfl⟩ := Option.map_eq_some_iff.mp h
  have hle := magnitude_within hm
  have hsign : afterSign str ≤ str.length := by
    unfold afterSign
    split_ifs with hhead
    · cases str with
      | nil => simp at hhead
      | cons c str => simp
    · exact Nat.zero_le _
  rw [List.length_drop] at hle
  show afterSign str + m.1 ≤ str.length
  omega

theorem subject_sound {r : Nat × Int} (h : subject base str = some r) : Subject base (str.take r.1) r.2 := by
  unfold subject at h
  obtain ⟨m,hm,rfl⟩ := Option.map_eq_some_iff.mp h
  have hsound := magnitude_sound hm
  unfold isMinus afterSign at *
  by_cases hminus : str.head? = some 0x2d
  · obtain ⟨rest,rfl⟩ := List.head?_eq_some_iff.mp hminus
    simp only [List.head?_cons,true_or,if_true,List.drop_succ_cons,List.drop_zero] at hsound ⊢
    rw [Nat.add_comm]
    exact .minus hsound
  · by_cases hplus : str.head? = some 0x2b
    · obtain ⟨rest,rfl⟩ := List.head?_eq_some_iff.mp hplus
      simp only [List.head?_cons,or_true,if_true,List.drop_succ_cons,List.drop_zero] at hsound ⊢
      rw [Nat.add_comm]
      exact .plus hsound
    · simp only [hminus,hplus,or_self,if_false,List.drop_zero,Nat.zero_add] at hsound ⊢
      exact .bare hsound

end

section

variable {k : Kind} {chars : Chars}

theorem signed_eq (base pos : Nat) (str : List UInt32) :
    signed k chars base pos str =
      number k chars (isMinus str) base (pos + afterSign str) (str.drop (afterSign str)) := by
  unfold signed
  split
  next => rfl
  next => rfl
  next h₁ h₂ =>
    cases str with
    | nil => rfl
    | cons c str =>
      have hminus : c ≠ 0x2d := fun h => h₁ str (by rw [h])
      have hplus : c ≠ 0x2b := fun h => h₂ str (by rw [h])
      simp [isMinus,afterSign,hminus,hplus]

theorem signed_subject (hk : 0 < k.bits) {base : Nat} (hmax : base ≤ 36) {str : List UInt32}
    (hstr : ∀ c ∈ str, c.toNat < 2 ^ chars.bits) (pos : Nat) :
    signed k chars base pos str =
      (subject base str).elim ⟨0,0,none⟩ fun r => clamped k (edge k) r.2 (pos + r.1) := by
  have hrest : ∀ c ∈ str.drop (afterSign str), c.toNat < 2 ^ chars.bits := fun c hc => hstr c (List.mem_of_mem_drop hc)
  rw [signed_eq,number_magnitude hk hmax hrest,subject]
  cases magnitude base (str.drop (afterSign str)) with
  | none => rfl
  | some r => simp [Nat.add_assoc]

theorem validBase_iff (ibase : BitVec 32) : ValidBase ibase ↔ ¬(36 < ibase.toNat ∨ ibase.toNat = 1) := by
  have hcases := BitVec.toInt_eq_toNat_cond ibase
  have hlt := ibase.isLt
  unfold ValidBase
  rw [hcases]
  split_ifs <;> omega

theorem strtol_parses (hk : 0 < k.bits) (space : UInt32 → Bool) (str : Str chars) (ibase : BitVec 32) :
    Parses k (edge k) space str.units ibase (strtoi k chars space str ibase) := by
  have hrest : ∀ c ∈ str.units.dropWhile space, c.toNat < 2 ^ chars.bits := fun c hc =>
    (str.wellformed c ((List.dropWhile_suffix space).subset hc)).2
  constructor
  · intro hbase
    rw [validBase_iff,not_not] at hbase
    rw [strtoi,if_pos hbase]
    exact ⟨rfl,rfl⟩
  · intro hbase habsent
    rw [validBase_iff] at hbase
    rw [strtoi,if_neg hbase,signed_subject hk (by omega) hrest]
    cases hsubject : subject ibase.toNat (str.units.dropWhile space) with
    | none => rfl
    | some r => exact absurd ⟨_,_,subject_sound hsubject,List.take_prefix _ _⟩ habsent
  · intro hbase text v hlongest
    rw [validBase_iff] at hbase
    obtain ⟨r,hr,hle,heq⟩ := subject_longest hlongest.subject hlongest.here
    have hlen : text.length = r.1 := by
      have hmax := hlongest.longest _ _ (subject_sound hr) (List.take_prefix _ _)
      rw [List.length_take,Nat.min_eq_left (subject_within hr)] at hmax
      omega
    rw [strtoi,if_neg hbase,signed_subject hk (by omega) hrest,hr,heq hlen,hlen]
    rfl

theorem narrow_wellformed {bytes : List UInt8} (h : 0 ∉ bytes) :
    ∀ c ∈ bytes.map UInt8.toUInt32, c ≠ 0 ∧ c.toNat < 2 ^ Chars.narrow.bits := by
  intro c hc
  obtain ⟨b,hb,rfl⟩ := List.mem_map.mp hc
  refine ⟨fun hzero => h ?_,?_⟩
  · have hval : b = 0 := UInt8.toNat_inj.mp (by simpa using congrArg UInt32.toNat hzero)
    rwa [← hval]
  · simpa [Chars.bits] using b.toNat_lt

def ofBytes (bytes : List UInt8) (h : 0 ∉ bytes) : Str .narrow := ⟨bytes.map UInt8.toUInt32,narrow_wellformed h⟩

def sevenNegated : List UInt8 := [0x20,0x2d,0x30,0x78,0x37,0x7a]

theorem sevenNegated_ends : 0 ∉ sevenNegated := by decide

theorem strtoul_seven :
    0 < 64 ∧ Parses ⟨64,false,true⟩ (edge ⟨64,false,true⟩) (fun c => c = 0x20) (ofBytes _ sevenNegated_ends).units 0
      (strtoul .narrow 64 true (fun c => c = 0x20) (ofBytes _ sevenNegated_ends) 0) :=
  ⟨by decide,strtol_parses (by decide) (fun c => c = 0x20) (ofBytes _ sevenNegated_ends) 0⟩

def belowAll : List UInt8 := [0x2d,0x34,0x32,0x39,0x34,0x39,0x36,0x37,0x32,0x39,0x36]

theorem belowAll_ends : 0 ∉ belowAll := by decide

theorem negative_beyond :
    ¬Parses ⟨32,false,true⟩ (nearest ⟨32,false,true⟩) (fun c => c = 0x20) (ofBytes _ belowAll_ends).units 10
      (strtoul .narrow 32 true (fun c => c = 0x20) (ofBytes _ belowAll_ends) 10) := by
  intro h
  have hmagnitude : Magnitude 10 (ofBytes _ belowAll_ends).units.tail 4294967296 :=
    @Magnitude.plain 10 _ [4,2,9,4,9,6,7,2,9,6] (by decide) (by decide) ⟨by decide,by decide⟩
  have hlongest : Longest 10 ((ofBytes _ belowAll_ends).units.dropWhile fun c => c = 0x20)
      (ofBytes _ belowAll_ends).units (-4294967296) :=
    ⟨.minus hmagnitude,List.prefix_rfl,fun text' v' _ hpre => hpre.length_le⟩
  have hbase : ValidBase 10 := .inr (by decide)
  have hresult := h.parsed hbase _ _ hlongest
  have hvalue := congrArg Strtoi.Result.value hresult
  exact absurd hvalue (by decide)

theorem narrow_digits {neg : Bool} {base : Nat} (bytes : List UInt8) (pos : Nat) (s : Scan) :
    digits k .narrow neg base pos (bytes.map UInt8.toUInt32) s = Strtoi.digits k neg base pos bytes s := by
  induction bytes generalizing pos s with
  | nil => rfl
  | cons b bytes ih =>
    rw [List.map_cons,digits,Strtoi.digits]
    exact if_congr Iff.rfl rfl (ih (pos + 1) _)

theorem narrow_eq (b c : UInt8) : b.toUInt32 = c.toUInt32 ↔ b = c :=
  ⟨fun h => UInt8.toNat_inj.mp (by simpa using congrArg UInt32.toNat h),congrArg UInt8.toUInt32⟩

theorem narrow_number {neg : Bool} {base : Nat} (bytes : List UInt8) (pos : Nat) :
    number k .narrow neg base pos (bytes.map UInt8.toUInt32) = Strtoi.number k neg base pos bytes := by
  have hlower : ∀ b : UInt8, toLower b.toUInt32 = 0x78 ↔ Ascii.toLower b = 0x78 := fun b => by
    rw [← narrow_eq]
    exact Iff.rfl
  by_cases hhead : bytes.head? = some 0x30
  · obtain ⟨rest,rfl⟩ := List.head?_eq_some_iff.mp hhead
    cases rest with
    | nil => exact congrArg (finish k neg) (narrow_digits [0x30] pos _)
    | cons c rest =>
      show number k .narrow neg base pos (0x30 :: c.toUInt32 :: rest.map UInt8.toUInt32) = _
      rw [number,Strtoi.number,narrow_digits]
      exact if_congr (and_congr_left' (hlower c)) rfl (congrArg (finish k neg) (narrow_digits (0x30 :: c :: rest) pos _))
  · have hwide : (bytes.map UInt8.toUInt32).head? ≠ some 0x30 := by
      intro h
      rw [List.head?_map] at h
      obtain ⟨b,hb,hzero⟩ := Option.map_eq_some_iff.mp h
      exact hhead (by rw [hb,(narrow_eq b 0x30).mp hzero])
    rw [number.eq_3,Strtoi.number.eq_3,narrow_digits]
    · rintro c str rfl
      exact hhead rfl
    · rintro rfl
      exact hhead rfl
    · intro c str h
      exact hwide (by rw [h]; rfl)
    · intro h
      exact hwide (by rw [h]; rfl)

theorem narrow_signed (bytes : List UInt8) (base pos : Nat) :
    signed k .narrow base pos (bytes.map UInt8.toUInt32) = Strtoi.signed k base pos bytes := by
  cases bytes with
  | nil => rfl
  | cons b bytes =>
    by_cases hminus : b = 0x2d
    · subst hminus
      exact narrow_number bytes (pos + 1)
    · by_cases hplus : b = 0x2b
      · subst hplus
        exact narrow_number bytes (pos + 1)
      · have hwide : b.toUInt32 ≠ 0x2d ∧ b.toUInt32 ≠ 0x2b :=
          ⟨fun h => hminus ((narrow_eq b 0x2d).mp h),fun h => hplus ((narrow_eq b 0x2b).mp h)⟩
        rw [signed.eq_3,Strtoi.signed.eq_3,narrow_number]
        · exact fun str h => hminus (List.cons.inj h).1
        · exact fun str h => hplus (List.cons.inj h).1
        · exact fun str h => hwide.1 (List.cons.inj h).1
        · exact fun str h => hwide.2 (List.cons.inj h).1

theorem narrow_space (p : UInt8 → Bool) (space : UInt32 → Bool) (hspace : ∀ b : UInt8, space b.toUInt32 = p b)
    (bytes : List UInt8) :
    ((bytes.map UInt8.toUInt32).takeWhile space).length = (bytes.takeWhile p).length ∧
      (bytes.map UInt8.toUInt32).dropWhile space = (bytes.dropWhile p).map UInt8.toUInt32 := by
  induction bytes with
  | nil => exact ⟨rfl,rfl⟩
  | cons b bytes ih =>
    rw [List.map_cons,List.takeWhile_cons,List.dropWhile_cons,List.takeWhile_cons,List.dropWhile_cons,hspace]
    cases p b with
    | true => exact ⟨congrArg Nat.succ ih.1,ih.2⟩
    | false => exact ⟨rfl,rfl⟩

theorem narrow_strtoi {space : UInt32 → Bool} (hspace : ∀ b : UInt8, space b.toUInt32 = isspace b)
    {bytes : List UInt8} (h : 0 ∉ bytes) (ibase : BitVec 32) :
    strtoi k .narrow space (ofBytes bytes h) ibase = Strtoi.strtoi k bytes ibase.toNat := by
  obtain ⟨hlength,hrest⟩ := narrow_space isspace space hspace bytes
  show ite _ _ (signed k .narrow _ ((bytes.map UInt8.toUInt32).takeWhile space).length
    ((bytes.map UInt8.toUInt32).dropWhile space)) = _
  rw [hlength,hrest,narrow_signed]
  rfl

end

end Strtol
