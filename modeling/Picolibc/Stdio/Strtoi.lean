import Mathlib
import Picolibc.Lib.Ascii
import Picolibc.Lib.Numerals

open Ascii Numerals

namespace Strtoi

structure Kind where
  bits : Nat
  signed : Bool
  builtins : Bool
  deriving DecidableEq, Repr

inductive Errno where
  | einval
  | erange
  deriving DecidableEq, Repr

structure Result where
  value : Int
  stop : Nat
  errno : Option Errno
  deriving DecidableEq, Repr

def isspace (c : UInt8) : Bool := c = 0x20 || (decide (0x09 ≤ c) && decide (c ≤ 0x0d))

def digitToVal (c : UInt8) : UInt32 :=
  let c := c.toUInt32
  (if 0x39 < c then ((c - 1) ||| 0x20) + (0x30 - 0x61 + 11) else c) - 0x30

structure Scan where
  val : Nat
  oflow : Bool
  stop : Nat
  deriving DecidableEq, Repr

section

variable (k : Kind)

def limit (neg : Bool) : Nat :=
  if k.signed then 2 ^ (k.bits - 1) - 1 + (if neg then 1 else 0) else 2 ^ k.bits - 1

def addDigit (neg : Bool) (base : Nat) (s : Scan) (d : Nat) : Scan :=
  if k.builtins ∧ k.signed = false then
    if 2 ^ k.bits ≤ s.val * base then { s with val := s.val * base % 2 ^ k.bits, oflow := true } else
    { s with
      val := (s.val * base + d) % 2 ^ k.bits
      oflow := s.oflow || decide (2 ^ k.bits ≤ s.val * base + d) }
  else if limit k neg / base < s.val ∨ s.val = limit k neg / base ∧ limit k neg % base < d then { s with oflow := true }
  else { s with val := (s.val * base + d) % 2 ^ k.bits }

def digits (neg : Bool) (base : Nat) : Nat → List UInt8 → Scan → Scan
  | _, [], s => s
  | pos, c :: str, s =>
    if base ≤ (digitToVal c).toNat then s else
    digits neg base (pos + 1) str { addDigit k neg base s (digitToVal c).toNat with stop := pos + 1 }

def finish (neg : Bool) (s : Scan) : Result :=
  if s.oflow then
    ⟨if k.signed then Int.bmod (limit k neg) (2 ^ k.bits) else 2 ^ k.bits - 1,s.stop,some .erange⟩
  else
    let val := if neg then (-s.val : Int) else s.val
    ⟨if k.signed then val.bmod (2 ^ k.bits) else val % 2 ^ k.bits,s.stop,none⟩

def number (neg : Bool) (base : Nat) (pos : Nat) : List UInt8 → Result
  | 0x30 :: c :: str =>
    if toLower c = 0x78 ∧ base ||| 16 = 16 then
      finish k neg (digits k neg 16 (pos + 2) str ⟨0,false,pos + 1⟩)
    else finish k neg (digits k neg (if base = 0 then 8 else base) pos (0x30 :: c :: str) ⟨0,false,0⟩)
  | [0x30] => finish k neg (digits k neg (if base = 0 then 8 else base) pos [0x30] ⟨0,false,0⟩)
  | str => finish k neg (digits k neg (if base = 0 then 10 else base) pos str ⟨0,false,0⟩)

def signed (base : Nat) (pos : Nat) : List UInt8 → Result
  | 0x2d :: str => number k true base (pos + 1) str
  | 0x2b :: str => number k false base (pos + 1) str
  | str => number k false base pos str

def strtoi (str : List UInt8) (base : Nat) : Result :=
  if 36 < base ∨ base = 1 then ⟨0,0,some .einval⟩ else
  signed k base (str.takeWhile isspace).length (str.dropWhile isspace)

end

def strtoul (longBits : Nat) (builtins : Bool) : List UInt8 → Nat → Result := strtoi ⟨longBits,false,builtins⟩

def digitByte (d : Nat) : UInt8 := UInt8.ofNat (0x30 + d)

section

variable {k : Kind} {neg : Bool} {base : Nat}

theorem limit_lt (hk : 0 < k.bits) : limit k neg < 2 ^ k.bits := by
  have hpow : 2 ^ k.bits = 2 * 2 ^ (k.bits - 1) := by
    rw [← pow_succ']
    congr 1
    omega
  have hpos : 0 < 2 ^ (k.bits - 1) := Nat.two_pow_pos _
  unfold limit
  split_ifs <;> omega

theorem addDigit_ok (hk : 0 < k.bits) (hbase : 0 < base) {v d stop : Nat} (h : v * base + d ≤ limit k neg) :
    addDigit k neg base ⟨v,false,stop⟩ d = ⟨v * base + d,false,stop⟩ := by
  have hlt : v * base + d < 2 ^ k.bits := h.trans_lt (limit_lt hk)
  have hle : v ≤ limit k neg / base := (Nat.le_div_iff_mul_le hbase).mpr (le_trans (Nat.le_add_right _ d) h)
  have hlim : ¬(limit k neg / base < v ∨ v = limit k neg / base ∧ limit k neg % base < d) := by
    rintro (hgt | ⟨heq,hgt⟩)
    · exact absurd hle (not_le.mpr hgt)
    · have hmod := Nat.div_add_mod (limit k neg) base
      rw [← heq,Nat.mul_comm] at hmod
      omega
  unfold addDigit
  split_ifs with h₁ h₂
  · exact absurd h₂ (by simp only [not_le]; omega)
  · simp only [Nat.mod_eq_of_lt hlt,Bool.false_or,decide_eq_false (not_le.mpr hlt)]
  · simp only [Nat.mod_eq_of_lt hlt]

theorem digits_horner (hk : 0 < k.bits) (hbase : 0 < base) (text : Nat → UInt8)
    (htext : ∀ d < base, (digitToVal (text d)).toNat = d) {rest : List UInt8}
    (hrest : ∀ c ∈ rest.head?, base ≤ (digitToVal c).toNat) {ds : List Nat} (hds : ∀ d ∈ ds, d < base)
    {v : Nat} (hv : horner base v ds ≤ limit k neg) (pos stop : Nat) :
    digits k neg base pos (ds.map text ++ rest) ⟨v,false,stop⟩ =
      ⟨horner base v ds,false,if ds = [] then stop else pos + ds.length⟩ := by
  induction ds generalizing v pos stop with
  | nil =>
    cases rest with
    | nil => simp [digits,horner_nil]
    | cons c rest => simp [digits,horner_nil,hrest c (by simp)]
  | cons d ds ih =>
    have hd : d < base := hds d List.mem_cons_self
    have hle : v * base + d ≤ limit k neg := (le_horner hbase _ ds).trans hv
    rw [horner_cons] at hv
    rw [List.map_cons,List.cons_append,digits,htext d hd,if_neg (not_le.mpr hd),addDigit_ok hk hbase hle]
    rw [ih (fun e he => hds e (List.mem_cons_of_mem d he)) hv,horner_cons]
    by_cases hnil : ds = []
    · simp [hnil]
    · simp [hnil,Nat.add_comm,Nat.add_left_comm]

theorem digitByte_val {d : Nat} (hd : d < 8) : (digitToVal (digitByte d)).toNat = d := by
  interval_cases d <;> decide

theorem digitByte_decimal {d : Nat} (hd : d < 10) : (digitToVal (digitByte d)).toNat = d ∧ isspace (digitByte d) = false ∧
    digitByte d ≠ 0x2d ∧ digitByte d ≠ 0x2b := by
  interval_cases d <;> decide

theorem number_decimal (pos : Nat) (str : List UInt8) :
    number k neg 10 pos str = finish k neg (digits k neg 10 pos str ⟨0,false,0⟩) := by
  unfold number
  split
  · rw [if_neg (fun h => absurd h.2 (by decide)),if_neg (by decide)]
  · rw [if_neg (by decide)]
  · rw [if_neg (by decide)]

theorem strtoi_decimal (hk : 0 < k.bits) (hs : k.signed = true) {ds : List Nat} (hne : ds ≠ []) (hds : ∀ d ∈ ds, d < 10)
    {rest : List UInt8} (hrest : ∀ c ∈ rest.head?, 10 ≤ (digitToVal c).toNat) (hv : horner 10 0 ds < 2 ^ (k.bits - 1)) :
    strtoi k (ds.map digitByte ++ rest) 10 = ⟨horner 10 0 ds,ds.length,none⟩ := by
  obtain ⟨d,ds,rfl⟩ := List.exists_cons_of_ne_nil hne
  obtain ⟨-,hspace,hminus,hplus⟩ := digitByte_decimal (hds d List.mem_cons_self)
  have hlimit : horner 10 0 (d :: ds) ≤ limit k false := by
    simp only [limit,hs,if_true,Bool.false_eq_true,if_false]
    omega
  have hscan := digits_horner hk (by decide) digitByte (fun e he => (digitByte_decimal he).1) hrest hds hlimit 0 0
  have hmod : (horner 10 0 (d :: ds) : Int).bmod (2 ^ k.bits) = horner 10 0 (d :: ds) := by
    have hpow : 2 ^ k.bits = 2 * 2 ^ (k.bits - 1) := by
      rw [← pow_succ']
      congr 1
      omega
    refine Int.bmod_eq_of_le_mul_two ?_ ?_ <;> omega
  rw [strtoi,if_neg (by decide)]
  rw [List.map_cons,List.cons_append] at hscan ⊢
  rw [List.takeWhile_cons_of_neg (by simp [hspace]),List.dropWhile_cons_of_neg (by simp [hspace]),List.length_nil,
    Strtoi.signed,number_decimal,hscan]
  · simp [finish,hs,hmod]
  · exact fun _ h => hminus (List.cons.inj h).1
  · exact fun _ h => hplus (List.cons.inj h).1

theorem digitByte_lower {d : Nat} (hd : d < 8) : toLower (digitByte d) ≠ 0x78 := by
  interval_cases d <;> decide

theorem number_octal (hk : 0 < k.bits) {ds : List Nat} (hds : ∀ d ∈ ds, d < 8) {rest : List UInt8}
    (hrest : ∀ c ∈ rest.head?, 8 ≤ (digitToVal c).toNat ∧ toLower c ≠ 0x78) (hv : horner 8 0 ds ≤ limit k neg)
    (pos : Nat) :
    number k neg 0 pos (0x30 :: (ds.map digitByte ++ rest)) =
      finish k neg ⟨horner 8 0 ds,false,pos + 1 + ds.length⟩ := by
  have hscan : digits k neg 8 pos (0x30 :: (ds.map digitByte ++ rest)) ⟨0,false,0⟩ =
      ⟨horner 8 0 ds,false,pos + 1 + ds.length⟩ := by
    have h := @digits_horner k neg 8 hk (by decide) digitByte (fun d hd => digitByte_val hd) rest
      (fun c hc => (hrest c hc).1) (0 :: ds) (by simpa using hds) 0 (by simpa [horner_cons] using hv) pos 0
    simpa [horner_cons,digitByte,Nat.add_comm,Nat.add_left_comm] using h
  cases ds with
  | cons d ds =>
    have hlow := digitByte_lower (hds d List.mem_cons_self)
    rw [List.map_cons,List.cons_append] at hscan ⊢
    rw [number,if_neg (fun h => hlow h.1),if_pos rfl,hscan]
  | nil =>
    cases rest with
    | nil =>
      rw [List.map_nil,List.nil_append] at hscan ⊢
      rw [number,if_pos rfl,hscan]
    | cons c rest =>
      have hlow := (hrest c (by simp)).2
      rw [List.map_nil,List.nil_append] at hscan ⊢
      rw [number,if_neg (fun h => hlow h.1),if_pos rfl,hscan]

theorem strtoi_octal (hk : 0 < k.bits) (hu : k.signed = false) {ds : List Nat} (hds : ∀ d ∈ ds, d < 8)
    {rest : List UInt8} (hrest : ∀ c ∈ rest.head?, 8 ≤ (digitToVal c).toNat ∧ toLower c ≠ 0x78)
    (hv : horner 8 0 ds < 2 ^ k.bits) (n : Nat) :
    strtoi k (List.replicate n 0x20 ++ 0x30 :: (ds.map digitByte ++ rest)) 0 =
      ⟨horner 8 0 ds,n + 1 + ds.length,none⟩ := by
  have hlimit : horner 8 0 ds ≤ limit k false := by
    rw [limit,if_neg (by simp [hu])]
    omega
  have hblank : ∀ c ∈ List.replicate n (0x20 : UInt8), isspace c = true := by
    intro c hc
    rw [List.eq_of_mem_replicate hc]
    decide
  have htake : (List.replicate n 0x20 ++ 0x30 :: (ds.map digitByte ++ rest)).takeWhile isspace = List.replicate n 0x20 := by
    rw [List.takeWhile_append_of_pos hblank,List.takeWhile_cons_of_neg (by decide),List.append_nil]
  have hdrop : (List.replicate n 0x20 ++ 0x30 :: (ds.map digitByte ++ rest)).dropWhile isspace =
      0x30 :: (ds.map digitByte ++ rest) := by
    rw [List.dropWhile_append_of_pos hblank,List.dropWhile_cons_of_neg (by decide)]
  have hmod : (horner 8 0 ds : Int) % 2 ^ k.bits = horner 8 0 ds :=
    Int.emod_eq_of_lt (by omega) (by exact_mod_cast hv)
  rw [strtoi,if_neg (by decide),htake,hdrop,List.length_replicate,Strtoi.signed,number_octal hk hds hrest hlimit]
  · simp [finish,hu,hmod]
  · simp
  · simp

end

end Strtoi
