import Mathlib
import Picolibc.Lib.Checked

namespace Radix64

open Checked (signed32)

inductive LongSize where
  | four
  | eight
deriving DecidableEq,Repr

def LongSize.bits : LongSize → Nat
  | .four => 32
  | .eight => 64

structure Target where
  long : LongSize
  sizeOverSpeed : Bool
  charSigned : Bool
deriving Repr

def r64Array : List UInt8 :=
  "./0123456789ABCDEFGHIJKLMNOPQRSTUVWXYZabcdefghijklmnopqrstuvwxyz".toList.map (fun c => UInt8.ofNat c.toNat)

def emit : Nat → Nat → Nat → List UInt8 → List UInt8
  | 0, _, _, buf => buf
  | k + 1, i, tmp, buf =>
    if tmp = 0 then buf.set i 0
    else emit k (i + 1) (tmp >>> 6) (buf.set i (r64Array.getD (tmp &&& (64 - 1)) 0))

def unsignedLong (t : Target) (v : Int) : Nat := (v % 2 ^ t.long.bits).toNat

def l64a (t : Target) (buf : List UInt8) (value : Int) : List UInt8 :=
  emit 6 0 (unsignedLong t value &&& 0xffffffff) buf

def emptyBuf : List UInt8 := List.replicate 8 0

def history (t : Target) (earlier : List Int) : List UInt8 := earlier.foldl (l64a t) emptyBuf

def text (buf : List UInt8) : List UInt8 := buf.takeWhile (· ≠ 0)

def between (lo hi ch : UInt8) : Bool := lo ≤ ch ∧ ch ≤ hi

def digitBySize (charSigned : Bool) (ch : UInt8) : Nat :=
  if charSigned ∧ 128 ≤ ch then 0
  else if 97 ≤ ch then (ch.toNat - 97) + 38
  else if 65 ≤ ch then (ch.toNat - 65) + 12
  else if 48 ≤ ch then (ch.toNat - 48) + 2
  else if ch = 47 then 1
  else 0

def digitBySwitch (ch : UInt8) : Nat :=
  if ch = 47 then 1
  else if between 48 57 ch then (ch.toNat - 48) + 2
  else if between 65 90 ch then (ch.toNat - 65) + 12
  else if between 97 122 ch then (ch.toNat - 97) + 38
  else 0

def digit (t : Target) (ch : UInt8) : Nat :=
  if t.sizeOverSpeed then digitBySize t.charSigned ch else digitBySwitch ch

def accumulate (t : Target) (chars : List UInt8) : Nat :=
  chars.foldr (fun ch result => (result <<< 6 + digit t ch) % 2 ^ t.long.bits) 0

def toLong (t : Target) (u : Nat) : Int :=
  if u < 2 ^ (t.long.bits - 1) then u else u - 2 ^ t.long.bits

def a64l (t : Target) : Option (List UInt8) → Int
  | none => 0
  | some input => toLong t (accumulate t (input.take 6))

def low32 (v : Int) : Nat := (v % 2 ^ 32).toNat

structure RoundTrips (t : Target) (earlier : List Int) (v : Int) : Prop where
  decoded : a64l t (some (text (l64a t (history t earlier) v))) = signed32 (low32 v)
  terminated : ∃ n ≤ 6, (l64a t (history t earlier) v)[n]? = some 0
  encoded : ∀ past u later, text (l64a t (history t later) (a64l t (some (text (l64a t (history t past) u))))) =
    text (l64a t (history t past) u)

theorem low32_lt (v : Int) : low32 v < 2 ^ 32 := by
  have h := Int.emod_lt_of_pos v (show (0 : Int) < 2 ^ 32 by norm_num)
  have h0 := Int.emod_nonneg v (show (2 : Int) ^ 32 ≠ 0 by norm_num)
  rw [low32]
  omega

theorem masked (t : Target) (v : Int) : unsignedLong t v &&& 0xffffffff = low32 v := by
  have hm : unsignedLong t v &&& 0xffffffff = unsignedLong t v % 2 ^ 32 :=
    Nat.and_two_pow_sub_one_eq_mod _ 32
  rw [hm,unsignedLong,low32]
  obtain ⟨l,o,c⟩ := t
  cases l with
  | four => simp only [LongSize.bits]; omega
  | eight => simp only [LongSize.bits]; omega

def glyph (d : Nat) : UInt8 := r64Array.getD d 0

theorem table_digit {f : UInt8 → Nat} (h : r64Array.map f = List.range 64) : ∀ d < 64, f (glyph d) = d := by
  intro d hd
  have hlen : r64Array.length = 64 := by rw [← List.length_map (f := f),h,List.length_range]
  have hin : d < r64Array.length := hlen ▸ hd
  have hget : (r64Array.map f)[d]? = some d := by rw [h,List.getElem?_range hd]
  rw [List.getElem?_map,List.getElem?_eq_getElem hin,Option.map_some,Option.some.injEq] at hget
  rwa [glyph,List.getD_eq_getElem?_getD,List.getElem?_eq_getElem hin]

theorem glyph_nonzero (d : Nat) (hd : d < 64) : glyph d ≠ 0 := by
  have hpos : r64Array.all (· ≠ 0) = true := by rfl
  have hlen : r64Array.length = 64 := by rfl
  have hmem : glyph d ∈ r64Array := by
    rw [glyph,List.getD_eq_getElem _ _ (by omega)]
    exact List.getElem_mem _
  simpa using List.all_eq_true.mp hpos _ hmem

theorem digit_glyph (t : Target) : ∀ d < 64, digit t (glyph d) = d := by
  obtain ⟨l,o,c⟩ := t
  cases o with
  | true =>
    cases c with
    | true => exact table_digit (f := digitBySize true) (by rfl)
    | false => exact table_digit (f := digitBySize false) (by rfl)
  | false => exact table_digit (f := digitBySwitch) (by rfl)

structure Sound (buf : List UInt8) : Prop where
  size : buf.length = 8
  last : buf[6]? = some 0

theorem takeWhile_set {l : List UInt8} {i : Nat} (hi : i < l.length) (hl : ∀ c ∈ l.take i, c ≠ 0) :
    text (l.set i 0) = l.take i := by
  have hsplit : l.set i 0 = l.take i ++ 0 :: l.drop (i + 1) := by
    rw [List.set_eq_take_append_cons_drop,if_pos hi]
  rw [text,hsplit,List.takeWhile_append_of_pos (by simpa using hl)]
  simp

theorem take_set_succ {l : List UInt8} {i : Nat} (hi : i < l.length) (c : UInt8) :
    (l.set i c).take (i + 1) = l.take i ++ [c] := by
  have hlen : (l.take i).length = i := by rw [List.length_take]; omega
  rw [List.set_eq_take_append_cons_drop,if_pos hi,List.take_append,hlen,List.take_of_length_le (by omega)]
  simp

theorem Sound.set {buf : List UInt8} (hb : Sound buf) {i : Nat} (hi : i < 6) (c : UInt8) : Sound (buf.set i c) where
  size := by rw [List.length_set,hb.size]
  last := by rw [List.getElem?_set_ne (by omega),hb.last]

theorem glyph_of_and (n : Nat) : r64Array.getD (n &&& (64 - 1)) 0 = glyph (n % 64) := by
  rw [show n &&& (64 - 1) = n % 64 from Nat.and_two_pow_sub_one_eq_mod n 6]
  rfl

theorem emit_text {k i tmp : Nat} {buf : List UInt8} (hb : Sound buf) (hk : k + i = 6) (ht : tmp < 64 ^ k)
    (hl : ∀ c ∈ buf.take i, c ≠ 0) :
    text (emit k i tmp buf) = buf.take i ++ (Nat.digits 64 tmp).map glyph ∧ Sound (emit k i tmp buf) := by
  induction k generalizing i tmp buf with
  | zero =>
    have hi : i = 6 := by omega
    have h0 : tmp = 0 := by simpa using ht
    have h6 : 6 < buf.length := by rw [hb.size]; norm_num
    have hsame : buf.set 6 0 = buf := by
      have hlast : buf[6] = 0 := by simpa [h6] using hb.last
      rw [← hlast,List.set_getElem_self]
    subst hi h0
    refine ⟨?_,hb⟩
    have h := takeWhile_set h6 hl
    rw [hsame] at h
    simpa [emit] using h
  | succ k ih =>
    rw [emit]
    by_cases h0 : tmp = 0
    · subst h0
      rw [if_pos rfl,Nat.digits_zero,List.map_nil,List.append_nil]
      exact ⟨takeWhile_set (by rw [hb.size]; omega) hl,hb.set (by omega) 0⟩
    · have hi : i < buf.length := by rw [hb.size]; omega
      have htake := take_set_succ hi (glyph (tmp % 64))
      have hless : tmp >>> 6 < 64 ^ k := by rw [Nat.shiftRight_eq_div_pow]; omega
      have hplain : ∀ c ∈ (buf.set i (glyph (tmp % 64))).take (i + 1), c ≠ 0 := by
        intro c hc
        rw [htake,List.mem_append,List.mem_singleton] at hc
        rcases hc with hc | rfl
        · exact hl c hc
        · exact glyph_nonzero _ (Nat.mod_lt _ (by norm_num))
      have hnext := ih (hb.set (by omega) (glyph (tmp % 64))) (show k + (i + 1) = 6 by omega) hless hplain
      rw [if_neg h0,glyph_of_and]
      refine ⟨?_,hnext.2⟩
      rw [hnext.1,htake,Nat.digits_def' (by norm_num) (by omega : 0 < tmp),Nat.shiftRight_eq_div_pow]
      simp

theorem history_sound (t : Target) (earlier : List Int) : Sound (history t earlier) := by
  have h : ∀ buf, Sound buf → Sound (earlier.foldl (l64a t) buf) := by
    induction earlier with
    | nil => exact fun _ hb => hb
    | cons v vs ih =>
      intro buf hb
      have hv : low32 v < 64 ^ 6 := lt_trans (low32_lt v) (by norm_num)
      refine ih _ ?_
      rw [l64a,masked]
      exact (emit_text hb rfl hv (by simp)).2
  exact h _ ⟨rfl,rfl⟩

theorem l64a_text (t : Target) (earlier : List Int) (v : Int) :
    text (l64a t (history t earlier) v) = (Nat.digits 64 (low32 v)).map glyph ∧
      Sound (l64a t (history t earlier) v) := by
  have hv : low32 v < 64 ^ 6 := lt_trans (low32_lt v) (by norm_num)
  rw [l64a,masked]
  have h := emit_text (history_sound t earlier) (show 6 + 0 = 6 from rfl) hv (by simp)
  rwa [List.take_zero,List.nil_append] at h

theorem accumulate_digits (t : Target) {ds : List Nat} (hds : ∀ d ∈ ds, d < 64) :
    accumulate t (ds.map glyph) = Nat.ofDigits 64 ds % 2 ^ t.long.bits := by
  induction ds with
  | nil => rw [Nat.ofDigits_nil,Nat.zero_mod]; rfl
  | cons d ds ih =>
    have htail := ih (fun x hx => hds x (List.mem_cons_of_mem d hx))
    simp only [accumulate] at htail
    rw [List.map_cons,accumulate,List.foldr_cons,htail,digit_glyph t d (hds d List.mem_cons_self),Nat.ofDigits_cons,
      Nat.shiftLeft_eq]
    conv_lhs => rw [Nat.add_mod,Nat.mul_mod,Nat.mod_mod,← Nat.mul_mod,← Nat.add_mod]
    congr 1
    push_cast
    ring

theorem a64l_digits (t : Target) {n : Nat} (hn : n < 2 ^ 32) :
    a64l t (some ((Nat.digits 64 n).map glyph)) = toLong t n := by
  have hlen : (Nat.digits 64 n).length ≤ 6 :=
    (Nat.digits_length_le_iff (by norm_num) n).mpr (lt_trans hn (by norm_num))
  have hbits : n < 2 ^ t.long.bits :=
    lt_of_lt_of_le hn (Nat.pow_le_pow_right (by norm_num) (by cases t.long <;> simp [LongSize.bits]))
  rw [a64l,List.take_of_length_le (by simpa using hlen),
    accumulate_digits t (fun d hd => Nat.digits_lt_base (by norm_num) hd),Nat.ofDigits_digits,Nat.mod_eq_of_lt hbits]

theorem toLong_four (o c : Bool) (n : Nat) : toLong ⟨.four,o,c⟩ n = signed32 n := rfl

theorem toLong_eight (o c : Bool) {n : Nat} (hn : n < 2 ^ 32) : toLong ⟨.eight,o,c⟩ n = n :=
  if_pos (show n < 2 ^ 63 by omega)

theorem signed32_low {n : Nat} (hn : n < 2 ^ 32) : low32 (signed32 n) = n := by
  rw [low32,signed32]
  split <;> omega

theorem toLong_low (t : Target) {n : Nat} (hn : n < 2 ^ 32) : low32 (toLong t n) = n := by
  obtain ⟨l,o,c⟩ := t
  cases l with
  | four => rw [toLong_four,signed32_low hn]
  | eight => rw [toLong_eight o c hn,low32]; omega

theorem toLong_signed (t : Target) {n : Nat} (hn : n < 2 ^ 32) :
    toLong t n = signed32 n ↔ t.long = .four ∨ n < 2 ^ 31 := by
  obtain ⟨l,o,c⟩ := t
  cases l with
  | four => exact iff_of_true (toLong_four o c n) (Or.inl rfl)
  | eight =>
    rw [toLong_eight o c hn,signed32]
    simp only [reduceCtorEq,false_or]
    split <;> omega

theorem text_terminated {buf : List UInt8} (hb : Sound buf) : ∃ n ≤ 6, buf[n]? = some 0 :=
  ⟨6,le_refl 6,hb.last⟩

theorem l64a_a64l_iff (t : Target) (earlier : List Int) (v : Int) :
    RoundTrips t earlier v ↔ t.long = .four ∨ low32 v < 2 ^ 31 := by
  have hdec : a64l t (some (text (l64a t (history t earlier) v))) = toLong t (low32 v) := by
    rw [(l64a_text t earlier v).1,a64l_digits t (low32_lt v)]
  constructor
  · intro h
    exact (toLong_signed t (low32_lt v)).mp (hdec.symm.trans h.decoded)
  · intro h
    refine ⟨hdec.trans ((toLong_signed t (low32_lt v)).mpr h),text_terminated (l64a_text t earlier v).2,?_⟩
    intro past u later
    rw [(l64a_text t past u).1,a64l_digits t (low32_lt u),(l64a_text t later _).1,toLong_low t (low32_lt u)]

theorem wide_negative :
    ¬ ∀ (t : Target) (earlier : List Int) (v : Int), RoundTrips t earlier v := by
  intro h
  have h1 := (h ⟨.eight,false,true⟩ [] (-1)).decoded
  exact absurd h1 (by decide)

end Radix64
