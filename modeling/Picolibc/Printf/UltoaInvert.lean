import Mathlib
import Picolibc.Printf.Digits

namespace Ultoa

open Printf

def fit (w : Nat) (x : Int) : Option Nat := if 0 ≤ x ∧ x < 2 ^ w then some x.toNat else none

structure Config where
  wide : Bool
  fancy : Bool
  percentB : Bool
  deriving DecidableEq,Repr

def Config.bits (c : Config) : Nat := if c.wide then 64 else 32

def Config.printfBufSize (c : Config) : Nat :=
  if c.wide then if c.percentB then 64 else 22 else if c.percentB then 32 else 11

def estimate (c : Config) (n : Nat) : Option Nat := do
  let q ← fit c.bits (n >>> 1 + n >>> 2 : Nat)
  let q ← fit c.bits (q + q >>> 4 : Nat)
  let q ← fit c.bits (q + q >>> 8 : Nat)
  let q ← fit c.bits (q + q >>> 16 : Nat)
  let q ← if c.wide then fit c.bits (q + q >>> 32 : Nat) else some q
  some (q >>> 3)

def correction (c : Config) (n q : Nat) : Option (Nat × Nat) := do
  let four ← fit c.bits (q <<< 2 : Nat)
  let five ← fit c.bits (four + q : Nat)
  let ten ← fit c.bits (five <<< 1 : Nat)
  let r ← fit c.bits ((n : Int) - ten)
  let r ← fit 7 r
  if 9 < r then do
    let q ← fit c.bits (q + 1 : Nat)
    let r ← fit 7 ((r : Int) - 10)
    some (q,r)
  else some (q,r)

def udivmod10 (c : Config) (n : Nat) : Option (Nat × Nat) := do
  let q ← estimate c n
  correction c n q

def udivmod (c : Config) (val base : Nat) : Option (Nat × Nat) :=
  if base = 2 ∧ c.percentB = true then some (val >>> 1,val &&& 1) else
  if base = 8 then some (val >>> 3,val &&& 7) else
  if base = 16 then some (val >>> 4,val &&& 15) else
  udivmod10 c val

def divide (c : Config) (val base : Nat) : Option (Nat × Nat) :=
  if c.fancy then udivmod c val base else if base = 0 then none else some (val / base,val % base)

def invertLoop (c : Config) (hex : UInt8) (base : Nat) : Nat → Nat → Option (List UInt8)
  | 0, _ => none
  | fuel + 1, val => do
    let (val,v) ← divide c val base
    let v := UInt8.ofNat v
    let v := (if 9 < v then v + hex else v) + 48
    if val = 0 then some [v] else (invertLoop c hex base fuel val).map (v :: ·)

def hexOffset (base : Nat) : UInt8 := UInt8.ofInt (97 - 48 - 10 + 16 - base)

def ultoaInvert (c : Config) (val base : Nat) : Option (List UInt8) :=
  invertLoop c (hexOffset base) (base &&& 31) (c.bits + 1) val

def upperHex : Nat := (120 - 88) ||| 16

def Config.bases (c : Config) : List Nat := (if c.percentB then [2] else []) ++ [8,10,16,upperHex]

def glyph (upper : Bool) (d : Nat) : UInt8 := if d < 10 then UInt8.ofNat (48 + d) else UInt8.ofNat ((if upper then 65 else 97) + (d - 10))

section

variable {c : Config} {n : Nat}

theorem fit_some {w x : Nat} (h : x < 2 ^ w) : fit w (x : Int) = some x := by
  rw [fit,if_pos ⟨Int.natCast_nonneg x,by exact_mod_cast h⟩,Int.toNat_natCast]

theorem fit_sub {w x y : Nat} (h : x < 2 ^ w) (hle : y ≤ x) : fit w ((x : Int) - y) = some (x - y) := by
  rw [← Nat.cast_sub hle]
  exact fit_some (by omega)

theorem pow_bits (c : Config) : 2 ^ c.bits = if c.wide then 18446744073709551616 else 4294967296 := by
  unfold Config.bits
  split_ifs <;> rfl

structure Near (n q : Nat) : Prop where
  low : q ≤ n / 10
  high : n / 10 ≤ q + 1

theorem first_sum {q : Nat} (h : q = n / 2 + n / 4) : 4 * q ≤ 3 * n ∧ 3 * n ≤ 4 * q + 5 := by omega

theorem folded {m q q' : Nat} (hm : 0 < m) (h : q' = q + q / m) : m * q' ≤ (m + 1) * q ∧ (m + 1) * q < m * q' + m := by
  have hdiv := Nat.div_add_mod q m
  have hmod := Nat.mod_lt q hm
  have hexp : m * q' = m * q + m * (q / m) := by rw [h,Nat.mul_add]
  have hmul : (m + 1) * q = m * q + q := by ring
  omega

theorem near_word (h : n < 4294967296) {q₁ q₂ q₃ q₄ : Nat} (h₁ : q₁ = n / 2 + n / 4) (h₂ : q₂ = q₁ + q₁ / 16)
    (h₃ : q₃ = q₂ + q₂ / 256) (h₄ : q₄ = q₃ + q₃ / 65536) : q₄ ≤ n ∧ Near n (q₄ / 8) := by
  obtain ⟨hl₁,hu₁⟩ := first_sum h₁
  obtain ⟨hl₂,hu₂⟩ := folded (by decide) h₂
  obtain ⟨hl₃,hu₃⟩ := folded (by decide) h₃
  obtain ⟨hl₄,hu₄⟩ := folded (by decide) h₄
  have hlow : 10 * q₄ ≤ 8 * n := by linarith
  have hhigh : 8 * n ≤ 10 * q₄ + 60 := by linarith
  exact ⟨by omega,by omega,by omega⟩

theorem near_wide (h : n < 18446744073709551616) {q₁ q₂ q₃ q₄ q₅ : Nat} (h₁ : q₁ = n / 2 + n / 4) (h₂ : q₂ = q₁ + q₁ / 16)
    (h₃ : q₃ = q₂ + q₂ / 256) (h₄ : q₄ = q₃ + q₃ / 65536) (h₅ : q₅ = q₄ + q₄ / 4294967296) : q₅ ≤ n ∧ Near n (q₅ / 8) := by
  obtain ⟨hl₁,hu₁⟩ := first_sum h₁
  obtain ⟨hl₂,hu₂⟩ := folded (by decide) h₂
  obtain ⟨hl₃,hu₃⟩ := folded (by decide) h₃
  obtain ⟨hl₄,hu₄⟩ := folded (by decide) h₄
  obtain ⟨hl₅,hu₅⟩ := folded (by decide) h₅
  have hlow : 10 * q₅ ≤ 8 * n := by linarith
  have hhigh : 8 * n ≤ 10 * q₅ + 68 := by linarith
  exact ⟨by omega,by omega,by omega⟩

theorem estimate_near (c : Config) (hn : n < 2 ^ c.bits) : ∃ q, estimate c n = some q ∧ Near n q := by
  obtain ⟨q₁,h₁⟩ : ∃ q, q = n / 2 + n / 4 := ⟨_,rfl⟩
  obtain ⟨q₂,h₂⟩ : ∃ q, q = q₁ + q₁ / 16 := ⟨_,rfl⟩
  obtain ⟨q₃,h₃⟩ : ∃ q, q = q₂ + q₂ / 256 := ⟨_,rfl⟩
  obtain ⟨q₄,h₄⟩ : ∃ q, q = q₃ + q₃ / 65536 := ⟨_,rfl⟩
  have hle₁ : q₁ ≤ n := by omega
  have hle₂ : q₂ ≤ n := by omega
  have hle₃ : q₃ ≤ n := by omega
  have hle₄ : q₄ ≤ n := by omega
  have hsteps : estimate c n = (if c.wide then fit c.bits (q₄ + q₄ >>> 32 : Nat) else some q₄).map (· >>> 3) := by
    simp only [estimate,Nat.shiftRight_eq_div_pow,Option.bind_eq_bind]
    norm_num only
    rw [← h₁,fit_some (hle₁.trans_lt hn),Option.bind_some,← h₂,fit_some (hle₂.trans_lt hn),Option.bind_some,← h₃,
      fit_some (hle₃.trans_lt hn),Option.bind_some,← h₄,fit_some (hle₄.trans_lt hn),Option.bind_some]
    split_ifs
    · cases fit c.bits _ <;> rfl
    · rfl
  rw [hsteps]
  cases hwide : c.wide with
  | false =>
    have hlt : n < 4294967296 := by simpa [pow_bits,hwide] using hn
    exact ⟨q₄ / 8,by simp [Nat.shiftRight_eq_div_pow],(near_word hlt h₁ h₂ h₃ h₄).2⟩
  | true =>
    have hlt : n < 18446744073709551616 := by simpa [pow_bits,hwide] using hn
    obtain ⟨hle,hnear⟩ := near_wide hlt h₁ h₂ h₃ h₄ rfl
    refine ⟨_,?_,hnear⟩
    rw [if_pos rfl,Nat.shiftRight_eq_div_pow,fit_some (hle.trans_lt hn),Option.map_some,Nat.shiftRight_eq_div_pow]

theorem correction_exact (c : Config) {q : Nat} (hn : n < 2 ^ c.bits) (hq : Near n q) :
    correction c n q = some (n / 10,n % 10) := by
  obtain ⟨hlow,hhigh⟩ := hq
  have hten : (q <<< 2 + q) <<< 1 = 10 * q := by
    simp only [Nat.shiftLeft_eq]
    omega
  have hfour : q <<< 2 ≤ 10 * q := by
    rw [Nat.shiftLeft_eq]
    omega
  have hfive : q <<< 2 + q ≤ 10 * q := by
    rw [Nat.shiftLeft_eq]
    omega
  have hall : 10 * q ≤ n := by omega
  simp only [correction,Option.bind_eq_bind]
  rw [fit_some (by omega),Option.bind_some,fit_some (by omega),Option.bind_some,hten,fit_some (by omega),Option.bind_some,
    fit_sub hn hall,Option.bind_some,fit_some (show n - 10 * q < 2 ^ 7 by omega),Option.bind_some]
  by_cases hmore : 9 < n - 10 * q
  · rw [if_pos hmore,fit_some (by omega),Option.bind_some]
    rw [show ((n - 10 * q : Nat) : Int) - 10 = ((n - 10 * q : Nat) : Int) - (10 : Nat) from rfl,fit_sub (by omega) (by omega)]
    refine congrArg some (Prod.ext ?_ ?_)
    · change q + 1 = n / 10
      omega
    · change n - 10 * q - 10 = n % 10
      omega
  · rw [if_neg hmore]
    refine congrArg some (Prod.ext ?_ ?_)
    · change q = n / 10
      omega
    · change n - 10 * q = n % 10
      omega

theorem udivmod10_exact (c : Config) (hn : n < 2 ^ c.bits) : udivmod10 c n = some (n / 10,n % 10) := by
  obtain ⟨q,hq,hnear⟩ := estimate_near c hn
  rw [udivmod10,hq]
  exact correction_exact c hn hnear

end

section

variable {c : Config} {val base : Nat}

theorem low_bits (val k : Nat) : val &&& (2 ^ k - 1) = val % 2 ^ k := Nat.and_two_pow_sub_one_eq_mod val k

theorem udivmod_exact (hv : val < 2 ^ c.bits) (hb : base = 2 ∧ c.percentB = true ∨ base = 8 ∨ base = 10 ∨ base = 16) :
    udivmod c val base = some (val / base,val % base) := by
  rcases hb with ⟨rfl,hb⟩ | rfl | rfl | rfl
  · rw [udivmod,if_pos ⟨rfl,hb⟩]
    exact congrArg some (Prod.ext (Nat.shiftRight_eq_div_pow val 1) (low_bits val 1))
  · rw [udivmod,if_neg (by simp),if_pos rfl]
    exact congrArg some (Prod.ext (Nat.shiftRight_eq_div_pow val 3) (low_bits val 3))
  · rw [udivmod,if_neg (by simp),if_neg (by decide),if_neg (by decide),udivmod10_exact c hv]
  · rw [udivmod,if_neg (by simp),if_neg (by decide),if_pos rfl]
    exact congrArg some (Prod.ext (Nat.shiftRight_eq_div_pow val 4) (low_bits val 4))

theorem divide_exact (hv : val < 2 ^ c.bits) (hb : base = 2 ∧ c.percentB = true ∨ base = 8 ∨ base = 10 ∨ base = 16) :
    divide c val base = some (val / base,val % base) := by
  unfold divide
  split_ifs with hfancy hzero
  · exact udivmod_exact hv hb
  · omega
  · rfl

theorem mem_bases : base ∈ c.bases ↔ base = 2 ∧ c.percentB = true ∨ base = 8 ∨ base = 10 ∨ base = 16 ∨ base = 48 := by
  have hupper : upperHex = 48 := rfl
  cases hb : c.percentB <;> simp [Config.bases,hb,hupper]

def charOf (hex : UInt8) (v : Nat) : UInt8 := (if 9 < UInt8.ofNat v then UInt8.ofNat v + hex else UInt8.ofNat v) + 48

theorem invertLoop_digits (hex : UInt8) (hb : base = 2 ∧ c.percentB = true ∨ base = 8 ∨ base = 10 ∨ base = 16) {fuel : Nat}
    (hv : val < 2 ^ c.bits) (hf : val < 2 ^ fuel) : invertLoop c hex base (fuel + 1) val = some ((positional base val).map (charOf hex)) := by
  have htwo : 2 ≤ base := by omega
  induction fuel generalizing val with
  | zero =>
    obtain rfl : val = 0 := by omega
    rw [invertLoop,divide_exact hv hb]
    simp [positional,charOf]
  | succ fuel ih =>
    rw [invertLoop,divide_exact hv hb]
    simp only [Option.bind_eq_bind,Option.bind_some]
    by_cases hzero : val / base = 0
    · have hlt : val < base := (Nat.div_eq_zero_iff_lt (by omega)).mp hzero
      rw [if_pos hzero,Nat.mod_eq_of_lt hlt,positional]
      by_cases hval : val = 0
      · simp [hval,charOf]
      · rw [if_neg hval,Nat.digits_of_lt _ _ hval hlt]
        rfl
    · have hval : val ≠ 0 := by
        rintro rfl
        exact hzero (Nat.zero_div _)
      have hdiv : val / base < 2 ^ fuel := by
        refine Nat.div_lt_of_lt_mul (hf.trans_le ?_)
        rw [pow_succ,Nat.mul_comm]
        exact Nat.mul_le_mul_right _ htwo
      rw [if_neg hzero,ih ((Nat.div_le_self _ _).trans_lt hv) hdiv,positional,positional,if_neg hzero,if_neg hval,
        Nat.digits_def' (by omega) (Nat.pos_of_ne_zero hval)]
      rfl

def radix (base : Nat) : Nat := if base = upperHex then 16 else base

structure Written (upper : Bool) (b val : Nat) (text : List UInt8) (digits : List Nat) : Prop where
  glyphs : text = digits.map (glyph upper)
  below : ∀ d ∈ digits, d < b
  value : Nat.ofDigits b digits = val
  lead : digits = [0] ∨ ∃ h : digits ≠ [], digits.getLast h ≠ 0

theorem charOf_glyph {v : Nat} (hb : base ∈ c.bases) (hv : v < radix base) :
    charOf (hexOffset base) v = glyph (base == upperHex) v := by
  rcases mem_bases.mp hb with ⟨rfl,-⟩ | rfl | rfl | rfl | rfl <;>
    · revert v
      decide

theorem masked_radix (hb : base ∈ c.bases) : base &&& 31 = radix base := by
  rcases mem_bases.mp hb with ⟨rfl,-⟩ | rfl | rfl | rfl | rfl <;> rfl

theorem digits_length {b k : Nat} (hb : 2 ≤ b) (hk : 0 < k) (hv : val < b ^ k) : (positional b val).length ≤ k := by
  unfold positional
  split_ifs with hz
  · exact hk
  · exact (Nat.digits_length_le_iff (by omega) val).mpr hv

end

section

variable {c : Config} {val base : Nat}

theorem positional_lt {b d : Nat} (hb : 2 ≤ b) (hd : d ∈ positional b val) : d < b := by
  unfold positional at hd
  split_ifs at hd
  · rw [List.mem_singleton.mp hd]
    omega
  · exact Nat.digits_lt_base (by omega) hd

theorem positional_written {b : Nat} (upper : Bool) (hb : 2 ≤ b) (val : Nat) :
    Written upper b val ((positional b val).map (glyph upper)) (positional b val) := by
  refine ⟨rfl,fun d => positional_lt hb,?_,?_⟩
  · unfold positional
    split_ifs with hz
    · rw [hz]
      rfl
    · exact Nat.ofDigits_digits b val
  · unfold positional
    split_ifs with hz
    · exact Or.inl rfl
    · exact Or.inr ⟨Nat.digits_ne_nil_iff_ne_zero.mpr hz,Nat.getLast_digit_ne_zero b hz⟩

theorem bases_radix (hb : base ∈ c.bases) :
    radix base = 2 ∧ c.percentB = true ∨ radix base = 8 ∨ radix base = 10 ∨ radix base = 16 := by
  rcases mem_bases.mp hb with ⟨rfl,h⟩ | rfl | rfl | rfl | rfl
  · exact Or.inl ⟨rfl,h⟩
  · exact Or.inr (Or.inl rfl)
  · exact Or.inr (Or.inr (Or.inl rfl))
  · exact Or.inr (Or.inr (Or.inr rfl))
  · exact Or.inr (Or.inr (Or.inr rfl))

theorem ultoaInvert_text (hv : val < 2 ^ c.bits) (hb : base ∈ c.bases) :
    ultoaInvert c val base = some ((positional (radix base) val).map (glyph (base == upperHex))) := by
  have hradix := bases_radix hb
  rw [ultoaInvert,masked_radix hb,invertLoop_digits _ hradix hv hv]
  exact congrArg some (List.map_congr_left fun d hd => charOf_glyph hb (positional_lt (by omega) hd))

theorem ultoaDigit_glyph {v : Nat} (hb : base ∈ c.bases) (hv : v < radix base) :
    ultoaDigit base v = glyph (base == upperHex) v := by
  rcases mem_bases.mp hb with ⟨rfl,-⟩ | rfl | rfl | rfl | rfl <;>
    · revert v
      decide

theorem ultoaInvert_printed {b : Build} (hbits : ultoaBits b = c.bits) (hv : val < 2 ^ c.bits) (hb : base ∈ c.bases) :
    ultoaInvert c val base = some (Printf.ultoaInvert b val base) := by
  have hmask : base % 32 = radix base := (Nat.and_two_pow_sub_one_eq_mod base 5).symm.trans (masked_radix hb)
  have hradix : 2 ≤ base % 32 := by
    have hcases := bases_radix hb
    omega
  have hpos : 0 < c.bits := by
    unfold Config.bits
    split_ifs <;> decide
  rw [ultoaInvert_text hv hb,Printf.ultoaInvert,hbits,ultoaLoop_digits hradix hpos hv,hmask]
  exact congrArg some (List.map_congr_left fun d hd => (ultoaDigit_glyph hb (positional_lt (hmask ▸ hradix) hd)).symm)

theorem positional_room (hv : val < 2 ^ c.bits) (hb : base ∈ c.bases) :
    (positional (radix base) val).length ≤ c.printfBufSize := by
  rw [pow_bits] at hv
  rcases bases_radix hb with ⟨hr,hp⟩ | hr
  · rw [hr]
    refine digits_length (by decide) ?_ (hv.trans_le ?_) <;>
      (cases hw : c.wide <;> simp [Config.printfBufSize,hw,hp])
  · have height : 8 ≤ radix base := by omega
    have hroom : (if c.wide then 22 else 11) ≤ c.printfBufSize := by
      unfold Config.printfBufSize
      split_ifs <;> decide
    have hpow : (if c.wide then 18446744073709551616 else 4294967296) ≤ 8 ^ (if c.wide then 22 else 11) := by
      split_ifs <;> decide
    refine (digits_length (k := if c.wide then 22 else 11) (by omega) (by split_ifs <;> decide) ?_).trans hroom
    exact hv.trans_le (hpow.trans (Nat.pow_le_pow_left height _))

theorem digit_extraction (c : Config) (hv : val < 2 ^ c.bits) :
    udivmod10 c val = some (val / 10,val % 10) ∧ ∀ base ∈ c.bases, ∃ text digits,
      ultoaInvert c val base = some text ∧ Written (base == upperHex) (radix base) val text digits ∧
      text.length ≤ c.printfBufSize := by
  refine ⟨udivmod10_exact c hv,fun base hb => ⟨_,_,ultoaInvert_text hv hb,positional_written _ ?_ val,?_⟩⟩
  · have hradix := bases_radix hb
    omega
  · rw [List.length_map]
    exact positional_room hv hb

theorem digit_extraction_largest :
    udivmod10 ⟨true,true,true⟩ 18446744073709551615 = some (1844674407370955161,5) ∧ ∃ text digits,
      ultoaInvert ⟨true,true,true⟩ 18446744073709551615 10 = some text ∧
      Written false 10 18446744073709551615 text digits ∧ text.length ≤ 64 := by
  obtain ⟨hdiv,hall⟩ := @digit_extraction 18446744073709551615 ⟨true,true,true⟩ (by decide)
  exact ⟨hdiv,hall 10 (by decide)⟩

end

end Ultoa
