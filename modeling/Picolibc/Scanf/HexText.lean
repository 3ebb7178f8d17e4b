import Mathlib
import Picolibc.Scanf.Significand
import Picolibc.Scanf.HexAssembly

open Ascii Numerals Scanf.Grammar BinaryFormat

namespace Scanf

structure HexText where
  sign : List UInt8
  letter : UInt8
  whole : List UInt8
  point : Bool
  fraction : List UInt8
  exponent : List UInt8
  signed : Sign sign
  marked : fold letter = 0x78
  digits : ∀ c ∈ whole ++ fraction, isHex c = true
  written : whole ++ fraction ≠ []
  pointed : point = false → fraction = []
  scaled : Exponent 0x70 exponent

namespace HexText

variable (T : HexText)

def mantissa : List UInt8 := T.whole ++ (if T.point then 0x2e :: T.fraction else [])

def text : List UInt8 := T.sign ++ ((0x30 :: T.letter :: T.mantissa) ++ T.exponent)

def minus : Bool := decide (T.sign = [0x2d])

def values : List Nat := (T.whole ++ T.fraction).map digitValue

variable (b : Build)

def uint : Nat := horner 16 0 (kept (b.capacity true) T.values)

def lost : List Nat := dropped (b.capacity true) T.values

def sticky : Bool := (T.lost b).any fun d => d ≠ 0

def part : ℚ := horner 16 0 (T.lost b) / 16 ^ (T.lost b).length

def readExp : Nat := (T.exponent.tail.drop (signLen T.exponent.tail)).takeWhile isdigit |>.foldl (accumulate b) 0

def exp : ℤ := ((T.lost b).length - T.fraction.length) * 4 + signExp T.exponent.tail.head? (T.readExp b)

def reading : Front := if T.uint b = 0 then .zero else .hex (T.uint b) (T.exp b) (T.sticky b).toNat

def seen : ℚ := (T.uint b + T.part b) * 2 ^ T.exp b

variable {T} {b}

theorem hex_value (c : UInt8) (h : isHex c = true) : digitValue c < 16 ∧ wideHex c = true ∧ c < 0x80 := by
  have hf := fold_toNat c
  have hc := c.toNat_lt
  simp only [digitValue,wideHex,isHex,isdigit,UInt8.le_iff_toNat_le,UInt8.lt_iff_toNat_lt,UInt8.reduceToNat,
    Bool.or_eq_true,Bool.and_eq_true,decide_eq_true_eq] at h ⊢
  split_ifs at hf ⊢ <;> omega

theorem values_lt (T : HexText) : ∀ d ∈ T.values, d < 16 := by
  intro d hd
  obtain ⟨c,hc,rfl⟩ := List.mem_map.mp hd
  exact (hex_value c (T.digits c hc)).1

theorem lost_lt (T : HexText) (b : Build) : ∀ d ∈ T.lost b, d < 16 := fun d hd =>
  T.values_lt d ((List.dropWhile_sublist _).subset (List.mem_of_mem_drop hd))

theorem uint_lt (T : HexText) (b : Build) : T.uint b < 16 ^ b.capacity true := by
  have hmem : ∀ d ∈ kept (b.capacity true) T.values, d < 16 := fun d hd =>
    T.values_lt d ((List.dropWhile_sublist _).subset (List.mem_of_mem_take hd))
  exact (horner_below hmem).trans_le (Nat.pow_le_pow_right (by decide) (List.length_take_le _ _))

theorem part_range (T : HexText) (b : Build) : 0 ≤ T.part b ∧ T.part b < 1 := by
  have hpow : (0 : ℚ) < 16 ^ (T.lost b).length := by positivity
  have hlt : (horner 16 0 (T.lost b) : ℚ) < 16 ^ (T.lost b).length := by exact_mod_cast horner_below (T.lost_lt b)
  refine ⟨by unfold part; positivity,?_⟩
  rw [part,div_lt_one hpow]
  exact hlt

theorem sticky_clear (h : T.sticky b = false) : T.part b = 0 := by
  have hzeros : ∀ d ∈ T.lost b, d = 0 := by
    intro d hd
    have hany := List.any_eq_false.mp h d hd
    simpa using hany
  rw [part,List.eq_replicate_of_mem hzeros,horner_replicate]
  simp

theorem sticky_set (h : T.sticky b = true) : 16 ^ (b.capacity true - 1) ≤ T.uint b ∧ 0 < T.part b ∧ T.part b < 1 := by
  obtain ⟨d,hd,hne⟩ := List.any_eq_true.mp h
  have hlong : b.capacity true < (significant T.values).length := by
    by_contra hle
    rw [lost,dropped,List.drop_of_length_le (not_lt.mp hle)] at hd
    exact absurd hd (by simp)
  have hlen : (kept (b.capacity true) T.values).length = b.capacity true := by
    rw [kept,List.length_take,Nat.min_eq_left hlong.le]
  have hcap : 0 < b.capacity true := Nat.succ_pos _
  have hne' : kept (b.capacity true) T.values ≠ [] := by
    intro hnil
    rw [hnil,List.length_nil] at hlen
    omega
  have hhead : ∀ d ∈ (kept (b.capacity true) T.values).head?, d ≠ 0 := by
    intro d hd
    rw [kept,List.head?_take,if_neg hcap.ne'] at hd
    exact significant_head T.values d hd
  have hle := @le_horner_head 16 _ hhead hne'
  rw [hlen] at hle
  refine ⟨hle,?_,(T.part_range b).2⟩
  have hpos : horner 16 0 (T.lost b) ≠ 0 := by
    intro hzero
    have hall := @zeros_of_horner 16 (by decide) _ hzero d hd
    simp [hall] at hne
  have hcast : (0 : ℚ) < horner 16 0 (T.lost b) := by exact_mod_cast Nat.pos_of_ne_zero hpos
  rw [part]
  positivity

theorem seen_pos (h : T.uint b ≠ 0) : 0 < T.seen b := by
  have hcast : (0 : ℚ) < T.uint b := by exact_mod_cast Nat.pos_of_ne_zero h
  have hpart := (T.part_range b).1
  unfold seen
  positivity

def switched (b : Build) : Acc := (Acc.start.addDigit b 0).setHex

theorem zero_read (b : Build) : Acc.start.addDigit b 0 = ⟨0,0,0,0,true,false,false,false,false⟩ := by
  simp [Acc.addDigit,Acc.start,Acc.isFull,Acc.keep,Acc.base]

theorem switched_eq (b : Build) : switched b = ⟨0,0,0,0,false,false,false,false,true⟩ := by
  rw [switched,zero_read]
  rfl

theorem switched_fresh (b : Build) : Acc.Fresh (switched b) ∧ (switched b).fhex = true ∧ Took b [] 0 (switched b) := by
  rw [switched_eq]
  exact ⟨⟨rfl,rfl,rfl⟩,rfl,took_start _ rfl rfl rfl rfl rfl⟩

theorem switched_walk (b : Build) {x : UInt8} (hx : fold x = 0x78) (l : List UInt8) :
    Acc.start.walk b (0x30 :: x :: l) = (((switched b).walk b l).1,((switched b).walk b l).2 + 2) := by
  have hfirst : Acc.start.step b (some 0x30) = some (Acc.start.addDigit b 0) :=
    Acc.step_digit (show baseDigit Acc.start.fhex 0x30 = true by decide)
  have hsecond : (Acc.start.addDigit b 0).step b (some x) = some (Acc.start.addDigit b 0).setHex := by
    rw [zero_read]
    exact Acc.step_x ((Acc.lower_x x).mpr hx) rfl rfl rfl rfl
  rw [Acc.walk,hfirst]
  dsimp only
  rw [Acc.walk,hsecond]
  rfl

theorem mantissa_split (T : HexText) : Split wideHex T.mantissa T.whole T.point T.fraction [] :=
  written_split (fun c hc => (hex_value c (T.digits c hc)).2.1) T.pointed

theorem walk_text (T : HexText) (b : Build) : Acc.start.walk b (0x30 :: T.letter :: T.mantissa) =
    ((switched b).mantissa b T.whole T.point T.fraction,(0x30 :: T.letter :: T.mantissa).length) := by
  obtain ⟨hfresh,hhex,-⟩ := switched_fresh b
  rw [switched_walk b T.marked,Acc.walk_hexadecimal hfresh hhex T.mantissa_split]
  refine Prod.ext rfl ?_
  unfold mantissa
  cases hp : T.point with
  | false =>
    rw [T.pointed hp]
    simp
  | true =>
    simp
    omega

theorem took_values (T : HexText) (b : Build) :
    Took b T.values T.fraction.length ((switched b).mantissa b T.whole T.point T.fraction) := by
  obtain ⟨hfresh,hhex,hstart⟩ := switched_fresh b
  have hbase : Split (baseDigit (switched b).fhex) T.mantissa T.whole T.point T.fraction [] := by
    rw [hhex]
    exact T.mantissa_split
  have htook := took_mantissa hstart hfresh.dot hbase
  have hvalues : ((T.whole ++ T.fraction).map fun c => ((switched b).digitVal c).toNat) = T.values :=
    List.map_congr_left fun c hc => digitVal_value (by rw [hhex]; exact T.digits c hc)
  rwa [hvalues] at htook

theorem spill_sticky (l : List Nat) : spill 16 l = (l.any fun d => d ≠ 0).toNat := by
  have hdigits : spillDigits 16 l = l := by
    cases l with
    | nil => rfl
    | cons c l => rfl
  unfold spill
  rw [hdigits,if_neg (by omega),Nat.zero_or]
  cases l.any fun d => decide (d ≠ 0) <;> rfl

theorem front_reading (T : HexText) (b : Build) :
    ((switched b).mantissa b T.whole T.point T.fraction).any = true ∧
      ((switched b).mantissa b T.whole T.point T.fraction).expMatch = 0x70 ∧
        front ((switched b).mantissa b T.whole T.point T.fraction)
          (((switched b).mantissa b T.whole T.point T.fraction).scaledExp + exponentValue b 0x70 T.exponent) = T.reading b := by
  obtain ⟨hfresh,hstart,-⟩ := switched_fresh b
  have hbase : Split (baseDigit (switched b).fhex) T.mantissa T.whole T.point T.fraction [] := by
    rw [hstart]
    exact T.mantissa_split
  obtain ⟨hhex,-,hany,-⟩ := @Acc.mantissa_flags b _ hfresh _ _ _ _ _ hbase
  have htook := T.took_values b
  have hvalue := written_exponent b T.scaled
  generalize (switched b).mantissa b T.whole T.point T.fraction = a at hhex hany htook ⊢
  replace hhex : a.fhex = true := hhex
  have huint : a.uint = T.uint b := by
    rw [htook.uint,base_eq,hhex]
    rfl
  have hexp : a.exp = (T.lost b).length - T.fraction.length := by
    rw [htook.exp,hhex]
    rfl
  have hover : a.overflow = (T.sticky b).toNat := by
    rw [htook.overflow,base_eq,hhex]
    exact spill_sticky _
  refine ⟨?_,?_,?_⟩
  · rw [hany,List.isEmpty_eq_false_iff.mpr T.written]
    rfl
  · rw [Acc.expMatch,hhex]
    rfl
  · rw [front,hhex,huint,hover,Acc.scaledExp,hhex,hvalue,hexp]
    rfl

end HexText

theorem hex_reads {b : Build} {T : HexText} (f : Feed b T.text) {fuel : Nat} (hfuel : T.text.length < fuel) :
    ∃ t, convFlt b f.src fuel f.width f.start = some ⟨some (T.minus,T.reading b),t⟩ := by
  obtain ⟨hany,hmatch,hfront⟩ := T.front_reading b
  have hscaled := T.scaled
  rw [← hmatch] at hscaled
  have hlen : ((0x30 :: T.letter :: T.mantissa) ++ T.exponent).length < fuel := by
    rw [HexText.text,List.length_append] at hfuel
    omega
  obtain ⟨t,ht⟩ := convFlt_reads T.signed (T.walk_text b) hany hscaled f.reads f.ended f.room hlen
  rw [hmatch,hfront] at ht
  exact ⟨t,ht⟩

end Scanf
