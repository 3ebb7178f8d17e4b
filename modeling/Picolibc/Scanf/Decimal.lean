import Mathlib
import Picolibc.Scanf.Significand
import Picolibc.Scanf.RyuRounds

open Ascii Numerals Scanf.Grammar BinaryFormat

namespace Scanf

structure DecimalText where
  sign : List UInt8
  whole : List UInt8
  point : Bool
  fraction : List UInt8
  exponent : List UInt8
  signed : Sign sign
  digits : ∀ c ∈ whole ++ fraction, isdigit c = true
  written : whole ++ fraction ≠ []
  pointed : point = false → fraction = []
  scaled : Exponent 0x65 exponent

namespace DecimalText

variable (T : DecimalText)

def mantissa : List UInt8 := T.whole ++ (if T.point then 0x2e :: T.fraction else [])

def text : List UInt8 := T.sign ++ (T.mantissa ++ T.exponent)

def values : List Nat := (T.whole ++ T.fraction).map digitValue

def expDigits : List Nat := ((T.exponent.tail.drop (signLen T.exponent.tail)).takeWhile isdigit).map digitValue

def writtenExp : Nat := horner 10 0 T.expDigits

def value : ℚ := horner 10 0 T.values * 10 ^ (signExp T.exponent.tail.head? T.writtenExp - T.fraction.length)

def significantDigits : Nat := ((significant T.values).rdropWhile fun d => d = 0).length

end DecimalText

def mixOverflow (b : Build) (uint overflow : Nat) : Nat := (uint + ((overflow ||| uint &&& 1) + 1) / 4) % 2 ^ b.kind.uintBits

def Keeps (b : Build) (T : DecimalText) : Front → Prop
  | .zero => T.value = 0
  | .dec uint _ exp overflow =>
    |(mixOverflow b uint overflow : ℚ) * 10 ^ exp - T.value| < 10 ^ exp ∧
      (T.significantDigits ≤ b.capacity false → (mixOverflow b uint overflow : ℚ) * 10 ^ exp = T.value)
  | _ => False

theorem digit_value (c : UInt8) (h : isdigit c = true) : (c - 0x30).toNat = digitValue c ∧ digitValue c < 10 := by
  have hd : digitValue c = c.toNat - 48 := if_pos h
  obtain ⟨hlow,hhigh⟩ := (byte_classes c).1 h
  rw [hd,UInt8.toNat_sub_of_le _ _ hlow]
  have := UInt8.le_iff_toNat_le.mp hhigh
  rw [show (57 : UInt8).toNat = 57 from rfl] at this
  exact ⟨rfl,by omega⟩

theorem accumulate_saturates (b : Build) {ds : List UInt8} (h : ∀ c ∈ ds, isdigit c = true) :
    (horner 10 0 (ds.map digitValue) < 10 * b.maxPossibleExp ∧ ds.foldl (accumulate b) 0 = horner 10 0 (ds.map digitValue)) ∨
      (10 * b.maxPossibleExp ≤ horner 10 0 (ds.map digitValue) ∧ b.maxPossibleExp ≤ ds.foldl (accumulate b) 0 ∧
        ds.foldl (accumulate b) 0 < 10 * b.maxPossibleExp) := by
  have hpos : 0 < b.maxPossibleExp := by
    cases b <;> simp [Build.maxPossibleExp,Build.kind,double,float]
  induction ds using List.reverseRecOn with
  | nil => exact .inl ⟨by simp [horner_nil]; omega,rfl⟩
  | append_singleton ds d ih =>
    have hd := h d (List.mem_append_right ds (List.mem_singleton_self d))
    have hval := digit_value d hd
    rw [List.map_append,List.map_singleton,horner_append,horner_cons,horner_nil,List.foldl_append,List.foldl_cons,
      List.foldl_nil,accumulate]
    rcases ih fun c hc => h c (List.mem_append_left _ hc) with ⟨hlt,heq⟩ | ⟨hge,hlow,hhigh⟩
    · rw [heq,hval.1]
      split_ifs with hsmall
      · exact .inl ⟨by omega,rfl⟩
      · exact .inr ⟨by omega,by omega,by omega⟩
    · rw [if_neg (by omega)]
      exact .inr ⟨by omega,hlow,hhigh⟩

theorem few_digits {k : Nat} {D : List Nat} (h : ((significant D).rdropWhile fun d => d = 0).length ≤ k) :
    ∀ d ∈ dropped k D, d = 0 := by
  intro d hd
  have hsplit : (significant D).rdropWhile (fun d => d = 0) ++ (significant D).rtakeWhile (fun d => d = 0) = significant D :=
    List.rdropWhile_append_rtakeWhile
  have hmem : d ∈ ((significant D).rtakeWhile fun d => d = 0) := by
    rw [dropped,← hsplit,List.drop_append,List.drop_of_length_le h,List.nil_append] at hd
    exact List.mem_of_mem_drop hd
  simpa using List.mem_rtakeWhile_imp hmem

theorem spill_zeros {base : Nat} {l : List Nat} (h : ∀ d ∈ l, d = 0) : spill base l = 0 := by
  cases l with
  | nil => simp [spill,spillDigits]
  | cons c l =>
    have hc := h c List.mem_cons_self
    have hl : l.any (fun d => d ≠ 0) = false := by
      rw [List.any_eq_false]
      intro d hd
      simp [h d (List.mem_cons_of_mem c hd)]
    subst hc
    unfold spill spillDigits
    rw [List.any_cons,hl]
    simp

theorem spill_le (base : Nat) (l : List Nat) : spill base l ≤ 3 := by
  unfold spill
  split_ifs <;> decide

theorem mix_bounds (b : Build) {uint overflow : Nat} (huint : uint < 10 ^ b.capacity false) (hle : overflow ≤ 3) :
    (mixOverflow b uint overflow = uint ∨ mixOverflow b uint overflow = uint + 1) ∧
      (overflow = 0 → mixOverflow b uint overflow = uint) := by
  have hroom : 10 ^ b.capacity false + 1 ≤ 2 ^ b.kind.uintBits := by
    cases b with
    | vfscanf long => cases long <;> decide
    | strtod | strtof | fvfscanf => decide
  have hlow : uint &&& 1 = uint % 2 := Nat.and_one_is_mod uint
  have hbits : ∀ o ≤ 3, ∀ p < 2, (o ||| p) ≤ 3 ∧ (o = 0 → (o ||| p) < 2) := by decide
  obtain ⟨hthree,hzero⟩ := hbits overflow hle (uint % 2) (Nat.mod_lt _ two_pos)
  unfold mixOverflow
  rw [hlow,Nat.mod_eq_of_lt (by omega)]
  omega

namespace DecimalText

variable (b : Build) (T : DecimalText)

def uint : Nat := horner 10 0 (kept (b.capacity false) T.values)

def lost : List Nat := dropped (b.capacity false) T.values

def part : ℚ := horner 10 0 (T.lost b) / 10 ^ (T.lost b).length

def readExp : Nat := (T.exponent.tail.drop (signLen T.exponent.tail)).takeWhile isdigit |>.foldl (accumulate b) 0

def exp : ℤ := (T.lost b).length - T.fraction.length + signExp T.exponent.tail.head? (T.readExp b)

def reading : Front :=
  if T.uint b = 0 then .zero
  else .dec (T.uint b) (kept (b.capacity false) T.values).length (T.exp b) (spill 10 (T.lost b))

variable {b} {T}

theorem values_lt (T : DecimalText) : ∀ d ∈ T.values, d < 10 := by
  intro d hd
  obtain ⟨c,hc,rfl⟩ := List.mem_map.mp hd
  exact (digit_value c (T.digits c hc)).2

theorem lost_lt (b : Build) (T : DecimalText) : ∀ d ∈ T.lost b, d < 10 := fun d hd =>
  T.values_lt d ((List.dropWhile_sublist _).subset (List.mem_of_mem_drop hd))

theorem uint_bound (b : Build) (T : DecimalText) : T.uint b < 10 ^ b.capacity false := by
  have hmem : ∀ d ∈ kept (b.capacity false) T.values, d < 10 := fun d hd =>
    T.values_lt d ((List.dropWhile_sublist _).subset (List.mem_of_mem_take hd))
  exact (horner_below hmem).trans_le (Nat.pow_le_pow_right (by decide) (List.length_take_le _ _))

theorem part_range (b : Build) (T : DecimalText) : 0 ≤ T.part b ∧ T.part b < 1 := by
  have hpow : (0 : ℚ) < 10 ^ (T.lost b).length := by positivity
  have hlt : (horner 10 0 (T.lost b) : ℚ) < 10 ^ (T.lost b).length := by exact_mod_cast horner_below (T.lost_lt b)
  refine ⟨by unfold part; positivity,?_⟩
  rw [part,div_lt_one hpow]
  exact hlt

theorem value_eq (b : Build) (T : DecimalText) :
    T.value = (T.uint b + T.part b) * 10 ^ (T.exp b +
      (signExp T.exponent.tail.head? T.writtenExp - signExp T.exponent.tail.head? (T.readExp b))) := by
  have hpow : (10 : ℚ) ^ (T.lost b).length ≠ 0 := by positivity
  have hsum : (horner 10 0 T.values : ℚ) = (T.uint b + T.part b) * 10 ^ (T.lost b).length := by
    rw [significant_value 10 T.values (b.capacity false),horner_acc,part,add_mul,div_mul_cancel₀ _ hpow]
    push_cast
    rfl
  rw [value,hsum,mul_assoc,← zpow_natCast,← zpow_add₀ (by norm_num)]
  congr 2
  unfold exp
  ring

theorem uint_zero (h : T.uint b = 0) : T.value = 0 := by
  have hnil : significant T.values = [] := by
    by_contra hne
    refine @horner_ne_zero 10 (by decide) (kept (b.capacity false) T.values) (fun d hd => ?_) (fun hnil => ?_) h
    · refine significant_head T.values d ?_
      rw [kept,List.head?_take] at hd
      split_ifs at hd
      · exact absurd hd (by simp)
      · exact hd
    · rw [kept,List.take_eq_nil_iff] at hnil
      exact hnil.elim (fun h => Nat.succ_ne_zero _ h) hne
  have hzero : horner 10 0 T.values = 0 := by
    rw [significant_value 10 T.values 0,kept,dropped,hnil]
    rfl
  rw [value,hzero]
  simp

theorem expDigits_plain (T : DecimalText) :
    ∀ c ∈ (T.exponent.tail.drop (signLen T.exponent.tail)).takeWhile isdigit, isdigit c = true := fun _ => List.mem_takeWhile_imp

theorem few_exact (h : T.significantDigits ≤ b.capacity false) : T.part b = 0 ∧ spill 10 (T.lost b) = 0 := by
  have hzeros : ∀ d ∈ T.lost b, d = 0 := few_digits h
  refine ⟨?_,spill_zeros hzeros⟩
  rw [part,List.eq_replicate_of_mem hzeros,horner_replicate]
  simp

theorem many_large (h : b.capacity false < T.significantDigits) : 10 ≤ T.uint b := by
  have hcap : 2 ≤ b.capacity false := by
    cases b with
    | vfscanf long => cases long <;> decide
    | strtod | strtof | fvfscanf => decide
  have hlong : b.capacity false < (significant T.values).length :=
    h.trans_le (List.rdropWhile_prefix _ _).length_le
  have hlen : (kept (b.capacity false) T.values).length = b.capacity false := by
    rw [kept,List.length_take,Nat.min_eq_left hlong.le]
  have hne : kept (b.capacity false) T.values ≠ [] := by
    intro hnil
    rw [hnil,List.length_nil] at hlen
    omega
  have hhead : ∀ d ∈ (kept (b.capacity false) T.values).head?, d ≠ 0 := by
    intro d hd
    rw [kept,List.head?_take,if_neg (by omega)] at hd
    exact significant_head T.values d hd
  have hle := @le_horner_head 10 _ hhead hne
  rw [hlen] at hle
  calc 10 = 10 ^ 1 := rfl
    _ ≤ 10 ^ (b.capacity false - 1) := Nat.pow_le_pow_right (by decide) (by omega)
    _ ≤ T.uint b := hle

theorem keeps_scaled (hpos : T.uint b ≠ 0) : Keeps b T (T.reading b) ↔
    |(mixOverflow b (T.uint b) (spill 10 (T.lost b)) : ℚ) - (T.uint b + T.part b) *
        10 ^ (signExp T.exponent.tail.head? T.writtenExp - signExp T.exponent.tail.head? (T.readExp b))| < 1 ∧
      (T.significantDigits ≤ b.capacity false → (mixOverflow b (T.uint b) (spill 10 (T.lost b)) : ℚ) =
        (T.uint b + T.part b) *
          10 ^ (signExp T.exponent.tail.head? T.writtenExp - signExp T.exponent.tail.head? (T.readExp b))) := by
  have hpow : (0 : ℚ) < 10 ^ T.exp b := by positivity
  rw [reading,if_neg hpos,Keeps,T.value_eq b,zpow_add₀ (by norm_num)]
  generalize (10 : ℚ) ^ T.exp b = p at *
  generalize (10 : ℚ) ^ (signExp T.exponent.tail.head? T.writtenExp - signExp T.exponent.tail.head? (T.readExp b)) = q
  generalize (mixOverflow b (T.uint b) (spill 10 (T.lost b)) : ℚ) = m
  generalize (T.uint b : ℚ) + T.part b = x
  have hfactor : m * p - x * (p * q) = (m - x * q) * p := by ring
  have hcancel : m * p = x * (p * q) ↔ m = x * q := by
    rw [show x * (p * q) = x * q * p by ring]
    exact mul_left_inj' hpow.ne'
  rw [hfactor,abs_mul,abs_of_pos hpow,hcancel]
  have hlt : |m - x * q| * p < p ↔ |m - x * q| < 1 := by
    rw [← lt_div_iff₀ hpow,div_self hpow.ne']
  rw [hlt]

theorem part_zero (h : T.part b = 0) : ∀ d ∈ T.lost b, d = 0 := by
  have hpow : (10 : ℚ) ^ (T.lost b).length ≠ 0 := by positivity
  rw [part,div_eq_zero_iff] at h
  exact @zeros_of_horner 10 (by decide) _ (by exact_mod_cast h.resolve_right hpow)

theorem keeps_exact (hpos : T.uint b ≠ 0) (h : T.readExp b = T.writtenExp) : Keeps b T (T.reading b) := by
  obtain ⟨hlow,hhigh⟩ := T.part_range b
  obtain ⟨hmix,hzero⟩ := mix_bounds b (T.uint_bound b) (spill_le 10 (T.lost b))
  rw [keeps_scaled hpos,h,sub_self,zpow_zero,mul_one]
  have hexact : T.significantDigits ≤ b.capacity false →
      (mixOverflow b (T.uint b) (spill 10 (T.lost b)) : ℚ) = T.uint b + T.part b := by
    intro hfew
    obtain ⟨hpart,hspill⟩ := few_exact hfew
    rw [hzero hspill,hpart,add_zero]
  refine ⟨?_,hexact⟩
  rcases hmix with hm | hm
  · rw [hm,abs_lt]
    constructor <;> linarith
  · have hpart : 0 < T.part b := by
      refine lt_of_le_of_ne hlow fun heq => ?_
      have hspill := @spill_zeros 10 _ (part_zero heq.symm)
      have hsame := hzero hspill
      omega
    rw [hm,abs_lt]
    push_cast
    constructor <;> linarith

theorem keeps_saturated (hpos : T.uint b ≠ 0) (hlt : T.readExp b < T.writtenExp) : ¬Keeps b T (T.reading b) := by
  obtain ⟨hlow,hhigh⟩ := T.part_range b
  obtain ⟨hmix,-⟩ := mix_bounds b (T.uint_bound b) (spill_le 10 (T.lost b))
  have hone : (1 : ℚ) ≤ T.uint b := by exact_mod_cast Nat.one_le_iff_ne_zero.mpr hpos
  have hmlow : (T.uint b : ℚ) ≤ mixOverflow b (T.uint b) (spill 10 (T.lost b)) := by
    have hle : T.uint b ≤ mixOverflow b (T.uint b) (spill 10 (T.lost b)) := by omega
    exact_mod_cast hle
  have hmhigh : (mixOverflow b (T.uint b) (spill 10 (T.lost b)) : ℚ) ≤ T.uint b + 1 := by
    have hle : mixOverflow b (T.uint b) (spill 10 (T.lost b)) ≤ T.uint b + 1 := by omega
    exact_mod_cast hle
  rw [keeps_scaled hpos]
  generalize (mixOverflow b (T.uint b) (spill 10 (T.lost b)) : ℚ) = m at *
  rintro ⟨hnear,hfew⟩
  rw [abs_lt] at hnear
  unfold signExp at hnear hfew
  split_ifs at hnear hfew with hminus
  · have hsmall : (10 : ℚ) ^ (-(T.writtenExp : ℤ) - -(T.readExp b : ℤ)) ≤ 10 ^ (-1 : ℤ) :=
      zpow_le_zpow_right₀ (by norm_num) (by omega)
    have hq : (0 : ℚ) < 10 ^ (-(T.writtenExp : ℤ) - -(T.readExp b : ℤ)) := by positivity
    generalize (10 : ℚ) ^ (-(T.writtenExp : ℤ) - -(T.readExp b : ℤ)) = q at *
    norm_num at hsmall
    have hprod : (T.uint b + T.part b) * q ≤ (T.uint b + T.part b) * (1 / 10) :=
      mul_le_mul_of_nonneg_left hsmall (by linarith)
    by_cases hsig : T.significantDigits ≤ b.capacity false
    · have heq := hfew hsig
      obtain ⟨hpart,-⟩ := few_exact hsig
      rw [hpart,add_zero] at heq hprod
      linarith
    · have hten : (10 : ℚ) ≤ T.uint b := by exact_mod_cast many_large (not_le.mp hsig)
      linarith
  · have hbig : (10 : ℚ) ^ (1 : ℤ) ≤ 10 ^ ((T.writtenExp : ℤ) - (T.readExp b : ℤ)) :=
      zpow_le_zpow_right₀ (by norm_num) (by omega)
    generalize (10 : ℚ) ^ ((T.writtenExp : ℤ) - (T.readExp b : ℤ)) = q at *
    norm_num at hbig
    have hprod : (T.uint b + T.part b) * 10 ≤ (T.uint b + T.part b) * q := mul_le_mul_of_nonneg_left hbig (by linarith)
    linarith

theorem keeps_iff (b : Build) (T : DecimalText) :
    Keeps b T (T.reading b) ↔ T.value = 0 ∨ T.writtenExp < 10 * b.maxPossibleExp := by
  by_cases hzero : T.uint b = 0
  · have hvalue := uint_zero hzero
    rw [reading,if_pos hzero]
    exact ⟨fun h => .inl h,fun _ => hvalue⟩
  · have hne : T.value ≠ 0 := by
      have hpos : (0 : ℚ) < T.uint b := by exact_mod_cast Nat.pos_of_ne_zero hzero
      have hpart := (T.part_range b).1
      rw [T.value_eq b]
      positivity
    rcases accumulate_saturates b T.expDigits_plain with ⟨hlt,heq⟩ | ⟨hge,-,hlt⟩
    · exact ⟨fun _ => .inr hlt,fun _ => keeps_exact hzero heq⟩
    · have hsat : T.readExp b < T.writtenExp := lt_of_lt_of_le hlt hge
      exact ⟨fun h => absurd h (keeps_saturated hzero hsat),fun h => (h.resolve_left hne).not_ge hge |>.elim⟩

theorem mantissa_split (T : DecimalText) : Split isdigit T.mantissa T.whole T.point T.fraction [] :=
  written_split T.digits T.pointed

theorem walk_text (b : Build) (T : DecimalText) :
    Acc.start.walk b T.mantissa = (Acc.start.mantissa b T.whole T.point T.fraction,T.mantissa.length) := by
  have hwalk := @Acc.walk_mantissa b Acc.start rfl _ _ _ _ _ T.mantissa_split
  rw [hwalk]
  refine Prod.ext rfl ?_
  unfold mantissa
  cases hp : T.point with
  | false =>
    rw [T.pointed hp]
    simp [Acc.walk]
  | true =>
    simp [Acc.walk]
    omega

theorem took_values (b : Build) (T : DecimalText) :
    Took b T.values T.fraction.length (Acc.start.mantissa b T.whole T.point T.fraction) := by
  have htook := took_mantissa (took_start (b := b) Acc.start rfl rfl rfl rfl rfl) rfl T.mantissa_split
  have hvalues : ((T.whole ++ T.fraction).map fun c => (Acc.start.digitVal c).toNat) = T.values :=
    List.map_congr_left fun c hc => digitVal_value (T.digits c hc)
  rwa [hvalues] at htook

theorem exponent_value (b : Build) (T : DecimalText) :
    exponentValue b 0x65 T.exponent = signExp T.exponent.tail.head? (T.readExp b) := written_exponent b T.scaled

theorem front_reading (b : Build) (T : DecimalText) :
    (Acc.start.mantissa b T.whole T.point T.fraction).any = true ∧
      (Acc.start.mantissa b T.whole T.point T.fraction).expMatch = 0x65 ∧
        front (Acc.start.mantissa b T.whole T.point T.fraction)
          ((Acc.start.mantissa b T.whole T.point T.fraction).scaledExp + exponentValue b 0x65 T.exponent) = T.reading b := by
  obtain ⟨hhex,-,hany,-⟩ := @Acc.mantissa_flags b Acc.start ⟨rfl,rfl,rfl⟩ _ _ _ _ _ T.mantissa_split
  have htook := T.took_values b
  have hvalue := T.exponent_value b
  generalize Acc.start.mantissa b T.whole T.point T.fraction = a at hhex hany htook ⊢
  replace hhex : a.fhex = false := hhex
  have huint : a.uint = T.uint b := by
    rw [htook.uint,base_eq,hhex]
    rfl
  have hcount : a.uintdigits = (kept (b.capacity false) T.values).length := by rw [htook.count,hhex]
  have hexp : a.exp = (T.lost b).length - T.fraction.length := by
    rw [htook.exp,hhex]
    rfl
  have hover : a.overflow = spill 10 (T.lost b) := by
    rw [htook.overflow,base_eq,hhex]
    rfl
  refine ⟨?_,?_,?_⟩
  · rw [hany,List.isEmpty_eq_false_iff.mpr T.written]
    rfl
  · rw [Acc.expMatch,hhex]
    rfl
  · rw [front,hhex,huint,hcount,hover,Acc.scaledExp,hhex,hvalue,hexp]
    rfl

end DecimalText

def Delivers {b : Build} {T : DecimalText} (f : Feed b T.text) (R : Front → Prop) : Prop :=
  ∀ fuel, T.text.length < fuel → ∃ r t, convFlt b f.src fuel f.width f.start = some ⟨some (decide (T.sign = [0x2d]),r),t⟩ ∧ R r

theorem delivers_iff {b : Build} {T : DecimalText} (f : Feed b T.text) (R : Front → Prop) : Delivers f R ↔ R (T.reading b) := by
  obtain ⟨hany,hmatch,hfront⟩ := T.front_reading b
  have hrun : ∀ fuel, T.text.length < fuel → ∃ t, convFlt b f.src fuel f.width f.start =
      some ⟨some (decide (T.sign = [0x2d]),T.reading b),t⟩ := by
    intro fuel hfuel
    have hscaled := T.scaled
    rw [← hmatch] at hscaled
    have hlen : (T.mantissa ++ T.exponent).length < fuel := by
      rw [DecimalText.text,List.length_append] at hfuel
      omega
    obtain ⟨t,ht⟩ := convFlt_reads T.signed (T.walk_text b) hany hscaled f.reads f.ended f.room hlen
    rw [hmatch,hfront] at ht
    exact ⟨t,ht⟩
  constructor
  · intro h
    obtain ⟨r,t,heq,hr⟩ := h _ (Nat.lt_succ_self _)
    obtain ⟨t',heq'⟩ := hrun _ (Nat.lt_succ_self _)
    rw [heq'] at heq
    have hsame := congrArg Reading.value (Option.some.inj heq)
    have hreading : T.reading b = r := congrArg Prod.snd (Option.some.inj hsame)
    rwa [hreading]
  · intro h fuel hfuel
    obtain ⟨t,ht⟩ := hrun fuel hfuel
    exact ⟨_,t,ht,h⟩

def Build.format (b : Build) : Format := if b.long then binary64 else binary32

def limited (f : Format) (low high : Nat) (engine : Nat → ℤ → Nat) (uint uintdigits : Nat) (exp : ℤ) : Nat :=
  if uintdigits + exp ≤ -low then 0 else if high ≤ uintdigits + exp then f.inf else engine uint exp

def Build.flt (b : Build) : Front → Option Nat
  | .zero => some 0
  | .dec uint uintdigits exp overflow =>
    some (if b.long then limited binary64 324 310 atodEngine (mixOverflow b uint overflow % 2 ^ 64) uintdigits exp
      else limited binary32 46 40 atofEngine (mixOverflow b uint overflow % 2 ^ 32) uintdigits exp)
  | _ => none

def InInt (n : ℤ) : Prop := -2 ^ 31 ≤ n ∧ n < 2 ^ 31

structure DecimalText.IntsFit (b : Build) (T : DecimalText) : Prop where
  walked : ∀ p, p <+: T.mantissa → InInt (Acc.start.walk b p).1.exp
  accumulated : InInt (T.readExp b)
  scaled : InInt (T.exp b)
  compared : InInt ((kept (b.capacity false) T.values).length + T.exp b)

namespace DecimalText

variable {b : Build} {T T' : DecimalText}

theorem count_bounds (hpos : T.uint b ≠ 0) :
    10 ^ ((kept (b.capacity false) T.values).length - 1) ≤ T.uint b ∧
      T.uint b < 10 ^ (kept (b.capacity false) T.values).length ∧
        (kept (b.capacity false) T.values).length ≤ b.capacity false ∧ kept (b.capacity false) T.values ≠ [] := by
  have hne : kept (b.capacity false) T.values ≠ [] := by
    intro hnil
    rw [uint,hnil] at hpos
    exact hpos rfl
  have hhead : ∀ d ∈ (kept (b.capacity false) T.values).head?, d ≠ 0 := by
    intro d hd
    rw [kept,List.head?_take] at hd
    split_ifs at hd
    · exact absurd hd (by simp)
    · exact significant_head T.values d hd
  have hmem : ∀ d ∈ kept (b.capacity false) T.values, d < 10 := fun d hd =>
    T.values_lt d ((List.dropWhile_sublist _).subset (List.mem_of_mem_take hd))
  exact ⟨le_horner_head hhead hne,horner_below hmem,List.length_take_le _ _,hne⟩

theorem exact_value (hfew : T.significantDigits ≤ b.capacity false) (hsmall : T.writtenExp < 10 * b.maxPossibleExp) :
    T.value = T.uint b * 10 ^ T.exp b ∧ mixOverflow b (T.uint b) (spill 10 (T.lost b)) = T.uint b := by
  obtain ⟨hpart,hspill⟩ := few_exact hfew
  have hread : T.readExp b = T.writtenExp := by
    rcases accumulate_saturates b T.expDigits_plain with ⟨-,heq⟩ | ⟨hge,-,-⟩
    · exact heq
    · exact absurd hsmall (not_lt.mpr hge)
  refine ⟨?_,(mix_bounds b (T.uint_bound b) (spill_le 10 (T.lost b))).2 hspill⟩
  rw [T.value_eq b,hpart,hread,sub_self,add_zero,add_zero]

theorem value_range {u n : Nat} {e : ℤ} (hlow : 10 ^ (n - 1) ≤ u) (hhigh : u < 10 ^ n) (hn : 0 < n) :
    (10 : ℚ) ^ (n + e - 1) ≤ u * 10 ^ e ∧ (u : ℚ) * 10 ^ e < 10 ^ (n + e) := by
  have hpow : (0 : ℚ) < 10 ^ e := by positivity
  have hl : (10 : ℚ) ^ ((n - 1 : ℕ) : ℤ) ≤ u := by exact_mod_cast hlow
  have hh : (u : ℚ) < 10 ^ (n : ℤ) := by exact_mod_cast hhigh
  rw [show (n + e - 1 : ℤ) = ((n - 1 : ℕ) : ℤ) + e by omega,zpow_add₀ (by norm_num),zpow_add₀ (by norm_num)]
  exact ⟨mul_le_mul_of_nonneg_right hl hpow.le,mul_lt_mul_of_pos_right hh hpow⟩

theorem limited_rounds {f : Format} {low high k : Nat} {engine : Nat → ℤ → Nat} {u n : Nat} {e : ℤ}
    (hlow : 10 ^ (n - 1) ≤ u) (hhigh : u < 10 ^ n) (hn : 0 < n) (hk : n ≤ k) (hlo : 2 ^ (f.emax + f.prec - 1) ≤ 10 ^ low)
    (hhi : 2 ^ (f.emax + 1) ≤ 10 ^ high)
    (hengine : ∀ {m : Nat} {e : ℤ}, 0 < m → m < 10 ^ k → -low - k < e → e < high → f.Rounds (m * 10 ^ e) (engine m e)) :
    f.Rounds (u * 10 ^ e) (limited f low (high + 1) engine u n e) := by
  obtain ⟨hzero,hinf⟩ := Format.decimal_limits f hlo hhi
  obtain ⟨habove,hbelow⟩ := @value_range _ _ e hlow hhigh hn
  have hten : (1 : ℚ) ≤ 10 := by norm_num
  have hpos : (0 : ℚ) ≤ u * 10 ^ e := by positivity
  unfold limited
  split_ifs with hunder hover
  · exact Format.round_zero hpos ((hbelow.le.trans (zpow_le_zpow_right₀ hten hunder)).trans hzero)
  · refine Format.round_inf hpos (hinf.trans (le_trans ?_ habove))
    rw [← zpow_natCast]
    exact zpow_le_zpow_right₀ hten (by push_cast at hover; omega)
  · have hu : 0 < u := (pow_pos (by decide) _).trans_le hlow
    exact hengine hu (hhigh.trans_le (Nat.pow_le_pow_right (by decide) hk)) (by omega) (by omega)

theorem flt_rounds (hfew : T.significantDigits ≤ b.capacity false) (hsmall : T.writtenExp < 10 * b.maxPossibleExp) :
    ∃ bits, b.flt (T.reading b) = some bits ∧ b.format.Rounds T.value bits := by
  obtain ⟨hval,hmix⟩ := exact_value hfew hsmall
  by_cases hz : T.uint b = 0
  · rw [reading,if_pos hz,uint_zero hz]
    exact ⟨0,rfl,Format.round_zero le_rfl (by have := b.format.ulp_pos b.format.emin; positivity)⟩
  obtain ⟨hlow,hhigh,hcap,hne⟩ := count_bounds hz
  have hcount := List.length_pos_iff.mpr hne
  rw [reading,if_neg hz,Build.flt,hmix,hval]
  refine ⟨_,rfl,?_⟩
  unfold Build.format
  cases hlong : b.long with
  | true =>
    have hfull : b.capacity false = 17 := by simp [Build.capacity,Build.digits,hlong]
    have hcap := hcap.trans_eq hfull
    have hkept := hhigh.trans_le (Nat.pow_le_pow_right (by decide : 0 < 10) hcap)
    have hfit : T.uint b < 2 ^ 64 := hkept.trans (by decide)
    rw [if_pos rfl,if_pos rfl,Nat.mod_eq_of_lt hfit]
    exact limited_rounds hlow hhigh hcount hcap (by decide +kernel) (by decide +kernel) fun hm hk hmin hmax =>
      atod_rounds hm hk (by push_cast at hmin; omega) (by push_cast at hmax; omega)
  | false =>
    have hfull : b.capacity false = 9 := by simp [Build.capacity,Build.digits,hlong]
    have hcap := hcap.trans_eq hfull
    have hkept := hhigh.trans_le (Nat.pow_le_pow_right (by decide : 0 < 10) hcap)
    have hfit : T.uint b < 2 ^ 32 := hkept.trans (by decide)
    rw [if_neg Bool.false_ne_true,if_neg Bool.false_ne_true,Nat.mod_eq_of_lt hfit]
    exact limited_rounds hlow hhigh hcount hcap (by decide) (by decide) fun hm hk hmin hmax =>
      atof_rounds hm hk (by push_cast at hmin; omega) (by push_cast at hmax; omega)

theorem step_exp {a a' : Acc} {c : UInt8} (h : a.step b (some c) = some a') : |a'.exp - a.exp| ≤ 1 := by
  simp only [Acc.step] at h
  split_ifs at h
  · obtain rfl := Option.some.inj h
    unfold Acc.addDigit Acc.drop Acc.keep
    split_ifs <;> simp
  · obtain rfl := Option.some.inj h
    simp [Acc.setDot]
  · obtain rfl := Option.some.inj h
    simp [Acc.setHex]

theorem walk_exp (b : Build) (a : Acc) (l : List UInt8) : |(a.walk b l).1.exp - a.exp| ≤ l.length := by
  induction l generalizing a with
  | nil => simp [Acc.walk]
  | cons c l ih =>
    rw [Acc.walk]
    cases hstep : a.step b (some c) with
    | none =>
      simp only [sub_self,abs_zero]
      positivity
    | some a' =>
      have hone := step_exp hstep
      have hrest := ih a'
      rw [List.length_cons]
      rw [abs_le] at *
      dsimp only
      omega

theorem ints_fit (hroom : T.text.length + 10 * b.maxPossibleExp + b.capacity false < 2 ^ 31) : T.IntsFit b := by
  have hmant : T.mantissa.length ≤ T.text.length := by
    simp only [text,List.length_append]
    omega
  have hsplit : T.whole.length + T.fraction.length ≤ T.mantissa.length := by
    unfold mantissa
    cases hp : T.point with
    | false => simp [T.pointed hp]
    | true => simp
  have hvalues : (T.lost b).length ≤ T.whole.length + T.fraction.length := by
    rw [lost,dropped,List.length_drop]
    refine (Nat.sub_le _ _).trans ((List.dropWhile_sublist _).length_le.trans ?_)
    rw [values,List.length_map,List.length_append]
  have hread : T.readExp b < 10 * b.maxPossibleExp := by
    rcases accumulate_saturates b T.expDigits_plain with ⟨hlt,heq⟩ | ⟨-,-,hlt⟩
    · exact heq.trans_lt hlt
    · exact hlt
  have hsigned : |signExp T.exponent.tail.head? (T.readExp b)| = T.readExp b := by
    unfold signExp
    split_ifs <;> simp
  have hexp : |T.exp b| + b.capacity false < 2 ^ 31 := by
    have hle := abs_le.mp hsigned.le
    rw [← lt_sub_iff_add_lt,abs_lt,exp]
    omega
  have hcount : (kept (b.capacity false) T.values).length ≤ b.capacity false := List.length_take_le _ _
  refine ⟨fun p hp => ?_,⟨by omega,by omega⟩,⟨?_,?_⟩,⟨?_,?_⟩⟩
  · have hwalk := abs_le.mp (walk_exp b Acc.start p)
    have hlen := hp.length_le
    rw [show Acc.start.exp = 0 from rfl] at hwalk
    constructor <;> omega
  all_goals
    have habs := abs_le.mp (le_refl |T.exp b|)
    omega

end DecimalText

theorem decimal_kept_iff (b : Build) (T : DecimalText) (f : Feed b T.text)
    (hroom : T.text.length + 10 * b.maxPossibleExp + b.capacity false < 2 ^ 31) :
    T.IntsFit b ∧ (Delivers f (Keeps b T) ↔ T.value = 0 ∨ T.writtenExp < 10 * b.maxPossibleExp) ∧
      ∀ (T' : DecimalText) (f' : Feed b T'.text), T'.text.length + 10 * b.maxPossibleExp + b.capacity false < 2 ^ 31 →
        T.sign = T'.sign → T.value = T'.value →
          T.significantDigits ≤ b.capacity false → T'.significantDigits ≤ b.capacity false →
            T.writtenExp < 10 * b.maxPossibleExp → T'.writtenExp < 10 * b.maxPossibleExp →
              ∃ bits, Delivers f (fun r => b.flt r = some bits) ∧ Delivers f' (fun r => b.flt r = some bits) ∧
                b.format.Rounds T.value bits := by
  refine ⟨DecimalText.ints_fit hroom,(delivers_iff f _).trans (T.keeps_iff b),?_⟩
  intro T' f' _ _ hvalue hfew hfew' hsmall hsmall'
  obtain ⟨bits,hbits,hrounds⟩ := DecimalText.flt_rounds hfew hsmall
  obtain ⟨bits',hbits',hrounds'⟩ := DecimalText.flt_rounds hfew' hsmall'
  rw [← hvalue] at hrounds'
  obtain rfl := hrounds.unique hrounds'
  exact ⟨bits,(delivers_iff f _).mpr hbits,(delivers_iff f' _).mpr hbits',hrounds⟩

theorem text_low (T : DecimalText) : ∀ c ∈ T.text, c < 0x80 := by
  intro c hc
  rcases List.mem_append.mp hc with hsign | hc
  · have hsigned := T.signed
    cases hs : T.sign with
    | nil => exact absurd hsign (by simp [hs])
    | cons d s =>
      rw [hs] at hsigned hsign
      cases hsigned <;> obtain rfl := List.mem_singleton.mp hsign <;> decide
  rcases List.mem_append.mp hc with hm | he
  · unfold DecimalText.mantissa at hm
    rcases List.mem_append.mp hm with hw | hf
    · exact digit_low c (T.digits c (List.mem_append_left _ hw))
    · split_ifs at hf
      · rcases List.mem_cons.mp hf with rfl | hf
        · decide
        · exact digit_low c (T.digits c (List.mem_append_right _ hf))
      · exact absurd hf (by simp)
  · have hscaled := T.scaled
    generalize T.exponent = e at hscaled he
    cases hscaled with
    | absent => exact absurd he (by simp)
    | @written e sign ds hmark hsign _ hds =>
      rcases List.mem_cons.mp he with rfl | he
      · exact (letter_plain 0x65 (by decide) c ((Acc.lower_letter 0x65 (by decide) c).mpr hmark)).1
      · rcases List.mem_append.mp he with hs | hd
        · cases hsign
          · exact absurd hs (by simp)
          · obtain rfl := List.mem_singleton.mp hs
            decide
          · obtain rfl := List.mem_singleton.mp hs
            decide
        · exact digit_low c (hds c hd)

def charsFeed (b : Build) (hb : b.strto = true) (signed : Bool) (T : DecimalText) : Feed b T.text where
  σ := Nat
  src := chars signed T.text
  start := 0
  stop := 0 + T.text.length
  width := 0
  reads := chars_reads signed List.drop_zero (text_low T)
  ended := chars_ended signed (drop_whole T.text)
  room := .inl hb

theorem sixteenDigits_digits (point : Bool) : ∀ c ∈ ([0x37,0x34,0x34,0x34,0x33,0x33,0x33,0x30,0x36,0x35,0x30,0x38,0x37,0x36,0x37,0x33] :
    List UInt8) ++ (if point then [0x30] else []), isdigit c = true := by
  cases point <;> decide +kernel

def sixteenDigits (point : Bool) : DecimalText where
  sign := []
  whole := [0x37,0x34,0x34,0x34,0x33,0x33,0x33,0x30,0x36,0x35,0x30,0x38,0x37,0x36,0x37,0x33]
  point := point
  fraction := if point then [0x30] else []
  exponent := []
  signed := .absent
  digits := sixteenDigits_digits point
  written := List.cons_ne_nil _ _
  pointed h := if_neg (Bool.eq_false_iff.mp h)
  scaled := .absent

theorem sixteen_digits_alike : ∃ bits,
    Delivers (charsFeed .strtod rfl false (sixteenDigits false)) (fun r => Build.strtod.flt r = some bits) ∧
      Delivers (charsFeed .strtod rfl false (sixteenDigits true)) (fun r => Build.strtod.flt r = some bits) ∧
        binary64.Rounds (sixteenDigits false).value bits := by
  have hplain : horner 10 0 (sixteenDigits false).values = 7444333065087673 := by decide
  have hpoint : horner 10 0 (sixteenDigits true).values = 74443330650876730 := by decide
  have hvalue : (sixteenDigits false).value = (sixteenDigits true).value := by
    rw [DecimalText.value,DecimalText.value,hplain,hpoint]
    norm_num [sixteenDigits,DecimalText.writtenExp,DecimalText.expDigits,signExp,horner_nil]
  exact (decimal_kept_iff .strtod (sixteenDigits false) (charsFeed .strtod rfl false (sixteenDigits false)) (by decide)).2.2
    (sixteenDigits true) (charsFeed .strtod rfl false (sixteenDigits true)) (by decide) rfl hvalue (by decide) (by decide)
    (by decide) (by decide)

theorem longFraction_digits (n : Nat) : ∀ c ∈ [0x30] ++ (List.replicate n (0x30 : UInt8) ++ [0x31]), isdigit c = true := by
  intro c hc
  simp only [List.singleton_append,List.mem_cons,List.mem_append,List.mem_replicate,List.not_mem_nil,or_false] at hc
  rcases hc with rfl | ⟨-,rfl⟩ | rfl <;> decide

theorem longFraction_scaled : Exponent 0x65 [0x65,0x31,0x32,0x33,0x36,0x31] :=
  @Exponent.written 0x65 0x65 [] [0x31,0x32,0x33,0x36,0x31] rfl .absent (List.cons_ne_nil _ _) (by
    intro c hc
    fin_cases hc <;> rfl)

def longFraction : DecimalText where
  sign := []
  whole := [0x30]
  point := true
  fraction := List.replicate 12360 0x30 ++ [0x31]
  exponent := [0x65,0x31,0x32,0x33,0x36,0x31]
  signed := .absent
  digits := longFraction_digits 12360
  written := List.cons_ne_nil _ _
  pointed h := absurd h Bool.noConfusion
  scaled := longFraction_scaled

theorem longFraction_values : longFraction.values = List.replicate 12361 0 ++ [1] := by
  show ([0x30] ++ (List.replicate 12360 (0x30 : UInt8) ++ [0x31])).map digitValue = _
  rw [List.map_append,List.map_append,List.map_replicate,← List.append_assoc]
  rfl

theorem longFraction_exponent : longFraction.writtenExp = 12361 ∧
    signExp longFraction.exponent.tail.head? (longFraction.readExp .strtod) = 1236 := by
  decide

theorem longFraction_value : longFraction.value = 1 := by
  have hexp := longFraction_exponent.1
  have hlen : longFraction.fraction.length = 12361 := by
    show (List.replicate 12360 (0x30 : UInt8) ++ [0x31]).length = 12361
    rw [List.length_append,List.length_replicate,List.length_singleton]
  have hsign : signExp longFraction.exponent.tail.head? 12361 = 12361 := rfl
  rw [DecimalText.value,longFraction_values,horner_zeros,hexp,hlen,hsign]
  norm_num [horner_cons,horner_nil]

theorem longFraction_reading : longFraction.reading .strtod = .dec 1 1 (-11125) 0 := by
  have hsig : significant longFraction.values = [1] := by
    rw [longFraction_values,significant,List.dropWhile_append,List.dropWhile_replicate]
    simp
  have hkept : kept (Build.capacity .strtod false) longFraction.values = [1] := by
    rw [kept,hsig]
    rfl
  have hlost : longFraction.lost .strtod = [] := by
    rw [DecimalText.lost,dropped,hsig]
    rfl
  have huint : longFraction.uint .strtod = 1 := by
    rw [DecimalText.uint,hkept]
    rfl
  have hexp : longFraction.exp .strtod = -11125 := by
    have hlen : longFraction.fraction.length = 12361 := by
      show (List.replicate 12360 (0x30 : UInt8) ++ [0x31]).length = 12361
      rw [List.length_append,List.length_replicate,List.length_singleton]
    rw [DecimalText.exp,hlost,hlen,longFraction_exponent.2]
    rfl
  rw [DecimalText.reading,huint,hkept,hexp,hlost,if_neg one_ne_zero]
  rfl

theorem long_fraction_lost : longFraction.value = 1 ∧ ¬Delivers (charsFeed .strtod rfl false longFraction) (Keeps .strtod longFraction) ∧
    Delivers (charsFeed .strtod rfl false longFraction) fun r => Build.strtod.flt r = some 0 := by
  have hexp := longFraction_exponent.1
  refine ⟨longFraction_value,?_,?_⟩
  · rw [delivers_iff,DecimalText.keeps_iff,longFraction_value,hexp]
    rintro (h | h)
    · exact absurd h one_ne_zero
    · exact absurd h (by decide)
  · rw [delivers_iff,longFraction_reading]
    rfl

end Scanf
