import Mathlib
import Picolibc.Scanf.HexText
import Picolibc.Scanf.HexNarrow

open Ascii BinaryFormat HalfEven Scanf.Grammar

namespace Scanf

def signBit (minus : Bool) : Nat := if minus then 2 ^ 31 else 0

def stored (run : Nat → Nat → ℤ → Nat → Option Nat) (fuel : Nat) : Bool × Front → Option Nat
  | (minus,.zero) => some (signBit minus)
  | (minus,.hex uint exp overflow) => (run fuel uint exp overflow).map (signBit minus + ·)
  | _ => none

def Stores {b : Build} {T : HexText} (f : Feed b T.text) (run : Nat → Nat → ℤ → Nat → Option Nat) (bits : Nat) : Prop :=
  ∃ N, ∀ fuel, N ≤ fuel → ∃ v t, convFlt b f.src fuel f.width f.start = some ⟨some v,t⟩ ∧ stored run fuel v = some bits

def Above (x : ℚ) : Prop := binary32.overflow ≤ x

def Below (x : ℚ) : Prop := x ≤ binary32.ulp binary32.emin / 2

def HexText.Agrees (T : HexText) : Prop :=
  T.uint .strtof = 0 ∨
    (¬binary32.Carries (T.seen (.vfscanf false)) ∧ (T.readExp .strtof = T.readExp (.vfscanf false) ∨
      Above (T.seen .strtof) ∧ Above (T.seen (.vfscanf false)) ∨ Below (T.seen .strtof) ∧ Below (T.seen (.vfscanf false)))) ∨
    (Above (T.seen .strtof) ∧ (2 * binary32.hidden - 1 / 2) * binary32.ulp 126 ≤ T.seen (.vfscanf false) ∧
      T.seen (.vfscanf false) < 2 ^ (127 : ℤ))

theorem stores_iff {b : Build} {T : HexText} (f : Feed b T.text) {run : Nat → Nat → ℤ → Nat → Option Nat} {v N : Nat}
    (h : ∀ fuel, N ≤ fuel → stored run fuel (T.minus,T.reading b) = some v) (bits : Nat) : Stores f run bits ↔ bits = v := by
  have hrun : ∀ fuel, T.text.length + 1 ≤ fuel → ∃ t, convFlt b f.src fuel f.width f.start = some ⟨some (T.minus,T.reading b),t⟩ :=
    fun fuel hfuel => hex_reads f hfuel
  constructor
  · rintro ⟨M,hM⟩
    obtain ⟨w,t,hread,hbits⟩ := hM (max M (max N (T.text.length + 1))) (le_max_left _ _)
    obtain ⟨t',hread'⟩ := hrun (max M (max N (T.text.length + 1))) (by omega)
    have hv := h (max M (max N (T.text.length + 1))) (by omega)
    rw [hread'] at hread
    obtain rfl : (T.minus,T.reading b) = w := Option.some.inj (congrArg Reading.value (Option.some.inj hread))
    exact Option.some.inj (hbits.symm.trans hv)
  · rintro rfl
    refine ⟨max N (T.text.length + 1),fun fuel hfuel => ?_⟩
    obtain ⟨t,ht⟩ := hrun fuel (by omega)
    exact ⟨_,t,ht,h fuel (by omega)⟩

section

variable {x y : ℚ} {b d : Nat}

theorem above_inf (h : binary32.Rounds x b) : b = binary32.inf ↔ Above x := Format.rounds_inf h

theorem below_zero (h : binary32.Rounds x b) : b = 0 ↔ Below x := Format.rounds_zero h

theorem above_of_pow {k : ℤ} (hk : 128 ≤ k) (h : 2 ^ k ≤ x) : Above x :=
  overflow32.trans ((zpow_le_zpow_right₀ one_le_two hk).trans h)

theorem smallest : binary32.ulp binary32.emin / 2 = 2 ^ (-150 : ℤ) := by
  norm_num [Format.ulp,Format.emin,binary32]

theorem below_of_pow {k : ℤ} (hk : k ≤ -150) (h : x ≤ 2 ^ k) : Below x := by
  rw [Below,smallest]
  exact h.trans (zpow_le_zpow_right₀ one_le_two hk)

theorem not_below {k : ℤ} (hk : -150 < k) (h : 2 ^ k ≤ x) : ¬Below x := by
  rw [Below,smallest,not_le]
  exact (zpow_lt_zpow_right₀ one_lt_two hk).trans_le h

theorem not_above (h : ¬Above x) : x ≤ 2 ^ (128 : ℤ) := (not_le.mp h).le.trans overflow32

theorem inf_ne_zero : binary32.inf ≠ 0 := by decide

theorem far_below (h : x * 2 ^ 2016 ≤ y) (hy : y ≤ 2 ^ (128 : ℤ)) : x ≤ 2 ^ (-1888 : ℤ) := by
  have hpow : (0 : ℚ) < 2 ^ 2016 := by positivity
  have hle : x * 2 ^ 2016 ≤ 2 ^ (-1888 : ℤ) * 2 ^ 2016 := by
    refine (h.trans hy).trans_eq ?_
    rw [← zpow_natCast,← zpow_add₀ two_ne_zero]
    rfl
  exact le_of_mul_le_mul_right hle hpow

theorem far_above {k : ℤ} (h : x * 2 ^ 2016 ≤ y) (hx : 2 ^ k ≤ x) : 2 ^ (k + 2016) ≤ y := by
  refine le_trans ?_ h
  rw [zpow_add₀ two_ne_zero]
  exact mul_le_mul_of_nonneg_right hx (by positivity)

theorem rounds_far (hx : binary32.Rounds x b) (hy : binary32.Rounds y d) (h : x * 2 ^ 2016 ≤ y) :
    b = d ↔ Above x ∧ Above y ∨ Below x ∧ Below y := by
  constructor
  · rintro rfl
    by_cases hbig : Above y
    · exact .inl ⟨(above_inf hx).mp ((above_inf hy).mpr hbig),hbig⟩
    · have hsmall := below_of_pow (by omega) (far_below h (not_above hbig))
      exact .inr ⟨hsmall,(below_zero hy).mp ((below_zero hx).mpr hsmall)⟩
  · rintro (⟨hbx,hby⟩ | ⟨hsx,hsy⟩)
    · rw [(above_inf hx).mpr hbx,(above_inf hy).mpr hby]
    · rw [(below_zero hx).mpr hsx,(below_zero hy).mpr hsy]

structure CarriesAt (x : ℚ) (e : ℤ) : Prop where
  range : -126 ≤ e ∧ e ≤ 127
  low : (2 * binary32.hidden - 1 / 2) * binary32.ulp e ≤ x
  high : x < 2 ^ (e + 1)

theorem carries_iff : binary32.Carries x ↔ ∃ e, CarriesAt x e :=
  ⟨fun ⟨e,hmin,hmax,hlow,hhigh⟩ => ⟨e,⟨hmin,hmax⟩,hlow,hhigh⟩,fun ⟨e,h⟩ => ⟨e,h.range.1,h.range.2,h.low,h.high⟩⟩

theorem CarriesAt.binade {e : ℤ} (h : CarriesAt x e) : binary32.Binade x e := Format.carried_binade h.range.1 h.low h.high

theorem CarriesAt.floor {e : ℤ} (h : CarriesAt x e) : 2 ^ (-126 : ℤ) ≤ x := by
  have hrange := h.range.1
  rcases h.binade.low with hlow | hmin
  · exact (zpow_le_zpow_right₀ one_le_two hrange).trans hlow
  · have hlow := h.low
    rw [hmin] at hlow
    refine le_trans ?_ hlow
    norm_num [Format.ulp,Format.emin,Format.hidden,binary32]

theorem carried_exponent {e : ℤ} (h : -126 ≤ e ∧ e ≤ 127) :
    ∃ j, carried e = 2 ^ j ∧ -126 ≤ j ∧ j ≠ e + 1 ∧ (128 ≤ j ↔ e = 126) := by
  refine ⟨_,rfl,?_⟩
  rw [Hex.or_two_eq]
  split_ifs <;> omega

theorem carry_delivers {e : ℤ} (h : CarriesAt x e) (hx : binary32.Rounds x b) : binary32.Delivers (2 ^ (e + 1)) b := by
  obtain ⟨e',n,hbin,hnear,hdel⟩ := hx
  obtain rfl := h.binade.unique hbin
  rw [(Format.carry_iff hbin hnear).mpr h.low] at hdel
  have hpow : ((2 * binary32.hidden : ℕ) : ℚ) * binary32.ulp e = 2 ^ (e + 1) := by
    rw [zpow_add_one₀ two_ne_zero,← binary32.hidden_ulp]
    push_cast
    ring
  rwa [hpow] at hdel

theorem power_inf {j : ℤ} (h : binary32.Delivers (2 ^ j) b) : b = binary32.inf ↔ 128 ≤ j := by
  rw [Format.delivers_inf h,← zpow_natCast]
  exact zpow_le_zpow_iff_right₀ one_lt_two

theorem power_value {j : ℤ} (h : binary32.Delivers (2 ^ j) b) (hj : ¬128 ≤ j) : binary32.value b = 2 ^ j := by
  have hlt : ¬(2 : ℚ) ^ (binary32.emax + 1) ≤ 2 ^ j := fun hle => hj ((power_inf h).mp ((Format.delivers_inf h).mpr hle))
  rw [Format.Delivers,if_neg hlt] at h
  exact h.2

theorem carry_same {e : ℤ} (h : CarriesAt x e) (hx : binary32.Rounds x b) (hd : binary32.Rounds (carried e) d) : b ≠ d := by
  obtain ⟨j,hj,hlow,hne,htop⟩ := carried_exponent h.range
  have hb := carry_delivers h hx
  rw [hj] at hd
  replace hd := Format.power_delivers hlow hd
  rintro rfl
  by_cases hbig : 128 ≤ j
  · have hinf := (power_inf hb).mp ((power_inf hd).mpr hbig)
    have he := htop.mp hbig
    omega
  · have hsmall : ¬128 ≤ e + 1 := fun hle => hbig ((power_inf hd).mp ((power_inf hb).mpr hle))
    have hpow := (power_value hb hsmall).symm.trans (power_value hd hbig)
    exact hne (zpow_right_injective₀ two_pos (by norm_num) hpow).symm

theorem carry_far {e : ℤ} (h : CarriesAt y e) (hx : binary32.Rounds x b) (hd : binary32.Rounds (carried e) d)
    (hfar : x * 2 ^ 2016 ≤ y ∨ y * 2 ^ 2016 ≤ x) : b = d ↔ Above x ∧ e = 126 := by
  obtain ⟨j,hj,hlow,-,htop⟩ := carried_exponent h.range
  rw [hj] at hd
  have hdel := Format.power_delivers hlow hd
  rcases hfar with hfar | hfar
  · have hlimit : y ≤ 2 ^ (128 : ℤ) := h.high.le.trans (zpow_le_zpow_right₀ one_le_two (by have := h.range.2; omega))
    have hsmall := below_of_pow (by omega) (far_below hfar hlimit)
    have hzero := (below_zero hx).mpr hsmall
    have hnone : d ≠ 0 := fun hd0 => not_below (by omega) le_rfl ((below_zero hd).mp hd0)
    refine ⟨fun hbd => absurd (hbd.symm.trans hzero) hnone,fun hab => ?_⟩
    exact absurd (((above_inf hx).mpr hab.1).symm.trans hzero) inf_ne_zero
  · have hbig : Above x := above_of_pow (by omega) (far_above hfar h.floor)
    rw [(above_inf hx).mpr hbig,eq_comm,power_inf hdel,htop]
    exact ⟨fun he => ⟨hbig,he⟩,fun hand => hand.2⟩

end

theorem accumulate_pair (ds : List UInt8) :
    ds.foldl (accumulate .strtof) 0 = ds.foldl (accumulate (.vfscanf false)) 0 ∨
      224 ≤ ds.foldl (accumulate .strtof) 0 ∧ 10 * ds.foldl (accumulate .strtof) 0 ≤ ds.foldl (accumulate (.vfscanf false)) 0 := by
  induction ds using List.reverseRecOn with
  | nil => exact .inl rfl
  | append_singleton ds c ih =>
    have hshort : Build.strtof.maxPossibleExp = 224 := rfl
    have hlong : (Build.vfscanf false).maxPossibleExp = 1236 := rfl
    simp only [List.foldl_append,List.foldl_cons,List.foldl_nil,accumulate,hshort,hlong]
    generalize ds.foldl (accumulate .strtof) 0 = m at *
    generalize ds.foldl (accumulate (.vfscanf false)) 0 = n at *
    split_ifs <;> omega

namespace HexText

variable {T : HexText}

theorem seen_shift (T : HexText) (h : T.exp .strtof ≤ T.exp (.vfscanf false)) :
    T.seen .strtof * 2 ^ (T.exp (.vfscanf false) - T.exp .strtof).toNat = T.seen (.vfscanf false) := by
  have hsum : T.exp .strtof + ((T.exp (.vfscanf false) - T.exp .strtof).toNat : ℤ) = T.exp (.vfscanf false) := by omega
  rw [seen,mul_assoc,← zpow_natCast,← zpow_add₀ two_ne_zero,hsum]
  rfl

theorem seen_shift_back (T : HexText) (h : T.exp (.vfscanf false) ≤ T.exp .strtof) :
    T.seen (.vfscanf false) * 2 ^ (T.exp .strtof - T.exp (.vfscanf false)).toNat = T.seen .strtof := by
  have hsum : T.exp (.vfscanf false) + ((T.exp .strtof - T.exp (.vfscanf false)).toNat : ℤ) = T.exp .strtof := by omega
  rw [seen,mul_assoc,← zpow_natCast,← zpow_add₀ two_ne_zero,hsum]
  rfl

theorem exp_gap (T : HexText) (h : T.readExp .strtof ≠ T.readExp (.vfscanf false)) :
    T.exp .strtof + 2016 ≤ T.exp (.vfscanf false) ∨ T.exp (.vfscanf false) + 2016 ≤ T.exp .strtof := by
  have hpair := accumulate_pair ((T.exponent.tail.drop (signLen T.exponent.tail)).takeWhile isdigit)
  have hgap : T.readExp .strtof + 2016 ≤ T.readExp (.vfscanf false) := by
    unfold readExp at h ⊢
    omega
  have hlost : T.lost .strtof = T.lost (.vfscanf false) := rfl
  unfold exp
  rw [hlost]
  unfold signExp
  split_ifs <;> omega

theorem seen_gap (T : HexText) (hpos : T.uint .strtof ≠ 0) (h : T.readExp .strtof ≠ T.readExp (.vfscanf false)) :
    T.seen .strtof * 2 ^ 2016 ≤ T.seen (.vfscanf false) ∨ T.seen (.vfscanf false) * 2 ^ 2016 ≤ T.seen .strtof := by
  rcases T.exp_gap h with hlt | hlt
  · left
    rw [← T.seen_shift (by omega)]
    exact mul_le_mul_of_nonneg_left (pow_le_pow_right₀ one_le_two (by omega)) (seen_pos hpos).le
  · right
    rw [← T.seen_shift_back (by omega)]
    exact mul_le_mul_of_nonneg_left (pow_le_pow_right₀ one_le_two (by omega)) (seen_pos (b := .vfscanf false) hpos).le

theorem agrees_iff (T : HexText) (hpos : T.uint .strtof ≠ 0) {b d : Nat} (hb : binary32.Rounds (T.seen .strtof) b)
    (hd : Narrowed (T.seen (.vfscanf false)) d) : b = d ↔ T.Agrees := by
  have hexp : T.readExp .strtof = T.readExp (.vfscanf false) → T.seen .strtof = T.seen (.vfscanf false) := by
    intro h
    unfold seen exp
    rw [h]
    rfl
  have hskip : T.Agrees ↔ _ ∨ _ := or_iff_right hpos
  rw [hskip]
  by_cases hc : binary32.Carries (T.seen (.vfscanf false))
  · obtain ⟨e,he⟩ := carries_iff.mp hc
    have hround := hd.carry e he.range.1 he.range.2 he.low he.high
    have hthird : (2 * binary32.hidden - 1 / 2) * binary32.ulp 126 ≤ T.seen (.vfscanf false) ∧
        T.seen (.vfscanf false) < 2 ^ (127 : ℤ) ↔ e = 126 := by
      constructor
      · intro h
        exact he.binade.unique (Format.carried_binade (show (-126 : ℤ) ≤ 126 by omega) h.1 h.2)
      · rintro rfl
        exact ⟨he.low,he.high⟩
    rw [or_iff_right fun h => h.1 hc,hthird]
    by_cases hsame : T.readExp .strtof = T.readExp (.vfscanf false)
    · rw [hexp hsame] at hb ⊢
      refine ⟨fun h => absurd h (carry_same he hb hround),fun h => ?_⟩
      have hhigh := he.high
      have hlow : (2 : ℚ) ^ (128 : ℤ) - 2 ^ (103 : ℤ) ≤ T.seen (.vfscanf false) := by
        refine le_trans (le_of_eq ?_) h.1
        norm_num [Format.overflow,Format.ulp,Format.hidden,binary32]
      rw [h.2] at hhigh
      norm_num at hlow hhigh
      linarith
    · exact carry_far he hb hround (T.seen_gap hpos hsame)
  · have hround := hd.plain hc
    have hthird : ¬((2 * binary32.hidden - 1 / 2) * binary32.ulp 126 ≤ T.seen (.vfscanf false) ∧
        T.seen (.vfscanf false) < 2 ^ (127 : ℤ)) :=
      fun h => hc ⟨126,by decide,by decide,h.1,h.2⟩
    rw [or_iff_left fun h => hthird h.2,and_iff_right hc]
    by_cases hsame : T.readExp .strtof = T.readExp (.vfscanf false)
    · rw [hexp hsame] at hb
      exact ⟨fun _ => .inl hsame,fun _ => hb.unique hround⟩
    · rw [or_iff_right hsame]
      rcases T.seen_gap hpos hsame with hfar | hfar
      · exact rounds_far hb hround hfar
      · rw [eq_comm,rounds_far hround hb hfar,and_comm,@and_comm (Below _)]

theorem strtof_set (T : HexText) (h : T.sticky .strtof = true) :
    2 ^ (float.uintBits - 4) ≤ T.uint .strtof ∧ 0 < T.part .strtof ∧ T.part .strtof < 1 := sticky_set h

theorem scanf_set (T : HexText) (h : T.sticky (.vfscanf false) = true) :
    2 ^ (float.uintBits - 4) ≤ T.uint (.vfscanf false) ∧ 0 < T.part (.vfscanf false) ∧ T.part (.vfscanf false) < 1 := sticky_set h

theorem stored_hex {b : Build} (T : HexText) (hpos : T.uint b ≠ 0) {run : Nat → Nat → ℤ → Nat → Option Nat} {v N : Nat}
    (h : ∀ fuel, N ≤ fuel → run fuel (T.uint b) (T.exp b) (T.sticky b).toNat = some v) :
    ∀ fuel, N ≤ fuel → stored run fuel (T.minus,T.reading b) = some (signBit T.minus + v) := by
  intro fuel hfuel
  rw [reading,if_neg hpos,stored,h fuel hfuel,Option.map_some]

theorem stored_zero {b : Build} (T : HexText) (hzero : T.uint b = 0) (run : Nat → Nat → ℤ → Nat → Option Nat) :
    ∀ fuel, 0 ≤ fuel → stored run fuel (T.minus,T.reading b) = some (signBit T.minus) := by
  intro fuel _
  rw [reading,if_pos hzero,stored]

theorem stores_values (T : HexText) (hpos : T.uint .strtof ≠ 0) (f : Feed .strtof T.text) (g : Feed (.vfscanf false) T.text) :
    ∃ b d, (b = d ↔ T.Agrees) ∧ ∀ bits, (Stores f strtofHex bits ↔ bits = signBit T.minus + b) ∧
      (Stores g scanfHex bits ↔ bits = signBit T.minus + d) := by
  obtain ⟨b,N,hb,hround⟩ := Hex.assemble_rounds float_fits (T.exp .strtof) (Nat.pos_of_ne_zero hpos) T.strtof_set sticky_clear
  obtain ⟨d,M,hd,hnarrow⟩ :=
    @scanf_assembles (T.uint (.vfscanf false)) (T.exp (.vfscanf false)) (Nat.pos_of_ne_zero hpos) _ _ T.scanf_set sticky_clear
  refine ⟨b,d,T.agrees_iff hpos hround hnarrow,fun bits => ⟨?_,?_⟩⟩
  · exact stores_iff f (T.stored_hex hpos hb) bits
  · exact stores_iff g (@stored_hex (.vfscanf false) T hpos _ _ _ hd) bits

end HexText

def stringFeed (T : HexText) (signed : Bool) (hlow : ∀ c ∈ T.text, c < 0x80) : Feed .strtof T.text where
  σ := Nat
  src := chars signed T.text
  start := 0
  stop := 0 + T.text.length
  width := BitVec.ofNat 32 0x7fffffff
  reads := chars_reads signed List.drop_zero hlow
  ended := chars_ended signed (drop_whole T.text)
  room := .inl rfl

def inputFeed (T : HexText) (hlen : T.text.length ≤ 0xffffffff) : Feed (.vfscanf false) T.text where
  σ := Input
  src := scanfSource
  start := .ofString T.text
  stop := drained T.text (.ofString T.text)
  width := BitVec.ofNat 32 0xffffffff
  reads := (input_reads (s := .ofString T.text) rfl).1
  ended := (input_reads (s := .ofString T.text) rfl).2
  room := .inr hlen

theorem hex_agree_iff (T : HexText) (f : Feed .strtof T.text) (g : Feed (.vfscanf false) T.text) :
    (∃ bits, Stores f strtofHex bits ∧ Stores g scanfHex bits) ↔ T.Agrees := by
  by_cases hzero : T.uint .strtof = 0
  · refine ⟨fun _ => .inl hzero,fun _ => ⟨signBit T.minus,?_,?_⟩⟩
    · exact (stores_iff f (T.stored_zero hzero strtofHex) _).mpr rfl
    · exact (stores_iff g (@HexText.stored_zero (.vfscanf false) T hzero scanfHex) _).mpr rfl
  · obtain ⟨b,d,hagree,hstores⟩ := T.stores_values hzero f g
    rw [← hagree]
    constructor
    · rintro ⟨bits,hf,hg⟩
      have hsum := ((hstores bits).1.mp hf).symm.trans ((hstores bits).2.mp hg)
      omega
    · rintro rfl
      exact ⟨_,(hstores _).1.mpr rfl,(hstores _).2.mpr rfl⟩

theorem nearlyTwo_digits : ∀ c ∈ ([0x31] ++ List.replicate 6 0x66 : List UInt8), isHex c = true := by
  intro c hc
  simp only [List.singleton_append,List.mem_cons,List.mem_replicate] at hc
  rcases hc with rfl | ⟨-,rfl⟩ <;> decide

def nearlyTwo : HexText where
  sign := []
  letter := 0x78
  whole := [0x31]
  point := true
  fraction := List.replicate 6 0x66
  exponent := []
  signed := .absent
  marked := rfl
  digits := nearlyTwo_digits
  written := List.cons_ne_nil _ _
  pointed h := absurd h Bool.noConfusion
  scaled := .absent

theorem nearlyTwo_parts : (∀ c ∈ nearlyTwo.text, c < 0x80) ∧ nearlyTwo.uint (.vfscanf false) = 0x1ffffff ∧
    nearlyTwo.exp (.vfscanf false) = -24 ∧ nearlyTwo.lost (.vfscanf false) = [] ∧ nearlyTwo.uint .strtof ≠ 0 := by
  decide +kernel

theorem nearlyTwo_low : ∀ c ∈ nearlyTwo.text, c < 0x80 := nearlyTwo_parts.1

theorem nearlyTwo_short : nearlyTwo.text.length ≤ 0xffffffff := by decide

theorem nearlyTwo_seen : nearlyTwo.seen (.vfscanf false) = 2 - 2 ^ (-24 : ℤ) := by
  obtain ⟨-,huint,hexp,hlost,-⟩ := nearlyTwo_parts
  rw [HexText.seen,HexText.part,huint,hexp,hlost]
  norm_num [Numerals.horner_nil]

theorem carry_missed : ¬∃ bits, Stores (stringFeed nearlyTwo true nearlyTwo_low) strtofHex bits ∧
    Stores (inputFeed nearlyTwo nearlyTwo_short) scanfHex bits := by
  have hpos := nearlyTwo_parts.2.2.2.2
  have hseen := nearlyTwo_seen
  obtain ⟨b,d,hagree,hstores⟩ := nearlyTwo.stores_values hpos (stringFeed nearlyTwo true nearlyTwo_low)
    (inputFeed nearlyTwo nearlyTwo_short)
  rintro ⟨bits,hf,hg⟩
  have hsum := ((hstores bits).1.mp hf).symm.trans ((hstores bits).2.mp hg)
  rcases hagree.mp (by omega) with hzero | ⟨hcarry,-⟩ | ⟨-,hhigh,-⟩
  · exact hpos hzero
  · refine hcarry ⟨0,by decide,by decide,?_,?_⟩
    · rw [hseen]
      norm_num [Format.ulp,Format.hidden,binary32]
    · rw [hseen]
      norm_num
  · rw [hseen] at hhigh
    norm_num [Format.ulp,Format.hidden,binary32] at hhigh

end Scanf
