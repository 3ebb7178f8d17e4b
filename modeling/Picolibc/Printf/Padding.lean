import Mathlib
import Picolibc.Printf.HexFloat
import Picolibc.Printf.Decimal

open Numerals

namespace Printf

def DtoxKind.Nonzero (k : DtoxKind) (ufi : Nat) : Prop := k.biased ufi ≠ 0 ∨ k.fraction ufi ≠ 0

section

variable {scale : Nat → Scaled} {bits : Nat}

def floatDigits (d : FloatingDecimal64) : List Nat := fixed 10 d.olength d.mantissa

def FloatingDecimal64.top (d : FloatingDecimal64) : Int := d.exponent + d.olength - 1

theorem dtoa_eq (hfin : f64.Finite bits) (hx : f64.Nonzero bits) (max : Nat) (fmode : Bool) (decimals : Int) :
    dtoaEngine scale bits max fmode decimals =
      (⟨decide (bits >>> 63 &&& 1 ≠ 0),false,false,(d2d (scale bits) max fmode decimals).top,
        (floatDigits (d2d (scale bits) max fmode decimals)).map (digitText false)⟩,
        (d2d (scale bits) max fmode decimals).olength) := by
  have hexp : bits >>> 52 &&& 0x7ff = f64.biased bits := exp_biased f64_sound bits
  have hman : bits &&& 0xfffffffffffff = f64.fraction bits := Nat.and_two_pow_sub_one_eq_mod bits 52
  have hordinary : f64.biased bits ≠ 0x7ff := hfin.ne
  unfold dtoaEngine
  dsimp only
  rw [hexp,hman,if_neg (fun h => hx.elim (absurd h.1) (absurd h.2)),if_neg hordinary]
  rfl

variable {e10 : Int} {output : Nat} {d : FloatingDecimal64}

theorem Settled.low (h : Settled e10 output d) : 10 ^ (d.olength - 1) ≤ d.mantissa := by
  rw [h.olength]
  exact pow_length_le h.room h.pos

theorem Settled.span (h : Settled e10 output d) :
    (10 : ℚ) ^ d.top ≤ output * 10 ^ e10 ∧ (output : ℚ) * 10 ^ e10 < 10 ^ (d.top + 1) := by
  have hlow : ((10 ^ (d.olength - 1) : ℕ) : ℚ) ≤ d.mantissa := by exact_mod_cast h.low
  have hhigh : (d.mantissa : ℚ) < ((10 ^ d.olength : ℕ) : ℚ) := by exact_mod_cast h.digits.1
  have hlen := h.digits.2
  have hpos : (0 : ℚ) < 10 ^ d.exponent := by positivity
  have htop : (10 : ℚ) ^ d.top = ((10 ^ (d.olength - 1) : ℕ) : ℚ) * 10 ^ d.exponent := by
    push_cast
    rw [← zpow_natCast,← zpow_add₀ (by norm_num),FloatingDecimal64.top]
    congr 1
    omega
  have hnext : (10 : ℚ) ^ (d.top + 1) = ((10 ^ d.olength : ℕ) : ℚ) * 10 ^ d.exponent := by
    push_cast
    rw [← zpow_natCast,← zpow_add₀ (by norm_num),FloatingDecimal64.top]
    congr 1
    omega
  rw [← h.value,htop,hnext]
  exact ⟨mul_le_mul_of_nonneg_right hlow hpos.le,mul_lt_mul_of_pos_right hhigh hpos⟩

theorem Settled.decimalValue (h : Settled e10 output d) : decimalValue (floatDigits d) d.top = output * 10 ^ e10 := by
  have hlen := h.digits.2
  have hexp : (10 : ℚ) ^ d.top = 10 ^ (d.olength - 1) * 10 ^ d.exponent := by
    rw [← zpow_natCast,← zpow_add₀ (by norm_num),FloatingDecimal64.top]
    congr 1
    omega
  rw [Printf.decimalValue,floatDigits,horner_fixed,fixed_length,Nat.mod_eq_of_lt h.digits.1,hexp,← h.value]
  field_simp

theorem Settled.head (h : Settled e10 output d) : (floatDigits d).head? ≠ some 0 := by
  obtain ⟨k,hk⟩ := Nat.exists_eq_add_of_le' h.digits.2
  have hlow := h.low
  have hhigh := h.digits.1
  rw [hk,Nat.add_sub_cancel] at hlow
  rw [hk] at hhigh
  have hquot : d.mantissa / 10 ^ k < 10 := Nat.div_lt_of_lt_mul (by rwa [← pow_succ])
  have hone : 1 ≤ d.mantissa / 10 ^ k := (Nat.one_le_div_iff (by positivity)).mpr hlow
  rw [floatDigits,hk,fixed_cons,List.head?_cons,Nat.mod_eq_of_lt hquot]
  intro hzero
  have hz := Option.some.inj hzero
  omega

theorem Settled.answer (h : Settled e10 output d) (minus : Bool) (hnear : d.top.natAbs < 1000) :
    Answer (⟨minus,false,false,d.top,(floatDigits d).map (digitText false)⟩,d.olength) minus (floatDigits d) d.top := by
  have hlen := h.digits.2
  have hfew := h.few
  exact ⟨rfl,(fixed_length _ _ _).symm,fixed_lt (by decide) _ _,by rwa [floatDigits,fixed_length],
    by rwa [floatDigits,fixed_length],.inl h.head,hnear⟩

theorem decade_unique {x : ℚ} {m n : ℤ} (hm : 10 ^ m ≤ x ∧ x < 10 ^ (m + 1)) (hn : 10 ^ n ≤ x ∧ x < 10 ^ (n + 1)) : m = n := by
  have hle := (zpow_lt_zpow_iff_right₀ (by norm_num : (1 : ℚ) < 10)).mp (hm.1.trans_lt hn.2)
  have hge := (zpow_lt_zpow_iff_right₀ (by norm_num : (1 : ℚ) < 10)).mp (hn.1.trans_lt hm.2)
  omega

theorem top_unique {e : Int} {m : Nat} {f : FloatingDecimal64} (h : Settled e10 output d) (h' : Settled e m f)
    (heq : (output : ℚ) * 10 ^ e10 = m * 10 ^ e) : d.top = f.top :=
  decade_unique h.span (heq ▸ h'.span)

theorem Settled.top_eq (h : Settled e10 output d) (hroom : output < 10 ^ 20) (hpos : 0 < output) :
    d.top = e10 + decimalLength17 output - 1 := by
  have hlow : ((10 ^ (decimalLength17 output - 1) : ℕ) : ℚ) ≤ output := by exact_mod_cast pow_length_le hroom hpos
  have hhigh : (output : ℚ) < ((10 ^ decimalLength17 output : ℕ) : ℚ) := by exact_mod_cast lt_pow_length hroom
  have hlen := length_pos output
  have hscale : (0 : ℚ) < 10 ^ e10 := by positivity
  have hshift : ∀ k : ℕ, (10 : ℚ) ^ (k + e10 : ℤ) = ((10 ^ k : ℕ) : ℚ) * 10 ^ e10 := fun k => by
    rw [zpow_add₀ (by norm_num),zpow_natCast]
    push_cast
    rfl
  refine decade_unique h.span ⟨?_,?_⟩
  · rw [show e10 + decimalLength17 output - 1 = (decimalLength17 output - 1 : ℕ) + e10 by omega,hshift]
    exact mul_le_mul_of_nonneg_right hlow hscale.le
  · rw [show e10 + decimalLength17 output - 1 + 1 = decimalLength17 output + e10 by omega,hshift]
    exact mul_lt_mul_of_pos_right hhigh hscale

theorem fixed_top (s : Scaled) {p : Nat} {n : Int} (hn : (s.whole.output s.up : ℚ) * 10 ^ s.exponent * 10 ^ p = n) :
    ∃ i m : Nat, Settled (s.exponent + i) m (d2d s 17 true p) ∧ (d2d s 17 false 0).top = (d2d s 17 true p).top ∧
      (s.whole.output s.up : ℚ) * 10 ^ s.exponent = m * 10 ^ (s.exponent + i) := by
  obtain ⟨i,hfixed,hout,-⟩ := d2d_fixed s hn
  have hvalue : (s.whole.output s.up : ℚ) * 10 ^ s.exponent =
      (s.trimmed (s.cut p)).output (s.carries (s.cut p)) * 10 ^ (s.exponent + i) := by
    rw [← hout,zpow_add₀ (by norm_num),zpow_natCast]
    push_cast
    ring
  exact ⟨i,_,hfixed,top_unique (d2d_whole s 0) hfixed hvalue,hvalue⟩

theorem d2d_ints {s : Scaled} (hnarrow : s.Narrow) {p : Nat} {n : Int}
    (hn : (s.whole.output s.up : ℚ) * 10 ^ s.exponent * 10 ^ p = n) :
    ∀ k ∈ d2dInts s 17 true p, 0 ≤ k ∧ k ≤ p + (d2d s 17 true p).top + 1 := by
  obtain ⟨i,hfixed,hout,hremoved,hplaces⟩ := d2d_fixed s hn
  have hroom := s.room
  have hpos : 0 < (s.trimmed (s.cut p)).output (s.carries (s.cut p)) := by
    refine Nat.pos_of_ne_zero fun hzero => ?_
    rw [hzero,zero_mul] at hout
    exact (output_pos (by decide) s.short s.pos).ne hout
  have hshort : (s.trimmed (s.cut p)).output (s.carries (s.cut p)) < 10 ^ 20 := by
    have hbit := Bool.toNat_le (s.carries (s.cut p))
    have hvr := drops_short (s.drops (s.cut p)) (show s.vr < 10 ^ 19 by omega)
    rw [Trim.output]
    change (s.trimmed (s.cut p)).vr < 10 ^ 19 at hvr
    omega
  have htop := hfixed.top_eq hshort hpos
  obtain ⟨hfirst,hlast⟩ := s.last_near hnarrow hpos
  have hsign : (if (p : ℤ) < 0 then 1 else 0 : ℤ) = 0 := if_neg (by omega)
  have hlen := length_pos ((s.trimmed (s.cut p)).output (s.carries (s.cut p)))
  intro k hk
  unfold d2dInts at hk
  simp only [hsign,if_true,List.mem_cons] at hk
  change decimalLength17 s.vr ≤ (s.trimmed (s.cut p)).removed + decimalLength17 ((s.trimmed (s.cut p)).output (s.carries (s.cut p))) at hfirst
  change (s.trimmed (s.cut p)).removed + decimalLength17 ((s.trimmed (s.cut p)).output (s.carries (s.cut p))) ≤ _ at hlast
  rcases hk with rfl | hk
  · omega
  · split_ifs at hk
    · rw [List.mem_singleton] at hk
      change k = p + (s.e10 + (s.trimmed (s.cut p)).removed +
        decimalLength17 ((s.trimmed (s.cut p)).output (s.carries (s.cut p))) - 1) + 1 at hk
      omega
    · cases hk

end

structure Conv.Wide (b : Build) (v : Conv Unit) (args : List Arg) (p : Nat) (ds : List Nat) (exp : Int) : Prop where
  scientific : v.letter ∈ [Letter.e,.E] → 17 ≤ (p + 1) % 256
  general : v.letter ∈ [Letter.g,.G] → 17 ≤ p % 256
  fixed : v.letter ∈ [Letter.f,.F] → ∃ n : ℤ, decimalValue ds exp * 10 ^ p = n

def Conv.d2dInts (b : Build) (e : FloatEngine) (scale : Nat → Scaled) (v : Conv Unit) (args : List Arg) : List Int :=
  let q := v.request b e args
  Printf.d2dInts (scale (v.value args).toNat) q.1 q.2.1 q.2.2

structure Conv.Pads (b : Build) (e : FloatEngine) (long : FloatText) (scale : Nat → Scaled) (v : Conv Unit) (args : List Arg)
    (minus : Bool) (ds : List Nat) (exp : Int) (p : Nat) : Prop where
  text : ∃ o n, format b (floatText e b long) (render [.conv v]) args = .ok o ∧ o.failed = false ∧ n.Formed ∧
    o.text = v.decimalText b args minus n ∧ n.value = decimalValue ds exp ∧
      v.decimalLength b e args = (v.decimalBody minus n).length ∧
        (v.letter ∈ [Letter.e,.E] → n = ⟨ds.take 1,ds.drop 1 ++ List.replicate (p + 1 - ds.length) 0,some exp⟩)
  ints : ∀ n ∈ v.decimalInts b e args ++ v.d2dInts b e scale args, InInt b n

section

variable {b : Build} {e : FloatEngine} {long : FloatText} {v : Conv Unit} {args : List Arg} {scale : Nat → Scaled} {p : Nat}

theorem expNumeral_split {ds : List Nat} (hs : 0 < ds.length) (exp : Int) (places : Nat) :
    expNumeral ds exp places = ⟨ds.take 1,ds.drop 1 ++ List.replicate (places + 1 - ds.length) 0,some exp⟩ := by
  rw [expNumeral,padded,List.take_append_of_le_length hs,List.drop_append_of_le_length hs]

theorem wrapU_mod (w n : Nat) : wrapU w n = n % 2 ^ w := by
  rw [wrapU]
  exact_mod_cast Int.toNat_natCast (n % 2 ^ w)

theorem fixed_request (hin : v.letter ∈ [Letter.f,.F]) (hmax : e.maxDig = 17) (hp : (v.asked b args).digits = some p) :
    v.request b e args = (17,true,(p : Int)) := by
  have c : lower v.letter.char = 'f'.toNat := by
    revert hin
    cases v.letter <;> decide
  rw [Conv.request,decimalRequest,if_neg (by rw [c]; decide),if_pos c,Conv.places,hp,hmax]
  rfl

theorem request_free (hl : v.letter ∈ Letter.decimals) (hin : v.letter ∉ [Letter.f,.F]) : (v.request b e args).2.1 = false := by
  cases letter_kind hl with
  | scientific _ c => rw [Conv.request,decimalRequest,if_pos c]
  | general _ c => rw [Conv.request,decimalRequest,if_neg (by rw [c]; decide),if_neg (by rw [c]; decide)]
  | fixed h c => exact absurd h hin

theorem fixed_room (hin : v.letter ∈ [Letter.f,.F]) (minus : Bool) (ds : List Nat) (exp : Int) :
    p + exp + 1 ≤ ((v.decimalBody minus (v.letter.numeral v.alt p ds exp)).length : Int) := by
  rw [Letter.numeral,if_neg (fixed_apart hin),if_pos hin,Conv.decimalBody,List.length_append,numeral_length]
  simp only [fixedNumeral,List.length_map,List.length_range]
  omega

theorem padded_answer (hl : v.letter ∈ Letter.decimals) (h : v.GivenFloat b f64 args) (hx : f64.Nonzero (v.value args).toNat)
    (hengine : e.decimal = dtoaEngine scale) (hmax : e.maxDig = 17) (hp : (v.asked b args).digits = some p)
    {minus : Bool} (hminus : minus = decide ((v.value args).toNat >>> 63 &&& 1 ≠ 0)) {d : FloatingDecimal64}
    (hd : d = d2d (scale (v.value args).toNat) 17 false 0) (hnear : d.top.natAbs < 1000)
    (hwide : v.Wide b args p (floatDigits d) d.top) :
    ∃ ds, Answer (v.answer b e args) minus ds d.top ∧ decimalValue ds d.top = decimalValue (floatDigits d) d.top ∧
      (v.letter ∈ [Letter.e,.E] → ds = floatDigits d) ∧ ds.length ≤ (v.request b e args).1 := by
  have hplaces : v.places b args = p := by rw [Conv.places,hp,Option.getD_some]
  have hnext : wrapU 8 ((p : Int) + 1) = (p + 1) % 256 := wrapU_mod 8 (p + 1)
  have hlow : wrapU 8 (p : Int) = p % 256 := wrapU_mod 8 p
  have hwhole := d2d_whole (scale (v.value args).toNat) 0
  have hdtoa := @dtoa_eq scale _ h.finite hx
  rw [← hd] at hwhole
  have hsame : v.request b e args = (17,false,0) → ∃ ds, Answer (v.answer b e args) minus ds d.top ∧
      decimalValue ds d.top = decimalValue (floatDigits d) d.top ∧ (v.letter ∈ [Letter.e,.E] → ds = floatDigits d) ∧
        ds.length ≤ (v.request b e args).1 := by
    intro hrequest
    have ha := hwhole.answer minus hnear
    refine ⟨floatDigits d,?_,rfl,fun _ => rfl,by rw [hrequest]; exact ha.few⟩
    rw [Conv.answer,hrequest,hengine]
    dsimp only
    rwa [hdtoa,← hd,← hminus]
  cases letter_kind hl with
  | scientific hin c =>
    have hmany := hwide.scientific hin
    exact hsame (by rw [Conv.request,decimalRequest,if_pos c,hplaces,hmax,hnext,min_eq_right hmany])
  | general hin c =>
    have hmany := hwide.general hin
    exact hsame (by rw [Conv.request,decimalRequest,if_neg (by rw [c]; decide),if_neg (by rw [c]; decide),hplaces,hmax,hlow,
      if_neg (by omega),min_eq_right hmany])
  | fixed hin c =>
    have hrequest : v.request b e args = (17,true,(p : Int)) := fixed_request hin hmax hp
    obtain ⟨n,hn⟩ := hwide.fixed hin
    rw [hwhole.decimalValue] at hn
    obtain ⟨i,m,hfixed,htop,hvalue⟩ := fixed_top _ hn
    rw [← hd] at htop
    have ha := hfixed.answer minus (htop ▸ hnear)
    refine ⟨_,?_,?_,fun he => absurd he (fixed_apart hin),by rw [hrequest]; exact ha.few⟩
    · rw [Conv.answer,hrequest,hengine,htop]
      dsimp only
      rw [hdtoa,← hminus]
      exact ha
    · rw [hwhole.decimalValue,htop,hfixed.decimalValue,hvalue]

theorem digits_inj {xs ys : List Nat} (hx : ∀ d ∈ xs, d < 10) (hy : ∀ d ∈ ys, d < 10)
    (h : xs.map (digitText false) = ys.map (digitText false)) : xs = ys := by
  induction xs generalizing ys with
  | nil => exact (List.map_eq_nil_iff.mp h.symm).symm
  | cons x xs ih =>
    cases ys with
    | nil => cases h
    | cons y ys =>
      obtain ⟨hhead,htail⟩ := List.cons_eq_cons.mp h
      have hglyph : ∀ c < 10, ∀ d < 10, digitText false c = digitText false d → c = d := by decide
      rw [hglyph x (hx x List.mem_cons_self) y (hy y List.mem_cons_self) hhead,
        ih (fun d hd => hx d (List.mem_cons_of_mem x hd)) (fun d hd => hy d (List.mem_cons_of_mem y hd)) htail]

theorem max_answer {bits : Nat} (hfin : f64.Finite bits) (hx : f64.Nonzero bits)
    (hnear : (dtoaEngine scale bits 17 false 0).1.exp.natAbs < 1000) :
    ∃ minus ds exp, Answer (dtoaEngine scale bits 17 false 0) minus ds exp := by
  rw [dtoa_eq hfin hx] at hnear ⊢
  exact ⟨_,_,_,(d2d_whole (scale bits) 0).answer _ hnear⟩

theorem d2dInts_fit (hl : v.letter ∈ Letter.decimals) (hmax : e.maxDig = 17) (hp : (v.asked b args).digits = some p)
    (hnarrow : (scale (v.value args).toNat).Narrow) {minus : Bool} {more : List Nat}
    (hwide : v.Wide b args p (floatDigits (d2d (scale (v.value args).toNat) 17 false 0))
      (d2d (scale (v.value args).toNat) 17 false 0).top)
    (hlength : v.decimalLength b e args = (v.decimalBody minus
      (v.letter.numeral v.alt p more (d2d (scale (v.value args).toNat) 17 false 0).top)).length)
    (hroom : v.decimalLength b e args < 2 ^ (b.intBits - 1)) : ∀ n ∈ v.d2dInts b e scale args, InInt b n := by
  have hwhole := d2d_whole (scale (v.value args).toNat) 0
  by_cases hin : v.letter ∈ [Letter.f,.F]
  · obtain ⟨n,hn⟩ := hwide.fixed hin
    rw [hwhole.decimalValue] at hn
    obtain ⟨i,m,-,htop,-⟩ := fixed_top _ hn
    have hlow := @fixed_room v p hin minus more (d2d (scale (v.value args).toNat) 17 false 0).top
    intro k hk
    rw [Conv.d2dInts,fixed_request hin hmax hp] at hk
    have hk := d2d_ints hnarrow hn k hk
    rw [← htop] at hk
    exact ⟨(neg_nonpos.mpr (by positivity)).trans hk.1,by omega⟩
  · intro k hk
    have hfree := @request_free b e v args hl hin
    simp [Conv.d2dInts,Printf.d2dInts,hfree] at hk

theorem extra_zeros (hb : b.Full) (hl : v.letter ∈ Letter.decimals) (h : v.GivenFloat b f64 args)
    (hx : f64.Nonzero (v.value args).toNat) (hengine : e.decimal = dtoaEngine scale) (hmax : e.maxDig = 17)
    (hnarrow : (scale (v.value args).toNat).Narrow) {minus : Bool} {ds : List Nat} {exp : Int}
    (ha : Answer (dtoaEngine scale (v.value args).toNat 17 false 0) minus ds exp) (hp : (v.asked b args).digits = some p)
    (hwide : v.Wide b args p ds exp) (hroom : v.decimalLength b e args < 2 ^ (b.intBits - 1)) :
    v.Pads b e long scale args minus ds exp p := by
  have hplaces : v.places b args = p := by rw [Conv.places,hp,Option.getD_some]
  have hwhole := d2d_whole (scale (v.value args).toNat) 0
  have hdtoa := ha.dtoa
  rw [dtoa_eq h.finite hx] at hdtoa
  injection hdtoa with hminus _ _ hexp hdigits
  have hds : floatDigits (d2d (scale (v.value args).toNat) 17 false 0) = ds :=
    digits_inj (fixed_lt (by decide) _ _) ha.digit hdigits
  rw [← hexp] at ha hwide ⊢
  rw [← hds] at ha hwide ⊢
  obtain ⟨more,ha',hvalue,hsame,hfew⟩ := padded_answer hl h hx hengine hmax hp hminus.symm rfl ha.near hwide
  obtain ⟨⟨rs,hfmt⟩,hlength,hints⟩ := @decimal_output b e long v args _ _ _ hb hl h.given h.floats h.plain ha' hfew
  obtain ⟨he,hg⟩ := request_few hfew hl
  have hdenotes := numeral_denotes hl ha'.digit ha'.some ha'.first v.alt he hg
  refine ⟨⟨_,_,hfmt,rfl,hdenotes.formed,rfl,?_,hlength,fun hin => ?_⟩,fun n hn => ?_⟩
  · rw [hdenotes.value,hplaces,hvalue]
    split_ifs with hin
    · obtain ⟨n,hn⟩ := hwide.fixed hin
      exact cutAt_int hn
    · rfl
  · rw [Letter.numeral,if_pos hin,hplaces,hsame hin,expNumeral_split (by rw [← hsame hin]; exact ha'.some)]
  · rcases List.mem_append.mp hn with hn | hn
    · exact in_int (hints n hn) (by exact_mod_cast h.given.width) hroom
    · exact d2dInts_fit hl hmax hp hnarrow hwide (hplaces ▸ hlength) hroom n hn

end

theorem tinyValue_sound : (2499999999999999787 : Nat) ≤ 2499999999999999938 ∧ (0 : Nat) < 2499999999999999938 ∧
    2499999999999999938 + 1 < 10 ^ 19 := by decide

theorem tinyValue_bounds : false = true → true = true ∧ 0 < 2499999999999999787 := nofun

def tinyValue : Scaled := ⟨2499999999999999938,2500000000000000088,2499999999999999787,-38,true,false,false,
  tinyValue_sound.1,tinyValue_bounds,tinyValue_sound.2.1,tinyValue_sound.2.2⟩

def expConv (prec : List (Fin 10)) : Conv Unit := ⟨(),[],.none,.lit prec,.none,.e,bare_length .e⟩

theorem expConv_given (prec : List (Fin 10)) {x : Nat} (hp : ((expConv prec).asked lp64 [.double x]).digits.getD 0 < 2 ^ 31)
    (hx : f64.Finite x) : (expConv prec).GivenFloat lp64 f64 [.double x] := by
  refine ⟨⟨fun k e hk => ?_,show 0 < 2 ^ 31 by decide,hp⟩,by decide,rfl,hx⟩
  cases k with
  | zero =>
    obtain rfl := Option.some.inj hk
    exact ⟨.double x,rfl,rfl⟩
  | succ k => cases hk

theorem oneHalf_finite : f64.Finite 0x3ff8000000000000 := by
  unfold DtoxKind.Finite
  decide

theorem extra_zeros_twenty : (expConv [2,0]).Pads lp64 (ryuEngine oneHalf) noFloats (fun _ => oneHalf)
    [.double 0x3ff8000000000000] false [1,5] 0 20 :=
  extra_zeros lp64_full (by decide) (expConv_given [2,0] (by decide) oneHalf_finite) (.inl (by decide)) rfl rfl
    (by unfold Scaled.Narrow; decide)
    ⟨by decide +kernel,by decide +kernel,by decide,by decide,by decide,.inl (by decide),by decide⟩ (by decide)
    ⟨fun _ => by decide,fun h => absurd h (by decide),fun h => absurd h (by decide)⟩ (by decide +kernel)

theorem places_run_out :
    Answer (dtoaEngine (fun _ => tinyValue) 0x3bdd83c94fb6d2ac 17 false 0) false [2,5] (-20) ∧
      ¬∃ o n, format lp64 (floatText (ryuEngine tinyValue) lp64 noFloats) (render [.conv (fixedConv [1,7])])
        [.double 0x3bdd83c94fb6d2ac] = .ok o ∧ n.Formed ∧
          o.text = (fixedConv [1,7]).decimalText lp64 [.double 0x3bdd83c94fb6d2ac] false n ∧
            n.value = decimalValue [2,5] (-20) := by
  refine ⟨⟨by decide +kernel,by decide +kernel,by decide,by decide,by decide,.inl (by decide),by decide⟩,?_⟩
  rintro ⟨o,n,hrun,hformed,htext,hvalue⟩
  have hshown : (format lp64 (floatText (ryuEngine tinyValue) lp64 noFloats) (render [.conv (fixedConv [1,7])])
      [.double 0x3bdd83c94fb6d2ac]).map Output.text = .ok ("0.00000000000000000".toList.map byte) := by decide +kernel
  rw [hrun] at hshown
  have hzero : o.text = "0.00000000000000000".toList.map byte := Except.ok.inj hshown
  have hplain := fixed_text [1,7] 0x3bdd83c94fb6d2ac n
  have hbad := zero_value hformed (show ∀ c ∈ n.text false false, c = byte '0' ∨ c = byte '.' by
    rw [← hplain,← htext,hzero]
    decide +kernel)
  rw [hbad] at hvalue
  norm_num [decimalValue,horner] at hvalue

end Printf
