import Mathlib
import Picolibc.Printf.FloatText

open Numerals

namespace Printf

def mantissaText (glyph : Nat → UInt8) (alt : Bool) (ds : List Nat) : List UInt8 :=
  (ds.take 1).map glyph ++ (if 1 < ds.length ∨ alt = true then [byte '.'] else []) ++ (ds.drop 1).map glyph

def exponentText (letter : Char) (least : Nat) (e : Int) : List UInt8 :=
  [byte letter,if e < 0 then byte '-' else byte '+'] ++
    (⟨false,false,0,some least⟩ : Field).numeral (numeralText false 10 e.natAbs)

theorem expDigits_fixed {n x : Nat} (h : x < 10 ^ (n + 1)) : expDigits n x = (fixed 10 (n + 1) x).map (digitText false) := by
  induction n generalizing x with
  | zero =>
    have hx : x < 10 := by simpa using h
    simp [expDigits,fixed,digitText,hx,Nat.mod_eq_of_lt hx]
  | succ n ih =>
    have hq : x / 10 ^ (n + 1) < 10 := Nat.div_lt_of_lt_mul (by rwa [← pow_succ])
    have hr : x % 10 ^ (n + 1) < 10 ^ (n + 1) := Nat.mod_lt _ (by positivity)
    rw [expDigits,ih hr,fixed_mod,fixed_cons 10 (n + 1),List.map_cons,Nat.mod_eq_of_lt hq,digitText,if_pos hq,Nat.add_comm]

theorem expDigits_numeral {least x : Nat} (h : 0 < least) :
    expDigits (max least (Nat.digits 10 x).length - 1) x =
      (⟨false,false,0,some least⟩ : Field).numeral (numeralText false 10 x) := by
  obtain ⟨n,hn⟩ : ∃ n, max least (Nat.digits 10 x).length = n + 1 := ⟨max least (Nat.digits 10 x).length - 1,by omega⟩
  have hx : x < 10 ^ (n + 1) := (Nat.digits_length_le_iff (by decide) x).mp (by omega)
  have hpad : n + 1 - (Nat.digits 10 x).length = least - (Nat.digits 10 x).length := by omega
  rw [hn,Nat.add_sub_cancel,expDigits_fixed hx,fixed_digits (by decide) hx,hpad]
  simp only [Field.numeral,numeralText,List.map_append,List.map_replicate,List.length_map,List.length_reverse,
    Option.getD_some]
  rfl

theorem widen_eq (e : FloatEngine) {x : Int} {least : Nat} (hl : 0 < least) (hm : least ≤ 2)
    (hx : x.natAbs < 1000 ∨ e.float64 = true ∧ x.natAbs < 10000) :
    widen e x least = max least (Nat.digits 10 x.natAbs).length := by
  have hlen : ∀ n, (Nat.digits 10 x.natAbs).length ≤ n ↔ x.natAbs < 10 ^ n := fun n =>
    Nat.digits_length_le_iff (by decide) x.natAbs
  have h₁ := hlen 1
  have h₂ := hlen 2
  have h₃ := hlen 3
  have h₄ := hlen 4
  unfold widen
  dsimp only
  generalize (Nat.digits 10 x.natAbs).length = len at *
  rcases hx with hx | ⟨hf,hx⟩
  · split_ifs <;> omega
  · simp only [hf,true_and]
    split_ifs <;> omega

theorem tail_text {ds : List Nat} {glyph digit : Nat → UInt8} (hdigit : ∀ i (hi : i < ds.length), digit i = glyph ds[i])
    (hzero : glyph 0 = byte '0') {P : Nat} (hP : ds.length ≤ P + 1) (hsome : 0 < ds.length) :
    (List.range' 1 P).map (fun pos => if pos < ds.length then digit pos else byte '0') =
      ((ds ++ List.replicate (P + 1 - ds.length) 0).drop 1).map glyph := by
  refine List.ext_getElem ?_ (fun i hi hj => ?_)
  · simp
    omega
  · simp only [List.getElem_map,List.getElem_range',List.getElem_drop,List.getElem_append,List.getElem_replicate,one_mul]
    by_cases hin : 1 + i < ds.length
    · rw [if_pos hin,dif_pos hin,hdigit]
    · rw [if_neg hin,dif_neg hin,hzero]

theorem expBody_text {ds : List Nat} {glyph digit : Nat → UInt8} (hdigit : ∀ i (hi : i < ds.length), digit i = glyph ds[i])
    (hzero : glyph 0 = byte '0') (hsome : 0 < ds.length) {conv : Nat} {alt : Bool} {exp : Int} {st : Style} {P least : Nat}
    {letter : Char} (hprec : st.prec = P) (hP : ds.length ≤ P + 1) (hn : st.ndigs = ds.length)
    (hletter : toCase conv st.letter = byte letter) (hl : 0 < least)
    (hexp : st.ndigsExp = max least (Nat.digits 10 exp.natAbs).length) :
    expBody conv alt exp digit st =
      mantissaText glyph alt (ds ++ List.replicate (P + 1 - ds.length) 0) ++ exponentText letter least exp := by
  have hfirst : [digit 0] = ((ds ++ List.replicate (P + 1 - ds.length) 0).take 1).map glyph := by
    obtain ⟨d,ds,rfl⟩ := List.exists_cons_of_length_pos hsome
    rw [hdigit 0 hsome]
    rfl
  have hlen : (ds ++ List.replicate (P + 1 - ds.length) 0).length = P + 1 := by
    rw [List.length_append,List.length_replicate]
    omega
  rw [expBody,hprec,hn,hletter,hexp,expDigits_numeral hl,hfirst,mantissaText,hlen,Int.toNat_natCast,← tail_text hdigit hzero hP hsome,
    exponentText]
  by_cases hP0 : P = 0
  · subst hP0
    cases alt <;> simp
  · have hpos : 0 < P := Nat.pos_of_ne_zero hP0
    simp [hpos]

theorem pad_text (b : Build) (hb : b.shrink = false) (F : Field) (hnone : F.digits = none) (lead body : List UInt8) {n : Int}
    (hn : n = (lead ++ body).length) :
    (if F.left || F.zero then [] else List.replicate (if n < F.columns then (F.columns : Int) - n else 0).toNat (byte ' ')) ++
      lead ++ (if !F.left && F.zero then
        List.replicate (if n < F.columns then (F.columns : Int) - n else 0).toNat (byte '0') else []) ++ body ++
      tail b (if F.left then if n < F.columns then (F.columns : Int) - n else 0 else 0) = F.text lead body := by
  have hroom : (if n < F.columns then (F.columns : Int) - n else 0).toNat = F.room (lead ++ body) := by
    rw [Field.room,hn]
    split_ifs <;> omega
  rw [Field.text,hnone,hroom]
  cases hleft : F.left with
  | true => simp [tail,hb,hroom]
  | false =>
    cases hz : F.zero with
    | true => simp [tail,hb]
    | false => simp [tail,hb]

theorem mantissaText_length (glyph : Nat → UInt8) (alt : Bool) {ds : List Nat} (h : 0 < ds.length) :
    (mantissaText glyph alt ds).length = ds.length + if 1 < ds.length ∨ alt = true then 1 else 0 := by
  rw [mantissaText]
  split_ifs <;> simp <;> omega

theorem exponentText_length (letter : Char) (least : Nat) (e : Int) :
    (exponentText letter least e).length = 2 + max least (Nat.digits 10 e.natAbs).length := by
  simp [exponentText,Field.numeral,numeralText]
  omega

structure Scientific (ds : List Nat) (glyph digit : Nat → UInt8) (conv : Nat) (exp : Int) (st : Style) (P least : Nat)
    (letter : Char) : Prop where
  glyphs : ∀ i (hi : i < ds.length), digit i = glyph ds[i]
  zero : glyph 0 = byte '0'
  some : 0 < ds.length
  style : st.exp = true ∧ st.fix = false
  prec : st.prec = P
  room : ds.length ≤ P + 1
  ndigs : st.ndigs = ds.length
  mark : toCase conv st.letter = byte letter
  one : 0 < least
  ndigsExp : st.ndigsExp = max least (Nat.digits 10 exp.natAbs).length

def padded (ds : List Nat) (P : Nat) : List Nat := ds ++ List.replicate (P + 1 - ds.length) 0

theorem padded_length {ds : List Nat} {P : Nat} (h : ds.length ≤ P + 1) : (padded ds P).length = P + 1 := by
  rw [padded,List.length_append,List.length_replicate]
  omega

def hexMark (conv : Nat) (hex : Bool) : List UInt8 := if hex then [byte '0',toCase conv 'x'] else []

section

variable {ds : List Nat} {glyph digit : Nat → UInt8} {conv : Nat} {exp : Int} {st : Style} {P least : Nat} {letter : Char}

theorem Scientific.lengths (h : Scientific ds glyph digit conv exp st P least letter) (alt : Bool) (sign : List UInt8) :
    layoutLengths alt exp sign st =
      let n : Int := 3 + (if st.hex then 2 else 0) + max least (Nat.digits 10 exp.natAbs).length + sign.length
      if P ≠ 0 then [n,(P : Int) + 1,n + ((P : Int) + 1)] else [n,if alt then n + 1 else n] := by
  simp only [layoutLengths,h.style.2,h.ndigsExp,h.prec,Bool.false_eq_true,if_false,Nat.cast_max,Int.natCast_ne_zero]

def Scientific.base (exp : Int) (st : Style) (least : Nat) (sign : List UInt8) : Int :=
  3 + (if st.hex then 2 else 0) + max least (Nat.digits 10 exp.natAbs).length + sign.length

theorem Scientific.ints_iff (h : Scientific ds glyph digit conv exp st P least letter) (alt : Bool) (sign : List UInt8)
    {M width : Int} (hbase : Scientific.base exp st least sign + 1 < M) (hlow : 0 ≤ width) (hwidth : width < M) :
    (∀ n ∈ (let l := layoutLengths alt exp sign st
        l ++ [if l.getLastD 0 < width then width - l.getLastD 0 else 0]), -M ≤ n ∧ n < M) ↔
      P = 0 ∨ Scientific.base exp st least sign + (P + 1) < M := by
  have hpos : 0 ≤ Scientific.base exp st least sign := by
    unfold Scientific.base
    split_ifs <;> omega
  rw [h.lengths]
  change (∀ n ∈ (let l := if P ≠ 0 then [Scientific.base exp st least sign,(P : Int) + 1,
      Scientific.base exp st least sign + ((P : Int) + 1)] else [Scientific.base exp st least sign,
        if alt then Scientific.base exp st least sign + 1 else Scientific.base exp st least sign]
      l ++ [if l.getLastD 0 < width then width - l.getLastD 0 else 0]), -M ≤ n ∧ n < M) ↔ _
  generalize Scientific.base exp st least sign = n at *
  by_cases hP : P = 0
  · cases alt <;> simp [hP] <;> split_ifs <;> omega
  · simp [hP]
    split_ifs <;> omega

theorem Scientific.length_eq (h : Scientific ds glyph digit conv exp st P least letter) (alt : Bool) (sign : List UInt8) :
    layoutLength alt exp sign st = (sign ++ hexMark conv st.hex ++
      (mantissaText glyph alt (padded ds P) ++ exponentText letter least exp)).length := by
  have hlen := padded_length h.room
  rw [layoutLength,h.lengths,List.length_append,List.length_append,List.length_append,
    mantissaText_length glyph alt (by omega),exponentText_length,hlen]
  have hpre : ((hexMark conv st.hex).length : Int) = if st.hex then 2 else 0 := by
    cases st.hex <;> rfl
  dsimp only
  by_cases hP : P = 0
  · subst hP
    cases alt <;> simp [hpre] <;> omega
  · have hpos : 0 < P := Nat.pos_of_ne_zero hP
    simp [hP,hpos,hpre]
    omega

theorem Scientific.text (h : Scientific ds glyph digit conv exp st P least letter) {b : Build} (hb : b.shrink = false)
    (F : Field) {f : Flags} (hleft : f.lpad = F.left) (hzero : f.zfill = F.zero) (minus : Bool) :
    (layoutFinite f F.columns conv minus exp digit st).1 ++ tail b (layoutFinite f F.columns conv minus exp digit st).2 =
      { F with digits := none }.text (signChar f minus ++ hexMark conv st.hex)
        (mantissaText glyph f.alt (padded ds P) ++ exponentText letter least exp) := by
  have hbody := @expBody_text ds glyph digit h.glyphs h.zero h.some conv f.alt exp st P least letter
    h.prec h.room h.ndigs h.mark h.one h.ndigsExp
  rw [← pad_text b hb { F with digits := none } rfl _ _ (h.length_eq f.alt (signChar f minus))]
  unfold layoutFinite
  simp only [h.style.1,h.style.2,Bool.or_false,if_true,Bool.false_eq_true,if_false,hbody,hleft,hzero,hexMark,padded,
    List.append_assoc]

end

section

variable {b : Build} {ft : FloatText} {v : Conv Unit} {args : List Arg}

def Conv.floatOut (b : Build) (ft : FloatText) (v : Conv Unit) (args : List Arg) : List UInt8 × Int :=
  ft (lenFlags b v.len (v.given (starWidth b args) (starPrec b v args))) (v.asked b args).columns
    ((v.asked b args).digits.getD 0 : Nat) v.letter.char (v.value args).toNat

theorem float_letter (hc : b.c99 = true) {l : Letter} (hl : l ∈ Letter.floats) : isFloat b l.char = true := by
  simp only [Letter.floats,List.mem_cons,List.not_mem_nil,or_false] at hl
  rcases hl with rfl | rfl | rfl | rfl | rfl | rfl | rfl | rfl <;> simp [isFloat,hc,lower,Letter.char]

theorem argTy_float (hl : v.letter ∈ Letter.floats) (hon : b.floats ≠ .off) :
    v.argTy b = floatTy b (lenFlags b v.len .zero) := by
  simp only [Letter.floats,List.mem_cons,List.not_mem_nil,or_false] at hl
  rcases hl with hl | hl | hl | hl | hl | hl | hl | hl <;> simp [Conv.argTy,hl,Letter.valueTy,hon]

theorem floatTy_given (hb : b.Full) (v : Conv Unit) (x y : Int) :
    floatTy b (lenFlags b v.len (v.given x y)) = floatTy b (lenFlags b v.len .zero) := by
  have hs := given_sized hb v x y
  rw [floatTy,floatTy,hs.long,hs.repd]

theorem format_float (hb : b.Full) (hl : v.letter ∈ Letter.floats) (hon : b.floats ≠ .off) (hf : Fits b [.conv v] args) :
    ∃ rs, format b ft (render [.conv v]) args =
      .ok ⟨(v.floatOut b ft args).1 ++ tail b (v.floatOut b ft args).2,rs,false⟩ := by
  have hm : v.len.known b = true := by cases hlen : v.len <;> simp [Len.known,hb.c99]
  obtain ⟨a,ha,ht,hformat⟩ := @format_single b ft v hm args hf
  have hval : v.value args = a.bits := by simp [Conv.value,ha]
  refine hformat (closed b ⟨args,v.starCount⟩ (v.argTy b) (v.floatOut b ft args)) ⟨args,v.starCount + 1⟩ ?_ rfl
  have hread : vaArg b (v.argTy b) ⟨args,v.starCount⟩ = .ok (a,⟨args,v.starCount + 1⟩) := vaArg_ok ha (by simp [readable,ht])
  have hty : floatTy b ((v.spec b (starWidth b args) (starPrec b v args) 0).adjust b).flags = v.argTy b := by
    rw [spec_adjust hb,argTy_float hl hon]
    exact floatTy_given hb v _ _
  have hshrink := hb.full
  rw [convert,if_pos ⟨hshrink,float_letter hb.c99 hl⟩,floatConv,if_neg hon,← starWidth,← starPrec,hty,hread]
  dsimp only
  rw [if_neg hon,Conv.floatOut,spec_adjust hb,hval]
  rfl

def Letter.isUpper (l : Letter) : Bool := decide (l ∈ [Letter.E,.F,.G,.A])

def Conv.signText (v : Conv Unit) (minus : Bool) : List UInt8 := Printf.signText v.flags (if minus then -1 else 0)

theorem given_sign (hb : b.Full) (v : Conv Unit) (x y : Int) (minus : Bool) :
    signChar (lenFlags b v.len (v.given x y)) minus = v.signText minus := by
  rw [lenFlags_eq hb.c99 (f := v.given x y) (by rfl)]
  cases minus with
  | true => rfl
  | false =>
    by_cases hplus : Flag.plus ∈ v.flags <;> simp [signChar,Conv.signText,signText,Conv.given,hplus]

theorem given_alt (hb : b.Full) (v : Conv Unit) (x y : Int) :
    (lenFlags b v.len (v.given x y)).alt = decide (Flag.alt ∈ v.flags) := by
  rw [lenFlags_eq hb.c99 (f := v.given x y) (by rfl)]
  rfl

theorem plain_float (hl : v.letter ∈ Letter.floats) (hb : b.Full) (hon : b.floats ≠ .off) (hplain : v.argTy b = skipFloatTy b)
    (x y : Int) :
    ¬(b.longDouble = true ∧ (lenFlags b v.len (v.given x y)).long = true ∧
      (lenFlags b v.len (v.given x y)).repd = true) := by
  intro hbad
  have hty := hplain
  rw [argTy_float hl hon,← floatTy_given hb v x y,floatTy,if_pos hbad,skipFloatTy] at hty
  split at hty <;> cases hty

end

end Printf
