import Mathlib
import Picolibc.Time.Fields

open Numerals

namespace Strftime

open Printf hiding Fits

open Checked Time

structure YearsAgree (b : Build) (ft : FloatText) (zones : Zones) (tm : Tm) (maxsize : Nat) : Prop where
  year : ∃ text, strftime b ft zones tm maxsize ['%','Y'] = some (some text) ∧ Numeral text (tm.year + 1900)
  split : ∃ ctext ytext century year, strftime b ft zones tm maxsize ['%','C'] = some (some ctext) ∧ Numeral ctext century ∧
    strftime b ft zones tm maxsize ['%','y'] = some (some ytext) ∧ Numeral ytext year ∧
      100 * century + year = tm.year + 1900 ∧ 0 ≤ year ∧ year ≤ 99

section

variable {b : Build} {ft : FloatText} {zones : Zones} {tm : Tm} {maxsize : Nat} (hb : b.Full) (hbits : 16 ≤ b.intBits)

include hbits

theorem year_magnitude (hy : Fits b.intBits tm.year) : year b tm none 0 =
    yearText b (if tm.year + 1900 < 0 then some '-' else none) none 0 (tm.year + 1900).natAbs ∧
      (tm.year + 1900).natAbs < 2 ^ b.intBits := by
  have hpow := pow_step (show 0 < b.intBits by omega)
  have hlow := pow_le (show 15 ≤ b.intBits - 1 by omega)
  have hcast : ((2 ^ b.intBits : Nat) : Int) = 2 ^ b.intBits := by push_cast; rfl
  have hmod : ∀ x : Int, x < 2 ^ b.intBits → 0 ≤ x → wrapU b.intBits x = x.toNat := by
    intro x hx h0
    rw [wrapU,Int.emod_eq_of_lt h0 hx]
  have hu : (wrapU b.intBits (wrapU b.intBits tm.year + yearBase) : Int) = (tm.year + 1900) % 2 ^ b.intBits := by
    unfold wrapU yearBase
    rw [Int.toNat_of_nonneg (Int.emod_nonneg _ (by omega)),Int.toNat_of_nonneg (Int.emod_nonneg _ (by omega)),Int.emod_add_emod]
  unfold Fits at hy
  unfold year yearSign
  simp only [yearBase] at hu ⊢
  by_cases hneg : tm.year < -1900
  · have hneg' : tm.year + 1900 < 0 := by omega
    have hwrap : (tm.year + 1900) % 2 ^ b.intBits = tm.year + 1900 + 2 ^ b.intBits := by
      rw [← Int.add_emod_right,Int.emod_eq_of_lt (by omega) (by omega)]
    simp only [hneg,hneg',decide_true,if_true]
    rw [hu,hwrap,hmod _ (by omega) (by omega)]
    exact ⟨by congr 1; omega,by omega⟩
  · have hneg' : ¬tm.year + 1900 < 0 := by omega
    have hwrap : (tm.year + 1900) % 2 ^ b.intBits = tm.year + 1900 := Int.emod_eq_of_lt (by omega) (by omega)
    simp only [hneg,hneg',decide_false,if_false]
    exact ⟨by simp; congr 1; omega,by omega⟩

include hb

omit hbits in
theorem prints_signed {x : Int} (hx : x.natAbs < 2 ^ b.intBits) : ∃ text,
    Prints b ft (yearText b (if x < 0 then some '-' else none) none 0 x.natAbs) text ∧ (x ≠ 0 → Numeral text x) ∧
      (x = 0 → text = []) ∧ text.length ≤ b.intBits + 1 := by
  have hzero : wrapS b.intBits (wrapS b.intBits ((0 : Nat) : Int)) = 0 := by simp [wrapS]
  obtain ⟨rs,w,hformat⟩ := @format_year b ft hb (wrapS b.intBits ((0 : Nat) : Int)) x.natAbs
    (if x < 0 then some '-' else none) (by split_ifs <;> decide)
  obtain ⟨hnum,hnil,hlen⟩ := @u_text b w x.natAbs hx
  have hsign : (if x < 0 then some '-' else none : Option Char).toList.map byte = if x < 0 then [byte '-'] else [] := by
    split_ifs <;> rfl
  rw [hzero,hsign] at hformat
  refine ⟨_,prints_format hformat,fun hne => hnum _ rfl hne,fun h0 => ?_,?_⟩
  · rw [if_neg (by omega),hnil (by omega),List.append_nil]
  · rw [List.length_append]
    split_ifs <;> simp only [List.length_cons,List.length_nil] <;> omega

theorem strftime_year (hy : Fits b.intBits tm.year) (hroom : b.intBits + 1 < maxsize) (hsize : maxsize < 2 ^ b.sizeBits) :
    ∃ text, strftime b ft zones tm maxsize ['%','Y'] = some (some text) ∧
      (tm.year + 1900 ≠ 0 → Numeral text (tm.year + 1900)) ∧ (tm.year + 1900 = 0 → text = []) := by
  obtain ⟨hyear,hsmall⟩ := @year_magnitude b tm hbits hy
  obtain ⟨text,hp,hnum,hnil,hlen⟩ := @prints_signed b ft hb (tm.year + 1900) hsmall
  exact ⟨text,strftime_emit (by decide) (by decide) (congrArg some hyear) hp (by omega) hsize,hnum,hnil⟩

theorem strftime_century (hfit : Fits b.intBits (tm.year + 1900)) (hroom : b.intBits + 1 < maxsize)
    (hsize : maxsize < 2 ^ b.sizeBits) : ∃ text, strftime b ft zones tm maxsize ['%','C'] = some (some text) ∧
      Numeral text ((tm.year + 1900) / 100) := by
  have hcentury : Fits b.intBits ((tm.year + 1900) / 100) := by
    unfold Fits at *
    omega
  have hdiv : (tm.year + 1900).tdiv 100 - (if (tm.year + 1900).tmod 100 < 0 then 1 else 0) = (tm.year + 1900) / 100 := by
    rcases le_or_gt 0 (tm.year + 1900) with h | h
    · obtain ⟨hd,hm⟩ := trunc_nonneg 100 h
      rw [hd,hm,if_neg (by omega)]
      omega
    · obtain ⟨hd,hm⟩ := trunc_neg 100 h.le
      rw [hd,hm]
      split_ifs <;> omega
  have hone : wrapS b.intBits (wrapS b.intBits ((1 : Nat) : Int)) = 1 := by
    have hfits : Fits b.intBits 1 := fits_short hbits (by decide) (by decide)
    push_cast
    rw [wrapS_fits (by omega) hfits,wrapS_fits (by omega) hfits]
  obtain ⟨rs,w,hformat⟩ := @format_century b ft hb [] (wrapS b.intBits ((1 : Nat) : Int)) ((tm.year + 1900) / 100)
  rw [hone,List.nil_append] at hformat
  obtain ⟨hnum,hlen⟩ := @d_text b (by omega) (.star ()) 1 w _ 1 rfl (.inl (by decide)) hcentury
  have he : emit b zones tm none 0 'C' = some (.printed ['%','s','%','.','*','d']
      [.charPtr (some []),.int (wrapS b.intBits ((1 : Nat) : Int)),.int ((tm.year + 1900) / 100)]) := by
    change century b tm none 0 = _
    rw [century,int,yearBase,signed_fits hfit]
    simp [hdiv]
  exact ⟨_,strftime_emit (by decide) (by decide) he (prints_format hformat) (by omega) hsize,hnum⟩

theorem strftime_shortYear (hroom : b.intBits + 1 < maxsize) (hsize : maxsize < 2 ^ b.sizeBits) :
    ∃ text, strftime b ft zones tm maxsize ['%','y'] = some (some text) ∧ Numeral text (tm.year % 100) := by
  have hmod : (if tm.year.tmod 100 < 0 then tm.year.tmod 100 + 100 else tm.year.tmod 100) = tm.year % 100 := by
    rcases le_or_gt 0 tm.year with h | h
    · rw [(trunc_nonneg 100 h).2,if_neg (by omega)]
    · rw [(trunc_neg 100 h.le).2]
      split_ifs <;> omega
  obtain ⟨text,hp,hnum,hlen⟩ := @prints_number b ft hb (by omega) d2 (.lit [2]) 2 rfl rfl (fun _ _ => rfl) (tm.year % 100)
    (fits_short hbits (by omega) (by omega)) (.inl (by decide))
  have he : emit b zones tm none 0 'y' = some (.printed d2 [.int (tm.year % 100)]) := by
    change some (shortYear tm) = _
    rw [shortYear,hmod]
  exact ⟨text,strftime_emit (by decide) (by decide) he hp (by omega) hsize,hnum⟩

omit hb hbits in
theorem century_undefined (hfit : ¬Fits b.intBits (tm.year + 1900)) :
    strftime b ft zones tm maxsize ['%','C'] = none := by
  refine strftime_undefined (by decide) (by decide) ?_
  change century b tm none 0 = none
  rw [century,int,yearBase,signed,if_neg hfit]
  rfl

theorem years_agree (hy : Fits b.intBits tm.year) (hroom : b.intBits + 1 < maxsize) (hsize : maxsize < 2 ^ b.sizeBits) :
    YearsAgree b ft zones tm maxsize ↔ tm.year ≠ -1900 ∧ tm.year + 1900 < 2 ^ (b.intBits - 1) := by
  obtain ⟨text,htext,hnum,hnil⟩ := @strftime_year b ft zones tm maxsize hb hbits hy hroom hsize
  constructor
  · rintro ⟨⟨text',htext',hnum'⟩,⟨ctext,ytext,century,year,hc,-⟩⟩
    constructor
    · intro h0
      obtain rfl : text = text' := by rw [htext] at htext'; exact Option.some.inj (Option.some.inj htext')
      obtain ⟨ds,hds,-,hempty,-⟩ := hnum'
      rw [hnil (by omega)] at hempty
      have hmap := (List.append_eq_nil_iff.mp hempty.symm).2
      exact hds (List.map_eq_nil_iff.mp hmap)
    · by_contra hlarge
      have hbad := @century_undefined b ft zones tm maxsize (fun hfit => hlarge hfit.2)
      rw [hbad] at hc
      cases hc
  · rintro ⟨hne,hlt⟩
    have hfit : Fits b.intBits (tm.year + 1900) := by
      unfold Fits at *
      omega
    obtain ⟨ctext,hctext,hcnum⟩ := @strftime_century b ft zones tm maxsize hb hbits hfit hroom hsize
    obtain ⟨ytext,hytext,hynum⟩ := @strftime_shortYear b ft zones tm maxsize hb hbits hroom hsize
    exact ⟨⟨text,htext,hnum (by omega)⟩,ctext,ytext,_,_,hctext,hcnum,hytext,hynum,by omega,by omega,by omega⟩

end

def utcZones : Zones := ⟨fun _ => 0,fun _ => [byte 'U',byte 'T',byte 'C']⟩

def newYear (y wday : Int) : Tm := ⟨0,0,0,1,0,y - 1900,wday,0,0⟩

theorem years_agree_2024 : Fits Printf.lp64.intBits (newYear 2024 1).year ∧
    (YearsAgree Printf.lp64 noFloats utcZones (newYear 2024 1) 64 ↔
      (newYear 2024 1).year ≠ -1900 ∧ (newYear 2024 1).year + 1900 < 2 ^ (Printf.lp64.intBits - 1)) :=
  ⟨by decide,years_agree lp64_full (by decide) (by decide) (by decide) (by decide)⟩

theorem year_zero_empty : ¬YearsAgree Printf.lp64 noFloats utcZones (newYear 0 6) 64 := by
  rintro ⟨⟨text,htext,ds,hds,-,hempty,-⟩,-⟩
  have hnone : strftime Printf.lp64 noFloats utcZones (newYear 0 6) 64 ['%','Y'] = some (some []) := by decide
  obtain rfl : [] = text := by rw [hnone] at htext; exact Option.some.inj (Option.some.inj htext)
  exact hds (List.map_eq_nil_iff.mp (List.append_eq_nil_iff.mp hempty.symm).2)

end Strftime
