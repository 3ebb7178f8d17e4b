import Mathlib
import Picolibc.Time.DateParse

open Numerals

namespace Strptime

open Printf hiding Fits Mode Spec

open Checked Gregorian Time Strtoi

open Strftime hiding digit number convert recurse int

structure Dated (tm : Tm) : Prop where
  mon : 0 ≤ tm.mon
  date : Date (tm.year + 1900) tm.mon.toNat tm.mday
  yday : tm.yday = monthStart (tm.year + 1900) tm.mon.toNat + (tm.mday - 1)
  wday : tm.wday = weekdayOf (yearStart (tm.year + 1900) + tm.yday)

structure SameDate (tm tm' : Tm) : Prop where
  year : tm'.year = tm.year
  mon : tm'.mon = tm.mon
  mday : tm'.mday = tm.mday
  yday : tm'.yday = tm.yday
  wday : tm'.wday = tm.wday

def Restores (b : Build) (ft : FloatText) (zones : Zones) (maxsize : Nat) (T : Target) (builtins : Bool)
    (tzenv : Option (List Char)) (z : Zone) (fmt : List Char) (tm : Tm) : Prop :=
  ∃ text tm', strftime b ft zones tm maxsize fmt = some (some text) ∧
    strptime T builtins tzenv z text fmt = some (tm',some []) ∧ SameDate tm tm'

section

variable {b : Build} {ft : FloatText} {zones : Zones} {tm : Tm} {maxsize : Nat}
  (hb : b.Full) (hbits : 16 ≤ b.intBits) (hsize : maxsize < 2 ^ b.sizeBits)

include hb hbits

theorem prints_padded {fmt : List Char} {k : Fin 10} (hfmt : fmt = (Piece.conv (dConv (.lit [k]))).chars) (hk : 0 < k.val)
    (hle : k.val ≤ 3) {x : Int} (hx : 0 ≤ x ∧ x < 32768) : ∃ text, Prints b ft (.printed fmt [.int x]) text ∧ Numeral text x ∧
      text.length ≤ b.intBits + 1 := by
  obtain ⟨text,hp,hnum,hlen⟩ := @prints_number b ft hb (by omega) fmt (.lit [k]) k.val hfmt rfl
    (fun w y => by simp [Conv.field,dConv,Prec.value,horner]) x (fits_short hbits (by omega) (by omega)) (.inl hk)
  exact ⟨text,hp,hnum,by omega⟩

theorem year_shown (hy : 1 ≤ tm.year + 1900 ∧ tm.year + 1900 ≤ 9999) : ∃ text, Prints b ft (year b tm none 0) text ∧
    Numeral text (tm.year + 1900) ∧ text.length ≤ b.intBits + 1 := by
  obtain ⟨hyear,hsmall⟩ := @year_magnitude b tm hbits (fits_short hbits (by omega) (by omega))
  obtain ⟨text,hp,hnum,-,hlen⟩ := @prints_signed b ft hb (tm.year + 1900) hsmall
  exact ⟨text,by rwa [hyear],hnum (by omega),hlen⟩

include hsize

theorem scan_ymd (hy : 1 ≤ tm.year + 1900 ∧ tm.year + 1900 ≤ 9999) (h : Dated tm) (hroom : 3 * b.intBits + 5 < maxsize) :
    ∃ ytext mtext dtext, (∀ nested, scan b ft zones tm nested maxsize [] .text ymdFmt =
      some (some (ytext ++ byte '-' :: (mtext ++ byte '-' :: dtext)))) ∧ Numeral ytext (tm.year + 1900) ∧
        Numeral mtext (tm.mon + 1) ∧ Numeral dtext tm.mday := by
  have hmon := h.mon
  have hmonth := h.date.month
  have hfirst := h.date.first
  have hlast := h.date.last
  have hlen := monthLength_pos (tm.year + 1900) tm.mon.toNat
  obtain ⟨ytext,hyp,hynum,hylen⟩ := @year_shown b ft tm hb hbits hy
  obtain ⟨mtext,hmp,hmnum,hmlen⟩ := @prints_padded b ft hb hbits d2 2 rfl (by decide) (by decide) (tm.mon + 1) (by omega)
  obtain ⟨dtext,hdp,hdnum,hdlen⟩ := @prints_padded b ft hb hbits d2 2 rfl (by decide) (by decide) tm.mday (by omega)
  have hm : emit b zones tm none 0 'm' = some (.printed d2 [.int (tm.mon + 1)]) := by
    change Strftime.number d2 (Strftime.int b (tm.mon + 1)) = _
    rw [int_short hbits (by omega) (by omega)]
    rfl
  refine ⟨ytext,mtext,dtext,fun nested => ?_,hynum,hmnum,hdnum⟩
  rw [ymdFmt,scan_emit (by decide) (by decide) rfl hyp (by simp; omega) hsize,scan_char (by decide) (by simp; omega) hsize,
    scan_emit (by decide) (by decide) hm hmp (by simp; omega) hsize,scan_char (by decide) (by simp; omega) hsize,
    scan_emit (by decide) (by decide) rfl hdp (by simp; omega) hsize]
  simp [scan]

theorem strftime_full (hy : 1 ≤ tm.year + 1900 ∧ tm.year + 1900 ≤ 9999) (h : Dated tm) (hroom : 3 * b.intBits + 5 < maxsize) :
    ∃ ytext mtext dtext, (∀ fmt ∈ [ymdFmt,['%','F']], strftime b ft zones tm maxsize fmt =
      some (some (ytext ++ byte '-' :: (mtext ++ byte '-' :: dtext)))) ∧ Numeral ytext (tm.year + 1900) ∧
        Numeral mtext (tm.mon + 1) ∧ Numeral dtext tm.mday := by
  obtain ⟨ytext,mtext,dtext,hscan,hynum,hmnum,hdnum⟩ := @scan_ymd b ft zones tm maxsize hb hbits hsize hy h hroom
  refine ⟨ytext,mtext,dtext,fun fmt hfmt => ?_,hynum,hmnum,hdnum⟩
  simp only [List.mem_cons,List.not_mem_nil,or_false] at hfmt
  rcases hfmt with rfl | rfl
  · exact hscan _
  · have hroom' : wrapU b.sizeBits (maxsize - ([] : List UInt8).length) = maxsize := by
      have hcast : ((2 ^ b.sizeBits : Nat) : Int) = 2 ^ b.sizeBits := by push_cast; rfl
      rw [wrapU,Int.emod_eq_of_lt (by simp) (by simp; omega)]
      simp
    have hnested : Strftime.convert b ft zones tm (strftimeDepth b ft zones tm 1) maxsize [] none 0 'F' =
        some (some (ytext ++ byte '-' :: (mtext ++ byte '-' :: dtext))) := by
      rw [Strftime.convert,show Strftime.nestedFormat none (min 0 (2 ^ b.longBits - 1)) 'F' = some ymdFmt from rfl]
      dsimp only
      rw [Strftime.recurse,hroom',show strftimeDepth b ft zones tm 1 ymdFmt maxsize = _ from hscan _]
      simp
    change scan b ft zones tm (strftimeDepth b ft zones tm 1) maxsize [] .text ['%','F'] = _
    rw [scan_bare (by decide),hnested]
    rfl

theorem strftime_yj (hy : 1 ≤ tm.year + 1900 ∧ tm.year + 1900 ≤ 9999) (h : Dated tm) (hroom : 3 * b.intBits + 5 < maxsize) :
    ∃ ytext jtext, strftime b ft zones tm maxsize yjFmt = some (some (ytext ++ byte ' ' :: jtext)) ∧
      Numeral ytext (tm.year + 1900) ∧ Numeral jtext (tm.yday + 1) := by
  obtain ⟨hlow,hhigh⟩ := h.date.within
  rw [← h.yday] at hlow hhigh
  have hlen := yearLength_pos (tm.year + 1900)
  obtain ⟨ytext,hyp,hynum,hylen⟩ := @year_shown b ft tm hb hbits hy
  obtain ⟨jtext,hjp,hjnum,hjlen⟩ := @prints_padded b ft hb hbits d3 3 rfl (by decide) (by decide) (tm.yday + 1) (by omega)
  have hj : emit b zones tm none 0 'j' = some (.printed d3 [.int (tm.yday + 1)]) := by
    change Strftime.number d3 (Strftime.int b (tm.yday + 1)) = _
    rw [int_short hbits (by omega) (by omega)]
    rfl
  refine ⟨ytext,jtext,?_,hynum,hjnum⟩
  change scan b ft zones tm (strftimeDepth b ft zones tm 1) maxsize [] .text yjFmt = _
  rw [yjFmt,scan_emit (by decide) (by decide) rfl hyp (by simp; omega) hsize,scan_char (by decide) (by simp; omega) hsize,
    scan_emit (by decide) (by decide) hj hjp (by simp; omega) hsize]
  simp [scan]

def dateFormats : List (List Char) := [ymdFmt,['%','F'],yjFmt]

theorem strptime_shown (hy : 1 ≤ tm.year + 1900 ∧ tm.year + 1900 ≤ 9999) (h : Dated tm) (hroom : 3 * b.intBits + 5 < maxsize)
    {T : Target} (hT : T.Valid) {builtins : Bool} {tzenv : Option (List Char)} {z : Zone} {fmt : List Char}
    (hfmt : fmt ∈ dateFormats) : ∃ text, strftime b ft zones tm maxsize fmt = some (some text) ∧
      strptime T builtins tzenv z text fmt = some (dated (tm.year + 1900) tm.mon.toNat tm.mday
        (derivedWday (tm.year + 1900) tm.mon.toNat tm.mday),some []) := by
  have hmon : ((tm.mon.toNat : Nat) : Int) + 1 = tm.mon + 1 := by rw [Int.toNat_of_nonneg h.mon]
  obtain ⟨ytext,mtext,dtext,htext,hynum,hmnum,hdnum⟩ := @strftime_full b ft zones tm maxsize hb hbits hsize hy h hroom
  obtain ⟨ytext',jtext,hjtext,hynum',hjnum⟩ := @strftime_yj b ft zones tm maxsize hb hbits hsize hy h hroom
  have hread : YearRead (tm.year + 1900) tm.mon.toNat tm.mday ytext := ⟨hy,h.date,hynum⟩
  have hread' : YearRead (tm.year + 1900) tm.mon.toNat tm.mday ytext' := ⟨hy,h.date,hynum'⟩
  rw [← hmon] at hmnum
  rw [h.yday] at hjnum
  simp only [dateFormats,List.mem_cons,List.not_mem_nil,or_false] at hfmt
  rcases hfmt with rfl | rfl | rfl
  · exact ⟨_,htext _ (by decide),strptimeDepth_ymd hT hread hmnum hdnum 1⟩
  · exact ⟨_,htext _ (by decide),strptime_full hT hread hmnum hdnum⟩
  · exact ⟨_,hjtext,strptime_yj hT hread' hjnum⟩

theorem date_restored (hy : 1 ≤ tm.year + 1900 ∧ tm.year + 1900 ≤ 9999) (h : Dated tm) (hroom : 3 * b.intBits + 5 < maxsize)
    {T : Target} (hT : T.Valid) {builtins : Bool} {tzenv : Option (List Char)} {z : Zone} {fmt : List Char}
    (hfmt : fmt ∈ dateFormats) : Restores b ft zones maxsize T builtins tzenv z fmt tm ↔
      1970 ≤ tm.year + 1900 ∨ weekdayOf (dayNumber (tm.year + 1900) 0 1) = 4 := by
  have hyday := h.yday
  have hwday := h.wday
  have hjan : dayNumber (tm.year + 1900) 0 1 = yearStart (tm.year + 1900) := by
    rw [dayNumber,show monthStart (tm.year + 1900) 0 = 0 from rfl]
    omega
  obtain ⟨text,htext,hparse⟩ := @strptime_shown b ft zones tm maxsize hb hbits hsize hy h hroom T hT builtins tzenv z fmt hfmt
  have hiff : derivedWday (tm.year + 1900) tm.mon.toNat tm.mday = tm.wday ↔
      1970 ≤ tm.year + 1900 ∨ weekdayOf (dayNumber (tm.year + 1900) 0 1) = 4 := by
    rw [derivedWday,← hyday,hwday,hjan]
    unfold firstWeekday weekdayOf
    split_ifs with h70 <;> omega
  rw [← hiff]
  constructor
  · rintro ⟨text',tm',htext',hparse',hsame⟩
    rw [htext] at htext'
    obtain rfl := Option.some.inj (Option.some.inj htext')
    rw [hparse] at hparse'
    obtain ⟨rfl,-⟩ := Prod.mk.inj (Option.some.inj hparse')
    exact hsame.wday
  · intro hw
    refine ⟨text,_,htext,hparse,⟨?_,?_,rfl,?_,hw⟩⟩
    · exact Int.add_sub_cancel _ _
    · exact Int.toNat_of_nonneg h.mon
    · exact hyday.symm

end

def leapDay : Tm := ⟨0,0,0,29,1,124,4,59,0⟩

theorem leapDay_dated : Dated leapDay := ⟨by decide,⟨by decide,by decide,by decide⟩,by decide,by decide⟩

theorem date_restored_leap_day : Restores Printf.lp64 noFloats utcZones 128 Time.lp64 true none Zone.start ['%','F'] leapDay ↔
    1970 ≤ leapDay.year + 1900 ∨ weekdayOf (dayNumber (leapDay.year + 1900) 0 1) = 4 :=
  date_restored lp64_full (by decide) (by decide) (by decide) leapDay_dated (by decide) lp64_valid (by decide)

def lastOf1969 : Tm := ⟨0,0,0,31,11,69,3,364,0⟩

theorem wednesday_1969 : Dated lastOf1969 ∧
    strftime Printf.lp64 noFloats utcZones lastOf1969 128 ['%','F'] =
      some (some (['1','9','6','9','-','1','2','-','3','1'].map byte)) ∧
    strptime Time.lp64 true none Zone.start (['1','9','6','9','-','1','2','-','3','1'].map byte) ['%','F'] =
      some (⟨0,0,0,31,11,69,4,364,-1⟩,some []) ∧
    ¬Restores Printf.lp64 noFloats utcZones 128 Time.lp64 true none Zone.start ['%','F'] lastOf1969 := by
  have hprint : strftime Printf.lp64 noFloats utcZones lastOf1969 128 ['%','F'] =
      some (some (['1','9','6','9','-','1','2','-','3','1'].map byte)) := by decide
  have hread : strptime Time.lp64 true none Zone.start (['1','9','6','9','-','1','2','-','3','1'].map byte) ['%','F'] =
      some (⟨0,0,0,31,11,69,4,364,-1⟩,some []) := by decide
  refine ⟨⟨by decide,⟨by decide,by decide,by decide⟩,by decide,by decide⟩,hprint,hread,?_⟩
  rintro ⟨text,tm',htext,hparse,hsame⟩
  rw [hprint] at htext
  obtain rfl := Option.some.inj (Option.some.inj htext)
  rw [hread] at hparse
  obtain ⟨rfl,-⟩ := Prod.mk.inj (Option.some.inj hparse)
  exact absurd hsame.wday (by decide)

end Strptime
