import Mathlib
import Picolibc.Time.Fields
import Picolibc.Time.RuleRange

open Numerals

namespace Strftime

open Printf hiding Fits lp64

open Checked Time Gregorian Strtoi

theorem d_any (len : Len) : Letter.d = .p → len = .none := fun h => absurd h (by decide)

def hourConv : Conv Unit := ⟨(),[.plus,.zero],.lit 3,.none,.l,.d,d_any .l⟩

def minConv (prec : List (Fin 10)) : Conv Unit := ⟨(),[],.none,.lit prec,.l,.d,d_any .l⟩

def secConv : Conv Unit := ⟨(),[],.none,.none,.ll,.d,d_any .ll⟩

def pair (n : Nat) : List UInt8 := [digitByte (n / 10),digitByte (n % 10)]

def secondsText (t : Int) : List UInt8 := if t = 0 then [byte '0'] else numeralText false 10 t.toNat

def OffsetText (text : List UInt8) (secs : Int) : Prop :=
  ∃ (west : Bool) (hh mm : Nat), hh < 100 ∧ mm < 100 ∧ text = byte (if west then '-' else '+') :: (pair hh ++ pair mm) ∧
    secs = 60 * ((if west then -1 else 1) * (60 * hh + mm))

def Writes (b : Build) (ft : FloatText) (zones : Zones) (tm : Tm) (c : Char) (text : List UInt8) : Prop :=
  ∀ maxsize, text.length < maxsize → maxsize < 2 ^ b.sizeBits → strftime b ft zones tm maxsize ['%',c] = some (some text)

def zonesOf (w : Zone) (tzname : Bool → List UInt8) : Zones := ⟨fun dst => w.info.offset dst.toInt,tzname⟩

theorem pair_inj {n m : Nat} (hn : n < 100) (hm : m < 100) (h : pair n = pair m) : n = m := by
  obtain ⟨htens,hunits⟩ := List.cons.inj h
  have h1 := digitByte_inj (by omega) (by omega) htens
  have h2 := digitByte_inj (by omega) (by omega) (List.cons.inj hunits).1
  omega

theorem numeral_short {n : Nat} (hn : n < 100) : numeralText false 10 n =
    if n = 0 then [] else if n < 10 then [digitByte n] else pair n := by
  rw [numeralText_bytes]
  split_ifs with h0 h1
  · rw [h0]
    rfl
  · rw [Nat.digits_of_lt 10 n h0 h1]
    rfl
  · rw [Nat.digits_def' (by decide) (by omega),Nat.digits_of_lt 10 (n / 10) (by omega) (by omega)]
    rfl

theorem pair_small {n : Nat} (hn : n < 10) : pair n = [byte '0',digitByte n] := by
  rw [pair,Nat.div_eq_of_lt hn,Nat.mod_eq_of_lt hn]
  rfl

section

variable {b : Build} {ft : FloatText}

theorem hour_text (hlong : 32 ≤ b.longBits) {h : Int} (h0 : -100 < h) (h1 : h < 100) (x y : Int) :
    hourConv.cText b x y h = byte (if h < 0 then '-' else '+') :: pair h.natAbs := by
  have hval : wrapS b.longBits h = h := wrapS_fits (by omega) (fits_word hlong (by omega) (by omega))
  have hshort := numeral_short (n := h.natAbs) (by omega)
  have hsign : signText hourConv.flags h = [byte (if h < 0 then '-' else '+')] := by
    rw [signText,if_pos (show Flag.plus ∈ hourConv.flags by decide)]
    split_ifs <;> rfl
  have htext : hourConv.cText b x y h =
      (hourConv.field x y).text (signText hourConv.flags h) ((hourConv.field x y).numeral (numeralText false 10 h.natAbs)) := by
    rw [Conv.cText]
    simp only [Conv.leadText,Conv.digitsText,hourConv,Len.bits,hval]
  have hleft : (hourConv.field x y).left = false := rfl
  have hzero : (hourConv.field x y).zero = true := rfl
  have hcols : (hourConv.field x y).columns = 3 := rfl
  have hdigits : (hourConv.field x y).digits = none := rfl
  rw [htext,hsign,Field.text,hleft,hzero,hdigits,if_neg Bool.false_ne_true,if_pos ⟨rfl,rfl⟩,Field.room,hcols,Field.numeral,
    hdigits,hshort]
  generalize byte (if h < 0 then '-' else '+') = sign
  split_ifs with hz hs
  · rw [hz]
    rfl
  · rw [pair_small hs]
    rfl
  · rfl

theorem min_text (hlong : 32 ≤ b.longBits) {m : Int} (h0 : 0 ≤ m) (h1 : m < 100) (x y : Int) :
    (minConv [2]).cText b x y m = pair m.natAbs := by
  have hval : wrapS b.longBits m = m := wrapS_fits (by omega) (fits_word hlong (by omega) (by omega))
  have hshort := numeral_short (n := m.natAbs) (by omega)
  have hdigits : ((minConv [2]).field x y).digits = some 2 := rfl
  rw [Conv.cText,plain_text rfl rfl rfl]
  simp only [Conv.leadText,Conv.digitsText,minConv,Len.bits,hval]
  rw [signText,if_neg (by omega),if_neg (by decide),if_neg (by decide),List.nil_append]
  rw [show ((⟨(),[],.none,.lit [2],.l,.d,d_any .l⟩ : Conv Unit).field x y).numeral (numeralText false 10 m.natAbs) =
    ((minConv [2]).field x y).numeral (numeralText false 10 m.natAbs) from rfl,Field.numeral,hdigits,hshort]
  split_ifs with hz hs
  · rw [hz]
    rfl
  · rw [pair_small hs]
    rfl
  · rfl

theorem sec_text (hll : 64 ≤ b.llongBits) {t : Int} (h0 : 0 ≤ t) (h1 : Fits 64 t) (x y : Int) :
    secConv.cText b x y t = secondsText t := by
  have hval : wrapS b.llongBits t = t := wrapS_fits (by omega) (h1.mono hll)
  have hdigits : (secConv.field x y).digits = none := rfl
  have habs : t.natAbs = t.toNat := by omega
  rw [Conv.cText,plain_text rfl rfl rfl]
  simp only [Conv.leadText,Conv.digitsText,secConv,Len.bits,hval]
  rw [signText,if_neg (by omega),if_neg (by decide),if_neg (by decide),List.nil_append]
  rw [show ((⟨(),[],.none,.none,.ll,.d,d_any .ll⟩ : Conv Unit).field x y).numeral (numeralText false 10 t.natAbs) =
    (secConv.field x y).numeral (numeralText false 10 t.natAbs) from rfl,Field.numeral,hdigits,habs,secondsText]
  split_ifs with hz
  · rw [hz]
    rfl
  · have hlen : 1 ≤ (numeralText false 10 t.toNat).length := by
      rw [numeralText_bytes,List.length_map,List.length_reverse,Nat.one_le_iff_ne_zero,Ne,List.length_eq_zero_iff,
        Nat.digits_eq_nil_iff_eq_zero]
      omega
    rw [Option.getD_none,Nat.sub_eq_zero_of_le hlen]
    rfl

theorem format_zone (hb : b.Full) (hlong : 32 ≤ b.longBits) {h m : Int} (h0 : -100 < h) (h1 : h < 100) (m0 : 0 ≤ m)
    (m1 : m < 100) : ∃ rs, format b ft ['%','+','0','3','l','d','%','.','2','l','d'] [.long h,.long m] =
      .ok ⟨byte (if h < 0 then '-' else '+') :: (pair h.natAbs ++ pair m.natAbs),rs,false⟩ := by
  obtain ⟨rs,hhour⟩ := @scan_int b ft hb hourConv (by simp [hourConv]) ['%','+','0','3','l','d','%','.','2','l','d']
    ['%','.','2','l','d'] [.long h,.long m] 0 (.long h) (fun hne => absurd rfl hne) (fun hne => absurd rfl hne) rfl
    (by simp [Conv.argTy,hourConv,Letter.valueTy]; rfl)
  obtain ⟨rs',hmin⟩ := @scan_int b ft hb (minConv [2]) (by simp [minConv]) ['%','+','0','3','l','d','%','.','2','l','d'] []
    [.long h,.long m] 1 (.long m) (fun hne => absurd rfl hne) (fun hne => absurd rfl hne) rfl
    (by simp [Conv.argTy,minConv,Letter.valueTy]; rfl)
  rw [show (Arg.long h).bits = h from rfl,hour_text hlong h0 h1] at hhour
  rw [show (Arg.long m).bits = m from rfl,min_text hlong m0 m1] at hmin
  refine ⟨rs ++ rs',hhour.trans ((congrArg (Output.andThen _) hmin).trans ?_)⟩
  simp [scanFormat,Output.andThen]

theorem format_seconds (hb : b.Full) (hll : 64 ≤ b.llongBits) {t : Int} (h0 : 0 ≤ t) (h1 : Fits 64 t) :
    ∃ rs, format b ft ['%','l','l','d'] [.llong t] = .ok ⟨secondsText t,rs,false⟩ := by
  obtain ⟨rs,hscan⟩ := @scan_int b ft hb secConv (by simp [secConv]) ['%','l','l','d'] [] [.llong t] 0 (.llong t)
    (fun hne => absurd rfl hne) (fun hne => absurd rfl hne) rfl (by simp [Conv.argTy,secConv,Letter.valueTy]; rfl)
  rw [show (Arg.llong t).bits = t from rfl,sec_text hll h0 h1] at hscan
  refine ⟨rs,hscan.trans ?_⟩
  simp [scanFormat,Output.andThen]

theorem secondsText_numeral {t : Int} (h0 : 0 ≤ t) : Numeral (secondsText t) t := by
  unfold secondsText
  split_ifs with hz
  · rw [hz]
    exact numeral_digit (w := 0) (by decide)
  · refine ⟨(Nat.digits 10 t.toNat).reverse,?_,?_,?_,?_⟩
    · rw [Ne,List.reverse_eq_nil_iff,Nat.digits_eq_nil_iff_eq_zero]
      omega
    · exact fun d hd => Nat.digits_lt_base (by decide) (List.mem_reverse.mp hd)
    · rw [if_neg (by omega),numeralText_bytes,List.nil_append]
    · rw [horner_digits]
      omega

theorem offset_parts {k : Int} (h0 : -1440 < k) (h1 : k < 1440) :
    ((60 * k).tdiv 3600).natAbs = k.natAbs / 60 ∧ (|(60 * k).tdiv 60|.tmod 60).natAbs = k.natAbs % 60 ∧
      -100 < (60 * k).tdiv 3600 ∧ (60 * k).tdiv 3600 < 100 ∧ 0 ≤ |(60 * k).tdiv 60|.tmod 60 ∧
      |(60 * k).tdiv 60|.tmod 60 < 100 ∧ ((60 * k).tdiv 3600 < 0 ↔ k ≤ -60) := by
  have hmin : (60 * k).tdiv 60 = k := Int.mul_tdiv_cancel_left k (by decide)
  have hmod : |k|.tmod 60 = |k| % 60 := Int.tmod_eq_emod_of_nonneg (abs_nonneg k)
  rw [hmin,hmod,Int.abs_eq_natAbs]
  rcases le_or_gt 0 k with hk | hk
  · rw [Int.tdiv_eq_ediv_of_nonneg (by omega)]
    omega
  · rw [show 60 * k = -(60 * -k) by ring,Int.neg_tdiv,Int.tdiv_eq_ediv_of_nonneg (by omega)]
    omega

theorem offset_text_iff {k : Int} (h0 : -1440 < k) (h1 : k < 1440) :
    OffsetText (byte (if (60 * k).tdiv 3600 < 0 then '-' else '+') ::
      (pair ((60 * k).tdiv 3600).natAbs ++ pair (|(60 * k).tdiv 60|.tmod 60).natAbs)) (60 * k) ↔ ¬(-60 < k ∧ k < 0) := by
  obtain ⟨hh,hm,-,-,-,-,hneg⟩ := offset_parts h0 h1
  rw [hh,hm]
  constructor
  · rintro ⟨west,hours,mins,hhours,hmins,htext,hval⟩ hbad
    rw [if_neg (by omega)] at htext
    obtain ⟨hsign,hdigits⟩ := List.cons.inj htext
    obtain ⟨hhour,hmin⟩ := List.append_inj hdigits rfl
    have hhour' := pair_inj (by omega) hhours hhour
    have hmin' := pair_inj (by omega) hmins hmin
    cases west with
    | true => exact absurd hsign (by decide)
    | false =>
      rw [if_neg Bool.false_ne_true] at hval
      omega
  · intro hok
    refine ⟨decide (k < 0),k.natAbs / 60,k.natAbs % 60,by omega,by omega,?_,?_⟩
    · by_cases hk : k < 0
      · rw [if_pos (by omega),if_pos (by simpa using hk)]
      · rw [if_neg (by omega),if_neg (by simpa using hk)]
    · by_cases hk : k < 0
      · rw [if_pos (by simpa using hk)]
        omega
      · rw [if_neg (by simpa using hk)]
        omega

section

variable {zones : Zones} {tm : Tm}

theorem writes_emit {c : Char} {e : Emit} {text : List UInt8} (hc : bare c = true) (hn : nestedFormat none 0 c = none)
    (he : emit b zones tm none 0 c = some e) (hp : Prints b ft e text) : Writes b ft zones tm c text :=
  fun _ hroom hsize => strftime_emit hc hn he hp hroom hsize

theorem offset_written (hb : b.Full) (hlong : 32 ≤ b.longBits) (hdst : 0 ≤ tm.isdst) {k : Int} (h0 : -1440 < k) (h1 : k < 1440)
    (hoff : -zones.offset (decide (0 < tm.isdst)) = 60 * k) :
    Writes b ft zones tm 'z' (byte (if (60 * k).tdiv 3600 < 0 then '-' else '+') ::
      (pair ((60 * k).tdiv 3600).natAbs ++ pair (|(60 * k).tdiv 60|.tmod 60).natAbs)) := by
  obtain ⟨-,-,a0,a1,m0,m1,-⟩ := offset_parts h0 h1
  obtain ⟨rs,hformat⟩ := @format_zone b ft hb hlong _ _ a0 a1 m0 m1
  refine writes_emit (by decide) (by decide) ?_ (prints_format hformat)
  change zoneOffset b zones tm = _
  rw [zoneOffset,if_pos hdst,hoff,Strftime.long,signed_fits (fits_word hlong (by omega) (by omega))]
  rfl

theorem epoch_days {year yday : Int} (h0 : 69 ≤ year) : (year - 69).tdiv 4 - (year - 1).tdiv 100 + (year + 299).tdiv 400 +
    (year - 70) * 365 + yday = yearStart (year + 1900) + yday := by
  rw [Int.tdiv_eq_ediv_of_nonneg (by omega),Int.tdiv_eq_ediv_of_nonneg (by omega),Int.tdiv_eq_ediv_of_nonneg (by omega),
    yearStart]
  omega

theorem bind_known {α β : Type} {x : Option α} {a : α} {f : α → Option β} (h : x = some a) : (x >>= f) = f a := by
  rw [h]
  rfl

theorem epoch_emit (hint : b.intBits = 32) (hlong : 32 ≤ b.longBits) (hll : 64 ≤ b.llongBits) {l : Int}
    (htm : BrokenDown l { tm with isdst := 0 }) (h0 : 69 ≤ tm.year) (h1 : tm.year ≤ 9000) (hdst : 0 ≤ tm.isdst)
    (hoff : -86400 ≤ zones.offset (decide (0 < tm.isdst)) ∧ zones.offset (decide (0 < tm.isdst)) ≤ 86400) :
    epochSeconds b zones tm = some (.printed ['%','l','l','d'] [.llong (l + zones.offset (decide (0 < tm.isdst)))]) := by
  have hint' : ∀ x : Int, -2147483648 ≤ x → x < 2147483648 → int b x = some x := fun x hx hx' =>
    signed_fits (fits_word hint.ge hx hx')
  have hll' : ∀ x : Int, -9223372036854775808 ≤ x → x < 9223372036854775808 → llong b x = some x := fun x hx hx' =>
    signed_fits (Fits.mono (show Fits 64 x from ⟨hx,hx'⟩) hll)
  have hdays := @epoch_days tm.year tm.yday h0
  have hnormal := htm.normal
  have hyday : tm.yday = monthStart (tm.year + 1900) tm.mon.toNat + (tm.mday - 1) := htm.yday
  have htime : (yearStart (tm.year + 1900) + monthStart (tm.year + 1900) tm.mon.toNat + (tm.mday - 1)) * 86400 +
    (tm.hour * 3600 + tm.min * 60 + tm.sec) = l := htm.time
  have hsec : 0 ≤ tm.sec ∧ tm.sec < 60 := hnormal.sec
  have hmin : 0 ≤ tm.min ∧ tm.min < 60 := hnormal.min
  have hhour : 0 ≤ tm.hour ∧ tm.hour < 24 := hnormal.hour
  have hwithin : 0 ≤ tm.yday ∧ tm.yday < 366 := by
    have := hnormal.date.within
    have := yearLength_pos (tm.year + 1900)
    dsimp only at *
    omega
  have hstart : -400 ≤ yearStart (tm.year + 1900) ∧ yearStart (tm.year + 1900) ≤ 4000000 := by
    unfold yearStart
    omega
  have h4 : (tm.year - 69).tdiv 4 = (tm.year - 69) / 4 := Int.tdiv_eq_ediv_of_nonneg (by omega)
  have h100 : (tm.year - 1).tdiv 100 = (tm.year - 1) / 100 := Int.tdiv_eq_ediv_of_nonneg (by omega)
  have h400 : (tm.year + 299).tdiv 400 = (tm.year + 299) / 400 := Int.tdiv_eq_ediv_of_nonneg (by omega)
  have hoffset : Strftime.long b (-zones.offset (decide (0 < tm.isdst))) = some (-zones.offset (decide (0 < tm.isdst))) :=
    signed_fits (fits_word hlong (by omega) (by omega))
  rw [epochSeconds,if_pos hdst,bind_known hoffset]
  beta_reduce
  rw [bind_known (hll' (tm.year - 69) (by omega) (by omega)),
    bind_known (hint' (tm.year - 1) (by omega) (by omega)),bind_known (hll' _ (by omega) (by omega)),
    bind_known (hint' (tm.year + 299) (by omega) (by omega)),bind_known (hll' _ (by omega) (by omega)),
    bind_known (hint' (tm.year - 70) (by omega) (by omega)),bind_known (hint' _ (by omega) (by omega)),
    bind_known (hll' _ (by omega) (by omega)),bind_known (hll' _ (by omega) (by omega)),hdays]
  generalize yearStart (tm.year + 1900) = start at *
  clear h4 h100 h400 hdays
  rw [bind_known (hll' ((start + tm.yday) * 24) (by omega) (by omega)),bind_known (hll' _ (by omega) (by omega)),
    bind_known (hll' (((start + tm.yday) * 24 + tm.hour) * 60) (by omega) (by omega)),bind_known (hll' _ (by omega) (by omega)),
    bind_known (hll' ((((start + tm.yday) * 24 + tm.hour) * 60 + tm.min) * 60) (by omega) (by omega)),
    bind_known (hll' _ (by omega) (by omega)),bind_known (hll' _ (by omega) (by omega)),Option.pure_def]
  congr 6
  omega

end

end

def WholeMinutes (off : Int) : Prop := -86400 < off ∧ off < 86400 ∧ off % 60 = 0

section

variable {b : Build} {ft : FloatText} (hb : b.Full) (hint : b.intBits = 32) (hll : 64 ≤ b.llongBits)

include hb hint

theorem timeTarget_valid : (timeTarget b).Valid := by
  have hlong := hb.target.int_le
  exact ⟨by rw [timeTarget]; dsimp only; omega,by rw [timeTarget]; dsimp only; omega,by rw [timeTarget]; dsimp only; omega⟩

include hll

omit hll in
theorem writes_unique {zones : Zones} {tm : Tm} {c : Char} {text text' : List UInt8} (h : Writes b ft zones tm c text)
    (h' : Writes b ft zones tm c text') (hlen : text.length < 255) (hlen' : text'.length < 255) : text = text' := by
  have hbits : 8 ≤ b.sizeBits := by
    have h₁ := hb.target.char_le
    have h₂ := hb.target.short_le
    have h₃ := hb.target.int_le
    have h₄ := hb.target.long_le
    have hsize := hb.size
    simp only [List.mem_cons,List.not_mem_nil,or_false] at hsize
    omega
  have hpow : 2 ^ 8 ≤ 2 ^ b.sizeBits := Nat.pow_le_pow_right (by decide) hbits
  have heq := (h 255 hlen (by omega)).symm.trans (h' 255 hlen' (by omega))
  exact Option.some.inj (Option.some.inj heq)

theorem zone_described {zones : Zones} {tm : Tm} {t off : Int} (hoff : zones.offset (decide (0 < tm.isdst)) = off)
    (hwhole : WholeMinutes off) (hdst : 0 ≤ tm.isdst) (hbroken : BrokenDown (t - off) { tm with isdst := 0 })
    (h0 : 69 ≤ tm.year) (h1 : tm.year ≤ 9000) (ht : 0 ≤ t) (ht' : Fits 64 t) :
    (Writes b ft zones tm 's' (secondsText t) ∧ Numeral (secondsText t) t) ∧
      ((∃ text, Writes b ft zones tm 'z' text ∧ OffsetText text (tm.clock - t)) ↔
        ¬(-3600 < tm.clock - t ∧ tm.clock - t < 0)) := by
  have hlong : 32 ≤ b.longBits := (timeTarget_valid hb hint).long
  obtain ⟨o0,o1,o2⟩ := hwhole
  obtain ⟨k,hk⟩ : ∃ k, -off = 60 * k := ⟨-off / 60,by omega⟩
  have hclock : tm.clock - t = 60 * k := by
    have htime : tm.clock = t - off := hbroken.time
    omega
  have hseconds := @epoch_emit b zones tm hint hlong hll _ hbroken h0 h1 hdst (by omega)
  rw [hoff,Int.sub_add_cancel] at hseconds
  obtain ⟨rs,hformat⟩ := @format_seconds b ft hb hll t ht ht'
  have hzone := @offset_written b ft zones tm hb hlong hdst k (by omega) (by omega) (by rw [hoff,hk])
  have hiff := @offset_text_iff k (by omega) (by omega)
  rw [hclock]
  refine ⟨⟨writes_emit (by decide) (by decide) hseconds (prints_format hformat),secondsText_numeral ht⟩,?_,fun hok => ?_⟩
  · rintro ⟨text,htext,hright⟩
    have hlen : text.length = 5 := by
      obtain ⟨west,hh,mm,-,-,rfl,-⟩ := hright
      rfl
    rw [writes_unique hb hint htext hzone (by omega) (by simp [pair])] at hright
    have := hiff.mp hright
    omega
  · exact ⟨_,hzone,hiff.mpr (by omega)⟩

theorem offset_instant {tzenv : Option (List Char)} {z w : Zone} (hw : tzset (timeTarget b) tzenv z = some w)
    (h0 : WholeMinutes (tzRules (timeTarget b) tzenv).1.offset) (h1 : WholeMinutes (tzRules (timeTarget b) tzenv).2.offset)
    {t y : Int} (hyear : InYear t y) (hy : 1970 ≤ y) (hy' : y ≤ 9999) (tzname : Bool → List UInt8) :
    ∃ tm z', localtimeR (timeTarget b) tzenv z t = some (some tm,z') ∧
      ∀ w', (w' = z' ∨ tzset (timeTarget b) tzenv z' = some w') →
        (Writes b ft (zonesOf w' tzname) tm 's' (secondsText t) ∧ Numeral (secondsText t) t) ∧
          ((∃ text, Writes b ft (zonesOf w' tzname) tm 'z' text ∧ OffsetText text (tm.clock - t)) ↔
            ¬(-3600 < tm.clock - t ∧ tm.clock - t < 0)) := by
  have hT := @timeTarget_valid b hb hint
  have hint' : (timeTarget b).intBits = 32 := hint
  have hcivil : y = (civilTm t).year + 1900 := (inYear_iff t y).mp hyear
  have ht : 0 ≤ t ∧ t < 300000000000 := by
    unfold InYear yearStart at hyear
    omega
  have hfit64 : Fits 64 t := ⟨by omega,by omega⟩
  have hrange : ∀ {off : Int}, WholeMinutes off → -86400 ≤ off ∧ off ≤ 86400 := fun h => ⟨h.1.le,h.2.1.le⟩
  obtain ⟨dst,info,hdst⟩ := localDst_known hint' (hrange h0) (hrange h1) hw hy (by omega) t
  have hrules : info.offset = Tzinfo.offset ⟨false,0,(tzRules (timeTarget b) tzenv).1,(tzRules (timeTarget b) tzenv).2⟩ :=
    (localDst_sameRules hdst).offset.trans (tzset_sameRules hw).offset
  have hwhole : WholeMinutes (info.offset dst.toInt) := by
    rw [hrules,Tzinfo.offset]
    split_ifs
    · exact h1
    · exact h0
  have hlocal := localtime_civil hT hw hfit64 (hrange hwhole) (fits_word hint'.ge (by omega) (by omega))
    (fits_word hint'.ge (by omega) (by omega)) (by rw [← hcivil]; exact hdst)
  have hb' := civilTm_brokenDown (t - info.offset dst.toInt)
  have hnear := inYear_near hyear ((inYear_iff (t - info.offset dst.toInt) _).mpr rfl) (by have := hrange hwhole; omega)
    (by have := hrange hwhole; omega)
  refine ⟨_,_,hlocal,fun w' hw' => @zone_described b ft hb hint hll _ _ t (info.offset dst.toInt) ?_ hwhole (toInt_range dst).1
    ⟨⟨hb'.normal.sec,hb'.normal.min,hb'.normal.hour,hb'.normal.mon,hb'.normal.date⟩,hb'.time,hb'.wday,hb'.yday,rfl⟩ ?_ ?_
    ht.1 hfit64⟩
  · have hsame : w'.info.offset = info.offset := by
      rcases hw' with rfl | hw'
      · rfl
      · rw [(tzset_sameRules hw').offset,hrules]
    rw [zonesOf,hsame]
    cases dst <;> rfl
  · dsimp only
    omega
  · dsimp only
    omega

end

def eastern : Zone := ⟨⟨false,0,⟨.julian,0,0,60,7200,0,18000⟩,⟨.julian,0,0,300,7200,0,14400⟩⟩,true,18000⟩

def halfWest : Option (List Char) := some ['W','A','T','0',':','3','0']

def halfPast : Tm := ⟨40,16,9,3,6,124,3,184,0⟩

def halfZone : Zone := ⟨⟨false,0,⟨.unset,0,0,0,0,0,1800⟩,⟨.unset,0,0,0,0,0,1800⟩⟩,false,1800⟩

theorem offset_instant_summer : ∃ tm z', localtimeR (timeTarget Printf.lp64) julianTz .start 1720000000 = some (some tm,z') ∧
    ∀ w', (w' = z' ∨ tzset (timeTarget Printf.lp64) julianTz z' = some w') →
      (Writes Printf.lp64 noFloats (zonesOf w' fun _ => []) tm 's' (secondsText 1720000000) ∧
        Numeral (secondsText 1720000000) 1720000000) ∧
          ((∃ text, Writes Printf.lp64 noFloats (zonesOf w' fun _ => []) tm 'z' text ∧ OffsetText text (tm.clock - 1720000000)) ↔
            ¬(-3600 < tm.clock - 1720000000 ∧ tm.clock - 1720000000 < 0)) := by
  have hset : tzset (timeTarget Printf.lp64) julianTz .start = some eastern := by decide
  have h0 : WholeMinutes (tzRules (timeTarget Printf.lp64) julianTz).1.offset := by
    rw [show tzRules (timeTarget Printf.lp64) julianTz = _ from julianTz_rules]
    exact ⟨by decide,by decide,by decide⟩
  have h1 : WholeMinutes (tzRules (timeTarget Printf.lp64) julianTz).2.offset := by
    rw [show tzRules (timeTarget Printf.lp64) julianTz = _ from julianTz_rules]
    exact ⟨by decide,by decide,by decide⟩
  have hyear : InYear 1720000000 2024 := ⟨by decide,by decide⟩
  exact offset_instant lp64_full rfl (by decide) hset h0 h1 hyear (by decide) (by decide) fun _ => []

theorem offset_sign_lost : localtimeR (timeTarget Printf.lp64) halfWest .start 1720000000 = some (some halfPast,halfZone) ∧
    InYear 1720000000 2024 ∧ halfPast.clock - 1720000000 = -1800 ∧
      strftime Printf.lp64 noFloats (zonesOf halfZone fun _ => []) halfPast 64 ['%','z'] =
        some (some (['+','0','0','3','0'].map byte)) ∧
          ¬∃ text, Writes Printf.lp64 noFloats (zonesOf halfZone fun _ => []) halfPast 'z' text ∧
            OffsetText text (halfPast.clock - 1720000000) := by
  refine ⟨by decide,⟨by decide,by decide⟩,by decide,by decide,fun hright => ?_⟩
  have hcivil : civilTm (1720000000 - 1800) = halfPast := by decide
  have hbroken : BrokenDown (1720000000 - 1800) { halfPast with isdst := 0 } := hcivil ▸ civilTm_brokenDown (1720000000 - 1800)
  exact (zone_described lp64_full rfl (by decide) rfl ⟨by decide,by decide,by decide⟩ (by decide) hbroken (by decide) (by decide)
    (by decide) ⟨by decide,by decide⟩).2.mp hright (by decide)

end Strftime
