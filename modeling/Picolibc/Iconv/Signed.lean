import Mathlib
import Picolibc.Iconv.Charsets

namespace Iconv

open Ascii Multibyte Utf8

abbrev Wchar := BitVec 32

inductive Codec where
  | ascii
  | utf8
  | ucs2 (big : Bool)
  | ucs4 (big : Bool)
  deriving DecidableEq, Repr

def asciiWctombSigned (wchar : Wchar) : Option (List UInt8) :=
  if 0x80 ≤ wchar.toInt then none else some [UInt8.ofNat wchar.toNat]

def utf8WctombSigned (wchar : Wchar) : Option (List UInt8) :=
  if wchar.toInt ≤ 0x7f then some [UInt8.ofNat wchar.toNat] else
  if 0x80 ≤ wchar.toInt ∧ wchar.toInt ≤ 0x7ff then
    some [UInt8.ofNat (0xc0 ||| ((wchar.toNat &&& 0x7c0) >>> 6)),UInt8.ofNat (0x80 ||| (wchar.toNat &&& 0x3f))] else
  if 0x800 ≤ wchar.toInt ∧ wchar.toNat ≤ 0xffff then
    if 0xd800 ≤ wchar.toNat ∧ wchar.toNat ≤ 0xdfff then none else
    some [UInt8.ofNat (0xe0 ||| ((wchar.toNat &&& 0xf000) >>> 12)),
      UInt8.ofNat (0x80 ||| ((wchar.toNat &&& 0xfc0) >>> 6)),UInt8.ofNat (0x80 ||| (wchar.toNat &&& 0x3f))] else
  if 0x10000 ≤ wchar.toNat ∧ wchar.toNat ≤ 0x10ffff then
    some [UInt8.ofNat (0xf0 ||| ((wchar.toNat &&& 0x1c0000) >>> 18)),
      UInt8.ofNat (0x80 ||| ((wchar.toNat &&& 0x3f000) >>> 12)),
      UInt8.ofNat (0x80 ||| ((wchar.toNat &&& 0xfc0) >>> 6)),UInt8.ofNat (0x80 ||| (wchar.toNat &&& 0x3f))] else
  none

def ucsWctombSigned (width : Nat) (big : Bool) (wchar : Wchar) : Option (List UInt8) :=
  if 0xd800 ≤ wchar.toNat ∧ wchar.toNat ≤ 0xdfff then none else
  some (ucsBytes width big (wchar.toNat % 256 ^ width))

def Codec.wctomb : Codec → Wchar → Option (List UInt8)
  | ascii => asciiWctombSigned
  | utf8 => utf8WctombSigned
  | ucs2 big => ucsWctombSigned 2 big
  | ucs4 big => ucsWctombSigned 4 big

def Codec.mbtowc : Codec → Mbtowc
  | ascii => asciiMbtowc
  | utf8 => utf8Mbtowc
  | ucs2 big => ucsMbtowc 2 big
  | ucs4 big => ucsMbtowc 4 big

structure Wrote where
  ret : Int
  bytes : List UInt8
  eilseq : Bool
  deriving DecidableEq, Repr

def Codec.wcrtomb (c : Codec) (wc : Wchar) : Wrote :=
  match c.wctomb wc with
  | some bs => ⟨bs.length,bs,false⟩
  | none => ⟨-1,[],true⟩

def Surrogate (w : Int) : Prop := 0xd800 ≤ w ∧ w ≤ 0xdfff

def Codec.Encodable : Codec → Int → Prop
  | ascii, w => 0 ≤ w ∧ w < 0x80
  | utf8, w => 0 ≤ w ∧ w ≤ 0x10ffff ∧ ¬Surrogate w
  | ucs2 _, w => 0 ≤ w ∧ w ≤ 0xffff ∧ ¬Surrogate w
  | ucs4 _, w => 0 ≤ w ∧ ¬Surrogate w

structure Codec.Recoverable (c : Codec) (w : Wchar) : Prop where
  recovers : ∀ bs, c.wctomb w = some bs → ∃ st ret wc, c.mbtowc bs bs.length .initial = ⟨st,ret,some wc⟩ ∧
    BitVec.ofNat 32 wc = w ∧ (ret = bs.length ∨ w = 0 ∧ ret = 0)
  rejects : ¬c.Encodable w.toInt → c.wcrtomb w = ⟨-1,[],true⟩

theorem toInt_cases (w : Wchar) : w.toInt = w.toNat ∧ w.toNat < 2 ^ 31 ∨ w.toInt = w.toNat - 2 ^ 32 ∧ 2 ^ 31 ≤ w.toNat := by
  have hlt := w.isLt
  rw [BitVec.toInt_eq_toNat_cond]
  split_ifs with h
  · exact .inl ⟨rfl,by omega⟩
  · exact .inr ⟨by push_cast; rfl,by omega⟩

theorem accepted_bad {c : Codec} {w : Wchar} {bs : List UInt8} (hbs : c.wctomb w = some bs) (he : ¬c.Encodable w.toInt) :
    ¬c.Recoverable w := by
  intro h
  have hbad := h.rejects he
  rw [Codec.wcrtomb,hbs] at hbad
  cases hbad

theorem ofNat_self (w : Wchar) : BitVec.ofNat 32 w.toNat = w := by
  rw [BitVec.ofNat_toNat,BitVec.setWidth_eq]

theorem zero_of_toNat {w : Wchar} (h : w.toNat = 0) : w = 0 := BitVec.eq_of_toNat_eq h

theorem ascii_recoverable {w : Wchar} (h : 0 ≤ w.toInt) : Codec.ascii.Recoverable w := by
  have hw := toInt_cases w
  refine ⟨fun bs hbs => ?_,fun he => ?_⟩
  · change asciiWctombSigned w = some bs at hbs
    unfold asciiWctombSigned at hbs
    split_ifs at hbs with hbig
    obtain rfl := Option.some.inj hbs
    have hbyte : (UInt8.ofNat w.toNat).toNat = w.toNat := by
      rw [UInt8.toNat_ofNat']
      omega
    refine ⟨.initial,if w.toNat = 0 then 0 else 1,w.toNat,?_,ofNat_self w,?_⟩
    · simp only [Codec.mbtowc,asciiMbtowc,List.length_singleton,one_ne_zero,if_false,charAt_cons_zero,hbyte]
      rw [if_neg (by omega)]
    · split_ifs with hzero
      · exact .inr ⟨zero_of_toNat hzero,rfl⟩
      · exact .inl rfl
  · have hbig : (0x80 : Int) ≤ w.toInt := by
      by_contra hlow
      exact he ⟨h,by omega⟩
    simp [Codec.wcrtomb,Codec.wctomb,asciiWctombSigned,hbig]

theorem utf8_signed {w : Wchar} (h : 0 ≤ w.toInt) : utf8WctombSigned w = utf8Wctomb w.toNat := by
  have hw : w.toInt = w.toNat := by
    have hcases := toInt_cases w
    omega
  unfold utf8WctombSigned utf8Wctomb
  rw [hw]
  norm_cast

theorem utf8_recoverable {w : Wchar} (h : 0 ≤ w.toInt) : Codec.utf8.Recoverable w := by
  have hw : w.toInt = w.toNat := by
    have hcases := toInt_cases w
    omega
  have hsigned : Codec.utf8.wctomb w = utf8Wctomb w.toNat := utf8_signed h
  by_cases hvalid : w.toNat < 0xd800 ∨ 0xdfff < w.toNat ∧ w.toNat < 0x110000
  · obtain ⟨c,hc⟩ := exists_char hvalid
    rw [← hc,wctomb_encode] at hsigned
    refine ⟨fun bs hbs => ?_,fun he => absurd ⟨h,by omega,fun hs => ?_⟩ he⟩
    · obtain rfl := Option.some.inj (hsigned.symm.trans hbs)
      obtain ⟨st,hst,-⟩ := @mbtowc_complete .initial rfl c [] (encode c).length le_rfl
      rw [List.append_nil] at hst
      refine ⟨st,_,_,hst,by rw [hc]; exact ofNat_self w,?_⟩
      split_ifs with hzero
      · exact .inr ⟨zero_of_toNat (hc.symm.trans hzero),rfl⟩
      · exact .inl rfl
    · have hlow := hs.1
      have hhigh := hs.2
      omega
  · have hnone : Codec.utf8.wctomb w = none := by
      rw [hsigned,utf8Wctomb,if_neg (by omega),if_neg (by omega)]
      by_cases hshort : 0x800 ≤ w.toNat ∧ w.toNat ≤ 0xffff
      · rw [if_pos hshort,if_pos (by omega)]
      · rw [if_neg hshort,if_neg (by omega)]
    refine ⟨fun bs hbs => ?_,fun _ => ?_⟩
    · rw [hnone] at hbs
      cases hbs
    · rw [Codec.wcrtomb,hnone]

theorem ucsValue_two (big : Bool) {x : Nat} (h : x < 256 ^ 2) :
    (ucsBytes 2 big x).length = 2 ∧ ucsValue big (ucsBytes 2 big x) = x := by
  cases big <;> simp [ucsBytes,ucsValue,List.range_succ] <;> omega

theorem ucsValue_four (big : Bool) {x : Nat} (h : x < 256 ^ 4) :
    (ucsBytes 4 big x).length = 4 ∧ ucsValue big (ucsBytes 4 big x) = x := by
  cases big <;> simp [ucsBytes,ucsValue,List.range_succ] <;> omega

theorem ucs_recovers {width : Nat} {big : Bool} {w : Wchar} {bs : List UInt8}
    (hx : (ucsBytes width big (w.toNat % 256 ^ width)).length = width ∧
      ucsValue big (ucsBytes width big (w.toNat % 256 ^ width)) = w.toNat % 256 ^ width)
    (hw : w.toNat < 256 ^ width) (hbs : ucsWctombSigned width big w = some bs) :
    ∃ st ret wc, ucsMbtowc width big bs bs.length .initial = ⟨st,ret,some wc⟩ ∧ BitVec.ofNat 32 wc = w ∧
      (ret = bs.length ∨ w = 0 ∧ ret = 0) := by
  unfold ucsWctombSigned at hbs
  split_ifs at hbs
  obtain rfl := Option.some.inj hbs
  rw [Nat.mod_eq_of_lt hw] at hx ⊢
  refine ⟨.initial,width,w.toNat,?_,ofNat_self w,.inl (by rw [hx.1])⟩
  rw [ucsMbtowc,if_neg (by rw [hx.1]; exact lt_irrefl _),List.take_of_length_le hx.1.le,hx.2]

theorem ucs_rejects {width : Nat} {big : Bool} {w : Wchar} (h : Surrogate w.toInt) : ucsWctombSigned width big w = none := by
  have hw := toInt_cases w
  have hlow := h.1
  have hhigh := h.2
  rw [ucsWctombSigned,if_pos (by omega)]

def Codec.locale : Codec → LocaleId
  | ascii => .c
  | utf8 => .utf8
  | ucs2 true => .ucs2be
  | ucs2 false => .ucs2le
  | ucs4 true => .ucs4be
  | ucs4 false => .ucs4le

theorem mbtowc_locale (host : Host) (c : Codec) : c.locale.getMbtowc host = c.mbtowc := by
  rcases c with _ | _ | (_ | _) | (_ | _) <;> rfl

theorem ucsBytes_mod (width : Nat) (big : Bool) (x : Nat) : ucsBytes width big (x % 256 ^ width) = ucsBytes width big x := by
  have hbytes : ((List.range width).map fun i => UInt8.ofNat (x % 256 ^ width / 256 ^ i)) =
      (List.range width).map fun i => UInt8.ofNat (x / 256 ^ i) := by
    refine List.map_congr_left fun i hi => ?_
    obtain ⟨k,rfl⟩ := Nat.exists_eq_add_of_lt (List.mem_range.mp hi)
    rw [show 256 ^ (i + k + 1) = 256 ^ i * (256 ^ k * 256) by ring,Nat.mod_mul_right_div_self,← UInt8.toNat_inj,
      UInt8.toNat_ofNat',UInt8.toNat_ofNat']
    exact Nat.mod_mod_of_dvd _ (Dvd.intro_left _ rfl)
  rw [ucsBytes,ucsBytes,hbytes]

theorem ucs_signed (width : Nat) (big : Bool) (w : Wchar) (st : Mbstate) :
    ucsWctomb width big w.toNat st = (st,ucsWctombSigned width big w) := by
  rw [ucsWctomb,ucsWctombSigned,ucsBytes_mod]
  split_ifs <;> rfl

theorem wctomb_locale (host : Host) (c : Codec) {w : Wchar} (h : 0 ≤ w.toInt) (st : Mbstate) :
    c.locale.getWctomb host w.toNat st = (st,c.wctomb w) := by
  rcases c with _ | _ | (_ | _) | (_ | _)
  · have hw := toInt_cases w
    show asciiWctomb w.toNat st = (st,asciiWctombSigned w)
    unfold asciiWctomb asciiWctombSigned
    by_cases hbig : 0x80 ≤ w.toNat
    · rw [if_pos hbig,if_pos (by omega)]
    · rw [if_neg hbig,if_neg (by omega)]
  · exact congrArg (Prod.mk st) (utf8_signed h).symm
  · exact ucs_signed 2 false w st
  · exact ucs_signed 2 true w st
  · exact ucs_signed 4 false w st
  · exact ucs_signed 4 true w st

def Codec.Holds : Codec → Int → Prop
  | ucs2 _, w => 0 ≤ w ∧ w ≤ 0xffff
  | _, w => 0 ≤ w

theorem holds_recoverable {c : Codec} {w : Wchar} (h : c.Holds w.toInt) : c.Recoverable w := by
  have hw := toInt_cases w
  have hlt := w.isLt
  cases c with
  | ascii => exact ascii_recoverable h
  | utf8 => exact utf8_recoverable h
  | ucs2 big =>
    have hlow := h.1
    have hhigh := h.2
    refine ⟨fun bs hbs => ucs_recovers (ucsValue_two big (Nat.mod_lt _ (by decide))) (by omega) hbs,fun he => ?_⟩
    have hs : Surrogate w.toInt := by
      by_contra hs
      exact he ⟨hlow,hhigh,hs⟩
    rw [Codec.wcrtomb,Codec.wctomb,ucs_rejects hs]
  | ucs4 big =>
    refine ⟨fun bs hbs => ucs_recovers (ucsValue_four big (Nat.mod_lt _ (by decide))) (by omega) hbs,fun he => ?_⟩
    have hs : Surrogate w.toInt := by
      by_contra hs
      exact he ⟨h,hs⟩
    rw [Codec.wcrtomb,Codec.wctomb,ucs_rejects hs]

theorem negative_accepted (c : Codec) {w : Wchar} (h : w.toInt < 0) : ∃ bs, c.wctomb w = some bs := by
  have hw := toInt_cases w
  cases c with
  | ascii => exact ⟨_,if_neg (by omega)⟩
  | utf8 => exact ⟨_,if_pos (by omega)⟩
  | ucs2 big => exact ⟨_,if_neg (by omega)⟩
  | ucs4 big => exact ⟨_,if_neg (by omega)⟩

theorem recoverable_iff (c : Codec) (w : Wchar) : c.Recoverable w ↔ c.Holds w.toInt := by
  refine ⟨fun h => ?_,holds_recoverable⟩
  have hpos : 0 ≤ w.toInt := by
    by_contra hneg
    obtain ⟨bs,hbs⟩ := negative_accepted c (not_le.mp hneg)
    refine accepted_bad hbs (fun he => hneg ?_) h
    cases c with
    | ascii => exact he.1
    | utf8 => exact he.1
    | ucs2 big => exact he.1
    | ucs4 big => exact he.1
  cases c with
  | ascii => exact hpos
  | utf8 => exact hpos
  | ucs4 big => exact hpos
  | ucs2 big =>
    refine ⟨hpos,?_⟩
    by_contra hbig
    have hw := toInt_cases w
    have haccept : (Codec.ucs2 big).wctomb w = some (ucsBytes 2 big (w.toNat % 256 ^ 2)) := if_neg (by omega)
    exact accepted_bad haccept (fun he => hbig he.2.1) h

theorem minus_one_accepted : ¬Codec.utf8.Recoverable (-1) ∧ Codec.utf8.wctomb (-1) = some [0xff] ∧
    (Codec.utf8.mbtowc [0xff] 1 .initial).ret = -1 := by
  refine ⟨accepted_bad (show Codec.utf8.wctomb (-1) = some [0xff] by decide) ?_,by decide,by decide⟩
  rintro ⟨hlow,-⟩
  exact absurd hlow (by decide)

end Iconv
