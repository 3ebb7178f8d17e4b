import Mathlib

namespace Utf8

abbrev encode (c : Char) : List UInt8 := String.utf8EncodeChar c

abbrev encodeAll (cs : List Char) : List UInt8 := cs.flatMap encode

def Tail (b : UInt8) : Prop := 0x80 ≤ b.toNat ∧ b.toNat ≤ 0xbf

def Incomplete (l : List UInt8) : Prop := ∃ c, l <+: encode c ∧ l ≠ encode c

def Hopeless (l : List UInt8) : Prop := ∀ c, ¬encode c <+: l ∧ ¬l <+: encode c

theorem toNat_valid (c : Char) : c.toNat < 0xd800 ∨ 0xdfff < c.toNat ∧ c.toNat < 0x110000 := c.valid

theorem exists_char {v : Nat} (h : v < 0xd800 ∨ 0xdfff < v ∧ v < 0x110000) : ∃ c : Char, c.toNat = v :=
  ⟨Char.ofNatAux v h,rfl⟩

inductive Shape (c : Char) : Prop
  | one {a : UInt8} (he : encode c = [a]) (ha : a.toNat = c.toNat) (hv : c.toNat ≤ 0x7f)
  | two {a b : UInt8} (he : encode c = [a,b]) (ha : a.toNat = c.toNat / 64 + 0xc0)
      (hb : b.toNat = c.toNat % 64 + 0x80) (hl : 0x7f < c.toNat) (hv : c.toNat ≤ 0x7ff)
  | three {a b d : UInt8} (he : encode c = [a,b,d]) (ha : a.toNat = c.toNat / 4096 + 0xe0)
      (hb : b.toNat = c.toNat / 64 % 64 + 0x80) (hd : d.toNat = c.toNat % 64 + 0x80)
      (hl : 0x7ff < c.toNat) (hv : c.toNat ≤ 0xffff)
  | four {a b d e : UInt8} (he : encode c = [a,b,d,e]) (ha : a.toNat = c.toNat / 262144 + 0xf0)
      (hb : b.toNat = c.toNat / 4096 % 64 + 0x80) (hd : d.toNat = c.toNat / 64 % 64 + 0x80)
      (he' : e.toNat = c.toNat % 64 + 0x80) (hl : 0xffff < c.toNat)

theorem shape (c : Char) : Shape c := by
  have hc := toNat_valid c
  have hv : c.val.toNat = c.toNat := rfl
  by_cases h1 : c.toNat ≤ 0x7f
  · refine .one (a := UInt8.ofNat c.toNat) ?_ ?_ h1
    · simp only [encode,String.utf8EncodeChar,hv,if_pos h1]
    · rw [UInt8.toNat_ofNat']
      omega
  by_cases h2 : c.toNat ≤ 0x7ff
  · refine .two (a := UInt8.ofNat (c.toNat / 64 % 0x20 + 0xc0)) (b := UInt8.ofNat (c.toNat % 0x40 + 0x80))
      ?_ ?_ ?_ (by omega) h2
    · simp only [encode,String.utf8EncodeChar,hv,if_neg h1,if_pos h2]
    · rw [UInt8.toNat_ofNat']
      omega
    · rw [UInt8.toNat_ofNat']
      omega
  by_cases h3 : c.toNat ≤ 0xffff
  · refine .three (a := UInt8.ofNat (c.toNat / 4096 % 0x10 + 0xe0))
      (b := UInt8.ofNat (c.toNat / 64 % 0x40 + 0x80)) (d := UInt8.ofNat (c.toNat % 0x40 + 0x80))
      ?_ ?_ ?_ ?_ (by omega) h3
    · simp only [encode,String.utf8EncodeChar,hv,if_neg h1,if_neg h2,if_pos h3]
    · rw [UInt8.toNat_ofNat']
      omega
    · rw [UInt8.toNat_ofNat']
      omega
    · rw [UInt8.toNat_ofNat']
      omega
  · refine .four (a := UInt8.ofNat (c.toNat / 262144 % 0x08 + 0xf0))
      (b := UInt8.ofNat (c.toNat / 4096 % 0x40 + 0x80)) (d := UInt8.ofNat (c.toNat / 64 % 0x40 + 0x80))
      (e := UInt8.ofNat (c.toNat % 0x40 + 0x80)) ?_ ?_ ?_ ?_ ?_ (by omega)
    · simp only [encode,String.utf8EncodeChar,hv,if_neg h1,if_neg h2,if_neg h3]
    · rw [UInt8.toNat_ofNat']
      omega
    · rw [UInt8.toNat_ofNat']
      omega
    · rw [UInt8.toNat_ofNat']
      omega
    · rw [UInt8.toNat_ofNat']
      omega

theorem char_one {a : UInt8} (h : a.toNat ≤ 0x7f) : ∃ c, encode c = [a] ∧ c.toNat = a.toNat := by
  obtain ⟨c,hc⟩ := exists_char (v := a.toNat) (by omega)
  cases shape c with
  | one he ha hv => exact ⟨c,by rw [he,UInt8.toNat_inj.mp (ha.trans hc)],hc⟩
  | two he ha hb hl hv => omega
  | three he ha hb hd hl hv => omega
  | four he ha hb hd he' hl => omega

theorem split_two {x y v : Nat} (h : v = x * 64 + y) (hy : y < 64) : v / 64 = x ∧ v % 64 = y := by omega

theorem split_three {x y z v : Nat} (h : v = x * 4096 + y * 64 + z) (hy : y < 64) (hz : z < 64) :
    v / 4096 = x ∧ v / 64 % 64 = y ∧ v % 64 = z := by omega

theorem split_four {w x y z v : Nat} (h : v = w * 262144 + x * 4096 + y * 64 + z) (hx : x < 64) (hy : y < 64) (hz : z < 64) :
    v / 262144 = w ∧ v / 4096 % 64 = x ∧ v / 64 % 64 = y ∧ v % 64 = z := by omega

theorem tail_mod {b : UInt8} (h : Tail b) : b.toNat % 64 + 0x80 = b.toNat ∧ b.toNat % 64 < 64 := by
  obtain ⟨h1,h2⟩ := h
  omega

theorem encode_two {c : Char} {a b : UInt8} (ha : c.toNat / 64 + 0xc0 = a.toNat) (hb : c.toNat % 64 + 0x80 = b.toNat)
    (hl : 0x7f < c.toNat) (hv : c.toNat ≤ 0x7ff) : encode c = [a,b] := by
  cases shape c with
  | one he ha' hv' => omega
  | two he ha' hb' => rw [he,UInt8.toNat_inj.mp (ha'.trans ha),UInt8.toNat_inj.mp (hb'.trans hb)]
  | three he ha' hb' hd' hl' => omega
  | four he ha' hb' hd' he' hl' => omega

theorem encode_three {c : Char} {a b d : UInt8} (ha : c.toNat / 4096 + 0xe0 = a.toNat)
    (hb : c.toNat / 64 % 64 + 0x80 = b.toNat) (hd : c.toNat % 64 + 0x80 = d.toNat) (hl : 0x7ff < c.toNat)
    (hv : c.toNat ≤ 0xffff) : encode c = [a,b,d] := by
  cases shape c with
  | one he ha' hv' => omega
  | two he ha' hb' hl' hv' => omega
  | three he ha' hb' hd' =>
    rw [he,UInt8.toNat_inj.mp (ha'.trans ha),UInt8.toNat_inj.mp (hb'.trans hb),UInt8.toNat_inj.mp (hd'.trans hd)]
  | four he ha' hb' hd' he' hl' => omega

theorem encode_four {c : Char} {a b d e : UInt8} (ha : c.toNat / 262144 + 0xf0 = a.toNat)
    (hb : c.toNat / 4096 % 64 + 0x80 = b.toNat) (hd : c.toNat / 64 % 64 + 0x80 = d.toNat)
    (he : c.toNat % 64 + 0x80 = e.toNat) (hl : 0xffff < c.toNat) : encode c = [a,b,d,e] := by
  cases shape c with
  | one hc ha' hv' => omega
  | two hc ha' hb' hl' hv' => omega
  | three hc ha' hb' hd' hl' hv' => omega
  | four hc ha' hb' hd' he' =>
    rw [hc,UInt8.toNat_inj.mp (ha'.trans ha),UInt8.toNat_inj.mp (hb'.trans hb),UInt8.toNat_inj.mp (hd'.trans hd),
      UInt8.toNat_inj.mp (he'.trans he)]

theorem char_two {a b : UInt8} (h : 0xc2 ≤ a.toNat) (h' : a.toNat ≤ 0xdf) (hb : Tail b) :
    ∃ c, encode c = [a,b] ∧ c.toNat = a.toNat % 32 * 64 + b.toNat % 64 := by
  obtain ⟨hbt,hbm⟩ := tail_mod hb
  obtain ⟨c,hc⟩ := exists_char (v := a.toNat % 32 * 64 + b.toNat % 64) (by omega)
  obtain ⟨hx,hy⟩ := split_two hc hbm
  exact ⟨c,encode_two (by omega) (by omega) (by omega) (by omega),hc⟩

theorem char_three {a b d : UInt8} (h : 0xe0 ≤ a.toNat) (h' : a.toNat ≤ 0xef) (hb : Tail b) (hd : Tail d)
    (he : a.toNat = 0xe0 → 0xa0 ≤ b.toNat) (hs : a.toNat = 0xed → b.toNat < 0xa0) :
    ∃ c, encode c = [a,b,d] ∧ c.toNat = a.toNat % 16 * 4096 + b.toNat % 64 * 64 + d.toNat % 64 := by
  obtain ⟨hbt,hbm⟩ := tail_mod hb
  obtain ⟨hdt,hdm⟩ := tail_mod hd
  have hlead : a.toNat % 16 + 0xe0 = a.toNat := by omega
  have hlow : 0x800 ≤ a.toNat % 16 * 4096 + b.toNat % 64 * 64 := by
    by_cases ha : a.toNat = 0xe0
    · have hb' := he ha
      omega
    · omega
  have hgap : a.toNat % 16 * 4096 + b.toNat % 64 * 64 + d.toNat % 64 < 0xd800 ∨
      0xdfff < a.toNat % 16 * 4096 + b.toNat % 64 * 64 + d.toNat % 64 := by
    rcases lt_trichotomy a.toNat 0xed with ha | ha | ha
    · exact Or.inl (by omega)
    · have hb' := hs ha
      exact Or.inl (by omega)
    · exact Or.inr (by omega)
  clear he hs
  obtain ⟨c,hc⟩ := exists_char (v := a.toNat % 16 * 4096 + b.toNat % 64 * 64 + d.toNat % 64) (by omega)
  have hmin : 0x7ff < c.toNat := by omega
  have hmax : c.toNat ≤ 0xffff := by omega
  obtain ⟨hx,hy,hz⟩ := split_three hc hbm hdm
  exact ⟨c,encode_three (by rw [hx,hlead]) (by rw [hy,hbt]) (by rw [hz,hdt]) hmin hmax,hc⟩

theorem char_four {a b d e : UInt8} (h : 0xf0 ≤ a.toNat) (h' : a.toNat ≤ 0xf4) (hb : Tail b) (hd : Tail d)
    (he : Tail e) (hl : a.toNat = 0xf0 → 0x90 ≤ b.toNat) (hg : a.toNat = 0xf4 → b.toNat < 0x90) :
    ∃ c, encode c = [a,b,d,e] ∧
      c.toNat = a.toNat % 8 * 262144 + b.toNat % 64 * 4096 + d.toNat % 64 * 64 + e.toNat % 64 := by
  obtain ⟨hbt,hbm⟩ := tail_mod hb
  obtain ⟨hdt,hdm⟩ := tail_mod hd
  obtain ⟨het,hem⟩ := tail_mod he
  have hlead : a.toNat % 8 + 0xf0 = a.toNat := by omega
  have hlow : 0x10000 ≤ a.toNat % 8 * 262144 + b.toNat % 64 * 4096 := by
    by_cases ha : a.toNat = 0xf0
    · have hb' := hl ha
      omega
    · omega
  have hhigh : a.toNat % 8 * 262144 + b.toNat % 64 * 4096 + d.toNat % 64 * 64 + e.toNat % 64 < 0x110000 := by
    by_cases ha : a.toNat = 0xf4
    · have hb' := hg ha
      omega
    · omega
  clear hl hg
  obtain ⟨c,hc⟩ := exists_char
    (v := a.toNat % 8 * 262144 + b.toNat % 64 * 4096 + d.toNat % 64 * 64 + e.toNat % 64) (by omega)
  have hmin : 0xffff < c.toNat := by omega
  obtain ⟨hw,hx,hy,hz⟩ := split_four hc hbm hdm hem
  exact ⟨c,encode_four (by rw [hw,hlead]) (by rw [hx,hbt]) (by rw [hy,hdt]) (by rw [hz,het]) hmin,hc⟩

theorem encode_ne_nil (c : Char) : encode c ≠ [] := String.utf8EncodeChar_ne_nil

end Utf8
