import Mathlib
import Picolibc.Lib.Utf8
import Picolibc.Multibyte.Convert

namespace Multibyte

open Ascii Utf8

def badSecond (a b : UInt8) : Prop := (a.toNat = 0xe0 ∧ b.toNat < 0xa0) ∨ notTail b

def badFourth (a b : UInt8) : Prop :=
  ((a.toNat = 0xf0 ∧ b.toNat < 0x90) ∨ (a.toNat = 0xf4 ∧ 0x90 ≤ b.toNat)) ∨ notTail b

inductive Holds (st : Mbstate) : List UInt8 → Prop
  | none (h : st.count = 0) : Holds st []
  | one (h : st.count = 1) (hl : 0xc0 < st.b0.toNat) (hu : st.b0.toNat ≤ 0xf4) : Holds st [st.b0]
  | two (h : st.count = 2) (hl : 0xe0 ≤ st.b0.toNat) (hu : st.b0.toNat ≤ 0xf4)
      (hs : st.b0.toNat ≤ 0xef → ¬badSecond st.b0 st.b1)
      (hf : 0xf0 ≤ st.b0.toNat → ¬badFourth st.b0 st.b1) : Holds st [st.b0,st.b1]
  | three (h : st.count = 3) (hl : 0xf0 ≤ st.b0.toNat) (hu : st.b0.toNat ≤ 0xf4)
      (hf : ¬badFourth st.b0 st.b1) (ht : ¬notTail st.b2) : Holds st [st.b0,st.b1,st.b2]

def Late (l : List UInt8) : Prop := l = [0xc1] ∨ ∃ b : UInt8, 0xa0 ≤ b.toNat ∧ b.toNat ≤ 0xbf ∧ l = [0xed,b]

def Conv.shift (r : Conv) (k : Nat) : Conv := { r with ret := if r.ret ≤ 0 then r.ret else r.ret - k }

theorem shl_or (x k : Nat) {y : Nat} (h : y < 2 ^ k) : x <<< k ||| y = x * 2 ^ k + y := by
  rw [← Nat.shiftLeft_add_eq_or_of_lt h,Nat.shiftLeft_eq]

theorem two_value (x y : Nat) : ((x &&& 0x1f) <<< 6) ||| (y &&& 0x3f) = x % 32 * 64 + y % 64 := by
  rw [Nat.and_two_pow_sub_one_eq_mod x 5,Nat.and_two_pow_sub_one_eq_mod y 6,shl_or _ 6 (by omega)]
  rfl

theorem three_value (x y z : Nat) : ((x &&& 0x0f) <<< 12) ||| ((y &&& 0x3f) <<< 6) ||| (z &&& 0x3f) =
    x % 16 * 4096 + y % 64 * 64 + z % 64 := by
  rw [Nat.and_two_pow_sub_one_eq_mod x 4,Nat.and_two_pow_sub_one_eq_mod y 6,
    Nat.and_two_pow_sub_one_eq_mod z 6,Nat.or_assoc,shl_or _ 6 (by omega),shl_or _ 12 (by omega)]
  omega

theorem four_value (x y z w : Nat) : ((x &&& 0x07) <<< 18) ||| ((y &&& 0x3f) <<< 12) |||
    ((z &&& 0x3f) <<< 6) ||| (w &&& 0x3f) = x % 8 * 262144 + y % 64 * 4096 + z % 64 * 64 + w % 64 := by
  rw [Nat.and_two_pow_sub_one_eq_mod x 3,Nat.and_two_pow_sub_one_eq_mod y 6,
    Nat.and_two_pow_sub_one_eq_mod z 6,Nat.and_two_pow_sub_one_eq_mod w 6,Nat.or_assoc,
    shl_or _ 6 (by omega),Nat.or_assoc,shl_or _ 12 (by omega),shl_or _ 18 (by omega)]
  omega

theorem bump_lt (n : Nat) {k : Nat} (h : k ≤ 4) : bump n < k + 1 ↔ n < k := by
  unfold bump sizeMax
  split <;> omega

theorem tail_iff (b : UInt8) : Tail b ↔ ¬notTail b := by
  unfold Tail notTail
  omega

theorem late_of_length {l : List UInt8} (h : Late l) : l.length ≤ 2 := by
  rcases h with rfl | ⟨b,-,-,rfl⟩ <;> simp

theorem two_bounds {v x y : Nat} (hx : x = v / 64 + 0xc0) (hy : y = v % 64 + 0x80) (hl : 0x7f < v) (hv : v ≤ 0x7ff) :
    0xc2 ≤ x ∧ x ≤ 0xdf ∧ 0x80 ≤ y ∧ y ≤ 0xbf ∧ x % 32 * 64 + y % 64 = v := by omega

theorem three_bounds {v x y z : Nat} (hx : x = v / 4096 + 0xe0) (hy : y = v / 64 % 64 + 0x80) (hz : z = v % 64 + 0x80)
    (hl : 0x7ff < v) (hv : v ≤ 0xffff) :
    0xe0 ≤ x ∧ x ≤ 0xef ∧ 0x80 ≤ y ∧ y ≤ 0xbf ∧ 0x80 ≤ z ∧ z ≤ 0xbf ∧ (x = 0xe0 → 0xa0 ≤ y) ∧
      x % 16 * 4096 + y % 64 * 64 + z % 64 = v := by omega

theorem four_bounds {v x y z w : Nat} (hx : x = v / 262144 + 0xf0) (hy : y = v / 4096 % 64 + 0x80)
    (hz : z = v / 64 % 64 + 0x80) (hw : w = v % 64 + 0x80) (hl : 0xffff < v) (hv : v < 0x110000) :
    0xf0 ≤ x ∧ x ≤ 0xf4 ∧ 0x80 ≤ y ∧ y ≤ 0xbf ∧ 0x80 ≤ z ∧ z ≤ 0xbf ∧ 0x80 ≤ w ∧ w ≤ 0xbf ∧ (x = 0xf0 → 0x90 ≤ y) ∧
      (x = 0xf4 → y < 0x90) ∧ x % 8 * 262144 + y % 64 * 4096 + z % 64 * 64 + w % 64 = v := by omega

section

variable {st : Mbstate} (h0 : st.count = 0)

include h0

theorem mbtowc_lead {a : UInt8} {s : List UInt8} {n : Nat} (hn : 0 < n) (ha : 0x7f < a.toNat) :
    utf8Mbtowc (a :: s) n st =
      if 0xc0 ≤ a.toNat ∧ a.toNat ≤ 0xdf then
        if a.toNat = 0xc0 then ⟨st,-1,none⟩ else twoByte (a :: s) n st a 1
      else if 0xe0 ≤ a.toNat ∧ a.toNat ≤ 0xef then threeByte (a :: s) n st a 1
      else if 0xf0 ≤ a.toNat ∧ a.toNat ≤ 0xf4 then fourByte (a :: s) n st a 1
      else ⟨st,-1,none⟩ := by
  unfold utf8Mbtowc
  simp only [h0,charAt_cons_zero,if_true]
  rw [if_neg (by omega),if_neg (by omega),if_neg (by omega)]

theorem mbtowc_ascii {a : UInt8} {s : List UInt8} {n : Nat} (hn : 0 < n) (ha : a.toNat ≤ 0x7f) :
    utf8Mbtowc (a :: s) n st = ⟨{ st with count := 0 },if a.toNat = 0 then 0 else 1,some a.toNat⟩ := by
  unfold utf8Mbtowc
  simp only [h0,charAt_cons_zero,if_true]
  rw [if_neg (by omega)]
  split_ifs with hz
  · rw [hz]
  · rfl

theorem twoByte_short {a : UInt8} {s : List UInt8} :
    twoByte (a :: s) 1 st a 1 = ⟨{ st with count := 1, b0 := a },-2,none⟩ := by
  simp [twoByte,h0]

theorem twoByte_full {a b : UInt8} {s : List UInt8} {n : Nat} (hn : 2 ≤ n) :
    (a.toNat < 0xc2 ∨ notTail b → (twoByte (a :: b :: s) n st a 1).ret = -1 ∧
      (twoByte (a :: b :: s) n st a 1).wc = none) ∧
    (¬(a.toNat < 0xc2 ∨ notTail b) → twoByte (a :: b :: s) n st a 1 =
      ⟨{ st with count := 0, b0 := a },2,some (a.toNat % 32 * 64 + b.toNat % 64)⟩) := by
  simp only [twoByte,h0,if_true,two_value,charAt_cons_one,if_neg (show ¬n < 2 by omega)]
  constructor
  · rintro (h | h)
    · split_ifs <;> exact ⟨rfl,rfl⟩
    · rw [if_pos h]
      exact ⟨rfl,rfl⟩
  · intro h
    rw [if_neg (fun hb => h (.inr hb)),if_neg (fun hb => h (.inl hb))]
    rfl

theorem threeByte_short {a : UInt8} {s : List UInt8} :
    threeByte (a :: s) 1 st a 1 = ⟨{ st with count := 1, b0 := a },-2,none⟩ := by
  simp [threeByte,h0]

theorem threeByte_two {a b : UInt8} {s : List UInt8} :
    (badSecond a b → (threeByte (a :: b :: s) 2 st a 1).ret = -1 ∧
      (threeByte (a :: b :: s) 2 st a 1).wc = none) ∧
    (¬badSecond a b → threeByte (a :: b :: s) 2 st a 1 =
      ⟨{ st with count := 2, b0 := a, b1 := b },-2,none⟩) := by
  simp only [threeByte,h0,if_true,charAt_cons_one,badSecond]
  split_ifs <;> simp_all

theorem threeByte_full {a b d : UInt8} {s : List UInt8} {n : Nat} (hn : 3 ≤ n) :
    let v := a.toNat % 16 * 4096 + b.toNat % 64 * 64 + d.toNat % 64
    (badSecond a b ∨ notTail d ∨ (0xd800 ≤ v ∧ v ≤ 0xdfff) →
      (threeByte (a :: b :: d :: s) n st a 1).ret = -1 ∧
      (threeByte (a :: b :: d :: s) n st a 1).wc = none) ∧
    (¬(badSecond a b ∨ notTail d ∨ (0xd800 ≤ v ∧ v ≤ 0xdfff)) →
      threeByte (a :: b :: d :: s) n st a 1 = ⟨{ st with count := 0, b0 := a, b1 := b },3,some v⟩) := by
  simp only [threeByte,h0,if_true,charAt_cons_one,badSecond,three_value,
    if_neg (show ¬n < 2 by omega),if_neg (show ¬n < 3 by omega)]
  split_ifs <;> simp_all

theorem fourByte_short {a : UInt8} {s : List UInt8} :
    fourByte (a :: s) 1 st a 1 = ⟨{ st with count := 1, b0 := a },-2,none⟩ := by
  simp [fourByte,h0]

theorem fourByte_two {a b : UInt8} {s : List UInt8} :
    (badFourth a b → (fourByte (a :: b :: s) 2 st a 1).ret = -1 ∧
      (fourByte (a :: b :: s) 2 st a 1).wc = none) ∧
    (¬badFourth a b → fourByte (a :: b :: s) 2 st a 1 =
      ⟨{ st with count := 2, b0 := a, b1 := b },-2,none⟩) := by
  simp only [fourByte,h0,if_true,charAt_cons_one,badFourth]
  split_ifs <;> simp_all

theorem fourByte_three {a b d : UInt8} {s : List UInt8} :
    (badFourth a b ∨ notTail d → (fourByte (a :: b :: d :: s) 3 st a 1).ret = -1 ∧
      (fourByte (a :: b :: d :: s) 3 st a 1).wc = none) ∧
    (¬(badFourth a b ∨ notTail d) → fourByte (a :: b :: d :: s) 3 st a 1 =
      ⟨{ st with count := 3, b0 := a, b1 := b, b2 := d },-2,none⟩) := by
  simp only [fourByte,h0,if_true,charAt_cons_one,badFourth]
  split_ifs <;> simp_all

theorem fourByte_full {a b d e : UInt8} {s : List UInt8} {n : Nat} (hn : 4 ≤ n) :
    (badFourth a b ∨ notTail d ∨ notTail e →
      (fourByte (a :: b :: d :: e :: s) n st a 1).ret = -1 ∧
      (fourByte (a :: b :: d :: e :: s) n st a 1).wc = none) ∧
    (¬(badFourth a b ∨ notTail d ∨ notTail e) →
      fourByte (a :: b :: d :: e :: s) n st a 1 = ⟨{ st with count := 0, b0 := a, b1 := b, b2 := d },4,
        some (a.toNat % 8 * 262144 + b.toNat % 64 * 4096 + d.toNat % 64 * 64 + e.toNat % 64)⟩) := by
  simp only [fourByte,h0,if_true,charAt_cons_one,badFourth,four_value,
    if_neg (show ¬n < 2 by omega),if_neg (show ¬n < 3 by omega),if_neg (show ¬n < 4 by omega)]
  split_ifs <;> simp_all

theorem mbtowc_complete (c : Char) (s : List UInt8) {n : Nat} (hn : (encode c).length ≤ n) :
    ∃ st', utf8Mbtowc (encode c ++ s) n st =
      ⟨st',if c.toNat = 0 then 0 else (encode c).length,some c.toNat⟩ ∧ st'.count = 0 := by
  have hc := toNat_valid c
  cases shape c with
  | one he ha hv =>
    rw [he] at hn ⊢
    simp only [List.length_cons,List.length_nil] at hn
    refine ⟨{ st with count := 0 },?_,rfl⟩
    rw [List.cons_append,List.nil_append,mbtowc_ascii h0 hn (by omega),ha]
    rfl
  | @two a b he ha hb hl hv =>
    rw [he] at hn ⊢
    simp only [List.length_cons,List.length_nil] at hn
    obtain ⟨ha₁,ha₂,hb₁,hb₂,hvalue⟩ := two_bounds ha hb hl hv
    clear ha hb hv hc
    refine ⟨{ st with count := 0, b0 := a },?_,rfl⟩
    rw [List.cons_append,List.cons_append,List.nil_append,mbtowc_lead h0 (by omega) (by omega),
      if_pos (by omega),if_neg (by omega),(twoByte_full h0 hn).2 (by unfold notTail; omega),
      if_neg (by omega),hvalue]
    rfl
  | @three a b d he ha hb hd hl hv =>
    rw [he] at hn ⊢
    simp only [List.length_cons,List.length_nil] at hn
    obtain ⟨ha₁,ha₂,hb₁,hb₂,hd₁,hd₂,hlow,hvalue⟩ := three_bounds ha hb hd hl hv
    clear ha hb hd hv
    refine ⟨{ st with count := 0, b0 := a, b1 := b },?_,rfl⟩
    rw [List.cons_append,List.cons_append,List.cons_append,List.nil_append,
      mbtowc_lead h0 (by omega) (by omega),if_neg (by omega),if_pos (by omega),
      (threeByte_full h0 hn).2 (by rw [hvalue]; unfold badSecond notTail; omega),if_neg (by omega),hvalue]
    rfl
  | @four a b d e he ha hb hd he' hl =>
    rw [he] at hn ⊢
    simp only [List.length_cons,List.length_nil] at hn
    obtain ⟨ha₁,ha₂,hb₁,hb₂,hd₁,hd₂,he₁,he₂,hlow,hhigh,hvalue⟩ := four_bounds ha hb hd he' hl (by omega)
    clear ha hb hd he' hc
    refine ⟨{ st with count := 0, b0 := a, b1 := b, b2 := d },?_,rfl⟩
    rw [List.cons_append,List.cons_append,List.cons_append,List.cons_append,List.nil_append,
      mbtowc_lead h0 (by omega) (by omega),if_neg (by omega),if_neg (by omega),if_pos (by omega),
      (fourByte_full h0 hn).2 (by unfold badFourth notTail; omega),if_neg (by omega),hvalue]
    rfl

theorem mbtowc_partial (c : Char) {k : Nat} (hk : 0 < k) (hl : k < (encode c).length) (s : List UInt8) :
    ∃ st', utf8Mbtowc ((encode c).take k ++ s) k st = ⟨st',-2,none⟩ ∧ Holds st' ((encode c).take k) := by
  have hc := toNat_valid c
  cases shape c with
  | one he ha hv =>
    rw [he,List.length_singleton] at hl
    omega
  | @two a b he ha hb hl' hv =>
    rw [he] at hl ⊢
    simp only [List.length_cons,List.length_nil] at hl
    obtain ⟨ha₁,ha₂,hb₁,hb₂,-⟩ := two_bounds ha hb hl' hv
    clear ha hb hl' hv hc
    obtain rfl : k = 1 := by omega
    refine ⟨{ st with count := 1, b0 := a },?_,.one rfl (by dsimp only; omega) (by dsimp only; omega)⟩
    rw [List.take_succ_cons,List.take_zero,List.cons_append,mbtowc_lead h0 hk (by omega),
      if_pos (by omega),if_neg (by omega),twoByte_short h0]
  | @three a b d he ha hb hd hl' hv =>
    rw [he] at hl ⊢
    simp only [List.length_cons,List.length_nil] at hl
    obtain ⟨ha₁,ha₂,hb₁,hb₂,-,-,hlow,-⟩ := three_bounds ha hb hd hl' hv
    clear ha hb hd hl' hv hc
    obtain rfl | rfl : k = 1 ∨ k = 2 := by omega
    · refine ⟨{ st with count := 1, b0 := a },?_,.one rfl (by dsimp only; omega) (by dsimp only; omega)⟩
      rw [List.take_succ_cons,List.take_zero,List.cons_append,mbtowc_lead h0 hk (by omega),
        if_neg (by omega),if_pos (by omega),threeByte_short h0]
    · refine ⟨{ st with count := 2, b0 := a, b1 := b },?_,
        .two rfl (by dsimp only; omega) (by dsimp only; omega)
          (by unfold badSecond notTail; dsimp only; omega)
          (by unfold badFourth notTail; dsimp only; omega)⟩
      rw [List.take_succ_cons,List.take_succ_cons,List.take_zero,List.cons_append,List.cons_append,
        mbtowc_lead h0 hk (by omega),if_neg (by omega),if_pos (by omega),
        (threeByte_two h0).2 (by unfold badSecond notTail; omega)]
  | @four a b d e he ha hb hd he' hl' =>
    rw [he] at hl ⊢
    simp only [List.length_cons,List.length_nil] at hl
    obtain ⟨ha₁,ha₂,hb₁,hb₂,hd₁,hd₂,-,-,hlow,hhigh,-⟩ := four_bounds ha hb hd he' hl' (by omega)
    clear ha hb hd he' hl' hc
    obtain rfl | rfl | rfl : k = 1 ∨ k = 2 ∨ k = 3 := by omega
    · refine ⟨{ st with count := 1, b0 := a },?_,.one rfl (by dsimp only; omega) (by dsimp only; omega)⟩
      rw [List.take_succ_cons,List.take_zero,List.cons_append,mbtowc_lead h0 hk (by omega),
        if_neg (by omega),if_neg (by omega),if_pos (by omega),fourByte_short h0]
    · refine ⟨{ st with count := 2, b0 := a, b1 := b },?_,
        .two rfl (by dsimp only; omega) (by dsimp only; omega)
          (by unfold badSecond notTail; dsimp only; omega)
          (by unfold badFourth notTail; dsimp only; omega)⟩
      rw [List.take_succ_cons,List.take_succ_cons,List.take_zero,List.cons_append,List.cons_append,
        mbtowc_lead h0 hk (by omega),if_neg (by omega),if_neg (by omega),if_pos (by omega),
        (fourByte_two h0).2 (by unfold badFourth notTail; omega)]
    · refine ⟨{ st with count := 3, b0 := a, b1 := b, b2 := d },?_,
        .three rfl (by dsimp only; omega) (by dsimp only; omega)
          (by unfold badFourth notTail; dsimp only; omega) (by unfold notTail; dsimp only; omega)⟩
      rw [List.take_succ_cons,List.take_succ_cons,List.take_succ_cons,List.take_zero,List.cons_append,
        List.cons_append,List.cons_append,mbtowc_lead h0 hk (by omega),if_neg (by omega),if_neg (by omega),
        if_pos (by omega),(fourByte_three h0).2 (by unfold badFourth notTail; omega)]

end

def Conv.Takes (r : Conv) (l : List UInt8) : Prop :=
  ∃ c k, 0 < k ∧ k ≤ l.length ∧ encode c = l.take k ∧ r.ret = (if c.toNat = 0 then 0 else (k : Int)) ∧
    r.wc = some c.toNat ∧ r.state.count = 0

def Conv.Waits (r : Conv) (l : List UInt8) : Prop :=
  r.ret = -2 ∧ r.wc = none ∧ Holds r.state l ∧ (Incomplete l ∨ Late l)

def Conv.Fails (r : Conv) (l : List UInt8) : Prop := r.ret = -1 ∧ r.wc = none ∧ ¬Late l

theorem incomplete_of_encode {c : Char} {l q : List UInt8} (h : encode c = l ++ q) (hq : q ≠ []) :
    Incomplete l := by
  refine ⟨c,⟨q,h.symm⟩,?_⟩
  intro he
  rw [← he] at h
  exact hq (List.self_eq_append_right.mp h)

theorem not_late {a : UInt8} {s : List UInt8} (h : a.toNat ≠ 0xc1) (h' : a.toNat ≠ 0xed) : ¬Late (a :: s) := by
  rintro (h1 | ⟨b,-,-,h1⟩)
  · exact h (congrArg UInt8.toNat (List.cons.inj h1).1)
  · exact h' (congrArg UInt8.toNat (List.cons.inj h1).1)

theorem not_late_long {a b d : UInt8} {s : List UInt8} : ¬Late (a :: b :: d :: s) := by
  intro h
  have hl := late_of_length h
  simp at hl

section

variable {st : Mbstate} (h0 : st.count = 0) {a : UInt8} {s : List UInt8}

include h0

theorem twoByte_scans (hl : 0xc0 < a.toNat) (hu : a.toNat ≤ 0xdf) :
    let r := twoByte (a :: s) (a :: s).length st a 1
    r.Takes (a :: s) ∨ r.Waits (a :: s) ∨ r.Fails (a :: s) := by
  intro r
  cases s with
  | nil =>
    have hr : r = _ := twoByte_short h0
    refine .inr (.inl ?_)
    rw [hr]
    refine ⟨rfl,rfl,.one rfl hl (by dsimp only; omega),?_⟩
    by_cases hlate : a.toNat = 0xc1
    · exact .inr (.inl (by rw [UInt8.toNat_inj.mp (show a.toNat = (0xc1 : UInt8).toNat from hlate)]))
    · obtain ⟨c,hc,-⟩ := char_two (a := a) (b := 0x80) (by omega) hu (by unfold Tail; decide)
      exact .inl (incomplete_of_encode (l := [a]) hc (by simp))
  | cons b s =>
    have hf := twoByte_full h0 (a := a) (b := b) (s := s) (n := (a :: b :: s).length) (by simp)
    by_cases hbad : a.toNat < 0xc2 ∨ notTail b
    · refine .inr (.inr ⟨(hf.1 hbad).1,(hf.1 hbad).2,?_⟩)
      rintro (h1 | ⟨b',hb',-,h1⟩)
      · cases (List.cons.inj h1).2
      · have he : a.toNat = 0xed := congrArg UInt8.toNat (List.cons.inj h1).1
        omega
    · have hr : r = _ := hf.2 hbad
      obtain ⟨c,hc,hv⟩ := char_two (a := a) (b := b) (by omega) hu
        ((tail_iff b).mpr (fun h => hbad (.inr h)))
      have hz : c.toNat ≠ 0 := by
        have := (tail_iff b).mpr (fun h => hbad (.inr h))
        omega
      refine .inl ⟨c,2,by omega,by simp,hc,?_,?_,?_⟩
      · rw [hr,if_neg hz]
        rfl
      · rw [hr,hv]
      · rw [hr]

theorem threeByte_scans (hl : 0xe0 ≤ a.toNat) (hu : a.toNat ≤ 0xef) :
    let r := threeByte (a :: s) (a :: s).length st a 1
    r.Takes (a :: s) ∨ r.Waits (a :: s) ∨ r.Fails (a :: s) := by
  match s with
  | [] =>
    intro r
    have hr : r = _ := threeByte_short h0
    refine .inr (.inl ?_)
    rw [hr]
    refine ⟨rfl,rfl,.one rfl (by dsimp only; omega) (by dsimp only; omega),.inl ?_⟩
    by_cases ha : a.toNat = 0xe0
    · obtain ⟨c,hc,-⟩ := char_three (a := a) (b := 0xa0) (d := 0x80) hl hu (by unfold Tail; decide)
        (by unfold Tail; decide) (fun _ => by decide) (by omega)
      exact incomplete_of_encode (l := [a]) hc (by simp)
    · obtain ⟨c,hc,-⟩ := char_three (a := a) (b := 0x80) (d := 0x80) hl hu (by unfold Tail; decide)
        (by unfold Tail; decide) (fun h => absurd h ha) (fun _ => by decide)
      exact incomplete_of_encode (l := [a]) hc (by simp)
  | [b] =>
    intro r
    have hf := threeByte_two h0 (a := a) (b := b) (s := [])
    by_cases hbad : badSecond a b
    · refine .inr (.inr ⟨(hf.1 hbad).1,(hf.1 hbad).2,?_⟩)
      rintro (h1 | ⟨b',hb',hb'',h1⟩)
      · cases (List.cons.inj h1).2
      · have ha : a.toNat = 0xed := congrArg UInt8.toNat (List.cons.inj h1).1
        have hb := (List.cons.inj (List.cons.inj h1).2).1
        subst hb
        unfold badSecond notTail at hbad
        omega
    · have hr : r = _ := hf.2 hbad
      refine .inr (.inl ?_)
      rw [hr]
      refine ⟨rfl,rfl,.two rfl hl (by dsimp only; omega) (fun _ => hbad)
        (fun h => absurd h (by dsimp only; omega)),?_⟩
      unfold badSecond notTail at hbad
      by_cases hlate : a.toNat = 0xed ∧ 0xa0 ≤ b.toNat
      · refine .inr (.inr ⟨b,hlate.2,by omega,?_⟩)
        rw [UInt8.toNat_inj.mp (show a.toNat = (0xed : UInt8).toNat from hlate.1)]
      · obtain ⟨c,hc,-⟩ := char_three (a := a) (b := b) (d := 0x80) hl hu (by unfold Tail; omega)
          (by unfold Tail; decide) (by omega) (by omega)
        exact .inl (incomplete_of_encode (l := [a,b]) hc (by simp))
  | b :: d :: s =>
    intro r
    have hf := threeByte_full h0 (a := a) (b := b) (d := d) (s := s) (n := (a :: b :: d :: s).length) (by simp)
    by_cases hbad : badSecond a b ∨ notTail d ∨
        (0xd800 ≤ a.toNat % 16 * 4096 + b.toNat % 64 * 64 + d.toNat % 64 ∧
          a.toNat % 16 * 4096 + b.toNat % 64 * 64 + d.toNat % 64 ≤ 0xdfff)
    · exact .inr (.inr ⟨(hf.1 hbad).1,(hf.1 hbad).2,not_late_long⟩)
    · have hr : r = _ := hf.2 hbad
      unfold badSecond notTail at hbad
      obtain ⟨c,hc,hv⟩ := char_three (a := a) (b := b) (d := d) hl hu (by unfold Tail; omega)
        (by unfold Tail; omega) (by omega) (by omega)
      refine .inl ⟨c,3,by omega,by simp,hc,?_,?_,?_⟩
      · rw [hr,if_neg (by omega)]
        rfl
      · rw [hr,hv]
      · rw [hr]

theorem fourByte_scans (hl : 0xf0 ≤ a.toNat) (hu : a.toNat ≤ 0xf4) :
    let r := fourByte (a :: s) (a :: s).length st a 1
    r.Takes (a :: s) ∨ r.Waits (a :: s) ∨ r.Fails (a :: s) := by
  have hnl : ∀ l, ¬Late (a :: l) := fun l => not_late (by omega) (by omega)
  match s with
  | [] =>
    intro r
    have hr : r = _ := fourByte_short h0
    refine .inr (.inl ?_)
    rw [hr]
    refine ⟨rfl,rfl,.one rfl (by dsimp only; omega) (by dsimp only; omega),.inl ?_⟩
    by_cases ha : a.toNat = 0xf0
    · obtain ⟨c,hc,-⟩ := char_four (a := a) (b := 0x90) (d := 0x80) (e := 0x80) hl hu
        (by unfold Tail; decide) (by unfold Tail; decide) (by unfold Tail; decide) (fun _ => by decide)
        (by omega)
      exact incomplete_of_encode (l := [a]) hc (by simp)
    · obtain ⟨c,hc,-⟩ := char_four (a := a) (b := 0x80) (d := 0x80) (e := 0x80) hl hu
        (by unfold Tail; decide) (by unfold Tail; decide) (by unfold Tail; decide) (fun h => absurd h ha)
        (fun _ => by decide)
      exact incomplete_of_encode (l := [a]) hc (by simp)
  | [b] =>
    intro r
    have hf := fourByte_two h0 (a := a) (b := b) (s := [])
    by_cases hbad : badFourth a b
    · exact .inr (.inr ⟨(hf.1 hbad).1,(hf.1 hbad).2,hnl _⟩)
    · have hr : r = _ := hf.2 hbad
      have hgood := hbad
      unfold badFourth notTail at hbad
      obtain ⟨c,hc,-⟩ := char_four (a := a) (b := b) (d := 0x80) (e := 0x80) hl hu
        (by unfold Tail; omega) (by unfold Tail; decide) (by unfold Tail; decide) (by omega) (by omega)
      refine .inr (.inl ?_)
      rw [hr]
      exact ⟨rfl,rfl,.two rfl (by dsimp only; omega) hu (fun h => absurd h (by dsimp only; omega))
        (fun _ => hgood),.inl (incomplete_of_encode (l := [a,b]) hc (by simp))⟩
  | [b,d] =>
    intro r
    have hf := fourByte_three h0 (a := a) (b := b) (d := d) (s := [])
    by_cases hbad : badFourth a b ∨ notTail d
    · exact .inr (.inr ⟨(hf.1 hbad).1,(hf.1 hbad).2,hnl _⟩)
    · have hr : r = _ := hf.2 hbad
      have hgood := hbad
      unfold badFourth notTail at hbad
      obtain ⟨c,hc,-⟩ := char_four (a := a) (b := b) (d := d) (e := 0x80) hl hu
        (by unfold Tail; omega) (by unfold Tail; omega) (by unfold Tail; decide) (by omega) (by omega)
      refine .inr (.inl ?_)
      rw [hr]
      exact ⟨rfl,rfl,.three rfl hl hu (fun h => hgood (.inl h)) (fun h => hgood (.inr h)),
        .inl (incomplete_of_encode (l := [a,b,d]) hc (by simp))⟩
  | b :: d :: e :: s =>
    intro r
    have hf := fourByte_full h0 (a := a) (b := b) (d := d) (e := e) (s := s)
      (n := (a :: b :: d :: e :: s).length) (by simp)
    by_cases hbad : badFourth a b ∨ notTail d ∨ notTail e
    · exact .inr (.inr ⟨(hf.1 hbad).1,(hf.1 hbad).2,hnl _⟩)
    · have hr : r = _ := hf.2 hbad
      unfold badFourth notTail at hbad
      obtain ⟨c,hc,hv⟩ := char_four (a := a) (b := b) (d := d) (e := e) hl hu (by unfold Tail; omega)
        (by unfold Tail; omega) (by unfold Tail; omega) (by omega) (by omega)
      refine .inl ⟨c,4,by omega,by simp,hc,?_,?_,?_⟩
      · rw [hr,if_neg (by omega)]
        rfl
      · rw [hr,hv]
      · rw [hr]

theorem mbtowc_scans : let r := utf8Mbtowc (a :: s) (a :: s).length st
    r.Takes (a :: s) ∨ r.Waits (a :: s) ∨ r.Fails (a :: s) := by
  by_cases ha : a.toNat ≤ 0x7f
  · obtain ⟨c,hc,hv⟩ := char_one ha
    refine .inl ⟨c,1,by omega,by simp,hc,?_,?_,?_⟩
    · rw [mbtowc_ascii h0 (by simp) ha,hv]
      rfl
    · rw [mbtowc_ascii h0 (by simp) ha,hv]
    · rw [mbtowc_ascii h0 (by simp) ha]
  · dsimp only
    rw [mbtowc_lead h0 (by simp) (by omega)]
    split_ifs with h1 h2 h3 h4
    · exact .inr (.inr ⟨rfl,rfl,not_late (by omega) (by omega)⟩)
    · exact twoByte_scans h0 (by omega) h1.2
    · exact threeByte_scans h0 h3.1 h3.2
    · exact fourByte_scans h0 h4.1 h4.2
    · exact .inr (.inr ⟨rfl,rfl,not_late (by omega) (by omega)⟩)

end

end Multibyte
