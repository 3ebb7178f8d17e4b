import Mathlib
import Picolibc.Multibyte.Decode

namespace Multibyte

open Ascii Utf8

section

variable {st : Mbstate} (s : List UInt8) {n : Nat} (hn : 0 < n)

include hn

theorem mbtowc_saved (h : st.count ≠ 0) (ha : 0x7f < st.b0.toNat) :
    utf8Mbtowc s n st =
      if 0xc0 ≤ st.b0.toNat ∧ st.b0.toNat ≤ 0xdf then
        if st.b0.toNat = 0xc0 then ⟨st,-1,none⟩ else twoByte s n st st.b0 0
      else if 0xe0 ≤ st.b0.toNat ∧ st.b0.toNat ≤ 0xef then threeByte s n st st.b0 0
      else if 0xf0 ≤ st.b0.toNat ∧ st.b0.toNat ≤ 0xf4 then fourByte s n st st.b0 0
      else ⟨st,-1,none⟩ := by
  unfold utf8Mbtowc
  simp only [h,if_false]
  rw [if_neg (by omega),if_neg (by omega),if_neg (by omega)]

theorem mbtowc_resume_one (h : st.count = 1) (hl : 0xc0 < st.b0.toNat) (hu : st.b0.toNat ≤ 0xf4) :
    utf8Mbtowc s n st = (utf8Mbtowc (st.b0 :: s) (n + 1) { st with count := 0 }).shift 1 := by
  have h2 : ¬bump n < 2 := by
    rw [bump_lt n (by omega)]
    omega
  have h3 : bump n < 3 ↔ n + 1 < 3 := by
    rw [bump_lt n (by omega)]
    omega
  have h4 : bump n < 4 ↔ n + 1 < 4 := by
    rw [bump_lt n (by omega)]
    omega
  have h5 : ¬n + 1 < 2 := by omega
  have e1 : charAt (st.b0 :: s) 1 = charAt s 0 := charAt_succ _ _ _
  have e2 : charAt (st.b0 :: s) 2 = charAt s 1 := charAt_succ _ _ _
  have e3 : charAt (st.b0 :: s) 3 = charAt s 2 := charAt_succ _ _ _
  rw [mbtowc_saved s hn (by omega) (by omega),mbtowc_lead rfl (by omega) (by omega)]
  split_ifs with c1 c2 c3 c4
  · omega
  · simp only [twoByte,h,h2,h5,e1,if_true,if_false,Nat.one_ne_zero]
    split_ifs <;> simp [Conv.shift]
  · simp only [threeByte,h,h2,h3,h5,e1,e2,if_true,if_false,Nat.succ_ne_zero]
    split_ifs <;> simp [Conv.shift]
  · simp only [fourByte,h,h2,h3,h4,h5,e1,e2,e3,if_true,if_false,Nat.succ_ne_zero]
    split_ifs <;> simp [Conv.shift]
  · omega

theorem mbtowc_resume_two (h : st.count = 2) (hl : 0xe0 ≤ st.b0.toNat) (hu : st.b0.toNat ≤ 0xf4)
    (hs : st.b0.toNat ≤ 0xef → ¬badSecond st.b0 st.b1) (hf : 0xf0 ≤ st.b0.toNat → ¬badFourth st.b0 st.b1) :
    utf8Mbtowc s n st = (utf8Mbtowc (st.b0 :: st.b1 :: s) (n + 2) { st with count := 0 }).shift 2 := by
  have h2 : ¬bump n < 2 := by
    rw [bump_lt n (by omega)]
    omega
  have h3 : ¬bump (bump n) < 3 := by
    rw [bump_lt (bump n) (by omega),bump_lt n (by omega)]
    omega
  have h4 : bump (bump n) < 4 ↔ n + 2 < 4 := by
    rw [bump_lt (bump n) (by omega),bump_lt n (by omega)]
    omega
  have h5 : ¬n + 2 < 2 := by omega
  have h6 : ¬n + 2 < 3 := by omega
  have e2 : charAt (st.b0 :: st.b1 :: s) 2 = charAt s 0 := by rw [charAt_succ,charAt_succ]
  have e3 : charAt (st.b0 :: st.b1 :: s) 3 = charAt s 1 := by rw [charAt_succ,charAt_succ]
  rw [mbtowc_saved s hn (by omega) (by omega),mbtowc_lead rfl (by omega) (by omega)]
  split_ifs with c1 c2 c3 c4
  · omega
  · omega
  · have hg := hs c3.2
    have g1 : ¬(st.b0.toNat = 0xe0 ∧ st.b1.toNat < 0xa0) := fun h => hg (.inl h)
    have g2 : ¬notTail st.b1 := fun h => hg (.inr h)
    simp only [threeByte,h,h2,h3,h5,h6,g1,g2,e2,charAt_cons_one,if_true,if_false,OfNat.ofNat_ne_zero,
      OfNat.ofNat_ne_one]
    split_ifs <;> simp [Conv.shift]
  · have hg := hf c4.1
    have g1 : ¬((st.b0.toNat = 0xf0 ∧ st.b1.toNat < 0x90) ∨ (st.b0.toNat = 0xf4 ∧ 0x90 ≤ st.b1.toNat)) :=
      fun h => hg (.inl h)
    have g2 : ¬notTail st.b1 := fun h => hg (.inr h)
    simp only [fourByte,h,h2,h3,h4,h5,h6,g1,g2,e2,e3,charAt_cons_one,if_true,if_false,OfNat.ofNat_ne_zero,
      OfNat.ofNat_ne_one]
    split_ifs <;> simp [Conv.shift]
  · omega

theorem mbtowc_resume_three (h : st.count = 3) (hl : 0xf0 ≤ st.b0.toNat) (hu : st.b0.toNat ≤ 0xf4)
    (hf : ¬badFourth st.b0 st.b1) (ht : ¬notTail st.b2) :
    utf8Mbtowc s n st =
      (utf8Mbtowc (st.b0 :: st.b1 :: st.b2 :: s) (n + 3) { st with count := 0 }).shift 3 := by
  have h2 : ¬bump n < 2 := by
    rw [bump_lt n (by omega)]
    omega
  have h3 : ¬bump (bump n) < 3 := by
    rw [bump_lt (bump n) (by omega),bump_lt n (by omega)]
    omega
  have h4 : ¬bump (bump (bump n)) < 4 := by
    rw [bump_lt (bump (bump n)) (by omega),bump_lt (bump n) (by omega),bump_lt n (by omega)]
    omega
  have h5 : ¬n + 3 < 2 := by omega
  have h6 : ¬n + 3 < 3 := by omega
  have h7 : ¬n + 3 < 4 := by omega
  have e3 : charAt (st.b0 :: st.b1 :: st.b2 :: s) 3 = charAt s 0 := by
    rw [charAt_succ,charAt_succ,charAt_succ]
  have g1 : ¬((st.b0.toNat = 0xf0 ∧ st.b1.toNat < 0x90) ∨ (st.b0.toNat = 0xf4 ∧ 0x90 ≤ st.b1.toNat)) :=
    fun h => hf (.inl h)
  have g2 : ¬notTail st.b1 := fun h => hf (.inr h)
  rw [mbtowc_saved s hn (by omega) (by omega),mbtowc_lead rfl (by omega) (by omega)]
  split_ifs with c1 c2 c3 c4
  · omega
  · omega
  · omega
  · simp only [fourByte,h,h2,h3,h4,h5,h6,h7,g1,g2,ht,e3,charAt_cons_one,charAt_cons_two,if_true,if_false,
      OfNat.ofNat_ne_zero,OfNat.ofNat_ne_one,show (3 : Nat) ≠ 2 by decide,Nat.reduceAdd]
    split_ifs <;> simp [Conv.shift]
  · omega

theorem mbtowc_resume {p : List UInt8} (hp : Holds st p) :
    utf8Mbtowc s n st = (utf8Mbtowc (p ++ s) (n + p.length) { st with count := 0 }).shift p.length := by
  cases hp with
  | none h =>
    have he : ({ st with count := 0 } : Mbstate) = st := by rw [← h]
    rw [he,List.nil_append,List.length_nil,Nat.add_zero]
    simp [Conv.shift]
  | one h hl hu => exact mbtowc_resume_one s hn h hl hu
  | two h hl hu hs hf => exact mbtowc_resume_two s hn h hl hu hs hf
  | three h hl hu hf ht => exact mbtowc_resume_three s hn h hl hu hf ht

end

theorem encode_lead {c : Char} {a : UInt8} {s q : List UInt8} (h : encode c ++ q = a :: s) :
    (a.toNat ≤ 0x7f ∧ (encode c).length = 1) ∨
    (0xc2 ≤ a.toNat ∧ a.toNat ≤ 0xdf ∧ (encode c).length = 2) ∨
    (0xe0 ≤ a.toNat ∧ a.toNat ≤ 0xef ∧ (encode c).length = 3) ∨
    (0xf0 ≤ a.toNat ∧ a.toNat ≤ 0xf4 ∧ (encode c).length = 4) := by
  have hc := toNat_valid c
  cases shape c with
  | one he ha hv =>
    rw [he] at h
    obtain ⟨rfl,-⟩ := List.cons.inj h
    exact .inl ⟨by omega,by rw [he]; rfl⟩
  | two he ha hb hl hv =>
    rw [he] at h
    obtain ⟨rfl,-⟩ := List.cons.inj h
    exact .inr (.inl ⟨by omega,by omega,by rw [he]; rfl⟩)
  | three he ha hb hd hl hv =>
    rw [he] at h
    obtain ⟨rfl,-⟩ := List.cons.inj h
    exact .inr (.inr (.inl ⟨by omega,by omega,by rw [he]; rfl⟩))
  | four he ha hb hd he' hl =>
    rw [he] at h
    obtain ⟨rfl,-⟩ := List.cons.inj h
    exact .inr (.inr (.inr ⟨by omega,by omega,by rw [he]; rfl⟩))

theorem holds_short {st : Mbstate} {p : List UInt8} (hp : Holds st p) (c : Char) (q : List UInt8) :
    encode c ++ q ≠ p := by
  intro h
  cases hp with
  | none h0 =>
    exact encode_ne_nil c (List.append_eq_nil_iff.mp h).1
  | one h0 hl hu =>
    have hlen := congrArg List.length h
    rw [List.length_append] at hlen
    rcases encode_lead h with h1 | h1 | h1 | h1
    all_goals simp only [List.length_cons,List.length_nil] at hlen; omega
  | two h0 hl hu hs hf =>
    have hlen := congrArg List.length h
    rw [List.length_append] at hlen
    rcases encode_lead h with h1 | h1 | h1 | h1
    all_goals simp only [List.length_cons,List.length_nil] at hlen; omega
  | three h0 hl hu hf ht =>
    have hlen := congrArg List.length h
    rw [List.length_append] at hlen
    rcases encode_lead h with h1 | h1 | h1 | h1
    all_goals simp only [List.length_cons,List.length_nil] at hlen; omega

theorem late_hopeless {l : List UInt8} (h : Late l) : Hopeless l := by
  intro c
  constructor
  · rintro ⟨q,hq⟩
    rcases h with rfl | ⟨b,h1,h2,rfl⟩
    · have hlead := encode_lead hq
      have ha : (0xc1 : UInt8).toNat = 0xc1 := rfl
      omega
    · have hlead := encode_lead hq
      have ha : (0xed : UInt8).toNat = 0xed := rfl
      have hlen := congrArg List.length hq
      simp only [List.length_append,List.length_cons,List.length_nil] at hlen
      omega
  · rintro ⟨q,hq⟩
    rcases h with rfl | ⟨b,h1,h2,rfl⟩
    · have hlead := encode_lead (q := []) (s := q) ((List.append_nil _).trans hq.symm)
      have ha : (0xc1 : UInt8).toNat = 0xc1 := rfl
      omega
    · have hlead := encode_lead (q := []) (s := b :: q) ((List.append_nil _).trans hq.symm)
      have ha : (0xed : UInt8).toNat = 0xed := rfl
      have hc := toNat_valid c
      cases shape c with
      | one he ha hv => simp [he] at hlead
      | two he ha hb hl hv => simp [he] at hlead
      | three he ha' hb hd hl hv =>
        rw [he] at hq
        obtain ⟨hx,hq'⟩ := List.cons.inj hq
        obtain ⟨rfl,-⟩ := List.cons.inj hq'
        rw [← hx] at ha'
        omega
      | four he ha hb hd he' hl => simp [he] at hlead

theorem hopeless_not_incomplete {l : List UInt8} (h : Hopeless l) : ¬Incomplete l := by
  rintro ⟨c,hc,-⟩
  exact (h c).2 hc

theorem mbtowc_incomplete {st : Mbstate} (h0 : st.count = 0) {l : List UInt8} (hl : l ≠ [])
    (h : Incomplete l) : (utf8Mbtowc l l.length st).ret = -2 := by
  obtain ⟨c,hc,hne⟩ := h
  have hlen : l.length < (encode c).length := by
    apply Nat.lt_of_le_of_ne hc.length_le
    intro he
    exact hne (hc.eq_of_length he)
  obtain ⟨st',hr,-⟩ := mbtowc_partial h0 c (List.length_pos_iff.mpr hl) hlen []
  rw [List.append_nil,← List.prefix_iff_eq_take.mp hc] at hr
  rw [hr]

theorem mbtowc_prefix {st : Mbstate} (h0 : st.count = 0) {l : List UInt8} {c : Char}
    (h : encode c <+: l) : 0 ≤ (utf8Mbtowc l l.length st).ret := by
  have hlen := h.length_le
  obtain ⟨q,rfl⟩ := h
  obtain ⟨st',hr,-⟩ := mbtowc_complete h0 c q hlen
  rw [hr]
  dsimp only
  split_ifs <;> omega

theorem mbtowc_fails {st : Mbstate} (h0 : st.count = 0) {l : List UInt8} (hl : l ≠ [])
    (h : (utf8Mbtowc l l.length st).ret = -1) : Hopeless l := by
  intro c
  constructor
  · intro hc
    have hr := mbtowc_prefix h0 hc
    omega
  · intro hc
    by_cases he : l = encode c
    · have hr := mbtowc_prefix (l := l) h0 (c := c) (by rw [he])
      omega
    · have hr := mbtowc_incomplete h0 hl ⟨c,hc,he⟩
      omega

inductive Answer (p s : List UInt8) (r : Result) : Prop
  | takes (c : Char) (k : Nat) (hk : 0 < k) (hks : k ≤ s.length) (he : encode c = p ++ s.take k)
      (hr : r.conv.ret = if c.toNat = 0 then 0 else (k : Int)) (hw : r.conv.wc = some c.toNat)
      (hs : r.conv.state.count = 0) (hq : r.eilseq = false)
  | waits (hr : r.conv.ret = -2) (hw : r.conv.wc = none) (hs : Holds r.conv.state (p ++ s))
      (hi : Incomplete (p ++ s) ∨ Late (p ++ s)) (hq : r.eilseq = false)
  | fails (hr : r.conv.ret = -1) (hw : r.conv.wc = none) (hs : Hopeless (p ++ s))
      (hl : ¬Late (p ++ s)) (hq : r.eilseq = true)

theorem mbrtowc_answers {st : Mbstate} {p s : List UInt8} (hp : Holds st p) (hs : s ≠ []) :
    Answer p s (mbrtowc (some s) s.length st) := by
  have hlen := List.length_pos_iff.mpr hs
  have hne : p ++ s ≠ [] := fun h => hs (List.append_eq_nil_iff.mp h).2
  have hre := mbtowc_resume s hlen hp
  rw [Nat.add_comm,← List.length_append] at hre
  obtain ⟨a,t,hat⟩ := List.exists_cons_of_ne_nil hne
  have h0 : ({ st with count := 0 } : Mbstate).count = 0 := rfl
  have hscan := mbtowc_scans h0 (a := a) (s := t)
  rw [← hat] at hscan
  have hfail := mbtowc_fails h0 hne
  generalize utf8Mbtowc (p ++ s) (p ++ s).length { st with count := 0 } = r at hre hscan hfail
  unfold mbrtowc
  dsimp only
  rw [hre]
  rcases hscan with ⟨c,k,hk,hkl,he,hr,hw,hc⟩ | ⟨hr,hw,hh,hi⟩ | ⟨hr,hw,hl⟩
  · have hgt : p.length < k := by
      by_contra hle
      refine holds_short hp c (p.drop k) ?_
      rw [he,List.take_append_of_le_length (by omega),List.take_append_drop]
    rw [List.length_append] at hkl
    have hek : encode c = p ++ s.take (k - p.length) := by
      rw [he,List.take_append,List.take_of_length_le (by omega)]
    have hsh : (r.shift p.length).ret = if c.toNat = 0 then 0 else ((k - p.length : Nat) : Int) := by
      by_cases hz : c.toNat = 0
      · simp [Conv.shift,hr,hz]
      · rw [if_neg hz] at hr ⊢
        simp only [Conv.shift,hr]
        rw [if_neg (by omega)]
        omega
    have hne1 : ¬(r.shift p.length).ret = -1 := by
      rw [hsh]
      by_cases hz : c.toNat = 0
      · rw [if_pos hz]
        decide
      · rw [if_neg hz]
        omega
    rw [if_neg hne1]
    exact .takes c (k - p.length) (by omega) (by omega) hek hsh hw hc rfl
  · have hsh : (r.shift p.length).ret = -2 := by simp [Conv.shift,hr]
    rw [hsh,if_neg (by decide)]
    exact .waits hsh hw hh hi rfl
  · have hsh : (r.shift p.length).ret = -1 := by simp [Conv.shift,hr]
    rw [if_pos hsh]
    exact .fails hsh hw (hfail hr) hl rfl

end Multibyte
