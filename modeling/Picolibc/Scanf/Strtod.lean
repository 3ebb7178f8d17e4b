import Mathlib
import Picolibc.Scanf.Walk

open Ascii Strtoi Scanf.Grammar

namespace Scanf

def strtox (b : Build) (signed : Bool) (fuel : Nat) (str : List UInt8) : Option (Reading Nat) :=
  convFlt b (chars signed str) fuel (BitVec.ofNat 32 0x7fffffff) (str.takeWhile isspace).length

def endptr (r : Reading Nat) : Nat := if r.value.isSome then r.stream else 0

def strtodEnd (signed : Bool) (str : List UInt8) : Option Nat :=
  (strtox Build.strtod signed (str.length + 1) str).map endptr

section

variable {signed : Bool} {str : List UInt8} {b : Build}

inductive Misread (signed : Bool) : List UInt8 → Prop where
  | unclosed {l : List UInt8} : (l.take 3).map fold = nanText → (l.drop 3).head? = some 0x28 →
      ((l.drop 3).tail.dropWhile isNchar).head? ≠ some 0x29 → Misread signed l
  | truncated {l : List UInt8} : (l.take 4).map fold = infinityText.take 4 → (l.take 8).map fold ≠ infinityText →
      Misread signed l
  | high {l : List UInt8} {c : UInt8} : signed = true → (l.take 3).map fold = infText → (l.drop 3).head? = some c →
      0x80 ≤ c → Misread signed l
  | pointBefore {x c : UInt8} {r : List UInt8} : fold x = 0x78 → wideHex c = true →
      Misread signed (0x30 :: 0x2e :: x :: c :: r)
  | pointAfter {x c : UInt8} {r : List UInt8} : fold x = 0x78 → wideHex c = true →
      Misread signed (0x2e :: 0x30 :: x :: c :: r)
  | bare {x : UInt8} {r : List UInt8} : fold x = 0x78 → (∀ c ∈ r.head?, wideHex c = false) →
      Misread signed (0x30 :: x :: 0x2e :: r)
  | colon {x c : UInt8} {hs r : List UInt8} : fold x = 0x78 → (∀ d ∈ hs, isHex d = true) → 0x3a ≤ c ∧ c ≤ 0x3f →
      Misread signed (0x30 :: x :: (hs ++ c :: r))
  | fractionColon {x c : UInt8} {hs fs r : List UInt8} : fold x = 0x78 → (∀ d ∈ hs ++ fs, isHex d = true) →
      0x3a ≤ c ∧ c ≤ 0x3f → Misread signed (0x30 :: x :: (hs ++ 0x2e :: (fs ++ c :: r)))

structure Exact (pos : Nat) (l : List UInt8) (r : Reading Nat) : Prop where
  accepted : r.value.isSome = true ↔ subjectLen l ≠ 0
  reached : subjectLen l ≠ 0 → r.stream = pos + subjectLen l

structure Wrong (pos : Nat) (l : List UInt8) (r : Reading Nat) : Prop where
  subject : subjectLen l ≠ 0
  missed : r.value = none ∨ r.stream ≠ pos + subjectLen l

def Settled (signed : Bool) (pos : Nat) (l : List UInt8) (r : Reading Nat) : Prop :=
  (Misread signed l ∧ Wrong pos l r) ∨ (¬Misread signed l ∧ Exact pos l r)

theorem word_letters : (∀ c ∈ pstrAn, c ∈ letters) ∧ ∀ c ∈ pstrNfinity.drop 3, c ∈ letters := by
  simp [pstrAn,pstrNfinity,letters]

theorem take_head {l w : List UInt8} {c : UInt8} {k : Nat} (h : (l.take k).map fold = c :: w) :
    l.head?.map fold = some c := by
  cases l with
  | nil => exact absurd h (by simp)
  | cons d l =>
    cases k with
    | zero => exact absurd h (by simp)
    | succ k => exact congrArg some (List.cons.inj h).1

theorem misread_nan {l : List UInt8} (hhead : l.head?.map fold = some 0x6e) :
    Misread signed l ↔ (l.take 3).map fold = nanText ∧ (l.drop 3).head? = some 0x28 ∧
      ((l.drop 3).tail.dropWhile isNchar).head? ≠ some 0x29 := by
  constructor
  · intro h
    cases h with
    | unclosed hnan hopen hclose => exact ⟨hnan,hopen,hclose⟩
    | truncated hinf _ => exact absurd (hhead.symm.trans (take_head hinf)) (by decide)
    | high _ hinf _ _ => exact absurd (hhead.symm.trans (take_head hinf)) (by decide)
    | pointBefore | pointAfter | bare | colon | fractionColon => exact absurd (Option.some.inj hhead) (by decide)
  · exact fun h => .unclosed h.1 h.2.1 h.2.2

theorem misread_inf {l : List UInt8} (hhead : l.head?.map fold = some 0x69) :
    Misread signed l ↔ (l.take 4).map fold = infinityText.take 4 ∧ (l.take 8).map fold ≠ infinityText ∨
      (l.take 3).map fold = infText ∧ signed = true ∧ ∃ c, (l.drop 3).head? = some c ∧ 0x80 ≤ c := by
  constructor
  · intro h
    cases h with
    | unclosed hnan _ _ => exact absurd (hhead.symm.trans (take_head hnan)) (by decide)
    | truncated hinf hlong => exact .inl ⟨hinf,hlong⟩
    | high hsigned hinf hc hhigh => exact .inr ⟨hinf,hsigned,_,hc,hhigh⟩
    | pointBefore | pointAfter | bare | colon | fractionColon => exact absurd (Option.some.inj hhead) (by decide)
  · rintro (⟨hinf,hlong⟩ | ⟨hinf,hsigned,c,hc,hhigh⟩)
    · exact .truncated hinf hlong
    · exact .high hsigned hinf hc hhigh

theorem misread_number {l : List UInt8} (hn : l.head?.map fold ≠ some 0x6e) (hi : l.head?.map fold ≠ some 0x69)
    (h : Misread signed l) : Acc.Switch l := by
  cases h with
  | unclosed hnan _ _ => exact absurd (take_head hnan) hn
  | truncated hinf _ => exact absurd (take_head hinf) hi
  | high _ hinf _ _ => exact absurd (take_head hinf) hi
  | pointBefore hx _ => exact .before hx
  | pointAfter hx _ => exact .after hx
  | bare hx _ => exact .whole hx
  | colon hx _ _ => exact .whole hx
  | fractionColon hx _ _ => exact .whole hx

theorem map_take_cons {c d : UInt8} {l w : List UInt8} (k : Nat) (hc : fold c = d) :
    ((c :: l).take (k + 1)).map fold = d :: w ↔ (l.take k).map fold = w := by
  rw [List.take_succ_cons,List.map_cons,hc]
  exact ⟨fun h => (List.cons.inj h).2,fun h => by rw [h]⟩

theorem subject_nan (hb : b.strto = true) (width : BitVec 32) (minus : Bool) {l : List UInt8} {pos fuel : Nat}
    (hl : str.drop pos = l) (hfuel : l.length < fuel) (hhead : l.head?.map fold = some 0x6e) :
    ∃ r, subject b (chars signed str) fuel minus (next signed l) width (pos + 1) = some r ∧ Settled signed pos l r := by
  have hlower := (@next_letter signed 0x6e (by decide) l).mpr hhead
  cases l with
  | nil => exact absurd hhead (by simp)
  | cons c l =>
    have hc : fold c = 0x6e := Option.some.inj hhead
    have hdrop := drop_succ hl
    obtain ⟨hiff,hcount⟩ := @pstrRun_plain signed pstrAn word_letters.1 (by decide) l
    have hnan : ((c :: l).take 3).map fold = nanText ↔ (l.take 2).map fold = pstrAn := map_take_cons 2 hc
    have hword : subjectLen (c :: l) = wordLen (c :: l) := word_number rfl (.inr hc)
    have hinf : ((c :: l).take 3).map fold ≠ infText := fun h => absurd (hhead.symm.trans (take_head h)) (by decide)
    have hinfinity : ((c :: l).take 8).map fold ≠ infinityText :=
      fun h => absurd (hhead.symm.trans (take_head h)) (by decide)
    unfold subject
    rw [if_pos hlower]
    dsimp only
    rw [operatePstr_run hb width hdrop]
    unfold Settled
    rw [misread_nan hhead]
    by_cases hmatch : (pstrRun signed pstrAn l).1 = true
    · have htext := hnan.mpr (hiff.mp hmatch)
      have hlen : subjectLen (c :: l) = nanLen (l.drop 2) := by
        rw [hword,wordLen,if_neg hinfinity,if_neg hinf,if_pos htext]
        rfl
      have hthree := three_le_nanLen (l.drop 2)
      obtain ⟨r,hr,hclosed,hreach⟩ := @nanSuffix_spec signed str b hb width (l.drop 2) (pos + 1 + 2) fuel
        (by rw [← List.drop_drop,hdrop]) (by rw [List.length_drop]; simp at hfuel; omega)
      rw [if_pos hmatch,hcount hmatch]
      dsimp only
      change ∃ r, (nanSuffix b (chars signed str) fuel width (pos + 1 + 2)).map _ = some r ∧ _
      rw [hr,Option.map_some]
      refine ⟨_,rfl,?_⟩
      have htail : (c :: l).drop 3 = l.drop 2 := rfl
      rw [htail]
      by_cases hok : r.1 = true
      · right
        have hnot := hclosed.mp hok
        refine ⟨fun h => h.2.2 (hnot h.2.1),?_,fun _ => ?_⟩
        · rw [if_pos hok]
          exact ⟨fun _ => by omega,fun _ => rfl⟩
        · have hend := hreach hok
          dsimp only
          omega
      · left
        have hnot := hok
        rw [hclosed] at hnot
        push Not at hnot
        exact ⟨⟨htext,hnot.1,hnot.2⟩,by omega,.inl (if_neg hok)⟩
    · have htext : ¬((c :: l).take 3).map fold = nanText := fun h => hmatch (hiff.mpr (hnan.mp h))
      have hlen : subjectLen (c :: l) = 0 := by
        rw [hword,wordLen,if_neg hinfinity,if_neg hinf,if_neg htext]
      rw [if_neg hmatch]
      exact ⟨_,rfl,.inr ⟨fun h => htext h.1,⟨fun h => Bool.noConfusion h,fun h => absurd hlen h⟩,fun h => absurd hlen h⟩⟩

theorem pstrRun_step {c : UInt8} (p : List UInt8) {l : List UInt8} (hc : c ∈ letters) (h : l.head?.map fold = some c) :
    pstrRun signed (c :: p) l = ((pstrRun signed p l.tail).1,(pstrRun signed p l.tail).2 + 1) :=
  if_pos ((next_letter hc l).mpr h)

theorem pstrRun_mismatch {c : UInt8} (p : List UInt8) {l : List UInt8} (hc : c ∈ letters) (h : l.head?.map fold ≠ some c) :
    pstrRun signed (c :: p) l = (decide (p = pstrNfinity.drop 3),if next signed l = none then 1 else 0) :=
  if_neg fun hnext => h ((next_letter hc l).mp hnext)

theorem take_cons_iff (l w : List UInt8) (c : UInt8) (k : Nat) :
    (l.take (k + 1)).map fold = c :: w ↔ l.head?.map fold = some c ∧ (l.tail.take k).map fold = w := by
  cases l with
  | nil => simp
  | cons d l =>
    rw [List.take_succ_cons,List.map_cons,List.cons.injEq,List.head?_cons,Option.map_some,Option.some.injEq,List.tail_cons]

theorem map_take_add (m n : Nat) (l : List UInt8) {w : List UInt8} :
    (l.take (m + n)).map fold = w ↔ (l.take m).map fold = w.take m ∧ ((l.drop m).take n).map fold = w.drop m := by
  constructor
  · rintro rfl
    rw [← List.map_take,← List.map_drop,List.take_take,Nat.min_eq_left (Nat.le_add_right m n),List.drop_take,
      Nat.add_sub_cancel_left]
    exact ⟨rfl,rfl⟩
  · rintro ⟨hleft,hright⟩
    rw [List.take_add,List.map_append,hleft,hright,List.take_append_drop]

theorem inf_stops {l : List UInt8} (h : ¬(l.take 2).map fold = pstrNfinity.take 2) :
    (pstrRun signed pstrNfinity l).1 = false := by
  by_cases hn : l.head?.map fold = some 0x6e
  · have hf : l.tail.head?.map fold ≠ some 0x66 := by
      intro hf
      refine h ((take_cons_iff l _ _ 1).mpr ⟨hn,(take_cons_iff l.tail _ _ 0).mpr ⟨hf,?_⟩⟩)
      rfl
    rw [pstrNfinity,pstrRun_step _ (by decide) hn,pstrRun_mismatch _ (by decide) hf]
    rfl
  · rw [pstrNfinity,pstrRun_mismatch _ (by decide) hn]
    rfl

theorem inf_continues {l : List UInt8} (h : (l.take 2).map fold = pstrNfinity.take 2) :
    pstrRun signed pstrNfinity l = ((pstrRun signed (pstrNfinity.drop 2) (l.drop 2)).1,
      (pstrRun signed (pstrNfinity.drop 2) (l.drop 2)).2 + 2) := by
  obtain ⟨hn,hrest⟩ := (take_cons_iff l _ _ 1).mp h
  obtain ⟨hf,-⟩ := (take_cons_iff l.tail _ _ 0).mp hrest
  have hdrop : l.drop 2 = l.tail.tail := by rw [← List.drop_one,← List.drop_one,List.drop_drop]
  rw [pstrNfinity,pstrRun_step _ (by decide) hn,pstrRun_step _ (by decide) hf,hdrop]
  rfl

theorem subject_inf (hb : b.strto = true) (width : BitVec 32) (minus : Bool) {l : List UInt8} {pos fuel : Nat}
    (hl : str.drop pos = l) (hhead : l.head?.map fold = some 0x69) :
    ∃ r, subject b (chars signed str) fuel minus (next signed l) width (pos + 1) = some r ∧ Settled signed pos l r := by
  have hlower := (@next_letter signed 0x69 (by decide) l).mpr hhead
  have hn : (next signed l).map toLower ≠ some 0x6e := by
    rw [hlower]
    decide
  cases l with
  | nil => exact absurd hhead (by simp)
  | cons c l =>
    have hc : fold c = 0x69 := Option.some.inj hhead
    have hword : subjectLen (c :: l) = wordLen (c :: l) := word_number rfl (.inl hc)
    have hnan : ((c :: l).take 3).map fold ≠ nanText := fun h => absurd (hhead.symm.trans (take_head h)) (by decide)
    have hinf : ((c :: l).take 3).map fold = infText ↔ (l.take 2).map fold = pstrNfinity.take 2 := map_take_cons 2 hc
    have hlong : ((c :: l).take 8).map fold = infinityText ↔ (l.take 7).map fold = pstrNfinity := map_take_cons 7 hc
    have hfour : ((c :: l).take 4).map fold = infinityText.take 4 ↔ (l.take 3).map fold = pstrNfinity.take 3 :=
      map_take_cons 3 hc
    unfold subject
    rw [if_neg hn,if_pos hlower]
    dsimp only
    rw [operatePstr_run hb width (drop_succ hl)]
    unfold Settled
    rw [misread_inf hhead,ne_eq,hinf,hlong,hfour]
    refine ⟨_,rfl,?_⟩
    have hdrop : (c :: l).drop 3 = l.drop 2 := rfl
    rw [hdrop]
    have hsplit : (l.take 3).map fold = pstrNfinity.take 3 ↔
        (l.take 2).map fold = pstrNfinity.take 2 ∧ (l.drop 2).head?.map fold = some 0x69 := by
      rw [map_take_add 2 1 l,show (pstrNfinity.take 3).drop 2 = [0x69] from rfl,take_cons_iff]
      exact ⟨fun h => ⟨h.1,h.2.1⟩,fun h => ⟨h.1,h.2,rfl⟩⟩
    have hseven : (l.take 7).map fold = pstrNfinity ↔
        (l.take 3).map fold = pstrNfinity.take 3 ∧ ((l.drop 2).tail.take 4).map fold = pstrNfinity.drop 3 := by
      rw [map_take_add 3 4 l,← List.drop_one,List.drop_drop]
    by_cases hinf2 : (l.take 2).map fold = pstrNfinity.take 2
    · rw [inf_continues hinf2]
      by_cases hi : (l.drop 2).head?.map fold = some 0x69
      · have hthree := hsplit.mpr ⟨hinf2,hi⟩
        obtain ⟨hiff,hcount⟩ := @pstrRun_plain signed (pstrNfinity.drop 3) word_letters.2 (by decide) (l.drop 2).tail
        rw [show pstrNfinity.drop 2 = 0x69 :: pstrNfinity.drop 3 from rfl,pstrRun_step _ (by decide) hi]
        by_cases hfull : ((l.drop 2).tail.take 4).map fold = pstrNfinity.drop 3
        · have hlen : subjectLen (c :: l) = 8 := by
            rw [hword,wordLen,if_pos (hlong.mpr (hseven.mpr ⟨hthree,hfull⟩))]
          have hrun := hiff.mpr hfull
          right
          refine ⟨?_,?_,fun _ => ?_⟩
          · rintro (⟨-,hnot⟩ | ⟨-,-,d,hd,hhigh⟩)
            · exact hnot (hseven.mpr ⟨hthree,hfull⟩)
            · rw [hd] at hi
              have hlow := (letter_plain 0x69 (by decide) d ((Acc.lower_letter 0x69 (by decide) d).mpr (Option.some.inj hi))).1
              exact absurd hlow (UInt8.not_lt.mpr hhigh)
          · rw [hlen,if_pos hrun]
            exact ⟨fun _ => by decide,fun _ => rfl⟩
          · rw [hlen,hcount hrun]
            show pos + 1 + (4 + 1 + 2) = pos + 8
            omega
        · have hlen : subjectLen (c :: l) = 3 := by
            rw [hword,wordLen,if_neg fun h => hfull (hseven.mp (hlong.mp h)).2,if_pos (hinf.mpr hinf2)]
          exact .inl ⟨.inl ⟨hthree,fun h => hfull (hseven.mp h).2⟩,by omega,.inl (by rw [if_neg fun h => hfull (hiff.mp h)]; rfl)⟩
      · have hthree : ¬(l.take 3).map fold = pstrNfinity.take 3 := fun h => hi (hsplit.mp h).2
        have hlen : subjectLen (c :: l) = 3 := by
          rw [hword,wordLen,if_neg fun h => hthree (hseven.mp (hlong.mp h)).1,if_pos (hinf.mpr hinf2)]
        rw [show pstrNfinity.drop 2 = 0x69 :: pstrNfinity.drop 3 from rfl,pstrRun_mismatch _ (by decide) hi]
        by_cases heof : next signed (l.drop 2) = none
        · obtain ⟨hsigned,d,t,hd,hhigh⟩ := next_none heof
          left
          refine ⟨.inr ⟨hinf2,hsigned,d,by rw [hd]; rfl,hhigh⟩,by omega,.inr ?_⟩
          rw [hlen,if_pos heof]
          show pos + 1 + (1 + 2) ≠ pos + 3
          omega
        · right
          refine ⟨?_,?_,fun _ => ?_⟩
          · rintro (⟨h,-⟩ | ⟨-,hsigned,d,hd,hhigh⟩)
            · exact hthree h
            · cases hl2 : l.drop 2 with
              | nil => exact absurd hd (by simp [hl2])
              | cons e t =>
                rw [hl2] at hd heof
                obtain rfl := Option.some.inj hd
                exact heof (by rw [next_cons,hsigned,decide_eq_true hhigh]; rfl)
          · rw [hlen]
            exact ⟨fun _ => by decide,fun _ => rfl⟩
          · rw [hlen,if_neg heof]
            show pos + 1 + (0 + 2) = pos + 3
            omega
    · have hthree : ¬(l.take 3).map fold = pstrNfinity.take 3 := fun h => hinf2 (hsplit.mp h).1
      have hlen : subjectLen (c :: l) = 0 := by
        rw [hword,wordLen,if_neg fun h => hthree (hseven.mp (hlong.mp h)).1,if_neg fun h => hinf2 (hinf.mp h),if_neg hnan]
      rw [inf_stops hinf2]
      refine .inr ⟨?_,⟨fun h => Bool.noConfusion h,fun h => absurd hlen h⟩,fun h => absurd hlen h⟩
      rintro (⟨h,-⟩ | ⟨h,-⟩)
      · exact hthree h
      · exact hinf2 h

theorem wordLen_zero {l : List UInt8} (hn : l.head?.map fold ≠ some 0x6e) (hi : l.head?.map fold ≠ some 0x69) :
    wordLen l = 0 := by
  have hinfinity : (l.take 8).map fold ≠ infinityText := fun h => hi (take_head h)
  have hinf : (l.take 3).map fold ≠ infText := fun h => hi (take_head h)
  have hnan : (l.take 3).map fold ≠ nanText := fun h => hn (take_head h)
  rw [wordLen,if_neg hinfinity,if_neg hinf,if_neg hnan]

theorem hexLen_plain {l : List UInt8} (h : ¬Acc.Switch l) : hexLen l = 0 := by
  by_contra hne
  obtain ⟨x,r,rfl,hx,-⟩ := hex_shape hne
  exact h (.whole hx)

theorem number_decimal (hb : b.strto = true) {width : BitVec 32} (hwidth : width ≠ 0)
    (minus : Bool) {l : List UInt8} {pos fuel : Nat} (hl : str.drop pos = l) (hfuel : l.length < fuel)
    (hn : l.head?.map fold ≠ some 0x6e) (hi : l.head?.map fold ≠ some 0x69) (hswitch : ¬Acc.Switch l) :
    ∃ r, number b (chars signed str) fuel minus (next signed l) width (pos + 1) = some r ∧ Exact pos l r := by
  obtain ⟨ds,dot,fs,rest,hsplit⟩ := split_exists isdigit l
  have hwalk := @Acc.walk_decimal b _ _ _ _ _ hsplit hswitch
  have hmant := split_mantissaLen (by decide) hsplit
  obtain ⟨hhex,-,hany,-⟩ := @Acc.mantissa_flags b _ ⟨rfl,rfl,rfl⟩ l ds fs rest dot
    (show Split (baseDigit Acc.start.fhex) l ds dot fs rest from hsplit)
  have hfhex : (Acc.start.mantissa b ds dot fs).fhex = false := hhex
  have hlen : subjectLen l = numberLen isdigit 0x65 l := by
    unfold subjectLen
    rw [if_neg (not_not.mpr (hexLen_plain hswitch))]
    split_ifs with hdec
    · rfl
    · rw [wordLen_zero hn hi]
      exact (not_not.mp hdec).symm
  by_cases hnil : ds ++ fs = []
  · rw [if_pos hnil] at hmant
    have hzero : subjectLen l = 0 := hlen.trans (if_pos hmant)
    have hnone : (Acc.start.mantissa b ds dot fs).any = false := by
      rw [hany,hnil]
      rfl
    refine ⟨_,number_none hb width minus hl hfuel hwalk hnone hfhex,?_⟩
    exact ⟨⟨fun h => Bool.noConfusion h,fun h => absurd hzero h⟩,fun h => absurd hzero h⟩
  · rw [if_neg hnil] at hmant
    have hpos : 0 < (ds ++ fs).length := List.length_pos_iff.mpr hnil
    rw [List.length_append] at hpos
    have hyes : (Acc.start.mantissa b ds dot fs).any = true := by
      rw [hany]
      simpa using hnil
    have hmarker : (Acc.start.mantissa b ds dot fs).expMatch = 0x65 := by rw [Acc.expMatch,hfhex]; rfl
    have htotal : subjectLen l = ds.length + dot.toNat + fs.length +
        exponentLen 0x65 (l.drop (ds.length + dot.toNat + fs.length)) := by
      rw [hlen,numberLen,hmant,if_neg (by omega)]
    refine ⟨_,number_any hb hwidth minus hl hfuel hwalk hyes,?_,fun _ => ?_⟩
    · exact ⟨fun _ => by omega,fun _ => rfl⟩
    · rw [htotal,hmarker]
      exact Nat.add_assoc _ _ _

theorem wideHex_split (c : UInt8) : wideHex c = true ↔ isHex c = true ∨ 0x3a ≤ c ∧ c ≤ 0x3f := by
  simp [wideHex]

theorem wideHex_dot : wideHex 0x2e = false ∧ isHex 0x2e = false := by decide

theorem colon_plain (c : UInt8) (h : 0x3a ≤ c ∧ c ≤ 0x3f) : isHex c = false ∧ c ≠ 0x2e ∧ fold c ≠ 0x70 := by
  have hf := fold_toNat c
  simp only [isHex,isdigit,← UInt8.toNat_inj,UInt8.le_iff_toNat_le,UInt8.reduceToNat,ne_eq,Bool.or_eq_false_iff,
    Bool.and_eq_false_iff,decide_eq_false_iff_not] at h ⊢
  split_ifs at hf <;> omega

theorem split_rest {digit : UInt8 → Bool} {l ds fs rest : List UInt8} {dot : Bool} (h : Split digit l ds dot fs rest) :
    l.drop (ds.length + dot.toNat + fs.length) = rest := by
  cases h with
  | whole _ _ => exact List.drop_left
  | pointed _ _ =>
    rw [show ds ++ 0x2e :: (fs ++ rest) = (ds ++ 0x2e :: fs) ++ rest by simp,List.drop_left']
    simp
    omega

theorem zero_then_x {x : UInt8} (hx : fold x = 0x78) (r : List UInt8) : Split isdigit (0x30 :: x :: r) [0x30] false [] (x :: r) := by
  obtain ⟨hdigit,hdot,-⟩ := fold_x x hx
  refine @Split.whole isdigit [0x30] (x :: r) (fun c hc => ?_) fun c hc => ?_
  · rw [List.mem_singleton.mp hc]
    decide
  · obtain rfl := Option.some.inj hc
    exact ⟨hdigit,hdot⟩

theorem number_hex (hb : b.strto = true) {width : BitVec 32} (hwidth : width ≠ 0)
    (minus : Bool) {x : UInt8} {r ds fs rest : List UInt8} {dot : Bool} {pos fuel : Nat} (hx : fold x = 0x78)
    (hl : str.drop pos = 0x30 :: x :: r) (hfuel : (0x30 :: x :: r).length < fuel) (hsplit : Split wideHex r ds dot fs rest) :
    ∃ res, number b (chars signed str) fuel minus (next signed (0x30 :: x :: r)) width (pos + 1) = some res ∧
      res.value.isSome = true ∧ res.stream = if ds ++ fs = [] then pos + 1 + dot.toNat else
        pos + 2 + (ds.length + dot.toNat + fs.length) + exponentLen 0x70 rest := by
  obtain ⟨h,hhex,hany,htwo,hdot,hwalk⟩ := Acc.walk_switch (zero_then_x hx r) rfl hx
  have hfresh : Acc.Fresh h := ⟨hany,htwo,hdot⟩
  obtain ⟨hkeep,-,hdigits,-⟩ := @Acc.mantissa_flags b h hfresh r ds fs rest dot (by rw [hhex]; exact hsplit)
  rw [Acc.walk_hexadecimal hfresh hhex hsplit,Bool.toNat_false] at hwalk
  have hmarker : (h.mantissa b ds dot fs).expMatch = 0x70 := by
    rw [Acc.expMatch,hkeep,hhex]
    rfl
  by_cases hnil : ds ++ fs = []
  · have hnone : (h.mantissa b ds dot fs).any = false := by
      rw [hdigits,hnil]
      rfl
    obtain ⟨rfl,rfl⟩ := List.append_eq_nil_iff.mp hnil
    have hlast : ((0x30 :: x :: r).drop (1 + dot.toNat)).head?.map fold ≠ some (h.mantissa b [] dot []).expMatch := by
      rw [hmarker]
      cases hsplit with
      | whole _ _ =>
        show some (fold x) ≠ some 0x70
        rw [hx]
        decide
      | pointed _ _ =>
        show some (fold 0x2e) ≠ some 0x70
        decide
    have hcount : 2 + 0 + (([] : List UInt8).length + dot.toNat + ([] : List UInt8).length) = 1 + dot.toNat + 1 := by
      simp
      omega
    rw [hcount] at hwalk
    obtain ⟨v,hv⟩ := number_back hb hwidth minus hl hfuel hwalk hnone (hkeep.trans hhex) hlast
    refine ⟨_,hv,rfl,?_⟩
    rw [if_pos hnil]
    exact (Nat.add_assoc pos 1 dot.toNat).symm
  · have hyes : (h.mantissa b ds dot fs).any = true := by
      rw [hdigits]
      simpa using hnil
    refine ⟨_,number_any hb hwidth minus hl hfuel hwalk hyes,rfl,?_⟩
    have hrest : (0x30 :: x :: r).drop (2 + 0 + (ds.length + dot.toNat + fs.length)) = rest := by
      rw [Nat.add_zero,Nat.add_comm 2]
      exact split_rest hsplit
    rw [if_neg hnil,hmarker,hrest]
    show pos + (2 + 0 + _) + _ = _
    omega

theorem subjectLen_hex {x : UInt8} (hx : fold x = 0x78) (r : List UInt8) :
    subjectLen (0x30 :: x :: r) = if mantissaLen isHex r = 0 then 1 else
      2 + (mantissaLen isHex r + exponentLen 0x70 (r.drop (mantissaLen isHex r))) := by
  by_cases hzero : mantissaLen isHex r = 0
  · have hhex : hexLen (0x30 :: x :: r) = 0 := if_neg fun h => h.2 hzero
    rw [subjectLen,hhex,zero_before_x hx,if_neg (not_not.mpr rfl),if_pos one_ne_zero,if_pos hzero]
  · have hhex : hexLen (0x30 :: x :: r) = 2 + numberLen isHex 0x70 r := if_pos ⟨hx,hzero⟩
    rw [subjectLen,hhex,if_pos (by omega),numberLen,if_neg hzero,if_neg hzero]

theorem misread_hex {x : UInt8} {r : List UInt8} (hx : fold x = 0x78) (h : Misread signed (0x30 :: x :: r)) :
    (∃ t, r = 0x2e :: t ∧ ∀ c ∈ t.head?, wideHex c = false) ∨
      (∃ hs c t, r = hs ++ c :: t ∧ (∀ d ∈ hs, isHex d = true) ∧ 0x3a ≤ c ∧ c ≤ 0x3f) ∨
        ∃ hs fs c t, r = hs ++ 0x2e :: (fs ++ c :: t) ∧ (∀ d ∈ hs ++ fs, isHex d = true) ∧ 0x3a ≤ c ∧ c ≤ 0x3f := by
  have hzero : ∀ w : UInt8, w = 0x6e ∨ w = 0x69 → some (fold 0x30) ≠ some w := by
    rintro w (rfl | rfl) <;> decide
  cases h with
  | unclosed hnan _ _ => exact absurd (take_head hnan) (hzero _ (.inl rfl))
  | truncated hinf _ => exact absurd (take_head hinf) (hzero _ (.inr rfl))
  | high _ hinf _ _ => exact absurd (take_head hinf) (hzero _ (.inr rfl))
  | pointBefore _ _ => exact absurd rfl (fold_x _ hx).2.1
  | bare _ hr => exact .inl ⟨_,rfl,hr⟩
  | colon _ hs hc => exact .inr (.inl ⟨_,_,_,rfl,hs,hc⟩)
  | fractionColon _ hs hc => exact .inr (.inr ⟨_,_,_,_,rfl,hs,hc⟩)

theorem hex_or_colon {ds : List UInt8} (h : ∀ c ∈ ds, wideHex c = true) :
    (∀ c ∈ ds, isHex c = true) ∨ ∃ hs c t, ds = hs ++ c :: t ∧ (∀ d ∈ hs, isHex d = true) ∧ 0x3a ≤ c ∧ c ≤ 0x3f := by
  induction ds with
  | nil => exact .inl fun c hc => absurd hc (by simp)
  | cons c ds ih =>
    by_cases hc : isHex c = true
    · rcases ih fun d hd => h d (List.mem_cons_of_mem c hd) with hall | ⟨hs,d,t,rfl,hhs,hd⟩
      · exact .inl fun d hd => (List.mem_cons.mp hd).elim (fun heq => heq ▸ hc) (hall d)
      · exact .inr ⟨c :: hs,d,t,rfl,fun e he => (List.mem_cons.mp he).elim (fun heq => heq ▸ hc) (hhs e),hd⟩
    · have hcolon := ((wideHex_split c).mp (h c List.mem_cons_self)).resolve_left hc
      exact .inr ⟨[],c,ds,rfl,fun d hd => absurd hd (by simp),hcolon⟩

theorem split_narrow {r ds fs rest : List UInt8} {dot : Bool} {x : UInt8} (hx : fold x = 0x78)
    (hsplit : Split wideHex r ds dot fs rest) (h : ¬Misread signed (0x30 :: x :: r)) : Split isHex r ds dot fs rest := by
  have hnarrow : ∀ c, wideHex c = false → isHex c = false := by
    intro c hc
    rw [wideHex,Bool.or_eq_false_iff] at hc
    exact hc.1
  cases hsplit with
  | whole hds hrest =>
    rcases hex_or_colon hds with hall | ⟨hs,c,t,rfl,hhs,hc⟩
    · exact .whole hall fun c hc => ⟨hnarrow c (hrest c hc).1,(hrest c hc).2⟩
    · refine absurd ?_ h
      rw [List.append_assoc,List.cons_append]
      exact .colon hx hhs hc
  | @pointed ds fs rest hall hrest =>
    rcases hex_or_colon fun c hc => hall c (List.mem_append_left fs hc) with hds | ⟨hs,c,t,rfl,hhs,hc⟩
    · rcases hex_or_colon fun c hc => hall c (List.mem_append_right ds hc) with hfs | ⟨hs,c,t,rfl,hhs,hc⟩
      · exact .pointed (fun c hc => (List.mem_append.mp hc).elim (hds c) (hfs c)) fun c hc => hnarrow c (hrest c hc)
      · refine absurd ?_ h
        rw [List.append_assoc,List.cons_append]
        exact .fractionColon hx (fun d hd => (List.mem_append.mp hd).elim (hds d) (hhs d)) hc
    · refine absurd ?_ h
      rw [List.append_assoc,List.cons_append]
      exact .colon hx hhs hc

theorem exponentLen_colon {c : UInt8} (h : 0x3a ≤ c ∧ c ≤ 0x3f) (t : List UInt8) : exponentLen 0x70 (c :: t) = 0 :=
  if_neg fun hp => (colon_plain c h).2.2 (Option.some.inj hp)

theorem colon_short {x c : UInt8} {r hs fs t : List UInt8} {dot : Bool} (hx : fold x = 0x78) (hc : 0x3a ≤ c ∧ c ≤ 0x3f)
    (hsplit : Split isHex r hs dot fs (c :: t)) :
    subjectLen (0x30 :: x :: r) ≠ 0 ∧ subjectLen (0x30 :: x :: r) ≤ 2 + (hs.length + dot.toNat + fs.length) := by
  have hmant := split_mantissaLen wideHex_dot.2 hsplit
  rw [subjectLen_hex hx]
  by_cases hnil : hs ++ fs = []
  · rw [if_pos hnil] at hmant
    rw [if_pos hmant]
    omega
  · have hpos : 0 < (hs ++ fs).length := List.length_pos_iff.mpr hnil
    rw [List.length_append] at hpos
    rw [if_neg hnil] at hmant
    rw [hmant,if_neg (by omega),split_rest hsplit,exponentLen_colon hc]
    omega

theorem number_beyond (hb : b.strto = true) {width : BitVec 32} (hwidth : width ≠ 0)
    (minus : Bool) {x : UInt8} {r m t : List UInt8} {pos fuel : Nat} (hx : fold x = 0x78)
    (hl : str.drop pos = 0x30 :: x :: r) (hfuel : (0x30 :: x :: r).length < fuel) (hm : Mantissa wideHex m) (hr : r = m ++ t) :
    ∃ res, number b (chars signed str) fuel minus (next signed (0x30 :: x :: r)) width (pos + 1) = some res ∧
      pos + 2 + m.length ≤ res.stream := by
  obtain ⟨ds,dot,fs,rest,hsplit⟩ := split_exists wideHex r
  obtain ⟨res,hres,-,hreach⟩ := @number_hex signed str b hb width hwidth minus x r ds fs rest dot pos fuel hx hl hfuel hsplit
  have hlong := mantissa_longest wideHex_dot.1 t hm
  have hpos := mantissa_pos hm
  rw [← hr,split_mantissaLen wideHex_dot.1 hsplit] at hlong
  refine ⟨res,hres,?_⟩
  rw [hreach]
  split_ifs at hlong ⊢ with hnil <;> omega

theorem subject_hex (hb : b.strto = true) {width : BitVec 32} (hwidth : width ≠ 0)
    (minus : Bool) {x : UInt8} {r : List UInt8} {pos fuel : Nat} (hx : fold x = 0x78) (hl : str.drop pos = 0x30 :: x :: r)
    (hfuel : (0x30 :: x :: r).length < fuel) :
    ∃ res, number b (chars signed str) fuel minus (next signed (0x30 :: x :: r)) width (pos + 1) = some res ∧
      Settled signed pos (0x30 :: x :: r) res := by
  by_cases h : Misread signed (0x30 :: x :: r)
  · rcases misread_hex hx h with ⟨t,rfl,ht⟩ | ⟨hs,c,t,rfl,hhs,hc⟩ | ⟨hs,fs,c,t,rfl,hhs,hc⟩
    · have hsplit : Split wideHex (0x2e :: t) [] true [] t := @Split.pointed wideHex [] [] t (by simp) ht
      have hmant : mantissaLen isHex (0x2e :: t) = 0 := by
        have hnarrow : Split isHex (0x2e :: t) [] true [] t := @Split.pointed isHex [] [] t (by simp) fun c hc => by
          have hwide := ht c hc
          rw [wideHex,Bool.or_eq_false_iff] at hwide
          exact hwide.1
        exact (split_mantissaLen wideHex_dot.2 hnarrow).trans (if_pos rfl)
      have hone := subjectLen_hex hx (0x2e :: t)
      rw [if_pos hmant] at hone
      obtain ⟨res,hres,-,hreach⟩ := number_hex hb hwidth minus hx hl hfuel hsplit
      refine ⟨res,hres,.inl ⟨h,by omega,.inr ?_⟩⟩
      rw [hreach,hone,List.append_nil,if_pos rfl,Bool.toNat_true]
      omega
    · have hsplit : Split isHex (hs ++ c :: t) hs false [] (c :: t) := .whole hhs fun d hd => by
        obtain rfl := Option.some.inj hd
        exact ⟨(colon_plain _ hc).1,(colon_plain _ hc).2.1⟩
      obtain ⟨hne,hshort⟩ := colon_short hx hc hsplit
      have hm : Mantissa wideHex (hs ++ [c]) := .whole (by simp) fun d hd => by
        rw [wideHex_split]
        exact (List.mem_append.mp hd).imp (hhs d) fun hmem => by rwa [List.mem_singleton.mp hmem]
      obtain ⟨res,hres,hreach⟩ := number_beyond hb hwidth minus hx hl hfuel hm (t := t) (by simp)
      refine ⟨res,hres,.inl ⟨h,hne,.inr ?_⟩⟩
      rw [List.length_append,List.length_singleton] at hreach
      simp only [List.length_nil,Bool.toNat_false] at hshort
      omega
    · have hsplit : Split isHex (hs ++ 0x2e :: (fs ++ c :: t)) hs true fs (c :: t) := .pointed hhs fun d hd => by
        obtain rfl := Option.some.inj hd
        exact (colon_plain _ hc).1
      obtain ⟨hne,hshort⟩ := colon_short hx hc hsplit
      have hm : Mantissa wideHex (hs ++ 0x2e :: (fs ++ [c])) := .pointed (by simp) fun d hd => by
        rw [wideHex_split]
        rw [← List.append_assoc] at hd
        exact (List.mem_append.mp hd).imp (hhs d) fun hmem => by rwa [List.mem_singleton.mp hmem]
      obtain ⟨res,hres,hreach⟩ := number_beyond hb hwidth minus hx hl hfuel hm (t := t) (by simp)
      refine ⟨res,hres,.inl ⟨h,hne,.inr ?_⟩⟩
      simp only [List.length_append,List.length_cons,List.length_nil,Bool.toNat_true] at hreach hshort
      omega
  · obtain ⟨ds,dot,fs,rest,hsplit⟩ := split_exists wideHex r
    have hnarrow := split_narrow hx hsplit h
    obtain ⟨res,hres,hsome,hreach⟩ := number_hex hb hwidth minus hx hl hfuel hsplit
    have hmant := split_mantissaLen wideHex_dot.2 hnarrow
    have hlen := subjectLen_hex hx r
    refine ⟨res,hres,.inr ⟨h,?_⟩⟩
    by_cases hnil : ds ++ fs = []
    · rw [if_pos hnil] at hmant hreach
      rw [if_pos hmant] at hlen
      obtain ⟨rfl,rfl⟩ := List.append_eq_nil_iff.mp hnil
      have hdot : dot = false := by
        cases hsplit with
        | whole _ _ => rfl
        | pointed _ hrest => exact absurd (.bare hx hrest) h
      rw [hdot,Bool.toNat_false] at hreach
      exact ⟨⟨fun _ => by omega,fun _ => hsome⟩,fun _ => by omega⟩
    · have hpos : 0 < (ds ++ fs).length := List.length_pos_iff.mpr hnil
      rw [List.length_append] at hpos
      rw [if_neg hnil] at hmant hreach
      rw [hmant,if_neg (by omega),split_rest hnarrow] at hlen
      exact ⟨⟨fun _ => by omega,fun _ => hsome⟩,fun _ => by omega⟩

theorem point_then_x {x : UInt8} {l r : List UInt8} (hx : fold x = 0x78)
    (h : l = 0x30 :: 0x2e :: x :: r ∨ l = 0x2e :: 0x30 :: x :: r) :
    ∃ ds fs, Split isdigit l ds true fs (x :: r) ∧ ds ++ fs = [0x30] := by
  have hrest : ∀ c ∈ (x :: r).head?, isdigit c = false := by
    intro c hc
    obtain rfl := Option.some.inj hc
    exact (fold_x _ hx).1
  have hzero : ∀ c ∈ [(0x30 : UInt8)], isdigit c = true := by
    intro c hc
    rw [List.mem_singleton.mp hc]
    decide
  rcases h with rfl | rfl
  · exact ⟨[0x30],[],@Split.pointed isdigit [0x30] [] (x :: r) hzero hrest,rfl⟩
  · exact ⟨[],[0x30],@Split.pointed isdigit [] [0x30] (x :: r) hzero hrest,rfl⟩

theorem subjectLen_point {x : UInt8} {l r : List UInt8} (hx : fold x = 0x78)
    (h : l = 0x30 :: 0x2e :: x :: r ∨ l = 0x2e :: 0x30 :: x :: r) : subjectLen l = 2 := by
  obtain ⟨ds,fs,hsplit,hone⟩ := point_then_x hx h
  have hlen : ds.length + fs.length = 1 := by rw [← List.length_append,hone,List.length_singleton]
  have hmant := split_mantissaLen (by decide) hsplit
  rw [if_neg (by simp [hone]),Bool.toNat_true] at hmant
  have hhex : hexLen l = 0 := by
    by_contra hne
    obtain ⟨y,t,hl,hy,-⟩ := hex_shape hne
    rcases h with rfl | rfl
    · obtain rfl := (List.cons.inj (List.cons.inj hl).2).1
      exact (fold_x _ hy).2.1 rfl
    · exact absurd (List.cons.inj hl).1 (by decide)
  have hrest := split_rest hsplit
  rw [Bool.toNat_true,← hmant] at hrest
  have hexp : exponentLen 0x65 (x :: r) = 0 := if_neg fun he => (fold_x _ hx).2.2 (Option.some.inj he)
  have hnum : numberLen isdigit 0x65 l = 2 := by
    rw [numberLen,hrest,hexp,hmant,if_neg (by omega)]
    omega
  rw [subjectLen,hhex,hnum,if_neg (not_not.mpr rfl)]
  rfl

theorem misread_point {x : UInt8} {l r : List UInt8} (hshape : l = 0x30 :: 0x2e :: x :: r ∨ l = 0x2e :: 0x30 :: x :: r)
    (h : Misread signed l) : ∃ c t, r = c :: t ∧ wideHex c = true := by
  have hhead : ∀ w : UInt8, w = 0x6e ∨ w = 0x69 → l.head?.map fold ≠ some w := by
    rintro w hw
    rcases hshape with rfl | rfl <;> rcases hw with rfl | rfl <;> exact fun h => absurd (Option.some.inj h) (by decide)
  have hdot : ∀ y : UInt8, fold y = 0x78 → ∀ t, l ≠ 0x30 :: y :: t := by
    rintro y hy t rfl
    rcases hshape with hl | hl
    · obtain rfl := (List.cons.inj (List.cons.inj hl).2).1
      exact (fold_x _ hy).2.1 rfl
    · exact absurd (List.cons.inj hl).1 (by decide)
  cases h with
  | unclosed hnan _ _ => exact absurd (take_head hnan) (hhead _ (.inl rfl))
  | truncated hinf _ => exact absurd (take_head hinf) (hhead _ (.inr rfl))
  | high _ hinf _ _ => exact absurd (take_head hinf) (hhead _ (.inr rfl))
  | bare hy _ => exact absurd rfl (hdot _ hy _)
  | colon hy _ _ => exact absurd rfl (hdot _ hy _)
  | fractionColon hy _ _ => exact absurd rfl (hdot _ hy _)
  | pointBefore _ hc =>
    rcases hshape with hl | hl
    · exact ⟨_,_,(List.cons.inj (List.cons.inj (List.cons.inj hl).2).2).2.symm,hc⟩
    · exact absurd (List.cons.inj hl).1 (by decide)
  | pointAfter _ hc =>
    rcases hshape with hl | hl
    · exact absurd (List.cons.inj hl).1 (by decide)
    · exact ⟨_,_,(List.cons.inj (List.cons.inj (List.cons.inj hl).2).2).2.symm,hc⟩

theorem subject_point (hb : b.strto = true) {width : BitVec 32} (hwidth : width ≠ 0)
    (minus : Bool) {x : UInt8} {l r : List UInt8} {pos fuel : Nat} (hx : fold x = 0x78)
    (hshape : l = 0x30 :: 0x2e :: x :: r ∨ l = 0x2e :: 0x30 :: x :: r) (hl : str.drop pos = l) (hfuel : l.length < fuel) :
    ∃ res, number b (chars signed str) fuel minus (next signed l) width (pos + 1) = some res ∧ Settled signed pos l res := by
  obtain ⟨ds,fs,hsplit,hone⟩ := point_then_x hx hshape
  obtain ⟨h,hhex,hany,htwo,hdot,hwalk⟩ := @Acc.walk_switch b l ds fs r true x hsplit hone hx
  rw [Acc.walk_dotted hhex hdot,Bool.toNat_true] at hwalk
  obtain ⟨hkeep,-,hdigits,-⟩ := @Acc.absorb_flags b h (r.takeWhile wideHex)
  rw [hany,Bool.false_or] at hdigits
  have hlen := subjectLen_point hx hshape
  have hx2 : (l.drop 2).head? = some x := by rcases hshape with rfl | rfl <;> rfl
  by_cases hnil : r.takeWhile wideHex = []
  · have hnot : ¬Misread signed l := by
      intro hmis
      obtain ⟨c,t,rfl,hc⟩ := misread_point hshape hmis
      rw [List.takeWhile_cons,if_pos hc] at hnil
      exact List.cons_ne_nil _ _ hnil
    rw [hnil,List.length_nil] at hwalk
    rw [hnil] at hdigits hkeep
    have hlast : (l.drop 2).head?.map fold ≠ some (h.absorb b []).expMatch := by
      rw [hx2,Acc.expMatch,hkeep,hhex,Option.map_some,hx]
      decide
    obtain ⟨v,hv⟩ := number_back hb hwidth minus hl hfuel hwalk hdigits (hkeep.trans hhex) hlast
    refine ⟨_,hv,.inr ⟨hnot,⟨fun _ => by omega,fun _ => rfl⟩,fun _ => ?_⟩⟩
    rw [hlen]
  · have hmis : Misread signed l := by
      cases r with
      | nil => exact absurd rfl hnil
      | cons c t =>
        by_cases hc : wideHex c = true
        · rcases hshape with rfl | rfl
          · exact .pointBefore hx hc
          · exact .pointAfter hx hc
        · exact absurd (by rw [List.takeWhile_cons,if_neg hc]) hnil
    have hyes : (h.absorb b (r.takeWhile wideHex)).any = true := by
      rw [hdigits]
      simpa using hnil
    have hpos := List.length_pos_iff.mpr hnil
    refine ⟨_,number_any hb hwidth minus hl hfuel hwalk hyes,.inl ⟨hmis,by omega,.inr ?_⟩⟩
    dsimp only
    omega

theorem subject_settled (hb : b.strto = true) {width : BitVec 32} (hwidth : width ≠ 0)
    (minus : Bool) {l : List UInt8} {pos fuel : Nat} (hl : str.drop pos = l) (hfuel : l.length < fuel) :
    ∃ r, subject b (chars signed str) fuel minus (next signed l) width (pos + 1) = some r ∧ Settled signed pos l r := by
  by_cases hn : l.head?.map fold = some 0x6e
  · exact subject_nan hb width minus hl hfuel hn
  by_cases hi : l.head?.map fold = some 0x69
  · exact subject_inf hb width minus hl hi
  have hnumber : subject b (chars signed str) fuel minus (next signed l) width (pos + 1) =
      number b (chars signed str) fuel minus (next signed l) width (pos + 1) := by
    rw [subject,if_neg fun h => hn ((next_letter (by decide) l).mp h),if_neg fun h => hi ((next_letter (by decide) l).mp h)]
  rw [hnumber]
  by_cases hswitch : Acc.Switch l
  · cases hswitch with
    | whole hx => exact subject_hex hb hwidth minus hx hl hfuel
    | before hx => exact subject_point hb hwidth minus hx (.inl rfl) hl hfuel
    | after hx => exact subject_point hb hwidth minus hx (.inr rfl) hl hfuel
  · obtain ⟨r,hr,hexact⟩ := number_decimal hb hwidth minus hl hfuel hn hi hswitch
    exact ⟨r,hr,.inr ⟨fun h => hswitch (misread_number hn hi h),hexact⟩⟩

end

def MisreadField (signed : Bool) (str : List UInt8) : Prop := Misread signed (str.drop (leadLen str))

theorem subject_eof {σ : Type} (b : Build) (src : Source σ) (fuel : Nat) (minus : Bool) (width : BitVec 32) (s : σ) :
    subject b src (fuel + 1) minus none width s = some ⟨none,src.ungetc none s⟩ := rfl

theorem settled_none {signed : Bool} {pos p q : Nat} {l : List UInt8} (h : Settled signed pos l ⟨none,p⟩) :
    Settled signed pos l ⟨none,q⟩ := by
  rcases h with ⟨hmis,hwrong⟩ | ⟨hnot,hexact⟩
  · exact .inl ⟨hmis,hwrong.subject,.inl rfl⟩
  · exact .inr ⟨hnot,hexact.accepted,fun hne => Bool.noConfusion (hexact.accepted.mpr hne)⟩

theorem strtox_settled {b : Build} (hb : b.strto = true) (signed : Bool) (str : List UInt8)
    {fuel : Nat} (hfuel : str.length < fuel) :
    ∃ r, strtox b signed fuel str = some r ∧ Settled signed (leadLen str) (str.drop (leadLen str)) r := by
  have hwidth : BitVec.ofNat 32 0x7fffffff ≠ 0 := by decide
  have hshort : ∀ n, (str.drop n).length < fuel := by
    intro n
    rw [List.length_drop]
    omega
  unfold strtox convFlt leadLen
  dsimp only
  rw [show (str.takeWhile isspace).length = spaceLen str from rfl,getc_drop]
  dsimp only
  by_cases hsign : signLen (str.drop (spaceLen str)) = 1
  · obtain ⟨r,hr,hsettled⟩ := @subject_settled signed str b hb _ hwidth
      (decide (next signed (str.drop (spaceLen str)) = some 0x2d)) _ (spaceLen str + 1) fuel rfl (hshort _)
    rw [hsign,if_pos ((@next_sign signed _).mpr hsign),strto_width hb,if_neg (by simp),getc_drop]
    dsimp only
    by_cases heof : next signed (str.drop (spaceLen str + 1)) = none
    · rw [if_pos heof]
      cases fuel with
      | zero => exact absurd hfuel (Nat.not_lt_zero _)
      | succ fuel =>
        rw [heof,subject_eof] at hr
        obtain rfl := Option.some.inj hr
        exact ⟨_,rfl,settled_none hsettled⟩
    · rw [if_neg heof]
      exact ⟨r,hr,hsettled⟩
  · have hzero : signLen (str.drop (spaceLen str)) = 0 := by
      unfold signLen at hsign ⊢
      split_ifs at hsign ⊢
      · exact absurd rfl hsign
      · rfl
    rw [hzero,if_neg fun h => hsign (next_sign.mp h)]
    exact subject_settled hb hwidth false rfl (hshort _)

theorem settled_endptr {signed : Bool} {str : List UInt8} {r : Reading Nat}
    (h : Settled signed (leadLen str) (str.drop (leadLen str)) r) :
    LongestField str (endptr r) ↔ ¬MisreadField signed str := by
  rw [longest_iff,fieldLen,endptr,MisreadField]
  rcases h with ⟨hmis,hne,hmissed⟩ | ⟨hnot,haccepted,hreached⟩
  · refine ⟨fun heq => absurd heq ?_,fun h => absurd hmis h⟩
    rw [if_neg hne]
    rcases hmissed with hnone | hfar
    · rw [hnone,if_neg (by simp)]
      omega
    · split_ifs
      · exact hfar
      · omega
  · refine ⟨fun _ => hnot,fun _ => ?_⟩
    by_cases hzero : subjectLen (str.drop (leadLen str)) = 0
    · rw [if_pos hzero,if_neg fun h => haccepted.mp h hzero]
    · rw [if_neg hzero,if_pos (haccepted.mpr hzero),hreached hzero]

theorem strtod_endptr_iff (signed : Bool) (str : List UInt8) :
    ∃ n, strtodEnd signed str = some n ∧ (LongestField str n ↔ ¬MisreadField signed str) := by
  obtain ⟨r,hr,hsettled⟩ := strtox_settled (b := Build.strtod) rfl signed str (Nat.lt_succ_self _)
  exact ⟨endptr r,by rw [strtodEnd,hr,Option.map_some],settled_endptr hsettled⟩

theorem colon_consumed : strtodEnd true [0x30,0x78,0x31,0x3a] = some 4 ∧ strtodEnd false [0x30,0x78,0x31,0x3a] = some 4 ∧
    LongestField [0x30,0x78,0x31,0x3a] 3 ∧ ¬LongestField [0x30,0x78,0x31,0x3a] 4 := by
  rw [longest_iff,longest_iff]
  decide

end Scanf
