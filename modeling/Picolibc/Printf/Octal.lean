import Mathlib
import Picolibc.Printf.IntText
import Picolibc.Stdio.Strtoi

open Ascii Numerals Strtoi

namespace Printf

def OctalNumeral (p n : Nat) (l : List UInt8) : Prop :=
  ∃ ds : List Nat, (∀ d ∈ ds, d < 8) ∧ l = (0 :: ds).map digitByte ∧ horner 8 0 ds = n ∧ p ≤ (0 :: ds).length

def Shortest (p n : Nat) (l : List UInt8) : Prop := OctalNumeral p n l ∧ ∀ l', OctalNumeral p n l' → l.length ≤ l'.length

def octalText (p n : Nat) : List UInt8 :=
  List.replicate (max 1 (p - (numeralText false 8 n).length)) (byte '0') ++ numeralText false 8 n

theorem numeralText_octal (n : Nat) : numeralText false 8 n = (Nat.digits 8 n).reverse.map digitByte := by
  refine List.map_congr_left (fun d hd => ?_)
  have hlt : d < 8 := Nat.digits_lt_base (by decide) (List.mem_reverse.mp hd)
  interval_cases d <;> rfl

theorem octalText_eq (p n : Nat) : octalText p n = (0 :: (List.replicate (max 1 (p - (Nat.digits 8 n).length) - 1) 0 ++
    (Nat.digits 8 n).reverse)).map digitByte := by
  have hone : ∀ k, 1 ≤ k → List.replicate k (byte '0') = (0 :: List.replicate (k - 1) 0).map digitByte := by
    intro k hk
    obtain ⟨j,rfl⟩ := Nat.exists_eq_add_of_le' hk
    simp only [Nat.add_sub_cancel,List.map_cons,List.map_replicate,List.replicate_succ]
    rfl
  rw [octalText,numeralText_octal,hone _ (le_max_left _ _)]
  simp

theorem octalText_shortest (p n : Nat) : Shortest p n (octalText p n) := by
  have hlt : ∀ d ∈ (Nat.digits 8 n).reverse, d < 8 :=
    fun d hd => Nat.digits_lt_base (by decide) (List.mem_reverse.mp hd)
  constructor
  · refine ⟨_,?_,octalText_eq p n,?_,?_⟩
    · intro d hd
      rcases List.mem_append.mp hd with hd | hd
      · rw [List.eq_of_mem_replicate hd]
        decide
      · exact hlt d hd
    · rw [horner_zeros,horner_digits]
    · simp
      omega
  · rintro l ⟨ds,hds,rfl,hval,hp⟩
    have hlen : (Nat.digits 8 n).length ≤ ds.length := by
      rw [Nat.digits_length_le_iff (by decide)]
      have h := @horner_lt 8 ds hds 0 0 (by decide)
      rwa [hval,Nat.zero_add] at h
    rw [octalText_eq]
    simp at hp ⊢
    omega

theorem zeros_cons (r : Nat) (c : UInt8) (l : List UInt8) :
    List.replicate r c ++ c :: l = c :: (List.replicate r c ++ l) := by
  rw [← List.cons_append,← List.replicate_succ,List.replicate_succ',List.append_assoc,List.singleton_append]

theorem field_shift (F : Field) (ds : List UInt8) : F.text [byte '0'] ds = F.text [] (byte '0' :: ds) := by
  unfold Field.text Field.room
  split_ifs
  · simp
  · simp [zeros_cons]
  · simp

theorem field_octal (F : Field) {ds : List Nat} (hds : ∀ d ∈ ds, d < 8) : ∃ i j es, (∀ d ∈ es, d < 8) ∧
    horner 8 0 es = horner 8 0 ds ∧ F.text [] ((0 :: ds).map digitByte) =
      List.replicate i 0x20 ++ 0x30 :: (es.map digitByte ++ List.replicate j 0x20) := by
  generalize hroom : F.room ([] ++ (0 :: ds).map digitByte) = r
  unfold Field.text
  rw [hroom]
  split_ifs
  · exact ⟨0,r,ds,hds,rfl,by simp [digitByte,byte]⟩
  · refine ⟨0,0,List.replicate r 0 ++ ds,?_,horner_zeros 8 r ds,?_⟩
    · intro d hd
      rcases List.mem_append.mp hd with hd | hd
      · rw [List.eq_of_mem_replicate hd]
        decide
      · exact hds d hd
    · have hzero : digitByte 0 = byte '0' := rfl
      have hhead : (0x30 : UInt8) = byte '0' := rfl
      simp [hzero,hhead,zeros_cons]
  · exact ⟨r,0,ds,hds,rfl,by simp [digitByte,byte]⟩

section

variable {b : Build} {ft : FloatText}

theorem octal_body {F : Field} {f g : Flags} {n : Nat} {v : Conv Unit} (hl : v.letter = .o)
    (halt : Flag.alt ∈ v.flags) (hun : Unsigned v n f) {buf : List UInt8}
    (hbuf : buf = if n = 0 ∧ F.digits = some 0 then [] else (positional (8 % 32) n).map (ultoaDigit 8))
    (hg : g = if buf.length < F.digits.getD 0 ∧ nul = nul then { f with alt := false } else f)
    (hn : n ≠ 0 ∨ F.digits ≠ some 0) :
    F.text (lead g nul) (List.replicate (F.digits.getD 0 - buf.length) (byte '0') ++ buf.reverse) =
      F.text [] (octalText (F.digits.getD 0) n) := by
  have hradix : Radix 8 false := .inr (.inl ⟨rfl,rfl⟩)
  have hbuf' : buf = (positional (8 % 32) n).map (ultoaDigit 8) := by
    rw [hbuf,if_neg]
    rintro ⟨h₁,h₂⟩
    exact hn.elim (fun h => h h₁) (fun h => h h₂)
  have hnone : lead { f with alt := false } nul = [] := by simp [lead,hun.plus,hun.space,hun.negative]
  by_cases hzero : n = 0
  · subst hzero
    have hlead : lead g nul = [] := by
      have hoff : f.alt = false := by simp [hun.alt]
      have hf : { f with alt := false } = f := by rw [← hoff]
      rw [hg,hf,ite_self,← hf,hnone]
    have hone : buf = [byte '0'] := by rw [hbuf']; rfl
    have hrep : List.replicate (F.digits.getD 0 - 1) (byte '0') ++ [byte '0'] =
        List.replicate (max 1 (F.digits.getD 0)) (byte '0') := by
      rw [← List.replicate_succ']
      congr 1
      omega
    rw [hlead,hone]
    simpa [octalText,numeralText] using congrArg (F.text []) hrep
  · have hrev : buf.reverse = numeralText false 8 n := by
      rw [hbuf',positional,if_neg hzero]
      exact numeral_reverse hradix
    have hlen : (numeralText false 8 n).length = buf.length := by rw [← hrev,List.length_reverse]
    rw [hrev,octalText,hlen]
    by_cases hshort : buf.length < F.digits.getD 0
    · have hmax : max 1 (F.digits.getD 0 - buf.length) = F.digits.getD 0 - buf.length := by omega
      rw [hg,if_pos ⟨hshort,rfl⟩,hnone,hmax]
    · have hmax : max 1 (F.digits.getD 0 - buf.length) = 1 := by omega
      have hsub : F.digits.getD 0 - buf.length = 0 := by omega
      have hlead : lead f nul = [byte '0'] := by
        rw [hun.lead,hun.alt]
        simp [hl,halt,hzero]
      rw [hg,if_neg (fun h => hshort h.1),hlead,hmax,hsub]
      exact field_shift F _

end

structure Octal (b : Build) (ft : FloatText) (v : Conv Unit) (args : List Arg) (body : List UInt8) (o : Output) :
    Prop where
  prints : format b ft (render [.conv v]) args = .ok o
  done : o.failed = false
  inInt : ∀ n ∈ v.ints b (starWidth b args) (starPrec b v args) (v.value args), InInt b n
  shortest : Shortest ((v.asked b args).digits.getD 0) (wrapU (v.len.bits b) (v.value args)) body
  text : o.text = (v.asked b args).text [] body
  first : (o.text.dropWhile (· = byte ' ')).head? = some (byte '0')
  back : ∀ (bits : Nat) (builtins : Bool), wrapU (v.len.bits b) (v.value args) < 2 ^ bits → 0 < bits →
    (strtoul bits builtins o.text 0).value = wrapU (v.len.bits b) (v.value args) ∧
      (strtoul bits builtins o.text 0).errno = none

section

variable {b : Build} {ft : FloatText}

theorem octal_inInt (hb : b.Full) {F : Field} {f : Flags} (hf : Laid F f) {n : Nat} {v : Conv Unit}
    (hun : Unsigned v n f) {buf : List UInt8} (hbuf : buf.length ≤ ultoaBits b)
    (hcols : F.columns < 2 ^ (b.intBits - 1)) (hdigits : F.digits.getD 0 < 2 ^ (b.intBits - 1)) :
    ∀ k ∈ layoutInts f F.columns (F.digits.getD 0 : Nat) nul buf, InInt b k := by
  obtain ⟨g,hg⟩ : ∃ g, g = if buf.length < F.digits.getD 0 ∧ nul = nul then { f with alt := false } else f := ⟨_,rfl⟩
  have hroom := hb.room
  have hwhole := hb.whole
  have htwo := lead_length g nul
  refine (ints_iff hf hg (by omega) hcols hdigits).mpr ?_
  by_cases hshort : buf.length < F.digits.getD 0
  · have hnone : lead g nul = [] := by
      rw [hg,if_pos ⟨hshort,rfl⟩]
      simp [lead,hun.plus,hun.space,hun.negative]
    simpa [hnone] using hdigits
  · omega

theorem blanks_dropped (i : Nat) (l : List UInt8) :
    ((List.replicate i 0x20 ++ 0x30 :: l).dropWhile (· = byte ' ')).head? = some (byte '0') := by
  induction i with
  | zero => rfl
  | succ i ih => exact ih

theorem octal_starts_zero (hb : b.Full) {v : Conv Unit} (hl : v.letter = .o) (halt : Flag.alt ∈ v.flags)
    {args : List Arg} (h : v.Given b args)
    (hn : wrapU (v.len.bits b) (v.value args) ≠ 0 ∨ (v.asked b args).digits ≠ some 0) :
    ∃ body o, Octal b ft v args body o := by
  have hints : v.letter ∈ Letter.ints := by
    rw [hl]
    decide
  have hmark : v.letter.mark = nul := by
    rw [hl]
    decide
  obtain ⟨hdec,hun⟩ := unsigned_decomposed hb (.inr (.inl ⟨hl,rfl,rfl⟩)) (starWidth b args) (starPrec b v args)
    (v.value args)
  have hbuf : (v.parts b (starWidth b args) (starPrec b v args) (v.value args)).2.length ≤ ultoaBits b := by
    rw [hdec.buf]
    split_ifs
    · exact Nat.zero_le _
    · exact buf_length hb.target hdec.radix hdec.range
  obtain ⟨rs,hformat⟩ := @format_int b ft hb v hints args h.fits
  have htext := intBody_field hb.full hdec.laid.left hdec.laid.zero hdec.laid.prec nul
    (v.parts b (starWidth b args) (starPrec b v args) (v.value args)).2
  rw [octal_body hl halt hun hdec.buf rfl hn,← Conv.asked] at htext
  obtain ⟨⟨ds,hds,hbody,hval,-⟩,-⟩ := octalText_shortest ((v.asked b args).digits.getD 0)
    (wrapU (v.len.bits b) (v.value args))
  obtain ⟨i,j,es,hes,hsame,hshape⟩ := field_octal (v.asked b args) hds
  rw [← hbody] at hshape
  rw [hmark,htext,hshape] at hformat
  refine ⟨_,_,hformat,rfl,?_,octalText_shortest _ _,hshape.symm,blanks_dropped i _,?_⟩
  · rw [Conv.ints,spec_adjust hb,hmark]
    exact octal_inInt hb hdec.laid hun hbuf h.width h.prec
  · intro bits builtins hlt hpos
    have hrest : ∀ c ∈ (List.replicate j (0x20 : UInt8)).head?, 8 ≤ (digitToVal c).toNat ∧ toLower c ≠ 0x78 := by
      cases j with
      | zero => simp
      | succ j =>
        simp only [List.replicate_succ,List.head?_cons,Option.mem_some_iff,forall_eq']
        decide
    have hback := strtoi_octal (k := ⟨bits,false,builtins⟩) hpos rfl hes hrest (by rw [hsame,hval]; exact hlt) i
    rw [strtoul,hback]
    exact ⟨by rw [hsame,hval],rfl⟩

end

def altOctal (flags : List Flag) (width : Width Unit) (prec : Prec Unit) : Conv Unit :=
  ⟨(),.alt :: flags,width,prec,.none,.o,by decide⟩

theorem octal_starts_zero_eight : ∃ body o, Octal lp64 noFloats (altOctal [] .none (.lit [2])) [.int 8] body o := by
  refine octal_starts_zero lp64_full rfl (by decide) ⟨?_,by decide,by decide⟩ (.inl (by decide))
  intro k e hk
  cases k with
  | zero =>
    obtain rfl := Option.some.inj hk
    exact ⟨.int 8,rfl,rfl⟩
  | succ k => cases hk

theorem octal_longer_or_empty :
    (format lp64 noFloats (render [.conv (altOctal [.zero] (.lit 5) .none)]) [.int 8] =
        .ok ⟨['0','0','0','1','0'].map byte,[⟨0,.int⟩],false⟩ ∧ ¬Shortest 0 8 (['0','0','0','1','0'].map byte)) ∧
      format lp64 noFloats (render [.conv (altOctal [] .none (.lit [0]))]) [.int 0] = .ok ⟨[],[⟨0,.int⟩],false⟩ ∧
        ¬OctalNumeral 0 0 [] := by
  have hfive : render [.conv (altOctal [.zero] (.lit 5) .none)] = ['%','#','0','5','o'] := by
    have h₅ : numeral 5 = ['5'] := numeral_digit (by decide) (by decide)
    simp [render,altOctal,Piece.chars,Conv.chars,Numbering.chars,Width.chars,Prec.chars,Len.chars,Letter.char,Flag.char,h₅]
  have hshort : OctalNumeral 0 8 (['0','1','0'].map byte) := ⟨[1,0],by decide,by decide,by decide,by decide⟩
  refine ⟨⟨?_,fun h => absurd (h.2 _ hshort) (by decide)⟩,by rfl,?_⟩
  · rw [hfive]
    rfl
  · rintro ⟨ds,-,hnil,-⟩
    cases hnil

end Printf
