import Mathlib
import Picolibc.Scanf.Input
import Picolibc.Scanf.Walk

open Ascii Strtoi Scanf.Grammar

namespace Scanf

inductive Reads {σ : Type} (src : Source σ) : σ → List UInt8 → σ → Prop where
  | nil (s : σ) : Reads src s [] s
  | cons {s s' : σ} {c : UInt8} {l : List UInt8} : (src.getc s).1 = some c → Reads src (src.getc s).2 l s' →
      Reads src s (c :: l) s'

def Room (b : Build) (width : BitVec 32) (n : Nat) : Prop := b.strto = true ∨ n ≤ width.toNat

def delimits (c : UInt8) : Bool := !isalnum c && c ≠ 0x2e && !(0x3a ≤ c && c ≤ 0x3f)

def Ended {σ : Type} (src : Source σ) (s : σ) : Prop := ∀ c ∈ (src.getc s).1, delimits c = true

structure Feed (b : Build) (text : List UInt8) where
  σ : Type
  src : Source σ
  start : σ
  stop : σ
  width : BitVec 32
  reads : Reads src start text stop
  ended : Ended src stop
  room : Room b width text.length

section

variable {σ : Type} {src : Source σ} {b : Build} {s s' : σ}

theorem room_check {width : BitVec 32} {n : Nat} (h : Room b width (n + 1)) (hn : 0 < n) :
    (b.checkWidth width).1 = true ∧ Room b (b.checkWidth width).2 n := by
  unfold Build.checkWidth
  by_cases hb : b.strto = true
  · rw [if_pos hb]
    exact ⟨rfl,.inl hb⟩
  · have hle := h.resolve_left hb
    rw [if_neg hb]
    refine ⟨?_,.inr ?_⟩
    · dsimp only
      rw [decide_eq_true_eq]
      bv_omega
    · dsimp only
      bv_omega

theorem feed_classes (hex : Bool) (c : UInt8) :
    (baseDigit hex c = true ∨ c = 0x2e → toLower c ≠ (if hex = true then 0x70 else 0x65)) ∧
    (fold c = (if hex = true then 0x70 else 0x65) → baseDigit hex c = false ∧ c ≠ 0x2e ∧ toLower c ≠ 0x78) ∧
    (baseDigit false c = true ∨ c = 0x2e → toLower c ≠ 0x6e ∧ toLower c ≠ 0x69 ∧ c ≠ 0x2d ∧ c ≠ 0x2b) ∧
    (delimits c = true → baseDigit hex c = false ∧ isdigit c = false ∧ c ≠ 0x2e ∧ toLower c ≠ 0x78 ∧
      toLower c ≠ 0x70 ∧ toLower c ≠ 0x65) := by
  have hl := toLower_toNat c
  have hf := fold_toNat c
  have hc := c.toNat_lt
  cases hex <;>
    simp only [baseDigit,wideHex,isHex,isdigit,delimits,isalnum,isalpha,← UInt8.toNat_inj,UInt8.le_iff_toNat_le,
      UInt8.reduceToNat,ne_eq,Bool.not_eq_true',Bool.or_eq_true,Bool.or_eq_false_iff,Bool.and_eq_true,
      Bool.and_eq_false_iff,decide_eq_true_eq,decide_eq_false_iff_not,Bool.false_eq_true,if_false,if_true] <;>
    split_ifs at hl hf ⊢ <;> omega

theorem delimits_plain (hex : Bool) (c : UInt8) (h : delimits c = true) :
    baseDigit hex c = false ∧ isdigit c = false ∧ c ≠ 0x2e ∧ toLower c ≠ 0x78 ∧ toLower c ≠ 0x70 ∧ toLower c ≠ 0x65 :=
  (feed_classes hex c).2.2.2 h

theorem ended_letter (h : Ended src s) (a : Acc) : (src.getc s).1.map toLower ≠ some a.expMatch := by
  cases hc : (src.getc s).1 with
  | none => simp
  | some c =>
    obtain ⟨-,-,-,-,hp,he⟩ := delimits_plain a.fhex c (h c hc)
    rw [Option.map_some,Acc.expMatch]
    split_ifs <;> simp [hp,he]

theorem ended_step (h : Ended src s) (a : Acc) : a.step b (src.getc s).1 = none := by
  cases hc : (src.getc s).1 with
  | none => rfl
  | some c =>
    obtain ⟨hdigit,-,hdot,hx,-⟩ := delimits_plain a.fhex c (h c hc)
    exact Acc.step_stops hdigit (fun heq => absurd heq hdot) fun heq => absurd heq hx

theorem step_letter {a a' : Acc} {c : UInt8} (h : a.step b (some c) = some a') : toLower c ≠ a'.expMatch := by
  have hplain : ∀ hex (c : UInt8), baseDigit hex c = true ∨ c = 0x2e → toLower c ≠ (if hex = true then 0x70 else 0x65) :=
    fun hex c => (feed_classes hex c).1
  unfold Acc.step at h
  dsimp only at h
  split_ifs at h with hdigit hdot hx
  · obtain rfl := Option.some.inj h
    rw [Acc.expMatch,(Acc.addDigit_flags _).1]
    exact hplain a.fhex c (.inl ((Acc.digit_iff c).mp hdigit))
  · obtain rfl := Option.some.inj h
    exact hplain a.fhex c (.inr hdot.1)
  · obtain rfl := Option.some.inj h
    rw [hx.1]
    exact show (0x78 : UInt8) ≠ 0x70 by decide

theorem reads_append {l r : List UInt8} (h : Reads src s (l ++ r) s') : ∃ m, Reads src s l m ∧ Reads src m r s' := by
  induction l generalizing s with
  | nil => exact ⟨s,.nil s,h⟩
  | cons c l ih =>
    cases h with
    | cons hc hrest =>
      obtain ⟨m,hl,hr⟩ := ih hrest
      exact ⟨m,.cons hc hl,hr⟩

theorem walk_cons {a a' : Acc} {c : UInt8} {l : List UInt8} {n : Nat} (h : a.walk b (c :: l) = (a',n + 1)) :
    ∃ a₁, a.step b (some c) = some a₁ ∧ a₁.walk b l = (a',n) := by
  rw [Acc.walk] at h
  cases hstep : a.step b (some c) with
  | none =>
    rw [hstep] at h
    exact absurd (congrArg Prod.snd h) (by simp)
  | some a₁ =>
    rw [hstep] at h
    obtain ⟨hacc,hcount⟩ := Prod.ext_iff.mp h
    exact ⟨a₁,rfl,Prod.ext hacc (Nat.succ.inj hcount)⟩

theorem scanDigits_reads {l : List UInt8} {c : UInt8} {a a' : Acc} {width : BitVec 32} {fuel n : Nat}
    (hwalk : a.walk b (c :: l) = (a',l.length + 1)) (hreads : Reads src s l s') (hroom : Room b width (n + (l.length + 1)))
    (hstop : a'.step b (src.getc s').1 = none) (hfuel : l.length + 1 < fuel) :
    ∃ i width' t, scanDigits b src fuel a (some c) width s = some (a',i,width',t) ∧
      (i = (src.getc s').1 ∧ t = (src.getc s').2 ∧ Room b width' n ∨ n = 0 ∧ i.map toLower ≠ some a'.expMatch) := by
  induction l generalizing s c a width fuel with
  | nil =>
    cases hreads
    obtain ⟨a₁,hstep,hrest⟩ := walk_cons hwalk
    obtain rfl : a₁ = a' := congrArg Prod.fst hrest
    obtain ⟨f,rfl⟩ : ∃ f, fuel = f + 2 := ⟨fuel - 2,by simp at hfuel; omega⟩
    unfold scanDigits
    rw [hstep]
    dsimp only
    by_cases hlast : n = 0 ∧ (b.checkWidth width).1 = false
    · rw [if_pos hlast.2]
      refine ⟨_,_,_,rfl,.inr ⟨hlast.1,?_⟩⟩
      rw [Option.map_some]
      exact fun heq => step_letter hstep (Option.some.inj heq)
    · have hcheck : (b.checkWidth width).1 = true ∧ Room b (b.checkWidth width).2 n := by
        rcases Nat.eq_zero_or_pos n with rfl | hn
        · exact ⟨Bool.not_eq_false _ ▸ fun h => hlast ⟨rfl,h⟩,.inr (Nat.zero_le _)⟩
        · exact room_check hroom hn
      rw [if_neg (by rw [hcheck.1]; decide)]
      by_cases heof : (src.getc s').1 = none
      · rw [if_pos heof]
        exact ⟨_,_,_,rfl,.inl ⟨rfl,rfl,hcheck.2⟩⟩
      · rw [if_neg heof]
        unfold scanDigits
        rw [hstop]
        exact ⟨_,_,_,rfl,.inl ⟨rfl,rfl,hcheck.2⟩⟩
  | cons d l ih =>
    obtain ⟨a₁,hstep,hrest⟩ := walk_cons hwalk
    obtain ⟨hcheck,hroom⟩ := @room_check b width (n + (l.length + 1)) hroom (by omega)
    obtain ⟨f,rfl⟩ : ∃ f, fuel = f + 1 := ⟨fuel - 1,by omega⟩
    cases hreads with
    | cons hd hl =>
      unfold scanDigits
      rw [hstep]
      dsimp only
      rw [if_neg (by rw [hcheck]; decide),hd,if_neg (by simp)]
      exact ih hrest hl hroom (by simp at hfuel; omega)

theorem scanExp_reads {ds : List UInt8} {d : UInt8} {acc : Nat} {width : BitVec 32} {fuel : Nat}
    (hds : ∀ c ∈ ds, isdigit c = true) (hreads : Reads src s ds s') (hroom : Room b width (ds.length + 1))
    (hended : Ended src s') (hfuel : ds.length < fuel) :
    ∃ width' i t, scanExp b src fuel acc d width s = some ((d :: ds).foldl (accumulate b) acc,i,width',t) := by
  induction ds generalizing s d acc width fuel with
  | nil =>
    cases hreads
    obtain ⟨f,rfl⟩ : ∃ f, fuel = f + 1 := ⟨fuel - 1,by omega⟩
    unfold scanExp
    dsimp only
    split_ifs with hcheck
    · exact ⟨_,_,_,rfl⟩
    · cases hc : (src.getc s').1 with
      | none => exact ⟨_,_,_,rfl⟩
      | some c =>
        have hdigit := (delimits_plain false c (hended c hc)).2.1
        dsimp only
        rw [if_neg (by rw [hdigit]; decide)]
        exact ⟨_,_,_,rfl⟩
  | cons c ds ih =>
    obtain ⟨hcheck,hroom⟩ := @room_check b width (ds.length + 1) hroom (Nat.succ_pos _)
    obtain ⟨f,rfl⟩ : ∃ f, fuel = f + 1 := ⟨fuel - 1,by omega⟩
    cases hreads with
    | cons hc hrest =>
      unfold scanExp
      dsimp only
      rw [if_neg (by rw [hcheck]; decide),hc]
      dsimp only
      rw [if_pos (hds c List.mem_cons_self)]
      exact ih (fun e he => hds e (List.mem_cons_of_mem c he)) hrest hroom (by simp at hfuel; omega)

theorem noExp_value (minus : Bool) (a : Acc) (exp : ℤ) (i : Option UInt8) (width : BitVec 32) (s : σ) :
    (noExp src minus a exp i width s).value = some (minus,front a exp) := rfl

theorem exponent_reads {sign ds : List UInt8} {e : UInt8} {width : BitVec 32} {fuel : Nat} (minus : Bool) (a : Acc) (exp : ℤ)
    (i : Option UInt8) (hsign : Sign sign) (hne : ds ≠ []) (hds : ∀ c ∈ ds, isdigit c = true)
    (hreads : Reads src s (sign ++ ds) s') (hended : Ended src s') (hroom : Room b width ((sign ++ ds).length + 1))
    (hfuel : ds.length < fuel) :
    ∃ t, exponent b src fuel minus a exp i width s =
      some ⟨some (minus,front a (exp + writtenExp b (e :: (sign ++ ds)))),t⟩ := by
  obtain ⟨d,ds,rfl⟩ := List.exists_cons_of_ne_nil hne
  have hd := hds d List.mem_cons_self
  have hrest : ∀ c ∈ ds, isdigit c = true := fun c hc => hds c (List.mem_cons_of_mem d hc)
  have hplain : ¬(some d = some 0x2d ∨ some d = some 0x2b) := by
    rintro (h | h)
    all_goals
      obtain rfl := Option.some.inj h
      exact absurd hd (by decide)
  have hall : (d :: ds).takeWhile isdigit = d :: ds := List.takeWhile_eq_self_iff.mpr hds
  have hsum : writtenExp b (e :: (sign ++ d :: ds)) = signExp sign.head? ((d :: ds).foldl (accumulate b) 0) := by
    unfold writtenExp
    rw [List.tail_cons]
    have hlen := signLen_sign hsign hne hds []
    rw [List.append_nil] at hlen
    rw [hlen,List.drop_left,hall]
    cases hsign with
    | absent => exact if_neg fun h => hplain (.inl h)
    | plus => rfl
    | minus => rfl
  have hdigits : ∀ {esign : Option UInt8} {width : BitVec 32} {t : σ}, Reads src t ds s' → Room b width (ds.length + 1) →
      ∃ r, exponentDigits b src fuel minus a exp i esign (some d) width t =
        some ⟨some (minus,front a (exp + signExp esign ((d :: ds).foldl (accumulate b) 0))),r⟩ := by
    intro esign width t ht hwide
    obtain ⟨width',j,r,hscan⟩ := @scanExp_reads σ src b t s' ds d 0 width fuel hrest ht hwide hended
      (by simp at hfuel; omega)
    refine ⟨if width' ≠ 0 then src.ungetc j r else r,?_⟩
    unfold exponentDigits
    dsimp only
    rw [if_pos hd,hscan,Option.map_some]
    rfl
  unfold exponent
  dsimp only
  rw [hsum]
  obtain ⟨hcheck,hroom⟩ := room_check hroom (by simp)
  rw [if_neg (by rw [hcheck]; decide)]
  cases hsign with
  | absent =>
    cases hreads with
    | cons hc ht =>
      rw [hc,if_neg hplain]
      exact hdigits ht (by simpa using hroom)
  | plus =>
    cases hreads with
    | cons hc ht =>
      cases ht with
      | cons hc' ht =>
        obtain ⟨hcheck,hroom⟩ := room_check hroom (by simp)
        rw [hc,if_pos (.inr rfl),if_neg (by rw [hcheck]; decide),hc']
        exact hdigits ht (by simpa using hroom)
  | minus =>
    cases hreads with
    | cons hc ht =>
      cases ht with
      | cons hc' ht =>
        obtain ⟨hcheck,hroom⟩ := room_check hroom (by simp)
        rw [hc,if_pos (.inl rfl),if_neg (by rw [hcheck]; decide),hc']
        exact hdigits ht (by simpa using hroom)

theorem marker_stops {a : Acc} {e : UInt8} (h : fold e = a.expMatch) : a.step b (some e) = none := by
  obtain ⟨hdigit,hdot,hx⟩ := (feed_classes a.fhex e).2.1 h
  exact Acc.step_stops hdigit (fun hc => absurd hc hdot) fun hc => absurd hc hx

theorem number_reads {c : UInt8} {m e : List UInt8} {width : BitVec 32} {a : Acc} {fuel : Nat} (minus : Bool)
    (hwalk : Acc.start.walk b (c :: m) = (a,m.length + 1)) (hany : a.any = true) (he : Exponent a.expMatch e)
    (hreads : Reads src s (m ++ e) s') (hended : Ended src s') (hroom : Room b width (m ++ e).length.succ)
    (hfuel : (m ++ e).length + 1 < fuel) :
    ∃ t, number b src fuel minus (some c) width s =
      some ⟨some (minus,front a (a.scaledExp + exponentValue b a.expMatch e)),t⟩ := by
  have hnone : ¬a.any = false := by
    rw [hany]
    decide
  obtain ⟨mid,hm,hrest⟩ := reads_append hreads
  cases he with
  | absent =>
    cases hrest
    rw [List.append_nil] at hroom hfuel
    obtain ⟨i,width',t,hscan,hrest⟩ := @scanDigits_reads σ src b s _ m c Acc.start a width fuel 0 hwalk hm
      (by rwa [Nat.zero_add]) (ended_step hended a) hfuel
    have hplain : i.map toLower ≠ some a.expMatch := by
      rcases hrest with ⟨rfl,-,-⟩ | ⟨-,hplain⟩
      · exact ended_letter hended a
      · exact hplain
    have hzero : exponentValue b a.expMatch [] = 0 := if_neg (by simp)
    unfold number
    rw [hscan,Option.bind_some,if_neg fun h => hnone h.1,if_neg fun h => hnone h.1,matchExp,if_neg hplain,hzero,add_zero]
    exact ⟨_,rfl⟩
  | @written e sign ds hmark hsign hne hds =>
    cases hrest with
    | cons hc ht =>
      have hlen : (m ++ e :: (sign ++ ds)).length.succ = (sign ++ ds).length + 1 + (m.length + 1) := by
        simp only [List.length_append,List.length_cons]
        omega
      have hstop : a.step b (src.getc mid).1 = none := by
        rw [hc]
        exact marker_stops hmark
      rw [hlen] at hroom
      obtain ⟨i,width',t,hscan,hlast⟩ := @scanDigits_reads σ src b s mid m c Acc.start a width fuel _ hwalk hm hroom
        hstop (by simp at hfuel; omega)
      obtain ⟨rfl,rfl,hwide⟩ := hlast.resolve_right fun h => absurd h.1 (Nat.succ_ne_zero _)
      have hmatch : (some e).map toLower = some a.expMatch := by
        rw [Option.map_some,(Acc.lower_letter _ (expMatch_letter a) e).mpr hmark]
      obtain ⟨t,ht⟩ := @exponent_reads σ src b _ s' sign ds e width' fuel minus a a.scaledExp (some e) hsign hne hds ht hended
        hwide (by simp at hfuel; omega)
      have hvalue : exponentValue b a.expMatch (e :: (sign ++ ds)) = writtenExp b (e :: (sign ++ ds)) :=
        if_pos (by rw [List.head?_cons,Option.map_some,hmark])
      refine ⟨t,?_⟩
      unfold number
      rw [hscan,Option.bind_some,if_neg fun h => hnone h.1,if_neg fun h => hnone h.1,matchExp]
      dsimp only
      rw [hc,if_pos hmatch,hvalue]
      exact ht

theorem number_first {c : UInt8} {m : List UInt8} (h : (Acc.start.walk b (c :: m)).2 ≠ 0) :
    toLower c ≠ 0x6e ∧ toLower c ≠ 0x69 ∧ c ≠ 0x2d ∧ c ≠ 0x2b := by
  refine (feed_classes false c).2.2.1 ?_
  by_contra hno
  push Not at hno
  refine h ?_
  rw [Acc.walk,Acc.step_stops (Bool.not_eq_true _ ▸ hno.1) (fun hc => absurd hc hno.2) fun _ h => Bool.noConfusion h.1]

theorem convFlt_reads {sign m e : List UInt8} {width : BitVec 32} {a : Acc} {fuel : Nat} (hsign : Sign sign)
    (hwalk : Acc.start.walk b m = (a,m.length)) (hany : a.any = true) (he : Exponent a.expMatch e)
    (hreads : Reads src s (sign ++ (m ++ e)) s') (hended : Ended src s') (hroom : Room b width (sign ++ (m ++ e)).length)
    (hfuel : (m ++ e).length < fuel) :
    ∃ t, convFlt b src fuel width s =
      some ⟨some (decide (sign = [0x2d]),front a (a.scaledExp + exponentValue b a.expMatch e)),t⟩ := by
  cases m with
  | nil =>
    obtain rfl : Acc.start = a := congrArg Prod.fst hwalk
    exact absurd hany (by decide)
  | cons c m =>
    obtain ⟨hn,hi,hminus,hplus⟩ := @number_first b c m (by rw [hwalk]; exact Nat.succ_ne_zero _)
    have hsubject : ∀ {minus : Bool} {width : BitVec 32} {t : σ}, Reads src t (m ++ e) s' → Room b width (m ++ e).length.succ →
        ∃ r, subject b src fuel minus (some c) width t =
          some ⟨some (minus,front a (a.scaledExp + exponentValue b a.expMatch e)),r⟩ := by
      intro minus width t ht hwide
      unfold subject
      rw [Option.map_some,if_neg fun h => hn (Option.some.inj h),if_neg fun h => hi (Option.some.inj h)]
      exact number_reads minus hwalk hany he ht hended hwide (by simpa using hfuel)
    unfold convFlt
    dsimp only
    cases hsign with
    | absent =>
      cases hreads with
      | cons hc ht =>
        rw [hc,if_neg (by simp [hminus,hplus])]
        exact hsubject ht hroom
    | plus =>
      cases hreads with
      | cons hc ht =>
        cases ht with
        | cons hc' ht =>
          obtain ⟨hcheck,hroom⟩ := room_check hroom (Nat.succ_pos _)
          rw [hc,if_pos (.inr rfl),if_neg (by rw [hcheck]; decide),hc',if_neg (by simp)]
          exact hsubject ht hroom
    | minus =>
      cases hreads with
      | cons hc ht =>
        cases ht with
        | cons hc' ht =>
          obtain ⟨hcheck,hroom⟩ := room_check hroom (Nat.succ_pos _)
          rw [hc,if_pos (.inl rfl),if_neg (by rw [hcheck]; decide),hc',if_neg (by simp)]
          exact hsubject ht hroom

end

theorem chars_reads (signed : Bool) {str l : List UInt8} {pos : Nat} (hl : str.drop pos = l) (hlow : ∀ c ∈ l, c < 0x80) :
    Reads (chars signed str) pos l (pos + l.length) := by
  induction l generalizing pos with
  | nil => exact .nil pos
  | cons c l ih =>
    have hget : (chars signed str).getc pos = (some c,pos + 1) := by
      rw [getc_drop,hl,next_plain (hlow c List.mem_cons_self)]
    refine .cons (congrArg Prod.fst hget) ?_
    rw [hget,List.length_cons,Nat.add_comm l.length,← Nat.add_assoc]
    exact ih (drop_succ hl) fun d hd => hlow d (List.mem_cons_of_mem c hd)

theorem chars_ended (signed : Bool) {str : List UInt8} {pos : Nat} (h : str.drop pos = []) : Ended (chars signed str) pos := by
  intro c hc
  rw [getc_drop,h] at hc
  obtain rfl := Option.some.inj hc
  decide

theorem drop_whole (l : List UInt8) : l.drop (0 + l.length) = [] := by rw [Nat.zero_add,List.drop_length]

def scanfSource : Source Input := ⟨Input.scanfGetc,Input.scanfUngetc⟩

def drained : List UInt8 → Input → Input
  | [], s => s
  | _ :: l, s => drained l s.scanfGetc.2

theorem input_reads {l : List UInt8} {s : Input} (h : s.unread = l) :
    Reads scanfSource s l (drained l s) ∧ Ended scanfSource (drained l s) := by
  induction l generalizing s with
  | nil =>
    have hnone := (Input.scanfGetc_nil h).1
    exact ⟨.nil s,fun c hc => absurd (hnone.symm.trans hc) (by simp)⟩
  | cons c l ih =>
    obtain ⟨hc,hrest,-⟩ := Input.scanfGetc_cons h
    obtain ⟨hreads,hended⟩ := ih hrest
    exact ⟨.cons hc hreads,hended⟩

end Scanf
