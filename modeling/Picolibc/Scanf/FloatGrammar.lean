import Mathlib
import Picolibc.Stdio.Strtoi
import Picolibc.Scanf.ConvFlt

open Ascii Strtoi

namespace Scanf

namespace Grammar

def fold (c : UInt8) : UInt8 := if 0x41 ≤ c ∧ c ≤ 0x5a then c + 0x20 else c

def isHex (c : UInt8) : Bool := isdigit c || (0x61 ≤ fold c && fold c ≤ 0x66)

def isNchar (c : UInt8) : Bool := isdigit c || (0x61 ≤ fold c && fold c ≤ 0x7a) || c = 0x5f

theorem fold_toNat (c : UInt8) :
    (fold c).toNat = if 65 ≤ c.toNat ∧ c.toNat ≤ 90 then c.toNat + 32 else c.toNat := by
  unfold fold
  simp only [UInt8.le_iff_toNat_le,UInt8.reduceToNat]
  split_ifs with h
  · rw [UInt8.toNat_add,show (0x20 : UInt8).toNat = 32 from rfl]
    omega
  · rfl

def infText : List UInt8 := [0x69,0x6e,0x66]

def infinityText : List UInt8 := [0x69,0x6e,0x66,0x69,0x6e,0x69,0x74,0x79]

def nanText : List UInt8 := [0x6e,0x61,0x6e]

inductive Sign : List UInt8 → Prop where
  | absent : Sign []
  | plus : Sign [0x2b]
  | minus : Sign [0x2d]

inductive Mantissa (digit : UInt8 → Bool) : List UInt8 → Prop where
  | whole {ds : List UInt8} : ds ≠ [] → (∀ c ∈ ds, digit c = true) → Mantissa digit ds
  | pointed {ds fs : List UInt8} : ds ++ fs ≠ [] → (∀ c ∈ ds ++ fs, digit c = true) → Mantissa digit (ds ++ 0x2e :: fs)

inductive Exponent (letter : UInt8) : List UInt8 → Prop where
  | absent : Exponent letter []
  | written {e : UInt8} {sign ds : List UInt8} : fold e = letter → Sign sign → ds ≠ [] → (∀ c ∈ ds, isdigit c = true) →
      Exponent letter (e :: (sign ++ ds))

inductive Subject : List UInt8 → Prop where
  | decimal {m e : List UInt8} : Mantissa isdigit m → Exponent 0x65 e → Subject (m ++ e)
  | hexadecimal {x : UInt8} {m e : List UInt8} : fold x = 0x78 → Mantissa isHex m → Exponent 0x70 e →
      Subject (0x30 :: x :: (m ++ e))
  | inf {l : List UInt8} : l.map fold = infText → Subject l
  | infinity {l : List UInt8} : l.map fold = infinityText → Subject l
  | nan {l : List UInt8} : l.map fold = nanText → Subject l
  | nanChars {l cs : List UInt8} : l.map fold = nanText → (∀ c ∈ cs, isNchar c = true) →
      Subject (l ++ 0x28 :: (cs ++ [0x29]))

inductive Field : List UInt8 → Prop where
  | mk {space sign text : List UInt8} : (∀ c ∈ space, isspace c = true) → Sign sign → Subject text →
      Field (space ++ (sign ++ text))

def LongestField (str : List UInt8) (n : Nat) : Prop :=
  (∃ text, Field text ∧ text <+: str ∧ text.length = n ∧ ∀ text', Field text' → text' <+: str → text'.length ≤ n) ∨
    (n = 0 ∧ ∀ text, Field text → ¬text <+: str)

def mantissaLen (digit : UInt8 → Bool) (l : List UInt8) : Nat :=
  let ds := l.takeWhile digit
  let r := l.dropWhile digit
  if r.head? = some 0x2e then
    if ds = [] ∧ r.tail.takeWhile digit = [] then 0 else ds.length + 1 + (r.tail.takeWhile digit).length
  else ds.length

def signLen (l : List UInt8) : Nat := if l.head? = some 0x2d ∨ l.head? = some 0x2b then 1 else 0

def exponentLen (letter : UInt8) (l : List UInt8) : Nat :=
  if l.head?.map fold = some letter then
    let sign := signLen l.tail
    let ds := (l.tail.drop sign).takeWhile isdigit
    if ds = [] then 0 else 1 + sign + ds.length
  else 0

def numberLen (digit : UInt8 → Bool) (letter : UInt8) (l : List UInt8) : Nat :=
  if mantissaLen digit l = 0 then 0 else mantissaLen digit l + exponentLen letter (l.drop (mantissaLen digit l))

def hexLen : List UInt8 → Nat
  | 0x30 :: x :: l => if fold x = 0x78 ∧ mantissaLen isHex l ≠ 0 then 2 + numberLen isHex 0x70 l else 0
  | _ => 0

def nanLen (l : List UInt8) : Nat :=
  let cs := l.tail.takeWhile isNchar
  if l.head? = some 0x28 ∧ (l.tail.drop cs.length).head? = some 0x29 then 3 + (2 + cs.length) else 3

def wordLen (l : List UInt8) : Nat :=
  if (l.take 8).map fold = infinityText then 8 else
  if (l.take 3).map fold = infText then 3 else
  if (l.take 3).map fold = nanText then nanLen (l.drop 3) else 0

def subjectLen (l : List UInt8) : Nat :=
  if hexLen l ≠ 0 then hexLen l else
  if numberLen isdigit 0x65 l ≠ 0 then numberLen isdigit 0x65 l else wordLen l

theorem takeWhile_append {p : UInt8 → Bool} {xs : List UInt8} (h : ∀ c ∈ xs, p c = true) (rest : List UInt8) :
    (xs ++ rest).takeWhile p = xs ++ rest.takeWhile p ∧ (xs ++ rest).dropWhile p = rest.dropWhile p := by
  induction xs with
  | nil => exact ⟨rfl,rfl⟩
  | cons c xs ih =>
    have hc := h c List.mem_cons_self
    obtain ⟨htake,hdrop⟩ := ih fun d hd => h d (List.mem_cons_of_mem c hd)
    simp [hc,htake,hdrop]

theorem takeWhile_stops {p : UInt8 → Bool} {l : List UInt8} (h : ∀ c ∈ l.head?, p c = false) :
    l.takeWhile p = [] ∧ l.dropWhile p = l := by
  cases l with
  | nil => exact ⟨rfl,rfl⟩
  | cons c l =>
    have hc := h c rfl
    simp [hc]

section

variable {digit : UInt8 → Bool} {l : List UInt8}

theorem mantissa_whole {ds rest : List UInt8} (hall : ∀ c ∈ ds, digit c = true)
    (hrest : ∀ c ∈ rest.head?, digit c = false ∧ c ≠ 0x2e) : mantissaLen digit (ds ++ rest) = ds.length := by
  obtain ⟨htake,hdrop⟩ := takeWhile_append hall rest
  obtain ⟨hnone,hstay⟩ := takeWhile_stops (p := digit) fun c hc => (hrest c hc).1
  have hhead : rest.head? ≠ some 0x2e := fun hc => (hrest _ hc).2 rfl
  unfold mantissaLen
  dsimp only
  rw [htake,hdrop,hnone,hstay,if_neg hhead,List.append_nil]

theorem mantissa_pointed (hdot : digit 0x2e = false) {ds fs rest : List UInt8} (hne : ds ++ fs ≠ [])
    (hall : ∀ c ∈ ds ++ fs, digit c = true) :
    mantissaLen digit (ds ++ 0x2e :: (fs ++ rest)) = ds.length + 1 + (fs.length + (rest.takeWhile digit).length) := by
  have hstop : ∀ c ∈ (0x2e :: (fs ++ rest)).head?, digit c = false := by
    rintro c hc
    obtain rfl := Option.some.inj hc
    exact hdot
  obtain ⟨htake,hdrop⟩ := takeWhile_append (fun c hc => hall c (List.mem_append_left fs hc)) (0x2e :: (fs ++ rest))
  obtain ⟨hfs,-⟩ := takeWhile_append (fun c hc => hall c (List.mem_append_right ds hc)) rest
  unfold mantissaLen
  dsimp only
  rw [htake,hdrop,(takeWhile_stops hstop).1,(takeWhile_stops hstop).2,List.head?_cons,if_pos rfl,List.tail_cons,hfs,
    List.append_nil,List.length_append,if_neg]
  rintro ⟨rfl,hnil⟩
  exact hne (List.append_eq_nil_iff.mp hnil).1

inductive Split (digit : UInt8 → Bool) : List UInt8 → List UInt8 → Bool → List UInt8 → List UInt8 → Prop where
  | whole {ds rest : List UInt8} : (∀ c ∈ ds, digit c = true) → (∀ c ∈ rest.head?, digit c = false ∧ c ≠ 0x2e) →
      Split digit (ds ++ rest) ds false [] rest
  | pointed {ds fs rest : List UInt8} : (∀ c ∈ ds ++ fs, digit c = true) → (∀ c ∈ rest.head?, digit c = false) →
      Split digit (ds ++ 0x2e :: (fs ++ rest)) ds true fs rest

theorem stopped {p : UInt8 → Bool} {l r : List UInt8} {c : UInt8} (h : l.dropWhile p = c :: r) : p c = false := by
  have hhead := List.head?_dropWhile_not p l
  rw [h] at hhead
  simpa using hhead

theorem split_exists (digit : UInt8 → Bool) (l : List UInt8) : ∃ ds dot fs rest, Split digit l ds dot fs rest := by
  have hsplit := List.takeWhile_append_dropWhile (p := digit) (l := l)
  have hds : ∀ c ∈ l.takeWhile digit, digit c = true := fun c => List.mem_takeWhile_imp
  cases hr : l.dropWhile digit with
  | nil =>
    rw [← hsplit,hr]
    exact ⟨_,false,[],[],.whole hds fun c hc => absurd hc (by simp)⟩
  | cons c r =>
    rw [← hsplit,hr]
    by_cases hdot : c = 0x2e
    · subst hdot
      have hfs : ∀ d ∈ r.takeWhile digit, digit d = true := fun d => List.mem_takeWhile_imp
      rw [← List.takeWhile_append_dropWhile (p := digit) (l := r)]
      refine ⟨_,true,_,_,.pointed (fun d hd => ?_) fun d hd => ?_⟩
      · exact (List.mem_append.mp hd).elim (hds d) (hfs d)
      · cases ht : r.dropWhile digit with
        | nil => exact absurd hd (by simp [ht])
        | cons e t =>
          rw [ht] at hd
          obtain rfl := Option.some.inj hd
          exact stopped ht
    · refine ⟨_,false,[],_,.whole hds ?_⟩
      rintro d hd
      obtain rfl := Option.some.inj hd
      exact ⟨stopped hr,hdot⟩

theorem split_mantissaLen (hdot : digit 0x2e = false) {ds fs rest : List UInt8} {dot : Bool}
    (h : Split digit l ds dot fs rest) :
    mantissaLen digit l = if ds ++ fs = [] then 0 else ds.length + dot.toNat + fs.length := by
  cases h with
  | whole hds hrest =>
    rw [mantissa_whole hds hrest,List.append_nil]
    split_ifs with hnil
    · rw [hnil,List.length_nil]
    · rfl
  | @pointed ds fs rest hall hrest =>
    split_ifs with hnil
    · obtain ⟨rfl,rfl⟩ := List.append_eq_nil_iff.mp hnil
      unfold mantissaLen
      dsimp only
      have hstop : ∀ c ∈ (0x2e :: ([] ++ rest)).head?, digit c = false := by
        rintro c hc
        obtain rfl := Option.some.inj hc
        exact hdot
      rw [List.nil_append,(takeWhile_stops hstop).1,(takeWhile_stops hstop).2,List.head?_cons,if_pos rfl,List.tail_cons,
        List.nil_append,(takeWhile_stops hrest).1,if_pos ⟨rfl,rfl⟩]
    · rw [mantissa_pointed hdot hnil hall,(takeWhile_stops hrest).1]
      rfl

theorem mantissa_exact (hdot : digit 0x2e = false) {m rest : List UInt8} (h : Mantissa digit m)
    (hrest : ∀ c ∈ rest.head?, digit c = false ∧ c ≠ 0x2e) : mantissaLen digit (m ++ rest) = m.length := by
  cases h with
  | whole hne hall => exact mantissa_whole hall hrest
  | pointed hne hall =>
    rw [List.append_assoc,List.cons_append,mantissa_pointed hdot hne hall,
      (takeWhile_stops fun c hc => (hrest c hc).1).1,List.length_append,List.length_cons,List.length_nil]
    omega

theorem mantissa_longest (hdot : digit 0x2e = false) {m : List UInt8} (rest : List UInt8) (h : Mantissa digit m) :
    m.length ≤ mantissaLen digit (m ++ rest) := by
  cases h with
  | whole hne hall =>
    obtain ⟨htake,hdrop⟩ := takeWhile_append hall rest
    unfold mantissaLen
    dsimp only
    rw [htake,hdrop]
    split_ifs with hhead hnil
    · exact absurd (List.append_eq_nil_iff.mp hnil.1).1 hne
    all_goals
      rw [List.length_append]
      omega
  | pointed hne hall =>
    rw [List.append_assoc,List.cons_append,mantissa_pointed hdot hne hall,List.length_append,List.length_cons]
    omega

theorem mantissa_pos {m : List UInt8} (h : Mantissa digit m) : 0 < m.length := by
  cases h with
  | whole hne _ => exact List.length_pos_iff.mpr hne
  | pointed _ _ => simp

theorem mantissa_sound (h : mantissaLen digit l ≠ 0) :
    Mantissa digit (l.take (mantissaLen digit l)) ∧ mantissaLen digit l ≤ l.length := by
  have hsplit := List.takeWhile_append_dropWhile (p := digit) (l := l)
  have hds : ∀ c ∈ l.takeWhile digit, digit c = true := fun c => List.mem_takeWhile_imp
  unfold mantissaLen at h ⊢
  dsimp only at h ⊢
  generalize l.takeWhile digit = ds at *
  generalize l.dropWhile digit = r at *
  subst hsplit
  by_cases hdot : r.head? = some 0x2e
  · obtain ⟨r,rfl⟩ : ∃ r', r = 0x2e :: r' := by
      cases r with
      | nil => exact absurd hdot (by simp)
      | cons c r => exact ⟨r,by rw [Option.some.inj hdot]⟩
    have hsplit := List.takeWhile_append_dropWhile (p := digit) (l := r)
    have hfs : ∀ c ∈ r.takeWhile digit, digit c = true := fun c => List.mem_takeWhile_imp
    rw [if_pos hdot,List.tail_cons] at h ⊢
    generalize r.takeWhile digit = fs at *
    generalize r.dropWhile digit = rest at *
    subst hsplit
    by_cases hnil : ds = [] ∧ fs = []
    · exact absurd (if_pos hnil) h
    · rw [if_neg hnil]
      have htext : (ds ++ 0x2e :: (fs ++ rest)).take (ds.length + 1 + fs.length) = ds ++ 0x2e :: fs := by
        rw [show ds ++ 0x2e :: (fs ++ rest) = (ds ++ 0x2e :: fs) ++ rest by simp,List.take_left']
        simp
        omega
      rw [htext]
      refine ⟨.pointed (fun hboth => hnil (List.append_eq_nil_iff.mp hboth)) fun c hc => ?_,by simp; omega⟩
      exact (List.mem_append.mp hc).elim (hds c) (hfs c)
  · rw [if_neg hdot] at h ⊢
    rw [List.take_left]
    exact ⟨.whole (List.length_pos_iff.mp (Nat.pos_of_ne_zero h)) hds,by simp⟩

theorem signLen_sign {sign ds : List UInt8} (h : Sign sign) (hne : ds ≠ []) (hds : ∀ c ∈ ds, isdigit c = true)
    (rest : List UInt8) : signLen (sign ++ (ds ++ rest)) = sign.length := by
  cases h with
  | plus => rfl
  | minus => rfl
  | absent =>
    obtain ⟨d,ds,rfl⟩ := List.exists_cons_of_ne_nil hne
    have hd := hds d List.mem_cons_self
    refine if_neg ?_
    rintro (hc | hc)
    all_goals
      obtain rfl := Option.some.inj hc
      exact absurd hd (by decide)

theorem exponent_longest {letter : UInt8} {e : List UInt8} (rest : List UInt8) (h : Exponent letter e) :
    e.length ≤ exponentLen letter (e ++ rest) := by
  cases h with
  | absent => exact Nat.zero_le _
  | @written c sign ds hletter hsign hne hds =>
    obtain ⟨htake,-⟩ := takeWhile_append hds rest
    unfold exponentLen
    dsimp only
    rw [List.cons_append,List.head?_cons,Option.map_some,hletter,if_pos rfl,List.tail_cons,List.append_assoc,
      signLen_sign hsign hne hds,List.drop_left,htake,if_neg fun hnil => hne (List.append_eq_nil_iff.mp hnil).1]
    simp only [List.length_cons,List.length_append]
    omega

theorem sign_take (l : List UInt8) : Sign (l.take (signLen l)) ∧ signLen l ≤ l.length := by
  unfold signLen
  cases l with
  | nil => exact ⟨.absent,Nat.le_refl 0⟩
  | cons c l =>
    split_ifs with hsign
    · refine ⟨?_,by simp⟩
      rcases hsign with hc | hc
      all_goals obtain rfl := Option.some.inj hc
      · exact .minus
      · exact .plus
    · exact ⟨.absent,Nat.zero_le _⟩

theorem exponent_sound (letter : UInt8) (l : List UInt8) :
    Exponent letter (l.take (exponentLen letter l)) ∧ exponentLen letter l ≤ l.length := by
  unfold exponentLen
  cases l with
  | nil => exact ⟨.absent,Nat.zero_le _⟩
  | cons e l =>
    dsimp only
    rw [List.head?_cons,Option.map_some,List.tail_cons]
    obtain ⟨hsign,hwithin⟩ := sign_take l
    have hds : ∀ c ∈ (l.drop (signLen l)).takeWhile isdigit, isdigit c = true := fun c => List.mem_takeWhile_imp
    have hparts : l = l.take (signLen l) ++ ((l.drop (signLen l)).takeWhile isdigit ++ (l.drop (signLen l)).dropWhile isdigit) := by
      rw [List.takeWhile_append_dropWhile,List.take_append_drop]
    have hlen : (l.take (signLen l)).length = signLen l := List.length_take_of_le hwithin
    split_ifs with hletter hnil
    · exact ⟨.absent,Nat.zero_le _⟩
    · generalize (l.drop (signLen l)).takeWhile isdigit = ds at *
      generalize (l.drop (signLen l)).dropWhile isdigit = rest at *
      generalize l.take (signLen l) = sign at *
      generalize signLen l = n at *
      subst hlen hparts
      have htake : (e :: (sign ++ (ds ++ rest))).take (1 + sign.length + ds.length) = e :: (sign ++ ds) := by
        rw [show e :: (sign ++ (ds ++ rest)) = (e :: (sign ++ ds)) ++ rest by simp,List.take_left']
        simp
        omega
      rw [htake]
      exact ⟨.written (Option.some.inj hletter) hsign hnil hds,by simp; omega⟩
    · exact ⟨.absent,Nat.zero_le _⟩

theorem number_longest (hdot : digit 0x2e = false) {letter : UInt8}
    (hletter : ∀ c, fold c = letter → digit c = false ∧ c ≠ 0x2e) {m e : List UInt8} (rest : List UInt8)
    (hm : Mantissa digit m) (he : Exponent letter e) : (m ++ e).length ≤ numberLen digit letter (m ++ e ++ rest) := by
  have hpos := mantissa_pos hm
  rw [List.append_assoc]
  unfold numberLen
  cases he with
  | absent =>
    have hlong := mantissa_longest hdot rest hm
    rw [List.append_nil,List.nil_append,if_neg (by omega)]
    omega
  | @written c sign ds hc hsign hne hds =>
    have hexact : mantissaLen digit (m ++ (c :: (sign ++ ds) ++ rest)) = m.length := by
      refine mantissa_exact hdot hm ?_
      rintro d hd
      obtain rfl := Option.some.inj hd
      exact hletter _ hc
    have hexp := exponent_longest rest (.written hc hsign hne hds)
    rw [hexact,if_neg hpos.ne',List.drop_left,List.length_append]
    omega

theorem number_sound {letter : UInt8} (h : numberLen digit letter l ≠ 0) :
    (∃ m e, Mantissa digit m ∧ Exponent letter e ∧ l.take (numberLen digit letter l) = m ++ e) ∧
      numberLen digit letter l ≤ l.length := by
  unfold numberLen at h ⊢
  have hzero : mantissaLen digit l ≠ 0 := fun hzero => h (if_pos hzero)
  obtain ⟨hmant,hwithin⟩ := mantissa_sound hzero
  rw [if_neg hzero]
  obtain ⟨hexp,hlen⟩ := exponent_sound letter (l.drop (mantissaLen digit l))
  rw [List.length_drop] at hlen
  exact ⟨⟨_,_,hmant,hexp,List.take_add⟩,by omega⟩

end

theorem fold_classes (c : UInt8) :
    (fold c = 0x65 → isdigit c = false ∧ c ≠ 0x2e) ∧
    (fold c = 0x70 → isHex c = false ∧ c ≠ 0x2e) ∧
    (fold c = 0x78 → isdigit c = false ∧ c ≠ 0x2e ∧ fold c ≠ 0x65) ∧
    (fold c = 0x69 ∨ fold c = 0x6e → isdigit c = false ∧ c ≠ 0x2e ∧ c ≠ 0x30) ∧
    (isdigit c = true ∨ c = 0x2e ∨ fold c = 0x69 ∨ fold c = 0x6e →
      isspace c = false ∧ c ≠ 0x2d ∧ c ≠ 0x2b) := by
  have hf := fold_toNat c
  simp only [isdigit,isHex,isspace,← UInt8.toNat_inj,UInt8.le_iff_toNat_le,UInt8.reduceToNat,ne_eq,
    Bool.or_eq_false_iff,Bool.and_eq_true,Bool.and_eq_false_iff,decide_eq_true_eq,decide_eq_false_iff_not]
  split_ifs at hf <;> omega

theorem fold_e (c : UInt8) (h : fold c = 0x65) : isdigit c = false ∧ c ≠ 0x2e := (fold_classes c).1 h

theorem fold_p (c : UInt8) (h : fold c = 0x70) : isHex c = false ∧ c ≠ 0x2e := (fold_classes c).2.1 h

theorem fold_x (c : UInt8) (h : fold c = 0x78) : isdigit c = false ∧ c ≠ 0x2e ∧ fold c ≠ 0x65 :=
  (fold_classes c).2.2.1 h

theorem fold_word (c : UInt8) (h : fold c = 0x69 ∨ fold c = 0x6e) : isdigit c = false ∧ c ≠ 0x2e ∧ c ≠ 0x30 :=
  (fold_classes c).2.2.2.1 h

theorem hex_shape {l : List UInt8} (h : hexLen l ≠ 0) :
    ∃ x r, l = 0x30 :: x :: r ∧ fold x = 0x78 ∧ mantissaLen isHex r ≠ 0 ∧ hexLen l = 2 + numberLen isHex 0x70 r := by
  unfold hexLen at h
  split at h
  · rename_i x r
    have hcond : fold x = 0x78 ∧ mantissaLen isHex r ≠ 0 := by
      by_contra hc
      exact h (if_neg hc)
    exact ⟨x,r,rfl,hcond.1,hcond.2,if_pos hcond⟩
  · exact absurd rfl h

theorem zero_before_x {x : UInt8} (hx : fold x = 0x78) (r : List UInt8) : numberLen isdigit 0x65 (0x30 :: x :: r) = 1 := by
  obtain ⟨hdigit,hdot,he⟩ := fold_x x hx
  have hmant : mantissaLen isdigit ([0x30] ++ x :: r) = 1 := by
    refine mantissa_whole (fun c hc => ?_) fun c hc => ?_
    · rw [List.mem_singleton.mp hc]
      decide
    · obtain rfl := Option.some.inj hc
      exact ⟨hdigit,hdot⟩
  have hexp : exponentLen 0x65 (x :: r) = 0 := if_neg fun hc => he (Option.some.inj hc)
  rw [List.singleton_append] at hmant
  unfold numberLen
  rw [hmant,if_neg one_ne_zero]
  exact congrArg (1 + ·) hexp

theorem word_number {l : List UInt8} {c : UInt8} (hhead : l.head? = some c) (hc : fold c = 0x69 ∨ fold c = 0x6e) :
    subjectLen l = wordLen l := by
  obtain ⟨hdigit,hdot,hzero⟩ := fold_word c hc
  have hhex : hexLen l = 0 := by
    by_contra hne
    obtain ⟨x,r,rfl,-⟩ := hex_shape hne
    exact hzero (Option.some.inj hhead).symm
  have hmant : mantissaLen isdigit ([] ++ l) = 0 := by
    refine mantissa_whole (by simp) ?_
    rintro d hd
    rw [hhead] at hd
    obtain rfl := Option.some.inj hd
    exact ⟨hdigit,hdot⟩
  have hnum : numberLen isdigit 0x65 l = 0 := if_pos hmant
  rw [subjectLen,if_neg (not_not.mpr hhex),if_neg (not_not.mpr hnum)]

theorem mapped_head {p w : List UInt8} {c : UInt8} (h : p.map fold = c :: w) (rest : List UInt8) :
    ∃ d, (p ++ rest).head? = some d ∧ fold d = c := by
  cases p with
  | nil => exact absurd h (by simp)
  | cons d p => exact ⟨d,rfl,(List.cons.inj h).1⟩

theorem mapped_take {p w : List UInt8} (h : p.map fold = w) (rest : List UInt8) :
    ((p ++ rest).take w.length).map fold = w := by
  have hlen : p.length = w.length := by rw [← h,List.length_map]
  rw [← hlen,List.take_left,h]

theorem mapped_length {p w : List UInt8} (h : p.map fold = w) : p.length = w.length := by
  rw [← h,List.length_map]

theorem mapped_start {l w v : List UInt8} (h : (l.take (w ++ v).length).map fold = w ++ v) :
    (l.take w.length).map fold = w := by
  have hmin : min w.length (w ++ v).length = w.length := by simp
  rw [← hmin,← List.take_take,List.map_take,h,List.take_left]

theorem nan_not_inf {l : List UInt8} (h : (l.take 3).map fold = nanText) :
    (l.take 8).map fold ≠ infinityText ∧ (l.take 3).map fold ≠ infText := by
  refine ⟨fun hinf => ?_,fun hinf => ?_⟩
  · have hthree : (l.take 3).map fold = infText := @mapped_start l infText (infinityText.drop 3) hinf
    exact absurd (h.symm.trans hthree) (by decide)
  · exact absurd (h.symm.trans hinf) (by decide)

theorem nanLen_chars {cs : List UInt8} (h : ∀ c ∈ cs, isNchar c = true) (rest : List UInt8) :
    nanLen (0x28 :: (cs ++ 0x29 :: rest)) = 3 + (2 + cs.length) := by
  obtain ⟨htake,-⟩ := takeWhile_append h (0x29 :: rest)
  have hstop := takeWhile_stops (p := isNchar) (l := 0x29 :: rest) fun c hc => by
    obtain rfl := Option.some.inj hc
    decide
  unfold nanLen
  dsimp only
  rw [List.tail_cons,htake,hstop.1,List.append_nil,List.drop_left]
  exact if_pos ⟨rfl,rfl⟩

theorem three_le_nanLen (l : List UInt8) : 3 ≤ nanLen l := by
  unfold nanLen
  dsimp only
  split_ifs <;> omega

theorem subject_longest {p : List UInt8} (rest : List UInt8) (h : Subject p) : p.length ≤ subjectLen (p ++ rest) := by
  cases h with
  | @decimal m e hm he =>
    have hnum := number_longest (by decide) fold_e rest hm he
    unfold subjectLen
    split_ifs with hhex hdec
    · obtain ⟨x,r,hl,hx,-,hlen⟩ := hex_shape hhex
      rw [hl,zero_before_x hx] at hnum
      omega
    · exact hnum
    · omega
  | @hexadecimal x m e hx hm he =>
    have hnum := number_longest (by decide) fold_p rest hm he
    have hmant := @mantissa_longest isHex (by decide) _ (e ++ rest) hm
    have hpos := mantissa_pos hm
    rw [← List.append_assoc] at hmant
    have hhex : hexLen (0x30 :: x :: (m ++ e ++ rest)) = 2 + numberLen isHex 0x70 (m ++ e ++ rest) := if_pos ⟨hx,by omega⟩
    rw [List.cons_append,List.cons_append,subjectLen,hhex,if_pos (by omega),List.length_cons,List.length_cons]
    omega
  | inf hp =>
    obtain ⟨c,hhead,hc⟩ := mapped_head hp rest
    have hlen := mapped_length hp
    rw [word_number hhead (.inl hc),wordLen,if_pos (c := (List.take 3 (p ++ rest)).map fold = infText) (mapped_take hp rest)]
    split_ifs <;> simp [hlen,infText]
  | infinity hp =>
    obtain ⟨c,hhead,hc⟩ := mapped_head hp rest
    have hlen := mapped_length hp
    rw [word_number hhead (.inl hc),wordLen,if_pos (c := (List.take 8 (p ++ rest)).map fold = infinityText) (mapped_take hp rest)]
    exact hlen.le
  | nan hp =>
    obtain ⟨c,hhead,hc⟩ := mapped_head hp rest
    have hlen := mapped_length hp
    have hthree : ((p ++ rest).take 3).map fold = nanText := mapped_take hp rest
    rw [word_number hhead (.inr hc),wordLen,if_neg (nan_not_inf hthree).1,if_neg (nan_not_inf hthree).2,if_pos hthree,hlen]
    exact three_le_nanLen _
  | @nanChars w cs hp hcs =>
    obtain ⟨c,hhead,hc⟩ := mapped_head hp (0x28 :: (cs ++ [0x29]) ++ rest)
    have hlen : w.length = 3 := mapped_length hp
    rw [List.append_assoc]
    have hthree : ((w ++ (0x28 :: (cs ++ [0x29]) ++ rest)).take 3).map fold = nanText := mapped_take hp _
    have hdrop : (w ++ (0x28 :: (cs ++ [0x29]) ++ rest)).drop 3 = 0x28 :: (cs ++ 0x29 :: rest) := by
      rw [← hlen,List.drop_left]
      simp
    rw [word_number hhead (.inr hc),wordLen,if_neg (nan_not_inf hthree).1,if_neg (nan_not_inf hthree).2,if_pos hthree,
      hdrop,nanLen_chars hcs]
    simp [hlen]
    omega

theorem take_within {l w : List UInt8} (h : (l.take w.length).map fold = w) : w.length ≤ l.length := by
  have hlen := mapped_length h
  rw [List.length_take] at hlen
  omega

theorem nan_sound {l : List UInt8} (h : (l.take 3).map fold = nanText) :
    Subject (l.take (nanLen (l.drop 3))) ∧ nanLen (l.drop 3) ≤ l.length := by
  have hwithin : 3 ≤ l.length := @take_within l nanText h
  have hsplit := List.take_append_drop 3 l
  have hlen : (l.take 3).length = 3 := List.length_take_of_le hwithin
  generalize l.take 3 = w at *
  generalize l.drop 3 = r at *
  subst hsplit
  unfold nanLen
  dsimp only
  split_ifs with hclosed
  · obtain ⟨hopen,hclose⟩ := hclosed
    cases r with
    | nil => exact absurd hopen (by simp)
    | cons c r =>
      obtain rfl := Option.some.inj hopen
      have hparts := List.takeWhile_append_dropWhile (p := isNchar) (l := r)
      have hcs : ∀ c ∈ r.takeWhile isNchar, isNchar c = true := fun c => List.mem_takeWhile_imp
      rw [List.tail_cons] at hclose ⊢
      generalize r.takeWhile isNchar = cs at *
      generalize r.dropWhile isNchar = t at *
      subst hparts
      rw [List.drop_left] at hclose
      cases t with
      | nil => exact absurd hclose (by simp)
      | cons d t =>
        obtain rfl := Option.some.inj hclose
        have htake : (w ++ 0x28 :: (cs ++ 0x29 :: t)).take (3 + (2 + cs.length)) = w ++ 0x28 :: (cs ++ [0x29]) := by
          rw [show w ++ 0x28 :: (cs ++ 0x29 :: t) = (w ++ 0x28 :: (cs ++ [0x29])) ++ t by simp,List.take_left']
          simp [hlen]
          omega
        rw [htake]
        exact ⟨.nanChars h hcs,by simp; omega⟩
  · rw [← hlen,List.take_left]
    exact ⟨.nan h,by simp⟩

theorem subject_sound {l : List UInt8} (h : subjectLen l ≠ 0) :
    Subject (l.take (subjectLen l)) ∧ subjectLen l ≤ l.length := by
  unfold subjectLen at h ⊢
  by_cases hhex : hexLen l ≠ 0
  · obtain ⟨x,r,rfl,hx,hmant,hlen⟩ := hex_shape hhex
    have hnum : numberLen isHex 0x70 r ≠ 0 := by
      unfold numberLen
      rw [if_neg hmant]
      omega
    obtain ⟨⟨m,e,hm,he,htake⟩,hwithin⟩ := number_sound hnum
    rw [if_pos hhex,hlen,Nat.add_comm,List.take_succ_cons,List.take_succ_cons,htake,List.length_cons,List.length_cons]
    exact ⟨.hexadecimal hx hm he,by omega⟩
  · rw [if_neg hhex] at h ⊢
    by_cases hdec : numberLen isdigit 0x65 l ≠ 0
    · obtain ⟨⟨m,e,hm,he,htake⟩,hwithin⟩ := number_sound hdec
      rw [if_pos hdec,htake]
      exact ⟨.decimal hm he,hwithin⟩
    · rw [if_neg hdec] at h ⊢
      unfold wordLen at h ⊢
      split_ifs at h ⊢ with hinfinity hinf hnan
      · exact ⟨.infinity hinfinity,@take_within l infinityText hinfinity⟩
      · exact ⟨.inf hinf,@take_within l infText hinf⟩
      · exact nan_sound hnan
      · exact absurd rfl h

theorem lead_plain (c : UInt8) (h : isdigit c = true ∨ c = 0x2e ∨ fold c = 0x69 ∨ fold c = 0x6e) :
    isspace c = false ∧ c ≠ 0x2d ∧ c ≠ 0x2b :=
  (fold_classes c).2.2.2.2 h

theorem subject_head {p : List UInt8} (h : Subject p) : ∃ c r, p = c :: r ∧ isspace c = false ∧ c ≠ 0x2d ∧ c ≠ 0x2b := by
  have lead : ∀ q : List UInt8, (∃ c, q.head? = some c ∧ (isdigit c = true ∨ c = 0x2e ∨ fold c = 0x69 ∨ fold c = 0x6e)) →
      ∃ c r, q = c :: r ∧ isspace c = false ∧ c ≠ 0x2d ∧ c ≠ 0x2b := by
    rintro q ⟨c,hc,hlead⟩
    cases q with
    | nil => exact absurd hc (by simp)
    | cons d r =>
      obtain rfl := Option.some.inj hc
      exact ⟨d,r,rfl,lead_plain d hlead⟩
  refine lead p ?_
  cases h with
  | decimal hm _ =>
    cases hm with
    | @whole ds hne hall =>
      obtain ⟨d,ds,rfl⟩ := List.exists_cons_of_ne_nil hne
      exact ⟨d,rfl,.inl (hall d List.mem_cons_self)⟩
    | @pointed ds fs hne hall =>
      cases ds with
      | nil => exact ⟨0x2e,rfl,.inr (.inl rfl)⟩
      | cons d ds => exact ⟨d,rfl,.inl (hall d List.mem_cons_self)⟩
  | hexadecimal _ _ _ => exact ⟨0x30,rfl,.inl (by decide)⟩
  | inf hp =>
    obtain ⟨c,hhead,hc⟩ := mapped_head hp []
    exact ⟨c,by simpa using hhead,.inr (.inr (.inl hc))⟩
  | infinity hp =>
    obtain ⟨c,hhead,hc⟩ := mapped_head hp []
    exact ⟨c,by simpa using hhead,.inr (.inr (.inl hc))⟩
  | nan hp =>
    obtain ⟨c,hhead,hc⟩ := mapped_head hp []
    exact ⟨c,by simpa using hhead,.inr (.inr (.inr hc))⟩
  | nanChars hp _ =>
    obtain ⟨c,hhead,hc⟩ := mapped_head hp _
    exact ⟨c,hhead,.inr (.inr (.inr hc))⟩

def spaceLen (str : List UInt8) : Nat := (str.takeWhile isspace).length

def leadLen (str : List UInt8) : Nat := spaceLen str + signLen (str.drop (spaceLen str))

def fieldLen (str : List UInt8) : Nat :=
  if subjectLen (str.drop (leadLen str)) = 0 then 0 else leadLen str + subjectLen (str.drop (leadLen str))

theorem field_longest {p str : List UInt8} (h : Field p) (hpre : p <+: str) : p.length ≤ fieldLen str ∧ fieldLen str ≠ 0 := by
  obtain ⟨rest,rfl⟩ := hpre
  obtain @⟨space,sign,text,hspace,hsign,htext⟩ := h
  obtain ⟨c,r,rfl,hplain,hminus,hplus⟩ := subject_head htext
  have hsub := subject_longest rest htext
  have hstop : ∀ d ∈ (sign ++ (c :: r ++ rest)).head?, isspace d = false := by
    intro d hd
    cases hsign with
    | absent =>
      obtain rfl := Option.some.inj hd
      exact hplain
    | plus =>
      obtain rfl := Option.some.inj hd
      decide
    | minus =>
      obtain rfl := Option.some.inj hd
      decide
  obtain ⟨htake,-⟩ := takeWhile_append hspace (sign ++ (c :: r ++ rest))
  have hspaceLen : spaceLen (space ++ (sign ++ (c :: r ++ rest))) = space.length := by
    rw [spaceLen,htake,(takeWhile_stops hstop).1,List.append_nil]
  have hsignLen : signLen (sign ++ (c :: r ++ rest)) = sign.length := by
    cases hsign with
    | absent => exact if_neg (by simp [hminus,hplus])
    | plus => rfl
    | minus => rfl
  have hlead : leadLen (space ++ (sign ++ (c :: r ++ rest))) = space.length + sign.length := by
    rw [leadLen,hspaceLen,List.drop_left,hsignLen]
  have hdrop : (space ++ (sign ++ (c :: r ++ rest))).drop (space.length + sign.length) = c :: r ++ rest := by
    rw [← List.append_assoc,← List.length_append,List.drop_left]
  rw [List.append_assoc,List.append_assoc]
  unfold fieldLen
  rw [hlead,hdrop]
  have hpos : 0 < (c :: r).length := Nat.succ_pos _
  rw [if_neg (by omega)]
  simp only [List.length_append] at hsub ⊢
  omega

theorem field_sound {str : List UInt8} (h : fieldLen str ≠ 0) :
    Field (str.take (fieldLen str)) ∧ fieldLen str ≤ str.length := by
  have hspace : ∀ c ∈ str.take (spaceLen str), isspace c = true := by
    intro c hc
    rw [spaceLen,← List.prefix_iff_eq_take.mp (List.takeWhile_prefix isspace)] at hc
    exact List.mem_takeWhile_imp hc
  obtain ⟨hsign,hsignLen⟩ := sign_take (str.drop (spaceLen str))
  unfold fieldLen at h ⊢
  have hsub : subjectLen (str.drop (leadLen str)) ≠ 0 := fun hzero => h (if_pos hzero)
  obtain ⟨hsubject,hwithin⟩ := subject_sound hsub
  rw [if_neg hsub]
  rw [List.length_drop] at hwithin
  refine ⟨?_,by omega⟩
  rw [List.take_add,leadLen,List.take_add,List.append_assoc]
  exact .mk hspace hsign hsubject

theorem longest_iff (str : List UInt8) (n : Nat) : LongestField str n ↔ n = fieldLen str := by
  by_cases hzero : fieldLen str = 0
  · have hnone : ∀ text, Field text → ¬text <+: str := fun text h hpre => (field_longest h hpre).2 hzero
    constructor
    · rintro (⟨text,htext,hpre,-⟩ | ⟨rfl,-⟩)
      · exact absurd hpre (hnone text htext)
      · exact hzero.symm
    · rintro rfl
      exact .inr ⟨hzero,hnone⟩
  · obtain ⟨hfield,hwithin⟩ := field_sound hzero
    have hlen : (str.take (fieldLen str)).length = fieldLen str := List.length_take_of_le hwithin
    constructor
    · rintro (⟨text,htext,hpre,rfl,hmax⟩ | ⟨-,hnone⟩)
      · have hle := hmax _ hfield (List.take_prefix _ _)
        rw [hlen] at hle
        exact le_antisymm (field_longest htext hpre).1 hle
      · exact absurd (List.take_prefix _ _) (hnone _ hfield)
    · rintro rfl
      exact .inl ⟨_,hfield,List.take_prefix _ _,hlen,fun text h hpre => (field_longest h hpre).1⟩

end Grammar

end Scanf
