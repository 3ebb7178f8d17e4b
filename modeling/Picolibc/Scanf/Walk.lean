import Mathlib
import Picolibc.Scanf.FloatGrammar

open Ascii Strtoi Scanf.Grammar

namespace Scanf

def charAt (signed : Bool) (str : List UInt8) (pos : Nat) : Option UInt8 :=
  match str[pos]? with
  | none => some 0
  | some c => if signed && 0x80 ≤ c then none else some c

def chars (signed : Bool) (str : List UInt8) : Source Nat where
  getc pos := (charAt signed str pos,pos + 1)
  ungetc _ pos := pos - 1

def next (signed : Bool) (l : List UInt8) : Option UInt8 := charAt signed l 0

def wideHex (c : UInt8) : Bool := isHex c || (0x3a ≤ c && c ≤ 0x3f)

def letters : List UInt8 := [0x61,0x65,0x66,0x69,0x6e,0x70,0x74,0x78,0x79]

def baseDigit (hex : Bool) (c : UInt8) : Bool := if hex then wideHex c else isdigit c

theorem letter_bounds : ∀ w ∈ letters, 0x61 ≤ w.toNat ∧ w.toNat ≤ 0x7a := by
  simp [letters]

theorem letter_classes {w : UInt8} (hw : w ∈ letters) (c : UInt8) :
    (toLower c = w ↔ fold c = w) ∧ (toLower c = w → c < 0x80 ∧ c ≠ 0) := by
  have hl := toLower_toNat c
  have hf := fold_toNat c
  obtain ⟨hlow,hhigh⟩ := letter_bounds w hw
  have hc := c.toNat_lt
  simp only [← UInt8.toNat_inj,UInt8.lt_iff_toNat_lt,UInt8.reduceToNat,ne_eq]
  split_ifs at hl hf <;> omega

theorem byte_classes (c : UInt8) :
    (isdigit c = true → 0x30 ≤ c ∧ c ≤ 0x39) ∧ (isalnum c || c = 0x5f) = isNchar c ∧
    (isNchar c = true → c < 0x80 ∧ c ≠ 0 ∧ c ≠ 0x29) := by
  have hl := toLower_toNat c
  have hf := fold_toNat c
  have hc := c.toNat_lt
  refine ⟨?_,Bool.eq_iff_iff.mpr ?_,?_⟩ <;>
    simp only [isdigit,isalnum,isalpha,isNchar,← UInt8.toNat_inj,UInt8.le_iff_toNat_le,UInt8.lt_iff_toNat_lt,
      UInt8.reduceToNat,ne_eq,Bool.or_eq_true,Bool.and_eq_true,decide_eq_true_eq] <;>
    split_ifs at hl hf <;> omega

namespace Acc

variable (b : Build)

def absorb (a : Acc) (ds : List UInt8) : Acc := ds.foldl (fun a c => a.addDigit b (a.digitVal c).toNat) a

def walk : Acc → List UInt8 → Acc × Nat
  | a, [] => (a,0)
  | a, c :: l =>
    match a.step b (some c) with
    | none => (a,0)
    | some a => ((walk a l).1,(walk a l).2 + 1)

variable {b} {a : Acc}

theorem base_classes (hex : Bool) (c : UInt8) :
    ((if hex ∧ toLower c - 0x61 ≤ 5 then toLower c - 0x61 + 10 else c - 0x30).toNat < (if hex then 16 else 10) ↔
      baseDigit hex c = true) ∧
    (toLower c = 0x78 → baseDigit hex c = false ∧ c ≠ 0x2e) ∧
    (0x80 ≤ c → baseDigit hex c = false ∧ c ≠ 0x2e ∧ toLower c ≠ 0x78) := by
  have hl := toLower_toNat c
  have hf := fold_toNat c
  have hc := c.toNat_lt
  have hsub : (toLower c - 0x61).toNat = ((toLower c).toNat + 159) % 256 := by
    rw [UInt8.toNat_sub,Nat.add_comm]
    rfl
  have hten : (toLower c - 0x61 + 10).toNat = ((toLower c - 0x61).toNat + 10) % 256 := UInt8.toNat_add _ _
  have hdig : (c - 0x30).toNat = (c.toNat + 208) % 256 := by
    rw [UInt8.toNat_sub,Nat.add_comm]
    rfl
  cases hex <;>
    simp only [baseDigit,wideHex,isHex,isdigit,← UInt8.toNat_inj,UInt8.le_iff_toNat_le,UInt8.reduceToNat,ne_eq,
      Bool.or_eq_true,Bool.or_eq_false_iff,Bool.and_eq_true,Bool.and_eq_false_iff,decide_eq_true_eq,
      decide_eq_false_iff_not,Bool.false_eq_true,if_false,if_true,false_and,true_and] <;>
    split_ifs at hl hf ⊢ <;> omega

theorem digit_iff (c : UInt8) : (a.digitVal c).toNat < a.base ↔ baseDigit a.fhex c = true :=
  (base_classes a.fhex c).1

theorem baseDigit_dot (hex : Bool) : baseDigit hex 0x2e = false := by
  revert hex
  decide

theorem baseDigit_x (hex : Bool) (c : UInt8) (h : toLower c = 0x78) : baseDigit hex c = false ∧ c ≠ 0x2e :=
  (base_classes hex c).2.1 h

theorem step_digit {c : UInt8} (h : baseDigit a.fhex c = true) :
    a.step b (some c) = some (a.addDigit b (a.digitVal c).toNat) :=
  if_pos ((digit_iff c).mpr h)

theorem step_dot (h : a.dot = false) : a.step b (some 0x2e) = some a.setDot := by
  have hdigit : ¬(a.digitVal 0x2e).toNat < a.base := by
    rw [digit_iff,baseDigit_dot]
    exact Bool.false_ne_true
  exact (if_neg hdigit).trans (if_pos ⟨rfl,h⟩)

theorem step_x {c : UInt8} (hc : toLower c = 0x78) (hany : a.any = true) (htwo : a.two = false) (hhex : a.fhex = false)
    (hzero : a.uint = 0) : a.step b (some c) = some a.setHex := by
  obtain ⟨hdigit,hdot⟩ := baseDigit_x a.fhex c hc
  have hlt : ¬(a.digitVal c).toNat < a.base := by
    rw [digit_iff,hdigit]
    exact Bool.false_ne_true
  exact (if_neg hlt).trans ((if_neg fun h => hdot h.1).trans (if_pos ⟨hc,hany,htwo,hhex,hzero⟩))

theorem step_stops {c : UInt8} (hdigit : baseDigit a.fhex c = false) (hdot : c = 0x2e → a.dot = true)
    (hx : toLower c = 0x78 → ¬(a.any = true ∧ a.two = false ∧ a.fhex = false ∧ a.uint = 0)) : a.step b (some c) = none := by
  have hlt : ¬(a.digitVal c).toNat < a.base := by
    rw [digit_iff,hdigit]
    exact Bool.false_ne_true
  refine (if_neg hlt).trans ((if_neg ?_).trans (if_neg fun h => hx h.1 h.2))
  rintro ⟨hc,hfalse⟩
  exact absurd (hdot hc) (by rw [hfalse]; exact Bool.false_ne_true)

theorem high_plain (hex : Bool) (c : UInt8) (h : 0x80 ≤ c) : baseDigit hex c = false ∧ c ≠ 0x2e ∧ toLower c ≠ 0x78 :=
  (base_classes hex c).2.2 h

theorem step_high {c : UInt8} (h : 0x80 ≤ c) : a.step b (some c) = none := by
  obtain ⟨hdigit,hdot,hx⟩ := high_plain a.fhex c h
  exact step_stops hdigit (fun hc => absurd hc hdot) fun hc => absurd hc hx

theorem step_nul : a.step b (some 0) = none := by
  refine step_stops ?_ (fun hc => absurd hc (by decide)) fun hc => absurd hc (by decide)
  generalize a.fhex = hex
  revert hex
  decide

theorem addDigit_flags (c : Nat) : (a.addDigit b c).fhex = a.fhex ∧ (a.addDigit b c).dot = a.dot ∧
    (a.addDigit b c).any = true ∧ (a.addDigit b c).two = (a.two || a.any) := by
  unfold addDigit
  split_ifs <;> exact ⟨rfl,rfl,rfl,rfl⟩

theorem absorb_flags (ds : List UInt8) : (a.absorb b ds).fhex = a.fhex ∧ (a.absorb b ds).dot = a.dot ∧
    (a.absorb b ds).any = (a.any || !ds.isEmpty) ∧
      (a.absorb b ds).two = (a.two || (a.any && !ds.isEmpty) || decide (2 ≤ ds.length)) := by
  induction ds generalizing a with
  | nil => simp [absorb]
  | cons c ds ih =>
    obtain ⟨hhex,hdot,hany,htwo⟩ := @addDigit_flags b a (a.digitVal c).toNat
    obtain ⟨ihhex,ihdot,ihany,ihtwo⟩ := @ih (a.addDigit b (a.digitVal c).toNat)
    rw [show a.absorb b (c :: ds) = (a.addDigit b (a.digitVal c).toNat).absorb b ds from rfl,ihhex,ihdot,ihany,ihtwo,hhex,
      hdot,hany,htwo]
    refine ⟨rfl,rfl,by simp,?_⟩
    cases ds with
    | nil => simp
    | cons d ds => simp

theorem walk_absorb {ds : List UInt8} (h : ∀ c ∈ ds, baseDigit a.fhex c = true) (r : List UInt8) :
    a.walk b (ds ++ r) = (((a.absorb b ds).walk b r).1,ds.length + ((a.absorb b ds).walk b r).2) := by
  induction ds generalizing a with
  | nil => simp [absorb]
  | cons c ds ih =>
    have hhex := (@addDigit_flags b a (a.digitVal c).toNat).1
    have hds : ∀ d ∈ ds, baseDigit (a.addDigit b (a.digitVal c).toNat).fhex d = true := by
      rw [hhex]
      exact fun d hd => h d (List.mem_cons_of_mem c hd)
    rw [List.cons_append,walk,step_digit (h c List.mem_cons_self)]
    dsimp only
    rw [ih hds]
    simp only [absorb,List.foldl_cons,List.length_cons]
    congr 1
    omega

theorem walk_stops {r : List UInt8} (h : ∀ c ∈ r.head?, a.step b (some c) = none) : a.walk b r = (a,0) := by
  cases r with
  | nil => rfl
  | cons c r => rw [walk,h c rfl]

def mantissa (b : Build) (a : Acc) (ds : List UInt8) (dot : Bool) (fs : List UInt8) : Acc :=
  if dot then (a.absorb b ds).setDot.absorb b fs else a.absorb b ds

theorem walk_mantissa (hdot : a.dot = false) {l ds fs rest : List UInt8} {dot : Bool}
    (h : Split (baseDigit a.fhex) l ds dot fs rest) :
    a.walk b l = (((a.mantissa b ds dot fs).walk b rest).1,
      ds.length + dot.toNat + fs.length + ((a.mantissa b ds dot fs).walk b rest).2) := by
  cases h with
  | whole hds hrest =>
    rw [walk_absorb hds]
    rfl
  | @pointed ds fs rest hall hrest =>
    obtain ⟨hhex,hkeep,-⟩ := @absorb_flags b a ds
    have hfs : ∀ c ∈ fs, baseDigit (a.absorb b ds).setDot.fhex c = true := by
      rw [show (a.absorb b ds).setDot.fhex = a.fhex from hhex]
      exact fun c hc => hall c (List.mem_append_right ds hc)
    rw [walk_absorb fun c hc => hall c (List.mem_append_left fs hc),walk,step_dot (hkeep.trans hdot)]
    dsimp only
    rw [walk_absorb hfs]
    unfold mantissa
    rw [if_pos rfl]
    refine Prod.ext rfl ?_
    dsimp only
    rw [Bool.toNat_true]
    omega

structure Fresh (a : Acc) : Prop where
  any : a.any = false
  two : a.two = false
  dot : a.dot = false

theorem mantissa_flags (h : Fresh a) {l ds fs rest : List UInt8} {dot : Bool}
    (hsplit : Split (baseDigit a.fhex) l ds dot fs rest) :
    (a.mantissa b ds dot fs).fhex = a.fhex ∧ (a.mantissa b ds dot fs).dot = dot ∧
      (a.mantissa b ds dot fs).any = !(ds ++ fs).isEmpty ∧
        (a.mantissa b ds dot fs).two = decide (2 ≤ (ds ++ fs).length) := by
  obtain ⟨hhex,hdot,hany,htwo⟩ := @absorb_flags b a ds
  rw [h.any] at hany
  rw [h.any,h.two] at htwo
  cases hsplit with
  | whole _ _ =>
    unfold mantissa
    rw [if_neg Bool.false_ne_true,List.append_nil,hhex,hdot,hany,htwo,h.dot]
    simp
  | pointed _ _ =>
    obtain ⟨hhex',hdot',hany',htwo'⟩ := @absorb_flags b (a.absorb b ds).setDot fs
    unfold mantissa
    rw [if_pos rfl,hhex',hdot',hany',htwo']
    unfold setDot
    dsimp only
    rw [hhex,hany,htwo]
    refine ⟨rfl,rfl,?_,?_⟩
    · cases ds <;> simp
    · rw [Bool.eq_iff_iff]
      cases ds <;> cases fs <;> (simp; try omega)

theorem zero_digit (c : UInt8) (h : isdigit c = true) :
    (Acc.start.addDigit b (Acc.start.digitVal c).toNat).uint = 0 ↔ c = 0x30 := by
  have hcap : 10 ≤ 2 ^ b.kind.uintBits := (show 10 ≤ 2 ^ 4 by decide).trans (Nat.pow_le_pow_right two_pos b.wide)
  obtain ⟨h48,h57⟩ := (byte_classes c).1 h
  have hvalue : (Acc.start.digitVal c).toNat = c.toNat - 48 := by
    show (c - 48).toNat = _
    rw [UInt8.toNat_sub_of_le _ _ h48]
    rfl
  have hlt : (Acc.start.digitVal c).toNat < 10 := by
    have := UInt8.le_iff_toNat_le.mp h57
    rw [show (57 : UInt8).toNat = 57 from rfl] at this
    omega
  have hzero : (Acc.start.digitVal c).toNat = 0 ↔ c = 0x30 := by
    have := UInt8.le_iff_toNat_le.mp h48
    rw [show (48 : UInt8).toNat = 48 from rfl] at this
    rw [hvalue,← UInt8.toNat_inj,show (0x30 : UInt8).toNat = 48 from rfl]
    omega
  rw [← hzero,addDigit,if_neg (by simp [start,isFull])]
  show (0 * Acc.start.base + _) % 2 ^ b.kind.uintBits = 0 ↔ _
  rw [Nat.zero_mul,Nat.zero_add,Nat.mod_eq_of_lt (by omega)]

inductive Switch : List UInt8 → Prop where
  | whole {x : UInt8} {r : List UInt8} : fold x = 0x78 → Switch (0x30 :: x :: r)
  | before {x : UInt8} {r : List UInt8} : fold x = 0x78 → Switch (0x30 :: 0x2e :: x :: r)
  | after {x : UInt8} {r : List UInt8} : fold x = 0x78 → Switch (0x2e :: 0x30 :: x :: r)

theorem lower_letter : ∀ w ∈ letters, ∀ c, toLower c = w ↔ fold c = w :=
  fun _ hw c => (letter_classes hw c).1

theorem lower_x (c : UInt8) : toLower c = 0x78 ↔ fold c = 0x78 := lower_letter 0x78 (by decide) c

theorem single_uint {ds fs : List UInt8} {c : UInt8} (dot : Bool) (hone : ds ++ fs = [c]) (hfs : dot = false → fs = []) :
    (Acc.start.mantissa b ds dot fs).uint = (Acc.start.addDigit b (Acc.start.digitVal c).toNat).uint := by
  cases dot with
  | false =>
    obtain rfl := hfs rfl
    rw [List.append_nil] at hone
    rw [hone]
    rfl
  | true =>
    rcases List.append_eq_singleton_iff.mp hone with ⟨rfl,rfl⟩ | ⟨rfl,rfl⟩
    · rfl
    · rfl

theorem switch_of_zero {l ds fs rest : List UInt8} {dot : Bool} {x : UInt8} (hsplit : Split isdigit l ds dot fs (x :: rest))
    (hone : ds ++ fs = [0x30]) (hx : fold x = 0x78) : Switch l := by
  cases hsplit with
  | whole _ _ =>
    rw [List.append_nil] at hone
    rw [hone]
    exact .whole hx
  | pointed _ _ =>
    rcases List.append_eq_singleton_iff.mp hone with ⟨rfl,rfl⟩ | ⟨rfl,rfl⟩
    · exact .after hx
    · exact .before hx

theorem walk_decimal {l ds fs rest : List UInt8} {dot : Bool}
    (hsplit : Split isdigit l ds dot fs rest) (h : ¬Switch l) :
    Acc.start.walk b l = (Acc.start.mantissa b ds dot fs,ds.length + dot.toNat + fs.length) := by
  have hfresh : Fresh Acc.start := ⟨rfl,rfl,rfl⟩
  have hbase : Split (baseDigit Acc.start.fhex) l ds dot fs rest := hsplit
  obtain ⟨hhex,hdot,hany,htwo⟩ := @mantissa_flags b _ hfresh l ds fs rest dot hbase
  have hstop : (Acc.start.mantissa b ds dot fs).walk b rest = (Acc.start.mantissa b ds dot fs,0) := by
    refine walk_stops ?_
    intro c hc
    obtain ⟨t,rfl⟩ : ∃ t, rest = c :: t := by
      cases rest with
      | nil => exact absurd hc (by simp)
      | cons d t => exact ⟨t,by rw [Option.some.inj hc]⟩
    refine step_stops ?_ ?_ ?_
    · rw [hhex]
      cases hsplit with
      | whole _ hrest => exact (hrest c rfl).1
      | pointed _ hrest => exact hrest c rfl
    · rintro rfl
      rw [hdot]
      cases hsplit with
      | whole _ hrest => exact absurd rfl (hrest _ rfl).2
      | pointed _ _ => rfl
    · rintro hx ⟨h1,h2,-,h4⟩
      rw [hany] at h1
      rw [htwo,decide_eq_false_iff_not] at h2
      obtain ⟨d,hone⟩ : ∃ d, ds ++ fs = [d] := by
        refine List.length_eq_one_iff.mp ?_
        have hpos : 0 < (ds ++ fs).length := by
          refine List.length_pos_iff.mpr fun hnil => ?_
          rw [hnil] at h1
          exact absurd h1 (by decide)
        omega
      have hd : isdigit d = true := by
        have hmem : d ∈ ds ++ fs := by rw [hone]; exact List.mem_singleton_self d
        cases hsplit with
        | whole hds _ => exact hds d (by simpa using hmem)
        | pointed hall _ => exact hall d hmem
      have hempty : dot = false → fs = [] := by
        cases hsplit with
        | whole _ _ => exact fun _ => rfl
        | pointed _ _ => exact fun h => absurd h (by decide)
      rw [single_uint dot hone hempty,zero_digit d hd] at h4
      rw [h4] at hone
      exact h (switch_of_zero hsplit hone ((lower_x c).mp hx))
  rw [walk_mantissa rfl hbase,hstop]
  rfl

theorem walk_hexadecimal (ha : Fresh a) (hhex : a.fhex = true) {l ds fs rest : List UInt8} {dot : Bool}
    (hsplit : Split wideHex l ds dot fs rest) :
    a.walk b l = (a.mantissa b ds dot fs,ds.length + dot.toNat + fs.length) := by
  have hbase : Split (baseDigit a.fhex) l ds dot fs rest := by rw [hhex]; exact hsplit
  obtain ⟨hkeep,hdot,-⟩ := @mantissa_flags b _ ha l ds fs rest dot hbase
  rw [walk_mantissa ha.dot hbase,walk_stops]
  · rfl
  · intro c hc
    refine step_stops ?_ ?_ fun _ hc => ?_
    · rw [hkeep,hhex]
      cases hsplit with
      | whole _ hrest => exact (hrest c hc).1
      | pointed _ hrest => exact hrest c hc
    · rintro rfl
      rw [hdot]
      cases hsplit with
      | whole _ hrest => exact absurd rfl (hrest _ hc).2
      | pointed _ _ => rfl
    · rw [hkeep,hhex] at hc
      exact Bool.noConfusion hc.2.2.1

theorem walk_dotted (hhex : a.fhex = true) (hdot : a.dot = true) (l : List UInt8) :
    a.walk b l = (a.absorb b (l.takeWhile wideHex),(l.takeWhile wideHex).length) := by
  obtain ⟨hkeep,hdot',-⟩ := @absorb_flags b a (l.takeWhile wideHex)
  have hds : ∀ c ∈ l.takeWhile wideHex, baseDigit a.fhex c = true := by
    rw [hhex]
    exact fun c => List.mem_takeWhile_imp
  have hstop : (a.absorb b (l.takeWhile wideHex)).walk b (l.dropWhile wideHex) = (a.absorb b (l.takeWhile wideHex),0) := by
    refine walk_stops fun c hc => step_stops ?_ (fun _ => hdot'.trans hdot) fun _ hx => ?_
    · rw [hkeep,hhex]
      cases hr : l.dropWhile wideHex with
      | nil => exact absurd hc (by simp [hr])
      | cons d r =>
        rw [hr] at hc
        obtain rfl := Option.some.inj hc
        exact stopped hr
    · rw [hkeep,hhex] at hx
      exact Bool.noConfusion hx.2.2.1
  have hwalk := walk_absorb (b := b) hds (l.dropWhile wideHex)
  rwa [List.takeWhile_append_dropWhile,hstop] at hwalk

theorem walk_switch {l ds fs r : List UInt8} {dot : Bool} {x : UInt8}
    (hsplit : Split isdigit l ds dot fs (x :: r)) (hone : ds ++ fs = [0x30]) (hx : fold x = 0x78) :
    ∃ h : Acc, h.fhex = true ∧ h.any = false ∧ h.two = false ∧ h.dot = dot ∧
      Acc.start.walk b l = ((h.walk b r).1,2 + dot.toNat + (h.walk b r).2) := by
  have hfresh : Fresh Acc.start := ⟨rfl,rfl,rfl⟩
  have hbase : Split (baseDigit Acc.start.fhex) l ds dot fs (x :: r) := hsplit
  obtain ⟨hhex,hdot,hany,htwo⟩ := @mantissa_flags b _ hfresh l ds fs _ dot hbase
  have hempty : dot = false → fs = [] := by
    cases hsplit with
    | whole _ _ => exact fun _ => rfl
    | pointed _ _ => exact fun h => absurd h (by decide)
  have huint : (Acc.start.mantissa b ds dot fs).uint = 0 := by
    rw [single_uint dot hone hempty,zero_digit 0x30 (by decide)]
  rw [hone] at hany htwo
  have hlen : ds.length + fs.length = 1 := by rw [← List.length_append,hone,List.length_singleton]
  refine ⟨(Acc.start.mantissa b ds dot fs).setHex,rfl,rfl,rfl,hdot,?_⟩
  rw [walk_mantissa rfl hbase,walk,step_x ((lower_x x).mpr hx) hany htwo hhex huint]
  refine Prod.ext rfl ?_
  dsimp only
  omega

end Acc

section

variable {signed : Bool} {str : List UInt8}

theorem next_cons (c : UInt8) (l : List UInt8) : next signed (c :: l) = if signed && 0x80 ≤ c then none else some c := rfl

theorem next_nil : next signed [] = some 0 := rfl

theorem next_plain {c : UInt8} (h : c < 0x80) (l : List UInt8) : next signed (c :: l) = some c := by
  rw [next_cons,decide_eq_false (UInt8.not_le.mpr h),Bool.and_false]
  rfl

theorem next_none {l : List UInt8} (h : next signed l = none) : signed = true ∧ ∃ c r, l = c :: r ∧ 0x80 ≤ c := by
  cases l with
  | nil => exact absurd h (by simp [next_nil])
  | cons c r =>
    rw [next_cons] at h
    by_cases hhigh : (signed && decide (0x80 ≤ c)) = true
    · rw [Bool.and_eq_true,decide_eq_true_eq] at hhigh
      exact ⟨hhigh.1,c,r,rfl,hhigh.2⟩
    · exact absurd h (by simp [hhigh])

theorem getc_drop (pos : Nat) : (chars signed str).getc pos = (next signed (str.drop pos),pos + 1) := by
  have hhead : (str.drop pos)[0]? = str[pos]? := by simp
  show (charAt signed str pos,pos + 1) = (charAt signed (str.drop pos) 0,pos + 1)
  unfold charAt
  rw [hhead]

theorem drop_succ {pos : Nat} {c : UInt8} {l : List UInt8} (h : str.drop pos = c :: l) : str.drop (pos + 1) = l := by
  rw [← List.drop_drop,h,List.drop_one,List.tail_cons]

variable {b : Build}

theorem strto_width (hb : b.strto = true) (width : BitVec 32) : b.checkWidth width = (true,width) := if_pos hb

theorem scanDigits_walk (hb : b.strto = true) (width : BitVec 32) {l : List UInt8} {pos fuel : Nat} (a : Acc)
    (hl : str.drop pos = l) (hfuel : l.length < fuel) :
    scanDigits b (chars signed str) fuel a (next signed l) width (pos + 1) =
      some ((a.walk b l).1,next signed (l.drop (a.walk b l).2),width,pos + (a.walk b l).2 + 1) := by
  induction l generalizing pos fuel a with
  | nil =>
    cases fuel with
    | zero => exact absurd hfuel (Nat.not_lt_zero _)
    | succ fuel =>
      unfold scanDigits
      rw [next_nil,Acc.step_nul]
      rfl
  | cons c l ih =>
    cases fuel with
    | zero => exact absurd hfuel (Nat.not_lt_zero _)
    | succ fuel =>
      have hrest := drop_succ hl
      cases hstep : a.step b (some c) with
      | none =>
        have hwalk : a.walk b (c :: l) = (a,0) := by
          unfold Acc.walk
          rw [hstep]
        have hnone : a.step b (next signed (c :: l)) = none := by
          rw [next_cons]
          split_ifs
          · rfl
          · exact hstep
        unfold scanDigits
        rw [hwalk,hnone]
        rfl
      | some a' =>
        have hwalk : a.walk b (c :: l) = ((a'.walk b l).1,(a'.walk b l).2 + 1) := by
          rw [Acc.walk,hstep]
        have hlow : c < 0x80 := by
          by_contra hhigh
          rw [Acc.step_high (UInt8.not_lt.mp hhigh)] at hstep
          exact absurd hstep (by simp)
        unfold scanDigits
        rw [next_plain hlow,hstep]
        dsimp only
        rw [strto_width hb,if_neg (by simp),getc_drop,hrest,hwalk]
        by_cases heof : next signed l = none
        · obtain ⟨-,d,r,rfl,hhigh⟩ := next_none heof
          have hstop : a'.walk b (d :: r) = (a',0) := by
            rw [Acc.walk,Acc.step_high hhigh]
          rw [if_pos heof,hstop]
          rfl
        · rw [if_neg heof,ih a' hrest (by simpa using hfuel),List.drop_succ_cons]
          congr 4
          omega

def writtenExp (b : Build) (r : List UInt8) : ℤ :=
  signExp r.tail.head? (((r.tail.drop (signLen r.tail)).takeWhile isdigit).foldl (accumulate b) 0)

theorem digit_low (c : UInt8) (h : isdigit c = true) : c < 0x80 :=
  UInt8.lt_of_le_of_lt ((byte_classes c).1 h).2 (show (0x39 : UInt8) < 0x80 by decide)

theorem scanExp_digits (hb : b.strto = true) (width : BitVec 32) {ds rest : List UInt8} {d : UInt8} {acc pos fuel : Nat}
    (hds : ∀ c ∈ ds, isdigit c = true) (hrest : ∀ c ∈ rest.head?, isdigit c = false) (hl : str.drop pos = ds ++ rest)
    (hfuel : ds.length < fuel) :
    scanExp b (chars signed str) fuel acc d width pos =
      some ((d :: ds).foldl (accumulate b) acc,next signed rest,width,pos + ds.length + 1) := by
  induction ds generalizing d acc pos fuel with
  | nil =>
    cases fuel with
    | zero => exact absurd hfuel (Nat.not_lt_zero _)
    | succ fuel =>
      unfold scanExp
      rw [strto_width hb,if_neg (by simp),getc_drop,hl,List.nil_append]
      cases hnext : next signed rest with
      | none => rfl
      | some c =>
        have hplain : isdigit c = false := by
          cases rest with
          | nil =>
            rw [next_nil] at hnext
            obtain rfl := Option.some.inj hnext
            decide
          | cons e rest =>
            rw [next_cons] at hnext
            split_ifs at hnext
            obtain rfl := Option.some.inj hnext
            exact hrest _ rfl
        dsimp only
        rw [hplain,if_neg Bool.false_ne_true]
        rfl
  | cons c ds ih =>
    cases fuel with
    | zero => exact absurd hfuel (Nat.not_lt_zero _)
    | succ fuel =>
      have hc := hds c List.mem_cons_self
      unfold scanExp
      rw [strto_width hb,if_neg (by simp),getc_drop,hl,List.cons_append,next_plain (digit_low c hc)]
      dsimp only
      rw [if_pos hc,ih (fun e he => hds e (List.mem_cons_of_mem c he)) (drop_succ hl) (by simpa using hfuel)]
      simp only [List.foldl_cons,List.length_cons]
      congr 4
      omega

theorem next_digit {l : List UInt8} {d : UInt8} (h : next signed l = some d) (hd : isdigit d = true) :
    ∃ r, l = d :: r := by
  cases l with
  | nil =>
    rw [next_nil] at h
    obtain rfl := Option.some.inj h
    exact absurd hd (by decide)
  | cons c r =>
    rw [next_cons] at h
    split_ifs at h
    exact ⟨r,by rw [Option.some.inj h]⟩

theorem takeWhile_plain {l : List UInt8} (h : ∀ d, next signed l = some d → isdigit d = false) : l.takeWhile isdigit = [] := by
  cases l with
  | nil => rfl
  | cons c r =>
    by_cases hc : isdigit c = true
    · exact absurd hc (by rw [h c (next_plain (digit_low c hc) r)]; exact Bool.false_ne_true)
    · rw [List.takeWhile_cons,if_neg hc]

theorem noExp_position (minus : Bool) (a : Acc) (exp : ℤ) (i : Option UInt8) {width : BitVec 32} (hwidth : width ≠ 0) (pos : Nat) :
    noExp (chars signed str) minus a exp i width pos = ⟨some (minus,front a exp),pos - 1⟩ := by
  rw [noExp,if_pos hwidth]
  rfl

theorem exponentDigits_spec (hb : b.strto = true) {width : BitVec 32} (hwidth : width ≠ 0) (minus : Bool) (a : Acc) (exp : ℤ)
    (i esign : Option UInt8) {t : List UInt8} {pos fuel : Nat} (hl : str.drop pos = t) (hfuel : t.length < fuel) :
    exponentDigits b (chars signed str) fuel minus a exp i esign (next signed t) width (pos + 1) =
      some ⟨some (minus,front a (exp + signExp esign ((t.takeWhile isdigit).foldl (accumulate b) 0))),
        if t.takeWhile isdigit = [] then pos - (1 + esign.isSome.toNat) else pos + (t.takeWhile isdigit).length⟩ := by
  have hback : ∀ p, t.takeWhile isdigit = [] →
      noExp (chars signed str) minus a exp i width (if esign.isSome then (chars signed str).ungetc esign (pos + 1 - 1) else pos + 1 - 1) =
        ⟨some (minus,front a (exp + signExp esign ((t.takeWhile isdigit).foldl (accumulate b) 0))),
          if t.takeWhile isdigit = [] then pos - (1 + esign.isSome.toNat) else p⟩ := by
    intro p hnil
    have hzero : signExp esign ((t.takeWhile isdigit).foldl (accumulate b) 0) = 0 := by
      rw [hnil,signExp]
      split_ifs <;> rfl
    rw [noExp_position minus a exp i hwidth,hzero,if_pos hnil,add_zero]
    cases esign with
    | none => rfl
    | some c => exact congrArg (Reading.mk _) (by show pos + 1 - 1 - 1 - 1 = pos - (1 + 1); omega)
  unfold exponentDigits
  dsimp only
  cases hnext : next signed t with
  | none => exact congrArg some (hback _ (@takeWhile_plain signed t fun d hd => absurd (hnext.symm.trans hd) (by simp)))
  | some d =>
    by_cases hd : isdigit d = true
    · obtain ⟨r,rfl⟩ := next_digit hnext hd
      have hds : ∀ c ∈ r.takeWhile isdigit, isdigit c = true := fun c => List.mem_takeWhile_imp
      have hrest : ∀ c ∈ (r.dropWhile isdigit).head?, isdigit c = false := by
        intro c hc
        cases hr : r.dropWhile isdigit with
        | nil => exact absurd hc (by simp [hr])
        | cons e s =>
          rw [hr] at hc
          obtain rfl := Option.some.inj hc
          exact stopped hr
      have hsplit := List.takeWhile_append_dropWhile (p := isdigit) (l := r)
      have htake : (d :: r).takeWhile isdigit = d :: r.takeWhile isdigit := by rw [List.takeWhile_cons,if_pos hd]
      have hlen : (r.takeWhile isdigit).length < fuel := by
        have hle := (List.takeWhile_prefix isdigit (l := r)).length_le
        rw [List.length_cons] at hfuel
        omega
      dsimp only
      rw [if_pos hd,scanExp_digits hb width hds hrest ((drop_succ hl).trans hsplit.symm) hlen,Option.map_some,
        noExp_position minus a _ _ hwidth,htake,if_neg (by simp)]
      congr 2
      simp only [List.length_cons]
      omega
    · dsimp only
      rw [if_neg hd]
      refine congrArg some (hback _ (@takeWhile_plain signed t fun e he => ?_))
      rw [hnext] at he
      obtain rfl := Option.some.inj he
      exact Bool.not_eq_true _ ▸ hd

theorem next_sign {t : List UInt8} : (next signed t = some 0x2d ∨ next signed t = some 0x2b) ↔ signLen t = 1 := by
  unfold signLen
  cases t with
  | nil => simp [next_nil]
  | cons c t =>
    by_cases hhigh : c < 0x80
    · rw [next_plain hhigh,List.head?_cons]
      split_ifs with hc
      · exact ⟨fun _ => rfl,fun _ => hc⟩
      · exact ⟨fun h => absurd h hc,fun h => absurd h (by decide)⟩
    · have hne : c ≠ 0x2d ∧ c ≠ 0x2b := by
        constructor <;>
        · rintro rfl
          exact hhigh (by decide)
      have hplain : ¬(some c = some 0x2d ∨ some c = some 0x2b) := by simp [hne]
      rw [next_cons,List.head?_cons,if_neg hplain]
      split_ifs <;> simp [hne]

theorem next_minus {t : List UInt8} : next signed t = some 0x2d ↔ t.head? = some 0x2d := by
  cases t with
  | nil => simp [next_nil]
  | cons c t =>
    by_cases hhigh : c < 0x80
    · rw [next_plain hhigh,List.head?_cons]
    · have hne : c ≠ 0x2d := by
        rintro rfl
        exact hhigh (by decide)
      rw [next_cons,List.head?_cons]
      split_ifs <;> simp [hne]

theorem signExp_next (t : List UInt8) (v : Nat) : signExp (next signed t) v = signExp t.head? v := by
  unfold signExp
  simp only [next_minus]

theorem exponent_spec (hb : b.strto = true) {width : BitVec 32} (hwidth : width ≠ 0) (minus : Bool) (a : Acc) (exp : ℤ)
    (i : Option UInt8) {letter : UInt8} {r : List UInt8} {pos fuel : Nat} (hl : str.drop pos = r)
    (hletter : r.head?.map fold = some letter) (hfuel : r.length < fuel) :
    exponent b (chars signed str) fuel minus a exp i width (pos + 1) =
      some ⟨some (minus,front a (exp + writtenExp b r)),pos + exponentLen letter r⟩ := by
  have hdrop : str.drop (pos + 1) = r.tail := by rw [← List.drop_drop,hl,List.drop_one]
  have htail : r.tail.length < fuel := by
    rw [List.length_tail]
    omega
  unfold exponent exponentLen writtenExp
  dsimp only
  rw [strto_width hb,if_neg (by simp),getc_drop,hdrop,if_pos hletter]
  dsimp only
  by_cases hsign : signLen r.tail = 1
  · have hnext := (@next_sign signed r.tail).mpr hsign
    have hsome : (next signed r.tail).isSome.toNat = 1 := by rcases hnext with h | h <;> rw [h] <;> rfl
    have hdrop' : str.drop (pos + 1 + 1) = r.tail.drop 1 := by rw [← List.drop_drop,hdrop]
    rw [if_pos hnext,strto_width hb,if_neg (by simp),getc_drop,hdrop',hsign,
      exponentDigits_spec hb hwidth minus a exp i _ hdrop' (by rw [List.length_drop]; omega),signExp_next,hsome]
    congr 2
    split_ifs <;> omega
  · have hnext := fun h => hsign ((@next_sign signed r.tail).mp h)
    have hzero : signLen r.tail = 0 := by
      unfold signLen at hsign ⊢
      split_ifs at hsign ⊢
      · exact absurd rfl hsign
      · rfl
    have hplus : signExp none = signExp r.tail.head? := by
      funext v
      rw [← @signExp_next signed,signExp,signExp,if_neg (by simp),if_neg fun h => hnext (.inl h)]
    rw [if_neg hnext,hzero,List.drop_zero,exponentDigits_spec hb hwidth minus a exp i _ hdrop htail,hplus]
    congr 2
    rw [Option.isSome_none,Bool.toNat_false]
    split_ifs <;> omega

def exponentValue (b : Build) (letter : UInt8) (r : List UInt8) : ℤ :=
  if r.head?.map fold = some letter then writtenExp b r else 0

theorem letter_plain : ∀ w ∈ letters, ∀ c,
    toLower c = w → c < 0x80 ∧ c ≠ 0 :=
  fun _ hw c => (letter_classes hw c).2

theorem next_letter {w : UInt8} (hw : w ∈ letters) (r : List UInt8) :
    (next signed r).map toLower = some w ↔ r.head?.map fold = some w := by
  cases r with
  | nil =>
    rw [next_nil,Option.map_some]
    constructor
    · exact fun h => absurd rfl (letter_plain w hw 0 (Option.some.inj h)).2
    · exact fun h => absurd h (by simp)
  | cons c r =>
    rw [List.head?_cons,Option.map_some]
    by_cases hlow : c < 0x80
    · rw [next_plain hlow,Option.map_some,Option.some.injEq,Option.some.injEq]
      exact Acc.lower_letter w hw c
    · have hfold : fold c ≠ w := fun h => hlow (letter_plain w hw c ((Acc.lower_letter w hw c).mpr h)).1
      have hlower : toLower c ≠ w := fun h => hlow (letter_plain w hw c h).1
      rw [next_cons]
      split_ifs <;> simp [hfold,hlower]

theorem expMatch_letter (a : Acc) : a.expMatch ∈ letters := by
  unfold Acc.expMatch
  generalize a.fhex = hex
  revert hex
  decide

theorem matchExp_spec (hb : b.strto = true) {width : BitVec 32} (hwidth : width ≠ 0) (minus : Bool) (a : Acc)
    {r : List UInt8} {pos fuel : Nat} (hl : str.drop pos = r) (hfuel : r.length < fuel) :
    matchExp b (chars signed str) fuel minus a (next signed r) width (pos + 1) =
      some ⟨some (minus,front a (a.scaledExp + exponentValue b a.expMatch r)),pos + exponentLen a.expMatch r⟩ := by
  unfold matchExp
  by_cases hletter : r.head?.map fold = some a.expMatch
  · rw [if_pos ((next_letter (expMatch_letter a) _).mpr hletter),exponentValue,if_pos hletter,
      exponent_spec hb hwidth minus a a.scaledExp _ hl hletter hfuel]
  · rw [if_neg fun h => hletter ((next_letter (expMatch_letter a) _).mp h),exponentValue,if_neg hletter,exponentLen,
      if_neg hletter,noExp_position minus a _ _ hwidth,add_zero]
    rfl

theorem number_any (hb : b.strto = true) {width : BitVec 32} (hwidth : width ≠ 0) (minus : Bool) {l : List UInt8}
    {pos fuel n : Nat} {a : Acc} (hl : str.drop pos = l) (hfuel : l.length < fuel) (hwalk : Acc.start.walk b l = (a,n))
    (hany : a.any = true) :
    number b (chars signed str) fuel minus (next signed l) width (pos + 1) =
      some ⟨some (minus,front a (a.scaledExp + exponentValue b a.expMatch (l.drop n))),
        pos + n + exponentLen a.expMatch (l.drop n)⟩ := by
  have hdrop : str.drop (pos + n) = l.drop n := by rw [← List.drop_drop,hl]
  have hnone : ¬a.any = false := by
    rw [hany]
    decide
  unfold number
  rw [scanDigits_walk hb width Acc.start hl hfuel,Option.bind_some,hwalk,if_neg fun h => hnone h.1,if_neg fun h => hnone h.1]
  exact matchExp_spec hb hwidth minus a hdrop (by rw [List.length_drop]; omega)

theorem number_none (hb : b.strto = true) (width : BitVec 32) (minus : Bool) {l : List UInt8} {pos fuel n : Nat} {a : Acc}
    (hl : str.drop pos = l) (hfuel : l.length < fuel) (hwalk : Acc.start.walk b l = (a,n)) (hany : a.any = false)
    (hhex : a.fhex = false) :
    number b (chars signed str) fuel minus (next signed l) width (pos + 1) = some ⟨none,pos + n⟩ := by
  unfold number
  rw [scanDigits_walk hb width Acc.start hl hfuel,Option.bind_some,hwalk]
  exact if_pos ⟨hany,hhex⟩

theorem number_back (hb : b.strto = true) {width : BitVec 32} (hwidth : width ≠ 0) (minus : Bool) {l : List UInt8}
    {pos fuel n : Nat} {a : Acc} (hl : str.drop pos = l) (hfuel : l.length < fuel)
    (hwalk : Acc.start.walk b l = (a,n + 1)) (hany : a.any = false) (hhex : a.fhex = true)
    (hlast : (l.drop n).head?.map fold ≠ some a.expMatch) :
    ∃ v, number b (chars signed str) fuel minus (next signed l) width (pos + 1) = some ⟨some v,pos + n⟩ := by
  have hdrop : str.drop (pos + n) = l.drop n := by rw [← List.drop_drop,hl]
  have hfhex : ¬a.fhex = false := by
    rw [hhex]
    decide
  unfold number
  rw [scanDigits_walk hb width Acc.start hl hfuel,Option.bind_some,hwalk,if_neg fun h => hfhex h.2,if_pos ⟨hany,hb⟩]
  have hlen : (l.drop n).length < fuel := by
    rw [List.length_drop]
    omega
  have hback : ∀ i, (chars signed str).getc ((chars signed str).ungetc i ((chars signed str).ungetc i (pos + (n + 1) + 1))) =
      (next signed (l.drop n),pos + n + 1) := by
    intro i
    rw [← hdrop]
    exact getc_drop (pos + n)
  dsimp only
  rw [hback]
  have hspec := @matchExp_spec signed str b hb width hwidth minus a _ _ fuel hdrop hlen
  rw [show exponentLen a.expMatch (l.drop n) = 0 from if_neg hlast] at hspec
  exact ⟨_,hspec⟩

def pstrRun (signed : Bool) : List UInt8 → List UInt8 → Bool × Nat
  | [], _ => (true,0)
  | c :: p, l =>
    if (next signed l).map toLower = some c then ((pstrRun signed p l.tail).1,(pstrRun signed p l.tail).2 + 1)
    else (p = pstrNfinity.drop 3,if next signed l = none then 1 else 0)

theorem operatePstr_run (hb : b.strto = true) (width : BitVec 32) {p l : List UInt8} {pos : Nat} (hl : str.drop pos = l) :
    operatePstr b (chars signed str) p width pos =
      (if (pstrRun signed p l).1 then some width else none,pos + (pstrRun signed p l).2) := by
  induction p generalizing l pos with
  | nil => rfl
  | cons c p ih =>
    have hdrop : str.drop (pos + 1) = l.tail := by rw [← List.drop_drop,hl,List.drop_one]
    unfold operatePstr pstrRun
    rw [strto_width hb,if_neg (by simp),getc_drop,hl]
    dsimp only
    by_cases heof : next signed l = none
    · have hc : (next signed l).map toLower ≠ some c := by
        rw [heof]
        simp
      rw [if_pos heof,if_neg hc,if_pos heof]
      dsimp only
      simp only [decide_eq_true_eq]
    · rw [if_neg heof]
      by_cases hc : (next signed l).map toLower = some c
      · rw [if_pos hc,if_pos hc,ih hdrop]
        congr 1
        omega
      · rw [if_neg hc,if_neg hc,if_neg heof]
        dsimp only
        simp only [decide_eq_true_eq]
        rfl

theorem pstrRun_plain {p : List UInt8} (hp : ∀ c ∈ p, c ∈ letters)
    (hlen : p.length ≤ 4) (l : List UInt8) :
    ((pstrRun signed p l).1 = true ↔ (l.take p.length).map fold = p) ∧
      ((pstrRun signed p l).1 = true → (pstrRun signed p l).2 = p.length) := by
  induction p generalizing l with
  | nil => exact ⟨⟨fun _ => rfl,fun _ => rfl⟩,fun _ => rfl⟩
  | cons c p ih =>
    obtain ⟨hiff,hcount⟩ := ih (fun d hd => hp d (List.mem_cons_of_mem c hd)) (by simp at hlen; omega) l.tail
    have hletter := @next_letter signed c (hp c List.mem_cons_self) l
    have hne : p ≠ pstrNfinity.drop 3 := by
      intro heq
      rw [heq,List.length_cons] at hlen
      exact absurd hlen (by simp [pstrNfinity])
    unfold pstrRun
    by_cases hc : (next signed l).map toLower = some c
    · rw [if_pos hc]
      have hhead := hletter.mp hc
      cases l with
      | nil => exact absurd hhead (by simp)
      | cons d l =>
        dsimp only
        refine ⟨?_,fun h => by rw [hcount h,List.length_cons]⟩
        rw [hiff,List.tail_cons,List.length_cons,List.take_succ_cons,List.map_cons,Option.some.inj hhead,
          List.cons.injEq]
        exact ⟨fun h => ⟨rfl,h⟩,fun h => h.2⟩
    · rw [if_neg hc]
      dsimp only
      rw [decide_eq_false hne]
      refine ⟨⟨fun h => Bool.noConfusion h,fun h => ?_⟩,fun h => Bool.noConfusion h⟩
      refine absurd (hletter.mpr ?_) hc
      cases l with
      | nil => exact absurd h (by simp)
      | cons d l => exact congrArg some (List.cons.inj h).1

theorem alnum_nchar (c : UInt8) : (isalnum c || c = 0x5f) = isNchar c := (byte_classes c).2.1

theorem nchar_plain (c : UInt8) (h : isNchar c = true) : c < 0x80 ∧ c ≠ 0 ∧ c ≠ 0x29 :=
  (byte_classes c).2.2 h

theorem nanChars_spec (hb : b.strto = true) (width : BitVec 32) (i : Option UInt8) {l : List UInt8} {pos fuel : Nat}
    (hl : str.drop pos = l) (hfuel : l.length < fuel) :
    nanChars b (chars signed str) fuel i width pos =
      some (next signed (l.dropWhile isNchar),pos + (l.takeWhile isNchar).length + 1) := by
  induction l generalizing pos fuel i with
  | nil =>
    cases fuel with
    | zero => exact absurd hfuel (Nat.not_lt_zero _)
    | succ fuel =>
      unfold nanChars
      rw [strto_width hb,if_neg (by simp),getc_drop,hl]
      refine if_neg fun h => ?_
      have hany : (isalnum 0 || decide ((0 : UInt8) = 0x5f)) = true := h.2
      exact absurd hany (by decide)
  | cons c l ih =>
    cases fuel with
    | zero => exact absurd hfuel (Nat.not_lt_zero _)
    | succ fuel =>
      unfold nanChars
      rw [strto_width hb,if_neg (by simp),getc_drop,hl]
      by_cases hc : isNchar c = true
      · obtain ⟨hlow,-,hclose⟩ := nchar_plain c hc
        rw [next_plain hlow,List.takeWhile_cons,List.dropWhile_cons,if_pos hc,if_pos hc]
        dsimp only
        rw [if_pos ⟨fun h => hclose (Option.some.inj h),(alnum_nchar c).trans hc⟩,
          ih _ (drop_succ hl) (by simpa using hfuel),List.length_cons]
        congr 2
        omega
      · rw [List.takeWhile_cons,List.dropWhile_cons,if_neg hc,if_neg hc]
        refine if_neg fun h => hc ?_
        have hany := h.2
        dsimp only at hany
        rw [next_cons] at hany
        split_ifs at hany
        · exact absurd hany (by simp)
        · rw [← alnum_nchar]
          exact hany

theorem next_paren {l : List UInt8} (c : UInt8) (hc : c = 0x28 ∨ c = 0x29) : next signed l = some c ↔ l.head? = some c := by
  have hc : c < 0x80 ∧ c ≠ 0 := by
    rcases hc with rfl | rfl <;> decide
  cases l with
  | nil => simp [next_nil,hc.2.symm]
  | cons d l =>
    rw [next_cons,List.head?_cons]
    by_cases hhigh : d < 0x80
    · rw [decide_eq_false (UInt8.not_le.mpr hhigh),Bool.and_false,if_neg Bool.false_ne_true]
    · have hne : d ≠ c := by
        rintro rfl
        exact hhigh hc.1
      split_ifs <;> simp [hne]

theorem nanSuffix_spec (hb : b.strto = true) (width : BitVec 32) {l : List UInt8} {pos fuel : Nat}
    (hl : str.drop pos = l) (hfuel : l.length < fuel) :
    ∃ r, nanSuffix b (chars signed str) fuel width pos = some r ∧
      (r.1 = true ↔ (l.head? = some 0x28 → (l.tail.dropWhile isNchar).head? = some 0x29)) ∧
        (r.1 = true → r.2 + 3 = pos + nanLen l) := by
  have hdrop : str.drop (pos + 1) = l.tail := by rw [← List.drop_drop,hl,List.drop_one]
  have hlen : l.tail.length < fuel := by
    rw [List.length_tail]
    omega
  have hrest : l.tail.drop (l.tail.takeWhile isNchar).length = l.tail.dropWhile isNchar := by
    have hsplit := List.takeWhile_append_dropWhile (p := isNchar) (l := l.tail)
    calc l.tail.drop (l.tail.takeWhile isNchar).length
        = (l.tail.takeWhile isNchar ++ l.tail.dropWhile isNchar).drop (l.tail.takeWhile isNchar).length := by rw [hsplit]
      _ = l.tail.dropWhile isNchar := List.drop_left
  unfold nanSuffix nanLen
  dsimp only
  rw [strto_width hb,if_neg (by simp),getc_drop,hl,hrest]
  dsimp only
  by_cases hopen : l.head? = some 0x28
  · rw [if_pos ((next_paren 0x28 (.inl rfl)).mpr hopen),nanChars_spec hb width _ hdrop hlen,Option.map_some]
    refine ⟨_,rfl,?_,fun h => ?_⟩
    · dsimp only
      rw [decide_eq_true_eq,next_paren 0x29 (.inr rfl)]
      exact ⟨fun h _ => h,fun h => h hopen⟩
    · dsimp only at h ⊢
      rw [decide_eq_true_eq,next_paren 0x29 (.inr rfl)] at h
      rw [if_pos ⟨hopen,h⟩]
      omega
  · rw [if_neg fun h => hopen ((next_paren 0x28 (.inl rfl)).mp h)]
    refine ⟨_,rfl,⟨fun _ h => absurd h hopen,fun _ => rfl⟩,fun _ => ?_⟩
    rw [if_neg fun h => hopen h.1]
    rfl

end

end Scanf
