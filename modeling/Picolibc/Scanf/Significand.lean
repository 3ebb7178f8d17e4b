import Mathlib
import Picolibc.Lib.Numerals
import Picolibc.Scanf.Feed

open Ascii Numerals Scanf.Grammar

namespace Scanf

def significant (D : List Nat) : List Nat := D.dropWhile fun d => d = 0

def kept (k : Nat) (D : List Nat) : List Nat := (significant D).take k

def dropped (k : Nat) (D : List Nat) : List Nat := (significant D).drop k

def spillDigits (base : Nat) : List Nat → List Nat
  | [] => []
  | c :: l => (if base = 10 ∧ c = 5 then 0 else c) :: l

def spill (base : Nat) (l : List Nat) : Nat :=
  (if base = 10 ∧ 5 ≤ l.headD 0 then 2 else 0) ||| (if (spillDigits base l).any (fun d => d ≠ 0) then 1 else 0)

def Build.capacity (b : Build) (hex : Bool) : Nat := b.digits hex + 1

structure Took (b : Build) (D : List Nat) (F : Nat) (a : Acc) : Prop where
  uint : a.uint = horner a.base 0 (kept (b.capacity a.fhex) D)
  count : a.uintdigits = (kept (b.capacity a.fhex) D).length
  exp : a.exp = (dropped (b.capacity a.fhex) D).length - F
  ovfl : a.ovfl = !(dropped (b.capacity a.fhex) D).isEmpty
  overflow : a.overflow = spill a.base (dropped (b.capacity a.fhex) D)

theorem significant_append (D : List Nat) (d : Nat) :
    significant (D ++ [d]) = if significant D = [] then (if d = 0 then [] else [d]) else significant D ++ [d] := by
  unfold significant
  induction D with
  | nil =>
    by_cases hd : d = 0 <;> simp [hd]
  | cons c D ih =>
    by_cases hc : c = 0
    · simpa [hc] using ih
    · simp [hc]

theorem significant_head (D : List Nat) : ∀ d ∈ (significant D).head?, d ≠ 0 := by
  intro d hd
  cases hs : significant D with
  | nil => exact absurd hd (by simp [hs])
  | cons c l =>
    have hhead := List.head?_dropWhile_not (fun d : Nat => decide (d = 0)) D
    rw [hs] at hd
    obtain rfl := Option.some.inj hd
    rw [show D.dropWhile (fun d : Nat => decide (d = 0)) = c :: l from hs] at hhead
    simpa using hhead

theorem or_bits (p q : Bool) : (if (p || q) = true then 1 else 0) = (if p = true then 1 else 0) ||| (if q = true then 1 else 0) := by
  cases p <;> cases q <;> rfl

theorem spill_append {base : Nat} {l : List Nat} (h : l ≠ []) (d : Nat) :
    spill base (l ++ [d]) = spill base l ||| (if d ≠ 0 then 1 else 0) := by
  obtain ⟨c,l,rfl⟩ := List.exists_cons_of_ne_nil h
  have hany : (spillDigits base (c :: l ++ [d])).any (fun d => d ≠ 0) =
      ((spillDigits base (c :: l)).any (fun d => d ≠ 0) || decide (d ≠ 0)) := by
    simp only [List.cons_append,spillDigits,List.any_cons,List.any_append,List.any_nil,Bool.or_false,Bool.or_assoc]
  unfold spill
  rw [hany,or_bits,← Nat.or_assoc]
  simp only [List.cons_append,List.headD_cons,decide_eq_true_eq]
  rfl

theorem capacity_fits (b : Build) (hex : Bool) : (if hex then 16 else 10) ^ b.capacity hex ≤ 2 ^ b.kind.uintBits := by
  cases hex with
  | false => cases b with
    | vfscanf long => cases long <;> decide
    | strtod | strtof | fvfscanf => decide
  | true => cases b with
    | vfscanf long => cases long <;> decide
    | strtod | strtof | fvfscanf => decide

theorem horner_ne_zero {base : Nat} (hbase : 0 < base) {l : List Nat} (h : ∀ d ∈ l.head?, d ≠ 0) (hl : l ≠ []) :
    horner base 0 l ≠ 0 := by
  obtain ⟨c,l,rfl⟩ := List.exists_cons_of_ne_nil hl
  have hc := h c rfl
  have hle := le_horner hbase (0 * base + c) l
  rw [horner_cons]
  omega

theorem le_horner_head {base : Nat} {l : List Nat} (h : ∀ d ∈ l.head?, d ≠ 0) (hl : l ≠ []) :
    base ^ (l.length - 1) ≤ horner base 0 l := by
  obtain ⟨c,l,rfl⟩ := List.exists_cons_of_ne_nil hl
  have hc := h c rfl
  rw [horner_cons,horner_acc,Nat.zero_mul,Nat.zero_add,List.length_cons,Nat.add_sub_cancel]
  calc base ^ l.length = 1 * base ^ l.length := (one_mul _).symm
    _ ≤ c * base ^ l.length := Nat.mul_le_mul_right _ (Nat.pos_of_ne_zero hc)
    _ ≤ c * base ^ l.length + horner base 0 l := Nat.le_add_right _ _

theorem zeros_of_horner {base : Nat} (hbase : 0 < base) {l : List Nat} (h : horner base 0 l = 0) : ∀ d ∈ l, d = 0 := by
  induction l with
  | nil => exact fun d hd => absurd hd (by simp)
  | cons c l ih =>
    rw [horner_cons,horner_acc,Nat.zero_mul,Nat.zero_add] at h
    have hc : c * base ^ l.length = 0 := by omega
    have hzero : c = 0 := (Nat.mul_eq_zero.mp hc).resolve_right (Nat.pow_pos hbase).ne'
    exact fun d hd => (List.mem_cons.mp hd).elim (fun heq => heq.trans hzero) (ih (by omega) d)

section

variable {b : Build} {D : List Nat} {F : Nat} {a : Acc}

theorem base_pos (a : Acc) : 0 < a.base := by
  unfold Acc.base
  split_ifs <;> decide

theorem base_eq (a : Acc) : a.base = if a.fhex then 16 else 10 := rfl

theorem took_full (h : Took b D F a) : (a.ovfl || a.isFull b) = true ↔ b.capacity a.fhex ≤ (significant D).length := by
  have hlen : (kept (b.capacity a.fhex) D).length = min (b.capacity a.fhex) (significant D).length := List.length_take
  have hdrop : (dropped (b.capacity a.fhex) D) = [] ↔ (significant D).length ≤ b.capacity a.fhex := List.drop_eq_nil_iff
  unfold Acc.isFull
  rw [h.ovfl,h.count,hlen]
  have hcap : b.capacity a.fhex = b.digits a.fhex + 1 := rfl
  by_cases hnil : dropped (b.capacity a.fhex) D = []
  · have hle := hdrop.mp hnil
    rw [hnil,List.isEmpty_nil,Bool.not_true,Bool.false_or,Bool.not_false,Bool.true_and,decide_eq_true_eq]
    omega
  · have hlt : ¬(significant D).length ≤ b.capacity a.fhex := fun hle => hnil (hdrop.mpr hle)
    rw [List.isEmpty_eq_false_iff.mpr hnil,Bool.not_false,Bool.true_or]
    exact ⟨fun _ => by omega,fun _ => rfl⟩

theorem uint_lt (hD : ∀ d ∈ D, d < a.base) : horner a.base 0 (kept (b.capacity a.fhex) D) < 2 ^ b.kind.uintBits := by
  have hmem : ∀ d ∈ kept (b.capacity a.fhex) D, d < a.base := by
    intro d hd
    exact hD d ((List.dropWhile_sublist _).subset (List.mem_of_mem_take hd))
  have hlt := @horner_lt a.base _ hmem 0 0 (by simp)
  have hlen : (kept (b.capacity a.fhex) D).length ≤ b.capacity a.fhex := List.length_take_le _ _
  calc horner a.base 0 (kept (b.capacity a.fhex) D) < a.base ^ (0 + (kept (b.capacity a.fhex) D).length) := hlt
    _ ≤ a.base ^ b.capacity a.fhex := Nat.pow_le_pow_right (base_pos a) (by omega)
    _ ≤ 2 ^ b.kind.uintBits := capacity_fits b a.fhex

theorem took_keep (h : Took b D F a) {d : Nat} (hD : ∀ d ∈ D, d < a.base) (hd : d < a.base)
    (hroom : (significant D).length < b.capacity a.fhex) : Took b (D ++ [d]) (F + a.dot.toNat) (a.keep b d) := by
  have hbase : 0 < a.base := base_pos a
  have hall : ∀ e ∈ D ++ [d], e < a.base := by
    intro e he
    exact (List.mem_append.mp he).elim (hD e) fun hmem => by rwa [List.mem_singleton.mp hmem]
  have hnew : (significant (D ++ [d])).length ≤ b.capacity a.fhex := by
    rw [significant_append]
    split_ifs <;> simp <;> omega
  have hkept : kept (b.capacity a.fhex) D = significant D := List.take_of_length_le hroom.le
  have hkept' : kept (b.capacity a.fhex) (D ++ [d]) = significant (D ++ [d]) := List.take_of_length_le hnew
  have hdropped : dropped (b.capacity a.fhex) D = [] := List.drop_of_length_le hroom.le
  have hdropped' : dropped (b.capacity a.fhex) (D ++ [d]) = [] := List.drop_of_length_le hnew
  have huint : (a.uint * a.base + d) % 2 ^ b.kind.uintBits = horner a.base 0 (significant (D ++ [d])) := by
    have hvalue : horner a.base 0 (significant (D ++ [d])) = horner a.base 0 (significant D) * a.base + d := by
      rw [significant_append]
      split_ifs with hnil hzero
      · rw [hnil,hzero,horner_nil,Nat.zero_mul]
      · rw [hnil,horner_cons,horner_nil,horner_nil,Nat.zero_mul]
      · rw [horner_append,horner_cons,horner_nil]
    have hlt := uint_lt (b := b) hall
    rw [hkept',hvalue] at hlt
    rw [h.uint,hkept,hvalue,Nat.mod_eq_of_lt hlt]
  refine ⟨?_,?_,?_,?_,?_⟩
  · exact huint.trans (congrArg (horner a.base 0) hkept'.symm)
  · show (if (a.uint * a.base + d) % 2 ^ b.kind.uintBits ≠ 0 then a.uintdigits + 1 else a.uintdigits) =
      (kept (b.capacity a.fhex) (D ++ [d])).length
    rw [huint,h.count,hkept,hkept']
    by_cases hempty : significant (D ++ [d]) = []
    · have hsig : significant D = [] := by
        rw [significant_append] at hempty
        split_ifs at hempty with hnil
        · exact hnil
        · exact absurd hempty (by simp)
      rw [hempty,hsig,horner_nil,if_neg (not_not.mpr rfl)]
    · have hlen : (significant (D ++ [d])).length = (significant D).length + 1 := by
        rw [significant_append] at hempty ⊢
        split_ifs at hempty ⊢ with hnil hzero
        · exact absurd rfl hempty
        · rw [hnil]
          rfl
        · exact List.length_append
      rw [if_pos (horner_ne_zero hbase (significant_head _) hempty),hlen]
  · have hexp := h.exp
    rw [hdropped,List.length_nil] at hexp
    show (if a.dot then a.exp - 1 else a.exp) = ((dropped (b.capacity a.fhex) (D ++ [d])).length : ℤ) - (F + a.dot.toNat : ℕ)
    rw [hdropped',hexp]
    cases a.dot <;> simp
    omega
  · exact h.ovfl.trans (by rw [hdropped]; exact (congrArg (fun l => !List.isEmpty l) hdropped').symm)
  · exact h.overflow.trans (by rw [hdropped]; exact (congrArg (spill a.base) hdropped').symm)

theorem took_drop (h : Took b D F a) {d : Nat} (hfull : b.capacity a.fhex ≤ (significant D).length) :
    Took b (D ++ [d]) (F + a.dot.toNat) (a.drop b d) := by
  have hcap : b.capacity a.fhex = b.digits a.fhex + 1 := rfl
  have hsig : significant (D ++ [d]) = significant D ++ [d] := by
    rw [significant_append,if_neg]
    intro hnil
    rw [hnil,List.length_nil] at hfull
    omega
  have hkept : kept (b.capacity a.fhex) (D ++ [d]) = kept (b.capacity a.fhex) D := by
    rw [kept,kept,hsig,List.take_append_of_le_length hfull]
  have hdropped : dropped (b.capacity a.fhex) (D ++ [d]) = dropped (b.capacity a.fhex) D ++ [d] := by
    rw [dropped,dropped,hsig,List.drop_append_of_le_length hfull]
  refine ⟨?_,?_,?_,?_,?_⟩
  · exact h.uint.trans (congrArg (horner a.base 0) hkept.symm)
  · exact h.count.trans (congrArg List.length hkept.symm)
  · have hexp := h.exp
    show (if a.dot then a.exp else a.exp + 1) = ((dropped (b.capacity a.fhex) (D ++ [d])).length : ℤ) - (F + a.dot.toNat : ℕ)
    rw [hdropped,hexp,List.length_append,List.length_singleton]
    cases a.dot with
    | false =>
      simp
      omega
    | true => simp
  · show true = !(dropped (b.capacity a.fhex) (D ++ [d])).isEmpty
    rw [hdropped]
    simp
  · show a.half b d ||| (if a.tail b d ≠ 0 then 1 else 0) = spill a.base (dropped (b.capacity a.fhex) (D ++ [d]))
    rw [hdropped]
    have hovfl := h.ovfl
    unfold Acc.half Acc.tail
    by_cases hnil : dropped (b.capacity a.fhex) D = []
    · have hlen := (took_full h).mpr hfull
      rw [hnil] at hovfl
      have hisFull : a.isFull b = true := by rwa [hovfl,List.isEmpty_nil,Bool.not_true,Bool.false_or] at hlen
      have hzero : a.overflow = 0 := by
        rw [h.overflow,hnil]
        simp [spill,spillDigits]
      rw [hnil,hisFull,hzero]
      simp [spill,spillDigits,imp_iff_not_or]
    · rw [List.isEmpty_eq_false_iff.mpr hnil] at hovfl
      have hisFull : a.isFull b = false := by
        unfold Acc.isFull
        rw [hovfl]
        rfl
      have hhalf : (if a.isFull b = true ∧ a.base = 10 ∧ 5 ≤ d then 2 else a.overflow) = a.overflow :=
        if_neg fun hc => Bool.false_ne_true (hisFull.symm.trans hc.1)
      have htail : (if a.isFull b = true ∧ a.base = 10 ∧ d = 5 then 0 else d) = d :=
        if_neg fun hc => Bool.false_ne_true (hisFull.symm.trans hc.1)
      rw [hhalf,htail,spill_append hnil,← h.overflow]

theorem took_digit (h : Took b D F a) {d : Nat} (hD : ∀ d ∈ D, d < a.base) (hd : d < a.base) :
    Took b (D ++ [d]) (F + a.dot.toNat) (a.addDigit b d) := by
  unfold Acc.addDigit
  by_cases hfull : b.capacity a.fhex ≤ (significant D).length
  · rw [if_pos ((took_full h).mpr hfull)]
    exact took_drop h hfull
  · rw [if_neg fun hc => hfull ((took_full h).mp hc)]
    exact took_keep h hD hd (not_le.mp hfull)

theorem digitVal_congr {a a' : Acc} (h : a.fhex = a'.fhex) (c : UInt8) : a.digitVal c = a'.digitVal c := by
  unfold Acc.digitVal
  rw [h]

theorem took_absorb {ds : List UInt8} (h : Took b D F a) (hD : ∀ d ∈ D, d < a.base)
    (hds : ∀ c ∈ ds, baseDigit a.fhex c = true) :
    Took b (D ++ ds.map fun c => (a.digitVal c).toNat) (F + a.dot.toNat * ds.length) (a.absorb b ds) := by
  induction ds generalizing D F a with
  | nil => simpa [Acc.absorb] using h
  | cons c ds ih =>
    have hc := (Acc.digit_iff c).mpr (hds c List.mem_cons_self)
    obtain ⟨hhex,hdot,-⟩ := @Acc.addDigit_flags b a (a.digitVal c).toNat
    have hbase : (a.addDigit b (a.digitVal c).toNat).base = a.base := by rw [base_eq,base_eq,hhex]
    have hval : ∀ e, (a.addDigit b (a.digitVal c).toNat).digitVal e = a.digitVal e := fun e => digitVal_congr hhex e
    have hstep := ih (took_digit h hD hc) (by
      rw [hbase]
      intro e he
      exact (List.mem_append.mp he).elim (hD e) fun hmem => by rwa [List.mem_singleton.mp hmem]) (by
      rw [hhex]
      exact fun e he => hds e (List.mem_cons_of_mem c he))
    simp only [hval,hdot] at hstep
    rw [List.append_assoc,List.singleton_append] at hstep
    have hcount : F + a.dot.toNat + a.dot.toNat * ds.length = F + a.dot.toNat * (ds.length + 1) := by ring
    rwa [hcount] at hstep

theorem took_start (h : Acc) (huint : h.uint = 0) (hcount : h.uintdigits = 0) (hexp : h.exp = 0) (hovfl : h.ovfl = false)
    (hoverflow : h.overflow = 0) : Took b [] 0 h := by
  refine ⟨huint,hcount,hexp,hovfl,hoverflow.trans ?_⟩
  simp [spill,spillDigits,dropped,significant]

theorem took_setDot (h : Took b D F a) : Took b D F a.setDot := ⟨h.uint,h.count,h.exp,h.ovfl,h.overflow⟩

theorem took_mantissa {l ds fs rest : List UInt8} {dot : Bool} (h : Took b [] 0 a) (hdot : a.dot = false)
    (hsplit : Split (baseDigit a.fhex) l ds dot fs rest) :
    Took b ((ds ++ fs).map fun c => (a.digitVal c).toNat) fs.length (a.mantissa b ds dot fs) := by
  cases hsplit with
  | whole hds _ =>
    have htook := took_absorb h (by simp) hds
    rw [hdot,Bool.toNat_false,Nat.zero_mul] at htook
    rw [List.append_nil]
    exact htook
  | pointed hall _ =>
    have htook := took_setDot (took_absorb h (by simp) fun c hc => hall c (List.mem_append_left fs hc))
    obtain ⟨hhex,-⟩ := @Acc.absorb_flags b a ds
    have hkeep : (a.absorb b ds).setDot.fhex = a.fhex := hhex
    have hval : ∀ c, (a.absorb b ds).setDot.digitVal c = a.digitVal c := fun c => digitVal_congr hkeep c
    have hbase : (a.absorb b ds).setDot.base = a.base := by rw [base_eq,base_eq,hkeep]
    have hrest := @took_absorb b _ _ _ fs htook (fun d hd => ?_) fun c hc => ?_
    · rw [hdot,Bool.toNat_false,Nat.zero_mul] at hrest
      simp only [hval,List.nil_append] at hrest
      rw [List.map_append]
      have hone : 0 + (a.absorb b ds).setDot.dot.toNat * fs.length = fs.length := by
        show 0 + 1 * fs.length = fs.length
        omega
      rw [hone] at hrest
      exact hrest
    · rw [List.nil_append] at hd
      obtain ⟨c,hc,rfl⟩ := List.mem_map.mp hd
      rw [hbase]
      exact (Acc.digit_iff c).mpr (hall c (List.mem_append_left fs hc))
    · rw [hkeep]
      exact hall c (List.mem_append_right ds hc)

def digitValue (c : UInt8) : Nat := if isdigit c then c.toNat - 0x30 else (fold c).toNat - 0x57

theorem digitVal_value {a : Acc} {c : UInt8} (h : (if a.fhex then isHex c else isdigit c) = true) :
    (a.digitVal c).toNat = digitValue c := by
  unfold Acc.digitVal digitValue
  generalize a.fhex = hex at h ⊢
  have hl := toLower_toNat c
  have hf := fold_toNat c
  have hc := c.toNat_lt
  have hsub : (toLower c - 0x61).toNat = ((toLower c).toNat + 159) % 256 := by
    rw [UInt8.toNat_sub,Nat.add_comm]
    rfl
  have hten : (toLower c - 0x61 + 10).toNat = ((toLower c - 0x61).toNat + 10) % 256 := UInt8.toNat_add _ _
  have hdig : (c - 0x30).toNat = (c.toNat + 208) % 256 := by
    rw [UInt8.toNat_sub,Nat.add_comm]
    rfl
  cases hex <;>
    simp only [isHex,isdigit,UInt8.le_iff_toNat_le,UInt8.reduceToNat,Bool.or_eq_true,Bool.and_eq_true,
      decide_eq_true_eq,Bool.false_eq_true,if_false,if_true,false_and,true_and] at h ⊢ <;>
    split_ifs at hl hf ⊢ <;> omega

theorem significant_value (base : Nat) (D : List Nat) (k : Nat) :
    horner base 0 D = horner base (horner base 0 (kept k D)) (dropped k D) := by
  have hzeros : ∃ z, D = List.replicate z 0 ++ significant D := by
    refine ⟨(D.takeWhile fun d => d = 0).length,?_⟩
    have hsplit := List.takeWhile_append_dropWhile (p := fun d : Nat => decide (d = 0)) (l := D)
    have hall : ∀ d ∈ D.takeWhile (fun d => d = 0), d = 0 := fun d hd => by simpa using List.mem_takeWhile_imp hd
    rw [← List.eq_replicate_of_mem hall]
    exact hsplit.symm
  obtain ⟨z,hz⟩ := hzeros
  calc horner base 0 D = horner base 0 (List.replicate z 0 ++ significant D) := by rw [← hz]
    _ = horner base 0 (significant D) := horner_zeros base z _
    _ = horner base 0 (kept k D ++ dropped k D) := by rw [kept,dropped,List.take_append_drop]
    _ = horner base (horner base 0 (kept k D)) (dropped k D) := horner_append _ _ _ _

end

theorem written_split {digit : UInt8 → Bool} {whole fraction : List UInt8} {point : Bool}
    (hdigits : ∀ c ∈ whole ++ fraction, digit c = true) (hpointed : point = false → fraction = []) :
    Split digit (whole ++ (if point then 0x2e :: fraction else [])) whole point fraction [] := by
  have hend : ∀ c ∈ ([] : List UInt8).head?, digit c = false ∧ c ≠ 0x2e := fun c hc => absurd hc (by simp)
  cases point with
  | false =>
    rw [hpointed rfl,List.append_nil] at hdigits
    rw [hpointed rfl]
    exact .whole hdigits hend
  | true =>
    have hsplit := Split.pointed hdigits fun c hc => (hend c hc).1
    rwa [List.append_nil] at hsplit

theorem written_exponent (b : Build) {letter : UInt8} {e : List UInt8} (h : Exponent letter e) :
    exponentValue b letter e =
      signExp e.tail.head? (((e.tail.drop (signLen e.tail)).takeWhile isdigit).foldl (accumulate b) 0) := by
  cases h with
  | absent => rfl
  | written hmark _ _ _ => exact if_pos (congrArg some hmark)

end Scanf
