import Mathlib

namespace Occurrences

variable {α : Type} [DecidableEq α]

def replaceFrom (pat new : List α) : Nat → List α → List α
  | _, [] => []
  | s + 1, _ :: l => replaceFrom pat new s l
  | 0, x :: l =>
    if pat <+: x :: l then new ++ replaceFrom pat new (pat.length - 1) l else x :: replaceFrom pat new 0 l

def countFrom (pat : List α) : Nat → List α → Nat
  | _, [] => 0
  | s + 1, _ :: l => countFrom pat s l
  | 0, x :: l => if pat <+: x :: l then 1 + countFrom pat (pat.length - 1) l else countFrom pat 0 l

def replaceAll (pat new l : List α) : List α := if pat = [] then l else replaceFrom pat new 0 l

def count (pat l : List α) : Nat := if pat = [] then 0 else countFrom pat 0 l

def joined (sep : α) (es : List (List α)) : List α := es.flatMap (· ++ [sep])

variable {pat new l rest : List α} {sep x : α}

@[simp] theorem replaceFrom_nil (pat new : List α) (s : Nat) : replaceFrom pat new s [] = [] := by
  cases s <;> rfl

theorem replaceFrom_succ (pat new l : List α) (s : Nat) (x : α) :
    replaceFrom pat new (s + 1) (x :: l) = replaceFrom pat new s l := rfl

theorem replaceFrom_cons (pat new l : List α) (x : α) : replaceFrom pat new 0 (x :: l) =
    if pat <+: x :: l then new ++ replaceFrom pat new (pat.length - 1) l else x :: replaceFrom pat new 0 l := rfl

@[simp] theorem countFrom_nil (pat : List α) (s : Nat) : countFrom pat s [] = 0 := by
  cases s <;> rfl

theorem countFrom_succ (pat l : List α) (s : Nat) (x : α) : countFrom pat (s + 1) (x :: l) = countFrom pat s l := rfl

theorem countFrom_cons (pat l : List α) (x : α) : countFrom pat 0 (x :: l) =
    if pat <+: x :: l then 1 + countFrom pat (pat.length - 1) l else countFrom pat 0 l := rfl

omit [DecidableEq α] in
@[simp] theorem joined_nil (sep : α) : joined sep [] = [] := rfl

omit [DecidableEq α] in
@[simp] theorem joined_cons (sep : α) (e : List α) (es : List (List α)) :
    joined sep (e :: es) = e ++ sep :: joined sep es := by
  simp [joined]

omit [DecidableEq α] in
@[simp] theorem joined_append (sep : α) (es fs : List (List α)) :
    joined sep (es ++ fs) = joined sep es ++ joined sep fs := by
  simp [joined]

theorem replaceFrom_skip (pat new l : List α) (s : Nat) : replaceFrom pat new s l = replaceFrom pat new 0 (l.drop s) := by
  induction l generalizing s with
  | nil => simp
  | cons x l ih =>
    cases s with
    | zero => rfl
    | succ s => exact ih s

theorem countFrom_skip (pat l : List α) (s : Nat) : countFrom pat s l = countFrom pat 0 (l.drop s) := by
  induction l generalizing s with
  | nil => simp
  | cons x l ih =>
    cases s with
    | zero => rfl
    | succ s => exact ih s

theorem replaceFrom_match (hpat : pat ≠ []) (new rest : List α) :
    replaceFrom pat new 0 (pat ++ rest) = new ++ replaceFrom pat new 0 rest := by
  obtain ⟨x,p,rfl⟩ := List.exists_cons_of_ne_nil hpat
  have hpre : x :: p <+: x :: (p ++ rest) := ⟨rest,rfl⟩
  rw [List.cons_append,replaceFrom_cons,if_pos hpre,replaceFrom_skip]
  simp

theorem countFrom_match (hpat : pat ≠ []) (rest : List α) :
    countFrom pat 0 (pat ++ rest) = 1 + countFrom pat 0 rest := by
  obtain ⟨x,p,rfl⟩ := List.exists_cons_of_ne_nil hpat
  have hpre : x :: p <+: x :: (p ++ rest) := ⟨rest,rfl⟩
  rw [List.cons_append,countFrom_cons,if_pos hpre,countFrom_skip]
  simp

theorem replaceFrom_miss (new : List α) (h : ¬pat <+: x :: l) :
    replaceFrom pat new 0 (x :: l) = x :: replaceFrom pat new 0 l := by
  rw [replaceFrom_cons,if_neg h]

theorem countFrom_miss (h : ¬pat <+: x :: l) : countFrom pat 0 (x :: l) = countFrom pat 0 l := by
  rw [countFrom_cons,if_neg h]

omit [DecidableEq α] in
theorem prefix_before (hsep : sep ∉ pat) : pat <+: l ++ sep :: rest ↔ pat <+: l := by
  refine ⟨fun h => ?_,fun h => h.trans (List.prefix_append l (sep :: rest))⟩
  rcases Nat.lt_or_ge l.length pat.length with hlt | hle
  · have hget := h.getElem hlt
    rw [List.getElem_append_right (le_refl l.length)] at hget
    refine absurd (List.getElem_mem hlt) ?_
    rw [hget]
    simpa using hsep
  · exact List.prefix_of_prefix_length_le h (List.prefix_append l (sep :: rest)) hle

omit [DecidableEq α] in
theorem not_prefix_sep (hpat : pat ≠ []) (hsep : sep ∉ pat) : ¬pat <+: sep :: rest := by
  obtain ⟨x,p,rfl⟩ := List.exists_cons_of_ne_nil hpat
  intro h
  refine hsep ?_
  rw [(List.cons_prefix_cons.mp h).1]
  exact List.mem_cons_self

theorem replaceFrom_before (hpat : pat ≠ []) (hsep : sep ∉ pat) (new rest : List α) {s : Nat} (hs : s ≤ l.length) :
    replaceFrom pat new s (l ++ sep :: rest) = replaceFrom pat new s l ++ sep :: replaceFrom pat new 0 rest := by
  induction l generalizing s with
  | nil =>
    obtain rfl : s = 0 := by simpa using hs
    rw [List.nil_append,replaceFrom_miss new (not_prefix_sep hpat hsep)]
    rfl
  | cons x l ih =>
    cases s with
    | succ s =>
      rw [List.cons_append,replaceFrom_succ,replaceFrom_succ]
      exact ih (Nat.le_of_succ_le_succ hs)
    | zero =>
      have hiff : pat <+: x :: (l ++ sep :: rest) ↔ pat <+: x :: l := prefix_before (l := x :: l) hsep
      rw [List.cons_append,replaceFrom_cons,replaceFrom_cons]
      by_cases hp : pat <+: x :: l
      · have hlen := hp.length_le
        rw [List.length_cons] at hlen
        rw [if_pos (hiff.mpr hp),if_pos hp,ih (by omega),List.append_assoc]
      · rw [if_neg (hiff.not.mpr hp),if_neg hp,ih (Nat.zero_le _),List.cons_append]

theorem countFrom_before (hpat : pat ≠ []) (hsep : sep ∉ pat) (rest : List α) {s : Nat} (hs : s ≤ l.length) :
    countFrom pat s (l ++ sep :: rest) = countFrom pat s l + countFrom pat 0 rest := by
  induction l generalizing s with
  | nil =>
    obtain rfl : s = 0 := by simpa using hs
    rw [List.nil_append,countFrom_miss (not_prefix_sep hpat hsep),countFrom_nil,Nat.zero_add]
  | cons x l ih =>
    cases s with
    | succ s =>
      rw [List.cons_append,countFrom_succ,countFrom_succ]
      exact ih (Nat.le_of_succ_le_succ hs)
    | zero =>
      have hiff : pat <+: x :: (l ++ sep :: rest) ↔ pat <+: x :: l := prefix_before (l := x :: l) hsep
      rw [List.cons_append,countFrom_cons,countFrom_cons]
      by_cases hp : pat <+: x :: l
      · have hlen := hp.length_le
        rw [List.length_cons] at hlen
        rw [if_pos (hiff.mpr hp),if_pos hp,ih (by omega),Nat.add_assoc]
      · rw [if_neg (hiff.not.mpr hp),if_neg hp,ih (Nat.zero_le _)]

theorem replaceFrom_joined (hpat : pat ≠ []) (hsep : sep ∉ pat) (new : List α) (es : List (List α)) :
    replaceFrom pat new 0 (joined sep es) = joined sep (es.map (replaceAll pat new)) := by
  induction es with
  | nil => rfl
  | cons e es ih =>
    rw [joined_cons,replaceFrom_before hpat hsep new _ (Nat.zero_le _),ih,List.map_cons,joined_cons,replaceAll,if_neg hpat]

theorem countFrom_joined (hpat : pat ≠ []) (hsep : sep ∉ pat) (es : List (List α)) :
    countFrom pat 0 (joined sep es) = (es.map (count pat)).sum := by
  induction es with
  | nil => rfl
  | cons e es ih =>
    rw [joined_cons,countFrom_before hpat hsep _ (Nat.zero_le _),ih,List.map_cons,List.sum_cons,count,if_neg hpat]

theorem replaceFrom_length (hpat : pat ≠ []) (new l : List α) (s : Nat) :
    (replaceFrom pat new s l).length + countFrom pat s l * pat.length + min s l.length =
      l.length + countFrom pat s l * new.length := by
  have hpos : 0 < pat.length := List.length_pos_iff.mpr hpat
  induction l generalizing s with
  | nil => simp
  | cons x l ih =>
    cases s with
    | succ s =>
      have := ih s
      rw [replaceFrom_succ,countFrom_succ,List.length_cons]
      omega
    | zero =>
      rw [replaceFrom_cons,countFrom_cons]
      by_cases hp : pat <+: x :: l
      · have hlen := hp.length_le
        have hrest := ih (pat.length - 1)
        rw [List.length_cons] at hlen
        rw [min_eq_left (by omega)] at hrest
        rw [if_pos hp,if_pos hp,List.length_append,List.length_cons,Nat.add_mul,Nat.add_mul]
        omega
      · have := ih 0
        rw [if_neg hp,if_neg hp,List.length_cons,List.length_cons]
        omega

theorem replaceFrom_none (new : List α) (h : countFrom pat 0 l = 0) : replaceFrom pat new 0 l = l := by
  induction l with
  | nil => rfl
  | cons x l ih =>
    by_cases hp : pat <+: x :: l
    · rw [countFrom_cons,if_pos hp] at h
      omega
    · rw [countFrom_miss hp] at h
      rw [replaceFrom_miss new hp,ih h]

theorem replaceAll_none (new : List α) (h : count pat l = 0) : replaceAll pat new l = l := by
  rw [replaceAll]
  split
  · rfl
  · next hpat =>
    rw [count,if_neg hpat] at h
    exact replaceFrom_none new h

theorem map_replaceAll_none (new : List α) {es : List (List α)} (h : (es.map (count pat)).sum = 0) :
    es.map (replaceAll pat new) = es := by
  rw [List.map_congr_left (g := id),List.map_id]
  intro e he
  exact replaceAll_none new (List.sum_eq_zero_iff.mp h _ (List.mem_map_of_mem he))

theorem replaceFrom_same (hpat : pat ≠ []) (hlen : new.length = pat.length) (hcount : countFrom pat 0 l ≠ 0)
    (h : replaceFrom pat new 0 l = l) : new = pat := by
  induction l with
  | nil => exact absurd rfl hcount
  | cons x l ih =>
    by_cases hp : pat <+: x :: l
    · obtain ⟨rest,hrest⟩ := hp
      rw [← hrest,replaceFrom_match hpat] at h
      exact (List.append_inj h hlen).1
    · rw [countFrom_miss hp] at hcount
      rw [replaceFrom_miss new hp] at h
      exact ih hcount (List.cons.inj h).2

theorem map_replaceAll_same (hpat : pat ≠ []) {es : List (List α)} (hcount : (es.map (count pat)).sum ≠ 0)
    (h : es.map (replaceAll pat new) = es) : new = pat := by
  obtain ⟨e,he,hne⟩ : ∃ e ∈ es, count pat e ≠ 0 := by
    by_contra hall
    push Not at hall
    exact hcount (List.sum_eq_zero fun n hn => by
      obtain ⟨e,he,rfl⟩ := List.mem_map.mp hn
      exact hall e he)
  have hsame : replaceAll pat new e = e := List.map_inj_left.mp (h.trans (List.map_id es).symm) e he
  rw [count,if_neg hpat] at hne
  rw [replaceAll,if_neg hpat] at hsame
  refine replaceFrom_same hpat ?_ hne hsame
  have hlen := replaceFrom_length hpat new e 0
  rw [hsame,Nat.zero_min,Nat.add_zero,Nat.add_left_cancel_iff] at hlen
  exact (Nat.eq_of_mul_eq_mul_left (Nat.pos_of_ne_zero hne) hlen).symm

theorem replaceFrom_self (hpat : pat ≠ []) (l : List α) : replaceFrom pat pat 0 l = l := by
  have hpos : 0 < pat.length := List.length_pos_iff.mpr hpat
  induction hn : l.length using Nat.strong_induction_on generalizing l with
  | _ n ih =>
    cases l with
    | nil => rfl
    | cons x l =>
      rw [List.length_cons] at hn
      by_cases hp : pat <+: x :: l
      · obtain ⟨rest,hrest⟩ := hp
        have hlen := congrArg List.length hrest
        rw [List.length_append,List.length_cons] at hlen
        rw [← hrest,replaceFrom_match hpat,ih rest.length (by omega) rest rfl]
      · rw [replaceFrom_miss pat hp,ih l.length (by omega) l rfl]

theorem map_replaceAll_self (pat : List α) (es : List (List α)) : es.map (replaceAll pat pat) = es := by
  rw [List.map_congr_left (g := id),List.map_id]
  intro e _
  rw [replaceAll]
  split
  · rfl
  · next hpat => exact replaceFrom_self hpat e

omit [DecidableEq α] in
theorem append_sep_inj {e f a b : List α} (he : sep ∉ e) (hf : sep ∉ f) (h : e ++ sep :: a = f ++ sep :: b) :
    e = f ∧ a = b := by
  induction e generalizing f with
  | nil =>
    cases f with
    | nil => exact ⟨rfl,(List.cons.inj h).2⟩
    | cons y f => exact absurd ((List.cons.inj h).1 ▸ List.mem_cons_self) hf
  | cons x e ih =>
    cases f with
    | nil => exact absurd ((List.cons.inj h).1.symm ▸ List.mem_cons_self) he
    | cons y f =>
      obtain ⟨rfl,hrest⟩ := List.cons.inj h
      obtain ⟨rfl,hab⟩ := ih (fun hm => he (List.mem_cons_of_mem x hm)) (fun hm => hf (List.mem_cons_of_mem x hm)) hrest
      exact ⟨rfl,hab⟩

omit [DecidableEq α] in
theorem joined_inj {es fs : List (List α)} (hes : ∀ e ∈ es, sep ∉ e) (hfs : ∀ e ∈ fs, sep ∉ e)
    (h : joined sep es = joined sep fs) : es = fs := by
  induction es generalizing fs with
  | nil =>
    cases fs with
    | nil => rfl
    | cons f fs => simp at h
  | cons e es ih =>
    cases fs with
    | nil => simp at h
    | cons f fs =>
      rw [joined_cons,joined_cons] at h
      obtain ⟨rfl,hrest⟩ := append_sep_inj (hes e List.mem_cons_self) (hfs f List.mem_cons_self) h
      rw [ih (fun x hx => hes x (List.mem_cons_of_mem e hx)) (fun x hx => hfs x (List.mem_cons_of_mem e hx)) hrest]

end Occurrences
