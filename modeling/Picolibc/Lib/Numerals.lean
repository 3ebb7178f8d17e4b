import Mathlib

namespace Numerals

def horner (b : Nat) (acc : Nat) (ds : List Nat) : Nat := ds.foldl (fun a d => a * b + d) acc

theorem horner_nil (b acc : Nat) : horner b acc [] = acc := rfl

theorem horner_cons (b acc d : Nat) (ds : List Nat) : horner b acc (d :: ds) = horner b (acc * b + d) ds := rfl

theorem horner_append (b acc : Nat) (xs ys : List Nat) :
    horner b acc (xs ++ ys) = horner b (horner b acc xs) ys := by
  simp [horner]

theorem horner_digits (b n : Nat) : horner b 0 (Nat.digits b n).reverse = n := by
  have h := Nat.ofDigits_digits b n
  rw [Nat.ofDigits_eq_foldr] at h
  rw [horner,List.foldl_reverse]
  conv_rhs => rw [← h]
  congr 1
  funext x y
  simp [Nat.mul_comm,Nat.add_comm]

theorem horner_zeros (b k : Nat) (ds : List Nat) : horner b 0 (List.replicate k 0 ++ ds) = horner b 0 ds := by
  induction k with
  | zero => rfl
  | succ k ih => simpa only [List.replicate_succ,List.cons_append,horner_cons,Nat.zero_mul,Nat.add_zero] using ih

theorem le_horner {b : Nat} (hb : 0 < b) (acc : Nat) (ds : List Nat) : acc ≤ horner b acc ds := by
  induction ds generalizing acc with
  | nil => exact le_rfl
  | cons d ds ih =>
    have hmul : acc ≤ acc * b := Nat.le_mul_of_pos_right acc hb
    exact (hmul.trans (Nat.le_add_right _ d)).trans (ih _)

theorem horner_lt {b : Nat} {ds : List Nat} (h : ∀ d ∈ ds, d < b) {acc k : Nat} (hacc : acc < b ^ k) :
    horner b acc ds < b ^ (k + ds.length) := by
  induction ds generalizing acc k with
  | nil => simpa [horner_nil] using hacc
  | cons d ds ih =>
    have hd : d < b := h d List.mem_cons_self
    have hstep : acc * b + d < b ^ (k + 1) := by
      have hmul : (acc + 1) * b ≤ b ^ k * b := Nat.mul_le_mul_right b hacc
      rw [pow_succ]
      nlinarith
    rw [horner_cons,List.length_cons]
    have hrest := ih (fun e he => h e (List.mem_cons_of_mem d he)) hstep
    rwa [Nat.add_assoc,Nat.add_comm 1] at hrest

def fixed (b : Nat) : Nat → Nat → List Nat
  | 0, _ => []
  | n + 1, x => fixed b n (x / b) ++ [x % b]

theorem fixed_length (b n x : Nat) : (fixed b n x).length = n := by
  induction n generalizing x with
  | zero => rfl
  | succ n ih => rw [fixed,List.length_append,ih,List.length_singleton]

theorem fixed_lt {b : Nat} (hb : 0 < b) (n x : Nat) : ∀ d ∈ fixed b n x, d < b := by
  induction n generalizing x with
  | zero => nofun
  | succ n ih =>
    intro d hd
    rcases List.mem_append.mp hd with hd | hd
    · exact ih (x / b) d hd
    · rw [List.mem_singleton.mp hd]
      exact Nat.mod_lt x hb

theorem horner_fixed (b n x : Nat) : horner b 0 (fixed b n x) = x % b ^ n := by
  induction n generalizing x with
  | zero => simp [fixed,horner_nil,Nat.mod_one]
  | succ n ih =>
    rw [fixed,horner_append,ih,horner_cons,horner_nil,pow_succ',Nat.mod_mul,Nat.mul_comm b]
    exact Nat.add_comm _ _

theorem fixed_cons (b n x : Nat) : fixed b (n + 1) x = x / b ^ n % b :: fixed b n x := by
  induction n generalizing x with
  | zero => simp [fixed]
  | succ n ih =>
    rw [fixed,ih,Nat.div_div_eq_div_mul,← pow_succ',List.cons_append]
    rfl

theorem fixed_mod (b n x : Nat) : fixed b n (x % b ^ n) = fixed b n x := by
  induction n generalizing x with
  | zero => rfl
  | succ n ih =>
    rw [fixed,fixed,pow_succ',Nat.mod_mul_right_div_self,ih,Nat.mod_mul_right_mod]

theorem fixed_zero (b n : Nat) : fixed b n 0 = List.replicate n 0 := by
  induction n with
  | zero => rfl
  | succ n ih => rw [fixed,Nat.zero_div,ih,Nat.zero_mod,List.replicate_succ']

theorem fixed_digits {b n x : Nat} (hb : 1 < b) (hx : x < b ^ n) :
    fixed b n x = List.replicate (n - (Nat.digits b x).length) 0 ++ (Nat.digits b x).reverse := by
  induction n generalizing x with
  | zero =>
    obtain rfl : x = 0 := by simpa using hx
    simp [fixed]
  | succ n ih =>
    by_cases hzero : x = 0
    · subst hzero
      simp [fixed_zero]
    · have hdigits := Nat.digits_def' hb (Nat.pos_of_ne_zero hzero)
      have hlt : x / b < b ^ n := Nat.div_lt_of_lt_mul (by rwa [← pow_succ'])
      rw [fixed,ih hlt,hdigits,List.length_cons,List.reverse_cons,Nat.add_sub_add_right,List.append_assoc]

theorem horner_replicate (b acc k : Nat) : horner b acc (List.replicate k 0) = acc * b ^ k := by
  induction k generalizing acc with
  | zero => rw [List.replicate_zero,horner_nil,pow_zero,mul_one]
  | succ k ih => rw [List.replicate_succ,horner_cons,Nat.add_zero,ih,pow_succ',mul_assoc]

theorem horner_acc (b acc : Nat) (ds : List Nat) : horner b acc ds = acc * b ^ ds.length + horner b 0 ds := by
  induction ds generalizing acc with
  | nil => simp [horner_nil]
  | cons d ds ih =>
    rw [horner_cons,horner_cons,ih,ih (0 * b + d),List.length_cons,pow_succ']
    ring

theorem horner_below {b : Nat} {ds : List Nat} (h : ∀ d ∈ ds, d < b) : horner b 0 ds < b ^ ds.length := by
  have hbound := @horner_lt b ds h 0 0 (by simp)
  rwa [Nat.zero_add] at hbound

theorem horner_split {b : Nat} {xs ys : List Nat} (h : ∀ d ∈ ys, d < b) :
    horner b 0 (xs ++ ys) / b ^ ys.length = horner b 0 xs := by
  have hlt := horner_below h
  rw [horner_append,horner_acc,Nat.add_comm,Nat.add_mul_div_right _ _ (by omega),Nat.div_eq_of_lt hlt,Nat.zero_add]

end Numerals
