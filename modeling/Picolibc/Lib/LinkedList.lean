import Mathlib

namespace LinkedList

def Seg (next : Nat → Nat) : Nat → List Nat → Nat → Prop
  | p, [], q => p = q
  | p, x :: xs, q => p = x ∧ x ≠ 0 ∧ Seg next (next x) xs q

variable {next next' : Nat → Nat}

theorem seg_append {p q : Nat} {xs ys : List Nat} :
    Seg next p (xs ++ ys) q ↔ ∃ m, Seg next p xs m ∧ Seg next m ys q := by
  induction xs generalizing p with
  | nil => simp [Seg]
  | cons x xs ih =>
    simp only [List.cons_append,Seg,ih]
    constructor
    · rintro ⟨hp,hx,m,h,h'⟩
      exact ⟨m,⟨hp,hx,h⟩,h'⟩
    · rintro ⟨m,⟨hp,hx,h⟩,h'⟩
      exact ⟨hp,hx,m,h,h'⟩

theorem seg_congr {p q : Nat} {xs : List Nat} (h : ∀ x ∈ xs, next' x = next x)
    (hs : Seg next p xs q) : Seg next' p xs q := by
  induction xs generalizing p with
  | nil => exact hs
  | cons x xs ih =>
    obtain ⟨hp,hx,ht⟩ := hs
    refine ⟨hp,hx,?_⟩
    rw [h x (by simp)]
    exact ih (fun y hy => h y (by simp [hy])) ht

theorem seg_retarget {p q v x : Nat} {xs : List Nat} (hs : Seg next p (xs ++ [x]) q)
    (hn : ∀ y ∈ xs, next' y = next y) (hx : next' x = v) : Seg next' p (xs ++ [x]) v := by
  obtain ⟨m,h,rfl,hm,-⟩ := seg_append.mp hs
  exact seg_append.mpr ⟨m,seg_congr hn h,rfl,hm,hx⟩

theorem seg_last {p q x : Nat} {xs : List Nat} (hs : Seg next p (xs ++ [x]) q) : next x = q := by
  obtain ⟨m,-,-,-,h⟩ := seg_append.mp hs
  exact h

theorem seg_ne_zero {p q : Nat} {xs : List Nat} (hs : Seg next p xs q) : ∀ x ∈ xs, x ≠ 0 := by
  induction xs generalizing p with
  | nil => simp
  | cons y xs ih =>
    obtain ⟨-,hy,ht⟩ := hs
    intro x hx
    rcases List.mem_cons.mp hx with rfl | hx
    · exact hy
    · exact ih ht x hx

theorem seg_null_iff {p : Nat} {xs : List Nat} (hs : Seg next p xs 0) : p = 0 ↔ xs = [] := by
  cases xs with
  | nil => exact ⟨fun _ => rfl,fun _ => hs⟩
  | cons x xs =>
    obtain ⟨rfl,hx,-⟩ := hs
    simp [hx]

theorem seg_unique {p : Nat} {xs ys : List Nat} (hx : Seg next p xs 0) (hy : Seg next p ys 0) : xs = ys := by
  induction xs generalizing p ys with
  | nil => exact ((seg_null_iff hy).mp hx).symm
  | cons x xs ih =>
    obtain ⟨rfl,h0,ht⟩ := hx
    cases ys with
    | nil => exact absurd hy h0
    | cons y ys =>
      obtain ⟨rfl,-,hs⟩ := hy
      rw [ih ht hs]

end LinkedList
