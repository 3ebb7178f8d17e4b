import Mathlib

namespace Blocks

variable {α : Type}

def swap (l : List α) (i j : Nat) : List α :=
  match l[i]?, l[j]? with
  | some a, some b => (l.set i b).set j a
  | _, _ => l

def reverseLoop (base num : Nat) : Nat → Nat → List α → List α
  | 0, _, l => l
  | k + 1, i, l => reverseLoop base num k (i + 1) (swap l (base + i) (base + (num - i - 1)))

def reverseSpan (l : List α) (base num : Nat) : List α := reverseLoop base num (num >>> 1) 0 l

def exchange (l : List α) (base len1 len2 : Nat) : List α :=
  reverseSpan (reverseSpan (reverseSpan l base len1) base (len1 + len2)) base len2

theorem swap_ends (pre mid post : List α) (a b : α) :
    swap (pre ++ (a :: mid ++ b :: post)) pre.length (pre.length + (mid.length + 1)) =
      pre ++ (b :: mid ++ a :: post) := by
  have h1 : (pre ++ (a :: mid ++ b :: post))[pre.length]? = some a := by simp
  have h2 : (pre ++ (a :: mid ++ b :: post))[pre.length + (mid.length + 1)]? = some b := by
    rw [List.getElem?_append_right (by omega),Nat.add_sub_cancel_left]
    simp
  unfold swap
  rw [h1,h2]
  simp

theorem reverseLoop_eq (base num k i : Nat) (pre mid post : List α) (hp : pre.length = base + i)
    (hm : mid.length + 2 * i = num) (hk : mid.length / 2 = k) :
    reverseLoop base num k i (pre ++ (mid ++ post)) = pre ++ (mid.reverse ++ post) := by
  induction k generalizing i pre mid post with
  | zero =>
    have hlen : mid.length ≤ 1 := by omega
    rw [reverseLoop]
    match mid, hlen with
    | [], _ => rfl
    | [a], _ => rfl
  | succ k ih =>
    obtain ⟨a,t,rfl⟩ := List.exists_cons_of_ne_nil (show mid ≠ [] by rintro rfl; simp at hk)
    obtain ⟨m,b,rfl⟩ := List.eq_nil_or_concat t |>.resolve_left (by rintro rfl; simp at hk)
    simp only [List.concat_eq_append,List.length_cons,List.length_append,List.length_nil] at hm hk
    have hswap := swap_ends pre m post a b
    rw [reverseLoop,show base + (num - i - 1) = pre.length + (m.length + 1) by omega,← hp]
    simp only [List.concat_eq_append,List.cons_append,List.append_assoc,List.nil_append] at hswap ⊢
    rw [hswap]
    have hin := ih (i + 1) (pre ++ [b]) m (a :: post) (by simp; omega) (by omega) (by omega)
    simp only [List.append_assoc,List.cons_append,List.nil_append] at hin
    rw [hin]
    simp

theorem reverseSpan_eq (pre mid post : List α) :
    reverseSpan (pre ++ (mid ++ post)) pre.length mid.length = pre ++ (mid.reverse ++ post) :=
  reverseLoop_eq _ _ _ 0 pre mid post rfl (by omega) (by rw [Nat.shiftRight_eq_div_pow])

theorem exchange_eq (pre xs ys post : List α) :
    exchange (pre ++ (xs ++ (ys ++ post))) pre.length xs.length ys.length = pre ++ (ys ++ (xs ++ post)) := by
  have h2 := reverseSpan_eq pre (xs.reverse ++ ys) post
  have h3 := reverseSpan_eq pre ys.reverse (xs ++ post)
  simp only [List.length_append,List.length_reverse,List.append_assoc,List.reverse_append,
    List.reverse_reverse] at h2 h3
  rw [exchange,reverseSpan_eq,h2,h3]

end Blocks
