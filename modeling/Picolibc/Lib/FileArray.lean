import Mathlib

namespace FileArray

variable {α : Type} [Zero α]

def put (xs : List α) (p : Nat) (y : α) : List α :=
  if p < xs.length then xs.set p y else xs ++ List.replicate (p - xs.length) 0 ++ [y]

def overwrite (xs : List α) (p : Nat) : List α → List α
  | [] => xs
  | y :: ys => overwrite (put xs p y) (p + 1) ys

@[simp] theorem overwrite_nil (xs : List α) (p : Nat) : overwrite xs p [] = xs := rfl

theorem overwrite_append (xs : List α) (p : Nat) (ys zs : List α) :
    overwrite xs p (ys ++ zs) = overwrite (overwrite xs p ys) (p + ys.length) zs := by
  induction ys generalizing xs p with
  | nil => rfl
  | cons y ys ih =>
    rw [List.cons_append,overwrite,overwrite,ih,List.length_cons,Nat.add_assoc,Nat.add_comm 1]

theorem overwrite_snoc (xs : List α) (p : Nat) (ys : List α) (y : α) :
    overwrite xs p (ys ++ [y]) = put (overwrite xs p ys) (p + ys.length) y :=
  overwrite_append xs p ys [y]

theorem overwrite_end (xs ys : List α) : overwrite xs xs.length ys = xs ++ ys := by
  induction ys generalizing xs with
  | nil => simp
  | cons y ys ih =>
    have hput : put xs xs.length y = xs ++ [y] := by simp [put]
    have hnext := ih (xs ++ [y])
    rw [List.length_append,List.length_singleton] at hnext
    rw [overwrite,hput,hnext,List.append_assoc,List.singleton_append]

theorem overwrite_length (xs ys : List α) : (overwrite xs xs.length ys).length = xs.length + ys.length := by
  rw [overwrite_end,List.length_append]

end FileArray
