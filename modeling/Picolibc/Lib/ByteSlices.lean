import Mathlib
import Picolibc.Lib.ByteMemory

namespace ByteMemory

def slice (m : Mem) (a n : Nat) : List UInt8 := (List.range n).map (fun i => m (a + i))

def splice (m : Mem) (a : Nat) (l : List UInt8) : Mem := fun x =>
  if a ≤ x ∧ x < a + l.length then l.getD (x - a) 0 else m x

theorem splice_outside {m : Mem} {a x : Nat} {l : List UInt8} (h : ¬(a ≤ x ∧ x < a + l.length)) : splice m a l x = m x :=
  if_neg h

@[simp] theorem slice_length (m : Mem) (a n : Nat) : (slice m a n).length = n := by
  simp [slice]

@[simp] theorem slice_zero (m : Mem) (a : Nat) : slice m a 0 = [] := rfl

theorem slice_getElem? {m : Mem} {a n i : Nat} (h : i < n) : (slice m a n)[i]? = some (m (a + i)) := by
  simp [slice,h]

theorem slice_congr {m m' : Mem} {a b n : Nat} (h : ∀ i, i < n → m' (b + i) = m (a + i)) :
    slice m' b n = slice m a n := by
  apply List.map_congr_left
  intro i hi
  exact h i (List.mem_range.mp hi)

theorem slice_add (m : Mem) (a n k : Nat) : slice m a (n + k) = slice m a n ++ slice m (a + n) k := by
  simp [slice,List.range_add,Function.comp_def,Nat.add_assoc]

theorem slice_succ (m : Mem) (a n : Nat) : slice m a (n + 1) = slice m a n ++ [m (a + n)] := by
  rw [slice_add]
  rfl

theorem slice_take {m : Mem} {a n k : Nat} (h : k ≤ n) : (slice m a n).take k = slice m a k := by
  obtain ⟨j,rfl⟩ := Nat.exists_eq_add_of_le h
  rw [slice_add,List.take_left' (slice_length m a k)]

theorem slice_drop {m : Mem} {a n k : Nat} (h : k ≤ n) :
    (slice m a n).drop k = slice m (a + k) (n - k) := by
  obtain ⟨j,rfl⟩ := Nat.exists_eq_add_of_le h
  rw [slice_add,List.drop_left' (slice_length m a k),Nat.add_sub_cancel_left]

theorem slice_splice (m : Mem) (a : Nat) (l : List UInt8) : slice (splice m a l) a l.length = l := by
  apply List.ext_getElem?
  intro i
  by_cases h : i < l.length
  · rw [slice_getElem? h,splice,if_pos ⟨by omega,by omega⟩,Nat.add_sub_cancel_left]
    simp [h]
  · rw [List.getElem?_eq_none (by simpa using h),List.getElem?_eq_none (by simpa using h)]

theorem slice_splice_below (m : Mem) (a : Nat) (l : List UInt8) : slice (splice m a l) 0 a = slice m 0 a := by
  apply slice_congr
  intro i hi
  rw [splice,if_neg (by omega)]

theorem slice_splice_append (m : Mem) (a : Nat) (l : List UInt8) :
    slice (splice m a l) 0 (a + l.length) = slice m 0 a ++ l := by
  rw [slice_add,slice_splice_below,Nat.zero_add,slice_splice]

theorem slice_update_succ (m : Mem) (n : Nat) (c : UInt8) :
    slice (Function.update m n c) 0 (n + 1) = slice m 0 n ++ [c] := by
  have hb : slice (Function.update m n c) 0 n = slice m 0 n := by
    apply slice_congr
    intro i hi
    have hne : 0 + i ≠ n := by omega
    rw [Function.update_of_ne hne]
  rw [slice_succ,hb,Nat.zero_add,Function.update_self]

end ByteMemory
