import Mathlib

namespace Ascii

def isdigit (c : UInt8) : Bool := 0x30 ≤ c && c ≤ 0x39

def toLower (c : UInt8) : UInt8 := c ||| 0x20

def charAt (s : List UInt8) (i : Nat) : UInt8 := s.getD i 0

theorem isdigit_iff {c : UInt8} : isdigit c = true ↔ 48 ≤ c.toNat ∧ c.toNat ≤ 57 := by
  rw [isdigit,Bool.and_eq_true,decide_eq_true_eq,decide_eq_true_eq,UInt8.le_iff_toNat_le,UInt8.le_iff_toNat_le]
  rfl

@[simp] theorem charAt_nil (i : Nat) : charAt [] i = 0 := rfl

@[simp] theorem charAt_cons_zero (b : UInt8) (s : List UInt8) : charAt (b :: s) 0 = b := by
  simp [charAt]

@[simp] theorem charAt_cons_one (a b : UInt8) (s : List UInt8) : charAt (a :: b :: s) 1 = b := by
  simp [charAt]

@[simp] theorem charAt_cons_two (a b c : UInt8) (s : List UInt8) : charAt (a :: b :: c :: s) 2 = c := by
  simp [charAt]

@[simp] theorem charAt_cons_three (a b c d : UInt8) (s : List UInt8) : charAt (a :: b :: c :: d :: s) 3 = d := by
  simp [charAt]

theorem charAt_succ (b : UInt8) (s : List UInt8) (i : Nat) : charAt (b :: s) (i + 1) = charAt s i := by
  simp [charAt]

theorem charAt_append (p s : List UInt8) : charAt (p ++ s) p.length = charAt s 0 := by
  rw [charAt,charAt,List.getD_append_right _ _ _ _ le_rfl,Nat.sub_self]

end Ascii
