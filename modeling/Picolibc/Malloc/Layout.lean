import Mathlib
import Picolibc.Malloc.Ops
import Picolibc.Lib.LinkedList

namespace Malloc

inductive Loc where
  | none
  | list
  | bucket (b : Nat)
  deriving DecidableEq, Repr

structure Chunk where
  addr : Nat
  size : Nat
  bit : Bool
  loc : Loc
  deriving DecidableEq, Repr

def Tiles (w : Nat) : Nat → List Chunk → Nat → Prop
  | a, [], b => a = b
  | a, c :: cs, b => c.addr = a + w ∧ Tiles w (a + c.size) cs b

def listed (cs : List Chunk) : List Nat := (cs.filter (fun c => c.loc = .list)).map Chunk.addr

def bucketed (b : Nat) (cs : List Chunk) : List Nat :=
  (cs.filter (fun c => c.loc = .bucket b)).map Chunk.addr

section

variable {w a b : Nat} {cs xs ys pre post : List Chunk} {c : Chunk}

theorem tiles_append : Tiles w a (xs ++ ys) b ↔ ∃ m, Tiles w a xs m ∧ Tiles w m ys b := by
  induction xs generalizing a with
  | nil => simp [Tiles]
  | cons x xs ih =>
    simp only [List.cons_append,Tiles,ih]
    constructor
    · rintro ⟨hx,m,h,h'⟩
      exact ⟨m,⟨hx,h⟩,h'⟩
    · rintro ⟨m,⟨hx,h⟩,h'⟩
      exact ⟨hx,m,h,h'⟩

theorem tiles_split : Tiles w a (pre ++ c :: post) b ↔
    ∃ m, Tiles w a pre m ∧ c.addr = m + w ∧ Tiles w (m + c.size) post b := by
  simp only [tiles_append,Tiles]

theorem tiles_le (h : Tiles w a cs b) : a ≤ b := by
  induction cs generalizing a with
  | nil => exact h.le
  | cons c cs ih =>
    have := ih h.2
    omega

theorem tiles_bounds (h : Tiles w a cs b) : ∀ c ∈ cs, a + w ≤ c.addr ∧ c.addr + c.size ≤ b + w := by
  induction cs generalizing a with
  | nil => simp
  | cons d cs ih =>
    intro c hc
    have hle := tiles_le h.2
    have hd := h.1
    rcases List.mem_cons.mp hc with rfl | hc
    · omega
    · have := ih h.2 c hc
      omega

theorem tiles_pairwise (h : Tiles w a cs b) :
    cs.Pairwise (fun c d => c.addr + c.size ≤ d.addr) := by
  induction cs generalizing a with
  | nil => exact .nil
  | cons c cs ih =>
    refine .cons ?_ (ih h.2)
    intro d hd
    have := tiles_bounds h.2 d hd
    have := h.1
    omega

theorem tiles_aligned {k : Nat} (h : Tiles w a cs b) (ha : (a + w) % k = 0)
    (hs : ∀ c ∈ cs, c.size % k = 0) : (∀ c ∈ cs, c.addr % k = 0) ∧ (b + w) % k = 0 := by
  induction cs generalizing a with
  | nil =>
    obtain rfl : a = b := h
    exact ⟨by simp,ha⟩
  | cons c cs ih =>
    have hc : c.size % k = 0 := hs c (by simp)
    have hn : (a + c.size + w) % k = 0 := by
      rw [show a + c.size + w = (a + w) + c.size by omega,Nat.add_mod,ha,hc]
      simp
    obtain ⟨hall,hb⟩ := ih h.2 hn (fun d hd => hs d (by simp [hd]))
    refine ⟨?_,hb⟩
    intro d hd
    rcases List.mem_cons.mp hd with rfl | hd
    · rw [h.1]; exact ha
    · exact hall d hd

@[simp] theorem listed_nil : listed [] = [] := rfl

@[simp] theorem listed_append : listed (xs ++ ys) = listed xs ++ listed ys := by
  simp [listed]

theorem listed_cons : listed (c :: cs) = if c.loc = .list then c.addr :: listed cs else listed cs := by
  by_cases h : c.loc = .list <;> simp [listed,h]

@[simp] theorem bucketed_append (k : Nat) : bucketed k (xs ++ ys) = bucketed k xs ++ bucketed k ys := by
  simp [bucketed]

theorem bucketed_cons (k : Nat) :
    bucketed k (c :: cs) = if c.loc = .bucket k then c.addr :: bucketed k cs else bucketed k cs := by
  by_cases h : c.loc = .bucket k <;> simp [bucketed,h]

theorem mem_listed {x : Nat} : x ∈ listed cs ↔ ∃ c ∈ cs, c.loc = .list ∧ c.addr = x := by
  simp [listed,and_assoc]

theorem mem_bucketed {x k : Nat} : x ∈ bucketed k cs ↔ ∃ c ∈ cs, c.loc = .bucket k ∧ c.addr = x := by
  simp [bucketed,and_assoc]

end

end Malloc
