import Mathlib

namespace Scanf

structure Input where
  unget : Option UInt8
  rest : List UInt8
  broken : Bool
  seof : Bool
  serr : Bool
  len : Int
  deriving DecidableEq, Repr

namespace Input

def ofString (str : List UInt8) : Input := ⟨none,str,false,false,false,0⟩

def getc (s : Input) : Option UInt8 × Input :=
  match s.unget with
  | some c => (some c,{ s with unget := none })
  | none =>
    match s.rest with
    | c :: rest => (some c,{ s with rest := rest })
    | [] => (none,if s.broken then { s with serr := true } else { s with seof := true })

def ungetc (c : Option UInt8) (s : Input) : Input :=
  match c, s.unget with
  | some c, none => { s with unget := some c, seof := false }
  | _, _ => s

def scanfGetc (s : Input) : Option UInt8 × Input :=
  match s.getc with
  | (some c,s) => (some c,{ s with len := s.len + 1 })
  | (none,s) => (none,s)

def scanfUngetc (c : Option UInt8) (s : Input) : Input :=
  ungetc c (if c.isSome then { s with len := s.len - 1 } else s)

def unread (s : Input) : List UInt8 := s.unget.toList ++ s.rest

variable {s : Input}

theorem scanfGetc_nil (h : s.unread = []) :
    s.scanfGetc.1 = none ∧ s.scanfGetc.2.unread = [] ∧ s.scanfGetc.2.len = s.len := by
  obtain ⟨unget,rest,broken,seof,serr,len⟩ := s
  obtain ⟨hunget,hrest⟩ := List.append_eq_nil_iff.mp h
  obtain rfl : unget = none := by simpa using hunget
  obtain rfl : rest = [] := hrest
  cases broken <;> exact ⟨rfl,rfl,rfl⟩

theorem scanfGetc_cons {c : UInt8} {l : List UInt8} (h : s.unread = c :: l) :
    s.scanfGetc.1 = some c ∧ s.scanfGetc.2.unread = l ∧ s.scanfGetc.2.len = s.len + 1 ∧
      s.scanfGetc.2.unget = none := by
  obtain ⟨unget,rest,broken,seof,serr,len⟩ := s
  cases unget with
  | some d =>
    obtain ⟨rfl,rfl⟩ := List.cons.inj h
    exact ⟨rfl,rfl,rfl,rfl⟩
  | none =>
    obtain rfl : rest = c :: l := h
    exact ⟨rfl,rfl,rfl,rfl⟩

theorem scanfUngetc_some (c : UInt8) (h : s.unget = none) :
    (s.scanfUngetc (some c)).unread = c :: s.unread ∧ (s.scanfUngetc (some c)).len = s.len - 1 := by
  obtain ⟨unget,rest,broken,seof,serr,len⟩ := s
  obtain rfl : unget = none := h
  exact ⟨rfl,rfl⟩

theorem scanfGetc_lt {c : UInt8} (h : s.scanfGetc.1 = some c) :
    s.scanfGetc.2.unread.length < s.unread.length := by
  cases hs : s.unread with
  | nil => simp [(scanfGetc_nil hs).1] at h
  | cons d l => simp [(scanfGetc_cons hs).2.1]

end Input

end Scanf
