import Mathlib

namespace LockTrace

inductive LockEvent (ι : Type) where
  | acquire (l : ι)
  | release (l : ι)
  deriving DecidableEq, Repr

variable {ι : Type} [DecidableEq ι]

def step (held : Finset ι) : LockEvent ι → Option (Finset ι)
  | .acquire l => if l ∈ held then none else some (insert l held)
  | .release l => if l ∈ held then some (held.erase l) else none

def play : Finset ι → List (LockEvent ι) → Option (Finset ι)
  | held, [] => some held
  | held, e :: es => (step held e).bind (fun held => play held es)

def Disciplined (es : List (LockEvent ι)) : Prop := play ∅ es = some ∅

def bracket (l : ι) (es : List (LockEvent ι)) : List (LockEvent ι) := .acquire l :: es ++ [.release l]

theorem play_append (held : Finset ι) (as bs : List (LockEvent ι)) :
    play held (as ++ bs) = (play held as).bind (fun held => play held bs) := by
  induction as generalizing held with
  | nil => rfl
  | cons a as ih =>
    rw [List.cons_append,play,play,Option.bind_assoc]
    congr 1
    funext held
    exact ih held

theorem disciplined_nil : Disciplined ([] : List (LockEvent ι)) := rfl

theorem disciplined_append {as bs : List (LockEvent ι)} (ha : Disciplined as) (hb : Disciplined bs) :
    Disciplined (as ++ bs) := by
  unfold Disciplined at *
  rw [play_append,ha]
  exact hb

theorem disciplined_bracket (l : ι) : Disciplined (bracket l []) := by
  simp [Disciplined,bracket,play,step]

theorem disciplined_brackets {bs : List (LockEvent ι)} (ls : List ι) (hb : Disciplined bs) :
    Disciplined (ls.flatMap (fun l => bracket l []) ++ bs) := by
  induction ls with
  | nil => exact hb
  | cons l ls ih =>
    rw [List.flatMap_cons,List.append_assoc]
    exact disciplined_append (disciplined_bracket l) ih

theorem nested_undisciplined {as : List (LockEvent ι)} (ha : Disciplined as) (l : ι) (bs cs : List (LockEvent ι)) :
    ¬Disciplined (as ++ (.acquire l :: (bracket l bs ++ cs))) := by
  unfold Disciplined at *
  rw [play_append,ha]
  simp [bracket,play,step]

end LockTrace
