import Mathlib
import Picolibc.Posix.Globs

namespace Fnmatch

def Item.isWild : Item → Bool
  | .any | .star _ | .set _ _ => true
  | .lit _ | .dead => false

def faces (ps : List Item) (string : List UInt8) : Bool := ps.head?.any Item.isWild && string.head? == some 46

def nextPart (string : List UInt8) : List UInt8 := (string.dropWhile (· ≠ 47)).tail

def Shielded (drop : Bool) : Bool → List Item → List UInt8 → Prop
  | _, [], _ => True
  | period, .lit c :: ps, string =>
    if c = 47 then ¬(period = true ∧ faces ps (nextPart string) = true) ∧ Shielded drop period ps (nextPart string)
    else Shielded drop period ps string
  | period, .star opened :: ps, string => Shielded drop (period && !(drop && opened)) ps string
  | period, _ :: ps, string => Shielded drop period ps string

def Guarded (drop : Bool) (f : Flags) (ps : List Item) (string : List UInt8) : Prop :=
  ¬(f.period = true ∧ faces ps string = true) ∧ (f.pathname = true → Shielded drop f.period ps string)

def Bracket.takes (signedChar : Bool) (x : UInt8) : Bracket → Bool
  | .ordinary => x == 91
  | .dead => false
  | .set negate elems _ => elems.any (Elem.hit signedChar x) != negate

def Bracket.rest (pattern : List UInt8) : Bracket → List UInt8
  | .ordinary => pattern
  | .dead => []
  | .set _ _ rest => rest

section

variable {f : Flags} {signedChar drop pathname period lead : Bool} {string pattern : List UInt8} {fuel : Nat} {ps : List Item}

def Keeps (drop pathname period lead : Bool) (ps : List Item) (string : List UInt8) : Prop :=
  ¬(period = true ∧ lead = true ∧ faces ps string = true) ∧ (pathname = true → Shielded drop period ps string)

end

end Fnmatch
