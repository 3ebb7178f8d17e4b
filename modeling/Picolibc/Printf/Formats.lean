import Mathlib
import Picolibc.Printf.Vfprintf

namespace Printf

inductive Flag where
  | zero
  | plus
  | space
  | minus
  | alt
  | quote
  deriving DecidableEq, Repr

def Flag.char : Flag → Char
  | zero => '0'
  | plus => '+'
  | space => ' '
  | minus => '-'
  | alt => '#'
  | quote => '\''

inductive Len where
  | none
  | hh
  | h
  | l
  | ll
  | L
  | j
  | z
  | t
  deriving DecidableEq, Repr

def Len.chars : Len → List Char
  | none => []
  | hh => ['h','h']
  | h => ['h']
  | l => ['l']
  | ll => ['l','l']
  | L => ['L']
  | j => ['j']
  | z => ['z']
  | t => ['t']

inductive Letter where
  | c
  | s
  | d
  | i
  | u
  | o
  | x
  | X
  | p
  | e
  | E
  | f
  | F
  | g
  | G
  | a
  | A
  deriving DecidableEq, Repr

def Letter.char : Letter → Char
  | c => 'c'
  | s => 's'
  | d => 'd'
  | i => 'i'
  | u => 'u'
  | o => 'o'
  | x => 'x'
  | X => 'X'
  | p => 'p'
  | e => 'e'
  | E => 'E'
  | f => 'f'
  | F => 'F'
  | g => 'g'
  | G => 'G'
  | a => 'a'
  | A => 'A'

def Letter.floats : List Letter := [.e,.E,.f,.F,.g,.G,.a,.A]

inductive Width (N : Type) where
  | none
  | lit (w : ℕ+)
  | star (n : N)
  deriving DecidableEq, Repr

inductive Prec (N : Type) where
  | none
  | lit (ds : List (Fin 10))
  | star (n : N)
  deriving DecidableEq, Repr

structure Conv (N : Type) where
  num : N
  flags : List Flag
  width : Width N
  prec : Prec N
  len : Len
  letter : Letter
  plain : letter = .p → len = .none
  deriving DecidableEq

theorem bare_length (l : Letter) : l = .p → Len.none = .none := fun _ => rfl

inductive Piece (N : Type) where
  | lit (c : { c : Char // c ≠ '%' })
  | percent
  | conv (v : Conv N)

abbrev Number := ℕ+

def digitChar (d : Nat) : Char := Char.ofNat (d + '0'.toNat)

def numeral (n : ℕ+) : List Char := (Nat.digits 10 n).reverse.map digitChar

class Numbering (N : Type) where
  chars : N → List Char

instance : Numbering Unit where
  chars _ := []

instance : Numbering Number where
  chars n := numeral n ++ ['$']

section

variable {N : Type} [Numbering N]

def Width.chars : Width N → List Char
  | none => []
  | lit w => numeral w
  | star n => '*' :: Numbering.chars n

def Prec.chars : Prec N → List Char
  | none => []
  | lit ds => '.' :: (ds.map Fin.val).map digitChar
  | star n => '.' :: '*' :: Numbering.chars n

def Conv.chars (v : Conv N) : List Char :=
  Numbering.chars v.num ++ (v.flags.map Flag.char ++ (v.width.chars ++ (v.prec.chars ++ (v.len.chars ++ [v.letter.char]))))

def Piece.chars : Piece N → List Char
  | lit c => [c.1]
  | percent => ['%','%']
  | conv v => '%' :: v.chars

def render (fmt : List (Piece N)) : List Char := fmt.flatMap Piece.chars

end

end Printf
