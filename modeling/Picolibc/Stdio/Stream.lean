import Mathlib
import Picolibc.Lib.ByteSlices

namespace Stdio

open ByteMemory

inductive Dir where
  | idle
  | rd
  | wr
  deriving DecidableEq, Repr

inductive Whence where
  | set
  | cur
  | fin
  deriving DecidableEq, Repr

structure Flags where
  srd : Bool
  swr : Bool
  serr : Bool
  seof : Bool
  sclose : Bool
  sext : Bool
  sbuf : Bool
  swide : Bool
  deriving DecidableEq, Repr

def Flags.orErr (_ : Flags) : Flags := ⟨true,true,true,true,true,true,true,true⟩

structure BFlags where
  ball : Bool
  blbf : Bool
  bfall : Bool
  deriving DecidableEq, Repr

inductive CloseFn where
  | bufioClose
  | bufioCloseNf
  deriving DecidableEq, Repr

structure Callbacks (D : Type) where
  read : D → (n : Nat) → D × Option { l : List UInt8 // l.length ≤ n }
  write : D → (l : List UInt8) → D × Option { n : Nat // n ≤ l.length }
  lseek : Option (D → Int → Whence → D × Int)
  close : Option (D → D × Int)

structure Bufio (D : Type) where
  unget : UInt16
  flags : Flags
  dir : Dir
  bflags : BFlags
  closeFn : CloseFn
  pos : Int
  buf : Mem
  size : Nat
  len : Nat
  off : Nat
  dev : D

structure Build where
  fastBufio : Bool
  stdioLocking : Bool
  sizeBits : Nat
  deriving DecidableEq, Repr

def eof : Int := -1

def fdevErr : Int := -1

def fdevEof : Int := -2

def setupFlags (rd wr : Bool) : Flags :=
  { srd := rd, swr := wr, serr := false, seof := false, sclose := true, sext := true, sbuf := true,
    swide := false }

def fdevSetupBufio {D : Type} (dev : D) (buf : Mem) (size : Nat) (rd wr : Bool) (bflags : BFlags) :
    Bufio D where
  unget := 0
  flags := setupFlags rd wr
  dir := .idle
  bflags := bflags
  closeFn := if bflags.ball || bflags.bfall then .bufioClose else .bufioCloseNf
  pos := 0
  buf := buf
  size := size
  len := 0
  off := 0
  dev := dev

end Stdio
