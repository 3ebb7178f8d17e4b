import Mathlib
import Picolibc.Stdio.Stream

namespace Stdio

open ByteMemory

variable {D : Type} (cb : Callbacks D)

def bufioLseek (d : D) (offset : Int) (whence : Whence) : D × Int :=
  match cb.lseek with
  | some lseek => lseek d offset whence
  | none => (d,fdevErr)

def bufioSeekable : Bool := cb.lseek.isSome

def bufioClose (d : D) : D × Int :=
  match cb.close with
  | some close => close d
  | none => (d,0)

namespace Bufio

def flushDropped (bf : Bufio D) (d : D) : Bufio D × Int := ({ bf with dev := d, len := 0 },fdevErr)

def flushWrite : Nat → Bufio D → Nat → Bufio D × Int
  | 0, bf, _ => (bf,0)
  | fuel + 1, bf, start =>
    if bf.len = 0 then (bf,0) else
    match cb.write bf.dev (slice bf.buf start bf.len) with
    | (d,none) => bf.flushDropped d
    | (d,some this) =>
      if this.val = 0 then bf.flushDropped d else
      flushWrite fuel { bf with dev := d, pos := bf.pos + this.val, len := bf.len - this.val }
        (start + this.val)

def flushRead (bf : Bufio D) : Bufio D :=
  let backup : Int := bf.len - bf.off
  if backup ≠ 0 then
    { bf with
      pos := bf.pos - backup
      dev := (bufioLseek cb bf.dev (bf.pos - backup) .set).1
      len := 0
      off := 0 }
  else { bf with len := 0, off := 0 }

def flushLocked (bf : Bufio D) : Bufio D × Int :=
  match bf.dir with
  | .wr => flushWrite cb bf.len bf 0
  | .rd => (bf.flushRead cb,0)
  | .idle => (bf,0)

def filled (bf : Bufio D) (d : D) (l : List UInt8) : Bufio D :=
  { bf with
    off := 0
    buf := splice bf.buf 0 l
    len := l.length
    pos := bf.pos + l.length
    dev := d }

def fillLocked (bf : Bufio D) : Bufio D × Int :=
  match cb.read bf.dev bf.size with
  | (d,none) => ({ bf with off := 0, len := 0, dev := d },fdevErr)
  | (d,some l) =>
    if l.val.length = 0 then ({ bf with off := 0, len := 0, dev := d },fdevEof) else
    (bf.filled d l.val,0)

def setdirLocked (bf : Bufio D) (dir : Dir) : Bufio D × Int :=
  if bf.dir ≠ dir then
    let r := bf.flushLocked cb
    ({ r.1 with dir := dir },r.2)
  else (bf,0)

def store (bf : Bufio D) (c : UInt8) : Bufio D :=
  { bf with buf := Function.update bf.buf bf.len c, len := bf.len + 1 }

def put (bf : Bufio D) (c : UInt8) : Bufio D × Int :=
  let r := bf.setdirLocked cb .wr
  if r.2 < 0 then (r.1,fdevErr) else
  let bf := r.1.store c
  if bf.size ≤ bf.len ∨ (c = 10 ∧ bf.bflags.blbf = true) then
    let r := bf.flushLocked cb
    (r.1,if r.2 < 0 then fdevErr else c.toNat)
  else (bf,c.toNat)

def take (bf : Bufio D) : Bufio D × Int := ({ bf with off := bf.off + 1 },(bf.buf bf.off).toNat)

def get (bf : Bufio D) : Bufio D × Int :=
  let r := bf.setdirLocked cb .rd
  if r.2 < 0 then (r.1,fdevErr) else
  if r.1.len ≤ r.1.off then
    let r := r.1.fillLocked cb
    if r.2 ≠ 0 then r else r.1.take
  else r.1.take

def lseekTo (bf : Bufio D) (offset : Int) (whence : Whence) : Bufio D × Int :=
  let r := bufioLseek cb bf.dev offset whence
  ({ bf with dev := r.1, pos := if 0 ≤ r.2 then r.2 else bf.pos, len := 0, off := 0 },r.2)

def seekSet (bf : Bufio D) (offset : Int) : Bufio D × Int :=
  let bufPos := bf.pos - bf.len
  if bufPos ≤ offset ∧ offset ≤ bufPos + bf.len then
    ({ bf with off := (offset - bufPos).toNat },offset)
  else bf.lseekTo cb offset .set

def seek (bf : Bufio D) (offset : Int) (whence : Whence) : Bufio D × Int :=
  if bufioSeekable cb = false then (bf,fdevErr) else
  let r := bf.setdirLocked cb .rd
  if r.2 < 0 then (r.1,fdevErr) else
  match whence with
  | .cur => r.1.seekSet cb (offset + (r.1.pos - r.1.len + r.1.off))
  | .set => r.1.seekSet cb offset
  | .fin => r.1.lseekTo cb offset .fin

def close (bf : Bufio D) : Bufio D × Int :=
  let r := bf.flushLocked cb
  if r.1.bflags.bfall then
    let q := Stdio.bufioClose cb r.1.dev
    ({ r.1 with dev := q.1 },q.2)
  else r

def closeNf (bf : Bufio D) : Bufio D × Int := bf.flushLocked cb

end Bufio

end Stdio
