import Mathlib
import Picolibc.Stdio.Bufio

namespace Stdio

open ByteMemory

variable {D : Type} (cfg : Build) (cb : Callbacks D)

namespace Bufio

def setErr (f : Bufio D) : Bufio D := { f with flags := { f.flags with serr := true } }

def setEof (f : Bufio D) : Bufio D := { f with flags := { f.flags with seof := true } }

def orErr (f : Bufio D) : Bufio D := { f with flags := f.flags.orErr }

def endOrErr (f : Bufio D) (rv : Int) : Bufio D := if rv = fdevErr then f.setErr else f.setEof

def getc (f : Bufio D) : Bufio D × Int :=
  if f.flags.srd = false then (f.setErr,eof) else
  if f.unget ≠ 0 then ({ f with unget := 0 },(f.unget - 1).toUInt8.toNat) else
  let r := f.get cb
  if r.2 < 0 then (r.1.endOrErr r.2,eof) else (r.1,r.2 % 256)

def putc (f : Bufio D) (c : UInt8) : Bufio D × Int :=
  if f.flags.swr = false then (f,eof) else
  let r := f.put cb c
  if r.2 < 0 then (r.1.setErr,eof) else (r.1,c.toNat)

def ungetc (f : Bufio D) (c : UInt8) : Bufio D × Int :=
  if f.flags.srd = false then (f,eof) else
  if f.unget ≠ 0 then (f,eof) else
  ({ f with unget := c.toUInt16 + 1, flags := { f.flags with seof := false } },c.toNat)

def fflush (f : Bufio D) : Bufio D × Int :=
  let r := f.flushLocked cb
  ({ r.1 with unget := 0 },r.2)

def fseek (f : Bufio D) (offset : Int) (whence : Whence) : Bufio D × Int :=
  if f.flags.sext then
    let r := f.seek cb offset whence
    if 0 ≤ r.2 then ({ r.1 with flags := { r.1.flags with seof := false }, unget := 0 },0)
    else (r.1,-1)
  else (f,-1)

def ftell (f : Bufio D) : Bufio D × Int :=
  if f.flags.sext then
    let r := f.seek cb 0 .cur
    (r.1,if r.1.unget ≠ 0 then r.2 - 1 else r.2)
  else (f,-1)

def mulOverflow (size nmemb : Nat) : Bool := decide (2 ^ cfg.sizeBits ≤ size * nmemb)

def writeBuffered : Nat → Bufio D → Mem → Nat → Nat → Bufio D × Nat
  | 0, f, _, at', _ => (f,at')
  | fuel + 1, f, data, at', bytes =>
    if bytes = 0 then (f,at') else
    let room := f.size - f.len
    let r := if room = 0 then f.flushLocked cb else (f,0)
    if r.2 ≠ 0 then (r.1.orErr,at') else
    let thisTime := min room bytes
    writeBuffered fuel
      { r.1 with
        buf := splice r.1.buf r.1.len (slice data at' thisTime)
        len := r.1.len + thisTime }
      data (at' + thisTime) (bytes - thisTime)

def writeDirect : Nat → Bufio D → Mem → Nat → Nat → Bufio D × Nat
  | 0, f, _, at', _ => (f,at')
  | fuel + 1, f, data, at', bytes =>
    if bytes = 0 then (f,at') else
    match cb.write f.dev (slice data at' bytes) with
    | (d,none) => ({ f with dev := d }.orErr,at')
    | (d,some n) =>
      if n.val = 0 then ({ f with dev := d }.orErr,at') else
      writeDirect fuel { f with dev := d, pos := f.pos + n.val } data (at' + n.val) (bytes - n.val)

def fwriteFast (f : Bufio D) (data : Mem) (bytes : Nat) : Bufio D × Nat :=
  let f := (f.setdirLocked cb .wr).1
  if bytes < f.size then writeBuffered cb (2 * bytes) f data 0 bytes else
  let r := f.flushLocked cb
  if 0 ≤ r.2 then writeDirect cb bytes r.1 data 0 bytes else (r.1,0)

def putItem : Nat → Bufio D → Mem → Nat → Bufio D × Bool
  | 0, f, _, _ => (f,true)
  | n + 1, f, data, at' =>
    let r := f.put cb (data at')
    if r.2 < 0 then (r.1,false) else putItem n r.1 data (at' + 1)

def putItems (size : Nat) : Nat → Bufio D → Mem → Nat → Bufio D × Nat
  | 0, f, _, i => (f,i)
  | n + 1, f, data, i =>
    let r := putItem cb size f data (i * size)
    if r.2 then putItems size n r.1 data (i + 1) else (r.1,i)

def fwrite (f : Bufio D) (data : Mem) (size nmemb : Nat) : Bufio D × Nat :=
  if f.flags.swr = false ∨ size = 0 then (f,0) else
  if cfg.fastBufio = true ∧ f.flags.sbuf = true ∧ f.bflags.blbf = false ∧
      mulOverflow cfg size nmemb = false ∧ 0 < size * nmemb then
    let r := f.fwriteFast cb data (size * nmemb)
    (r.1,r.2 / size)
  else putItems cb size nmemb f data 0

def readBlock : Nat → Bufio D → Nat → List UInt8 → Bufio D × List UInt8
  | 0, f, _, got => (f,got)
  | fuel + 1, f, bytes, got =>
    if bytes = 0 then (f,got) else
    if f.len - f.off ≠ 0 then
      let thisTime := min bytes (f.len - f.off)
      readBlock fuel { f with off := f.off + thisTime } (bytes - thisTime)
        (got ++ slice f.buf f.off thisTime)
    else if bytes < f.size then
      let r := f.fillLocked cb
      if r.2 ≠ 0 then (r.1.endOrErr r.2,got) else readBlock fuel r.1 bytes got
    else
      match cb.read f.dev bytes with
      | (d,none) => ({ f with len := 0, off := 0, dev := d }.setErr,got)
      | (d,some l) =>
        if l.val.length = 0 then ({ f with len := 0, off := 0, dev := d }.setEof,got) else
        readBlock fuel { f with len := 0, off := 0, dev := d, pos := f.pos + l.val.length }
          (bytes - l.val.length) (got ++ l.val)

def freadFast (f : Bufio D) (bytes : Nat) : Bufio D × List UInt8 :=
  let f := (f.setdirLocked cb .rd).1
  if f.unget ≠ 0 then
    readBlock cb (2 * bytes) { f with unget := 0 } (bytes - 1) [(f.unget - 1).toUInt8]
  else readBlock cb (2 * bytes) f bytes []

def getItem : Nat → Bufio D → List UInt8 → Bufio D × List UInt8 × Bool
  | 0, f, got => (f,got,true)
  | n + 1, f, got =>
    let r := f.getc cb
    if r.2 = eof then (r.1,got,false) else getItem n r.1 (got ++ [UInt8.ofNat r.2.toNat])

def getItems (size : Nat) : Nat → Bufio D → List UInt8 → Nat → Bufio D × List UInt8 × Nat
  | 0, f, got, i => (f,got,i)
  | n + 1, f, got, i =>
    let r := getItem cb size f got
    if r.2.2 then getItems size n r.1 r.2.1 (i + 1) else (r.1,r.2.1,i)

def blockRead (f : Bufio D) (size nmemb : Nat) : Prop :=
  cfg.fastBufio = true ∧ f.flags.sbuf = true ∧ mulOverflow cfg size nmemb = false ∧
    0 < size * nmemb

instance (f : Bufio D) (size nmemb : Nat) : Decidable (f.blockRead cfg size nmemb) :=
  inferInstanceAs (Decidable (_ ∧ _ ∧ _ ∧ _))

def fread (f : Bufio D) (size nmemb : Nat) : Bufio D × List UInt8 × Nat :=
  if f.flags.srd = false ∨ size = 0 then (f,[],0) else
  if f.blockRead cfg size nmemb then
    let r := f.freadFast cb (size * nmemb)
    (r.1,r.2,r.2.length / size)
  else getItems cb size nmemb f [] 0

def fclose (f : Bufio D) : Bufio D × Int :=
  let f := if cfg.stdioLocking then (f.fflush cb).1 else f
  if f.flags.sclose then
    match f.closeFn with
    | .bufioClose => f.close cb
    | .bufioCloseNf => f.closeNf cb
  else (f,0)

end Bufio

inductive Call where
  | getc
  | putc (c : UInt8)
  | ungetc (c : UInt8)
  | fflush
  | ftell
  | fseek (offset : Int) (whence : Whence)
  | fwrite (data : Mem) (size nmemb : Nat)
  | fread (size nmemb : Nat)
  | fclose

def Call.exec : Call → Bufio D → Bufio D × Int
  | .getc, f => f.getc cb
  | .putc c, f => f.putc cb c
  | .ungetc c, f => f.ungetc c
  | .fflush, f => f.fflush cb
  | .ftell, f => f.ftell cb
  | .fseek offset whence, f => f.fseek cb offset whence
  | .fwrite data size nmemb, f =>
    let r := f.fwrite cfg cb data size nmemb
    (r.1,r.2)
  | .fread size nmemb, f =>
    let r := f.fread cfg cb size nmemb
    (r.1,r.2.2)
  | .fclose, f => f.fclose cfg cb

end Stdio
