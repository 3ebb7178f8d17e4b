import Mathlib
import Picolibc.Iconv.Codes
import Picolibc.Lib.ByteSlices

namespace Iconv

open Multibyte ByteMemory

inductive Mode where
  | default
  | ignore
  | discard
  | translit
  deriving DecidableEq, Repr

inductive Errno where
  | einval
  | e2big
  | eilseq
  deriving DecidableEq, Repr

structure Descriptor where
  inMbtowc : Mbtowc
  outWctomb : Wctomb
  inState : Mbstate
  outState : Mbstate
  bufLen : Nat
  bufOff : Nat
  mode : Mode
  buf : List UInt8

def mbLenMax : Nat := 8

def isoNames : List String :=
  ["ISO-8859-1","ISO-8859-2","ISO-8859-3","ISO-8859-4","ISO-8859-5","ISO-8859-6","ISO-8859-7","ISO-8859-8",
    "ISO-8859-9","ISO-8859-10","ISO-8859-11","ISO-8859-13","ISO-8859-14","ISO-8859-15","ISO-8859-16"]

def cpNames : List String :=
  ["CP437","CP720","CP737","CP775","CP850","CP852","CP855","CP857","CP858","CP862","CP866","CP874","CP1125",
    "CP1250","CP1251","CP1252","CP1253","CP1254","CP1255","CP1256","CP1257","CP1258","KOI8-R","KOI8-U",
    "GEORGIAN-PS","PT154","KOI8-T"]

def charsetNames (host : Host) : List (LocaleId × String) :=
  [(.utf8,"UTF-8")] ++
  ((if host.hasUcs then [(.ucs2,"UCS-2"),(.ucs2le,"UCS-2LE"),(.ucs2be,"UCS-2BE"),(.ucs4,"UCS-4"),
    (.ucs4le,"UCS-4LE"),(.ucs4be,"UCS-4BE")] else [] : List (LocaleId × String))) ++
  ((if host.hasIso then (List.finRange 15).map fun k => (.iso8859 k,isoNames.getD k.val "") else [] :
    List (LocaleId × String))) ++
  ((if host.hasWindows then (List.finRange 27).map fun k => (.cp k,cpNames.getD k.val "") else [] :
    List (LocaleId × String))) ++
  ((if host.hasJis then [(.jis,"JIS"),(.eucjp,"EUC-JP"),(.sjis,"SHIFT-JIS")] else [] : List (LocaleId × String)))

def skipChar (c : Char) : Bool := c = '.' || c = '_' || c = '-'

def matchCharset : List Char → List Char → Bool
  | [], [] => true
  | c :: _, [] => c = '/'
  | str, nc :: name =>
    if skipChar nc then matchCharset str name else
    match str.dropWhile skipChar with
    | [] => false
    | sc :: str => sc ≠ '/' && sc.toLower = nc.toLower && matchCharset str name

def findCharset (host : Host) (charset : List Char) : Option LocaleId :=
  if matchCharset charset "ascii".toList || matchCharset charset "us_ascii".toList then some .c
  else ((charsetNames host).find? fun e => matchCharset charset e.2.toList).map Prod.fst

def modeNamed (name : List Char) : Option Mode :=
  if name = "IGNORE".toList then some .ignore
  else if name = "NON_IDENTICAL_DISCARD".toList then some .discard
  else if name = "TRANSLIT".toList then some .translit
  else none

def findMode (tocode : List Char) : Option Mode :=
  match tocode.dropWhile (fun c => c ≠ '/') with
  | [] => some .default
  | _ :: '/' :: name => modeNamed name
  | _ => none

def descriptor (host : Host) (toid fromid : LocaleId) (mode : Mode) : Descriptor where
  inMbtowc := fromid.getMbtowc host
  outWctomb := toid.getWctomb host
  inState := .initial
  outState := .initial
  bufLen := 0
  bufOff := 0
  mode := mode
  buf := List.replicate mbLenMax 0

def iconvOpen (host : Host) (calloc : Bool) (tocode fromcode : Option (List Char)) : Except Errno Descriptor :=
  match tocode, fromcode with
  | some tocode, some fromcode =>
    match findCharset host tocode, findCharset host fromcode, findMode tocode with
    | some toid, some fromid, some mode =>
      if calloc then .ok (descriptor host toid fromid mode) else .error .einval
    | _, _, _ => .error .einval
  | _, _ => .error .einval

structure Work where
  ic : Descriptor
  inOff : Nat
  inLeft : Nat
  dst : Mem
  outOff : Nat
  outLeft : Nat
  wc : Nat
  inexact : Nat

inductive Step where
  | next (w : Work)
  | leave (w : Work) (ret : Except Errno Nat)
  | stray

def Work.copyStaged (w : Work) : Step :=
  let tocopy := w.ic.bufLen - w.ic.bufOff
  if w.outLeft < tocopy then .leave w (.error .e2big) else
  let off := w.ic.bufOff + tocopy
  .next { w with
    dst := splice w.dst w.outOff ((w.ic.buf.drop w.ic.bufOff).take tocopy)
    outOff := w.outOff + tocopy
    outLeft := w.outLeft - tocopy
    ic := if off = w.ic.bufLen then { w.ic with bufOff := 0, bufLen := 0 } else { w.ic with bufOff := off } }

def Work.place (w : Work) (bytes : List UInt8) : Step :=
  if mbLenMax ≤ w.outLeft then
    .next { w with
      dst := splice w.dst w.outOff bytes
      outOff := w.outOff + bytes.length
      outLeft := w.outLeft - bytes.length }
  else .next { w with ic := { w.ic with buf := bytes ++ w.ic.buf.drop bytes.length, bufLen := bytes.length } }

def Work.placeFailed (w : Work) : Step :=
  if mbLenMax ≤ w.outLeft then
    if w.outOff = 0 then .stray else .next { w with outOff := w.outOff - 1, outLeft := w.outLeft + 1 }
  else .next { w with ic := { w.ic with bufLen := sizeMax } }

def Work.encode (w : Work) : Step :=
  let r := w.ic.outWctomb w.wc w.ic.outState
  let w := { w with ic := { w.ic with outState := r.1 } }
  match r.2 with
  | some bytes => w.place bytes
  | none =>
    match w.ic.mode with
    | .default => .leave w (.error .eilseq)
    | .translit =>
      let r := w.ic.outWctomb '?'.toNat w.ic.outState
      let w := { w with ic := { w.ic with outState := r.1 } }
      match r.2 with
      | some bytes => Work.place { w with inexact := w.inexact + 1 } bytes
      | none => .leave w (.error .eilseq)
    | _ => Work.placeFailed { w with inexact := w.inexact + 1 }

def Work.decode (src : List UInt8) (w : Work) : Step :=
  let r := w.ic.inMbtowc (src.drop w.inOff) w.inLeft w.ic.inState
  let w := { w with ic := { w.ic with inState := r.state }, wc := r.wc.getD w.wc }
  if r.ret = 0 then Work.encode { w with wc := 0, inOff := w.inOff + w.inLeft, inLeft := 0 }
  else if r.ret = -1 then
    match w.ic.mode with
    | .ignore => Work.encode { w with inOff := w.inOff + 1, inLeft := w.inLeft - 1 }
    | _ => .leave w (.error .eilseq)
  else if r.ret = -2 then .leave { w with inOff := w.inOff + w.inLeft, inLeft := 0 } (.ok w.inexact)
  else Work.encode { w with inOff := w.inOff + r.ret.toNat, inLeft := w.inLeft - r.ret.toNat }

def Work.step (src : List UInt8) (w : Work) : Step :=
  if w.ic.bufLen ≠ 0 then w.copyStaged
  else if w.inLeft ≠ 0 then w.decode src
  else .leave w (.ok w.inexact)

def iconvLoop (src : List UInt8) : Nat → Work → Option (Work × Except Errno Nat)
  | 0, _ => none
  | n + 1, w =>
    if w.outLeft = 0 then some (w,.ok w.inexact) else
    match w.step src with
    | .next w => iconvLoop src n w
    | .leave w ret => some (w,ret)
    | .stray => none

def iconv (ic : Option Descriptor) (src : Option (List UInt8)) (dst : Mem) (outLeft wc : Nat) :
    Option (Option Work × Except Errno Nat) :=
  match ic, src with
  | none, _ => some (none,.error .einval)
  | some _, none => some (none,.ok 0)
  | some ic, some src =>
    (iconvLoop src (2 * src.length + 3) ⟨ic,0,src.length,dst,0,outLeft,wc,0⟩).map fun r => (some r.1,r.2)

end Iconv
