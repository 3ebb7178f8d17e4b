import Mathlib
import Picolibc.Stdio.FailedSeek
import Picolibc.Stdio.Fwrite

namespace Stdio

open ByteMemory Simulation

def ioFBF : Int := 0

def ioLBF : Int := 1

def ioNBF : Int := 2

def bufsiz : Nat := 512

structure Block where
  ptr : Nat
  mem : Mem

structure Request where
  buf : Option Block
  mode : Int
  size : Nat
  alloc : Option Block

structure Vbuf (D : Type) where
  f : Bufio D
  ptr : Nat
  size : Int
  freed : List Nat

def toInt (intBits : Nat) (size : Nat) : Int := Int.bmod size (2 ^ intBits)

def toSize (cfg : Build) (size : Int) : Nat := (size % 2 ^ cfg.sizeBits).toNat

section

variable {D : Type} (cfg : Build) (intBits : Nat) (cb : Callbacks D)

namespace Vbuf

def withBlbf (v : Vbuf D) (b : Bool) : Vbuf D := { v with f := { v.f with bflags := { v.f.bflags with blbf := b } } }

def withBall (v : Vbuf D) (b : Bool) : Vbuf D := { v with f := { v.f with bflags := { v.f.bflags with ball := b } } }

def withFreed (v : Vbuf D) : Vbuf D := { v with freed := v.freed ++ [v.ptr] }

def install (v : Vbuf D) (b : Block) (size : Nat) : Vbuf D :=
  { v with
    f := { v.f with
      closeFn := if v.f.bflags.ball then .bufioClose else v.f.closeFn
      buf := b.mem
      size := (toInt intBits size).toNat }
    ptr := b.ptr
    size := toInt intBits size }

def setBuffer (v : Vbuf D) (buf : Option Block) (size : Nat) (alloc : Option Block) : Vbuf D × Int :=
  if size ≠ toSize cfg v.size then
    if v.f.bflags.ball then
      match buf with
      | some b => ((v.withFreed.withBall false).install intBits b size,0)
      | none =>
        match alloc with
        | none => (v,-1)
        | some b => (v.withFreed.install intBits b size,0)
    else
      match buf with
      | some b => (v.install intBits b size,0)
      | none =>
        match alloc with
        | none => (v,-1)
        | some b => ((v.withBall true).install intBits b size,0)
  else (v,0)

def setSized (v : Vbuf D) (q : Request) : Vbuf D × Int :=
  if q.size = 0 then
    if q.buf.isSome then (v,fdevErr) else
    v.setBuffer cfg intBits q.buf (if 1 < v.size then toSize cfg v.size else bufsiz) q.alloc
  else v.setBuffer cfg intBits q.buf q.size q.alloc

def bufioSetvbuf (v : Vbuf D) (q : Request) : Vbuf D × Int :=
  let r := v.f.flushLocked cb
  let v := { v with f := r.1 }
  if r.2 < 0 then (v,fdevErr) else
  let v := v.withBlbf false
  if q.mode = ioNBF then v.setBuffer cfg intBits none 1 q.alloc
  else if q.mode = ioLBF then (v.withBlbf true).setSized cfg intBits q
  else if q.mode = ioFBF then v.setSized cfg intBits q
  else (v,-1)

def setvbuf (v : Vbuf D) (q : Request) : Vbuf D × Int :=
  if v.f.flags.sext = true ∧ v.f.flags.sbuf = true then v.bufioSetvbuf cfg intBits cb q else (v,0)

end Vbuf

end

def Request.buffer (q : Request) : Option Block := if q.mode = ioNBF then none else q.buf

def Request.want (cfg : Build) (q : Request) (size : Int) : Nat :=
  if q.mode = ioNBF then 1 else
  if q.size = 0 then if 1 < size then toSize cfg size else bufsiz else q.size

def Request.line (q : Request) : Bool := decide (q.mode = ioLBF)

def Request.known (q : Request) : Prop := q.mode = ioNBF ∨ q.mode = ioLBF ∨ q.mode = ioFBF

section

variable {D : Type}

def Bufio.held (f : Bufio D) : List UInt8 :=
  match f.dir with
  | .wr => slice f.buf 0 f.len
  | .rd => slice f.buf f.off (f.len - f.off)
  | .idle => []

inductive Delivers (cb : Callbacks D) : D → List UInt8 → D → Prop
  | nil (d : D) : Delivers cb d [] d
  | more {d d' d'' : D} {l : List UInt8} {n : { n : Nat // n ≤ l.length }} (hw : cb.write d l = (d',some n))
      (hn : 0 < n.val) (h : Delivers cb d' (l.drop n.val) d'') : Delivers cb d l d''

structure Indexed (D : Type) where
  cb : Callbacks D
  index : D → Int
  seeks : ∀ lseek, cb.lseek = some lseek → ∀ d t,
    index (lseek d t .set).1 = if 0 ≤ (lseek d t .set).2 then t else index d

structure Vbuf.Kept (v w : Vbuf D) : Prop where
  ptr : w.ptr = v.ptr
  size : w.size = v.size
  ball : w.f.bflags.ball = v.f.bflags.ball
  blbf : w.f.bflags.blbf = v.f.bflags.blbf
  held : w.f.held = v.f.held

structure Vbuf.Installed (cfg : Build) (dv : Indexed D) (q : Request) (v w : Vbuf D) : Prop where
  mode : w.f.bflags.blbf = q.line
  size : w.size = q.want cfg v.size
  buffer : ∀ b, q.buffer = some b → w.ptr = b.ptr
  owner : w.f.bflags.ball = if q.want cfg v.size = toSize cfg v.size then v.f.bflags.ball else q.buffer.isNone
  freed : w.freed = v.freed ++
    if v.f.bflags.ball = true ∧ q.want cfg v.size ≠ toSize cfg v.size then [v.ptr] else []
  delivered : v.f.dir = .wr → Delivers dv.cb v.f.dev v.f.held w.f.dev
  place : v.f.dir = .rd → dv.index w.f.dev = dv.index v.f.dev - v.f.held.length
  emptied : w.f.held = []
  pushed : w.f.unget = v.f.unget

def Vbuf.Atomic (cfg : Build) (dv : Indexed D) (q : Request) (v : Vbuf D) (r : Vbuf D × Int) : Prop :=
  (r.2 ≠ 0 → v.Kept r.1) ∧ (r.2 = 0 → v.Installed cfg dv q r.1)

def Refused (cfg : Build) (cb : Callbacks D) (v : Vbuf D) (q : Request) : Prop :=
  (v.f.dir = .wr ∧ ¬Accepts cb v.f.dev v.f.held) ∨ ¬q.known ∨ (q.size = 0 ∧ q.buffer.isSome = true) ∨
    (q.want cfg v.size ≠ toSize cfg v.size ∧ q.buffer = none ∧ q.alloc = none)

def Rewinds (dv : Indexed D) (f : Bufio D) : Prop :=
  f.dir = .rd → f.held = [] ∨
    (f.pos = dv.index f.dev ∧ ∃ lseek, dv.cb.lseek = some lseek ∧ 0 ≤ (lseek f.dev (f.pos - (f.len - f.off)) .set).2)

def Honoured (cfg : Build) (intBits : Nat) (dv : Indexed D) (v : Vbuf D) (q : Request) : Prop :=
  q.want cfg v.size < 2 ^ (intBits - 1) ∧
    (∀ b, q.buffer = some b → q.want cfg v.size ≠ toSize cfg v.size ∨ b.ptr = v.ptr) ∧ Rewinds dv v.f

variable {cfg : Build} {intBits : Nat} {cb : Callbacks D} {f g : Bufio D}

theorem held_length (f : Bufio D) : f.held.length =
    match f.dir with
    | .wr => f.len
    | .rd => f.len - f.off
    | .idle => 0 := by
  unfold Bufio.held
  cases f.dir with
  | wr => exact slice_length _ _ _
  | rd => exact slice_length _ _ _
  | idle => rfl

theorem held_empty (hl : f.len = 0) : f.held = [] := by
  rw [← List.length_eq_zero_iff,held_length,hl]
  cases f.dir with
  | wr => rfl
  | rd => exact Nat.zero_sub _
  | idle => rfl

theorem held_wr (hd : f.dir = .wr) : f.held = slice f.buf 0 f.len := by
  rw [Bufio.held,hd]

theorem held_rd (hd : f.dir = .rd) : f.held.length = f.len - f.off := by
  rw [held_length,hd]

theorem flushWrite_delivers (cb : Callbacks D) (fuel : Nat) (f : Bufio D) (start : Nat) (hl : f.len ≤ fuel)
    (hr : (f.flushWrite cb fuel start).2 = 0) :
    Delivers cb f.dev (slice f.buf start f.len) (f.flushWrite cb fuel start).1.dev := by
  induction fuel generalizing f start with
  | zero =>
    have h0 : f.len = 0 := by omega
    rw [h0]
    exact .nil _
  | succ fuel ih =>
    revert hr
    rw [Bufio.flushWrite]
    by_cases h0 : f.len = 0
    · rw [if_pos h0,h0]
      exact fun _ => .nil _
    · rw [if_neg h0]
      rcases hw : cb.write f.dev (slice f.buf start f.len) with ⟨d,_ | n⟩
      · exact fun h => absurd h (show ¬fdevErr = 0 by decide)
      · dsimp only
        by_cases hn : n.val = 0
        · rw [if_pos hn]
          exact fun h => absurd h (show ¬fdevErr = 0 by decide)
        · have hle : n.val ≤ f.len := by simpa using n.property
          rw [if_neg hn]
          intro hr
          have hrest := ih { f with dev := d, pos := f.pos + n.val, len := f.len - n.val } (start + n.val)
            (by dsimp only; omega) hr
          dsimp only at hrest
          rw [← slice_drop hle] at hrest
          exact .more hw (by omega) hrest

structure Flushed (dv : Indexed D) (f : Bufio D) (r : Bufio D × Int) : Prop where
  bflags : r.1.bflags = f.bflags
  unget : r.1.unget = f.unget
  dir : r.1.dir = f.dir
  len : r.1.len = 0
  fails : r.2 < 0 ↔ f.dir = .wr ∧ ¬Accepts dv.cb f.dev f.held
  delivers : ¬r.2 < 0 → f.dir = .wr → Delivers dv.cb f.dev f.held r.1.dev
  place : f.dir = .rd → (dv.index r.1.dev = dv.index f.dev - f.held.length ↔ Rewinds dv f)

theorem flushRead_place (dv : Indexed D) (hf : Cursor f) (hd : f.dir = .rd) :
    dv.index (f.flushRead dv.cb).dev = dv.index f.dev - f.held.length ↔ Rewinds dv f := by
  have hoff := hf.off
  have hlen := held_rd hd
  have hcast : (f.held.length : Int) = f.len - f.off := by omega
  rw [Rewinds,imp_iff_right hd,← List.length_eq_zero_iff,hcast,Bufio.flushRead]
  by_cases hz : (f.len : Int) - f.off = 0
  · rw [if_neg (not_not.mpr hz),hz]
    exact iff_of_true (Int.sub_zero _).symm (.inl (by omega))
  · rw [if_pos hz,or_iff_right (by omega)]
    dsimp only
    rw [bufioLseek]
    cases hl : dv.cb.lseek with
    | none => exact iff_of_false (by dsimp only; omega) (fun h => by obtain ⟨-,lseek,h,-⟩ := h; cases h)
    | some lseek =>
      dsimp only
      rw [dv.seeks lseek hl]
      by_cases hok : 0 ≤ (lseek f.dev (f.pos - (f.len - f.off)) .set).2
      · rw [if_pos hok]
        constructor
        · exact fun h => ⟨by omega,lseek,rfl,hok⟩
        · exact fun h => by have := h.1; omega
      · rw [if_neg hok]
        refine iff_of_false (by omega) ?_
        rintro ⟨-,k,hk,hpos⟩
        cases hk
        exact hok hpos

theorem flushLocked_flushed (dv : Indexed D) (hf : Cursor f) : Flushed dv f (f.flushLocked dv.cb) := by
  cases hd : f.dir with
  | wr =>
    have hacc := flushLocked_accepts dv.cb hd
    have hdel : (f.flushLocked dv.cb).2 = 0 → Delivers dv.cb f.dev f.held (f.flushLocked dv.cb).1.dev := by
      rw [Bufio.flushLocked,hd,held_wr hd]
      exact flushWrite_delivers dv.cb f.len f 0 le_rfl
    obtain ⟨d,p,r,heq,hr⟩ := Bufio.flushLocked_wr dv.cb hd
    rw [heq] at hacc hdel ⊢
    rw [← held_wr hd] at hacc
    have hneg : r < 0 ↔ ¬r = 0 := by
      rcases hr with rfl | rfl
      · simp
      · exact iff_of_true (by decide) (by decide)
    refine ⟨rfl,rfl,rfl,rfl,?_,?_,fun h => absurd (hd.symm.trans h) (by decide)⟩
    · rw [and_iff_right hd,← hacc]
      exact hneg
    · intro h _
      exact hdel (not_not.mp (fun hne => h (hneg.mpr hne)))
  | rd =>
    have hplace := flushRead_place dv hf hd
    have hnw : ¬(f.dir = .wr ∧ ¬Accepts dv.cb f.dev f.held) := fun h => absurd (hd.symm.trans h.1) (by decide)
    obtain ⟨d,p,heq⟩ := Bufio.flushRead_frame dv.cb f
    rw [heq] at hplace
    rw [Bufio.flushLocked_rd dv.cb hd,heq]
    exact ⟨rfl,rfl,rfl,rfl,iff_of_false (lt_irrefl 0) hnw,fun _ h => absurd (hd.symm.trans h) (by decide),fun _ => hplace⟩
  | idle =>
    have hnw : ¬(f.dir = .wr ∧ ¬Accepts dv.cb f.dev f.held) := fun h => absurd (hd.symm.trans h.1) (by decide)
    rw [Bufio.flushLocked_idle dv.cb hd]
    exact ⟨rfl,rfl,rfl,hf.idle hd,iff_of_false (lt_irrefl 0) hnw,fun _ h => absurd (hd.symm.trans h) (by decide),
      fun h => absurd (hd.symm.trans h) (by decide)⟩

structure Vbuf.Sets (cfg : Build) (intBits : Nat) (v w : Vbuf D) (buf : Option Block) (n : Nat) : Prop where
  blbf : w.f.bflags.blbf = v.f.bflags.blbf
  size : w.size = if n = toSize cfg v.size then v.size else toInt intBits n
  buffer : n ≠ toSize cfg v.size → ∀ b, buf = some b → w.ptr = b.ptr
  same : n = toSize cfg v.size → w.ptr = v.ptr
  ball : w.f.bflags.ball = if n = toSize cfg v.size then v.f.bflags.ball else buf.isNone
  freed : w.freed = v.freed ++ if v.f.bflags.ball = true ∧ n ≠ toSize cfg v.size then [v.ptr] else []
  dev : w.f.dev = v.f.dev
  len : w.f.len = v.f.len
  off : w.f.off = v.f.off
  unget : w.f.unget = v.f.unget
  flags : w.f.flags = v.f.flags

theorem setBuffer_cases (cfg : Build) (intBits : Nat) (v : Vbuf D) (buf : Option Block) (size : Nat)
    (alloc : Option Block) :
    ((size ≠ toSize cfg v.size ∧ buf = none ∧ alloc = none) ∧ v.setBuffer cfg intBits buf size alloc = (v,-1)) ∨
    (¬(size ≠ toSize cfg v.size ∧ buf = none ∧ alloc = none) ∧ ∃ w,
      v.setBuffer cfg intBits buf size alloc = (w,0) ∧ v.Sets cfg intBits w buf size) := by
  unfold Vbuf.setBuffer
  by_cases hne : size ≠ toSize cfg v.size
  · have heq : ¬size = toSize cfg v.size := hne
    rw [if_pos hne]
    cases hball : v.f.bflags.ball with
    | true =>
      rw [if_pos rfl]
      cases buf with
      | some b =>
        refine .inr ⟨fun h => (by cases h.2.1),_,rfl,?_⟩
        constructor <;> simp [Vbuf.install,Vbuf.withFreed,Vbuf.withBall,heq,hball]
      | none =>
        cases alloc with
        | none => exact .inl ⟨⟨hne,rfl,rfl⟩,rfl⟩
        | some b =>
          refine .inr ⟨fun h => (by cases h.2.2),_,rfl,?_⟩
          constructor <;> simp [Vbuf.install,Vbuf.withFreed,heq,hball]
    | false =>
      rw [if_neg Bool.false_ne_true]
      cases buf with
      | some b =>
        refine .inr ⟨fun h => (by cases h.2.1),_,rfl,?_⟩
        constructor <;> simp [Vbuf.install,heq,hball]
      | none =>
        cases alloc with
        | none => exact .inl ⟨⟨hne,rfl,rfl⟩,rfl⟩
        | some b =>
          refine .inr ⟨fun h => (by cases h.2.2),_,rfl,?_⟩
          constructor <;> simp [Vbuf.install,Vbuf.withBall,heq,hball]
  · have heq : size = toSize cfg v.size := not_not.mp hne
    rw [if_neg hne]
    refine .inr ⟨fun h => hne h.1,v,rfl,?_⟩
    constructor <;> simp [heq]

def Unbuyable (cfg : Build) (v : Vbuf D) (q : Request) : Prop :=
  (q.size = 0 ∧ q.buffer.isSome = true) ∨ (q.want cfg v.size ≠ toSize cfg v.size ∧ q.buffer = none ∧ q.alloc = none)

theorem setSized_cases (cfg : Build) (intBits : Nat) (v : Vbuf D) (q : Request) (hm : ¬q.mode = ioNBF) :
    (Unbuyable cfg v q ∧ ∃ r, v.setSized cfg intBits q = (v,r) ∧ r ≠ 0) ∨
    (¬Unbuyable cfg v q ∧ ∃ w, v.setSized cfg intBits q = (w,0) ∧
      v.Sets cfg intBits w q.buffer (q.want cfg v.size)) := by
  have hbuf : q.buffer = q.buf := if_neg hm
  have hwant : q.want cfg v.size = if q.size = 0 then if 1 < v.size then toSize cfg v.size else bufsiz else q.size :=
    if_neg hm
  unfold Vbuf.setSized
  rw [Unbuyable,hbuf,hwant]
  by_cases h0 : q.size = 0
  · rw [if_pos h0,if_pos h0]
    by_cases hsome : q.buf.isSome = true
    · rw [if_pos hsome]
      exact .inl ⟨.inl ⟨h0,hsome⟩,fdevErr,rfl,by decide⟩
    · rw [if_neg hsome]
      rcases setBuffer_cases cfg intBits v q.buf (if 1 < v.size then toSize cfg v.size else bufsiz) q.alloc with
        ⟨hno,heq⟩ | ⟨hno,w,heq,hw⟩
      · exact .inl ⟨.inr hno,-1,heq,by decide⟩
      · exact .inr ⟨fun h => h.elim (fun h => hsome h.2) hno,w,heq,hw⟩
  · rw [if_neg h0,if_neg h0]
    rcases setBuffer_cases cfg intBits v q.buf q.size q.alloc with ⟨hno,heq⟩ | ⟨hno,w,heq,hw⟩
    · exact .inl ⟨.inr hno,-1,heq,by decide⟩
    · exact .inr ⟨fun h => h.elim (fun h => h0 h.1) hno,w,heq,hw⟩

theorem setMode_cases (cfg : Build) (intBits : Nat) (v : Vbuf D) (q : Request) :
    let r := if q.mode = ioNBF then (v.withBlbf false).setBuffer cfg intBits none 1 q.alloc
      else if q.mode = ioLBF then ((v.withBlbf false).withBlbf true).setSized cfg intBits q
      else if q.mode = ioFBF then (v.withBlbf false).setSized cfg intBits q
      else (v.withBlbf false,-1)
    ((¬q.known ∨ Unbuyable cfg v q) ∧ r.1 = v.withBlbf q.line ∧ r.2 ≠ 0) ∨
    (¬(¬q.known ∨ Unbuyable cfg v q) ∧ r.2 = 0 ∧
      (v.withBlbf q.line).Sets cfg intBits r.1 q.buffer (q.want cfg v.size)) := by
  intro r
  have hsized : ∀ b, q.known → ¬q.mode = ioNBF → q.line = b → r = (v.withBlbf b).setSized cfg intBits q →
      ((¬q.known ∨ Unbuyable cfg v q) ∧ r.1 = v.withBlbf q.line ∧ r.2 ≠ 0) ∨
      (¬(¬q.known ∨ Unbuyable cfg v q) ∧ r.2 = 0 ∧
        (v.withBlbf q.line).Sets cfg intBits r.1 q.buffer (q.want cfg v.size)) := by
    intro b hknown hm hline hr
    rw [hr,hline]
    rcases setSized_cases cfg intBits (v.withBlbf b) q hm with ⟨hno,c,heq,hc⟩ | ⟨hno,w,heq,hw⟩
    · rw [heq]
      exact .inl ⟨.inr hno,rfl,hc⟩
    · rw [heq]
      exact .inr ⟨fun h => h.elim (fun h => h hknown) hno,rfl,hw⟩
  by_cases hn : q.mode = ioNBF
  · have hline : q.line = false := decide_eq_false (by rw [hn]; decide)
    have hbuf : q.buffer = none := if_pos hn
    have hwant : q.want cfg v.size = 1 := if_pos hn
    have hr : r = (v.withBlbf false).setBuffer cfg intBits none 1 q.alloc := if_pos hn
    rw [hr,hline,hbuf,hwant,Unbuyable,hbuf,hwant]
    rcases setBuffer_cases cfg intBits (v.withBlbf false) none 1 q.alloc with ⟨hno,heq⟩ | ⟨hno,w,heq,hw⟩
    · rw [heq]
      exact .inl ⟨.inr (.inr hno),rfl,show (-1 : Int) ≠ 0 by decide⟩
    · rw [heq]
      refine .inr ⟨?_,rfl,hw⟩
      rintro (h | h | h)
      · exact h (.inl hn)
      · exact absurd h.2 (by decide)
      · exact hno h
  · by_cases hl : q.mode = ioLBF
    · exact hsized true (.inr (.inl hl)) hn (decide_eq_true hl) (by
        simp only [r,if_neg hn,if_pos hl]
        rfl)
    · by_cases hfb : q.mode = ioFBF
      · exact hsized false (.inr (.inr hfb)) hn (decide_eq_false hl) (by
          simp only [r,if_neg hn,if_neg hl,if_pos hfb])
      · have hr : r = (v.withBlbf false,-1) := by
          simp only [r,if_neg hn,if_neg hl,if_neg hfb]
        have hline : q.line = false := decide_eq_false hl
        rw [hr,hline]
        refine .inl ⟨.inl ?_,rfl,show (-1 : Int) ≠ 0 by decide⟩
        rintro (h | h | h)
        · exact hn h
        · exact hl h
        · exact hfb h

structure Sized (intBits : Nat) (size : Int) : Prop where
  low : -2 ^ (intBits - 1) ≤ size
  high : size < 2 ^ (intBits - 1)

theorem bmod_double (n : Nat) {p : Nat} (hp : 0 < p) : -(p : Int) ≤ Int.bmod n (2 * p) ∧ Int.bmod n (2 * p) < p ∧
    (Int.bmod n (2 * p) = n ↔ n < p) := by
  have hlow := Int.le_bmod (x := n) (m := 2 * p) (by omega)
  have hhigh := Int.bmod_lt (x := n) (m := 2 * p) (by omega)
  refine ⟨by omega,by omega,?_⟩
  constructor
  · intro h
    omega
  · intro h
    apply Int.bmod_eq_of_le
    · omega
    · omega

theorem toInt_sized {intBits : Nat} (hi : 0 < intBits) (n : Nat) : Sized intBits (toInt intBits n) ∧
    (toInt intBits n = n ↔ n < 2 ^ (intBits - 1)) := by
  obtain ⟨k,rfl⟩ : ∃ k, intBits = k + 1 := ⟨intBits - 1,by omega⟩
  obtain ⟨hlow,hhigh,heq⟩ := bmod_double n (Nat.two_pow_pos k)
  rw [toInt,Nat.add_sub_cancel,show 2 ^ (k + 1) = 2 * 2 ^ k by ring]
  push_cast at hlow hhigh
  exact ⟨⟨hlow,hhigh⟩,heq⟩

theorem toSize_sized {cfg : Build} {intBits : Nat} (hi : 0 < intBits) (hb : intBits ≤ cfg.sizeBits) {size : Int}
    (hs : Sized intBits size) : size = toSize cfg size ↔ toSize cfg size < 2 ^ (intBits - 1) := by
  obtain ⟨k,rfl⟩ : ∃ k, intBits = k + 1 := ⟨intBits - 1,by omega⟩
  have hpow : (2 : Int) ^ (k + 1) = 2 * 2 ^ k := by ring
  have hle : (2 : Int) ^ (k + 1) ≤ 2 ^ cfg.sizeBits := pow_le_pow_right₀ (by decide) hb
  obtain ⟨hlow,hhigh⟩ := hs
  rw [Nat.add_sub_cancel] at hlow hhigh ⊢
  have hpos : (0 : Int) < 2 ^ k := by positivity
  have hnn : 0 ≤ size % 2 ^ cfg.sizeBits := Int.emod_nonneg _ (by omega)
  have hcast : ((toSize cfg size : Nat) : Int) = size % 2 ^ cfg.sizeBits := Int.toNat_of_nonneg hnn
  have hlt : toSize cfg size < 2 ^ k ↔ size % 2 ^ cfg.sizeBits < 2 ^ k := by
    rw [← hcast]
    exact_mod_cast Iff.rfl
  rw [hlt,hcast]
  by_cases hneg : size < 0
  · have hmod : size % 2 ^ cfg.sizeBits = size + 2 ^ cfg.sizeBits := by
      rw [← Int.add_emod_right]
      exact Int.emod_eq_of_lt (by omega) (by omega)
    rw [hmod]
    constructor
    · intro h
      omega
    · intro h
      omega
  · rw [Int.emod_eq_of_lt (by omega) (by omega)]
    exact iff_of_true rfl hhigh

structure Vbuf.Sound (intBits : Nat) (v : Vbuf D) : Prop where
  cursor : Cursor v.f
  sbuf : v.f.flags.sbuf = true
  size : Sized intBits v.size

def Vbuf.emptied (dv : Indexed D) (v : Vbuf D) : Vbuf D := { v with f := (v.f.flushLocked dv.cb).1 }

theorem setvbuf_eq (cfg : Build) (intBits : Nat) (dv : Indexed D) {v : Vbuf D} (q : Request)
    (hv : v.Sound intBits) : v.setvbuf cfg intBits dv.cb q =
      if (v.f.flushLocked dv.cb).2 < 0 then (v.emptied dv,fdevErr) else
      if q.mode = ioNBF then ((v.emptied dv).withBlbf false).setBuffer cfg intBits none 1 q.alloc
      else if q.mode = ioLBF then (((v.emptied dv).withBlbf false).withBlbf true).setSized cfg intBits q
      else if q.mode = ioFBF then ((v.emptied dv).withBlbf false).setSized cfg intBits q
      else ((v.emptied dv).withBlbf false,-1) := by
  rw [Vbuf.setvbuf,if_pos ⟨hv.cursor.ext,hv.sbuf⟩]
  rfl

theorem setvbuf_cases (cfg : Build) (intBits : Nat) (dv : Indexed D) {v : Vbuf D} (q : Request)
    (hv : v.Sound intBits) :
    (Refused cfg dv.cb v q ∧ (v.setvbuf cfg intBits dv.cb q).2 ≠ 0 ∧
      ((v.setvbuf cfg intBits dv.cb q).1 = (v.emptied dv).withBlbf q.line ∨
        (v.f.held ≠ [] ∧ (v.setvbuf cfg intBits dv.cb q).1 = v.emptied dv))) ∨
    (¬Refused cfg dv.cb v q ∧ (v.setvbuf cfg intBits dv.cb q).2 = 0 ∧
      ((v.emptied dv).withBlbf q.line).Sets cfg intBits (v.setvbuf cfg intBits dv.cb q).1 q.buffer (q.want cfg v.size)) := by
  have hfl := flushLocked_flushed dv hv.cursor
  rw [setvbuf_eq cfg intBits dv q hv]
  by_cases hneg : (v.f.flushLocked dv.cb).2 < 0
  · have hfail := hfl.fails.mp hneg
    rw [if_pos hneg]
    refine .inl ⟨.inl hfail,show fdevErr ≠ 0 by decide,.inr ⟨?_,rfl⟩⟩
    intro hnil
    rw [hnil] at hfail
    exact hfail.2 (.nil _)
  · rw [if_neg hneg]
    rcases setMode_cases cfg intBits (v.emptied dv) q with ⟨hno,hw,hr⟩ | ⟨hno,hr,hw⟩
    · exact .inl ⟨.inr hno,hr,.inl hw⟩
    · exact .inr ⟨fun h => h.elim (fun h => hneg (hfl.fails.mpr h)) hno,hr,hw⟩

theorem setvbuf_sound (cfg : Build) {intBits : Nat} (hi : 0 < intBits) (dv : Indexed D) {v : Vbuf D} (q : Request)
    (hv : v.Sound intBits) : (v.setvbuf cfg intBits dv.cb q).1.Sound intBits := by
  obtain ⟨hlen,hoff,hflags⟩ := flushLocked_cursor dv.cb hv.cursor
  have hempty : ∀ w : Vbuf D, w.f.len = 0 → w.f.off = 0 → w.f.flags = v.f.flags → Sized intBits w.size →
      w.Sound intBits :=
    fun w hl ho hfl hs => ⟨hv.cursor.emptied hl ho hfl,hfl ▸ hv.sbuf,hs⟩
  rcases setvbuf_cases cfg intBits dv q hv with ⟨-,-,hw | ⟨-,hw⟩⟩ | ⟨-,-,hw⟩
  · rw [hw]
    exact hempty _ hlen hoff hflags hv.size
  · rw [hw]
    exact hempty _ hlen hoff hflags hv.size
  · refine hempty _ (hw.len.trans hlen) (hw.off.trans hoff) (hw.flags.trans hflags) ?_
    rw [hw.size]
    split_ifs
    · exact hv.size
    · exact (toInt_sized hi _).1

theorem setvbuf_atomic (cfg : Build) {intBits : Nat} (hi : 0 < intBits) (hb : intBits ≤ cfg.sizeBits) (dv : Indexed D)
    {v : Vbuf D} (q : Request) (hv : v.Sound intBits) : v.Atomic cfg dv q (v.setvbuf cfg intBits dv.cb q) ↔
      (Refused cfg dv.cb v q → v.f.held = [] ∧ v.f.bflags.blbf = q.line) ∧
        (¬Refused cfg dv.cb v q → Honoured cfg intBits dv v q) := by
  have hfl := flushLocked_flushed dv hv.cursor
  have hheld : (v.emptied dv).f.held = [] := held_empty hfl.len
  have hball : ((v.emptied dv).withBlbf q.line).f.bflags.ball = v.f.bflags.ball := by
    show (v.f.flushLocked dv.cb).1.bflags.ball = v.f.bflags.ball
    rw [hfl.bflags]
  rcases setvbuf_cases cfg intBits dv q hv with ⟨hno,hr,hw⟩ | ⟨hno,hr,hw⟩
  · rw [Vbuf.Atomic,imp_iff_right hr,and_iff_left (fun h => absurd h hr),imp_iff_right hno,
      and_iff_left (fun h => absurd hno h)]
    rcases hw with hw | ⟨hne,hw⟩
    · rw [hw]
      constructor
      · exact fun h => ⟨h.held.symm.trans hheld,h.blbf.symm⟩
      · intro h
        exact ⟨rfl,rfl,hball,h.2.symm,(show _ = _ from hheld).trans h.1.symm⟩
    · rw [hw]
      refine iff_of_false (fun h => hne (h.held.symm.trans hheld)) (fun h => hne h.1)
  · have hsize : (v.setvbuf cfg intBits dv.cb q).1.size = q.want cfg v.size ↔ q.want cfg v.size < 2 ^ (intBits - 1) := by
      rw [hw.size]
      show (if q.want cfg v.size = toSize cfg v.size then v.size else toInt intBits (q.want cfg v.size)) = _ ↔ _
      split_ifs with heq
      · rw [heq]
        exact toSize_sized hi hb hv.size
      · exact (toInt_sized hi _).2
    rw [Vbuf.Atomic,imp_iff_right hr,and_iff_right (fun h => absurd hr h),and_iff_right (fun h => absurd h hno),
      imp_iff_right hno]
    constructor
    · intro h
      refine ⟨hsize.mp h.size,?_,?_⟩
      · intro b hb'
        by_cases heq : q.want cfg v.size = toSize cfg v.size
        · exact .inr ((h.buffer b hb').symm.trans (hw.same heq))
        · exact .inl heq
      · intro hd
        have hplace := h.place hd
        rw [hw.dev] at hplace
        exact (hfl.place hd).mp hplace hd
    · rintro ⟨hs,hbuf,hrew⟩
      have hneg : ¬(v.f.flushLocked dv.cb).2 < 0 := fun h => hno (.inl (hfl.fails.mp h))
      refine ⟨hw.blbf,hsize.mpr hs,?_,?_,?_,?_,?_,?_,?_⟩
      · intro b hb'
        rcases hbuf b hb' with hne | hptr
        · exact hw.buffer hne b hb'
        · by_cases heq : q.want cfg v.size = toSize cfg v.size
          · exact (hw.same heq).trans hptr.symm
          · exact hw.buffer heq b hb'
      · rw [hw.ball,hball]
        rfl
      · rw [hw.freed,hball]
        rfl
      · intro hd
        rw [hw.dev]
        exact hfl.delivers hneg hd
      · intro hd
        rw [hw.dev]
        exact (hfl.place hd).mpr hrew
      · exact held_empty (hw.len.trans hfl.len)
      · exact hw.unget.trans hfl.unget

inductive StreamOp where
  | call (c : Call)
  | setvbuf (q : Request)

def Vbuf.step (cfg : Build) (intBits : Nat) (cb : Callbacks D) (v : Vbuf D) : StreamOp → Vbuf D × Int
  | .call c =>
    let r := c.exec cfg cb v.f
    ({ v with f := r.1 },r.2)
  | .setvbuf q => v.setvbuf cfg intBits cb q

def StreamOp.open (op : StreamOp) : Prop := ∀ c, op = .call c → c ≠ .fclose

theorem step_sound (cfg : Build) {intBits : Nat} (hi : 0 < intBits) (dv : Indexed D) {v : Vbuf D} (op : StreamOp)
    (ho : op.open) (hv : v.Sound intBits) : (v.step cfg intBits dv.cb op).1.Sound intBits := by
  cases op with
  | call c =>
    have hm := exec_moves cfg dv.cb v.f c (ho c rfl)
    exact ⟨hm.preserves (fun _ _ => move_cursor) hv.cursor,hm.keeps.sbuf hv.sbuf,hv.size⟩
  | setvbuf q => exact setvbuf_sound cfg hi dv q hv

end

theorem setvbuf_atomic_iff {D : Type} (cfg : Build) {intBits : Nat} (hi : 0 < intBits) (hb : intBits ≤ cfg.sizeBits)
    (dv : Indexed D) (dev : D) (block : Block) {size : Nat} (hs : size < 2 ^ (intBits - 1)) (rd wr : Bool)
    (bflags : BFlags) (pos : Int) (ops : List StreamOp) (ho : ∀ op ∈ ops, op.open) (q : Request) :
    let v := (run (Vbuf.step cfg intBits dv.cb)
      ⟨{ fdevSetupBufio dev block.mem size rd wr bflags with pos := pos },block.ptr,size,[]⟩ ops).1
    v.Atomic cfg dv q (v.setvbuf cfg intBits dv.cb q) ↔
      (Refused cfg dv.cb v q → v.f.held = [] ∧ v.f.bflags.blbf = q.line) ∧
        (¬Refused cfg dv.cb v q → Honoured cfg intBits dv v q) := by
  intro v
  apply setvbuf_atomic cfg hi hb dv q
  refine run_preserves (fun v op hv hop => step_sound cfg hi dv op hop hv)
    ⟨⟨le_rfl,fun _ => rfl,fun _ => rfl,rfl⟩,rfl,?_,?_⟩ (along_of_mem ho)
  · have hpos : (0 : Int) < 2 ^ (intBits - 1) := by positivity
    show -2 ^ (intBits - 1) ≤ (size : Int)
    omega
  · show (size : Int) < 2 ^ (intBits - 1)
    exact_mod_cast hs

def sinkIndexed : Indexed Unit where
  cb := sink
  index := fun _ => 0
  seeks := fun _ h => (by cases h)

theorem setvbuf_atomic_fresh :
    let v := (run (Vbuf.step ⟨true,false,64⟩ 32 sink) ⟨{ fdevSetupBufio () (fun _ => 0) 4 false true ⟨false,true,false⟩ with
      pos := 0 },100,4,[]⟩ [.call (.putc 65)]).1
    let q : Request := ⟨some ⟨200,fun _ => 0⟩,ioFBF,8,none⟩
    v.Atomic ⟨true,false,64⟩ sinkIndexed q (v.setvbuf ⟨true,false,64⟩ 32 sink q) := by
  refine (setvbuf_atomic_iff ⟨true,false,64⟩ (show 0 < 32 by decide) (show 32 ≤ 64 by decide) sinkIndexed ()
    ⟨100,fun _ => 0⟩ (show 4 < 2 ^ (32 - 1) by decide) false true ⟨false,true,false⟩ 0 [.call (.putc 65)] (by
      intro op hop c hc
      rw [List.mem_singleton.mp hop] at hc
      cases hc
      exact fun h => (by cases h)) ⟨some ⟨200,fun _ => 0⟩,ioFBF,8,none⟩).mpr ⟨?_,fun _ => ⟨by decide,fun _ _ => .inl (by decide),?_⟩⟩
  · rintro (⟨-,h⟩ | h | ⟨h,-⟩ | ⟨-,h,-⟩)
    · exact absurd (.more rfl (by decide) (.nil _)) h
    · exact absurd (.inr (.inr rfl)) h
    · exact absurd h (by decide)
    · cases h
  · intro h
    cases h

theorem setvbuf_half_changed :
    let v : Vbuf Unit := ⟨fdevSetupBufio () (fun _ => 0) 4 false true ⟨false,true,false⟩,100,4,[]⟩
    let w : Vbuf Unit := ⟨fdevSetupBufio () (fun _ => 0) 4 false true ⟨false,false,false⟩,100,4,[]⟩
    ¬v.Atomic ⟨true,false,64⟩ sinkIndexed ⟨none,99,0,none⟩ (v.setvbuf ⟨true,false,64⟩ 32 sink ⟨none,99,0,none⟩) ∧
      ¬w.Atomic ⟨true,false,64⟩ sinkIndexed ⟨none,ioLBF,8,none⟩ (w.setvbuf ⟨true,false,64⟩ 32 sink ⟨none,ioLBF,8,none⟩) ∧
      ¬w.Atomic ⟨true,false,64⟩ sinkIndexed ⟨some ⟨200,fun _ => 0⟩,ioFBF,4,none⟩
        (w.setvbuf ⟨true,false,64⟩ 32 sink ⟨some ⟨200,fun _ => 0⟩,ioFBF,4,none⟩) := by
  refine ⟨?_,?_,?_⟩
  · exact fun h => absurd (h.1 (by decide)).blbf (by decide)
  · exact fun h => absurd (h.1 (by decide)).blbf (by decide)
  · exact fun h => absurd ((h.2 (by decide)).buffer _ rfl) (by decide)

end Stdio
