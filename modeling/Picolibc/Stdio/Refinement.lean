import Mathlib
import Picolibc.Lib.Simulation
import Picolibc.Stdio.Positions

set_option linter.unusedSectionVars false

namespace Stdio

open ByteMemory FileArray Simulation

structure Descriptor (D : Type) where
  cb : Callbacks D
  content : D → List UInt8
  offset : D → Nat
  lseek : D → Int → Whence → D × Int
  seekable : cb.lseek = some lseek
  reads : ∀ (d : D) (n : Nat), 0 < n → ∃ l, (cb.read d n).2 = some l ∧
    l.val <+: (content d).drop (offset d) ∧ (l.val = [] ↔ (content d).length ≤ offset d) ∧
    content (cb.read d n).1 = content d ∧ offset (cb.read d n).1 = offset d + l.val.length
  writes : ∀ (d : D) (l : List UInt8), l ≠ [] → ∃ n, (cb.write d l).2 = some n ∧ 0 < n.val ∧
    content (cb.write d l).1 = overwrite (content d) (offset d) (l.take n.val) ∧
    offset (cb.write d l).1 = offset d + n.val
  lseeks : ∀ (d : D) (o : Int) (w : Whence), 0 ≤ w.target (content d).length (offset d) o →
    (lseek d o w).2 = w.target (content d).length (offset d) o ∧
    content (lseek d o w).1 = content d ∧
    offset (lseek d o w).1 = (w.target (content d).length (offset d) o).toNat

inductive FileOp where
  | getc
  | putc (c : UInt8)
  | fflush
  | ftell
  | fseek (offset : Int) (whence : Whence)
  deriving DecidableEq, Repr

def FileOp.call : FileOp → Call
  | .getc => .getc
  | .putc c => .putc c
  | .fflush => .fflush
  | .ftell => .ftell
  | .fseek offset whence => .fseek offset whence

def Ideal.step (i : Ideal) : FileOp → Ideal × Int
  | .getc => i.getc
  | .putc c => (⟨put i.bytes i.pos c,i.pos + 1⟩,c.toNat)
  | .fflush => (i,0)
  | .ftell => (i,i.pos)
  | .fseek offset whence => (⟨i.bytes,(whence.target i.bytes.length i.pos offset).toNat⟩,0)

def Ideal.ok (i : Ideal) : FileOp → Prop
  | .fseek offset whence => 0 ≤ whence.target i.bytes.length i.pos offset
  | _ => True

def Bufio.apply {D : Type} (cfg : Build) (cb : Callbacks D) (f : Bufio D) (op : FileOp) : Bufio D × Int :=
  op.call.exec cfg cb f

section

variable {D : Type} (fd : Descriptor D)

def Descriptor.device : FileDevice D where
  cb := fd.cb
  content := fd.content
  offset := fd.offset
  append := false
  lseek := fd.lseek
  seekable := fd.seekable
  reads := fd.reads
  writes := fd.writes
  lseeks := fd.lseeks

structure Tracks (f : Bufio D) (i : Ideal) : Prop where
  readable : f.flags.srd = true
  writable : f.flags.swr = true
  ext : f.flags.sext = true
  unget : f.unget = 0
  size : 0 < f.size
  pos : f.pos = fd.offset f.dev
  view : View fd.device f i

variable {fd} {f g : Bufio D} {i : Ideal}

theorem tracks_placed (h : Tracks fd f i) : Placed fd.device f i :=
  ⟨h.size,h.pos,h.view,fun _ => rfl⟩

theorem placed_tracks {j : Ideal} (h : Tracks fd f i) (hm : Bufio.SameModes f g) (hu : g.unget = 0)
    (hp : Placed fd.device g j) : Tracks fd g j :=
  ⟨hm.srd.trans h.readable,hm.swr.trans h.writable,hm.sext.trans h.ext,hu,hp.size,hp.pos,hp.view⟩

theorem getc_tracks (h : Tracks fd f i) : Tracks fd (f.getc fd.cb).1 i.getc.1 ∧
    (f.getc fd.cb).2 = i.getc.2 := by
  obtain ⟨hp,hr,hu⟩ := getc_placed (tracks_placed h) h.readable h.unget
  exact ⟨placed_tracks h (Bufio.getc_modes fd.cb f) hu hp,hr⟩

theorem putc_tracks (h : Tracks fd f i) (c : UInt8) :
    Tracks fd (f.putc fd.cb c).1 ⟨put i.bytes i.pos c,i.pos + 1⟩ ∧ (f.putc fd.cb c).2 = c.toNat := by
  obtain ⟨hp,hr,hu⟩ := putc_placed (tracks_placed h) h.writable rfl c
  exact ⟨placed_tracks h (Bufio.putc_modes fd.cb f c) (hu.trans h.unget) hp,hr⟩

theorem fflush_tracks (h : Tracks fd f i) : Tracks fd (f.fflush fd.cb).1 i ∧ (f.fflush fd.cb).2 = 0 := by
  obtain ⟨hp,hr⟩ := fflush_placed (tracks_placed h)
  exact ⟨placed_tracks h (Bufio.fflush_modes fd.cb f) rfl hp,hr⟩

theorem ftell_tracks (h : Tracks fd f i) : Tracks fd (f.ftell fd.cb).1 i ∧ (f.ftell fd.cb).2 = i.pos := by
  obtain ⟨hp,hr,hu⟩ := ftell_placed (tracks_placed h) h.ext
  rw [if_neg (not_not.mpr h.unget)] at hr
  exact ⟨placed_tracks h (Bufio.ftell_modes fd.cb f) (hu.trans h.unget) hp,hr⟩

theorem fseek_tracks (h : Tracks fd f i) (o : Int) (w : Whence)
    (hw : 0 ≤ w.target i.bytes.length i.pos o) :
    Tracks fd (f.fseek fd.cb o w).1 ⟨i.bytes,(w.target i.bytes.length i.pos o).toNat⟩ ∧
      (f.fseek fd.cb o w).2 = 0 := by
  obtain ⟨hp,hr,hu⟩ := fseek_placed (tracks_placed h) h.ext o w hw
  exact ⟨placed_tracks h (Bufio.fseek_modes fd.cb f o w) hu hp,hr⟩

theorem apply_tracks (cfg : Build) (f : Bufio D) (i : Ideal) (op : FileOp) (h : Tracks fd f i)
    (ho : i.ok op) :
    Tracks fd (f.apply cfg fd.cb op).1 (i.step op).1 ∧ (f.apply cfg fd.cb op).2 = (i.step op).2 := by
  cases op with
  | getc => exact getc_tracks h
  | putc c => exact putc_tracks h c
  | fflush => exact fflush_tracks h
  | ftell => exact ftell_tracks h
  | fseek o w => exact fseek_tracks h o w ho

theorem fflush_content (h : Tracks fd f i) : fd.content (f.fflush fd.cb).1.dev = i.bytes := by
  obtain ⟨-,hc⟩ := flushLocked_empties (tracks_placed h)
  exact hc.content

theorem opened_tracks (fd : Descriptor D) (dev : D) (buf : Mem) (size : Nat) (bflags : BFlags)
    (h : 0 < size) :
    Tracks fd { fdevSetupBufio dev buf size true true bflags with pos := fd.offset dev }
      ⟨fd.content dev,fd.offset dev⟩ := by
  refine ⟨rfl,rfl,rfl,rfl,h,rfl,?_⟩
  exact ⟨rfl,rfl,rfl,rfl⟩

end

theorem bufio_refines_file {D : Type} (cfg : Build) (fd : Descriptor D) (dev : D) (buf : Mem)
    (size : Nat) (bflags : BFlags) (hs : 1 ≤ size) (ops : List FileOp)
    (ho : Along Ideal.step Ideal.ok ⟨fd.content dev,fd.offset dev⟩ ops) :
    let f : Bufio D := { fdevSetupBufio dev buf size true true bflags with pos := fd.offset dev }
    let i : Ideal := ⟨fd.content dev,fd.offset dev⟩
    (run (Bufio.apply cfg fd.cb) f ops).2 = (run Ideal.step i ops).2 ∧
      (∀ pre, pre <+: ops →
        Tracks fd (run (Bufio.apply cfg fd.cb) f pre).1 (run Ideal.step i pre).1) ∧
      fd.content ((run (Bufio.apply cfg fd.cb) f ops).1.fflush fd.cb).1.dev =
        (run Ideal.step i ops).1.bytes := by
  have h0 := opened_tracks fd dev buf size bflags hs
  obtain ⟨ht,hr⟩ := run_simulates (apply_tracks cfg) h0 ho
  refine ⟨hr,?_,fflush_content ht⟩
  rintro pre ⟨post,rfl⟩
  exact (run_simulates (apply_tracks cfg) h0 (along_append ho).1).1

structure Disk where
  content : List UInt8
  offset : Nat
  script : List Nat
  deriving DecidableEq, Repr

namespace Disk

def portion (d : Disk) (n : Nat) : Nat :=
  match d.script with
  | [] => n
  | k :: _ => min (k + 1) n

theorem portion_le (d : Disk) (n : Nat) : d.portion n ≤ n := by
  unfold portion
  split <;> omega

theorem portion_pos (d : Disk) {n : Nat} (h : 0 < n) : 0 < d.portion n := by
  unfold portion
  split <;> omega

def read (d : Disk) (n : Nat) : Disk × Option { l : List UInt8 // l.length ≤ n } :=
  let l := (d.content.drop d.offset).take (d.portion n)
  (⟨d.content,d.offset + l.length,d.script.tail⟩,some ⟨l,by
    have h := d.portion_le n
    simp only [l,List.length_take]
    omega⟩)

def write (d : Disk) (l : List UInt8) : Disk × Option { n : Nat // n ≤ l.length } :=
  let n := d.portion l.length
  (⟨overwrite d.content d.offset (l.take n),d.offset + n,d.script.tail⟩,some ⟨n,d.portion_le _⟩)

def lseek (d : Disk) (o : Int) (w : Whence) : Disk × Int :=
  let t := w.target d.content.length d.offset o
  if 0 ≤ t then ({ d with offset := t.toNat },t) else (d,-1)

def descriptor : Descriptor Disk where
  cb := ⟨read,write,some lseek,none⟩
  content := content
  offset := offset
  lseek := lseek
  seekable := rfl
  reads := by
    intro d n hn
    refine ⟨_,rfl,List.take_prefix _ _,?_,rfl,rfl⟩
    have hp := d.portion_pos hn
    rw [List.take_eq_nil_iff,List.drop_eq_nil_iff]
    omega
  writes := by
    intro d l hl
    exact ⟨_,rfl,d.portion_pos (List.length_pos_iff.mpr hl),rfl,rfl⟩
  lseeks := by
    intro d o w h
    rw [lseek,if_pos h]
    exact ⟨rfl,rfl,rfl⟩

end Disk

theorem bufio_refines_short_transfers :
    let ops : List FileOp := [.getc,.putc 9,.putc 10,.ftell,.fseek (-1) .fin,.getc,.getc,.fseek 2 .cur,
      .putc 7,.fseek 0 .set,.getc]
    let f : Bufio Disk := { fdevSetupBufio ⟨[1,2,3,4,5],1,[0,1,0]⟩ (fun _ => 0) 2 true true
      ⟨false,true,false⟩ with pos := 1 }
    (run (Bufio.apply ⟨false,false,64⟩ Disk.descriptor.cb) f ops).2 =
      [2,9,10,4,0,5,-1,0,7,0,1] ∧
      ((run (Bufio.apply ⟨false,false,64⟩ Disk.descriptor.cb) f ops).1.fflush
        Disk.descriptor.cb).1.dev.content = [1,2,9,10,5,0,0,7] := by
  have h := bufio_refines_file ⟨false,false,64⟩ Disk.descriptor ⟨[1,2,3,4,5],1,[0,1,0]⟩ (fun _ => 0) 2
    ⟨false,true,false⟩ (by decide) [.getc,.putc 9,.putc 10,.ftell,.fseek (-1) .fin,.getc,.getc,
      .fseek 2 .cur,.putc 7,.fseek 0 .set,.getc] (by
    simp [Along,Ideal.ok,Ideal.step,Ideal.getc,Whence.target,Disk.descriptor,put])
  exact ⟨h.1.trans (by decide),h.2.2.trans (by decide)⟩

end Stdio
