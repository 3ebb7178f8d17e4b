import Mathlib
import Picolibc.Stdio.PushBack

namespace Stdio

open ByteMemory FileArray Simulation

section

variable {D : Type} (fd : FileDevice D)

def fdopenAppend (dev : D) (buf : Mem) (size : Nat) (rd : Bool) (bflags : BFlags) : Bufio D :=
  ((fdevSetupBufio dev buf size rd true bflags).fseek fd.cb 0 .fin).1

def AppendOk (f : Bufio D) : FileOp → Prop
  | .putc _ => f.dir = .wr ∨ f.pos - f.len + f.off = (fd.content f.dev).length
  | _ => True

structure Appending (rd : Bool) (f : Bufio D) : Prop where
  placed : ∃ i, Placed fd f i
  unget : f.unget = 0
  sext : f.flags.sext = true
  srd : f.flags.srd = rd
  swr : f.flags.swr = true

variable {fd} {rd : Bool} {f g : Bufio D} {i : Ideal}

theorem fdopenAppend_placed (dev : D) (buf : Mem) {size : Nat} (hs : 0 < size) (rd : Bool) (bflags : BFlags) :
    Appending fd rd (fdopenAppend fd dev buf size rd bflags) := by
  obtain ⟨hr,hc,ho⟩ := fd.lseeks dev 0 .fin (by simp [Whence.target])
  rw [Whence.target,Int.add_zero] at hr ho
  rw [Int.toNat_natCast] at ho
  have hseek : (fdevSetupBufio dev buf size rd true bflags).seek fd.cb 0 .fin =
      ({ fdevSetupBufio (fd.lseek dev 0 .fin).1 buf size rd true bflags with
        dir := .rd, pos := (fd.content dev).length },((fd.content dev).length : Int)) := by
    rw [seek_eq fd.seekable (fun h => (by cases h))]
    simp only [Bufio.lseekTo,bufioLseek,fd.seekable]
    rw [show (fdevSetupBufio dev buf size rd true bflags).dev = dev from rfl,hr,if_pos (by simp)]
    rfl
  have heq : (fdevSetupBufio dev buf size rd true bflags).fseek fd.cb 0 .fin =
      ({ fdevSetupBufio (fd.lseek dev 0 .fin).1 buf size rd true bflags with
        dir := .rd, pos := (fd.content dev).length },0) := by
    rw [Bufio.fseek,if_pos (show (fdevSetupBufio dev buf size rd true bflags).flags.sext = true from rfl),hseek]
    dsimp only
    rw [if_pos (by simp)]
    rfl
  rw [fdopenAppend,heq]
  refine ⟨⟨⟨fd.content dev,(fd.content dev).length⟩,placed_rd rfl hs ?_ ?_⟩,rfl,rfl,rfl,rfl⟩
  · exact congrArg Nat.cast ho.symm
  · exact view_empty rfl rfl hc ho

theorem seek_anywhere (hrej : fd.Rejects) (h : Placed fd f i) (o : Int) (w : Whence) :
    ∃ j, Placed fd (f.seek fd.cb o w).1 j := by
  obtain ⟨g,hg,hp,hd⟩ := setdirLocked_placed h .rd (fun hd => (by cases hd))
  have hset : ∀ o, ∃ j, Placed fd (g.seekSet fd.cb o).1 j := by
    intro o
    rw [Bufio.seekSet]
    split_ifs
    · exact ⟨_,advance_placed hp hd (by omega)⟩
    · exact lseekTo_anywhere hrej hp hd o (by decide)
  unfold Bufio.seek
  simp only [bufioSeekable,fd.seekable,Option.isSome_some,reduceCtorEq,hg,Int.lt_irrefl,if_false]
  cases w with
  | set => exact hset o
  | cur => exact hset _
  | fin => exact lseekTo_anywhere hrej hp hd o (by decide)

theorem fseek_anywhere (hrej : fd.Rejects) (h : Placed fd f i) (hu : f.unget = 0) (o : Int) (w : Whence) :
    (∃ j, Placed fd (f.fseek fd.cb o w).1 j) ∧ (f.fseek fd.cb o w).1.unget = 0 := by
  obtain ⟨j,hp⟩ := seek_anywhere hrej h o w
  rw [Bufio.fseek]
  split_ifs
  · dsimp only
    split_ifs
    · exact ⟨⟨j,hp.size,hp.pos,hp.view,hp.start⟩,rfl⟩
    · exact ⟨⟨j,hp⟩,(Bufio.seek_marks fd.cb f o w).2.trans hu⟩
  · exact ⟨⟨i,h⟩,hu⟩

theorem getc_anywhere (h : Placed fd f i) (hu : f.unget = 0) :
    (∃ j, Placed fd (f.getc fd.cb).1 j) ∧ (f.getc fd.cb).1.unget = 0 := by
  cases hr : f.flags.srd with
  | true =>
    obtain ⟨hp,-,hu'⟩ := getc_placed h hr hu
    exact ⟨⟨_,hp⟩,hu'⟩
  | false =>
    rw [Bufio.getc,if_pos hr]
    exact ⟨⟨i,h.size,h.pos,h.view,h.start⟩,hu⟩

theorem appendOk_atEnd (ha : fd.append = true) (h : Placed fd f i) {c : UInt8} (hok : AppendOk fd f (.putc c)) :
    AtEnd fd.append i := by
  rcases hok with hd | hpos
  · exact placed_atEnd h hd
  · cases hd : f.dir with
    | wr => exact placed_atEnd h hd
    | rd =>
      obtain ⟨h1,h2,-,h4,h5⟩ := view_rd h.view hd
      have hp := h.pos
      rw [ha]
      exact show i.bytes.length = i.pos by rw [h4]; omega
    | idle =>
      have hv := h.view
      simp only [View,hd] at hv
      obtain ⟨hl,ho,hb,hp⟩ := hv
      have hpos' := h.pos
      rw [ha]
      exact show i.bytes.length = i.pos by rw [hb]; omega

theorem Appending.keeps (h : Appending fd rd f) (hm : Bufio.SameModes f g) (hu : g.unget = 0)
    (hp : ∃ j, Placed fd g j) : Appending fd rd g :=
  ⟨hp,hu,hm.sext.trans h.sext,hm.srd.trans h.srd,hm.swr.trans h.swr⟩

theorem apply_appending (cfg : Build) (ha : fd.append = true) (hrej : fd.Rejects) (op : FileOp) (h : Appending fd rd f)
    (hok : AppendOk fd f op) : Appending fd rd (f.apply cfg fd.cb op).1 := by
  obtain ⟨i,hp⟩ := h.placed
  cases op with
  | getc =>
    obtain ⟨hq,hu⟩ := getc_anywhere hp h.unget
    exact h.keeps (Bufio.getc_modes fd.cb f) hu hq
  | putc c =>
    obtain ⟨hq,-,hu⟩ := putc_placed hp h.swr (appendOk_atEnd ha hp hok) c
    exact h.keeps (Bufio.putc_modes fd.cb f c) (hu.trans h.unget) ⟨_,hq⟩
  | fflush => exact h.keeps (Bufio.fflush_modes fd.cb f) rfl ⟨i,(fflush_placed hp).1⟩
  | ftell =>
    obtain ⟨hq,-,hu⟩ := ftell_placed hp h.sext
    exact h.keeps (Bufio.ftell_modes fd.cb f) (hu.trans h.unget) ⟨i,hq⟩
  | fseek o w =>
    obtain ⟨hq,hu⟩ := fseek_anywhere hrej hp h.unget o w
    exact h.keeps (Bufio.fseek_modes fd.cb f o w) hu hq

end

theorem append_tracks_position {D : Type} (cfg : Build) (fd : FileDevice D) (ha : fd.append = true) (hrej : fd.Rejects)
    (dev : D) (buf : Mem) {size : Nat} (hs : 0 < size) (rd : Bool) (bflags : BFlags) (ops : List FileOp)
    (hok : Along (Bufio.apply cfg fd.cb) (AppendOk fd) (fdopenAppend fd dev buf size rd bflags) ops) :
    let f := (run (Bufio.apply cfg fd.cb) (fdopenAppend fd dev buf size rd bflags) ops).1
    let g := (f.fflush fd.cb).1
    let tell := (g.ftell fd.cb).2
    f.pos = fd.offset f.dev ∧ g.pos = fd.offset g.dev ∧ (f.dir = .wr → tell = (fd.content g.dev).length) ∧
      ∀ (o : Int) (w : Whence), 0 ≤ w.target (fd.content g.dev).length tell.toNat o →
        let t := w.target (fd.content g.dev).length tell.toNat o
        let s := g.fseek fd.cb o w
        s.2 = 0 ∧ (s.1.ftell fd.cb).2 = t ∧ (rd = true → (s.1.getc fd.cb).2 = byteAt (fd.content g.dev) t) := by
  intro f g tell
  have hf : Appending fd rd f :=
    run_preserves (fun _ op h ho => apply_appending cfg ha hrej op h ho) (fdopenAppend_placed dev buf hs rd bflags) hok
  obtain ⟨i,hp⟩ := hf.placed
  have hg : Appending fd rd g := hf.keeps (Bufio.fflush_modes fd.cb f) rfl ⟨i,(fflush_placed hp).1⟩
  have hpg : Placed fd g i := (fflush_placed hp).1
  have hempty := (flushLocked_empties hp).2
  have hfile : fd.content g.dev = i.bytes := hempty.content
  obtain ⟨-,htell,-⟩ := ftell_placed hpg hg.sext
  rw [if_neg (not_not.mpr hg.unget)] at htell
  have ht : tell = i.pos := htell
  refine ⟨hp.pos,hpg.pos,?_,?_⟩
  · intro hd
    have hend := placed_atEnd hp hd
    rw [ha] at hend
    have hlen : i.bytes.length = i.pos := hend
    rw [ht,hfile,hlen]
  · rw [hfile,ht,Int.toNat_natCast]
    intro o w hw
    obtain ⟨hret,hland,hbyte⟩ := fseek_lands hpg hg.sext o w hw
    exact ⟨hret,hland,fun hrd => hbyte (hg.srd.trans hrd)⟩

def Disk.writeEnd (d : Disk) (l : List UInt8) : Disk × Option { n : Nat // n ≤ l.length } :=
  let n := d.portion l.length
  (⟨overwrite d.content d.content.length (l.take n),d.content.length + n,d.script.tail⟩,(d.write l).2)

def Disk.appendDevice : FileDevice Disk where
  cb := ⟨Disk.read,Disk.writeEnd,some Disk.lseek,none⟩
  content := Disk.content
  offset := Disk.offset
  append := true
  lseek := Disk.lseek
  seekable := rfl
  reads := Disk.descriptor.reads
  writes := by
    intro d l hl
    exact ⟨_,rfl,d.portion_pos (List.length_pos_iff.mpr hl),rfl,rfl⟩
  lseeks := Disk.descriptor.lseeks

theorem append_tracks_position_reading :
    let f := (run (Bufio.apply ⟨false,false,64⟩ Disk.appendDevice.cb)
      (fdopenAppend Disk.appendDevice ⟨[1,2,3],0,[0,1]⟩ (fun _ => 0) 2 true ⟨false,false,false⟩)
      [.putc 9,.fseek (-2) .fin,.getc,.fseek 0 .fin,.putc 8]).1
    let g := (f.fflush Disk.appendDevice.cb).1
    (g.ftell Disk.appendDevice.cb).2 = 5 := by
  have h := append_tracks_position ⟨false,false,64⟩ Disk.appendDevice rfl disk_rejects ⟨[1,2,3],0,[0,1]⟩ (fun _ => 0)
    (show 0 < 2 by decide) true ⟨false,false,false⟩ [.putc 9,.fseek (-2) .fin,.getc,.fseek 0 .fin,.putc 8]
    ⟨.inr (by decide),trivial,trivial,trivial,.inr (by decide),trivial⟩
  exact (h.2.2.1 (by decide)).trans (by decide)

theorem append_after_seek_astray :
    let f := (run (Bufio.apply ⟨false,false,64⟩ Disk.appendDevice.cb)
      (fdopenAppend Disk.appendDevice ⟨[1,2,3],0,[]⟩ (fun _ => 0) 4 true ⟨false,false,false⟩)
      [.fseek 0 .set,.putc 9,.fflush]).1
    f.pos = 1 ∧ Disk.appendDevice.offset f.dev = 4 ∧ (f.ftell Disk.appendDevice.cb).2 = 1 ∧
      (Disk.appendDevice.content f.dev).length = 4 := by
  decide

end Stdio
