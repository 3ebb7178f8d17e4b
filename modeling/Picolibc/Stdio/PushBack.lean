import Mathlib
import Picolibc.Stdio.FailedSeek
import Picolibc.Stdio.Refinement

namespace Stdio

open ByteMemory FileArray Simulation

section

variable {D : Type} {fd : FileDevice D} {f g : Bufio D} {i : Ideal}

theorem append_placed (h : Placed fd f i) (hd : f.dir = .wr) (l : List UInt8) :
    Placed fd { f with buf := splice f.buf f.len l, len := f.len + l.length }
      ⟨overwrite i.bytes i.pos l,i.pos + l.length⟩ := by
  obtain ⟨ho,hb,hp⟩ := view_wr h.view hd
  refine ⟨h.size,h.pos,?_,h.start⟩
  simp only [View,hd]
  refine ⟨ho,?_,by omega⟩
  rw [slice_splice_append,overwrite_append,slice_length,← hb,hp]

theorem advance_placed (h : Placed fd f i) (hd : f.dir = .rd) {k : Nat} (hk : k ≤ f.len) :
    Placed fd { f with off := k } ⟨i.bytes,fd.offset f.dev - f.len + k⟩ := by
  obtain ⟨h1,h2,h3,h4,h5⟩ := view_rd h.view hd
  refine placed_rd hd h.size h.pos ?_
  simp only [View,hd]
  exact ⟨hk,h2,h3,h4,trivial⟩

theorem readPast_placed (h : Placed fd f i) (hd : f.dir = .rd) {n : Nat} (hn : 0 < n) :
    ∃ j, Placed fd (f.readPast fd.cb n) j := by
  obtain ⟨l,hread,-,-,-,hoff⟩ := fd.reads f.dev n hn
  rw [Bufio.readPast]
  generalize hres : fd.cb.read f.dev n = res at hread hoff
  obtain ⟨d,_⟩ := res
  subst hread
  refine ⟨⟨fd.content d,fd.offset d⟩,placed_rd hd h.size ?_ (view_empty rfl rfl rfl rfl)⟩
  dsimp only at hoff ⊢
  rw [hoff,h.pos,Nat.cast_add]

theorem writePast_placed (ha : fd.append = false) (h : Placed fd f i) (hd : f.dir = .wr) (he : f.len = 0)
    {l : List UInt8} (hl : l ≠ []) : ∃ j, Placed fd (f.writePast fd.cb l) j := by
  obtain ⟨ho,-,-⟩ := view_wr h.view hd
  obtain ⟨n,hwrite,-,-,hoff⟩ := fd.writes f.dev l hl
  rw [ha,writeStart,if_neg Bool.false_ne_true] at hoff
  rw [Bufio.writePast]
  generalize hres : fd.cb.write f.dev l = res at hwrite hoff
  obtain ⟨d,_⟩ := res
  subst hwrite
  refine ⟨⟨fd.content d,fd.offset d⟩,h.size,?_,view_empty he ho rfl rfl,?_⟩
  · dsimp only at hoff ⊢
    rw [hoff,h.pos,Nat.cast_add]
  · intro _
    rw [ha]
    rfl

theorem lseekTo_fails_placed (h : Placed fd f i) (hd : f.dir = .rd) {o : Int} {w : Whence}
    (hneg : (fd.lseek f.dev o w).2 < 0) (hkeep : (fd.lseek f.dev o w).1 = f.dev) :
    Placed fd (f.lseekTo fd.cb o w).1 ⟨fd.content f.dev,fd.offset f.dev⟩ := by
  simp only [Bufio.lseekTo,bufioLseek,fd.seekable,hkeep]
  rw [if_neg (by omega)]
  exact placed_rd hd h.size h.pos (view_empty rfl rfl rfl rfl)

def FileDevice.Rejects (fd : FileDevice D) : Prop :=
  ∀ d o w, w.target (fd.content d).length (fd.offset d) o < 0 → (fd.lseek d o w).2 < 0 ∧ (fd.lseek d o w).1 = d

theorem lseekTo_anywhere (hrej : fd.Rejects) (h : Placed fd f i) (hd : f.dir = .rd) (o : Int) {w : Whence}
    (hw : w ≠ .cur) : ∃ j, Placed fd (f.lseekTo fd.cb o w).1 j := by
  obtain ⟨-,-,-,h4,-⟩ := view_rd h.view hd
  by_cases ht : 0 ≤ w.target i.bytes.length i.pos o
  · exact ⟨_,(lseekTo_placed h hd o w hw ht).2⟩
  · have htarget : w.target (fd.content f.dev).length (fd.offset f.dev) o < 0 := by
      cases w with
      | set => exact Int.not_le.mp ht
      | cur => exact absurd rfl hw
      | fin =>
        rw [h4] at ht
        exact Int.not_le.mp ht
    obtain ⟨hneg,hkeep⟩ := hrej f.dev o w htarget
    exact ⟨_,lseekTo_fails_placed h hd hneg hkeep⟩

theorem move_placed (ha : fd.append = false) (hrej : fd.Rejects) (hm : Move fd.cb f g) (hf : ∃ i, Placed fd f i) :
    ∃ j, Placed fd g j := by
  obtain ⟨i,h⟩ := hf
  have hend : ∀ j, AtEnd fd.append j := by
    intro j
    rw [ha]
    rfl
  cases hm with
  | marked u fl hk => exact ⟨i,h.size,h.pos,h.view,h.start⟩
  | flushed => exact ⟨i,(flushLocked_placed h).2⟩
  | turned d =>
    obtain ⟨g,hg,hp,-⟩ := setdirLocked_placed h d (fun _ => hend i)
    rw [hg]
    exact ⟨i,hp⟩
  | stored c hd => exact ⟨_,store_placed h hd c⟩
  | appended l hd => exact ⟨_,append_placed h hd l⟩
  | filled hd he =>
    obtain ⟨g,hp,-,⟨hg,-⟩ | ⟨hg,-⟩⟩ := fillLocked_placed h hd he
    · rw [hg]
      exact ⟨i,hp⟩
    · rw [hg]
      exact ⟨i,hp⟩
  | advanced k hd hk => exact ⟨_,advance_placed h hd hk⟩
  | passed n hd he hn => exact readPast_placed h hd hn
  | sent l hd he hl => exact writePast_placed ha h hd he hl
  | sought o w hd hw => exact lseekTo_anywhere hrej h hd o hw

def byteAt (bytes : List UInt8) (t : Int) : Int := (bytes[t.toNat]?).elim eof (fun b => b.toNat)

structure MovesTo (fd : FileDevice D) (file : List UInt8) (g : Bufio D) (ret t : Int) : Prop where
  ok : ret = 0
  tell : (g.ftell fd.cb).2 = t
  byte : (g.getc fd.cb).2 = byteAt file t

theorem fseek_lands (h : Placed fd f i) (hx : f.flags.sext = true) (o : Int) (w : Whence)
    (ht : 0 ≤ w.target i.bytes.length i.pos o) : (f.fseek fd.cb o w).2 = 0 ∧
      ((f.fseek fd.cb o w).1.ftell fd.cb).2 = w.target i.bytes.length i.pos o ∧
      (f.flags.srd = true →
        ((f.fseek fd.cb o w).1.getc fd.cb).2 = byteAt i.bytes (w.target i.bytes.length i.pos o)) := by
  obtain ⟨hp,hr,hu⟩ := fseek_placed h hx o w ht
  have hmodes := Bufio.fseek_modes fd.cb f o w
  obtain ⟨-,htell,-⟩ := ftell_placed hp (hmodes.sext.trans hx)
  refine ⟨hr,?_,?_⟩
  · rw [htell,if_neg (not_not.mpr hu),Int.toNat_of_nonneg ht]
  · intro hsrd
    obtain ⟨-,hget,-⟩ := getc_placed hp (hmodes.srd.trans hsrd) hu
    rw [hget,Ideal.getc,byteAt]
    cases i.bytes[(w.target i.bytes.length i.pos o).toNat]? with
    | none => rfl
    | some b => rfl

theorem fseek_movesTo (h : Placed fd f i) (hm : f.flags.sext = true ∧ f.flags.srd = true) (o : Int) (w : Whence)
    (ht : 0 ≤ w.target i.bytes.length i.pos o) :
    MovesTo fd i.bytes (f.fseek fd.cb o w).1 (f.fseek fd.cb o w).2 (w.target i.bytes.length i.pos o) := by
  obtain ⟨hok,htell,hbyte⟩ := fseek_lands h hm.1 o w ht
  exact ⟨hok,htell,hbyte hm.2⟩

end

theorem fseek_cur_agrees_iff {D : Type} (cfg : Build) (fd : FileDevice D) (ha : fd.append = false) (hrej : fd.Rejects)
    (dev : D) (buf : Mem) {size : Nat} (hs : 0 < size) (wr : Bool) (bflags : BFlags) (calls : List Call)
    (hc : ∀ c ∈ calls, c ≠ .fclose) (k : Int) :
    let f := (run (Bufio.step cfg fd.cb)
      { fdevSetupBufio dev buf size true wr bflags with pos := fd.offset dev } calls).1
    let t := (f.ftell fd.cb).2
    let file := fd.content (f.fflush fd.cb).1.dev
    0 ≤ t + k →
      ((MovesTo fd file (f.fseek fd.cb k .cur).1 (f.fseek fd.cb k .cur).2 (t + k) ∧
        MovesTo fd file (f.fseek fd.cb (t + k) .set).1 (f.fseek fd.cb (t + k) .set).2 (t + k)) ↔ f.unget = 0) := by
  intro f t file hk
  have hmoves := run_moves cfg fd.cb { fdevSetupBufio dev buf size true wr bflags with pos := fd.offset dev } calls hc
  obtain ⟨i,h⟩ : ∃ i, Placed fd f i := by
    apply hmoves.preserves (fun _ _ => move_placed ha hrej)
    exact ⟨⟨fd.content dev,fd.offset dev⟩,hs,rfl,⟨rfl,rfl,rfl,rfl⟩,fun h => (by cases h)⟩
  have hkeeps := hmoves.keeps
  have hm : f.flags.sext = true ∧ f.flags.srd = true := ⟨hkeeps.sext rfl,hkeeps.srd rfl⟩
  have hfile : file = i.bytes := (flushLocked_empties h).2.content
  obtain ⟨-,htell,-⟩ := ftell_placed h hm.1
  have ht : t = if f.unget ≠ 0 then (i.pos : Int) - 1 else i.pos := htell
  rw [hfile]
  constructor
  · rintro ⟨hcur,-⟩
    by_contra hu
    rw [if_pos hu] at ht
    have hmove := (fseek_movesTo h hm k .cur (by rw [Whence.target]; omega)).tell
    rw [hcur.tell,Whence.target] at hmove
    omega
  · intro hu
    rw [if_neg (not_not.mpr hu)] at ht
    refine ⟨?_,fseek_movesTo h hm (t + k) .set hk⟩
    have hmove := fseek_movesTo h hm k .cur (by rw [Whence.target,← ht]; exact hk)
    rw [Whence.target,← ht] at hmove
    exact hmove

theorem disk_rejects : Disk.descriptor.device.Rejects := by
  intro d o w hneg
  have heq : Disk.lseek d o w = (d,-1) := by
    rw [Disk.lseek]
    exact if_neg (Int.not_le.mpr hneg)
  have hval : (Disk.lseek d o w).2 = -1 := congrArg Prod.snd heq
  exact ⟨show (Disk.lseek d o w).2 < 0 by omega,congrArg Prod.fst heq⟩

theorem fseek_cur_agrees_unpushed :
    let f := (run (Bufio.step ⟨false,false,64⟩ Disk.descriptor.device.cb)
      { fdevSetupBufio ⟨[1,2,3,4],0,[]⟩ (fun _ => 0) 2 true false ⟨false,false,false⟩ with pos := 0 } [.getc]).1
    (f.fseek Disk.descriptor.device.cb 2 .cur).1.getc Disk.descriptor.device.cb |>.2 = 4 := by
  have h := (fseek_cur_agrees_iff ⟨false,false,64⟩ Disk.descriptor.device rfl disk_rejects ⟨[1,2,3,4],0,[]⟩
    (fun _ => 0) (show 0 < 2 by decide) false ⟨false,false,false⟩ [.getc] (by simp) 2 (by decide)).mpr (by decide)
  exact h.1.byte.trans (by decide)

theorem fseek_cur_ignores_pushed :
    let f := (run (Bufio.step ⟨false,false,64⟩ Disk.descriptor.device.cb)
      { fdevSetupBufio ⟨[1,2,3,4],0,[]⟩ (fun _ => 0) 4 true false ⟨false,false,false⟩ with pos := 0 }
      [.getc,.ungetc 1]).1
    (f.ftell Disk.descriptor.device.cb).2 = 0 ∧
      ((f.fseek Disk.descriptor.device.cb 1 .cur).1.ftell Disk.descriptor.device.cb).2 = 2 ∧
      ((f.fseek Disk.descriptor.device.cb (0 + 1) .set).1.ftell Disk.descriptor.device.cb).2 = 1 ∧
      ((f.fseek Disk.descriptor.device.cb 1 .cur).1.getc Disk.descriptor.device.cb).2 = 3 ∧
      ((f.fseek Disk.descriptor.device.cb (0 + 1) .set).1.getc Disk.descriptor.device.cb).2 = 2 := by
  decide

end Stdio
