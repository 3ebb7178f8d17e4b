import Mathlib
import Picolibc.Stdio.Calls

namespace Stdio

open ByteMemory

variable {D : Type} {cb : Callbacks D} {f : Bufio D}

namespace Bufio

theorem flushWrite_frame (cb : Callbacks D) (fuel : Nat) (f : Bufio D) (start : Nat) (hl : f.len ≤ fuel) :
    ∃ d p r, f.flushWrite cb fuel start = ({ f with dev := d, pos := p, len := 0 },r) ∧
      (r = 0 ∨ r = fdevErr) := by
  induction fuel generalizing f start with
  | zero =>
    have h0 : f.len = 0 := by omega
    exact ⟨f.dev,f.pos,0,by rw [flushWrite,← h0],.inl rfl⟩
  | succ fuel ih =>
    by_cases h0 : f.len = 0
    · exact ⟨f.dev,f.pos,0,by rw [flushWrite,if_pos h0,← h0],.inl rfl⟩
    · rw [flushWrite,if_neg h0]
      rcases cb.write f.dev (slice f.buf start f.len) with ⟨d,_ | this⟩
      · exact ⟨d,f.pos,fdevErr,rfl,.inr rfl⟩
      · dsimp only
        by_cases h1 : this.val = 0
        · rw [if_pos h1]
          exact ⟨d,f.pos,fdevErr,rfl,.inr rfl⟩
        · rw [if_neg h1]
          obtain ⟨d',p,r,heq,hr⟩ := ih { f with dev := d, pos := f.pos + this.val, len := f.len - this.val }
            (start + this.val) (by dsimp only; omega)
          exact ⟨d',p,r,heq,hr⟩

theorem flushLocked_wr (cb : Callbacks D) (hd : f.dir = .wr) :
    ∃ d p r, f.flushLocked cb = ({ f with dev := d, pos := p, len := 0 },r) ∧ (r = 0 ∨ r = fdevErr) := by
  obtain ⟨d,p,r,heq,hr⟩ := flushWrite_frame cb f.len f 0 le_rfl
  refine ⟨d,p,r,?_,hr⟩
  rw [← heq]
  simp only [flushLocked,hd]

theorem flushLocked_rd (cb : Callbacks D) (hd : f.dir = .rd) : f.flushLocked cb = (f.flushRead cb,0) := by
  rw [flushLocked,hd]

theorem flushLocked_idle (cb : Callbacks D) (hd : f.dir = .idle) : f.flushLocked cb = (f,0) := by
  rw [flushLocked,hd]

theorem flushRead_frame (cb : Callbacks D) (f : Bufio D) :
    ∃ d p, f.flushRead cb = { f with dev := d, pos := p, len := 0, off := 0 } := by
  rw [flushRead]
  split_ifs
  · exact ⟨_,_,rfl⟩
  · exact ⟨f.dev,f.pos,rfl⟩

theorem setdirLocked_same (cb : Callbacks D) {d : Dir} (hd : f.dir = d) : f.setdirLocked cb d = (f,0) := by
  rw [setdirLocked,if_neg (by simpa using hd)]

theorem setdirLocked_idle (cb : Callbacks D) {d : Dir} (hd : f.dir = .idle) :
    f.setdirLocked cb d = ({ f with dir := d },0) := by
  rw [setdirLocked,flushLocked_idle cb hd]
  by_cases h : f.dir = d
  · rw [if_neg (by simpa using h),← h]
  · rw [if_pos h]

theorem setdirLocked_rd_wr (cb : Callbacks D) (hd : f.dir = .rd) :
    f.setdirLocked cb .wr = ({ f.flushRead cb with dir := .wr },0) := by
  rw [setdirLocked,if_pos (by rw [hd]; decide),flushLocked_rd cb hd]

theorem setdirLocked_wr_rd (cb : Callbacks D) (hd : f.dir = .wr) :
    ∃ d p r, f.setdirLocked cb .rd = ({ f with dir := .rd, dev := d, pos := p, len := 0 },r) ∧
      (r = 0 ∨ r = fdevErr) := by
  obtain ⟨d,p,r,heq,hr⟩ := flushLocked_wr cb hd
  exact ⟨d,p,r,by rw [setdirLocked,if_pos (by rw [hd]; decide),heq],hr⟩

theorem setdirLocked_rd_empty (cb : Callbacks D) (hn : f.dir = .wr → f.len = 0) :
    f.setdirLocked cb .rd = ({ f with dir := .rd },0) := by
  cases hd : f.dir with
  | rd => rw [setdirLocked_same cb hd,← hd]
  | idle => exact setdirLocked_idle cb hd
  | wr =>
    have h0 := hn hd
    have hflush : f.flushLocked cb = (f,0) := by
      rw [flushLocked,hd]
      dsimp only
      rw [h0,flushWrite]
    rw [setdirLocked,if_pos (by rw [hd]; decide),hflush]

theorem setdirLocked_wr_ok (cb : Callbacks D) (f : Bufio D) : ∃ g, f.setdirLocked cb .wr = (g,0) ∧
    g.dir = .wr ∧ (f.dir = .wr → g = f) ∧ (f.dir = .idle → g = { f with dir := .wr }) ∧
    (f.dir = .rd → g = { f.flushRead cb with dir := .wr }) := by
  cases hd : f.dir with
  | wr => exact ⟨f,setdirLocked_same cb hd,hd,fun _ => rfl,fun h => (by cases h),fun h => (by cases h)⟩
  | idle =>
    exact ⟨_,setdirLocked_idle cb hd,rfl,fun h => (by cases h),fun _ => rfl,fun h => (by cases h)⟩
  | rd =>
    exact ⟨_,setdirLocked_rd_wr cb hd,rfl,fun h => (by cases h),fun h => (by cases h),fun _ => rfl⟩

theorem setdirLocked_dir (cb : Callbacks D) (f : Bufio D) (d : Dir) : (f.setdirLocked cb d).1.dir = d := by
  rw [setdirLocked]
  split_ifs with h
  · rfl
  · exact not_not.mp h

def Marks (f g : Bufio D) : Prop := g.flags = f.flags ∧ g.unget = f.unget

theorem Marks.trans {f g h : Bufio D} (h1 : Marks f g) (h2 : Marks g h) : Marks f h :=
  ⟨h2.1.trans h1.1,h2.2.trans h1.2⟩

theorem flushLocked_marks (cb : Callbacks D) (f : Bufio D) : Marks f (f.flushLocked cb).1 := by
  cases hd : f.dir with
  | wr =>
    obtain ⟨d,p,r,heq,-⟩ := flushLocked_wr cb hd
    rw [heq]
    exact ⟨rfl,rfl⟩
  | rd =>
    obtain ⟨d,p,heq⟩ := flushRead_frame cb f
    rw [flushLocked_rd cb hd,heq]
    exact ⟨rfl,rfl⟩
  | idle =>
    rw [flushLocked_idle cb hd]
    exact ⟨rfl,rfl⟩

theorem setdirLocked_marks (cb : Callbacks D) (f : Bufio D) (d : Dir) : Marks f (f.setdirLocked cb d).1 := by
  rw [setdirLocked]
  split_ifs
  · exact flushLocked_marks cb f
  · exact ⟨rfl,rfl⟩

theorem put_marks (cb : Callbacks D) (f : Bufio D) (c : UInt8) : Marks f (f.put cb c).1 := by
  have hdir := setdirLocked_marks cb f .wr
  rw [put]
  dsimp only
  split_ifs
  · exact hdir
  · exact hdir.trans (flushLocked_marks cb _)
  · exact hdir.trans (flushLocked_marks cb _)
  · exact hdir

theorem fillLocked_marks (cb : Callbacks D) (f : Bufio D) : Marks f (f.fillLocked cb).1 := by
  rw [fillLocked]
  rcases cb.read f.dev f.size with ⟨d,_ | l⟩
  · exact ⟨rfl,rfl⟩
  · dsimp only
    split_ifs
    · exact ⟨rfl,rfl⟩
    · exact ⟨rfl,rfl⟩

theorem get_marks (cb : Callbacks D) (f : Bufio D) : Marks f (f.get cb).1 := by
  have hdir := setdirLocked_marks cb f .rd
  rw [get]
  dsimp only
  split_ifs
  · exact hdir
  · exact hdir.trans (fillLocked_marks cb _)
  · exact hdir.trans (fillLocked_marks cb _)
  · exact hdir

theorem seek_marks (cb : Callbacks D) (f : Bufio D) (o : Int) (w : Whence) : Marks f (f.seek cb o w).1 := by
  have hdir := setdirLocked_marks cb f .rd
  have hset : ∀ o, Marks f ((f.setdirLocked cb .rd).1.seekSet cb o).1 := by
    intro o
    rw [seekSet]
    split_ifs
    · exact hdir
    · exact hdir
  rw [seek]
  split_ifs
  · exact ⟨rfl,rfl⟩
  · dsimp only
    split_ifs
    · exact hdir
    · cases w with
      | set => exact hset o
      | cur => exact hset _
      | fin => exact hdir

structure SameModes (f g : Bufio D) : Prop where
  srd : g.flags.srd = f.flags.srd
  swr : g.flags.swr = f.flags.swr
  sext : g.flags.sext = f.flags.sext

theorem Marks.modes {f g : Bufio D} (h : Marks f g) : SameModes f g :=
  ⟨congrArg Flags.srd h.1,congrArg Flags.swr h.1,congrArg Flags.sext h.1⟩

theorem endOrErr_modes (f : Bufio D) (rv : Int) : SameModes f (f.endOrErr rv) := by
  rw [endOrErr]
  split_ifs
  · exact ⟨rfl,rfl,rfl⟩
  · exact ⟨rfl,rfl,rfl⟩

theorem getc_modes (cb : Callbacks D) (f : Bufio D) : SameModes f (f.getc cb).1 := by
  have hget := (get_marks cb f).modes
  rw [getc]
  split_ifs
  · exact ⟨rfl,rfl,rfl⟩
  · exact ⟨rfl,rfl,rfl⟩
  · have hend := endOrErr_modes (f.get cb).1 (f.get cb).2
    dsimp only
    split_ifs
    · exact ⟨hend.srd.trans hget.srd,hend.swr.trans hget.swr,hend.sext.trans hget.sext⟩
    · exact hget

theorem putc_modes (cb : Callbacks D) (f : Bufio D) (c : UInt8) : SameModes f (f.putc cb c).1 := by
  have hput := (put_marks cb f c).modes
  rw [putc]
  split_ifs
  · exact ⟨rfl,rfl,rfl⟩
  · dsimp only
    split_ifs
    · exact ⟨hput.srd,hput.swr,hput.sext⟩
    · exact hput

theorem fflush_modes (cb : Callbacks D) (f : Bufio D) : SameModes f (f.fflush cb).1 := by
  have hflush := (flushLocked_marks cb f).modes
  exact ⟨hflush.srd,hflush.swr,hflush.sext⟩

theorem ftell_modes (cb : Callbacks D) (f : Bufio D) : SameModes f (f.ftell cb).1 := by
  rw [ftell]
  split_ifs
  · exact (seek_marks cb f 0 .cur).modes
  · exact ⟨rfl,rfl,rfl⟩

theorem fseek_modes (cb : Callbacks D) (f : Bufio D) (o : Int) (w : Whence) : SameModes f (f.fseek cb o w).1 := by
  have hseek := (seek_marks cb f o w).modes
  rw [fseek]
  split_ifs
  · dsimp only
    split_ifs
    · exact ⟨hseek.srd,hseek.swr,hseek.sext⟩
    · exact hseek
  · exact ⟨rfl,rfl,rfl⟩

end Bufio

end Stdio
