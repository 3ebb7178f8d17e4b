import Mathlib
import Picolibc.Lib.Simulation
import Picolibc.Stdio.Calls

namespace Stdio

open ByteMemory Simulation

variable {D : Type}

def taken {l : List UInt8} : Option { n : Nat // n ≤ l.length } → List UInt8
  | some n => l.take n.val
  | none => []

def logged (cb : Callbacks D) : Callbacks (D × List UInt8) where
  read := fun d n => (((cb.read d.1 n).1,d.2),(cb.read d.1 n).2)
  write := fun d l => (((cb.write d.1 l).1,d.2 ++ taken (cb.write d.1 l).2),(cb.write d.1 l).2)
  lseek := cb.lseek.map (fun lseek d o w => (((lseek d.1 o w).1,d.2),(lseek d.1 o w).2))
  close := cb.close.map (fun close d => (((close d.1).1,d.2),(close d.1).2))

inductive Accepts (cb : Callbacks D) : D → List UInt8 → Prop
  | nil (d : D) : Accepts cb d []
  | more {d d' : D} {l : List UInt8} {n : { n : Nat // n ≤ l.length }} (hw : cb.write d l = (d',some n))
      (hn : 0 < n.val) (h : Accepts cb d' (l.drop n.val)) : Accepts cb d l

def pending (f : Bufio D) : List UInt8 := if f.dir = .wr then slice f.buf 0 f.len else []

def sent (f : Bufio (D × List UInt8)) : List UInt8 := f.dev.2 ++ pending f

structure Event where
  call : Call
  value : Int
  serr : Bool

def Event.reported (e : Event) : Bool :=
  match e.call with
  | .putc _ => decide (e.value = eof) || e.serr
  | .fwrite _ size nmemb => decide (size ≠ 0 ∧ e.value < nmemb) || e.serr
  | .fflush => decide (e.value ≠ 0) || e.serr
  | .ftell => decide (e.value < 0) || e.serr
  | .fseek _ _ => decide (e.value ≠ 0) || e.serr
  | .fclose => decide (e.value ≠ 0)
  | .getc => e.serr
  | .ungetc _ => e.serr
  | .fread _ _ => e.serr

def Event.credited (e : Event) : List UInt8 :=
  match e.call with
  | .putc c => if e.value = eof then [] else [c]
  | .fwrite data size _ => slice data 0 (e.value.toNat * size)
  | _ => []

def observe (cfg : Build) (cb : Callbacks D) (f : Bufio (D × List UInt8)) (call : Call) :
    Bufio (D × List UInt8) × Event :=
  let r := call.exec cfg (logged cb) f
  (r.1,⟨call,r.2,r.1.flags.serr⟩)

def Careful (cfg : Build) (cb : Callbacks D) (f : Bufio (D × List UInt8)) : Call → Prop
  | .fread size nmemb => f.blockRead cfg size nmemb →
      f.flags.serr = true ∨ Accepts cb f.dev.1 (pending f)
  | .fclose => cfg.stdioLocking = true ∨ f.bflags.bfall = true → Accepts cb f.dev.1 (pending f)
  | _ => True

structure Settled (f : Bufio D) : Prop where
  idle : f.dir = .idle → f.len = 0
  closable : f.flags.sclose = true

structure Frame (f g : Bufio D) : Prop where
  flags : g.flags = f.flags
  bflags : g.bflags = f.bflags
  closeFn : g.closeFn = f.closeFn
  size : g.size = f.size

theorem Frame.trans {f g h : Bufio D} (a : Frame f g) (b : Frame g h) : Frame f h :=
  ⟨b.flags.trans a.flags,b.bflags.trans a.bflags,b.closeFn.trans a.closeFn,b.size.trans a.size⟩

theorem Frame.settled {f g : Bufio D} (a : Frame f g) (hf : Settled f) (hd : g.dir ≠ .idle) : Settled g :=
  ⟨fun h => absurd h hd,by rw [a.flags,hf.closable]⟩

theorem pending_wr {f : Bufio D} (h : f.dir = .wr) : pending f = slice f.buf 0 f.len := by
  rw [pending,if_pos h]

theorem pending_rd {f : Bufio D} (h : f.dir = .rd) : pending f = [] := by
  rw [pending,h]
  rfl

theorem pending_empty {f : Bufio D} (h : f.len = 0) : pending f = [] := by
  rw [pending,h,slice_zero,ite_self]

theorem sent_empty {f : Bufio (D × List UInt8)} (h : f.len = 0) : sent f = f.dev.2 := by
  rw [sent,pending_empty h,List.append_nil]

section

variable {cb : Callbacks D} {f : Bufio (D × List UInt8)}

theorem accepts_drop {d d' : D} {l : List UInt8} {n : { n : Nat // n ≤ l.length }}
    (hl : l ≠ []) (hw : cb.write d l = (d',some n)) (h : Accepts cb d l) :
    0 < n.val ∧ Accepts cb d' (l.drop n.val) := by
  cases h with
  | nil => exact absurd rfl hl
  | more hw' hn h =>
    rw [hw] at hw'
    obtain ⟨rfl,he⟩ := Prod.mk.inj hw'
    cases Option.some.inj he
    exact ⟨hn,h⟩

theorem accepts_write {d d' : D} {l : List UInt8} (hl : l ≠ []) (hw : cb.write d l = (d',none)) :
    ¬Accepts cb d l := by
  intro h
  cases h with
  | nil => exact hl rfl
  | more hw' hn h =>
    rw [hw] at hw'
    cases (Prod.mk.inj hw').2

theorem flushWrite_sends (cb : Callbacks D) (fuel : Nat) (f : Bufio (D × List UInt8)) (start : Nat) (hl : f.len ≤ fuel) :
    ∃ g r, f.flushWrite (logged cb) fuel start = (g,r) ∧
      g = { f with dev := g.dev, pos := g.pos, len := 0 } ∧
      ((r = 0 ∧ g.dev.2 = f.dev.2 ++ slice f.buf start f.len) ∨
        (r = fdevErr ∧ ¬Accepts cb f.dev.1 (slice f.buf start f.len))) := by
  induction fuel generalizing f start with
  | zero =>
    have h0 : f.len = 0 := by omega
    refine ⟨f,0,rfl,?_,.inl ⟨rfl,by simp [h0]⟩⟩
    rw [← h0]
  | succ fuel ih =>
    by_cases h0 : f.len = 0
    · refine ⟨f,0,by rw [Bufio.flushWrite,if_pos h0],?_,.inl ⟨rfl,by simp [h0]⟩⟩
      rw [← h0]
    · have hne : slice f.buf start f.len ≠ [] := by
        rw [← List.length_pos_iff,slice_length]
        omega
      cases hres : cb.write f.dev.1 (slice f.buf start f.len) with
      | mk d res =>
      cases res with
      | none =>
        refine ⟨(f.flushDropped (d,f.dev.2 ++ [])).1,fdevErr,?_,rfl,.inr ⟨rfl,accepts_write hne hres⟩⟩
        rw [Bufio.flushWrite,if_neg h0]
        simp only [logged,hres]
        rfl
      | some n =>
        by_cases hz : n.val = 0
        · refine ⟨(f.flushDropped (d,f.dev.2 ++ taken (some n))).1,fdevErr,?_,rfl,.inr ⟨rfl,?_⟩⟩
          · rw [Bufio.flushWrite,if_neg h0]
            simp only [logged,hres,hz,if_true]
            rfl
          · intro ha
            have hpos := (accepts_drop hne hres ha).1
            omega
        · have hn : n.val ≤ f.len := by simpa using n.2
          obtain ⟨g,r,hg,hge,hr⟩ := ih
            { f with
              dev := (d,f.dev.2 ++ slice f.buf start n.val)
              pos := f.pos + n.val
              len := f.len - n.val }
            (start + n.val) (by dsimp only; omega)
          have hsplit : slice f.buf start f.len =
              slice f.buf start n.val ++ slice f.buf (start + n.val) (f.len - n.val) := by
            rw [← slice_add]
            congr 1
            omega
          refine ⟨g,r,?_,hge,?_⟩
          · rw [Bufio.flushWrite,if_neg h0]
            simp only [logged,hres,hz,if_false,taken,slice_take hn]
            exact hg
          · rcases hr with ⟨hr,hs⟩ | ⟨hr,hs⟩
            · refine .inl ⟨hr,?_⟩
              rw [hs,List.append_assoc,← hsplit]
            · refine .inr ⟨hr,?_⟩
              intro ha
              have hd := (accepts_drop hne hres ha).2
              rw [slice_drop hn] at hd
              exact hs hd

theorem bufioLseek_log (cb : Callbacks D) (d : D × List UInt8) (o : Int) (w : Whence) :
    (bufioLseek (logged cb) d o w).1.2 = d.2 := by
  unfold bufioLseek logged
  cases cb.lseek <;> rfl

theorem bufioClose_log (cb : Callbacks D) (d : D × List UInt8) : (bufioClose (logged cb) d).1.2 = d.2 := by
  unfold bufioClose logged
  cases cb.close <;> rfl

theorem flushRead_frame (cb : Callbacks D) (f : Bufio (D × List UInt8)) : Frame f (f.flushRead (logged cb)) ∧
    (f.flushRead (logged cb)).len = 0 ∧ (f.flushRead (logged cb)).dir = f.dir ∧
    (f.flushRead (logged cb)).dev.2 = f.dev.2 := by
  unfold Bufio.flushRead
  dsimp only
  split_ifs
  · exact ⟨⟨rfl,rfl,rfl,rfl⟩,rfl,rfl,bufioLseek_log cb _ _ _⟩
  · exact ⟨⟨rfl,rfl,rfl,rfl⟩,rfl,rfl,rfl⟩

theorem flushLocked_sends (cb : Callbacks D) (hf : Settled f) : ∃ g r, f.flushLocked (logged cb) = (g,r) ∧ Frame f g ∧
    g.len = 0 ∧ g.dir = f.dir ∧ ((r = 0 ∧ g.dev.2 = sent f) ∨
      (r = fdevErr ∧ f.dir = .wr ∧ ¬Accepts cb f.dev.1 (pending f))) := by
  unfold Bufio.flushLocked
  cases hd : f.dir with
  | idle =>
    refine ⟨f,0,rfl,⟨rfl,rfl,rfl,rfl⟩,hf.idle hd,hd,.inl ⟨rfl,?_⟩⟩
    rw [sent_empty (hf.idle hd)]
  | rd =>
    obtain ⟨h1,h2,h3,h4⟩ := flushRead_frame cb f
    refine ⟨_,0,rfl,h1,h2,h3.trans hd,.inl ⟨rfl,?_⟩⟩
    rw [h4,sent,pending_rd hd,List.append_nil]
  | wr =>
    obtain ⟨g,r,hg,hge,hr⟩ := flushWrite_sends cb f.len f 0 (Nat.le_refl _)
    refine ⟨g,r,hg,?_,?_,?_,?_⟩
    · rw [hge]
      exact ⟨rfl,rfl,rfl,rfl⟩
    · rw [hge]
    · rw [hge]
      exact hd
    · rw [sent,pending_wr hd]
      rcases hr with ⟨h1,h2⟩ | ⟨h1,h2⟩
      · exact .inl ⟨h1,h2⟩
      · exact .inr ⟨h1,rfl,h2⟩

theorem setdirLocked_sends (cb : Callbacks D) (hf : Settled f) (d : Dir) :
    ∃ g r, f.setdirLocked (logged cb) d = (g,r) ∧ Frame f g ∧ g.dir = d ∧
      ((r = 0 ∧ sent g = sent f) ∨
        (r = fdevErr ∧ f.dir = .wr ∧ d ≠ .wr ∧ ¬Accepts cb f.dev.1 (pending f))) := by
  by_cases hd : f.dir = d
  · exact ⟨f,0,by simp [Bufio.setdirLocked,hd],⟨rfl,rfl,rfl,rfl⟩,hd,.inl ⟨rfl,rfl⟩⟩
  · obtain ⟨g,r,hg,hfr,hl,-,hr⟩ := flushLocked_sends cb hf
    refine ⟨{ g with dir := d },r,?_,⟨hfr.flags,hfr.bflags,hfr.closeFn,hfr.size⟩,rfl,?_⟩
    · simp only [Bufio.setdirLocked,ne_eq,hd,not_false_eq_true,if_true,hg]
    · rcases hr with ⟨h1,h2⟩ | ⟨h1,h2,h3⟩
      · refine .inl ⟨h1,?_⟩
        rw [← h2]
        exact sent_empty hl
      · exact .inr ⟨h1,h2,fun he => hd (h2.trans he.symm),h3⟩

theorem setdirLocked_wr (cb : Callbacks D) (hf : Settled f) : ∃ g, f.setdirLocked (logged cb) .wr = (g,0) ∧
    Frame f g ∧ g.dir = .wr ∧ sent g = sent f := by
  obtain ⟨g,r,hg,hfr,hd,⟨rfl,hs⟩ | ⟨-,-,hn,-⟩⟩ := setdirLocked_sends cb hf .wr
  · exact ⟨g,hg,hfr,hd,hs⟩
  · exact absurd rfl hn

theorem store_sends (hd : f.dir = .wr) (c : UInt8) : sent (f.store c) = sent f ++ [c] := by
  rw [sent,sent,pending_wr hd,pending_wr (show (f.store c).dir = .wr from hd),List.append_assoc]
  simp only [Bufio.store,slice_update_succ]

theorem put_sends (cb : Callbacks D) (hf : Settled f) (c : UInt8) : ∃ g r, f.put (logged cb) c = (g,r) ∧
    Frame f g ∧ g.dir = .wr ∧ ((r = c.toNat ∧ sent g = sent f ++ [c]) ∨ r = fdevErr) := by
  obtain ⟨g,hg,hfr,hd,hs⟩ := setdirLocked_wr cb hf
  have hst : Settled (g.store c) := ⟨fun h => absurd (hd.symm.trans h) (by decide),by
    rw [← hf.closable,← hfr.flags]
    rfl⟩
  have hfs : Frame f (g.store c) := ⟨hfr.flags,hfr.bflags,hfr.closeFn,hfr.size⟩
  have hss : sent (g.store c) = sent f ++ [c] := by rw [store_sends hd,hs]
  unfold Bufio.put
  simp only [hg,Int.lt_irrefl,if_false]
  split_ifs with hfull hneg
  · obtain ⟨k,r,hk,hkf,-,hkd,-⟩ := flushLocked_sends cb hst
    exact ⟨k,fdevErr,by rw [hk],hfs.trans hkf,hkd.trans hd,.inr rfl⟩
  · obtain ⟨k,r,hk,hkf,hkl,hkd,hr⟩ := flushLocked_sends cb hst
    refine ⟨k,c.toNat,by rw [hk],hfs.trans hkf,hkd.trans hd,.inl ⟨rfl,?_⟩⟩
    rcases hr with ⟨-,hr⟩ | ⟨hr,-⟩
    · rw [sent_empty hkl,hr,hss]
    · rw [hk,hr] at hneg
      exact absurd (show fdevErr < 0 by decide) hneg
  · exact ⟨g.store c,c.toNat,rfl,hfs,hd,.inl ⟨rfl,hss⟩⟩

theorem fillLocked_frame (cb : Callbacks D) (f : Bufio (D × List UInt8)) :
    Frame f (f.fillLocked (logged cb)).1 ∧ (f.fillLocked (logged cb)).1.dir = f.dir ∧
      (f.fillLocked (logged cb)).1.dev.2 = f.dev.2 := by
  unfold Bufio.fillLocked logged
  dsimp only
  cases cb.read f.dev.1 f.size with
  | mk d res =>
  cases res with
  | none => exact ⟨⟨rfl,rfl,rfl,rfl⟩,rfl,rfl⟩
  | some l =>
    dsimp only
    split_ifs
    · exact ⟨⟨rfl,rfl,rfl,rfl⟩,rfl,rfl⟩
    · exact ⟨⟨rfl,rfl,rfl,rfl⟩,rfl,rfl⟩

theorem sent_rd {g : Bufio (D × List UInt8)} (hf : f.dir = .rd) (hg : g.dir = .rd)
    (h : g.dev.2 = f.dev.2) : sent g = sent f := by
  rw [sent,sent,pending_rd hf,pending_rd hg,h]

theorem get_sends (cb : Callbacks D) (hf : Settled f) : ∃ g r, f.get (logged cb) = (g,r) ∧
    Frame f g ∧ g.dir = .rd ∧ (r = fdevErr ∨ sent g = sent f) := by
  obtain ⟨g,r,hg,hfr,hd,hr⟩ := setdirLocked_sends cb hf .rd
  obtain ⟨h1,h2,h3⟩ := fillLocked_frame cb g
  have hfk : Frame f (g.fillLocked (logged cb)).1.take.1 := by
    have ht := hfr.trans h1
    exact ⟨ht.flags,ht.bflags,ht.closeFn,ht.size⟩
  unfold Bufio.get
  rw [hg]
  rcases hr with ⟨rfl,hs⟩ | ⟨rfl,-⟩
  · simp only [Int.lt_irrefl,if_false]
    split_ifs with hle hne
    · exact ⟨_,_,rfl,hfr.trans h1,h2.trans hd,.inr ((sent_rd hd (h2.trans hd) h3).trans hs)⟩
    · exact ⟨_,_,rfl,hfk,h2.trans hd,.inr ((sent_rd hd (h2.trans hd) h3).trans hs)⟩
    · exact ⟨_,_,rfl,⟨hfr.flags,hfr.bflags,hfr.closeFn,hfr.size⟩,hd,.inr hs⟩
  · exact ⟨g,fdevErr,by simp [fdevErr],hfr,hd,.inl rfl⟩

theorem lseekTo_frame (cb : Callbacks D) (f : Bufio (D × List UInt8)) (o : Int) (w : Whence) :
    Frame f (f.lseekTo (logged cb) o w).1 ∧ (f.lseekTo (logged cb) o w).1.dir = f.dir ∧
      (f.lseekTo (logged cb) o w).1.dev.2 = f.dev.2 :=
  ⟨⟨rfl,rfl,rfl,rfl⟩,rfl,bufioLseek_log cb _ _ _⟩

theorem seekSet_frame (cb : Callbacks D) (f : Bufio (D × List UInt8)) (o : Int) :
    Frame f (f.seekSet (logged cb) o).1 ∧ (f.seekSet (logged cb) o).1.dir = f.dir ∧
      (f.seekSet (logged cb) o).1.dev.2 = f.dev.2 := by
  unfold Bufio.seekSet
  dsimp only
  split_ifs
  · exact ⟨⟨rfl,rfl,rfl,rfl⟩,rfl,rfl⟩
  · exact lseekTo_frame cb f o .set

theorem seek_sends (cb : Callbacks D) (hf : Settled f) (o : Int) (w : Whence) :
    ∃ g r, f.seek (logged cb) o w = (g,r) ∧ Frame f g ∧ Settled g ∧ (r < 0 ∨ sent g = sent f) := by
  unfold Bufio.seek
  obtain ⟨g,r,hg,hfr,hd,hr⟩ := setdirLocked_sends cb hf .rd
  rw [hg]
  dsimp only
  split_ifs with hk hn
  · exact ⟨f,fdevErr,rfl,⟨rfl,rfl,rfl,rfl⟩,hf,.inl (by decide)⟩
  · exact ⟨g,fdevErr,rfl,hfr,hfr.settled hf (by simp [hd]),.inl (by decide)⟩
  · have hs : sent g = sent f := by
      rcases hr with ⟨-,hs⟩ | ⟨rfl,-⟩
      · exact hs
      · exact absurd (show fdevErr < 0 by decide) hn
    have key : ∀ x : Bufio (D × List UInt8) × Int, Frame g x.1 ∧ x.1.dir = g.dir ∧ x.1.dev.2 = g.dev.2 →
        ∃ k r, x = (k,r) ∧ Frame f k ∧ Settled k ∧ (r < 0 ∨ sent k = sent f) := by
      rintro ⟨k,r⟩ ⟨h1,h2,h3⟩
      dsimp only at h1 h2 h3
      refine ⟨k,r,rfl,hfr.trans h1,(hfr.trans h1).settled hf (by simp [h2,hd]),.inr ?_⟩
      exact (sent_rd hd (h2.trans hd) h3).trans hs
    cases w with
    | set => exact key _ (seekSet_frame cb g o)
    | cur => exact key _ (seekSet_frame cb g _)
    | fin => exact key _ (lseekTo_frame cb g o .fin)

theorem getc_sends (cb : Callbacks D) (hf : Settled f) : ∃ g r, f.getc (logged cb) = (g,r) ∧
    Settled g ∧ (f.flags.serr = true → g.flags.serr = true) ∧
    (g.flags.serr = true ∨ sent g = sent f) := by
  obtain ⟨g,r,hg,hfr,hd,hr⟩ := get_sends cb hf
  have hs : Settled g := hfr.settled hf (by simp [hd])
  unfold Bufio.getc
  rw [hg]
  dsimp only
  split_ifs with h1 h2 h3
  · exact ⟨_,_,rfl,⟨hf.idle,hf.closable⟩,fun _ => rfl,.inl rfl⟩
  · exact ⟨_,_,rfl,⟨hf.idle,hf.closable⟩,id,.inr rfl⟩
  · unfold Bufio.endOrErr
    split_ifs with he
    · exact ⟨_,_,rfl,⟨hs.idle,hs.closable⟩,fun _ => rfl,.inl rfl⟩
    · refine ⟨_,_,rfl,⟨hs.idle,hs.closable⟩,fun h => ?_,.inr (hr.resolve_left he)⟩
      exact (congrArg Flags.serr hfr.flags).trans h
  · refine ⟨_,_,rfl,hs,fun h => by rw [hfr.flags,h],.inr (hr.resolve_left ?_)⟩
    rintro rfl
    exact h3 (by decide)

theorem putc_sends (cb : Callbacks D) (hf : Settled f) (c : UInt8) : ∃ g r, f.putc (logged cb) c = (g,r) ∧
    Settled g ∧ (r = eof ∨ (r = c.toNat ∧ sent g = sent f ++ [c])) := by
  obtain ⟨g,r,hg,hfr,hd,hr⟩ := put_sends cb hf c
  have hs : Settled g := hfr.settled hf (by simp [hd])
  unfold Bufio.putc
  rw [hg]
  dsimp only
  split_ifs with h1 h2
  · exact ⟨f,eof,rfl,hf,.inl rfl⟩
  · exact ⟨_,_,rfl,⟨hs.idle,hs.closable⟩,.inl rfl⟩
  · refine ⟨_,_,rfl,hs,.inr ⟨rfl,?_⟩⟩
    rcases hr with ⟨-,hr⟩ | rfl
    · exact hr
    · exact absurd (show fdevErr < 0 by decide) h2

theorem fflush_sends (cb : Callbacks D) (hf : Settled f) : ∃ g r, f.fflush (logged cb) = (g,r) ∧
    Frame f g ∧ Settled g ∧ pending g = [] ∧
    ((r = 0 ∧ sent g = sent f) ∨ (r = fdevErr ∧ ¬Accepts cb f.dev.1 (pending f))) := by
  obtain ⟨g,r,hg,hfr,hl,hd,hr⟩ := flushLocked_sends cb hf
  have hp : pending ({ g with unget := 0 } : Bufio (D × List UInt8)) = [] := pending_empty hl
  refine ⟨{ g with unget := 0 },r,?_,⟨hfr.flags,hfr.bflags,hfr.closeFn,hfr.size⟩,?_,hp,?_⟩
  · rw [Bufio.fflush,hg]
  · exact ⟨fun _ => hl,(congrArg Flags.sclose hfr.flags).trans hf.closable⟩
  · rcases hr with ⟨h1,h2⟩ | ⟨h1,-,h2⟩
    · refine .inl ⟨h1,?_⟩
      rw [← h2]
      exact sent_empty hl
    · exact .inr ⟨h1,h2⟩

theorem fseek_sends (cb : Callbacks D) (hf : Settled f) (o : Int) (w : Whence) :
    ∃ g r, f.fseek (logged cb) o w = (g,r) ∧ Settled g ∧ (r ≠ 0 ∨ sent g = sent f) := by
  obtain ⟨g,r,hg,hfr,hs,hr⟩ := seek_sends cb hf o w
  unfold Bufio.fseek
  rw [hg]
  dsimp only
  split_ifs with h1 h2
  · exact ⟨_,_,rfl,⟨hs.idle,hs.closable⟩,.inr (hr.resolve_left (by omega))⟩
  · exact ⟨_,_,rfl,hs,.inl (by decide)⟩
  · exact ⟨f,-1,rfl,hf,.inl (by decide)⟩

theorem ftell_sends (cb : Callbacks D) (hf : Settled f) :
    ∃ g r, f.ftell (logged cb) = (g,r) ∧ Settled g ∧ (r < 0 ∨ sent g = sent f) := by
  obtain ⟨g,r,hg,hfr,hs,hr⟩ := seek_sends cb hf 0 .cur
  unfold Bufio.ftell
  rw [hg]
  dsimp only
  split_ifs with h1 h2
  · exact ⟨g,_,rfl,hs,hr.imp_left (fun h => by omega)⟩
  · exact ⟨g,_,rfl,hs,hr⟩
  · exact ⟨f,-1,rfl,hf,.inl (by decide)⟩

theorem ungetc_sends (hf : Settled f) (c : UInt8) : Settled (f.ungetc c).1 ∧ sent (f.ungetc c).1 = sent f := by
  unfold Bufio.ungetc
  split_ifs
  · exact ⟨hf,rfl⟩
  · exact ⟨hf,rfl⟩
  · exact ⟨⟨hf.idle,hf.closable⟩,rfl⟩

theorem writeBuffered_sends (cb : Callbacks D) (fuel : Nat) (f : Bufio (D × List UInt8)) (data : Mem)
    (start bytes : Nat) (hf : Settled f) (hd : f.dir = .wr) (hsize : 0 < f.size)
    (hfuel : 2 * bytes ≤ fuel ∨ (f.len < f.size ∧ 2 * bytes ≤ fuel + 1)) :
    ∃ g k, f.writeBuffered (logged cb) fuel data start bytes = (g,k) ∧ Settled g ∧
      (g.flags.serr = true ∨ (k = start + bytes ∧ sent g = sent f ++ slice data start bytes)) := by
  induction fuel generalizing f start bytes with
  | zero =>
    have h0 : bytes = 0 := by omega
    exact ⟨f,start,rfl,hf,.inr ⟨by omega,by simp [h0]⟩⟩
  | succ fuel ih =>
    by_cases h0 : bytes = 0
    · exact ⟨f,start,by rw [Bufio.writeBuffered,if_pos h0],hf,.inr ⟨by omega,by simp [h0]⟩⟩
    by_cases hroom : f.size - f.len = 0
    · obtain ⟨g,r,hg,hfr,hl,hgd,hr⟩ := flushLocked_sends cb hf
      have hgs : Settled g := hfr.settled hf (by simp [hgd,hd])
      rcases hr with ⟨rfl,hs⟩ | ⟨rfl,-⟩
      · obtain ⟨k,m,hk,hks,hm⟩ := ih g start bytes hgs (hgd.trans hd) (by rw [hfr.size]; exact hsize) (by
          rw [hfr.size,hl]
          omega)
        refine ⟨k,m,?_,hks,?_⟩
        · rw [Bufio.writeBuffered,if_neg h0]
          simp only [hroom,if_true,hg,ne_eq,not_true_eq_false,if_false,Nat.zero_min,Nat.add_zero,Nat.sub_zero]
          have he : ({ g with buf := splice g.buf g.len (slice data start 0) } : Bufio (D × List UInt8)) = g := by
            have hsp : splice g.buf g.len (slice data start 0) = g.buf := by
              funext x
              rw [splice,if_neg (by simp only [slice_zero,List.length_nil]; omega)]
            rw [hsp]
          rw [he]
          exact hk
        · rw [sent_empty hl,hs] at hm
          exact hm
      · refine ⟨g.orErr,start,?_,⟨fun h => hgs.idle h,rfl⟩,.inl rfl⟩
        rw [Bufio.writeBuffered,if_neg h0]
        simp only [hroom,if_true,hg,show fdevErr ≠ 0 by decide,ne_eq,not_false_eq_true]
    · have hmin : 0 < min (f.size - f.len) bytes := by omega
      have hle : min (f.size - f.len) bytes ≤ bytes := Nat.min_le_right _ _
      generalize hn : min (f.size - f.len) bytes = n at hmin hle
      obtain ⟨k,m,hk,hks,hm⟩ := ih
        { f with buf := splice f.buf f.len (slice data start n), len := f.len + n }
        (start + n) (bytes - n) ⟨fun h => absurd (hd.symm.trans h) (by decide),hf.closable⟩ hd hsize (by
          left
          omega)
      refine ⟨k,m,?_,hks,?_⟩
      · rw [Bufio.writeBuffered,if_neg h0]
        simp only [hroom,if_false,ne_eq,not_true_eq_false,hn]
        exact hk
      · refine hm.imp_right ?_
        rintro ⟨hm1,hm2⟩
        refine ⟨by omega,?_⟩
        have hsp := slice_splice_append f.buf f.len (slice data start n)
        rw [slice_length] at hsp
        have hsplit : slice data start bytes = slice data start n ++ slice data (start + n) (bytes - n) := by
          rw [← slice_add]
          congr 1
          omega
        rw [hm2,sent,sent,pending_wr hd,pending_wr (by exact hd)]
        dsimp only
        rw [hsp,hsplit]
        simp only [List.append_assoc]

theorem writeDirect_sends (cb : Callbacks D) (fuel : Nat) (f : Bufio (D × List UInt8)) (data : Mem)
    (start bytes : Nat) (hf : Settled f) (hl : f.len = 0) (hfuel : bytes ≤ fuel) :
    ∃ g k, f.writeDirect (logged cb) fuel data start bytes = (g,k) ∧ Settled g ∧
      (g.flags.serr = true ∨ (k = start + bytes ∧ sent g = sent f ++ slice data start bytes)) := by
  induction fuel generalizing f start bytes with
  | zero =>
    have h0 : bytes = 0 := by omega
    exact ⟨f,start,rfl,hf,.inr ⟨by omega,by simp [h0]⟩⟩
  | succ fuel ih =>
    by_cases h0 : bytes = 0
    · exact ⟨f,start,by rw [Bufio.writeDirect,if_pos h0],hf,.inr ⟨by omega,by simp [h0]⟩⟩
    rw [Bufio.writeDirect,if_neg h0]
    cases hres : cb.write f.dev.1 (slice data start bytes) with
    | mk d res =>
    cases res with
    | none =>
      simp only [logged,hres]
      exact ⟨_,start,rfl,⟨fun _ => hl,rfl⟩,.inl rfl⟩
    | some n =>
      have hn : n.val ≤ bytes := by simpa using n.2
      simp only [logged,hres,taken,slice_take hn]
      split_ifs with hz
      · exact ⟨_,start,rfl,⟨fun _ => hl,rfl⟩,.inl rfl⟩
      · obtain ⟨k,m,hk,hks,hm⟩ := ih
          { f with dev := (d,f.dev.2 ++ slice data start n.val), pos := f.pos + n.val }
          (start + n.val) (bytes - n.val) ⟨fun _ => hl,hf.closable⟩ hl (by omega)
        refine ⟨k,m,hk,hks,hm.imp_right ?_⟩
        rintro ⟨hm1,hm2⟩
        refine ⟨by omega,?_⟩
        have hsplit : slice data start n.val ++ slice data (start + n.val) (bytes - n.val) =
            slice data start bytes := by
          rw [← slice_add]
          congr 1
          omega
        rw [hm2,sent_empty hl,sent_empty (by exact hl),List.append_assoc,hsplit]

theorem fwriteFast_sends (cb : Callbacks D) (hf : Settled f) (data : Mem) (bytes : Nat) :
    ∃ g k, f.fwriteFast (logged cb) data bytes = (g,k) ∧ Settled g ∧
      (g.flags.serr = true ∨ k = 0 ∨ (k = bytes ∧ sent g = sent f ++ slice data 0 bytes)) := by
  obtain ⟨g,hg,hfr,hd,hs⟩ := setdirLocked_wr cb hf
  have hgs : Settled g := hfr.settled hf (by simp [hd])
  unfold Bufio.fwriteFast
  simp only [hg]
  split_ifs with h1 h2
  · obtain ⟨k,m,hk,hks,hm⟩ := writeBuffered_sends cb (2 * bytes) g data 0 bytes hgs hd (by omega)
      (.inl (Nat.le_refl _))
    rw [Nat.zero_add,hs] at hm
    exact ⟨k,m,hk,hks,hm.imp_right .inr⟩
  · obtain ⟨k,r,hk,hkf,hkl,hkd,hr⟩ := flushLocked_sends cb hgs
    rw [hk] at h2 ⊢
    rcases hr with ⟨-,hr⟩ | ⟨rfl,-⟩
    · obtain ⟨q,m,hq,hqs,hm⟩ := writeDirect_sends cb bytes k data 0 bytes
        (hkf.settled hgs (by simp [hkd,hd])) hkl (Nat.le_refl _)
      rw [Nat.zero_add,sent_empty hkl,hr,hs] at hm
      exact ⟨q,m,hq,hqs,hm.imp_right .inr⟩
    · exact absurd h2 (show ¬0 ≤ fdevErr by decide)
  · obtain ⟨k,r,hk,hkf,hkl,hkd,hr⟩ := flushLocked_sends cb hgs
    exact ⟨k,0,by rw [hk],hkf.settled hgs (by simp [hkd,hd]),.inr (.inl rfl)⟩

theorem putItem_sends (cb : Callbacks D) (n : Nat) (f : Bufio (D × List UInt8)) (data : Mem) (start : Nat)
    (hf : Settled f) : ∃ g b, f.putItem (logged cb) n data start = (g,b) ∧ Settled g ∧
      (b = true → sent g = sent f ++ slice data start n) := by
  induction n generalizing f start with
  | zero => exact ⟨f,true,rfl,hf,by simp⟩
  | succ n ih =>
    obtain ⟨g,r,hg,hfr,hd,hr⟩ := put_sends cb hf (data start)
    have hgs : Settled g := hfr.settled hf (by simp [hd])
    obtain ⟨k,b,hk,hks,hb⟩ := ih g (start + 1) hgs
    rw [Bufio.putItem,hg]
    dsimp only
    split_ifs with hn
    · exact ⟨g,false,rfl,hgs,by simp⟩
    · refine ⟨k,b,hk,hks,fun h => ?_⟩
      rcases hr with ⟨-,hr⟩ | rfl
      · rw [hb h,hr,List.append_assoc,Nat.add_comm n,slice_add]
        rfl
      · exact absurd (show fdevErr < 0 by decide) hn

theorem putItems_sends (cb : Callbacks D) (size n : Nat) (f : Bufio (D × List UInt8)) (data : Mem) (i : Nat)
    (hf : Settled f) : ∃ g k, f.putItems (logged cb) size n data i = (g,k) ∧ Settled g ∧
      (k < i + n ∨ (k = i + n ∧ sent g = sent f ++ slice data (i * size) (n * size))) := by
  induction n generalizing f i with
  | zero => exact ⟨f,i,rfl,hf,.inr ⟨rfl,by simp⟩⟩
  | succ n ih =>
    obtain ⟨g,b,hg,hgs,hb⟩ := putItem_sends cb size f data (i * size) hf
    obtain ⟨k,m,hk,hks,hm⟩ := ih g (i + 1) hgs
    rw [Bufio.putItems,hg]
    dsimp only
    split_ifs with ht
    · refine ⟨k,m,hk,hks,?_⟩
      rcases hm with hm | ⟨hm,hs⟩
      · exact .inl (by omega)
      · refine .inr ⟨by omega,?_⟩
        rw [hs,hb ht,List.append_assoc,Nat.succ_mul i,← slice_add,Nat.succ_mul n,Nat.add_comm (n * size)]
    · exact ⟨g,i,rfl,hgs,.inl (by omega)⟩

theorem fwrite_sends (cfg : Build) (cb : Callbacks D) (hf : Settled f) (data : Mem) (size nmemb : Nat) :
    ∃ g k, f.fwrite cfg (logged cb) data size nmemb = (g,k) ∧ Settled g ∧
      (g.flags.serr = true ∨ (size ≠ 0 ∧ k < nmemb) ∨ sent g = sent f ++ slice data 0 (k * size)) := by
  unfold Bufio.fwrite
  split_ifs with h1 h2
  · exact ⟨f,0,rfl,hf,.inr (.inr (by simp))⟩
  · obtain ⟨g,k,hg,hgs,hk⟩ := fwriteFast_sends cb hf data (size * nmemb)
    have hpos : 0 < size ∧ 0 < nmemb := CanonicallyOrderedAdd.mul_pos.mp h2.2.2.2.2
    rw [hg]
    refine ⟨g,k / size,rfl,hgs,hk.imp_right ?_⟩
    rintro (rfl | ⟨rfl,hs⟩)
    · exact .inl ⟨by omega,by simpa using hpos.2⟩
    · rw [Nat.mul_div_cancel_left _ hpos.1,Nat.mul_comm nmemb]
      exact .inr hs
  · obtain ⟨g,k,hg,hgs,hk⟩ := putItems_sends cb size nmemb f data 0 hf
    rw [hg]
    refine ⟨g,k,rfl,hgs,.inr ?_⟩
    rw [Nat.zero_add,Nat.zero_mul] at hk
    rcases hk with hk | ⟨rfl,hs⟩
    · exact .inl ⟨fun h => h1 (.inr h),hk⟩
    · exact .inr hs

theorem readBlock_sends (cb : Callbacks D) (fuel : Nat) (f : Bufio (D × List UInt8)) (bytes : Nat)
    (got : List UInt8) (hd : f.dir = .rd) : let g := (f.readBlock (logged cb) fuel bytes got).1
      g.dir = .rd ∧ g.dev.2 = f.dev.2 ∧ g.flags.sclose = f.flags.sclose ∧
      (f.flags.serr = true → g.flags.serr = true) := by
  induction fuel generalizing f bytes got with
  | zero => exact ⟨hd,rfl,rfl,id⟩
  | succ fuel ih =>
    rw [Bufio.readBlock]
    dsimp only
    split_ifs with h0 h1 h2 h3
    · exact ⟨hd,rfl,rfl,id⟩
    · exact ih _ _ _ hd
    · obtain ⟨hfr,hfd,hfl⟩ := fillLocked_frame cb f
      have hcl := congrArg Flags.sclose hfr.flags
      have hse := congrArg Flags.serr hfr.flags
      unfold Bufio.endOrErr
      split_ifs
      · exact ⟨hfd.trans hd,hfl,hcl,fun _ => rfl⟩
      · exact ⟨hfd.trans hd,hfl,hcl,hse.trans⟩
    · obtain ⟨hfr,hfd,hfl⟩ := fillLocked_frame cb f
      obtain ⟨i1,i2,i3,i4⟩ := ih (f.fillLocked (logged cb)).1 bytes got (hfd.trans hd)
      exact ⟨i1,i2.trans hfl,i3.trans (congrArg Flags.sclose hfr.flags),
        fun h => i4 ((congrArg Flags.serr hfr.flags).trans h)⟩
    · cases hres : cb.read f.dev.1 bytes with
      | mk d res =>
      cases res with
      | none =>
        simp only [logged,hres]
        exact ⟨hd,rfl,rfl,fun _ => rfl⟩
      | some l =>
        simp only [logged,hres]
        split_ifs
        · exact ⟨hd,rfl,rfl,id⟩
        · exact ih _ _ _ hd

theorem freadFast_sends (cb : Callbacks D) (hf : Settled f) (bytes : Nat)
    (ha : f.flags.serr = true ∨ Accepts cb f.dev.1 (pending f)) :
    let g := (f.freadFast (logged cb) bytes).1
    Settled g ∧ (g.flags.serr = true ∨ sent g = sent f) := by
  obtain ⟨g,r,hg,hfr,hd,hr⟩ := setdirLocked_sends cb hf .rd
  have key : ∀ (u : UInt16) (n : Nat) (got : List UInt8),
      let k := (({ g with unget := u } : Bufio (D × List UInt8)).readBlock (logged cb) (2 * bytes) n got).1
      Settled k ∧ (k.flags.serr = true ∨ sent k = sent f) := by
    intro u n got
    obtain ⟨h1,h2,h3,h4⟩ := readBlock_sends cb (2 * bytes) { g with unget := u } n got hd
    constructor
    · exact ⟨fun h => absurd (h1.symm.trans h) (by decide),h3.trans ((congrArg Flags.sclose hfr.flags).trans hf.closable)⟩
    · rcases ha with ha | ha
      · exact .inl (h4 ((congrArg Flags.serr hfr.flags).trans ha))
      · rcases hr with ⟨-,hs⟩ | ⟨-,-,-,hn⟩
        · exact .inr ((sent_rd hd h1 h2).trans hs)
        · exact absurd ha hn
  unfold Bufio.freadFast
  simp only [hg]
  split_ifs
  · exact key 0 _ _
  · exact key g.unget _ _

theorem getItem_sends (cb : Callbacks D) (n : Nat) (f : Bufio (D × List UInt8)) (got : List UInt8)
    (hf : Settled f) : let g := (f.getItem (logged cb) n got).1
      Settled g ∧ (f.flags.serr = true → g.flags.serr = true) ∧ (g.flags.serr = true ∨ sent g = sent f) := by
  induction n generalizing f got with
  | zero => exact ⟨hf,id,.inr rfl⟩
  | succ n ih =>
    obtain ⟨g,r,hg,hgs,hmono,hr⟩ := getc_sends cb hf
    rw [Bufio.getItem,hg]
    dsimp only
    split_ifs
    · exact ⟨hgs,hmono,hr⟩
    · obtain ⟨i1,i2,i3⟩ := ih g (got ++ [UInt8.ofNat r.toNat]) hgs
      refine ⟨i1,fun h => i2 (hmono h),?_⟩
      rcases hr with hr | hr
      · exact .inl (i2 hr)
      · exact i3.imp_right (fun h => h.trans hr)

theorem getItems_sends (cb : Callbacks D) (size n : Nat) (f : Bufio (D × List UInt8)) (got : List UInt8)
    (i : Nat) (hf : Settled f) : let g := (f.getItems (logged cb) size n got i).1
      Settled g ∧ (f.flags.serr = true → g.flags.serr = true) ∧ (g.flags.serr = true ∨ sent g = sent f) := by
  induction n generalizing f got i with
  | zero => exact ⟨hf,id,.inr rfl⟩
  | succ n ih =>
    obtain ⟨hgs,hmono,hr⟩ := getItem_sends cb size f got hf
    rw [Bufio.getItems]
    dsimp only
    split_ifs
    · obtain ⟨i1,i2,i3⟩ := ih (f.getItem (logged cb) size got).1 (f.getItem (logged cb) size got).2.1
        (i + 1) hgs
      refine ⟨i1,fun h => i2 (hmono h),?_⟩
      rcases hr with hr | hr
      · exact .inl (i2 hr)
      · exact i3.imp_right (fun h => h.trans hr)
    · exact ⟨hgs,hmono,hr⟩

theorem fread_sends (cfg : Build) (cb : Callbacks D) (hf : Settled f) (size nmemb : Nat)
    (hc : Careful cfg cb f (.fread size nmemb)) : let g := (f.fread cfg (logged cb) size nmemb).1
      Settled g ∧ (g.flags.serr = true ∨ sent g = sent f) := by
  unfold Bufio.fread
  split_ifs with h1 h2
  · exact ⟨hf,.inr rfl⟩
  · exact freadFast_sends cb hf _ (hc h2)
  · obtain ⟨i1,-,i3⟩ := getItems_sends cb size nmemb f [] 0 hf
    exact ⟨i1,i3⟩

theorem close_sends (cb : Callbacks D) (hf : Settled f)
    (ha : f.bflags.bfall = true → Accepts cb f.dev.1 (pending f)) :
    ∃ g r, f.close (logged cb) = (g,r) ∧ Settled g ∧ pending g = [] ∧ (r ≠ 0 ∨ sent g = sent f) := by
  obtain ⟨g,r,hg,hfr,hl,hd,hr⟩ := flushLocked_sends cb hf
  have hcl : g.flags.sclose = true := (congrArg Flags.sclose hfr.flags).trans hf.closable
  unfold Bufio.close
  simp only [hg]
  split_ifs with hb
  · refine ⟨_,_,rfl,⟨fun _ => hl,hcl⟩,pending_empty hl,.inr ?_⟩
    rcases hr with ⟨-,hs⟩ | ⟨-,-,hn⟩
    · rw [← hs,sent_empty (by exact hl)]
      exact bufioClose_log cb g.dev
    · exact absurd (ha (hfr.bflags ▸ hb)) hn
  · refine ⟨g,r,rfl,⟨fun _ => hl,hcl⟩,pending_empty hl,?_⟩
    rcases hr with ⟨-,hs⟩ | ⟨rfl,-⟩
    · exact .inr (by rw [sent_empty hl,hs])
    · exact .inl (by decide)

theorem closeNf_sends (cb : Callbacks D) (hf : Settled f) :
    ∃ g r, f.closeNf (logged cb) = (g,r) ∧ Settled g ∧ pending g = [] ∧ (r ≠ 0 ∨ sent g = sent f) := by
  obtain ⟨g,r,hg,hfr,hl,hd,hr⟩ := flushLocked_sends cb hf
  refine ⟨g,r,hg,⟨fun _ => hl,(congrArg Flags.sclose hfr.flags).trans hf.closable⟩,pending_empty hl,?_⟩
  rcases hr with ⟨-,hs⟩ | ⟨rfl,-⟩
  · exact .inr (by rw [sent_empty hl,hs])
  · exact .inl (by decide)

theorem fclose_closes {cfg : Build} (hlock : cfg.stdioLocking = false) (cb : Callbacks D) (hf : Settled f)
    (ha : f.bflags.bfall = true → Accepts cb f.dev.1 (pending f)) :
    ∃ g r, f.fclose cfg (logged cb) = (g,r) ∧ Settled g ∧ pending g = [] ∧ (r ≠ 0 ∨ sent g = sent f) := by
  simp only [Bufio.fclose,hlock,Bool.false_eq_true,if_false,hf.closable,if_true]
  cases f.closeFn with
  | bufioClose => exact close_sends cb hf ha
  | bufioCloseNf => exact closeNf_sends cb hf

theorem fclose_sends (cfg : Build) (cb : Callbacks D) (hf : Settled f) (hc : Careful cfg cb f .fclose) :
    ∃ g r, f.fclose cfg (logged cb) = (g,r) ∧ Settled g ∧ pending g = [] ∧ (r ≠ 0 ∨ sent g = sent f) := by
  cases hlock : cfg.stdioLocking with
  | false => exact fclose_closes hlock cb hf (fun h => hc (.inr h))
  | true =>
    obtain ⟨g,r,hg,hfr,hgs,hp,hr⟩ := fflush_sends cb hf
    have heq : f.fclose cfg (logged cb) = g.fclose { cfg with stdioLocking := false } (logged cb) := by
      simp only [Bufio.fclose,hlock,if_true,hg]
      rfl
    have hs : sent g = sent f := by
      rcases hr with ⟨-,hs⟩ | ⟨-,hn⟩
      · exact hs
      · exact absurd (hc (.inl hlock)) hn
    rw [heq,← hs]
    exact fclose_closes rfl cb hgs (fun _ => by rw [hp]; exact .nil _)

theorem observe_sends (cfg : Build) (cb : Callbacks D) (call : Call) (hf : Settled f)
    (hc : Careful cfg cb f call) : Settled (observe cfg cb f call).1 ∧
      ((observe cfg cb f call).2.reported = true ∨
        sent (observe cfg cb f call).1 = sent f ++ (observe cfg cb f call).2.credited) := by
  cases call with
  | getc =>
    obtain ⟨g,r,hg,hgs,-,hr⟩ := getc_sends cb hf
    simp only [observe,Call.exec,hg,Event.reported,Event.credited,List.append_nil]
    exact ⟨hgs,hr⟩
  | putc c =>
    obtain ⟨g,r,hg,hgs,hr⟩ := putc_sends cb hf c
    simp only [observe,Call.exec,hg,Event.reported,Event.credited]
    refine ⟨hgs,?_⟩
    rcases hr with rfl | ⟨rfl,hs⟩
    · exact .inl (by simp)
    · have hne : (c.toNat : Int) ≠ eof := by simp only [eof]; omega
      exact .inr (by rw [if_neg hne,hs])
  | ungetc c =>
    obtain ⟨h1,h2⟩ := ungetc_sends hf c
    simp only [observe,Call.exec,Event.credited,List.append_nil]
    exact ⟨h1,.inr h2⟩
  | fflush =>
    obtain ⟨g,r,hg,-,hgs,-,hr⟩ := fflush_sends cb hf
    simp only [observe,Call.exec,hg,Event.reported,Event.credited,List.append_nil]
    refine ⟨hgs,?_⟩
    rcases hr with ⟨-,hs⟩ | ⟨rfl,-⟩
    · exact .inr hs
    · exact .inl rfl
  | ftell =>
    obtain ⟨g,r,hg,hgs,hr⟩ := ftell_sends cb hf
    simp only [observe,Call.exec,hg,Event.reported,Event.credited,List.append_nil]
    exact ⟨hgs,hr.imp_left (fun h => by simp [h])⟩
  | fseek o w =>
    obtain ⟨g,r,hg,hgs,hr⟩ := fseek_sends cb hf o w
    simp only [observe,Call.exec,hg,Event.reported,Event.credited,List.append_nil]
    exact ⟨hgs,hr.imp_left (fun h => by simp [h])⟩
  | fwrite data size nmemb =>
    obtain ⟨g,k,hg,hgs,hr⟩ := fwrite_sends cfg cb hf data size nmemb
    simp only [observe,Call.exec,hg,Event.reported,Event.credited,Int.toNat_natCast]
    refine ⟨hgs,?_⟩
    rcases hr with hr | ⟨h1,h2⟩ | hs
    · exact .inl (by simp [hr])
    · exact .inl (by simp [h1,h2])
    · exact .inr hs
  | fread size nmemb =>
    obtain ⟨h1,h2⟩ := fread_sends cfg cb hf size nmemb hc
    simp only [observe,Call.exec,Event.reported,Event.credited,List.append_nil]
    exact ⟨h1,h2⟩
  | fclose =>
    obtain ⟨g,r,hg,hgs,-,hr⟩ := fclose_sends cfg cb hf hc
    simp only [observe,Call.exec,hg,Event.reported,Event.credited,List.append_nil]
    exact ⟨hgs,hr.imp_left (fun h => by simp [h])⟩

theorem run_sends (cfg : Build) (cb : Callbacks D) (calls : List Call) (hf : Settled f)
    (hc : Along (observe cfg cb) (Careful cfg cb) f calls) :
    (∃ e ∈ (run (observe cfg cb) f calls).2, e.reported = true) ∨
      sent (run (observe cfg cb) f calls).1 =
        sent f ++ (run (observe cfg cb) f calls).2.flatMap Event.credited := by
  induction calls generalizing f with
  | nil => exact .inr (by simp [run])
  | cons call calls ih =>
    obtain ⟨hs,hr⟩ := observe_sends cfg cb call hf hc.1
    simp only [run,List.mem_cons,List.flatMap_cons]
    rcases hr with hr | hr
    · exact .inl ⟨_,.inl rfl,hr⟩
    · rcases ih hs hc.2 with ⟨e,he,her⟩ | hk
      · exact .inl ⟨e,.inr he,her⟩
      · exact .inr (by rw [hk,hr,List.append_assoc])

theorem run_settled (cfg : Build) (cb : Callbacks D) (calls : List Call) (hf : Settled f)
    (hc : Along (observe cfg cb) (Careful cfg cb) f calls) :
    Settled (run (observe cfg cb) f calls).1 :=
  @run_preserves _ _ _ (observe cfg cb) (Careful cfg cb) Settled
    (fun _ call hs ha => (observe_sends cfg cb call hs ha).1) f calls hf hc

theorem setup_settled (d : D) (buf : Mem) (size : Nat) (rd wr : Bool) (bflags : BFlags) :
    Settled (fdevSetupBufio d buf size rd wr bflags) :=
  ⟨fun _ => rfl,rfl⟩

end

theorem no_silent_loss (cfg : Build) (cb : Callbacks D) (dev : D) (buf : Mem) (size : Nat) (rd : Bool)
    (bflags : BFlags) (pre post : List Call)
    (hc : Along (observe cfg cb) (Careful cfg cb) (fdevSetupBufio (dev,[]) buf size rd true bflags)
      (pre ++ post)) :
    let f := (run (observe cfg cb) (fdevSetupBufio (dev,[]) buf size rd true bflags) pre).1
    let r := run (observe cfg cb) f post
    ((∃ e ∈ r.2, e.reported = true) ∨
      r.1.dev.2 ++ pending r.1 = f.dev.2 ++ pending f ++ r.2.flatMap Event.credited) ∧
    (post.getLast? = some .fclose → pending r.1 = []) := by
  obtain ⟨h1,h2⟩ := along_append hc
  have hf := run_settled cfg cb pre (setup_settled (dev,[]) buf size rd true bflags) h1
  refine ⟨run_sends cfg cb post hf h2,?_⟩
  intro hl
  obtain ⟨calls,rfl⟩ := List.getLast?_eq_some_iff.mp hl
  obtain ⟨h3,h4⟩ := along_append h2
  obtain ⟨g,r,hg,-,hp,-⟩ := fclose_sends cfg cb (run_settled cfg cb calls hf h3) h4.1
  rw [run_append]
  simp only [run,observe,Call.exec,hg]
  exact hp

def refusing : Callbacks Unit where
  read := fun d n => (d,some ⟨List.replicate n 66,by simp⟩)
  write := fun d _ => (d,none)
  lseek := none
  close := some (fun d => (d,0))

def byteAtATime : Callbacks Unit where
  read := fun d _ => (d,some ⟨[],by simp⟩)
  write := fun d l => (d,some ⟨min 1 l.length,Nat.min_le_right _ _⟩)
  lseek := none
  close := some (fun d => (d,0))

theorem dropped_output_unreported :
    (let r := run (observe ⟨false,false,64⟩ refusing)
        (fdevSetupBufio ((),[]) (fun _ => 0) 4 false true ⟨false,false,true⟩) [.putc 65,.fclose];
      r.2.map Event.reported = [false,false] ∧ r.2.flatMap Event.credited = [65] ∧
        r.1.dev.2 = [] ∧ pending r.1 = []) ∧
    (let r := run (observe ⟨true,false,64⟩ refusing)
        (fdevSetupBufio ((),[]) (fun _ => 0) 4 true true ⟨false,false,false⟩) [.putc 65,.fread 1 2,.fclose];
      r.2.map Event.reported = [false,false,false] ∧ r.2.flatMap Event.credited = [65] ∧
        r.1.dev.2 = [] ∧ pending r.1 = []) := by
  decide

theorem no_silent_loss_short_writes :
    let f := fdevSetupBufio ((),[]) (fun _ => 0) 2 false true ⟨false,false,true⟩
    let r := run (observe ⟨true,false,64⟩ byteAtATime) f [.putc 65,.putc 66,.putc 67,.fclose]
    r.1.dev.2 = [65,66,67] := by
  have h := no_silent_loss ⟨true,false,64⟩ byteAtATime () (fun _ => 0) 2 false ⟨false,false,true⟩ []
    [.putc 65,.putc 66,.putc 67,.fclose] (by
    refine ⟨trivial,trivial,trivial,fun _ => ?_,trivial⟩
    exact .more rfl (by decide) (.nil _))
  have hs := h.1.resolve_left (by decide)
  rw [h.2 rfl,List.append_nil] at hs
  exact hs.trans (by decide)

end Stdio
