import Mathlib
import Picolibc.Lib.FileArray
import Picolibc.Lib.Simulation
import Picolibc.Stdio.Frames

set_option linter.unusedSectionVars false

namespace Stdio

open ByteMemory FileArray

def Whence.target (size pos : Nat) (offset : Int) : Whence → Int
  | .set => offset
  | .cur => pos + offset
  | .fin => size + offset

structure Ideal where
  bytes : List UInt8
  pos : Nat
  deriving DecidableEq, Repr

def Ideal.getc (i : Ideal) : Ideal × Int :=
  match i.bytes[i.pos]? with
  | some b => (⟨i.bytes,i.pos + 1⟩,b.toNat)
  | none => (i,eof)

def writeStart (append : Bool) (content : List UInt8) (offset : Nat) : Nat :=
  if append then content.length else offset

structure FileDevice (D : Type) where
  cb : Callbacks D
  content : D → List UInt8
  offset : D → Nat
  append : Bool
  lseek : D → Int → Whence → D × Int
  seekable : cb.lseek = some lseek
  reads : ∀ (d : D) (n : Nat), 0 < n → ∃ l, (cb.read d n).2 = some l ∧
    l.val <+: (content d).drop (offset d) ∧ (l.val = [] ↔ (content d).length ≤ offset d) ∧
    content (cb.read d n).1 = content d ∧ offset (cb.read d n).1 = offset d + l.val.length
  writes : ∀ (d : D) (l : List UInt8), l ≠ [] → ∃ n, (cb.write d l).2 = some n ∧ 0 < n.val ∧
    content (cb.write d l).1 =
      overwrite (content d) (writeStart append (content d) (offset d)) (l.take n.val) ∧
    offset (cb.write d l).1 = writeStart append (content d) (offset d) + n.val
  lseeks : ∀ (d : D) (o : Int) (w : Whence), 0 ≤ w.target (content d).length (offset d) o →
    (lseek d o w).2 = w.target (content d).length (offset d) o ∧
    content (lseek d o w).1 = content d ∧
    offset (lseek d o w).1 = (w.target (content d).length (offset d) o).toNat

section

variable {D : Type} (fd : FileDevice D)

def AtEnd (append : Bool) (i : Ideal) : Prop := writeStart append i.bytes i.pos = i.pos

def FileDevice.place (d : D) : Ideal := ⟨fd.content d,fd.offset d⟩

def View (f : Bufio D) (i : Ideal) : Prop :=
  match f.dir with
  | .idle => f.len = 0 ∧ f.off = 0 ∧ i.bytes = fd.content f.dev ∧ i.pos = fd.offset f.dev
  | .rd => f.off ≤ f.len ∧ f.len ≤ fd.offset f.dev ∧
      slice f.buf 0 f.len = ((fd.content f.dev).drop (fd.offset f.dev - f.len)).take f.len ∧
      i.bytes = fd.content f.dev ∧ i.pos = fd.offset f.dev - f.len + f.off
  | .wr => f.off = 0 ∧ i.bytes = overwrite (fd.content f.dev) (fd.offset f.dev) (slice f.buf 0 f.len) ∧
      i.pos = fd.offset f.dev + f.len

structure Placed (f : Bufio D) (i : Ideal) : Prop where
  size : 0 < f.size
  pos : f.pos = fd.offset f.dev
  view : View fd f i
  start : f.dir = .wr → AtEnd fd.append (fd.place f.dev)

structure Emptied (f g : Bufio D) (i : Ideal) : Prop where
  same : g = { f with dev := g.dev, pos := g.pos, len := 0, off := 0 }
  pos : g.pos = fd.offset g.dev
  content : fd.content g.dev = i.bytes
  offset : fd.offset g.dev = i.pos

variable {fd} {f g : Bufio D} {i : Ideal}

theorem view_wr (h : View fd f i) (hd : f.dir = .wr) : f.off = 0 ∧
    i.bytes = overwrite (fd.content f.dev) (fd.offset f.dev) (slice f.buf 0 f.len) ∧
    i.pos = fd.offset f.dev + f.len := by
  simpa only [View,hd] using h

theorem view_rd (h : View fd f i) (hd : f.dir = .rd) : f.off ≤ f.len ∧
    f.len ≤ fd.offset f.dev ∧
    slice f.buf 0 f.len = ((fd.content f.dev).drop (fd.offset f.dev - f.len)).take f.len ∧
    i.bytes = fd.content f.dev ∧ i.pos = fd.offset f.dev - f.len + f.off := by
  simpa only [View,hd] using h

theorem view_empty (hl : f.len = 0) (ho : f.off = 0) (hb : fd.content f.dev = i.bytes)
    (hp : fd.offset f.dev = i.pos) : View fd f i := by
  unfold View
  cases f.dir with
  | idle => exact ⟨hl,ho,hb.symm,hp.symm⟩
  | rd => simp [hl,ho,hb,hp]
  | wr => simp [hl,ho,hb,hp]

theorem placed_rd (hd : f.dir = .rd) (hs : 0 < f.size) (hp : f.pos = fd.offset f.dev) (hv : View fd f i) :
    Placed fd f i :=
  ⟨hs,hp,hv,fun hw => absurd (hd.symm.trans hw) (by decide)⟩

theorem atEnd_overwrite {append : Bool} {bytes l : List UInt8} {pos : Nat} (h : AtEnd append ⟨bytes,pos⟩) :
    AtEnd append ⟨overwrite bytes pos l,pos + l.length⟩ := by
  cases append with
  | false => rfl
  | true =>
    obtain rfl : bytes.length = pos := h
    exact overwrite_length bytes l

theorem placed_atEnd (h : Placed fd f i) (hd : f.dir = .wr) : AtEnd fd.append i := by
  obtain ⟨-,hb,hp⟩ := view_wr h.view hd
  have hend := atEnd_overwrite (l := slice f.buf 0 f.len) (h.start hd)
  rw [slice_length,← hb,← hp] at hend
  exact hend

theorem emptied_placed (h : Placed fd f i) (hc : Emptied fd f g i) (d : Dir) (he : d = .wr → AtEnd fd.append i) :
    Placed fd { g with dir := d } i := by
  have hsame := hc.same
  refine ⟨?_,hc.pos,?_,?_⟩
  · rw [hsame]
    exact h.size
  · apply view_empty
    · rw [hsame]
    · rw [hsame]
    · exact hc.content
    · exact hc.offset
  · intro hd
    rw [FileDevice.place,hc.content,hc.offset]
    exact he hd

theorem flushWrite_writes (fuel : Nat) (f : Bufio D) (start : Nat) (hl : f.len ≤ fuel)
    (hp : f.pos = fd.offset f.dev) (he : AtEnd fd.append (fd.place f.dev)) : ∃ g, f.flushWrite fd.cb fuel start = (g,0) ∧
      g = { f with dev := g.dev, pos := g.pos, len := 0 } ∧ g.pos = fd.offset g.dev ∧
      fd.content g.dev = overwrite (fd.content f.dev) (fd.offset f.dev) (slice f.buf start f.len) ∧
      fd.offset g.dev = fd.offset f.dev + f.len := by
  induction fuel generalizing f start with
  | zero =>
    have h0 : f.len = 0 := by omega
    refine ⟨f,rfl,?_,hp,by simp [h0],by simp [h0]⟩
    rw [← h0]
  | succ fuel ih =>
    by_cases h0 : f.len = 0
    · refine ⟨f,by rw [Bufio.flushWrite,if_pos h0],?_,hp,by simp [h0],by simp [h0]⟩
      rw [← h0]
    · have hne : slice f.buf start f.len ≠ [] := by
        rw [← List.length_pos_iff,slice_length]
        omega
      obtain ⟨⟨n,hn⟩,hw,hpos,hcon,hoff⟩ := fd.writes f.dev _ hne
      rw [slice_length] at hn
      dsimp only at hpos hcon hoff
      generalize hres : fd.cb.write f.dev (slice f.buf start f.len) = res at hw hcon hoff
      obtain ⟨d,_⟩ := res
      subst hw
      dsimp only at hcon hoff
      have hstart : writeStart fd.append (fd.content f.dev) (fd.offset f.dev) = fd.offset f.dev := he
      rw [hstart] at hcon hoff
      have hnext := atEnd_overwrite (l := (slice f.buf start f.len).take n) he
      rw [List.length_take,slice_length,min_eq_left hn] at hnext
      obtain ⟨g,hg,hge,hgp,hgc,hgo⟩ := ih
        { f with dev := d, pos := f.pos + n, len := f.len - n } (start + n)
        (by dsimp only; omega) (by simp only [hp,hoff,Nat.cast_add]) (by
          rw [FileDevice.place,hcon,hoff]
          exact hnext)
      refine ⟨g,?_,hge,hgp,?_,?_⟩
      · rw [Bufio.flushWrite,if_neg h0,hres]
        simpa only [if_neg (show ¬n = 0 by omega)] using hg
      · have hsplit : slice f.buf start f.len = slice f.buf start n ++ slice f.buf (start + n) (f.len - n) := by
          rw [← slice_add]
          congr 1
          omega
        rw [hgc,hcon,hoff,hsplit,overwrite_append,slice_length,List.take_left' (slice_length _ _ _)]
      · rw [hgo,hoff]
        dsimp only
        omega

theorem flushRead_empties (h : Placed fd f i) (hd : f.dir = .rd) : Emptied fd f (f.flushRead fd.cb) i := by
  obtain ⟨h1,h2,h3,h4,h5⟩ := view_rd h.view hd
  have hp := h.pos
  by_cases hb : (f.len : Int) - f.off = 0
  · have he : f.flushRead fd.cb = { f with len := 0, off := 0 } := by
      simp only [Bufio.flushRead,hb,ne_eq,not_true_eq_false,if_false]
    rw [he]
    exact ⟨rfl,hp,h4.symm,by dsimp only; omega⟩
  · obtain ⟨-,hc,ho⟩ := fd.lseeks f.dev (f.pos - (f.len - f.off)) .set (by
      simp only [Whence.target]
      omega)
    have he : f.flushRead fd.cb =
        { f with
          pos := f.pos - (f.len - f.off)
          dev := (fd.lseek f.dev (f.pos - (f.len - f.off)) .set).1
          len := 0
          off := 0 } := by
      simp only [Bufio.flushRead,ne_eq,hb,not_false_eq_true,if_true,bufioLseek,fd.seekable]
    rw [he]
    simp only [Whence.target] at ho
    refine ⟨rfl,?_,?_,?_⟩
    · dsimp only
      rw [ho]
      omega
    · dsimp only
      rw [hc,h4]
    · dsimp only
      rw [ho]
      omega

theorem flushLocked_empties (h : Placed fd f i) :
    (f.flushLocked fd.cb).2 = 0 ∧ Emptied fd f (f.flushLocked fd.cb).1 i := by
  unfold Bufio.flushLocked
  cases hd : f.dir with
  | idle =>
    have hw := h.view
    simp only [View,hd] at hw
    obtain ⟨hl,ho,hb,hp⟩ := hw
    refine ⟨rfl,?_,h.pos,hb.symm,hp.symm⟩
    cases f
    simp_all
  | rd => exact ⟨rfl,flushRead_empties h hd⟩
  | wr =>
    obtain ⟨ho,hb,hp⟩ := view_wr h.view hd
    obtain ⟨g,hg,hge,hgp,hgc,hgo⟩ := flushWrite_writes f.len f 0 (Nat.le_refl _) h.pos (h.start hd)
    dsimp only
    rw [hg]
    refine ⟨rfl,?_,hgp,by rw [hgc,hb],by rw [hgo,hp]⟩
    rw [ho] at hge
    exact hge

theorem flushLocked_placed (h : Placed fd f i) :
    (f.flushLocked fd.cb).2 = 0 ∧ Placed fd (f.flushLocked fd.cb).1 i := by
  obtain ⟨hr,hc⟩ := flushLocked_empties h
  have hdir : (f.flushLocked fd.cb).1.dir = f.dir := by rw [hc.same]
  exact ⟨hr,emptied_placed h hc _ (fun hd => placed_atEnd h (hdir.symm.trans hd))⟩

theorem setdirLocked_placed (h : Placed fd f i) (d : Dir) (he : d = .wr → AtEnd fd.append i) :
    ∃ g, f.setdirLocked fd.cb d = (g,0) ∧ Placed fd g i ∧ g.dir = d := by
  by_cases hd : f.dir = d
  · exact ⟨f,by simp [Bufio.setdirLocked,hd],h,hd⟩
  · obtain ⟨hr,hc⟩ := flushLocked_empties h
    refine ⟨{ (f.flushLocked fd.cb).1 with dir := d },?_,emptied_placed h hc d he,rfl⟩
    simp only [Bufio.setdirLocked,ne_eq,hd,not_false_eq_true,if_true,hr]

theorem store_placed (h : Placed fd f i) (hd : f.dir = .wr) (c : UInt8) :
    Placed fd (f.store c) ⟨put i.bytes i.pos c,i.pos + 1⟩ := by
  obtain ⟨ho,hb,hp⟩ := view_wr h.view hd
  have hw : View fd (f.store c) ⟨put i.bytes i.pos c,i.pos + 1⟩ := by
    simp only [View,Bufio.store,hd]
    refine ⟨ho,?_,by omega⟩
    rw [slice_update_succ,overwrite_snoc,slice_length,← hb,hp]
  exact ⟨h.size,h.pos,hw,h.start⟩

theorem put_placed (h : Placed fd f i) (he : AtEnd fd.append i) (c : UInt8) : (f.put fd.cb c).2 = c.toNat ∧
    Placed fd (f.put fd.cb c).1 ⟨put i.bytes i.pos c,i.pos + 1⟩ := by
  obtain ⟨g,hg,ht,hd⟩ := setdirLocked_placed h .wr (fun _ => he)
  have hs := store_placed ht hd c
  obtain ⟨hr,hf⟩ := flushLocked_placed hs
  unfold Bufio.put
  simp only [hg,Int.lt_irrefl,if_false]
  split_ifs with hfull hneg
  · rw [hr] at hneg
    exact absurd hneg (Int.lt_irrefl 0)
  · exact ⟨rfl,hf⟩
  · exact ⟨rfl,hs⟩

theorem take_placed (h : Placed fd f i) (hd : f.dir = .rd) (hlt : f.off < f.len) :
    i.bytes[i.pos]? = some (f.buf f.off) ∧ Placed fd f.take.1 ⟨i.bytes,i.pos + 1⟩ := by
  obtain ⟨h1,h2,h3,h4,h5⟩ := view_rd h.view hd
  constructor
  · have hs : (slice f.buf 0 f.len)[f.off]? = some (f.buf f.off) := by
      rw [slice_getElem? hlt,Nat.zero_add]
    rw [h3,List.getElem?_take_of_lt hlt,List.getElem?_drop,← h4,← h5] at hs
    exact hs
  · refine placed_rd hd h.size h.pos ?_
    simp only [View,Bufio.take,hd]
    exact ⟨hlt,h2,h3,h4,by omega⟩

theorem fillLocked_placed (h : Placed fd f i) (hd : f.dir = .rd) (he : f.len ≤ f.off) :
    ∃ g, Placed fd g i ∧ g.dir = .rd ∧
      ((f.fillLocked fd.cb = (g,fdevEof) ∧ i.bytes[i.pos]? = none) ∨
        (f.fillLocked fd.cb = (g,0) ∧ g.off < g.len)) := by
  obtain ⟨h1,h2,h3,h4,h5⟩ := view_rd h.view hd
  have hpos : i.pos = fd.offset f.dev := by omega
  obtain ⟨⟨l,hl⟩,hread,hpre,hnil,hcon,hoff⟩ := fd.reads f.dev f.size h.size
  dsimp only at hpre hnil hoff
  generalize hres : fd.cb.read f.dev f.size = res at hread hcon hoff
  obtain ⟨d,_⟩ := res
  subst hread
  dsimp only at hcon hoff
  by_cases hz : l.length = 0
  · refine ⟨{ f with off := 0, len := 0, dev := d },?_,hd,.inl ⟨?_,?_⟩⟩
    · refine placed_rd hd h.size ?_ ?_
      · dsimp only
        rw [hoff,hz,h.pos,Nat.add_zero]
      · apply view_empty rfl rfl
        · rw [hcon,h4]
        · rw [hoff,hz,hpos,Nat.add_zero]
    · simp only [Bufio.fillLocked,hres,hz,if_true]
    · rw [List.getElem?_eq_none_iff,h4,hpos]
      exact hnil.mp (List.eq_nil_of_length_eq_zero hz)
  · refine ⟨f.filled d l,?_,hd,.inr ⟨?_,?_⟩⟩
    · refine placed_rd hd h.size ?_ ?_
      · dsimp only [Bufio.filled]
        rw [hoff,h.pos,Nat.cast_add]
      · simp only [View,Bufio.filled,hd]
        rw [hoff,hcon,slice_splice,Nat.add_sub_cancel]
        exact ⟨Nat.zero_le _,Nat.le_add_left _ _,List.prefix_iff_eq_take.mp hpre,h4,hpos⟩
    · simp only [Bufio.fillLocked,hres,hz,if_false]
    · dsimp only [Bufio.filled]
      omega

theorem get_placed (h : Placed fd f i) : ∃ g r, f.get fd.cb = (g,r) ∧ Placed fd g i.getc.1 ∧
    ((i.bytes[i.pos]? = none ∧ r = fdevEof) ∨ ∃ b, i.bytes[i.pos]? = some b ∧ r = b.toNat) := by
  obtain ⟨g,hg,ht,hd⟩ := setdirLocked_placed h .rd (fun hd => (by cases hd))
  have htake : ∀ g, Placed fd g i → g.dir = .rd → g.off < g.len →
      Placed fd g.take.1 i.getc.1 ∧ i.bytes[i.pos]? = some (g.buf g.off) := by
    intro g ht hd hlt
    obtain ⟨hb,htr⟩ := take_placed ht hd hlt
    simp only [Ideal.getc,hb]
    exact ⟨htr,trivial⟩
  unfold Bufio.get
  simp only [hg,Int.lt_irrefl,if_false]
  by_cases hle : g.len ≤ g.off
  · rw [if_pos hle]
    obtain ⟨k,hk,hkd,⟨hf,hn⟩ | ⟨hf,hlt⟩⟩ := fillLocked_placed ht hd hle
    · refine ⟨k,fdevEof,?_,?_,.inl ⟨hn,rfl⟩⟩
      · simp [hf,fdevEof]
      · simp only [Ideal.getc,hn]
        exact hk
    · obtain ⟨h1,h2⟩ := htake k hk hkd hlt
      refine ⟨k.take.1,k.take.2,?_,h1,.inr ⟨_,h2,rfl⟩⟩
      simp only [hf,ne_eq,not_true_eq_false,if_false]
  · rw [if_neg hle]
    obtain ⟨h1,h2⟩ := htake g ht hd (by omega)
    exact ⟨_,_,rfl,h1,.inr ⟨_,h2,rfl⟩⟩

theorem lseekTo_placed (h : Placed fd f i) (hd : f.dir = .rd) (o : Int) (w : Whence) (hw : w ≠ .cur)
    (ht : 0 ≤ w.target i.bytes.length i.pos o) :
    (f.lseekTo fd.cb o w).2 = w.target i.bytes.length i.pos o ∧
      Placed fd (f.lseekTo fd.cb o w).1 ⟨i.bytes,(w.target i.bytes.length i.pos o).toNat⟩ := by
  obtain ⟨-,-,-,h4,-⟩ := view_rd h.view hd
  have he : w.target (fd.content f.dev).length (fd.offset f.dev) o = w.target i.bytes.length i.pos o := by
    cases w with
    | set => rfl
    | cur => exact absurd rfl hw
    | fin => rw [h4]; rfl
  obtain ⟨hr,hc,ho⟩ := fd.lseeks f.dev o w (he ▸ ht)
  rw [he] at hr ho
  simp only [Bufio.lseekTo,bufioLseek,fd.seekable]
  refine ⟨hr,placed_rd hd h.size ?_ ?_⟩
  · dsimp only
    rw [hr,if_pos ht,ho,Int.toNat_of_nonneg ht]
  · apply view_empty rfl rfl
    · rw [hc,h4]
    · exact ho

theorem seekSet_placed (h : Placed fd f i) (hd : f.dir = .rd) (o : Int) (ho : 0 ≤ o) :
    (f.seekSet fd.cb o).2 = o ∧ Placed fd (f.seekSet fd.cb o).1 ⟨i.bytes,o.toNat⟩ := by
  obtain ⟨h1,h2,h3,h4,h5⟩ := view_rd h.view hd
  have hp := h.pos
  unfold Bufio.seekSet
  dsimp only
  split_ifs with hin
  · refine ⟨rfl,placed_rd hd h.size hp ?_⟩
    simp only [View,hd]
    exact ⟨by omega,h2,h3,h4,by omega⟩
  · exact lseekTo_placed h hd o .set (by decide) ho

theorem seek_placed (h : Placed fd f i) (o : Int) (w : Whence)
    (ht : 0 ≤ w.target i.bytes.length i.pos o) :
    (f.seek fd.cb o w).2 = w.target i.bytes.length i.pos o ∧
      Placed fd (f.seek fd.cb o w).1 ⟨i.bytes,(w.target i.bytes.length i.pos o).toNat⟩ := by
  obtain ⟨g,hg,htr,hd⟩ := setdirLocked_placed h .rd (fun hd => (by cases hd))
  obtain ⟨h1,h2,-,-,h5⟩ := view_rd htr.view hd
  have hp := htr.pos
  unfold Bufio.seek
  simp only [bufioSeekable,fd.seekable,Option.isSome_some,reduceCtorEq,hg,Int.lt_irrefl,if_false]
  cases w with
  | set => exact seekSet_placed htr hd o ht
  | cur =>
    have he : o + (g.pos - g.len + g.off) = (i.pos : Int) + o := by omega
    simp only [he]
    exact seekSet_placed htr hd _ ht
  | fin => exact lseekTo_placed htr hd o .fin (by decide) ht

theorem getc_placed (h : Placed fd f i) (hr : f.flags.srd = true) (hu : f.unget = 0) :
    Placed fd (f.getc fd.cb).1 i.getc.1 ∧ (f.getc fd.cb).2 = i.getc.2 ∧ (f.getc fd.cb).1.unget = 0 := by
  obtain ⟨g,r,hg,ht,hcase⟩ := get_placed h
  have hgu : g.unget = 0 := by
    have hm := (Bufio.get_marks fd.cb f).2
    rw [hg] at hm
    exact hm.trans hu
  unfold Bufio.getc
  simp only [hr,hu,hg,reduceCtorEq,ne_eq,not_true_eq_false,if_false]
  rcases hcase with ⟨hn,rfl⟩ | ⟨b,hb,rfl⟩
  · simp only [show fdevEof < 0 by decide,if_true,Bufio.endOrErr,show fdevEof ≠ fdevErr by decide,if_false]
    refine ⟨⟨ht.size,ht.pos,ht.view,ht.start⟩,?_,hgu⟩
    simp only [Ideal.getc,hn]
  · have hlt := b.toNat_lt
    rw [if_neg (by omega)]
    refine ⟨ht,?_,hgu⟩
    simp only [Ideal.getc,hb]
    omega

theorem putc_placed (h : Placed fd f i) (hw : f.flags.swr = true) (he : AtEnd fd.append i) (c : UInt8) :
    Placed fd (f.putc fd.cb c).1 ⟨put i.bytes i.pos c,i.pos + 1⟩ ∧ (f.putc fd.cb c).2 = c.toNat ∧
      (f.putc fd.cb c).1.unget = f.unget := by
  obtain ⟨hr,ht⟩ := put_placed h he c
  unfold Bufio.putc
  simp only [hw,hr,reduceCtorEq,if_false]
  rw [if_neg (by omega)]
  exact ⟨ht,rfl,(Bufio.put_marks fd.cb f c).2⟩

theorem fflush_placed (h : Placed fd f i) : Placed fd (f.fflush fd.cb).1 i ∧ (f.fflush fd.cb).2 = 0 := by
  obtain ⟨hr,ht⟩ := flushLocked_placed h
  exact ⟨⟨ht.size,ht.pos,ht.view,ht.start⟩,hr⟩

theorem ftell_placed (h : Placed fd f i) (hx : f.flags.sext = true) : Placed fd (f.ftell fd.cb).1 i ∧
    (f.ftell fd.cb).2 = (if f.unget ≠ 0 then (i.pos : Int) - 1 else i.pos) ∧
    (f.ftell fd.cb).1.unget = f.unget := by
  obtain ⟨hr,ht⟩ := seek_placed h 0 .cur (by simp [Whence.target])
  have hu := (Bufio.seek_marks fd.cb f 0 .cur).2
  simp only [Whence.target,Int.add_zero,Int.toNat_natCast] at hr ht
  unfold Bufio.ftell
  simp only [hx,if_true,hu,hr]
  exact ⟨ht,trivial,trivial⟩

theorem fseek_placed (h : Placed fd f i) (hx : f.flags.sext = true) (o : Int) (w : Whence)
    (hw : 0 ≤ w.target i.bytes.length i.pos o) :
    Placed fd (f.fseek fd.cb o w).1 ⟨i.bytes,(w.target i.bytes.length i.pos o).toNat⟩ ∧
      (f.fseek fd.cb o w).2 = 0 ∧ (f.fseek fd.cb o w).1.unget = 0 := by
  obtain ⟨hr,ht⟩ := seek_placed h o w hw
  unfold Bufio.fseek
  simp only [hx,if_true,hr,hw]
  exact ⟨⟨ht.size,ht.pos,ht.view,ht.start⟩,trivial,trivial⟩

end

end Stdio
