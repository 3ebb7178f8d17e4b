import Mathlib
import Picolibc.Lib.Simulation
import Picolibc.Stdio.Frames

namespace Stdio

open ByteMemory Simulation

variable {D : Type}

section

variable (cfg : Build) (cb : Callbacks D)

def putStores (f : Bufio D) : List Nat :=
  if (f.setdirLocked cb .wr).2 < 0 then [] else [(f.setdirLocked cb .wr).1.len]

def bufferedStores : Nat → Bufio D → Mem → Nat → Nat → List Nat
  | 0, _, _, _, _ => []
  | fuel + 1, f, data, at', bytes =>
    if bytes = 0 then [] else
    let room := f.size - f.len
    let r := if room = 0 then f.flushLocked cb else (f,0)
    if r.2 ≠ 0 then [] else
    let thisTime := min room bytes
    (List.range thisTime).map (r.1.len + ·) ++
      bufferedStores fuel
        { r.1 with
          buf := splice r.1.buf r.1.len (slice data at' thisTime)
          len := r.1.len + thisTime }
        data (at' + thisTime) (bytes - thisTime)

def itemStores : Nat → Bufio D → Mem → Nat → List Nat
  | 0, _, _, _ => []
  | n + 1, f, data, at' =>
    let r := f.put cb (data at')
    putStores cb f ++ if r.2 < 0 then [] else itemStores n r.1 data (at' + 1)

def itemsStores (size : Nat) : Nat → Bufio D → Mem → Nat → List Nat
  | 0, _, _, _ => []
  | n + 1, f, data, i =>
    let r := Bufio.putItem cb size f data (i * size)
    itemStores cb size f data (i * size) ++ if r.2 then itemsStores size n r.1 data (i + 1) else []

def takesFast (f : Bufio D) (size nmemb : Nat) : Prop :=
  cfg.fastBufio = true ∧ f.flags.sbuf = true ∧ f.bflags.blbf = false ∧
    Bufio.mulOverflow cfg size nmemb = false ∧ 0 < size * nmemb

instance (f : Bufio D) (size nmemb : Nat) : Decidable (takesFast cfg f size nmemb) :=
  inferInstanceAs (Decidable (_ ∧ _ ∧ _ ∧ _ ∧ _))

def fwriteStores (f : Bufio D) (data : Mem) (size nmemb : Nat) : List Nat :=
  if f.flags.swr = false ∨ size = 0 then [] else
  if takesFast cfg f size nmemb then
    let g := (f.setdirLocked cb .wr).1
    if size * nmemb < g.size then bufferedStores cb (2 * (size * nmemb)) g data 0 (size * nmemb) else []
  else itemsStores cb size nmemb f data 0

def Call.stores : Call → Bufio D → List Nat
  | .putc _, f => if f.flags.swr = false then [] else putStores cb f
  | .fwrite data size nmemb, f => fwriteStores cfg cb f data size nmemb
  | _, _ => []

def NotFull (f : Bufio D) : Prop := f.dir = .wr → f.len < f.size

def Roomy (f : Bufio D) : Call → Prop
  | .putc _ => NotFull f
  | .fwrite _ size nmemb => takesFast cfg f size nmemb ∨ NotFull f
  | _ => True

end

section

variable (cfg : Build) (cb : Callbacks D) (f : Bufio D) {i : Nat}

theorem flushLocked_buf : (f.flushLocked cb).1.buf = f.buf := by
  cases hd : f.dir with
  | wr =>
    obtain ⟨d,p,r,heq,-⟩ := Bufio.flushLocked_wr cb hd
    rw [heq]
  | rd =>
    obtain ⟨d,p,heq⟩ := Bufio.flushRead_frame cb f
    rw [Bufio.flushLocked_rd cb hd,heq]
  | idle => rw [Bufio.flushLocked_idle cb hd]

theorem setdirLocked_buf (d : Dir) : (f.setdirLocked cb d).1.buf = f.buf := by
  rw [Bufio.setdirLocked]
  split_ifs
  · exact flushLocked_buf cb f
  · rfl

theorem put_stores (c : UInt8) (hi : i ∉ putStores cb f) : (f.put cb c).1.buf i = f.buf i := by
  rw [putStores] at hi
  rw [Bufio.put]
  dsimp only
  by_cases hneg : (f.setdirLocked cb .wr).2 < 0
  · rw [if_pos hneg,setdirLocked_buf]
  · rw [if_neg hneg,List.mem_singleton] at hi
    have hstore : ((f.setdirLocked cb .wr).1.store c).buf i = f.buf i :=
      (Function.update_of_ne hi _ _).trans (congrFun (setdirLocked_buf cb f .wr) i)
    rw [if_neg hneg]
    split_ifs
    · rw [flushLocked_buf]
      exact hstore
    · rw [flushLocked_buf]
      exact hstore
    · exact hstore

theorem writeBuffered_keeps (fuel : Nat) (data : Mem) (start bytes : Nat)
    (hi : i ∉ bufferedStores cb fuel f data start bytes) : (Bufio.writeBuffered cb fuel f data start bytes).1.buf i = f.buf i := by
  induction fuel generalizing f start bytes with
  | zero => rfl
  | succ fuel ih =>
    have hflushed : (if f.size - f.len = 0 then f.flushLocked cb else (f,0)).1.buf = f.buf := by
      split_ifs
      · exact flushLocked_buf cb f
      · rfl
    rw [bufferedStores] at hi
    rw [Bufio.writeBuffered]
    dsimp only at hi ⊢
    by_cases hzero : bytes = 0
    · rw [if_pos hzero]
    · rw [if_neg hzero] at hi ⊢
      by_cases hfail : (if f.size - f.len = 0 then f.flushLocked cb else (f,0)).2 ≠ 0
      · rw [if_pos hfail]
        exact congrFun hflushed i
      · rw [if_neg hfail,List.mem_append,not_or] at hi
        rw [if_neg hfail,ih _ _ _ hi.2]
        refine (splice_outside ?_).trans (congrFun hflushed i)
        rintro ⟨hlow,hhigh⟩
        rw [slice_length] at hhigh
        exact hi.1 (List.mem_map.mpr ⟨i - _,List.mem_range.mpr (by omega),Nat.add_sub_cancel' hlow⟩)

theorem putItem_stores (n : Nat) (data : Mem) (start : Nat) (hi : i ∉ itemStores cb n f data start) :
    (Bufio.putItem cb n f data start).1.buf i = f.buf i := by
  induction n generalizing f start with
  | zero => rfl
  | succ n ih =>
    rw [itemStores] at hi
    rw [Bufio.putItem]
    rw [List.mem_append,not_or] at hi
    have hput := put_stores cb f (data start) hi.1
    split_ifs with hfail
    · exact hput
    · rw [if_neg hfail] at hi
      exact (ih _ _ hi.2).trans hput

theorem putItems_stores (size n : Nat) (data : Mem) (k : Nat) (hi : i ∉ itemsStores cb size n f data k) :
    (Bufio.putItems cb size n f data k).1.buf i = f.buf i := by
  induction n generalizing f k with
  | zero => rfl
  | succ n ih =>
    rw [itemsStores] at hi
    rw [Bufio.putItems]
    rw [List.mem_append,not_or] at hi
    have hitem := putItem_stores cb f size data (k * size) hi.1
    split_ifs with hmore
    · rw [if_pos hmore] at hi
      exact (ih _ _ hi.2).trans hitem
    · exact hitem

theorem writeDirect_buf (fuel : Nat) (data : Mem) (start bytes : Nat) :
    (Bufio.writeDirect cb fuel f data start bytes).1.buf = f.buf := by
  induction fuel generalizing f start bytes with
  | zero => rfl
  | succ fuel ih =>
    rw [Bufio.writeDirect]
    split_ifs
    · rfl
    · split
      · rfl
      · split_ifs
        · rfl
        · exact ih _ _ _

theorem putc_stores (c : UInt8) (hi : i ∉ (Call.putc c).stores cfg cb f) : ((Call.putc c).exec cfg cb f).1.buf i = f.buf i := by
  rw [Call.stores] at hi
  rw [Call.exec,Bufio.putc]
  split_ifs with hclosed
  · rfl
  · rw [if_neg hclosed] at hi
    dsimp only
    split_ifs
    · exact put_stores cb f c hi
    · exact put_stores cb f c hi

theorem fwrite_stores (data : Mem) (size nmemb : Nat) (hi : i ∉ (Call.fwrite data size nmemb).stores cfg cb f) :
    ((Call.fwrite data size nmemb).exec cfg cb f).1.buf i = f.buf i := by
  show (f.fwrite cfg cb data size nmemb).1.buf i = f.buf i
  rw [Call.stores,fwriteStores] at hi
  rw [Bufio.fwrite]
  by_cases hclosed : f.flags.swr = false ∨ size = 0
  · rw [if_pos hclosed]
  · rw [if_neg hclosed] at hi ⊢
    by_cases hfast : takesFast cfg f size nmemb
    · rw [if_pos hfast] at hi
      rw [if_pos (show cfg.fastBufio = true ∧ _ from hfast)]
      have hdir := congrFun (setdirLocked_buf cb f .wr) i
      dsimp only at hi ⊢
      rw [Bufio.fwriteFast]
      dsimp only
      split_ifs with hshort
      · rw [if_pos hshort] at hi
        exact (writeBuffered_keeps cb _ _ data 0 _ hi).trans hdir
      · rw [writeDirect_buf,flushLocked_buf]
        exact hdir
      · rw [flushLocked_buf]
        exact hdir
    · rw [if_neg hfast] at hi
      rw [if_neg (show ¬(cfg.fastBufio = true ∧ _) from hfast)]
      exact putItems_stores cb f size nmemb data 0 hi

end

structure Within (f : Bufio D) : Prop where
  pos : 0 < f.size
  len : f.len ≤ f.size
  idle : f.dir = .idle → f.len = 0

def Whole (f g : Bufio D) : Prop := g.size = f.size ∧ Within g

section

variable {cb : Callbacks D} {f g : Bufio D}

theorem Whole.trans {h : Bufio D} (a : Whole f g) (b : Whole g h) : Whole f h := ⟨b.1.trans a.1,b.2⟩

theorem Within.self (hf : Within f) : Whole f f := ⟨rfl,hf⟩

theorem Within.emptied (hf : Within f) (hs : g.size = f.size) (hl : g.len = 0) : Whole f g :=
  ⟨hs,⟨hs ▸ hf.pos,by omega,fun _ => hl⟩⟩

theorem flushLocked_whole (cb : Callbacks D) (hf : Within f) : Whole f (f.flushLocked cb).1 ∧
    (f.dir = .wr → (f.flushLocked cb).1.dir = .wr ∧ (f.flushLocked cb).1.len = 0) := by
  cases hd : f.dir with
  | wr =>
    obtain ⟨d,p,r,heq,-⟩ := Bufio.flushLocked_wr cb hd
    rw [heq]
    exact ⟨hf.emptied rfl rfl,fun _ => ⟨hd,rfl⟩⟩
  | rd =>
    obtain ⟨d,p,heq⟩ := Bufio.flushRead_frame cb f
    rw [Bufio.flushLocked_rd cb hd,heq]
    exact ⟨hf.emptied rfl rfl,fun h => (by cases h)⟩
  | idle =>
    rw [Bufio.flushLocked_idle cb hd]
    exact ⟨hf.self,fun h => (by cases h)⟩

theorem setdirLocked_wr_whole (cb : Callbacks D) (hf : Within f) : ∃ g, f.setdirLocked cb .wr = (g,0) ∧
    Whole f g ∧ g.dir = .wr ∧ (NotFull f → g.len < g.size) := by
  obtain ⟨g,heq,hg,hw,hi,hr⟩ := Bufio.setdirLocked_wr_ok cb f
  refine ⟨g,heq,?_⟩
  have hpos := hf.pos
  cases hd : f.dir with
  | wr =>
    rw [hw hd]
    exact ⟨hf.self,hd,fun hn => hn hd⟩
  | idle =>
    have h0 := hf.idle hd
    rw [hi hd]
    exact ⟨hf.emptied rfl h0,rfl,fun _ => by dsimp only; omega⟩
  | rd =>
    obtain ⟨d,p,hfr⟩ := Bufio.flushRead_frame cb f
    rw [hr hd,hfr]
    exact ⟨hf.emptied rfl rfl,rfl,fun _ => hpos⟩

theorem setdirLocked_rd_whole (cb : Callbacks D) (hf : Within f) : Whole f (f.setdirLocked cb .rd).1 := by
  cases hd : f.dir with
  | rd =>
    rw [Bufio.setdirLocked_same cb hd]
    exact hf.self
  | idle =>
    rw [Bufio.setdirLocked_idle cb hd]
    exact hf.emptied rfl (hf.idle hd)
  | wr =>
    obtain ⟨d,p,r,heq,-⟩ := Bufio.setdirLocked_wr_rd cb hd
    rw [heq]
    exact hf.emptied rfl rfl

theorem put_whole (cb : Callbacks D) (hf : Within f) (hn : NotFull f) (c : UInt8) :
    Whole f (f.put cb c).1 ∧ NotFull (f.put cb c).1 ∧ ∀ i ∈ putStores cb f, i < f.size := by
  obtain ⟨g,heq,hg,hd,hroom⟩ := setdirLocked_wr_whole cb hf
  have hlt := hroom hn
  have hst : Whole f (g.store c) :=
    ⟨hg.1,⟨hg.2.pos,hlt,fun h => absurd (hd.symm.trans h) (by decide)⟩⟩
  have hput : f.put cb c = if (g.store c).size ≤ (g.store c).len ∨ (c = 10 ∧ (g.store c).bflags.blbf = true) then
      (((g.store c).flushLocked cb).1,if ((g.store c).flushLocked cb).2 < 0 then fdevErr else c.toNat)
      else (g.store c,c.toNat) := by
    simp only [Bufio.put,heq]
    rw [if_neg (lt_irrefl 0)]
  refine ⟨?_,?_,?_⟩
  · rw [hput]
    split_ifs
    · exact hst.trans (flushLocked_whole cb hst.2).1
    · exact hst.trans (flushLocked_whole cb hst.2).1
    · exact hst
  · obtain ⟨hfl,hempty⟩ := flushLocked_whole cb hst.2
    obtain ⟨-,h0⟩ := hempty hd
    have hp := hfl.2.pos
    rw [hput]
    intro _
    split_ifs with hfull
    · dsimp only
      omega
    · dsimp only
      omega
    · rw [not_or] at hfull
      exact Nat.not_le.mp hfull.1
  · rw [putStores,heq,if_neg (lt_irrefl 0)]
    intro i hi
    rw [List.mem_singleton.mp hi,← hg.1]
    exact hlt

theorem fillLocked_whole (cb : Callbacks D) (hf : Within f) (hd : f.dir = .rd) :
    Whole f (f.fillLocked cb).1 ∧ (f.fillLocked cb).1.dir = .rd := by
  rw [Bufio.fillLocked]
  rcases cb.read f.dev f.size with ⟨d,_ | l⟩
  · exact ⟨hf.emptied rfl rfl,hd⟩
  · dsimp only
    split_ifs
    · exact ⟨hf.emptied rfl rfl,hd⟩
    · exact ⟨⟨rfl,⟨hf.pos,l.property,fun h => absurd (hd.symm.trans h) (by decide)⟩⟩,hd⟩

theorem get_whole (cb : Callbacks D) (hf : Within f) : Whole f (f.get cb).1 := by
  have hs := setdirLocked_rd_whole cb hf
  obtain ⟨hfill,hd⟩ := fillLocked_whole cb hs.2 (Bufio.setdirLocked_dir cb f .rd)
  rw [Bufio.get]
  dsimp only
  split_ifs
  · exact hs
  · exact hs.trans hfill
  · exact hs.trans ⟨hfill.1,⟨hfill.2.pos,hfill.2.len,fun h => absurd (hd.symm.trans h) (by decide)⟩⟩
  · exact ⟨hs.1,⟨hs.2.pos,hs.2.len,hs.2.idle⟩⟩

theorem seek_whole (cb : Callbacks D) (hf : Within f) (o : Int) (w : Whence) : Whole f (f.seek cb o w).1 := by
  have hs := setdirLocked_rd_whole cb hf
  have hl : ∀ o w, Whole f ((f.setdirLocked cb .rd).1.lseekTo cb o w).1 :=
    fun o w => hs.trans (hs.2.emptied rfl rfl)
  have hset : ∀ o, Whole f ((f.setdirLocked cb .rd).1.seekSet cb o).1 := by
    intro o
    rw [Bufio.seekSet]
    split_ifs
    · exact ⟨hs.1,⟨hs.2.pos,hs.2.len,hs.2.idle⟩⟩
    · exact hl _ _
  rw [Bufio.seek]
  split_ifs
  · exact hf.self
  · dsimp only
    split_ifs
    · exact hs
    · cases w with
      | set => exact hset o
      | cur => exact hset _
      | fin => exact hl _ _

theorem writeBuffered_whole (cb : Callbacks D) (fuel : Nat) (data : Mem) (hf : Within f) (hd : f.dir = .wr)
    (start bytes : Nat) : Whole f (Bufio.writeBuffered cb fuel f data start bytes).1 ∧
      ∀ i ∈ bufferedStores cb fuel f data start bytes, i < f.size := by
  induction fuel generalizing f start bytes with
  | zero => exact ⟨hf.self,by simp [bufferedStores]⟩
  | succ fuel ih =>
    rw [Bufio.writeBuffered,bufferedStores]
    by_cases h0 : bytes = 0
    · rw [if_pos h0,if_pos h0]
      exact ⟨hf.self,by simp⟩
    · rw [if_neg h0,if_neg h0]
      dsimp only
      obtain ⟨g,hg⟩ : ∃ g, g = if f.size - f.len = 0 then f.flushLocked cb else (f,0) := ⟨_,rfl⟩
      have hstep : Whole f g.1 ∧ g.1.dir = .wr ∧ (f.size - f.len ≠ 0 → g.1 = f) := by
        rw [hg]
        split_ifs with hz
        · obtain ⟨h1,h2⟩ := flushLocked_whole cb hf
          exact ⟨h1,(h2 hd).1,fun h => absurd hz h⟩
        · exact ⟨hf.self,hd,fun _ => rfl⟩
      obtain ⟨hw,hdir,hsame⟩ := hstep
      rw [← hg]
      by_cases hr : g.2 ≠ 0
      · rw [if_pos hr,if_pos hr]
        exact ⟨⟨hw.1,⟨hw.2.pos,hw.2.len,hw.2.idle⟩⟩,by simp⟩
      · rw [if_neg hr,if_neg hr]
        have hlen : g.1.len + min (f.size - f.len) bytes ≤ g.1.size := by
          have h1 := hw.2.len
          by_cases hz : f.size - f.len = 0
          · omega
          · rw [hsame hz] at h1 ⊢
            omega
        have hnext : Within { g.1 with
            buf := splice g.1.buf g.1.len (slice data start (min (f.size - f.len) bytes))
            len := g.1.len + min (f.size - f.len) bytes } :=
          ⟨hw.2.pos,hlen,fun h => absurd (hdir.symm.trans h) (by decide)⟩
        obtain ⟨h1,h2⟩ := ih hnext hdir (start + min (f.size - f.len) bytes) (bytes - min (f.size - f.len) bytes)
        refine ⟨⟨h1.1.trans hw.1,h1.2⟩,?_⟩
        intro i hi
        rcases List.mem_append.mp hi with hi | hi
        · obtain ⟨j,hj,rfl⟩ := List.mem_map.mp hi
          have hj' := List.mem_range.mp hj
          have hsz := hw.1
          omega
        · rw [← hw.1]
          exact h2 i hi

theorem writeDirect_whole (cb : Callbacks D) (fuel : Nat) (data : Mem) (hf : Within f) (start bytes : Nat) :
    Whole f (Bufio.writeDirect cb fuel f data start bytes).1 := by
  induction fuel generalizing f start bytes with
  | zero => exact hf.self
  | succ fuel ih =>
    rw [Bufio.writeDirect]
    split_ifs
    · exact hf.self
    · rcases cb.write f.dev (slice data start bytes) with ⟨d,_ | n⟩
      · exact ⟨rfl,⟨hf.pos,hf.len,hf.idle⟩⟩
      · dsimp only
        split_ifs
        · exact ⟨rfl,⟨hf.pos,hf.len,hf.idle⟩⟩
        · have hnext : Within { f with dev := d, pos := f.pos + n.val } := ⟨hf.pos,hf.len,hf.idle⟩
          exact ih hnext (start + n.val) (bytes - n.val)

theorem putItem_whole (cb : Callbacks D) (n : Nat) (data : Mem) (hf : Within f) (hn : NotFull f) (start : Nat) :
    Whole f (Bufio.putItem cb n f data start).1 ∧ NotFull (Bufio.putItem cb n f data start).1 ∧
      ∀ i ∈ itemStores cb n f data start, i < f.size := by
  induction n generalizing f start with
  | zero => exact ⟨hf.self,hn,by simp [itemStores]⟩
  | succ n ih =>
    obtain ⟨hw,hn',hst⟩ := put_whole cb hf hn (data start)
    rw [Bufio.putItem,itemStores]
    split_ifs
    · exact ⟨hw,hn',by simpa using hst⟩
    · obtain ⟨hw2,hn2,hst2⟩ := ih hw.2 hn' (start + 1)
      refine ⟨hw.trans hw2,hn2,?_⟩
      intro i hi
      rcases List.mem_append.mp hi with hi | hi
      · exact hst i hi
      · rw [← hw.1]
        exact hst2 i hi

theorem putItems_whole (cb : Callbacks D) (size n : Nat) (data : Mem) (hf : Within f) (hn : NotFull f) (k : Nat) :
    Whole f (Bufio.putItems cb size n f data k).1 ∧ ∀ i ∈ itemsStores cb size n f data k, i < f.size := by
  induction n generalizing f k with
  | zero => exact ⟨hf.self,by simp [itemsStores]⟩
  | succ n ih =>
    obtain ⟨hw,hn',hst⟩ := putItem_whole cb size data hf hn (k * size)
    rw [Bufio.putItems,itemsStores]
    split_ifs
    · obtain ⟨hw2,hst2⟩ := ih hw.2 hn' (k + 1)
      refine ⟨hw.trans hw2,?_⟩
      intro i hi
      rcases List.mem_append.mp hi with hi | hi
      · exact hst i hi
      · rw [← hw.1]
        exact hst2 i hi
    · exact ⟨hw,by simpa using hst⟩

theorem fwrite_whole (cfg : Build) (cb : Callbacks D) (data : Mem) (size nmemb : Nat) (hf : Within f)
    (hr : takesFast cfg f size nmemb ∨ NotFull f) : Whole f (f.fwrite cfg cb data size nmemb).1 ∧
      ∀ i ∈ fwriteStores cfg cb f data size nmemb, i < f.size := by
  rw [Bufio.fwrite,fwriteStores]
  split_ifs with h0 hfast hfast' hfast''
  · exact ⟨hf.self,by simp⟩
  · obtain ⟨g,heq,hg,hd,-⟩ := setdirLocked_wr_whole cb hf
    rw [Bufio.fwriteFast,heq]
    dsimp only
    split_ifs
    · obtain ⟨h1,h2⟩ := writeBuffered_whole cb (2 * (size * nmemb)) data hg.2 hd 0 (size * nmemb)
      exact ⟨hg.trans h1,fun i hi => hg.1 ▸ h2 i hi⟩
    · have hfl := (flushLocked_whole cb hg.2).1
      exact ⟨hg.trans (hfl.trans (writeDirect_whole cb _ data hfl.2 0 _)),by simp⟩
    · exact ⟨hg.trans (flushLocked_whole cb hg.2).1,by simp⟩
  · exact absurd hfast hfast'
  · exact absurd hfast'' hfast
  · exact putItems_whole cb size nmemb data hf (hr.resolve_left hfast) 0

theorem readBlock_whole (cb : Callbacks D) (fuel : Nat) (hf : Within f) (hd : f.dir = .rd) (bytes : Nat)
    (got : List UInt8) : Whole f (Bufio.readBlock cb fuel f bytes got).1 := by
  induction fuel generalizing f bytes got with
  | zero => exact hf.self
  | succ fuel ih =>
    rw [Bufio.readBlock]
    split_ifs
    · exact hf.self
    · have hnext : Within { f with off := f.off + min bytes (f.len - f.off) } := ⟨hf.pos,hf.len,hf.idle⟩
      exact ih hnext hd _ _
    · obtain ⟨hfill,hdir⟩ := fillLocked_whole cb hf hd
      dsimp only
      split_ifs
      · rw [Bufio.endOrErr]
        split_ifs
        · exact ⟨hfill.1,⟨hfill.2.pos,hfill.2.len,hfill.2.idle⟩⟩
        · exact ⟨hfill.1,⟨hfill.2.pos,hfill.2.len,hfill.2.idle⟩⟩
      · exact hfill.trans (ih hfill.2 hdir _ _)
    · rcases cb.read f.dev bytes with ⟨d,_ | l⟩
      · exact hf.emptied rfl rfl
      · dsimp only
        split_ifs
        · exact hf.emptied rfl rfl
        · have hnext : Whole f { f with len := 0, off := 0, dev := d, pos := f.pos + l.val.length } :=
            hf.emptied rfl rfl
          exact hnext.trans (ih hnext.2 hd _ _)

theorem getc_whole (cb : Callbacks D) (hf : Within f) : Whole f (f.getc cb).1 := by
  have hg := get_whole cb hf
  rw [Bufio.getc]
  split_ifs
  · exact ⟨rfl,⟨hf.pos,hf.len,hf.idle⟩⟩
  · exact ⟨rfl,⟨hf.pos,hf.len,hf.idle⟩⟩
  · dsimp only
    split_ifs
    · rw [Bufio.endOrErr]
      split_ifs
      · exact ⟨hg.1,⟨hg.2.pos,hg.2.len,hg.2.idle⟩⟩
      · exact ⟨hg.1,⟨hg.2.pos,hg.2.len,hg.2.idle⟩⟩
    · exact hg

theorem getItem_whole (cb : Callbacks D) (n : Nat) (hf : Within f) (got : List UInt8) :
    Whole f (Bufio.getItem cb n f got).1 := by
  induction n generalizing f got with
  | zero => exact hf.self
  | succ n ih =>
    have hg := getc_whole cb hf
    rw [Bufio.getItem]
    split_ifs
    · exact hg
    · exact hg.trans (ih hg.2 _)

theorem getItems_whole (cb : Callbacks D) (size n : Nat) (hf : Within f) (got : List UInt8) (k : Nat) :
    Whole f (Bufio.getItems cb size n f got k).1 := by
  induction n generalizing f got k with
  | zero => exact hf.self
  | succ n ih =>
    have hg := getItem_whole cb size hf got
    rw [Bufio.getItems]
    split_ifs
    · exact hg.trans (ih hg.2 _ _)
    · exact hg

theorem fread_whole (cfg : Build) (cb : Callbacks D) (size nmemb : Nat) (hf : Within f) :
    Whole f (f.fread cfg cb size nmemb).1 := by
  have hs := setdirLocked_rd_whole cb hf
  have hd := Bufio.setdirLocked_dir cb f .rd
  rw [Bufio.fread]
  split_ifs
  · exact hf.self
  · dsimp only
    rw [Bufio.freadFast]
    split_ifs
    · have hnext : Within { (f.setdirLocked cb .rd).1 with unget := 0 } := ⟨hs.2.pos,hs.2.len,hs.2.idle⟩
      have hr := readBlock_whole cb (2 * (size * nmemb)) hnext hd (size * nmemb - 1)
        [((f.setdirLocked cb .rd).1.unget - 1).toUInt8]
      exact ⟨hr.1.trans hs.1,hr.2⟩
    · exact hs.trans (readBlock_whole cb _ hs.2 hd _ _)
  · exact getItems_whole cb size nmemb hf [] 0

theorem fflush_whole (cb : Callbacks D) (hf : Within f) : Whole f (f.fflush cb).1 := by
  have hfl := (flushLocked_whole cb hf).1
  exact ⟨hfl.1,⟨hfl.2.pos,hfl.2.len,hfl.2.idle⟩⟩

theorem close_whole (cb : Callbacks D) (hf : Within f) : Whole f (f.close cb).1 ∧ Whole f (f.closeNf cb).1 := by
  have hfl := (flushLocked_whole cb hf).1
  refine ⟨?_,hfl⟩
  rw [Bufio.close]
  dsimp only
  split_ifs
  · exact ⟨hfl.1,⟨hfl.2.pos,hfl.2.len,hfl.2.idle⟩⟩
  · exact hfl

theorem fclose_whole (cfg : Build) (cb : Callbacks D) (hf : Within f) : Whole f (f.fclose cfg cb).1 := by
  obtain ⟨g,hg⟩ : ∃ g, g = if cfg.stdioLocking then (f.fflush cb).1 else f := ⟨_,rfl⟩
  have hw : Whole f g := by
    rw [hg]
    split_ifs
    · exact fflush_whole cb hf
    · exact hf.self
  rw [Bufio.fclose]
  rw [← hg]
  split_ifs
  · obtain ⟨h1,h2⟩ := close_whole cb hw.2
    cases g.closeFn with
    | bufioClose => exact hw.trans h1
    | bufioCloseNf => exact hw.trans h2
  · exact hw

theorem exec_whole (cfg : Build) (cb : Callbacks D) (call : Call) (hf : Within f) (hr : Roomy cfg f call) :
    Whole f (call.exec cfg cb f).1 ∧ ∀ i ∈ call.stores cfg cb f, i < f.size := by
  cases call with
  | getc => exact ⟨getc_whole cb hf,by simp [Call.stores]⟩
  | putc c =>
    obtain ⟨hw,-,hst⟩ := put_whole cb hf hr c
    rw [Call.exec,Call.stores,Bufio.putc]
    split_ifs
    · exact ⟨hf.self,by simp⟩
    · dsimp only
      split_ifs
      · exact ⟨⟨hw.1,⟨hw.2.pos,hw.2.len,hw.2.idle⟩⟩,hst⟩
      · exact ⟨hw,hst⟩
  | ungetc c =>
    refine ⟨?_,by simp [Call.stores]⟩
    rw [Call.exec,Bufio.ungetc]
    split_ifs
    · exact hf.self
    · exact hf.self
    · exact ⟨rfl,⟨hf.pos,hf.len,hf.idle⟩⟩
  | fflush => exact ⟨fflush_whole cb hf,by simp [Call.stores]⟩
  | ftell =>
    have hs := seek_whole cb hf 0 .cur
    refine ⟨?_,by simp [Call.stores]⟩
    rw [Call.exec,Bufio.ftell]
    split_ifs
    · exact hs
    · exact hf.self
  | fseek o w =>
    have hs := seek_whole cb hf o w
    refine ⟨?_,by simp [Call.stores]⟩
    rw [Call.exec,Bufio.fseek]
    split_ifs
    · dsimp only
      split_ifs
      · exact ⟨hs.1,⟨hs.2.pos,hs.2.len,hs.2.idle⟩⟩
      · exact hs
    · exact hf.self
  | fwrite data size nmemb => exact fwrite_whole cfg cb data size nmemb hf hr
  | fread size nmemb => exact ⟨fread_whole cfg cb size nmemb hf,by simp [Call.stores]⟩
  | fclose => exact ⟨fclose_whole cfg cb hf,by simp [Call.stores]⟩

end

def Bufio.step (cfg : Build) (cb : Callbacks D) (f : Bufio D) (call : Call) : Bufio D × Int :=
  call.exec cfg cb f

theorem stores_in_buffer (cfg : Build) (cb : Callbacks D) (dev : D) (buf : Mem) {size : Nat} (hs : 0 < size)
    (rd wr : Bool) (bflags : BFlags) (calls : List Call)
    (hr : Along (Bufio.step cfg cb) (Roomy cfg) (fdevSetupBufio dev buf size rd wr bflags) calls) :
    let f := (run (Bufio.step cfg cb) (fdevSetupBufio dev buf size rd wr bflags) calls).1
    f.size = size ∧ f.len ≤ size ∧ ∀ call, Roomy cfg f call → ∀ i ∈ call.stores cfg cb f, i < size := by
  have hinit : Whole (fdevSetupBufio dev buf size rd wr bflags) (fdevSetupBufio dev buf size rd wr bflags) :=
    ⟨rfl,⟨hs,Nat.zero_le _,fun _ => rfl⟩⟩
  have hrun := run_preserves (fun f call hf hok => hf.trans (exec_whole cfg cb call hf.2 hok).1) hinit hr
  have hsize : (run (Bufio.step cfg cb) (fdevSetupBufio dev buf size rd wr bflags) calls).1.size = size := hrun.1
  refine ⟨hsize,hrun.2.len.trans hsize.le,?_⟩
  intro call hroom i hi
  exact ((exec_whole cfg cb call hrun.2 hroom).2 i hi).trans_le hsize.le

def sink : Callbacks Unit where
  read := fun d _ => (d,none)
  write := fun d l => (d,some ⟨l.length,le_rfl⟩)
  lseek := none
  close := none

theorem stores_in_buffer_filled :
    let f := (run (Bufio.step ⟨true,false,64⟩ sink)
      (fdevSetupBufio () (fun _ => 0) 4 false true ⟨false,false,false⟩) [.fwrite (fun _ => 65) 1 3,.putc 66]).1
    f.len ≤ 4 :=
  (stores_in_buffer ⟨true,false,64⟩ sink () (fun _ => 0) (show 0 < 4 by decide) false true ⟨false,false,false⟩
    [.fwrite (fun _ => 65) 1 3,.putc 66] ⟨.inl (by decide),fun _ => by decide,trivial⟩).2.1

theorem full_buffer_overrun : ¬ ∀ calls : List Call, ∀ call : Call,
    ∀ i ∈ call.stores ⟨true,false,64⟩ sink (run (Bufio.step ⟨true,false,64⟩ sink)
      (fdevSetupBufio () (fun _ => 0) 4 false true ⟨false,false,false⟩) calls).1, i < 4 := by
  intro hall
  have hidx := hall [.fwrite (fun _ => 65) 1 3,.fwrite (fun _ => 65) 1 1] (.putc 66) 4 (by decide)
  exact absurd hidx (by decide)

end Stdio
