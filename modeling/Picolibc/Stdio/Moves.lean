import Mathlib
import Picolibc.Stdio.Frames

namespace Stdio

open ByteMemory Relation

variable {D : Type}

def Bufio.readPast (cb : Callbacks D) (f : Bufio D) (n : Nat) : Bufio D :=
  match cb.read f.dev n with
  | (d,none) => { f with len := 0, off := 0, dev := d }
  | (d,some l) => { f with len := 0, off := 0, dev := d, pos := f.pos + l.val.length }

def Bufio.writePast (cb : Callbacks D) (f : Bufio D) (l : List UInt8) : Bufio D :=
  match cb.write f.dev l with
  | (d,none) => { f with dev := d }
  | (d,some n) => { f with dev := d, pos := f.pos + n.val }

structure Flags.Keeps (a b : Flags) : Prop where
  sext : a.sext = true → b.sext = true
  srd : a.srd = true → b.srd = true
  sbuf : a.sbuf = true → b.sbuf = true

inductive Move (cb : Callbacks D) : Bufio D → Bufio D → Prop
  | marked (f : Bufio D) (u : UInt16) (fl : Flags) (hk : f.flags.Keeps fl) : Move cb f { f with unget := u, flags := fl }
  | flushed (f : Bufio D) : Move cb f (f.flushLocked cb).1
  | turned (f : Bufio D) (d : Dir) : Move cb f (f.setdirLocked cb d).1
  | stored (f : Bufio D) (c : UInt8) (hd : f.dir = .wr) : Move cb f (f.store c)
  | appended (f : Bufio D) (l : List UInt8) (hd : f.dir = .wr) :
    Move cb f { f with buf := splice f.buf f.len l, len := f.len + l.length }
  | filled (f : Bufio D) (hd : f.dir = .rd) (he : f.len ≤ f.off) : Move cb f (f.fillLocked cb).1
  | advanced (f : Bufio D) (k : Nat) (hd : f.dir = .rd) (hk : k ≤ f.len) : Move cb f { f with off := k }
  | passed (f : Bufio D) (n : Nat) (hd : f.dir = .rd) (he : f.len ≤ f.off) (hn : 0 < n) : Move cb f (f.readPast cb n)
  | sent (f : Bufio D) (l : List UInt8) (hd : f.dir = .wr) (he : f.len = 0) (hl : l ≠ []) :
    Move cb f (f.writePast cb l)
  | sought (f : Bufio D) (o : Int) (w : Whence) (hd : f.dir = .rd) (hw : w ≠ .cur) : Move cb f (f.lseekTo cb o w).1

def Moves (cb : Callbacks D) : Bufio D → Bufio D → Prop := ReflTransGen (Move cb)

variable {cb : Callbacks D} {f g h : Bufio D}

theorem Moves.trans (h1 : Moves cb f g) (h2 : Moves cb g h) : Moves cb f h := ReflTransGen.trans h1 h2

theorem Moves.tail (h1 : Moves cb f g) (h2 : Move cb g h) : Moves cb f h := ReflTransGen.tail h1 h2

theorem Moves.head (h1 : Move cb f g) (h2 : Moves cb g h) : Moves cb f h := ReflTransGen.head h1 h2

theorem Moves.refl : Moves cb f f := ReflTransGen.refl

theorem Moves.single (h1 : Move cb f g) : Moves cb f g := ReflTransGen.single h1

theorem Moves.preserves {inv : Bufio D → Prop} (hstep : ∀ f g, Move cb f g → inv f → inv g) (hm : Moves cb f g)
    (hf : inv f) : inv g := by
  induction hm with
  | refl => exact hf
  | tail _ hlast ih => exact hstep _ _ hlast ih

theorem Flags.Keeps.refl (a : Flags) : a.Keeps a := ⟨id,id,id⟩

theorem Move.keeps (hm : Move cb f g) : f.flags.Keeps g.flags := by
  cases hm with
  | marked u fl hk => exact hk
  | flushed =>
    rw [(Bufio.flushLocked_marks cb f).1]
    exact .refl _
  | turned d =>
    rw [(Bufio.setdirLocked_marks cb f d).1]
    exact .refl _
  | stored c hd => exact .refl _
  | appended l hd => exact .refl _
  | filled hd he =>
    rw [(Bufio.fillLocked_marks cb f).1]
    exact .refl _
  | advanced k hd hk => exact .refl _
  | passed n hd he hn =>
    rw [Bufio.readPast]
    rcases cb.read f.dev n with ⟨d,_ | l⟩
    · exact .refl _
    · exact .refl _
  | sent l hd he hl =>
    rw [Bufio.writePast]
    rcases cb.write f.dev l with ⟨d,_ | n⟩
    · exact .refl _
    · exact .refl _
  | sought o w hd hw => exact .refl _

theorem Moves.keeps (hm : Moves cb f g) : f.flags.Keeps g.flags := by
  induction hm with
  | refl => exact .refl _
  | tail _ hlast ih =>
    have hk := hlast.keeps
    exact ⟨fun h => hk.sext (ih.sext h),fun h => hk.srd (ih.srd h),fun h => hk.sbuf (ih.sbuf h)⟩

theorem put_moves (cb : Callbacks D) (f : Bufio D) (c : UInt8) : Moves cb f (f.put cb c).1 := by
  have hdir := Bufio.setdirLocked_dir cb f .wr
  have hturn : Moves cb f (f.setdirLocked cb .wr).1 := .single (.turned f .wr)
  have hstore := hturn.tail (.stored _ c hdir)
  rw [Bufio.put]
  dsimp only
  split_ifs
  · exact hturn
  · exact hstore.tail (.flushed _)
  · exact hstore.tail (.flushed _)
  · exact hstore

theorem fillLocked_ok (h : (f.fillLocked cb).2 = 0) : (f.fillLocked cb).1.dir = f.dir ∧ 0 < (f.fillLocked cb).1.len ∧
    (f.fillLocked cb).1.off = 0 := by
  revert h
  rw [Bufio.fillLocked]
  rcases cb.read f.dev f.size with ⟨d,_ | l⟩
  · exact fun h => absurd h (show ¬fdevErr = 0 by decide)
  · dsimp only
    split_ifs with hz
    · exact fun h => absurd h (show ¬fdevEof = 0 by decide)
    · exact fun _ => ⟨rfl,Nat.pos_of_ne_zero hz,rfl⟩

theorem get_moves (cb : Callbacks D) (f : Bufio D) : Moves cb f (f.get cb).1 := by
  have hdir := Bufio.setdirLocked_dir cb f .rd
  have hturn : Moves cb f (f.setdirLocked cb .rd).1 := .single (.turned f .rd)
  rw [Bufio.get]
  dsimp only
  split_ifs with h1 h2 h3
  · exact hturn
  · exact hturn.tail (.filled _ hdir h2)
  · obtain ⟨hd,hl,ho⟩ := fillLocked_ok (not_not.mp h3)
    exact (hturn.tail (.filled _ hdir h2)).tail (.advanced _ _ (hd.trans hdir) (by omega))
  · exact hturn.tail (.advanced _ _ hdir (by omega))

theorem seekSet_moves (cb : Callbacks D) (hd : f.dir = .rd) (o : Int) : Moves cb f (f.seekSet cb o).1 := by
  rw [Bufio.seekSet]
  split_ifs
  · exact .single (.advanced _ _ hd (by omega))
  · exact .single (.sought _ _ _ hd (by decide))

theorem seek_moves (cb : Callbacks D) (f : Bufio D) (o : Int) (w : Whence) : Moves cb f (f.seek cb o w).1 := by
  have hdir := Bufio.setdirLocked_dir cb f .rd
  have hturn : Moves cb f (f.setdirLocked cb .rd).1 := .single (.turned f .rd)
  rw [Bufio.seek]
  split_ifs
  · exact .refl
  · dsimp only
    split_ifs
    · exact hturn
    · cases w with
      | set => exact hturn.trans (seekSet_moves cb hdir _)
      | cur => exact hturn.trans (seekSet_moves cb hdir _)
      | fin => exact hturn.tail (.sought _ _ _ hdir (by decide))

theorem flushLocked_dir (cb : Callbacks D) (f : Bufio D) : (f.flushLocked cb).1.dir = f.dir := by
  cases hd : f.dir with
  | wr =>
    obtain ⟨d,p,r,heq,-⟩ := Bufio.flushLocked_wr cb hd
    rw [heq]
    exact hd
  | rd =>
    obtain ⟨d,p,heq⟩ := Bufio.flushRead_frame cb f
    rw [Bufio.flushLocked_rd cb hd,heq]
    exact hd
  | idle =>
    rw [Bufio.flushLocked_idle cb hd]
    exact hd

theorem writeBuffered_moves (cb : Callbacks D) (fuel : Nat) (f : Bufio D) (data : Mem) (start bytes : Nat)
    (hd : f.dir = .wr) : Moves cb f (Bufio.writeBuffered cb fuel f data start bytes).1 := by
  induction fuel generalizing f start bytes with
  | zero => exact .refl
  | succ fuel ih =>
    have hmore : ∀ (g : Bufio D) (n : Nat), g.dir = .wr → Moves cb g (Bufio.writeBuffered cb fuel
        { g with buf := splice g.buf g.len (slice data start n), len := g.len + n } data (start + n) (bytes - n)).1 := by
      intro g n hg
      have happ : Move cb g _ := .appended g (slice data start n) hg
      rw [slice_length] at happ
      exact .head happ (ih _ _ _ hg)
    rw [Bufio.writeBuffered]
    dsimp only
    split_ifs
    · exact .refl
    · exact (Moves.single (.flushed f)).tail (.marked _ _ _ ⟨fun _ => rfl,fun _ => rfl,fun _ => rfl⟩)
    · exact .head (.flushed f) (hmore _ _ ((flushLocked_dir cb f).trans hd))
    · exact .single (.marked _ _ _ ⟨fun _ => rfl,fun _ => rfl,fun _ => rfl⟩)
    · exact hmore _ _ hd

theorem writeDirect_moves (cb : Callbacks D) (fuel : Nat) (f : Bufio D) (data : Mem) (start bytes : Nat)
    (hd : f.dir = .wr) (hl : f.len = 0) : Moves cb f (Bufio.writeDirect cb fuel f data start bytes).1 := by
  induction fuel generalizing f start bytes with
  | zero => exact .refl
  | succ fuel ih =>
    rw [Bufio.writeDirect]
    by_cases h0 : bytes = 0
    · rw [if_pos h0]
      exact .refl
    · have hne : slice data start bytes ≠ [] := by
        rw [← List.length_pos_iff,slice_length]
        omega
      have hsent : Move cb f _ := .sent f (slice data start bytes) hd hl hne
      rw [Bufio.writePast] at hsent
      rw [if_neg h0]
      rcases hw : cb.write f.dev (slice data start bytes) with ⟨d,_ | n⟩
      · rw [hw] at hsent
        exact (Moves.single hsent).tail (.marked _ _ _ ⟨fun _ => rfl,fun _ => rfl,fun _ => rfl⟩)
      · rw [hw] at hsent
        dsimp only at hsent ⊢
        split_ifs with hn
        · rw [hn,Nat.cast_zero,Int.add_zero] at hsent
          exact (Moves.single hsent).tail (.marked _ _ _ ⟨fun _ => rfl,fun _ => rfl,fun _ => rfl⟩)
        · exact .head hsent (ih _ _ _ hd hl)

theorem fwriteFast_moves (cb : Callbacks D) (f : Bufio D) (data : Mem) (bytes : Nat) :
    Moves cb f (f.fwriteFast cb data bytes).1 := by
  have hdir := Bufio.setdirLocked_dir cb f .wr
  have hturn : Moves cb f (f.setdirLocked cb .wr).1 := .single (.turned f .wr)
  obtain ⟨d,p,r,heq,-⟩ := Bufio.flushLocked_wr cb hdir
  have hflush := hturn.tail (.flushed _)
  rw [Bufio.fwriteFast]
  dsimp only
  rw [heq] at hflush ⊢
  split_ifs
  · exact hturn.trans (writeBuffered_moves cb _ _ data _ _ hdir)
  · exact hflush.trans (writeDirect_moves cb _ _ data _ _ hdir rfl)
  · exact hflush

theorem putItem_moves (cb : Callbacks D) (n : Nat) (f : Bufio D) (data : Mem) (start : Nat) :
    Moves cb f (Bufio.putItem cb n f data start).1 := by
  induction n generalizing f start with
  | zero => exact .refl
  | succ n ih =>
    rw [Bufio.putItem]
    split_ifs
    · exact put_moves cb f _
    · exact (put_moves cb f _).trans (ih _ _)

theorem putItems_moves (cb : Callbacks D) (size n : Nat) (f : Bufio D) (data : Mem) (i : Nat) :
    Moves cb f (Bufio.putItems cb size n f data i).1 := by
  induction n generalizing f i with
  | zero => exact .refl
  | succ n ih =>
    rw [Bufio.putItems]
    split_ifs
    · exact (putItem_moves cb size f data _).trans (ih _ _)
    · exact putItem_moves cb size f data _

theorem fwrite_moves (cfg : Build) (cb : Callbacks D) (f : Bufio D) (data : Mem) (size nmemb : Nat) :
    Moves cb f (f.fwrite cfg cb data size nmemb).1 := by
  rw [Bufio.fwrite]
  split_ifs
  · exact .refl
  · exact fwriteFast_moves cb f data _
  · exact putItems_moves cb size nmemb f data 0

theorem endOrErr_moves (cb : Callbacks D) (f : Bufio D) (rv : Int) : Move cb f (f.endOrErr rv) := by
  rw [Bufio.endOrErr]
  split_ifs
  · exact .marked f f.unget { f.flags with serr := true } ⟨id,id,id⟩
  · exact .marked f f.unget { f.flags with seof := true } ⟨id,id,id⟩

theorem readBlock_moves (cb : Callbacks D) (fuel : Nat) (f : Bufio D) (bytes : Nat) (got : List UInt8)
    (hd : f.dir = .rd) : Moves cb f (f.readBlock cb fuel bytes got).1 := by
  induction fuel generalizing f bytes got with
  | zero => exact .refl
  | succ fuel ih =>
    rw [Bufio.readBlock]
    split_ifs with h0 h1 h2
    · exact .refl
    · exact .head (.advanced f (f.off + min bytes (f.len - f.off)) hd (by omega)) (ih _ _ _ hd)
    · have hfill : Move cb f (f.fillLocked cb).1 := .filled f hd (by omega)
      dsimp only
      split_ifs with hr
      · exact (Moves.single hfill).tail (endOrErr_moves cb _ _)
      · exact .head hfill (ih _ _ _ ((fillLocked_ok (not_not.mp hr)).1.trans hd))
    · have hpast : Move cb f (f.readPast cb bytes) := .passed f bytes hd (by omega) (Nat.pos_of_ne_zero h0)
      rw [Bufio.readPast] at hpast
      rcases hres : cb.read f.dev bytes with ⟨d,_ | l⟩
      · rw [hres] at hpast
        exact (Moves.single hpast).tail (.marked _ _ _ ⟨id,id,id⟩)
      · rw [hres] at hpast
        dsimp only at hpast ⊢
        split_ifs with hz
        · rw [hz,Nat.cast_zero,Int.add_zero] at hpast
          exact (Moves.single hpast).tail (.marked _ _ _ ⟨id,id,id⟩)
        · exact .head hpast (ih _ _ _ hd)

theorem getc_moves (cb : Callbacks D) (f : Bufio D) : Moves cb f (f.getc cb).1 := by
  rw [Bufio.getc]
  split_ifs
  · exact .single (.marked f f.unget { f.flags with serr := true } ⟨id,id,id⟩)
  · exact .single (.marked f 0 f.flags ⟨id,id,id⟩)
  · dsimp only
    split_ifs
    · exact (get_moves cb f).tail (endOrErr_moves cb _ _)
    · exact get_moves cb f

theorem getItem_moves (cb : Callbacks D) (n : Nat) (f : Bufio D) (got : List UInt8) :
    Moves cb f (f.getItem cb n got).1 := by
  induction n generalizing f got with
  | zero => exact .refl
  | succ n ih =>
    rw [Bufio.getItem]
    split_ifs
    · exact getc_moves cb f
    · exact (getc_moves cb f).trans (ih _ _)

theorem getItems_moves (cb : Callbacks D) (size n : Nat) (f : Bufio D) (got : List UInt8) (i : Nat) :
    Moves cb f (f.getItems cb size n got i).1 := by
  induction n generalizing f got i with
  | zero => exact .refl
  | succ n ih =>
    rw [Bufio.getItems]
    split_ifs
    · exact (getItem_moves cb size f got).trans (ih _ _ _)
    · exact getItem_moves cb size f got

theorem fread_moves (cfg : Build) (cb : Callbacks D) (f : Bufio D) (size nmemb : Nat) :
    Moves cb f (f.fread cfg cb size nmemb).1 := by
  have hdir := Bufio.setdirLocked_dir cb f .rd
  have hturn : Moves cb f (f.setdirLocked cb .rd).1 := .single (.turned f .rd)
  rw [Bufio.fread]
  split_ifs
  · exact .refl
  · dsimp only
    rw [Bufio.freadFast]
    split_ifs
    · exact (hturn.tail (.marked _ 0 _ ⟨id,id,id⟩)).trans (readBlock_moves cb _ _ _ _ hdir)
    · exact hturn.trans (readBlock_moves cb _ _ _ _ hdir)
  · exact getItems_moves cb size nmemb f [] 0

theorem exec_moves (cfg : Build) (cb : Callbacks D) (f : Bufio D) (call : Call) (hc : call ≠ .fclose) :
    Moves cb f (call.exec cfg cb f).1 := by
  cases call with
  | getc => exact getc_moves cb f
  | putc c =>
    rw [Call.exec,Bufio.putc]
    split_ifs
    · exact .refl
    · dsimp only
      split_ifs
      · exact (put_moves cb f c).tail (.marked _ _ _ ⟨id,id,id⟩)
      · exact put_moves cb f c
  | ungetc c =>
    rw [Call.exec,Bufio.ungetc]
    split_ifs
    · exact .refl
    · exact .refl
    · exact .single (.marked f _ _ ⟨id,id,id⟩)
  | fflush => exact (Moves.single (.flushed f)).tail (.marked _ 0 _ ⟨id,id,id⟩)
  | ftell =>
    rw [Call.exec,Bufio.ftell]
    split_ifs
    · exact seek_moves cb f 0 .cur
    · exact .refl
  | fseek o w =>
    rw [Call.exec,Bufio.fseek]
    split_ifs
    · dsimp only
      split_ifs
      · exact (seek_moves cb f o w).tail (.marked _ 0 _ ⟨id,id,id⟩)
      · exact seek_moves cb f o w
    · exact .refl
  | fwrite data size nmemb => exact fwrite_moves cfg cb f data size nmemb
  | fread size nmemb => exact fread_moves cfg cb f size nmemb
  | fclose => exact absurd rfl hc

end Stdio
