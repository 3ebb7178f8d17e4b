import Mathlib
import Picolibc.Stdio.Moves
import Picolibc.Stdio.Room

namespace Stdio

open ByteMemory Simulation

variable {D : Type}

structure Cursor (f : Bufio D) : Prop where
  off : f.off ≤ f.len
  wr : f.dir = .wr → f.off = 0
  idle : f.dir = .idle → f.len = 0
  ext : f.flags.sext = true

def NoOutput (f : Bufio D) : Prop := f.dir = .wr → f.len = 0

def Outside (f : Bufio D) (t : Int) : Prop := ¬(f.pos - f.len ≤ t ∧ t ≤ f.pos - f.len + f.len)

def SeekFails (lseek : D → Int → Whence → D × Int) (f : Bufio D) (o : Int) : Whence → Prop
  | .set => Outside f o ∧ (lseek f.dev o .set).2 < 0
  | .cur => Outside f (o + (f.pos - f.len + f.off)) ∧ (lseek f.dev (o + (f.pos - f.len + f.off)) .set).2 < 0
  | .fin => (lseek f.dev o .fin).2 < 0

def Bufio.dropped (f : Bufio D) : Bufio D := { f with dir := .rd, len := 0, off := 0 }

inductive Query where
  | ftell
  | getc
  deriving DecidableEq, Repr

def Query.call : Query → Call
  | .ftell => .ftell
  | .getc => .getc

def Bufio.query (cfg : Build) (cb : Callbacks D) (f : Bufio D) (q : Query) : Bufio D × Int := q.call.exec cfg cb f

section

variable {cb : Callbacks D} {f g : Bufio D}

theorem flushLocked_cursor (cb : Callbacks D) (hf : Cursor f) : (f.flushLocked cb).1.len = 0 ∧
    (f.flushLocked cb).1.off = 0 ∧ (f.flushLocked cb).1.flags = f.flags := by
  cases hd : f.dir with
  | wr =>
    obtain ⟨d,p,r,heq,-⟩ := Bufio.flushLocked_wr cb hd
    rw [heq]
    exact ⟨rfl,hf.wr hd,rfl⟩
  | rd =>
    obtain ⟨d,p,heq⟩ := Bufio.flushRead_frame cb f
    rw [Bufio.flushLocked_rd cb hd,heq]
    exact ⟨rfl,rfl,rfl⟩
  | idle =>
    have h0 := hf.idle hd
    have h1 := hf.off
    rw [Bufio.flushLocked_idle cb hd]
    exact ⟨h0,show f.off = 0 by omega,rfl⟩

theorem Cursor.emptied (hf : Cursor f) (hl : g.len = 0) (ho : g.off = 0) (hfl : g.flags = f.flags) : Cursor g :=
  ⟨by omega,fun _ => ho,fun _ => hl,hfl ▸ hf.ext⟩

theorem move_cursor (hm : Move cb f g) (hf : Cursor f) : Cursor g := by
  cases hm with
  | marked u fl hk => exact ⟨hf.off,hf.wr,hf.idle,hk.sext hf.ext⟩
  | flushed =>
    obtain ⟨hl,ho,hfl⟩ := flushLocked_cursor cb hf
    exact hf.emptied hl ho hfl
  | turned d =>
    obtain ⟨hl,ho,hfl⟩ := flushLocked_cursor cb hf
    rw [Bufio.setdirLocked]
    split_ifs
    · exact hf.emptied hl ho hfl
    · exact hf
  | stored c hd =>
    exact ⟨Nat.le_succ_of_le hf.off,hf.wr,fun h => absurd (hd.symm.trans h) (by decide),hf.ext⟩
  | appended l hd =>
    exact ⟨Nat.le_add_right_of_le hf.off,hf.wr,fun h => absurd (hd.symm.trans h) (by decide),hf.ext⟩
  | filled hd he =>
    rw [Bufio.fillLocked]
    rcases cb.read f.dev f.size with ⟨d,_ | l⟩
    · exact hf.emptied rfl rfl rfl
    · dsimp only
      split_ifs
      · exact hf.emptied rfl rfl rfl
      · exact ⟨Nat.zero_le _,fun _ => rfl,fun h => absurd (hd.symm.trans h) (by decide),hf.ext⟩
  | advanced k hd hk =>
    exact ⟨hk,fun h => absurd (hd.symm.trans h) (by decide),fun h => absurd (hd.symm.trans h) (by decide),hf.ext⟩
  | passed n hd he hn =>
    rw [Bufio.readPast]
    rcases cb.read f.dev n with ⟨d,_ | l⟩
    · exact hf.emptied rfl rfl rfl
    · exact hf.emptied rfl rfl rfl
  | sent l hd he hl =>
    rw [Bufio.writePast]
    rcases cb.write f.dev l with ⟨d,_ | n⟩
    · exact ⟨hf.off,hf.wr,hf.idle,hf.ext⟩
    · exact ⟨hf.off,hf.wr,hf.idle,hf.ext⟩
  | sought o w hd hw => exact hf.emptied rfl rfl rfl

theorem run_moves (cfg : Build) (cb : Callbacks D) (f : Bufio D) (calls : List Call) (hc : ∀ c ∈ calls, c ≠ .fclose) :
    Moves cb f (run (Bufio.step cfg cb) f calls).1 := by
  refine run_preserves ?_ .refl (along_of_mem hc)
  intro g call hg hne
  exact hg.trans (exec_moves cfg cb g call hne)

theorem seek_eq {lseek : D → Int → Whence → D × Int} (hl : cb.lseek = some lseek) (hn : NoOutput f) (o : Int)
    (w : Whence) : f.seek cb o w =
      match w with
      | .cur => { f with dir := .rd }.seekSet cb (o + (f.pos - f.len + f.off))
      | .set => { f with dir := .rd }.seekSet cb o
      | .fin => { f with dir := .rd }.lseekTo cb o .fin := by
  rw [Bufio.seek,bufioSeekable,hl,if_neg (by simp),Bufio.setdirLocked_rd_empty cb hn]
  dsimp only
  cases w with
  | set => exact if_neg (lt_irrefl 0)
  | cur => exact if_neg (lt_irrefl 0)
  | fin => exact if_neg (lt_irrefl 0)

theorem lseekTo_fails {lseek : D → Int → Whence → D × Int} (hl : cb.lseek = some lseek)
    (hkeep : ∀ d o w, (lseek d o w).2 < 0 → (lseek d o w).1 = d) {o : Int} {w : Whence}
    (hfail : (lseek f.dev o w).2 < 0) : f.lseekTo cb o w = ({ f with len := 0, off := 0 },(lseek f.dev o w).2) := by
  simp only [Bufio.lseekTo,bufioLseek,hl]
  rw [if_neg (by omega),hkeep _ _ _ hfail]

theorem fseek_fails {lseek : D → Int → Whence → D × Int} (hl : cb.lseek = some lseek)
    (hkeep : ∀ d o w, (lseek d o w).2 < 0 → (lseek d o w).1 = d) (hf : Cursor f) (hn : NoOutput f) {o : Int} {w : Whence}
    (hfail : SeekFails lseek f o w) : f.fseek cb o w = (f.dropped,-1) := by
  have hseek : ∃ r, f.seek cb o w = (f.dropped,r) ∧ r < 0 := by
    have hset : ∀ t, Outside f t → (lseek f.dev t .set).2 < 0 →
        { f with dir := .rd }.seekSet cb t = (f.dropped,(lseek f.dev t .set).2) := by
      intro t hout hneg
      rw [Bufio.seekSet,if_neg hout]
      exact lseekTo_fails hl hkeep hneg
    rw [seek_eq hl hn]
    cases w with
    | set => exact ⟨_,hset o hfail.1 hfail.2,hfail.2⟩
    | cur => exact ⟨_,hset _ hfail.1 hfail.2,hfail.2⟩
    | fin => exact ⟨_,lseekTo_fails hl hkeep hfail,hfail⟩
  obtain ⟨r,hr,hneg⟩ := hseek
  rw [Bufio.fseek,if_pos hf.ext,hr]
  dsimp only
  rw [if_neg (by omega)]

theorem ftell_eq {lseek : D → Int → Whence → D × Int} (hl : cb.lseek = some lseek) (hext : f.flags.sext = true)
    (ho : f.off ≤ f.len) (hn : NoOutput f) : f.ftell cb = ({ f with dir := .rd },
      if f.unget ≠ 0 then f.pos - f.len + f.off - 1 else f.pos - f.len + f.off) := by
  have hseek : f.seek cb 0 .cur = ({ f with dir := .rd },f.pos - f.len + f.off) := by
    rw [seek_eq hl hn]
    dsimp only
    rw [Int.zero_add,Bufio.seekSet,if_pos ⟨by dsimp only; omega,by dsimp only; omega⟩]
    dsimp only
    rw [show (f.pos - f.len + f.off - (f.pos - f.len)).toNat = f.off by omega]
  rw [Bufio.ftell,if_pos hext,hseek]

theorem ftell_dropped {lseek : D → Int → Whence → D × Int} (hl : cb.lseek = some lseek) (hext : f.flags.sext = true) :
    f.dropped.ftell cb = (f.dropped,if f.unget ≠ 0 then f.pos - 1 else f.pos) := by
  rw [ftell_eq (f := f.dropped) hl hext le_rfl (fun h => (by cases h))]
  simp [Bufio.dropped]

structure Drained (f : Bufio D) : Prop where
  off : f.off = f.len
  output : NoOutput f
  ext : f.flags.sext = true

def Alike (f g : Bufio D) : Prop := f = g ∨ (Drained f ∧ g = f.dropped)

theorem get_alike (cb : Callbacks D) (hf : Drained f) : f.get cb = f.dropped.get cb := by
  have hoff := hf.off
  have hfill : { f with dir := .rd }.fillLocked cb = f.dropped.fillLocked cb := by
    simp only [Bufio.fillLocked,Bufio.dropped]
    rcases cb.read f.dev f.size with ⟨d,_ | l⟩
    · rfl
    · rfl
  have hsame : f.dropped.setdirLocked cb .rd = (f.dropped,0) := Bufio.setdirLocked_same cb rfl
  rw [Bufio.get,Bufio.get,Bufio.setdirLocked_rd_empty cb hf.output,hsame]
  dsimp only
  rw [if_neg (lt_irrefl 0),if_neg (lt_irrefl 0),if_pos (by omega),if_pos (show f.dropped.len ≤ f.dropped.off from Nat.le_refl 0),hfill]

theorem getc_alike (cb : Callbacks D) (hf : Drained f) :
    Alike (f.getc cb).1 (f.dropped.getc cb).1 ∧ (f.getc cb).2 = (f.dropped.getc cb).2 := by
  have hu : f.dropped.unget = f.unget := rfl
  have hfl : f.dropped.flags = f.flags := rfl
  rw [Bufio.getc,Bufio.getc,← get_alike cb hf,hu,hfl]
  split_ifs
  · exact ⟨.inr ⟨⟨hf.off,hf.output,hf.ext⟩,rfl⟩,rfl⟩
  · exact ⟨.inr ⟨⟨hf.off,hf.output,hf.ext⟩,rfl⟩,rfl⟩
  · exact ⟨.inl rfl,rfl⟩

theorem ftell_alike {lseek : D → Int → Whence → D × Int} (hl : cb.lseek = some lseek) (hf : Drained f) :
    Alike (f.ftell cb).1 (f.dropped.ftell cb).1 ∧ (f.ftell cb).2 = (f.dropped.ftell cb).2 := by
  have hoff := hf.off
  rw [ftell_eq hl hf.ext hf.off.le hf.output,ftell_dropped hl hf.ext]
  refine ⟨.inr ⟨⟨hf.off,fun h => (by cases h),hf.ext⟩,rfl⟩,?_⟩
  rw [hoff,Int.sub_add_cancel]

theorem query_alike (cfg : Build) {lseek : D → Int → Whence → D × Int} (hl : cb.lseek = some lseek) (q : Query)
    (h : Alike f g) : Alike (f.query cfg cb q).1 (g.query cfg cb q).1 ∧
      (f.query cfg cb q).2 = (g.query cfg cb q).2 := by
  rcases h with rfl | ⟨hf,rfl⟩
  · exact ⟨.inl rfl,rfl⟩
  · cases q with
    | ftell => exact ftell_alike hl hf
    | getc => exact getc_alike cb hf

theorem queries_alike (cfg : Build) {lseek : D → Int → Whence → D × Int} (hl : cb.lseek = some lseek) (qs : List Query)
    (h : Alike f g) : (run (Bufio.query cfg cb) f qs).2 = (run (Bufio.query cfg cb) g qs).2 := by
  induction qs generalizing f g with
  | nil => rfl
  | cons q qs ih =>
    obtain ⟨h1,h2⟩ := query_alike cfg hl q h
    simp only [run,h2,ih h1]

end

theorem failed_fseek_stays_iff (cfg : Build) (cb : Callbacks D) {lseek : D → Int → Whence → D × Int}
    (hl : cb.lseek = some lseek) (hkeep : ∀ d o w, (lseek d o w).2 < 0 → (lseek d o w).1 = d) (dev : D) (buf : Mem)
    (size : Nat) (rd wr : Bool) (bflags : BFlags) (pos : Int) (calls : List Call) (hc : ∀ c ∈ calls, c ≠ .fclose)
    (o : Int) (w : Whence) :
    let f := (run (Bufio.step cfg cb) { fdevSetupBufio dev buf size rd wr bflags with pos := pos } calls).1
    NoOutput f → SeekFails lseek f o w →
      (((f.fseek cb o w).2 = -1 ∧ ∀ qs : List Query,
        (run (Bufio.query cfg cb) (f.fseek cb o w).1 qs).2 = (run (Bufio.query cfg cb) f qs).2) ↔ f.off = f.len) := by
  intro f hn hfail
  have hcur : Cursor f := by
    apply Moves.preserves (fun _ _ => move_cursor) (run_moves cfg cb _ calls hc)
    exact ⟨le_rfl,fun _ => rfl,fun _ => rfl,rfl⟩
  have hoff := hcur.off
  rw [fseek_fails hl hkeep hcur hn hfail]
  constructor
  · rintro ⟨-,hall⟩
    have hone := hall [.ftell]
    simp only [run,Bufio.query,Query.call,Call.exec,ftell_eq hl hcur.ext hcur.off hn,ftell_dropped hl hcur.ext,
      List.cons.injEq,and_true] at hone
    by_cases hu : f.unget ≠ 0
    · rw [if_pos hu,if_pos hu] at hone
      omega
    · rw [if_neg hu,if_neg hu] at hone
      omega
  · intro heq
    exact ⟨rfl,fun qs => (queries_alike cfg hl qs (.inr ⟨⟨heq,hn,hcur.ext⟩,rfl⟩)).symm⟩

def rom : Callbacks Nat where
  read := fun d n => (min 4 (d + n),some ⟨([1,2,3,4].drop d).take n,by simp⟩)
  write := fun d _ => (d,none)
  lseek := some (fun d o w =>
    let t := match w with
      | .set => o
      | .cur => d + o
      | .fin => 4 + o
    if 0 ≤ t then (t.toNat,t) else (d,-1))
  close := none

theorem failed_fseek_stays_at_end :
    let f := (run (Bufio.step ⟨false,false,64⟩ rom) { fdevSetupBufio 0 (fun _ => 0) 2 true false ⟨false,false,false⟩ with
      pos := 0 } [.getc,.getc]).1
    (f.fseek rom (-1) .set).2 = -1 ∧ ∀ qs : List Query,
      (run (Bufio.query ⟨false,false,64⟩ rom) (f.fseek rom (-1) .set).1 qs).2 =
        (run (Bufio.query ⟨false,false,64⟩ rom) f qs).2 :=
  (failed_fseek_stays_iff ⟨false,false,64⟩ rom rfl (by
    intro d o w hneg
    dsimp only at hneg ⊢
    split_ifs at hneg ⊢ with h
    · omega
    · rfl) 0 (fun _ => 0) 2 true false ⟨false,false,false⟩ 0 [.getc,.getc] (by simp) (-1) .set (fun h => (by cases h))
    ⟨fun h => absurd h.1 (by decide),by decide⟩).mpr (by decide)

theorem failed_fseek_skips :
    let f := (run (Bufio.step ⟨false,false,64⟩ rom) { fdevSetupBufio 0 (fun _ => 0) 4 true false ⟨false,false,false⟩ with
      pos := 0 } [.getc]).1
    (f.fseek rom (-1) .set).2 = -1 ∧
      (run (Bufio.query ⟨false,false,64⟩ rom) f [.ftell,.getc]).2 = [1,2] ∧
      (run (Bufio.query ⟨false,false,64⟩ rom) (f.fseek rom (-1) .set).1 [.ftell,.getc]).2 = [4,-1] := by
  decide

end Stdio
