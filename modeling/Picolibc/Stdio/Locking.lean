import Mathlib
import Picolibc.Lib.LockTrace
import Picolibc.Stdio.Fread
import Picolibc.Stdio.Setvbuf

namespace Stdio

open ByteMemory LockTrace

inductive Lock where
  | self
  | stdout
  deriving DecidableEq, Repr

structure Files (D : Type) where
  v : Vbuf D
  out : Bufio D
  trace : List (LockEvent Lock)

structure Setting (D : Type) where
  cfg : Build
  intBits : Nat
  cb : Callbacks D
  isStdin : Bool
  stdout : Option Lock

structure Reopen (D : Type) where
  named : Bool
  flags : Option (Bool × Bool)
  opened : Option D
  posix : Callbacks D
  bufSize : Nat
  alloc : Option Block

namespace Files

variable {D : Type} (st : Setting D)

def lock (s : Files D) (l : Lock) : Files D := { s with trace := s.trace ++ [.acquire l] }

def unlock (s : Files D) (l : Lock) : Files D := { s with trace := s.trace ++ [.release l] }

def withFile (s : Files D) (f : Bufio D) : Files D := { s with v := { s.v with f := f } }

def locked (s : Files D) (body : Bufio D → Bufio D × Int) : Files D × Int :=
  let s := s.lock .self
  let r := body s.v.f
  ((s.withFile r.1).unlock .self,r.2)

def flushStdout (s : Files D) : Files D :=
  match st.stdout with
  | none => s
  | some .self => (s.locked (fun f => f.fflush st.cb)).1
  | some .stdout =>
    let s := s.lock .stdout
    { s with out := (s.out.fflush st.cb).1 }.unlock .stdout

def dry (f : Bufio D) : Prop := 0 ≤ (f.setdirLocked st.cb .rd).2 ∧ (f.setdirLocked st.cb .rd).1.len ≤
  (f.setdirLocked st.cb .rd).1.off

instance (f : Bufio D) : Decidable (dry st f) := inferInstanceAs (Decidable (_ ∧ _))

def bufioGet (s : Files D) : Files D × Int :=
  if st.isStdin = true ∧ dry st s.v.f then
    let s := (s.locked (fun f => f.setdirLocked st.cb .rd)).1
    (s.flushStdout st).locked (fun f => f.get st.cb)
  else s.locked (fun f => f.get st.cb)

def getc (s : Files D) : Files D × Int :=
  if s.v.f.flags.srd = false then (s.withFile s.v.f.setErr,eof) else
  if s.v.f.unget ≠ 0 then (s.withFile { s.v.f with unget := 0 },(s.v.f.unget - 1).toUInt8.toNat) else
  let r := s.bufioGet st
  if r.2 < 0 then (r.1.withFile (r.1.v.f.endOrErr r.2),eof) else (r.1,r.2 % 256)

def bufioPut (s : Files D) (c : UInt8) : Files D × Int := s.locked (fun f => f.put st.cb c)

def putc (s : Files D) (c : UInt8) : Files D × Int :=
  if s.v.f.flags.swr = false then (s,eof) else
  let r := s.bufioPut st c
  if r.2 < 0 then (r.1.withFile r.1.v.f.setErr,eof) else (r.1,c.toNat)

def fflush (s : Files D) : Files D × Int := s.locked (fun f => f.fflush st.cb)

def fseek (s : Files D) (o : Int) (w : Whence) : Files D × Int :=
  if s.v.f.flags.sext then s.locked (fun f => f.fseek st.cb o w) else (s,-1)

def ftell (s : Files D) : Files D × Int :=
  if s.v.f.flags.sext then s.locked (fun f => f.ftell st.cb) else (s,-1)

def putItem : Nat → Files D → Mem → Nat → Files D × Bool
  | 0, s, _, _ => (s,true)
  | n + 1, s, data, at' =>
    let r := s.bufioPut st (data at')
    if r.2 < 0 then (r.1,false) else putItem n r.1 data (at' + 1)

def putItems (size : Nat) : Nat → Files D → Mem → Nat → Files D × Int
  | 0, s, _, i => (s,i)
  | n + 1, s, data, i =>
    let r := putItem st size s data (i * size)
    if r.2 then putItems size n r.1 data (i + 1) else (r.1,i)

def fwrite (s : Files D) (data : Mem) (size nmemb : Nat) : Files D × Int :=
  if s.v.f.flags.swr = false ∨ size = 0 then (s,0) else
  if takesFast st.cfg s.v.f size nmemb then
    s.locked (fun f =>
      let r := f.fwriteFast st.cb data (size * nmemb)
      (r.1,((r.2 / size : Nat) : Int)))
  else putItems st size nmemb s data 0

def getItem : Nat → Files D → Files D × Bool
  | 0, s => (s,true)
  | n + 1, s =>
    let r := s.getc st
    if r.2 = eof then (r.1,false) else getItem n r.1

def getItems (size : Nat) : Nat → Files D → Nat → Files D × Int
  | 0, s, i => (s,i)
  | n + 1, s, i =>
    let r := getItem st size s
    if r.2 then getItems size n r.1 (i + 1) else (r.1,i)

def drained (f : Bufio D) : Bufio D × Int :=
  let f := (f.setdirLocked st.cb .rd).1
  ({ f with unget := 0, off := f.len },f.pushed.length + f.buffered.length)

def runsDry (f : Bufio D) (bytes : Nat) : Prop := (drained st f).2 < bytes

instance (f : Bufio D) (bytes : Nat) : Decidable (runsDry st f bytes) := inferInstanceAs (Decidable (_ < _))

def freadBlock (s : Files D) (bytes : Nat) : Files D × Int :=
  let block := fun n (f : Bufio D) =>
    let r := f.freadFast st.cb n
    (r.1,(r.2.length : Int))
  if st.isStdin = true ∧ runsDry st s.v.f bytes then
    let r := s.locked (drained st)
    let q := (r.1.flushStdout st).locked (block (bytes - r.2.toNat))
    (q.1,r.2 + q.2)
  else s.locked (block bytes)

def fread (s : Files D) (size nmemb : Nat) : Files D × Int :=
  if s.v.f.flags.srd = false ∨ size = 0 then (s,0) else
  if s.v.f.blockRead st.cfg size nmemb then
    let r := s.freadBlock st (size * nmemb)
    (r.1,r.2 / size)
  else getItems st size nmemb s 0

def bufioSetvbuf (s : Files D) (cb : Callbacks D) (q : Request) : Files D × Int :=
  let s := s.lock .self
  let r := s.v.bufioSetvbuf st.cfg st.intBits cb q
  ({ s with v := r.1 }.unlock .self,r.2)

def setvbuf (s : Files D) (q : Request) : Files D × Int :=
  if s.v.f.flags.sext = true ∧ s.v.f.flags.sbuf = true then s.bufioSetvbuf st st.cb q else (s,0)

def fclose (s : Files D) : Files D × Int :=
  if s.v.f.flags.sclose then
    match s.v.f.closeFn with
    | .bufioClose => s.locked (fun f => f.close st.cb)
    | .bufioCloseNf => s.locked (fun f => f.closeNf st.cb)
  else (s,0)

def reopened (s : Files D) (dev : D) (rd wr : Bool) : Files D :=
  s.withFile { s.v.f with
    flags := { s.v.f.flags with srd := rd, swr := wr, serr := false, seof := false }
    pos := 0
    dev := dev }

def Resets (v : Vbuf D) (re : Reopen D) : Prop := (re.bufSize : Int) ≠ v.size ∨ v.f.bflags.blbf = true

instance (v : Vbuf D) (re : Reopen D) : Decidable (Resets v re) := inferInstanceAs (Decidable (_ ∨ _))

def reopen (s : Files D) (re : Reopen D) (dev : D) (rd wr : Bool) : Files D × Int :=
  let s := (s.fflush st).1
  let s := (s.lock .self).reopened dev rd wr
  let s := if Resets s.v re then (s.bufioSetvbuf st re.posix ⟨none,ioFBF,re.bufSize,re.alloc⟩).1 else s
  (s.unlock .self,0)

def freopen (s : Files D) (re : Reopen D) : Files D × Int :=
  if s.v.f.flags.sbuf = false then (s,-1) else
  match re.flags with
  | none => (s,-1)
  | some (rd,wr) =>
    if re.named then
      match re.opened with
      | none => (s,-1)
      | some dev => s.reopen st re dev rd wr
    else s.reopen st re s.v.f.dev rd wr

variable {st} {s t u : Files D}

def Brackets (s t : Files D) : Prop := ∃ ls : List Lock, t.trace = s.trace ++ ls.flatMap (fun l => bracket l [])

theorem Brackets.none (h : t.trace = s.trace) : Brackets s t := ⟨[],by rw [h]; exact (List.append_nil _).symm⟩

theorem Brackets.trans (h1 : Brackets s t) (h2 : Brackets t u) : Brackets s u := by
  obtain ⟨as,ha⟩ := h1
  obtain ⟨bs,hb⟩ := h2
  exact ⟨as ++ bs,by rw [hb,ha,List.append_assoc,List.flatMap_append]⟩

theorem locked_brackets (s : Files D) (body : Bufio D → Bufio D × Int) : Brackets s (s.locked body).1 := by
  refine ⟨[.self],?_⟩
  rw [List.flatMap_singleton]
  exact List.append_assoc _ _ _

theorem bufioSetvbuf_brackets (st : Setting D) (s : Files D) (cb : Callbacks D) (q : Request) :
    Brackets s (s.bufioSetvbuf st cb q).1 := by
  refine ⟨[.self],?_⟩
  rw [List.flatMap_singleton]
  exact List.append_assoc _ _ _

theorem flushStdout_brackets (st : Setting D) (s : Files D) : Brackets s (s.flushStdout st) := by
  rw [flushStdout]
  cases st.stdout with
  | none => exact .none rfl
  | some l =>
    cases l with
    | self => exact locked_brackets s _
    | stdout =>
      refine ⟨[.stdout],?_⟩
      rw [List.flatMap_singleton]
      exact List.append_assoc _ _ _

theorem bufioGet_brackets (st : Setting D) (s : Files D) : Brackets s (s.bufioGet st).1 := by
  rw [bufioGet]
  split_ifs
  · exact ((locked_brackets s _).trans (flushStdout_brackets st _)).trans (locked_brackets _ _)
  · exact locked_brackets s _

theorem getc_brackets (st : Setting D) (s : Files D) : Brackets s (s.getc st).1 := by
  rw [getc]
  split_ifs
  · exact .none rfl
  · exact .none rfl
  · have hget := bufioGet_brackets st s
    dsimp only
    split_ifs
    · exact hget.trans (.none rfl)
    · exact hget

theorem putc_brackets (st : Setting D) (s : Files D) (c : UInt8) : Brackets s (s.putc st c).1 := by
  rw [putc]
  split_ifs
  · exact .none rfl
  · have hput : Brackets s (s.bufioPut st c).1 := locked_brackets s _
    dsimp only
    split_ifs
    · exact hput.trans (.none rfl)
    · exact hput

theorem putItem_brackets (st : Setting D) (n : Nat) (s : Files D) (data : Mem) (start : Nat) :
    Brackets s (putItem st n s data start).1 := by
  induction n generalizing s start with
  | zero => exact .none rfl
  | succ n ih =>
    have hput : Brackets s (s.bufioPut st (data start)).1 := locked_brackets s _
    rw [putItem]
    split_ifs
    · exact hput
    · exact hput.trans (ih _ _)

theorem putItems_brackets (st : Setting D) (size n : Nat) (s : Files D) (data : Mem) (i : Nat) :
    Brackets s (putItems st size n s data i).1 := by
  induction n generalizing s i with
  | zero => exact .none rfl
  | succ n ih =>
    have hitem := putItem_brackets st size s data (i * size)
    rw [putItems]
    split_ifs
    · exact hitem.trans (ih _ _)
    · exact hitem

theorem fwrite_brackets (st : Setting D) (s : Files D) (data : Mem) (size nmemb : Nat) :
    Brackets s (s.fwrite st data size nmemb).1 := by
  rw [fwrite]
  split_ifs
  · exact .none rfl
  · exact locked_brackets s _
  · exact putItems_brackets st size nmemb s data 0

theorem getItem_brackets (st : Setting D) (n : Nat) (s : Files D) : Brackets s (getItem st n s).1 := by
  induction n generalizing s with
  | zero => exact .none rfl
  | succ n ih =>
    have hget := getc_brackets st s
    rw [getItem]
    split_ifs
    · exact hget
    · exact hget.trans (ih _)

theorem getItems_brackets (st : Setting D) (size n : Nat) (s : Files D) (i : Nat) :
    Brackets s (getItems st size n s i).1 := by
  induction n generalizing s i with
  | zero => exact .none rfl
  | succ n ih =>
    have hitem := getItem_brackets st size s
    rw [getItems]
    split_ifs
    · exact hitem.trans (ih _ _)
    · exact hitem

theorem freadBlock_brackets (st : Setting D) (s : Files D) (bytes : Nat) : Brackets s (s.freadBlock st bytes).1 := by
  have hround : ∀ body : Bufio D → Bufio D × Int,
      Brackets s (((s.locked (drained st)).1.flushStdout st).locked body).1 := fun body =>
    ((locked_brackets s _).trans (flushStdout_brackets st _)).trans (locked_brackets _ body)
  unfold freadBlock
  dsimp only
  split_ifs
  · exact hround (fun f => ((f.freadFast st.cb (bytes - (s.locked (drained st)).2.toNat)).1,
      ((f.freadFast st.cb (bytes - (s.locked (drained st)).2.toNat)).2.length : Int)))
  · exact locked_brackets s _

theorem fread_brackets (st : Setting D) (s : Files D) (size nmemb : Nat) : Brackets s (s.fread st size nmemb).1 := by
  rw [fread]
  split_ifs
  · exact .none rfl
  · exact freadBlock_brackets st s _
  · exact getItems_brackets st size nmemb s 0

theorem putItem_erases (st : Setting D) (n : Nat) (s : Files D) (data : Mem) (start : Nat) :
    (putItem st n s data start).1.v.f = (Bufio.putItem st.cb n s.v.f data start).1 ∧
      (putItem st n s data start).2 = (Bufio.putItem st.cb n s.v.f data start).2 := by
  induction n generalizing s start with
  | zero => exact ⟨rfl,rfl⟩
  | succ n ih =>
    have hret : (s.bufioPut st (data start)).2 = (s.v.f.put st.cb (data start)).2 := rfl
    rw [putItem,Bufio.putItem]
    rw [hret]
    split_ifs
    · exact ⟨rfl,rfl⟩
    · exact ih _ _

theorem putItems_erases (st : Setting D) (size n : Nat) (s : Files D) (data : Mem) (i : Nat) :
    (putItems st size n s data i).1.v.f = (Bufio.putItems st.cb size n s.v.f data i).1 ∧
      (putItems st size n s data i).2 = (Bufio.putItems st.cb size n s.v.f data i).2 := by
  induction n generalizing s i with
  | zero => exact ⟨rfl,rfl⟩
  | succ n ih =>
    obtain ⟨h1,h2⟩ := putItem_erases st size s data (i * size)
    rw [putItems,Bufio.putItems]
    rw [h2]
    split_ifs
    · rw [← h1]
      exact ih _ _
    · exact ⟨h1,rfl⟩

theorem getc_erases {st : Setting D} (hs : st.isStdin = false) (s : Files D) :
    (s.getc st).1.v.f = (s.v.f.getc st.cb).1 ∧ (s.getc st).2 = (s.v.f.getc st.cb).2 := by
  have hget : s.bufioGet st = s.locked (fun f => f.get st.cb) := if_neg (by simp [hs])
  have hret : (s.bufioGet st).2 = (s.v.f.get st.cb).2 := by rw [hget]; rfl
  have hfile : (s.bufioGet st).1.v.f = (s.v.f.get st.cb).1 := by rw [hget]; rfl
  rw [getc,Bufio.getc]
  split_ifs
  · exact ⟨rfl,rfl⟩
  · exact ⟨rfl,rfl⟩
  · dsimp only
    rw [hret,← hfile]
    split_ifs
    · exact ⟨rfl,rfl⟩
    · exact ⟨rfl,rfl⟩

theorem getItem_erases {st : Setting D} (hs : st.isStdin = false) (n : Nat) (s : Files D) (got : List UInt8) :
    (getItem st n s).1.v.f = (Bufio.getItem st.cb n s.v.f got).1 ∧
      (getItem st n s).2 = (Bufio.getItem st.cb n s.v.f got).2.2 := by
  induction n generalizing s got with
  | zero => exact ⟨rfl,rfl⟩
  | succ n ih =>
    obtain ⟨h1,h2⟩ := getc_erases hs s
    rw [getItem,Bufio.getItem]
    rw [h2]
    split_ifs
    · exact ⟨h1,rfl⟩
    · rw [← h1]
      exact ih _ _

theorem getItems_erases {st : Setting D} (hs : st.isStdin = false) (size n : Nat) (s : Files D) (got : List UInt8)
    (i : Nat) : (getItems st size n s i).1.v.f = (Bufio.getItems st.cb size n s.v.f got i).1 ∧
      (getItems st size n s i).2 = (Bufio.getItems st.cb size n s.v.f got i).2.2 := by
  induction n generalizing s got i with
  | zero => exact ⟨rfl,rfl⟩
  | succ n ih =>
    obtain ⟨h1,h2⟩ := getItem_erases hs size s got
    rw [getItems,Bufio.getItems]
    rw [h2]
    split_ifs
    · rw [← h1]
      exact ih _ _ _
    · exact ⟨h1,rfl⟩

end Files

inductive Entry (D : Type) where
  | getc
  | putc (c : UInt8)
  | fread (size nmemb : Nat)
  | fwrite (data : Mem) (size nmemb : Nat)
  | fseek (o : Int) (w : Whence)
  | ftell
  | fflush
  | setvbuf (q : Request)
  | freopen (re : Reopen D)
  | fclose

section

variable {D : Type} (st : Setting D)

def Entry.exec (s : Files D) : Entry D → Files D × Int
  | .getc => s.getc st
  | .putc c => s.putc st c
  | .fread size nmemb => s.fread st size nmemb
  | .fwrite data size nmemb => s.fwrite st data size nmemb
  | .fseek o w => s.fseek st o w
  | .ftell => s.ftell st
  | .fflush => s.fflush st
  | .setvbuf q => s.setvbuf st q
  | .freopen re => s.freopen st re
  | .fclose => s.fclose st

def Entry.events (v : Vbuf D) (out : Bufio D) (e : Entry D) : List (LockEvent Lock) := (e.exec st ⟨v,out,[]⟩).1.trace

def Relocks (v : Vbuf D) : Entry D → Prop
  | .freopen re => v.f.flags.sbuf = true ∧ re.flags ≠ none ∧ (re.named = true → re.opened ≠ none) ∧ Files.Resets v re
  | _ => False

variable {st}

def Entry.call : Entry D → Option Call
  | .getc => some .getc
  | .putc c => some (.putc c)
  | .fread size nmemb => some (.fread size nmemb)
  | .fwrite data size nmemb => some (.fwrite data size nmemb)
  | .fseek o w => some (.fseek o w)
  | .ftell => some .ftell
  | .fflush => some .fflush
  | .setvbuf _ => none
  | .freopen _ => none
  | .fclose => some .fclose

theorem exec_erases (hs : st.isStdin = false) (hl : st.cfg.stdioLocking = false) (s : Files D) (e : Entry D) {c : Call}
    (hc : e.call = some c) : (e.exec st s).1.v.f = (c.exec st.cfg st.cb s.v.f).1 ∧
      (e.exec st s).2 = (c.exec st.cfg st.cb s.v.f).2 := by
  cases e with
  | getc =>
    cases hc
    exact Files.getc_erases hs s
  | putc c =>
    cases hc
    have hret : (s.bufioPut st c).2 = (s.v.f.put st.cb c).2 := rfl
    rw [Entry.exec,Call.exec,Files.putc,Bufio.putc]
    split_ifs
    · exact ⟨rfl,rfl⟩
    · dsimp only
      rw [hret]
      split_ifs
      · exact ⟨rfl,rfl⟩
      · exact ⟨rfl,rfl⟩
  | fread size nmemb =>
    cases hc
    rw [Entry.exec,Call.exec,Files.fread,Bufio.fread]
    split_ifs
    · exact ⟨rfl,rfl⟩
    · have hblock : s.freadBlock st (size * nmemb) = s.locked (fun f =>
          ((f.freadFast st.cb (size * nmemb)).1,((f.freadFast st.cb (size * nmemb)).2.length : Int))) :=
        if_neg (by simp [hs])
      rw [hblock]
      exact ⟨rfl,rfl⟩
    · exact Files.getItems_erases hs size nmemb s [] 0
  | fwrite data size nmemb =>
    cases hc
    rw [Entry.exec,Call.exec,Files.fwrite,Bufio.fwrite]
    split_ifs with h1 h2 h3 h4
    · exact ⟨rfl,rfl⟩
    · exact ⟨rfl,rfl⟩
    · exact absurd h2 h3
    · exact absurd h4 h2
    · exact Files.putItems_erases st size nmemb s data 0
  | fseek o w =>
    cases hc
    rw [Entry.exec,Call.exec,Files.fseek]
    split_ifs with hx
    · exact ⟨rfl,rfl⟩
    · rw [Bufio.fseek,if_neg hx]
      exact ⟨rfl,rfl⟩
  | ftell =>
    cases hc
    rw [Entry.exec,Call.exec,Files.ftell]
    split_ifs with hx
    · exact ⟨rfl,rfl⟩
    · rw [Bufio.ftell,if_neg hx]
      exact ⟨rfl,rfl⟩
  | fflush =>
    cases hc
    exact ⟨rfl,rfl⟩
  | setvbuf q => cases hc
  | freopen re => cases hc
  | fclose =>
    cases hc
    rw [Entry.exec,Call.exec,Files.fclose,Bufio.fclose,hl,if_neg Bool.false_ne_true]
    split_ifs
    · cases s.v.f.closeFn with
      | bufioClose => exact ⟨rfl,rfl⟩
      | bufioCloseNf => exact ⟨rfl,rfl⟩
    · exact ⟨rfl,rfl⟩

theorem brackets_disciplined {s t : Files D} (h : Files.Brackets s t) (hs : s.trace = []) : Disciplined t.trace := by
  obtain ⟨ls,ht⟩ := h
  have hd := disciplined_brackets ls disciplined_nil
  rw [List.append_nil] at hd
  rw [ht,hs]
  exact hd

theorem flushLocked_bflags (cb : Callbacks D) (f : Bufio D) : (f.flushLocked cb).1.bflags = f.bflags := by
  cases hd : f.dir with
  | wr =>
    obtain ⟨d,p,r,heq,-⟩ := Bufio.flushLocked_wr cb hd
    rw [heq]
  | rd =>
    obtain ⟨d,p,heq⟩ := Bufio.flushRead_frame cb f
    rw [Bufio.flushLocked_rd cb hd,heq]
  | idle => rw [Bufio.flushLocked_idle cb hd]

theorem reopen_disciplined (st : Setting D) (s : Files D) (hs : s.trace = []) (re : Reopen D) (dev : D) (rd wr : Bool) :
    Disciplined (s.reopen st re dev rd wr).1.trace ↔ ¬Files.Resets s.v re := by
  obtain ⟨g,hg⟩ : ∃ g : Files D, g = ((s.fflush st).1.lock .self).reopened dev rd wr := ⟨_,rfl⟩
  have htrace : g.trace = bracket .self [] ++ [.acquire .self] := by
    rw [hg]
    show ((s.trace ++ _) ++ _) ++ _ = _
    rw [hs]
    rfl
  have hflags : g.v.f.bflags = s.v.f.bflags := by
    rw [hg]
    exact flushLocked_bflags st.cb s.v.f
  have hresets : Files.Resets g.v re ↔ Files.Resets s.v re := by
    rw [Files.Resets,Files.Resets,hflags,hg]
    exact Iff.rfl
  have heq : (s.reopen st re dev rd wr).1 =
      (if Files.Resets g.v re then (g.bufioSetvbuf st re.posix ⟨none,ioFBF,re.bufSize,re.alloc⟩).1 else g).unlock .self := by
    rw [hg]
    rfl
  rw [heq,← hresets]
  split_ifs with hr
  · refine iff_of_false ?_ (not_not.mpr hr)
    have hnest := nested_undisciplined (disciplined_bracket Lock.self) .self [] [.release .self]
    show ¬Disciplined (((g.trace ++ _) ++ _) ++ _)
    rw [htrace]
    exact hnest
  · refine iff_of_true ?_ hr
    show Disciplined (g.trace ++ _)
    rw [htrace]
    rw [List.append_assoc]
    exact disciplined_append (disciplined_bracket Lock.self) (disciplined_bracket Lock.self)

theorem freopen_disciplined (st : Setting D) (s : Files D) (hs : s.trace = []) (re : Reopen D) :
    Disciplined (s.freopen st re).1.trace ↔ ¬Relocks s.v (.freopen re) := by
  have hstay : Disciplined s.trace := by
    rw [hs]
    exact disciplined_nil
  rw [Files.freopen,Relocks]
  by_cases hsbuf : s.v.f.flags.sbuf = false
  · rw [if_pos hsbuf]
    exact iff_of_true hstay (fun h => Bool.false_ne_true (hsbuf.symm.trans h.1))
  · have hsb : s.v.f.flags.sbuf = true := by simpa using hsbuf
    rw [if_neg hsbuf]
    rcases hfl : re.flags with _ | ⟨rd,wr⟩
    · exact iff_of_true hstay (fun h => h.2.1 rfl)
    · have hopen : ∀ dev, (re.named = true → re.opened ≠ none) →
          (Disciplined (s.reopen st re dev rd wr).1.trace ↔ ¬(s.v.f.flags.sbuf = true ∧ some (rd,wr) ≠ none ∧
            (re.named = true → re.opened ≠ none) ∧ Files.Resets s.v re)) := by
        intro dev hn
        rw [reopen_disciplined st s hs,and_iff_right hsb,and_iff_right (Option.some_ne_none _),and_iff_right hn]
      dsimp only
      by_cases hnamed : re.named = true
      · rw [if_pos hnamed]
        rcases hop : re.opened with _ | dev
        · exact iff_of_true hstay (fun h => h.2.2.1 hnamed rfl)
        · have hdev := hopen dev (fun _ => by rw [hop]; exact Option.some_ne_none dev)
          rw [hop] at hdev
          exact hdev
      · rw [if_neg hnamed]
        exact hopen s.v.f.dev (fun h => absurd h hnamed)

theorem locking_disciplined_iff (st : Setting D) (v : Vbuf D) (out : Bufio D) (e : Entry D) :
    Disciplined (e.events st v out) ↔ ¬Relocks v e := by
  have hfree : ∀ t : Files D, Files.Brackets ⟨v,out,[]⟩ t → (Disciplined t.trace ↔ ¬False) :=
    fun t ht => iff_of_true (brackets_disciplined ht rfl) not_false
  cases e with
  | getc => exact hfree _ (Files.getc_brackets st _)
  | putc c => exact hfree _ (Files.putc_brackets st _ c)
  | fread size nmemb => exact hfree _ (Files.fread_brackets st _ size nmemb)
  | fwrite data size nmemb => exact hfree _ (Files.fwrite_brackets st _ data size nmemb)
  | fseek o w =>
    apply hfree
    rw [Entry.exec,Files.fseek]
    split_ifs
    · exact Files.locked_brackets _ _
    · exact .none rfl
  | ftell =>
    apply hfree
    rw [Entry.exec,Files.ftell]
    split_ifs
    · exact Files.locked_brackets _ _
    · exact .none rfl
  | fflush => exact hfree _ (Files.locked_brackets _ _)
  | setvbuf q =>
    apply hfree
    rw [Entry.exec,Files.setvbuf]
    split_ifs
    · exact Files.bufioSetvbuf_brackets st _ st.cb q
    · exact .none rfl
  | freopen re => exact freopen_disciplined st ⟨v,out,[]⟩ rfl re
  | fclose =>
    apply hfree
    rw [Entry.exec,Files.fclose]
    split_ifs
    · cases v.f.closeFn with
      | bufioClose => exact Files.locked_brackets _ _
      | bufioCloseNf => exact Files.locked_brackets _ _
    · exact .none rfl

end

theorem freopen_relocks :
    let v : Vbuf Unit := ⟨fdevSetupBufio () (fun _ => 0) 512 false true ⟨false,true,false⟩,100,512,[]⟩
    let st : Setting Unit := ⟨⟨false,false,64⟩,32,sink,false,none⟩
    let re : Reopen Unit := ⟨true,some (false,true),some (),sink,512,none⟩
    (Entry.freopen re).events st v v.f = [.acquire .self,.release .self,.acquire .self,.acquire .self,.release .self,
        .release .self] ∧ ¬Disciplined ((Entry.freopen re).events st v v.f) := by
  refine ⟨rfl,?_⟩
  unfold Disciplined
  decide

end Stdio
