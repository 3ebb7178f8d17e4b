import Mathlib
import Picolibc.Stdio.Memstream

open FaultRun
open Memstream (Whence)

namespace Fmem

structure OpenFlags where
  rd : Bool
  wr : Bool
  creat : Bool
  append : Bool
  deriving DecidableEq, Repr

structure FileMem where
  buf : List UInt8
  size : Nat
  bufsize : Nat
  pos : Nat
  mall : Bool
  mapp : Bool
  rd : Bool
  wr : Bool
  freed : Bool
  deriving DecidableEq, Repr

def OpenFlags.plus (o : OpenFlags) (mode : List Char) : OpenFlags :=
  if '+' ∈ mode then { o with rd := true, wr := true } else o

def stdioFlags : List Char → Option OpenFlags
  | 'r' :: mode => some (OpenFlags.plus ⟨true,false,false,false⟩ mode)
  | 'w' :: mode => some (OpenFlags.plus ⟨false,true,true,false⟩ mode)
  | 'a' :: mode => some (OpenFlags.plus ⟨false,true,true,true⟩ mode)
  | _ => none

def strnlen (l : List UInt8) : Nat := (l.takeWhile (· ≠ 0)).length

def mallocated (o : OpenFlags) : Option (List UInt8) → Option (List UInt8)
  | none => none
  | some got => if o.rd ∧ o.wr then store got 0 0 else none

def opened (o : OpenFlags) (buf : List UInt8) (size : Nat) (mall : Bool) : Option FileMem :=
  if o.creat then
    if o.append then
      let pos := if mall then 0 else strnlen buf
      some ⟨buf,pos,size,pos,mall,true,o.rd,o.wr,false⟩
    else
      (if o.rd ∧ o.wr then store buf 0 0 else some buf).map
        (fun buf => ⟨buf,0,size,0,mall,false,o.rd,o.wr,false⟩)
  else some ⟨buf,size,size,0,mall,false,o.rd,o.wr,false⟩

def fmemopen (buf : Option (List UInt8)) (size : Nat) (mode : List Char) (file : Bool)
    (malloc : Option (List UInt8)) : Option FileMem :=
  match stdioFlags mode with
  | none => none
  | some o =>
    if size = 0 ∨ file = false then none else
    match buf with
    | some buf => opened o buf size false
    | none =>
      match mallocated o malloc with
      | none => none
      | some buf => opened o buf size true

def extend (mf : FileMem) (pos : Nat) : Option FileMem :=
  if mf.size < pos then
    (if pos < mf.bufsize then store mf.buf pos 0 else some mf.buf).map
      (fun buf => { mf with buf := buf, size := pos })
  else some mf

def FileMem.cursor (mf : FileMem) : Nat := if mf.mapp then mf.size else mf.pos

def put (mf : FileMem) (c : UInt8) : Option (FileMem × Int) :=
  if mf.wr = false then some (mf,-1) else
  if mf.cursor < mf.bufsize then
    match store mf.buf mf.cursor c with
    | none => none
    | some buf =>
      (extend { mf with buf := buf } (mf.cursor + 1)).map (fun m => ({ m with pos := mf.cursor + 1 },c.toNat))
  else some (mf,-1)

def get (mf : FileMem) : Option (FileMem × Int) :=
  if mf.rd = false then some (mf,-1) else
  if mf.pos < mf.size then (mf.buf[mf.pos]?).map (fun c => ({ mf with pos := mf.pos + 1 },c.toNat))
  else some (mf,-1)

def flush (mf : FileMem) : Option FileMem :=
  if mf.wr ∧ mf.pos < mf.bufsize then
    (store mf.buf mf.pos 0).map
      (fun buf => { mf with buf := buf, size := if mf.size < mf.pos then mf.pos else mf.size })
  else some mf

def close (mf : FileMem) : Option FileMem :=
  if mf.mall then some { mf with freed := true } else (flush mf).map (fun m => { m with freed := true })

section

variable (off : Nat)

def seekTarget (mf : FileMem) (pos : Int) : Whence → Option Int
  | .set => some pos
  | .cur => some (Checked.wrap off (pos + mf.pos))
  | .fin => some (Checked.wrap off (pos + mf.size))
  | .other => none

def seek (mf : FileMem) (pos : Int) (whence : Whence) : FileMem × Int :=
  match seekTarget off mf pos whence with
  | none => (mf,-1)
  | some pos =>
    if pos < 0 ∨ Checked.wrap off mf.bufsize < pos then (mf,-1) else ({ mf with pos := pos.toNat },pos)

inductive Op where
  | getc
  | putc (c : UInt8)
  | fseek (pos : Int) (whence : Whence)
  | ftell
  | fflush
  | fclose
  deriving DecidableEq, Repr

def Op.writes : Op → Bool
  | putc _ => true
  | _ => false

structure Traced where
  mf : FileMem
  init : List UInt8
  written : Nat → Bool
  top : Nat

def Traced.put (t : Traced) (c : UInt8) : Option (Traced × Int) :=
  (Fmem.put t.mf c).map (fun q =>
    if q.2 < 0 then (⟨q.1,t.init,t.written,t.top⟩,q.2) else
    (⟨q.1,t.init,Function.update t.written t.mf.cursor true,max t.top (t.mf.cursor + 1)⟩,q.2))

def step (t : Traced) : Op → Option (Traced × Int)
  | .getc => (get t.mf).map (fun q => ({ t with mf := q.1 },q.2))
  | .putc c => t.put c
  | .fseek pos whence => some ({ t with mf := (seek off t.mf pos whence).1 },if (seek off t.mf pos whence).2 < 0 then -1 else 0)
  | .ftell => some ({ t with mf := (seek off t.mf 0 .cur).1 },(seek off t.mf 0 .cur).2)
  | .fflush => (flush t.mf).map (fun m => ({ t with mf := m },0))
  | .fclose => (close t.mf).map (fun m => ({ t with mf := m },0))

end

def start (buf : Option (List UInt8)) (mf : FileMem) : Traced := ⟨mf,buf.getD mf.buf,fun _ => false,0⟩

def Terminator (t : Traced) (i : Nat) : Prop := 0 < t.top ∧ i = t.top ∧ t.mf.buf[i]? = some 0

structure Framed (t : Traced) : Prop where
  alloc : t.mf.buf.length = t.mf.bufsize
  pos : t.mf.pos ≤ t.mf.bufsize
  size : t.mf.size ≤ t.mf.bufsize
  kept : ∀ i, t.mf.buf[i]? ≠ t.init[i]? → t.written i = true ∨ Terminator t i

def Post (_ : Traced) (_ : Op) (t : Traced) (_ : Int) : Prop := Framed t

def Clobbers (t : Traced) : Prop :=
  t.mf.wr = true ∧ t.mf.pos < t.mf.bufsize ∧ t.mf.buf[t.mf.pos]? ≠ some 0 ∧ t.written t.mf.pos = false ∧
    ¬(0 < t.top ∧ t.mf.pos = t.top)

def Strands (t : Traced) : Prop :=
  t.mf.wr = true ∧ t.mf.cursor < t.mf.bufsize ∧ 0 < t.top ∧ t.top < t.mf.cursor ∧
    t.mf.buf[t.top]? ≠ t.init[t.top]?

def Clear (t : Traced) : Op → Prop
  | .putc _ => ¬Strands t
  | .fflush => ¬Clobbers t
  | .fclose => t.mf.mall = true ∨ ¬Clobbers t
  | _ => True

def Live (t : Traced) (_ : Op) : Prop := t.mf.freed = false

structure Unharmed (off : Nat) (s : Traced) (ops : List Op) : Prop where
  framed : Always (step off) Post s ops
  reading : (∀ op ∈ ops, op.writes = false) → ∃ t, exec (step off) s ops = some t ∧ t.mf.buf = s.init

section

variable {off : Nat}

theorem wrap_le {x : Int} (h : 0 ≤ x) : Checked.wrap off x ≤ x := by
  have hhalf : (0 : Int) < 2 ^ (off - 1) := by positivity
  have hmod := Int.emod_def (x + 2 ^ (off - 1)) (2 ^ off)
  have hquot : 0 ≤ (2 : Int) ^ off * ((x + 2 ^ (off - 1)) / 2 ^ off) :=
    mul_nonneg (by positivity) (Int.ediv_nonneg (by omega) (by positivity))
  rw [Checked.wrap]
  omega

structure Inv (t : Traced) : Prop where
  framed : Framed t
  top : t.top ≤ t.mf.size
  written : ∀ i, t.written i = true → i < t.top

theorem Framed.unmoved {t t' : Traced} (h : Framed t) (hbuf : t'.mf.buf = t.mf.buf) (hcap : t'.mf.bufsize = t.mf.bufsize)
    (hsize : t'.mf.size = t.mf.size) (hinit : t'.init = t.init) (hw : t'.written = t.written) (htop : t'.top = t.top)
    (hpos : t'.mf.pos ≤ t.mf.bufsize) : Framed t' := by
  refine ⟨by rw [hbuf,hcap,h.alloc],by rwa [hcap],by rw [hsize,hcap]; exact h.size,fun i hi => ?_⟩
  rw [hbuf,hinit] at hi
  rw [Terminator,hbuf,hw,htop]
  exact h.kept i hi

theorem Inv.unmoved {t : Traced} {m : FileMem} (h : Inv t) (hbuf : m.buf = t.mf.buf) (hcap : m.bufsize = t.mf.bufsize)
    (hsize : m.size = t.mf.size) (hpos : m.pos ≤ t.mf.bufsize) : Inv { t with mf := m } :=
  ⟨h.framed.unmoved hbuf hcap hsize rfl rfl rfl hpos,show t.top ≤ m.size from hsize ▸ h.top,h.written⟩

theorem get_cases {mf : FileMem} (halloc : mf.buf.length = mf.bufsize) (hs : mf.size ≤ mf.bufsize) :
    get mf = some (mf,-1) ∨ ∃ c, mf.pos < mf.size ∧ get mf = some ({ mf with pos := mf.pos + 1 },c) := by
  unfold get
  by_cases hrd : mf.rd = false
  · rw [if_pos hrd]
    exact .inl rfl
  rw [if_neg hrd]
  by_cases hin : mf.pos < mf.size
  · rw [if_pos hin,List.getElem?_eq_getElem (by omega)]
    exact .inr ⟨_,hin,rfl⟩
  · rw [if_neg hin]
    exact .inl rfl

theorem seek_cases (mf : FileMem) (pos : Int) (whence : Whence) :
    (seek off mf pos whence).1 = mf ∨ ∃ p ≤ mf.bufsize, (seek off mf pos whence).1 = { mf with pos := p } := by
  unfold seek
  cases seekTarget off mf pos whence with
  | none => exact .inl rfl
  | some q =>
    dsimp only
    by_cases hbad : q < 0 ∨ Checked.wrap off mf.bufsize < q
    · rw [if_pos hbad]
      exact .inl rfl
    · have hle := @wrap_le off mf.bufsize (by omega)
      rw [if_neg hbad]
      exact .inr ⟨q.toNat,by omega,rfl⟩

theorem nul_framed {t t' : Traced} (h : Inv t) (hin : t.mf.wr = true ∧ t.mf.pos < t.mf.bufsize)
    (hbuf : t'.mf.buf = t.mf.buf.set t.mf.pos 0) (hcap : t'.mf.bufsize = t.mf.bufsize) (hpos : t'.mf.pos = t.mf.pos)
    (hsize : t'.mf.size ≤ t.mf.bufsize) (hinit : t'.init = t.init) (hw : t'.written = t.written) (htop : t'.top = t.top) :
    Framed t' ↔ ¬Clobbers t := by
  have halloc := h.framed.alloc
  have hself : t'.mf.buf[t.mf.pos]? = some 0 := by rw [hbuf,List.getElem?_set_self (by omega)]
  have hother : ∀ i, i ≠ t.mf.pos → t'.mf.buf[i]? = t.mf.buf[i]? := by
    intro i hi
    rw [hbuf,List.getElem?_set_ne hi.symm]
  constructor
  · rintro hf ⟨-,-,hnul,hfresh,hmid⟩
    have hsame : t.mf.buf[t.mf.pos]? = t.init[t.mf.pos]? := by
      by_contra hne
      rcases h.framed.kept _ hne with hk | hk
      · exact absurd hk (by simp [hfresh])
      · exact hnul hk.2.2
    have hchanged : t'.mf.buf[t.mf.pos]? ≠ t'.init[t.mf.pos]? := by
      rw [hself,hinit,← hsame]
      exact hnul.symm
    rcases hf.kept _ hchanged with hk | ⟨ht,heq,-⟩
    · exact absurd hk (by simp [hw,hfresh])
    · rw [htop] at ht heq
      exact hmid ⟨ht,heq⟩
  · intro hc
    refine ⟨by rw [hbuf,List.length_set,halloc,hcap],by rw [hpos,hcap]; exact h.framed.pos,by rwa [hcap],fun i hi => ?_⟩
    rw [hw,Terminator,htop]
    by_cases heq : i = t.mf.pos
    · subst heq
      by_cases hnul : t.mf.buf[t.mf.pos]? = some 0
      · rw [hself,hinit,← hnul] at hi
        exact (h.framed.kept _ hi).imp_right (fun hk => ⟨hk.1,hk.2.1,hself⟩)
      · by_contra hn
        rw [not_or] at hn
        exact hc ⟨hin.1,hin.2,hnul,by simpa using hn.1,fun ht => hn.2 ⟨ht.1,ht.2,hself⟩⟩
    · rw [hother i heq,hinit] at hi
      exact (h.framed.kept i hi).imp_right (fun hk => ⟨hk.1,hk.2.1,(hother i heq).trans hk.2.2⟩)

theorem framed_inv {t : Traced} {P : Prop} (hiff : Framed t ↔ P) (htop : t.top ≤ t.mf.size)
    (hw : ∀ i, t.written i = true → i < t.top) : (Framed t ↔ P) ∧ (P → Inv t) :=
  ⟨hiff,fun hp => ⟨hiff.mpr hp,htop,hw⟩⟩

theorem flush_framed {t : Traced} (h : Inv t) : ∃ m, flush t.mf = some m ∧
    (Framed { t with mf := m } ↔ ¬Clobbers t) ∧ (¬Clobbers t → Inv { t with mf := m }) := by
  have halloc := h.framed.alloc
  have hsize := h.framed.size
  have htop := h.top
  unfold flush
  by_cases hin : t.mf.wr = true ∧ t.mf.pos < t.mf.bufsize
  · rw [if_pos hin,store_within (by omega)]
    have hmax : (if t.mf.size < t.mf.pos then t.mf.pos else t.mf.size) ≤ t.mf.bufsize ∧
        t.top ≤ if t.mf.size < t.mf.pos then t.mf.pos else t.mf.size := by
      split_ifs <;> omega
    exact ⟨_,rfl,framed_inv (nul_framed h hin rfl rfl rfl hmax.1 rfl rfl rfl) hmax.2 h.written⟩
  · rw [if_neg hin]
    exact ⟨t.mf,rfl,⟨fun _ hc => hin ⟨hc.1,hc.2.1⟩,fun _ => h.framed⟩,fun _ => h⟩

theorem close_framed {t : Traced} (h : Inv t) : ∃ m, close t.mf = some m ∧
    (Framed { t with mf := m } ↔ t.mf.mall = true ∨ ¬Clobbers t) ∧
    (t.mf.mall = true ∨ ¬Clobbers t → Inv { t with mf := m }) := by
  have hfreed : ∀ m, Framed { t with mf := m } → Framed { t with mf := { m with freed := true } } := fun m hf =>
    hf.unmoved rfl rfl rfl rfl rfl rfl hf.pos
  have hback : ∀ m : FileMem, Framed { t with mf := { m with freed := true } } → Framed { t with mf := m } := fun m hf =>
    hf.unmoved rfl rfl rfl rfl rfl rfl hf.pos
  cases hm : t.mf.mall with
  | true =>
    rw [close,if_pos hm]
    exact ⟨_,rfl,⟨fun _ => .inl rfl,fun _ => hfreed _ h.framed⟩,fun _ => ⟨hfreed _ h.framed,h.top,h.written⟩⟩
  | false =>
    obtain ⟨m,hflush,hiff,hinv⟩ := flush_framed h
    rw [close,if_neg (by simp [hm]),hflush]
    refine ⟨_,rfl,⟨fun hf => .inr (hiff.mp (hback m hf)),fun hc => hfreed m (hiff.mpr (hc.resolve_left (by simp)))⟩,
      fun hc => ?_⟩
    have hi := hinv (hc.resolve_left (by simp))
    exact ⟨hfreed m hi.framed,hi.top,hi.written⟩

theorem extend_eq (mf : FileMem) (n : Nat) (halloc : mf.buf.length = mf.bufsize) :
    extend mf n = some { mf with
      buf := if mf.size < n ∧ n < mf.bufsize then mf.buf.set n 0 else mf.buf
      size := max mf.size n } := by
  unfold extend
  by_cases hlt : mf.size < n
  · rw [if_pos hlt,max_eq_right hlt.le]
    by_cases hroom : n < mf.bufsize
    · rw [if_pos hroom,store_within (by omega),if_pos ⟨hlt,hroom⟩]
      rfl
    · rw [if_neg hroom,if_neg (fun h => hroom h.2)]
      rfl
  · rw [if_neg hlt,if_neg (fun h => hlt h.1),max_eq_left (not_lt.mp hlt)]

def stored (mf : FileMem) (c : UInt8) : List UInt8 :=
  if mf.size < mf.cursor + 1 ∧ mf.cursor + 1 < mf.bufsize then (mf.buf.set mf.cursor c).set (mf.cursor + 1) 0
  else mf.buf.set mf.cursor c

theorem put_cases {mf : FileMem} (halloc : mf.buf.length = mf.bufsize) (c : UInt8) :
    put mf c = some (mf,-1) ∧ ¬(mf.wr = true ∧ mf.cursor < mf.bufsize) ∨
      mf.wr = true ∧ mf.cursor < mf.bufsize ∧ put mf c = some ({ mf with
        buf := stored mf c
        size := max mf.size (mf.cursor + 1)
        pos := mf.cursor + 1 },(c.toNat : Int)) := by
  unfold put
  by_cases hwr : mf.wr = false
  · rw [if_pos hwr]
    exact .inl ⟨rfl,by simp [hwr]⟩
  rw [if_neg hwr]
  by_cases hin : mf.cursor < mf.bufsize
  · have hext := extend_eq { mf with buf := mf.buf.set mf.cursor c } (mf.cursor + 1) (by simpa using halloc)
    rw [if_pos hin,store_within (by omega)]
    dsimp only
    rw [hext]
    exact .inr ⟨by simpa using hwr,hin,rfl⟩
  · rw [if_neg hin]
    exact .inl ⟨rfl,fun h => hin h.2⟩

theorem stored_length (mf : FileMem) (c : UInt8) : (stored mf c).length = mf.buf.length := by
  unfold stored
  split_ifs <;> simp

theorem stored_other {mf : FileMem} {i : Nat} (c : UInt8) (hi : i ≠ mf.cursor)
    (hn : i = mf.cursor + 1 → ¬(mf.size < mf.cursor + 1 ∧ mf.cursor + 1 < mf.bufsize)) :
    (stored mf c)[i]? = mf.buf[i]? := by
  unfold stored
  by_cases hext : mf.size < mf.cursor + 1 ∧ mf.cursor + 1 < mf.bufsize
  · rw [if_pos hext,List.getElem?_set_ne (fun heq => hn heq.symm hext),List.getElem?_set_ne hi.symm]
  · rw [if_neg hext,List.getElem?_set_ne hi.symm]

theorem stored_next {mf : FileMem} (c : UInt8) (halloc : mf.buf.length = mf.bufsize)
    (hext : mf.size < mf.cursor + 1 ∧ mf.cursor + 1 < mf.bufsize) : (stored mf c)[mf.cursor + 1]? = some 0 := by
  rw [stored,if_pos hext,List.getElem?_set_self]
  rw [List.length_set]
  omega

theorem stored_framed {t t' : Traced} (h : Inv t) {c : UInt8} (hwr : t.mf.wr = true) (hin : t.mf.cursor < t.mf.bufsize)
    (hbuf : t'.mf.buf = stored t.mf c) (hcap : t'.mf.bufsize = t.mf.bufsize) (hpos : t'.mf.pos = t.mf.cursor + 1)
    (hsize : t'.mf.size = max t.mf.size (t.mf.cursor + 1)) (hinit : t'.init = t.init)
    (hw : t'.written = Function.update t.written t.mf.cursor true) (htop : t'.top = max t.top (t.mf.cursor + 1)) :
    Framed t' ↔ ¬Strands t := by
  have halloc := h.framed.alloc
  have hle := h.framed.size
  have hmax := h.top
  constructor
  · rintro hf ⟨-,-,hsome,hpast,hchanged⟩
    have hkept := hf.kept t.top
    rw [hbuf,stored_other c (by omega) (by omega),hinit] at hkept
    rcases hkept hchanged with hk | ⟨-,heq,-⟩
    · rw [hw,Function.update_of_ne (by omega)] at hk
      exact lt_irrefl _ (h.written _ hk)
    · omega
  · intro hc
    refine ⟨by rw [hbuf,stored_length,halloc,hcap],by omega,by omega,fun i hi => ?_⟩
    rw [hbuf,hinit] at hi
    rw [hw,Terminator,hbuf,htop]
    by_cases heq : i = t.mf.cursor
    · exact .inl (heq ▸ Function.update_self _ _ _)
    rw [Function.update_of_ne heq]
    by_cases hnext : i = t.mf.cursor + 1 ∧ t.mf.size < t.mf.cursor + 1 ∧ t.mf.cursor + 1 < t.mf.bufsize
    · exact .inr ⟨by omega,by omega,hnext.1 ▸ stored_next c halloc hnext.2⟩
    have hsame := stored_other c heq (fun hi he => hnext ⟨hi,he⟩)
    rw [hsame] at hi ⊢
    refine (h.framed.kept i hi).imp_right (fun ⟨ht,hit,hz⟩ => ⟨by omega,?_,hz⟩)
    have hreach : t.mf.cursor ≤ t.top := by
      by_contra hfar
      exact hc ⟨hwr,hin,ht,by omega,hit ▸ hi⟩
    omega

theorem put_framed {t : Traced} (h : Inv t) (c : UInt8) : ∃ t' r, t.put c = some (t',r) ∧
    (Framed t' ↔ ¬Strands t) ∧ (¬Strands t → Inv t') := by
  rcases put_cases h.framed.alloc c with ⟨hput,hout⟩ | ⟨hwr,hin,hput⟩
  · exact ⟨t,-1,by simp [Traced.put,hput],⟨fun _ hs => hout ⟨hs.1,hs.2.1⟩,fun _ => h.framed⟩,fun _ => h⟩
  · have htop := h.top
    rw [Traced.put,hput,Option.map_some,if_neg (by simp)]
    refine ⟨_,_,rfl,framed_inv (stored_framed h hwr hin rfl rfl rfl rfl rfl rfl rfl)
      (max_le_max_right _ htop) (fun i hi => ?_)⟩
    by_cases heq : i = t.mf.cursor
    · exact heq ▸ (Nat.lt_succ_self i).trans_le (le_max_right _ _)
    · have hi' : Function.update t.written t.mf.cursor true i = true := hi
      rw [Function.update_of_ne heq] at hi'
      exact (h.written i hi').trans_le (le_max_left _ _)

theorem step_framed {t : Traced} (h : Inv t) (op : Op) : ∃ t' r, step off t op = some (t',r) ∧
    (Clear t op → Inv t') ∧ (Post t op t' r ↔ Clear t op) := by
  have hmoved : ∀ {m : FileMem} {p : Nat}, p ≤ t.mf.bufsize → m = { t.mf with pos := p } → Inv { t with mf := m } := by
    rintro m p hp rfl
    exact h.unmoved rfl rfl rfl hp
  have hseek : ∀ pos whence, Inv { t with mf := (seek off t.mf pos whence).1 } := by
    intro pos whence
    rcases @seek_cases off t.mf pos whence with heq | ⟨p,hp,heq⟩
    · rw [heq]
      exact h
    · exact hmoved hp heq
  cases op with
  | getc =>
    rcases get_cases h.framed.alloc h.framed.size with hget | ⟨c,hin,hget⟩
    · exact ⟨t,-1,by simp [step,hget],fun _ => h,fun _ => trivial,fun _ => h.framed⟩
    · have hle := h.framed.size
      have hnew := hmoved (p := t.mf.pos + 1) (by omega) rfl
      exact ⟨_,c,by simp [step,hget],fun _ => hnew,fun _ => trivial,fun _ => hnew.framed⟩
  | putc c =>
    obtain ⟨t',r,hput,hiff,hinv⟩ := put_framed h c
    exact ⟨t',r,hput,hinv,hiff⟩
  | fseek pos whence => exact ⟨_,_,rfl,fun _ => hseek pos whence,fun _ => trivial,fun _ => (hseek pos whence).framed⟩
  | ftell => exact ⟨_,_,rfl,fun _ => hseek 0 .cur,fun _ => trivial,fun _ => (hseek 0 .cur).framed⟩
  | fflush =>
    obtain ⟨m,hflush,hiff,hinv⟩ := flush_framed h
    exact ⟨_,0,by simp [step,hflush],hinv,hiff⟩
  | fclose =>
    obtain ⟨m,hclose,hiff,hinv⟩ := close_framed h
    exact ⟨_,0,by simp [step,hclose],hinv,hiff⟩

def Update (mode : List Char) : Prop := ∃ rest, '+' ∈ rest ∧ (mode = 'r' :: rest ∨ mode = 'a' :: rest)

theorem strnlen_le (l : List UInt8) : strnlen l ≤ l.length := (List.takeWhile_sublist _).length_le

theorem opened_update {rest : List Char} {o : OpenFlags} {l : List UInt8} {size : Nat} {mall : Bool} {m : FileMem}
    (hplus : '+' ∈ rest) (ho : o = OpenFlags.plus ⟨true,false,false,false⟩ rest ∨
      o = OpenFlags.plus ⟨false,true,true,true⟩ rest) (hl : l.length = size) (h : opened o l size mall = some m) :
    m.buf = l ∧ m.bufsize = size ∧ m.pos ≤ size ∧ m.size ≤ size := by
  rcases ho with rfl | rfl
  · rw [OpenFlags.plus,if_pos hplus,opened,if_neg (by simp)] at h
    obtain rfl := Option.some.inj h
    exact ⟨rfl,rfl,Nat.zero_le _,le_rfl⟩
  · rw [OpenFlags.plus,if_pos hplus,opened,if_pos rfl,if_pos rfl] at h
    obtain rfl := Option.some.inj h
    have hpos : (if mall = true then 0 else strnlen l) ≤ size := by
      have hle := strnlen_le l
      split_ifs <;> omega
    exact ⟨rfl,rfl,hpos,hpos⟩

theorem start_framed {buf : Option (List UInt8)} {m : FileMem} {l : List UInt8} {size : Nat} (hl : l.length = size)
    (hinit : buf.getD m.buf = l) (h : m.buf = l ∧ m.bufsize = size ∧ m.pos ≤ size ∧ m.size ≤ size) : Inv (start buf m) := by
  obtain ⟨hbuf,hcap,hpos,hsize⟩ := h
  refine ⟨⟨by simp only [start,hbuf,hcap,hl],by simpa only [start,hcap],by simpa only [start,hcap],fun i hi => ?_⟩,
    Nat.zero_le _,fun i hi => by cases hi⟩
  exact absurd (congrArg (fun l : List UInt8 => l[i]?) (hbuf.trans hinit.symm)) hi

theorem opened_inv {buf : Option (List UInt8)} {size : Nat} {mode : List Char} {file : Bool}
    {malloc : Option (List UInt8)} {m : FileMem} (hmode : Update mode) (hbuf : ∀ l ∈ buf, l.length = size)
    (hgot : ∀ l ∈ malloc, l.length = size) (h : fmemopen buf size mode file malloc = some m) : Inv (start buf m) := by
  obtain ⟨rest,hplus,hmode⟩ := hmode
  obtain ⟨o,ho,hflags⟩ : ∃ o, (o = OpenFlags.plus ⟨true,false,false,false⟩ rest ∨
      o = OpenFlags.plus ⟨false,true,true,true⟩ rest) ∧ stdioFlags mode = some o := by
    rcases hmode with rfl | rfl
    · exact ⟨_,.inl rfl,rfl⟩
    · exact ⟨_,.inr rfl,rfl⟩
  rw [fmemopen,hflags] at h
  dsimp only at h
  by_cases hbad : size = 0 ∨ file = false
  · rw [if_pos hbad] at h
    cases h
  rw [if_neg hbad] at h
  cases buf with
  | some l => exact start_framed (hbuf l rfl) rfl (opened_update hplus ho (hbuf l rfl) h)
  | none =>
    cases hm : mallocated o malloc with
    | none =>
      rw [hm] at h
      cases h
    | some l =>
      rw [hm] at h
      have hlen : l.length = size := by
        cases malloc with
        | none => cases hm
        | some got =>
          have hlen := hgot got rfl
          rw [mallocated,store] at hm
          split_ifs at hm
          rw [← Option.some.inj hm,List.length_set,hlen]
      have hopen := opened_update hplus ho hlen h
      exact start_framed hlen hopen.1 hopen

structure Unwritten (l : List UInt8) (t : Traced) : Prop where
  init : t.init = l
  buf : t.mf.buf = l
  top : t.top = 0
  written : ∀ i, t.written i = false

theorem step_ghost {t t' : Traced} {op : Op} {r : Int} (hop : op.writes = false) (h : step off t op = some (t',r)) :
    t'.init = t.init ∧ t'.top = t.top ∧ t'.written = t.written := by
  cases op with
  | putc c => cases hop
  | getc =>
    obtain ⟨q,-,heq⟩ := Option.map_eq_some_iff.mp h
    cases heq
    exact ⟨rfl,rfl,rfl⟩
  | fseek pos whence =>
    cases h
    exact ⟨rfl,rfl,rfl⟩
  | ftell =>
    cases h
    exact ⟨rfl,rfl,rfl⟩
  | fflush =>
    obtain ⟨m,-,heq⟩ := Option.map_eq_some_iff.mp h
    cases heq
    exact ⟨rfl,rfl,rfl⟩
  | fclose =>
    obtain ⟨m,-,heq⟩ := Option.map_eq_some_iff.mp h
    cases heq
    exact ⟨rfl,rfl,rfl⟩

theorem step_unwritten {l : List UInt8} {t t' : Traced} {op : Op} {r : Int} (hop : op.writes = false)
    (h : Unwritten l t) (hstep : step off t op = some (t',r)) (hpost : Post t op t' r) : Unwritten l t' := by
  obtain ⟨hinit,htop,hw⟩ := step_ghost hop hstep
  have hnone : ∀ i, t'.written i = false := fun i => by rw [hw,h.written]
  have hsame : t'.mf.buf = t'.init := by
    refine List.ext_getElem? (fun i => ?_)
    by_contra hne
    rcases hpost.kept i hne with hk | ⟨hk,-⟩
    · exact absurd hk (by simp [hnone])
    · rw [htop,h.top] at hk
      exact lt_irrefl 0 hk
  exact ⟨hinit.trans h.init,hsame.trans (hinit.trans h.init),htop.trans h.top,hnone⟩

theorem fmem_run_iff {buf : Option (List UInt8)} {size : Nat} {mode : List Char} {file : Bool}
    {malloc : Option (List UInt8)} {m : FileMem} (hmode : Update mode) (hbuf : ∀ l ∈ buf, l.length = size)
    (hgot : ∀ l ∈ malloc, l.length = size) (hopen : fmemopen buf size mode file malloc = some m) {ops : List Op}
    (hl : Guarded (step off) Live (start buf m) ops) :
    Unharmed off (start buf m) ops ↔ Guarded (step off) Clear (start buf m) ops := by
  have hinv := opened_inv hmode hbuf hgot hopen
  have hiff := always_iff_guarded (step off) (fun _ op hi _ => step_framed hi op) hinv hl
  refine ⟨fun h => hiff.mp h.framed,fun h => ⟨hiff.mpr h,fun hread => ?_⟩⟩
  have hstart : Unwritten (start buf m).init (start buf m) := by
    refine ⟨rfl,List.ext_getElem? (fun i => ?_),rfl,fun _ => rfl⟩
    by_contra hne
    rcases hinv.framed.kept i hne with hk | ⟨hk,-⟩
    · cases hk
    · exact lt_irrefl 0 hk
  obtain ⟨t,hexec,hlast⟩ := always_exec (step off) (fun _ _ _ op hin hk => step_unwritten (hread op hin) hk) hstart
    (hiff.mpr h)
  exact ⟨t,hexec,hlast.buf⟩

end

def hello : List UInt8 := [0x68,0x65,0x6C,0x6C,0x6F]

def helloMem (pos : Nat) : FileMem := ⟨hello,5,5,pos,false,false,true,true,false⟩

theorem hello_seek :
    step 64 (start (some hello) (helloMem 1)) (.fseek 0 .fin) = some (start (some hello) (helloMem 5),0) := by
  have hfive : Checked.wrap 64 5 = 5 := Checked.wrap_fits (by decide) ⟨by norm_num,by norm_num⟩
  have hseek : seek 64 (helloMem 1) 0 .fin = (helloMem 5,5) := by
    simp [seek,seekTarget,helloMem,hfive]
  rw [step,start,hseek]
  rfl

theorem hello_guarded {ok : Traced → Op → Prop} (hget : ok (start (some hello) (helloMem 0)) .getc)
    (hseek : ok (start (some hello) (helloMem 1)) (.fseek 0 .fin)) (hflush : ok (start (some hello) (helloMem 5)) .fflush)
    (hclose : ok (start (some hello) (helloMem 5)) .fclose) :
    Guarded (step 64) ok (start (some hello) (helloMem 0)) [.getc,.fseek 0 .fin,.fflush,.fclose] :=
  guarded_cons (step 64) rfl hget (guarded_cons (step 64) hello_seek hseek (guarded_cons (step 64) rfl hflush
    (guarded_cons (step 64) rfl hclose trivial)))

theorem fmem_run_hello : Unharmed 64 (start (some hello) (helloMem 0)) [.getc,.fseek 0 .fin,.fflush,.fclose] := by
  have hfull : ¬Clobbers (start (some hello) (helloMem 5)) := fun h => absurd h.2.1 (by decide)
  have hopen : fmemopen (some hello) 5 ['r','+'] true none = some (helloMem 0) := rfl
  have hlen : ∀ l ∈ some hello, l.length = 5 := fun l hl => Option.some.inj hl ▸ rfl
  have hgot : ∀ l ∈ (none : Option (List UInt8)), l.length = 5 := nofun
  exact (fmem_run_iff ⟨['+'],by decide,.inl rfl⟩ hlen hgot hopen (hello_guarded rfl rfl rfl rfl)).mpr
    (hello_guarded trivial trivial hfull (.inr hfull))

theorem close_after_read : ¬Unharmed 64 (start (some hello) (helloMem 0)) [.getc,.fclose] := by
  rintro ⟨-,hread⟩
  obtain ⟨t,hexec,hbuf⟩ := hread (by decide)
  obtain rfl := Option.some.inj hexec
  exact absurd hbuf (by decide)

end Fmem
