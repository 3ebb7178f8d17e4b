import Mathlib
import Picolibc.Lib.Checked
import Picolibc.Lib.FaultRun

open FaultRun

namespace Memstream

structure OpenMem where
  buf : List UInt8
  bsize : Nat
  fsize : Nat
  pos : Nat
  size : Nat
  freed : Bool
  deriving DecidableEq, Repr

inductive Whence where
  | set
  | cur
  | fin
  | other
  deriving DecidableEq, Repr

abbrev Realloc := Nat → Option (Nat → UInt8)

def bufsiz : Nat := 512

def openMemstream (size : Nat) : OpenMem := ⟨List.replicate bufsiz 0,bufsiz,0,0,size,false⟩

def memset (l : List UInt8) (from_ n : Nat) : Option (List UInt8) :=
  if from_ + n ≤ l.length then some (l.take from_ ++ List.replicate n 0 ++ l.drop (from_ + n)) else none

def realloced (old : List UInt8) (n : Nat) (junk : Nat → UInt8) : List UInt8 :=
  old.take n ++ (List.range' old.length (n - old.length)).map junk

section

variable (w off : Nat)

def growSize (m : OpenMem) (required : Nat) : Nat :=
  let bsize := (m.bsize + m.bsize / 2) % 2 ^ w
  ((if bsize < required then required else bsize) + 1) % 2 ^ w

def grow (m : OpenMem) (additional : Nat) (r : Realloc) : Option (OpenMem × Bool) :=
  if 2 ^ w - 1 - m.pos < additional then some (m,false) else
  if m.pos + additional < m.bsize then some (m,true) else
  if growSize w m (m.pos + additional) < m.bsize then some (m,false) else
  match r (growSize w m (m.pos + additional)) with
  | none => some (m,false)
  | some junk =>
    match memset (realloced m.buf (growSize w m (m.pos + additional)) junk) m.bsize
        (growSize w m (m.pos + additional) - m.bsize) with
    | none => none
    | some buf => some ({ m with buf := buf, bsize := growSize w m (m.pos + additional) },true)

def put (m : OpenMem) (c : UInt8) (r : Realloc) : Option (OpenMem × Bool) :=
  match grow w m 2 r with
  | none => none
  | some (m,false) => some (m,false)
  | some (m,true) =>
    match store m.buf m.pos c with
    | none => none
    | some buf => some ({ m with buf := buf, pos := m.pos + 1, fsize := m.pos + 1 },true)

def seekTarget (m : OpenMem) (pos : Int) : Whence → Option Int
  | .set => some pos
  | .cur => some (Checked.wrap off (pos + m.pos))
  | .fin => some (Checked.wrap off (pos + m.fsize))
  | .other => none

def seekTo (m : OpenMem) (offset : Nat) (r : Realloc) : Option (OpenMem × Bool) :=
  if m.bsize < offset then
    match grow w m ((offset + 2 ^ w - m.pos) % 2 ^ w) r with
    | none => none
    | some (m,false) => some (m,false)
    | some (m,true) => some ({ m with pos := offset, fsize := offset },true)
  else some ({ m with pos := offset, fsize := offset },true)

def seek (m : OpenMem) (pos : Int) (whence : Whence) (r : Realloc) : Option (OpenMem × Bool) :=
  match seekTarget off m pos whence with
  | none => some (m,false)
  | some pos => if pos < 0 then some (m,false) else seekTo w m (pos.toNat % 2 ^ w) r

def flush (m : OpenMem) : OpenMem := { m with size := m.fsize }

def close (m : OpenMem) : OpenMem := { flush m with freed := true }

inductive Op where
  | putc (c : UInt8) (r : Realloc)
  | fseek (pos : Int) (whence : Whence) (r : Realloc)
  | fflush
  | fclose

structure Traced where
  mf : OpenMem
  last : Nat → Option UInt8
  landed : Bool

def landing (m : OpenMem) (pos : Int) (whence : Whence) : Bool :=
  decide ((seekTarget off m pos whence).map (fun p => p.toNat % 2 ^ w) = some m.bsize)

def step (t : Traced) : Op → Option (Traced × Bool)
  | .putc c r =>
    (put w t.mf c r).map (fun q => if q.2 then
      (⟨q.1,Function.update t.last t.mf.pos (some c),false⟩,true) else (⟨q.1,t.last,t.landed⟩,false))
  | .fseek pos whence r =>
    (seek w off t.mf pos whence r).map (fun q => if q.2 then
      (⟨q.1,t.last,landing w off t.mf pos whence⟩,true) else (⟨q.1,t.last,t.landed⟩,false))
  | .fflush => some (⟨flush t.mf,t.last,t.landed⟩,true)
  | .fclose => some (⟨close t.mf,t.last,t.landed⟩,true)

end

def start (size : Nat) : Traced := ⟨openMemstream size,fun _ => none,false⟩

structure Published (t : Traced) : Prop where
  size : t.mf.size = t.mf.fsize
  room : t.mf.size < t.mf.buf.length
  nul : t.mf.buf[t.mf.size]? = some 0 ∨ ∃ j, t.mf.size ≤ j ∧ t.last j ≠ none
  content : ∀ i < t.mf.size, t.mf.buf[i]? = some ((t.last i).getD 0)

structure Within (m : OpenMem) : Prop where
  alloc : m.buf.length = m.bsize
  pos : m.pos ≤ m.bsize
  fsize : m.fsize ≤ m.bsize

def Post (t : Traced) (op : Op) (t' : Traced) (ok : Bool) : Prop :=
  Within t'.mf ∧
    match op with
    | .fflush => Published t'
    | .fclose => Published t'
    | _ => ok = false → t'.mf = t.mf

def Clear (t : Traced) : Op → Prop
  | .fflush => t.landed = false
  | .fclose => t.landed = false
  | _ => True

def Live (t : Traced) (_ : Op) : Prop := t.mf.freed = false

section

variable {w off : Nat}

theorem memset_realloced {old : List UInt8} {n : Nat} (h : old.length ≤ n) (junk : Nat → UInt8) :
    memset (realloced old n junk) old.length (n - old.length) = some (old ++ List.replicate (n - old.length) 0) := by
  have hlen : (realloced old n junk).length = n := by
    simp [realloced]
    omega
  have htake : (realloced old n junk).take old.length = old := by
    rw [realloced,List.take_of_length_le h,List.take_left]
  rw [memset,if_pos (by omega),htake,List.drop_of_length_le (by omega),List.append_nil]

theorem growSize_ok {m : OpenMem} {required : Nat} (hr : required < 2 ^ w) (hpos : 0 < m.bsize) (hok : m.bsize ≤ growSize w m required) :
    required < growSize w m required ∧ growSize w m required < 2 ^ w := by
  unfold growSize at hok ⊢
  dsimp only at hok ⊢
  have hmod : (m.bsize + m.bsize / 2) % 2 ^ w < 2 ^ w := Nat.mod_lt _ (Nat.two_pow_pos w)
  generalize (m.bsize + m.bsize / 2) % 2 ^ w = x at *
  by_cases hlt : x < required
  · rw [if_pos hlt] at hok ⊢
    rcases Nat.lt_or_ge (required + 1) (2 ^ w) with h | h
    · rw [Nat.mod_eq_of_lt h]
      omega
    · have hwrap : required + 1 = 2 ^ w := by omega
      rw [hwrap,Nat.mod_self] at hok
      omega
  · rw [if_neg hlt] at hok ⊢
    rcases Nat.lt_or_ge (x + 1) (2 ^ w) with h | h
    · rw [Nat.mod_eq_of_lt h]
      omega
    · have hwrap : x + 1 = 2 ^ w := by omega
      rw [hwrap,Nat.mod_self] at hok
      omega

structure Grown (m m' : OpenMem) (required : Nat) : Prop where
  rest : m' = { m with buf := m'.buf, bsize := m'.bsize }
  buf : m'.buf = m.buf ++ List.replicate (m'.bsize - m.bsize) 0
  le : m.bsize ≤ m'.bsize
  room : required < m'.bsize

theorem grow_cases {m : OpenMem} (halloc : m.buf.length = m.bsize) (hp : m.pos ≤ m.bsize) (hb : m.bsize < 2 ^ w)
    (hpos : 0 < m.bsize) (additional : Nat) (r : Realloc) :
    grow w m additional r = some (m,false) ∨ ∃ m', grow w m additional r = some (m',true) ∧
      Grown m m' (m.pos + additional) ∧ m'.bsize < 2 ^ w := by
  unfold grow
  by_cases hover : 2 ^ w - 1 - m.pos < additional
  · rw [if_pos hover]
    exact .inl rfl
  rw [if_neg hover]
  by_cases hfit : m.pos + additional < m.bsize
  · rw [if_pos hfit]
    exact .inr ⟨m,rfl,⟨rfl,by simp,le_rfl,hfit⟩,hb⟩
  rw [if_neg hfit]
  by_cases hwrap : growSize w m (m.pos + additional) < m.bsize
  · rw [if_pos hwrap]
    exact .inl rfl
  rw [if_neg hwrap]
  obtain ⟨hroom,hlt⟩ := growSize_ok (by omega) hpos (not_lt.mp hwrap)
  cases r (growSize w m (m.pos + additional)) with
  | none => exact .inl rfl
  | some junk =>
    have hset := @memset_realloced m.buf (growSize w m (m.pos + additional)) (by omega) junk
    rw [halloc] at hset
    simp only [hset]
    exact .inr ⟨_,rfl,⟨rfl,rfl,not_lt.mp hwrap,hroom⟩,hlt⟩

structure Inv (w : Nat) (t : Traced) : Prop where
  alloc : t.mf.buf.length = t.mf.bsize
  pos : t.mf.pos ≤ t.mf.bsize
  same : t.mf.fsize = t.mf.pos
  bound : t.mf.bsize < 2 ^ w
  some : 0 < t.mf.bsize
  landed : t.landed = decide (t.mf.pos = t.mf.bsize)
  content : ∀ i < t.mf.bsize, t.mf.buf[i]? = .some ((t.last i).getD 0)
  fresh : ∀ i, t.mf.bsize ≤ i → t.last i = none

theorem Inv.within {t : Traced} (h : Inv w t) : Within t.mf := ⟨h.alloc,h.pos,by rw [h.same]; exact h.pos⟩

theorem grown_content {m m' : OpenMem} {required : Nat} (h : Grown m m' required) (halloc : m.buf.length = m.bsize)
    {last : Nat → Option UInt8} (hc : ∀ i < m.bsize, m.buf[i]? = some ((last i).getD 0))
    (hf : ∀ i, m.bsize ≤ i → last i = none) :
    m'.buf.length = m'.bsize ∧ ∀ i < m'.bsize, m'.buf[i]? = some ((last i).getD 0) := by
  have hle := h.le
  rw [h.buf]
  constructor
  · rw [List.length_append,List.length_replicate]
    omega
  · intro i hi
    by_cases hin : i < m.bsize
    · rw [List.getElem?_append_left (by omega),hc i hin]
    · rw [List.getElem?_append_right (by omega),List.getElem?_replicate,if_pos (by omega),hf i (by omega)]
      rfl

theorem put_step {t : Traced} (h : Inv w t) (c : UInt8) (r : Realloc) :
    ∃ t' ok, step w off t (.putc c r) = some (t',ok) ∧ Inv w t' ∧ (ok = false → t'.mf = t.mf) := by
  rcases grow_cases h.alloc h.pos h.bound h.some 2 r with hg | ⟨m,hg,hgrown,hlt⟩
  · refine ⟨⟨t.mf,t.last,t.landed⟩,false,?_,h,fun _ => rfl⟩
    simp [step,put,hg]
  · obtain ⟨hlen,hcontent⟩ := grown_content hgrown h.alloc h.content h.fresh
    have hrest := hgrown.rest
    have hpos : m.pos = t.mf.pos := by rw [hrest]
    have hroom := hgrown.room
    have hstore : store m.buf m.pos c = some (m.buf.set m.pos c) := store_within (by omega) c
    refine ⟨⟨{ m with buf := m.buf.set m.pos c, pos := m.pos + 1, fsize := m.pos + 1 },
      Function.update t.last t.mf.pos (some c),false⟩,true,?_,?_,by simp⟩
    · simp [step,put,hg,hstore]
    · refine ⟨?_,?_,rfl,hlt,?_,?_,?_,?_⟩
      · simpa using hlen
      · dsimp only
        omega
      · dsimp only
        omega
      · dsimp only
        rw [eq_comm,decide_eq_false_iff_not]
        omega
      · intro i hi
        dsimp only at hi ⊢
        by_cases heq : i = t.mf.pos
        · subst heq
          rw [hpos,List.getElem?_set_self (by omega),Function.update_self]
          rfl
        · rw [List.getElem?_set_ne (by omega),Function.update_of_ne heq,hcontent i hi]
      · intro i hi
        dsimp only at hi ⊢
        have hle := hgrown.le
        rw [Function.update_of_ne (by omega)]
        exact h.fresh i (by omega)

theorem seekTo_cases {t : Traced} (h : Inv w t) {offset : Nat} (ho : offset < 2 ^ w) (r : Realloc) :
    seekTo w t.mf offset r = some (t.mf,false) ∨ ∃ m, seekTo w t.mf offset r = some (m,true) ∧
      Inv w ⟨m,t.last,decide (offset = t.mf.bsize)⟩ := by
  have hp := h.pos
  have hb := h.bound
  unfold seekTo
  by_cases hpast : t.mf.bsize < offset
  · have hadd : (offset + 2 ^ w - t.mf.pos) % 2 ^ w = offset - t.mf.pos := by
      rw [show offset + 2 ^ w - t.mf.pos = offset - t.mf.pos + 2 ^ w by omega,Nat.add_mod_right,
        Nat.mod_eq_of_lt (by omega)]
    rw [if_pos hpast,hadd]
    rcases grow_cases h.alloc h.pos h.bound h.some (offset - t.mf.pos) r with hg | ⟨m,hg,hgrown,hlt⟩
    · rw [hg]
      exact .inl rfl
    · obtain ⟨hlen,hcontent⟩ := grown_content hgrown h.alloc h.content h.fresh
      have hroom := hgrown.room
      have hle := hgrown.le
      rw [hg]
      refine .inr ⟨_,rfl,hlen,?_,rfl,hlt,?_,?_,hcontent,fun i hi => h.fresh i (hle.trans hi)⟩
      · dsimp only
        omega
      · dsimp only
        omega
      · dsimp only
        rw [decide_eq_decide]
        omega
  · rw [if_neg hpast]
    exact .inr ⟨_,rfl,h.alloc,not_lt.mp hpast,rfl,h.bound,h.some,rfl,h.content,h.fresh⟩

theorem seek_step {t : Traced} (h : Inv w t) (pos : Int) (whence : Whence) (r : Realloc) :
    ∃ t' ok, step w off t (.fseek pos whence r) = some (t',ok) ∧ Inv w t' ∧ (ok = false → t'.mf = t.mf) := by
  cases hs : seekTarget off t.mf pos whence with
  | none => exact ⟨t,false,by simp [step,seek,hs],h,fun _ => rfl⟩
  | some p =>
    by_cases hneg : p < 0
    · exact ⟨t,false,by simp [step,seek,hs,hneg],h,fun _ => rfl⟩
    · rcases seekTo_cases h (Nat.mod_lt p.toNat (Nat.two_pow_pos w)) r with hk | ⟨m,hk,hinv⟩
      · exact ⟨t,false,by simp [step,seek,hs,hneg,hk],h,fun _ => rfl⟩
      · refine ⟨⟨m,t.last,landing w off t.mf pos whence⟩,true,by simp [step,seek,hs,hneg,hk],?_,by simp⟩
        simpa [landing,hs] using hinv

theorem published_iff {t t' : Traced} (h : Inv w t) (hmf : t'.mf = { flush t.mf with freed := t'.mf.freed })
    (hlast : t'.last = t.last) : Published t' ↔ t.landed = false := by
  have halloc := h.alloc
  have hsame := h.same
  have hp := h.pos
  have hsize : t'.mf.size = t.mf.fsize := by rw [hmf]; rfl
  have hfsize : t'.mf.fsize = t.mf.fsize := by rw [hmf]; rfl
  have hbuf : t'.mf.buf = t.mf.buf := by rw [hmf]; rfl
  rw [h.landed,decide_eq_false_iff_not]
  constructor
  · rintro ⟨-,hroom,-,-⟩
    rw [hsize,hbuf] at hroom
    omega
  · intro hne
    refine ⟨by rw [hsize,hfsize],by rw [hsize,hbuf]; omega,?_,?_⟩
    · rw [hsize,hbuf,h.content _ (by omega),hlast]
      cases hl : t.last t.mf.fsize with
      | none => exact .inl rfl
      | some c => exact .inr ⟨_,le_rfl,by simp [hl]⟩
    · intro i hi
      rw [hsize] at hi
      rw [hbuf,hlast,h.content i (by omega)]

theorem flush_inv {t t' : Traced} (h : Inv w t) (hmf : t'.mf = { flush t.mf with freed := t'.mf.freed })
    (hlast : t'.last = t.last) (hland : t'.landed = t.landed) : Inv w t' := by
  obtain ⟨m,last,landed⟩ := t'
  dsimp only at hmf hlast hland
  rw [hmf,hlast,hland]
  exact ⟨h.alloc,h.pos,h.same,h.bound,h.some,h.landed,h.content,h.fresh⟩

theorem step_sound {t : Traced} (h : Inv w t) (op : Op) :
    ∃ t' ok, step w off t op = some (t',ok) ∧ Inv w t' ∧ (Post t op t' ok ↔ Clear t op) := by
  cases op with
  | putc c r =>
    obtain ⟨t',ok,hstep,hinv,hsame⟩ := @put_step w off t h c r
    exact ⟨t',ok,hstep,hinv,fun _ => trivial,fun _ => ⟨hinv.within,hsame⟩⟩
  | fseek pos whence r =>
    obtain ⟨t',ok,hstep,hinv,hsame⟩ := @seek_step w off t h pos whence r
    exact ⟨t',ok,hstep,hinv,fun _ => trivial,fun _ => ⟨hinv.within,hsame⟩⟩
  | fflush =>
    have hinv : Inv w ⟨flush t.mf,t.last,t.landed⟩ := flush_inv h rfl rfl rfl
    have hpub : Published ⟨flush t.mf,t.last,t.landed⟩ ↔ t.landed = false := published_iff h rfl rfl
    exact ⟨_,true,rfl,hinv,fun hp => hpub.mp hp.2,fun hc => ⟨hinv.within,hpub.mpr hc⟩⟩
  | fclose =>
    have hinv : Inv w ⟨close t.mf,t.last,t.landed⟩ := flush_inv h rfl rfl rfl
    have hpub : Published ⟨close t.mf,t.last,t.landed⟩ ↔ t.landed = false := published_iff h rfl rfl
    exact ⟨_,true,rfl,hinv,fun hp => hpub.mp hp.2,fun hc => ⟨hinv.within,hpub.mpr hc⟩⟩

theorem start_inv (hw : bufsiz < 2 ^ w) (size : Nat) : Inv w (start size) := by
  refine ⟨List.length_replicate,Nat.zero_le _,rfl,hw,show 0 < bufsiz by decide,rfl,?_,fun _ _ => rfl⟩
  intro i hi
  exact (List.getElem?_replicate).trans (if_pos hi)

theorem memstream_run_iff (hw : bufsiz < 2 ^ w) (size : Nat) {ops : List Op}
    (hl : Guarded (step w off) Live (start size) ops) :
    Always (step w off) Post (start size) ops ↔ Guarded (step w off) Clear (start size) ops :=
  always_iff_guarded (step w off) (fun _ op hinv _ =>
    let ⟨t,ok,hstep,hkept,hpost⟩ := step_sound hinv op
    ⟨t,ok,hstep,fun _ => hkept,hpost⟩) (start_inv hw size) hl

end

def refuses : Realloc := fun _ => none

theorem start_put (c : UInt8) : step 64 64 (start 0) (.putc c refuses) =
    some (⟨⟨(List.replicate bufsiz 0).set 0 c,bufsiz,1,1,0,false⟩,Function.update (fun _ => none) 0 (some c),false⟩,true) := by
  have hgrow : grow 64 (start 0).mf 2 refuses = some ((start 0).mf,true) := by
    rw [grow,if_neg (show ¬2 ^ 64 - 1 - (start 0).mf.pos < 2 by decide),
      if_pos (show (start 0).mf.pos + 2 < (start 0).mf.bsize by decide)]
  have hstore : store (start 0).mf.buf (start 0).mf.pos c = some ((List.replicate bufsiz 0).set 0 c) :=
    store_within (show 0 < (List.replicate bufsiz (0 : UInt8)).length by rw [List.length_replicate]; decide) c
  simp only [step,put,hgrow,hstore]
  rfl

theorem start_seek : step 64 64 (start 0) (.fseek 512 .set refuses) =
    some (⟨⟨List.replicate bufsiz 0,bufsiz,512,512,0,false⟩,fun _ => none,true⟩,true) := by
  have hseek : seekTo 64 (start 0).mf 512 refuses = some ({ (start 0).mf with pos := 512, fsize := 512 },true) :=
    if_neg (show ¬bufsiz < 512 by decide)
  have hland : landing 64 64 (start 0).mf 512 .set = true := by
    rw [landing,decide_eq_true_eq]
    rfl
  simp only [step,seek,seekTarget,hland]
  rw [if_neg (by decide),show (512 : Int).toNat % 2 ^ 64 = 512 by decide,hseek]
  rfl

theorem memstream_run_letter :
    Always (step 64 64) Post (start 0) [.putc 0x41 refuses,.fflush,.fclose] := by
  have hrun : ∀ ok : Traced → Op → Prop, ok (start 0) (.putc 0x41 refuses) →
      (∀ t : Traced, t.mf.freed = false → t.landed = false → ok t .fflush ∧ ok t .fclose) →
        Guarded (step 64 64) ok (start 0) [.putc 0x41 refuses,.fflush,.fclose] := by
    intro ok hput hrest
    refine ⟨hput,fun s r h => ?_⟩
    rw [start_put] at h
    obtain ⟨rfl,rfl⟩ := Prod.mk.inj (Option.some.inj h)
    refine ⟨(hrest _ rfl rfl).1,fun s' r' h' => ?_⟩
    obtain ⟨rfl,rfl⟩ := Prod.mk.inj (Option.some.inj h')
    exact ⟨(hrest _ rfl rfl).2,fun _ _ _ => trivial⟩
  exact (memstream_run_iff (by decide) 0 (hrun Live rfl (fun _ hf _ => ⟨hf,hf⟩))).mpr
    (hrun Clear trivial (fun _ _ hl => ⟨hl,hl⟩))

theorem seek_to_capacity :
    ¬Always (step 64 64) Post (start 0) [.fseek 512 .set refuses,.fflush] := by
  rintro ⟨t,ok,h,-,t',ok',h',⟨-,hpub⟩,-⟩
  rw [start_seek] at h
  obtain ⟨rfl,rfl⟩ := Prod.mk.inj (Option.some.inj h)
  obtain ⟨rfl,rfl⟩ := Prod.mk.inj (Option.some.inj h')
  have hroom : 512 < (List.replicate bufsiz (0 : UInt8)).length := hpub.room
  rw [List.length_replicate] at hroom
  exact absurd hroom (by decide)

end Memstream
