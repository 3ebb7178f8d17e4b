import Mathlib
import Picolibc.Lib.BlockHeap

open BlockHeap

namespace Getdelim

inductive Item where
  | byte (b : UInt8)
  | eof
  | err
  deriving DecidableEq, Repr

def incr : Nat := 16

structure Call where
  ssizeMax : Nat
  delim : Int
  input : Nat → Item
  grant : Nat → Outcome
  junk : Nat → Nat → UInt8

structure State where
  heap : Heap UInt8
  line : Option Nat
  n : Nat
  count : Nat
  calls : Nat

structure Result where
  heap : Heap UInt8
  lineptr : Option Nat
  nptr : Nat
  ret : Int

inductive Room where
  | ok (s : State)
  | bail (h : Heap UInt8)

def makeRoom (c : Call) (s : State) (need : Nat) : Option Room :=
  if s.n ≤ need then
    if c.ssizeMax - incr < s.n then some (.bail s.heap) else
    match s.heap.realloc (s.n + incr) (c.junk s.calls) s.line (c.grant s.calls) with
    | none => none
    | some (none,h) => some (.bail h)
    | some (some p,h) => some (.ok { s with heap := h, line := some p, n := s.n + incr, calls := s.calls + 1 })
  else some (.ok s)

def finish (s : State) : Option Result :=
  (s.heap.write s.line s.count 0).map (fun h => ⟨h,s.line,s.n,s.count⟩)

def atEof (c : Call) (lineptr : Option Nat) (nptr : Nat) (s : State) : Option Result :=
  if s.count = 0 then some ⟨s.heap,lineptr,nptr,-1⟩ else
  match makeRoom c s s.count with
  | none => none
  | some (.bail h) => some ⟨h,lineptr,nptr,-1⟩
  | some (.ok s) => finish s

def loop (c : Call) (lineptr : Option Nat) (nptr : Nat) : Nat → State → Option Result
  | 0, _ => none
  | fuel + 1, s =>
    match c.input s.count with
    | .byte b =>
      match makeRoom c s (s.count + 1) with
      | none => none
      | some (.bail h) => some ⟨h,lineptr,nptr,-1⟩
      | some (.ok s) =>
        match s.heap.write s.line s.count b with
        | none => none
        | some h =>
          let s := { s with heap := h, count := s.count + 1 }
          if (b.toNat : Int) = c.delim then finish s else loop c lineptr nptr fuel s
    | _ => atEof c lineptr nptr s

def startSize (lineptr : Option Nat) (nptr : Nat) : Nat := if lineptr.isSome then nptr else 0

def getdelim (c : Call) (h : Heap UInt8) (lineptr : Option Nat) (nptr : Nat) : Option Result :=
  loop c lineptr nptr (startSize lineptr nptr + c.ssizeMax + incr + 1) ⟨h,lineptr,startSize lineptr nptr,0,0⟩

def cap (n j : Nat) : Nat := n + incr * j

def Reaches (c : Call) (k : Nat) : Prop := ∀ i < k, ∃ b, c.input i = .byte b ∧ (b.toNat : Int) ≠ c.delim

def Needs (c : Call) (n j : Nat) : Prop := Reaches c (cap n j - 1) ∧ ∃ b, c.input (cap n j - 1) = .byte b

def Grants (c : Call) (n j : Nat) : Prop := c.grant j ≠ .fail ∧ cap n j ≤ c.ssizeMax - incr

structure Refused (c : Call) (n j : Nat) : Prop where
  needs : Needs c n j
  denied : ¬Grants c n j
  earlier : ∀ i < j, Grants c n i

structure Delivered (c : Call) (bytes : List UInt8) : Prop where
  read : ∀ i (hi : i < bytes.length), c.input i = .byte bytes[i]
  ends : (Reaches c bytes.length ∧ ∀ b, c.input bytes.length ≠ .byte b) ∨
    ∃ k b, bytes.length = k + 1 ∧ Reaches c k ∧ c.input k = .byte b ∧ (b.toNat : Int) = c.delim

structure Kept (h₀ : Heap UInt8) (old : Option Nat) (h : Heap UInt8) (new : Option Nat) (n : Nat) : Prop where
  valid : ∀ p, new = some p → ∃ l, h.blocks p = some l ∧ n ≤ l.length
  ledger : ∀ q, (∃ l, h.blocks q = some l) ↔ new = some q ∨ old ≠ some q ∧ ∃ l, h₀.blocks q = some l
  others : ∀ q, old ≠ some q → new ≠ some q → h.blocks q = h₀.blocks q

def Silent (c : Call) : Prop := ∀ b, c.input 0 ≠ .byte b

def Errs (c : Call) (n : Nat) : Prop := (∃ k, Reaches c k ∧ c.input k = .err) ∨ ∃ j, Refused c n j

structure Served (c : Call) (h₀ : Heap UInt8) (lineptr : Option Nat) (nptr : Nat) (r : Result) : Prop where
  kept : Kept h₀ lineptr r.heap r.lineptr r.nptr
  failure : r.ret = -1 ↔ Silent c ∨ Errs c (startSize lineptr nptr)
  success : r.ret ≠ -1 → ∃ bytes p l, Delivered c bytes ∧ r.ret = bytes.length ∧ r.lineptr = some p ∧
    r.heap.blocks p = some l ∧ l.take (bytes.length + 1) = bytes ++ [0]

def InPlace (c : Call) (lineptr : Option Nat) (j : Nat) : Prop := ∀ i < j, lineptr ≠ none ∧ c.grant i = .stay

structure Safe (c : Call) (lineptr : Option Nat) (nptr : Nat) : Prop where
  place : ∀ j, Refused c (startSize lineptr nptr) j → InPlace c lineptr j
  input : ∀ k, 0 < k → Reaches c k → c.input k = .err → ∃ j, Refused c (startSize lineptr nptr) j

def Owned (h : Heap UInt8) (lineptr : Option Nat) (nptr : Nat) : Prop :=
  ∀ p, lineptr = some p → ∃ l, h.blocks p = some l ∧ nptr ≤ l.length

section

variable {c : Call} {h₀ h : Heap UInt8} {lineptr line : Option Nat} {nptr n : Nat} {s : State}

theorem Refused.unique {j k : Nat} (hj : Refused c n j) (hk : Refused c n k) : j = k := by
  rcases lt_trichotomy j k with hlt | heq | hlt
  · exact absurd (hk.earlier j hlt) hj.denied
  · exact heq
  · exact absurd (hj.earlier k hlt) hk.denied

theorem reaches_succ {k : Nat} {b : UInt8} (h : Reaches c k) (hb : c.input k = .byte b) (hd : (b.toNat : Int) ≠ c.delim) :
    Reaches c (k + 1) := by
  intro i hi
  rcases Nat.lt_succ_iff_lt_or_eq.mp hi with hlt | rfl
  · exact h i hlt
  · exact ⟨b,hb,hd⟩

theorem needs_before {j k : Nat} {b : UInt8} (h : Needs c n j) (hk : k < cap n j - 1) (hb : c.input k = .byte b) :
    (b.toNat : Int) ≠ c.delim := by
  obtain ⟨b',hb',hd⟩ := h.1 k hk
  rw [hb] at hb'
  cases hb'
  exact hd

theorem needs_byte {j k : Nat} (h : Needs c n j) (hk : k ≤ cap n j - 1) : ∃ b, c.input k = .byte b := by
  rcases Nat.lt_or_eq_of_le hk with hlt | rfl
  · exact (h.1 k hlt).imp (fun _ hb => hb.1)
  · exact h.2

theorem cap_mono {i j : Nat} (h : i ≤ j) : cap n i ≤ cap n j :=
  Nat.add_le_add_left (Nat.mul_le_mul_left incr h) n

theorem cap_bound {j : Nat} (h : ∀ i < j, Grants c n i) : cap n j ≤ n + c.ssizeMax + incr := by
  cases j with
  | zero => simp only [cap]; omega
  | succ j =>
    have hlast := (h j (Nat.lt_succ_self j)).2
    simp only [cap,incr] at hlast ⊢
    omega

structure Held (h₀ : Heap UInt8) (old : Option Nat) (h : Heap UInt8) (new : Option Nat) (n : Nat) : Prop where
  swapped : Swapped h₀ old h new
  block : ∀ p, new = some p → ∃ l, h.blocks p = some l ∧ n ≤ l.length

theorem Held.kept {m : Nat} (h' : Held h₀ lineptr h line n) (hm : line ≠ none → m ≤ n) : Kept h₀ lineptr h line m := by
  refine ⟨fun p hp => ?_,fun q => ?_,fun q ho hq => h'.swapped.others q ho.symm hq.symm⟩
  · obtain ⟨l,hl,hlen⟩ := h'.block p hp
    exact ⟨l,hl,(hm (by simp [hp])).trans hlen⟩
  · by_cases hq : line = some q
    · obtain ⟨l,hl,-⟩ := h'.block q hq
      exact ⟨fun _ => .inl hq,fun _ => ⟨l,hl⟩⟩
    · by_cases ho : lineptr = some q
      · rw [h'.swapped.gone q ho.symm (Ne.symm hq)]
        simp [hq,ho]
      · rw [h'.swapped.others q (Ne.symm ho) (Ne.symm hq)]
        simp [hq,ho]

theorem Held.kept_iff {m : Nat} (h' : Held h₀ lineptr h line n) (hm : lineptr ≠ none → m ≤ n) (hnone : line = none → lineptr = none) :
    Kept h₀ lineptr h lineptr m ↔ line = lineptr := by
  refine ⟨fun hk => ?_,fun heq => (heq ▸ h').kept hm⟩
  by_contra hne
  cases hl : line with
  | none => exact hne (hl.trans (hnone hl).symm)
  | some p =>
    obtain ⟨l,hb,-⟩ := h'.block p hl
    have hold : lineptr ≠ some p := fun ho => hne (hl.trans ho.symm)
    rcases (hk.ledger p).mp ⟨l,hb⟩ with ho | ⟨-,l₀,hl₀⟩
    · exact hold ho
    · rw [h'.swapped.taken p hl.symm hold.symm] at hl₀
      cases hl₀

structure Stored (c : Call) (h₀ : Heap UInt8) (lineptr : Option Nat) (s : State) : Prop where
  swapped : Swapped h₀ lineptr s.heap s.line
  block : ∀ p, s.line = some p → ∃ l, s.heap.blocks p = some l ∧ s.n ≤ l.length ∧
    ∀ i < s.count, ∃ b, l[i]? = some b ∧ c.input i = .byte b

structure Going (c : Call) (h₀ : Heap UInt8) (lineptr : Option Nat) (n : Nat) (s : State) : Prop where
  stored : Stored c h₀ lineptr s
  reach : Reaches c s.count
  size : s.n = cap n s.calls
  grants : ∀ i < s.calls, Grants c n i
  needed : ∀ i < s.calls, Needs c n i
  place : s.line = lineptr ↔ InPlace c lineptr s.calls
  room : s.count < s.n ∨ s.count = 0 ∧ s.calls = 0
  none : s.line = .none → lineptr = .none ∧ s.n = 0

theorem Stored.held (hs : Stored c h₀ lineptr s) : Held h₀ lineptr s.heap s.line s.n :=
  ⟨hs.swapped,fun p hp => (hs.block p hp).imp (fun _ hl => ⟨hl.1,hl.2.1⟩)⟩

theorem Stored.wrote (hs : Stored c h₀ lineptr s) {p : Nat} (hp : s.line = some p) (hlt : s.count < s.n) {b : UInt8}
    (hb : c.input s.count = .byte b) : ∃ h', s.heap.write s.line s.count b = some h' ∧
      Stored c h₀ lineptr ⟨h',s.line,s.n,s.count + 1,s.calls⟩ := by
  obtain ⟨l,hl,hlen,hread⟩ := hs.block p hp
  have hsw := hs.swapped
  rw [hp] at hsw ⊢
  refine ⟨_,write_holds hl (by omega) b,hsw.set _,fun q hq => ?_⟩
  obtain rfl := Option.some.inj hq
  refine ⟨_,setBlock_same _ _ _,by rwa [List.length_set],fun i hi => ?_⟩
  rcases Nat.lt_succ_iff_lt_or_eq.mp hi with hlt' | rfl
  · rw [List.getElem?_set_ne (by omega)]
    exact hread i hlt'
  · exact ⟨b,List.getElem?_set_self (by omega),hb⟩

theorem Stored.finished (hs : Stored c h₀ lineptr s) {p : Nat} (hp : s.line = some p) (hlt : s.count < s.n) :
    ∃ r, finish s = some r ∧ Kept h₀ lineptr r.heap r.lineptr r.nptr ∧ r.ret = s.count ∧
      ∃ (bytes l : List UInt8), bytes.length = s.count ∧ (∀ i (hi : i < bytes.length), c.input i = .byte bytes[i]) ∧
        r.lineptr = some p ∧ r.heap.blocks p = some l ∧ l.take (bytes.length + 1) = bytes ++ [0] := by
  obtain ⟨l,hl,hlen,hread⟩ := hs.block p hp
  have hsw := hs.swapped
  have hwrite := write_holds hl (show s.count < l.length by omega) 0
  rw [hp] at hsw
  have hheld : Held h₀ lineptr (s.heap.setBlock p (some (l.set s.count 0))) (some p) s.n := by
    refine ⟨hsw.set _,fun q hq => ?_⟩
    obtain rfl := Option.some.inj hq
    exact ⟨_,setBlock_same _ _ _,by rwa [List.length_set]⟩
  have htake : (l.take s.count).length = s.count := by
    rw [List.length_take]
    omega
  refine ⟨⟨s.heap.setBlock p (some (l.set s.count 0)),some p,s.n,s.count⟩,by rw [finish,hp,hwrite]; rfl,
    hheld.kept (fun _ => le_rfl),rfl,l.take s.count,_,htake,fun i hi => ?_,rfl,setBlock_same _ _ _,?_⟩
  · rw [htake] at hi
    obtain ⟨b,hget,hb⟩ := hread i hi
    rw [hb,List.getElem_take,Option.some.inj (hget.symm.trans (List.getElem?_eq_getElem (by omega)))]
  · rw [htake,List.take_succ_eq_append_getElem (by rw [List.length_set]; omega),List.getElem_set_self,
      List.take_set_of_le le_rfl]

theorem inPlace_succ (c : Call) (lineptr : Option Nat) (j : Nat) :
    InPlace c lineptr (j + 1) ↔ InPlace c lineptr j ∧ lineptr ≠ none ∧ c.grant j = .stay := by
  constructor
  · exact fun h => ⟨fun i hi => h i (hi.trans (Nat.lt_succ_self j)),h j (Nat.lt_succ_self j)⟩
  · rintro ⟨h,hlast⟩ i hi
    rcases Nat.lt_succ_iff_lt_or_eq.mp hi with hlt | rfl
    · exact h i hlt
    · exact hlast

theorem Going.content (hg : Going c h₀ lineptr n s) {i : Nat} (hi : i < s.count) :
    i < (s.heap.content s.line).length ∧ ∃ b, (s.heap.content s.line)[i]? = some b ∧ c.input i = .byte b := by
  have hroom := hg.room
  cases hl : s.line with
  | none =>
    have hzero := (hg.none hl).2
    omega
  | some p =>
    obtain ⟨l,hb,hlen,hread⟩ := hg.stored.block p hl
    have hcontent : s.heap.content (some p) = l := by simp [Heap.content,hb]
    rw [hcontent]
    exact ⟨by omega,hread i hi⟩

theorem Going.grown (hg : Going c h₀ lineptr n s) (hold : h₀.Valid lineptr) (hfail : c.grant s.calls ≠ .fail)
    (hlimit : s.n ≤ c.ssizeMax - incr) (hneeds : Needs c n s.calls) :
    ∃ p h', s.heap.realloc (s.n + incr) (c.junk s.calls) s.line (c.grant s.calls) = some (some p,h') ∧
      Going c h₀ lineptr n ⟨h',some p,s.n + incr,s.count,s.calls + 1⟩ := by
  have hvalid : s.heap.Valid s.line := fun p hp => (hg.stored.block p hp).imp (fun _ hl => hl.1)
  obtain ⟨p,h',hre,hblock,hsw,hsame⟩ := realloc_grant hg.stored.swapped (fun hl => (hg.none hl).1) hold hvalid hfail
    (s.n + incr) (c.junk s.calls)
  have hroom := hg.room
  have hsize : s.n + incr = cap n (s.calls + 1) := by
    rw [hg.size,cap,cap,Nat.mul_succ,Nat.add_assoc]
  refine ⟨p,h',hre,⟨hsw,fun q hq => ?_⟩,hg.reach,hsize,fun i hi => ?_,fun i hi => ?_,?_,
    .inl (by dsimp only [incr]; omega),nofun⟩
  · obtain rfl := Option.some.inj hq
    refine ⟨_,hblock,(resized_length _ _ _).ge,fun i hi => ?_⟩
    obtain ⟨hin,hread⟩ := hg.content hi
    rwa [resized_getElem? hin (by dsimp only at hi; omega)]
  · rcases Nat.lt_succ_iff_lt_or_eq.mp hi with hlt | rfl
    · exact hg.grants i hlt
    · exact ⟨hfail,hg.size ▸ hlimit⟩
  · rcases Nat.lt_succ_iff_lt_or_eq.mp hi with hlt | rfl
    · exact hg.needed i hlt
    · exact hneeds
  · rw [hsame,inPlace_succ,← hg.place]
    refine and_congr_right (fun heq => ?_)
    rw [heq]

theorem makeRoom_cases (hg : Going c h₀ lineptr n s) (hold : h₀.Valid lineptr) {b : UInt8}
    (hb : c.input s.count = .byte b) :
    (∃ s' p, makeRoom c s (s.count + 1) = some (.ok s') ∧ Going c h₀ lineptr n s' ∧ s'.count = s.count ∧
      s.count + 1 < s'.n ∧ s'.line = some p) ∨
    (makeRoom c s (s.count + 1) = some (.bail s.heap) ∧ Refused c n s.calls) := by
  have hroom := hg.room
  have hsize := hg.size
  unfold makeRoom
  by_cases hfull : s.n ≤ s.count + 1
  · have hindex : cap n s.calls - 1 = s.count := by omega
    have hneeds : Needs c n s.calls := by
      rw [Needs,hindex]
      exact ⟨hg.reach,b,hb⟩
    rw [if_pos hfull]
    by_cases hover : c.ssizeMax - incr < s.n
    · rw [if_pos hover]
      exact .inr ⟨rfl,hneeds,fun hgr => absurd hgr.2 (by omega),hg.grants⟩
    rw [if_neg hover]
    by_cases hfail : c.grant s.calls = .fail
    · rw [hfail]
      exact .inr ⟨rfl,hneeds,fun hgr => hgr.1 hfail,hg.grants⟩
    · obtain ⟨p,h',hre,hnew⟩ := hg.grown hold hfail (not_lt.mp hover) hneeds
      rw [hre]
      exact .inl ⟨_,p,rfl,hnew,rfl,by dsimp only [incr]; omega,rfl⟩
  · rw [if_neg hfull]
    cases hl : s.line with
    | none =>
      have hzero := (hg.none hl).2
      omega
    | some p => exact .inl ⟨s,p,rfl,hg,rfl,not_le.mp hfull,hl⟩

inductive Ended (c : Call) (h₀ : Heap UInt8) (lineptr : Option Nat) (n : Nat) (r : Result) : Prop where
  | silent (hno : Silent c) (hk : Kept h₀ lineptr r.heap r.lineptr r.nptr) (hret : r.ret = -1)
  | refused (j : Nat) (hj : Refused c n j) (hk : Kept h₀ lineptr r.heap r.lineptr r.nptr ↔ InPlace c lineptr j)
    (hret : r.ret = -1)
  | served (hk : Kept h₀ lineptr r.heap r.lineptr r.nptr) (hgranted : ∀ j, ¬Refused c n j) (bytes : List UInt8)
    (p : Nat) (l : List UInt8) (hd : Delivered c bytes) (hsome : 0 < bytes.length) (hret : r.ret = bytes.length)
    (hp : r.lineptr = some p) (hl : r.heap.blocks p = some l) (hnul : l.take (bytes.length + 1) = bytes ++ [0])

theorem Going.bailed (hg : Going c h₀ lineptr n s) (hn : n = startSize lineptr nptr) :
    Kept h₀ lineptr s.heap lineptr nptr ↔ InPlace c lineptr s.calls := by
  refine (hg.stored.held.kept_iff (fun hl => ?_) (fun hl => (hg.none hl).1)).trans hg.place
  have hsize := hg.size
  rw [hn,startSize,if_pos (Option.isSome_iff_ne_none.mpr hl),cap] at hsize
  omega

theorem Going.not_refused (hg : Going c h₀ lineptr n s) {k : Nat} (hk : k < s.n)
    (hstop : ∀ b, c.input k = .byte b → k + 1 < s.n ∧ (b.toNat : Int) = c.delim) (j : Nat) : ¬Refused c n j := by
  intro hj
  rcases Nat.lt_or_ge j s.calls with hlt | hge
  · exact hj.denied (hg.grants j hlt)
  · have hcap := @cap_mono n _ _ hge
    rw [← hg.size] at hcap
    obtain ⟨b,hb⟩ := needs_byte hj.needs (show k ≤ cap n j - 1 by omega)
    obtain ⟨hin,hd⟩ := hstop b hb
    exact needs_before hj.needs (by omega) hb hd

theorem atEof_ended (hg : Going c h₀ lineptr n s) (hn : n = startSize lineptr nptr)
    (hno : ∀ b, c.input s.count ≠ .byte b) :
    ∃ r, atEof c lineptr nptr s = some r ∧ Ended c h₀ lineptr n r := by
  unfold atEof
  by_cases hzero : s.count = 0
  · rw [if_pos hzero]
    rw [hzero] at hno
    have hcalls : s.calls = 0 := by
      by_contra hpos
      obtain ⟨b,hb⟩ := needs_byte (hg.needed 0 (Nat.pos_of_ne_zero hpos)) (Nat.zero_le _)
      exact hno b hb
    have hplace : InPlace c lineptr s.calls := by
      rw [hcalls]
      exact fun i hi => absurd hi (Nat.not_lt_zero i)
    exact ⟨_,rfl,.silent hno ((hg.bailed hn).mpr hplace) rfl⟩
  · have hlt : s.count < s.n := hg.room.resolve_right (fun h => hzero h.1)
    have hroom : makeRoom c s s.count = some (.ok s) := if_neg (not_le.mpr hlt)
    rw [if_neg hzero,hroom]
    cases hl : s.line with
    | none =>
      have hempty := (hg.none hl).2
      omega
    | some p =>
      obtain ⟨r,hfin,hk,hret,bytes,l,hlen,hread,hp,hb,hnul⟩ := hg.stored.finished hl hlt
      have hd : Delivered c bytes := ⟨hread,.inl (by rw [hlen]; exact ⟨hg.reach,hno⟩)⟩
      exact ⟨r,hfin,.served hk (hg.not_refused hlt (fun b hb => absurd hb (hno b))) bytes p l hd (by omega)
        (by rw [hret,hlen]) hp hb hnul⟩

theorem loop_ended (hold : h₀.Valid lineptr) (hn : n = startSize lineptr nptr) {fuel : Nat} (hg : Going c h₀ lineptr n s)
    (hfuel : n + c.ssizeMax + incr + 1 ≤ fuel + s.count) :
    ∃ r, loop c lineptr nptr fuel s = some r ∧ Ended c h₀ lineptr n r := by
  induction fuel generalizing s with
  | zero =>
    have hroom := hg.room
    have hbound := cap_bound hg.grants
    rw [← hg.size] at hbound
    omega
  | succ fuel ih =>
    rw [loop]
    cases hi : c.input s.count with
    | eof => exact atEof_ended hg hn (fun b => by rw [hi]; nofun)
    | err => exact atEof_ended hg hn (fun b => by rw [hi]; nofun)
    | byte b =>
      dsimp only
      rcases makeRoom_cases hg hold hi with ⟨s',p,hroom,hg',hcount,hlt,hp⟩ | ⟨hroom,href⟩
      · rw [← hcount] at hi
        obtain ⟨h',hwrite,hst⟩ := hg'.stored.wrote hp (by omega) hi
        rw [hroom]
        dsimp only
        rw [hwrite]
        dsimp only
        by_cases hd : (b.toNat : Int) = c.delim
        · rw [if_pos hd]
          obtain ⟨r,hfin,hk,hret,bytes,l,hlen,hread,hl,hb,hnul⟩ := hst.finished hp (by dsimp only; omega)
          have hread' : Delivered c bytes := ⟨hread,.inr ⟨s'.count,b,hlen,hg'.reach,hi,hd⟩⟩
          have hstop : ∀ b', c.input s'.count = .byte b' → s'.count + 1 < s'.n ∧ (b'.toNat : Int) = c.delim := by
            intro b' hb'
            rw [hi] at hb'
            cases hb'
            exact ⟨by omega,hd⟩
          exact ⟨r,hfin,.served hk (hg'.not_refused (by omega) hstop) bytes p l hread' (by rw [hlen]; exact Nat.succ_pos _)
            (by rw [hret,hlen]) hl hb hnul⟩
        · rw [if_neg hd]
          refine ih ⟨hst,reaches_succ hg'.reach hi hd,hg'.size,hg'.grants,hg'.needed,hg'.place,.inl ?_,hg'.none⟩ ?_
          · dsimp only
            omega
          · dsimp only
            omega
      · rw [hroom]
        exact ⟨_,rfl,.refused s.calls href (hg.bailed hn) rfl⟩

theorem start_going (c : Call) (hown : Owned h₀ lineptr nptr) :
    Going c h₀ lineptr (startSize lineptr nptr) ⟨h₀,lineptr,startSize lineptr nptr,0,0⟩ := by
  refine ⟨⟨Swapped.refl h₀ lineptr,fun p hp => ?_⟩,nofun,rfl,nofun,nofun,⟨fun _ => nofun,fun _ => rfl⟩,
    .inr ⟨rfl,rfl⟩,fun hl => ⟨hl,?_⟩⟩
  · obtain ⟨l,hl,hlen⟩ := hown p hp
    dsimp only at hp
    refine ⟨l,hl,?_,nofun⟩
    rwa [startSize,hp]
  · dsimp only at hl
    rw [startSize,hl]
    rfl

theorem silent_first (hno : Silent c) {k : Nat} (hk : 0 < k) : ¬Reaches c k := by
  intro hr
  obtain ⟨b,hb,-⟩ := hr 0 hk
  exact hno b hb

theorem silent_never (hno : Silent c) (j : Nat) : ¬Refused c n j := by
  intro hj
  obtain ⟨b,hb⟩ := needs_byte hj.needs (Nat.zero_le _)
  exact hno b hb

theorem ended_iff {r : Result} (h : Ended c h₀ lineptr (startSize lineptr nptr) r) :
    Served c h₀ lineptr nptr r ↔ Safe c lineptr nptr := by
  cases h with
  | silent hno hk hret =>
    refine ⟨fun _ => ⟨fun j hj => absurd hj (silent_never hno j),fun k hk hr => absurd hr (silent_first hno hk)⟩,
      fun _ => ⟨hk,⟨fun _ => .inl hno,fun _ => hret⟩,fun hne => absurd hret hne⟩⟩
  | refused j hj hk hret =>
    refine ⟨fun hs => ⟨fun i hi => ?_,fun _ _ _ _ => ⟨j,hj⟩⟩,fun hs => ?_⟩
    · rw [hi.unique hj]
      exact hk.mp hs.kept
    · exact ⟨hk.mpr (hs.place j hj),⟨fun _ => .inr (.inr ⟨j,hj⟩),fun _ => hret⟩,fun hne => absurd hret hne⟩
  | served hk hgranted bytes p l hd hsome hret hp hl hnul =>
    have hne : r.ret ≠ -1 := by omega
    have hfirst : ¬Silent c := fun hno => hno _ (hd.read 0 hsome)
    constructor
    · refine fun hs => ⟨fun j hj => absurd hj (hgranted j),fun k hpos hr herr => ?_⟩
      exact absurd (hs.failure.mpr (.inr (.inl ⟨k,hr,herr⟩))) hne
    · intro hs
      refine ⟨hk,⟨fun heq => absurd heq hne,?_⟩,fun _ => ⟨bytes,p,l,hd,hret,hp,hl,hnul⟩⟩
      rintro (hno | ⟨k,hr,herr⟩ | ⟨j,hj⟩)
      · exact absurd hno hfirst
      · have hpos : 0 < k := by
          refine Nat.pos_of_ne_zero (fun hz => ?_)
          rw [hz,hd.read 0 hsome] at herr
          cases herr
        obtain ⟨j,hj⟩ := hs.input k hpos hr herr
        exact absurd hj (hgranted j)
      · exact absurd hj (hgranted j)

theorem getdelim_ended (c : Call) (hown : Owned h₀ lineptr nptr) :
    ∃ r, getdelim c h₀ lineptr nptr = some r ∧ Ended c h₀ lineptr (startSize lineptr nptr) r :=
  loop_ended (fun p hp => (hown p hp).imp (fun _ hl => hl.1)) rfl (start_going c hown) le_rfl

theorem getdelim_iff (c : Call) (hown : Owned h₀ lineptr nptr) :
    (∃ r, getdelim c h₀ lineptr nptr = some r ∧ Served c h₀ lineptr nptr r) ↔ Safe c lineptr nptr := by
  obtain ⟨r,hrun,hend⟩ := getdelim_ended c hown
  have hiff := ended_iff hend
  constructor
  · rintro ⟨r',hrun',hs⟩
    rw [hrun] at hrun'
    rw [← Option.some.inj hrun'] at hs
    exact hiff.mp hs
  · exact fun hs => ⟨r,hrun,hiff.mpr hs⟩

end

def twoBytes : Heap UInt8 := Heap.empty.setBlock 0 (some [0,0])

theorem two_owned : Owned twoBytes (some 0) 2 := by
  intro p hp
  obtain rfl := Option.some.inj hp
  exact ⟨[0,0],setBlock_same _ _ _,le_rfl⟩

def shortLine : Call where
  ssizeMax := 2 ^ 63 - 1
  delim := 10
  input k := if k = 0 then .byte 0x61 else if k = 1 then .byte 10 else .eof
  grant _ := .move
  junk _ _ := 0

theorem getdelim_short : ∃ r, getdelim shortLine twoBytes (some 0) 2 = some r ∧ Served shortLine twoBytes (some 0) 2 r := by
  refine (getdelim_iff shortLine two_owned).mpr ⟨fun j hj => ?_,fun k _ _ herr => ?_⟩
  · cases j with
    | zero => exact fun i hi => absurd hi (Nat.not_lt_zero i)
    | succ j =>
      have hfar : 1 < cap 2 (j + 1) - 1 := by
        simp only [cap,incr]
        omega
      exact absurd rfl (needs_before hj.needs hfar rfl)
  · have hnever : shortLine.input k ≠ .err := by
      simp only [shortLine]
      split_ifs <;> exact nofun
    exact absurd herr hnever

def longLine : Call where
  ssizeMax := 2 ^ 63 - 1
  delim := 10
  input _ := .byte 0x61
  grant j := if j = 0 then .move else .fail
  junk _ _ := 0

theorem refused_after_move :
    ¬∃ r, getdelim longLine twoBytes (some 0) 2 = some r ∧ Served longLine twoBytes (some 0) 2 r := by
  rintro ⟨r,hrun,hs⟩
  obtain ⟨r',hrun',hend⟩ := getdelim_ended longLine two_owned
  rw [hrun] at hrun'
  obtain rfl := Option.some.inj hrun'
  have hearlier : ∀ i < 1, Grants longLine 2 i := by
    intro i hi
    obtain rfl : i = 0 := by omega
    exact ⟨by decide,by decide⟩
  have hrefused : Refused longLine 2 1 :=
    ⟨⟨fun _ _ => ⟨0x61,rfl,by decide⟩,0x61,rfl⟩,fun hg => hg.1 rfl,hearlier⟩
  exact absurd (((ended_iff hend).mp hs).place 1 hrefused 0 Nat.one_pos).2 (by decide)

end Getdelim
