import Mathlib
import Picolibc.Lib.Checked
import Picolibc.Stdio.Strtoi

namespace Grp

open Checked (int32 int32_le)

structure Buffer where
  ptrBytes : Nat
  base : Nat
  size : Nat
  pointers : ptrBytes = 4 ∨ ptrBytes = 8
  bounded : size < 2 ^ (8 * ptrBytes)

inductive GrId where
  | name
  | passwd
  | gid
  | mem
  | count
deriving DecidableEq,Repr

inductive Ret where
  | ok
  | enoent
  | erange
  | einval
deriving DecidableEq,Repr

inductive Slot where
  | kept
  | null
  | grbuf
deriving DecidableEq,Repr

structure Group where
  grName : Option (List UInt8)
  grGid : UInt32
  grMem : Option Nat

structure State where
  group : Group
  memp : Nat
  nGrMem : Nat
  stores : List (Nat × Option (List UInt8))

structure Out where
  ret : Ret
  grbufp : Slot
  group : Group
  stores : List (Nat × Option (List UInt8))

inductive Exit where
  | early (s : State)
  | done (id : GrId) (s : State)

def readLine : Nat → List UInt8 → List UInt8
  | 0, _ => []
  | _, [] => []
  | n + 1, c :: input => if c = 10 then [c] else c :: readLine n input

def fgets (size : Int) (input : List UInt8) : Option (List UInt8) :=
  if size ≤ 0 ∨ 1 < size ∧ input = [] then none else some (readLine (size.toNat - 1) input)

def strsep (delim : UInt8) : Option (List UInt8) → Option (List UInt8 × Option (List UInt8))
  | none => none
  | some [] => none
  | some text =>
    match text.dropWhile (· ≠ delim) with
    | [] => some (text,none)
    | _ :: rest => some (text.takeWhile (· ≠ delim),some rest)

def alignUp (a n : Nat) : Nat := (a + (n - 1)) / n * n

def vectorStart (b : Buffer) (text : List UInt8) : Nat := alignUp (b.base + text.length + 1) b.ptrBytes - b.base

def room (b : Buffer) (off : Nat) : Nat := ((b.size - off : Int) % 2 ^ (8 * b.ptrBytes)).toNat / b.ptrBytes

def memLoop (b : Buffer) : Nat → Option (List UInt8) → State → Option (Option (List UInt8) × State)
  | 0, _, _ => none
  | fuel + 1, token, s =>
    match strsep 44 token with
    | none => some (none,s)
    | some (mem,token) =>
      if 1 < s.nGrMem then
        memLoop b fuel token { s with
          memp := s.memp + b.ptrBytes
          nGrMem := s.nGrMem - 1
          stores := s.stores ++ [(s.memp,some mem)] }
      else some (some mem,s)

def State.terminate (s : State) : State := { s with stores := s.stores ++ [(s.memp,none)] }

def State.setMem (s : State) : State := { s with group := { s.group with grMem := some s.memp } }

def State.setName (s : State) (token : List UInt8) : State := { s with group := { s.group with grName := some token } }

def State.setGid (s : State) (gid : Int) : State := { s with group := { s.group with grGid := UInt32.ofInt gid } }

def field (b : Buffer) (longBits : Nat) (builtins : Bool) (token : List UInt8) (s : State) : GrId → Option Exit
  | .name => some (.done .passwd (s.setName token))
  | .passwd => some (.done .gid s)
  | .gid => some (.done .mem (s.setGid (Strtoi.strtoi ⟨longBits,true,builtins⟩ token 10).value))
  | .mem =>
    (memLoop b (token.length + 1) (some token) s.setMem).map fun r =>
      if r.1 = none then .done .count r.2.terminate else .early r.2
  | .count => some (.done .count s)

def lineLoop (b : Buffer) (longBits : Nat) (builtins : Bool) : Nat → Option (List UInt8) → GrId → State → Option Exit
  | 0, _, _, _ => none
  | fuel + 1, line, id, s =>
    match strsep 58 line with
    | none => some (.done id s)
    | some (token,line) =>
      match field b longBits builtins token s id with
      | none => none
      | some (.early s) => some (.early s)
      | some (.done id s) => lineLoop b longBits builtins fuel line id s

def finish : Exit → Out
  | .early s => ⟨.erange,.kept,s.group,s.stores⟩
  | .done .mem s => ⟨.ok,.grbuf,s.setMem.group,s.terminate.stores⟩
  | .done .count s => ⟨.ok,.grbuf,s.group,s.stores⟩
  | .done _ s => ⟨.einval,.kept,s.group,s.stores⟩

def seen (line : List UInt8) : List UInt8 := line.takeWhile fun c => c ≠ 0 ∧ c ≠ 10

def fgetgrentR (b : Buffer) (longBits : Nat) (builtins : Bool) (group : Group) (input : List UInt8) : Option Out :=
  match fgets (int32 b.size) input with
  | none => some ⟨.enoent,.null,group,[]⟩
  | some line =>
    let off := vectorStart b (seen line)
    let nGrMem := room b off
    if nGrMem = 0 then some ⟨.erange,.kept,group,[]⟩
    else
      (lineLoop b longBits builtins ((seen line).length + 1) (some (seen line)) .name ⟨group,off,nGrMem,[]⟩).map finish

def fieldsFrom (delim : UInt8) : List UInt8 → List UInt8 → List (List UInt8)
  | cur, [] => if cur = [] then [] else [cur]
  | cur, c :: l => if c = delim then cur :: fieldsFrom delim [] l else fieldsFrom delim (cur ++ [c]) l

def fields (delim : UInt8) (text : List UInt8) : List (List UInt8) := fieldsFrom delim [] text

def members (text : List UInt8) : List (List UInt8) := fields 44 ((fields 58 text)[3]?.getD [])

def slots (ptrBytes : Nat) : Nat → List (List UInt8) → List (Nat × Option (List UInt8))
  | _, [] => []
  | p, m :: ms => (p,some m) :: slots ptrBytes (p + ptrBytes) ms

def vectorAt (ptrBytes p : Nat) (ms : List (List UInt8)) : List (Nat × Option (List UInt8)) :=
  slots ptrBytes p ms ++ [(p + ptrBytes * ms.length,none)]

def Fits (b : Buffer) (text : List UInt8) : Prop :=
  vectorStart b text + b.ptrBytes * ((members text).length + 1) ≤ b.size

structure Meets (b : Buffer) (input : List UInt8) (o : Out) : Prop where
  inside : ∀ s ∈ o.stores, s.1 + b.ptrBytes ≤ b.size
  apart : ∀ s ∈ o.stores, (readLine ((int32 b.size).toNat - 1) input).length ≤ s.1
  codes : o.ret = .ok ∨ o.ret = .erange ∨ o.ret = .einval
  slot : o.ret = .ok → o.grbufp = .grbuf
  fits : o.ret = .ok → Fits b (input.takeWhile (· ≠ 10))
  name : o.ret = .ok → o.group.grName = (fields 58 (input.takeWhile (· ≠ 10))).head?
  listed : o.ret = .ok → ∃ p, o.group.grMem = some p ∧
    o.stores = vectorAt b.ptrBytes p (members (input.takeWhile (· ≠ 10)))

structure Agrees (b : Buffer) (text whole : List UInt8) : Prop where
  fits : Fits b whole
  members : members whole = members text

def Roomy (b : Buffer) (line whole : List UInt8) : Prop :=
  let text := seen line
  let off := vectorStart b text
  off ≤ b.size ∧ (off + b.ptrBytes ≤ b.size →
    (members text = [] ∨ off + 2 * b.ptrBytes ≤ b.size → line.length ≤ off) ∧ (Fits b text → Agrees b text whole))

section

variable {b : Buffer} {longBits : Nat} {builtins : Bool} {delim : UInt8} {src : Option (List UInt8)}
  {text line f : List UInt8} {fs ms : List (List UInt8)} {s : State} {fuel : Nat}

def fieldsOf (delim : UInt8) : Option (List UInt8) → List (List UInt8)
  | none => []
  | some text => fields delim text

theorem fieldsFrom_last (cur : List UInt8) (h : text.dropWhile (· ≠ delim) = []) :
    fieldsFrom delim cur text = if cur ++ text = [] then [] else [cur ++ text] := by
  induction text generalizing cur with
  | nil => rw [fieldsFrom,List.append_nil]
  | cons c text ih =>
    by_cases hc : c = delim
    · rw [List.dropWhile_cons_of_neg (by simpa using hc)] at h
      exact absurd h (by simp)
    · rw [List.dropWhile_cons_of_pos (by simpa using hc)] at h
      rw [fieldsFrom,if_neg hc,ih _ h,List.append_assoc,List.singleton_append]

theorem fieldsFrom_next (cur : List UInt8) {c : UInt8} {rest : List UInt8} (h : text.dropWhile (· ≠ delim) = c :: rest) :
    fieldsFrom delim cur text = (cur ++ text.takeWhile (· ≠ delim)) :: fields delim rest := by
  induction text generalizing cur with
  | nil => exact absurd h (by simp)
  | cons d text ih =>
    by_cases hd : d = delim
    · rw [List.dropWhile_cons_of_neg (by simpa using hd),List.cons.injEq] at h
      rw [fieldsFrom,if_pos hd,List.takeWhile_cons_of_neg (by simpa using hd),List.append_nil,h.2]
      rfl
    · rw [List.dropWhile_cons_of_pos (by simpa using hd)] at h
      rw [fieldsFrom,if_neg hd,ih _ h,List.takeWhile_cons_of_pos (by simpa using hd),List.append_assoc,
        List.singleton_append]

theorem fieldsFrom_head {l : List UInt8} (h : delim ∈ l) (cur t : List UInt8) :
    (fieldsFrom delim cur (l ++ t)).head? = (fieldsFrom delim cur l).head? := by
  induction l generalizing cur with
  | nil => exact absurd h List.not_mem_nil
  | cons c l ih =>
    rw [List.cons_append,fieldsFrom,fieldsFrom]
    by_cases hc : c = delim
    · rw [if_pos hc,if_pos hc]
      rfl
    · rw [if_neg hc,if_neg hc]
      exact ih ((List.mem_cons.mp h).resolve_left (Ne.symm hc)) (cur ++ [c])

theorem fields_head {whole : List UInt8} (hp : text <+: whole) (hlong : 2 ≤ (fields delim text).length) :
    (fields delim whole).head? = (fields delim text).head? := by
  have hmem : delim ∈ text := by
    by_contra hnot
    have hnone : text.dropWhile (· ≠ delim) = [] :=
      List.dropWhile_eq_nil_iff.mpr fun x hx => decide_eq_true fun hd => hnot (hd ▸ hx)
    rw [fields,fieldsFrom_last [] hnone] at hlong
    split at hlong <;> simp at hlong
  obtain ⟨t,rfl⟩ := hp
  exact fieldsFrom_head hmem [] t

theorem strsep_end (h : fieldsOf delim src = []) : strsep delim src = none := by
  cases src with
  | none => rfl
  | some text =>
    cases text with
    | nil => rfl
    | cons c text =>
      rw [fieldsOf,fields] at h
      cases hd : (c :: text).dropWhile (· ≠ delim) with
      | nil =>
        rw [fieldsFrom_last [] hd,if_neg (by simp)] at h
        exact absurd h (by simp)
      | cons d rest =>
        rw [fieldsFrom_next [] hd] at h
        exact absurd h (by simp)

def textLength : Option (List UInt8) → Nat
  | none => 0
  | some text => text.length

theorem strsep_field (h : fieldsOf delim src = f :: fs) :
    ∃ rest, strsep delim src = some (f,rest) ∧ fieldsOf delim rest = fs ∧ textLength rest < textLength src := by
  cases src with
  | none => exact absurd h (by simp [fieldsOf])
  | some text =>
    cases text with
    | nil => exact absurd h (by simp [fieldsOf,fields,fieldsFrom])
    | cons c text =>
      rw [fieldsOf,fields] at h
      cases hd : (c :: text).dropWhile (· ≠ delim) with
      | nil =>
        rw [fieldsFrom_last [] hd,if_neg (by simp),List.nil_append,List.cons.injEq] at h
        refine ⟨none,?_,h.2,Nat.succ_pos _⟩
        simp only [strsep,hd]
        rw [h.1]
      | cons d rest =>
        rw [fieldsFrom_next [] hd,List.nil_append,List.cons.injEq] at h
        refine ⟨some rest,?_,h.2,?_⟩
        · simp only [strsep,hd]
          rw [h.1]
        · have hle : ((c :: text).dropWhile (· ≠ delim)).length ≤ (c :: text).length := List.length_dropWhile_le _ _
          rw [hd,List.length_cons] at hle
          exact hle

def State.listed (b : Buffer) (s : State) (ms : List (List UInt8)) : State :=
  { s with
    memp := s.memp + b.ptrBytes * ms.length
    nGrMem := s.nGrMem - ms.length
    stores := s.stores ++ slots b.ptrBytes s.memp ms }

theorem memLoop_runs (hms : fieldsOf 44 src = ms) (hroom : 1 ≤ s.nGrMem) (hfuel : textLength src < fuel) :
    memLoop b fuel src s = some ((ms.drop (s.nGrMem - 1)).head?,s.listed b (ms.take (s.nGrMem - 1))) := by
  induction fuel generalizing src ms s with
  | zero => exact absurd hfuel (Nat.not_lt_zero _)
  | succ fuel ih =>
    cases ms with
    | nil =>
      rw [memLoop,strsep_end hms]
      simp [State.listed,slots]
    | cons m ms =>
      obtain ⟨rest,hsep,hrest,hshort⟩ := strsep_field hms
      rw [memLoop,hsep]
      by_cases hone : 1 < s.nGrMem
      · simp only
        rw [if_pos hone,ih hrest (by dsimp only; omega) (by omega)]
        obtain ⟨n,hn⟩ : ∃ n, s.nGrMem = n + 2 := ⟨s.nGrMem - 2,by omega⟩
        simp only [hn,State.listed,Nat.add_sub_cancel,List.drop_succ_cons,List.take_succ_cons,slots,
          show n + 2 - 1 = n + 1 from rfl,List.length_cons,List.append_assoc,List.singleton_append]
        simp only [Option.some.injEq,Prod.mk.injEq,State.mk.injEq,true_and,and_true]
        constructor
        · ring
        · omega
      · have hlast : s.nGrMem - 1 = 0 := by omega
        simp only
        rw [if_neg hone,hlast]
        simp [State.listed,slots]

theorem field_mem (b : Buffer) (longBits : Nat) (builtins : Bool) (token : List UInt8) (hroom : 1 ≤ s.nGrMem) :
    field b longBits builtins token s .mem =
      some (if (fields 44 token).length < s.nGrMem then .done .count (s.setMem.listed b (fields 44 token)).terminate
        else .early (s.setMem.listed b ((fields 44 token).take (s.nGrMem - 1)))) := by
  have hrun : memLoop b (token.length + 1) (some token) s.setMem =
      some (((fields 44 token).drop (s.nGrMem - 1)).head?,s.setMem.listed b ((fields 44 token).take (s.nGrMem - 1))) :=
    memLoop_runs rfl hroom (Nat.lt_succ_self _)
  have hnone : ((fields 44 token).drop (s.nGrMem - 1)).head? = none ↔ (fields 44 token).length < s.nGrMem := by
    rw [List.head?_eq_none_iff,List.drop_eq_nil_iff]
    omega
  rw [field,hrun,Option.map_some]
  by_cases hfit : (fields 44 token).length < s.nGrMem
  · rw [if_pos (hnone.mpr hfit),if_pos hfit,List.take_of_length_le (by omega)]
  · rw [if_neg (mt hnone.mp hfit),if_neg hfit]

theorem lineLoop_end (h : fieldsOf 58 src = []) (id : GrId) :
    lineLoop b longBits builtins (fuel + 1) src id s = some (.done id s) := by
  rw [lineLoop,strsep_end h]

theorem lineLoop_field (fuel : Nat) (h : fieldsOf 58 src = f :: fs) {id id' : GrId} {s' : State}
    (hfield : field b longBits builtins f s id = some (.done id' s')) :
    ∃ rest, fieldsOf 58 rest = fs ∧ textLength rest < textLength src ∧
      lineLoop b longBits builtins (fuel + 1) src id s = lineLoop b longBits builtins fuel rest id' s' := by
  obtain ⟨rest,hsep,hrest,hshort⟩ := strsep_field h
  exact ⟨rest,hrest,hshort,by rw [lineLoop,hsep]; simp only [hfield]⟩

theorem lineLoop_early (h : fieldsOf 58 src = f :: fs) {id : GrId} {s' : State}
    (hfield : field b longBits builtins f s id = some (.early s')) :
    lineLoop b longBits builtins (fuel + 1) src id s = some (.early s') := by
  obtain ⟨rest,hsep,-,-⟩ := strsep_field h
  rw [lineLoop,hsep]
  simp only [hfield]

theorem lineLoop_count (hfuel : textLength src < fuel) :
    lineLoop b longBits builtins fuel src .count s = some (.done .count s) := by
  induction fuel generalizing src with
  | zero => exact absurd hfuel (Nat.not_lt_zero _)
  | succ fuel ih =>
    cases hfs : fieldsOf 58 src with
    | nil => exact lineLoop_end hfs .count
    | cons f fs =>
      have hstay : field b longBits builtins f s .count = some (.done .count s) := rfl
      obtain ⟨rest,-,hshort,hrun⟩ := lineLoop_field fuel hfs hstay
      rw [hrun]
      exact ih (by omega)

structure Listed (b : Buffer) (s : State) (ms : List (List UInt8)) (o : Out) : Prop where
  fit : ms.length < s.nGrMem → o.ret = .ok ∧ o.grbufp = .grbuf ∧ o.group.grName = s.group.grName ∧
    o.group.grMem = some s.memp ∧ o.stores = s.stores ++ vectorAt b.ptrBytes s.memp ms
  full : s.nGrMem ≤ ms.length → o.ret = .erange ∧ o.stores = s.stores ++ slots b.ptrBytes s.memp (ms.take (s.nGrMem - 1))

theorem lineLoop_mem (hroom : 1 ≤ s.nGrMem) (hfs : fieldsOf 58 src = fs) (hfuel : textLength src < fuel) :
    ∃ o, (lineLoop b longBits builtins fuel src .mem s).map finish = some o ∧
      Listed b s (fields 44 (fs.head?.getD [])) o := by
  obtain ⟨fuel,rfl⟩ : ∃ n, fuel = n + 1 := ⟨fuel - 1,by omega⟩
  cases fs with
  | nil =>
    have hnone : fields 44 (([] : List (List UInt8)).head?.getD []) = [] := rfl
    rw [lineLoop_end hfs,hnone]
    exact ⟨_,rfl,fun _ => ⟨rfl,rfl,rfl,rfl,rfl⟩,fun hfull => absurd hfull (by simp; omega)⟩
  | cons mem more =>
    have hmem : fields 44 ((mem :: more).head?.getD []) = fields 44 mem := rfl
    have hfield := field_mem b longBits builtins mem hroom
    rw [hmem]
    by_cases hfit : (fields 44 mem).length < s.nGrMem
    · rw [if_pos hfit] at hfield
      obtain ⟨rest,-,hlt,hrun⟩ := lineLoop_field fuel hfs hfield
      rw [hrun,lineLoop_count (by omega)]
      refine ⟨_,rfl,fun _ => ⟨rfl,rfl,rfl,rfl,?_⟩,fun hfull => by omega⟩
      exact List.append_assoc _ _ _
    · rw [if_neg hfit] at hfield
      rw [lineLoop_early hfs hfield]
      exact ⟨_,rfl,fun hlt => absurd hlt hfit,fun _ => ⟨rfl,rfl⟩⟩

theorem lineLoop_parses (b : Buffer) (longBits : Nat) (builtins : Bool) (text : List UInt8) (hroom : 1 ≤ s.nGrMem) :
    ∃ o, (lineLoop b longBits builtins (text.length + 1) (some text) .name s).map finish = some o ∧
      ((fields 58 text).length < 3 → o.ret = .einval ∧ o.stores = s.stores) ∧
      (3 ≤ (fields 58 text).length → ∃ s', s'.group.grName = (fields 58 text).head? ∧ s'.memp = s.memp ∧
        s'.nGrMem = s.nGrMem ∧ s'.stores = s.stores ∧ Listed b s' (members text) o) := by
  have hshape : fieldsOf 58 (some text) = fields 58 text := rfl
  have hlen : textLength (some text) = text.length := rfl
  generalize some text = src at hshape hlen
  cases hfs : fields 58 text with
  | nil =>
    rw [lineLoop_end (hshape.trans hfs)]
    exact ⟨_,rfl,fun _ => ⟨rfl,rfl⟩,by simp⟩
  | cons name fs =>
    have hname : field b longBits builtins name s .name = some (.done .passwd (s.setName name)) := rfl
    obtain ⟨src₁,h₁,hlt₁,hrun₁⟩ := lineLoop_field text.length (hshape.trans hfs) hname
    rw [hrun₁]
    obtain ⟨n₁,hn₁⟩ : ∃ n, text.length = n + 1 := ⟨text.length - 1,by omega⟩
    rw [hn₁]
    cases fs with
    | nil =>
      rw [lineLoop_end h₁]
      exact ⟨_,rfl,fun _ => ⟨rfl,rfl⟩,by simp⟩
    | cons passwd fs =>
      have hpasswd : field b longBits builtins passwd (s.setName name) .passwd = some (.done .gid (s.setName name)) := rfl
      obtain ⟨src₂,h₂,hlt₂,hrun₂⟩ := lineLoop_field n₁ h₁ hpasswd
      rw [hrun₂]
      obtain ⟨n₂,rfl⟩ : ∃ n, n₁ = n + 1 := ⟨n₁ - 1,by omega⟩
      cases fs with
      | nil =>
        rw [lineLoop_end h₂]
        exact ⟨_,rfl,fun _ => ⟨rfl,rfl⟩,by simp⟩
      | cons gid fs =>
        obtain ⟨s₃,hgid,hsame⟩ : ∃ s₃, field b longBits builtins gid (s.setName name) .gid = some (.done .mem s₃) ∧
            s₃.group.grName = some name ∧ s₃.memp = s.memp ∧ s₃.nGrMem = s.nGrMem ∧ s₃.stores = s.stores :=
          ⟨_,rfl,rfl,rfl,rfl,rfl⟩
        obtain ⟨src₃,h₃,hlt₃,hrun₃⟩ := lineLoop_field n₂ h₂ hgid
        have hmem : members text = fields 44 (fs.head?.getD []) := by
          rw [members,hfs]
          cases fs <;> rfl
        rw [hrun₃]
        have hshort : textLength src₃ < n₂ := by omega
        obtain ⟨o,hdone,hlisted⟩ := lineLoop_mem (hsame.2.2.1 ▸ hroom) h₃ hshort
        rw [← hmem] at hlisted
        exact ⟨o,hdone,by simp,fun _ => ⟨s₃,hsame.1,hsame.2.1,hsame.2.2.1,hsame.2.2.2,hlisted⟩⟩

theorem readLine_length (n : Nat) (input : List UInt8) : (readLine n input).length ≤ n := by
  induction input generalizing n with
  | nil => cases n <;> simp [readLine]
  | cons c input ih =>
    cases n with
    | zero => simp [readLine]
    | succ n =>
      rw [readLine]
      split
      · simp
      · simpa using ih n

theorem vectorStart_bounds (b : Buffer) (text : List UInt8) :
    text.length + 1 ≤ vectorStart b text ∧ vectorStart b text ≤ text.length + b.ptrBytes := by
  rw [vectorStart,alignUp]
  rcases b.pointers with h | h
  · rw [h]
    omega
  · rw [h]
    omega

theorem seen_length (line : List UInt8) : (seen line).length ≤ line.length :=
  (List.takeWhile_prefix _).length_le

theorem seen_prefix (n : Nat) (input : List UInt8) : seen (readLine n input) <+: input.takeWhile (· ≠ 10) := by
  induction input generalizing n with
  | nil => cases n <;> exact List.nil_prefix
  | cons c input ih =>
    cases n with
    | zero => exact List.nil_prefix
    | succ n =>
      rw [readLine]
      by_cases hc : c = 10
      · rw [if_pos hc,seen,List.takeWhile_cons_of_neg (by simp [hc])]
        exact List.nil_prefix
      · rw [if_neg hc,List.takeWhile_cons_of_pos (by simpa using hc),seen]
        by_cases hz : c = 0
        · rw [List.takeWhile_cons_of_neg (by simp [hz])]
          exact List.nil_prefix
        · rw [List.takeWhile_cons_of_pos (by simp [hz,hc])]
          exact List.cons_prefix_cons.mpr ⟨rfl,ih n⟩

theorem room_inside {off : Nat} (h : off ≤ b.size) : room b off = (b.size - off) / b.ptrBytes := by
  have hlt := b.bounded
  rw [room,← Nat.cast_sub h,Int.emod_eq_of_lt (by positivity) (by exact_mod_cast lt_of_le_of_lt (Nat.sub_le _ _) hlt),
    Int.toNat_natCast]

theorem room_outside {off : Nat} (h : b.size < off) (hnear : off < b.size + b.ptrBytes) : 2 ≤ room b off := by
  rw [room]
  rcases b.pointers with hp | hp
  · rw [hp] at hnear ⊢
    omega
  · rw [hp] at hnear ⊢
    omega

theorem slots_inside {ptrBytes p : Nat} {ms : List (List UInt8)} {x : Nat × Option (List UInt8)}
    (hx : x ∈ slots ptrBytes p ms) : p ≤ x.1 ∧ x.1 + ptrBytes ≤ p + ptrBytes * ms.length := by
  induction ms generalizing p with
  | nil => exact absurd hx (by simp [slots])
  | cons m ms ih =>
    rw [List.length_cons,Nat.mul_add,Nat.mul_one]
    rcases List.mem_cons.mp hx with rfl | hx
    · exact ⟨le_rfl,by dsimp only; omega⟩
    · have := ih hx
      omega

theorem slots_texts (ptrBytes p : Nat) (ms : List (List UInt8)) : (slots ptrBytes p ms).map Prod.snd = ms.map some := by
  induction ms generalizing p with
  | nil => rfl
  | cons m ms ih => rw [slots,List.map_cons,ih,List.map_cons]

theorem vectorAt_inj {ptrBytes p q : Nat} {ms ns : List (List UInt8)} (h : vectorAt ptrBytes p ms = vectorAt ptrBytes q ns) :
    ms = ns := by
  have htexts := congrArg (List.map Prod.snd) h
  rw [vectorAt,vectorAt,List.map_append,List.map_append,slots_texts,slots_texts] at htexts
  exact (List.map_injective_iff.mpr (Option.some_injective _)) (List.append_cancel_right htexts)

theorem fgets_none {input : List UInt8} (hinput : input ≠ []) {size : Int} : fgets size input = none ↔ size ≤ 0 := by
  rw [fgets]
  constructor
  · intro h
    by_contra hpos
    rw [if_neg (by tauto)] at h
    exact absurd h (by simp)
  · intro h
    rw [if_pos (Or.inl h)]

theorem fgets_some {input : List UInt8} (hinput : input ≠ []) {size : Int} (hsize : 1 ≤ size) :
    fgets size input = some (readLine (size.toNat - 1) input) := by
  have hgo : ¬(size ≤ 0 ∨ 1 < size ∧ input = []) := by
    rintro (h | h)
    · omega
    · exact hinput h.2
  rw [fgets,if_neg hgo]

structure Ran (b : Buffer) (text : List UInt8) (o : Out) : Prop where
  short : (fields 58 text).length < 3 → (o.ret = .einval ∨ o.ret = .erange) ∧ o.stores = []
  fit : 3 ≤ (fields 58 text).length → (members text).length < room b (vectorStart b text) → o.ret = .ok ∧
    o.grbufp = .grbuf ∧ o.group.grName = (fields 58 text).head? ∧ o.group.grMem = some (vectorStart b text) ∧
    o.stores = vectorAt b.ptrBytes (vectorStart b text) (members text)
  full : 3 ≤ (fields 58 text).length → room b (vectorStart b text) ≤ (members text).length → o.ret = .erange ∧
    o.stores = slots b.ptrBytes (vectorStart b text) ((members text).take (room b (vectorStart b text) - 1))

theorem fgetgrentR_ran (b : Buffer) (longBits : Nat) (builtins : Bool) (group : Group) {input : List UInt8}
    (hinput : input ≠ []) (hsize : 1 ≤ int32 b.size) :
    ∃ o, fgetgrentR b longBits builtins group input = some o ∧
      Ran b (seen (readLine ((int32 b.size).toNat - 1) input)) o := by
  rw [fgetgrentR,fgets_some hinput hsize]
  simp only
  generalize seen (readLine ((int32 b.size).toNat - 1) input) = text
  by_cases hroom : room b (vectorStart b text) = 0
  · rw [if_pos hroom]
    refine ⟨_,rfl,fun _ => ⟨Or.inr rfl,rfl⟩,fun _ hlt => by omega,fun _ _ => ⟨rfl,?_⟩⟩
    rw [hroom]
    rfl
  · rw [if_neg hroom]
    obtain ⟨o,hrun,hshort,hlong⟩ := lineLoop_parses b longBits builtins
      (s := ⟨group,vectorStart b text,room b (vectorStart b text),[]⟩) text (Nat.one_le_iff_ne_zero.mpr hroom)
    refine ⟨o,hrun,fun hlt => ⟨Or.inl (hshort hlt).1,(hshort hlt).2⟩,fun hge hfit => ?_,fun hge hfull => ?_⟩
    · obtain ⟨s',hname,hmemp,hn,hstores,hlisted⟩ := hlong hge
      obtain ⟨hret,hslot,hgr,hmem,hout⟩ := hlisted.fit (hn ▸ hfit)
      rw [hname] at hgr
      rw [hmemp] at hmem hout
      rw [hstores] at hout
      exact ⟨hret,hslot,hgr,hmem,hout⟩
    · obtain ⟨s',hname,hmemp,hn,hstores,hlisted⟩ := hlong hge
      obtain ⟨hret,hout⟩ := hlisted.full (hn ▸ hfull)
      rw [hmemp,hn,hstores] at hout
      exact ⟨hret,hout⟩

theorem ptrBytes_pos (b : Buffer) : 0 < b.ptrBytes := by
  rcases b.pointers with h | h <;> omega

theorem fits_iff (hoff : vectorStart b text ≤ b.size) :
    Fits b text ↔ (members text).length < room b (vectorStart b text) := by
  rw [room_inside hoff,← Nat.add_one_le_iff,Nat.le_div_iff_mul_le (ptrBytes_pos b),Fits,Nat.mul_comm]
  omega

theorem vectorAt_first (ptrBytes p : Nat) (ms : List (List UInt8)) : ∃ x, (p,x) ∈ vectorAt ptrBytes p ms := by
  cases ms with
  | nil => exact ⟨none,by simp [vectorAt,slots]⟩
  | cons m ms => exact ⟨some m,by simp [vectorAt,slots]⟩

theorem slots_first (ptrBytes p : Nat) {ms : List (List UInt8)} (h : ms ≠ []) : ∃ x, (p,x) ∈ slots ptrBytes p ms := by
  obtain ⟨m,ms,rfl⟩ := List.exists_cons_of_ne_nil h
  exact ⟨some m,by simp [slots]⟩

theorem vectorAt_inside {ptrBytes p : Nat} {x : Nat × Option (List UInt8)} (hx : x ∈ vectorAt ptrBytes p ms) :
    p ≤ x.1 ∧ x.1 + ptrBytes ≤ p + ptrBytes * (ms.length + 1) := by
  rw [Nat.mul_add,Nat.mul_one]
  rcases List.mem_append.mp hx with hx | hx
  · have := slots_inside hx
    omega
  · rw [List.mem_singleton.mp hx]
    exact ⟨Nat.le_add_right _ _,by dsimp only; omega⟩

theorem Ran.first {o : Out} (hran : Ran b text o) (hge : 3 ≤ (fields 58 text).length)
    (h : members text = [] ∧ 1 ≤ room b (vectorStart b text) ∨ 2 ≤ room b (vectorStart b text)) :
    ∃ x, (vectorStart b text,x) ∈ o.stores := by
  rcases Nat.lt_or_ge (members text).length (room b (vectorStart b text)) with hfit | hfull
  · rw [(hran.fit hge hfit).2.2.2.2]
    exact vectorAt_first _ _ _
  · rw [(hran.full hge hfull).2]
    refine slots_first _ _ fun hnil => ?_
    rcases h with ⟨hnone,hone⟩ | htwo
    · rw [hnone,List.length_nil] at hfull
      omega
    · have hlen := congrArg List.length hnil
      rw [List.length_take,List.length_nil] at hlen
      omega

theorem Ran.roomy {o : Out} {input : List UInt8} (hran : Ran b (seen line) o)
    (hline : line = readLine ((int32 b.size).toNat - 1) input) (hshort : line.length < b.size)
    (hge : 3 ≤ (fields 58 (seen line)).length) (hm : Meets b input o) : Roomy b line (input.takeWhile (· ≠ 10)) := by
  have hpos := ptrBytes_pos b
  have hstart := vectorStart_bounds b (seen line)
  have hseen := seen_length line
  have hoff : vectorStart b (seen line) ≤ b.size := by
    by_contra hout
    obtain ⟨x,hx⟩ := hran.first hge (Or.inr (room_outside (by omega) (by omega)))
    have := hm.inside _ hx
    omega
  refine ⟨hoff,fun hone => ⟨fun hstore => ?_,fun hfits => ?_⟩⟩
  · have hroom : members (seen line) = [] ∧ 1 ≤ room b (vectorStart b (seen line)) ∨
        2 ≤ room b (vectorStart b (seen line)) := by
      rw [room_inside hoff,Nat.le_div_iff_mul_le hpos,Nat.le_div_iff_mul_le hpos]
      rcases hstore with hnone | htwo
      · exact Or.inl ⟨hnone,by omega⟩
      · exact Or.inr (by omega)
    obtain ⟨x,hx⟩ := hran.first hge hroom
    exact hline ▸ hm.apart _ hx
  · obtain ⟨hret,-,-,-,hstores⟩ := hran.fit hge ((fits_iff hoff).mp hfits)
    obtain ⟨p,-,hlisted⟩ := hm.listed hret
    exact ⟨hm.fits hret,vectorAt_inj (hlisted.symm.trans hstores)⟩

theorem Ran.meets {o : Out} {input : List UInt8} (hran : Ran b (seen line) o)
    (hline : line = readLine ((int32 b.size).toNat - 1) input)
    (hroomy : 3 ≤ (fields 58 (seen line)).length → Roomy b line (input.takeWhile (· ≠ 10))) : Meets b input o := by
  have hpos := ptrBytes_pos b
  rcases Nat.lt_or_ge (fields 58 (seen line)).length 3 with hlt | hge
  · obtain ⟨hret,hstores⟩ := hran.short hlt
    have hbad : o.ret ≠ .ok := by rcases hret with h | h <;> simp [h]
    have hnone : ∀ s, s ∉ o.stores := fun s => by simp [hstores]
    exact ⟨fun s hs => absurd hs (hnone s),fun s hs => absurd hs (hnone s),Or.inr hret.symm,fun h => absurd h hbad,
      fun h => absurd h hbad,fun h => absurd h hbad,fun h => absurd h hbad⟩
  obtain ⟨hoff,hinside⟩ := hroomy hge
  rcases Nat.lt_or_ge (members (seen line)).length (room b (vectorStart b (seen line))) with hfit | hfull
  · obtain ⟨hret,hslot,hname,hmem,hstores⟩ := hran.fit hge hfit
    have hfits := (fits_iff hoff).mpr hfit
    have hspace : vectorStart b (seen line) + b.ptrBytes * ((members (seen line)).length + 1) ≤ b.size := hfits
    have hone : vectorStart b (seen line) + b.ptrBytes ≤ b.size := by
      rw [Nat.mul_add,Nat.mul_one] at hspace
      omega
    obtain ⟨hbehind,hagrees⟩ := hinside hone
    have hagree := hagrees hfits
    have hfirst : (fields 58 (input.takeWhile (· ≠ 10))).head? = (fields 58 (seen line)).head? :=
      fields_head (hline ▸ seen_prefix _ input) (by omega)
    have hclear : line.length ≤ vectorStart b (seen line) := by
      refine hbehind ?_
      cases hms : members (seen line) with
      | nil => exact Or.inl rfl
      | cons m ms =>
        rw [hms,List.length_cons] at hspace
        have : b.ptrBytes * 2 ≤ b.ptrBytes * (ms.length + 1 + 1) := Nat.mul_le_mul_left _ (by omega)
        exact Or.inr (by omega)
    refine ⟨fun s hs => ?_,fun s hs => ?_,Or.inl hret,fun _ => hslot,fun _ => hagree.fits,
      fun _ => hname.trans hfirst.symm,fun _ => ⟨_,hmem,by rw [hagree.members,hstores]⟩⟩
    · rw [hstores] at hs
      exact (vectorAt_inside hs).2.trans hspace
    · rw [hstores] at hs
      exact hline ▸ hclear.trans (vectorAt_inside hs).1
  · obtain ⟨hret,hstores⟩ := hran.full hge hfull
    have hbad : o.ret ≠ .ok := by simp [hret]
    have hplace : ∀ s ∈ o.stores, s.1 + b.ptrBytes ≤ b.size ∧ line.length ≤ s.1 := by
      intro s hs
      rw [hstores] at hs
      obtain ⟨hfrom,hto⟩ := slots_inside hs
      rw [List.length_take] at hto
      have hsome : 1 ≤ room b (vectorStart b (seen line)) - 1 := by
        by_contra hzero
        rw [Nat.eq_zero_of_not_pos hzero,List.take_zero] at hs
        exact absurd hs (by simp [slots])
      have htwo : 2 ≤ room b (vectorStart b (seen line)) := by omega
      have hspace := Nat.div_mul_le_self (b.size - vectorStart b (seen line)) b.ptrBytes
      rw [room_inside hoff] at htwo hto
      have hmul : b.ptrBytes * 2 ≤ b.ptrBytes * ((b.size - vectorStart b (seen line)) / b.ptrBytes) :=
        Nat.mul_le_mul_left _ htwo
      have hle : b.ptrBytes * min ((b.size - vectorStart b (seen line)) / b.ptrBytes - 1) (members (seen line)).length ≤
          b.ptrBytes * ((b.size - vectorStart b (seen line)) / b.ptrBytes) := Nat.mul_le_mul_left _ (by omega)
      rw [Nat.mul_comm] at hspace
      exact ⟨by omega,((hinside (by omega)).1 (Or.inr (by omega))).trans hfrom⟩
    exact ⟨fun s hs => (hplace s hs).1,fun s hs => hline ▸ (hplace s hs).2,Or.inr (Or.inl hret),fun h => absurd h hbad,
      fun h => absurd h hbad,fun h => absurd h hbad,fun h => absurd h hbad⟩

theorem fgetgrentR_iff (b : Buffer) (longBits : Nat) (builtins : Bool) (group : Group) (c : UInt8) (input : List UInt8) :
    (∃ o, fgetgrentR b longBits builtins group (c :: input) = some o ∧ Meets b (c :: input) o) ↔
      1 ≤ int32 b.size ∧ (3 ≤ (fields 58 (seen (readLine ((int32 b.size).toNat - 1) (c :: input)))).length →
        Roomy b (readLine ((int32 b.size).toNat - 1) (c :: input)) ((c :: input).takeWhile (· ≠ 10))) := by
  have hinput : c :: input ≠ [] := List.cons_ne_nil c input
  by_cases hsize : 1 ≤ int32 b.size
  swap
  · rw [fgetgrentR,(fgets_none hinput).mpr (by omega)]
    constructor
    · rintro ⟨o,ho,hm⟩
      have hcode := hm.codes
      rw [← Option.some.inj ho] at hcode
      exact absurd hcode (by simp)
    · exact fun h => absurd h.1 hsize
  obtain ⟨o,hrun,hran⟩ := fgetgrentR_ran b longBits builtins group hinput hsize
  have hlen := readLine_length ((int32 b.size).toNat - 1) (c :: input)
  have hle := int32_le b.size
  rw [hrun,and_iff_right hsize]
  constructor
  · rintro ⟨o',ho,hm⟩ hge
    rw [← Option.some.inj ho] at hm
    exact hran.roomy rfl (by omega) hge hm
  · exact fun hroomy => ⟨o,rfl,hran.meets rfl hroomy⟩

end

def unaligned : Buffer := ⟨8,1,9,Or.inr rfl,by norm_num⟩

def emptyGroup : Group := ⟨none,0,none⟩

theorem vector_past_end : ¬∃ o, fgetgrentR unaligned 64 true emptyGroup [97,58,98,58,49,58,99,10] = some o ∧
    Meets unaligned [97,58,98,58,49,58,99,10] o := by
  rintro ⟨o,hrun,hm⟩
  obtain ⟨o',hrun',hran⟩ := fgetgrentR_ran unaligned 64 true emptyGroup (List.cons_ne_nil 97 [58,98,58,49,58,99,10]) (by decide)
  obtain rfl := Option.some.inj (hrun.symm.trans hrun')
  have hoff := (hran.roomy rfl (by decide) (by decide) hm).1
  exact absurd hoff (by decide)

end Grp
