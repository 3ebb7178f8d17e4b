import Mathlib
import Picolibc.Lib.BlockHeap
import Picolibc.Lib.Checked
import Picolibc.Argz.Findstr

namespace Argz

open BlockHeap Occurrences

open Checked (int32 int32_small int32_lt)

inductive Ret where
  | ok
  | enomem
  | einval
deriving DecidableEq,Repr

structure Vec where
  argz : Option Nat
  len : Nat
deriving DecidableEq,Repr

structure Done where
  ret : Ret
  heap : Heap UInt8
  vec : Vec

structure Machine where
  sizeBits : Nat
  junk : Nat → UInt8

def size (k : Machine) (n : Int) : Nat := (n % 2 ^ k.sizeBits).toNat

def realloc (k : Machine) (h : Heap UInt8) (p : Option Nat) (n : Nat) (o : Outcome) : Option (Option Nat × Heap UInt8) :=
  match p with
  | none => h.realloc n k.junk none o
  | some p => if n = 0 then (h.blocks p).map (fun _ => (none,h.setBlock p none)) else h.realloc n k.junk (some p) o

def free (h : Heap UInt8) : Option Nat → Option (Heap UInt8)
  | none => some h
  | some p => (h.blocks p).map (fun _ => h.setBlock p none)

def readAt (h : Heap UInt8) (p : Nat) (off : Int) (n : Nat) : Option (List UInt8) :=
  (h.blocks p).bind fun l =>
    if 0 ≤ off ∧ off + n ≤ l.length then some ((l.drop off.toNat).take n) else none

def writeAt (h : Heap UInt8) (p : Nat) (off : Int) (bytes : List UInt8) : Option (Heap UInt8) :=
  (h.blocks p).bind fun l =>
    if 0 ≤ off ∧ off + bytes.length ≤ l.length then
      some (h.setBlock p (some (l.take off.toNat ++ bytes ++ l.drop (off.toNat + bytes.length))))
    else none

def extend (k : Machine) (h : Heap UInt8) (v : Vec) (bytes : List UInt8) (o : Outcome) : Option Done :=
  let last := v.len
  let len := size k (v.len + bytes.length)
  (realloc k h v.argz len o).bind fun r =>
    match r.1 with
    | none => some ⟨.enomem,r.2,⟨none,len⟩⟩
    | some p => (writeAt r.2 p last bytes).map fun h => ⟨.ok,h,⟨some p,len⟩⟩

def argzAdd (k : Machine) (h : Heap UInt8) (v : Vec) (str : Option (List UInt8)) (o : Outcome) : Option Done :=
  match str with
  | none => some ⟨.ok,h,v⟩
  | some str => extend k h v (str ++ [0]) o

def argzAppend (k : Machine) (h : Heap UInt8) (v : Vec) (buf : List UInt8) (o : Outcome) : Option Done :=
  if buf = [] then some ⟨.ok,h,v⟩ else extend k h v buf o

inductive Before where
  | null
  | outside
  | inside (off : Nat)

def stepBack (l : List UInt8) : Nat → Nat
  | 0 => 0
  | off + 1 => if l.getD off 0 = 0 then off + 1 else stepBack l off

def insertAt (k : Machine) (h : Heap UInt8) (v : Vec) (delta : Nat) (entry : List UInt8) (o : Outcome) : Option Done :=
  let len := int32 (entry.length + 1)
  (realloc k h v.argz (size k (v.len + len)) o).bind fun r =>
    match r.1 with
    | none => some ⟨.enomem,r.2,⟨none,v.len⟩⟩
    | some p =>
      (readAt r.2 p delta (v.len - delta)).bind fun moved =>
      (writeAt r.2 p (delta + len) moved).bind fun h =>
      if size k len ≤ entry.length + 1 then
        (writeAt h p delta ((entry ++ [0]).take (size k len))).map fun h => ⟨.ok,h,⟨some p,size k (v.len + len)⟩⟩
      else none

def argzInsert (k : Machine) (h : Heap UInt8) (v : Vec) (before : Before) (entry : List UInt8) (o : Outcome) :
    Option Done :=
  match before with
  | .null => argzAdd k h v (some entry) o
  | .outside => some ⟨.einval,h,v⟩
  | .inside off => insertAt k h v (stepBack (h.content v.argz) off) entry o

def entryLength (l : List UInt8) (off : Nat) : Nat := ((l.drop off).takeWhile (· ≠ 0)).length

def deleteAt (k : Machine) (h : Heap UInt8) (v : Vec) (p off : Nat) (o : Outcome) : Option Done :=
  let len := int32 (entryLength (h.content v.argz) off + 1)
  (readAt h p (off + len) (size k (v.len - (off + len)))).bind fun moved =>
  (writeAt h p off moved).bind fun h =>
  (realloc k h (some p) (size k (v.len - len)) o).bind fun r =>
    match r.1 with
    | none => some ⟨.enomem,r.2,⟨none,size k (v.len - len)⟩⟩
    | some p =>
      if size k (v.len - len) ≤ 0 then
        (free r.2 (some p)).map fun h => ⟨.ok,h,⟨none,size k (v.len - len)⟩⟩
      else some ⟨.ok,r.2,⟨some p,size k (v.len - len)⟩⟩

def argzDelete (k : Machine) (h : Heap UInt8) (v : Vec) (entry : Option Nat) (o : Outcome) : Option Done :=
  match entry, v.argz with
  | none, _ => some ⟨.ok,h,v⟩
  | some _, none => none
  | some off, some p => deleteAt k h v p off o

def malloc (k : Machine) (h : Heap UInt8) (n : Nat) (o : Outcome) : Option Nat × Heap UInt8 :=
  if o = .fail then (none,h) else (some h.next,h.setBlock h.next (some (resized [] n k.junk)))

def putBack (k : Machine) (h : Heap UInt8) (v : Vec) (scratch : Nat) (bytes : List UInt8) (n replaceCount : Nat)
    (o : Outcome) : Option (Done × Nat) :=
  (writeAt h scratch 0 bytes).bind fun h =>
  (realloc k h v.argz n o).bind fun r =>
    match r.1 with
    | none => (free r.2 (some scratch)).map fun h => (⟨.enomem,h,v⟩,replaceCount)
    | some p =>
      (readAt r.2 scratch 0 n).bind fun copied =>
      (writeAt r.2 p 0 copied).bind fun h =>
      if n = 0 then
        (free h (some p)).bind fun h => (free h (some scratch)).map fun h => (⟨.ok,h,⟨none,n⟩⟩,replaceCount)
      else (free h (some scratch)).map fun h => (⟨.ok,h,⟨some p,n⟩⟩,replaceCount)

def argzReplace (k : Machine) (h : Heap UInt8) (v : Vec) (str new : List UInt8) (o₁ o₂ : Outcome) (fuel : Nat) :
    Res (Done × Nat) :=
  let buf := (h.content v.argz).take v.len
  match countLoop k.sizeBits str new fuel buf 0 v.len with
  | .spinning => .spinning
  | .fault => .fault
  | .done (replaceCount,newLen) =>
    if replaceCount = 0 then .done (⟨.ok,h,v⟩,replaceCount)
    else
      let m := malloc k h newLen.toNat o₁
      match m.1 with
      | none => .done (⟨.enomem,m.2,v⟩,replaceCount)
      | some scratch =>
        match copyLoop str new newLen.toNat fuel buf buf [] with
        | .spinning => .spinning
        | .fault => .fault
        | .done (last,out) =>
          match putBack k m.2 v scratch (out ++ last) newLen.toNat replaceCount o₂ with
          | none => .fault
          | some d => .done d

structure Holds (k : Machine) (h : Heap UInt8) (v : Vec) (es : List (List UInt8)) : Prop where
  plain : ∀ e ∈ es, 0 ∉ e
  len : v.len = (joined 0 es).length
  fits : v.len < 2 ^ k.sizeBits
  null : es = [] → v.argz = none
  block : es ≠ [] → ∃ p, v.argz = some p ∧ h.blocks p = some (joined 0 es)

structure Sound (k : Machine) (h : Heap UInt8) (v : Vec) (es spec : List (List UInt8)) (d : Done) : Prop where
  ok : d.ret = .ok → Holds k d.heap d.vec spec
  kept : d.ret ≠ .ok → d.vec = v ∧ Holds k d.heap v es
  swapped : Swapped h v.argz d.heap d.vec.argz

def insertBefore (entry : List UInt8) : List (List UInt8) → Nat → List (List UInt8)
  | [], _ => [entry]
  | e :: es, off => if off ≤ e.length then entry :: e :: es else e :: insertBefore entry es (off - (e.length + 1))

section

variable {k : Machine} {h : Heap UInt8} {v : Vec} {es : List (List UInt8)} {o : Outcome} {n p : Nat} {l bytes : List UInt8}

theorem size_of_lt {n : Nat} (hn : n < 2 ^ k.sizeBits) : size k n = n := by
  rw [size,Int.emod_eq_of_lt (by positivity) (by exact_mod_cast hn),Int.toNat_natCast]

theorem size_lt (k : Machine) (n : Int) : size k n < 2 ^ k.sizeBits := by
  have hpos : (0 : Int) < 2 ^ k.sizeBits := by positivity
  have h1 := Int.emod_lt_of_pos n hpos
  have h2 := Int.emod_nonneg n hpos.ne'
  rw [size]
  zify
  omega

theorem Holds.valid (hv : Holds k h v es) : h.Valid v.argz := by
  intro p hp
  by_cases he : es = []
  · rw [hv.null he] at hp
    exact absurd hp (by simp)
  · obtain ⟨q,hq,hb⟩ := hv.block he
    rw [hq,Option.some.injEq] at hp
    exact ⟨_,hp ▸ hb⟩

theorem Holds.content (hv : Holds k h v es) : h.content v.argz = joined 0 es := by
  by_cases he : es = []
  · rw [hv.null he,he]
    rfl
  · obtain ⟨p,hp,hb⟩ := hv.block he
    rw [hp,Heap.content,Option.bind_some,hb,Option.getD_some]

theorem realloc_fail (h : Heap UInt8) {p : Option Nat} (hp : h.Valid p) (n : Nat) :
    ∃ h', realloc k h p n .fail = some (none,h') := by
  cases p with
  | none => exact ⟨h,rfl⟩
  | some p =>
    obtain ⟨l,hl⟩ := hp p rfl
    rw [realloc]
    split
    · exact ⟨_,by rw [hl]; rfl⟩
    · exact ⟨h,rfl⟩

theorem realloc_zero (hp : h.blocks p = some l) (o : Outcome) :
    realloc k h (some p) 0 o = some (none,h.setBlock p none) := by
  rw [realloc,if_pos rfl,hp]
  rfl

theorem realloc_ok {h₀ : Heap UInt8} {old p : Option Nat} (hs : Swapped h₀ old h p) (hnew : p = none → old = none)
    (hold : h₀.Valid old) (hp : h.Valid p) (ho : o ≠ .fail) (hn : n ≠ 0) :
    ∃ q h', realloc k h p n o = some (some q,h') ∧ h'.blocks q = some (resized (h.content p) n k.junk) ∧
      Swapped h₀ old h' (some q) := by
  obtain ⟨q,h',hrun,hblock,hswap,-⟩ := realloc_grant hs hnew hold hp ho n k.junk
  refine ⟨q,h',?_,hblock,hswap⟩
  rw [← hrun]
  cases p with
  | none => rfl
  | some p => rw [realloc,if_neg hn]

theorem Holds.realloc_ok (hv : Holds k h v es) (ho : o ≠ .fail) (hn : n ≠ 0) :
    ∃ q h', realloc k h v.argz n o = some (some q,h') ∧ h'.blocks q = some (resized (joined 0 es) n k.junk) ∧
      Swapped h v.argz h' (some q) := by
  obtain ⟨q,h',hrun,hblock,hswap⟩ := Argz.realloc_ok (k := k) (Swapped.refl h v.argz) id hv.valid hv.valid ho hn
  exact ⟨q,h',hrun,hv.content ▸ hblock,hswap⟩

theorem writeAt_ok (hp : h.blocks p = some l) {off : Nat} (hfit : off + bytes.length ≤ l.length) :
    writeAt h p off bytes = some (h.setBlock p (some (l.take off ++ bytes ++ l.drop (off + bytes.length)))) := by
  rw [writeAt,hp,Option.bind_some,if_pos ⟨by omega,by omega⟩,Int.toNat_natCast]

theorem writeAt_out (hp : h.blocks p = some l) {off : Int} (hout : off < 0 ∨ l.length < off + bytes.length) :
    writeAt h p off bytes = none := by
  rw [writeAt,hp,Option.bind_some,if_neg (by omega)]

theorem readAt_ok (hp : h.blocks p = some l) {off n : Nat} (hfit : off + n ≤ l.length) :
    readAt h p off n = some ((l.drop off).take n) := by
  rw [readAt,hp,Option.bind_some,if_pos ⟨by omega,by omega⟩,Int.toNat_natCast]

theorem readAt_out (hp : h.blocks p = some l) {off : Int} {n : Nat} (hout : off < 0 ∨ l.length < off + n) :
    readAt h p off n = none := by
  rw [readAt,hp,Option.bind_some,if_neg (by omega)]

theorem resized_take (junk : Nat → UInt8) (hn : l.length ≤ n) : (resized l n junk).take l.length = l := by
  rw [resized,List.take_append_of_le_length (by rw [List.length_take]; omega),List.take_of_length_le hn,List.take_length]

theorem resized_shrink (junk : Nat → UInt8) (hn : n ≤ l.length) : resized l n junk = l.take n := by
  rw [resized,Nat.sub_eq_zero_of_le hn]
  simp

theorem extend_ok (hv : Holds k h v es) (ho : o ≠ .fail) (hbytes : bytes ≠ [])
    (hfit : v.len + bytes.length < 2 ^ k.sizeBits) :
    ∃ q h', extend k h v bytes o = some ⟨.ok,h',⟨some q,v.len + bytes.length⟩⟩ ∧
      h'.blocks q = some (joined 0 es ++ bytes) ∧ Swapped h v.argz h' (some q) := by
  have hpos : 0 < bytes.length := List.length_pos_iff.mpr hbytes
  have hsize : size k (v.len + bytes.length) = v.len + bytes.length := by exact_mod_cast size_of_lt hfit
  obtain ⟨q,h',hrun,hblock,hswap⟩ := hv.realloc_ok (k := k) ho (n := v.len + bytes.length) (by omega)
  have hlen : (resized (joined 0 es) (v.len + bytes.length) k.junk).length = v.len + bytes.length :=
    resized_length _ _ _
  have hwrite : writeAt h' q v.len bytes = some (h'.setBlock q (some (joined 0 es ++ bytes))) := by
    rw [writeAt_ok hblock hlen.ge,List.drop_of_length_le hlen.le,List.append_nil,hv.len,
      resized_take k.junk (Nat.le_add_right _ _)]
  refine ⟨q,h'.setBlock q (some (joined 0 es ++ bytes)),?_,setBlock_same _ _ _,hswap.set _⟩
  rw [extend,hsize,hrun]
  simp only [Option.bind_some,hwrite,Option.map_some]

theorem Holds.null_len (hv : Holds k h v es) (hn : v.argz = none) : v.len = 0 := by
  have he : es = [] := by
    by_contra he
    obtain ⟨p,hp,-⟩ := hv.block he
    rw [hn] at hp
    exact absurd hp (by simp)
  rw [hv.len,he]
  rfl

theorem extend_bad (hv : Holds k h v es) (hbytes : bytes ≠ []) (hshort : bytes.length < 2 ^ k.sizeBits)
    (hbad : o = .fail ∨ 2 ^ k.sizeBits ≤ v.len + bytes.length) {d : Done} (hd : extend k h v bytes o = some d) :
    d.ret ≠ .ok ∧ d.vec ≠ v := by
  have hpos : 0 < bytes.length := List.length_pos_iff.mpr hbytes
  have hother : (⟨none,size k (v.len + bytes.length)⟩ : Vec) ≠ v := by
    intro he
    have hargz : v.argz = none := (congrArg Vec.argz he).symm
    have hzero := hv.null_len hargz
    have hlen : size k (v.len + bytes.length) = v.len := congrArg Vec.len he
    rw [hzero,Nat.cast_zero,zero_add,size_of_lt hshort] at hlen
    omega
  rw [extend] at hd
  rcases Decidable.em (o = .fail) with rfl | ho
  · obtain ⟨h',hrun⟩ := realloc_fail (k := k) h hv.valid (size k (v.len + bytes.length))
    rw [hrun,Option.bind_some,Option.some.injEq] at hd
    exact hd ▸ ⟨by simp,hother⟩
  · by_cases hn : size k (v.len + bytes.length) = 0
    · cases hargz : v.argz with
      | none =>
        rw [hv.null_len hargz,Nat.cast_zero,zero_add,size_of_lt hshort] at hn
        omega
      | some p =>
        obtain ⟨l,hl⟩ := hv.valid p hargz
        rw [hn,hargz,realloc_zero hl,Option.bind_some,Option.some.injEq] at hd
        rw [hn] at hother
        exact hd ▸ ⟨by simp,hother⟩
    · obtain ⟨q,h',hrun,hblock,-⟩ := hv.realloc_ok (k := k) ho hn
      have hlt := size_lt k (v.len + bytes.length)
      have hwrap := hbad.resolve_left ho
      rw [hrun,Option.bind_some] at hd
      have hout : writeAt h' q v.len bytes = none := writeAt_out hblock (Or.inr (by rw [resized_length]; omega))
      simp only [hout,Option.map_none,reduceCtorEq] at hd

theorem holds_of_block {h : Heap UInt8} {q : Nat} (hplain : ∀ e ∈ es, 0 ∉ e) (hne : es ≠ [])
    (hblock : h.blocks q = some (joined 0 es)) {n : Nat} (hn : n = (joined 0 es).length) (hfits : n < 2 ^ k.sizeBits) :
    Holds k h ⟨some q,n⟩ es :=
  ⟨hplain,hn,hfits,fun he => absurd he hne,fun _ => ⟨q,rfl,hblock⟩⟩

theorem joined_ne_nil {es : List (List UInt8)} (h : es ≠ []) : joined 0 es ≠ [] := by
  obtain ⟨e,es,rfl⟩ := List.exists_cons_of_ne_nil h
  simp

theorem extend_iff (hv : Holds k h v es) {es₂ : List (List UInt8)} (hne : es₂ ≠ []) (hplain : ∀ e ∈ es₂, 0 ∉ e)
    (hshort : (joined 0 es₂).length < 2 ^ k.sizeBits) :
    (∃ d, extend k h v (joined 0 es₂) o = some d ∧ Sound k h v es (es ++ es₂) d) ↔
      o ≠ .fail ∧ v.len + (joined 0 es₂).length < 2 ^ k.sizeBits := by
  constructor
  · rintro ⟨d,hd,hs⟩
    by_contra hcond
    obtain ⟨hret,hvec⟩ := extend_bad hv (joined_ne_nil hne) hshort (by
      rcases Decidable.em (o = .fail) with ho | ho
      · exact Or.inl ho
      · exact Or.inr (not_lt.mp fun hlt => hcond ⟨ho,hlt⟩)) hd
    exact hvec (hs.kept hret).1
  · rintro ⟨ho,hfit⟩
    obtain ⟨q,h',hrun,hblock,hswap⟩ := extend_ok hv ho (joined_ne_nil hne) hfit
    refine ⟨_,hrun,fun _ => ?_,fun hret => absurd rfl hret,hswap⟩
    refine holds_of_block ?_ (by simp [hne]) (by rw [joined_append]; exact hblock)
      (by rw [joined_append,List.length_append,hv.len]) hfit
    intro e he
    rcases List.mem_append.mp he with he | he
    · exact hv.plain e he
    · exact hplain e he

theorem split_at {es : List (List UInt8)} {off : Nat} (hoff : off < (joined 0 es).length) (entry : List UInt8) :
    ∃ pre e post, es = pre ++ e :: post ∧ (joined 0 pre).length ≤ off ∧ off ≤ (joined 0 pre).length + e.length ∧
      insertBefore entry es off = pre ++ entry :: e :: post := by
  induction es generalizing off with
  | nil => exact absurd hoff (Nat.not_lt_zero _)
  | cons e es ih =>
    rw [joined_cons,List.length_append,List.length_cons] at hoff
    rw [insertBefore]
    by_cases hle : off ≤ e.length
    · exact ⟨[],e,es,rfl,Nat.zero_le _,by simpa using hle,by rw [if_pos hle]; rfl⟩
    · obtain ⟨pre,e',post,rfl,h1,h2,h3⟩ := @ih (off - (e.length + 1)) (by omega)
      refine ⟨e :: pre,e',post,rfl,?_,?_,?_⟩
      · rw [joined_cons,List.length_append,List.length_cons]
        omega
      · rw [joined_cons,List.length_append,List.length_cons]
        omega
      · rw [if_neg hle,h3]
        rfl

theorem stepBack_start {pre : List (List UInt8)} {e rest : List UInt8} (he : 0 ∉ e) {i : Nat} (hi : i ≤ e.length) :
    stepBack (joined 0 pre ++ (e ++ rest)) ((joined 0 pre).length + i) = (joined 0 pre).length := by
  induction i with
  | zero =>
    rcases List.eq_nil_or_concat pre with rfl | ⟨l,a,rfl⟩
    · rfl
    · have hlast : joined 0 (l.concat a) = joined 0 l ++ a ++ [0] := by
        rw [List.concat_eq_append,joined_append,joined_cons,joined_nil,List.append_assoc]
      rw [hlast,Nat.add_zero,List.length_append,List.length_singleton,stepBack,if_pos]
      simp
  | succ i ih =>
    have hget : (joined 0 pre ++ (e ++ rest)).getD ((joined 0 pre).length + i) 0 = e[i] := by
      rw [List.getD_eq_getElem?_getD,List.getElem?_append_right (Nat.le_add_right _ _),Nat.add_sub_cancel_left,
        List.getElem?_append_left hi,List.getElem?_eq_getElem hi,Option.getD_some]
    have hne : e[i] ≠ 0 := fun hz => he (hz ▸ List.getElem_mem _)
    rw [← Nat.add_assoc,stepBack,hget,if_neg hne]
    exact ih (by omega)

theorem writeAt_middle {a b c : List UInt8} (hp : h.blocks p = some (a ++ (b ++ c))) (hb : bytes.length = b.length) :
    writeAt h p a.length bytes = some (h.setBlock p (some (a ++ (bytes ++ c)))) := by
  rw [writeAt_ok hp (by simp only [List.length_append]; omega),List.take_left,hb,← List.drop_drop,List.drop_left,
    List.drop_left,List.append_assoc]

theorem readAt_middle {a b c : List UInt8} (hp : h.blocks p = some (a ++ (b ++ c))) :
    readAt h p a.length b.length = some b := by
  rw [readAt_ok hp (by simp only [List.length_append]; omega),List.drop_left,List.take_left]

theorem make_room {x y l : List UInt8} {n : Nat} (hlen : l.length = x.length + y.length + n)
    (htake : l.take (x.length + y.length) = x ++ y) :
    ∃ m b z, l = (x ++ m) ++ (b ++ []) ∧ m.length = n ∧ b.length = y.length ∧ l = x ++ (y ++ z) := by
  have hx : l.take x.length = x := by
    have := congrArg (List.take x.length) htake
    rwa [List.take_take,min_eq_left (Nat.le_add_right _ _),List.take_left] at this
  refine ⟨(l.drop x.length).take n,l.drop (x.length + n),l.drop (x.length + y.length),?_,?_,?_,?_⟩
  · have hm : x ++ (l.drop x.length).take n = l.take (x.length + n) := by
      rw [List.take_add,hx]
    rw [hm,List.append_nil,List.take_append_drop]
  · rw [List.length_take,List.length_drop]
    omega
  · rw [List.length_drop]
    omega
  · rw [← List.append_assoc,← htake,List.take_append_drop]

theorem insertAt_ok (hv : Holds k h v es) {x y entry : List UInt8} (hxy : joined 0 es = x ++ y) (ho : o ≠ .fail)
    (hint : entry.length + 1 < 2 ^ 31) (hfit : v.len + (entry.length + 1) < 2 ^ k.sizeBits) :
    ∃ q h', insertAt k h v x.length entry o = some ⟨.ok,h',⟨some q,v.len + (entry.length + 1)⟩⟩ ∧
      h'.blocks q = some (x ++ ((entry ++ [0]) ++ y)) ∧ Swapped h v.argz h' (some q) := by
  have hint' : int32 (entry.length + 1) = (entry.length + 1 : Nat) := int32_small hint
  have hsize : size k (v.len + (entry.length + 1 : Nat)) = v.len + (entry.length + 1) := by
    exact_mod_cast size_of_lt hfit
  have hcopy : size k (entry.length + 1 : Nat) = entry.length + 1 := size_of_lt (by omega)
  have hvlen : v.len = x.length + y.length := by rw [hv.len,hxy,List.length_append]
  obtain ⟨q,h₁,hrun,hblock,hswap⟩ := hv.realloc_ok (k := k) ho (n := v.len + (entry.length + 1)) (by omega)
  obtain ⟨m,b,z,hl,hm,hb,hread⟩ := make_room (x := x) (y := y) (n := entry.length + 1)
    (l := resized (joined 0 es) (v.len + (entry.length + 1)) k.junk) (by rw [resized_length,hvlen])
    (by rw [← hvlen,hv.len,resized_take k.junk (Nat.le_add_right _ _),hxy])
  have hmove : readAt h₁ q x.length (v.len - x.length) = some y := by
    rw [hvlen,Nat.add_sub_cancel_left]
    exact readAt_middle (hread ▸ hblock)
  have hshift : writeAt h₁ q (x.length + (entry.length + 1 : Nat) : Int) y =
      some (h₁.setBlock q (some ((x ++ m) ++ (y ++ [])))) := by
    have := writeAt_middle (hl ▸ hblock) hb.symm
    rw [List.length_append,hm] at this
    exact_mod_cast this
  have hfill : writeAt (h₁.setBlock q (some ((x ++ m) ++ (y ++ [])))) q x.length (entry ++ [0]) =
      some ((h₁.setBlock q (some ((x ++ m) ++ (y ++ [])))).setBlock q (some (x ++ ((entry ++ [0]) ++ y)))) :=
    writeAt_middle (b := m) (by rw [setBlock_same,List.append_nil,List.append_assoc]) (by rw [hm]; simp)
  refine ⟨q,(h₁.setBlock q (some ((x ++ m) ++ (y ++ [])))).setBlock q (some (x ++ ((entry ++ [0]) ++ y))),?_,
    setBlock_same _ _ _,(hswap.set _).set _⟩
  rw [insertAt,hint',hsize,hcopy,hrun]
  simp only [Option.bind_some,hmove,hshift]
  rw [if_pos le_rfl,List.take_of_length_le (by simp),hfill]
  rfl

theorem wrapped_size {n len m : Int} (hn : (size k n : Int) = m) (heq : n - m = len) :
    (2 : Int) ^ k.sizeBits ∣ len := by
  have hpos : (0 : Int) < 2 ^ k.sizeBits := by positivity
  have h0 := Int.emod_nonneg n hpos.ne'
  rw [size,Int.toNat_of_nonneg h0] at hn
  rw [← heq,← hn]
  exact Int.dvd_self_sub_emod

theorem insertAt_bad (hv : Holds k h v es) (hne : es ≠ []) {delta : Nat} {entry : List UInt8}
    (hdelta : delta < v.len) (hbad : o = .fail ∨ 2 ^ 31 ≤ entry.length + 1 ∨ 2 ^ k.sizeBits ≤ v.len + (entry.length + 1))
    {d : Done} (hd : insertAt k h v delta entry o = some d) :
    (d.ret ≠ .ok ∧ d.vec ≠ v) ∨ (d.ret = .ok ∧ d.vec.len ≠ v.len + (entry.length + 1)) := by
  obtain ⟨p,hp,hpb⟩ := hv.block hne
  have hnull : ∀ n, (⟨none,n⟩ : Vec) ≠ v := fun n he => by
    have := congrArg Vec.argz he
    rw [hp] at this
    exact absurd this (by simp)
  rw [insertAt] at hd
  rcases Decidable.em (o = .fail) with rfl | ho
  · obtain ⟨h',hrun⟩ := realloc_fail (k := k) h hv.valid (size k (v.len + int32 (entry.length + 1)))
    rw [hrun,Option.bind_some,Option.some.injEq] at hd
    exact Or.inl (hd ▸ ⟨by simp,hnull _⟩)
  by_cases hn : size k (v.len + int32 (entry.length + 1)) = 0
  · rw [hn,hp,realloc_zero hpb,Option.bind_some,Option.some.injEq] at hd
    exact Or.inl (hd ▸ ⟨by simp,hnull _⟩)
  obtain ⟨q,h₁,hrun,hblock,-⟩ := hv.realloc_ok (k := k) ho hn
  rw [hrun,Option.bind_some] at hd
  simp only [Option.bind_eq_some_iff] at hd
  obtain ⟨moved,hmoved,h₂,hwrite,hd⟩ := hd
  split at hd
  · obtain ⟨h₃,-,rfl⟩ := Option.map_eq_some_iff.mp hd
    refine Or.inr ⟨rfl,fun hlen => ?_⟩
    have hlen : size k (v.len + int32 (entry.length + 1)) = v.len + (entry.length + 1) := hlen
    have hlt := size_lt k (v.len + int32 (entry.length + 1))
    have hneg : ¬((delta : Int) + int32 (entry.length + 1) < 0) := fun hneg => by
      rw [writeAt_out hblock (Or.inl hneg)] at hwrite
      exact absurd hwrite (by simp)
    have hsmall := int32_lt (entry.length + 1)
    have hlarge : 2 ^ 31 ≤ entry.length + 1 := by
      rcases hbad.resolve_left ho with hint | hfit
      · exact hint
      · omega
    have hdvd : (2 : Int) ^ k.sizeBits ∣ int32 (entry.length + 1) - (entry.length + 1 : Nat) :=
      wrapped_size (n := v.len + int32 (entry.length + 1)) (congrArg Nat.cast hlen) (by push_cast; ring)
    have hstep : (2 : Int) ^ k.sizeBits ≤ (entry.length + 1 : Nat) - int32 (entry.length + 1) :=
      Int.le_of_dvd (by omega) ((dvd_sub_comm).mp hdvd)
    have hcast : ((size k (v.len + int32 (entry.length + 1)) : Nat) : Int) < 2 ^ k.sizeBits := by exact_mod_cast hlt
    omega
  · exact absurd hd (by simp)

theorem insertAt_iff (hv : Holds k h v es) {off : Nat} (hoff : off < v.len) {entry : List UInt8} (hentry : 0 ∉ entry) :
    (∃ d, insertAt k h v (stepBack (h.content v.argz) off) entry o = some d ∧
      Sound k h v es (insertBefore entry es off) d) ↔
      o ≠ .fail ∧ entry.length + 1 < 2 ^ 31 ∧ v.len + (entry.length + 1) < 2 ^ k.sizeBits := by
  rw [hv.len] at hoff
  obtain ⟨pre,e,post,hsplit,hfrom,hto,hspec⟩ := split_at hoff entry
  obtain ⟨i,rfl⟩ := Nat.exists_eq_add_of_le hfrom
  have hparts : joined 0 es = joined 0 pre ++ (e ++ 0 :: joined 0 post) := by rw [hsplit,joined_append,joined_cons]
  have he : 0 ∉ e := hv.plain e (by rw [hsplit]; simp)
  have hplain : ∀ x ∈ pre ++ entry :: e :: post, 0 ∉ x := by
    intro x hx
    have hcases : x = entry ∨ x ∈ pre ++ e :: post := by
      simp only [List.mem_append,List.mem_cons] at hx ⊢
      tauto
    rcases hcases with rfl | hold
    · exact hentry
    · exact hv.plain x (hsplit ▸ hold)
  have hspeclen : (joined 0 (pre ++ entry :: e :: post)).length = v.len + (entry.length + 1) := by
    rw [hv.len,hparts]
    simp only [joined_append,joined_cons,List.length_append,List.length_cons]
    omega
  rw [hv.content,hparts,stepBack_start he (by omega),hspec]
  constructor
  · rintro ⟨d,hd,hs⟩
    by_contra hcond
    have hbad : o = .fail ∨ 2 ^ 31 ≤ entry.length + 1 ∨ 2 ^ k.sizeBits ≤ v.len + (entry.length + 1) := by
      by_contra hgood
      push Not at hgood
      exact hcond hgood
    have hne : es ≠ [] := by
      rw [hsplit]
      simp
    rcases insertAt_bad hv hne (by rw [hv.len,hparts]; simp) hbad hd with ⟨hret,hvec⟩ | ⟨hret,hlen⟩
    · exact hvec (hs.kept hret).1
    · exact hlen ((hs.ok hret).len.trans hspeclen)
  · rintro ⟨ho,hint,hfit⟩
    obtain ⟨q,h',hrun,hblock,hswap⟩ := insertAt_ok hv hparts ho hint hfit
    refine ⟨_,hrun,fun _ => holds_of_block hplain (by simp) ?_ hspeclen.symm hfit,fun hret => absurd rfl hret,hswap⟩
    rw [hblock]
    simp

theorem entryLength_start {pre : List (List UInt8)} {e rest : List UInt8} (he : 0 ∉ e) :
    entryLength (joined 0 pre ++ (e ++ 0 :: rest)) (joined 0 pre).length = e.length := by
  have hall : ∀ c ∈ e, decide (c ≠ 0) = true := fun c hc => decide_eq_true fun hz => he (hz ▸ hc)
  rw [entryLength,List.drop_left,List.takeWhile_append_of_pos hall,List.takeWhile_cons_of_neg (by simp),List.append_nil]

theorem deleteAt_ok (hv : Holds k h v es) {x y z : List UInt8} (hxyz : joined 0 es = x ++ (y ++ z)) (hp : v.argz = some p)
    (hlen : entryLength (joined 0 es) x.length + 1 = y.length) (ho : o ≠ .fail) (hint : y.length < 2 ^ 31)
    (hrest : x ++ z ≠ []) :
    ∃ q h', deleteAt k h v p x.length o = some ⟨.ok,h',⟨some q,v.len - y.length⟩⟩ ∧
      h'.blocks q = some (x ++ z) ∧ Swapped h v.argz h' (some q) := by
  have hne : es ≠ [] := fun he => by
    rw [hv.null he] at hp
    exact absurd hp (by simp)
  have hblock : h.blocks p = some (x ++ (y ++ z)) := by
    obtain ⟨p',hp',hb⟩ := hv.block hne
    rw [hp,Option.some.injEq] at hp'
    rw [hp',hb,hxyz]
  have hfits := hv.fits
  have hvlen : v.len = x.length + (y.length + z.length) := by rw [hv.len,hxyz,List.length_append,List.length_append]
  have hpos : 0 < x.length + z.length := by
    rw [← List.length_append]
    exact List.length_pos_iff.mpr hrest
  have hmoved : size k (v.len - (x.length + (y.length : Nat) : Int)) = z.length := by
    rw [show (v.len - (x.length + (y.length : Nat) : Int)) = (z.length : Nat) by rw [hvlen]; push_cast; ring]
    exact size_of_lt (by omega)
  have hleft : size k (v.len - (y.length : Nat) : Int) = v.len - y.length := by
    rw [show (v.len - (y.length : Nat) : Int) = (v.len - y.length : Nat) by omega]
    exact size_of_lt (by omega)
  have hread : readAt h p (x.length + (y.length : Nat) : Int) z.length = some z := by
    have := readAt_middle (h := h) (p := p) (a := x ++ y) (b := z) (c := []) (by rw [hblock]; simp)
    rw [List.length_append] at this
    exact_mod_cast this
  have hsplit : y ++ z = (y ++ z).take z.length ++ (y ++ z).drop z.length := (List.take_append_drop _ _).symm
  have hwrite : writeAt h p x.length z = some (h.setBlock p (some (x ++ (z ++ (y ++ z).drop z.length)))) :=
    writeAt_middle (by rw [hblock,← hsplit]) (by rw [List.length_take,List.length_append]; omega)
  have hvalid : (h.setBlock p (some (x ++ (z ++ (y ++ z).drop z.length)))).Valid (some p) := by
    intro q hq
    rw [← Option.some.inj hq]
    exact ⟨_,setBlock_same _ _ _⟩
  obtain ⟨q,h',hrun,hnew,hswap⟩ := realloc_ok (k := k) ((Swapped.refl h (some p)).set _) (fun hn => hn)
    (hp ▸ hv.valid) hvalid ho (n := v.len - y.length) (by omega)
  refine ⟨q,h',?_,?_,hp ▸ hswap⟩
  · rw [deleteAt,hv.content,hlen,int32_small hint,hmoved,hread,Option.bind_some,hwrite,Option.bind_some,hleft,hrun]
    simp only [Option.bind_some]
    rw [if_neg (by omega)]
  · rw [hnew,Heap.content,Option.bind_some,setBlock_same,Option.getD_some,resized_shrink]
    · rw [hvlen,show x.length + (y.length + z.length) - y.length = (x ++ z).length by rw [List.length_append]; omega,
        ← List.append_assoc,List.take_left]
    · simp only [List.length_append]
      omega

theorem deleteAt_bad (hv : Holds k h v es) {off n : Nat} (hp : v.argz = some p) (hn : entryLength (joined 0 es) off + 1 = n)
    (hoff : off + n ≤ v.len) (hbad : o = .fail ∨ 2 ^ 31 ≤ n ∨ v.len = n) {d : Done}
    (hd : deleteAt k h v p off o = some d) : (d.ret ≠ .ok ∧ d.vec ≠ v) ∨ (d.ret = .ok ∧ d.vec.len ≠ v.len - n) := by
  have hnull : ∀ n, (⟨none,n⟩ : Vec) ≠ v := fun n he => by
    have := congrArg Vec.argz he
    rw [hp] at this
    exact absurd this (by simp)
  have hblock : h.blocks p = some (joined 0 es) := by
    have hne : es ≠ [] := fun he => by
      rw [hv.null he] at hp
      exact absurd hp (by simp)
    obtain ⟨p',hp',hb⟩ := hv.block hne
    rw [hp,Option.some.injEq] at hp'
    rw [hp',hb]
  have hlen := hv.len
  have hfits := hv.fits
  have hsmall := int32_lt n
  rw [deleteAt,hv.content,hn] at hd
  simp only [Option.bind_eq_some_iff] at hd
  obtain ⟨moved,hread,h₁,hwrite,r,hrun,hd⟩ := hd
  -- a length that the int truncates either faults in memmove or removes too little
  have hstart : 0 ≤ (off : Int) + int32 n := by
    by_contra hneg
    rw [readAt_out hblock (Or.inl (by omega))] at hread
    exact absurd hread (by simp)
  have hle : int32 n ≤ n ∧ (n < 2 ^ 31 → int32 n = n) := by
    refine ⟨?_,int32_small⟩
    by_contra hgt
    rcases Nat.lt_or_ge n (2 ^ 31) with hlt | hge
    · exact hgt (int32_small hlt).le
    · omega
  have hmove : size k (v.len - (off + int32 n)) = (v.len - (off + int32 n)).toNat := by
    obtain ⟨m,hm⟩ := Int.eq_ofNat_of_zero_le (a := v.len - (off + int32 n)) (by omega)
    rw [hm,size_of_lt (by omega),Int.toNat_natCast]
  have hmoved : moved.length = (v.len - (off + int32 n)).toNat := by
    rw [readAt,hblock,Option.bind_some] at hread
    split at hread
    · rw [← Option.some.inj hread,hmove,List.length_take,List.length_drop]
      omega
    · exact absurd hread (by simp)
  have hpos : 0 ≤ int32 n := by
    by_contra hneg
    rw [writeAt_out hblock (Or.inr (by rw [hmoved]; omega))] at hwrite
    exact absurd hwrite (by simp)
  have hsize : size k (v.len - int32 n) = (v.len - int32 n).toNat := by
    obtain ⟨m,hm⟩ := Int.eq_ofNat_of_zero_le (a := v.len - int32 n) (by omega)
    rw [hm,size_of_lt (by omega),Int.toNat_natCast]
  have hvalid : h₁.Valid (some p) := by
    intro q hq
    rw [writeAt,hblock,Option.bind_some] at hwrite
    split at hwrite
    · exact ⟨_,by rw [← Option.some.inj hq,← Option.some.inj hwrite,setBlock_same]⟩
    · exact absurd hwrite (by simp)
  obtain ⟨l,hl⟩ := hvalid p rfl
  have hgone : r.1 = none → d.ret ≠ .ok ∧ d.vec ≠ v := fun hr => by
    simp only [hr,Option.some.injEq] at hd
    exact hd ▸ ⟨by simp,hnull _⟩
  by_cases hfail : o = .fail
  · subst hfail
    obtain ⟨h',hnone⟩ := realloc_fail (k := k) h₁ hvalid (size k (v.len - int32 n))
    rw [hrun,Option.some.injEq] at hnone
    exact Or.inl (hgone (by rw [hnone]))
  by_cases hlast : size k (v.len - int32 n) = 0
  · rw [hlast,realloc_zero hl,Option.some.injEq] at hrun
    exact Or.inl (hgone (by rw [← hrun]))
  · have hwide : 2 ^ 31 ≤ n := by
      rcases hbad.resolve_left hfail with hint | hall
      · exact hint
      · by_contra hlt
        rw [hsize,hle.2 (by omega)] at hlast
        omega
    cases hr : r.1 with
    | none => exact Or.inl (hgone hr)
    | some q =>
      simp only [hr] at hd
      rw [if_neg (by omega),Option.some.injEq] at hd
      refine Or.inr (hd ▸ ⟨rfl,?_⟩)
      change size k (v.len - int32 n) ≠ v.len - n
      rw [hsize]
      omega

theorem deleteAt_iff (hv : Holds k h v es) {pre post : List (List UInt8)} {e : List UInt8} (hes : es = pre ++ e :: post)
    (hp : v.argz = some p) :
    (∃ d, deleteAt k h v p (joined 0 pre).length o = some d ∧ Sound k h v es (pre ++ post) d) ↔
      o ≠ .fail ∧ e.length + 1 < 2 ^ 31 ∧ pre ++ post ≠ [] := by
  have hparts : joined 0 es = joined 0 pre ++ ((e ++ [0]) ++ joined 0 post) := by
    rw [hes,joined_append,joined_cons,List.append_assoc]
    rfl
  have hlen : entryLength (joined 0 es) (joined 0 pre).length + 1 = (e ++ [0]).length := by
    rw [hparts,List.append_assoc e,List.singleton_append,entryLength_start (hv.plain e (by rw [hes]; simp))]
    simp
  have hone : (e ++ [0]).length = e.length + 1 := List.length_append
  have hvlen : v.len = (joined 0 (pre ++ post)).length + (e.length + 1) := by
    rw [hv.len,hparts,joined_append]
    simp only [List.length_append,List.length_singleton]
    omega
  constructor
  · rintro ⟨d,hd,hs⟩
    by_contra hcond
    have hbad : o = .fail ∨ 2 ^ 31 ≤ (e ++ [0]).length ∨ v.len = (e ++ [0]).length := by
      by_contra hgood
      push Not at hgood
      refine hcond ⟨hgood.1,hone ▸ hgood.2.1,fun hnil => hgood.2.2 ?_⟩
      rw [hone,hvlen,hnil,joined_nil,List.length_nil,Nat.zero_add]
    have hinside : (joined 0 pre).length + (e ++ [0]).length ≤ v.len := by
      rw [hvlen,hone,joined_append,List.length_append]
      omega
    rcases deleteAt_bad hv hp hlen hinside hbad hd with ⟨hret,hvec⟩ | ⟨hret,hleft⟩
    · exact hvec (hs.kept hret).1
    · refine hleft ((hs.ok hret).len.trans ?_)
      rw [hvlen,hone,Nat.add_sub_cancel]
  · rintro ⟨ho,hint,hrest⟩
    have hjoined : joined 0 (pre ++ post) = joined 0 pre ++ joined 0 post := joined_append 0 pre post
    obtain ⟨q,h',hrun,hblock,hswap⟩ := deleteAt_ok hv hparts hp hlen ho (hone ▸ hint) (hjoined ▸ joined_ne_nil hrest)
    have hfits := hv.fits
    refine ⟨_,hrun,fun _ => holds_of_block (fun x hx => hv.plain x ?_) hrest (hjoined ▸ hblock) ?_ (by omega),
      fun hret => absurd rfl hret,hswap⟩
    · rw [hes]
      simp only [List.mem_append,List.mem_cons] at hx ⊢
      tauto
    · rw [hvlen,hone,Nat.add_sub_cancel]

end

end Argz
