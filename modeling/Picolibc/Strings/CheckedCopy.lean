import Mathlib
import Picolibc.Lib.ByteSlices

namespace CheckedCopy

open ByteMemory

structure Buf where
  mem : Mem
  stores : List Nat

def Buf.put (b : Buf) (a : Nat) (c : UInt8) : Buf := ⟨Function.update b.mem a c,b.stores ++ [a]⟩

@[simp] theorem put_mem (b : Buf) (x : Nat) (c : UInt8) : (b.put x c).mem x = c := Function.update_self ..

theorem put_other (b : Buf) {x y : Nat} (h : y ≠ x) (c : UInt8) : (b.put x c).mem y = b.mem y :=
  Function.update_of_ne h ..

inductive Exit where
  | overlap
  | left (c : UInt8) (written : Nat)

def copyLoop (checkS1 : Bool) (overlapPoint : Nat) : Nat → Nat → Nat → Nat → UInt8 → Buf → Exit × Buf
  | 0, _, _, written, c, b => (.left c written,b)
  | k + 1, s1cp, s2cp, written, _, b =>
    if (if checkS1 then s1cp else s2cp) = overlapPoint then (.overlap,b)
    else
      let c := b.mem s2cp
      let b := b.put s1cp c
      if c = 0 then (.left c (written + 1),b)
      else copyLoop checkS1 overlapPoint k (s1cp + 1) (s2cp + 1) (written + 1) c b

structure Texts where
  overlap : String
  insufficient : String

def limit (room : Nat) : Option Nat → Nat
  | none => room
  | some n => min room n

def boundedCopy (t : Texts) (checkS1 : Bool) (overlapPoint room : Nat) (n : Option Nat) (s1cp s2 : Nat) (b : Buf) :
    Option String × Buf :=
  match copyLoop checkS1 overlapPoint (limit room n) s1cp s2 0 46 b with
  | (.overlap,b) => (some t.overlap,b)
  | (.left c written,b) =>
    if c ≠ 0 ∧ n = some written ∧ written < room then
      if checkS1 ∧ s1cp + written = overlapPoint then (some t.overlap,b) else (none,b.put (s1cp + written) 0)
    else if c ≠ 0 then (some t.insufficient,b)
    else (none,b)

structure Outcome where
  ret : Int
  msg : Option String
  buf : Buf

def handleError (writeNull : Bool) (s1 : Nat) (msg : String) (b : Buf) : Outcome :=
  ⟨-1,some msg,if writeNull ∧ s1 ≠ 0 then b.put s1 0 else b⟩

def finish (s1 : Nat) : Option String × Buf → Outcome
  | (none,b) => ⟨0,none,b⟩
  | (some msg,b) => handleError true s1 msg b

def scanNul (m : Mem) : Nat → Nat → Nat
  | _, 0 => 0
  | s, k + 1 => if m s = 0 then 0 else scanNul m (s + 1) k + 1

def strnlenS (m : Mem) (s maxsize : Nat) : Nat := if s = 0 then 0 else scanNul m s maxsize

def strcpyTexts : Texts := ⟨"strcpy_s: overlapping copy","strcpy_s: dest buffer size insufficent to copy string"⟩

def strcpyS (m : Mem) (s1 s1max s2 : Nat) : Outcome :=
  let b : Buf := ⟨m,[]⟩
  if s1 = 0 then handleError false s1 "strcpy_s: dest is NULL" b
  else if s1max = 0 then handleError false s1 "strcpy_s: dest buffer size is 0 or exceeds RSIZE_MAX" b
  else if s2 = 0 then handleError true s1 "strcpy_s: source is NULL" b
  else if s1 < s2 then finish s1 (boundedCopy strcpyTexts true s2 s1max none s1 s2 b)
  else finish s1 (boundedCopy strcpyTexts false s1 s1max none s1 s2 b)

def strncpyTexts : Texts := ⟨"strncpy_s: overlapping copy","strncpy_s: dest buffer size insufficent to copy string"⟩

def strncpyS (m : Mem) (s1 s1max s2 n : Nat) : Outcome :=
  let b : Buf := ⟨m,[]⟩
  if s1 = 0 then handleError false s1 "strncpy_s: dest is NULL" b
  else if s1max = 0 then handleError false s1 "strncpy_s: dest buffer size is 0 or exceeds RSIZE_MAX" b
  else if s2 = 0 then handleError true s1 "strncpy_s: source is NULL" b
  else if s1 < s2 then finish s1 (boundedCopy strncpyTexts true s2 s1max (some n) s1 s2 b)
  else finish s1 (boundedCopy strncpyTexts false s1 s1max (some n) s1 s2 b)

def strcatTexts : Texts := ⟨"strcat_s: overlapping copy","strcat_s: dest buffer size insufficent to append string"⟩

def strcatS (m : Mem) (s1 s1max s2 : Nat) : Outcome :=
  let b : Buf := ⟨m,[]⟩
  if s1 = 0 then handleError false s1 "strcat_s: dest is NULL" b
  else if s1max = 0 then handleError false s1 "strcat_s: dest buffer size is 0 or exceeds RSIZE_MAX" b
  else if s2 = 0 then handleError true s1 "strcat_s: source is NULL" b
  else
    let s1Len := strnlenS m s1 s1max
    if s1Len = s1max then handleError true s1 "strcat_s: string 1 length exceeds buffer size" b
    else if s1 ≤ s2 then
      if s2 ≤ s1 + s1Len then handleError true s1 strcatTexts.overlap b
      else finish s1 (boundedCopy strcatTexts true s2 (s1max - s1Len) none (s1 + s1Len) s2 b)
    else finish s1 (boundedCopy strcatTexts false s1 (s1max - s1Len) none (s1 + s1Len) s2 b)

def strncatTexts : Texts := ⟨"strncat_s: overlapping copy","strncat_s: dest buffer size insufficent to copy string"⟩

def strncatS (m : Mem) (s1 s1max s2 n : Nat) : Outcome :=
  let b : Buf := ⟨m,[]⟩
  let s1Len := strnlenS m s1 s1max
  if s1 = 0 then handleError false s1 "strncat_s: dest is NULL" b
  else if s1max = 0 then handleError false s1 "strncat_s: dest buffer size is 0 or exceeds RSIZE_MAX" b
  else if s2 = 0 then handleError true s1 "strncat_s: source is NULL" b
  else if s1Len = s1max then handleError true s1 "strncat_s: string 1 length exceeds buffer size" b
  else if s1 ≤ s2 then
    if s2 ≤ s1 + s1Len then handleError true s1 strncatTexts.overlap b
    else finish s1 (boundedCopy strncatTexts true s2 (s1max - s1Len) (some n) (s1 + s1Len) s2 b)
  else finish s1 (boundedCopy strncatTexts false s1 (s1max - s1Len) (some n) (s1 + s1Len) s2 b)

structure Takes (m : Mem) (s2 : Nat) (n : Option Nat) (k : Nat) : Prop where
  chars : ∀ i < k, m (s2 + i) ≠ 0
  stops : n = some k ∨ m (s2 + k) = 0 ∧ ∀ j, n = some j → k < j

def bytesRead (n : Option Nat) (k : Nat) : Nat := if n = some k then k else k + 1

structure Args where
  s1 : Nat
  s1max : Nat
  s2 : Nat
  n : Nat
  s1_nonnull : s1 ≠ 0
  s2_nonnull : s2 ≠ 0
  s1max_pos : 0 < s1max
  s1max_lt : s1max < 2 ^ 32
  n_lt : n < 2 ^ 32

structure Result (m : Mem) (a : Args) (n : Option Nat) (s1Len k : Nat) : Prop where
  takes : Takes m a.s2 n k
  fits : s1Len + k + 1 ≤ a.s1max
  apart : ∀ x, a.s2 ≤ x → x < a.s2 + bytesRead n k → ¬(a.s1 ≤ x ∧ x < a.s1 + s1Len + k + 1)

structure Keeps (m : Mem) (a : Args) (s1Len : Nat) (good : Nat → Prop) (o : Outcome) : Prop where
  inside : ∀ x ∈ o.buf.stores, a.s1 ≤ x ∧ x < a.s1 + a.s1max
  outside : ∀ x, x < a.s1 ∨ a.s1 + a.s1max ≤ x → o.buf.mem x = m x
  zero : o.ret = 0 ↔ ∃ k, good k
  holds : ∀ k, good k → slice o.buf.mem a.s1 (s1Len + k + 1) = slice m a.s1 s1Len ++ (slice m a.s2 k ++ [0])
  fails : (¬∃ k, good k) → o.buf.mem a.s1 = 0

structure Layout (checkS1 : Bool) (overlapPoint dst src d : Nat) : Prop where
  ahead : checkS1 = true → overlapPoint = src ∧ src = dst + d ∧ 0 < d
  behind : checkS1 = false → overlapPoint = src + d ∧ src + d ≤ dst

def stage (m : Mem) (dst src j : Nat) : Buf := ⟨copy m dst src j,(List.range j).map (dst + ·)⟩

variable {checkS1 : Bool} {overlapPoint dst src d room : Nat} {n : Option Nat} {m : Mem} {t : Texts}

theorem Layout.hit (h : Layout checkS1 overlapPoint dst src d) (j : Nat) :
    (if checkS1 then dst + j else src + j) = overlapPoint ↔ j = d := by
  cases checkS1 with
  | true =>
    obtain ⟨hp,hs,-⟩ := h.ahead rfl
    simp only [if_true]
    omega
  | false =>
    obtain ⟨hp,-⟩ := h.behind rfl
    simp only [Bool.false_eq_true,if_false]
    omega

theorem Layout.unread (h : Layout checkS1 overlapPoint dst src d) {j : Nat} (hj : j < d) :
    copy m dst src j (src + j) = m (src + j) := by
  refine copy_apart ?_
  cases checkS1 with
  | true =>
    obtain ⟨-,hs,-⟩ := h.ahead rfl
    omega
  | false =>
    obtain ⟨-,hs⟩ := h.behind rfl
    omega

theorem stage_succ (m : Mem) (dst src j : Nat) : (stage m dst src j).put (dst + j) (m (src + j)) = stage m dst src (j + 1) := by
  have hmem : Function.update (copy m dst src j) (dst + j) (m (src + j)) = copy m dst src (j + 1) := by
    funext x
    by_cases hx : x = dst + j
    · subst hx
      rw [Function.update_self,copy_inside (Nat.lt_succ_self j)]
    · rw [Function.update_of_ne hx]
      by_cases hin : dst ≤ x ∧ x < dst + j
      · obtain ⟨i,rfl⟩ := Nat.exists_eq_add_of_le hin.1
        rw [copy_inside (by omega),copy_inside (by omega)]
      · rw [copy_apart (by omega),copy_apart (by omega)]
  simp only [Buf.put,stage,hmem,List.range_succ,List.map_append,List.map_singleton]

theorem copyLoop_reaches (h : Layout checkS1 overlapPoint dst src d) {j : Nat} (hj : j ≤ d)
    (hchars : ∀ i < j, m (src + i) ≠ 0) (k : Nat) :
    ∃ c ≠ 0, copyLoop checkS1 overlapPoint (j + k) dst src 0 46 ⟨m,[]⟩ =
      copyLoop checkS1 overlapPoint k (dst + j) (src + j) j c (stage m dst src j) := by
  induction j generalizing k with
  | zero =>
    have hstart : stage m dst src 0 = ⟨m,[]⟩ := by
      simp only [stage,List.range_zero,List.map_nil,Buf.mk.injEq,and_true]
      funext x
      exact copy_apart (by omega)
    refine ⟨46,by decide,?_⟩
    rw [hstart,Nat.zero_add,Nat.add_zero,Nat.add_zero]
  | succ j ih =>
    obtain ⟨c,-,hc⟩ := ih (by omega) (fun i hi => hchars i (by omega)) (k + 1)
    have hmiss : ¬(if checkS1 then dst + j else src + j) = overlapPoint := by
      rw [h.hit]
      omega
    refine ⟨m (src + j),hchars j (Nat.lt_succ_self j),?_⟩
    rw [show j + 1 + k = j + (k + 1) by omega,hc,copyLoop,if_neg hmiss]
    simp only [show (stage m dst src j).mem (src + j) = m (src + j) from h.unread (by omega),
      if_neg (hchars j (Nat.lt_succ_self j)),stage_succ]
    rfl

theorem copyLoop_stops (h : Layout checkS1 overlapPoint dst src d) {z l : Nat} (hz : z < d) (hl : z < l)
    (hchars : ∀ i < z, m (src + i) ≠ 0) (hnul : m (src + z) = 0) :
    copyLoop checkS1 overlapPoint l dst src 0 46 ⟨m,[]⟩ = (.left 0 (z + 1),stage m dst src (z + 1)) := by
  obtain ⟨c,-,hc⟩ := copyLoop_reaches h hz.le hchars (l - z)
  rw [Nat.add_sub_cancel' hl.le] at hc
  have hmiss : ¬(if checkS1 then dst + z else src + z) = overlapPoint := by
    rw [h.hit]
    omega
  obtain ⟨k,hk⟩ : ∃ k, l - z = k + 1 := ⟨l - z - 1,by omega⟩
  rw [hc,hk,copyLoop,if_neg hmiss]
  simp only [show (stage m dst src z).mem (src + z) = m (src + z) from h.unread hz,if_pos hnul,stage_succ]
  rw [hnul]

theorem copyLoop_overlaps (h : Layout checkS1 overlapPoint dst src d) {l : Nat} (hd : d < l)
    (hchars : ∀ i < d, m (src + i) ≠ 0) :
    copyLoop checkS1 overlapPoint l dst src 0 46 ⟨m,[]⟩ = (.overlap,stage m dst src d) := by
  obtain ⟨c,-,hc⟩ := copyLoop_reaches h (le_refl d) hchars (l - d)
  rw [Nat.add_sub_cancel' hd.le] at hc
  obtain ⟨k,hk⟩ : ∃ k, l - d = k + 1 := ⟨l - d - 1,by omega⟩
  rw [hc,hk,copyLoop,if_pos ((h.hit d).mpr rfl)]

theorem copyLoop_fills (h : Layout checkS1 overlapPoint dst src d) {l : Nat} (hd : l ≤ d)
    (hchars : ∀ i < l, m (src + i) ≠ 0) :
    ∃ c ≠ 0, copyLoop checkS1 overlapPoint l dst src 0 46 ⟨m,[]⟩ = (.left c l,stage m dst src l) := by
  obtain ⟨c,hc,hrun⟩ := copyLoop_reaches h hd hchars 0
  exact ⟨c,hc,hrun⟩

theorem scanNul_spec (m : Mem) (s k : Nat) :
    scanNul m s k ≤ k ∧ (∀ i < scanNul m s k, m (s + i) ≠ 0) ∧
      (scanNul m s k < k → m (s + scanNul m s k) = 0) := by
  induction k generalizing s with
  | zero => exact ⟨le_rfl,fun i hi => absurd hi (Nat.not_lt_zero i),fun h => absurd h (lt_irrefl 0)⟩
  | succ k ih =>
    rw [scanNul]
    by_cases h0 : m s = 0
    · rw [if_pos h0]
      exact ⟨Nat.zero_le _,fun i hi => absurd hi (Nat.not_lt_zero i),fun _ => h0⟩
    · rw [if_neg h0]
      obtain ⟨hle,hchars,hstop⟩ := ih (s + 1)
      refine ⟨by omega,?_,fun h => ?_⟩
      · intro i hi
        cases i with
        | zero => exact h0
        | succ i =>
          have := hchars i (by omega)
          rwa [show s + (i + 1) = s + 1 + i by omega]
      · have := hstop (by omega)
        rwa [show s + (scanNul m (s + 1) k + 1) = s + 1 + scanNul m (s + 1) k by omega]

theorem limit_le_room (room : Nat) (n : Option Nat) : limit room n ≤ room := by
  cases n with
  | none => exact le_rfl
  | some n => exact min_le_left room n

theorem lt_limit {k : Nat} (hroom : k < room) (hn : ∀ j, n = some j → k < j) : k < limit room n := by
  cases n with
  | none => exact hroom
  | some n => exact lt_min hroom (hn n rfl)

def Clear (checkS1 : Bool) (n : Option Nat) (d k : Nat) : Prop :=
  if checkS1 then k + 1 ≤ d else bytesRead n k ≤ d

theorem boundedCopy_good (h : Layout checkS1 overlapPoint dst src d) {k : Nat} (hk : Takes m src n k)
    (hroom : k + 1 ≤ room) (hclear : Clear checkS1 n d k) :
    boundedCopy t checkS1 overlapPoint room n dst src ⟨m,[]⟩ = (none,(stage m dst src k).put (dst + k) 0) := by
  rcases hk.stops with hn | ⟨hnul,hn⟩
  · have hlim : limit room n = k := by
      rw [hn]
      exact min_eq_right (by omega)
    have hle : k ≤ d := by
      cases checkS1 with
      | true => exact Nat.le_of_succ_le hclear
      | false => simpa [Clear,bytesRead,hn] using hclear
    have hmiss : ¬(checkS1 = true ∧ dst + k = overlapPoint) := by
      rintro ⟨rfl,hp⟩
      obtain ⟨hpoint,hs,-⟩ := h.ahead rfl
      have : k + 1 ≤ d := hclear
      omega
    obtain ⟨c,hc,hrun⟩ := copyLoop_fills h hle hk.chars
    rw [boundedCopy,hlim,hrun]
    simp only [if_pos (show c ≠ 0 ∧ n = some k ∧ k < room from ⟨hc,hn,hroom⟩),if_neg hmiss]
  · have hne : n ≠ some k := fun he => lt_irrefl k (hn k he)
    have hlt : k < d := by
      cases checkS1 with
      | true => exact hclear
      | false => simpa [Clear,bytesRead,hne] using hclear
    rw [boundedCopy,copyLoop_stops h hlt (lt_limit hroom hn) hk.chars hnul,← stage_succ,hnul]
    simp

theorem boundedCopy_bad (h : Layout checkS1 overlapPoint dst src d)
    (hbad : ¬∃ k, Takes m src n k ∧ k + 1 ≤ room ∧ Clear checkS1 n d k) :
    ∃ msg, ∃ j ≤ room, boundedCopy t checkS1 overlapPoint room n dst src ⟨m,[]⟩ = (some msg,stage m dst src j) := by
  have hlim := limit_le_room room n
  obtain ⟨hle,hchars,hstop⟩ := scanNul_spec m src (min (limit room n) d)
  generalize scanNul m src (min (limit room n) d) = z at hle hchars hstop
  rcases Nat.lt_or_ge z (min (limit room n) d) with hz | hz
  · obtain ⟨hzl,hzd⟩ := lt_min_iff.mp hz
    have hn : ∀ j, n = some j → z < j := by
      rintro j rfl
      exact lt_of_lt_of_le hzl (min_le_right _ _)
    have hne : n ≠ some z := fun he => lt_irrefl z (hn z he)
    refine absurd ⟨z,⟨hchars,Or.inr ⟨hstop hz,hn⟩⟩,by omega,?_⟩ hbad
    cases checkS1 with
    | true => exact hzd
    | false => simpa [Clear,bytesRead,hne] using hzd
  · rcases Nat.lt_or_ge d (limit room n) with hd | hd
    · rw [min_eq_right hd.le] at hz
      refine ⟨t.overlap,d,by omega,?_⟩
      rw [boundedCopy,copyLoop_overlaps h hd (fun i hi => hchars i (by omega))]
    · rw [min_eq_left hd] at hz
      obtain ⟨c,hc,hrun⟩ := copyLoop_fills h hd (fun i hi => hchars i (by omega))
      rw [boundedCopy,hrun]
      by_cases hend : n = some (limit room n) ∧ limit room n < room
      · simp only [if_pos (show c ≠ 0 ∧ n = some (limit room n) ∧ limit room n < room from ⟨hc,hend⟩)]
        by_cases hhit : checkS1 = true ∧ dst + limit room n = overlapPoint
        · exact ⟨t.overlap,limit room n,hlim,by rw [if_pos hhit]⟩
        · refine absurd ⟨limit room n,⟨fun i hi => hchars i (by omega),Or.inl hend.1⟩,hend.2,?_⟩ hbad
          cases checkS1 with
          | true =>
            obtain ⟨hp,hs,-⟩ := h.ahead rfl
            have : limit room n ≠ d := fun he => hhit ⟨rfl,by omega⟩
            change limit room n + 1 ≤ d
            omega
          | false =>
            rw [Clear,bytesRead,if_pos hend.1]
            exact hd
      · refine ⟨t.insufficient,limit room n,hlim,?_⟩
        simp only [if_neg (show ¬(c ≠ 0 ∧ n = some (limit room n) ∧ limit room n < room) from fun hx => hend hx.2),if_pos hc]

structure Only (m : Mem) (lo hi : Nat) (b : Buf) : Prop where
  inside : ∀ x ∈ b.stores, lo ≤ x ∧ x < hi
  outside : ∀ x, x < lo ∨ hi ≤ x → b.mem x = m x

theorem Only.put {lo hi : Nat} {b : Buf} (h : Only m lo hi b) {x : Nat} (hx : lo ≤ x ∧ x < hi) (c : UInt8) :
    Only m lo hi (b.put x c) where
  inside y hy := by
    rcases List.mem_append.mp hy with hy | hy
    · exact h.inside y hy
    · rw [List.mem_singleton.mp hy]
      exact hx
  outside y hy := by
    rw [put_other _ (by omega)]
    exact h.outside y hy

theorem untouched_only (m : Mem) (lo hi : Nat) : Only m lo hi ⟨m,[]⟩ :=
  ⟨fun x hx => absurd hx List.not_mem_nil,fun _ _ => rfl⟩

theorem stage_only {lo hi j : Nat} (hlo : lo ≤ dst) (hhi : dst + j ≤ hi) : Only m lo hi (stage m dst src j) where
  inside _ hx := by
    obtain ⟨i,hi',rfl⟩ := List.mem_map.mp hx
    have := List.mem_range.mp hi'
    constructor <;> omega
  outside x hx := copy_apart (by omega)

theorem error_keeps {a : Args} {s1Len : Nat} {good : Nat → Prop} {b : Buf} (hb : Only m a.s1 (a.s1 + a.s1max) b)
    (hbad : ¬∃ k, good k) (msg : String) : Keeps m a s1Len good (handleError true a.s1 msg b) := by
  have hbuf : (handleError true a.s1 msg b).buf = b.put a.s1 0 := if_pos ⟨rfl,a.s1_nonnull⟩
  have hpos := a.s1max_pos
  have honly := hb.put (x := a.s1) (by omega) 0
  refine ⟨?_,?_,?_,fun k hk => absurd ⟨k,hk⟩ hbad,fun _ => ?_⟩
  · rw [hbuf]
    exact honly.inside
  · rw [hbuf]
    exact honly.outside
  · exact iff_of_false (by simp [handleError]) hbad
  · rw [hbuf,put_mem]

theorem Takes.unique {k k' : Nat} (h : Takes m src n k) (h' : Takes m src n k') : k = k' := by
  have hle : ∀ {k k' : Nat}, Takes m src n k → Takes m src n k' → ¬k < k' := by
    intro k k' h h' hlt
    rcases h.stops with hn | ⟨hnul,-⟩
    · rcases h'.stops with hn' | ⟨-,hn'⟩
      · rw [hn] at hn'
        exact absurd (Option.some.inj hn') hlt.ne
      · exact absurd (hn' k hn) (by omega)
    · exact h'.chars k hlt hnul
  have h1 := hle h h'
  have h2 := hle h' h
  omega

theorem copied_slice (m : Mem) (s1 s1Len src k : Nat) :
    slice ((stage m (s1 + s1Len) src k).put (s1 + s1Len + k) 0).mem s1 (s1Len + k + 1) =
      slice m s1 s1Len ++ (slice m src k ++ [0]) := by
  rw [slice_succ,slice_add,List.append_assoc]
  congr 1
  · refine slice_congr (fun i hi => ?_)
    rw [put_other _ (by omega)]
    exact copy_apart (by omega)
  · congr 1
    · refine slice_congr (fun i hi => ?_)
      rw [put_other _ (by omega)]
      exact copy_inside hi
    · rw [← Nat.add_assoc,put_mem]

theorem finish_keeps {a : Args} {s1Len : Nat} {good : Nat → Prop} (hlen : s1Len < a.s1max)
    (h : Layout checkS1 overlapPoint (a.s1 + s1Len) a.s2 d)
    (hgood : ∀ k, good k ↔ Takes m a.s2 n k ∧ k + 1 ≤ a.s1max - s1Len ∧ Clear checkS1 n d k) :
    Keeps m a s1Len good
      (finish a.s1 (boundedCopy t checkS1 overlapPoint (a.s1max - s1Len) n (a.s1 + s1Len) a.s2 ⟨m,[]⟩)) := by
  by_cases hex : ∃ k, good k
  · obtain ⟨k,hk⟩ := hex
    obtain ⟨htakes,hroom,hclear⟩ := (hgood k).mp hk
    rw [boundedCopy_good h htakes hroom hclear]
    have honly : Only m a.s1 (a.s1 + a.s1max) ((stage m (a.s1 + s1Len) a.s2 k).put (a.s1 + s1Len + k) 0) :=
      (stage_only (by omega) (by omega)).put (by omega) 0
    refine ⟨honly.inside,honly.outside,iff_of_true rfl ⟨k,hk⟩,fun k' hk' => ?_,fun hno => absurd ⟨k,hk⟩ hno⟩
    rw [← htakes.unique ((hgood k').mp hk').1]
    exact copied_slice m a.s1 s1Len a.s2 k
  · have hbad : ¬∃ k, Takes m a.s2 n k ∧ k + 1 ≤ a.s1max - s1Len ∧ Clear checkS1 n d k :=
      fun ⟨k,hk⟩ => hex ⟨k,(hgood k).mpr hk⟩
    obtain ⟨msg,j,hj,hrun⟩ := boundedCopy_bad (t := t) h hbad
    rw [hrun]
    exact error_keeps (stage_only (by omega) (by omega)) hex msg

theorem ahead_layout {a : Args} {s1Len : Nat} (h : a.s1 + s1Len < a.s2) :
    Layout true a.s2 (a.s1 + s1Len) a.s2 (a.s2 - (a.s1 + s1Len)) :=
  ⟨fun _ => ⟨rfl,by omega,by omega⟩,fun he => absurd he (by decide)⟩

theorem behind_layout {a : Args} (s1Len : Nat) (h : a.s2 ≤ a.s1) :
    Layout false a.s1 (a.s1 + s1Len) a.s2 (a.s1 - a.s2) :=
  ⟨fun he => absurd he (by decide),fun _ => ⟨by omega,by omega⟩⟩

theorem ahead_good {a : Args} {s1Len : Nat} (hlen : s1Len < a.s1max) (h : a.s1 + s1Len < a.s2) (k : Nat) :
    Result m a n s1Len k ↔
      Takes m a.s2 n k ∧ k + 1 ≤ a.s1max - s1Len ∧ Clear true n (a.s2 - (a.s1 + s1Len)) k := by
  have hclear : Clear true n (a.s2 - (a.s1 + s1Len)) k ↔ k + 1 ≤ a.s2 - (a.s1 + s1Len) := Iff.rfl
  rw [hclear]
  constructor
  · rintro ⟨htakes,hfits,hapart⟩
    refine ⟨htakes,by omega,?_⟩
    by_contra hover
    have hread : ¬0 < bytesRead n k := fun hpos => hapart a.s2 le_rfl (by omega) (by omega)
    have hk : k = 0 := by
      rw [bytesRead] at hread
      split at hread <;> omega
    omega
  · rintro ⟨htakes,hfits,hover⟩
    exact ⟨htakes,by omega,fun x _ _ => by omega⟩

theorem behind_good {a : Args} {s1Len : Nat} (hlen : s1Len < a.s1max) (h : a.s2 ≤ a.s1) (k : Nat) :
    Result m a n s1Len k ↔ Takes m a.s2 n k ∧ k + 1 ≤ a.s1max - s1Len ∧ Clear false n (a.s1 - a.s2) k := by
  have hclear : Clear false n (a.s1 - a.s2) k ↔ bytesRead n k ≤ a.s1 - a.s2 := Iff.rfl
  rw [hclear]
  constructor
  · rintro ⟨htakes,hfits,hapart⟩
    refine ⟨htakes,by omega,?_⟩
    by_contra hover
    exact hapart a.s1 h (by omega) (by omega)
  · rintro ⟨htakes,hfits,hover⟩
    exact ⟨htakes,by omega,fun x _ _ => by omega⟩

theorem strnlenS_le (m : Mem) (s k : Nat) : strnlenS m s k ≤ k := by
  rw [strnlenS]
  split
  · exact Nat.zero_le k
  · exact (scanNul_spec m s k).1

theorem strcpyS_keeps (m : Mem) (a : Args) : Keeps m a 0 (Result m a none 0) (strcpyS m a.s1 a.s1max a.s2) := by
  have hpos := a.s1max_pos
  rw [strcpyS]
  simp only [if_neg a.s1_nonnull,if_neg a.s1max_pos.ne',if_neg a.s2_nonnull]
  split
  · exact finish_keeps hpos (ahead_layout (by omega)) (ahead_good hpos (by omega))
  · exact finish_keeps hpos (behind_layout 0 (by omega)) (behind_good hpos (by omega))

theorem strncpyS_keeps (m : Mem) (a : Args) :
    Keeps m a 0 (Result m a (some a.n) 0) (strncpyS m a.s1 a.s1max a.s2 a.n) := by
  have hpos := a.s1max_pos
  rw [strncpyS]
  simp only [if_neg a.s1_nonnull,if_neg a.s1max_pos.ne',if_neg a.s2_nonnull]
  split
  · exact finish_keeps hpos (ahead_layout (by omega)) (ahead_good hpos (by omega))
  · exact finish_keeps hpos (behind_layout 0 (by omega)) (behind_good hpos (by omega))

def InsideS1 (m : Mem) (a : Args) : Prop := a.s1 ≤ a.s2 ∧ a.s2 ≤ a.s1 + strnlenS m a.s1 a.s1max

theorem full_fails (m : Mem) (a : Args) (h : strnlenS m a.s1 a.s1max = a.s1max) (n : Option Nat) (k : Nat) :
    ¬Result m a n (strnlenS m a.s1 a.s1max) k := by
  intro hr
  have := hr.fits
  omega

theorem inside_fails {a : Args} {k : Nat} (h : InsideS1 m a) (hread : 0 < bytesRead n k) :
    ¬Result m a n (strnlenS m a.s1 a.s1max) k := by
  intro hr
  obtain ⟨h1,h2⟩ := h
  exact hr.apart a.s2 le_rfl (by omega) ⟨h1,by omega⟩

theorem strcatS_keeps (m : Mem) (a : Args) :
    Keeps m a (strnlenS m a.s1 a.s1max) (Result m a none (strnlenS m a.s1 a.s1max)) (strcatS m a.s1 a.s1max a.s2) := by
  have hle := strnlenS_le m a.s1 a.s1max
  have huntouched := untouched_only m a.s1 (a.s1 + a.s1max)
  rw [strcatS]
  simp only [if_neg a.s1_nonnull,if_neg a.s1max_pos.ne',if_neg a.s2_nonnull]
  split
  · rename_i hfull
    exact error_keeps huntouched (fun ⟨k,hk⟩ => full_fails m a hfull none k hk) _
  rename_i hfull
  split
  · rename_i hs
    split
    · rename_i hin
      exact error_keeps huntouched (fun ⟨k,hk⟩ => inside_fails ⟨hs,hin⟩ (by simp [bytesRead]) hk) _
    · exact finish_keeps (by omega) (ahead_layout (by omega)) (ahead_good (by omega) (by omega))
  · exact finish_keeps (by omega) (behind_layout _ (by omega)) (behind_good (by omega) (by omega))

theorem strncatS_keeps (m : Mem) (a : Args) :
    Keeps m a (strnlenS m a.s1 a.s1max)
      (fun k => Result m a (some a.n) (strnlenS m a.s1 a.s1max) k ∧ ¬(a.n = 0 ∧ InsideS1 m a))
      (strncatS m a.s1 a.s1max a.s2 a.n) := by
  have hle := strnlenS_le m a.s1 a.s1max
  have huntouched := untouched_only m a.s1 (a.s1 + a.s1max)
  rw [strncatS]
  simp only [if_neg a.s1_nonnull,if_neg a.s1max_pos.ne',if_neg a.s2_nonnull]
  split
  · rename_i hfull
    exact error_keeps huntouched (fun ⟨k,hk⟩ => full_fails m a hfull _ k hk.1) _
  rename_i hfull
  split
  · rename_i hs
    split
    · rename_i hin
      refine error_keeps huntouched (fun ⟨k,hk⟩ => ?_) _
      have hn : a.n ≠ 0 := fun h0 => hk.2 ⟨h0,hs,hin⟩
      refine inside_fails ⟨hs,hin⟩ ?_ hk.1
      rw [bytesRead]
      split
      · rename_i he
        have := Option.some.inj he
        omega
      · omega
    · rename_i hin
      refine finish_keeps (by omega) (ahead_layout (by omega)) (fun k => ?_)
      rw [← ahead_good (by omega) (by omega)]
      exact and_iff_left (fun h => hin h.2.2)
  · rename_i hs
    refine finish_keeps (by omega) (behind_layout _ (by omega)) (fun k => ?_)
    rw [← behind_good (by omega) (by omega)]
    exact and_iff_left (fun h => hs h.2.1)

theorem checked_functions (m : Mem) (a : Args) :
    Keeps m a 0 (Result m a none 0) (strcpyS m a.s1 a.s1max a.s2) ∧
    Keeps m a 0 (Result m a (some a.n) 0) (strncpyS m a.s1 a.s1max a.s2 a.n) ∧
    Keeps m a (strnlenS m a.s1 a.s1max) (Result m a none (strnlenS m a.s1 a.s1max)) (strcatS m a.s1 a.s1max a.s2) ∧
    Keeps m a (strnlenS m a.s1 a.s1max)
      (fun k => Result m a (some a.n) (strnlenS m a.s1 a.s1max) k ∧ ¬(a.n = 0 ∧ InsideS1 m a))
      (strncatS m a.s1 a.s1max a.s2 a.n) :=
  ⟨strcpyS_keeps m a,strncpyS_keeps m a,strcatS_keeps m a,strncatS_keeps m a⟩

def selfArgs : Args := ⟨1,4,1,0,by decide,by decide,by decide,by decide,by decide⟩

theorem empty_append_refused :
    ¬ ∀ (m : Mem) (a : Args), Keeps m a (strnlenS m a.s1 a.s1max) (Result m a (some a.n) (strnlenS m a.s1 a.s1max))
      (strncatS m a.s1 a.s1max a.s2 a.n) := by
  intro h
  have hlen : strnlenS (fun _ => 0) 1 4 = 0 := rfl
  have hgood : Result (fun _ => 0) selfArgs (some 0) 0 0 :=
    ⟨⟨fun i hi => absurd hi (Nat.not_lt_zero i),Or.inl rfl⟩,by decide,fun x h1 h2 => by simp [bytesRead] at h2; omega⟩
  have hzero := (h (fun _ => 0) selfArgs).zero.mpr ⟨0,hgood⟩
  exact absurd hzero (by decide)

end CheckedCopy
