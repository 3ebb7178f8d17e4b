import Mathlib
import Picolibc.Lib.ByteSlices
import Picolibc.Lib.RangeSort

namespace Qsort

open ByteMemory RangeSort

structure Sorting where
  base : Nat
  count : Nat
  es : Nat
  ulong : Nat
  uint : Nat
  cmp : Nat → List UInt8 → List UInt8 → Int
  sized : 0 < es
  longs : 0 < ulong
  ints : 0 < uint

structure Run where
  mem : Mem
  calls : Nat

structure Cuts where
  pa : Nat
  pb : Nat
  pc : Nat
  pd : Nat
  swapCnt : Bool
  started : 0 < pb

def swapWords (size : Nat) : Nat → Mem → Nat → Nat → Mem
  | 0, m, _, _ => m
  | i + 1, m, pi, pj => swapWords size i (splice (splice m pi (slice m pj size)) pj (slice m pi size)) (pi + size) (pj + size)

def swapcode (size : Nat) (m : Mem) (parmi parmj n : Nat) : Option Mem :=
  if n / size = 0 then none else some (swapWords size (n / size) m parmi parmj)

def swapinit (size a es : Nat) : Nat := if a % size ≠ 0 ∨ es % size ≠ 0 then 2 else if es = size then 0 else 1

section

variable (q : Sorting)

def Sorting.address (i : Nat) : Nat := q.base + i * q.es

def Sorting.elem (m : Mem) (i : Nat) : List UInt8 := slice m (q.address i) q.es

def swapfunc (m : Mem) (a b n swaptypeUlong swaptypeUint : Nat) : Option Mem :=
  if swaptypeUlong ≤ 1 then swapcode q.ulong m a b n
  else if q.uint ≠ q.ulong ∧ swaptypeUint ≤ 1 then swapcode q.uint m a b n
  else swapcode 1 m a b n

def swap (origin : Nat) (s : Run) (i j : Nat) : Option Run :=
  let swaptypeUlong := swapinit q.ulong (q.address origin) q.es
  let swaptypeUint := swapinit q.uint (q.address origin) q.es
  if swaptypeUlong = 0 then some ⟨swapWords q.ulong 1 s.mem (q.address i) (q.address j),s.calls⟩
  else if q.uint ≠ q.ulong ∧ swaptypeUint = 0 then some ⟨swapWords q.uint 1 s.mem (q.address i) (q.address j),s.calls⟩
  else (swapfunc q s.mem (q.address i) (q.address j) q.es swaptypeUlong swaptypeUint).map fun m => ⟨m,s.calls⟩

def vecswap (origin : Nat) (s : Run) (i j n : Nat) : Option Run :=
  if 0 < n * q.es then
    (swapfunc q s.mem (q.address i) (q.address j) (n * q.es) (swapinit q.ulong (q.address origin) q.es)
      (swapinit q.uint (q.address origin) q.es)).map fun m => ⟨m,s.calls⟩
  else some s

def compare (s : Run) (i j : Nat) : Option (Int × Run) :=
  if i < q.count ∧ j < q.count then some (q.cmp s.calls (q.elem s.mem i) (q.elem s.mem j),⟨s.mem,s.calls + 1⟩) else none

def med3 (s : Run) (a b c : Nat) : Option (Nat × Run) :=
  (compare q s a b).bind fun o =>
    if o.1 < 0 then (compare q o.2 b c).bind fun o =>
      if o.1 < 0 then some (b,o.2) else (compare q o.2 a c).map fun o => (if o.1 < 0 then c else a,o.2)
    else (compare q o.2 b c).bind fun o =>
      if 0 < o.1 then some (b,o.2) else (compare q o.2 a c).map fun o => (if o.1 < 0 then a else c,o.2)

def sink (origin a : Nat) : Nat → Run → Option Run
  | 0, s => some s
  | k + 1, s => (compare q s (a + k) (a + k + 1)).bind fun o =>
    if 0 < o.1 then (swap q origin o.2 (a + k + 1) (a + k)).bind fun s => sink origin a k s else some o.2

def insert (origin a : Nat) : Nat → Nat → Run → Option Run
  | 0, _, s => some s
  | todo + 1, pm, s => (sink q origin a (pm - a) s).bind fun s => insert origin a todo (pm + 1) s

def insertionSort (origin a n : Nat) (s : Run) : Option Run := insert q origin a (n - 1) (a + 1) s

def pivot (s : Run) (a n : Nat) : Option (Nat × Run) :=
  let pm := a + n / 2
  if 7 < n then
    let pl := a
    let pn := a + (n - 1)
    if 40 < n then
      let d := n / 8
      (med3 q s pl (pl + d) (pl + 2 * d)).bind fun l => (med3 q l.2 (pm - d) pm (pm + d)).bind fun m =>
        (med3 q m.2 (pn - 2 * d) (pn - d) pn).bind fun r => med3 q r.2 l.1 m.1 r.1
    else med3 q s pl pm pn
  else some (pm,s)

def scanUp (origin a : Nat) (k : Cuts) (s : Run) : Option (Cuts × Run) :=
  if k.pb ≤ k.pc then (compare q s k.pb a).bind fun o =>
    if o.1 ≤ 0 then
      if o.1 = 0 then (swap q origin o.2 k.pa k.pb).bind fun s =>
        scanUp origin a ⟨k.pa + 1,k.pb + 1,k.pc,k.pd,true,Nat.succ_pos _⟩ s
      else scanUp origin a ⟨k.pa,k.pb + 1,k.pc,k.pd,k.swapCnt,Nat.succ_pos _⟩ o.2
    else some (k,o.2)
  else some (k,s)
termination_by k.pc + 1 - k.pb

def scanDown (origin a : Nat) (k : Cuts) (s : Run) : Option (Cuts × Run) :=
  if k.pb ≤ k.pc then (compare q s k.pc a).bind fun o =>
    if 0 ≤ o.1 then
      if o.1 = 0 then (swap q origin o.2 k.pc k.pd).bind fun s =>
        scanDown origin a ⟨k.pa,k.pb,k.pc - 1,k.pd - 1,true,k.started⟩ s
      else scanDown origin a ⟨k.pa,k.pb,k.pc - 1,k.pd,k.swapCnt,k.started⟩ o.2
    else some (k,o.2)
  else some (k,s)
termination_by k.pc + 1 - k.pb
decreasing_by
  all_goals
    have hstart := k.started
    omega

def partition (origin a : Nat) : Nat → Cuts → Run → Option (Cuts × Run)
  | 0, _, _ => none
  | fuel + 1, k, s => (scanUp q origin a k s).bind fun o => (scanDown q origin a o.1 o.2).bind fun o =>
    if o.1.pc < o.1.pb then some o
    else (swap q origin o.2 o.1.pb o.1.pc).bind fun s =>
      partition origin a fuel ⟨o.1.pa,o.1.pb + 1,o.1.pc - 1,o.1.pd,true,Nat.succ_pos _⟩ s

def rearrange (origin a n : Nat) (k : Cuts) (s : Run) : Option Run :=
  let pn := a + n
  let r := if k.pa - a < k.pb - k.pa then k.pa - a else k.pb - k.pa
  (vecswap q origin s a (k.pb - r) r).bind fun s =>
    let r := if k.pd - k.pc < pn - k.pd - 1 then k.pd - k.pc else pn - k.pd - 1
    vecswap q origin s k.pb (pn - r) r

def pop (loop : Nat → Nat → List (Nat × Nat) → Run → Option Run) : List (Nat × Nat) → Run → Option Run
  | [], s => some s
  | p :: rest, s => loop p.1 p.2 rest s

def sortLoop (origin : Nat) : Nat → Nat → Nat → List (Nat × Nat) → Run → Option Run
  | 0, _, _, _, _ => none
  | fuel + 1, a, n, stack, s =>
    if n < 7 then (insertionSort q origin a n s).bind (pop (sortLoop origin fuel) stack)
    else (pivot q s a n).bind fun o => (swap q origin o.2 a o.1).bind fun s =>
      (partition q origin a n ⟨a + 1,a + 1,a + (n - 1),a + (n - 1),false,Nat.succ_pos _⟩ s).bind fun o =>
        if o.1.swapCnt = false then (insertionSort q origin a n o.2).bind (pop (sortLoop origin fuel) stack)
        else (rearrange q origin a n o.1 o.2).bind fun s =>
          let d := o.1.pb - o.1.pa
          let r := o.1.pd - o.1.pc
          let pn := a + n - r
          let larger := if d < r then (pn,r) else (a,d)
          let smaller := if d < r then (a,d) else (pn,r)
          let iterate : Run → Option Run := fun s =>
            if 1 < larger.2 then sortLoop origin fuel larger.1 larger.2 stack s else pop (sortLoop origin fuel) stack s
          if 1 < smaller.2 then
            if stack.length < 8 then sortLoop origin fuel smaller.1 smaller.2 (larger :: stack) s
            else (sortLoop smaller.1 fuel smaller.1 smaller.2 [] s).bind iterate
          else iterate s

def qsort (s : Run) : Option Run := sortLoop q 0 (2 * q.count + 1) 0 q.count [] s

end

def Clear (a b n : Nat) : Prop := a = b ∨ a + n ≤ b ∨ b + n ≤ a

def swapped (m : Mem) (a b n : Nat) : Mem := fun x =>
  if a ≤ x ∧ x < a + n then m (b + (x - a)) else if b ≤ x ∧ x < b + n then m (a + (x - b)) else m x

section

variable {m : Mem} {a b n size : Nat}

theorem swap_once (h : Clear a b n) : splice (splice m a (slice m b n)) b (slice m a n) = swapped m a b n := by
  funext x
  have hget : ∀ y z, z ≤ x → x < z + n → (slice m y n).getD (x - z) 0 = m (y + (x - z)) := fun y z hz hz' => by
    rw [List.getD_eq_getElem?_getD,slice_getElem? (by omega)]
    rfl
  unfold splice swapped
  rw [slice_length,slice_length]
  by_cases ha : a ≤ x ∧ x < a + n
  · rw [if_pos ha]
    by_cases hb : b ≤ x ∧ x < b + n
    · obtain rfl : a = b := by
        unfold Clear at h
        omega
      rw [if_pos hb,hget _ _ hb.1 hb.2,if_pos hb]
    · rw [if_neg hb,if_pos ha,hget _ _ ha.1 ha.2]
  · rw [if_neg ha]
    by_cases hb : b ≤ x ∧ x < b + n
    · rw [if_pos hb,if_neg ha,if_pos hb,hget _ _ hb.1 hb.2]
    · rw [if_neg hb,if_neg ha,if_neg hb]

theorem swapped_more {k : Nat} (h : Clear a b (n + k)) : swapped (swapped m a b n) (a + n) (b + n) k = swapped m a b (n + k) := by
  funext x
  unfold Clear at h
  unfold swapped
  split_ifs <;> first | rfl | omega | (congr 1; omega)

theorem swapWords_swapped (k : Nat) (h : Clear a b (k * size)) : swapWords size k m a b = swapped m a b (k * size) := by
  induction k generalizing m a b with
  | zero =>
    funext x
    rw [swapWords,swapped,if_neg (by omega),if_neg (by omega)]
  | succ k ih =>
    have hsplit : (k + 1) * size = size + k * size := by ring
    unfold Clear at h
    rw [hsplit] at h ⊢
    rw [swapWords,swap_once (by unfold Clear; omega),ih (by unfold Clear; omega),swapped_more h]

theorem swapWords_add (size i j : Nat) (m : Mem) (a b : Nat) :
    swapWords size (i + j) m a b = swapWords size j (swapWords size i m a b) (a + i * size) (b + i * size) := by
  induction i generalizing m a b with
  | zero => simp [swapWords]
  | succ i ih =>
    have hsplit : (i + 1) * size = size + i * size := by ring
    rw [Nat.add_right_comm,swapWords,swapWords,ih,hsplit,Nat.add_assoc a,Nat.add_assoc b]

end

section

variable (q : Sorting)

def Sorting.view (m : Mem) : Nat → List UInt8 := fun i => q.elem m i

def Outside (m m' : Mem) : Prop := ∀ x, x < q.base ∨ q.base + q.count * q.es ≤ x → m' x = m x

theorem address_succ (i : Nat) : q.address (i + 1) = q.address i + q.es := by
  rw [Sorting.address,Sorting.address,Nat.succ_mul,Nat.add_assoc]

theorem address_le {i j : Nat} (h : i ≤ j) : q.address i ≤ q.address j := Nat.add_le_add_left (Nat.mul_le_mul_right q.es h) q.base

theorem address_lt {i j : Nat} (h : i < j) : q.address i + q.es ≤ q.address j := by
  rw [← address_succ]
  exact address_le q h

theorem elements_clear (i j : Nat) : Clear (q.address i) (q.address j) q.es := by
  rcases lt_trichotomy i j with h | rfl | h
  · exact .inr (.inl (address_lt q h))
  · exact .inl rfl
  · exact .inr (.inr (address_lt q h))

theorem inside_element {i x t : Nat} (ht : t < q.es) :
    q.address i ≤ q.address x + t ∧ q.address x + t < q.address i + q.es ↔ x = i := by
  rcases lt_trichotomy x i with h | rfl | h
  · have hle := address_lt q h
    omega
  · omega
  · have hle := address_lt q h
    omega

theorem view_swapped (m : Mem) (i j : Nat) : q.view (swapped m (q.address i) (q.address j) q.es) = q.view m ∘ Equiv.swap i j := by
  funext x
  refine slice_congr fun t ht => ?_
  simp only [swapped,inside_element q ht]
  by_cases hi : x = i
  · subst hi
    rw [if_pos rfl,Equiv.swap_apply_left,Nat.add_sub_cancel_left]
  · rw [if_neg hi]
    by_cases hj : x = j
    · subst hj
      rw [if_pos rfl,Equiv.swap_apply_right,Nat.add_sub_cancel_left]
    · rw [if_neg hj,Equiv.swap_apply_of_ne_of_ne hi hj]

theorem address_count {i : Nat} (h : i < q.count) : q.base ≤ q.address i ∧ q.address i + q.es ≤ q.base + q.count * q.es :=
  ⟨Nat.le_add_right _ _,address_lt q h⟩

theorem outside_swapped (m : Mem) {i j : Nat} (hi : i < q.count) (hj : j < q.count) :
    Outside q m (swapped m (q.address i) (q.address j) q.es) := by
  intro x hx
  have hi' := address_count q hi
  have hj' := address_count q hj
  rw [swapped,if_neg (by omega),if_neg (by omega)]

theorem words_exchange {size w : Nat} (hes : q.es = w * size) (k : Nat) (m : Mem) {i j : Nat} (hi : i + k ≤ q.count) (hj : j + k ≤ q.count) :
    q.view (swapWords size (k * w) m (q.address i) (q.address j)) = exchanges k (q.view m) i j ∧
      Outside q m (swapWords size (k * w) m (q.address i) (q.address j)) := by
  induction k generalizing m i j with
  | zero =>
    rw [Nat.zero_mul]
    exact ⟨rfl,fun _ _ => rfl⟩
  | succ k ih =>
    have hfirst : swapWords size w m (q.address i) (q.address j) = swapped m (q.address i) (q.address j) q.es := by
      rw [hes]
      exact swapWords_swapped w (hes ▸ elements_clear q i j)
    obtain ⟨hview,hout⟩ := ih (swapped m (q.address i) (q.address j) q.es) (show i + 1 + k ≤ q.count by omega) (show j + 1 + k ≤ q.count by omega)
    rw [Nat.succ_mul,Nat.add_comm,swapWords_add,hfirst,← hes,← address_succ,← address_succ,hview,view_swapped]
    exact ⟨rfl,fun x hx => (hout x hx).trans (outside_swapped q m (by omega) (by omega) x hx)⟩

theorem swapinit_divides {size a es : Nat} (h : swapinit size a es ≤ 1) : es % size = 0 := by
  unfold swapinit at h
  split_ifs at h <;> omega

theorem swapinit_same {size a es : Nat} (h : swapinit size a es = 0) : es = size := by
  unfold swapinit at h
  split_ifs at h
  assumption

theorem swapcode_words {size : Nat} (hs : 0 < size) (hes : q.es % size = 0) {k : Nat} (hk : 0 < k) (m : Mem) (a b : Nat) :
    ∃ w, q.es = w * size ∧ swapcode size m a b (k * q.es) = some (swapWords size (k * w) m a b) := by
  obtain ⟨w,hw⟩ := Nat.dvd_of_mod_eq_zero hes
  have hpos := q.sized
  have hw' : 0 < w := Nat.pos_of_ne_zero fun h => by simp [h] at hw; omega
  have hdiv : k * q.es / size = k * w := by
    rw [hw,Nat.mul_left_comm,Nat.mul_div_cancel_left _ hs]
  refine ⟨w,by rw [hw,Nat.mul_comm],?_⟩
  rw [swapcode,hdiv,if_neg (Nat.mul_pos hk hw').ne']

theorem swapfunc_words (origin : Nat) {k : Nat} (hk : 0 < k) (m : Mem) (a b : Nat) :
    ∃ size w, q.es = w * size ∧ swapfunc q m a b (k * q.es) (swapinit q.ulong (q.address origin) q.es)
      (swapinit q.uint (q.address origin) q.es) = some (swapWords size (k * w) m a b) := by
  unfold swapfunc
  split_ifs with hlong hint
  · exact ⟨_,swapcode_words q q.longs (swapinit_divides hlong) hk m a b⟩
  · exact ⟨_,swapcode_words q q.ints (swapinit_divides hint.2) hk m a b⟩
  · exact ⟨1,swapcode_words q one_pos (Nat.mod_one _) hk m a b⟩

structure Moved (lo hi : Nat) (s s' : Run) : Prop where
  shuffled : Shuffled lo hi (q.view s.mem) (q.view s'.mem)
  outside : Outside q s.mem s'.mem

theorem swap_view (origin : Nat) (s : Run) {i j : Nat} (hi : i < q.count) (hj : j < q.count) :
    ∃ s', swap q origin s i j = some s' ∧ q.view s'.mem = q.view s.mem ∘ Equiv.swap i j ∧ Outside q s.mem s'.mem := by
  obtain ⟨size,w,hes,hrun⟩ : ∃ size w, q.es = w * size ∧
      swap q origin s i j = some ⟨swapWords size (1 * w) s.mem (q.address i) (q.address j),s.calls⟩ := by
    unfold swap
    dsimp only
    split_ifs with hlong hint
    · exact ⟨q.ulong,1,by rw [one_mul,swapinit_same hlong],rfl⟩
    · exact ⟨q.uint,1,by rw [one_mul,swapinit_same hint.2],rfl⟩
    · obtain ⟨size,w,hes,hrun⟩ := swapfunc_words q origin one_pos s.mem (q.address i) (q.address j)
      rw [one_mul] at hrun
      exact ⟨size,w,hes,by rw [hrun]; rfl⟩
  obtain ⟨hview,hout⟩ := words_exchange q hes 1 s.mem (show i + 1 ≤ q.count by omega) (show j + 1 ≤ q.count by omega)
  exact ⟨_,hrun,hview,hout⟩

theorem vecswap_view (origin : Nat) (s : Run) {i j k : Nat} (hi : i + k ≤ q.count) (hj : j + k ≤ q.count) :
    ∃ s', vecswap q origin s i j k = some s' ∧ q.view s'.mem = exchanges k (q.view s.mem) i j ∧ Outside q s.mem s'.mem := by
  rw [vecswap]
  split_ifs with hk
  · obtain ⟨size,w,hes,hrun⟩ := swapfunc_words q origin (Nat.pos_of_mul_pos_right hk) s.mem (q.address i) (q.address j)
    obtain ⟨hview,hout⟩ := words_exchange q hes k s.mem hi hj
    exact ⟨_,by rw [hrun]; rfl,hview,hout⟩
  · obtain rfl : k = 0 := by
      have hpos := q.sized
      by_contra hne
      exact hk (Nat.mul_pos (Nat.pos_of_ne_zero hne) hpos)
    exact ⟨s,rfl,rfl,fun _ _ => rfl⟩

end

end Qsort
