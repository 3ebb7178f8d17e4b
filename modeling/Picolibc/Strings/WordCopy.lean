import Mathlib
import Picolibc.Lib.ByteWords

namespace Wordwise

open ByteMemory ByteWords

inductive Ulong where
  | bits32
  | bits64
deriving DecidableEq,Repr

def Ulong.littleBlock : Ulong → Nat
  | .bits32 => 4
  | .bits64 => 8

def Ulong.bigBlock (l : Ulong) : Nat := l.littleBlock <<< 2

def Ulong.unaligned (l : Ulong) (x : Nat) : Nat := x &&& (l.littleBlock - 1)

def Ulong.unalignedXY (l : Ulong) (x y : Nat) : Nat := (x &&& (l.littleBlock - 1)) ||| (y &&& (l.littleBlock - 1))

structure Target where
  order : Order
  long : Ulong
  preferSize : Bool

structure Region where
  start : Nat
  length : Nat

def Region.byte (r : Region) (m : Mem) (a : Nat) : Option UInt8 :=
  if r.start ≤ a ∧ a < r.start + r.length then some (m a) else none

def Region.word (r : Region) (t : Target) (m : Mem) (a : Nat) : Option Nat :=
  if r.start ≤ a ∧ a + t.long.littleBlock ≤ r.start + r.length then some (t.order.word (slice m a t.long.littleBlock)) else none

def storeWord (t : Target) (m : Mem) (a w : Nat) : Mem := splice m a (t.order.bytes t.long.littleBlock w)

structure Copying where
  mem : Mem
  dst : Nat
  src : Nat
  len : Nat

def copyUp (r : Region) : Nat → Mem → Nat → Nat → Option Mem
  | 0, m, _, _ => some m
  | len + 1, m, dst, src => (r.byte m src).bind fun c => copyUp r len (Function.update m dst c) (dst + 1) (src + 1)

def copyDown (r : Region) : Nat → Mem → Nat → Nat → Option Mem
  | 0, m, _, _ => some m
  | len + 1, m, dst, src =>
    (r.byte m (src - 1)).bind fun c => copyDown r len (Function.update m (dst - 1) c) (dst - 1) (src - 1)

def wordsUp (t : Target) (r : Region) : Nat → Mem → Nat → Nat → Option Mem
  | 0, m, _, _ => some m
  | k + 1, m, dst, src =>
    (r.word t m src).bind fun w => wordsUp t r k (storeWord t m dst w) (dst + t.long.littleBlock) (src + t.long.littleBlock)

theorem littleBlock_pos (l : Ulong) : 0 < l.littleBlock := by cases l <;> decide

theorem bigBlock_eq (l : Ulong) : l.bigBlock = 4 * l.littleBlock := by cases l <;> rfl

def bigLoop (t : Target) (r : Region) (len : Nat) (m : Mem) (dst src : Nat) : Option Copying :=
  if t.long.bigBlock ≤ len then
    (wordsUp t r 4 m dst src).bind fun m => bigLoop t r (len - t.long.bigBlock) m (dst + t.long.bigBlock) (src + t.long.bigBlock)
  else some ⟨m,dst,src,len⟩
termination_by len
decreasing_by
  have hpos := littleBlock_pos t.long
  have hbig := bigBlock_eq t.long
  omega

def littleLoop (t : Target) (r : Region) (len : Nat) (m : Mem) (dst src : Nat) : Option Copying :=
  if t.long.littleBlock ≤ len then
    (wordsUp t r 1 m dst src).bind fun m =>
      littleLoop t r (len - t.long.littleBlock) m (dst + t.long.littleBlock) (src + t.long.littleBlock)
  else some ⟨m,dst,src,len⟩
termination_by len
decreasing_by
  have hpos := littleBlock_pos t.long
  omega

def downLoop (t : Target) (r : Region) (len : Nat) (m : Mem) (dst src : Nat) : Option Copying :=
  if t.long.littleBlock ≤ len then
    (r.word t m (src - t.long.littleBlock)).bind fun w =>
      downLoop t r (len - t.long.littleBlock) (storeWord t m (dst - t.long.littleBlock) w) (dst - t.long.littleBlock)
        (src - t.long.littleBlock)
  else some ⟨m,dst,src,len⟩
termination_by len
decreasing_by
  have hpos := littleBlock_pos t.long
  omega

def mergeLoop (t : Target) (r : Region) (byteShift len : Nat) (m : Mem) (dst src left : Nat) : Option Copying :=
  if t.long.littleBlock + (t.long.littleBlock - byteShift) ≤ len then
    (r.word t m src).bind fun right =>
      mergeLoop t r byteShift (len - t.long.littleBlock)
        (storeWord t m dst (t.order.merge t.long.littleBlock byteShift left right)) (dst + t.long.littleBlock)
        (src + t.long.littleBlock) right
  else some ⟨m,dst,src - (t.long.littleBlock - byteShift),len⟩
termination_by len
decreasing_by
  have hpos := littleBlock_pos t.long
  omega

def memcpy (t : Target) (m : Mem) (dst src len : Nat) : Option Mem :=
  let r : Region := ⟨src,len⟩
  if t.preferSize = true ∨ len < t.long.bigBlock then copyUp r len m dst src
  else
    let start := t.long.littleBlock * 2 - t.long.unaligned dst
    (copyUp r start m dst src).bind fun m =>
      let dst := dst + start
      let src := src + start
      let len := len - start
      let byteShift := t.long.unaligned src
      (if byteShift = 0 then (bigLoop t r len m dst src).bind fun c => littleLoop t r c.len c.mem c.dst c.src
        else (r.word t m (src - byteShift)).bind fun left =>
          mergeLoop t r byteShift len m dst (src - byteShift + t.long.littleBlock) left).bind fun c =>
      copyUp r c.len c.mem c.dst c.src

def memmove (t : Target) (m : Mem) (dst src length : Nat) : Option Mem :=
  let r : Region := ⟨src,length⟩
  if src < dst ∧ dst < src + length then
    let src := src + length
    let dst := dst + length
    if t.preferSize = false ∧ t.long.littleBlock ≤ length ∧ t.long.unalignedXY src dst = 0 then
      (downLoop t r length m dst src).bind fun c => copyDown r c.len c.mem c.dst c.src
    else copyDown r length m dst src
  else if t.preferSize = false ∧ t.long.littleBlock ≤ length ∧ t.long.unalignedXY src dst = 0 then
    (bigLoop t r length m dst src).bind fun c => (littleLoop t r c.len c.mem c.dst c.src).bind fun c =>
      copyUp r c.len c.mem c.dst c.src
  else copyUp r length m dst src

section

variable {t : Target} {r : Region} {m : Mem} {dst src len n k : Nat}

theorem copy_forward (h : dst ≤ src ∨ src + (n + k) ≤ dst) :
    copy (copy m dst src n) (dst + n) (src + n) k = copy m dst src (n + k) := by
  funext x
  unfold copy
  split_ifs <;> first | rfl | omega | (congr 1; omega)

theorem copy_backward (h : src ≤ dst) : copy (copy m (dst + n) (src + n) k) dst src n = copy m dst src (n + k) := by
  funext x
  unfold copy
  split_ifs <;> first | rfl | omega | (congr 1; omega)

theorem copy_one (m : Mem) (dst src : Nat) : Function.update m dst (m src) = copy m dst src 1 := by
  funext x
  unfold copy
  by_cases hx : x = dst
  · subst hx
    simp
  · rw [Function.update_of_ne hx,if_neg (by omega)]

theorem splice_slice (m : Mem) (dst src n : Nat) : splice m dst (slice m src n) = copy m dst src n := by
  funext x
  unfold splice copy
  rw [slice_length]
  split_ifs with h
  · rw [List.getD_eq_getElem?_getD,slice_getElem? (by omega)]
    rfl
  · rfl

def Region.Holds (r : Region) (src n : Nat) : Prop := r.start ≤ src ∧ src + n ≤ r.start + r.length

theorem byte_inside (h : r.Holds src (n + 1)) : r.byte m src = some (m src) := by
  obtain ⟨hlow,hhigh⟩ := h
  exact if_pos ⟨hlow,by omega⟩

theorem word_inside (h : r.Holds src n) (hn : t.long.littleBlock ≤ n) :
    r.word t m src = some (t.order.word (slice m src t.long.littleBlock)) := by
  obtain ⟨hlow,hhigh⟩ := h
  exact if_pos ⟨hlow,by omega⟩

theorem store_word (bs : List UInt8) (h : bs.length = t.long.littleBlock) : storeWord t m dst (t.order.word bs) = splice m dst bs := by
  rw [storeWord,← h,word_bytes]

theorem store_slice (t : Target) (m : Mem) (dst src : Nat) :
    storeWord t m dst (t.order.word (slice m src t.long.littleBlock)) = copy m dst src t.long.littleBlock := by
  rw [store_word _ (slice_length _ _ _),splice_slice]

theorem Region.Holds.mono (h : r.Holds src n) {i : Nat} (hi : i + k ≤ n) : r.Holds (src + i) k := by
  obtain ⟨hlow,hhigh⟩ := h
  exact ⟨by omega,by omega⟩

theorem copyUp_copies (h : r.Holds src n) (hf : dst ≤ src ∨ src + n ≤ dst) : copyUp r n m dst src = some (copy m dst src n) := by
  induction n generalizing m dst src with
  | zero =>
    rw [copyUp]
    congr 1
    funext x
    rw [copy,if_neg (by omega)]
  | succ n ih =>
    rw [copyUp,byte_inside h,Option.bind_some,ih (h.mono (by omega)) (by omega),copy_one,copy_forward (by omega),Nat.add_comm 1]

theorem copyDown_copies (h : r.Holds src n) (hb : src ≤ dst) : copyDown r n m (dst + n) (src + n) = some (copy m dst src n) := by
  induction n generalizing m with
  | zero =>
    rw [copyDown]
    congr 1
    funext x
    rw [copy,if_neg (by omega)]
  | succ n ih =>
    have hin : r.Holds (src + n) (0 + 1) := h.mono (by omega)
    rw [copyDown,Nat.add_sub_assoc (by omega) src,Nat.add_sub_assoc (by omega) dst,Nat.add_sub_cancel,byte_inside hin,
      Option.bind_some,ih ⟨h.1,by have := h.2; omega⟩,copy_one,copy_backward hb]

theorem wordsUp_copies (h : r.Holds src (k * t.long.littleBlock)) (hf : dst ≤ src ∨ src + k * t.long.littleBlock ≤ dst) :
    wordsUp t r k m dst src = some (copy m dst src (k * t.long.littleBlock)) := by
  induction k generalizing m dst src with
  | zero =>
    rw [wordsUp]
    congr 1
    funext x
    rw [copy,if_neg (by omega)]
  | succ k ih =>
    have hsplit : (k + 1) * t.long.littleBlock = t.long.littleBlock + k * t.long.littleBlock := by ring
    rw [hsplit] at h hf ⊢
    rw [wordsUp,word_inside h (by omega),Option.bind_some,store_slice,ih (h.mono le_rfl) (by omega),copy_forward hf]

structure Advanced (m : Mem) (dst src len : Nat) (c : Copying) : Prop where
  done : ∃ n ≤ len, c = ⟨copy m dst src n,dst + n,src + n,len - n⟩

theorem Advanced.refl (m : Mem) (dst src len : Nat) : Advanced m dst src len ⟨m,dst,src,len⟩ := by
  refine ⟨0,Nat.zero_le _,?_⟩
  congr 1
  funext x
  rw [copy,if_neg (by omega)]

theorem Advanced.more {c : Copying} (hf : dst ≤ src ∨ src + len ≤ dst) (hn : n ≤ len)
    (h : Advanced (copy m dst src n) (dst + n) (src + n) (len - n) c) : Advanced m dst src len c := by
  obtain ⟨k,hk,rfl⟩ := h
  refine ⟨n + k,by omega,?_⟩
  rw [copy_forward (by omega),Nat.add_assoc,Nat.add_assoc,Nat.sub_sub]

theorem Advanced.finish {c : Copying} (h : Advanced m dst src len c) (hr : r.Holds src len) (hf : dst ≤ src ∨ src + len ≤ dst) :
    copyUp r c.len c.mem c.dst c.src = some (copy m dst src len) := by
  obtain ⟨n,hn,rfl⟩ := h
  dsimp only
  rw [copyUp_copies (hr.mono (by omega)) (by omega),copy_forward (by omega),Nat.add_sub_cancel' hn]

theorem bigLoop_advances (h : r.Holds src len) (hf : dst ≤ src ∨ src + len ≤ dst) :
    ∃ c, bigLoop t r len m dst src = some c ∧ Advanced m dst src len c := by
  fun_induction bigLoop t r len m dst src with
  | case1 len m dst src hlen ih =>
    have hbig := bigBlock_eq t.long
    have hwords : wordsUp t r 4 m dst src = some (copy m dst src t.long.bigBlock) := by
      rw [hbig]
      exact wordsUp_copies ⟨h.1,by have := h.2; omega⟩ (by omega)
    obtain ⟨c,hrun,hc⟩ := ih _ (h.mono (by omega)) (by omega)
    exact ⟨c,by rw [hwords,Option.bind_some,hrun],hc.more hf hlen⟩
  | case2 len m dst src hlen => exact ⟨_,rfl,.refl ..⟩

theorem littleLoop_advances (h : r.Holds src len) (hf : dst ≤ src ∨ src + len ≤ dst) :
    ∃ c, littleLoop t r len m dst src = some c ∧ Advanced m dst src len c := by
  fun_induction littleLoop t r len m dst src with
  | case1 len m dst src hlen ih =>
    have hwords : wordsUp t r 1 m dst src = some (copy m dst src t.long.littleBlock) := by
      have hone := @wordsUp_copies t r m dst src 1
      rw [one_mul] at hone
      exact hone ⟨h.1,by have := h.2; omega⟩ (by omega)
    obtain ⟨c,hrun,hc⟩ := ih _ (h.mono (by omega)) (by omega)
    exact ⟨c,by rw [hwords,Option.bind_some,hrun],hc.more hf hlen⟩
  | case2 len m dst src hlen => exact ⟨_,rfl,.refl ..⟩

theorem blocks_advance (h : r.Holds src len) (hf : dst ≤ src ∨ src + len ≤ dst) :
    ∃ c, ((bigLoop t r len m dst src).bind fun c => littleLoop t r c.len c.mem c.dst c.src) = some c ∧ Advanced m dst src len c := by
  obtain ⟨c,hrun,n,hn,rfl⟩ := bigLoop_advances (t := t) (m := m) h hf
  obtain ⟨c,hrun',hc⟩ := littleLoop_advances (t := t) (m := copy m dst src n) (h.mono (show n + (len - n) ≤ len by omega))
    (show dst + n ≤ src + n ∨ src + n + (len - n) ≤ dst + n by omega)
  exact ⟨c,by rw [hrun,Option.bind_some,hrun'],hc.more hf hn⟩

theorem merge_slices {byteShift : Nat} (hs : byteShift ≤ t.long.littleBlock) (hsrc : byteShift ≤ src) :
    t.order.merge t.long.littleBlock byteShift (t.order.word (slice m (src - byteShift) t.long.littleBlock))
      (t.order.word (slice m (src + (t.long.littleBlock - byteShift)) t.long.littleBlock)) =
      t.order.word (slice m src t.long.littleBlock) := by
  rw [merge_words _ (slice_length _ _ _) (slice_length _ _ _) hs,slice_drop hs,slice_take hs,Nat.sub_add_cancel hsrc,← slice_add,
    Nat.sub_add_cancel hs]

def Region.Apart (r : Region) (dst n : Nat) : Prop := dst + n ≤ r.start ∨ r.start + r.length ≤ dst

theorem mergeLoop_advances {byteShift left asrc : Nat} (hs : byteShift < t.long.littleBlock) (h : r.Holds src len)
    (hlow : r.start + byteShift ≤ src) (hd : r.Apart dst len) (hsrc : asrc = src + (t.long.littleBlock - byteShift))
    (hleft : left = t.order.word (slice m (src - byteShift) t.long.littleBlock)) :
    ∃ c, mergeLoop t r byteShift len m dst asrc left = some c ∧ Advanced m dst src len c := by
  have hf : dst ≤ src ∨ src + len ≤ dst := by
    have hin := h
    unfold Region.Holds at hin
    unfold Region.Apart at hd
    omega
  fun_induction mergeLoop t r byteShift len m dst asrc left generalizing src with
  | case1 len m dst asrc left hlen ih =>
    subst hsrc hleft
    have hword : r.word t m (src + (t.long.littleBlock - byteShift)) = some
        (t.order.word (slice m (src + (t.long.littleBlock - byteShift)) t.long.littleBlock)) :=
      word_inside (h.mono (show t.long.littleBlock - byteShift + (len - (t.long.littleBlock - byteShift)) ≤ len by omega)) (by omega)
    have hsame : slice (copy m dst src t.long.littleBlock) (src + t.long.littleBlock - byteShift) t.long.littleBlock =
        slice m (src + (t.long.littleBlock - byteShift)) t.long.littleBlock := by
      refine slice_congr fun i hi => ?_
      rw [Nat.add_sub_assoc hs.le]
      refine copy_apart ?_
      unfold Region.Holds at h
      unfold Region.Apart at hd
      omega
    obtain ⟨c,hrun,hc⟩ := ih (t.order.word (slice m (src + (t.long.littleBlock - byteShift)) t.long.littleBlock))
      (show r.Holds (src + t.long.littleBlock) (len - t.long.littleBlock) from h.mono (by omega)) (by omega) (by unfold Region.Apart at hd ⊢; omega) (by omega)
      (by rw [merge_slices hs.le (by omega),store_slice,hsame]) (by omega)
    refine ⟨c,by rw [hword,Option.bind_some,hrun],?_⟩
    rw [merge_slices hs.le (by omega),store_slice] at hc
    exact hc.more hf (by omega)
  | case2 len m dst asrc left hlen =>
    rw [hsrc,Nat.add_sub_cancel]
    exact ⟨_,rfl,.refl ..⟩

theorem unaligned_eq (l : Ulong) (x : Nat) : l.unaligned x = x % l.littleBlock := by
  cases l with
  | bits32 => exact Nat.and_two_pow_sub_one_eq_mod x 2
  | bits64 => exact Nat.and_two_pow_sub_one_eq_mod x 3

theorem memcpy_copies (t : Target) (m : Mem) {dst src len : Nat} (hd : dst + len ≤ src ∨ src + len ≤ dst) :
    memcpy t m dst src len = some (copy m dst src len) := by
  have hall : (Region.mk src len).Holds src len := ⟨le_rfl,le_rfl⟩
  have hpos := littleBlock_pos t.long
  have hbig := bigBlock_eq t.long
  have hmod := Nat.mod_lt dst hpos
  rw [memcpy]
  split_ifs with hsmall
  · exact copyUp_copies hall (by omega)
  · have hlen : t.long.bigBlock ≤ len := by omega
    dsimp only
    rw [unaligned_eq]
    generalize hstart : t.long.littleBlock * 2 - dst % t.long.littleBlock = start
    have hrest : (Region.mk src len).Holds (src + start) (len - start) := hall.mono (by omega)
    have hfirst : (Region.mk src len).Holds src start := ⟨le_rfl,by dsimp only; omega⟩
    rw [copyUp_copies hfirst (by omega),Option.bind_some]
    obtain ⟨c,hrun,hc⟩ : ∃ c, (if t.long.unaligned (src + start) = 0 then
        (bigLoop t ⟨src,len⟩ (len - start) (copy m dst src start) (dst + start) (src + start)).bind fun c =>
          littleLoop t ⟨src,len⟩ c.len c.mem c.dst c.src
        else ((Region.mk src len).word t (copy m dst src start) (src + start - t.long.unaligned (src + start))).bind fun left =>
          mergeLoop t ⟨src,len⟩ (t.long.unaligned (src + start)) (len - start) (copy m dst src start) (dst + start)
            (src + start - t.long.unaligned (src + start) + t.long.littleBlock) left) = some c ∧
        Advanced (copy m dst src start) (dst + start) (src + start) (len - start) c := by
      split_ifs with haligned
      · exact blocks_advance hrest (by omega)
      · have hshift : t.long.unaligned (src + start) < t.long.littleBlock := by
          rw [unaligned_eq]
          exact Nat.mod_lt _ hpos
        generalize t.long.unaligned (src + start) = byteShift at *
        have hword : (Region.mk src len).word t (copy m dst src start) (src + start - byteShift) = some
            (t.order.word (slice (copy m dst src start) (src + start - byteShift) t.long.littleBlock)) :=
          if_pos ⟨by dsimp only; omega,by dsimp only; omega⟩
        rw [hword,Option.bind_some]
        exact mergeLoop_advances hshift hrest (by dsimp only; omega) (by unfold Region.Apart; dsimp only; omega) (by omega) rfl
    rw [hrun,Option.bind_some,hc.finish hrest (by omega),copy_forward (by omega),Nat.add_sub_cancel' (by omega)]

theorem downLoop_retreats (h : r.Holds src len) (hb : src ≤ dst) :
    ∃ n ≤ len, downLoop t r len m (dst + len) (src + len) = some ⟨copy m (dst + n) (src + n) (len - n),dst + n,src + n,n⟩ := by
  induction len using Nat.strong_induction_on generalizing m with
  | _ len ih =>
    have hpos := littleBlock_pos t.long
    rw [downLoop]
    split_ifs with hlen
    · obtain ⟨k,rfl⟩ := Nat.exists_eq_add_of_le' hlen
      have hword : r.word t m (src + k) = some (t.order.word (slice m (src + k) t.long.littleBlock)) :=
        word_inside (h.mono le_rfl) le_rfl
      obtain ⟨n,hn,hrun⟩ := @ih k (by omega) (copy m (dst + k) (src + k) t.long.littleBlock) ⟨h.1,by have := h.2; omega⟩
      refine ⟨n,by omega,?_⟩
      have hcut := @copy_backward m (dst + n) (src + n) (k - n) t.long.littleBlock (by omega)
      rw [Nat.add_assoc dst,Nat.add_assoc src,Nat.add_sub_cancel' hn] at hcut
      rw [← Nat.add_assoc,← Nat.add_assoc,Nat.add_sub_cancel,Nat.add_sub_cancel,Nat.add_sub_cancel,hword,Option.bind_some,store_slice,hrun,hcut,
        show k - n + t.long.littleBlock = k + t.long.littleBlock - n by omega]
    · refine ⟨len,le_rfl,?_⟩
      congr 2
      funext x
      rw [copy,if_neg (by omega)]

theorem memmove_copies (t : Target) (m : Mem) (dst src len : Nat) : memmove t m dst src len = some (copy m dst src len) := by
  have hall : (Region.mk src len).Holds src len := ⟨le_rfl,le_rfl⟩
  rw [memmove]
  dsimp only
  split_ifs with hover hwords hwords
  · obtain ⟨n,hn,hrun⟩ := downLoop_retreats (t := t) (m := m) hall (show src ≤ dst by omega)
    have hfirst : (Region.mk src len).Holds src n := ⟨le_rfl,by dsimp only; omega⟩
    rw [hrun,Option.bind_some,copyDown_copies hfirst (by omega),copy_backward (by omega),Nat.add_sub_cancel' hn]
  · exact copyDown_copies hall (by omega)
  · have hf : dst ≤ src ∨ src + len ≤ dst := by omega
    obtain ⟨c,hrun,hc⟩ := blocks_advance (t := t) (m := m) hall hf
    rw [← Option.bind_assoc,hrun,Option.bind_some,hc.finish hall hf]
  · exact copyUp_copies hall (by omega)

end

end Wordwise
