import Mathlib
import Picolibc.Strings.WordCopy

namespace Wordwise

open ByteMemory ByteWords

def Ulong.bits (l : Ulong) : Nat := l.littleBlock * 8

def Ulong.detectNull : Ulong → Nat → Nat
  | .bits32, x => (x + 2 ^ 32 - 0x01010101) % 2 ^ 32 &&& (2 ^ 32 - 1 - x) &&& 0x80808080
  | .bits64, x => (x + 2 ^ 64 - 0x0101010101010101) % 2 ^ 64 &&& (2 ^ 64 - 1 - x) &&& 0x8080808080808080

def Ulong.detectChar (l : Ulong) (x mask : Nat) : Nat := l.detectNull (x ^^^ mask)

theorem shift_grows (k : Nat) : 32 <<< k < 32 <<< (k + 1) := by
  rw [Nat.shiftLeft_eq,Nat.shiftLeft_eq,pow_succ]
  have hpos := Nat.two_pow_pos k
  omega

def Ulong.widen (l : Ulong) (k mask : Nat) : Nat :=
  if 32 <<< k < l.bits then l.widen (k + 1) ((mask <<< (32 <<< k)) % 2 ^ l.bits ||| mask) else mask
termination_by l.bits - 32 <<< k
decreasing_by
  have hgrow := shift_grows k
  omega

def Ulong.fill (l : Ulong) (d : UInt8) : Nat :=
  let mask := d.toNat <<< 8 ||| d.toNat
  let mask := mask <<< 16 ||| mask
  l.widen 0 mask

inductive Scan where
  | done (found : Option Nat)
  | rest (length src : Nat)

def alignScan (t : Target) (r : Region) (m : Mem) (d : UInt8) : Nat → Nat → Option Scan
  | 0, src => if t.long.unaligned src = 0 then some (.rest 0 src) else some (.done none)
  | length + 1, src =>
    if t.long.unaligned src = 0 then some (.rest (length + 1) src)
    else (r.byte m src).bind fun c => if c = d then some (.done (some src)) else alignScan t r m d length (src + 1)

def wordScan (t : Target) (r : Region) (m : Mem) (mask length asrc : Nat) : Option (Nat × Nat) :=
  if t.long.littleBlock ≤ length then
    (r.word t m asrc).bind fun w =>
      if t.long.detectChar w mask ≠ 0 then some (length,asrc)
      else wordScan t r m mask (length - t.long.littleBlock) (asrc + t.long.littleBlock)
  else some (length,asrc)
termination_by length
decreasing_by
  have hpos := littleBlock_pos t.long
  omega

def byteScan (r : Region) (m : Mem) (d : UInt8) : Nat → Nat → Option (Option Nat)
  | 0, _ => some none
  | length + 1, src => (r.byte m src).bind fun c => if c = d then some (some src) else byteScan r m d length (src + 1)

def memchr (t : Target) (m : Mem) (src : Nat) (c : Int) (length : Nat) : Option (Option Nat) :=
  let r : Region := ⟨src,length⟩
  let d := UInt8.ofNat (c % 256).toNat
  if t.preferSize = true then byteScan r m d length src
  else (alignScan t r m d length src).bind fun
    | .done found => some found
    | .rest length src =>
      (if t.long.littleBlock ≤ length then wordScan t r m (t.long.fill d) length src else some (length,src)).bind fun
        | (length,src) => byteScan r m d length src

def firstByte (m : Mem) (d : UInt8) : Nat → Nat → Option Nat
  | 0, _ => none
  | n + 1, a => if m a = d then some a else firstByte m d n (a + 1)

section

variable {t : Target} {r : Region} {m : Mem} {d : UInt8} {src length n k : Nat}

theorem detectNull_eq (l : Ulong) (x : Nat) : l.detectNull x = zeroBytes l.littleBlock x := by
  cases l with
  | bits32 =>
    have hones : ones 4 = 0x01010101 := by decide
    have hhighs : highs 4 = 0x80808080 := by decide
    rw [Ulong.littleBlock,zeroBytes,hones,hhighs]
    rfl
  | bits64 =>
    have hones : ones 8 = 0x0101010101010101 := by decide
    have hhighs : highs 8 = 0x8080808080808080 := by decide
    rw [Ulong.littleBlock,zeroBytes,hones,hhighs]
    rfl

theorem fill_eq (l : Ulong) (d : UInt8) : l.fill d = ofBytes (List.replicate l.littleBlock d) := by
  have hone : d.toNat = ofBytes (List.replicate 1 d) := by simp [ofBytes]
  have htwo : ofBytes (List.replicate 1 d) <<< 8 ||| ofBytes (List.replicate 1 d) = ofBytes (List.replicate 2 d) := double_replicate 1 d
  have hfour : ofBytes (List.replicate 2 d) <<< 16 ||| ofBytes (List.replicate 2 d) = ofBytes (List.replicate 4 d) := double_replicate 2 d
  have height : ofBytes (List.replicate 4 d) <<< 32 ||| ofBytes (List.replicate 4 d) = ofBytes (List.replicate 8 d) := double_replicate 4 d
  rw [Ulong.fill,hone,htwo,hfour]
  cases l with
  | bits32 => rw [Ulong.widen,if_neg (by decide),Ulong.littleBlock]
  | bits64 =>
    have hlt := ofBytes_lt (List.replicate 4 d)
    have hshift : (ofBytes (List.replicate 4 d) <<< (32 <<< 0)) % 2 ^ Ulong.bits64.bits = ofBytes (List.replicate 4 d) <<< 32 := by
      refine Nat.mod_eq_of_lt ?_
      change ofBytes (List.replicate 4 d) <<< 32 < 2 ^ 64
      rw [List.length_replicate] at hlt
      rw [Nat.shiftLeft_eq]
      omega
    rw [Ulong.widen,if_pos (by decide),hshift,height,Ulong.widen,if_neg (by decide),Ulong.littleBlock]

theorem firstByte_some {p : Nat} : firstByte m d n src = some p ↔ src ≤ p ∧ p < src + n ∧ m p = d ∧ ∀ q, src ≤ q → q < p → m q ≠ d := by
  induction n generalizing src with
  | zero =>
    rw [firstByte]
    exact iff_of_false (by simp) (by omega)
  | succ n ih =>
    rw [firstByte]
    split_ifs with hd
    · rw [Option.some_inj]
      constructor
      · rintro rfl
        exact ⟨le_rfl,by omega,hd,fun q hq hq' => absurd hq (by omega)⟩
      · rintro ⟨hlow,-,-,hfirst⟩
        by_contra hne
        exact hfirst src le_rfl (by omega) hd
    · rw [ih]
      constructor
      · rintro ⟨hlow,hhigh,hp,hfirst⟩
        refine ⟨by omega,by omega,hp,fun q hq hq' => ?_⟩
        rcases Nat.eq_or_lt_of_le hq with rfl | hlt
        · exact hd
        · exact hfirst q hlt hq'
      · rintro ⟨hlow,hhigh,hp,hfirst⟩
        have hne : p ≠ src := fun he => hd (he ▸ hp)
        exact ⟨by omega,by omega,hp,fun q hq => hfirst q (by omega)⟩

theorem byteScan_first (h : r.Holds src n) : byteScan r m d n src = some (firstByte m d n src) := by
  induction n generalizing src with
  | zero => rfl
  | succ n ih =>
    rw [byteScan,byte_inside h,Option.bind_some,firstByte]
    split_ifs
    · rfl
    · exact ih (h.mono (by omega))

theorem firstByte_skip (h : ∀ q, src ≤ q → q < src + k → m q ≠ d) : firstByte m d (k + n) src = firstByte m d n (src + k) := by
  induction k generalizing src with
  | zero => rw [Nat.zero_add]; rfl
  | succ k ih =>
    rw [Nat.add_right_comm,firstByte,if_neg (h src le_rfl (by omega)),ih fun q hq hq' => h q (by omega) (by omega),
      Nat.add_assoc src,Nat.add_comm 1]

theorem detectChar_mem (bs : List UInt8) (hlen : bs.length = t.long.littleBlock) :
    t.long.detectChar (t.order.word bs) (t.long.fill d) ≠ 0 ↔ d ∈ bs := by
  have hturn : (t.order.turn bs).length = t.long.littleBlock ∧ (d ∈ t.order.turn bs ↔ d ∈ bs) := by
    unfold Order.turn
    split_ifs <;> simp [hlen]
  have hzip : List.zipWith (· ^^^ ·) (t.order.turn bs) (List.replicate t.long.littleBlock d) = (t.order.turn bs).map (· ^^^ d) := by
    rw [← hturn.1]
    generalize t.order.turn bs = cs
    induction cs with
    | nil => rfl
    | cons c cs ih => rw [List.length_cons,List.replicate_succ,List.zipWith_cons_cons,ih,List.map_cons]
  have hcount := zeroBytes_mem ((t.order.turn bs).map (· ^^^ d))
  rw [List.length_map,hturn.1] at hcount
  rw [Ulong.detectChar,detectNull_eq,fill_eq,Order.word,xor_bytes (by rw [hturn.1,List.length_replicate]),hzip,hcount,← hturn.2,
    List.mem_map]
  simp

theorem wordScan_skips (h : r.Holds src n) : ∃ k ≤ n, wordScan t r m (t.long.fill d) n src = some (n - k,src + k) ∧
    ∀ q, src ≤ q → q < src + k → m q ≠ d := by
  generalize hmask : t.long.fill d = mask
  fun_induction wordScan t r m mask n src with
  | case1 n src hlen ih =>
    subst hmask
    have hword : r.word t m src = some (t.order.word (slice m src t.long.littleBlock)) := word_inside h hlen
    rw [hword,Option.bind_some]
    have hdetect := @detectChar_mem t d (slice m src t.long.littleBlock) (slice_length _ _ _)
    by_cases hmem : d ∈ slice m src t.long.littleBlock
    · rw [if_pos (hdetect.mpr hmem)]
      exact ⟨0,Nat.zero_le _,rfl,fun q hq hq' => absurd hq (by omega)⟩
    · rw [if_neg (mt hdetect.mp hmem)]
      obtain ⟨k,hk,hrun,hskip⟩ := ih 0 (h.mono (Nat.add_sub_cancel' hlen).le)
      refine ⟨t.long.littleBlock + k,by omega,?_,fun q hq hq' => ?_⟩
      · rw [hrun,Nat.sub_sub,Nat.add_assoc]
      · by_cases hin : q < src + t.long.littleBlock
        · rintro rfl
          refine hmem (List.mem_map.mpr ⟨q - src,List.mem_range.mpr (by omega),?_⟩)
          rw [Nat.add_sub_cancel' hq]
        · exact hskip q (by omega) (by omega)
  | case2 n src hlen => exact ⟨0,Nat.zero_le _,rfl,fun q hq hq' => absurd hq (by omega)⟩

theorem alignScan_first (h : r.Holds src n) : alignScan t r m d n src = some (.done (firstByte m d n src)) ∨
    ∃ k ≤ n, alignScan t r m d n src = some (.rest (n - k) (src + k)) ∧ ∀ q, src ≤ q → q < src + k → m q ≠ d := by
  induction n generalizing src with
  | zero =>
    rw [alignScan]
    split_ifs
    · exact .inr ⟨0,le_rfl,rfl,fun q hq hq' => absurd hq (by omega)⟩
    · exact .inl rfl
  | succ n ih =>
    rw [alignScan]
    split_ifs
    · exact .inr ⟨0,Nat.zero_le _,rfl,fun q hq hq' => absurd hq (by omega)⟩
    · rw [byte_inside h,Option.bind_some,firstByte]
      split_ifs with hd
      · exact .inl rfl
      · rcases ih (h.mono (Nat.add_comm 1 n).le) with hdone | ⟨k,hk,hrest,hskip⟩
        · exact .inl hdone
        · refine .inr ⟨k + 1,by omega,?_,fun q hq hq' => ?_⟩
          · rw [hrest,Nat.add_sub_add_right,Nat.add_assoc src,Nat.add_comm 1]
          · rcases Nat.eq_or_lt_of_le hq with rfl | hlt
            · exact hd
            · exact hskip q hlt (by omega)

theorem memchr_first (t : Target) (m : Mem) (src : Nat) (c : Int) (length : Nat) :
    memchr t m src c length = some (firstByte m (UInt8.ofNat (c % 256).toNat) length src) := by
  have hall : (Region.mk src length).Holds src length := ⟨le_rfl,le_rfl⟩
  rw [memchr]
  generalize UInt8.ofNat (c % 256).toNat = d
  dsimp only
  split_ifs
  · exact byteScan_first hall
  · rcases alignScan_first (t := t) (m := m) (d := d) hall with hdone | ⟨k,hk,hrest,hskip⟩
    · rw [hdone]
      rfl
    · have hin := hall.mono (show k + (length - k) ≤ length by omega)
      obtain ⟨j,hj,hrun,hskip'⟩ : ∃ j ≤ length - k, (if t.long.littleBlock ≤ length - k then
          wordScan t ⟨src,length⟩ m (t.long.fill d) (length - k) (src + k) else some (length - k,src + k)) =
          some (length - k - j,src + k + j) ∧ ∀ q, src + k ≤ q → q < src + k + j → m q ≠ d := by
        split_ifs
        · exact wordScan_skips hin
        · exact ⟨0,Nat.zero_le _,rfl,fun q hq hq' => absurd hq (by omega)⟩
      rw [hrest,Option.bind_some]
      dsimp only
      rw [hrun,Option.bind_some]
      dsimp only
      rw [byteScan_first (hin.mono (show j + (length - k - j) ≤ length - k by omega)),← firstByte_skip hskip',Nat.add_sub_cancel' hj,
        ← firstByte_skip hskip,Nat.add_sub_cancel' hk]

theorem wordwise_exact (t : Target) (m : Mem) :
    (∀ dst src len, dst + len ≤ src ∨ src + len ≤ dst → memcpy t m dst src len = some (copy m dst src len)) ∧
    (∀ dst src len, memmove t m dst src len = some (copy m dst src len)) ∧
    ∀ src c len, ∃ found, memchr t m src c len = some found ∧ ∀ p, found = some p ↔
      src ≤ p ∧ p < src + len ∧ m p = UInt8.ofNat (c % 256).toNat ∧ ∀ q, src ≤ q → q < p → m q ≠ UInt8.ofNat (c % 256).toNat :=
  ⟨fun _ _ _ h => memcpy_copies t m h,memmove_copies t m,fun src c len => ⟨_,memchr_first t m src c len,fun _ => firstByte_some⟩⟩

theorem wordwise_exact_forty : memcpy ⟨.little,.bits64,false⟩ (fun a => UInt8.ofNat a) 100 203 40 =
    some (copy (fun a => UInt8.ofNat a) 100 203 40) :=
  (wordwise_exact ⟨.little,.bits64,false⟩ fun a => UInt8.ofNat a).1 100 203 40 (.inl (by decide))

end

end Wordwise
