import Mathlib
import Picolibc.Lib.ByteSlices

namespace ByteWords

open ByteMemory

inductive Order where
  | little
  | big
deriving DecidableEq,Repr

def ofBytes : List UInt8 → Nat
  | [] => 0
  | b :: bs => b.toNat + 256 * ofBytes bs

def toBytes : Nat → Nat → List UInt8
  | 0, _ => []
  | n + 1, w => UInt8.ofNat w :: toBytes n (w / 256)

def Order.turn (o : Order) (bs : List UInt8) : List UInt8 := if o = .little then bs else bs.reverse

def Order.word (o : Order) (bs : List UInt8) : Nat := ofBytes (o.turn bs)

def Order.bytes (o : Order) (n w : Nat) : List UInt8 := o.turn (toBytes n w)

def Order.merge (o : Order) (n byteShift left right : Nat) : Nat :=
  if o = .little then left >>> (byteShift <<< 3) ||| (right <<< ((n - byteShift) <<< 3)) % 2 ^ (8 * n)
  else (left <<< (byteShift <<< 3)) % 2 ^ (8 * n) ||| right >>> ((n - byteShift) <<< 3)

@[simp] theorem toBytes_length (n w : Nat) : (toBytes n w).length = n := by
  induction n generalizing w with
  | zero => rfl
  | succ n ih => simp [toBytes,ih]

theorem ofBytes_lt (bs : List UInt8) : ofBytes bs < 256 ^ bs.length := by
  induction bs with
  | nil => simp [ofBytes]
  | cons b bs ih =>
    have hb := b.toNat_lt
    rw [ofBytes,List.length_cons,pow_succ]
    omega

theorem ofBytes_append (xs ys : List UInt8) : ofBytes (xs ++ ys) = ofBytes xs + 256 ^ xs.length * ofBytes ys := by
  induction xs with
  | nil => simp [ofBytes]
  | cons x xs ih =>
    rw [List.cons_append,ofBytes,ofBytes,ih,List.length_cons,pow_succ]
    ring

theorem toBytes_ofBytes (bs : List UInt8) : toBytes bs.length (ofBytes bs) = bs := by
  induction bs with
  | nil => rfl
  | cons b bs ih =>
    have hb := b.toNat_lt
    have hdiv : (b.toNat + 256 * ofBytes bs) / 256 = ofBytes bs := by omega
    have hlow : UInt8.ofNat (b.toNat + 256 * ofBytes bs) = b := by
      apply UInt8.toNat_inj.mp
      rw [UInt8.toNat_ofNat']
      omega
    rw [List.length_cons,toBytes,ofBytes,hdiv,ih,hlow]

theorem ofBytes_div {bs : List UInt8} {k : Nat} (h : k ≤ bs.length) : ofBytes bs / 256 ^ k = ofBytes (bs.drop k) := by
  have hsplit := ofBytes_append (bs.take k) (bs.drop k)
  have hlt := ofBytes_lt (bs.take k)
  rw [List.take_append_drop] at hsplit
  rw [List.length_take_of_le h] at hsplit hlt
  rw [hsplit,Nat.add_mul_div_left _ _ (by positivity),Nat.div_eq_of_lt hlt,Nat.zero_add]

theorem ofBytes_mod {bs : List UInt8} {k : Nat} (h : k ≤ bs.length) : ofBytes bs % 256 ^ k = ofBytes (bs.take k) := by
  have hsplit := ofBytes_append (bs.take k) (bs.drop k)
  have hlt := ofBytes_lt (bs.take k)
  rw [List.take_append_drop] at hsplit
  rw [List.length_take_of_le h] at hsplit hlt
  rw [hsplit,Nat.add_mul_mod_self_left,Nat.mod_eq_of_lt hlt]

theorem bits_pow (n : Nat) : 2 ^ (n <<< 3) = 256 ^ n := by
  rw [Nat.shiftLeft_eq,mul_comm,pow_mul]
  rfl

theorem width_pow (n : Nat) : 2 ^ (8 * n) = 256 ^ n := pow_mul 2 8 n

theorem right_shift {bs : List UInt8} {k : Nat} (h : k ≤ bs.length) : ofBytes bs >>> (k <<< 3) = ofBytes (bs.drop k) := by
  rw [Nat.shiftRight_eq_div_pow,bits_pow,ofBytes_div h]

theorem left_shift {bs : List UInt8} {k : Nat} (h : k ≤ bs.length) :
    (ofBytes bs <<< (k <<< 3)) % 2 ^ (8 * bs.length) = ofBytes (bs.take (bs.length - k)) <<< (k <<< 3) := by
  obtain ⟨j,hj⟩ := Nat.exists_eq_add_of_le h
  rw [Nat.shiftLeft_eq (ofBytes bs),Nat.shiftLeft_eq (ofBytes (bs.take _)),bits_pow,width_pow,← ofBytes_mod (Nat.sub_le _ _),hj,
    pow_add,Nat.add_sub_cancel_left,mul_comm (256 ^ k) (256 ^ j),Nat.mul_mod_mul_right]

theorem join_words (xs ys : List UInt8) : ofBytes ys <<< (xs.length <<< 3) ||| ofBytes xs = ofBytes (xs ++ ys) := by
  have hlt := ofBytes_lt xs
  rw [← bits_pow] at hlt
  rw [← Nat.shiftLeft_add_eq_or_of_lt hlt,Nat.shiftLeft_eq (ofBytes ys),bits_pow,ofBytes_append]
  ring

theorem word_bytes (o : Order) (bs : List UInt8) : o.bytes bs.length (o.word bs) = bs := by
  unfold Order.bytes Order.word Order.turn
  split_ifs with h
  · exact toBytes_ofBytes bs
  · have hturn := toBytes_ofBytes bs.reverse
    rw [List.length_reverse] at hturn
    rw [hturn,List.reverse_reverse]

theorem merge_words (o : Order) {xs ys : List UInt8} {n k : Nat} (hx : xs.length = n) (hy : ys.length = n) (hk : k ≤ n) :
    o.merge n k (o.word xs) (o.word ys) = o.word (xs.drop k ++ ys.take k) := by
  unfold Order.merge Order.word Order.turn
  split_ifs with h
  · have hleft := @left_shift ys (n - k) (by omega)
    have hjoin := join_words (xs.drop k) (ys.take k)
    rw [hy,Nat.sub_sub_self hk] at hleft
    rw [List.length_drop,hx] at hjoin
    rw [right_shift (by omega),hleft,Nat.or_comm,hjoin]
  · have hright := @right_shift ys.reverse (n - k) (by simp; omega)
    have hleft := @left_shift xs.reverse k (by simp; omega)
    have hjoin := join_words (ys.take k).reverse (xs.drop k).reverse
    rw [List.length_reverse,hx,List.take_reverse] at hleft
    rw [List.drop_reverse] at hright
    rw [List.length_reverse,List.length_take_of_le (by omega)] at hjoin
    rw [hleft,hright,hx,hy,Nat.sub_sub_self hk,hjoin,List.reverse_append]

theorem xor_bytes {xs ys : List UInt8} (h : xs.length = ys.length) :
    ofBytes xs ^^^ ofBytes ys = ofBytes (List.zipWith (· ^^^ ·) xs ys) := by
  induction xs generalizing ys with
  | nil =>
    obtain rfl := List.eq_nil_of_length_eq_zero h.symm
    rfl
  | cons x xs ih =>
    cases ys with
    | nil => cases h
    | cons y ys =>
      have hx := x.toNat_lt
      have hy := y.toNat_lt
      have hrest := ih (Nat.succ_injective h)
      have hdiv := @Nat.xor_div_two_pow (x.toNat + 256 * ofBytes xs) (y.toNat + 256 * ofBytes ys) 8
      have hmod := @Nat.xor_mod_two_pow (x.toNat + 256 * ofBytes xs) (y.toNat + 256 * ofBytes ys) 8
      rw [List.zipWith_cons_cons,ofBytes,ofBytes,ofBytes,UInt8.toNat_xor,← hrest]
      rw [show (x.toNat + 256 * ofBytes xs) / 2 ^ 8 = ofBytes xs by omega,
        show (y.toNat + 256 * ofBytes ys) / 2 ^ 8 = ofBytes ys by omega] at hdiv
      rw [show (x.toNat + 256 * ofBytes xs) % 2 ^ 8 = x.toNat by omega,
        show (y.toNat + 256 * ofBytes ys) % 2 ^ 8 = y.toNat by omega] at hmod
      omega

def ones (n : Nat) : Nat := ofBytes (List.replicate n 1)

def highs (n : Nat) : Nat := ofBytes (List.replicate n 0x80)

def zeroBytes (n x : Nat) : Nat := (x + 256 ^ n - ones n) % 256 ^ n &&& (256 ^ n - 1 - x) &&& highs n

theorem ones_lt (n : Nat) : ones n < 256 ^ n := by
  have h := ofBytes_lt (List.replicate n 1)
  rwa [List.length_replicate] at h

theorem and_split {a b x y : Nat} (ha : a < 256) (hb : b < 256) :
    (a + 256 * x) &&& (b + 256 * y) = (a &&& b) + 256 * (x &&& y) := by
  have hdiv := @Nat.and_div_two_pow (a + 256 * x) (b + 256 * y) 8
  have hmod := @Nat.and_mod_two_pow (a + 256 * x) (b + 256 * y) 8
  rw [show (a + 256 * x) / 2 ^ 8 = x by omega,show (b + 256 * y) / 2 ^ 8 = y by omega] at hdiv
  rw [show (a + 256 * x) % 2 ^ 8 = a by omega,show (b + 256 * y) % 2 ^ 8 = b by omega] at hmod
  omega

theorem high_clear {b : Nat} (hb : 0 < b) (hb' : b < 256) : (b - 1) &&& (255 - b) &&& 128 = 0 := by
  have hbit : ((b - 1) &&& (255 - b)).testBit 7 = false := by
    rw [Nat.testBit_and,Nat.testBit_eq_decide_div_mod_eq,Nat.testBit_eq_decide_div_mod_eq,← Bool.decide_and,decide_eq_false_iff_not]
    omega
  rw [show 128 = 2 ^ 7 from rfl,Nat.and_two_pow,hbit,Bool.toNat_false,Nat.zero_mul]

theorem zeroBytes_cons {n x b : Nat} (hb : 0 < b) (hb' : b < 256) (hx : x < 256 ^ n) :
    zeroBytes (n + 1) (b + 256 * x) = 256 * zeroBytes n x := by
  have hones : ones (n + 1) = 1 + 256 * ones n := rfl
  have hhighs : highs (n + 1) = 128 + 256 * highs n := rfl
  have hlt := ones_lt n
  have hminus : (b + 256 * x + 256 ^ (n + 1) - ones (n + 1)) % 256 ^ (n + 1) = (b - 1) + 256 * ((x + 256 ^ n - ones n) % 256 ^ n) := by
    rw [hones,pow_succ',Nat.mod_mul]
    congr 1
    · omega
    · congr 2
      omega
  have hnot : 256 ^ (n + 1) - 1 - (b + 256 * x) = (255 - b) + 256 * (256 ^ n - 1 - x) := by
    rw [pow_succ']
    omega
  have hand : (b - 1) &&& (255 - b) < 256 := Nat.and_lt_two_pow _ (show 255 - b < 2 ^ 8 by omega)
  rw [zeroBytes,hminus,hnot,hhighs,and_split (by omega) (by omega),and_split hand (by decide),high_clear hb hb',Nat.zero_add]
  rfl

theorem zeroBytes_zero {n x : Nat} (hx : x < 256 ^ n) : zeroBytes (n + 1) (256 * x) ≠ 0 := by
  have hones : ones (n + 1) = 1 + 256 * ones n := rfl
  have hhighs : highs (n + 1) = 128 + 256 * highs n := rfl
  have hlt := ones_lt n
  have hminus : (256 * x + 256 ^ (n + 1) - ones (n + 1)) % 256 ^ (n + 1) =
      255 + 256 * ((256 * x + 256 ^ (n + 1) - ones (n + 1)) / 256 % 256 ^ n) := by
    rw [pow_succ',Nat.mod_mul]
    congr 1
    omega
  have hnot : 256 ^ (n + 1) - 1 - 256 * x = 255 + 256 * (256 ^ n - 1 - x) := by
    rw [pow_succ']
    omega
  rw [zeroBytes,hminus,hnot,hhighs,and_split (by decide) (by decide),and_split (by decide) (by decide)]
  have htop : (255 &&& 255 &&& 128 : Nat) = 128 := by decide
  omega

theorem zeroBytes_mem (bs : List UInt8) : zeroBytes bs.length (ofBytes bs) ≠ 0 ↔ 0 ∈ bs := by
  induction bs with
  | nil => simp [zeroBytes,ofBytes]
  | cons b bs ih =>
    have hlt := ofBytes_lt bs
    have hb := b.toNat_lt
    rw [List.length_cons,ofBytes,List.mem_cons,← ih]
    by_cases hz : b = 0
    · rw [hz,UInt8.toNat_zero,Nat.zero_add]
      exact iff_of_true (zeroBytes_zero hlt) (.inl rfl)
    · have hpos : b.toNat ≠ 0 := fun h => hz (UInt8.toNat_inj.mp h)
      rw [zeroBytes_cons (by omega) hb hlt,or_iff_right (Ne.symm hz)]
      omega

theorem double_replicate (n : Nat) (d : UInt8) :
    ofBytes (List.replicate n d) <<< (n <<< 3) ||| ofBytes (List.replicate n d) = ofBytes (List.replicate (n + n) d) := by
  have hjoin := join_words (List.replicate n d) (List.replicate n d)
  rwa [List.length_replicate,← List.replicate_add] at hjoin

end ByteWords
