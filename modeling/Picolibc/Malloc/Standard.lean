import Mathlib
import Picolibc.Malloc.Layout

namespace Malloc

theorem alignUp_mod (x : Nat) {a : Nat} : alignUp x a % a = 0 := by
  simp [alignUp]

theorem le_alignUp (x : Nat) {a : Nat} (ha : 0 < a) : x ≤ alignUp x a := by
  have h := Nat.div_add_mod (x + (a - 1)) a
  have hm := Nat.mod_lt (x + (a - 1)) ha
  rw [Nat.mul_comm] at h
  unfold alignUp
  omega

theorem alignUp_lt (x : Nat) {a : Nat} (ha : 0 < a) : alignUp x a < x + a := by
  have h := Nat.div_mul_le_self (x + (a - 1)) a
  unfold alignUp
  omega

theorem alignUp_of_mod {x a : Nat} (ha : 0 < a) (h : x % a = 0) : alignUp x a = x := by
  obtain ⟨k,rfl⟩ := Nat.dvd_of_mod_eq_zero h
  have hd : (a * k + (a - 1)) / a = k := by
    rw [Nat.mul_add_div ha,Nat.div_eq_of_lt (by omega)]
    rfl
  rw [alignUp,hd,Nat.mul_comm]

theorem builtinAlignUp_pow (x k : Nat) : builtinAlignUp x (2 ^ k) = alignUp x (2 ^ k) := by
  have hpos : 0 < 2 ^ k := by positivity
  have h := Nat.div_add_mod (x + (2 ^ k - 1)) (2 ^ k)
  rw [builtinAlignUp,if_neg hpos.ne',Nat.and_two_pow_sub_one_eq_mod,alignUp]
  rw [Nat.mul_comm] at h
  omega

theorem upPot_bounds {x : Nat} (h : x ≤ 1024) :
    4 ≤ upPot x ∧ upPot x ≤ 10 ∧ x ≤ 2 ^ upPot x := by
  unfold upPot
  split_ifs <;> omega

theorem upPot_pow {k : Nat} (h : 4 ≤ k) (h' : k ≤ 10) : upPot (2 ^ k) = k := by
  interval_cases k <;> rfl

theorem upPot_le {x k : Nat} (hk : 4 ≤ k) (h : x ≤ 2 ^ k) : upPot x ≤ k := by
  by_contra hlt
  have hp : 2 ^ k ≤ 2 ^ (upPot x - 1) := Nat.pow_le_pow_right (by omega) (by omega)
  revert hlt hp
  unfold upPot
  split_ifs <;> simp only [Nat.reduceSub,Nat.reducePow] at * <;> omega

theorem Config.isBucketSize_iff {cfg : Config} {s : Nat} : cfg.isBucketSize s = true ↔
    cfg.smallBucket ≠ 0 ∧ s ≤ cfg.maxBucket ∧ s = cfg.bucketSize (cfg.bucketNum s) := by
  simp [Config.isBucketSize,and_assoc]

theorem pow_byte {bits word : Nat} (h : bits = 8 * word) : 2 ^ bits = 256 ^ word := by
  rw [h,Nat.pow_mul]

structure Config.Standard (cfg : Config) : Prop where
  word : cfg.headSize = 4 ∨ cfg.headSize = 8
  chunk : cfg.mallocChunkSize = cfg.headSize
  align : cfg.chunkAlign = 2 * cfg.headSize
  bits : cfg.sizeBits = 8 * cfg.headSize
  bucket : cfg.smallBucket ≤ 1024

namespace Config.Standard

variable {cfg : Config} (hc : cfg.Standard)

include hc

theorem word_pos : 0 < cfg.headSize := by
  have := hc.word
  omega

theorem pow_bits : 2 ^ cfg.sizeBits = 256 ^ cfg.headSize := pow_byte hc.bits

theorem pow_bound : 2 ^ 32 ≤ 256 ^ cfg.headSize := by
  rcases hc.word with h | h <;> rw [h] <;> decide

theorem chunkMin_eq : cfg.chunkMin = 2 * cfg.headSize := by
  rcases hc.word with h | h <;> simp [Config.chunkMin,hc.chunk,hc.align,h,alignUp]

theorem bucketExtra_eq : cfg.bucketExtra = 2 * cfg.headSize := by
  rcases hc.word with h | h <;> simp [Config.bucketExtra,hc.align,h,alignUp]

theorem minBucketPot_eq : cfg.minBucketPot = 4 := by
  rw [Config.minBucketPot,hc.chunkMin_eq]
  rcases hc.word with h | h <;> rw [h] <;> rfl

theorem allocMax_eq : cfg.allocMax = 256 ^ cfg.headSize - 1 - 5 * cfg.headSize := by
  have h := hc.pow_bits
  rw [Config.allocMax,Config.chunkMax,hc.align,hc.chunk,h]
  omega

theorem bucketSize_eq (b : Nat) : cfg.bucketSize b = 2 ^ (b + 4) + 2 * cfg.headSize := by
  rw [Config.bucketSize,hc.minBucketPot_eq,hc.bucketExtra_eq]

theorem bucketSize_mod (b : Nat) : cfg.bucketSize b % (2 * cfg.headSize) = 0 := by
  rw [hc.bucketSize_eq,Nat.pow_add]
  rcases hc.word with h | h <;> rw [h] <;> omega

theorem maxPot_bounds : 4 ≤ cfg.maxBucketPot ∧ cfg.maxBucketPot ≤ 10 := by
  have h := upPot_bounds hc.bucket
  exact ⟨h.1,h.2.1⟩

theorem maxBucket_eq : cfg.maxBucket = 2 ^ cfg.maxBucketPot + 2 * cfg.headSize := by
  have h := hc.maxPot_bounds
  rw [Config.maxBucket,hc.bucketSize_eq,hc.minBucketPot_eq,Nat.sub_add_cancel h.1]

theorem wrap_of_lt {n : Nat} (h : n < 256 ^ cfg.headSize) : cfg.wrap n = n := by
  rw [Config.wrap,hc.pow_bits,Nat.mod_eq_of_lt h]

theorem wrapSub_of_le {x y : Nat} (h : y ≤ x) (hx : x < 256 ^ cfg.headSize) :
    cfg.wrapSub x y = x - y := by
  rw [Config.wrapSub,Config.wrap,hc.pow_bits,Nat.mod_eq_of_lt (h.trans_lt hx)]
  rw [show x + (256 ^ cfg.headSize - y) = (x - y) + 256 ^ cfg.headSize by omega]
  rw [Nat.add_mod_right,Nat.mod_eq_of_lt (by omega)]

theorem chunkSize_eq {s : Nat} (hs : s ≤ cfg.allocMax) :
    cfg.chunkSize s = max (2 * cfg.headSize) (alignUp (s + cfg.headSize) (2 * cfg.headSize)) := by
  have hm := hc.allocMax_eq
  have hb := hc.pow_bound
  have hw := hc.word
  have hlt := alignUp_lt (s + cfg.headSize) (show 0 < 2 * cfg.headSize by omega)
  have hin : cfg.wrap (s + cfg.headSize) = s + cfg.headSize := hc.wrap_of_lt (by omega)
  rw [Config.chunkSize,hc.chunkMin_eq,hc.align,hin,hc.wrap_of_lt (by omega)]

theorem chunkSize_spec {s : Nat} (hs : s ≤ cfg.allocMax) :
    cfg.chunkSize s % (2 * cfg.headSize) = 0 ∧ 2 * cfg.headSize ≤ cfg.chunkSize s ∧
      s + cfg.headSize ≤ cfg.chunkSize s ∧ cfg.chunkSize s < 256 ^ cfg.headSize := by
  have hm := hc.allocMax_eq
  have hb := hc.pow_bound
  have hw := hc.word
  have hpos : 0 < 2 * cfg.headSize := by omega
  have hlt := alignUp_lt (s + cfg.headSize) hpos
  have hle := le_alignUp (s + cfg.headSize) hpos
  rw [hc.chunkSize_eq hs]
  refine ⟨?_,le_max_left _ _,le_max_of_le_right hle,?_⟩
  · rcases max_choice (2 * cfg.headSize) (alignUp (s + cfg.headSize) (2 * cfg.headSize)) with h | h
    · rw [h]; simp
    · rw [h]; exact alignUp_mod _
  · exact max_lt (by omega) (by omega)

theorem bucketNum_eq {s : Nat} (h : 2 * cfg.headSize ≤ s) (hs : s ≤ cfg.maxBucket) :
    cfg.bucketNum s = upPot (s - 2 * cfg.headSize) - 4 := by
  have hp := hc.maxPot_bounds
  have hx := hc.maxBucket_eq
  have hk : 2 ^ cfg.maxBucketPot ≤ 2 ^ 10 := Nat.pow_le_pow_right (by omega) hp.2
  have hb := hc.pow_bound
  have hw := hc.word
  rw [Config.bucketNum,hc.bucketExtra_eq,hc.minBucketPot_eq,hc.wrapSub_of_le h (by omega)]

theorem le_bucketSize {s : Nat} (h : 2 * cfg.headSize ≤ s) (hs : s ≤ cfg.maxBucket) :
    s ≤ cfg.bucketSize (cfg.bucketNum s) ∧ cfg.bucketSize (cfg.bucketNum s) ≤ cfg.maxBucket := by
  have hp := hc.maxPot_bounds
  have hx := hc.maxBucket_eq
  have hk : 2 ^ cfg.maxBucketPot ≤ 2 ^ 10 := Nat.pow_le_pow_right (by omega) hp.2
  have hu := upPot_bounds (show s - 2 * cfg.headSize ≤ 1024 by omega)
  have hm : upPot (s - 2 * cfg.headSize) ≤ cfg.maxBucketPot := upPot_le hp.1 (by omega)
  have hpow := Nat.pow_le_pow_right (show 0 < 2 by omega) hm
  rw [hc.bucketNum_eq h hs,hc.bucketSize_eq,Nat.sub_add_cancel hu.1]
  omega

theorem bucketNum_bucketSize {b : Nat} (h : cfg.bucketSize b ≤ cfg.maxBucket) :
    cfg.bucketNum (cfg.bucketSize b) = b := by
  have hp := hc.maxPot_bounds
  have hx := hc.maxBucket_eq
  have hb := hc.bucketSize_eq b
  have hle : b + 4 ≤ cfg.maxBucketPot := by
    apply (Nat.pow_le_pow_iff_right (show 1 < 2 by omega)).mp
    omega
  have hpos : 0 < 2 ^ (b + 4) := by positivity
  rw [hc.bucketNum_eq (by omega) h,hb,Nat.add_sub_cancel,upPot_pow (by omega) (by omega)]
  omega

theorem isBucketSize_bucketSize {b : Nat} (h0 : cfg.smallBucket ≠ 0)
    (h : cfg.bucketSize b ≤ cfg.maxBucket) : cfg.isBucketSize (cfg.bucketSize b) = true := by
  rw [Config.isBucketSize_iff,hc.bucketNum_bucketSize h]
  exact ⟨h0,h,rfl⟩

end Config.Standard

end Malloc
