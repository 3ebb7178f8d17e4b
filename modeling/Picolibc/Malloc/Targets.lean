import Mathlib
import Picolibc.Malloc.Memalign

namespace Malloc

open ByteMemory

structure Config.Layout (cfg : Config) : Prop where
  head : 0 < cfg.headSize
  bits : cfg.sizeBits = 8 * cfg.headSize
  chunk : 0 < cfg.mallocChunkSize ∧ cfg.mallocChunkSize ≤ 2 ^ (cfg.sizeBits - 2)
  align : ∃ k, 0 < k ∧ k + 2 ≤ cfg.sizeBits ∧ cfg.chunkAlign = 2 ^ k

section

variable (cfg : Config) (env : Env)

def memalignAlign (align : Nat) : Nat := max align (upPot cfg.chunkMin)

def rejects (align s : Nat) : Prop :=
  align &&& (align - 1) ≠ 0 ∨ cfg.allocMax < memalignAlign cfg align ∨
    cfg.allocMax - memalignAlign cfg align < s

def sizeWithPadding (align s : Nat) : Nat := cfg.chunkSize s + memalignAlign cfg align + cfg.chunkMin

def Piece (n : Nat) : Prop := n = 0 ∨ cfg.chunkMin ≤ n

def freeFront (g : Heap) (r front rest : Nat) : Option Heap :=
  if front = 0 then some g else makeFreeChunk cfg (g.setSize cfg (r + front) rest) r front

def freeBack (g : Heap) (c n back : Nat) : Option Heap :=
  if back = 0 then some g else makeFreeChunk cfg (g.setSize cfg c n) (c + n) back

inductive MemalignSafe (h : Heap) (align s : Nat) : Prop
  | rejected (e : Errno) (hr : rejects cfg align s)
      (heq : memalign cfg env h align s = some (h.setErrno e,0))
  | exhausted (g : Heap) (hfit : sizeWithPadding cfg align s < 2 ^ cfg.sizeBits)
      (hmal : malloc cfg env h (sizeWithPadding cfg align s) = some (g,0))
      (heq : memalign cfg env h align s = some (g,0))
  | carved (g g1 g2 : Heap) (r front n back : Nat)
      (hfit : sizeWithPadding cfg align s < 2 ^ cfg.sizeBits)
      (hmal : malloc cfg env h (sizeWithPadding cfg align s) = some (g,r)) (hr : r ≠ 0)
      (htile : front + n + back = g.size cfg r) (hfront : Piece cfg front) (hback : Piece cfg back)
      (hfree1 : freeFront cfg g r front (n + back) = some g1)
      (hfree2 : freeBack cfg g1 (r + front) n back = some g2)
      (heq : memalign cfg env h align s = some (g2,r + front)) (halign : align ∣ r + front)
      (huse : s ≤ g2.chunkUsable cfg (r + front))

structure Block (g : Heap) (r n : Nat) : Prop where
  aligned : r % cfg.chunkAlign = 0
  whole : g.sizeRef cfg r % cfg.chunkAlign = 0
  enough : cfg.chunkSize n ≤ g.sizeRef cfg r

def Carvable (g : Heap) (r : Nat) : Prop :=
  ∀ front n back, front + n + back = g.sizeRef cfg r → Piece cfg front → Piece cfg back →
    cfg.chunkMin ≤ n → front % cfg.chunkAlign = 0 → n % cfg.chunkAlign = 0 → back % cfg.chunkAlign = 0 → ∃ g1 g2,
      freeFront cfg g r front (n + back) = some g1 ∧ g1.sizeRef cfg (r + front) = n + back ∧
      freeBack cfg g1 (r + front) n back = some g2 ∧ g2.sizeRef cfg (r + front) = n

def Obeys (h : Heap) (n : Nat) : Prop :=
  ∃ g r, malloc cfg env h n = some (g,r) ∧ (r ≠ 0 → Block cfg g r n ∧ Carvable cfg g r)

def memalignFits (align s : Nat) : Prop :=
  rejects cfg align s ∨ sizeWithPadding cfg align s < 2 ^ cfg.sizeBits ∧
    (cfg.allocMax < sizeWithPadding cfg align s ∨ align ≠ 0 ∧
      (memalignAlign cfg align ≤ cfg.chunkAlign ∨
        cfg.chunkMin ≤ cfg.chunkAlign + memalignAlign cfg align))

instance (align s : Nat) : Decidable (rejects cfg align s) :=
  inferInstanceAs (Decidable (_ ∨ _))

instance (align s : Nat) : Decidable (memalignFits cfg align s) :=
  inferInstanceAs (Decidable (_ ∨ _))

end

theorem fuel_succ (cfg : Config) : ∃ k, fuel cfg = k + 1 := by
  have hpos : 0 < fuel cfg := by
    unfold fuel
    positivity
  exact ⟨fuel cfg - 1,by omega⟩

theorem upPot_large {x : Nat} (h : 4 < upPot x) : 2 ^ (upPot x - 1) < x := by
  revert h
  unfold upPot
  split_ifs <;> simp <;> omega

theorem upPot_le_ten (x : Nat) : upPot x ≤ 10 := by
  unfold upPot
  split_ifs <;> omega

theorem and_low {x m k : Nat} (hm : m < 2 ^ k) : x &&& m = (x % 2 ^ k) &&& m := by
  have hlt : x &&& m < 2 ^ k := Nat.and_le_right.trans_lt hm
  rw [← Nat.mod_eq_of_lt hlt,Nat.and_mod_two_pow,Nat.mod_eq_of_lt hm]

theorem and_mask_of_dvd {x m k : Nat} (hx : x % 2 ^ k = 0) (hm : m < 2 ^ k) : (x + m) &&& m = m := by
  rw [and_low hm,Nat.add_mod,hx,Nat.zero_add,Nat.mod_mod,Nat.mod_eq_of_lt hm,Nat.and_self]

theorem builtinAlignUp_self {x a k : Nat} (hx : x % 2 ^ k = 0) (ha : 0 < a) (hle : a ≤ 2 ^ k) :
    builtinAlignUp x a = x := by
  rw [builtinAlignUp,if_neg ha.ne',and_mask_of_dvd hx (show a - 1 < 2 ^ k by omega)]
  omega

theorem Config.wrapSub_of_sub_lt (cfg : Config) {x y : Nat} (h : y ≤ x) (hlt : x - y < 2 ^ cfg.sizeBits) :
    cfg.wrapSub x y = x - y := by
  have hpos : 0 < 2 ^ cfg.sizeBits := by positivity
  have hdiv := Nat.div_add_mod y (2 ^ cfg.sizeBits)
  have hmod := Nat.mod_lt y hpos
  rw [Config.wrapSub,Config.wrap,show x + (2 ^ cfg.sizeBits - y % 2 ^ cfg.sizeBits) =
    (x - y) + 2 ^ cfg.sizeBits * (y / 2 ^ cfg.sizeBits + 1) by rw [Nat.mul_add,Nat.mul_one]; omega]
  rw [Nat.add_mul_mod_self_left,Nat.mod_eq_of_lt hlt]

theorem Config.chunkMin_mod (cfg : Config) : cfg.chunkMin % cfg.chunkAlign = 0 := alignUp_mod _

namespace Config.Layout

variable {cfg : Config} (L : cfg.Layout)

include L

theorem pow_bits : 2 ^ cfg.sizeBits = 256 ^ cfg.headSize := pow_byte L.bits

theorem align_even : cfg.chunkAlign % 2 = 0 := by
  obtain ⟨k,hk,-,hp⟩ := L.align
  rw [hp,show k = (k - 1) + 1 by omega,Nat.pow_succ,Nat.mul_mod_left]

theorem align_two : 2 ≤ cfg.chunkAlign := by
  obtain ⟨k,hk,-,hp⟩ := L.align
  rw [hp]
  exact Nat.pow_le_pow_right (show 0 < 2 by omega) (show 1 ≤ k from hk)

theorem even_of_mod {n : Nat} (h : n % cfg.chunkAlign = 0) : n / 2 * 2 = n := by
  have hd : 2 ∣ n := (Nat.dvd_of_mod_eq_zero L.align_even).trans (Nat.dvd_of_mod_eq_zero h)
  omega

theorem quarter : cfg.chunkAlign ≤ 2 ^ (cfg.sizeBits - 2) ∧ 4 * 2 ^ (cfg.sizeBits - 2) = 2 ^ cfg.sizeBits ∧
    cfg.headSize < 2 ^ (cfg.sizeBits - 2) := by
  have h8 : 8 ≤ cfg.sizeBits := by
    have := L.head
    rw [L.bits]
    omega
  obtain ⟨k,-,hk,hp⟩ := L.align
  refine ⟨?_,?_,?_⟩
  · rw [hp]
    exact Nat.pow_le_pow_right (by omega) (by omega)
  · rw [show cfg.sizeBits = (cfg.sizeBits - 2) + 2 by omega,Nat.pow_add]
    simp
    omega
  · refine Nat.lt_of_le_of_lt ?_ (Nat.lt_pow_self (show 1 < 2 by omega))
    rw [L.bits]
    have := L.head
    omega

theorem chunkMin_ge : cfg.mallocChunkSize + cfg.headSize ≤ cfg.chunkMin :=
  le_alignUp _ (by have := L.align_two; omega)

theorem chunkMin_lt : cfg.chunkMin < cfg.mallocChunkSize + cfg.headSize + cfg.chunkAlign :=
  alignUp_lt _ (by have := L.align_two; omega)

theorem allocMax_add : cfg.allocMax + cfg.headSize + 2 * max cfg.mallocChunkSize cfg.chunkAlign + 1 =
    2 ^ cfg.sizeBits := by
  obtain ⟨ha,hq,hh⟩ := L.quarter
  have hc := L.chunk.2
  have hm : max cfg.mallocChunkSize cfg.chunkAlign ≤ 2 ^ (cfg.sizeBits - 2) := max_le hc ha
  unfold Config.allocMax Config.chunkMax
  omega

theorem chunkSize_eq {s : Nat} (hs : s ≤ cfg.allocMax) :
    cfg.chunkSize s = max cfg.chunkMin (alignUp (s + cfg.headSize) cfg.chunkAlign) := by
  have hm := L.allocMax_add
  have hpos := L.align_two
  have hlt := alignUp_lt (s + cfg.headSize) (show 0 < cfg.chunkAlign by omega)
  have hle : cfg.chunkAlign ≤ max cfg.mallocChunkSize cfg.chunkAlign := le_max_right _ _
  rw [Config.chunkSize,Config.wrap,Config.wrap,Nat.mod_eq_of_lt (show s + cfg.headSize < 2 ^ cfg.sizeBits by omega),
    Nat.mod_eq_of_lt (by omega)]

theorem chunkSize_spec {s : Nat} (hs : s ≤ cfg.allocMax) :
    cfg.chunkSize s % cfg.chunkAlign = 0 ∧ cfg.chunkMin ≤ cfg.chunkSize s ∧
      s + cfg.headSize ≤ cfg.chunkSize s ∧ cfg.chunkSize s < 2 ^ cfg.sizeBits := by
  have hpos := L.align_two
  rw [L.chunkSize_eq hs]
  refine ⟨?_,le_max_left _ _,le_max_of_le_right (le_alignUp _ (by omega)),?_⟩
  · rcases max_choice cfg.chunkMin (alignUp (s + cfg.headSize) cfg.chunkAlign) with h | h
    · rw [h]
      exact cfg.chunkMin_mod
    · rw [h]
      exact alignUp_mod _
  · have hm := L.allocMax_add
    have hlt := alignUp_lt (s + cfg.headSize) (show 0 < cfg.chunkAlign by omega)
    have hle : cfg.chunkAlign ≤ max cfg.mallocChunkSize cfg.chunkAlign := le_max_right _ _
    have hle' : cfg.mallocChunkSize ≤ max cfg.mallocChunkSize cfg.chunkAlign := le_max_left _ _
    have hmin := L.chunkMin_lt
    exact max_lt (by omega) (by omega)

end Config.Layout

section

variable {cfg : Config} {env : Env} {g h : Heap} {r n s align al off : Nat}

def frontPiece (cfg : Config) (off al : Nat) : Nat :=
  if off = 0 then 0 else if off < cfg.chunkMin then off + al else off

def backPiece (cfg : Config) (rest need : Nat) : Nat :=
  if cfg.chunkMin ≤ rest - need then rest - need else 0

theorem splitFront_eq (hb : builtinAlignUp r al = r + off) (hlt : off < 2 ^ cfg.sizeBits) :
    splitFront cfg g r al =
      (freeFront cfg g r (frontPiece cfg off al) (cfg.wrapSub (g.size cfg r) (frontPiece cfg off al))).map
        (fun g' => (g',r + frontPiece cfg off al)) := by
  have hsub : cfg.wrapSub (r + off) r = off := by
    rw [cfg.wrapSub_of_sub_lt (by omega) (by omega)]
    omega
  unfold splitFront frontPiece freeFront
  simp only [hb,hsub]
  by_cases h0 : off = 0
  · rw [if_pos h0,if_pos h0,if_pos rfl]
    rfl
  · rw [if_neg h0,if_neg h0]
    by_cases hs : off < cfg.chunkMin
    · rw [if_pos hs,if_pos hs,if_neg (by omega),Nat.add_assoc]
    · rw [if_neg hs,if_neg hs,if_neg h0]

theorem memalign_eq (hrej : ¬rejects cfg align s) : memalign cfg env h align s =
    match malloc cfg env h (cfg.wrap (sizeWithPadding cfg align s)) with
    | none => none
    | some (g,r) => if r = 0 then some (g,0) else
      (splitFront cfg g r (memalignAlign cfg align)).bind
        (fun x => splitBack cfg x.1 x.2 (cfg.chunkSize s)) := by
  rw [rejects,not_or] at hrej
  rw [memalign,if_neg hrej.1]
  exact if_neg hrej.2

theorem pow_of_mask (h0 : align ≠ 0) (hp : align &&& (align - 1) = 0) : ∃ k, align = 2 ^ k :=
  (Nat.and_sub_one_eq_zero_iff_isPowerOfTwo h0).mp hp

theorem dvd_of_pow_le {i j : Nat} (h : 2 ^ i ≤ 2 ^ j) : 2 ^ i ∣ 2 ^ j :=
  pow_dvd_pow 2 ((Nat.pow_le_pow_iff_right (by omega)).mp h)

theorem memalignAlign_pow (h0 : align ≠ 0) (hp : align &&& (align - 1) = 0)
    (hlt : cfg.chunkAlign < memalignAlign cfg align)
    (hmin : cfg.chunkMin ≤ cfg.chunkAlign + memalignAlign cfg align) :
    ∃ k, memalignAlign cfg align = 2 ^ k := by
  unfold memalignAlign at *
  rcases Nat.le_total (upPot cfg.chunkMin) align with hle | hle
  · rw [max_eq_left hle]
    exact pow_of_mask h0 hp
  · rw [max_eq_right hle] at *
    have hten := upPot_le_ten cfg.chunkMin
    by_cases h4 : upPot cfg.chunkMin ≤ 4
    · have hge : 4 ≤ upPot cfg.chunkMin := (upPot_bounds (by omega)).1
      exact ⟨2,by omega⟩
    · have hlow := upPot_large (Nat.not_le.mp h4)
      exfalso
      interval_cases upPot cfg.chunkMin <;> omega

variable (L : cfg.Layout)

include L

theorem front_spec (h0 : align ≠ 0) (hp : align &&& (align - 1) = 0)
    (hfront : memalignAlign cfg align ≤ cfg.chunkAlign ∨
      cfg.chunkMin ≤ cfg.chunkAlign + memalignAlign cfg align) (hr : r % cfg.chunkAlign = 0) :
    ∃ off, builtinAlignUp r (memalignAlign cfg align) = r + off ∧ off ≤ memalignAlign cfg align ∧
      frontPiece cfg off (memalignAlign cfg align) % cfg.chunkAlign = 0 ∧
      Piece cfg (frontPiece cfg off (memalignAlign cfg align)) ∧
      frontPiece cfg off (memalignAlign cfg align) ≤ cfg.chunkMin + memalignAlign cfg align ∧
      align ∣ r + frontPiece cfg off (memalignAlign cfg align) := by
  obtain ⟨k,-,-,hk⟩ := L.align
  obtain ⟨i,hi⟩ := pow_of_mask h0 hp
  have hle : align ≤ memalignAlign cfg align := le_max_left _ _
  by_cases hsmall : memalignAlign cfg align ≤ cfg.chunkAlign
  · refine ⟨0,builtinAlignUp_self (hk ▸ hr) (by omega) (hk ▸ hsmall),Nat.zero_le _,?_⟩
    refine ⟨rfl,.inl rfl,Nat.zero_le _,?_⟩
    have hdvd : align ∣ cfg.chunkAlign := by
      rw [hk,hi]
      apply dvd_of_pow_le
      omega
    exact hdvd.trans (Nat.dvd_of_mod_eq_zero hr)
  · have hmin := hfront.resolve_left hsmall
    obtain ⟨j,hj⟩ := memalignAlign_pow h0 hp (by omega) hmin
    rw [hj] at hle hsmall hmin ⊢
    have hpos : 0 < 2 ^ j := by positivity
    have hge := le_alignUp r hpos
    have hlt := alignUp_lt r hpos
    have hdvd : cfg.chunkAlign ∣ 2 ^ j := by
      rw [hk] at hsmall ⊢
      apply dvd_of_pow_le
      omega
    have hup : 2 ^ j ∣ alignUp r (2 ^ j) := Nat.dvd_of_mod_eq_zero (alignUp_mod r)
    have hoff : cfg.chunkAlign ∣ alignUp r (2 ^ j) - r :=
      Nat.dvd_sub (hdvd.trans hup) (Nat.dvd_of_mod_eq_zero hr)
    have halign : align ∣ 2 ^ j := by
      rw [hi] at hle ⊢
      exact dvd_of_pow_le hle
    refine ⟨alignUp r (2 ^ j) - r,by rw [builtinAlignUp_pow]; omega,by omega,?_⟩
    generalize hx : alignUp r (2 ^ j) - r = off at *
    have hsum : r + off = alignUp r (2 ^ j) := by omega
    unfold frontPiece
    by_cases hz : off = 0
    · rw [if_pos hz]
      refine ⟨rfl,.inl rfl,Nat.zero_le _,?_⟩
      rw [← hz,hsum]
      exact halign.trans hup
    · rw [if_neg hz]
      have hA := Nat.le_of_dvd (by omega) hoff
      by_cases hs : off < cfg.chunkMin
      · rw [if_pos hs]
        refine ⟨Nat.mod_eq_zero_of_dvd (dvd_add hoff hdvd),.inr (by omega),by omega,?_⟩
        rw [← Nat.add_assoc,hsum]
        exact halign.trans (dvd_add hup dvd_rfl)
      · rw [if_neg hs]
        refine ⟨Nat.mod_eq_zero_of_dvd hoff,.inr (by omega),by omega,?_⟩
        rw [hsum]
        exact halign.trans hup

theorem splitBack_eq {c rest need : Nat} (hs : g.sizeRef cfg c = rest) (hr : rest % cfg.chunkAlign = 0)
    (hn : need % cfg.chunkAlign = 0) (hle : need ≤ rest) :
    splitBack cfg g c need =
      (freeBack cfg g c (rest - backPiece cfg rest need) (backPiece cfg rest need)).map
        (fun g' => (g',c)) := by
  have hlt : rest < 2 ^ cfg.sizeBits := by
    rw [L.pow_bits,← hs]
    exact load_lt _ _ _
  have hmin := L.chunkMin_ge
  have hpos := L.head
  have hsize : g.size cfg c = rest := by rw [Heap.size,hs,L.even_of_mod hr]
  have hoff : cfg.wrapSub (g.size cfg c) need = rest - need := by
    rw [hsize,cfg.wrapSub_of_sub_lt hle (by omega)]
  unfold splitBack backPiece freeBack
  simp only [hoff]
  by_cases hx : cfg.chunkMin ≤ rest - need
  · have hkeep : cfg.wrapSub (g.sizeRef cfg c) (rest - need) = need := by
      rw [hs,cfg.wrapSub_of_sub_lt (by omega) (by omega)]
      omega
    have hafter : (g.setSizeRef cfg c need).chunkAfter cfg c = c + need := by
      rw [Heap.chunkAfter,Heap.size,sizeRef_setSizeRef_same (by rw [← L.pow_bits]; omega),L.even_of_mod hn]
    rw [if_pos hx,if_pos hx,if_neg (by omega),hkeep,hafter,Heap.setSize,Nat.sub_sub_self hle]
  · rw [if_neg hx,if_neg hx,if_pos rfl]
    rfl

theorem memalign_safe (hcond : memalignFits cfg align s)
    (hob : Obeys cfg env h (cfg.wrap (sizeWithPadding cfg align s))) : MemalignSafe cfg env h align s := by
  by_cases hrej : rejects cfg align s
  · by_cases hp : align &&& (align - 1) = 0
    · refine .rejected .enomem hrej ?_
      rw [memalign,if_neg (by simpa using hp)]
      exact if_pos (hrej.resolve_left (by simpa using hp))
    · refine .rejected .einval hrej ?_
      rw [memalign,if_pos hp]
  obtain ⟨hfit,hroom⟩ := hcond.resolve_left hrej
  rw [Config.wrap,Nat.mod_eq_of_lt hfit] at hob
  obtain ⟨g,r,hmal,hblock⟩ := hob
  have hstep : memalign cfg env h align s = if r = 0 then some (g,0) else
      (splitFront cfg g r (memalignAlign cfg align)).bind
        (fun x => splitBack cfg x.1 x.2 (cfg.chunkSize s)) := by
    rw [memalign_eq hrej,Config.wrap,Nat.mod_eq_of_lt hfit,hmal]
  simp only [rejects,not_or,not_not,Nat.not_lt] at hrej
  obtain ⟨hp,hal,hs⟩ := hrej
  by_cases hr : r = 0
  · subst hr
    exact .exhausted g hfit hmal (by rw [hstep,if_pos rfl])
  have hmax : ¬cfg.allocMax < sizeWithPadding cfg align s := by
    intro hlt
    rw [malloc,if_pos hlt] at hmal
    cases hmal
    exact hr rfl
  obtain ⟨h0,hfront⟩ := hroom.resolve_left hmax
  obtain ⟨hb,hcarve⟩ := hblock hr
  obtain ⟨off,hup,hoff,hmod,hpiece,hbound,hdvd⟩ := front_spec L h0 hp hfront hb.aligned
  obtain ⟨hc1,hc2,hc3,-⟩ := L.chunkSize_spec (show s ≤ cfg.allocMax by omega)
  obtain ⟨-,-,hn3,-⟩ := L.chunkSize_spec (Nat.not_lt.mp hmax)
  have hsz := hb.enough
  generalize hf : frontPiece cfg off (memalignAlign cfg align) = front at *
  generalize hR : g.sizeRef cfg r - front = rest
  have hpad : sizeWithPadding cfg align s = cfg.chunkSize s + memalignAlign cfg align + cfg.chunkMin := rfl
  have hneed : cfg.chunkSize s ≤ rest := by omega
  have hrest : rest % cfg.chunkAlign = 0 := by
    rw [← hR]
    exact Nat.mod_eq_zero_of_dvd
      (Nat.dvd_sub (Nat.dvd_of_mod_eq_zero hb.whole) (Nat.dvd_of_mod_eq_zero hmod))
  have hback : Piece cfg (backPiece cfg rest (cfg.chunkSize s)) ∧
      backPiece cfg rest (cfg.chunkSize s) ≤ rest - cfg.chunkSize s ∧
      backPiece cfg rest (cfg.chunkSize s) % cfg.chunkAlign = 0 := by
    unfold backPiece
    split_ifs with hx
    · exact ⟨.inr hx,le_rfl,Nat.mod_eq_zero_of_dvd
        (Nat.dvd_sub (Nat.dvd_of_mod_eq_zero hrest) (Nat.dvd_of_mod_eq_zero hc1))⟩
    · exact ⟨.inl rfl,Nat.zero_le _,Nat.zero_mod _⟩
  generalize hB : backPiece cfg rest (cfg.chunkSize s) = back at *
  obtain ⟨hback,hble,hbmod⟩ := hback
  have hkeep : (rest - back) % cfg.chunkAlign = 0 := Nat.mod_eq_zero_of_dvd
    (Nat.dvd_sub (Nat.dvd_of_mod_eq_zero hrest) (Nat.dvd_of_mod_eq_zero hbmod))
  have hsize : g.size cfg r = g.sizeRef cfg r := L.even_of_mod hb.whole
  have hlt : g.sizeRef cfg r < 2 ^ cfg.sizeBits := by
    rw [L.pow_bits]
    exact load_lt _ _ _
  obtain ⟨g1,g2,hfree1,hs1,hfree2,hs2⟩ := hcarve front (rest - back) back (by omega) hpiece hback (by omega)
    hmod hkeep hbmod
  have hrb : rest - back + back = rest := by omega
  rw [hrb] at hs1
  have hsf : splitFront cfg g r (memalignAlign cfg align) = some (g1,r + front) := by
    rw [splitFront_eq hup (by omega),hf,hsize,cfg.wrapSub_of_sub_lt (by omega) (by omega),hR,← hrb,hfree1]
    rfl
  refine .carved g g1 g2 r front (rest - back) back hfit hmal hr (by omega) hpiece hback hfree1 hfree2 ?_ hdvd ?_
  · rw [hstep,if_neg hr,hsf,Option.bind_some,splitBack_eq L hs1 hrest hc1 hneed,hB,hfree2]
    rfl
  · rw [Heap.chunkUsable,Heap.size,hs2,L.even_of_mod hkeep,Config.mallocSize]
    omega

end

section

variable {cfg : Config} {h : Heap} {p q y z a v : Nat}

def beginFree (cfg : Config) (h : Heap) (p : Nat) : Heap :=
  (if cfg.clearFreed then h.memset p 0 (h.chunkUsable cfg p) else h.setNext cfg p 0).markFree cfg p

structure Freeable (cfg : Config) (h : Heap) (p z : Nat) : Prop where
  low : cfg.headSize ≤ p
  ne : p ≠ 0
  size : h.sizeRef cfg p = z
  even : z / 2 * 2 = z
  room : cfg.mallocChunkSize + cfg.headSize ≤ z

theorem sizeRef_congr {h h' : Heap} (hm : ∀ a, p - cfg.headSize ≤ a → a < p - cfg.headSize + cfg.headSize → h'.mem a = h.mem a) :
    h'.sizeRef cfg p = h.sizeRef cfg p :=
  load_congr hm

theorem Freeable.lt (hf : Freeable cfg h p z) : z + 1 < 256 ^ cfg.headSize + 1 := by
  have hz := load_lt h.mem (p - cfg.headSize) cfg.headSize
  have hs := hf.size
  unfold Heap.sizeRef at hs
  omega

theorem Freeable.succ_lt (hf : Freeable cfg h p z) (hh : 0 < cfg.headSize) : z + 1 < 256 ^ cfg.headSize := by
  have hlt := hf.lt
  have heven : 256 ^ cfg.headSize % 2 = 0 := by
    rw [show cfg.headSize = (cfg.headSize - 1) + 1 by omega,Nat.pow_succ]
    omega
  have hz := hf.even
  omega

theorem beginFree_spec (hh : 0 < cfg.headSize) (hf : Freeable cfg h p z) :
    (∀ a, a < p - cfg.headSize ∨ p + z - cfg.headSize ≤ a → (beginFree cfg h p).mem a = h.mem a) ∧
      (beginFree cfg h p).sizeRef cfg p = z + 1 ∧ (beginFree cfg h p).freeList = h.freeList ∧
      (beginFree cfg h p).bucketList = h.bucketList := by
  obtain ⟨hlow,hne,hsize,heven,hroom⟩ := hf
  have hlt := Freeable.succ_lt ⟨hlow,hne,hsize,heven,hroom⟩ hh
  obtain ⟨h1,hh1⟩ : ∃ h1, h1 = if cfg.clearFreed then h.memset p 0 (h.chunkUsable cfg p) else h.setNext cfg p 0 :=
    ⟨_,rfl⟩
  have hmem : ∀ a, a < p ∨ p + z - cfg.headSize ≤ a → h1.mem a = h.mem a := by
    intro a ha
    rw [hh1]
    by_cases hc : cfg.clearFreed = true
    · rw [if_pos hc]
      apply fill_apart
      rw [Heap.chunkUsable,Heap.size,hsize,heven,Config.mallocSize]
      omega
    · rw [if_neg hc]
      exact store_apart (by omega)
  have hsz : h1.sizeRef cfg p = z := by
    rw [← hsize]
    exact sizeRef_congr (fun a ha ha' => hmem a (by omega))
  have hkeep : h1.freeList = h.freeList ∧ h1.bucketList = h.bucketList := by
    rw [hh1]
    split_ifs <;> exact ⟨rfl,rfl⟩
  unfold beginFree
  rw [← hh1]
  refine ⟨?_,?_,hkeep⟩
  · intro a ha
    refine Eq.trans (store_apart (by omega)) (hmem a (by omega))
  · rw [Heap.markFree,hsz,heven]
    exact load_store_of_lt _ _ hlt

theorem mallocFree_eq (hh : 0 < cfg.headSize) (hf : Freeable cfg h p z) :
    (cfg.isBucketSize z = true →
      mallocFree cfg h p = some ((beginFree cfg h p).pushBucket cfg (cfg.bucketNum z) p)) ∧
    ∀ l c, cfg.isBucketSize z = false →
      findFree cfg (beginFree cfg h p) p (fuel cfg) .head = some (.insert l c) → mallocFree cfg h p =
        some (migrate cfg (mergeNext cfg (((beginFree cfg h p).setNext cfg p c).set cfg l p) p c) l p) := by
  have hfree : h.isFree cfg p = false := by
    have hz := hf.even
    rw [Heap.isFree,hf.size]
    simp
    omega
  have hsize : (beginFree cfg h p).size cfg p = z := by
    have hz := hf.even
    rw [Heap.size,(beginFree_spec hh hf).2.1]
    omega
  have hbegin : (if cfg.clearFreed then h.memset p 0 (h.chunkUsable cfg p) else h.setNext cfg p 0).markFree cfg p =
    beginFree cfg h p := rfl
  rw [mallocFree,if_neg hf.ne,if_neg (by rw [hfree]; exact Bool.false_ne_true)]
  simp only [hbegin,hsize]
  refine ⟨fun hb => if_pos hb,fun l c hb hfind => ?_⟩
  rw [if_neg (by rw [hb]; exact Bool.false_ne_true),hfind]

theorem insert_last (hsize : h.size cfg p = z) (hz : 0 < z) (hb : cfg.isBucketSize z = false) (l : Slot) :
    migrate cfg (mergeNext cfg h p 0) l p = h := by
  have hmerge : mergeNext cfg h p 0 = h := by
    rw [mergeNext,if_neg]
    rw [Heap.chunkAfter,hsize]
    omega
  rw [hmerge,migrate]
  simp only [hsize,hb]
  rfl

theorem free_alone (hh : 0 < cfg.headSize) (hf : Freeable cfg h p z) (hl : h.freeList = 0) :
    ∃ h', mallocFree cfg h p = some h' ∧
      (∀ a, a < p - cfg.headSize ∨ p + z - cfg.headSize ≤ a → h'.mem a = h.mem a) ∧
      (h'.freeList = 0 ∨ h'.freeList = p ∧ h'.next cfg p = 0 ∧ h'.sizeRef cfg p = z + 1) := by
  obtain ⟨hmem,hsz,hlist,-⟩ := beginFree_spec hh hf
  obtain ⟨hbk,hin⟩ := mallocFree_eq hh hf
  have hroom := hf.room
  have hlow := hf.low
  by_cases hb : cfg.isBucketSize z = true
  · refine ⟨_,hbk hb,?_,.inl (hlist.trans hl)⟩
    intro a ha
    exact (store_apart (by omega)).trans (hmem a ha)
  · have hb' := eq_false_of_ne_true hb
    obtain ⟨k,hk⟩ := fuel_succ cfg
    have hfind : findFree cfg (beginFree cfg h p) p (fuel cfg) .head = some (.insert .head 0) := by
      rw [hk,findFree]
      simp only [Heap.get,hlist,hl,if_true]
    have hsz' : (((beginFree cfg h p).setNext cfg p 0).set cfg .head p).sizeRef cfg p = z + 1 := by
      rw [← hsz]
      exact sizeRef_congr (fun a ha ha' => store_apart (by omega))
    have hsize : (((beginFree cfg h p).setNext cfg p 0).set cfg .head p).size cfg p = z := by
      have hz := hf.even
      rw [Heap.size,hsz']
      omega
    refine ⟨_,hin _ _ hb' hfind,?_⟩
    rw [insert_last hsize (by omega) hb']
    refine ⟨fun a ha => (store_apart (by omega)).trans (hmem a ha),.inr ⟨rfl,?_,hsz'⟩⟩
    exact load_store_of_lt _ _ (by positivity)

theorem free_second (hh : 0 < cfg.headSize) (hf : Freeable cfg h p z) (hl : h.freeList = q) (hq : q ≠ 0)
    (hnext : h.next cfg q = 0) (hsq : h.sizeRef cfg q = y + 1) (hy : y / 2 * 2 = y)
    (hroom : cfg.mallocChunkSize + cfg.headSize ≤ y) (hlow : cfg.headSize ≤ q) (hgap : q + y < p)
    (hpos : 0 < cfg.mallocChunkSize) (hsep : q + y ≤ p - cfg.headSize) :
    ∃ h', mallocFree cfg h p = some h' ∧
      ∀ a, q + y - cfg.headSize ≤ a → a < p - cfg.headSize → h'.mem a = h.mem a := by
  obtain ⟨hmem,hsz,hlist,-⟩ := beginFree_spec hh hf
  obtain ⟨hbk,hin⟩ := mallocFree_eq hh hf
  have hroom' := hf.room
  by_cases hb : cfg.isBucketSize z = true
  · refine ⟨_,hbk hb,?_⟩
    intro a ha ha'
    exact (store_apart (by omega)).trans (hmem a (by omega))
  · have hb' := eq_false_of_ne_true hb
    obtain ⟨k,hk⟩ : ∃ k, fuel cfg = k + 2 := by
      refine ⟨fuel cfg - 2,?_⟩
      have h8 : 2 ^ 1 ≤ fuel cfg := Nat.pow_le_pow_right (by omega) (by omega)
      omega
    have hqnext : (beginFree cfg h p).next cfg q = 0 := by
      rw [← hnext]
      exact load_congr (fun a ha ha' => hmem a (by omega))
    have hqsize : (beginFree cfg h p).size cfg q = y := by
      have hs : (beginFree cfg h p).sizeRef cfg q = y + 1 := by
        rw [← hsq]
        exact sizeRef_congr (fun a ha ha' => hmem a (by omega))
      rw [Heap.size,hs]
      omega
    have hfind : findFree cfg (beginFree cfg h p) p (fuel cfg) .head = some (.insert (.next q) 0) := by
      rw [hk,findFree]
      simp only [Heap.get,hlist,hl]
      rw [if_neg hq,if_neg (by omega),Heap.chunkAfter,hqsize,if_neg (by omega),findFree]
      simp only [Heap.get,hqnext,if_true]
    have hsz' : (((beginFree cfg h p).setNext cfg p 0).set cfg (.next q) p).sizeRef cfg p = z + 1 := by
      rw [← hsz]
      exact sizeRef_congr (fun a ha ha' => (store_apart (by omega)).trans (store_apart (by omega)))
    have hsize : (((beginFree cfg h p).setNext cfg p 0).set cfg (.next q) p).size cfg p = z := by
      have hz := hf.even
      rw [Heap.size,hsz']
      omega
    refine ⟨_,hin _ _ hb' hfind,?_⟩
    rw [insert_last hsize (by omega) hb']
    intro a ha ha'
    exact (store_apart (by omega)).trans ((store_apart (by omega)).trans (hmem a (by omega)))

variable {g : Heap} {r front n back : Nat} (L : cfg.Layout)

include L

theorem sizeRef_setSize_lower (hlow : cfg.headSize ≤ r) (hf : front < 256 ^ cfg.headSize)
    (hmin : cfg.chunkMin ≤ v) : ((g.setSize cfg r front).setSize cfg (r + v) y).sizeRef cfg r = front := by
  have hp := L.chunkMin_ge
  have hkeep : ((g.setSize cfg r front).setSize cfg (r + v) y).sizeRef cfg r = (g.setSize cfg r front).sizeRef cfg r :=
    load_store_apart (by omega)
  rw [hkeep]
  exact sizeRef_setSizeRef_same hf

theorem freeFront_spec (hlow : cfg.headSize ≤ r) (hr : r ≠ 0) (hl : g.freeList = 0)
    (hsum : front + v = g.sizeRef cfg r) (hp : Piece cfg front) (hm : front % cfg.chunkAlign = 0) :
    ∃ g1, freeFront cfg g r front v = some g1 ∧ g1.sizeRef cfg (r + front) = v ∧
      (g1.freeList = 0 ∨ g1.freeList = r ∧ g1.next cfg r = 0 ∧ g1.sizeRef cfg r = front + 1 ∧
        cfg.chunkMin ≤ front) := by
  have hlt : g.sizeRef cfg r < 256 ^ cfg.headSize := load_lt _ _ _
  have hroom := L.chunkMin_ge
  by_cases h0 : front = 0
  · subst h0
    exact ⟨g,if_pos rfl,by rw [Nat.add_zero]; omega,.inl hl⟩
  · have hmin := hp.resolve_left h0
    have hf : Freeable cfg ((g.setSize cfg (r + front) v).setSize cfg r front) r front :=
      ⟨hlow,hr,sizeRef_setSizeRef_same (by omega),L.even_of_mod hm,by omega⟩
    obtain ⟨g1,hfree,hmem,hlist⟩ := free_alone L.head hf hl
    refine ⟨g1,(if_neg h0).trans hfree,?_,?_⟩
    · have hkeep : g1.sizeRef cfg (r + front) =
          ((g.setSize cfg (r + front) v).setSize cfg r front).sizeRef cfg (r + front) :=
        sizeRef_congr (fun a ha ha' => hmem a (by omega))
      have hset : ((g.setSize cfg (r + front) v).setSize cfg r front).sizeRef cfg (r + front) =
          (g.setSize cfg (r + front) v).sizeRef cfg (r + front) := load_store_apart (by omega)
      rw [hkeep,hset]
      exact sizeRef_setSizeRef_same (by omega)
    · rcases hlist with h1 | ⟨h1,h2,h3⟩
      · exact .inl h1
      · exact .inr ⟨h1,h2,h3,hmin⟩

theorem freeBack_spec {c : Nat} (hlow : cfg.headSize ≤ c) (hsum : n + back < 256 ^ cfg.headSize)
    (hs : g.sizeRef cfg c = n + back) (hn : cfg.chunkMin ≤ n) (hp : Piece cfg back)
    (hm : back % cfg.chunkAlign = 0) (hl : g.freeList = 0 ∨ ∃ q y, g.freeList = q ∧ g.next cfg q = 0 ∧
      g.sizeRef cfg q = y + 1 ∧ cfg.chunkMin ≤ y ∧ y % cfg.chunkAlign = 0 ∧ cfg.headSize ≤ q ∧ q ≠ 0 ∧ c = q + y) :
    ∃ g2, freeBack cfg g c n back = some g2 ∧ g2.sizeRef cfg c = n := by
  have hroom := L.chunkMin_ge
  have hhead := L.head
  by_cases h0 : back = 0
  · subst h0
    exact ⟨g,if_pos rfl,hs⟩
  · have hmin := hp.resolve_left h0
    have hf : Freeable cfg ((g.setSize cfg c n).setSize cfg (c + n) back) (c + n) back :=
      ⟨by omega,by omega,sizeRef_setSizeRef_same (by omega),L.even_of_mod hm,by omega⟩
    have hkeep : ((g.setSize cfg c n).setSize cfg (c + n) back).sizeRef cfg c = n :=
      sizeRef_setSize_lower L hlow (by omega) hn
    rcases hl with hl | ⟨q,y,hl,hnext,hsq,hy,hym,hq,hq0,rfl⟩
    · obtain ⟨g2,hfree,hmem,-⟩ := free_alone L.head hf hl
      refine ⟨g2,(if_neg h0).trans hfree,?_⟩
      rw [← hkeep]
      exact sizeRef_congr (fun a ha ha' => hmem a (by omega))
    · have hnext' : ((g.setSize cfg (q + y) n).setSize cfg (q + y + n) back).next cfg q = 0 := by
        rw [← hnext]
        exact load_congr (fun a ha ha' => (store_apart (by omega)).trans (store_apart (by omega)))
      have hsq' : ((g.setSize cfg (q + y) n).setSize cfg (q + y + n) back).sizeRef cfg q = y + 1 := by
        rw [← hsq]
        exact sizeRef_congr (fun a ha ha' => (store_apart (by omega)).trans (store_apart (by omega)))
      obtain ⟨g2,hfree,hmem⟩ := free_second L.head hf hl hq0 hnext' hsq' (L.even_of_mod hym) (by omega) hq
        (by omega) L.chunk.1 (by omega)
      refine ⟨g2,(if_neg h0).trans hfree,?_⟩
      rw [← hkeep]
      exact sizeRef_congr (fun a ha ha' => hmem a (by omega) (by omega))

theorem carvable_alone (hlow : cfg.headSize ≤ r) (hr : r ≠ 0) (hl : g.freeList = 0) : Carvable cfg g r := by
  intro front n back htile hpf hpb hn hfm hnm hbm
  have hlt : g.sizeRef cfg r < 256 ^ cfg.headSize := load_lt _ _ _
  obtain ⟨g1,hfree,hs,hlist⟩ := freeFront_spec L hlow hr hl (show front + (n + back) = _ by omega) hpf hfm
  obtain ⟨g2,hfree',hs'⟩ := freeBack_spec L (show cfg.headSize ≤ r + front by omega) (by omega) hs hn hpb hbm (by
    rcases hlist with h1 | ⟨h1,h2,h3,h4⟩
    · exact .inl h1
    · exact .inr ⟨r,front,h1,h2,h3,h4,hfm,hlow,hr,rfl⟩)
  exact ⟨g1,g2,hfree,hs,hfree',hs'⟩

end

def stocked (cfg : Config) (n r : Nat) : Heap :=
  { Heap.init 0 (store (fun _ => 0) (r - cfg.headSize) cfg.headSize (cfg.chunkSize n)) with
    freeList := if cfg.smallBucket ≠ 0 ∧ cfg.chunkSize n ≤ cfg.maxBucket then 0 else r
    bucketList := fun _ => r }

theorem load_zero (a n : Nat) : load (fun _ => 0) a n = 0 := by
  rw [load_of_digits (show ∀ i, i < n → (0 : UInt8) = UInt8.ofNat (0 / 256 ^ i) by simp)]
  simp

section

variable {cfg : Config} (env : Env) {g h : Heap} {r n s align al c : Nat} (L : cfg.Layout)

theorem allocTail_chunk (hlow : cfg.headSize ≤ c) (heven : h.sizeRef cfg c / 2 * 2 = h.sizeRef cfg c)
    (hc : c ≠ 0) (m : Nat) : ∃ g, allocTail cfg env h c m = (g,c) ∧ g.sizeRef cfg c = h.sizeRef cfg c ∧
      g.freeList = h.freeList := by
  refine ⟨_,if_neg hc,?_,rfl⟩
  have hlt : h.sizeRef cfg c < 256 ^ cfg.headSize := load_lt _ _ _
  have hclear : ((h.markBusy cfg c).memset c 0 (m - cfg.headSize)).sizeRef cfg c = (h.markBusy cfg c).sizeRef cfg c :=
    load_fill_apart (by omega)
  have hbusy : (h.markBusy cfg c).sizeRef cfg c = h.sizeRef cfg c := by
    rw [Heap.markBusy,heven]
    exact sizeRef_setSizeRef_same hlt
  exact hclear.trans hbusy

include L

theorem malloc_stocked (hn : n ≤ cfg.allocMax) (hlow : cfg.headSize ≤ r) (hr : r ≠ 0) :
    ∃ g, malloc cfg env (stocked cfg n r) n = some (g,r) ∧ g.sizeRef cfg r = cfg.chunkSize n ∧
      g.freeList = 0 := by
  obtain ⟨hmod,hmin,-,hlt⟩ := L.chunkSize_spec hn
  have hsz : (stocked cfg n r).sizeRef cfg r = cfg.chunkSize n :=
    load_store_of_lt _ _ (by rwa [← L.pow_bits])
  have hnext : (stocked cfg n r).next cfg r = 0 := by
    refine Eq.trans (load_store_apart (by omega)) (load_zero _ _)
  have heven := L.even_of_mod hmod
  rw [malloc,if_neg (by omega)]
  by_cases hb : cfg.smallBucket ≠ 0 ∧ cfg.chunkSize n ≤ cfg.maxBucket
  · have hpop : popBucket cfg (stocked cfg n r) (cfg.bucketNum (cfg.chunkSize n)) =
        ((stocked cfg n r).setBucket (cfg.bucketNum (cfg.chunkSize n)) 0,r) := by
      rw [← hnext]
      exact if_neg hr
    have hsz' : ((stocked cfg n r).setBucket (cfg.bucketNum (cfg.chunkSize n)) 0).sizeRef cfg r =
      cfg.chunkSize n := hsz
    obtain ⟨g,htail,hs,hl⟩ := allocTail_chunk env hlow (by rw [hsz',heven]) hr
      (cfg.bucketSize (cfg.bucketNum (cfg.chunkSize n)))
    refine ⟨g,?_,hs.trans hsz',hl.trans (if_pos hb)⟩
    simp only [hpop]
    rw [if_pos hb,htail]
  · have hl : (stocked cfg n r).freeList = r := if_neg hb
    have hsize : (stocked cfg n r).size cfg r = cfg.chunkSize n := by rw [Heap.size,hsz,heven]
    have htake : takeChunk cfg (stocked cfg n r) .head r (cfg.chunkSize n) =
        { stocked cfg n r with freeList := 0 } := by
      have hp := L.chunkMin_ge
      have hh := L.head
      rw [takeChunk,hsize,Nat.sub_self,if_neg (by omega),hnext]
      rfl
    obtain ⟨k,hk⟩ := fuel_succ cfg
    have hfind : findFit cfg env (cfg.chunkSize n) (fuel cfg) (stocked cfg n r) .head =
        some ({ stocked cfg n r with freeList := 0 },r) := by
      rw [hk,findFit]
      simp only [Heap.get,hl]
      rw [if_neg hr,if_pos (by rw [hsize]),htake]
    have hsz' : ({ stocked cfg n r with freeList := 0 } : Heap).sizeRef cfg r = cfg.chunkSize n := hsz
    obtain ⟨g,htail,hs,hl'⟩ := allocTail_chunk env hlow (by rw [hsz',heven]) hr (cfg.chunkSize n)
    refine ⟨g,?_,hs.trans hsz',hl'⟩
    rw [if_neg hb,hfind,Option.map_some,htail]

theorem obeys_stocked (hn : n ≤ cfg.allocMax) (hlow : cfg.headSize ≤ r) (hr : r ≠ 0)
    (hmod : r % cfg.chunkAlign = 0) : Obeys cfg env (stocked cfg n r) n := by
  obtain ⟨g,hmal,hs,hl⟩ := malloc_stocked env L hn hlow hr
  obtain ⟨hm,-,-,-⟩ := L.chunkSize_spec hn
  exact ⟨g,r,hmal,fun _ => ⟨⟨hmod,hs ▸ hm,hs.ge⟩,carvable_alone L hlow hr hl⟩⟩

omit L in
theorem builtinAlignUp_low {q x a : Nat} (ha : 0 < a) (hm : a - 1 < 16) :
    builtinAlignUp (16 * q + x) a = 16 * q + x + (a - 1) - ((x + (a - 1)) % 16 &&& (a - 1)) := by
  have hlow : (16 * q + x + (a - 1)) &&& (a - 1) = (x + (a - 1)) % 16 &&& (a - 1) := by
    rw [and_low (show a - 1 < 2 ^ 4 from hm),Nat.add_assoc,show 2 ^ 4 = 16 from rfl,Nat.mul_add_mod]
  rw [builtinAlignUp,if_neg ha.ne',hlow]

theorem front_short_pow {j : Nat} (hlt : cfg.chunkAlign < 2 ^ j) : ∃ r, cfg.headSize ≤ r ∧ r ≠ 0 ∧
    r % cfg.chunkAlign = 0 ∧ builtinAlignUp r (2 ^ j) = r + cfg.chunkAlign := by
  obtain ⟨k,-,-,hk⟩ := L.align
  have hpos := L.align_two
  have hbig : cfg.headSize * 1 ≤ cfg.headSize * 2 ^ j := Nat.mul_le_mul_left _ (by omega)
  have hmul : 2 ^ j * (cfg.headSize + 1) = cfg.headSize * 2 ^ j + 2 ^ j := by ring
  have hdvd : cfg.chunkAlign ∣ 2 ^ j := by
    rw [hk] at hlt ⊢
    exact dvd_of_pow_le hlt.le
  refine ⟨2 ^ j * (cfg.headSize + 1) - cfg.chunkAlign,by omega,by omega,?_,?_⟩
  · exact Nat.mod_eq_zero_of_dvd (Nat.dvd_sub (hdvd.trans (Nat.dvd_mul_right _ _)) dvd_rfl)
  · have hup : alignUp (2 ^ j * (cfg.headSize + 1) - cfg.chunkAlign) (2 ^ j) = 2 ^ j * (cfg.headSize + 1) := by
      rw [alignUp,show 2 ^ j * (cfg.headSize + 1) - cfg.chunkAlign + (2 ^ j - 1) =
        2 ^ j * (cfg.headSize + 1) + (2 ^ j - 1 - cfg.chunkAlign) by omega,
        Nat.mul_add_div (by omega),Nat.div_eq_of_lt (by omega),Nat.add_zero,Nat.mul_comm]
    rw [builtinAlignUp_pow,hup]
    omega

theorem front_short_log {u : Nat} (h4 : 4 ≤ u) (h10 : u ≤ 10) (hlt : cfg.chunkAlign < u) :
    ∃ r off, cfg.headSize ≤ r ∧ r ≠ 0 ∧ r % cfg.chunkAlign = 0 ∧ builtinAlignUp r u = r + off ∧ 0 < off ∧
      (u = 4 ∧ off = cfg.chunkAlign ∨ off ≤ 8 ∧ 4 < u) := by
  have hpos := L.align_two
  have hA : cfg.chunkAlign = 2 ∨ cfg.chunkAlign = 4 ∨ cfg.chunkAlign = 8 ∧ 9 ≤ u := by
    obtain ⟨k,h0,-,hk⟩ := L.align
    have hk4 : k < 4 := (Nat.pow_lt_pow_iff_right (show 1 < 2 by omega)).mp (show 2 ^ k < 2 ^ 4 by omega)
    interval_cases k <;> omega
  have hfour : ∀ x : Nat, x % 4 = 0 → (9 ≤ u → x % 8 = 0) → x % cfg.chunkAlign = 0 := by
    intro x hx hx'
    rcases hA with h | h | ⟨h,h9⟩
    · rw [h]
      omega
    · rw [h]
      exact hx
    · rw [h]
      exact hx' h9
  by_cases hu4 : u = 4
  · obtain ⟨r,h1,h2,h3,h5⟩ := front_short_pow L (show cfg.chunkAlign < 2 ^ 2 by omega)
    subst hu4
    exact ⟨r,cfg.chunkAlign,h1,h2,h3,h5,by omega,.inl ⟨rfl,rfl⟩⟩
  · have hfive : 5 ≤ u := by omega
    by_cases hu8 : u = 8
    · obtain ⟨r,h1,h2,h3,h5⟩ := front_short_pow L (show cfg.chunkAlign < 2 ^ 3 by omega)
      subst hu8
      exact ⟨r,cfg.chunkAlign,h1,h2,h3,h5,by omega,.inr ⟨by omega,by omega⟩⟩
    · by_cases hu9 : 9 ≤ u
      · refine ⟨16 * (cfg.headSize + 1) + 8,8,by omega,by omega,hfour _ (by omega) (by omega),?_,by omega,
          .inr ⟨by omega,by omega⟩⟩
        rw [builtinAlignUp_low (by omega) (by omega)]
        interval_cases u <;> simp
      · refine ⟨16 * (cfg.headSize + 1) + 4,4,by omega,by omega,hfour _ (by omega) (by omega),?_,by omega,
          .inr ⟨by omega,by omega⟩⟩
        rw [builtinAlignUp_low (by omega) (by omega)]
        interval_cases u <;> first | contradiction | simp

theorem front_short (hp : align &&& (align - 1) = 0) (hlt : cfg.chunkAlign < memalignAlign cfg align)
    (hmin : cfg.chunkAlign + memalignAlign cfg align < cfg.chunkMin) :
    ∃ r off, cfg.headSize ≤ r ∧ r ≠ 0 ∧ r % cfg.chunkAlign = 0 ∧
      builtinAlignUp r (memalignAlign cfg align) = r + off ∧ 0 < off ∧
      off + memalignAlign cfg align < cfg.chunkMin := by
  have hpos := L.align_two
  have hten := upPot_le_ten cfg.chunkMin
  unfold memalignAlign at *
  rcases Nat.le_total (upPot cfg.chunkMin) align with hle | hle
  · rw [max_eq_left hle] at *
    obtain ⟨j,hj⟩ := pow_of_mask (show align ≠ 0 by omega) hp
    obtain ⟨r,h1,h2,h3,h4⟩ := front_short_pow L (show cfg.chunkAlign < 2 ^ j by omega)
    rw [hj] at hmin ⊢
    exact ⟨r,cfg.chunkAlign,h1,h2,h3,h4,by omega,by omega⟩
  · rw [max_eq_right hle] at *
    have h4 : 4 ≤ upPot cfg.chunkMin := by
      by_cases hbig : cfg.chunkMin ≤ 1024
      · exact (upPot_bounds hbig).1
      · have h0 : upPot cfg.chunkMin = 0 := by
          unfold upPot
          split_ifs <;> omega
        omega
    obtain ⟨r,off,h1,h2,h3,h5,h6,h7⟩ := front_short_log L h4 hten hlt
    refine ⟨r,off,h1,h2,h3,h5,h6,?_⟩
    rcases h7 with ⟨h8,h9⟩ | ⟨h8,h9⟩
    · omega
    · have hlow := upPot_large h9
      interval_cases upPot cfg.chunkMin <;> omega

omit L in
theorem obeys_failed (n : Nat) : Obeys cfg ⟨fun _ => true,0⟩ (Heap.init 0 (fun _ => 0)) n := by
  have hsbrk : ∀ h : Heap, ∀ m, ∃ h', allocTail cfg ⟨fun _ => true,0⟩ h 0 m = (h',0) := by
    intro h m
    rw [allocTail,if_pos rfl,sbrkAligned]
    split_ifs
    · exact ⟨_,rfl⟩
    · exact ⟨_,rfl⟩
  by_cases hbig : cfg.allocMax < n
  · exact ⟨_,0,if_pos hbig,fun h => absurd rfl h⟩
  by_cases hb : cfg.smallBucket ≠ 0 ∧ cfg.chunkSize n ≤ cfg.maxBucket
  · have hpop : popBucket cfg (Heap.init 0 (fun _ => 0)) (cfg.bucketNum (cfg.chunkSize n)) =
        (Heap.init 0 (fun _ => 0),0) := by
      rw [popBucket]
      exact if_pos rfl
    obtain ⟨h',htail⟩ := hsbrk (Heap.init 0 (fun _ => 0)) (cfg.bucketSize (cfg.bucketNum (cfg.chunkSize n)))
    refine ⟨h',0,?_,fun h => absurd rfl h⟩
    rw [malloc,if_neg hbig]
    simp only [hpop]
    rw [if_pos hb,htail]
  · obtain ⟨k,hk⟩ := fuel_succ cfg
    have hfind : findFit cfg ⟨fun _ => true,0⟩ (cfg.chunkSize n) (fuel cfg) (Heap.init 0 (fun _ => 0)) .head =
        some (Heap.init 0 (fun _ => 0),0) := by
      rw [hk,findFit]
      exact if_pos rfl
    obtain ⟨h',htail⟩ := hsbrk (Heap.init 0 (fun _ => 0)) (cfg.chunkSize n)
    refine ⟨h',0,?_,fun h => absurd rfl h⟩
    rw [malloc,if_neg hbig,if_neg hb,hfind,Option.map_some,htail]

theorem safe_stocked (hsafe : MemalignSafe cfg env (stocked cfg (sizeWithPadding cfg align s) r) align s)
    (hrej : ¬rejects cfg align s) (hn : sizeWithPadding cfg align s ≤ cfg.allocMax)
    (hlow : cfg.headSize ≤ r) (hr : r ≠ 0) : ∃ front, Piece cfg front ∧ align ∣ r + front ∧
      ∃ h', memalign cfg env (stocked cfg (sizeWithPadding cfg align s) r) align s = some (h',r + front) := by
  obtain ⟨g,hmal,-,-⟩ := malloc_stocked env L hn hlow hr
  cases hsafe with
  | rejected e h heq => exact absurd h hrej
  | exhausted g' hfit hmal' heq =>
    rw [hmal] at hmal'
    cases hmal'
    exact absurd rfl hr
  | carved g' g1 g2 r' front n back hfit hmal' hr' htile hf hb hfree1 hfree2 heq hdvd huse =>
    rw [hmal] at hmal'
    cases hmal'
    exact ⟨front,hf,hdvd,g2,heq⟩

omit L in
theorem memalign_pointer {r' off : Nat} {h' : Heap} (hrej : ¬rejects cfg align s) (hr : r ≠ 0)
    (hfit : sizeWithPadding cfg align s < 2 ^ cfg.sizeBits)
    (hmal : malloc cfg env h (sizeWithPadding cfg align s) = some (g,r))
    (hup : builtinAlignUp r (memalignAlign cfg align) = r + off) (hlt : off < 2 ^ cfg.sizeBits)
    (hrun : memalign cfg env h align s = some (h',r')) :
    r' = r + frontPiece cfg off (memalignAlign cfg align) := by
  rw [memalign_eq hrej,Config.wrap,Nat.mod_eq_of_lt hfit,hmal] at hrun
  simp only [if_neg hr,splitFront_eq hup hlt,Option.bind_eq_some_iff,Option.map_eq_some_iff] at hrun
  obtain ⟨x,⟨g1,-,rfl⟩,hback⟩ := hrun
  unfold splitBack at hback
  dsimp only at hback
  split_ifs at hback
  · obtain ⟨g2,-,hx⟩ := Option.map_eq_some_iff.mp hback
    exact (congrArg Prod.snd hx).symm
  · exact (congrArg Prod.snd (Option.some.inj hback)).symm

end

theorem memalign_safe_iff {cfg : Config} (L : cfg.Layout) (align s : Nat) :
    (∀ env h, Obeys cfg env h (cfg.wrap (sizeWithPadding cfg align s)) → MemalignSafe cfg env h align s) ↔
      memalignFits cfg align s := by
  refine ⟨fun hall => ?_,fun hfits env h hob => memalign_safe L hfits hob⟩
  by_cases hrej : rejects cfg align s
  · exact .inl hrej
  refine .inr ?_
  have hfit : sizeWithPadding cfg align s < 2 ^ cfg.sizeBits := by
    cases hall _ _ (obeys_failed _) with
    | rejected e h heq => exact absurd h hrej
    | exhausted g hfit hmal heq => exact hfit
    | carved g g1 g2 r front n back hfit hmal hr htile hf hb hfree1 hfree2 heq hdvd huse => exact hfit
  refine ⟨hfit,?_⟩
  rw [Config.wrap,Nat.mod_eq_of_lt hfit] at hall
  by_cases hmax : cfg.allocMax < sizeWithPadding cfg align s
  · exact .inl hmax
  have hn := Nat.not_lt.mp hmax
  have hat : ∀ r, cfg.headSize ≤ r → r ≠ 0 → r % cfg.chunkAlign = 0 → ∃ front, Piece cfg front ∧
      align ∣ r + front ∧ ∃ h', memalign cfg ⟨fun _ => true,0⟩
        (stocked cfg (sizeWithPadding cfg align s) r) align s = some (h',r + front) :=
    fun r hlow hr hm => safe_stocked _ L (hall _ _ (obeys_stocked _ L hn hlow hr hm)) hrej hn hlow hr
  have hp : align &&& (align - 1) = 0 := by
    by_contra hp
    exact hrej (.inl hp)
  refine .inr ⟨?_,?_⟩
  · rintro rfl
    have hA := L.align_two
    have hmul : cfg.headSize * 1 ≤ cfg.headSize * cfg.chunkAlign := Nat.mul_le_mul_left _ (by omega)
    have hh := L.head
    obtain ⟨front,-,hdvd,-⟩ := hat (cfg.headSize * cfg.chunkAlign) (by omega) (by omega) (Nat.mul_mod_left _ _)
    have h0 := Nat.eq_zero_of_zero_dvd hdvd
    omega
  · by_contra hbad
    rw [not_or,Nat.not_le,Nat.not_le] at hbad
    obtain ⟨r,off,hlow,hr,hm,hup,hoff,hshort⟩ := front_short L hp hbad.1 hbad.2
    obtain ⟨front,hpiece,-,h',hrun⟩ := hat r hlow hr hm
    obtain ⟨g,hmal,-,-⟩ := malloc_stocked ⟨fun _ => true,0⟩ L hn hlow hr
    have hpad : sizeWithPadding cfg align s = cfg.chunkSize s + memalignAlign cfg align + cfg.chunkMin := rfl
    have heq := memalign_pointer _ hrej hr hfit hmal hup (by omega) hrun
    have hfront : front = off + memalignAlign cfg align := by
      rw [frontPiece,if_neg hoff.ne',if_pos (by omega)] at heq
      omega
    rcases hpiece with h0 | h0 <;> omega

theorem Config.Standard.layout {cfg : Config} (hc : cfg.Standard) : cfg.Layout := by
  have hb := hc.bits
  have ha := hc.align
  have hp := hc.chunk
  rcases hc.word with h | h
  · rw [h] at hb ha hp
    exact ⟨by omega,hc.bits,by rw [hb,hp]; decide,3,by omega,by omega,ha⟩
  · rw [h] at hb ha hp
    exact ⟨by omega,hc.bits,by rw [hb,hp]; decide,4,by omega,by omega,ha⟩

section

variable {cfg : Config} {env : Env} (S : Setup cfg env) {h g : Heap} {cs : List Chunk} {c : Chunk}

include S

theorem carvable_chunk (hi : Inv cfg env g cs) (hc : c ∈ cs) (hn : c.loc = .none) : Carvable cfg g c.addr := by
  have hA := S.std.align
  have hM := S.std.chunkMin_eq
  have hhead : ∀ {g' : Heap} {cs' : List Chunk} {d : Chunk}, Inv cfg env g' cs' → d ∈ cs' → d.loc = .none →
      g'.sizeRef cfg d.addr = d.size := by
    intro g' cs' d hi' hd hdn
    rw [hi'.wf.header d hd,hi'.bit_false S hd hdn]
    rfl
  intro front n back htile hpf hpb hmin hfm hnm hbm
  rw [hhead hi hc hn] at htile
  rw [hA] at hfm hnm hbm
  rw [Piece,hM] at hpf hpb
  rw [hM] at hmin
  have hsum : (n + back) % (2 * cfg.headSize) = 0 := by
    rw [Nat.add_mod,hnm,hbm]
    rfl
  have hfront : ∃ g1 cs1 d, freeFront cfg g c.addr front (n + back) = some g1 ∧ Inv cfg env g1 cs1 ∧ d ∈ cs1 ∧
      d.addr = c.addr + front ∧ d.size = n + back ∧ d.loc = .none := by
    rcases hpf with rfl | hpf
    · exact ⟨g,cs,c,if_pos rfl,hi,hc,rfl,by omega,hn⟩
    · obtain ⟨pre,post,rfl⟩ := List.append_of_mem hc
      obtain ⟨g1,cs1,heq,hi1,-,hmem,-⟩ := split_free_front S hi hn (show c.size = front + (n + back) by omega)
        ⟨hfm,hpf⟩ ⟨hsum,by omega⟩
      have hw := S.std.word_pos
      exact ⟨g1,cs1,_,(if_neg (by omega)).trans heq,hi1,hmem,rfl,rfl,rfl⟩
  obtain ⟨g1,cs1,d,hf1,hi1,hd,hda,hds,hdn⟩ := hfront
  have hs1 := hhead hi1 hd hdn
  rw [hda,hds] at hs1
  rcases hpb with rfl | hpb
  · exact ⟨g1,g1,hf1,hs1,if_pos rfl,hs1⟩
  · obtain ⟨pre,post,rfl⟩ := List.append_of_mem hd
    obtain ⟨g2,cs2,heq,hi2,-,hmem,-⟩ := split_free_back S hi1 hdn hds ⟨hnm,hmin⟩ ⟨hbm,hpb⟩
    have hs2 := hhead hi2 hmem rfl
    have hw := S.std.word_pos
    rw [hda] at heq hs2
    exact ⟨g1,g2,hf1,hs1,(if_neg (by omega)).trans heq,hs2⟩

theorem inv_obeys (hi : Inv cfg env h cs) (n : Nat) : Obeys cfg env h n := by
  obtain ⟨g,r,hmal,⟨rfl,-,-⟩ | ⟨hr,hmax,cs',hout,-⟩⟩ := malloc_spec S hi n
  · exact ⟨g,0,hmal,fun h => absurd rfl h⟩
  · obtain ⟨c,hc,rfl,hcn,hsz⟩ := hout.chunk
    have hsize := hout.inv.wf.sizes c hc
    have href : g.sizeRef cfg c.addr = c.size := by
      rw [hout.inv.wf.header c hc,hout.inv.bit_false S hc hcn]
      rfl
    refine ⟨g,c.addr,hmal,fun _ => ⟨⟨?_,?_,?_⟩,carvable_chunk S hout.inv hc hcn⟩⟩
    · rw [S.std.align]
      exact (hout.inv.wf.addr S hc).1
    · rw [href,S.std.align]
      exact hsize.1
    · rw [href,S.std.chunkSize_eq hmax]
      refine max_le hsize.2 ?_
      obtain ⟨k,hk⟩ := Nat.dvd_of_mod_eq_zero hsize.1
      have hw := S.std.word_pos
      rw [hk] at hsz ⊢
      rw [alignUp,Nat.mul_comm]
      apply Nat.mul_le_mul_left
      rw [Nat.div_le_iff_le_mul_add_pred (by omega)]
      omega

end

def cortex : Config := ⟨4,4,8,32,0,false⟩

theorem memalign_safe_page : memalignFits cortex 128 237 ∧
    ∀ env h, Obeys cortex env h (cortex.wrap (sizeWithPadding cortex 128 237)) →
      MemalignSafe cortex env h 128 237 := by
  refine ⟨by decide,(memalign_safe_iff ?_ 128 237).mpr (by decide)⟩
  exact Config.Standard.layout ⟨.inl rfl,rfl,rfl,rfl,by decide⟩

def coldfire : Config := ⟨4,4,2,32,0,false⟩

theorem memalign_short_front :
    ¬MemalignSafe coldfire ⟨fun _ => false,0x10000⟩ (Heap.init 0x1002 (fun _ => 0)) 4 10 := by
  have hmal : (malloc coldfire ⟨fun _ => false,0x10000⟩ (Heap.init 0x1002 (fun _ => 0))
      (sizeWithPadding coldfire 4 10)).map Prod.snd = some 0x1006 := by decide
  have hrun : (memalign coldfire ⟨fun _ => false,0x10000⟩ (Heap.init 0x1002 (fun _ => 0)) 4 10).map Prod.snd =
    some 0x100c := by decide
  intro hsafe
  cases hsafe with
  | rejected e h heq => exact absurd h (by decide)
  | exhausted g hfit hmal' heq =>
    rw [heq] at hrun
    cases hrun
  | carved g g1 g2 r front n back hfit hmal' hr htile hf hb hfree1 hfree2 heq hdvd huse =>
    rw [hmal'] at hmal
    rw [heq] at hrun
    simp only [Option.map_some,Option.some.injEq] at hmal hrun
    have hmin : coldfire.chunkMin = 8 := by decide
    rw [Piece,hmin] at hf
    omega

end Malloc
