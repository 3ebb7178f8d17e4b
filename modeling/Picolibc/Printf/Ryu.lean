import Mathlib
import Picolibc.Printf.FloatText

open Numerals

namespace Printf

def decimalLoop (v : Nat) : Nat → Nat → Nat → Nat
  | 0, len, _ => len
  | n + 1, len, c => if c ≤ v then decimalLoop v n (len + 1) (c <<< 3 + c <<< 1) else len

def decimalLength17 (v : Nat) : Nat := decimalLoop v 19 1 10

structure Scaled where
  vr : Nat
  vp : Nat
  vm : Nat
  e10 : Int
  acceptBounds : Bool
  vmIsTrailingZeros : Bool
  vrIsTrailingZeros : Bool
  low : vm ≤ vr
  bounds : vmIsTrailingZeros = true → acceptBounds = true ∧ 0 < vm
  pos : 0 < vr
  room : vr + 1 < 10 ^ 19

structure Trim where
  vr : Nat
  vp : Nat
  vm : Nat
  acceptBounds : Bool
  vmIsTrailingZeros : Bool
  vrIsTrailingZeros : Bool
  lastRemovedDigit : Nat
  removed : Nat
  low : vm ≤ vr
  bounds : vmIsTrailingZeros = true → acceptBounds = true ∧ 0 < vm
  deriving DecidableEq

def Scaled.start (s : Scaled) : Trim :=
  ⟨s.vr,s.vp,s.vm,s.acceptBounds,s.vmIsTrailingZeros,s.vrIsTrailingZeros,0,0,s.low,s.bounds⟩

theorem drop_bounds (t : Trim) (h : (t.vmIsTrailingZeros && decide (t.vm % 10 = 0)) = true) :
    t.acceptBounds = true ∧ 0 < t.vm / 10 := by
  simp only [Bool.and_eq_true,decide_eq_true_eq] at h
  obtain ⟨haccept,hpos⟩ := t.bounds h.1
  exact ⟨haccept,by omega⟩

def Trim.drop (t : Trim) : Trim where
  vr := t.vr / 10
  vp := t.vp / 10
  vm := t.vm / 10
  acceptBounds := t.acceptBounds
  vmIsTrailingZeros := t.vmIsTrailingZeros && decide (t.vm % 10 = 0)
  vrIsTrailingZeros := t.vrIsTrailingZeros && decide (t.lastRemovedDigit = 0)
  lastRemovedDigit := t.vr % 10
  removed := t.removed + 1
  low := Nat.div_le_div_right t.low
  bounds := drop_bounds t

def Within (max v : Nat) : Prop := decimalLength17 v ≤ max ∨ max = 0 ∧ v = 0

instance (max v : Nat) : Decidable (Within max v) := inferInstanceAs (Decidable (_ ∨ _))

theorem within_zero (max : Nat) : Within max 0 := by
  have hone : decimalLength17 0 = 1 := rfl
  unfold Within
  omega

theorem drop_shorter {t : Trim} (h : 0 < t.vp ∨ 0 < t.vr) : t.drop.vp + t.drop.vr < t.vp + t.vr := by
  change t.vp / 10 + t.vr / 10 < t.vp + t.vr
  omega

theorem pos_of_not_within {max v : Nat} (h : ¬Within max v) : 0 < v :=
  Nat.pos_of_ne_zero fun hv => h (hv ▸ within_zero max)

def trimMax (max : Nat) (t : Trim) : Trim × Bool :=
  if t.vp / 10 ≤ t.vm / 10 then
    if Within max t.vr then (t,false) else ((trimMax max t.drop).1,true)
  else trimMax max t.drop
termination_by t.vp + t.vr
decreasing_by
  · exact drop_shorter (.inr (pos_of_not_within ‹_›))
  · exact drop_shorter (.inl (by omega))

theorem drop_trailing {t : Trim} (h : t.vmIsTrailingZeros = true) (hz : t.vm % 10 = 0) : t.drop.vmIsTrailingZeros = true := by
  simp [Trim.drop,h,hz]

def trimTail (t : Trim) (h : t.vmIsTrailingZeros = true) : Trim :=
  if hz : t.vm % 10 = 0 then trimTail t.drop (drop_trailing h hz) else t
termination_by t.vm
decreasing_by
  have hpos := (t.bounds h).2
  change t.vm / 10 < t.vm
  omega

def Trim.stripped (t : Trim) : Trim := if h : t.vmIsTrailingZeros = true then trimTail t h else t

def Trim.carry (t : Trim) (truncateMax : Bool) : Bool :=
  let last := if t.vrIsTrailingZeros = true ∧ t.lastRemovedDigit = 5 ∧ t.vr % 2 = 0 then 4 else t.lastRemovedDigit
  decide ((truncateMax = false ∧ t.vr = t.vm ∧ (t.acceptBounds = false ∨ t.vmIsTrailingZeros = false)) ∨ 5 ≤ last)

def Scaled.trimmed (s : Scaled) (max : Nat) : Trim := (trimMax max s.start).1.stripped

def Scaled.carries (s : Scaled) (max : Nat) : Bool := (s.trimmed max).carry (trimMax max s.start).2

structure FloatingDecimal64 where
  mantissa : Nat
  exponent : Int
  olength : Nat
  deriving DecidableEq

def roundOutput (max : Nat) (again : Int → Nat) (output : Nat) (carry : Bool) (e10 : Int) : FloatingDecimal64 :=
  let len := decimalLength17 output
  if carry = true ∧ max < len then
    let max := again (e10 + len - 1)
    if max < len then ⟨(output + 5) / 10,e10 + 1,min (len - 1) max⟩ else ⟨output,e10,len⟩
  else ⟨output,e10,min len max⟩

def limitDigits (max : Nat) (fmode : Bool) (least decimals exp : Int) : Nat :=
  if fmode then min max (if least < decimals + exp + 1 then decimals + exp + 1 else least).toNat else max

def d2d (s : Scaled) (max : Nat) (fmode : Bool) (decimals : Int) : FloatingDecimal64 :=
  let cut := limitDigits max fmode (if decimals < 0 then 1 else 0) decimals (s.e10 + decimalLength17 s.vr - 1)
  let r := trimMax cut s.start
  let t := r.1.stripped
  let carry := t.carry r.2
  roundOutput cut (limitDigits max fmode 1 decimals) (t.vr + carry.toNat) carry (s.e10 + t.removed)

def d2dInts (s : Scaled) (max : Nat) (fmode : Bool) (decimals : Int) : List Int :=
  let exp := s.e10 + decimalLength17 s.vr - 1
  let cut := limitDigits max fmode (if decimals < 0 then 1 else 0) decimals exp
  let len := decimalLength17 ((s.trimmed cut).vr + (s.carries cut).toNat)
  if fmode then (decimals + exp + 1) ::
    (if s.carries cut = true ∧ cut < len then [decimals + (s.e10 + (s.trimmed cut).removed + len - 1) + 1] else []) else []

def dtoaEngine (scale : Nat → Scaled) (bits max : Nat) (fmode : Bool) (decimals : Int) : Dtoa × Nat :=
  let minus := decide (bits >>> 63 &&& 1 ≠ 0)
  let ieeeMantissa := bits &&& 0xfffffffffffff
  let ieeeExponent := bits >>> 52 &&& 0x7ff
  if ieeeExponent = 0 ∧ ieeeMantissa = 0 then (⟨minus,false,false,0,[byte '0']⟩,1) else
  if ieeeExponent = 0x7ff then (⟨minus,decide (ieeeMantissa ≠ 0),decide (ieeeMantissa = 0),0,[]⟩,0) else
  let v := d2d (scale bits) max fmode decimals
  (⟨minus,false,false,v.exponent + v.olength - 1,(fixed 10 v.olength v.mantissa).map (digitText false)⟩,v.olength)

theorem le_decimalLoop (v n len c : Nat) : len ≤ decimalLoop v n len c := by
  induction n generalizing len c with
  | zero => exact le_rfl
  | succ n ih =>
    rw [decimalLoop]
    split_ifs
    · exact (Nat.le_succ len).trans (ih _ _)
    · exact le_rfl

theorem decimalLoop_le {v n c : Nat} (h : v < c * 10 ^ n) (hc : 0 < c) (len k : Nat) :
    decimalLoop v n len c ≤ len + k ↔ v < c * 10 ^ k := by
  induction n generalizing len c k with
  | zero =>
    have hgrow : c * 1 ≤ c * 10 ^ k := Nat.mul_le_mul_left c (Nat.one_le_pow k 10 (by decide))
    simp only [decimalLoop,Nat.le_add_right,true_iff]
    omega
  | succ n ih =>
    have htimes : c <<< 3 + c <<< 1 = c * 10 := by
      rw [Nat.shiftLeft_eq,Nat.shiftLeft_eq,← Nat.mul_add]
    rw [decimalLoop,htimes]
    by_cases hle : c ≤ v
    · rw [if_pos hle]
      cases k with
      | zero =>
        have hlow := le_decimalLoop v n (len + 1) (c * 10)
        rw [pow_zero,mul_one]
        omega
      | succ k =>
        rw [pow_succ',← mul_assoc] at h ⊢
        rw [← ih h (by omega) (len + 1) k,Nat.add_right_comm,Nat.add_assoc]
    · have hgrow : c * 1 ≤ c * 10 ^ k := Nat.mul_le_mul_left c (Nat.one_le_pow k 10 (by decide))
      rw [if_neg hle]
      omega

section

variable {v : Nat}

theorem length_le (hv : v < 10 ^ 20) {n : Nat} (hn : 0 < n) : decimalLength17 v ≤ n ↔ v < 10 ^ n := by
  obtain ⟨k,rfl⟩ := Nat.exists_eq_add_of_le hn
  rw [decimalLength17,decimalLoop_le (n := 19) (by omega) (by decide),pow_add,pow_one]

theorem length_pos (v : Nat) : 0 < decimalLength17 v := le_decimalLoop v 19 1 10

theorem pow_length_le (hv : v < 10 ^ 20) (hpos : 0 < v) : 10 ^ (decimalLength17 v - 1) ≤ v := by
  by_contra hlt
  rcases Nat.eq_zero_or_pos (decimalLength17 v - 1) with hone | hmore
  · rw [hone] at hlt
    exact hlt hpos
  · have hle := (length_le hv hmore).mpr (not_le.mp hlt)
    omega

theorem lt_pow_length (hv : v < 10 ^ 20) : v < 10 ^ decimalLength17 v := (length_le hv (length_pos v)).mp le_rfl

theorem length_mono {w : Nat} (hw : w < 10 ^ 20) (h : v ≤ w) : decimalLength17 v ≤ decimalLength17 w :=
  (length_le (h.trans_lt hw) (length_pos w)).mpr (h.trans_lt (lt_pow_length hw))

theorem length_drop (hv : v < 10 ^ 20) (h : 0 < v / 10) : decimalLength17 v = decimalLength17 (v / 10) + 1 := by
  have hq : v / 10 < 10 ^ 20 := (Nat.div_le_self v 10).trans_lt hv
  have hstep : ∀ n, 0 < n → (decimalLength17 v ≤ n + 1 ↔ decimalLength17 (v / 10) ≤ n) := fun n hn => by
    rw [length_le hv n.succ_pos,length_le hq hn,Nat.div_lt_iff_lt_mul (by decide),pow_succ]
  have hlong : ¬decimalLength17 v ≤ 1 := by
    rw [length_le hv one_pos]
    omega
  have hup := (hstep _ (length_pos (v / 10))).mpr le_rfl
  have hdown := hstep (decimalLength17 v - 1) (by omega)
  omega

theorem length_div (hv : v < 10 ^ 20) {k : Nat} (h : 0 < v / 10 ^ k) : decimalLength17 v = decimalLength17 (v / 10 ^ k) + k := by
  induction k with
  | zero => simp
  | succ k ih =>
    rw [pow_succ,← Nat.div_div_eq_div_mul] at h ⊢
    have hsome : 0 < v / 10 ^ k := by omega
    rw [ih hsome,length_drop ((Nat.div_le_self v _).trans_lt hv) h]
    ring

theorem Within.drop (hv : v < 10 ^ 20) {max : Nat} (h : Within max v) : Within max (v / 10) := by
  rcases h with h | ⟨hmax,rfl⟩
  · exact .inl ((length_mono hv (Nat.div_le_self v 10)).trans h)
  · exact .inr ⟨hmax,rfl⟩

theorem Within.mono {max more : Nat} (h : Within max v) (hle : max ≤ more) : Within more v := by
  rcases h with h | ⟨-,rfl⟩
  · exact .inl (h.trans hle)
  · exact within_zero more

theorem Within.length {max : Nat} (h : Within max v) (hpos : 0 < v) : decimalLength17 v ≤ max := by
  rcases h with h | ⟨-,rfl⟩
  · exact h
  · exact absurd hpos (lt_irrefl 0)

end

def chop (max : Nat) (t : Trim) : Trim := if Within max t.vr then t else chop max t.drop
termination_by t.vr
decreasing_by
  have hpos := pos_of_not_within ‹¬Within max t.vr›
  change t.vr / 10 < t.vr
  omega

def Trim.Drops (t u : Trim) : Prop := ∃ k, u = Trim.drop^[k] t

section

variable {max more : Nat} {t u : Trim}

theorem Trim.Drops.refl (t : Trim) : t.Drops t := ⟨0,rfl⟩

theorem Trim.Drops.head (h : t.drop.Drops u) : t.Drops u := by
  obtain ⟨k,rfl⟩ := h
  exact ⟨k + 1,rfl⟩

theorem Trim.Drops.trans {w : Trim} (h : t.Drops u) (h' : u.Drops w) : t.Drops w := by
  obtain ⟨k,rfl⟩ := h
  induction k generalizing t with
  | zero => exact h'
  | succ k ih => exact (ih h').head

theorem Trim.Drops.vr (h : t.Drops u) : ∃ k, u.vr = t.vr / 10 ^ k ∧ u.removed = t.removed + k := by
  obtain ⟨k,rfl⟩ := h
  induction k generalizing t with
  | zero => exact ⟨0,by simp⟩
  | succ k ih =>
    obtain ⟨i,hvr,hremoved⟩ := ih (t := t.drop)
    refine ⟨i + 1,?_,?_⟩
    · rw [Function.iterate_succ_apply,hvr,pow_succ',← Nat.div_div_eq_div_mul]
      rfl
    · rw [Function.iterate_succ_apply,hremoved]
      exact Nat.add_right_comm _ _ _

theorem trimMax_drops (max : Nat) (t : Trim) : t.Drops (trimMax max t).1 := by
  fun_induction trimMax max t with
  | case1 t => exact .refl t
  | case2 t _ _ ih => exact ih.head
  | case3 t _ ih => exact ih.head

theorem trimTail_drops (h : t.vmIsTrailingZeros = true) : t.Drops (trimTail t h) := by
  fun_induction trimTail t h with
  | case1 t _ _ ih => exact ih.head
  | case2 t => exact .refl t

theorem stripped_drops (t : Trim) : t.Drops t.stripped := by
  unfold Trim.stripped
  split_ifs with h
  · exact trimTail_drops h
  · exact .refl t

theorem Within.drops (h : Within max t.vr) (hv : t.vr < 10 ^ 20) (hd : t.Drops u) : Within max u.vr := by
  obtain ⟨k,rfl⟩ := hd
  induction k generalizing t with
  | zero => exact h
  | succ k ih => exact ih (h.drop hv) ((Nat.div_le_self t.vr 10).trans_lt hv)

theorem chop_within (h : Within max t.vr) : chop max t = t := by
  rw [chop,if_pos h]

theorem chop_drop (h : ¬Within max t.vr) : chop max t = chop max t.drop := by
  rw [chop,if_neg h]

theorem trimMax_short (h : t.vp / 10 ≤ t.vm / 10) :
    (trimMax max t).1 = chop max t ∧ ((trimMax max t).2 = true ↔ ¬Within max t.vr) := by
  fun_induction trimMax max t with
  | case1 t _ hw => exact ⟨(chop_within hw).symm,by simp [hw]⟩
  | case2 t hs hw ih => exact ⟨by rw [chop_drop hw,(ih (Nat.div_le_div_right hs)).1],by simp [hw]⟩
  | case3 t hs => exact absurd h hs

theorem drop_plain (h : t.vmIsTrailingZeros = false) : t.drop.vmIsTrailingZeros = false := by
  simp [Trim.drop,h]

theorem chop_plain (h : t.vmIsTrailingZeros = false) : (chop max t).vmIsTrailingZeros = false := by
  fun_induction chop max t with
  | case1 t => exact h
  | case2 t _ ih => exact ih (drop_plain h)

theorem stripped_plain (h : t.vmIsTrailingZeros = false) : t.stripped = t := by
  rw [Trim.stripped,dif_neg (by simp [h])]

theorem stripped_tail (h : t.vmIsTrailingZeros = true) (hz : t.vm % 10 = 0) : t.stripped = t.drop.stripped := by
  rw [Trim.stripped,dif_pos h,trimTail,dif_pos hz,Trim.stripped,dif_pos (drop_trailing h hz)]

theorem stripped_end (hz : t.vm % 10 ≠ 0) : t.stripped = t := by
  unfold Trim.stripped
  split_ifs
  · rw [trimTail,dif_neg hz]
  · rfl

theorem drop_end (hz : t.vm % 10 ≠ 0) : t.drop.vmIsTrailingZeros = false := by
  simp [Trim.drop,hz]

theorem chop_stripped (hv : t.vr < 10 ^ 20) : (chop max t).stripped = chop max t.stripped := by
  cases htrail : t.vmIsTrailingZeros with
  | false => rw [stripped_plain htrail,stripped_plain (chop_plain htrail)]
  | true =>
    fun_induction trimTail t htrail with
    | case1 t h hz ih =>
      have hrest := ih ((Nat.div_le_self t.vr 10).trans_lt hv)
      rw [stripped_tail h hz,← hrest]
      by_cases hw : Within max t.vr
      · rw [chop_within hw,chop_within (hw.drop hv : Within max t.drop.vr),stripped_tail h hz]
      · rw [chop_drop hw]
    | case2 t h hz =>
      rw [stripped_end hz]
      by_cases hw : Within max t.vr
      · rw [chop_within hw,stripped_end hz]
      · rw [chop_drop hw,stripped_plain (chop_plain (drop_end hz))]

theorem stripped_chop (hle : max ≤ more) (hv : t.vr < 10 ^ 20) :
    (trimMax max t).1.stripped = chop max (trimMax more t).1.stripped := by
  fun_induction trimMax more t with
  | case1 t hs hw => rw [(trimMax_short hs).1,chop_stripped hv]
  | case2 t hs hw ih =>
    have hfew : ¬Within max t.vr := fun h => hw (h.mono hle)
    rw [trimMax,if_pos hs,if_neg hfew]
    exact ih ((Nat.div_le_self t.vr 10).trans_lt hv)
  | case3 t hs ih =>
    rw [trimMax,if_neg hs]
    exact ih ((Nat.div_le_self t.vr 10).trans_lt hv)

theorem stripped_trailing (h : t.vmIsTrailingZeros = true) : t.stripped.vmIsTrailingZeros = true := by
  fun_induction trimTail t h with
  | case1 t h hz ih => rwa [stripped_tail h hz]
  | case2 t h hz => rwa [stripped_end hz]

theorem truncate_alike (hle : max ≤ more) (hv : t.vr < 10 ^ 20) (hw : Within max (trimMax more t).1.stripped.vr) :
    (trimMax max t).2 = (trimMax more t).2 ∨ (trimMax more t).1.stripped.vmIsTrailingZeros = true := by
  fun_induction trimMax more t with
  | case1 t hs hmore =>
    cases htrail : t.vmIsTrailingZeros with
    | true => exact .inr (stripped_trailing htrail)
    | false =>
      rw [stripped_plain htrail] at hw
      exact .inl (Bool.eq_false_iff.mpr fun h => (trimMax_short hs).2.mp h hw)
  | case2 t hs hmore ih => exact .inl ((trimMax_short hs).2.mpr fun h => hmore (h.mono hle))
  | case3 t hs ih =>
    rw [trimMax,if_neg hs]
    exact ih ((Nat.div_le_self t.vr 10).trans_lt hv) hw

theorem truncates (hle : max ≤ more) (hv : t.vr < 10 ^ 20) (hw : ¬Within max (trimMax more t).1.stripped.vr) :
    (trimMax max t).2 = true := by
  fun_induction trimMax more t with
  | case1 t hs hmore => exact (trimMax_short hs).2.mpr fun h => hw (h.drops hv (stripped_drops t))
  | case2 t hs hmore ih => exact (trimMax_short hs).2.mpr fun h => hmore (h.mono hle)
  | case3 t hs ih =>
    rw [trimMax,if_neg hs]
    exact ih ((Nat.div_le_self t.vr 10).trans_lt hv) hw

theorem carry_trailing (h : t.vmIsTrailingZeros = true) (a b : Bool) : t.carry a = t.carry b := by
  simp [Trim.carry,h,(t.bounds h).1]

theorem chop_pos (hm : 0 < max) (h : 0 < t.vr) (hv : t.vr < 10 ^ 20) : 0 < (chop max t).vr := by
  fun_induction chop max t with
  | case1 t => exact h
  | case2 t hw ih =>
    have hlong : ¬t.vr < 10 ^ max := fun hlt => hw (.inl ((length_le hv hm).mpr hlt))
    have hten : 10 ^ 1 ≤ 10 ^ max := Nat.pow_le_pow_right (by decide) hm
    exact ih (show 0 < t.vr / 10 by omega) ((Nat.div_le_self t.vr 10).trans_lt hv)

theorem stripped_pos (h : 0 < t.vr) : 0 < t.stripped.vr := by
  cases htrail : t.vmIsTrailingZeros with
  | false => rwa [stripped_plain htrail]
  | true =>
    fun_induction trimTail t htrail with
    | case1 t ht hz ih =>
      have hpos := (t.bounds ht).2
      have hlow := t.low
      rw [stripped_tail ht hz]
      exact ih (show 0 < t.vr / 10 by omega)
    | case2 t ht hz => rwa [stripped_end hz]

theorem truncated_pos (hm : 0 < max) (hv : t.vr < 10 ^ 20) (h : (trimMax max t).2 = true) : 0 < (trimMax max t).1.vr := by
  fun_induction trimMax max t with
  | case1 t => cases h
  | case2 t hs hw ih =>
    have hlong : ¬t.vr < 10 ^ max := fun hlt => hw (.inl ((length_le hv hm).mpr hlt))
    have hten : 10 ^ 1 ≤ 10 ^ max := Nat.pow_le_pow_right (by decide) hm
    change 0 < (trimMax max t.drop).1.vr
    rw [(trimMax_short (Nat.div_le_div_right hs : t.drop.vp / 10 ≤ t.drop.vm / 10)).1]
    exact chop_pos hm (show 0 < t.vr / 10 by omega) ((Nat.div_le_self t.vr 10).trans_lt hv)
  | case3 t hs ih => exact ih ((Nat.div_le_self t.vr 10).trans_lt hv) h

theorem drop_zero (h : t.drop.vr = 0) : t.drop.vmIsTrailingZeros = false := by
  change t.vr / 10 = 0 at h
  cases htrail : t.vmIsTrailingZeros with
  | false => exact drop_plain htrail
  | true =>
    have hpos := (t.bounds htrail).2
    have hlow := t.low
    exact drop_end (by omega)

theorem Trim.Drops.zero (hd : t.Drops u) (ht : 0 < t.vr) (hu : u.vr = 0) : u.vmIsTrailingZeros = false := by
  obtain ⟨k,rfl⟩ := hd
  cases k with
  | zero => exact absurd hu ht.ne'
  | succ k =>
    rw [Function.iterate_succ_apply'] at hu ⊢
    exact drop_zero hu

theorem output_pos (hm : 0 < max) (hv : t.vr < 10 ^ 20) (ht : 0 < t.vr) :
    0 < (trimMax max t).1.stripped.vr + ((trimMax max t).1.stripped.carry (trimMax max t).2).toNat := by
  rcases Nat.eq_zero_or_pos (trimMax max t).1.stripped.vr with hzero | hpos
  · have hplain := ((trimMax_drops max t).trans (stripped_drops _)).zero ht hzero
    have hlow := (trimMax max t).1.stripped.low
    have hwhole : (trimMax max t).2 = false :=
      Bool.eq_false_iff.mpr fun h => (stripped_pos (truncated_pos hm hv h)).ne' hzero
    have hcarry : (trimMax max t).1.stripped.carry (trimMax max t).2 = true := by
      rw [hwhole]
      simp only [Trim.carry,hplain]
      exact decide_eq_true (.inl ⟨trivial,by omega,.inr trivial⟩)
    rw [hcarry]
    exact Nat.succ_pos _
  · exact Nat.add_pos_left hpos _

def Trim.output (t : Trim) (c : Bool) : Nat := t.vr + c.toNat

theorem drop_exact {c : Bool} {j : Nat} (h : 10 ^ (j + 1) ∣ t.output c) :
    t.drop.carry true = c ∧ 10 ^ j ∣ t.drop.output c ∧ t.drop.output c * 10 = t.output c := by
  obtain ⟨m,hm⟩ := h
  have hten : t.vr + c.toNat = 10 * (10 ^ j * m) := by
    rw [← mul_assoc,← pow_succ']
    exact hm
  have hbit := Bool.toNat_le c
  have hdrop : t.drop.vr + c.toNat = 10 ^ j * m := by
    change t.vr / 10 + c.toNat = _
    omega
  have hlast : t.drop.lastRemovedDigit = if c then 9 else 0 := by
    change t.vr % 10 = _
    cases c <;> simp only [Bool.toNat_true,Bool.toNat_false] at hten <;> simp <;> omega
  refine ⟨?_,⟨m,hdrop⟩,?_⟩
  · simp only [Trim.carry,hlast]
    cases c <;> simp
  · rw [Trim.output,Trim.output,hdrop,hten,mul_comm]

structure Exact (max : Nat) (t u : Trim) (c : Bool) (i : Nat) : Prop where
  removed : u.removed = t.removed + i
  output : u.output c * 10 ^ i = t.output c
  within : Within max u.vr

theorem chop_exact {c : Bool} {j : Nat} (hd : 10 ^ j ∣ t.output c) (hc : t.carry true = c)
    (hw : Within max (t.vr / 10 ^ j)) : (chop max t).carry true = c ∧ ∃ i ≤ j, Exact max t (chop max t) c i := by
  induction j generalizing t with
  | zero =>
    have hin : Within max t.vr := by simpa using hw
    rw [chop_within hin]
    exact ⟨hc,0,le_rfl,rfl,by simp,hin⟩
  | succ j ih =>
    by_cases hin : Within max t.vr
    · rw [chop_within hin]
      exact ⟨hc,0,Nat.zero_le _,rfl,by simp,hin⟩
    · obtain ⟨hcarry,hdvd,hout⟩ := drop_exact hd
      rw [pow_succ',← Nat.div_div_eq_div_mul] at hw
      rw [chop_drop hin]
      obtain ⟨hc',i,hi,hex⟩ := ih hdvd hcarry hw
      refine ⟨hc',i + 1,Nat.succ_le_succ hi,?_,?_,hex.within⟩
      · rw [hex.removed]
        exact Nat.add_right_comm _ _ _
      · rw [pow_succ,← mul_assoc,hex.output,hout]

theorem trim_exact (hle : max ≤ more) (hv : t.vr < 10 ^ 20) {j : Nat}
    (hd : 10 ^ j ∣ (trimMax more t).1.stripped.output ((trimMax more t).1.stripped.carry (trimMax more t).2))
    (hw : Within max ((trimMax more t).1.stripped.vr / 10 ^ j)) :
    (trimMax max t).1.stripped.carry (trimMax max t).2 = (trimMax more t).1.stripped.carry (trimMax more t).2 ∧
      ∃ i ≤ j, Exact max (trimMax more t).1.stripped (trimMax max t).1.stripped
        ((trimMax more t).1.stripped.carry (trimMax more t).2) i := by
  rw [stripped_chop hle hv]
  by_cases hin : Within max (trimMax more t).1.stripped.vr
  · rw [chop_within hin]
    refine ⟨?_,0,Nat.zero_le _,rfl,by simp,hin⟩
    rcases truncate_alike hle hv hin with heq | htrail
    · rw [heq]
    · exact carry_trailing htrail _ _
  · rw [truncates hle hv hin,chop_drop hin]
    cases j with
    | zero => exact absurd (by simpa using hw) hin
    | succ j =>
      obtain ⟨hcarry,hdvd,hout⟩ := drop_exact hd
      rw [pow_succ',← Nat.div_div_eq_div_mul] at hw
      obtain ⟨hc',i,hi,hex⟩ := chop_exact hdvd hcarry hw
      refine ⟨hc',i + 1,Nat.succ_le_succ hi,?_,?_,hex.within⟩
      · rw [hex.removed]
        exact Nat.add_right_comm _ _ _
      · rw [pow_succ,← mul_assoc,hex.output,hout]

end

structure Settled (e10 : Int) (output : Nat) (d : FloatingDecimal64) : Prop where
  value : (d.mantissa : ℚ) * 10 ^ d.exponent = output * 10 ^ e10
  olength : d.olength = decimalLength17 d.mantissa
  few : d.olength ≤ 17
  pos : 0 < d.mantissa
  room : d.mantissa < 10 ^ 20
  least : e10 ≤ d.exponent

theorem settled_self {e10 : Int} {output len : Nat} (hlen : len = decimalLength17 output) (hfew : len ≤ 17) (hpos : 0 < output)
    (hroom : output < 10 ^ 20) : Settled e10 output ⟨output,e10,len⟩ := ⟨rfl,hlen,hfew,hpos,hroom,le_rfl⟩

theorem roundOutput_settled {max v : Nat} {again : Int → Nat} {c : Bool} {e10 : Int} (hm : max ≤ 17) (hv : v < 10 ^ 19)
    (hw : Within max v) (hpos : 0 < v + c.toNat)
    (hlow : min 17 (decimalLength17 (v + c.toNat)) ≤ again (e10 + decimalLength17 (v + c.toNat) - 1))
    (hhigh : again (e10 + decimalLength17 (v + c.toNat) - 1) ≤ 17) :
    Settled e10 (v + c.toNat) (roundOutput max again (v + c.toNat) c e10) := by
  have hbit := Bool.toNat_le c
  have hshort : v < 10 ^ 17 := (length_le (by omega) (by decide)).mp ((hw.mono hm).resolve_right (by simp))
  have hout : decimalLength17 (v + c.toNat) ≤ 17 ↔ v + c.toNat < 10 ^ 17 := length_le (by omega) (by decide)
  unfold roundOutput
  dsimp only
  by_cases hup : c = true ∧ max < decimalLength17 (v + c.toNat)
  · rw [if_pos hup]
    by_cases hagain : again (e10 + decimalLength17 (v + c.toNat) - 1) < decimalLength17 (v + c.toNat)
    · rw [if_pos hagain]
      have hlong : v + c.toNat = 10 ^ 17 := by omega
      have hfull : again (e10 + decimalLength17 (v + c.toNat) - 1) = 17 := by omega
      have hdigits : min (decimalLength17 (10 ^ 17) - 1) 17 = 17 := by decide
      have htop : (10 ^ 17 + 5) / 10 = 10 ^ 16 := by decide
      rw [hfull,hlong,hdigits,htop]
      refine ⟨?_,(by decide : 17 = decimalLength17 (10 ^ 16)),le_refl 17,(by decide : 0 < 10 ^ 16),(by decide : 10 ^ 16 < 10 ^ 20),
        Int.le_add_one le_rfl⟩
      dsimp only
      rw [zpow_add₀ (by norm_num)]
      push_cast
      ring
    · rw [if_neg hagain]
      exact settled_self rfl (by omega) hpos (by omega)
  · rw [if_neg hup]
    have hfits : decimalLength17 (v + c.toNat) ≤ max := by
      cases c with
      | true => exact not_lt.mp fun h => hup ⟨rfl,h⟩
      | false => exact hw.length hpos
    exact settled_self (min_eq_left hfits) (by omega) hpos (by omega)

theorem Settled.digits {e10 : Int} {output : Nat} {d : FloatingDecimal64} (h : Settled e10 output d) :
    d.mantissa < 10 ^ d.olength ∧ 0 < d.olength := by
  rw [h.olength]
  exact ⟨lt_pow_length h.room,length_pos _⟩

section

variable (s : Scaled)

def Scaled.whole : Trim := (trimMax 17 s.start).1.stripped

def Scaled.up : Bool := s.whole.carry (trimMax 17 s.start).2

def Scaled.exponent : Int := s.e10 + s.whole.removed

theorem Scaled.short : s.start.vr < 10 ^ 20 := by
  have hroom := s.room
  change s.vr < 10 ^ 20
  omega

theorem drops_short {t u : Trim} (h : t.Drops u) (hv : t.vr < 10 ^ 19) : u.vr < 10 ^ 19 := by
  obtain ⟨k,hvr,-⟩ := h.vr
  rw [hvr]
  exact (Nat.div_le_self _ _).trans_lt hv

theorem Scaled.drops (max : Nat) : s.start.Drops (trimMax max s.start).1.stripped :=
  (trimMax_drops max s.start).trans (stripped_drops _)

theorem trimMax_within {max : Nat} (t : Trim) (hv : t.vr < 10 ^ 20) : Within max (trimMax max t).1.stripped.vr := by
  fun_induction trimMax max t with
  | case1 t hs hw => exact hw.drops hv (stripped_drops t)
  | case2 t hs hw ih => exact ih ((Nat.div_le_self t.vr 10).trans_lt hv)
  | case3 t hs ih => exact ih ((Nat.div_le_self t.vr 10).trans_lt hv)

theorem d2d_whole (decimals : Int) : Settled s.exponent (s.whole.output s.up) (d2d s 17 false decimals) := by
  have hroom := s.room
  refine roundOutput_settled le_rfl (drops_short (s.drops 17) (show s.vr < 10 ^ 19 by omega)) (trimMax_within s.start s.short)
    (output_pos (by decide) s.short s.pos) (min_le_left _ _) le_rfl

theorem limitDigits_fmode (max : Nat) (least decimals exp : Int) (h : 0 ≤ least) :
    (limitDigits max true least decimals exp : Int) = min (max : Int) (Max.max least (decimals + exp + 1)) := by
  unfold limitDigits
  rw [if_pos rfl]
  split_ifs <;> omega

theorem Scaled.lengths (max : Nat) (h : 0 < (trimMax max s.start).1.stripped.vr) :
    decimalLength17 s.vr = decimalLength17 (trimMax max s.start).1.stripped.vr + (trimMax max s.start).1.stripped.removed := by
  obtain ⟨k,hvr,hremoved⟩ := (s.drops max).vr
  have hzero : s.start.removed = 0 := rfl
  rw [hvr] at h
  rw [hremoved,hvr,hzero,Nat.zero_add]
  exact length_div s.short h

def Scaled.Narrow : Prop := s.vp < 10 * 10 ^ decimalLength17 s.vr

theorem trimMax_removed {max j : Nat} {t : Trim} (hp : t.vp < 10 * 10 ^ j) (hv : t.vr < 10 ^ j) :
    (trimMax max t).1.removed ≤ t.removed + j := by
  fun_induction trimMax max t generalizing j with
  | case1 t => exact Nat.le_add_right _ _
  | case2 t _ hw ih =>
    cases j with
    | zero => exact absurd (by simpa using hv) (pos_of_not_within hw).ne'
    | succ j =>
      have hle := @ih j (show t.vp / 10 < 10 * 10 ^ j by omega) (show t.vr / 10 < 10 ^ j by omega)
      exact hle.trans (by simp only [Trim.drop]; omega)
  | case3 t hs ih =>
    cases j with
    | zero => omega
    | succ j =>
      have hle := @ih j (show t.vp / 10 < 10 * 10 ^ j by omega) (show t.vr / 10 < 10 ^ j by omega)
      exact hle.trans (by simp only [Trim.drop]; omega)

theorem Scaled.removed_all {max : Nat} (h : s.Narrow) (hz : (s.trimmed max).vr = 0) :
    (s.trimmed max).removed = decimalLength17 s.vr := by
  have hsome := length_pos s.vr
  have hshort := lt_pow_length s.short
  obtain ⟨k,hvr,hremoved⟩ := (s.drops max).vr
  have hlow : decimalLength17 s.vr ≤ k := by
    have hdiv : s.vr / 10 ^ k = 0 := hvr.symm.trans hz
    have hlt : s.vr < 10 ^ k := (Nat.div_eq_zero_iff_lt (by positivity)).mp hdiv
    have hk : 0 < k := Nat.pos_of_ne_zero fun hk => by
      rw [hk,pow_zero] at hlt
      exact s.pos.ne' (Nat.lt_one_iff.mp hlt)
    exact (length_le s.short hk).mpr hlt
  have hzero : (trimMax max s.start).1.vr = 0 := by
    by_contra hne
    exact (stripped_pos (Nat.pos_of_ne_zero hne)).ne' hz
  have hplain : s.trimmed max = (trimMax max s.start).1 :=
    stripped_plain ((trimMax_drops max s.start).zero s.pos hzero)
  have hhigh := @trimMax_removed max (decimalLength17 s.vr) s.start h hshort
  have hstart : s.start.removed = 0 := rfl
  change (s.trimmed max).removed = _ at hremoved
  rw [← hplain] at hhigh
  omega

theorem Scaled.last_near {max : Nat} (h : s.Narrow) (hpos : 0 < (s.trimmed max).vr + (s.carries max).toNat) :
    decimalLength17 s.vr ≤ (s.trimmed max).removed + decimalLength17 ((s.trimmed max).vr + (s.carries max).toNat) ∧
      (s.trimmed max).removed + decimalLength17 ((s.trimmed max).vr + (s.carries max).toNat) ≤ decimalLength17 s.vr + 1 := by
  have hbit := Bool.toNat_le (s.carries max)
  have hroom := s.room
  have hshort : (s.trimmed max).vr < 10 ^ 19 := drops_short (s.drops max) (show s.vr < 10 ^ 19 by omega)
  rcases Nat.eq_zero_or_pos (s.trimmed max).vr with hzero | hsome
  · have hall := s.removed_all h hzero
    have hone : (s.trimmed max).vr + (s.carries max).toNat = 1 := by omega
    have hlen : decimalLength17 1 = 1 := rfl
    rw [hone,hlen]
    omega
  · have hall := s.lengths max hsome
    have hmono := length_mono (v := (s.trimmed max).vr) (w := (s.trimmed max).vr + (s.carries max).toNat) (by omega) (by omega)
    have hlt := lt_pow_length (v := (s.trimmed max).vr) (by omega)
    have hnext := (length_le (v := (s.trimmed max).vr + (s.carries max).toNat) (by omega)
      (Nat.succ_pos (decimalLength17 (s.trimmed max).vr))).mpr (by rw [pow_succ]; omega)
    change decimalLength17 s.vr = decimalLength17 (s.trimmed max).vr + (s.trimmed max).removed at hall
    omega

theorem dvd_of_scaled {m : Nat} {x : Int} {p : Nat} {n : Int} (h : (m : ℚ) * 10 ^ x * 10 ^ p = n) : 10 ^ (-(x + p)).toNat ∣ m := by
  rcases le_total 0 (x + p) with hpos | hneg
  · rw [Int.toNat_of_nonpos (by omega),pow_zero]
    exact one_dvd m
  · obtain ⟨j,hj⟩ := Int.eq_ofNat_of_zero_le (show 0 ≤ -(x + p) by omega)
    have hshift : (10 : ℚ) ^ x * 10 ^ p = ((10 : ℚ) ^ j)⁻¹ := by
      rw [← zpow_natCast,← zpow_natCast,← zpow_neg,← zpow_add₀ (by norm_num)]
      congr 1
      omega
    rw [hj,Int.toNat_natCast]
    rw [mul_assoc,hshift,← div_eq_mul_inv,div_eq_iff (by positivity)] at h
    have hint : (m : ℤ) = n * (10 ^ j : ℕ) := by exact_mod_cast h
    exact Int.natCast_dvd_natCast.mp ⟨n,by rw [hint,mul_comm]⟩

theorem whole_within {p : Nat} {j : Nat} (hj : 0 ≤ s.exponent + p + j) :
    Within (limitDigits 17 true 0 p (s.e10 + decimalLength17 s.vr - 1)) (s.whole.vr / 10 ^ j) := by
  rcases Nat.eq_zero_or_pos (s.whole.vr / 10 ^ j) with hzero | hpos
  · rw [hzero]
    exact within_zero _
  · have hroom := s.room
    have hshort : s.whole.vr < 10 ^ 20 :=
      (drops_short (s.drops 17) (show s.vr < 10 ^ 19 by omega)).trans (by decide)
    have hsome : 0 < s.whole.vr := Nat.pos_of_ne_zero fun h => by simp [h] at hpos
    have hdiv := length_div hshort hpos
    have hall := s.lengths 17 hsome
    have hfew := (trimMax_within s.start s.short : Within 17 _).length hsome
    have hexp : s.exponent = s.e10 + s.whole.removed := rfl
    have hcut := limitDigits_fmode 17 0 p (s.e10 + decimalLength17 s.vr - 1) le_rfl
    change decimalLength17 s.vr = decimalLength17 s.whole.vr + s.whole.removed at hall
    change decimalLength17 s.whole.vr ≤ 17 at hfew
    exact .inl (by omega)

def Scaled.cut (p : Nat) : Nat := limitDigits 17 true 0 p (s.e10 + decimalLength17 s.vr - 1)

theorem d2d_fixed {p : Nat} {n : Int} (hn : (s.whole.output s.up : ℚ) * 10 ^ s.exponent * 10 ^ p = n) :
    ∃ i : Nat, Settled (s.exponent + i) ((s.trimmed (s.cut p)).output (s.carries (s.cut p))) (d2d s 17 true p) ∧
      (s.trimmed (s.cut p)).output (s.carries (s.cut p)) * 10 ^ i = s.whole.output s.up ∧
        s.exponent + i = s.e10 + (s.trimmed (s.cut p)).removed ∧ 0 ≤ s.exponent + i + p := by
  have hroom := s.room
  have hdvd := dvd_of_scaled hn
  have hcut := limitDigits_fmode 17 0 p (s.e10 + decimalLength17 s.vr - 1) le_rfl
  have hwithin := whole_within s (p := p) (j := (-(s.exponent + p)).toNat) (by omega)
  have hpos : 0 < s.whole.output s.up := output_pos (by decide) s.short s.pos
  have hsign : (if (p : ℤ) < 0 then 1 else 0 : ℤ) = 0 := if_neg (by omega)
  unfold d2d
  dsimp only
  rw [hsign]
  unfold Scaled.carries Scaled.trimmed Scaled.cut
  generalize limitDigits 17 true 0 p (s.e10 + decimalLength17 s.vr - 1) = cut at *
  obtain ⟨hcarry,i,hi,hex⟩ := trim_exact (show cut ≤ 17 by omega) s.short hdvd hwithin
  have hlengths := s.lengths cut
  have hshort := drops_short (s.drops cut) (show s.start.vr < 10 ^ 19 from by change s.vr < 10 ^ 19; omega)
  generalize (trimMax cut s.start).1.stripped = u at *
  have hout : u.output s.up * 10 ^ i = s.whole.output s.up := hex.output
  have hremoved : s.exponent + i = s.e10 + u.removed := by
    rw [hex.removed,Scaled.exponent,Scaled.whole]
    push_cast
    ring
  have hplaces : 0 ≤ s.exponent + i + p := by
    rcases Nat.eq_zero_or_pos u.vr with hzero | hsome
    · have hten : 10 ^ i = s.whole.output s.up := by
        rw [← hout,Trim.output,hzero] at hpos
        have hup := Bool.toNat_le s.up
        have hone : s.up.toNat = 1 := by
          rcases Nat.eq_zero_or_pos s.up.toNat with h | h
          · simp [h] at hpos
          · omega
        rw [← hout,Trim.output,hzero,hone,Nat.zero_add,one_mul]
      have hle : (-(s.exponent + p)).toNat ≤ i := by
        rw [← Nat.pow_dvd_pow_iff_le_right (show 1 < 10 by decide),hten]
        exact hdvd
      omega
    · have hlen := hlengths hsome
      have hmany := hex.within.length hsome
      have hfirst := length_pos u.vr
      omega
  rw [show u.carry (trimMax cut s.start).2 = s.up from hcarry]
  refine ⟨i,?_,hout,hremoved,hplaces⟩
  rw [hremoved]
  have hmant : 0 < u.output s.up := Nat.pos_of_ne_zero fun h => by simp [← hout,h] at hpos
  have hagain := limitDigits_fmode 17 1 p (s.e10 + u.removed + decimalLength17 (u.output s.up) - 1) (by decide)
  exact roundOutput_settled (by omega) hshort hex.within hmant (by change min 17 (decimalLength17 (u.output s.up)) ≤ limitDigits 17 true 1 p (s.e10 + u.removed + decimalLength17 (u.output s.up) - 1); omega)
    (by change limitDigits 17 true 1 p (s.e10 + u.removed + decimalLength17 (u.output s.up) - 1) ≤ 17; omega)

end

end Printf
