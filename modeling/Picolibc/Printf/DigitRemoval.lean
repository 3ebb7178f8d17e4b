import Mathlib
import Picolibc.Lib.DecimalGrid
import Picolibc.Lib.HalfEven
import Picolibc.Printf.Ryu

open DecimalGrid HalfEven

namespace Printf

def accepted (accept : Bool) (a b : ℚ) : Set ℚ := if accept = true then Set.Icc a b else Set.Ioo a b

structure Scaled.Scales (s : Scaled) (a v b : ℚ) : Prop where
  below : a < v
  above : v < b
  near : v - a ≤ b - v
  vm : ⌊a⌋ = s.vm
  vr : ⌊v⌋ = s.vr
  vp : (s.vp : ℤ) = if s.acceptBounds = false ∧ (⌊b⌋ : ℚ) = b then ⌊b⌋ - 1 else ⌊b⌋
  vmFlag : s.vmIsTrailingZeros = true ↔ s.acceptBounds = true ∧ (⌊a⌋ : ℚ) = a
  vrFlag : s.vrIsTrailingZeros = true ↔ (⌊v⌋ : ℚ) = v

structure Level (a v b : ℚ) (t : Trim) : Prop where
  vm : Cell 10 t.removed t.vm a
  vr : Cell 10 t.removed t.vr v
  vp : ∀ n : ℕ, n ≤ t.vp ↔ (n : ℚ) * 10 ^ t.removed < b ∨ t.acceptBounds = true ∧ (n : ℚ) * 10 ^ t.removed = b
  flag : t.vmIsTrailingZeros = true ↔ t.acceptBounds = true ∧ (t.vm : ℚ) * 10 ^ t.removed = a
  exact : t.vrIsTrailingZeros = true ∧ t.lastRemovedDigit = 0 ↔ (t.vr : ℚ) * 10 ^ t.removed = v

structure Tail (v : ℚ) (t : Trim) : Prop where
  digit : t.lastRemovedDigit < 10
  cell : Cell 10 t.removed (10 * t.vr + t.lastRemovedDigit) (v * 10)
  exact : t.vrIsTrailingZeros = true ↔ ((10 * t.vr + t.lastRemovedDigit : ℕ) : ℚ) * 10 ^ t.removed = v * 10

theorem cell_ten {k n : ℕ} {q : ℚ} : Cell 10 k n q ↔ (n : ℚ) * 10 ^ k ≤ q ∧ q < (n + 1) * 10 ^ k := Iff.rfl

theorem accepted_convex (accept : Bool) (a b : ℚ) : (accepted accept a b).OrdConnected := by
  unfold accepted
  split_ifs
  · exact Set.ordConnected_Icc
  · exact Set.ordConnected_Ioo

section

variable {a v b : ℚ} {t u : Trim}

theorem scaled_same {n : ℕ} {k : ℕ} {q : ℚ} (h : Cell 10 k n q) :
    (n : ℚ) * 10 ^ k = q ∧ n % 10 = 0 ↔ ((n / 10 : ℕ) : ℚ) * 10 ^ (k + 1) = q := by
  have hpos : (0 : ℚ) < 10 ^ k := by positivity
  have hten : ((n / 10 : ℕ) : ℚ) * 10 ^ (k + 1) = ((10 * (n / 10) : ℕ) : ℚ) * 10 ^ k := by
    push_cast
    ring
  rw [hten]
  constructor
  · rintro ⟨heq,hz⟩
    rw [← heq,show 10 * (n / 10) = n by omega]
  · intro heq
    have hle := (le_of_cell (by decide) (h : Cell 10 k n q)).mp heq.le
    rw [cell_ten] at h
    have hup : ((10 * (n / 10) : ℕ) : ℚ) * 10 ^ k ≥ (n : ℚ) * 10 ^ k := heq ▸ h.1
    have hcast : (n : ℚ) ≤ ((10 * (n / 10) : ℕ) : ℚ) := le_of_mul_le_mul_right hup hpos
    have hn : n ≤ 10 * (n / 10) := by exact_mod_cast hcast
    have hsame : 10 * (n / 10) = n := by omega
    exact ⟨by rw [← heq,hsame],by omega⟩

theorem Level.drop (h : Level a v b t) : Level a v b t.drop where
  vm := cell_coarser (by decide) h.vm
  vr := cell_coarser (by decide) h.vr
  vp n := by
    change n ≤ t.vp / 10 ↔ (n : ℚ) * 10 ^ (t.removed + 1) < b ∨ t.acceptBounds = true ∧ (n : ℚ) * 10 ^ (t.removed + 1) = b
    have hten : (n : ℚ) * 10 ^ (t.removed + 1) = ((n * 10 : ℕ) : ℚ) * 10 ^ t.removed := by
      push_cast
      ring
    rw [Nat.le_div_iff_mul_le (by decide),h.vp,hten]
  flag := by
    change (t.vmIsTrailingZeros && decide (t.vm % 10 = 0)) = true ↔
      t.acceptBounds = true ∧ ((t.vm / 10 : ℕ) : ℚ) * 10 ^ (t.removed + 1) = a
    rw [Bool.and_eq_true,decide_eq_true_eq,h.flag,← scaled_same h.vm,and_assoc]
  exact := by
    change (t.vrIsTrailingZeros && decide (t.lastRemovedDigit = 0)) = true ∧ t.vr % 10 = 0 ↔
      ((t.vr / 10 : ℕ) : ℚ) * 10 ^ (t.removed + 1) = v
    rw [Bool.and_eq_true,decide_eq_true_eq,h.exact,← scaled_same h.vr]

theorem Level.tail (h : Level a v b t) : Tail v t.drop := by
  have hsplit : 10 * (t.vr / 10) + t.vr % 10 = t.vr := Nat.div_add_mod t.vr 10
  refine ⟨Nat.mod_lt _ (by decide),?_,?_⟩
  · change Cell 10 (t.removed + 1) (10 * (t.vr / 10) + t.vr % 10) (v * (10 : ℕ))
    rw [hsplit]
    exact cell_shift h.vr (by decide)
  · change (t.vrIsTrailingZeros && decide (t.lastRemovedDigit = 0)) = true ↔
      ((10 * (t.vr / 10) + t.vr % 10 : ℕ) : ℚ) * 10 ^ (t.removed + 1) = v * 10
    rw [Bool.and_eq_true,decide_eq_true_eq,h.exact,hsplit,pow_succ,← mul_assoc]
    exact (mul_left_inj' (by norm_num)).symm

theorem Level.drops (h : Level a v b t) (hd : t.Drops u) : Level a v b u := by
  obtain ⟨k,rfl⟩ := hd
  induction k generalizing t with
  | zero => exact h
  | succ k ih => exact ih h.drop

theorem Level.mem (h : Level a v b t) (n : ℕ) : (n : ℚ) * 10 ^ t.removed ∈ accepted t.acceptBounds a b ↔
    (t.vm < n ∨ t.vmIsTrailingZeros = true ∧ n = t.vm) ∧ n ≤ t.vp := by
  have hle : (n : ℚ) * 10 ^ t.removed ≤ a ↔ n ≤ t.vm := le_of_cell (by decide) h.vm
  have hlow : t.vm < n ↔ a < (n : ℚ) * 10 ^ t.removed := by rw [← not_le,← not_le,hle]
  have hsame : (t.vm : ℚ) * 10 ^ t.removed = a → ((n : ℚ) * 10 ^ t.removed = a ↔ n = t.vm) := fun heq => by
    rw [← heq,mul_left_inj' (by positivity),Nat.cast_inj]
  rw [hlow,h.flag,h.vp,accepted]
  cases t.acceptBounds with
  | false => simp
  | true =>
    simp only [if_true,Set.mem_Icc,true_and,le_iff_lt_or_eq]
    refine and_congr (or_congr_right ⟨fun heq => ?_,fun ⟨heq,hn⟩ => ((hsame heq).mpr hn).symm⟩) Iff.rfl
    have hup := hle.mp heq.ge
    have hcast : (n : ℚ) ≤ t.vm := by exact_mod_cast hup
    have hvm : (t.vm : ℚ) * 10 ^ t.removed = a := le_antisymm (cell_ten.mp h.vm).1
      (heq ▸ mul_le_mul_of_nonneg_right hcast (by positivity))
    exact ⟨hvm,(hsame hvm).mp heq.symm⟩

def Trim.rounding (t : Trim) : Nat :=
  if t.vrIsTrailingZeros = true ∧ t.lastRemovedDigit = 5 ∧ t.vr % 2 = 0 then 4 else t.lastRemovedDigit

theorem Tail.rounds (h : Tail v t) : Nearest (v / 10 ^ t.removed) ((t.vr + (decide (5 ≤ t.rounding)).toNat : ℕ) : ℤ) := by
  obtain ⟨hdigit,hcell,hexact⟩ := h
  have hpos : (0 : ℚ) < 10 ^ t.removed := by positivity
  generalize hq : v / 10 ^ t.removed = q
  obtain rfl : q * 10 ^ t.removed = v := by
    rw [← hq]
    field_simp
  rw [cell_ten,mul_right_comm,mul_le_mul_iff_left₀ hpos,mul_lt_mul_iff_left₀ hpos] at hcell
  rw [mul_right_comm,mul_left_inj' hpos.ne'] at hexact
  obtain ⟨hlow,hhigh⟩ := hcell
  push_cast at hlow hhigh hexact
  have hcast : ∀ {m n : ℕ}, m ≤ n → (m : ℚ) ≤ n := fun h => by exact_mod_cast h
  unfold Trim.rounding
  rcases lt_trichotomy t.lastRemovedDigit 5 with hlt | heq | hgt
  · have hfour : (t.lastRemovedDigit : ℚ) ≤ (4 : ℕ) := hcast (by omega)
    rw [if_neg (by omega),decide_eq_false (by omega)]
    push_cast at hfour ⊢
    refine nearest_of_lt (abs_lt.mpr ⟨?_,?_⟩) <;> push_cast [Bool.toNat_false] <;> linarith
  · rw [heq] at hlow hhigh hexact ⊢
    push_cast at hlow hhigh hexact
    by_cases htie : t.vrIsTrailingZeros = true
    · have hhalf := hexact.mp htie
      by_cases heven : t.vr % 2 = 0
      · rw [if_pos ⟨htie,rfl,heven⟩,decide_eq_false (by omega)]
        refine nearest_of_tie ?_ (Int.even_iff.mpr (by push_cast [Bool.toNat_false]; omega))
        rw [abs_of_nonneg] <;> push_cast [Bool.toNat_false] <;> linarith
      · rw [if_neg (by omega),decide_eq_true le_rfl]
        refine nearest_of_tie ?_ (Int.even_iff.mpr (by push_cast [Bool.toNat_true]; omega))
        rw [abs_of_nonpos] <;> push_cast [Bool.toNat_true] <;> linarith
    · rw [if_neg (fun h => htie h.1),decide_eq_true le_rfl]
      have hne : (10 * t.vr + 5 : ℚ) ≠ q * 10 := fun h => htie (hexact.mpr h)
      have hlt := lt_of_le_of_ne hlow hne
      refine nearest_of_lt (abs_lt.mpr ⟨?_,?_⟩) <;> push_cast [Bool.toNat_true] <;> linarith
  · have hsix : ((6 : ℕ) : ℚ) ≤ t.lastRemovedDigit := hcast (by omega)
    have hnine : (t.lastRemovedDigit : ℚ) ≤ (9 : ℕ) := hcast (by omega)
    rw [if_neg (by omega),decide_eq_true (by omega)]
    push_cast at hsix hnine ⊢
    refine nearest_of_lt (abs_lt.mpr ⟨?_,?_⟩) <;> push_cast [Bool.toNat_true] <;> linarith

theorem carry_rounding (t : Trim) (c : Bool) :
    t.carry c = decide ((c = false ∧ t.vr = t.vm ∧ (t.acceptBounds = false ∨ t.vmIsTrailingZeros = false)) ∨ 5 ≤ t.rounding) := rfl

structure Shortened (a v b : ℚ) (max : Nat) (t : Trim) : Prop where
  level : Level a v b t
  tail : Tail v t
  opened : t.vr = t.vm → t.vmIsTrailingZeros = false → t.vm < t.vp
  closed : t.vp / 10 ≤ t.vm / 10
  ending : t.vmIsTrailingZeros = true → t.vm % 10 ≠ 0
  within : Within max t.vr

theorem Shortened.gap {max : Nat} (h : Shortened a v b max t) (n : ℕ) :
    (n : ℚ) * 10 ^ (t.removed + 1) ∉ accepted t.acceptBounds a b := by
  intro hn
  obtain ⟨hlow,hhigh⟩ := (h.level.drop.mem n).mp hn
  have hclosed : t.drop.vp ≤ t.drop.vm := h.closed
  rcases hlow with hlow | ⟨hflag,-⟩
  · omega
  · have hboth : (t.vmIsTrailingZeros && decide (t.vm % 10 = 0)) = true := hflag
    rw [Bool.and_eq_true,decide_eq_true_eq] at hboth
    exact h.ending hboth.1 hboth.2

theorem Level.scaled (h : Level a v b t) : (t.vr : ℚ) * 10 ^ t.removed ≤ v := (cell_ten.mp h.vr).1

theorem Level.reach (h : Level a v b t) (hnear : v - a ≤ b - v) (hin : t.vm < t.vr ∨ t.vmIsTrailingZeros = true ∧ t.vr = t.vm)
    (hhalf : ((t.vr : ℚ) + 1 / 2) * 10 ^ t.removed ≤ v) : t.vr + 1 ≤ t.vp := by
  have hpos : (0 : ℚ) < 10 ^ t.removed := by positivity
  rw [h.vp]
  push_cast
  rcases hin with hlt | ⟨hflag,heq⟩
  · have hcast : (t.vm : ℚ) + 1 ≤ t.vr := by exact_mod_cast hlt
    have ha : a < t.vr * 10 ^ t.removed := (cell_ten.mp h.vm).2.trans_le (mul_le_mul_of_nonneg_right hcast hpos.le)
    left
    linarith
  · obtain ⟨haccept,ha⟩ := h.flag.mp hflag
    have hle : ((t.vr : ℚ) + 1) * 10 ^ t.removed ≤ b := by
      rw [heq] at hhalf ⊢
      linarith
    exact hle.lt_or_eq.imp id fun he => ⟨haccept,he⟩

theorem distance_scaled (k : ℕ) (x : ℚ) : |x * 10 ^ k - v| = |v / 10 ^ k - x| * 10 ^ k := by
  have hpos : (0 : ℚ) < 10 ^ k := by positivity
  rw [← abs_of_pos hpos,← abs_mul,abs_of_pos hpos,sub_mul,div_mul_cancel₀ _ hpos.ne',abs_sub_comm]

structure Abbreviates (accept : Bool) (a v b : ℚ) (mantissa i : ℕ) : Prop where
  inside : (mantissa : ℚ) * 10 ^ i ∈ accepted accept a b
  fewest : ∀ (m : ℕ) (j : ℤ), (m : ℚ) * 10 ^ j ∈ accepted accept a b → (Nat.digits 10 mantissa).length ≤ (Nat.digits 10 m).length
  closest : ∀ n : ℕ, (n : ℚ) * 10 ^ i ∈ accepted accept a b → |(mantissa : ℚ) * 10 ^ i - v| ≤ |(n : ℚ) * 10 ^ i - v|

theorem Shortened.shortest {max : Nat} (h : Shortened a v b max t) (hv : v < b) (hnear : v - a ≤ b - v) :
    Abbreviates t.acceptBounds a v b (t.output (t.carry false)) t.removed := by
  have hpos : (0 : ℚ) < 10 ^ t.removed := by positivity
  have hvp : t.vr ≤ t.vp := (h.level.vp _).mpr (.inl (h.level.scaled.trans_lt hv))
  have hfew : (t.output (t.carry false) : ℚ) * 10 ^ t.removed ∈ accepted t.acceptBounds a b →
      ∀ (m : ℕ) (j : ℤ), (m : ℚ) * 10 ^ j ∈ accepted t.acceptBounds a b →
        (Nat.digits 10 (t.output (t.carry false))).length ≤ (Nat.digits 10 m).length :=
    fun hin m j hm => fewest_digits (by decide) (accepted_convex _ a b) hin h.gap hm
  by_cases hout : t.vr = t.vm ∧ t.vmIsTrailingZeros = false
  · have hcarry : t.carry false = true := decide_eq_true (.inl ⟨rfl,hout.1,.inr hout.2⟩)
    have hopen := h.opened hout.1 hout.2
    have hin : (t.output (t.carry false) : ℚ) * 10 ^ t.removed ∈ accepted t.acceptBounds a b := by
      rw [h.level.mem,hcarry,Trim.output,Bool.toNat_true,hout.1]
      omega
    refine ⟨hin,hfew hin,fun n hn => ?_⟩
    have hlow := (h.level.mem n).mp hn
    have hn' : t.vr + 1 ≤ n := by
      rcases hlow.1 with hlt | ⟨hflag,-⟩
      · omega
      · exact absurd hflag (by simp [hout.2])
    have hcast : (t.vr : ℚ) + 1 ≤ n := by exact_mod_cast hn'
    have hup := (cell_ten.mp h.level.vr).2
    have hmono := mul_le_mul_of_nonneg_right hcast hpos.le
    rw [hcarry,Trim.output,Bool.toNat_true,abs_of_nonneg (by push_cast; linarith),abs_of_nonneg (by linarith)]
    push_cast
    linarith
  · have hin : t.vm < t.vr ∨ t.vmIsTrailingZeros = true ∧ t.vr = t.vm := by
      have hlow := t.low
      cases hflag : t.vmIsTrailingZeros with
      | false => exact .inl (lt_of_le_of_ne hlow fun heq => hout ⟨heq.symm,hflag⟩)
      | true => exact hlow.lt_or_eq.imp id fun heq => ⟨rfl,heq.symm⟩
    have hcarry : t.carry false = decide (5 ≤ t.rounding) := by
      rw [carry_rounding]
      refine decide_eq_decide.mpr (or_iff_right fun hfirst => ?_)
      rcases hfirst.2.2 with haccept | hflag
      · exact hout ⟨hfirst.2.1,Bool.eq_false_iff.mpr fun hflag => by simp [(t.bounds hflag).1] at haccept⟩
      · exact hout ⟨hfirst.2.1,hflag⟩
    have hround := h.tail.rounds
    rw [← hcarry,← Trim.output] at hround
    have hmem : (t.output (t.carry false) : ℚ) * 10 ^ t.removed ∈ accepted t.acceptBounds a b := by
      rw [h.level.mem]
      cases hc : t.carry false with
      | false => exact ⟨by simpa [Trim.output] using hin,by simpa [Trim.output] using hvp⟩
      | true =>
        rw [hc] at hround
        have hdist := (abs_le.mp hround.1).1
        rw [Trim.output,Bool.toNat_true] at hdist ⊢
        push_cast at hdist
        have hhalf : (t.vr : ℚ) + 1 / 2 ≤ v / 10 ^ t.removed := by linarith
        refine ⟨.inl (by rcases hin with hin | hin <;> omega),h.level.reach hnear hin ?_⟩
        rwa [le_div_iff₀ hpos] at hhalf
    refine ⟨hmem,hfew hmem,fun n _ => ?_⟩
    have hclose := hround.closest n
    rw [distance_scaled,distance_scaled]
    exact mul_le_mul_of_nonneg_right (by exact_mod_cast hclose) hpos.le

theorem Trim.Drops.closed (hd : t.Drops u) (h : t.vp / 10 ≤ t.vm / 10) : u.vp / 10 ≤ u.vm / 10 := by
  obtain ⟨k,rfl⟩ := hd
  induction k generalizing t with
  | zero => exact h
  | succ k ih => exact ih (Nat.div_le_div_right h : t.drop.vp / 10 ≤ t.drop.vm / 10)

structure Ready (a v b : ℚ) (t : Trim) : Prop where
  level : Level a v b t
  tail : Tail v t
  opened : t.vr = t.vm → t.vmIsTrailingZeros = false → t.vm < t.vp

theorem ready_drop (h : Level a v b t) (hopen : t.vm / 10 < t.vp / 10) : Ready a v b t.drop :=
  ⟨h.drop,h.tail,fun _ _ => hopen⟩

theorem trimMax_ready {max : Nat} (h : Level a v b t) (hr : t.vm / 10 < t.vp / 10 ∨ Ready a v b t) (hw : (trimMax max t).2 = false) :
    Ready a v b (trimMax max t).1 ∧ (trimMax max t).1.vp / 10 ≤ (trimMax max t).1.vm / 10 ∧ Within max (trimMax max t).1.vr := by
  fun_induction trimMax max t with
  | case1 t hs hin => exact ⟨hr.resolve_left (by omega),hs,hin⟩
  | case2 => cases hw
  | case3 t hs ih => exact ih h.drop (.inr (ready_drop h (by omega))) hw

theorem stripped_ready (h : Ready a v b t) (hs : t.vp / 10 ≤ t.vm / 10) : Ready a v b t.stripped ∧
    t.stripped.vp / 10 ≤ t.stripped.vm / 10 ∧ (t.stripped.vmIsTrailingZeros = true → t.stripped.vm % 10 ≠ 0) := by
  cases hflag : t.vmIsTrailingZeros with
  | false =>
    rw [stripped_plain hflag]
    exact ⟨h,hs,fun h => by simp [hflag] at h⟩
  | true =>
    fun_induction trimTail t hflag with
    | case1 t hflag hz ih =>
      rw [stripped_tail hflag hz]
      refine ih ⟨h.level.drop,h.level.tail,fun _ hplain => ?_⟩ (Nat.div_le_div_right hs)
      exact absurd (drop_trailing hflag hz) (by simp [hplain])
    | case2 t hflag hz =>
      rw [stripped_end hz]
      exact ⟨h,hs,fun _ => hz⟩

theorem trimMax_cut {max : Nat} (hw : (trimMax max t).2 = true) : ∃ u, t.Drops u ∧ u.vp / 10 ≤ u.vm / 10 ∧
    ¬Within max u.vr ∧ (trimMax max t).1 = u.drop ∧ Within max u.drop.vr := by
  fun_induction trimMax max t with
  | case1 => cases hw
  | case2 t hs hout ih =>
    by_cases hin : (trimMax max t.drop).2 = true
    · obtain ⟨u,hd,hrest⟩ := ih hin
      exact ⟨u,hd.head,hrest⟩
    · have hdrop : t.drop.vp / 10 ≤ t.drop.vm / 10 := Nat.div_le_div_right hs
      have hin' : Within max t.drop.vr := by
        by_contra hno
        exact hin ((trimMax_short hdrop).2.mpr hno)
      refine ⟨t,.refl t,hs,hout,?_,hin'⟩
      rw [(trimMax_short hdrop).1,chop_within hin']
  | case3 t hs ih =>
    obtain ⟨u,hd,hrest⟩ := ih hw
    exact ⟨u,hd.head,hrest⟩

theorem stripped_same (h : t.vmIsTrailingZeros = true) (hsame : t.vr = t.vm) (hlast : t.lastRemovedDigit = 0) :
    t.stripped.lastRemovedDigit = 0 ∧ t.stripped.vr * 10 ^ t.stripped.removed = t.vr * 10 ^ t.removed := by
  fun_induction trimTail t h with
  | case1 t h hz ih =>
    rw [stripped_tail h hz]
    obtain ⟨hdigit,hvalue⟩ := ih (congrArg (· / 10) hsame) (show t.vr % 10 = 0 by rw [hsame,hz])
    refine ⟨hdigit,hvalue.trans ?_⟩
    change t.vr / 10 * 10 ^ (t.removed + 1) = t.vr * 10 ^ t.removed
    rw [pow_succ',← mul_assoc,Nat.div_mul_cancel (Nat.dvd_of_mod_eq_zero (by rw [hsame,hz]))]
  | case2 t h hz =>
    rw [stripped_end hz]
    exact ⟨hlast,rfl⟩

def Significant (max : ℕ) (v x : ℚ) : Prop :=
  ∃ n N : ℕ, 10 ^ (max - 1) ≤ v / 10 ^ n ∧ v / 10 ^ n < 10 ^ max ∧ Nearest (v / 10 ^ n) N ∧ x = N * 10 ^ n

theorem carry_still (h : t.lastRemovedDigit = 0) : t.carry true = false := by
  simp [carry_rounding,Trim.rounding,h]

theorem cut_rounds {max : Nat} (hm : 1 ≤ max) (h : Level a v b t) (hv : v < b) (hnear : v - a ≤ b - v) (hshort : t.vr < 10 ^ 20)
    (hs : t.vp / 10 ≤ t.vm / 10) (hout : ¬Within max t.vr) (hin : Within max t.drop.vr) :
    Significant max v ((t.drop.stripped.output (t.drop.stripped.carry true) : ℚ) * 10 ^ t.drop.stripped.removed) := by
  have hlevel := h.drop
  have hpos : (0 : ℚ) < 10 ^ t.drop.removed := by positivity
  have hlong : 10 ^ max ≤ t.vr := by
    by_contra hlt
    exact hout (.inl ((length_le hshort hm).mpr (not_le.mp hlt)))
  have hhigh : t.drop.vr + 1 ≤ 10 ^ max := by
    rcases hin with hin | ⟨hzero,-⟩
    · exact (length_le ((Nat.div_le_self t.vr 10).trans_lt hshort) hm).mp hin
    · omega
  have hlow : 10 ^ (max - 1) ≤ t.drop.vr := by
    change 10 ^ (max - 1) ≤ t.vr / 10
    rwa [Nat.le_div_iff_mul_le (by decide),← pow_succ,Nat.sub_add_cancel hm]
  obtain ⟨hcell,hcell'⟩ := cell_ten.mp hlevel.vr
  have hhigh' : (t.drop.vr : ℚ) + 1 ≤ 10 ^ max := by exact_mod_cast hhigh
  have hlow' : (10 : ℚ) ^ (max - 1) ≤ t.drop.vr := by exact_mod_cast hlow
  have hstart : (10 : ℚ) ^ (max - 1) ≤ v / 10 ^ t.drop.removed := hlow'.trans ((le_div_iff₀ hpos).mpr hcell)
  have hstop : v / 10 ^ t.drop.removed < 10 ^ max := ((div_lt_iff₀ hpos).mpr hcell').trans_le hhigh'
  by_cases htail : t.drop.vmIsTrailingZeros = true ∧ t.drop.vm % 10 = 0
  · obtain ⟨hflag,hz⟩ := htail
    obtain ⟨haccept,ha⟩ := hlevel.flag.mp hflag
    have hvp : t.drop.vr ≤ t.drop.vp := (hlevel.vp _).mpr (.inl (hlevel.scaled.trans_lt hv))
    have hvm := t.drop.low
    have hclosed : t.drop.vp ≤ t.drop.vm := hs
    have hsame : t.drop.vr = t.drop.vm := by omega
    have hover : b < ((t.drop.vr + 1 : ℕ) : ℚ) * 10 ^ t.drop.removed := by
      by_contra hle
      have hreach := (hlevel.vp (t.drop.vr + 1)).mpr ((not_lt.mp hle).lt_or_eq.imp id fun he => ⟨haccept,he⟩)
      omega
    have hzero : t.drop.drop.lastRemovedDigit = 0 := show t.drop.vr % 10 = 0 by rw [hsame,hz]
    obtain ⟨hdigit,hvalue⟩ := stripped_same (drop_trailing hflag hz) (congrArg (· / 10) hsame) hzero
    rw [stripped_tail hflag hz]
    refine ⟨t.drop.removed,t.drop.vr,hstart,hstop,nearest_of_lt ?_,?_⟩
    · rw [← hsame] at ha
      push_cast at hover
      rw [Int.cast_natCast,abs_lt,lt_sub_iff_add_lt,sub_lt_iff_lt_add,lt_div_iff₀ hpos,div_lt_iff₀ hpos]
      constructor <;> linarith
    · rw [carry_still hdigit,Trim.output,Bool.toNat_false,Nat.add_zero]
      have hten : t.drop.vr = t.drop.drop.vr * 10 := by
        change t.drop.vr = t.drop.vr / 10 * 10
        omega
      have hvalue' : t.drop.drop.stripped.vr * 10 ^ t.drop.drop.stripped.removed = t.drop.vr * 10 ^ t.drop.removed := by
        rw [hvalue,hten,mul_assoc,← pow_succ']
        rfl
      exact_mod_cast hvalue'
  · have hsame : t.drop.stripped = t.drop := by
      cases hflag : t.drop.vmIsTrailingZeros with
      | false => exact stripped_plain hflag
      | true => exact stripped_end fun hz => htail ⟨hflag,hz⟩
    rw [hsame]
    refine ⟨t.drop.removed,_,hstart,hstop,?_,rfl⟩
    have hcarry : t.drop.carry true = decide (5 ≤ t.drop.rounding) := by simp [carry_rounding]
    rw [hcarry]
    exact h.tail.rounds

theorem Scaled.Scales.start {s : Scaled} (h : s.Scales a v b) : Level a v b s.start where
  vm := cell_floor.mpr h.vm
  vr := cell_floor.mpr h.vr
  vp n := by
    change n ≤ s.vp ↔ (n : ℚ) * 10 ^ 0 < b ∨ s.acceptBounds = true ∧ (n : ℚ) * 10 ^ 0 = b
    have hfloor : (n : ℤ) ≤ ⌊b⌋ ↔ (n : ℚ) ≤ b := by
      rw [Int.le_floor]
      norm_num
    have hvp := h.vp
    rw [pow_zero,mul_one]
    by_cases hround : s.acceptBounds = false ∧ (⌊b⌋ : ℚ) = b
    · rw [if_pos hround] at hvp
      have hlt : (n : ℤ) < ⌊b⌋ ↔ (n : ℚ) < b := by
        rw [← hround.2]
        norm_cast
      simp only [hround.1,Bool.false_eq_true,false_and,or_false,← hlt]
      omega
    · rw [if_neg hround] at hvp
      have hle : n ≤ s.vp ↔ (n : ℚ) ≤ b := by
        rw [← hfloor]
        omega
      rw [hle,le_iff_lt_or_eq]
      refine or_congr_right ⟨fun heq => ⟨?_,heq⟩,fun heq => heq.2⟩
      by_contra hno
      exact hround ⟨Bool.eq_false_iff.mpr hno,by rw [← heq,Int.floor_natCast,Int.cast_natCast]⟩
  flag := by
    change s.vmIsTrailingZeros = true ↔ s.acceptBounds = true ∧ (s.vm : ℚ) * 10 ^ 0 = a
    rw [h.vmFlag,h.vm,pow_zero,mul_one,Int.cast_natCast]
  exact := by
    change s.vrIsTrailingZeros = true ∧ (0 : Nat) = 0 ↔ (s.vr : ℚ) * 10 ^ 0 = v
    rw [h.vrFlag,h.vr,pow_zero,mul_one,Int.cast_natCast,and_iff_left rfl]

theorem Scaled.Scales.opens {s : Scaled} (h : s.Scales a v b) (hwide : (⌊v⌋ : ℚ) = v ∨ 10 < b - a) :
    s.vm / 10 < s.vp / 10 ∨ Ready a v b s.start := by
  rcases hwide with hint | hwide
  · right
    have hv : (s.vr : ℚ) = v := by
      rw [← hint,h.vr,Int.cast_natCast]
    refine ⟨h.start,⟨(by decide : 0 < 10),?_,?_⟩,fun hsame _ => ?_⟩
    · change Cell 10 0 (10 * s.vr) (v * 10)
      rw [cell_floor,← hv]
      norm_cast
      rw [Int.floor_natCast,mul_comm]
    · change s.vrIsTrailingZeros = true ↔ ((10 * s.vr : ℕ) : ℚ) * 10 ^ 0 = v * 10
      rw [h.vrFlag,iff_true_left hint,← hv]
      push_cast
      ring
    · have hlow := Int.floor_le a
      have hbelow := h.below
      have hvm : s.vr = s.vm := hsame
      rw [h.vm,Int.cast_natCast,← hvm,hv] at hlow
      exact absurd hlow (not_le.mpr hbelow)
  · left
    have hlow := Int.floor_le a
    have hvp := h.vp
    rw [h.vm,Int.cast_natCast] at hlow
    have hfloor : (s.vm : ℤ) + 10 ≤ ⌊b⌋ := by
      rw [Int.le_floor]
      push_cast
      linarith
    have hstrict : (⌊b⌋ : ℚ) = b → (s.vm : ℤ) + 10 < ⌊b⌋ := fun heq => by
      have hlt : ((s.vm : ℤ) + 10 : ℚ) < ⌊b⌋ := by
        rw [heq]
        push_cast
        linarith
      exact_mod_cast hlt
    split_ifs at hvp with hround
    · have hover := hstrict hround.2
      omega
    · omega

theorem length_digits {m : ℕ} (hpos : 0 < m) (hm : m < 10 ^ 20) : decimalLength17 m = (Nat.digits 10 m).length := by
  refine Nat.le_antisymm ?_ ?_
  · have hdigits : 0 < (Nat.digits 10 m).length := List.length_pos_iff.mpr (Nat.digits_ne_nil_iff_ne_zero.mpr hpos.ne')
    exact (length_le hm hdigits).mpr (Nat.lt_base_pow_length_digits (by decide))
  · exact (Nat.digits_length_le_iff (by decide) m).mpr (lt_pow_length hm)

theorem roundOutput_limit {max w : Nat} {c : Bool} {e10 : Int} (hm : 1 ≤ max) (hw : Within max w) (hshort : w < 10 ^ 19) :
    w + c.toNat < 10 ^ max ∧ roundOutput max (fun _ => max) (w + c.toNat) c e10 = ⟨w + c.toNat,e10,decimalLength17 (w + c.toNat)⟩ ∨
      w + c.toNat = 10 ^ max ∧ roundOutput max (fun _ => max) (w + c.toNat) c e10 = ⟨10 ^ (max - 1),e10 + 1,max⟩ := by
  have hbit := Bool.toNat_le c
  have hfits : w < 10 ^ max := by
    rcases hw with hw | ⟨hzero,-⟩
    · exact (length_le (by omega) hm).mp hw
    · omega
  have hlen : decimalLength17 (w + c.toNat) ≤ max ↔ w + c.toNat < 10 ^ max := length_le (by omega) hm
  by_cases hlt : w + c.toNat < 10 ^ max
  · left
    have hle := hlen.mpr hlt
    refine ⟨hlt,?_⟩
    simp only [roundOutput,not_lt.mpr hle,and_false,if_false,min_eq_left hle]
  · right
    have htop : w + c.toNat = 10 ^ max := by omega
    have hcarry : c = true := by
      cases c with
      | true => rfl
      | false => exact absurd htop (by simp only [Bool.toNat_false]; omega)
    have hten : 10 ^ max = 10 * 10 ^ (max - 1) := by rw [← pow_succ',Nat.sub_add_cancel hm]
    have hmore : decimalLength17 (10 ^ max) = max + 1 := by
      have hup : decimalLength17 (10 ^ max) ≤ max + 1 ↔ 10 ^ max < 10 ^ (max + 1) := length_le (by omega) (by omega)
      have hover : ¬decimalLength17 (10 ^ max) ≤ max := by
        rw [← htop,hlen]
        exact hlt
      have hgrow : 10 ^ max < 10 ^ (max + 1) := Nat.pow_lt_pow_right (by decide) (by omega)
      have hle := hup.mpr hgrow
      omega
    refine ⟨htop,?_⟩
    rw [htop,hcarry]
    have hhalf : (10 ^ max + 5) / 10 = 10 ^ (max - 1) := by omega
    simp [roundOutput,hmore,hhalf]

theorem d2d_limit (s : Scaled) (max : Nat) (decimals : Int) : d2d s max false decimals =
    roundOutput max (fun _ => max) ((s.trimmed max).vr + (s.carries max).toNat) (s.carries max) (s.e10 + (s.trimmed max).removed) := rfl

theorem trimmed_room (s : Scaled) (max : Nat) : (s.trimmed max).vr < 10 ^ 19 := by
  have hroom := s.room
  exact drops_short (s.drops max) (show s.vr < 10 ^ 19 by omega)

theorem drops_accept (hd : t.Drops u) : u.acceptBounds = t.acceptBounds := by
  obtain ⟨k,rfl⟩ := hd
  induction k generalizing t with
  | zero => rfl
  | succ k ih => exact ih

theorem trimmed_shortened {s : Scaled} {max : Nat} (h : s.Scales a v b) (hwide : (⌊v⌋ : ℚ) = v ∨ 10 < b - a)
    (hw : (trimMax max s.start).2 = false) : Shortened a v b max (s.trimmed max) := by
  obtain ⟨hready,hs,hin⟩ := trimMax_ready h.start (h.opens hwide) hw
  obtain ⟨hready',hs',hend⟩ := stripped_ready hready hs
  exact ⟨hready'.level,hready'.tail,hready'.opened,hs',hend,trimMax_within s.start s.short⟩

theorem trimmed_significant {s : Scaled} {max : Nat} (h : s.Scales a v b) (hm : 1 ≤ max) (hw : (trimMax max s.start).2 = true) :
    Significant max v (((s.trimmed max).output (s.carries max) : ℚ) * 10 ^ (s.trimmed max).removed) := by
  obtain ⟨u,hd,hs,hout,hcut,hin⟩ := trimMax_cut hw
  have hroom := s.room
  have hshort := drops_short hd (show s.vr < 10 ^ 19 by omega)
  rw [Scaled.carries,hw,Scaled.trimmed,hcut]
  exact cut_rounds hm (h.start.drops hd) h.above h.near (by omega) hs hout hin

structure Removal (s : Scaled) (max : Nat) (d : FloatingDecimal64) (i : ℕ) : Prop where
  exponent : d.exponent = s.e10 + i
  removed : i = (s.trimmed max).removed ∨ i = (s.trimmed max).removed + 1 ∧ (s.trimmed max).output (s.carries max) = 10 ^ max
  pos : 0 < d.mantissa
  few : d.mantissa < 10 ^ max
  olength : d.olength = (Nat.digits 10 d.mantissa).length

theorem digit_removal {s : Scaled} {max : Nat} (h : s.Scales a v b) (hm : 1 ≤ max) (decimals : Int) :
    ∃ i, Removal s max (d2d s max false decimals) i ∧
      ((trimMax max s.start).2 = true → Significant max v (((d2d s max false decimals).mantissa : ℚ) * 10 ^ i)) ∧
      ((trimMax max s.start).2 = false → (⌊v⌋ : ℚ) = v ∨ 10 < b - a →
        Abbreviates s.acceptBounds a v b (d2d s max false decimals).mantissa i) := by
  have hroom := trimmed_room s max
  have hbit := Bool.toNat_le (s.carries max)
  have hwithin : Within max (s.trimmed max).vr := trimMax_within s.start s.short
  have hpos : 0 < (s.trimmed max).output (s.carries max) := output_pos hm s.short s.pos
  have haccept : (s.trimmed max).acceptBounds = s.acceptBounds := drops_accept (s.drops max)
  rw [d2d_limit]
  rcases roundOutput_limit hm hwithin hroom with ⟨hlt,hout⟩ | ⟨htop,hout⟩
  · rw [hout]
    refine ⟨(s.trimmed max).removed,⟨rfl,.inl rfl,hpos,hlt,length_digits hpos (by omega)⟩,trimmed_significant h hm,?_⟩
    intro hw hwide
    have hshort := (trimmed_shortened h hwide hw).shortest h.above h.near
    rw [haccept] at hshort
    rw [Scaled.carries,hw]
    exact hshort
  · rw [hout]
    have hten : 10 ^ max = 10 * 10 ^ (max - 1) := by rw [← pow_succ',Nat.sub_add_cancel hm]
    have hvalue : ((10 ^ (max - 1) : ℕ) : ℚ) * 10 ^ ((s.trimmed max).removed + 1) =
        ((s.trimmed max).output (s.carries max) : ℚ) * 10 ^ (s.trimmed max).removed := by
      rw [Trim.output,htop,hten]
      push_cast
      ring
    have hlen : max = (Nat.digits 10 (10 ^ (max - 1))).length := by
      refine Nat.le_antisymm ?_ ((Nat.digits_length_le_iff (by decide) _).mpr (Nat.pow_lt_pow_right (by decide) (by omega)))
      have hlt := (Nat.lt_digits_length_iff (b := 10) (k := max - 1) (by decide) (10 ^ (max - 1))).mpr le_rfl
      omega
    refine ⟨(s.trimmed max).removed + 1,⟨?_,.inr ⟨rfl,htop⟩,Nat.pow_pos (by decide),Nat.pow_lt_pow_right (by decide) (by omega),hlen⟩,?_,?_⟩
    · push_cast
      ring
    · intro hw
      rw [hvalue]
      exact trimmed_significant h hm hw
    · intro hw hwide
      have hshort := trimmed_shortened h hwide hw
      have hinside := (hshort.shortest h.above h.near).inside
      have hcarry : (s.trimmed max).carry false = s.carries max := by rw [Scaled.carries,hw]
      rw [hcarry,← hvalue] at hinside
      exact absurd hinside (hshort.gap _)

def narrowScaled : Scaled where
  vr := 6
  vp := 8
  vm := 5
  e10 := 0
  acceptBounds := true
  vmIsTrailingZeros := false
  vrIsTrailingZeros := false
  low := by decide
  bounds := by decide
  pos := by decide
  room := by decide

def wideScaled : Scaled where
  vr := 92
  vp := 110
  vm := 85
  e10 := 0
  acceptBounds := true
  vmIsTrailingZeros := true
  vrIsTrailingZeros := true
  low := by decide
  bounds := by decide
  pos := by decide
  room := by decide

theorem narrow_scales : narrowScaled.Scales (59 / 10) (34 / 5) (41 / 5) where
  below := by norm_num
  above := by norm_num
  near := by norm_num
  vm := by norm_num [narrowScaled]
  vr := by norm_num [narrowScaled]
  vp := by norm_num [narrowScaled]
  vmFlag := by norm_num [narrowScaled]
  vrFlag := by norm_num [narrowScaled]

theorem wide_scales : wideScaled.Scales 85 92 110 where
  below := by norm_num
  above := by norm_num
  near := by norm_num
  vm := by norm_num [wideScaled]
  vr := by norm_num [wideScaled]
  vp := by norm_num [wideScaled]
  vmFlag := by norm_num [wideScaled]
  vrFlag := by norm_num [wideScaled]

theorem digit_removal_hundred : ∃ i, Removal wideScaled 17 (d2d wideScaled 17 false 0) i ∧
    ((trimMax 17 wideScaled.start).2 = true → Significant 17 92 (((d2d wideScaled 17 false 0).mantissa : ℚ) * 10 ^ i)) ∧
    ((trimMax 17 wideScaled.start).2 = false → (⌊(92 : ℚ)⌋ : ℚ) = 92 ∨ (10 : ℚ) < 110 - 85 →
      Abbreviates true 85 92 110 (d2d wideScaled 17 false 0).mantissa i) :=
  digit_removal wide_scales (by decide) 0

theorem narrow_runs : trimMax 17 narrowScaled.start = (narrowScaled.start,false) := by
  rw [trimMax,if_pos (by decide),if_pos (by decide)]

theorem wide_runs : trimMax 17 wideScaled.start = (wideScaled.start.drop.drop,false) := by
  rw [trimMax,if_neg (by decide),trimMax,if_neg (by decide),trimMax,if_pos (by decide),if_pos (by decide)]

theorem narrow_digits : d2d narrowScaled 17 false 0 = ⟨6,0,1⟩ := by
  rw [d2d_limit,Scaled.carries,Scaled.trimmed,narrow_runs,stripped_plain rfl]
  decide

theorem wide_digits : d2d wideScaled 17 false 0 = ⟨1,2,1⟩ := by
  rw [d2d_limit,Scaled.carries,Scaled.trimmed,wide_runs,stripped_plain rfl]
  decide

theorem nearer_missed :
    (narrowScaled.Scales (59 / 10) (34 / 5) (41 / 5) ∧ (trimMax 17 narrowScaled.start).2 = false ∧
      d2d narrowScaled 17 false 0 = ⟨6,0,1⟩ ∧ (7 : ℚ) ∈ accepted true (59 / 10) (41 / 5) ∧
      |(7 : ℚ) - 34 / 5| < |(6 : ℚ) - 34 / 5|) ∧
    (wideScaled.Scales 85 92 110 ∧ (trimMax 17 wideScaled.start).2 = false ∧ d2d wideScaled 17 false 0 = ⟨1,2,1⟩ ∧
      (9 : ℚ) * 10 ^ 1 ∈ accepted true 85 110 ∧ |(9 : ℚ) * 10 ^ 1 - 92| < |(1 : ℚ) * 10 ^ 2 - 92|) := by
  refine ⟨⟨narrow_scales,by rw [narrow_runs],narrow_digits,?_,?_⟩,wide_scales,by rw [wide_runs],wide_digits,?_,?_⟩
  · norm_num [accepted]
  · norm_num [abs_lt]
  · norm_num [accepted]
  · norm_num [abs_lt]

end

end Printf
