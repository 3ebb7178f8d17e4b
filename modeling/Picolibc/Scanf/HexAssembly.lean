import Mathlib
import Picolibc.Lib.WhileLoop
import Picolibc.Lib.BinaryFormat

open WhileLoop BinaryFormat HalfEven

namespace Scanf

structure FltKind where
  mantDig : Nat
  maxExp : Int
  minExp : Int
  uintBits : Nat
  deriving DecidableEq, Repr

def double : FltKind := ⟨53,1024,-1021,64⟩

def float : FltKind := ⟨24,128,-125,32⟩

structure Target where
  sigBits : Nat
  minExp : Int
  deriving DecidableEq, Repr

def FltKind.target (k : FltKind) : Target := ⟨k.mantDig,k.minExp - 1⟩

namespace Hex

variable (k : FltKind) (t : Target)

def enlarge (fuel : Nat) : Nat × Int → Option (Nat × Int) :=
  whileLoop (fun s => s.1 < 2 ^ (t.sigBits + 2 - 1)) (fun s => (s.1 * 2 % 2 ^ k.uintBits,s.2 - 1)) fuel

def squash (fuel : Nat) : Nat × Int → Option (Nat × Int) :=
  whileLoop (fun s => 2 ^ (t.sigBits + 2) ≤ s.1 || s.2 < t.minExp) (fun s => (shiftOut s.1,s.2 + 1)) fuel

def roundEven (uint : Nat) (exp : Int) : Nat × Int :=
  if roundsUp uint then
    let uint := (uint + 4) % 2 ^ k.uintBits
    if 2 ^ (k.mantDig + 2) ≤ uint then (uint / 2,exp + 1) else (uint,exp)
  else (uint,exp)

def align (uint : Nat) : Nat := uint / 4 * 2 ^ (k.mantDig - t.sigBits) % 2 ^ k.uintBits

def renormalize (fuel : Nat) (s : Nat × Int) : Option (Nat × Int) :=
  if t.minExp ≠ k.minExp - 1 then
    whileLoop (fun s => s.1 < 2 ^ (k.mantDig - 1) && k.minExp < s.2) (fun s => (s.1 * 2 % 2 ^ k.uintBits,s.2 - 1)) fuel s
  else some s

def infinity : Nat := (2 * k.maxExp - 1).toNat * 2 ^ (k.mantDig - 1)

def encode (uint : Nat) (exp : Int) : Nat :=
  if k.maxExp ≤ exp then infinity k else
  if uint < 2 ^ (k.mantDig - 1) then uint else
  (uint - (uint &&& 2 ^ (k.mantDig - 1))) ||| (exp + (k.maxExp - 1)).toNat * 2 ^ (k.mantDig - 1) % 2 ^ k.uintBits

def assemble (fuel : Nat) (uint : Nat) (exp : Int) (overflow : Nat) : Option Nat :=
  (enlarge k t fuel (uint,exp + (t.sigBits + 2 - 1))).bind fun s =>
    (squash t fuel s).bind fun s =>
      let r := roundEven k (s.1 ||| overflow) s.2
      (renormalize k t fuel (align k t r.1,r.2)).map fun s => encode k s.1 s.2

end Hex

def strtodHex : Nat → Nat → Int → Nat → Option Nat := Hex.assemble double double.target

def strtofHex : Nat → Nat → Int → Nat → Option Nat := Hex.assemble float float.target

structure Fits (k : FltKind) (f : Format) : Prop where
  prec : k.mantDig = f.prec
  maxExp : k.maxExp = f.emax + 1
  minExp : k.minExp = f.emin + 1
  room : f.prec + 6 ≤ k.uintBits
  wide : f.inf < 2 ^ k.uintBits

namespace Fits

variable {k : FltKind} {f : Format}

theorem eight_hidden (f : Format) : 2 ^ (f.prec + 2) = 8 * f.hidden := by
  rw [pow_add,← f.two_hidden]
  ring

theorem four_hidden (f : Format) : 2 ^ (f.prec + 2 - 1) = 4 * f.hidden := by
  rw [show f.prec + 2 - 1 = f.prec + 1 from rfl,pow_succ,← f.two_hidden]
  ring

theorem full_accumulator (h : Fits k f) : 8 * f.hidden ≤ 2 ^ (k.uintBits - 4) := by
  have hroom := h.room
  rw [← eight_hidden]
  exact Nat.pow_le_pow_right two_pos (by omega)

theorem capacity (h : Fits k f) : 128 * f.hidden ≤ 2 ^ k.uintBits := by
  have hroom := h.room
  calc 128 * f.hidden = 8 * f.hidden * 2 ^ 4 := by ring
    _ ≤ 2 ^ (k.uintBits - 4) * 2 ^ 4 := Nat.mul_le_mul_right _ h.full_accumulator
    _ = 2 ^ k.uintBits := by
      rw [← pow_add]
      congr 1
      omega

theorem target_sig (h : Fits k f) : k.target.sigBits = f.prec := h.prec

theorem target_min (h : Fits k f) : k.target.minExp = f.emin := by
  rw [FltKind.target,h.minExp]
  ring

end Fits

namespace Hex

variable {k : FltKind} {f : Format}

theorem enlarge_spec (h : Fits k f) {w : FltKind} (hcap : 128 * f.hidden ≤ 2 ^ w.uintBits) {u : Nat} (e : ℤ) (hpos : 0 < u) :
    ∃ s : Nat × ℤ, 4 * f.hidden ≤ s.1 ∧ (s.1 : ℚ) * 2 ^ s.2 = u * 2 ^ e ∧ (4 * f.hidden ≤ u → s = (u,e)) ∧
      ∃ n, ∀ fuel, n ≤ fuel → enlarge w k.target fuel (u,e) = some s := by
  have hfour := Fits.four_hidden f
  by_cases hbig : 4 * f.hidden ≤ u
  · refine ⟨(u,e),hbig,rfl,fun _ => rfl,0,fun fuel _ => ?_⟩
    unfold enlarge
    refine loop_skips _ ?_ fuel
    rw [h.target_sig,hfour]
    exact decide_eq_false (not_lt.mpr hbig)
  · let inv : Nat × ℤ → Prop := fun s => 0 < s.1 ∧ (s.1 : ℚ) * 2 ^ s.2 = u * 2 ^ e
    let variant : Nat × ℤ → Nat := fun s => 4 * f.hidden - s.1
    have step : ∀ s, inv s → decide (s.1 < 2 ^ (k.target.sigBits + 2 - 1)) = true →
        inv (s.1 * 2 % 2 ^ w.uintBits,s.2 - 1) ∧ variant (s.1 * 2 % 2 ^ w.uintBits,s.2 - 1) < variant s := by
      rintro ⟨v,g⟩ ⟨hv,hvalue⟩ hcond
      rw [h.target_sig,hfour,decide_eq_true_eq] at hcond
      have hfit : v * 2 % 2 ^ w.uintBits = v * 2 := Nat.mod_eq_of_lt (by omega)
      refine ⟨⟨?_,?_⟩,?_⟩
      · show 0 < v * 2 % 2 ^ w.uintBits
        omega
      · rw [← hvalue,hfit,zpow_sub_one₀ two_ne_zero]
        push_cast
        field_simp
      · show 4 * f.hidden - v * 2 % 2 ^ w.uintBits < 4 * f.hidden - v
        omega
    obtain ⟨s,⟨-,hvalue⟩,hexit,hrun⟩ := loop_exits step (s := (u,e)) ⟨hpos,rfl⟩
    rw [h.target_sig,hfour,decide_eq_false_iff_not,not_lt] at hexit
    exact ⟨s,hexit,hvalue,fun hle => absurd hle hbig,_,hrun⟩

theorem shiftOut_bounds (y : Nat) : y / 2 ≤ shiftOut y ∧ shiftOut y ≤ y ∧ (2 ≤ y → shiftOut y < y) := by
  rw [shiftOut_eq]
  split_ifs <;> omega

theorem squash_spec (h : Fits k f) {u : Nat} (e : ℤ) (hbig : 4 * f.hidden ≤ u) :
    ∃ (y : Nat) (j : ℕ), Sticky y (u / 2 ^ j) ∧ f.emin ≤ e + j ∧ y < 8 * f.hidden ∧
      (4 * f.hidden ≤ y ∨ e + j = f.emin) ∧
      ∃ n, ∀ fuel, n ≤ fuel → squash k.target fuel (u,e) = some (y,e + j) := by
  have height := Fits.eight_hidden f
  have hpos := f.hidden_pos
  let inv : Nat × ℤ → Prop := fun s =>
    ∃ j : ℕ, s.2 = e + j ∧ Sticky s.1 (u / 2 ^ j) ∧ (4 * f.hidden ≤ s.1 ∨ s.2 ≤ f.emin)
  let variant : Nat × ℤ → Nat := fun s => s.1 + (f.emin - s.2).toNat
  have step : ∀ s, inv s → (decide (2 ^ (k.target.sigBits + 2) ≤ s.1) || decide (s.2 < k.target.minExp)) = true →
      inv (shiftOut s.1,s.2 + 1) ∧ variant (shiftOut s.1,s.2 + 1) < variant s := by
    rintro ⟨y,g⟩ ⟨j,hg,hsticky,hlow⟩ hcond
    rw [h.target_sig,h.target_min,height,Bool.or_eq_true,decide_eq_true_eq,decide_eq_true_eq] at hcond
    have hshift := shiftOut_bounds y
    dsimp only at hg hsticky hlow hcond
    refine ⟨⟨j + 1,?_,?_,?_⟩,?_⟩
    · dsimp only
      push_cast
      omega
    · rw [pow_succ,← div_div]
      exact sticky_shift hsticky
    · dsimp only
      omega
    · show shiftOut y + (f.emin - (g + 1)).toNat < y + (f.emin - g).toNat
      omega
  obtain ⟨⟨y,g⟩,⟨j,hg,hsticky,hlow⟩,hexit,hrun⟩ :=
    loop_exits step (s := (u,e)) ⟨0,by simp,by simpa using sticky_self u,.inl hbig⟩
  rw [h.target_sig,h.target_min,height,Bool.or_eq_false_iff,decide_eq_false_iff_not,decide_eq_false_iff_not] at hexit
  dsimp only at hg hlow hexit
  subst hg
  exact ⟨y,j,hsticky,by omega,by omega,by omega,_,hrun⟩

theorem encode_pack (h : Fits k f) {n : Nat} (e : ℤ) (hn : n < 2 * f.hidden) :
    encode k n e = if f.emax + 1 ≤ e then f.inf else f.pack e n := by
  have hhidden : 2 ^ (k.mantDig - 1) = f.hidden := by rw [h.prec,Format.hidden]
  unfold encode infinity
  rw [hhidden,h.maxExp]
  split_ifs with hbig hlow
  · rw [Format.inf]
    congr 1
    omega
  · rw [Format.pack,if_pos hlow]
  · have hinf := h.wide
    have hfield : (e + f.emax).toNat * f.hidden ≤ f.inf := Nat.mul_le_mul_right _ (by omega)
    have hdrop : n &&& f.hidden = f.hidden := by
      have hbit : n.testBit (f.prec - 1) = true := by
        refine Nat.testBit_of_two_pow_le_and_two_pow_add_one_gt ?_ ?_
        · rwa [← Format.hidden,← not_lt]
        · rwa [pow_succ',← Format.hidden]
      rw [Format.hidden,Nat.and_two_pow,hbit,Bool.toNat_true,Nat.one_mul]
    rw [Format.pack,if_neg hlow,hdrop,add_sub_cancel_right,Nat.mod_eq_of_lt (by omega),Nat.or_comm]
    rw [Format.hidden,← Nat.shiftLeft_eq,← Nat.shiftLeft_add_eq_or_of_lt]
    rw [← Format.hidden]
    omega

theorem renormalize_native (k : FltKind) (fuel : Nat) (s : Nat × ℤ) : renormalize k k.target fuel s = some s :=
  if_neg (not_not.mpr rfl)

theorem roundEven_spec (h : Fits k f) {y : Nat} (e : ℤ) (hy : y < 8 * f.hidden) :
    (align k k.target (roundEven k y e).1,(roundEven k y e).2) =
      if unguarded y < 2 * f.hidden then (unguarded y,e) else (f.hidden,e + 1) := by
  have hcap := h.capacity
  have hpos := f.hidden_pos
  have height := Fits.eight_hidden f
  have halign : ∀ v ≤ 2 ^ k.uintBits, align k k.target v = v / 4 := by
    intro v hv
    rw [align,h.target_sig,h.prec,Nat.sub_self,pow_zero,Nat.mul_one]
    exact Nat.mod_eq_of_lt (by omega)
  unfold roundEven unguarded
  by_cases hup : roundsUp y
  · have hlow := (roundsUp_iff y).mp hup
    have hroom : (y + 4) % 2 ^ k.uintBits = y + 4 := Nat.mod_eq_of_lt (by omega)
    rw [if_pos hup,if_pos hup,h.prec,height,hroom]
    by_cases hcarry : 8 * f.hidden ≤ y + 4
    · have hhalf : (y + 4) / 2 / 4 = f.hidden := by omega
      rw [if_pos hcarry,halign _ (by omega),if_neg (by omega),hhalf]
    · rw [if_neg hcarry,halign _ (by omega),if_pos (by omega)]
  · rw [if_neg hup,if_neg hup,halign _ (by omega),if_pos (by omega)]

theorem packed_delivers (h : Fits k f) {y : Nat} {e : ℤ} (he : f.emin ≤ e) (hy : y < 8 * f.hidden)
    (hlow : 4 * f.hidden ≤ y ∨ e = f.emin) :
    f.Delivers (unguarded y * f.ulp e) (encode k (align k k.target (roundEven k y e).1) (roundEven k y e).2) := by
  have hpos := f.hidden_pos
  have hround := roundEven_spec h e hy
  obtain ⟨hsig,hexp⟩ := Prod.ext_iff.mp hround
  dsimp only at hsig hexp
  rw [hsig,hexp]
  by_cases hfit : unguarded y < 2 * f.hidden
  · rw [if_pos hfit,encode_pack h e hfit]
    refine Format.delivers_pack he hfit fun hsub => hlow.resolve_left fun hnorm => ?_
    rw [unguarded] at hsub
    split_ifs at hsub <;> omega
  · have hcarry : unguarded y = 2 * f.hidden := by
      have hup := roundsUp_iff y
      rw [unguarded] at hfit ⊢
      split_ifs at hfit ⊢ <;> omega
    rw [if_neg hfit,hcarry,encode_pack h (e + 1) (by omega)]
    exact Format.delivers_carry he

theorem scaled_value {v x : ℚ} {e exp : ℤ} {j : ℕ} (h : x * 2 ^ e = v * 2 ^ (exp + (f.prec + 2 - 1))) :
    4 * (v * 2 ^ exp / f.ulp (e + j)) = x / 2 ^ j := by
  have hhidden : (f.hidden : ℚ) ≠ 0 := by exact_mod_cast f.hidden_pos.ne'
  have hlead : (2 : ℚ) ^ (exp + (f.prec + 2 - 1)) = 2 ^ exp * (4 * f.hidden) := by
    have hnat : (4 * f.hidden : ℚ) = 2 ^ (f.prec + 1) := by exact_mod_cast (Fits.four_hidden f).symm
    rw [hnat,← zpow_natCast,← zpow_add₀ two_ne_zero]
    congr 1
    push_cast
    ring
  have hulp : f.hidden * f.ulp (e + j) = 2 ^ e * 2 ^ j := by
    rw [f.hidden_ulp,zpow_add₀ two_ne_zero,zpow_natCast]
  have hpow : (2 : ℚ) ^ e ≠ 0 := zpow_ne_zero _ two_ne_zero
  rw [hlead] at h
  calc 4 * (v * 2 ^ exp / f.ulp (e + j)) = v * (2 ^ exp * (4 * f.hidden)) / (f.hidden * f.ulp (e + j)) := by
        field_simp
    _ = x * 2 ^ e / (2 ^ e * 2 ^ j) := by rw [← h,hulp]
    _ = x / 2 ^ j := by rw [mul_comm x,mul_div_mul_left _ _ hpow]

theorem assemble_reduces (h : Fits k f) {w : FltKind} (hcap : 128 * f.hidden ≤ 2 ^ w.uintBits) {uint : Nat} (exp : ℤ)
    (hpos : 0 < uint) {sticky : Bool} {t : ℚ} (hset : sticky = true → 2 ^ (k.uintBits - 4) ≤ uint ∧ 0 < t ∧ t < 1)
    (hclear : sticky = false → t = 0) :
    ∃ y e n, f.emin ≤ e ∧ y < 8 * f.hidden ∧ (4 * f.hidden ≤ y ∨ e = f.emin) ∧
      Sticky y (4 * ((uint + t) * 2 ^ exp / f.ulp e)) ∧ ∀ fuel, n ≤ fuel →
        assemble w k.target fuel uint exp sticky.toNat =
          (renormalize w k.target fuel (align w k.target (roundEven w y e).1,(roundEven w y e).2)).map
            fun s => encode w s.1 s.2 := by
  have hhidden := f.hidden_pos
  have hfull := h.full_accumulator
  obtain ⟨⟨u,e⟩,hbig,hvalue,hkept,n₁,hgrow⟩ := enlarge_spec h hcap (exp + (f.prec + 2 - 1)) hpos
  obtain ⟨y,j,hsticky,hrange,hhigh,hlow,n₂,hshrink⟩ := squash_spec h e hbig
  have hmixed : Sticky (y ||| sticky.toNat) ((u + t) / 2 ^ j) := by
    cases sticky with
    | false =>
      rw [hclear rfl,add_zero,Bool.toNat_false,Nat.or_zero]
      exact hsticky
    | true => exact sticky_or hsticky (hset rfl).2.1 (hset rfl).2.2
  have hbounds : y ≤ y ||| sticky.toNat ∧ y ||| sticky.toNat < 8 * f.hidden := by
    cases sticky with
    | false =>
      rw [Bool.toNat_false,Nat.or_zero]
      exact ⟨le_rfl,hhigh⟩
    | true =>
      rw [Bool.toNat_true,or_one]
      split_ifs <;> omega
  have hexact : (u + t : ℚ) * 2 ^ e = (uint + t) * 2 ^ (exp + (f.prec + 2 - 1)) := by
    cases sticky with
    | false =>
      rw [hclear rfl,add_zero,add_zero]
      exact hvalue
    | true =>
      obtain ⟨rfl,rfl⟩ := Prod.mk.inj (hkept (hfull.trans' (by omega) |>.trans (hset rfl).1))
      rfl
  have hscaled : 4 * ((uint + t) * 2 ^ exp / f.ulp (e + j)) = (u + t) / 2 ^ j := scaled_value hexact
  refine ⟨y ||| sticky.toNat,e + j,max n₁ n₂,hrange,hbounds.2,by omega,by rwa [hscaled],fun fuel hfuel => ?_⟩
  rw [assemble,h.target_sig,hgrow fuel (le_of_max_le_left hfuel),Option.bind_some,hshrink fuel (le_of_max_le_right hfuel),
    Option.bind_some]

theorem assemble_rounds (h : Fits k f) {uint : Nat} (exp : ℤ) (hpos : 0 < uint) {sticky : Bool} {t : ℚ}
    (hset : sticky = true → 2 ^ (k.uintBits - 4) ≤ uint ∧ 0 < t ∧ t < 1) (hclear : sticky = false → t = 0) :
    ∃ b n, (∀ fuel, n ≤ fuel → assemble k k.target fuel uint exp sticky.toNat = some b) ∧
      f.Rounds ((uint + t) * 2 ^ exp) b := by
  obtain ⟨y,e,n,hrange,hhigh,hlow,hsticky,hrun⟩ := assemble_reduces h h.capacity exp hpos hset hclear
  refine ⟨encode k (align k k.target (roundEven k y e).1) (roundEven k y e).2,n,fun fuel hfuel => ?_,e,unguarded y,?_,?_,?_⟩
  · rw [hrun fuel hfuel,renormalize_native,Option.map_some]
  · exact Format.binade_of hrange hsticky hlow hhigh
  · exact unguarded_nearest hsticky
  · exact packed_delivers h hrange hhigh hlow

end Hex

def binary64 : Format := ⟨53,1023,Nat.one_lt_succ_succ 51,Nat.succ_pos 1022⟩

def binary32 : Format := ⟨24,127,Nat.one_lt_succ_succ 22,Nat.succ_pos 126⟩

theorem double_fits : Fits double binary64 := by
  refine ⟨rfl,rfl,rfl,?_,?_⟩
  · decide
  · norm_num [Format.inf,Format.hidden,binary64,double]

theorem float_fits : Fits float binary32 := by
  refine ⟨rfl,rfl,rfl,?_,?_⟩
  · decide
  · norm_num [Format.inf,Format.hidden,binary32,float]

theorem hex_assembly_rounds (uint : Nat) (hpos : 0 < uint) (exp : ℤ) (_hexp : |exp| < 2 ^ 30) (sticky : Bool) (t : ℚ)
    (hpart : sticky = true → 0 < t ∧ t < 1) (hclear : sticky = false → t = 0) :
    (uint < 2 ^ 64 → (sticky = true → 2 ^ 60 ≤ uint) → ∃ b n,
      (∀ fuel, n ≤ fuel → strtodHex fuel uint exp sticky.toNat = some b) ∧ binary64.Rounds ((uint + t) * 2 ^ exp) b) ∧
    (uint < 2 ^ 32 → (sticky = true → 2 ^ 28 ≤ uint) → ∃ b n,
      (∀ fuel, n ≤ fuel → strtofHex fuel uint exp sticky.toNat = some b) ∧ binary32.Rounds ((uint + t) * 2 ^ exp) b) :=
  ⟨fun _ hfull => Hex.assemble_rounds double_fits exp hpos (fun h => ⟨hfull h,hpart h⟩) hclear,
    fun _ hfull => Hex.assemble_rounds float_fits exp hpos (fun h => ⟨hfull h,hpart h⟩) hclear⟩

theorem hex_assembly_carries :
    (∃ b n, (∀ fuel, n ≤ fuel → strtodHex fuel (2 ^ 54 - 1) (-54) 0 = some b) ∧
      binary64.Rounds (((2 ^ 54 - 1 : ℕ) + 0) * 2 ^ (-54 : ℤ)) b) ∧
    (∃ b n, (∀ fuel, n ≤ fuel → strtofHex fuel (2 ^ 32 - 1) (-160) 1 = some b) ∧
      binary32.Rounds (((2 ^ 32 - 1 : ℕ) + 1 / 2) * 2 ^ (-160 : ℤ)) b) := by
  constructor
  · exact (hex_assembly_rounds (2 ^ 54 - 1) (by decide) (-54) (by decide) false 0 Bool.noConfusion fun _ => rfl).1
      (by decide) Bool.noConfusion
  · exact (hex_assembly_rounds (2 ^ 32 - 1) (by decide) (-160) (by decide) true (1 / 2) (fun _ => by norm_num)
      Bool.noConfusion).2 (by decide) fun _ => by decide

end Scanf
