import Mathlib
import Picolibc.Lib.BinaryRounding
import Picolibc.Scanf.HexAssembly

open WhileLoop BinaryFormat HalfEven

namespace Scanf

def toFloat (b : Nat) : Nat := if binary64.inf ≤ b then binary32.inf else binary32.round (binary64.value b)

def scanfHex (fuel uint : Nat) (exp : ℤ) (overflow : Nat) : Option Nat :=
  (Hex.assemble double float.target fuel uint exp overflow).map toFloat

def carried (e : ℤ) : ℚ := 2 ^ ((((e + 1023).toNat ||| 2 : ℕ) : ℤ) - 1023)

theorem hidden32 : binary32.hidden = 2 ^ 23 := rfl

theorem hidden64 : binary64.hidden = 2 ^ 52 := rfl

theorem overflow32 : binary32.overflow ≤ 2 ^ (128 : ℤ) := by
  norm_num [Format.overflow,Format.ulp,Format.hidden,binary32]

theorem toFloat_rounds {m : ℚ} (hm : 0 ≤ m) {d : Nat} (h : binary64.Delivers m d) : binary32.Rounds m (toFloat d) := by
  have hround := @Format.round_rounds binary32 _ hm
  unfold toFloat
  by_cases hinf : d = binary64.inf
  · have hbig := (Format.delivers_inf h).mp hinf
    rw [← zpow_natCast] at hbig
    have hover : binary32.overflow ≤ m := overflow32.trans ((zpow_le_zpow_right₀ one_le_two (by decide)).trans hbig)
    rwa [if_pos hinf.ge,← (Format.rounds_inf hround).mpr hover]
  · unfold Format.Delivers at h
    split_ifs at h with hbig
    · exact absurd h hinf
    · rwa [if_neg (not_le.mpr h.1),h.2]

namespace Hex

theorem roundEven_wide {y : Nat} (e : ℤ) (hy : y < 8 * binary32.hidden) :
    (align double float.target (roundEven double y e).1,(roundEven double y e).2) = (unguarded y * 2 ^ 29,e) := by
  rw [hidden32] at hy
  have halign : ∀ v ≤ 2 ^ 26 + 4, align double float.target v = v / 4 * 2 ^ 29 := by
    intro v hv
    show v / 4 * 2 ^ 29 % 2 ^ 64 = v / 4 * 2 ^ 29
    omega
  unfold roundEven unguarded
  by_cases hup : roundsUp y
  · have hroom : (y + 4) % 2 ^ double.uintBits = y + 4 := by
      show (y + 4) % 2 ^ 64 = y + 4
      omega
    have hsmall : ¬2 ^ (double.mantDig + 2) ≤ y + 4 := by
      show ¬2 ^ 55 ≤ y + 4
      omega
    rw [if_pos hup,if_pos hup]
    dsimp only
    rw [hroom,if_neg hsmall,halign _ (by omega)]
  · rw [if_neg hup,if_neg hup,halign _ (by omega)]

theorem low_value {n : Nat} {e : ℤ} (hpos : 0 < n) (he : -126 ≤ e) : (2 : ℚ) ^ (-97 : ℤ) ≤ (n * 2 ^ 29 : ℕ) * 2 ^ e := by
  have hone : (1 : ℚ) ≤ n := by exact_mod_cast hpos
  have hpow : (2 : ℚ) ^ (-126 : ℤ) ≤ 2 ^ e := zpow_le_zpow_right₀ one_le_two he
  calc (2 : ℚ) ^ (-97 : ℤ) = 1 * 2 ^ 29 * 2 ^ (-126 : ℤ) := by norm_num
    _ ≤ n * 2 ^ 29 * 2 ^ e := by gcongr
    _ = (n * 2 ^ 29 : ℕ) * 2 ^ e := by push_cast; rfl

theorem renormalize_wide {n : Nat} {e : ℤ} (hpos : 0 < n) (hn : n < 2 ^ 24) (he : -126 ≤ e) :
    ∃ s : Nat × ℤ, 2 ^ 52 ≤ s.1 ∧ s.1 < 2 ^ 53 ∧ -1022 ≤ s.2 ∧ (s.1 : ℚ) * 2 ^ s.2 = (n * 2 ^ 29 : ℕ) * 2 ^ e ∧
      ∃ N, ∀ fuel, N ≤ fuel → renormalize double float.target fuel (n * 2 ^ 29,e) = some s := by
  let inv : Nat × ℤ → Prop := fun s => 0 < s.1 ∧ s.1 < 2 ^ 53 ∧ (s.1 : ℚ) * 2 ^ s.2 = (n * 2 ^ 29 : ℕ) * 2 ^ e
  let variant : Nat × ℤ → Nat := fun s => 2 ^ 52 - s.1
  have step : ∀ s, inv s → (decide (s.1 < 2 ^ (double.mantDig - 1)) && decide (double.minExp < s.2)) = true →
      inv (s.1 * 2 % 2 ^ double.uintBits,s.2 - 1) ∧ variant (s.1 * 2 % 2 ^ double.uintBits,s.2 - 1) < variant s := by
    rintro ⟨v,g⟩ ⟨hv,hhigh,hvalue⟩ hcond
    obtain ⟨hsmall,-⟩ := Bool.and_eq_true_iff.mp hcond
    have hlow : v < 2 ^ 52 := of_decide_eq_true hsmall
    have hfit : v * 2 % 2 ^ double.uintBits = v * 2 := Nat.mod_eq_of_lt (show v * 2 < 2 ^ 64 by omega)
    rw [hfit]
    refine ⟨⟨?_,?_,?_⟩,?_⟩
    · show 0 < v * 2
      omega
    · show v * 2 < 2 ^ 53
      omega
    · rw [← hvalue,zpow_sub_one₀ two_ne_zero]
      push_cast
      field_simp
    · show 2 ^ 52 - v * 2 < 2 ^ 52 - v
      omega
  obtain ⟨⟨v,g⟩,⟨hv,hhigh,hvalue⟩,hexit,hrun⟩ := loop_exits step (s := (n * 2 ^ 29,e)) ⟨by positivity,by omega,rfl⟩
  dsimp only at hv hhigh hvalue
  have hrange : -150 < g := by
    have hlow := low_value hpos he
    have hbound : (v : ℚ) ≤ 2 ^ (53 : ℤ) := by exact_mod_cast hhigh.le
    have hprod : (2 : ℚ) ^ (-97 : ℤ) ≤ 2 ^ (53 + g) := by
      calc (2 : ℚ) ^ (-97 : ℤ) ≤ v * 2 ^ g := hvalue ▸ hlow
        _ ≤ 2 ^ (53 : ℤ) * 2 ^ g := by gcongr
        _ = 2 ^ (53 + g) := (zpow_add₀ two_ne_zero _ _).symm
    have hle := (zpow_le_zpow_iff_right₀ (one_lt_two : (1 : ℚ) < 2)).mp hprod
    by_contra hfar
    have hlt : (v : ℚ) * 2 ^ g < 2 ^ (53 : ℤ) * 2 ^ g := by
      gcongr
      exact_mod_cast hhigh
    rw [hvalue,← zpow_add₀ two_ne_zero] at hlt
    have hstrict := (zpow_lt_zpow_iff_right₀ (one_lt_two : (1 : ℚ) < 2)).mp (hlow.trans_lt hlt)
    omega
  have hnorm : 2 ^ 52 ≤ v := by
    have hdeep : double.minExp < g := show (-1021 : ℤ) < g by omega
    rw [decide_eq_true hdeep,Bool.and_true] at hexit
    exact not_lt.mp (of_decide_eq_false hexit)
  refine ⟨(v,g),hnorm,hhigh,by omega,hvalue,variant (n * 2 ^ 29,e),fun fuel hfuel => ?_⟩
  rw [renormalize,if_pos (by decide)]
  exact hrun fuel hfuel

theorem renormalize_zero {e : ℤ} (he : e < 0) : ∃ N, ∀ fuel, N ≤ fuel →
    (renormalize double float.target fuel (0,e)).map (fun s => encode double s.1 s.2) = some 0 := by
  let inv : Nat × ℤ → Prop := fun s => s.1 = 0 ∧ s.2 < 0
  let variant : Nat × ℤ → Nat := fun s => (s.2 - double.minExp).toNat
  have step : ∀ s, inv s → (decide (s.1 < 2 ^ (double.mantDig - 1)) && decide (double.minExp < s.2)) = true →
      inv (s.1 * 2 % 2 ^ double.uintBits,s.2 - 1) ∧ variant (s.1 * 2 % 2 ^ double.uintBits,s.2 - 1) < variant s := by
    rintro ⟨v,g⟩ ⟨hv,hg⟩ hcond
    obtain ⟨-,hdeep⟩ := Bool.and_eq_true_iff.mp hcond
    have hlow := of_decide_eq_true hdeep
    dsimp only at hv hg hlow
    subst hv
    refine ⟨⟨by rw [Nat.zero_mul,Nat.zero_mod],?_⟩,?_⟩
    · show g - 1 < 0
      omega
    · show (g - 1 - double.minExp).toNat < (g - double.minExp).toNat
      omega
  obtain ⟨⟨v,g⟩,⟨hv,hg⟩,-,hrun⟩ := loop_exits step (s := (0,e)) ⟨rfl,he⟩
  dsimp only at hv hg
  subst hv
  refine ⟨variant (0,e),fun fuel hfuel => ?_⟩
  rw [renormalize,if_pos (by decide),hrun fuel hfuel,Option.map_some,encode,
    if_neg (not_le.mpr (hg.trans (show (0 : ℤ) < double.maxExp by decide))),if_pos (Nat.two_pow_pos _)]

theorem narrow_exact {n : Nat} {e : ℤ} (hn : n < 2 * binary32.hidden) (he : binary32.emin ≤ e)
    (hsub : n < binary32.hidden → e = binary32.emin) :
    ∃ d N, (∀ fuel, N ≤ fuel →
      (renormalize double float.target fuel (n * 2 ^ 29,e)).map (fun s => encode double s.1 s.2) = some d) ∧
        binary64.Delivers (n * binary32.ulp e) d := by
  rw [hidden32] at hn
  replace he : -126 ≤ e := he
  rcases Nat.eq_zero_or_pos n with rfl | hpos
  · have hmin : e = -126 := hsub (Nat.two_pow_pos _)
    obtain ⟨N,hrun⟩ := @renormalize_zero e (by omega)
    refine ⟨0,N,fun fuel hfuel => by rw [Nat.zero_mul]; exact hrun fuel hfuel,?_⟩
    rw [Nat.cast_zero,zero_mul,Format.Delivers,if_neg (not_le.mpr (by positivity))]
    exact ⟨Nat.mul_pos (Nat.succ_pos _) binary64.hidden_pos,Format.value_zero⟩
  · obtain ⟨⟨v,g⟩,hlow,hhigh,hg,hvalue,N,hrun⟩ := renormalize_wide hpos (by omega) he
    dsimp only at hlow hhigh hg hvalue
    have hfit : v < 2 * binary64.hidden := hhigh
    have hdel := @Format.delivers_pack binary64 g hg v hfit fun hlt => absurd hlow (not_le.mpr hlt)
    have hsame : (n : ℚ) * binary32.ulp e = v * binary64.ulp g := by
      have hnarrow : binary32.ulp e = 2 ^ 29 * 2 ^ e * 2 ^ (-52 : ℤ) := by
        rw [Format.ulp,← zpow_natCast,← zpow_add₀ two_ne_zero,← zpow_add₀ two_ne_zero]
        congr 1
        show e - 23 = (29 : ℤ) + e + -52
        omega
      have hwide : binary64.ulp g = 2 ^ g * 2 ^ (-52 : ℤ) := by
        rw [Format.ulp,← zpow_add₀ two_ne_zero]
        rfl
      rw [hnarrow,hwide,← mul_assoc (v : ℚ),hvalue]
      push_cast
      ring
    refine ⟨_,N,fun fuel hfuel => ?_,hsame ▸ hdel⟩
    rw [hrun fuel hfuel,Option.map_some,encode_pack double_fits g hfit]

theorem or_two (E : Nat) : (E ||| 2) * 2 ^ 52 = 2 ^ 53 ||| E * 2 ^ 52 := by
  rw [← Nat.shiftLeft_eq,← Nat.shiftLeft_eq,Nat.shiftLeft_or_distrib,Nat.or_comm]
  rfl

theorem or_two_eq (E : Nat) : E ||| 2 = if 2 ≤ E % 4 then E else E + 2 := by
  have hbit := or_pow E 1
  rw [pow_one] at hbit
  rw [hbit]
  split_ifs <;> omega

theorem encode_carry {e : ℤ} (he : binary32.emin ≤ e) : binary64.Delivers (carried e) (encode double (2 ^ 53) e) := by
  replace he : -126 ≤ e := he
  have hge : (e + 1023).toNat ≤ (e + 1023).toNat ||| 2 := Nat.left_le_or
  have htop : (2 : ℚ) ^ (binary64.emax + 1) = 2 ^ (1024 : ℤ) := rfl
  rw [Format.Delivers,htop,carried]
  generalize hF : (e + 1023).toNat ||| 2 = F at *
  by_cases hbig : 1024 ≤ e
  · have hinf : encode double (2 ^ 53) e = binary64.inf := if_pos hbig
    rw [hinf,if_pos (zpow_le_zpow_right₀ one_le_two (by omega))]
  · have hcode : encode double (2 ^ 53) e = F * 2 ^ 52 := by
      have hsmall : ¬double.maxExp ≤ e := hbig
      have hroom : (e + (double.maxExp - 1)).toNat * 2 ^ (double.mantDig - 1) % 2 ^ double.uintBits = (e + 1023).toNat * 2 ^ 52 := by
        show (e + 1023).toNat * 2 ^ 52 % 2 ^ 64 = _
        omega
      rw [encode,if_neg hsmall,if_neg (by decide),hroom,show 2 ^ 53 - (2 ^ 53 &&& 2 ^ (double.mantDig - 1)) = 2 ^ 53 by decide,
        ← or_two,hF]
    have hfull : F ≤ 2047 := by
      have hor : (e + 1023).toNat ||| 2 < 2 ^ 11 := Nat.or_lt_two_pow (by omega) (by decide)
      omega
    rw [hcode]
    by_cases hmax : F = 2047
    · rw [if_pos (zpow_le_zpow_right₀ one_le_two (by omega)),hmax]
      rfl
    · have hlt : ¬(2 : ℚ) ^ (1024 : ℤ) ≤ 2 ^ ((F : ℤ) - 1023) := by
        rw [not_le]
        exact zpow_lt_zpow_right₀ one_lt_two (by omega)
      rw [if_neg hlt]
      refine ⟨?_,?_⟩
      · show F * 2 ^ 52 < 2047 * 2 ^ 52
        omega
      · have hsplit := @Format.value_split binary64 F 0 binary64.hidden_pos
        have hexp : (F : ℤ) - binary64.emax = F - 1023 := rfl
        rw [if_neg (by omega),Nat.cast_zero,Nat.add_zero,add_zero,Format.hidden_ulp,hidden64,Nat.mul_comm,hexp] at hsplit
        exact hsplit

theorem renormalize_carry (e : ℤ) (fuel : Nat) :
    (renormalize double float.target fuel (2 * binary32.hidden * 2 ^ 29,e)).map (fun s => encode double s.1 s.2) =
      some (encode double (2 ^ 53) e) := by
  have hstop : (decide (2 * binary32.hidden * 2 ^ 29 < 2 ^ (double.mantDig - 1)) && decide (double.minExp < e)) = false := by
    rw [decide_eq_false (show ¬2 * binary32.hidden * 2 ^ 29 < 2 ^ (double.mantDig - 1) by decide),Bool.false_and]
  have hskip := @loop_skips _ (fun s : Nat × ℤ => decide (s.1 < 2 ^ (double.mantDig - 1)) && decide (double.minExp < s.2))
    (fun s => (s.1 * 2 % 2 ^ double.uintBits,s.2 - 1)) (2 * binary32.hidden * 2 ^ 29,e) hstop fuel
  rw [renormalize,if_pos (by decide),hskip]
  rfl

end Hex

theorem carried_top {e : ℤ} (he : binary32.emin ≤ e) : (binary32.emax : ℤ) + 1 ≤ e → binary32.overflow ≤ carried e := by
  replace he : -126 ≤ e := he
  intro hbig
  replace hbig : 128 ≤ e := hbig
  have hge : (e + 1023).toNat ≤ (e + 1023).toNat ||| 2 := Nat.left_le_or
  have hpow : (2 : ℚ) ^ (128 : ℤ) ≤ carried e := zpow_le_zpow_right₀ one_le_two (by omega)
  exact overflow32.trans hpow

structure Narrowed (x : ℚ) (d : Nat) : Prop where
  plain : ¬binary32.Carries x → binary32.Rounds x d
  carry : ∀ e, binary32.emin ≤ e → e ≤ binary32.emax → (2 * binary32.hidden - 1 / 2) * binary32.ulp e ≤ x → x < 2 ^ (e + 1) →
    binary32.Rounds (carried e) d

theorem scanf_assembles {uint : Nat} (exp : ℤ) (hpos : 0 < uint) {sticky : Bool} {t : ℚ}
    (hset : sticky = true → 2 ^ (float.uintBits - 4) ≤ uint ∧ 0 < t ∧ t < 1) (hclear : sticky = false → t = 0) :
    ∃ d N, (∀ fuel, N ≤ fuel → scanfHex fuel uint exp sticky.toNat = some d) ∧ Narrowed ((uint + t) * 2 ^ exp) d := by
  obtain ⟨y,e,N,he,hy,hlow,hsticky,hrun⟩ := @Hex.assemble_reduces float binary32 float_fits double (by decide) _ exp hpos _ _ hset hclear
  have hbin := Format.binade_of he hsticky hlow hy
  have hnear := unguarded_nearest hsticky
  obtain ⟨hle,hsub⟩ := Format.binade_nearest hbin hnear
  have hcarry := Format.carry_iff hbin hnear
  by_cases hfull : unguarded y = 2 * binary32.hidden
  · refine ⟨toFloat (Hex.encode double (2 ^ 53) e),N,fun fuel hfuel => ?_,?_,?_⟩
    · rw [scanfHex,hrun fuel hfuel,Hex.roundEven_wide e hy,hfull,Hex.renormalize_carry,Option.map_some]
    · intro hno
      have htop : (binary32.emax : ℤ) + 1 ≤ e := by
        by_contra hsmall
        exact hno ⟨e,he,by omega,hcarry.mp hfull,hbin.high⟩
      have hd := toFloat_rounds (zpow_pos two_pos _).le (Hex.encode_carry he)
      have hover : binary32.overflow ≤ (uint + t) * 2 ^ exp := by
        refine le_trans ?_ (hcarry.mp hfull)
        exact mul_le_mul_of_nonneg_left (Format.ulp_mono (by omega)) (by rw [hidden32]; norm_num)
      have hround := @Format.round_rounds binary32 ((uint + t) * 2 ^ exp)
        (le_trans (by norm_num [Format.overflow,Format.ulp,Format.hidden,binary32]) hover)
      rwa [(Format.rounds_inf hd).mpr (carried_top he htop),← (Format.rounds_inf hround).mpr hover]
    · intro e' he' _ hlow' hhigh'
      obtain rfl := hbin.unique (Format.carried_binade he' hlow' hhigh')
      exact toFloat_rounds (zpow_pos two_pos _).le (Hex.encode_carry he)
  · obtain ⟨d,M,hd,hdel⟩ := Hex.narrow_exact (show unguarded y < 2 * binary32.hidden by omega) he hsub
    refine ⟨toFloat d,max N M,fun fuel hfuel => ?_,?_,?_⟩
    · rw [scanfHex,hrun fuel (le_of_max_le_left hfuel),Hex.roundEven_wide e hy,hd fuel (le_of_max_le_right hfuel),Option.map_some]
    · intro _
      have hexact := toFloat_rounds (mul_nonneg (Nat.cast_nonneg _) (binary32.ulp_pos e).le) hdel
      exact ⟨e,unguarded y,hbin,hnear,(Format.rounds_exact he (by omega) hsub).mp hexact⟩
    · intro e' he' _ hlow' hhigh'
      obtain rfl := hbin.unique (Format.carried_binade he' hlow' hhigh')
      exact absurd (hcarry.mpr hlow') hfull

end Scanf
