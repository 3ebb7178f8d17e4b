import Mathlib
import Picolibc.Lib.Comparison

namespace RangeSort

open Comparison

variable {α : Type}

def Shuffled (lo hi : Nat) (f g : Nat → α) : Prop := ∃ σ : Equiv.Perm Nat, (∀ i, i < lo ∨ hi ≤ i → σ i = i) ∧ g = f ∘ σ

section

variable {lo hi lo' hi' : Nat} {f g h : Nat → α}

theorem Shuffled.refl (lo hi : Nat) (f : Nat → α) : Shuffled lo hi f f := ⟨1,fun _ _ => rfl,rfl⟩

theorem Shuffled.trans (hfg : Shuffled lo hi f g) (hgh : Shuffled lo hi g h) : Shuffled lo hi f h := by
  obtain ⟨σ,hσ,rfl⟩ := hfg
  obtain ⟨τ,hτ,rfl⟩ := hgh
  exact ⟨σ * τ,fun i hi => by rw [Equiv.Perm.mul_apply,hτ i hi,hσ i hi],rfl⟩

theorem Shuffled.mono (h : Shuffled lo hi f g) (hlo : lo' ≤ lo) (hhi : hi ≤ hi') : Shuffled lo' hi' f g := by
  obtain ⟨σ,hσ,rfl⟩ := h
  exact ⟨σ,fun i hi => hσ i (by omega),rfl⟩

theorem Shuffled.swap {i j : Nat} (hi' : lo ≤ i) (hi'' : i < hi) (hj : lo ≤ j) (hj' : j < hi) (f : Nat → α) :
    Shuffled lo hi f (f ∘ Equiv.swap i j) :=
  ⟨Equiv.swap i j,fun k hk => Equiv.swap_apply_of_ne_of_ne (by omega) (by omega),rfl⟩

theorem Shuffled.inside {σ : Equiv.Perm Nat} (hσ : ∀ i, i < lo ∨ hi ≤ i → σ i = i) {i : Nat} (hlow : lo ≤ i) (hhigh : i < hi) :
    lo ≤ σ i ∧ σ i < hi := by
  by_contra hout
  have hfix := hσ (σ i) (by omega)
  have hsame := σ.injective hfix
  omega

theorem Shuffled.all (h : Shuffled lo hi f g) {P : α → Prop} (hP : ∀ i, lo ≤ i → i < hi → P (f i)) :
    ∀ i, lo ≤ i → i < hi → P (g i) := by
  obtain ⟨σ,hσ,rfl⟩ := h
  intro i hlow hhigh
  obtain ⟨hlow',hhigh'⟩ := Shuffled.inside hσ hlow hhigh
  exact hP _ hlow' hhigh'

theorem Shuffled.outside (h : Shuffled lo hi f g) {i : Nat} (hi' : i < lo ∨ hi ≤ i) : g i = f i := by
  obtain ⟨σ,hσ,rfl⟩ := h
  exact congrArg f (hσ i hi')

theorem Shuffled.perm {n : Nat} (h : Shuffled 0 n f g) : ((List.range n).map g).Perm ((List.range n).map f) := by
  obtain ⟨σ,hσ,rfl⟩ := h
  have hperm : ((List.range n).map σ).Perm (List.range n) := by
    rw [List.perm_ext_iff_of_nodup (List.nodup_range.map σ.injective) List.nodup_range]
    intro i
    rw [List.mem_map,List.mem_range]
    constructor
    · rintro ⟨j,hj,rfl⟩
      exact (Shuffled.inside hσ (Nat.zero_le j) (List.mem_range.mp hj)).2
    · intro hi
      refine ⟨σ.symm i,List.mem_range.mpr ?_,σ.apply_symm_apply i⟩
      by_contra hout
      have hfix := hσ (σ.symm i) (by omega)
      rw [σ.apply_symm_apply] at hfix
      omega
  rw [← List.map_map]
  exact hperm.map f

end

def exchanges : Nat → (Nat → α) → Nat → Nat → Nat → α
  | 0, f, _, _ => f
  | k + 1, f, i, j => exchanges k (f ∘ Equiv.swap i j) (i + 1) (j + 1)

theorem exchanges_shuffled {k lo hi i j : Nat} (hi' : lo ≤ i) (hik : i + k ≤ hi) (hj : lo ≤ j) (hjk : j + k ≤ hi) (f : Nat → α) :
    Shuffled lo hi f (exchanges k f i j) := by
  induction k generalizing f i j with
  | zero => exact .refl lo hi f
  | succ k ih =>
    exact (Shuffled.swap hi' (by omega) hj (by omega) f).trans (ih (by omega) (by omega) (by omega) (by omega) _)

theorem exchanges_apart {k i j : Nat} (h : i + k ≤ j) (f : Nat → α) (x : Nat) : exchanges k f i j x =
    if i ≤ x ∧ x < i + k then f (j + (x - i)) else if j ≤ x ∧ x < j + k then f (i + (x - j)) else f x := by
  induction k generalizing f i j with
  | zero => rw [exchanges,if_neg (by omega),if_neg (by omega)]
  | succ k ih =>
    have hother : ∀ y, y ≠ i → y ≠ j → (f ∘ Equiv.swap i j) y = f y := fun y hy hy' =>
      congrArg f (Equiv.swap_apply_of_ne_of_ne hy hy')
    rw [exchanges,ih (by omega)]
    by_cases hx : x = i
    · subst hx
      rw [if_neg (by omega),if_neg (by omega),if_pos (by omega),Function.comp_apply,Equiv.swap_apply_left,Nat.sub_self,Nat.add_zero]
    · by_cases hx' : x = j
      · subst hx'
        rw [if_neg (by omega),if_neg (by omega),if_neg (by omega),if_pos (by omega),Function.comp_apply,Equiv.swap_apply_right,
          Nat.sub_self,Nat.add_zero]
      · rw [hother x hx hx']
        split_ifs <;> first | rfl | omega | skip
        · rw [hother _ (by omega) (by omega)]
          congr 1
          omega
        · rw [hother _ (by omega) (by omega)]
          congr 1
          omega

def Ordered (c : α → α → Int) (lo hi : Nat) (f : Nat → α) : Prop := ∀ i j, lo ≤ i → i < j → j < hi → c (f i) (f j) ≤ 0

structure Sinks (c : α → α → Int) (a p top : Nat) (f : Nat → α) : Prop where
  others : ∀ i j, a ≤ i → i < j → j ≤ top → i ≠ p → j ≠ p → c (f i) (f j) ≤ 0
  passed : ∀ j, p < j → j ≤ top → c (f p) (f j) ≤ 0

structure Parted (c : α → α → Int) (lo mid mid' hi : Nat) (v : α) (f : Nat → α) : Prop where
  start : lo ≤ mid
  middle : mid ≤ mid'
  stop : mid' ≤ hi
  less : ∀ i, lo ≤ i → i < mid → c (f i) v < 0
  equal : ∀ i, mid ≤ i → i < mid' → c (f i) v = 0
  more : ∀ i, mid' ≤ i → i < hi → 0 < c (f i) v

section

variable {c : α → α → Int} {a p top lo mid mid' hi : Nat} {v : α} {f g h : Nat → α}

theorem ordered_short (h : hi ≤ lo + 1) (f : Nat → α) : Ordered c lo hi f := by
  intro i j hi hij hj
  omega

theorem Ordered.same (ho : Ordered c lo hi f) (hs : ∀ i, lo ≤ i → i < hi → g i = f i) : Ordered c lo hi g := by
  intro i j hi hij hj
  rw [hs i hi (by omega),hs j (by omega) hj]
  exact ho i j hi hij hj

theorem sinks_start (ho : Ordered c a top f) : Sinks c a top top f where
  others i j hi hij hj _ hne := ho i j hi hij (by omega)
  passed j hj hj' := absurd hj (by omega)

theorem sinks_bottom (hs : Sinks c a a top f) : Ordered c a (top + 1) f := by
  intro i j hi hij hj
  by_cases he : i = a
  · subst he
    exact hs.passed j hij (by omega)
  · exact hs.others i j hi hij (by omega) he (by omega)

theorem sinks_stop (hc : TotalPreorder c) (hs : Sinks c a (p + 1) top f) (hstop : c (f p) (f (p + 1)) ≤ 0) :
    Ordered c a (top + 1) f := by
  intro i j hi hij hj
  by_cases he : i = p + 1
  · subst he
    exact hs.passed j hij (by omega)
  · by_cases he' : j = p + 1
    · subst he'
      rcases Nat.lt_or_ge i p with hlt | hge
      · exact hc.trans _ _ _ (hs.others i p hi hlt (by omega) he (by omega)) hstop
      · obtain rfl : i = p := by omega
        exact hstop
    · exact hs.others i j hi hij (by omega) he he'

theorem sinks_swap (hc : TotalPreorder c) (hs : Sinks c a (p + 1) top f) (hap : a ≤ p) (hmore : 0 < c (f p) (f (p + 1))) :
    Sinks c a p top (f ∘ Equiv.swap (p + 1) p) := by
  have hother : ∀ i, i ≠ p → i ≠ p + 1 → Equiv.swap (p + 1) p i = i := fun i h h' => Equiv.swap_apply_of_ne_of_ne h' h
  have hless : c (f (p + 1)) (f p) < 0 := (hc.flip _ _).mpr hmore
  constructor
  · intro i j hi hij hj hip hjp
    rw [Function.comp_apply,Function.comp_apply]
    by_cases hi' : i = p + 1
    · subst hi'
      rw [Equiv.swap_apply_left,hother j hjp (by omega)]
      exact hs.others p j hap (by omega) hj (by omega) (by omega)
    · rw [hother i hip hi']
      by_cases hj' : j = p + 1
      · subst hj'
        rw [Equiv.swap_apply_left]
        exact hs.others i p hi (by omega) (by omega) hi' (by omega)
      · rw [hother j hjp hj']
        exact hs.others i j hi hij hj hi' hj'
  · intro j hpj hj
    rw [Function.comp_apply,Function.comp_apply,Equiv.swap_apply_right]
    by_cases hj' : j = p + 1
    · subst hj'
      rw [Equiv.swap_apply_left]
      exact hless.le
    · rw [hother j (by omega) hj']
      exact hs.passed j (by omega) hj

theorem Parted.left (hp : Parted c lo mid mid' hi v f) (hs : Shuffled lo mid f g) : Parted c lo mid mid' hi v g := by
  have hmid := hp.middle
  refine ⟨hp.start,hmid,hp.stop,hs.all (P := fun x => c x v < 0) hp.less,fun i hi hi' => ?_,fun i hi hi' => ?_⟩
  · rw [hs.outside (by omega)]
    exact hp.equal i hi hi'
  · rw [hs.outside (by omega)]
    exact hp.more i hi hi'

theorem Parted.right (hp : Parted c lo mid mid' hi v f) (hs : Shuffled mid' hi f g) : Parted c lo mid mid' hi v g := by
  have hmid := hp.middle
  refine ⟨hp.start,hmid,hp.stop,fun i hi hi' => ?_,fun i hi hi' => ?_,hs.all (P := fun x => 0 < c x v) hp.more⟩
  · rw [hs.outside (by omega)]
    exact hp.less i hi hi'
  · rw [hs.outside (by omega)]
    exact hp.equal i hi hi'

theorem Parted.ordered (hc : TotalPreorder c) (hp : Parted c lo mid mid' hi v f) (hl : Ordered c lo mid f) (hr : Ordered c mid' hi f) :
    Ordered c lo hi f := by
  intro i j hi hij hj
  by_cases hjl : j < mid
  · exact hl i j hi hij hjl
  · by_cases hir : mid' ≤ i
    · exact hr i j hir hij hj
    · have hle : c (f i) v ≤ 0 := by
        by_cases him : i < mid
        · exact (hp.less i hi him).le
        · exact (hp.equal i (by omega) (by omega)).le
      have hge : ¬c (f j) v < 0 := by
        by_cases hjm : j < mid'
        · rw [hp.equal j (by omega) hjm]
          exact lt_irrefl 0
        · exact (hp.more j (by omega) hj).le.not_gt
      exact hc.trans _ _ _ hle (le_of_not_lt hc hge)

end

end RangeSort
