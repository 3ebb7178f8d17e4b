import Mathlib

namespace Mediants

section

variable {a b c d k m n p p' q q' s N : Nat}

theorem denominator_le (h : b * c = a * d + 1) (hlow : a * n < k * b) (hhigh : k * d < c * n) : b + d ≤ n := by
  obtain ⟨u,hu⟩ := Nat.exists_eq_add_of_lt hlow
  obtain ⟨v,hv⟩ := Nat.exists_eq_add_of_lt hhigh
  have hn : n = b * (v + 1) + d * (u + 1) := by
    have hleft : b * (k * d + v + 1) = b * (c * n) := by rw [hv]
    have hright : d * (k * b) = d * (a * n + u + 1) := by rw [hu]
    have hdet : b * c * n = (a * d + 1) * n := by rw [h]
    linarith
  rw [hn]
  exact Nat.add_le_add (Nat.le_mul_of_pos_right b (Nat.succ_pos v)) (Nat.le_mul_of_pos_right d (Nat.succ_pos u))

theorem floor_eq_of_empty (hq : 0 < q) (hq' : 0 < q') (hle : p * q' ≤ p' * q)
    (h : ∀ k, n * p < k * q → k * q' ≤ n * p' → False) : n * p / q = n * p' / q' := by
  have hmono : n * p * q' ≤ n * p' * q := by
    rw [Nat.mul_assoc,Nat.mul_assoc]
    exact Nat.mul_le_mul_left n hle
  refine le_antisymm ?_ ?_
  · rw [Nat.le_div_iff_mul_le hq']
    refine Nat.le_of_mul_le_mul_right ?_ hq
    calc n * p / q * q' * q = n * p / q * q * q' := by ring
      _ ≤ n * p * q' := Nat.mul_le_mul_right q' (Nat.div_mul_le_self _ _)
      _ ≤ n * p' * q := hmono
  · rw [Nat.le_div_iff_mul_le hq]
    exact not_lt.mp fun hlt => h _ hlt (Nat.div_mul_le_self _ _)

theorem above_left (hp : a * q ≤ p * b) (hb : 0 < b) (hk : n * p < k * q) : a * n < k * b := by
  refine Nat.lt_of_mul_lt_mul_right (a := q) ?_
  calc a * n * q = n * (a * q) := by ring
    _ ≤ n * (p * b) := Nat.mul_le_mul_left n hp
    _ = n * p * b := by ring
    _ < k * q * b := Nat.mul_lt_mul_of_pos_right hk hb
    _ = k * b * q := by ring

theorem below_right (hp' : p' * d < c * q') (hn : 0 < n) (hk : k * q' ≤ n * p') : k * d < c * n := by
  refine Nat.lt_of_mul_lt_mul_right (a := q') ?_
  calc k * d * q' = d * (k * q') := by ring
    _ ≤ d * (n * p') := Nat.mul_le_mul_left d hk
    _ = n * (p' * d) := by ring
    _ < n * (c * q') := Nat.mul_lt_mul_of_pos_left hp' hn
    _ = c * n * q' := by ring

theorem floor_eq (h : b * c = a * d + 1) (hp : a * q ≤ p * b) (hp' : p' * d < c * q') (hq : 0 < q) (hq' : 0 < q')
    (hle : p * q' ≤ p' * q) (hn : n < b + d) : n * p / q = n * p' / q' := by
  have hb : 0 < b := Nat.pos_of_ne_zero fun hb => by simp [hb] at h
  refine floor_eq_of_empty hq hq' hle fun k hlow hhigh => ?_
  have hpos : 0 < n := Nat.pos_of_ne_zero fun h0 => by
    subst h0
    rw [Nat.zero_mul] at hlow hhigh
    have hk : 0 < k := Nat.pos_of_ne_zero fun hk => by simp [hk] at hlow
    exact absurd (Nat.mul_pos hk hq') (not_lt.mpr hhigh)
  exact absurd (denominator_le h (above_left hp hb hlow) (below_right hp' hpos hhigh)) (not_le.mpr hn)

theorem floor_eq_aside {t : Nat} (hleft : b * t = a * s + 1) (hright : s * c = t * d + 1) (hp : a * q ≤ p * b)
    (hp' : p' * d < c * q') (hq : 0 < q) (hq' : 0 < q') (hle : p * q' ≤ p' * q) (hb : n < b + s) (hd : n < s + d)
    (hs : n < 2 * s) (hne : n ≠ s) : n * p / q = n * p' / q' := by
  have hpos : 0 < b := Nat.pos_of_ne_zero fun hb => by simp [hb] at hleft
  rcases Nat.eq_zero_or_pos n with rfl | hn
  · simp
  refine floor_eq_of_empty hq hq' hle fun k hlow hhigh => ?_
  have hleftmost := above_left hp hpos hlow
  have hrightmost := below_right hp' hn hhigh
  rcases lt_trichotomy (k * s) (t * n) with hlt | heq | hgt
  · exact absurd (denominator_le hleft hleftmost hlt) (not_le.mpr hb)
  · have hcop : Nat.Coprime s t := by
      have hsum : Nat.gcd s t ∣ a * s + 1 := hleft ▸ (Nat.gcd_dvd_right s t).mul_left b
      exact Nat.dvd_one.mp ((Nat.dvd_add_right ((Nat.gcd_dvd_left s t).mul_left a)).mp hsum)
    obtain ⟨r,rfl⟩ : s ∣ n := hcop.dvd_of_dvd_mul_left (Dvd.intro_left k heq)
    have hr : r < 2 := Nat.lt_of_mul_lt_mul_left (a := s) (by rwa [mul_comm 2 s] at hs)
    interval_cases r
    · exact absurd hn (by simp)
    · exact hne (mul_one s)
  · exact absurd (denominator_le hright hgt hrightmost) (not_le.mpr hd)

end

structure Bracket where
  a : Nat
  b : Nat
  c : Nat
  d : Nat

def narrow (N p q p' q' : Nat) : Nat → Bracket → Bracket
  | 0, r => r
  | fuel + 1, r =>
    if N ≤ r.b + r.d then r else
    let s := (p * r.b - r.a * q) / (r.c * q - p * r.d)
    let a := r.a + s * r.c
    let b := r.b + s * r.d
    let t := (r.c * q' - p' * r.d - 1) / (p' * b - a * q')
    narrow N p q p' q' fuel ⟨a,b,r.c + t * a,r.d + t * b⟩

def Bracket.holds (N p q p' q' : Nat) (r : Bracket) : Bool :=
  r.b * r.c == r.a * r.d + 1 && r.a * q ≤ p * r.b && p' * r.d < r.c * q' && N ≤ r.b + r.d

def apart (N p q p' q' : Nat) : Bool :=
  p * q' ≤ p' * q && (p' * q ≤ p * q' || (narrow N p q p' q' 64 ⟨0,1,1,0⟩).holds N p q p' q')

theorem floor_eq_of_apart {n N p q p' q' : Nat} (h : apart N p q p' q' = true) (hq : 0 < q) (hq' : 0 < q') (hn : n < N) :
    n * p / q = n * p' / q' := by
  rw [apart,Bool.and_eq_true,Bool.or_eq_true,decide_eq_true_iff,decide_eq_true_iff] at h
  obtain ⟨hle,hge | hbracket⟩ := h
  · have heq : p * q' = p' * q := le_antisymm hle hge
    rw [← Nat.mul_div_mul_right (n * p) q hq',← Nat.mul_div_mul_right (n * p') q' hq,Nat.mul_assoc,heq,Nat.mul_assoc,
      Nat.mul_comm q q']
  · generalize narrow N p q p' q' 64 ⟨0,1,1,0⟩ = r at hbracket
    simp only [Bracket.holds,Bool.and_eq_true,beq_iff_eq,decide_eq_true_iff] at hbracket
    obtain ⟨⟨⟨hdet,hp⟩,hp'⟩,hN⟩ := hbracket
    exact floor_eq hdet hp hp' hq hq' hle (hn.trans_le hN)

end Mediants
