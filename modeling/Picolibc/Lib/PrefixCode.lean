import Mathlib

namespace PrefixCode

variable {σ α : Type}

structure Code (enc : σ → List α) : Prop where
  nonempty : ∀ c, enc c ≠ []
  free : ∀ c d, enc c <+: enc d → c = d

def Alive (enc : σ → List α) (p : List α) : Prop := ∃ t, ∃ cs : List σ, p ++ t = cs.flatMap enc

def Begun (enc : σ → List α) (q : List α) : Prop := ∃ c, q <+: enc c ∧ q ≠ enc c

variable {enc : σ → List α}

theorem alive_of_append {p q : List α} (h : Alive enc (p ++ q)) : Alive enc p := by
  obtain ⟨t,cs,h⟩ := h
  exact ⟨q ++ t,cs,by rw [← List.append_assoc,h]⟩

theorem Code.cancel (hc : Code enc) {c d : σ} {q r : List α} (h : enc c ++ q = enc d ++ r) : c = d ∧ q = r := by
  have hcd : c = d := by
    rcases List.prefix_or_prefix_of_prefix ⟨q,rfl⟩ (show enc d <+: enc c ++ q from ⟨r,h.symm⟩) with h' | h'
    · exact hc.free c d h'
    · exact (hc.free d c h').symm
  subst hcd
  exact ⟨rfl,List.append_cancel_left h⟩

theorem Begun.no_code (hc : Code enc) {q : List α} (hq : Begun enc q) (d : σ) : ¬enc d <+: q := by
  obtain ⟨c,hp,hne⟩ := hq
  intro hd
  obtain rfl := hc.free d c (hd.trans hp)
  exact hne (List.IsPrefix.eq_of_length_le hp hd.length_le)

theorem begun_nil (hc : Code enc) (c : σ) : Begun enc [] :=
  ⟨c,List.nil_prefix,fun h => hc.nonempty c h.symm⟩

theorem alive_snoc (cs : List σ) {q : List α} (hq : ∃ c, q <+: enc c) : Alive enc (cs.flatMap enc ++ q) := by
  obtain ⟨c,t,ht⟩ := hq
  exact ⟨t,cs ++ [c],by simp [List.append_assoc,ht]⟩

theorem Code.alive_iff (hc : Code enc) [Nonempty σ] (cs : List σ) {q : List α} (hq : ∀ d, ¬enc d <+: q) :
    Alive enc (cs.flatMap enc ++ q) ↔ ∃ c, q <+: enc c := by
  constructor
  · rintro ⟨t,ds,h⟩
    induction cs generalizing ds with
    | nil =>
      rw [List.flatMap_nil,List.nil_append] at h
      cases ds with
      | nil =>
        obtain ⟨c⟩ := ‹Nonempty σ›
        rw [List.flatMap_nil,List.append_eq_nil_iff] at h
        exact ⟨c,by rw [h.1]; exact List.nil_prefix⟩
      | cons d ds =>
        rw [List.flatMap_cons] at h
        rcases List.prefix_or_prefix_of_prefix ⟨t,rfl⟩ (show enc d <+: q ++ t from ⟨_,h.symm⟩) with h' | h'
        · exact ⟨d,h'⟩
        · exact absurd h' (hq d)
    | cons c cs ih =>
      cases ds with
      | nil =>
        simp only [List.flatMap_cons,List.flatMap_nil,List.append_eq_nil_iff] at h
        exact absurd h.1.1.1 (hc.nonempty c)
      | cons d ds =>
        simp only [List.flatMap_cons,List.append_assoc] at h
        obtain ⟨-,h'⟩ := hc.cancel h
        exact ih ds (by rw [List.append_assoc,h'])
  · exact alive_snoc cs

theorem Code.dead_snoc (hc : Code enc) [Nonempty σ] (cs : List σ) {q : List α} {u : α} (hq : Begun enc q)
    (hd : ∀ c, ¬q ++ [u] <+: enc c) : ¬Alive enc (cs.flatMap enc ++ (q ++ [u])) := by
  rw [hc.alive_iff cs]
  · rintro ⟨c,h⟩
    exact hd c h
  · intro d h
    rcases List.prefix_concat_iff.mp h with h' | h'
    · exact hd d (by rw [h'])
    · exact hq.no_code hc d h'

theorem Code.whole (hc : Code enc) {cs ds : List σ} {q : List α} (hq : Begun enc q)
    (h : ds.flatMap enc = cs.flatMap enc ++ q) : ds = cs ∧ q = [] := by
  induction cs generalizing ds with
  | nil =>
    cases ds with
    | nil => exact ⟨rfl,h.symm⟩
    | cons d ds => exact absurd ⟨_,h⟩ (hq.no_code hc d)
  | cons c cs ih =>
    cases ds with
    | nil =>
      have h' := h.symm
      simp only [List.flatMap_cons,List.flatMap_nil,List.append_eq_nil_iff] at h'
      exact absurd h'.1.1 (hc.nonempty c)
    | cons d ds =>
      simp only [List.flatMap_cons,List.append_assoc] at h
      obtain ⟨rfl,h'⟩ := hc.cancel h
      obtain ⟨rfl,rfl⟩ := ih h'
      exact ⟨rfl,rfl⟩

end PrefixCode
