import Mathlib

namespace FaultRun

def store {α : Type} (l : List α) (i : Nat) (x : α) : Option (List α) := if i < l.length then some (l.set i x) else none

theorem store_within {α : Type} {l : List α} {i : Nat} (h : i < l.length) (x : α) : store l i x = some (l.set i x) :=
  if_pos h

section

variable {σ α β : Type} (step : σ → α → Option (σ × β))

def Always (post : σ → α → σ → β → Prop) : σ → List α → Prop
  | _, [] => True
  | s, a :: as => ∃ s' r, step s a = some (s',r) ∧ post s a s' r ∧ Always post s' as

def Guarded (ok : σ → α → Prop) : σ → List α → Prop
  | _, [] => True
  | s, a :: as => ok s a ∧ ∀ s' r, step s a = some (s',r) → Guarded ok s' as

def exec : σ → List α → Option σ
  | s, [] => some s
  | s, a :: as => (step s a).bind (fun q => exec q.1 as)

theorem guarded_cons {ok : σ → α → Prop} {s s' : σ} {a : α} {r : β} {as : List α} (hstep : step s a = some (s',r))
    (hok : ok s a) (hrest : Guarded step ok s' as) : Guarded step ok s (a :: as) := by
  refine ⟨hok,fun s₁ r₁ h => ?_⟩
  rw [hstep] at h
  obtain ⟨rfl,rfl⟩ := Prod.mk.inj (Option.some.inj h)
  exact hrest

theorem always_iff_guarded {inv : σ → Prop} {legal ok : σ → α → Prop} {post : σ → α → σ → β → Prop}
    (h : ∀ s a, inv s → legal s a → ∃ s' r, step s a = some (s',r) ∧ (ok s a → inv s') ∧ (post s a s' r ↔ ok s a))
    {s : σ} (hs : inv s) {as : List α} (hl : Guarded step legal s as) :
    Always step post s as ↔ Guarded step ok s as := by
  induction as generalizing s with
  | nil => exact Iff.rfl
  | cons a as ih =>
    obtain ⟨s',r,hstep,hinv,hpost⟩ := h s a hs hl.1
    have hrest := fun hok => ih (hinv hok) (hl.2 s' r hstep)
    constructor
    · rintro ⟨s₁,r₁,hs₁,hp,hall⟩
      rw [hstep] at hs₁
      obtain ⟨rfl,rfl⟩ := Prod.mk.inj (Option.some.inj hs₁)
      have hok := hpost.mp hp
      refine ⟨hok,fun s₂ r₂ hs₂ => ?_⟩
      rw [hstep] at hs₂
      obtain ⟨rfl,rfl⟩ := Prod.mk.inj (Option.some.inj hs₂)
      exact (hrest hok).mp hall
    · rintro ⟨hok,hall⟩
      exact ⟨s',r,hstep,hpost.mpr hok,(hrest hok).mpr (hall s' r hstep)⟩

theorem always_exec {post : σ → α → σ → β → Prop} {keep : σ → Prop} {as : List α}
    (h : ∀ s s' r, ∀ a ∈ as, keep s → step s a = some (s',r) → post s a s' r → keep s') {s : σ} (hs : keep s)
    (hall : Always step post s as) : ∃ s', exec step s as = some s' ∧ keep s' := by
  induction as generalizing s with
  | nil => exact ⟨s,rfl,hs⟩
  | cons a as ih =>
    obtain ⟨s₁,r,hstep,hpost,hrest⟩ := hall
    have hkeep := h s s₁ r a List.mem_cons_self hs hstep hpost
    obtain ⟨s',hexec,hlast⟩ := ih (fun s s' r b hb => h s s' r b (List.mem_cons_of_mem a hb)) hkeep hrest
    exact ⟨s',by rw [exec,hstep,Option.bind_some,hexec],hlast⟩

end

end FaultRun
