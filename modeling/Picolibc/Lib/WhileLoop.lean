import Mathlib

namespace WhileLoop

variable {σ : Type*}

def whileLoop (cond : σ → Bool) (body : σ → σ) : Nat → σ → Option σ
  | 0, s => if cond s then none else some s
  | n + 1, s => if cond s then whileLoop cond body n (body s) else some s

theorem loop_exits {cond : σ → Bool} {body : σ → σ} {inv : σ → Prop} {variant : σ → Nat}
    (step : ∀ s, inv s → cond s = true → inv (body s) ∧ variant (body s) < variant s) {s : σ} (h : inv s) :
    ∃ s', inv s' ∧ cond s' = false ∧ ∀ n, variant s ≤ n → whileLoop cond body n s = some s' := by
  induction hv : variant s using Nat.strong_induction_on generalizing s with
  | _ v ih =>
    subst hv
    cases hc : cond s with
    | false =>
      refine ⟨s,h,hc,fun n _ => ?_⟩
      cases n <;> simp [whileLoop,hc]
    | true =>
      obtain ⟨hinv,hlt⟩ := step s h hc
      obtain ⟨s',hs',hexit,hrun⟩ := ih _ hlt hinv rfl
      refine ⟨s',hs',hexit,fun n hn => ?_⟩
      cases n with
      | zero => exact absurd hn (by omega)
      | succ n =>
        rw [whileLoop,if_pos hc]
        exact hrun n (by omega)

theorem loop_skips {cond : σ → Bool} (body : σ → σ) {s : σ} (h : cond s = false) (n : Nat) :
    whileLoop cond body n s = some s := by
  cases n <;> simp [whileLoop,h]

end WhileLoop
