import Mathlib

namespace Simulation

variable {σ τ α β : Type}

def run (step : σ → α → σ × β) : σ → List α → σ × List β
  | s, [] => (s,[])
  | s, a :: as =>
    let r := step s a
    let q := run step r.1 as
    (q.1,r.2 :: q.2)

def Along (step : σ → α → σ × β) (ok : σ → α → Prop) : σ → List α → Prop
  | _, [] => True
  | s, a :: as => ok s a ∧ Along step ok (step s a).1 as

theorem run_append (step : σ → α → σ × β) (s : σ) (as bs : List α) :
    run step s (as ++ bs) =
      ((run step (run step s as).1 bs).1,(run step s as).2 ++ (run step (run step s as).1 bs).2) := by
  induction as generalizing s with
  | nil => rfl
  | cons a as ih => simp only [List.cons_append,run,ih]

theorem along_append {step : σ → α → σ × β} {ok : σ → α → Prop} {s : σ} {as bs : List α}
    (h : Along step ok s (as ++ bs)) : Along step ok s as ∧ Along step ok (run step s as).1 bs := by
  induction as generalizing s with
  | nil => exact ⟨trivial,h⟩
  | cons a as ih =>
    obtain ⟨h1,h2⟩ := ih h.2
    exact ⟨⟨h.1,h1⟩,h2⟩

theorem along_of_mem {step : σ → α → σ × β} {ok : α → Prop} {s : σ} {as : List α} (h : ∀ a ∈ as, ok a) :
    Along step (fun _ => ok) s as := by
  induction as generalizing s with
  | nil => trivial
  | cons a as ih => exact ⟨h a List.mem_cons_self,ih (fun b hb => h b (List.mem_cons_of_mem a hb))⟩

theorem along_and {step : σ → α → σ × β} {ok ok' : σ → α → Prop} {s : σ} {as : List α} (h : Along step ok s as)
    (h' : Along step ok' s as) : Along step (fun s a => ok s a ∧ ok' s a) s as := by
  induction as generalizing s with
  | nil => trivial
  | cons a as ih => exact ⟨⟨h.1,h'.1⟩,ih h.2 h'.2⟩

theorem run_preserves {step : σ → α → σ × β} {ok : σ → α → Prop} {inv : σ → Prop}
    (hstep : ∀ s a, inv s → ok s a → inv (step s a).1) {s : σ} {as : List α} (hs : inv s)
    (ha : Along step ok s as) : inv (run step s as).1 := by
  induction as generalizing s with
  | nil => exact hs
  | cons a as ih => exact ih (hstep s a hs ha.1) ha.2

theorem run_simulates {step : σ → α → σ × β} {spec : τ → α → τ × β} {ok : τ → α → Prop}
    {rel : σ → τ → Prop}
    (hstep : ∀ s t a, rel s t → ok t a → rel (step s a).1 (spec t a).1 ∧ (step s a).2 = (spec t a).2)
    {s : σ} {t : τ} {as : List α} (hs : rel s t) (ha : Along spec ok t as) :
    rel (run step s as).1 (run spec t as).1 ∧ (run step s as).2 = (run spec t as).2 := by
  induction as generalizing s t with
  | nil => exact ⟨hs,rfl⟩
  | cons a as ih =>
    obtain ⟨h1,h2⟩ := hstep s t a hs ha.1
    obtain ⟨h3,h4⟩ := ih h1 ha.2
    exact ⟨h3,by simp only [run,h2,h4]⟩

end Simulation
