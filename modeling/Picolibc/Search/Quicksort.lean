import Mathlib
import Picolibc.Search.Qsort

namespace Qsort

open ByteMemory RangeSort Comparison

structure Agrees (q : Sorting) (c : List UInt8 → List UInt8 → Int) : Prop where
  total : TotalPreorder c
  same : ∀ k, q.cmp k = c

structure Sorts (q : Sorting) (a n : Nat) (s s' : Run) : Prop where
  moved : Moved q a (a + n) s s'
  ordered : ∀ c, Agrees q c → Ordered c a (a + n) (q.view s'.mem)

section

variable {q : Sorting} {s s' s'' : Run} {lo hi lo' hi' a n origin : Nat}

theorem Moved.refl (q : Sorting) (lo hi : Nat) (h : s'.mem = s.mem) : Moved q lo hi s s' :=
  ⟨by rw [h]; exact .refl _ _ _,fun _ _ => by rw [h]⟩

theorem Moved.trans (h : Moved q lo hi s s') (h' : Moved q lo hi s' s'') : Moved q lo hi s s'' :=
  ⟨h.shuffled.trans h'.shuffled,fun x hx => (h'.outside x hx).trans (h.outside x hx)⟩

theorem Moved.mono (h : Moved q lo hi s s') (hlo : lo' ≤ lo) (hhi : hi ≤ hi') : Moved q lo' hi' s s' :=
  ⟨h.shuffled.mono hlo hhi,h.outside⟩

theorem swap_moved (origin : Nat) (s : Run) (hhi : hi ≤ q.count) {i j : Nat} (hi₁ : lo ≤ i) (hi₂ : i < hi) (hj₁ : lo ≤ j) (hj₂ : j < hi) :
    ∃ s', swap q origin s i j = some s' ∧ q.view s'.mem = q.view s.mem ∘ Equiv.swap i j ∧ Moved q lo hi s s' := by
  obtain ⟨s',hrun,hview,hout⟩ := swap_view q origin s (show i < q.count by omega) (show j < q.count by omega)
  exact ⟨s',hrun,hview,by rw [hview]; exact .swap hi₁ hi₂ hj₁ hj₂ _,hout⟩

theorem compare_inside (s : Run) {i j : Nat} (hi : i < q.count) (hj : j < q.count) :
    ∃ r s', compare q s i j = some (r,s') ∧ s'.mem = s.mem ∧ ∀ c, Agrees q c → r = c (q.view s.mem i) (q.view s.mem j) :=
  ⟨_,⟨s.mem,s.calls + 1⟩,if_pos ⟨hi,hj⟩,rfl,fun c hc => by rw [hc.same]; rfl⟩

theorem med3_inside (s : Run) {i j k : Nat} (hi : i < q.count) (hj : j < q.count) (hk : k < q.count) :
    ∃ x s', med3 q s i j k = some (x,s') ∧ s'.mem = s.mem ∧ (x = i ∨ x = j ∨ x = k) := by
  obtain ⟨r,s₁,h₁,hm₁,-⟩ := compare_inside (q := q) s hi hj
  obtain ⟨r',s₂,h₂,hm₂,-⟩ := compare_inside (q := q) s₁ hj hk
  obtain ⟨r'',s₃,h₃,hm₃,-⟩ := compare_inside (q := q) s₂ hi hk
  have hm : s₃.mem = s.mem := by rw [hm₃,hm₂,hm₁]
  simp only [med3,h₁,Option.bind_some,h₂,h₃,Option.map_some]
  split_ifs
  · exact ⟨_,_,rfl,hm₂.trans hm₁,by simp⟩
  · exact ⟨_,_,rfl,hm,by simp⟩
  · exact ⟨_,_,rfl,hm,by simp⟩
  · exact ⟨_,_,rfl,hm₂.trans hm₁,by simp⟩
  · exact ⟨_,_,rfl,hm,by simp⟩
  · exact ⟨_,_,rfl,hm,by simp⟩

theorem sink_orders (origin a k : Nat) (s : Run) (hk : a + k < q.count) :
    ∃ s', sink q origin a k s = some s' ∧ Moved q a (a + k + 1) s s' ∧
      ∀ c, Agrees q c → ∀ top, Sinks c a (a + k) top (q.view s.mem) → Ordered c a (top + 1) (q.view s'.mem) := by
  induction k generalizing s with
  | zero => exact ⟨s,rfl,.refl q _ _ rfl,fun c _ top h => sinks_bottom h⟩
  | succ k ih =>
    obtain ⟨r,s₁,hcmp,hmem,hval⟩ := compare_inside (q := q) s (show a + k < q.count by omega) (show a + k + 1 < q.count by omega)
    rw [sink,hcmp,Option.bind_some]
    by_cases hr : 0 < r
    · obtain ⟨s₂,hswap,hview,hmoved⟩ := swap_moved origin s₁ (show a + k + 1 + 1 ≤ q.count by omega)
        (show a ≤ a + k + 1 by omega) (by omega) (show a ≤ a + k by omega) (by omega)
      obtain ⟨s',hrun,hmoved',horder⟩ := ih s₂ (by omega)
      refine ⟨s',by rw [if_pos hr,hswap,Option.bind_some,hrun],((Moved.refl q a _ hmem).trans hmoved).trans (hmoved'.mono le_rfl (by omega)),
        fun c hc top hsink => horder c hc top ?_⟩
      rw [hview,hmem]
      exact sinks_swap hc.total hsink (by omega) (hval c hc ▸ hr)
    · refine ⟨s₁,if_neg hr,.refl q _ _ hmem,fun c hc top hsink => ?_⟩
      rw [hmem]
      exact sinks_stop hc.total hsink (show c (q.view s.mem (a + k)) (q.view s.mem (a + k + 1)) ≤ 0 by rw [← hval c hc]; omega)

theorem insert_orders (origin a todo pm : Nat) (s : Run) (hpm : a < pm) (hend : pm + todo ≤ q.count) :
    ∃ s', insert q origin a todo pm s = some s' ∧ Moved q a (pm + todo) s s' ∧
      ∀ c, Agrees q c → Ordered c a pm (q.view s.mem) → Ordered c a (pm + todo) (q.view s'.mem) := by
  induction todo generalizing pm s with
  | zero => exact ⟨s,rfl,.refl q _ _ rfl,fun c _ h => h⟩
  | succ todo ih =>
    obtain ⟨s₁,hsink,hmoved,horder⟩ := sink_orders origin a (pm - a) s (show a + (pm - a) < q.count by omega)
    obtain ⟨s',hrun,hmoved',horder'⟩ := ih (pm + 1) s₁ (by omega) (by omega)
    rw [Nat.add_sub_cancel' hpm.le] at hmoved horder
    rw [Nat.add_right_comm,Nat.add_assoc] at hmoved' horder'
    exact ⟨s',by rw [insert,hsink,Option.bind_some,hrun],(hmoved.mono le_rfl (by omega)).trans hmoved',
      fun c hc h => horder' c hc (horder c hc pm (sinks_start h))⟩

theorem insertionSort_sorts (origin a n : Nat) (s : Run) (hend : a + n ≤ q.count) :
    ∃ s', insertionSort q origin a n s = some s' ∧ Sorts q a n s s' := by
  rcases Nat.eq_zero_or_pos n with rfl | hn
  · exact ⟨s,rfl,.refl q _ _ rfl,fun c _ => ordered_short (by omega) _⟩
  · obtain ⟨s',hrun,hmoved,horder⟩ := insert_orders origin a (n - 1) (a + 1) s (by omega) (show a + 1 + (n - 1) ≤ q.count by omega)
    rw [show a + 1 + (n - 1) = a + n by omega] at hmoved horder
    exact ⟨s',hrun,hmoved,fun c hc => horder c hc (ordered_short le_rfl _)⟩

theorem pivot_inside (s : Run) (hn : 7 ≤ n) (hend : a + n ≤ q.count) :
    ∃ x s', pivot q s a n = some (x,s') ∧ s'.mem = s.mem ∧ a ≤ x ∧ x < a + n := by
  rw [pivot]
  dsimp only
  split_ifs with hseven hforty
  · obtain ⟨l,s₁,h₁,hm₁,hl⟩ := med3_inside (q := q) s (show a < q.count by omega) (show a + n / 8 < q.count by omega)
      (show a + 2 * (n / 8) < q.count by omega)
    obtain ⟨m,s₂,h₂,hm₂,hm⟩ := med3_inside (q := q) s₁ (show a + n / 2 - n / 8 < q.count by omega)
      (show a + n / 2 < q.count by omega) (show a + n / 2 + n / 8 < q.count by omega)
    obtain ⟨r,s₃,h₃,hm₃,hr⟩ := med3_inside (q := q) s₂ (show a + (n - 1) - 2 * (n / 8) < q.count by omega)
      (show a + (n - 1) - n / 8 < q.count by omega) (show a + (n - 1) < q.count by omega)
    obtain ⟨x,s₄,h₄,hm₄,hx⟩ := med3_inside (q := q) s₃ (show l < q.count by omega) (show m < q.count by omega)
      (show r < q.count by omega)
    refine ⟨x,s₄,?_,by rw [hm₄,hm₃,hm₂,hm₁],by omega,by omega⟩
    simp only [h₁,Option.bind_some,h₂,h₃,h₄]
  · obtain ⟨x,s₁,h₁,hm₁,hx⟩ := med3_inside (q := q) s (show a < q.count by omega) (show a + n / 2 < q.count by omega)
      (show a + (n - 1) < q.count by omega)
    exact ⟨x,s₁,h₁,hm₁,by omega,by omega⟩
  · exact ⟨_,s,rfl,rfl,by omega,by omega⟩

end

end Qsort
