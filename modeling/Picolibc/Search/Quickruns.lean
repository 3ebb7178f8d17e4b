import Mathlib
import Picolibc.Search.Quickparts

namespace Qsort

open ByteMemory RangeSort Comparison

def Drained (q : Sorting) : List (Nat × Nat) → Run → Run → Prop
  | [], s, s' => s' = s
  | p :: rest, s, s' => ∃ s₁, Sorts q p.1 p.2 s s₁ ∧ Drained q rest s₁ s'

def cost (n : Nat) (stack : List (Nat × Nat)) : Nat := 2 * n - 1 + (stack.map fun p => 2 * p.2 - 1).sum

def Stacked (q : Sorting) (stack : List (Nat × Nat)) : Prop := ∀ p ∈ stack, 1 < p.2 ∧ p.1 + p.2 ≤ q.count

structure Splits (q : Sorting) (a n d r : Nat) (s s' : Run) : Prop where
  moved : Moved q a (a + n) s s'
  apart : d + r ≤ n
  parted : ∀ c, Agrees q c → ∃ v, Parted c a (a + d) (a + n - r) (a + n) v (q.view s'.mem)

section

variable {q : Sorting} {s s' s₁ s₂ : Run} {a n d r origin fuel : Nat} {stack : List (Nat × Nat)}

theorem Sorts.short (q : Sorting) (a : Nat) {n : Nat} (hn : n ≤ 1) (s : Run) : Sorts q a n s s :=
  ⟨.refl q _ _ rfl,fun _ _ => ordered_short (by omega) _⟩

theorem Sorts.after (hm : Moved q a (a + n) s s') (h : Sorts q a n s' s₁) : Sorts q a n s s₁ := ⟨hm.trans h.moved,h.ordered⟩

theorem Splits.leftFirst (h : Splits q a n d r s s') (hl : Sorts q a d s' s₁) (hr : Sorts q (a + n - r) r s₁ s₂) :
    Sorts q a n s s₂ := by
  obtain ⟨hl,horder⟩ := hl
  obtain ⟨hr,horder'⟩ := hr
  have hd := h.apart
  rw [Nat.sub_add_cancel (by omega)] at hr horder'
  refine ⟨(h.moved.trans (hl.mono le_rfl (by omega))).trans (hr.mono (by omega) le_rfl),fun c hc => ?_⟩
  obtain ⟨v,hp⟩ := h.parted c hc
  refine ((hp.left hl.shuffled).right hr.shuffled).ordered hc.total ((horder c hc).same fun i _ hi => ?_) (horder' c hc)
  exact hr.shuffled.outside (by omega)

theorem Splits.rightFirst (h : Splits q a n d r s s') (hr : Sorts q (a + n - r) r s' s₁) (hl : Sorts q a d s₁ s₂) :
    Sorts q a n s s₂ := by
  obtain ⟨hl,horder⟩ := hl
  obtain ⟨hr,horder'⟩ := hr
  have hd := h.apart
  rw [Nat.sub_add_cancel (by omega)] at hr horder'
  refine ⟨(h.moved.trans (hr.mono (by omega) le_rfl)).trans (hl.mono le_rfl (by omega)),fun c hc => ?_⟩
  obtain ⟨v,hp⟩ := h.parted c hc
  refine ((hp.right hr.shuffled).left hl.shuffled).ordered hc.total (horder c hc) ((horder' c hc).same fun i hi _ => ?_)
  exact hl.shuffled.outside (by omega)

theorem partition_runs (origin : Nat) (s : Run) (hn : 7 ≤ n) (hend : a + n ≤ q.count) :
    ∃ x s₁ s₂ k s₃, pivot q s a n = some (x,s₁) ∧ swap q origin s₁ a x = some s₂ ∧
      partition q origin a n ⟨a + 1,a + 1,a + (n - 1),a + (n - 1),false,Nat.succ_pos _⟩ s₂ = some (k,s₃) ∧
      Moved q a (a + n) s s₃ ∧ Bounds a n k ∧ k.pc < k.pb ∧ ∀ c, Agrees q c → Grouped c a n k (q.view s₃.mem) := by
  obtain ⟨x,s₁,hpivot,hmem,hx,hx'⟩ := pivot_inside (q := q) s hn hend
  obtain ⟨s₂,hswap,-,hmoved⟩ := swap_moved origin s₁ hend le_rfl (by omega) hx hx'
  have hstart : Bounds a n ⟨a + 1,a + 1,a + (n - 1),a + (n - 1),false,Nat.succ_pos _⟩ :=
    ⟨by dsimp only; omega,le_rfl,le_rfl,by dsimp only; omega,by dsimp only; omega,by dsimp only; omega,by dsimp only; omega⟩
  obtain ⟨k,s₃,hrun,hscan,hlast⟩ := @partition_scans q a n origin _ s₂ hstart hend n (by dsimp only; omega)
  refine ⟨x,s₁,s₂,k,s₃,hpivot,hswap,hrun,((Moved.refl q _ _ hmem).trans hmoved).trans (hscan.moved.mono (by omega) le_rfl),hscan.bounds,
    hlast,fun c hc => hscan.grouped c hc ⟨?_,?_,?_,?_,?_⟩⟩ <;> dsimp only
  · intro i hi hi'
    omega
  · intro i hi hi'
    omega
  · intro i hi hi'
    omega
  · intro i hi hi'
    omega
  · omega

theorem rearrange_splits (s : Run) {k : Cuts} (hm : Moved q a (a + n) s s') (hk : Bounds a n k) (hlast : k.pc < k.pb) (hend : a + n ≤ q.count)
    (hg : ∀ c, Agrees q c → Grouped c a n k (q.view s'.mem)) :
    ∃ s₁, rearrange q origin a n k s' = some s₁ ∧ Splits q a n (k.pb - k.pa) (k.pd - k.pc) s s₁ := by
  obtain ⟨s₁,hrun,hmoved,hparts⟩ := @rearrange_parts q a n origin k s' hk hend hlast
  obtain ⟨hlow,hup,hdown,hhigh,hleft,hright,hnear⟩ := hk
  exact ⟨s₁,hrun,hm.trans hmoved,by omega,fun c hc => ⟨_,hparts c hc (hg c hc)⟩⟩

theorem sortLoop_drains (hend : a + n ≤ q.count) (hstack : Stacked q stack) (hsome : 0 < n ∨ stack = [])
    (hf : cost n stack < fuel) : ∃ s₁ s', sortLoop q origin fuel a n stack s = some s' ∧ Sorts q a n s s₁ ∧ Drained q stack s₁ s' := by
  induction fuel generalizing origin a n stack s with
  | zero => exact absurd hf (Nat.not_lt_zero _)
  | succ fuel ih =>
    have hpop : ∀ s₁, ∃ s', pop (sortLoop q origin fuel) stack s₁ = some s' ∧ Drained q stack s₁ s' := fun s₁ => by
      cases stack with
      | nil => exact ⟨s₁,rfl,rfl⟩
      | cons p rest =>
        obtain ⟨hp,hp'⟩ := hstack p List.mem_cons_self
        have hcost : cost p.2 rest < fuel := by
          simp only [cost,List.map_cons,List.sum_cons,reduceCtorEq,or_false] at hf hsome ⊢
          omega
        obtain ⟨s₂,s',hrun,hsort,hdrain⟩ := @ih s₁ p.1 p.2 origin rest hp' (fun x hx => hstack x (List.mem_cons_of_mem p hx)) (.inl (by omega)) hcost
        exact ⟨s',hrun,s₂,hsort,hdrain⟩
    rw [sortLoop]
    by_cases hn : n < 7
    · obtain ⟨s₁,hrun,hsort⟩ := insertionSort_sorts origin a n s hend
      obtain ⟨s',hrun',hdrain⟩ := hpop s₁
      exact ⟨s₁,s',by rw [if_pos hn,hrun,Option.bind_some,hrun'],hsort,hdrain⟩
    · obtain ⟨x,s₁,s₂,k,s₃,hpivot,hswap,hpart,hmoved,hk,hlast,hg⟩ := partition_runs origin s (not_lt.mp hn) hend
      rw [if_neg hn,hpivot,Option.bind_some]
      dsimp only
      rw [hswap,Option.bind_some,hpart,Option.bind_some]
      dsimp only
      by_cases hcnt : k.swapCnt = false
      · obtain ⟨s₄,hrun,hsort⟩ := insertionSort_sorts origin a n s₃ hend
        obtain ⟨s',hrun',hdrain⟩ := hpop s₄
        exact ⟨s₄,s',by rw [if_pos hcnt,hrun,Option.bind_some,hrun'],hsort.after hmoved,hdrain⟩
      · obtain ⟨s₄,hrun,hsplit⟩ := @rearrange_splits q s₃ a n origin s k hmoved hk hlast hend hg
        obtain ⟨hlow,hup,hdown,hhigh,hleft,hright,hnear⟩ := hk
        rw [if_neg hcnt,hrun,Option.bind_some]
        generalize hd : k.pb - k.pa = d at *
        generalize hr : k.pd - k.pc = r at *
        have happart := hsplit.apart
        obtain ⟨larger,smaller,hl,hs,hsize,hfit,hjoin⟩ : ∃ larger smaller : Nat × Nat,
            (if d < r then (a + n - r,r) else (a,d)) = larger ∧ (if d < r then (a,d) else (a + n - r,r)) = smaller ∧
            (smaller.2 ≤ larger.2 ∧ smaller.2 + larger.2 ≤ n ∧ larger.2 < n) ∧
            (smaller.1 + smaller.2 ≤ q.count ∧ larger.1 + larger.2 ≤ q.count) ∧
            ∀ s₅ s₆, Sorts q smaller.1 smaller.2 s₄ s₅ → Sorts q larger.1 larger.2 s₅ s₆ → Sorts q a n s s₆ := by
          by_cases hdr : d < r
          · exact ⟨_,_,if_pos hdr,if_pos hdr,⟨by dsimp only; omega,by dsimp only; omega,by dsimp only; omega⟩,
              ⟨by dsimp only; omega,by dsimp only; omega⟩,fun _ _ => hsplit.leftFirst⟩
          · exact ⟨_,_,if_neg hdr,if_neg hdr,⟨by dsimp only; omega,by dsimp only; omega,by dsimp only; omega⟩,
              ⟨by dsimp only; omega,by dsimp only; omega⟩,fun _ _ => hsplit.rightFirst⟩
        rw [hl,hs]
        have hiterate : ∀ s₅, Sorts q smaller.1 smaller.2 s₄ s₅ → ∃ s₆ s', (if 1 < larger.2 then
            sortLoop q origin fuel larger.1 larger.2 stack s₅ else pop (sortLoop q origin fuel) stack s₅) = some s' ∧
            Sorts q a n s s₆ ∧ Drained q stack s₆ s' := fun s₅ hs₅ => by
          by_cases hmany : 1 < larger.2
          · obtain ⟨s₆,s',hrun',hsort,hdrain⟩ := @ih s₅ larger.1 larger.2 origin stack hfit.2 hstack (.inl (by omega))
              (by unfold cost at hf ⊢; omega)
            exact ⟨s₆,s',by rw [if_pos hmany,hrun'],hjoin _ _ hs₅ hsort,hdrain⟩
          · obtain ⟨s',hrun',hdrain⟩ := hpop s₅
            exact ⟨s₅,s',by rw [if_neg hmany,hrun'],hjoin _ _ hs₅ (.short q _ (by omega) s₅),hdrain⟩
        by_cases hmany : 1 < smaller.2
        · rw [if_pos hmany]
          by_cases hroom : stack.length < 8
          · obtain ⟨s₅,s',hrun',hsort,s₆,hsort',hdrain⟩ := @ih s₄ smaller.1 smaller.2 origin (larger :: stack) hfit.1
              (List.forall_mem_cons.mpr ⟨⟨by omega,hfit.2⟩,hstack⟩) (.inl (by omega))
              (by simp only [cost,List.map_cons,List.sum_cons] at hf ⊢; omega)
            exact ⟨s₆,s',by rw [if_pos hroom,hrun'],hjoin _ _ hsort hsort',hdrain⟩
          · obtain ⟨s₅,s',hrun',hsort,rfl⟩ := @ih s₄ smaller.1 smaller.2 smaller.1 [] hfit.1 (fun p hp => absurd hp (List.not_mem_nil))
              (.inr rfl) (by simp only [cost,List.map_nil,List.sum_nil] at hf ⊢; omega)
            rw [if_neg hroom,hrun',Option.bind_some]
            exact hiterate _ hsort
        · rw [if_neg hmany]
          exact hiterate s₄ (.short q _ (by omega) s₄)

theorem qsort_sorts (q : Sorting) (s : Run) : ∃ s', qsort q s = some s' ∧
    ((List.range q.count).map (q.view s'.mem)).Perm ((List.range q.count).map (q.view s.mem)) ∧
    (∀ x, x < q.base ∨ q.base + q.count * q.es ≤ x → s'.mem x = s.mem x) ∧
    ∀ c, Agrees q c → Ordered c 0 q.count (q.view s'.mem) := by
  obtain ⟨s₁,s',hrun,hsort,rfl⟩ := @sortLoop_drains q s 0 q.count 0 (2 * q.count + 1) [] (by omega)
    (fun p hp => absurd hp List.not_mem_nil) (.inr rfl) (by simp only [cost,List.map_nil,List.sum_nil]; omega)
  obtain ⟨hmoved,horder⟩ := hsort
  rw [Nat.zero_add] at hmoved horder
  exact ⟨_,hrun,hmoved.shuffled.perm,hmoved.outside,horder⟩

def firstByte (x y : List UInt8) : Int := (x.getD 0 0).toNat - (y.getD 0 0).toNat

theorem pairs_sized : 0 < 2 := by decide

theorem pairs_longs : 0 < 8 := by decide

theorem pairs_ints : 0 < 4 := by decide

def pairs : Sorting := ⟨16,9,2,8,4,fun _ => firstByte,pairs_sized,pairs_longs,pairs_ints⟩

theorem pairs_agree : Agrees pairs firstByte where
  total := ⟨fun _ _ => by unfold firstByte; omega,fun _ _ _ => by unfold firstByte; omega⟩
  same _ := rfl

theorem qsort_sorts_pairs : ∃ s', qsort pairs ⟨fun x => UInt8.ofNat (7 * x),0⟩ = some s' ∧ Ordered firstByte 0 9 (pairs.view s'.mem) := by
  obtain ⟨s',hrun,-,-,horder⟩ := qsort_sorts pairs ⟨fun x => UInt8.ofNat (7 * x),0⟩
  exact ⟨s',hrun,horder firstByte pairs_agree⟩

end

end Qsort
