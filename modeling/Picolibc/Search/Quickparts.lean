import Mathlib
import Picolibc.Search.Quicksort

namespace Qsort

open ByteMemory RangeSort Comparison

structure Bounds (a n : Nat) (k : Cuts) : Prop where
  low : a < k.pa
  up : k.pa ≤ k.pb
  down : k.pc ≤ k.pd
  high : k.pd < a + n
  left : k.pa ≤ k.pc + 1
  right : k.pb ≤ k.pd + 1
  near : k.pb ≤ k.pc + 2

structure Grouped {α : Type} (c : α → α → Int) (a n : Nat) (k : Cuts) (f : Nat → α) : Prop where
  equalLow : ∀ i, a < i → i < k.pa → c (f i) (f a) = 0
  less : ∀ i, k.pa ≤ i → i < k.pb → c (f i) (f a) < 0
  more : ∀ i, k.pc < i → i ≤ k.pd → 0 < c (f i) (f a)
  equalHigh : ∀ i, k.pd < i → i < a + n → c (f i) (f a) = 0
  meet : k.pb ≤ k.pc + 1

section

variable {α : Type} {c : α → α → Int} {a n : Nat} {k : Cuts} {f : Nat → α}

theorem swap_elsewhere {i j x : Nat} (hi : x ≠ i) (hj : x ≠ j) : (f ∘ Equiv.swap i j) x = f x :=
  congrArg f (Equiv.swap_apply_of_ne_of_ne hi hj)

theorem swap_first (i j : Nat) : (f ∘ Equiv.swap i j) i = f j := congrArg f (Equiv.swap_apply_left i j)

theorem swap_second (i j : Nat) : (f ∘ Equiv.swap i j) j = f i := congrArg f (Equiv.swap_apply_right i j)

theorem grouped_less (hg : Grouped c a n k f) (hb : k.pb ≤ k.pc) (h : c (f k.pb) (f a) < 0) :
    Grouped c a n ⟨k.pa,k.pb + 1,k.pc,k.pd,k.swapCnt,Nat.succ_pos _⟩ f := by
  refine ⟨hg.equalLow,fun i hi hi' => ?_,hg.more,hg.equalHigh,by simp only; omega⟩
  rcases Nat.lt_succ_iff_lt_or_eq.mp hi' with hlt | rfl
  · exact hg.less i hi hlt
  · exact h

theorem grouped_equalLow (hg : Grouped c a n k f) (hk : Bounds a n k) (hb : k.pb ≤ k.pc) (h : c (f k.pb) (f a) = 0) :
    Grouped c a n ⟨k.pa + 1,k.pb + 1,k.pc,k.pd,true,Nat.succ_pos _⟩ (f ∘ Equiv.swap k.pa k.pb) := by
  obtain ⟨hlow,hup,hdown,hhigh,hleft,hright,hnear⟩ := hk
  have hpivot : (f ∘ Equiv.swap k.pa k.pb) a = f a := swap_elsewhere (by omega) (by omega)
  refine ⟨fun i hi hi' => ?_,fun i hi hi' => ?_,fun i hi hi' => ?_,fun i hi hi' => ?_,by simp only; omega⟩ <;> rw [hpivot] <;> dsimp only at hi hi'
  · rcases Nat.lt_succ_iff_lt_or_eq.mp hi' with hlt | rfl
    · rw [swap_elsewhere (by omega) (by omega)]
      exact hg.equalLow i hi hlt
    · rw [swap_first]
      exact h
  · rcases Nat.lt_succ_iff_lt_or_eq.mp hi' with hlt | rfl
    · rw [swap_elsewhere (by omega) (by omega)]
      exact hg.less i (by omega) hlt
    · rw [swap_second]
      exact hg.less k.pa le_rfl (by omega)
  · rw [swap_elsewhere (by omega) (by omega)]
    exact hg.more i hi hi'
  · rw [swap_elsewhere (by omega) (by omega)]
    exact hg.equalHigh i hi hi'

theorem grouped_more (hg : Grouped c a n k f) (hb : k.pb ≤ k.pc) (h : 0 < c (f k.pc) (f a)) :
    Grouped c a n ⟨k.pa,k.pb,k.pc - 1,k.pd,k.swapCnt,k.started⟩ f := by
  have hstart := k.started
  refine ⟨hg.equalLow,hg.less,fun i hi hi' => ?_,hg.equalHigh,by simp only; omega⟩
  dsimp only at hi hi'
  rcases Nat.eq_or_lt_of_le (show k.pc ≤ i by omega) with rfl | hlt
  · exact h
  · exact hg.more i hlt hi'

theorem grouped_equalHigh (hg : Grouped c a n k f) (hk : Bounds a n k) (hb : k.pb ≤ k.pc) (h : c (f k.pc) (f a) = 0) :
    Grouped c a n ⟨k.pa,k.pb,k.pc - 1,k.pd - 1,true,k.started⟩ (f ∘ Equiv.swap k.pc k.pd) := by
  obtain ⟨hlow,hup,hdown,hhigh,hleft,hright,hnear⟩ := hk
  have hpivot : (f ∘ Equiv.swap k.pc k.pd) a = f a := swap_elsewhere (by omega) (by omega)
  refine ⟨fun i hi hi' => ?_,fun i hi hi' => ?_,fun i hi hi' => ?_,fun i hi hi' => ?_,by simp only; omega⟩ <;> rw [hpivot] <;> dsimp only at hi hi'
  · rw [swap_elsewhere (by omega) (by omega)]
    exact hg.equalLow i hi hi'
  · rw [swap_elsewhere (by omega) (by omega)]
    exact hg.less i hi hi'
  · rcases Nat.eq_or_lt_of_le (show k.pc ≤ i by omega) with rfl | hlt
    · rw [swap_first]
      exact hg.more k.pd (by omega) le_rfl
    · rw [swap_elsewhere (by omega) (by omega)]
      exact hg.more i hlt (by omega)
  · rcases Nat.eq_or_lt_of_le (show k.pd ≤ i by omega) with rfl | hlt
    · rw [swap_second]
      exact h
    · rw [swap_elsewhere (by omega) (by omega)]
      exact hg.equalHigh i hlt hi'

theorem grouped_cross (hg : Grouped c a n k f) (hk : Bounds a n k) (hb : k.pb < k.pc) (hless : c (f k.pc) (f a) < 0)
    (hmore : 0 < c (f k.pb) (f a)) :
    Grouped c a n ⟨k.pa,k.pb + 1,k.pc - 1,k.pd,true,Nat.succ_pos _⟩ (f ∘ Equiv.swap k.pb k.pc) := by
  obtain ⟨hlow,hup,hdown,hhigh,hleft,hright,hnear⟩ := hk
  have hpivot : (f ∘ Equiv.swap k.pb k.pc) a = f a := swap_elsewhere (by omega) (by omega)
  refine ⟨fun i hi hi' => ?_,fun i hi hi' => ?_,fun i hi hi' => ?_,fun i hi hi' => ?_,by simp only; omega⟩ <;> rw [hpivot] <;> dsimp only at hi hi'
  · rw [swap_elsewhere (by omega) (by omega)]
    exact hg.equalLow i hi hi'
  · rcases Nat.lt_succ_iff_lt_or_eq.mp hi' with hlt | rfl
    · rw [swap_elsewhere (by omega) (by omega)]
      exact hg.less i hi hlt
    · rw [swap_first]
      exact hless
  · rcases Nat.eq_or_lt_of_le (show k.pc ≤ i by omega) with rfl | hlt
    · rw [swap_second]
      exact hmore
    · rw [swap_elsewhere (by omega) (by omega)]
      exact hg.more i hlt hi'
  · rw [swap_elsewhere (by omega) (by omega)]
    exact hg.equalHigh i hi hi'

end

structure Scanned (q : Sorting) (a n : Nat) (k k' : Cuts) (s s' : Run) : Prop where
  bounds : Bounds a n k'
  narrower : k.pb ≤ k'.pb ∧ k'.pc ≤ k.pc
  moved : Moved q (a + 1) (a + n) s s'
  grouped : ∀ c, Agrees q c → Grouped c a n k (q.view s.mem) → Grouped c a n k' (q.view s'.mem)

section

variable {q : Sorting} {s s' s'' : Run} {a n origin : Nat} {k k' k'' : Cuts}

theorem Scanned.refl (hk : Bounds a n k) (h : s'.mem = s.mem) : Scanned q a n k k s s' :=
  ⟨hk,⟨le_rfl,le_rfl⟩,.refl q _ _ h,fun _ _ hg => by rw [h]; exact hg⟩

theorem Scanned.trans (h : Scanned q a n k k' s s') (h' : Scanned q a n k' k'' s' s'') : Scanned q a n k k'' s s'' :=
  ⟨h'.bounds,⟨h.narrower.1.trans h'.narrower.1,h'.narrower.2.trans h.narrower.2⟩,h.moved.trans h'.moved,
    fun c hc hg => h'.grouped c hc (h.grouped c hc hg)⟩

theorem scanUp_scans (s : Run) (hk : Bounds a n k) (hend : a + n ≤ q.count) :
    ∃ k' s', scanUp q origin a k s = some (k',s') ∧ Scanned q a n k k' s s' ∧
      ∀ c, Agrees q c → k'.pb ≤ k'.pc → 0 < c (q.view s'.mem k'.pb) (q.view s'.mem a) := by
  induction hm : k.pc + 1 - k.pb using Nat.strong_induction_on generalizing k s with
  | _ m ih =>
    obtain ⟨hlow,hup,hdown,hhigh,hleft,hright,hnear⟩ := hk
    rw [scanUp]
    by_cases hb : k.pb ≤ k.pc
    · obtain ⟨r,s₁,hcmp,hmem,hval⟩ := compare_inside (q := q) s (show k.pb < q.count by omega) (show a < q.count by omega)
      rw [if_pos hb,hcmp,Option.bind_some]
      dsimp only
      by_cases hle : r ≤ 0
      · rw [if_pos hle]
        by_cases hz : r = 0
        · obtain ⟨s₂,hswap,hview,hmoved⟩ := swap_moved origin s₁ hend (show a + 1 ≤ k.pa by omega)
            (show k.pa < a + n by omega) (show a + 1 ≤ k.pb by omega) (show k.pb < a + n by omega)
          have hstep : Scanned q a n k ⟨k.pa + 1,k.pb + 1,k.pc,k.pd,true,Nat.succ_pos _⟩ s s₂ := by
            refine ⟨⟨by dsimp only; omega,by dsimp only; omega,hdown,hhigh,by dsimp only; omega,by dsimp only; omega,by dsimp only; omega⟩,
              ⟨Nat.le_succ _,le_rfl⟩,(Moved.refl q _ _ hmem).trans hmoved,fun c hc hg => ?_⟩
            rw [hview,hmem]
            exact grouped_equalLow hg ⟨hlow,hup,hdown,hhigh,hleft,hright,hnear⟩ hb (by rw [← hval c hc]; exact hz)
          obtain ⟨k',s',hrun,hscan,hstop⟩ := ih _ (by dsimp only; omega) s₂ hstep.bounds rfl
          exact ⟨k',s',by rw [if_pos hz,hswap,Option.bind_some,hrun],hstep.trans hscan,hstop⟩
        · have hstep : Scanned q a n k ⟨k.pa,k.pb + 1,k.pc,k.pd,k.swapCnt,Nat.succ_pos _⟩ s s₁ := by
            refine ⟨⟨hlow,by dsimp only; omega,hdown,hhigh,hleft,by dsimp only; omega,by dsimp only; omega⟩,⟨Nat.le_succ _,le_rfl⟩,
              .refl q _ _ hmem,fun c hc hg => ?_⟩
            rw [hmem]
            exact grouped_less hg hb (by rw [← hval c hc]; omega)
          obtain ⟨k',s',hrun,hscan,hstop⟩ := ih _ (by dsimp only; omega) s₁ hstep.bounds rfl
          exact ⟨k',s',by rw [if_neg hz,hrun],hstep.trans hscan,hstop⟩
      · refine ⟨k,s₁,by rw [if_neg hle],.refl ⟨hlow,hup,hdown,hhigh,hleft,hright,hnear⟩ hmem,fun c hc _ => ?_⟩
        rw [hmem,← hval c hc]
        omega
    · exact ⟨k,s,if_neg hb,.refl ⟨hlow,hup,hdown,hhigh,hleft,hright,hnear⟩ rfl,fun c _ h => absurd h hb⟩

theorem scanDown_scans (s : Run) (hk : Bounds a n k) (hend : a + n ≤ q.count)
    (hmore : ∀ c, Agrees q c → k.pb ≤ k.pc → 0 < c (q.view s.mem k.pb) (q.view s.mem a)) :
    ∃ k' s', scanDown q origin a k s = some (k',s') ∧ Scanned q a n k k' s s' ∧ ∀ c, Agrees q c → k'.pb ≤ k'.pc →
      0 < c (q.view s'.mem k'.pb) (q.view s'.mem a) ∧ c (q.view s'.mem k'.pc) (q.view s'.mem a) < 0 := by
  induction hm : k.pc + 1 - k.pb using Nat.strong_induction_on generalizing k s with
  | _ m ih =>
    have hstart := k.started
    obtain ⟨hlow,hup,hdown,hhigh,hleft,hright,hnear⟩ := hk
    rw [scanDown]
    by_cases hb : k.pb ≤ k.pc
    · obtain ⟨r,s₁,hcmp,hmem,hval⟩ := compare_inside (q := q) s (show k.pc < q.count by omega) (show a < q.count by omega)
      rw [if_pos hb,hcmp,Option.bind_some]
      dsimp only
      by_cases hle : 0 ≤ r
      · rw [if_pos hle]
        by_cases hz : r = 0
        · obtain ⟨s₂,hswap,hview,hmoved⟩ := swap_moved origin s₁ hend (show a + 1 ≤ k.pc by omega)
            (show k.pc < a + n by omega) (show a + 1 ≤ k.pd by omega) (show k.pd < a + n by omega)
          have hstep : Scanned q a n k ⟨k.pa,k.pb,k.pc - 1,k.pd - 1,true,k.started⟩ s s₂ := by
            refine ⟨⟨hlow,hup,by dsimp only; omega,by dsimp only; omega,by dsimp only; omega,by dsimp only; omega,by dsimp only; omega⟩,
              ⟨le_rfl,Nat.sub_le _ _⟩,(Moved.refl q _ _ hmem).trans hmoved,fun c hc hg => ?_⟩
            rw [hview,hmem]
            exact grouped_equalHigh hg ⟨hlow,hup,hdown,hhigh,hleft,hright,hnear⟩ hb (by rw [← hval c hc]; exact hz)
          obtain ⟨k',s',hrun,hscan,hstop⟩ := ih _ (by dsimp only; omega) s₂ hstep.bounds (fun c hc hb' => by
            dsimp only at hb' ⊢
            rw [hview,hmem,swap_elsewhere (by omega) (by omega),swap_elsewhere (by omega) (by omega)]
            exact hmore c hc hb) rfl
          exact ⟨k',s',by rw [if_pos hz,hswap,Option.bind_some,hrun],hstep.trans hscan,hstop⟩
        · have hstep : Scanned q a n k ⟨k.pa,k.pb,k.pc - 1,k.pd,k.swapCnt,k.started⟩ s s₁ := by
            refine ⟨⟨hlow,hup,by dsimp only; omega,hhigh,by dsimp only; omega,hright,by dsimp only; omega⟩,⟨le_rfl,Nat.sub_le _ _⟩,
              .refl q _ _ hmem,fun c hc hg => ?_⟩
            rw [hmem]
            exact grouped_more hg hb (by rw [← hval c hc]; omega)
          obtain ⟨k',s',hrun,hscan,hstop⟩ := ih _ (by dsimp only; omega) s₁ hstep.bounds (fun c hc _ => by
            rw [hmem]
            exact hmore c hc hb) rfl
          exact ⟨k',s',by rw [if_neg hz,hrun],hstep.trans hscan,hstop⟩
      · refine ⟨k,s₁,by rw [if_neg hle],.refl ⟨hlow,hup,hdown,hhigh,hleft,hright,hnear⟩ hmem,fun c hc _ => ?_⟩
        rw [hmem]
        exact ⟨hmore c hc hb,by rw [← hval c hc]; omega⟩
    · exact ⟨k,s,if_neg hb,.refl ⟨hlow,hup,hdown,hhigh,hleft,hright,hnear⟩ rfl,fun c _ h => absurd h hb⟩

theorem partition_scans (s : Run) (hk : Bounds a n k) (hend : a + n ≤ q.count) {fuel : Nat} (hf : k.pc + 1 - k.pb < fuel) :
    ∃ k' s', partition q origin a fuel k s = some (k',s') ∧ Scanned q a n k k' s s' ∧ k'.pc < k'.pb := by
  induction fuel generalizing k s with
  | zero => exact absurd hf (Nat.not_lt_zero _)
  | succ fuel ih =>
    obtain ⟨k₁,s₁,hup,hscan,hmore⟩ := @scanUp_scans q a n origin k s hk hend
    obtain ⟨k₂,s₂,hdown,hscan',hcross⟩ := @scanDown_scans q a n origin k₁ s₁ hscan.bounds hend hmore
    have hboth := hscan.trans hscan'
    rw [partition,hup,Option.bind_some,hdown,Option.bind_some]
    dsimp only
    by_cases hdone : k₂.pc < k₂.pb
    · exact ⟨k₂,s₂,if_pos hdone,hboth,hdone⟩
    · have hbounds := hboth.bounds
      obtain ⟨hlow,hup',hdown',hhigh,hleft,hright,hnear⟩ := hbounds
      obtain ⟨hn₁,hn₂⟩ := hboth.narrower
      have hstart := k₂.started
      obtain ⟨s₃,hswap,hview,hmoved⟩ := swap_moved origin s₂ hend (show a + 1 ≤ k₂.pb by omega)
        (show k₂.pb < a + n by omega) (show a + 1 ≤ k₂.pc by omega) (show k₂.pc < a + n by omega)
      have hstep : Scanned q a n k₂ ⟨k₂.pa,k₂.pb + 1,k₂.pc - 1,k₂.pd,true,Nat.succ_pos _⟩ s₂ s₃ := by
        refine ⟨⟨hlow,by dsimp only; omega,by dsimp only; omega,hhigh,by dsimp only; omega,by dsimp only; omega,by dsimp only; omega⟩,
          ⟨Nat.le_succ _,Nat.sub_le _ _⟩,hmoved,fun c hc hg => ?_⟩
        obtain ⟨hpos,hneg⟩ := hcross c hc (by omega)
        have hne : k₂.pb ≠ k₂.pc := fun he => by
          rw [he] at hpos
          omega
        rw [hview]
        exact grouped_cross hg hboth.bounds (by omega) hneg hpos
      obtain ⟨k',s',hrun,hscan'',hlast⟩ := ih s₃ hstep.bounds (by dsimp only; omega)
      exact ⟨k',s',by rw [if_neg hdone,hswap,Option.bind_some,hrun],(hboth.trans hstep).trans hscan'',hlast⟩

theorem rearrange_parts (s : Run) (hk : Bounds a n k) (hend : a + n ≤ q.count) (hlast : k.pc < k.pb) :
    ∃ s', rearrange q origin a n k s = some s' ∧ Moved q a (a + n) s s' ∧ ∀ c, Agrees q c → Grouped c a n k (q.view s.mem) →
      Parted c a (a + (k.pb - k.pa)) (a + n - (k.pd - k.pc)) (a + n) (q.view s.mem a) (q.view s'.mem) := by
  obtain ⟨hlow,hup,hdown,hhigh,hleft,hright,hnear⟩ := hk
  rw [rearrange]
  dsimp only
  generalize hr : (if k.pa - a < k.pb - k.pa then k.pa - a else k.pb - k.pa) = r
  generalize hr' : (if k.pd - k.pc < a + n - k.pd - 1 then k.pd - k.pc else a + n - k.pd - 1) = r'
  have hmin : r ≤ k.pa - a ∧ r ≤ k.pb - k.pa ∧ (r = k.pa - a ∨ r = k.pb - k.pa) := by
    split_ifs at hr <;> omega
  have hmin' : r' ≤ k.pd - k.pc ∧ r' ≤ a + n - k.pd - 1 ∧ (r' = k.pd - k.pc ∨ r' = a + n - k.pd - 1) := by
    split_ifs at hr' <;> omega
  obtain ⟨s₁,hrun₁,hview₁,hout₁⟩ := vecswap_view q origin s (show a + r ≤ q.count by omega) (show k.pb - r + r ≤ q.count by omega)
  obtain ⟨s₂,hrun₂,hview₂,hout₂⟩ := vecswap_view q origin s₁ (show k.pb + r' ≤ q.count by omega) (show a + n - r' + r' ≤ q.count by omega)
  have hmoved₁ : Moved q a (a + n) s s₁ :=
    ⟨by rw [hview₁]; exact exchanges_shuffled le_rfl (by omega) (by omega) (by omega) _,hout₁⟩
  have hmoved₂ : Moved q a (a + n) s₁ s₂ :=
    ⟨by rw [hview₂]; exact exchanges_shuffled (by omega) (by omega) (by omega) (by omega) _,hout₂⟩
  refine ⟨s₂,by rw [hrun₁,Option.bind_some,hrun₂],hmoved₁.trans hmoved₂,fun c hc hg => ?_⟩
  have hmeet := hg.meet
  have hself : c (q.view s.mem a) (q.view s.mem a) = 0 := by
    have hflip := hc.total.flip (q.view s.mem a) (q.view s.mem a)
    omega
  generalize q.view s.mem = f at *
  have hlowEq : ∀ i, a ≤ i → i < k.pa → c (f i) (f a) = 0 := fun i hi hi' => by
    rcases Nat.eq_or_lt_of_le hi with rfl | hlt
    · exact hself
    · exact hg.equalLow i hlt hi'
  have hfirst : ∀ x, q.view s₁.mem x = if a ≤ x ∧ x < a + r then f (k.pb - r + (x - a)) else
      if k.pb - r ≤ x ∧ x < k.pb - r + r then f (a + (x - (k.pb - r))) else f x := fun x => by
    rw [hview₁]
    exact exchanges_apart (by omega) f x
  have hsecond : ∀ x, q.view s₂.mem x = if k.pb ≤ x ∧ x < k.pb + r' then q.view s₁.mem (a + n - r' + (x - k.pb)) else
      if a + n - r' ≤ x ∧ x < a + n - r' + r' then q.view s₁.mem (k.pb + (x - (a + n - r'))) else q.view s₁.mem x := fun x => by
    rw [hview₂]
    exact exchanges_apart (by omega) _ x
  have hright₁ : ∀ x, k.pb ≤ x → q.view s₁.mem x = f x := fun x hx => by
    rw [hfirst,if_neg (by omega),if_neg (by omega)]
  have hleft₂ : ∀ x, x < k.pb → q.view s₂.mem x = q.view s₁.mem x := fun x hx => by
    rw [hsecond,if_neg (by omega),if_neg (by omega)]
  refine ⟨by omega,by omega,by omega,fun i hi hi' => ?_,fun i hi hi' => ?_,fun i hi hi' => ?_⟩
  · rw [hleft₂ i (by omega),hfirst]
    by_cases hin : i < a + r
    · rw [if_pos ⟨hi,hin⟩]
      exact hg.less _ (by omega) (by omega)
    · rw [if_neg (by omega),if_neg (by omega)]
      exact hg.less i (by omega) (by omega)
  · by_cases hb : i < k.pb
    · rw [hleft₂ i hb,hfirst,if_neg (by omega)]
      by_cases hin : k.pb - r ≤ i
      · rw [if_pos (by omega)]
        exact hlowEq _ (by omega) (by omega)
      · rw [if_neg (by omega)]
        exact hlowEq i (by omega) (by omega)
    · rw [hsecond]
      by_cases hin : i < k.pb + r'
      · rw [if_pos (by omega),hright₁ _ (by omega)]
        exact hg.equalHigh _ (by omega) (by omega)
      · rw [if_neg (by omega),if_neg (by omega),hright₁ i (by omega)]
        exact hg.equalHigh i (by omega) (by omega)
  · rw [hsecond,if_neg (by omega)]
    by_cases hin : a + n - r' ≤ i
    · rw [if_pos (by omega),hright₁ _ (by omega)]
      exact hg.more _ (by omega) (by omega)
    · rw [if_neg (by omega),hright₁ i (by omega)]
      exact hg.more i (by omega) (by omega)

end

end Qsort
