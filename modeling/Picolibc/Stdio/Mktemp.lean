import Mathlib

namespace Mktemp

inductive Errno where
  | einval
  | eacces
  | enoent
  | eexist
  | other (code : Nat)
deriving DecidableEq,Repr

inductive OpenResult where
  | fd (n : Nat)
  | failed (e : Errno)
deriving DecidableEq,Repr

structure World where
  random : Nat → Nat
  opens : Nat → OpenResult

structure Buffer where
  mem : List UInt8
  stores : List (Nat × UInt8)
deriving Repr

def Buffer.store (b : Buffer) (i : Nat) (c : UInt8) : Buffer := ⟨b.mem.set i c,b.stores ++ [(i,c)]⟩

inductive Outcome where
  | invalid
  | failed (e : Errno)
  | exhausted
  | opened (fd : Nat)
  | named
deriving DecidableEq,Repr

def numNames : Nat := 36 * 36 * 36 * 36 * 36 * 36

def numAttempt : Nat := 36 * 36 * 36

def letterX : UInt8 := 88

def letterA : UInt8 := 97

def strlen (mem : List UInt8) : Nat := (mem.takeWhile (· ≠ 0)).length

def scan : Nat → Buffer → Nat × Buffer
  | 0, b => (0,b)
  | trv + 1, b =>
    if b.mem.getD trv 0 = letterX then scan trv (b.store trv letterA) else (trv,b)

def nameChar (filename : Nat) : UInt8 :=
  let c := filename % 36
  if c < 10 then UInt8.ofNat (c + 48) else UInt8.ofNat (c + 97 - 10)

def fill (start : Nat) : Nat → Nat → Nat → Buffer → Buffer
  | 0, _, _, b => b
  | k + 1, i, filename, b => fill start k (i + 1) (filename / 36) (b.store (start + i) (nameChar filename))

def attempts (w : World) (doopen : Bool) (start : Nat) : Nat → Nat → Nat → Buffer → Outcome × Buffer
  | 0, _, _, b => (.exhausted,b)
  | k + 1, drawn, opened, b =>
    let b := fill start 6 0 (w.random drawn % numNames) b
    match w.opens opened with
    | .fd _ => attempts w doopen start k (drawn + 1) (opened + 1) b
    | .failed .eacces => attempts w doopen start k (drawn + 1) (opened + 1) b
    | .failed .enoent =>
      if doopen then
        match w.opens (opened + 1) with
        | .fd n => (.opened n,b)
        | .failed .eexist => attempts w doopen start k (drawn + 1) (opened + 2) b
        | .failed e => (.failed e,b)
      else (.named,b)
    | .failed e => (.failed e,b)

def gettemp (w : World) (mem : List UInt8) (suffixlen : Nat) (doopen : Bool) : Outcome × Buffer :=
  let tail := strlen mem - suffixlen
  let q := scan tail ⟨mem,[]⟩
  if tail - q.1 < 6 then (.invalid,q.2) else attempts w doopen (q.1 + 1) numAttempt 0 0 q.2

structure Template where
  chars : List UInt8
  beyond : List UInt8
  suffixlen : Nat
  plain : 0 ∉ chars
  fits : suffixlen ≤ chars.length

def Template.mem (t : Template) : List UInt8 := t.chars ++ 0 :: t.beyond

def Template.suffixStart (t : Template) : Nat := t.chars.length - t.suffixlen

def Template.run (t : Template) : Nat :=
  ((t.chars.take t.suffixStart).reverse.takeWhile (· = letterX)).length

structure Rewrites (w : World) (t : Template) (doopen : Bool) : Prop where
  refused : (gettemp w t.mem t.suffixlen doopen).1 = .invalid ↔ t.run < 6
  kept : ∀ i, i < t.suffixStart - t.run ∨ t.suffixStart ≤ i →
    (gettemp w t.mem t.suffixlen doopen).2.mem[i]? = t.mem[i]?
  inside : ∀ p ∈ (gettemp w t.mem t.suffixlen doopen).2.stores, t.suffixStart - t.run ≤ p.1 ∧ p.1 < t.suffixStart

def Within (lo hi : Nat) (b : Buffer) : Prop := ∀ p ∈ b.stores, lo ≤ p.1 ∧ p.1 < hi

def Leaves (mem : List UInt8) (b : Buffer) : Prop :=
  ∀ i, (∀ p ∈ b.stores, p.1 ≠ i) → b.mem[i]? = mem[i]?

theorem store_leaves {mem : List UInt8} {b : Buffer} (h : Leaves mem b) (i : Nat) (c : UInt8) :
    Leaves mem (b.store i c) := by
  intro j hj
  have hne : i ≠ j := hj (i,c) (List.mem_append_right _ (List.mem_singleton.mpr rfl))
  rw [Buffer.store,List.getElem?_set_ne hne]
  exact h j (fun p hp => hj p (List.mem_append_left _ hp))

theorem store_within {lo hi : Nat} {b : Buffer} (h : Within lo hi b) {i : Nat} (hi' : lo ≤ i ∧ i < hi) (c : UInt8) :
    Within lo hi (b.store i c) := by
  intro p hp
  rcases List.mem_append.mp hp with hp | hp
  · exact h p hp
  · rw [List.mem_singleton.mp hp]
    exact hi'

def runBefore (mem : List UInt8) (tail : Nat) : Nat := ((mem.take tail).reverse.takeWhile (· = letterX)).length

theorem runBefore_succ {mem : List UInt8} {trv : Nat} (h : trv < mem.length) :
    runBefore mem (trv + 1) = if mem.getD trv 0 = letterX then runBefore mem trv + 1 else 0 := by
  have hget : mem.getD trv 0 = mem[trv] := List.getD_eq_getElem _ _ h
  rw [runBefore,List.take_add_one,List.getElem?_eq_getElem h,Option.toList_some,List.reverse_append,
    List.reverse_singleton,List.singleton_append,List.takeWhile_cons,hget]
  split <;> simp_all [runBefore]

theorem runBefore_le (mem : List UInt8) (tail : Nat) : runBefore mem tail ≤ tail := by
  have h := (List.takeWhile_prefix (· = letterX) (l := (mem.take tail).reverse)).length_le
  rw [List.length_reverse,List.length_take] at h
  exact le_trans h (min_le_left _ _)

theorem scan_spec {mem : List UInt8} {lo hi tail : Nat} {b : Buffer} (hlen : tail ≤ b.mem.length)
    (hw : Within lo hi b) (hl : Leaves mem b) (hlo : lo ≤ tail - runBefore b.mem tail) (hhi : tail ≤ hi) :
    (scan tail b).1 = tail - runBefore b.mem tail - 1 ∧ Within lo hi (scan tail b).2 ∧ Leaves mem (scan tail b).2 := by
  induction tail generalizing b with
  | zero => exact ⟨by rw [scan,Nat.zero_sub],hw,hl⟩
  | succ trv ih =>
    rw [scan]
    rw [runBefore_succ (by omega)] at hlo ⊢
    by_cases hx : b.mem.getD trv 0 = letterX
    · have hsame : runBefore (b.store trv letterA).mem trv = runBefore b.mem trv := by
        rw [runBefore,Buffer.store,List.take_set_of_le (le_refl trv),runBefore]
      rw [if_pos hx] at hlo ⊢
      rw [if_pos hx]
      have hnext := ih (b := b.store trv letterA) (by simp only [Buffer.store,List.length_set]; omega)
        (store_within hw (by omega) letterA) (store_leaves hl trv letterA) (by rw [hsame]; omega) (by omega)
      rw [hsame] at hnext
      exact ⟨by rw [hnext.1]; omega,hnext.2⟩
    · rw [if_neg hx,if_neg hx]
      exact ⟨rfl,hw,hl⟩

theorem fill_spec {mem : List UInt8} {lo hi start k i : Nat} (filename : Nat) {b : Buffer} (hlo : lo ≤ start + i)
    (hhi : start + i + k ≤ hi) (hw : Within lo hi b) (hl : Leaves mem b) :
    Within lo hi (fill start k i filename b) ∧ Leaves mem (fill start k i filename b) := by
  induction k generalizing i filename b with
  | zero => exact ⟨hw,hl⟩
  | succ k ih =>
    exact ih (filename / 36) (by omega) (by omega) (store_within hw (by omega) _) (store_leaves hl _ _)

theorem fill_keeps {start k i filename : Nat} {b : Buffer} {p : Nat × UInt8} (hp : p ∈ b.stores) :
    p ∈ (fill start k i filename b).stores := by
  induction k generalizing i filename b with
  | zero => exact hp
  | succ k ih => exact ih (List.mem_append_left _ hp)

theorem fill_reaches (start filename : Nat) (b : Buffer) :
    ∃ p ∈ (fill start 6 0 filename b).stores, p.1 = start + 5 :=
  ⟨(start + 5,nameChar (filename / 36 / 36 / 36 / 36 / 36)),List.mem_append_right _ (List.mem_singleton.mpr rfl),rfl⟩

theorem attempts_keep (w : World) (doopen : Bool) {start : Nat} {P : Buffer → Prop}
    (hP : ∀ filename b, P b → P (fill start 6 0 filename b)) (k drawn opened : Nat) {b : Buffer} (hb : P b) :
    P (attempts w doopen start k drawn opened b).2 ∧ (attempts w doopen start k drawn opened b).1 ≠ .invalid := by
  induction k generalizing drawn opened b with
  | zero => exact ⟨hb,by simp [attempts]⟩
  | succ k ih =>
    have hfill := hP (w.random drawn % numNames) b hb
    rw [attempts]
    split
    · exact ih _ _ hfill
    · exact ih _ _ hfill
    · split
      · split
        · exact ⟨hfill,by simp⟩
        · exact ih _ _ hfill
        · exact ⟨hfill,by simp⟩
      · exact ⟨hfill,by simp⟩
    · exact ⟨hfill,by simp⟩

theorem strlen_mem (t : Template) : strlen t.mem = t.chars.length := by
  have hpos : ∀ c ∈ t.chars, (decide (c ≠ 0)) = true := fun c hc =>
    decide_eq_true (fun h => t.plain (h ▸ hc))
  rw [strlen,Template.mem,List.takeWhile_append_of_pos hpos]
  simp

theorem run_eq (t : Template) : t.run = runBefore t.mem t.suffixStart := by
  have hle : t.suffixStart ≤ t.chars.length := Nat.sub_le _ _
  rw [Template.run,runBefore,Template.mem,List.take_append_of_le_length hle]

theorem Within.frame {mem : List UInt8} {lo hi : Nat} {b : Buffer} (hw : Within lo hi b) (hl : Leaves mem b) :
    ∀ i, i < lo ∨ hi ≤ i → b.mem[i]? = mem[i]? := by
  intro i hi'
  refine hl i (fun p hp => ?_)
  have := hw p hp
  omega

theorem attempts_reach (w : World) (doopen : Bool) (start k drawn opened : Nat) (b : Buffer) :
    ∃ p ∈ (attempts w doopen start (k + 1) drawn opened b).2.stores, p.1 = start + 5 := by
  have hgrow : ∀ filename b, (∃ p ∈ b.stores, p.1 = start + 5) →
      ∃ p ∈ (fill start 6 0 filename b).stores, p.1 = start + 5 := by
    rintro filename b ⟨p,hp,he⟩
    exact ⟨p,fill_keeps hp,he⟩
  have hfirst := fill_reaches start (w.random drawn % numNames) b
  have hrest := fun d o => (attempts_keep w doopen hgrow k d o hfirst).1
  rw [attempts]
  split
  · exact hrest _ _
  · exact hrest _ _
  · split
    · split
      · exact hfirst
      · exact hrest _ _
      · exact hfirst
    · exact hfirst
  · exact hfirst

theorem gettemp_rewrites_iff (w : World) (t : Template) (doopen : Bool) :
    Rewrites w t doopen ↔ ¬(t.run = 5 ∧ t.suffixStart ≠ 5) ∧ ¬(t.run = 6 ∧ t.suffixStart = 6) := by
  have hrun : t.run ≤ t.suffixStart := by
    rw [run_eq]
    exact runBefore_le _ _
  have htail : t.suffixStart ≤ t.mem.length := by
    simp only [Template.suffixStart,Template.mem,List.length_append]
    omega
  have hnone : Within (t.suffixStart - t.run) t.suffixStart ⟨t.mem,[]⟩ := fun p hp => absurd hp List.not_mem_nil
  have hsame : Leaves t.mem ⟨t.mem,[]⟩ := fun _ _ => rfl
  have hscan := scan_spec htail hnone hsame (by rw [run_eq]) (le_refl _)
  rw [← run_eq] at hscan
  obtain ⟨hq,hwithin,hleaves⟩ := hscan
  have hdef : gettemp w t.mem t.suffixlen doopen =
      if t.suffixStart - (scan t.suffixStart ⟨t.mem,[]⟩).1 < 6 then (.invalid,(scan t.suffixStart ⟨t.mem,[]⟩).2)
      else attempts w doopen ((scan t.suffixStart ⟨t.mem,[]⟩).1 + 1) numAttempt 0 0 (scan t.suffixStart ⟨t.mem,[]⟩).2 := by
    rw [gettemp,strlen_mem]
    rfl
  rw [hq] at hdef
  generalize (scan t.suffixStart ⟨t.mem,[]⟩).2 = b at hwithin hleaves hdef
  by_cases hfew : t.suffixStart - (t.suffixStart - t.run - 1) < 6
  · rw [if_pos hfew] at hdef
    refine iff_of_true ⟨?_,?_,?_⟩ (by omega)
    · rw [hdef]
      exact iff_of_true rfl (by omega)
    · rw [hdef]
      exact hwithin.frame hleaves
    · rw [hdef]
      exact hwithin
  rw [if_neg hfew] at hdef
  have hout : (gettemp w t.mem t.suffixlen doopen).1 ≠ .invalid := by
    rw [hdef]
    exact (attempts_keep w doopen (P := fun _ => True) (fun _ _ _ => trivial) numAttempt 0 0 trivial).2
  by_cases hroom : 6 ≤ t.run ∧ t.suffixStart - t.run - 1 + 7 ≤ t.suffixStart
  · have hfill : ∀ filename b, Within (t.suffixStart - t.run) t.suffixStart b ∧ Leaves t.mem b →
        Within (t.suffixStart - t.run) t.suffixStart (fill (t.suffixStart - t.run - 1 + 1) 6 0 filename b) ∧
          Leaves t.mem (fill (t.suffixStart - t.run - 1 + 1) 6 0 filename b) :=
      fun filename b h => fill_spec filename (by omega) (by omega) h.1 h.2
    have hkeep := (attempts_keep w doopen (P := fun b => Within (t.suffixStart - t.run) t.suffixStart b ∧ Leaves t.mem b)
      hfill numAttempt 0 0 ⟨hwithin,hleaves⟩).1
    rw [← hdef] at hkeep
    exact iff_of_true ⟨iff_of_false hout (by omega),hkeep.1.frame hkeep.2,hkeep.1⟩ (by omega)
  · refine iff_of_false (fun h => ?_) (by omega)
    rcases Nat.lt_or_ge t.run 6 with hlt | hge
    · exact hout (h.refused.mpr hlt)
    · obtain ⟨p,hp,hpos⟩ := attempts_reach w doopen (t.suffixStart - t.run - 1 + 1) (36 * 36 * 36 - 1) 0 0 b
      rw [show 36 * 36 * 36 - 1 + 1 = numAttempt from rfl,← hdef] at hp
      have := h.inside p hp
      omega

def fiveXs : Template := ⟨[97,88,88,88,88,88],[],0,by decide,by decide⟩

def unused : World := ⟨fun _ => 0,fun _ => .failed .enoent⟩

theorem five_accepted : ¬ ∀ (w : World) (t : Template) (doopen : Bool), Rewrites w t doopen := by
  intro h
  have hfew : fiveXs.run < 6 := by decide
  have hinvalid := (h unused fiveXs false).refused.mpr hfew
  exact absurd hinvalid (by decide)

end Mktemp
