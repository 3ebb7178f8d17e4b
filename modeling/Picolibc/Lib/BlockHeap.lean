import Mathlib

namespace BlockHeap

variable {α : Type}

structure Heap (α : Type) where
  blocks : Nat → Option (List α)
  next : Nat
  fresh : ∀ p, next ≤ p → blocks p = none

inductive Outcome where
  | fail
  | stay
  | move
  deriving DecidableEq, Repr

def Heap.empty : Heap α := ⟨fun _ => none,0,fun _ _ => rfl⟩

def Heap.setBlock (h : Heap α) (p : Nat) (l : Option (List α)) : Heap α where
  blocks := Function.update h.blocks p l
  next := max h.next (p + 1)
  fresh q hq := by
    rw [Function.update_of_ne (by omega)]
    exact h.fresh q (by omega)

def resized (l : List α) (n : Nat) (junk : Nat → α) : List α :=
  l.take n ++ (List.range' l.length (n - l.length)).map junk

def Heap.write (h : Heap α) (line : Option Nat) (i : Nat) (x : α) : Option (Heap α) :=
  match line with
  | none => none
  | some p =>
    match h.blocks p with
    | none => none
    | some l => if i < l.length then some (h.setBlock p (some (l.set i x))) else none

def Heap.realloc (h : Heap α) (n : Nat) (junk : Nat → α) : Option Nat → Outcome → Option (Option Nat × Heap α)
  | _, .fail => some (none,h)
  | none, _ => some (some h.next,h.setBlock h.next (some (resized [] n junk)))
  | some p, .stay => (h.blocks p).map (fun l => (some p,h.setBlock p (some (resized l n junk))))
  | some p, .move =>
    (h.blocks p).map (fun l => (some h.next,(h.setBlock p none).setBlock h.next (some (resized l n junk))))

def Heap.Valid (h : Heap α) (line : Option Nat) : Prop := ∀ p, line = some p → ∃ l, h.blocks p = some l

def Heap.content (h : Heap α) (line : Option Nat) : List α := (line.bind h.blocks).getD []

structure Swapped (h₀ : Heap α) (old : Option Nat) (h : Heap α) (new : Option Nat) : Prop where
  others : ∀ q, some q ≠ old → some q ≠ new → h.blocks q = h₀.blocks q
  gone : ∀ q, some q = old → some q ≠ new → h.blocks q = none
  taken : ∀ q, some q = new → some q ≠ old → h₀.blocks q = none
  later : h₀.next ≤ h.next

section

variable {h h₀ : Heap α} {old line : Option Nat} {p q n i : Nat} {l : List α} {x : α} {junk : Nat → α}

@[simp] theorem setBlock_same (h : Heap α) (p : Nat) (b : Option (List α)) : (h.setBlock p b).blocks p = b :=
  Function.update_self _ _ _

theorem setBlock_other (h : Heap α) (b : Option (List α)) (hq : q ≠ p) : (h.setBlock p b).blocks q = h.blocks q :=
  Function.update_of_ne hq _ _

theorem lt_next (hb : h.blocks p = some l) : p < h.next := by
  by_contra hge
  rw [h.fresh p (not_lt.mp hge)] at hb
  cases hb

theorem resized_length (l : List α) (n : Nat) (junk : Nat → α) : (resized l n junk).length = n := by
  simp [resized]
  omega

theorem resized_getElem? (hi : i < l.length) (hn : i < n) (junk : Nat → α) : (resized l n junk)[i]? = l[i]? := by
  rw [resized,List.getElem?_append_left (by rw [List.length_take]; omega),List.getElem?_take_of_lt hn]

theorem Swapped.refl (h : Heap α) (old : Option Nat) : Swapped h old h old :=
  ⟨fun _ _ _ => rfl,fun _ hq hn => absurd hq hn,fun _ hq hn => absurd hq hn,le_rfl⟩

theorem Swapped.set (hs : Swapped h₀ old h (some p)) (b : List α) : Swapped h₀ old (h.setBlock p (some b)) (some p) := by
  have hother : ∀ q, some q ≠ some p → (h.setBlock p (some b)).blocks q = h.blocks q := fun q hq =>
    setBlock_other h (some b) (fun heq => hq (congrArg some heq))
  refine ⟨fun q ho hq => ?_,fun q ho hq => ?_,hs.taken,hs.later.trans (le_max_left _ _)⟩
  · rw [hother q hq,hs.others q ho hq]
  · rw [hother q hq,hs.gone q ho hq]

theorem Swapped.moved (hs : Swapped h₀ old h (some p)) (b : List α) :
    Swapped h₀ old ((h.setBlock p none).setBlock h.next (some b)) (some h.next) := by
  have hother : ∀ q, some q ≠ some h.next → ((h.setBlock p none).setBlock h.next (some b)).blocks q =
      (h.setBlock p none).blocks q := fun q hq => setBlock_other _ _ (fun heq => hq (congrArg some heq))
  refine ⟨fun q ho hq => ?_,fun q ho hq => ?_,?_,(hs.later.trans (le_max_left _ _)).trans (le_max_left _ _)⟩
  · rw [hother q hq]
    by_cases hp : q = p
    · rw [hp,setBlock_same]
      exact (hs.taken p rfl (hp ▸ ho)).symm
    · rw [setBlock_other h none hp]
      exact hs.others q ho (fun heq => hp (Option.some.inj heq))
  · rw [hother q hq]
    by_cases hp : q = p
    · rw [hp,setBlock_same]
    · rw [setBlock_other h none hp]
      exact hs.gone q ho (fun heq => hp (Option.some.inj heq))
  · rintro q hq -
    exact h₀.fresh q (Option.some.inj hq ▸ hs.later)

theorem Swapped.added (hs : Swapped h₀ none h none) (b : List α) :
    Swapped h₀ none (h.setBlock h.next (some b)) (some h.next) := by
  refine ⟨fun q ho hq => ?_,(fun q ho => by cases ho),?_,hs.later.trans (le_max_left _ _)⟩
  · rw [setBlock_other h (some b) (fun heq => hq (congrArg some heq))]
    exact hs.others q ho ho
  · rintro q hq -
    exact h₀.fresh q (Option.some.inj hq ▸ hs.later)

theorem Swapped.freed {h₁ : Heap α} (hs : Swapped h₁ old h line) (hsame : ∀ x, x ≠ q → h₁.blocks x = h₀.blocks x)
    (hlater : h₀.next ≤ h₁.next) (hq : h₀.next ≤ q) (hold : some q ≠ old) (hline : some q ≠ line) :
    Swapped h₀ old (h.setBlock q none) line := by
  refine ⟨fun x ho hl => ?_,fun x ho hl => ?_,fun x hl ho => ?_,hlater.trans (hs.later.trans (le_max_left _ _))⟩
  · by_cases hx : x = q
    · rw [hx,setBlock_same,h₀.fresh q hq]
    · rw [setBlock_other _ _ hx,hs.others x ho hl,hsame x hx]
  · rw [setBlock_other _ _ (fun hx : x = q => hold (hx ▸ ho)),hs.gone x ho hl]
  · rw [← hs.taken x hl ho,hsame x (fun hx => hline (hx ▸ hl))]

theorem write_holds (hb : h.blocks p = some l) (hi : i < l.length) (x : α) :
    h.write (some p) i x = some (h.setBlock p (some (l.set i x))) := by
  simp only [Heap.write,hb]
  rw [if_pos hi]

theorem realloc_grant {o : Outcome} (hs : Swapped h₀ old h line) (hnew : line = none → old = none)
    (hold : h₀.Valid old) (hv : h.Valid line) (ho : o ≠ .fail) (n : Nat) (junk : Nat → α) :
    ∃ p h', h.realloc n junk line o = some (some p,h') ∧ h'.blocks p = some (resized (h.content line) n junk) ∧
      Swapped h₀ old h' (some p) ∧ (some p = old ↔ line = old ∧ line ≠ none ∧ o = .stay) := by
  have hapart : some h.next ≠ old := by
    intro heq
    obtain ⟨l,hl⟩ := hold h.next heq.symm
    exact absurd (lt_next hl) (not_lt.mpr hs.later)
  cases line with
  | none =>
    obtain rfl := hnew rfl
    have hgrant : h.realloc n junk none o = some (some h.next,h.setBlock h.next (some (resized [] n junk))) := by
      cases o with
      | fail => exact absurd rfl ho
      | stay => rfl
      | move => rfl
    exact ⟨_,_,hgrant,setBlock_same _ _ _,hs.added _,by simp⟩
  | some p =>
    obtain ⟨l,hl⟩ := hv p rfl
    have hcontent : h.content (some p) = l := by simp [Heap.content,hl]
    rw [hcontent]
    cases o with
    | fail => exact absurd rfl ho
    | stay => exact ⟨p,_,by simp [Heap.realloc,hl],setBlock_same _ _ _,hs.set _,by simp⟩
    | move => exact ⟨h.next,_,by simp [Heap.realloc,hl],setBlock_same _ _ _,hs.moved _,by simp [hapart]⟩

end

end BlockHeap
