import Mathlib
import Picolibc.Posix.Fnmatch

namespace Fnmatch

inductive Item where
  | any
  | star (opened : Bool)
  | lit (c : UInt8)
  | set (negate : Bool) (elems : List Elem)
  | dead
deriving DecidableEq,Repr

inductive Bracket where
  | ordinary
  | dead
  | set (negate : Bool) (elems : List Elem) (rest : List UInt8)

def opened (f : Flags) (pattern : List UInt8) : Bool := pattern != [] && !(pattern.headD 0 == 47 && f.pathname)

def items (f : Flags) (read : List UInt8 → Bracket) : Nat → List UInt8 → List Item
  | 0, _ => [.dead]
  | _ + 1, [] => []
  | fuel + 1, c :: pattern =>
    if c = 63 then .any :: items f read fuel pattern
    else if c = 42 then
      .star (opened f (pattern.dropWhile (· = 42))) :: items f read fuel (pattern.dropWhile (· = 42))
    else if c = 91 then
      match read pattern with
      | .ordinary => .lit 91 :: items f read fuel pattern
      | .dead => [.dead]
      | .set negate elems rest => .set negate elems :: items f read fuel rest
    else if c = 92 ∧ f.noescape = false ∧ pattern ≠ [] then .lit (pattern.headD 0) :: items f read fuel pattern.tail
    else .lit c :: items f read fuel pattern

inductive Listed where
  | error
  | slash
  | spent
  | done (elems : List Elem) (rest : List UInt8)

def Listed.cons (e : Elem) : Listed → Listed
  | .done elems rest => .done (e :: elems) rest
  | r => r

def scanLoop (f : Flags) : Nat → UInt8 → List UInt8 → Listed
  | 0, _, _ => .spent
  | fuel + 1, c, pattern =>
    match element f c pattern with
    | .error => .error
    | .slash => .slash
    | .elem e pattern =>
      if pattern.headD 0 ≠ 93 then (scanLoop f fuel (pattern.headD 0) pattern.tail).cons e else .done [e] pattern.tail

def bracket (f : Flags) (pattern : List UInt8) : Bracket :=
  match scanLoop f (pattern.length + 2) ((listStart pattern).headD 0) (listStart pattern).tail with
  | .error => .ordinary
  | .slash => .dead
  | .spent => .dead
  | .done elems rest => .set (negated pattern) elems rest

def posixChar (f : Flags) (text : List UInt8) : Option (UInt8 × List UInt8) :=
  match text with
  | [] => none
  | 91 :: 61 :: c :: 61 :: 93 :: rest => some (c,rest)
  | 91 :: 46 :: c :: rest =>
    if [46,93] <+: rest then some (c,rest.drop 2) else if [46,93] <:+: rest then none else some (91,46 :: c :: rest)
  | c :: rest => if c = 92 ∧ f.noescape = false then rest.head?.map fun d => (d,rest.tail) else some (c,rest)

def posixRange (f : Flags) (c : UInt8) (text : List UInt8) : Option (Elem × List UInt8) :=
  match text with
  | 45 :: d :: rest =>
    if d = 93 then some (.one c,text) else (posixChar f (d :: rest)).map fun r => (.range c r.1,r.2)
  | _ => some (.one c,text)

def posixElem (f : Flags) (text : List UInt8) : Option (Elem × List UInt8) :=
  match charClass (text.headD 0) text.tail with
  | some (name,rest) => some (.named name,rest)
  | none => (posixChar f text).bind fun r => posixRange f r.1 r.2

def posixList (f : Flags) : Nat → List UInt8 → Option (List Elem × List UInt8)
  | 0, _ => none
  | fuel + 1, text =>
    (posixElem f text).bind fun r =>
      if r.2.headD 0 = 93 then some ([r.1],r.2.tail) else (posixList f fuel r.2).map fun t => (r.1 :: t.1,t.2)

def posixBracket (f : Flags) (pattern : List UInt8) : Bracket :=
  match posixList f (pattern.length + 1) (listStart pattern) with
  | none => .ordinary
  | some (elems,rest) =>
    if f.pathname = true ∧ 47 ∈ pattern.take (pattern.length - rest.length) then .ordinary
    else .set (negated pattern) elems rest

def Open (pathname period lead : Bool) (x : UInt8) : Prop := ¬(x = 47 ∧ pathname = true) ∧ ¬(x = 46 ∧ period = true ∧ lead = true)

def Matches (signedChar drop pathname : Bool) : List Item → Bool → Bool → List UInt8 → Prop
  | [], _, _, string => string = []
  | .any :: ps, period, lead, string => ∃ x rest, string = x :: rest ∧ Open pathname period lead x ∧
      Matches signedChar drop pathname ps period (pathname && x == 47) rest
  | .star opened :: ps, period, lead, string =>
      ¬(string.head? = some 46 ∧ period = true ∧ lead = true) ∧
      ∃ u v, string = u ++ v ∧ (pathname = true → 47 ∉ u) ∧
        Matches signedChar drop pathname ps (period && !(drop && opened)) (lead && u == []) v
  | .lit c :: ps, period, _, string => ∃ rest, string = c :: rest ∧
      Matches signedChar drop pathname ps period (pathname && c == 47) rest
  | .set negate elems :: ps, period, lead, string => ∃ x rest, string = x :: rest ∧ Open pathname period lead x ∧
      elems.any (Elem.hit signedChar x) ≠ negate ∧ Matches signedChar drop pathname ps period (pathname && x == 47) rest
  | .dead :: _, _, _, _ => False

def Decides (r : Ret) (P : Prop) : Prop := (r = .zero ∨ r = .noMatch) ∧ (r = .zero ↔ P)

def leads (f : Flags) (prev : Option UInt8) : Bool := prev.isNone || (f.pathname && prev == some 47)

section

variable {f : Flags} {signedChar drop negate : Bool} {prev : Option UInt8} {string pattern : List UInt8} {fuel level : Nat}
  {P : UInt8 → List UInt8 → Prop}

theorem Decides.congr {r : Ret} {P Q : Prop} (h : Decides r P) (hpq : P ↔ Q) : Decides r Q := ⟨h.1,h.2.trans hpq⟩

theorem charClass_short {c : UInt8} {r : List UInt8 × List UInt8} (h : charClass c pattern = some r) :
    r.2.length ≤ pattern.length := by
  rw [charClass] at h
  split at h
  · simp only at h
    split at h
    · rw [← Option.some.inj h,List.length_drop]
      exact Nat.sub_le _ _
    · exact absurd h (by simp)
  · exact absurd h (by simp)

theorem element_end (f : Flags) : element f 0 [] = .error := rfl

def Listed.answer (signedChar negate : Bool) (test : UInt8) (ok : Bool) : Listed → Range
  | .error => .error
  | .slash => .noMatch
  | .spent => .spent
  | .done elems rest => if (ok || elems.any (Elem.hit signedChar test)) = negate then .noMatch else .found rest

inductive Reads (f : Flags) (signedChar : Bool) (pattern : List UInt8) : Prop where
  | ordinary : bracket f pattern = .ordinary → (∀ x, rangematch f signedChar pattern x = .error) → Reads f signedChar pattern
  | dead : bracket f pattern = .dead → (∀ x, rangematch f signedChar pattern x = .noMatch) → Reads f signedChar pattern
  | set (negate : Bool) (elems : List Elem) (rest : List UInt8) : bracket f pattern = .set negate elems rest →
      rest.length ≤ pattern.length → (∀ x, rangematch f signedChar pattern x =
        if elems.any (Elem.hit signedChar x) = negate then .noMatch else .found rest) → Reads f signedChar pattern

def Item.isStar : Item → Bool
  | .star _ => true
  | _ => false

theorem leads_some (f : Flags) (x : UInt8) : leads f (some x) = (f.pathname && x == 47) := rfl

def Meant (signedChar : Bool) (f : Flags) (fuel : Nat) (pattern : List UInt8) (lead : Bool) (string : List UInt8) : Prop :=
  Matches signedChar true f.pathname (items f (bracket f) fuel pattern) f.period lead string

def Answers (signedChar : Bool) (fuel : Nat) : Prop :=
  ∀ (f : Flags) (level : Nat) (pattern : List UInt8) (prev : Option UInt8) (string : List UInt8), f.casefold = false →
    f.leadingDir = false → pattern.length < fuel → (items f (bracket f) fuel pattern).countP Item.isStar ≤ level →
    Decides (fnmatchLoop signedChar fuel f level pattern prev string) (Meant signedChar f fuel pattern (leads f prev) string)

theorem posixChar_short {text : List UInt8} {r : UInt8 × List UInt8} (h : posixChar f text = some r) :
    r.2.length ≤ text.length := by
  rw [posixChar.eq_def] at h
  split at h
  · exact absurd h (by simp)
  · rw [← Option.some.inj h]
    simp only [List.length_cons]
    omega
  · split at h
    · rw [← Option.some.inj h]
      simp only [List.length_drop,List.length_cons]
      omega
    split at h
    · exact absurd h (by simp)
    · rw [← Option.some.inj h]
      simp only [List.length_cons]
      omega
  · split at h
    · obtain ⟨d,-,rfl⟩ := Option.map_eq_some_iff.mp h
      simp only [List.length_tail,List.length_cons]
      omega
    · rw [← Option.some.inj h]
      simp only [List.length_cons]
      omega

theorem posixRange_short {c : UInt8} {text : List UInt8} {r : Elem × List UInt8} (h : posixRange f c text = some r) :
    r.2.length ≤ text.length := by
  rw [posixRange.eq_def] at h
  split at h
  · split at h
    · rw [← Option.some.inj h]
    · obtain ⟨t,ht,rfl⟩ := Option.map_eq_some_iff.mp h
      have := posixChar_short ht
      simp only [List.length_cons] at this ⊢
      omega
  · rw [← Option.some.inj h]

theorem posixElem_short {text : List UInt8} {r : Elem × List UInt8} (h : posixElem f text = some r) :
    r.2.length ≤ text.length := by
  rw [posixElem] at h
  split at h
  · next hclass =>
    have := charClass_short hclass
    rw [List.length_tail] at this
    rw [← Option.some.inj h]
    simp only at this ⊢
    omega
  · obtain ⟨t,ht,hr⟩ := Option.bind_eq_some_iff.mp h
    exact (posixRange_short hr).trans (posixChar_short ht)

theorem posixList_short {text : List UInt8} {r : List Elem × List UInt8} (h : posixList f fuel text = some r) :
    r.2.length ≤ text.length := by
  induction fuel generalizing text r with
  | zero => exact absurd h (by simp [posixList])
  | succ fuel ih =>
    rw [posixList] at h
    obtain ⟨t,ht,hr⟩ := Option.bind_eq_some_iff.mp h
    have hle := posixElem_short ht
    split at hr
    · rw [← Option.some.inj hr,List.length_tail]
      omega
    · obtain ⟨t',ht',rfl⟩ := Option.map_eq_some_iff.mp hr
      exact (ih ht').trans hle

theorem posixBracket_reads (f : Flags) (pattern : List UInt8) : posixBracket f pattern ≠ .dead ∧
    ∀ negate elems rest, posixBracket f pattern = .set negate elems rest → rest.length ≤ pattern.length := by
  have hstart : (listStart pattern).length ≤ pattern.length := by
    rw [listStart]
    split
    · rw [List.length_tail]
      exact Nat.sub_le _ _
    · exact le_rfl
  rw [posixBracket]
  split
  · exact ⟨by simp,by simp⟩
  · next hlist =>
    have hshort := posixList_short hlist
    split
    · exact ⟨by simp,by simp⟩
    · refine ⟨by simp,fun negate elems' rest' h => ?_⟩
      rw [Bracket.set.injEq] at h
      rw [← h.2.2]
      exact hshort.trans hstart

theorem posix_items_alive (hfuel : pattern.length < fuel) : .dead ∉ items f (posixBracket f) fuel pattern := by
  induction fuel generalizing pattern with
  | zero => exact absurd hfuel (Nat.not_lt_zero _)
  | succ fuel ih =>
    cases pattern with
    | nil => simp [items]
    | cons c pattern =>
      obtain ⟨halive,hrest⟩ := posixBracket_reads f pattern
      have hdrop : (pattern.dropWhile (· = 42)).length ≤ pattern.length := (List.dropWhile_suffix _).length_le
      have htail : pattern.tail.length ≤ pattern.length := by
        rw [List.length_tail]
        exact Nat.sub_le _ _
      rw [List.length_cons] at hfuel
      have hnext : Item.dead ∉ items f (posixBracket f) fuel pattern := ih (by omega)
      have hstar : Item.dead ∉ items f (posixBracket f) fuel (pattern.dropWhile (· = 42)) := ih (by omega)
      have hesc : Item.dead ∉ items f (posixBracket f) fuel pattern.tail := ih (by omega)
      rw [items]
      split
      · simpa using hnext
      split
      · simpa using hstar
      split
      · split
        · simpa using hnext
        · next hdead => exact absurd hdead halive
        · next hset => simpa using ih (lt_of_le_of_lt (hrest _ _ _ hset) (by omega))
      split
      · simpa using hesc
      · simpa using hnext

end

def read (f : Flags) (pattern : List UInt8) : List Item := items f (bracket f) (pattern.length + 1) pattern

def posixRead (f : Flags) (pattern : List UInt8) : List Item := items f (posixBracket f) (pattern.length + 1) pattern

theorem posixRead_alive (f : Flags) (pattern : List UInt8) : .dead ∉ posixRead f pattern :=
  posix_items_alive (Nat.lt_succ_self _)

end Fnmatch
