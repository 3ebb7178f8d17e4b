import Mathlib
import Picolibc.Lib.Ascii

namespace Strverscmp

open Ascii

def scan : List UInt8 → List UInt8 → Nat → Nat → Bool → Option (Nat × Nat × Bool)
  | [], r, i, dp, z => if charAt r 0 = 0 then none else some (i,dp,z)
  | c :: l, r, i, dp, z =>
    if c ≠ charAt r 0 then some (i,dp,z) else
    if c = 0 then none else
    if isdigit c = false then scan l r.tail (i + 1) (i + 1) true else
    if c ≠ 0x30 then scan l r.tail (i + 1) dp false else scan l r.tail (i + 1) dp z

def longerRun : List UInt8 → List UInt8 → Option Int
  | [], r => if isdigit (charAt r 0) then some (-1) else none
  | c :: l, r =>
    if isdigit c then (if isdigit (charAt r 0) then longerRun l r.tail else some 1)
    else if isdigit (charAt r 0) then some (-1) else none

def difference (x y : UInt8) : Int := x.toNat - y.toNat

def strverscmp (l r : List UInt8) : Int :=
  match scan l r 0 0 true with
  | none => 0
  | some (i,dp,z) =>
    if charAt l dp < 0x31 + 9 ∧ charAt r dp < 0x31 + 9 then
      (longerRun (l.drop i) (r.drop i)).getD (difference (charAt l i) (charAt r i))
    else if z = true ∧ dp < i ∧ (isdigit (charAt l i) = true ∨ isdigit (charAt r i) = true) then
      difference (charAt l i - 0x30) (charAt r i - 0x30)
    else difference (charAt l i) (charAt r i)

structure CString where
  chars : List UInt8
  plain : 0 ∉ chars

def common : List UInt8 → List UInt8 → List UInt8
  | c :: l, d :: r => if c = d then c :: common l r else []
  | _, _ => []

def run (p : List UInt8) : List UInt8 := p.rtakeWhile isdigit

def runLen (s : List UInt8) : Nat := (s.takeWhile isdigit).length

def Counts (s : List UInt8) : Prop := isdigit (charAt s 0) = true ∧ charAt s 0 ≠ 0x30

def Zeros (d : List UInt8) : Prop := ∀ c ∈ d, c = 0x30

def Fraction (d a b : List UInt8) : Prop :=
  d ≠ [] ∧ Zeros d ∧ (isdigit (charAt a 0) = true ∨ isdigit (charAt b 0) = true)

instance (s : List UInt8) : Decidable (Counts s) := inferInstanceAs (Decidable (_ ∧ _))

instance (d : List UInt8) : Decidable (Zeros d) := List.decidableBAll (· = 0x30) d

instance (d a b : List UInt8) : Decidable (Fraction d a b) :=
  inferInstanceAs (Decidable (_ ∧ _ ∧ _))

def AsIntegers (a b : List UInt8) : Prop :=
  runLen a < runLen b ∨ runLen a = runLen b ∧ charAt a 0 < charAt b 0

def AsFractions (a b : List UInt8) : Prop :=
  isdigit (charAt a 0) = true ∧ (isdigit (charAt b 0) = true → charAt a 0 < charAt b 0)

instance (a b : List UInt8) : Decidable (AsIntegers a b) := inferInstanceAs (Decidable (_ ∨ _))

instance (a b : List UInt8) : Decidable (AsFractions a b) := inferInstanceAs (Decidable (_ ∧ _))

def Precedes (d a b : List UInt8) : Prop :=
  if Counts (d ++ a) ∧ Counts (d ++ b) then AsIntegers a b
  else if Fraction d a b then AsFractions a b
  else charAt a 0 < charAt b 0

instance (d a b : List UInt8) : Decidable (Precedes d a b) :=
  inferInstanceAs (Decidable (if Counts (d ++ a) ∧ Counts (d ++ b) then AsIntegers a b
    else if Fraction d a b then AsFractions a b else charAt a 0 < charAt b 0))

def AtMismatch (P : List UInt8 → List UInt8 → List UInt8 → Prop) (l r : CString) : Prop :=
  P (run (common l.chars r.chars)) (l.chars.drop (common l.chars r.chars).length)
    (r.chars.drop (common l.chars r.chars).length)

def ComesFirst : CString → CString → Prop := AtMismatch Precedes

instance (l r : CString) : Decidable (ComesFirst l r) :=
  inferInstanceAs (Decidable (Precedes _ _ _))

def Misplaced (d a b : List UInt8) : Prop :=
  (isdigit (charAt (d ++ a) 0) = true ∧ isdigit (charAt (d ++ b) 0) = true) ∧
    (charAt (d ++ a) 0 = 0x30 ∨ charAt (d ++ b) 0 = 0x30) ∧ runLen b < runLen a ∧
    (charAt a 0 < charAt b 0 ∨
      d ≠ [] ∧ Zeros d ∧ isdigit (charAt b 0) = false)

def Agrees (l r : CString) : Prop :=
  (strverscmp l.chars r.chars < 0 ↔ ComesFirst l r) ∧
    (strverscmp l.chars r.chars = 0 ↔ l = r) ∧
    (0 < strverscmp l.chars r.chars ↔ ComesFirst r l)

inductive Mode where
  | fresh
  | zeros
  | run
  deriving DecidableEq, Repr

def key : Mode → List UInt8 → List Nat
  | .zeros, [] => [256]
  | .fresh, [] => []
  | .run, [] => []
  | .fresh, c :: s =>
    if c = 0x30 then 0x30 :: key .zeros s else
    if isdigit c then 0x31 :: (1 + runLen s) :: c.toNat :: key .run s
    else c.toNat :: key .fresh s
  | .zeros, c :: s =>
    if c = 0x30 then 0 :: key .zeros s else
    if isdigit c then (c.toNat - 0x30) :: key .run s else (256 + c.toNat) :: key .fresh s
  | .run, c :: s => c.toNat :: key (if isdigit c then .run else .fresh) s

theorem key_fresh_cons (c : UInt8) (s : List UInt8) : key .fresh (c :: s) =
    if c = 0x30 then 0x30 :: key .zeros s else
    if isdigit c then 0x31 :: (1 + runLen s) :: c.toNat :: key .run s else c.toNat :: key .fresh s := rfl

theorem key_zeros_cons (c : UInt8) (s : List UInt8) : key .zeros (c :: s) =
    if c = 0x30 then 0 :: key .zeros s else
    if isdigit c then (c.toNat - 0x30) :: key .run s else (256 + c.toNat) :: key .fresh s := rfl

theorem key_run_cons (c : UInt8) (s : List UInt8) :
    key .run (c :: s) = c.toNat :: key (if isdigit c then .run else .fresh) s := rfl

theorem toNat_ne {c d : UInt8} : c ≠ d ↔ c.toNat ≠ d.toNat := UInt8.toNat_inj.symm.not

theorem runLen_nil : runLen [] = 0 := rfl

theorem runLen_cons (c : UInt8) (s : List UInt8) :
    runLen (c :: s) = if isdigit c then runLen s + 1 else 0 := by
  rw [runLen,List.takeWhile_cons]
  split <;> rfl

theorem runLen_append {d : List UInt8} (hd : ∀ c ∈ d, isdigit c = true) (s : List UInt8) :
    runLen (d ++ s) = d.length + runLen s := by
  rw [runLen,List.takeWhile_append_of_pos hd,List.length_append,runLen]

theorem runLen_pos {s : List UInt8} : 0 < runLen s ↔ isdigit (charAt s 0) = true := by
  cases s with
  | nil => decide
  | cons c s =>
    rw [runLen_cons,charAt_cons_zero]
    split <;> simp_all

theorem run_nil : run [] = [] := List.rtakeWhile_nil _

theorem run_tail {c : UInt8} {q : List UInt8} (hq : q ≠ []) (h : run (c :: q) = []) : run q = [] := by
  rw [run,List.rtakeWhile_eq_nil_iff] at h ⊢
  intro hne
  simpa [List.getLast_cons hne] using h (List.cons_ne_nil c q)

theorem runLen_past {q : List UInt8} (hne : q ≠ []) (h : run q = []) (s : List UInt8) :
    runLen (q ++ s) = runLen q := by
  rw [run,List.rtakeWhile_eq_nil_iff] at h
  have hlast := h hne
  have hshort : (q.takeWhile isdigit).length ≠ q.length := by
    intro heq
    have hall := List.takeWhile_eq_self_iff.mp ((List.takeWhile_prefix isdigit).eq_of_length heq)
    exact hlast (hall _ (List.getLast_mem hne))
  rw [runLen,List.takeWhile_append,if_neg hshort,runLen]

theorem key_skip {q : List UInt8} (hne : q ≠ []) (h : run q = []) (m : Mode) :
    ∃ t, ∀ s, key m (q ++ s) = t ++ key .fresh s := by
  induction q generalizing m with
  | nil => exact absurd rfl hne
  | cons c q ih =>
    by_cases hq : q = []
    · subst hq
      have hc : isdigit c = false := by
        rw [run,List.rtakeWhile_eq_nil_iff] at h
        simpa using h hne
      have h0 : c ≠ 0x30 := by
        rintro rfl
        exact absurd hc (by decide)
      cases m with
      | fresh => exact ⟨[c.toNat],fun s => by simp [key_fresh_cons,hc,h0]⟩
      | zeros => exact ⟨[256 + c.toNat],fun s => by simp [key_zeros_cons,hc,h0]⟩
      | run => exact ⟨[c.toNat],fun s => by simp [key_run_cons,hc]⟩
    · have hrun := run_tail hq h
      have hlen := runLen_past hq hrun
      have ih := ih hq hrun
      obtain ⟨tf,hf⟩ := ih .fresh
      obtain ⟨tz,hz⟩ := ih .zeros
      obtain ⟨tr,hr⟩ := ih .run
      cases m with
      | fresh =>
        by_cases h0 : c = 0x30
        · exact ⟨0x30 :: tz,fun s => by simp [key_fresh_cons,h0,hz]⟩
        · by_cases hc : isdigit c = true
          · exact ⟨0x31 :: (1 + runLen q) :: c.toNat :: tr,fun s => by simp [key_fresh_cons,h0,hc,hr,hlen]⟩
          · exact ⟨c.toNat :: tf,fun s => by simp [key_fresh_cons,h0,hc,hf]⟩
      | zeros =>
        by_cases h0 : c = 0x30
        · exact ⟨0 :: tz,fun s => by simp [key_zeros_cons,h0,hz]⟩
        · by_cases hc : isdigit c = true
          · exact ⟨(c.toNat - 0x30) :: tr,fun s => by simp [key_zeros_cons,h0,hc,hr]⟩
          · exact ⟨(256 + c.toNat) :: tf,fun s => by simp [key_zeros_cons,h0,hc,hf]⟩
      | run =>
        by_cases hc : isdigit c = true
        · exact ⟨c.toNat :: tr,fun s => by simp [key_run_cons,hc,hr]⟩
        · exact ⟨c.toNat :: tf,fun s => by simp [key_run_cons,hc,hf]⟩

theorem key_run {d : List UInt8} (hd : ∀ c ∈ d, isdigit c = true) (s : List UInt8) :
    key .run (d ++ s) = d.map UInt8.toNat ++ key .run s := by
  induction d with
  | nil => rfl
  | cons c d ih =>
    rw [List.cons_append,key_run_cons,if_pos (hd c (by simp)),ih (fun e he => hd e (by simp [he]))]
    rfl

theorem key_zeros {d : List UInt8} (hd : Zeros d) (s : List UInt8) :
    key .zeros (d ++ s) = d.map (fun _ => 0) ++ key .zeros s := by
  induction d with
  | nil => rfl
  | cons c d ih =>
    rw [List.cons_append,key_zeros_cons,if_pos (hd c (by simp)),ih (fun e he => hd e (by simp [he]))]
    rfl

theorem bytes_run {a b : List UInt8} (h : charAt a 0 < charAt b 0) : key .run a < key .run b := by
  cases b with
  | nil => exact absurd h (by simp)
  | cons e b =>
    cases a with
    | nil => exact List.nil_lt_cons _ _
    | cons c a => exact List.cons_lt_cons_iff.mpr (.inl (UInt8.lt_iff_toNat_lt.mp h))

theorem bytes_fresh {a b : List UInt8} (h : charAt a 0 < charAt b 0) (hab : ¬(Counts a ∧ Counts b)) :
    key .fresh a < key .fresh b := by
  cases b with
  | nil => exact absurd h (by simp)
  | cons e b =>
    cases a with
    | nil =>
      rw [key_fresh_cons]
      split_ifs <;> exact List.nil_lt_cons _ _
    | cons c a =>
      rw [charAt_cons_zero,charAt_cons_zero,UInt8.lt_iff_toNat_lt] at h
      simp only [Counts,charAt_cons_zero,isdigit_iff,toNat_ne] at hab
      have h48 : (48 : UInt8).toNat = 48 := rfl
      rw [key_fresh_cons,key_fresh_cons]
      split_ifs with h1 h2 h3 h4 h5 h6 h7 <;>
        simp only [isdigit_iff,← UInt8.toNat_inj,h48] at * <;>
        exact List.cons_lt_cons_iff.mpr (.inl (by omega))

theorem zeros_shown (a : List UInt8) : ∃ t, key .zeros a =
    (if isdigit (charAt a 0) = true then (charAt a 0).toNat - 0x30 else 256 + (charAt a 0).toNat) :: t := by
  cases a with
  | nil => exact ⟨[],rfl⟩
  | cons c a =>
    by_cases h0 : c = 0x30
    · subst h0
      exact ⟨key .zeros a,rfl⟩
    · by_cases hc : isdigit c = true
      · exact ⟨key .run a,by simp [key_zeros_cons,h0,hc]⟩
      · exact ⟨key .fresh a,by simp [key_zeros_cons,h0,hc]⟩

theorem integers_key {d a b : List UInt8} (hd : ∀ c ∈ d, isdigit c = true) (hl : Counts (d ++ a))
    (hr : Counts (d ++ b)) (h : AsIntegers a b) : key .fresh (d ++ a) < key .fresh (d ++ b) := by
  have hshape : ∀ s, Counts s → ∃ c t, s = c :: t ∧ key .fresh s = 0x31 :: (1 + runLen t) :: key .run s ∧
      runLen s = runLen t + 1 := by
    rintro s ⟨hdig,h0⟩
    cases s with
    | nil => exact absurd hdig (by decide)
    | cons c t =>
      rw [charAt_cons_zero] at hdig h0
      exact ⟨c,t,rfl,by simp [key_fresh_cons,key_run_cons,h0,hdig],by rw [runLen_cons,if_pos hdig]⟩
  obtain ⟨c,s,hs,hks,hns⟩ := hshape _ hl
  obtain ⟨e,t,ht,hkt,hnt⟩ := hshape _ hr
  have hla := runLen_append hd a
  have hlb := runLen_append hd b
  rw [hks,hkt,List.cons_lt_cons_iff]
  refine .inr ⟨rfl,List.cons_lt_cons_iff.mpr ?_⟩
  rcases h with h | ⟨h,hb⟩
  · exact .inl (by omega)
  · refine .inr ⟨by omega,?_⟩
    rw [key_run hd,key_run hd]
    exact List.append_left_lt (bytes_run hb)

theorem fractions_key {d a b : List UInt8} (hd : Zeros d) (hne : d ≠ [])
    (h : AsFractions a b ∨ ¬Fraction d a b ∧ charAt a 0 < charAt b 0) :
    key .fresh (d ++ a) < key .fresh (d ++ b) := by
  cases d with
  | nil => exact absurd rfl hne
  | cons c d =>
    obtain rfl : c = 0x30 := hd c (by simp)
    have hd' : Zeros d := fun e he => hd e (by simp [he])
    obtain ⟨ta,ha⟩ := zeros_shown a
    obtain ⟨tb,hb⟩ := zeros_shown b
    rw [List.cons_append,List.cons_append,key_fresh_cons,key_fresh_cons,if_pos rfl,if_pos rfl,key_zeros hd',key_zeros hd']
    refine List.cons_lt_cons_iff.mpr (.inr ⟨rfl,List.append_left_lt ?_⟩)
    rw [ha,hb]
    refine List.cons_lt_cons_iff.mpr (.inl ?_)
    rcases h with ⟨h1,h2⟩ | ⟨h1,h2⟩
    · have hdigit := isdigit_iff.mp h1
      rw [if_pos h1]
      split
      · have := UInt8.lt_iff_toNat_lt.mp (h2 ‹_›)
        omega
      · omega
    · have hno : isdigit (charAt a 0) ≠ true ∧ isdigit (charAt b 0) ≠ true := by
        constructor <;> exact fun hx => h1 ⟨hne,hd,by simp [hx]⟩
      have := UInt8.lt_iff_toNat_lt.mp h2
      rw [if_neg hno.1,if_neg hno.2]
      omega

theorem leading_zeros {d : List UInt8} (h : ∃ c ∈ d, c ≠ 0x30) :
    ∃ z y t, d = z ++ y :: t ∧ Zeros z ∧ y ≠ 0x30 := by
  induction d with
  | nil => simp at h
  | cons c d ih =>
    by_cases h0 : c = 0x30
    · obtain ⟨e,he,hne⟩ := h
      have he' : e ∈ d := (List.mem_cons.mp he).resolve_left fun heq => hne (heq.trans h0)
      obtain ⟨z,y,t,hd,hz,hy⟩ := ih ⟨e,he',hne⟩
      exact ⟨c :: z,y,t,by rw [hd]; rfl,by simpa [Zeros,h0] using hz,hy⟩
    · exact ⟨[],c,d,rfl,by simp [Zeros],h0⟩

theorem tail_key {d a b : List UInt8} (hd : ∀ c ∈ d, isdigit c = true) (hsome : ∃ c ∈ d, c ≠ 0x30)
    (h : charAt a 0 < charAt b 0) : key .zeros (d ++ a) < key .zeros (d ++ b) := by
  obtain ⟨z,y,t,rfl,hz,hy⟩ := leading_zeros hsome
  have hrun : ∀ s, key .zeros ((z ++ y :: t) ++ s) =
      z.map (fun _ => 0) ++ ((y.toNat - 0x30) :: (t.map UInt8.toNat ++ key .run s)) := by
    intro s
    rw [List.append_assoc,key_zeros hz,List.cons_append,key_zeros_cons,if_neg hy,if_pos (hd y (by simp)),
      key_run (fun e he => hd e (by simp [he]))]
  rw [hrun,hrun]
  exact List.append_left_lt (List.cons_lt_cons_iff.mpr (.inr ⟨rfl,List.append_left_lt (bytes_run h)⟩))

theorem precedes_key {d a b : List UInt8} (hd : ∀ c ∈ d, isdigit c = true) (h : Precedes d a b) :
    key .fresh (d ++ a) < key .fresh (d ++ b) := by
  unfold Precedes at h
  split_ifs at h with h1 h2
  · exact integers_key hd h1.1 h1.2 h
  · exact fractions_key h2.2.1 h2.1 (.inl h)
  · cases d with
    | nil => exact bytes_fresh h h1
    | cons c d =>
      have hc : isdigit c = true := hd c (by simp)
      by_cases h0 : c = 0x30
      · by_cases hall : Zeros (c :: d)
        · exact fractions_key hall (List.cons_ne_nil c d) (.inr ⟨h2,h⟩)
        · subst h0
          have hsome : ∃ e ∈ d, e ≠ 0x30 := by simpa [Zeros] using hall
          rw [List.cons_append,List.cons_append,key_fresh_cons,key_fresh_cons,if_pos rfl,if_pos rfl]
          exact List.cons_lt_cons_iff.mpr (.inr ⟨rfl,tail_key (fun e he => hd e (by simp [he])) hsome h⟩)
      · exact absurd ⟨⟨hc,h0⟩,⟨hc,h0⟩⟩ h1

theorem common_split (l r : List UInt8) : ∃ a b, l = common l r ++ a ∧ r = common l r ++ b ∧
    common r l = common l r ∧ (0 ∉ l → 0 ∉ r → a = [] ∧ b = [] ∨ charAt a 0 ≠ charAt b 0) := by
  induction l generalizing r with
  | nil =>
    cases r with
    | nil => exact ⟨[],[],rfl,rfl,rfl,fun _ _ => .inl ⟨rfl,rfl⟩⟩
    | cons d r => exact ⟨[],d :: r,rfl,rfl,rfl,fun _ hr => .inr fun h => hr (List.mem_cons.mpr (.inl h))⟩
  | cons c l ih =>
    cases r with
    | nil => exact ⟨c :: l,[],rfl,rfl,rfl,fun hl _ => .inr fun h => hl (List.mem_cons.mpr (.inl h.symm))⟩
    | cons d r =>
      by_cases hcd : c = d
      · subst hcd
        obtain ⟨a,b,hl,hr,hcomm,hapart⟩ := ih r
        refine ⟨a,b,?_,?_,?_,fun hl hr => hapart (fun h => hl (by simp [h])) fun h => hr (by simp [h])⟩
        · rw [common,if_pos rfl,List.cons_append,← hl]
        · rw [common,if_pos rfl,List.cons_append,← hr]
        · rw [common,common,if_pos rfl,if_pos rfl,hcomm]
      · refine ⟨c :: l,d :: r,?_,?_,?_,fun _ _ => .inr hcd⟩
        · rw [common,if_neg hcd,List.nil_append]
        · rw [common,if_neg hcd,List.nil_append]
        · rw [common,common,if_neg hcd,if_neg (Ne.symm hcd)]

theorem parted (l r : CString) : ∃ p a b, l.chars = p ++ a ∧ r.chars = p ++ b ∧
    (l = r ∨ charAt a 0 ≠ charAt b 0) ∧
    ∀ P, (AtMismatch P l r ↔ P (run p) a b) ∧ (AtMismatch P r l ↔ P (run p) b a) := by
  obtain ⟨a,b,hl,hr,hcomm,hapart⟩ := common_split l.chars r.chars
  generalize hp : common l.chars r.chars = p at hl hr hcomm
  have hda : l.chars.drop p.length = a := by rw [hl,List.drop_left]
  have hdb : r.chars.drop p.length = b := by rw [hr,List.drop_left]
  refine ⟨p,a,b,hl,hr,(hapart l.plain r.plain).imp_left ?_,fun P => ⟨?_,?_⟩⟩
  · rintro ⟨rfl,rfl⟩
    cases l
    cases r
    exact CString.mk.injEq _ _ _ _ ▸ hl.trans hr.symm
  · rw [AtMismatch,hp,hda,hdb]
  · rw [AtMismatch,hcomm,hda,hdb]

theorem runs_digits {p : List UInt8} : ∀ c ∈ run p, isdigit c = true := fun _ hc => List.mem_rtakeWhile_imp hc

theorem run_split (p : List UInt8) : ∃ q, p = q ++ run p ∧ run q = [] := by
  refine ⟨p.rdropWhile isdigit,List.rdropWhile_append_rtakeWhile.symm,?_⟩
  rw [run,List.rtakeWhile_eq_nil_iff]
  exact List.rdropWhile_last_not isdigit p

theorem key_split (p : List UInt8) : ∃ t, ∀ s, key .fresh (p ++ s) = t ++ key .fresh (run p ++ s) := by
  obtain ⟨q,hp,hq⟩ := run_split p
  have happend : ∀ s, p ++ s = q ++ (run p ++ s) := fun s => by rw [← List.append_assoc,← hp]
  by_cases hne : q = []
  · exact ⟨[],fun s => by rw [happend,hne,List.nil_append,List.nil_append]⟩
  · obtain ⟨t,ht⟩ := key_skip hne hq .fresh
    exact ⟨t,fun s => by rw [happend,ht]⟩

theorem comesFirst_key {l r : CString} (h : ComesFirst l r) : key .fresh l.chars < key .fresh r.chars := by
  obtain ⟨p,a,b,hl,hr,-,hat⟩ := parted l r
  obtain ⟨t,ht⟩ := key_split p
  rw [hl,hr,ht,ht]
  exact List.append_left_lt (precedes_key runs_digits ((hat Precedes).1.mp h))

theorem precedes_irrefl (d a : List UInt8) : ¬Precedes d a a := by
  unfold Precedes AsIntegers AsFractions
  split_ifs
  · rintro (h | ⟨-,h⟩)
    · exact lt_irrefl _ h
    · exact absurd h (UInt8.lt_irrefl _)
  · exact fun h => absurd (h.2 h.1) (UInt8.lt_irrefl _)
  · exact UInt8.lt_irrefl _

theorem counts_append {d : List UInt8} (hd : ∀ c ∈ d, isdigit c = true) (a : List UInt8) :
    Counts (d ++ a) ↔ (d = [] ∧ Counts a) ∨ (d ≠ [] ∧ charAt d 0 ≠ 0x30) := by
  cases d with
  | nil => simp
  | cons c d => simp [Counts,hd c (by simp)]

theorem precedes_total {d a b : List UInt8} (h : charAt a 0 ≠ charAt b 0) : Precedes d a b ∨ Precedes d b a := by
  have hlt : charAt a 0 < charAt b 0 ∨ charAt b 0 < charAt a 0 := by
    rw [UInt8.lt_iff_toNat_lt,UInt8.lt_iff_toNat_lt]
    exact Nat.lt_or_gt_of_ne (toNat_ne.mp h)
  by_cases hc : Counts (d ++ a) ∧ Counts (d ++ b)
  · rw [Precedes,Precedes,if_pos hc,if_pos hc.symm,AsIntegers,AsIntegers]
    rcases lt_trichotomy (runLen a) (runLen b) with hlen | hlen | hlen
    · exact .inl (.inl hlen)
    · exact hlt.imp (fun h => .inr ⟨hlen,h⟩) fun h => .inr ⟨hlen.symm,h⟩
    · exact .inr (.inl hlen)
  · have hc' : ¬(Counts (d ++ b) ∧ Counts (d ++ a)) := fun h => hc h.symm
    rw [Precedes,Precedes,if_neg hc,if_neg hc']
    by_cases hf : Fraction d a b
    · rw [if_pos hf,if_pos ⟨hf.1,hf.2.1,hf.2.2.symm⟩,AsFractions,AsFractions]
      by_cases ha : isdigit (charAt a 0) = true
      · by_cases hb : isdigit (charAt b 0) = true
        · exact hlt.imp (fun h => ⟨ha,fun _ => h⟩) fun h => ⟨hb,fun _ => h⟩
        · exact .inl ⟨ha,fun h => absurd h hb⟩
      · exact .inr ⟨hf.2.2.resolve_left ha,fun h => absurd h ha⟩
    · rw [if_neg hf,if_neg fun h => hf ⟨h.1,h.2.1,h.2.2.symm⟩]
      exact hlt

theorem comesFirst_total {l r : CString} (h : l ≠ r) : ComesFirst l r ∨ ComesFirst r l := by
  obtain ⟨p,a,b,-,-,hapart,hat⟩ := parted l r
  exact (precedes_total (hapart.resolve_left h)).imp (hat Precedes).1.mpr (hat Precedes).2.mpr

theorem comesFirst_iff {l r : CString} : ComesFirst l r ↔ key .fresh l.chars < key .fresh r.chars := by
  refine ⟨comesFirst_key,fun hlt => ?_⟩
  have hne : l ≠ r := by
    rintro rfl
    exact lt_irrefl _ hlt
  exact (comesFirst_total hne).resolve_right fun h => lt_asymm hlt (comesFirst_key h)

example : [[0x30,0x30,0x30],[0x30,0x30],[0x30,0x31],[0x30,0x31,0x30],[0x30,0x39],[0x30],[0x31],[0x39],
    [0x31,0x30]].Pairwise fun l r => key .fresh l < key .fresh r := by
  decide

theorem comesFirst_order : IsStrictTotalOrder CString ComesFirst where
  irrefl l h := lt_irrefl _ (comesFirst_key h)
  trans l m r hlm hmr := comesFirst_iff.mpr (lt_trans (comesFirst_key hlm) (comesFirst_key hmr))
  trichotomous l r hl hr := by
    by_contra hne
    exact (comesFirst_total hne).elim hl hr

def advance (s : Nat × Nat × Bool) (c : UInt8) : Nat × Nat × Bool :=
  if isdigit c = false then (s.1 + 1,s.1 + 1,true)
  else if c ≠ 0x30 then (s.1 + 1,s.2.1,false)
  else (s.1 + 1,s.2.1,s.2.2)

theorem scan_advance {p a b : List UInt8} (hp : 0 ∉ p) (h : charAt a 0 ≠ charAt b 0) (i dp : Nat) (z : Bool) :
    scan (p ++ a) (p ++ b) i dp z = some (p.foldl advance (i,dp,z)) := by
  induction p generalizing i dp z with
  | nil =>
    rw [List.nil_append,List.nil_append,List.foldl_nil]
    cases a with
    | nil =>
      have hb : charAt b 0 ≠ 0 := Ne.symm h
      rw [scan,if_neg hb]
    | cons c a =>
      have hc : c ≠ charAt b 0 := h
      rw [scan,if_pos hc]
  | cons c p ih =>
    have hc : c ≠ 0 := fun h0 => hp (List.mem_cons.mpr (.inl h0.symm))
    have ih := ih fun h0 => hp (List.mem_cons_of_mem c h0)
    rw [List.cons_append,List.cons_append,scan,charAt_cons_zero,if_neg (not_not_intro rfl),if_neg hc,List.tail_cons,
      List.foldl_cons,advance]
    split_ifs <;> exact ih ..

theorem scan_same {p : List UInt8} (hp : 0 ∉ p) (i dp : Nat) (z : Bool) : scan p p i dp z = none := by
  induction p generalizing i dp z with
  | nil => rfl
  | cons c p ih =>
    have hc : c ≠ 0 := fun h0 => hp (List.mem_cons.mpr (.inl h0.symm))
    have ih := ih fun h0 => hp (List.mem_cons_of_mem c h0)
    rw [scan,charAt_cons_zero,if_neg (not_not_intro rfl),if_neg hc,List.tail_cons]
    split_ifs <;> exact ih ..

theorem run_concat (p : List UInt8) (c : UInt8) : run (p ++ [c]) = if isdigit c then run p ++ [c] else [] :=
  List.rtakeWhile_concat isdigit p c

theorem advance_run (p : List UInt8) : p.foldl advance (0,0,true) =
    (p.length,p.length - (run p).length,(run p).all (· = 0x30)) := by
  induction p using List.reverseRecOn with
  | nil => rfl
  | append_singleton p c ih =>
    have hle : (run p).length ≤ p.length := (List.rtakeWhile_suffix isdigit p).length_le
    rw [List.foldl_append,ih,List.foldl_cons,List.foldl_nil,advance,run_concat]
    by_cases hc : isdigit c = true
    · rw [if_neg (by simp [hc]),if_pos hc]
      by_cases h0 : c = 0x30
      · rw [if_neg (not_not_intro h0)]
        simp [h0]
      · rw [if_pos h0]
        simp [h0]
    · rw [if_pos (by simpa using hc),if_neg hc]
      simp

theorem longerRun_eq (a b : List UInt8) : longerRun a b =
    if runLen b < runLen a then some 1 else if runLen a < runLen b then some (-1) else none := by
  induction a generalizing b with
  | nil =>
    rw [longerRun,runLen_nil,if_neg (Nat.not_lt_zero _)]
    simp only [runLen_pos]
  | cons c a ih =>
    rw [longerRun,runLen_cons]
    by_cases hc : isdigit c = true
    · rw [if_pos hc,if_pos hc]
      cases b with
      | nil => rfl
      | cons e b =>
        rw [charAt_cons_zero,runLen_cons,List.tail_cons]
        by_cases he : isdigit e = true
        · rw [if_pos he,if_pos he,ih]
          simp
        · rw [if_neg he,if_neg he,if_pos (Nat.succ_pos _)]
    · rw [if_neg hc,if_neg hc,if_neg (Nat.not_lt_zero _)]
      simp only [runLen_pos]

def byLength (a b : List UInt8) : Int :=
  if runLen b < runLen a then 1 else if runLen a < runLen b then -1 else difference (charAt a 0) (charAt b 0)

theorem strverscmp_parted {p a b : List UInt8} (hp : 0 ∉ p) (h : charAt a 0 ≠ charAt b 0) :
    strverscmp (p ++ a) (p ++ b) =
      if run p ≠ [] ∨ charAt a 0 < 0x3a ∧ charAt b 0 < 0x3a then byLength a b
      else difference (charAt a 0) (charAt b 0) := by
  obtain ⟨q,hq,-⟩ := run_split p
  have hle : (run p).length ≤ p.length := (List.rtakeWhile_suffix isdigit p).length_le
  have hlen : p.length - (run p).length = q.length := by
    have := congrArg List.length hq
    rw [List.length_append] at this
    omega
  have hstart : ∀ s, charAt (p ++ s) (p.length - (run p).length) = charAt (run p ++ s) 0 := by
    intro s
    have happend : p ++ s = q ++ (run p ++ s) := by rw [← List.append_assoc,← hq]
    rw [happend,hlen,charAt_append]
  have hlong : (longerRun a b).getD (difference (charAt a 0) (charAt b 0)) = byLength a b := by
    rw [longerRun_eq,byLength]
    split_ifs <;> rfl
  unfold strverscmp
  rw [scan_advance hp h,advance_run]
  dsimp only
  rw [hstart,hstart,charAt_append,charAt_append,List.drop_left,List.drop_left,hlong]
  by_cases hr : run p = []
  · rw [hr,List.nil_append,List.nil_append]
    simp
  · obtain ⟨c,d,hd⟩ := List.exists_cons_of_ne_nil hr
    have hc : c < 0x3a := by
      have := isdigit_iff.mp (runs_digits c (by rw [hd]; simp))
      rw [UInt8.lt_iff_toNat_lt,show (0x3a : UInt8).toNat = 58 from rfl]
      omega
    have hhead : charAt (run p ++ a) 0 < 0x31 + 9 ∧ charAt (run p ++ b) 0 < 0x31 + 9 := by
      rw [hd]
      exact ⟨hc,hc⟩
    have hany : run p ≠ [] ∨ charAt a 0 < 0x3a ∧ charAt b 0 < 0x3a := .inl hr
    rw [if_pos hhead,if_pos hany]

theorem difference_ne {x y : UInt8} (h : x ≠ y) : difference x y ≠ 0 := by
  have := toNat_ne.mp h
  unfold difference
  omega

theorem strverscmp_ne {p a b : List UInt8} (hp : 0 ∉ p) (h : charAt a 0 ≠ charAt b 0) :
    strverscmp (p ++ a) (p ++ b) ≠ 0 := by
  rw [strverscmp_parted hp h,byLength]
  split_ifs
  · decide
  · decide
  · exact difference_ne h
  · exact difference_ne h

theorem misplaced_irrefl (d a : List UInt8) : ¬Misplaced d a a := fun h => lt_irrefl _ h.2.2.1

theorem difference_neg {x y : UInt8} : difference x y < 0 ↔ x < y := by
  rw [difference,UInt8.lt_iff_toNat_lt]
  omega

theorem difference_pos {x y : UInt8} : 0 < difference x y ↔ y < x := by
  rw [difference,UInt8.lt_iff_toNat_lt]
  omega

theorem byLength_neg (a b : List UInt8) : byLength a b < 0 ↔ AsIntegers a b := by
  rw [byLength,AsIntegers,← difference_neg]
  split_ifs <;> omega

theorem byLength_pos (a b : List UInt8) : 0 < byLength a b ↔ AsIntegers b a := by
  rw [byLength,AsIntegers,← difference_pos]
  split_ifs <;> omega

theorem bare_agrees {a b : List UInt8} (h : charAt a 0 ≠ charAt b 0) :
    ((if charAt a 0 < 0x3a ∧ charAt b 0 < 0x3a then AsIntegers a b else charAt a 0 < charAt b 0) ↔ Precedes [] a b) ↔
      ¬Misplaced [] a b ∧ ¬Misplaced [] b a := by
  have hx := @runLen_pos a
  have hy := @runLen_pos b
  have hne := toNat_ne.mp h
  rw [isdigit_iff] at hx hy
  rw [Precedes,if_neg (fun hf : Fraction [] a b => hf.1 rfl)]
  simp only [Misplaced,Counts,List.nil_append,AsIntegers,isdigit_iff,ne_eq,not_true_eq_false,false_and,or_false,
    ← UInt8.toNat_inj,UInt8.lt_iff_toNat_lt,UInt8.reduceToNat]
  generalize (charAt a 0).toNat = x at *
  generalize (charAt b 0).toNat = y at *
  by_cases hsmall : x < 58 ∧ y < 58
  · rw [if_pos hsmall]
    by_cases hboth : ((48 ≤ x ∧ x ≤ 57) ∧ ¬x = 48) ∧ (48 ≤ y ∧ y ≤ 57) ∧ ¬y = 48
    · rw [if_pos hboth]
      exact iff_of_true Iff.rfl (by omega)
    · rw [if_neg hboth]
      rcases lt_or_gt_of_ne hne with hlt | hlt
      · simp only [hlt,hlt.not_gt,and_true,and_false,not_false_eq_true,iff_true]
        omega
      · simp only [hlt,hlt.not_gt,and_true,and_false,or_false,not_false_eq_true,iff_false,true_and]
        omega
  · rw [if_neg hsmall,if_neg (by omega)]
    exact iff_of_true Iff.rfl (by omega)

theorem tailed_agrees {c : UInt8} {d a b : List UInt8} (hd : ∀ e ∈ c :: d, isdigit e = true) (h : charAt a 0 ≠ charAt b 0) :
    (AsIntegers a b ↔ Precedes (c :: d) a b) ↔ ¬Misplaced (c :: d) a b ∧ ¬Misplaced (c :: d) b a := by
  have hx := @runLen_pos a
  have hy := @runLen_pos b
  have hne := toNat_ne.mp h
  have hc := hd c (by simp)
  have hcount : ∀ s, Counts (c :: d ++ s) ↔ c ≠ 0x30 := fun s => and_iff_right hc
  rw [isdigit_iff] at hx hy
  by_cases hzero : c = 0x30
  · rw [Precedes,if_neg fun hb => (hcount a).mp hb.1 hzero]
    simp only [Misplaced,Fraction,AsIntegers,AsFractions,List.cons_append,charAt_cons_zero,hzero,and_self,true_or,true_and,ne_eq,
      List.cons_ne_nil,not_false_eq_true,isdigit_iff,← Bool.not_eq_true,UInt8.lt_iff_toNat_lt,UInt8.reduceToNat]
    generalize (charAt a 0).toNat = x at *
    generalize (charAt b 0).toNat = y at *
    by_cases hz : Zeros (0x30 :: d)
    · simp only [hz,true_and]
      split_ifs <;> omega
    · simp only [hz,false_and,if_false,or_false]
      omega
  · rw [Precedes,if_pos ⟨(hcount a).mpr hzero,(hcount b).mpr hzero⟩]
    have hno : ∀ a b, ¬Misplaced (c :: d) a b := fun a b hm => hm.2.1.elim hzero hzero
    exact iff_of_true Iff.rfl ⟨hno a b,hno b a⟩

theorem agrees_parted {d a b : List UInt8} (hd : ∀ c ∈ d, isdigit c = true) (h : charAt a 0 ≠ charAt b 0) :
    (((if d ≠ [] ∨ charAt a 0 < 0x3a ∧ charAt b 0 < 0x3a then byLength a b
        else difference (charAt a 0) (charAt b 0)) < 0 ↔ Precedes d a b) ∧
      (0 < (if d ≠ [] ∨ charAt a 0 < 0x3a ∧ charAt b 0 < 0x3a then byLength a b
        else difference (charAt a 0) (charAt b 0)) ↔ Precedes d b a)) ↔
      ¬Misplaced d a b ∧ ¬Misplaced d b a := by
  rw [apply_ite (· < (0 : Int)),apply_ite ((0 : Int) < ·),byLength_neg,byLength_pos,difference_neg,difference_pos]
  cases d with
  | nil =>
    have hback := bare_agrees h.symm
    rw [if_congr and_comm rfl rfl,and_comm (a := ¬Misplaced [] b a)] at hback
    simp only [ne_eq,not_true_eq_false,false_or]
    rw [bare_agrees h,hback,and_self]
  | cons c d =>
    have hback := tailed_agrees hd h.symm
    rw [and_comm] at hback
    simp only [ne_eq,List.cons_ne_nil,not_false_eq_true,true_or,if_true]
    rw [tailed_agrees hd h,hback,and_self]

theorem strverscmp_orders_iff (l r : CString) : IsStrictTotalOrder CString ComesFirst ∧
    (Agrees l r ↔ ¬AtMismatch Misplaced l r ∧ ¬AtMismatch Misplaced r l) := by
  refine ⟨comesFirst_order,?_⟩
  obtain ⟨p,a,b,hl,hr,hapart,hat⟩ := parted l r
  have hp : 0 ∉ p := fun h => l.plain (by rw [hl]; exact List.mem_append_left a h)
  rw [Agrees,ComesFirst,(hat Precedes).1,(hat Precedes).2,(hat Misplaced).1,(hat Misplaced).2]
  by_cases heq : l = r
  · subst heq
    obtain rfl : a = b := List.append_cancel_left (hl.symm.trans hr)
    have hsame : strverscmp l.chars l.chars = 0 := by
      rw [strverscmp,scan_same l.plain]
    have hnot := precedes_irrefl (run p) a
    have hmis := misplaced_irrefl (run p) a
    rw [hsame]
    simp [hnot,hmis]
  · have hne := hapart.resolve_left heq
    have hsign := @agrees_parted (run p) a b runs_digits hne
    have hzero := strverscmp_ne hp hne
    rw [← strverscmp_parted hp hne,← hl,← hr] at hsign
    rw [← hl,← hr] at hzero
    rw [← hsign,iff_false_intro hzero,iff_false_intro heq]
    simp only [true_and,iff_self]

def zeroRun (n : Nat) : CString := ⟨List.replicate n 0x30,by simp [List.mem_replicate]⟩

theorem zeroRun_misplaced : ¬Agrees (zeroRun 3) (zeroRun 2) := by
  rintro ⟨h,-⟩
  exact absurd (h.mpr (by decide)) (by decide)

end Strverscmp
