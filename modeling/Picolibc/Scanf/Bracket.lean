import Mathlib
import Picolibc.Scanf.Input

namespace Scanf

namespace Bracket

structure Scan where
  input : Input
  stored : List UInt8
  next : Option (List UInt8)
  deriving DecidableEq, Repr

def inRange (cbelow : UInt8) (wi : Option UInt8) (cabove : UInt8) : Bool :=
  wi.any fun c => cbelow ≤ c && c ≤ cabove

def scanset (wi : Option UInt8) : Bool → Bool → UInt8 → Bool → List UInt8 → Option (Bool × List UInt8)
  | _, _, _, _, [] => none
  | first, frange, cabove, fmatch, f :: fmt =>
    if f = 0 then none else
    if first = false ∧ f = 0x5d then some (fmatch,fmt) else
    if first = false ∧ f = 0x2d ∧ frange = false ∧ fmt.head? ≠ some 0x5d then scanset wi false true cabove fmatch fmt else
    let cbelow := if frange then cabove else f
    scanset wi false false f (fmatch || inRange cbelow wi f) fmt

def put (addr : Bool) (stored : List UInt8) (c : UInt8) : List UInt8 := if addr then stored ++ [c] else stored

def close (addr fany : Bool) (stored : List UInt8) (s : Input) (fmt : List UInt8) : Scan :=
  if fany then ⟨s,put addr stored 0,some fmt⟩ else ⟨s,stored,none⟩

def loop (addr fnegate : Bool) (fmt : List UInt8) (fany : Bool) (stored : List UInt8) (width : BitVec 32) (s : Input) :
    Scan :=
  match _h : s.scanfGetc.1 with
  | none =>
    match scanset none true false 0 false fmt with
    | none => ⟨s.scanfGetc.2,stored,none⟩
    | some (_,next) => close addr fany stored s.scanfGetc.2 next
  | some wi =>
    match scanset (some wi) true false 0 false fmt with
    | none => ⟨s.scanfGetc.2,stored,none⟩
    | some (fmatch,next) =>
      if fmatch = fnegate then close addr fany stored (s.scanfGetc.2.scanfUngetc (some wi)) next else
      if width - 1 = 0 then close addr true (put addr stored wi) s.scanfGetc.2 next else
      loop addr fnegate fmt true (put addr stored wi) (width - 1) s.scanfGetc.2
termination_by s.unread.length
decreasing_by exact Input.scanfGetc_lt _h

def convBrk (s : Input) (width : BitVec 32) (addr : Bool) (fmt : List UInt8) : Scan :=
  let fnegate := fmt.head? = some 0x5e
  loop addr fnegate (if fnegate then fmt.tail else fmt) false [] width s

inductive Item where
  | one (c : UInt8)
  | range (a b : UInt8)
  deriving DecidableEq, Repr

namespace Item

def first : Item → UInt8
  | .one c => c
  | .range a _ => a

def text : Item → List UInt8
  | .one c => [c]
  | .range a b => [a,0x2d,b]

def denotes : Item → UInt8 → Bool
  | .one c => fun x => x = c
  | .range a b => fun x => a ≤ x && x ≤ b

def Ordered : Item → Prop
  | .one c => c ≠ 0
  | .range a b => a ≠ 0 ∧ a ≤ b ∧ b ≠ 0x5d

end Item

structure Spec where
  negated : Bool
  items : List Item
  hyphen : Bool
  nonempty : items ≠ [] ∨ hyphen = true
  ordered : ∀ i ∈ items, i.Ordered
  plain : ∀ i ∈ items.tail, i.first ≠ 0x5d ∧ i.first ≠ 0x2d
  unsigned : negated = false → ∀ i ∈ items.head?, i.first ≠ 0x5e

namespace Spec

variable (spec : Spec)

def trailing : List UInt8 := if spec.hyphen then [0x2d] else []

def body : List UInt8 := spec.items.flatMap Item.text ++ spec.trailing

def text : List UInt8 := (if spec.negated then [0x5e] else []) ++ spec.body ++ [0x5d]

def listed (c : UInt8) : Bool := spec.items.any (fun i => i.denotes c) || spec.hyphen && c = 0x2d

def denotes (c : UInt8) : Bool := spec.listed c != spec.negated

end Spec

def taken (spec : Spec) (width : Nat) (l : List UInt8) : List UInt8 := (l.take width).takeWhile spec.denotes

structure Matches (spec : Spec) (width : Nat) (addr : Bool) (rest : List UInt8) (s : Input) (r : Scan) : Prop where
  stored : r.stored =
    if addr = true ∧ taken spec width s.unread ≠ [] then taken spec width s.unread ++ [0] else []
  unread : r.input.unread = s.unread.drop (taken spec width s.unread).length
  counted : r.input.len = s.len + (taken spec width s.unread).length
  next : r.next = if taken spec width s.unread = [] then none else some rest

theorem inRange_self (wi : Option UInt8) (c : UInt8) : inRange c wi c = wi.any fun x => x = c := by
  cases wi with
  | none => rfl
  | some x =>
    show (c ≤ x && x ≤ c) = decide (x = c)
    rw [Bool.eq_iff_iff]
    simp only [Bool.and_eq_true,decide_eq_true_eq]
    constructor
    · exact fun h => UInt8.le_antisymm h.2 h.1
    · rintro rfl
      exact ⟨UInt8.le_refl x,UInt8.le_refl x⟩

theorem range_denotes (wi : Option UInt8) {a b : UInt8} (h : a ≤ b) :
    (inRange a wi a || inRange a wi b) = wi.any (Item.range a b).denotes := by
  cases wi with
  | none => rfl
  | some x =>
    show (a ≤ x && x ≤ a || (a ≤ x && x ≤ b)) = (a ≤ x && x ≤ b)
    rw [Bool.eq_iff_iff]
    simp only [Bool.or_eq_true,Bool.and_eq_true,decide_eq_true_eq]
    exact ⟨fun hx => hx.elim (fun hx => ⟨hx.1,UInt8.le_trans hx.2 h⟩) id,.inr⟩

theorem scanset_char (wi : Option UInt8) {first : Bool} {f : UInt8} (hzero : f ≠ 0) (h : first = true ∨ f ≠ 0x5d ∧ f ≠ 0x2d)
    (cabove : UInt8) (m : Bool) (fmt : List UInt8) :
    scanset wi first false cabove m (f :: fmt) = scanset wi false false f (m || wi.any fun x => x = f) fmt := by
  have hstop : ¬(first = false ∧ f = 0x5d) := by
    rintro ⟨hfirst,hf⟩
    exact h.elim (fun h => by simp [h] at hfirst) fun h => h.1 hf
  have hrange : ¬(first = false ∧ f = 0x2d ∧ false = false ∧ fmt.head? ≠ some 0x5d) := by
    rintro ⟨hfirst,hf,-⟩
    exact h.elim (fun h => by simp [h] at hfirst) fun h => h.2 hf
  rw [scanset,if_neg hzero,if_neg hstop,if_neg hrange]
  simp only [Bool.false_eq_true,if_false,inRange_self]

theorem scanset_range (wi : Option UInt8) {a b : UInt8} (hzero : b ≠ 0) (hb : b ≠ 0x5d) (m : Bool) (fmt : List UInt8) :
    scanset wi false false a m (0x2d :: b :: fmt) = scanset wi false false b (m || inRange a wi b) fmt := by
  rw [scanset,if_neg (by decide),if_neg (by decide),if_pos ⟨rfl,rfl,rfl,by simpa using hb⟩,scanset,if_neg hzero,
    if_neg fun h => hb h.2,if_neg (by simp)]
  rfl

theorem scanset_item (wi : Option UInt8) {first : Bool} {i : Item} (hi : i.Ordered)
    (h : first = true ∨ i.first ≠ 0x5d ∧ i.first ≠ 0x2d) (cabove : UInt8) (m : Bool) (fmt : List UInt8) :
    ∃ c, scanset wi first false cabove m (i.text ++ fmt) = scanset wi false false c (m || wi.any i.denotes) fmt := by
  cases i with
  | one f => exact ⟨f,scanset_char wi hi h cabove m fmt⟩
  | range a b =>
    have hzero : b ≠ 0 := by
      rintro rfl
      exact hi.1 (UInt8.le_antisymm hi.2.1 UInt8.zero_le)
    refine ⟨b,(scanset_char wi hi.1 h cabove m (0x2d :: b :: fmt)).trans ?_⟩
    rw [scanset_range wi hzero hi.2.2]
    show scanset wi false false b ((m || wi.any fun x => x = a) || inRange a wi b) fmt = _
    rw [← inRange_self,Bool.or_assoc,range_denotes wi hi.2.1]

theorem any_or (wi : Option UInt8) (p q : UInt8 → Bool) : (wi.any fun x => p x || q x) = (wi.any p || wi.any q) := by
  cases wi <;> rfl

theorem scanset_items (wi : Option UInt8) {items : List Item} (hordered : ∀ i ∈ items, i.Ordered)
    (hplain : ∀ i ∈ items, i.first ≠ 0x5d ∧ i.first ≠ 0x2d) (cabove : UInt8) (m : Bool) (fmt : List UInt8) :
    ∃ c, scanset wi false false cabove m (items.flatMap Item.text ++ fmt) =
      scanset wi false false c (m || wi.any fun x => items.any fun i => i.denotes x) fmt := by
  induction items generalizing cabove m with
  | nil => exact ⟨cabove,by cases wi <;> simp⟩
  | cons i items ih =>
    obtain ⟨c,hc⟩ := @scanset_item wi false i (hordered i List.mem_cons_self) (.inr (hplain i List.mem_cons_self))
      cabove m (items.flatMap Item.text ++ fmt)
    obtain ⟨c',hc'⟩ := ih (fun j hj => hordered j (List.mem_cons_of_mem i hj))
      (fun j hj => hplain j (List.mem_cons_of_mem i hj)) c (m || wi.any i.denotes)
    refine ⟨c',?_⟩
    rw [List.flatMap_cons,List.append_assoc,hc,hc',Bool.or_assoc,← any_or]
    rfl

theorem scanset_end (wi : Option UInt8) (hyphen : Bool) (cabove : UInt8) (m : Bool) (rest : List UInt8) :
    scanset wi false false cabove m ((if hyphen then [0x2d] else []) ++ 0x5d :: rest) =
      some (m || wi.any fun x => hyphen && x = 0x2d,rest) := by
  cases hyphen with
  | false =>
    have hnone : (wi.any fun x => false && decide (x = 0x2d)) = false := by cases wi <;> rfl
    rw [hnone,Bool.or_false]
    exact (if_neg (by decide)).trans (if_pos ⟨rfl,rfl⟩)
  | true =>
    show scanset wi false false cabove m (0x2d :: 0x5d :: rest) = _
    rw [scanset,if_neg (by decide),if_neg (by decide),if_neg (by simp),scanset,if_neg (by decide),if_pos ⟨rfl,rfl⟩]
    simp only [Bool.false_eq_true,if_false,inRange_self,Bool.true_and]

theorem scanset_spec (spec : Spec) (wi : Option UInt8) (rest : List UInt8) :
    scanset wi true false 0 false (spec.body ++ 0x5d :: rest) = some (wi.any spec.listed,rest) := by
  obtain ⟨negated,items,hyphen,hnonempty,hordered,hplain,-⟩ := spec
  unfold Spec.body Spec.listed Spec.trailing
  rw [any_or,List.append_assoc]
  cases items with
  | nil =>
    obtain rfl : hyphen = true := hnonempty.resolve_left fun h => h rfl
    have hnone : (wi.any fun x => ([] : List Item).any fun i => i.denotes x) = false := by cases wi <;> rfl
    rw [hnone]
    show scanset wi true false 0 false (0x2d :: 0x5d :: rest) = _
    rw [scanset_char wi (by decide) (.inl rfl),scanset,if_neg (by decide),if_pos ⟨rfl,rfl⟩]
    rfl
  | cons i items =>
    obtain ⟨c,hc⟩ := @scanset_item wi true i (hordered i List.mem_cons_self) (.inl rfl) 0 false
      (items.flatMap Item.text ++ ((if hyphen then [0x2d] else []) ++ 0x5d :: rest))
    obtain ⟨c',hc'⟩ := scanset_items wi (fun j hj => hordered j (List.mem_cons_of_mem i hj)) hplain c
      (false || wi.any i.denotes) ((if hyphen then [0x2d] else []) ++ 0x5d :: rest)
    rw [List.flatMap_cons,List.append_assoc,hc,hc',scanset_end,Bool.false_or,← any_or]
    rfl

def putAll (addr : Bool) (stored l : List UInt8) : List UInt8 := if addr then stored ++ l else stored

theorem putAll_nil (addr : Bool) (stored : List UInt8) : putAll addr stored [] = stored := by
  cases addr <;> simp [putAll]

theorem putAll_cons (addr : Bool) (stored : List UInt8) (c : UInt8) (l : List UInt8) :
    putAll addr (put addr stored c) l = putAll addr stored (c :: l) := by
  cases addr <;> simp [putAll,put]

section

variable {addr fnegate : Bool} {fmt next : List UInt8} {p : UInt8 → Bool}

theorem loop_nil (hset : ∀ wi, scanset wi true false 0 false fmt = some (wi.any p,next)) {s : Input}
    (hs : s.unread = []) (fany : Bool) (stored : List UInt8) (width : BitVec 32) :
    loop addr fnegate fmt fany stored width s = close addr fany stored s.scanfGetc.2 next := by
  rw [loop]
  split
  next => simp only [hset]
  next wi h => exact absurd ((Input.scanfGetc_nil hs).1.symm.trans h) (by simp)

theorem loop_cons (hset : ∀ wi, scanset wi true false 0 false fmt = some (wi.any p,next)) {s : Input} {c : UInt8}
    {l : List UInt8} (hs : s.unread = c :: l) (fany : Bool) (stored : List UInt8) (width : BitVec 32) :
    loop addr fnegate fmt fany stored width s =
      if p c = fnegate then close addr fany stored (s.scanfGetc.2.scanfUngetc (some c)) next else
      if width - 1 = 0 then close addr true (put addr stored c) s.scanfGetc.2 next else
      loop addr fnegate fmt true (put addr stored c) (width - 1) s.scanfGetc.2 := by
  rw [loop]
  split
  next h => exact absurd ((Input.scanfGetc_cons hs).1.symm.trans h) (by simp)
  next wi h =>
    obtain rfl := Option.some.inj ((Input.scanfGetc_cons hs).1.symm.trans h)
    simp only [hset,Option.any_some]

def accepted (p : UInt8 → Bool) (fnegate : Bool) (n : Nat) (l : List UInt8) : List UInt8 :=
  (l.take n).takeWhile fun c => p c != fnegate

theorem width_step {width : BitVec 32} (h : width - 1 ≠ 0) : (width - 1).toNat = (width - 1 - 1).toNat + 1 := by
  have hpos : (width - 1).toNat ≠ 0 := fun hzero => h (BitVec.eq_of_toNat_eq hzero)
  bv_omega

theorem loop_spec (hset : ∀ wi, scanset wi true false 0 false fmt = some (wi.any p,next)) (fany : Bool)
    (stored : List UInt8) (width : BitVec 32) (s : Input) :
    ∃ s', loop addr fnegate fmt fany stored width s =
        close addr (fany || !(accepted p fnegate ((width - 1).toNat + 1) s.unread).isEmpty)
          (putAll addr stored (accepted p fnegate ((width - 1).toNat + 1) s.unread)) s' next ∧
      s'.unread = s.unread.drop (accepted p fnegate ((width - 1).toNat + 1) s.unread).length ∧
      s'.len = s.len + (accepted p fnegate ((width - 1).toNat + 1) s.unread).length := by
  generalize hl : s.unread = l
  induction l generalizing fany stored width s with
  | nil =>
    obtain ⟨-,hunread,hlen⟩ := Input.scanfGetc_nil hl
    refine ⟨s.scanfGetc.2,?_,by simpa [accepted] using hunread,by simpa [accepted] using hlen⟩
    rw [loop_nil hset hl]
    simp [accepted,putAll_nil]
  | cons c l ih =>
    obtain ⟨-,hunread,hlen,hunget⟩ := Input.scanfGetc_cons hl
    rw [loop_cons hset hl]
    by_cases hmatch : p c = fnegate
    · have hnone : accepted p fnegate ((width - 1).toNat + 1) (c :: l) = [] :=
        List.takeWhile_cons_of_neg (by simp [hmatch])
      obtain ⟨hback,hcount⟩ := Input.scanfUngetc_some c hunget
      rw [if_pos hmatch,hnone,putAll_nil]
      refine ⟨s.scanfGetc.2.scanfUngetc (some c),by simp,by simpa [hunread] using hback,?_⟩
      rw [hcount,hlen]
      simp
    · have hmore : accepted p fnegate ((width - 1).toNat + 1) (c :: l) = c :: accepted p fnegate (width - 1).toNat l :=
        List.takeWhile_cons_of_pos (by simpa using hmatch)
      rw [if_neg hmatch,hmore,← putAll_cons]
      by_cases hlast : width - 1 = 0
      · have hnone : accepted p fnegate (width - 1).toNat l = [] := by rw [hlast]; rfl
        rw [if_pos hlast,hnone,putAll_nil]
        exact ⟨s.scanfGetc.2,by simp,by simpa using hunread,by simpa using hlen⟩
      · obtain ⟨s',hrun,hleft,hread⟩ := ih true (put addr stored c) (width - 1) s.scanfGetc.2 hunread
        rw [if_neg hlast,width_step hlast]
        refine ⟨s',?_,by simpa using hleft,?_⟩
        · simpa using hrun
        · rw [hread,hlen,List.length_cons]
          push_cast
          ring

end

theorem spec_text (spec : Spec) (rest : List UInt8) :
    (if (spec.text ++ rest).head? = some 0x5e then (spec.text ++ rest).tail else spec.text ++ rest) =
        spec.body ++ 0x5d :: rest ∧
      ((spec.text ++ rest).head? = some 0x5e ↔ spec.negated = true) := by
  have hbody : spec.body ++ [0x5d] ++ rest = spec.body ++ 0x5d :: rest := by simp
  unfold Spec.text
  cases hneg : spec.negated with
  | true => simp
  | false =>
    have hhead : (spec.body ++ 0x5d :: rest).head? ≠ some 0x5e := by
      unfold Spec.body Spec.trailing
      cases hitems : spec.items with
      | nil =>
        have hhyphen := spec.nonempty.resolve_left fun h => h hitems
        simp [hhyphen]
      | cons i items =>
        have hfirst := spec.unsigned hneg i (by simp [hitems])
        cases i <;> simpa [Item.text,Item.first] using hfirst
    simp only [Bool.false_eq_true,if_false,List.nil_append,hbody,hhead,iff_self,and_self]

theorem close_matches {spec : Spec} {n : Nat} {addr : Bool} {rest t : List UInt8} {s s' : Input}
    (ht : taken spec n s.unread = t) (hunread : s'.unread = s.unread.drop t.length) (hlen : s'.len = s.len + t.length) :
    Matches spec n addr rest s (close addr (!t.isEmpty) (putAll addr [] t) s' rest) := by
  subst ht
  cases htaken : taken spec n s.unread with
  | nil =>
    rw [htaken] at hunread hlen
    constructor
    · simp [close,htaken,putAll_nil]
    · simpa [close,htaken] using hunread
    · simpa [close,htaken] using hlen
    · simp [close,htaken]
  | cons c l =>
    rw [htaken] at hunread hlen
    constructor
    · cases addr <;> simp [close,putAll,put,htaken]
    · simpa [close,htaken] using hunread
    · simpa [close,htaken] using hlen
    · simp [close,htaken]

theorem convBrk_spec (spec : Spec) (width : BitVec 32) (addr : Bool) (rest : List UInt8) (s : Input) :
    Matches spec ((width - 1).toNat + 1) addr rest s (convBrk s width addr (spec.text ++ rest)) := by
  obtain ⟨hbody,hneg⟩ := spec_text spec rest
  obtain ⟨s',hrun,hunread,hlen⟩ := @loop_spec addr spec.negated (spec.body ++ 0x5d :: rest) rest spec.listed
    (fun wi => scanset_spec spec wi rest) false [] width s
  have hflag : decide ((spec.text ++ rest).head? = some 0x5e) = spec.negated := by
    cases hvalue : spec.negated with
    | true => exact decide_eq_true (hneg.mpr hvalue)
    | false => exact decide_eq_false fun h => by simp [hneg.mp h] at hvalue
  have hbrk : convBrk s width addr (spec.text ++ rest) =
      loop addr spec.negated (spec.body ++ 0x5d :: rest) false [] width s := by
    rw [← hbody,← hflag]
    simp [convBrk]
  rw [hbrk,hrun,Bool.false_or]
  exact close_matches rfl hunread hlen

theorem matches_congr {spec : Spec} {n m : Nat} {addr : Bool} {rest : List UInt8} {s : Input} {r : Scan}
    (htaken : taken spec n s.unread = taken spec m s.unread) (h : Matches spec n addr rest s r) :
    Matches spec m addr rest s r := by
  obtain ⟨hstored,hunread,hcounted,hnext⟩ := h
  rw [htaken] at hstored hunread hcounted hnext
  exact ⟨hstored,hunread,hcounted,hnext⟩

theorem taken_nil_iff (spec : Spec) (n : Nat) (l : List UInt8) :
    taken spec (n + 1) l = [] ↔ ∀ c ∈ l.head?, spec.denotes c = false := by
  cases l with
  | nil => simp [taken]
  | cons c l => simp [taken,List.takeWhile_cons]

theorem scanset_iff (spec : Spec) (width : BitVec 32) (addr : Bool) (rest : List UInt8) (s : Input) :
    Matches spec width.toNat addr rest s (convBrk s width addr (spec.text ++ rest)) ↔
      (width = 0 → ∀ c ∈ s.unread.head?, spec.denotes c = false) := by
  have hspec := convBrk_spec spec width addr rest s
  by_cases hwidth : width = 0
  · subst hwidth
    have hnone : taken spec (0 : BitVec 32).toNat s.unread = [] := by simp [taken]
    rw [forall_prop_of_true (rfl : (0 : BitVec 32) = 0),← taken_nil_iff spec ((0 : BitVec 32) - 1).toNat]
    constructor
    · intro h
      have hnext := h.next
      rw [hspec.next,if_pos hnone] at hnext
      by_contra hsome
      rw [if_neg hsome] at hnext
      exact Option.some_ne_none rest hnext
    · exact fun h => matches_congr (h.trans hnone.symm) hspec
  · have hcount : (width - 1).toNat + 1 = width.toNat := by
      have hpos : width.toNat ≠ 0 := fun hzero => hwidth (BitVec.eq_of_toNat_eq hzero)
      bv_omega
    rw [hcount] at hspec
    exact ⟨fun _ h => absurd h hwidth,fun _ => hspec⟩

theorem letterA_ordered : ∀ i ∈ [Item.one 0x61], i.Ordered := by
  intro i hi
  rw [List.mem_singleton.mp hi]
  show (0x61 : UInt8) ≠ 0
  decide

theorem letterA_unsigned : ∀ i ∈ [Item.one 0x61].head?, i.first ≠ 0x5e := by
  intro i hi
  obtain rfl := Option.some.inj hi
  decide

def letterA : Spec where
  negated := false
  items := [.one 0x61]
  hyphen := false
  nonempty := .inl (List.cons_ne_nil _ _)
  ordered := letterA_ordered
  plain := fun _ hi => absurd hi List.not_mem_nil
  unsigned := fun _ => letterA_unsigned

theorem zero_width :
    ¬Matches letterA (0 : BitVec 32).toNat true [] (Input.ofString [0x61,0x61,0x61])
      (convBrk (Input.ofString [0x61,0x61,0x61]) 0 true (letterA.text ++ [])) :=
  fun h => absurd h.next (by decide +kernel)

end Bracket

end Scanf
