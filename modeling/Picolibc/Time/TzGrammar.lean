import Mathlib
import Picolibc.Time.History

namespace Tz

open Time

structure Setting where
  std : Option (List Char)
  dst : Option (List Char)
  rule0 : Rule
  rule1 : Rule
  deriving DecidableEq, Repr

def scanned (allowed : Char → Bool) (s : List Char) : Option (List Char) :=
  if scanName allowed s = [] then none else some (scanName allowed s)

def nameBuffer (s : List Char) : Option (List Char) :=
  if charAt s 0 = '<' then scanned isTzQuoted s.tail else scanned isTzAlpha s

def skipColon (tzenv : List Char) : List Char := if charAt tzenv 0 = ':' then tzenv.tail else tzenv

def readSetting (T : Target) (tzenv : List Char) : Option Setting := do
  let s := skipColon tzenv
  let std := nameBuffer s
  let s ← readStd s
  let (sign,s) := readSign s
  let (vs,rest) := scanHus ':' 3 s
  if vs = [] then none
  else do
    let offset := sign * hms vs 0
    match readDst rest (s.length - rest.length) with
    | .bad => none
    | .absent => pure ⟨std,std,{ zeroRule with offset := offset },{ zeroRule with offset := offset }⟩
    | .named s => do
      let dst := nameBuffer rest
      let (sign,s) := readSign s
      let (vs,rest) := scanHus ':' 3 s
      let dstOffset := if vs = [] then offset - 3600 else sign * hms vs 0
      let (rule0,s) ← readRule T true offset rest
      let (rule1,_) ← readRule T false dstOffset s
      pure ⟨std,dst,rule0,rule1⟩

def gmt : Setting := ⟨some "GMT".toList,some "GMT".toList,defaultTzrule,defaultTzrule⟩

def setting (T : Target) (tzenv : Option (List Char)) : Setting := (tzenv.bind (readSetting T)).getD gmt

theorem readSetting_rules (T : Target) (tzenv : List Char) :
    (readSetting T tzenv).map (fun g => (g.rule0,g.rule1)) = readTz T tzenv := by
  unfold readSetting readTz skipColon
  dsimp only [Option.bind_eq_bind,Option.pure_def]
  cases readStd (if charAt tzenv 0 = ':' then tzenv.tail else tzenv) with
  | none => rfl
  | some s =>
    dsimp only [Option.bind_some]
    by_cases hvs : (scanHus ':' 3 (readSign s).2).1 = []
    · rw [if_pos hvs,if_pos hvs]
      rfl
    · rw [if_neg hvs,if_neg hvs]
      cases readDst (scanHus ':' 3 (readSign s).2).2
          ((readSign s).2.length - (scanHus ':' 3 (readSign s).2).2.length) with
      | bad => rfl
      | absent => rfl
      | named r =>
        dsimp only
        cases readRule T true ((readSign s).1 * hms (scanHus ':' 3 (readSign s).2).1 0)
            (scanHus ':' 3 (readSign r).2).2 with
        | none => rfl
        | some q =>
          dsimp only [Option.bind_some]
          cases readRule T false (if (scanHus ':' 3 (readSign r).2).1 = [] then
              (readSign s).1 * hms (scanHus ':' 3 (readSign s).2).1 0 - 3600
            else (readSign r).1 * hms (scanHus ':' 3 (readSign r).2).1 0) q.2 with
          | none => rfl
          | some q' => rfl

theorem setting_rules (T : Target) (tzenv : Option (List Char)) :
    ((setting T tzenv).rule0,(setting T tzenv).rule1) = tzRules T tzenv := by
  cases tzenv with
  | none => rfl
  | some s =>
    rw [tzRules,setting,Option.bind_some,Option.bind_some,← readSetting_rules]
    cases readSetting T s <;> rfl

def Stops (p : Char → Bool) (r : List Char) : Prop := ∀ c t, r = c :: t → p c = false

def decimal (ds : List Char) : Nat := ds.foldl (fun v c => v * 10 + (c.toNat - 48)) 0

inductive UShort : List Char → Int → List Char → Prop
  | mk {ws sg ds r : List Char} : (∀ c ∈ ws, isSpace c = true) → sg = [] ∨ sg = ['+'] ∨ sg = ['-'] → ds ≠ [] →
      (∀ c ∈ ds, c.isDigit = true) → Stops Char.isDigit r →
      UShort (ws ++ (sg ++ (ds ++ r))) ((if sg = ['-'] then -(decimal ds : Int) else decimal ds) % 65536) r

inductive UShorts (sep : Char) : Nat → List Char → List Int → List Char → Prop
  | last {k : Nat} {s r : List Char} {v : Int} : UShort s v r → (k ≠ 0 → ∀ t v' r', r = sep :: t → ¬UShort t v' r') →
      UShorts sep (k + 1) s [v] r
  | more {k : Nat} {s r r' : List Char} {v : Int} {vs : List Int} : UShort s v (sep :: r) → UShorts sep k r vs r' →
      UShorts sep (k + 1) s (v :: vs) r'

theorem Stops.nil (p : Char → Bool) : Stops p [] := by
  intro c t h
  exact absurd h (List.cons_ne_nil c t).symm

theorem Stops.cons {p : Char → Bool} {c : Char} (h : p c = false) (t : List Char) : Stops p (c :: t) := by
  intro d u he
  obtain ⟨rfl,-⟩ := List.cons.inj he
  exact h

theorem takeWhile_stop {p : Char → Bool} {l r : List Char} (hl : ∀ c ∈ l, p c = true) (hr : Stops p r) :
    (l ++ r).takeWhile p = l := by
  rw [List.takeWhile_append_of_pos hl]
  cases r with
  | nil => rw [List.takeWhile_nil,List.append_nil]
  | cons c t => rw [List.takeWhile_cons_of_neg (by simp [hr c t rfl]),List.append_nil]

theorem dropWhile_stop {p : Char → Bool} {l r : List Char} (hl : ∀ c ∈ l, p c = true) (hr : Stops p r) :
    (l ++ r).dropWhile p = r := by
  rw [List.dropWhile_append_of_pos hl]
  cases r with
  | nil => rfl
  | cons c t => rw [List.dropWhile_cons_of_neg (by simp [hr c t rfl])]

theorem dropWhile_stops (p : Char → Bool) (l : List Char) : Stops p (l.dropWhile p) := by
  intro c t h
  have hne : l.dropWhile p ≠ [] := by
    rw [h]
    exact List.cons_ne_nil c t
  simpa [h] using List.head_dropWhile_not p hne

theorem scanDigits_eq (s : List Char) (acc : Nat) : scanDigits s acc =
    ((s.takeWhile Char.isDigit).foldl (fun v c => v * 10 + (c.toNat - 48)) acc,s.dropWhile Char.isDigit) := by
  induction s generalizing acc with
  | nil => rfl
  | cons c s ih =>
    rw [scanDigits]
    cases hc : c.isDigit with
    | true => rw [if_pos rfl,ih,List.takeWhile_cons_of_pos hc,List.dropWhile_cons_of_pos hc,List.foldl_cons]
    | false =>
      rw [if_neg Bool.false_ne_true,List.takeWhile_cons_of_neg (by simp [hc]),List.dropWhile_cons_of_neg (by simp [hc])]
      rfl

theorem digit_space {c : Char} (h : c.isDigit = true) : isSpace c = false ∧ c ≠ '+' ∧ c ≠ '-' := by
  rw [Char.isDigit_iff_toNat] at h
  obtain ⟨hlo,hhi⟩ := h
  have hval : ('0'.toNat ≤ c.toNat) := hlo
  refine ⟨?_,?_,?_⟩
  · rw [isSpace]
    simp only [Bool.or_eq_false_iff,decide_eq_false_iff_not,Bool.and_eq_false_iff]
    refine ⟨?_,.inr (by change 48 ≤ c.toNat at hval; omega)⟩
    rintro rfl
    exact absurd hval (by decide)
  · rintro rfl
    exact absurd hval (by decide)
  · rintro rfl
    exact absurd hval (by decide)

theorem scanNumber_digits {neg : Bool} {s t ds r : List Char} (hs : scanSign (s.dropWhile isSpace) = (neg,t))
    (ht : t = ds ++ r) (hds : ds ≠ []) (hall : ∀ c ∈ ds, c.isDigit = true) (hr : Stops Char.isDigit r) :
    scanNumber s = some (neg,decimal ds,r) := by
  have hpos := List.length_pos_iff.mpr hds
  have hlen : r.length ≠ t.length := by
    rw [ht,List.length_append]
    omega
  rw [scanNumber,hs]
  dsimp only
  rw [scanDigits_eq,ht,takeWhile_stop hall hr,dropWhile_stop hall hr]
  dsimp only
  rw [if_neg (ht ▸ hlen)]
  rfl

theorem UShort.scan {s r : List Char} {v : Int} (h : UShort s v r) : scanHu s = some (v,r) := by
  cases h with
  | @mk ws sg ds r hws hsg hds hall hr =>
    obtain ⟨d,ds,rfl⟩ := List.exists_cons_of_ne_nil hds
    obtain ⟨hspace,hplus,hminus⟩ := digit_space (hall d List.mem_cons_self)
    have hstart : Stops isSpace (sg ++ (d :: ds ++ r)) := by
      rcases hsg with rfl | rfl | rfl
      · exact .cons hspace _
      · exact .cons (by decide) _
      · exact .cons (by decide) _
    have hsign : scanSign (sg ++ (d :: ds ++ r)) = (decide (sg = ['-']),d :: ds ++ r) := by
      rcases hsg with rfl | rfl | rfl
      · rw [List.nil_append,List.cons_append,scanSign]
        · rfl
        · exact fun x hx => hminus (List.cons.inj hx).1
        · exact fun x hx => hplus (List.cons.inj hx).1
      · rfl
      · rfl
    rw [scanHu,scanNumber_digits (by rw [dropWhile_stop hws hstart,hsign]) rfl hds hall hr]
    simp only [Option.map_some,decide_eq_true_eq]

theorem scanSign_cases (s : List Char) : ∃ sg t, scanSign s = (decide (sg = ['-']),t) ∧ s = sg ++ t ∧
    (sg = [] ∨ sg = ['+'] ∨ sg = ['-']) := by
  by_cases hm : ∃ t, s = '-' :: t
  · obtain ⟨t,rfl⟩ := hm
    exact ⟨['-'],t,rfl,rfl,.inr (.inr rfl)⟩
  · by_cases hp : ∃ t, s = '+' :: t
    · obtain ⟨t,rfl⟩ := hp
      exact ⟨['+'],t,rfl,rfl,.inr (.inl rfl)⟩
    · refine ⟨[],s,?_,rfl,.inl rfl⟩
      rw [scanSign]
      · rfl
      · exact fun t ht => hm ⟨t,ht⟩
      · exact fun t ht => hp ⟨t,ht⟩

theorem uShort_iff {s r : List Char} {v : Int} : UShort s v r ↔ scanHu s = some (v,r) := by
  refine ⟨UShort.scan,fun h => ?_⟩
  obtain ⟨sg,t,hsign,hsplit,hsg⟩ := scanSign_cases (s.dropWhile isSpace)
  have hs : s = s.takeWhile isSpace ++ (sg ++ (t.takeWhile Char.isDigit ++ t.dropWhile Char.isDigit)) := by
    rw [List.takeWhile_append_dropWhile,← hsplit,List.takeWhile_append_dropWhile]
  rw [scanHu,scanNumber,hsign] at h
  dsimp only at h
  rw [scanDigits_eq] at h
  dsimp only at h
  split_ifs at h with hlen
  · cases h
  · obtain ⟨hv,hr⟩ := Prod.mk.inj (Option.some.inj h)
    have hne : t.takeWhile Char.isDigit ≠ [] := by
      intro hnil
      have ht := @List.takeWhile_append_dropWhile _ Char.isDigit t
      rw [hnil,List.nil_append] at ht
      exact hlen (congrArg List.length ht)
    have hmk := @UShort.mk (s.takeWhile isSpace) sg _ _ (fun c hc => List.mem_takeWhile_imp hc) hsg hne
      (fun c hc => List.mem_takeWhile_imp hc) (dropWhile_stops Char.isDigit t)
    rw [← hs] at hmk
    rw [← hr,← hv]
    simpa only [decide_eq_true_eq,decimal] using hmk

theorem scanLit_iff {c : Char} {s t : List Char} : scanLit c s = some t ↔ s = c :: t := by
  cases s with
  | nil => simp [scanLit]
  | cons d s =>
    rw [scanLit,List.cons.injEq]
    split_ifs with h <;> simp [h]

theorem scanHu_none {s : List Char} (h : ∀ v r, ¬UShort s v r) : scanHu s = none := by
  cases hs : scanHu s with
  | none => rfl
  | some q => exact absurd (uShort_iff.mpr hs) (h q.1 q.2)

theorem scanHus_ne_nil {s r : List Char} {v : Int} (h : UShort s v r) (sep : Char) (k : Nat) :
    (scanHus sep (k + 1) s).1 ≠ [] := by
  rw [scanHus,h.scan]
  dsimp only
  split_ifs with hk
  · exact List.cons_ne_nil _ _
  · cases scanLit sep r <;> exact List.cons_ne_nil _ _

theorem UShorts.scan {sep : Char} {k : Nat} {s r : List Char} {vs : List Int} (h : UShorts sep k s vs r) :
    scanHus sep k s = (vs,r) ∧ vs ≠ [] := by
  induction h with
  | @last k s r v hv hstop =>
    refine ⟨?_,List.cons_ne_nil _ _⟩
    rw [scanHus,hv.scan]
    dsimp only
    by_cases hk : k = 0
    · rw [if_pos hk]
    · rw [if_neg hk]
      cases hl : scanLit sep r with
      | none => rfl
      | some t =>
        obtain ⟨k,rfl⟩ := Nat.exists_eq_succ_of_ne_zero hk
        have hnone := scanHu_none (fun v' r' => hstop hk t v' r' (scanLit_iff.mp hl))
        simp only [scanHus,hnone]
        rfl
  | @more k s r r' v vs hv hvs ih =>
    refine ⟨?_,List.cons_ne_nil _ _⟩
    have hk : k ≠ 0 := by
      rintro rfl
      cases hvs
    rw [scanHus,hv.scan]
    dsimp only
    rw [if_neg hk,scanLit_iff.mpr rfl]
    dsimp only
    rw [ih.1]
    dsimp only
    rw [if_neg ih.2]

theorem uShorts_of_scan {sep : Char} {k : Nat} {s r : List Char} {vs : List Int} (h : scanHus sep k s = (vs,r))
    (hne : vs ≠ []) : UShorts sep k s vs r := by
  induction k generalizing s r vs with
  | zero =>
    rw [scanHus,Prod.mk.injEq] at h
    exact absurd h.1.symm hne
  | succ k ih =>
    rw [scanHus] at h
    cases hs : scanHu s with
    | none =>
      rw [hs,Prod.mk.injEq] at h
      exact absurd h.1.symm hne
    | some q =>
      obtain ⟨v,rest⟩ := q
      have hv := uShort_iff.mpr hs
      rw [hs] at h
      dsimp only at h
      split_ifs at h with hk
      · obtain ⟨rfl,rfl⟩ := Prod.mk.inj h
        exact .last hv fun h0 => absurd hk h0
      · cases hl : scanLit sep rest with
        | none =>
          rw [hl] at h
          obtain ⟨rfl,rfl⟩ := Prod.mk.inj h
          refine .last hv fun _ t v' r' ht => ?_
          rw [scanLit_iff.mpr ht] at hl
          cases hl
        | some t =>
          rw [hl] at h
          dsimp only at h
          have hsep := scanLit_iff.mp hl
          cases hk' : scanHus sep k t with
          | mk vs' last =>
            rw [hk'] at h
            dsimp only at h
            obtain ⟨rfl,rfl⟩ := Prod.mk.inj h
            by_cases hvs : vs' = []
            · rw [if_pos hvs,hvs]
              refine .last hv fun _ u v' r' hu hnum => ?_
              obtain ⟨-,rfl⟩ := List.cons.inj (hsep.symm.trans hu)
              obtain ⟨k,rfl⟩ := Nat.exists_eq_succ_of_ne_zero hk
              exact scanHus_ne_nil hnum sep k (by rw [hk',hvs])
            · rw [if_neg hvs]
              exact .more (hsep ▸ hv) (ih hk' hvs)

inductive Named : List Char → List Char → List Char → Prop
  | quoted {n r : List Char} : tznameMin ≤ n.length → n.length ≤ tznameMax → (∀ c ∈ n, isTzQuoted c = true) →
      Named ('<' :: (n ++ '>' :: r)) n r
  | plain {n r : List Char} : tznameMin ≤ n.length → n.length ≤ tznameMax → (∀ c ∈ n, isTzAlpha c = true) →
      Stops isTzAlpha r → Named (n ++ r) n r

inductive NoName : List Char → Prop
  | empty (t : List Char) : NoName ('<' :: '>' :: t)
  | other {s : List Char} : Stops (fun c => c == '<' || isTzAlpha c) s → NoName s

structure Stray (s : List Char) : Prop where
  opens : charAt s 0 = '<'
  strays : Stops isTzQuoted s.tail
  unclosed : charAt s.tail 0 ≠ '>'

theorem scanName_stop {allowed : Char → Bool} {n r : List Char} (hlen : n.length ≤ tznameMax)
    (hn : ∀ c ∈ n, allowed c = true) (hr : Stops allowed r) : scanName allowed (n ++ r) = n := by
  have hshort : n.length ≤ 10 := hlen
  have htake : (n ++ r).take 11 = n ++ r.take (11 - n.length) := by
    rw [List.take_append,List.take_of_length_le (by omega)]
  rw [scanName,htake]
  refine takeWhile_stop hn ?_
  cases r with
  | nil =>
    rw [List.take_nil]
    exact .nil _
  | cons c t =>
    obtain ⟨k,hk⟩ : ∃ k, 11 - n.length = k + 1 := ⟨10 - n.length,by omega⟩
    rw [hk,List.take_succ_cons]
    exact .cons (hr c t rfl) _

theorem scanName_split {allowed : Char → Bool} {s : List Char} (h : (scanName allowed s).length ≤ tznameMax) :
    (∀ c ∈ scanName allowed s, allowed c = true) ∧ s = scanName allowed s ++ s.drop (scanName allowed s).length ∧
      Stops allowed (s.drop (scanName allowed s).length) := by
  have hall : ∀ c ∈ scanName allowed s, allowed c = true := fun c hc => List.mem_takeWhile_imp hc
  have hpre : scanName allowed s <+: s := (List.takeWhile_prefix _).trans (List.take_prefix _ _)
  refine ⟨hall,?_,?_⟩
  · exact (List.prefix_iff_eq_append.mp hpre).symm
  · intro c t hc
    have hshort : (scanName allowed s).length ≤ 10 := h
    have hs : s = scanName allowed s ++ c :: t := by
      rw [← hc]
      exact (List.prefix_iff_eq_append.mp hpre).symm
    by_contra hyes
    rw [Bool.not_eq_false] at hyes
    have hmore : scanName allowed s ++ [c] <+: s.take 11 := by
      rw [List.prefix_take_iff]
      refine ⟨⟨t,?_⟩,?_⟩
      · rw [List.append_assoc]
        exact hs.symm
      · rw [List.length_append,List.length_singleton]
        omega
    obtain ⟨u,hu⟩ := hmore
    have hgrown : ∀ d ∈ scanName allowed s ++ [c], allowed d = true := by
      intro d hd
      rcases List.mem_append.mp hd with hd | hd
      · exact hall d hd
      · rw [List.mem_singleton.mp hd]
        exact hyes
    have hlen := congrArg List.length (@List.takeWhile_append_of_pos _ allowed _ u hgrown)
    rw [hu,List.length_append,List.length_append,List.length_singleton] at hlen
    change (scanName allowed s).length = _ at hlen
    omega

theorem scanName_le (allowed : Char → Bool) (s : List Char) : (scanName allowed s).length ≤ tznameMax + 1 :=
  ((List.takeWhile_prefix _).length_le).trans (by rw [List.length_take]; exact min_le_left _ _)

theorem readStd_quoted (t : List Char) : readStd ('<' :: t) =
    if (scanName isTzQuoted t).length < tznameMin ∨ tznameMax < (scanName isTzQuoted t).length ∨
      charAt t (scanName isTzQuoted t).length ≠ '>' then none
    else some (t.drop ((scanName isTzQuoted t).length + 1)) := if_pos rfl

theorem readStd_plain {s : List Char} (h : charAt s 0 ≠ '<') : readStd s =
    if (scanName isTzAlpha s).length < tznameMin ∨ tznameMax < (scanName isTzAlpha s).length then none
    else some (s.drop (scanName isTzAlpha s).length) := if_neg h

theorem readDst_quoted (t : List Char) (stale : Nat) : readDst ('<' :: t) stale =
    if scanName isTzQuoted t = [] ∧ charAt t 0 = '>' then .absent
    else if (if scanName isTzQuoted t = [] then stale else (scanName isTzQuoted t).length) < tznameMin ∨
        tznameMax < (if scanName isTzQuoted t = [] then stale else (scanName isTzQuoted t).length) ∨
        charAt t (if scanName isTzQuoted t = [] then stale else (scanName isTzQuoted t).length) ≠ '>' then .bad
      else .named (t.drop ((if scanName isTzQuoted t = [] then stale else (scanName isTzQuoted t).length) + 1)) := if_pos rfl

theorem readDst_plain {s : List Char} (h : charAt s 0 ≠ '<') (stale : Nat) : readDst s stale =
    if scanName isTzAlpha s = [] then .absent
    else if (scanName isTzAlpha s).length < tznameMin ∨ tznameMax < (scanName isTzAlpha s).length then .bad
    else .named (s.drop (scanName isTzAlpha s).length) := if_neg h

theorem nameBuffer_quoted (t : List Char) : nameBuffer ('<' :: t) = scanned isTzQuoted t := if_pos rfl

theorem nameBuffer_plain {s : List Char} (h : charAt s 0 ≠ '<') : nameBuffer s = scanned isTzAlpha s := if_neg h

theorem Named.reads {s n r : List Char} (h : Named s n r) : readStd s = some r ∧ nameBuffer s = some n ∧
    ∀ stale, readDst s stale = .named r := by
  cases h with
  | quoted hmin hmax hall =>
    have hname : scanName isTzQuoted (n ++ '>' :: r) = n := scanName_stop hmax hall (.cons (by decide) _)
    have hne : n ≠ [] := by
      rintro rfl
      exact absurd hmin (by decide)
    have hclose : charAt (n ++ '>' :: r) n.length = '>' := by simp [charAt]
    have hdrop : (n ++ '>' :: r).drop (n.length + 1) = r := by
      rw [← List.drop_drop,List.drop_left]
      rfl
    have hbad : ¬(n.length < tznameMin ∨ tznameMax < n.length ∨ charAt (n ++ '>' :: r) n.length ≠ '>') := by
      rw [hclose]
      simp only [ne_eq,not_true_eq_false,or_false]
      omega
    refine ⟨?_,?_,fun stale => ?_⟩
    · rw [readStd_quoted,hname,if_neg hbad,hdrop]
    · rw [nameBuffer_quoted,scanned,hname,if_neg hne]
    · rw [readDst_quoted,hname,if_neg (fun h => hne h.1),if_neg hne,if_neg hbad,hdrop]
  | plain hmin hmax hall hr =>
    have hname : scanName isTzAlpha (n ++ r) = n := scanName_stop hmax hall hr
    have hne : n ≠ [] := by
      rintro rfl
      exact absurd hmin (by decide)
    have hplain : charAt (n ++ r) 0 ≠ '<' := by
      obtain ⟨c,n,rfl⟩ := List.exists_cons_of_ne_nil hne
      intro hc
      have halpha := hall c List.mem_cons_self
      rw [show c = '<' from hc] at halpha
      exact absurd halpha (by decide)
    have hbad : ¬(n.length < tznameMin ∨ tznameMax < n.length) := by omega
    refine ⟨?_,?_,fun stale => ?_⟩
    · rw [readStd_plain hplain,hname,if_neg hbad,List.drop_left]
    · rw [nameBuffer_plain hplain,scanned,hname,if_neg hne]
    · rw [readDst_plain hplain,hname,if_neg hne,if_neg hbad,List.drop_left]

theorem charAt_cons {s : List Char} {c : Char} (h : charAt s 0 = c) (hc : c ≠ Char.ofNat 0) : ∃ t, s = c :: t := by
  cases s with
  | nil => exact absurd h.symm hc
  | cons d t => exact ⟨t,congrArg (· :: t) h⟩

theorem quoted_split {t : List Char} (hmin : tznameMin ≤ (scanName isTzQuoted t).length)
    (hmax : (scanName isTzQuoted t).length ≤ tznameMax) (hclose : charAt t (scanName isTzQuoted t).length = '>') :
    Named ('<' :: t) (scanName isTzQuoted t) (t.drop ((scanName isTzQuoted t).length + 1)) := by
  obtain ⟨hall,hsplit,-⟩ := scanName_split hmax
  generalize hr : t.drop (scanName isTzQuoted t).length = r at hsplit
  have hhead : charAt r 0 = '>' := by
    rw [← hclose,← hr]
    simp [charAt,List.getD]
  obtain ⟨u,rfl⟩ := charAt_cons hhead (by decide)
  have hdrop : t.drop ((scanName isTzQuoted t).length + 1) = u := by
    rw [← List.drop_drop,hr]
    rfl
  rw [hdrop]
  have hnamed := Named.quoted (r := u) hmin hmax hall
  rwa [← hsplit] at hnamed

theorem plain_split {s : List Char} (hmin : tznameMin ≤ (scanName isTzAlpha s).length)
    (hmax : (scanName isTzAlpha s).length ≤ tznameMax) :
    Named s (scanName isTzAlpha s) (s.drop (scanName isTzAlpha s).length) := by
  obtain ⟨hall,hsplit,hstop⟩ := scanName_split hmax
  have hnamed := Named.plain hmin hmax hall hstop
  rwa [← hsplit] at hnamed

theorem readStd_named {s r : List Char} (h : readStd s = some r) : ∃ n, Named s n r := by
  by_cases hq : charAt s 0 = '<'
  · obtain ⟨t,rfl⟩ := charAt_cons hq (by decide)
    rw [readStd_quoted] at h
    split_ifs at h with hbad
    obtain rfl := Option.some.inj h
    simp only [not_or,not_lt,not_not] at hbad
    exact ⟨_,quoted_split hbad.1 hbad.2.1 hbad.2.2⟩
  · rw [readStd_plain hq] at h
    split_ifs at h with hbad
    obtain rfl := Option.some.inj h
    simp only [not_or,not_lt] at hbad
    exact ⟨_,plain_split hbad.1 hbad.2⟩

theorem scanName_nil {allowed : Char → Bool} {s : List Char} (h : scanName allowed s = []) : Stops allowed s := by
  have hsplit := (@scanName_split allowed s (by rw [h]; exact Nat.zero_le _)).2.2
  rwa [h] at hsplit

theorem readDst_named {s r : List Char} {stale : Nat} (h : readDst s stale = .named r) : (∃ n, Named s n r) ∨ Stray s := by
  by_cases hq : charAt s 0 = '<'
  · obtain ⟨t,rfl⟩ := charAt_cons hq (by decide)
    rw [readDst_quoted] at h
    split_ifs at h with habs hnil hbad hbad
    · have hopen : charAt t 0 ≠ '>' := fun hc => habs ⟨hnil,hc⟩
      exact .inr ⟨rfl,scanName_nil hnil,hopen⟩
    · obtain rfl := DstName.named.inj h
      simp only [not_or,not_lt,not_not] at hbad
      exact .inl ⟨_,quoted_split hbad.1 hbad.2.1 hbad.2.2⟩
  · rw [readDst_plain hq] at h
    split_ifs at h with hnil hbad
    obtain rfl := DstName.named.inj h
    simp only [not_or,not_lt] at hbad
    exact .inl ⟨_,plain_split hbad.1 hbad.2⟩

theorem readDst_absent {s : List Char} {stale : Nat} (h : readDst s stale = .absent) : NoName s := by
  by_cases hq : charAt s 0 = '<'
  · obtain ⟨t,rfl⟩ := charAt_cons hq (by decide)
    rw [readDst_quoted] at h
    split_ifs at h with habs
    obtain ⟨u,rfl⟩ := charAt_cons habs.2 (by decide)
    exact .empty u
  · rw [readDst_plain hq] at h
    split_ifs at h with hnil
    refine .other fun c t hc => ?_
    have hstop := scanName_nil hnil c t hc
    rw [hc] at hq
    change (c == '<' || isTzAlpha c) = false
    rw [hstop,Bool.or_false,beq_eq_false_iff_ne]
    exact hq

end Tz
