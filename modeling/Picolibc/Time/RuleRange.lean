import Mathlib
import Picolibc.Time.Limits
import Picolibc.Time.Localtime

namespace Time

open Checked Gregorian

structure Rule.Small (r : Rule) : Prop where
  month : 0 ≤ r.m ∧ r.m ≤ 12
  week : 0 ≤ r.n ∧ r.n ≤ 5
  day : 0 ≤ r.d ∧ r.d ≤ 65535
  time : Fits 32 r.s

theorem scanHu_nonneg {s r : List Char} {v : Int} (h : scanHu s = some (v,r)) : 0 ≤ v := by
  obtain ⟨⟨neg,n,rest⟩,-,heq⟩ := Option.map_eq_some_iff.mp h
  cases heq
  exact Int.emod_nonneg _ (by decide)

theorem scanHus_nonneg (sep : Char) (k : Nat) (s : List Char) : ∀ v ∈ (scanHus sep k s).1, 0 ≤ v := by
  induction k generalizing s with
  | zero => simp [scanHus]
  | succ k ih =>
    intro v hv
    rw [scanHus] at hv
    cases hs : scanHu s with
    | none => simp [hs] at hv
    | some p =>
      obtain ⟨x,rest⟩ := p
      have hx := scanHu_nonneg hs
      rw [hs] at hv
      dsimp only at hv
      split_ifs at hv with hk
      · rw [List.mem_singleton.mp hv]
        exact hx
      · cases hl : scanLit sep rest with
        | none =>
          rw [hl] at hv
          rw [List.mem_singleton.mp hv]
          exact hx
        | some t =>
          rw [hl] at hv
          rcases List.mem_cons.mp hv with rfl | hin
          · exact hx
          · exact ih t v hin

theorem monthsBefore_range (y : Int) {m : Nat} (hm : m < 12) :
    0 ≤ monthsBefore (isleap y) m ∧ monthsBefore (isleap y) m ≤ 366 := by
  have hlow := monthStart_nonneg y m
  have hnext := monthStart_lt y hm
  have hlen := monthLength_pos y m
  have hyear := yearLength_pos y
  rw [monthsBefore_eq y hm.le]
  rw [monthStart,monthStart_year] at hnext
  omega

theorem monthLengthsAt_long (y : Int) {m : Nat} (hm : m < 12) : 7 ≤ monthLengthsAt (isleap y) m := by
  have hlen := monthLength_pos y m
  rw [monthLengthsAt_eq y hm]
  omega

theorem dropWeeks_range {len : Int} (hlen : 7 ≤ len) (k : Nat) (v : Int) :
    min 0 v ≤ dropWeeks len k v ∧ dropWeeks len k v ≤ max 0 v := by
  induction k generalizing v with
  | zero =>
    rw [dropWeeks]
    omega
  | succ k ih =>
    have hstep := ih (v - 7)
    rw [dropWeeks,daysPerWeek]
    split_ifs <;> omega

section

variable {T : Target} (hint : T.intBits = 32)

include hint

theorem toInt_word (x : Int) : Fits 32 (T.toInt x) := by
  unfold Target.toInt wrap Fits
  rw [hint]
  omega

theorem readDay_small {first : Bool} {s r : List Char} {rule : Rule} (h : readDay T first s = some (rule,r)) {v : Int}
    (hv : Fits 32 v) (offset : Int) : Rule.Small { rule with s := v, offset := offset } := by
  have husual : ∀ t, some (usDefault first,t) = some (rule,r) → Rule.Small { rule with s := v, offset := offset } := by
    intro t heq
    cases heq
    cases first <;> exact ⟨by simp [usDefault],by simp [usDefault],by simp [usDefault],hv⟩
  have hnumber : ∀ (ch : RuleKind) (d : Int) (t : List Char), some (⟨ch,0,0,T.toInt (d % 65536),0,0,0⟩,t) = some (rule,r) →
      Rule.Small { rule with s := v, offset := offset } := by
    intro ch d t heq
    cases heq
    have hd : T.toInt (d % 65536) = d % 65536 := by
      rw [Target.toInt,hint,wrap]
      omega
    exact ⟨by simp,by simp,by dsimp only; omega,hv⟩
  unfold readDay at h
  split_ifs at h with hm
  · have hpos := scanHus_nonneg '.' 3 s.tail
    generalize hscan : scanHus '.' 3 s.tail = got at h hpos
    obtain ⟨vs,rest⟩ := got
    rcases vs with _ | ⟨m,_ | ⟨w,_ | ⟨d,_ | ⟨e,vs⟩⟩⟩⟩ <;> dsimp only at h hpos
    · cases h
    · cases h
    · cases h
    · split_ifs at h with hbad
      cases h
      have hd := hpos d (by simp)
      exact ⟨by dsimp only; omega,by dsimp only; omega,by dsimp only; omega,hv⟩
    · cases h
  · dsimp only at h
    cases hs : strtoul T s.tail with
    | none =>
      rw [hs] at h
      exact husual _ h
    | some p =>
      rw [hs] at h
      exact hnumber _ _ _ h
  · dsimp only at h
    cases hs : strtoul T s with
    | none =>
      rw [hs] at h
      exact husual _ h
    | some p =>
      rw [hs] at h
      exact hnumber _ _ _ h

theorem readRule_small {first : Bool} {offset : Int} {s r : List Char} {rule : Rule}
    (h : readRule T first offset s = some (rule,r)) : rule.Small := by
  simp only [readRule,Option.bind_eq_bind,Option.bind_eq_some_iff,Option.pure_def] at h
  obtain ⟨⟨day,t⟩,hday,⟨v,u⟩,-,heq⟩ := h
  cases heq
  exact readDay_small hint hday (toInt_word hint v) offset

omit hint in
theorem zeroRule_small (offset : Int) : Rule.Small { zeroRule with offset := offset } :=
  ⟨by simp [zeroRule],by simp [zeroRule],by simp [zeroRule],by simp [zeroRule,Fits]⟩

theorem readTz_small {tzenv : List Char} {r : Rule × Rule} (h : readTz T tzenv = some r) : r.1.Small ∧ r.2.Small := by
  simp only [readTz,Option.bind_eq_bind,Option.bind_eq_some_iff] at h
  obtain ⟨s,-,h⟩ := h
  split_ifs at h
  split at h
  · cases h
  · cases h
    exact ⟨zeroRule_small _,zeroRule_small _⟩
  · simp only [Option.bind_eq_some_iff,Option.pure_def] at h
    obtain ⟨⟨rule0,t⟩,h0,⟨rule1,u⟩,h1,heq⟩ := h
    cases heq
    exact ⟨readRule_small hint h0,readRule_small hint h1⟩

theorem tzRules_small (tzenv : Option (List Char)) : (tzRules T tzenv).1.Small ∧ (tzRules T tzenv).2.Small := by
  unfold tzRules
  cases hr : tzenv.bind (readTz T) with
  | none => exact ⟨⟨by decide,by decide,by decide,by decide⟩,⟨by decide,by decide,by decide,by decide⟩⟩
  | some r =>
    obtain ⟨s,-,hs⟩ := Option.bind_eq_some_iff.mp hr
    exact readTz_small hint hs

theorem ruleDays_some {r : Rule} (hr : r.Small) {y days : Int} (h0 : 0 ≤ days) (h1 : days ≤ 1826000000) :
    ∃ n, ruleDays T r y days = some n ∧ -100000 ≤ n ∧ n ≤ 1827000000 := by
  obtain ⟨⟨hm0,hm1⟩,⟨hn0,hn1⟩,⟨hd0,hd1⟩,-⟩ := hr
  have hfit := fun {x : Int} => @int_fits T hint x
  have hmonth : ∃ n, ruleDays T { r with ch := .month } y days = some n ∧ -100000 ≤ n ∧ n ≤ 1827000000 := by
    have hj : (max r.m 1).toNat - 1 < 12 := by omega
    have hbefore := monthsBefore_range y hj
    have hlen := monthLengthsAt_long y hj
    have hwday : ∀ k : Int, -7 < k.tmod 7 ∧ k.tmod 7 < 7 := fun k =>
      ⟨Int.lt_tmod_of_pos k (by decide),Int.tmod_lt_of_pos k (by decide)⟩
    rw [ruleDays]
    simp only [Option.bind_eq_bind]
    rw [hfit (by omega) (by omega),Option.bind_some,epochWday,hfit (by omega) (by omega),Option.bind_some,daysPerWeek]
    have hw := hwday (4 + (days + monthsBefore (isleap y) ((max r.m 1).toNat - 1)))
    generalize (4 + (days + monthsBefore (isleap y) ((max r.m 1).toNat - 1))).tmod 7 = w at hw ⊢
    have hdiff : -7 < (if r.d - w < 0 then r.d - w + 7 else r.d - w) ∧ (if r.d - w < 0 then r.d - w + 7 else r.d - w) < 65550 := by
      split_ifs <;> omega
    generalize (if r.d - w < 0 then r.d - w + 7 else r.d - w) = diff at hdiff ⊢
    have hdrop := dropWeeks_range hlen ((r.n - 1) * 7 + diff).toNat ((r.n - 1) * 7 + diff)
    exact ⟨_,hfit (by omega) (by omega),by omega,by omega⟩
  cases hch : r.ch with
  | unset =>
    have hsame : ruleDays T r y days = ruleDays T { r with ch := .month } y days := by simp only [ruleDays,hch]
    rwa [hsame]
  | month =>
    have hsame : ruleDays T r y days = ruleDays T { r with ch := .month } y days := by simp only [ruleDays,hch]
    rwa [hsame]
  | day => exact ⟨_,by simp only [ruleDays,hch]; exact hfit (by omega) (by omega),by omega,by omega⟩
  | julian =>
    simp only [ruleDays,hch,Option.bind_eq_bind]
    rw [hfit (by omega) (by omega),Option.bind_some]
    have hstep : ∀ e : Int, 0 ≤ e → e ≤ 1 → ∃ n, ((T.int (days + r.d + e)).bind fun days => T.int (days - 1)) = some n ∧
        -100000 ≤ n ∧ n ≤ 1827000000 := by
      intro e he0 he1
      rw [hfit (by omega) (by omega),Option.bind_some]
      exact ⟨_,hfit (by omega) (by omega),by omega,by omega⟩
    split_ifs
    · exact hstep 1 (by decide) (by decide)
    · exact hstep 0 (by decide) (by decide)

theorem limits_some {info : Tzinfo} {y : Int} (hy : 1970 ≤ y) (hy' : y ≤ 5000000) (h0 : info.rule0.Small)
    (h1 : info.rule1.Small) (hoff0 : -86400 ≤ info.rule0.offset ∧ info.rule0.offset ≤ 86400)
    (hoff1 : -86400 ≤ info.rule1.offset ∧ info.rule1.offset ≤ 86400) : (tzcalcLimits T info y).isSome := by
  obtain ⟨hlow,hhigh⟩ := yearStart_range hy hy'
  have hchange : ∀ r : Rule, r.Small → -86400 ≤ r.offset ∧ r.offset ≤ 86400 → ∃ r', ruleChange T r y (yearStart y) = some r' := by
    intro r hr hoff
    obtain ⟨n,hn,hn0,hn1⟩ := @ruleDays_some T hint r hr y (yearStart y) hlow hhigh
    have hs := hr.time
    unfold Fits at hs
    have hfit : ∀ x : Int, -200000000000000 ≤ x → x ≤ 200000000000000 → timeT x = some x := fun x hx0 hx1 =>
      signed_fits ⟨by omega,by omega⟩
    rw [ruleChange,hn,secsPerDay]
    simp only [Option.bind_eq_bind,Option.bind_some]
    rw [hfit _ (by omega) (by omega),Option.bind_some,hfit _ (by omega) (by omega),Option.bind_some,
      hfit _ (by omega) (by omega)]
    exact ⟨_,rfl⟩
  obtain ⟨r0,hr0⟩ := hchange _ h0 hoff0
  obtain ⟨r1,hr1⟩ := hchange _ h1 hoff1
  rw [tzcalcLimits,epochYear,if_neg (by omega),daysToYear_some hint hy hy']
  simp [hr0,hr1]

end

theorem sameRules_small {info info' : Tzinfo} (h : SameRules info info') (h0 : info'.rule0.Small) (h1 : info'.rule1.Small) :
    info.rule0.Small ∧ info.rule1.Small := by
  have hform : ∀ r r' : Rule, r.form = r'.form → r'.Small → r.Small := by
    rintro ⟨ch,m,n,d,s,change,offset⟩ ⟨ch',m',n',d',s',change',offset'⟩ heq hr
    cases heq
    exact ⟨hr.month,hr.week,hr.day,hr.time⟩
  exact ⟨hform _ _ h.1 h0,hform _ _ h.2 h1⟩

section

variable {T : Target} {tzenv : Option (List Char)} {z w : Zone} {y : Int} (hint : T.intBits = 32)
  (h0 : -86400 ≤ (tzRules T tzenv).1.offset ∧ (tzRules T tzenv).1.offset ≤ 86400)
  (h1 : -86400 ≤ (tzRules T tzenv).2.offset ∧ (tzRules T tzenv).2.offset ≤ 86400)
  (hw : tzset T tzenv z = some w) (hy : 1970 ≤ y) (hy' : y ≤ 5000000)

include hint h0 h1 hw hy hy'

theorem lookup_known : ∃ info, w.info.lookup T y = some (true,info) := by
  unfold Tzinfo.lookup
  split_ifs with hyear
  · exact ⟨_,rfl⟩
  · have hrules := tzset_sameRules hw
    obtain ⟨hs0,hs1⟩ := tzRules_small hint tzenv
    obtain ⟨hsmall0,hsmall1⟩ := sameRules_small hrules hs0 hs1
    have hform0 : w.info.rule0.form.offset = (tzRules T tzenv).1.form.offset := congrArg Rule.offset hrules.1
    have hform1 : w.info.rule1.form.offset = (tzRules T tzenv).2.form.offset := congrArg Rule.offset hrules.2
    have hoff0 : w.info.rule0.offset = (tzRules T tzenv).1.offset := hform0
    have hoff1 : w.info.rule1.offset = (tzRules T tzenv).2.offset := hform1
    obtain ⟨⟨known,info⟩,hl⟩ := Option.isSome_iff_exists.mp
      (limits_some hint hy hy' hsmall0 hsmall1 (by rwa [hoff0]) (by rwa [hoff1]))
    rcases tzcalcLimits_cases hl with ⟨hlt,-⟩ | ⟨-,rfl,-⟩
    · omega
    · exact ⟨info,hl⟩

theorem localDst_known (t : Int) : ∃ (dst : Bool) (info : Tzinfo), localDst T w t y = some (dst.toInt,info) := by
  unfold localDst
  split_ifs
  · obtain ⟨info,hl⟩ := lookup_known hint h0 h1 hw hy hy'
    exact ⟨info.daylightAt t,info,by simp [hl]⟩
  · exact ⟨false,w.info,rfl⟩

end

end Time
