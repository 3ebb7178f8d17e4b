import Mathlib
import Picolibc.Time.TzForm

namespace Tz

open Time

inductive Signed : List Char → List Char → Prop
  | plus (t : List Char) : Signed ('+' :: t) t
  | minus (t : List Char) : Signed ('-' :: t) t
  | bare {t : List Char} : Stops (fun c => c == '+' || c == '-') t → Signed t t

inductive Shifted : List Char → List Char → Prop
  | given {s t r : List Char} {vs : List Int} : Signed s t → UShorts ':' 3 t vs r → Shifted s r
  | ahead {s t : List Char} : Signed s t → (∀ v r, ¬UShort t v r) → Shifted s t

inductive Counted : List Char → List Char → Prop
  | given {s r : List Char} {v : Int} : UShort s v r → Counted s r
  | usual {s : List Char} : (∀ v r, ¬UShort s v r) → Counted s s

inductive LooseDate : List Char → List Char → Prop
  | month {t r : List Char} {m w d : Int} : UShorts '.' 3 t [m,w,d] r → 1 ≤ m ∧ m ≤ 12 → 1 ≤ w ∧ w ≤ 5 → d ≤ 6 →
      LooseDate ('M' :: t) r
  | julian {t r : List Char} : Counted t r → LooseDate ('J' :: t) r
  | day {s r : List Char} : Stops (fun c => c == 'M' || c == 'J') s → Counted s r → LooseDate s r

inductive LooseTime : List Char → List Char → Prop
  | given {t r : List Char} {vs : List Int} : UShorts ':' 3 t vs r → LooseTime ('/' :: t) r
  | usual {s : List Char} : Stops (fun c => c == '/') s → LooseTime s s

inductive LooseRule : List Char → List Char → Prop
  | comma {s t r : List Char} : LooseDate s t → LooseTime t r → LooseRule (',' :: s) r
  | bare {s t r : List Char} : Stops (fun c => c == ',') s → LooseDate s t → LooseTime t r → LooseRule s r

inductive Loose : List Char → Prop
  | standard {s n a b c : List Char} {vs : List Int} : Named s n a → Signed a b → UShorts ':' 3 b vs c → NoName c → Loose s
  | stray {s n a b c : List Char} {vs : List Int} : Named s n a → Signed a b → UShorts ':' 3 b vs c → Stray c → Loose s
  | alternate {s n a b c n' d e x y : List Char} {vs : List Int} : Named s n a → Signed a b → UShorts ':' 3 b vs c →
      Named c n' d → Shifted d e → LooseRule e x → LooseRule x y → Loose s

theorem stops_other {s : List Char} {c : Char} (h : charAt s 0 ≠ c) : Stops (fun d => d == c) s := by
  intro d t hs
  rw [hs] at h
  exact beq_eq_false_iff_ne.mpr h

theorem stops_either {s : List Char} {c d : Char} (hc : charAt s 0 ≠ c) (hd : charAt s 0 ≠ d) :
    Stops (fun x => x == c || x == d) s := by
  intro x t hs
  rw [hs] at hc hd
  exact Bool.or_eq_false_iff.mpr ⟨beq_eq_false_iff_ne.mpr hc,beq_eq_false_iff_ne.mpr hd⟩

theorem readSign_signed (s : List Char) : Signed s (readSign s).2 := by
  rw [readSign]
  split_ifs with hm hp
  · obtain ⟨t,rfl⟩ := charAt_cons hm (by decide)
    exact .minus t
  · obtain ⟨t,rfl⟩ := charAt_cons hp (by decide)
    exact .plus t
  · exact .bare (stops_either hp hm)

theorem not_uShort {s : List Char} (h : scanHu s = none) (v : Int) (r : List Char) : ¬UShort s v r := by
  intro hv
  rw [hv.scan] at h
  cases h

theorem scanHus_nil {sep : Char} {k : Nat} {s : List Char} (h : (scanHus sep (k + 1) s).1 = []) :
    (scanHus sep (k + 1) s).2 = s ∧ ∀ v r, ¬UShort s v r := by
  cases hs : scanHu s with
  | none =>
    refine ⟨?_,not_uShort hs⟩
    rw [scanHus,hs]
  | some q =>
    obtain ⟨v,r⟩ := q
    exact absurd h (scanHus_ne_nil (uShort_iff.mpr hs) sep k)

theorem readSign_shifted (s : List Char) : Shifted s (scanHus ':' 3 (readSign s).2).2 := by
  by_cases hvs : (scanHus ':' 3 (readSign s).2).1 = []
  · obtain ⟨hrest,hnone⟩ := scanHus_nil hvs
    rw [hrest]
    exact .ahead (readSign_signed s) hnone
  · exact .given (readSign_signed s) (uShorts_of_scan (show scanHus ':' 3 (readSign s).2 = (_,_) from rfl) hvs)

theorem strtoul_counted {T : Target} {s : List Char} : Counted s (((Time.strtoul T s).map Prod.snd).getD s) := by
  cases hn : scanNumber s with
  | none =>
    have hnone : scanHu s = none := by rw [scanHu,hn,Option.map_none]
    rw [Time.strtoul,hn]
    exact .usual (not_uShort hnone)
  | some q =>
    obtain ⟨neg,v,r⟩ := q
    have hsome : scanHu s = some ((if neg then -(v : Int) else v) % 65536,r) := by rw [scanHu,hn,Option.map_some]
    rw [Time.strtoul,hn]
    exact .given (uShort_iff.mpr hsome)

theorem readDay_loose {T : Target} {first : Bool} {s r : List Char} {rule : Rule}
    (h : readDay T first s = some (rule,r)) : LooseDate s r := by
  by_cases hm : charAt s 0 = 'M'
  · obtain ⟨t,rfl⟩ := charAt_cons hm (by decide)
    rw [readDay,if_pos hm,List.tail_cons] at h
    generalize hscan : scanHus '.' 3 t = q at h
    obtain ⟨vs,rest⟩ := q
    split at h
    · rename_i m w d rest' heq
      obtain ⟨rfl,rfl⟩ := Prod.mk.inj heq
      split_ifs at h with hrange
      obtain ⟨-,rfl⟩ := Prod.mk.inj (Option.some.inj h)
      exact .month (uShorts_of_scan hscan (List.cons_ne_nil _ _)) (by omega) (by omega) (by omega)
    · cases h
  · rw [readDay,if_neg hm] at h
    by_cases hj : charAt s 0 = 'J'
    · obtain ⟨t,rfl⟩ := charAt_cons hj (by decide)
      rw [if_pos hj,List.tail_cons] at h
      dsimp only at h
      have hcount := @strtoul_counted T t
      cases hs : Time.strtoul T t with
      | none =>
        rw [hs] at h hcount
        obtain ⟨-,rfl⟩ := Prod.mk.inj (Option.some.inj h)
        exact .julian hcount
      | some q =>
        rw [hs] at h hcount
        obtain ⟨-,rfl⟩ := Prod.mk.inj (Option.some.inj h)
        exact .julian hcount
    · rw [if_neg hj] at h
      dsimp only at h
      have hcount := @strtoul_counted T s
      cases hs : Time.strtoul T s with
      | none =>
        rw [hs] at h hcount
        obtain ⟨-,rfl⟩ := Prod.mk.inj (Option.some.inj h)
        exact .day (stops_either hm hj) hcount
      | some q =>
        rw [hs] at h hcount
        obtain ⟨-,rfl⟩ := Prod.mk.inj (Option.some.inj h)
        exact .day (stops_either hm hj) hcount

theorem readTime_loose {s r : List Char} {v : Int} (h : readTime s = some (v,r)) : LooseTime s r := by
  by_cases hs : charAt s 0 = '/'
  · obtain ⟨t,rfl⟩ := charAt_cons hs (by decide)
    rw [readTime,if_pos hs,List.tail_cons] at h
    generalize hscan : scanHus ':' 3 t = q at h
    obtain ⟨vs,rest⟩ := q
    cases vs with
    | nil => cases h
    | cons x xs =>
      obtain ⟨-,rfl⟩ := Prod.mk.inj (Option.some.inj h)
      exact .given (uShorts_of_scan hscan (List.cons_ne_nil _ _))
  · rw [readTime,if_neg hs] at h
    obtain ⟨-,rfl⟩ := Prod.mk.inj (Option.some.inj h)
    exact .usual (stops_other hs)

theorem readRule_loose {T : Target} {first : Bool} {offset : Int} {s r : List Char} {rule : Rule}
    (h : readRule T first offset s = some (rule,r)) : LooseRule s r := by
  simp only [readRule,Option.bind_eq_bind,Option.bind_eq_some_iff,Option.pure_def,Option.some.injEq] at h
  obtain ⟨⟨day,t⟩,hday,⟨time,q⟩,htime,heq⟩ := h
  obtain ⟨-,rfl⟩ := Prod.mk.inj heq
  by_cases hs : charAt s 0 = ','
  · obtain ⟨u,rfl⟩ := charAt_cons hs (by decide)
    rw [if_pos hs] at hday
    exact .comma (readDay_loose hday) (readTime_loose htime)
  · rw [if_neg hs] at hday
    exact .bare (stops_other hs) (readDay_loose hday) (readTime_loose htime)

theorem readSetting_loose {T : Target} {tzenv : List Char} {g : Setting} (h : readSetting T tzenv = some g) :
    Loose (skipColon tzenv) := by
  rw [readSetting] at h
  generalize skipColon tzenv = s at h
  simp only [Option.bind_eq_bind,Option.bind_eq_some_iff] at h
  obtain ⟨a,hstd,h⟩ := h
  obtain ⟨n,hname⟩ := readStd_named hstd
  have hsign := readSign_signed a
  split_ifs at h with hvs
  have hoffset := uShorts_of_scan (show scanHus ':' 3 (readSign a).2 = (_,_) from rfl) hvs
  generalize hdst : readDst (scanHus ':' 3 (readSign a).2).2 _ = q at h
  cases q with
  | bad => cases h
  | absent => exact .standard hname hsign hoffset (readDst_absent hdst)
  | named d =>
    simp only [Option.bind_eq_some_iff] at h
    obtain ⟨⟨rule0,x⟩,hrule0,⟨rule1,y⟩,hrule1,-⟩ := h
    rcases readDst_named hdst with ⟨n',hname'⟩ | hstray
    · exact .alternate hname hsign hoffset hname' (readSign_shifted d) (readRule_loose hrule0) (readRule_loose hrule1)
    · exact .stray hname hsign hoffset hstray

structure Stored (T : Target) (tzenv : Option (List Char)) (g : Setting) : Prop where
  setting : setting T tzenv = g
  std : ∃ n, g.std = some n ∧ n.length ≤ tznameMax
  dst : ∃ n, g.dst = some n ∧ n.length ≤ tznameMax
  zone : ∀ z z', tzset T tzenv z = some z' → z'.timezone = g.rule0.offset ∧
    z'.daylight = decide (g.rule0.offset ≠ g.rule1.offset) ∧ SameRules z'.info ⟨false,0,g.rule0,g.rule1⟩

theorem tzset_setting {T : Target} {tzenv : Option (List Char)} {z z' : Zone} (h : tzset T tzenv z = some z') :
    z'.timezone = (setting T tzenv).rule0.offset ∧
      z'.daylight = decide ((setting T tzenv).rule0.offset ≠ (setting T tzenv).rule1.offset) ∧
      SameRules z'.info ⟨false,0,(setting T tzenv).rule0,(setting T tzenv).rule1⟩ := by
  have h0 : (tzRules T tzenv).1 = (setting T tzenv).rule0 := congrArg Prod.fst (setting_rules T tzenv).symm
  have h1 : (tzRules T tzenv).2 = (setting T tzenv).rule1 := congrArg Prod.snd (setting_rules T tzenv).symm
  simp only [tzset,Option.bind_eq_bind,Option.bind_eq_some_iff,Option.pure_def,Option.some.injEq] at h
  obtain ⟨⟨known,info⟩,hl,rfl⟩ := h
  rw [h0,h1] at hl
  refine ⟨by rw [h0],by rw [h0,h1],?_⟩
  rcases tzcalcLimits_cases hl with ⟨-,-,rfl⟩ | ⟨-,-,-,hrules⟩
  · exact ⟨rfl,rfl⟩
  · exact hrules

theorem Designation.short {d n : List Char} (h : Designation d n) : n.length ≤ tznameMax := by
  cases h with
  | quoted _ hmax => exact hmax
  | plain _ hmax => exact hmax

theorem Denotes.names {T : Target} {s : List Char} {g : Setting} (h : Denotes T s g) :
    (∃ n, g.std = some n ∧ n.length ≤ tznameMax) ∧ ∃ n, g.dst = some n ∧ n.length ≤ tznameMax := by
  cases h with
  | standard hd => exact ⟨⟨_,rfl,hd.short⟩,⟨_,rfl,hd.short⟩⟩
  | alternate hd _ hd' => exact ⟨⟨_,rfl,hd.short⟩,⟨_,rfl,hd'.short⟩⟩

theorem Denotes.stored {T : Target} (hT : T.Valid) {tzenv : List Char} {g : Setting} (h : Denotes T (skipColon tzenv) g) :
    Stored T (some tzenv) g := by
  have hset : setting T (some tzenv) = g := by rw [setting,Option.bind_some,h.reads hT,Option.getD_some]
  exact ⟨hset,h.names.1,h.names.2,fun z z' hz => hset ▸ tzset_setting hz⟩

theorem gmt_stored {T : Target} {tzenv : Option (List Char)} (h : tzenv.bind (readSetting T) = none) :
    Stored T tzenv gmt := by
  have hset : setting T tzenv = gmt := by rw [setting,h,Option.getD_none]
  exact ⟨hset,⟨_,rfl,by decide⟩,⟨_,rfl,by decide⟩,fun z z' hz => hset ▸ tzset_setting hz⟩

theorem tzset_grammar {T : Target} (hT : T.Valid) (tzenv : List Char) :
    (∀ g, Denotes T (skipColon tzenv) g → Stored T (some tzenv) g) ∧
      (¬Loose (skipColon tzenv) → Stored T (some tzenv) gmt) ∧ Stored T none gmt ∧
      ∀ allowed s, (scanName allowed s).length ≤ tznameMax + 1 := by
  refine ⟨fun g h => h.stored hT,fun h => gmt_stored ?_,gmt_stored rfl,scanName_le⟩
  rw [Option.bind_some]
  cases hs : readSetting T tzenv with
  | none => rfl
  | some g => exact absurd (readSetting_loose hs) h

theorem eastern_denotes : Denotes lp64 (skipColon "EST5EDT".toList)
    ⟨some "EST".toList,some "EDT".toList,{ usDefault true with s := 7200, offset := 18000 },
      { usDefault false with s := 7200, offset := 14400 }⟩ := by
  have hstd : Designation "EST".toList "EST".toList := .plain (by decide) (by decide) (List.all_eq_true.mp rfl)
  have hdst : Designation "EDT".toList "EDT".toList := .plain (by decide) (by decide) (List.all_eq_true.mp rfl)
  have hfive : Offset "5".toList 18000 := .plain (.hour ⟨by decide,List.all_eq_true.mp rfl,rfl,by decide⟩)
  exact .alternate hstd hfive hdst .ahead .usual

theorem empty_not_loose : ¬Loose (skipColon []) := by
  have hnone : ∀ n a, ¬Named [] n a := by
    intro n a h
    generalize hs : ([] : List Char) = s at h
    cases h with
    | quoted => exact absurd hs (List.cons_ne_nil _ _).symm
    | plain hmin =>
      rw [(List.append_eq_nil_iff.mp hs.symm).1] at hmin
      exact absurd hmin (by decide)
  intro h
  cases h with
  | standard hn => exact hnone _ _ hn
  | stray hn => exact hnone _ _ hn
  | alternate hn => exact hnone _ _ hn

theorem tzset_grammar_eastern : Stored lp64 (some "EST5EDT".toList)
    ⟨some "EST".toList,some "EDT".toList,{ usDefault true with s := 7200, offset := 18000 },
      { usDefault false with s := 7200, offset := 14400 }⟩ ∧ Stored lp64 (some []) gmt :=
  ⟨(tzset_grammar lp64_valid _).1 _ eastern_denotes,(tzset_grammar lp64_valid []).2.1 empty_not_loose⟩

theorem not_designation_colon {d n r : List Char} (h : Designation d n) : d ++ r ≠ ':' :: "EST5".toList := by
  cases h with
  | quoted => exact fun heq => absurd (List.cons.inj heq).1 (by decide)
  | plain hmin _ hall =>
    intro heq
    cases d with
    | nil => exact absurd hmin (by decide)
    | cons c d =>
      have halpha := hall c List.mem_cons_self
      rw [(List.cons.inj heq).1] at halpha
      exact absurd halpha (by decide)

theorem colon_accepted : (¬∃ g, Denotes lp64 ":EST5".toList g) ∧ setting lp64 (some ":EST5".toList) =
    ⟨some "EST".toList,some "EST".toList,{ zeroRule with offset := 18000 },{ zeroRule with offset := 18000 }⟩ ∧
      setting lp64 (some ":EST5".toList) ≠ gmt := by
  refine ⟨?_,by decide,by decide⟩
  rintro ⟨g,hg⟩
  generalize hs : ":EST5".toList = s at hg
  cases hg with
  | standard hd => exact not_designation_colon hd hs.symm
  | alternate hd => exact not_designation_colon hd hs.symm

end Tz
