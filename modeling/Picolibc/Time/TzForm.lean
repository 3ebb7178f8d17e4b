import Mathlib
import Picolibc.Time.TzGrammar

namespace Tz

open Time

inductive Designation : List Char → List Char → Prop
  | quoted {n : List Char} : tznameMin ≤ n.length → n.length ≤ tznameMax → (∀ c ∈ n, isTzQuoted c = true) →
      Designation ('<' :: (n ++ ['>'])) n
  | plain {n : List Char} : tznameMin ≤ n.length → n.length ≤ tznameMax → (∀ c ∈ n, isTzAlpha c = true) →
      Designation n n

structure Numeric (lo hi : Nat) (ds : List Char) (v : Nat) : Prop where
  nonempty : ds ≠ []
  digits : ∀ c ∈ ds, c.isDigit = true
  value : decimal ds = v
  range : lo ≤ v ∧ v ≤ hi

inductive Clock : List Char → Nat → Prop
  | hour {a : List Char} {x : Nat} : Numeric 0 24 a x → Clock a (3600 * x)
  | minute {a b : List Char} {x y : Nat} : Numeric 0 24 a x → Numeric 0 59 b y → Clock (a ++ ':' :: b) (60 * y + 3600 * x)
  | second {a b c : List Char} {x y z : Nat} : Numeric 0 24 a x → Numeric 0 59 b y → Numeric 0 59 c z →
      Clock (a ++ ':' :: (b ++ ':' :: c)) (z + 60 * y + 3600 * x)

inductive Offset : List Char → Int → Prop
  | plain {t : List Char} {v : Nat} : Clock t v → Offset t v
  | west {t : List Char} {v : Nat} : Clock t v → Offset ('+' :: t) v
  | east {t : List Char} {v : Nat} : Clock t v → Offset ('-' :: t) (-v)

inductive Date : List Char → Rule → Prop
  | day {ds : List Char} {v : Nat} : Numeric 0 365 ds v → Date ds ⟨.day,0,0,v,0,0,0⟩
  | julian {ds : List Char} {v : Nat} : Numeric 1 365 ds v → Date ('J' :: ds) ⟨.julian,0,0,v,0,0,0⟩
  | month {a b c : List Char} {m w d : Nat} : Numeric 1 12 a m → Numeric 1 5 b w → Numeric 0 6 c d →
      Date ('M' :: (a ++ '.' :: (b ++ '.' :: c))) ⟨.month,m,w,d,0,0,0⟩

inductive When (T : Target) (offset : Int) : List Char → Rule → Prop
  | plain {t : List Char} {rule : Rule} : Date t rule → When T offset t { rule with s := T.toInt 7200, offset := offset }
  | timed {t c : List Char} {rule : Rule} {v : Nat} : Date t rule → Clock c v →
      When T offset (t ++ '/' :: c) { rule with s := T.toInt v, offset := offset }

inductive Shift (std : Int) : List Char → Int → Prop
  | ahead : Shift std [] (std - 3600)
  | given {o : List Char} {v : Int} : Offset o v → Shift std o v

inductive Changes (T : Target) (std dst : Int) : List Char → Rule → Rule → Prop
  | usual : Changes T std dst [] { usDefault true with s := T.toInt 7200, offset := std }
      { usDefault false with s := T.toInt 7200, offset := dst }
  | given {a b : List Char} {r0 r1 : Rule} : When T std a r0 → When T dst b r1 →
      Changes T std dst (',' :: (a ++ ',' :: b)) r0 r1

inductive Denotes (T : Target) : List Char → Setting → Prop
  | standard {d n o : List Char} {v : Int} : Designation d n → Offset o v →
      Denotes T (d ++ o) ⟨some n,some n,{ zeroRule with offset := v },{ zeroRule with offset := v }⟩
  | alternate {d n o d' n' o' a : List Char} {v v' : Int} {r0 r1 : Rule} : Designation d n → Offset o v →
      Designation d' n' → Shift v o' v' → Changes T v v' a r0 r1 →
      Denotes T (d ++ (o ++ (d' ++ (o' ++ a)))) ⟨some n,some n',r0,r1⟩

theorem Stops.weaken {p q : Char → Bool} {r : List Char} (h : Stops p r) (hpq : ∀ c, q c = true → p c = true) :
    Stops q r := by
  intro c t hc
  have hp := h c t hc
  cases hq : q c with
  | false => rfl
  | true => exact absurd (hpq c hq) (by rw [hp]; exact Bool.false_ne_true)

theorem stops_all {p : Char → Bool} {l r : List Char} (hl : l ≠ []) (h : ∀ c ∈ l, p c = false) : Stops p (l ++ r) := by
  obtain ⟨c,l,rfl⟩ := List.exists_cons_of_ne_nil hl
  exact .cons (h c List.mem_cons_self) _

def inClock (c : Char) : Bool := c.isDigit || c == ':'

def inRule (c : Char) : Bool := inClock c || c == '/'

theorem digit_bounds {c : Char} (h : c.isDigit = true) : 48 ≤ c.toNat ∧ c.toNat ≤ 57 := Char.isDigit_iff_toNat.mp h

theorem alpha_bounds {c : Char} (h : isTzAlpha c = true) :
    65 ≤ c.toNat ∧ c.toNat ≤ 90 ∨ 97 ≤ c.toNat ∧ c.toNat ≤ 122 := by
  simp only [isTzAlpha,Char.isAlpha,Char.isUpper,Char.isLower,Bool.or_eq_true,Bool.and_eq_true,decide_eq_true_eq,
    ge_iff_le,UInt32.le_iff_toNat_le] at h
  exact h

theorem digit_alpha {c : Char} (h : c.isDigit = true) : isTzAlpha c = false := by
  have hdigit := digit_bounds h
  cases ha : isTzAlpha c with
  | false => rfl
  | true =>
    have halpha := alpha_bounds ha
    omega

theorem alpha_digit {c : Char} (h : isTzAlpha c = true) : c.isDigit = false := by
  cases hd : c.isDigit with
  | false => rfl
  | true => exact absurd (digit_alpha hd) (by simp [h])

theorem Designation.named {d n r : List Char} (h : Designation d n) (hr : Stops isTzAlpha r) : Named (d ++ r) n r := by
  cases h with
  | quoted hmin hmax hall =>
    have hq := Named.quoted (r := r) hmin hmax hall
    rwa [show '<' :: (n ++ '>' :: r) = '<' :: (n ++ ['>']) ++ r by simp] at hq
  | plain hmin hmax hall => exact .plain hmin hmax hall hr

theorem Numeric.uShort {lo hi v : Nat} {ds r : List Char} (h : Numeric lo hi ds v) (hhi : hi < 65536)
    (hr : Stops Char.isDigit r) : UShort (ds ++ r) v r := by
  have hle := h.range.2
  have hmk := @UShort.mk [] [] ds r nofun (.inl rfl) h.nonempty h.digits hr
  rw [h.value,if_neg (List.cons_ne_nil _ _).symm,Int.emod_eq_of_lt (by omega) (by omega)] at hmk
  exact hmk

theorem Clock.uShorts {t r : List Char} {v : Nat} (h : Clock t v) (hr : Stops inClock r) :
    ∃ vs, UShorts ':' 3 (t ++ r) vs r ∧ ∀ hour, hms vs hour = v := by
  have hdigit : Stops Char.isDigit r := hr.weaken fun c hc => by rw [inClock,hc,Bool.true_or]
  have hcolon : ∀ u, r ≠ ':' :: u := fun u hu => absurd (hr ':' u hu) (by decide)
  have hsep : ∀ u, Stops Char.isDigit (':' :: u) := fun u => .cons (by decide) u
  cases h with
  | hour ha => exact ⟨_,.last (ha.uShort (by decide) hdigit) (fun _ u _ _ hu => absurd hu (hcolon u)),fun _ => by simp [hms]⟩
  | @minute a b x y ha hb =>
    refine ⟨[x,y],?_,fun _ => by simp [hms]⟩
    rw [List.append_assoc,List.cons_append]
    exact .more (ha.uShort (by decide) (hsep _)) (.last (hb.uShort (by decide) hdigit) (fun _ u _ _ hu => absurd hu (hcolon u)))
  | @second a b c x y z ha hb hc =>
    refine ⟨[x,y,z],?_,fun _ => by simp [hms]⟩
    rw [List.append_assoc,List.cons_append,List.append_assoc,List.cons_append]
    exact .more (ha.uShort (by decide) (hsep _)) (.more (hb.uShort (by decide) (hsep _))
      (.last (hc.uShort (by decide) hdigit) (fun h0 => absurd rfl h0)))

theorem Clock.starts {t r : List Char} {v : Nat} (h : Clock t v) : ∃ c u, t ++ r = c :: u ∧ c.isDigit = true := by
  have hfirst : ∀ {lo hi a x} (q : List Char), Numeric lo hi a x → ∃ c u, a ++ q = c :: u ∧ c.isDigit = true := by
    intro lo hi a x q ha
    obtain ⟨c,u,rfl⟩ := List.exists_cons_of_ne_nil ha.nonempty
    exact ⟨c,u ++ q,rfl,ha.digits c List.mem_cons_self⟩
  cases h with
  | hour ha => exact hfirst _ ha
  | minute ha =>
    rw [List.append_assoc]
    exact hfirst _ ha
  | second ha =>
    rw [List.append_assoc]
    exact hfirst _ ha

theorem readSign_other {s : List Char} (hm : charAt s 0 ≠ '-') (hp : charAt s 0 ≠ '+') : readSign s = (1,s) := by
  rw [readSign,if_neg hm,if_neg hp]

theorem Offset.reads {o r : List Char} {v : Int} (h : Offset o v) (hr : Stops inClock r) :
    ∃ vs, scanHus ':' 3 (readSign (o ++ r)).2 = (vs,r) ∧ vs ≠ [] ∧ ∀ hour, (readSign (o ++ r)).1 * hms vs hour = v := by
  cases h with
  | plain hc =>
    obtain ⟨vs,hvs,hval⟩ := hc.uShorts hr
    obtain ⟨c,u,hstart,hdigit⟩ := hc.starts (r := r)
    have hsign : readSign (_ ++ r) = (1,_ ++ r) := readSign_other (s := _ ++ r)
      (by rw [hstart]; exact fun hx => (digit_space hdigit).2.2 hx) (by rw [hstart]; exact fun hx => (digit_space hdigit).2.1 hx)
    rw [hsign]
    exact ⟨vs,hvs.scan.1,hvs.scan.2,fun hour => by rw [hval,one_mul]⟩
  | west hc =>
    obtain ⟨vs,hvs,hval⟩ := hc.uShorts hr
    exact ⟨vs,hvs.scan.1,hvs.scan.2,fun hour => by rw [hval]; exact one_mul _⟩
  | east hc =>
    obtain ⟨vs,hvs,hval⟩ := hc.uShorts hr
    exact ⟨vs,hvs.scan.1,hvs.scan.2,fun hour => by rw [hval]; exact neg_one_mul _⟩

theorem Offset.starts {o r : List Char} {v : Int} (h : Offset o v) : Stops isTzAlpha (o ++ r) := by
  cases h with
  | plain hc =>
    obtain ⟨c,u,hstart,hdigit⟩ := hc.starts (r := r)
    rw [hstart]
    exact .cons (digit_alpha hdigit) u
  | west => exact .cons (by decide) _
  | east => exact .cons (by decide) _

theorem Designation.starts {d n r : List Char} (h : Designation d n) : Stops inClock (d ++ r) := by
  cases h with
  | quoted => exact .cons (by decide) _
  | plain hmin _ hall =>
    have hne : d ≠ [] := by
      rintro rfl
      exact absurd hmin (by decide)
    refine stops_all hne fun c hc => ?_
    have halpha := hall c hc
    rw [inClock,alpha_digit halpha,Bool.false_or,beq_eq_false_iff_ne]
    rintro rfl
    exact absurd halpha (by decide)

theorem Numeric.number {lo hi v : Nat} {ds r : List Char} (h : Numeric lo hi ds v) (hr : Stops Char.isDigit r) :
    scanNumber (ds ++ r) = some (false,v,r) := by
  obtain ⟨c,u,hds⟩ := List.exists_cons_of_ne_nil h.nonempty
  obtain ⟨hspace,hplus,hminus⟩ := digit_space (h.digits c (by rw [hds]; exact List.mem_cons_self))
  have hdrop : (ds ++ r).dropWhile isSpace = ds ++ r := by
    rw [hds,List.cons_append,List.dropWhile_cons_of_neg (by simp [hspace])]
  have hsign : scanSign (ds ++ r) = (false,ds ++ r) := by
    obtain ⟨sg,t,hscan,hsplit,hsg⟩ := scanSign_cases (ds ++ r)
    rcases hsg with rfl | rfl | rfl
    · rw [hscan,hsplit]
      rfl
    · rw [hds] at hsplit
      exact absurd (List.cons.inj hsplit).1 hplus
    · rw [hds] at hsplit
      exact absurd (List.cons.inj hsplit).1 hminus
  rw [scanNumber_digits (by rw [hdrop,hsign]) rfl h.nonempty h.digits hr,h.value]

theorem Numeric.strtoul {T : Target} (hT : T.Valid) {lo hi v : Nat} {ds r : List Char} (h : Numeric lo hi ds v)
    (hhi : hi < 65536) (hr : Stops Char.isDigit r) : Time.strtoul T (ds ++ r) = some ((v : Int),r) := by
  have hle := h.range.2
  have hbig : ¬2 ^ T.longBits ≤ v := by
    have hpow : 2 ^ 32 ≤ 2 ^ T.longBits := Nat.pow_le_pow_right (by decide) hT.long
    omega
  rw [Time.strtoul,h.number hr,Option.map_some]
  dsimp only
  rw [if_neg hbig,if_neg Bool.false_ne_true,hT.ulong_word (by omega) (by omega)]

theorem Numeric.starts {lo hi v : Nat} {ds r : List Char} (h : Numeric lo hi ds v) {c : Char} (hc : c.isDigit = false) :
    charAt (ds ++ r) 0 ≠ c := by
  obtain ⟨d,u,rfl⟩ := List.exists_cons_of_ne_nil h.nonempty
  intro hd
  rw [← hd] at hc
  exact absurd (h.digits d List.mem_cons_self) (by rw [show d = charAt (d :: u ++ r) 0 from rfl,hc]; exact Bool.false_ne_true)

theorem charAt_zero (c : Char) (t : List Char) : charAt (c :: t) 0 = c := rfl

theorem readDay_month {T : Target} {first : Bool} {t r : List Char} {m w d : Int} (h : scanHus '.' 3 t = ([m,w,d],r))
    (hrange : ¬(m < 1 ∨ 12 < m ∨ w < 1 ∨ 5 < w ∨ 6 < d)) :
    readDay T first ('M' :: t) = some (⟨.month,m,w,d,0,0,0⟩,r) := by
  rw [readDay,charAt_zero,if_pos rfl,List.tail_cons,h]
  exact if_neg hrange

theorem readDay_julian {T : Target} {first : Bool} {t r : List Char} {d : Int} (h : Time.strtoul T t = some (d,r)) :
    readDay T first ('J' :: t) = some (⟨.julian,0,0,T.toInt (d % 65536),0,0,0⟩,r) := by
  rw [readDay,charAt_zero,if_neg (by decide),if_pos rfl,List.tail_cons]
  dsimp only
  rw [h]

theorem readDay_day {T : Target} {first : Bool} {s r : List Char} {d : Int} (hm : charAt s 0 ≠ 'M') (hj : charAt s 0 ≠ 'J')
    (h : Time.strtoul T s = some (d,r)) : readDay T first s = some (⟨.day,0,0,T.toInt (d % 65536),0,0,0⟩,r) := by
  rw [readDay,if_neg hm,if_neg hj]
  dsimp only
  rw [h]

theorem Date.reads {T : Target} (hT : T.Valid) {t r : List Char} {rule : Rule} (h : Date t rule)
    (hr : Stops Char.isDigit r) (first : Bool) : readDay T first (t ++ r) = some (rule,r) := by
  cases h with
  | day hn =>
    have hrange := hn.range
    rw [readDay_day (hn.starts (by decide)) (hn.starts (by decide)) (hn.strtoul hT (by decide) hr),
      Int.emod_eq_of_lt (by omega) (by omega),hT.toInt_short (by omega) (by omega)]
  | julian hn =>
    have hrange := hn.range
    rw [List.cons_append,readDay_julian (hn.strtoul hT (by decide) hr),Int.emod_eq_of_lt (by omega) (by omega),
      hT.toInt_short (by omega) (by omega)]
  | @month a b c m w d hm hw hd =>
    have hsep : ∀ u, Stops Char.isDigit ('.' :: u) := fun u => .cons (by decide) u
    have hus : UShorts '.' 3 (a ++ '.' :: (b ++ '.' :: (c ++ r))) [(m : Int),w,d] r :=
      .more (hm.uShort (by decide) (hsep _)) (.more (hw.uShort (by decide) (hsep _))
        (.last (hd.uShort (by decide) hr) (fun h0 => absurd rfl h0)))
    have hmr := hm.range
    have hwr := hw.range
    have hdr := hd.range
    rw [show 'M' :: (a ++ '.' :: (b ++ '.' :: c)) ++ r = 'M' :: (a ++ '.' :: (b ++ '.' :: (c ++ r))) by simp]
    exact readDay_month hus.scan.1 (by omega)

theorem readTime_none {s : List Char} (h : charAt s 0 ≠ '/') : readTime s = some (7200,s) := if_neg h

theorem When.reads {T : Target} (hT : T.Valid) {offset : Int} {t r : List Char} {rule : Rule} (h : When T offset t rule)
    (hr : Stops inRule r) (first : Bool) : readRule T first offset (',' :: (t ++ r)) = some (rule,r) := by
  have hclock : Stops inClock r := hr.weaken fun c hc => by rw [inRule,hc,Bool.true_or]
  have hdigit : Stops Char.isDigit r := hclock.weaken fun c hc => by rw [inClock,hc,Bool.true_or]
  have hcomma : ∀ s, (if charAt (',' :: s) 0 = ',' then (',' :: s).tail else ',' :: s) = s := fun s => if_pos rfl
  cases h with
  | plain hd =>
    have hslash : charAt r 0 ≠ '/' := by
      intro hc
      obtain ⟨u,rfl⟩ := charAt_cons hc (by decide)
      exact absurd (hr '/' u rfl) (by decide)
    rw [readRule,hcomma,hd.reads hT hdigit]
    simp only [Option.bind_eq_bind,Option.bind_some,readTime_none hslash]
    rfl
  | @timed t c rule v hd hc =>
    obtain ⟨vs,hvs,hval⟩ := hc.uShorts hclock
    have htime : readTime ('/' :: (c ++ r)) = some ((v : Int),r) := by
      obtain ⟨hscan,hne⟩ := hvs.scan
      obtain ⟨x,xs,rfl⟩ := List.exists_cons_of_ne_nil hne
      rw [readTime,charAt_zero,if_pos rfl,List.tail_cons,hscan]
      dsimp only
      rw [hval]
    rw [List.append_assoc,List.cons_append,readRule,hcomma,hd.reads hT (.cons (by decide) _)]
    simp only [Option.bind_eq_bind,Option.bind_some,htime]
    rfl

theorem readRule_usual (T : Target) (first : Bool) (offset : Int) :
    readRule T first offset [] = some ({ usDefault first with s := T.toInt 7200, offset := offset },[]) := rfl

theorem Changes.reads {T : Target} (hT : T.Valid) {std dst : Int} {a : List Char} {r0 r1 : Rule}
    (h : Changes T std dst a r0 r1) : ∃ s q, readRule T true std a = some (r0,s) ∧ readRule T false dst s = some (r1,q) := by
  cases h with
  | usual => exact ⟨[],[],readRule_usual T true std,readRule_usual T false dst⟩
  | @given a b r0 r1 ha hb =>
    have hfirst := ha.reads hT (.cons (show inRule ',' = false by decide) b) true
    have hsecond := hb.reads hT (.nil _) false
    rw [List.append_nil] at hsecond
    exact ⟨_,_,hfirst,hsecond⟩

theorem Changes.starts {T : Target} {std dst : Int} {a : List Char} {r0 r1 : Rule} (h : Changes T std dst a r0 r1)
    {p : Char → Bool} (hp : p ',' = false) : Stops p a := by
  cases h with
  | usual => exact .nil p
  | given => exact .cons hp _

theorem scanHus_stops {s : List Char} (h : Stops (fun c => isSpace c || c.isDigit || c == '+' || c == '-') s) (sep : Char)
    (k : Nat) : scanHus sep (k + 1) s = ([],s) := by
  have hnone : scanHu s = none := by
    refine scanHu_none fun v r hv => ?_
    cases hv with
    | @mk ws sg ds r hws hsg hds hall hr =>
      cases ws with
      | cons c ws =>
        have hfalse := h c _ rfl
        simp [hws c List.mem_cons_self] at hfalse
      | nil =>
        rcases hsg with rfl | rfl | rfl
        · obtain ⟨c,ds,rfl⟩ := List.exists_cons_of_ne_nil hds
          have hfalse := h c _ rfl
          simp [hall c List.mem_cons_self] at hfalse
        · exact absurd (h '+' _ rfl) (by decide)
        · exact absurd (h '-' _ rfl) (by decide)
  rw [scanHus,hnone]

theorem Shift.reads {T : Target} {std dst v : Int} {o a : List Char} {r0 r1 : Rule} (h : Shift std o v)
    (ha : Changes T std dst a r0 r1) : ∃ vs, scanHus ':' 3 (readSign (o ++ a)).2 = (vs,a) ∧
      (if vs = [] then std - 3600 else (readSign (o ++ a)).1 * hms vs 0) = v := by
  cases h with
  | ahead =>
    have hsign : readSign a = (1,a) := by
      cases ha with
      | usual => rfl
      | given => rfl
    rw [List.nil_append,hsign]
    exact ⟨[],scanHus_stops (ha.starts (by decide)) ':' 2,if_pos rfl⟩
  | given ho =>
    obtain ⟨vs,hvs,hne,hval⟩ := ho.reads (ha.starts (p := inClock) (by decide))
    exact ⟨vs,hvs,by rw [if_neg hne,hval]⟩

theorem Shift.starts {T : Target} {std dst v : Int} {o a : List Char} {r0 r1 : Rule} (h : Shift std o v)
    (ha : Changes T std dst a r0 r1) : Stops isTzAlpha (o ++ a) := by
  cases h with
  | ahead => exact ha.starts (by decide)
  | given ho => exact ho.starts

theorem Denotes.reads {T : Target} (hT : T.Valid) {tzenv : List Char} {g : Setting} (h : Denotes T (skipColon tzenv) g) :
    readSetting T tzenv = some g := by
  generalize hs : skipColon tzenv = s at h
  cases h with
  | @standard d n o v hd ho =>
    have hstart := ho.starts (r := [])
    rw [List.append_nil] at hstart
    obtain ⟨hstd,hname,-⟩ := (hd.named hstart).reads
    obtain ⟨vs,hvs,hne,hval⟩ := ho.reads (.nil inClock)
    rw [List.append_nil] at hvs hval
    rw [readSetting,hs,hstd]
    simp only [Option.bind_eq_bind,Option.bind_some,hvs,if_neg hne,hval,hname]
    rfl
  | @alternate d n o d' n' o' a v v' r0 r1 hd ho hd' ho' ha =>
    obtain ⟨hstd,hname,-⟩ := (hd.named (ho.starts (r := d' ++ (o' ++ a)))).reads
    obtain ⟨vs,hvs,hne,hval⟩ := ho.reads (hd'.starts (r := o' ++ a))
    obtain ⟨-,hname',hdst⟩ := (hd'.named (ho'.starts ha)).reads
    obtain ⟨vs',hvs',hval'⟩ := ho'.reads ha
    obtain ⟨t,q,hr0,hr1⟩ := ha.reads hT
    rw [readSetting,hs,hstd]
    simp only [Option.bind_eq_bind,Option.bind_some,hvs,if_neg hne,hval,hname,hdst,hvs',hval',hname',hr0,hr1]
    rfl

end Tz
