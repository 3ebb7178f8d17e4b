import Mathlib
import Picolibc.Multibyte.Convert
import Picolibc.Printf.Skipping

open Numerals

namespace Printf

structure Build.Positional (b : Build) : Prop where
  full : b.shrink = false
  posArgs : b.posArgs = true
  c99 : b.c99 = true

section

variable {N : Type}

def Width.erase : Width N → Width Unit
  | none => .none
  | lit w => .lit w
  | star _ => .star ()

def Prec.erase : Prec N → Prec Unit
  | none => .none
  | lit ds => .lit ds
  | star _ => .star ()

def Conv.erase (v : Conv N) : Conv Unit := ⟨(),v.flags,v.width.erase,v.prec.erase,v.len,v.letter,v.plain⟩

def Piece.erase : Piece N → Piece Unit
  | lit c => .lit c
  | percent => .percent
  | conv v => .conv v.erase

def Conv.argTy (b : Build) (v : Conv N) : CTy :=
  if v.letter = .p then .ptr else v.letter.valueTy b (lenFlags b v.len .zero)

def Conv.mentions (b : Build) (v : Conv N) : List (N × CTy) :=
  v.width.stars.map (fun n => (n,.int)) ++ (v.prec.stars.map (fun n => (n,.int)) ++ [(v.num,v.argTy b)])

def Piece.mentions (b : Build) : Piece N → List (N × CTy)
  | conv v => v.mentions b
  | _ => []

def mentions (b : Build) (fmt : List (Piece N)) : List (N × CTy) := fmt.flatMap (Piece.mentions b)

end

def place (n : Number) : Nat := n - 1

def permute (b : Build) (fmt : List (Piece Number)) (args : List Arg) : List Arg :=
  (mentions b fmt).map (fun m => args.getD (place m.1) (.int 0))

def Output.reindex (f : Nat → Nat) (o : Output) : Output :=
  { o with reads := o.reads.map (fun r => { r with pos := f r.pos }) }

def source (b : Build) (fmt : List (Piece Number)) (i : Nat) : Nat :=
  ((mentions b fmt)[i]?.map (fun m => place m.1)).getD 0

structure Numbered (b : Build) (fmt : List (Piece Number)) (args : List Arg) : Prop where
  typed : ∀ m ∈ mentions b fmt, ∃ a, args[place m.1]? = some a ∧ a.ty = m.2
  dense : ∀ k : Number, (∃ m ∈ mentions b fmt, k ≤ m.1) → ∃ m ∈ mentions b fmt, m.1 = k

def Selects (b : Build) (ft : FloatText) (fmt : List (Piece Number)) (args : List Arg) : Prop :=
  ∃ out, format b ft (render (fmt.map Piece.erase)) (permute b fmt args) = .ok out ∧
    format b ft (render fmt) args = .ok (out.reindex (source b fmt))

def Seen (b : Build) (fmt : List (Piece Number)) (args : List Arg) : Prop :=
  ∀ m ∈ mentions b fmt, ∀ k : Nat, 0 < k → k < m.1 → Steps b (fmt.flatMap (Piece.seen b)) args k

def Completes (b : Build) (ft : FloatText) (fmt : List (Piece Number)) (args : List Arg) : Prop :=
  ∃ out, format b ft (render (fmt.map Piece.erase)) (permute b fmt args) = .ok out ∧ out.failed = false

section

variable {b : Build} {ft : FloatText} {orig rest : List Char} {sp : Spec} {args : List Arg}

theorem len_known (hb : b.Positional) (m : Len) : m.known b = true := by
  cases m <;> simp [Len.known,hb.c99]

theorem letter_known (hb : b.Positional) (m : Letter) : m.known b = true := by
  cases m <;> simp [Letter.known,hb.c99,hb.full]

theorem lenFlags_sizes {f g : Flags} (hf : f.belowLong = true) (hg : g.belowLong = true) (m : Len) :
    (lenFlags b m f).long = (lenFlags b m g).long ∧ (lenFlags b m f).repd = (lenFlags b m g).repd := by
  simp only [Flags.belowLong,Bool.and_eq_true,Bool.not_eq_true'] at hf hg
  obtain ⟨⟨⟨hl,hs⟩,hr⟩,-⟩ := hf
  obtain ⟨⟨⟨hl',hs'⟩,hr'⟩,-⟩ := hg
  cases m <;> simp [lenFlags,Len.chars,checkIntSizes,checkIntSize,hl,hs,hr,hl',hs',hr']
  all_goals
    split_ifs <;> simp_all

theorem width_erase (w : Width Number) (x : Int) : w.erase.apply b sp x = w.apply b sp x := by
  cases w <;> rfl

theorem prec_erase (p : Prec Number) (x : Int) : p.erase.apply b sp x = p.apply b sp x := by
  cases p <;> rfl

theorem width_erase_stars (w : Width Number) : w.erase.stars = w.stars.map (fun _ => ()) := by
  cases w <;> rfl

theorem prec_erase_stars (p : Prec Number) : p.erase.stars = p.stars.map (fun _ => ()) := by
  cases p <;> rfl

theorem width_congr {N : Type} {w : Width N} {x y : Int} (h : w.stars ≠ [] → x = y) :
    w.apply b sp x = w.apply b sp y := by
  cases w with
  | none => rfl
  | lit k => rfl
  | star n => rw [h (List.cons_ne_nil _ _)]

theorem prec_congr {N : Type} {p : Prec N} {x y : Int} (h : p.stars ≠ [] → x = y) :
    p.apply b sp x = p.apply b sp y := by
  cases p with
  | none => rfl
  | lit ds => rfl
  | star n => rw [h (List.cons_ne_nil _ _)]

def starThen (b : Build) (orig : List Char) (args : List Arg) (n : Number)
    (k : Int → VaList → Except Fault Output) : Except Fault Output :=
  match skipToArg b orig ⟨args,0⟩ (n : Nat) with
  | .error e => .error e
  | .ok ap =>
    match vaArg b .int ap with
    | .error e => .error e
    | .ok (a,ap') => Output.andThen ⟨[],[⟨ap.pos,.int⟩],false⟩ (k (wrapS b.intBits a.bits) ap')

def Reach (b : Build) (orig : List Char) (args : List Arg) (n : Number) : Prop :=
  skipToArg b orig ⟨args,0⟩ (n : Nat) = .ok ⟨args,place n⟩

theorem starThen_reach {n : Number} {k : Int → VaList → Except Fault Output} (hr : Reach b orig args n)
    (hi : IntAt args (place n)) :
    starThen b orig args n k =
      Output.andThen ⟨[],[⟨place n,.int⟩],false⟩ (k (intAt b args (place n)) ⟨args,place n + 1⟩) := by
  obtain ⟨a,ha,hx⟩ := vaArg_int (b := b) (show IntAt (VaList.mk args (place n)).args _ from hi)
  rw [starThen,hr]
  simp only [ha,hx]

theorem andThen_ok {o : Output} {k : Except Fault Output} {r : Output} (ho : o.failed = false)
    (h : o.andThen k = .ok r) : ∃ r', k = .ok r' ∧ r = ⟨o.text ++ r'.text,o.reads ++ r'.reads,r'.failed⟩ := by
  cases k with
  | error e => simp [Output.andThen,ho] at h
  | ok r' =>
    simp only [Output.andThen,ho,Bool.false_eq_true,if_false,Except.ok.injEq] at h
    exact ⟨r',rfl,h.symm⟩

theorem vaArg_inv {t : CTy} {ap ap' : VaList} {a : Arg} (h : vaArg b t ap = .ok (a,ap')) :
    ap.args[ap.pos]? = some a ∧ ap' = ⟨ap.args,ap.pos + 1⟩ := by
  cases hv : ap.args[ap.pos]? with
  | none => simp [vaArg,hv] at h
  | some c =>
    by_cases hc : readable b c.ty t = true
    · simp only [vaArg,hv,if_pos hc,Except.ok.injEq,Prod.mk.injEq] at h
      exact ⟨congrArg some h.1,h.2.symm⟩
    · simp [vaArg,hv,hc] at h

theorem skipToArg_args {n : Int} {ap ap' : VaList} (h : skipToArg b orig ap n = .ok ap') : ap'.args = ap.args :=
  (skipFrom_args h).1

theorem starThen_inv {n : Number} {k : Int → VaList → Except Fault Output} {r : Output} {ps : List Nat}
    (h : starThen b orig args n k = .ok r) (hps : r.reads.map Read.pos = place n :: ps) :
    Reach b orig args n ∧ ∃ r', k (intAt b args (place n)) ⟨args,place n + 1⟩ = .ok r' ∧ r'.reads.map Read.pos = ps := by
  rw [starThen] at h
  cases hs : skipToArg b orig ⟨args,0⟩ (n : Nat) with
  | error e => rw [hs] at h; cases h
  | ok ap =>
    have hargs : ap.args = args := skipToArg_args hs
    simp only [hs] at h
    cases hv : vaArg b .int ap with
    | error e => rw [hv] at h; cases h
    | ok q =>
      obtain ⟨a,ap'⟩ := q
      simp only [hv] at h
      obtain ⟨r',hk,rfl⟩ := andThen_ok rfl h
      obtain ⟨ha,rfl⟩ := vaArg_inv hv
      simp only [List.cons_append,List.nil_append,List.map_cons,List.cons.injEq] at hps
      obtain ⟨hpos,hps⟩ := hps
      rw [hargs,hpos] at ha
      refine ⟨?_,r',?_,hps⟩
      · rw [Reach,hs,← hargs,← hpos]
      · simpa only [hargs,hpos,intAt,ha,Option.map_some,Option.getD_some] using hk

theorem scan_number (hb : b.Positional) (n : Number) {ap : VaList} :
    scanFormat b ft orig (.conv .init) (numeral n ++ '$' :: rest) ap =
      scanFormat b ft orig (.conv ⟨.zero,0,0,(n : Nat)⟩) rest ap := by
  rw [scan_numeral hb.full (by rfl) rfl]
  refine scan_silent ?_
  have hflag : isFlag '$' = false := by decide
  have hdig : isDigit '$' = false := by decide
  simp [convStep,hflag,hdig,hb.posArgs,Flags.belowLong,Flags.zero,Spec.init]

theorem scan_asterisk (hb : b.Positional) (hlong : sp.flags.belowLong = true) (hn : sp.argno ≠ 0) {ap : VaList} :
    scanFormat b ft orig (.conv sp) ('*' :: rest) ap = scanFormat b ft orig (.conv sp) rest ap := by
  refine scan_silent ?_
  have hflag : isFlag '*' = false := by decide
  have hdig : isDigit '*' = false := by decide
  simp [convStep,hflag,hdig,hlong,hb.posArgs,hn]

theorem scan_dollar (sp : Spec) (hb : b.Positional) (hlong : sp.flags.belowLong = true) (hn : sp.argno ≠ 0) {n : Number}
    (ht : (if sp.flags.prec then sp.prec else sp.width) = (n : Nat)) (i : Nat) :
    scanFormat b ft orig (.conv sp) ('$' :: rest) ⟨args,i⟩ =
      starThen b orig args n (fun x ap => scanFormat b ft orig
        (.conv (if sp.flags.prec then { sp with prec := x } else { sp with width := x })) rest ap) := by
  have hflag : isFlag '$' = false := by decide
  have hdig : isDigit '$' = false := by decide
  have hstep : convStep b orig sp ⟨args,i⟩ '$' = readPositional b orig sp ⟨args,i⟩ := by
    simp [convStep,hflag,hdig,hlong,hb.posArgs,hn]
  rw [scan_step,hstep,readPositional,ht,starThen]
  cases skipToArg b orig ⟨args,0⟩ (n : Nat) with
  | error e => rfl
  | ok ap =>
    dsimp only
    cases vaArg b .int ap with
    | error e => rfl
    | ok q => rfl

theorem scan_star_width (hb : b.Positional) (hsp : sp.flags.belowWidth = true) (h0 : sp.width = 0)
    (hn : sp.argno ≠ 0) (n : Number) (i : Nat) :
    scanFormat b ft orig (.conv sp) ((Width.star n).chars ++ rest) ⟨args,i⟩ =
      starThen b orig args n (fun x ap => scanFormat b ft orig (.conv ((Width.star n).apply b sp x)) rest ap) := by
  have hf := below_prec hsp
  have hlong : sp.flags.belowLong = true := below_long hsp
  have hchars : (Width.star n).chars ++ rest = '*' :: (numeral n ++ '$' :: rest) := by
    simp [Width.chars,Numbering.chars]
  rw [hchars,scan_asterisk hb hlong hn,scan_numeral hb.full hsp h0]
  refine (scan_dollar { sp with width := (n : Nat), flags := { sp.flags with width := true } } hb (n := n)
    hlong hn (by simp [hf]) i).trans ?_
  simp [Width.apply,Spec.setStar,hf,hb.full]

theorem scan_star_prec (hb : b.Positional) (hlong : sp.flags.belowLong = true) (hf : sp.flags.prec = false)
    (h0 : sp.prec = 0) (hn : sp.argno ≠ 0) (n : Number) (i : Nat) :
    scanFormat b ft orig (.conv sp) ((Prec.star n).chars ++ rest) ⟨args,i⟩ =
      starThen b orig args n (fun x ap => scanFormat b ft orig (.conv ((Prec.star n).apply b sp x)) rest ap) := by
  have hchars : (Prec.star n).chars ++ rest = '.' :: '*' :: (numeral n ++ '$' :: rest) := by
    simp [Prec.chars,Numbering.chars]
  have hpoint : sp.point.flags.belowLong = true := hlong
  have hsp : sp.point = { sp.point with prec := (0 : Nat) } := by simp [Spec.point,h0]
  rw [hchars,scan_point hlong hf,scan_asterisk hb hpoint hn,numeral,hsp,
    scan_digits_prec sp.point hb.full hpoint rfl (digits_lt n) 0,horner_digits]
  refine (scan_dollar { sp.point with prec := (n : Nat) } hb (n := n) hpoint hn (by simp [Spec.point]) i).trans ?_
  simp [Prec.apply,Spec.setStar,Spec.point,hb.full]

def starAt (b : Build) (args : List Arg) (ns : List Number) : Int :=
  (ns.head?.map (fun n => intAt b args (place n))).getD 0

def starReads (ns : List Number) : List Read := ns.map (fun n => ⟨place n,.int⟩)

theorem scan_width_reach {w : Width Number} (hb : b.Positional) (hsp : sp.flags.belowWidth = true)
    (h0 : sp.width = 0) (hn : sp.argno ≠ 0)
    (h : ∀ n ∈ w.stars, Reach b orig args n ∧ IntAt args (place n)) (i : Nat) : ∃ j,
    scanFormat b ft orig (.conv sp) (w.chars ++ rest) ⟨args,i⟩ =
      Output.andThen ⟨[],starReads w.stars,false⟩
        (scanFormat b ft orig (.conv (w.apply b sp (starAt b args w.stars))) rest ⟨args,j⟩) := by
  cases w with
  | none => exact ⟨i,(andThen_none _).symm⟩
  | lit k => exact ⟨i,(scan_width_lit hsp h0 k).trans (andThen_none _).symm⟩
  | star n =>
    obtain ⟨hr,hi⟩ := h n List.mem_cons_self
    exact ⟨place n + 1,(scan_star_width hb hsp h0 hn n i).trans (starThen_reach hr hi)⟩

theorem scan_prec_reach {p : Prec Number} (hb : b.Positional) (hlong : sp.flags.belowLong = true)
    (hf : sp.flags.prec = false) (h0 : sp.prec = 0) (hn : sp.argno ≠ 0)
    (h : ∀ n ∈ p.stars, Reach b orig args n ∧ IntAt args (place n)) (i : Nat) : ∃ j,
    scanFormat b ft orig (.conv sp) (p.chars ++ rest) ⟨args,i⟩ =
      Output.andThen ⟨[],starReads p.stars,false⟩
        (scanFormat b ft orig (.conv (p.apply b sp (starAt b args p.stars))) rest ⟨args,j⟩) := by
  cases p with
  | none => exact ⟨i,(andThen_none _).symm⟩
  | lit ds => exact ⟨i,(scan_prec_lit hlong hf h0 ds).trans (andThen_none _).symm⟩
  | star n =>
    obtain ⟨hr,hi⟩ := h n List.mem_cons_self
    exact ⟨place n + 1,(scan_star_prec hb hlong hf h0 hn n i).trans (starThen_reach hr hi)⟩

theorem scan_width_inv {w : Width Number} (hb : b.Positional) (hsp : sp.flags.belowWidth = true)
    (h0 : sp.width = 0) (hn : sp.argno ≠ 0) {i : Nat} {r : Output} {ps : List Nat}
    (h : scanFormat b ft orig (.conv sp) (w.chars ++ rest) ⟨args,i⟩ = .ok r)
    (hps : r.reads.map Read.pos = w.stars.map place ++ ps) :
    (∀ n ∈ w.stars, Reach b orig args n) ∧ ∃ j r',
      scanFormat b ft orig (.conv (w.apply b sp (starAt b args w.stars))) rest ⟨args,j⟩ = .ok r' ∧
        r'.reads.map Read.pos = ps := by
  cases w with
  | none => exact ⟨by simp [Width.stars],i,r,h,hps⟩
  | lit k =>
    rw [Width.chars,scan_width_lit hsp h0] at h
    exact ⟨by simp [Width.stars],i,r,h,hps⟩
  | star n =>
    obtain ⟨hr,r',hk,hps'⟩ := starThen_inv ((scan_star_width hb hsp h0 hn n i).symm.trans h) hps
    exact ⟨by simpa [Width.stars] using hr,place n + 1,r',hk,hps'⟩

theorem scan_prec_inv {p : Prec Number} (hb : b.Positional) (hlong : sp.flags.belowLong = true)
    (hf : sp.flags.prec = false) (h0 : sp.prec = 0) (hn : sp.argno ≠ 0) {i : Nat} {r : Output} {ps : List Nat}
    (h : scanFormat b ft orig (.conv sp) (p.chars ++ rest) ⟨args,i⟩ = .ok r)
    (hps : r.reads.map Read.pos = p.stars.map place ++ ps) :
    (∀ n ∈ p.stars, Reach b orig args n) ∧ ∃ j r',
      scanFormat b ft orig (.conv (p.apply b sp (starAt b args p.stars))) rest ⟨args,j⟩ = .ok r' ∧
        r'.reads.map Read.pos = ps := by
  cases p with
  | none => exact ⟨by simp [Prec.stars],i,r,h,hps⟩
  | lit ds =>
    exact ⟨by simp [Prec.stars],i,r,(scan_prec_lit hlong hf h0 ds).symm.trans h,hps⟩
  | star n =>
    obtain ⟨hr,r',hk,hps'⟩ := starThen_inv ((scan_star_prec hb hlong hf h0 hn n i).symm.trans h) hps
    exact ⟨by simpa [Prec.stars] using hr,place n + 1,r',hk,hps'⟩

theorem setStar_argno (sp : Spec) (x n : Int) :
    ({ sp with argno := n } : Spec).setStar b x = { sp.setStar b x with argno := n } := by
  unfold Spec.setStar
  dsimp only
  split_ifs <;> rfl

theorem width_argno {N : Type} (w : Width N) (x n : Int) :
    w.apply b { sp with argno := n } x = { w.apply b sp x with argno := n } := by
  cases w with
  | none => rfl
  | lit k => cases hb : b.shrink <;> simp [Width.apply,Spec.setWidth,hb]
  | star k => exact setStar_argno sp x n

theorem prec_argno {N : Type} (p : Prec N) (x n : Int) :
    p.apply b { sp with argno := n } x = { p.apply b sp x with argno := n } := by
  cases p with
  | none => rfl
  | lit ds => cases hb : b.shrink <;> simp [Prec.apply,Spec.setPrec,Spec.point,hb]
  | star k => exact setStar_argno sp.point x n

theorem spec_argno {N : Type} (v : Conv N) (x y n : Int) : v.spec b x y n = { v.spec b x y 0 with argno := n } := by
  have hstart : v.start b n = { v.start b 0 with argno := n } := rfl
  simp only [Conv.spec,hstart,width_argno,prec_argno]

theorem convert_argno (n : Int) (c : Char) :
    convert b ft { sp with argno := n } c = convert b ft sp c := by
  funext ap
  by_cases hb : b.shrink = true
  · simp [convert,Spec.adjust,hb]
  · by_cases hp : sp.prec < 0 <;> by_cases hw : sp.width < 0 <;> simp [convert,Spec.adjust,hb,hp,hw]

theorem number_ne_zero (n : Number) : ((n : Nat) : Int) ≠ 0 := by simp

theorem conv_chars (v : Conv Number) : v.chars ++ rest = numeral v.num ++ '$' :: (v.flags.map Flag.char ++
    (v.width.chars ++ (v.prec.chars ++ (v.len.chars ++ (v.letter.char :: rest))))) := by
  simp [Conv.chars,Numbering.chars]

def Conv.at (b : Build) (args : List Arg) (v : Conv Number) : Spec :=
  v.spec b (starAt b args v.width.stars) (starAt b args v.prec.stars) (v.num : Nat)

def valueThen (b : Build) (ft : FloatText) (orig : List Char) (args : List Arg) (v : Conv Number)
    (rest : List Char) : Except Fault Output :=
  match skipToArg b orig ⟨args,0⟩ (v.num : Nat) with
  | .error e => .error e
  | .ok ap => convertThen b ft orig (v.at b args) v.letter.char ap rest

theorem scan_value (hb : b.Positional) (v : Conv Number) (j : Nat) :
    scanFormat b ft orig (.conv (v.prec.apply b (v.width.apply b (v.start b (v.num : Nat))
      (starAt b args v.width.stars)) (starAt b args v.prec.stars)))
      (v.len.chars ++ (v.letter.char :: rest)) ⟨args,j⟩ = valueThen b ft orig args v rest := by
  have hnum : (v.at b args).argno = (v.num : Nat) :=
    congrArg Spec.argno (spec_argno v (starAt b args v.width.stars) (starAt b args v.prec.stars) (v.num : Nat))
  rw [scan_len (len_known hb _),scan_letter,valueThen]
  change (match toValue b orig (v.at b args) ⟨args,j⟩ with | .error e => _ | .ok ap => _) = _
  rw [toValue,if_pos ⟨hb.posArgs,by rw [hnum]; exact number_ne_zero v.num⟩,hnum]
  rfl

theorem scan_conv_reach {v : Conv Number} (hb : b.Positional)
    (hw : ∀ n ∈ v.width.stars, Reach b orig args n ∧ IntAt args (place n))
    (hp : ∀ n ∈ v.prec.stars, Reach b orig args n ∧ IntAt args (place n)) (hv : Reach b orig args v.num) (i : Nat) :
    scanFormat b ft orig (.conv .init) (v.chars ++ rest) ⟨args,i⟩ =
      Output.andThen ⟨[],starReads v.width.stars ++ starReads v.prec.stars,false⟩
        (convertThen b ft orig (v.at b args) v.letter.char ⟨args,place v.num⟩ rest) := by
  have hstart := start_flags (b := b) v (v.num : Nat)
  have hnum := number_ne_zero v.num
  obtain ⟨hlong,hprec,hzero,hargno⟩ :=
    width_apply (b := b) v.width (starAt b args v.width.stars) (below_prec hstart)
  rw [conv_chars,scan_number hb,scan_flags v.flags (by rfl)]
  obtain ⟨j,hj⟩ := scan_width_reach hb hstart rfl hnum hw i
  refine hj.trans ?_
  obtain ⟨k,hk⟩ := scan_prec_reach hb (hlong.trans (below_long hstart)) hprec hzero (hargno ▸ hnum) hp j
  rw [hk,andThen_reads,scan_value hb,valueThen,hv]

theorem scan_conv_inv {v : Conv Number} (hb : b.Positional) {i : Nat} {r : Output} {ps : List Nat}
    (h : scanFormat b ft orig (.conv .init) (v.chars ++ rest) ⟨args,i⟩ = .ok r)
    (hps : r.reads.map Read.pos = v.width.stars.map place ++ (v.prec.stars.map place ++ ps)) :
    (∀ n ∈ v.width.stars, Reach b orig args n) ∧ (∀ n ∈ v.prec.stars, Reach b orig args n) ∧
      ∃ r', valueThen b ft orig args v rest = .ok r' ∧ r'.reads.map Read.pos = ps := by
  have hstart := start_flags (b := b) v (v.num : Nat)
  have hnum := number_ne_zero v.num
  obtain ⟨hlong,hprec,hzero,hargno⟩ :=
    width_apply (b := b) v.width (starAt b args v.width.stars) (below_prec hstart)
  rw [conv_chars,scan_number hb,scan_flags v.flags (by rfl)] at h
  obtain ⟨hrw,j,r₁,h₁,hps₁⟩ := scan_width_inv hb hstart rfl hnum h hps
  obtain ⟨hrp,k,r₂,h₂,hps₂⟩ :=
    scan_prec_inv hb (hlong.trans (below_long hstart)) hprec hzero (hargno ▸ hnum) h₁ hps₁
  exact ⟨hrw,hrp,r₂,(scan_value hb v k).symm.trans h₂,hps₂⟩

def Aligned (perm args : List Arg) (f : Nat → Nat) (i : Nat) (ms : List (Number × CTy)) : Prop :=
  ∀ k m, ms[k]? = some m → perm[i + k]? = args[place m.1]? ∧ f (i + k) = place m.1

section

variable {perm : List Arg} {f : Nat → Nat} {i : Nat}

theorem aligned_left {xs ys : List (Number × CTy)} (h : Aligned perm args f i (xs ++ ys)) : Aligned perm args f i xs := by
  intro k m hk
  have hlt : k < xs.length := (List.getElem?_eq_some_iff.mp hk).1
  exact h k m (by rwa [List.getElem?_append_left hlt])

theorem aligned_right {xs ys : List (Number × CTy)} (h : Aligned perm args f i (xs ++ ys)) :
    Aligned perm args f (i + xs.length) ys := by
  intro k m hk
  rw [Nat.add_assoc]
  exact h (xs.length + k) m (by rw [List.getElem?_append_right (by omega)]; simpa using hk)

theorem width_aligned {w : Width Number} (h : Aligned perm args f i (w.stars.map (fun n => (n,.int)))) :
    ∀ n ∈ w.stars, perm[i]? = args[place n]? ∧ f i = place n := by
  cases w with
  | none => simp [Width.stars]
  | lit k => simp [Width.stars]
  | star k => simpa [Width.stars] using h 0 (k,.int) rfl

theorem prec_aligned {p : Prec Number} (h : Aligned perm args f i (p.stars.map (fun n => (n,.int)))) :
    ∀ n ∈ p.stars, perm[i]? = args[place n]? ∧ f i = place n := by
  cases p with
  | none => simp [Prec.stars]
  | lit ds => simp [Prec.stars]
  | star k => simpa [Prec.stars] using h 0 (k,.int) rfl

theorem width_values {w : Width Number} (h : ∀ n ∈ w.stars, perm[i]? = args[place n]? ∧ f i = place n) :
    (w.stars ≠ [] → intAt b perm i = starAt b args w.stars) ∧
      (w.erase.reads i).map (fun r => { r with pos := f r.pos }) = starReads w.stars := by
  cases w with
  | none => exact ⟨fun h => absurd rfl h,rfl⟩
  | lit k => exact ⟨fun h => absurd rfl h,rfl⟩
  | star k =>
    obtain ⟨hp,hf⟩ := h k List.mem_cons_self
    refine ⟨fun _ => ?_,?_⟩
    · simp [starAt,Width.stars,intAt,hp]
    · simp [Width.erase,Width.reads,Width.stars,starReads,hf]

theorem prec_values {p : Prec Number} (h : ∀ n ∈ p.stars, perm[i]? = args[place n]? ∧ f i = place n) :
    (p.stars ≠ [] → intAt b perm i = starAt b args p.stars) ∧
      (p.erase.reads i).map (fun r => { r with pos := f r.pos }) = starReads p.stars := by
  cases p with
  | none => exact ⟨fun h => absurd rfl h,rfl⟩
  | lit ds => exact ⟨fun h => absurd rfl h,rfl⟩
  | star k =>
    obtain ⟨hp,hf⟩ := h k List.mem_cons_self
    refine ⟨fun _ => ?_,?_⟩
    · simp [starAt,Prec.stars,intAt,hp]
    · simp [Prec.erase,Prec.reads,Prec.stars,starReads,hf]

end

theorem spec_flags {N : Type} (v : Conv N) (x y n : Int) : ∃ g : Flags, g.belowLong = true ∧
    (v.spec b x y n).flags = lenFlags b v.len g := by
  have hstart := start_flags (b := b) v n
  have hw := width_apply (b := b) v.width x (below_prec hstart)
  exact ⟨_,((prec_apply v.prec y).1.trans hw.1).trans (below_long hstart),rfl⟩

theorem readable_value {N : Type} (v : Conv N) (x y n : Int) :
    readable b (v.argTy b) (v.letter.valueTy b (v.spec b x y n).flags) = true := by
  obtain ⟨g,hg,hflags⟩ := spec_flags (b := b) v x y n
  have hsizes := lenFlags_sizes (b := b) hg (show Flags.zero.belowLong = true from rfl) v.len
  rw [hflags,valueTy_congr hsizes.1 hsizes.2,Conv.argTy]
  by_cases hp : v.letter = .p
  · rw [if_pos hp,hp,v.plain hp]
    simp [readable,Letter.valueTy,lenFlags,Len.chars,Flags.zero,intTy,ptrTy]
  · simp [readable,hp]

theorem convertThen_ok {t : CTy} {c : Char} {body : Arg → List UInt8 × Bool} {i : Nat} {a : Arg}
    (hbody : ∀ ap, convert b ft sp c ap =
      match vaArg b t ap with
      | .error e => .error e
      | .ok (a,ap') => .ok (⟨(body a).1,[⟨ap.pos,t⟩],(body a).2⟩,ap'))
    (ha : args[i]? = some a) (ht : readable b a.ty t = true) :
    convertThen b ft orig sp c ⟨args,i⟩ rest =
      Output.andThen ⟨(body a).1,[⟨i,t⟩],(body a).2⟩ (scanFormat b ft orig .text rest ⟨args,i + 1⟩) := by
  have hv : vaArg b t ⟨args,i⟩ = .ok (a,⟨args,i + 1⟩) := vaArg_ok ha ht
  simp only [convertThen,hbody,hv]

theorem reindex_andThen (f : Nat → Nat) (o : Output) (k : Except Fault Output) :
    (o.andThen k).map (Output.reindex f) = (o.reindex f).andThen (k.map (Output.reindex f)) := by
  by_cases ho : o.failed = true
  · simp [Output.andThen,Output.reindex,ho,Except.map]
  · cases k with
    | error e => simp [Output.andThen,Output.reindex,ho,Except.map]
    | ok r => simp [Output.andThen,Output.reindex,ho,Except.map]

theorem unit_plain (n : Unit) : ∀ c ∈ Numbering.chars n, c ≠ '%' := by
  simp [Numbering.chars]

theorem scan_text_lit {N : Type} [Numbering N] (c : { c : Char // c ≠ '%' }) {ap : VaList} :
    scanFormat b ft orig .text ((Piece.lit (N := N) c).chars ++ rest) ap =
      Output.andThen ⟨[byte c.1],[],false⟩ (scanFormat b ft orig .text rest ap) := by
  rw [Piece.chars,List.singleton_append,scanFormat]
  · exact fun e _ => c.2 e
  · exact fun _ e _ => c.2 e
  · exact fun _ _ e _ => c.2 e

theorem scan_text_conv {N : Type} [Numbering N] (h : ∀ n : N, ∀ c ∈ Numbering.chars n, c ≠ '%') (v : Conv N)
    {ap : VaList} :
    scanFormat b ft orig .text ((Piece.conv v).chars ++ rest) ap =
      scanFormat b ft orig (.conv .init) (v.chars ++ rest) ap := by
  obtain ⟨c,l,hl,hne⟩ := conv_head h v
  rw [Piece.chars,List.cons_append,hl,List.cons_append,scanFormat]
  exact hne

theorem render_cons {N : Type} [Numbering N] (p : Piece N) (fmt : List (Piece N)) :
    render (p :: fmt) = p.chars ++ render fmt := rfl

def Typed (args : List Arg) (ms : List (Number × CTy)) : Prop :=
  ∀ m ∈ ms, ∃ a, args[place m.1]? = some a ∧ a.ty = m.2

theorem intAt_of_typed {n : Number} {a : Arg} (ha : args[place n]? = some a) (ht : a.ty = .int) :
    IntAt args (place n) := by
  cases a <;> first | exact ⟨_,ha⟩ | cases ht

theorem typed_stars {v : Conv Number} (h : Typed args (v.mentions b)) :
    (∀ n ∈ v.width.stars, IntAt args (place n)) ∧ (∀ n ∈ v.prec.stars, IntAt args (place n)) ∧
      ∃ a, args[place v.num]? = some a ∧ a.ty = v.argTy b := by
  refine ⟨fun n hn => ?_,fun n hn => ?_,?_⟩
  · obtain ⟨a,ha,ht⟩ := h (n,.int) (by simp [Conv.mentions,hn])
    exact intAt_of_typed ha ht
  · obtain ⟨a,ha,ht⟩ := h (n,.int) (by simp [Conv.mentions,hn])
    exact intAt_of_typed ha ht
  · exact h (v.num,v.argTy b) (by simp [Conv.mentions])

structure ConvAligned (b : Build) (perm args : List Arg) (f : Nat → Nat) (i : Nat) (v : Conv Number) : Prop where
  width : ∀ n ∈ v.width.stars, perm[i]? = args[place n]? ∧ f i = place n
  prec : ∀ n ∈ v.prec.stars,
    perm[i + v.width.stars.length]? = args[place n]? ∧ f (i + v.width.stars.length) = place n
  value : perm[i + v.width.stars.length + v.prec.stars.length]? = args[place v.num]? ∧
    f (i + v.width.stars.length + v.prec.stars.length) = place v.num

theorem convAligned {perm : List Arg} {f : Nat → Nat} {i : Nat} {v : Conv Number}
    (h : Aligned perm args f i (v.mentions b)) : ConvAligned b perm args f i v := by
  have hrest := aligned_right h
  rw [List.length_map] at hrest
  have hlast := aligned_right hrest
  rw [List.length_map] at hlast
  exact ⟨width_aligned (aligned_left h),prec_aligned (aligned_left hrest),hlast 0 _ rfl⟩

theorem mentions_length {N : Type} (v : Conv N) :
    (v.mentions b).length = v.width.stars.length + v.prec.stars.length + 1 := by
  simp [Conv.mentions]
  omega

theorem scan_erased (hb : b.Positional) {perm : List Arg} {f : Nat → Nat} {i : Nat} {v : Conv Number}
    (ha : ConvAligned b perm args f i v) (ht : Typed args (v.mentions b)) :
    scanFormat b ft orig (.conv .init) (v.erase.chars ++ rest) ⟨perm,i⟩ =
      Output.andThen ⟨[],v.width.erase.reads i ++ v.prec.erase.reads (i + v.width.stars.length),false⟩
        (convertThen b ft orig (v.at b args) v.letter.char
          ⟨perm,i + v.width.stars.length + v.prec.stars.length⟩ rest) := by
  obtain ⟨hw,hp,-⟩ := typed_stars ht
  have hint : ∀ {k : Nat} {ns : List Number}, (∀ n ∈ ns, IntAt args (place n)) →
      (∀ n ∈ ns, perm[k]? = args[place n]? ∧ f k = place n) → ns.map (fun _ => ()) ≠ [] → IntAt perm k := by
    intro k ns hns hk hne
    obtain ⟨n,hn⟩ := List.exists_mem_of_ne_nil ns (by simpa using hne)
    obtain ⟨v,hv⟩ := hns n hn
    exact ⟨v,(hk n hn).1.trans hv⟩
  have hspec : v.at b args = { v.erase.spec b (intAt b perm i) (intAt b perm (i + v.width.stars.length)) 0 with
      argno := (v.num : Nat) } := by
    have hx : v.width.apply b (v.start b 0) (intAt b perm i) = _ := width_congr (width_values ha.width).1
    have hy : ∀ sp : Spec, v.prec.apply b sp (intAt b perm (i + v.width.stars.length)) = _ :=
      fun sp => prec_congr (prec_values ha.prec).1
    rw [Conv.at,spec_argno]
    simp only [Conv.spec,← hx,← hy]
    simp only [Conv.erase,width_erase,prec_erase]
    rfl
  have hscan : scanFormat b ft orig (.conv .init) (v.erase.chars ++ rest) ⟨perm,i⟩ = _ := scan_conv (len_known hb _)
    (by rw [Conv.erase,width_erase_stars]; exact hint hw ha.width)
    (by rw [Conv.erase,width_erase_stars,prec_erase_stars,List.length_map]; exact hint hp ha.prec)
  simp only [Conv.erase,width_erase_stars,prec_erase_stars,List.length_map] at hscan
  rw [Conv.erase,hscan]
  rw [hspec]
  simp only [convertThen,convert_argno]
  rfl

theorem scan_agrees (hb : b.Positional) {perm : List Arg} {f : Nat → Nat} {other : List Char}
    {fmt : List (Piece Number)} {i j : Nat} (ha : Aligned perm args f i (mentions b fmt))
    (ht : Typed args (mentions b fmt)) (hr : ∀ m ∈ mentions b fmt, Reach b orig args m.1) :
    scanFormat b ft orig .text (render fmt) ⟨args,j⟩ =
      (scanFormat b ft other .text (render (fmt.map Piece.erase)) ⟨perm,i⟩).map (Output.reindex f) := by
  induction fmt generalizing i j with
  | nil => rfl
  | cons p fmt ih =>
    rw [List.map_cons,render_cons,render_cons]
    cases p with
    | lit c =>
      rw [scan_text_lit,Piece.erase,scan_text_lit,reindex_andThen,← ih ha ht hr]
      rfl
    | percent =>
      have hpos : scanFormat b ft orig .text ((Piece.percent (N := Number)).chars ++ render fmt) ⟨args,j⟩ =
          Output.andThen ⟨[byte '%'],[],false⟩ (scanFormat b ft orig .text (render fmt) ⟨args,j⟩) := rfl
      rw [hpos,Piece.erase,Piece.chars,List.cons_append,List.cons_append,List.nil_append,scanFormat,reindex_andThen,
        ← ih ha ht hr]
      rfl
    | conv v =>
      have hsplit : mentions b (Piece.conv v :: fmt) = v.mentions b ++ mentions b fmt := rfl
      rw [hsplit] at ha ht hr
      have hva := convAligned (aligned_left ha)
      have htv : Typed args (v.mentions b) := fun m hm => ht m (List.mem_append_left _ hm)
      obtain ⟨hw,hp,a,hargs,hty⟩ := typed_stars htv
      have hreach : ∀ n t, (n,t) ∈ v.mentions b → Reach b orig args n := fun n t hn => hr (n,t) (List.mem_append_left _ hn)
      obtain ⟨body,hbody⟩ : Reads b _ (convert b ft (v.at b args) v.letter.char) :=
        convert_reads (v.at b args) (letter_known hb v.letter)
      have hread : readable b a.ty (v.letter.valueTy b (v.at b args).flags) = true := hty ▸ readable_value v _ _ _
      rw [scan_text_conv number_plain,Piece.erase,scan_text_conv unit_plain,scan_erased hb hva htv,
        scan_conv_reach hb (fun n hn => ⟨hreach n .int (by simp [Conv.mentions,hn]),hw n hn⟩)
          (fun n hn => ⟨hreach n .int (by simp [Conv.mentions,hn]),hp n hn⟩)
          (hreach v.num (v.argTy b) (by simp [Conv.mentions])),
        convertThen_ok hbody hargs hread,convertThen_ok hbody (hva.value.1.trans hargs) hread,
        reindex_andThen,reindex_andThen]
      have hnext := aligned_right ha
      rw [mentions_length,← Nat.add_assoc,← Nat.add_assoc] at hnext
      rw [← ih (j := place v.num + 1) hnext (fun m hm => ht m (List.mem_append_right _ hm))
        (fun m hm => hr m (List.mem_append_right _ hm))]
      simp only [Output.reindex,List.map_append,List.map_cons,List.map_nil,(width_values (b := b) hva.width).2,
        (prec_values (b := b) hva.prec).2,hva.value.2]

theorem erased_completes (hb : b.Positional) {perm : List Arg} {f : Nat → Nat} {fmt : List (Piece Number)} {i : Nat}
    (ha : Aligned perm args f i (mentions b fmt)) (ht : Typed args (mentions b fmt)) :
    ∃ out, scanFormat b ft orig .text (render (fmt.map Piece.erase)) ⟨perm,i⟩ = .ok out ∧
      (out.failed = false → out.reads.map (fun r => f r.pos) = (mentions b fmt).map (fun m => place m.1)) := by
  induction fmt generalizing i with
  | nil => exact ⟨_,rfl,fun _ => rfl⟩
  | cons p fmt ih =>
    rw [List.map_cons,render_cons]
    cases p with
    | lit c =>
      obtain ⟨out,hout,hreads⟩ := ih ha ht
      rw [Piece.erase,scan_text_lit,hout]
      exact ⟨_,rfl,hreads⟩
    | percent =>
      obtain ⟨out,hout,hreads⟩ := ih ha ht
      rw [Piece.erase,Piece.chars,List.cons_append,List.cons_append,List.nil_append,scanFormat,hout]
      exact ⟨_,rfl,hreads⟩
    | conv v =>
      have hsplit : mentions b (Piece.conv v :: fmt) = v.mentions b ++ mentions b fmt := rfl
      rw [hsplit] at ha ht
      have hva := convAligned (aligned_left ha)
      have htv : Typed args (v.mentions b) := fun m hm => ht m (List.mem_append_left _ hm)
      obtain ⟨-,-,a,hargs,hty⟩ := typed_stars htv
      obtain ⟨body,hbody⟩ : Reads b _ (convert b ft (v.at b args) v.letter.char) :=
        convert_reads (v.at b args) (letter_known hb v.letter)
      have hread : readable b a.ty (v.letter.valueTy b (v.at b args).flags) = true := hty ▸ readable_value v _ _ _
      have hnext := aligned_right ha
      rw [mentions_length,← Nat.add_assoc,← Nat.add_assoc] at hnext
      obtain ⟨out,hout,hreads⟩ := ih hnext (fun m hm => ht m (List.mem_append_right _ hm))
      have hwidth : (v.width.erase.reads i).map (fun r => f r.pos) = v.width.stars.map place := by
        simpa [starReads,Function.comp_def] using congrArg (List.map Read.pos) (width_values (b := b) hva.width).2
      have hprec : (v.prec.erase.reads (i + v.width.stars.length)).map (fun r => f r.pos) = v.prec.stars.map place := by
        simpa [starReads,Function.comp_def] using congrArg (List.map Read.pos) (prec_values (b := b) hva.prec).2
      rw [Piece.erase,scan_text_conv unit_plain,scan_erased hb hva htv,
        convertThen_ok hbody (hva.value.1.trans hargs) hread,hout]
      cases hfail : (body a).2 with
      | true => exact ⟨_,by simp [Output.andThen]; rfl,by simp⟩
      | false =>
        refine ⟨_,by simp [Output.andThen]; rfl,fun hdone => ?_⟩
        simp [hwidth,hprec,hva.value.2,hreads hdone,hsplit,Conv.mentions,Function.comp_def]

theorem convertThen_inv {t : CTy} {c : Char} {ap : VaList} {r : Output} {p : Nat} {ps : List Nat}
    (hreads : Reads b t (convert b ft sp c)) (h : convertThen b ft orig sp c ap rest = .ok r)
    (hps : r.reads.map Read.pos = p :: ps) :
    ap.pos = p ∧ (ps = [] ∨ ∃ r', scanFormat b ft orig .text rest ⟨ap.args,ap.pos + 1⟩ = .ok r' ∧
      r'.reads.map Read.pos = ps) := by
  obtain ⟨body,hbody⟩ := hreads
  rw [convertThen,hbody] at h
  cases hv : vaArg b t ap with
  | error e => simp [hv] at h
  | ok q =>
    obtain ⟨a,ap'⟩ := q
    obtain ⟨-,rfl⟩ := vaArg_inv hv
    simp only [hv] at h
    cases hfail : (body a).2 with
    | true =>
      simp only [Output.andThen,hfail,if_true,Except.ok.injEq] at h
      subst h
      simp only [List.map_cons,List.map_nil,List.cons.injEq] at hps
      exact ⟨hps.1,.inl hps.2.symm⟩
    | false =>
      obtain ⟨r',hr,rfl⟩ := andThen_ok hfail h
      simp only [List.cons_append,List.nil_append,List.map_cons,List.cons.injEq] at hps
      exact ⟨hps.1,.inr ⟨r',hr,hps.2⟩⟩

theorem reach_of_reads (hb : b.Positional) {fmt : List (Piece Number)} {i : Nat} {r : Output}
    (h : scanFormat b ft orig .text (render fmt) ⟨args,i⟩ = .ok r)
    (hps : r.reads.map Read.pos = (mentions b fmt).map (fun m => place m.1)) :
    ∀ m ∈ mentions b fmt, Reach b orig args m.1 := by
  induction fmt generalizing i r with
  | nil => simp [mentions]
  | cons p fmt ih =>
    rw [render_cons] at h
    cases p with
    | lit c =>
      rw [scan_text_lit] at h
      obtain ⟨r',hr,rfl⟩ := andThen_ok rfl h
      exact ih hr hps
    | percent =>
      rw [Piece.chars,List.cons_append,List.cons_append,List.nil_append,scanFormat] at h
      obtain ⟨r',hr,rfl⟩ := andThen_ok rfl h
      exact ih hr hps
    | conv v =>
      have hsplit : mentions b (Piece.conv v :: fmt) = v.mentions b ++ mentions b fmt := rfl
      rw [scan_text_conv number_plain] at h
      have hlist : r.reads.map Read.pos = v.width.stars.map place ++ (v.prec.stars.map place ++
          (place v.num :: (mentions b fmt).map (fun m => place m.1))) := by
        rw [hps,hsplit]
        simp [Conv.mentions,Function.comp_def]
      obtain ⟨hw,hp,r₁,h₁,hps₁⟩ := scan_conv_inv hb h hlist
      rw [valueThen] at h₁
      cases hs : skipToArg b orig ⟨args,0⟩ (v.num : Nat) with
      | error e => simp [hs] at h₁
      | ok ap =>
        have hargs : ap.args = args := skipToArg_args hs
        simp only [hs] at h₁
        obtain ⟨hpos,hrest⟩ := convertThen_inv (convert_reads _ (letter_known hb v.letter)) h₁ hps₁
        have hvalue : Reach b orig args v.num := by
          rw [Reach,hs,← hpos,← hargs]
        have htail : ∀ m ∈ mentions b fmt, Reach b orig args m.1 := by
          rcases hrest with hnil | ⟨r₂,h₂,hps₂⟩
          · simp only [List.map_eq_nil_iff] at hnil
            simp [hnil]
          · exact ih (hargs ▸ h₂) hps₂
        intro m hm
        rw [hsplit,List.mem_append,Conv.mentions,List.mem_append,List.mem_append,List.mem_singleton] at hm
        rcases hm with (hm | hm | rfl) | hm
        · obtain ⟨n,hn,rfl⟩ := List.mem_map.mp hm
          exact hw n hn
        · obtain ⟨n,hn,rfl⟩ := List.mem_map.mp hm
          exact hp n hn
        · exact hvalue
        · exact htail m hm

theorem aligned_permute {fmt : List (Piece Number)} (ht : Typed args (mentions b fmt)) :
    Aligned (permute b fmt args) args (source b fmt) 0 (mentions b fmt) := by
  intro k m hk
  obtain ⟨a,ha,-⟩ := ht m (List.mem_of_getElem? hk)
  simp [permute,source,hk,List.getD,ha]

theorem seen_iff_reach (hb : b.Positional) (fmt : List (Piece Number)) :
    Seen b fmt args ↔ ∀ m ∈ mentions b fmt, Reach b (render fmt) args m.1 := by
  refine forall_congr' fun m => forall_congr' fun _ => ?_
  exact (skipToArg_iff (fun v _ => len_known hb v.len) m.1).symm

theorem positional_selects_iff (hb : b.Positional) {fmt : List (Piece Number)} (h : Numbered b fmt args) :
    (Seen b fmt args → Selects b ft fmt args) ∧
      (Completes b ft fmt args → Selects b ft fmt args → Seen b fmt args) := by
  have ha := aligned_permute h.typed
  constructor
  · intro hseen
    obtain ⟨out,hout,-⟩ : ∃ out, format b ft (render (fmt.map Piece.erase)) (permute b fmt args) = .ok out ∧ _ :=
      erased_completes hb ha h.typed
    have hagree : format b ft (render fmt) args =
        (format b ft (render (fmt.map Piece.erase)) (permute b fmt args)).map (Output.reindex (source b fmt)) :=
      scan_agrees hb ha h.typed ((seen_iff_reach hb fmt).mp hseen)
    rw [hout] at hagree
    exact ⟨out,hout,hagree⟩
  · rintro ⟨done,hdone,hfail⟩ ⟨out,hout,hpos⟩
    obtain ⟨out',hout',hreads⟩ :
        ∃ out, format b ft (render (fmt.map Piece.erase)) (permute b fmt args) = .ok out ∧ _ :=
      erased_completes hb ha h.typed
    rw [hout'] at hout hdone
    obtain rfl := Except.ok.inj hout
    obtain rfl := Except.ok.inj hdone
    refine (seen_iff_reach hb fmt).mpr (reach_of_reads hb hpos ?_)
    rw [← hreads hfail]
    simp [Output.reindex,Function.comp_def]

end

def lp64 : Build where
  shrink := false
  longLong := false
  c99 := true
  posArgs := true
  percentB := false
  wchar := true
  floats := .double
  longDouble := false
  shortBits := 16
  intBits := 32
  longBits := 64
  llongBits := 64
  ptrBits := 64
  intmaxBits := 64
  sizeBits := 64
  ptrdiffBits := 64
  slot
    | .double => 1
    | .ldouble => 2
    | _ => 0
  wctomb := Multibyte.utf8Wctomb

def widthFirst (flags : List Flag) : List (Piece Number) :=
  [.conv ⟨2,flags,.star 1,.none,.none,.d,by decide⟩]

theorem numeral_digit {n : Nat} (h : 0 < n) (hn : n < 10) : numeral ⟨n,h⟩ = [digitChar n] := by
  change (Nat.digits 10 n).reverse.map digitChar = [digitChar n]
  rw [Nat.digits_of_lt 10 n (by omega) hn]
  rfl

theorem render_widthFirst (flags : List Flag) :
    render (widthFirst flags) = '%' :: '2' :: '$' :: (flags.map Flag.char ++ ['*','1','$','d']) := by
  have h₁ : numeral 1 = ['1'] := numeral_digit (by decide) (by decide)
  have h₂ : numeral 2 = ['2'] := numeral_digit (by decide) (by decide)
  simp [render,widthFirst,Piece.chars,Conv.chars,Numbering.chars,Width.chars,Prec.chars,Len.chars,Letter.char,h₁,h₂]

theorem widthFirst_numbered (flags : List Flag) (v w : Int) : Numbered lp64 (widthFirst flags) [.int v,.int w] := by
  have hm : mentions lp64 (widthFirst flags) = [(1,.int),(2,.int)] := rfl
  refine ⟨?_,?_⟩
  · rw [hm]
    simp [place,Arg.ty]
  · rw [hm]
    rintro k ⟨m,hmem,hk⟩
    have hle : k ≤ 2 := by
      simp only [List.mem_cons,List.not_mem_nil,or_false] at hmem
      rcases hmem with rfl | rfl
      · exact hk.trans (by decide)
      · exact hk
    rcases hle.lt_or_eq with hlt | rfl
    · have hone : k = 1 := le_antisymm (PNat.lt_add_one_iff.mp hlt) one_le
      exact ⟨(1,.int),by simp,hone.symm⟩
    · exact ⟨(2,.int),by simp,rfl⟩

def noFloats : FloatText := fun _ w _ _ _ => ([],w)

theorem positional_selects_width_first :
    Seen lp64 (widthFirst []) [.int 5,.int 42] ∧ Selects lp64 noFloats (widthFirst []) [.int 5,.int 42] := by
  have hseen : Seen lp64 (widthFirst []) [.int 5,.int 42] := by
    intro m hm k hk hlt
    have hlist : mentions lp64 (widthFirst []) = [(1,.int),(2,.int)] := rfl
    rw [hlist] at hm
    simp only [List.mem_cons,List.not_mem_nil,or_false] at hm
    rcases hm with rfl | rfl
    · exact absurd hlt (by simp only [PNat.one_coe]; omega)
    · have hone : k = 1 := by
        have hlt' : k < 2 := hlt
        omega
      subst hone
      exact ⟨.int,.int 5,rfl,rfl,rfl⟩
  exact ⟨hseen,(positional_selects_iff ⟨rfl,rfl,rfl⟩ (widthFirst_numbered [] 5 42)).1 hseen⟩

theorem flag_hides_star_width :
    Numbered lp64 (widthFirst [.minus]) [.int 5,.int 42] ∧
      ¬Selects lp64 noFloats (widthFirst [.minus]) [.int 5,.int 42] := by
  refine ⟨widthFirst_numbered [.minus] 5 42,?_⟩
  rintro ⟨out,hout,hpos⟩
  have hright : format lp64 noFloats ['%','-','*','d'] [.int 5,.int 42] =
      .ok ⟨['4','2',' ',' ',' '].map byte,[⟨0,.int⟩,⟨1,.int⟩],false⟩ := by rfl
  have hwrong : format lp64 noFloats ['%','2','$','-','*','1','$','d'] [.int 5,.int 42] =
      .ok ⟨['5',' ',' ',' ',' '].map byte,[⟨0,.int⟩,⟨0,.int⟩],false⟩ := by rfl
  have herase : render ((widthFirst [.minus]).map Piece.erase) = ['%','-','*','d'] := rfl
  have hperm : permute lp64 (widthFirst [.minus]) [.int 5,.int 42] = [.int 5,.int 42] := rfl
  rw [herase,hperm,hright] at hout
  rw [render_widthFirst] at hpos
  rw [← Except.ok.inj hout] at hpos
  exact absurd (hwrong.symm.trans hpos) (by decide)

end Printf
