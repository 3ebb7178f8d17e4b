import Mathlib
import Picolibc.Lib.Numerals
import Picolibc.Printf.Formats

open Numerals

namespace Printf

theorem andThen_none (k : Except Fault Output) : Output.andThen ⟨[],[],false⟩ k = k := by
  cases k <;> simp [Output.andThen]

theorem andThen_reads (text : List UInt8) (r₁ r₂ : List Read) (k : Except Fault Output) :
    Output.andThen ⟨[],r₁,false⟩ (Output.andThen ⟨text,r₂,false⟩ k) = Output.andThen ⟨text,r₁ ++ r₂,false⟩ k := by
  cases k <;> simp [Output.andThen]

def special (c : Char) : Bool := isFlag c || isDigit c || c = '*' || c = '.' || c = '$'

def Spec.setWidth (b : Build) (sp : Spec) (w : Int) : Spec :=
  if b.shrink then sp else { sp with width := w, flags := { sp.flags with width := true } }

def Spec.point (sp : Spec) : Spec := { sp with flags := { sp.flags with prec := true } }

def Spec.setPrec (b : Build) (sp : Spec) (p : Int) : Spec := if b.shrink then sp else { sp with prec := p }

def setFlags (b : Build) (f : Flags) (fs : List Flag) : Flags := fs.foldl (fun f g => setFlag b f g.char) f

def lenFlags (b : Build) (m : Len) (f : Flags) : Flags :=
  m.chars.foldl (fun f c => (checkIntSizes b f c).getD f) f

def Len.known (b : Build) : Len → Bool
  | j => b.c99
  | z => b.c99
  | t => b.c99
  | _ => true

theorem digitChar_isDigit {d : Nat} (hd : d < 10) : isDigit (digitChar d) = true := by
  interval_cases d <;> decide

theorem digitVal_digitChar {d : Nat} (hd : d < 10) : digitVal (digitChar d) = d := by
  interval_cases d <;> decide

theorem digitChar_flag {d : Nat} (hd : d < 10) : isFlag (digitChar d) = decide (d = 0) := by
  interval_cases d <;> decide

theorem flag_isFlag (g : Flag) : isFlag g.char = true := by
  cases g <;> decide

theorem setFlag_belowWidth (b : Build) (f : Flags) (c : Char) :
    (setFlag b f c).belowWidth = f.belowWidth := by
  unfold setFlag
  split_ifs <;> rfl

theorem setFlags_belowWidth (b : Build) (f : Flags) (fs : List Flag) :
    (setFlags b f fs).belowWidth = f.belowWidth := by
  induction fs generalizing f with
  | nil => rfl
  | cons g fs ih => exact (ih (setFlag b f g.char)).trans (setFlag_belowWidth b f g.char)

theorem setFlag_shrink {b : Build} (hb : b.shrink = true) (f : Flags) : setFlag b f '0' = f := by
  simp [setFlag,hb]

theorem letter_special (l : Letter) : special l.char = false := by
  cases l <;> decide

theorem letter_size (b : Build) (f : Flags) (l : Letter) : checkIntSizes b f l.char = none := by
  cases l <;> simp [checkIntSizes,Letter.char]

theorem len_chars {b : Build} {m : Len} (hm : m.known b = true) :
    ∀ c ∈ m.chars, special c = false ∧ ∀ f, ∃ f', checkIntSizes b f c = some f' := by
  intro c hc
  cases m <;> simp only [Len.chars,List.not_mem_nil,List.mem_cons,or_self,or_false] at hc
  all_goals
    subst hc
    simp_all [checkIntSizes,Len.known]
    decide

section

variable {b : Build} {ft : FloatText} {orig : List Char} {sp : Spec} {ap : VaList} {c : Char} {rest : List Char}

theorem scan_step : scanFormat b ft orig (.conv sp) (c :: rest) ap =
    match convStep b orig sp ap c with
    | .error e => .error e
    | .ok .ret => .ok ⟨[],[],false⟩
    | .ok (.next sp ap reads) => Output.andThen ⟨[],reads,false⟩ (scanFormat b ft orig (.conv sp) rest ap)
    | .ok .conv =>
      match toValue b orig sp ap with
      | .error e => .error e
      | .ok ap =>
        match convert b ft sp c ap with
        | .error e => .error e
        | .ok (o,ap) => o.andThen (scanFormat b ft orig .text rest ap) := rfl

theorem scan_next {sp' : Spec} {ap' : VaList} {rs : List Read}
    (h : convStep b orig sp ap c = .ok (.next sp' ap' rs)) :
    scanFormat b ft orig (.conv sp) (c :: rest) ap =
      Output.andThen ⟨[],rs,false⟩ (scanFormat b ft orig (.conv sp') rest ap') := by
  rw [scan_step,h]

theorem scan_silent {sp' : Spec} (h : convStep b orig sp ap c = .ok (.next sp' ap [])) :
    scanFormat b ft orig (.conv sp) (c :: rest) ap = scanFormat b ft orig (.conv sp') rest ap := by
  rw [scan_next h,andThen_none]

theorem convStep_plain (h : special c = false) : convStep b orig sp ap c = .ok (convSizes b sp ap c) := by
  simp only [special,Bool.or_eq_false_iff,decide_eq_false_iff_not] at h
  obtain ⟨⟨⟨⟨hf,hd⟩,hs⟩,hp⟩,hn⟩ := h
  simp [convStep,hf,hd,hs,hp,hn]

theorem scan_flags (fs : List Flag) (hsp : sp.flags.belowWidth = true) :
    scanFormat b ft orig (.conv sp) (fs.map Flag.char ++ rest) ap =
      scanFormat b ft orig (.conv { sp with flags := setFlags b sp.flags fs }) rest ap := by
  induction fs generalizing sp with
  | nil => rfl
  | cons g fs ih =>
    have hstep : convStep b orig sp ap g.char = .ok (.next { sp with flags := setFlag b sp.flags g.char } ap []) := by
      simp [convStep,hsp,flag_isFlag]
    rw [List.map_cons,List.cons_append,scan_silent hstep]
    rw [ih (by simpa only [setFlag_belowWidth] using hsp)]
    rfl

theorem scan_sizes (cs : List Char) (h : ∀ c ∈ cs, special c = false ∧ ∀ f, ∃ f', checkIntSizes b f c = some f') :
    scanFormat b ft orig (.conv sp) (cs ++ rest) ap =
      scanFormat b ft orig (.conv { sp with
        flags := cs.foldl (fun f c => (checkIntSizes b f c).getD f) sp.flags }) rest ap := by
  induction cs generalizing sp with
  | nil => rfl
  | cons c cs ih =>
    obtain ⟨hc,hsize⟩ := h c List.mem_cons_self
    obtain ⟨f,hf⟩ := hsize sp.flags
    have hstep : convStep b orig sp ap c = .ok (.next { sp with flags := f } ap []) := by
      rw [convStep_plain hc,convSizes,hf]
    rw [List.cons_append,scan_silent hstep,ih (fun d hd => h d (List.mem_cons_of_mem c hd))]
    simp only [List.foldl_cons,hf,Option.getD_some]

theorem scan_len {m : Len} (hm : m.known b = true) :
    scanFormat b ft orig (.conv sp) (m.chars ++ rest) ap =
      scanFormat b ft orig (.conv { sp with flags := lenFlags b m sp.flags }) rest ap :=
  scan_sizes m.chars (len_chars hm)

theorem digit_shrink (hb : b.shrink = true) (hsp : sp.flags.belowLong = true) {d : Nat} (hd : d < 10) :
    convStep b orig sp ap (digitChar d) = .ok (.next sp ap []) := by
  by_cases hflag : (sp.flags.belowWidth && isFlag (digitChar d)) = true
  · obtain ⟨_,hzero⟩ := Bool.and_eq_true_iff.mp hflag
    rw [digitChar_flag hd,decide_eq_true_eq] at hzero
    subst hzero
    rw [convStep,if_pos hflag]
    exact congrArg (fun f => Except.ok (Step.next { sp with flags := f } ap [])) (setFlag_shrink hb sp.flags)
  · rw [convStep,if_neg hflag,if_pos hsp,if_pos (digitChar_isDigit hd),Spec.digit,if_pos hb]

theorem scan_digits_shrink (hb : b.shrink = true) (hsp : sp.flags.belowLong = true) {ds : List Nat}
    (hds : ∀ d ∈ ds, d < 10) :
    scanFormat b ft orig (.conv sp) (ds.map digitChar ++ rest) ap = scanFormat b ft orig (.conv sp) rest ap := by
  induction ds with
  | nil => rfl
  | cons d ds ih =>
    rw [List.map_cons,List.cons_append,scan_silent (digit_shrink hb hsp (hds d List.mem_cons_self))]
    exact ih (fun e he => hds e (List.mem_cons_of_mem d he))

theorem scan_digits_width (sp : Spec) (hb : b.shrink = false) (hlong : sp.flags.belowLong = true)
    (hw : sp.flags.width = true) (hp : sp.flags.prec = false) {ds : List Nat} (hds : ∀ d ∈ ds, d < 10) (n : Nat) :
    scanFormat b ft orig (.conv { sp with width := n }) (ds.map digitChar ++ rest) ap =
      scanFormat b ft orig (.conv { sp with width := horner 10 n ds }) rest ap := by
  induction ds generalizing n with
  | nil => rfl
  | cons d ds ih =>
    have hd : d < 10 := hds d List.mem_cons_self
    have hstep : convStep b orig { sp with width := n } ap (digitChar d) =
        .ok (.next { sp with width := (n * 10 + d : Nat) } ap []) := by
      have hflags : { sp.flags with width := true } = sp.flags := by rw [← hw]
      have hlow : sp.flags.belowWidth = false := by simp [Flags.belowWidth,hw]
      rw [convStep,if_neg (by simp [hlow]),if_pos hlong,if_pos (digitChar_isDigit hd),Spec.digit,
        if_neg (by simp [hb]),if_neg (by simp [hp]),hflags,digitVal_digitChar hd]
      simp [Int.mul_comm]
    rw [List.map_cons,List.cons_append,scan_silent hstep]
    exact ih (fun e he => hds e (List.mem_cons_of_mem d he)) (n * 10 + d)

theorem scan_digits_prec (sp : Spec) (hb : b.shrink = false) (hlong : sp.flags.belowLong = true)
    (hp : sp.flags.prec = true) {ds : List Nat} (hds : ∀ d ∈ ds, d < 10) (n : Nat) :
    scanFormat b ft orig (.conv { sp with prec := n }) (ds.map digitChar ++ rest) ap =
      scanFormat b ft orig (.conv { sp with prec := horner 10 n ds }) rest ap := by
  induction ds generalizing n with
  | nil => rfl
  | cons d ds ih =>
    have hd : d < 10 := hds d List.mem_cons_self
    have hstep : convStep b orig { sp with prec := n } ap (digitChar d) =
        .ok (.next { sp with prec := (n * 10 + d : Nat) } ap []) := by
      simp [convStep,hlong,hp,hb,digitChar_isDigit hd,Spec.digit,digitVal_digitChar hd,Flags.belowWidth]
      omega
    rw [List.map_cons,List.cons_append,scan_silent hstep]
    exact ih (fun e he => hds e (List.mem_cons_of_mem d he)) (n * 10 + d)

theorem numeral_head (n : ℕ+) : ∃ d ds, (Nat.digits 10 n).reverse = d :: ds ∧ d ≠ 0 ∧ d < 10 ∧ ∀ e ∈ ds, e < 10 := by
  have hpos : (n : Nat) ≠ 0 := n.ne_zero
  have hlast := Nat.getLast_digit_ne_zero 10 hpos
  have hlt : ∀ e ∈ (Nat.digits 10 n).reverse, e < 10 := by
    intro e he
    exact Nat.digits_lt_base (by decide) (List.mem_reverse.mp he)
  have hne : (Nat.digits 10 n).reverse ≠ [] :=
    List.reverse_ne_nil_iff.mpr (Nat.digits_ne_nil_iff_ne_zero.mpr hpos)
  rw [← List.head_reverse hne] at hlast
  obtain ⟨d,ds,hds⟩ := List.exists_cons_of_ne_nil hne
  simp only [hds,List.head_cons] at hlast
  rw [hds] at hlt
  exact ⟨d,ds,hds,hlast,hlt d List.mem_cons_self,fun e he => hlt e (List.mem_cons_of_mem d he)⟩

theorem scan_numeral (hb : b.shrink = false) (hsp : sp.flags.belowWidth = true) (h0 : sp.width = 0) (w : ℕ+) :
    scanFormat b ft orig (.conv sp) (numeral w ++ rest) ap =
      scanFormat b ft orig (.conv { sp with width := (w : Nat), flags := { sp.flags with width := true } }) rest ap := by
  obtain ⟨d,ds,hds,hd0,hd,hlt⟩ := numeral_head w
  have hval : horner 10 d ds = w := by
    have h := horner_digits 10 w
    rw [hds,horner_cons,Nat.zero_mul,Nat.zero_add] at h
    exact h
  have hlong : sp.flags.belowLong = true := (Bool.and_eq_true_iff.mp hsp).2
  have hp : sp.flags.prec = false := by
    simp only [Flags.belowWidth,Bool.and_eq_true,Bool.not_eq_true'] at hsp
    exact hsp.1.2
  have hstep : convStep b orig sp ap (digitChar d) =
      .ok (.next { sp with width := (d : Nat), flags := { sp.flags with width := true } } ap []) := by
    rw [convStep,if_neg (by simp [digitChar_flag hd,hd0]),if_pos hlong,if_pos (digitChar_isDigit hd),Spec.digit,
      if_neg (by simp [hb]),if_neg (by simp [hp]),digitVal_digitChar hd,h0]
    simp
  rw [numeral,hds,List.map_cons,List.cons_append,scan_silent hstep,
    scan_digits_width { sp with width := (d : Nat), flags := { sp.flags with width := true } } hb hlong rfl hp hlt d,
    hval]

theorem scan_width_lit (hsp : sp.flags.belowWidth = true) (h0 : sp.width = 0) (w : ℕ+) :
    scanFormat b ft orig (.conv sp) (numeral w ++ rest) ap =
      scanFormat b ft orig (.conv (sp.setWidth b (w : Nat))) rest ap := by
  cases hb : b.shrink with
  | false => rw [scan_numeral hb hsp h0,Spec.setWidth,hb]; rfl
  | true =>
    obtain ⟨d,ds,hds,-,hd,hlt⟩ := numeral_head w
    have hlong : sp.flags.belowLong = true := (Bool.and_eq_true_iff.mp hsp).2
    rw [numeral,scan_digits_shrink hb hlong,Spec.setWidth,if_pos hb]
    intro e he
    rw [hds] at he
    rcases List.mem_cons.mp he with rfl | he
    · exact hd
    · exact hlt e he

theorem scan_point (hlong : sp.flags.belowLong = true) (hp : sp.flags.prec = false) :
    scanFormat b ft orig (.conv sp) ('.' :: rest) ap = scanFormat b ft orig (.conv sp.point) rest ap := by
  refine scan_silent ?_
  have hflag : isFlag '.' = false := by decide
  have hdig : isDigit '.' = false := by decide
  simp [convStep,hlong,hp,hflag,hdig,Spec.point]

theorem scan_prec_lit (hlong : sp.flags.belowLong = true) (hp : sp.flags.prec = false) (h0 : sp.prec = 0)
    (ds : List (Fin 10)) :
    scanFormat b ft orig (.conv sp) ((Prec.lit (N := Unit) ds).chars ++ rest) ap =
      scanFormat b ft orig (.conv (sp.point.setPrec b (horner 10 0 (ds.map Fin.val)))) rest ap := by
  have hlt : ∀ d ∈ ds.map Fin.val, d < 10 := by
    intro d hd
    obtain ⟨k,-,hk⟩ := List.mem_map.mp hd
    exact hk ▸ k.isLt
  rw [Prec.chars,List.cons_append,scan_point hlong hp]
  cases hb : b.shrink with
  | true => rw [scan_digits_shrink hb (show sp.point.flags.belowLong = true from hlong) hlt,Spec.setPrec,if_pos hb]
  | false =>
    have hsp : sp.point = { sp.point with prec := (0 : Nat) } := by simp [Spec.point,h0]
    rw [hsp,scan_digits_prec sp.point hb hlong rfl hlt 0,Spec.setPrec,hb]
    rfl

theorem scan_letter (m : Letter) :
    scanFormat b ft orig (.conv sp) (m.char :: rest) ap =
      match toValue b orig sp ap with
      | .error e => .error e
      | .ok ap =>
        match convert b ft sp m.char ap with
        | .error e => .error e
        | .ok (o,ap) => o.andThen (scanFormat b ft orig .text rest ap) := by
  have hstep : convStep b orig sp ap m.char = .ok .conv := by
    rw [convStep_plain (letter_special m),convSizes,letter_size]
  rw [scan_step,hstep]

end

end Printf
