import Mathlib
import Picolibc.Printf.Positional

namespace Printf

inductive Look where
  | next (f : Flags)
  | ret
  | conv
  deriving DecidableEq, Repr

inductive Event where
  | cut
  | search (number : Int)
  deriving DecidableEq, Repr

section

variable (b : Build)

def lookSizes (f : Flags) (c : Char) : Look :=
  match checkIntSizes b f c with
  | some f => .next f
  | none => .conv

def look (f : Flags) (c : Char) : Look :=
  if f.belowWidth && isFlag c then .next (setFlag b f c) else
  if f.belowLong then
    if isDigit c then .next (if b.shrink || f.prec then f else { f with width := true }) else
    if c = '*' then .next (if f.prec then f else { f with width := true }) else
    if c = '.' then if f.prec then .ret else .next { f with prec := true } else
    lookSizes b f c
  else lookSizes b f c

def cutShort : Option Flags → List Char → Bool
  | none, [] => false
  | none, ['%'] => true
  | none, '%' :: '%' :: fmt => cutShort none fmt
  | none, '%' :: c :: fmt => cutShort (some .zero) (c :: fmt)
  | none, _ :: fmt => cutShort none fmt
  | some _, [] => true
  | some f, c :: fmt =>
    match look b f c with
    | .next f => cutShort (some f) fmt
    | .ret => false
    | .conv => cutShort none fmt

def readNumbers : ScanMode → List Char → List Int × Bool
  | .text, [] => ([],false)
  | .text, ['%'] => ([],false)
  | .text, '%' :: '%' :: fmt => readNumbers .text fmt
  | .text, '%' :: c :: fmt => readNumbers (.conv .init) (c :: fmt)
  | .text, _ :: fmt => readNumbers .text fmt
  | .conv s, [] => if s.argno = 0 then ([],false) else ([s.argno],true)
  | .conv s, c :: fmt =>
    if s.flags.belowLong = true ∧ c = '$' ∧ s.argno ≠ 0 then
      let r := readNumbers (.conv { s with width := 0 }) fmt
      (s.width :: r.1,r.2)
    else
    match scanStep b 0 s c with
    | .next s => readNumbers (.conv s) fmt
    | .stop argno _ _ =>
      if argno = 0 then ([],false) else
      let r := readNumbers .text fmt
      (argno :: r.1,r.2)

def Missed (fmt : List Char) (number : Int) : Prop :=
  (readNumbers b .text fmt).2 = true ∧ ∃ n, 1 ≤ n ∧ n < number ∧ n ∉ (readNumbers b .text fmt).1

def stepSearch (sp : Spec) (c : Char) : List Event :=
  if sp.flags.belowLong = true ∧ b.posArgs = true ∧ c = '$' ∧ sp.argno ≠ 0 then
    [.search (if sp.flags.prec then sp.prec else sp.width)]
  else []

def valueSearch (sp : Spec) : List Event := if b.posArgs = true ∧ sp.argno ≠ 0 then [.search sp.argno] else []

variable (ft : FloatText)

def scanEvents (orig : List Char) : Mode → List Char → VaList → List Event
  | .text, [], _ => []
  | .text, ['%'], _ => [.cut]
  | .text, '%' :: '%' :: fmt, ap => scanEvents orig .text fmt ap
  | .text, '%' :: c :: fmt, ap => scanEvents orig (.conv .init) (c :: fmt) ap
  | .text, _ :: fmt, ap => scanEvents orig .text fmt ap
  | .conv _, [], _ => [.cut]
  | .conv sp, c :: fmt, ap =>
    stepSearch b sp c ++
      match convStep b orig sp ap c with
      | .error _ => []
      | .ok .ret => []
      | .ok (.next sp ap _) => scanEvents orig (.conv sp) fmt ap
      | .ok .conv =>
        valueSearch b sp ++
          match toValue b orig sp ap with
          | .error _ => []
          | .ok ap =>
            match convert b ft sp c ap with
            | .error _ => []
            | .ok (o,ap) => if o.failed then [] else scanEvents orig .text fmt ap

def Ended (fmt : List Char) (args : List Arg) : Prop :=
  if b.posArgs = true ∧ '$' ∈ fmt then
    .cut ∉ scanEvents b ft fmt .text fmt ⟨args,0⟩ ∧
      ∀ n, .search n ∈ scanEvents b ft fmt .text fmt ⟨args,0⟩ → ¬Missed b fmt n
  else cutShort b none fmt = false

end

section

variable {b : Build} {ft : FloatText} {orig : List Char}

theorem vaArg_error {t : CTy} {ap : VaList} {e : Fault} (h : vaArg b t ap = .error e) : e = .badArg := by
  unfold vaArg at h
  split at h
  · exact (Except.error.inj h).symm
  · split_ifs at h
    exact (Except.error.inj h).symm

def Follows (sp : Spec) (r : Except Fault Step) : Look → Prop
  | .next f => r = .error .badArg ∨ ∃ sp' ap rs, r = .ok (.next sp' ap rs) ∧ sp'.flags = f ∧ sp'.argno = sp.argno
  | .ret => r = .ok .ret
  | .conv => r = .ok .conv

theorem readStar_follows (sp : Spec) (ap : VaList) :
    Follows sp (readStar b sp ap) (.next (if sp.flags.prec then sp.flags else { sp.flags with width := true })) := by
  unfold readStar
  cases hv : vaArg b .int ap with
  | error e =>
    obtain rfl := vaArg_error hv
    exact .inl rfl
  | ok r =>
    refine .inr ⟨_,_,_,rfl,?_,?_⟩
    · unfold Spec.setStar
      split_ifs <;> rfl
    · unfold Spec.setStar
      split_ifs <;> rfl

theorem sizes_follows (sp : Spec) (ap : VaList) (c : Char) :
    Follows sp (.ok (convSizes b sp ap c)) (lookSizes b sp.flags c) := by
  unfold convSizes lookSizes
  cases checkIntSizes b sp.flags c with
  | none => exact rfl
  | some f => exact .inr ⟨_,_,_,rfl,rfl,rfl⟩

theorem step_follows {sp : Spec} {c : Char} (hz : sp.argno = 0) (hd : b.posArgs = false ∨ c ≠ '$') (ap : VaList) :
    Follows sp (convStep b orig sp ap c) (look b sp.flags c) := by
  unfold look convStep
  by_cases hflag : (sp.flags.belowWidth && isFlag c) = true
  · rw [if_pos hflag,if_pos hflag]
    exact .inr ⟨_,_,_,rfl,rfl,rfl⟩
  rw [if_neg hflag,if_neg hflag]
  by_cases hlong : sp.flags.belowLong = true
  swap
  · rw [if_neg hlong,if_neg hlong]
    exact sizes_follows sp ap c
  rw [if_pos hlong,if_pos hlong]
  by_cases hdigit : isDigit c = true
  · rw [if_pos hdigit,if_pos hdigit]
    refine .inr ⟨_,_,_,rfl,?_,?_⟩
    · unfold Spec.digit
      cases b.shrink <;> cases hp : sp.flags.prec <;> simp [hp]
    · unfold Spec.digit
      split_ifs <;> rfl
  rw [if_neg hdigit,if_neg hdigit]
  by_cases hstar : c = '*'
  · rw [if_pos hstar,if_pos hstar,if_neg (fun h => h.2 hz)]
    exact readStar_follows sp ap
  rw [if_neg hstar,if_neg hstar]
  by_cases hdot : c = '.'
  · rw [if_pos hdot,if_pos hdot]
    by_cases hp : sp.flags.prec = true
    · rw [if_pos hp,if_pos hp]
      exact rfl
    · rw [if_neg hp,if_neg hp]
      exact .inr ⟨_,_,_,rfl,rfl,rfl⟩
  rw [if_neg hdot,if_neg hdot,if_neg (fun h => hd.elim (fun hoff => by simp [hoff] at h) (fun hne => hne h.2))]
  exact sizes_follows sp ap c

def Mode.state : Mode → Option Flags
  | text => none
  | conv sp => some sp.flags

def Unnumbered (b : Build) (m : Mode) (fmt : List Char) : Prop :=
  (b.posArgs = false ∨ '$' ∉ fmt) ∧ ∀ sp, m = .conv sp → sp.argno = 0

theorem Unnumbered.tail {m m' : Mode} {fmt : List Char} {c : Char} (h : Unnumbered b m (c :: fmt))
    (hm : ∀ sp, m' = .conv sp → sp.argno = 0) : Unnumbered b m' fmt :=
  ⟨h.1.imp_right (mt (List.mem_cons_of_mem c)),hm⟩

section

variable {sp : Spec} {c : Char} {fmt : List Char} {ap : VaList}

theorem Unnumbered.follows (h : Unnumbered b (.conv sp) (c :: fmt)) (ap : VaList) :
    Follows sp (convStep b orig sp ap c) (look b sp.flags c) :=
  step_follows (h.2 sp rfl) (h.1.imp_right fun hin hc => hin (hc ▸ List.mem_cons_self)) ap

end

def Served (b : Build) (ft : FloatText) (fmt : List Char) (args : List Arg) : Prop :=
  format b ft fmt args ≠ .error .badArg ∧ ∀ o, format b ft fmt args = .ok o → o.failed = false

end

end Printf
