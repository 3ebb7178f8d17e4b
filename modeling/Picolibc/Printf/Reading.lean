import Mathlib
import Picolibc.Printf.Parse

open Numerals

namespace Printf

section

variable {N : Type}

def Width.apply (b : Build) (sp : Spec) (x : Int) : Width N → Spec
  | none => sp
  | lit w => sp.setWidth b (w : Nat)
  | star _ => sp.setStar b x

def Prec.apply (b : Build) (sp : Spec) (x : Int) : Prec N → Spec
  | none => sp
  | lit ds => sp.point.setPrec b (horner 10 0 (ds.map Fin.val))
  | star _ => sp.point.setStar b x

def Width.stars : Width N → List N
  | star n => [n]
  | _ => []

def Prec.stars : Prec N → List N
  | star n => [n]
  | _ => []

def Conv.start (b : Build) (v : Conv N) (argno : Int) : Spec := ⟨setFlags b .zero v.flags,0,0,argno⟩

def Conv.spec (b : Build) (v : Conv N) (x y argno : Int) : Spec :=
  let sp := v.prec.apply b (v.width.apply b (v.start b argno) x) y
  { sp with flags := lenFlags b v.len sp.flags }

end

def Letter.valueTy (b : Build) (f : Flags) : Letter → CTy
  | c => if b.wchar ∧ ¬b.shrink ∧ f.long then .wint else .int
  | s => if b.wchar ∧ ¬b.shrink ∧ f.long then .wcharPtr else .charPtr
  | p => intTy { f with long := f.long || decide (b.intBits < b.ptrBits) }
  | d => intTy f
  | i => intTy f
  | u => intTy f
  | o => intTy f
  | x => intTy f
  | X => intTy f
  | _ => if b.floats = .off then .double else floatTy b f

def Letter.known (b : Build) : Letter → Bool
  | e => !b.shrink
  | E => !b.shrink
  | f => !b.shrink
  | F => !b.shrink
  | g => !b.shrink
  | G => !b.shrink
  | a => !b.shrink && b.c99
  | A => !b.shrink && b.c99
  | _ => true

def Reads (b : Build) (t : CTy) (conv : VaList → Except Fault (Output × VaList)) : Prop :=
  ∃ body : Arg → List UInt8 × Bool, ∀ ap, conv ap =
    match vaArg b t ap with
    | .error e => .error e
    | .ok (a,ap') => .ok (⟨(body a).1,[⟨ap.pos,t⟩],(body a).2⟩,ap')

section

variable {b : Build} {ft : FloatText} {f : Flags} {width prec : Int}

theorem reads_of_body {t : CTy} {conv : VaList → Except Fault (Output × VaList)} (body : Arg → List UInt8 × Bool)
    (h : ∀ ap a ap', vaArg b t ap = .ok (a,ap') → conv ap = .ok (⟨(body a).1,[⟨ap.pos,t⟩],(body a).2⟩,ap'))
    (he : ∀ ap e, vaArg b t ap = .error e → conv ap = .error e) : Reads b t conv := by
  refine ⟨body,fun ap => ?_⟩
  cases hv : vaArg b t ap with
  | error e => exact he ap e hv
  | ok r => exact h ap r.1 r.2 hv

theorem signed_reads {c : Char} (hc : c = 'd' ∨ c = 'i') : Reads b (intTy f) (intConv b f width prec c) := by
  refine reads_of_body (fun a => ((signedBody b f width prec c a.bits).1 ++ tail b (signedBody b f width prec c a.bits).2,false)) ?_ ?_
  · intro ap a ap' h
    simp only [intConv,if_pos hc,h,closed]
  · intro ap e h
    simp only [intConv,if_pos hc,h]

theorem unsigned_reads {c : Char} (hc : ¬(c = 'd' ∨ c = 'i')) (hk : unsignedKnown b c = true) :
    Reads b (intTy (unsignedFlags b f c)) (intConv b f width prec c) := by
  refine reads_of_body (fun a =>
    let r := unsignedBody b (unsignedFlags b f c) width prec (unsignedBase c) (unsignedLetter c) a.bits
    (r.1 ++ tail b r.2,false)) ?_ ?_
  · intro ap a ap' h
    simp only [intConv,if_neg hc,if_pos hk,h,closed]
  · intro ap e h
    simp only [intConv,if_neg hc,if_pos hk,h]

theorem encoded_fields (ap : VaList) (t : CTy) (r : Option (List UInt8)) :
    encoded b ap t f width r = ⟨(encoded b ⟨[],0⟩ t f width r).text,[⟨ap.pos,t⟩],r.isNone⟩ := by
  cases r <;> rfl

theorem char_reads : Reads b (Letter.valueTy b f .c) (charConv b f width) := by
  by_cases hw : b.wchar ∧ ¬b.shrink ∧ f.long
  · rw [Letter.valueTy,if_pos hw]
    refine reads_of_body (fun a =>
      let r := b.wctomb (wrapU 32 a.bits)
      ((encoded b ⟨[],0⟩ .wint f width r).text,r.isNone)) ?_ ?_
    · intro ap a ap' h
      simp only [charConv,if_pos hw,h]
      rw [encoded_fields]
    · intro ap e h
      simp only [charConv,if_pos hw,h]
  · rw [Letter.valueTy,if_neg hw]
    refine reads_of_body (fun a =>
      let s := [UInt8.ofNat (wrapU 8 a.bits)]
      let r := if b.shrink then (s,width) else strBody f width s
      (r.1 ++ tail b r.2,false)) ?_ ?_
    · intro ap a ap' h
      simp only [charConv,if_neg hw,h,closed]
    · intro ap e h
      simp only [charConv,if_neg hw,h]

theorem str_reads : Reads b (Letter.valueTy b f .s) (strConv b f width prec) := by
  by_cases hw : b.wchar ∧ ¬b.shrink ∧ f.long
  · rw [Letter.valueTy,if_pos hw]
    refine reads_of_body (fun a =>
      let r := wideText b f prec a.wstr
      ((encoded b ⟨[],0⟩ .wcharPtr f width r).text,r.isNone)) ?_ ?_
    · intro ap a ap' h
      simp only [strConv,if_pos hw,h]
      rw [encoded_fields]
    · intro ap e h
      simp only [strConv,if_pos hw,h]
  · rw [Letter.valueTy,if_neg hw]
    refine reads_of_body (fun a =>
      let s := a.str.getD nullText
      let r := if b.shrink then (s,width) else strBody f width (clip f prec s)
      (r.1 ++ tail b r.2,false)) ?_ ?_
    · intro ap a ap' h
      simp only [strConv,if_neg hw,h,closed]
    · intro ap e h
      simp only [strConv,if_neg hw,h]

theorem float_reads {c : Char} :
    Reads b (if b.floats = .off then .double else floatTy b f) (floatConv b ft f width prec c) := by
  refine reads_of_body (fun a =>
    let r := if b.floats = .off then strBody f width floatStub else ft f width prec c a.bits.toNat
    (r.1 ++ tail b r.2,false)) ?_ ?_
  · intro ap a ap' h
    simp only [floatConv,h,closed]
  · intro ap e h
    simp only [floatConv,h]

theorem adjust_sizes (sp : Spec) :
    (sp.adjust b).flags.long = sp.flags.long ∧ (sp.adjust b).flags.repd = sp.flags.repd := by
  by_cases hb : b.shrink = true
  · simp [Spec.adjust,hb]
  · by_cases hp : sp.prec < 0 <;> by_cases hw : sp.width < 0 <;> simp [Spec.adjust,hb,hp,hw]

theorem valueTy_congr {f g : Flags} (hl : f.long = g.long) (hr : f.repd = g.repd) (m : Letter) :
    m.valueTy b f = m.valueTy b g := by
  cases m <;> simp only [Letter.valueTy,intTy,floatTy,hl,hr]

theorem convert_float {sp : Spec} {c : Char} (hb : b.shrink = false) (hc : isFloat b c = true) :
    convert b ft sp c = floatConv b ft (sp.adjust b).flags (sp.adjust b).width (sp.adjust b).prec c := by
  funext ap
  rw [convert,if_pos ⟨hb,hc⟩]

theorem convert_int {sp : Spec} {c : Char} (hf : isFloat b c = false) (hc : c ≠ 'c') (hs : c ≠ 's') :
    convert b ft sp c = intConv b (sp.adjust b).flags (sp.adjust b).width (sp.adjust b).prec c := by
  funext ap
  rw [convert,if_neg (by simp [hf]),if_neg hc,if_neg hs]

theorem letter_int {m : Letter} (h : m ∈ [Letter.d,.i,.u,.o,.x,.X,.p]) :
    isFloat b m.char = false ∧ m.char ≠ 'c' ∧ m.char ≠ 's' := by
  simp only [List.mem_cons,List.not_mem_nil,or_false] at h
  rcases h with rfl | rfl | rfl | rfl | rfl | rfl | rfl <;> simp [isFloat,lower,Letter.char]

theorem letter_float {m : Letter} (hm : m.known b = true) (h : m ∈ Letter.floats) :
    b.shrink = false ∧ isFloat b m.char = true := by
  simp only [Letter.floats,List.mem_cons,List.not_mem_nil,or_false] at h
  rcases h with rfl | rfl | rfl | rfl | rfl | rfl | rfl | rfl <;>
    simp_all [Letter.known,isFloat,lower,Letter.char]

theorem convert_reads (sp : Spec) {m : Letter} (hm : m.known b = true) :
    Reads b (m.valueTy b sp.flags) (convert b ft sp m.char) := by
  obtain ⟨hl,hr⟩ := adjust_sizes (b := b) sp
  rw [← valueTy_congr hl hr m]
  by_cases hfloat : m ∈ Letter.floats
  · obtain ⟨hb,hc⟩ := letter_float hm hfloat
    rw [convert_float hb hc]
    have hty : ∀ f, m.valueTy b f = if b.floats = .off then .double else floatTy b f := by
      intro f
      simp only [Letter.floats,List.mem_cons,List.not_mem_nil,or_false] at hfloat
      rcases hfloat with rfl | rfl | rfl | rfl | rfl | rfl | rfl | rfl <;> rfl
    rw [hty]
    exact float_reads
  · by_cases hint : m ∈ [Letter.d,.i,.u,.o,.x,.X,.p]
    · obtain ⟨hf,hc,hs⟩ := letter_int hint
      rw [convert_int hf hc hs]
      simp only [List.mem_cons,List.not_mem_nil,or_false] at hint
      rcases hint with rfl | rfl | rfl | rfl | rfl | rfl | rfl
      · exact signed_reads (by decide)
      · exact signed_reads (by decide)
      · exact unsigned_reads (by decide) (by simp [unsignedKnown,Letter.char])
      · exact unsigned_reads (by decide) (by simp [unsignedKnown,Letter.char])
      · exact unsigned_reads (by decide) (by simp [unsignedKnown,Letter.char,lower])
      · exact unsigned_reads (by decide) (by simp [unsignedKnown,Letter.char,lower])
      · exact unsigned_reads (by decide) (by simp [unsignedKnown,Letter.char])
    · have hm' : m = .c ∨ m = .s := by
        cases m <;> simp_all [Letter.floats]
      rcases hm' with rfl | rfl
      · have hconv : convert b ft sp (Letter.char .c) = charConv b (sp.adjust b).flags (sp.adjust b).width := by
          funext ap
          simp [convert,Letter.char,isFloat,lower]
        rw [hconv]
        exact char_reads
      · have hconv : convert b ft sp (Letter.char .s) =
            strConv b (sp.adjust b).flags (sp.adjust b).width (sp.adjust b).prec := by
          funext ap
          simp [convert,Letter.char,isFloat,lower]
        rw [hconv]
        exact str_reads

def IntAt (args : List Arg) (i : Nat) : Prop := ∃ v, args[i]? = some (.int v)

def intAt (b : Build) (args : List Arg) (i : Nat) : Int := wrapS b.intBits ((args[i]?.map Arg.bits).getD 0)

variable {orig rest : List Char} {sp : Spec} {ap : VaList}

theorem vaArg_ok {a : Arg} {t : CTy} (h : ap.args[ap.pos]? = some a) (ht : readable b a.ty t = true) :
    vaArg b t ap = .ok (a,⟨ap.args,ap.pos + 1⟩) := by
  simp [vaArg,h,ht]

theorem vaArg_int (h : IntAt ap.args ap.pos) : ∃ a, vaArg b .int ap = .ok (a,⟨ap.args,ap.pos + 1⟩) ∧
    wrapS b.intBits a.bits = intAt b ap.args ap.pos := by
  obtain ⟨v,hv⟩ := h
  exact ⟨.int v,vaArg_ok hv (by simp [readable,Arg.ty]),by simp [intAt,hv]⟩

theorem scan_star (hlong : sp.flags.belowLong = true) (hn : sp.argno = 0) (h : IntAt ap.args ap.pos) :
    scanFormat b ft orig (.conv sp) ('*' :: rest) ap =
      Output.andThen ⟨[],[⟨ap.pos,.int⟩],false⟩
        (scanFormat b ft orig (.conv (sp.setStar b (intAt b ap.args ap.pos))) rest ⟨ap.args,ap.pos + 1⟩) := by
  obtain ⟨a,ha,hx⟩ := vaArg_int (b := b) h
  have hflag : isFlag '*' = false := by decide
  have hdig : isDigit '*' = false := by decide
  refine scan_next ?_
  simp [convStep,hflag,hdig,hlong,hn,readStar,ha,hx]

def Width.reads {N : Type} (w : Width N) (i : Nat) : List Read := w.stars.map (fun _ => ⟨i,.int⟩)

def Prec.reads {N : Type} (p : Prec N) (i : Nat) : List Read := p.stars.map (fun _ => ⟨i,.int⟩)

theorem scan_width {w : Width Unit} (hsp : sp.flags.belowWidth = true) (h0 : sp.width = 0) (hn : sp.argno = 0)
    (h : w.stars ≠ [] → IntAt ap.args ap.pos) :
    scanFormat b ft orig (.conv sp) (w.chars ++ rest) ap =
      Output.andThen ⟨[],w.reads ap.pos,false⟩
        (scanFormat b ft orig (.conv (w.apply b sp (intAt b ap.args ap.pos))) rest
          ⟨ap.args,ap.pos + w.stars.length⟩) := by
  cases w with
  | none => exact (andThen_none _).symm
  | lit k => exact (scan_width_lit hsp h0 k).trans (andThen_none _).symm
  | star n =>
    have hlong : sp.flags.belowLong = true := (Bool.and_eq_true_iff.mp hsp).2
    exact scan_star hlong hn (h (List.cons_ne_nil _ _))

theorem scan_prec {p : Prec Unit} (hlong : sp.flags.belowLong = true) (hf : sp.flags.prec = false) (h0 : sp.prec = 0)
    (hn : sp.argno = 0) (h : p.stars ≠ [] → IntAt ap.args ap.pos) :
    scanFormat b ft orig (.conv sp) (p.chars ++ rest) ap =
      Output.andThen ⟨[],p.reads ap.pos,false⟩
        (scanFormat b ft orig (.conv (p.apply b sp (intAt b ap.args ap.pos))) rest
          ⟨ap.args,ap.pos + p.stars.length⟩) := by
  cases p with
  | none => exact (andThen_none _).symm
  | lit ds => exact (scan_prec_lit hlong hf h0 ds).trans (andThen_none _).symm
  | star n =>
    have hpoint : sp.point.flags.belowLong = true := hlong
    exact (scan_point hlong hf).trans (scan_star hpoint hn (h (List.cons_ne_nil _ _)))

theorem width_apply {N : Type} (w : Width N) (x : Int) (hf : sp.flags.prec = false) :
    (w.apply b sp x).flags.belowLong = sp.flags.belowLong ∧ (w.apply b sp x).flags.prec = false ∧
      (w.apply b sp x).prec = sp.prec ∧ (w.apply b sp x).argno = sp.argno := by
  cases w with
  | none => exact ⟨rfl,hf,rfl,rfl⟩
  | lit k => cases hb : b.shrink <;> simp [Width.apply,Spec.setWidth,hb,hf,Flags.belowLong]
  | star n => cases hb : b.shrink <;> simp [Width.apply,Spec.setStar,hb,hf,Flags.belowLong]

theorem prec_apply {N : Type} (p : Prec N) (x : Int) :
    (p.apply b sp x).flags.belowLong = sp.flags.belowLong ∧ (p.apply b sp x).argno = sp.argno := by
  cases p with
  | none => exact ⟨rfl,rfl⟩
  | lit ds => cases hb : b.shrink <;> simp [Prec.apply,Spec.setPrec,Spec.point,hb,Flags.belowLong]
  | star n => cases hb : b.shrink <;> simp [Prec.apply,Spec.setStar,Spec.point,hb,Flags.belowLong]

def convertThen (b : Build) (ft : FloatText) (orig : List Char) (sp : Spec) (c : Char) (ap : VaList)
    (rest : List Char) : Except Fault Output :=
  match convert b ft sp c ap with
  | .error e => .error e
  | .ok (o,ap) => o.andThen (scanFormat b ft orig .text rest ap)

theorem start_flags {N : Type} (v : Conv N) (n : Int) : (v.start b n).flags.belowWidth = true :=
  (setFlags_belowWidth b .zero v.flags).trans rfl

theorem below_prec {f : Flags} (h : f.belowWidth = true) : f.prec = false := by
  simp only [Flags.belowWidth,Bool.and_eq_true,Bool.not_eq_true'] at h
  exact h.1.2

theorem below_long {f : Flags} (h : f.belowWidth = true) : f.belowLong = true := (Bool.and_eq_true_iff.mp h).2

theorem scan_conv {v : Conv Unit} (hm : v.len.known b = true) {args : List Arg} {i : Nat}
    (hw : v.width.stars ≠ [] → IntAt args i)
    (hp : v.prec.stars ≠ [] → IntAt args (i + v.width.stars.length)) :
    scanFormat b ft orig (.conv .init) (v.chars ++ rest) ⟨args,i⟩ =
      Output.andThen ⟨[],v.width.reads i ++ v.prec.reads (i + v.width.stars.length),false⟩
        (convertThen b ft orig
          (v.spec b (intAt b args i) (intAt b args (i + v.width.stars.length)) 0)
          v.letter.char ⟨args,i + v.width.stars.length + v.prec.stars.length⟩ rest) := by
  have hstart := start_flags (b := b) v 0
  obtain ⟨hlong,hprec,hzero,hnum⟩ := width_apply (b := b) v.width (intAt b args i) (below_prec hstart)
  have hchars : v.chars ++ rest = v.flags.map Flag.char ++ (v.width.chars ++ (v.prec.chars ++ (v.len.chars ++
      (v.letter.char :: rest)))) := by
    simp [Conv.chars,Numbering.chars]
  rw [hchars,scan_flags v.flags (by rfl)]
  rw [show ({ Spec.init with flags := setFlags b Spec.init.flags v.flags } : Spec) = v.start b 0 from rfl]
  rw [scan_width hstart rfl rfl hw,scan_prec (hlong.trans (below_long hstart)) hprec hzero hnum hp,andThen_reads,
    scan_len hm,scan_letter]
  have hval : ((v.prec.apply b (v.width.apply b (v.start b 0) (intAt b args i))
      (intAt b args (i + v.width.stars.length)))).argno = 0 :=
    (prec_apply v.prec _).2.trans hnum
  rw [toValue,if_neg (by simp [hval])]
  rfl

end

end Printf
