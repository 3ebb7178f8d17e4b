import Mathlib
import Picolibc.Printf.Digits
import Picolibc.Printf.Positional

namespace Printf

structure Minimal (m b : Build) : Prop where
  shrink : m.shrink = true
  full : b.shrink = false
  target : b.Target
  short : m.shortBits = b.shortBits
  int : m.intBits = b.intBits
  long : m.longBits = b.longBits
  llong : m.llongBits = b.llongBits
  ptr : m.ptrBits = b.ptrBits
  whole : ultoaBits b = b.llongBits

structure Conv.Simple (m : Build) (v : Conv Unit) : Prop where
  letter : v.letter ∈ [Letter.c,.d,.i,.u,.o,.x,.X,.s,.p]
  flags : Flag.alt ∉ v.flags
  len : v.len ∈ [Len.none,.hh,.h,.l,.ll]
  narrow : v.letter = .c ∨ v.letter = .s → v.len ≠ .l ∧ v.len ≠ .ll
  llong : v.len = .ll → ultoaBits m = m.llongBits

def Conv.strip (v : Conv Unit) : Conv Unit := { v with flags := [], width := .none, prec := .none }

def Piece.strip : Piece Unit → Piece Unit
  | conv v => .conv v.strip
  | p => p

def Conv.starCount (v : Conv Unit) : Nat := v.width.stars.length + v.prec.stars.length

def stripArgs : List (Piece Unit) → List Arg → List Arg
  | [], _ => []
  | .conv v :: fmt, args => (args.drop v.starCount).take 1 ++ stripArgs fmt (args.drop (v.starCount + 1))
  | _ :: fmt, args => stripArgs fmt args

def Fits (b : Build) (fmt : List (Piece Unit)) (args : List Arg) : Prop :=
  ∀ (k : Nat) (m : Unit × CTy), (mentions b fmt)[k]? = some m → ∃ a : Arg, args[k]? = some a ∧ a.ty = m.2

section

variable {m b : Build} {ft : FloatText} {f g : Flags}

theorem Minimal.target' (h : Minimal m b) : m.Target := by
  obtain ⟨h₁,h₂,h₃,h₄⟩ := h.target
  exact ⟨h.short ▸ h₁,by rw [h.short,h.int]; exact h₂,by rw [h.int,h.long]; exact h₃,by rw [h.long,h.llong]; exact h₄⟩

theorem intBody_shrink (hm : m.shrink = true) (w p : Int) (c : Char) (buf : List UInt8) :
    (intBody m f w p c buf).1 ++ tail m (intBody m f w p c buf).2 = lead f c ++ buf.reverse := by
  simp [intBody,tail,hm]

theorem intBody_plain (hb : b.shrink = false) (hp : f.prec = false) (hz : f.zfill = false)
    (hl : f.lpad = false) (c : Char) (buf : List UInt8) :
    (intBody b f 0 0 c buf).1 ++ tail b (intBody b f 0 0 c buf).2 = lead f c ++ buf.reverse := by
  have hnone : (-((lead f c).length : Int) + -(buf.length : Int)).toNat = 0 := by omega
  simp [intBody,tail,hb,hp,hz,hl,hnone]

theorem argToSigned_min (h : Minimal m b) (hll : f.long = true → f.repd = true → ultoaBits m = m.llongBits) (v : Int) :
    argToSigned m f v = argToSigned b f v := by
  unfold argToSigned
  rw [h.int,h.long,h.llong,h.short]
  split_ifs with hl hr
  · rw [hll hl hr,h.llong,h.whole]
  all_goals rfl

theorem argToUnsigned_min (h : Minimal m b) (hll : f.long = true → f.repd = true → ultoaBits m = m.llongBits) (v : Int) :
    argToUnsigned m f v = argToUnsigned b f v := by
  unfold argToUnsigned
  rw [h.int,h.long,h.llong,h.short]
  split_ifs with hl hr
  · rw [hll hl hr,h.llong,h.whole]
  all_goals rfl

theorem signed_digits (hb : b.Target) (f : Flags) (v : Int) :
    let x := argToSigned b f v
    ultoaInvert b (wrapU (ultoaBits b)
      (if x < 0 then wrapS (ultoaBits b) (wrapU (ultoaBits b) (-wrapU (ultoaBits b) x)) else x)) 10 =
      (positional 10 x.natAbs).map (ultoaDigit 10) := by
  intro x
  have hpos : 0 < ultoaBits b := by
    have h := ultoaBits_ge hb
    have h₁ := hb.char_le
    have h₂ := hb.short_le
    have h₃ := hb.int_le
    omega
  have hrange := argToSigned_range hb f v
  have hmag : wrapU (ultoaBits b)
      (if x < 0 then wrapS (ultoaBits b) (wrapU (ultoaBits b) (-wrapU (ultoaBits b) x)) else x) = x.natAbs :=
    magnitude hpos hrange
  rw [hmag]
  exact ultoaInvert_digits hb (by decide) (hmag ▸ wrapU_lt _ _)

def signedText (f : Flags) (v : Int) : List UInt8 :=
  (if v < 0 then [byte '-'] else if f.plus then [byte '+'] else if f.space then [byte ' '] else []) ++
    ((positional 10 v.natAbs).map (ultoaDigit 10)).reverse

theorem signed_shrink (h : Minimal m b) (hn : f.negative = false) (w p : Int) (c : Char) (v : Int) :
    (signedBody m f w p c v).1 ++ tail m (signedBody m f w p c v).2 = signedText f (argToSigned m f v) := by
  have hd := signed_digits h.target' f v
  simp only [signedBody]
  rw [intBody_shrink h.shrink,if_neg (by simp [h.shrink]),hd]
  by_cases hx : argToSigned m f v < 0 <;> simp [signedText,lead,hn,hx]

theorem signed_plain (h : Minimal m b) (hn : f.negative = false) (hp : f.prec = false) (hz : f.zfill = false)
    (hl : f.lpad = false) (c : Char) (v : Int) :
    (signedBody b f 0 0 c v).1 ++ tail b (signedBody b f 0 0 c v).2 = signedText f (argToSigned b f v) := by
  have hd := signed_digits h.target f v
  simp only [signedBody]
  rw [if_neg (by simp [hp]),intBody_plain h.full (by simpa using hp) (by simpa using hz) (by simpa using hl),hd]
  by_cases hx : argToSigned b f v < 0 <;> simp [signedText,lead,hn,hx]

def unsignedText (f : Flags) (base : Nat) (c : Char) (x : Nat) : List UInt8 :=
  lead (if x = 0 then { f with alt := false } else f) c ++
    ((positional (base % 32) x).map (ultoaDigit base)).reverse

theorem unsigned_shrink (h : Minimal m b) {base : Nat} (hbase : 2 ≤ base % 32) (w p : Int) (c : Char) (v : Int) :
    (unsignedBody m f w p base c v).1 ++ tail m (unsignedBody m f w p base c v).2 =
      unsignedText f base c (argToUnsigned m f v) := by
  have hd := ultoaInvert_digits h.target' hbase (argToUnsigned_lt h.target' f v)
  simp only [unsignedBody]
  rw [intBody_shrink h.shrink,hd,unsignedText]
  simp [h.shrink]

theorem unsigned_plain (h : Minimal m b) {base : Nat} (hbase : 2 ≤ base % 32) (hp : f.prec = false)
    (hz : f.zfill = false) (hl : f.lpad = false) (c : Char) (v : Int) :
    (unsignedBody b f 0 0 base c v).1 ++ tail b (unsignedBody b f 0 0 base c v).2 =
      unsignedText f base c (argToUnsigned b f v) := by
  have hd := ultoaInvert_digits h.target hbase (argToUnsigned_lt h.target f v)
  have hkeep : ∀ g : Flags, (if argToUnsigned b f v = 0 then { f with alt := false } else f) = g →
      g.prec = false ∧ g.zfill = false ∧ g.lpad = false := by
    rintro g rfl
    split_ifs <;> exact ⟨hp,hz,hl⟩
  obtain ⟨hp',hz',hl'⟩ := hkeep _ rfl
  unfold unsignedBody
  dsimp only
  rw [intBody_plain h.full hp' hz' hl',hd,unsignedText,hp']
  simp

section

variable {sp : Spec} {ap ap' : VaList} {a : Arg} {c : Char}

theorem convert_signed (hc : c = 'd' ∨ c = 'i') (hv : vaArg b (intTy (sp.adjust b).flags) ap = .ok (a,ap')) :
    convert b ft sp c ap = .ok (closed b ap (intTy (sp.adjust b).flags)
      (signedBody b (sp.adjust b).flags (sp.adjust b).width (sp.adjust b).prec c a.bits),ap') := by
  have hf : isFloat b c = false := by rcases hc with rfl | rfl <;> simp [isFloat,lower]
  rw [convert_int hf (by rcases hc with rfl | rfl <;> decide) (by rcases hc with rfl | rfl <;> decide)]
  simp only [intConv,if_pos hc,hv]

theorem convert_unsigned (hf : isFloat b c = false) (hc : c ≠ 'c') (hs : c ≠ 's') (hd : ¬(c = 'd' ∨ c = 'i'))
    (hk : unsignedKnown b c = true)
    (hv : vaArg b (intTy (unsignedFlags b (sp.adjust b).flags c)) ap = .ok (a,ap')) :
    convert b ft sp c ap = .ok (closed b ap (intTy (unsignedFlags b (sp.adjust b).flags c))
      (unsignedBody b (unsignedFlags b (sp.adjust b).flags c) (sp.adjust b).width (sp.adjust b).prec
        (unsignedBase c) (unsignedLetter c) a.bits),ap') := by
  rw [convert_int hf hc hs]
  simp only [intConv,if_neg hd,if_pos hk,hv]

theorem convert_char (hl : (sp.adjust b).flags.long = false) (hv : vaArg b .int ap = .ok (a,ap')) :
    convert b ft sp 'c' ap = .ok (closed b ap .int
      (if b.shrink then ([UInt8.ofNat (wrapU 8 a.bits)],(sp.adjust b).width)
        else strBody (sp.adjust b).flags (sp.adjust b).width [UInt8.ofNat (wrapU 8 a.bits)]),ap') := by
  have hf : isFloat b 'c' = false := by simp [isFloat,lower]
  rw [convert,if_neg (by simp [hf]),if_pos rfl,charConv,if_neg (by simp [hl])]
  simp only [hv]

theorem convert_str (hl : (sp.adjust b).flags.long = false) (hv : vaArg b .charPtr ap = .ok (a,ap')) :
    convert b ft sp 's' ap = .ok (closed b ap .charPtr
      (if b.shrink then (a.str.getD nullText,(sp.adjust b).width)
        else strBody (sp.adjust b).flags (sp.adjust b).width
          (clip (sp.adjust b).flags (sp.adjust b).prec (a.str.getD nullText))),ap') := by
  have hf : isFloat b 's' = false := by simp [isFloat,lower]
  rw [convert,if_neg (by simp [hf]),if_neg (by decide),if_pos rfl,strConv,if_neg (by simp [hl])]
  simp only [hv]

end

theorem setFlags_shrink (hm : m.shrink = true) {fs : List Flag} (h : Flag.alt ∉ fs) (f : Flags) :
    setFlags m f fs = f := by
  induction fs generalizing f with
  | nil => rfl
  | cons g fs ih =>
    have hg : setFlag m f g.char = f := by
      cases g <;> simp_all [setFlag,Flag.char]
    rw [setFlags,List.foldl_cons,hg]
    exact ih (fun hmem => h (List.mem_cons_of_mem g hmem)) f

def bare (wide point long short repd : Bool) : Flags :=
  ⟨false,false,false,false,false,wide,point,long,short,repd,false⟩

theorem len_flags {v : Conv Unit} (hv : v.Simple m) : ∃ long short repd,
    (∀ b wide point, lenFlags b v.len (bare wide point false false false) = bare wide point long short repd) ∧
      (long = true → repd = true → ultoaBits m = m.llongBits) ∧ (v.letter = .c ∨ v.letter = .s → long = false) := by
  have hlen := hv.len
  have hnarrow := hv.narrow
  have hll := hv.llong
  simp only [List.mem_cons,List.not_mem_nil,or_false] at hlen
  rcases hlen with hl | hl | hl | hl | hl <;> rw [hl] at hnarrow hll ⊢
  · exact ⟨false,false,false,fun _ _ _ => rfl,by simp,by simp⟩
  · exact ⟨false,true,true,fun _ _ _ => by simp [lenFlags,Len.chars,checkIntSizes,bare],by simp,by simp⟩
  · exact ⟨false,true,false,fun _ _ _ => by simp [lenFlags,Len.chars,checkIntSizes,bare],by simp,by simp⟩
  · exact ⟨true,false,false,fun _ _ _ => by simp [lenFlags,Len.chars,checkIntSizes,bare],by simp,
      fun h => absurd rfl (hnarrow h).1⟩
  · exact ⟨true,false,true,fun _ _ _ => by simp [lenFlags,Len.chars,checkIntSizes,bare],fun _ _ => hll rfl,
      fun h => absurd rfl (hnarrow h).2⟩

theorem spec_shrink (hm : m.shrink = true) {v : Conv Unit} (hv : v.Simple m) (x y : Int) : ∃ wide point,
    (v.spec m x y 0).flags = lenFlags m v.len (bare wide point false false false) := by
  have hstart : v.start m 0 = ⟨.zero,0,0,0⟩ := by rw [Conv.start,setFlags_shrink hm hv.flags]
  have hbits : ∃ wide point, (v.prec.apply m (v.width.apply m (v.start m 0) x) y).flags =
      bare wide point false false false := by
    rw [hstart]
    cases v.width <;> cases v.prec <;>
      simp [Width.apply,Prec.apply,Spec.setWidth,Spec.setPrec,Spec.setStar,Spec.point,hm,Flags.zero,bare]
  obtain ⟨wide,point,hflags⟩ := hbits
  exact ⟨wide,point,by rw [Conv.spec,hflags]⟩

theorem adjust_shrink (hm : m.shrink = true) (sp : Spec) : sp.adjust m = sp := by
  rw [Spec.adjust,if_pos hm]

def Pair (ft : FloatText) (m b : Build) (v : Conv Unit) (a : Arg) : Prop :=
  ∀ x y, ∃ text, ∀ args args' i j, args[i]? = some a → args'[j]? = some a →
    convert m ft (v.spec m x y 0) v.letter.char ⟨args,i⟩ =
      .ok (⟨text,[⟨i,v.letter.valueTy b (lenFlags b v.len .zero)⟩],false⟩,⟨args,i + 1⟩) ∧
    convert b ft (v.strip.spec b 0 0 0) v.letter.char ⟨args',j⟩ =
      .ok (⟨text,[⟨j,v.letter.valueTy b (lenFlags b v.len .zero)⟩],false⟩,⟨args',j + 1⟩)

theorem strip_adjust (v : Conv Unit) : (v.strip.spec b 0 0 0).adjust b = ⟨lenFlags b v.len .zero,0,0,0⟩ := by
  have hspec : v.strip.spec b 0 0 0 = ⟨lenFlags b v.len .zero,0,0,0⟩ := rfl
  cases hb : b.shrink <;> simp [hspec,Spec.adjust,hb]

theorem pair_signed (h : Minimal m b) {v : Conv Unit} (hv : v.Simple m) (hl : v.letter = .d ∨ v.letter = .i) {a : Arg}
    (ht : a.ty = v.argTy b) : Pair ft m b v a := by
  intro x y
  obtain ⟨wide,point,hmin⟩ := spec_shrink h.shrink hv x y
  obtain ⟨long,short,repd,hlen,hll,-⟩ := len_flags hv
  have hzero : lenFlags b v.len .zero = bare false false long short repd := hlen b false false
  rw [hlen] at hmin
  have hc : v.letter.char = 'd' ∨ v.letter.char = 'i' := by rcases hl with hl | hl <;> simp [hl,Letter.char]
  have hty : v.letter.valueTy b (bare false false long short repd) = intTy (bare false false long short repd) := by
    rcases hl with hl | hl <;> rw [hl] <;> rfl
  have harg : a.ty = intTy (bare false false long short repd) := by
    rw [ht,Conv.argTy,if_neg (by rcases hl with hl | hl <;> simp [hl]),hzero,hty]
  have hread : ∀ b, readable b a.ty (intTy (bare false false long short repd)) = true := by
    intro b
    simp [readable,harg]
  refine ⟨signedText .zero (argToSigned b (bare false false long short repd) a.bits),
    fun args args' i j ha ha' => ⟨?_,?_⟩⟩
  · have hva : vaArg m (intTy ((v.spec m x y 0).adjust m).flags) ⟨args,i⟩ = .ok (a,⟨args,i + 1⟩) := by
      rw [adjust_shrink h.shrink,hmin]
      exact vaArg_ok ha (hread m)
    rw [convert_signed hc hva,adjust_shrink h.shrink,hmin,closed,signed_shrink h rfl,hzero,hty,
      argToSigned_min h hll]
    rfl
  · have hva : vaArg b (intTy ((v.strip.spec b 0 0 0).adjust b).flags) ⟨args',j⟩ = .ok (a,⟨args',j + 1⟩) := by
      rw [strip_adjust,hzero]
      exact vaArg_ok ha' (hread b)
    rw [convert_signed hc hva,strip_adjust,hzero,closed,signed_plain h rfl rfl rfl rfl,hty]
    rfl

theorem letter_unsigned {l : Letter} (hl : l ∈ [Letter.u,.o,.x,.X,.p]) (b : Build) :
    l ∈ [Letter.d,.i,.u,.o,.x,.X,.p] ∧ ¬(l.char = 'd' ∨ l.char = 'i') ∧ unsignedKnown b l.char = true ∧
      2 ≤ unsignedBase l.char % 32 ∧ ∀ f, l.valueTy b f = intTy (unsignedFlags b f l.char) := by
  simp only [List.mem_cons,List.not_mem_nil,or_false] at hl
  rcases hl with rfl | rfl | rfl | rfl | rfl <;>
    refine ⟨by simp,by decide,by simp [unsignedKnown,Letter.char,lower],by decide,fun f => rfl⟩

theorem unsignedText_bits (hi : m.intBits = b.intBits) (hp : m.ptrBits = b.ptrBits) (wide point long short repd : Bool)
    (base : Nat) (c d : Char) (x : Nat) :
    unsignedText (unsignedFlags m (bare wide point long short repd) c) base d x =
      unsignedText (unsignedFlags b (bare false false long short repd) c) base d x := by
  unfold unsignedText unsignedFlags
  rw [hi,hp]
  by_cases hx : x = 0 <;> by_cases hu : c = 'u' <;> by_cases hc : c = 'p' <;> simp [hx,hu,hc,lead,bare]

theorem argToUnsigned_bits (hi : m.intBits = b.intBits) (hp : m.ptrBits = b.ptrBits) (wide point long short repd : Bool)
    (c : Char) (v : Int) :
    argToUnsigned b (unsignedFlags m (bare wide point long short repd) c) v =
      argToUnsigned b (unsignedFlags b (bare false false long short repd) c) v := by
  unfold unsignedFlags
  rw [hi,hp]
  by_cases hu : c = 'u' <;> by_cases hc : c = 'p' <;> simp [hu,hc,argToUnsigned,bare]

theorem pair_unsigned (h : Minimal m b) {v : Conv Unit} (hv : v.Simple m)
    (hl : v.letter ∈ [Letter.u,.o,.x,.X,.p]) {a : Arg} (ht : a.ty = v.argTy b) : Pair ft m b v a := by
  intro x y
  obtain ⟨wide,point,hmin⟩ := spec_shrink h.shrink hv x y
  obtain ⟨long,short,repd,hlen,hll,-⟩ := len_flags hv
  have hzero : lenFlags b v.len .zero = bare false false long short repd := hlen b false false
  rw [hlen] at hmin
  obtain ⟨hint,hd,-,hbase,hty⟩ := letter_unsigned hl b
  have hread : readable b a.ty (v.letter.valueTy b (bare false false long short repd)) = true := by
    have hr := readable_value (b := b) v.strip 0 0 0
    rwa [show v.strip.argTy b = a.ty from ht.symm,show (v.strip.spec b 0 0 0).flags = _ from hzero] at hr
  have htym : intTy (unsignedFlags m (bare wide point long short repd) v.letter.char) =
      v.letter.valueTy b (bare false false long short repd) := by
    rw [hty]
    unfold unsignedFlags
    rw [h.int,h.ptr]
    by_cases hu : v.letter.char = 'u' <;> by_cases hp : v.letter.char = 'p' <;> simp [hu,hp,intTy,bare]
  have hwhole : (unsignedFlags m (bare wide point long short repd) v.letter.char).long = true →
      (unsignedFlags m (bare wide point long short repd) v.letter.char).repd = true →
        ultoaBits m = m.llongBits := by
    by_cases hp : v.letter = .p
    · have hnone := hlen b false false
      rw [v.plain hp] at hnone
      have hrepd : repd = false := (congrArg Flags.repd hnone).symm
      simp [unsignedFlags,hp,Letter.char,bare,hrepd]
    · have hne : v.letter.char ≠ 'p' := by
        cases hv : v.letter <;> simp_all [Letter.char]
      by_cases hu : v.letter.char = 'u' <;> simpa [unsignedFlags,hne,hu,bare] using hll
  refine ⟨unsignedText (unsignedFlags b (bare false false long short repd) v.letter.char) (unsignedBase v.letter.char)
    (unsignedLetter v.letter.char)
    (argToUnsigned b (unsignedFlags b (bare false false long short repd) v.letter.char) a.bits),
    fun args args' i j ha ha' => ⟨?_,?_⟩⟩
  · obtain ⟨hf,hc,hs⟩ := letter_int (b := m) hint
    have hva : vaArg m (intTy (unsignedFlags m ((v.spec m x y 0).adjust m).flags v.letter.char)) ⟨args,i⟩ =
        .ok (a,⟨args,i + 1⟩) := by
      rw [adjust_shrink h.shrink,hmin,htym]
      refine vaArg_ok ha ?_
      rw [readable,ptrTy,h.int,h.ptr]
      exact hread
    rw [convert_unsigned hf hc hs hd (letter_unsigned hl m).2.2.1 hva,adjust_shrink h.shrink,hmin,closed,
      unsigned_shrink h hbase,htym,hzero,argToUnsigned_min h hwhole,unsignedText_bits h.int h.ptr,
      argToUnsigned_bits h.int h.ptr]
  · obtain ⟨hf,hc,hs⟩ := letter_int (b := b) hint
    have hva : vaArg b (intTy (unsignedFlags b ((v.strip.spec b 0 0 0).adjust b).flags v.letter.char)) ⟨args',j⟩ =
        .ok (a,⟨args',j + 1⟩) := by
      rw [strip_adjust,hzero,← hty]
      exact vaArg_ok ha' hread
    rw [convert_unsigned hf hc hs hd (letter_unsigned hl b).2.2.1 hva,strip_adjust,hzero,closed,
      unsigned_plain h hbase (by unfold unsignedFlags; split_ifs <;> rfl) (by unfold unsignedFlags; split_ifs <;> rfl)
        (by unfold unsignedFlags; split_ifs <;> rfl),hty]

theorem strBody_plain (hb : b.shrink = false) (hl : f.lpad = false) (s : List UInt8) :
    (strBody f 0 s).1 ++ tail b (strBody f 0 s).2 = s := by
  have hnone : (-(s.length : Int)).toNat = 0 := by omega
  simp [strBody,tail,hb,hl,hnone]

theorem pair_char (h : Minimal m b) {v : Conv Unit} (hv : v.Simple m) (hl : v.letter = .c) {a : Arg}
    (ht : a.ty = v.argTy b) : Pair ft m b v a := by
  intro x y
  obtain ⟨wide,point,hmin⟩ := spec_shrink h.shrink hv x y
  obtain ⟨long,short,repd,hlen,-,hnarrow⟩ := len_flags hv
  have hzero : lenFlags b v.len .zero = bare false false long short repd := hlen b false false
  rw [hlen] at hmin
  have hlong : long = false := hnarrow (.inl hl)
  have hty : Letter.valueTy b (bare false false long short repd) .c = .int := by simp [Letter.valueTy,bare,hlong]
  have harg : a.ty = .int := by
    rw [ht,Conv.argTy,if_neg (by simp [hl]),hzero,hl,hty]
  have hread : ∀ b, readable b a.ty .int = true := by
    intro b
    simp [readable,harg]
  refine ⟨[UInt8.ofNat (wrapU 8 a.bits)],fun args args' i j ha ha' => ⟨?_,?_⟩⟩
  · have hva : vaArg m .int ⟨args,i⟩ = .ok (a,⟨args,i + 1⟩) := vaArg_ok ha (hread m)
    rw [hl]
    refine (convert_char (by rw [adjust_shrink h.shrink,hmin]; exact hlong) hva).trans ?_
    rw [hzero,hty]
    simp [closed,h.shrink,tail]
  · have hva : vaArg b .int ⟨args',j⟩ = .ok (a,⟨args',j + 1⟩) := vaArg_ok ha' (hread b)
    rw [hl]
    refine (convert_char (by rw [strip_adjust,hzero]; exact hlong) hva).trans ?_
    rw [strip_adjust,hzero,hty,if_neg (by simp [h.full]),closed,strBody_plain h.full rfl]

theorem pair_str (h : Minimal m b) {v : Conv Unit} (hv : v.Simple m) (hl : v.letter = .s) {a : Arg}
    (ht : a.ty = v.argTy b) : Pair ft m b v a := by
  intro x y
  obtain ⟨wide,point,hmin⟩ := spec_shrink h.shrink hv x y
  obtain ⟨long,short,repd,hlen,-,hnarrow⟩ := len_flags hv
  have hzero : lenFlags b v.len .zero = bare false false long short repd := hlen b false false
  rw [hlen] at hmin
  have hlong : long = false := hnarrow (.inr hl)
  have hty : Letter.valueTy b (bare false false long short repd) .s = .charPtr := by simp [Letter.valueTy,bare,hlong]
  have harg : a.ty = .charPtr := by
    rw [ht,Conv.argTy,if_neg (by simp [hl]),hzero,hl,hty]
  have hread : ∀ b, readable b a.ty .charPtr = true := by
    intro b
    simp [readable,harg]
  refine ⟨a.str.getD nullText,fun args args' i j ha ha' => ⟨?_,?_⟩⟩
  · have hva : vaArg m .charPtr ⟨args,i⟩ = .ok (a,⟨args,i + 1⟩) := vaArg_ok ha (hread m)
    rw [hl]
    refine (convert_str (by rw [adjust_shrink h.shrink,hmin]; exact hlong) hva).trans ?_
    rw [hzero,hty]
    simp [closed,h.shrink,tail]
  · have hva : vaArg b .charPtr ⟨args',j⟩ = .ok (a,⟨args',j + 1⟩) := vaArg_ok ha' (hread b)
    rw [hl]
    refine (convert_str (by rw [strip_adjust,hzero]; exact hlong) hva).trans ?_
    rw [strip_adjust,hzero,hty,if_neg (by simp [h.full]),closed,strBody_plain h.full rfl]
    rfl

theorem pair_convert (h : Minimal m b) {v : Conv Unit} (hv : v.Simple m) {a : Arg} (ht : a.ty = v.argTy b) :
    Pair ft m b v a := by
  have hletter := hv.letter
  simp only [List.mem_cons,List.not_mem_nil,or_false] at hletter
  rcases hletter with hl | hl | hl | hl | hl | hl | hl | hl | hl
  · exact pair_char h hv hl ht
  · exact pair_signed h hv (.inl hl) ht
  · exact pair_signed h hv (.inr hl) ht
  · exact pair_unsigned h hv (by simp [hl]) ht
  · exact pair_unsigned h hv (by simp [hl]) ht
  · exact pair_unsigned h hv (by simp [hl]) ht
  · exact pair_unsigned h hv (by simp [hl]) ht
  · exact pair_str h hv hl ht
  · exact pair_unsigned h hv (by simp [hl]) ht

theorem full_convert {v : Conv Unit} (hv : v.Simple m) {args : List Arg} {i : Nat} {a : Arg}
    (ha : args[i]? = some a) (ht : a.ty = v.argTy b) (x y : Int) : ∃ text,
    convert b ft (v.spec b x y 0) v.letter.char ⟨args,i⟩ =
      .ok (⟨text,[⟨i,v.letter.valueTy b (lenFlags b v.len .zero)⟩],false⟩,⟨args,i + 1⟩) := by
  obtain ⟨g,hg,hflags⟩ := spec_flags (b := b) v x y 0
  obtain ⟨hlong,hrepd⟩ := lenFlags_sizes (b := b) hg (show Flags.zero.belowLong = true from rfl) v.len
  obtain ⟨hl,hr⟩ := adjust_sizes (b := b) (v.spec b x y 0)
  rw [hflags] at hl hr
  have hty := valueTy_congr (b := b) (hl.trans hlong) (hr.trans hrepd) v.letter
  have hread := readable_value (b := b) v x y 0
  rw [hflags,valueTy_congr hlong hrepd,← hty,← ht] at hread
  have hva : vaArg b _ ⟨args,i⟩ = .ok (a,⟨args,i + 1⟩) := vaArg_ok ha hread
  obtain ⟨long,short,repd,hlen,-,hnarrow⟩ := len_flags hv
  have hzero : lenFlags b v.len .zero = bare false false long short repd := hlen b false false
  have hwide : v.letter = .c ∨ v.letter = .s → ((v.spec b x y 0).adjust b).flags.long = false := by
    intro h
    rw [hl,hlong,hzero]
    exact hnarrow h
  rw [← hty]
  have hletter := hv.letter
  simp only [List.mem_cons,List.not_mem_nil,or_false] at hletter
  by_cases hu : v.letter ∈ [Letter.u,.o,.x,.X,.p]
  · obtain ⟨hint,hd,hk,-,huty⟩ := letter_unsigned hu b
    obtain ⟨hf,hc,hs⟩ := letter_int (b := b) hint
    rw [huty] at hva ⊢
    exact ⟨_,convert_unsigned hf hc hs hd hk hva⟩
  · have hrest : v.letter = .c ∨ v.letter = .s ∨ v.letter = .d ∨ v.letter = .i := by
      simp only [List.mem_cons,List.not_mem_nil,or_false] at hu
      tauto
    rcases hrest with hc | hc | hc | hc
    · have hint : v.letter.valueTy b ((v.spec b x y 0).adjust b).flags = .int := by
        simp [hc,Letter.valueTy,hwide (.inl hc)]
      rw [hint] at hva ⊢
      rw [hc]
      exact ⟨_,convert_char (hwide (.inl hc)) hva⟩
    · have hstr : v.letter.valueTy b ((v.spec b x y 0).adjust b).flags = .charPtr := by
        simp [hc,Letter.valueTy,hwide (.inr hc)]
      rw [hstr] at hva ⊢
      rw [hc]
      exact ⟨_,convert_str (hwide (.inr hc)) hva⟩
    · rw [hc] at hva ⊢
      exact ⟨_,convert_signed (.inl rfl) hva⟩
    · rw [hc] at hva ⊢
      exact ⟨_,convert_signed (.inr rfl) hva⟩

theorem fits_conv {v : Conv Unit} {args : List Arg} {i : Nat}
    (h : ∀ (k : Nat) (e : Unit × CTy), (v.mentions b)[k]? = some e → ∃ a : Arg, args[i + k]? = some a ∧ a.ty = e.2) :
    (v.width.stars ≠ [] → IntAt args i) ∧ (v.prec.stars ≠ [] → IntAt args (i + v.width.stars.length)) ∧
      ∃ a, args[i + v.starCount]? = some a ∧ a.ty = v.argTy b := by
  have hint : ∀ {k : Nat}, (v.mentions b)[k]? = some ((),.int) → IntAt args (i + k) := by
    intro k hk
    obtain ⟨a,ha,ht⟩ := h k _ hk
    cases a <;> first | exact ⟨_,ha⟩ | cases ht
  refine ⟨fun hw => ?_,fun hp => ?_,?_⟩
  · have hk : (v.mentions b)[0]? = some ((),.int) := by
      cases hwidth : v.width with
      | none => simp [hwidth,Width.stars] at hw
      | lit k => simp [hwidth,Width.stars] at hw
      | star n => simp [Conv.mentions,hwidth,Width.stars]
    exact hint hk
  · have hk : (v.mentions b)[v.width.stars.length]? = some ((),.int) := by
      cases hprec : v.prec with
      | none => simp [hprec,Prec.stars] at hp
      | lit k => simp [hprec,Prec.stars] at hp
      | star n => simp [Conv.mentions,hprec,Prec.stars]
    exact hint hk
  · refine h v.starCount ((),v.argTy b) ?_
    rw [Conv.mentions,← List.append_assoc,List.getElem?_append_right (by simp [Conv.starCount])]
    simp [Conv.starCount]

theorem len_simple {v : Conv Unit} (hv : v.Simple m) (b : Build) : v.len.known b = true := by
  have hlen := hv.len
  simp only [List.mem_cons,List.not_mem_nil,or_false] at hlen
  rcases hlen with hl | hl | hl | hl | hl <;> rw [hl] <;> rfl

structure Agree (om ob os : Output) : Prop where
  reads : om.reads = ob.reads
  text : om.text = os.text
  done : om.failed = false
  fullDone : ob.failed = false
  plainDone : os.failed = false

theorem Agree.prepend {om ob os : Output} (h : Agree om ob os) (rs : List Read) (rs' : List Read)
    (text text' : List UInt8) :
    Agree ⟨text ++ om.text,rs ++ om.reads,om.failed⟩ ⟨text' ++ ob.text,rs ++ ob.reads,ob.failed⟩
      ⟨text ++ os.text,rs' ++ os.reads,os.failed⟩ := by
  refine ⟨?_,?_,h.done,h.fullDone,h.plainDone⟩
  · simp only [h.reads]
  · simp only [h.text]

theorem drop_strip {args args' : List Arg} {j n : Nat} {tl : List Arg} {a : Arg} (ha : args[n]? = some a)
    (h : args'.drop j = (args.drop n).take 1 ++ tl) : args'[j]? = some a ∧ args'.drop (j + 1) = tl := by
  have hhead : (args.drop n).take 1 = [a] := by
    rw [List.take_one,List.head?_drop,ha]
    rfl
  rw [hhead,List.singleton_append] at h
  constructor
  · rw [← List.head?_drop,h]
    rfl
  · have htail := congrArg (List.drop 1) h
    rwa [List.drop_drop,List.drop_succ_cons,List.drop_zero] at htail

theorem scan_pairs (h : Minimal m b) {fmt : List (Piece Unit)} (hv : ∀ v, Piece.conv v ∈ fmt → v.Simple m)
    {args args' : List Arg} {i j : Nat} {o₁ o₂ o₃ : List Char}
    (hfit : ∀ (k : Nat) (e : Unit × CTy), (mentions b fmt)[k]? = some e → ∃ a : Arg, args[i + k]? = some a ∧ a.ty = e.2)
    (hstrip : args'.drop j = stripArgs fmt (args.drop i)) :
    ∃ om ob os, scanFormat m ft o₁ .text (render fmt) ⟨args,i⟩ = .ok om ∧
      scanFormat b ft o₂ .text (render fmt) ⟨args,i⟩ = .ok ob ∧
        scanFormat b ft o₃ .text (render (fmt.map Piece.strip)) ⟨args',j⟩ = .ok os ∧ Agree om ob os := by
  induction fmt generalizing i j with
  | nil => exact ⟨_,_,_,rfl,rfl,rfl,rfl,rfl,rfl,rfl,rfl⟩
  | cons p fmt ih =>
    rw [List.map_cons,render_cons,render_cons]
    have hv' : ∀ v, Piece.conv v ∈ fmt → v.Simple m := fun v hm => hv v (List.mem_cons_of_mem p hm)
    cases p with
    | lit c =>
      obtain ⟨om,ob,os,hm,hb,hs,hagree⟩ := ih hv' hfit hstrip
      rw [scan_text_lit,scan_text_lit,Piece.strip,scan_text_lit,hm,hb,hs]
      · exact ⟨_,_,_,rfl,rfl,rfl,hagree.prepend [] [] [byte c.1] [byte c.1]⟩
      · simp
    | percent =>
      obtain ⟨om,ob,os,hm,hb,hs,hagree⟩ := ih hv' hfit hstrip
      have hone : ∀ (b : Build) (o : List Char) (fmt : List (Piece Unit)) (ap : VaList),
          scanFormat b ft o .text ((Piece.percent (N := Unit)).chars ++ render fmt) ap =
            Output.andThen ⟨[byte '%'],[],false⟩ (scanFormat b ft o .text (render fmt) ap) := fun _ _ _ _ => rfl
      rw [hone,hone,show (Piece.percent (N := Unit)).strip = .percent from rfl,hone,hm,hb,hs]
      exact ⟨_,_,_,rfl,rfl,rfl,hagree.prepend [] [] [byte '%'] [byte '%']⟩
    | conv v =>
      have hsimple := hv v List.mem_cons_self
      have hsplit : mentions b (Piece.conv v :: fmt) = v.mentions b ++ mentions b fmt := rfl
      have hhead : ∀ (k : Nat) (e : Unit × CTy), (v.mentions b)[k]? = some e →
          ∃ a : Arg, args[i + k]? = some a ∧ a.ty = e.2 := by
        intro k e hk
        have hlt : k < (v.mentions b).length := (List.getElem?_eq_some_iff.mp hk).1
        exact hfit k e (by rw [hsplit,List.getElem?_append_left hlt,hk])
      have htail : ∀ (k : Nat) (e : Unit × CTy), (mentions b fmt)[k]? = some e →
          ∃ a : Arg, args[i + v.starCount + 1 + k]? = some a ∧ a.ty = e.2 := by
        intro k e hk
        have hlen : (v.mentions b).length = v.starCount + 1 := mentions_length v
        have hidx : i + v.starCount + 1 + k = i + ((v.mentions b).length + k) := by omega
        rw [hidx]
        exact hfit _ e (by rw [hsplit,List.getElem?_append_right (by omega)]; simpa using hk)
      obtain ⟨hw,hp,a,ha,ht⟩ := fits_conv hhead
      have hcut : args'.drop j = (args.drop (i + v.starCount)).take 1 ++
          stripArgs fmt (args.drop (i + v.starCount + 1)) := by
        rw [hstrip,stripArgs,List.drop_drop,List.drop_drop,← Nat.add_assoc]
      obtain ⟨ha',hdrop⟩ := drop_strip ha hcut
      obtain ⟨om,ob,os,hm,hb,hs,hagree⟩ := ih (i := i + v.starCount + 1) (j := j + 1) hv' htail hdrop
      have hpairs : Pair ft m b v a := pair_convert h hsimple ht
      obtain ⟨text,hpair⟩ := hpairs (intAt m args i) (intAt m args (i + v.width.stars.length))
      obtain ⟨hcm,hcs⟩ := hpair args args' (i + v.starCount) j ha ha'
      obtain ⟨text',hcb⟩ : ∃ text', convert b ft (v.spec b (intAt b args i) (intAt b args (i + v.width.stars.length)) 0)
          v.letter.char ⟨args,i + v.starCount⟩ = .ok (⟨text',_,false⟩,_) := full_convert hsimple ha ht _ _
      have hplain : scanFormat b ft o₃ (.conv .init) (v.strip.chars ++ render (fmt.map Piece.strip)) ⟨args',j⟩ =
          Output.andThen ⟨[],[],false⟩ (convertThen b ft o₃ (v.strip.spec b 0 0 0) v.letter.char ⟨args',j⟩
            (render (fmt.map Piece.strip))) :=
        scan_conv (v := v.strip) (len_simple hsimple b) (fun h => absurd rfl h) (fun h => absurd rfl h)
      rw [scan_text_conv unit_plain,scan_text_conv unit_plain,Piece.strip,scan_text_conv unit_plain,
        scan_conv (len_simple hsimple m) hw hp,scan_conv (len_simple hsimple b) hw hp,hplain]
      rw [Nat.add_assoc i,← Conv.starCount]
      simp only [convertThen,hcm,hcb,hcs,hm,hb,hs]
      exact ⟨_,_,_,rfl,rfl,rfl,(hagree.prepend _ _ text text').prepend _ [] [] []⟩

theorem minimal_agrees (h : Minimal m b) {fmt : List (Piece Unit)} (hv : ∀ v, Piece.conv v ∈ fmt → v.Simple m)
    {args : List Arg} (hf : Fits b fmt args) :
    ∃ om ob os, format m ft (render fmt) args = .ok om ∧ format b ft (render fmt) args = .ok ob ∧
      format b ft (render (fmt.map Piece.strip)) (stripArgs fmt args) = .ok os ∧
        om.reads = ob.reads ∧ om.text = os.text ∧
          ∀ (S : Type) (put : S → UInt8 → S × Bool) (s : S), vfprintf put m ft s (render fmt) args =
            vfprintf put b ft s (render (fmt.map Piece.strip)) (stripArgs fmt args) := by
  obtain ⟨om,ob,os,hm,hb,hs,hagree⟩ : ∃ om ob os, format m ft (render fmt) args = .ok om ∧
      format b ft (render fmt) args = .ok ob ∧
        format b ft (render (fmt.map Piece.strip)) (stripArgs fmt args) = .ok os ∧ Agree om ob os := by
    refine scan_pairs h hv (fun k e hk => ?_) rfl
    rw [Nat.zero_add]
    exact hf k e hk
  refine ⟨om,ob,os,hm,hb,hs,hagree.reads,hagree.text,fun S put s => ?_⟩
  simp only [vfprintf,hm,hs,hagree.text,hagree.done,hagree.plainDone]

end

def small : Build :=
  { lp64 with shrink := true, posArgs := false, wchar := false, floats := .off }

def starred : List (Piece Unit) := [.conv ⟨(),[.plus,.zero],.star (),.lit [3],.l,.d,by decide⟩]

theorem minimal_agrees_starred :
    ∃ om ob os, format small noFloats (render starred) [.int 9,.long (-7)] = .ok om ∧
      format lp64 noFloats (render starred) [.int 9,.long (-7)] = .ok ob ∧
        format lp64 noFloats (render (starred.map Piece.strip)) (stripArgs starred [.int 9,.long (-7)]) = .ok os ∧
          om.reads = ob.reads ∧ om.text = os.text ∧
            ∀ (S : Type) (put : S → UInt8 → S × Bool) (s : S),
              vfprintf put small noFloats s (render starred) [.int 9,.long (-7)] =
                vfprintf put lp64 noFloats s (render (starred.map Piece.strip))
                  (stripArgs starred [.int 9,.long (-7)]) := by
  have hsmall : Minimal small lp64 :=
    ⟨rfl,rfl,⟨by decide,by decide,by decide,by decide⟩,rfl,rfl,rfl,rfl,rfl,rfl⟩
  refine minimal_agrees hsmall ?_ ?_
  · intro v hv
    simp only [starred,List.mem_singleton,Piece.conv.injEq] at hv
    subst hv
    exact ⟨by decide,by decide,by decide,by decide,by decide⟩
  · intro k e hk
    cases k with
    | zero =>
      obtain rfl := Option.some.inj hk
      exact ⟨.int 9,rfl,rfl⟩
    | succ k =>
      cases k with
      | zero =>
        obtain rfl := Option.some.inj hk
        exact ⟨.long (-7),rfl,rfl⟩
      | succ k => cases hk

end Printf
