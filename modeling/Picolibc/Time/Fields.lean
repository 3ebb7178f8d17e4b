import Mathlib
import Picolibc.Stdio.Strtoi
import Picolibc.Time.Strftime

open Numerals

namespace Strftime

open Printf hiding Fits

open Checked Time Strtoi

def Numeral (text : List UInt8) (x : Int) : Prop :=
  ∃ ds : List Nat, ds ≠ [] ∧ (∀ d ∈ ds, d < 10) ∧ text = (if x < 0 then [byte '-'] else []) ++ ds.map digitByte ∧
    horner 10 0 ds = x.natAbs

theorem digitByte_inj {d e : Nat} (hd : d < 10) (he : e < 10) (h : digitByte d = digitByte e) : d = e := by
  have hnat := congrArg UInt8.toNat h
  simp only [digitByte,UInt8.toNat_ofNat'] at hnat
  omega

theorem digitByte_minus {d : Nat} (hd : d < 10) : digitByte d ≠ byte '-' := by
  interval_cases d <;> decide

theorem digits_inj {ds es : List Nat} (hd : ∀ d ∈ ds, d < 10) (he : ∀ e ∈ es, e < 10)
    (h : ds.map digitByte = es.map digitByte) : ds = es := by
  induction ds generalizing es with
  | nil => exact (List.map_eq_nil_iff.mp h.symm).symm
  | cons d ds ih =>
    cases es with
    | nil => cases h
    | cons e es =>
      obtain ⟨hhead,htail⟩ := List.cons.inj h
      rw [digitByte_inj (hd d List.mem_cons_self) (he e List.mem_cons_self) hhead,
        ih (fun x hx => hd x (List.mem_cons_of_mem d hx)) (fun x hx => he x (List.mem_cons_of_mem e hx)) htail]

theorem Numeral.unique {text : List UInt8} {x y : Int} (hx : Numeral text x) (hy : Numeral text y) : x = y := by
  obtain ⟨ds,hds,hd,htext,hval⟩ := hx
  obtain ⟨es,hes,he,htext',hval'⟩ := hy
  rw [htext] at htext'
  obtain ⟨d,ds,rfl⟩ := List.exists_cons_of_ne_nil hds
  obtain ⟨e,es,rfl⟩ := List.exists_cons_of_ne_nil hes
  have hd0 := digitByte_minus (hd d List.mem_cons_self)
  have he0 := digitByte_minus (he e List.mem_cons_self)
  split_ifs at htext' with h h'
  · have hlist := digits_inj hd he (List.append_cancel_left htext')
    rw [hlist] at hval
    omega
  · exact absurd (List.cons.inj htext').1.symm he0
  · exact absurd (List.cons.inj htext').1 hd0
  · rw [digits_inj hd he htext'] at hval
    omega

theorem digitText_byte {d : Nat} (hd : d < 10) : digitText false d = digitByte d := if_pos hd

theorem numeralText_bytes (n : Nat) : numeralText false 10 n = (Nat.digits 10 n).reverse.map digitByte := by
  unfold numeralText
  exact List.map_congr_left fun d hd => digitText_byte (Nat.digits_lt_base (by decide) (List.mem_reverse.mp hd))

theorem padded_digits {k n : Nat} (h : 0 < k ∨ n ≠ 0) {F : Field} (hF : F.digits = some k) :
    ∃ ds : List Nat, ds ≠ [] ∧ (∀ d ∈ ds, d < 10) ∧ F.numeral (numeralText false 10 n) = ds.map digitByte ∧
      horner 10 0 ds = n ∧ ds.length = max k (Nat.digits 10 n).length := by
  refine ⟨List.replicate (k - (Nat.digits 10 n).length) 0 ++ (Nat.digits 10 n).reverse,?_,?_,?_,?_,?_⟩
  · intro hnil
    obtain ⟨hzeros,hdigits⟩ := List.append_eq_nil_iff.mp hnil
    rw [List.reverse_eq_nil_iff,Nat.digits_eq_nil_iff_eq_zero] at hdigits
    subst hdigits
    simp at hzeros
    omega
  · intro d hd
    rcases List.mem_append.mp hd with hd | hd
    · rw [List.eq_of_mem_replicate hd]
      decide
    · exact Nat.digits_lt_base (by decide) (List.mem_reverse.mp hd)
  · rw [Field.numeral,hF,Option.getD_some,numeralText_bytes,List.map_append,List.map_replicate,List.length_map,
      List.length_reverse]
    rfl
  · rw [horner_zeros,horner_digits]
  · rw [List.length_append,List.length_replicate,List.length_reverse]
    omega

theorem digits_short {k n : Nat} (h : n < 2 ^ k) : (Nat.digits 10 n).length ≤ k :=
  (Nat.digits_length_le_iff (by decide) n).mpr (h.trans_le (Nat.pow_le_pow_left (by decide) k))

theorem plain_text {F : Field} (hleft : F.left = false) (hzero : F.zero = false) (hcols : F.columns = 0) (s t : List UInt8) :
    F.text s t = s ++ t := by
  simp [Field.text,Field.room,hleft,hzero,hcols]

section

variable {b : Build} {ft : FloatText}

def dConv (prec : Prec Unit) : Conv Unit := ⟨(),[],.none,prec,.none,.d,bare_length .d⟩

def uStar : Conv Unit := ⟨(),[],.none,.star (),.none,.u,bare_length .u⟩

theorem wrapS_fits {bits : Nat} (hb : 0 < bits) {x : Int} (hx : Fits bits x) : wrapS bits x = x := by
  obtain ⟨n,rfl⟩ : ∃ n, bits = n + 1 := ⟨bits - 1,by omega⟩
  have hpow : ((2 : Int) ^ (n + 1)) = 2 * 2 ^ n := by rw [pow_succ,Int.mul_comm]
  unfold Fits at hx
  rw [Nat.add_sub_cancel] at hx
  rw [wrapS,Int.bmod_eq_of_le_mul_two]
  · push_cast
    omega
  · push_cast
    omega

theorem digits_word (hbits : 0 < b.intBits) {x : Int} (hx : Fits b.intBits x) : (Nat.digits 10 x.natAbs).length ≤ b.intBits := by
  have hpow := pow_step hbits
  have hcast : ((2 ^ b.intBits : Nat) : Int) = 2 ^ b.intBits := by push_cast; rfl
  refine digits_short ?_
  unfold Fits at hx
  omega

theorem d_text (hbits : 0 < b.intBits) {prec : Prec Unit} {k : Nat} {w x y : Int}
    (hprec : ((dConv prec).field w y).digits = some k) (hk : 0 < k ∨ x ≠ 0) (hx : Fits b.intBits x) :
    Numeral ((dConv prec).cText b w y x) x ∧ ((dConv prec).cText b w y x).length ≤ max k b.intBits + 1 := by
  have hval : wrapS b.intBits x = x := wrapS_fits hbits hx
  obtain ⟨ds,hne,hlt,htext,hhorner,hlen⟩ := padded_digits (k := k) (n := x.natAbs) (by omega) hprec
  have hc : (dConv prec).cText b w y x = (if x < 0 then [byte '-'] else []) ++ ds.map digitByte := by
    rw [Conv.cText,plain_text rfl rfl rfl]
    simp only [Conv.leadText,Conv.digitsText,dConv,Len.bits,hval]
    rw [show ((⟨(),[],.none,prec,.none,.d,bare_length .d⟩ : Conv Unit).field w y).numeral (numeralText false 10 x.natAbs) =
      ds.map digitByte from htext]
    simp [signText]
  have hshort := digits_word hbits hx
  refine ⟨⟨ds,hne,hlt,hc,hhorner⟩,?_⟩
  rw [hc,List.length_append,List.length_map,hlen]
  split_ifs <;> simp <;> omega

theorem u_text {w : Int} {n : Nat} (hn : n < 2 ^ b.intBits) :
    (∀ x : Int, x.natAbs = n → x ≠ 0 → Numeral ((if x < 0 then [byte '-'] else []) ++ uStar.cText b w 0 n) x) ∧
      (n = 0 → uStar.cText b w 0 n = []) ∧ (uStar.cText b w 0 n).length ≤ b.intBits := by
  have hval : wrapU b.intBits n = n := by
    rw [wrapU,Int.emod_eq_of_lt (by omega) (by exact_mod_cast hn),Int.toNat_natCast]
  have hc : uStar.cText b w 0 n = (uStar.field w 0).numeral (numeralText false 10 n) := by
    rw [Conv.cText,plain_text rfl rfl rfl]
    simp only [Conv.leadText,Conv.digitsText,uStar,Len.bits,hval,List.nil_append]
  have hdigits : (uStar.field w 0).numeral (numeralText false 10 n) = (Nat.digits 10 n).reverse.map digitByte := by
    rw [Field.numeral,numeralText_bytes,show (uStar.field w 0).digits.getD 1 = 0 from rfl,Nat.zero_sub,List.replicate_zero,
      List.nil_append]
  refine ⟨fun x hx hne => ?_,fun h0 => ?_,?_⟩
  · obtain ⟨ds,hds,hlt,htext,hhorner,-⟩ := padded_digits (k := 0) (n := n) (F := uStar.field w 0) (by omega) rfl
    exact ⟨ds,hds,hlt,by rw [hc,htext],by rw [hhorner,hx]⟩
  · rw [hc,hdigits,h0]
    rfl
  · rw [hc,hdigits,List.length_map,List.length_reverse]
    exact digits_short hn

theorem scan_literal {orig rest : List Char} {ap : VaList} {c : Char} (hc : c ≠ '%') :
    scanFormat b ft orig .text (c :: rest) ap = Output.andThen ⟨[byte c],[],false⟩ (scanFormat b ft orig .text rest ap) := by
  rw [scanFormat]
  all_goals simp [hc]

def sConv : Conv Unit := ⟨(),[],.none,.none,.none,.s,bare_length .s⟩

theorem scan_string (hb : b.Full) {orig rest : List Char} {args : List Arg} {i : Nat} {s : List UInt8}
    (ha : args[i]? = some (.charPtr (some s))) : ∃ rs, scanFormat b ft orig .text ('%' :: 's' :: rest) ⟨args,i⟩ =
      Output.andThen ⟨s,rs,false⟩ (scanFormat b ft orig .text rest ⟨args,i + 1⟩) := by
  have hread : vaArg b .charPtr ⟨args,i⟩ = .ok (.charPtr (some s),⟨args,i + 1⟩) := vaArg_ok ha rfl
  have hspec := @spec_adjust b hb sConv (intAt b args i) (intAt b args i)
  have hconv := @convert_str b ft (sConv.spec b (intAt b args i) (intAt b args i) 0) ⟨args,i⟩ ⟨args,i + 1⟩
    (.charPtr (some s)) (by rw [hspec]; rfl) hread
  have hbody := strBody_plain hb.full (f := (sConv.given (intAt b args i) (intAt b args i))) rfl s
  rw [hspec,if_neg (by simp [hb.full])] at hconv
  have hconv' : Printf.convert b ft (sConv.spec b (intAt b args i) (intAt b args (i + sConv.width.stars.length)) 0)
      sConv.letter.char ⟨args,i + sConv.width.stars.length + sConv.prec.stars.length⟩ =
        .ok (closed b ⟨args,i⟩ .charPtr (strBody (sConv.given (intAt b args i) (intAt b args i)) 0 s),⟨args,i + 1⟩) := hconv
  rw [show '%' :: 's' :: rest = (Piece.conv sConv).chars ++ rest from rfl,scan_text_conv unit_plain sConv,
    scan_conv rfl (fun h => absurd rfl h) (fun h => absurd rfl h),convertThen,hconv']
  dsimp only [closed]
  rw [hbody,andThen_reads]
  exact ⟨_,rfl⟩

theorem format_d {prec : Prec Unit} (hb : b.Full) (hp : prec.stars = []) (x : Int) :
    ∃ rs w y, format b ft ((Piece.conv (dConv prec)).chars) [.int x] = .ok ⟨(dConv prec).cText b w y x,rs,false⟩ := by
  obtain ⟨rs,hscan⟩ := @scan_int b ft hb (dConv prec) (by simp [dConv]) ((Piece.conv (dConv prec)).chars) [] [.int x] 0
    (.int x) (fun h => absurd rfl h) (fun h => absurd hp h) (by simp [Conv.starCount,dConv,Width.stars,hp])
    (by simp [Conv.argTy,dConv,Letter.valueTy]; rfl)
  rw [List.append_nil] at hscan
  refine ⟨rs,intAt b [.int x] 0,intAt b [.int x] 0,hscan.trans ?_⟩
  simp [scanFormat,Output.andThen]
  rfl

theorem format_year (hb : b.Full) (w n : Int) (sign : Option Char) (hsign : sign ≠ some '%') :
    ∃ rs y, format b ft (yearFmt sign none) [.int w,.int n] =
      .ok ⟨sign.toList.map byte ++ uStar.cText b y (wrapS b.intBits w) n,rs,false⟩ := by
  have hscan := fun orig => @scan_int b ft hb uStar (by simp [uStar]) orig [] [.int w,.int n] 0 (.int n)
    (fun h => absurd rfl h) (fun _ => ⟨w,rfl⟩) rfl rfl
  cases sign with
  | none =>
    obtain ⟨rs,hscan⟩ := hscan (yearFmt none none)
    refine ⟨rs,intAt b [.int w,.int n] 0,hscan.trans ?_⟩
    simp [scanFormat,Output.andThen]
    rfl
  | some c =>
    obtain ⟨rs,hscan⟩ := hscan (yearFmt (some c) none)
    have htext : scanFormat b ft (yearFmt (some c) none) .text (yearFmt (some c) none) ⟨[.int w,.int n],0⟩ =
        Output.andThen ⟨[byte c],[],false⟩ _ := scan_literal fun hc => hsign (congrArg some hc)
    refine ⟨[] ++ rs,intAt b [.int w,.int n] 0,htext.trans ((congrArg (Output.andThen ⟨[byte c],[],false⟩) hscan).trans ?_)⟩
    simp [scanFormat,Output.andThen]
    rfl

theorem format_century (hb : b.Full) (s : List UInt8) (w n : Int) :
    ∃ rs y, format b ft ['%','s','%','.','*','d'] [.charPtr (some s),.int w,.int n] =
      .ok ⟨s ++ (dConv (.star ())).cText b y (wrapS b.intBits w) n,rs,false⟩ := by
  obtain ⟨rs,hstr⟩ := @scan_string b ft hb ['%','s','%','.','*','d'] ['%','.','*','d']
    [.charPtr (some s),.int w,.int n] 0 s rfl
  obtain ⟨rs',hscan⟩ := @scan_int b ft hb (dConv (.star ())) (by simp [dConv]) ['%','s','%','.','*','d'] []
    [.charPtr (some s),.int w,.int n] 1 (.int n) (fun h => absurd rfl h) (fun _ => ⟨w,rfl⟩) rfl rfl
  refine ⟨rs ++ rs',intAt b [.charPtr (some s),.int w,.int n] 1,hstr.trans
    ((congrArg (Output.andThen ⟨s,rs,false⟩) hscan).trans ?_)⟩
  simp [scanFormat,Output.andThen]
  rfl

def Prints (b : Build) (ft : FloatText) (e : Emit) (text : List UInt8) : Prop :=
  ∀ (out : List UInt8) (maxsize : Nat), out.length + text.length < maxsize → maxsize < 2 ^ b.sizeBits →
    e.run b ft maxsize out = some (some (out ++ text))

theorem prints_format {fmt : List Char} {args : List Arg} {text : List UInt8} {rs : List Read}
    (h : format b ft fmt args = .ok ⟨text,rs,false⟩) : Prints b ft (.printed fmt args) text := by
  intro out maxsize hroom _
  rw [Emit.run,h]
  simp [hroom]

theorem putChars_room {limit : Nat} {out text : List UInt8} (h : out.length + text.length ≤ limit) :
    putChars limit out text = some (out ++ text) := by
  induction text generalizing out with
  | nil => simp [putChars]
  | cons c text ih =>
    rw [List.length_cons] at h
    rw [putChars,if_pos (by omega),ih (by simp; omega),List.append_assoc,List.singleton_append]

theorem limit_eq {maxsize : Nat} (h0 : 0 < maxsize) (h : maxsize < 2 ^ b.sizeBits) :
    wrapU b.sizeBits (maxsize - 1) = maxsize - 1 := by
  have hcast : ((2 ^ b.sizeBits : Nat) : Int) = 2 ^ b.sizeBits := by push_cast; rfl
  rw [wrapU,Int.emod_eq_of_lt (by omega) (by omega)]
  omega

theorem prints_chars (text : List UInt8) : Prints b ft (.chars text) text := by
  intro out maxsize hroom hsize
  rw [Emit.run,limit_eq (by omega) hsize,putChars_room (by omega)]

theorem prints_number (hb : b.Full) (hbits : 0 < b.intBits) {fmt : List Char} {prec : Prec Unit} {k : Nat}
    (hfmt : fmt = (Piece.conv (dConv prec)).chars) (hp : prec.stars = []) (hk : ∀ w y, ((dConv prec).field w y).digits = some k)
    {x : Int} (hx : Fits b.intBits x) (h0 : 0 < k ∨ x ≠ 0) :
    ∃ text, Prints b ft (.printed fmt [.int x]) text ∧ Numeral text x ∧ text.length ≤ max k b.intBits + 1 := by
  obtain ⟨rs,w,y,hformat⟩ := @format_d b ft prec hb hp x
  obtain ⟨hnum,hlen⟩ := @d_text b hbits prec k w x y (hk w y) h0 hx
  exact ⟨_,prints_format (by rw [hfmt,hformat]),hnum,hlen⟩

end

theorem numeral_digit {w : Nat} (hw : w < 10) : Numeral [digitByte w] w := by
  refine ⟨[w],by simp,by simpa using hw,?_,by simp [horner]⟩
  rw [if_neg (by omega)]
  rfl

theorem digit_eq {w : Nat} (hw : w < 10) : digit w = .chars [digitByte w] := by
  have hval : wrapU 8 ('0'.toNat + w) = 0x30 + w := by
    rw [wrapU,show '0'.toNat = 48 from rfl]
    omega
  rw [digit,hval]
  rfl

def bare (c : Char) : Bool := !isDigit c && c != '+' && c != 'E' && c != 'O'

theorem next_bare {c : Char} (hc : bare c = true) : Mode.start.next c = .conv none 0 := by
  simp only [bare,Bool.and_eq_true,Bool.not_eq_true',bne_iff_ne,ne_eq] at hc
  obtain ⟨⟨⟨hdigit,hplus⟩,he⟩,ho⟩ := hc
  have hzero : c ≠ '0' := by
    rintro rfl
    exact absurd hdigit (by decide)
  simp [Mode.next,afterPad,afterWidth,hdigit,hplus,he,ho,hzero]

section

variable {b : Build} {ft : FloatText} {zones : Zones} {tm : Tm} {nested : List Char → Nat → Result} {maxsize : Nat}
  {out text : List UInt8} {c : Char} {fmt : List Char}

theorem scan_bare (hc : bare c = true) :
    scan b ft zones tm nested maxsize out .text ('%' :: c :: fmt) =
      Result.andThen (convert b ft zones tm nested maxsize out none 0 c) fun out =>
        scan b ft zones tm nested maxsize out .text fmt := by
  rw [scan,if_pos rfl,scan,next_bare hc]
  simp

theorem convert_emit (hn : nestedFormat none 0 c = none) :
    convert b ft zones tm nested maxsize out none 0 c = (emit b zones tm none 0 c).bind (Emit.run b ft maxsize out) := by
  rw [convert,Nat.zero_min,hn]
  rfl

theorem scan_emit (hc : bare c = true) (hn : nestedFormat none 0 c = none) {e : Emit}
    (he : emit b zones tm none 0 c = some e) (hp : Prints b ft e text) (hroom : out.length + text.length < maxsize)
    (hsize : maxsize < 2 ^ b.sizeBits) :
    scan b ft zones tm nested maxsize out .text ('%' :: c :: fmt) =
      scan b ft zones tm nested maxsize (out ++ text) .text fmt := by
  rw [scan_bare hc,convert_emit hn,he,Option.bind_some,hp out maxsize hroom hsize]
  rfl

theorem scan_undefined (hc : bare c = true) (hn : nestedFormat none 0 c = none) (he : emit b zones tm none 0 c = none) :
    scan b ft zones tm nested maxsize out .text ('%' :: c :: fmt) = none := by
  rw [scan_bare hc,convert_emit hn,he,Option.bind_none]
  rfl

theorem scan_char (hc : c ≠ '%') (hroom : out.length + 1 < maxsize) (hsize : maxsize < 2 ^ b.sizeBits) :
    scan b ft zones tm nested maxsize out .text (c :: fmt) =
      scan b ft zones tm nested maxsize (out ++ [byte c]) .text fmt := by
  rw [scan,if_neg hc,limit_eq (by omega) hsize,if_pos (by omega)]

theorem strftime_emit (hc : bare c = true) (hn : nestedFormat none 0 c = none) {e : Emit}
    (he : emit b zones tm none 0 c = some e) (hp : Prints b ft e text) (hroom : text.length < maxsize)
    (hsize : maxsize < 2 ^ b.sizeBits) : strftime b ft zones tm maxsize ['%',c] = some (some text) := by
  have hscan := @scan_emit b ft zones tm (strftimeDepth b ft zones tm 1) maxsize [] text c [] hc hn e he hp
    (by simpa using hroom) hsize
  exact hscan.trans rfl

theorem strftime_undefined (hc : bare c = true) (hn : nestedFormat none 0 c = none) (he : emit b zones tm none 0 c = none) :
    strftime b ft zones tm maxsize ['%',c] = none :=
  scan_undefined hc hn he

end

end Strftime
