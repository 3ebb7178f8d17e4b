import Mathlib
import Picolibc.Iconv.Charsets

namespace Iconv

open Ascii Multibyte Utf8

structure Reads (f : Mbtowc) (zero refuses : Bool) (Code : Mbstate → List UInt8 → Nat → Nat → Prop) :
    Prop where
  nonempty : ∀ {st w wc v}, Code st w wc v → w ≠ []
  whole : ∀ {st w wc v}, Code st w wc v → ∀ r : List UInt8, ∃ st' ret,
    f (w ++ r) (w ++ r).length st = ⟨st',ret,some wc⟩ ∧ st'.count = v ∧
      (ret = w.length ∨ ret = 0 ∧ wc = 0 ∧ zero = true)
  part : ∀ {st p q wc v}, Code st (p ++ q) wc v → p ≠ [] → q ≠ [] →
    (∃ st', f p p.length st = ⟨st',-2,none⟩ ∧ Code st' q wc v) ∨
      (f p p.length st = ⟨st,-1,none⟩ ∧ refuses = true)

structure Charset where
  mbtowc : Mbtowc
  wctomb : Wctomb
  zero : Bool
  refuses : Bool
  Code : Mbstate → List UInt8 → Nat → Nat → Prop
  reads : Reads mbtowc zero refuses Code
  fits : ∀ {wc st st' bs}, wctomb wc st = (st',some bs) → 0 < bs.length ∧ bs.length ≤ 8

def SingleCode (conv : UInt8 → Option Nat) (st : Mbstate) (w : List UInt8) (wc v : Nat) : Prop :=
  ∃ b, w = [b] ∧ conv b = some wc ∧ st.count = v

theorem single_reads {f : Mbtowc} {conv : UInt8 → Option Nat}
    (h : ∀ b r st wc, conv b = some wc →
      f (b :: r) (r.length + 1) st = ⟨st,if wc = 0 then 0 else 1,some wc⟩) :
    Reads f true false (SingleCode conv) where
  nonempty := by
    rintro st w wc v ⟨b,rfl,-,-⟩
    exact List.cons_ne_nil b []
  whole := by
    rintro st w wc v ⟨b,rfl,hb,hv⟩ r
    refine ⟨st,_,h b r st wc hb,hv,?_⟩
    by_cases hz : wc = 0
    · exact .inr ⟨if_pos hz,hz,rfl⟩
    · exact .inl (if_neg hz)
  part := by
    rintro st p q wc v ⟨b,hb,-,-⟩ hp hq
    rcases List.append_eq_singleton_iff.mp hb with ⟨h,-⟩ | ⟨-,h⟩
    · exact absurd h hp
    · exact absurd h hq

def asciiConv (b : UInt8) : Option Nat := if b.toNat < 0x80 then some b.toNat else none

theorem ascii_reads : Reads asciiMbtowc true false (SingleCode asciiConv) := by
  apply single_reads
  intro b r st wc hb
  unfold asciiConv at hb
  split at hb
  · obtain rfl := Option.some.inj hb
    simp only [asciiMbtowc,charAt_cons_zero]
    rw [if_neg (Nat.succ_ne_zero _),if_neg (by omega)]
  · exact absurd hb (by simp)

def tableConv (conv : Nat → Nat) (base : Nat) (b : UInt8) : Option Nat :=
  if base ≤ b.toNat then
    if conv (b.toNat - base) = 0 then none else some (conv (b.toNat - base))
  else some b.toNat

theorem table_reads {conv : Nat → Nat} {base : Nat} {f : Mbtowc}
    (hf : ∀ b r st, f (b :: r) (r.length + 1) st =
      if base ≤ b.toNat then
        if conv (b.toNat - base) = 0 then ⟨st,-1,some (conv (b.toNat - base))⟩
        else ⟨st,1,some (conv (b.toNat - base))⟩
      else ⟨st,if b.toNat = 0 then 0 else 1,some b.toNat⟩) :
    Reads f true false (SingleCode (tableConv conv base)) := by
  apply single_reads
  intro b r st wc hb
  rw [hf]
  unfold tableConv at hb
  split at hb
  · rename_i hbase
    rw [if_pos hbase]
    split at hb
    · exact absurd hb (by simp)
    · rename_i hz
      obtain rfl := Option.some.inj hb
      rw [if_neg hz,if_neg hz]
  · rename_i hbase
    obtain rfl := Option.some.inj hb
    rw [if_neg hbase]

def isoCodes (host : Host) (k : Nat) : UInt8 → Option Nat :=
  if k = 0 then fun b => some b.toNat else tableConv (host.isoConv (k - 1)) 0xa0

theorem iso_reads (host : Host) (k : Nat) : Reads (isoMbtowc host k) true false (SingleCode (isoCodes host k)) := by
  by_cases hk : k = 0
  · subst hk
    apply single_reads
    intro b r st wc hb
    obtain rfl := Option.some.inj hb
    simp only [isoMbtowc,charAt_cons_zero]
    rw [if_neg (Nat.succ_ne_zero _),if_neg (by omega)]
  · rw [isoCodes,if_neg hk]
    apply table_reads
    intro b r st
    simp only [isoMbtowc,charAt_cons_zero]
    rw [if_neg (Nat.succ_ne_zero _)]
    by_cases hb : 0xa0 ≤ b.toNat
    · rw [if_pos ⟨hb,Nat.pos_of_ne_zero hk⟩,if_pos hb]
    · rw [if_neg (fun h => hb h.1),if_neg hb]

theorem cp_reads (host : Host) (k : Nat) :
    Reads (cpMbtowc host k) true false (SingleCode (tableConv (host.cpConv k) 0x80)) := by
  apply table_reads
  intro b r st
  simp only [cpMbtowc,charAt_cons_zero]
  rw [if_neg (Nat.succ_ne_zero _)]

def UcsCode (width : Nat) (big : Bool) (st : Mbstate) (w : List UInt8) (wc v : Nat) : Prop :=
  w.length = width ∧ ucsValue big w = wc ∧ st.count = v

theorem ucs_reads {width : Nat} (hw : 0 < width) (big : Bool) :
    Reads (ucsMbtowc width big) false true (UcsCode width big) where
  nonempty := by
    rintro st w wc v ⟨hl,-,-⟩
    exact List.length_pos_iff.mp (hl ▸ hw)
  whole := by
    rintro st w wc v ⟨rfl,rfl,hv⟩ r
    refine ⟨st,w.length,?_,hv,.inl rfl⟩
    rw [ucsMbtowc,if_neg (by simp),List.take_left]
  part := by
    rintro st p q wc v ⟨hl,-,-⟩ hp hq
    right
    have hq' := List.length_pos_iff.mpr hq
    rw [List.length_append] at hl
    exact ⟨by rw [ucsMbtowc,if_pos (by omega)],rfl⟩

def Utf8Code (st : Mbstate) (w : List UInt8) (wc v : Nat) : Prop :=
  ∃ p c, Holds st p ∧ encode c = p ++ w ∧ w ≠ [] ∧ wc = c.toNat ∧ v = 0

theorem mbtowc_of_mbrtowc {s : List UInt8} {n : Nat} {st : Mbstate} {r : Conv}
    (h : mbrtowc (some s) n st = ⟨r,false⟩) : utf8Mbtowc s n st = r := by
  unfold mbrtowc at h
  dsimp only at h
  split at h
  · simp at h
  · exact (Result.mk.inj h).1

theorem utf8_reads : Reads utf8Mbtowc true false Utf8Code where
  nonempty := by
    rintro st w wc v ⟨p,c,-,-,hw,-⟩
    exact hw
  whole := by
    rintro st w wc v ⟨p,c,hp,he,hw,rfl,rfl⟩ r
    have hn : w.length ≤ (w ++ r).length := by simp
    obtain ⟨st',hr,hc⟩ := mbrtowc_take r hp he hw hn
    refine ⟨st',_,mbtowc_of_mbrtowc hr,hc,?_⟩
    by_cases hz : c.toNat = 0
    · exact .inr ⟨if_pos hz,hz,rfl⟩
    · exact .inl (if_neg hz)
  part := by
    rintro st p q wc v ⟨h,c,hh,he,-,rfl,rfl⟩ hp hq
    left
    have hq' := List.length_pos_iff.mpr hq
    have hlen := congrArg List.length he
    rw [List.length_append,List.length_append] at hlen
    have hp' := List.length_pos_iff.mpr hp
    obtain ⟨st',hr,hh'⟩ := mbtowc_partial (show ({ st with count := 0 } : Mbstate).count = 0 from rfl) c
      (k := p.length + h.length) (by omega) (by omega) []
    have htake : (encode c).take (p.length + h.length) = h ++ p := by
      rw [he,← List.append_assoc,List.take_left' (by rw [List.length_append,Nat.add_comm])]
    rw [htake] at hr hh'
    rw [List.append_nil] at hr
    refine ⟨st',?_,h ++ p,c,hh',by rw [he,List.append_assoc],hq,rfl,rfl⟩
    rw [mbtowc_resume p hp' hh,hr]
    rfl

inductive SjisCode (host : Host) (st : Mbstate) : List UInt8 → Nat → Nat → Prop
  | nul : st.count = 0 → SjisCode host st [0] 0 0
  | one {b : UInt8} {wc : Nat} : st.count = 0 → isSjis1 b = false → isSjis1b b = true → b ≠ 0 →
      host.shiftJisToUnicode b.toNat = some wc → SjisCode host st [b] wc 0
  | two {a b : UInt8} {wc : Nat} : st.count = 0 → isSjis1 a = true → isSjis2 b = true →
      host.shiftJisToUnicode (a.toNat * 256 + b.toNat) = some wc → SjisCode host st [a,b] wc 0
  | second {b : UInt8} {wc : Nat} : st.count = 1 → isSjis2 b = true →
      host.shiftJisToUnicode (st.b0.toNat * 256 + b.toNat) = some wc → SjisCode host st [b] wc 0

theorem sjis_reads (host : Host) : Reads (sjisMbtowc host) true false (SjisCode host) where
  nonempty := by
    intro st w wc v h
    cases h <;> exact List.cons_ne_nil _ _
  whole := by
    intro st w wc v h r
    cases h with
    | nul hc =>
      exact ⟨st,0,by simp [sjisMbtowc,hc,isSjis1,isSjis1b],hc,.inr ⟨rfl,rfl,rfl⟩⟩
    | one hc h1 h2 hz ht =>
      exact ⟨{ st with count := 0 },1,by simp [sjisMbtowc,hc,h1,h2,hz,ht,lookedUp],rfl,.inl rfl⟩
    | @two a b wc hc h1 h2 ht =>
      exact ⟨{ st with count := 0, b0 := a },2,by simp [sjisMbtowc,sjisPair,hc,h1,h2,ht,lookedUp],rfl,.inl rfl⟩
    | second hc h2 ht =>
      exact ⟨{ st with count := 0 },1,by simp [sjisMbtowc,sjisPair,hc,h2,ht,lookedUp],rfl,.inl rfl⟩
  part := by
    intro st p q wc v h hp hq
    left
    obtain ⟨a,p,rfl⟩ := List.exists_cons_of_ne_nil hp
    obtain ⟨b,q,rfl⟩ := List.exists_cons_of_ne_nil hq
    generalize hw : a :: p ++ b :: q = w at h
    cases h with
    | nul hc => simp at hw
    | one hc h1 h2 hz ht => simp at hw
    | two hc h1 h2 ht =>
      rw [List.cons_append,List.cons.injEq] at hw
      obtain ⟨rfl,hw⟩ := hw
      cases p with
      | nil =>
        rw [List.nil_append,List.cons.injEq] at hw
        obtain ⟨rfl,rfl⟩ := hw
        exact ⟨{ st with count := 1, b0 := a },by simp [sjisMbtowc,hc,h1],.second rfl h2 ht⟩
      | cons x p => simp at hw
    | second hc h2 ht => simp at hw

inductive EucjpCode (host : Host) (st : Mbstate) : List UInt8 → Nat → Nat → Prop
  | nul : st.count = 0 → EucjpCode host st [0] 0 0
  | one {b : UInt8} {wc : Nat} : st.count = 0 → isEucjp1 b = false → b ≠ 0 →
      host.eucJpToUnicode b.toNat = some wc → EucjpCode host st [b] wc 0
  | two {a b : UInt8} {wc : Nat} : st.count = 0 → isEucjp1 a = true → a ≠ 0x8f → isEucjp2 b = true →
      host.eucJpToUnicode (a.toNat * 256 + b.toNat) = some wc → EucjpCode host st [a,b] wc 0
  | three {a b c : UInt8} {wc : Nat} : st.count = 0 → a = 0x8f → isEucjp2 b = true → isEucjp2 c = true →
      host.eucJpToUnicode ((a.toNat * 256 + b.toNat) * 256 + c.toNat) = some wc → EucjpCode host st [a,b,c] wc 0
  | second {b : UInt8} {wc : Nat} : st.count = 1 → st.b0 ≠ 0x8f → isEucjp2 b = true →
      host.eucJpToUnicode (st.b0.toNat * 256 + b.toNat) = some wc → EucjpCode host st [b] wc 0
  | tail {b c : UInt8} {wc : Nat} : st.count = 1 → st.b0 = 0x8f → isEucjp2 b = true → isEucjp2 c = true →
      host.eucJpToUnicode ((st.b0.toNat * 256 + b.toNat) * 256 + c.toNat) = some wc →
      EucjpCode host st [b,c] wc 0
  | third {c : UInt8} {wc : Nat} : st.count = 2 → isEucjp2 c = true →
      host.eucJpToUnicode ((st.b0.toNat * 256 + st.b1.toNat) * 256 + c.toNat) = some wc →
      EucjpCode host st [c] wc 0

theorem eucjp_reads (host : Host) : Reads (eucjpMbtowc host) true false (EucjpCode host) where
  nonempty := by
    intro st w wc v h
    cases h <;> exact List.cons_ne_nil _ _
  whole := by
    intro st w wc v h r
    cases h with
    | nul hc => exact ⟨st,0,by simp [eucjpMbtowc,hc,isEucjp1],hc,.inr ⟨rfl,rfl,rfl⟩⟩
    | one hc h1 hz ht =>
      exact ⟨{ st with count := 0 },1,by simp [eucjpMbtowc,hc,h1,hz,ht,lookedUp],rfl,.inl rfl⟩
    | @two a b wc hc h1 ha h2 ht =>
      exact ⟨{ st with count := 0, b0 := a },2,by simp [eucjpMbtowc,eucjpSecond,hc,h1,ha,h2,ht,lookedUp],rfl,
        .inl rfl⟩
    | @three a b c wc hc ha h2 h3 ht =>
      subst ha
      exact ⟨{ st with count := 0, b0 := 0x8f, b1 := b },3,by
        simp [eucjpMbtowc,eucjpSecond,eucjpThird,hc,isEucjp1,h2,h3,lookedUp] at ht ⊢
        rw [ht],rfl,.inl rfl⟩
    | second hc ha h2 ht =>
      exact ⟨{ st with count := 0 },1,by simp [eucjpMbtowc,eucjpSecond,hc,ha,h2,ht,lookedUp],rfl,.inl rfl⟩
    | @tail b c wc hc ha h2 h3 ht =>
      rw [ha] at ht
      exact ⟨{ st with count := 0, b1 := b },2,by
        simp [eucjpMbtowc,eucjpSecond,eucjpThird,hc,ha,h2,h3,lookedUp] at ht ⊢
        rw [ht],rfl,.inl rfl⟩
    | third hc h3 ht =>
      exact ⟨{ st with count := 0 },1,by simp [eucjpMbtowc,eucjpThird,hc,h3,ht,lookedUp],rfl,.inl rfl⟩
  part := by
    intro st p q wc v h hp hq
    left
    obtain ⟨a,p,rfl⟩ := List.exists_cons_of_ne_nil hp
    obtain ⟨b,q,rfl⟩ := List.exists_cons_of_ne_nil hq
    generalize hw : a :: p ++ b :: q = w at h
    cases h with
    | nul hc => simp at hw
    | one hc h1 hz ht => simp at hw
    | two hc h1 ha h2 ht =>
      rw [List.cons_append,List.cons.injEq] at hw
      obtain ⟨rfl,hw⟩ := hw
      cases p with
      | nil =>
        rw [List.nil_append,List.cons.injEq] at hw
        obtain ⟨rfl,rfl⟩ := hw
        exact ⟨{ st with count := 1, b0 := a },by simp [eucjpMbtowc,hc,h1],.second rfl ha h2 ht⟩
      | cons x p => simp at hw
    | three hc ha h2 h3 ht =>
      rw [List.cons_append,List.cons.injEq] at hw
      obtain ⟨rfl,hw⟩ := hw
      subst ha
      cases p with
      | nil =>
        rw [List.nil_append,List.cons.injEq] at hw
        obtain ⟨rfl,rfl⟩ := hw
        exact ⟨{ st with count := 1, b0 := 0x8f },by simp [eucjpMbtowc,hc,isEucjp1],.tail rfl rfl h2 h3 ht⟩
      | cons x p =>
        cases p with
        | nil =>
          rw [List.cons_append,List.cons.injEq,List.nil_append,List.cons.injEq] at hw
          obtain ⟨rfl,rfl,rfl⟩ := hw
          exact ⟨{ st with count := 2, b0 := 0x8f, b1 := x },by
            simp [eucjpMbtowc,eucjpSecond,hc,isEucjp1,h2],.third rfl h3 ht⟩
        | cons y p => simp at hw
    | second hc ha h2 ht => simp at hw
    | tail hc ha h2 h3 ht =>
      rw [List.cons_append,List.cons.injEq] at hw
      obtain ⟨rfl,hw⟩ := hw
      cases p with
      | nil =>
        rw [List.nil_append,List.cons.injEq] at hw
        obtain ⟨rfl,rfl⟩ := hw
        exact ⟨{ st with count := 2, b1 := a },by simp [eucjpMbtowc,eucjpSecond,hc,ha,h2],.third rfl h3 ht⟩
      | cons x p => simp at hw
    | third hc h3 ht => simp at hw

inductive JisMove : JisState → UInt8 → UInt8 → JisState → UInt8 → Prop
  | escape {b0 : UInt8} : JisMove .ascii b0 0x1b .aEsc b0
  | dollar {b0 : UInt8} : JisMove .aEsc b0 0x24 .aEscDl b0
  | toJis {b0 x : UInt8} : x = 0x40 ∨ x = 0x42 → JisMove .aEscDl b0 x .jis b0
  | first {b0 a : UInt8} : isJis a = true → JisMove .jis b0 a .jis1 a
  | leave {b0 : UInt8} : JisMove .jis b0 0x1b .jEsc b0
  | bracket {b0 : UInt8} : JisMove .jEsc b0 0x28 .jEscBr b0
  | toAscii {b0 x : UInt8} : x = 0x42 ∨ x = 0x4a → JisMove .jEscBr b0 x .ascii b0

inductive JisCode (host : Host) : JisState → UInt8 → List UInt8 → Nat → JisState → Prop
  | nul {b0 : UInt8} : JisCode host .ascii b0 [0] 0 .ascii
  | ascii {b0 c : UInt8} : c ≠ 0x1b → c ≠ 0 → JisCode host .ascii b0 [c] c.toNat .ascii
  | second {b0 c : UInt8} {wc : Nat} : isJis c = true →
      host.jisToUnicode (b0.toNat * 256 + c.toNat) = some wc → JisCode host .jis1 b0 [c] wc .jis
  | step {s s' v : JisState} {b0 b' c : UInt8} {w : List UInt8} {wc : Nat} : JisMove s b0 c s' b' →
      JisCode host s' b' w wc v → JisCode host s b0 (c :: w) wc v

theorem JisState.ofCode_code (s : JisState) : JisState.ofCode s.code = s := by
  cases s <;> rfl

theorem ascii_action {c : UInt8} (he : c ≠ 0x1b) (hz : c ≠ 0) : jisActionTable .ascii (jisCharType c) = .copyA := by
  unfold jisCharType
  rw [if_neg he,if_neg hz]
  split_ifs <;> rfl

theorem jis_actions {a : UInt8} (h : isJis a = true) : jisActionTable .jis (jisCharType a) = .copyJ1 ∧
    jisStateTable .jis (jisCharType a) = .jis1 ∧ jisActionTable .jis1 (jisCharType a) = .copyJ2 := by
  have he : a ≠ 0x1b := by
    rintro rfl
    exact absurd h (by decide)
  have hz : a ≠ 0 := by
    rintro rfl
    exact absurd h (by decide)
  unfold jisCharType
  rw [if_neg he,if_neg hz,if_pos h]
  split_ifs <;> exact ⟨rfl,rfl,rfl⟩

theorem jisLoop_move (host : Host) {s s' : JisState} {b0 b' c : UInt8} (h : JisMove s b0 c s' b')
    (t cs : List UInt8) (st : Mbstate) (i ptr : Nat) : ∃ ptr', (s' = .ascii → ptr' = i + 1) ∧
      jisLoop host t st (c :: cs) i s b0 ptr = jisLoop host t st cs (i + 1) s' b' ptr' := by
  cases h with
  | escape => exact ⟨ptr,nofun,rfl⟩
  | dollar => exact ⟨ptr,nofun,rfl⟩
  | toJis hx =>
    refine ⟨ptr,nofun,?_⟩
    rcases hx with rfl | rfl <;> rfl
  | first hj =>
    refine ⟨ptr,nofun,?_⟩
    simp only [jisLoop,jis_actions hj]
  | leave => exact ⟨ptr,nofun,rfl⟩
  | bracket => exact ⟨ptr,nofun,rfl⟩
  | toAscii hx =>
    refine ⟨i + 1,fun _ => rfl,?_⟩
    rcases hx with rfl | rfl <;> rfl

theorem jisLoop_whole {host : Host} {s v : JisState} {b0 : UInt8} {w : List UInt8} {wc : Nat}
    (h : JisCode host s b0 w wc v) (t r : List UInt8) (st : Mbstate) (i ptr : Nat) (ht : t.drop i = w ++ r)
    (hp : s = .ascii → ptr = i) : ∃ st' ret, jisLoop host t st (w ++ r) i s b0 ptr = ⟨st',ret,some wc⟩ ∧
      st'.count = v.code ∧ (ret = ((i + w.length : Nat) : Int) ∨ ret = 0 ∧ wc = 0) := by
  induction h generalizing i ptr with
  | nul => exact ⟨_,_,rfl,rfl,.inr ⟨rfl,rfl⟩⟩
  | @ascii b0 c he hz =>
    obtain rfl := hp rfl
    have hc : charAt t ptr = c := by
      have h := congrArg (fun l => l.head?.getD 0) ht
      simpa [charAt,List.head?_drop] using h
    refine ⟨{ st with count := 0, b0 := b0 },_,?_,rfl,.inl rfl⟩
    simp only [List.cons_append,List.nil_append,jisLoop,ascii_action he hz,hc]
    rfl
  | @second b0 c wc hj htab =>
    refine ⟨{ st with count := 1, b0 := b0 },_,?_,rfl,.inl rfl⟩
    simp only [List.cons_append,List.nil_append,jisLoop,jis_actions hj,htab,lookedUp]
    rfl
  | @step s s' v b0 b' c w wc hm hw ih =>
    have hd : t.drop (i + 1) = w ++ r := by
      rw [← List.drop_drop,ht]
      rfl
    obtain ⟨ptr',hptr,hmove⟩ := jisLoop_move host hm t (w ++ r) st i ptr
    obtain ⟨st',ret,h1,h2,h3⟩ := ih (i + 1) ptr' hd hptr
    refine ⟨st',ret,hmove.trans h1,h2,?_⟩
    rw [List.length_cons]
    omega

theorem jisLoop_part {host : Host} {v : JisState} {q : List UInt8} {wc : Nat} (hq : q ≠ []) (t p : List UInt8)
    (st : Mbstate) {s : JisState} {b0 : UInt8} (h : JisCode host s b0 (p ++ q) wc v) (i ptr : Nat) :
    ∃ s' b', jisLoop host t st p i s b0 ptr = ⟨{ st with count := s'.code, b0 := b' },-2,none⟩ ∧
      JisCode host s' b' q wc v := by
  induction p generalizing s b0 i ptr with
  | nil => exact ⟨s,b0,rfl,h⟩
  | cons c p ih =>
    have hne : p ++ q ≠ [] := fun he => hq (List.append_eq_nil_iff.mp he).2
    rw [List.cons_append] at h
    generalize hw : p ++ q = w at h hne
    cases h with
    | nul => exact absurd rfl hne
    | ascii => exact absurd rfl hne
    | second => exact absurd rfl hne
    | step hm hw' =>
      obtain ⟨ptr',-,hmove⟩ := jisLoop_move host hm t p st i ptr
      obtain ⟨s',b',h1,h2⟩ := ih (hw ▸ hw') (i + 1) ptr'
      exact ⟨s',b',hmove.trans h1,h2⟩

def JisText (host : Host) (st : Mbstate) (w : List UInt8) (wc v : Nat) : Prop :=
  ∃ s s', st.count = JisState.code s ∧ JisCode host s st.b0 w wc s' ∧ v = s'.code

theorem jis_reads (host : Host) : Reads (jisMbtowc host) true false (JisText host) where
  nonempty := by
    rintro st w wc v ⟨s,s',-,h,-⟩
    cases h <;> exact List.cons_ne_nil _ _
  whole := by
    rintro st w wc v ⟨s,s',hs,h,rfl⟩ r
    have hw : w ≠ [] := by
      cases h <;> exact List.cons_ne_nil _ _
    obtain ⟨st',ret,h1,h2,h3⟩ := jisLoop_whole h (w ++ r) r st 0 0 rfl (fun _ => rfl)
    refine ⟨st',ret,?_,h2,?_⟩
    · rw [jisMbtowc,if_neg (by simp [hw]),List.take_length,hs,JisState.ofCode_code]
      exact h1
    · rcases h3 with h3 | ⟨h3,hz⟩
      · exact .inl (by rw [h3,Nat.zero_add])
      · exact .inr ⟨h3,hz,rfl⟩
  part := by
    rintro st p q wc v ⟨s,s',hs,h,rfl⟩ hp hq
    left
    obtain ⟨s1,b1,h1,h2⟩ := jisLoop_part hq p p st h 0 0
    refine ⟨{ st with count := s1.code, b0 := b1 },?_,s1,s',rfl,h2,rfl⟩
    rw [jisMbtowc,if_neg (by simp [hp]),List.take_length,hs,JisState.ofCode_code]
    exact h1

theorem ascii_fits {wc : Nat} {st st' : Mbstate} {bs : List UInt8} (h : asciiWctomb wc st = (st',some bs)) :
    bs.length = 1 := by
  unfold asciiWctomb at h
  split at h
  · simp at h
  · obtain ⟨-,rfl⟩ := by simpa using h
    rfl

theorem ucs_fits {width : Nat} {big : Bool} {wc : Nat} {st st' : Mbstate} {bs : List UInt8}
    (h : ucsWctomb width big wc st = (st',some bs)) : bs.length = width := by
  unfold ucsWctomb at h
  split at h
  · simp at h
  · obtain ⟨-,rfl⟩ := by simpa using h
    unfold ucsBytes
    cases big <;> simp

theorem table_fits {conv : Nat → Nat} {max base count wc : Nat} {st st' : Mbstate} {bs : List UInt8}
    (h : tableWctomb conv max base count wc st = (st',some bs)) : bs.length = 1 := by
  unfold tableWctomb at h
  split_ifs at h
  · simp at h
  · obtain ⟨-,h⟩ := Prod.mk.inj h
    obtain ⟨mb,-,rfl⟩ := Option.map_eq_some_iff.mp h
    rfl
  · obtain ⟨-,rfl⟩ := by simpa using h
    rfl

theorem iso_fits {host : Host} {k wc : Nat} {st st' : Mbstate} {bs : List UInt8}
    (h : isoWctomb host k wc st = (st',some bs)) : bs.length = 1 := by
  unfold isoWctomb at h
  split at h
  · unfold iso1Wctomb at h
    split at h
    · simp at h
    · obtain ⟨-,rfl⟩ := by simpa using h
      rfl
  · exact table_fits h

theorem utf8_fits {wc : Nat} {bs : List UInt8} (h : utf8Wctomb wc = some bs) : 0 < bs.length ∧ bs.length ≤ 8 := by
  unfold utf8Wctomb at h
  split_ifs at h <;> (obtain rfl := Option.some.inj h; simp)

theorem sjis_fits {host : Host} {wc : Nat} {st st' : Mbstate} {bs : List UInt8}
    (h : sjisWctomb host wc st = (st',some bs)) : 0 < bs.length ∧ bs.length ≤ 8 := by
  unfold sjisWctomb at h
  cases hu : host.unicodeToShiftJis wc with
  | none => simp [hu] at h
  | some jischar =>
    simp only [hu,Prod.mk.injEq,Option.some.injEq] at h
    obtain ⟨-,rfl⟩ := h
    split <;> simp

theorem eucjp_fits {host : Host} {wc : Nat} {st st' : Mbstate} {bs : List UInt8}
    (h : eucjpWctomb host wc st = (st',some bs)) : 0 < bs.length ∧ bs.length ≤ 8 := by
  unfold eucjpWctomb at h
  cases hu : host.unicodeToEucJp wc with
  | none => simp [hu] at h
  | some jischar =>
    simp only [hu,Prod.mk.injEq,Option.some.injEq] at h
    obtain ⟨-,rfl⟩ := h
    split_ifs <;> simp

theorem jis_fits {host : Host} {wc : Nat} {st st' : Mbstate} {bs : List UInt8}
    (h : jisWctomb host wc st = (st',some bs)) : 0 < bs.length ∧ bs.length ≤ 8 := by
  unfold jisWctomb at h
  cases hu : host.unicodeToJis wc with
  | none => simp [hu] at h
  | some jischar =>
    simp only [hu] at h
    split_ifs at h <;>
    · obtain ⟨-,hb⟩ := Prod.mk.inj h
      obtain rfl := Option.some.inj hb
      simp

def ucsCharset (width : Nat) (hw : 0 < width ∧ width ≤ 8) (big : Bool) : Charset where
  mbtowc := ucsMbtowc width big
  wctomb := ucsWctomb width big
  zero := false
  refuses := true
  Code := UcsCode width big
  reads := ucs_reads hw.1 big
  fits := fun h => by rw [ucs_fits h]; exact hw

theorem ucs2_width : 0 < 2 ∧ 2 ≤ 8 := by decide

theorem ucs4_width : 0 < 4 ∧ 4 ≤ 8 := by decide

theorem one_fits {bs : List UInt8} (h : bs.length = 1) : 0 < bs.length ∧ bs.length ≤ 8 := by omega

def LocaleId.charset (host : Host) : LocaleId → Charset
  | .c => ⟨asciiMbtowc,asciiWctomb,true,false,_,ascii_reads,fun h => one_fits (ascii_fits h)⟩
  | .utf8 => ⟨utf8Mbtowc,fun wchar st => (st,utf8Wctomb wchar),true,false,_,utf8_reads,fun h => utf8_fits (Prod.mk.inj h).2⟩
  | .ucs2 => ucsCharset 2 ucs2_width host.bigEndian
  | .ucs2le => ucsCharset 2 ucs2_width false
  | .ucs2be => ucsCharset 2 ucs2_width true
  | .ucs4 => ucsCharset 4 ucs4_width host.bigEndian
  | .ucs4le => ucsCharset 4 ucs4_width false
  | .ucs4be => ucsCharset 4 ucs4_width true
  | .iso8859 k => ⟨isoMbtowc host k,isoWctomb host k,true,false,_,iso_reads host k,fun h => one_fits (iso_fits h)⟩
  | .cp k => ⟨cpMbtowc host k,cpWctomb host k,true,false,_,cp_reads host k,fun h => one_fits (table_fits h)⟩
  | .jis => ⟨jisMbtowc host,jisWctomb host,true,false,_,jis_reads host,fun h => jis_fits h⟩
  | .eucjp => ⟨eucjpMbtowc host,eucjpWctomb host,true,false,_,eucjp_reads host,fun h => eucjp_fits h⟩
  | .sjis => ⟨sjisMbtowc host,sjisWctomb host,true,false,_,sjis_reads host,fun h => sjis_fits h⟩

theorem charset_mbtowc (host : Host) (id : LocaleId) : (id.charset host).mbtowc = id.getMbtowc host := by
  cases id <;> rfl

theorem charset_wctomb (host : Host) (id : LocaleId) : (id.charset host).wctomb = id.getWctomb host := by
  cases id <;> rfl

end Iconv
