import Mathlib
import Picolibc.Multibyte.Resume

namespace Multibyte

open Utf8

theorem mask_div (w m k i : Nat) (hm : m >>> k = 2 ^ i - 1) : (w &&& m) >>> k = w / 2 ^ k % 2 ^ i := by
  rw [Nat.shiftRight_and_distrib,hm,Nat.and_two_pow_sub_one_eq_mod,Nat.shiftRight_eq_div_pow]

theorem or_lead (z x k : Nat) (hz : z = x * 2 ^ k) {y : Nat} (h : y < 2 ^ k) : z ||| y = y + z := by
  rw [hz,← Nat.shiftLeft_eq,shl_or x k h,Nat.add_comm,Nat.shiftLeft_eq]

theorem wctomb_encode (c : Char) : utf8Wctomb c.toNat = some (encode c) := by
  have hc := toNat_valid c
  have hv : c.val.toNat = c.toNat := rfl
  have hlow : 0x80 ||| (c.toNat &&& 0x3f) = c.toNat % 64 + 0x80 := by
    rw [Nat.and_two_pow_sub_one_eq_mod c.toNat 6,or_lead 0x80 2 6 rfl (by omega)]
  have hmid : 0x80 ||| ((c.toNat &&& 0xfc0) >>> 6) = c.toNat / 64 % 64 + 0x80 := by
    rw [mask_div c.toNat 0xfc0 6 6 rfl,or_lead 0x80 2 6 rfl (by omega)]
    rfl
  unfold utf8Wctomb
  simp only [encode,String.utf8EncodeChar,hv]
  by_cases h1 : c.toNat ≤ 0x7f
  · rw [if_pos h1,if_pos h1]
  rw [if_neg h1,if_neg h1]
  by_cases h2 : c.toNat ≤ 0x7ff
  · rw [if_pos (by omega),if_pos h2,hlow,mask_div c.toNat 0x7c0 6 5 rfl,or_lead 0xc0 6 5 rfl (by omega)]
    rfl
  rw [if_neg (by omega),if_neg h2]
  by_cases h3 : c.toNat ≤ 0xffff
  · rw [if_pos (by omega),if_neg (by omega),if_pos h3,hlow,hmid,mask_div c.toNat 0xf000 12 4 rfl,
      or_lead 0xe0 14 4 rfl (by omega)]
    rfl
  · rw [if_neg (by omega),if_pos (by omega),if_neg h3,hlow,hmid,mask_div c.toNat 0x1c0000 18 3 rfl,
      mask_div c.toNat 0x3f000 12 6 rfl,or_lead 0xf0 30 3 rfl (by omega),or_lead 0x80 2 6 rfl (by omega)]
    rfl

theorem encode_cancel {c d : Char} {q r : List UInt8} (h : encode c ++ q = encode d ++ r) :
    c = d ∧ q = r := by
  obtain ⟨st,hc,-⟩ := mbtowc_complete (show Mbstate.initial.count = 0 from rfl) c q
    (n := (encode c).length + (encode d).length) (by omega)
  obtain ⟨st',hd,-⟩ := mbtowc_complete (show Mbstate.initial.count = 0 from rfl) d r
    (n := (encode c).length + (encode d).length) (by omega)
  rw [h] at hc
  have hw := Option.some.inj (congrArg Conv.wc (hc.symm.trans hd))
  obtain rfl : c = d := Char.toNat_inj.mp hw
  exact ⟨rfl,List.append_cancel_left h⟩

theorem encodeAll_prefix {cs ds : List Char} {u t : List UInt8} (h : encodeAll cs ++ u = encodeAll ds ++ t)
    (ht : ∀ c, ¬encode c <+: t) : ∃ ds', ds = cs ++ ds' ∧ u = encodeAll ds' ++ t := by
  induction cs generalizing ds with
  | nil => exact ⟨ds,rfl,h⟩
  | cons c cs ih =>
    cases ds with
    | nil =>
      refine absurd ⟨encodeAll cs ++ u,?_⟩ (ht c)
      simpa [encodeAll] using h
    | cons d ds =>
      simp only [encodeAll,List.flatMap_cons,List.append_assoc] at h
      obtain ⟨rfl,h'⟩ := encode_cancel h
      obtain ⟨ds',rfl,hu⟩ := ih h'
      exact ⟨ds',rfl,hu⟩

structure Event where
  seen : List UInt8
  used : List UInt8
  ret : Int
  wc : Option Nat
  eilseq : Bool
  deriving DecidableEq, Repr

def feed : Nat → Mbstate → List UInt8 → List UInt8 → List Event × Option (Mbstate × List UInt8)
  | 0, st, p, _ => ([],some (st,p))
  | fuel + 1, st, p, s =>
    if s = [] then ([],some (st,p)) else
    let r := mbrtowc (some s) s.length st
    if r.conv.ret = -1 then ([⟨p ++ s,[],-1,r.conv.wc,r.eilseq⟩],none) else
    if r.conv.ret = -2 then ([⟨p ++ s,[],-2,r.conv.wc,r.eilseq⟩],some (r.conv.state,p ++ s)) else
    let k := if r.conv.ret = 0 then 1 else r.conv.ret.toNat
    let q := feed fuel r.conv.state [] (s.drop k)
    (⟨p ++ s,p ++ s.take k,r.conv.ret,r.conv.wc,r.eilseq⟩ :: q.1,q.2)

def decode : Mbstate → List UInt8 → List (List UInt8) → List Event
  | _, _, [] => []
  | st, p, chunk :: chunks =>
    let q := feed chunk.length st p chunk
    match q.2 with
    | none => q.1
    | some (st,p) => q.1 ++ decode st p chunks

structure Event.Sound (e : Event) : Prop where
  error : e.ret = -1 ↔ Hopeless e.seen
  partly : e.ret = -2 ↔ Incomplete e.seen
  errno : e.eilseq = true ↔ e.ret = -1
  reencode : ∀ w, e.wc = some w → utf8Wctomb w = some e.used

def Decoded (chunks : List (List UInt8)) : Prop :=
  ∃ cs rest, chunks.flatten = encodeAll cs ++ rest ∧
    (∀ ds, encodeAll ds <+: chunks.flatten → ds <+: cs) ∧
    (decode .initial [] chunks).filterMap Event.wc = cs.map Char.toNat ∧
    ((∃ e ∈ decode .initial [] chunks, e.ret = -1) ↔ Hopeless rest) ∧
    ∀ e ∈ decode .initial [] chunks, e.Sound

def LateFree (p : List UInt8) (chunks : List (List UInt8)) : Prop :=
  ∀ pre, pre <+: chunks → pre.flatten ≠ [] → ∀ ds t, p ++ pre.flatten = encodeAll ds ++ t → ¬Late t

structure Pending (st : Mbstate) (p : List UInt8) : Prop where
  holds : Holds st p
  kind : p = [] ∨ Incomplete p ∨ Late p

theorem nil_not_hopeless : ¬Hopeless [] := fun h => (h 'a').2 List.nil_prefix

theorem prefix_not_incomplete {c : Char} {l : List UInt8} (h : encode c <+: l) : ¬Incomplete l := by
  intro hi
  have hl : l ≠ [] := by
    rintro rfl
    exact encode_ne_nil c (List.prefix_nil.mp h)
  have h1 := mbtowc_prefix (show Mbstate.initial.count = 0 from rfl) h
  have h2 := mbtowc_incomplete (show Mbstate.initial.count = 0 from rfl) hl hi
  omega

theorem late_of_hopeless {t r : List UInt8} (ht : Late t) (hr : r <+: t) (hh : Hopeless r) : r = t := by
  rcases ht with rfl | ⟨b,h1,h2,rfl⟩
  · rcases List.prefix_cons_iff.mp hr with rfl | ⟨r',rfl,hr'⟩
    · exact absurd hh nil_not_hopeless
    · rw [List.prefix_nil.mp hr']
  · rcases List.prefix_cons_iff.mp hr with rfl | ⟨r',rfl,hr'⟩
    · exact absurd hh nil_not_hopeless
    · rcases List.prefix_cons_iff.mp hr' with rfl | ⟨r'',rfl,hr''⟩
      · obtain ⟨c,hc,-⟩ := char_three (a := 0xed) (b := 0x80) (d := 0x80) (by decide) (by decide)
          (by unfold Tail; decide) (by unfold Tail; decide) (by decide) (by decide)
        exact absurd ⟨[0x80,0x80],hc.symm⟩ (hh c).2
      · rw [List.prefix_nil.mp hr'']

theorem pending_no_char {st : Mbstate} {p : List UInt8} (hp : Holds st p) (c : Char) : ¬encode c <+: p := by
  rintro ⟨q,hq⟩
  exact holds_short hp c q hq

theorem pending_hopeless {st : Mbstate} {p : List UInt8} (hp : Pending st p) (h : Hopeless p) : Late p := by
  rcases hp.kind with rfl | hi | hl
  · exact absurd h nil_not_hopeless
  · exact absurd hi (hopeless_not_incomplete h)
  · exact hl

theorem nil_not_late : ¬Late [] := by
  rintro (h | ⟨b,-,-,h⟩) <;> cases h

inductive Fed (p s : List UInt8) (cs : List Char) (q : List Event × Option (Mbstate × List UInt8)) : Prop
  | failed (rest : List UInt8) (hq : q.2 = none) (he : p ++ s = encodeAll cs ++ rest)
      (hh : Hopeless rest) (hl : ¬Late rest) (hr : ∃ e ∈ q.1, e.ret = -1) (hs : ∀ e ∈ q.1, e.Sound)
  | waiting (st : Mbstate) (t : List UInt8) (hq : q.2 = some (st,t)) (hp : Pending st t)
      (he : p ++ s = encodeAll cs ++ t) (hr : ∀ e ∈ q.1, e.ret ≠ -1)
      (hs : (∀ e ∈ q.1, e.Sound) ↔ (s ≠ [] → ¬Late t))

theorem sound_takes {p s : List UInt8} {c : Char} {k : Nat} {n : Int} (he : encode c = p ++ s.take k)
    (hn : 0 ≤ n) : Event.Sound ⟨p ++ s,p ++ s.take k,n,some c.toNat,false⟩ := by
  have hpre : encode c <+: p ++ s := by
    refine ⟨s.drop k,?_⟩
    rw [he,List.append_assoc,List.take_append_drop]
  constructor
  · dsimp only
    constructor
    · omega
    · intro hh
      exact absurd hpre (hh c).1
  · dsimp only
    constructor
    · omega
    · intro hi
      exact absurd hi (prefix_not_incomplete hpre)
  · dsimp only
    constructor
    · intro h
      cases h
    · omega
  · intro w hw
    obtain rfl := Option.some.inj hw
    rw [wctomb_encode c,he]

theorem feed_spec (fuel : Nat) {st : Mbstate} {p s : List UInt8} (hp : Pending st p) (hl : s.length ≤ fuel) :
    ∃ cs : List Char, (feed fuel st p s).1.filterMap Event.wc = cs.map Char.toNat ∧
      Fed p s cs (feed fuel st p s) := by
  induction fuel generalizing st p s with
  | zero =>
    obtain rfl : s = [] := List.eq_nil_of_length_eq_zero (by omega)
    refine ⟨[],rfl,.waiting st p rfl hp (by simp [encodeAll]) (by simp [feed]) ?_⟩
    simp [feed]
  | succ fuel ih =>
    rw [feed]
    by_cases hs : s = []
    · subst hs
      rw [if_pos rfl]
      refine ⟨[],rfl,.waiting st p rfl hp (by simp [encodeAll]) (by simp) ?_⟩
      simp
    rw [if_neg hs]
    dsimp only
    cases mbrtowc_answers hp.holds hs with
    | takes c k hk hks he hr hw hst hq =>
      have hpos : 0 ≤ (mbrtowc (some s) s.length st).conv.ret := by
        rw [hr]
        split_ifs <;> omega
      have hkk : (if (mbrtowc (some s) s.length st).conv.ret = 0 then 1 else
          (mbrtowc (some s) s.length st).conv.ret.toNat) = k := by
        rw [hr]
        by_cases hz : c.toNat = 0
        · have hlen := congrArg List.length he
          cases shape c with
          | one hc _ _ =>
            rw [hc] at hlen
            simp only [List.length_append,List.length_take,List.length_cons,List.length_nil] at hlen
            simp only [hz,if_true]
            omega
          | two _ _ _ h _ => omega
          | three _ _ _ _ h _ => omega
          | four _ _ _ _ _ h => omega
        · simp only [hz,if_false]
          rw [if_neg (by omega),Int.toNat_natCast]
      rw [if_neg (by omega),if_neg (by omega),hkk]
      have hsound := sound_takes (n := (mbrtowc (some s) s.length st).conv.ret) he hpos
      rw [← hw,← hq] at hsound
      have hnext : Pending (mbrtowc (some s) s.length st).conv.state [] := ⟨.none hst,.inl rfl⟩
      have hless : (s.drop k).length ≤ fuel := by
        rw [List.length_drop]
        omega
      obtain ⟨cs,hcs,hf⟩ := ih hnext hless
      have hsplit : ∀ t, s.drop k = encodeAll cs ++ t → p ++ s = encodeAll (c :: cs) ++ t := by
        intro t ht
        simp only [encodeAll,List.flatMap_cons,List.append_assoc]
        rw [← ht,he,List.append_assoc,List.take_append_drop]
      refine ⟨c :: cs,?_,?_⟩
      · simp only [List.filterMap_cons,hw,hcs,List.map_cons]
      cases hf with
      | failed rest hq' he' hh hlate hr' hs' =>
        refine .failed rest hq' (hsplit rest he') hh hlate ?_ ?_
        · obtain ⟨e,hmem,her⟩ := hr'
          exact ⟨e,List.mem_cons_of_mem _ hmem,her⟩
        · intro e hmem
          rcases List.mem_cons.mp hmem with rfl | hmem
          · exact hsound
          · exact hs' e hmem
      | waiting st' t hq' hp' he' hr' hs' =>
        refine .waiting st' t hq' hp' (hsplit t he') ?_ ?_
        · intro e hmem
          rcases List.mem_cons.mp hmem with rfl | hmem
          · dsimp only
            omega
          · exact hr' e hmem
        · have ht : (s.drop k ≠ [] → ¬Late t) ↔ ¬Late t := by
            constructor
            · intro h hlate
              refine h ?_ hlate
              intro hd
              rw [hd,List.nil_append] at he'
              rw [(List.append_eq_nil_iff.mp he'.symm).2] at hlate
              exact nil_not_late hlate
            · exact fun h _ => h
          rw [ht] at hs'
          rw [List.forall_mem_cons,hs']
          exact ⟨fun h _ => h.2,fun h => ⟨hsound,h hs⟩⟩
    | waits hr hw hst hi hq =>
      rw [if_neg (by omega),if_pos hr,hw,hq]
      refine ⟨[],rfl,.waiting _ _ rfl ⟨hst,.inr hi⟩ rfl (by simp) ?_⟩
      simp only [List.forall_mem_singleton]
      constructor
      · intro h _ hlate
        exact hopeless_not_incomplete (late_hopeless hlate) (h.partly.mp rfl)
      · intro h
        have hinc := hi.resolve_right (h hs)
        refine ⟨?_,⟨fun _ => hinc,fun _ => rfl⟩,by simp,by simp⟩
        constructor
        · intro h1
          cases h1
        · intro hh
          exact absurd hinc (hopeless_not_incomplete hh)
    | fails hr hw hh hlate hq =>
      rw [if_pos hr,hw,hq]
      refine ⟨[],rfl,.failed _ rfl rfl hh hlate ⟨_,List.mem_singleton_self _,rfl⟩ ?_⟩
      simp only [List.forall_mem_singleton]
      refine ⟨⟨fun _ => hh,fun _ => rfl⟩,?_,by simp,by simp⟩
      constructor
      · intro h1
        cases h1
      · intro hinc
        exact absurd hinc (hopeless_not_incomplete hh)

theorem lateFree_cons {p chunk t : List UInt8} {chunks : List (List UInt8)} {cs : List Char} {st : Mbstate}
    (he : p ++ chunk = encodeAll cs ++ t) (ht : Holds st t) :
    LateFree p (chunk :: chunks) ↔ (chunk ≠ [] → ¬Late t) ∧ LateFree t chunks := by
  constructor
  · intro h
    constructor
    · intro hne
      refine h [chunk] (by simp) (by simpa using hne) cs t ?_
      simpa using he
    · intro pre hpre hne ds u hu
      refine h (chunk :: pre) (List.cons_prefix_cons.mpr ⟨rfl,hpre⟩) ?_ (cs ++ ds) u ?_
      · simp [hne]
      · rw [List.flatten_cons,← List.append_assoc,he,List.append_assoc,hu]
        simp [encodeAll]
  · rintro ⟨h1,h2⟩ pre hpre hne ds u hu hlate
    cases pre with
    | nil => exact hne rfl
    | cons x pre =>
      obtain ⟨rfl,hpre'⟩ := List.cons_prefix_cons.mp hpre
      rw [List.flatten_cons,← List.append_assoc,he,List.append_assoc] at hu
      obtain ⟨ds',rfl,hu'⟩ := encodeAll_prefix hu (fun c => (late_hopeless hlate c).1)
      by_cases hnil : pre.flatten = []
      · rw [hnil,List.append_nil] at hu'
        cases ds' with
        | nil =>
          rw [hu'] at h1
          refine h1 ?_ hlate
          rintro rfl
          rw [List.flatten_cons,hnil] at hne
          exact hne rfl
        | cons d ds' =>
          refine pending_no_char ht d ⟨encodeAll ds' ++ u,?_⟩
          rw [hu']
          simp [encodeAll]
      · exact h2 pre hpre' hnil ds' u hu' hlate

theorem hopeless_append {l : List UInt8} (h : Hopeless l) (s : List UInt8) : Hopeless (l ++ s) := by
  intro c
  constructor
  · intro hc
    rcases List.prefix_or_prefix_of_prefix hc (List.prefix_append l s) with h' | h'
    · exact (h c).1 h'
    · exact (h c).2 h'
  · intro hc
    exact (h c).2 ((List.prefix_append l s).trans hc)

theorem lateFree_failed {p chunk rest : List UInt8} {chunks : List (List UInt8)} {cs : List Char}
    (he : p ++ chunk = encodeAll cs ++ rest) (hh : Hopeless rest) (hl : ¬Late rest) :
    LateFree p (chunk :: chunks) := by
  intro pre hpre hne ds u hu hlate
  cases pre with
  | nil => exact hne rfl
  | cons x pre =>
    obtain ⟨rfl,-⟩ := List.cons_prefix_cons.mp hpre
    rw [List.flatten_cons,← List.append_assoc,he,List.append_assoc] at hu
    obtain ⟨ds',rfl,hu'⟩ := encodeAll_prefix hu (fun c => (late_hopeless hlate c).1)
    cases ds' with
    | nil => exact hl (late_of_hopeless hlate ⟨_,hu'⟩ hh ▸ hlate)
    | cons d ds' =>
      refine (hopeless_append hh pre.flatten d).1 ?_
      rw [hu']
      simp [encodeAll]

theorem decode_spec (chunks : List (List UInt8)) {st : Mbstate} {p : List UInt8} (hp : Pending st p) :
    ∃ cs rest, p ++ chunks.flatten = encodeAll cs ++ rest ∧ (∀ c, ¬encode c <+: rest) ∧
      (decode st p chunks).filterMap Event.wc = cs.map Char.toNat ∧
      ((∃ e ∈ decode st p chunks, e.ret = -1) ↔ Hopeless rest ∧ ¬Late rest) ∧
      ((∀ e ∈ decode st p chunks, e.Sound) ↔ LateFree p chunks) := by
  induction chunks generalizing st p with
  | nil =>
    refine ⟨[],p,by simp [encodeAll],pending_no_char hp.holds,rfl,?_,?_⟩
    · constructor
      · rintro ⟨e,he,-⟩
        cases he
      · rintro ⟨hh,hl⟩
        exact absurd (pending_hopeless hp hh) hl
    · simp only [decode,List.not_mem_nil,false_imp_iff,implies_true,true_iff]
      intro pre hpre hne
      rw [List.prefix_nil.mp hpre] at hne
      exact absurd rfl hne
  | cons chunk chunks ih =>
    obtain ⟨cs,hcs,hf⟩ := feed_spec chunk.length hp (Nat.le_refl _)
    rw [decode]
    cases hf with
    | failed rest hq he hh hl hr hs =>
      rw [hq]
      refine ⟨cs,rest ++ chunks.flatten,?_,?_,hcs,?_,?_⟩
      · rw [List.flatten_cons,← List.append_assoc,he,List.append_assoc]
      · exact fun c => (hopeless_append hh _ c).1
      · have hlate : ¬Late (rest ++ chunks.flatten) := by
          intro h
          exact hl (late_of_hopeless h (List.prefix_append _ _) hh ▸ h)
        exact ⟨fun _ => ⟨hopeless_append hh _,hlate⟩,fun _ => hr⟩
      · exact ⟨fun _ => lateFree_failed he hh hl,fun _ => hs⟩
    | waiting st' t hq hp' he hr hs =>
      obtain ⟨ds,rest,he',hno,hds,herr,hsound⟩ := ih hp'
      rw [hq]
      refine ⟨cs ++ ds,rest,?_,hno,?_,?_,?_⟩
      · rw [List.flatten_cons,← List.append_assoc,he,List.append_assoc,he']
        simp [encodeAll]
      · simp only [List.filterMap_append,hcs,hds,List.map_append]
      · rw [← herr]
        constructor
        · rintro ⟨e,hmem,her⟩
          rcases List.mem_append.mp hmem with hmem | hmem
          · exact absurd her (hr e hmem)
          · exact ⟨e,hmem,her⟩
        · rintro ⟨e,hmem,her⟩
          exact ⟨e,List.mem_append_right _ hmem,her⟩
      · rw [lateFree_cons he hp'.holds,← hs,← hsound]
        exact List.forall_mem_append

theorem mbrtowc_decodes_iff (chunks : List (List UInt8)) : Decoded chunks ↔
    ∀ pre, pre <+: chunks → ∀ cs t, pre.flatten = encodeAll cs ++ t → ¬Late t := by
  obtain ⟨cs,rest,he,hno,hcs,herr,hsound⟩ := decode_spec chunks (show Pending .initial [] from ⟨.none rfl,.inl rfl⟩)
  rw [List.nil_append] at he
  constructor
  · rintro ⟨-,-,-,-,-,-,hs⟩ pre hpre ds t ht hlate
    by_cases hne : pre.flatten = []
    · rw [hne] at ht
      rw [(List.append_eq_nil_iff.mp ht.symm).2] at hlate
      exact nil_not_late hlate
    · exact hsound.mp hs pre hpre hne ds t ht hlate
  · intro h
    have hlate : ¬Late rest := h chunks List.prefix_rfl cs rest he
    refine ⟨cs,rest,he,?_,hcs,?_,?_⟩
    · rintro ds ⟨u,hu⟩
      obtain ⟨ds',rfl,-⟩ := encodeAll_prefix (hu.trans he) hno
      exact List.prefix_append _ _
    · rw [herr]
      exact ⟨fun h => h.1,fun h => ⟨h,hlate⟩⟩
    · exact hsound.mpr (fun pre hpre _ ds t ht => h pre hpre ds t ht)

theorem waiting_late_unsound {chunks : List (List UInt8)} {l : List UInt8} (hl : Late l)
    (h : ⟨l,[],-2,none,false⟩ ∈ decode .initial [] chunks) : ¬Decoded chunks := by
  rintro ⟨-,-,-,-,-,-,hs⟩
  exact hopeless_not_incomplete (late_hopeless hl) ((hs _ h).partly.mp rfl)

theorem late_lead_waits : decode .initial [] [[0xc1]] = [⟨[0xc1],[],-2,none,false⟩] ∧
    decode .initial [] [[0xed,0xa0]] = [⟨[0xed,0xa0],[],-2,none,false⟩] ∧
    Hopeless [0xc1] ∧ Hopeless [0xed,0xa0] ∧ ¬Decoded [[0xc1]] ∧ ¬Decoded [[0xed,0xa0]] := by
  have h1 : Late [0xc1] := .inl rfl
  have h2 : Late [0xed,0xa0] := .inr ⟨0xa0,by decide,by decide,rfl⟩
  have d1 : decode .initial [] [[0xc1]] = [⟨[0xc1],[],-2,none,false⟩] := by decide
  have d2 : decode .initial [] [[0xed,0xa0]] = [⟨[0xed,0xa0],[],-2,none,false⟩] := by decide
  refine ⟨d1,d2,late_hopeless h1,late_hopeless h2,?_,?_⟩
  · exact waiting_late_unsound h1 (by rw [d1]; exact List.mem_singleton_self _)
  · exact waiting_late_unsound h2 (by rw [d2]; exact List.mem_singleton_self _)

end Multibyte
