import Mathlib
import Picolibc.Lib.PrefixCode
import Picolibc.Multibyte.Chunks
import Picolibc.Multibyte.Uchar

namespace Multibyte

open Utf8 PrefixCode

def encode16 (c : Char) : List UInt16 :=
  if c.toNat < 0x10000 then [UInt16.ofNat c.toNat]
  else [UInt16.ofNat (0xd800 + (c.toNat - 0x10000) / 1024),UInt16.ofNat (0xdc00 + (c.toNat - 0x10000) % 1024)]

def feedUnits {α : Type} (f : α → Shared → Emit) : Shared → List α → Option (List UInt8 × Shared)
  | ps, [] => some ([],ps)
  | ps, u :: us =>
    let r := f u ps
    if r.ret = -1 then none
    else (feedUnits f r.state us).map fun (out,ps) => (r.out ++ out,ps)

theorem feedUnits_snoc {α : Type} (f : α → Shared → Emit) (us : List α) (u : α) {ps ps' : Shared}
    {out : List UInt8} (h : feedUnits f ps us = some (out,ps')) :
    feedUnits f ps (us ++ [u]) =
      if (f u ps').ret = -1 then none else some (out ++ (f u ps').out,(f u ps').state) := by
  induction us generalizing ps out with
  | nil =>
    cases h
    simp [feedUnits]
  | cons v us ih =>
    simp only [feedUnits] at h
    simp only [List.cons_append,feedUnits]
    split_ifs at h ⊢ with hv hu
    · obtain ⟨⟨out',ps''⟩,h',heq⟩ := Option.map_eq_some_iff.mp h
      cases heq
      rw [ih h',if_pos hu,Option.map_none]
    · obtain ⟨⟨out',ps''⟩,h',heq⟩ := Option.map_eq_some_iff.mp h
      cases heq
      rw [ih h',if_neg hu,Option.map_some,List.append_assoc]

inductive Took {α : Type} (enc : Char → List α) (Held : Shared → List α → Prop) (q : List α) (u : α)
    (r : Emit) : Prop
  | whole (c : Char) (he : q ++ [u] = enc c) (hr : r.ret = (encode c).length) (ho : r.out = encode c)
      (hs : Held r.state [])
  | part (hb : Begun enc (q ++ [u])) (hr : r.ret = 0) (ho : r.out = []) (hs : Held r.state (q ++ [u]))
  | bad (hd : ∀ c, ¬q ++ [u] <+: enc c) (hr : r.ret = -1) (ho : r.out = []) (he : r.eilseq = true)

structure Transducer {α : Type} (enc : Char → List α) (f : α → Shared → Emit) (bad : α → Prop)
    (Held : Shared → List α → Prop) : Prop where
  code : Code enc
  start : Held .initial []
  begun : ∀ {ps q}, Held ps q → Begun enc q
  step : ∀ {ps q}, Held ps q → ∀ u, (q = [] → ¬bad u) → Took enc Held q u (f u ps)
  late : ∀ {ps u}, Held ps [] → bad u → (∀ c, ¬[u] <+: enc c) ∧ (f u ps).ret = 0

def Stops {α : Type} (enc : Char → List α) (f : α → Shared → Emit) (us : List α) : Prop :=
  ∀ p u, p ++ [u] <+: us → Alive enc p → ∃ cs q ps, p = cs.flatMap enc ++ q ∧ Begun enc q ∧
    feedUnits f .initial p = some (encodeAll cs,ps) ∧
    (¬Alive enc (p ++ [u]) ↔ (f u ps).ret = -1) ∧
    (¬Alive enc (p ++ [u]) → (f u ps).out = [] ∧ (f u ps).eilseq = true)

section

variable {α : Type} {enc : Char → List α} {f : α → Shared → Emit} {bad : α → Prop}
  {Held : Shared → List α → Prop} (h : Transducer enc f bad Held)

include h

theorem Transducer.fed {p : List α} (hp : Alive enc p) : ∃ cs q ps, p = cs.flatMap enc ++ q ∧
    feedUnits f .initial p = some (encodeAll cs,ps) ∧ Held ps q := by
  induction p using List.reverseRecOn with
  | nil => exact ⟨[],[],.initial,rfl,rfl,h.start⟩
  | append_singleton p u ih =>
    obtain ⟨cs,q,ps,rfl,hf,hh⟩ := ih (alive_of_append hp)
    have hq := h.begun hh
    rw [List.append_assoc] at hp ⊢
    have hbad : q = [] → ¬bad u := by
      rintro rfl hu
      exact h.code.dead_snoc cs hq (h.late hh hu).1 hp
    have hsnoc := feedUnits_snoc f (cs.flatMap enc ++ q) u hf
    rw [List.append_assoc] at hsnoc
    cases h.step hh u hbad with
    | whole c he hr ho hs =>
      refine ⟨cs ++ [c],[],(f u ps).state,?_,?_,hs⟩
      · simp [he]
      · rw [hsnoc,if_neg (by omega),ho]
        simp
    | part hb hr ho hs =>
      refine ⟨cs,q ++ [u],(f u ps).state,rfl,?_,hs⟩
      rw [hsnoc,if_neg (by omega),ho,List.append_nil]
    | bad hd hr ho he =>
      exact absurd hp (h.code.dead_snoc cs hq hd)

theorem Transducer.writes (cs : List Char) :
    ∃ ps, feedUnits f .initial (cs.flatMap enc) = some (encodeAll cs,ps) ∧ Held ps [] := by
  obtain ⟨ds,q,ps,heq,hf,hh⟩ := h.fed (p := cs.flatMap enc) ⟨[],cs,List.append_nil _⟩
  obtain ⟨rfl,rfl⟩ := h.code.whole (h.begun hh) heq
  exact ⟨ps,hf,hh⟩

theorem Transducer.stops_iff (us : List α) :
    Stops enc f us ↔ ∀ (cs : List Char) u, bad u → ¬cs.flatMap enc ++ [u] <+: us := by
  constructor
  · intro hs cs u hu hp
    have halive : Alive enc (cs.flatMap enc) := ⟨[],cs,List.append_nil _⟩
    obtain ⟨ds,q,ps,heq,hq,hf,hret,-⟩ := hs _ u hp halive
    obtain ⟨ps',hf',hh⟩ := h.writes cs
    obtain rfl : ps' = ps := by
      rw [hf,Option.some.injEq,Prod.mk.injEq] at hf'
      exact hf'.2.symm
    have hlate := h.late hh hu
    have hdead : ¬Alive enc (cs.flatMap enc ++ [u]) := h.code.dead_snoc cs (h.begun hh) hlate.1
    have := hret.mp hdead
    omega
  · intro hgood p u hp halive
    obtain ⟨cs,q,ps,rfl,hf,hh⟩ := h.fed halive
    have hq := h.begun hh
    have hbad : q = [] → ¬bad u := by
      rintro rfl hu
      exact hgood cs u hu (by rwa [List.append_nil] at hp)
    refine ⟨cs,q,ps,rfl,hq,hf,?_⟩
    rw [List.append_assoc]
    cases h.step hh u hbad with
    | whole c he hr ho hs =>
      have hal := alive_snoc cs (q := q ++ [u]) ⟨c,by rw [he]⟩
      exact ⟨iff_of_false (fun hn => hn hal) (by omega),fun hn => absurd hal hn⟩
    | part hb hr ho hs =>
      obtain ⟨c,hc,-⟩ := hb
      have hal := alive_snoc cs ⟨c,hc⟩
      exact ⟨iff_of_false (fun hn => hn hal) (by omega),fun hn => absurd hal hn⟩
    | bad hd hr ho he =>
      exact ⟨iff_of_true (h.code.dead_snoc cs hq hd) hr,fun _ => ⟨ho,he⟩⟩

end

theorem ucs_setUcs (big : Bool) (ps : Shared) {v : Nat} (hv : v < 4294967296) :
    (ps.setUcs big v).ucs big = v := by
  cases big <;> simp [Shared.ucs,Shared.setUcs] <;> omega

theorem setUcs_count (big : Bool) (ps : Shared) (v : Nat) : (ps.setUcs big v).count = ps.count := by
  cases big <;> rfl

theorem lead_table (c8 : Fin 256) (h : 0xc2 ≤ c8.val) :
    (c8.val < 0xe0 → leadCount c8.val 6 1 = some 1 ∧
      (c8.val &&& ((1 <<< 5) - 1)) <<< 6 = (c8.val - 0xc0) * 64) ∧
    (0xe0 ≤ c8.val → c8.val < 0xf0 → leadCount c8.val 6 1 = some 2 ∧
      (c8.val &&& ((1 <<< 4) - 1)) <<< 12 = (c8.val - 0xe0) * 4096) ∧
    (0xf0 ≤ c8.val → c8.val < 0xf8 → leadCount c8.val 6 1 = some 3 ∧
      (c8.val &&& ((1 <<< 3) - 1)) <<< 18 = (c8.val - 0xf0) * 262144) ∧
    (0xf8 ≤ c8.val → c8.val < 0xfc → leadCount c8.val 6 1 = some 4 ∧
      (c8.val &&& ((1 <<< 2) - 1)) <<< 24 = (c8.val - 0xf8) * 16777216) ∧
    (0xfc ≤ c8.val → c8.val < 0xfe → leadCount c8.val 6 1 = some 5 ∧
      (c8.val &&& ((1 <<< 1) - 1)) <<< 30 = (c8.val - 0xfc) * 1073741824) ∧
    (0xfe ≤ c8.val → leadCount c8.val 6 1 = none) := by
  revert c8
  decide +kernel

theorem valid_iff (v : Nat) : char32IsValid v = true ↔ v < 0xd800 ∨ 0xdfff < v ∧ v < 0x110000 := by
  unfold char32IsValid char32IsSurrogate highSurrogateFirst lowSurrogateLast
  by_cases h1 : v ≤ 0x10ffff <;> by_cases h2 : 0xd800 ≤ v <;> by_cases h3 : v ≤ 0xdfff <;>
    simp only [h1,h2,h3,decide_true,decide_false,Bool.and_true,Bool.and_false,Bool.not_true,Bool.not_false] <;>
    simp <;> omega

theorem wcrtomb_char (c : Char) (ps : Shared) :
    wcrtomb true c.toNat ps = ⟨ps,(encode c).length,encode c,false⟩ := by
  rw [wcrtomb,if_pos rfl,wctomb_encode]
  rfl

section

variable {big : Bool} {ps : Shared} {u : UInt8}

theorem c8rtomb_busy (h0 : ps.count ≠ 0) (hu : u.toNat ≤ 0x7f ∨ 0xc0 ≤ u.toNat) :
    c8rtomb big true u ps = .fail ps := by
  unfold c8rtomb
  simp only [if_true]
  by_cases h1 : u.toNat ≤ 0x7f
  · rw [if_pos h1,if_pos h0]
  · rw [if_neg h1,if_pos (by omega),if_pos (.inl h0)]

theorem c8rtomb_ascii (h0 : ps.count = 0) (hu : u.toNat ≤ 0x7f) : c8rtomb big true u ps = wcrtomb true u.toNat ps := by
  unfold c8rtomb
  simp only [if_true]
  rw [if_pos hu,if_neg (not_not_intro h0)]

theorem c8rtomb_stray (h0 : ps.count = 0) (h1 : 0x80 ≤ u.toNat) (h2 : u.toNat ≤ 0xc1) :
    c8rtomb big true u ps = .fail ps := by
  unfold c8rtomb
  simp only [if_true]
  rw [if_neg (by omega)]
  by_cases h3 : 0xc0 ≤ u.toNat
  · rw [if_pos h3,if_pos (.inr h2)]
  · rw [if_neg h3,h0,if_pos (.inl rfl)]

theorem c8rtomb_lead (h0 : ps.count = 0) (h1 : 0xc2 ≤ u.toNat) {k v : Nat} (hk : leadCount u.toNat 6 1 = some k)
    (hv : (u.toNat &&& ((1 <<< (6 - k)) - 1)) <<< (6 * k) = v) :
    c8rtomb big true u ps = if char32IsValid v = false then .fail ps
      else ⟨{ ps.setUcs big v with count := -k },0,[],false⟩ := by
  unfold c8rtomb
  simp only [if_true]
  rw [if_neg (by omega),if_pos (by omega),if_neg (by omega),hk]
  simp only [hv]

theorem c8rtomb_tail {k x : Nat} (h0 : ps.count = -(k + 1 : Nat)) (h1 : Tail u)
    (hx : ps.ucs big = x * 2 ^ (6 * (k + 1))) (hz : x ≠ 0 ∨ 0x80 >>> (k + 1) ≤ u.toNat - 0x80) :
    c8rtomb big true u ps =
      let v := ps.ucs big + (u.toNat - 0x80) * 2 ^ (6 * k)
      if char32IsValid v = false then .fail ps
      else if k ≠ 0 then ⟨Shared.setUcs big { ps with count := -k } v,0,[],false⟩
      else wcrtomb true v { ps with count := -k } := by
  obtain ⟨h1,h2⟩ := h1
  have hmask : u.toNat &&& 0x3f = u.toNat - 0x80 := by
    rw [show 0x3f = 2 ^ 6 - 1 by rfl,Nat.and_two_pow_sub_one_eq_mod]
    omega
  have hcount : (-ps.count).toNat = k + 1 := by omega
  have hor : ps.ucs big ||| ((u.toNat - 0x80) <<< (6 * k)) = ps.ucs big + (u.toNat - 0x80) * 2 ^ (6 * k) := by
    rw [Nat.shiftLeft_eq,or_lead _ x (6 * (k + 1)) hx,Nat.add_comm]
    rw [show 6 * (k + 1) = 6 + 6 * k by omega,Nat.pow_add]
    exact Nat.mul_lt_mul_of_pos_right (by omega) (by positivity)
  have hfirst : ¬(k + 1 = 0 ∨ (ps.ucs big = 0 ∧ u.toNat - 0x80 < 0x80 >>> (k + 1))) := by
    rintro (h | ⟨h,h'⟩)
    · omega
    · rcases hz with hz | hz
      · rw [hx] at h
        have hp : 0 < 2 ^ (6 * (k + 1)) := by positivity
        exact hz ((Nat.mul_eq_zero.mp h).resolve_right hp.ne')
      · omega
  unfold c8rtomb
  simp only [if_true]
  rw [if_neg (by omega),if_neg (by omega),hcount,hmask,if_neg hfirst,Nat.add_sub_cancel,hor]

end

inductive Held8 (big : Bool) (ps : Shared) : List UInt8 → Prop
  | none (hc : ps.count = 0) : Held8 big ps []
  | two (a : UInt8) (hl : 0xc2 ≤ a.toNat) (hu : a.toNat ≤ 0xdf) (hc : ps.count = -1)
      (hv : ps.ucs big = (a.toNat - 0xc0) * 64) : Held8 big ps [a]
  | three (a : UInt8) (hl : 0xe0 ≤ a.toNat) (hu : a.toNat ≤ 0xef) (hc : ps.count = -2)
      (hv : ps.ucs big = (a.toNat - 0xe0) * 4096) : Held8 big ps [a]
  | third (a b : UInt8) (hl : 0xe0 ≤ a.toNat) (hu : a.toNat ≤ 0xef) (hb : Tail b)
      (hlo : a.toNat = 0xe0 → 0xa0 ≤ b.toNat) (hhi : a.toNat = 0xed → b.toNat < 0xa0) (hc : ps.count = -1)
      (hv : ps.ucs big = (a.toNat - 0xe0) * 4096 + (b.toNat - 0x80) * 64) : Held8 big ps [a,b]
  | four (a : UInt8) (hl : 0xf0 ≤ a.toNat) (hu : a.toNat ≤ 0xf4) (hc : ps.count = -3)
      (hv : ps.ucs big = (a.toNat - 0xf0) * 262144) : Held8 big ps [a]
  | fourth (a b : UInt8) (hl : 0xf0 ≤ a.toNat) (hu : a.toNat ≤ 0xf4) (hb : Tail b)
      (hlo : a.toNat = 0xf0 → 0x90 ≤ b.toNat) (hhi : a.toNat = 0xf4 → b.toNat < 0x90) (hc : ps.count = -2)
      (hv : ps.ucs big = (a.toNat - 0xf0) * 262144 + (b.toNat - 0x80) * 4096) : Held8 big ps [a,b]
  | last (a b d : UInt8) (hl : 0xf0 ≤ a.toNat) (hu : a.toNat ≤ 0xf4) (hb : Tail b)
      (hlo : a.toNat = 0xf0 → 0x90 ≤ b.toNat) (hhi : a.toNat = 0xf4 → b.toNat < 0x90) (hd : Tail d)
      (hc : ps.count = -1)
      (hv : ps.ucs big = (a.toNat - 0xf0) * 262144 + (b.toNat - 0x80) * 4096 + (d.toNat - 0x80) * 64) :
      Held8 big ps [a,b,d]

theorem begun_encode {c : Char} {q r : List UInt8} (h : encode c = q ++ r) (hr : r ≠ []) : Begun encode q := by
  refine ⟨c,⟨r,h.symm⟩,fun heq => hr ?_⟩
  rw [← heq] at h
  exact List.self_eq_append_right.mp h

theorem held8_begun {big : Bool} {ps : Shared} {q : List UInt8} (h : Held8 big ps q) : Begun encode q := by
  have hlow : Tail 0x80 := ⟨by decide,by decide⟩
  cases h with
  | none hc => exact begun_encode (c := 'a') (r := encode 'a') rfl (encode_ne_nil _)
  | two a hl hu hc hv =>
    obtain ⟨c,he,-⟩ := char_two hl hu hlow
    exact begun_encode he (List.cons_ne_nil _ _)
  | three a hl hu hc hv =>
    by_cases ha : a.toNat = 0xe0
    · obtain ⟨c,he,-⟩ := char_three (b := 0xa0) hl hu ⟨by decide,by decide⟩ hlow (fun _ => by decide) (by omega)
      exact begun_encode he (List.cons_ne_nil _ _)
    · obtain ⟨c,he,-⟩ := char_three hl hu hlow hlow (fun h => absurd h ha) (fun _ => by decide)
      exact begun_encode he (List.cons_ne_nil _ _)
  | third a b hl hu hb hlo hhi hc hv =>
    obtain ⟨c,he,-⟩ := char_three hl hu hb hlow hlo hhi
    exact begun_encode (q := [a,b]) he (List.cons_ne_nil _ _)
  | four a hl hu hc hv =>
    by_cases ha : a.toNat = 0xf0
    · obtain ⟨c,he,-⟩ := char_four (b := 0x90) hl hu ⟨by decide,by decide⟩ hlow hlow (fun _ => by decide)
        (by omega)
      exact begun_encode he (List.cons_ne_nil _ _)
    · obtain ⟨c,he,-⟩ := char_four hl hu hlow hlow hlow (fun h => absurd h ha) (fun _ => by decide)
      exact begun_encode he (List.cons_ne_nil _ _)
  | fourth a b hl hu hb hlo hhi hc hv =>
    obtain ⟨c,he,-⟩ := char_four hl hu hb hlow hlow hlo hhi
    exact begun_encode (q := [a,b]) he (List.cons_ne_nil _ _)
  | last a b d hl hu hb hlo hhi hd hc hv =>
    obtain ⟨c,he,-⟩ := char_four hl hu hb hd hlow hlo hhi
    exact begun_encode (q := [a,b,d]) he (List.cons_ne_nil _ _)

theorem prefix_one {c : Char} {u : UInt8} (h : [u] <+: encode c) :
    u.toNat ≤ 0x7f ∨ (0xc2 ≤ u.toNat ∧ u.toNat ≤ 0xf4) := by
  have hc := toNat_valid c
  cases shape c with
  | one he ha hv =>
    simp only [he,List.cons_prefix_cons] at h
    obtain ⟨rfl,-⟩ := h
    omega
  | two he ha hb hl hv =>
    simp only [he,List.cons_prefix_cons] at h
    obtain ⟨rfl,-⟩ := h
    omega
  | three he ha hb hd hl hv =>
    simp only [he,List.cons_prefix_cons] at h
    obtain ⟨rfl,-⟩ := h
    omega
  | four he ha hb hd he' hl =>
    simp only [he,List.cons_prefix_cons] at h
    obtain ⟨rfl,-⟩ := h
    omega

theorem prefix_two {c : Char} {a u : UInt8} (h : [a,u] <+: encode c) :
    Tail u ∧ 0xc2 ≤ a.toNat ∧ (a.toNat = 0xe0 → 0xa0 ≤ u.toNat) ∧ (a.toNat = 0xed → u.toNat < 0xa0) ∧
      (a.toNat = 0xf0 → 0x90 ≤ u.toNat) ∧ (a.toNat = 0xf4 → u.toNat < 0x90) := by
  have hc := toNat_valid c
  unfold Tail
  cases shape c with
  | one he ha hv => simp [he] at h
  | two he ha hb hl hv =>
    simp only [he,List.cons_prefix_cons] at h
    obtain ⟨rfl,rfl,-⟩ := h
    omega
  | three he ha hb hd hl hv =>
    simp only [he,List.cons_prefix_cons] at h
    obtain ⟨rfl,rfl,-⟩ := h
    omega
  | four he ha hb hd he' hl =>
    simp only [he,List.cons_prefix_cons] at h
    obtain ⟨rfl,rfl,-⟩ := h
    omega

theorem encode_tails (c : Char) : ∃ a t, encode c = a :: t ∧ ∀ b ∈ t, Tail b := by
  unfold Tail
  cases shape c with
  | one he ha hv => exact ⟨_,_,he,by simp⟩
  | two he ha hb hl hv =>
    refine ⟨_,_,he,?_⟩
    simp only [List.mem_cons,List.not_mem_nil,or_false,forall_eq]
    omega
  | three he ha hb hd hl hv =>
    refine ⟨_,_,he,?_⟩
    simp only [List.mem_cons,List.not_mem_nil,or_false,forall_eq_or_imp,forall_eq]
    omega
  | four he ha hb hd he' hl =>
    refine ⟨_,_,he,?_⟩
    simp only [List.mem_cons,List.not_mem_nil,or_false,forall_eq_or_imp,forall_eq]
    omega

theorem prefix_tail {c : Char} {a u : UInt8} {q : List UInt8} (h : a :: q ++ [u] <+: encode c) : Tail u := by
  obtain ⟨a',t,he,ht⟩ := encode_tails c
  rw [he,List.cons_append,List.cons_prefix_cons] at h
  exact ht u (h.2.subset (by simp))

section

variable {α : Type} {enc : Char → List α} {Held : Shared → List α → Prop} {q : List α} {u : α} {ps : Shared}
  {r : Emit}

theorem took_fail (hd : ∀ c, ¬q ++ [u] <+: enc c) (hr : r = .fail ps) : Took enc Held q u r := by
  rw [hr]
  exact .bad hd rfl rfl rfl

theorem took_whole {c : Char} {v : Nat} (he : enc c = q ++ [u]) (hv : c.toNat = v)
    (hr : r = wcrtomb true v ps) (hs : Held ps []) : Took enc Held q u r := by
  rw [hr,← hv,wcrtomb_char]
  exact .whole c he.symm rfl rfl hs

theorem took_part (hb : Begun enc (q ++ [u])) (hs : Held ps (q ++ [u])) (hr : r = ⟨ps,0,[],false⟩) :
    Took enc Held q u r := by
  rw [hr]
  exact .part hb rfl rfl hs

end

section

variable {big : Bool} {ps : Shared} {q : List UInt8} {u : UInt8}

theorem valid_false {v : Nat} (h : (0xd800 ≤ v ∧ v ≤ 0xdfff) ∨ 0x110000 ≤ v) : char32IsValid v = false := by
  rw [← Bool.not_eq_true,valid_iff]
  omega

theorem valid_true {v : Nat} (h : v < 0xd800 ∨ 0xdfff < v ∧ v < 0x110000) : ¬char32IsValid v = false := by
  rw [Bool.not_eq_false,valid_iff]
  exact h

theorem c8rtomb_none (h0 : ps.count = 0) (h1 : 0xfe ≤ u.toNat) : c8rtomb big true u ps = .fail ps := by
  obtain ⟨-,-,-,-,-,h⟩ := lead_table ⟨u.toNat,u.toNat_lt⟩ (by dsimp only; omega)
  unfold c8rtomb
  simp only [if_true]
  rw [if_neg (by omega),if_pos (by omega),if_neg (by omega),h h1]

theorem c8rtomb_overlong {k : Nat} (h0 : ps.count = -(k + 1 : Nat)) (h1 : Tail u) (hz : ps.ucs big = 0)
    (hu : u.toNat - 0x80 < 0x80 >>> (k + 1)) : c8rtomb big true u ps = .fail ps := by
  obtain ⟨h1,h2⟩ := h1
  have hcount : (-ps.count).toNat = k + 1 := by omega
  have hmask : u.toNat &&& 0x3f = u.toNat - 0x80 := by
    rw [show 0x3f = 2 ^ 6 - 1 by rfl,Nat.and_two_pow_sub_one_eq_mod]
    omega
  unfold c8rtomb
  simp only [if_true]
  rw [if_neg (by omega),if_neg (by omega),hcount,hmask,if_pos (.inr ⟨hz,hu⟩)]

theorem step_none (h0 : ps.count = 0) (hbad : ¬(u.toNat = 0xf8 ∨ u.toNat = 0xfc)) :
    Took encode (Held8 big) [] u (c8rtomb big true u ps) := by
  have hlt := u.toNat_lt
  by_cases h7 : u.toNat ≤ 0x7f
  · obtain ⟨c,he,hv⟩ := char_one h7
    exact took_whole he hv (c8rtomb_ascii h0 h7) (.none h0)
  by_cases hc1 : u.toNat ≤ 0xc1
  · refine took_fail (fun c hp => ?_) (c8rtomb_stray h0 (by omega) hc1)
    have := prefix_one hp
    omega
  by_cases hfe : 0xfe ≤ u.toNat
  · refine took_fail (fun c hp => ?_) (c8rtomb_none h0 hfe)
    have := prefix_one hp
    omega
  obtain ⟨h2,h3,h4,h5,h6,-⟩ := lead_table ⟨u.toNat,hlt⟩ (by dsimp only; omega)
  dsimp only at h2 h3 h4 h5 h6
  have hlead : 0xc2 ≤ u.toNat := by omega
  by_cases hdf : u.toNat < 0xe0
  · obtain ⟨hk,hv⟩ := h2 hdf
    have hh : Held8 big { ps.setUcs big ((u.toNat - 0xc0) * 64) with count := -(1 : Nat) } [u] :=
      .two u (by omega) (by omega) rfl (ucs_setUcs big ps (by omega))
    exact took_part (held8_begun hh) hh (by rw [c8rtomb_lead h0 hlead hk hv,if_neg (valid_true (by omega))])
  by_cases hef : u.toNat < 0xf0
  · obtain ⟨hk,hv⟩ := h3 (by omega) hef
    have hh : Held8 big { ps.setUcs big ((u.toNat - 0xe0) * 4096) with count := -(2 : Nat) } [u] :=
      .three u (by omega) (by omega) rfl (ucs_setUcs big ps (by omega))
    exact took_part (held8_begun hh) hh (by rw [c8rtomb_lead h0 hlead hk hv,if_neg (valid_true (by omega))])
  by_cases hf4 : u.toNat ≤ 0xf4
  · obtain ⟨hk,hv⟩ := h4 (by omega) (by omega)
    have hh : Held8 big { ps.setUcs big ((u.toNat - 0xf0) * 262144) with count := -(3 : Nat) } [u] :=
      .four u (by omega) (by omega) rfl (ucs_setUcs big ps (by omega))
    exact took_part (held8_begun hh) hh (by rw [c8rtomb_lead h0 hlead hk hv,if_neg (valid_true (by omega))])
  have hnot : ∀ c, ¬[] ++ [u] <+: encode c := by
    intro c hp
    have := prefix_one hp
    omega
  suffices hr : c8rtomb big true u ps = .fail ps from took_fail hnot hr
  by_cases hf7 : u.toNat < 0xf8
  · obtain ⟨hk,hv⟩ := h4 (by omega) hf7
    rw [c8rtomb_lead h0 hlead hk hv,if_pos (valid_false (by omega))]
  by_cases hfb : u.toNat < 0xfc
  · obtain ⟨hk,hv⟩ := h5 (by omega) hfb
    rw [c8rtomb_lead h0 hlead hk hv,if_pos (valid_false (by omega))]
  · obtain ⟨hk,hv⟩ := h6 (by omega) (by omega)
    rw [c8rtomb_lead h0 hlead hk hv,if_pos (valid_false (by omega))]

theorem step_tail {a : UInt8} {k x : Nat} (hc : ps.count = -(k + 1 : Nat))
    (hx : ps.ucs big = x * 2 ^ (6 * (k + 1)))
    (hlate : Tail u → x = 0 → u.toNat - 0x80 < 0x80 >>> (k + 1) → ∀ c, ¬a :: q ++ [u] <+: encode c)
    (hinv : Tail u → ¬(x = 0 ∧ u.toNat - 0x80 < 0x80 >>> (k + 1)) →
      char32IsValid (ps.ucs big + (u.toNat - 0x80) * 2 ^ (6 * k)) = false → ∀ c, ¬a :: q ++ [u] <+: encode c)
    (hgood : Tail u → ¬(x = 0 ∧ u.toNat - 0x80 < 0x80 >>> (k + 1)) →
      char32IsValid (ps.ucs big + (u.toNat - 0x80) * 2 ^ (6 * k)) = true →
      Took encode (Held8 big) (a :: q) u
        (if k ≠ 0 then ⟨Shared.setUcs big { ps with count := -k }
          (ps.ucs big + (u.toNat - 0x80) * 2 ^ (6 * k)),0,[],false⟩
        else wcrtomb true (ps.ucs big + (u.toNat - 0x80) * 2 ^ (6 * k)) { ps with count := -k })) :
    Took encode (Held8 big) (a :: q) u (c8rtomb big true u ps) := by
  have hp : 0 < 2 ^ (6 * (k + 1)) := by positivity
  by_cases ht : Tail u
  · by_cases hz : x = 0 ∧ u.toNat - 0x80 < 0x80 >>> (k + 1)
    · refine took_fail (hlate ht hz.1 hz.2) (c8rtomb_overlong hc ht ?_ hz.2)
      rw [hx,hz.1,Nat.zero_mul]
    · have hz' : x ≠ 0 ∨ 0x80 >>> (k + 1) ≤ u.toNat - 0x80 := by omega
      have hrun := c8rtomb_tail hc ht hx hz'
      dsimp only at hrun
      by_cases hv : char32IsValid (ps.ucs big + (u.toNat - 0x80) * 2 ^ (6 * k)) = false
      · rw [if_pos hv] at hrun
        exact took_fail (hinv ht hz hv) hrun
      · rw [if_neg hv] at hrun
        rw [hrun]
        exact hgood ht hz (Bool.not_eq_false _ ▸ hv)
  · refine took_fail (fun c h => ht (prefix_tail h)) (c8rtomb_busy (by omega) ?_)
    unfold Tail at ht
    omega

theorem step_two {a : UInt8} (hl : 0xc2 ≤ a.toNat) (hu : a.toNat ≤ 0xdf) (hc : ps.count = -1)
    (hv : ps.ucs big = (a.toNat - 0xc0) * 64) : Took encode (Held8 big) [a] u (c8rtomb big true u ps) := by
  refine step_tail (k := 0) (x := a.toNat - 0xc0) hc hv (fun _ h => by omega) (fun ht _ hinv => ?_)
    (fun ht _ _ => ?_)
  · unfold Tail at ht
    rw [← Bool.not_eq_true,valid_iff] at hinv
    omega
  · obtain ⟨c,he,hval⟩ := char_two hl hu ht
    unfold Tail at ht
    rw [if_neg (by decide)]
    refine took_whole he ?_ rfl (.none rfl)
    rw [hval,hv]
    omega

theorem step_three {a : UInt8} (hl : 0xe0 ≤ a.toNat) (hu : a.toNat ≤ 0xef) (hc : ps.count = -2)
    (hv : ps.ucs big = (a.toNat - 0xe0) * 4096) : Took encode (Held8 big) [a] u (c8rtomb big true u ps) := by
  refine step_tail (k := 1) (x := a.toNat - 0xe0) hc hv (fun ht hx hlt c hp => ?_) (fun ht hx hinv c hp => ?_)
    (fun ht hx hval => ?_)
  · have := prefix_two hp
    simp only [Nat.shiftRight_eq_div_pow] at hlt
    omega
  · have := prefix_two hp
    unfold Tail at ht
    rw [← Bool.not_eq_true,valid_iff] at hinv
    omega
  · rw [valid_iff] at hval
    have ht' := ht
    unfold Tail at ht'
    simp only [Nat.shiftRight_eq_div_pow] at hx
    rw [if_pos (by decide)]
    have hh : Held8 big (Shared.setUcs big { ps with count := -(1 : Nat) }
        (ps.ucs big + (u.toNat - 0x80) * 2 ^ (6 * 1))) [a,u] := by
      refine .third a u hl hu ht (by omega) (by omega) ?_ ?_
      · rw [setUcs_count]
        rfl
      · rw [ucs_setUcs big _ (by omega),hv]
        rfl
    exact took_part (held8_begun hh) hh rfl

theorem step_third {a b : UInt8} (hl : 0xe0 ≤ a.toNat) (hu : a.toNat ≤ 0xef) (hb : Tail b)
    (hlo : a.toNat = 0xe0 → 0xa0 ≤ b.toNat) (hhi : a.toNat = 0xed → b.toNat < 0xa0) (hc : ps.count = -1)
    (hv : ps.ucs big = (a.toNat - 0xe0) * 4096 + (b.toNat - 0x80) * 64) :
    Took encode (Held8 big) [a,b] u (c8rtomb big true u ps) := by
  have hb' := hb
  unfold Tail at hb'
  refine step_tail (k := 0) (x := (a.toNat - 0xe0) * 64 + (b.toNat - 0x80)) hc (by rw [hv]; omega)
    (fun _ h => by omega) (fun ht _ hinv => ?_) (fun ht _ _ => ?_)
  · unfold Tail at ht
    rw [← Bool.not_eq_true,valid_iff] at hinv
    omega
  · obtain ⟨c,he,hval⟩ := char_three hl hu hb ht hlo hhi
    unfold Tail at ht
    rw [if_neg (by decide)]
    refine took_whole he ?_ rfl (.none rfl)
    rw [hval,hv]
    omega

theorem step_four {a : UInt8} (hl : 0xf0 ≤ a.toNat) (hu : a.toNat ≤ 0xf4) (hc : ps.count = -3)
    (hv : ps.ucs big = (a.toNat - 0xf0) * 262144) : Took encode (Held8 big) [a] u (c8rtomb big true u ps) := by
  refine step_tail (k := 2) (x := a.toNat - 0xf0) hc hv (fun ht hx hlt c hp => ?_) (fun ht hx hinv c hp => ?_)
    (fun ht hx hval => ?_)
  · have := prefix_two hp
    simp only [Nat.shiftRight_eq_div_pow] at hlt
    omega
  · have := prefix_two hp
    unfold Tail at ht
    rw [← Bool.not_eq_true,valid_iff] at hinv
    omega
  · rw [valid_iff] at hval
    have ht' := ht
    unfold Tail at ht'
    simp only [Nat.shiftRight_eq_div_pow] at hx
    rw [if_pos (by decide)]
    have hh : Held8 big (Shared.setUcs big { ps with count := -(2 : Nat) }
        (ps.ucs big + (u.toNat - 0x80) * 2 ^ (6 * 2))) [a,u] := by
      refine .fourth a u hl hu ht (by omega) (by omega) ?_ ?_
      · rw [setUcs_count]
        rfl
      · rw [ucs_setUcs big _ (by omega),hv]
        rfl
    exact took_part (held8_begun hh) hh rfl

theorem step_fourth {a b : UInt8} (hl : 0xf0 ≤ a.toNat) (hu : a.toNat ≤ 0xf4) (hb : Tail b)
    (hlo : a.toNat = 0xf0 → 0x90 ≤ b.toNat) (hhi : a.toNat = 0xf4 → b.toNat < 0x90) (hc : ps.count = -2)
    (hv : ps.ucs big = (a.toNat - 0xf0) * 262144 + (b.toNat - 0x80) * 4096) :
    Took encode (Held8 big) [a,b] u (c8rtomb big true u ps) := by
  have hb' := hb
  unfold Tail at hb'
  refine step_tail (k := 1) (x := (a.toNat - 0xf0) * 64 + (b.toNat - 0x80)) hc (by rw [hv]; omega)
    (fun _ h => by omega) (fun ht _ hinv => ?_) (fun ht _ hval => ?_)
  · unfold Tail at ht
    rw [← Bool.not_eq_true,valid_iff] at hinv
    omega
  · rw [valid_iff] at hval
    rw [if_pos (by decide)]
    have hh : Held8 big (Shared.setUcs big { ps with count := -(1 : Nat) }
        (ps.ucs big + (u.toNat - 0x80) * 2 ^ (6 * 1))) [a,b,u] := by
      refine .last a b u hl hu hb hlo hhi ht ?_ ?_
      · rw [setUcs_count]
        rfl
      · rw [ucs_setUcs big _ (by omega),hv]
        rfl
    exact took_part (held8_begun hh) hh rfl

theorem step_last {a b d : UInt8} (hl : 0xf0 ≤ a.toNat) (hu : a.toNat ≤ 0xf4) (hb : Tail b)
    (hlo : a.toNat = 0xf0 → 0x90 ≤ b.toNat) (hhi : a.toNat = 0xf4 → b.toNat < 0x90) (hd : Tail d)
    (hc : ps.count = -1)
    (hv : ps.ucs big = (a.toNat - 0xf0) * 262144 + (b.toNat - 0x80) * 4096 + (d.toNat - 0x80) * 64) :
    Took encode (Held8 big) [a,b,d] u (c8rtomb big true u ps) := by
  have hb' := hb
  have hd' := hd
  unfold Tail at hb' hd'
  refine step_tail (k := 0) (x := ((a.toNat - 0xf0) * 64 + (b.toNat - 0x80)) * 64 + (d.toNat - 0x80)) hc
    (by rw [hv]; omega) (fun _ h => by omega) (fun ht _ hinv => ?_) (fun ht _ _ => ?_)
  · unfold Tail at ht
    rw [← Bool.not_eq_true,valid_iff] at hinv
    omega
  · obtain ⟨c,he,hval⟩ := char_four hl hu hb hd ht hlo hhi
    unfold Tail at ht
    rw [if_neg (by decide)]
    refine took_whole he ?_ rfl (.none rfl)
    rw [hval,hv]
    omega

end

theorem encode_code : Code encode :=
  ⟨encode_ne_nil,fun _ _ ⟨_,h⟩ => (encode_cancel (h.trans (List.append_nil _).symm)).1⟩

def overlongLead (u : UInt8) : Prop := u = 0xf8 ∨ u = 0xfc

theorem c8rtomb_transducer (big : Bool) :
    Transducer encode (c8rtomb big true) overlongLead (Held8 big) := by
  refine ⟨encode_code,.none rfl,held8_begun,fun {ps q} h u hbad => ?_,fun {ps u} h hbad => ?_⟩
  · cases h with
    | none hc =>
      refine step_none hc ?_
      rintro (h | h)
      · exact hbad rfl (.inl (UInt8.toNat_inj.mp h))
      · exact hbad rfl (.inr (UInt8.toNat_inj.mp h))
    | two a hl hu hc hv => exact step_two hl hu hc hv
    | three a hl hu hc hv => exact step_three hl hu hc hv
    | third a b hl hu hb hlo hhi hc hv => exact step_third hl hu hb hlo hhi hc hv
    | four a hl hu hc hv => exact step_four hl hu hc hv
    | fourth a b hl hu hb hlo hhi hc hv => exact step_fourth hl hu hb hlo hhi hc hv
    | last a b d hl hu hb hlo hhi hd hc hv => exact step_last hl hu hb hlo hhi hd hc hv
  · cases h with
    | none hc =>
      have hu : u.toNat = 0xf8 ∨ u.toNat = 0xfc := hbad.imp (congrArg UInt8.toNat) (congrArg UInt8.toNat)
      refine ⟨fun c hp => ?_,?_⟩
      · have := prefix_one hp
        omega
      · obtain ⟨-,-,-,h5,h6,-⟩ := lead_table ⟨u.toNat,u.toNat_lt⟩ (by dsimp only; omega)
        dsimp only at h5 h6
        rcases hu with hu | hu
        · obtain ⟨hk,hv⟩ := h5 (by omega) (by omega)
          rw [c8rtomb_lead hc (by omega) hk hv,if_neg (valid_true (by omega))]
        · obtain ⟨hk,hv⟩ := h6 (by omega) (by omega)
          rw [c8rtomb_lead hc (by omega) hk hv,if_neg (valid_true (by omega))]

inductive Held16 (big : Bool) (ps : Shared) : List UInt16 → Prop
  | none (hc : ps.count = 0) : Held16 big ps []
  | high (a : UInt16) (hl : 0xd800 ≤ a.toNat) (hu : a.toNat ≤ 0xdbff) (hc : ps.count = -1)
      (hv : ps.ucs big = (a.toNat - 0xd800) * 1024 + 0x10000) : Held16 big ps [a]

inductive Shape16 (c : Char) : Prop
  | one {a : UInt16} (he : encode16 c = [a]) (ha : a.toNat = c.toNat)
      (hv : c.toNat < 0xd800 ∨ 0xdfff < c.toNat ∧ c.toNat < 0x10000)
  | two {a b : UInt16} (he : encode16 c = [a,b]) (ha : a.toNat = 0xd800 + (c.toNat - 0x10000) / 1024)
      (hb : b.toNat = 0xdc00 + (c.toNat - 0x10000) % 1024) (hl : 0x10000 ≤ c.toNat) (hv : c.toNat < 0x110000)

theorem shape16 (c : Char) : Shape16 c := by
  have hc := toNat_valid c
  by_cases h : c.toNat < 0x10000
  · refine .one (by rw [encode16,if_pos h]) ?_ (by omega)
    rw [UInt16.toNat_ofNat']
    omega
  · refine .two (by rw [encode16,if_neg h]) ?_ ?_ (by omega) (by omega)
    · rw [UInt16.toNat_ofNat']
      omega
    · rw [UInt16.toNat_ofNat']
      omega

theorem encode16_one {a : UInt16} (h : a.toNat < 0xd800 ∨ 0xdfff < a.toNat) :
    ∃ c, encode16 c = [a] ∧ c.toNat = a.toNat := by
  have hlt := a.toNat_lt
  obtain ⟨c,hc⟩ := exists_char (v := a.toNat) (by omega)
  cases shape16 c with
  | one he ha hv => exact ⟨c,by rw [he,UInt16.toNat_inj.mp (ha.trans hc)],hc⟩
  | two he ha hb hl hv => omega

theorem encode16_two {a b : UInt16} (h1 : 0xd800 ≤ a.toNat) (h2 : a.toNat ≤ 0xdbff) (h3 : 0xdc00 ≤ b.toNat)
    (h4 : b.toNat ≤ 0xdfff) :
    ∃ c, encode16 c = [a,b] ∧ c.toNat = (a.toNat - 0xd800) * 1024 + 0x10000 + (b.toNat - 0xdc00) := by
  obtain ⟨c,hc⟩ := exists_char (v := (a.toNat - 0xd800) * 1024 + 0x10000 + (b.toNat - 0xdc00)) (by omega)
  cases shape16 c with
  | one he ha hv => omega
  | two he ha hb hl hv =>
    have ea := UInt16.toNat_inj.mp (ha.trans (show _ = a.toNat by omega))
    have eb := UInt16.toNat_inj.mp (hb.trans (show _ = b.toNat by omega))
    exact ⟨c,by rw [he,ea,eb],hc⟩

theorem encode16_code : Code encode16 := by
  constructor
  · intro c h
    cases shape16 c with
    | one he ha hv =>
      rw [he] at h
      cases h
    | two he ha hb hl hv =>
      rw [he] at h
      cases h
  · intro c d h
    have hc := toNat_valid c
    have hd := toNat_valid d
    apply Char.toNat_inj.mp
    cases shape16 c with
    | one he ha hv =>
      cases shape16 d with
      | one he' ha' hv' =>
        simp only [he,he',List.cons_prefix_cons] at h
        obtain ⟨rfl,-⟩ := h
        omega
      | two he' ha' hb' hl' hv' =>
        simp only [he,he',List.cons_prefix_cons] at h
        obtain ⟨rfl,-⟩ := h
        omega
    | two he ha hb hl hv =>
      cases shape16 d with
      | one he' ha' hv' => simp [he,he'] at h
      | two he' ha' hb' hl' hv' =>
        simp only [he,he',List.cons_prefix_cons] at h
        obtain ⟨rfl,rfl,-⟩ := h
        omega

theorem held16_begun {big : Bool} {ps : Shared} {q : List UInt16} (h : Held16 big ps q) : Begun encode16 q := by
  cases h with
  | none hc => exact begun_nil encode16_code 'a'
  | high a hl hu hc hv =>
    obtain ⟨c,he,-⟩ := encode16_two (b := 0xdc00) hl hu (by decide) (by decide)
    exact ⟨c,by rw [he]; exact ⟨[0xdc00],rfl⟩,by rw [he]; simp⟩

theorem low_iff (c : Nat) : char16IsLowSurrogate c = true ↔ 0xdc00 ≤ c ∧ c ≤ 0xdfff := by
  rw [char16IsLowSurrogate,Bool.and_eq_true,decide_eq_true_iff,decide_eq_true_iff]
  rfl

theorem high_iff (c : Nat) : char16IsHighSurrogate c = true ↔ 0xd800 ≤ c ∧ c ≤ 0xdbff := by
  rw [char16IsHighSurrogate,Bool.and_eq_true,decide_eq_true_iff,decide_eq_true_iff]
  rfl

theorem mask_ten (x : Nat) : x &&& 0x3ff = x % 1024 := Nat.and_two_pow_sub_one_eq_mod x 10

theorem wcrtomb_surrogate {v : Nat} {ps : Shared} (h : 0xd800 ≤ v ∧ v ≤ 0xdfff) :
    wcrtomb true v ps = .fail { ps with count := 0 } := by
  have hnone : utf8Wctomb v = none := by
    unfold utf8Wctomb
    rw [if_neg (by omega),if_neg (by omega),if_pos (by omega),if_pos h]
  rw [wcrtomb,if_pos rfl,hnone]

theorem prefix16_one {c : Char} {u : UInt16} (h : [u] <+: encode16 c) : u.toNat < 0xdc00 ∨ 0xdfff < u.toNat := by
  cases shape16 c with
  | one he ha hv =>
    simp only [he,List.cons_prefix_cons] at h
    obtain ⟨rfl,-⟩ := h
    omega
  | two he ha hb hl hv =>
    simp only [he,List.cons_prefix_cons] at h
    obtain ⟨rfl,-⟩ := h
    omega

theorem prefix16_two {c : Char} {a u : UInt16} (h : [a] ++ [u] <+: encode16 c) :
    0xdc00 ≤ u.toNat ∧ u.toNat ≤ 0xdfff := by
  cases shape16 c with
  | one he ha hv => simp [he] at h
  | two he ha hb hl hv =>
    simp only [he,List.singleton_append,List.cons_prefix_cons] at h
    obtain ⟨-,rfl,-⟩ := h
    omega

theorem c16rtomb_transducer (big : Bool) :
    Transducer encode16 (c16rtomb big true) (fun _ => False) (Held16 big) := by
  refine ⟨encode16_code,.none rfl,held16_begun,fun {ps q} h u _ => ?_,fun _ hbad => hbad.elim⟩
  have hlt := u.toNat_lt
  cases h with
  | none hc =>
    unfold c16rtomb
    dsimp only
    rw [if_neg (by omega)]
    by_cases hhigh : 0xd800 ≤ u.toNat ∧ u.toNat ≤ 0xdbff
    · rw [if_pos ((high_iff _).mpr hhigh),mask_ten,Nat.shiftLeft_eq]
      have hh : Held16 big { ps.setUcs big (u.toNat % 1024 * 2 ^ 10 + 0x10000) with count := -1 } [u] := by
        refine .high u hhigh.1 hhigh.2 rfl ((ucs_setUcs big ps (by omega)).trans ?_)
        omega
      exact took_part (held16_begun hh) hh rfl
    · rw [if_neg (by rw [high_iff]; exact hhigh)]
      by_cases hlow : 0xdc00 ≤ u.toNat ∧ u.toNat ≤ 0xdfff
      · refine took_fail (fun c hp => ?_) (wcrtomb_surrogate (by omega))
        have := prefix16_one hp
        omega
      · obtain ⟨c,he,hv⟩ := encode16_one (a := u) (by omega)
        exact took_whole he hv rfl (.none hc)
  | high a hl hu hc hv =>
    unfold c16rtomb
    dsimp only
    rw [if_pos hc]
    by_cases hlow : 0xdc00 ≤ u.toNat ∧ u.toNat ≤ 0xdfff
    · obtain ⟨c,he,hval⟩ := encode16_two hl hu hlow.1 hlow.2
      rw [if_pos ((low_iff _).mpr hlow)]
      refine took_whole he ?_ rfl (.none rfl)
      have hucs : Shared.ucs big { ps with count := 0 } = (a.toNat - 0xd800 + 64) * 2 ^ 10 := by
        rw [show Shared.ucs big { ps with count := 0 } = ps.ucs big from rfl,hv]
        omega
      rw [mask_ten,or_lead _ _ 10 hucs (by omega),hucs,hval]
      omega
    · rw [if_neg (by rw [low_iff]; exact hlow)]
      refine took_fail (fun c hp => ?_) rfl
      have := prefix16_two hp
      omega

end Multibyte
