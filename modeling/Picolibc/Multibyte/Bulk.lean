import Mathlib
import Picolibc.Multibyte.Chunks

namespace Multibyte

open Utf8

structure ToBytes where
  out : List UInt8
  ret : Int
  src : Option (List Nat)
  state : Mbstate
  eilseq : Bool
  deriving DecidableEq, Repr

structure ToWide where
  out : List Nat
  ret : Int
  src : Option (List UInt8)
  state : Mbstate
  eilseq : Bool
  deriving DecidableEq, Repr

def wcsLoop (dst : Bool) (len : Nat) : List Nat → Nat → Nat → List UInt8 → Option (List Nat) → Mbstate → ToBytes
  | [], _, n, out, src, ps => ⟨out,n,src,ps,false⟩
  | w :: pwcs, nwc, n, out, src, ps =>
    if n < len ∧ 0 < nwc then
      match utf8Wctomb w with
      | none => ⟨out,-1,src,{ ps with count := 0 },true⟩
      | some buff =>
        if n + buff.length ≤ len then
          let out := if dst then out ++ buff else out
          let src := if dst then some pwcs else src
          if w = 0 then
            ⟨out,(n + buff.length - 1 : Int),if dst then none else src,{ ps with count := 0 },false⟩
          else wcsLoop dst len pwcs (nwc - 1) (n + buff.length) out src ps
        else ⟨out,n,src,ps,false⟩
    else ⟨out,n,src,ps,false⟩

def wcsnrtombs (dst : Bool) (src : List Nat) (nwc len : Nat) (ps : Mbstate) : ToBytes :=
  wcsLoop dst (if dst then len else sizeMax) src nwc 0 [] (some src) ps

def mbsLoop (dst : Bool) (max : Nat) : Nat → List UInt8 → Nat → Nat → List Nat → Mbstate → ToWide
  | 0, src, _, _, out, ps => ⟨out,max,some src,ps,false⟩
  | len + 1, src, nms, count, out, ps =>
    let r := mbrtowc (some src) nms ps
    let out := if dst then out ++ r.conv.wc.toList else out
    if 0 < r.conv.ret then
      mbsLoop dst max len (src.drop r.conv.ret.toNat) (nms - r.conv.ret.toNat) (count + 1) out r.conv.state
    else if r.conv.ret = -2 then ⟨out,count,some (src.drop nms),r.conv.state,false⟩
    else if r.conv.ret = 0 then ⟨out,count,none,r.conv.state,false⟩
    else ⟨out,-1,some src,{ r.conv.state with count := 0 },true⟩

def mbsnrtowcs (dst : Bool) (src : List UInt8) (nms len : Nat) (ps : Mbstate) : ToWide :=
  let len := if dst then len else sizeMax
  let r := mbsLoop dst len len src nms 0 [] ps
  { r with src := if dst then r.src else some src }

def nul : Char := Char.ofNat 0

def words (cs : List Char) : List Nat := (cs ++ [nul]).map Char.toNat

def text (cs : List Char) : List UInt8 := encodeAll (cs ++ [nul])

def wcsRun : Option (List Nat) → Mbstate → List (Nat × Nat) → List ToBytes × Option (List Nat)
  | none, _, _ => ([],none)
  | some src, _, [] => ([],some src)
  | some src, ps, lim :: lims =>
    let r := wcsnrtombs true src lim.1 lim.2 ps
    let q := wcsRun r.src r.state lims
    (r :: q.1,q.2)

def mbsRun : Option (List UInt8) → Mbstate → List (Nat × Nat) → List ToWide × Option (List UInt8) × Mbstate
  | none, ps, _ => ([],none,ps)
  | some src, ps, [] => ([],some src,ps)
  | some src, ps, lim :: lims =>
    let r := mbsnrtowcs true src lim.1 lim.2 ps
    let q := mbsRun r.src r.state lims
    (r :: q.1,q.2)

def WcsAmple : Option (List Nat) → Mbstate → List (Nat × Nat) → Prop
  | some src, ps, lim :: lims =>
    0 < lim.1 ∧ ((utf8Wctomb (src.headD 0)).getD []).length ≤ lim.2 ∧
      WcsAmple (wcsnrtombs true src lim.1 lim.2 ps).src (wcsnrtombs true src lim.1 lim.2 ps).state lims
  | _, _, _ => True

structure ToBytes.Ok (r : ToBytes) (len : Nat) : Prop where
  bounded : r.out.length ≤ len
  whole : ∃ ds : List Char, r.out = encodeAll ds
  count : r.ret = r.out.length - (if r.src = none then 1 else 0 : Int)
  ended : r.src = none ↔ 0 ∈ r.out

structure ToWide.Ok (r : ToWide) (len : Nat) : Prop where
  bounded : r.out.length ≤ len
  whole : ∃ ds : List Char, r.out = ds.map Char.toNat
  count : r.ret = r.out.length - (if r.src = none then 1 else 0 : Int)
  ended : r.src = none ↔ 0 ∈ r.out

theorem encode_nul : encode nul = [0] := by decide

theorem nul_toNat : nul.toNat = 0 := rfl

theorem words_cons (c : Char) (cs : List Char) : words (c :: cs) = c.toNat :: words cs := rfl

theorem text_cons (c : Char) (cs : List Char) : text (c :: cs) = encode c ++ text cs := by
  simp [text,encodeAll]

theorem text_eq (cs : List Char) : text cs = encodeAll cs ++ [0] := by
  simp [text,encodeAll,encode_nul]

theorem text_split (cs : List Char) (k : Nat) : encodeAll (cs.take k) ++ text (cs.drop k) = text cs := by
  rw [text_eq,text_eq,← List.append_assoc,encodeAll,encodeAll,← List.flatMap_append,List.take_append_drop]

theorem encodeAll_cons (c : Char) (cs : List Char) : encodeAll (c :: cs) = encode c ++ encodeAll cs := by
  simp [encodeAll]

theorem zero_not_mem_encode {c : Char} (h : c.toNat ≠ 0) : 0 ∉ encode c := by
  have hz : ∀ b : UInt8, b.toNat ≠ 0 → 0 ≠ b := by
    rintro b hb rfl
    exact hb rfl
  cases shape c with
  | one he ha hv =>
    rw [he]
    simp only [List.mem_singleton]
    exact hz _ (by omega)
  | two he ha hb hl hv =>
    rw [he]
    simp only [List.mem_cons,List.not_mem_nil,or_false,not_or]
    exact ⟨hz _ (by omega),hz _ (by omega)⟩
  | three he ha hb hd hl hv =>
    rw [he]
    simp only [List.mem_cons,List.not_mem_nil,or_false,not_or]
    exact ⟨hz _ (by omega),hz _ (by omega),hz _ (by omega)⟩
  | four he ha hb hd he' hl =>
    rw [he]
    simp only [List.mem_cons,List.not_mem_nil,or_false,not_or]
    exact ⟨hz _ (by omega),hz _ (by omega),hz _ (by omega),hz _ (by omega)⟩

theorem zero_not_mem_encodeAll {cs : List Char} (h : ∀ c ∈ cs, c.toNat ≠ 0) : 0 ∉ encodeAll cs := by
  intro hm
  obtain ⟨c,hc,hm⟩ := List.mem_flatMap.mp hm
  exact zero_not_mem_encode (h c hc) hm

theorem encode_length_pos (c : Char) : 0 < (encode c).length := List.length_pos_iff.mpr (encode_ne_nil c)

inductive Stores (cs : List Char) (nwc len n : Nat) (out : List UInt8) (r : ToBytes) : Prop
  | stops (k : Nat) (hk : k ≤ cs.length) (hr : r.ret = n + (encodeAll (cs.take k)).length)
      (ho : r.out = out ++ encodeAll (cs.take k)) (hs : r.src = some (words (cs.drop k)))
      (hb : 0 < k → n + (encodeAll (cs.take k)).length ≤ len)
      (hp : 0 < nwc → n + (encode ((cs ++ [nul]).headD nul)).length ≤ len → 0 < k)
  | ends (hr : r.ret = n + (encodeAll cs).length) (ho : r.out = out ++ text cs) (hs : r.src = none)
      (hb : n + (text cs).length ≤ len)

theorem wcsLoop_stores (len : Nat) (cs : List Char) (h : ∀ c ∈ cs, c.toNat ≠ 0) (nwc n : Nat) (out : List UInt8)
    (ps : Mbstate) :
    Stores cs nwc len n out (wcsLoop true len (words cs) nwc n out (some (words cs)) ps) := by
  induction cs generalizing nwc n out with
  | nil =>
    have hw : words [] = [0] := rfl
    have h0 : utf8Wctomb 0 = some [0] := rfl
    rw [hw,wcsLoop,h0]
    simp only [List.length_singleton,if_true]
    split_ifs with h1 h2
    · refine .ends ?_ rfl rfl h2
      simp [encodeAll]
    · refine .stops 0 (Nat.le_refl _) (by simp [encodeAll]) (by simp [encodeAll]) rfl (by omega) ?_
      intro _ hf
      exact absurd hf h2
    · refine .stops 0 (Nat.le_refl _) (by simp [encodeAll]) (by simp [encodeAll]) rfl (by omega) ?_
      intro h3 hf
      have hp : n + 1 ≤ len := hf
      omega
  | cons c cs ih =>
    have hc : c.toNat ≠ 0 := h c List.mem_cons_self
    have hpos := encode_length_pos c
    rw [words_cons,wcsLoop,wctomb_encode c]
    simp only [if_true,hc,if_false]
    split_ifs with h1 h2
    · have hih := ih (fun d hd => h d (List.mem_cons_of_mem _ hd)) (nwc - 1) (n + (encode c).length)
        (out ++ encode c)
      cases hih with
      | stops k hk hr ho hs hb hp =>
        refine .stops (k + 1) (by simp only [List.length_cons]; omega) ?_ ?_ hs ?_ (fun _ _ => Nat.succ_pos k)
        · rw [hr,List.take_succ_cons,encodeAll_cons,List.length_append]
          omega
        · rw [ho,List.take_succ_cons,encodeAll_cons,List.append_assoc]
        · intro _
          rw [List.take_succ_cons,encodeAll_cons,List.length_append]
          cases k with
          | zero =>
            simp only [List.take_zero,encodeAll,List.flatMap_nil,List.length_nil]
            omega
          | succ k =>
            have := hb (Nat.succ_pos k)
            omega
      | ends hr ho hs hb =>
        refine .ends ?_ ?_ hs ?_
        · rw [hr,encodeAll_cons,List.length_append]
          omega
        · rw [ho,text_cons,List.append_assoc]
        · rw [text_cons,List.length_append]
          omega
    · refine .stops 0 (Nat.zero_le _) (by simp [encodeAll]) (by simp [encodeAll]) rfl (by omega) ?_
      intro _ hf
      exact absurd hf h2
    · refine .stops 0 (Nat.zero_le _) (by simp [encodeAll]) (by simp [encodeAll]) rfl (by omega) ?_
      intro h3 hf
      have hf' : n + (encode c).length ≤ len := hf
      omega

theorem wcsLoop_room (dst : Bool) (len : Nat) (cs : List Char) (h : ∀ c ∈ cs, c.toNat ≠ 0) (nwc n : Nat)
    (out : List UInt8) (src : Option (List Nat)) (ps : Mbstate) (hl : n + (text cs).length ≤ len) :
    (wcsLoop dst len (words cs) nwc n out src ps).ret = n + (encodeAll (cs.take nwc)).length := by
  induction cs generalizing nwc n out src with
  | nil =>
    have hw : words [] = [0] := rfl
    have h0 : utf8Wctomb 0 = some [0] := rfl
    have hlen : n + 1 ≤ len := hl
    rw [hw,wcsLoop,h0]
    simp only [List.length_singleton,if_true,List.take_nil,encodeAll,List.flatMap_nil,List.length_nil]
    split_ifs <;> first | rfl | (dsimp only; omega)
  | cons c cs ih =>
    have hc : c.toNat ≠ 0 := h c List.mem_cons_self
    have hpos := encode_length_pos c
    rw [text_cons,List.length_append] at hl
    rw [words_cons,wcsLoop,wctomb_encode c]
    cases nwc with
    | zero =>
      rw [if_neg (by omega)]
      simp [encodeAll]
    | succ nwc =>
      simp only [hc,if_false]
      rw [if_pos (by omega),if_pos (by omega),Nat.add_sub_cancel,
        ih (fun d hd => h d (List.mem_cons_of_mem _ hd)) nwc (n + (encode c).length) _ _ (by omega),
        List.take_succ_cons,encodeAll_cons,List.length_append]
      omega

theorem wcsnrtombs_ok {cs : List Char} (h : ∀ c ∈ cs, c.toNat ≠ 0) (nwc len : Nat) (ps : Mbstate) :
    (wcsnrtombs true (words cs) nwc len ps).Ok len := by
  unfold wcsnrtombs
  rw [if_pos rfl]
  cases wcsLoop_stores len cs h nwc 0 [] ps with
  | stops k hk hr ho hs hb hp =>
    rw [List.nil_append] at ho
    constructor
    · rw [ho]
      cases k with
      | zero => simp [encodeAll]
      | succ k =>
        have := hb (Nat.succ_pos k)
        omega
    · exact ⟨_,ho⟩
    · rw [hr,hs,ho]
      simp
    · rw [hs,ho]
      simp only [reduceCtorEq,false_iff]
      exact zero_not_mem_encodeAll (fun c hc => h c (List.mem_of_mem_take hc))
  | ends hr ho hs hb =>
    rw [List.nil_append] at ho
    constructor
    · rw [ho]
      omega
    · exact ⟨cs ++ [nul],ho⟩
    · rw [hr,hs,ho,text_eq]
      simp
    · rw [hs,ho,text_eq]
      simp

theorem wcsRun_ok (lims : List (Nat × Nat)) {cs : List Char} (h : ∀ c ∈ cs, c.toNat ≠ 0) (ps : Mbstate) :
    ∀ x ∈ lims.zip (wcsRun (some (words cs)) ps lims).1, x.2.Ok x.1.2 := by
  induction lims generalizing cs ps with
  | nil => simp
  | cons lim lims ih =>
    rw [wcsRun]
    simp only [List.zip_cons_cons,List.forall_mem_cons]
    refine ⟨wcsnrtombs_ok h lim.1 lim.2 ps,?_⟩
    generalize (wcsnrtombs true (words cs) lim.1 lim.2 ps).state = st
    have hst : (wcsnrtombs true (words cs) lim.1 lim.2 ps).src = none ∨
        ∃ k, (wcsnrtombs true (words cs) lim.1 lim.2 ps).src = some (words (cs.drop k)) := by
      cases wcsLoop_stores lim.2 cs h lim.1 0 [] ps with
      | stops k _ _ _ hs _ _ => exact .inr ⟨k,hs⟩
      | ends _ _ hs _ => exact .inl hs
    rcases hst with hs | ⟨k,hs⟩
    · rw [hs]
      simp [wcsRun]
    · rw [hs]
      exact ih (fun c hc => h c (List.mem_of_mem_drop hc)) st

theorem wcsRun_stores (lims : List (Nat × Nat)) {cs : List Char} (h : ∀ c ∈ cs, c.toNat ≠ 0) (ps : Mbstate) :
    let q := wcsRun (some (words cs)) ps lims
    (∃ k, k ≤ cs.length ∧ q.1.flatMap ToBytes.out = encodeAll (cs.take k) ∧
        q.2 = some (words (cs.drop k)) ∧ (WcsAmple (some (words cs)) ps lims → lims.length ≤ k)) ∨
      (q.1.flatMap ToBytes.out = text cs ∧ q.2 = none) := by
  induction lims generalizing cs ps with
  | nil => exact .inl ⟨0,Nat.zero_le _,rfl,rfl,fun _ => Nat.le_refl _⟩
  | cons lim lims ih =>
    rw [wcsRun]
    dsimp only
    have hl := wcsLoop_stores lim.2 cs h lim.1 0 [] ps
    have he : wcsnrtombs true (words cs) lim.1 lim.2 ps =
        wcsLoop true lim.2 (words cs) lim.1 0 [] (some (words cs)) ps := rfl
    rw [← he] at hl
    cases hl with
    | stops k hk hr ho hs hb hp =>
      rw [List.nil_append] at ho
      have hi := ih (fun c (hc : c ∈ cs.drop k) => h c (List.mem_of_mem_drop hc))
        (wcsnrtombs true (words cs) lim.1 lim.2 ps).state
      rw [hs]
      rcases hi with ⟨j,hj,hjo,hjs,hja⟩ | ⟨hjo,hjs⟩
      · rw [List.length_drop] at hj
        refine .inl ⟨k + j,by omega,?_,?_,?_⟩
        · rw [List.flatMap_cons,ho,hjo,List.take_add]
          simp [encodeAll]
        · rw [hjs,List.drop_drop]
        · rintro ⟨h1,h2,h3⟩
          rw [hs] at h3
          have hj' := hja h3
          have hk0 := hp h1 (by
            have hhead : (words cs).headD 0 = ((cs ++ [nul]).headD nul).toNat := by
              cases cs <;> rfl
            rw [hhead,wctomb_encode] at h2
            simpa using h2)
          rw [List.length_cons]
          omega
      · refine .inr ⟨?_,hjs⟩
        rw [List.flatMap_cons,ho,hjo,text_split]
    | ends hr ho hs hb =>
      rw [List.nil_append] at ho
      rw [hs]
      refine .inr ⟨?_,by rw [wcsRun]⟩
      rw [List.flatMap_cons,ho,wcsRun]
      simp

theorem mbrtowc_take (tail : List UInt8) {st : Mbstate} {p q : List UInt8} {c : Char} (hp : Holds st p)
    (he : encode c = p ++ q) (hq : q ≠ []) {nms : Nat} (hn : q.length ≤ nms) :
    ∃ st', mbrtowc (some (q ++ tail)) nms st =
      ⟨⟨st',if c.toNat = 0 then 0 else q.length,some c.toNat⟩,false⟩ ∧ st'.count = 0 := by
  have hpos := List.length_pos_iff.mpr hq
  have hlen := congrArg List.length he
  rw [List.length_append] at hlen
  obtain ⟨st',hr,hc⟩ := mbtowc_complete (show ({ st with count := 0 } : Mbstate).count = 0 from rfl) c tail
    (n := nms + p.length) (by omega)
  rw [he,List.append_assoc,← he] at hr
  have hre := mbtowc_resume (q ++ tail) (show 0 < nms by omega) hp
  rw [hr] at hre
  have hsh : utf8Mbtowc (q ++ tail) nms st =
      ⟨st',if c.toNat = 0 then 0 else q.length,some c.toNat⟩ := by
    rw [hre]
    simp only [Conv.shift]
    congr 1
    by_cases hz : c.toNat = 0
    · simp [hz]
    · simp only [hz,if_false]
      rw [if_neg (by omega)]
      omega
  refine ⟨st',?_,hc⟩
  unfold mbrtowc
  dsimp only
  rw [hsh,if_neg ?_]
  by_cases hz : c.toNat = 0
  · rw [if_pos hz]
    exact (show ¬(0 : Int) = -1 by decide)
  · rw [if_neg hz]
    dsimp only
    omega

theorem mbrtowc_wait (tail : List UInt8) {st : Mbstate} {p q : List UInt8} {c : Char} (hp : Holds st p)
    (he : encode c = p ++ q) {nms : Nat} (hn : nms < q.length) :
    ∃ st', mbrtowc (some (q ++ tail)) nms st = ⟨⟨st',-2,none⟩,false⟩ ∧ Holds st' (p ++ q.take nms) := by
  cases nms with
  | zero =>
    refine ⟨st,?_,?_⟩
    · simp [mbrtowc,utf8Mbtowc]
    · simpa using hp
  | succ nms =>
    have hlen := congrArg List.length he
    rw [List.length_append] at hlen
    obtain ⟨st',hr,hh⟩ := mbtowc_partial (show ({ st with count := 0 } : Mbstate).count = 0 from rfl) c
      (k := nms + 1 + p.length) (by omega) (by omega) ((encode c).drop (nms + 1 + p.length) ++ tail)
    rw [← List.append_assoc,List.take_append_drop] at hr
    have htake : (encode c).take (nms + 1 + p.length) = p ++ q.take (nms + 1) := by
      rw [he,List.take_append,List.take_of_length_le (by omega),Nat.add_sub_cancel]
    rw [htake] at hh
    rw [he,List.append_assoc] at hr
    have hre := mbtowc_resume (q ++ tail) (Nat.succ_pos nms) hp
    rw [hr] at hre
    refine ⟨st',?_,hh⟩
    unfold mbrtowc
    dsimp only
    rw [hre]
    rfl

theorem holds_align {st : Mbstate} {p src tail : List UInt8} {c : Char} (hp : Holds st p)
    (he : p ++ src = encode c ++ tail) : ∃ q, q ≠ [] ∧ encode c = p ++ q ∧ src = q ++ tail := by
  rcases List.prefix_or_prefix_of_prefix (List.prefix_append p src) ⟨tail,he.symm⟩ with ⟨q,hq⟩ | h
  · refine ⟨q,?_,hq.symm,?_⟩
    · rintro rfl
      rw [List.append_nil] at hq
      exact pending_no_char hp c (by rw [hq])
    · rw [← hq,List.append_assoc] at he
      exact List.append_cancel_left he
  · exact absurd h (pending_no_char hp c)

theorem text_nil : text [] = encode nul ++ [] := by
  rw [List.append_nil,text_eq,encode_nul]
  rfl

inductive Widens (cs : List Char) (src : List UInt8) (nms len count : Nat) (out : List Nat) (r : ToWide) : Prop
  | stops (k : Nat) (hk : k ≤ cs.length) (hkl : k ≤ len) (hr : r.ret = count + k)
      (ho : r.out = out ++ (cs.take k).map Char.toNat) (p s : List UInt8) (hs : r.src = some s)
      (hh : Holds r.state p) (he : p ++ s = text (cs.drop k)) (hle : s.length ≤ src.length)
      (hp : 0 < nms → 0 < len → s.length < src.length)
  | ends (hr : r.ret = count + cs.length) (hkl : cs.length < len) (ho : r.out = out ++ words cs)
      (hs : r.src = none)

section

variable (dst : Bool) (max len count : Nat) (out : List Nat) (tail : List UInt8) {ps : Mbstate} {p q : List UInt8} {c : Char}
  {nms : Nat} (hp : Holds ps p) (he : encode c = p ++ q)

include hp he

theorem mbsLoop_wait (hn : nms < q.length) :
    ∃ st', mbsLoop dst max (len + 1) (q ++ tail) nms count out ps =
      ⟨out,count,some ((q ++ tail).drop nms),st',false⟩ ∧ Holds st' (p ++ q.take nms) := by
  obtain ⟨st',hr,hst⟩ := mbrtowc_wait tail hp he hn
  refine ⟨st',?_,hst⟩
  rw [mbsLoop,hr]
  simp

theorem mbsLoop_nul (hq : q ≠ []) (hz : c.toNat = 0) (hn : q.length ≤ nms) :
    ∃ st', mbsLoop dst max (len + 1) (q ++ tail) nms count out ps =
      ⟨if dst then out ++ [0] else out,count,none,st',false⟩ := by
  obtain ⟨st',hr,hst⟩ := mbrtowc_take tail hp he hq hn
  refine ⟨st',?_⟩
  rw [mbsLoop,hr]
  simp [hz]

theorem mbsLoop_char (hq : q ≠ []) (hz : c.toNat ≠ 0) (hn : q.length ≤ nms) :
    mbsLoop dst max (len + 1) (q ++ tail) nms count out ps =
      mbsLoop dst max len tail (nms - q.length) (count + 1) (if dst then out ++ [c.toNat] else out)
        (mbrtowc (some (q ++ tail)) nms ps).conv.state ∧
      Holds (mbrtowc (some (q ++ tail)) nms ps).conv.state [] := by
  have hpos := List.length_pos_iff.mpr hq
  obtain ⟨st',hr,hst⟩ := mbrtowc_take tail hp he hq hn
  rw [mbsLoop,hr]
  refine ⟨?_,.none hst⟩
  simp [hz,hpos]

end

theorem widens_wait {cs : List Char} (max len count : Nat) (out : List Nat) {ps : Mbstate}
    {p q tail : List UInt8} {c : Char} {nms : Nat} (hp : Holds ps p) (hc : encode c = p ++ q)
    (he : p ++ (q ++ tail) = text cs) (hn : nms < q.length) :
    Widens cs (q ++ tail) nms (len + 1) count out (mbsLoop true max (len + 1) (q ++ tail) nms count out ps) := by
  obtain ⟨st',hr,hst⟩ := mbsLoop_wait true max len count out tail hp hc hn
  rw [hr]
  refine .stops 0 (Nat.zero_le _) (Nat.zero_le _) (by simp) (by simp) (p ++ q.take nms) _ rfl hst ?_ ?_ ?_
  · rw [List.drop_append_of_le_length (by omega),List.append_assoc,← List.append_assoc (q.take nms),
      List.take_append_drop,he]
    rfl
  · rw [List.length_drop]
    omega
  · intro h _
    rw [List.length_drop,List.length_append]
    omega

theorem mbsLoop_widens (max : Nat) (cs : List Char) (h : ∀ c ∈ cs, c.toNat ≠ 0) (len : Nat) (src : List UInt8)
    (nms count : Nat) (out : List Nat) {ps : Mbstate} {p : List UInt8} (hp : Holds ps p)
    (he : p ++ src = text cs) (hm : max = count + len) :
    Widens cs src nms len count out (mbsLoop true max len src nms count out ps) := by
  induction cs generalizing len src nms count out ps p with
  | nil =>
    cases len with
    | zero =>
      exact .stops 0 (Nat.le_refl _) (Nat.le_refl _) (by simp [mbsLoop,hm]) (by simp [mbsLoop]) p src rfl hp he
        (Nat.le_refl _) (by omega)
    | succ len =>
      obtain ⟨q,hq,hc,rfl⟩ := holds_align hp (he.trans text_nil)
      by_cases hn : q.length ≤ nms
      · obtain ⟨st',hr⟩ := mbsLoop_nul true max len count out [] hp hc hq nul_toNat hn
        rw [hr]
        exact .ends (by simp) (by simp) rfl rfl
      · exact widens_wait max len count out hp hc he (Nat.not_le.mp hn)
  | cons c cs ih =>
    cases len with
    | zero =>
      exact .stops 0 (Nat.zero_le _) (Nat.le_refl _) (by simp [mbsLoop,hm]) (by simp [mbsLoop]) p src rfl hp he
        (Nat.le_refl _) (by omega)
    | succ len =>
      obtain ⟨q,hq,hc,rfl⟩ := holds_align hp (he.trans (text_cons c cs))
      have hqpos := List.length_pos_iff.mpr hq
      by_cases hn : q.length ≤ nms
      · obtain ⟨hr,hst⟩ := mbsLoop_char true max len count out (text cs) hp hc hq
          (h c List.mem_cons_self) hn
        rw [hr]
        cases ih (fun d hd => h d (List.mem_cons_of_mem _ hd)) len (text cs) (nms - q.length) (count + 1)
            (out ++ [c.toNat]) hst rfl (by omega) with
        | stops k hk hkl hr' ho p' s hs hh he' hle hp' =>
          refine .stops (k + 1) (by simp only [List.length_cons]; omega) (by omega) ?_ ?_ p' s hs hh he' ?_ ?_
          · rw [if_pos rfl,hr']
            omega
          · rw [if_pos rfl,ho,List.take_succ_cons,List.map_cons,List.append_assoc]
            rfl
          · rw [List.length_append]
            omega
          · intro _ _
            rw [List.length_append]
            omega
        | ends hr' hkl ho hs =>
          refine .ends ?_ ?_ ?_ hs
          · rw [if_pos rfl,hr',List.length_cons]
            omega
          · rw [List.length_cons]
            omega
          · rw [if_pos rfl,ho,words_cons,List.append_assoc]
            rfl
      · exact widens_wait max len count out hp hc he (Nat.not_le.mp hn)

theorem mbsLoop_ret (cs : List Char) (h : ∀ c ∈ cs, c.toNat ≠ 0) (d d' : Bool) (m m' len len' : Nat)
    (src : List UInt8) (nms count : Nat) (out out' : List Nat) {ps : Mbstate} {p : List UInt8}
    (hp : Holds ps p) (he : p ++ src = text cs) (hl : cs.length < len) (hl' : cs.length < len') :
    (mbsLoop d m len src nms count out ps).ret = (mbsLoop d' m' len' src nms count out' ps).ret := by
  induction cs generalizing len len' src nms count out out' ps p with
  | nil =>
    obtain ⟨l,rfl⟩ := Nat.exists_eq_add_of_lt hl
    obtain ⟨l',rfl⟩ := Nat.exists_eq_add_of_lt hl'
    obtain ⟨q,hq,hc,rfl⟩ := holds_align hp (he.trans text_nil)
    by_cases hn : q.length ≤ nms
    · obtain ⟨st1,h1⟩ := mbsLoop_nul d m ([].length + l) count out [] hp hc hq nul_toNat hn
      obtain ⟨st2,h2⟩ := mbsLoop_nul d' m' ([].length + l') count out' [] hp hc hq nul_toNat hn
      rw [h1,h2]
    · obtain ⟨st1,h1,-⟩ := mbsLoop_wait d m ([].length + l) count out [] hp hc (Nat.not_le.mp hn)
      obtain ⟨st2,h2,-⟩ := mbsLoop_wait d' m' ([].length + l') count out' [] hp hc (Nat.not_le.mp hn)
      rw [h1,h2]
  | cons c cs ih =>
    obtain ⟨l,rfl⟩ := Nat.exists_eq_add_of_lt hl
    obtain ⟨l',rfl⟩ := Nat.exists_eq_add_of_lt hl'
    obtain ⟨q,hq,hc,rfl⟩ := holds_align hp (he.trans (text_cons c cs))
    by_cases hn : q.length ≤ nms
    · obtain ⟨h1,hst⟩ := mbsLoop_char d m ((c :: cs).length + l) count out (text cs) hp hc hq
        (h c List.mem_cons_self) hn
      obtain ⟨h2,-⟩ := mbsLoop_char d' m' ((c :: cs).length + l') count out' (text cs) hp hc hq
        (h c List.mem_cons_self) hn
      rw [h1,h2]
      rw [List.length_cons] at hl hl' ⊢
      exact ih (fun e he => h e (List.mem_cons_of_mem _ he)) _ _ _ _ _ _ _ hst rfl (by omega) (by omega)
    · obtain ⟨st1,h1,-⟩ := mbsLoop_wait d m ((c :: cs).length + l) count out (text cs) hp hc
        (Nat.not_le.mp hn)
      obtain ⟨st2,h2,-⟩ := mbsLoop_wait d' m' ((c :: cs).length + l') count out' (text cs) hp hc
        (Nat.not_le.mp hn)
      rw [h1,h2]

theorem mbsnrtowcs_widens {cs : List Char} (h : ∀ c ∈ cs, c.toNat ≠ 0) (nms len : Nat) {ps : Mbstate}
    {p src : List UInt8} (hp : Holds ps p) (he : p ++ src = text cs) :
    Widens cs src nms len 0 [] (mbsnrtowcs true src nms len ps) :=
  mbsLoop_widens len cs h len src nms 0 [] hp he (Nat.zero_add len).symm

theorem zero_not_mem_map {cs : List Char} (h : ∀ c ∈ cs, c.toNat ≠ 0) : 0 ∉ cs.map Char.toNat := by
  intro hm
  obtain ⟨c,hc,hz⟩ := List.mem_map.mp hm
  exact h c hc hz

theorem mbsnrtowcs_ok {cs : List Char} (h : ∀ c ∈ cs, c.toNat ≠ 0) (nms len : Nat) {ps : Mbstate}
    {p src : List UInt8} (hp : Holds ps p) (he : p ++ src = text cs) :
    (mbsnrtowcs true src nms len ps).Ok len := by
  cases mbsnrtowcs_widens h nms len hp he with
  | stops k hk hkl hr ho p' s hs hh he' hle hp' =>
    rw [List.nil_append] at ho
    constructor
    · rw [ho,List.length_map,List.length_take]
      omega
    · exact ⟨_,ho⟩
    · rw [hr,hs,ho,List.length_map,List.length_take,Nat.min_eq_left hk]
      simp
    · rw [hs,ho]
      simp only [reduceCtorEq,false_iff]
      exact zero_not_mem_map (fun c hc => h c (List.mem_of_mem_take hc))
  | ends hr hkl ho hs =>
    rw [List.nil_append] at ho
    have hlen : (words cs).length = cs.length + 1 := by simp [words]
    constructor
    · rw [ho,hlen]
      omega
    · exact ⟨cs ++ [nul],ho⟩
    · rw [hr,hs,ho,hlen]
      simp
    · rw [hs,ho]
      simp [words,nul_toNat]

theorem mbsRun_ok (lims : List (Nat × Nat)) {cs : List Char} (h : ∀ c ∈ cs, c.toNat ≠ 0) {ps : Mbstate}
    {p src : List UInt8} (hp : Holds ps p) (he : p ++ src = text cs) :
    ∀ x ∈ lims.zip (mbsRun (some src) ps lims).1, x.2.Ok x.1.2 := by
  induction lims generalizing cs ps p src with
  | nil => simp
  | cons lim lims ih =>
    rw [mbsRun]
    simp only [List.zip_cons_cons,List.forall_mem_cons]
    refine ⟨mbsnrtowcs_ok h lim.1 lim.2 hp he,?_⟩
    cases mbsnrtowcs_widens h lim.1 lim.2 hp he with
    | stops k hk hkl hr ho p' s hs hh he' hle hp' =>
      rw [hs]
      exact ih (fun c hc => h c (List.mem_of_mem_drop hc)) hh he'
    | ends hr hkl ho hs =>
      rw [hs]
      simp [mbsRun]

theorem mbsRun_widens (lims : List (Nat × Nat)) {cs : List Char} (h : ∀ c ∈ cs, c.toNat ≠ 0) {ps : Mbstate}
    {p src : List UInt8} (hp : Holds ps p) (he : p ++ src = text cs) :
    let q := mbsRun (some src) ps lims
    (∃ k s t, k ≤ cs.length ∧ q.1.flatMap ToWide.out = (cs.take k).map Char.toNat ∧ q.2.1 = some s ∧
        Holds q.2.2 t ∧ t ++ s = text (cs.drop k) ∧
        ((∀ lim ∈ lims, 0 < lim.1 ∧ 0 < lim.2) → s.length + lims.length ≤ src.length)) ∨
      (q.1.flatMap ToWide.out = words cs ∧ q.2.1 = none) := by
  induction lims generalizing cs ps p src with
  | nil => exact .inl ⟨0,src,p,Nat.zero_le _,rfl,rfl,hp,he,fun _ => Nat.le_refl _⟩
  | cons lim lims ih =>
    rw [mbsRun]
    dsimp only
    cases mbsnrtowcs_widens h lim.1 lim.2 hp he with
    | stops k hk hkl hr ho p' s hs hh he' hle hp' =>
      rw [List.nil_append] at ho
      rw [hs]
      rcases ih (fun c (hc : c ∈ cs.drop k) => h c (List.mem_of_mem_drop hc)) hh he' with
        ⟨j,s',t,hj,hjo,hjs,hjt,hje,hja⟩ | ⟨hjo,hjs⟩
      · rw [List.length_drop] at hj
        refine .inl ⟨k + j,s',t,by omega,?_,hjs,hjt,?_,?_⟩
        · rw [List.flatMap_cons,ho,hjo,List.take_add,List.map_append]
        · rw [hje,List.drop_drop]
        · intro ha
          obtain ⟨h1,h2⟩ := List.forall_mem_cons.mp ha
          have hlt := hp' h1.1 h1.2
          have hrec := hja h2
          rw [List.length_cons]
          omega
      · refine .inr ⟨?_,hjs⟩
        rw [List.flatMap_cons,ho,hjo,words,words,← List.map_append,← List.append_assoc,List.take_append_drop]
    | ends hr hkl ho hs =>
      rw [List.nil_append] at ho
      rw [hs]
      refine .inr ⟨?_,by rw [mbsRun]⟩
      rw [List.flatMap_cons,ho,mbsRun]
      simp

structure Resumable (cs : List Char) : Prop where
  bytes : ∀ lims : List (Nat × Nat), let q := wcsRun (some (words cs)) .initial lims
    (∀ x ∈ lims.zip q.1, x.2.Ok x.1.2) ∧
    ((∃ k, k ≤ cs.length ∧ q.1.flatMap ToBytes.out = encodeAll (cs.take k) ∧
        q.2 = some (words (cs.drop k))) ∨ (q.1.flatMap ToBytes.out = text cs ∧ q.2 = none)) ∧
    (WcsAmple (some (words cs)) .initial lims → cs.length < lims.length → q.2 = none)
  wide : ∀ lims : List (Nat × Nat), let q := mbsRun (some (text cs)) .initial lims
    (∀ x ∈ lims.zip q.1, x.2.Ok x.1.2) ∧
    ((∃ k s, k ≤ cs.length ∧ q.1.flatMap ToWide.out = (cs.take k).map Char.toNat ∧ q.2.1 = some s) ∨
      (q.1.flatMap ToWide.out = words cs ∧ q.2.1 = none)) ∧
    ((∀ lim ∈ lims, 0 < lim.1 ∧ 0 < lim.2) → (text cs).length ≤ lims.length → q.2.1 = none)
  bytesNeeded : ∀ (k nwc len : Nat) (ps : Mbstate), (text (cs.drop k)).length ≤ len →
    let r := wcsnrtombs false (words (cs.drop k)) nwc 0 ps
    r.ret = (wcsnrtombs true (words (cs.drop k)) nwc len ps).ret ∧ r.src = some (words (cs.drop k)) ∧ r.out = []
  wideNeeded : ∀ (lims : List (Nat × Nat)) (s : List UInt8) (nms len : Nat),
    (mbsRun (some (text cs)) .initial lims).2.1 = some s → cs.length < len →
    let ps := (mbsRun (some (text cs)) .initial lims).2.2
    let r := mbsnrtowcs false s nms 0 ps
    r.ret = (mbsnrtowcs true s nms len ps).ret ∧ r.src = some s ∧ r.out = []
  undo : ∀ lims lims' : List (Nat × Nat), let q := wcsRun (some (words cs)) .initial lims
    let q' := mbsRun (some (q.1.flatMap ToBytes.out)) .initial lims'
    q.2 = none → q'.2.1 = none → q'.1.flatMap ToWide.out = words cs

theorem encode_length_le (c : Char) : (encode c).length ≤ 4 := by
  rw [encode,String.length_utf8EncodeChar]
  exact c.utf8Size_le_four

theorem encodeAll_length_le (cs : List Char) : (encodeAll cs).length ≤ 4 * cs.length := by
  induction cs with
  | nil => simp [encodeAll]
  | cons c cs ih =>
    have hc := encode_length_le c
    rw [encodeAll_cons,List.length_append,List.length_cons]
    omega

theorem text_length_le (cs : List Char) : (text cs).length ≤ 4 * cs.length + 1 := by
  have h := encodeAll_length_le cs
  rw [text_eq,List.length_append,List.length_singleton]
  omega

theorem wcsLoop_dry (len : Nat) (ws : List Nat) (nwc n : Nat) (src : Option (List Nat)) (ps : Mbstate) :
    (wcsLoop false len ws nwc n [] src ps).src = src ∧ (wcsLoop false len ws nwc n [] src ps).out = [] := by
  induction ws generalizing nwc n with
  | nil => exact ⟨rfl,rfl⟩
  | cons w ws ih =>
    rw [wcsLoop]
    cases utf8Wctomb w with
    | none =>
      dsimp only
      split_ifs <;> exact ⟨rfl,rfl⟩
    | some buff =>
      simp only [Bool.false_eq_true,if_false]
      split_ifs
      · exact ⟨rfl,rfl⟩
      · exact ih _ _
      · exact ⟨rfl,rfl⟩
      · exact ⟨rfl,rfl⟩

theorem mbsLoop_dry (max len : Nat) (src : List UInt8) (nms count : Nat) (ps : Mbstate) :
    (mbsLoop false max len src nms count [] ps).out = [] := by
  induction len generalizing src nms count ps with
  | zero => rfl
  | succ len ih =>
    rw [mbsLoop]
    simp only [Bool.false_eq_true,if_false]
    split_ifs
    · exact ih _ _ _ _
    · rfl
    · rfl
    · rfl

theorem text_not_held {st : Mbstate} {cs : List Char} (h : Holds st (text cs)) : False := by
  cases cs with
  | nil => exact holds_short h nul [] text_nil.symm
  | cons c cs => exact holds_short h c (text cs) (text_cons c cs).symm

theorem bulk_conversion_resumable (cs : List Char) (h : ∀ c ∈ cs, c.toNat ≠ 0)
    (hfit : 4 * (cs.length + 1) ≤ sizeMax) : Resumable cs := by
  have hinit : Holds Mbstate.initial [] := .none rfl
  constructor
  · intro lims
    refine ⟨wcsRun_ok lims h .initial,?_⟩
    rcases wcsRun_stores lims h .initial with ⟨k,hk,ho,hs,ha⟩ | hend
    · refine ⟨.inl ⟨k,hk,ho,hs⟩,?_⟩
      intro hample hlen
      have := ha hample
      omega
    · exact ⟨.inr hend,fun _ _ => hend.2⟩
  · intro lims
    refine ⟨mbsRun_ok lims h hinit rfl,?_⟩
    rcases mbsRun_widens lims h hinit (List.nil_append _) with ⟨k,s,t,hk,ho,hs,ht,he,ha⟩ | hend
    · refine ⟨.inl ⟨k,s,hk,ho,hs⟩,?_⟩
      intro hpos hlen
      have hle := ha hpos
      obtain rfl : s = [] := List.eq_nil_of_length_eq_zero (by omega)
      rw [List.append_nil] at he
      exact absurd (he ▸ ht) text_not_held
    · exact ⟨.inr hend,fun _ _ => hend.2⟩
  · intro k nwc len ps hlen
    have hd : ∀ c ∈ cs.drop k, c.toNat ≠ 0 := fun c hc => h c (List.mem_of_mem_drop hc)
    have hsmall := text_length_le (cs.drop k)
    rw [List.length_drop] at hsmall
    refine ⟨?_,(wcsLoop_dry _ _ _ _ _ _).1,(wcsLoop_dry _ _ _ _ _ _).2⟩
    unfold wcsnrtombs
    rw [if_neg (by decide),if_pos rfl,wcsLoop_room false sizeMax _ hd nwc 0 [] _ ps (by omega),
      wcsLoop_room true len _ hd nwc 0 [] _ ps (by omega)]
  · intro lims s nms len hs hlen
    rcases mbsRun_widens lims h hinit (List.nil_append _) with ⟨k,s',t,hk,ho,hs',ht,he,ha⟩ | ⟨-,hend⟩
    · obtain rfl : s' = s := Option.some.inj (hs'.symm.trans hs)
      have hd : ∀ c ∈ cs.drop k, c.toNat ≠ 0 := fun c hc => h c (List.mem_of_mem_drop hc)
      refine ⟨?_,rfl,mbsLoop_dry _ _ _ _ _ _⟩
      apply mbsLoop_ret (cs.drop k) hd
      · exact ht
      · exact he
      · rw [List.length_drop,if_neg (by decide)]
        omega
      · rw [List.length_drop,if_pos rfl]
        omega
    · rw [hend] at hs
      cases hs
  · intro lims lims' q q' hq hq'
    rcases wcsRun_stores lims h .initial with ⟨k,-,-,hs,-⟩ | ⟨ho,-⟩
    · rw [hs] at hq
      cases hq
    · have htext : q.1.flatMap ToBytes.out = text cs := ho
      rcases mbsRun_widens lims' h hinit ((List.nil_append _).trans htext) with ⟨k,s,t,-,-,hs,-⟩ | ⟨hw,-⟩
      · exact absurd (hs.symm.trans hq') (by simp)
      · exact hw

theorem bulk_conversion_two_chars : Resumable [Char.ofNat 0xe9,Char.ofNat 0x1f680] ∧
    (wcsRun (some (words [Char.ofNat 0xe9,Char.ofNat 0x1f680])) .initial
      [(5,3),(1,4),(2,9)]).1.map ToBytes.ret = [2,4,0] := by
  refine ⟨bulk_conversion_resumable _ ?_ (by decide),by decide⟩
  rw [List.forall_mem_cons,List.forall_mem_singleton]
  exact ⟨by decide,by decide⟩

end Multibyte
