import Mathlib
import Picolibc.Multibyte.Bulk
import Picolibc.Multibyte.Units

namespace Multibyte

open Utf8 PrefixCode

variable {α : Type}

def Got.used (g : Got α) (n : Nat) : Nat :=
  if g.ret = -3 ∨ g.ret = -1 then 0 else if g.ret = -2 then n else if g.ret = 0 then 1 else g.ret.toNat

def Got.mark (g : Got α) : Option (α × Bool) := g.unit.map fun u => (u,decide (g.ret = -3))

def readUnits (f : List UInt8 → Nat → Shared → Got α) : Shared → List UInt8 → List Nat → List (Got α)
  | _, _, [] => []
  | ps, rest, n :: ns =>
    let r := f rest (min n rest.length) ps
    r :: readUnits f r.state (rest.drop (r.used (min n rest.length))) ns

def marks (enc : Char → List α) (c : Char) : List (α × Bool) :=
  match enc c with
  | [] => []
  | u :: us => (u,false) :: us.map fun v => (v,true)

structure Got.Fine (g : Got α) : Prop where
  ret : g.ret ≠ -1
  unit : g.unit = none ↔ g.ret = -2
  errno : g.eilseq = false

structure Reader (enc : Char → List α) (f : List UInt8 → Nat → Shared → Got α)
    (Pend : Shared → List α → Prop) : Prop where
  pend : ∀ {ps u us}, Pend ps (u :: us) → ∀ s n, ∃ ps', f s n ps = ⟨ps',-3,some u,false⟩ ∧ Pend ps' us
  done : ∀ {ps}, Pend ps [] → ps.count = 0
  wait : ∀ {ps s n st}, 0 ≤ ps.count → mbrtowc (some s) n ps.mb = ⟨⟨st,-2,none⟩,false⟩ →
    f s n ps = ⟨st.shared,-2,none,false⟩
  take : ∀ {ps s n st c ret}, 0 ≤ ps.count → 0 ≤ ret → st.count = 0 →
    mbrtowc (some s) n ps.mb = ⟨⟨st,ret,some (Char.toNat c)⟩,false⟩ →
    ∃ ps' u us, f s n ps = ⟨ps',ret,some u,false⟩ ∧ enc c = u :: us ∧ Pend ps' us

inductive Due (enc : Char → List α) (Pend : Shared → List α → Prop) (ps : Shared) (rest : List UInt8) :
    List (α × Bool) → Prop
  | pending (u : α) (us : List α) (cs : List Char) (hp : Pend ps (u :: us)) (hr : rest = encodeAll cs) :
      Due enc Pend ps rest ((u :: us).map (fun v => (v,true)) ++ cs.flatMap (marks enc))
  | idle (p : List UInt8) (cs : List Char) (h0 : 0 ≤ ps.count) (hp : Holds ps.mb p)
      (hr : p ++ rest = encodeAll cs) : Due enc Pend ps rest (cs.flatMap (marks enc))

theorem shared_mb (st : Mbstate) : st.shared.mb = st := by
  simp [Mbstate.shared,Shared.mb]

section

variable {enc : Char → List α} {f : List UInt8 → Nat → Shared → Got α} {Pend : Shared → List α → Prop}
  (h : Reader enc f Pend)

include h

theorem Reader.due {ps : Shared} {us : List α} (hp : Pend ps us) (cs : List Char) :
    Due enc Pend ps (encodeAll cs) (us.map (fun v => (v,true)) ++ cs.flatMap (marks enc)) := by
  cases us with
  | nil =>
    have h0 := h.done hp
    refine .idle [] cs (by omega) (.none ?_) rfl
    simp [Shared.mb,h0]
  | cons u us => exact .pending u us cs hp rfl

theorem Reader.step {ps : Shared} {rest : List UInt8} {ms : List (α × Bool)} (hd : Due enc Pend ps rest ms)
    {n : Nat} (hn : n ≤ rest.length) :
    (f rest n ps).Fine ∧ ∃ ms', Due enc Pend (f rest n ps).state (rest.drop ((f rest n ps).used n)) ms' ∧
      (f rest n ps).mark.toList ++ ms' = ms ∧
      ((rest ≠ [] → 0 < n) →
        ms = [] ∨ ms'.length + (rest.drop ((f rest n ps).used n)).length < ms.length + rest.length) := by
  cases hd with
  | pending u us cs hp hr =>
    obtain ⟨ps',hf,hp'⟩ := h.pend hp rest n
    rw [hf]
    refine ⟨⟨by simp,by simp,rfl⟩,us.map (fun v => (v,true)) ++ cs.flatMap (marks enc),?_,rfl,fun _ => .inr ?_⟩
    · rw [hr]
      exact h.due hp' cs
    · simp [Got.used]
  | idle p cs h0 hp hr =>
    cases cs with
    | nil =>
      obtain ⟨rfl,rfl⟩ := List.append_eq_nil_iff.mp hr
      obtain rfl : n = 0 := Nat.le_zero.mp hn
      have hz : mbrtowc (some []) 0 ps.mb = ⟨⟨ps.mb,-2,none⟩,false⟩ := by simp [mbrtowc,utf8Mbtowc]
      rw [h.wait h0 hz]
      refine ⟨⟨by simp,by simp,rfl⟩,_,.idle [] [] ?_ ?_ rfl,rfl,fun _ => .inl rfl⟩
      · exact Int.natCast_nonneg _
      · rw [shared_mb]
        exact hp
    | cons c cs =>
      obtain ⟨q,hq,he,hrest⟩ := holds_align hp (hr.trans (List.flatMap_cons))
      subst hrest
      by_cases hlt : n < q.length
      · obtain ⟨st,hm,hh⟩ := mbrtowc_wait (encodeAll cs) hp he hlt
        rw [h.wait h0 hm]
        refine ⟨⟨by simp,by simp,rfl⟩,_,.idle (p ++ q.take n) (c :: cs) ?_ ?_ ?_,rfl,fun hpos => .inr ?_⟩
        · exact Int.natCast_nonneg _
        · rw [shared_mb]
          exact hh
        · have hdrop : (q ++ encodeAll cs).drop n = q.drop n ++ encodeAll cs := by
            rw [List.drop_append_of_le_length (by omega)]
          have hused : Got.used (⟨st.shared,-2,none,false⟩ : Got α) n = n := rfl
          rw [hused,hdrop,← List.append_assoc,List.append_assoc p,List.take_append_drop,← he]
          exact List.flatMap_cons.symm
        · have hused : Got.used (⟨st.shared,-2,none,false⟩ : Got α) n = n := rfl
          have := hpos (fun hnil => hq (List.append_eq_nil_iff.mp hnil).1)
          rw [hused,List.length_drop]
          omega
      · obtain ⟨st,hm,hc⟩ := mbrtowc_take (encodeAll cs) hp he hq (show q.length ≤ n by omega)
        have hqpos := List.length_pos_iff.mpr hq
        have hret : (0 : Int) ≤ if c.toNat = 0 then 0 else (q.length : Int) := by
          split_ifs <;> omega
        obtain ⟨ps',u,us,hf,henc,hp'⟩ := h.take h0 hret hc hm
        have hused : (f (q ++ encodeAll cs) n ps).used n = q.length := by
          rw [hf]
          unfold Got.used
          dsimp only
          by_cases hz : c.toNat = 0
          · have hlen := congrArg List.length he
            rw [show c = nul from Char.toNat_inj.mp (hz.trans nul_toNat.symm),encode_nul,List.length_append] at hlen
            simp only [hz]
            simp at hlen ⊢
            omega
          · rw [if_neg hz,if_neg (by omega),if_neg (by omega),if_neg (by omega)]
            omega
        have hmarks : marks enc c = (u,false) :: us.map (fun v => (v,true)) := by
          simp [marks,henc]
        have hthree : ¬(if c.toNat = 0 then 0 else (q.length : Int)) = -3 := by omega
        rw [hused,List.drop_left,hf]
        refine ⟨⟨?_,?_,rfl⟩,us.map (fun v => (v,true)) ++ cs.flatMap (marks enc),h.due hp' cs,?_,fun _ => .inr ?_⟩
        · dsimp only
          omega
        · simp only [reduceCtorEq,false_iff]
          omega
        · simp [Got.mark,List.flatMap_cons,hmarks,hthree]
        · simp [List.flatMap_cons,hmarks]
          omega

theorem Reader.run (ns : List Nat) {ps : Shared} {rest : List UInt8} {ms : List (α × Bool)}
    (hd : Due enc Pend ps rest ms) : (∀ g ∈ readUnits f ps rest ns, g.Fine) ∧
      ∃ ms', (readUnits f ps rest ns).filterMap Got.mark ++ ms' = ms ∧
        ((∀ n ∈ ns, 0 < n) → ms' = [] ∨ ms'.length + ns.length ≤ ms.length + rest.length) := by
  induction ns generalizing ps rest ms with
  | nil => exact ⟨by simp [readUnits],ms,by simp [readUnits],fun _ => .inr (by simp)⟩
  | cons n ns ih =>
    obtain ⟨hfine,ms1,hd1,hm1,hless⟩ := h.step hd (n := min n rest.length) (Nat.min_le_right _ _)
    obtain ⟨hall,ms2,hm2,hlen⟩ := ih hd1
    simp only [readUnits]
    refine ⟨?_,ms2,?_,fun hpos => ?_⟩
    · intro g hg
      rcases List.mem_cons.mp hg with rfl | hg
      · exact hfine
      · exact hall g hg
    · rw [List.filterMap_cons,← hm1,← hm2]
      cases (f rest (min n rest.length) ps).mark <;> simp
    · have hn := hpos n List.mem_cons_self
      rcases hless (fun hne => by have := List.length_pos_iff.mpr hne; omega) with rfl | hlt
      · rw [← hm2,← List.append_assoc] at hm1
        exact .inl (List.append_eq_nil_iff.mp hm1).2
      · rcases hlen (fun m hm => hpos m (List.mem_cons_of_mem _ hm)) with hnil | hle
        · exact .inl hnil
        · rw [List.length_cons]
          omega

end

structure Reads (enc : Char → List α) (f : List UInt8 → Nat → Shared → Got α) (cs : List Char)
    (ns : List Nat) : Prop where
  fine : ∀ g ∈ readUnits f .initial (encodeAll cs) ns, g.Fine
  order : (readUnits f .initial (encodeAll cs) ns).filterMap Got.mark <+: cs.flatMap (marks enc)
  whole : (∀ n ∈ ns, 0 < n) → (cs.flatMap (marks enc)).length + (encodeAll cs).length ≤ ns.length →
    (readUnits f .initial (encodeAll cs) ns).filterMap Got.mark = cs.flatMap (marks enc)

theorem Reader.reads {enc : Char → List α} {f : List UInt8 → Nat → Shared → Got α}
    {Pend : Shared → List α → Prop} (h : Reader enc f Pend) (h0 : Pend .initial []) (cs : List Char)
    (ns : List Nat) : Reads enc f cs ns := by
  obtain ⟨hfine,ms,hm,hlen⟩ := h.run ns (h.due h0 cs)
  rw [List.map_nil,List.nil_append] at hm hlen
  refine ⟨hfine,⟨ms,hm⟩,fun hpos hle => ?_⟩
  rcases hlen hpos with rfl | hms
  · rw [← hm,List.append_nil]
  · obtain rfl : ms = [] := List.length_eq_zero_iff.mp (by omega)
    rw [← hm,List.append_nil]

def conts (v : Nat) : Nat → List UInt8
  | 0 => []
  | k + 1 => UInt8.ofNat (0x80 ||| ((v >>> (6 * k)) &&& 0x3f)) :: conts v k

def Pend8 (big : Bool) (ps : Shared) (us : List UInt8) : Prop :=
  ∃ k : Nat, ps.count = -k ∧ us = conts (ps.ucs big) k

theorem cont_byte (v k : Nat) {b : UInt8} (hb : b.toNat = v / 2 ^ k % 64 + 0x80) :
    UInt8.ofNat (0x80 ||| ((v >>> k) &&& 0x3f)) = b := by
  apply UInt8.toNat_inj.mp
  rw [show 0x3f = 2 ^ 6 - 1 by rfl,Nat.and_two_pow_sub_one_eq_mod,or_lead 0x80 1 7 rfl (by omega),
    UInt8.toNat_ofNat',Nat.shiftRight_eq_div_pow,hb]
  omega

theorem lead_byte (z x k v j : Nat) (hz : z = x * 2 ^ k) (hv : v / 2 ^ j < 2 ^ k) {a : UInt8}
    (ha : a.toNat = v / 2 ^ j + z) : UInt8.ofNat (z ||| (v >>> j)) = a := by
  apply UInt8.toNat_inj.mp
  rw [Nat.shiftRight_eq_div_pow,or_lead z x k hz hv,UInt8.toNat_ofNat',← ha]
  exact Nat.mod_eq_of_lt a.toNat_lt

theorem encode_units {c : Char} (h : 0x7f < c.toNat) :
    encode c = UInt8.ofNat ((unitCount c.toNat 6 1 0xc0).2 ||| (c.toNat >>> (6 * (unitCount c.toNat 6 1 0xc0).1))) ::
      conts c.toNat (unitCount c.toNat 6 1 0xc0).1 := by
  have hc := toNat_valid c
  cases shape c with
  | one he ha hv => omega
  | two he ha hb hl hv =>
    have hcount : unitCount c.toNat 6 1 0xc0 = (1,0xc0) := by
      rw [unitCount,if_neg (by simp only [Nat.shiftLeft_eq]; omega)]
    rw [he,hcount,lead_byte 0xc0 3 6 c.toNat (6 * 1) rfl (by omega) (ha.trans (by omega)),conts,conts,
      cont_byte c.toNat (6 * 0) (hb.trans (by omega))]
  | three he ha hb hd hl hv =>
    have hcount : unitCount c.toNat 6 1 0xc0 = (2,0xe0) := by
      rw [unitCount,if_pos (by simp only [Nat.shiftLeft_eq]; omega),unitCount,
        if_neg (by simp only [Nat.shiftLeft_eq]; omega)]
      rfl
    rw [he,hcount,lead_byte 0xe0 7 5 c.toNat (6 * 2) rfl (by omega) (ha.trans (by omega)),conts,conts,conts,
      cont_byte c.toNat (6 * 1) (hb.trans (by omega)),cont_byte c.toNat (6 * 0) (hd.trans (by omega))]
  | four he ha hb hd he' hl =>
    have hcount : unitCount c.toNat 6 1 0xc0 = (3,0xf0) := by
      rw [unitCount,if_pos (by simp only [Nat.shiftLeft_eq]; omega),unitCount,
        if_pos (by simp only [Nat.shiftLeft_eq]; omega),unitCount,
        if_neg (by simp only [Nat.shiftLeft_eq]; omega)]
      rfl
    rw [he,hcount,lead_byte 0xf0 15 4 c.toNat (6 * 3) rfl (by omega) (ha.trans (by omega)),conts,conts,conts,conts,
      cont_byte c.toNat (6 * 2) (hb.trans (by omega)),cont_byte c.toNat (6 * 1) (hd.trans (by omega)),
      cont_byte c.toNat (6 * 0) (he'.trans (by omega))]

theorem mbrtoc8_reader (big : Bool) : Reader encode (mbrtoc8 big) (Pend8 big) := by
  refine ⟨fun {ps u us} hp s n => ?_,fun {ps} hp => ?_,fun {ps s n st} h0 hm => ?_,
    fun {ps s n st c ret} h0 hret hst hm => ?_⟩
  · obtain ⟨k,hk,hus⟩ := hp
    cases k with
    | zero => cases hus
    | succ k =>
      rw [conts,List.cons.injEq] at hus
      obtain ⟨rfl,rfl⟩ := hus
      have hcount : (-ps.count).toNat - 1 = k := by omega
      refine ⟨{ ps with count := -k },?_,k,rfl,rfl⟩
      unfold mbrtoc8
      rw [if_pos (by omega)]
      simp only [hcount]
  · obtain ⟨k,hk,hus⟩ := hp
    cases k with
    | zero => simpa using hk
    | succ k => cases hus
  · unfold mbrtoc8
    rw [if_neg (by omega)]
    simp [mbrtoc32,hm]
  · have hne : ¬(ret = -2 ∨ ret = -1) := by omega
    unfold mbrtoc8
    rw [if_neg (by omega)]
    simp only [mbrtoc32,hm,if_neg hne]
    by_cases h7 : 0x7f < c.toNat
    · rw [if_pos h7]
      have hc := toNat_valid c
      have hucs : ∀ k, Shared.ucs big { st.shared.setUcs big c.toNat with count := k } = c.toNat :=
        fun k => ucs_setUcs big st.shared (by omega)
      exact ⟨_,_,_,rfl,encode_units h7,_,rfl,by rw [hucs]⟩
    · rw [if_neg h7]
      cases shape c with
      | one he ha hv =>
        refine ⟨_,_,_,rfl,?_,0,?_,rfl⟩
        · rw [he,conts,← ha,UInt8.ofNat_toNat]
        · simp [Mbstate.shared,hst]
      | two he ha hb hl hv => omega
      | three he ha hb hd hl hv => omega
      | four he ha hb hd he' hl => omega

def Pend16 (big : Bool) (ps : Shared) (us : List UInt16) : Prop :=
  (ps.count = 0 ∧ us = []) ∨
    (ps.count = -1 ∧ us = [UInt16.ofNat ((ps.ucs big &&& 0x3ff) + lowSurrogateFirst)])

theorem mbrtoc16_reader (big : Bool) : Reader encode16 (mbrtoc16 big) (Pend16 big) := by
  refine ⟨fun {ps u us} hp s n => ?_,fun {ps} hp => ?_,fun {ps s n st} h0 hm => ?_,
    fun {ps s n st c ret} h0 hret hst hm => ?_⟩
  · rcases hp with ⟨-,hus⟩ | ⟨hc,hus⟩
    · cases hus
    · obtain ⟨rfl,rfl⟩ := List.cons.inj hus
      refine ⟨{ ps.setUcs big 0 with count := 0 },?_,.inl ⟨rfl,rfl⟩⟩
      rw [mbrtoc16,if_pos hc]
  · rcases hp with ⟨hc,-⟩ | ⟨-,hus⟩
    · exact hc
    · cases hus
  · unfold mbrtoc16
    rw [if_neg (by omega)]
    simp [hm]
  · have hne : ¬(ret = -2 ∨ ret = -1) := by omega
    unfold mbrtoc16
    rw [if_neg (by omega)]
    simp only [hm,if_neg hne,Option.getD_some]
    cases shape16 c with
    | one he ha hv =>
      rw [if_neg (by omega)]
      refine ⟨_,_,[],rfl,?_,.inl ⟨?_,rfl⟩⟩
      · rw [he,← ha,UInt16.ofNat_toNat]
      · simp [Mbstate.shared,hst]
    | @two a b he ha hb hl hv =>
      rw [if_pos hl]
      have hucs : Shared.ucs big { st.shared.setUcs big c.toNat with count := -1 } = c.toNat :=
        ucs_setUcs big st.shared (by omega)
      refine ⟨_,_,[UInt16.ofNat ((c.toNat &&& 0x3ff) + lowSurrogateFirst)],rfl,?_,.inr ⟨rfl,by rw [hucs]⟩⟩
      have hhigh : UInt16.ofNat ((c.toNat - 0x10000) >>> 10 + highSurrogateFirst) = a := by
        apply UInt16.toNat_inj.mp
        rw [ha,Nat.shiftRight_eq_div_pow,UInt16.toNat_ofNat',highSurrogateFirst]
        omega
      have hlow : UInt16.ofNat ((c.toNat &&& 0x3ff) + lowSurrogateFirst) = b := by
        apply UInt16.toNat_inj.mp
        rw [hb,mask_ten,UInt16.toNat_ofNat',lowSurrogateFirst]
        omega
      rw [he,hhigh,hlow]

def Inverse (big : Bool) (cs : List Char) (ns : List Nat) : Prop :=
  (∃ ps, feedUnits (c8rtomb big true) .initial (cs.flatMap encode) = some (encodeAll cs,ps)) ∧
    (∃ ps, feedUnits (c16rtomb big true) .initial (cs.flatMap encode16) = some (encodeAll cs,ps)) ∧
    Reads encode (mbrtoc8 big) cs ns ∧ Reads encode16 (mbrtoc16 big) cs ns

theorem uchar_transducers (big : Bool) (cs : List Char) (ns : List Nat) (us : List UInt8) (ws : List UInt16) :
    (Inverse big cs ns ∧ Stops encode (c8rtomb big true) us ∧ Stops encode16 (c16rtomb big true) ws) ↔
      ∀ (ds : List Char) (u : UInt8), overlongLead u → ¬ds.flatMap encode ++ [u] <+: us := by
  rw [← (c8rtomb_transducer big).stops_iff us]
  obtain ⟨ps,h8,-⟩ := (c8rtomb_transducer big).writes cs
  obtain ⟨ps',h16,-⟩ := (c16rtomb_transducer big).writes cs
  have hinv : Inverse big cs ns :=
    ⟨⟨ps,h8⟩,⟨ps',h16⟩,(mbrtoc8_reader big).reads ⟨0,rfl,rfl⟩ cs ns,
      (mbrtoc16_reader big).reads (.inl ⟨rfl,rfl⟩) cs ns⟩
  have hw : Stops encode16 (c16rtomb big true) ws :=
    ((c16rtomb_transducer big).stops_iff ws).mpr (fun _ _ hf => hf.elim)
  exact ⟨fun h => h.2.1,fun h => ⟨hinv,h,hw⟩⟩

theorem late_lead_accepted : (c8rtomb false true 0xf8 .initial).ret = 0 ∧ ¬Alive encode [0xf8] ∧
    ¬Stops encode (c8rtomb false true) [0xf8] := by
  have hret : (c8rtomb false true 0xf8 .initial).ret = 0 := by decide
  have hdead : ¬Alive encode [0xf8] := by
    refine encode_code.dead_snoc (q := []) [] (begun_nil encode_code 'a') (fun c hp => ?_)
    have := prefix_one hp
    revert this
    decide
  refine ⟨hret,hdead,fun hs => ?_⟩
  obtain ⟨cs,q,ps,-,-,hf,hiff,-⟩ := hs [] 0xf8 List.prefix_rfl ⟨[],[],rfl⟩
  have hps : Shared.initial = ps := congrArg Prod.snd (Option.some.inj hf)
  rw [← hps] at hiff
  have := hiff.mp hdead
  omega

end Multibyte
