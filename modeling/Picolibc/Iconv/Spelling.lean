import Mathlib
import Picolibc.Iconv.Loop

namespace Iconv

open Multibyte Utf8

def Item.kept (i : Item) : Bool := !i.image.isEmpty

def Undecodable (f : Charset) (st : Mbstate) (text : List UInt8) : Prop :=
  ∀ w wc v, f.Code st w wc v → ¬w <+: text

def Broken (f : Charset) (st : Mbstate) (w following : List UInt8) : Prop := Undecodable f st (w ++ following)

def LoneByte (f : Charset) (st : Mbstate) (w following : List UInt8) : Prop := w.length = 1 ∧ Broken f st w following

inductive Spells (f t : Charset) (Bad : Mbstate → List UInt8 → List UInt8 → Prop) :
    Mbstate → Mbstate → List Item → Prop
  | nil {st ost : Mbstate} : Spells f t Bad st ost []
  | kept {st ost ost' : Mbstate} {i : Item} {l : List Item} {v : Nat} : f.Code st i.code i.char v →
      t.wctomb i.char ost = (ost',some i.image) → (∀ st', st'.count = v → Spells f t Bad st' ost' l) →
      Spells f t Bad st ost (i :: l)
  | lost {st ost ost' : Mbstate} {i : Item} {l : List Item} {v : Nat} : i.image = [] → f.Code st i.code i.char v →
      t.wctomb i.char ost = (ost',none) → (∀ st', st'.count = v → Spells f t Bad st' ost' l) →
      Spells f t Bad st ost (i :: l)
  | bad {st ost : Mbstate} {i : Item} {l : List Item} : i.image = [] → i.code ≠ [] → Bad st i.code (codes l) →
      Spells f t Bad st ost l → Spells f t Bad st ost (i :: l)

def dropped (l : List Item) : Nat := l.countP fun i => !i.kept

section

variable {f t : Charset} {Bad : Mbstate → List UInt8 → List UInt8 → Prop} {st ost : Mbstate} {l : List Item}

theorem kept_image {i : Item} {wc : Nat} {ost' : Mbstate} (h : t.wctomb wc ost = (ost',some i.image)) : i.kept = true := by
  have hpos := (t.fits h).1
  rw [Item.kept,Bool.not_eq_true',List.isEmpty_eq_false_iff]
  exact List.length_pos_iff.mp hpos

theorem not_kept {i : Item} : i.kept = false ↔ i.image = [] := by
  rw [Item.kept,Bool.not_eq_false',List.isEmpty_iff]

theorem Spells.code_ne_nil {i : Item} (h : Spells f t Bad st ost (i :: l)) : i.code ≠ [] := by
  cases h with
  | kept hcode => exact f.reads.nonempty hcode
  | lost _ hcode => exact f.reads.nonempty hcode
  | bad _ hne => exact hne

theorem Spells.nil_of_codes (h : Spells f t Bad st ost l) (hc : codes l = []) : l = [] := by
  cases l with
  | nil => rfl
  | cons i l =>
    rw [codes_cons,List.append_eq_nil_iff] at hc
    exact absurd hc.1 h.code_ne_nil

theorem Spells.mono {Bad' : Mbstate → List UInt8 → List UInt8 → Prop}
    (hbad : ∀ st w following, Bad st w following → Bad' st w following) (h : Spells f t Bad st ost l) :
    Spells f t Bad' st ost l := by
  induction h with
  | nil => exact .nil
  | kept hcode hwc _ ih => exact .kept hcode hwc ih
  | lost him hcode hwc _ ih => exact .lost him hcode hwc ih
  | bad him hne hb _ ih => exact .bad him hne (hbad _ _ _ hb) ih

theorem Spells.leads (h : Spells f t Bad st ost l) :
    Leads f t (fun st ost => Spells f t Bad st ost (l.dropWhile Item.kept)) st ost (l.takeWhile Item.kept) := by
  induction l generalizing st ost with
  | nil => exact h
  | cons i l ih =>
    cases hk : i.kept with
    | false =>
      rw [List.dropWhile_cons_of_neg (by simp [hk]),List.takeWhile_cons_of_neg (by simp [hk])]
      exact h
    | true =>
      rw [List.dropWhile_cons_of_pos hk,List.takeWhile_cons_of_pos hk]
      cases h with
      | kept hcode hwc hrest => exact ⟨_,_,hcode,hwc,fun st' hst => ih (hrest st' hst)⟩
      | lost him => simp [Item.kept,him] at hk
      | bad him => simp [Item.kept,him] at hk

theorem Leads.spells {post : List Item} (h : Leads f t (fun st ost => Spells f t Bad st ost post) st ost l) :
    Spells f t Bad st ost (l ++ post) := by
  induction l generalizing st ost with
  | nil => exact h
  | cons i l ih =>
    obtain ⟨v,ost',hcode,hwc,hrest⟩ := h
    exact .kept hcode hwc (fun st' hst => ih (hrest st' hst))

theorem Spared.front {mode : Mode} {unread spare : Nat} {post : List Item} (h : Spared f mode unread spare (l ++ post)) :
    Spared f mode unread spare l where
  nul pre i rest he := h.nul pre i (rest ++ post) (by rw [he,List.append_assoc]; rfl)
  tail pre i rest he := h.tail pre i (rest ++ post) (by rw [he,List.append_assoc]; rfl)

theorem after_append {l post : List Item} {n : Nat} (h : n ≤ (codes l).length) : after (l ++ post) n = after l n ++ post := by
  induction l generalizing n with
  | nil =>
    obtain rfl : n = 0 := Nat.le_zero.mp h
    rw [after_zero,List.nil_append]
    rfl
  | cons i l ih =>
    rw [codes_cons,List.length_append] at h
    by_cases hz : n = 0
    · rw [hz,after_zero,after_zero]
    · rw [List.cons_append,after,after,if_neg hz,if_neg hz]
      by_cases hi : i.code.length ≤ n
      · rw [if_pos hi,if_pos hi,ih (by omega)]
      · rw [if_neg hi,if_neg hi,List.cons_append]

theorem dropped_append (l l' : List Item) : dropped (l ++ l') = dropped l + dropped l' := List.countP_append

theorem dropped_kept (hl : ∀ i ∈ l, i.kept = true) : dropped l = 0 := by
  rw [dropped,List.countP_eq_zero]
  intro i hi
  simp [hl i hi]

theorem dropped_after (n : Nat) (hl : ∀ i ∈ l, i.kept = true) : dropped (after l n) = 0 := by
  induction l generalizing n with
  | nil => rfl
  | cons i l ih =>
    have hi := hl i List.mem_cons_self
    have hl' := fun j hj => hl j (List.mem_cons_of_mem i hj)
    rw [after]
    split_ifs with hz hle
    · exact dropped_kept hl
    · exact ih _ hl'
    · exact dropped_kept (List.forall_mem_cons.mpr ⟨hi,hl'⟩)

end

def Rest (f : Charset) (v : Nat) : Prop := v = 0 ∨ ∃ st w wc, f.Code st w wc v

def Settled (f : Charset) : Prop := ∀ v, Rest f v → ∀ st₁ st₂ : Mbstate, st₁.count = v → st₂.count = v →
  ∀ w wc v', f.Code st₁ w wc v' → f.Code st₂ w wc v'

theorem single_settled {conv : UInt8 → Option Nat} {st₁ st₂ : Mbstate} (h : st₁.count = st₂.count) {w : List UInt8}
    {wc v : Nat} (hc : SingleCode conv st₁ w wc v) : SingleCode conv st₂ w wc v := by
  obtain ⟨b,hw,hb,hv⟩ := hc
  exact ⟨b,hw,hb,h ▸ hv⟩

theorem ucs_settled {width : Nat} {big : Bool} {st₁ st₂ : Mbstate} (h : st₁.count = st₂.count) {w : List UInt8}
    {wc v : Nat} (hc : UcsCode width big st₁ w wc v) : UcsCode width big st₂ w wc v :=
  ⟨hc.1,hc.2.1,h ▸ hc.2.2⟩

theorem utf8_settled {st₁ st₂ : Mbstate} (h₁ : st₁.count = 0) (h₂ : st₂.count = 0) {w : List UInt8} {wc v : Nat}
    (hc : Utf8Code st₁ w wc v) : Utf8Code st₂ w wc v := by
  obtain ⟨p,c,hp,hrest⟩ := hc
  cases hp with
  | none => exact ⟨[],c,.none h₂,hrest⟩
  | one h => omega
  | two h => omega
  | three h => omega

theorem sjis_settled {host : Host} {st₁ st₂ : Mbstate} (h₁ : st₁.count = 0) (h₂ : st₂.count = 0) {w : List UInt8}
    {wc v : Nat} (hc : SjisCode host st₁ w wc v) : SjisCode host st₂ w wc v := by
  cases hc with
  | nul => exact .nul h₂
  | one _ ha hb hz ht => exact .one h₂ ha hb hz ht
  | two _ ha hb ht => exact .two h₂ ha hb ht
  | second h => omega

theorem eucjp_settled {host : Host} {st₁ st₂ : Mbstate} (h₁ : st₁.count = 0) (h₂ : st₂.count = 0) {w : List UInt8}
    {wc v : Nat} (hc : EucjpCode host st₁ w wc v) : EucjpCode host st₂ w wc v := by
  cases hc with
  | nul => exact .nul h₂
  | one _ ha hz ht => exact .one h₂ ha hz ht
  | two _ ha hn hb ht => exact .two h₂ ha hn hb ht
  | three _ ha hb hd ht => exact .three h₂ ha hb hd ht
  | second h => omega
  | tail h => omega
  | third h => omega

theorem jis_start {host : Host} {s s' : JisState} {b₁ : UInt8} {w : List UInt8} {wc : Nat}
    (h : JisCode host s b₁ w wc s') (hs : s ≠ .jis1) (b₂ : UInt8) : JisCode host s b₂ w wc s' := by
  induction h generalizing b₂ with
  | nul => exact .nul
  | ascii he hz => exact .ascii he hz
  | second => exact absurd rfl hs
  | step hm hw ih =>
    cases hm with
    | escape => exact .step .escape (ih nofun b₂)
    | dollar => exact .step .dollar (ih nofun b₂)
    | toJis hx => exact .step (.toJis hx) (ih nofun b₂)
    | first hj => exact .step (.first hj) hw
    | leave => exact .step .leave (ih nofun b₂)
    | bracket => exact .step .bracket (ih nofun b₂)
    | toAscii hx => exact .step (.toAscii hx) (ih nofun b₂)

theorem jis_ends {host : Host} {s s' : JisState} {b : UInt8} {w : List UInt8} {wc : Nat}
    (h : JisCode host s b w wc s') : s' = .ascii ∨ s' = .jis := by
  induction h with
  | nul => exact .inl rfl
  | ascii => exact .inl rfl
  | second => exact .inr rfl
  | step _ _ ih => exact ih

theorem charset_settled (host : Host) (id : LocaleId) : Settled (id.charset host) := by
  intro v hrest st₁ st₂ h₁ h₂ w wc v' h
  have heq : st₁.count = st₂.count := h₁.trans h₂.symm
  cases id with
  | c => exact single_settled heq h
  | utf8 =>
    have hv : v = 0 := by
      rcases hrest with hv | ⟨-,-,-,-,-,-,-,-,-,hv⟩ <;> exact hv
    exact utf8_settled (h₁.trans hv) (h₂.trans hv) h
  | ucs2 => exact ucs_settled heq h
  | ucs2le => exact ucs_settled heq h
  | ucs2be => exact ucs_settled heq h
  | ucs4 => exact ucs_settled heq h
  | ucs4le => exact ucs_settled heq h
  | ucs4be => exact ucs_settled heq h
  | iso8859 k => exact single_settled heq h
  | cp k => exact single_settled heq h
  | jis =>
    obtain ⟨s,s',hs,hcode,rfl⟩ := h
    have hstart : s = .ascii ∨ s = .jis := by
      rcases hrest with hv | ⟨st,w₀,wc₀,s₀,s₁,-,h₀,hv⟩
      · left
        rw [← JisState.ofCode_code s,← hs,h₁,hv]
        rfl
      · have hsame : s = s₁ := by rw [← JisState.ofCode_code s,← hs,h₁,hv,JisState.ofCode_code]
        rw [hsame]
        exact jis_ends h₀
    refine ⟨s,s',heq.symm.trans hs,jis_start hcode ?_ _,rfl⟩
    rcases hstart with rfl | rfl <;> nofun
  | eucjp =>
    have hv : v = 0 := by
      rcases hrest with hv | ⟨st,w₀,wc₀,h₀⟩
      · exact hv
      · cases h₀ <;> rfl
    exact eucjp_settled (h₁.trans hv) (h₂.trans hv) h
  | sjis =>
    have hv : v = 0 := by
      rcases hrest with hv | ⟨st,w₀,wc₀,h₀⟩
      · exact hv
      · cases h₀ <;> rfl
    exact sjis_settled (h₁.trans hv) (h₂.trans hv) h

theorem Broken.settled {f : Charset} (hf : Settled f) {v : Nat} (hv : Rest f v) {st₁ st₂ : Mbstate}
    (h₁ : st₁.count = v) (h₂ : st₂.count = v) {w following : List UInt8} (h : Broken f st₁ w following) :
    Broken f st₂ w following := fun x wc v' hcode => h x wc v' (hf v hv st₂ st₁ h₂ h₁ x wc v' hcode)

theorem Spells.settled {f t : Charset} {Bad : Mbstate → List UInt8 → List UInt8 → Prop} (hf : Settled f) {v : Nat}
    (hv : Rest f v) {st₁ st₂ ost : Mbstate} (h₁ : st₁.count = v) (h₂ : st₂.count = v)
    (hbad : ∀ w following, Bad st₁ w following → Bad st₂ w following) {l : List Item}
    (h : Spells f t Bad st₁ ost l) : Spells f t Bad st₂ ost l := by
  induction l generalizing ost with
  | nil => exact .nil
  | cons i l ih =>
    cases h with
    | kept hcode hwc hrest => exact .kept (hf v hv st₁ st₂ h₁ h₂ _ _ _ hcode) hwc hrest
    | lost him hcode hwc hrest => exact .lost him (hf v hv st₁ st₂ h₁ h₂ _ _ _ hcode) hwc hrest
    | bad him hne hb hrest => exact .bad him hne (hbad _ _ hb) (ih hrest)

theorem spells_char {f t : Charset} (hf : Settled f) {st st' ost : Mbstate} {w : List UInt8} {wc v : Nat}
    (h : f.Code st w wc v) (hst : st'.count = v) {l : List Item}
    (hl : Spells f t (LoneByte f) st' (t.wctomb wc ost).1 l) :
    Spells f t (LoneByte f) st ost (⟨w,wc,(t.wctomb wc ost).2.getD []⟩ :: l) := by
  have hall : ∀ st₂ : Mbstate, st₂.count = v → Spells f t (LoneByte f) st₂ (t.wctomb wc ost).1 l :=
    fun st₂ h₂ => hl.settled hf (.inr ⟨st,w,wc,h⟩) hst h₂ fun _ _ hb => ⟨hb.1,hb.2.settled hf (.inr ⟨st,w,wc,h⟩) hst h₂⟩
  cases hwc : (t.wctomb wc ost).2 with
  | none => exact .lost rfl h (Prod.ext rfl hwc) hall
  | some bs => exact .kept h (Prod.ext rfl hwc) hall

theorem prefix_append {l l' l'' : List UInt8} (h : l' <+: l'') : l ++ l' <+: l ++ l'' := (List.prefix_append_right_inj l).mpr h

theorem spells_exists {f t : Charset} (hf : Settled f) (n : Nat) {text : List UInt8} (hn : text.length ≤ n)
    (st ost : Mbstate) : ∃ l, Spells f t (LoneByte f) st ost l ∧ text <+: codes l := by
  induction n generalizing text st ost with
  | zero =>
    obtain rfl := List.length_eq_zero_iff.mp (Nat.le_zero.mp hn)
    exact ⟨[],.nil,List.nil_prefix⟩
  | succ n ih =>
    cases text with
    | nil => exact ⟨[],.nil,List.nil_prefix⟩
    | cons b text =>
      by_cases hchar : ∃ w wc v, f.Code st w wc v ∧ (w <+: b :: text ∨ b :: text <+: w)
      · obtain ⟨w,wc,v,hcode,hw⟩ := hchar
        let st' : Mbstate := { Mbstate.initial with count := v }
        rcases hw with ⟨r,hr⟩ | hw
        · have hpos := List.length_pos_iff.mpr (f.reads.nonempty hcode)
          have hlen := congrArg List.length hr
          rw [List.length_append] at hlen
          obtain ⟨l,hl,hr'⟩ := @ih r (by omega) st' (t.wctomb wc ost).1
          refine ⟨_,spells_char hf hcode rfl hl,?_⟩
          rw [codes_cons,← hr]
          exact prefix_append hr'
        · refine ⟨_,spells_char hf hcode (rfl : st'.count = v) .nil,?_⟩
          rw [codes_cons]
          exact hw.trans (List.prefix_append _ _)
      · obtain ⟨l,hl,hr⟩ := @ih text (Nat.le_of_succ_le_succ hn) st ost
        have htext : b :: text <+: b :: codes l := prefix_append (l := [b]) hr
        refine ⟨⟨[b],0,[]⟩ :: l,.bad rfl (List.cons_ne_nil _ _) ⟨rfl,fun w wc v hcode hw => ?_⟩ hl,htext⟩
        exact hchar ⟨w,wc,v,hcode,List.prefix_or_prefix_of_prefix hw htext⟩

end Iconv
