import Mathlib
import Picolibc.Iconv.Convert

namespace Iconv

open Multibyte ByteMemory

structure Item where
  code : List UInt8
  char : Nat
  image : List UInt8

def codes (l : List Item) : List UInt8 := l.flatMap Item.code

def images (l : List Item) : List UInt8 := l.flatMap Item.image

@[simp] theorem codes_nil : codes [] = [] := rfl

@[simp] theorem codes_cons (i : Item) (l : List Item) : codes (i :: l) = i.code ++ codes l := List.flatMap_cons

@[simp] theorem codes_append (l l' : List Item) : codes (l ++ l') = codes l ++ codes l' := List.flatMap_append

@[simp] theorem images_nil : images [] = [] := rfl

@[simp] theorem images_cons (i : Item) (l : List Item) : images (i :: l) = i.image ++ images l := List.flatMap_cons

@[simp] theorem images_append (l l' : List Item) : images (l ++ l') = images l ++ images l' := List.flatMap_append

def Converts (f t : Charset) : Mbstate → Mbstate → List Item → Prop
  | _, _, [] => True
  | st, ost, i :: l => ∃ v ost', f.Code st i.code i.char v ∧ t.wctomb i.char ost = (ost',some i.image) ∧
      ∀ st', st'.count = v → Converts f t st' ost' l

def after : List Item → Nat → List Item
  | [], _ => []
  | i :: l, n =>
    if n = 0 then i :: l
    else if i.code.length ≤ n then after l (n - i.code.length)
    else { i with code := i.code.drop n } :: l

theorem after_item (i : Item) (l : List Item) (n : Nat) : after (i :: l) n =
    if n = 0 then i :: l else if i.code.length ≤ n then after l (n - i.code.length)
    else { i with code := i.code.drop n } :: l := rfl

@[simp] theorem after_zero (l : List Item) : after l 0 = l := by
  cases l with
  | nil => rfl
  | cons i l => exact if_pos rfl

theorem after_code {i : Item} (hi : 0 < i.code.length) (l : List Item) (n : Nat) :
    after (i :: l) (i.code.length + n) = after l n := by
  rw [after_item,if_neg (by omega),if_pos (by omega),Nat.add_sub_cancel_left]

theorem after_part {i : Item} {p q : List UInt8} (hi : i.code = p ++ q) (hp : p ≠ []) (hq : q ≠ []) (l : List Item) :
    after (i :: l) p.length = { i with code := q } :: l := by
  have hp' := List.length_pos_iff.mpr hp
  have hq' := List.length_pos_iff.mpr hq
  rw [after_item,if_neg (by omega),if_neg (by rw [hi,List.length_append]; omega),hi,List.drop_left]

theorem after_add (l : List Item) (a b : Nat) : after (after l a) b = after l (a + b) := by
  induction l generalizing a with
  | nil => rfl
  | cons i l ih =>
    by_cases ha : a = 0
    · rw [ha,after_zero,Nat.zero_add]
    · rw [after_item,if_neg ha]
      by_cases hi : i.code.length ≤ a
      · rw [if_pos hi,ih,after_item,if_neg (by omega),if_pos (by omega),Nat.sub_add_comm hi]
      · rw [if_neg hi]
        by_cases hb : b = 0
        · rw [hb,after_zero,Nat.add_zero,after_item,if_neg ha,if_neg hi]
        · simp only [after_item,if_neg hb,if_neg (show a + b ≠ 0 by omega),List.length_drop,List.drop_drop]
          by_cases hab : i.code.length ≤ a + b
          · rw [if_pos (by omega),if_pos hab]
            congr 1
            omega
          · rw [if_neg (by omega),if_neg hab]

def Leads (f t : Charset) (fin : Mbstate → Mbstate → Prop) : Mbstate → Mbstate → List Item → Prop
  | st, ost, [] => fin st ost
  | st, ost, i :: l => ∃ v ost', f.Code st i.code i.char v ∧ t.wctomb i.char ost = (ost',some i.image) ∧
      ∀ st', st'.count = v → Leads f t fin st' ost' l

theorem Converts.leads {f t : Charset} {st ost : Mbstate} {l : List Item} (h : Converts f t st ost l) :
    Leads f t (fun _ _ => True) st ost l := by
  induction l generalizing st ost with
  | nil => trivial
  | cons i l ih =>
    obtain ⟨v,ost',hcode,hwc,hrest⟩ := h
    exact ⟨v,ost',hcode,hwc,fun st' hst => ih (hrest st' hst)⟩

theorem Leads.converts {f t : Charset} {fin : Mbstate → Mbstate → Prop} {st ost : Mbstate} {l : List Item}
    (h : Leads f t fin st ost l) : Converts f t st ost l := by
  induction l generalizing st ost with
  | nil => trivial
  | cons i l ih =>
    obtain ⟨v,ost',hcode,hwc,hrest⟩ := h
    exact ⟨v,ost',hcode,hwc,fun st' hst => ih (hrest st' hst)⟩

inductive Reaches (f t : Charset) : Mbstate → Mbstate → List Item → Mbstate → Mbstate → Prop
  | refl {st ost : Mbstate} : Reaches f t st ost [] st ost
  | char {st ost st₁ ost₁ st' ost' : Mbstate} {i : Item} {l : List Item} {v : Nat} : f.Code st i.code i.char v →
      t.wctomb i.char ost = (ost₁,some i.image) → st₁.count = v → Reaches f t st₁ ost₁ l st' ost' →
      Reaches f t st ost (i :: l) st' ost'

theorem Reaches.append {f t : Charset} {st ost st₁ ost₁ st₂ ost₂ : Mbstate} {l l' : List Item}
    (h₁ : Reaches f t st ost l st₁ ost₁) (h₂ : Reaches f t st₁ ost₁ l' st₂ ost₂) :
    Reaches f t st ost (l ++ l') st₂ ost₂ := by
  induction h₁ with
  | refl => exact h₂
  | char hcode hwc hst _ ih => exact .char hcode hwc hst (ih h₂)

theorem Reaches.nil_of_codes {f t : Charset} {st ost st' ost' : Mbstate} {l : List Item}
    (h : Reaches f t st ost l st' ost') (hc : (codes l).length = 0) : l = [] := by
  cases h with
  | refl => rfl
  | char hcode =>
    rw [codes_cons,List.length_append] at hc
    exact absurd (List.length_eq_zero_iff.mp (by omega)) (f.reads.nonempty hcode)

def Waits (f : Charset) : Prop := ∃ g n st, (f.mbtowc g n st).ret = -2

structure Spared (f : Charset) (mode : Mode) (unread spare : Nat) (l : List Item) : Prop where
  nul : ∀ pre i post, l = pre ++ i :: post → f.zero = true → i.char = 0 → (images pre).length < spare →
    (codes pre).length + i.code.length ≤ unread → unread = (codes pre).length + i.code.length
  tail : ∀ pre i post, l = pre ++ i :: post → mode = .ignore → f.refuses = true → (images pre).length < spare →
    (codes pre).length < unread → (codes pre).length + i.code.length ≤ unread

theorem Spared.take {f : Charset} {mode : Mode} {unread spare : Nat} {i : Item} {l : List Item}
    (h : Spared f mode unread spare (i :: l)) (hi : i.code.length ≤ unread) :
    Spared f mode (unread - i.code.length) (spare - i.image.length) l where
  nul pre j post he hz hc hr hu := by
    have := h.nul (i :: pre) j post (by rw [he]; rfl) hz hc (by rw [images_cons,List.length_append]; omega)
      (by rw [codes_cons,List.length_append]; omega)
    rw [codes_cons,List.length_append] at this
    omega
  tail pre j post he hm hf hr hu := by
    have := h.tail (i :: pre) j post (by rw [he]; rfl) hm hf (by rw [images_cons,List.length_append]; omega)
      (by rw [codes_cons,List.length_append]; omega)
    rw [codes_cons,List.length_append] at this
    omega

structure Job where
  f : Charset
  t : Charset
  fin : Mbstate → Mbstate → Prop
  mode : Mode
  src : List UInt8
  fut : List UInt8
  rest : List UInt8
  room : Nat

structure Going (k : Job) (w : Work) (p out : List UInt8) (l : List Item) : Prop where
  mbtowc : w.ic.inMbtowc = k.f.mbtowc
  wctomb : w.ic.outWctomb = k.t.wctomb
  mode : w.ic.mode = k.mode
  off : w.ic.bufOff = 0
  len : w.ic.bufLen = p.length
  staged : w.ic.buf.take p.length = p
  inside : w.inOff + w.inLeft = k.src.length
  space : w.outOff + w.outLeft = k.room
  written : slice w.dst 0 w.outOff = out
  exact : w.inexact = 0
  text : k.src.drop w.inOff ++ k.fut = codes l ++ k.rest
  leads : Leads k.f k.t k.fin w.ic.inState w.ic.outState l

structure Moved (k : Job) (w : Work) (p out : List UInt8) (l : List Item) (w' : Work) (p' out' : List UInt8)
    (l' : List Item) : Prop where
  going : Going k w' p' out' l'
  onward : w'.inLeft ≤ w.inLeft
  left : l' = after l (w.inLeft - w'.inLeft)
  whole : w'.inLeft = 0 ∧ Waits k.f ∧ l' ≠ [] ∨ ∃ pre, l = pre ++ l' ∧ (codes pre).length + w'.inLeft = w.inLeft ∧
    Reaches k.f k.t w.ic.inState w.ic.outState pre w'.ic.inState w'.ic.outState
  total : out' ++ p' ++ images l' = out ++ p ++ images l
  grows : out <+: out'
  room : (p ≠ [] → 0 < w.outLeft) → p' ≠ [] → 0 < w'.outLeft
  short : p.length ≤ mbLenMax → p'.length ≤ mbLenMax

def Cut (w : Work) (l : List Item) : Prop := ∃ i post, l = i :: post ∧ 0 < w.inLeft ∧ w.inLeft < i.code.length

def Ended (k : Job) (w : Work) (p : List UInt8) (l : List Item) : Except Errno Nat → Prop
  | .ok n => n = 0 ∧ (w.outLeft = 0 ∨ w.inLeft = 0 ∧ p = [])
  | .error .e2big => w.outLeft < p.length
  | .error .eilseq => k.f.refuses = true ∧ k.fut ≠ [] ∧ p = [] ∧ Cut w l
  | .error .einval => False

section

variable {k : Job} {w w₁ w₂ : Work} {p p₁ p₂ out out₁ out₂ : List UInt8} {l l₁ l₂ : List Item}

theorem Going.stays (hg : Going k w p out l) : Moved k w p out l w p out l where
  going := hg
  onward := le_rfl
  left := by rw [Nat.sub_self,after_zero]
  whole := .inr ⟨[],rfl,by simp,.refl⟩
  total := rfl
  grows := List.prefix_rfl
  room := id
  short := id

theorem Moved.trans (h₁ : Moved k w p out l w₁ p₁ out₁ l₁) (h₂ : Moved k w₁ p₁ out₁ l₁ w₂ p₂ out₂ l₂) :
    Moved k w p out l w₂ p₂ out₂ l₂ where
  going := h₂.going
  onward := h₂.onward.trans h₁.onward
  left := by
    have hone := h₁.onward
    have htwo := h₂.onward
    rw [h₂.left,h₁.left,after_add]
    congr 1
    omega
  whole := by
    rcases h₂.whole with hend | ⟨pre₂,hl₂,hlen₂,hreach₂⟩
    · exact .inl hend
    · rcases h₁.whole with ⟨hend,hwaits,hne⟩ | ⟨pre₁,hl₁,hlen₁,hreach₁⟩
      · have honward := h₂.onward
        obtain rfl := hreach₂.nil_of_codes (by omega)
        rw [List.nil_append] at hl₂
        exact .inl ⟨by omega,hwaits,hl₂ ▸ hne⟩
      · refine .inr ⟨pre₁ ++ pre₂,by rw [hl₁,hl₂,List.append_assoc],?_,hreach₁.append hreach₂⟩
        rw [codes_append,List.length_append]
        omega
  total := h₂.total.trans h₁.total
  grows := h₁.grows.trans h₂.grows
  room := h₂.room ∘ h₁.room
  short := h₂.short ∘ h₁.short

theorem copyStaged_moved (hg : Going k w p out l) (hfit : p.length ≤ w.outLeft) :
    ∃ w', w.copyStaged = .next w' ∧ Moved k w p out l w' [] (out ++ p) l ∧ w'.inLeft = w.inLeft ∧
      w'.outLeft = w.outLeft - p.length := by
  have heq : w.copyStaged = .next { w with
      dst := splice w.dst w.outOff p
      outOff := w.outOff + p.length
      outLeft := w.outLeft - p.length
      ic := { w.ic with bufOff := 0, bufLen := 0 } } := by
    rw [Work.copyStaged,hg.off,Nat.sub_zero,hg.len,Nat.zero_add,if_neg (by omega)]
    dsimp only
    rw [if_pos rfl,List.drop_zero,hg.staged]
  refine ⟨_,heq,?_,rfl,rfl⟩
  exact {
    going := {
      mbtowc := hg.mbtowc
      wctomb := hg.wctomb
      mode := hg.mode
      off := rfl
      len := rfl
      staged := List.take_zero
      inside := hg.inside
      space := by
        have := hg.space
        dsimp only
        omega
      written := by rw [slice_splice_append,hg.written]
      exact := hg.exact
      text := hg.text
      leads := hg.leads }
    onward := le_rfl
    left := by rw [Nat.sub_self,after_zero]
    whole := .inr ⟨[],rfl,by simp,.refl⟩
    total := by rw [List.append_nil]
    grows := List.prefix_append _ _
    room := fun _ h => absurd rfl h
    short := fun _ => Nat.zero_le _ }

theorem encode_going {bytes : List UInt8} {ost : Mbstate}
    (hg : Going k { w with ic := { w.ic with outState := ost } } [] out l)
    (hw : k.t.wctomb w.wc w.ic.outState = (ost,some bytes)) :
    ∃ w' p' out', w.encode = .next w' ∧ Going k w' p' out' l ∧
      (w'.inLeft = w.inLeft ∧ w'.ic.inState = w.ic.inState ∧ w'.ic.outState = ost) ∧
      (p' = [] ∧ out' = out ++ bytes ∧ w'.outLeft = w.outLeft - bytes.length ∨
        p' = bytes ∧ out' = out ∧ w'.outLeft = w.outLeft) ∧ p'.length ≤ mbLenMax := by
  obtain ⟨hpos,hmax⟩ := k.t.fits hw
  have hw' : w.ic.outWctomb w.wc w.ic.outState = (ost,some bytes) := by
    rw [show w.ic.outWctomb = k.t.wctomb from hg.wctomb,hw]
  by_cases hroom : mbLenMax ≤ w.outLeft
  · have heq : w.encode = .next { w with
        ic := { w.ic with outState := ost }
        dst := splice w.dst w.outOff bytes
        outOff := w.outOff + bytes.length
        outLeft := w.outLeft - bytes.length } := by
      simp only [Work.encode,hw',Work.place]
      rw [if_pos hroom]
    have hle : bytes.length ≤ w.outLeft := hmax.trans hroom
    refine ⟨_,[],out ++ bytes,heq,?_,⟨rfl,rfl,rfl⟩,.inl ⟨rfl,rfl,rfl⟩,Nat.zero_le _⟩
    exact { hg with
      space := by
        have := hg.space
        dsimp only at this ⊢
        omega
      written := by rw [slice_splice_append,hg.written] }
  · have heq : w.encode = .next { w with ic := { w.ic with
        outState := ost, buf := bytes ++ w.ic.buf.drop bytes.length, bufLen := bytes.length } } := by
      simp only [Work.encode,hw',Work.place]
      rw [if_neg hroom]
    refine ⟨_,bytes,out,heq,?_,⟨rfl,rfl,rfl⟩,.inr ⟨rfl,rfl,rfl⟩,hmax⟩
    exact { hg with
      len := rfl
      staged := List.take_left }

inductive Decoded (k : Job) (w : Work) (out : List UInt8) (l : List Item) : Step → Prop
  | took {w' : Work} {i : Item} {l' : List Item} {p' out' : List UInt8} (hl : l = i :: l')
      (hm : Moved k w [] out l w' p' out' l') (hi : i.code.length ≤ w.inLeft) (hless : w'.inLeft < w.inLeft)
      (hin : w'.inLeft = w.inLeft - i.code.length)
      (hout : w'.outLeft - p'.length = w.outLeft - i.image.length) : Decoded k w out l (.next w')
  | waits {w' : Work} {l' : List Item} (hm : Moved k w [] out l w' [] out l') (hin : w'.inLeft = 0) :
      Decoded k w out l (.leave w' (.ok 0))
  | refused {w' : Work} (hm : Moved k w [] out l w' [] out l) (hf : k.f.refuses = true) (hfut : k.fut ≠ [])
      (hcut : Cut w' l) : Decoded k w out l (.leave w' (.error .eilseq))

theorem codes_split {g fut rest : List UInt8} {i : Item} {l : List Item} (h : g ++ fut = codes (i :: l) ++ rest) :
    (∃ r, g = i.code ++ r ∧ r ++ fut = codes l ++ rest) ∨
      (∃ q, q ≠ [] ∧ i.code = g ++ q ∧ fut = q ++ codes l ++ rest) := by
  rw [codes_cons,List.append_assoc] at h
  rcases List.append_eq_append_iff.mp h with ⟨q,h1,h2⟩ | ⟨r,h1,h2⟩
  · cases q with
    | nil => exact .inl ⟨[],by simpa using h1.symm,by simpa using h2⟩
    | cons b q => exact .inr ⟨_,List.cons_ne_nil b q,h1,by rw [h2,List.append_assoc]⟩
  · exact .inl ⟨r,h1,h2.symm⟩

theorem Going.unread (hg : Going k w p out l) : (k.src.drop w.inOff).length = w.inLeft := by
  have := hg.inside
  rw [List.length_drop]
  omega

theorem decode_whole {i : Item} {v : Nat} {ost : Mbstate} {r : List UInt8} (hg : Going k w [] out (i :: l))
    (hs : Spared k.f k.mode w.inLeft w.outLeft (i :: l)) (hroom : 0 < w.outLeft)
    (hcode : k.f.Code w.ic.inState i.code i.char v) (hwc : k.t.wctomb i.char w.ic.outState = (ost,some i.image))
    (hrest : ∀ st', st'.count = v → Leads k.f k.t k.fin st' ost l) (hr : k.src.drop w.inOff = i.code ++ r)
    (htext : r ++ k.fut = codes l ++ k.rest) : Decoded k w out (i :: l) (w.decode k.src) := by
  obtain ⟨st',ret,hread,hcount,hret⟩ := k.f.reads.whole hcode r
  have hpos := List.length_pos_iff.mpr (k.f.reads.nonempty hcode)
  have hlen : i.code.length + r.length = w.inLeft := by rw [← hg.unread,hr,List.length_append]
  rw [← hr,hg.unread,← hg.mbtowc] at hread
  have heq : w.decode k.src = Work.encode { w with
      ic := { w.ic with inState := st' }
      wc := i.char
      inOff := w.inOff + i.code.length
      inLeft := w.inLeft - i.code.length } := by
    simp only [Work.decode,hread]
    rcases hret with rfl | ⟨rfl,hz,hzero⟩
    · rw [if_neg (by omega),if_neg (by omega),if_neg (by omega)]
      rfl
    · have hall := hs.nul [] i l rfl hzero hz hroom (by simp; omega)
      rw [codes_nil,List.length_nil,Nat.zero_add] at hall
      rw [if_pos rfl,hall,Nat.sub_self,hz]
  have hg1 : Going k { w with
      ic := { w.ic with inState := st', outState := ost }
      wc := i.char
      inOff := w.inOff + i.code.length
      inLeft := w.inLeft - i.code.length } [] out l := { hg with
    inside := by
      have := hg.inside
      dsimp only
      omega
    text := by
      dsimp only
      rw [← List.drop_drop,hr,List.drop_left,htext]
    leads := hrest st' hcount }
  obtain ⟨w',p',out',hnext,hg',⟨hin,hist,host⟩,hout,hshort⟩ := encode_going (w := { w with
    ic := { w.ic with inState := st' }
    wc := i.char
    inOff := w.inOff + i.code.length
    inLeft := w.inLeft - i.code.length }) hg1 hwc
  dsimp only at hin hist hout
  rw [heq,hnext]
  have htotal : out' ++ p' = out ++ i.image := by
    rcases hout with ⟨rfl,rfl,-⟩ | ⟨rfl,rfl,-⟩
    · rw [List.append_nil]
    · rfl
  refine .took rfl {
    going := hg'
    onward := by omega
    left := ?_
    whole := .inr ⟨[i],rfl,by simp; omega,.char hcode hwc hcount (by rw [hist,host]; exact .refl)⟩
    total := by rw [htotal,images_cons,List.append_nil,List.append_assoc]
    grows := ?_
    room := fun _ hp' => ?_
    short := fun _ => hshort } (by omega) (by omega) hin ?_
  · have hback : w.inLeft - w'.inLeft = i.code.length + 0 := by omega
    rw [hback,after_code hpos,after_zero]
  · rcases hout with ⟨-,rfl,-⟩ | ⟨-,rfl,-⟩
    · exact List.prefix_append _ _
    · exact List.prefix_rfl
  · rcases hout with ⟨rfl,-,-⟩ | ⟨-,-,hleft⟩
    · exact absurd rfl hp'
    · omega
  · rcases hout with ⟨rfl,-,hleft⟩ | ⟨rfl,-,hleft⟩
    · rw [hleft,List.length_nil,Nat.sub_zero]
    · rw [hleft]

theorem decode_part {i : Item} {v : Nat} {ost : Mbstate} {q : List UInt8} (hg : Going k w [] out (i :: l))
    (hs : Spared k.f k.mode w.inLeft w.outLeft (i :: l)) (hin : 0 < w.inLeft) (hroom : 0 < w.outLeft)
    (hcode : k.f.Code w.ic.inState i.code i.char v) (hwc : k.t.wctomb i.char w.ic.outState = (ost,some i.image))
    (hrest : ∀ st', st'.count = v → Leads k.f k.t k.fin st' ost l) (hq : q ≠ [])
    (hi : i.code = k.src.drop w.inOff ++ q) (hfut : k.fut = q ++ codes l ++ k.rest) :
    Decoded k w out (i :: l) (w.decode k.src) := by
  have hne : k.src.drop w.inOff ≠ [] := List.length_pos_iff.mp (by rw [hg.unread]; exact hin)
  have hlen : i.code.length = w.inLeft + q.length := by rw [hi,List.length_append,hg.unread]
  have hqpos := List.length_pos_iff.mpr hq
  rw [hi] at hcode
  rcases k.f.reads.part hcode hne hq with ⟨st',hread,hcode'⟩ | ⟨hread,hf⟩
  · have hwaits : Waits k.f := ⟨_,_,_,congrArg Conv.ret hread⟩
    rw [hg.unread,← hg.mbtowc] at hread
    have heq : w.decode k.src = .leave { w with
        ic := { w.ic with inState := st' }
        inOff := w.inOff + w.inLeft
        inLeft := 0 } (.ok 0) := by
      simp only [Work.decode,hread,hg.exact]
      rfl
    rw [heq]
    refine @Decoded.waits _ _ _ _ _ ({ i with code := q } :: l) {
      going := { hg with
        inside := by
          dsimp only
          rw [Nat.add_zero,hg.inside]
        text := by
          dsimp only
          rw [hg.inside,List.drop_length,List.nil_append,hfut,codes_cons]
        leads := ⟨v,ost,hcode',hwc,hrest⟩ }
      onward := Nat.zero_le _
      left := ?_
      whole := .inl ⟨rfl,hwaits,List.cons_ne_nil _ _⟩
      total := rfl
      grows := List.prefix_rfl
      room := fun _ h => absurd rfl h
      short := id } rfl
    dsimp only
    rw [Nat.sub_zero,← hg.unread,after_part hi hne hq]
  · rw [hg.unread,← hg.mbtowc] at hread
    have hmode : w.ic.mode ≠ .ignore := by
      rw [hg.mode]
      intro hm
      have := hs.tail [] i l rfl hm hf hroom hin
      rw [codes_nil,List.length_nil] at this
      omega
    have heq : w.decode k.src = .leave w (.error .eilseq) := by
      simp only [Work.decode,hread]
      rw [if_neg (by decide),if_pos trivial]
      rfl
    rw [heq]
    refine .refused hg.stays hf ?_ ⟨i,l,rfl,hin,by omega⟩
    rw [hfut,List.append_assoc]
    exact List.append_ne_nil_of_left_ne_nil hq _

theorem decode_spec {i : Item} (hg : Going k w [] out (i :: l)) (hs : Spared k.f k.mode w.inLeft w.outLeft (i :: l))
    (hin : 0 < w.inLeft) (hroom : 0 < w.outLeft) : Decoded k w out (i :: l) (w.decode k.src) := by
  obtain ⟨v,ost,hcode,hwc,hrest⟩ := hg.leads
  rcases codes_split hg.text with ⟨r,hr,htext⟩ | ⟨q,hq,hi,hfut⟩
  · exact decode_whole hg hs hroom hcode hwc hrest hr htext
  · exact decode_part hg hs hin hroom hcode hwc hrest hq hi hfut

inductive Ran (k : Job) (w : Work) (p out : List UInt8) (l : List Item) : Option (Work × Except Errno Nat) → Prop
  | ended {w' : Work} {ret : Except Errno Nat} {p' out' : List UInt8} {l' : List Item}
      (hm : Moved k w p out l w' p' out' l') (he : Ended k w' p' l' ret) : Ran k w p out l (some (w',ret))
  | met {w' : Work} {out' : List UInt8} (n : Nat) (hm : Moved k w p out l w' [] out' []) (hin : 0 < w'.inLeft)
      (hroom : 0 < w'.outLeft) (hlen : w'.ic.bufLen = 0) : Ran k w p out l (iconvLoop k.src (n + 1) w')

theorem Ran.after_moved {r : Option (Work × Except Errno Nat)} (h₁ : Moved k w p out l w₁ p₁ out₁ l₁)
    (h₂ : Ran k w₁ p₁ out₁ l₁ r) : Ran k w p out l r := by
  cases h₂ with
  | ended hm he => exact .ended (h₁.trans hm) he
  | met n hm hin hroom hlen => exact .met n (h₁.trans hm) hin hroom hlen

theorem iconvLoop_ran (fuel : Nat) (hg : Going k w p out l)
    (hs : Spared k.f k.mode w.inLeft (w.outLeft - p.length) l) (hf : 2 * w.inLeft + min p.length 1 < fuel) :
    Ran k w p out l (iconvLoop k.src fuel w) := by
  induction fuel generalizing w p out l with
  | zero => omega
  | succ fuel ih =>
    by_cases hz : w.outLeft = 0
    · rw [iconvLoop,if_pos hz]
      exact .ended hg.stays ⟨hg.exact,.inl hz⟩
    · by_cases hp : p = []
      · subst hp
        have hlen : w.ic.bufLen = 0 := hg.len
        by_cases hin : w.inLeft = 0
        · rw [iconvLoop,if_neg hz,Work.step,if_neg (by simp [hlen]),if_neg (by simp [hin])]
          exact .ended hg.stays ⟨hg.exact,.inr ⟨hin,rfl⟩⟩
        · cases l with
          | nil => exact .met fuel hg.stays (by omega) (by omega) hlen
          | cons i l =>
            have hstep : w.step k.src = w.decode k.src := by rw [Work.step,if_neg (by simp [hlen]),if_pos hin]
            have hd := decode_spec hg hs (by omega) (by omega)
            rw [iconvLoop,if_neg hz,hstep]
            generalize w.decode k.src = d at hd
            cases hd with
            | waits hm hin' => exact .ended hm ⟨rfl,.inr ⟨hin',rfl⟩⟩
            | refused hm hrf hfut hcut => exact .ended hm ⟨hrf,hfut,rfl,hcut⟩
            | took hl hm hi hless hin' hout =>
              obtain ⟨rfl,rfl⟩ := List.cons.inj hl
              have htake := hs.take hi
              refine Ran.after_moved hm (ih hm.going ?_ (by omega))
              rw [hin',hout]
              exact htake
      · have hplen := List.length_pos_iff.mpr hp
        have hstep : w.step k.src = w.copyStaged := by rw [Work.step,if_pos (by rw [hg.len]; omega)]
        by_cases hfit : p.length ≤ w.outLeft
        · obtain ⟨w',hnext,hm,hin,hout⟩ := copyStaged_moved hg hfit
          rw [iconvLoop,if_neg hz,hstep,hnext]
          refine Ran.after_moved hm (ih hm.going ?_ ?_)
          · rw [hin,hout]
            exact hs
          · rw [hin,List.length_nil]
            omega
        · rw [iconvLoop,if_neg hz,hstep,Work.copyStaged,hg.off,Nat.sub_zero,hg.len,if_pos (Nat.lt_of_not_le hfit)]
          exact .ended hg.stays (Nat.lt_of_not_le hfit)

end

end Iconv
