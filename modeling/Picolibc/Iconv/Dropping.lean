import Mathlib
import Picolibc.Iconv.Buffering
import Picolibc.Iconv.Spelling

namespace Iconv

open Multibyte ByteMemory Simulation

def Descriptor.pending (ic : Descriptor) : List UInt8 := (ic.buf.drop ic.bufOff).take (ic.bufLen - ic.bufOff)

structure Follows (f t : Charset) (Bad : Mbstate → List UInt8 → List UInt8 → Prop) (l : List Item) (s : Session)
    (p : List UInt8) : Prop where
  steady : Steady f t s p
  short : p.length ≤ mbLenMax
  within : s.consumed + s.unread.length ≤ (codes l).length
  text : s.unread ++ s.future l = codes (s.left l)
  spells : Spells f t Bad s.ic.inState s.ic.outState (s.left l)
  total : s.output ++ p ++ images (s.left l) = images l

inductive Placed (f t : Charset) (l : List Item) (s : Session) (c : Feed) (w : Work) (l' : List Item) : Prop
  | within {i : Item} {post : List Item} {v : Nat} (hin : w.inLeft = 0) (hwaits : Waits f) (hl : l' = i :: post)
      (hcode : f.Code w.ic.inState i.code i.char v) : Placed f t l s c w l'
  | between {pre : List Item} (hl : l = pre ++ l') (hin : (codes pre).length + w.inLeft = (s.unread ++ c.chunk).length)
      (hreach : Reaches f t s.ic.inState s.ic.outState pre w.ic.inState w.ic.outState) : Placed f t l s c w l'

structure Arrived (f t : Charset) (Bad : Mbstate → List UInt8 → List UInt8 → Prop) (l : List Item) (s : Session)
    (c : Feed) (fut p : List UInt8) (w : Work) (p' out : List UInt8) (l' : List Item) : Prop where
  going : Going (s.job f t (fun st ost => Spells f t Bad st ost l') c fut (codes l')) w p' out []
  onward : w.inLeft ≤ (s.unread ++ c.chunk).length
  left : l' = after l ((s.unread ++ c.chunk).length - w.inLeft)
  total : out ++ p' ++ images l' = p ++ images l
  count : dropped l' = dropped l
  short : p.length ≤ mbLenMax → p'.length ≤ mbLenMax
  placed : Placed f t l s c w l'

theorem moved_consumed {f t : Charset} {fin : Mbstate → Mbstate → Prop} {s : Session} {c : Feed}
    {p fut rest : List UInt8} {l : List Item} (htext : s.unread ++ c.chunk ++ fut = codes l ++ rest) {w : Work}
    {p' out : List UInt8} {l' : List Item} (hm : Moved (s.job f t fin c fut rest) (s.start c) p [] l w p' out l') :
    (s.unread ++ c.chunk).length - w.inLeft ≤ (codes l).length := by
  have hbefore := congrArg List.length htext
  have hafter := congrArg List.length hm.going.text
  rw [@List.length_append _ ((s.job f t fin c fut rest).src.drop w.inOff),hm.going.unread] at hafter
  simp only [List.length_append] at hbefore hafter ⊢
  change w.inLeft + fut.length = (codes l').length + rest.length at hafter
  omega

section

variable {f t : Charset} {Bad : Mbstate → List UInt8 → List UInt8 → Prop} {s : Session} {c : Feed}
  {p fut p' out : List UInt8} {l l' post : List Item} {w : Work}

theorem moved_arrived (hl : ∀ i ∈ l, i.kept = true) (htext : s.unread ++ c.chunk ++ fut = codes l ++ codes post)
    (hm : Moved (s.job f t (fun st ost => Spells f t Bad st ost post) c fut (codes post)) (s.start c) p [] l w p' out l') :
    Arrived f t Bad (l ++ post) s c fut p w p' out (l' ++ post) where
  going := { hm.going with
    text := by
      rw [codes_nil,List.nil_append]
      exact hm.going.text.trans (codes_append l' post).symm
    leads := hm.going.leads.spells }
  onward := hm.onward
  left := by
    rw [after_append (moved_consumed htext hm)]
    exact congrArg (· ++ post) hm.left
  total := by
    rw [images_append,images_append,← List.append_assoc,← List.append_assoc,hm.total]
    rfl
  count := by
    rw [dropped_append,dropped_append,dropped_kept hl,hm.left,dropped_after _ hl]
  short := hm.short
  placed := by
    rcases hm.whole with ⟨hin,hwaits,hne⟩ | ⟨pre,hpre,hlen,hreach⟩
    · obtain ⟨i,l'',rfl⟩ := List.exists_cons_of_ne_nil hne
      obtain ⟨v,-,hcode,-⟩ := hm.going.leads
      exact .within hin hwaits rfl hcode
    · exact .between (by rw [hpre,List.append_assoc]) hlen hreach

theorem Arrived.follows {L : List Item} (h : Follows f t Bad L s p) (hchunk : c.chunk ++ fut = s.future L)
    (ha : Arrived f t Bad (s.left L) s c fut p w p' out l') :
    Follows f t Bad L (s.moved (s.unread ++ c.chunk) w out) p' ∧
      (s.moved (s.unread ++ c.chunk) w out).left L = l' ∧
      (s.moved (s.unread ++ c.chunk) w out).unread.length = w.inLeft ∧
      (s.moved (s.unread ++ c.chunk) w out).future L = fut := by
  have hin : w.inOff + w.inLeft = (s.unread ++ c.chunk).length := ha.going.inside
  have hleft : l' = after L (s.consumed + w.inOff) := by
    rw [ha.left,Session.left,after_add]
    congr 2
    omega
  have hunread : ((s.unread ++ c.chunk).drop w.inOff).length = w.inLeft := by
    rw [List.length_drop]
    omega
  have hlens : (s.unread ++ c.chunk).length = s.unread.length + c.chunk.length := List.length_append
  have hgiven : fut = (codes L).drop (s.consumed + w.inOff + w.inLeft) := by
    have hsplit : s.consumed + w.inOff + w.inLeft = s.consumed + s.unread.length + c.chunk.length := by omega
    rw [hsplit,← List.drop_drop]
    have hdrop := congrArg (List.drop c.chunk.length) hchunk
    rw [List.drop_left] at hdrop
    exact hdrop
  have hfuture : (s.moved (s.unread ++ c.chunk) w out).future L = fut := by
    rw [Session.future,Session.moved]
    dsimp only
    rw [hunread,← hgiven]
  have hnow : (s.moved (s.unread ++ c.chunk) w out).left L = l' := hleft.symm
  refine ⟨?_,hnow,hunread,hfuture⟩
  exact {
    steady := ha.going.steady
    short := ha.short h.short
    within := by
      have hwithin := h.within
      have hfutlen := congrArg List.length hchunk
      rw [Session.future,List.length_drop,List.length_append] at hfutlen
      rw [Session.moved]
      dsimp only
      rw [hunread]
      omega
    text := by
      rw [hfuture,hnow]
      exact ha.going.text.trans (by rw [codes_nil,List.nil_append]; rfl)
    spells := by
      rw [hnow]
      exact ha.going.leads
    total := by
      rw [hnow]
      change s.output ++ out ++ p' ++ images l' = images L
      rw [List.append_assoc s.output,List.append_assoc s.output,ha.total,← List.append_assoc,h.total] }

end

inductive Came (f t : Charset) (Bad : Mbstate → List UInt8 → List UInt8 → Prop) (l : List Item) (s : Session)
    (c : Feed) (fut p : List UInt8) : Option (Work × Except Errno Nat) → Prop
  | ended {w : Work} {ret : Except Errno Nat} {p' out : List UInt8} {l' : List Item}
      (ha : Arrived f t Bad l s c fut p w p' out l')
      (he : Ended (s.job f t (fun _ _ => True) c fut []) w p' l' ret) : Came f t Bad l s c fut p (some (w,ret))
  | met {w : Work} {out : List UInt8} {pre post : List Item} {i : Item} (n : Nat) (hl : l = pre ++ i :: post)
      (hpre : ∀ j ∈ pre, j.kept = true) (him : i.image = [])
      (hreach : Reaches f t s.ic.inState s.ic.outState pre w.ic.inState w.ic.outState) (ha : Arrived f t Bad l s c fut p w [] out (i :: post)) (hin : 0 < w.inLeft)
      (hroom : 0 < w.outLeft) (hlen : w.ic.bufLen = 0) (hspare : (images pre).length < c.room - p.length)
      (hread : (codes pre).length + w.inLeft = (s.unread ++ c.chunk).length) :
      Came f t Bad l s c fut p (iconvLoop (s.unread ++ c.chunk) (n + 1) w)

theorem ended_front {f t : Charset} {fin : Mbstate → Mbstate → Prop} {s : Session} {c : Feed}
    {fut rest p : List UInt8} {w : Work} {l post : List Item} {ret : Except Errno Nat}
    (he : Ended (s.job f t fin c fut rest) w p l ret) :
    Ended (s.job f t (fun _ _ => True) c fut []) w p (l ++ post) ret := by
  cases ret with
  | ok n => exact he
  | error e =>
    cases e with
    | einval => exact he
    | e2big => exact he
    | eilseq =>
      obtain ⟨hf,hfut,hp,i,rest',rfl,hcut⟩ := he
      exact ⟨hf,hfut,hp,i,rest' ++ post,rfl,hcut⟩

theorem feed_came {f t : Charset} {Bad : Mbstate → List UInt8 → List UInt8 → Prop} {l : List Item} {s : Session}
    {c : Feed} {p fut : List UInt8} (hsteady : Steady f t s p) (hspells : Spells f t Bad s.ic.inState s.ic.outState l)
    (htext : s.unread ++ c.chunk ++ fut = codes l)
    (hs : Spared f s.ic.mode (s.unread ++ c.chunk).length (c.room - p.length) (l.takeWhile Item.kept)) :
    Came f t Bad l s c fut p (iconvLoop (s.unread ++ c.chunk) (2 * (s.unread ++ c.chunk).length + 3) (s.start c)) := by
  have hsplit : l.takeWhile Item.kept ++ l.dropWhile Item.kept = l := List.takeWhile_append_dropWhile
  have hlead := hspells.leads
  have hkept : ∀ i ∈ l.takeWhile Item.kept, i.kept = true := fun i hi => List.mem_takeWhile_imp hi
  have hhead : ∀ i post, l.dropWhile Item.kept = i :: post → i.kept = false := by
    intro i post he
    have hne : l.dropWhile Item.kept ≠ [] := by
      rw [he]
      exact List.cons_ne_nil _ _
    simpa [he] using List.head_dropWhile_not Item.kept hne
  generalize l.takeWhile Item.kept = front at hsplit hlead hkept hs
  generalize l.dropWhile Item.kept = back at hsplit hlead hhead
  subst hsplit
  have htext' : s.unread ++ c.chunk ++ fut = codes front ++ codes back := by rw [htext,codes_append]
  have hran := feed_ran hsteady htext' hlead hs
  generalize iconvLoop (s.unread ++ c.chunk) (2 * (s.unread ++ c.chunk).length + 3) (s.start c) = res at hran
  cases hran with
  | ended hm he => exact .ended (moved_arrived hkept htext' hm) (ended_front he)
  | @met w out n hm hin hroom hlen =>
    have ha := moved_arrived hkept htext' hm
    have hwritten : out.length + w.outLeft = c.room := written_length hm.going
    have htotal := congrArg List.length hm.total
    simp only [images_nil,List.append_nil,List.nil_append,List.length_append] at htotal
    obtain ⟨hread,hreach⟩ : (codes front).length + w.inLeft = (s.unread ++ c.chunk).length ∧
        Reaches f t s.ic.inState s.ic.outState front w.ic.inState w.ic.outState := by
      rcases hm.whole with ⟨hend,-⟩ | ⟨pre,hpre,hlen',hreach⟩
      · omega
      · rw [List.append_nil] at hpre
        rw [hpre]
        exact ⟨hlen',hreach⟩
    cases back with
    | nil =>
      have hnone := hm.going.unread
      have hempty : (s.unread ++ c.chunk).drop w.inOff ++ fut = [] := hm.going.text
      change ((s.unread ++ c.chunk).drop w.inOff).length = w.inLeft at hnone
      rw [(List.append_eq_nil_iff.mp hempty).1] at hnone
      exact absurd hnone hin.ne
    | cons i post => exact .met n rfl hkept (not_kept.mp (hhead i post rfl)) hreach ha hin hroom hlen (by omega) hread

theorem met_decodes {src : List UInt8} {n : Nat} {w : Work} (hroom : 0 < w.outLeft) (hlen : w.ic.bufLen = 0)
    (hin : 0 < w.inLeft) {w' : Work} {ret : Except Errno Nat} (hd : w.decode src = .leave w' ret) :
    iconvLoop src (n + 1) w = some (w',ret) := by
  rw [iconvLoop,if_neg (by omega),Work.step,if_neg (by omega),if_pos (by omega),hd]

theorem lost_waits {f t : Charset} {Bad : Mbstate → List UInt8 → List UInt8 → Prop} {l post : List Item} {i : Item}
    {s : Session} {c : Feed} {p fut out : List UInt8} {w : Work} {v : Nat} {ost' : Mbstate}
    (ha : Arrived f t Bad l s c fut p w [] out (i :: post)) (hin : 0 < w.inLeft) (hpart : w.inLeft < i.code.length)
    (hmode : f.refuses = true → s.ic.mode ≠ .ignore) (him : i.image = []) (hcode : f.Code w.ic.inState i.code i.char v)
    (hwc : t.wctomb i.char w.ic.outState = (ost',none)) (hrest : ∀ st', st'.count = v → Spells f t Bad st' ost' post) :
    ∃ w' ret l', w.decode (s.unread ++ c.chunk) = .leave w' ret ∧ Arrived f t Bad l s c fut p w' [] out l' ∧
      Ended (s.job f t (fun _ _ => True) c fut []) w' [] l' ret := by
  have hg := ha.going
  have hunread : ((s.unread ++ c.chunk).drop w.inOff).length = w.inLeft := hg.unread
  have htext : (s.unread ++ c.chunk).drop w.inOff ++ fut = codes (i :: post) ++ [] := hg.text.trans (List.append_nil _).symm
  have hne : (s.unread ++ c.chunk).drop w.inOff ≠ [] := List.length_pos_iff.mp (by rw [hunread]; exact hin)
  rcases codes_split htext with ⟨r,hr,-⟩ | ⟨q,hq,hi,hfut⟩
  · have hlong := congrArg List.length hr
    rw [List.length_append,hunread] at hlong
    omega
  · have hcode' := hcode
    rw [hi] at hcode'
    rcases f.reads.part hcode' hne hq with ⟨st',hread,hcode''⟩ | ⟨hread,hf⟩
    · have hwaits : Waits f := ⟨_,_,_,congrArg Conv.ret hread⟩
      rw [hunread,← show w.ic.inMbtowc = f.mbtowc from hg.mbtowc] at hread
      refine ⟨{ w with ic := { w.ic with inState := st' }, inOff := w.inOff + w.inLeft, inLeft := 0 },.ok 0,
        { i with code := q } :: post,?_,?_,rfl,.inr ⟨rfl,rfl⟩⟩
      · simp only [Work.decode,hread,hg.exact]
        rfl
      · exact {
          going := { hg with
            inside := by
              rw [Nat.add_zero]
              exact hg.inside
            text := by
              have hall : w.inOff + w.inLeft = (s.unread ++ c.chunk).length := hg.inside
              change (s.unread ++ c.chunk).drop (w.inOff + w.inLeft) ++ fut = codes ({ i with code := q } :: post)
              rw [hall,List.drop_length,List.nil_append,hfut,List.append_nil,codes_cons]
            leads := .lost him hcode'' hwc hrest }
          onward := Nat.zero_le _
          left := by
            have hback : (s.unread ++ c.chunk).length - 0 = ((s.unread ++ c.chunk).length - w.inLeft) + w.inLeft := by
              have honward := ha.onward
              omega
            dsimp only
            rw [hback,← after_add,← ha.left,← hunread,after_part hi hne hq]
          total := ha.total
          count := ha.count
          short := ha.short
          placed := .within rfl hwaits rfl hcode'' }
    · rw [hunread,← show w.ic.inMbtowc = f.mbtowc from hg.mbtowc] at hread
      have hmode' : w.ic.mode ≠ .ignore := by
        rw [hg.mode]
        exact hmode hf
      refine ⟨w,.error .eilseq,i :: post,?_,ha,hf,?_,rfl,i,post,rfl,hin,hpart⟩
      · simp only [Work.decode,hread]
        rw [if_neg (by decide),if_pos trivial]
        rfl
      · change fut ≠ []
        rw [hfut,List.append_assoc]
        exact List.append_ne_nil_of_left_ne_nil hq _

def Given (l : List Item) (s : Session) (c : Feed) : Prop := c.chunk <+: s.future l

structure Spares (f : Charset) (l : List Item) (s : Session) (c : Feed) : Prop where
  spared : Spared f s.ic.mode (s.unread ++ c.chunk).length (c.room - (s.ic.bufLen - s.ic.bufOff)) (s.left l)
  dropped : ∀ pre i post, s.left l = pre ++ i :: post → i.image = [] →
    (images pre).length < c.room - (s.ic.bufLen - s.ic.bufOff) →
    (s.unread ++ c.chunk).length < (codes pre).length + i.code.length

structure Drops (f : Charset) (l : List Item) (s : Session) (c : Feed) (s' : Session) (r : Report) : Prop where
  output : s'.output ++ s'.ic.pending ++ images (s'.left l) = images l
  count : ∀ k, r.ret = .ok k → k + dropped (s'.left l) = dropped (s.left l)
  input : r.inMoved + r.inLeft = (s.unread ++ c.chunk).length
  forward : s.output <+: s'.output ∧ r.outMoved + r.outLeft = c.room
  bounds : s'.ic.bufOff ≤ s'.ic.bufLen ∧ s'.ic.bufLen ≤ mbLenMax
  finishes : ∀ k, r.ret = .ok k → r.outLeft = 0 ∨ s'.unread = [] ∧ s'.ic.bufLen = 0
  fails : ∀ e, r.ret = .error e → e = .e2big ∧ r.outLeft < s'.ic.bufLen - s'.ic.bufOff ∨
    e = .eilseq ∧ f.refuses = true ∧ ∃ i post, s'.left l = i :: post ∧ s'.unread.length < i.code.length

section

variable {f t : Charset} {Bad : Mbstate → List UInt8 → List UInt8 → Prop} {l : List Item} {s : Session} {p : List UInt8}

theorem Steady.pending (h : Steady f t s p) : s.ic.pending = p := by
  rw [Descriptor.pending,h.off,List.drop_zero,Nat.sub_zero,h.len,h.staged]

theorem Follows.given (h : Follows f t Bad l s p) {c : Feed} {fut : List UInt8} (hchunk : c.chunk ++ fut = s.future l) :
    s.unread ++ c.chunk ++ fut = codes (s.left l) := by
  rw [List.append_assoc,hchunk,h.text]

theorem Follows.finished (h : Follows f t Bad l s p) (hunread : s.unread = []) (hstaged : s.ic.bufLen = 0)
    (hfut : s.future l = []) : s.output = images l := by
  have hcodes : codes (s.left l) = [] := by rw [← h.text,hunread,hfut,List.append_nil]
  have hpending : p = [] := List.length_eq_zero_iff.mp (h.steady.len.symm.trans hstaged)
  have htotal := h.total
  rwa [h.spells.nil_of_codes hcodes,hpending,images_nil,List.append_nil,List.append_nil] at htotal

theorem Arrived.drops {c : Feed} {fut p' out : List UInt8} {w : Work} {ret : Except Errno Nat} {l' : List Item}
    (h : Follows f t Bad l s p) (hchunk : c.chunk ++ fut = s.future l)
    (ha : Arrived f t Bad (s.left l) s c fut p w p' out l')
    (he : Ended (s.job f t (fun _ _ => True) c fut []) w p' l' ret) :
    Drops f l s c (s.moved (s.unread ++ c.chunk) w out) ⟨w.inOff,w.inLeft,w.outOff,w.outLeft,ret⟩ := by
  obtain ⟨hf,hleft,hunread,-⟩ := ha.follows h hchunk
  have hlen := hf.steady.len
  have hoff := hf.steady.off
  have hshort := hf.short
  refine {
    output := ?_
    count := ?_
    input := ha.going.inside
    forward := ⟨List.prefix_append _ _,ha.going.space⟩
    bounds := ⟨by omega,by omega⟩
    finishes := ?_
    fails := ?_ }
  · rw [hf.steady.pending]
    exact hf.total
  · rintro k rfl
    rw [hleft,ha.count,he.1,Nat.zero_add]
  · rintro k rfl
    rcases he.2 with hfull | ⟨hend,hp⟩
    · exact .inl hfull
    · refine .inr ⟨List.length_eq_zero_iff.mp (hunread.trans hend),?_⟩
      rw [hlen,hp]
      rfl
  · rintro e rfl
    cases e with
    | einval => exact he.elim
    | e2big =>
      refine .inl ⟨rfl,?_⟩
      rw [hoff,hlen]
      exact he
    | eilseq =>
      obtain ⟨hrefuses,-,-,i,post,hi,-,hcut⟩ := he
      refine .inr ⟨rfl,hrefuses,i,post,by rw [hleft,hi],?_⟩
      rw [hunread]
      exact hcut

theorem drops_spec (h : Follows f t (LoneByte f) l s p) {c : Feed} (hc : Given l s c) (hs : Spares f l s c) :
    ∃ r p', (s.feed c).2 = some r ∧ Follows f t (LoneByte f) l (s.feed c).1 p' ∧ Drops f l s c (s.feed c).1 r := by
  obtain ⟨fut,hchunk⟩ := hc
  have hstaged : s.ic.bufLen - s.ic.bufOff = p.length := by rw [h.steady.off,h.steady.len,Nat.sub_zero]
  have hspared := hs.spared
  have hdropped := hs.dropped
  rw [hstaged] at hspared hdropped
  have hfront : Spared f s.ic.mode (s.unread ++ c.chunk).length (c.room - p.length) ((s.left l).takeWhile Item.kept) :=
    Spared.front (by rw [List.takeWhile_append_dropWhile]; exact hspared)
  have hcame := feed_came h.steady h.spells (h.given hchunk) hfront
  generalize hloop : iconvLoop (s.unread ++ c.chunk) (2 * (s.unread ++ c.chunk).length + 3) (s.start c) = res at hcame
  cases hcame with
  | ended ha he =>
    rw [feed_eq hloop ha.going.written]
    exact ⟨_,_,rfl,(ha.follows h hchunk).1,ha.drops h hchunk he⟩
  | @met w out pre post i n hl _ him _ ha hin hroom hlen hspare hread =>
    have hpart : w.inLeft < i.code.length := by
      have := hdropped pre i post hl him hspare
      omega
    have hmode : f.refuses = true → s.ic.mode ≠ .ignore := by
      intro hf hm
      have := hspared.tail pre i post hl hm hf hspare (by omega)
      omega
    cases ha.going.leads with
    | kept _ hwc => exact absurd (kept_image hwc) (by rw [not_kept.mpr him]; exact Bool.false_ne_true)
    | bad _ _ hbad =>
      have hone := hbad.1
      omega
    | lost _ hcode hwc hrest =>
      obtain ⟨w',ret,l',hd,ha',he⟩ := lost_waits ha hin hpart hmode him hcode hwc hrest
      rw [met_decodes hroom hlen hin hd] at hloop
      rw [feed_eq hloop ha'.going.written]
      exact ⟨_,_,rfl,(ha'.follows h hchunk).1,ha'.drops h hchunk he⟩

end

theorem opened_follows (host : Host) (toid fromid : LocaleId) (mode : Mode)
    {Bad : Mbstate → List UInt8 → List UInt8 → Prop} {l : List Item}
    (hl : Spells (fromid.charset host) (toid.charset host) Bad .initial .initial l) :
    Follows (fromid.charset host) (toid.charset host) Bad l (opened (descriptor host toid fromid mode)) [] where
  steady := {
    mbtowc := (charset_mbtowc host fromid).symm
    wctomb := (charset_wctomb host toid).symm
    off := rfl
    len := rfl
    staged := List.take_zero }
  short := Nat.zero_le _
  within := Nat.zero_le _
  text := by simp [opened,Session.future,Session.left]
  spells := by simpa [opened,Session.left,descriptor] using hl
  total := by simp [opened,Session.left]

theorem iconv_drops {host : Host} {calloc : Bool} {tocode fromcode : List Char} {ic : Descriptor}
    (hopen : iconvOpen host calloc (some tocode) (some fromcode) = .ok ic) :
    ∃ toid fromid, findCharset host tocode = some toid ∧ findCharset host fromcode = some fromid ∧
      let f := fromid.charset host
      let Text := Spells f (toid.charset host) (LoneByte f) .initial .initial
      (∀ bytes, ∃ l, Text l ∧ bytes <+: codes l) ∧
      ∀ l, Text l → ∀ calls c, Along Session.feed (Given l) (opened ic) (calls ++ [c]) →
        Along Session.feed (Spares f l) (opened ic) (calls ++ [c]) →
        let s := (run Session.feed (opened ic) calls).1
        let s' := (s.feed c).1
        ∃ r, (s.feed c).2 = some r ∧ Drops f l s c s' r ∧
          ∀ k, r.ret = .ok k → r.outLeft ≠ 0 → s'.future l = [] → s'.output = images l := by
  obtain ⟨toid,fromid,mode,hto,hfrom,rfl⟩ := iconvOpen_ok hopen
  refine ⟨toid,fromid,hto,hfrom,fun bytes => spells_exists (charset_settled host fromid) _ le_rfl _ _,?_⟩
  intro l hl calls c hgiven hspares s s'
  obtain ⟨hg₁,hg₂⟩ := along_append hgiven
  obtain ⟨hs₁,hs₂⟩ := along_append hspares
  have hkeep : ∀ s a, (∃ p, Follows (fromid.charset host) (toid.charset host) (LoneByte (fromid.charset host)) l s p) →
      Given l s a ∧ Spares (fromid.charset host) l s a →
      ∃ p, Follows (fromid.charset host) (toid.charset host) (LoneByte (fromid.charset host)) l (s.feed a).1 p := by
    rintro s a ⟨p,hp⟩ ⟨hg,hs⟩
    obtain ⟨-,p',-,hp',-⟩ := drops_spec hp hg hs
    exact ⟨p',hp'⟩
  obtain ⟨p,hp⟩ := run_preserves hkeep ⟨[],opened_follows host toid fromid mode hl⟩ (along_and hg₁ hs₁)
  obtain ⟨r,p',hr,hp',hdrops⟩ := drops_spec hp hg₂.1 hs₂.1
  refine ⟨r,hr,hdrops,?_⟩
  intro k hk hroom hfut
  obtain ⟨hunread,hstaged⟩ := (hdrops.finishes k hk).resolve_left hroom
  exact hp'.finished hunread hstaged hfut

def latinToAscii : Descriptor := descriptor latin .c latinOne .ignore

theorem ignore_opens : iconvOpen latin true (some "ASCII//IGNORE".toList) (some "ISO-8859-1".toList) = .ok latinToAscii := rfl

def accented : List Item := [⟨[0x61],0x61,[0x61]⟩,⟨[0xe9],0xe9,[]⟩]

theorem accented_spells {Bad : Mbstate → List UInt8 → List UInt8 → Prop} :
    Spells ((LocaleId.iso8859 0).charset latin) (LocaleId.c.charset latin) Bad .initial .initial accented :=
  .kept (v := 0) ⟨0x61,rfl,rfl,rfl⟩ rfl fun _ hst =>
    .lost (v := 0) rfl ⟨0xe9,rfl,rfl,hst⟩ rfl fun _ _ => .nil

theorem two_items {i j x : Item} {pre post : List Item} (h : [i,j] = pre ++ x :: post) :
    pre = [] ∧ x = i ∨ pre = [i] ∧ x = j := by
  cases pre with
  | nil => exact .inl ⟨rfl,(List.cons.inj h).1.symm⟩
  | cons a pre =>
    obtain ⟨rfl,hrest⟩ := List.cons.inj h
    cases pre with
    | nil => exact .inr ⟨rfl,(List.cons.inj hrest).1.symm⟩
    | cons b pre =>
      have hlen := congrArg List.length hrest
      simp at hlen

theorem iconv_drops_latin :
    let s := ((opened latinToAscii).feed ⟨[0x61,0xe9],fun _ => 0,1,0⟩).1
    s.output ++ s.ic.pending ++ images (s.left accented) = [0x61] := by
  intro s
  obtain ⟨toid,fromid,hto,hfrom,-,h⟩ := iconv_drops ignore_opens
  obtain rfl : LocaleId.c = toid := by
    rw [show findCharset latin "ASCII//IGNORE".toList = some .c by decide] at hto
    exact Option.some.inj hto
  obtain rfl : LocaleId.iso8859 0 = fromid := by
    rw [show findCharset latin "ISO-8859-1".toList = some (.iso8859 0) by decide] at hfrom
    exact Option.some.inj hfrom
  have hleft : (opened latinToAscii).left accented = accented := after_zero _
  have hspares : Spares ((LocaleId.iso8859 0).charset latin) accented (opened latinToAscii)
      ⟨[0x61,0xe9],fun _ => 0,1,0⟩ := by
    refine ⟨⟨?_,?_⟩,?_⟩ <;> intro pre i post he <;> rw [hleft] at he <;>
      rcases two_items he with ⟨rfl,rfl⟩ | ⟨rfl,rfl⟩ <;> simp [latinToAscii,descriptor,opened]
  obtain ⟨r,-,hdrops,-⟩ := h accented accented_spells [] ⟨[0x61,0xe9],fun _ => 0,1,0⟩ ⟨⟨[],by decide⟩,trivial⟩
    ⟨hspares,trivial⟩
  exact hdrops.output

theorem ignore_retracts :
    let f := (LocaleId.iso8859 0).charset latin
    let c : Feed := ⟨[0x61,0xe9],fun _ => 0,32,0⟩
    let d : Feed := ⟨[0x61,0xe9],fun _ => 0,4,0⟩
    Spells f (LocaleId.c.charset latin) (LoneByte f) .initial .initial accented ∧
      Given accented (opened latinToAscii) c ∧
      (∀ r, ¬Drops f accented (opened latinToAscii) c ((opened latinToAscii).feed c).1 r) ∧
      ((opened latinToAscii).feed c).1.output = [] ∧
      Given accented (opened latinToAscii) d ∧ ((opened latinToAscii).feed d).1.ic.bufLen = sizeMax := by
  intro f c d
  refine ⟨accented_spells,⟨[],by decide⟩,fun r h => ?_,by decide,⟨[],by decide⟩,by decide⟩
  have hbad : ((opened latinToAscii).feed c).1.output ++ ((opened latinToAscii).feed c).1.ic.pending ++
      images (((opened latinToAscii).feed c).1.left accented) ≠ images accented := by decide
  exact hbad h.output

end Iconv
