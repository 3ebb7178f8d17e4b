import Mathlib
import Picolibc.Iconv.Loop
import Picolibc.Lib.Simulation

namespace Iconv

open Multibyte ByteMemory Simulation

structure Smooth (f : Charset) (mode : Mode) (staged unread room : Nat) (l : List Item) : Prop where
  full : ∀ pre post, l = pre ++ post → staged + (images pre).length = room → unread ≤ (codes pre).length
  nul : ∀ pre i post, l = pre ++ i :: post → f.zero = true → i.char = 0 →
    staged + (images pre).length < room → (codes pre).length + i.code.length ≤ unread →
    unread = (codes pre).length + i.code.length
  tail : ∀ pre i post, l = pre ++ i :: post → mode = .ignore → f.refuses = true →
    staged + (images pre).length < room → (codes pre).length < unread →
    (codes pre).length + i.code.length ≤ unread

theorem Smooth.spared {f : Charset} {mode : Mode} {staged unread room : Nat} {l : List Item}
    (h : Smooth f mode staged unread room l) : Spared f mode unread (room - staged) l where
  nul pre i post he hz hc hr := h.nul pre i post he hz hc (by omega)
  tail pre i post he hm hf hr := h.tail pre i post he hm hf (by omega)

structure Feed where
  chunk : List UInt8
  dst : Mem
  room : Nat
  wc : Nat

structure Session where
  ic : Descriptor
  unread : List UInt8
  consumed : Nat
  output : List UInt8

structure Report where
  inMoved : Nat
  inLeft : Nat
  outMoved : Nat
  outLeft : Nat
  ret : Except Errno Nat

def Session.feed (s : Session) (c : Feed) : Session × Option Report :=
  let src := s.unread ++ c.chunk
  match iconv (some s.ic) (some src) c.dst c.room c.wc with
  | some (some w,ret) =>
    (⟨w.ic,src.drop w.inOff,s.consumed + w.inOff,s.output ++ slice w.dst 0 w.outOff⟩,
      some ⟨w.inOff,w.inLeft,w.outOff,w.outLeft,ret⟩)
  | _ => (s,none)

def opened (ic : Descriptor) : Session := ⟨ic,[],0,[]⟩

def Session.left (l : List Item) (s : Session) : List Item := after l s.consumed

def Session.future (l : List Item) (s : Session) : List UInt8 := (codes l).drop (s.consumed + s.unread.length)

structure Offered (l : List Item) (s : Session) (c : Feed) : Prop where
  chunk : c.chunk <+: s.future l
  room : 0 < c.room

structure Clear (f : Charset) (l : List Item) (s : Session) (c : Feed) : Prop where
  fits : s.ic.bufLen - s.ic.bufOff ≤ c.room
  smooth : Smooth f s.ic.mode (s.ic.bufLen - s.ic.bufOff) (s.unread ++ c.chunk).length c.room (s.left l)

structure Tracks (f t : Charset) (l : List Item) (s : Session) (p : List UInt8) : Prop where
  mbtowc : s.ic.inMbtowc = f.mbtowc
  wctomb : s.ic.outWctomb = t.wctomb
  off : s.ic.bufOff = 0
  len : s.ic.bufLen = p.length
  staged : s.ic.buf.take p.length = p
  within : s.consumed + s.unread.length ≤ (codes l).length
  text : s.unread ++ s.future l = codes (s.left l)
  converts : Converts f t s.ic.inState s.ic.outState (s.left l)
  total : s.output ++ p ++ images (s.left l) = images l

structure Advances (f : Charset) (l : List Item) (s : Session) (c : Feed) (s' : Session) (r : Report) : Prop where
  input : r.inMoved + r.inLeft = (s.unread ++ c.chunk).length
  output : r.outMoved + r.outLeft = c.room
  delivers : ∀ k, r.ret = .ok k → k = 0 ∧ s'.unread = [] ∧ s'.output ++ images (s'.left l) = images l ∧
    codes (s'.left l) = s'.future l
  proceeds : ∀ e, r.ret = .error e → s'.unread.length + ((images l).length - s'.output.length) <
      (s.unread ++ c.chunk).length + ((images l).length - s.output.length) ∨
    f.refuses = true ∧ s'.future l ≠ []

structure Steady (f t : Charset) (s : Session) (p : List UInt8) : Prop where
  mbtowc : s.ic.inMbtowc = f.mbtowc
  wctomb : s.ic.outWctomb = t.wctomb
  off : s.ic.bufOff = 0
  len : s.ic.bufLen = p.length
  staged : s.ic.buf.take p.length = p

def Session.job (f t : Charset) (fin : Mbstate → Mbstate → Prop) (s : Session) (c : Feed) (fut rest : List UInt8) : Job :=
  ⟨f,t,fin,s.ic.mode,s.unread ++ c.chunk,fut,rest,c.room⟩

def Session.start (s : Session) (c : Feed) : Work := ⟨s.ic,0,(s.unread ++ c.chunk).length,c.dst,0,c.room,c.wc,0⟩

def Session.moved (s : Session) (src : List UInt8) (w : Work) (out : List UInt8) : Session :=
  ⟨w.ic,src.drop w.inOff,s.consumed + w.inOff,s.output ++ out⟩

section

variable {f t : Charset} {fin : Mbstate → Mbstate → Prop} {s : Session} {c : Feed} {p fut rest : List UInt8}
  {l : List Item}

theorem Steady.going (h : Steady f t s p) (htext : s.unread ++ c.chunk ++ fut = codes l ++ rest)
    (hl : Leads f t fin s.ic.inState s.ic.outState l) : Going (s.job f t fin c fut rest) (s.start c) p [] l where
  mbtowc := h.mbtowc
  wctomb := h.wctomb
  mode := rfl
  off := h.off
  len := h.len
  staged := h.staged
  inside := Nat.zero_add _
  space := Nat.zero_add _
  written := slice_zero _ _
  exact := rfl
  text := htext
  leads := hl

theorem feed_ran (h : Steady f t s p) (htext : s.unread ++ c.chunk ++ fut = codes l ++ rest)
    (hl : Leads f t fin s.ic.inState s.ic.outState l)
    (hs : Spared f s.ic.mode (s.unread ++ c.chunk).length (c.room - p.length) l) :
    Ran (s.job f t fin c fut rest) (s.start c) p [] l
      (iconvLoop (s.unread ++ c.chunk) (2 * (s.unread ++ c.chunk).length + 3) (s.start c)) :=
  iconvLoop_ran _ (h.going htext hl) hs (by
    change 2 * (s.unread ++ c.chunk).length + min p.length 1 < 2 * (s.unread ++ c.chunk).length + 3
    omega)

theorem feed_eq {w : Work} {ret : Except Errno Nat} {out : List UInt8}
    (hloop : iconvLoop (s.unread ++ c.chunk) (2 * (s.unread ++ c.chunk).length + 3) (s.start c) = some (w,ret))
    (hout : slice w.dst 0 w.outOff = out) :
    s.feed c = (s.moved (s.unread ++ c.chunk) w out,some ⟨w.inOff,w.inLeft,w.outOff,w.outLeft,ret⟩) := by
  rw [Session.start] at hloop
  rw [Session.feed,iconv]
  simp only [hloop,Option.map_some,hout]
  rfl

theorem Going.steady {k : Job} {w : Work} {p' out src : List UInt8} (hg : Going k w p' out l) :
    Steady k.f k.t (s.moved src w out) p' where
  mbtowc := hg.mbtowc
  wctomb := hg.wctomb
  off := hg.off
  len := hg.len
  staged := hg.staged

end

theorem Tracks.steady {f t : Charset} {l : List Item} {s : Session} {p : List UInt8} (h : Tracks f t l s p) :
    Steady f t s p where
  mbtowc := h.mbtowc
  wctomb := h.wctomb
  off := h.off
  len := h.len
  staged := h.staged

theorem written_length {k : Job} {w : Work} {p out : List UInt8} {l : List Item} (hg : Going k w p out l) :
    out.length + w.outLeft = k.room := by
  rw [← hg.written,slice_length,hg.space]

theorem ended_all {f t : Charset} {l : List Item} {s : Session} {c : Feed} {p fut out p' : List UInt8} {w : Work}
    {l' : List Item} {n : Nat} (hs : Smooth f s.ic.mode p.length (s.unread ++ c.chunk).length c.room l)
    (hroom : 0 < c.room)
    (hm : Moved (s.job f t (fun _ _ => True) c fut []) (s.start c) p [] l w p' out l')
    (he : Ended (s.job f t (fun _ _ => True) c fut []) w p' l' (.ok n)) : n = 0 ∧ w.inLeft = 0 ∧ p' = [] := by
  refine ⟨he.1,?_⟩
  rcases he.2 with hfull | hdone
  · have hp : p' = [] := by
      by_contra hne
      exact absurd (hm.room (fun _ => hroom) hne) (by omega)
    refine ⟨?_,hp⟩
    rcases hm.whole with ⟨hend,-⟩ | ⟨pre,hpre,hlen,-⟩
    · exact hend
    · have hspace : out.length + w.outLeft = c.room := written_length hm.going
      have htotal := congrArg List.length hm.total
      rw [hp,hpre,images_append] at htotal
      simp only [List.length_append,List.length_nil] at htotal
      have hread := hs.full pre l' hpre (by omega)
      change (codes pre).length + w.inLeft = (s.unread ++ c.chunk).length at hlen
      omega
  · exact hdone

theorem feed_spec {f t : Charset} {l : List Item} {s : Session} {p : List UInt8} (h : Tracks f t l s p) {c : Feed}
    (ho : Offered l s c) (hc : Clear f l s c) :
    ∃ r p', (s.feed c).2 = some r ∧ Tracks f t l (s.feed c).1 p' ∧ Advances f l s c (s.feed c).1 r := by
  obtain ⟨fut,hfut⟩ := ho.chunk
  have hstaged : s.ic.bufLen - s.ic.bufOff = p.length := by rw [h.off,h.len,Nat.sub_zero]
  have hs := hc.smooth
  rw [hstaged] at hs
  have htext : s.unread ++ c.chunk ++ fut = codes (s.left l) ++ [] := by
    rw [List.append_nil,List.append_assoc,hfut,h.text]
  have hran := feed_ran h.steady htext h.converts.leads hs.spared
  generalize hloop : iconvLoop (s.unread ++ c.chunk) (2 * (s.unread ++ c.chunk).length + 3) (s.start c) = res at hran
  cases hran with
  | met n hm hin hroom hlen =>
    have hlen := hm.going.unread
    rw [(List.append_eq_nil_iff.mp hm.going.text).1] at hlen
    exact absurd hlen hin.ne
  | @ended w ret p' out l' hm hend =>
    have hg' := hm.going
    rw [feed_eq hloop hg'.written]
    have hin : w.inOff + w.inLeft = (s.unread ++ c.chunk).length := hg'.inside
    have hleft : l' = after l (s.consumed + w.inOff) := by
      rw [hm.left,Session.left,after_add]
      change after l (s.consumed + ((s.unread ++ c.chunk).length - w.inLeft)) = _
      congr 2
      omega
    have hunread : ((s.unread ++ c.chunk).drop w.inOff).length = w.inLeft := by
      rw [List.length_drop]
      omega
    have hlens : (s.unread ++ c.chunk).length = s.unread.length + c.chunk.length := List.length_append
    have hgiven : fut = (codes l).drop (s.consumed + w.inOff + w.inLeft) := by
      have hsplit : s.consumed + w.inOff + w.inLeft = s.consumed + s.unread.length + c.chunk.length := by omega
      rw [hsplit,← List.drop_drop]
      have hdrop := congrArg (List.drop c.chunk.length) hfut
      rw [List.drop_left] at hdrop
      exact hdrop
    have htotal : s.output ++ out ++ p' ++ images l' = images l := by
      rw [List.append_assoc s.output,List.append_assoc s.output,hm.total,List.nil_append,← List.append_assoc,h.total]
    have hspace : out.length + w.outLeft = c.room := written_length hg'
    have hbefore := congrArg List.length h.total
    have hafter := congrArg List.length htotal
    have hwithin := h.within
    have hfutlen := congrArg List.length hfut
    simp only [List.length_append] at hbefore hafter hfutlen
    rw [Session.future,List.length_drop] at hfutlen
    refine ⟨_,p',rfl,?_,?_⟩
    · exact {
        mbtowc := hg'.mbtowc
        wctomb := hg'.wctomb
        off := hg'.off
        len := hg'.len
        staged := hg'.staged
        within := by
          rw [Session.moved]
          dsimp only
          rw [hunread]
          omega
        text := by
          rw [Session.future,Session.left,Session.moved]
          dsimp only
          rw [hunread,← hgiven,← hleft]
          exact hg'.text.trans (List.append_nil _)
        converts := by
          rw [Session.left,Session.moved]
          dsimp only
          rw [← hleft]
          exact hg'.leads.converts
        total := by
          rw [Session.left,Session.moved]
          dsimp only
          rw [← hleft,htotal] }
    · refine ⟨hin,hg'.space,?_,?_⟩
      · rintro n rfl
        obtain ⟨hn,hz,hp'⟩ := ended_all hs ho.room hm hend
        have hnil : (s.unread ++ c.chunk).drop w.inOff = [] := List.length_eq_zero_iff.mp (hunread.trans hz)
        refine ⟨hn,hnil,?_,?_⟩
        · rw [Session.left,Session.moved]
          dsimp only
          rw [← hleft,← htotal,hp',List.append_nil]
        · rw [Session.left,Session.future,Session.moved]
          dsimp only
          rw [hunread,← hgiven,← hleft]
          have htext' : (s.unread ++ c.chunk).drop w.inOff ++ fut = codes l' ++ [] := hg'.text
          rw [hnil,List.nil_append,List.append_nil] at htext'
          exact htext'.symm
      · rintro e rfl
        cases e with
        | einval => exact hend.elim
        | eilseq =>
          right
          rw [Session.future,Session.moved]
          dsimp only
          rw [hunread,← hgiven]
          exact ⟨hend.1,hend.2.1⟩
        | e2big =>
          left
          have hfits := hc.fits
          rw [hstaged] at hfits
          have hbig : w.outLeft < p'.length := hend
          have honward : w.inLeft ≤ (s.unread ++ c.chunk).length := hm.onward
          have hsame : w.inLeft = (s.unread ++ c.chunk).length → l' = s.left l := by
            intro he
            rw [hleft,Session.left]
            congr 1
            omega
          have himages : w.inLeft = (s.unread ++ c.chunk).length → (images l').length = (images (s.left l)).length :=
            fun he => by rw [hsame he]
          change ((s.unread ++ c.chunk).drop w.inOff).length + ((images l).length - (s.output ++ out).length) <
            (s.unread ++ c.chunk).length + ((images l).length - s.output.length)
          rw [hunread,@List.length_append _ s.output]
          rcases honward.lt_or_eq with hlt | heq
          · omega
          · have := himages heq
            omega

theorem iconvOpen_ok {host : Host} {calloc : Bool} {tocode fromcode : List Char} {ic : Descriptor}
    (h : iconvOpen host calloc (some tocode) (some fromcode) = .ok ic) :
    ∃ toid fromid mode, findCharset host tocode = some toid ∧ findCharset host fromcode = some fromid ∧
      ic = descriptor host toid fromid mode := by
  unfold iconvOpen at h
  cases hto : findCharset host tocode with
  | none => simp [hto] at h
  | some toid =>
    cases hfrom : findCharset host fromcode with
    | none => simp [hto,hfrom] at h
    | some fromid =>
      cases hmode : findMode tocode with
      | none => simp [hto,hfrom,hmode] at h
      | some mode =>
        cases calloc with
        | false => simp [hto,hfrom,hmode] at h
        | true =>
          simp only [hto,hfrom,hmode,if_true,Except.ok.injEq] at h
          exact ⟨toid,fromid,mode,rfl,rfl,h.symm⟩

theorem opened_tracks (host : Host) (toid fromid : LocaleId) (mode : Mode) {l : List Item}
    (hl : Converts (fromid.charset host) (toid.charset host) .initial .initial l) :
    Tracks (fromid.charset host) (toid.charset host) l (opened (descriptor host toid fromid mode)) [] where
  mbtowc := (charset_mbtowc host fromid).symm
  wctomb := (charset_wctomb host toid).symm
  off := rfl
  len := rfl
  staged := List.take_zero
  within := Nat.zero_le _
  text := by simp [opened,Session.future,Session.left]
  converts := by simpa [opened,Session.left,descriptor] using hl
  total := by simp [opened,Session.left]

theorem Converts.nil_of_codes {f t : Charset} {st ost : Mbstate} {l : List Item} (h : Converts f t st ost l)
    (hc : codes l = []) : l = [] := by
  cases l with
  | nil => rfl
  | cons i l =>
    obtain ⟨v,ost',hcode,-,-⟩ := h
    rw [codes_cons,List.append_eq_nil_iff] at hc
    exact absurd hc.1 (f.reads.nonempty hcode)

theorem iconv_converts {host : Host} {calloc : Bool} {tocode fromcode : List Char} {ic : Descriptor}
    (hopen : iconvOpen host calloc (some tocode) (some fromcode) = .ok ic) :
    ∃ toid fromid, findCharset host tocode = some toid ∧ findCharset host fromcode = some fromid ∧
      ∀ l, Converts (fromid.charset host) (toid.charset host) .initial .initial l → ∀ calls c,
        Along Session.feed (Offered l) (opened ic) (calls ++ [c]) →
        Along Session.feed (Clear (fromid.charset host) l) (opened ic) (calls ++ [c]) →
        let s := (run Session.feed (opened ic) calls).1
        let s' := (s.feed c).1
        ∃ r, (s.feed c).2 = some r ∧ Advances (fromid.charset host) l s c s' r ∧ s'.output <+: images l ∧
          ∀ k, r.ret = .ok k → s'.future l = [] → s'.output = images l := by
  obtain ⟨toid,fromid,mode,hto,hfrom,rfl⟩ := iconvOpen_ok hopen
  refine ⟨toid,fromid,hto,hfrom,?_⟩
  intro l hl calls c ho hc s s'
  obtain ⟨ho1,ho2⟩ := along_append ho
  obtain ⟨hc1,hc2⟩ := along_append hc
  have hkeep : ∀ s a, (∃ p, Tracks (fromid.charset host) (toid.charset host) l s p) →
      Offered l s a ∧ Clear (fromid.charset host) l s a →
      ∃ p, Tracks (fromid.charset host) (toid.charset host) l (s.feed a).1 p := by
    rintro s a ⟨p,hp⟩ ⟨ho,hc⟩
    obtain ⟨-,p',-,hp',-⟩ := feed_spec hp ho hc
    exact ⟨p',hp'⟩
  obtain ⟨p,hp⟩ : ∃ p, Tracks (fromid.charset host) (toid.charset host) l s p :=
    run_preserves hkeep ⟨[],opened_tracks host toid fromid mode hl⟩ (along_and ho1 hc1)
  obtain ⟨r,p',hr,hp',hadv⟩ := feed_spec hp ho2.1 hc2.1
  refine ⟨r,hr,hadv,?_,?_⟩
  · rw [← hp'.total,List.append_assoc]
    exact List.prefix_append _ _
  · intro k hk hfut
    obtain ⟨-,-,hout,hcodes⟩ := hadv.delivers k hk
    have hnil := hp'.converts.nil_of_codes (hcodes.trans hfut)
    change s'.output ++ images (s'.left l) = images l at hout
    rw [show s'.left l = [] from hnil,images_nil,List.append_nil] at hout
    exact hout

def latin : Host :=
  ⟨false,false,true,false,false,fun _ _ => 0,fun _ => 0,fun _ _ => 0,fun _ => 0,fun _ => none,fun _ => none,
    fun _ => none,fun _ => none⟩

def latinOne : LocaleId := .iso8859 0

def latinToUtf8 : Descriptor := descriptor latin .utf8 latinOne .default

theorem latin_opens : iconvOpen latin true (some "UTF-8".toList) (some "ISO-8859-1".toList) = .ok latinToUtf8 := rfl

def latinItem (b : UInt8) : Item := ⟨[b],b.toNat,((utf8Wctomb b.toNat).getD [])⟩

theorem latin_converts {st : Mbstate} (hst : st.count = 0) (ost : Mbstate) (l : List UInt8) :
    Converts ((LocaleId.iso8859 0).charset latin) (LocaleId.utf8.charset latin) st ost (l.map latinItem) := by
  induction l generalizing st with
  | nil => trivial
  | cons b l ih =>
    refine ⟨0,ost,⟨b,rfl,rfl,hst⟩,?_,fun st' h => ih h⟩
    have hb : utf8Wctomb b.toNat ≠ none := by
      have := b.toNat_lt
      unfold utf8Wctomb
      split_ifs with h1 h2 h3 h4 h5 <;> first | exact Option.some_ne_none _ | omega
    obtain ⟨bs,hbs⟩ := Option.ne_none_iff_exists'.mp hb
    exact Prod.ext rfl (by rw [show (latinItem b).image = (utf8Wctomb b.toNat).getD [] from rfl,hbs]; exact hbs)

theorem smooth_of_inits {f : Charset} {mode : Mode} {staged unread room : Nat} {l : List Item}
    (hm : mode ≠ .ignore) (hz : ∀ i ∈ l, i.char ≠ 0)
    (hf : ∀ pre ∈ l.inits, staged + (images pre).length = room → unread ≤ (codes pre).length) :
    Smooth f mode staged unread room l where
  full pre post he := hf pre ((List.mem_inits pre l).mpr ⟨post,he.symm⟩)
  nul pre i post he _ hc := absurd hc (hz i (by simp [he]))
  tail _ _ _ _ h := absurd h hm

theorem latin_clear :
    let c : Feed := ⟨[0xe9],fun _ => 0,1,0⟩
    let d : Feed := ⟨[0x61],fun _ => 0,4,0⟩
    Along Session.feed (Clear ((LocaleId.iso8859 0).charset latin) ([0xe9,0x61].map latinItem)) (opened latinToUtf8)
      ([c] ++ [d]) := by
  intro c d
  have hlen : ((opened latinToUtf8).feed c).1.ic.bufLen - ((opened latinToUtf8).feed c).1.ic.bufOff = 2 := by decide
  have hleft : ((opened latinToUtf8).feed c).1.left ([0xe9,0x61].map latinItem) = [latinItem 0x61] := by
    have hc : ((opened latinToUtf8).feed c).1.consumed = 1 := by decide
    rw [Session.left,hc]
    rfl
  have hunread : ((opened latinToUtf8).feed c).1.unread = [] := by decide
  have hmode : ((opened latinToUtf8).feed c).1.ic.mode ≠ .ignore := by decide
  refine ⟨⟨Nat.zero_le _,?_⟩,⟨?_,?_⟩,trivial⟩
  · refine smooth_of_inits (by decide) (by decide) ?_
    show ∀ pre ∈ List.inits ([0xe9,0x61].map latinItem), 0 + (images pre).length = 1 → 1 ≤ (codes pre).length
    decide
  · rw [hlen]
    decide
  · rw [hlen,hleft,hunread]
    refine smooth_of_inits hmode (by decide) ?_
    show ∀ pre ∈ List.inits [latinItem 0x61], 2 + (images pre).length = 4 → 1 ≤ (codes pre).length
    decide

theorem latin_offered :
    let c : Feed := ⟨[0xe9],fun _ => 0,1,0⟩
    let d : Feed := ⟨[0x61],fun _ => 0,4,0⟩
    Along Session.feed (Offered ([0xe9,0x61].map latinItem)) (opened latinToUtf8) ([c] ++ [d]) := by
  intro c d
  have hfut : ((opened latinToUtf8).feed c).1.future ([0xe9,0x61].map latinItem) = [0x61] := by decide
  refine ⟨⟨⟨[0x61],by decide⟩,by decide⟩,⟨?_,by decide⟩,trivial⟩
  rw [hfut]

theorem iconv_converts_latin :
    let c : Feed := ⟨[0xe9],fun _ => 0,1,0⟩
    let d : Feed := ⟨[0x61],fun _ => 0,4,0⟩
    (((run Session.feed (opened latinToUtf8) [c]).1).feed d).1.output = images ([0xe9,0x61].map latinItem) := by
  intro c d
  obtain ⟨toid,fromid,hto,hfrom,h⟩ := iconv_converts latin_opens
  obtain rfl : LocaleId.utf8 = toid := by
    rw [show findCharset latin "UTF-8".toList = some .utf8 by decide] at hto
    exact Option.some.inj hto
  obtain rfl : LocaleId.iso8859 0 = fromid := by
    rw [show findCharset latin "ISO-8859-1".toList = some (.iso8859 0) by decide] at hfrom
    exact Option.some.inj hfrom
  have hret : (((run Session.feed (opened latinToUtf8) [c]).1).feed d).2.map (fun r => r.ret.toOption) =
      some (some 0) := by decide
  have hfut : (((run Session.feed (opened latinToUtf8) [c]).1).feed d).1.future ([0xe9,0x61].map latinItem) = [] := by
    decide
  obtain ⟨r,hr,-,-,hall⟩ := h ([0xe9,0x61].map latinItem) (latin_converts rfl _ _) [c] d latin_offered latin_clear
  rw [hr,Option.map_some,Option.some.injEq] at hret
  have hok : r.ret = .ok 0 := by
    cases hx : r.ret with
    | error e => simp [hx,Except.toOption] at hret
    | ok k => simpa [hx,Except.toOption] using hret
  exact hall 0 hok hfut

theorem staged_stuck (n : Nat) :
    let c : Feed := ⟨[0xe9],fun _ => 0,1,0⟩
    (run Session.feed ((opened latinToUtf8).feed c).1 (List.replicate n ⟨[],fun _ => 0,1,0⟩)).1.output = [] := by
  intro c
  have hstay : (((opened latinToUtf8).feed c).1.feed ⟨[],fun _ => 0,1,0⟩).1 = ((opened latinToUtf8).feed c).1 := rfl
  induction n with
  | zero => decide
  | succ n ih =>
    rw [List.replicate_succ,run,hstay]
    exact ih

theorem iconv_drops_after_nul :
    let l := [0x61,0,0x62].map latinItem
    let c : Feed := ⟨[0x61,0,0x62],fun _ => 0,32,0⟩
    let d : Feed := ⟨[0x61,0x62],fun _ => 0,1,0⟩
    let e : Feed := ⟨[0xe9],fun _ => 0,1,0⟩
    (Converts ((LocaleId.iso8859 0).charset latin) (LocaleId.utf8.charset latin) .initial .initial l ∧
      Offered l (opened latinToUtf8) c ∧
      ((opened latinToUtf8).feed c).2.map (fun r => (r.inLeft,r.ret.toOption)) = some (0,some 0) ∧
      ((opened latinToUtf8).feed c).1.output = [0x61,0] ∧ images l = [0x61,0,0x62]) ∧
    (((opened latinToUtf8).feed d).2.map (fun r => (r.inLeft,r.ret.toOption)) = some (1,some 0)) ∧
    ∀ n, (run Session.feed ((opened latinToUtf8).feed e).1 (List.replicate n ⟨[],fun _ => 0,1,0⟩)).1.output = [] :=
  ⟨⟨latin_converts rfl _ _,⟨⟨[],by decide⟩,by decide⟩,by decide,by decide,by decide⟩,by decide,staged_stuck⟩

end Iconv
