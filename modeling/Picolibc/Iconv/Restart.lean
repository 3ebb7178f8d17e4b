import Mathlib
import Picolibc.Iconv.Dropping

namespace Iconv

open Multibyte ByteMemory Simulation

inductive Act where
  | call (c : Feed) (skip : Nat)
  | reset

def Session.skip (s : Session) (n : Nat) : Session := { s with unread := s.unread.drop n, consumed := s.consumed + n }

def Session.resume (s : Session) (n : Nat) : Option (Except Errno Nat) → Session
  | some (.error .eilseq) => s.skip n
  | _ => s

def Session.reset (s : Session) : Session :=
  match iconv (some s.ic) none (fun _ => 0) 0 0 with
  | some (some w,_) => { s with ic := w.ic }
  | _ => s

def Session.act (s : Session) : Act → Session × Option Report
  | .call c n => ((s.feed c).1.resume n ((s.feed c).2.map Report.ret),(s.feed c).2)
  | .reset => (s.reset,none)

def Initial (ic : Descriptor) : Prop :=
  ic.inState = .initial ∧ ic.outState = .initial ∧ ic.bufLen = 0 ∧ ic.bufOff = 0

def Tries (l : List Item) (s : Session) : Act → Prop
  | .call c n => Given l s c ∧ (n = 0 ∨ ∃ i post, (s.feed c).1.left l = i :: post ∧ i.image = [] ∧
      n = i.code.length ∧ n ≤ (s.feed c).1.unread.length)
  | .reset => True

def Rejects (f : Charset) (st : Mbstate) (g : List UInt8) : Prop :=
  (f.mbtowc g g.length st).ret = -1 ∧ (f.mbtowc g g.length st).state.count = st.count

structure Halts (f t : Charset) (l : List Item) (s : Session) (c : Feed) : Prop where
  spared : Spared f s.ic.mode (s.unread ++ c.chunk).length (c.room - (s.ic.bufLen - s.ic.bufOff))
    ((s.left l).takeWhile Item.kept)
  offends : ∀ pre i post st ost, s.left l = pre ++ i :: post → (∀ j ∈ pre, j.kept = true) → i.image = [] →
    (images pre).length < c.room - (s.ic.bufLen - s.ic.bufOff) → (codes pre).length < (s.unread ++ c.chunk).length →
    Reaches f t s.ic.inState s.ic.outState pre st ost → Rejects f st ((s.unread ++ c.chunk).drop (codes pre).length) ∨
      (s.unread ++ c.chunk).length < (codes pre).length + i.code.length ∧ ∃ v, f.Code st i.code i.char v

def Gentle (f t : Charset) (l : List Item) (s : Session) : Act → Prop
  | .call c _ => Halts f t l s c
  | .reset => Initial s.ic

structure Stopped (f t : Charset) (l : List Item) (s : Session) (s' : Session) (r : Report) (pre : List Item) (i : Item)
    (post : List Item) (st : Mbstate) : Prop where
  reads : s.left l = pre ++ i :: post
  remains : s'.left l = i :: post
  position : ∃ before, l = before ++ i :: post ∧ (codes before).length = s'.consumed
  moved : r.inMoved = (codes pre).length ∧ r.inLeft = s'.unread.length
  offending : i.image = [] ∧ Broken f s'.ic.inState i.code (codes post) ∨
    f.refuses = true ∧ s'.unread.length < i.code.length
  delivered : s'.output ++ s'.ic.pending = s.output ++ s.ic.pending ++ images pre
  state : Reaches f t s.ic.inState s.ic.outState pre st s'.ic.outState ∧ s'.ic.inState.count = st.count

structure Resumes (f t : Charset) (l : List Item) (s : Session) (p : List UInt8) : Prop where
  follows : Follows f t (Broken f) l s p
  mode : s.ic.mode = .default
  placed : Rest f s.ic.inState.count ∧ (∃ before, l = before ++ s.left l ∧ (codes before).length = s.consumed) ∨
    Waits f ∧ ∃ i post v, s.left l = i :: post ∧ f.Code s.ic.inState i.code i.char v

theorem after_cons {l rest : List Item} {x : Item} {n : Nat} (h : after l n = x :: rest) :
    ∃ pre i, l = pre ++ i :: rest ∧ (codes pre).length + i.code.length = n + x.code.length := by
  induction l generalizing n with
  | nil => exact absurd h (List.cons_ne_nil _ _).symm
  | cons i l ih =>
    rw [after] at h
    split_ifs at h with hz hle
    · obtain ⟨rfl,rfl⟩ := List.cons.inj h
      exact ⟨[],i,rfl,by simp [hz]⟩
    · obtain ⟨pre,j,rfl,hlen⟩ := ih h
      refine ⟨i :: pre,j,rfl,?_⟩
      rw [codes_cons,List.length_append]
      omega
    · obtain ⟨rfl,rfl⟩ := List.cons.inj h
      refine ⟨[],i,rfl,?_⟩
      rw [codes_nil,List.length_nil,List.length_drop]
      omega

theorem Reaches.same {f t : Charset} {st ost st' ost' : Mbstate} (h : Reaches f t st ost [] st' ost') :
    st' = st ∧ ost' = ost := by
  cases h
  exact ⟨rfl,rfl⟩

theorem Reaches.rest {f t : Charset} {st ost st' ost' : Mbstate} {l : List Item} (h : Reaches f t st ost l st' ost')
    (hl : l ≠ []) : Rest f st'.count := by
  induction h with
  | refl => exact absurd rfl hl
  | @char st ost st₁ ost₁ st' ost' i l v hcode _ hst hrest ih =>
    cases l with
    | nil =>
      cases hrest
      exact .inr ⟨st,i.code,i.char,hst ▸ hcode⟩
    | cons j l => exact ih (List.cons_ne_nil _ _)

theorem waits_refuses (host : Host) (id : LocaleId) (h : (id.charset host).refuses = true) : ¬Waits (id.charset host) := by
  have hucs : ∀ width big (hw : 0 < width ∧ width ≤ 8), ¬Waits (ucsCharset width hw big) := by
    rintro width big hw ⟨g,n,st,hret⟩
    change (ucsMbtowc width big g n st).ret = -2 at hret
    rw [ucsMbtowc] at hret
    split at hret
    · simp at hret
    · change ((width : Nat) : Int) = -2 at hret
      omega
  cases id with
  | c => exact absurd h Bool.false_ne_true
  | utf8 => exact absurd h Bool.false_ne_true
  | ucs2 => exact hucs _ _ ucs2_width
  | ucs2le => exact hucs _ _ ucs2_width
  | ucs2be => exact hucs _ _ ucs2_width
  | ucs4 => exact hucs _ _ ucs4_width
  | ucs4le => exact hucs _ _ ucs4_width
  | ucs4be => exact hucs _ _ ucs4_width
  | iso8859 k => exact absurd h Bool.false_ne_true
  | cp k => exact absurd h Bool.false_ne_true
  | jis => exact absurd h Bool.false_ne_true
  | eucjp => exact absurd h Bool.false_ne_true
  | sjis => exact absurd h Bool.false_ne_true

section

variable {f t : Charset} {l : List Item} {s : Session} {p : List UInt8}

theorem Resumes.arrives (h : Resumes f t l s p) {c : Feed} {fut p' out : List UInt8} {w : Work} {l' : List Item}
    (hchunk : c.chunk ++ fut = s.future l) (ha : Arrived f t (Broken f) (s.left l) s c fut p w p' out l') :
    Resumes f t l (s.moved (s.unread ++ c.chunk) w out) p' := by
  obtain ⟨hf,hleft,-,-⟩ := ha.follows h.follows hchunk
  refine ⟨hf,ha.going.mode.trans h.mode,?_⟩
  rw [hleft]
  cases ha.placed with
  | within hin hwaits hl hcode => exact .inr ⟨hwaits,_,_,_,hl,hcode⟩
  | @between pre hl hin hreach =>
    have hinside : w.inOff + w.inLeft = (s.unread ++ c.chunk).length := ha.going.inside
    cases pre with
    | nil =>
      have hsame : w.ic.inState = s.ic.inState := hreach.same.1
      have hoff : w.inOff = 0 := by
        rw [codes_nil,List.length_nil] at hin
        omega
      have hplaced := h.placed
      rw [hl,List.nil_append] at hplaced
      rw [Session.moved]
      dsimp only
      rw [hsame,hoff,Nat.add_zero]
      exact hplaced
    | cons x more =>
      obtain ⟨before,j,hbefore,hlen⟩ := after_cons hl
      refine .inl ⟨hreach.rest (List.cons_ne_nil _ _),before ++ j :: more,?_,?_⟩
      · rw [hbefore,List.append_assoc]
        rfl
      · rw [Session.moved]
        dsimp only
        rw [codes_append,codes_cons,List.length_append,List.length_append]
        rw [codes_cons,List.length_append] at hin
        omega

theorem Follows.cancel {Bad : Mbstate → List UInt8 → List UInt8 → Prop} {s' : Session} {p' : List UInt8} {pre : List Item}
    (h : Follows f t Bad l s p) (h' : Follows f t Bad l s' p') (hl : s.left l = pre ++ s'.left l) :
    s'.output ++ s'.ic.pending = s.output ++ s.ic.pending ++ images pre := by
  have htotal := h'.total.trans h.total.symm
  rw [hl,images_append,← List.append_assoc] at htotal
  rw [h.steady.pending,h'.steady.pending]
  exact List.append_cancel_right htotal

theorem Resumes.incomplete (h : Resumes f t l s p) (hw : f.refuses = true → ¬Waits f) {c : Feed}
    {fut p' out : List UInt8} {w : Work} {l' : List Item} (hchunk : c.chunk ++ fut = s.future l)
    (ha : Arrived f t (Broken f) (s.left l) s c fut p w p' out l')
    (he : Ended (s.job f t (fun _ _ => True) c fut []) w p' l' (.error .eilseq)) :
    ∃ pre i post st, Stopped f t l s (s.moved (s.unread ++ c.chunk) w out)
      ⟨w.inOff,w.inLeft,w.outOff,w.outLeft,.error .eilseq⟩ pre i post st := by
  obtain ⟨hrefuses,-,-,i,post,rfl,hpos,hcut⟩ := he
  obtain ⟨hf,hleft,hunread,-⟩ := ha.follows h.follows hchunk
  have hplaced := (h.arrives hchunk ha).placed
  cases ha.placed with
  | within hin => omega
  | @between pre hl hin hreach =>
    have hinside : w.inOff + w.inLeft = (s.unread ++ c.chunk).length := ha.going.inside
    refine ⟨pre,i,post,w.ic.inState,hl,hleft,?_,⟨?_,hunread.symm⟩,.inr ⟨hrefuses,by rw [hunread]; exact hcut⟩,?_,hreach,rfl⟩
    · rcases hplaced with ⟨-,before,hbefore,hlen⟩ | ⟨hwaits,-⟩
      · exact ⟨before,by rw [← hleft]; exact hbefore,hlen⟩
      · exact absurd hwaits (hw hrefuses)
    · change w.inOff = (codes pre).length
      omega
    · exact h.follows.cancel hf (by rw [hleft]; exact hl)

theorem Broken.no_code {st : Mbstate} {w following : List UInt8} {wc v : Nat} (h : Broken f st w following)
    (hcode : f.Code st w wc v) : False := h w wc v hcode (List.prefix_append _ _)

theorem lost_part {st : Mbstate} {i : Item} {v : Nat} {g : List UInt8} {post : List Item} {fut : List UInt8}
    (hcode : f.Code st i.code i.char v) (htext : g ++ fut = codes (i :: post) ++ []) (h : Rejects f st g) :
    g.length < i.code.length := by
  rcases codes_split htext with ⟨r,rfl,-⟩ | ⟨q,hq,hi,-⟩
  · obtain ⟨st',ret,hread,-,hret⟩ := f.reads.whole hcode r
    have hbad := h.1
    rw [hread] at hbad
    change ret = -1 at hbad
    omega
  · have hpos := List.length_pos_iff.mpr hq
    rw [hi,List.length_append]
    omega

structure Called (f t : Charset) (l : List Item) (s : Session) (s' : Session) (r : Report) : Prop where
  stops : r.ret = .error .eilseq → ∃ pre i post st, Stopped f t l s s' r pre i post st
  output : s'.output ++ s'.ic.pending ++ images (s'.left l) = images l
  finishes : ∀ k, r.ret = .ok k → r.outLeft ≠ 0 → s'.future l = [] → s'.output = images l

theorem Resumes.called (h : Resumes f t l s p) (hw : f.refuses = true → ¬Waits f) {c : Feed} {fut p' out : List UInt8}
    {w : Work} {ret : Except Errno Nat} {l' : List Item} (hchunk : c.chunk ++ fut = s.future l)
    (ha : Arrived f t (Broken f) (s.left l) s c fut p w p' out l')
    (he : Ended (s.job f t (fun _ _ => True) c fut []) w p' l' ret) :
    Called f t l s (s.moved (s.unread ++ c.chunk) w out) ⟨w.inOff,w.inLeft,w.outOff,w.outLeft,ret⟩ := by
  obtain ⟨hf,-,-,-⟩ := ha.follows h.follows hchunk
  have hdrops := ha.drops h.follows hchunk he
  refine ⟨?_,hdrops.output,?_⟩
  · rintro rfl
    exact h.incomplete hw hchunk ha he
  · intro k hk hroom hfut
    obtain ⟨hunread,hstaged⟩ := (hdrops.finishes k hk).resolve_left hroom
    exact hf.finished hunread hstaged hfut

theorem rejected_called (h : Resumes f t l s p) (hsettled : Settled f) {c : Feed} {fut out : List UInt8} {w : Work}
    {pre post : List Item} {i : Item} (hchunk : c.chunk ++ fut = s.future l) (hl : s.left l = pre ++ i :: post)
    (him : i.image = []) (hne : i.code ≠ [])
    (hreach : Reaches f t s.ic.inState s.ic.outState pre w.ic.inState w.ic.outState)
    (ha : Arrived f t (Broken f) (s.left l) s c fut p w [] out (i :: post))
    (hread : (codes pre).length + w.inLeft = (s.unread ++ c.chunk).length)
    (hbad : Broken f w.ic.inState i.code (codes post))
    (hrest : Spells f t (Broken f) w.ic.inState w.ic.outState post)
    (hrej : Rejects f w.ic.inState ((s.unread ++ c.chunk).drop w.inOff)) :
    ∃ w', w.decode (s.unread ++ c.chunk) = .leave w' (.error .eilseq) ∧ slice w'.dst 0 w'.outOff = out ∧
      Resumes f t l (s.moved (s.unread ++ c.chunk) w' out) [] ∧ Called f t l s (s.moved (s.unread ++ c.chunk) w' out)
        ⟨w'.inOff,w'.inLeft,w'.outOff,w'.outLeft,.error .eilseq⟩ := by
  have hg := ha.going
  have hm := h.arrives hchunk ha
  obtain ⟨hf,hleft,hunread,-⟩ := ha.follows h.follows hchunk
  have hlen : ((s.unread ++ c.chunk).drop w.inOff).length = w.inLeft := hg.unread
  have hinside : w.inOff + w.inLeft = (s.unread ++ c.chunk).length := hg.inside
  have hmtc : w.ic.inMbtowc = f.mbtowc := hg.mbtowc
  have hmode : w.ic.mode = .default := hg.mode.trans h.mode
  obtain ⟨hret,hcount⟩ := hrej
  rw [hlen] at hret hcount
  obtain ⟨hrestful,before,hbefore,hblen⟩ : Rest f w.ic.inState.count ∧
      ∃ before, l = before ++ i :: post ∧ (codes before).length = s.consumed + w.inOff := by
    rcases hm.placed with ⟨hr,before,hb,hbl⟩ | ⟨-,j,post',v,hj,hcode⟩
    · exact ⟨hr,before,by rw [← hleft]; exact hb,hbl⟩
    · rw [hleft,List.cons.injEq] at hj
      obtain ⟨rfl,rfl⟩ := hj
      exact (hbad.no_code hcode).elim
  rw [← hmtc] at hret hcount
  generalize hr : w.ic.inMbtowc ((s.unread ++ c.chunk).drop w.inOff) w.inLeft w.ic.inState = r at hret hcount
  have hall : Spells f t (Broken f) r.state w.ic.outState (i :: post) :=
    .settled hsettled hrestful rfl hcount (fun _ _ hb => hb.settled hsettled hrestful rfl hcount)
      (.bad him hne hbad hrest)
  let w' : Work := { w with ic := { w.ic with inState := r.state }, wc := r.wc.getD w.wc }
  have hdecode : w.decode (s.unread ++ c.chunk) = .leave w' (.error .eilseq) := by
    have hkeep : w.ic.mode ≠ .ignore := by
      rw [hmode]
      exact Mode.noConfusion
    simp only [Work.decode,hr,hret]
    rw [if_neg (by decide),if_pos trivial]
  have hfollows : Follows f t (Broken f) l (s.moved (s.unread ++ c.chunk) w' out) [] := {
    steady := ⟨hf.steady.mbtowc,hf.steady.wctomb,hf.steady.off,hf.steady.len,hf.steady.staged⟩
    short := hf.short
    within := hf.within
    text := hf.text
    spells := by
      rw [show (s.moved (s.unread ++ c.chunk) w' out).left l = i :: post from hleft]
      exact hall
    total := hf.total }
  refine ⟨w',hdecode,hg.written,⟨hfollows,hmode,.inl ⟨?_,before,?_,hblen⟩⟩,?_,?_,fun k hk => absurd hk (by simp)⟩
  · change Rest f r.state.count
    rw [hcount]
    exact hrestful
  · exact hbefore.trans (congrArg (before ++ ·) hleft.symm)
  · intro _
    refine ⟨pre,i,post,w.ic.inState,hl,hleft,⟨before,hbefore,hblen⟩,⟨?_,hunread.symm⟩,.inl ⟨him,?_⟩,?_,hreach,hcount⟩
    · change w.inOff = (codes pre).length
      omega
    · exact hbad.settled hsettled hrestful rfl hcount
    · exact h.follows.cancel hfollows (by rw [hl]; exact congrArg (pre ++ ·) hleft.symm)
  · rw [hfollows.steady.pending]
    exact hfollows.total

theorem call_spec (h : Resumes f t l s p) (hsettled : Settled f) (hw : f.refuses = true → ¬Waits f) {c : Feed}
    (hc : Given l s c) (hs : Halts f t l s c) :
    ∃ r p', (s.feed c).2 = some r ∧ Resumes f t l (s.feed c).1 p' ∧ Called f t l s (s.feed c).1 r := by
  obtain ⟨fut,hchunk⟩ := hc
  have hstaged : s.ic.bufLen - s.ic.bufOff = p.length := by rw [h.follows.steady.off,h.follows.steady.len,Nat.sub_zero]
  have hspared := hs.spared
  have hoffends := hs.offends
  rw [hstaged] at hspared hoffends
  have hcame := feed_came h.follows.steady h.follows.spells (h.follows.given hchunk) hspared
  generalize hloop : iconvLoop (s.unread ++ c.chunk) (2 * (s.unread ++ c.chunk).length + 3) (s.start c) = res at hcame
  cases hcame with
  | ended ha he =>
    rw [feed_eq hloop ha.going.written]
    exact ⟨_,_,rfl,h.arrives hchunk ha,h.called hw hchunk ha he⟩
  | @met w out pre post i n hl hpre him hreach ha hin hroom hlen hspare hread =>
    have hinside : w.inOff + w.inLeft = (s.unread ++ c.chunk).length := ha.going.inside
    have hoff : (codes pre).length = w.inOff := by omega
    have hunread : ((s.unread ++ c.chunk).drop w.inOff).length = w.inLeft := ha.going.unread
    have hcase := hoffends pre i post _ _ hl hpre him hspare (by omega) hreach
    rw [hoff] at hcase
    cases ha.going.leads with
    | kept _ hwc => exact absurd (kept_image hwc) (by rw [not_kept.mpr him]; exact Bool.false_ne_true)
    | lost _ hcode hwc hrest =>
      have hpart : w.inLeft < i.code.length := by
        rcases hcase with hrej | ⟨hshort,-⟩
        · rw [← hunread]
          exact lost_part hcode (ha.going.text.trans (List.append_nil _).symm) hrej
        · omega
      have hmode : f.refuses = true → s.ic.mode ≠ .ignore := by
        intro _
        rw [h.mode]
        exact Mode.noConfusion
      obtain ⟨w',ret,l',hd,ha',he⟩ := lost_waits ha hin hpart hmode him hcode hwc hrest
      rw [met_decodes hroom hlen hin hd] at hloop
      rw [feed_eq hloop ha'.going.written]
      exact ⟨_,_,rfl,h.arrives hchunk ha',h.called hw hchunk ha' he⟩
    | bad _ hne hbad hrest =>
      have hrej : Rejects f w.ic.inState ((s.unread ++ c.chunk).drop w.inOff) := by
        rcases hcase with hrej | ⟨-,v,hcode⟩
        · exact hrej
        · exact (hbad.no_code hcode).elim
      obtain ⟨w',hd,hwritten,hresumes,hcalled⟩ := rejected_called h hsettled hchunk hl him hne hreach ha hread hbad hrest hrej
      rw [met_decodes hroom hlen hin hd] at hloop
      rw [feed_eq hloop hwritten]
      exact ⟨_,_,rfl,hresumes,hcalled⟩

theorem Resumes.skips (h : Resumes f t l s p) {i : Item} {post : List Item} (hl : s.left l = i :: post)
    (hbad : Broken f s.ic.inState i.code (codes post)) (hlen : i.code.length ≤ s.unread.length) :
    Resumes f t l (s.skip i.code.length) p := by
  obtain ⟨hrest,before,hbefore,hblen⟩ : Rest f s.ic.inState.count ∧
      ∃ before, l = before ++ i :: post ∧ (codes before).length = s.consumed := by
    rcases h.placed with ⟨hr,before,hb,hbl⟩ | ⟨-,j,post',v,hj,hcode⟩
    · exact ⟨hr,before,by rw [← hl]; exact hb,hbl⟩
    · rw [hl,List.cons.injEq] at hj
      obtain ⟨rfl,rfl⟩ := hj
      exact (hbad.no_code hcode).elim
  have hspells := h.follows.spells
  rw [hl] at hspells
  have hpos : 0 < i.code.length := List.length_pos_iff.mpr hspells.code_ne_nil
  have hleft : (s.skip i.code.length).left l = post := by
    have hstep : after (s.left l) i.code.length = post := by
      rw [hl,← Nat.add_zero i.code.length,after_code hpos,after_zero]
    rw [← hstep]
    exact (after_add l s.consumed i.code.length).symm
  have him : i.image = [] ∧ Spells f t (Broken f) s.ic.inState s.ic.outState post := by
    cases hspells with
    | kept hcode => exact (hbad.no_code hcode).elim
    | lost _ hcode => exact (hbad.no_code hcode).elim
    | bad him _ _ hrest => exact ⟨him,hrest⟩
  have hsum : s.consumed + i.code.length + (s.unread.length - i.code.length) = s.consumed + s.unread.length := by omega
  have hfuture : (s.skip i.code.length).future l = s.future l := by
    rw [Session.future,Session.future,Session.skip]
    dsimp only
    rw [List.length_drop,hsum]
  refine ⟨{ steady := ⟨h.follows.steady.mbtowc,h.follows.steady.wctomb,h.follows.steady.off,h.follows.steady.len,
      h.follows.steady.staged⟩
            short := h.follows.short
            within := ?_
            text := ?_
            spells := ?_
            total := ?_ },h.mode,.inl ⟨hrest,before ++ [i],?_,?_⟩⟩
  · rw [Session.skip]
    dsimp only
    rw [List.length_drop,hsum]
    exact h.follows.within
  · rw [hleft,hfuture,Session.skip]
    dsimp only
    have htext := congrArg (List.drop i.code.length) h.follows.text
    rwa [hl,codes_cons,List.drop_left,List.drop_append_of_le_length hlen] at htext
  · rw [hleft]
    exact him.2
  · have htotal := h.follows.total
    rw [hl,images_cons,him.1,List.nil_append] at htotal
    rw [hleft]
    exact htotal
  · rw [hleft,List.append_assoc]
    exact hbefore
  · rw [codes_append,codes_cons,codes_nil,List.append_nil,List.length_append,hblen]
    rfl

def Answers (f t : Charset) (l : List Item) (s : Session) : Act → Prop
  | .call c _ => ∃ r, (s.feed c).2 = some r ∧ Called f t l s (s.feed c).1 r
  | .reset => Initial s.reset.ic

theorem act_spec (h : Resumes f t l s p) (hsettled : Settled f) (hw : f.refuses = true → ¬Waits f) {a : Act}
    (ht : Tries l s a) (hg : Gentle f t l s a) : (∃ p', Resumes f t l (s.act a).1 p') ∧ Answers f t l s a := by
  cases a with
  | reset => exact ⟨⟨p,h⟩,hg⟩
  | call c n =>
    obtain ⟨r,p',hr,hresumes,hcalled⟩ := call_spec h hsettled hw ht.1 hg
    refine ⟨?_,r,hr,hcalled⟩
    change ∃ p', Resumes f t l ((s.feed c).1.resume n ((s.feed c).2.map Report.ret)) p'
    rw [hr,Option.map_some]
    cases hret : r.ret with
    | ok k => exact ⟨p',hresumes⟩
    | error e =>
      cases e with
      | einval => exact ⟨p',hresumes⟩
      | e2big => exact ⟨p',hresumes⟩
      | eilseq =>
        change ∃ p', Resumes f t l ((s.feed c).1.skip n) p'
        rcases ht.2 with rfl | ⟨i,post,hl,-,rfl,hlen⟩
        · exact ⟨p',hresumes⟩
        · obtain ⟨pre,j,post',st,hstop⟩ := hcalled.stops hret
          obtain ⟨rfl,rfl⟩ := List.cons.inj (hl.symm.trans hstop.remains)
          rcases hstop.offending with ⟨-,hbroken⟩ | ⟨-,hshort⟩
          · exact ⟨p',hresumes.skips hl hbroken hlen⟩
          · omega

end

theorem iconv_restarts {host : Host} {calloc : Bool} {tocode fromcode : List Char} {ic : Descriptor}
    (hopen : iconvOpen host calloc (some tocode) (some fromcode) = .ok ic) (hdefault : ic.mode = .default) :
    ∃ toid fromid, findCharset host tocode = some toid ∧ findCharset host fromcode = some fromid ∧
      let f := fromid.charset host
      let t := toid.charset host
      let Text := Spells f t (Broken f) .initial .initial
      (∀ bytes, ∃ l, Text l ∧ bytes <+: codes l) ∧
      ∀ l, Text l → ∀ acts a, Along Session.act (Tries l) (opened ic) (acts ++ [a]) →
        Along Session.act (Gentle f t l) (opened ic) (acts ++ [a]) →
        Answers f t l (run Session.act (opened ic) acts).1 a := by
  obtain ⟨toid,fromid,mode,hto,hfrom,rfl⟩ := iconvOpen_ok hopen
  have hsettled := charset_settled host fromid
  have hwaits := waits_refuses host fromid
  refine ⟨toid,fromid,hto,hfrom,fun bytes => ?_,?_⟩
  · obtain ⟨l,hl,hbytes⟩ := spells_exists (t := toid.charset host) hsettled _ (le_refl bytes.length) .initial .initial
    exact ⟨l,hl.mono fun _ _ _ h => h.2,hbytes⟩
  · intro l hl acts a htries hgentle
    obtain ⟨ht₁,ht₂⟩ := along_append htries
    obtain ⟨hg₁,hg₂⟩ := along_append hgentle
    have hkeep : ∀ s a, (∃ p, Resumes (fromid.charset host) (toid.charset host) l s p) →
        Tries l s a ∧ Gentle (fromid.charset host) (toid.charset host) l s a →
        ∃ p, Resumes (fromid.charset host) (toid.charset host) l (s.act a).1 p := by
      rintro s a ⟨p,hp⟩ ⟨ht,hg⟩
      exact (act_spec hp hsettled hwaits ht hg).1
    have hstart : Resumes (fromid.charset host) (toid.charset host) l (opened (descriptor host toid fromid mode)) [] :=
      ⟨opened_follows host toid fromid mode hl,hdefault,.inl ⟨.inl rfl,[],(after_zero l).symm,rfl⟩⟩
    obtain ⟨p,hp⟩ := run_preserves hkeep ⟨[],hstart⟩ (along_and ht₁ hg₁)
    exact (act_spec hp hsettled hwaits ht₂.1 hg₂.1).2

def asciiToUtf8 : Descriptor := descriptor latin .utf8 .c .default

theorem ascii_opens : iconvOpen latin true (some "UTF-8".toList) (some "ASCII".toList) = .ok asciiToUtf8 := rfl

def interrupted : List Item := [⟨[0x61],0x61,[0x61]⟩,⟨[0xe9],0,[]⟩,⟨[0x62],0x62,[0x62]⟩]

theorem interrupted_spells : Spells (LocaleId.c.charset latin) (LocaleId.utf8.charset latin)
    (Broken (LocaleId.c.charset latin)) .initial .initial interrupted := by
  refine .kept (v := 0) ⟨0x61,rfl,rfl,rfl⟩ rfl fun st hst => .bad rfl (List.cons_ne_nil _ _) ?_
    (.kept (v := 0) ⟨0x62,rfl,rfl,hst⟩ rfl fun _ _ => .nil)
  rintro w wc v ⟨b,rfl,hb,-⟩ hw
  obtain rfl : b = 0xe9 := (List.cons_prefix_cons.mp hw).1
  simp [asciiConv] at hb

theorem interrupted_halts : Halts (LocaleId.c.charset latin) (LocaleId.utf8.charset latin) interrupted (opened asciiToUtf8)
    ⟨[0x61,0xe9,0x62],fun _ => 0,32,0⟩ := by
  have hleft : (opened asciiToUtf8).left interrupted = interrupted := after_zero _
  refine ⟨?_,?_⟩
  · rw [hleft]
    refine ⟨?_,fun pre i post he hm => absurd hm Mode.noConfusion⟩
    intro pre i post he _ hz
    have hi : i ∈ interrupted.takeWhile Item.kept := by
      rw [he]
      exact List.mem_append_right _ List.mem_cons_self
    rw [show interrupted.takeWhile Item.kept = [⟨[0x61],0x61,[0x61]⟩] from rfl,List.mem_singleton] at hi
    rw [hi] at hz
    exact absurd hz (by decide)
  · intro pre i post st ost he hkept him _ _ _
    rw [hleft] at he
    cases pre with
    | nil =>
      obtain ⟨rfl,-⟩ := List.cons.inj he
      exact absurd him (List.cons_ne_nil _ _)
    | cons x pre =>
      obtain ⟨rfl,hrest⟩ := List.cons.inj he
      cases pre with
      | nil => exact .inl ⟨rfl,rfl⟩
      | cons y pre =>
        obtain ⟨rfl,-⟩ := List.cons.inj hrest
        exact absurd (hkept _ (List.mem_cons_of_mem _ List.mem_cons_self)) Bool.false_ne_true

theorem iconv_restarts_ascii :
    let c : Feed := ⟨[0x61,0xe9,0x62],fun _ => 0,32,0⟩
    let d : Feed := ⟨[],fun _ => 0,32,0⟩
    (((run Session.act (opened asciiToUtf8) [.call c 1]).1).feed d).1.output = images interrupted := by
  intro c d
  obtain ⟨toid,fromid,hto,hfrom,-,h⟩ := iconv_restarts ascii_opens rfl
  obtain rfl : LocaleId.utf8 = toid := by
    rw [show findCharset latin "UTF-8".toList = some .utf8 by decide] at hto
    exact Option.some.inj hto
  obtain rfl : LocaleId.c = fromid := by
    rw [show findCharset latin "ASCII".toList = some .c by decide] at hfrom
    exact Option.some.inj hfrom
  have hstopped : ((opened asciiToUtf8).feed c).1.left interrupted = [⟨[0xe9],0,[]⟩,⟨[0x62],0x62,[0x62]⟩] := by
    rw [Session.left,show ((opened asciiToUtf8).feed c).1.consumed = 1 by decide]
    rfl
  have hresumed : ((opened asciiToUtf8).act (.call c 1)).1.left interrupted = [⟨[0x62],0x62,[0x62]⟩] := by
    rw [Session.left,show ((opened asciiToUtf8).act (.call c 1)).1.consumed = 2 by decide]
    rfl
  have htries : Along Session.act (Tries interrupted) (opened asciiToUtf8) ([.call c 1] ++ [.call d 0]) :=
    ⟨⟨⟨[],by decide⟩,.inr ⟨_,_,hstopped,rfl,rfl,by decide⟩⟩,⟨List.nil_prefix,.inl rfl⟩,trivial⟩
  have hmode : ((opened asciiToUtf8).act (.call c 1)).1.ic.mode = .default := by decide
  have hgentle : Along Session.act (Gentle (LocaleId.c.charset latin) (LocaleId.utf8.charset latin) interrupted)
      (opened asciiToUtf8) ([.call c 1] ++ [.call d 0]) := by
    have hlast : ∀ i ∈ ((opened asciiToUtf8).act (.call c 1)).1.left interrupted, i.char ≠ 0 ∧ i.image ≠ [] := by
      rw [hresumed]
      decide
    refine ⟨interrupted_halts,⟨⟨?_,?_⟩,?_⟩,trivial⟩
    · intro pre i post he _ hz
      have hi := (List.takeWhile_prefix Item.kept).subset (he ▸ List.mem_append_right pre List.mem_cons_self)
      exact absurd hz (hlast i hi).1
    · intro pre i post he hm
      rw [hmode] at hm
      exact absurd hm Mode.noConfusion
    · intro pre i post st ost he _ him
      exact absurd him (hlast i (he ▸ List.mem_append_right pre List.mem_cons_self)).2
  obtain ⟨r,hr,hcalled⟩ := h interrupted interrupted_spells [.call c 1] (.call d 0) htries hgentle
  have hret : (((run Session.act (opened asciiToUtf8) [.call c 1]).1).feed d).2.map
      (fun r => (r.ret.toOption,r.outLeft)) = some (some 0,31) := by decide
  rw [hr,Option.map_some,Option.some.injEq,Prod.mk.injEq] at hret
  obtain ⟨hok,hroom⟩ := hret
  have hzero : r.ret = .ok 0 := by
    cases hx : r.ret with
    | error e => simp [hx,Except.toOption] at hok
    | ok k => simpa [hx,Except.toOption] using hok
  exact hcalled.finishes 0 hzero (by omega) (by decide)

def latinToStrictAscii : Descriptor := descriptor latin .c latinOne .default

def utf8ToAscii : Descriptor := descriptor latin .c .utf8 .default

theorem iconv_loses_place :
    let f := (LocaleId.iso8859 0).charset latin
    let c : Feed := ⟨[0x61,0xe9],fun _ => 0,32,0⟩
    let d : Feed := ⟨[0xc3],fun _ => 0,32,0⟩
    (Spells f (LocaleId.c.charset latin) (Broken f) .initial .initial accented ∧
      Given accented (opened latinToStrictAscii) c ∧
      ((opened latinToStrictAscii).feed c).2.map Report.ret = some (.error .eilseq) ∧
      ((opened latinToStrictAscii).feed c).1.consumed = 2 ∧
      ∀ r, ((opened latinToStrictAscii).feed c).2 = some r →
        ¬Called f (LocaleId.c.charset latin) accented (opened latinToStrictAscii) ((opened latinToStrictAscii).feed c).1 r) ∧
    ¬Initial ((opened utf8ToAscii).feed d).1.reset.ic := by
  intro f c d
  have hret : ((opened latinToStrictAscii).feed c).2.map Report.ret = some (.error .eilseq) := rfl
  refine ⟨⟨accented_spells,⟨[],by decide⟩,hret,by decide,fun r hr hcalled => ?_⟩,fun h => ?_⟩
  · rw [hr,Option.map_some,Option.some.injEq] at hret
    obtain ⟨pre,i,post,st,hstop⟩ := hcalled.stops hret
    have hremains := hstop.remains
    rw [Session.left,show ((opened latinToStrictAscii).feed c).1.consumed = 2 by decide] at hremains
    exact absurd hremains (List.cons_ne_nil _ _).symm
  · have hcount : ((opened utf8ToAscii).feed d).1.reset.ic.inState.count = 1 := by decide
    rw [h.1] at hcount
    exact absurd hcount (by decide)

end Iconv
