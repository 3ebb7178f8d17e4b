import Mathlib
import Picolibc.Stdlib.Getopt

namespace Getopt

inductive Ending where
  | plain
  | takesNext
  | unknown
  | missing
  | cut
  | stops (next : Bool)
  deriving DecidableEq, Repr

def ending (schar : Bool) (shortopts : List UInt8) (final : Bool) : List UInt8 → Ending
  | [] => .plain
  | c :: rest =>
    match strchr c shortopts with
    | none => if rest = [] then .unknown else ending schar shortopts final rest
    | some cp =>
      let hidden := charValue schar c = eof
      match hasArg cp with
      | .none =>
        if rest = [] then if hidden then .stops false else .plain
        else if hidden then .cut else ending schar shortopts final rest
      | .optional => if hidden then .stops false else .plain
      | .required =>
        if skipEquals rest ≠ [] then if hidden then .stops false else .plain
        else if final then .missing
        else if hidden then .stops true else .takesNext

def Ending.takes : Ending → Bool
  | .takesNext => true
  | .stops next => next
  | _ => false

section

variable (schar : Bool) (shortopts : List UInt8)

def split : Bool → List Arg → List Arg × List Arg
  | _, [] => ([],[])
  | true, a :: rest =>
    let p := split false rest
    (a :: p.1,p.2)
  | false, a :: rest =>
    if a = endMarker then ([a],rest)
    else if isOption a then
      let p := split (ending schar shortopts rest.isEmpty a.tail).takes rest
      (a :: p.1,p.2)
    else
      let p := split false rest
      (p.1,a :: p.2)

def orderly : Bool → Bool → List Arg → Bool
  | _, _, [] => true
  | true, seen, _ :: rest => orderly false seen rest
  | false, seen, a :: rest =>
    if a = endMarker then true
    else if isOption a then
      match ending schar shortopts rest.isEmpty a.tail with
      | .plain => orderly false seen rest
      | .takesNext => orderly true seen rest
      | .unknown => !seen && orderly false false rest
      | .missing => !seen
      | .cut => false
      | .stops next => (split schar shortopts false (if next then rest.tail else rest)).1 = []
    else orderly false true rest

theorem split_perm (taken : Bool) (args : List Arg) :
    ((split schar shortopts taken args).1 ++ (split schar shortopts taken args).2).Perm args := by
  induction args generalizing taken with
  | nil => cases taken <;> exact .nil
  | cons a rest ih =>
    cases taken with
    | true => exact (ih false).cons a
    | false =>
      simp only [split]
      split_ifs
      · exact List.Perm.refl _
      · exact (ih _).cons a
      · exact List.perm_middle.trans ((ih false).cons a)

end

def Ends (schar : Bool) (optstring : List UInt8) (argv : List Arg) (d : Data) (x : List Arg × Data) : Prop :=
  ∃ n, ∀ m, n ≤ m → getoptRun schar false optstring m argv d = some x

variable {schar : Bool} {optstring : List UInt8} {argv : List Arg} {d : Data}

theorem ends_eof {r : Call} (h : getopt schar false optstring argv d = some r) (hr : r.ret = eof) :
    Ends schar optstring argv d (r.argv,r.data) := by
  refine ⟨1,fun m hm => ?_⟩
  obtain ⟨k,rfl⟩ : ∃ k, m = k + 1 := ⟨m - 1,by omega⟩
  simp [getoptRun,h,hr]

theorem ends_step {r : Call} {x : List Arg × Data} (h : getopt schar false optstring argv d = some r)
    (hr : r.ret ≠ eof) (hx : Ends schar optstring r.argv r.data x) : Ends schar optstring argv d x := by
  obtain ⟨n,hn⟩ := hx
  refine ⟨n + 1,fun m hm => ?_⟩
  obtain ⟨k,rfl⟩ : ∃ k, m = k + 1 := ⟨m - 1,by omega⟩
  simp [getoptRun,h,hr,hn k (by omega)]

def After (schar : Bool) (optstring : List UInt8) (r : Option Call) (x : List Arg × Data) : Prop :=
  ∃ c, r = some c ∧ ((c.ret = eof ∧ x = (c.argv,c.data)) ∨
    (c.ret ≠ eof ∧ Ends schar optstring c.argv c.data x))

theorem after_ends {x : List Arg × Data} (h : After schar optstring (getopt schar false optstring argv d) x) :
    Ends schar optstring argv d x := by
  obtain ⟨c,hc,⟨hr,rfl⟩ | ⟨hr,hx⟩⟩ := h
  · exact ends_eof hc hr
  · exact ends_step hc hr hx

structure At (d : Data) (done skipped : List Arg) (w : Nat) : Prop where
  ind : d.optind = 1 + done.length + skipped.length
  start : d.permuteFrom = 1 + done.length
  num : d.numNonopts = skipped.length
  pos : d.optwhere = w

theorem finish_block (prog : Arg) (post : List Arg) {done skipped ys : List Arg} {k : Nat} (h : At d done skipped 1)
    (hk : ys.length = 1 + k) :
    finish .permute k (prog :: (done ++ (skipped ++ (ys ++ post)))) d =
      ⟨d.optopt,{ d with optind := 2 + done.length + k },prog :: (done ++ (ys ++ (skipped ++ post))),[]⟩ := by
  have hlen : (prog :: done).length = 1 + done.length := by simp [Nat.add_comm]
  unfold finish
  rw [h.start,h.num,h.pos,h.ind]
  by_cases hs : skipped.length = 0
  · obtain rfl := List.length_eq_zero_iff.mp hs
    rw [if_neg (by simp),if_pos rfl]
    simp only [List.nil_append,List.length_nil,Nat.add_zero]
    congr 2
    omega
  · have hex := Blocks.exchange_eq (prog :: done) skipped ys post
    rw [hlen,hk] at hex
    rw [if_pos ⟨rfl,rfl,hs⟩]
    simp only [Call.mk.injEq,true_and,and_true]
    refine ⟨?_,hex⟩
    congr 1
    omega

theorem finish_mid (o : Ordering) (k : Nat) (argv : List Arg) (h : d.optwhere ≠ 1) :
    finish o k argv d = ⟨d.optopt,d,argv,[]⟩ := by
  rw [finish,if_neg (fun hc => h hc.2.1),if_neg h]

theorem unknownOption_last {e : Arg} (h : e.getD (d.optwhere + 1) 0 = 0) (argv : List Arg) :
    (unknownOption e argv d).ret = question.toNat ∧ (unknownOption e argv d).argv = argv ∧
      (unknownOption e argv d).data.optind = d.optind + 1 ∧ (unknownOption e argv d).data.optwhere = 1 := by
  unfold unknownOption
  dsimp only
  rw [if_pos h]
  exact ⟨rfl,rfl,rfl,rfl⟩

theorem unknownOption_more {e : Arg} {done skipped : List Arg} {w : Nat} (hat : At d done skipped w)
    (h : e.getD (d.optwhere + 1) 0 ≠ 0) (argv : List Arg) :
    (unknownOption e argv d).ret = question.toNat ∧ (unknownOption e argv d).argv = argv ∧
      At (unknownOption e argv d).data done skipped (w + 1) := by
  unfold unknownOption
  dsimp only
  rw [if_neg h]
  exact ⟨rfl,rfl,hat.ind,hat.start,hat.num,congrArg (· + 1) hat.pos⟩

theorem strchr_head {c : UInt8} {s cp : List UInt8} (hc : c ≠ 0) (h : strchr c s = some cp) :
    ∃ t, cp = c :: t := by
  induction s with
  | nil =>
    rw [strchr,if_neg hc] at h
    cases h
  | cons x s ih =>
    rw [strchr] at h
    split_ifs at h with hx
    · cases h
      exact ⟨s,by rw [hx]⟩
    · exact ih h

section

variable (schar optstring) (prog : Arg) (done skipped : List Arg) (e : Arg) (rest : List Arg)

def Outcome (Q : List Arg × Data → Prop) : Ending → Prop
  | .plain => ∃ d, d.optwhere = 1 ∧ d.optind = 2 + done.length ∧
      ∀ x, Ends schar optstring (prog :: (done ++ (e :: (skipped ++ rest)))) d x → Q x
  | .takesNext => ∃ b rest' d, rest = b :: rest' ∧ d.optwhere = 1 ∧ d.optind = 3 + done.length ∧
      ∀ x, Ends schar optstring (prog :: (done ++ (e :: b :: (skipped ++ rest')))) d x → Q x
  | .unknown => ∃ d, d.optwhere = 1 ∧ d.optind = 2 + done.length + skipped.length ∧
      ∀ x, Ends schar optstring (prog :: (done ++ (skipped ++ e :: rest))) d x → Q x
  | .missing => ∃ d, rest = [] ∧ d.optind = 2 + done.length + skipped.length ∧
      ∀ x, Ends schar optstring (prog :: (done ++ (skipped ++ e :: rest))) d x → Q x
  | .cut => ∃ d, d.optind = 1 + done.length + skipped.length ∧
      Q (prog :: (done ++ (skipped ++ e :: rest)),d)
  | .stops false => ∃ d, d.optind = 2 + done.length ∧ Q (prog :: (done ++ (e :: (skipped ++ rest))),d)
  | .stops true => ∃ b rest' d, rest = b :: rest' ∧ d.optind = 3 + done.length ∧
      Q (prog :: (done ++ (e :: b :: (skipped ++ rest'))),d)

end

theorem Outcome.imp {prog : Arg} {done skipped : List Arg} {e : Arg} {rest : List Arg}
    {P Q : List Arg × Data → Prop} {k : Ending} (h : Outcome schar optstring prog done skipped e rest P k)
    (hpq : ∀ x, P x → Q x) : Outcome schar optstring prog done skipped e rest Q k := by
  match k with
  | .plain =>
    obtain ⟨d,h1,h2,h3⟩ := h
    exact ⟨d,h1,h2,fun x hx => hpq x (h3 x hx)⟩
  | .takesNext =>
    obtain ⟨b,rest',d,h0,h1,h2,h3⟩ := h
    exact ⟨b,rest',d,h0,h1,h2,fun x hx => hpq x (h3 x hx)⟩
  | .unknown =>
    obtain ⟨d,h1,h2,h3⟩ := h
    exact ⟨d,h1,h2,fun x hx => hpq x (h3 x hx)⟩
  | .missing =>
    obtain ⟨d,h1,h2,h3⟩ := h
    exact ⟨d,h1,h2,fun x hx => hpq x (h3 x hx)⟩
  | .cut =>
    obtain ⟨d,h1,h2⟩ := h
    exact ⟨d,h1,hpq _ h2⟩
  | .stops false =>
    obtain ⟨d,h1,h2⟩ := h
    exact ⟨d,h1,hpq _ h2⟩
  | .stops true =>
    obtain ⟨b,rest',d,h0,h1,h2⟩ := h
    exact ⟨b,rest',d,h0,h1,hpq _ h2⟩

section

variable {prog : Arg} {done skipped : List Arg} {e : Arg} {rest : List Arg} {c : UInt8}

theorem outcome_plain (h : At d done skipped 1) (hopt : d.optopt = charValue schar c) :
    Outcome schar optstring prog done skipped e rest
      (After schar optstring (some (finish .permute 0 (prog :: (done ++ (skipped ++ e :: rest))) d)))
      (if charValue schar c = eof then .stops false else .plain) := by
  have hf := finish_block prog rest h (show [e].length = 1 + 0 from rfl)
  rw [List.singleton_append,List.singleton_append] at hf
  rw [hf]
  split_ifs with hc
  · exact ⟨_,rfl,_,rfl,.inl ⟨hopt.trans hc,rfl⟩⟩
  · refine ⟨{ d with optind := 2 + done.length + 0 },h.pos,rfl,fun x hx => ⟨_,rfl,.inr ⟨?_,hx⟩⟩⟩
    rw [hopt]
    exact hc

theorem outcome_next {b : Arg} {rest' : List Arg} (h : At d done skipped 1)
    (hopt : d.optopt = charValue schar c) (hr : rest = b :: rest') :
    Outcome schar optstring prog done skipped e rest
      (After schar optstring (some (finish .permute 1 (prog :: (done ++ (skipped ++ e :: rest))) d)))
      (if charValue schar c = eof then .stops true else .takesNext) := by
  subst hr
  have hf := finish_block prog rest' h (show [e,b].length = 1 + 1 from rfl)
  simp only [List.cons_append,List.nil_append] at hf
  rw [hf]
  split_ifs with hc
  · exact ⟨b,rest',{ d with optind := 2 + done.length + 1 },rfl,by dsimp only; omega,_,rfl,
      .inl ⟨hopt.trans hc,rfl⟩⟩
  · refine ⟨b,rest',{ d with optind := 2 + done.length + 1 },rfl,h.pos,by dsimp only; omega,
      fun x hx => ⟨_,rfl,.inr ⟨?_,hx⟩⟩⟩
    rw [hopt]
    exact hc

theorem outcome_more {w : Nat} {k : Ending} (h : At d done skipped w) (hopt : d.optopt = charValue schar c)
    (hw : w ≠ 1) (hmore : Outcome schar optstring prog done skipped e rest
      (Ends schar optstring (prog :: (done ++ (skipped ++ e :: rest))) d) k) :
    Outcome schar optstring prog done skipped e rest
      (After schar optstring (some (finish .permute 0 (prog :: (done ++ (skipped ++ e :: rest))) d)))
      (if charValue schar c = eof then .cut else k) := by
  rw [finish_mid _ _ _ (by rw [h.pos]; exact hw)]
  split_ifs with hc
  · exact ⟨d,h.ind,_,rfl,.inl ⟨hopt.trans hc,rfl⟩⟩
  · refine hmore.imp (fun x hx => ⟨_,rfl,.inr ⟨?_,hx⟩⟩)
    rw [hopt]
    exact hc

variable {startsColon : Bool} {shortopts : List UInt8}
  (hord : defineOrdering false optstring = (.permute,optstring))
  (hcol : initialColon optstring = (startsColon,shortopts))

include hord hcol

theorem getopt_mid (hi : d.optind ≠ 0) (he : argv[d.optind]? = some e) (hm : e ≠ endMarker) (hw : d.optwhere ≠ 1) :
    getopt schar false optstring argv d = parseOption schar .permute startsColon shortopts argv d := by
  unfold getopt
  rw [if_neg hi]
  simp only [he]
  rw [if_neg hm,hord]
  dsimp only
  rw [hcol]
  dsimp only
  rw [if_neg hw]

variable (schar prog rest) in
theorem parseOption_cluster (hm : e ≠ endMarker) (chars pre : List UInt8) (he : e = pre ++ chars) (hp : 1 ≤ pre.length)
    (hne : chars ≠ []) (hz : 0 ∉ chars) (h : At d done skipped pre.length) :
    Outcome schar optstring prog done skipped e rest
      (After schar optstring (parseOption schar .permute startsColon shortopts
        (prog :: (done ++ (skipped ++ e :: rest))) d))
      (ending schar shortopts rest.isEmpty chars) := by
  induction chars generalizing pre d with
  | nil => exact absurd rfl hne
  | cons c chars ih =>
    have hc : c ≠ 0 := fun h0 => hz (h0 ▸ List.mem_cons_self)
    have hget : ∀ d' : Data, d'.optind = 1 + done.length + skipped.length →
        (prog :: (done ++ (skipped ++ e :: rest)))[d'.optind]? = some e := by
      intro d' hd'
      rw [hd',show 1 + done.length + skipped.length = (done.length + skipped.length) + 1 by omega,
        List.getElem?_cons_succ,List.getElem?_append_right (by omega),Nat.add_sub_cancel_left,
        List.getElem?_append_right (Nat.le_refl _),Nat.sub_self]
      rfl
    have hchar : e.getD d.optwhere 0 = c := by
      rw [h.pos,he]
      simp
    have hnext : e.getD (d.optwhere + 1) 0 = 0 ↔ chars = [] := by
      have hdrop : e.getD (pre.length + 1) 0 = chars.getD 0 0 := by
        rw [he,List.getD_append_right _ _ _ _ (by omega),Nat.add_sub_cancel_left]
        rfl
      rw [h.pos,hdrop]
      cases chars with
      | nil => simp
      | cons a t =>
        have ha : a ≠ 0 := fun h0 => hz (h0 ▸ List.mem_cons_of_mem _ List.mem_cons_self)
        simpa using ha
    have hmid : ∀ d' : Data, At d' done skipped (pre.length + 1) → chars ≠ [] →
        Outcome schar optstring prog done skipped e rest
          (Ends schar optstring (prog :: (done ++ (skipped ++ e :: rest))) d')
          (ending schar shortopts rest.isEmpty chars) := by
      intro d' h' hne'
      have hrec := ih (pre ++ [c]) (by rw [he]; simp) (by simp) hne' (fun h0 => hz (List.mem_cons_of_mem _ h0))
        (d := d') (by simpa using h')
      refine hrec.imp (fun x hx => after_ends ?_)
      rw [getopt_mid hord hcol (by rw [h'.ind]; omega) (hget d' h'.ind) hm (by rw [h'.pos]; omega)]
      exact hx
    unfold parseOption
    rw [hget d h.ind]
    dsimp only
    rw [hchar]
    cases hs : strchr c shortopts with
    | none =>
      simp only [ending,hs]
      by_cases hlast : chars = []
      · obtain ⟨hret,hargv,hind,hwhere⟩ := unknownOption_last (d := d) (hnext.mpr hlast)
          (prog :: (done ++ (skipped ++ e :: rest)))
        rw [if_pos hlast]
        refine ⟨_,hwhere,by rw [hind,h.ind]; omega,fun x hx => ⟨_,rfl,.inr ⟨by rw [hret]; decide,?_⟩⟩⟩
        rw [hargv]
        exact hx
      · obtain ⟨hret,hargv,hat⟩ := unknownOption_more h (fun h0 => hlast (hnext.mp h0))
          (prog :: (done ++ (skipped ++ e :: rest)))
        rw [if_neg hlast]
        refine (hmid _ hat hlast).imp (fun x hx => ⟨_,rfl,.inr ⟨by rw [hret]; decide,?_⟩⟩)
        rw [hargv]
        exact hx
    | some cp =>
      obtain ⟨t,rfl⟩ := strchr_head hc hs
      have hdrop : e.drop (d.optwhere + 1) = chars := by
        rw [h.pos,he,List.drop_append]
        simp
      simp only [ending,hs]
      unfold takeArgument
      rw [hdrop]
      dsimp only
      cases ha : hasArg (c :: t) with
      | none =>
        dsimp only
        by_cases hlast : chars = []
        · rw [if_pos (hnext.mpr hlast),if_pos hlast]
          exact outcome_plain ⟨h.ind,h.start,h.num,rfl⟩ rfl
        · rw [if_neg (fun h0 => hlast (hnext.mp h0)),if_neg hlast]
          have hat : At { d with optopt := charValue schar c, optwhere := d.optwhere + 1, optarg := none }
            done skipped (pre.length + 1) := ⟨h.ind,h.start,h.num,congrArg (· + 1) h.pos⟩
          exact outcome_more hat rfl (by omega) (hmid _ hat hlast)
      | optional => exact outcome_plain ⟨h.ind,h.start,h.num,rfl⟩ rfl
      | required =>
        dsimp only
        by_cases harg : skipEquals chars ≠ []
        · rw [if_pos harg,if_pos harg]
          exact outcome_plain ⟨h.ind,h.start,h.num,rfl⟩ rfl
        · rw [if_neg harg,if_neg harg]
          cases rest with
          | nil =>
            rw [if_pos (by rw [h.ind]; simp; omega),List.isEmpty_nil,if_pos rfl]
            refine ⟨{ d with optopt := charValue schar c, optind := d.optind + 1 },rfl,?_,
              fun x hx => ⟨_,rfl,.inr ⟨?_,hx⟩⟩⟩
            · dsimp only
              rw [h.ind]
              omega
            · dsimp only
              cases startsColon <;> decide
          | cons b rest' =>
            rw [if_neg (by rw [h.ind]; simp; omega),List.isEmpty_cons,if_neg Bool.false_ne_true]
            exact outcome_next ⟨h.ind,h.start,h.num,rfl⟩ rfl rfl

variable (schar prog) in
omit hcol in
theorem getopt_scan (hi : d.optind = 1 + done.length) (hw : d.optwhere = 1)
    (hs : ∀ a ∈ skipped, isOption a = false) (tail : List Arg) (ht : tail = [] ∨ ∃ a t, tail = a :: t ∧ isOption a = true)
    (hm : skipped = [] → ∀ t, tail ≠ endMarker :: t) (hne : skipped ++ tail ≠ []) :
    getopt schar false optstring (prog :: (done ++ (skipped ++ tail))) d =
      let d' := { d with permuteFrom := d.optind, numNonopts := skipped.length, optind := d.optind + skipped.length }
      match tail with
      | [] => some ⟨eof,{ d' with optind := d'.permuteFrom },prog :: (done ++ (skipped ++ tail)),[]⟩
      | a :: t =>
        if a = endMarker then
          some ⟨eof,{ d' with optind := d'.permuteFrom + 1 },prog :: (done ++ (a :: (skipped ++ t))),[]⟩
        else parseOption schar .permute (initialColon optstring).1 (initialColon optstring).2
          (prog :: (done ++ (skipped ++ tail))) d' := by
  have hdrop : (prog :: (done ++ (skipped ++ tail))).drop d.optind = skipped ++ tail := by
    rw [hi,Nat.add_comm,List.drop_succ_cons,List.drop_left]
  have hget : ∀ k, (prog :: (done ++ (skipped ++ tail)))[d.optind + k]? = (skipped ++ tail)[k]? := by
    intro k
    rw [← List.getElem?_drop,hdrop]
  have hnum : nonopts (skipped ++ tail) = skipped.length := by
    unfold nonopts
    rw [List.takeWhile_append_of_pos (fun a ha => by simp [hs a ha]),List.length_append]
    rcases ht with rfl | ⟨a,t,rfl,ha⟩
    · rfl
    · simp [ha]
  obtain ⟨a,ha,hnot⟩ : ∃ a, (prog :: (done ++ (skipped ++ tail)))[d.optind]? = some a ∧ a ≠ endMarker := by
    have h0 := hget 0
    rw [Nat.add_zero] at h0
    rw [h0]
    cases skipped with
    | nil =>
      cases tail with
      | nil => exact absurd rfl hne
      | cons a t => exact ⟨a,rfl,fun heq => hm rfl t (by rw [heq])⟩
    | cons a t =>
      refine ⟨a,rfl,?_⟩
      rintro rfl
      exact absurd (hs _ List.mem_cons_self) (by decide)
  have hnext : (prog :: (done ++ (skipped ++ tail)))[d.optind + skipped.length]? = tail.head? := by
    rw [hget,List.getElem?_append_right (Nat.le_refl _),Nat.sub_self,List.head?_eq_getElem?]
  have hlen : (prog :: done).length = d.optind := by simp [hi,Nat.add_comm]
  unfold getopt
  rw [if_neg (by omega)]
  simp only [ha]
  rw [if_neg hnot,hord]
  simp only [hw,if_true,hdrop,hnum,hnext]
  cases tail with
  | nil => rfl
  | cons a t =>
    simp only [List.head?_cons]
    by_cases hmark : a = endMarker
    · have hex := Blocks.exchange_eq (prog :: done) skipped [a] t
      simp only [hlen,List.length_cons,List.length_nil,List.cons_append,List.nil_append,Nat.zero_add] at hex
      rw [if_pos hmark,if_pos hmark]
      simp only [Option.some.injEq,Call.mk.injEq,true_and,and_true]
      exact hex
    · rw [if_neg hmark,if_neg hmark]

end

def Partitioned (schar : Bool) (shortopts : List UInt8) (prog : Arg) (done skipped rest : List Arg)
    (x : List Arg × Data) : Prop :=
  x.1 = prog :: (done ++ ((split schar shortopts false rest).1 ++ (skipped ++ (split schar shortopts false rest).2))) ∧
    x.1.drop x.2.optind = skipped ++ (split schar shortopts false rest).2

section

variable {shortopts : List UInt8} {prog : Arg} {done skipped rest : List Arg} {a : Arg} {x : List Arg × Data}

theorem split_length (schar : Bool) (shortopts : List UInt8) (taken : Bool) (rest : List Arg) :
    (split schar shortopts taken rest).1.length + (split schar shortopts taken rest).2.length = rest.length := by
  have h := (split_perm schar shortopts taken rest).length_eq
  rwa [List.length_append] at h

theorem split_none (h : (split schar shortopts false rest).1 = []) : (split schar shortopts false rest).2 = rest := by
  induction rest with
  | nil => rfl
  | cons a rest ih =>
    simp only [split] at h ⊢
    split_ifs at h ⊢
    rw [ih h]

theorem partitioned_operand (ha : isOption a = false) :
    Partitioned schar shortopts prog done skipped (a :: rest) x ↔
      Partitioned schar shortopts prog done (skipped ++ [a]) rest x := by
  have hm : a ≠ endMarker := by
    rintro rfl
    exact absurd ha (by decide)
  simp [Partitioned,split,hm,ha]

theorem partitioned_option (hm : a ≠ endMarker) (ha : isOption a = true)
    (ht : (ending schar shortopts rest.isEmpty a.tail).takes = false) :
    Partitioned schar shortopts prog done skipped (a :: rest) x ↔
      Partitioned schar shortopts prog (done ++ [a]) skipped rest x := by
  simp [Partitioned,split,hm,ha,ht]

theorem partitioned_pair {b : Arg} (hm : a ≠ endMarker) (ha : isOption a = true)
    (ht : (ending schar shortopts (b :: rest).isEmpty a.tail).takes = true) :
    Partitioned schar shortopts prog done skipped (a :: b :: rest) x ↔
      Partitioned schar shortopts prog (done ++ [a,b]) skipped rest x := by
  simp only [List.isEmpty_cons] at ht
  simp [Partitioned,split,hm,ha,ht]

theorem not_partitioned {t : List Arg} (hm : a ≠ endMarker) (ha : isOption a = true)
    (hs : ∀ b ∈ skipped, isOption b = false) (hne : skipped ≠ []) (hx : x.1 = prog :: (done ++ (skipped ++ t))) :
    ¬Partitioned schar shortopts prog done skipped (a :: rest) x := by
  obtain ⟨b,ss,rfl⟩ := List.exists_cons_of_ne_nil hne
  rintro ⟨heq,-⟩
  rw [hx] at heq
  simp only [split,hm,ha,if_true,if_false,List.cons_append,List.cons.injEq,true_and] at heq
  have hab := List.append_cancel_left heq
  rw [List.cons.injEq] at hab
  have hb := hs b List.mem_cons_self
  rw [hab.1,ha] at hb
  cases hb

theorem partitioned_end {t : List Arg} (ht : t = skipped ++ rest) (hx : x.1 = prog :: (done ++ t))
    (hi : x.2.optind = 1 + done.length) :
    Partitioned schar shortopts prog done skipped rest x ↔ (split schar shortopts false rest).1 = [] := by
  have hdrop : x.1.drop x.2.optind = t := by
    rw [hx,hi,Nat.add_comm,List.drop_succ_cons,List.drop_left]
  unfold Partitioned
  rw [hdrop,hx,ht]
  constructor
  · rintro ⟨-,h⟩
    have hlen := split_length schar shortopts false rest
    rw [← List.append_cancel_left h] at hlen
    exact List.length_eq_zero_iff.mp (by omega)
  · intro h
    rw [split_none h,h]
    exact ⟨rfl,rfl⟩

end

theorem getopt_none (hi : d.optind ≠ 0) (h : argv.length ≤ d.optind) :
    Ends schar optstring argv d (argv,d) := by
  refine ends_eof (r := ⟨eof,d,argv,[]⟩) ?_ rfl
  unfold getopt
  rw [if_neg hi]
  simp only [List.getElem?_eq_none h]

def Settles (schar : Bool) (optstring shortopts : List UInt8) (prog : Arg) (done skipped rest : List Arg)
    (d : Data) : Prop :=
  ∃ x, Ends schar optstring (prog :: (done ++ (skipped ++ rest))) d x ∧ (∃ t, x.1 = prog :: (done ++ t)) ∧
    (Partitioned schar shortopts prog done skipped rest x ↔
      orderly schar shortopts false (!skipped.isEmpty) rest = true)

section

variable {prog : Arg} {startsColon : Bool} {shortopts : List UInt8}
  (hord : defineOrdering false optstring = (.permute,optstring))
  (hcol : initialColon optstring = (startsColon,shortopts))

include hord hcol

omit hcol in
theorem settles_nil {done skipped : List Arg} (hs : ∀ a ∈ skipped, isOption a = false)
    (hi : d.optind = 1 + done.length) (hw : d.optwhere = 1) :
    Settles schar optstring shortopts prog done skipped [] d := by
  have hx : ∃ d', Ends schar optstring (prog :: (done ++ (skipped ++ []))) d
      (prog :: (done ++ (skipped ++ [])),d') ∧ d'.optind = 1 + done.length := by
    by_cases hne : skipped = []
    · refine ⟨d,getopt_none (by omega) ?_,hi⟩
      rw [hne,hi]
      simp [Nat.add_comm]
    · have hscan := getopt_scan schar prog hord hi hw hs [] (.inl rfl)
        (fun h => absurd h hne) (by simpa using hne)
      exact ⟨_,ends_eof hscan rfl,hi⟩
  obtain ⟨d',hends,hi'⟩ := hx
  refine ⟨_,hends,⟨_,rfl⟩,?_⟩
  rw [partitioned_end rfl rfl hi']
  simp [split,orderly]

omit hord hcol in
theorem settles_operand {done skipped rest : List Arg} {a : Arg} (ha : isOption a = false)
    (h : Settles schar optstring shortopts prog done (skipped ++ [a]) rest d) :
    Settles schar optstring shortopts prog done skipped (a :: rest) d := by
  obtain ⟨x,hends,hpre,hiff⟩ := h
  have hm : a ≠ endMarker := by
    rintro rfl
    exact absurd ha (by decide)
  have hseen : (!(skipped ++ [a]).isEmpty) = true := by cases skipped <;> rfl
  refine ⟨x,by simpa using hends,hpre,?_⟩
  rw [partitioned_operand ha,hiff,hseen]
  simp [orderly,hm,ha]

omit hcol in
theorem settles_marker {done skipped rest : List Arg} (hs : ∀ a ∈ skipped, isOption a = false)
    (hi : d.optind = 1 + done.length) (hw : d.optwhere = 1) :
    Settles schar optstring shortopts prog done skipped (endMarker :: rest) d := by
  have hx : ∃ d', Ends schar optstring (prog :: (done ++ (skipped ++ endMarker :: rest))) d
      (prog :: (done ++ (endMarker :: (skipped ++ rest))),d') ∧ d'.optind = 2 + done.length := by
    by_cases hne : skipped = []
    · subst hne
      refine ⟨{ d with optind := d.optind + 1 },ends_eof (r := ⟨eof,_,_,[]⟩) ?_ rfl,by dsimp only; omega⟩
      have hget : (prog :: (done ++ ([] ++ endMarker :: rest)))[d.optind]? = some endMarker := by
        rw [hi,Nat.add_comm,List.getElem?_cons_succ]
        simp
      unfold getopt
      rw [if_neg (by omega)]
      simp only [hget,if_true]
      rfl
    · have hscan := getopt_scan schar prog hord hi hw hs (endMarker :: rest)
        (.inr ⟨endMarker,rest,rfl,rfl⟩) (fun h => absurd h hne) (by simp)
      dsimp only at hscan
      rw [if_pos rfl] at hscan
      exact ⟨_,ends_eof hscan rfl,by dsimp only; omega⟩
  obtain ⟨d',hends,hi'⟩ := hx
  refine ⟨_,hends,⟨_,rfl⟩,?_⟩
  have hdrop : (prog :: (done ++ (endMarker :: (skipped ++ rest)))).drop d'.optind = skipped ++ rest := by
    rw [hi',show 2 + done.length = (done.length + 1) + 1 by omega,List.drop_succ_cons,
      show done ++ endMarker :: (skipped ++ rest) = (done ++ [endMarker]) ++ (skipped ++ rest) by simp,
      show done.length + 1 = (done ++ [endMarker]).length by simp,List.drop_left]
  simp [Partitioned,split,orderly,hdrop]

theorem settles_option {done skipped rest : List Arg} {a : Arg} (hm : a ≠ endMarker) (ha : isOption a = true)
    (hz : 0 ∉ a) (hdash : a ≠ [dash]) (hs : ∀ a ∈ skipped, isOption a = false)
    (hi : d.optind = 1 + done.length) (hw : d.optwhere = 1)
    (ih : ∀ k done' skipped' d', (∀ a ∈ skipped', isOption a = false) → d'.optind = 1 + done'.length →
      d'.optwhere = 1 → Settles schar optstring shortopts prog done' skipped' (rest.drop k) d') :
    Settles schar optstring shortopts prog done skipped (a :: rest) d := by
  obtain ⟨c,chars,rfl⟩ := List.exists_cons_of_ne_nil (show a ≠ [] by rintro rfl; cases ha)
  obtain rfl : c = dash := by simpa [isOption] using ha
  have hne : chars ≠ [] := by
    rintro rfl
    exact hdash rfl
  have hscan := getopt_scan schar prog hord hi hw hs ((dash :: chars) :: rest)
    (.inr ⟨_,rest,rfl,ha⟩) (fun _ t heq => hm (List.cons.inj heq).1) (by simp)
  dsimp only at hscan
  rw [if_neg hm,hcol] at hscan
  have hat : At { d with permuteFrom := d.optind, numNonopts := skipped.length, optind := d.optind + skipped.length }
    done skipped [dash].length := ⟨by dsimp only; rw [hi],hi,rfl,hw⟩
  have hout := (parseOption_cluster schar prog rest hord hcol hm chars [dash] rfl (by simp) hne
    (fun h0 => hz (List.mem_cons_of_mem _ h0)) hat).imp (fun x hx => after_ends (by rw [hscan]; exact hx))
  clear hscan hat
  have hord' : orderly schar shortopts false (!skipped.isEmpty) ((dash :: chars) :: rest) =
      match ending schar shortopts rest.isEmpty chars with
      | .plain => orderly schar shortopts false (!skipped.isEmpty) rest
      | .takesNext => orderly schar shortopts true (!skipped.isEmpty) rest
      | .unknown => !(!skipped.isEmpty) && orderly schar shortopts false false rest
      | .missing => !(!skipped.isEmpty)
      | .cut => false
      | .stops next => (split schar shortopts false (if next then rest.tail else rest)).1 = [] := by
    rw [orderly,if_neg hm,if_pos ha]
    rfl
  unfold Settles
  rw [hord']
  cases hend : ending schar shortopts rest.isEmpty chars with
  | plain =>
    rw [hend] at hout
    obtain ⟨d1,hw1,hi1,hrun⟩ := hout
    obtain ⟨x,hx,⟨t,ht⟩,hiff⟩ := ih 0 (done ++ [dash :: chars]) skipped d1 hs (by simp; omega) hw1
    rw [List.drop_zero] at hx hiff
    refine ⟨x,hrun x (by simpa using hx),⟨_,by rw [ht]; simp; rfl⟩,?_⟩
    rw [partitioned_option hm ha (by rw [List.tail_cons,hend]; rfl),hiff]
  | takesNext =>
    rw [hend] at hout
    obtain ⟨b,rest',d1,rfl,hw1,hi1,hrun⟩ := hout
    obtain ⟨x,hx,⟨t,ht⟩,hiff⟩ := ih 1 (done ++ [dash :: chars,b]) skipped d1 hs (by simp; omega) hw1
    rw [List.drop_one,List.tail_cons] at hx hiff
    refine ⟨x,hrun x (by simpa using hx),⟨_,by rw [ht]; simp; rfl⟩,?_⟩
    rw [partitioned_pair hm ha (by rw [List.tail_cons,hend]; rfl),hiff]
    rfl
  | unknown =>
    rw [hend] at hout
    obtain ⟨d1,hw1,hi1,hrun⟩ := hout
    by_cases hskip : skipped = []
    · subst hskip
      obtain ⟨x,hx,⟨t,ht⟩,hiff⟩ := ih 0 (done ++ [dash :: chars]) [] d1 hs (by simp at hi1 ⊢; omega) hw1
      rw [List.drop_zero] at hx hiff
      refine ⟨x,hrun x (by simpa using hx),⟨_,by rw [ht]; simp; rfl⟩,?_⟩
      rw [partitioned_option hm ha (by rw [List.tail_cons,hend]; rfl),hiff]
      simp
    · obtain ⟨x,hx,⟨t,ht⟩,-⟩ := ih 0 (done ++ (skipped ++ [dash :: chars])) [] d1 (by simp)
        (by simp; omega) hw1
      rw [List.drop_zero] at hx
      refine ⟨x,hrun x (by simpa using hx),⟨_,by rw [ht]; simp; rfl⟩,?_⟩
      refine iff_of_false (not_partitioned (t := (dash :: chars) :: t) hm ha hs hskip (by rw [ht]; simp)) ?_
      simp [hskip]
  | missing =>
    rw [hend] at hout
    obtain ⟨d1,rfl,hi1,hrun⟩ := hout
    refine ⟨_,hrun _ (getopt_none (by omega) (by rw [hi1]; simp; omega)),⟨_,rfl⟩,?_⟩
    by_cases hskip : skipped = []
    · subst hskip
      simp [Partitioned,split,hm,ha,hi1]
      omega
    · refine iff_of_false (not_partitioned hm ha hs hskip rfl) ?_
      simp [hskip]
  | cut =>
    rw [hend] at hout
    obtain ⟨d1,hi1,hrun⟩ := hout
    refine ⟨_,hrun,⟨_,rfl⟩,iff_of_false ?_ Bool.false_ne_true⟩
    by_cases hskip : skipped = []
    · subst hskip
      rintro ⟨-,hdrop⟩
      have hlen := congrArg List.length hdrop
      have hsum := split_length schar shortopts false rest
      simp [split,hm,ha,hend,Ending.takes,hi1] at hlen
      omega
    · exact not_partitioned hm ha hs hskip rfl
  | stops next =>
    cases next with
    | false =>
      rw [hend] at hout
      obtain ⟨d1,hi1,hrun⟩ := hout
      refine ⟨_,hrun,⟨_,rfl⟩,?_⟩
      rw [partitioned_option hm ha (by rw [List.tail_cons,hend]; rfl),
        partitioned_end (t := skipped ++ rest) rfl (by simp) (by simp; omega)]
      simp
    | true =>
      rw [hend] at hout
      obtain ⟨b,rest',d1,rfl,hi1,hrun⟩ := hout
      refine ⟨_,hrun,⟨_,rfl⟩,?_⟩
      rw [partitioned_pair hm ha (by rw [List.tail_cons,hend]; rfl),
        partitioned_end (t := skipped ++ rest') rfl (by simp) (by simp; omega)]
      simp

theorem run_partitions (n : Nat) {rest : List Arg} (hn : rest.length ≤ n) (hz : ∀ a ∈ rest, 0 ∉ a)
    (hdash : ∀ a ∈ rest, a ≠ [dash]) {done skipped : List Arg} (hs : ∀ a ∈ skipped, isOption a = false) {d : Data}
    (hi : d.optind = 1 + done.length) (hw : d.optwhere = 1) :
    Settles schar optstring shortopts prog done skipped rest d := by
  induction n generalizing rest done skipped d with
  | zero =>
    obtain rfl := List.length_eq_zero_iff.mp (Nat.le_zero.mp hn)
    exact settles_nil hord hs hi hw
  | succ n ih =>
    cases rest with
    | nil => exact settles_nil hord hs hi hw
    | cons a rest =>
      rw [List.length_cons] at hn
      have hz' := fun b hb => hz b (List.mem_cons_of_mem a hb)
      have hdash' := fun b hb => hdash b (List.mem_cons_of_mem a hb)
      cases ha : isOption a with
      | false =>
        refine settles_operand ha (ih (by omega) hz' hdash' ?_ hi hw)
        intro b hb
        rcases List.mem_append.mp hb with hb | hb
        · exact hs b hb
        · rw [List.mem_singleton.mp hb]
          exact ha
      | true =>
        by_cases hm : a = endMarker
        · rw [hm]
          exact settles_marker hord hs hi hw
        · refine settles_option hord hcol hm ha (hz a List.mem_cons_self) (hdash a List.mem_cons_self) hs hi hw ?_
          intro k done' skipped' d' hs' hi' hw'
          refine ih ?_ (fun b hb => hz' b (List.mem_of_mem_drop hb)) (fun b hb => hdash' b (List.mem_of_mem_drop hb))
            hs' hi' hw'
          rw [List.length_drop]
          omega

end

def Partitions (schar : Bool) (optstring : List UInt8) (argv : List Arg) (d : Data) : Prop :=
  ∃ argv' d', (∃ n, ∀ m, n ≤ m → getoptRun schar false optstring m argv d = some (argv',d')) ∧
    let parts := split schar (initialColon optstring).2 false argv.tail
    argv'.length = argv.length ∧ argv'.head? = argv.head? ∧ argv'.tail.Perm argv.tail ∧
      argv'.tail = parts.1 ++ parts.2 ∧ argv'.drop d'.optind = parts.2

def Data.reset (d : Data) : Data := { d with optind := 1, optwhere := 1, permuteFrom := 0, numNonopts := 0 }

theorem getoptRun_reset (hd : d.optind = 0) (m : Nat) :
    getoptRun schar false optstring m argv d = getoptRun schar false optstring m argv d.reset := by
  have hcall : getopt schar false optstring argv d = getopt schar false optstring argv d.reset := by
    unfold getopt
    rw [if_pos hd,if_neg (show d.reset.optind ≠ 0 from Nat.one_ne_zero)]
    rfl
  cases m with
  | zero => rfl
  | succ m => rw [getoptRun,getoptRun,hcall]

theorem ends_unique {x y : List Arg × Data} (hx : Ends schar optstring argv d x)
    (hy : Ends schar optstring argv d y) : x = y := by
  obtain ⟨n,hn⟩ := hx
  obtain ⟨m,hm⟩ := hy
  exact Option.some.inj ((hn (max n m) (le_max_left n m)).symm.trans (hm (max n m) (le_max_right n m)))

theorem getopt_partitions_iff (schar : Bool) {optstring : List UInt8} (hplus : optstring.getD 0 0 ≠ plus)
    (hminus : optstring.getD 0 0 ≠ dash) {argv : List Arg} (hz : ∀ a ∈ argv.tail, 0 ∉ a)
    (hdash : ∀ a ∈ argv.tail, a ≠ [dash]) {d : Data} (hd : d.optind = 0) :
    Partitions schar optstring argv d ↔
      orderly schar (initialColon optstring).2 false false argv.tail = true := by
  have hord : defineOrdering false optstring = (.permute,optstring) := by
    rw [defineOrdering,if_neg hminus,if_neg hplus]
    rfl
  unfold Partitions
  simp only [getoptRun_reset hd]
  cases argv with
  | nil =>
    refine iff_of_true ⟨[],d.reset,getopt_none Nat.one_ne_zero (by simp),rfl,rfl,.nil,rfl,by simp [split]⟩ rfl
  | cons prog args =>
    have hcol : initialColon optstring = ((initialColon optstring).1,(initialColon optstring).2) := rfl
    have hset : Settles schar optstring (initialColon optstring).2 prog [] [] args d.reset :=
      run_partitions hord hcol args.length (Nat.le_refl _) hz hdash (by simp) rfl rfl
    obtain ⟨x,hends,-,hiff⟩ := hset
    have hiff' : Partitioned schar (initialColon optstring).2 prog [] [] args x ↔
      orderly schar (initialColon optstring).2 false false args = true := hiff
    rw [List.tail_cons,← hiff']
    simp only [List.nil_append] at hends
    constructor
    · rintro ⟨argv',d',hrun,-,hhead,-,htail,hdrop⟩
      obtain rfl := ends_unique hends hrun
      refine ⟨?_,hdrop⟩
      cases argv' with
      | nil => cases hhead
      | cons p args' =>
        cases hhead
        exact congrArg (List.cons _) htail
    · rintro ⟨heq,hdrop⟩
      simp only [List.nil_append] at heq hdrop
      refine ⟨x.1,x.2,hends,?_,?_,?_,?_,hdrop⟩
      · rw [heq,List.length_cons,List.length_append,split_length,List.length_cons]
      · rw [heq]
        rfl
      · rw [heq]
        exact split_perm _ _ _ _
      · rw [heq]
        rfl

def fresh : Data := ⟨none,0,true,0x3f,1,0,0⟩

theorem getopt_partitions_sorted :
    orderly true [0x61,0x3a] false false [[0x66],[0x2d,0x61],[0x78],[0x67]] = true ∧
      Partitions true [0x61,0x3a] [[0x70],[0x66],[0x2d,0x61],[0x78],[0x67]] fresh := by
  refine ⟨by decide,(getopt_partitions_iff true (by decide) (by decide) (by decide) (by decide) rfl).mpr (by decide)⟩

theorem getopt_loses_operand : ¬Partitions true [0x61] [[0x70],[0x66],[0x2d,0x78],[0x67]] fresh := by
  rintro ⟨argv',d',⟨n,hn⟩,-,-,-,-,hdrop⟩
  have hrun : ∀ m, getoptRun true false [0x61] (m + 2) [[0x70],[0x66],[0x2d,0x78],[0x67]] fresh =
      some ([[0x70],[0x66],[0x2d,0x78],[0x67]],⟨none,3,true,0x3f,1,3,1⟩) := fun m => by rfl
  have heq := Option.some.inj ((hrun n).symm.trans (hn (n + 2) (by omega)))
  cases heq
  exact absurd hdrop (by decide)

end Getopt
