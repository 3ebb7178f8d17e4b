import Mathlib
import Picolibc.Search.Tdelete

namespace Tsearch

open LinkedTree Comparison

variable {K : Type}

inductive Op (K : Type) where
  | tsearch (vkey : K)
  | tfind (vkey : K)
  | tdelete (vkey : K)

abbrev History (K : Type) := List (Op K × Option Nat)

structure Session (K : Type) where
  tree : State K
  history : History K

def start : Session K := ⟨⟨none,fun _ => none⟩,[]⟩

def call (compar : K → K → Int) (fuel : Nat) (malloc : Option Nat) (s : State K) : Op K → Option (State K × Option Nat)
  | .tsearch vkey => tsearch compar fuel malloc vkey (some .root) s
  | .tfind vkey => (tfind compar fuel vkey (some .root) s).map fun r => (s,r)
  | .tdelete vkey => tdelete compar fuel vkey (some .root) s

def step (compar : K → K → Int) (malloc : Nodes K → Nat → Option Nat) (fuel : Nat) (s : Session K) (op : Op K) :
    Option (Session K × Option Nat) :=
  (call compar fuel (malloc s.tree.nodes s.history.length) s.tree op).map fun r => (⟨r.1,(op,r.2) :: s.history⟩,r.2)

def Fresh (malloc : Nodes K → Nat → Option Nat) : Prop := ∀ nodes i p, malloc nodes i = some p → nodes p = none

def Live (compar : K → K → Int) : History K → K → Nat → Prop
  | [], _, _ => False
  | (.tsearch vkey,r) :: h, k, p => Live compar h k p ∨ (compar k vkey = 0 ∧ r = some p)
  | (.tfind _,_) :: h, k, p => Live compar h k p
  | (.tdelete vkey,_) :: h, k, p => compar k vkey ≠ 0 ∧ Live compar h k p

structure Shape (compar : K → K → Int) (s : State K) (t : BinTree K) : Prop where
  holds : Holds s t
  once : t.addrs.Nodup
  all : ∀ p, s.nodes p ≠ none → p ∈ t.addrs
  sorted : Sorted compar t.inorder

def Tracks (compar : K → K → Int) (h : History K) (t : BinTree K) : Prop :=
  ∀ k p, Live compar h k p ↔ ∃ e ∈ t.inorder, e.1 = p ∧ compar k e.2 = 0

def Answers (compar : K → K → Int) (h : History K) (malloc : Option Nat) (r : Option Nat) : Op K → Prop
  | .tsearch vkey => (∀ p, Live compar h vkey p → r = some p) ∧ ((∀ p, ¬Live compar h vkey p) → r = malloc)
  | .tfind vkey => ∀ p, r = some p ↔ Live compar h vkey p
  | .tdelete vkey => r = none ↔ ∀ p, ¬Live compar h vkey p

inductive Edit (compar : K → K → Int) (malloc : Option Nat) :
    Op K → Option Nat → List (Nat × K) → List (Nat × K) → Prop where
  | found {vkey : K} {es : List (Nat × K)} {e : Nat × K} (mem : e ∈ es) (same : compar vkey e.2 = 0) :
    Edit compar malloc (.tsearch vkey) (some e.1) es es
  | inserted {vkey : K} {p : Nat} {low high : List (Nat × K)} (new : malloc = some p)
    (absent : ∀ e ∈ low ++ high, compar vkey e.2 ≠ 0) :
    Edit compar malloc (.tsearch vkey) (some p) (low ++ high) (low ++ (p,vkey) :: high)
  | failed {vkey : K} {es : List (Nat × K)} (full : malloc = none) (absent : ∀ e ∈ es, compar vkey e.2 ≠ 0) :
    Edit compar malloc (.tsearch vkey) none es es
  | located {vkey : K} {es : List (Nat × K)} {e : Nat × K} (mem : e ∈ es) (same : compar vkey e.2 = 0) :
    Edit compar malloc (.tfind vkey) (some e.1) es es
  | missed {vkey : K} {es : List (Nat × K)} (absent : ∀ e ∈ es, compar vkey e.2 ≠ 0) :
    Edit compar malloc (.tfind vkey) none es es
  | removed {vkey : K} {p : Nat} {e : Nat × K} {low high : List (Nat × K)} (same : compar vkey e.2 = 0) :
    Edit compar malloc (.tdelete vkey) (some p) (low ++ e :: high) (low ++ high)
  | kept {vkey : K} {es : List (Nat × K)} (absent : ∀ e ∈ es, compar vkey e.2 ≠ 0) :
    Edit compar malloc (.tdelete vkey) none es es

structure Implements (compar : K → K → Int) (malloc : Nodes K → Nat → Option Nat) (s : Session K) (op : Op K)
    (s' : Session K) (r : Option Nat) : Prop where
  answers : Answers compar s.history (malloc s.tree.nodes s.history.length) r op
  edit : ∃ t t', Shape compar s.tree t ∧ Shape compar s'.tree t' ∧ Tracks compar s'.history t' ∧
    Edit compar (malloc s.tree.nodes s.history.length) op r t.inorder t'.inorder
  failed : (∀ vkey, op ≠ .tdelete vkey) → (∀ p, r = some p → s.tree.nodes p ≠ none) → s'.tree = s.tree

section

variable {compar : K → K → Int} {malloc : Option Nat} {vkey : K} {s : State K} {t : BinTree K} {fuel : Nat}

theorem absent_between (hc : TotalPreorder compar) {fs : List (Frame K)} (hb : Between compar vkey fs) :
    ∀ e ∈ (plug fs (.leaf : BinTree K)).inorder, compar vkey e.2 ≠ 0 := by
  intro e he hz
  rw [inorder_plug,BinTree.inorder,List.append_nil,List.mem_append] at he
  rcases he with he | he
  · have hlow := (hc.flip _ _).mp (hb.low e he)
    omega
  · have hhigh := hb.high e he
    omega

theorem between_root : Between compar vkey ([] : List (Frame K)) := ⟨fun _ h => absurd h (by simp [before]),fun _ h => absurd h (by simp [after])⟩

theorem search_root (hc : TotalPreorder compar) (h : Shape compar s t) (hf : t.inorder.length < fuel) :
    ∃ fs t', Reaches compar vkey t t' fs ∧ search compar vkey s fuel .root = some (linkOf fs,t'.root) :=
  @search_reaches _ _ _ _ [] _ hc h.holds h.sorted between_root _ hf

theorem sorted_insert {fs : List (Frame K)} (hb : Between compar vkey fs) {p : Nat}
    (hs : Sorted compar (before fs ++ after fs)) : Sorted compar (before fs ++ (p,vkey) :: after fs) := by
  obtain ⟨hlow,hhigh,hacross⟩ := List.pairwise_append.mp hs
  refine List.pairwise_append.mpr ⟨hlow,List.pairwise_cons.mpr ⟨hb.high,hhigh⟩,fun a ha b hb' => ?_⟩
  rcases List.mem_cons.mp hb' with rfl | hb'
  · exact hb.low a ha
  · exact hacross a ha b hb'

theorem insert_holds {fs : List (Frame K)} {p : Nat} (h : Holds s (plug fs .leaf)) (hn : (plug fs (.leaf : BinTree K)).addrs.Nodup)
    (hp : s.nodes p = none) :
    ∃ s', s.set (some p) (linkOf fs) = some s' ∧ Holds (s'.put p ⟨vkey,none,none⟩) (plug fs (.node p vkey .leaf .leaf)) ∧
      ∀ q, s'.nodes q ≠ none → q ∈ aroundAddrs fs ∨ s.nodes q ≠ none := by
  obtain ⟨haround,-⟩ := holds_plug.mp h
  obtain ⟨s',hset,haround',hsame⟩ := set_hole haround ((nodup_plug _ _).mp hn).1 (some p)
  have hpfs : p ∉ aroundAddrs fs := by
    intro hm
    exact rep_alive h.rep ((addrs_plug fs _).mem_iff.mpr (List.mem_append_left _ hm)) hp
  refine ⟨s',hset,holds_plug.mpr ⟨around_put haround' hpfs,put_same _ _ _,trivial,trivial⟩,fun q hq => ?_⟩
  by_cases hm : q ∈ aroundAddrs fs
  · exact Or.inl hm
  · exact Or.inr (by rwa [hsame q hm] at hq)

theorem tsearch_edits (hc : TotalPreorder compar) (h : Shape compar s t) (hm : ∀ p, malloc = some p → s.nodes p = none)
    (hf : t.inorder.length < fuel) :
    ∃ s' r t', tsearch compar fuel malloc vkey (some .root) s = some (s',r) ∧ Shape compar s' t' ∧
      Edit compar malloc (.tsearch vkey) r t.inorder t'.inorder ∧ ((∀ p, r = some p → s.nodes p ≠ none) → s' = s) := by
  obtain ⟨fs,u,hreach,hrun⟩ := @search_root _ _ vkey _ _ _ hc h hf
  obtain ⟨rfl,hhere,hb⟩ := hreach
  rcases hhere with rfl | ⟨p,k,l,r,rfl,hzero⟩
  · have habsent := absent_between hc hb
    cases malloc with
    | none => exact ⟨s,none,_,by simp [tsearch,hrun,BinTree.root],h,.failed rfl habsent,fun _ => rfl⟩
    | some p =>
      have hp := hm p rfl
      obtain ⟨s',hset,hholds,hall⟩ := @insert_holds _ vkey _ _ _ h.holds h.once hp
      have hplain : (plug fs (.leaf : BinTree K)).inorder = before fs ++ after fs := by simp [inorder_plug,BinTree.inorder]
      have hnew : (plug fs (.node p vkey .leaf .leaf)).inorder = before fs ++ (p,vkey) :: after fs := by
        simp [inorder_plug,BinTree.inorder]
      have hperm : (plug fs (.node p vkey .leaf .leaf)).addrs.Perm (p :: (plug fs (.leaf : BinTree K)).addrs) := by
        rw [BinTree.addrs,BinTree.addrs,hnew,hplain]
        exact (List.perm_middle : (before fs ++ (p,vkey) :: after fs).Perm _).map Prod.fst
      have hpt : p ∉ (plug fs (.leaf : BinTree K)).addrs := fun hin => rep_alive h.holds.rep hin hp
      refine ⟨_,_,_,by simp [tsearch,hrun,BinTree.root,hset],⟨hholds,?_,fun q hq => ?_,?_⟩,?_,fun hold => absurd hp (hold p rfl)⟩
      · exact hperm.nodup_iff.mpr (List.nodup_cons.mpr ⟨hpt,h.once⟩)
      · rw [hperm.mem_iff,List.mem_cons]
        by_cases he : q = p
        · exact Or.inl he
        · rw [put_other _ he] at hq
          refine Or.inr ((hall q hq).elim (fun hin => ?_) (h.all q))
          exact (addrs_plug fs _).mem_iff.mpr (List.mem_append_left _ hin)
      · rw [hnew]
        exact sorted_insert hb (hplain ▸ h.sorted)
      · rw [hplain] at habsent ⊢
        rw [hnew]
        exact .inserted rfl habsent
  · refine ⟨s,some p,_,by simp [tsearch,hrun,BinTree.root],h,?_,fun _ => rfl⟩
    exact .found (e := (p,k)) (by simp [inorder_plug,BinTree.inorder]) hzero

theorem tfind_edits (hc : TotalPreorder compar) (h : Shape compar s t) (hf : t.inorder.length < fuel) :
    ∃ r, tfind compar fuel vkey (some .root) s = some r ∧ Edit compar malloc (.tfind vkey) r t.inorder t.inorder ∧
      ∀ p, r = some p → s.nodes p ≠ none := by
  obtain ⟨fs,u,hreach,hrun⟩ := @search_root _ _ vkey _ _ _ hc h hf
  obtain ⟨rfl,hhere,hb⟩ := hreach
  rcases hhere with rfl | ⟨p,k,l,r,rfl,hzero⟩
  · exact ⟨none,by simp [tfind,hrun,BinTree.root],.missed (absent_between hc hb),fun p hp => absurd hp (by simp)⟩
  · have hmem : (p,k) ∈ (plug fs (.node p k l r)).inorder := by simp [inorder_plug,BinTree.inorder]
    refine ⟨some p,by simp [tfind,hrun,BinTree.root],.located (e := (p,k)) hmem hzero,fun q hq => ?_⟩
    obtain rfl := Option.some.inj hq
    exact rep_alive h.holds.rep (List.mem_map_of_mem (f := Prod.fst) hmem)

theorem tdelete_edits (hc : TotalPreorder compar) (h : Shape compar s t) (hf : t.inorder.length < fuel) :
    ∃ s' r t', tdelete compar fuel vkey (some .root) s = some (s',r) ∧ Shape compar s' t' ∧
      Edit compar malloc (.tdelete vkey) r t.inorder t'.inorder := by
  by_cases ht : t = .leaf
  · subst ht
    have hroot : s.get .root = some none := congrArg some h.holds.root
    exact ⟨s,none,.leaf,by simp [tdelete,hroot],h,.kept (fun e he => absurd he (by simp [BinTree.inorder]))⟩
  · have hroot : s.get .root = some t.root := congrArg some h.holds.root
    obtain ⟨p₀,hp₀⟩ : ∃ p, t.root = some p := by
      cases t with
      | leaf => exact absurd rfl ht
      | node p k l r => exact ⟨p,rfl⟩
    obtain ⟨fs,u,p',hreach,hrun⟩ :=
      @descend_reaches _ _ vkey _ [] _ hc h.holds h.sorted between_root ht _ hf p₀
    have hstart : tdelete compar fuel vkey (some .root) s = (descend compar vkey s fuel .root p₀).bind fun d =>
        d.elim (some (s,none)) fun d => (unlink fuel d.1 s).bind fun s => some (s,some d.2) := by
      simp only [tdelete,hroot,hp₀,Option.bind_eq_bind,Option.bind_some]
      refine congrArg _ ?_
      funext d
      cases d <;> rfl
    rw [hstart]
    simp only [linkOf] at hrun
    rw [hrun]
    obtain ⟨heq,hhere,hb⟩ := hreach
    rw [plug] at heq
    subst heq
    rcases hhere with rfl | ⟨x,k,l,r,rfl,hzero⟩
    · exact ⟨s,none,_,rfl,h,.kept (absent_between hc hb)⟩
    · have hsplit : (plug fs (.node x k l r)).inorder = (before fs ++ l.inorder) ++ (x,k) :: (r.inorder ++ after fs) := by
        simp [inorder_plug,BinTree.inorder]
      have hjoin : (plug fs (join l r)).inorder = (before fs ++ l.inorder) ++ (r.inorder ++ after fs) := by
        simp [inorder_plug,inorder_join]
      have hlen : r.inorder.length < fuel := by
        rw [hsplit] at hf
        simp only [List.length_append,List.length_cons] at hf
        omega
      obtain ⟨s',hunlink,hholds,hall⟩ := unlink_joins h.holds h.once hlen
      have hperm : (plug fs (.node x k l r)).addrs.Perm (x :: (plug fs (join l r)).addrs) := by
        rw [BinTree.addrs,BinTree.addrs,hsplit,hjoin]
        exact List.perm_middle.map Prod.fst
      refine ⟨s',some p',plug fs (join l r),?_,⟨hholds,?_,fun q hq => ?_,?_⟩,?_⟩
      · change (unlink fuel (linkOf fs) s).bind _ = _
        rw [hunlink]
        rfl
      · exact (List.nodup_cons.mp (hperm.nodup_iff.mp h.once)).2
      · obtain ⟨halive,hne⟩ := hall q hq
        exact (List.mem_cons.mp (hperm.mem_iff.mp (h.all q halive))).resolve_left hne
      · rw [hjoin]
        exact (hsplit ▸ h.sorted).sublist ((List.Sublist.refl _).append (List.sublist_cons_self _ _))
      · rw [hsplit,hjoin]
        exact .removed hzero

theorem tracks_edit (hc : TotalPreorder compar) {op : Op K} {r : Option Nat} {h : History K} {es es' : List (Nat × K)}
    (he : Edit compar malloc op r es es') (hs : Sorted compar es)
    (ht : ∀ k p, Live compar h k p ↔ ∃ e ∈ es, e.1 = p ∧ compar k e.2 = 0) :
    ∀ k p, Live compar ((op,r) :: h) k p ↔ ∃ e ∈ es', e.1 = p ∧ compar k e.2 = 0 := by
  intro k p
  cases he with
  | @found vkey es e mem same =>
    rw [Live,ht]
    refine or_iff_left_of_imp fun hnew => ⟨e,mem,Option.some.inj hnew.2,zero_trans hc hnew.1 same⟩
  | @inserted vkey q low high new absent =>
    rw [Live,ht]
    simp only [List.mem_append,List.mem_cons,Option.some.injEq]
    constructor
    · rintro (⟨e,hmem,heq⟩ | ⟨hk,rfl⟩)
      · exact ⟨e,hmem.imp id Or.inr,heq⟩
      · exact ⟨(q,vkey),Or.inr (Or.inl rfl),rfl,hk⟩
    · rintro ⟨e,hmem | rfl | hmem,heq⟩
      · exact Or.inl ⟨e,Or.inl hmem,heq⟩
      · exact Or.inr ⟨heq.2,heq.1⟩
      · exact Or.inl ⟨e,Or.inr hmem,heq⟩
  | failed => simp [Live,ht]
  | located => exact ht k p
  | missed => exact ht k p
  | @removed vkey q e low high same =>
    rw [Live,ht]
    obtain ⟨hlow,hrest,hacross⟩ := List.pairwise_append.mp hs
    have hhigh := (List.pairwise_cons.mp hrest).1
    have hapart : ∀ e' ∈ low ++ high, compar k e'.2 = 0 → compar k vkey ≠ 0 := by
      intro e' hmem hk' hk
      have heq : compar e'.2 e.2 = 0 := zero_trans hc ((zero_comm hc).mp hk') (zero_trans hc hk same)
      rcases List.mem_append.mp hmem with hmem | hmem
      · have hlt := hacross e' hmem e (by simp)
        omega
      · have hlt := hhigh e' hmem
        rw [zero_comm hc] at heq
        omega
    constructor
    · rintro ⟨hne,e',hmem,hp,hk⟩
      refine ⟨e',?_,hp,hk⟩
      rcases List.mem_append.mp hmem with hmem | hmem
      · exact List.mem_append_left _ hmem
      · rcases List.mem_cons.mp hmem with rfl | hmem
        · exact absurd (zero_trans hc hk ((zero_comm hc).mp same)) hne
        · exact List.mem_append_right _ hmem
    · rintro ⟨e',hmem,hp,hk⟩
      refine ⟨hapart e' hmem hk,e',?_,hp,hk⟩
      rcases List.mem_append.mp hmem with hmem | hmem
      · exact List.mem_append_left _ hmem
      · exact List.mem_append_right _ (List.mem_cons_of_mem _ hmem)
  | @kept vkey es absent =>
    rw [Live,ht]
    refine and_iff_right_of_imp fun ⟨e,hmem,hp,hk⟩ hv => ?_
    exact absent e hmem (zero_trans hc ((zero_comm hc).mp hv) hk)

theorem answers_edit (hc : TotalPreorder compar) {op : Op K} {r : Option Nat} {h : History K} {es es' : List (Nat × K)}
    (he : Edit compar malloc op r es es') (hs : Sorted compar es)
    (ht : ∀ k p, Live compar h k p ↔ ∃ e ∈ es, e.1 = p ∧ compar k e.2 = 0) : Answers compar h malloc r op := by
  have hdead : ∀ {k : K}, (∀ e ∈ es, compar k e.2 ≠ 0) → ∀ p, ¬Live compar h k p := by
    intro k habsent p hl
    obtain ⟨e,hmem,-,hk⟩ := (ht k p).mp hl
    exact habsent e hmem hk
  have hone : ∀ {k : K} {e : Nat × K}, e ∈ es → compar k e.2 = 0 → ∀ p, Live compar h k p ↔ e.1 = p := by
    intro k e hmem hk p
    rw [ht]
    refine ⟨fun ⟨e',hmem',hp,hk'⟩ => ?_,fun hp => ⟨e,hmem,hp,hk⟩⟩
    have heq : compar e.2 e'.2 = 0 := zero_trans hc ((zero_comm hc).mp hk) hk'
    by_contra hne
    have hapart : ∀ a ∈ es, ∀ b ∈ es, a ≠ b → compar a.2 b.2 ≠ 0 := by
      have hsym : Std.Symm (fun a b : Nat × K => compar a.2 b.2 ≠ 0) := ⟨fun a b hab hba => hab ((zero_comm hc).mp hba)⟩
      have hpair : es.Pairwise (fun a b => compar a.2 b.2 ≠ 0) := hs.imp fun hlt => by omega
      exact fun a ha b hb hab => hpair.forall ha hb hab
    exact hapart e hmem e' hmem' (fun he' => hne (he' ▸ hp)) heq
  cases he with
  | @found vkey es e mem same =>
    have hlive := hone mem same
    exact ⟨fun p hp => congrArg some ((hlive p).mp hp),fun hno => absurd ((hlive e.1).mpr rfl) (hno e.1)⟩
  | @inserted vkey q low high new absent => exact ⟨fun p hp => absurd hp (hdead absent p),fun _ => new.symm⟩
  | @failed vkey es full absent => exact ⟨fun p hp => absurd hp (hdead absent p),fun _ => full.symm⟩
  | @located vkey es e mem same => exact fun p => by rw [hone mem same p,Option.some.injEq]
  | @missed vkey es absent => exact fun p => ⟨fun hp => absurd hp (by simp),fun hp => absurd hp (hdead absent p)⟩
  | @removed vkey q e low high same =>
    exact ⟨fun hp => absurd hp (by simp),fun hno => absurd ((hone (by simp) same e.1).mpr rfl) (hno e.1)⟩
  | @kept vkey es absent => exact ⟨fun _ => hdead absent,fun _ => rfl⟩

theorem call_edits (hc : TotalPreorder compar) (h : Shape compar s t) (hm : ∀ p, malloc = some p → s.nodes p = none)
    (hf : t.inorder.length < fuel) (op : Op K) :
    ∃ s' r t', call compar fuel malloc s op = some (s',r) ∧ Shape compar s' t' ∧ Edit compar malloc op r t.inorder t'.inorder ∧
      ((∀ vkey, op ≠ .tdelete vkey) → (∀ p, r = some p → s.nodes p ≠ none) → s' = s) := by
  cases op with
  | tsearch vkey =>
    obtain ⟨s',r,t',hrun,hs,he,hsame⟩ := @tsearch_edits _ _ _ vkey _ _ _ hc h hm hf
    exact ⟨s',r,t',hrun,hs,he,fun _ => hsame⟩
  | tfind vkey =>
    obtain ⟨r,hrun,he,-⟩ := @tfind_edits _ _ malloc vkey _ _ _ hc h hf
    exact ⟨s,r,t,by rw [call,hrun]; rfl,h,he,fun _ _ => rfl⟩
  | tdelete vkey =>
    obtain ⟨s',r,t',hrun,hs,he⟩ := @tdelete_edits _ _ malloc vkey _ _ _ hc h hf
    exact ⟨s',r,t',hrun,hs,he,fun hno => absurd rfl (hno vkey)⟩

theorem edit_length {op : Op K} {r : Option Nat} {es es' : List (Nat × K)} (he : Edit compar malloc op r es es') :
    es'.length ≤ es.length + 1 := by
  cases he <;> simp <;> omega

end

section

variable {compar : K → K → Int} {malloc : Nodes K → Nat → Option Nat} {fuel : Nat}

theorem step_implements (hc : TotalPreorder compar) (hm : Fresh malloc) {s : Session K} {t : BinTree K}
    (hs : Shape compar s.tree t) (ht : Tracks compar s.history t) (hf : t.inorder.length < fuel) (op : Op K) :
    ∃ s' r t', step compar malloc fuel s op = some (s',r) ∧ Implements compar malloc s op s' r ∧
      Shape compar s'.tree t' ∧ Tracks compar s'.history t' ∧ t'.inorder.length ≤ t.inorder.length + 1 := by
  obtain ⟨s',r,t',hrun,hs',he,hsame⟩ :=
    call_edits hc hs (fun p hp => hm s.tree.nodes s.history.length p hp) hf op
  have ht' : Tracks compar ((op,r) :: s.history) t' := tracks_edit hc he hs.sorted ht
  exact ⟨⟨s',(op,r) :: s.history⟩,r,t',by rw [step,hrun]; rfl,
    ⟨answers_edit hc he hs.sorted ht,⟨t,t',hs,hs',ht',he⟩,hsame⟩,hs',ht',edit_length he⟩

theorem run_implements (hc : TotalPreorder compar) (hm : Fresh malloc) {s : Session K} {t : BinTree K}
    (hs : Shape compar s.tree t) (ht : Tracks compar s.history t) (ops : List (Op K))
    (hf : t.inorder.length + ops.length ≤ fuel) :
    FaultRun.Always (step compar malloc fuel) (Implements compar malloc) s ops := by
  induction ops generalizing s t with
  | nil => trivial
  | cons op ops ih =>
    rw [List.length_cons] at hf
    obtain ⟨s',r,t',hrun,hi,hs',ht',hlen⟩ := step_implements hc hm hs ht (show _ < fuel by omega) op
    exact ⟨s',r,hrun,hi,ih hs' ht' (by omega)⟩

theorem start_shape (compar : K → K → Int) : Shape compar (start : Session K).tree .leaf :=
  ⟨⟨rfl,trivial⟩,List.nodup_nil,fun _ h => absurd rfl h,List.Pairwise.nil⟩

theorem set_operations (hc : TotalPreorder compar) (hm : Fresh malloc) (ops : List (Op K)) (hf : ops.length ≤ fuel) :
    FaultRun.Always (step compar malloc fuel) (Implements compar malloc) start ops := by
  have ht : Tracks compar (start : Session K).history .leaf := fun k p => by simp [start,Live,BinTree.inorder]
  exact run_implements hc hm (start_shape compar) ht ops (by simpa [BinTree.inorder] using hf)

theorem set_operations_four : FaultRun.Always (step (fun a b : Int => a - b) (fun nodes i => if nodes i = none then some i else none) 4)
    (Implements (fun a b : Int => a - b) (fun nodes i => if nodes i = none then some i else none)) start
    [.tsearch 5,.tsearch 3,.tdelete 5,.tfind 3] :=
  set_operations ⟨fun a b => by omega,fun a b c => by omega⟩
    (fun nodes i p h => by
      by_cases hn : nodes i = none
      · rw [if_pos hn] at h
        exact Option.some.inj h ▸ hn
      · rw [if_neg hn] at h
        exact absurd h (by simp)) _ (by decide)

end

end Tsearch
