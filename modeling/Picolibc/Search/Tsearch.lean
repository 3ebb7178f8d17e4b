import Mathlib
import Picolibc.Lib.LinkedTree
import Picolibc.Lib.FaultRun
import Picolibc.Lib.Comparison

namespace Tsearch

open LinkedTree Comparison

variable {K : Type}

structure State (K : Type) where
  root : Option Nat
  nodes : Nodes K

inductive Link where
  | root
  | llink (p : Nat)
  | rlink (p : Nat)
deriving DecidableEq,Repr

def State.get (s : State K) : Link → Option (Option Nat)
  | .root => some s.root
  | .llink p => (s.nodes p).map (fun n => n.llink)
  | .rlink p => (s.nodes p).map (fun n => n.rlink)

def State.put (s : State K) (p : Nat) (n : Node K) : State K := {s with nodes := Function.update s.nodes p (some n)}

def State.set (s : State K) (q : Option Nat) : Link → Option (State K)
  | .root => some {s with root := q}
  | .llink p => (s.nodes p).map (fun n => s.put p {n with llink := q})
  | .rlink p => (s.nodes p).map (fun n => s.put p {n with rlink := q})

def State.deref (s : State K) (l : Link) : Option Nat := (s.get l).bind id

def State.free (s : State K) (p : Nat) : Option (State K) :=
  (s.nodes p).map (fun _ => {s with nodes := Function.update s.nodes p none})

def branch (r : Int) (p : Nat) : Link := if r < 0 then .llink p else .rlink p

def search (compar : K → K → Int) (vkey : K) (s : State K) : Nat → Link → Option (Link × Option Nat)
  | 0, _ => none
  | fuel + 1, rootp => do
    match ← s.get rootp with
    | none => some (rootp,none)
    | some p =>
      let n ← s.nodes p
      let r := compar vkey n.key
      if r = 0 then some (rootp,some p) else search compar vkey s fuel (branch r p)

def tsearch (compar : K → K → Int) (fuel : Nat) (malloc : Option Nat) (vkey : K) (vrootp : Option Link) (s : State K) :
    Option (State K × Option Nat) :=
  match vrootp with
  | none => some (s,none)
  | some rootp => do
    match ← search compar vkey s fuel rootp with
    | (_,some p) => some (s,some p)
    | (rootp,none) =>
      match malloc with
      | none => some (s,none)
      | some q =>
        let s ← s.set (some q) rootp
        some (s.put q ⟨vkey,none,none⟩,some q)

def tfind (compar : K → K → Int) (fuel : Nat) (vkey : K) (vrootp : Option Link) (s : State K) : Option (Option Nat) :=
  match vrootp with
  | none => some none
  | some rootp => (search compar vkey s fuel rootp).map Prod.snd

def descend (compar : K → K → Int) (vkey : K) (s : State K) : Nat → Link → Nat → Option (Option (Link × Nat))
  | 0, _, _ => none
  | fuel + 1, rootp, p => do
    let x ← s.deref rootp
    let n ← s.nodes x
    let cmp := compar vkey n.key
    if cmp = 0 then some (some (rootp,p))
    else
      match ← s.get (branch cmp x) with
      | none => some none
      | some _ => descend compar vkey s fuel (branch cmp x) x

def successor (nodes : Nodes K) : Nat → Nat → Option (Nat × Nat)
  | 0, _ => none
  | fuel + 1, r => do
    let n ← nodes r
    let q ← n.llink
    let m ← nodes q
    match m.llink with
    | none => some (r,q)
    | some _ => successor nodes fuel q

def relink (fuel : Nat) (rootp : Link) (r : Nat) (s : State K) : Option (State K × Nat) := do
  let (r,q) ← successor s.nodes fuel r
  let s ← s.set (← s.get (.rlink q)) (.llink r)
  let s ← s.set (← s.get (.llink (← s.deref rootp))) (.llink q)
  let s ← s.set (← s.get (.rlink (← s.deref rootp))) (.rlink q)
  some (s,q)

def replacement (fuel : Nat) (rootp : Link) (s : State K) : Option (State K × Option Nat) := do
  let x ← s.deref rootp
  match ← s.get (.llink x), ← s.get (.rlink x) with
  | none, r => some (s,r)
  | some q, none => some (s,some q)
  | some q, some r =>
    match ← s.get (.llink r) with
    | none =>
      let s ← s.set (some q) (.llink r)
      some (s,some r)
    | some _ =>
      let (s,q) ← relink fuel rootp r s
      some (s,some q)

def unlink (fuel : Nat) (rootp : Link) (s : State K) : Option (State K) := do
  let (s,q) ← replacement fuel rootp s
  let s ← s.free (← s.deref rootp)
  s.set q rootp

def tdelete (compar : K → K → Int) (fuel : Nat) (vkey : K) (vrootp : Option Link) (s : State K) :
    Option (State K × Option Nat) :=
  match vrootp with
  | none => some (s,none)
  | some rootp => do
    match ← s.get rootp with
    | none => some (s,none)
    | some p =>
      match ← descend compar vkey s fuel rootp p with
      | none => some (s,none)
      | some (rootp,p) =>
        let s ← unlink fuel rootp s
        some (s,some p)

def linkOf : List (Frame K) → Link
  | [] => .root
  | f :: _ => if f.left then .llink f.p else .rlink f.p

structure Around (s : State K) (fs : List (Frame K)) (hole : Option Nat) : Prop where
  root : s.root = rootOf fs hole
  rep : RepAround s.nodes fs hole

structure Holds (s : State K) (t : BinTree K) : Prop where
  root : s.root = t.root
  rep : Rep s.nodes t

section

variable {s : State K} {fs : List (Frame K)} {t l r : BinTree K} {x : Nat} {k : K}

theorem holds_plug : Holds s (plug fs t) ↔ Around s fs t.root ∧ Rep s.nodes t := by
  constructor
  · rintro ⟨hroot,hrep⟩
    obtain ⟨ha,ht⟩ := (rep_plug fs t).mp hrep
    exact ⟨⟨hroot.trans (plug_root fs t),ha⟩,ht⟩
  · rintro ⟨⟨hroot,ha⟩,ht⟩
    exact ⟨hroot.trans (plug_root fs t).symm,(rep_plug fs t).mpr ⟨ha,ht⟩⟩

theorem get_hole {hole : Option Nat} (h : Around s fs hole) : s.get (linkOf fs) = some hole := by
  cases fs with
  | nil => exact congrArg some h.root
  | cons f fs =>
    obtain ⟨p,k,left,other⟩ := f
    have hp := h.rep.1
    cases left with
    | true => simpa [linkOf,State.get,Frame.node] using congrArg (Option.map (fun n : Node K => n.llink)) hp
    | false => simpa [linkOf,State.get,Frame.node] using congrArg (Option.map (fun n : Node K => n.rlink)) hp

theorem set_hole {hole : Option Nat} (h : Around s fs hole) (hn : (aroundAddrs fs).Nodup) (hole' : Option Nat) :
    ∃ s', s.set hole' (linkOf fs) = some s' ∧ Around s' fs hole' ∧ ∀ p, p ∉ aroundAddrs fs → s'.nodes p = s.nodes p := by
  cases fs with
  | nil => exact ⟨_,rfl,⟨rfl,trivial⟩,fun p _ => rfl⟩
  | cons f fs =>
    have hset : s.set hole' (linkOf (f :: fs)) = some (s.put f.p (f.node hole')) := by
      obtain ⟨p,k,left,other⟩ := f
      have hp : s.nodes p = _ := h.rep.1
      cases left with
      | true => simp [linkOf,State.set,hp,Frame.node]
      | false => simp [linkOf,State.set,hp,Frame.node]
    refine ⟨_,hset,⟨h.root,around_refill hn h.rep hole'⟩,fun p hp => ?_⟩
    exact Function.update_of_ne (fun he : p = f.p => hp (he ▸ (aroundAddrs_cons f fs).mem_iff.mpr (by simp))) _ _

theorem around_congr {s' : State K} {hole : Option Nat} (h : Around s fs hole) (hroot : s'.root = s.root)
    (hn : ∀ p ∈ aroundAddrs fs, s'.nodes p = s.nodes p) : Around s' fs hole :=
  ⟨hroot.trans h.root,LinkedTree.around_congr hn h.rep⟩

theorem around_put {hole : Option Nat} {n : Node K} (h : Around s fs hole) (hx : x ∉ aroundAddrs fs) :
    Around (s.put x n) fs hole :=
  around_congr h rfl fun p hp => Function.update_of_ne (fun he : p = x => hx (he ▸ hp)) _ _

theorem node_of_holds (h : Holds s (plug fs (.node x k l r))) : s.nodes x = some ⟨k,l.root,r.root⟩ :=
  (holds_plug.mp h).2.1

end

section

variable {compar : K → K → Int} {vkey : K} {s : State K} {fs : List (Frame K)} {t : BinTree K}

def Sorted (compar : K → K → Int) (es : List (Nat × K)) : Prop := es.Pairwise (fun a b => compar a.2 b.2 < 0)

structure Between (compar : K → K → Int) (vkey : K) (fs : List (Frame K)) : Prop where
  low : ∀ e ∈ before fs, compar e.2 vkey < 0
  high : ∀ e ∈ after fs, compar vkey e.2 < 0

structure Reaches (compar : K → K → Int) (vkey : K) (t t' : BinTree K) (fs : List (Frame K)) : Prop where
  split : t = plug fs t'
  here : t' = .leaf ∨ ∃ p k l r, t' = .node p k l r ∧ compar vkey k = 0
  between : Between compar vkey fs

theorem between_llink {p : Nat} {k : K} {l r : BinTree K} (hc : TotalPreorder compar) (hb : Between compar vkey fs)
    (hs : Sorted compar (plug fs (.node p k l r)).inorder) (hlt : compar vkey k < 0) :
    Between compar vkey (⟨p,k,true,r⟩ :: fs) := by
  refine ⟨hb.low,fun e he => ?_⟩
  rw [inorder_plug,Sorted,List.pairwise_append,List.pairwise_append] at hs
  have hr := (List.pairwise_cons.mp (List.pairwise_append.mp hs.1.2.1).2.1).1
  simp only [after,if_true,List.cons_append,List.mem_cons,List.mem_append] at he
  rcases he with rfl | he | he
  · exact hlt
  · exact lt_trans hc hlt (hr e he)
  · exact hb.high e he

theorem between_rlink {p : Nat} {k : K} {l r : BinTree K} (hc : TotalPreorder compar) (hb : Between compar vkey fs)
    (hs : Sorted compar (plug fs (.node p k l r)).inorder) (hlt : compar k vkey < 0) :
    Between compar vkey (⟨p,k,false,l⟩ :: fs) := by
  refine ⟨fun e he => ?_,hb.high⟩
  rw [inorder_plug,Sorted,List.pairwise_append,List.pairwise_append] at hs
  have hl := (List.pairwise_append.mp hs.1.2.1).2.2
  simp only [before,Bool.false_eq_true,if_false,List.mem_append,List.mem_singleton] at he
  rcases he with (he | he) | rfl
  · exact hb.low e he
  · exact lt_trans hc (hl e he (p,k) (by simp)) hlt
  · exact hlt

theorem search_reaches (hc : TotalPreorder compar) (h : Holds s (plug fs t)) (hs : Sorted compar (plug fs t).inorder)
    (hb : Between compar vkey fs) {fuel : Nat} (hf : t.inorder.length < fuel) :
    ∃ fs' t', Reaches compar vkey (plug fs t) t' fs' ∧ search compar vkey s fuel (linkOf fs) = some (linkOf fs',t'.root) := by
  induction t generalizing fs fuel with
  | leaf =>
    obtain ⟨fuel,rfl⟩ := Nat.exists_eq_succ_of_ne_zero (by omega : fuel ≠ 0)
    refine ⟨fs,.leaf,⟨rfl,Or.inl rfl,hb⟩,?_⟩
    rw [search,get_hole (holds_plug.mp h).1]
    rfl
  | node p k l r ihl ihr =>
    obtain ⟨fuel,rfl⟩ := Nat.exists_eq_succ_of_ne_zero (by omega : fuel ≠ 0)
    rw [BinTree.inorder,List.length_append,List.length_cons] at hf
    have hstep : search compar vkey s (fuel + 1) (linkOf fs) =
        if compar vkey k = 0 then some (linkOf fs,some p) else search compar vkey s fuel (branch (compar vkey k) p) := by
      rw [search,get_hole (holds_plug.mp h).1]
      simp [BinTree.root,node_of_holds h]
    rw [hstep]
    by_cases hzero : compar vkey k = 0
    · exact ⟨fs,_,⟨rfl,Or.inr ⟨p,k,l,r,rfl,hzero⟩,hb⟩,if_pos hzero⟩
    · rw [if_neg hzero]
      by_cases hlt : compar vkey k < 0
      · rw [branch,if_pos hlt]
        exact @ihl (⟨p,k,true,r⟩ :: fs) h hs (between_llink hc hb hs hlt) fuel (by omega)
      · rw [branch,if_neg hlt]
        exact @ihr (⟨p,k,false,l⟩ :: fs) h hs (between_rlink hc hb hs ((hc.flip _ _).mpr (by omega))) fuel (by omega)

theorem descend_reaches (hc : TotalPreorder compar) (h : Holds s (plug fs t)) (hs : Sorted compar (plug fs t).inorder)
    (hb : Between compar vkey fs) (ht : t ≠ .leaf) {fuel : Nat} (hf : t.inorder.length < fuel) (p : Nat) :
    ∃ fs' t' p', Reaches compar vkey (plug fs t) t' fs' ∧
      descend compar vkey s fuel (linkOf fs) p = some (t'.root.map fun _ => (linkOf fs',p')) := by
  induction t generalizing fs fuel p with
  | leaf => exact absurd rfl ht
  | node x k l r ihl ihr =>
    obtain ⟨fuel,rfl⟩ := Nat.exists_eq_succ_of_ne_zero (by omega : fuel ≠ 0)
    rw [BinTree.inorder,List.length_append,List.length_cons] at hf
    have hstep : descend compar vkey s (fuel + 1) (linkOf fs) p =
        if compar vkey k = 0 then some (some (linkOf fs,p))
        else (s.get (branch (compar vkey k) x)).bind fun c =>
          c.elim (some none) fun _ => descend compar vkey s fuel (branch (compar vkey k) x) x := by
      rw [descend,State.deref,get_hole (holds_plug.mp h).1]
      simp only [BinTree.root,Option.bind_some,id,node_of_holds h,Option.bind_eq_bind]
      refine if_congr Iff.rfl rfl (congrArg _ ?_)
      funext c
      cases c <;> rfl
    rw [hstep]
    by_cases hzero : compar vkey k = 0
    · exact ⟨fs,_,p,⟨rfl,Or.inr ⟨x,k,l,r,rfl,hzero⟩,hb⟩,if_pos hzero⟩
    · have hdown : ∀ (left : Bool) (t other : BinTree K), plug fs (.node x k l r) = plug (⟨x,k,left,other⟩ :: fs) t →
          branch (compar vkey k) x = linkOf (⟨x,k,left,other⟩ :: fs) → Between compar vkey (⟨x,k,left,other⟩ :: fs) →
          (t ≠ .leaf → ∃ fs' t' p', Reaches compar vkey (plug (⟨x,k,left,other⟩ :: fs) t) t' fs' ∧
            descend compar vkey s fuel (linkOf (⟨x,k,left,other⟩ :: fs)) x = some (t'.root.map fun _ => (linkOf fs',p'))) →
          ∃ fs' t' p', Reaches compar vkey (plug fs (.node x k l r)) t' fs' ∧
            ((s.get (branch (compar vkey k) x)).bind fun c =>
              c.elim (some none) fun _ => descend compar vkey s fuel (branch (compar vkey k) x) x) =
              some (t'.root.map fun _ => (linkOf fs',p')) := by
        intro left t other hplug hbranch hbt hrest
        rw [hplug] at h ⊢
        rw [hbranch,get_hole (holds_plug.mp h).1]
        cases t with
        | leaf => exact ⟨_,.leaf,p,⟨rfl,Or.inl rfl,hbt⟩,rfl⟩
        | node y m a b => exact hrest (by simp)
      rw [if_neg hzero]
      by_cases hlt : compar vkey k < 0
      · have hbt := between_llink hc hb hs hlt
        refine hdown true l r rfl (if_pos hlt) hbt fun hl => ?_
        exact @ihl (⟨x,k,true,r⟩ :: fs) h hs hbt hl fuel (by omega) x
      · have hbt := between_rlink hc hb hs ((hc.flip _ _).mpr (by omega))
        refine hdown false r l rfl (if_neg hlt) hbt fun hr => ?_
        exact @ihr (⟨x,k,false,l⟩ :: fs) h hs hbt hr fuel (by omega) x

end

end Tsearch
