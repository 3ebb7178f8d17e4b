import Mathlib

namespace LinkedTree

variable {K : Type}

structure Node (K : Type) where
  key : K
  llink : Option Nat
  rlink : Option Nat

inductive BinTree (K : Type) where
  | leaf
  | node (p : Nat) (k : K) (l r : BinTree K)

abbrev Nodes (K : Type) := Nat → Option (Node K)

def BinTree.root : BinTree K → Option Nat
  | .leaf => none
  | .node p _ _ _ => some p

def BinTree.inorder : BinTree K → List (Nat × K)
  | .leaf => []
  | .node p k l r => l.inorder ++ (p,k) :: r.inorder

def BinTree.addrs (t : BinTree K) : List Nat := t.inorder.map Prod.fst

def Rep (nodes : Nodes K) : BinTree K → Prop
  | .leaf => True
  | .node p k l r => nodes p = some ⟨k,l.root,r.root⟩ ∧ Rep nodes l ∧ Rep nodes r

structure Frame (K : Type) where
  p : Nat
  k : K
  left : Bool
  other : BinTree K

def Frame.fill (f : Frame K) (t : BinTree K) : BinTree K :=
  if f.left then .node f.p f.k t f.other else .node f.p f.k f.other t

def Frame.node (f : Frame K) (hole : Option Nat) : Node K :=
  if f.left then ⟨f.k,hole,f.other.root⟩ else ⟨f.k,f.other.root,hole⟩

def plug : List (Frame K) → BinTree K → BinTree K
  | [], t => t
  | f :: fs, t => plug fs (f.fill t)

def RepAround (nodes : Nodes K) : List (Frame K) → Option Nat → Prop
  | [], _ => True
  | f :: fs, hole => nodes f.p = some (f.node hole) ∧ Rep nodes f.other ∧ RepAround nodes fs (some f.p)

def rootOf : List (Frame K) → Option Nat → Option Nat
  | [], hole => hole
  | f :: fs, _ => rootOf fs (some f.p)

def before : List (Frame K) → List (Nat × K)
  | [] => []
  | f :: fs => if f.left then before fs else before fs ++ f.other.inorder ++ [(f.p,f.k)]

def after : List (Frame K) → List (Nat × K)
  | [] => []
  | f :: fs => if f.left then (f.p,f.k) :: f.other.inorder ++ after fs else after fs

def popMin : BinTree K → Nat → K → BinTree K → (Nat × K) × BinTree K
  | .leaf, p, k, r => ((p,k),r)
  | .node q c l m, p, k, r => ((popMin l q c m).1,.node p k (popMin l q c m).2 r)

def join : BinTree K → BinTree K → BinTree K
  | .leaf, r => r
  | l, .leaf => l
  | l, .node p k m r => .node (popMin m p k r).1.1 (popMin m p k r).1.2 l (popMin m p k r).2

section

variable {nodes nodes' : Nodes K} {t l r : BinTree K} {f : Frame K} {fs : List (Frame K)} {p : Nat} {k : K}

@[simp] theorem addrs_leaf : (BinTree.leaf : BinTree K).addrs = [] := rfl

@[simp] theorem addrs_node : (BinTree.node p k l r).addrs = l.addrs ++ p :: r.addrs := by
  simp [BinTree.addrs,BinTree.inorder]

theorem rep_congr (h : ∀ p ∈ t.addrs, nodes' p = nodes p) (hr : Rep nodes t) : Rep nodes' t := by
  induction t with
  | leaf => trivial
  | node p k l r ihl ihr =>
    rw [addrs_node] at h
    exact ⟨(h p (by simp)).trans hr.1,ihl (fun q hq => h q (by simp [hq])) hr.2.1,
      ihr (fun q hq => h q (by simp [hq])) hr.2.2⟩

theorem rep_update {n : Option (Node K)} (hp : p ∉ t.addrs) (hr : Rep nodes t) : Rep (Function.update nodes p n) t :=
  rep_congr (fun q hq => Function.update_of_ne (fun he : q = p => hp (he ▸ hq)) _ _) hr

theorem rep_alive (hr : Rep nodes t) (hp : p ∈ t.addrs) : nodes p ≠ none := by
  induction t with
  | leaf => simp at hp
  | node q k l r ihl ihr =>
    rw [addrs_node,List.mem_append,List.mem_cons] at hp
    rcases hp with hp | rfl | hp
    · exact ihl hr.2.1 hp
    · rw [hr.1]
      simp
    · exact ihr hr.2.2 hp

theorem rep_fill (f : Frame K) (t : BinTree K) :
    Rep nodes (f.fill t) ↔ nodes f.p = some (f.node t.root) ∧ Rep nodes f.other ∧ Rep nodes t := by
  obtain ⟨p,k,left,other⟩ := f
  cases left with
  | true => exact and_congr_right fun _ => and_comm
  | false => exact Iff.rfl

theorem fill_root (f : Frame K) (t : BinTree K) : (f.fill t).root = some f.p := by
  obtain ⟨p,k,left,other⟩ := f
  cases left <;> rfl

theorem rep_plug (fs : List (Frame K)) (t : BinTree K) :
    Rep nodes (plug fs t) ↔ RepAround nodes fs t.root ∧ Rep nodes t := by
  induction fs generalizing t with
  | nil => exact ⟨fun h => ⟨trivial,h⟩,And.right⟩
  | cons f fs ih =>
    rw [plug,ih,rep_fill,fill_root,RepAround]
    tauto

theorem inorder_plug (fs : List (Frame K)) (t : BinTree K) : (plug fs t).inorder = before fs ++ t.inorder ++ after fs := by
  induction fs generalizing t with
  | nil => simp [plug,before,after]
  | cons f fs ih =>
    obtain ⟨p,k,left,other⟩ := f
    rw [plug,ih]
    cases left with
    | true => simp [Frame.fill,before,after,BinTree.inorder]
    | false => simp [Frame.fill,before,after,BinTree.inorder]

def aroundAddrs (fs : List (Frame K)) : List Nat := (before fs ++ after fs).map Prod.fst

theorem addrs_plug (fs : List (Frame K)) (t : BinTree K) : (plug fs t).addrs.Perm (aroundAddrs fs ++ t.addrs) := by
  rw [BinTree.addrs,inorder_plug,aroundAddrs,BinTree.addrs,← List.map_append]
  refine List.Perm.map _ ?_
  rw [List.append_assoc,List.append_assoc]
  exact (List.perm_append_comm).append_left _

theorem inorder_popMin (l : BinTree K) (p : Nat) (k : K) (r : BinTree K) :
    (popMin l p k r).1 :: (popMin l p k r).2.inorder = (BinTree.node p k l r).inorder := by
  induction l generalizing p k r with
  | leaf => rfl
  | node q c l m ihl _ =>
    rw [popMin]
    have hl := ihl q c m
    simp only [BinTree.inorder] at hl ⊢
    rw [← hl]
    rfl

theorem inorder_join (l r : BinTree K) : (join l r).inorder = l.inorder ++ r.inorder := by
  cases l with
  | leaf => cases r <;> rfl
  | node q c l m =>
    cases r with
    | leaf => simp [join,BinTree.inorder]
    | node p k m' r =>
      rw [join]
      · rw [← inorder_popMin m' p k r]
        rfl
      · simp

theorem aroundAddrs_cons (f : Frame K) (fs : List (Frame K)) :
    (aroundAddrs (f :: fs)).Perm (f.p :: (f.other.addrs ++ aroundAddrs fs)) := by
  obtain ⟨p,k,left,other⟩ := f
  cases left with
  | true =>
    simp only [aroundAddrs,before,after,BinTree.addrs,List.map_append,List.map_cons,List.cons_append,if_true]
    exact List.perm_middle.trans (List.Perm.cons _ (by
      rw [← List.append_assoc,← List.append_assoc]
      exact List.perm_append_comm.append_right _))
  | false =>
    simp only [aroundAddrs,before,after,BinTree.addrs,List.map_append,List.map_cons,List.map_nil,Bool.false_eq_true,if_false]
    rw [List.append_assoc,List.singleton_append]
    refine List.perm_middle.trans (List.Perm.cons _ ?_)
    rw [← List.append_assoc]
    exact List.perm_append_comm.append_right _

theorem around_congr (h : ∀ p ∈ aroundAddrs fs, nodes' p = nodes p) {hole : Option Nat} (hr : RepAround nodes fs hole) :
    RepAround nodes' fs hole := by
  induction fs generalizing hole with
  | nil => trivial
  | cons f fs ih =>
    obtain ⟨hnode,hother,hrest⟩ := hr
    have hmem : ∀ q, q ∈ aroundAddrs (f :: fs) ↔ q ∈ f.p :: (f.other.addrs ++ aroundAddrs fs) :=
      fun q => (aroundAddrs_cons f fs).mem_iff
    exact ⟨(h f.p ((hmem _).mpr (by simp))).trans hnode,
      rep_congr (fun q hq => h q ((hmem _).mpr (by simp [hq]))) hother,
      ih (fun q hq => h q ((hmem _).mpr (by simp [hq]))) hrest⟩

theorem nodup_plug (fs : List (Frame K)) (t : BinTree K) :
    (plug fs t).addrs.Nodup ↔ (aroundAddrs fs).Nodup ∧ t.addrs.Nodup ∧ ∀ q ∈ aroundAddrs fs, q ∉ t.addrs := by
  rw [(addrs_plug fs t).nodup_iff,List.nodup_append]
  refine and_congr_right fun _ => and_congr_right fun _ => ?_
  exact ⟨fun h q hq ht => h q hq q ht rfl,fun h q hq r hr he => h q hq (he ▸ hr)⟩

theorem plug_root (fs : List (Frame K)) (t : BinTree K) : (plug fs t).root = rootOf fs t.root := by
  induction fs generalizing t with
  | nil => rfl
  | cons f fs ih => rw [plug,ih,fill_root,rootOf]

theorem around_refill (hn : (aroundAddrs (f :: fs)).Nodup) {hole : Option Nat} (hr : RepAround nodes (f :: fs) hole)
    (hole' : Option Nat) : RepAround (Function.update nodes f.p (some (f.node hole'))) (f :: fs) hole' := by
  rw [(aroundAddrs_cons f fs).nodup_iff,List.nodup_cons,List.mem_append,not_or] at hn
  refine ⟨Function.update_self _ _ _,rep_update hn.1.1 hr.2.1,?_⟩
  exact around_congr (fun q hq => Function.update_of_ne (fun he : q = f.p => hn.1.2 (he ▸ hq)) _ _) hr.2.2

theorem addrs_popMin (l : BinTree K) (p : Nat) (k : K) (r : BinTree K) :
    (popMin l p k r).1.1 :: (popMin l p k r).2.addrs = l.addrs ++ p :: r.addrs := by
  rw [← addrs_node (k := k),BinTree.addrs,BinTree.addrs,← inorder_popMin]
  rfl

theorem addrs_join (l r : BinTree K) : (join l r).addrs = l.addrs ++ r.addrs := by
  rw [BinTree.addrs,inorder_join,List.map_append]
  rfl

end

end LinkedTree
