import Mathlib
import Picolibc.Search.Tsearch

namespace Tsearch

open LinkedTree Comparison

variable {K : Type}

section

variable {s : State K} {fs : List (Frame K)} {l r : BinTree K} {x : Nat} {k : K} {fuel : Nat}

structure Detaches (nodes : Nodes K) (r q : Nat) (e : Nat × K) (m : BinTree K) : Prop where
  target : q = e.1
  leftmost : ∃ c, nodes q = some ⟨e.2,none,c⟩ ∧ ∃ n, nodes r = some n ∧ Rep (Function.update nodes r (some {n with llink := c})) m
  inside : r ∈ m.addrs

theorem successor_detaches {nodes : Nodes K} {a p : Nat} {c k : K} {l m r : BinTree K}
    (hr : Rep nodes (.node p k (.node a c l m) r)) (hn : (BinTree.node p k (.node a c l m) r).addrs.Nodup)
    (hf : l.inorder.length < fuel) :
    ∃ p' q, successor nodes fuel p = some (p',q) ∧
      Detaches nodes p' q (popMin (.node a c l m) p k r).1 (popMin (.node a c l m) p k r).2 := by
  induction l generalizing a c m p k r fuel with
  | leaf =>
    obtain ⟨fuel,rfl⟩ := Nat.exists_eq_succ_of_ne_zero (by omega : fuel ≠ 0)
    obtain ⟨hp,⟨ha,-,hm⟩,hrest⟩ := hr
    refine ⟨p,a,by simp [successor,hp,ha,BinTree.root],rfl,⟨m.root,ha,_,hp,?_⟩,by simp [popMin]⟩
    simp only [addrs_node,addrs_leaf,List.nil_append] at hn
    obtain ⟨hn₁,hn₂,hn₃⟩ := List.nodup_append.mp hn
    have hpm : p ∉ m.addrs := fun h => hn₃ p (by simp [h]) p (by simp) rfl
    exact ⟨Function.update_self _ _ _,rep_update hpm hm,rep_update (List.nodup_cons.mp hn₂).1 hrest⟩
  | node b d l₁ l₂ ih _ =>
    obtain ⟨fuel,rfl⟩ := Nat.exists_eq_succ_of_ne_zero (by omega : fuel ≠ 0)
    obtain ⟨hp,hleft,hrest⟩ := hr
    rw [addrs_node] at hn
    obtain ⟨hn₁,hn₂,hn₃⟩ := List.nodup_append.mp hn
    rw [BinTree.inorder,List.length_append,List.length_cons] at hf
    obtain ⟨p',q,hrun,hd⟩ := ih hleft hn₁ (show _ < fuel by omega)
    have hinside : p' ∈ (BinTree.node a c (.node b d l₁ l₂) m).addrs := by
      rw [addrs_node,← addrs_popMin (k := c)]
      exact List.mem_cons_of_mem _ hd.inside
    have hne : ∀ y ∈ p :: r.addrs, p' ≠ y := fun y hy => hn₃ p' hinside y hy
    obtain ⟨c',hq,n,hn',hrep⟩ := hd.leftmost
    refine ⟨p',q,?_,hd.target,⟨c',hq,n,hn',?_⟩,?_⟩
    · rw [successor,hp]
      simp [BinTree.root,hleft.1,hrun]
    · refine ⟨?_,hrep,rep_update (fun h => hne p' (List.mem_cons_of_mem _ h) rfl) hrest⟩
      rw [Function.update_of_ne (hne p (by simp)).symm,hp]
      rfl
    · rw [popMin,addrs_node]
      exact List.mem_append_left _ hd.inside

theorem get_llink {n : Node K} (h : s.nodes x = some n) : s.get (.llink x) = some n.llink := by simp [State.get,h]

theorem get_rlink {n : Node K} (h : s.nodes x = some n) : s.get (.rlink x) = some n.rlink := by simp [State.get,h]

theorem set_llink {n : Node K} (h : s.nodes x = some n) (q : Option Nat) :
    s.set q (.llink x) = some (s.put x {n with llink := q}) := by simp [State.set,h]

theorem set_rlink {n : Node K} (h : s.nodes x = some n) (q : Option Nat) :
    s.set q (.rlink x) = some (s.put x {n with rlink := q}) := by simp [State.set,h]

theorem put_same (s : State K) (x : Nat) (n : Node K) : (s.put x n).nodes x = some n := Function.update_self _ _ _

theorem put_other (s : State K) {x p : Nat} (h : p ≠ x) (n : Node K) : (s.put x n).nodes p = s.nodes p :=
  Function.update_of_ne h _ _

def Within (s' s : State K) : Prop := ∀ p, s'.nodes p ≠ none → s.nodes p ≠ none

theorem within_put {s' : State K} (h : Within s' s) {n n' : Node K} (hx : s'.nodes x = some n') : Within (s'.put x n) s := by
  intro p hp
  by_cases he : p = x
  · exact h p (by rw [he,hx]; simp)
  · exact h p (by rwa [put_other s' he] at hp)

theorem deref_hole {hole : Option Nat} (h : Around s fs hole) : s.deref (linkOf fs) = hole := by
  rw [State.deref,get_hole h]
  rfl

theorem relink_joins {a p : Nat} {c k' : K} {l₁ l₂ m : BinTree K}
    (h : Holds s (plug fs (.node x k l (.node p k' (.node a c l₁ l₂) m))))
    (hn : (plug fs (.node x k l (.node p k' (.node a c l₁ l₂) m))).addrs.Nodup) (hf : l₁.inorder.length < fuel) :
    ∃ s', relink fuel (linkOf fs) p s = some (s',(popMin (.node a c l₁ l₂) p k' m).1.1) ∧ Around s' fs (some x) ∧
      Rep s'.nodes (.node (popMin (.node a c l₁ l₂) p k' m).1.1 (popMin (.node a c l₁ l₂) p k' m).1.2 l
        (popMin (.node a c l₁ l₂) p k' m).2) ∧ s'.nodes x ≠ none ∧ Within s' s := by
  obtain ⟨hround,hx,hl,hr⟩ := holds_plug.mp h
  obtain ⟨-,htree,hdisj⟩ := (nodup_plug _ _).mp hn
  rw [addrs_node] at htree hdisj
  obtain ⟨-,hxr,hlr⟩ := List.nodup_append.mp htree
  obtain ⟨hxr,hrn⟩ := List.nodup_cons.mp hxr
  obtain ⟨p',q,hrun,hd⟩ := successor_detaches hr hrn hf
  obtain ⟨c',hq,n,hp',hrep⟩ := hd.leftmost
  have haddrs := addrs_popMin (.node a c l₁ l₂) p k' m
  have hroot : (popMin (.node a c l₁ l₂) p k' m).2.root = some p := rfl
  obtain ⟨hqeq,-,hinside⟩ := hd
  generalize popMin (.node a c l₁ l₂) p k' m = pm at *
  obtain ⟨⟨q',e⟩,rest⟩ := pm
  obtain rfl : q = q' := hqeq
  have hr_eq : (BinTree.node p k' (.node a c l₁ l₂) m).addrs = q :: rest.addrs := by rw [addrs_node]; exact haddrs.symm
  rw [hr_eq] at hxr hrn hlr hdisj
  have hqp : q ≠ p' := fun he => (List.nodup_cons.mp hrn).1 (he ▸ hinside)
  have hxp : x ≠ p' := fun he => hxr (List.mem_cons_of_mem _ (he ▸ hinside))
  have hxq : x ≠ q := fun he => hxr (he ▸ List.mem_cons_self)
  have hround_p : p' ∉ aroundAddrs fs := fun hm => hdisj p' hm (by simp [hinside])
  have hround_q : q ∉ aroundAddrs fs := fun hm => hdisj q hm (by simp)
  have hlp : p' ∉ l.addrs := fun hm => hlr p' hm p' (by simp [hinside]) rfl
  have hlq : q ∉ l.addrs := fun hm => hlr q hm q (by simp) rfl
  let s₁ := s.put p' {n with llink := c'}
  let s₂ := s₁.put q ⟨e,l.root,c'⟩
  have hround₁ : Around s₁ fs (some x) := around_put hround hround_p
  have hround₂ : Around s₂ fs (some x) := around_put hround₁ hround_q
  have hx₁ : s₁.nodes x = some ⟨k,l.root,some p⟩ := (put_other s hxp _).trans hx
  have hx₂ : s₂.nodes x = some ⟨k,l.root,some p⟩ := (put_other s₁ hxq _).trans hx₁
  have hq₁ : s₁.nodes q = some ⟨e,none,c'⟩ := (put_other s hqp _).trans hq
  have hq₂ : s₂.nodes q = some ⟨e,l.root,c'⟩ := put_same s₁ q _
  refine ⟨s₂.put q ⟨e,l.root,some p⟩,?_,around_put hround₂ hround_q,⟨?_,?_,?_⟩,?_,?_⟩
  · rw [relink,hrun]
    simp only [Option.bind_eq_bind,Option.bind_some]
    rw [get_rlink hq]
    simp only [Option.bind_some]
    rw [set_llink hp']
    simp only [Option.bind_some]
    rw [deref_hole hround₁,Option.bind_some,get_llink hx₁,Option.bind_some,set_llink hq₁,Option.bind_some,
      deref_hole hround₂,Option.bind_some,get_rlink hx₂,Option.bind_some,set_rlink hq₂]
    rfl
  · rw [put_same,hroot]
  · exact rep_update hlq (rep_update hlq (rep_update hlp hl))
  · have hqrest := (List.nodup_cons.mp hrn).1
    exact rep_update hqrest (rep_update hqrest hrep)
  · rw [put_other s₂ hxq,hx₂]
    simp
  · exact within_put (within_put (within_put (fun _ h => h) hp') hq₁) hq₂

structure Joined (s s' : State K) (fs : List (Frame K)) (x : Nat) (t : BinTree K) : Prop where
  around : Around s' fs (some x)
  rep : Rep s'.nodes t
  kept : s'.nodes x ≠ none
  within : Within s' s

theorem replacement_joins (h : Holds s (plug fs (.node x k l r))) (hn : (plug fs (.node x k l r)).addrs.Nodup)
    (hf : r.inorder.length < fuel) :
    ∃ s', replacement fuel (linkOf fs) s = some (s',(join l r).root) ∧ Joined s s' fs x (join l r) := by
  obtain ⟨hround,hx,hl,hr⟩ := holds_plug.mp h
  have hstart : ∀ t, Rep s.nodes t → Joined s s fs x t := fun t ht => ⟨hround,ht,by rw [hx]; simp,fun _ hp => hp⟩
  rw [replacement,deref_hole hround]
  simp only [BinTree.root,Option.bind_eq_bind,Option.bind_some]
  rw [get_llink hx]
  simp only [Option.bind_some]
  rw [get_rlink hx]
  simp only [Option.bind_some]
  cases l with
  | leaf => exact ⟨s,by cases r <;> rfl,hstart _ (by cases r <;> exact hr)⟩
  | node b d l₁ l₂ =>
    cases r with
    | leaf => exact ⟨s,rfl,hstart _ hl⟩
    | node p k' u m =>
      have hp := hr.1
      simp only [BinTree.root]
      rw [get_llink hp]
      cases u with
      | leaf =>
        obtain ⟨-,htree,hdisj⟩ := (nodup_plug _ _).mp hn
        simp only [addrs_node,addrs_leaf,List.nil_append] at htree hdisj
        obtain ⟨-,hxr,hlr⟩ := List.nodup_append.mp htree
        have hxp : x ≠ p := fun he => (List.nodup_cons.mp hxr).1 (by simp [he])
        refine ⟨s.put p ⟨k',some b,m.root⟩,?_,around_put hround fun hm => hdisj p hm (by simp),?_,?_,?_⟩
        · simp only [BinTree.root,Option.bind_some]
          rw [set_llink hp]
          rfl
        · refine ⟨put_same s p _,rep_update (fun hm => ?_) hl,rep_update (fun hm => ?_) hr.2.2⟩
          · exact hlr p (by simpa using hm) p (by simp) rfl
          · exact (List.nodup_cons.mp (List.nodup_cons.mp hxr).2).1 hm
        · rw [put_other s hxp,hx]
          simp
        · exact within_put (fun _ hq => hq) hp
      | node a c u₁ u₂ =>
        simp only [BinTree.inorder,List.length_append,List.length_cons] at hf
        obtain ⟨s',hrun,haround,hrep,hkept,hwithin⟩ := relink_joins h hn (show _ < fuel by omega)
        refine ⟨s',?_,haround,hrep,hkept,hwithin⟩
        simp only [BinTree.root,Option.bind_some]
        rw [hrun]
        rfl

theorem unlink_joins (h : Holds s (plug fs (.node x k l r))) (hn : (plug fs (.node x k l r)).addrs.Nodup)
    (hf : r.inorder.length < fuel) :
    ∃ s', unlink fuel (linkOf fs) s = some s' ∧ Holds s' (plug fs (join l r)) ∧
      ∀ p, s'.nodes p ≠ none → s.nodes p ≠ none ∧ p ≠ x := by
  obtain ⟨s₁,hrun,haround,hrep,hkept,hwithin⟩ := replacement_joins h hn hf
  obtain ⟨hfs,htree,hdisj⟩ := (nodup_plug _ _).mp hn
  rw [addrs_node] at htree hdisj
  obtain ⟨-,hxr,hlr⟩ := List.nodup_append.mp htree
  have hxfs : x ∉ aroundAddrs fs := fun hm => hdisj x hm (by simp)
  have hxt : x ∉ (join l r).addrs := by
    rw [addrs_join,List.mem_append,not_or]
    exact ⟨fun hm => hlr x hm x (by simp) rfl,(List.nodup_cons.mp hxr).1⟩
  let s₂ : State K := {s₁ with nodes := Function.update s₁.nodes x none}
  have hfree : s₁.free x = some s₂ := by
    obtain ⟨n,hn⟩ := Option.ne_none_iff_exists'.mp hkept
    simp [State.free,hn,s₂]
  have haround₂ : Around s₂ fs (some x) :=
    around_congr haround rfl fun p hp => Function.update_of_ne (fun he : p = x => hxfs (he ▸ hp)) _ _
  obtain ⟨s₃,hset,haround₃,hsame⟩ := set_hole haround₂ hfs (join l r).root
  have hjoin : ∀ p ∈ (join l r).addrs, p ∉ aroundAddrs fs := by
    intro p hp hm
    rw [addrs_join,List.mem_append] at hp
    exact hdisj p hm (by simp only [List.mem_append,List.mem_cons]; tauto)
  refine ⟨s₃,?_,holds_plug.mpr ⟨haround₃,rep_congr (fun p hp => hsame p (hjoin p hp)) (rep_update hxt hrep)⟩,?_⟩
  · rw [unlink,hrun]
    simp only [Option.bind_eq_bind,Option.bind_some]
    rw [deref_hole haround,Option.bind_some,hfree,Option.bind_some,hset]
  · intro p hp
    by_cases hm : p ∈ aroundAddrs fs
    · obtain ⟨-,ht⟩ := holds_plug.mp h
      have hall := (rep_plug fs _).mpr ⟨(holds_plug.mp h).1.rep,ht⟩
      exact ⟨rep_alive hall ((addrs_plug fs _).mem_iff.mpr (List.mem_append_left _ hm)),fun he => hxfs (he ▸ hm)⟩
    · rw [hsame p hm] at hp
      by_cases he : p = x
      · exact absurd (by rw [he]; exact Function.update_self _ _ _) hp
      · exact ⟨hwithin p (by rwa [show s₂.nodes p = s₁.nodes p from Function.update_of_ne he _ _] at hp),he⟩

end

end Tsearch
