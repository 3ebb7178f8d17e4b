import Mathlib
import Picolibc.Malloc.Transitions

set_option linter.unusedSectionVars false

namespace Malloc

open ByteMemory LinkedList

def Apart (a b : Chunk) : Prop := ¬ (a.loc = .list ∧ b.loc = .list)

def live (cs : List Chunk) : List Nat := (cs.filter (fun c => c.loc = .none)).map Chunk.addr

structure Settled (cfg : Config) (c : Chunk) : Prop where
  bit : c.bit = true ↔ c.loc ≠ .none
  general : c.loc = .list → cfg.isBucketSize c.size = false
  bucket : ∀ b, c.loc = .bucket b → cfg.isBucketSize c.size = true ∧ cfg.bucketNum c.size = b

structure Inv (cfg : Config) (env : Env) (h : Heap) (cs : List Chunk) : Prop where
  wf : WF cfg env h cs
  settled : ∀ c ∈ cs, Settled cfg c
  apart : cs.IsChain Apart

section

variable {xs ys : List Chunk} {c : Chunk} {x : Nat}

@[simp] theorem live_nil : live [] = [] := rfl

@[simp] theorem live_append : live (xs ++ ys) = live xs ++ live ys := by
  simp [live]

theorem live_cons : live (c :: xs) = if c.loc = .none then c.addr :: live xs else live xs := by
  by_cases h : c.loc = .none <;> simp [live,h]

theorem mem_live : x ∈ live xs ↔ ∃ c ∈ xs, c.loc = .none ∧ c.addr = x := by
  simp [live,and_assoc]

theorem apart_append_cons : (xs ++ c :: ys).IsChain Apart ↔ xs.IsChain Apart ∧ ys.IsChain Apart ∧
    (c.loc = .list → (∀ d ∈ xs.getLast?, d.loc ≠ .list) ∧ ∀ d ∈ ys.head?, d.loc ≠ .list) := by
  simp only [List.isChain_append,List.isChain_cons,List.head?_cons,Option.mem_def,
    Option.some.injEq,forall_eq',Apart]
  constructor
  · rintro ⟨h1,⟨h2,h3⟩,h4⟩
    exact ⟨h1,h3,fun hl => ⟨fun d hd hdl => h4 d hd ⟨hdl,hl⟩,fun d hd hdl => h2 d hd ⟨hl,hdl⟩⟩⟩
  · rintro ⟨h1,h3,hl⟩
    exact ⟨h1,⟨fun d hd hdl => (hl hdl.1).2 d hd hdl.2,h3⟩,fun d hd hdl => (hl hdl.2).1 d hd hdl.1⟩

end

section

variable {cfg : Config} {env : Env} (S : Setup cfg env)
  {h h' : Heap} {cs pre post : List Chunk} {c d : Chunk} {t : Nat}

include S

theorem WF.size_eq (hw : WF cfg env h cs) (hm : c ∈ cs) : h.size cfg c.addr = c.size := by
  have hs := (hw.sizes c hm).1
  have hb := Bool.toNat_le c.bit
  rw [Heap.size,hw.header c hm]
  rcases S.std.word with hx | hx <;> rw [hx] at hs <;> omega

theorem WF.isFree_eq (hw : WF cfg env h cs) (hm : c ∈ cs) : h.isFree cfg c.addr = c.bit := by
  have hs := (hw.sizes c hm).1
  rw [Heap.isFree,hw.header c hm]
  have hev : c.size % 2 = 0 := by rcases S.std.word with hx | hx <;> rw [hx] at hs <;> omega
  cases hbit : c.bit <;> simp [Nat.add_mod,hev]

theorem WF.fuel_lt (hw : WF cfg env h cs) : (listed cs).length < fuel cfg := by
  have hsub : (listed cs).toFinset ⊆ (Finset.range (256 ^ cfg.headSize)).erase 0 := by
    intro x hx
    obtain ⟨d,hd,-,rfl⟩ := mem_listed.mp (List.mem_toFinset.mp hx)
    simp [(hw.addr S hd).2,(hw.extent S hd).2.1]
  have hcard := Finset.card_le_card hsub
  rw [List.toFinset_card_of_nodup (hw.listed_nodup S),Finset.card_erase_of_mem (by simp),
    Finset.card_range] at hcard
  have hpos : 0 < 256 ^ cfg.headSize := by positivity
  have hfuel : fuel cfg = 256 ^ cfg.headSize := by rw [fuel,S.std.chunk,Nat.pow_mul]
  omega

theorem WF.get_next_listed (hw : WF cfg env h (pre ++ c :: post)) (hcl : c.loc = .list) :
    h.get cfg (slotOf (listed pre)) = c.addr := by
  obtain ⟨q,-,htail,hq⟩ := hw.listed_split S
  rw [listed_cons,if_pos hcl] at htail
  exact hq.trans htail.1

theorem WF.seg_post (hw : WF cfg env h (pre ++ c :: post)) :
    Seg (h.next cfg) (h.get cfg (slotOf (listed (pre ++ [c])))) (listed post) 0 := by
  have hlist := hw.list
  rw [List.append_cons,listed_append,seg_append] at hlist
  obtain ⟨q,hseg,htail⟩ := hlist
  rw [get_slotOf hseg]
  exact htail

theorem listed_snoc (hn : c.loc ≠ .list) : listed (pre ++ [c]) = listed pre := by
  simp [listed_cons,hn]

theorem WF.get_after (hw : WF cfg env h (pre ++ c :: post)) :
    h.get cfg (slotOf (listed (pre ++ [c]))) = 0 ∧ listed post = [] ∨
      c.addr + c.size ≤ h.get cfg (slotOf (listed (pre ++ [c]))) := by
  have hseg := hw.seg_post S
  cases hlp : listed post with
  | nil =>
    rw [hlp] at hseg
    exact .inl ⟨hseg,rfl⟩
  | cons x xs =>
    rw [hlp] at hseg
    obtain ⟨d,hd,-,rfl⟩ := mem_listed.mp (show x ∈ listed post by simp [hlp])
    exact .inr (hseg.1 ▸ (hw.order S).2 d hd)

theorem findFree_walk (hw : WF cfg env h (pre ++ c :: post)) (hcn : c.loc = .none) (p1 p2 : List Chunk)
    (hp : pre = p1 ++ p2) (hlast : p2 = [] → ∀ d ∈ p1.getLast?, d.loc ≠ .list)
    (n : Nat) (hf : (listed p2).length < n) :
    (∃ pre' q, pre = pre' ++ [q] ∧ q.loc = .list ∧
      findFree cfg h c.addr n (slotOf (listed p1)) = some (.merge (slotOf (listed pre')) q.addr)) ∨
    ((∀ d ∈ pre.getLast?, d.loc ≠ .list) ∧ findFree cfg h c.addr n (slotOf (listed p1)) =
      some (.insert (slotOf (listed pre)) (h.get cfg (slotOf (listed pre))))) := by
  have hcpos := hw.pos S (show c ∈ pre ++ c :: post by simp)
  induction p2 generalizing p1 n with
  | nil =>
    right
    rw [List.append_nil] at hp
    subst hp
    refine ⟨hlast rfl,?_⟩
    obtain ⟨n,rfl⟩ : ∃ k, n = k + 1 := ⟨n - 1,by simp at hf; omega⟩
    have hget := hw.get_after S
    rw [listed_snoc S (by simp [hcn])] at hget
    simp only [findFree]
    split_ifs with h0 hle heq
    · rw [h0]
    all_goals first | rfl | omega
  | cons x p2 ih =>
    by_cases hxl : x.loc = .list
    · subst hp
      have hw' : WF cfg env h (p1 ++ x :: (p2 ++ c :: post)) := by simpa using hw
      have hget := hw'.get_next_listed S hxl
      have hxa := hw'.addr S (show x ∈ p1 ++ x :: (p2 ++ c :: post) by simp)
      have hlt := (hw'.order S).2 c (by simp)
      have hxpos := hw'.pos S (show x ∈ p1 ++ x :: (p2 ++ c :: post) by simp)
      have hsize := hw'.size_eq S (show x ∈ p1 ++ x :: (p2 ++ c :: post) by simp)
      rw [listed_cons,if_pos hxl,List.length_cons] at hf
      obtain ⟨n,rfl⟩ : ∃ k, n = k + 1 := ⟨n - 1,by omega⟩
      have hstep : findFree cfg h c.addr (n + 1) (slotOf (listed p1)) =
          if x.addr + x.size = c.addr then some (.merge (slotOf (listed p1)) x.addr)
          else findFree cfg h c.addr n (.next x.addr) := by
        rw [findFree]
        simp only [hget,Heap.chunkAfter,hsize]
        rw [if_neg hxa.2,if_neg (by omega)]
      rw [hstep]
      cases p2 with
      | nil =>
        left
        refine ⟨p1,x,rfl,hxl,?_⟩
        obtain ⟨m,-,h1,h2,-⟩ := tiles_split.mp (hw'.region_of_mem S (c := x) (by simp)).tiles
        rw [if_pos (by omega)]
      | cons y p2 =>
        have hy := (hw'.order S).2 y (by simp)
        have hypos := hw'.pos S (show y ∈ p1 ++ x :: (y :: p2 ++ c :: post) by simp)
        have hyc : y.addr + y.size ≤ c.addr := (hw.order S).1 y (by simp)
        rw [if_neg (by omega)]
        have := ih (p1 ++ [x]) (by simp) (by simp) n (by omega)
        rwa [show slotOf (listed (p1 ++ [x])) = .next x.addr by simp [listed_cons,hxl]] at this
    · have hs : listed (p1 ++ [x]) = listed p1 := listed_snoc S hxl
      rw [listed_cons,if_neg hxl] at hf
      have := ih (p1 ++ [x]) (by simp [hp]) (by simpa using fun _ => hxl) n hf
      rwa [hs] at this

theorem findFree_spec (hw : WF cfg env h (pre ++ c :: post)) (hcn : c.loc = .none) :
    (∃ pre' q, pre = pre' ++ [q] ∧ q.loc = .list ∧
      findFree cfg h c.addr (fuel cfg) .head = some (.merge (slotOf (listed pre')) q.addr)) ∨
    ((∀ d ∈ pre.getLast?, d.loc ≠ .list) ∧ findFree cfg h c.addr (fuel cfg) .head =
      some (.insert (slotOf (listed pre)) (h.get cfg (slotOf (listed pre))))) := by
  have hf := hw.fuel_lt S
  rw [listed_append,List.length_append] at hf
  exact findFree_walk S hw hcn [] pre rfl (by simp) (fuel cfg) (by omega)

theorem WF.ne_of_linked (hw : WF cfg env h cs) (hd : d ∈ cs) (hl : d.loc ≠ .none) :
    ∀ x ∈ cs, x.loc = .none → x.addr ≠ d.addr := by
  intro x hx hxn hxa
  exact hl (hw.eq_of_addr S hx hd hxa ▸ hxn)

theorem Keeps.trans_linked {u : Nat} {h'' : Heap} {cs' cs'' : List Chunk}
    (k : Keeps cfg t h h' cs cs') (k' : Keeps cfg u h' h'' cs' cs'')
    (hu : ∀ x ∈ cs, x.loc = .none → x.addr ≠ u) : Keeps cfg t h h'' cs cs'' := by
  intro x hx hxn hxt
  obtain ⟨hm,hb⟩ := k x hx hxn hxt
  obtain ⟨hm',hb'⟩ := k' x hm hxn (hu x hx hxn)
  exact ⟨hm',fun a ha ha' => (hb' a ha ha').trans (hb a ha ha')⟩

theorem setNext_setSizeRef_comm (hca : ChunkAddr cfg t) (u v : Nat) :
    (h.setSizeRef cfg t v).setNext cfg t u = (h.setNext cfg t u).setSizeRef cfg t v := by
  have hl := ChunkAddr.le S.std hca
  have hmem : store (store h.mem (t - cfg.headSize) cfg.headSize v) t cfg.mallocChunkSize u =
      store (store h.mem t cfg.mallocChunkSize u) (t - cfg.headSize) cfg.headSize v :=
    store_comm (by omega)
  simp only [Heap.setSizeRef,Heap.setNext,hmem]

theorem mergeNext_spec (t : Nat) (hw : WF cfg env h (pre ++ c :: post)) (hcl : c.loc = .list) :
    ((∀ d ∈ post.head?, d.loc ≠ .list) ∧ mergeNext cfg h c.addr (h.next cfg c.addr) = h) ∨
    (∃ d post', post = d :: post' ∧ d.loc = .list ∧
      WF cfg env (mergeNext cfg h c.addr (h.next cfg c.addr))
        (pre ++ { c with size := c.size + d.size } :: post') ∧
      Keeps cfg t h (mergeNext cfg h c.addr (h.next cfg c.addr)) (pre ++ c :: post)
        (pre ++ { c with size := c.size + d.size } :: post')) := by
  have hcm : c ∈ pre ++ c :: post := by simp
  have hca := hw.addr S hcm
  have hslot : slotOf (listed (pre ++ [c])) = .next c.addr := by simp [listed_cons,hcl]
  have hafter : h.chunkAfter cfg c.addr = c.addr + c.size := by
    rw [Heap.chunkAfter,hw.size_eq S hcm]
  cases post with
  | nil =>
    left
    have hnil := (hw.get_after S).resolve_right
    rw [hslot] at hnil
    refine ⟨by simp,?_⟩
    rw [mergeNext,hafter,if_neg]
    intro heq
    have hseg := hw.seg_post S
    rw [hslot] at hseg
    have hz : h.next cfg c.addr = 0 := hseg
    have := hca.2
    omega
  | cons d post =>
    have hw' : WF cfg env h ((pre ++ [c]) ++ d :: post) := by simpa using hw
    have hdm : d ∈ pre ++ c :: d :: post := by simp
    have hda : c.addr + c.size = d.addr := by
      obtain ⟨m,-,h1,h2,-⟩ := tiles_split.mp (hw.region_of_mem S hcm).tiles
      omega
    by_cases hdl : d.loc = .list
    · right
      refine ⟨d,post,rfl,hdl,?_⟩
      have hnext : h.next cfg c.addr = d.addr := by
        have := hw'.get_next_listed S hdl
        rwa [hslot] at this
      have hun := hw'.unlink S hdl
      have hku := hw'.keeps_unlink S (h.next cfg d.addr) .none (t := t) (by simp [hdl])
      rw [hslot] at hun hku
      have hun' : WF cfg env (h.setNext cfg c.addr (h.next cfg d.addr))
          (pre ++ c :: { d with loc := .none } :: post) := by simpa [Heap.set] using hun
      have hku' : Keeps cfg t h (h.setNext cfg c.addr (h.next cfg d.addr)) (pre ++ c :: d :: post)
          (pre ++ c :: { d with loc := .none } :: post) := by simpa [Heap.set] using hku
      have heq : mergeNext cfg h c.addr (h.next cfg c.addr) =
          (h.setNext cfg c.addr (h.next cfg d.addr)).setSizeRef cfg c.addr
            (c.size + d.size + c.bit.toNat) := by
        rw [mergeNext,hafter,hnext,if_pos hda,← setNext_setSizeRef_comm S hca]
        dsimp only
        rw [next_setSizeRef S.std hca (hw.addr S hdm),hw.header c hcm,hw.size_eq S hdm]
        rw [show c.size + c.bit.toNat + d.size = c.size + d.size + c.bit.toNat by omega]
      rw [heq]
      refine ⟨hun'.absorb S rfl,hku'.trans_linked S
        (hun'.keeps_absorb S (t := d.addr) _ (by simp [hcl]) (by simp)) ?_⟩
      exact hw.ne_of_linked S hdm (by simp [hdl])
    · left
      refine ⟨by simpa using hdl,?_⟩
      have hget := hw'.get_after S
      rw [listed_snoc S hdl,hslot] at hget
      have hdpos := hw.pos S hdm
      rw [mergeNext,hafter,if_neg]
      intro heq
      have hz : h.get cfg (.next c.addr) = h.next cfg c.addr := rfl
      have := hca.2
      omega

theorem migrate_spec (t : Nat) (hw : WF cfg env h (pre ++ c :: post)) (hcl : c.loc = .list) :
    ∃ loc, (loc = .list ∧ cfg.isBucketSize c.size = false ∨
        cfg.isBucketSize c.size = true ∧ loc = .bucket (cfg.bucketNum c.size)) ∧
      WF cfg env (migrate cfg h (slotOf (listed pre)) c.addr) (pre ++ { c with loc := loc } :: post) ∧
      Keeps cfg t h (migrate cfg h (slotOf (listed pre)) c.addr) (pre ++ c :: post)
        (pre ++ { c with loc := loc } :: post) := by
  have hcm : c ∈ pre ++ c :: post := by simp
  have hsz := hw.size_eq S hcm
  by_cases hb : cfg.isBucketSize c.size = true
  · refine ⟨.bucket (cfg.bucketNum c.size),.inr ⟨hb,rfl⟩,?_⟩
    have heq : migrate cfg h (slotOf (listed pre)) c.addr =
        (h.set cfg (slotOf (listed pre)) (h.next cfg c.addr)).pushBucket cfg
          (cfg.bucketNum c.size) c.addr := by
      simp only [migrate,hsz,hb,if_true]
    rw [heq]
    have hun := hw.unlink S hcl
    have hpush := hun.pushBucket S (cfg.bucketNum c.size) rfl
    refine ⟨hpush,?_⟩
    have hku := hw.keeps_unlink S (h.next cfg c.addr) .none (t := t) (by simp [hcl])
    refine hku.trans_linked S (u := c.addr) ?_ (hw.ne_of_linked S hcm (by simp [hcl]))
    exact hun.keeps_pushBucket S _ rfl
  · refine ⟨.list,.inl ⟨rfl,by simpa using hb⟩,?_⟩
    have heq : migrate cfg h (slotOf (listed pre)) c.addr = h := by
      simp only [migrate,hsz,hb]
      simp
    have hsame : ({ c with loc := .list } : Chunk) = c := by cases c; simp_all
    rw [heq,hsame]
    exact ⟨hw,Keeps.refl _ _ _ _⟩

theorem settle (t : Nat) (hw : WF cfg env h (pre ++ c :: post)) (hcl : c.loc = .list) (hcb : c.bit = true)
    (hset : ∀ d, d ∈ pre ∨ d ∈ post → Settled cfg d) (hpre : pre.IsChain Apart)
    (hpost : post.IsChain Apart) (hlast : ∀ d ∈ pre.getLast?, d.loc ≠ .list) :
    ∃ h' cs', migrate cfg (mergeNext cfg h c.addr (h.next cfg c.addr)) (slotOf (listed pre)) c.addr = h' ∧
      Inv cfg env h' cs' ∧ Keeps cfg t h h' (pre ++ c :: post) cs' ∧
      live cs' = live pre ++ live post := by
  rcases mergeNext_spec S t hw hcl with ⟨hhead,heq⟩ | ⟨d,post,rfl,hdl,hw1,hk1⟩
  · rw [heq]
    obtain ⟨loc,hloc,hw2,hk2⟩ := migrate_spec S t hw hcl
    refine ⟨_,_,rfl,⟨hw2,?_,?_⟩,hk2,?_⟩
    · intro x hx
      simp only [List.mem_append,List.mem_cons] at hx
      rcases hx with hx | rfl | hx
      · exact hset x (.inl hx)
      · rcases hloc with ⟨rfl,hb⟩ | ⟨hb,rfl⟩
        · exact ⟨by simp [hcb],fun _ => hb,by simp⟩
        · exact ⟨by simp [hcb],by simp,by simp [hb]⟩
      · exact hset x (.inr hx)
    · exact apart_append_cons.mpr ⟨hpre,hpost,fun _ => ⟨hlast,hhead⟩⟩
    · rcases hloc with ⟨rfl,-⟩ | ⟨-,rfl⟩ <;> simp [live_cons]
  · obtain ⟨loc,hloc,hw2,hk2⟩ := migrate_spec S t hw1 hcl
    rw [List.isChain_cons] at hpost
    refine ⟨_,_,rfl,⟨hw2,?_,?_⟩,hk1.trans hk2,?_⟩
    · intro x hx
      simp only [List.mem_append,List.mem_cons] at hx
      rcases hx with hx | rfl | hx
      · exact hset x (.inl hx)
      · rcases hloc with ⟨rfl,hb⟩ | ⟨hb,rfl⟩
        · exact ⟨by simp [hcb],fun _ => hb,by simp⟩
        · exact ⟨by simp [hcb],by simp,by simp at hb ⊢; exact hb⟩
      · exact hset x (.inr (by simp [hx]))
    · refine apart_append_cons.mpr ⟨hpre,hpost.2,fun _ => ⟨hlast,?_⟩⟩
      intro e he hel
      exact hpost.1 e he ⟨hdl,hel⟩
    · rcases hloc with ⟨rfl,-⟩ | ⟨-,rfl⟩ <;> simp [live_cons,hdl]

def detach (cfg : Config) (h : Heap) (ptr : Nat) : Heap :=
  (if cfg.clearFreed then h.memset ptr 0 (h.chunkUsable cfg ptr) else h.setNext cfg ptr 0).markFree cfg ptr

theorem detach_spec (hw : WF cfg env h (pre ++ c :: post)) (hcn : c.loc = .none) :
    WF cfg env (detach cfg h c.addr) (pre ++ { c with bit := true } :: post) ∧
      Keeps cfg c.addr h (detach cfg h c.addr) (pre ++ c :: post) (pre ++ { c with bit := true } :: post) := by
  have hcm : c ∈ pre ++ c :: post := by simp
  have hs := (hw.sizes c hcm).2
  obtain ⟨g,hg,hwg,hkg⟩ : ∃ g, g = (if cfg.clearFreed then h.memset c.addr 0 (h.chunkUsable cfg c.addr)
      else h.setNext cfg c.addr 0) ∧ WF cfg env g (pre ++ c :: post) ∧
      Keeps cfg c.addr h g (pre ++ c :: post) (pre ++ c :: post) := by
    refine ⟨_,rfl,?_⟩
    split_ifs
    · have hm : ∀ a, a < c.addr ∨ c.addr + c.size ≤ a + cfg.headSize →
          fill h.mem c.addr 0 (h.chunkUsable cfg c.addr) a = h.mem a := by
        intro a ha
        apply fill_apart
        rw [Heap.chunkUsable,Config.mallocSize,hw.size_eq S hcm]
        omega
      exact ⟨hw.payload S hcm hcn hm,hw.keeps_payload S hcm rfl hm⟩
    · exact ⟨hw.setLink S hcm hcn 0,hw.keeps_setLink S hcm 0 (fun _ => rfl)⟩
  have heq : detach cfg h c.addr = g.setSizeRef cfg c.addr (c.size + true.toNat) := by
    have hsz := hwg.size_eq S hcm
    rw [detach,← hg,Heap.markFree]
    rw [Heap.size] at hsz
    rw [hsz]
    rfl
  rw [heq]
  exact ⟨hwg.setHeader S true,hkg.trans (hwg.keeps_setHeader S true (fun _ => rfl))⟩

theorem free_spec (hi : Inv cfg env h (pre ++ c :: post)) (hcn : c.loc = .none) :
    ∃ h' cs', mallocFree cfg h c.addr = some h' ∧ Inv cfg env h' cs' ∧
      Keeps cfg c.addr h h' (pre ++ c :: post) cs' ∧ live cs' = live pre ++ live post := by
  have hw := hi.wf
  have hcm : c ∈ pre ++ c :: post := by simp
  have hbit : c.bit = false := by
    have := (hi.settled c hcm).bit
    simpa [hcn] using this
  have hset : ∀ d, d ∈ pre ∨ d ∈ post → Settled cfg d := by
    intro d hd
    exact hi.settled d (by rcases hd with hd | hd <;> simp [hd])
  obtain ⟨hpre,hpost,-⟩ := apart_append_cons.mp hi.apart
  obtain ⟨hw2,hk2⟩ := detach_spec S hw hcn
  have hsz : (detach cfg h c.addr).size cfg c.addr = c.size :=
    hw2.size_eq S (c := { c with bit := true }) (by simp)
  rw [mallocFree,if_neg (hw.addr S hcm).2,if_neg (by simp [hw.isFree_eq S hcm,hbit])]
  simp only [← detach.eq_1,hsz]
  generalize detach cfg h c.addr = g at *
  by_cases hb : cfg.isBucketSize c.size = true
  · rw [if_pos hb]
    refine ⟨_,_,rfl,⟨hw2.pushBucket S (cfg.bucketNum c.size) hcn,?_,?_⟩,
      hk2.trans (hw2.keeps_pushBucket S _ rfl),by simp [live_cons]⟩
    · intro x hx
      simp only [List.mem_append,List.mem_cons] at hx
      rcases hx with hx | rfl | hx
      · exact hset x (.inl hx)
      · exact ⟨by simp,by simp,by simp [hb]⟩
      · exact hset x (.inr hx)
    · exact apart_append_cons.mpr ⟨hpre,hpost,by simp⟩
  · rw [if_neg hb]
    rcases findFree_spec S hw2 hcn with ⟨pre,q,rfl,hql,hfind⟩ | ⟨hlast,hfind⟩
    · have hqm : q ∈ pre ++ [q] ++ c :: post := by simp
      have hw3 : WF cfg env g (pre ++ q :: { c with bit := true } :: post) := by simpa using hw2
      have hqs : Settled cfg q := hset q (.inl (by simp))
      have hval : g.sizeRef cfg q.addr + c.size = q.size + c.size + q.bit.toNat := by
        have hh := hw3.header q (by simp)
        omega
      simp only [hfind,hval]
      have hab := hw3.absorb S hcn
      have hkab := hw3.keeps_absorb S (q.size + c.size + q.bit.toNat) (t := c.addr)
        (by simp [hql]) (fun _ => rfl)
      rw [apart_append_cons] at hpre
      obtain ⟨h',cs',heq,hinv,hk,hlive⟩ := settle S c.addr hab hql
        (hqs.bit.mpr (by simp [hql])) (fun d hd => hset d (hd.imp_left (fun hd => by simp [hd])))
        hpre.1 hpost (hpre.2.2 hql).1
      have hk3 : Keeps cfg c.addr h g (pre ++ q :: c :: post)
          (pre ++ q :: { c with bit := true } :: post) := by simpa using hk2
      refine ⟨h',cs',congrArg some heq,hinv,?_,by simpa [live_cons,hql] using hlive⟩
      simpa using (hk3.trans hkab).trans hk
    · simp only [hfind]
      have hins := hw2.insert S hcn rfl
      have hkins := hw2.keeps_insert S hcn (g.get cfg (slotOf (listed pre))) rfl
      have hnext := hw2.next_insert S hcn rfl
      obtain ⟨h',cs',heq,hinv,hk,hlive⟩ := settle S c.addr hins rfl rfl hset hpre hpost hlast
      dsimp only at heq hnext
      rw [hnext] at heq
      exact ⟨h',cs',congrArg some heq,hinv,(hk2.trans hkins).trans hk,hlive⟩

end

end Malloc
