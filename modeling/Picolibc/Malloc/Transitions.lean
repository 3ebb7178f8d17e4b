import Mathlib
import Picolibc.Malloc.Wellformed

set_option linter.unusedSectionVars false

namespace Malloc

open ByteMemory LinkedList

structure SameGlobals (h h' : Heap) : Prop where
  start : h'.sbrkStart = h.sbrkStart
  top : h'.sbrkTop = h.sbrkTop
  brk : h'.brk = h.brk

theorem SameGlobals.refl (h : Heap) : SameGlobals h h := ⟨rfl,rfl,rfl⟩

theorem SameGlobals.trans {h h' h'' : Heap} (s : SameGlobals h h') (s' : SameGlobals h' h'') :
    SameGlobals h h'' :=
  ⟨s'.start.trans s.start,s'.top.trans s.top,s'.brk.trans s.brk⟩

theorem sameGlobals_set (cfg : Config) (h : Heap) (p : Slot) (v : Nat) :
    SameGlobals h (h.set cfg p v) := by
  cases p <;> exact ⟨rfl,rfl,rfl⟩

theorem freeList_set_next (cfg : Config) (h : Heap) (c v : Nat) :
    (h.set cfg (.next c) v).freeList = h.freeList := rfl

theorem bucketList_set (cfg : Config) (h : Heap) (p : Slot) (v : Nat) :
    (h.set cfg p v).bucketList = h.bucketList := by
  cases p <;> rfl

namespace WF

variable {cfg : Config} {env : Env} (S : Setup cfg env)
  {h h' : Heap} {cs pre mid mid' post : List Chunk} {c d : Chunk} {t : Nat}

include S

theorem region_replace (pre mid mid' post : List Chunk) (hw : WF cfg env h (pre ++ (mid ++ post)))
    (hg : SameGlobals h h') (hne : mid ≠ [])
    (ht : ∀ a b, Tiles cfg.headSize a mid b → Tiles cfg.headSize a mid' b) :
    Region cfg h' (pre ++ (mid' ++ post)) := by
  rcases hw.region with ⟨-,hnil⟩ | hr
  · simp [hne] at hnil
  · refine ⟨by rw [hg.start]; exact hr.start,?_,by rw [hg.start]; exact hr.aligned,
      by rw [hg.brk,hg.top]; exact hr.brk⟩
    have htiles := hr.tiles
    rw [hg.start,hg.top]
    simp only [tiles_append] at htiles ⊢
    obtain ⟨m,h1,k,h2,h3⟩ := htiles
    exact ⟨m,h1,k,ht _ _ h2,h3⟩

theorem reheader (pre mid mid' post : List Chunk) (hw : WF cfg env h (pre ++ (mid ++ post)))
    (hg : SameGlobals h h') (hfl : h'.freeList = h.freeList) (hbl : h'.bucketList = h.bucketList)
    (hn : ∀ d ∈ pre ++ (mid ++ post), d.loc ≠ .none → h'.next cfg d.addr = h.next cfg d.addr)
    (hh : ∀ d, d ∈ pre ∨ d ∈ post → h'.sizeRef cfg d.addr = h.sizeRef cfg d.addr)
    (hne : mid ≠ []) (ht : ∀ a b, Tiles cfg.headSize a mid b → Tiles cfg.headSize a mid' b)
    (hs : ∀ d ∈ mid', d.size % (2 * cfg.headSize) = 0 ∧ 2 * cfg.headSize ≤ d.size)
    (hd : ∀ d ∈ mid', h'.sizeRef cfg d.addr = d.size + d.bit.toNat)
    (hl : listed mid' = listed mid) (hb : ∀ b, bucketed b mid' = bucketed b mid) :
    WF cfg env h' (pre ++ (mid' ++ post)) := by
  refine ⟨.inr (hw.region_replace S pre mid mid' post hg hne ht),?_,?_,?_,?_,
    by rw [hg.brk]; exact hw.bound⟩
  · intro x hx
    simp only [List.mem_append] at hx
    rcases hx with hx | hx | hx
    · exact hw.sizes x (by simp [hx])
    · exact hs x hx
    · exact hw.sizes x (by simp [hx])
  · intro x hx
    simp only [List.mem_append] at hx
    rcases hx with hx | hx | hx
    · rw [hh x (.inl hx)]; exact hw.header x (by simp [hx])
    · exact hd x hx
    · rw [hh x (.inr hx)]; exact hw.header x (by simp [hx])
  · have hlist := hw.list
    simp only [listed_append] at hlist ⊢
    rw [hfl,hl]
    refine seg_congr ?_ hlist
    intro x hx
    obtain ⟨d,hdm,hdl,rfl⟩ := mem_listed.mp (by simpa only [listed_append] using hx :
      x ∈ listed (pre ++ (mid ++ post)))
    exact hn d hdm (by simp [hdl])
  · intro b
    obtain ⟨xs,hseg,hp⟩ := hw.buckets b
    refine ⟨xs,?_,?_⟩
    · rw [hbl]
      refine seg_congr ?_ hseg
      intro x hx
      obtain ⟨d,hdm,hdl,rfl⟩ := mem_bucketed.mp (hp.mem_iff.mp hx)
      exact hn d hdm (by simp [hdl])
    · simpa only [bucketed_append,hb] using hp

theorem setHeader (bit : Bool) (hw : WF cfg env h (pre ++ c :: post)) :
    WF cfg env (h.setSizeRef cfg c.addr (c.size + bit.toNat)) (pre ++ { c with bit := bit } :: post) := by
  have hcm : c ∈ pre ++ c :: post := by simp
  have hca := hw.addr S hcm
  have hx := hw.extent S hcm
  have hbit : bit.toNat ≤ 1 := Bool.toNat_le bit
  refine reheader S pre [c] [{ c with bit := bit }] post hw ⟨rfl,rfl,rfl⟩ rfl rfl ?_ ?_ (by simp)
    (fun _ _ ht => ht) ?_ ?_ (by simp [listed_cons]) (by simp [bucketed_cons])
  · intro d hd _
    exact next_setSizeRef S.std hca (hw.addr S hd)
  · intro d hd
    have hdm : d ∈ pre ++ c :: post := by rcases hd with hd | hd <;> simp [hd]
    exact sizeRef_setSizeRef_ne S.std hca (hw.addr S hdm) (hw.ne_addr S hd)
  · simpa using hw.sizes c (by simp)
  · simpa using sizeRef_setSizeRef_same (by omega)

theorem next_outside (hw : WF cfg env h cs) (hcm : c ∈ cs) (hn : c.loc = .none) {m : Mem}
    (hm : ∀ a, a < c.addr ∨ c.addr + c.size ≤ a + cfg.headSize → m a = h.mem a)
    (hd : d ∈ cs) (hdl : d.loc ≠ .none) :
    load m d.addr cfg.mallocChunkSize = h.next cfg d.addr := by
  refine load_congr (fun a ha ha' => hm a ?_)
  rw [S.std.chunk] at ha'
  have hne : c.addr ≠ d.addr := fun he => hdl (hw.eq_of_addr S hcm hd he ▸ hn)
  have := hw.payload_apart S hcm hd hne
  have := (hw.sizes d hd).2
  omega

theorem payload (hw : WF cfg env h cs) (hcm : c ∈ cs) (hn : c.loc = .none) {m : Mem}
    (hm : ∀ a, a < c.addr ∨ c.addr + c.size ≤ a + cfg.headSize → m a = h.mem a) :
    WF cfg env { h with mem := m } cs := by
  have hx := S.std.word_pos
  have hcs := (hw.sizes c hcm).2
  refine ⟨?_,hw.sizes,?_,?_,?_,hw.bound⟩
  · exact hw.region.imp_right (fun hr => ⟨hr.start,hr.tiles,hr.aligned,hr.brk⟩)
  · intro d hd
    rw [← hw.header d hd]
    refine load_congr (fun a ha ha' => hm a ?_)
    have hda := ChunkAddr.le S.std (hw.addr S hd)
    by_cases he : c.addr = d.addr
    · omega
    · have := hw.payload_apart S hcm hd he
      omega
  · refine seg_congr ?_ hw.list
    intro x hxl
    obtain ⟨d,hd,hdl,rfl⟩ := mem_listed.mp hxl
    exact hw.next_outside S hcm hn hm hd (by simp [hdl])
  · intro b
    obtain ⟨xs,hseg,hp⟩ := hw.buckets b
    refine ⟨xs,seg_congr ?_ hseg,hp⟩
    intro x hxl
    obtain ⟨d,hd,hdl,rfl⟩ := mem_bucketed.mp (hp.mem_iff.mp hxl)
    exact hw.next_outside S hcm hn hm hd (by simp [hdl])

theorem off_header {a : Nat} (hw : WF cfg env h cs) (hcm : c ∈ cs) (hd : d ∈ cs)
    (ha : d.addr ≤ a) (ha' : a + cfg.headSize < d.addr + d.size) :
    a < c.addr - cfg.headSize ∨ c.addr - cfg.headSize + cfg.headSize ≤ a := by
  have hca := ChunkAddr.le S.std (hw.addr S hcm)
  by_cases he : c.addr = d.addr
  · omega
  · have := hw.payload_apart S hcm hd he
    have := (hw.sizes c hcm).2
    omega

theorem off_link {a : Nat} (hw : WF cfg env h cs) (hcm : c ∈ cs) (hd : d ∈ cs)
    (hne : c.addr ≠ d.addr) (ha : d.addr ≤ a) (ha' : a + cfg.headSize < d.addr + d.size) :
    a < c.addr ∨ c.addr + cfg.headSize ≤ a := by
  have := hw.payload_apart S hcm hd hne
  have := (hw.sizes c hcm).2
  omega

theorem keeps_replace (pre mid mid' post : List Chunk)
    (hmid : ∀ d ∈ mid, d.loc = .none → d.addr = t)
    (hm : ∀ d, d ∈ pre ∨ d ∈ post → d.loc = .none → ∀ a, d.addr ≤ a →
      a + cfg.headSize < d.addr + d.size → h'.mem a = h.mem a) :
    Keeps cfg t h h' (pre ++ (mid ++ post)) (pre ++ (mid' ++ post)) := by
  intro d hd hn ht
  simp only [List.mem_append] at hd
  rcases hd with hd | hd | hd
  · exact ⟨by simp [hd],hm d (.inl hd) hn⟩
  · exact absurd (hmid d hd hn) ht
  · exact ⟨by simp [hd],hm d (.inr hd) hn⟩

theorem keeps_setHeader (bit : Bool) (hw : WF cfg env h (pre ++ c :: post))
    (ht : c.loc = .none → c.addr = t) :
    Keeps cfg t h (h.setSizeRef cfg c.addr (c.size + bit.toNat)) (pre ++ c :: post)
      (pre ++ { c with bit := bit } :: post) := by
  refine keeps_replace S pre [c] [{ c with bit := bit }] post (by simpa using ht) ?_
  intro d hd _ a ha ha'
  have hdm : d ∈ pre ++ c :: post := by rcases hd with hd | hd <;> simp [hd]
  exact store_apart (hw.off_header S (by simp) hdm ha ha')

theorem keeps_payload (hw : WF cfg env h cs) (hcm : c ∈ cs) {m : Mem} (ht : c.addr = t)
    (hm : ∀ a, a < c.addr ∨ c.addr + c.size ≤ a + cfg.headSize → m a = h.mem a) :
    Keeps cfg t h { h with mem := m } cs cs := by
  intro d hd _ hdt
  refine ⟨hd,fun a ha ha' => hm a ?_⟩
  have := hw.payload_apart S hcm hd (by rw [ht]; exact hdt.symm)
  have := S.std.word_pos
  omega

theorem split {n m : Nat} (b b' : Bool) (hw : WF cfg env h (pre ++ c :: post))
    (hcs : c.size = n + m) (hn : n % (2 * cfg.headSize) = 0 ∧ 2 * cfg.headSize ≤ n)
    (hm : m % (2 * cfg.headSize) = 0 ∧ 2 * cfg.headSize ≤ m) :
    WF cfg env ((h.setSizeRef cfg c.addr (n + b.toNat)).setSizeRef cfg (c.addr + n) (m + b'.toNat))
      (pre ++ { c with size := n, bit := b } :: ⟨c.addr + n,m,b',.none⟩ :: post) := by
  have hcm : c ∈ pre ++ c :: post := by simp
  have hca := hw.addr S hcm
  have hx := hw.extent S hcm
  have ho := hw.order S
  have hw0 := S.std.word_pos
  have hb := Bool.toNat_le b
  have hb' := Bool.toNat_le b'
  have hsa : ChunkAddr cfg (c.addr + n) := by
    refine ⟨?_,by omega⟩
    rw [Nat.add_mod,hca.1,hn.1]
    simp
  have hsz : c.addr ≠ c.addr + n := by omega
  have hne : ∀ d, d ∈ pre ∨ d ∈ post → d ∈ pre ++ c :: post ∧ d.addr ≠ c.addr ∧ d.addr ≠ c.addr + n := by
    intro d hd
    have hdm : d ∈ pre ++ c :: post := by rcases hd with hd | hd <;> simp [hd]
    refine ⟨hdm,hw.ne_addr S hd,?_⟩
    rcases hd with hd | hd
    · have := ho.1 d hd
      omega
    · have := ho.2 d hd
      omega
  refine reheader S pre [c] [{ c with size := n, bit := b },⟨c.addr + n,m,b',.none⟩] post hw
    ⟨rfl,rfl,rfl⟩ rfl rfl ?_ ?_ (by simp) ?_ ?_ ?_ (by simp [listed_cons]) (by simp [bucketed_cons])
  · intro d hd _
    have hda := hw.addr S hd
    rw [next_setSizeRef S.std hsa hda,next_setSizeRef S.std hca hda]
  · intro d hd
    obtain ⟨hdm,h1,h2⟩ := hne d hd
    have hda := hw.addr S hdm
    rw [sizeRef_setSizeRef_ne S.std hsa hda h2,sizeRef_setSizeRef_ne S.std hca hda h1]
  · rintro a e ⟨h1,h2⟩
    obtain rfl : a + c.size = e := h2
    exact ⟨h1,by simp only [h1]; omega,by simp only [Tiles]; omega⟩
  · simpa using ⟨hn,hm⟩
  · simp only [List.mem_cons,List.not_mem_nil,or_false,forall_eq_or_imp,forall_eq]
    refine ⟨?_,sizeRef_setSizeRef_same (by omega)⟩
    rw [sizeRef_setSizeRef_ne S.std hsa hca hsz,sizeRef_setSizeRef_same (by omega)]

theorem keeps_split {n m : Nat} (b b' : Bool) (hw : WF cfg env h (pre ++ c :: post))
    (hcs : c.size = n + m) (hn : 2 * cfg.headSize ≤ n) (ht : c.loc = .none → c.addr = t) :
    Keeps cfg t h
      ((h.setSizeRef cfg c.addr (n + b.toNat)).setSizeRef cfg (c.addr + n) (m + b'.toNat))
      (pre ++ c :: post)
      (pre ++ { c with size := n, bit := b } :: ⟨c.addr + n,m,b',.none⟩ :: post) := by
  refine keeps_replace S pre [c] [{ c with size := n, bit := b },⟨c.addr + n,m,b',.none⟩] post
    (by simpa using ht) ?_
  intro d hd _ a ha ha'
  have hdm : d ∈ pre ++ c :: post := by rcases hd with hd | hd <;> simp [hd]
  have ho := hw.payload_apart S (show c ∈ pre ++ c :: post by simp) hdm (hw.ne_addr S hd).symm
  have hw0 := S.std.word_pos
  have hlink : a < c.addr + n - cfg.headSize ∨ c.addr + n - cfg.headSize + cfg.headSize ≤ a := by omega
  exact (store_apart hlink).trans (store_apart (hw.off_header S (by simp) hdm ha ha'))

theorem absorb (hw : WF cfg env h (pre ++ c :: d :: post)) (hd : d.loc = .none) :
    WF cfg env (h.setSizeRef cfg c.addr (c.size + d.size + c.bit.toNat))
      (pre ++ { c with size := c.size + d.size } :: post) := by
  have hcm : c ∈ pre ++ c :: d :: post := by simp
  have hdm : d ∈ pre ++ c :: d :: post := by simp
  have hca := hw.addr S hcm
  have hr := hw.region_of_mem S hcm
  have hbit := Bool.toNat_le c.bit
  have hsum : c.addr + c.size = d.addr := by
    obtain ⟨m,-,h1,h2,-⟩ := tiles_split.mp hr.tiles
    omega
  have hxd := hw.extent S hdm
  have hbr := hr.brk
  have hk := hw.bound
  have hl := S.limit
  have hcl := ChunkAddr.le S.std hca
  have hw0 := S.std.word_pos
  have hsc := hw.sizes c hcm
  have hsd := hw.sizes d hdm
  refine reheader S pre [c,d] [{ c with size := c.size + d.size }] post hw ⟨rfl,rfl,rfl⟩ rfl rfl
    ?_ ?_ (by simp) ?_ ?_ ?_ ?_ ?_
  · intro x hx _
    exact next_setSizeRef S.std hca (hw.addr S hx)
  · intro x hx
    have hxm : x ∈ pre ++ c :: d :: post := by rcases hx with hx | hx <;> simp [hx]
    refine sizeRef_setSizeRef_ne S.std hca (hw.addr S hxm) ?_
    exact hw.ne_addr S (hx.imp_right (fun hx => by simp [hx]))
  · rintro a e ⟨h1,h2,h3⟩
    obtain rfl : a + c.size + d.size = e := h3
    exact ⟨h1,by simp only [Tiles]; omega⟩
  · simp only [List.mem_singleton,forall_eq]
    refine ⟨?_,by omega⟩
    rw [Nat.add_mod,hsc.1,hsd.1]
    simp
  · simp only [List.mem_singleton,forall_eq]
    exact sizeRef_setSizeRef_same (by omega)
  · simp [listed_cons,hd]
  · simp [bucketed_cons,hd]

theorem keeps_absorb (hw : WF cfg env h (pre ++ c :: d :: post)) (v : Nat)
    (hct : c.loc = .none → c.addr = t) (hdt : d.loc = .none → d.addr = t) :
    Keeps cfg t h (h.setSizeRef cfg c.addr v) (pre ++ c :: d :: post)
      (pre ++ { c with size := c.size + d.size } :: post) := by
  refine keeps_replace S pre [c,d] [{ c with size := c.size + d.size }] post
    (by simpa using ⟨hct,hdt⟩) ?_
  intro x hx _ a ha ha'
  have hxm : x ∈ pre ++ c :: d :: post := by rcases hx with hx | hx <;> simp [hx]
  exact store_apart (hw.off_header S (by simp) hxm ha ha')

theorem listed_split (hw : WF cfg env h (pre ++ c :: post)) :
    ∃ q, Seg (h.next cfg) h.freeList (listed pre) q ∧
      Seg (h.next cfg) q (listed (c :: post)) 0 ∧ h.get cfg (slotOf (listed pre)) = q := by
  have hlist := hw.list
  rw [listed_append,seg_append] at hlist
  obtain ⟨q,h1,h2⟩ := hlist
  exact ⟨q,h1,h2,get_slotOf h1⟩

theorem listed_pre (hw : WF cfg env h (pre ++ c :: post)) :
    (∀ x ∈ listed pre, ChunkAddr cfg x) ∧ (listed pre).Nodup ∧
      (∀ d ∈ pre ++ c :: post, d.addr ∈ listed pre → d ∈ pre ∧ d.loc = .list) := by
  have ha := hw.listed_addr S
  have hn := hw.listed_nodup S
  rw [listed_append] at ha hn
  refine ⟨fun x hx => ha x (by simp [hx]),(List.nodup_append.mp hn).1,?_⟩
  intro d hd hx
  obtain ⟨e,he,hel,hea⟩ := mem_listed.mp hx
  have := hw.eq_of_addr S (show e ∈ pre ++ c :: post by simp [he]) hd hea
  exact this ▸ ⟨he,hel⟩

theorem relist (loc : Loc) (hw : WF cfg env h (pre ++ c :: post)) (hg : SameGlobals h h')
    (hh : ∀ x, ChunkAddr cfg x → h'.sizeRef cfg x = h.sizeRef cfg x)
    (hl : Seg (h'.next cfg) h'.freeList (listed (pre ++ { c with loc := loc } :: post)) 0)
    (hb : ∀ b, ∃ xs, Seg (h'.next cfg) (h'.bucketList b) xs 0 ∧
      xs.Perm (bucketed b (pre ++ { c with loc := loc } :: post))) :
    WF cfg env h' (pre ++ { c with loc := loc } :: post) := by
  have hcm : c ∈ pre ++ c :: post := by simp
  refine ⟨.inr (region_replace S pre [c] [{ c with loc := loc }] post hw hg (by simp)
    (fun _ _ ht => ht)),?_,?_,hl,hb,by rw [hg.brk]; exact hw.bound⟩
  · intro x hx
    simp only [List.mem_append,List.mem_cons] at hx
    rcases hx with hx | rfl | hx
    · exact hw.sizes x (by simp [hx])
    · exact hw.sizes c hcm
    · exact hw.sizes x (by simp [hx])
  · intro x hx
    simp only [List.mem_append,List.mem_cons] at hx
    rcases hx with hx | rfl | hx
    · rw [hh _ (hw.addr S (by simp [hx]))]; exact hw.header x (by simp [hx])
    · rw [hh _ (hw.addr S hcm)]; exact hw.header c hcm
    · rw [hh _ (hw.addr S (by simp [hx]))]; exact hw.header x (by simp [hx])

theorem unlink (hw : WF cfg env h (pre ++ c :: post)) (hcl : c.loc = .list) :
    WF cfg env (h.set cfg (slotOf (listed pre)) (h.next cfg c.addr))
      (pre ++ { c with loc := .none } :: post) := by
  obtain ⟨hpa,hpn,hpu⟩ := hw.listed_pre S
  obtain ⟨q,hseg,htail,-⟩ := hw.listed_split S
  rw [listed_cons,if_pos hcl] at htail
  obtain ⟨rfl,-,hpost⟩ := htail
  have hv := next_lt S.std h c.addr
  have hnx : ∀ d ∈ pre ++ c :: post, (d ∈ pre → d.loc ≠ .list) →
      (h.set cfg (slotOf (listed pre)) (h.next cfg c.addr)).next cfg d.addr = h.next cfg d.addr := by
    intro d hd hp
    refine next_set_slotOf S.std hpa (hw.addr S hd) ?_
    intro hx
    exact hp (hpu d hd hx).1 (hpu d hd hx).2
  refine relist S .none hw (sameGlobals_set _ _ _ _)
    (fun x hx => sizeRef_set_slotOf S.std hpa hx) ?_ ?_
  · rw [listed_append,listed_cons,if_neg (by simp),seg_append]
    refine ⟨_,seg_set_slotOf S.std hseg hpa hpn hv,seg_congr ?_ hpost⟩
    intro x hx
    obtain ⟨d,hd,-,rfl⟩ := mem_listed.mp hx
    refine hnx d (by simp [hd]) ?_
    intro hdp
    have h1 := (hw.order S).1 d hdp
    have h2 := (hw.order S).2 d hd
    have h3 := hw.pos S (show d ∈ pre ++ c :: post by simp [hd])
    omega
  · intro b
    obtain ⟨xs,hx,hp⟩ := hw.buckets b
    refine ⟨xs,?_,?_⟩
    · rw [bucketList_set]
      refine seg_congr ?_ hx
      intro x hxm
      obtain ⟨d,hd,hdl,rfl⟩ := mem_bucketed.mp (hp.mem_iff.mp hxm)
      exact hnx d hd (fun _ => by simp [hdl])
    · simpa [bucketed_cons,hcl] using hp

theorem keeps_unlink (v : Nat) (loc : Loc) (hw : WF cfg env h (pre ++ c :: post))
    (hct : c.loc = .none → c.addr = t) :
    Keeps cfg t h (h.set cfg (slotOf (listed pre)) v) (pre ++ c :: post)
      (pre ++ { c with loc := loc } :: post) := by
  obtain ⟨-,-,hpu⟩ := hw.listed_pre S
  refine keeps_replace S pre [c] [{ c with loc := loc }] post (by simpa using hct) ?_
  intro d hd hdn a ha ha'
  have hdm : d ∈ pre ++ c :: post := by rcases hd with hd | hd <;> simp [hd]
  refine mem_set_slotOf S.std ?_
  intro x hx
  obtain ⟨e,he,hel,rfl⟩ := mem_listed.mp hx
  refine hw.off_link S (show e ∈ pre ++ c :: post by simp [he]) hdm ?_ ha ha'
  intro hea
  have := (hpu d hdm (hea ▸ hx)).2
  simp [hdn] at this

theorem setLink (hw : WF cfg env h cs) (hcm : c ∈ cs) (hn : c.loc = .none) (v : Nat) :
    WF cfg env (h.setNext cfg c.addr v) cs := by
  refine hw.payload S hcm hn (fun a ha => store_apart ?_)
  have := (hw.sizes c hcm).2
  rw [S.std.chunk]
  omega

theorem keeps_setLink (hw : WF cfg env h cs) (hcm : c ∈ cs) (v : Nat) (ht : c.loc = .none → c.addr = t) :
    Keeps cfg t h (h.setNext cfg c.addr v) cs cs := by
  intro d hd hdn hdt
  refine ⟨hd,fun a ha ha' => store_apart ?_⟩
  rw [S.std.chunk]
  refine hw.off_link S hcm hd ?_ ha ha'
  intro hea
  have heq := hw.eq_of_addr S hcm hd hea
  exact hdt (heq ▸ ht (heq ▸ hdn))

theorem get_lt (hw : WF cfg env h (pre ++ c :: post)) :
    h.get cfg (slotOf (listed pre)) < 256 ^ cfg.headSize := by
  obtain ⟨q,-,htail,hq⟩ := hw.listed_split S
  rw [hq]
  cases hlp : listed (c :: post) with
  | nil =>
    rw [hlp] at htail
    obtain rfl : q = 0 := htail
    positivity
  | cons x xs =>
    rw [hlp] at htail
    obtain ⟨rfl,-,-⟩ := htail
    obtain ⟨d,hd,-,rfl⟩ := mem_listed.mp (show q ∈ listed (c :: post) by simp [hlp])
    exact (hw.extent S (List.mem_append_right _ hd)).2.1

theorem next_insert (hw : WF cfg env h (pre ++ c :: post)) (hcn : c.loc = .none) {q : Nat}
    (hq : h.get cfg (slotOf (listed pre)) = q) :
    ((h.setNext cfg c.addr q).set cfg (slotOf (listed pre)) c.addr).next cfg c.addr = q := by
  have hcm : c ∈ pre ++ c :: post := by simp
  obtain ⟨hpa,-,hpu⟩ := hw.listed_pre S
  rw [next_set_slotOf S.std hpa (hw.addr S hcm),next_setNext_same S.std (hq ▸ hw.get_lt S)]
  intro hx
  simpa [hcn] using (hpu c hcm hx).2

theorem insert (hw : WF cfg env h (pre ++ c :: post)) (hcn : c.loc = .none) {q : Nat}
    (hq : h.get cfg (slotOf (listed pre)) = q) :
    WF cfg env ((h.setNext cfg c.addr q).set cfg (slotOf (listed pre)) c.addr)
      (pre ++ { c with loc := .list } :: post) := by
  have hcm : c ∈ pre ++ c :: post := by simp
  have hqv : q < 256 ^ cfg.headSize := hq ▸ hw.get_lt S
  have hqc : (h.setNext cfg c.addr q).next cfg c.addr = q := next_setNext_same S.std hqv
  have hq1 : (h.setNext cfg c.addr q).get cfg (slotOf (listed pre)) = q := by
    obtain ⟨hpa,-,hpu⟩ := hw.listed_pre S
    rcases List.eq_nil_or_concat (listed pre) with hnil | ⟨ys,y,hcat⟩
    · rw [hnil] at hq ⊢
      exact hq
    · rw [hcat,List.concat_eq_append,slotOf_concat] at hq ⊢
      have hym : y ∈ listed pre := by simp [hcat]
      refine (next_setNext_ne S.std (hw.addr S hcm) (hpa y hym) ?_).trans hq
      rintro rfl
      have := (hpu c hcm hym).2
      simp [hcn] at this
  have hw := hw.setLink S hcm hcn q
  generalize h.setNext cfg c.addr q = g at *
  obtain ⟨hpa,hpn,hpu⟩ := hw.listed_pre S
  obtain ⟨q',hseg,htail,hq'⟩ := hw.listed_split S
  rw [hq1] at hq'
  subst hq'
  rw [listed_cons,if_neg (by simp [hcn])] at htail
  have hv := (hw.extent S hcm).2.1
  have hnx : ∀ d ∈ pre ++ c :: post, (d ∈ pre → d.loc ≠ .list) →
      (g.set cfg (slotOf (listed pre)) c.addr).next cfg d.addr = g.next cfg d.addr := by
    intro d hd hp
    refine next_set_slotOf S.std hpa (hw.addr S hd) ?_
    intro hx
    exact hp (hpu d hd hx).1 (hpu d hd hx).2
  refine relist S .list hw (sameGlobals_set _ _ _ _)
    (fun x hx => sizeRef_set_slotOf S.std hpa hx) ?_ ?_
  · rw [listed_append,listed_cons,if_pos rfl,seg_append]
    refine ⟨_,seg_set_slotOf S.std hseg hpa hpn hv,rfl,(hw.addr S hcm).2,?_⟩
    rw [hnx c hcm (fun _ => by simp [hcn]),hqc]
    refine seg_congr ?_ htail
    intro x hx
    obtain ⟨d,hd,-,rfl⟩ := mem_listed.mp hx
    refine hnx d (by simp [hd]) ?_
    intro hdp
    have h1 := (hw.order S).1 d hdp
    have h2 := (hw.order S).2 d hd
    have h3 := hw.pos S (show d ∈ pre ++ c :: post by simp [hd])
    omega
  · intro b
    obtain ⟨xs,hx,hp⟩ := hw.buckets b
    refine ⟨xs,?_,?_⟩
    · rw [bucketList_set]
      refine seg_congr ?_ hx
      intro x hxm
      obtain ⟨d,hd,hdl,rfl⟩ := mem_bucketed.mp (hp.mem_iff.mp hxm)
      exact hnx d hd (fun _ => by simp [hdl])
    · simpa [bucketed_cons,hcn] using hp

theorem pushBucket (b : Nat) (hw : WF cfg env h (pre ++ c :: post)) (hcn : c.loc = .none) :
    WF cfg env (h.pushBucket cfg b c.addr) (pre ++ { c with loc := .bucket b } :: post) := by
  have hcm : c ∈ pre ++ c :: post := by simp
  have hca := hw.addr S hcm
  have hnx : ∀ d ∈ pre ++ c :: post, d.loc ≠ .none →
      (h.pushBucket cfg b c.addr).next cfg d.addr = h.next cfg d.addr := by
    intro d hd hdn
    refine next_setNext_ne S.std hca (hw.addr S hd) ?_
    intro hea
    exact hdn (hw.eq_of_addr S hd hcm hea ▸ hcn)
  obtain ⟨ys,hys,hyp⟩ := hw.buckets b
  have hhead : h.bucketList b < 256 ^ cfg.headSize := by
    cases ys with
    | nil =>
      rw [show h.bucketList b = 0 from hys]
      positivity
    | cons x xs =>
      obtain ⟨hx,-,-⟩ := hys
      obtain ⟨d,hd,-,hda⟩ := mem_bucketed.mp (hyp.mem_iff.mp (show x ∈ x :: xs by simp))
      rw [hx,← hda]
      exact (hw.extent S hd).2.1
  refine relist S (.bucket b) hw ⟨rfl,rfl,rfl⟩ (fun x hx => sizeRef_setNext S.std hca hx) ?_ ?_
  · have hl := hw.list
    rw [listed_append,listed_cons,if_neg (by simp [hcn]),← listed_append] at hl
    rw [listed_append,listed_cons,if_neg (by simp),← listed_append]
    refine seg_congr ?_ hl
    intro x hx
    obtain ⟨d,hd,hdl,rfl⟩ := mem_listed.mp hx
    exact hnx d (by rcases List.mem_append.mp hd with hd | hd <;> simp [hd]) (by simp [hdl])
  · intro b'
    obtain ⟨xs,hxs,hxp⟩ := hw.buckets b'
    have hcong : Seg ((h.pushBucket cfg b c.addr).next cfg) (h.bucketList b') xs 0 := by
      refine seg_congr ?_ hxs
      intro x hxm
      obtain ⟨d,hd,hdl,rfl⟩ := mem_bucketed.mp (hxp.mem_iff.mp hxm)
      exact hnx d hd (by simp [hdl])
    by_cases hbb : b' = b
    · subst hbb
      refine ⟨c.addr :: xs,⟨Function.update_self _ _ _,hca.2,?_⟩,?_⟩
      · have hn : (h.pushBucket cfg b' c.addr).next cfg c.addr = h.bucketList b' :=
          next_setNext_same S.std hhead
        rw [hn]
        exact hcong
      · simp only [bucketed_append,bucketed_cons,hcn,if_true] at hxp ⊢
        exact (List.Perm.cons _ (by simpa using hxp)).trans List.perm_middle.symm
    · refine ⟨xs,?_,?_⟩
      · have hu : (h.pushBucket cfg b c.addr).bucketList b' = h.bucketList b' :=
          Function.update_of_ne hbb _ _
        rw [hu]
        exact hcong
      · have hbb' : ¬ b = b' := fun e => hbb e.symm
        simpa [bucketed_cons,hcn,hbb'] using hxp

theorem keeps_pushBucket (b : Nat) (hw : WF cfg env h (pre ++ c :: post)) (ht : c.addr = t) :
    Keeps cfg t h (h.pushBucket cfg b c.addr) (pre ++ c :: post)
      (pre ++ { c with loc := .bucket b } :: post) := by
  refine keeps_replace S pre [c] [{ c with loc := .bucket b }] post (by simp [ht]) ?_
  intro d hd hdn a ha ha'
  have hdm : d ∈ pre ++ c :: post := by rcases hd with hd | hd <;> simp [hd]
  refine store_apart ?_
  rw [S.std.chunk]
  exact hw.off_link S (by simp) hdm (hw.ne_addr S hd).symm ha ha'

theorem keeps_insert (hw : WF cfg env h (pre ++ c :: post)) (hcn : c.loc = .none) (q : Nat)
    (ht : c.addr = t) :
    Keeps cfg t h ((h.setNext cfg c.addr q).set cfg (slotOf (listed pre)) c.addr) (pre ++ c :: post)
      (pre ++ { c with loc := .list } :: post) := by
  have hcm : c ∈ pre ++ c :: post := by simp
  have hw' := hw.setLink S hcm hcn q
  exact (hw.keeps_setLink S hcm q (fun _ => ht)).trans (hw'.keeps_unlink S c.addr .list (fun _ => ht))

theorem popBucket {b x : Nat} (hw : WF cfg env h cs) (hx : h.bucketList b = x) (hx0 : x ≠ 0) :
    ∃ pre c post, cs = pre ++ c :: post ∧ c.addr = x ∧ c.loc = .bucket b ∧
      WF cfg env (h.setBucket b (h.next cfg x))
        (pre ++ { c with loc := .none } :: post) := by
  obtain ⟨ys,hys,hyp⟩ := hw.buckets b
  cases ys with
  | nil => exact absurd ((show h.bucketList b = 0 from hys).symm.trans hx) (Ne.symm hx0)
  | cons y ys =>
    obtain ⟨hy,-,htail⟩ := hys
    obtain rfl : y = x := hy.symm.trans hx
    obtain ⟨c,hcm,hcl,hca⟩ := mem_bucketed.mp (hyp.mem_iff.mp (show y ∈ y :: ys by simp))
    obtain ⟨pre,post,rfl⟩ := List.append_of_mem hcm
    refine ⟨pre,c,post,rfl,hca,hcl,?_⟩
    refine relist S .none hw ⟨rfl,rfl,rfl⟩ (fun _ _ => rfl) ?_ ?_
    · have hl := hw.list
      rw [listed_append,listed_cons,if_neg (by simp [hcl])] at hl
      rw [listed_append,listed_cons,if_neg (by simp)]
      exact hl
    · intro b'
      by_cases hbb : b' = b
      · subst hbb
        have hu : (h.setBucket b' (h.next cfg y)).bucketList b' = h.next cfg y :=
          Function.update_self _ _ _
        refine ⟨ys,by rw [hu]; exact htail,?_⟩
        simp only [bucketed_append,bucketed_cons,hcl,if_true,hca] at hyp
        simpa [bucketed_cons] using (hyp.trans List.perm_middle).cons_inv
      · obtain ⟨xs,hxs,hxp⟩ := hw.buckets b'
        have hu : (h.setBucket b (h.next cfg y)).bucketList b' = h.bucketList b' :=
          Function.update_of_ne hbb _ _
        refine ⟨xs,by rw [hu]; exact hxs,?_⟩
        have hbb' : ¬ b = b' := fun e => hbb e.symm
        simpa [bucketed_cons,hcl,hbb'] using hxp

end WF

end Malloc
