import Mathlib
import Picolibc.Malloc.Runs

set_option linter.unusedSectionVars false

namespace Malloc

open ByteMemory LinkedList

def OnFreeList (cfg : Config) (h : Heap) (p : Nat) : Prop :=
  ∃ free, Seg (h.next cfg) h.freeList free 0 ∧ p ∈ free

structure RoomPast (cfg : Config) (env : Env) (st : State) (c n : Nat) : Prop where
  live : c ∈ st.live
  general : cfg.isBucketSize (st.heap.size cfg c) = false
  grows : st.heap.size cfg c < cfg.chunkSize n
  stuck : ∀ h', growChunk cfg env st.heap c (cfg.chunkSize n) ≠ some (h',true)
  past : OnFreeList cfg st.heap (st.heap.chunkAfter cfg c)
  enough : cfg.chunkSize n ≤ st.heap.size cfg c + st.heap.size cfg (st.heap.chunkAfter cfg c)

def MergedInPlace (cfg : Config) (env : Env) (st : State) (c n : Nat) : Prop :=
  ∃ h', realloc cfg env st.heap c n = some (h',c) ∧
    ¬OnFreeList cfg h' (st.heap.chunkAfter cfg c) ∧
    ∃ free buckets chunks, Partition cfg h' st.live free buckets chunks ∧
      TilesBy cfg h' h'.sbrkStart chunks h'.sbrkTop

structure LastFree (cfg : Config) (env : Env) (st : State) (c s : Nat) : Prop where
  general : cfg.smallBucket ≠ 0 → cfg.maxBucket < cfg.chunkSize s
  small : ∀ p, OnFreeList cfg st.heap p → st.heap.size cfg p < cfg.chunkSize s
  listed : OnFreeList cfg st.heap c
  last : st.heap.next cfg c = 0
  atTop : c - cfg.headSize + st.heap.size cfg c = st.heap.sbrkTop
  grants : ∀ n, env.fails n = false
  room : st.heap.brk + cfg.chunkSize s ≤ env.limit
  signed : cfg.chunkSize s < 2 ^ (cfg.sizeBits - 1)

def Extends (cfg : Config) (env : Env) (st : State) (c s : Nat) : Prop :=
  ∃ h', malloc cfg env st.heap s = some (h',c) ∧
    h'.sbrkTop = st.heap.sbrkTop + max cfg.chunkMin (cfg.chunkSize s - st.heap.size cfg c)

section

variable {cfg : Config} {env : Env} (S : Setup cfg env) {st : State} {h : Heap} {cs : List Chunk}

include S

theorem onFreeList_iff (hw : WF cfg env h cs) {p : Nat} : OnFreeList cfg h p ↔ p ∈ listed cs := by
  constructor
  · rintro ⟨free,hseg,hp⟩
    rwa [seg_unique hseg hw.list] at hp
  · exact fun hp => ⟨_,hw.list,hp⟩

theorem not_at_top (hw : WF cfg env h cs) {c d : Chunk} (hc : c ∈ cs) (hd : d ∈ cs)
    (ha : d.addr = c.addr + c.size) : c.addr - cfg.headSize + c.size ≠ h.sbrkTop := by
  have hx := (hw.extent S hd).1
  have hp := hw.pos S hd
  have hle := ChunkAddr.le S.std (hw.addr S hc)
  omega

theorem realloc_copies (hi : Inv cfg env h cs) {c d : Chunk} (hc : c ∈ cs) (hcn : c.loc = .none)
    (hd : d ∈ cs) (ha : d.addr = c.addr + c.size) {n : Nat} (hb : cfg.isBucketSize c.size = false)
    (hlt : c.size < cfg.chunkSize n) (hmax : n ≤ cfg.allocMax) :
    realloc cfg env h c.addr n = reallocCopy cfg env h c.addr n c.size := by
  have hw := hi.wf
  have hbit := hi.bit_false S hc hcn
  have hend : h.chunkEnd cfg c.addr = c.addr - cfg.headSize + c.size := by
    rw [Heap.chunkEnd,hw.header c hc,hbit]
    rfl
  have hgrow : growChunk cfg env h c.addr (cfg.chunkSize n) = some (h,false) := by
    simp only [growChunk,hend]
    rw [if_pos (not_at_top S hw hc hd ha)]
  have hn0 : n ≠ 0 := by
    rintro rfl
    have h0 := chunkSize_le S hmax (hw.sizes c hc) (by
      have := (hw.sizes c hc).2
      have := S.std.word_pos
      omega)
    omega
  have hfree : h.isFree cfg c.addr = false := by rw [hw.isFree_eq S hc,hbit]
  rw [realloc,if_neg (hw.addr S hc).2,if_neg hn0,if_neg (by omega),if_neg (by simp [hfree])]
  simp only [hw.size_eq S hc,hb,reallocGrow,hend,hgrow,findPast_none S hw hc,hlt]
  simp only [Bool.not_false,decide_true,Bool.and_self,if_true]
  rw [if_neg (by omega)]

theorem sbrkAligned_extends (hw : WF cfg env h cs) {c : Chunk} (hc : c ∈ cs) {n : Nat}
    (hf : env.fails h.sbrkCalls = false) (hl : h.brk + n ≤ env.limit)
    (hs : n < 2 ^ (cfg.sizeBits - 1)) :
    ∃ h', sbrkAligned cfg env h n = (h',some h.sbrkTop) ∧ h'.sbrkTop = h.sbrkTop + n := by
  have hr := hw.region_of_mem S hc
  rcases sbrkAligned_region S hw hr n with ⟨h',heq,-⟩ | ⟨h',a,heq,hx⟩
  · exfalso
    have hal := (tiles_aligned hr.tiles hr.aligned (fun d hd => (hw.sizes d hd).1)).2
    have hp : alignUp (h.brk + cfg.headSize) cfg.chunkAlign - cfg.headSize = h.brk := by
      rw [hr.brk,S.std.align,alignUp_of_mod (by have := S.std.word_pos; omega) hal]
      omega
    have hsb : h.sbrk env n = ({ h with sbrkCalls := h.sbrkCalls + 1, brk := h.brk + n },some h.brk) := by
      rw [Heap.sbrk,if_neg (by simp [hf,hl])]
    rw [sbrkAligned,if_neg (by omega),hsb] at heq
    simp [hp] at heq
  · have ha : a = h.sbrkTop := hx.again (List.ne_nil_of_mem hc)
    exact ⟨h',by rw [heq,ha],by rw [hx.top,ha]⟩

theorem findFit_misses (hi : Inv cfg env h cs) {n : Nat}
    (hsmall : ∀ p ∈ listed cs, h.size cfg p < n) :
    findFit cfg env n (fuel cfg) h .head = some (h,0) := by
  rcases findFit_spec S hi n with ⟨pre,c,post,rfl,hcl,hfit,-⟩ | heq
  · have hcm : c ∈ pre ++ c :: post := by simp
    have := hsmall c.addr (mem_listed.mpr ⟨c,hcm,hcl,rfl⟩)
    rw [hi.wf.size_eq S hcm] at this
    omega
  · exact heq

theorem malloc_extends (hi : Inv cfg env h cs) {c : Chunk} (hc : c ∈ cs) {s : Nat}
    (hb : cfg.smallBucket ≠ 0 → cfg.maxBucket < cfg.chunkSize s) (hmax : s ≤ cfg.allocMax)
    (hsmall : ∀ p ∈ listed cs, h.size cfg p < cfg.chunkSize s) (hf : env.fails h.sbrkCalls = false)
    (hl : h.brk + cfg.chunkSize s ≤ env.limit) (hs : cfg.chunkSize s < 2 ^ (cfg.sizeBits - 1)) :
    ∃ h', malloc cfg env h s = some (h',h.sbrkTop + cfg.headSize) ∧
      h'.sbrkTop = h.sbrkTop + cfg.chunkSize s := by
  obtain ⟨g,hg,htop⟩ := sbrkAligned_extends S hi.wf hc hf hl hs
  have hno : ¬(cfg.smallBucket ≠ 0 ∧ cfg.chunkSize s ≤ cfg.maxBucket) := by
    rintro ⟨h0,hle⟩
    have := hb h0
    omega
  have heq : malloc cfg env h s = some (finishAlloc cfg
      (g.setSize cfg (h.sbrkTop + cfg.headSize) (cfg.chunkSize s)) (h.sbrkTop + cfg.headSize)
      (cfg.chunkSize s)) := by
    rw [malloc,if_neg (by omega)]
    dsimp only
    rw [if_neg hno,findFit_misses S hi hsmall,Option.map_some,allocTail,if_pos rfl,hg]
  exact ⟨_,heq,htop⟩

theorem reallocCopy_moves (hi : Inv cfg env h cs) {c : Chunk} (hc : c ∈ cs) (hcn : c.loc = .none)
    {h' : Heap} {r n old : Nat} (heq : reallocCopy cfg env h c.addr n old = some (h',r)) :
    r ≠ c.addr := by
  obtain ⟨g,p,hmal,hcase⟩ := malloc_spec S hi n
  have hp : p ≠ c.addr := by
    rcases hcase with ⟨rfl,-⟩ | ⟨-,-,cs',hout,-⟩
    · exact (hi.wf.addr S hc).2.symm
    · rintro rfl
      have hnd := hout.live.nodup_iff.mp (live_nodup S hout.inv.wf)
      exact (List.nodup_cons.mp hnd).1 (mem_live.mpr ⟨c,hc,hcn,rfl⟩)
  simp only [reallocCopy,hmal] at heq
  split_ifs at heq with hp0
  · cases heq
    exact (hi.wf.addr S hc).2.symm
  · obtain ⟨g',-,hg'⟩ := Option.map_eq_some_iff.mp heq
    cases hg'
    exact hp

end

theorem realloc_never_merges {cfg : Config} {env : Env} (hc : cfg.Standard)
    (hcf : cfg.clearFreed = false) (hl : env.limit < 2 ^ cfg.sizeBits) {st : State}
    (hr : Reachable cfg env st) {c n : Nat} (hroom : RoomPast cfg env st c n) :
    ¬MergedInPlace cfg env st c n ∧
      (n ≤ cfg.allocMax →
        realloc cfg env st.heap c n = reallocCopy cfg env st.heap c n (st.heap.size cfg c)) := by
  have S : Setup cfg env := ⟨hc,by rwa [hc.pow_bits] at hl⟩
  obtain ⟨cs,hs⟩ := reachable_inv S hcf hr
  have hi := hs.inv
  obtain ⟨hlive,hgen,hgrow,-,hpast,-⟩ := hroom
  obtain ⟨d,hd,hdn,rfl⟩ := hs.mem_live S hlive
  rw [hi.wf.size_eq S hd] at hgen hgrow ⊢
  obtain ⟨e,he,-,hea⟩ := mem_listed.mp ((onFreeList_iff S hi.wf).mp hpast)
  rw [Heap.chunkAfter,hi.wf.size_eq S hd] at hea
  have hcopy : n ≤ cfg.allocMax →
      realloc cfg env st.heap d.addr n = reallocCopy cfg env st.heap d.addr n d.size :=
    realloc_copies S hi hd hdn he hea hgen hgrow
  refine ⟨?_,hcopy⟩
  rintro ⟨h',heq,-⟩
  have hd0 := (hi.wf.addr S hd).2
  by_cases hmax : n ≤ cfg.allocMax
  · rw [hcopy hmax] at heq
    exact reallocCopy_moves S hi hd hdn heq rfl
  · have hn0 : n ≠ 0 := by omega
    rw [realloc,if_neg hd0,if_neg hn0,if_pos (by omega)] at heq
    injection heq with heq
    injection heq with _ heq
    exact hd0 heq.symm

def gapped : State :=
  ((misaligned.after word8 alwaysGrows (.malloc 1)).after word8 alwaysGrows (.malloc 100)).after word8
    alwaysGrows (.malloc 1) |>.after word8 alwaysGrows (.free 48)

theorem gapped_runs :
    48 ∈ (((misaligned.after word8 alwaysGrows (.malloc 1)).after word8 alwaysGrows
      (.malloc 100)).after word8 alwaysGrows (.malloc 1)).live ∧
    32 ∈ gapped.live ∧ word8.isBucketSize (gapped.heap.size word8 32) = false ∧
    gapped.heap.size word8 32 < word8.chunkSize 50 ∧
    (growChunk word8 alwaysGrows gapped.heap 32 (word8.chunkSize 50)).map Prod.snd = some false ∧
    (gapped.heap.freeList = 48 ∧ gapped.heap.next word8 48 = 0 ∧
      gapped.heap.chunkAfter word8 32 ∈ [48]) ∧
    word8.chunkSize 50 ≤ gapped.heap.size word8 32 +
      gapped.heap.size word8 (gapped.heap.chunkAfter word8 32) ∧
    (realloc word8 alwaysGrows gapped.heap 32 50).map Prod.snd = some 48 := by
  decide

theorem gapped_reachable : Reachable word8 alwaysGrows gapped :=
  reachable_after (reachable_after (reachable_after (reachable_after
    (misaligned_reachable (by decide)) _ (.inl rfl)) _ (.inl rfl)) _ (.inl rfl)) _
    (.inr gapped_runs.1)

theorem gapped_room : RoomPast word8 alwaysGrows gapped 32 50 := by
  obtain ⟨-,hlive,hgen,hgrow,hstuck,⟨hfirst,hnext,hafter⟩,hroom,-⟩ := gapped_runs
  refine ⟨hlive,hgen,hgrow,?_,⟨[48],⟨hfirst,by decide,hnext⟩,hafter⟩,hroom⟩
  intro h' heq
  rw [heq] at hstuck
  cases hstuck

theorem realloc_never_merges_gapped : RoomPast word8 alwaysGrows gapped 32 50 ∧
    ¬MergedInPlace word8 alwaysGrows gapped 32 50 :=
  ⟨gapped_room,(realloc_never_merges word8_standard rfl (by decide) gapped_reachable gapped_room).1⟩

theorem free_neighbour_not_merged : ¬ ∀ st, Reachable word8 alwaysGrows st →
    ∀ c n, RoomPast word8 alwaysGrows st c n → MergedInPlace word8 alwaysGrows st c n := by
  intro hall
  obtain ⟨h',heq,-⟩ := hall gapped gapped_reachable 32 50 gapped_room
  have hmoved := gapped_runs.2.2.2.2.2.2.2
  rw [heq] at hmoved
  cases hmoved

theorem malloc_never_extends {cfg : Config} {env : Env} (hc : cfg.Standard)
    (hcf : cfg.clearFreed = false) (hl : env.limit < 2 ^ cfg.sizeBits) {st : State}
    (hr : Reachable cfg env st) {c s : Nat} (hlast : LastFree cfg env st c s) :
    ¬Extends cfg env st c s ∧ (s ≤ cfg.allocMax →
      ∃ h' r, malloc cfg env st.heap s = some (h',r) ∧ r ≠ c ∧
        h'.sbrkTop = st.heap.sbrkTop + cfg.chunkSize s) := by
  have S : Setup cfg env := ⟨hc,by rwa [hc.pow_bits] at hl⟩
  obtain ⟨cs,hs⟩ := reachable_inv S hcf hr
  have hi := hs.inv
  obtain ⟨hgen,hsmall,hlisted,-,htop,hgrant,hroom,hsign⟩ := hlast
  obtain ⟨d,hd,-,rfl⟩ := mem_listed.mp ((onFreeList_iff S hi.wf).mp hlisted)
  have hda := ChunkAddr.le S.std (hi.wf.addr S hd)
  have hpos := hi.wf.pos S hd
  rw [hi.wf.size_eq S hd] at htop
  have hmiss : ∀ p ∈ listed cs, st.heap.size cfg p < cfg.chunkSize s :=
    fun p hp => hsmall p ((onFreeList_iff S hi.wf).mpr hp)
  have hwhole : s ≤ cfg.allocMax → ∃ h', malloc cfg env st.heap s =
      some (h',st.heap.sbrkTop + cfg.headSize) ∧ h'.sbrkTop = st.heap.sbrkTop + cfg.chunkSize s :=
    fun hmax => malloc_extends S hi hd hgen hmax hmiss (hgrant _) hroom hsign
  constructor
  · rintro ⟨h',heq,-⟩
    by_cases hmax : s ≤ cfg.allocMax
    · obtain ⟨g,hg,-⟩ := hwhole hmax
      rw [heq] at hg
      injection hg with hg
      injection hg with _ hg
      omega
    · rw [malloc,if_pos (by omega)] at heq
      injection heq with heq
      injection heq with _ heq
      exact (hi.wf.addr S hd).2 heq.symm
  · intro hmax
    obtain ⟨g,hg,hgt⟩ := hwhole hmax
    exact ⟨g,_,hg,by omega,hgt⟩

def released : State :=
  (misaligned.after word8 alwaysGrows (.malloc 1)).after word8 alwaysGrows (.free 32)

theorem released_runs :
    32 ∈ (misaligned.after word8 alwaysGrows (.malloc 1)).live ∧
    (released.heap.freeList = 32 ∧ released.heap.next word8 32 = 0) ∧
    released.heap.size word8 32 < word8.chunkSize 100 ∧
    32 - word8.headSize + released.heap.size word8 32 = released.heap.sbrkTop ∧
    released.heap.brk + word8.chunkSize 100 ≤ alwaysGrows.limit ∧
    (malloc word8 alwaysGrows released.heap 100).map Prod.snd = some 48 := by
  decide

theorem released_reachable : Reachable word8 alwaysGrows released :=
  reachable_after (reachable_after (misaligned_reachable (by decide)) _ (.inl rfl)) _
    (.inr released_runs.1)

theorem released_list : Seg (released.heap.next word8) released.heap.freeList [32] 0 :=
  ⟨released_runs.2.1.1,by decide,released_runs.2.1.2⟩

theorem released_last : LastFree word8 alwaysGrows released 32 100 where
  general := fun h => absurd rfl h
  small := by
    rintro p ⟨free,hseg,hp⟩
    have hone : free = [32] := seg_unique hseg released_list
    rw [hone,List.mem_singleton] at hp
    subst hp
    exact released_runs.2.2.1
  listed := ⟨[32],released_list,by decide⟩
  last := released_runs.2.1.2
  atTop := released_runs.2.2.2.1
  grants := fun _ => rfl
  room := released_runs.2.2.2.2.1
  signed := by decide

theorem malloc_never_extends_released : LastFree word8 alwaysGrows released 32 100 ∧
    ¬Extends word8 alwaysGrows released 32 100 :=
  ⟨released_last,(malloc_never_extends word8_standard rfl (by decide) released_reachable released_last).1⟩

theorem last_free_not_extended : ¬ ∀ st, Reachable word8 alwaysGrows st →
    ∀ c s, LastFree word8 alwaysGrows st c s → Extends word8 alwaysGrows st c s := by
  intro hall
  obtain ⟨h',heq,-⟩ := hall released released_reachable 32 100 released_last
  have hfresh := released_runs.2.2.2.2.2
  rw [heq] at hfresh
  cases hfresh

end Malloc
