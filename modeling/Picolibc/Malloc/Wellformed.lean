import Mathlib
import Picolibc.Malloc.Cells

set_option linter.unusedSectionVars false

namespace Malloc

open ByteMemory LinkedList

structure Setup (cfg : Config) (env : Env) : Prop where
  std : cfg.Standard
  limit : env.limit < 256 ^ cfg.headSize

structure Region (cfg : Config) (h : Heap) (cs : List Chunk) : Prop where
  start : h.sbrkStart ≠ 0
  tiles : Tiles cfg.headSize h.sbrkStart cs h.sbrkTop
  aligned : (h.sbrkStart + cfg.headSize) % (2 * cfg.headSize) = 0
  brk : h.brk = h.sbrkTop

structure WF (cfg : Config) (env : Env) (h : Heap) (cs : List Chunk) : Prop where
  region : (h.sbrkStart = 0 ∧ cs = []) ∨ Region cfg h cs
  sizes : ∀ c ∈ cs, c.size % (2 * cfg.headSize) = 0 ∧ 2 * cfg.headSize ≤ c.size
  header : ∀ c ∈ cs, h.sizeRef cfg c.addr = c.size + c.bit.toNat
  list : Seg (h.next cfg) h.freeList (listed cs) 0
  buckets : ∀ b, ∃ xs, Seg (h.next cfg) (h.bucketList b) xs 0 ∧ xs.Perm (bucketed b cs)
  bound : h.brk ≤ env.limit

def Keeps (cfg : Config) (t : Nat) (h h' : Heap) (cs cs' : List Chunk) : Prop :=
  ∀ d ∈ cs, d.loc = .none → d.addr ≠ t → d ∈ cs' ∧
    ∀ a, d.addr ≤ a → a + cfg.headSize < d.addr + d.size → h'.mem a = h.mem a

theorem Keeps.trans {cfg : Config} {t : Nat} {h h' h'' : Heap} {cs cs' cs'' : List Chunk}
    (k : Keeps cfg t h h' cs cs') (k' : Keeps cfg t h' h'' cs' cs'') : Keeps cfg t h h'' cs cs'' := by
  intro d hd hn ht
  obtain ⟨hm,hb⟩ := k d hd hn ht
  obtain ⟨hm',hb'⟩ := k' d hm hn ht
  exact ⟨hm',fun a ha ha' => (hb' a ha ha').trans (hb a ha ha')⟩

theorem Keeps.refl (cfg : Config) (t : Nat) (h : Heap) (cs : List Chunk) : Keeps cfg t h h cs cs :=
  fun _ hd _ _ => ⟨hd,fun _ _ _ => rfl⟩

namespace WF

variable {cfg : Config} {env : Env} (S : Setup cfg env)
  {h : Heap} {cs pre post : List Chunk} {c d : Chunk}

include S

theorem region_of_mem (hw : WF cfg env h cs) (hm : c ∈ cs) : Region cfg h cs := by
  rcases hw.region with ⟨-,rfl⟩ | hr
  · simp at hm
  · exact hr

theorem addr (hw : WF cfg env h cs) (hm : c ∈ cs) : ChunkAddr cfg c.addr := by
  have hr := hw.region_of_mem S hm
  have ha := tiles_aligned hr.tiles hr.aligned (fun d hd => (hw.sizes d hd).1)
  have hb := tiles_bounds hr.tiles c hm
  have := S.std.word_pos
  exact ⟨ha.1 c hm,by omega⟩

theorem extent (hw : WF cfg env h cs) (hm : c ∈ cs) :
    c.addr + c.size ≤ h.sbrkTop + cfg.headSize ∧ c.addr < 256 ^ cfg.headSize ∧
      c.size + 1 < 256 ^ cfg.headSize := by
  have hr := hw.region_of_mem S hm
  have hb := tiles_bounds hr.tiles c hm
  have hs := hw.sizes c hm
  have hk := hw.bound
  have hl := S.limit
  have hbr := hr.brk
  have hp := S.std.word_pos
  have ha := ChunkAddr.le S.std (hw.addr S hm)
  omega

theorem pairwise (hw : WF cfg env h cs) :
    cs.Pairwise (fun c d => c.addr + c.size ≤ d.addr) := by
  rcases hw.region with ⟨-,rfl⟩ | hr
  · exact .nil
  · exact tiles_pairwise hr.tiles

theorem order (hw : WF cfg env h (pre ++ c :: post)) :
    (∀ d ∈ pre, d.addr + d.size ≤ c.addr) ∧ (∀ d ∈ post, c.addr + c.size ≤ d.addr) := by
  have hp := hw.pairwise S
  rw [List.pairwise_append,List.pairwise_cons] at hp
  exact ⟨fun d hd => hp.2.2 d hd c (by simp),hp.2.1.1⟩

theorem pos (hw : WF cfg env h cs) (hm : c ∈ cs) : 0 < c.size := by
  have := (hw.sizes c hm).2
  have := S.std.word_pos
  omega

theorem ne_addr (hw : WF cfg env h (pre ++ c :: post)) (hd : d ∈ pre ∨ d ∈ post) :
    d.addr ≠ c.addr := by
  have ho := hw.order S
  have hcp := hw.pos S (show c ∈ pre ++ c :: post by simp)
  rcases hd with hd | hd
  · have := ho.1 d hd
    have := hw.pos S (show d ∈ pre ++ c :: post by simp [hd])
    omega
  · have := ho.2 d hd
    omega

theorem nodup (hw : WF cfg env h cs) : (cs.map Chunk.addr).Nodup := by
  rw [List.Nodup,List.pairwise_map]
  refine (hw.pairwise S).imp_of_mem ?_
  intro c d hcm _ hle
  have := hw.pos S hcm
  omega

theorem eq_of_addr (hw : WF cfg env h cs) (hm : c ∈ cs) (hm' : d ∈ cs) (ha : c.addr = d.addr) :
    c = d :=
  List.inj_on_of_nodup_map (hw.nodup S) hm hm' ha

theorem listed_nodup (hw : WF cfg env h cs) : (listed cs).Nodup :=
  (hw.nodup S).sublist (List.filter_sublist.map _)

theorem listed_addr (hw : WF cfg env h cs) : ∀ x ∈ listed cs, ChunkAddr cfg x := by
  intro x hx
  obtain ⟨d,hd,-,rfl⟩ := mem_listed.mp hx
  exact hw.addr S hd

theorem bucketed_addr (hw : WF cfg env h cs) (b : Nat) : ∀ x ∈ bucketed b cs, ChunkAddr cfg x := by
  intro x hx
  obtain ⟨d,hd,-,rfl⟩ := mem_bucketed.mp hx
  exact hw.addr S hd

theorem payload_apart (hw : WF cfg env h cs) (hm : c ∈ cs) (hm' : d ∈ cs) (hne : c.addr ≠ d.addr) :
    c.addr + c.size ≤ d.addr ∨ d.addr + d.size ≤ c.addr := by
  have hp := hw.pairwise S
  obtain ⟨xs,ys,rfl⟩ := List.append_of_mem hm
  rw [List.pairwise_append,List.pairwise_cons] at hp
  simp only [List.mem_append,List.mem_cons] at hm'
  rcases hm' with hx | rfl | hy
  · exact .inr (hp.2.2 d hx c (by simp))
  · exact absurd rfl hne
  · exact .inl (hp.2.1.1 d hy)

end WF

end Malloc
