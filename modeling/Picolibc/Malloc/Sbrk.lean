import Mathlib
import Picolibc.Malloc.Free

set_option linter.unusedSectionVars false

namespace Malloc

open ByteMemory LinkedList

structure SameLists (h h' : Heap) : Prop where
  mem : h'.mem = h.mem
  freeList : h'.freeList = h.freeList
  bucketList : h'.bucketList = h.bucketList

structure Extended (cfg : Config) (env : Env) (h h' : Heap) (cs : List Chunk) (a s : Nat) : Prop where
  lists : SameLists h h'
  start : h'.sbrkStart ≠ 0
  aligned : (h'.sbrkStart + cfg.headSize) % (2 * cfg.headSize) = 0
  tiles : Tiles cfg.headSize h'.sbrkStart cs a
  top : h'.sbrkTop = a + s
  brk : h'.brk = a + s
  bound : h'.brk ≤ env.limit
  again : cs ≠ [] → a = h.sbrkTop

theorem sbrk_cases (env : Env) (h : Heap) (n : Nat) :
    h.sbrk env n = ({ h with sbrkCalls := h.sbrkCalls + 1, errno := .enomem },none) ∨
    (h.sbrk env n = ({ h with sbrkCalls := h.sbrkCalls + 1, brk := h.brk + n },some h.brk) ∧
      h.brk + n ≤ env.limit) := by
  unfold Heap.sbrk
  split_ifs with hf
  · exact .inl rfl
  · simp only [Bool.or_eq_true,decide_eq_true_eq,not_or,Nat.not_lt] at hf
    exact .inr ⟨rfl,hf.2⟩

section

variable {cfg : Config} {env : Env} (S : Setup cfg env)
  {h h' : Heap} {cs pre post : List Chunk} {c d : Chunk} {t : Nat}

include S

theorem WF.congr (hw : WF cfg env h cs) (hl : SameLists h h') (hg : SameGlobals h h') :
    WF cfg env h' cs := by
  obtain ⟨hm,hf,hb⟩ := hl
  obtain ⟨h1,h2,h3⟩ := hg
  have hn : h'.next cfg = h.next cfg := by funext x; simp only [Heap.next,hm]
  have hs : h'.sizeRef cfg = h.sizeRef cfg := by funext x; simp only [Heap.sizeRef,hm]
  refine ⟨?_,hw.sizes,by simpa only [hs] using hw.header,by rw [hn,hf]; exact hw.list,
    by rw [hn,hb]; exact hw.buckets,by rw [h3]; exact hw.bound⟩
  rcases hw.region with ⟨hz,hnil⟩ | hr
  · exact .inl ⟨h1.trans hz,hnil⟩
  · exact .inr ⟨by rw [h1]; exact hr.start,by rw [h1,h2]; exact hr.tiles,
      by rw [h1]; exact hr.aligned,by rw [h3,h2]; exact hr.brk⟩

theorem Inv.congr (hi : Inv cfg env h cs) (hl : SameLists h h') (hg : SameGlobals h h') :
    Inv cfg env h' cs :=
  ⟨hi.wf.congr S hl hg,hi.settled,hi.apart⟩

theorem headSize_not_aligned : ¬ cfg.headSize % (2 * cfg.headSize) = 0 := by
  rcases S.std.word with hx | hx <;> rw [hx] <;> decide

theorem sbrkAligned_region (hw : WF cfg env h cs) (hr : Region cfg h cs) (s : Nat) :
    (∃ h', sbrkAligned cfg env h s = (h',none) ∧ SameLists h h' ∧ WF cfg env h' cs) ∨
    (∃ h' a, sbrkAligned cfg env h s = (h',some a) ∧ Extended cfg env h h' cs a s) := by
  have hal := (tiles_aligned hr.tiles hr.aligned (fun d hd => (hw.sizes d hd).1)).2
  have hp : alignUp (h.brk + cfg.headSize) cfg.chunkAlign - cfg.headSize = h.brk := by
    rw [hr.brk,S.std.align,alignUp_of_mod (by have := S.std.word_pos; omega) hal]
    omega
  unfold sbrkAligned
  split_ifs with hbig
  · exact .inl ⟨h,rfl,⟨rfl,rfl,rfl⟩,hw⟩
  · rcases sbrk_cases env h s with heq | ⟨heq,hle⟩
    · rw [heq]
      exact .inl ⟨_,rfl,⟨rfl,rfl,rfl⟩,hw.congr S ⟨rfl,rfl,rfl⟩ ⟨rfl,rfl,rfl⟩⟩
    · rw [heq]
      right
      simp only [hp,if_true,if_neg hr.start]
      exact ⟨_,_,rfl,⟨rfl,rfl,rfl⟩,hr.start,hr.aligned,by rw [hr.brk]; exact hr.tiles,rfl,rfl,hle,
        fun _ => hr.brk⟩

theorem sbrkAligned_first (hw : WF cfg env h []) (hz : h.sbrkStart = 0) (s : Nat) :
    (∃ h', sbrkAligned cfg env h s = (h',none) ∧ SameLists h h' ∧ WF cfg env h' []) ∨
    (∃ h' a, sbrkAligned cfg env h s = (h',some a) ∧ Extended cfg env h h' [] a s) := by
  have hw0 := S.std.word_pos
  obtain ⟨a,ha⟩ : ∃ a, a = alignUp (h.brk + cfg.headSize) cfg.chunkAlign - cfg.headSize := ⟨_,rfl⟩
  have hge := le_alignUp (h.brk + cfg.headSize) (show 0 < cfg.chunkAlign by rw [S.std.align]; omega)
  have hal : (a + cfg.headSize) % (2 * cfg.headSize) = 0 := by
    rw [ha,Nat.sub_add_cancel (by omega),← S.std.align]
    exact alignUp_mod _
  have ha0 : a ≠ 0 := by
    rintro rfl
    rw [Nat.zero_add] at hal
    exact headSize_not_aligned S hal
  have hfail : ∀ g : Heap, SameLists h g → g.sbrkStart = 0 → g.brk ≤ env.limit → WF cfg env g [] := by
    intro g hl hs hb
    refine ⟨.inl ⟨hs,rfl⟩,by simp,by simp,?_,?_,hb⟩
    · have := hw.list
      rw [hl.freeList]
      exact this
    · intro b
      obtain ⟨xs,hx,hp⟩ := hw.buckets b
      obtain rfl : xs = [] := hp.eq_nil
      exact ⟨[],by rw [hl.bucketList]; exact hx,hp⟩
  unfold sbrkAligned
  split_ifs with hbig
  · exact .inl ⟨h,rfl,⟨rfl,rfl,rfl⟩,hw⟩
  · rcases sbrk_cases env h s with heq | ⟨heq,hle⟩
    · rw [heq]
      exact .inl ⟨_,rfl,⟨rfl,rfl,rfl⟩,hfail _ ⟨rfl,rfl,rfl⟩ hz hw.bound⟩
    · rw [heq]
      simp only [← ha]
      split_ifs with hpa
      · right
        exact ⟨_,_,rfl,⟨rfl,rfl,rfl⟩,ha0,hal,rfl,by rw [hpa],by rw [hpa],hle,by simp⟩
      · rcases sbrk_cases env { h with sbrkCalls := h.sbrkCalls + 1, brk := h.brk + s, sbrkTop := h.brk + s }
          (a - h.brk) with heq2 | ⟨heq2,hle2⟩
        · rw [heq2]
          exact .inl ⟨_,rfl,⟨rfl,rfl,rfl⟩,hfail _ ⟨rfl,rfl,rfl⟩ hz hle⟩
        · rw [heq2]
          right
          simp only [if_true,hz]
          exact ⟨_,_,rfl,⟨rfl,rfl,rfl⟩,ha0,hal,rfl,by dsimp only; omega,by dsimp only; omega,
            hle2,by simp⟩

theorem sbrkAligned_spec (hw : WF cfg env h cs) (s : Nat) :
    (∃ h', sbrkAligned cfg env h s = (h',none) ∧ SameLists h h' ∧ WF cfg env h' cs) ∨
    (∃ h' a, sbrkAligned cfg env h s = (h',some a) ∧ Extended cfg env h h' cs a s) := by
  rcases hw.region with ⟨hz,rfl⟩ | hr
  · exact sbrkAligned_first S hw hz s
  · exact sbrkAligned_region S hw hr s

end

end Malloc
