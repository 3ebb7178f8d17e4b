import Mathlib
import Picolibc.Malloc.Runs

set_option linter.unusedSectionVars false

namespace Malloc

open ByteMemory LinkedList

def KeepsBits (cfg : Config) (h h' : Heap) : Prop :=
  ∀ p, ChunkAddr cfg p → h.isFree cfg p = true → h'.isFree cfg p = true

def SlotAddr (cfg : Config) : Slot → Prop
  | .head => True
  | .next c => ChunkAddr cfg c

section

variable {cfg : Config} {h h' h'' : Heap} {t u v p : Nat}

theorem KeepsBits.refl (cfg : Config) (h : Heap) : KeepsBits cfg h h := fun _ _ hf => hf

theorem KeepsBits.trans (k : KeepsBits cfg h h') (k' : KeepsBits cfg h' h'') : KeepsBits cfg h h'' :=
  fun p hp hf => k' p hp (k p hp hf)

theorem isFree_of_sizeRef (heq : h'.sizeRef cfg p = h.sizeRef cfg p) :
    h'.isFree cfg p = h.isFree cfg p := by
  rw [Heap.isFree,Heap.isFree,heq]

variable (hc : cfg.Standard)

include hc

theorem sizeRef_setSizeRef_parity : (h.setSizeRef cfg t v).sizeRef cfg t % 2 = v % 2 := by
  have hload : (h.setSizeRef cfg t v).sizeRef cfg t = v % 256 ^ cfg.headSize := load_store_same _ _ _ _
  have hdvd : 2 ∣ 256 ^ cfg.headSize := by
    refine Dvd.dvd.trans (show 2 ∣ 256 by decide) (dvd_pow_self 256 ?_)
    have := hc.word_pos
    omega
  rw [hload,Nat.mod_mod_of_dvd v hdvd]

theorem keepsBits_setSizeRef (ht : ChunkAddr cfg t) (hv : h.isFree cfg t = true → v % 2 = 1) :
    KeepsBits cfg h (h.setSizeRef cfg t v) := by
  intro p hp hf
  by_cases he : p = t
  · subst he
    rw [Heap.isFree,sizeRef_setSizeRef_parity hc,hv hf]
    rfl
  · exact (isFree_of_sizeRef (sizeRef_setSizeRef_ne hc ht hp he)).trans hf

theorem keepsBits_grow (ht : ChunkAddr cfg t) :
    KeepsBits cfg h (h.setSizeRef cfg t (h.sizeRef cfg t + h.size cfg u)) := by
  refine keepsBits_setSizeRef hc ht (fun hf => ?_)
  rw [Heap.isFree,beq_iff_eq] at hf
  rw [Heap.size]
  omega

theorem keepsBits_setNext (ht : ChunkAddr cfg t) : KeepsBits cfg h (h.setNext cfg t v) := by
  intro p hp hf
  exact (isFree_of_sizeRef (sizeRef_setNext hc ht hp)).trans hf

theorem keepsBits_set {s : Slot} (hs : SlotAddr cfg s) : KeepsBits cfg h (h.set cfg s v) := by
  cases s with
  | head => exact fun p _ hf => hf
  | next c => exact keepsBits_setNext hc hs

theorem keepsBits_pushBucket (b : Nat) (ht : ChunkAddr cfg t) : KeepsBits cfg h (h.pushBucket cfg b t) := by
  intro p hp hf
  exact keepsBits_setNext hc ht p hp hf

theorem keepsBits_mergeNext (ht : ChunkAddr cfg t) : KeepsBits cfg h (mergeNext cfg h t u) := by
  rw [mergeNext]
  split_ifs
  · exact (keepsBits_grow hc ht).trans (keepsBits_setNext hc ht)
  · exact KeepsBits.refl cfg h

theorem keepsBits_migrate {s : Slot} (hs : SlotAddr cfg s) (ht : ChunkAddr cfg t) :
    KeepsBits cfg h (migrate cfg h s t) := by
  rw [migrate]
  dsimp only
  split_ifs
  · exact (keepsBits_set hc hs).trans (keepsBits_pushBucket hc _ ht)
  · exact KeepsBits.refl cfg h

end

section

variable {cfg : Config} {env : Env} (S : Setup cfg env)
  {h h' : Heap} {cs pre post : List Chunk} {c d : Chunk} {p : Nat}

include S

theorem WF.slotAddr (hw : WF cfg env h (pre ++ post)) : SlotAddr cfg (slotOf (listed pre)) := by
  rcases List.eq_nil_or_concat (listed pre) with hn | ⟨xs,x,hx⟩
  · rw [hn]
    trivial
  · rw [List.concat_eq_append] at hx
    rw [hx,slotOf_concat]
    apply hw.listed_addr S
    rw [listed_append,hx]
    simp

theorem detach_bits (hw : WF cfg env h (pre ++ c :: post)) (hp : ChunkAddr cfg p)
    (hout : p < c.addr ∨ c.addr + c.size ≤ p) (hf : h.isFree cfg p = true) :
    (detach cfg h c.addr).isFree cfg p = true := by
  have hcm : c ∈ pre ++ c :: post := by simp
  have hpos := hw.pos S hcm
  have hca := hw.addr S hcm
  have hpl := ChunkAddr.le S.std hp
  have happ := ChunkAddr.apart S.std hp hca (by omega)
  obtain ⟨g,hg⟩ : ∃ g, g = (if cfg.clearFreed then h.memset c.addr 0 (h.chunkUsable cfg c.addr)
      else h.setNext cfg c.addr 0) := ⟨_,rfl⟩
  have hkeep : g.sizeRef cfg p = h.sizeRef cfg p := by
    rw [hg]
    split_ifs
    · refine load_fill_apart ?_
      rw [Heap.chunkUsable,Config.mallocSize,hw.size_eq S hcm]
      omega
    · exact sizeRef_setNext S.std hca hp
  rw [detach,← hg]
  exact (isFree_of_sizeRef ((sizeRef_setSizeRef_ne S.std hca hp (by omega)).trans hkeep)).trans hf

theorem free_bits (hi : Inv cfg env h (pre ++ c :: post)) (hcn : c.loc = .none)
    (heq : mallocFree cfg h c.addr = some h') : KeepsBits cfg (detach cfg h c.addr) h' := by
  have hcm : c ∈ pre ++ c :: post := by simp
  have hca := hi.wf.addr S hcm
  obtain ⟨hw2,-⟩ := detach_spec S hi.wf hcn
  have hbusy : h.isFree cfg c.addr = false := by
    rw [hi.wf.isFree_eq S hcm,hi.bit_false S hcm hcn]
  rw [mallocFree,if_neg hca.2,if_neg (by rw [hbusy]; exact Bool.false_ne_true)] at heq
  simp only [← detach.eq_1] at heq
  generalize detach cfg h c.addr = g at *
  by_cases hb : cfg.isBucketSize (g.size cfg c.addr) = true
  · rw [if_pos hb] at heq
    obtain rfl := Option.some.inj heq
    exact keepsBits_pushBucket S.std _ hca
  · rw [if_neg hb] at heq
    rcases findFree_spec S hw2 hcn with ⟨pre,q,rfl,-,hfind⟩ | ⟨-,hfind⟩
    · rw [hfind] at heq
      have hqa : ChunkAddr cfg q.addr := hi.wf.addr S (show q ∈ pre ++ [q] ++ c :: post by simp)
      have hslot : SlotAddr cfg (slotOf (listed pre)) := by
        have hw3 : WF cfg env h (pre ++ (q :: c :: post)) := by simpa using hi.wf
        exact hw3.slotAddr S
      obtain rfl := Option.some.inj heq
      exact (keepsBits_grow S.std hqa).trans
        ((keepsBits_mergeNext S.std hqa).trans (keepsBits_migrate S.std hslot hqa))
    · rw [hfind] at heq
      have hslot : SlotAddr cfg (slotOf (listed pre)) := hi.wf.slotAddr S
      obtain rfl := Option.some.inj heq
      exact ((keepsBits_setNext S.std hca).trans (keepsBits_set S.std hslot)).trans
        ((keepsBits_mergeNext S.std hca).trans (keepsBits_migrate S.std hslot hca))

structure Stale (cfg : Config) (h : Heap) (cs : List Chunk) (p : Nat) : Prop where
  addr : ChunkAddr cfg p
  marked : h.isFree cfg p = true
  outside : ∀ d ∈ cs, d.loc = .none → p < d.addr ∨ d.addr + d.size ≤ p

theorem free_stale (hi : Inv cfg env h (pre ++ c :: post)) (hcn : c.loc = .none) :
    ∃ h' cs', mallocFree cfg h c.addr = some h' ∧ Inv cfg env h' cs' ∧
      Keeps cfg c.addr h h' (pre ++ c :: post) cs' ∧ live cs' = live pre ++ live post ∧
      ∀ p, p = c.addr ∨ Stale cfg h (pre ++ c :: post) p → Stale cfg h' cs' p := by
  have hcm : c ∈ pre ++ c :: post := by simp
  obtain ⟨h',cs',heq,hi',hk,hl⟩ := free_spec S hi hcn
  refine ⟨h',cs',heq,hi',hk,hl,?_⟩
  have hbits := free_bits S hi hcn heq
  have hold : ∀ d' ∈ cs', d'.loc = .none → d' ∈ pre ∨ d' ∈ post := by
    intro d' hd' hdn'
    have hm : d'.addr ∈ live pre ++ live post := hl ▸ mem_live.mpr ⟨d',hd',hdn',rfl⟩
    obtain ⟨d,hd,hdn,hda⟩ : ∃ d, (d ∈ pre ∨ d ∈ post) ∧ d.loc = .none ∧ d.addr = d'.addr := by
      rcases List.mem_append.mp hm with hm | hm
      · obtain ⟨d,hd,hdn,hda⟩ := mem_live.mp hm
        exact ⟨d,.inl hd,hdn,hda⟩
      · obtain ⟨d,hd,hdn,hda⟩ := mem_live.mp hm
        exact ⟨d,.inr hd,hdn,hda⟩
    have hkept := (hk d (by rcases hd with hd | hd <;> simp [hd]) hdn (hi.wf.ne_addr S hd)).1
    rwa [hi'.wf.eq_of_addr S hkept hd' hda] at hd
  intro p hp
  have hca := hi.wf.addr S hcm
  refine ⟨?_,?_,?_⟩
  · rcases hp with rfl | hp
    · exact hca
    · exact hp.addr
  · rcases hp with rfl | hp
    · have hw2 := (detach_spec S hi.wf hcn).1
      refine hbits _ hca ?_
      exact hw2.isFree_eq S (show { c with bit := true } ∈ pre ++ { c with bit := true } :: post by simp)
    · exact hbits p hp.addr (detach_bits S hi.wf hp.addr (hp.outside c hcm hcn) hp.marked)
  · intro d hd hdn
    have hd' := hold d hd hdn
    rcases hp with rfl | hp
    · have hpos := hi.wf.pos S hcm
      rcases hd' with hd' | hd'
      · exact .inr ((hi.wf.order S).1 d hd')
      · have := (hi.wf.order S).2 d hd'
        exact .inl (by omega)
    · exact hp.outside d (by rcases hd' with hd' | hd' <;> simp [hd']) hdn

end

inductive Releases (cfg : Config) (env : Env) (st : State) : List Nat → State → Prop
  | nil : Releases cfg env st [] st
  | free {ps : List Nat} {st1 st2 : State} {p r : Nat} (hrun : Releases cfg env st ps st1) (hp : p ∈ st1.live)
      (he : exec cfg env st1 (.free p) = some (st2,r)) : Releases cfg env st (p :: ps) st2
  | write {ps : List Nat} {st1 : State} {p : Nat} (hrun : Releases cfg env st ps st1) (hp : p ∈ st1.live) (i : Nat)
      (hi : i < st1.heap.chunkUsable cfg p) (b : UInt8) : Releases cfg env st ps (st1.write (p + i) b)

section

variable {cfg : Config} {env : Env} (S : Setup cfg env) {st st' : State} {cs : List Chunk} {ps : List Nat}

include S

theorem StInv.write_stale (hs : StInv cfg env st cs) {p i q : Nat} (hp : p ∈ st.live)
    (hi : i < st.heap.chunkUsable cfg p) (b : UInt8) (hq : Stale cfg st.heap cs q) :
    Stale cfg (st.write (p + i) b).heap cs q := by
  obtain ⟨c,hc,hcn,rfl⟩ := hs.mem_live S hp
  rw [Heap.chunkUsable,Config.mallocSize,hs.inv.wf.size_eq S hc] at hi
  have hout := hq.outside c hc hcn
  have hql := ChunkAddr.le S.std hq.addr
  refine ⟨hq.addr,?_,hq.outside⟩
  have hkeep : (st.write (c.addr + i) b).heap.sizeRef cfg q = st.heap.sizeRef cfg q :=
    load_congr (fun a ha ha' => Function.update_of_ne (by omega) _ _)
  exact (isFree_of_sizeRef hkeep).trans hq.marked

theorem free_step (hs : StInv cfg env st cs) {p : Nat} (hp : p ∈ st.live) :
    ∃ h' cs', mallocFree cfg st.heap p = some h' ∧ StInv cfg env ⟨h',st.live.erase p⟩ cs' ∧
      ∀ q, q = p ∨ Stale cfg st.heap cs q → Stale cfg h' cs' q := by
  obtain ⟨c,hc,hcn,rfl⟩ := hs.mem_live S hp
  obtain ⟨pre,post,rfl⟩ := List.append_of_mem hc
  obtain ⟨h',cs',heq,hi,-,hl,hstale⟩ := free_stale S hs.inv hcn
  exact ⟨h',cs',heq,⟨hi,by rw [hl]; exact hs.erase_live S hcn⟩,hstale⟩

theorem releases_stale (hs : StInv cfg env st cs) (hrun : Releases cfg env st ps st') :
    ∃ cs', StInv cfg env st' cs' ∧ ∀ p ∈ ps, Stale cfg st'.heap cs' p := by
  induction hrun with
  | nil => exact ⟨cs,hs,by simp⟩
  | free _ hp he ih =>
    obtain ⟨cs1,hs1,hold⟩ := ih
    obtain ⟨h',cs2,heq,hs2,hstale⟩ := free_step S hs1 hp
    rw [exec,heq] at he
    cases he
    refine ⟨cs2,hs2,?_⟩
    intro q hq
    exact hstale q ((List.mem_cons.mp hq).imp_right (hold q))
  | write _ hp i hi b ih =>
    obtain ⟨cs1,hs1,hold⟩ := ih
    exact ⟨cs1,hs1.write S hp hi b,fun q hq => hs1.write_stale S hp hi b (hold q hq)⟩

end

theorem double_free_noop {cfg : Config} {env : Env} (hc : cfg.Standard) (hl : env.limit < 2 ^ cfg.sizeBits)
    {st st' : State} (hr : Intact cfg env st) {ps : List Nat} (hrun : Releases cfg env st ps st') :
    (∀ p ∈ ps, mallocFree cfg st'.heap p = some (st'.heap.setErrno .enomem)) ∧
      ∀ p ∈ st'.live, ∃ st'', exec cfg env st' (.free p) = some (st'',0) := by
  have S : Setup cfg env := ⟨hc,by rwa [hc.pow_bits] at hl⟩
  obtain ⟨cs,hs⟩ := intact_inv S hr
  obtain ⟨cs',hs',hstale⟩ := releases_stale S hs hrun
  constructor
  · intro p hp
    rw [mallocFree,if_neg (hstale p hp).addr.2,if_pos (hstale p hp).marked]
  · intro p hp
    obtain ⟨h',-,heq,-,-⟩ := free_step S hs' hp
    exact ⟨_,by rw [exec,heq]; rfl⟩

def threeBlocks : State :=
  ((misaligned.after word8 alwaysGrows (.malloc 1)).after word8 alwaysGrows (.malloc 1)).after word8 alwaysGrows
    (.malloc 1)

def merged : State :=
  ((threeBlocks.after word8 alwaysGrows (.free 48)).after word8 alwaysGrows (.free 64)).after word8 alwaysGrows
    (.free 32)

theorem threeBlocks_intact : Intact word8 alwaysGrows threeBlocks :=
  (reachable_after (reachable_after (reachable_after (misaligned_reachable (by decide)) _ (.inl rfl)) _ (.inl rfl)) _
    (.inl rfl)).intact rfl

theorem double_free_noop_merged : merged.heap.size word8 32 = 48 ∧
    ∀ p ∈ [32,64,48], mallocFree word8 merged.heap p = some (merged.heap.setErrno .enomem) := by
  have h1 : Releases word8 alwaysGrows threeBlocks [48] (threeBlocks.after word8 alwaysGrows (.free 48)) :=
    .free .nil (by decide) rfl
  have h2 := Releases.free h1 (show 64 ∈ _ by decide) rfl
  have h3 : Releases word8 alwaysGrows threeBlocks [32,64,48] merged :=
    .free h2 (by decide) rfl
  exact ⟨by decide,(double_free_noop word8_standard (by decide) threeBlocks_intact h3).1⟩

end Malloc
