import Mathlib
import Picolibc.Malloc.Sbrk

set_option linter.unusedSectionVars false

namespace Malloc

open ByteMemory LinkedList

structure Outcome (cfg : Config) (env : Env) (h h' : Heap) (cs cs' : List Chunk) (r need : Nat) :
    Prop where
  inv : Inv cfg env h' cs'
  keeps : Keeps cfg 0 h h' cs cs'
  live : (live cs').Perm (r :: live cs)
  chunk : ∃ c ∈ cs', c.addr = r ∧ c.loc = .none ∧ need + cfg.headSize ≤ c.size

def Zeroed (cfg : Config) (h : Heap) (cs : List Chunk) (r : Nat) : Prop :=
  ∀ c ∈ cs, c.addr = r → ∀ a, r ≤ a → a + cfg.headSize < r + c.size → h.mem a = 0

theorem Keeps.widen {cfg : Config} {h h' : Heap} {cs cs' : List Chunk} {t u : Nat}
    (k : Keeps cfg t h h' cs cs') (ht : t ∉ live cs) : Keeps cfg u h h' cs cs' := by
  intro d hd hdn _
  exact k d hd hdn (fun he => ht (mem_live.mpr ⟨d,hd,hdn,he⟩))

section

variable {cfg : Config} {env : Env} (S : Setup cfg env)
  {h h' : Heap} {cs pre post : List Chunk} {c d : Chunk} {a s n t : Nat}

include S

theorem Extended.addr (hw : WF cfg env h cs) (hx : Extended cfg env h h' cs a s) :
    ChunkAddr cfg (a + cfg.headSize) ∧ ∀ d ∈ cs, d.addr + d.size ≤ a + cfg.headSize := by
  have hal := (tiles_aligned hx.tiles hx.aligned (fun d hd => (hw.sizes d hd).1)).2
  have := S.std.word_pos
  exact ⟨⟨hal,by omega⟩,fun d hd => (tiles_bounds hx.tiles d hd).2⟩

theorem WF.append (hw : WF cfg env h cs) (hx : Extended cfg env h h' cs a s)
    (hs : s % (2 * cfg.headSize) = 0 ∧ 2 * cfg.headSize ≤ s) :
    WF cfg env (h'.setSize cfg (a + cfg.headSize) s) (cs ++ [⟨a + cfg.headSize,s,false,.none⟩]) := by
  obtain ⟨hca,hlast⟩ := hx.addr S hw
  have hne : ∀ d ∈ cs, d.addr ≠ a + cfg.headSize := by
    intro d hd
    have := hlast d hd
    have := hw.pos S hd
    omega
  have hn : h'.next cfg = h.next cfg := by funext x; simp only [Heap.next,hx.lists.mem]
  have hsr : h'.sizeRef cfg = h.sizeRef cfg := by funext x; simp only [Heap.sizeRef,hx.lists.mem]
  have hnext : ∀ d ∈ cs, (h'.setSize cfg (a + cfg.headSize) s).next cfg d.addr = h.next cfg d.addr := by
    intro d hd
    rw [← hn]
    exact next_setSizeRef S.std hca (hw.addr S hd)
  have hlim := S.limit
  have hbound := hx.bound
  have hbrk := hx.brk
  refine ⟨.inr ⟨hx.start,?_,hx.aligned,hx.brk.trans hx.top.symm⟩,?_,?_,?_,?_,hx.bound⟩
  · rw [tiles_append]
    exact ⟨a,hx.tiles,rfl,hx.top.symm⟩
  · intro d hd
    rcases List.mem_append.mp hd with hd | hd
    · exact hw.sizes d hd
    · rw [List.mem_singleton.mp hd]
      exact hs
  · intro d hd
    rcases List.mem_append.mp hd with hd | hd
    · rw [← hw.header d hd,← hsr]
      exact sizeRef_setSizeRef_ne S.std hca (hw.addr S hd) (hne d hd)
    · rw [List.mem_singleton.mp hd]
      exact sizeRef_setSizeRef_same (by omega)
  · have hl : listed (cs ++ [⟨a + cfg.headSize,s,false,.none⟩]) = listed cs := by simp [listed_cons]
    rw [hl,show (h'.setSize cfg (a + cfg.headSize) s).freeList = h.freeList from hx.lists.freeList]
    refine seg_congr ?_ hw.list
    intro x hxl
    obtain ⟨d,hd,-,rfl⟩ := mem_listed.mp hxl
    exact hnext d hd
  · intro b
    obtain ⟨xs,hseg,hp⟩ := hw.buckets b
    refine ⟨xs,?_,by simpa [bucketed] using hp⟩
    rw [show (h'.setSize cfg (a + cfg.headSize) s).bucketList = h.bucketList from hx.lists.bucketList]
    refine seg_congr ?_ hseg
    intro x hxl
    obtain ⟨d,hd,-,rfl⟩ := mem_bucketed.mp (hp.mem_iff.mp hxl)
    exact hnext d hd

theorem keeps_append (hw : WF cfg env h cs) (hx : Extended cfg env h h' cs a s) (v t : Nat) :
    Keeps cfg t h (h'.setSize cfg (a + cfg.headSize) v) cs
      (cs ++ [⟨a + cfg.headSize,s,false,.none⟩]) := by
  intro d hd _ _
  refine ⟨by simp [hd],fun x hx1 hx2 => ?_⟩
  have hlast := (hx.addr S hw).2 d hd
  have hm : (h'.setSize cfg (a + cfg.headSize) v).mem x = h'.mem x := store_apart (by omega)
  rw [hm,hx.lists.mem]

theorem growChunk_free (hw : WF cfg env h cs) (hcm : c ∈ cs) (hb : c.bit = true) (n : Nat) :
    growChunk cfg env h c.addr n = some (h,false) := by
  have hr := hw.region_of_mem S hcm
  have hal := (tiles_aligned hr.tiles hr.aligned (fun d hd => (hw.sizes d hd).1)).2
  have hca := hw.addr S hcm
  have hle := ChunkAddr.le S.std hca
  have hs := (hw.sizes c hcm).1
  have hend : h.chunkEnd cfg c.addr = c.addr - cfg.headSize + (c.size + 1) := by
    rw [Heap.chunkEnd,hw.header c hcm,hb]
    rfl
  have hne : h.chunkEnd cfg c.addr ≠ h.sbrkTop := by
    intro heq
    rw [hend] at heq
    have hsum : h.sbrkTop + cfg.headSize = c.addr + c.size + 1 := by omega
    have h1 := hca.1
    rw [hsum] at hal
    rcases S.std.word with hx | hx <;> rw [hx] at hal h1 hs <;> omega
  simp only [growChunk]
  rw [if_pos hne]

theorem findFit_walk (hi : Inv cfg env h cs) (p1 p2 : List Chunk) (hp : cs = p1 ++ p2)
    (m : Nat) (hf : (listed p2).length < m) :
    (∃ pre c post, cs = pre ++ c :: post ∧ c.loc = .list ∧ n ≤ c.size ∧
      findFit cfg env n m h (slotOf (listed p1)) =
        some (takeChunk cfg h (slotOf (listed pre)) c.addr n,c.addr)) ∨
    findFit cfg env n m h (slotOf (listed p1)) = some (h,0) := by
  have hw := hi.wf
  induction p2 generalizing p1 m with
  | nil =>
    right
    rw [List.append_nil] at hp
    subst hp
    obtain ⟨m,rfl⟩ : ∃ k, m = k + 1 := ⟨m - 1,by simp at hf; omega⟩
    have hget : h.get cfg (slotOf (listed cs)) = 0 := get_slotOf hw.list
    simp only [findFit,hget,if_true]
  | cons x p2 ih =>
    by_cases hxl : x.loc = .list
    · subst hp
      have hxm : x ∈ p1 ++ x :: p2 := by simp
      have hget := hw.get_next_listed S hxl
      have hslot : slotOf (listed (p1 ++ [x])) = .next x.addr := by simp [listed_cons,hxl]
      rw [listed_cons,if_pos hxl,List.length_cons] at hf
      obtain ⟨m,rfl⟩ : ∃ k, m = k + 1 := ⟨m - 1,by omega⟩
      have hbit : x.bit = true := (hi.settled x hxm).bit.mpr (by simp [hxl])
      have hstep : findFit cfg env n (m + 1) h (slotOf (listed p1)) =
          if n ≤ x.size then some (takeChunk cfg h (slotOf (listed p1)) x.addr n,x.addr)
          else findFit cfg env n m h (.next x.addr) := by
        simp only [findFit,hget,hw.size_eq S hxm,growChunk_free S hw hxm hbit]
        rw [if_neg (hw.addr S hxm).2,ite_self]
      rw [hstep]
      by_cases hfit : n ≤ x.size
      · left
        exact ⟨p1,x,p2,rfl,hxl,hfit,if_pos hfit⟩
      · rw [if_neg hfit,← hslot]
        exact ih (p1 ++ [x]) (by simp) m (by omega)
    · have hs : listed (p1 ++ [x]) = listed p1 := listed_snoc S hxl
      rw [listed_cons,if_neg hxl] at hf
      rw [← hs]
      exact ih (p1 ++ [x]) (by simp [hp]) m hf

theorem findFit_spec (hi : Inv cfg env h cs) (n : Nat) :
    (∃ pre c post, cs = pre ++ c :: post ∧ c.loc = .list ∧ n ≤ c.size ∧
      findFit cfg env n (fuel cfg) h .head =
        some (takeChunk cfg h (slotOf (listed pre)) c.addr n,c.addr)) ∨
    findFit cfg env n (fuel cfg) h .head = some (h,0) :=
  findFit_walk S hi [] cs rfl (fuel cfg) (hi.wf.fuel_lt S)

theorem mem_set_setNext (g : Heap) (p : Slot) (u v : Nat) {x : Nat}
    (hx : x < t ∨ t + cfg.headSize ≤ x) :
    (g.set cfg p u).mem x = ((g.setNext cfg t v).set cfg p u).mem x := by
  rw [← S.std.chunk] at hx
  cases p with
  | head => exact (store_apart hx).symm
  | next y =>
    simp only [Heap.set,Heap.setNext]
    by_cases hy : y ≤ x ∧ x < y + cfg.mallocChunkSize
    · simp only [store,if_pos hy]
    · rw [store_apart (by omega),store_apart (by omega),store_apart hx]

theorem relink (hw : WF cfg env h (pre ++ c :: d :: post)) (hcl : c.loc = .list) (hdn : d.loc = .none) :
    WF cfg env ((h.setNext cfg d.addr (h.next cfg c.addr)).set cfg (slotOf (listed pre)) d.addr)
      (pre ++ { c with loc := .none } :: { d with loc := .list } :: post) ∧
    Keeps cfg d.addr h
      ((h.setNext cfg d.addr (h.next cfg c.addr)).set cfg (slotOf (listed pre)) d.addr)
      (pre ++ c :: d :: post) (pre ++ { c with loc := .none } :: { d with loc := .list } :: post) := by
  have hcm : c ∈ pre ++ c :: d :: post := by simp
  have hslot : slotOf (listed (pre ++ [c])) = .next c.addr := by simp [listed_cons,hcl]
  have hw' : WF cfg env h ((pre ++ [c]) ++ d :: post) := by simpa using hw
  have hq : h.get cfg (slotOf (listed (pre ++ [c]))) = h.next cfg c.addr := by rw [hslot]; rfl
  have hins := hw'.insert S hdn hq
  have hkins := hw'.keeps_insert S hdn (h.next cfg c.addr) rfl
  rw [hslot] at hins hkins
  have hins' : WF cfg env ((h.setNext cfg d.addr (h.next cfg c.addr)).setNext cfg c.addr d.addr)
      (pre ++ c :: { d with loc := .list } :: post) := by simpa [Heap.set] using hins
  have hkins' : Keeps cfg d.addr h
      ((h.setNext cfg d.addr (h.next cfg c.addr)).setNext cfg c.addr d.addr)
      (pre ++ c :: d :: post) (pre ++ c :: { d with loc := .list } :: post) := by
    simpa [Heap.set] using hkins
  have hdv := (hw.extent S (show d ∈ pre ++ c :: d :: post by simp)).2.1
  have hun := hins'.unlink S hcl
  have hkun := hins'.keeps_unlink S (t := d.addr) d.addr .none (by simp [hcl])
  rw [next_setNext_same S.std hdv] at hun
  have hcm' : { c with loc := .none } ∈ pre ++ { c with loc := .none } :: { d with loc := .list } :: post := by
    simp
  have hsz := (hw.sizes c hcm).2
  have hout : ∀ a, a < c.addr ∨ c.addr + c.size ≤ a + cfg.headSize →
      ((h.setNext cfg d.addr (h.next cfg c.addr)).set cfg (slotOf (listed pre)) d.addr).mem a =
      (((h.setNext cfg d.addr (h.next cfg c.addr)).setNext cfg c.addr d.addr).set cfg
        (slotOf (listed pre)) d.addr).mem a :=
    fun a ha => mem_set_setNext S _ _ _ _ (by omega)
  have hpay := hun.payload S hcm' rfl hout
  have hkpay := hun.keeps_payload S hcm' rfl hout
  have hsame : { (((h.setNext cfg d.addr (h.next cfg c.addr)).setNext cfg c.addr d.addr).set cfg
      (slotOf (listed pre)) d.addr) with mem :=
        ((h.setNext cfg d.addr (h.next cfg c.addr)).set cfg (slotOf (listed pre)) d.addr).mem } =
      (h.setNext cfg d.addr (h.next cfg c.addr)).set cfg (slotOf (listed pre)) d.addr := by
    cases slotOf (listed pre) <;> rfl
  rw [hsame] at hpay hkpay
  have hne := hw.ne_of_linked S hcm (by simp [hcl])
  exact ⟨hpay,(hkins'.trans hkun).trans_linked S hkpay hne⟩

theorem carve_spec (hw : WF cfg env h (pre ++ c :: post)) (hcl : c.loc = .list) {m : Nat}
    (hcs : c.size = n + m) (hn : n % (2 * cfg.headSize) = 0 ∧ 2 * cfg.headSize ≤ n)
    (hm : m % (2 * cfg.headSize) = 0 ∧ 2 * cfg.headSize ≤ m) {f : Heap}
    (hf : f = ((h.setSize cfg c.addr n).setSize cfg (c.addr + n) m).markFree cfg (c.addr + n)) :
    WF cfg env f (pre ++ ⟨c.addr,n,false,.list⟩ :: ⟨c.addr + n,m,true,.none⟩ :: post) ∧
      Keeps cfg c.addr h f (pre ++ c :: post)
        (pre ++ ⟨c.addr,n,false,.list⟩ :: ⟨c.addr + n,m,true,.none⟩ :: post) ∧
      ∀ x ∈ pre ++ c :: post, x.loc = .none → x.addr ≠ c.addr + n := by
  have hw0 := S.std.word_pos
  have hcm : c ∈ pre ++ c :: post := by simp
  have hfresh : ∀ x ∈ pre ++ c :: post, x.loc = .none → x.addr ≠ c.addr + n := by
    intro x hx hxn hxa
    have hxc := (hw.ne_of_linked S hcm (by simp [hcl]) x hx hxn).symm
    have := hw.payload_apart S hcm hx hxc
    have := hw.pos S hx
    omega
  have hw1 := hw.split S false false hcs hn hm
  have hk1 := hw.keeps_split S false false (t := c.addr) hcs hn.2 (fun _ => rfl)
  obtain ⟨g,hg⟩ : ∃ g, g = (h.setSize cfg c.addr n).setSize cfg (c.addr + n) m := ⟨_,rfl⟩
  change WF cfg env ((h.setSize cfg c.addr n).setSize cfg (c.addr + n) m) _ at hw1
  change Keeps cfg _ _ ((h.setSize cfg c.addr n).setSize cfg (c.addr + n) m) _ _ at hk1
  rw [← hg,hcl] at hw1 hk1
  rw [← hg] at hf
  have hmark : f = g.setSizeRef cfg (c.addr + n) (m + true.toNat) := by
    have hsz := hw1.size_eq S (c := ⟨c.addr + n,m,false,.none⟩) (by simp)
    rw [Heap.size] at hsz
    rw [hf,Heap.markFree,hsz]
    rfl
  have hw1' : WF cfg env g ((pre ++ [⟨c.addr,n,false,.list⟩]) ++
      ⟨c.addr + n,m,false,.none⟩ :: post) := by simpa using hw1
  have hw2 := hw1'.setHeader S true
  have hk2 := hw1'.keeps_setHeader S (t := c.addr + n) true (fun _ => rfl)
  dsimp only at hw2 hk2
  rw [← hmark,← List.append_cons] at hw2 hk2
  rw [← List.append_cons] at hk2
  exact ⟨hw2,hk1.trans_linked S hk2 hfresh,hfresh⟩

theorem takeChunk_spec (hi : Inv cfg env h (pre ++ c :: post)) (hcl : c.loc = .list)
    (hn : n % (2 * cfg.headSize) = 0 ∧ 2 * cfg.headSize ≤ n) (hle : n ≤ c.size) :
    ∃ bit rest, WF cfg env (takeChunk cfg h (slotOf (listed pre)) c.addr n)
        (pre ++ ⟨c.addr,n,bit,.none⟩ :: (rest ++ post)) ∧
      Keeps cfg c.addr h (takeChunk cfg h (slotOf (listed pre)) c.addr n) (pre ++ c :: post)
        (pre ++ ⟨c.addr,n,bit,.none⟩ :: (rest ++ post)) ∧
      (∀ d ∈ rest, Settled cfg d) ∧ (rest ++ post).IsChain Apart ∧ live rest = [] := by
  have hw := hi.wf
  have hcm : c ∈ pre ++ c :: post := by simp
  obtain ⟨hpre,hpost,hends⟩ := apart_append_cons.mp hi.apart
  have hcs := hw.sizes c hcm
  have hmod : (c.size - n) % (2 * cfg.headSize) = 0 := Nat.mod_eq_zero_of_dvd
    (Nat.dvd_sub (Nat.dvd_of_mod_eq_zero hcs.1) (Nat.dvd_of_mod_eq_zero hn.1))
  by_cases hrem : 2 * cfg.headSize ≤ c.size - n
  · obtain ⟨f,hf⟩ : ∃ f, f = ((h.setSize cfg c.addr n).setSize cfg (c.addr + n)
      (c.size - n)).markFree cfg (c.addr + n) := ⟨_,rfl⟩
    obtain ⟨hw1,hk1,hfresh⟩ := carve_spec S hw hcl (by omega) hn ⟨hmod,hrem⟩ hf
    have htake : takeChunk cfg h (slotOf (listed pre)) c.addr n =
        if cfg.isBucketSize (c.size - n) then
          (f.pushBucket cfg (cfg.bucketNum (c.size - n)) (c.addr + n)).set cfg (slotOf (listed pre))
            ((f.pushBucket cfg (cfg.bucketNum (c.size - n)) (c.addr + n)).next cfg c.addr)
        else (f.setNext cfg (c.addr + n) (f.next cfg c.addr)).set cfg (slotOf (listed pre))
          (c.addr + n) := by
      simp only [takeChunk,hw.size_eq S hcm,S.std.chunkMin_eq]
      rw [if_pos hrem,← hf]
    rw [htake]
    by_cases hb : cfg.isBucketSize (c.size - n) = true
    · rw [if_pos hb]
      have hw1' : WF cfg env f ((pre ++ [⟨c.addr,n,false,.list⟩]) ++
          ⟨c.addr + n,c.size - n,true,.none⟩ :: post) := by simpa using hw1
      have hw2 := hw1'.pushBucket S (cfg.bucketNum (c.size - n)) rfl
      have hk2 := hw1'.keeps_pushBucket S (t := c.addr + n) (cfg.bucketNum (c.size - n)) rfl
      dsimp only at hw2 hk2
      rw [← List.append_cons] at hw2 hk2
      rw [← List.append_cons] at hk2
      have hw3 := hw2.unlink S rfl
      have hk3 := hw2.keeps_unlink S (t := c.addr + n) ((f.pushBucket cfg
        (cfg.bucketNum (c.size - n)) (c.addr + n)).next cfg c.addr) .none (by simp)
      refine ⟨false,[⟨c.addr + n,c.size - n,true,.bucket (cfg.bucketNum (c.size - n))⟩],hw3,
        hk1.trans_linked S (hk2.trans hk3) hfresh,?_,?_,by simp [live_cons]⟩
      · simp only [List.mem_singleton,forall_eq]
        exact ⟨by simp,by simp,by simp [hb]⟩
      · rw [List.singleton_append,List.isChain_cons]
        exact ⟨by simp [Apart],hpost⟩
    · rw [if_neg hb]
      obtain ⟨hw2,hk2⟩ := relink S hw1 rfl rfl
      refine ⟨false,[⟨c.addr + n,c.size - n,true,.list⟩],hw2,
        hk1.trans_linked S hk2 hfresh,?_,?_,by simp [live_cons]⟩
      · simp only [List.mem_singleton,forall_eq]
        exact ⟨by simp,fun _ => by simpa using hb,by simp⟩
      · rw [List.singleton_append,List.isChain_cons]
        refine ⟨?_,hpost⟩
        intro d hd hdl
        exact (hends hcl).2 d hd hdl.2
  · have hz : c.size = n := by
      rcases Nat.eq_zero_or_pos (c.size - n) with h0 | h0
      · omega
      · exact absurd (Nat.le_of_dvd h0 (Nat.dvd_of_mod_eq_zero hmod)) hrem
    have heq : takeChunk cfg h (slotOf (listed pre)) c.addr n =
        h.set cfg (slotOf (listed pre)) (h.next cfg c.addr) := by
      simp only [takeChunk,hw.size_eq S hcm,S.std.chunkMin_eq]
      rw [if_neg hrem]
    have hun := hw.unlink S hcl
    have hku := hw.keeps_unlink S (t := c.addr) (h.next cfg c.addr) .none (fun _ => rfl)
    rw [heq]
    refine ⟨c.bit,[],?_,?_,by simp,hpost,rfl⟩
    · simpa [hz] using hun
    · simpa [hz] using hku

theorem finishAlloc_spec {g : Heap} {r : Nat} {bit : Bool}
    (hw : WF cfg env g (pre ++ ⟨r,n,bit,.none⟩ :: post))
    (hk : Keeps cfg r h g cs (pre ++ ⟨r,n,bit,.none⟩ :: post))
    (hset : ∀ d, d ∈ pre ∨ d ∈ post → Settled cfg d) (hpre : pre.IsChain Apart)
    (hpost : post.IsChain Apart) (hlive : (live pre ++ live post).Perm (live cs)) (hfresh : r ∉ live cs)
    {need : Nat} (hneed : need + cfg.headSize ≤ n) :
    ∃ h', finishAlloc cfg g r n = (h',r) ∧
      Outcome cfg env h h' cs (pre ++ ⟨r,n,false,.none⟩ :: post) r need ∧
      Zeroed cfg h' (pre ++ ⟨r,n,false,.none⟩ :: post) r := by
  have hmark : g.markBusy cfg r = g.setSizeRef cfg r (n + false.toNat) := by
    have hsz := hw.size_eq S (c := ⟨r,n,bit,.none⟩) (by simp)
    rw [Heap.size] at hsz
    rw [Heap.markBusy,hsz]
    rfl
  have hw1 := hw.setHeader S false
  have hk1 := hw.keeps_setHeader S (t := r) false (fun _ => rfl)
  dsimp only at hw1 hk1
  rw [← hmark] at hw1 hk1
  have hcm : (⟨r,n,false,.none⟩ : Chunk) ∈ pre ++ ⟨r,n,false,.none⟩ :: post := by simp
  have hm : ∀ a, a < r ∨ r + n ≤ a + cfg.headSize →
      fill (g.markBusy cfg r).mem r 0 (n - cfg.headSize) a = (g.markBusy cfg r).mem a :=
    fun a ha => fill_apart (by omega)
  have hk2 := (hk.trans hk1).trans (hw1.keeps_payload S hcm rfl hm)
  have hw2 := hw1.payload S hcm rfl hm
  refine ⟨_,rfl,⟨⟨hw2,?_,?_⟩,hk2.widen hfresh,?_,⟨_,hcm,rfl,rfl,hneed⟩⟩,?_⟩
  · intro d hd
    simp only [List.mem_append,List.mem_cons] at hd
    rcases hd with hd | rfl | hd
    · exact hset d (.inl hd)
    · exact ⟨by simp,by simp,by simp⟩
    · exact hset d (.inr hd)
  · exact apart_append_cons.mpr ⟨hpre,hpost,by simp⟩
  · rw [live_append,live_cons,if_pos rfl]
    exact List.perm_middle.trans (hlive.cons r)
  · intro d hd hda a ha ha'
    have hdr := hw2.eq_of_addr S hd hcm hda
    rw [hdr] at ha'
    dsimp only at ha'
    exact fill_inside ha (by omega)

theorem allocTail_grow (hi : Inv cfg env h cs) (hn : n % (2 * cfg.headSize) = 0 ∧ 2 * cfg.headSize ≤ n)
    {need : Nat} (hneed : need + cfg.headSize ≤ n) :
    ∃ h' r, allocTail cfg env h 0 n = (h',r) ∧
      ((r = 0 ∧ Inv cfg env h' cs ∧ h'.mem = h.mem) ∨
        (r ≠ 0 ∧ ∃ cs', Outcome cfg env h h' cs cs' r need ∧ Zeroed cfg h' cs' r)) := by
  rcases sbrkAligned_spec S hi.wf n with ⟨g,heq,hl,hwg⟩ | ⟨g,a,heq,hx⟩
  · refine ⟨g.setErrno .enomem,0,by simp only [allocTail,heq,if_true],.inl ⟨rfl,?_,hl.mem⟩⟩
    exact ⟨hwg.congr S ⟨rfl,rfl,rfl⟩ ⟨rfl,rfl,rfl⟩,hi.settled,hi.apart⟩
  · have hw1 := hi.wf.append S hx hn
    have hk1 := keeps_append S hi.wf hx n (a + cfg.headSize)
    obtain ⟨hca,hlast⟩ := hx.addr S hi.wf
    have hfresh : a + cfg.headSize ∉ live cs := by
      intro hm
      obtain ⟨d,hd,-,hda⟩ := mem_live.mp hm
      have := hlast d hd
      have := hi.wf.pos S hd
      omega
    obtain ⟨h',hfin,hout⟩ := finishAlloc_spec S hw1 hk1
      (fun d hd => hi.settled d (by simpa using hd)) hi.apart .nil (by simp) hfresh hneed
    exact ⟨h',_,by simp only [allocTail,heq,if_true]; exact hfin,.inr ⟨hca.2,_,hout⟩⟩

theorem malloc_bucket (hi : Inv cfg env h cs) {b need : Nat}
    (hneed : need + cfg.headSize ≤ cfg.bucketSize b) :
    ∃ h' r, allocTail cfg env (popBucket cfg h b).1 (popBucket cfg h b).2 (cfg.bucketSize b) = (h',r) ∧
      ((r = 0 ∧ Inv cfg env h' cs ∧ h'.mem = h.mem) ∨
        (r ≠ 0 ∧ ∃ cs', Outcome cfg env h h' cs cs' r need ∧ Zeroed cfg h' cs' r)) := by
  have hn : cfg.bucketSize b % (2 * cfg.headSize) = 0 ∧ 2 * cfg.headSize ≤ cfg.bucketSize b := by
    refine ⟨S.std.bucketSize_mod b,?_⟩
    rw [S.std.bucketSize_eq]
    exact Nat.le_add_left _ _
  by_cases hz : h.bucketList b = 0
  · rw [popBucket,if_pos hz]
    exact allocTail_grow S hi hn hneed
  · obtain ⟨pre,c,post,rfl,hca,hcl,hw1⟩ := hi.wf.popBucket S rfl hz
    have hcm : c ∈ pre ++ c :: post := by simp
    have hsize : c.size = cfg.bucketSize b := by
      obtain ⟨h1,h2⟩ := (hi.settled c hcm).bucket b hcl
      rw [Config.isBucketSize_iff,h2] at h1
      exact h1.2.2
    have hk1 : Keeps cfg c.addr h (h.setBucket b (h.next cfg (h.bucketList b))) (pre ++ c :: post)
        (pre ++ { c with loc := .none } :: post) :=
      WF.keeps_replace S pre [c] [{ c with loc := .none }] post (by simp) (fun _ _ _ _ _ _ => rfl)
    obtain ⟨hpre,hpost,-⟩ := apart_append_cons.mp hi.apart
    have hfresh : c.addr ∉ live (pre ++ c :: post) := by
      intro hm
      obtain ⟨d,hd,hdn,hda⟩ := mem_live.mp hm
      exact hi.wf.ne_of_linked S hcm (by simp [hcl]) d hd hdn hda
    rw [popBucket,if_neg hz]
    rw [← hsize] at hneed ⊢
    obtain ⟨h',hfin,hout⟩ := finishAlloc_spec S hw1 hk1
      (fun d hd => hi.settled d (by rcases hd with hd | hd <;> simp [hd])) hpre hpost
      (by simp [live_cons,hcl]) hfresh hneed
    refine ⟨h',c.addr,?_,.inr ⟨(hi.wf.addr S hcm).2,_,hout⟩⟩
    rw [hca] at hfin ⊢
    rw [allocTail,if_neg hz]
    exact hfin

theorem malloc_spec (hi : Inv cfg env h cs) (s : Nat) :
    ∃ h' r, malloc cfg env h s = some (h',r) ∧
      ((r = 0 ∧ Inv cfg env h' cs ∧ h'.mem = h.mem) ∨
        (r ≠ 0 ∧ s ≤ cfg.allocMax ∧ ∃ cs', Outcome cfg env h h' cs cs' r s ∧
          Zeroed cfg h' cs' r)) := by
  simp only [malloc]
  split_ifs with hbig hbk
  · exact ⟨_,_,rfl,.inl ⟨rfl,hi.congr S ⟨rfl,rfl,rfl⟩ ⟨rfl,rfl,rfl⟩,rfl⟩⟩
  · obtain ⟨-,h2,h3,-⟩ := S.std.chunkSize_spec (Nat.not_lt.mp hbig)
    have hle := (S.std.le_bucketSize h2 hbk.2).1
    obtain ⟨h',r,heq,hout⟩ := malloc_bucket S hi (h3.trans hle)
    exact ⟨h',r,congrArg some heq,hout.imp_right (fun ho => ⟨ho.1,Nat.not_lt.mp hbig,ho.2⟩)⟩
  · obtain ⟨h1,h2,h3,-⟩ := S.std.chunkSize_spec (Nat.not_lt.mp hbig)
    rcases findFit_spec S hi (cfg.chunkSize s) with ⟨pre,c,post,rfl,hcl,hfit,heq⟩ | heq
    · have hcm : c ∈ pre ++ c :: post := by simp
      obtain ⟨bit,rest,hw1,hk1,hrest,hchain,hlive⟩ := takeChunk_spec S hi hcl ⟨h1,h2⟩ hfit
      have hfresh : c.addr ∉ live (pre ++ c :: post) := by
        intro hm
        obtain ⟨d,hd,hdn,hda⟩ := mem_live.mp hm
        exact hi.wf.ne_of_linked S hcm (by simp [hcl]) d hd hdn hda
      have hset : ∀ d, d ∈ pre ∨ d ∈ rest ++ post → Settled cfg d := by
        intro d hd
        simp only [List.mem_append] at hd
        rcases hd with hd | hd | hd
        · exact hi.settled d (by simp [hd])
        · exact hrest d hd
        · exact hi.settled d (by simp [hd])
      obtain ⟨h',hfin,hout⟩ := finishAlloc_spec S hw1 hk1 hset
        (apart_append_cons.mp hi.apart).1 hchain (by simp [live_cons,hcl,hlive]) hfresh h3
      have hc0 := (hi.wf.addr S hcm).2
      refine ⟨h',c.addr,?_,.inr ⟨hc0,Nat.not_lt.mp hbig,_,hout⟩⟩
      rw [heq,Option.map_some,allocTail,if_neg hc0]
      exact congrArg some hfin
    · obtain ⟨h',r,htail,hout⟩ := allocTail_grow S hi ⟨h1,h2⟩ h3
      refine ⟨h',r,?_,hout.imp_right (fun ho => ⟨ho.1,Nat.not_lt.mp hbig,ho.2⟩)⟩
      rw [heq,Option.map_some,htail]

end

end Malloc
