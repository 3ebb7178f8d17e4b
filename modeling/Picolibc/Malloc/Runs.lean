import Mathlib
import Picolibc.Malloc.Memalign

set_option linter.unusedSectionVars false

namespace Malloc

open ByteMemory LinkedList

inductive Call where
  | malloc (s : Nat)
  | calloc (n elem : Nat)
  | realloc (ptr size : Nat)
  | memalign (align s : Nat)
  | free (ptr : Nat)
  deriving DecidableEq, Repr

structure State where
  heap : Heap
  live : List Nat

def State.grant (st : State) (x : Heap × Nat) : State × Nat :=
  (⟨x.1,if x.2 = 0 then st.live else x.2 :: st.live⟩,x.2)

def State.regrant (st : State) (ptr size : Nat) (x : Heap × Nat) : State × Nat :=
  (⟨x.1,if x.2 ≠ 0 then x.2 :: st.live.erase ptr else
    if size = 0 then st.live.erase ptr else st.live⟩,x.2)

def exec (cfg : Config) (env : Env) (st : State) : Call → Option (State × Nat)
  | .malloc s => (malloc cfg env st.heap s).map st.grant
  | .calloc n elem => (calloc cfg env st.heap n elem).map st.grant
  | .realloc ptr size => (realloc cfg env st.heap ptr size).map (st.regrant ptr size)
  | .memalign align s => (memalign cfg env st.heap align s).map st.grant
  | .free ptr => (mallocFree cfg st.heap ptr).map (fun h => (⟨h,st.live.erase ptr⟩,0))

def State.write (st : State) (a : Nat) (b : UInt8) : State :=
  ⟨{ st.heap with mem := Function.update st.heap.mem a b },st.live⟩

def Call.target : Call → Nat
  | .realloc ptr _ => ptr
  | .free ptr => ptr
  | _ => 0

def Call.requested : Call → Nat
  | .malloc s => s
  | .calloc n elem => n * elem
  | .realloc _ size => size
  | .memalign _ s => s
  | .free _ => 0

def Call.clears : Call → Bool
  | .malloc _ => true
  | .calloc _ _ => true
  | _ => false

def Allowed (st : State) (call : Call) : Prop := call.target = 0 ∨ call.target ∈ st.live

inductive Reachable (cfg : Config) (env : Env) : State → Prop
  | init (base : Nat) (mem : Mem) (h : base ≤ env.limit) : Reachable cfg env ⟨Heap.init base mem,[]⟩
  | step {st st' : State} {call : Call} {r : Nat} (hr : Reachable cfg env st)
      (ha : Allowed st call) (he : exec cfg env st call = some (st',r)) : Reachable cfg env st'
  | write {st : State} (hr : Reachable cfg env st) {p : Nat} (hp : p ∈ st.live) (i : Nat)
      (hi : i < st.heap.chunkUsable cfg p) (b : UInt8) : Reachable cfg env (st.write (p + i) b)

inductive Intact (cfg : Config) (env : Env) : State → Prop
  | init (base : Nat) (mem : Mem) (h : base ≤ env.limit) : Intact cfg env ⟨Heap.init base mem,[]⟩
  | step {st st' : State} {call : Call} {r : Nat} (hr : Intact cfg env st) (ha : Allowed st call)
      (hq : cfg.clearFreed = true → ∀ p n, call ≠ .realloc p n)
      (he : exec cfg env st call = some (st',r)) : Intact cfg env st'
  | write {st : State} (hr : Intact cfg env st) {p : Nat} (hp : p ∈ st.live) (i : Nat)
      (hi : i < st.heap.chunkUsable cfg p) (b : UInt8) : Intact cfg env (st.write (p + i) b)

def Config.numBucketPot (cfg : Config) : Nat :=
  if cfg.smallBucket = 0 then 0 else cfg.maxBucketPot - cfg.minBucketPot + 1

def TilesBy (cfg : Config) (h : Heap) : Nat → List Nat → Nat → Prop
  | a, [], b => a = b
  | a, p :: ps, b => p = a + cfg.headSize ∧ TilesBy cfg h (a + h.size cfg p) ps b

structure Partition (cfg : Config) (h : Heap) (live free : List Nat) (buckets : Nat → List Nat)
    (chunks : List Nat) : Prop where
  list : Seg (h.next cfg) h.freeList free 0
  bucketLists : ∀ b, b < cfg.numBucketPot → Seg (h.next cfg) (h.bucketList b) (buckets b) 0
  cover : chunks.Perm (live ++ (free ++ (List.range cfg.numBucketPot).flatMap buckets))
  aligned : ∀ p ∈ chunks, p % cfg.chunkAlign = 0
  sizes : ∀ p ∈ chunks, h.size cfg p % cfg.chunkAlign = 0 ∧ cfg.chunkMin ≤ h.size cfg p
  sorted : free.Pairwise (· < ·)
  merged : free.IsChain (fun p q => h.chunkAfter cfg p ≠ q)
  general : ∀ p ∈ free, cfg.isBucketSize (h.size cfg p) = false
  bucket : ∀ b, b < cfg.numBucketPot → ∀ p ∈ buckets b, h.size cfg p = cfg.bucketSize b
  bits : ∀ p ∈ chunks, h.isFree cfg p = true ↔ p ∉ live

section

variable {cfg : Config} {env : Env} (S : Setup cfg env) {h : Heap} {cs : List Chunk}

include S

theorem bucket_lt (hi : Inv cfg env h cs) {c : Chunk} (hc : c ∈ cs) {b : Nat} (hb : c.loc = .bucket b) :
    b < cfg.numBucketPot ∧ c.size = cfg.bucketSize b := by
  obtain ⟨h1,h2⟩ := (hi.settled c hc).bucket b hb
  rw [Config.isBucketSize_iff,h2] at h1
  obtain ⟨h0,hmax,hs⟩ := h1
  refine ⟨?_,hs⟩
  rw [hs,S.std.bucketSize_eq,S.std.maxBucket_eq] at hmax
  have hle : b + 4 ≤ cfg.maxBucketPot := by
    apply (Nat.pow_le_pow_iff_right (show 1 < 2 by omega)).mp
    omega
  rw [Config.numBucketPot,if_neg h0,S.std.minBucketPot_eq]
  omega

theorem tilesBy_of_tiles (hw : WF cfg env h cs) {a b : Nat} (xs : List Chunk) (hx : ∀ c ∈ xs, c ∈ cs)
    (ht : Tiles cfg.headSize a xs b) : TilesBy cfg h a (xs.map Chunk.addr) b := by
  induction xs generalizing a with
  | nil => exact ht
  | cons c xs ih =>
    refine ⟨ht.1,?_⟩
    rw [hw.size_eq S (hx c (by simp))]
    exact ih (fun d hd => hx d (by simp [hd])) ht.2

theorem far_apart (hi : Inv cfg env h cs) : cs.Pairwise (fun c d =>
    c.loc = .list → d.loc = .list → c.addr + c.size ≠ d.addr) := by
  have key : ∀ (xs : List Chunk) (a b : Nat), Tiles cfg.headSize a xs b → (∀ c ∈ xs, 0 < c.size) →
      xs.IsChain Apart → xs.Pairwise (fun c d =>
        c.loc = .list → d.loc = .list → c.addr + c.size ≠ d.addr) := by
    intro xs
    induction xs with
    | nil => exact fun _ _ _ _ _ => .nil
    | cons c xs ih =>
      intro a b ht hp hch
      rw [List.isChain_cons] at hch
      refine .cons ?_ (ih _ _ ht.2 (fun d hd => hp d (by simp [hd])) hch.2)
      intro d hd hcl hdl heq
      cases xs with
      | nil => simp at hd
      | cons e xs =>
        rcases List.mem_cons.mp hd with rfl | hd
        · exact hch.1 d (by simp) ⟨hcl,hdl⟩
        · have h1 := (tiles_bounds ht.2.2 d hd).1
          have h2 := hp e (by simp)
          have h3 := ht.1
          omega
  rcases hi.wf.region with ⟨-,rfl⟩ | hr
  · exact .nil
  · exact key cs _ _ hr.tiles (fun c hc => hi.wf.pos S hc) hi.apart

end

theorem flatMap_insert {f g : Nat → List Nat} {b x : Nat} (hb : g b = x :: f b)
    (hne : ∀ k, k ≠ b → g k = f k) (l : List Nat) (hl : l.Nodup) (hm : b ∈ l) :
    (l.flatMap g).Perm (x :: l.flatMap f) := by
  induction l with
  | nil => simp at hm
  | cons k l ih =>
    rw [List.nodup_cons] at hl
    rcases List.mem_cons.mp hm with rfl | hm
    · have hrest : l.flatMap g = l.flatMap f := by
        apply List.flatMap_congr
        intro j hj
        exact hne j (fun e => hl.1 (e ▸ hj))
      simp [hb,hrest]
    · have hkb : k ≠ b := fun e => hl.1 (e ▸ hm)
      simp only [List.flatMap_cons,hne k hkb]
      exact ((ih hl.2 hm).append_left _).trans List.perm_middle

theorem addrs_perm (n : Nat) (cs : List Chunk) (hb : ∀ c ∈ cs, ∀ b, c.loc = .bucket b → b < n) :
    (cs.map Chunk.addr).Perm
      (live cs ++ (listed cs ++ (List.range n).flatMap (fun b => bucketed b cs))) := by
  induction cs with
  | nil => simp [bucketed]
  | cons c cs ih =>
    have ih := (ih (fun d hd => hb d (by simp [hd]))).cons c.addr
    rw [List.map_cons]
    refine ih.trans ?_
    cases hl : c.loc with
    | none =>
      simp only [live_cons,listed_cons,bucketed_cons,hl]
      simp
    | list =>
      simp only [live_cons,listed_cons,bucketed_cons,hl]
      simpa using List.perm_middle.symm
    | bucket b =>
      have hlt := hb c (by simp) b hl
      have hins := flatMap_insert (f := fun k => bucketed k cs) (g := fun k => bucketed k (c :: cs))
        (b := b) (x := c.addr) (by simp [bucketed_cons,hl])
        (fun k hk => by simp [bucketed_cons,hl,Ne.symm hk]) (List.range n) List.nodup_range
        (List.mem_range.mpr hlt)
      simp only [live_cons,listed_cons,hl]
      simp only [reduceCtorEq,if_false]
      refine List.Perm.trans ?_ ((hins.symm.append_left _).append_left _)
      refine List.Perm.trans ?_ (List.perm_middle.symm.append_left _)
      exact List.perm_middle.symm

structure StInv (cfg : Config) (env : Env) (st : State) (cs : List Chunk) : Prop where
  inv : Inv cfg env st.heap cs
  live : st.live.Perm (live cs)

structure Frame (cfg : Config) (st st' : State) (p : Nat) : Prop where
  live : p ∈ st'.live
  usable : st'.heap.chunkUsable cfg p = st.heap.chunkUsable cfg p
  bytes : ∀ i, i < st.heap.chunkUsable cfg p → st'.heap.mem (p + i) = st.heap.mem (p + i)

section

variable {cfg : Config} {env : Env} (S : Setup cfg env) {st st' : State} {cs cs' : List Chunk} {t : Nat}

include S

theorem StInv.mem_live (hs : StInv cfg env st cs) {p : Nat} (hp : p ∈ st.live) :
    ∃ c ∈ cs, c.loc = .none ∧ c.addr = p :=
  Malloc.mem_live.mp (hs.live.mem_iff.mp hp)

theorem partition_of_inv (hs : StInv cfg env st cs) :
    ∃ buckets, Partition cfg st.heap st.live (listed cs) buckets (cs.map Chunk.addr) := by
  have hi := hs.inv
  have hw := hi.wf
  choose buckets hseg hperm using hw.buckets
  have hmap : ∀ p ∈ cs.map Chunk.addr, ∃ c ∈ cs, c.addr = p := by simp
  refine ⟨buckets,hw.list,fun b _ => hseg b,?_,?_,?_,?_,?_,?_,?_,?_⟩
  · refine (addrs_perm cfg.numBucketPot cs (fun c hc b hb => (bucket_lt S hi hc hb).1)).trans ?_
    refine (hs.live.symm.append ?_)
    exact (List.Perm.flatMap_left _ (fun b _ => (hperm b).symm)).append_left _
  · intro p hp
    obtain ⟨c,hc,rfl⟩ := hmap p hp
    rw [S.std.align]
    exact (hw.addr S hc).1
  · intro p hp
    obtain ⟨c,hc,rfl⟩ := hmap p hp
    rw [S.std.align,S.std.chunkMin_eq,hw.size_eq S hc]
    exact hw.sizes c hc
  · rw [listed,List.pairwise_map]
    refine ((hw.pairwise S).imp_of_mem ?_).filter _
    intro c d hc _ hle
    have := hw.pos S hc
    omega
  · refine List.Pairwise.isChain ?_
    rw [listed,List.pairwise_map]
    have hf := (far_apart S hi).filter (fun c => c.loc = .list)
    refine hf.imp_of_mem ?_
    intro c d hc hd hfar
    simp only [List.mem_filter,decide_eq_true_eq] at hc hd
    rw [Heap.chunkAfter,hw.size_eq S hc.1]
    exact hfar hc.2 hd.2
  · intro p hp
    obtain ⟨c,hc,hcl,rfl⟩ := mem_listed.mp hp
    rw [hw.size_eq S hc]
    exact (hi.settled c hc).general hcl
  · intro b _ p hp
    obtain ⟨c,hc,hcl,rfl⟩ := mem_bucketed.mp ((hperm b).mem_iff.mp hp)
    rw [hw.size_eq S hc]
    exact (bucket_lt S hi hc hcl).2
  · intro p hp
    obtain ⟨c,hc,rfl⟩ := hmap p hp
    rw [hw.isFree_eq S hc,(hi.settled c hc).bit,hs.live.mem_iff,Malloc.mem_live]
    constructor
    · rintro hn ⟨d,hd,hdn,hda⟩
      exact hn (hw.eq_of_addr S hd hc hda ▸ hdn)
    · intro hn hcn
      exact hn ⟨c,hc,hcn,rfl⟩

theorem frame_of_keeps (hs : StInv cfg env st cs) (hs' : StInv cfg env st' cs')
    (hk : Keeps cfg t st.heap st'.heap cs cs') {p : Nat} (hp : p ∈ st.live) (hpt : p ≠ t) :
    Frame cfg st st' p := by
  obtain ⟨c,hc,hcn,rfl⟩ := hs.mem_live S hp
  obtain ⟨hm,hb⟩ := hk c hc hcn hpt
  have hsz := hs.inv.wf.size_eq S hc
  have hsz' := hs'.inv.wf.size_eq S hm
  refine ⟨hs'.live.mem_iff.mpr (Malloc.mem_live.mpr ⟨c,hm,hcn,rfl⟩),?_,?_⟩
  · rw [Heap.chunkUsable,Heap.chunkUsable,hsz,hsz']
  · intro i hi
    rw [Heap.chunkUsable,Config.mallocSize,hsz] at hi
    exact hb _ (by omega) (by omega)

theorem StInv.ne_zero (hs : StInv cfg env st cs) {p : Nat} (hp : p ∈ st.live) : p ≠ 0 := by
  obtain ⟨c,hc,-,rfl⟩ := hs.mem_live S hp
  exact (hs.inv.wf.addr S hc).2

theorem StInv.write (hs : StInv cfg env st cs) {p i : Nat} (hp : p ∈ st.live)
    (hi : i < st.heap.chunkUsable cfg p) (b : UInt8) : StInv cfg env (st.write (p + i) b) cs := by
  obtain ⟨c,hc,hcn,rfl⟩ := hs.mem_live S hp
  rw [Heap.chunkUsable,Config.mallocSize,hs.inv.wf.size_eq S hc] at hi
  refine ⟨⟨hs.inv.wf.payload S hc hcn ?_,hs.inv.settled,hs.inv.apart⟩,hs.live⟩
  intro a ha
  exact Function.update_of_ne (by omega) _ _

structure Effect (cfg : Config) (env : Env) (st : State) (call : Call) (st' : State) (r : Nat)
    (cs cs' : List Chunk) : Prop where
  inv : StInv cfg env st' cs'
  keeps : Keeps cfg call.target st.heap st'.heap cs cs'
  chunk : r ≠ 0 → ∃ c ∈ cs', c.addr = r ∧ c.loc = .none ∧ call.requested + cfg.headSize ≤ c.size
  zero : r ≠ 0 → call.clears = true → ∀ i, i < call.requested → st'.heap.mem (r + i) = 0
  moved : ∀ p n, call = .realloc p n → p ≠ 0 → r ≠ 0 → ∀ i, i < st.heap.chunkUsable cfg p → i < n →
    st'.heap.mem (r + i) = st.heap.mem (p + i)
  failed : ∀ p n, call = .realloc p n → p ≠ 0 → n ≠ 0 → r = 0 → Frame cfg st st' p

theorem grant_effect (call : Call) (h' : Heap) (r : Nat) (hs : StInv cfg env st cs)
    (ht : call.target = 0) (hcall : ∀ p n, call = .realloc p n → p = 0)
    (h : (r = 0 ∧ Inv cfg env h' cs ∧ h'.mem = st.heap.mem) ∨
      (r ≠ 0 ∧ ∃ cs', Outcome cfg env st.heap h' cs cs' r call.requested ∧
        (call.clears = true → Zeroed cfg h' cs' r))) :
    ∃ cs', Effect cfg env st call (st.grant (h',r)).1 r cs cs' := by
  rcases h with ⟨rfl,hi,hm⟩ | ⟨hr,cs',hout,hz⟩
  · refine ⟨cs,⟨hi,hs.live⟩,?_,by simp,by simp,?_,?_⟩
    · intro c hc _ _
      exact ⟨hc,fun a _ _ => congrFun hm a⟩
    · exact fun p n he hp => absurd (hcall p n he) hp
    · exact fun p n he hp => absurd (hcall p n he) hp
  · obtain ⟨c,hc,hca,hcn,hcs⟩ := hout.chunk
    refine ⟨cs',⟨hout.inv,?_⟩,by rw [ht]; exact hout.keeps,fun _ => ⟨c,hc,hca,hcn,hcs⟩,?_,?_,?_⟩
    · simp only [State.grant,if_neg hr]
      exact (hs.live.cons r).trans hout.live.symm
    · intro _ hcl i hi
      exact hz hcl c hc hca (r + i) (by omega) (by omega)
    · exact fun p n he hp => absurd (hcall p n he) hp
    · exact fun p n he hp => absurd (hcall p n he) hp

theorem malloc_effect (call : Call) (s : Nat) (hs : StInv cfg env st cs)
    (ht : call.target = 0) (hcall : ∀ p n, call = .realloc p n → p = 0) (hreq : call.requested = s) :
    ∃ h' r cs', malloc cfg env st.heap s = some (h',r) ∧
      Effect cfg env st call (st.grant (h',r)).1 r cs cs' := by
  obtain ⟨h',r,heq,hres⟩ := malloc_spec S hs.inv s
  obtain ⟨cs',heff⟩ := grant_effect S call h' r hs ht hcall (by
    rcases hres with hz | ⟨hr,-,cs',hout,hz⟩
    · exact .inl hz
    · exact .inr ⟨hr,cs',hreq ▸ hout,fun _ => hz⟩)
  exact ⟨h',r,cs',heq,heff⟩

theorem StInv.erase_live {pre post : List Chunk} {c : Chunk} (hs : StInv cfg env st (pre ++ c :: post))
    (hcn : c.loc = .none) : (st.live.erase c.addr).Perm (Malloc.live pre ++ Malloc.live post) := by
  have hlive := hs.live
  rw [live_append,live_cons,if_pos hcn] at hlive
  have hperm := (hlive.trans List.perm_middle).erase c.addr
  rwa [List.erase_cons_head] at hperm

theorem free_effect (ptr : Nat) (hs : StInv cfg env st cs) (hp : ptr = 0 ∨ ptr ∈ st.live) :
    ∃ h' cs', mallocFree cfg st.heap ptr = some h' ∧ StInv cfg env ⟨h',st.live.erase ptr⟩ cs' ∧
      Keeps cfg ptr st.heap h' cs cs' := by
  rcases hp with rfl | hp
  · have h0 : 0 ∉ st.live := fun h0 => hs.ne_zero S h0 rfl
    refine ⟨st.heap,cs,by simp [mallocFree],⟨hs.inv,?_⟩,Keeps.refl _ _ _ _⟩
    rw [List.erase_of_not_mem h0]
    exact hs.live
  · obtain ⟨c,hc,hcn,rfl⟩ := hs.mem_live S hp
    obtain ⟨pre,post,rfl⟩ := List.append_of_mem hc
    obtain ⟨h',cs',heq,hi,hk,hl⟩ := free_spec S hs.inv hcn
    exact ⟨h',cs',heq,⟨hi,by rw [hl]; exact hs.erase_live S hcn⟩,hk⟩

theorem realloc_effect (hcf : cfg.clearFreed = false) (ptr size : Nat) (hs : StInv cfg env st cs)
    (hp : ptr = 0 ∨ ptr ∈ st.live) :
    ∃ h' r cs', realloc cfg env st.heap ptr size = some (h',r) ∧
      Effect cfg env st (.realloc ptr size) (st.regrant ptr size (h',r)).1 r cs cs' := by
  rcases hp with rfl | hp
  · have h0 : 0 ∉ st.live := fun h0 => hs.ne_zero S h0 rfl
    obtain ⟨h',r,cs',heq,heff⟩ := malloc_effect S (.realloc 0 size) size hs rfl
      (fun p n he => by injection he with h1 _; exact h1.symm) rfl
    refine ⟨h',r,cs',by rw [realloc,if_pos rfl]; exact heq,?_⟩
    have hsame : (st.regrant 0 size (h',r)).1 = (st.grant (h',r)).1 := by
      simp only [State.regrant,State.grant,List.erase_of_not_mem h0]
      by_cases hr : r = 0 <;> simp [hr]
    rw [hsame]
    exact heff
  · have hp0 := hs.ne_zero S hp
    by_cases hz : size = 0
    · subst hz
      obtain ⟨h',cs',heq,hi,hk⟩ := free_effect S ptr hs (.inr hp)
      refine ⟨h',0,cs',?_,?_,hk,by simp,by simp,by simp,?_⟩
      · rw [realloc,if_neg hp0,if_pos rfl,heq]
        rfl
      · simpa [State.regrant] using hi
      · intro p n he _ hn
        injection he with _ h2
        exact absurd h2.symm hn
    · obtain ⟨c,hc,hcn,rfl⟩ := hs.mem_live S hp
      obtain ⟨pre,post,rfl⟩ := List.append_of_mem hc
      obtain ⟨h',r,heq,hres⟩ := realloc_spec S hcf hs.inv hcn hz
      have hsz := hs.inv.wf.size_eq S hc
      rcases hres with ⟨rfl,hi,hm⟩ | ⟨hr,cs',hres⟩
      · have hk : Keeps cfg 0 st.heap h' (pre ++ c :: post) (pre ++ c :: post) :=
          fun d hd _ _ => ⟨hd,fun a _ _ => congrFun hm a⟩
        have hs' : StInv cfg env (st.regrant c.addr size (h',0)).1 (pre ++ c :: post) :=
          ⟨hi,by simpa [State.regrant,hz] using hs.live⟩
        refine ⟨h',0,_,heq,hs',?_,by simp,by simp,by simp,?_⟩
        · exact fun d hd hdn _ => hk d hd hdn (hs.inv.wf.addr S hd).2
        · intro p n he _ _ _
          injection he with h1 _
          rw [← h1]
          exact frame_of_keeps S hs hs' hk hp hp0
      · refine ⟨h',r,cs',heq,⟨hres.inv,?_⟩,hres.keeps,fun _ => hres.chunk,by simp [Call.clears],?_,?_⟩
        · have hlive := hres.live
          have hperm := (List.Perm.cons r hs.live).trans hlive.symm |>.erase c.addr
          rw [List.erase_cons_head] at hperm
          simp only [State.regrant,if_pos hr]
          by_cases hrc : r = c.addr
          · subst hrc
            rw [List.erase_cons_head] at hperm
            exact (List.perm_cons_erase hp).symm.trans hperm
          · rwa [List.erase_cons_tail (by simpa using hrc)] at hperm
        · intro p n he _ _ i hi hin
          injection he with h1 h2
          subst h1 h2
          rw [Heap.chunkUsable,Config.mallocSize,hsz] at hi
          exact hres.content i (by omega) hin
        · exact fun p n he _ _ h0 => absurd h0 hr

theorem exec_effect (hs : StInv cfg env st cs) {call : Call}
    (hcf : cfg.clearFreed = true → ∀ p n, call ≠ .realloc p n) (ha : Allowed st call) :
    ∃ st' r cs', exec cfg env st call = some (st',r) ∧ Effect cfg env st call st' r cs cs' := by
  cases call with
  | malloc s =>
    obtain ⟨h',r,cs',heq,heff⟩ := malloc_effect S (.malloc s) s hs rfl (by simp) rfl
    exact ⟨_,r,cs',by rw [exec,heq]; rfl,heff⟩
  | calloc n elem =>
    by_cases hov : 2 ^ cfg.sizeBits ≤ n * elem
    · obtain ⟨cs',heff⟩ := grant_effect S (.calloc n elem) (st.heap.setErrno .enomem) 0 hs rfl (by simp) (.inl ⟨rfl,hs.inv.congr S ⟨rfl,rfl,rfl⟩ ⟨rfl,rfl,rfl⟩,rfl⟩)
      exact ⟨_,0,cs',by rw [exec,calloc,if_pos hov]; rfl,heff⟩
    · obtain ⟨h',r,cs',heq,heff⟩ := malloc_effect S (.calloc n elem) (n * elem) hs rfl (by simp) rfl
      exact ⟨_,r,cs',by rw [exec,calloc,if_neg hov,heq]; rfl,heff⟩
  | realloc ptr size =>
    have hoff : cfg.clearFreed = false := eq_false_of_ne_true (fun hon => hcf hon ptr size rfl)
    obtain ⟨h',r,cs',heq,heff⟩ := realloc_effect S hoff ptr size hs ha
    exact ⟨_,r,cs',by rw [exec,heq]; rfl,heff⟩
  | memalign align s =>
    obtain ⟨h',r,heq,hres⟩ := memalign_spec S hs.inv align s
    obtain ⟨cs',heff⟩ := grant_effect S (.memalign align s) h' r hs rfl (by simp) (by
      rcases hres with hz | ⟨hr,cs',hout⟩
      · exact .inl hz
      · exact .inr ⟨hr,cs',hout,by simp [Call.clears]⟩)
    exact ⟨_,r,cs',by rw [exec,heq]; rfl,heff⟩
  | free ptr =>
    obtain ⟨h',cs',heq,hi,hk⟩ := free_effect S ptr hs ha
    exact ⟨_,0,cs',by rw [exec,heq]; rfl,hi,hk,by simp,by simp,by simp,by simp⟩

theorem StInv.init {base : Nat} (mem : Mem) (hb : base ≤ env.limit) :
    StInv cfg env ⟨Heap.init base mem,[]⟩ [] :=
  ⟨⟨⟨.inl ⟨rfl,rfl⟩,by simp,by simp,rfl,fun _ => ⟨[],rfl,.refl _⟩,hb⟩,by simp,.nil⟩,.refl _⟩

theorem intact_inv (hr : Intact cfg env st) : ∃ cs, StInv cfg env st cs := by
  induction hr with
  | init base mem hb => exact ⟨[],StInv.init S mem hb⟩
  | step _ ha hq he ih =>
    obtain ⟨cs,hs⟩ := ih
    obtain ⟨st',r,cs',heq,heff⟩ := exec_effect S hs hq ha
    rw [he] at heq
    injection heq with heq
    injection heq with heq _
    exact ⟨cs',heq ▸ heff.inv⟩
  | write _ hp i hi b ih =>
    obtain ⟨cs,hs⟩ := ih
    exact ⟨cs,hs.write S hp hi b⟩

omit S in
theorem Reachable.intact (hcf : cfg.clearFreed = false) (hr : Reachable cfg env st) : Intact cfg env st := by
  induction hr with
  | init base mem hb => exact .init base mem hb
  | step _ ha he ih => exact ih.step ha (fun hon => absurd (hcf.symm.trans hon) Bool.false_ne_true) he
  | write _ hp i hi b ih => exact ih.write hp i hi b

theorem reachable_inv (hcf : cfg.clearFreed = false) (hr : Reachable cfg env st) :
    ∃ cs, StInv cfg env st cs :=
  intact_inv S (hr.intact hcf)

theorem StInv.region (hs : StInv cfg env st cs) :
    (st.heap.sbrkStart ≠ 0 →
      TilesBy cfg st.heap st.heap.sbrkStart (cs.map Chunk.addr) st.heap.sbrkTop) ∧
    (st.heap.sbrkStart = 0 → cs.map Chunk.addr = []) := by
  rcases hs.inv.wf.region with ⟨hz,rfl⟩ | hr
  · exact ⟨fun hn => absurd hz hn,fun _ => rfl⟩
  · exact ⟨fun _ => tilesBy_of_tiles S hs.inv.wf cs (fun _ hc => hc) hr.tiles,
      fun hz => absurd hz hr.start⟩

theorem StInv.usable (hs : StInv cfg env st cs) {c : Chunk} (hc : c ∈ cs) :
    st.heap.chunkUsable cfg c.addr = c.size - cfg.headSize := by
  rw [Heap.chunkUsable,Config.mallocSize,hs.inv.wf.size_eq S hc]

end

def RangesApart (a n b m : Nat) : Prop := a + n ≤ b ∨ b + m ≤ a

def word8 : Config := ⟨8,8,16,64,0,false⟩

def paddingFails : Env := ⟨fun n => n == 1,1000⟩

def alwaysGrows : Env := ⟨fun _ => false,1000⟩

def State.after (cfg : Config) (env : Env) (st : State) (call : Call) : State :=
  match exec cfg env st call with
  | some (st',_) => st'
  | none => st

theorem word8_standard : word8.Standard := ⟨.inr rfl,rfl,rfl,rfl,by decide⟩

theorem reachable_after {cfg : Config} {env : Env} {st : State} (hr : Reachable cfg env st) (call : Call)
    (ha : Allowed st call) : Reachable cfg env (st.after cfg env call) := by
  unfold State.after
  split
  · exact hr.step ha ‹_›
  · exact hr

def misaligned : State := ⟨Heap.init 16 (fun _ => 0),[]⟩

theorem misaligned_reachable {env : Env} (h : 16 ≤ env.limit) : Reachable word8 env misaligned :=
  .init 16 _ h

def fiveBlocks : State := [1,100,1,100,1].foldl (fun st s => st.after word8 alwaysGrows (.malloc s)) misaligned

def checkered : State := (fiveBlocks.after word8 alwaysGrows (.free 176)).after word8 alwaysGrows (.free 48)

theorem checkered_runs : 176 ∈ fiveBlocks.live ∧ 48 ∈ (fiveBlocks.after word8 alwaysGrows (.free 176)).live ∧
    checkered.live.Perm [32,160,288] ∧ checkered.heap.freeList = 48 ∧ checkered.heap.next word8 48 = 176 ∧
    checkered.heap.next word8 176 = 0 ∧ checkered.heap.chunkUsable word8 160 = 8 := by
  decide

theorem reachable_mallocs {cfg : Config} {env : Env} {st : State} (hr : Reachable cfg env st) (sizes : List Nat) :
    Reachable cfg env (sizes.foldl (fun st s => st.after cfg env (.malloc s)) st) := by
  induction sizes generalizing st with
  | nil => exact hr
  | cons s sizes ih => exact ih (reachable_after hr (.malloc s) (.inl rfl))

theorem checkered_reachable : Reachable word8 alwaysGrows checkered :=
  reachable_after (reachable_after (reachable_mallocs (misaligned_reachable (by decide)) _) (.free 176)
    (.inr checkered_runs.1)) (.free 48) (.inr checkered_runs.2.1)

theorem heap_partition {cfg : Config} {env : Env} (hc : cfg.Standard) (hcf : cfg.clearFreed = false)
    (hl : env.limit < 2 ^ cfg.sizeBits) {st : State} (hr : Reachable cfg env st) :
    ∃ free buckets chunks, Partition cfg st.heap st.live free buckets chunks ∧
      (st.heap.sbrkStart ≠ 0 → TilesBy cfg st.heap st.heap.sbrkStart chunks st.heap.sbrkTop) ∧
      (st.heap.sbrkStart = 0 → chunks = []) := by
  have S : Setup cfg env := ⟨hc,by rwa [hc.pow_bits] at hl⟩
  obtain ⟨cs,hs⟩ := reachable_inv S hcf hr
  obtain ⟨buckets,hp⟩ := partition_of_inv S hs
  exact ⟨listed cs,buckets,cs.map Chunk.addr,hp,hs.region S⟩

theorem heap_partition_checkered :
    (checkered.live.Perm [32,160,288] ∧ checkered.heap.freeList = 48 ∧ checkered.heap.next word8 48 = 176) ∧
    ∃ free buckets chunks, Partition word8 checkered.heap checkered.live free buckets chunks ∧
      (checkered.heap.sbrkStart ≠ 0 →
        TilesBy word8 checkered.heap checkered.heap.sbrkStart chunks checkered.heap.sbrkTop) ∧
      (checkered.heap.sbrkStart = 0 → chunks = []) :=
  ⟨⟨checkered_runs.2.2.1,checkered_runs.2.2.2.1,checkered_runs.2.2.2.2.1⟩,
    heap_partition word8_standard rfl (by decide) checkered_reachable⟩

theorem failed_padding_not_tiled : ¬ ∀ st, Reachable word8 paddingFails st →
    ∃ free buckets chunks, Partition word8 st.heap st.live free buckets chunks ∧
      TilesBy word8 st.heap st.heap.sbrkStart chunks st.heap.sbrkTop := by
  intro hall
  obtain ⟨free,buckets,chunks,hp,ht⟩ := hall (misaligned.after word8 paddingFails (.malloc 1))
    (reachable_after (misaligned_reachable (by decide)) _ (.inl rfl))
  have hfree : free = [] := (seg_null_iff hp.list).mp (by decide)
  have hlive : (misaligned.after word8 paddingFails (.malloc 1)).live = [] := by decide
  have hcover := hp.cover
  rw [hfree,hlive,show word8.numBucketPot = 0 from rfl] at hcover
  obtain rfl : chunks = [] := hcover.eq_nil
  have hne : (misaligned.after word8 paddingFails (.malloc 1)).heap.sbrkStart ≠
    (misaligned.after word8 paddingFails (.malloc 1)).heap.sbrkTop := by decide
  exact hne ht

theorem payload_noninterference {cfg : Config} {env : Env} (hc : cfg.Standard)
    (hcf : cfg.clearFreed = false) (hl : env.limit < 2 ^ cfg.sizeBits) {st : State}
    (hr : Reachable cfg env st) {call : Call} (ha : Allowed st call) :
    ∃ st' r, exec cfg env st call = some (st',r) ∧
      (r ≠ 0 → r ∈ st'.live ∧ call.requested ≤ st'.heap.chunkUsable cfg r ∧
        (∀ p ∈ st'.live, p ≠ r →
          RangesApart r (st'.heap.chunkUsable cfg r) p (st'.heap.chunkUsable cfg p)) ∧
        ∃ free buckets chunks, Partition cfg st'.heap st'.live free buckets chunks ∧
          ∀ q ∈ chunks, RangesApart r (st'.heap.chunkUsable cfg r) (q - cfg.headSize) cfg.headSize) ∧
      (r ≠ 0 → call.clears = true → ∀ i, i < call.requested → st'.heap.mem (r + i) = 0) ∧
      (∀ p ∈ st.live, p ≠ call.target → Frame cfg st st' p) ∧
      (∀ p n, call = .realloc p n → p ≠ 0 → r ≠ 0 →
        ∀ i, i < st.heap.chunkUsable cfg p → i < n → st'.heap.mem (r + i) = st.heap.mem (p + i)) ∧
      (∀ p n, call = .realloc p n → p ≠ 0 → n ≠ 0 → r = 0 → Frame cfg st st' p) := by
  have S : Setup cfg env := ⟨hc,by rwa [hc.pow_bits] at hl⟩
  obtain ⟨cs,hs⟩ := reachable_inv S hcf hr
  obtain ⟨st',r,cs',heq,heff⟩ := exec_effect S hs (fun hon => absurd (hcf.symm.trans hon) Bool.false_ne_true) ha
  have hs' := heff.inv
  refine ⟨st',r,heq,?_,heff.zero,fun p hp hpt => frame_of_keeps S hs hs' heff.keeps hp hpt,
    heff.moved,heff.failed⟩
  intro hr0
  obtain ⟨c,hcm,rfl,hcn,hcs⟩ := heff.chunk hr0
  have hcu := hs'.usable S hcm
  have hw0 := hc.word_pos
  obtain ⟨buckets,hp⟩ := partition_of_inv S hs'
  refine ⟨hs'.live.mem_iff.mpr (Malloc.mem_live.mpr ⟨c,hcm,hcn,rfl⟩),by omega,?_,
    listed cs',buckets,cs'.map Chunk.addr,hp,?_⟩
  · intro p hpl hpc
    obtain ⟨d,hd,hdn,rfl⟩ := hs'.mem_live S hpl
    have hdu := hs'.usable S hd
    have := hs'.inv.wf.payload_apart S hcm hd (Ne.symm hpc)
    have := (hs'.inv.wf.sizes d hd).2
    unfold RangesApart
    omega
  · intro q hq
    obtain ⟨d,hd,rfl⟩ := List.mem_map.mp hq
    have hda := ChunkAddr.le hc (hs'.inv.wf.addr S hd)
    have hds := (hs'.inv.wf.sizes d hd).2
    unfold RangesApart
    by_cases he : c.addr = d.addr
    · omega
    · have := hs'.inv.wf.payload_apart S hcm hd he
      omega

theorem payload_noninterference_realloc : ∃ st' r,
    exec word8 alwaysGrows checkered (.realloc 160 50) = some (st',r) ∧
      (r ≠ 0 → ∀ i, i < 8 → st'.heap.mem (r + i) = checkered.heap.mem (160 + i)) ∧
      Frame word8 checkered st' 32 ∧ Frame word8 checkered st' 288 := by
  obtain ⟨-,-,hlive,-,-,-,husable⟩ := checkered_runs
  have hmem (p : Nat) (hp : p ∈ [32,160,288]) : p ∈ checkered.live := hlive.mem_iff.mpr hp
  obtain ⟨st',r,heq,-,-,hframe,hmoved,-⟩ := payload_noninterference word8_standard rfl (by decide) checkered_reachable
    (show Allowed _ (.realloc 160 50) from .inr (hmem 160 (by decide)))
  refine ⟨st',r,heq,fun hr i hi => ?_,hframe 32 (hmem 32 (by decide)) (by decide),
    hframe 288 (hmem 288 (by decide)) (by decide)⟩
  exact hmoved 160 50 rfl (by decide) hr i (by omega) (by omega)

end Malloc
