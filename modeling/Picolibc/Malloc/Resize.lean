import Mathlib
import Picolibc.Malloc.Alloc

set_option linter.unusedSectionVars false

namespace Malloc

open ByteMemory LinkedList

structure Resized (cfg : Config) (env : Env) (h h' : Heap) (cs cs' : List Chunk) (c : Chunk)
    (r need : Nat) : Prop where
  inv : Inv cfg env h' cs'
  keeps : Keeps cfg c.addr h h' cs cs'
  live : (c.addr :: live cs').Perm (r :: live cs)
  chunk : ∃ d ∈ cs', d.addr = r ∧ d.loc = .none ∧ need + cfg.headSize ≤ d.size
  content : ∀ i, i + cfg.headSize < c.size → i < need → h'.mem (r + i) = h.mem (c.addr + i)

section

variable {cfg : Config} {env : Env} (S : Setup cfg env)
  {h h' : Heap} {cs pre post : List Chunk} {c d : Chunk} {a s n m t : Nat}

include S

theorem Inv.bit_false (hi : Inv cfg env h cs) (hcm : c ∈ cs) (hcn : c.loc = .none) : c.bit = false := by
  have := (hi.settled c hcm).bit
  simpa [hcn] using this

theorem Inv.split (hi : Inv cfg env h (pre ++ c :: post)) (hcn : c.loc = .none)
    (hcs : c.size = n + m) (hn : n % (2 * cfg.headSize) = 0 ∧ 2 * cfg.headSize ≤ n)
    (hm : m % (2 * cfg.headSize) = 0 ∧ 2 * cfg.headSize ≤ m) :
    Inv cfg env ((h.setSize cfg c.addr n).setSize cfg (c.addr + n) m)
      (pre ++ ⟨c.addr,n,false,.none⟩ :: ⟨c.addr + n,m,false,.none⟩ :: post) ∧
    Keeps cfg c.addr h ((h.setSize cfg c.addr n).setSize cfg (c.addr + n) m) (pre ++ c :: post)
      (pre ++ ⟨c.addr,n,false,.none⟩ :: ⟨c.addr + n,m,false,.none⟩ :: post) := by
  have hw1 := hi.wf.split S false false hcs hn hm
  have hk1 := hi.wf.keeps_split S false false (t := c.addr) hcs hn.2 (fun _ => rfl)
  rw [hcn] at hw1 hk1
  obtain ⟨hpre,hpost,-⟩ := apart_append_cons.mp hi.apart
  refine ⟨⟨hw1,?_,?_⟩,hk1⟩
  · intro d hd
    simp only [List.mem_append,List.mem_cons] at hd
    rcases hd with hd | rfl | rfl | hd
    · exact hi.settled d (by simp [hd])
    · exact ⟨by simp,by simp,by simp⟩
    · exact ⟨by simp,by simp,by simp⟩
    · exact hi.settled d (by simp [hd])
  · refine apart_append_cons.mpr ⟨hpre,?_,by simp⟩
    rw [List.isChain_cons]
    exact ⟨by simp [Apart],hpost⟩

theorem split_free_back (hi : Inv cfg env h (pre ++ c :: post)) (hcn : c.loc = .none)
    (hcs : c.size = n + m) (hn : n % (2 * cfg.headSize) = 0 ∧ 2 * cfg.headSize ≤ n)
    (hm : m % (2 * cfg.headSize) = 0 ∧ 2 * cfg.headSize ≤ m) :
    ∃ h' cs', makeFreeChunk cfg (h.setSize cfg c.addr n) (c.addr + n) m = some h' ∧
      Inv cfg env h' cs' ∧ Keeps cfg c.addr h h' (pre ++ c :: post) cs' ∧
      ⟨c.addr,n,false,.none⟩ ∈ cs' ∧ live cs' = live (pre ++ c :: post) ∧
      ∀ x, c.addr ≤ x → x + cfg.headSize < c.addr + n → h'.mem x = h.mem x := by
  obtain ⟨hi1,hk1⟩ := hi.split S hcn hcs hn hm
  have hca := ChunkAddr.le S.std (hi.wf.addr S (show c ∈ pre ++ c :: post by simp))
  have hw0 := S.std.word_pos
  have hi2 : Inv cfg env ((h.setSize cfg c.addr n).setSize cfg (c.addr + n) m)
      ((pre ++ [⟨c.addr,n,false,.none⟩]) ++ ⟨c.addr + n,m,false,.none⟩ :: post) := by simpa using hi1
  obtain ⟨h',cs',hfree,hinv,hk2,hlive⟩ := free_spec S hi2 rfl
  have hk2' : Keeps cfg (c.addr + n) ((h.setSize cfg c.addr n).setSize cfg (c.addr + n) m) h'
      (pre ++ ⟨c.addr,n,false,.none⟩ :: ⟨c.addr + n,m,false,.none⟩ :: post) cs' := by simpa using hk2
  obtain ⟨hmem,hbytes⟩ := hk2' ⟨c.addr,n,false,.none⟩ (by simp) rfl (by dsimp only; omega)
  refine ⟨h',cs',hfree,hinv,?_,hmem,?_,?_⟩
  · refine hk1.trans_linked S hk2' ?_
    intro x hx _ hxa
    have hcm : c ∈ pre ++ c :: post := by simp
    have := hi.wf.payload_apart S hcm hx (by omega)
    have := hi.wf.pos S hx
    omega
  · rw [hlive]
    simp [live_cons,hcn]
  · intro x hx hx'
    rw [hbytes x hx hx']
    have h1 : ((h.setSize cfg c.addr n).setSize cfg (c.addr + n) m).mem x = (h.setSize cfg c.addr n).mem x :=
      store_apart (by omega)
    rw [h1]
    exact store_apart (by omega)

theorem split_free_front (hi : Inv cfg env h (pre ++ c :: post)) (hcn : c.loc = .none)
    (hcs : c.size = n + m) (hn : n % (2 * cfg.headSize) = 0 ∧ 2 * cfg.headSize ≤ n)
    (hm : m % (2 * cfg.headSize) = 0 ∧ 2 * cfg.headSize ≤ m) :
    ∃ h' cs', makeFreeChunk cfg (h.setSize cfg (c.addr + n) m) c.addr n = some h' ∧
      Inv cfg env h' cs' ∧ Keeps cfg c.addr h h' (pre ++ c :: post) cs' ∧
      ⟨c.addr + n,m,false,.none⟩ ∈ cs' ∧ live cs' = live pre ++ (c.addr + n) :: live post := by
  obtain ⟨hi1,hk1⟩ := hi.split S hcn hcs hn hm
  have hcomm : (h.setSize cfg c.addr n).setSize cfg (c.addr + n) m =
      (h.setSize cfg (c.addr + n) m).setSize cfg c.addr n := by
    have hmem : store (store h.mem (c.addr - cfg.headSize) cfg.headSize n)
        (c.addr + n - cfg.headSize) cfg.headSize m =
        store (store h.mem (c.addr + n - cfg.headSize) cfg.headSize m)
          (c.addr - cfg.headSize) cfg.headSize n := store_comm (by omega)
    simp only [Heap.setSize,Heap.setSizeRef,hmem]
  obtain ⟨h',cs',hfree,hinv,hk2,hlive⟩ := free_spec S hi1 rfl
  have hw0 := S.std.word_pos
  obtain ⟨hmem,-⟩ := hk2 ⟨c.addr + n,m,false,.none⟩ (by simp) rfl (by dsimp only; omega)
  rw [hcomm] at hfree
  exact ⟨h',cs',hfree,hinv,hk1.trans hk2,hmem,by simpa [live_cons] using hlive⟩

theorem findPast_walk (hw : WF cfg env h cs) (t : Nat) {e : Nat} (he : ∀ x ∈ listed cs, x ≠ e)
    (p1 p2 : List Chunk) (hp : cs = p1 ++ p2) (k : Nat) (hf : (listed p2).length < k) :
    findPast cfg h t e k (slotOf (listed p1)) = some none := by
  induction p2 generalizing p1 k with
  | nil =>
    rw [List.append_nil] at hp
    subst hp
    obtain ⟨k,rfl⟩ : ∃ j, k = j + 1 := ⟨k - 1,by simp at hf; omega⟩
    simp only [findPast,get_slotOf hw.list,if_true]
  | cons x p2 ih =>
    by_cases hxl : x.loc = .list
    · subst hp
      have hxm : x ∈ p1 ++ x :: p2 := by simp
      have hslot : slotOf (listed (p1 ++ [x])) = .next x.addr := by simp [listed_cons,hxl]
      rw [listed_cons,if_pos hxl,List.length_cons] at hf
      obtain ⟨k,rfl⟩ : ∃ j, k = j + 1 := ⟨k - 1,by omega⟩
      simp only [findPast,hw.get_next_listed S hxl]
      rw [if_neg (hw.addr S hxm).2,if_neg (he _ (mem_listed.mpr ⟨x,hxm,hxl,rfl⟩)),← hslot,
        ih (p1 ++ [x]) (by simp) k (by omega),ite_self]
    · have hs : listed (p1 ++ [x]) = listed p1 := listed_snoc S hxl
      rw [listed_cons,if_neg hxl] at hf
      rw [← hs]
      exact ih (p1 ++ [x]) (by simp [hp]) k hf

theorem findPast_none (hw : WF cfg env h cs) (hcm : c ∈ cs) :
    findPast cfg h c.addr (c.addr - cfg.headSize + c.size) (fuel cfg) .head = some none := by
  refine findPast_walk S hw c.addr ?_ [] cs rfl (fuel cfg) (hw.fuel_lt S)
  intro x hx hxe
  have hxa := (hw.listed_addr S x hx).1
  have hca := hw.addr S hcm
  have hle := ChunkAddr.le S.std hca
  have hs := (hw.sizes c hcm).1
  have h1 := hca.1
  rw [hxe] at hxa
  rcases S.std.word with hx | hx <;> rw [hx] at hxa h1 hs hle <;> omega

theorem WF.last_of_end (hw : WF cfg env h (pre ++ c :: post))
    (he : c.addr - cfg.headSize + c.size = h.sbrkTop) : post = [] := by
  have hcm : c ∈ pre ++ c :: post := by simp
  have hle := ChunkAddr.le S.std (hw.addr S hcm)
  cases post with
  | nil => rfl
  | cons d post =>
    have h1 := (hw.order S).2 d (by simp)
    have h2 := (hw.extent S (show d ∈ pre ++ c :: d :: post by simp)).1
    have h3 := hw.pos S (show d ∈ pre ++ c :: d :: post by simp)
    omega

theorem WF.growTop (hw : WF cfg env h (pre ++ [c])) (hcn : c.loc = .none) (hb : c.bit = false)
    (hx : Extended cfg env h h' (pre ++ [c]) a s)
    (hs : s % (2 * cfg.headSize) = 0 ∧ 2 * cfg.headSize ≤ s) :
    WF cfg env (h'.setSizeRef cfg c.addr (c.size + s)) (pre ++ [⟨c.addr,c.size + s,false,.none⟩]) ∧
    Keeps cfg c.addr h (h'.setSizeRef cfg c.addr (c.size + s)) (pre ++ [c])
      (pre ++ [⟨c.addr,c.size + s,false,.none⟩]) ∧
    ∀ x, c.addr ≤ x → (h'.setSizeRef cfg c.addr (c.size + s)).mem x = h.mem x := by
  have hcm : c ∈ pre ++ [c] := by simp
  have hca := ChunkAddr.le S.std (hw.addr S hcm)
  have hcs := (hw.sizes c hcm).2
  have hw0 := S.std.word_pos
  have haddr : a + cfg.headSize = c.addr + c.size := by
    obtain ⟨k,-,h1,h2⟩ := tiles_split.mp hx.tiles
    have : k + c.size = a := h2
    omega
  have happ : WF cfg env (h'.setSize cfg (a + cfg.headSize) s)
      (pre ++ c :: [⟨a + cfg.headSize,s,false,.none⟩]) := by simpa using hw.append S hx hs
  have habs := happ.absorb S rfl
  dsimp only at habs
  rw [hb,hcn] at habs
  have hmem : ∀ x, c.addr ≤ x → (h'.setSizeRef cfg c.addr (c.size + s)).mem x = h.mem x := by
    intro x hxc
    have : (h'.setSizeRef cfg c.addr (c.size + s)).mem x = h'.mem x := store_apart (by omega)
    rw [this,hx.lists.mem]
  refine ⟨?_,?_,hmem⟩
  · refine habs.payload S (c := ⟨c.addr,c.size + s,false,.none⟩)
      (m := (h'.setSizeRef cfg c.addr (c.size + s)).mem) (by simp) rfl ?_
    intro x hxo
    dsimp only at hxo
    have hst : ∀ v, (h'.setSize cfg (a + cfg.headSize) v).mem x = h'.mem x :=
      fun v => store_apart (by omega)
    simp only [Heap.setSizeRef,store]
    split_ifs
    · rfl
    · exact (hst s).symm
  · intro d hd hdn hdt
    have hdp : d ∈ pre := by
      rcases List.mem_append.mp hd with hd | hd
      · exact hd
      · exact absurd (congrArg Chunk.addr (List.mem_singleton.mp hd)) hdt
    refine ⟨by simp [hdp],fun x hx1 hx2 => ?_⟩
    have : (h'.setSizeRef cfg c.addr (c.size + s)).mem x = h'.mem x :=
      store_apart (hw.off_header S hcm hd hx1 hx2)
    rw [this,hx.lists.mem]

theorem growChunk_live (hi : Inv cfg env h (pre ++ c :: post)) (hcn : c.loc = .none)
    (hn : n % (2 * cfg.headSize) = 0) (hlt : c.size < n) (hb : n < 256 ^ cfg.headSize) :
    (∃ h', growChunk cfg env h c.addr n = some (h',false) ∧ SameLists h h' ∧
      Inv cfg env h' (pre ++ c :: post)) ∨
    (∃ h', growChunk cfg env h c.addr n = some (h',true) ∧ post = [] ∧
      Inv cfg env h' (pre ++ [⟨c.addr,n,false,.none⟩]) ∧
      Keeps cfg c.addr h h' (pre ++ c :: post) (pre ++ [⟨c.addr,n,false,.none⟩]) ∧
      ∀ x, c.addr ≤ x → h'.mem x = h.mem x) := by
  have hcm : c ∈ pre ++ c :: post := by simp
  have hw := hi.wf
  have hbit := hi.bit_false S hcm hcn
  have hend : h.chunkEnd cfg c.addr = c.addr - cfg.headSize + c.size := by
    rw [Heap.chunkEnd,hw.header c hcm,hbit]
    rfl
  by_cases htop : c.addr - cfg.headSize + c.size = h.sbrkTop
  · have hnil := hw.last_of_end S htop
    subst hnil
    have hcs := hw.sizes c hcm
    have hmod : (n - c.size) % (2 * cfg.headSize) = 0 := Nat.mod_eq_zero_of_dvd
      (Nat.dvd_sub (Nat.dvd_of_mod_eq_zero hn) (Nat.dvd_of_mod_eq_zero hcs.1))
    have hge : 2 * cfg.headSize ≤ n - c.size :=
      Nat.le_of_dvd (by omega) (Nat.dvd_of_mod_eq_zero hmod)
    have hadd : max cfg.chunkMin (cfg.wrapSub n (h.size cfg c.addr)) = n - c.size := by
      rw [hw.size_eq S hcm,S.std.chunkMin_eq,S.std.wrapSub_of_le hlt.le hb,max_eq_right hge]
    rcases sbrkAligned_spec S hw (n - c.size) with ⟨g,heq,hl,hwg⟩ | ⟨g,a,heq,hx⟩
    · left
      refine ⟨g,?_,hl,hwg,hi.settled,hi.apart⟩
      simp only [growChunk,hend,htop,hadd,heq]
      simp
    · right
      have ha : a = h.sbrkTop := hx.again (by simp)
      obtain ⟨hw1,hk1,hm1⟩ := hw.growTop S hcn hbit hx ⟨hmod,hge⟩
      have hsum : c.size + (n - c.size) = n := by omega
      rw [hsum] at hw1 hk1 hm1
      refine ⟨g.setSizeRef cfg c.addr n,?_,rfl,⟨hw1,?_,?_⟩,hk1,hm1⟩
      · have href : g.sizeRef cfg c.addr = c.size := by
          have hh := hw.header c hcm
          rw [hbit] at hh
          rw [← Nat.add_zero c.size,← Bool.toNat_false,← hh]
          simp only [Heap.sizeRef,hx.lists.mem]
        simp only [growChunk,hend,htop,hadd,heq,ha,href,hsum]
        simp
      · intro d hd
        rcases List.mem_append.mp hd with hd | hd
        · exact hi.settled d (by simp [hd])
        · rw [List.mem_singleton.mp hd]
          exact ⟨by simp,by simp,by simp⟩
      · exact apart_append_cons.mpr ⟨(apart_append_cons.mp hi.apart).1,.nil,by simp⟩
  · left
    refine ⟨h,?_,⟨rfl,rfl,rfl⟩,hi⟩
    simp only [growChunk,hend]
    rw [if_pos htop]

theorem reallocGrow_spec (hi : Inv cfg env h (pre ++ c :: post)) (hcn : c.loc = .none)
    (hn : n % (2 * cfg.headSize) = 0) (hlt : c.size < n) (hb : n < 256 ^ cfg.headSize) :
    (∃ h', reallocGrow cfg env h c.addr n c.size = some (h',c.size) ∧ SameLists h h' ∧
      Inv cfg env h' (pre ++ c :: post)) ∨
    (∃ h', reallocGrow cfg env h c.addr n c.size = some (h',n) ∧ post = [] ∧
      Inv cfg env h' (pre ++ [⟨c.addr,n,false,.none⟩]) ∧
      Keeps cfg c.addr h h' (pre ++ c :: post) (pre ++ [⟨c.addr,n,false,.none⟩]) ∧
      ∀ x, c.addr ≤ x → x + cfg.headSize < c.addr + c.size → h'.mem x = h.mem x) := by
  have hcm : c ∈ pre ++ c :: post := by simp
  have hend : h.chunkEnd cfg c.addr = c.addr - cfg.headSize + c.size := by
    rw [Heap.chunkEnd,hi.wf.header c hcm,hi.bit_false S hcm hcn]
    rfl
  have hcs := (hi.wf.sizes c hcm).2
  have hca := ChunkAddr.le S.std (hi.wf.addr S hcm)
  rcases growChunk_live S hi hcn hn hlt hb with ⟨g,heq,hl,hig⟩ | ⟨g,heq,rfl,hig,hk,hm⟩
  · left
    refine ⟨g,?_,hl,hig⟩
    simp only [reallocGrow,hend,heq,findPast_none S hig.wf hcm]
  · right
    have hcm' : (⟨c.addr,n,false,.none⟩ : Chunk) ∈ pre ++ [⟨c.addr,n,false,.none⟩] := by simp
    have hout : ∀ x, x < c.addr ∨ c.addr + n ≤ x + cfg.headSize →
        fill g.mem (c.addr - cfg.headSize + c.size) 0 (n - c.size) x = g.mem x := by
      intro x hx
      exact fill_apart (by omega)
    refine ⟨_,by simp only [reallocGrow,hend,heq]; rfl,rfl,
      ⟨hig.wf.payload S hcm' rfl hout,hig.settled,hig.apart⟩,
      hk.trans (hig.wf.keeps_payload S hcm' rfl hout),?_⟩
    intro x hx hx'
    rw [← hm x hx]
    exact fill_apart (by omega)

theorem reallocShrink_spec (hcf : cfg.clearFreed = false) (hi : Inv cfg env h (pre ++ c :: post))
    (hcn : c.loc = .none) (hn : n % (2 * cfg.headSize) = 0 ∧ 2 * cfg.headSize ≤ n) (hle : n ≤ c.size)
    (size : Nat) (bk : Bool) :
    ∃ h' cs', reallocShrink cfg h c.addr size n c.size bk = some (h',c.addr) ∧ Inv cfg env h' cs' ∧
      Keeps cfg c.addr h h' (pre ++ c :: post) cs' ∧ live cs' = live (pre ++ c :: post) ∧
      (∃ d ∈ cs', d.addr = c.addr ∧ d.loc = .none ∧ n ≤ d.size) ∧
      ∀ x, c.addr ≤ x → x + cfg.headSize < c.addr + n → h'.mem x = h.mem x := by
  have hcm : c ∈ pre ++ c :: post := by simp
  have hcs := hi.wf.sizes c hcm
  have hmod : (c.size - n) % (2 * cfg.headSize) = 0 := Nat.mod_eq_zero_of_dvd
    (Nat.dvd_sub (Nat.dvd_of_mod_eq_zero hcs.1) (Nat.dvd_of_mod_eq_zero hn.1))
  by_cases hsplit : !bk && decide (cfg.chunkMin ≤ c.size - n)
  · have hextra : 2 * cfg.headSize ≤ c.size - n := by
      rw [← S.std.chunkMin_eq]
      simpa using (Bool.and_eq_true_iff.mp hsplit).2
    obtain ⟨h',cs',heq,hinv,hk,hmem,hlive,hm⟩ := split_free_back S hi hcn
      (show c.size = n + (c.size - n) by omega) hn ⟨hmod,hextra⟩
    have hafter : (h.setSize cfg c.addr n).chunkAfter cfg c.addr = c.addr + n := by
      have hx := hi.wf.extent S hcm
      rw [Heap.chunkAfter,Heap.size,Heap.setSize,sizeRef_setSizeRef_same (by omega)]
      have hn1 := hn.1
      rcases S.std.word with hw | hw <;> rw [hw] at hn1 <;> omega
    refine ⟨h',cs',?_,hinv,hk,hlive,⟨_,hmem,rfl,rfl,le_rfl⟩,hm⟩
    simp only [reallocShrink,hcf,hsplit,if_true,Bool.false_eq_true,if_false,hafter,heq]
    rfl
  · refine ⟨h,_,?_,hi,Keeps.refl _ _ _ _,rfl,⟨c,hcm,rfl,hcn,hle⟩,fun _ _ _ => rfl⟩
    simp only [reallocShrink,hcf,hsplit]
    rfl

theorem live_nodup (hw : WF cfg env h cs) : (live cs).Nodup :=
  (hw.nodup S).sublist (List.filter_sublist.map _)

theorem chunkSize_le {x : Nat} (hs : s ≤ cfg.allocMax)
    (hx : x % (2 * cfg.headSize) = 0 ∧ 2 * cfg.headSize ≤ x) (hle : s + cfg.headSize ≤ x) :
    cfg.chunkSize s ≤ x := by
  rw [S.std.chunkSize_eq hs]
  refine max_le hx.2 ?_
  have hw0 := S.std.word_pos
  have hlt := alignUp_lt (s + cfg.headSize) (show 0 < 2 * cfg.headSize by omega)
  have hm := alignUp_mod (s + cfg.headSize) (a := 2 * cfg.headSize)
  by_contra hgt
  have hd : 2 * cfg.headSize ∣ alignUp (s + cfg.headSize) (2 * cfg.headSize) - x :=
    Nat.dvd_sub (Nat.dvd_of_mod_eq_zero hm) (Nat.dvd_of_mod_eq_zero hx.1)
  have := Nat.le_of_dvd (by omega) hd
  omega

theorem reallocCopy_spec (size : Nat) (hi : Inv cfg env h (pre ++ c :: post)) (hcn : c.loc = .none)
    (hcs : size ≤ cfg.allocMax → c.size ≤ cfg.chunkSize size) :
    ∃ h' r, reallocCopy cfg env h c.addr size c.size = some (h',r) ∧
      ((r = 0 ∧ Inv cfg env h' (pre ++ c :: post) ∧ h'.mem = h.mem) ∨
        (r ≠ 0 ∧ ∃ cs', Resized cfg env h h' (pre ++ c :: post) cs' c r size)) := by
  have hcm : c ∈ pre ++ c :: post := by simp
  have hca := (hi.wf.addr S hcm).2
  obtain ⟨h1,r,hmal,⟨rfl,hi1,hm1⟩ | ⟨hr,hmax,cs1,hout,-⟩⟩ := malloc_spec S hi size
  · exact ⟨h1,0,by simp only [reallocCopy,hmal,if_true],.inl ⟨rfl,hi1,hm1⟩⟩
  · obtain ⟨d,hd,rfl,hdn,hds⟩ := hout.chunk
    have hw1 := hout.inv.wf
    obtain ⟨hc1,hcb⟩ := hout.keeps c hcm hcn hca
    have hfresh : d.addr ∉ live (pre ++ c :: post) :=
      (List.nodup_cons.mp (hout.live.nodup_iff.mp (live_nodup S hw1))).1
    have hne : ∀ x ∈ pre ++ c :: post, x.loc = .none → x.addr ≠ d.addr :=
      fun x hx hxn hxa => hfresh (mem_live.mpr ⟨x,hx,hxn,hxa⟩)
    have hfit : c.size ≤ d.size := (hcs hmax).trans (chunkSize_le S hmax (hw1.sizes d hd) hds)
    have hcopy : ∀ x, x < d.addr ∨ d.addr + d.size ≤ x + cfg.headSize →
        copy h1.mem d.addr c.addr (cfg.mallocSize c.size) x = h1.mem x := by
      intro x hx
      refine copy_apart ?_
      rw [Config.mallocSize]
      omega
    have hw2 := hw1.payload S hd hdn hcopy
    have hk2 := hw1.keeps_payload S hd rfl hcopy
    obtain ⟨pre1,post1,rfl⟩ := List.append_of_mem hc1
    have hi2 : Inv cfg env (h1.memcpy d.addr c.addr (cfg.mallocSize c.size)) (pre1 ++ c :: post1) :=
      ⟨hw2,hout.inv.settled,hout.inv.apart⟩
    obtain ⟨h3,cs3,hfree,hi3,hk3,hlive⟩ := free_spec S hi2 hcn
    have hdc : d.addr ≠ c.addr := (hne c hcm hcn).symm
    obtain ⟨hd3,hdb3⟩ := hk3 d hd hdn hdc
    refine ⟨h3,d.addr,?_,.inr ⟨hr,cs3,hi3,?_,?_,⟨d,hd3,rfl,hdn,hds⟩,?_⟩⟩
    · simp only [reallocCopy,hmal]
      rw [if_neg hr,hfree]
      rfl
    · have hk0 : Keeps cfg c.addr h h1 (pre ++ c :: post) (pre1 ++ c :: post1) :=
        fun x hx hxn _ => hout.keeps x hx hxn (hi.wf.addr S hx).2
      exact (hk0.trans_linked S hk2 hne).trans hk3
    · rw [hlive]
      have hl := hout.live
      rw [live_append,live_cons,if_pos hcn] at hl
      exact List.perm_middle.symm.trans hl
    · intro i hi1 hi2
      have hin : i < cfg.mallocSize c.size := by rw [Config.mallocSize]; omega
      rw [hdb3 (d.addr + i) (by omega) (by omega),← hcb (c.addr + i) (by omega) (by omega)]
      exact copy_inside hin

theorem realloc_spec (hcf : cfg.clearFreed = false) (hi : Inv cfg env h (pre ++ c :: post))
    (hcn : c.loc = .none) {size : Nat} (hs : size ≠ 0) :
    ∃ h' r, realloc cfg env h c.addr size = some (h',r) ∧
      ((r = 0 ∧ Inv cfg env h' (pre ++ c :: post) ∧ h'.mem = h.mem) ∨
        (r ≠ 0 ∧ ∃ cs', Resized cfg env h h' (pre ++ c :: post) cs' c r size)) := by
  have hcm : c ∈ pre ++ c :: post := by simp
  have hca := (hi.wf.addr S hcm).2
  have hnf : h.isFree cfg c.addr = false := by
    rw [hi.wf.isFree_eq S hcm,hi.bit_false S hcm hcn]
  by_cases hmax : cfg.allocMax < size
  · refine ⟨h.setErrno .enomem,0,?_,.inl ⟨rfl,hi.congr S ⟨rfl,rfl,rfl⟩ ⟨rfl,rfl,rfl⟩,rfl⟩⟩
    rw [realloc,if_neg hca,if_neg hs,if_pos hmax]
  · obtain ⟨h1,h2,h3,h4⟩ := S.std.chunkSize_spec (Nat.not_lt.mp hmax)
    have hsz := hi.wf.size_eq S hcm
    have hshrink : ∀ {g : Heap} {p q : List Chunk} {e : Chunk} (bk : Bool), Inv cfg env g (p ++ e :: q) →
        e.loc = .none → e.addr = c.addr → live (p ++ e :: q) = live (pre ++ c :: post) →
        Keeps cfg c.addr h g (pre ++ c :: post) (p ++ e :: q) →
        (∀ x, c.addr ≤ x → x + cfg.headSize < c.addr + c.size → g.mem x = h.mem x) →
        cfg.chunkSize size ≤ e.size →
        ∃ h' r, reallocShrink cfg g c.addr size (cfg.chunkSize size) e.size bk = some (h',r) ∧
          (r ≠ 0 ∧ ∃ cs', Resized cfg env h h' (pre ++ c :: post) cs' c r size) := by
      intro g p q e bk hg hen hea hlive hk hmem hle
      obtain ⟨h',cs',heq,hi',hk',hl',⟨d,hd,hda,hdn,hds⟩,hm'⟩ :=
        reallocShrink_spec S hcf hg hen ⟨h1,h2⟩ hle size bk
      rw [hea] at heq hda hk' hm'
      refine ⟨h',c.addr,heq,hca,cs',hi',hk.trans hk',by rw [hl',hlive],⟨d,hd,hda,hdn,by omega⟩,?_⟩
      intro i hi1 hi2
      rw [hm' (c.addr + i) (by omega) (by omega),hmem (c.addr + i) (by omega) (by omega)]
    by_cases hgrow : !cfg.isBucketSize c.size && decide (c.size < cfg.chunkSize size)
    · have hlt : c.size < cfg.chunkSize size := by
        simpa using (Bool.and_eq_true_iff.mp hgrow).2
      rw [realloc,if_neg hca,if_neg hs,if_neg hmax,if_neg (by simp [hnf])]
      simp only [hsz,hgrow,if_true]
      rcases reallocGrow_spec S hi hcn h1 hlt h4 with ⟨g,heq,hl,hg⟩ | ⟨g,heq,rfl,hg,hk,hm⟩
      · simp only [heq]
        rw [if_neg (by omega)]
        obtain ⟨h',r,hcopy,hres⟩ := reallocCopy_spec S size hg hcn (fun _ => hlt.le)
        refine ⟨h',r,hcopy,?_⟩
        rcases hres with ⟨hr,hi',hm'⟩ | ⟨hr,cs',hres⟩
        · exact .inl ⟨hr,hi',hm'.trans hl.mem⟩
        · refine .inr ⟨hr,cs',hres.inv,?_,hres.live,hres.chunk,?_⟩
          · intro x hx hxn hxt
            rw [← hl.mem]
            exact hres.keeps x hx hxn hxt
          · rw [← hl.mem]
            exact hres.content
      · simp only [heq,le_refl,if_true]
        obtain ⟨h',r,hsh,hres⟩ := hshrink (cfg.isBucketSize c.size) hg rfl rfl
          (by simp [live_cons,hcn]) hk hm le_rfl
        exact ⟨h',r,hsh,.inr hres⟩
    · have hstep : realloc cfg env h c.addr size =
          if cfg.chunkSize size ≤ c.size then
            reallocShrink cfg h c.addr size (cfg.chunkSize size) c.size (cfg.isBucketSize c.size)
          else reallocCopy cfg env h c.addr size c.size := by
        rw [realloc,if_neg hca,if_neg hs,if_neg hmax,if_neg (by simp [hnf])]
        simp only [hsz,hgrow]
        rfl
      rw [hstep]
      by_cases hle : cfg.chunkSize size ≤ c.size
      · rw [if_pos hle]
        obtain ⟨h',r,hsh,hres⟩ := hshrink (cfg.isBucketSize c.size) hi hcn rfl rfl
          (Keeps.refl _ _ _ _) (fun _ _ _ => rfl) hle
        exact ⟨h',r,hsh,.inr hres⟩
      · rw [if_neg hle]
        exact reallocCopy_spec S size hi hcn (fun _ => by omega)

end

end Malloc
