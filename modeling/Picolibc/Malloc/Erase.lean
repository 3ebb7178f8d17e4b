import Mathlib
import Picolibc.Malloc.Targets
import Picolibc.Malloc.Runs

namespace Malloc

open ByteMemory

section

variable (cfg : Config) (env : Env)

def inPlace (h : Heap) (ptr size : Nat) : Option (Heap × Nat) :=
  (if !cfg.isBucketSize (h.size cfg ptr) && decide (h.size cfg ptr < cfg.chunkSize size) then
    reallocGrow cfg env h ptr (cfg.chunkSize size) (h.size cfg ptr)
  else some (h,h.size cfg ptr)).bind (fun r => if cfg.chunkSize size ≤ r.2 then some r else none)

def chunkLimit (ptr old : Nat) : Nat := ptr + old - cfg.headSize

def EraseStays (g : Heap) (ptr size old : Nat) : Prop :=
  ∀ a, ¬(ptr + size ≤ a ∧ a < chunkLimit cfg ptr old) →
    (g.memset (ptr + size) 0 (old - size)).mem a = g.mem a

def ZeroPast (g : Heap) (ptr old : Nat) : Prop :=
  ∀ i, i < cfg.headSize → g.mem (chunkLimit cfg ptr old + i) = 0

end

section

variable {cfg : Config} {env : Env} {h g : Heap} {ptr size old : Nat}

theorem realloc_inPlace (hptr : ptr ≠ 0) (hsize : 0 < size) (hmax : size ≤ cfg.allocMax)
    (hbusy : h.isFree cfg ptr = false) (hp : inPlace cfg env h ptr size = some (g,old)) :
    realloc cfg env h ptr size =
      reallocShrink cfg g ptr size (cfg.chunkSize size) old (cfg.isBucketSize (h.size cfg ptr)) := by
  rw [realloc,if_neg hptr,if_neg hsize.ne',if_neg (by omega),if_neg (by rw [hbusy]; exact Bool.false_ne_true)]
  obtain ⟨r,hgrown,hr⟩ := Option.bind_eq_some_iff.mp hp
  split_ifs at hr with hle
  obtain rfl := Option.some.inj hr
  simp only [hgrown]
  rw [if_pos hle]

theorem inPlace_le (hp : inPlace cfg env h ptr size = some (g,old)) : cfg.chunkSize size ≤ old := by
  obtain ⟨r,-,hr⟩ := Option.bind_eq_some_iff.mp hp
  split_ifs at hr with hle
  obtain rfl := Option.some.inj hr
  exact hle

theorem eraseStays_iff (hle : size + cfg.headSize ≤ old) :
    EraseStays cfg g ptr size old ↔ ZeroPast cfg g ptr old := by
  constructor
  · intro hstay i hi
    have hkeep := hstay (chunkLimit cfg ptr old + i) (by omega)
    rw [← hkeep]
    exact fill_inside (by unfold chunkLimit; omega) (by unfold chunkLimit; omega)
  · intro hz a ha
    by_cases hin : ptr + size ≤ a ∧ a < ptr + size + (old - size)
    · obtain ⟨i,rfl⟩ : ∃ i, a = chunkLimit cfg ptr old + i := by
        refine ⟨a - chunkLimit cfg ptr old,?_⟩
        omega
      rw [hz i (by unfold chunkLimit at hin; omega)]
      exact fill_inside hin.1 hin.2
    · exact fill_apart (by omega)

end

theorem realloc_erase_stays_iff {cfg : Config} {env : Env} (L : cfg.Layout) (hcf : cfg.clearFreed = true)
    {h g : Heap} {c n old : Nat} (hc : c ≠ 0) (hn : 0 < n) (hmax : n ≤ cfg.allocMax)
    (hbusy : h.isFree cfg c = false) (hp : inPlace cfg env h c n = some (g,old)) :
    realloc cfg env h c n =
        (if !cfg.isBucketSize (h.size cfg c) && decide (cfg.chunkMin ≤ old - cfg.chunkSize n) then
          (makeFreeChunk cfg ((g.memset (c + n) 0 (old - n)).setSize cfg c (cfg.chunkSize n))
            (((g.memset (c + n) 0 (old - n)).setSize cfg c (cfg.chunkSize n)).chunkAfter cfg c)
            (old - cfg.chunkSize n)).map (fun h' => (h',c))
        else some (g.memset (c + n) 0 (old - n),c)) ∧
      (EraseStays cfg g c n old ↔ ZeroPast cfg g c old) := by
  have hle := inPlace_le hp
  have hs := (L.chunkSize_spec hmax).2.2.1
  refine ⟨?_,eraseStays_iff (by omega)⟩
  rw [realloc_inPlace hc hn hmax hbusy hp,reallocShrink]
  simp only [hcf,if_true]

theorem following_not_zero {cfg : Config} {env : Env} (S : Setup cfg env) {h : Heap} {pre post : List Chunk}
    {c d : Chunk} (hi : Inv cfg env h (pre ++ c :: d :: post)) : ¬ZeroPast cfg h c.addr c.size := by
  intro hz
  have hcm : c ∈ pre ++ c :: d :: post := by simp
  have hdm : d ∈ pre ++ c :: d :: post := by simp
  have hda : d.addr = c.addr + c.size := by
    obtain ⟨m,-,h1,h2,-⟩ := tiles_split.mp (hi.wf.region_of_mem S hcm).tiles
    omega
  have hpos := hi.wf.pos S hdm
  have hsz := (hi.wf.sizes c hcm).2
  have hload : h.sizeRef cfg d.addr = load (fun _ => 0) (d.addr - cfg.headSize) cfg.headSize := by
    refine load_congr (fun a ha ha' => ?_)
    have ha0 := hz (a - chunkLimit cfg c.addr c.size) (by unfold chunkLimit; omega)
    rwa [show chunkLimit cfg c.addr c.size + (a - chunkLimit cfg c.addr c.size) = a by
      unfold chunkLimit; omega] at ha0
  rw [load_zero,hi.wf.header d hdm] at hload
  omega

def hardened : Config := ⟨8,8,16,64,0,true⟩

def oneBlock : State := (State.mk (Heap.init 16 (fun _ => 0)) []).after hardened alwaysGrows (.malloc 100)

def twoBlocks : State := oneBlock.after hardened alwaysGrows (.malloc 100)

theorem hardened_layout : hardened.Layout :=
  Config.Standard.layout ⟨.inr rfl,rfl,rfl,rfl,by decide⟩

theorem realloc_erase_stays_last :
    ZeroPast hardened oneBlock.heap 32 112 ∧ EraseStays hardened oneBlock.heap 32 8 112 := by
  have hbusy : oneBlock.heap.isFree hardened 32 = false := by decide
  have hp : inPlace hardened alwaysGrows oneBlock.heap 32 8 = some (oneBlock.heap,112) := rfl
  have hzero : ZeroPast hardened oneBlock.heap 32 112 := by
    unfold ZeroPast
    decide
  exact ⟨hzero,(realloc_erase_stays_iff hardened_layout rfl (by decide) (by decide) (by decide) hbusy hp).2.mpr hzero⟩

theorem twoBlocks_reachable : Reachable hardened alwaysGrows twoBlocks :=
  reachable_after (reachable_after (.init 16 _ (by decide)) _ (.inl rfl)) _ (.inl rfl)

theorem realloc_erases_header : ¬ ∀ st, Reachable hardened alwaysGrows st → ∀ c ∈ st.live, ∀ n, 0 < n →
    n ≤ hardened.allocMax → ∀ g old, inPlace hardened alwaysGrows st.heap c n = some (g,old) →
      EraseStays hardened g c n old := by
  intro hall
  have hlive : 32 ∈ twoBlocks.live := by decide
  have hstay := hall twoBlocks twoBlocks_reachable 32 hlive 8 (by decide) (by decide) twoBlocks.heap 112 rfl
  have hkeep := hstay 136 (by decide)
  exact absurd hkeep (by decide)

end Malloc
