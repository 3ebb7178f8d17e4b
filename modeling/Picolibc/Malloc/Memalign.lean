import Mathlib
import Picolibc.Malloc.Resize

set_option linter.unusedSectionVars false

namespace Malloc

open ByteMemory LinkedList

section

variable {cfg : Config} {env : Env} (S : Setup cfg env)
  {h h' : Heap} {cs pre post : List Chunk} {c d : Chunk} {a s n m t align : Nat}

include S

theorem align_pow (hp : align &&& (align - 1) = 0) : ∃ k, max align (upPot cfg.chunkMin) = 2 ^ k := by
  have hpot : upPot cfg.chunkMin = 4 := S.std.minBucketPot_eq
  rw [hpot]
  have hpow : align = 0 ∨ ∃ k, align = 2 ^ k := by
    by_cases h0 : align = 0
    · exact .inl h0
    · exact .inr ((Nat.and_sub_one_eq_zero_iff_isPowerOfTwo h0).mp hp)
  rcases hpow with rfl | ⟨k,rfl⟩
  · exact ⟨2,rfl⟩
  · by_cases hk : 2 ≤ k
    · exact ⟨k,max_eq_left (Nat.pow_le_pow_right (show 0 < 2 by omega) hk)⟩
    · refine ⟨2,max_eq_right ?_⟩
      exact (Nat.pow_le_pow_right (show 0 < 2 by omega) (show k ≤ 2 by omega))

theorem pow_dvd_word (k : Nat) : 2 ^ k ∣ 2 * cfg.headSize ∨ 2 * cfg.headSize ∣ 2 ^ k := by
  have hw : ∃ j, 2 * cfg.headSize = 2 ^ j := by
    rcases S.std.word with hx | hx
    · exact ⟨3,by rw [hx]; rfl⟩
    · exact ⟨4,by rw [hx]; rfl⟩
  obtain ⟨j,hj⟩ := hw
  rw [hj]
  rcases Nat.le_total k j with hkj | hkj
  · exact .inl (pow_dvd_pow 2 hkj)
  · exact .inr (pow_dvd_pow 2 hkj)

theorem alignUp_offset {x : Nat} (hx : x % (2 * cfg.headSize) = 0) (ha : 0 < align)
    (hd : align ∣ 2 * cfg.headSize ∨ 2 * cfg.headSize ∣ align) :
    alignUp x align - x = 0 ∨ ((alignUp x align - x) % (2 * cfg.headSize) = 0 ∧
      2 * cfg.headSize ≤ alignUp x align - x) := by
  rcases hd with hd | hd
  · left
    rw [alignUp_of_mod ha (Nat.mod_eq_zero_of_dvd (hd.trans (Nat.dvd_of_mod_eq_zero hx)))]
    omega
  · have hm : 2 * cfg.headSize ∣ alignUp x align - x :=
      Nat.dvd_sub (hd.trans (Nat.dvd_of_mod_eq_zero (alignUp_mod x))) (Nat.dvd_of_mod_eq_zero hx)
    rcases Nat.eq_zero_or_pos (alignUp x align - x) with h0 | h0
    · exact .inl h0
    · exact .inr ⟨Nat.mod_eq_zero_of_dvd hm,Nat.le_of_dvd h0 hm⟩

theorem splitFront_spec (hi : Inv cfg env h (pre ++ c :: post)) (hcn : c.loc = .none)
    (hpow : ∃ k, align = 2 ^ k) (hroom : align + 2 * cfg.headSize ≤ c.size) :
    ∃ h' cs' d, splitFront cfg h c.addr align = some (h',d.addr) ∧ Inv cfg env h' cs' ∧ d ∈ cs' ∧
      d.loc = .none ∧ d.addr = alignUp c.addr align ∧ c.size ≤ d.size + align ∧
      Keeps cfg c.addr h h' (pre ++ c :: post) cs' ∧
      (c.addr :: live cs').Perm (d.addr :: live (pre ++ c :: post)) := by
  have hcm : c ∈ pre ++ c :: post := by simp
  have hcs := hi.wf.sizes c hcm
  have hx := hi.wf.extent S hcm
  have hl := S.limit
  have hbd := hi.wf.bound
  have hbr := (hi.wf.region_of_mem S hcm).brk
  have ha : 0 < align := by
    obtain ⟨k,rfl⟩ := hpow
    positivity
  have hge := le_alignUp c.addr ha
  have hlt := alignUp_lt c.addr ha
  have hmask : builtinAlignUp c.addr align = alignUp c.addr align := by
    obtain ⟨k,rfl⟩ := hpow
    exact builtinAlignUp_pow c.addr k
  have hsub : cfg.wrapSub (builtinAlignUp c.addr align) c.addr = alignUp c.addr align - c.addr := by
    rw [hmask,S.std.wrapSub_of_le hge (by omega)]
  have hd : align ∣ 2 * cfg.headSize ∨ 2 * cfg.headSize ∣ align := by
    obtain ⟨k,rfl⟩ := hpow
    exact pow_dvd_word S k
  rcases alignUp_offset S (hi.wf.addr S hcm).1 ha hd with h0 | ⟨hmod,hmin⟩
  · refine ⟨h,_,c,by simp only [splitFront,hsub,h0,if_true],hi,hcm,hcn,by omega,by omega,
      Keeps.refl _ _ _ _,List.Perm.refl _⟩
  · obtain ⟨off,hoff⟩ : ∃ k, k = alignUp c.addr align - c.addr := ⟨_,rfl⟩
    rw [← hoff] at hmod hmin
    have hmod' : (c.size - off) % (2 * cfg.headSize) = 0 := Nat.mod_eq_zero_of_dvd
      (Nat.dvd_sub (Nat.dvd_of_mod_eq_zero hcs.1) (Nat.dvd_of_mod_eq_zero hmod))
    obtain ⟨h',cs',heq,hi',hk,hmem,hlive⟩ := split_free_front S hi hcn
      (show c.size = off + (c.size - off) by omega) ⟨hmod,hmin⟩ ⟨hmod',by omega⟩
    have hw0 := S.std.word_pos
    refine ⟨h',cs',_,?_,hi',hmem,rfl,by dsimp only; omega,by dsimp only; omega,hk,?_⟩
    · have hnew : alignUp c.addr align = c.addr + off := by omega
      simp only [splitFront,hsub,← hoff,S.std.chunkMin_eq]
      rw [if_neg (by omega),if_neg (by omega),if_neg (by omega),hi.wf.size_eq S hcm,hmask,hnew,
        S.std.wrapSub_of_le (by omega) (by omega),heq]
      rfl
    · rw [hlive,live_append,live_cons,if_pos hcn]
      refine (List.Perm.cons _ List.perm_middle).trans ?_
      refine (List.Perm.swap _ _ _).trans ?_
      exact List.Perm.cons _ List.perm_middle.symm

theorem splitBack_spec (hi : Inv cfg env h (pre ++ c :: post)) (hcn : c.loc = .none)
    (hn : n % (2 * cfg.headSize) = 0 ∧ 2 * cfg.headSize ≤ n) (hle : n ≤ c.size) :
    ∃ h' cs', splitBack cfg h c.addr n = some (h',c.addr) ∧ Inv cfg env h' cs' ∧
      Keeps cfg c.addr h h' (pre ++ c :: post) cs' ∧ live cs' = live (pre ++ c :: post) ∧
      ∃ d ∈ cs', d.addr = c.addr ∧ d.loc = .none ∧ n ≤ d.size := by
  have hcm : c ∈ pre ++ c :: post := by simp
  have hcs := hi.wf.sizes c hcm
  have hx := hi.wf.extent S hcm
  have hmod : (c.size - n) % (2 * cfg.headSize) = 0 := Nat.mod_eq_zero_of_dvd
    (Nat.dvd_sub (Nat.dvd_of_mod_eq_zero hcs.1) (Nat.dvd_of_mod_eq_zero hn.1))
  have hsub : cfg.wrapSub (h.size cfg c.addr) n = c.size - n := by
    rw [hi.wf.size_eq S hcm,S.std.wrapSub_of_le hle (by omega)]
  by_cases hextra : 2 * cfg.headSize ≤ c.size - n
  · obtain ⟨h',cs',heq,hinv,hk,hmem,hlive,-⟩ := split_free_back S hi hcn
      (show c.size = n + (c.size - n) by omega) hn ⟨hmod,hextra⟩
    have href : cfg.wrapSub (h.sizeRef cfg c.addr) (c.size - n) = n := by
      have hh := hi.wf.header c hcm
      rw [hi.bit_false S hcm hcn,Bool.toNat_false] at hh
      rw [S.std.wrapSub_of_le (by omega) (by omega)]
      omega
    have hafter : (h.setSizeRef cfg c.addr n).chunkAfter cfg c.addr = c.addr + n := by
      rw [Heap.chunkAfter,Heap.size,sizeRef_setSizeRef_same (by omega)]
      have hn1 := hn.1
      rcases S.std.word with hw | hw <;> rw [hw] at hn1 <;> omega
    refine ⟨h',cs',?_,hinv,hk,hlive,_,hmem,rfl,rfl,le_rfl⟩
    simp only [splitBack,hsub,S.std.chunkMin_eq,href,hafter]
    rw [if_pos hextra]
    rw [Heap.setSize] at heq
    rw [heq]
    rfl
  · refine ⟨h,_,?_,hi,Keeps.refl _ _ _ _,rfl,c,hcm,rfl,hcn,hle⟩
    simp only [splitBack,hsub,S.std.chunkMin_eq]
    rw [if_neg hextra]

theorem memalign_spec (hi : Inv cfg env h cs) (align s : Nat) :
    ∃ h' r, memalign cfg env h align s = some (h',r) ∧
      ((r = 0 ∧ Inv cfg env h' cs ∧ h'.mem = h.mem) ∨
        (r ≠ 0 ∧ ∃ cs', Outcome cfg env h h' cs cs' r s)) := by
  have hfail : ∀ e, Inv cfg env (h.setErrno e) cs := fun e => hi.congr S ⟨rfl,rfl,rfl⟩ ⟨rfl,rfl,rfl⟩
  by_cases hp : align &&& (align - 1) = 0
  swap
  · exact ⟨_,0,by rw [memalign,if_pos hp],.inl ⟨rfl,hfail .einval,rfl⟩⟩
  have hpow := align_pow S hp
  obtain ⟨al,hal⟩ : ∃ k, k = max align (upPot cfg.chunkMin) := ⟨_,rfl⟩
  have hal0 : 0 < al := by
    have hpot : upPot cfg.chunkMin = 4 := S.std.minBucketPot_eq
    omega
  rw [← hal] at hpow
  by_cases hbig : cfg.allocMax < al ∨ cfg.allocMax - al < s
  · refine ⟨_,0,?_,.inl ⟨rfl,hfail .enomem,rfl⟩⟩
    rw [memalign,if_neg (by simpa using hp)]
    simp only [← hal]
    rw [if_pos hbig]
  · simp only [not_or,Nat.not_lt] at hbig
    have hsmax : s ≤ cfg.allocMax := by omega
    obtain ⟨h1,h2,h3,-⟩ := S.std.chunkSize_spec hsmax
    have hpad : cfg.wrap (cfg.chunkSize s + al + cfg.chunkMin) =
        cfg.chunkSize s + al + 2 * cfg.headSize := by
      have hm := S.std.allocMax_eq
      have hb := S.std.pow_bound
      have hw := S.std.word
      have hlt := alignUp_lt (s + cfg.headSize) (show 0 < 2 * cfg.headSize by omega)
      have hle : cfg.chunkSize s ≤ s + 3 * cfg.headSize := by
        rw [S.std.chunkSize_eq hsmax]
        exact max_le (by omega) (by omega)
      rw [S.std.chunkMin_eq]
      exact S.std.wrap_of_lt (by omega)
    rw [memalign,if_neg (by simpa using hp)]
    simp only [← hal]
    rw [if_neg (by omega),hpad]
    obtain ⟨g,r,hmal,⟨rfl,hi1,hm1⟩ | ⟨hr,hmax,cs1,hout,-⟩⟩ :=
      malloc_spec S hi (cfg.chunkSize s + al + 2 * cfg.headSize)
    · exact ⟨g,0,by simp only [hmal,if_true],.inl ⟨rfl,hi1,hm1⟩⟩
    · obtain ⟨c,hc,rfl,hcn,hcsz⟩ := hout.chunk
      obtain ⟨pre,post,rfl⟩ := List.append_of_mem hc
      obtain ⟨h2',cs2,d,hfront,hi2,hd,hdn,-,hdsz,hk2,hl2⟩ :=
        splitFront_spec S hout.inv hcn hpow (by omega)
      obtain ⟨pre2,post2,rfl⟩ := List.append_of_mem hd
      obtain ⟨h3',cs3,hback,hi3,hk3,hl3,e,he,hea,hen,hesz⟩ :=
        splitBack_spec S hi2 hdn ⟨h1,h2⟩ (by omega)
      have hfresh : c.addr ∉ live cs :=
        (List.nodup_cons.mp (hout.live.nodup_iff.mp (live_nodup S hout.inv.wf))).1
      have hlive : (live cs3).Perm (d.addr :: live cs) := by
        rw [hl3]
        refine List.Perm.cons_inv (hl2.trans ?_)
        exact (List.Perm.cons d.addr hout.live).trans (List.Perm.swap _ _ _)
      have hfresh' : d.addr ∉ live cs :=
        (List.nodup_cons.mp (hlive.nodup_iff.mp (live_nodup S hi3.wf))).1
      have hkeep : Keeps cfg 0 h h3' cs cs3 := by
        refine (hout.keeps.trans_linked S hk2 ?_).trans_linked S hk3 ?_
        · exact fun x hx hxn hxa => hfresh (mem_live.mpr ⟨x,hx,hxn,hxa⟩)
        · exact fun x hx hxn hxa => hfresh' (mem_live.mpr ⟨x,hx,hxn,hxa⟩)
      refine ⟨h3',d.addr,?_,.inr ⟨(hi2.wf.addr S hd).2,cs3,hi3,hkeep,hlive,e,he,hea,hen,by omega⟩⟩
      simp only [hmal]
      rw [if_neg hr,hfront,Option.bind_some,hback]

end

end Malloc
