import Mathlib
import Picolibc.Argz.Vector

namespace Argz

open BlockHeap Occurrences

def argzCount (argz : List UInt8) (argzLen : Nat) : Nat := (argz.take argzLen).count 0

structure Rewritten (k : Machine) (h : Heap UInt8) (v : Vec) (es : List (List UInt8)) (str new : List UInt8)
    (d : Done × Nat) : Prop where
  ret : d.1.ret = .ok
  vector : Holds k d.1.heap d.1.vec (es.map (replaceAll str new))
  entries : argzCount (d.1.heap.content d.1.vec.argz) d.1.vec.len = argzCount (h.content v.argz) v.len
  replaced : d.2 = (es.map (count str)).sum
  swapped : Swapped h v.argz d.1.heap d.1.vec.argz

section

variable {k : Machine} {h : Heap UInt8} {v : Vec} {es : List (List UInt8)} {str new : List UInt8} {o₁ o₂ : Outcome}
  {fuel : Nat}

theorem joined_zeros (hplain : ∀ e ∈ es, 0 ∉ e) : (joined 0 es).count 0 = es.length := by
  induction es with
  | nil => rfl
  | cons e es ih =>
    rw [joined_cons,List.count_append,List.count_cons_self,ih fun x hx => hplain x (List.mem_cons_of_mem e hx),
      List.count_eq_zero_of_not_mem (hplain e List.mem_cons_self),List.length_cons,Nat.zero_add]

theorem Holds.count (hv : Holds k h v es) : argzCount (h.content v.argz) v.len = es.length := by
  rw [argzCount,hv.content,hv.len,List.take_length,joined_zeros hv.plain]

theorem replaceFrom_plain {l : List UInt8} (hl : 0 ∉ l) (hnew : 0 ∉ new) (s : Nat) : 0 ∉ replaceFrom str new s l := by
  induction l generalizing s with
  | nil => simp
  | cons x l ih =>
    have hrest : 0 ∉ l := fun hm => hl (List.mem_cons_of_mem x hm)
    have hx : (0 : UInt8) ≠ x := fun hz => hl (hz ▸ List.mem_cons_self)
    cases s with
    | succ s => exact ih hrest s
    | zero =>
      rw [replaceFrom_cons]
      split
      · exact fun hm => (List.mem_append.mp hm).elim hnew (ih hrest _)
      · exact fun hm => (List.mem_cons.mp hm).elim hx (ih hrest 0)

theorem map_plain (hplain : ∀ e ∈ es, 0 ∉ e) (hnew : 0 ∉ new) : ∀ e ∈ es.map (replaceAll str new), 0 ∉ e := by
  intro x hx
  obtain ⟨e,he,rfl⟩ := List.mem_map.mp hx
  rw [replaceAll]
  split
  · exact hplain e he
  · exact replaceFrom_plain (hplain e he) hnew 0

theorem new_length (hstr : str ≠ []) (hnul : 0 ∉ str) (new : List UInt8) (es : List (List UInt8)) :
    (joined 0 (es.map (replaceAll str new))).length + (es.map (count str)).sum * str.length =
      (joined 0 es).length + (es.map (count str)).sum * new.length := by
  have := replaceFrom_length hstr new (joined 0 es) 0
  rwa [replaceFrom_joined hstr hnul,countFrom_joined hstr hnul,Nat.zero_min,Nat.add_zero] at this

theorem counted (hv : Holds k h v es) (hstr : str ≠ []) (hnul : 0 ∉ str) (new : List UInt8) (hfuel : v.len + 1 < fuel) :
    countLoop k.sizeBits str new fuel ((h.content v.argz).take v.len) 0 v.len =
      .done ((es.map (count str)).sum % 2 ^ 32,
        ((joined 0 (es.map (replaceAll str new))).length % 2 ^ k.sizeBits : Nat)) := by
  have hlen := new_length hstr hnul new es
  rw [hv.content,hv.len,List.take_length,countLoop_done k.sizeBits hstr hnul new (joined_ended es) (hv.len ▸ hfuel) 0 _
    (by norm_num) (Int.emod_eq_of_lt (by omega) (by exact_mod_cast hv.len ▸ hv.fits)),countFrom_joined hstr hnul,
    Nat.zero_add]
  congr 2
  push_cast
  congr 1
  rw [mul_sub]
  zify at hlen
  linarith

theorem fresh_apart (hv : Holds k h v es) : some h.next ≠ v.argz := by
  intro he
  obtain ⟨l,hl⟩ := hv.valid _ he.symm
  exact absurd (lt_next hl) (lt_irrefl _)

theorem scratch_filled {junk bytes : List UInt8} (hjunk : junk.length = bytes.length) :
    writeAt (h.setBlock h.next (some junk)) h.next 0 bytes =
      some ((h.setBlock h.next (some junk)).setBlock h.next (some bytes)) := by
  have hblock : (h.setBlock h.next (some junk)).blocks h.next = some ([] ++ (junk ++ [])) := by
    rw [setBlock_same]
    simp
  simpa using writeAt_middle hblock hjunk.symm

theorem copied (hstr : str ≠ []) (hnul : 0 ∉ str) (new : List UInt8) (es : List (List UInt8))
    (hfuel : (joined 0 es).length + 1 < fuel) :
    ∃ last out, copyLoop str new (joined 0 (es.map (replaceAll str new))).length fuel (joined 0 es) (joined 0 es) [] =
      .done (last,out) ∧ out ++ last = joined 0 (es.map (replaceAll str new)) := by
  have hwhole := replaceFrom_joined hstr hnul new es
  rcases copyLoop_done hstr hnul new (joined 0 (es.map (replaceAll str new))).length (joined_ended es) hfuel [] with
    ⟨-,hlong⟩ | ⟨last,out,hrun,hout⟩
  · rw [hwhole] at hlong
    exact absurd hlong (lt_irrefl _)
  · exact ⟨last,out,hrun,hout.trans hwhole⟩

theorem putBack_ok (hv : Holds k h v es) {fs : List (List UInt8)} (hplain : ∀ e ∈ fs, 0 ∉ e) (hne : fs ≠ [])
    (hfits : (joined 0 fs).length < 2 ^ k.sizeBits) (ho : o₂ ≠ .fail) {junk : List UInt8}
    (hjunk : junk.length = (joined 0 fs).length) (replaceCount : Nat) :
    ∃ d, putBack k (h.setBlock h.next (some junk)) v h.next (joined 0 fs) (joined 0 fs).length replaceCount o₂ =
      some (d,replaceCount) ∧ d.ret = .ok ∧ Holds k d.heap d.vec fs ∧ Swapped h v.argz d.heap d.vec.argz := by
  let h₁ := (h.setBlock h.next (some junk)).setBlock h.next (some (joined 0 fs))
  have hapart := fresh_apart hv
  have hpos : 0 < (joined 0 fs).length := List.length_pos_iff.mpr (joined_ne_nil hne)
  have hsame : ∀ x, x ≠ h.next → h₁.blocks x = h.blocks x := fun x hx => by
    rw [setBlock_other _ _ hx,setBlock_other _ _ hx]
  have hscratch : h₁.blocks h.next = some (joined 0 fs) := setBlock_same _ _ _
  have hlater : h.next ≤ h₁.next := (le_max_left _ _).trans (le_max_left _ _)
  have hfill : writeAt (h.setBlock h.next (some junk)) h.next 0 (joined 0 fs) = some h₁ := scratch_filled hjunk
  have hvalid : h₁.Valid v.argz := fun q hq => by
    obtain ⟨l,hl⟩ := hv.valid q hq
    exact ⟨l,by rw [hsame q (fun he => hapart (he ▸ hq.symm)),hl]⟩
  obtain ⟨q,h₂,hrun,hblock,hswap⟩ := realloc_ok (k := k) (Swapped.refl h₁ v.argz) id hvalid hvalid ho hpos.ne'
  have hq : some h.next ≠ some q := fun he => by
    have := hswap.taken h.next he hapart
    rw [hscratch] at this
    exact absurd this (by simp)
  have hkept : h₂.blocks h.next = some (joined 0 fs) := (hswap.others _ hapart hq).trans hscratch
  have hread : readAt h₂ h.next 0 (joined 0 fs).length = some (joined 0 fs) :=
    readAt_middle (a := []) (c := []) (by rw [hkept]; simp)
  have hcopy : writeAt h₂ q 0 (joined 0 fs) = some (h₂.setBlock q (some (joined 0 fs))) := by
    have hblock' : h₂.blocks q = some ([] ++ (resized (h₁.content v.argz) (joined 0 fs).length k.junk ++ [])) := by
      rw [hblock]
      simp
    simpa using writeAt_middle hblock' (resized_length _ _ _).symm
  have hheld : (h₂.setBlock q (some (joined 0 fs))).blocks h.next = some (joined 0 fs) := by
    rw [setBlock_other _ _ (fun he : h.next = q => hq (congrArg some he)),hkept]
  refine ⟨⟨.ok,(h₂.setBlock q (some (joined 0 fs))).setBlock h.next none,⟨some q,(joined 0 fs).length⟩⟩,?_,rfl,?_,
    (hswap.set _).freed hsame hlater le_rfl hapart hq⟩
  · rw [putBack,hfill,Option.bind_some,hrun,Option.bind_some]
    simp only [hread,Option.bind_some,hcopy]
    rw [if_neg hpos.ne',free,hheld]
    rfl
  · refine holds_of_block hplain hne ?_ rfl hfits
    rw [setBlock_other _ _ (fun he : q = h.next => hq (congrArg some he.symm)),setBlock_same]

theorem argzReplace_stored (hv : Holds k h v es) (hstr : str ≠ []) (hnul : 0 ∉ str) (hnew : 0 ∉ new) (ho₁ : o₁ ≠ .fail)
    (ho₂ : o₂ ≠ .fail) (hfuel : v.len + 1 < fuel) (hcount : (es.map (count str)).sum % 2 ^ 32 ≠ 0)
    (hfits : (joined 0 (es.map (replaceAll str new))).length < 2 ^ k.sizeBits) :
    ∃ d, argzReplace k h v str new o₁ o₂ fuel = .done (d,(es.map (count str)).sum % 2 ^ 32) ∧ d.ret = .ok ∧
      Holds k d.heap d.vec (es.map (replaceAll str new)) ∧ Swapped h v.argz d.heap d.vec.argz := by
  have hne : es.map (replaceAll str new) ≠ [] := fun hnil => hcount (by rw [List.map_eq_nil_iff.mp hnil]; rfl)
  obtain ⟨last,out,hrun,hout⟩ := copied hstr hnul new es (hv.len ▸ hfuel)
  obtain ⟨d,hput,hret,hholds,hswap⟩ := putBack_ok hv (map_plain hv.plain hnew) hne hfits ho₂ (resized_length [] _ k.junk)
    ((es.map (count str)).sum % 2 ^ 32)
  rw [argzReplace,counted hv hstr hnul new hfuel,Nat.mod_eq_of_lt hfits]
  simp only [Int.toNat_natCast]
  rw [if_neg hcount,malloc,if_neg ho₁,hv.content,hv.len,List.take_length]
  simp only [hrun,hout,hput]
  exact ⟨d,rfl,hret,hholds,hswap⟩

theorem argzReplace_none (hv : Holds k h v es) (hstr : str ≠ []) (hnul : 0 ∉ str) (hfuel : v.len + 1 < fuel)
    (hcount : (es.map (count str)).sum % 2 ^ 32 = 0) :
    argzReplace k h v str new o₁ o₂ fuel = .done (⟨.ok,h,v⟩,0) := by
  rw [argzReplace,counted hv hstr hnul new hfuel,hcount]
  rfl

theorem argzReplace_spins (hv : Holds k h v es) (hes : es ≠ []) (new : List UInt8) (o₁ o₂ : Outcome) (fuel : Nat) :
    argzReplace k h v [] new o₁ o₂ fuel = .spinning := by
  obtain ⟨x,rest,hbuf⟩ := List.exists_cons_of_ne_nil (joined_ne_nil hes)
  rw [argzReplace,hv.content,hv.len,List.take_length,hbuf,countLoop_spins k.sizeBits new fuel (hbuf ▸ joined_ended es)]

theorem argzReplace_empty (hv : Holds k h v []) (str new : List UInt8) (o₁ o₂ : Outcome) (fuel : Nat) :
    argzReplace k h v str new o₁ o₂ (fuel + 1) = .done (⟨.ok,h,v⟩,0) := by
  rw [argzReplace,hv.content,joined_nil,List.take_nil,countLoop,if_pos rfl]
  rfl

theorem argzReplace_mono (k : Machine) (h : Heap UInt8) (v : Vec) (str new : List UInt8) (o₁ o₂ : Outcome) {m : Nat}
    (hle : fuel ≤ m) (hdone : argzReplace k h v str new o₁ o₂ fuel ≠ .spinning) :
    argzReplace k h v str new o₁ o₂ m = argzReplace k h v str new o₁ o₂ fuel := by
  rw [argzReplace] at hdone
  rw [argzReplace,argzReplace]
  have hcount : countLoop k.sizeBits str new fuel ((h.content v.argz).take v.len) 0 v.len ≠ .spinning := fun hspin =>
    hdone (by rw [hspin])
  rw [countLoop_mono k.sizeBits str new hle _ _ _ hcount]
  generalize countLoop k.sizeBits str new fuel ((h.content v.argz).take v.len) 0 v.len = r at hdone
  cases r with
  | fault => rfl
  | spinning => rfl
  | done p =>
    obtain ⟨replaceCount,newLen⟩ := p
    simp only at hdone ⊢
    by_cases hzero : replaceCount = 0
    · rw [if_pos hzero,if_pos hzero]
    · rw [if_neg hzero] at hdone ⊢
      rw [if_neg hzero]
      generalize malloc k h newLen.toNat o₁ = p at hdone ⊢
      rcases p with ⟨_ | scratch,h₁⟩
      · rfl
      · simp only at hdone ⊢
        rw [copyLoop_mono str new _ hle _ _ _ fun hspin => hdone (by rw [hspin])]

theorem argzReplace_iff (hv : Holds k h v es) (hnul : 0 ∉ str) (hnew : 0 ∉ new) (ho₁ : o₁ ≠ .fail) (ho₂ : o₂ ≠ .fail) :
    (∃ fuel d, argzReplace k h v str new o₁ o₂ fuel = .done d ∧ Rewritten k h v es str new d) ↔
      (str ≠ [] ∨ es = []) ∧ (es.map (count str)).sum < 2 ^ 32 ∧
        (joined 0 (es.map (replaceAll str new))).length < 2 ^ k.sizeBits := by
  constructor
  · rintro ⟨fuel,d,hrun,hd⟩
    have hlen : (joined 0 (es.map (replaceAll str new))).length < 2 ^ k.sizeBits := hd.vector.len ▸ hd.vector.fits
    by_cases hes : es = []
    · subst hes
      exact ⟨Or.inr rfl,by norm_num,hlen⟩
    · have hstr : str ≠ [] := by
        rintro rfl
        rw [argzReplace_spins hv hes] at hrun
        exact absurd hrun (by simp)
      refine ⟨Or.inl hstr,?_,hlen⟩
      have hmono := argzReplace_mono k h v str new o₁ o₂ (le_max_left fuel (v.len + 2)) (by rw [hrun]; simp)
      have hfuel : v.len + 1 < max fuel (v.len + 2) := by omega
      have hcount : d.2 = (es.map (count str)).sum % 2 ^ 32 := by
        by_cases hzero : (es.map (count str)).sum % 2 ^ 32 = 0
        · rw [argzReplace_none hv hstr hnul hfuel hzero,hrun,Res.done.injEq] at hmono
          rw [← hmono,hzero]
        · obtain ⟨d',hstored,-⟩ := argzReplace_stored hv hstr hnul hnew ho₁ ho₂ hfuel hzero hlen
          rw [hstored,hrun,Res.done.injEq] at hmono
          rw [← hmono]
      rw [← hd.replaced,hcount]
      exact Nat.mod_lt _ (by norm_num)
  · rintro ⟨hstr,hcount,hlen⟩
    have hself : (es.map (count str)).sum = 0 → ∃ fuel d, argzReplace k h v str new o₁ o₂ fuel = .done d ∧
        Rewritten k h v es str new d := by
      intro hzero
      refine ⟨v.len + 2,(⟨.ok,h,v⟩,0),?_,rfl,by rw [map_replaceAll_none new hzero]; exact hv,rfl,hzero.symm,
        Swapped.refl _ _⟩
      by_cases hes : es = []
      · subst hes
        exact argzReplace_empty hv str new o₁ o₂ (v.len + 1)
      · exact argzReplace_none hv (hstr.resolve_right hes) hnul (Nat.lt_succ_self _) (by rw [hzero]; rfl)
    by_cases hzero : (es.map (count str)).sum = 0
    · exact hself hzero
    · have hne : es ≠ [] := by
        rintro rfl
        exact hzero rfl
      obtain ⟨d,hrun,hret,hholds,hswap⟩ := argzReplace_stored hv (hstr.resolve_right hne) hnul hnew ho₁ ho₂
        (Nat.lt_succ_self (v.len + 1)) (by rwa [Nat.mod_eq_of_lt hcount]) hlen
      rw [Nat.mod_eq_of_lt hcount] at hrun
      exact ⟨_,_,hrun,hret,hholds,by rw [hholds.count,hv.count,List.length_map],rfl,hswap⟩

end

def lp64 : Machine := ⟨64,fun _ => 0⟩

def oneEntry : Heap UInt8 := Heap.empty.setBlock 0 (some [97,0])

def oneVec : Vec := ⟨some 0,2⟩

theorem oneEntry_holds : Holds lp64 oneEntry oneVec [[97]] :=
  ⟨by decide,by decide,by decide,by decide,fun _ => ⟨0,rfl,setBlock_same _ _ _⟩⟩

theorem letter_replaced : ∃ fuel d, argzReplace lp64 oneEntry oneVec [97] [98] .stay .move fuel = .done d ∧
    Rewritten lp64 oneEntry oneVec [[97]] [97] [98] d :=
  (argzReplace_iff oneEntry_holds (by decide) (by decide) (by decide) (by decide)).mpr
    ⟨Or.inl (by decide),by decide,by decide⟩

theorem empty_search_spins : ¬∃ fuel d, argzReplace lp64 oneEntry oneVec [] [98] .stay .stay fuel = .done d ∧
    Rewritten lp64 oneEntry oneVec [[97]] [] [98] d := by
  rintro ⟨fuel,d,hrun,-⟩
  rw [argzReplace_spins oneEntry_holds (by decide)] at hrun
  exact absurd hrun (by simp)

end Argz
