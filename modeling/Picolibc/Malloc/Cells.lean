import Mathlib
import Picolibc.Malloc.Standard

namespace Malloc

open ByteMemory LinkedList

def ChunkAddr (cfg : Config) (c : Nat) : Prop := c % (2 * cfg.headSize) = 0 ∧ c ≠ 0

theorem sizeRef_setSizeRef_same {cfg : Config} {h : Heap} {c v : Nat} (hv : v < 256 ^ cfg.headSize) :
    (h.setSizeRef cfg c v).sizeRef cfg c = v :=
  load_store_of_lt _ _ hv

section

variable {cfg : Config} (hc : cfg.Standard) {h : Heap} {c d v : Nat}

include hc

theorem ChunkAddr.le (hd : ChunkAddr cfg d) : 2 * cfg.headSize ≤ d := by
  obtain ⟨hm,hz⟩ := hd
  rcases hc.word with h | h <;> rw [h] at hm ⊢ <;> omega

theorem ChunkAddr.apart (h : ChunkAddr cfg c) (h' : ChunkAddr cfg d) (hne : c ≠ d) :
    c + 2 * cfg.headSize ≤ d ∨ d + 2 * cfg.headSize ≤ c := by
  obtain ⟨hm,-⟩ := h
  obtain ⟨hm',-⟩ := h'
  rcases hc.word with h | h <;> rw [h] at hm hm' ⊢ <;> omega

theorem sizeRef_setSizeRef_ne (hcc : ChunkAddr cfg c) (hd : ChunkAddr cfg d) (hne : d ≠ c) :
    (h.setSizeRef cfg c v).sizeRef cfg d = h.sizeRef cfg d := by
  have ha := ChunkAddr.apart hc hcc hd hne.symm
  have hl := ChunkAddr.le hc hcc
  have hl' := ChunkAddr.le hc hd
  exact load_store_apart (by omega)

theorem next_setSizeRef (hcc : ChunkAddr cfg c) (hd : ChunkAddr cfg d) :
    (h.setSizeRef cfg c v).next cfg d = h.next cfg d := by
  have hl := ChunkAddr.le hc hcc
  apply load_store_apart
  rw [hc.chunk]
  by_cases he : d = c
  · omega
  · have := ChunkAddr.apart hc hcc hd (Ne.symm he)
    omega

theorem next_lt (h : Heap) (c : Nat) : h.next cfg c < 256 ^ cfg.headSize := by
  rw [← hc.chunk]
  exact load_lt _ _ _

theorem next_setNext_same (hv : v < 256 ^ cfg.headSize) : (h.setNext cfg c v).next cfg c = v :=
  load_store_of_lt _ _ (by rwa [hc.chunk])

theorem next_setNext_ne (hcc : ChunkAddr cfg c) (hd : ChunkAddr cfg d) (hne : d ≠ c) :
    (h.setNext cfg c v).next cfg d = h.next cfg d := by
  have ha := ChunkAddr.apart hc hcc hd hne.symm
  apply load_store_apart
  rw [hc.chunk]
  omega

theorem sizeRef_setNext (hcc : ChunkAddr cfg c) (hd : ChunkAddr cfg d) :
    (h.setNext cfg c v).sizeRef cfg d = h.sizeRef cfg d := by
  have hl := ChunkAddr.le hc hd
  apply load_store_apart
  rw [hc.chunk]
  by_cases he : d = c
  · omega
  · have := ChunkAddr.apart hc hcc hd (Ne.symm he)
    omega

end

def slotOf (xs : List Nat) : Slot :=
  match xs.getLast? with
  | none => .head
  | some x => .next x

@[simp] theorem slotOf_nil : slotOf [] = .head := rfl

@[simp] theorem slotOf_concat (xs : List Nat) (x : Nat) : slotOf (xs ++ [x]) = .next x := by
  simp [slotOf]

theorem get_slotOf {cfg : Config} {h : Heap} {xs : List Nat} {q : Nat}
    (hs : Seg (h.next cfg) h.freeList xs q) : h.get cfg (slotOf xs) = q := by
  rcases List.eq_nil_or_concat xs with rfl | ⟨ys,y,rfl⟩
  · exact hs
  · rw [List.concat_eq_append,slotOf_concat]
    rw [List.concat_eq_append] at hs
    have hl := seg_last hs
    exact hl

section

variable {cfg : Config} (hc : cfg.Standard) {h : Heap} {xs : List Nat} {q v d : Nat}

include hc

theorem seg_set_slotOf (hs : Seg (h.next cfg) h.freeList xs q) (hx : ∀ x ∈ xs, ChunkAddr cfg x)
    (hn : xs.Nodup) (hv : v < 256 ^ cfg.headSize) :
    Seg ((h.set cfg (slotOf xs) v).next cfg) (h.set cfg (slotOf xs) v).freeList xs v := by
  rcases List.eq_nil_or_concat xs with rfl | ⟨ys,y,rfl⟩
  · rfl
  · rw [List.concat_eq_append] at *
    have hy : ChunkAddr cfg y := hx y (by simp)
    rw [slotOf_concat]
    refine seg_retarget hs ?_ (next_setNext_same hc hv)
    intro z hz
    have hne : z ≠ y := by
      rintro rfl
      simp only [List.nodup_append,List.mem_singleton,forall_eq] at hn
      exact hn.2.2 z hz rfl
    exact next_setNext_ne hc hy (hx z (by simp [hz])) hne

theorem next_set_slotOf (hx : ∀ x ∈ xs, ChunkAddr cfg x) (hd : ChunkAddr cfg d) (hne : d ∉ xs) :
    (h.set cfg (slotOf xs) v).next cfg d = h.next cfg d := by
  rcases List.eq_nil_or_concat xs with rfl | ⟨ys,y,rfl⟩
  · rfl
  · rw [List.concat_eq_append] at *
    rw [slotOf_concat]
    exact next_setNext_ne hc (hx y (by simp)) hd (by rintro rfl; simp at hne)

theorem sizeRef_set_slotOf (hx : ∀ x ∈ xs, ChunkAddr cfg x) (hd : ChunkAddr cfg d) :
    (h.set cfg (slotOf xs) v).sizeRef cfg d = h.sizeRef cfg d := by
  rcases List.eq_nil_or_concat xs with rfl | ⟨ys,y,rfl⟩
  · rfl
  · rw [List.concat_eq_append] at *
    rw [slotOf_concat]
    exact sizeRef_setNext hc (hx y (by simp)) hd

theorem mem_set_slotOf {a : Nat} (ha : ∀ x ∈ xs, a < x ∨ x + cfg.headSize ≤ a) :
    (h.set cfg (slotOf xs) v).mem a = h.mem a := by
  rcases List.eq_nil_or_concat xs with rfl | ⟨ys,y,rfl⟩
  · rfl
  · rw [List.concat_eq_append] at *
    rw [slotOf_concat]
    exact store_apart (by rw [hc.chunk]; exact ha y (by simp))

end

end Malloc
