import Mathlib
import Picolibc.Lib.Occurrences

namespace Argz

open Occurrences

def matchAt : List UInt8 → List UInt8 → Option (Option (List UInt8))
  | [], buf => some (some buf)
  | _ :: _, [] => none
  | c :: str, x :: buf => if c = x then matchAt str buf else some none

def bufFindstr (str : List UInt8) : List UInt8 → Option (Bool × List UInt8)
  | [] => some (false,[])
  | x :: buf =>
    if str.headD 0 = x then
      match matchAt str (x :: buf) with
      | none => none
      | some (some rest) => some (true,rest)
      | some none => bufFindstr str buf
    else bufFindstr str buf

inductive Res (α : Type) where
  | done (a : α)
  | fault
  | spinning

def Res.ofOption {α : Type} : Option α → Res α
  | none => .fault
  | some a => .done a

def Res.map {α β : Type} (f : α → β) : Res α → Res β
  | .done a => .done (f a)
  | .fault => .fault
  | .spinning => .spinning

def Res.bind {α β : Type} : Res α → (α → Res β) → Res β
  | .done a, f => f a
  | .fault, _ => .fault
  | .spinning, _ => .spinning

def countLoop (w : Nat) (str new : List UInt8) : Nat → List UInt8 → Nat → Int → Res (Nat × Int)
  | 0, _, _, _ => .spinning
  | fuel + 1, buf, replaceCount, newLen =>
    if buf = [] then .done (replaceCount,newLen)
    else
      match bufFindstr str buf with
      | none => .fault
      | some (true,rest) =>
        countLoop w str new fuel rest ((replaceCount + 1) % 2 ^ 32) ((newLen + (new.length - str.length)) % 2 ^ w)
      | some (false,rest) => countLoop w str new fuel rest replaceCount newLen

def copyLoop (str new : List UInt8) (size : Nat) : Nat → List UInt8 → List UInt8 → List UInt8 → Res (List UInt8 × List UInt8)
  | 0, _, _, _ => .spinning
  | fuel + 1, buf, last, out =>
    if buf = [] then .done (last,out)
    else
      match bufFindstr str buf with
      | none => .fault
      | some (true,rest) =>
        let out := out ++ last.take (last.length - rest.length - str.length) ++ new
        if out.length ≤ size then copyLoop str new size fuel rest rest out else .fault
      | some (false,rest) => copyLoop str new size fuel rest last out

def Ended (buf : List UInt8) : Prop := ∀ c, buf.getLast? = some c → c = 0

variable {str buf : List UInt8}

theorem Ended.tail {x : UInt8} (h : Ended (x :: buf)) : Ended buf := by
  intro c hc
  cases buf with
  | nil => simp at hc
  | cons y buf => exact h c (by rwa [List.getLast?_cons_cons])

theorem Ended.suffix {seg rest : List UInt8} (h : Ended (seg ++ rest)) : Ended rest := by
  induction seg with
  | nil => exact h
  | cons x seg ih => exact ih h.tail

theorem joined_ended (es : List (List UInt8)) : Ended (joined 0 es) := by
  intro c hc
  rcases List.eq_nil_or_concat es with rfl | ⟨l,e,rfl⟩
  · simp at hc
  · rw [List.concat_eq_append,joined_append,joined_cons,joined_nil,← List.append_assoc,List.getLast?_concat] at hc
    exact (Option.some.inj hc).symm

theorem matchAt_cons (c x : UInt8) (str buf : List UInt8) :
    matchAt (c :: str) (x :: buf) = if c = x then matchAt str buf else some none := rfl

theorem matchAt_found (str rest : List UInt8) : matchAt str (str ++ rest) = some (some rest) := by
  induction str with
  | nil => rfl
  | cons c str ih =>
    rw [List.cons_append,matchAt_cons,if_pos rfl]
    exact ih

theorem matchAt_missed (hnul : 0 ∉ str) (hend : Ended buf) (hbuf : buf ≠ []) (h : ¬str <+: buf) :
    matchAt str buf = some none := by
  induction str generalizing buf with
  | nil => exact absurd List.nil_prefix h
  | cons c str ih =>
    obtain ⟨x,buf,rfl⟩ := List.exists_cons_of_ne_nil hbuf
    rw [matchAt_cons]
    by_cases hc : c = x
    · subst hc
      rw [if_pos rfl]
      have hrest : ¬str <+: buf := fun hp => h (List.cons_prefix_cons.mpr ⟨rfl,hp⟩)
      refine ih (fun hn => hnul (List.mem_cons_of_mem c hn)) hend.tail ?_ hrest
      rintro rfl
      have hzero : c = 0 := hend c rfl
      exact hnul (hzero ▸ List.mem_cons_self)
    · rw [if_neg hc]

theorem bufFindstr_match (hstr : str ≠ []) (rest : List UInt8) : bufFindstr str (str ++ rest) = some (true,rest) := by
  obtain ⟨c,s,rfl⟩ := List.exists_cons_of_ne_nil hstr
  have hhead : (c :: s).headD 0 = c := rfl
  rw [List.cons_append,bufFindstr,if_pos hhead,← List.cons_append,matchAt_found]

theorem bufFindstr_miss {x : UInt8} (hnul : 0 ∉ str) (hend : Ended (x :: buf)) (h : ¬str <+: x :: buf) :
    bufFindstr str (x :: buf) = bufFindstr str buf := by
  rw [bufFindstr,matchAt_missed hnul hend (List.cons_ne_nil x buf) h]
  split <;> rfl

structure Found (str buf seg rest : List UInt8) : Prop where
  parts : buf = seg ++ (str ++ rest)
  run : bufFindstr str buf = some (true,rest)
  replaced : ∀ new, replaceFrom str new 0 buf = seg ++ (new ++ replaceFrom str new 0 rest)
  counted : countFrom str 0 buf = 1 + countFrom str 0 rest

structure Missed (str buf : List UInt8) : Prop where
  run : bufFindstr str buf = some (false,[])
  replaced : ∀ new, replaceFrom str new 0 buf = buf
  counted : countFrom str 0 buf = 0

theorem bufFindstr_spec (hstr : str ≠ []) (hnul : 0 ∉ str) (hend : Ended buf) :
    (∃ seg rest, Found str buf seg rest) ∨ Missed str buf := by
  induction buf with
  | nil => exact Or.inr ⟨rfl,fun _ => rfl,rfl⟩
  | cons x buf ih =>
    by_cases hpre : str <+: x :: buf
    · obtain ⟨rest,hrest⟩ := hpre
      refine Or.inl ⟨[],rest,hrest.symm,?_,?_,?_⟩
      · rw [← hrest,bufFindstr_match hstr]
      · intro new
        rw [← hrest,replaceFrom_match hstr]
        rfl
      · rw [← hrest,countFrom_match hstr]
    · have hstep := bufFindstr_miss hnul hend hpre
      rcases ih hend.tail with ⟨seg,rest,h⟩ | h
      · refine Or.inl ⟨x :: seg,rest,by rw [h.parts]; rfl,hstep.trans h.run,fun new => ?_,?_⟩
        · rw [replaceFrom_miss new hpre,h.replaced]
          rfl
        · rw [countFrom_miss hpre,h.counted]
      · refine Or.inr ⟨hstep.trans h.run,fun new => ?_,?_⟩
        · rw [replaceFrom_miss new hpre,h.replaced]
        · rw [countFrom_miss hpre,h.counted]

theorem Found.shorter {seg rest : List UInt8} (hstr : str ≠ []) (h : Found str buf seg rest) :
    rest.length < buf.length := by
  have hpos : 0 < str.length := List.length_pos_iff.mpr hstr
  rw [h.parts,List.length_append,List.length_append]
  omega

theorem countLoop_done (w : Nat) (hstr : str ≠ []) (hnul : 0 ∉ str) (new : List UInt8) {fuel : Nat} (hend : Ended buf)
    (hfuel : buf.length + 1 < fuel) (replaceCount : Nat) (newLen : Int) (hc : replaceCount < 2 ^ 32)
    (hl : newLen % 2 ^ w = newLen) :
    countLoop w str new fuel buf replaceCount newLen =
      .done ((replaceCount + countFrom str 0 buf) % 2 ^ 32,
        (newLen + countFrom str 0 buf * (new.length - str.length)) % 2 ^ w) := by
  induction fuel generalizing buf replaceCount newLen with
  | zero => exact absurd hfuel (Nat.not_lt_zero _)
  | succ fuel ih =>
    rw [countLoop]
    by_cases hbuf : buf = []
    · subst hbuf
      rw [if_pos rfl,countFrom_nil,Nat.add_zero,Nat.mod_eq_of_lt hc,Nat.cast_zero,zero_mul,add_zero,hl]
    · rw [if_neg hbuf]
      rcases bufFindstr_spec hstr hnul hend with ⟨seg,rest,h⟩ | h
      · have hshort := h.shorter hstr
        have hrest : Ended rest := (show Ended (seg ++ (str ++ rest)) from h.parts ▸ hend).suffix.suffix
        rw [h.run]
        simp only
        rw [ih hrest (by omega) _ _ (Nat.mod_lt _ (by norm_num)) (Int.emod_emod_of_dvd _ (dvd_refl _)),h.counted,
          Nat.mod_add_mod,Int.emod_add_emod]
        congr 3
        · rw [Nat.add_assoc]
        · push_cast
          ring
      · rw [h.run,h.counted]
        cases fuel with
        | zero => omega
        | succ fuel =>
          simp only
          rw [countLoop,if_pos rfl,Nat.add_zero,Nat.mod_eq_of_lt hc,Nat.cast_zero,zero_mul,add_zero,hl]

theorem copyLoop_done (hstr : str ≠ []) (hnul : 0 ∉ str) (new : List UInt8) (size : Nat) {fuel : Nat}
    (hend : Ended buf) (hfuel : buf.length + 1 < fuel) (out : List UInt8) :
    (copyLoop str new size fuel buf buf out = .fault ∧ size < (out ++ replaceFrom str new 0 buf).length) ∨
      ∃ last out', copyLoop str new size fuel buf buf out = .done (last,out') ∧
        out' ++ last = out ++ replaceFrom str new 0 buf := by
  induction fuel generalizing buf out with
  | zero => exact absurd hfuel (Nat.not_lt_zero _)
  | succ fuel ih =>
    rw [copyLoop]
    by_cases hbuf : buf = []
    · subst hbuf
      exact Or.inr ⟨[],out,by rw [if_pos rfl],rfl⟩
    · rw [if_neg hbuf]
      rcases bufFindstr_spec hstr hnul hend with ⟨seg,rest,h⟩ | h
      · have hshort := h.shorter hstr
        have hrest : Ended rest := (show Ended (seg ++ (str ++ rest)) from h.parts ▸ hend).suffix.suffix
        have hseg : buf.take (buf.length - rest.length - str.length) = seg := by
          rw [h.parts,List.length_append,List.length_append]
          exact List.take_left' (by omega)
        rw [h.run]
        simp only [hseg]
        by_cases hsize : (out ++ seg ++ new).length ≤ size
        · rw [if_pos hsize]
          have hnext := ih hrest (by omega) (out ++ seg ++ new)
          rw [h.replaced]
          simpa only [List.append_assoc] using hnext
        · rw [if_neg hsize,h.replaced]
          refine Or.inl ⟨rfl,?_⟩
          simp only [List.length_append] at hsize ⊢
          omega
      · rw [h.run,h.replaced]
        cases fuel with
        | zero => omega
        | succ fuel => exact Or.inr ⟨buf,out,by simp only [copyLoop,if_true],rfl⟩

theorem countLoop_spins (w : Nat) (new : List UInt8) (fuel : Nat) {x : UInt8} {rest : List UInt8}
    (hend : Ended (x :: rest)) (replaceCount : Nat) (newLen : Int) :
    countLoop w [] new fuel (x :: rest) replaceCount newLen = .spinning := by
  induction fuel generalizing x rest replaceCount newLen with
  | zero => rfl
  | succ fuel ih =>
    -- a match of the empty string leaves the scanner on the terminator it stopped at
    have hstop : ∃ y l, bufFindstr [] (x :: rest) = some (true,y :: l) ∧ Ended (y :: l) := by
      clear ih
      induction rest generalizing x with
      | nil =>
        have hx : x = 0 := hend x rfl
        subst hx
        exact ⟨0,[],rfl,hend⟩
      | cons y l ihl =>
        by_cases hx : (0 : UInt8) = x
        · subst hx
          exact ⟨0,y :: l,rfl,hend⟩
        · obtain ⟨z,m,hz,hend'⟩ := ihl hend.tail
          exact ⟨z,m,by rw [bufFindstr]; simpa [hx] using hz,hend'⟩
    obtain ⟨y,l,hrun,hend'⟩ := hstop
    rw [countLoop,if_neg (List.cons_ne_nil x rest),hrun]
    exact ih hend' _ _

theorem countLoop_mono (w : Nat) (str new : List UInt8) {fuel m : Nat} (hle : fuel ≤ m) (buf : List UInt8)
    (replaceCount : Nat) (newLen : Int) (h : countLoop w str new fuel buf replaceCount newLen ≠ .spinning) :
    countLoop w str new m buf replaceCount newLen = countLoop w str new fuel buf replaceCount newLen := by
  induction fuel generalizing m buf replaceCount newLen with
  | zero => exact absurd rfl h
  | succ fuel ih =>
    obtain ⟨m,rfl⟩ : ∃ n, m = n + 1 := ⟨m - 1,by omega⟩
    rw [countLoop] at h
    rw [countLoop,countLoop]
    by_cases hbuf : buf = []
    · rw [if_pos hbuf,if_pos hbuf]
    · rw [if_neg hbuf] at h ⊢
      rw [if_neg hbuf]
      generalize bufFindstr str buf = r at h ⊢
      rcases r with _ | ⟨found,rest⟩
      · rfl
      · cases found with
        | true => exact ih (by omega) _ _ _ h
        | false => exact ih (by omega) _ _ _ h

theorem copyLoop_mono (str new : List UInt8) (size : Nat) {fuel m : Nat} (hle : fuel ≤ m) (buf last out : List UInt8)
    (h : copyLoop str new size fuel buf last out ≠ .spinning) :
    copyLoop str new size m buf last out = copyLoop str new size fuel buf last out := by
  induction fuel generalizing m buf last out with
  | zero => exact absurd rfl h
  | succ fuel ih =>
    obtain ⟨m,rfl⟩ : ∃ n, m = n + 1 := ⟨m - 1,by omega⟩
    rw [copyLoop] at h
    rw [copyLoop,copyLoop]
    by_cases hbuf : buf = []
    · rw [if_pos hbuf,if_pos hbuf]
    · rw [if_neg hbuf] at h ⊢
      rw [if_neg hbuf]
      generalize bufFindstr str buf = r at h ⊢
      rcases r with _ | ⟨found,rest⟩
      · rfl
      · cases found with
        | true =>
          simp only at h ⊢
          split at h
          · next hsize =>
            rw [if_pos hsize,if_pos hsize]
            exact ih (by omega) _ _ _ h
          · next hsize => rw [if_neg hsize,if_neg hsize]
        | false => exact ih (by omega) _ _ _ h

end Argz
