import Mathlib
import Picolibc.Stdio.Stream
import Picolibc.Lib.Numerals

namespace Stdio

open Numerals

structure WideFile (D : Type) where
  unget : UInt16
  flags : Flags
  dev : D

structure WcharT where
  size : Nat
  bigEndian : Bool
  deriving DecidableEq, Repr

def weof : UInt32 := 0xffffffff

def WcharT.assemble (w : WcharT) (l : List UInt8) : UInt32 :=
  UInt32.ofNat (horner 256 0 ((if w.bigEndian then l else l.reverse).map UInt8.toNat))

section

variable {D : Type} (get : D → D × Int)

def getUnits : Nat → D → D × Except Int (List UInt8)
  | 0, d => (d,.ok [])
  | n + 1, d =>
    let r := get d
    if r.2 < 0 then (r.1,.error r.2) else
    match getUnits n r.1 with
    | (d,.ok l) => (d,.ok (UInt8.ofNat r.2.toNat :: l))
    | (d,.error sc) => (d,.error sc)

variable (w : WcharT)

def getwc (f : WideFile D) : WideFile D × UInt32 :=
  let f := { f with flags := { f.flags with swide := true } }
  if f.flags.srd = false then (f,weof) else
  if f.unget ≠ 0 then ({ f with unget := 0 },(f.unget - 1).toUInt32) else
  match getUnits get w.size f.dev with
  | (d,.error sc) =>
    ({ f with dev := d, flags := { f.flags with
      serr := f.flags.serr || decide (sc = fdevErr), seof := f.flags.seof || decide (sc ≠ fdevErr) } },weof)
  | (d,.ok l) => ({ f with dev := d },w.assemble l)

def ungetwc (f : WideFile D) (c : UInt32) : WideFile D × UInt32 :=
  if f.flags.srd = false ∨ c = weof then (f,weof) else
  if f.unget ≠ 0 then (f,weof) else
  ({ f with unget := c.toUInt16 + 1, flags := { f.flags with seof := false } },c)

def getwcs : Nat → WideFile D → List UInt32
  | 0, _ => []
  | n + 1, f => (getwc get w f).2 :: getwcs n (getwc get w f).1

structure SameReads (f g : WideFile D) : Prop where
  unget : f.unget = g.unget
  srd : f.flags.srd = g.flags.srd
  dev : f.dev = g.dev

theorem getwc_same {f g : WideFile D} (h : SameReads f g) :
    (getwc get w f).2 = (getwc get w g).2 ∧ SameReads (getwc get w f).1 (getwc get w g).1 := by
  unfold getwc
  simp only [h.unget,h.srd,h.dev]
  by_cases hr : g.flags.srd = false
  · rw [if_pos hr,if_pos hr]
    exact ⟨rfl,rfl,rfl,rfl⟩
  · rw [if_neg hr,if_neg hr]
    by_cases hu : g.unget ≠ 0
    · rw [if_pos hu,if_pos hu]
      exact ⟨rfl,rfl,rfl,rfl⟩
    · rw [if_neg hu,if_neg hu]
      rcases getUnits get w.size g.dev with ⟨d,sc | l⟩
      · exact ⟨rfl,rfl,rfl,rfl⟩
      · exact ⟨rfl,rfl,rfl,rfl⟩

theorem getwcs_same (n : Nat) {f g : WideFile D} (h : SameReads f g) : getwcs get w n f = getwcs get w n g := by
  induction n generalizing f g with
  | zero => rfl
  | succ n ih =>
    obtain ⟨hv,hs⟩ := getwc_same get w h
    rw [getwcs,getwcs,hv,ih hs]

theorem ungetwc_ok {f : WideFile D} {c : UInt32} (hc : c ≠ weof) (h : (ungetwc f c).2 = c) :
    f.flags.srd = true ∧ f.unget = 0 ∧
      (ungetwc f c).1 = { f with unget := c.toUInt16 + 1, flags := { f.flags with seof := false } } := by
  unfold ungetwc at h ⊢
  by_cases hr : f.flags.srd = false ∨ c = weof
  · rw [if_pos hr] at h
    exact absurd h.symm hc
  · rw [if_neg hr] at h ⊢
    by_cases hu : f.unget ≠ 0
    · rw [if_pos hu] at h
      exact absurd h.symm hc
    · rw [if_neg hu]
      exact ⟨by simpa using fun he => hr (.inl he),by simpa using hu,rfl⟩

theorem slot_empty_iff (c : UInt32) : c.toUInt16 + 1 = 0 ↔ c.toUInt16 = 0xffff := by
  generalize c.toUInt16 = x
  constructor
  · intro h
    have := congrArg UInt16.toNat h
    have hlt := x.toNat_lt
    apply UInt16.toNat_inj.mp
    simp at this ⊢
    omega
  · rintro rfl
    decide

theorem slot_value (c : UInt32) : (c.toUInt16 + 1 - 1).toUInt32 = c ↔ c.toNat < 0x10000 := by
  have hx : c.toUInt16 + 1 - 1 = c.toUInt16 := by
    generalize c.toUInt16 = x
    exact UInt16.add_sub_cancel x 1
  rw [hx,← UInt32.toNat_inj]
  simp

theorem getwc_pushed {f : WideFile D} (hr : f.flags.srd = true) (hu : f.unget ≠ 0) :
    (getwc get w f).2 = (f.unget - 1).toUInt32 ∧ SameReads (getwc get w f).1 { f with unget := 0 } := by
  unfold getwc
  dsimp only
  rw [if_neg (by simp [hr]),if_pos hu]
  exact ⟨rfl,rfl,rfl,rfl⟩

theorem ungetwc_round_trip_iff {f : WideFile D} {c : UInt32} (hc : c ≠ weof) (h : (ungetwc f c).2 = c) :
    (∀ n, getwcs get w (n + 1) (ungetwc f c).1 = c :: getwcs get w n f) ↔
      c < 0xffff ∨ c.toUInt16 = 0xffff ∧ ∀ n, getwcs get w n f = List.replicate n c := by
  obtain ⟨hr,hu,heq⟩ := ungetwc_ok hc h
  rw [heq]
  by_cases hs : c.toUInt16 + 1 = 0
  · have hlow := (slot_empty_iff c).mp hs
    have hlarge : ¬c < 0xffff := by
      intro hlt
      have h1 := congrArg UInt16.toNat hlow
      rw [UInt32.lt_iff_toNat_lt] at hlt
      simp at h1 hlt
      omega
    have hsame : ∀ n, getwcs get w n { f with unget := c.toUInt16 + 1, flags := { f.flags with seof := false } } =
        getwcs get w n f := fun n => getwcs_same get w n ⟨hs.trans hu.symm,rfl,rfl⟩
    simp only [hsame]
    constructor
    · intro hall
      refine .inr ⟨hlow,?_⟩
      intro n
      induction n with
      | zero => rfl
      | succ n ih => rw [hall,ih,List.replicate_succ]
    · rintro (hlt | ⟨-,hall⟩) n
      · exact absurd hlt hlarge
      · rw [hall,hall,List.replicate_succ]
  · have hlow : c.toUInt16 ≠ 0xffff := fun he => hs ((slot_empty_iff c).mpr he)
    obtain ⟨hv,hafter⟩ := getwc_pushed get w
      (f := { f with unget := c.toUInt16 + 1, flags := { f.flags with seof := false } }) hr hs
    have hsame : SameReads { f with unget := 0, flags := { f.flags with seof := false } } f := ⟨hu.symm,rfl,rfl⟩
    have hrest : ∀ n, getwcs get w (n + 1) { f with unget := c.toUInt16 + 1, flags := { f.flags with seof := false } } =
        (c.toUInt16 + 1 - 1).toUInt32 :: getwcs get w n f := by
      intro n
      rw [getwcs,hv,getwcs_same get w n hafter,getwcs_same get w n hsame]
    have hbound : c < 0xffff ↔ c.toNat < 0x10000 := by
      have hne : c.toNat ≠ 0xffff := by
        intro he
        apply hlow
        apply UInt16.toNat_inj.mp
        simp [he]
      rw [UInt32.lt_iff_toNat_lt]
      simp
      omega
    simp only [hrest,List.cons.injEq,and_true,forall_const,slot_value,hbound,hlow,false_and,or_false]

end

def emptyWide : WideFile Unit := ⟨0,setupFlags true false,()⟩

def atEnd (d : Unit) : Unit × Int := (d,fdevEof)

theorem ungetwc_round_trip_letter :
    (∀ n, getwcs atEnd ⟨4,false⟩ (n + 1) (ungetwc emptyWide 0x41).1 = 0x41 :: getwcs atEnd ⟨4,false⟩ n emptyWide) ∧
      (ungetwc emptyWide 0x41).2 = 0x41 :=
  ⟨(ungetwc_round_trip_iff atEnd ⟨4,false⟩ (f := emptyWide) (c := 0x41) (by decide) (by decide)).mpr (.inl (by decide)),
    by decide⟩

theorem ungetwc_loses_char :
    ((ungetwc emptyWide 0xffff).2 = 0xffff ∧ (getwc atEnd ⟨4,false⟩ (ungetwc emptyWide 0xffff).1).2 = weof) ∧
      (ungetwc emptyWide 0x1f600).2 = 0x1f600 ∧
      (getwc atEnd ⟨4,false⟩ (ungetwc emptyWide 0x1f600).1).2 = 0xf600 := by
  decide

end Stdio
