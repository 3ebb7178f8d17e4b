import Mathlib
import Picolibc.Argz.Replace

namespace Argz

open BlockHeap Occurrences

inductive Call where
  | add (str : Option (List UInt8))
  | append (block : List (List UInt8))
  | insert (before : Before) (entry : List UInt8)
  | delete (entry : Option Nat)
  | replace (str new : List UInt8)

def Call.run (k : Machine) (h : Heap UInt8) (v : Vec) (o₁ o₂ : Outcome) (fuel : Nat) : Call → Res Done
  | .add str => .ofOption (argzAdd k h v str o₂)
  | .append block => .ofOption (argzAppend k h v (joined 0 block) o₂)
  | .insert before entry => .ofOption (argzInsert k h v before entry o₂)
  | .delete entry => .ofOption (argzDelete k h v entry o₂)
  | .replace str new => (argzReplace k h v str new o₁ o₂ fuel).map Prod.fst

def deleteEntry : List (List UInt8) → Nat → List (List UInt8)
  | [], _ => []
  | e :: es, off => if off = 0 then es else e :: deleteEntry es (off - (e.length + 1))

def Call.spec : Call → List (List UInt8) → List (List UInt8)
  | .add none, es => es
  | .add (some str), es => es ++ [str]
  | .append block, es => es ++ block
  | .insert .null entry, es => es ++ [entry]
  | .insert .outside _, es => es
  | .insert (.inside off) entry, es => insertBefore entry es off
  | .delete none, es => es
  | .delete (some off), es => deleteEntry es off
  | .replace str new, es => es.map (replaceAll str new)

def Call.Valid (k : Machine) (v : Vec) (es : List (List UInt8)) : Call → Prop
  | .add none => True
  | .add (some str) => 0 ∉ str ∧ str.length + 1 < 2 ^ k.sizeBits
  | .append block => (∀ e ∈ block, 0 ∉ e) ∧ (joined 0 block).length < 2 ^ k.sizeBits
  | .insert .null entry => 0 ∉ entry ∧ entry.length + 1 < 2 ^ k.sizeBits
  | .insert .outside _ => True
  | .insert (.inside off) entry => 0 ∉ entry ∧ off < v.len
  | .delete none => True
  | .delete (some off) => ∃ pre e post, es = pre ++ e :: post ∧ off = (joined 0 pre).length
  | .replace str new => 0 ∉ str ∧ 0 ∉ new

def Grows (k : Machine) (v : Vec) (n : Nat) (o : Outcome) : Prop := o ≠ .fail ∧ v.len + n < 2 ^ k.sizeBits

def Call.Meets (k : Machine) (v : Vec) (es : List (List UInt8)) (o₁ o₂ : Outcome) : Call → Prop
  | .add none => True
  | .add (some str) => Grows k v (str.length + 1) o₂
  | .append block => block = [] ∨ Grows k v (joined 0 block).length o₂
  | .insert .null entry => Grows k v (entry.length + 1) o₂
  | .insert .outside _ => True
  | .insert (.inside _) entry => entry.length + 1 < 2 ^ 31 ∧ Grows k v (entry.length + 1) o₂
  | .delete none => True
  | .delete (some off) => o₂ ≠ .fail ∧ entryLength (joined 0 es) off + 1 < 2 ^ 31 ∧ es.length ≠ 1
  | .replace str new =>
    str = [] ∨
      if (es.map (count str)).sum % 2 ^ 32 = 0 then (es.map (count str)).sum = 0 ∨ new = str
      else o₁ = .fail ∨ (joined 0 (es.map (replaceAll str new))).length < 2 ^ k.sizeBits

def Safe (k : Machine) (h : Heap UInt8) (v : Vec) (es spec : List (List UInt8)) (r : Res Done) : Prop :=
  r ≠ .fault ∧ ∀ d, r = .done d → Sound k h v es spec d

section

variable {k : Machine} {h : Heap UInt8} {v : Vec} {es spec : List (List UInt8)} {str new : List UInt8} {o o₁ o₂ : Outcome}

theorem safe_ofOption (x : Option Done) :
    Safe k h v es spec (.ofOption x) ↔ ∃ d, x = some d ∧ Sound k h v es spec d := by
  cases x with
  | none => exact ⟨fun hs => absurd rfl hs.1,fun ⟨_,hd,_⟩ => absurd hd (by simp)⟩
  | some d =>
    constructor
    · exact fun hs => ⟨d,rfl,hs.2 d rfl⟩
    · rintro ⟨d',hd,hs⟩
      refine ⟨by simp [Res.ofOption],fun d'' hd' => ?_⟩
      rw [Res.ofOption,Res.done.injEq] at hd'
      rwa [← hd',Option.some.inj hd]

theorem Holds.unchanged (hv : Holds k h v es) (ret : Ret) : Sound k h v es es ⟨ret,h,v⟩ :=
  ⟨fun _ => hv,fun _ => ⟨rfl,hv⟩,Swapped.refl h v.argz⟩

theorem safe_unchanged (hv : Holds k h v es) (ret : Ret) : Safe k h v es es (.ofOption (some ⟨ret,h,v⟩)) :=
  (safe_ofOption _).mpr ⟨_,rfl,hv.unchanged ret⟩

theorem add_safe (hv : Holds k h v es) (hstr : 0 ∉ str) (hshort : str.length + 1 < 2 ^ k.sizeBits) :
    Safe k h v es (es ++ [str]) (.ofOption (argzAdd k h v (some str) o)) ↔ Grows k v (str.length + 1) o := by
  have hone : joined 0 [str] = str ++ [0] := by simp
  have hlen : (joined 0 [str]).length = str.length + 1 := by rw [hone,List.length_append,List.length_singleton]
  have hiff : (∃ d, extend k h v (joined 0 [str]) o = some d ∧ Sound k h v es (es ++ [str]) d) ↔ _ :=
    extend_iff hv (by simp) (by simpa using hstr) (hlen ▸ hshort)
  rw [hlen,hone] at hiff
  rw [safe_ofOption]
  exact hiff

theorem append_safe (hv : Holds k h v es) {block : List (List UInt8)} (hplain : ∀ e ∈ block, 0 ∉ e)
    (hshort : (joined 0 block).length < 2 ^ k.sizeBits) :
    Safe k h v es (es ++ block) (.ofOption (argzAppend k h v (joined 0 block) o)) ↔
      block = [] ∨ Grows k v (joined 0 block).length o := by
  by_cases hb : block = []
  · subst hb
    rw [List.append_nil]
    exact ⟨fun _ => Or.inl rfl,fun _ => safe_unchanged hv .ok⟩
  · rw [argzAppend,if_neg (joined_ne_nil hb),safe_ofOption,extend_iff hv hb hplain hshort]
    exact ⟨Or.inr,fun hor => hor.resolve_left hb⟩

theorem deleteEntry_at (pre post : List (List UInt8)) (e : List UInt8) :
    deleteEntry (pre ++ e :: post) (joined 0 pre).length = pre ++ post := by
  induction pre with
  | nil => rfl
  | cons a pre ih =>
    have hlen : (joined 0 (a :: pre)).length = (joined 0 pre).length + (a.length + 1) := by
      rw [joined_cons,List.length_append,List.length_cons]
      omega
    rw [List.cons_append,deleteEntry,hlen,if_neg (by omega),Nat.add_sub_cancel,ih]
    rfl

theorem delete_safe (hv : Holds k h v es) {pre post : List (List UInt8)} {e : List UInt8} (hes : es = pre ++ e :: post) :
    Safe k h v es (deleteEntry es (joined 0 pre).length) (.ofOption (argzDelete k h v (some (joined 0 pre).length) o)) ↔
      o ≠ .fail ∧ entryLength (joined 0 es) (joined 0 pre).length + 1 < 2 ^ 31 ∧ es.length ≠ 1 := by
  have hlen : entryLength (joined 0 es) (joined 0 pre).length = e.length := by
    rw [hes,joined_append,joined_cons,entryLength_start (hv.plain e (by rw [hes]; simp))]
  have hone : pre ++ post ≠ [] ↔ es.length ≠ 1 := by
    rw [hes,← List.length_pos_iff,List.length_append,List.length_append,List.length_cons]
    omega
  obtain ⟨p,hp,-⟩ := hv.block (by rw [hes]; simp)
  have hrun : argzDelete k h v (some (joined 0 pre).length) o = deleteAt k h v p (joined 0 pre).length o := by
    simp only [argzDelete,hp]
  have hspec : deleteEntry es (joined 0 pre).length = pre ++ post := hes ▸ deleteEntry_at pre post e
  rw [safe_ofOption,hrun,hlen,← hone,hspec]
  exact deleteAt_iff hv hes hp

theorem insert_safe (hv : Holds k h v es) {off : Nat} (hoff : off < v.len) {entry : List UInt8} (hentry : 0 ∉ entry) :
    Safe k h v es (insertBefore entry es off) (.ofOption (argzInsert k h v (.inside off) entry o)) ↔
      entry.length + 1 < 2 ^ 31 ∧ Grows k v (entry.length + 1) o := by
  rw [safe_ofOption]
  exact (insertAt_iff hv hoff hentry).trans and_left_comm

theorem replace_refused (hv : Holds k h v es) (hstr : str ≠ []) (hnul : 0 ∉ str) {fuel : Nat} (hfuel : v.len + 1 < fuel)
    (hcount : (es.map (count str)).sum % 2 ^ 32 ≠ 0) :
    argzReplace k h v str new .fail o₂ fuel = .done (⟨.enomem,h,v⟩,(es.map (count str)).sum % 2 ^ 32) := by
  rw [argzReplace,counted hv hstr hnul new hfuel]
  simp only
  rw [if_neg hcount]
  rfl

theorem replace_wide (hv : Holds k h v es) (hstr : str ≠ []) (hnul : 0 ∉ str) {fuel : Nat} (hfuel : v.len + 1 < fuel)
    (hcount : (es.map (count str)).sum % 2 ^ 32 ≠ 0) (ho₁ : o₁ ≠ .fail)
    (hwide : 2 ^ k.sizeBits ≤ (joined 0 (es.map (replaceAll str new))).length) :
    argzReplace k h v str new o₁ o₂ fuel = .fault := by
  have hwhole := replaceFrom_joined hstr hnul new es
  have hlt : (joined 0 (es.map (replaceAll str new))).length % 2 ^ k.sizeBits < 2 ^ k.sizeBits :=
    Nat.mod_lt _ (by positivity)
  rw [argzReplace,counted hv hstr hnul new hfuel]
  simp only [Int.toNat_natCast]
  rw [if_neg hcount,malloc,if_neg ho₁,hv.content,hv.len,List.take_length]
  rcases copyLoop_done hstr hnul new ((joined 0 (es.map (replaceAll str new))).length % 2 ^ k.sizeBits) (joined_ended es)
    (hv.len ▸ hfuel) [] with ⟨hrun,-⟩ | ⟨last,out,hrun,hout⟩
  · simp only [hrun]
  · have hover : writeAt (h.setBlock h.next (some (resized [] ((joined 0 (es.map (replaceAll str new))).length %
        2 ^ k.sizeBits) k.junk))) h.next 0 (joined 0 (es.map (replaceAll str new))) = none :=
      writeAt_out (setBlock_same _ _ _) (Or.inr (by rw [resized_length]; omega))
    simp only [hrun,hout,List.nil_append,hwhole,putBack,hover,Option.bind_none]

theorem putBack_refused (spec : List (List UInt8)) (hv : Holds k h v es) {fs : List (List UInt8)} (hne : fs ≠ []) {junk : List UInt8}
    (hjunk : junk.length = (joined 0 fs).length) (replaceCount : Nat) :
    ∃ d, putBack k (h.setBlock h.next (some junk)) v h.next (joined 0 fs) (joined 0 fs).length replaceCount .fail =
      some (d,replaceCount) ∧ d.ret = .enomem ∧ Sound k h v es spec d := by
  let h₁ := (h.setBlock h.next (some junk)).setBlock h.next (some (joined 0 fs))
  let h₂ := h₁.setBlock h.next none
  have hapart := fresh_apart hv
  have hpos : 0 < (joined 0 fs).length := List.length_pos_iff.mpr (joined_ne_nil hne)
  have hsame : ∀ x, x ≠ h.next → h₁.blocks x = h.blocks x := fun x hx => by
    rw [setBlock_other _ _ hx,setBlock_other _ _ hx]
  have hback : ∀ x, some x = v.argz → h₂.blocks x = h.blocks x := fun x hx => by
    have hne : x ≠ h.next := fun he => hapart (he ▸ hx)
    rw [setBlock_other _ _ hne,hsame x hne]
  have hfill : writeAt (h.setBlock h.next (some junk)) h.next 0 (joined 0 fs) = some h₁ := scratch_filled hjunk
  have hrefused : realloc k h₁ v.argz (joined 0 fs).length .fail = some (none,h₁) := by
    cases v.argz with
    | none => rfl
    | some p =>
      rw [realloc,if_neg hpos.ne']
      rfl
  refine ⟨⟨.enomem,h₂,v⟩,?_,rfl,fun hret => absurd hret (by simp),fun _ => ⟨rfl,hv.plain,hv.len,hv.fits,hv.null,?_⟩,
    (Swapped.refl h₁ v.argz).freed hsame ((le_max_left _ _).trans (le_max_left _ _)) le_rfl hapart hapart⟩
  · rw [putBack,hfill,Option.bind_some,hrefused]
    simp only [Option.bind_some,free,h₁,setBlock_same,Option.map_some]
    rfl
  · intro he
    obtain ⟨p,hp,hb⟩ := hv.block he
    exact ⟨p,hp,(hback p hp.symm).trans hb⟩

theorem argzReplace_kept (spec : List (List UInt8)) (hv : Holds k h v es) (hstr : str ≠ []) (hnul : 0 ∉ str) {fuel : Nat}
    (hfuel : v.len + 1 < fuel) (hcount : (es.map (count str)).sum % 2 ^ 32 ≠ 0) (ho₁ : o₁ ≠ .fail)
    (hfits : (joined 0 (es.map (replaceAll str new))).length < 2 ^ k.sizeBits) :
    ∃ d, argzReplace k h v str new o₁ .fail fuel = .done (d,(es.map (count str)).sum % 2 ^ 32) ∧
      Sound k h v es spec d := by
  have hne : es.map (replaceAll str new) ≠ [] := fun hnil => hcount (by rw [List.map_eq_nil_iff.mp hnil]; rfl)
  obtain ⟨last,out,hrun,hout⟩ := copied hstr hnul new es (hv.len ▸ hfuel)
  obtain ⟨d,hput,-,hd⟩ := putBack_refused spec hv hne (resized_length [] _ k.junk) ((es.map (count str)).sum % 2 ^ 32)
  rw [argzReplace,counted hv hstr hnul new hfuel,Nat.mod_eq_of_lt hfits]
  simp only [Int.toNat_natCast]
  rw [if_neg hcount,malloc,if_neg ho₁,hv.content,hv.len,List.take_length]
  simp only [hrun,hout,hput]
  exact ⟨d,rfl,hd⟩

theorem safe_spinning : Safe k h v es spec .spinning := ⟨by simp,fun _ hd => absurd hd (by simp)⟩

theorem safe_done (d : Done) : Safe k h v es spec (.done d) ↔ Sound k h v es spec d :=
  (safe_ofOption (some d)).trans ⟨fun ⟨_,hd,hs⟩ => Option.some.inj hd ▸ hs,fun hs => ⟨d,rfl,hs⟩⟩

theorem safe_from {m : Nat} (hm : argzReplace k h v str new o₁ o₂ m ≠ .spinning) :
    (∀ fuel, Safe k h v es spec ((argzReplace k h v str new o₁ o₂ fuel).map Prod.fst)) ↔
      Safe k h v es spec ((argzReplace k h v str new o₁ o₂ m).map Prod.fst) := by
  refine ⟨fun hall => hall m,fun hs fuel => ?_⟩
  by_cases hspin : argzReplace k h v str new o₁ o₂ fuel = .spinning
  · rw [hspin]
    exact safe_spinning
  · rwa [← argzReplace_mono k h v str new o₁ o₂ (le_max_left fuel m) hspin,
      argzReplace_mono k h v str new o₁ o₂ (le_max_right fuel m) hm]

theorem replace_safe (hv : Holds k h v es) (hnul : 0 ∉ str) (hnew : 0 ∉ new) :
    (∀ fuel, Safe k h v es (es.map (replaceAll str new)) ((argzReplace k h v str new o₁ o₂ fuel).map Prod.fst)) ↔
      str = [] ∨
        if (es.map (count str)).sum % 2 ^ 32 = 0 then (es.map (count str)).sum = 0 ∨ new = str
        else o₁ = .fail ∨ (joined 0 (es.map (replaceAll str new))).length < 2 ^ k.sizeBits := by
  by_cases hstr : str = []
  · subst hstr
    refine ⟨fun _ => Or.inl rfl,fun _ fuel => ?_⟩
    by_cases hes : es = []
    · subst hes
      cases fuel with
      | zero => exact safe_spinning
      | succ fuel =>
        rw [argzReplace_empty hv]
        exact (safe_done _).mpr (hv.unchanged .ok)
    · rw [argzReplace_spins hv hes]
      exact safe_spinning
  have hfuel : v.len + 1 < v.len + 2 := Nat.lt_succ_self _
  rw [or_iff_right hstr]
  by_cases hcount : (es.map (count str)).sum % 2 ^ 32 = 0
  · have hrun : argzReplace k h v str new o₁ o₂ (v.len + 2) = _ := argzReplace_none hv hstr hnul hfuel hcount
    rw [safe_from (m := v.len + 2) (by rw [hrun]; simp),hrun,if_pos hcount,Res.map,safe_done]
    constructor
    · intro hs
      by_contra hneither
      push Not at hneither
      have hheld := hs.ok rfl
      have hsame : joined 0 (es.map (replaceAll str new)) = joined 0 es := hheld.content.symm.trans hv.content
      exact hneither.2 (map_replaceAll_same hstr hneither.1 (joined_inj hheld.plain hv.plain hsame))
    · rintro (hzero | rfl)
      · rw [map_replaceAll_none new hzero]
        exact hv.unchanged .ok
      · rw [map_replaceAll_self]
        exact hv.unchanged .ok
  rw [if_neg hcount]
  by_cases ho₁ : o₁ = .fail
  · subst ho₁
    have hrun : argzReplace k h v str new .fail o₂ (v.len + 2) = _ := replace_refused hv hstr hnul hfuel hcount
    rw [safe_from (m := v.len + 2) (by rw [hrun]; simp),hrun,Res.map,safe_done]
    exact ⟨fun _ => Or.inl rfl,fun _ => ⟨fun hret => absurd hret (by simp),fun _ => ⟨rfl,hv⟩,Swapped.refl h v.argz⟩⟩
  rw [or_iff_right ho₁]
  rcases Nat.lt_or_ge (joined 0 (es.map (replaceAll str new))).length (2 ^ k.sizeBits) with hfits | hwide
  · refine ⟨fun _ => hfits,fun _ => ?_⟩
    by_cases ho₂ : o₂ = .fail
    · subst ho₂
      obtain ⟨d,hrun,hd⟩ := argzReplace_kept (es.map (replaceAll str new)) hv hstr hnul hfuel hcount ho₁ hfits
      rw [safe_from (m := v.len + 2) (by rw [hrun]; simp),hrun,Res.map,safe_done]
      exact hd
    · obtain ⟨d,hrun,hret,hholds,hswap⟩ := argzReplace_stored hv hstr hnul hnew ho₁ ho₂ hfuel hcount hfits
      rw [safe_from (m := v.len + 2) (by rw [hrun]; simp),hrun,Res.map,safe_done]
      exact ⟨fun _ => hholds,fun hne => absurd hret hne,hswap⟩
  · have hrun : argzReplace k h v str new o₁ o₂ (v.len + 2) = _ := replace_wide hv hstr hnul hfuel hcount ho₁ hwide
    rw [safe_from (m := v.len + 2) (by rw [hrun]; simp),hrun]
    exact ⟨fun hs => absurd rfl hs.1,fun hlt => absurd hlt (not_lt.mpr hwide)⟩

theorem run_safe_iff (hv : Holds k h v es) {c : Call} (hc : c.Valid k v es) :
    (∀ fuel, Safe k h v es (c.spec es) (c.run k h v o₁ o₂ fuel)) ↔ c.Meets k v es o₁ o₂ := by
  cases c with
  | add str =>
    cases str with
    | none => exact ⟨fun _ => trivial,fun _ _ => safe_unchanged hv .ok⟩
    | some str => exact forall_const Nat |>.trans (add_safe hv hc.1 hc.2)
  | append block => exact forall_const Nat |>.trans (append_safe hv hc.1 hc.2)
  | insert before entry =>
    cases before with
    | null => exact forall_const Nat |>.trans (add_safe hv hc.1 hc.2)
    | outside => exact ⟨fun _ => trivial,fun _ _ => safe_unchanged hv .einval⟩
    | inside off => exact forall_const Nat |>.trans (insert_safe hv hc.2 hc.1)
  | delete entry =>
    cases entry with
    | none => exact ⟨fun _ => trivial,fun _ _ => safe_unchanged hv .ok⟩
    | some off =>
      obtain ⟨pre,e,post,hes,rfl⟩ := hc
      exact forall_const Nat |>.trans (delete_safe hv hes)
  | replace str new => exact replace_safe hv hc.1 hc.2

end

theorem letter_added : Safe lp64 oneEntry oneVec [[97]] [[97],[98]]
    ((Call.add (some [98])).run lp64 oneEntry oneVec .fail .move 0) :=
  (run_safe_iff oneEntry_holds (c := .add (some [98])) ⟨by decide,by decide⟩).mpr ⟨by decide,by decide⟩ 0

theorem only_entry_lost : ¬∀ fuel, Safe lp64 oneEntry oneVec [[97]] []
    ((Call.delete (some 0)).run lp64 oneEntry oneVec .stay .stay fuel) := by
  intro hall
  have hes : [[97]] = [] ++ [97] :: ([] : List (List UInt8)) := rfl
  have hcond := (delete_safe (o := .stay) oneEntry_holds hes).mp (hall 0)
  exact hcond.2.2 rfl

end Argz
