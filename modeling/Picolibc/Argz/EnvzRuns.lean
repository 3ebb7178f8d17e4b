import Mathlib
import Picolibc.Argz.Envz

namespace Argz

open Occurrences

open Checked (int32 int32_small)

def without (name : List UInt8) (ps : List Binding) : List Binding := ps.filter fun p => p.1 ≠ name

def Short (name : List UInt8) (value : Option (List UInt8)) : Prop :=
  ∀ v, value = some v → name.length + v.length + 2 < 2 ^ 31

def mergeStep (override : Bool) (ps : List Binding) (f : Binding) : List Binding :=
  if override = true then without f.1 ps ++ [f] else if f.1 ∈ ps.map Prod.fst then ps else ps ++ [f]

def Map.merge (override : Bool) (m : Map) (f : Binding) : Map :=
  if override = true ∨ m f.1 = none then Function.update m f.1 (some f.2) else m

def MergeMeets (override : Bool) : List Binding → List Binding → Prop
  | _, [] => True
  | ps, f :: fs =>
    Clear f.1 (ps.map encode) ∧ (override = true → Short f.1 f.2) ∧ MergeMeets override (mergeStep override ps f) fs

def Apart : List Binding → Prop
  | p :: q :: ps => (p.2 = none → q.2 ≠ none) ∧ Apart (q :: ps)
  | _ => True

def Map.strip (m : Map) : Map := fun name => if m name = some none then none else m name

def Shorts (ps : List Binding) : Prop := ∀ p ∈ ps, p.2 = none → p.1.length + 1 < 2 ^ 31

def entriesFrom : List UInt8 → List UInt8 → List (List UInt8)
  | _, [] => []
  | entry, c :: l => if c = 0 then entry :: entriesFrom [] l else entriesFrom (entry ++ [c]) l

def bindings (envz : List UInt8) : List Binding := (entriesFrom [] envz).map fun e => (nameOf e,valueOf e)

inductive Op where
  | add (name : List UInt8) (value : Option (List UInt8))
  | remove (name : List UInt8)
  | merge (envz2 : List Binding) (override : Bool)
  | strip

def Op.run (envz : List UInt8) : Op → Res (List UInt8)
  | .add name value => envzAdd envz name value
  | .remove name => envzRemove envz name
  | .merge envz2 override => envzMerge envz (bytes envz2) override
  | .strip => envzStrip envz

def Op.spec (m : Map) : Op → Map
  | .add name value => Function.update m name (some value)
  | .remove name => Function.update m name none
  | .merge envz2 override => envz2.foldl (Map.merge override) m
  | .strip => m.strip

def Op.Valid : Op → Prop
  | .add name value => BindingOk (name,value)
  | .remove name => NameOk name
  | .merge envz2 _ => ∀ f ∈ envz2, BindingOk f
  | .strip => True

def Op.Meets (ps : List Binding) : Op → Prop
  | .add name value => Clear name (ps.map encode) ∧ Short name value
  | .remove name => Clear name (ps.map encode)
  | .merge envz2 override => MergeMeets override ps envz2
  | .strip => Apart ps ∧ Shorts ps

inductive Reached : Map → List UInt8 → Prop
  | empty : Reached (fun _ => none) []
  | step {m : Map} {envz envz' : List UInt8} {op : Op} : Reached m envz → op.Valid → op.Meets (bindings envz) →
      op.run envz = .done envz' → Reached (op.spec m) envz'

structure Keeps (m : Map) (envz : List UInt8) : Prop where
  holds : ∃ ps, Represents m ps ∧ envz = bytes ps
  get : ∀ name, NameOk name → Clear name ((bindings envz).map encode) → envzGet envz name = .done (m name).join
  entry : ∀ name v, NameOk name → Clear name ((bindings envz).map encode) → m name = some v →
    ∃ pre post, envz = bytes (pre ++ (name,v) :: post) ∧ envzEntry envz name = .done (some (bytes pre).length)
  absent : ∀ name, NameOk name → Clear name ((bindings envz).map encode) → m name = none →
    envzEntry envz name = .done none
  returns : ∀ op : Op, op.Valid → op.Meets (bindings envz) → ∃ envz', op.run envz = .done envz'

section

variable {name : List UInt8} {value : Option (List UInt8)} {ps pre post fs : List Binding} {p : Binding} {m : Map}
  {override : Bool} {fuel : Nat}

theorem moveDown_cut (x y z : List UInt8) :
    (moveDown (x ++ (y ++ z)) (x ++ (y ++ z)).length x.length y.length).take ((x ++ (y ++ z)).length - y.length) =
      x ++ z := by
  have hz : (List.drop (x.length + y.length) (x ++ (y ++ z))).take ((x ++ (y ++ z)).length - x.length - y.length) = z := by
    rw [← List.drop_drop,List.drop_left,List.drop_left]
    exact List.take_of_length_le (by simp only [List.length_append]; omega)
  rw [moveDown,List.take_left,hz]
  exact List.take_left' (by simp only [List.length_append]; omega)

theorem envzRemove_bytes (hr : Represents m ps) (hname : NameOk name) (hclear : Clear name (ps.map encode)) :
    envzRemove (bytes ps) name = .done (bytes (without name ps)) := by
  cases hm : m name with
  | none =>
    rw [envzRemove,entry_none hr hname hclear hm,without,List.filter_eq_self.mpr]
    · rfl
    · intro p hp
      refine decide_eq_true fun hn => ?_
      rw [(hr.entry name p.2).mpr (hn ▸ hp)] at hm
      exact absurd hm (by simp)
  | some value =>
    obtain ⟨pre,post,hps⟩ := List.append_of_mem ((hr.entry name value).mp hm)
    have hplain : 0 ∉ encode (name,value) := encode_plain (hr.ok _ (by rw [hps]; simp))
    have hlen : entryLength (bytes ps) (bytes pre).length = (encode (name,value)).length := by
      rw [hps,bytes_append,bytes_cons]
      exact entryLength_start hplain
    have hbytes : bytes ps = bytes pre ++ ((encode (name,value) ++ [0]) ++ bytes post) := by
      rw [hps,bytes_append,bytes_cons]
      simp
    have hcut := moveDown_cut (bytes pre) (encode (name,value) ++ [0]) (bytes post)
    have hleft : without name ps = pre ++ post := by
      have hnames := hr.names
      rw [hps,List.map_append,List.map_cons,List.nodup_append,List.nodup_cons] at hnames
      rw [hps,without,List.filter_append,List.filter_cons_of_neg (by simp),List.filter_eq_self.mpr,List.filter_eq_self.mpr]
      · exact fun p hp => decide_eq_true fun hn => hnames.2.1.1 (List.mem_map.mpr ⟨p,hp,hn⟩)
      · exact fun p hp => decide_eq_true fun hn => hnames.2.2 p.1 (List.mem_map_of_mem hp) name (by simp) hn
    rw [← hbytes,List.length_append,List.length_singleton] at hcut
    have hne : (bytes ps).length ≠ (bytes pre).length + ((encode (name,value)).length + 1) - 1 := by
      rw [hbytes]
      simp only [List.length_append,List.length_singleton]
      omega
    rw [envzRemove,entry_at hr hname hclear hps,Res.bind]
    simp only [hlen]
    rw [if_pos hne,hcut,hleft,bytes_append]

theorem string_block (value rest : List UInt8) (h : 0 ∉ value) : string (value ++ 0 :: rest) = some value := by
  have hall : ∀ c ∈ value, decide (c ≠ 0) = true := fun c hc => decide_eq_true fun hz => h (hz ▸ hc)
  rw [string,if_pos (by simp),List.takeWhile_append_of_pos hall,List.takeWhile_cons_of_neg (by simp),List.append_nil]

theorem concat_ok {v : List UInt8} (hok : BindingOk (name,some v)) (hshort : name.length + v.length + 2 < 2 ^ 31) :
    concat name v = some (encode (name,some v)) := by
  have hn : int32 name.length = name.length := int32_small (by omega)
  have hv : int32 v.length = v.length := int32_small (by omega)
  have htake : name.take name.length ++ 61 :: (v ++ [0]).take (v.length + 1) = encode (name,some v) ++ 0 :: [] := by
    rw [List.take_length,List.take_of_length_le (by simp),encode]
    simp
  rw [concat,hn,hv]
  simp only [Int.toNat_natCast]
  rw [if_pos ⟨by positivity,by positivity,by exact_mod_cast hshort⟩,htake]
  exact string_block _ _ (encode_plain hok)

theorem envzAdd_bytes (hr : Represents m ps) (hok : BindingOk (name,value)) (hclear : Clear name (ps.map encode))
    (hshort : Short name value) : envzAdd (bytes ps) name value = .done (bytes (without name ps ++ [(name,value)])) := by
  have hone : bytes (without name ps ++ [(name,value)]) = bytes (without name ps) ++ encode (name,value) ++ [0] := by
    rw [bytes_append,bytes_cons,List.append_assoc]
    rfl
  rw [envzAdd,envzRemove_bytes hr hok.name hclear,Res.bind,hone]
  cases value with
  | none => rfl
  | some v =>
    simp only [concat_ok hok (hshort v rfl)]
    rfl

theorem Represents.without (hr : Represents m ps) (name : List UInt8) :
    Represents (Function.update m name none) (Argz.without name ps) := by
  refine ⟨fun p hp => hr.ok p (List.mem_filter.mp hp).1,hr.names.sublist (List.filter_sublist.map _),fun n v => ?_⟩
  rw [Argz.without,List.mem_filter,decide_eq_true_iff]
  by_cases hn : n = name
  · subst hn
    simp
  · rw [Function.update_of_ne hn,hr.entry]
    exact ⟨fun h => ⟨h,hn⟩,And.left⟩

theorem Represents.appended (hr : Represents m ps) (hok : BindingOk (name,value)) (hm : m name = none) :
    Represents (Function.update m name (some value)) (ps ++ [(name,value)]) := by
  have hfresh : ∀ p ∈ ps, p.1 ≠ name := by
    intro p hp hn
    rw [(hr.entry name p.2).mpr (hn ▸ hp)] at hm
    exact absurd hm (by simp)
  refine ⟨fun p hp => ?_,?_,fun n v => ?_⟩
  · rcases List.mem_append.mp hp with hp | hp
    · exact hr.ok p hp
    · rw [List.mem_singleton.mp hp]
      exact hok
  · rw [List.map_append,List.nodup_append]
    refine ⟨hr.names,List.nodup_singleton _,fun a ha b hb => ?_⟩
    obtain ⟨p,hp,rfl⟩ := List.mem_map.mp ha
    rw [List.mem_singleton.mp hb]
    exact hfresh p hp
  · rw [List.mem_append,List.mem_singleton]
    by_cases hn : n = name
    · subst hn
      rw [Function.update_self]
      constructor
      · exact fun h => Or.inr (by rw [Option.some.inj h])
      · rintro (h | h)
        · exact absurd rfl (hfresh _ h)
        · rw [(Prod.mk.inj h).2]
    · rw [Function.update_of_ne hn,hr.entry]
      exact ⟨Or.inl,fun h => h.resolve_right fun he => hn (Prod.mk.inj he).1⟩

theorem Represents.added (hr : Represents m ps) (hok : BindingOk (name,value)) :
    Represents (Function.update m name (some value)) (Argz.without name ps ++ [(name,value)]) := by
  have := (hr.without name).appended hok (Function.update_self _ _ _)
  rwa [Function.update_idem] at this

theorem merged_entry (hr : Represents m ps) (hok : BindingOk p) (hclear : Clear p.1 (ps.map encode))
    (hshort : override = true → Short p.1 p.2) :
    mergeEntry (bytes ps) (encode p) override = .done (bytes (mergeStep override ps p)) ∧
      Represents (m.merge override p) (mergeStep override ps p) := by
  rw [mergeEntry,encode_name hok.name,encode_value hok.name,mergeStep,Map.merge]
  cases override with
  | true =>
    rw [if_neg (by simp),if_pos rfl,if_pos (Or.inl rfl)]
    exact ⟨envzAdd_bytes hr hok hclear (hshort rfl),hr.added hok⟩
  | false =>
    rw [if_pos rfl,if_neg (by simp)]
    cases hm : m p.1 with
    | none =>
      have hfresh : p.1 ∉ ps.map Prod.fst := by
        intro hmem
        obtain ⟨q,hq,hn⟩ := List.mem_map.mp hmem
        rw [(hr.entry p.1 q.2).mpr (hn ▸ hq)] at hm
        exact absurd hm (by simp)
      rw [if_neg hfresh,if_pos (Or.inr rfl),entry_none hr hok.name hclear hm,bytes_append,bytes_cons]
      refine ⟨?_,hr.appended hok hm⟩
      simp [Res.bind,bytes]
    | some v =>
      have hmem := (hr.entry p.1 v).mp hm
      obtain ⟨pre,post,hps⟩ := List.append_of_mem hmem
      rw [if_pos (List.mem_map_of_mem (f := Prod.fst) hmem),if_neg (by simp),entry_at hr hok.name hclear hps]
      exact ⟨rfl,hr⟩

theorem next_at {e rest : List UInt8} (he : 0 ∉ e) (len : Nat) :
    argzNext (bytes ps ++ (e ++ 0 :: rest)) len (some (bytes ps).length) =
      some (if len ≤ (bytes ps).length + e.length + 1 then none else some ((bytes ps).length + e.length + 1)) := by
  have hlen : entryLength (bytes ps ++ (e ++ 0 :: rest)) (bytes ps).length = e.length := entryLength_start he
  rw [argzNext,List.drop_left,if_pos (by simp),hlen]

theorem entry_text {e rest : List UInt8} (he : 0 ∉ e) :
    ((bytes ps ++ (e ++ 0 :: rest)).drop (bytes ps).length).takeWhile (· ≠ 0) = e := by
  have hall : ∀ c ∈ e, decide (c ≠ 0) = true := fun c hc => decide_eq_true fun hz => he (hz ▸ hc)
  rw [List.drop_left,List.takeWhile_append_of_pos hall,List.takeWhile_cons_of_neg (by simp),List.append_nil]

theorem bytes_snoc (ps : List Binding) (p : Binding) : (bytes (ps ++ [p])).length = (bytes ps).length + (encode p).length + 1 := by
  rw [bytes_append,bytes_cons]
  simp [bytes]
  omega

theorem bytes_pos {ps : List Binding} (h : ps ≠ []) : 0 < (bytes ps).length := by
  obtain ⟨p,ps,rfl⟩ := List.exists_cons_of_ne_nil h
  rw [bytes_cons,List.length_append,List.length_cons]
  omega

theorem length_le (ps : List Binding) : ps.length ≤ (bytes ps).length := by
  induction ps with
  | nil => exact Nat.zero_le _
  | cons p ps ih =>
    rw [bytes_cons,List.length_append,List.length_cons,List.length_cons]
    omega

def Next (buf : List UInt8) (len : Nat) (entry : Option Nat) (pre todo : List Binding) : Prop :=
  argzNext buf len entry = some (if todo = [] then none else some (bytes pre).length)

theorem next_first (ps : List Binding) (buf : List UInt8) : Next buf (bytes ps).length none [] ps := by
  rw [Next,argzNext]
  by_cases hps : ps = []
  · subst hps
    rfl
  · rw [if_pos (bytes_pos hps),if_neg hps]
    rfl

theorem next_after (pre post : List Binding) (hok : BindingOk p) (g : List UInt8) :
    Next (bytes (pre ++ p :: post) ++ g) (bytes (pre ++ p :: post)).length (some (bytes pre).length) (pre ++ [p]) post := by
  have hshape : bytes (pre ++ p :: post) ++ g = bytes pre ++ (encode p ++ 0 :: (bytes post ++ g)) := by
    rw [bytes_append,bytes_cons]
    simp
  have hlen : (bytes (pre ++ p :: post)).length = (bytes pre).length + (encode p).length + 1 + (bytes post).length := by
    rw [bytes_append,bytes_cons]
    simp only [List.length_append,List.length_cons]
    omega
  rw [Next,hshape,next_at (encode_plain hok),hlen,bytes_snoc]
  by_cases hpost : post = []
  · subst hpost
    rw [if_pos (by simp [bytes]),if_pos rfl]
  · have := bytes_pos hpost
    rw [if_neg (by omega),if_neg hpost]

theorem mergeLoop_done {todo : List Binding} {entry : Option Nat} (hfs : fs = pre ++ todo)
    (hnext : Next (bytes fs) (bytes fs).length entry pre todo) (hok : ∀ f ∈ todo, BindingOk f) (hr : Represents m ps)
    (hmeets : MergeMeets override ps todo) (hfuel : todo.length < fuel) :
    mergeLoop (bytes fs) override fuel entry (bytes ps) = .done (bytes (todo.foldl (mergeStep override) ps)) ∧
      Represents (todo.foldl (Map.merge override) m) (todo.foldl (mergeStep override) ps) := by
  induction todo generalizing pre entry ps m fuel with
  | nil =>
    obtain ⟨fuel,rfl⟩ : ∃ n, fuel = n + 1 := ⟨fuel - 1,by omega⟩
    rw [mergeLoop,hnext]
    exact ⟨rfl,hr⟩
  | cons f todo ih =>
    obtain ⟨fuel,rfl⟩ : ∃ n, fuel = n + 1 := ⟨fuel - 1,by omega⟩
    obtain ⟨hclear,hshort,hrest⟩ := hmeets
    have hf := hok f List.mem_cons_self
    obtain ⟨hrun,hrep⟩ := merged_entry hr hf hclear hshort
    have htext : ((bytes fs).drop (bytes pre).length).takeWhile (· ≠ 0) = encode f := by
      rw [hfs,bytes_append,bytes_cons]
      exact entry_text (encode_plain hf)
    have hafter : Next (bytes fs) (bytes fs).length (some (bytes pre).length) (pre ++ [f]) todo := by
      have := next_after pre todo hf []
      rwa [List.append_nil,← hfs] at this
    rw [mergeLoop,hnext,if_neg (List.cons_ne_nil f todo)]
    simp only [htext,hrun,Res.bind]
    rw [List.length_cons] at hfuel
    exact ih (by rw [hfs]; simp) hafter (fun x hx => hok x (List.mem_cons_of_mem f hx)) hrep hrest (by omega)

theorem envzMerge_bytes (hr : Represents m ps) (hok : ∀ f ∈ fs, BindingOk f) (hmeets : MergeMeets override ps fs) :
    envzMerge (bytes ps) (bytes fs) override = .done (bytes (fs.foldl (mergeStep override) ps)) ∧
      Represents (fs.foldl (Map.merge override) m) (fs.foldl (mergeStep override) ps) :=
  mergeLoop_done (List.nil_append fs).symm (next_first fs (bytes fs)) hok hr hmeets (Nat.lt_succ_of_le (length_le fs))

theorem moveDown_tail (x y z g : List UInt8) :
    ∃ g', moveDown (x ++ (y ++ z) ++ g) (x ++ (y ++ z)).length x.length y.length = (x ++ z) ++ g' ∧
      (z = [] → g' = y ++ g) := by
  have hx : (x ++ (y ++ z) ++ g).take x.length = x := by rw [List.append_assoc,List.take_left]
  have hz : ((x ++ (y ++ z) ++ g).drop (x.length + y.length)).take ((x ++ (y ++ z)).length - x.length - y.length) = z := by
    rw [List.append_assoc,List.append_assoc,← List.drop_drop,List.drop_left,List.drop_left]
    exact List.take_left' (by simp only [List.length_append]; omega)
  refine ⟨_,by rw [moveDown,hx,hz],fun hnil => ?_⟩
  have hlen : (x ++ (y ++ z)).length - y.length = x.length := by
    rw [hnil,List.append_nil,List.length_append,Nat.add_sub_cancel]
  rw [hlen,hnil,List.append_nil,List.append_assoc,List.drop_left]

theorem encode_assigned {n v : List UInt8} : 61 ∈ encode (n,some v) := by simp [encode]

theorem Apart.tail (h : Apart (p :: ps)) : Apart ps := by
  cases ps with
  | nil => trivial
  | cons q ps => exact h.2

theorem stripLoop_done {todo : List Binding} {entry : Option Nat} {g : List UInt8}
    (hnext : Next (bytes (pre ++ todo) ++ g) (bytes (pre ++ todo)).length entry pre todo)
    (hok : ∀ f ∈ todo, BindingOk f) (hapart : Apart todo) (hshort : Shorts todo) (hfuel : todo.length < fuel) :
    stripLoop fuel entry (bytes (pre ++ todo) ++ g) (bytes (pre ++ todo)).length =
      .done (bytes (pre ++ todo.filter fun p => p.2 ≠ none)) := by
  induction hn : todo.length using Nat.strong_induction_on generalizing pre todo entry g fuel with
  | _ n ih =>
    obtain ⟨fuel,rfl⟩ : ∃ k, fuel = k + 1 := ⟨fuel - 1,by omega⟩
    rw [stripLoop,hnext]
    cases todo with
    | nil =>
      simp only [if_pos]
      rw [List.take_left]
      rfl
    | cons p todo =>
      have hp := hok p List.mem_cons_self
      have hshape : bytes (pre ++ p :: todo) ++ g = bytes pre ++ (encode p ++ 0 :: (bytes todo ++ g)) := by
        rw [bytes_append,bytes_cons]
        simp
      have htext : ((bytes (pre ++ p :: todo) ++ g).drop (bytes pre).length).takeWhile (· ≠ 0) = encode p := by
        rw [hshape]
        exact entry_text (encode_plain hp)
      rw [List.length_cons] at hfuel hn
      rw [if_neg (List.cons_ne_nil p todo)]
      simp only [htext]
      obtain ⟨name,value⟩ := p
      cases value with
      | some v =>
        have hsplit : pre ++ (name,some v) :: todo = (pre ++ [(name,some v)]) ++ todo := by simp
        have hafter := next_after pre todo hp g
        rw [if_pos encode_assigned,List.filter_cons_of_pos (by simp)]
        rw [hsplit] at hafter ⊢
        rw [ih todo.length (by omega) hafter (fun x hx => hok x (List.mem_cons_of_mem _ hx)) hapart.tail
          (fun x hx => hshort x (List.mem_cons_of_mem _ hx)) (by omega) rfl]
        simp
      | none =>
        have hlen : entryLength (bytes (pre ++ (name,none) :: todo) ++ g) (bytes pre).length = name.length := by
          rw [hshape]
          exact entryLength_start hp.name.2.2
        have hsmall := int32_small (hshort _ List.mem_cons_self rfl)
        have hwhole : bytes (pre ++ (name,none) :: todo) = bytes pre ++ ((name ++ [0]) ++ bytes todo) := by
          rw [bytes_append,bytes_cons]
          simp [encode]
        have htotal : (bytes (pre ++ (name,none) :: todo)).length = (bytes pre).length + (name.length + 1 + (bytes todo).length) := by
          rw [hwhole]
          simp only [List.length_append,List.length_singleton]
        obtain ⟨g',hmove,hlast⟩ := moveDown_tail (bytes pre) (name ++ [0]) (bytes todo) g
        rw [← hwhole,List.length_append,List.length_singleton,← bytes_append] at hmove
        have hleft : (bytes (pre ++ (name,none) :: todo)).length - (name.length + 1) = (bytes (pre ++ todo)).length := by
          rw [htotal,bytes_append,List.length_append]
          omega
        have hfits : ¬(((name.length + 1 : Nat) : Int) < 0 ∨ ((bytes (pre ++ (name,none) :: todo)).length : Int) <
            (bytes pre).length + (name.length + 1 : Nat)) := by omega
        have hmoves : ((bytes (pre ++ (name,none) :: todo)).length : Int) ≠
            (bytes pre).length + (name.length + 1 : Nat) - 1 := by omega
        rw [if_neg (show 61 ∉ encode (name,none) from hp.name.2.1),hlen,hsmall,if_neg hfits,if_pos hmoves,
          Int.toNat_natCast,hmove,hleft,List.filter_cons_of_neg (by simp)]
        cases todo with
        | nil =>
          have hg := hlast rfl
          refine @ih 0 (by omega) pre fuel [] (some (bytes pre).length) g' ?_ (by simp) trivial (by simp [Shorts])
            (by simpa using hfuel) rfl
          rw [Next,if_pos rfl,List.append_nil,hg,List.append_assoc,List.singleton_append,
            next_at hp.name.2.2,if_pos (by omega)]
        | cons q todo =>
          have hq := hok q (by simp)
          have hafter := next_after pre todo hq g'
          have hsplit : pre ++ q :: todo = (pre ++ [q]) ++ todo := by simp
          have hkeep : q.2 ≠ none := hapart.1 rfl
          rw [List.filter_cons_of_pos (by simpa using hkeep)]
          rw [hsplit] at hafter ⊢
          rw [List.length_cons] at hfuel hn
          rw [ih todo.length (by omega) hafter (fun x hx => hok x (by simp [hx])) hapart.2.tail
            (fun x hx => hshort x (by simp [hx])) (by omega) rfl]
          simp

theorem Represents.stripped (hr : Represents m ps) : Represents m.strip (ps.filter fun p => p.2 ≠ none) := by
  refine ⟨fun p hp => hr.ok p (List.mem_filter.mp hp).1,hr.names.sublist (List.filter_sublist.map _),fun n v => ?_⟩
  rw [List.mem_filter,← hr.entry,Map.strip]
  by_cases hm : m n = some none
  · rw [if_pos hm,hm]
    cases v <;> simp
  · rw [if_neg hm]
    constructor
    · intro hv
      refine ⟨hv,decide_eq_true fun hnil => hm ?_⟩
      rw [hv]
      exact congrArg some hnil
    · exact And.left

theorem stripped_ok (hr : Represents m ps) (hapart : Apart ps) (hshort : Shorts ps) :
    envzStrip (bytes ps) = .done (bytes (ps.filter fun p => p.2 ≠ none)) := by
  have hnext : Next (bytes ([] ++ ps) ++ []) (bytes ([] ++ ps)).length none [] ps := next_first ps _
  have hdone := stripLoop_done hnext hr.ok hapart hshort (Nat.lt_succ_of_le (length_le ps))
  rwa [List.append_nil] at hdone

theorem entriesFrom_entry {e : List UInt8} (he : 0 ∉ e) (entry rest : List UInt8) :
    entriesFrom entry (e ++ 0 :: rest) = (entry ++ e) :: entriesFrom [] rest := by
  induction e generalizing entry with
  | nil => rw [List.nil_append,entriesFrom,if_pos rfl,List.append_nil]
  | cons c e ih =>
    have hc : c ≠ 0 := fun hz => he (hz ▸ List.mem_cons_self)
    rw [List.cons_append,entriesFrom,if_neg hc,ih fun hm => he (List.mem_cons_of_mem c hm)]
    simp

theorem bindings_bytes (hok : ∀ p ∈ ps, BindingOk p) : bindings (bytes ps) = ps := by
  induction ps with
  | nil => rfl
  | cons p ps ih =>
    have hp := hok p List.mem_cons_self
    have hrest := ih fun q hq => hok q (List.mem_cons_of_mem p hq)
    rw [bindings] at hrest ⊢
    rw [bytes_cons,entriesFrom_entry (encode_plain hp),List.nil_append,List.map_cons,hrest,encode_name hp.name,
      encode_value hp.name]

theorem run_represents (hr : Represents m ps) {op : Op} (hvalid : op.Valid) (hmeets : op.Meets ps) :
    ∃ ps', op.run (bytes ps) = .done (bytes ps') ∧ Represents (op.spec m) ps' := by
  cases op with
  | add name value => exact ⟨_,envzAdd_bytes hr hvalid hmeets.1 hmeets.2,hr.added hvalid⟩
  | remove name => exact ⟨_,envzRemove_bytes hr hvalid hmeets,hr.without name⟩
  | merge envz2 override => exact ⟨_,envzMerge_bytes hr hvalid hmeets⟩
  | strip => exact ⟨_,stripped_ok hr hmeets.1 hmeets.2,hr.stripped⟩

theorem reached_represents {envz : List UInt8} (h : Reached m envz) : ∃ ps, Represents m ps ∧ envz = bytes ps := by
  induction h with
  | empty => exact ⟨[],⟨by simp,List.nodup_nil,by simp⟩,rfl⟩
  | step _ hvalid hmeets hrun ih =>
    obtain ⟨ps,hr,rfl⟩ := ih
    rw [bindings_bytes hr.ok] at hmeets
    obtain ⟨ps',hdone,hr'⟩ := run_represents hr hvalid hmeets
    rw [hdone,Res.done.injEq] at hrun
    exact ⟨ps',hr',hrun.symm⟩

theorem reached_keeps {envz : List UInt8} (h : Reached m envz) : Keeps m envz := by
  obtain ⟨ps,hr,rfl⟩ := reached_represents h
  have hsame := bindings_bytes hr.ok
  refine ⟨⟨ps,hr,rfl⟩,fun name hname hclear => ?_,fun name v hname hclear hm => ?_,fun name hname hclear hm => ?_,
    fun op hvalid hmeets => ?_⟩
  · rw [hsame] at hclear
    cases hm : m name with
    | none => exact get_none hr hname hclear hm
    | some v =>
      obtain ⟨pre,post,hps⟩ := List.append_of_mem ((hr.entry name v).mp hm)
      exact get_at hr hname hclear hps
  · rw [hsame] at hclear
    obtain ⟨pre,post,hps⟩ := List.append_of_mem ((hr.entry name v).mp hm)
    exact ⟨pre,post,congrArg bytes hps,entry_at hr hname hclear hps⟩
  · rw [hsame] at hclear
    exact entry_none hr hname hclear hm
  · rw [hsame] at hmeets
    obtain ⟨ps',hdone,-⟩ := run_represents hr hvalid hmeets
    exact ⟨_,hdone⟩

end

theorem Reached.add {m : Map} {envz envz' name : List UInt8} {value : Option (List UInt8)} (h : Reached m envz)
    (hname : NameOk name) (hplain : ∀ v ∈ value, 0 ∉ v)
    (hclear : ∀ e ∈ ((bindings envz).map encode).find? (accepts name 0), nameOf e = name)
    (hshort : ∀ v ∈ value, name.length + v.length + 2 < 2 ^ 31) (hrun : envzAdd envz name value = .done envz') :
    Reached ((Op.add name value).spec m) envz' :=
  @Reached.step m envz envz' (.add name value) h ⟨hname,hplain⟩ ⟨hclear,hshort⟩ hrun

theorem one_binding_kept : Keeps ([Op.add [97,98] (some [49]),.add [99] none,.add [100] (some [120]),
    .add [97,98] (some [50]),.remove [100],.strip].foldl Op.spec fun _ => none) [97,98,61,50,0] := by
  have hfirst : Reached _ [97,98,61,49,0] :=
    @Reached.add _ _ _ [97,98] (some [49]) .empty (by simp [NameOk]) (by decide) (by decide) (by decide) rfl
  have hbare : Reached _ [97,98,61,49,0,99,0] :=
    @Reached.add _ _ _ [99] none hfirst (by simp [NameOk]) (by decide) (by decide) (by decide) rfl
  have hthree : Reached _ [97,98,61,49,0,99,0,100,61,120,0] :=
    @Reached.add _ _ _ [100] (some [120]) hbare (by simp [NameOk]) (by decide) (by decide) (by decide) rfl
  have hagain : Reached _ [99,0,100,61,120,0,97,98,61,50,0] :=
    @Reached.add _ _ _ [97,98] (some [50]) hthree (by simp [NameOk]) (by decide) (by decide) (by decide) rfl
  have hcut : Reached _ [99,0,97,98,61,50,0] :=
    @Reached.step _ _ _ (.remove [100]) hagain (by simp [Op.Valid,NameOk])
      (show ∀ e ∈ List.find? _ _, _ by decide) rfl
  exact reached_keeps (@Reached.step _ _ _ .strip hcut trivial ⟨by simp [bindings,entriesFrom,valueOf,Apart],
    show ∀ p ∈ bindings _, _ by decide⟩ rfl)

theorem suffix_found : ¬∀ (op : Op) (envz name : List UInt8), op.Valid → NameOk name → op.run [] = .done envz →
    envzGet envz name = .done (op.spec (fun _ => none) name).join := by
  intro hall
  have hget := hall (.add [102,111,111,98,97,114] (some [49])) [102,111,111,98,97,114,61,49,0] [98,97,114]
    ⟨by simp [NameOk],fun v hv => by rw [← Option.some.inj hv]; decide⟩ (by simp [NameOk]) rfl
  have hfound : envzGet [102,111,111,98,97,114,61,49,0] [98,97,114] = .done (some [49]) := rfl
  rw [hfound,Op.spec,Function.update_of_ne (by decide),Res.done.injEq] at hget
  exact absurd hget (by decide)

end Argz
