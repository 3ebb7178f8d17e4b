import Mathlib
import Picolibc.Argz.Replace

namespace Argz

open Occurrences

open Checked (int32)

def lookupLoop {α : Type} (name : List UInt8) (stop : UInt8 → List UInt8 → Option α) (missing : α) :
    Nat → List UInt8 → Res α
  | 0, _ => .spinning
  | fuel + 1, buf =>
    if buf = [] then .done missing
    else
      match bufFindstr name buf with
      | none => .fault
      | some (false,rest) => lookupLoop name stop missing fuel rest
      | some (true,[]) => .fault
      | some (true,c :: rest) =>
        match stop c rest with
        | some a => .done a
        | none => lookupLoop name stop missing fuel (c :: rest)

def entryStart (envz : List UInt8) : Nat → Nat
  | 0 => if envz.getD 0 0 = 0 then 1 else 0
  | i + 1 => if envz.getD (i + 1) 0 = 0 then i + 2 else entryStart envz i

def envzEntry (envz name : List UInt8) : Res (Option Nat) :=
  lookupLoop name
    (fun c rest => if c = 61 ∨ c = 0 then some (some (entryStart envz (envz.length - (rest.length + 1) - 1))) else none)
    none (envz.length + 1) envz

def envzGet (envz name : List UInt8) : Res (Option (List UInt8)) :=
  lookupLoop name
    (fun c rest => if c = 61 then some (some (rest.takeWhile (· ≠ 0))) else if c = 0 then some none else none)
    none (envz.length + 1) envz

def moveDown (buf : List UInt8) (len off n : Nat) : List UInt8 :=
  buf.take off ++ (buf.drop (off + n)).take (len - off - n) ++ buf.drop (len - n)

def envzRemove (envz name : List UInt8) : Res (List UInt8) :=
  (envzEntry envz name).bind fun entry =>
    match entry with
    | none => .done envz
    | some off =>
      let len := entryLength envz off + 1
      let envz' := if envz.length ≠ off + len - 1 then moveDown envz envz.length off len else envz
      .done (envz'.take (envz.length - len))

def string (block : List UInt8) : Option (List UInt8) :=
  if 0 ∈ block then some (block.takeWhile (· ≠ 0)) else none

def concat (name value : List UInt8) : Option (List UInt8) :=
  let nameLen := int32 name.length
  let valLen := int32 value.length
  if 0 ≤ nameLen ∧ 0 ≤ valLen ∧ nameLen + valLen + 2 < 2 ^ 31 then
    string (name.take nameLen.toNat ++ 61 :: (value ++ [0]).take (valLen.toNat + 1))
  else none

def envzAdd (envz name : List UInt8) (value : Option (List UInt8)) : Res (List UInt8) :=
  (envzRemove envz name).bind fun envz =>
    match value with
    | none => .done (envz ++ name ++ [0])
    | some value => (Res.ofOption (concat name value)).bind fun concat => .done (envz ++ concat ++ [0])

def argzNext (argz : List UInt8) (argzLen : Nat) : Option Nat → Option (Option Nat)
  | none => some (if 0 < argzLen then some 0 else none)
  | some entry =>
    if 0 ∈ argz.drop entry then
      let entry := entry + entryLength argz entry + 1
      some (if argzLen ≤ entry then none else some entry)
    else none

def nameOf (entry : List UInt8) : List UInt8 := entry.takeWhile (· ≠ 61)

def valueOf (entry : List UInt8) : Option (List UInt8) :=
  if 61 ∈ entry then some (entry.drop ((nameOf entry).length + 1)) else none

def mergeEntry (envz entry : List UInt8) (override : Bool) : Res (List UInt8) :=
  if override = false then
    (envzEntry envz (nameOf entry)).bind fun found =>
      match found with
      | none => .done (envz ++ entry ++ [0])
      | some _ => .done envz
  else envzAdd envz (nameOf entry) (valueOf entry)

def mergeLoop (envz2 : List UInt8) (override : Bool) : Nat → Option Nat → List UInt8 → Res (List UInt8)
  | 0, _, _ => .spinning
  | fuel + 1, entry, envz =>
    match argzNext envz2 envz2.length entry with
    | none => .fault
    | some none => .done envz
    | some (some off) =>
      (mergeEntry envz ((envz2.drop off).takeWhile (· ≠ 0)) override).bind (mergeLoop envz2 override fuel (some off))

def envzMerge (envz envz2 : List UInt8) (override : Bool) : Res (List UInt8) :=
  mergeLoop envz2 override (envz2.length + 1) none envz

def stripLoop : Nat → Option Nat → List UInt8 → Nat → Res (List UInt8)
  | 0, _, _, _ => .spinning
  | fuel + 1, entry, envz, len =>
    match argzNext envz len entry with
    | none => .fault
    | some none => .done (envz.take len)
    | some (some off) =>
      if 61 ∈ (envz.drop off).takeWhile (· ≠ 0) then stripLoop fuel (some off) envz len
      else
        let n := int32 (entryLength envz off + 1)
        if n < 0 ∨ len < off + n then .fault
        else
          let envz := if (len : Int) ≠ off + n - 1 then moveDown envz len off n.toNat else envz
          stripLoop fuel (some off) envz (len - n.toNat)

def envzStrip (envz : List UInt8) : Res (List UInt8) := stripLoop (envz.length + 1) none envz envz.length

def accepts (name : List UInt8) : Nat → List UInt8 → Bool
  | _, [] => false
  | s + 1, _ :: l => accepts name s l
  | 0, x :: l =>
    if name <+: x :: l then
      if ((x :: l).drop name.length).headD 61 = 61 then true else accepts name (name.length - 1) l
    else accepts name 0 l

def Clear (name : List UInt8) (es : List (List UInt8)) : Prop :=
  ∀ e, es.find? (accepts name 0) = some e → nameOf e = name

def NameOk (name : List UInt8) : Prop := name ≠ [] ∧ 61 ∉ name ∧ 0 ∉ name

abbrev Binding := List UInt8 × Option (List UInt8)

def encode : Binding → List UInt8
  | (name,none) => name
  | (name,some value) => name ++ 61 :: value

def bytes (ps : List Binding) : List UInt8 := joined 0 (ps.map encode)

structure BindingOk (p : Binding) : Prop where
  name : NameOk p.1
  value : ∀ v, p.2 = some v → 0 ∉ v

section

variable {α : Type} {name : List UInt8} {stop : UInt8 → List UInt8 → Option α} {missing : α} {fuel : Nat}
  {buf t : List UInt8} {p : Binding} {ps pre post : List Binding}

theorem accepts_cons (name l : List UInt8) (x : UInt8) : accepts name 0 (x :: l) = if name <+: x :: l then
    if ((x :: l).drop name.length).headD 61 = 61 then true else accepts name (name.length - 1) l
    else accepts name 0 l := rfl

theorem accepts_skip (name l : List UInt8) (s : Nat) : accepts name s l = accepts name 0 (l.drop s) := by
  induction l generalizing s with
  | nil => cases s <;> rfl
  | cons x l ih =>
    cases s with
    | zero => rfl
    | succ s => exact ih s

theorem accepts_match (hname : name ≠ []) (r : List UInt8) :
    accepts name 0 (name ++ r) = if r.headD 61 = 61 then true else accepts name 0 r := by
  obtain ⟨x,p,rfl⟩ := List.exists_cons_of_ne_nil hname
  have hpre : x :: p <+: x :: (p ++ r) := ⟨r,rfl⟩
  rw [List.cons_append,accepts_cons,if_pos hpre,accepts_skip,← List.cons_append,List.drop_left]
  simp

theorem accepts_miss {x : UInt8} {l : List UInt8} (h : ¬name <+: x :: l) : accepts name 0 (x :: l) = accepts name 0 l := by
  rw [accepts_cons,if_neg h]

theorem lookup_miss {x : UInt8} (hnul : 0 ∉ name) (hend : Ended (x :: buf)) (h : ¬name <+: x :: buf) :
    lookupLoop name stop missing (fuel + 2) (x :: buf) = lookupLoop name stop missing (fuel + 2) buf := by
  rw [lookupLoop,if_neg (List.cons_ne_nil x buf),bufFindstr_miss hnul hend h]
  by_cases hbuf : buf = []
  · subst hbuf
    rfl
  · rw [lookupLoop,if_neg hbuf]

theorem lookup_match (hname : name ≠ []) (c : UInt8) (rest : List UInt8) :
    lookupLoop name stop missing (fuel + 1) (name ++ c :: rest) =
      match stop c rest with
      | some a => .done a
      | none => lookupLoop name stop missing fuel (c :: rest) := by
  rw [lookupLoop,if_neg (by simp [hname]),bufFindstr_match hname]

theorem lookup_skip (missing : α) (hname : name ≠ []) (hnul : 0 ∉ name) (hstop : ∀ c rest, c ≠ 61 → c ≠ 0 → stop c rest = none)
    (hend : Ended (t ++ 0 :: buf)) (ht : 0 ∉ t) (hfuel : (t ++ 0 :: buf).length < fuel)
    (hno : accepts name 0 t = false) :
    ∃ fuel', buf.length < fuel' ∧ lookupLoop name stop missing fuel (t ++ 0 :: buf) =
      lookupLoop name stop missing fuel' buf := by
  induction hn : t.length using Nat.strong_induction_on generalizing t fuel with
  | _ n ih =>
    rw [List.length_append,List.length_cons] at hfuel
    obtain ⟨fuel,rfl⟩ : ∃ m, fuel = m + 1 := ⟨fuel - 1,by omega⟩
    cases t with
    | nil =>
      obtain ⟨fuel,rfl⟩ : ∃ m, fuel = m + 1 := ⟨fuel - 1,by simp at hfuel; omega⟩
      exact ⟨fuel + 2,by simp at hfuel; omega,lookup_miss hnul hend (not_prefix_sep hname hnul)⟩
    | cons x t =>
      have ht' : 0 ∉ t := fun hm => ht (List.mem_cons_of_mem x hm)
      by_cases hpre : name <+: x :: t
      · obtain ⟨r,hr⟩ := hpre
        have hlen := congrArg List.length hr
        have hpos : 0 < name.length := List.length_pos_iff.mpr hname
        rw [List.length_append] at hlen
        rw [← hr,accepts_match hname] at hno
        cases r with
        | nil => simp at hno
        | cons c r =>
          have hc : c ≠ 61 := fun hc => by simp [hc] at hno
          have hz : c ≠ 0 := fun hz => ht (hr ▸ hz ▸ List.mem_append_right name List.mem_cons_self)
          rw [List.headD_cons,if_neg hc] at hno
          rw [← hr,List.append_assoc,List.cons_append,lookup_match hname,hstop c _ hc hz]
          refine ih (c :: r).length (by omega) (t := c :: r) ?_ ?_ ?_ hno rfl
          · rw [← hr,List.append_assoc] at hend
            exact hend.suffix
          · exact fun hm => ht (hr ▸ List.mem_append_right name hm)
          · simp only [List.length_append,List.length_cons] at hlen hfuel ⊢
            omega
      · have hmiss : ¬name <+: x :: (t ++ 0 :: buf) := fun hp => hpre ((prefix_before (l := x :: t) hnul).mp hp)
        rw [accepts_miss hpre] at hno
        obtain ⟨fuel,rfl⟩ : ∃ m, fuel = m + 1 := ⟨fuel - 1,by simp at hfuel; omega⟩
        have hend' : Ended (x :: (t ++ 0 :: buf)) := hend
        rw [List.cons_append,lookup_miss hnul hend' hmiss]
        exact ih t.length (by rw [← hn]; simp) hend'.tail ht' (by simp at hfuel ⊢; omega) hno rfl

theorem lookup_over (missing : α) (hname : name ≠ []) (hnul : 0 ∉ name) (hstop : ∀ c rest, c ≠ 61 → c ≠ 0 → stop c rest = none)
    {es : List (List UInt8)} (hend : Ended (joined 0 es ++ buf)) (hplain : ∀ e ∈ es, 0 ∉ e)
    (hfuel : (joined 0 es ++ buf).length < fuel) (hno : ∀ e ∈ es, accepts name 0 e = false) :
    ∃ fuel', buf.length < fuel' ∧ lookupLoop name stop missing fuel (joined 0 es ++ buf) =
      lookupLoop name stop missing fuel' buf := by
  induction es generalizing fuel with
  | nil => exact ⟨fuel,hfuel,rfl⟩
  | cons e es ih =>
    have hshape : joined 0 (e :: es) ++ buf = e ++ 0 :: (joined 0 es ++ buf) := by simp
    rw [hshape] at hend hfuel ⊢
    obtain ⟨m,hm,hskip⟩ := lookup_skip missing hname hnul hstop hend (hplain e List.mem_cons_self) hfuel
      (hno e List.mem_cons_self)
    obtain ⟨m',hm',hrest⟩ := ih hend.suffix.tail (fun x hx => hplain x (List.mem_cons_of_mem e hx)) hm
      (fun x hx => hno x (List.mem_cons_of_mem e hx))
    exact ⟨m',hm',hskip.trans hrest⟩

theorem encode_name (h : NameOk p.1) : nameOf (encode p) = p.1 := by
  obtain ⟨n,v⟩ := p
  have hall : ∀ c ∈ n, decide (c ≠ 61) = true := fun c hc => decide_eq_true fun hz => h.2.1 (hz ▸ hc)
  cases v with
  | none => rw [nameOf,encode,List.takeWhile_eq_self_iff.mpr hall]
  | some v =>
    rw [nameOf,encode,List.takeWhile_append_of_pos hall,List.takeWhile_cons_of_neg (by simp),List.append_nil]

theorem encode_value (h : NameOk p.1) : valueOf (encode p) = p.2 := by
  rw [valueOf,encode_name h]
  obtain ⟨n,v⟩ := p
  cases v with
  | none => rw [encode,if_neg h.2.1]
  | some v => rw [encode,if_pos (by simp),← List.drop_drop,List.drop_left,List.drop_one,List.tail_cons]

theorem encode_plain (h : BindingOk p) : 0 ∉ encode p := by
  obtain ⟨n,v⟩ := p
  cases v with
  | none => exact h.name.2.2
  | some v =>
    rw [encode]
    intro hm
    rcases List.mem_append.mp hm with hn | hv
    · exact h.name.2.2 hn
    · exact h.value v rfl ((List.mem_cons.mp hv).resolve_left (by decide))

theorem encode_accepted (h : NameOk p.1) : accepts p.1 0 (encode p) = true := by
  obtain ⟨n,v⟩ := p
  cases v with
  | none =>
    have := accepts_match h.1 []
    rwa [List.append_nil,List.headD_nil,if_pos rfl] at this
  | some v => rw [encode,accepts_match h.1,List.headD_cons,if_pos rfl]

theorem bytes_append (pre post : List Binding) : bytes (pre ++ post) = bytes pre ++ bytes post := by
  rw [bytes,List.map_append,joined_append]
  rfl

theorem bytes_cons (p : Binding) (ps : List Binding) : bytes (p :: ps) = encode p ++ 0 :: bytes ps := by
  rw [bytes,List.map_cons,joined_cons]
  rfl

theorem bytes_ended (ps : List Binding) : Ended (bytes ps) := joined_ended _

theorem maps_plain (h : ∀ p ∈ ps, BindingOk p) : ∀ e ∈ ps.map encode, 0 ∉ e := by
  intro e he
  obtain ⟨p,hp,rfl⟩ := List.mem_map.mp he
  exact encode_plain (h p hp)

abbrev Map := List UInt8 → Option (Option (List UInt8))

structure Represents (m : Map) (ps : List Binding) : Prop where
  ok : ∀ p ∈ ps, BindingOk p
  names : (ps.map Prod.fst).Nodup
  entry : ∀ n v, m n = some v ↔ (n,v) ∈ ps

variable {m : Map} {value : Option (List UInt8)}

theorem Represents.absent (hr : Represents m ps) (hclear : Clear name (ps.map encode)) (hm : m name = none) :
    ∀ e ∈ ps.map encode, accepts name 0 e = false := by
  intro e he
  by_contra hyes
  rw [Bool.not_eq_false] at hyes
  obtain ⟨e',he'⟩ := Option.isSome_iff_exists.mp (List.find?_isSome.mpr ⟨e,he,hyes⟩)
  obtain ⟨q,hq,rfl⟩ := List.mem_map.mp (List.mem_of_find?_eq_some he')
  have hname := hclear _ he'
  rw [encode_name (hr.ok q hq).name] at hname
  rw [(hr.entry name q.2).mpr (hname ▸ hq)] at hm
  exact absurd hm (by simp)

theorem Represents.first (hr : Represents m ps) (hclear : Clear name (ps.map encode))
    (hps : ps = pre ++ (name,value) :: post) : ∀ e ∈ pre.map encode, accepts name 0 e = false := by
  intro e he
  by_contra hyes
  rw [Bool.not_eq_false] at hyes
  obtain ⟨e',he'⟩ := Option.isSome_iff_exists.mp (List.find?_isSome.mpr ⟨e,he,hyes⟩)
  obtain ⟨q,hq,rfl⟩ := List.mem_map.mp (List.mem_of_find?_eq_some he')
  have hname : nameOf (encode q) = name := hclear _ (by
    rw [hps,List.map_append,List.find?_append,he']
    rfl)
  rw [encode_name (hr.ok q (hps ▸ List.mem_append_left _ hq)).name] at hname
  have hnames := hr.names
  rw [hps,List.map_append,List.nodup_append] at hnames
  exact hnames.2.2 q.1 (List.mem_map_of_mem hq) name (by simp) hname

theorem entryStart_at {e rest : List UInt8} (he : 0 ∉ e) {i : Nat} (hi : i < e.length) :
    entryStart (bytes ps ++ (e ++ rest)) ((bytes ps).length + i) = (bytes ps).length := by
  have hget : ∀ j (hj : j < e.length), (bytes ps ++ (e ++ rest)).getD ((bytes ps).length + j) 0 ≠ 0 := by
    intro j hj hz
    rw [List.getD_eq_getElem?_getD,List.getElem?_append_right (Nat.le_add_right _ _),Nat.add_sub_cancel_left,
      List.getElem?_append_left hj,List.getElem?_eq_getElem hj,Option.getD_some] at hz
    exact he (hz ▸ List.getElem_mem _)
  induction i with
  | zero =>
    rcases List.eq_nil_or_concat (bytes ps) with hnil | ⟨l,a,hlast⟩
    · have h0 := hget 0 hi
      rw [hnil] at h0 ⊢
      exact if_neg h0
    · have hzero : a = 0 := bytes_ended ps a (by rw [hlast]; simp)
      have h0 := hget 0 hi
      subst hzero
      rw [hlast] at h0 ⊢
      have hlen : (l.concat 0).length + 0 = l.length + 1 := by simp
      rw [hlen] at h0 ⊢
      have hat : (l.concat 0 ++ (e ++ rest)).getD l.length 0 = 0 := by simp
      rw [entryStart,if_neg h0]
      cases hl : l.length with
      | zero => rw [entryStart,if_pos (hl ▸ hat),List.length_concat,hl]
      | succ n => rw [entryStart,if_pos (hl ▸ hat),List.length_concat,hl]
  | succ i ih =>
    rw [← Nat.add_assoc,entryStart,if_neg (by rw [Nat.add_assoc]; exact hget (i + 1) hi)]
    exact ih (by omega)

theorem lookup_at (hr : Represents m ps) (hname : NameOk name) (hclear : Clear name (ps.map encode))
    (hps : ps = pre ++ (name,value) :: post) {stop : UInt8 → List UInt8 → Option α}
    (hstop : ∀ c rest, c ≠ 61 → c ≠ 0 → stop c rest = none) (missing : α) {c : UInt8} {rest : List UInt8}
    (hshape : encode (name,value) ++ 0 :: bytes post = name ++ c :: rest) {a : α} (ha : stop c rest = some a) :
    lookupLoop name stop missing ((bytes ps).length + 1) (bytes ps) = .done a := by
  have hbytes : bytes ps = bytes pre ++ (name ++ c :: rest) := by rw [hps,bytes_append,bytes_cons,hshape]
  have hend : Ended (joined 0 (pre.map encode) ++ (name ++ c :: rest)) := hbytes ▸ bytes_ended ps
  have hfuel : (joined 0 (pre.map encode) ++ (name ++ c :: rest)).length < (bytes ps).length + 1 := by
    rw [hbytes]
    exact Nat.lt_succ_self _
  obtain ⟨m',hm',hskip⟩ := lookup_over missing hname.1 hname.2.2 hstop hend
    (maps_plain fun p hp => hr.ok p (hps ▸ List.mem_append_left _ hp)) hfuel (hr.first hclear hps)
  obtain ⟨m',rfl⟩ : ∃ n, m' = n + 1 := ⟨m' - 1,by omega⟩
  have hbytes' : bytes ps = joined 0 (pre.map encode) ++ (name ++ c :: rest) := hbytes
  nth_rewrite 2 [hbytes']
  rw [hskip,lookup_match hname.1,ha]

theorem lookup_none (hr : Represents m ps) (hname : NameOk name) (hclear : Clear name (ps.map encode))
    (hm : m name = none) {stop : UInt8 → List UInt8 → Option α}
    (hstop : ∀ c rest, c ≠ 61 → c ≠ 0 → stop c rest = none) (missing : α) :
    lookupLoop name stop missing ((bytes ps).length + 1) (bytes ps) = .done missing := by
  have hend : Ended (joined 0 (ps.map encode) ++ []) := by
    rw [List.append_nil]
    exact bytes_ended ps
  have hfuel : (joined 0 (ps.map encode) ++ []).length < (bytes ps).length + 1 := by
    rw [List.append_nil]
    exact Nat.lt_succ_self _
  obtain ⟨m',hm',hskip⟩ := lookup_over missing hname.1 hname.2.2 hstop hend (maps_plain hr.ok) hfuel (hr.absent hclear hm)
  obtain ⟨m',rfl⟩ : ∃ n, m' = n + 1 := ⟨m' - 1,by omega⟩
  rw [List.append_nil] at hskip
  exact hskip

theorem entry_at (hr : Represents m ps) (hname : NameOk name) (hclear : Clear name (ps.map encode))
    (hps : ps = pre ++ (name,value) :: post) : envzEntry (bytes ps) name = .done (some (bytes pre).length) := by
  have hpos : 0 < name.length := List.length_pos_iff.mpr hname.1
  have hstart : ∀ c rest, encode (name,value) ++ 0 :: bytes post = name ++ c :: rest →
      entryStart (bytes ps) ((bytes ps).length - (rest.length + 1) - 1) = (bytes pre).length := by
    intro c rest hshape
    have hbytes : bytes ps = bytes pre ++ (name ++ c :: rest) := by rw [hps,bytes_append,bytes_cons,hshape]
    have hpos' : (bytes ps).length - (rest.length + 1) - 1 = (bytes pre).length + (name.length - 1) := by
      rw [hbytes]
      simp only [List.length_append,List.length_cons]
      omega
    rw [hpos',hbytes]
    exact entryStart_at hname.2.2 (by omega)
  have hstop : ∀ (c : UInt8) (rest : List UInt8), c ≠ 61 → c ≠ 0 → (if c = 61 ∨ c = 0 then
      some (some (entryStart (bytes ps) ((bytes ps).length - (rest.length + 1) - 1))) else none) = none :=
    fun c rest h1 h2 => if_neg (by tauto)
  cases value with
  | none =>
    have hshape : encode (name,none) ++ 0 :: bytes post = name ++ 0 :: bytes post := rfl
    exact lookup_at hr hname hclear hps hstop none hshape (by rw [if_pos (Or.inr rfl),hstart _ _ hshape])
  | some v =>
    have hshape : encode (name,some v) ++ 0 :: bytes post = name ++ 61 :: (v ++ 0 :: bytes post) := by simp [encode]
    exact lookup_at hr hname hclear hps hstop none hshape (by rw [if_pos (Or.inl rfl),hstart _ _ hshape])

theorem entry_none (hr : Represents m ps) (hname : NameOk name) (hclear : Clear name (ps.map encode))
    (hm : m name = none) : envzEntry (bytes ps) name = .done none :=
  lookup_none hr hname hclear hm (fun c rest h1 h2 => if_neg (by tauto)) none

theorem get_at (hr : Represents m ps) (hname : NameOk name) (hclear : Clear name (ps.map encode))
    (hps : ps = pre ++ (name,value) :: post) : envzGet (bytes ps) name = .done value := by
  have hok : BindingOk (name,value) := hr.ok _ (by rw [hps]; simp)
  cases value with
  | none =>
    have hshape : encode (name,none) ++ 0 :: bytes post = name ++ 0 :: bytes post := rfl
    exact lookup_at hr hname hclear hps (fun c rest h1 h2 => by rw [if_neg h1,if_neg h2]) none hshape rfl
  | some v =>
    have hshape : encode (name,some v) ++ 0 :: bytes post = name ++ 61 :: (v ++ 0 :: bytes post) := by simp [encode]
    have hall : ∀ c ∈ v, decide (c ≠ 0) = true := fun c hc => decide_eq_true fun hz => hok.value v rfl (hz ▸ hc)
    exact lookup_at hr hname hclear hps (fun c rest h1 h2 => by rw [if_neg h1,if_neg h2]) none hshape (by
      rw [if_pos rfl,List.takeWhile_append_of_pos hall,List.takeWhile_cons_of_neg (by simp),List.append_nil])

theorem get_none (hr : Represents m ps) (hname : NameOk name) (hclear : Clear name (ps.map encode))
    (hm : m name = none) : envzGet (bytes ps) name = .done none :=
  lookup_none hr hname hclear hm (fun c rest h1 h2 => by rw [if_neg h1,if_neg h2]) none

end

end Argz
