import Mathlib
import Picolibc.Iconv.Codes

namespace Iconv

open Ascii Multibyte

namespace Jis

variable (host : Host)

def mbrtowc (l : List UInt8) (ps : Mbstate) : Conv :=
  let r := jisMbtowc host l l.length ps
  if r.ret = -1 then { r with state := { r.state with count := 0 } } else r

def consumed (l : List UInt8) (r : Conv) : Nat := if r.ret = 0 then l.idxOf 0 + 1 else r.ret.toNat

def feed : Nat → Mbstate → List UInt8 → List UInt8 → List (List UInt8 × Nat) × Option (Mbstate × List UInt8)
  | 0, ps, held, _ => ([],some (ps,held))
  | n + 1, ps, held, l =>
    if l = [] then ([],some (ps,held)) else
    let r := mbrtowc host l ps
    if r.ret = -1 then ([],none)
    else if r.ret = -2 then ([],some (r.state,held ++ l))
    else
      let q := feed n r.state [] (l.drop (consumed l r))
      ((held ++ l.take (consumed l r),r.wc.getD 0) :: q.1,q.2)

def decode : Mbstate → List UInt8 → List (List UInt8) → List (List UInt8 × Nat) × Option (List UInt8)
  | _, held, [] => ([],some held)
  | ps, held, l :: chunks =>
    let q := feed host l.length ps held l
    match q.2 with
    | none => (q.1,none)
    | some r =>
      let d := decode r.1 r.2 chunks
      (q.1 ++ d.1,d.2)

def read (chunks : List (List UInt8)) : List (List UInt8 × Nat) × Option (List UInt8) :=
  decode host Mbstate.initial [] chunks

def encode : List Nat → Mbstate → Option (List UInt8)
  | [], _ => some []
  | w :: ws, ps => (jisWctomb host w ps).2.bind fun l => (encode ws (jisWctomb host w ps).1).map fun r => l ++ r

inductive Spelled : Bool → List UInt8 → Nat → Bool → Prop where
  | ascii {b : UInt8} : Spelled false [b] b.toNat false
  | pair {a b : UInt8} {w : Nat} : isJis a = true → isJis b = true →
      host.jisToUnicode (a.toNat * 256 + b.toNat) = some w → Spelled true [a,b] w true
  | toJis {x : UInt8} {l : List UInt8} {w : Nat} {m : Bool} : x = 0x40 ∨ x = 0x42 → Spelled true l w m →
      Spelled false (0x1b :: 0x24 :: x :: l) w m
  | toAscii {x : UInt8} {l : List UInt8} {w : Nat} {m : Bool} : x = 0x42 ∨ x = 0x4a → Spelled false l w m →
      Spelled true (0x1b :: 0x28 :: x :: l) w m

inductive Awaited : Bool → List UInt8 → Prop where
  | nil {m : Bool} : Awaited m []
  | escape {m : Bool} : Awaited m [0x1b]
  | dollar : Awaited false [0x1b,0x24]
  | bracket : Awaited true [0x1b,0x28]
  | lead {a : UInt8} : isJis a = true → Awaited true [a]
  | toJis {x : UInt8} {l : List UInt8} : x = 0x40 ∨ x = 0x42 → Awaited true l → Awaited false (0x1b :: 0x24 :: x :: l)
  | toAscii {x : UInt8} {l : List UInt8} : x = 0x42 ∨ x = 0x4a → Awaited false l →
      Awaited true (0x1b :: 0x28 :: x :: l)

inductive Accounted : Bool → List UInt8 → List (List UInt8 × Nat) → Option (List UInt8) → Prop where
  | awaited {m : Bool} {l : List UInt8} : Awaited m l → Accounted m l [] (some l)
  | error {m : Bool} {l : List UInt8} : Accounted m l [] none
  | char {m m' : Bool} {l r : List UInt8} {w : Nat} {evs : List (List UInt8 × Nat)} {ending : Option (List UInt8)} :
      Spelled host m l w m' → Accounted m' r evs ending → Accounted m (l ++ r) ((l,w) :: evs) ending

structure Faithful (bs : List UInt8) : Prop where
  uncut : ∀ chunks : List (List UInt8), chunks.flatten = bs →
    (read host chunks).1.map Prod.snd = (read host [bs]).1.map Prod.snd ∧
      ((read host chunks).2 = none ↔ (read host [bs]).2 = none)
  accounted : ∀ chunks : List (List UInt8), chunks.flatten = bs →
    Accounted host false bs (read host chunks).1 (read host chunks).2

def clean : JisState → UInt8 → List UInt8 → Bool
  | _, _, [] => true
  | s, b0, c :: l =>
    match jisActionTable s (jisCharType c) with
    | .copyA => s = .ascii && clean .ascii b0 l
    | .empty => clean .ascii b0 l
    | .copyJ1 => clean (jisStateTable s (jisCharType c)) c l
    | .copyJ2 => (host.jisToUnicode (b0.toNat * 256 + c.toNat)).isNone || clean .jis b0 l
    | .error => true
    | _ => clean (jisStateTable s (jisCharType c)) b0 l

def emit : JisState → UInt8 → List UInt8 → List UInt8 → List (List UInt8 × Nat) × Option (JisState × UInt8 × List UInt8)
  | s, b0, held, [] => ([],some (s,b0,held))
  | s, b0, held, c :: l =>
    let say := fun w s => ((held ++ [c],w) :: (emit s b0 [] l).1,(emit s b0 [] l).2)
    match jisActionTable s (jisCharType c) with
    | .copyA => say c.toNat .ascii
    | .empty => say 0 .ascii
    | .copyJ1 => emit (jisStateTable s (jisCharType c)) c (held ++ [c]) l
    | .copyJ2 =>
      match host.jisToUnicode (b0.toNat * 256 + c.toNat) with
      | none => ([],none)
      | some w => say w .jis
    | .error => ([],none)
    | _ => emit (jisStateTable s (jisCharType c)) b0 (held ++ [c]) l

inductive Step : JisState → UInt8 → UInt8 → Prop where
  | move {s s' : JisState} {b0 b' c : UInt8} : JisMove s b0 c s' b' → Step s b0 c
  | nul {b0 : UInt8} : Step .ascii b0 0
  | ascii {b0 c : UInt8} : c ≠ 0x1b → c ≠ 0 → Step .ascii b0 c
  | pair {b0 c : UInt8} : isJis c = true → Step .jis1 b0 c
  | escape {b0 c : UInt8} : c ≠ 0x24 → Step .aEsc b0 c
  | dollar {b0 c : UInt8} : c ≠ 0x40 → c ≠ 0x42 → Step .aEscDl b0 c
  | error {s : JisState} {b0 c : UInt8} : jisActionTable s (jisCharType c) = .error → Step s b0 c

theorem not_jis {c : UInt8} (he : c ≠ 0x1b) (h : isJis c = false) :
    jisCharType c = .nul ∨ jisCharType c = .other := by
  have hne : ∀ d : UInt8, isJis d = true → c ≠ d := by
    rintro d hd rfl
    exact absurd (h.symm.trans hd) Bool.false_ne_true
  unfold jisCharType
  rw [if_neg he,if_neg (hne 0x24 (by decide)),if_neg (hne 0x40 (by decide)),if_neg (hne 0x28 (by decide)),
    if_neg (hne 0x42 (by decide)),if_neg (hne 0x4a (by decide)),h]
  by_cases hz : c = 0
  · exact .inl (if_pos hz)
  · exact .inr (if_neg hz)

theorem not_bracket {c : UInt8} (h : c ≠ 0x28) : jisCharType c ≠ .bracket := by
  unfold jisCharType
  rw [if_neg h]
  split_ifs <;> simp

theorem not_dollar {c : UInt8} (h : c ≠ 0x24) : jisCharType c ≠ .dollar := by
  unfold jisCharType
  rw [if_neg h]
  split_ifs <;> simp

theorem not_target {c : UInt8} (hb : c ≠ 0x42) :
    (c ≠ 0x4a → jisCharType c ≠ .b ∧ jisCharType c ≠ .j) ∧ (c ≠ 0x40 → jisCharType c ≠ .at ∧ jisCharType c ≠ .b) := by
  unfold jisCharType
  constructor
  · intro hj
    rw [if_neg hb,if_neg hj]
    split_ifs <;> simp
  · intro ha
    rw [if_neg hb,if_neg ha]
    split_ifs <;> simp

theorem step_cases {s : JisState} (hs : s ≠ .inv) (b0 c : UInt8) : Step s b0 c := by
  cases s with
  | ascii =>
    by_cases he : c = 0x1b
    · exact he ▸ .move .escape
    · by_cases hz : c = 0
      · exact hz ▸ .nul
      · exact .ascii he hz
  | jis =>
    by_cases he : c = 0x1b
    · exact he ▸ .move .leave
    · cases hj : isJis c with
      | true => exact .move (.first hj)
      | false => exact .error (by rcases not_jis he hj with h | h <;> rw [h] <;> rfl)
  | aEsc =>
    by_cases hd : c = 0x24
    · exact hd ▸ .move .dollar
    · exact .escape hd
  | aEscDl =>
    by_cases ha : c = 0x40
    · exact .move (.toJis (.inl ha))
    · by_cases hb : c = 0x42
      · exact .move (.toJis (.inr hb))
      · exact .dollar ha hb
  | jis1 =>
    cases hj : isJis c with
    | true => exact .pair hj
    | false =>
      by_cases he : c = 0x1b
      · exact .error (by rw [he]; rfl)
      · exact .error (by rcases not_jis he hj with h | h <;> rw [h] <;> rfl)
  | jEsc =>
    by_cases hb : c = 0x28
    · exact hb ▸ .move .bracket
    · have h := not_bracket hb
      refine .error ?_
      cases ht : jisCharType c <;> simp_all [jisActionTable]
  | jEscBr =>
    by_cases hb : c = 0x42
    · exact .move (.toAscii (.inl hb))
    · by_cases hj : c = 0x4a
      · exact .move (.toAscii (.inr hj))
      · have h := (not_target hb).1 hj
        refine .error ?_
        cases ht : jisCharType c <;> simp_all [jisActionTable]
  | inv => exact absurd rfl hs

section

variable {host} {s s' : JisState} {b0 b' c : UInt8}

theorem emit_move (h : JisMove s b0 c s' b') (held l : List UInt8) :
    emit host s b0 held (c :: l) = emit host s' b' (held ++ [c]) l := by
  cases h with
  | escape => rfl
  | dollar => rfl
  | toJis hx => rcases hx with rfl | rfl <;> rfl
  | first hj => simp only [emit,jis_actions hj]
  | leave => rfl
  | bracket => rfl
  | toAscii hx => rcases hx with rfl | rfl <;> rfl

theorem clean_move (h : JisMove s b0 c s' b') (l : List UInt8) : clean host s b0 (c :: l) = clean host s' b' l := by
  cases h with
  | escape => rfl
  | dollar => rfl
  | toJis hx => rcases hx with rfl | rfl <;> rfl
  | first hj => simp only [clean,jis_actions hj]
  | leave => rfl
  | bracket => rfl
  | toAscii hx => rcases hx with rfl | rfl <;> rfl

theorem move_valid (h : JisMove s b0 c s' b') : s' ≠ .inv := by
  cases h <;> simp

theorem stray_action (h : s = .aEsc ∧ c ≠ 0x24 ∨ s = .aEscDl ∧ c ≠ 0x40 ∧ c ≠ 0x42) :
    jisActionTable s (jisCharType c) = .copyA := by
  rcases h with ⟨rfl,hd⟩ | ⟨rfl,ha,hb⟩
  · have h := not_dollar hd
    cases ht : jisCharType c <;> simp_all [jisActionTable]
  · have h := (not_target hb).2 ha
    cases ht : jisCharType c <;> simp_all [jisActionTable]

end

inductive Reaches : Bool → List UInt8 → Bool → Prop where
  | refl {m : Bool} : Reaches m [] m
  | toJis {m : Bool} {h : List UInt8} {x : UInt8} : x = 0x40 ∨ x = 0x42 → Reaches m h false →
      Reaches m (h ++ [0x1b,0x24,x]) true
  | toAscii {m : Bool} {h : List UInt8} {x : UInt8} : x = 0x42 ∨ x = 0x4a → Reaches m h true →
      Reaches m (h ++ [0x1b,0x28,x]) false

theorem reaches_spelled {m m₁ m' : Bool} {h l : List UInt8} {w : Nat} (hr : Reaches m h m₁) :
    Spelled host m (h ++ l) w m' ↔ Spelled host m₁ l w m' := by
  induction hr generalizing l with
  | refl => rfl
  | toJis hx hr ih =>
    rw [List.append_assoc,ih]
    constructor
    · intro hs
      cases hs with
      | toJis _ hs => exact hs
    · exact .toJis hx
  | toAscii hx hr ih =>
    rw [List.append_assoc,ih]
    constructor
    · intro hs
      cases hs with
      | toAscii _ hs => exact hs
    · exact .toAscii hx

theorem reaches_awaited {m m₁ : Bool} {h l : List UInt8} (hr : Reaches m h m₁) (hl : Awaited m₁ l) : Awaited m (h ++ l) := by
  induction hr generalizing l with
  | refl => exact hl
  | toJis hx hr ih =>
    rw [List.append_assoc]
    exact ih (.toJis hx hl)
  | toAscii hx hr ih =>
    rw [List.append_assoc]
    exact ih (.toAscii hx hl)

inductive Holding : Bool → List UInt8 → JisState → UInt8 → Prop where
  | ascii {m : Bool} {h : List UInt8} {b0 : UInt8} : Reaches m h false → Holding m h .ascii b0
  | jis {m : Bool} {h : List UInt8} {b0 : UInt8} : Reaches m h true → Holding m h .jis b0
  | aEsc {m : Bool} {h : List UInt8} {b0 : UInt8} : Reaches m h false → Holding m (h ++ [0x1b]) .aEsc b0
  | aEscDl {m : Bool} {h : List UInt8} {b0 : UInt8} : Reaches m h false → Holding m (h ++ [0x1b,0x24]) .aEscDl b0
  | jis1 {m : Bool} {h : List UInt8} {b0 : UInt8} : isJis b0 = true → Reaches m h true → Holding m (h ++ [b0]) .jis1 b0
  | jEsc {m : Bool} {h : List UInt8} {b0 : UInt8} : Reaches m h true → Holding m (h ++ [0x1b]) .jEsc b0
  | jEscBr {m : Bool} {h : List UInt8} {b0 : UInt8} : Reaches m h true → Holding m (h ++ [0x1b,0x28]) .jEscBr b0

theorem holding_move {m : Bool} {held : List UInt8} {s s' : JisState} {b0 b' c : UInt8} (h : JisMove s b0 c s' b')
    (hh : Holding m held s b0) : Holding m (held ++ [c]) s' b' := by
  cases h with
  | escape =>
    cases hh with
    | ascii hr => exact .aEsc hr
  | dollar =>
    cases hh with
    | aEsc hr =>
      rw [List.append_assoc]
      exact .aEscDl hr
  | toJis hx =>
    cases hh with
    | aEscDl hr =>
      rw [List.append_assoc]
      exact .jis (.toJis hx hr)
  | first hj =>
    cases hh with
    | jis hr => exact .jis1 hj hr
  | leave =>
    cases hh with
    | jis hr => exact .jEsc hr
  | bracket =>
    cases hh with
    | jEsc hr =>
      rw [List.append_assoc]
      exact .jEscBr hr
  | toAscii hx =>
    cases hh with
    | jEscBr hr =>
      rw [List.append_assoc]
      exact .ascii (.toAscii hx hr)

theorem holding_awaited {m : Bool} {held : List UInt8} {s : JisState} {b0 : UInt8} (h : Holding m held s b0) :
    Awaited m held := by
  cases h with
  | ascii hr => simpa using reaches_awaited hr .nil
  | jis hr => simpa using reaches_awaited hr .nil
  | aEsc hr => exact reaches_awaited hr .escape
  | aEscDl hr => exact reaches_awaited hr .dollar
  | jis1 hj hr => exact reaches_awaited hr (.lead hj)
  | jEsc hr => exact reaches_awaited hr .escape
  | jEscBr hr => exact reaches_awaited hr .bracket

theorem stray_unspelled {m m' : Bool} {held : List UInt8} {s : JisState} {b0 c : UInt8} {w : Nat}
    (h : s = .aEsc ∧ c ≠ 0x24 ∨ s = .aEscDl ∧ c ≠ 0x40 ∧ c ≠ 0x42) (hh : Holding m held s b0) :
    ¬Spelled host m (held ++ [c]) w m' := by
  intro hs
  rcases h with ⟨rfl,hd⟩ | ⟨rfl,ha,hb⟩
  · cases hh with
    | aEsc hr =>
      rw [List.append_assoc,reaches_spelled host hr] at hs
      cases hs
  · cases hh with
    | aEscDl hr =>
      rw [List.append_assoc,reaches_spelled host hr] at hs
      cases hs with
      | toJis hx _ => exact hx.elim ha hb

theorem spelled_ascii {m : Bool} {held : List UInt8} {b0 c : UInt8} (hh : Holding m held .ascii b0) :
    Spelled host m (held ++ [c]) c.toNat false := by
  cases hh with
  | ascii hr => exact (reaches_spelled host hr).mpr .ascii

theorem spelled_pair {m : Bool} {held : List UInt8} {b0 c : UInt8} {w : Nat} (hj : isJis c = true)
    (hw : host.jisToUnicode (b0.toNat * 256 + c.toNat) = some w) (hh : Holding m held .jis1 b0) :
    Spelled host m (held ++ [c]) w true := by
  cases hh with
  | jis1 hlead hr =>
    rw [List.append_assoc]
    exact (reaches_spelled host hr).mpr (.pair hlead hj hw)

inductive Outcome (st : Mbstate) (s : JisState) (b0 : UInt8) (cs : List UInt8) (i : Nat) : Conv → Prop where
  | silent {s' : JisState} {b' : UInt8} : s' ≠ .inv → clean host s b0 cs = true →
      (∀ held, emit host s b0 held cs = ([],some (s',b',held ++ cs))) →
      Outcome st s b0 cs i ⟨{ st with count := s'.code, b0 := b' },-2,none⟩
  | failed {st' : Mbstate} {wc : Option Nat} : clean host s b0 cs = true → (∀ held, emit host s b0 held cs = ([],none)) →
      Outcome st s b0 cs i ⟨st',-1,wc⟩
  | char {l r : List UInt8} {s' : JisState} {b' : UInt8} {w : Nat} {ret : Int} : s' = .ascii ∨ s' = .jis → cs = l ++ r →
      l ≠ [] → clean host s b0 cs = clean host s' b' r →
      (∀ held, emit host s b0 held cs = ((held ++ l,w) :: (emit host s' b' [] r).1,(emit host s' b' [] r).2)) →
      ret = i + l.length ∨ ret = 0 ∧ cs.idxOf 0 + 1 = l.length →
      (∀ m held, Holding m held s b0 → Spelled host m (held ++ l) w (s' = .jis)) →
      Outcome st s b0 cs i ⟨{ st with count := s'.code, b0 := b' },ret,some w⟩
  | stray {l r : List UInt8} {st' : Mbstate} {w : Nat} {ret : Int} : cs = l ++ r → l ≠ [] → clean host s b0 cs = false →
      (∀ m held, Holding m held s b0 → ∀ m', ¬Spelled host m (held ++ l) w m') → ret = i + l.length →
      Outcome st s b0 cs i ⟨st',ret,some w⟩

section

variable {host}

theorem move_nonzero {s s' : JisState} {b0 b' c : UInt8} (h : JisMove s b0 c s' b') : c ≠ 0 := by
  rintro rfl
  cases h with
  | toJis hx => exact absurd hx (by decide)
  | first hj => exact absurd hj (by decide)
  | toAscii hx => exact absurd hx (by decide)

theorem outcome_move {st : Mbstate} {s s' : JisState} {b0 b' c : UInt8} {cs : List UInt8} {i : Nat} {r : Conv}
    (h : JisMove s b0 c s' b') (ho : Outcome host st s' b' cs (i + 1) r) : Outcome host st s b0 (c :: cs) i r := by
  have hheld : ∀ held : List UInt8, held ++ c :: cs = held ++ [c] ++ cs := fun held => by simp
  cases ho with
  | silent hv hclean hemit =>
    exact .silent hv ((clean_move h cs).trans hclean) fun held => by rw [emit_move h,hemit,hheld]
  | failed hclean hemit => exact .failed ((clean_move h cs).trans hclean) fun held => by rw [emit_move h,hemit]
  | @char l r _ _ _ _ hs hsplit hne hclean hemit hret hspelled =>
    refine .char hs (l := c :: l) (r := r) (by rw [hsplit]; rfl) (List.cons_ne_nil c l) ((clean_move h cs).trans hclean)
      (fun held => ?_) ?_ fun m held hh => ?_
    · rw [emit_move h,hemit]
      simp
    · rw [List.idxOf_cons_ne cs (move_nonzero h),List.length_cons]
      omega
    · simpa using hspelled m (held ++ [c]) (holding_move h hh)
  | @stray l r _ _ _ hsplit hne hclean hunspelled hret =>
    refine .stray (l := c :: l) (r := r) (by rw [hsplit]; rfl) (List.cons_ne_nil c l) ((clean_move h cs).trans hclean)
      (fun m held hh m' hs => ?_) ?_
    · refine hunspelled m (held ++ [c]) (holding_move h hh) m' ?_
      simpa using hs
    · rw [hret,List.length_cons]
      push_cast
      ring

theorem jisLoop_outcome {s : JisState} (hs : s ≠ .inv) (b0 : UInt8) (t cs : List UInt8) (st : Mbstate) (i ptr : Nat)
    (ht : t.drop i = cs) (hp : s = .ascii → ptr = i) : Outcome host st s b0 cs i (jisLoop host t st cs i s b0 ptr) := by
  induction cs generalizing s b0 i ptr with
  | nil => exact .silent hs rfl fun held => by simp [emit]
  | cons c cs ih =>
    have hrest : t.drop (i + 1) = cs := by
      rw [← List.drop_drop,ht]
      rfl
    have hstray : ∀ {s}, s = .aEsc ∧ c ≠ 0x24 ∨ s = .aEscDl ∧ c ≠ 0x40 ∧ c ≠ 0x42 →
        Outcome host st s b0 (c :: cs) i (jisLoop host t st (c :: cs) i s b0 ptr) := by
      intro s h
      have hcopy := stray_action h
      have hloop : jisLoop host t st (c :: cs) i s b0 ptr =
          ⟨{ st with count := 0, b0 := b0 },i + 1,some (charAt t ptr).toNat⟩ := by
        simp only [jisLoop,hcopy]
      have hclean : clean host s b0 (c :: cs) = false := by
        have hne : s ≠ .ascii := by rcases h with ⟨rfl,-⟩ | ⟨rfl,-⟩ <;> simp
        simp only [clean,hcopy,hne,decide_false,Bool.false_and]
      rw [hloop]
      exact .stray (l := [c]) rfl (List.cons_ne_nil c []) hclean (fun m held hh m' => stray_unspelled host h hh) rfl
    cases step_cases hs b0 c with
    | move hm =>
      obtain ⟨ptr',hptr,hloop⟩ := jisLoop_move host hm t cs st i ptr
      rw [hloop]
      exact outcome_move hm (ih (move_valid hm) _ (i + 1) ptr' hrest hptr)
    | nul =>
      exact .char (l := [0]) (.inl rfl) rfl (List.cons_ne_nil 0 []) rfl (fun held => rfl) (.inr ⟨rfl,rfl⟩)
        fun m held hh => spelled_ascii host hh
    | ascii he hz =>
      obtain rfl := hp rfl
      have hc : charAt t ptr = c := by
        have h := congrArg (fun l => l.head?.getD 0) ht
        simpa [charAt,List.head?_drop] using h
      have hcopy := ascii_action he hz
      have hloop : jisLoop host t st (c :: cs) ptr .ascii b0 ptr =
          ⟨{ st with count := JisState.ascii.code, b0 := b0 },ptr + 1,some c.toNat⟩ := by
        simp only [jisLoop,hcopy,hc]
        rfl
      rw [hloop]
      refine .char (l := [c]) (.inl rfl) rfl (List.cons_ne_nil c []) ?_ (fun held => ?_) (.inl rfl)
        fun m held hh => spelled_ascii host hh
      · simp only [clean,hcopy,decide_true,Bool.true_and]
      · simp only [emit,hcopy]
    | pair hj =>
      have hcopy := (jis_actions hj).2.2
      cases hw : host.jisToUnicode (b0.toNat * 256 + c.toNat) with
      | none =>
        have hloop : jisLoop host t st (c :: cs) i .jis1 b0 ptr = ⟨{ st with count := 1, b0 := b0 },-1,none⟩ := by
          simp only [jisLoop,hcopy,hw,lookedUp]
        rw [hloop]
        refine .failed ?_ fun held => ?_
        · simp only [clean,hcopy,hw,Option.isNone_none,Bool.true_or]
        · simp only [emit,hcopy,hw]
      | some w =>
        have hloop : jisLoop host t st (c :: cs) i .jis1 b0 ptr =
            ⟨{ st with count := JisState.jis.code, b0 := b0 },i + 1,some w⟩ := by
          simp only [jisLoop,hcopy,hw,lookedUp]
          rfl
        rw [hloop]
        refine .char (l := [c]) (.inr rfl) rfl (List.cons_ne_nil c []) ?_ (fun held => ?_) (.inl rfl)
          fun m held hh => spelled_pair host hj hw hh
        · simp only [clean,hcopy,hw,Option.isNone_some,Bool.false_or]
        · simp only [emit,hcopy,hw]
    | escape hd => exact hstray (.inl ⟨rfl,hd⟩)
    | dollar ha hb => exact hstray (.inr ⟨rfl,ha,hb⟩)
    | error he =>
      have hloop : jisLoop host t st (c :: cs) i s b0 ptr = ⟨{ st with b0 := b0 },-1,none⟩ := by
        simp only [jisLoop,he]
      rw [hloop]
      refine .failed ?_ fun held => ?_
      · simp only [clean,he]
      · simp only [emit,he]

theorem mbrtowc_outcome {ps : Mbstate} {s : JisState} (hs : s ≠ .inv) (hps : ps.count = s.code) {l : List UInt8}
    (hl : l ≠ []) : Outcome host ps s ps.b0 l 0 (jisMbtowc host l l.length ps) := by
  have hloop := @jisLoop_outcome host s hs ps.b0 l l ps 0 0 rfl fun _ => rfl
  rwa [jisMbtowc,if_neg (by simpa using hl),List.take_length,hps,JisState.ofCode_code]

inductive Agrees : Option (Mbstate × List UInt8) → Option (JisState × UInt8 × List UInt8) → Prop where
  | stopped : Agrees none none
  | running {ps : Mbstate} {s : JisState} {h : List UInt8} : s ≠ .inv → ps.count = s.code →
      Agrees (some (ps,h)) (some (s,ps.b0,h))

theorem consumed_char {l seg : List UInt8} {r : Conv}
    (h : r.ret = ((0 : Nat) : Int) + seg.length ∨ r.ret = 0 ∧ l.idxOf 0 + 1 = seg.length) (hne : seg ≠ []) :
    consumed l r = seg.length := by
  have hpos := List.length_pos_iff.mpr hne
  unfold consumed
  rcases h with h | ⟨h,hidx⟩
  · rw [if_neg (by omega)]
    omega
  · rw [if_pos h,hidx]

theorem feed_char {n : Nat} {ps ps' : Mbstate} {held l seg r : List UInt8} {w : Nat} {ret : Int}
    (hcall : jisMbtowc host l l.length ps = ⟨ps',ret,some w⟩) (hsplit : l = seg ++ r) (hne : seg ≠ [])
    (hret : ret = ((0 : Nat) : Int) + seg.length ∨ ret = 0 ∧ l.idxOf 0 + 1 = seg.length) :
    feed host (n + 1) ps held l = ((held ++ seg,w) :: (feed host n ps' [] r).1,(feed host n ps' [] r).2) := by
  have hcount := @consumed_char l seg ⟨ps',ret,some w⟩ hret hne
  have hl : l ≠ [] := by
    rw [hsplit]
    exact List.append_ne_nil_of_left_ne_nil hne r
  have hfail : ret ≠ -1 ∧ ret ≠ -2 := by omega
  have hmb : mbrtowc host l ps = ⟨ps',ret,some w⟩ := by
    rw [mbrtowc,hcall]
    exact if_neg hfail.1
  rw [feed,if_neg hl]
  simp only [hmb,if_neg hfail.1,if_neg hfail.2,hcount]
  rw [hsplit,List.take_left,List.drop_left]
  rfl

theorem feed_clean {n : Nat} {l : List UInt8} (hn : l.length ≤ n) {ps : Mbstate} {s : JisState} (hs : s ≠ .inv)
    (hps : ps.count = s.code) (hclean : clean host s ps.b0 l = true) (held : List UInt8) :
    (feed host n ps held l).1 = (emit host s ps.b0 held l).1 ∧
      Agrees (feed host n ps held l).2 (emit host s ps.b0 held l).2 := by
  induction n generalizing l ps s held with
  | zero =>
    obtain rfl : l = [] := List.length_eq_zero_iff.mp (Nat.le_zero.mp hn)
    exact ⟨rfl,.running hs hps⟩
  | succ n ih =>
    by_cases hl : l = []
    · subst hl
      exact ⟨rfl,.running hs hps⟩
    · have hout := @mbrtowc_outcome host ps s hs hps l hl
      generalize hcall : jisMbtowc host l l.length ps = r at hout
      cases hout with
      | silent hv _ hemit =>
        rw [hemit,feed,if_neg hl]
        simp only [mbrtowc,hcall]
        exact ⟨rfl,.running hv rfl⟩
      | failed _ hemit =>
        rw [hemit,feed,if_neg hl]
        simp only [mbrtowc,hcall]
        exact ⟨rfl,.stopped⟩
      | @char seg r s' b' w ret hs' hsplit hne hsame hemit hret =>
        have hlen : r.length ≤ n := by
          have hpos := List.length_pos_iff.mpr hne
          rw [hsplit,List.length_append] at hn
          omega
        have hvalid : s' ≠ .inv := by rcases hs' with rfl | rfl <;> simp
        obtain ⟨hevents,hstate⟩ := @ih r hlen { ps with count := s'.code, b0 := b' } s' hvalid rfl (hsame ▸ hclean) []
        rw [feed_char hcall hsplit hne hret,hemit]
        exact ⟨congrArg _ hevents,hstate⟩
      | stray _ _ hdirty => exact absurd (hdirty.symm.trans hclean) Bool.false_ne_true

theorem emit_stopped {s : JisState} {b0 : UInt8} {held l : List UInt8} (h : (emit host s b0 held l).2 = none)
    (r : List UInt8) : emit host s b0 held (l ++ r) = emit host s b0 held l := by
  induction l generalizing s b0 held with
  | nil => simp [emit] at h
  | cons c l ih =>
    rw [List.cons_append]
    unfold emit at h ⊢
    cases hact : jisActionTable s (jisCharType c) with
    | copyJ2 =>
      cases hw : host.jisToUnicode (b0.toNat * 256 + c.toNat) with
      | none => simp only
      | some w =>
        simp only [hact,hw] at h ⊢
        rw [ih h]
    | error => simp only
    | _ =>
      simp only [hact] at h ⊢
      rw [ih h]

theorem emit_running {s s' : JisState} {b0 b' : UInt8} {held h' l : List UInt8}
    (h : (emit host s b0 held l).2 = some (s',b',h')) (r : List UInt8) :
    emit host s b0 held (l ++ r) = ((emit host s b0 held l).1 ++ (emit host s' b' h' r).1,(emit host s' b' h' r).2) := by
  induction l generalizing s b0 held with
  | nil =>
    obtain ⟨rfl,rfl,rfl⟩ : s = s' ∧ b0 = b' ∧ held = h' := by simpa [emit] using h
    rfl
  | cons c l ih =>
    rw [List.cons_append]
    rw [emit] at h
    rw [emit,emit]
    cases hact : jisActionTable s (jisCharType c) with
    | copyJ2 =>
      cases hw : host.jisToUnicode (b0.toNat * 256 + c.toNat) with
      | none => simp [hact,hw] at h
      | some w =>
        simp only [hact,hw] at h
        simp only [ih h,List.cons_append]
    | error => simp [hact] at h
    | _ =>
      simp only [hact] at h
      simp only [ih h,List.cons_append]

theorem clean_stopped {s : JisState} {b0 : UInt8} {l r : List UInt8} (hclean : clean host s b0 (l ++ r) = true) :
    clean host s b0 l = true := by
  induction l generalizing s b0 with
  | nil => rfl
  | cons c l ih =>
    rw [List.cons_append,clean] at hclean
    rw [clean]
    cases hact : jisActionTable s (jisCharType c) with
    | copyA =>
      simp only [hact,Bool.and_eq_true] at hclean ⊢
      exact ⟨hclean.1,ih hclean.2⟩
    | copyJ2 =>
      simp only [hact,Bool.or_eq_true] at hclean ⊢
      exact hclean.imp id ih
    | error => rfl
    | _ =>
      simp only [hact] at hclean ⊢
      exact ih hclean

theorem clean_running {s s' : JisState} {b0 b' : UInt8} {held h' l r : List UInt8}
    (h : (emit host s b0 held l).2 = some (s',b',h')) (hclean : clean host s b0 (l ++ r) = true) :
    clean host s' b' r = true := by
  induction l generalizing s b0 held with
  | nil =>
    obtain ⟨rfl,rfl,-⟩ : s = s' ∧ b0 = b' ∧ held = h' := by simpa [emit] using h
    exact hclean
  | cons c l ih =>
    rw [List.cons_append,clean] at hclean
    rw [emit] at h
    cases hact : jisActionTable s (jisCharType c) with
    | copyA =>
      simp only [hact,Bool.and_eq_true] at hclean h
      exact ih h hclean.2
    | copyJ2 =>
      cases hw : host.jisToUnicode (b0.toNat * 256 + c.toNat) with
      | none => simp [hact,hw] at h
      | some w =>
        simp only [hact,hw,Option.isNone_some,Bool.false_or] at hclean h
        exact ih h hclean
    | error => simp [hact] at h
    | _ =>
      simp only [hact] at hclean h
      exact ih h hclean

theorem decode_clean {chunks : List (List UInt8)} {ps : Mbstate} {s : JisState} (hs : s ≠ .inv) (hps : ps.count = s.code)
    (hclean : clean host s ps.b0 chunks.flatten = true) (held : List UInt8) :
    decode host ps held chunks =
      ((emit host s ps.b0 held chunks.flatten).1,(emit host s ps.b0 held chunks.flatten).2.map fun e => e.2.2) := by
  induction chunks generalizing ps s held with
  | nil => rfl
  | cons l chunks ih =>
    rw [List.flatten_cons] at hclean ⊢
    obtain ⟨hevents,hstate⟩ := feed_clean le_rfl hs hps (clean_stopped hclean) held
    rw [decode]
    generalize hemit : (emit host s ps.b0 held l).2 = e at hstate
    generalize hfeed : (feed host l.length ps held l).2 = q at hstate
    cases hstate with
    | stopped => simp only [emit_stopped hemit,hevents,hemit,Option.map_none]
    | running hv hcount =>
      simp only [emit_running hemit,hevents]
      rw [ih hv hcount (clean_running hemit hclean)]

theorem emit_accounted {m : Bool} {held : List UInt8} {s : JisState} {b0 : UInt8} {l : List UInt8} (hs : s ≠ .inv)
    (hh : Holding m held s b0) (hclean : clean host s b0 l = true) :
    Accounted host m (held ++ l) (emit host s b0 held l).1 ((emit host s b0 held l).2.map fun e => e.2.2) := by
  induction l generalizing m held s b0 with
  | nil =>
    rw [List.append_nil]
    exact .awaited (holding_awaited hh)
  | cons c l ih =>
    have hheld : held ++ c :: l = held ++ [c] ++ l := by simp
    cases step_cases hs b0 c with
    | move hm =>
      rw [emit_move hm,hheld]
      exact ih (move_valid hm) (holding_move hm hh) ((clean_move hm l).symm.trans hclean)
    | nul =>
      rw [hheld]
      exact .char (spelled_ascii host hh) (ih (by simp) (.ascii .refl) hclean)
    | ascii he hz =>
      have hcopy := ascii_action he hz
      rw [hheld,emit]
      rw [clean] at hclean
      simp only [hcopy,decide_true,Bool.true_and] at hclean ⊢
      exact .char (spelled_ascii host hh) (ih (by simp) (.ascii .refl) hclean)
    | pair hj =>
      have hcopy := (jis_actions hj).2.2
      rw [emit]
      rw [clean] at hclean
      cases hw : host.jisToUnicode (b0.toNat * 256 + c.toNat) with
      | none =>
        simp only [hcopy]
        exact .error
      | some w =>
        simp only [hcopy,hw,Option.isNone_some,Bool.false_or] at hclean ⊢
        rw [hheld]
        exact .char (spelled_pair host hj hw hh) (ih (by simp) (.jis .refl) hclean)
    | escape hd =>
      rw [clean] at hclean
      simp [stray_action (.inl ⟨rfl,hd⟩)] at hclean
    | dollar ha hb =>
      rw [clean] at hclean
      simp [stray_action (.inr ⟨rfl,ha,hb⟩)] at hclean
    | error he =>
      rw [emit]
      simp only [he]
      exact .error

theorem spelled_mode {m m₁ m₂ : Bool} {l : List UInt8} {w₁ w₂ : Nat} (h₁ : Spelled host m l w₁ m₁)
    (h₂ : Spelled host m l w₂ m₂) : m₁ = m₂ := by
  induction h₁ with
  | ascii =>
    cases h₂ with
    | ascii => rfl
  | pair hj =>
    cases h₂ with
    | pair => rfl
  | toJis _ _ ih =>
    cases h₂ with
    | toJis _ h => exact ih h
  | toAscii _ _ ih =>
    cases h₂ with
    | toAscii _ h => exact ih h

theorem feed_unclean {n : Nat} {l : List UInt8} (hn : l.length ≤ n) {ps : Mbstate} {s : JisState}
    (hs : s = .ascii ∨ s = .jis) (hps : ps.count = s.code) (hdirty : clean host s ps.b0 l = false)
    (bs : List UInt8) (evs : List (List UInt8 × Nat)) (ending : Option (List UInt8)) :
    ¬Accounted host (s = .jis) bs ((feed host n ps [] l).1 ++ evs) ending := by
  induction n generalizing l ps s bs with
  | zero =>
    obtain rfl : l = [] := List.length_eq_zero_iff.mp (Nat.le_zero.mp hn)
    exact absurd (hdirty.symm.trans rfl) Bool.false_ne_true
  | succ n ih =>
    have hl : l ≠ [] := by
      rintro rfl
      exact Bool.false_ne_true hdirty.symm
    have hvalid : s ≠ .inv := by rcases hs with rfl | rfl <;> simp
    have hholding : Holding (s = .jis) [] s ps.b0 := by
      rcases hs with rfl | rfl
      · exact .ascii .refl
      · exact .jis .refl
    have hout := @mbrtowc_outcome host ps s hvalid hps l hl
    generalize hcall : jisMbtowc host l l.length ps = r at hout
    intro ha
    cases hout with
    | silent _ hclean => exact absurd (hdirty.symm.trans hclean) Bool.false_ne_true
    | failed hclean => exact absurd (hdirty.symm.trans hclean) Bool.false_ne_true
    | @char seg r s' b' w ret hs' hsplit hne hsame hemit hret hspelled =>
      have hlen : r.length ≤ n := by
        have hpos := List.length_pos_iff.mpr hne
        rw [hsplit,List.length_append] at hn
        omega
      rw [feed_char hcall hsplit hne hret] at ha
      cases ha with
      | char hsp hrest =>
        obtain rfl := spelled_mode hsp (hspelled _ [] hholding)
        exact @ih r hlen { ps with count := s'.code, b0 := b' } s' hs' rfl (hsame.symm.trans hdirty) _ hrest
    | @stray seg r st' w ret hsplit hne _ hunspelled hret =>
      rw [feed_char hcall hsplit hne (.inl hret)] at ha
      cases ha with
      | char hsp hrest => exact hunspelled _ [] hholding _ hsp

theorem read_whole (host : Host) (bs : List UInt8) :
    (read host [bs]).1 = (feed host bs.length Mbstate.initial [] bs).1 ++ [] := by
  rw [read,decode]
  cases hq : (feed host bs.length Mbstate.initial [] bs).2 with
  | none => simp
  | some r => rfl

theorem read_clean {chunks : List (List UInt8)} (h : clean host .ascii 0 chunks.flatten = true) :
    read host chunks =
      ((emit host .ascii 0 [] chunks.flatten).1,(emit host .ascii 0 [] chunks.flatten).2.map fun e => e.2.2) :=
  @decode_clean host chunks Mbstate.initial .ascii (by simp) rfl h []

theorem faithful_iff (host : Host) (bs : List UInt8) : Faithful host bs ↔ clean host .ascii 0 bs = true := by
  constructor
  · intro h
    by_contra hdirty
    have haccounted := h.accounted [bs] (by simp)
    rw [read_whole] at haccounted
    exact feed_unclean le_rfl (.inl rfl) rfl (Bool.not_eq_true _ ▸ hdirty) bs [] _ haccounted
  · intro hclean
    have hread : ∀ chunks : List (List UInt8), chunks.flatten = bs → read host chunks =
        ((emit host .ascii 0 [] bs).1,(emit host .ascii 0 [] bs).2.map fun e => e.2.2) := by
      rintro chunks rfl
      exact read_clean hclean
    constructor
    · intro chunks hchunks
      rw [hread chunks hchunks,hread [bs] (by simp)]
      exact ⟨rfl,Iff.rfl⟩
    · intro chunks hchunks
      rw [hread chunks hchunks]
      exact emit_accounted (by simp) (.ascii .refl) hclean

end

structure Plain (w : Nat) : Prop where
  escape : w ≠ 0x1b
  yen : w ≠ 0xa5
  overline : w ≠ 0x203e
  katakana : ¬(0xff61 ≤ w ∧ w ≤ 0xff9f)
  bmp : w ≤ 0xffff

structure Pair (j : Nat) : Prop where
  bound : j < 0x10000
  high : isJis (UInt8.ofNat (j / 256)) = true
  low : isJis (UInt8.ofNat j) = true

structure Tables (host : Host) : Prop where
  ascii : ∀ w < 0xa0, w ≠ 0x8e → w ≠ 0x8f → host.unicodeToJis w = some w
  single : host.unicodeToJis 0x8e = none ∧ host.unicodeToJis 0x8f = none
  yen : host.unicodeToJis 0xa5 = some 0x5c
  overline : host.unicodeToJis 0x203e = some 0x7e
  katakana : ∀ w, 0xff61 ≤ w → w ≤ 0xff9f → host.unicodeToJis w = some (0x0e21 + (w - 0xff61))
  kanji : ∀ w j, 0xa0 ≤ w → Plain w → host.unicodeToJis w = some j → Pair j ∧ host.jisToUnicode j = some w
  decoded : ∀ a b w, isJis a = true → isJis b = true → host.jisToUnicode (a.toNat * 256 + b.toNat) = some w → Plain w

section

variable {host}

theorem isJis_bounds {c : UInt8} (h : isJis c = true) : 0x21 ≤ c.toNat ∧ c.toNat ≤ 0x7e := by
  simpa [isJis] using h

theorem code_cut (w : Nat) : host.unicodeToJis w = host.unicodeToJis (w % 0x10000) := by
  rw [Host.unicodeToJis,Host.unicodeToJis,Nat.mod_mod]

theorem code_bytes (ht : Tables host) {w j : Nat} (h : host.unicodeToJis w = some j) :
    (UInt8.ofNat (j / 256)).toNat < 0xa0 ∧ (UInt8.ofNat j).toNat < 0xa0 := by
  rw [code_cut] at h
  have hw : w % 0x10000 ≤ 0xffff := by omega
  generalize w % 0x10000 = w at h hw
  rw [UInt8.toNat_ofNat',UInt8.toNat_ofNat']
  by_cases hlow : w < 0xa0
  · by_cases hgap : w = 0x8e ∨ w = 0x8f
    · rcases hgap with rfl | rfl
      · exact absurd (h.symm.trans ht.single.1) (Option.some_ne_none j)
      · exact absurd (h.symm.trans ht.single.2) (Option.some_ne_none j)
    · push Not at hgap
      obtain rfl := Option.some.inj (h.symm.trans (ht.ascii w hlow hgap.1 hgap.2))
      omega
  · by_cases hyen : w = 0xa5
    · obtain rfl := Option.some.inj ((hyen ▸ h).symm.trans ht.yen)
      decide
    · by_cases hover : w = 0x203e
      · obtain rfl := Option.some.inj ((hover ▸ h).symm.trans ht.overline)
        decide
      · by_cases hkana : 0xff61 ≤ w ∧ w ≤ 0xff9f
        · have hcode := ht.katakana w hkana.1 hkana.2
          rw [h,Option.some.injEq] at hcode
          omega
        · obtain ⟨⟨-,hhigh,hlow⟩,-⟩ := ht.kanji w j (by omega) ⟨by omega,hyen,hover,hkana,hw⟩ h
          have h₁ := (isJis_bounds hhigh).2
          have h₂ := (isJis_bounds hlow).2
          rw [UInt8.toNat_ofNat'] at h₁ h₂
          omega

theorem wctomb_bytes (ht : Tables host) {w : Nat} {ps ps' : Mbstate} {l : List UInt8}
    (h : jisWctomb host w ps = (ps',some l)) : ∀ c ∈ l, c.toNat < 0xa0 := by
  unfold jisWctomb at h
  cases hj : host.unicodeToJis w with
  | none => simp [hj] at h
  | some j =>
    obtain ⟨hhigh,hlow⟩ := code_bytes ht hj
    simp only [hj] at h
    generalize UInt8.ofNat (j / 256) = char1 at h hhigh
    generalize UInt8.ofNat j = char2 at h hlow
    have hshift : ∀ l : List UInt8, l ⊆ [0x1b,0x24,0x28,0x42,char1,char2] → ∀ c ∈ l, c.toNat < 0xa0 := by
      intro l hl c hc
      have hmem := hl hc
      simp only [List.mem_cons,List.not_mem_nil,or_false] at hmem
      rcases hmem with rfl | rfl | rfl | rfl | rfl | rfl
      · decide
      · decide
      · decide
      · decide
      · exact hhigh
      · exact hlow
    split_ifs at h <;> obtain ⟨-,hl⟩ := Prod.mk.inj h <;> obtain rfl := Option.some.inj hl <;>
      exact hshift _ (by simp)

theorem encode_bytes (ht : Tables host) {ws : List Nat} {ps : Mbstate} {bs : List UInt8}
    (h : encode host ws ps = some bs) : ∀ c ∈ bs, c.toNat < 0xa0 := by
  induction ws generalizing ps bs with
  | nil =>
    obtain rfl := Option.some.inj h
    exact fun c hc => absurd hc List.not_mem_nil
  | cons w ws ih =>
    rw [encode] at h
    obtain ⟨l,hl,hrest⟩ := Option.bind_eq_some_iff.mp h
    obtain ⟨r,hr,rfl⟩ := Option.map_eq_some_iff.mp hrest
    intro c hc
    rcases List.mem_append.mp hc with hc | hc
    · exact wctomb_bytes ht (Prod.ext rfl hl) c hc
    · exact ih hr c hc

theorem plain_zero : Plain 0 := ⟨by decide,by decide,by decide,by decide,by decide⟩

theorem emit_plain (ht : Tables host) {s : JisState} (hs : s ≠ .inv) {b0 : UInt8} {held l : List UInt8}
    (hlead : s = .jis1 → isJis b0 = true) (hclean : clean host s b0 l = true) (hl : ∀ c ∈ l, c.toNat < 0xa0) :
    ∀ e ∈ (emit host s b0 held l).1, Plain e.2 := by
  induction l generalizing s b0 held with
  | nil => exact fun e he => absurd he List.not_mem_nil
  | cons c l ih =>
    have hrest : ∀ d ∈ l, d.toNat < 0xa0 := fun d hd => hl d (List.mem_cons_of_mem c hd)
    cases step_cases hs b0 c with
    | move hm =>
      rw [emit_move hm]
      refine ih (move_valid hm) (fun h => ?_) ((clean_move hm l).symm.trans hclean) hrest
      cases hm with
      | first hj => exact hj
      | _ => exact absurd h (by simp)
    | nul =>
      refine List.forall_mem_cons.mpr ⟨plain_zero,?_⟩
      exact ih (by simp) (by simp) hclean hrest
    | ascii he hz =>
      have hcopy := ascii_action he hz
      have hc := hl c List.mem_cons_self
      have hesc : c.toNat ≠ 0x1b := fun h => he (UInt8.toNat_inj.mp h)
      rw [emit]
      rw [clean] at hclean
      simp only [hcopy,decide_true,Bool.true_and] at hclean ⊢
      refine List.forall_mem_cons.mpr ⟨⟨hesc,by omega,by omega,by omega,by omega⟩,?_⟩
      exact ih (by simp) (by simp) hclean hrest
    | pair hj =>
      have hcopy := (jis_actions hj).2.2
      rw [emit]
      rw [clean] at hclean
      cases hw : host.jisToUnicode (b0.toNat * 256 + c.toNat) with
      | none =>
        simp only [hcopy]
        exact fun e he => absurd he List.not_mem_nil
      | some w =>
        simp only [hcopy,hw,Option.isNone_some,Bool.false_or] at hclean ⊢
        refine List.forall_mem_cons.mpr ⟨ht.decoded b0 c w (hlead rfl) hj hw,?_⟩
        exact ih (by simp) (by simp) hclean hrest
    | escape hd =>
      rw [clean] at hclean
      simp [stray_action (.inl ⟨rfl,hd⟩)] at hclean
    | dollar ha hb =>
      rw [clean] at hclean
      simp [stray_action (.inr ⟨rfl,ha,hb⟩)] at hclean
    | error he =>
      rw [emit]
      simp only [he]
      exact fun e he => absurd he List.not_mem_nil

inductive Sends (w : Nat) : JisState → List UInt8 → JisState → Prop where
  | ascii : w < 0xa0 → w ≠ 0x1b → Sends w .ascii [UInt8.ofNat w] .ascii
  | leave : w < 0xa0 → w ≠ 0x1b → Sends w .jis [0x1b,0x28,0x42,UInt8.ofNat w] .ascii
  | jis {a b : UInt8} : isJis a = true → isJis b = true → host.jisToUnicode (a.toNat * 256 + b.toNat) = some w →
      Sends w .jis [a,b] .jis
  | enter {a b : UInt8} : isJis a = true → isJis b = true → host.jisToUnicode (a.toNat * 256 + b.toNat) = some w →
      Sends w .ascii [0x1b,0x24,0x42,a,b] .jis

theorem plain_code (ht : Tables host) {w j : Nat} (hw : Plain w) (h : host.unicodeToJis w = some j) :
    w < 0xa0 ∧ j = w ∨ Pair j ∧ host.jisToUnicode j = some w := by
  by_cases hlow : w < 0xa0
  · by_cases hgap : w = 0x8e ∨ w = 0x8f
    · rcases hgap with rfl | rfl
      · exact absurd (h.symm.trans ht.single.1) (Option.some_ne_none j)
      · exact absurd (h.symm.trans ht.single.2) (Option.some_ne_none j)
    · push Not at hgap
      exact .inl ⟨hlow,Option.some.inj (h.symm.trans (ht.ascii w hlow hgap.1 hgap.2))⟩
  · exact .inr (ht.kanji w j (by omega) hw h)

theorem pair_split {j : Nat} (h : j < 0x10000) : (UInt8.ofNat (j / 256)).toNat * 256 + (UInt8.ofNat j).toNat = j := by
  rw [UInt8.toNat_ofNat',UInt8.toNat_ofNat']
  omega

theorem wctomb_sends (ht : Tables host) {w : Nat} (hw : Plain w) {ps ps' : Mbstate} {s : JisState}
    (hs : s = .ascii ∨ s = .jis) (hps : ps.count = s.code) {l : List UInt8} (h : jisWctomb host w ps = (ps',some l)) :
    ∃ s', (s' = .ascii ∨ s' = .jis) ∧ ps'.count = s'.code ∧ @Sends host w s l s' := by
  unfold jisWctomb at h
  cases hj : host.unicodeToJis w with
  | none => simp [hj] at h
  | some j =>
    simp only [hj] at h
    rcases plain_code ht hw hj with ⟨hlow,rfl⟩ | ⟨⟨hbound,hhigh,hlow⟩,hback⟩
    · have hzero : UInt8.ofNat (j / 256) = 0 := UInt8.toNat_inj.mp (by rw [UInt8.toNat_ofNat']; simp; omega)
      rw [if_neg (not_not.mpr hzero)] at h
      rcases hs with rfl | rfl
      · rw [if_neg (by rw [hps]; decide)] at h
        obtain ⟨rfl,hl⟩ := Prod.mk.inj h
        obtain rfl := Option.some.inj hl
        exact ⟨.ascii,.inl rfl,hps,.ascii hlow hw.escape⟩
      · rw [if_pos (by rw [hps]; decide)] at h
        obtain ⟨rfl,hl⟩ := Prod.mk.inj h
        obtain rfl := Option.some.inj hl
        exact ⟨.ascii,.inl rfl,rfl,.leave hlow hw.escape⟩
    · have hne : UInt8.ofNat (j / 256) ≠ 0 := fun hzero => by
        rw [hzero] at hhigh
        exact absurd hhigh (by decide)
      rw [← pair_split hbound] at hback
      rw [if_pos hne] at h
      rcases hs with rfl | rfl
      · rw [if_pos (show ps.count = 0 from hps)] at h
        obtain ⟨rfl,hl⟩ := Prod.mk.inj h
        obtain rfl := Option.some.inj hl
        exact ⟨.jis,.inr rfl,rfl,.enter hhigh hlow hback⟩
      · rw [if_neg (by rw [hps]; decide)] at h
        obtain ⟨rfl,hl⟩ := Prod.mk.inj h
        obtain rfl := Option.some.inj hl
        exact ⟨.jis,.inr rfl,hps,.jis hhigh hlow hback⟩

structure Decodes (w : Nat) (s : JisState) (b0 : UInt8) (held l : List UInt8) (s' : JisState) : Prop where
  emits : ∀ r, ∃ b' e, emit host s b0 held (l ++ r) = ((e,w) :: (emit host s' b' [] r).1,(emit host s' b' [] r).2) ∧
    clean host s b0 (l ++ r) = clean host s' b' r

theorem decodes_move {w : Nat} {s s₁ s' : JisState} {b0 b₁ c : UInt8} {held l : List UInt8} (hm : JisMove s b0 c s₁ b₁)
    (h : @Decodes host w s₁ b₁ (held ++ [c]) l s') : @Decodes host w s b0 held (c :: l) s' where
  emits r := by
    rw [List.cons_append,emit_move hm,clean_move hm]
    exact h.emits r

theorem decodes_ascii {w : Nat} (hlow : w < 0xa0) (hesc : w ≠ 0x1b) (b0 : UInt8) (held : List UInt8) :
    @Decodes host w .ascii b0 held [UInt8.ofNat w] .ascii where
  emits r := by
    have hval : (UInt8.ofNat w).toNat = w := by rw [UInt8.toNat_ofNat']; omega
    have he : UInt8.ofNat w ≠ 0x1b := fun h => hesc (hval.symm.trans (congrArg UInt8.toNat h))
    by_cases hz : w = 0
    · subst hz
      exact ⟨b0,held ++ [0],rfl,rfl⟩
    · have hcopy := ascii_action he fun h => hz (hval.symm.trans (congrArg UInt8.toNat h))
      refine ⟨b0,held ++ [UInt8.ofNat w],?_,?_⟩
      · rw [List.cons_append,List.nil_append,emit]
        simp only [hcopy,hval]
      · rw [List.cons_append,List.nil_append,clean]
        simp only [hcopy,decide_true,Bool.true_and]

theorem decodes_pair {w : Nat} {a b : UInt8} (ha : isJis a = true) (hb : isJis b = true)
    (hw : host.jisToUnicode (a.toNat * 256 + b.toNat) = some w) (b0 : UInt8) (held : List UInt8) :
    @Decodes host w .jis b0 held [a,b] .jis :=
  decodes_move (.first ha)
    { emits := fun r => by
        have hcopy := (jis_actions hb).2.2
        refine ⟨a,held ++ [a] ++ [b],?_,?_⟩
        · rw [List.cons_append,List.nil_append,emit]
          simp only [hcopy,hw]
        · rw [List.cons_append,List.nil_append,clean]
          simp only [hcopy,hw,Option.isNone_some,Bool.false_or] }

theorem sends_decodes {w : Nat} {s s' : JisState} {l : List UInt8} (h : @Sends host w s l s') (b0 : UInt8) :
    @Decodes host w s b0 [] l s' := by
  cases h with
  | ascii hlow hesc => exact decodes_ascii hlow hesc b0 []
  | leave hlow hesc =>
    exact decodes_move .leave (decodes_move .bracket (decodes_move (.toAscii (.inl rfl)) (decodes_ascii hlow hesc b0 _)))
  | jis ha hb hw => exact decodes_pair ha hb hw b0 []
  | enter ha hb hw =>
    exact decodes_move .escape (decodes_move .dollar (decodes_move (.toJis (.inr rfl)) (decodes_pair ha hb hw b0 _)))

theorem encode_decodes (ht : Tables host) {ws : List Nat} (hws : ∀ w ∈ ws, Plain w) {ps : Mbstate} {s : JisState}
    (hs : s = .ascii ∨ s = .jis) (hps : ps.count = s.code) {bs : List UInt8} (h : encode host ws ps = some bs) (b0 : UInt8) :
    clean host s b0 bs = true ∧ (emit host s b0 [] bs).1.map Prod.snd = ws ∧
      (emit host s b0 [] bs).2.map (fun e => e.2.2) = some [] := by
  induction ws generalizing ps s bs b0 with
  | nil =>
    obtain rfl := Option.some.inj h
    exact ⟨rfl,rfl,rfl⟩
  | cons w ws ih =>
    rw [encode] at h
    obtain ⟨l,hl,hrest⟩ := Option.bind_eq_some_iff.mp h
    obtain ⟨r,hr,rfl⟩ := Option.map_eq_some_iff.mp hrest
    obtain ⟨s',hs',hcount,hsends⟩ := wctomb_sends ht (hws w List.mem_cons_self) hs hps (Prod.ext rfl hl)
    obtain ⟨b',e,hemit,hclean⟩ := (sends_decodes hsends b0).emits r
    obtain ⟨hrun,hout,hend⟩ := ih (fun v hv => hws v (List.mem_cons_of_mem w hv)) hs' hcount hr b'
    rw [hemit,hclean]
    exact ⟨hrun,by rw [List.map_cons,hout],hend⟩

structure RoundTrips (ws : List Nat) (bs : List UInt8) : Prop where
  faithful : Faithful host bs
  chars : (read host [bs]).1.map Prod.snd = ws
  ended : (read host [bs]).2 = some []

theorem roundTrips_iff (ht : Tables host) {ws : List Nat} {bs : List UInt8}
    (h : encode host ws Mbstate.initial = some bs) : @RoundTrips host ws bs ↔ ∀ w ∈ ws, Plain w := by
  have hflat : [bs].flatten = bs := by simp
  constructor
  · intro hround w hw
    have hclean := (faithful_iff host bs).mp hround.faithful
    have hread := @read_clean host [bs] (hflat.symm ▸ hclean)
    have hchars := hround.chars
    rw [hread,hflat] at hchars
    rw [← hchars] at hw
    obtain ⟨e,he,rfl⟩ := List.mem_map.mp hw
    exact emit_plain ht (by simp) (by simp) hclean (encode_bytes ht h) e he
  · intro hws
    obtain ⟨hclean,hchars,hend⟩ := @encode_decodes host ht ws hws Mbstate.initial .ascii (.inl rfl) rfl bs h 0
    have hread := @read_clean host [bs] (hflat.symm ▸ hclean)
    rw [hflat] at hread
    exact ⟨(faithful_iff host bs).mpr hclean,by rw [hread]; exact hchars,by rw [hread]; exact hend⟩

end

theorem jis_decoder_iff {host : Host} (ht : Tables host) :
    (∀ bs, Faithful host bs ↔ clean host .ascii 0 bs = true) ∧
      ∀ ws bs, encode host ws Mbstate.initial = some bs → (@RoundTrips host ws bs ↔ ∀ w ∈ ws, Plain w) :=
  ⟨faithful_iff host,fun _ _ h => roundTrips_iff ht h⟩

def hiragana : Host where
  bigEndian := false
  hasUcs := true
  hasIso := true
  hasWindows := true
  hasJis := true
  isoConv := fun _ _ => 0
  isoMax := fun _ => 0
  cpConv := fun _ _ => 0
  cpMax := fun _ => 0
  shiftJisToUnicode := fun _ => none
  eucJpToUnicode := fun e => if e = 0xa4a2 then some 0x3042 else none
  unicodeToShiftJis := fun _ => none
  unicodeToEucJp := fun w =>
    if w < 0xa0 then if w = 0x8e ∨ w = 0x8f then none else some w
    else if w = 0xa5 then some 0x5c
    else if w = 0x203e then some 0x7e
    else if 0xff61 ≤ w ∧ w ≤ 0xff9f then some (0x8ea1 + (w - 0xff61))
    else if w = 0x3042 then some 0xa4a2
    else none

theorem kana_low : ∀ k < 63, (0x8ea1 + k) &&& 0x7f7f = 0x0e21 + k := by decide

theorem hiragana_tables : Tables hiragana where
  ascii w hw h₁ h₂ := by
    have hmod : w % 0x10000 = w := Nat.mod_eq_of_lt (by omega)
    have hbyte : ¬0xff < w := by omega
    have hword : ¬0xffff < w := by omega
    simp [Host.unicodeToJis,hiragana,hmod,hw,h₁,h₂,hbyte,hword]
  single := by decide
  yen := by decide
  overline := by decide
  katakana w h₁ h₂ := by
    have hmod : w % 0x10000 = w := Nat.mod_eq_of_lt (by omega)
    simp only [Host.unicodeToJis,hiragana,hmod]
    rw [if_neg (by omega),if_neg (by omega),if_neg (by omega),if_pos ⟨h₁,h₂⟩,Option.bind_eq_bind,Option.bind_some,
      if_neg (by omega),if_pos (by omega),kana_low _ (by omega)]
  kanji w j hlow hw h := by
    have hmod : w % 0x10000 = w := Nat.mod_eq_of_lt (Nat.lt_succ_of_le hw.bmp)
    simp only [Host.unicodeToJis,hiragana,hmod] at h
    rw [if_neg (by omega),if_neg hw.yen,if_neg hw.overline,if_neg hw.katakana] at h
    split_ifs at h with hkana
    · obtain rfl := Option.some.inj h
      subst hkana
      exact ⟨⟨by decide,by decide,by decide⟩,rfl⟩
    · exact absurd h (by simp)
  decoded a b w _ _ h := by
    simp only [Host.jisToUnicode,hiragana] at h
    split_ifs at h <;>
    · obtain rfl := Option.some.inj h
      exact ⟨by decide,by decide,by decide,by decide,by decide⟩

theorem hiragana_roundTrips :
    @RoundTrips hiragana [0x3042,0x41] [0x1b,0x24,0x42,0x24,0x22,0x1b,0x28,0x42,0x41] :=
  ((jis_decoder_iff hiragana_tables).2 [0x3042,0x41] [0x1b,0x24,0x42,0x24,0x22,0x1b,0x28,0x42,0x41] (by decide)).mpr
    (List.forall_mem_cons.mpr ⟨⟨by decide,by decide,by decide,by decide,by decide⟩,
      List.forall_mem_cons.mpr ⟨⟨by decide,by decide,by decide,by decide,by decide⟩,
        fun w hw => absurd hw List.not_mem_nil⟩⟩)

theorem escape_dropped : ¬Faithful hiragana [0x1b,0x78] :=
  fun h => absurd (h.uncut [[0x1b],[0x78]] rfl).1 (by decide)

end Jis

end Iconv
