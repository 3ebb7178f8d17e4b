import Mathlib
import Picolibc.Printf.IntText

namespace Printf

structure FileStr where
  mem : Nat → UInt8
  pos : Nat
  stop : Option Nat

def fileStrPut (f : FileStr) (c : UInt8) : FileStr × Bool :=
  if some f.pos ≠ f.stop then ({ f with mem := Function.update f.mem f.pos c, pos := f.pos + 1 },true) else (f,true)

def writeEnd (b : Build) (n : Nat) : Option Nat :=
  if wrapS b.intBits n < 0 then none else some (if n = 0 then 0 else n - 1)

def vsnprintf (b : Build) (ft : FloatText) (mem : Nat → UInt8) (n : Nat) (fmt : List Char) (args : List Arg) :
    Except Fault ((Nat → UInt8) × Int) :=
  match vfprintf fileStrPut b ft ⟨mem,0,writeEnd b n⟩ fmt args with
  | .error e => .error e
  | .ok (f,i) => .ok (if n = 0 then f.mem else Function.update f.mem f.pos 0,i)

abbrev Grab := Nat → Nat → Option (List UInt8)

structure AllocStr where
  own : List UInt8
  store : List UInt8
  pos : Nat
  size : Nat
  alloc : Bool
  calls : Nat
  bad : Bool
  deriving DecidableEq, Repr

def AllocStr.set (f : AllocStr) (c : UInt8) : AllocStr :=
  { f with store := f.store.set f.pos c, pos := f.pos + 1, bad := f.bad || decide (f.store.length ≤ f.pos) }

def moved (old : List UInt8) (n : Nat) (junk : List UInt8) : List UInt8 := old.take n ++ junk.drop old.length

def AllocStr.grow (f : AllocStr) (newSize : Nat) (junk : List UInt8) : AllocStr where
  own := if f.alloc then f.own else f.store
  store := moved f.store newSize junk
  pos := f.size
  size := newSize
  alloc := true
  calls := f.calls + 1
  bad := f.bad || (!f.alloc && decide (newSize < f.size))

def fileStrPutAlloc (w : Nat) (grab : Grab) (f : AllocStr) (c : UInt8) : AllocStr × Bool :=
  if f.pos = f.size then
    match grab f.calls ((f.size + 32) % 2 ^ w) with
    | none => ({ f with calls := f.calls + 1 },false)
    | some junk => ((f.grow ((f.size + 32) % 2 ^ w) junk).set c,true)
  else (f.set c,true)

structure Copied where
  ret : Int
  str : Option (List UInt8)
  inPlace : Bool
  bad : Bool
  deriving DecidableEq, Repr

def nextInt (b : Build) (i : Int) : Bool := decide (2 ^ (b.intBits - 1) ≤ i + 1)

def vasprintf (b : Build) (ft : FloatText) (grab : Grab) (fmt : List Char) (args : List Arg) : Except Fault Copied :=
  match vfprintf (fileStrPutAlloc b.sizeBits grab) b ft ⟨[],[],0,0,false,0,false⟩ fmt args with
  | .error e => .error e
  | .ok (f,i) =>
    if 0 ≤ i then
      match grab f.calls (i.toNat + 1) with
      | none => .ok ⟨-1,none,false,f.bad || nextInt b i⟩
      | some junk => .ok ⟨i,some ((moved f.store (i.toNat + 1) junk).set i.toNat 0),false,f.bad || nextInt b i⟩
    else .ok ⟨i,none,false,f.bad⟩

def vasnprintf (b : Build) (ft : FloatText) (grab : Grab) (own : List UInt8) (fmt : List Char) (args : List Arg) :
    Except Fault Copied :=
  match vfprintf (fileStrPutAlloc b.sizeBits grab) b ft ⟨own,own,0,own.length,false,0,false⟩ fmt args with
  | .error e => .error e
  | .ok (f,i) =>
    if 0 ≤ i then
      match fileStrPutAlloc b.sizeBits grab f 0 with
      | (f,false) => .ok ⟨-1,none,false,f.bad⟩
      | (f,true) =>
        if f.alloc then
          match grab f.calls (i.toNat + 1) with
          | none => .ok ⟨i,some f.store,false,f.bad || nextInt b i⟩
          | some junk => .ok ⟨i,some (moved f.store (i.toNat + 1) junk),false,f.bad || nextInt b i⟩
        else .ok ⟨i,some f.store,true,f.bad⟩
    else .ok ⟨i,none,false,f.bad⟩

section

variable {b : Build} {ft : FloatText}

theorem deliver_fileStr {e : Nat} (l : List UInt8) (f : FileStr) (hstop : f.stop = some e) (hpos : f.pos ≤ e) :
    ∃ f', deliver fileStrPut f l = (f',true) ∧ f'.pos = min (f.pos + l.length) e ∧
      ∀ i, f'.mem i = if f.pos ≤ i ∧ i < min (f.pos + l.length) e then l.getD (i - f.pos) 0 else f.mem i := by
  induction l generalizing f with
  | nil => exact ⟨f,rfl,by simp [hpos],fun i => by simp; omega⟩
  | cons c l ih =>
    by_cases hfull : f.pos = e
    · obtain ⟨f',hrun,hpos',hmem⟩ := ih f hstop hpos
      have hput : fileStrPut f c = (f,true) := if_neg (by simp [hstop,hfull])
      refine ⟨f',by rw [deliver,hput]; exact hrun,by rw [hpos',List.length_cons]; omega,fun i => ?_⟩
      rw [hmem,if_neg (by omega),if_neg (by omega)]
    · have hput : fileStrPut f c =
          ({ f with mem := Function.update f.mem f.pos c, pos := f.pos + 1 },true) := if_pos (by simp [hstop,hfull])
      obtain ⟨f',hrun,hpos',hmem⟩ :=
        ih { f with mem := Function.update f.mem f.pos c, pos := f.pos + 1 } hstop (by simp; omega)
      dsimp only at hpos' hmem
      refine ⟨f',by rw [deliver,hput]; exact hrun,by rw [hpos',List.length_cons]; omega,fun i => ?_⟩
      rw [hmem]
      simp only [List.length_cons]
      by_cases hi : i = f.pos
      · subst hi
        rw [if_neg (by omega),if_pos (by omega)]
        simp
      · by_cases hin : f.pos + 1 ≤ i ∧ i < min (f.pos + 1 + l.length) e
        · obtain ⟨k,rfl⟩ : ∃ k, i = f.pos + 1 + k := ⟨i - (f.pos + 1),by omega⟩
          have hk : f.pos + 1 + k - f.pos = k + 1 := by omega
          rw [if_pos hin,if_pos (by omega),hk,List.getD_cons_succ,Nat.add_sub_cancel_left]
        · rw [if_neg hin,if_neg (by omega),Function.update_of_ne hi]

def Truncated (text : List UInt8) (n : Nat) (mem mem' : Nat → UInt8) : Prop :=
  ∀ i, mem' i = if n = 0 then mem i else
    if i < min (n - 1) text.length then text.getD i 0 else if i = min (n - 1) text.length then 0 else mem i

theorem vsnprintf_truncates {fmt : List Char} {args : List Arg} {o : Output} (h : format b ft fmt args = .ok o)
    (ho : o.failed = false) (mem : Nat → UInt8) {n : Nat} (hn : n < 2 ^ (b.intBits - 1)) (hb : 0 < b.intBits) :
    ∃ mem', vsnprintf b ft mem n fmt args = .ok (mem',o.text.length) ∧ Truncated o.text n mem mem' := by
  have hend : writeEnd b n = some (n - 1) := by
    have hint : (n : Int) < 2 ^ (b.intBits - 1) := by exact_mod_cast hn
    rw [writeEnd,wrapS_self hb ⟨by omega,hint⟩,if_neg (by omega)]
    split_ifs with hz
    · rw [hz]
    · rfl
  obtain ⟨f,hrun,hpos,hmem⟩ := deliver_fileStr o.text ⟨mem,0,writeEnd b n⟩ hend (Nat.zero_le _)
  refine ⟨_,by simp only [vsnprintf,vfprintf,h,hrun,ho]; rfl,fun i => ?_⟩
  simp only [Nat.zero_add,Nat.zero_le,true_and,Nat.sub_zero] at hpos hmem
  by_cases hz : n = 0
  · rw [if_pos hz,if_pos hz,hmem,if_neg (by omega)]
  · rw [if_neg hz,if_neg hz,hpos,min_comm]
    by_cases hi : i = min (n - 1) o.text.length
    · rw [hi,Function.update_self,if_neg (by omega),if_pos rfl]
    · rw [Function.update_of_ne hi,hmem,min_comm]
      split_ifs <;> rfl

structure Grants (w : Nat) (grab : Grab) : Prop where
  size : ∀ {k n l}, grab k n = some l → l.length = n ∧ n < 2 ^ (w - 1)

structure Filled (own out : List UInt8) (f : AllocStr) : Prop where
  size : f.store.length = f.size
  pos : f.pos = out.length
  le : f.pos ≤ f.size
  held : f.store.take f.pos = out
  good : f.bad = false
  place : f.alloc = false → f.size = own.length ∧ f.store.drop f.pos = own.drop f.pos
  outgrown : f.alloc = true → own.length < out.length

theorem take_set {l : List UInt8} {p : Nat} (h : p < l.length) (c : UInt8) : (l.set p c).take (p + 1) = l.take p ++ [c] := by
  rw [List.take_add_one,List.take_set_of_le le_rfl,List.getElem?_set_self h]
  rfl

theorem set_filled {own out : List UInt8} {f : AllocStr} (hsize : f.store.length = f.size) (hpos : f.pos = out.length)
    (hlt : f.pos < f.size) (hout : f.store.take f.pos = out) (hgood : f.bad = false)
    (hplace : f.alloc = false → f.size = own.length ∧ f.store.drop f.pos = own.drop f.pos)
    (hgrown : f.alloc = true → own.length ≤ out.length) (c : UInt8) : Filled own (out ++ [c]) (f.set c) where
  size := by simpa [AllocStr.set] using hsize
  pos := by simp [AllocStr.set,hpos]
  le := hlt
  held := (take_set (hsize ▸ hlt) c).trans (by rw [hout])
  good := by simp [AllocStr.set,hgood,hsize,hlt]
  place := by
    intro ha
    obtain ⟨hlen,hdrop⟩ := hplace ha
    refine ⟨hlen,?_⟩
    have htail := congrArg (List.drop 1) hdrop
    rw [List.drop_drop,List.drop_drop] at htail
    simpa [AllocStr.set,List.drop_set_of_lt] using htail
  outgrown := by
    intro ha
    have hle := hgrown ha
    rw [List.length_append,List.length_singleton]
    omega

theorem put_filled {grab : Grab} (hg : Grants b.sizeBits grab) {own out : List UInt8} {f : AllocStr}
    (h : Filled own out f) (hgrant : ∀ k, (grab k (out.length + 32)).isSome) (c : UInt8) :
    ∃ f', fileStrPutAlloc b.sizeBits grab f c = (f',true) ∧ Filled own (out ++ [c]) f' := by
  unfold fileStrPutAlloc
  by_cases hfull : f.pos = f.size
  · have hlen : f.size = out.length := hfull.symm.trans h.pos
    obtain ⟨junk,hjunk⟩ := Option.isSome_iff_exists.mp (hgrant f.calls)
    obtain ⟨hsize,hmax⟩ := hg.size hjunk
    have hmod : (f.size + 32) % 2 ^ b.sizeBits = out.length + 32 := by
      have hle : 2 ^ (b.sizeBits - 1) ≤ 2 ^ b.sizeBits := Nat.pow_le_pow_right (by decide) (Nat.sub_le _ _)
      rw [hlen,Nat.mod_eq_of_lt (by omega)]
    have hstore : f.store = out := by
      have htake := h.held
      rwa [hfull,← h.size,List.take_length] at htake
    have hmoved : moved f.store (out.length + 32) junk = out ++ junk.drop out.length := by
      rw [moved,hstore,List.take_of_length_le (by omega)]
    rw [if_pos hfull,hmod,hjunk]
    refine ⟨_,rfl,set_filled ?_ hlen ?_ ?_ ?_ (fun ha => absurd ha (by simp [AllocStr.grow])) (fun _ => ?_) c⟩
    · simp [AllocStr.grow,hmoved,hsize]
    · simp [AllocStr.grow,hlen]
    · simp [AllocStr.grow,hmoved,hlen]
    · simp [AllocStr.grow,h.good,hlen]
    · cases ha : f.alloc with
      | false =>
        have hown := (h.place ha).1
        omega
      | true => exact (h.outgrown ha).le
  · rw [if_neg hfull]
    have hle := h.le
    exact ⟨_,rfl,set_filled h.size h.pos (by omega) h.held h.good h.place (fun ha => (h.outgrown ha).le) c⟩

theorem deliver_filled {grab : Grab} (hg : Grants b.sizeBits grab) {own out : List UInt8} {f : AllocStr}
    (h : Filled own out f) {text : List UInt8} {N : Nat} (hN : out.length + text.length ≤ N)
    (hgrant : ∀ k n, n < N + 32 → (grab k n).isSome) :
    ∃ f', deliver (fileStrPutAlloc b.sizeBits grab) f text = (f',true) ∧ Filled own (out ++ text) f' := by
  induction text generalizing out f with
  | nil => exact ⟨f,rfl,by simpa using h⟩
  | cons c text ih =>
    rw [List.length_cons] at hN
    obtain ⟨f₁,hput,h₁⟩ := put_filled hg h (fun k => hgrant k _ (by omega)) c
    obtain ⟨f₂,hrun,h₂⟩ := ih h₁ (by rw [List.length_append,List.length_singleton]; omega)
    refine ⟨f₂,?_,by simpa using h₂⟩
    rw [deliver,hput]
    exact hrun

theorem filled_start (own : List UInt8) : Filled own [] ⟨own,own,0,own.length,false,0,false⟩ :=
  ⟨rfl,rfl,Nat.zero_le _,rfl,rfl,fun _ => ⟨rfl,rfl⟩,by simp⟩

theorem moved_filled {grab : Grab} (hg : Grants b.sizeBits grab) {own out : List UInt8} {f : AllocStr}
    (h : Filled own out f) {n k : Nat} {junk : List UInt8} (hn : out.length ≤ n) (hj : grab k n = some junk) :
    (moved f.store n junk).length = n ∧ (moved f.store n junk).take out.length = out := by
  have hsize := (hg.size hj).1
  have hlen := h.size
  have hle := h.le
  have hpos := h.pos
  have htake := h.held
  constructor
  · rw [moved,List.length_append,List.length_take,List.length_drop,hsize]
    omega
  · rw [moved,List.take_append_of_le_length (by rw [List.length_take]; omega),List.take_take,min_eq_left hn,← hpos]
    exact htake

theorem vasprintf_copies {grab : Grab} (hg : Grants b.sizeBits grab) {fmt : List Char} {args : List Arg} {o : Output}
    (h : format b ft fmt args = .ok o) (ho : o.failed = false)
    (hgrant : ∀ k n, n < o.text.length + 33 → (grab k n).isSome) :
    vasprintf b ft grab fmt args =
      .ok ⟨o.text.length,some (o.text ++ [0]),false,nextInt b o.text.length⟩ := by
  have hlen : ([] : List UInt8).length + o.text.length ≤ o.text.length := by simp
  obtain ⟨f,hrun,hf⟩ := deliver_filled hg (filled_start []) hlen
    (fun k n hn => hgrant k n (by omega))
  rw [List.nil_append] at hf
  obtain ⟨junk,hjunk⟩ := Option.isSome_iff_exists.mp (hgrant f.calls (o.text.length + 1) (by omega))
  obtain ⟨hlen,htake⟩ := moved_filled hg hf (n := o.text.length + 1) (Nat.le_succ _) hjunk
  have hset : (moved f.store (o.text.length + 1) junk).set o.text.length 0 = o.text ++ [0] := by
    have hall := take_set (l := moved f.store (o.text.length + 1) junk) (p := o.text.length) (by omega) 0
    rwa [List.take_of_length_le (by rw [List.length_set]; omega),htake] at hall
  have hpos : (0 : Int) ≤ o.text.length := by omega
  rw [List.length_nil] at hrun
  simp only [vasprintf,vfprintf,h,hrun,ho,Bool.false_eq_true,if_false,if_pos hpos,Int.toNat_natCast,hjunk,hset,hf.good,
    Bool.false_or]

def placed (own text : List UInt8) (past : Bool) : Copied :=
  if text.length < own.length then ⟨text.length,some (text ++ 0 :: own.drop (text.length + 1)),true,false⟩ else
  ⟨text.length,some (text ++ [0]),false,past⟩

theorem vasnprintf_places {grab : Grab} (hg : Grants b.sizeBits grab) (own : List UInt8) {fmt : List Char}
    {args : List Arg} {o : Output} (h : format b ft fmt args = .ok o) (ho : o.failed = false)
    (hgrant : ∀ k n, n < o.text.length + 33 → (grab k n).isSome) :
    vasnprintf b ft grab own fmt args = .ok (placed own o.text (nextInt b o.text.length)) := by
  have hlen : ([] : List UInt8).length + o.text.length ≤ o.text.length := by simp
  obtain ⟨f,hrun,hf⟩ := deliver_filled hg (filled_start own) hlen
    (fun k n hn => hgrant k n (by omega))
  rw [List.nil_append] at hf
  obtain ⟨f',hput,hf'⟩ := put_filled hg hf (fun k => hgrant k _ (by omega)) 0
  have hpos : (0 : Int) ≤ o.text.length := by omega
  simp only [vasnprintf,vfprintf,h,hrun,ho,Bool.false_eq_true,if_false,if_pos hpos,hput]
  have hlen' : (o.text ++ [0]).length = o.text.length + 1 := by simp
  cases ha : f'.alloc with
  | false =>
    obtain ⟨hsize,hdrop⟩ := hf'.place ha
    have hle := hf'.le
    have hfpos := hf'.pos
    have hstore : f'.store = o.text ++ 0 :: own.drop (o.text.length + 1) := by
      rw [← List.take_append_drop f'.pos f'.store,hf'.held,hdrop,hfpos,hlen']
      simp
    have hlt : o.text.length < own.length := by omega
    rw [placed,if_pos hlt,if_neg (by simp),hstore,hf'.good]
  | true =>
    have hgrown := hf'.outgrown ha
    obtain ⟨junk,hjunk⟩ := Option.isSome_iff_exists.mp (hgrant f'.calls (o.text.length + 1) (by omega))
    obtain ⟨hlen,htake⟩ := moved_filled hg hf' (n := o.text.length + 1) hlen'.le hjunk
    have hall : moved f'.store (o.text.length + 1) junk = o.text ++ [0] := by
      rwa [List.take_of_length_le (by omega)] at htake
    have hge : ¬o.text.length < own.length := by omega
    rw [placed,if_neg hge]
    simp only [if_true,Int.toNat_natCast,hjunk,hall,hf'.good,Bool.false_or]

structure Bounded (b : Build) (ft : FloatText) (grab : Grab) (fmt : List Char) (args : List Arg) (text : List UInt8)
    (mem : Nat → UInt8) (n : Nat) (own : List UInt8) : Prop where
  truncated : ∃ mem', vsnprintf b ft mem n fmt args = .ok (mem',text.length) ∧ Truncated text n mem mem'
  copied : vasprintf b ft grab fmt args = .ok ⟨text.length,some (text ++ [0]),false,false⟩
  inPlace : vasnprintf b ft grab own fmt args = .ok (placed own text false)

theorem bounded_formatting_iff (hb : 0 < b.intBits) {grab : Grab} (hg : Grants b.sizeBits grab) {fmt : List Char}
    {args : List Arg} {o : Output} (h : format b ft fmt args = .ok o) (ho : o.failed = false)
    (hgrant : ∀ k n, n < o.text.length + 33 → (grab k n).isSome) (mem : Nat → UInt8) {n : Nat}
    (hn : n < 2 ^ (b.intBits - 1)) (own : List UInt8) :
    Bounded b ft grab fmt args o.text mem n own ↔ o.text.length + 1 < 2 ^ (b.intBits - 1) := by
  have hcopy := vasprintf_copies hg h ho hgrant
  have hplace := vasnprintf_places hg own h ho hgrant
  have hnext : nextInt b o.text.length = false ↔ o.text.length + 1 < 2 ^ (b.intBits - 1) := by
    rw [nextInt,decide_eq_false_iff_not,not_le]
    exact_mod_cast Iff.rfl
  rw [← hnext]
  constructor
  · rintro ⟨-,hc,-⟩
    rw [hcopy] at hc
    simpa using hc
  · intro hok
    rw [hok] at hcopy hplace
    exact ⟨vsnprintf_truncates h ho mem hn hb,hcopy,hplace⟩

end

def zeros : Grab := fun _ n => if n < 2 ^ 63 then some (List.replicate n 0) else none

theorem zeros_grants : Grants 64 zeros where
  size := by
    intro k n l h
    unfold zeros at h
    split_ifs at h with hn
    obtain rfl := Option.some.inj h
    exact ⟨List.length_replicate,hn⟩

theorem zeros_granted {n : Nat} (h : n < 2 ^ 63) (k : Nat) : (zeros k n).isSome := by
  rw [zeros,if_pos h]
  rfl

theorem bounded_formatting_percent :
    Bounded lp64 noFloats zeros ['o','k','%','%'] [] (['o','k','%'].map byte) (fun _ => 7) 3 [1,2,3,4,5] := by
  have hf : format lp64 noFloats ['o','k','%','%'] [] = .ok ⟨['o','k','%'].map byte,[],false⟩ := by rfl
  refine (bounded_formatting_iff (by decide) zeros_grants hf rfl ?_ _ (by decide) _).mpr (by decide)
  intro k n hn
  exact zeros_granted (lt_trans hn (by decide)) k

theorem widest_pos : 0 < 2147483647 := by decide

def widest : Conv Unit := ⟨(),[],.lit ⟨2147483647,widest_pos⟩,.none,.none,.d,bare_length .d⟩

theorem widest_text : ∃ o, format lp64 noFloats (render [.conv widest]) [.int 42] = .ok o ∧ o.failed = false ∧
    o.text.length = 2 ^ 31 - 1 := by
  have hfits : Fits lp64 [.conv widest] [.int 42] := by
    intro k e hk
    cases k with
    | zero =>
      obtain rfl := Option.some.inj hk
      exact ⟨.int 42,rfl,rfl⟩
    | succ k => cases hk
  obtain ⟨rs,hf⟩ := @format_int lp64 noFloats lp64_full widest (by decide) _ hfits
  obtain ⟨base,upper,n,hdec,hlead⟩ := decomposed lp64_full (v := widest) (by decide)
    (starWidth lp64 [.int 42]) (starPrec lp64 widest [.int 42]) (widest.value [.int 42])
  have htext := body_text lp64_full hdec.laid (mark_ne_nul (by decide : widest.letter ∈ _)) hdec.radix hdec.buf
  have hlen := (congrArg List.length htext).trans (text_length _ _ _)
  rw [hlead,← hdec.digits] at hlen
  have hwide : (widest.field (starWidth lp64 [.int 42]) (starPrec lp64 widest [.int 42])).columns = 2 ^ 31 - 1 := by
    decide
  have hsmall : (widest.leadText lp64 (widest.value [.int 42])).length +
      ((widest.field (starWidth lp64 [.int 42]) (starPrec lp64 widest [.int 42])).numeral
        (widest.digitsText lp64 (widest.value [.int 42]))).length = 2 := by
    have hval : wrapS 32 42 = 42 := by decide
    simp [widest,Conv.leadText,Conv.digitsText,Conv.value,Conv.starCount,Width.stars,Prec.stars,signText,Field.numeral,
      Conv.field,Prec.value,numeralText,Len.bits,lp64,Arg.bits,hval]
  rw [hwide,hsmall,max_eq_left (by decide)] at hlen
  exact ⟨_,hf,rfl,hlen⟩

theorem longest_text_overflows :
    ∃ o, format lp64 noFloats (render [.conv widest]) [.int 42] = .ok o ∧ o.failed = false ∧
      o.text.length = 2 ^ 31 - 1 ∧
        ¬Bounded lp64 noFloats zeros (render [.conv widest]) [.int 42] o.text (fun _ => 0) 10 [] := by
  obtain ⟨o,hf,hfail,hlen⟩ := widest_text
  have hgrant : ∀ k n, n < o.text.length + 33 → (zeros k n).isSome := by
    intro k n hn
    rw [hlen] at hn
    exact zeros_granted (lt_trans hn (by decide)) k
  refine ⟨o,hf,hfail,hlen,?_⟩
  rintro ⟨-,hcopy,-⟩
  rw [vasprintf_copies zeros_grants hf hfail hgrant,hlen] at hcopy
  simp only [Except.ok.injEq,Copied.mk.injEq] at hcopy
  exact absurd hcopy.2.2.2 (by decide)

end Printf
