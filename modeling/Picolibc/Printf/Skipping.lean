import Mathlib
import Picolibc.Printf.Reading

open Numerals

namespace Printf

def Flags.numbered : Flags := { Flags.zero with width := true }

def Conv.skipTy (b : Build) (v : Conv Number) : CTy := Printf.skipTy b (lenFlags b v.len .numbered) v.letter.char

def Conv.flagged (v : Conv Number) : Bool := v.flags.any (fun g => g ≠ .zero)

def Conv.seen (b : Build) (v : Conv Number) : List (Number × CTy) :=
  if v.flagged then [(v.num,.int)] else
  v.width.stars.map (fun n => (n,.int)) ++ (v.prec.stars.map (fun n => (n,.int)) ++ [(v.num,v.skipTy b)])

def Piece.seen (b : Build) : Piece Number → List (Number × CTy)
  | .conv v => v.seen b
  | _ => []

def firstSeen (ms : List (Number × CTy)) (k : Int) : Option CTy :=
  (ms.find? (fun m => ((m.1 : Nat) : Int) = k)).map Prod.snd

def Found.ofOption (r : Option CTy) (k : Found) : Found :=
  match r with
  | some t => .arg t
  | none => k

theorem firstSeen_append (xs ys : List (Number × CTy)) (k : Int) (r : Found) :
    Found.ofOption (firstSeen (xs ++ ys) k) r =
      Found.ofOption (firstSeen xs k) (Found.ofOption (firstSeen ys k) r) := by
  simp only [firstSeen,List.find?_append]
  cases List.find? (fun m => ((m.1 : Nat) : Int) = k) xs <;> rfl

theorem firstSeen_single (n : Number) (t : CTy) (k : Int) (r : Found) :
    Found.ofOption (firstSeen [(n,t)] k) r = if ((n : Nat) : Int) = k then .arg t else r := by
  by_cases h : ((n : Nat) : Int) = k <;> simp [firstSeen,h,Found.ofOption]

section

variable {b : Build} {cur : Int} {s : Scan} {c : Char} {rest : List Char}

theorem scanArg_next {s' : Scan} (h : scanStep b cur s c = .next s') :
    scanArg b cur (.conv s) (c :: rest) = scanArg b cur (.conv s') rest := by
  simp only [scanArg,h]

theorem scanArg_stop {n : Int} {d : Char} {f : Flags} (h : scanStep b cur s c = .stop n d f) (hn : n ≠ 0) :
    scanArg b cur (.conv s) (c :: rest) = if n = cur then .arg (skipTy b f d) else scanArg b cur .text rest := by
  simp only [scanArg,h,if_neg hn]

theorem scanArg_literal (cs : List Char) (h : ∀ c ∈ cs, c ≠ '%') :
    scanArg b cur .text (cs ++ rest) = scanArg b cur .text rest := by
  induction cs with
  | nil => rfl
  | cons c cs ih =>
    have hc : c ≠ '%' := h c List.mem_cons_self
    have hstep : scanArg b cur .text (c :: (cs ++ rest)) = scanArg b cur .text (cs ++ rest) := by
      rw [scanArg]
      · exact fun e _ => hc e
      · exact fun _ e _ => hc e
      · exact fun _ _ e _ => hc e
    rw [List.cons_append,hstep,ih (fun d hd => h d (List.mem_cons_of_mem c hd))]

theorem scanStep_plain (h : special c = false) : scanStep b cur s c = scanSizes b s c := by
  simp only [special,Bool.or_eq_false_iff,decide_eq_false_iff_not] at h
  obtain ⟨⟨⟨⟨hf,hd⟩,hs⟩,hp⟩,hn⟩ := h
  simp [scanStep,hf,hd,hs,hp,hn]

theorem scanArg_digits {f : Flags} (hlong : f.belowLong = true) (hw : f.width = true) {ds : List Nat}
    (hds : ∀ d ∈ ds, d < 10) (w : Nat) (n : Int) :
    scanArg b cur (.conv ⟨f,w,n⟩) (ds.map digitChar ++ rest) = scanArg b cur (.conv ⟨f,horner 10 w ds,n⟩) rest := by
  induction ds generalizing w with
  | nil => rfl
  | cons d ds ih =>
    have hd : d < 10 := hds d List.mem_cons_self
    have hlow : f.belowWidth = false := by simp [Flags.belowWidth,hw]
    have hflags : { f with width := true } = f := by rw [← hw]
    have hstep : scanStep b cur ⟨f,w,n⟩ (digitChar d) = .next ⟨f,(w * 10 + d : Nat),n⟩ := by
      rw [scanStep,if_neg (by simp [hlow]),if_pos hlong,if_pos (digitChar_isDigit hd),digitVal_digitChar hd]
      simp [hflags,Int.mul_comm]
    rw [List.map_cons,List.cons_append,scanArg_next hstep]
    exact ih (fun e he => hds e (List.mem_cons_of_mem d he)) (w * 10 + d)

theorem digits_lt (n : ℕ+) : ∀ d ∈ (Nat.digits 10 n).reverse, d < 10 := by
  obtain ⟨d,ds,hds,-,hd,hlt⟩ := numeral_head n
  rw [hds]
  exact List.forall_mem_cons.mpr ⟨hd,hlt⟩

theorem scanArg_numeral {f : Flags} (hlong : f.belowLong = true) (hw : f.width = true) (k : ℕ+) (n : Int) :
    scanArg b cur (.conv ⟨f,0,n⟩) (numeral k ++ rest) = scanArg b cur (.conv ⟨f,(k : Nat),n⟩) rest := by
  have h : scanArg b cur (.conv ⟨f,(0 : Nat),n⟩) (numeral k ++ rest) = _ :=
    scanArg_digits hlong hw (digits_lt k) 0 n
  rwa [horner_digits] at h

theorem scanArg_number (k : ℕ+) :
    scanArg b cur (.conv .init) (numeral k ++ '$' :: rest) = scanArg b cur (.conv ⟨.numbered,0,(k : Nat)⟩) rest := by
  obtain ⟨d,ds,hds,hd0,hd,hlt⟩ := numeral_head k
  have hval : horner 10 d ds = k := by
    have h := horner_digits 10 k
    rw [hds,horner_cons,Nat.zero_mul,Nat.zero_add] at h
    exact h
  have hfirst : scanStep b cur .init (digitChar d) = .next ⟨.numbered,(d : Nat),0⟩ := by
    rw [scanStep,if_neg (by simp [digitChar_flag hd,hd0]),if_pos (by rfl),if_pos (digitChar_isDigit hd),
      digitVal_digitChar hd]
    simp [Scan.init,Flags.numbered]
  have hlast : scanStep b cur ⟨.numbered,(k : Nat),0⟩ '$' = .next ⟨.numbered,0,(k : Nat)⟩ := by
    have hflag : isFlag '$' = false := by decide
    have hdig : isDigit '$' = false := by decide
    rw [scanStep,if_neg (by simp [hflag]),if_pos (by rfl),if_neg (by simp [hdig]),if_pos rfl,if_neg (by simp)]
  rw [numeral,hds,List.map_cons,List.cons_append,scanArg_next hfirst,scanArg_digits (by rfl) rfl hlt,hval,
    scanArg_next hlast]

theorem scanArg_star (k : ℕ+) (w : Int) {n : Int} (hn : n ≠ 0) :
    scanArg b cur (.conv ⟨.numbered,w,n⟩) ('*' :: (numeral k ++ '$' :: rest)) =
      if ((k : Nat) : Int) = cur then .arg .int else scanArg b cur (.conv ⟨.numbered,0,n⟩) rest := by
  have hstar : scanStep b cur ⟨.numbered,w,n⟩ '*' = .next ⟨.numbered,0,n⟩ := by
    have hflag : isFlag '*' = false := by decide
    have hdig : isDigit '*' = false := by decide
    rw [scanStep,if_neg (by simp [hflag]),if_pos (by rfl),if_neg (by simp [hdig]),if_neg (by decide),if_pos rfl]
  have hflag : isFlag '$' = false := by decide
  have hdig : isDigit '$' = false := by decide
  rw [scanArg_next hstar,scanArg_numeral (by rfl) rfl]
  by_cases hk : ((k : Nat) : Int) = cur
  · have hlast : scanStep b cur ⟨.numbered,(k : Nat),n⟩ '$' = .stop (k : Nat) 'c' .numbered := by
      rw [scanStep,if_neg (by simp [hflag]),if_pos (by rfl),if_neg (by simp [hdig]),if_pos rfl,if_pos hn,if_pos hk]
    have hty : skipTy b .numbered 'c' = .int := by simp [skipTy,isFloat,lower,Flags.numbered,Flags.zero]
    rw [scanArg_stop hlast (by simp),if_pos hk,if_pos hk,hty]
  · have hlast : scanStep b cur ⟨.numbered,(k : Nat),n⟩ '$' = .next ⟨.numbered,0,n⟩ := by
      rw [scanStep,if_neg (by simp [hflag]),if_pos (by rfl),if_neg (by simp [hdig]),if_pos rfl,if_pos hn,if_neg hk]
    rw [scanArg_next hlast,if_neg hk]

theorem scanArg_point (w n : Int) :
    scanArg b cur (.conv ⟨.numbered,w,n⟩) ('.' :: rest) = scanArg b cur (.conv ⟨.numbered,0,n⟩) rest := by
  have hflag : isFlag '.' = false := by decide
  have hdig : isDigit '.' = false := by decide
  refine scanArg_next ?_
  rw [scanStep,if_neg (by simp [hflag]),if_pos (by rfl),if_neg (by simp [hdig]),if_neg (by decide),
    if_neg (by decide),if_pos rfl]

theorem scanArg_width (b : Build) (cur : Int) (w : Width Number) {n : Int} (hn : n ≠ 0) : ∃ u : Int, ∀ rest,
    scanArg b cur (.conv ⟨.numbered,0,n⟩) (w.chars ++ rest) =
      Found.ofOption (firstSeen (w.stars.map (fun n => (n,.int))) cur) (scanArg b cur (.conv ⟨.numbered,u,n⟩) rest) := by
  cases w with
  | none => exact ⟨0,fun _ => rfl⟩
  | lit k => exact ⟨(k : Nat),fun _ => scanArg_numeral (by rfl) rfl k n⟩
  | star k =>
    refine ⟨0,fun rest => ?_⟩
    rw [Width.chars,Width.stars,List.map_cons,List.map_nil,firstSeen_single,Numbering.chars]
    simpa [instNumberingNumber] using scanArg_star k 0 hn

theorem scanArg_prec (b : Build) (cur : Int) (p : Prec Number) (w : Int) {n : Int} (hn : n ≠ 0) : ∃ u : Int, ∀ rest,
    scanArg b cur (.conv ⟨.numbered,w,n⟩) (p.chars ++ rest) =
      Found.ofOption (firstSeen (p.stars.map (fun n => (n,.int))) cur) (scanArg b cur (.conv ⟨.numbered,u,n⟩) rest) := by
  cases p with
  | none => exact ⟨w,fun _ => rfl⟩
  | lit ds =>
    have hlt : ∀ d ∈ ds.map Fin.val, d < 10 := by
      intro d hd
      obtain ⟨k,-,hk⟩ := List.mem_map.mp hd
      exact hk ▸ k.isLt
    refine ⟨(horner 10 0 (ds.map Fin.val) : Nat),fun rest => ?_⟩
    rw [Prec.chars,List.cons_append,scanArg_point]
    exact scanArg_digits (by rfl) rfl hlt 0 n
  | star k =>
    refine ⟨0,fun rest => ?_⟩
    rw [Prec.chars,Prec.stars,List.map_cons,List.map_nil,firstSeen_single,Numbering.chars,List.cons_append,
      scanArg_point]
    simpa [instNumberingNumber] using scanArg_star k 0 hn

theorem scanArg_sizes (cs : List Char) (h : ∀ c ∈ cs, special c = false ∧ ∀ f, ∃ f', checkIntSizes b f c = some f') :
    scanArg b cur (.conv s) (cs ++ rest) =
      scanArg b cur (.conv { s with flags := cs.foldl (fun f c => (checkIntSizes b f c).getD f) s.flags }) rest := by
  induction cs generalizing s with
  | nil => rfl
  | cons c cs ih =>
    obtain ⟨hc,hsize⟩ := h c List.mem_cons_self
    obtain ⟨f,hf⟩ := hsize s.flags
    have hstep : scanStep b cur s c = .next { s with flags := f } := by
      rw [scanStep_plain hc,scanSizes,hf]
    rw [List.cons_append,scanArg_next hstep,ih (fun d hd => h d (List.mem_cons_of_mem c hd))]
    simp only [List.foldl_cons,hf,Option.getD_some]

theorem scanArg_letter (m : Letter) (hn : s.argno ≠ 0) :
    scanArg b cur (.conv s) (m.char :: rest) =
      if s.argno = cur then .arg (skipTy b s.flags m.char) else scanArg b cur .text rest := by
  have hstep : scanStep b cur s m.char = .stop s.argno m.char s.flags := by
    rw [scanStep_plain (letter_special m),scanSizes,letter_size]
  exact scanArg_stop hstep hn

theorem scanArg_zeros (fs : List Flag) (h : ∀ g ∈ fs, g = .zero) (n : Int) :
    scanArg b cur (.conv ⟨.numbered,0,n⟩) (fs.map Flag.char ++ rest) = scanArg b cur (.conv ⟨.numbered,0,n⟩) rest := by
  induction fs with
  | nil => rfl
  | cons g fs ih =>
    have hg : g = .zero := h g List.mem_cons_self
    have hstep : scanStep b cur ⟨.numbered,0,n⟩ '0' = .next ⟨.numbered,0,n⟩ := by
      rw [scanStep,if_neg (by simp [Flags.belowWidth,Flags.numbered]),if_pos (by rfl),if_pos (by decide)]
      rfl
    rw [List.map_cons,List.cons_append,hg]
    exact (scanArg_next hstep).trans (ih (fun e he => h e (List.mem_cons_of_mem g he)))

theorem scanStep_flag {g : Flag} (hg : g ≠ .zero) (n : Int) :
    scanStep b cur ⟨.numbered,0,n⟩ g.char = .stop n g.char .numbered := by
  have hlow : Flags.numbered.belowWidth = false := rfl
  cases g <;> first | exact absurd rfl hg | simp [scanStep,hlow,Flag.char,isDigit,scanSizes,checkIntSizes]

theorem skipTy_flag (g : Flag) : skipTy b .numbered g.char = .int := by
  cases g <;> simp [skipTy,isFloat,lower,Flag.char,intTy,Flags.numbered,Flags.zero]

theorem scanArg_flagged {fs : List Flag} (h : ∃ g ∈ fs, g ≠ .zero) {n : Int} (hn : n ≠ 0) {cs : List Char}
    (hcs : ∀ c ∈ cs, c ≠ '%') :
    scanArg b cur (.conv ⟨.numbered,0,n⟩) (fs.map Flag.char ++ (cs ++ rest)) =
      if n = cur then .arg .int else scanArg b cur .text rest := by
  induction fs with
  | nil =>
    obtain ⟨g,hg,-⟩ := h
    cases hg
  | cons g fs ih =>
    by_cases hg : g = .zero
    · have hone : scanArg b cur (.conv ⟨.numbered,0,n⟩) ('0' :: (fs.map Flag.char ++ (cs ++ rest))) =
          scanArg b cur (.conv ⟨.numbered,0,n⟩) (fs.map Flag.char ++ (cs ++ rest)) :=
        scanArg_zeros [.zero] (by simp) n
      have htail : ∃ g ∈ fs, g ≠ .zero := by
        obtain ⟨e,he,hne⟩ := h
        rcases List.mem_cons.mp he with rfl | he
        · exact absurd hg hne
        · exact ⟨e,he,hne⟩
      rw [List.map_cons,List.cons_append,hg]
      exact hone.trans (ih htail)
    · have hplain : ∀ c ∈ fs.map Flag.char ++ cs, c ≠ '%' := by
        intro c hc
        rcases List.mem_append.mp hc with hc | hc
        · obtain ⟨e,-,rfl⟩ := List.mem_map.mp hc
          cases e <;> decide
        · exact hcs c hc
      rw [List.map_cons,List.cons_append,scanArg_stop (scanStep_flag hg n) hn,skipTy_flag,← List.append_assoc,
        scanArg_literal _ hplain]

theorem digits_plain {ds : List Nat} (h : ∀ d ∈ ds, d < 10) : ∀ c ∈ ds.map digitChar, c ≠ '%' := by
  intro c hc
  obtain ⟨d,hd,rfl⟩ := List.mem_map.mp hc
  have hlt := h d hd
  interval_cases d <;> decide

theorem number_plain (k : Number) : ∀ c ∈ Numbering.chars k, c ≠ '%' := by
  intro c hc
  rcases List.mem_append.mp hc with hc | hc
  · exact digits_plain (digits_lt k) c hc
  · rw [List.mem_singleton.mp hc]
    decide

section

variable {N : Type} [Numbering N] (h : ∀ n : N, ∀ c ∈ Numbering.chars n, c ≠ '%')

include h

theorem width_plain (w : Width N) : ∀ c ∈ w.chars, c ≠ '%' := by
  cases w with
  | none => simp [Width.chars]
  | lit k => exact digits_plain (digits_lt k)
  | star n => exact List.forall_mem_cons.mpr ⟨by decide,h n⟩

theorem prec_plain (p : Prec N) : ∀ c ∈ p.chars, c ≠ '%' := by
  cases p with
  | none => simp [Prec.chars]
  | lit ds =>
    refine List.forall_mem_cons.mpr ⟨by decide,digits_plain ?_⟩
    intro d hd
    obtain ⟨k,-,hk⟩ := List.mem_map.mp hd
    exact hk ▸ k.isLt
  | star n => exact List.forall_mem_cons.mpr ⟨by decide,List.forall_mem_cons.mpr ⟨by decide,h n⟩⟩

theorem tail_plain (v : Conv N) :
    ∀ c ∈ v.width.chars ++ (v.prec.chars ++ (v.len.chars ++ [v.letter.char])), c ≠ '%' := by
  simp only [List.forall_mem_append,List.forall_mem_singleton]
  refine ⟨width_plain h v.width,prec_plain h v.prec,?_,?_⟩
  · cases v.len <;> simp [Len.chars]
  · cases v.letter <;> decide

theorem conv_plain (v : Conv N) : ∀ c ∈ v.chars, c ≠ '%' := by
  rw [Conv.chars,List.forall_mem_append,List.forall_mem_append]
  refine ⟨h v.num,?_,tail_plain h v⟩
  intro c hc
  obtain ⟨g,-,rfl⟩ := List.mem_map.mp hc
  cases g <;> decide

theorem conv_head (v : Conv N) : ∃ c l, v.chars = c :: l ∧ c ≠ '%' := by
  cases hv : v.chars with
  | nil => simp [Conv.chars] at hv
  | cons c l => exact ⟨c,l,rfl,conv_plain h v c (by simp [hv])⟩

end

theorem scanArg_conv {v : Conv Number} (hm : v.len.known b = true) :
    scanArg b cur (.conv .init) (v.chars ++ rest) =
      Found.ofOption (firstSeen (v.seen b) cur) (scanArg b cur .text rest) := by
  have hn : ((v.num : Nat) : Int) ≠ 0 := by simp
  have hchars : v.chars ++ rest = numeral v.num ++ '$' :: (v.flags.map Flag.char ++
      ((v.width.chars ++ (v.prec.chars ++ (v.len.chars ++ [v.letter.char]))) ++ rest)) := by
    simp [Conv.chars,Numbering.chars]
  rw [hchars,scanArg_number]
  by_cases hflag : v.flagged = true
  · have hex : ∃ g ∈ v.flags, g ≠ .zero := by simpa [Conv.flagged] using hflag
    rw [scanArg_flagged hex hn (tail_plain number_plain v),Conv.seen,if_pos hflag,firstSeen_single]
  · have hall : ∀ g ∈ v.flags, g = .zero := by simpa [Conv.flagged] using hflag
    obtain ⟨u,hu⟩ := scanArg_width b cur v.width hn
    obtain ⟨t,ht⟩ := scanArg_prec b cur v.prec u hn
    rw [scanArg_zeros _ hall,List.append_assoc,hu,List.append_assoc,ht,List.append_assoc,
      scanArg_sizes v.len.chars (len_chars hm),List.singleton_append,scanArg_letter _ hn,Conv.seen,if_neg hflag,
      firstSeen_append,firstSeen_append,firstSeen_single]
    rfl

theorem scanArg_render {fmt : List (Piece Number)} (h : ∀ v, Piece.conv v ∈ fmt → v.len.known b = true) :
    scanArg b cur .text (render fmt) = Found.ofOption (firstSeen (fmt.flatMap (Piece.seen b)) cur) .absent := by
  induction fmt with
  | nil => rfl
  | cons p fmt ih =>
    have ih := ih (fun v hv => h v (List.mem_cons_of_mem p hv))
    rw [render,List.flatMap_cons,← render,List.flatMap_cons,firstSeen_append,← ih]
    cases p with
    | lit c => exact scanArg_literal [c.1] (by simpa using c.2)
    | percent => rfl
    | conv v =>
      obtain ⟨c,l,hl,hne⟩ := conv_head number_plain v
      have hstart : scanArg b cur .text ('%' :: (v.chars ++ render fmt)) =
          scanArg b cur (.conv .init) (v.chars ++ render fmt) := by
        rw [hl,List.cons_append,scanArg]
        exact hne
      exact hstart.trans (scanArg_conv (h v List.mem_cons_self))

end

section

variable {b : Build} {fmt : List (Piece Number)} {args : List Arg}

def Steps (b : Build) (ms : List (Number × CTy)) (args : List Arg) (k : Nat) : Prop :=
  ∃ t a, firstSeen ms k = some t ∧ args[k - 1]? = some a ∧ b.slot a.ty = b.slot t

theorem skipFrom_args {orig : List Char} {n : Nat} {k : Int} {ap ap' : VaList}
    (h : skipFrom b orig n k ap = .ok ap') : ap'.args = ap.args ∧ ap'.pos ≤ ap.pos + n := by
  induction n generalizing k ap with
  | zero =>
    rw [skipFrom,Except.ok.injEq] at h
    exact h ▸ ⟨rfl,le_rfl⟩
  | succ n ih =>
    rw [skipFrom] at h
    cases hs : scanArg b k .text orig with
    | pastEnd => rw [hs] at h; cases h
    | absent =>
      simp only [hs,Except.ok.injEq] at h
      exact h ▸ ⟨rfl,Nat.le_add_right _ _⟩
    | arg t =>
      simp only [hs] at h
      cases hv : ap.args[ap.pos]? with
      | none => simp [skipArg,hv] at h
      | some a =>
        by_cases hslot : b.slot a.ty = b.slot t
        · simp only [skipArg,hv,if_pos hslot] at h
          obtain ⟨hargs,hpos⟩ := ih h
          exact ⟨hargs,by dsimp only at hpos; omega⟩
        · simp [skipArg,hv,hslot] at h

theorem skipFrom_iff (h : ∀ v, Piece.conv v ∈ fmt → v.len.known b = true) (n k : Nat) :
    skipFrom b (render fmt) n (k + 1 : Nat) ⟨args,k⟩ = .ok ⟨args,k + n⟩ ↔
      ∀ i, k < i → i ≤ k + n → Steps b (fmt.flatMap (Piece.seen b)) args i := by
  induction n generalizing k with
  | zero => exact ⟨fun _ i hlt hle => absurd hle (by omega),fun _ => rfl⟩
  | succ n ih =>
    have hsplit : (∀ i, k < i → i ≤ k + (n + 1) → Steps b (fmt.flatMap (Piece.seen b)) args i) ↔
        Steps b (fmt.flatMap (Piece.seen b)) args (k + 1) ∧
          ∀ i, k + 1 < i → i ≤ k + 1 + n → Steps b (fmt.flatMap (Piece.seen b)) args i := by
      constructor
      · intro hall
        exact ⟨hall (k + 1) (by omega) (by omega),fun i hlt hle => hall i (by omega) (by omega)⟩
      · rintro ⟨hone,hall⟩ i hlt hle
        rcases Nat.eq_or_lt_of_le (Nat.succ_le_of_lt hlt) with rfl | hlt'
        · exact hone
        · exact hall i hlt' (by omega)
    rw [hsplit,skipFrom,scanArg_render h]
    cases hseen : firstSeen (fmt.flatMap (Piece.seen b)) (k + 1 : Nat) with
    | none =>
      simp only [Found.ofOption,Except.ok.injEq,VaList.mk.injEq]
      constructor
      · rintro ⟨-,hpos⟩
        omega
      · rintro ⟨⟨t,a,ht,-⟩,-⟩
        rw [hseen] at ht
        cases ht
    | some t =>
      simp only [Found.ofOption]
      cases hv : args[k]? with
      | none =>
        simp only [skipArg,hv,reduceCtorEq,false_iff]
        rintro ⟨⟨t',a,-,ha,-⟩,-⟩
        rw [Nat.add_sub_cancel,hv] at ha
        cases ha
      | some a =>
        by_cases hslot : b.slot a.ty = b.slot t
        · have hone : Steps b (fmt.flatMap (Piece.seen b)) args (k + 1) := ⟨t,a,hseen,by simpa using hv,hslot⟩
          have hadd : k + (n + 1) = k + 1 + n := by omega
          have hcast : ((k + 1 : Nat) : Int) + 1 = ((k + 1 + 1 : Nat) : Int) := by push_cast; rfl
          simp only [skipArg,hv,if_pos hslot,hadd,hcast,ih (k + 1),hone,true_and]
        · simp only [skipArg,hv,if_neg hslot,reduceCtorEq,false_iff]
          rintro ⟨⟨t',a',ht,ha,hs⟩,-⟩
          rw [Nat.add_sub_cancel,hv,Option.some.injEq] at ha
          rw [hseen,Option.some.injEq] at ht
          subst ha ht
          exact hslot hs

theorem skipToArg_iff (h : ∀ v, Piece.conv v ∈ fmt → v.len.known b = true) (n : ℕ+) :
    skipToArg b (render fmt) ⟨args,0⟩ (n : Nat) = .ok ⟨args,n - 1⟩ ↔
      ∀ i : Nat, 0 < i → i < n → Steps b (fmt.flatMap (Piece.seen b)) args i := by
  have hpos : 0 < (n : Nat) := n.pos
  have hcount : (((n : Nat) : Int) - 1).toNat = n - 1 := by omega
  have hiff : skipFrom b (render fmt) (n - 1) 1 ⟨args,0⟩ = .ok ⟨args,0 + (n - 1)⟩ ↔ _ := skipFrom_iff h (n - 1) 0
  rw [skipToArg,hcount,← Nat.zero_add ((n : Nat) - 1)]
  refine Iff.trans (by rwa [Nat.zero_add] at hiff ⊢) (forall_congr' fun i => forall_congr' fun _ => ?_)
  exact ⟨fun hs hlt => hs (by omega),fun hs hle => hs (by omega)⟩

end

end Printf
