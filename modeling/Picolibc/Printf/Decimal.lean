import Mathlib
import Picolibc.Printf.FloatLayout
import Picolibc.Printf.Ryu

open Numerals

namespace Printf

structure Numeral where
  whole : List Nat
  frac : List Nat
  exp : Option Int

def Numeral.value (n : Numeral) : ℚ := horner 10 0 (n.whole ++ n.frac) / 10 ^ n.frac.length * 10 ^ n.exp.getD 0

def Numeral.text (upper alt : Bool) (n : Numeral) : List UInt8 :=
  n.whole.map (digitText false) ++ (if n.frac ≠ [] ∨ alt = true then [byte '.'] else []) ++ n.frac.map (digitText false) ++
    n.exp.elim [] (exponentText (if upper then 'E' else 'e') 2)

structure Numeral.Formed (n : Numeral) : Prop where
  whole : n.whole ≠ []
  digit : ∀ d ∈ n.whole ++ n.frac, d < 10

def decimalValue (ds : List Nat) (exp : Int) : ℚ := horner 10 0 ds / 10 ^ (ds.length - 1) * 10 ^ exp

def cutAt (places : Nat) (x : ℚ) : ℚ := ⌊x * 10 ^ places⌋ / 10 ^ places

def digitAt (ds : List Nat) (exp n : Int) : Nat := if 0 ≤ exp - n ∧ exp - n < ds.length then ds.getD (exp - n).toNat 0 else 0

def fixedNumeral (ds : List Nat) (exp : Int) (places : Nat) : Numeral where
  whole := (List.range (exp.toNat + 1)).map (fun i : Nat => digitAt ds exp (exp.toNat - i))
  frac := (List.range places).map (fun i : Nat => digitAt ds exp (-1 - i))
  exp := none

def expNumeral (ds : List Nat) (exp : Int) (places : Nat) : Numeral :=
  ⟨(padded ds places).take 1,(padded ds places).drop 1,some exp⟩

section

variable {ds : List Nat} {exp : Int} {places : Nat}

theorem digitAt_lt (h : ∀ d ∈ ds, d < 10) (exp n : Int) : digitAt ds exp n < 10 := by
  unfold digitAt
  split_ifs with hin
  · rw [List.getD_eq_getElem _ _ (by omega)]
    exact h _ (List.getElem_mem _)
  · decide

theorem fixedNumeral_formed (h : ∀ d ∈ ds, d < 10) : (fixedNumeral ds exp places).Formed := by
  refine ⟨?_,fun d hd => ?_⟩
  · exact List.ne_nil_of_length_pos (by simp [fixedNumeral])
  · rcases List.mem_append.mp hd with hd | hd <;>
    · obtain ⟨i,-,rfl⟩ := List.mem_map.mp hd
      exact digitAt_lt h _ _

theorem fixedNumeral_digits (ds : List Nat) (exp : Int) (places : Nat) :
    (fixedNumeral ds exp places).whole ++ (fixedNumeral ds exp places).frac =
      (List.range (exp.toNat + 1 + places)).map (fun i : Nat => digitAt ds exp (exp.toNat - i)) := by
  rw [List.range_add,List.map_append,fixedNumeral,List.map_map]
  congr 1
  refine List.map_congr_left (fun i _ => ?_)
  simp only [Function.comp_apply]
  congr 1
  push_cast
  ring

theorem places_eq (ds : List Nat) (exp : Int) (n : Nat) :
    (List.range n).map (fun i : Nat => digitAt ds exp (exp.toNat - i)) =
      (List.replicate (-exp).toNat 0 ++ ds ++ List.replicate n 0).take n := by
  refine List.ext_getElem (by simp; omega) (fun i hi hj => ?_)
  have hn : i < n := by simpa using hi
  have hshift : exp - (exp.toNat - i) = (i : Int) - (-exp).toNat := by omega
  simp only [List.getElem_map,List.getElem_range,List.getElem_take,List.getElem_append,List.getElem_replicate,digitAt,hshift,
    List.length_append,List.length_replicate]
  by_cases hlow : i < (-exp).toNat
  · rw [if_neg (by omega),dif_pos (by omega),dif_pos hlow]
  · by_cases hin : i < (-exp).toNat + ds.length
    · rw [if_pos (by omega),dif_pos hin,dif_neg hlow,List.getD_eq_getElem _ _ (by omega)]
      congr 1
      omega
    · rw [if_neg (by omega),dif_neg hin]

theorem horner_places (h : ∀ d ∈ ds, d < 10) (exp : Int) (n : Nat) :
    horner 10 0 ((List.replicate (-exp).toNat 0 ++ ds ++ List.replicate n 0).take n) =
      horner 10 0 ds * 10 ^ n / 10 ^ ((-exp).toNat + ds.length) := by
  have hall : ∀ d ∈ List.replicate (-exp).toNat 0 ++ ds ++ List.replicate n 0, d < 10 := by
    intro d hd
    simp only [List.mem_append,List.mem_replicate] at hd
    rcases hd with (⟨-,rfl⟩ | hd) | ⟨-,rfl⟩
    · decide
    · exact h d hd
    · decide
  have hsplit := List.take_append_drop n (List.replicate (-exp).toNat 0 ++ ds ++ List.replicate n 0)
  have hrest := @horner_split 10 ((List.replicate (-exp).toNat 0 ++ ds ++ List.replicate n 0).take n)
    ((List.replicate (-exp).toNat 0 ++ ds ++ List.replicate n 0).drop n) (fun d hd => hall d (List.mem_of_mem_drop hd))
  rw [hsplit,horner_append,horner_zeros,horner_replicate] at hrest
  rw [← hrest]
  congr 2
  simp
  omega

theorem cutAt_div (m : Nat) (places k : Nat) : cutAt places ((m : ℚ) / 10 ^ k) = (m * 10 ^ places / 10 ^ k : ℕ) / 10 ^ places := by
  rw [cutAt,div_mul_eq_mul_div]
  congr 1
  have hcast : (m : ℚ) * 10 ^ places / 10 ^ k = ((m * 10 ^ places : ℕ) : ℚ) / ((10 ^ k : ℕ) : ℚ) := by push_cast; rfl
  rw [hcast,Rat.floor_natCast_div_natCast]
  push_cast
  rfl

theorem decimalValue_eq (hs : 0 < ds.length) (exp : Int) :
    decimalValue ds exp = (horner 10 0 ds * 10 ^ (exp.toNat + 1) : ℕ) / 10 ^ ((-exp).toNat + ds.length) := by
  obtain ⟨k,hk⟩ := Nat.exists_eq_add_of_le' hs
  have hexp : (10 : ℚ) ^ exp = 10 ^ exp.toNat / 10 ^ (-exp).toNat := by
    rw [← zpow_natCast,← zpow_natCast,← zpow_sub₀ (by norm_num)]
    congr 1
    omega
  rw [decimalValue,hexp,hk,Nat.add_sub_cancel,← Nat.add_assoc,pow_succ,pow_succ,pow_add]
  push_cast
  field_simp

theorem fixedNumeral_value (h : ∀ d ∈ ds, d < 10) (hs : 0 < ds.length) (exp : Int) (places : Nat) :
    (fixedNumeral ds exp places).value = cutAt places (decimalValue ds exp) := by
  rw [Numeral.value,fixedNumeral_digits,places_eq,horner_places h,decimalValue_eq hs,cutAt_div,pow_add]
  simp [fixedNumeral,mul_assoc]

theorem cutAt_int {x : ℚ} {places : Nat} {n : ℤ} (h : x * 10 ^ places = n) : cutAt places x = x := by
  rw [cutAt,h,Int.floor_intCast,← h,mul_div_cancel_right₀ _ (by positivity)]

theorem digitAt_zeros (ds : List Nat) (z : Nat) (exp n : Int) : digitAt (ds ++ List.replicate z 0) exp n = digitAt ds exp n := by
  unfold digitAt
  simp only [List.length_append,List.length_replicate,List.getD_eq_getElem?_getD,List.getElem?_append,
    List.getElem?_replicate]
  split_ifs <;> first | rfl | omega

theorem fixedNumeral_zeros (ds : List Nat) (z : Nat) (exp : Int) (places : Nat) :
    fixedNumeral (ds ++ List.replicate z 0) exp places = fixedNumeral ds exp places := by
  simp only [fixedNumeral,digitAt_zeros]

theorem expNumeral_value (hs : 0 < ds.length) (hp : ds.length ≤ places + 1) (exp : Int) :
    (expNumeral ds exp places).value = decimalValue ds exp := by
  have hlen := padded_length hp
  obtain ⟨k,hk⟩ := Nat.exists_eq_add_of_le' hs
  obtain ⟨j,hj⟩ := Nat.exists_eq_add_of_le (show k ≤ places by omega)
  rw [Numeral.value,expNumeral]
  dsimp only
  rw [List.take_append_drop,List.length_drop,hlen,padded,horner_append,horner_replicate,decimalValue,hk,
    show places + 1 - (k + 1) = j by omega,Nat.add_sub_cancel,Nat.add_sub_cancel,hj,pow_add]
  push_cast
  simp only [Option.getD_some]
  field_simp

theorem expNumeral_formed (h : ∀ d ∈ ds, d < 10) (exp : Int) (places : Nat) (hp : ds.length ≤ places + 1) :
    (expNumeral ds exp places).Formed := by
  refine ⟨List.ne_nil_of_length_pos ?_,fun d hd => ?_⟩
  · rw [expNumeral,List.length_take,padded_length hp]
    omega
  · rw [expNumeral] at hd
    dsimp only at hd
    rw [List.take_append_drop,padded] at hd
    rcases List.mem_append.mp hd with hd | hd
    · exact h d hd
    · rw [(List.mem_replicate.mp hd).2]
      decide

theorem fixDigits_below (out : Int → UInt8) (k : Nat) {n : Int} (h : n < -1) :
    fixDigits out k n = (List.range (k + 1)).map (fun i : Nat => out (n - i)) := by
  induction k generalizing n with
  | zero => simp [fixDigits,h.ne]
  | succ k ih =>
    rw [fixDigits,if_neg h.ne,ih (by omega),List.range_succ_eq_map (n := k + 1),List.map_cons,List.map_map,List.singleton_append,
      Nat.cast_zero,sub_zero]
    congr 2
    funext i
    simp only [Function.comp_apply]
    congr 1
    push_cast
    ring

theorem fixDigits_point (out : Int → UInt8) (k : Nat) :
    fixDigits out k (-1) = byte '.' :: (List.range (k + 1)).map (fun i : Nat => out (-1 - i)) := by
  cases k with
  | zero => simp [fixDigits]
  | succ k =>
    rw [fixDigits,if_pos rfl,fixDigits_below out k (by omega),List.range_succ_eq_map (n := k + 1),List.map_cons,List.map_map,
      List.cons_append,List.singleton_append,Nat.cast_zero,sub_zero]
    congr 3
    funext i
    simp only [Function.comp_apply]
    congr 1
    push_cast
    ring

theorem fixDigits_whole (out : Int → UInt8) (places top : Nat) :
    fixDigits out (top + places) top = (List.range (top + 1)).map (fun i : Nat => out (top - i)) ++
      if 0 < places then byte '.' :: (List.range places).map (fun i : Nat => out (-1 - i)) else [] := by
  induction top with
  | zero =>
    cases places with
    | zero => simp [fixDigits]
    | succ k =>
      rw [Nat.zero_add,fixDigits,if_neg (by decide),if_pos k.succ_pos]
      have hpoint := fixDigits_point out k
      simpa using hpoint
  | succ top ih =>
    rw [Nat.add_right_comm,fixDigits,if_neg (by omega),show ((top + 1 : ℕ) : Int) - 1 = top by omega,ih,
      List.range_succ_eq_map (n := top + 1),List.map_cons,List.map_map,Nat.cast_zero,sub_zero]
    simp only [List.cons_append,List.nil_append]
    congr 3
    funext i
    simp only [Function.comp_apply]
    congr 1
    push_cast
    ring

structure Digits (ds : List Nat) (digit : Nat → UInt8) (st : Style) (places : Nat) : Prop where
  glyphs : ∀ i (hi : i < ds.length), digit i = digitText false ds[i]
  ndigs : st.ndigs = ds.length
  prec : st.prec = places

variable {digit : Nat → UInt8} {st : Style}

theorem Digits.out (h : Digits ds digit st places) (exp n : Int) :
    (if 0 ≤ exp - n ∧ exp - n < st.ndigs then digit (exp - n).toNat else byte '0') = digitText false (digitAt ds exp n) := by
  unfold digitAt
  rw [h.ndigs]
  split_ifs with hin
  · rw [h.glyphs _ (by omega),List.getD_eq_getElem _ _ (by omega)]
  · rfl

theorem fixBody_text (h : Digits ds digit st places) (alt : Bool) (exp : Int) (upper : Bool) :
    fixBody alt exp digit st = (fixedNumeral ds exp places).text upper alt := by
  have htop : (if 0 < exp then exp else 0) = (exp.toNat : Int) := by
    split_ifs <;> omega
  unfold fixBody
  simp only [h.out,h.prec,htop]
  rw [show ((exp.toNat : Int) + places).toNat = exp.toNat + places by omega,
    fixDigits_whole (fun n => digitText false (digitAt ds exp n)),Numeral.text,fixedNumeral]
  simp only [List.map_map,Function.comp_def,Option.elim_none,List.append_nil]
  cases places with
  | zero => cases alt <;> simp
  | succ k =>
    simp only [Nat.succ_pos,if_true]
    rw [if_neg (fun hz : alt = true ∧ ((k + 1 : ℕ) : Int) = 0 => by omega)]
    simp

theorem numeral_length (upper alt : Bool) (n : Numeral) : (n.text upper alt).length = n.whole.length +
    (if n.frac ≠ [] ∨ alt = true then 1 else 0) + n.frac.length +
      n.exp.elim 0 (fun e => 2 + max 2 (Nat.digits 10 e.natAbs).length) := by
  unfold Numeral.text
  cases hexp : n.exp with
  | none =>
    split_ifs <;> simp <;> omega
  | some e =>
    simp only [Option.elim_some,List.length_append,List.length_map,exponentText_length]
    split_ifs <;> simp

theorem fixed_length_eq (h : Digits ds digit st places) (hfix : st.fix = true) (alt : Bool) (exp : Int) (sign : List UInt8)
    (upper : Bool) : layoutLength alt exp sign st = (sign ++ (fixedNumeral ds exp places).text upper alt).length := by
  have hfrac : (fixedNumeral ds exp places).frac ≠ [] ↔ places ≠ 0 := by simp [fixedNumeral]
  rw [List.length_append,numeral_length]
  simp only [layoutLength,layoutLengths,hfix,if_true,h.prec,hfrac]
  simp only [fixedNumeral,List.length_map,List.length_range,Option.elim_none]
  cases places with
  | zero => cases alt <;> simp <;> split_ifs <;> omega
  | succ k => split_ifs <;> simp_all <;> omega

theorem fixed_laid (h : Digits ds digit st places) (hfix : st.fix = true) (hhex : st.hex = false) {b : Build}
    (hb : b.shrink = false) (F : Field) {f : Flags} (hleft : f.lpad = F.left) (hzero : f.zfill = F.zero) (conv : Nat)
    (minus : Bool) (exp : Int) (upper : Bool) :
    (layoutFinite f F.columns conv minus exp digit st).1 ++ tail b (layoutFinite f F.columns conv minus exp digit st).2 =
      { F with digits := none }.text (signChar f minus) ((fixedNumeral ds exp places).text upper f.alt) := by
  have hlen := fixed_length_eq h hfix f.alt exp (signChar f minus) upper
  rw [← pad_text b hb { F with digits := none } rfl _ _ hlen]
  unfold layoutFinite
  simp only [hfix,hhex,Bool.or_true,if_true,Bool.false_eq_true,if_false,fixBody_text h f.alt exp upper,hleft,hzero,
    List.append_assoc,List.nil_append]

theorem expNumeral_text (upper alt : Bool) (exp : Int) (hp : ds.length ≤ places + 1) :
    mantissaText (digitText false) alt (padded ds places) ++ exponentText (if upper then 'E' else 'e') 2 exp =
      (expNumeral ds exp places).text upper alt := by
  have hlen := padded_length hp
  have hfrac : (padded ds places).drop 1 ≠ [] ↔ 1 < (padded ds places).length := by
    rw [Ne,List.drop_eq_nil_iff,not_le]
  rw [mantissaText,Numeral.text,expNumeral]
  simp only [hfrac,Option.elim_some]

def trimmed (ds : List Nat) : List Nat := ds.rdropWhile (fun d => d == 0)

theorem trimmed_zeros (ds : List Nat) : ∃ z, ds = trimmed ds ++ List.replicate z 0 := by
  induction ds using List.reverseRecOn with
  | nil => exact ⟨0,rfl⟩
  | append_singleton ds d ih =>
    rw [trimmed,List.rdropWhile_concat]
    by_cases hd : d = 0
    · obtain ⟨z,hz⟩ := ih
      refine ⟨z + 1,?_⟩
      rw [if_pos (by simpa using hd),List.replicate_succ',← List.append_assoc]
      exact congrArg₂ (fun l x => l ++ [x]) hz hd
    · exact ⟨0,by rw [if_neg (by simpa using hd),List.replicate_zero,List.append_nil]⟩

theorem trimmed_last (ds : List Nat) : (trimmed ds).getLast? ≠ some 0 := by
  intro hlast
  obtain ⟨l,hl⟩ := List.getLast?_eq_some_iff.mp hlast
  have hne : trimmed ds ≠ [] := by simp [hl]
  have hnot := List.rdropWhile_last_not (fun d => d == 0) ds hne
  have hzero : (trimmed ds).getLast hne = 0 := Option.some.inj ((List.getLast?_eq_some_getLast hne).symm.trans hlast)
  exact hnot (by simpa [trimmed] using hzero)

theorem digitText_zero {d : Nat} (h : d < 10) : digitText false d = byte '0' ↔ d = 0 := by
  interval_cases d <;> decide

theorem trimZeros_eq (h : ∀ d ∈ ds, d < 10) (hg : ∀ i (hi : i < ds.length), digit i = digitText false ds[i]) :
    trimZeros digit ds.length = (trimmed ds).length := by
  induction ds using List.reverseRecOn with
  | nil => rfl
  | append_singleton ds d ih =>
    have hlast : digit ds.length = digitText false d := by
      rw [hg ds.length (by simp)]
      simp
    have hd : d < 10 := h d (by simp)
    rw [List.length_append,List.length_singleton,trimZeros,hlast,trimmed,List.rdropWhile_concat]
    by_cases hzero : d = 0
    · rw [if_pos ((digitText_zero hd).mpr hzero),if_pos (by simpa using hzero)]
      refine ih (fun e he => h e (List.mem_append_left _ he)) (fun i hi => ?_)
      rw [hg i (by simp; omega),List.getElem_append_left hi]
    · rw [if_neg fun heq => hzero ((digitText_zero hd).mp heq),if_neg (by simpa using hzero),List.length_append,
        List.length_singleton]

def Style.settled (f : Flags) (exp : Int) (digit : Nat → UInt8) (st : Style) : Style :=
  if st.exp || st.fix then st else general f exp digit st

structure Lays (b : Build) (F : Field) (f : Flags) (conv : Nat) (minus : Bool) (exp : Int) (digit : Nat → UInt8) (st : Style)
    (upper : Bool) (n : Numeral) : Prop where
  text : (layoutFinite f F.columns conv minus exp digit st).1 ++ tail b (layoutFinite f F.columns conv minus exp digit st).2 =
    { F with digits := none }.text (signChar f minus) (n.text upper f.alt)
  length : layoutLength f.alt exp (signChar f minus) (st.settled f exp digit) = (signChar f minus ++ n.text upper f.alt).length
  prec : 0 ≤ (st.settled f exp digit).prec

section

variable {b : Build} {F : Field} {f : Flags} {conv : Nat} {minus upper : Bool}

theorem fixed_lays (hb : b.shrink = false) (hleft : f.lpad = F.left) (hzero : f.zfill = F.zero) (h : Digits ds digit st places)
    (hfix : st.fix = true) (hhex : st.hex = false) :
    Lays b F f conv minus exp digit st upper (fixedNumeral ds exp places) := by
  have hsettled : st.settled f exp digit = st := if_pos (by rw [hfix,Bool.or_true])
  refine ⟨fixed_laid h hfix hhex hb F hleft hzero conv minus exp upper,?_,?_⟩
  · rw [hsettled]
    exact fixed_length_eq h hfix f.alt exp _ upper
  · rw [hsettled,h.prec]
    exact Int.natCast_nonneg places

theorem scientific_lays (hb : b.shrink = false) (hleft : f.lpad = F.left) (hzero : f.zfill = F.zero) (hhex : st.hex = false)
    (h : Scientific ds (digitText false) digit conv exp st places 2 (if upper then 'E' else 'e')) :
    Lays b F f conv minus exp digit st upper (expNumeral ds exp places) := by
  have htext := h.text hb F hleft hzero minus
  have hlength := h.length_eq f.alt (signChar f minus)
  rw [hhex,hexMark,if_neg Bool.false_ne_true,List.append_nil,expNumeral_text upper f.alt exp h.room] at htext hlength
  have hsettled : st.settled f exp digit = st := if_pos (by rw [h.style.1,Bool.true_or])
  refine ⟨htext,?_,?_⟩
  · rw [hsettled]
    exact hlength
  · rw [hsettled,h.prec]
    exact Int.natCast_nonneg places

def generalMany (places : Nat) : Nat := if places = 0 then 1 else places

def generalShown (alt : Bool) (places : Nat) (ds : List Nat) : Nat := if alt then generalMany places else (trimmed ds).length

def generalNumeral (alt : Bool) (places : Nat) (ds : List Nat) (exp : Int) : Numeral :=
  if -4 ≤ exp ∧ exp < generalMany places then
    fixedNumeral (trimmed ds) exp ((generalShown alt places ds : Int) - (exp + 1)).toNat
  else expNumeral (trimmed ds) exp (generalShown alt places ds - 1)

theorem general_eq (hds : ∀ d ∈ ds, d < 10) (h : Digits ds digit st places) (f : Flags) (exp : Int) :
    general f exp digit st = if -4 ≤ exp ∧ exp < generalMany places then
      { st with fix := true, ndigs := (trimmed ds).length,
                prec := (((generalShown f.alt places ds : Int) - (exp + 1)).toNat : ℕ) }
    else { st with ndigs := (trimmed ds).length, prec := (generalShown f.alt places ds : Int) - 1 } := by
  have hmany : (if st.prec = 0 then 1 else st.prec) = (generalMany places : Int) := by
    rw [h.prec,generalMany]
    split_ifs <;> simp_all
  have hshown : (if f.alt = true then (generalMany places : Int) else ((trimmed ds).length : Int)) =
      generalShown f.alt places ds := by
    rw [generalShown]
    split_ifs <;> rfl
  have htrim := trimZeros_eq hds h.glyphs
  unfold general
  simp only [hmany,h.ndigs,htrim,hshown]
  split_ifs with hfix hlow
  · rw [Int.toNat_of_nonneg (by omega)]
  · rw [Int.toNat_of_nonpos (by omega)]
    rfl
  · rfl

theorem trimmed_digits (h : Digits ds digit st places) {s : Style} {m : Nat} (hn : s.ndigs = (trimmed ds).length)
    (hp : s.prec = m) : Digits (trimmed ds) digit s m := by
  refine ⟨fun i hi => ?_,hn,hp⟩
  obtain ⟨z,hz⟩ := trimmed_zeros ds
  have hlen : i < ds.length := by
    rw [hz,List.length_append]
    omega
  rw [h.glyphs i hlen]
  congr 1
  simp only [List.getElem_of_eq hz]
  exact List.getElem_append_left hi

theorem general_lays (hb : b.shrink = false) (hleft : f.lpad = F.left) (hzero : f.zfill = F.zero) (hhex : st.hex = false)
    (hds : ∀ d ∈ ds, d < 10) (h : Digits ds digit st places) (hstyle : st.exp = false ∧ st.fix = false)
    (hmark : toCase conv st.letter = byte (if upper then 'E' else 'e'))
    (hexp : st.ndigsExp = max 2 (Nat.digits 10 exp.natAbs).length) (hfew : ds.length ≤ generalMany places)
    (hsome : 0 < (trimmed ds).length ∨ (-4 ≤ exp ∧ exp < generalMany places)) :
    Lays b F f conv minus exp digit st upper (generalNumeral f.alt places ds exp) := by
  have hgeneral := general_eq hds h f exp
  have hopen : ¬(st.exp || st.fix) = true := by simp [hstyle]
  have htrim : (trimmed ds).length ≤ ds.length := by
    obtain ⟨z,hz⟩ := trimmed_zeros ds
    have hlen := congrArg List.length hz
    rw [List.length_append] at hlen
    omega
  by_cases hfix : -4 ≤ exp ∧ exp < generalMany places
  · rw [if_pos hfix] at hgeneral
    have hlays := @fixed_lays (trimmed ds) exp _ digit _ b F f conv minus upper hb hleft hzero
      (trimmed_digits h (s := general f exp digit st) (by rw [hgeneral]) (by rw [hgeneral])) (by rw [hgeneral])
      (by rw [hgeneral]; exact hhex)
    have hfixed : (general f exp digit st).exp || (general f exp digit st).fix := by rw [hgeneral]; simp
    have hsettled : st.settled f exp digit = (general f exp digit st).settled f exp digit := by
      rw [Style.settled,Style.settled,if_neg hopen,if_pos hfixed]
    rw [generalNumeral,if_pos hfix]
    refine ⟨?_,by rw [hsettled]; exact hlays.length,by rw [hsettled]; exact hlays.prec⟩
    rw [← hlays.text]
    unfold layoutFinite
    rw [if_neg hopen,if_pos hfixed]
  · rw [if_neg hfix] at hgeneral
    have hpos := hsome.resolve_right hfix
    have hshown : (trimmed ds).length ≤ generalShown f.alt places ds := by
      rw [generalShown]
      split_ifs <;> omega
    have hdigits := trimmed_digits h (s := general f exp digit st) (m := generalShown f.alt places ds - 1)
      (by rw [hgeneral]) (by rw [hgeneral]; dsimp only; omega)
    have hlays := @scientific_lays (trimmed ds) exp _ digit { general f exp digit st with exp := true } b F f conv minus upper hb
      hleft hzero (by rw [hgeneral]; exact hhex)
      ⟨hdigits.glyphs,rfl,hpos,⟨rfl,by rw [hgeneral]; exact hstyle.2⟩,hdigits.prec,by omega,hdigits.ndigs,
        by rw [hgeneral]; exact hmark,by decide,by rw [hgeneral]; exact hexp⟩
    have hsettled : st.settled f exp digit = general f exp digit st := if_neg hopen
    rw [generalNumeral,if_neg hfix]
    refine ⟨?_,by rw [hsettled]; exact hlays.length,by rw [hsettled]; exact hlays.prec⟩
    rw [← hlays.text]
    unfold layoutFinite
    rw [if_neg hopen]
    rfl

end

end

structure Answer (r : Dtoa × Nat) (minus : Bool) (ds : List Nat) (exp : Int) : Prop where
  dtoa : r.1 = ⟨minus,false,false,exp,ds.map (digitText false)⟩
  count : r.2 = ds.length
  digit : ∀ d ∈ ds, d < 10
  some : 0 < ds.length
  few : ds.length ≤ 17
  first : ds.head? ≠ .some 0 ∨ ds = [0] ∧ exp = 0
  near : exp.natAbs < 1000

def decimalRequest (e : FloatEngine) (prec : Int) (c : Nat) : Nat × Bool × Int :=
  if c = 'e'.toNat then (min (wrapU 8 (prec + 1)) e.maxDig,false,0) else
  if c = 'f'.toNat then (min (e.maxDig % 256) e.maxDig,true,prec) else
  (min (if wrapU 8 prec < 1 then 1 else wrapU 8 prec) e.maxDig,false,0)

def decimalStyle (prec : Int) (c count : Nat) : Style :=
  if c = 'e'.toNat then ⟨'e',false,true,false,prec,count % 256,2⟩ else
  if c = 'f'.toNat then ⟨'f',false,false,true,prec,count % 256,2⟩ else
  ⟨'e',false,false,false,prec,count % 256,2⟩

def decimalInts (f : Flags) (width : Int) (c : Nat) (exp : Int) (sign : List UInt8) (st : Style) : List Int :=
  let n := layoutLength f.alt exp sign st
  layoutLengths f.alt exp sign st ++ [if n < width then width - n else 0] ++ if c = 'e'.toNat then [st.prec + 1] else []

theorem decimalFloat_eq (e : FloatEngine) (f : Flags) (width prec : Int) (c conv bits : Nat) :
    decimalFloat e f width prec c conv bits =
      (let q := decimalRequest e (if f.prec then prec else 6) c
       let r := e.decimal bits q.1 q.2.1 q.2.2
       layoutFloat e f width conv r.1 (decimalStyle (if f.prec then prec else 6) c r.2)) := by
  unfold decimalFloat decimalRequest decimalStyle
  dsimp only
  split_ifs <;> rfl

def Letter.decimals : List Letter := [.e,.E,.f,.F,.g,.G]

def Letter.numeral (l : Letter) (alt : Bool) (places : Nat) (ds : List Nat) (exp : Int) : Numeral :=
  if l ∈ [Letter.e,.E] then expNumeral ds exp places else
  if l ∈ [Letter.f,.F] then fixedNumeral ds exp places else generalNumeral alt places ds exp

def Conv.places (b : Build) (v : Conv Unit) (args : List Arg) : Nat := (v.asked b args).digits.getD 6

def Conv.request (b : Build) (e : FloatEngine) (v : Conv Unit) (args : List Arg) : Nat × Bool × Int :=
  decimalRequest e (v.places b args) (lower v.letter.char)

def Conv.answer (b : Build) (e : FloatEngine) (v : Conv Unit) (args : List Arg) : Dtoa × Nat :=
  let q := v.request b e args
  e.decimal (v.value args).toNat q.1 q.2.1 q.2.2

def Conv.alt (v : Conv Unit) : Bool := decide (Flag.alt ∈ v.flags)

def Conv.decimalBody (v : Conv Unit) (minus : Bool) (n : Numeral) : List UInt8 :=
  v.signText minus ++ n.text v.letter.isUpper v.alt

def Conv.decimalText (b : Build) (v : Conv Unit) (args : List Arg) (minus : Bool) (n : Numeral) : List UInt8 :=
  { v.asked b args with digits := none }.text (v.signText minus) (n.text v.letter.isUpper v.alt)

def Conv.decimalSettled (b : Build) (e : FloatEngine) (v : Conv Unit) (args : List Arg) : Style :=
  let d := (v.answer b e args).1
  let st := decimalStyle (v.places b args) (lower v.letter.char) (v.answer b e args).2
  Style.settled (lenFlags b v.len (v.given (starWidth b args) (starPrec b v args))) d.exp (fun i => d.digits.getD i (e.stale i))
    { st with ndigsExp := widen e d.exp st.ndigsExp }

def Conv.decimalInts (b : Build) (e : FloatEngine) (v : Conv Unit) (args : List Arg) : List Int :=
  let f := lenFlags b v.len (v.given (starWidth b args) (starPrec b v args))
  let d := (v.answer b e args).1
  Printf.decimalInts f (v.asked b args).columns (lower v.letter.char) d.exp (signChar f d.minus) (v.decimalSettled b e args)

def Conv.decimalLength (b : Build) (e : FloatEngine) (v : Conv Unit) (args : List Arg) : Int :=
  let f := lenFlags b v.len (v.given (starWidth b args) (starPrec b v args))
  let d := (v.answer b e args).1
  layoutLength f.alt d.exp (signChar f d.minus) (v.decimalSettled b e args)

section

variable {b : Build} {e : FloatEngine} {long : FloatText} {v : Conv Unit} {args : List Arg} {minus : Bool} {ds : List Nat}
  {exp : Int}

theorem floatOut_decimal (hb : b.Full) (hl : v.letter ∈ Letter.decimals) (hon : b.floats ≠ .off)
    (hplain : v.argTy b = skipFloatTy b) :
    v.floatOut b (floatText e b long) args =
      layoutFloat e (lenFlags b v.len (v.given (starWidth b args) (starPrec b v args))) (v.asked b args).columns
        (lower v.letter.char - v.letter.char.toNat) (v.answer b e args).1
        (decimalStyle (v.places b args) (lower v.letter.char) (v.answer b e args).2) := by
  have hfloats : v.letter ∈ Letter.floats := by
    revert hl
    cases v.letter <;> decide
  have hlow : lower v.letter.char ≠ 'a'.toNat := by
    revert hl
    cases v.letter <;> decide
  have hprec : (if (lenFlags b v.len (v.given (starWidth b args) (starPrec b v args))).prec = true
      then (((v.asked b args).digits.getD 0 : Nat) : ℤ) else 6) = v.places b args := by
    rw [(given_laid hb v (starWidth b args) (starPrec b v args)).prec,Conv.places,Conv.asked]
    cases (v.field (starWidth b args) (starPrec b v args)).digits <;> rfl
  rw [Conv.floatOut,floatText,if_neg (plain_float hfloats hb hon hplain _ _)]
  dsimp only
  rw [if_neg (fun h => hlow h.2),decimalFloat_eq,hprec]
  rfl

theorem trimmed_pos (hs : 0 < ds.length) (hf : ds.head? ≠ some 0) : 0 < (trimmed ds).length := by
  obtain ⟨z,hz⟩ := trimmed_zeros ds
  refine Nat.pos_of_ne_zero fun hnone => hf ?_
  rw [List.length_eq_zero_iff.mp hnone,List.nil_append] at hz
  cases z with
  | zero => simp [hz] at hs
  | succ z => rw [hz,List.replicate_succ,List.head?_cons]

theorem wrapU_le (w n : Nat) : wrapU w n ≤ n := by
  have hcast : ((n : Int) % 2 ^ w) = ((n % 2 ^ w : ℕ) : Int) := by push_cast; rfl
  rw [wrapU,hcast,Int.toNat_natCast]
  exact Nat.mod_le n _

inductive Letter.Kind (l : Letter) : Prop where
  | scientific (h : l ∈ [Letter.e,.E]) (c : lower l.char = 'e'.toNat)
  | fixed (h : l ∈ [Letter.f,.F]) (c : lower l.char = 'f'.toNat)
  | general (h : l ∈ [Letter.g,.G]) (c : lower l.char = 'g'.toNat)

theorem letter_kind {l : Letter} (h : l ∈ Letter.decimals) : l.Kind := by
  simp only [Letter.decimals,List.mem_cons,List.not_mem_nil,or_false] at h
  rcases h with rfl | rfl | rfl | rfl | rfl | rfl
  · exact .scientific (by decide) (by decide)
  · exact .scientific (by decide) (by decide)
  · exact .fixed (by decide) (by decide)
  · exact .fixed (by decide) (by decide)
  · exact .general (by decide) (by decide)
  · exact .general (by decide) (by decide)

theorem letter_marks {l : Letter} (h : l ∈ Letter.decimals) :
    toCase (lower l.char - l.char.toNat) 'e' = byte (if l.isUpper then 'E' else 'e') := by
  revert h
  cases l <;> decide

theorem general_apart {l : Letter} (h : l ∈ [Letter.g,.G]) : l ∉ [Letter.e,.E] ∧ l ∉ [Letter.f,.F] := by
  revert h
  cases l <;> decide

theorem general_other {l : Letter} (h : l ∈ [Letter.g,.G]) : l ∉ [Letter.e,.E,.f,.F] := by
  revert h
  cases l <;> decide

theorem fixed_apart {l : Letter} (h : l ∈ [Letter.f,.F]) : l ∉ [Letter.e,.E] := by
  revert h
  cases l <;> decide

theorem request_few (h : ds.length ≤ (v.request b e args).1) (hl : v.letter ∈ Letter.decimals) :
    (v.letter ∈ [Letter.e,.E] → ds.length ≤ v.places b args + 1) ∧
      (v.letter ∈ [Letter.g,.G] → ds.length ≤ generalMany (v.places b args)) := by
  have hlow := wrapU_le 8 (v.places b args)
  have hnext := wrapU_le 8 (v.places b args + 1)
  push_cast at hnext
  unfold Conv.request at h
  cases letter_kind hl with
  | scientific he c =>
    rw [decimalRequest,if_pos c] at h
    dsimp only at h
    exact ⟨fun _ => by omega,fun hg => absurd he (general_apart hg).1⟩
  | fixed hf c => exact ⟨fun he => absurd he (fixed_apart hf),fun hg => absurd hf (general_apart hg).2⟩
  | general hg c =>
    rw [decimalRequest,if_neg (by rw [c]; decide),if_neg (by rw [c]; decide)] at h
    dsimp only at h
    refine ⟨fun he => absurd he (general_apart hg).1,fun _ => ?_⟩
    unfold generalMany
    split_ifs at h ⊢ <;> omega

theorem decimal_lays (hb : b.Full) (hl : v.letter ∈ Letter.decimals) (ha : Answer (v.answer b e args) minus ds exp)
    (hfew : ds.length ≤ (v.request b e args).1) :
    Lays b (v.asked b args) (lenFlags b v.len (v.given (starWidth b args) (starPrec b v args)))
      (lower v.letter.char - v.letter.char.toNat) minus exp (fun i => (v.answer b e args).1.digits.getD i (e.stale i))
      { decimalStyle (v.places b args) (lower v.letter.char) (v.answer b e args).2 with
        ndigsExp := widen e exp (decimalStyle (v.places b args) (lower v.letter.char) (v.answer b e args).2).ndigsExp }
      v.letter.isUpper (v.letter.numeral v.alt (v.places b args) ds exp) := by
  have hlay := given_laid hb v (starWidth b args) (starPrec b v args)
  have halt : (lenFlags b v.len (v.given (starWidth b args) (starPrec b v args))).alt = v.alt := given_alt hb v _ _
  have hmany := ha.few
  obtain ⟨he,hg⟩ := request_few hfew hl
  have hsome := ha.some
  have hcount : (v.answer b e args).2 % 256 = ds.length := by
    rw [ha.count]
    omega
  have hwide : widen e exp 2 = max 2 (Nat.digits 10 exp.natAbs).length := widen_eq e (by decide) le_rfl (.inl ha.near)
  have hglyphs : ∀ i (hi : i < ds.length), (v.answer b e args).1.digits.getD i (e.stale i) = digitText false ds[i] := by
    intro i hi
    rw [ha.dtoa,List.getD_eq_getElem _ _ (by rwa [List.length_map]),List.getElem_map]
  have hmarks := letter_marks hl
  cases letter_kind hl with
  | scientific h c =>
    rw [decimalStyle,if_pos c,Letter.numeral,if_pos h]
    exact scientific_lays hb.full hlay.left hlay.zero rfl
      ⟨hglyphs,rfl,hsome,⟨rfl,rfl⟩,rfl,he h,hcount,hmarks,by decide,hwide⟩
  | fixed h c =>
    rw [decimalStyle,if_neg (by rw [c]; decide),if_pos c,Letter.numeral,if_neg (fixed_apart h),if_pos h]
    exact fixed_lays hb.full hlay.left hlay.zero ⟨hglyphs,hcount,rfl⟩ rfl rfl
  | general h c =>
    rw [decimalStyle,if_neg (by rw [c]; decide),if_neg (by rw [c]; decide),Letter.numeral,if_neg (general_apart h).1,
      if_neg (general_apart h).2,← halt]
    refine general_lays hb.full hlay.left hlay.zero rfl ha.digit ⟨hglyphs,hcount,rfl⟩ ⟨rfl,rfl⟩ hmarks hwide (hg h) ?_
    rcases ha.first with hfirst | ⟨-,rfl⟩
    · exact .inl (trimmed_pos hsome hfirst)
    · have hroom := hg h
      exact .inr ⟨by decide,by omega⟩

theorem lengths_bounded {alt : Bool} {sign : List UInt8} {st : Style} (h : 0 ≤ st.prec) :
    st.prec + 1 ≤ layoutLength alt exp sign st ∧
      ∀ n ∈ layoutLengths alt exp sign st, 0 ≤ n ∧ n ≤ layoutLength alt exp sign st := by
  unfold layoutLength layoutLengths
  dsimp only
  by_cases hp : st.prec = 0
  · simp [hp]
    split_ifs <;> omega
  · simp [hp]
    split_ifs <;> omega

theorem decimal_output (hb : b.Full) (hl : v.letter ∈ Letter.decimals) (h : v.Given b args) (hon : b.floats ≠ .off)
    (hplain : v.argTy b = skipFloatTy b) (ha : Answer (v.answer b e args) minus ds exp)
    (hfew : ds.length ≤ (v.request b e args).1) :
    (∃ rs, format b (floatText e b long) (render [.conv v]) args =
      .ok ⟨v.decimalText b args minus (v.letter.numeral v.alt (v.places b args) ds exp),rs,false⟩) ∧
    v.decimalLength b e args = (v.decimalBody minus (v.letter.numeral v.alt (v.places b args) ds exp)).length ∧
    ∀ n ∈ v.decimalInts b e args, 0 ≤ n ∧ n ≤ max ((v.asked b args).columns : Int) (v.decimalLength b e args) := by
  have hfloats : v.letter ∈ Letter.floats := by
    revert hl
    cases v.letter <;> decide
  have hlays := decimal_lays hb hl ha hfew
  have hsign := given_sign hb v (starWidth b args) (starPrec b v args) minus
  have halt : (lenFlags b v.len (v.given (starWidth b args) (starPrec b v args))).alt = v.alt := given_alt hb v _ _
  refine ⟨?_,?_,?_⟩
  · obtain ⟨rs,hfmt⟩ := @format_float b (floatText e b long) v args hb hfloats hon h.fits
    have htext := hlays.text
    rw [hsign,halt] at htext
    refine ⟨rs,?_⟩
    rw [hfmt,floatOut_decimal hb hl hon hplain,layoutFloat,ha.dtoa,if_neg (by simp)]
    rw [ha.dtoa] at htext
    exact congrArg (fun t : List UInt8 => Except.ok (⟨t,rs,false⟩ : Output)) htext
  · have hlength := hlays.length
    rw [hsign,halt] at hlength
    rw [Conv.decimalLength,Conv.decimalSettled,Conv.decimalBody,← hlength,ha.dtoa]
    dsimp only
    rw [hsign,halt]
  · have hprec := hlays.prec
    rw [ha.dtoa] at hprec
    unfold Conv.decimalInts Conv.decimalLength Printf.decimalInts Conv.decimalSettled
    rw [ha.dtoa]
    dsimp only at hprec ⊢
    obtain ⟨hnext,hall⟩ := @lengths_bounded exp (lenFlags b v.len (v.given (starWidth b args) (starPrec b v args))).alt
      (signChar (lenFlags b v.len (v.given (starWidth b args) (starPrec b v args))) minus) _ hprec
    intro n hn
    rcases List.mem_append.mp hn with hn | hn
    · rcases List.mem_append.mp hn with hn | hn
      · have hbound := hall n hn
        omega
      · rw [List.mem_singleton.mp hn]
        split_ifs <;> omega
    · split_ifs at hn
      · rw [List.mem_singleton.mp hn]
        omega
      · cases hn

structure Letter.Denotes (l : Letter) (alt : Bool) (places : Nat) (ds : List Nat) (exp : Int) (n : Numeral) : Prop where
  formed : n.Formed
  value : n.value = if l ∈ [Letter.f,.F] then cutAt places (decimalValue ds exp) else decimalValue ds exp
  count : l ∈ [Letter.e,.E,.f,.F] → n.frac.length = places
  zeros : l ∈ [Letter.g,.G] → alt = false → n.frac.getLast? ≠ some 0
  kept : l ∈ [Letter.g,.G] → alt = true → (n.frac.length : Int) = generalMany places - 1 - if n.exp = none then exp else 0
  style : n.exp =
    if l ∈ [Letter.f,.F] ∨ l ∈ [Letter.g,.G] ∧ -4 ≤ exp ∧ exp < generalMany places then none else some exp
  single : n.exp ≠ none → n.whole.length = 1

theorem decimalValue_zeros (hs : 0 < ds.length) (z : Nat) (exp : Int) :
    decimalValue (ds ++ List.replicate z 0) exp = decimalValue ds exp := by
  obtain ⟨k,hk⟩ := Nat.exists_eq_add_of_le' hs
  rw [decimalValue,decimalValue,horner_append,horner_replicate,List.length_append,List.length_replicate,hk,
    show k + 1 + z - 1 = k + z by omega,Nat.add_sub_cancel,pow_add]
  push_cast
  field_simp

theorem decimalValue_int (hs : 0 < ds.length) {k : Nat} (h : (ds.length : Int) ≤ exp + 1 + k) :
    ∃ n : ℤ, decimalValue ds exp * 10 ^ k = n := by
  obtain ⟨j,hj⟩ := Int.eq_ofNat_of_zero_le (show 0 ≤ exp + 1 + k - ds.length by omega)
  refine ⟨(horner 10 0 ds * 10 ^ j : ℕ),?_⟩
  have hpow : (10 : ℚ) ^ exp * 10 ^ k = 10 ^ (ds.length - 1) * 10 ^ j := by
    rw [← zpow_natCast,← zpow_natCast,← zpow_natCast,← zpow_add₀ (by norm_num),← zpow_add₀ (by norm_num)]
    congr 1
    omega
  rw [decimalValue,mul_assoc,hpow]
  push_cast
  field_simp

theorem trimmed_value (h : 0 < (trimmed ds).length) (exp : Int) : decimalValue (trimmed ds) exp = decimalValue ds exp := by
  obtain ⟨z,hz⟩ := trimmed_zeros ds
  conv_rhs => rw [hz]
  exact (decimalValue_zeros h z exp).symm

theorem trimmed_fixed (ds : List Nat) (exp : Int) (places : Nat) :
    fixedNumeral (trimmed ds) exp places = fixedNumeral ds exp places := by
  obtain ⟨z,hz⟩ := trimmed_zeros ds
  conv_rhs => rw [hz]
  exact (fixedNumeral_zeros (trimmed ds) z exp places).symm

theorem trimmed_lt (h : ∀ d ∈ ds, d < 10) : ∀ d ∈ trimmed ds, d < 10 := by
  obtain ⟨z,hz⟩ := trimmed_zeros ds
  exact fun d hd => h d (hz ▸ List.mem_append_left _ hd)

theorem fixedNumeral_last (h : 0 < (trimmed ds).length) {exp : Int} {places : Nat} (hp : exp + 1 + places = (trimmed ds).length) :
    (fixedNumeral (trimmed ds) exp places).frac.getLast? ≠ some 0 := by
  cases places with
  | zero => simp [fixedNumeral]
  | succ k =>
    have hlast := trimmed_last ds
    rw [List.getLast?_eq_getElem?,List.getElem?_eq_getElem (by omega)] at hlast
    rw [fixedNumeral]
    dsimp only
    rw [List.range_succ,List.map_append,List.map_singleton,List.getLast?_concat,digitAt]
    have hin : 0 ≤ exp - (-1 - (k : Int)) ∧ exp - (-1 - (k : Int)) < (trimmed ds).length := by omega
    have hindex : (exp - (-1 - (k : Int))).toNat = (trimmed ds).length - 1 := by omega
    rw [if_pos hin,hindex,List.getD_eq_getElem _ _ (by omega)]
    exact hlast

theorem expNumeral_last (h : 0 < (trimmed ds).length) (exp : Int) :
    (expNumeral (trimmed ds) exp ((trimmed ds).length - 1)).frac.getLast? ≠ some 0 := by
  have hpad : padded (trimmed ds) ((trimmed ds).length - 1) = trimmed ds := by
    rw [padded,Nat.sub_add_cancel h,Nat.sub_self,List.replicate_zero,List.append_nil]
  rw [expNumeral,hpad]
  dsimp only
  rw [List.getLast?_drop]
  split_ifs
  · simp
  · exact trimmed_last ds

theorem expNumeral_single (places : Nat) (hp : ds.length ≤ places + 1) (exp : Int) :
    (expNumeral ds exp places).whole.length = 1 ∧ (expNumeral ds exp places).frac.length = places := by
  rw [expNumeral,List.length_take,List.length_drop,padded_length hp]
  omega

theorem general_denotes {l : Letter} {places : Nat} (hl : l ∈ [Letter.g,.G]) (hds : ∀ d ∈ ds, d < 10) (hs : 0 < ds.length)
    (hfirst : ds.head? ≠ some 0 ∨ ds = [0] ∧ exp = 0) (hfew : ds.length ≤ generalMany places) (alt : Bool) :
    l.Denotes alt places ds exp (generalNumeral alt places ds exp) := by
  have hapart := general_apart hl
  have hmany : 0 < generalMany places := hs.trans_le hfew
  have htrim : (trimmed ds).length ≤ ds.length := by
    obtain ⟨z,hz⟩ := trimmed_zeros ds
    have hlen := congrArg List.length hz
    rw [List.length_append] at hlen
    omega
  have hshown : (trimmed ds).length ≤ generalShown alt places ds := by
    rw [generalShown]
    split_ifs <;> omega
  have hpos : 0 < (trimmed ds).length ∨ (trimmed ds = [] ∧ decimalValue ds exp = 0 ∧ exp = 0) := by
    rcases hfirst with hfirst | ⟨rfl,rfl⟩
    · exact .inl (trimmed_pos hs hfirst)
    · exact .inr ⟨rfl,by simp [decimalValue,horner],rfl⟩
  by_cases hfix : -4 ≤ exp ∧ exp < generalMany places
  · rw [generalNumeral,if_pos hfix]
    refine ⟨fixedNumeral_formed (trimmed_lt hds),?_,fun hin => ?_,fun _ halt => ?_,fun _ halt => ?_,?_,fun hne => absurd rfl hne⟩
    · rw [if_neg hapart.2,trimmed_fixed,fixedNumeral_value hds hs]
      rcases hpos with hpos | ⟨-,hzero,-⟩
      · rw [← trimmed_value hpos]
        obtain ⟨n,hn⟩ := @decimalValue_int (trimmed ds) exp hpos ((generalShown alt places ds : Int) - (exp + 1)).toNat (by omega)
        exact cutAt_int hn
      · rw [hzero]
        exact cutAt_int (n := 0) (by simp)
    · exact absurd hin (general_other hl)
    · rcases hpos with hpos | ⟨hnil,-,rfl⟩
      · rw [halt,generalShown,if_neg Bool.false_ne_true]
        rcases le_total ((trimmed ds).length : Int) (exp + 1) with hle | hle
        · rw [Int.toNat_of_nonpos (by omega)]
          simp [fixedNumeral]
        · exact fixedNumeral_last hpos (by omega)
      · simp [halt,generalShown,hnil,fixedNumeral]
    · rw [halt,generalShown,if_pos rfl,if_pos (by rfl)]
      simp only [fixedNumeral,List.length_map,List.length_range]
      omega
    · rw [if_pos (.inr ⟨hl,hfix⟩)]
      rfl
  · have hpos := hpos.resolve_right fun h => hfix ⟨by omega,by omega⟩
    have hroom : (trimmed ds).length ≤ generalShown alt places ds - 1 + 1 := by omega
    have hsingle := @expNumeral_single (trimmed ds) (generalShown alt places ds - 1) hroom exp
    rw [generalNumeral,if_neg hfix]
    refine ⟨expNumeral_formed (trimmed_lt hds) exp _ hroom,?_,fun hin => ?_,fun _ halt => ?_,fun _ halt => ?_,?_,fun _ => hsingle.1⟩
    · rw [if_neg hapart.2,expNumeral_value hpos hroom,trimmed_value hpos]
    · exact absurd hin (general_other hl)
    · rw [halt,generalShown,if_neg Bool.false_ne_true]
      exact expNumeral_last hpos exp
    · rw [hsingle.2,halt,generalShown,if_pos rfl,if_neg (by simp [expNumeral])]
      omega
    · rw [if_neg]
      · rfl
      · rintro (hin | hin)
        · exact hapart.2 hin
        · exact hfix hin.2

theorem numeral_denotes {l : Letter} {places : Nat} (hl : l ∈ Letter.decimals) (ha : ∀ d ∈ ds, d < 10) (hs : 0 < ds.length)
    (hfirst : ds.head? ≠ some 0 ∨ ds = [0] ∧ exp = 0) (alt : Bool) (he : l ∈ [Letter.e,.E] → ds.length ≤ places + 1)
    (hg : l ∈ [Letter.g,.G] → ds.length ≤ generalMany places) : l.Denotes alt places ds exp (l.numeral alt places ds exp) := by
  cases letter_kind hl with
  | scientific h c =>
    have hroom := he h
    have hsingle := @expNumeral_single ds places hroom exp
    rw [Letter.numeral,if_pos h]
    have hnot : l ∉ [Letter.f,.F] ∧ l ∉ [Letter.g,.G] := by
      revert h
      cases l <;> decide
    refine ⟨expNumeral_formed ha exp _ hroom,?_,fun _ => hsingle.2,fun hin => absurd hin hnot.2,fun hin => absurd hin hnot.2,?_,
      fun _ => hsingle.1⟩
    · rw [if_neg hnot.1,expNumeral_value hs hroom]
    · rw [if_neg (fun hin => hin.elim hnot.1 fun hin => hnot.2 hin.1)]
      rfl
  | fixed h c =>
    have hnot : l ∉ [Letter.g,.G] := by
      revert h
      cases l <;> decide
    rw [Letter.numeral,if_neg (fixed_apart h),if_pos h]
    refine ⟨fixedNumeral_formed ha,?_,fun _ => by simp [fixedNumeral],fun hin => absurd hin hnot,fun hin => absurd hin hnot,?_,
      fun hne => absurd rfl hne⟩
    · rw [if_pos h,fixedNumeral_value ha hs]
    · rw [if_pos (.inl h)]
      rfl
  | general h c =>
    rw [Letter.numeral,if_neg (general_apart h).1,if_neg (general_apart h).2]
    exact general_denotes h ha hs hfirst (hg h) alt

structure Conv.Shows (b : Build) (e : FloatEngine) (long : FloatText) (v : Conv Unit) (args : List Arg) (minus : Bool)
    (ds : List Nat) (exp : Int) : Prop where
  text : ∃ o n, format b (floatText e b long) (render [.conv v]) args = .ok o ∧ o.failed = false ∧
    v.letter.Denotes v.alt (v.places b args) ds exp n ∧ o.text = v.decimalText b args minus n ∧
      o.text.length = max (v.asked b args).columns (v.decimalBody minus n).length ∧
        v.decimalLength b e args = (v.decimalBody minus n).length
  ints : ∀ n ∈ v.decimalInts b e args, InInt b n

theorem in_int {n width length : Int} (h : 0 ≤ n ∧ n ≤ max width length) (hwidth : width < 2 ^ (b.intBits - 1))
    (hlength : length < 2 ^ (b.intBits - 1)) : InInt b n :=
  ⟨(neg_nonpos.mpr (by positivity)).trans h.1,h.2.trans_lt (max_lt hwidth hlength)⟩

theorem decimal_layout (hb : b.Full) (hl : v.letter ∈ Letter.decimals) (h : v.Given b args) (hon : b.floats ≠ .off)
    (hplain : v.argTy b = skipFloatTy b) (ha : Answer (v.answer b e args) minus ds exp)
    (hfew : ds.length ≤ (v.request b e args).1) (hroom : v.decimalLength b e args < 2 ^ (b.intBits - 1)) :
    v.Shows b e long args minus ds exp := by
  obtain ⟨⟨rs,hfmt⟩,hlength,hints⟩ := @decimal_output b e long v args minus ds exp hb hl h hon hplain ha hfew
  obtain ⟨he,hg⟩ := request_few hfew hl
  refine ⟨⟨_,_,hfmt,rfl,numeral_denotes hl ha.digit ha.some ha.first v.alt he hg,rfl,?_,hlength⟩,
    fun n hn => in_int (hints n hn) (by exact_mod_cast h.width) hroom⟩
  have htext := text_length { v.asked b args with digits := none } (v.signText minus)
    ((v.letter.numeral v.alt (v.places b args) ds exp).text v.letter.isUpper v.alt)
  rw [← List.length_append] at htext
  exact htext

end

def fixedConv (prec : List (Fin 10)) : Conv Unit := ⟨(),[],.none,.lit prec,.none,.f,bare_length .f⟩

theorem oneHalf_sound : (1499999999999999888 : Nat) ≤ 1500000000000000000 ∧ (0 : Nat) < 1500000000000000000 ∧
    1500000000000000000 + 1 < 10 ^ 19 := by decide

theorem oneHalf_bounds : false = true → true = true ∧ 0 < 1499999999999999888 := nofun

def oneHalf : Scaled := ⟨1500000000000000000,1500000000000000111,1499999999999999888,-18,true,false,true,oneHalf_sound.1,
  oneHalf_bounds,oneHalf_sound.2.1,oneHalf_sound.2.2⟩

theorem sixHundredths_sound : (599999999999999943 : Nat) ≤ 599999999999999977 ∧ (0 : Nat) < 599999999999999977 ∧
    599999999999999977 + 1 < 10 ^ 19 := by decide

theorem sixHundredths_bounds : false = true → true = true ∧ 0 < 599999999999999943 := nofun

def sixHundredths : Scaled := ⟨599999999999999977,600000000000000012,599999999999999943,-19,true,false,false,
  sixHundredths_sound.1,sixHundredths_bounds,sixHundredths_sound.2.1,sixHundredths_sound.2.2⟩

def ryuEngine (s : Scaled) : FloatEngine := ⟨f64,17,dtoaEngine (fun _ => s),fun _ => 0,true,false⟩

theorem fixedConv_given (prec : List (Fin 10)) {x : Nat}
    (hp : ((fixedConv prec).asked lp64 [.double x]).digits.getD 0 < 2 ^ 31) : (fixedConv prec).Given lp64 [.double x] := by
  refine ⟨fun k e hk => ?_,show 0 < 2 ^ 31 by decide,hp⟩
  cases k with
  | zero =>
    obtain rfl := Option.some.inj hk
    exact ⟨.double x,rfl,rfl⟩
  | succ k => cases hk

theorem decimal_layout_three : (fixedConv [3]).Shows lp64 (ryuEngine oneHalf) noFloats [.double 0x3ff8000000000000] false
    [1,5] 0 := by
  refine decimal_layout lp64_full (by decide) (fixedConv_given [3] (by decide)) (by decide) rfl
    ⟨by decide +kernel,by decide +kernel,by decide,by decide,by decide,.inl (by decide),by decide⟩ (by decide +kernel) (by decide +kernel)

theorem zero_value {n : Numeral} (h : n.Formed) (htext : ∀ c ∈ n.text false false, c = byte '0' ∨ c = byte '.') :
    n.value = 0 := by
  have hglyph : ∀ d < 10, digitText false d = byte '0' ∨ digitText false d = byte '.' → d = 0 := by decide
  have hzeros : ∀ d ∈ n.whole ++ n.frac, d = 0 := by
    intro d hd
    refine hglyph d (h.digit d hd) (htext _ ?_)
    rcases List.mem_append.mp hd with hd | hd <;> simp [Numeral.text,List.mem_map_of_mem hd]
  have hall := List.eq_replicate_of_mem hzeros
  rw [Numeral.value,hall,horner_replicate]
  simp

theorem fixed_text (prec : List (Fin 10)) (x : Nat) (n : Numeral) :
    (fixedConv prec).decimalText lp64 [.double x] false n = n.text false false := by
  have hfield : { (fixedConv prec).asked lp64 [.double x] with digits := none } = (⟨false,false,0,none⟩ : Field) := rfl
  have hsign : (fixedConv prec).signText false = [] := rfl
  rw [Conv.decimalText,hfield,hsign]
  simp only [Field.text,Field.room,Bool.false_eq_true,if_false,false_and,Nat.zero_sub,List.replicate_zero,List.nil_append]
  rfl

theorem digit_below_places :
    Answer ((fixedConv [0]).answer lp64 (ryuEngine sixHundredths) [.double 0x3faeb851eb851eb8]) false [1] (-1) ∧
      ¬∃ o n, format lp64 (floatText (ryuEngine sixHundredths) lp64 noFloats) (render [.conv (fixedConv [0])])
        [.double 0x3faeb851eb851eb8] = .ok o ∧ n.Formed ∧
          o.text = (fixedConv [0]).decimalText lp64 [.double 0x3faeb851eb851eb8] false n ∧ n.value = decimalValue [1] (-1) := by
  refine ⟨⟨by decide +kernel,by decide +kernel,by decide,by decide,by decide,.inl (by decide),by decide⟩,?_⟩
  rintro ⟨o,n,hrun,hformed,htext,hvalue⟩
  have hshown : (format lp64 (floatText (ryuEngine sixHundredths) lp64 noFloats) (render [.conv (fixedConv [0])])
      [.double 0x3faeb851eb851eb8]).map Output.text = .ok [byte '0'] := by decide +kernel
  rw [hrun] at hshown
  have hzero : o.text = [byte '0'] := Except.ok.inj hshown
  have hplain := fixed_text [0] 0x3faeb851eb851eb8 n
  have hbad := zero_value hformed (show ∀ c ∈ n.text false false, c = byte '0' ∨ c = byte '.' by
    rw [← hplain,← htext,hzero]
    decide +kernel)
  rw [hbad] at hvalue
  norm_num [decimalValue,horner] at hvalue

end Printf
