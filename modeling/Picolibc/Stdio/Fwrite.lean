import Mathlib
import Picolibc.Stdio.Delivery
import Picolibc.Stdio.Room

namespace Stdio

open ByteMemory

section

variable {σ : Type} (put : σ → UInt8 → σ × Int)

def loopItem : Nat → σ → Mem → Nat → σ × Bool
  | 0, s, _, _ => (s,true)
  | n + 1, s, data, at' =>
    let r := put s (data at')
    if r.2 < 0 then (r.1,false) else loopItem n r.1 data (at' + 1)

def loopItems (size : Nat) : Nat → σ → Mem → Nat → σ × Nat
  | 0, s, _, i => (s,i)
  | n + 1, s, data, i =>
    let r := loopItem put size s data (i * size)
    if r.2 then loopItems size n r.1 data (i + 1) else (r.1,i)

def putsAccepted : Nat → σ → Mem → Nat → Nat
  | 0, _, _, _ => 0
  | n + 1, s, data, at' =>
    let r := put s (data at')
    if r.2 < 0 then 0 else putsAccepted n r.1 data (at' + 1) + 1

def AllPut : Nat → σ → Mem → Nat → Prop
  | 0, _, _, _ => True
  | n + 1, s, data, at' => 0 ≤ (put s (data at')).2 ∧ AllPut n (put s (data at')).1 data (at' + 1)

variable {put}

theorem putsAccepted_le (n : Nat) (s : σ) (data : Mem) (start : Nat) :
    putsAccepted put n s data start ≤ n ∧ (putsAccepted put n s data start = n ↔ AllPut put n s data start) := by
  induction n generalizing s start with
  | zero => exact ⟨Nat.le_refl 0,iff_of_true rfl trivial⟩
  | succ n ih =>
    obtain ⟨h1,h2⟩ := ih (put s (data start)).1 (start + 1)
    rw [putsAccepted,AllPut]
    split_ifs with hneg
    · exact ⟨Nat.zero_le _,iff_of_false not_false (fun h => absurd h.1 (by omega))⟩
    · refine ⟨by omega,?_⟩
      rw [← h2]
      constructor
      · intro h
        exact ⟨by omega,by omega⟩
      · intro h
        omega

theorem loopItem_spec (n m : Nat) (s : σ) (data : Mem) (start : Nat) :
    ((loopItem put n s data start).2 = true ∧ putsAccepted put (n + m) s data start =
      n + putsAccepted put m (loopItem put n s data start).1 data (start + n)) ∨
    ((loopItem put n s data start).2 = false ∧ putsAccepted put (n + m) s data start < n) := by
  induction n generalizing s start with
  | zero => exact .inl ⟨rfl,by simp [loopItem]⟩
  | succ n ih =>
    rw [show n + 1 + m = (n + m) + 1 by omega,loopItem,putsAccepted]
    split_ifs with hneg
    · exact .inr ⟨rfl,by omega⟩
    · rcases ih (put s (data start)).1 (start + 1) with ⟨h1,h2⟩ | ⟨h1,h2⟩
      · refine .inl ⟨h1,?_⟩
        rw [h2,show start + 1 + n = start + (n + 1) by omega]
        omega
      · exact .inr ⟨h1,by omega⟩

theorem loopItems_spec {size : Nat} (hs : 1 ≤ size) (n : Nat) (s : σ) (data : Mem) (i : Nat) :
    (loopItems put size n s data i).2 = i + putsAccepted put (size * n) s data (i * size) / size := by
  induction n generalizing s i with
  | zero => simp [loopItems,putsAccepted]
  | succ n ih =>
    rw [loopItems]
    rw [show size * (n + 1) = size + size * n by ring]
    rcases loopItem_spec size (size * n) s data (i * size) with ⟨h1,h2⟩ | ⟨h1,h2⟩
    · rw [if_pos h1,ih,h2,Nat.add_div_left _ hs,show i * size + size = (i + 1) * size by ring]
      omega
    · rw [if_neg (by rw [h1]; exact Bool.false_ne_true),Nat.div_eq_of_lt h2]
      rfl

theorem loopItem_preserves {inv : σ → Prop} (hput : ∀ s c, inv s → inv (put s c).1) (n : Nat) {s : σ} (hs : inv s)
    (data : Mem) (start : Nat) : inv (loopItem put n s data start).1 := by
  induction n generalizing s start with
  | zero => exact hs
  | succ n ih =>
    rw [loopItem]
    split_ifs
    · exact hput _ _ hs
    · exact ih (hput _ _ hs) _

theorem loopItems_preserves {inv : σ → Prop} (hput : ∀ s c, inv s → inv (put s c).1) (size n : Nat) {s : σ}
    (hs : inv s) (data : Mem) (i : Nat) : inv (loopItems put size n s data i).1 := by
  induction n generalizing s i with
  | zero => exact hs
  | succ n ih =>
    have hitem := loopItem_preserves hput size hs data (i * size)
    rw [loopItems]
    split_ifs
    · exact ih hitem _
    · exact hitem

end

structure Plain (σ : Type) where
  flags : Flags
  st : σ

def Plain.fwrite {σ : Type} (put : σ → UInt8 → σ × Int) (p : Plain σ) (data : Mem) (size nmemb : Nat) :
    Plain σ × Nat :=
  if p.flags.swr = false ∨ size = 0 then (p,0) else
  let r := loopItems put size nmemb p.st data 0
  ({ p with st := r.1 },r.2)

structure Reports (before after : Flags) (ret nmemb accepted size : Nat) : Prop where
  count : ret = accepted / size
  error : ret < nmemb → after.serr = true
  kept : after = { before with serr := after.serr }

def Saturated (fl : Flags) : Prop := fl.orErr = { fl with serr := true }

section

variable {size nmemb a : Nat} {fl : Flags}

theorem reports_same (hs : 1 ≤ size) :
    Reports fl fl (a / size) nmemb a size ↔ size * nmemb ≤ a ∨ fl.serr = true := by
  have hlt : a / size < nmemb ↔ ¬size * nmemb ≤ a := by
    rw [Nat.div_lt_iff_lt_mul hs,Nat.not_le,Nat.mul_comm]
  constructor
  · intro h
    by_cases hle : size * nmemb ≤ a
    · exact .inl hle
    · exact .inr (h.error (hlt.mpr hle))
  · intro h
    exact ⟨rfl,fun hless => h.resolve_left (hlt.mp hless),rfl⟩

theorem reports_or :
    Reports fl fl.orErr (a / size) nmemb a size ↔ Saturated fl :=
  ⟨fun h => h.kept,fun h => ⟨rfl,fun _ => rfl,h⟩⟩

end

section

variable {D : Type} {cb : Callbacks D} {f : Bufio D}

def directAccepted (cb : Callbacks D) : Nat → D → List UInt8 → Nat
  | 0, _, _ => 0
  | fuel + 1, d, l =>
    if l = [] then 0 else
    match cb.write d l with
    | (_,none) => 0
    | (d,some n) => if n.val = 0 then 0 else n.val + directAccepted cb fuel d (l.drop n.val)

theorem putItem_eq (cb : Callbacks D) (n : Nat) (f : Bufio D) (data : Mem) (start : Nat) :
    Bufio.putItem cb n f data start = loopItem (fun f c => f.put cb c) n f data start := by
  induction n generalizing f start with
  | zero => rfl
  | succ n ih =>
    rw [Bufio.putItem,loopItem]
    rw [ih]

theorem putItems_eq (cb : Callbacks D) (size n : Nat) (f : Bufio D) (data : Mem) (i : Nat) :
    Bufio.putItems cb size n f data i = loopItems (fun f c => f.put cb c) size n f data i := by
  induction n generalizing f i with
  | zero => rfl
  | succ n ih =>
    rw [Bufio.putItems,loopItems]
    rw [putItem_eq,ih]

theorem flushWrite_accepts (cb : Callbacks D) (fuel : Nat) (f : Bufio D) (start : Nat) (hl : f.len ≤ fuel) :
    ((f.flushWrite cb fuel start).2 = 0 ↔ Accepts cb f.dev (slice f.buf start f.len)) := by
  induction fuel generalizing f start with
  | zero =>
    have h0 : f.len = 0 := by omega
    rw [h0]
    exact iff_of_true rfl (.nil _)
  | succ fuel ih =>
    rw [Bufio.flushWrite]
    by_cases h0 : f.len = 0
    · rw [if_pos h0,h0]
      exact iff_of_true rfl (.nil _)
    · have hne : slice f.buf start f.len ≠ [] := by
        rw [← List.length_pos_iff,slice_length]
        omega
      rw [if_neg h0]
      rcases hw : cb.write f.dev (slice f.buf start f.len) with ⟨d,_ | n⟩
      · exact iff_of_false (show ¬fdevErr = 0 by decide) (accepts_write hne hw)
      · dsimp only
        by_cases hn : n.val = 0
        · rw [if_pos hn]
          exact iff_of_false (show ¬fdevErr = 0 by decide) (fun h => absurd (accepts_drop hne hw h).1 (by omega))
        · have hle : n.val ≤ f.len := by simpa using n.property
          rw [if_neg hn,ih _ _ (by dsimp only; omega)]
          dsimp only
          rw [← slice_drop hle]
          exact ⟨fun h => .more hw (by omega) h,fun h => (accepts_drop hne hw h).2⟩

theorem flushLocked_accepts (cb : Callbacks D) (hd : f.dir = .wr) :
    (f.flushLocked cb).2 = 0 ↔ Accepts cb f.dev (slice f.buf 0 f.len) := by
  rw [← flushWrite_accepts cb f.len f 0 le_rfl]
  simp only [Bufio.flushLocked,hd]

def Buffers (cb : Callbacks D) (f : Bufio D) (data : Mem) (bytes : Nat) : Prop :=
  bytes ≤ f.size - f.len ∨ Accepts cb f.dev (slice f.buf 0 f.len ++ slice data 0 (f.size - f.len))

theorem writeBuffered_fits (cb : Callbacks D) (fuel : Nat) (data : Mem) (start : Nat) {bytes : Nat}
    (hb : 0 < bytes) (hroom : bytes ≤ f.size - f.len) : ∃ g,
      Bufio.writeBuffered cb (fuel + 1) f data start bytes = (g,start + bytes) ∧ g.flags = f.flags := by
  have hdone : ∀ (k : Nat) (g : Bufio D) (m : Nat), Bufio.writeBuffered cb k g data m 0 = (g,m) := by
    intro k g m
    cases k with
    | zero => rfl
    | succ k => rw [Bufio.writeBuffered,if_pos rfl]
  have hz : f.size - f.len ≠ 0 := by omega
  rw [Bufio.writeBuffered,if_neg (by omega)]
  simp only [if_neg hz,ne_eq,not_true_eq_false,if_false,min_eq_right hroom,Nat.sub_self,hdone]
  exact ⟨_,rfl,rfl⟩

theorem writeBuffered_full (cb : Callbacks D) (fuel : Nat) (data : Mem) (start : Nat) {bytes : Nat}
    (hd : f.dir = .wr) (hb : 0 < bytes) (hlt : bytes < f.size) (hfull : f.size - f.len = 0) :
    (Accepts cb f.dev (slice f.buf 0 f.len) ∧ ∃ g,
      Bufio.writeBuffered cb (fuel + 2) f data start bytes = (g,start + bytes) ∧ g.flags = f.flags) ∨
    (¬Accepts cb f.dev (slice f.buf 0 f.len) ∧ ∃ g,
      Bufio.writeBuffered cb (fuel + 2) f data start bytes = (g,start) ∧ g.flags = f.flags.orErr) := by
  obtain ⟨d,p,r,heq,hr⟩ := Bufio.flushLocked_wr cb hd
  rw [← flushLocked_accepts cb hd,Bufio.writeBuffered,if_neg (by omega)]
  simp only [hfull,if_true,heq,Nat.zero_min,slice_zero,Nat.add_zero,Nat.sub_zero]
  rcases hr with rfl | rfl
  · refine .inl ⟨rfl,?_⟩
    simp only [ne_eq,not_true_eq_false,if_false]
    exact writeBuffered_fits cb fuel data start hb (by dsimp only; omega)
  · refine .inr ⟨by decide,?_⟩
    rw [if_pos (by decide)]
    exact ⟨_,rfl,rfl⟩

theorem writeBuffered_takes (cb : Callbacks D) (data : Mem) {bytes : Nat} (hd : f.dir = .wr) (hb : 0 < bytes)
    (hlt : bytes < f.size) : ∃ g k, Bufio.writeBuffered cb (2 * bytes) f data 0 bytes = (g,k) ∧
      ((Buffers cb f data bytes ∧ k = bytes ∧ g.flags = f.flags) ∨
        (¬Buffers cb f data bytes ∧ k < bytes ∧ g.flags = f.flags.orErr)) := by
  obtain ⟨n,hn⟩ : ∃ n, 2 * bytes = n + 2 := ⟨2 * bytes - 2,by omega⟩
  by_cases hfit : bytes ≤ f.size - f.len
  · obtain ⟨g,hg,hfl⟩ := writeBuffered_fits cb (n + 1) data 0 hb hfit
    rw [Nat.zero_add] at hg
    exact ⟨g,bytes,by rw [hn,hg],.inl ⟨.inl hfit,rfl,hfl⟩⟩
  · by_cases hz : f.size - f.len = 0
    · have hbuf : Buffers cb f data bytes ↔ Accepts cb f.dev (slice f.buf 0 f.len) := by
        rw [Buffers,or_iff_right hfit,hz,slice_zero,List.append_nil]
      rw [hn,hbuf]
      rcases writeBuffered_full cb n data 0 hd hb hlt hz with ⟨ha,g,hg,hfl⟩ | ⟨ha,g,hg,hfl⟩
      · rw [Nat.zero_add] at hg
        exact ⟨g,bytes,hg,.inl ⟨ha,rfl,hfl⟩⟩
      · exact ⟨g,0,hg,.inr ⟨ha,hb,hfl⟩⟩
    · obtain ⟨room,hroom⟩ : ∃ room, room = f.size - f.len := ⟨_,rfl⟩
      obtain ⟨m,hm⟩ : ∃ m, n + 1 = m + 2 := ⟨n - 1,by omega⟩
      rw [← hroom] at hfit hz
      have hstep : Bufio.writeBuffered cb (2 * bytes) f data 0 bytes = Bufio.writeBuffered cb (m + 2)
          { f with buf := splice f.buf f.len (slice data 0 room), len := f.size } data room (bytes - room) := by
        rw [hn,Bufio.writeBuffered,if_neg (by omega),hm]
        rw [← hroom]
        simp only [if_neg hz,ne_eq,not_true_eq_false,if_false,Nat.zero_add]
        rw [min_eq_left (by omega),show f.len + room = f.size by omega]
      have hbuf : Buffers cb f data bytes ↔ Accepts cb f.dev (slice (splice f.buf f.len (slice data 0 room)) 0 f.size) := by
        have happ := slice_splice_append f.buf f.len (slice data 0 room)
        rw [slice_length,show f.len + room = f.size by omega] at happ
        rw [Buffers,← hroom,or_iff_right hfit,happ]
      rw [hstep,hbuf]
      rcases writeBuffered_full (f := { f with buf := splice f.buf f.len (slice data 0 room), len := f.size }) cb m data
        room hd (show 0 < bytes - room by omega) (by dsimp only; omega) (by dsimp only; omega)
        with ⟨ha,g,hg,hfl⟩ | ⟨ha,g,hg,hfl⟩
      · rw [show room + (bytes - room) = bytes by omega] at hg
        exact ⟨g,bytes,hg,.inl ⟨ha,rfl,hfl⟩⟩
      · exact ⟨g,room,hg,.inr ⟨ha,by omega,hfl⟩⟩

theorem writeBuffered_stores (cb : Callbacks D) (fuel : Nat) (f : Bufio D) (data : Mem) (start bytes : Nat) :
    (Bufio.writeBuffered cb fuel f data start bytes).2 =
      start + (bufferedStores cb fuel f data start bytes).length := by
  induction fuel generalizing f start bytes with
  | zero => rfl
  | succ fuel ih =>
    rw [Bufio.writeBuffered,bufferedStores]
    dsimp only
    split_ifs
    · rfl
    · rfl
    · rw [ih,List.length_append,List.length_map,List.length_range,Nat.add_assoc]
    · rfl
    · rw [ih,List.length_append,List.length_map,List.length_range,Nat.add_assoc]

theorem writeDirect_takes (cb : Callbacks D) (fuel : Nat) (f : Bufio D) (data : Mem) (start bytes : Nat)
    (hb : bytes ≤ fuel) : ∃ g, Bufio.writeDirect cb fuel f data start bytes =
        (g,start + directAccepted cb fuel f.dev (slice data start bytes)) ∧
      ((Accepts cb f.dev (slice data start bytes) ∧ directAccepted cb fuel f.dev (slice data start bytes) = bytes ∧
          g.flags = f.flags) ∨
        (¬Accepts cb f.dev (slice data start bytes) ∧
          directAccepted cb fuel f.dev (slice data start bytes) < bytes ∧ g.flags = f.flags.orErr)) := by
  induction fuel generalizing f start bytes with
  | zero =>
    obtain rfl : bytes = 0 := by omega
    exact ⟨f,rfl,.inl ⟨.nil _,rfl,rfl⟩⟩
  | succ fuel ih =>
    rw [Bufio.writeDirect,directAccepted]
    by_cases h0 : bytes = 0
    · subst h0
      exact ⟨f,rfl,.inl ⟨.nil _,rfl,rfl⟩⟩
    · have hne : slice data start bytes ≠ [] := by
        rw [← List.length_pos_iff,slice_length]
        omega
      rw [if_neg h0,if_neg hne]
      rcases hw : cb.write f.dev (slice data start bytes) with ⟨d,_ | n⟩
      · exact ⟨_,rfl,.inr ⟨accepts_write hne hw,Nat.pos_of_ne_zero h0,rfl⟩⟩
      · dsimp only
        by_cases hn : n.val = 0
        · rw [if_pos hn,if_pos hn]
          exact ⟨_,rfl,.inr ⟨fun h => absurd (accepts_drop hne hw h).1 (by omega),Nat.pos_of_ne_zero h0,rfl⟩⟩
        · have hle : n.val ≤ bytes := by simpa using n.property
          obtain ⟨g,hg,hr⟩ := ih { f with dev := d, pos := f.pos + n.val } (start + n.val) (bytes - n.val) (by omega)
          dsimp only at hg hr
          rw [← slice_drop hle] at hg hr
          rw [if_neg hn,if_neg hn,hg]
          refine ⟨g,by rw [Nat.add_assoc],?_⟩
          rcases hr with ⟨ha,hk,hfl⟩ | ⟨ha,hk,hfl⟩
          · exact .inl ⟨.more hw (by omega) ha,by omega,hfl⟩
          · exact .inr ⟨fun h => ha (accepts_drop hne hw h).2,by omega,hfl⟩

end

section

variable {D σ : Type} (cfg : Build) (cb : Callbacks D) (put : σ → UInt8 → σ × Int)

inductive Output (D σ : Type) where
  | bufio (f : Bufio D)
  | plain (p : Plain σ)

def Output.flags : Output D σ → Flags
  | .bufio f => f.flags
  | .plain p => p.flags

def Output.fwrite (data : Mem) (size nmemb : Nat) : Output D σ → Output D σ × Nat
  | .bufio f =>
    let r := f.fwrite cfg cb data size nmemb
    (.bufio r.1,r.2)
  | .plain p =>
    let r := p.fwrite put data size nmemb
    (.plain r.1,r.2)

def fastAccepted (f : Bufio D) (data : Mem) (bytes : Nat) : Nat :=
  let g := (f.setdirLocked cb .wr).1
  if bytes < g.size then (bufferedStores cb (2 * bytes) g data 0 bytes).length else
  let r := g.flushLocked cb
  if 0 ≤ r.2 then directAccepted cb bytes r.1.dev (slice data 0 bytes) else 0

def Output.accepted (data : Mem) (size nmemb : Nat) : Output D σ → Nat
  | .bufio f =>
    if takesFast cfg f size nmemb then fastAccepted cb f data (size * nmemb) else
    putsAccepted (fun f c => f.put cb c) (size * nmemb) f data 0
  | .plain p => putsAccepted put (size * nmemb) p.st data 0

def FastReported (f : Bufio D) (data : Mem) (bytes : Nat) : Prop :=
  let g := (f.setdirLocked cb .wr).1
  if bytes < g.size then Buffers cb g data bytes ∨ Saturated f.flags else
  (Accepts cb g.dev (slice g.buf 0 g.len) ∧
    (Accepts cb (g.flushLocked cb).1.dev (slice data 0 bytes) ∨ Saturated f.flags)) ∨
  (¬Accepts cb g.dev (slice g.buf 0 g.len) ∧ f.flags.serr = true)

def Output.Reported (data : Mem) (size nmemb : Nat) : Output D σ → Prop
  | .bufio f =>
    if takesFast cfg f size nmemb then FastReported cb f data (size * nmemb) else
    AllPut (fun f c => f.put cb c) (size * nmemb) f data 0 ∨ f.flags.serr = true
  | .plain p => AllPut put (size * nmemb) p.st data 0 ∨ p.flags.serr = true

variable {cb}

theorem fwriteFast_reports (f : Bufio D) (data : Mem) {size nmemb : Nat} (hs : 1 ≤ size)
    (hb : 0 < size * nmemb) : let r := f.fwriteFast cb data (size * nmemb)
      Reports f.flags r.1.flags (r.2 / size) nmemb (fastAccepted cb f data (size * nmemb)) size ↔
        FastReported cb f data (size * nmemb) := by
  obtain ⟨g,heq,hd,-⟩ := Bufio.setdirLocked_wr_ok cb f
  have hfl : g.flags = f.flags := by
    have h := (Bufio.setdirLocked_marks cb f .wr).1
    rw [heq] at h
    exact h
  rw [Bufio.fwriteFast,fastAccepted,FastReported,heq]
  dsimp only
  by_cases hlt : size * nmemb < g.size
  · obtain ⟨k,n,hk,hn⟩ := writeBuffered_takes cb data hd hb hlt
    have hst := writeBuffered_stores cb (2 * (size * nmemb)) g data 0 (size * nmemb)
    rw [hk,Nat.zero_add] at hst
    rw [if_pos hlt,if_pos hlt,if_pos hlt,hk,← hst]
    dsimp only
    rcases hn with ⟨hbuf,hall,hkf⟩ | ⟨hbuf,hless,hkf⟩
    · rw [hkf,hfl,reports_same hs]
      exact iff_of_true (.inl hall.ge) (.inl hbuf)
    · rw [hkf,hfl,reports_or]
      exact (or_iff_right hbuf).symm
  · rw [if_neg hlt,if_neg hlt,if_neg hlt,← flushLocked_accepts cb hd]
    have hflush := (Bufio.flushLocked_marks cb g).1
    obtain ⟨d,p,r,hr,hcase⟩ := Bufio.flushLocked_wr cb hd
    rw [hr] at hflush ⊢
    rcases hcase with rfl | rfl
    · obtain ⟨k,hk,hn⟩ := writeDirect_takes cb (size * nmemb) { g with dev := d, pos := p, len := 0 } data 0
        (size * nmemb) le_rfl
      rw [if_pos le_rfl,if_pos le_rfl,hk,Nat.zero_add]
      dsimp only
      rw [and_iff_right rfl,or_iff_left (fun h => h.1 rfl)]
      rcases hn with ⟨ha,hall,hkf⟩ | ⟨ha,hless,hkf⟩
      · rw [hkf,hflush,hfl,reports_same hs]
        exact iff_of_true (.inl hall.ge) (.inl ha)
      · rw [hkf,hflush,hfl,reports_or]
        exact (or_iff_right ha).symm
    · have hneg : ¬(0 : Int) ≤ fdevErr := by decide
      have hne : ¬fdevErr = 0 := by decide
      rw [if_neg hneg,if_neg hneg]
      dsimp only
      rw [hflush,hfl,← Nat.zero_div size,reports_same hs,Nat.zero_div]
      simp [hne,hb.ne']

theorem loopItems_reports {τ : Type} (put : τ → UInt8 → τ × Int) (s : τ) (data : Mem) {size nmemb : Nat}
    (hs : 1 ≤ size) (fl : Flags) :
    Reports fl fl (loopItems put size nmemb s data 0).2 nmemb (putsAccepted put (size * nmemb) s data 0) size ↔
      AllPut put (size * nmemb) s data 0 ∨ fl.serr = true := by
  obtain ⟨hle,hall⟩ := putsAccepted_le (size * nmemb) s data 0 
  rw [loopItems_spec hs,Nat.zero_add,Nat.zero_mul,reports_same hs,← hall]
  constructor
  · exact fun h => h.imp_left (fun hge => hle.antisymm hge)
  · exact fun h => h.imp_left (fun heq => heq.ge)

variable (cb) in
theorem fwrite_reports_iff (s : Output D σ) (data : Mem) {size : Nat} (nmemb : Nat) (hw : s.flags.swr = true)
    (hs : 1 ≤ size) : let r := s.fwrite cfg cb put data size nmemb
      Reports s.flags r.1.flags r.2 nmemb (s.accepted cfg cb put data size nmemb) size ↔
        s.Reported cfg cb put data size nmemb := by
  have hgo : ∀ fl : Flags, fl.swr = true → ¬(fl.swr = false ∨ size = 0) := by
    intro fl hfl h
    rcases h with h | h
    · exact Bool.false_ne_true (h.symm.trans hfl)
    · omega
  cases s with
  | plain p =>
    have heq : p.fwrite put data size nmemb =
        ({ p with st := (loopItems put size nmemb p.st data 0).1 },(loopItems put size nmemb p.st data 0).2) := by
      rw [Plain.fwrite,if_neg (hgo p.flags hw)]
    simp only [Output.fwrite,Output.flags,Output.accepted,Output.Reported,heq]
    exact loopItems_reports put p.st data hs p.flags
  | bufio f =>
    have heq : f.fwrite cfg cb data size nmemb = if takesFast cfg f size nmemb then
        ((f.fwriteFast cb data (size * nmemb)).1,(f.fwriteFast cb data (size * nmemb)).2 / size)
        else Bufio.putItems cb size nmemb f data 0 := by
      rw [Bufio.fwrite,if_neg (hgo f.flags hw)]
      rfl
    simp only [Output.fwrite,Output.flags,Output.accepted,Output.Reported,heq]
    by_cases hfast : takesFast cfg f size nmemb
    · rw [if_pos hfast,if_pos hfast,if_pos hfast]
      exact fwriteFast_reports f data hs hfast.2.2.2.2
    · have hput : ∀ (g : Bufio D) (c : UInt8), g.flags = f.flags → (g.put cb c).1.flags = f.flags :=
        fun g c h => (Bufio.put_marks cb g c).1.trans h
      rw [if_neg hfast,if_neg hfast,if_neg hfast,putItems_eq,loopItems_preserves hput size nmemb rfl data 0]
      exact loopItems_reports _ f data hs f.flags

end

theorem fwrite_reports_iff_accepted :
    let s : Output Unit Unit := .bufio (fdevSetupBufio () (fun _ => 0) 4 false true ⟨false,false,false⟩)
    let r := s.fwrite ⟨true,false,64⟩ sink (fun s c => (s,c.toNat)) (fun _ => 65) 2 3
    Reports s.flags r.1.flags r.2 3 (s.accepted ⟨true,false,64⟩ sink (fun s c => (s,c.toNat)) (fun _ => 65) 2 3) 2 :=
  (fwrite_reports_iff ⟨true,false,64⟩ sink (fun s c => (s,c.toNat)) (.bufio
    (fdevSetupBufio () (fun _ => 0) 4 false true ⟨false,false,false⟩)) (fun _ => 65) 3 rfl (by decide)).mpr
    (.inl ⟨.nil _,.inl (.more rfl (by decide) (.nil _))⟩)

theorem fwrite_misreports :
    (let s : Output Unit Unit := .bufio (fdevSetupBufio () (fun _ => 0) 4 false true ⟨false,false,false⟩)
     let r := s.fwrite ⟨true,false,64⟩ refusing (fun s _ => (s,fdevErr)) (fun _ => 65) 4 1
     ¬Reports s.flags r.1.flags r.2 1 (s.accepted ⟨true,false,64⟩ refusing (fun s _ => (s,fdevErr)) (fun _ => 65) 4 1) 4) ∧
    (let s : Output Unit Unit := .plain ⟨⟨false,true,false,false,false,false,false,false⟩,()⟩
     let r := s.fwrite ⟨true,false,64⟩ refusing (fun s _ => (s,fdevErr)) (fun _ => 65) 1 1
     ¬Reports s.flags r.1.flags r.2 1 (s.accepted ⟨true,false,64⟩ refusing (fun s _ => (s,fdevErr)) (fun _ => 65) 1 1) 1) := by
  refine ⟨?_,?_⟩
  · intro s r h
    exact absurd h.kept (by decide)
  · intro s r h
    exact absurd (h.error (by decide)) (by decide)

end Stdio
