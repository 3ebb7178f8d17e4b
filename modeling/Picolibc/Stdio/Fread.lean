import Mathlib
import Picolibc.Stdio.Frames

namespace Stdio

open ByteMemory

inductive Item where
  | byte (b : UInt8)
  | eof
  | err
  deriving DecidableEq, Repr

def Item.result : Item → Int
  | .byte b => b.toNat
  | .eof => Stdio.eof
  | .err => Stdio.eof

def Item.mark (fl : Flags) : Item → Flags
  | .byte _ => fl
  | .eof => { fl with seof := true }
  | .err => { fl with serr := true }

def arrived {α : Type} (rest : α → Stream' Item) : α × Option (List UInt8) → Stream' Item
  | (a,none) => .cons .err (rest a)
  | (a,some []) => .cons .eof (rest a)
  | (a,some (b :: l)) => (b :: l).map .byte ++ₛ rest a

structure Source (D : Type) where
  cb : Callbacks D
  rest : D → Stream' Item
  reads : ∀ (d : D) (n : Nat), 0 < n →
    rest d = arrived rest ((cb.read d n).1,(cb.read d n).2.map Subtype.val)

structure Taken where
  bytes : List UInt8
  flags : Flags
  rest : Stream' Item

def takeItems : Nat → Flags → Stream' Item → Taken
  | 0, fl, s => ⟨[],fl,s⟩
  | n + 1, fl, s =>
    match s.head with
    | .byte b =>
      let r := takeItems n fl s.tail
      { r with bytes := b :: r.bytes }
    | .eof => ⟨[],Item.mark fl .eof,s.tail⟩
    | .err => ⟨[],Item.mark fl .err,s.tail⟩

theorem takeItems_append (l : List UInt8) (n : Nat) (fl : Flags) (s : Stream' Item) :
    takeItems (l.length + n) fl (l.map .byte ++ₛ s) =
      { takeItems n fl s with bytes := l ++ (takeItems n fl s).bytes } := by
  induction l with
  | nil =>
    rw [List.length_nil,Nat.zero_add]
    rfl
  | cons b l ih =>
    rw [List.length_cons,show l.length + 1 + n = (l.length + n) + 1 by omega,List.map_cons,Stream'.cons_append_stream,
      takeItems]
    rw [Stream'.head_cons,Stream'.tail_cons,ih]
    rfl

theorem takeItems_eof {n : Nat} (hn : n ≠ 0) (fl : Flags) (s : Stream' Item) :
    takeItems n fl (.cons .eof s) = ⟨[],Item.mark fl .eof,s⟩ := by
  obtain ⟨n,rfl⟩ := Nat.exists_eq_succ_of_ne_zero hn
  rfl

theorem takeItems_err {n : Nat} (hn : n ≠ 0) (fl : Flags) (s : Stream' Item) :
    takeItems n fl (.cons .err s) = ⟨[],Item.mark fl .err,s⟩ := by
  obtain ⟨n,rfl⟩ := Nat.exists_eq_succ_of_ne_zero hn
  rfl

section

variable {D : Type} (src : Source D)

def Bufio.pushed (f : Bufio D) : List UInt8 := if f.unget ≠ 0 then [(f.unget - 1).toUInt8] else []

def Bufio.buffered (f : Bufio D) : List UInt8 := slice f.buf f.off (f.len - f.off)

def upcoming (f : Bufio D) : Stream' Item := (f.pushed ++ f.buffered).map .byte ++ₛ src.rest f.dev

structure Ready (f : Bufio D) : Prop where
  readable : f.flags.srd = true
  size : 0 < f.size
  off : f.off ≤ f.len
  unwritten : f.dir = .wr → f.len = 0

def getcs (cb : Callbacks D) : Nat → Bufio D → List Int
  | 0, _ => []
  | n + 1, f =>
    let r := f.getc cb
    r.2 :: getcs cb n r.1

variable {src} {f : Bufio D}

theorem reads_bytes {d d' : D} {n : Nat} (hn : 0 < n) {l : { l : List UInt8 // l.length ≤ n }} (hl : l.val.length ≠ 0)
    (h : src.cb.read d n = (d',some l)) : src.rest d = l.val.map .byte ++ₛ src.rest d' := by
  have hr := src.reads d n hn
  rw [h] at hr
  obtain ⟨_ | ⟨b,l⟩,hlen⟩ := l
  · exact absurd rfl hl
  · exact hr

theorem reads_eof {d d' : D} {n : Nat} (hn : 0 < n) {l : { l : List UInt8 // l.length ≤ n }} (hl : l.val.length = 0)
    (h : src.cb.read d n = (d',some l)) : src.rest d = .cons .eof (src.rest d') := by
  have hr := src.reads d n hn
  rw [h] at hr
  obtain ⟨_ | ⟨b,l⟩,hlen⟩ := l
  · exact hr
  · exact absurd hl (by simp)

theorem reads_err {d d' : D} {n : Nat} (hn : 0 < n) (h : src.cb.read d n = (d',none)) :
    src.rest d = .cons .err (src.rest d') := by
  have hr := src.reads d n hn
  rw [h] at hr
  exact hr

theorem upcoming_drained (hu : f.unget = 0) (he : f.len ≤ f.off) : upcoming src f = src.rest f.dev := by
  rw [upcoming,Bufio.pushed,if_neg (by simp [hu]),Bufio.buffered,show f.len - f.off = 0 by omega]
  rfl

variable (src) in
theorem fillLocked_items (hf : Ready f) (hu : f.unget = 0) (he : f.len ≤ f.off) (hd : f.dir = .rd) :
    ∃ g r, f.fillLocked src.cb = (g,r) ∧ Ready g ∧ g.unget = 0 ∧ g.dir = .rd ∧ g.flags = f.flags ∧
      ((r = 0 ∧ g.off < g.len ∧ upcoming src f = upcoming src g) ∨
        (r = fdevEof ∧ upcoming src f = .cons .eof (upcoming src g)) ∨
        (r = fdevErr ∧ upcoming src f = .cons .err (upcoming src g))) := by
  have hnw : f.dir = .wr → False := fun h => absurd (hd.symm.trans h) (by decide)
  rw [upcoming_drained hu he,Bufio.fillLocked]
  rcases hres : src.cb.read f.dev f.size with ⟨d,_ | l⟩
  · refine ⟨_,_,rfl,⟨hf.readable,hf.size,Nat.le_refl 0,fun _ => rfl⟩,hu,hd,rfl,.inr (.inr ⟨rfl,?_⟩)⟩
    rw [upcoming_drained (f := { f with off := 0, len := 0, dev := d }) hu (Nat.le_refl 0)]
    exact reads_err hf.size hres
  · dsimp only
    by_cases hz : l.val.length = 0
    · rw [if_pos hz]
      refine ⟨_,_,rfl,⟨hf.readable,hf.size,Nat.le_refl 0,fun _ => rfl⟩,hu,hd,rfl,.inr (.inl ⟨rfl,?_⟩)⟩
      rw [upcoming_drained (f := { f with off := 0, len := 0, dev := d }) hu (Nat.le_refl 0)]
      exact reads_eof hf.size hz hres
    · rw [if_neg hz]
      refine ⟨_,_,rfl,⟨hf.readable,hf.size,Nat.zero_le _,fun h => (hnw h).elim⟩,hu,hd,rfl,.inl ⟨rfl,?_,?_⟩⟩
      · exact Nat.pos_of_ne_zero hz
      · rw [reads_bytes hf.size hz hres,upcoming,Bufio.pushed,if_neg (by simp [Bufio.filled,hu]),Bufio.buffered]
        dsimp only [Bufio.filled]
        rw [Nat.sub_zero,slice_splice,List.nil_append]

theorem take_items (hu : f.unget = 0) (hlt : f.off < f.len) :
    upcoming src f = .cons (.byte (f.buf f.off)) (upcoming src f.take.1) := by
  have hsplit : slice f.buf f.off (f.len - f.off) = f.buf f.off :: slice f.buf (f.off + 1) (f.len - (f.off + 1)) := by
    rw [show f.len - f.off = 1 + (f.len - (f.off + 1)) by omega,slice_add]
    rfl
  rw [upcoming,upcoming,Bufio.pushed,Bufio.pushed,Bufio.buffered,Bufio.buffered,hsplit]
  simp only [Bufio.take,hu,ne_eq,not_true_eq_false,if_false,List.nil_append,List.map_cons]
  rfl

variable (src) in
theorem get_items (hf : Ready f) (hu : f.unget = 0) : ∃ g r, f.get src.cb = (g,r) ∧ Ready g ∧ g.unget = 0 ∧
    g.flags = f.flags ∧
    ((∃ b, r = b.toNat ∧ upcoming src f = .cons (.byte b) (upcoming src g)) ∨
      (r = fdevEof ∧ upcoming src f = .cons .eof (upcoming src g)) ∨
      (r = fdevErr ∧ upcoming src f = .cons .err (upcoming src g))) := by
  have hup : upcoming src f = upcoming src { f with dir := .rd } := rfl
  have htake : ∀ g : Bufio D, Ready g → g.dir = .rd → g.off < g.len → Ready g.take.1 := fun g hg hd hlt =>
    ⟨hg.readable,hg.size,hlt,fun h => absurd (hd.symm.trans h) (by decide)⟩
  rw [Bufio.get,Bufio.setdirLocked_rd_empty _ hf.unwritten,hup]
  dsimp only
  rw [if_neg (lt_irrefl 0)]
  have hrd : Ready { f with dir := .rd } := ⟨hf.readable,hf.size,hf.off,fun h => (by cases h)⟩
  split_ifs with hle hne
  · obtain ⟨g,r,hg,hr,hgu,hgd,hgf,⟨rfl,-,-⟩ | hcase⟩ := fillLocked_items src hrd hu hle rfl
    · rw [hg] at hne
      exact absurd rfl hne
    · exact ⟨g,r,hg,hr,hgu,hgf,.inr hcase⟩
  · obtain ⟨g,r,hg,hr,hgu,hgd,hgf,⟨rfl,hlt,hi⟩ | ⟨rfl,-⟩ | ⟨rfl,-⟩⟩ := fillLocked_items src hrd hu hle rfl
    · rw [hg]
      exact ⟨_,_,rfl,htake g hr hgd hlt,hgu,hgf,.inl ⟨_,rfl,hi.trans (take_items hgu hlt)⟩⟩
    · rw [hg] at hne
      exact absurd (show fdevEof ≠ 0 by decide) hne
    · rw [hg] at hne
      exact absurd (show fdevErr ≠ 0 by decide) hne
  · exact ⟨_,_,rfl,htake _ hrd rfl (Nat.not_le.mp hle),hu,rfl,.inl ⟨_,rfl,take_items hu (Nat.not_le.mp hle)⟩⟩

variable (src) in
theorem getc_items (hf : Ready f) : ∃ x g, f.getc src.cb = (g,Item.result x) ∧ Ready g ∧ g.flags = x.mark f.flags ∧
    upcoming src f = .cons x (upcoming src g) := by
  rw [Bufio.getc,if_neg (by simp [hf.readable])]
  split_ifs with hu
  · refine ⟨.byte (f.unget - 1).toUInt8,_,rfl,⟨hf.readable,hf.size,hf.off,hf.unwritten⟩,rfl,?_⟩
    rw [upcoming,upcoming,Bufio.pushed,Bufio.pushed,if_pos hu,if_neg (by simp)]
    rfl
  · obtain ⟨g,r,hg,hr,hgu,hgf,⟨b,rfl,hi⟩ | ⟨rfl,hi⟩ | ⟨rfl,hi⟩⟩ := get_items src hf (not_not.mp hu)
    · have hlt := b.toNat_lt
      refine ⟨.byte b,g,?_,hr,hgf,hi⟩
      rw [hg]
      dsimp only
      rw [if_neg (by omega),Int.emod_eq_of_lt (by omega) (by omega)]
      rfl
    · refine ⟨.eof,g.setEof,?_,⟨hr.readable,hr.size,hr.off,hr.unwritten⟩,?_,hi⟩
      · rw [hg]
        rfl
      · rw [Bufio.setEof,hgf]
        rfl
    · refine ⟨.err,g.setErr,?_,⟨hr.readable,hr.size,hr.off,hr.unwritten⟩,?_,hi⟩
      · rw [hg]
        rfl
      · rw [Bufio.setErr,hgf]
        rfl

variable (src) in
theorem getItem_items (n : Nat) (got : List UInt8) (hf : Ready f) : ∃ g b,
    f.getItem src.cb n got = (g,got ++ (takeItems n f.flags (upcoming src f)).bytes,b) ∧ Ready g ∧
      g.flags = (takeItems n f.flags (upcoming src f)).flags ∧
      upcoming src g = (takeItems n f.flags (upcoming src f)).rest := by
  induction n generalizing f got with
  | zero => exact ⟨f,true,by rw [Bufio.getItem,takeItems,List.append_nil],hf,rfl,rfl⟩
  | succ n ih =>
    obtain ⟨x,g,hg,hr,hfl,hi⟩ := getc_items src hf
    rw [Bufio.getItem,hg,hi,takeItems,Stream'.head_cons,Stream'.tail_cons]
    cases x with
    | byte b =>
      obtain ⟨k,c,hk,hkr,hkf,hki⟩ := ih (got ++ [b]) hr
      have hne : ¬(Item.byte b).result = eof := by
        rw [Item.result,eof]
        omega
      have hfl' : g.flags = f.flags := hfl
      rw [hfl'] at hk hkf hki
      refine ⟨k,c,?_,hkr,hkf,hki⟩
      rw [if_neg hne]
      dsimp only [Item.result]
      rw [Int.toNat_natCast,UInt8.ofNat_toNat,hk,List.append_assoc]
      rfl
    | eof => exact ⟨g,false,by simp [Item.result],hr,hfl,rfl⟩
    | err => exact ⟨g,false,by simp [Item.result],hr,hfl,rfl⟩

variable (src) in
theorem getcs_items (n : Nat) (hf : Ready f) : getcs src.cb n f = ((upcoming src f).take n).map Item.result := by
  induction n generalizing f with
  | zero => rfl
  | succ n ih =>
    obtain ⟨x,g,hg,hr,-,hi⟩ := getc_items src hf
    rw [getcs,hg,hi,Stream'.take_succ,Stream'.head_cons,Stream'.tail_cons,List.map_cons]
    dsimp only
    rw [ih hr]

theorem buffered_split {k : Nat} (hk : k ≤ f.len - f.off) (hu : f.unget = 0) : upcoming src f =
    (slice f.buf f.off k).map .byte ++ₛ upcoming src { f with off := f.off + k } := by
  have hsplit : slice f.buf f.off (f.len - f.off) = slice f.buf f.off k ++ slice f.buf (f.off + k) (f.len - (f.off + k)) := by
    rw [← slice_add]
    congr 1
    omega
  rw [upcoming,upcoming,Bufio.pushed,Bufio.pushed,Bufio.buffered,Bufio.buffered,hsplit]
  simp only [hu,ne_eq,not_true_eq_false,if_false,List.nil_append,List.map_append,Stream'.append_append_stream]

variable (src) in
theorem readBlock_items (fuel bytes : Nat) (got : List UInt8) (hf : Ready f) (hu : f.unget = 0) (hd : f.dir = .rd)
    (hfuel : 2 * bytes ≤ fuel ∨ (f.off < f.len ∧ 2 * bytes ≤ fuel + 1)) : ∃ g,
      f.readBlock src.cb fuel bytes got = (g,got ++ (takeItems bytes f.flags (upcoming src f)).bytes) ∧ Ready g ∧
        g.flags = (takeItems bytes f.flags (upcoming src f)).flags ∧
        upcoming src g = (takeItems bytes f.flags (upcoming src f)).rest := by
  induction fuel generalizing f bytes got with
  | zero =>
    obtain rfl : bytes = 0 := by omega
    exact ⟨f,by rw [Bufio.readBlock,takeItems,List.append_nil],hf,rfl,rfl⟩
  | succ fuel ih =>
    rw [Bufio.readBlock]
    by_cases h0 : bytes = 0
    · rw [if_pos h0,h0]
      exact ⟨f,by rw [takeItems,List.append_nil],hf,rfl,rfl⟩
    · rw [if_neg h0]
      by_cases havail : f.len - f.off ≠ 0
      · rw [if_pos havail]
        obtain ⟨k,hk⟩ : ∃ k, k = min bytes (f.len - f.off) := ⟨_,rfl⟩
        have hr : Ready { f with off := f.off + k } :=
          ⟨hf.readable,hf.size,by dsimp only; omega,fun h => absurd (hd.symm.trans h) (by decide)⟩
        obtain ⟨g,hg,hgr,hgf,hgi⟩ := ih (bytes - k) (got ++ slice f.buf f.off k) hr hu hd (by omega)
        have htake := takeItems_append (slice f.buf f.off k) (bytes - k) f.flags
          (upcoming src { f with off := f.off + k })
        rw [← buffered_split (by omega) hu,slice_length,show k + (bytes - k) = bytes by omega] at htake
        rw [← hk,htake]
        exact ⟨g,by rw [hg,List.append_assoc],hgr,hgf,hgi⟩
      · rw [if_neg havail]
        have he : f.len ≤ f.off := by omega
        by_cases hsmall : bytes < f.size
        · rw [if_pos hsmall]
          obtain ⟨g,r,hg,hr,hgu,hgd,hgf,⟨rfl,hlt,hi⟩ | ⟨rfl,hi⟩ | ⟨rfl,hi⟩⟩ := fillLocked_items src hf hu he hd
          · obtain ⟨k,hk,hkr,hkf,hki⟩ := ih bytes got hr hgu hgd (.inr ⟨hlt,by omega⟩)
            rw [hg,hi,← hgf]
            exact ⟨k,hk,hkr,hkf,hki⟩
          · rw [hg,hi,takeItems_eof h0]
            exact ⟨g.setEof,by rw [List.append_nil]; rfl,⟨hr.readable,hr.size,hr.off,hr.unwritten⟩,by rw [Bufio.setEof,hgf]; rfl,rfl⟩
          · rw [hg,hi,takeItems_err h0]
            exact ⟨g.setErr,by rw [List.append_nil]; rfl,⟨hr.readable,hr.size,hr.off,hr.unwritten⟩,by rw [Bufio.setErr,hgf]; rfl,rfl⟩
        · rw [if_neg hsmall,upcoming_drained hu he]
          have hpos : 0 < bytes := Nat.pos_of_ne_zero h0
          have hempty : ∀ (d : D) (p : Int),
              upcoming src { f with len := 0, off := 0, dev := d, pos := p } = src.rest d := by
            intro d p
            exact upcoming_drained hu (Nat.le_refl 0)
          rcases hres : src.cb.read f.dev bytes with ⟨d,_ | l⟩
          · rw [reads_err hpos hres,takeItems_err h0]
            exact ⟨{ f with len := 0, off := 0, dev := d }.setErr,by rw [List.append_nil],
              ⟨hf.readable,hf.size,Nat.le_refl 0,fun _ => rfl⟩,rfl,hempty d f.pos⟩
          · dsimp only
            by_cases hz : l.val.length = 0
            · rw [if_pos hz,reads_eof hpos hz hres,takeItems_eof h0]
              exact ⟨{ f with len := 0, off := 0, dev := d }.setEof,by rw [List.append_nil],
                ⟨hf.readable,hf.size,Nat.le_refl 0,fun _ => rfl⟩,rfl,hempty d f.pos⟩
            · have hle := l.property
              have hr : Ready { f with len := 0, off := 0, dev := d, pos := f.pos + l.val.length } :=
                ⟨hf.readable,hf.size,Nat.le_refl 0,fun _ => rfl⟩
              obtain ⟨g,hg,hgr,hgf,hgi⟩ := ih (bytes - l.val.length) (got ++ l.val) hr hu hd (.inl (by omega))
              have htake := takeItems_append l.val (bytes - l.val.length) f.flags (src.rest d)
              rw [← reads_bytes hpos hz hres,show l.val.length + (bytes - l.val.length) = bytes by omega] at htake
              rw [hempty] at hg hgf hgi
              rw [if_neg hz,htake]
              exact ⟨g,by rw [hg,List.append_assoc],hgr,hgf,hgi⟩

variable (src) in
theorem freadFast_items {bytes : Nat} (hb : 0 < bytes) (hf : Ready f) : ∃ g,
    f.freadFast src.cb bytes = (g,(takeItems bytes f.flags (upcoming src f)).bytes) ∧ Ready g ∧
      g.flags = (takeItems bytes f.flags (upcoming src f)).flags ∧
      upcoming src g = (takeItems bytes f.flags (upcoming src f)).rest := by
  rw [Bufio.freadFast,Bufio.setdirLocked_rd_empty _ hf.unwritten]
  dsimp only
  split_ifs with hu
  · have hr : Ready { f with dir := .rd, unget := 0 } := ⟨hf.readable,hf.size,hf.off,fun h => (by cases h)⟩
    obtain ⟨g,hg,hgr,hgf,hgi⟩ := readBlock_items src (2 * bytes) (bytes - 1) [(f.unget - 1).toUInt8] hr rfl rfl
      (.inl (by omega))
    have hpush : upcoming src f =
        [(f.unget - 1).toUInt8].map .byte ++ₛ upcoming src { f with dir := .rd, unget := 0 } := by
      rw [upcoming,upcoming,Bufio.pushed,Bufio.pushed,if_pos hu,if_neg (by simp)]
      rfl
    have htake := takeItems_append [(f.unget - 1).toUInt8] (bytes - 1) f.flags
      (upcoming src { f with dir := .rd, unget := 0 })
    rw [← hpush,List.length_singleton,show 1 + (bytes - 1) = bytes by omega] at htake
    rw [htake]
    exact ⟨g,hg,hgr,hgf,hgi⟩
  · have hr : Ready { f with dir := .rd } := ⟨hf.readable,hf.size,hf.off,fun h => (by cases h)⟩
    exact readBlock_items src (2 * bytes) bytes [] hr (not_not.mp hu) rfl (.inl le_rfl)

theorem fread_block_eq_loop (cfg : Build) (src : Source D) (f : Bufio D) (size nmemb : Nat) (hf : Ready f)
    (hfast : cfg.fastBufio = true) (hbuf : f.flags.sbuf = true) (hmul : Bufio.mulOverflow cfg size nmemb = false) :
    let block := f.fread cfg src.cb size nmemb
    let loop := f.getItem src.cb (size * nmemb) []
    block.2.1 = loop.2.1 ∧ block.2.2 = loop.2.1.length / size ∧ block.1.flags = loop.1.flags ∧
      ∀ n, getcs src.cb n block.1 = getcs src.cb n loop.1 := by
  rw [Bufio.fread]
  by_cases hz : size * nmemb = 0
  · have hnone : (if f.flags.srd = false ∨ size = 0 then (f,[],0) else
        if f.blockRead cfg size nmemb then
          let r := f.freadFast src.cb (size * nmemb)
          (r.1,r.2,r.2.length / size)
        else f.getItems src.cb size nmemb [] 0) = (f,[],0) := by
      split_ifs with h1 h2
      · rfl
      · exact absurd h2.2.2.2 (by omega)
      · have hn : nmemb = 0 := (Nat.mul_eq_zero.mp hz).resolve_left (fun h => h1 (.inr h))
        rw [hn]
        rfl
    rw [hnone,hz]
    exact ⟨rfl,(Nat.zero_div size).symm,rfl,fun _ => rfl⟩
  · have hgo : ¬(f.flags.srd = false ∨ size = 0) := by
      rintro (h | h)
      · exact Bool.false_ne_true (h.symm.trans hf.readable)
      · exact hz (by rw [h,Nat.zero_mul])
    obtain ⟨g,hg,hgr,hgf,hgi⟩ := freadFast_items src (Nat.pos_of_ne_zero hz) hf
    obtain ⟨k,b,hk,hkr,hkf,hki⟩ := getItem_items src (size * nmemb) [] hf
    rw [if_neg hgo,if_pos ⟨hfast,hbuf,hmul,Nat.pos_of_ne_zero hz⟩,hg,hk]
    refine ⟨rfl,rfl,hgf.trans hkf.symm,?_⟩
    intro n
    rw [getcs_items src n hgr,getcs_items src n hkr,hgi,hki]

end

def pairwise : Callbacks (List UInt8) where
  read := fun d n => (d.drop (min 2 n),some ⟨d.take (min 2 n),by simp⟩)
  write := fun d _ => (d,none)
  lseek := none
  close := none

def pairwiseSource : Source (List UInt8) where
  cb := pairwise
  rest := fun d => d.map .byte ++ₛ Stream'.const .eof
  reads := by
    intro d n hn
    dsimp only [pairwise,Option.map_some]
    obtain ⟨k,hk⟩ : ∃ k, min 2 n = k + 1 := ⟨min 2 n - 1,by omega⟩
    rw [hk]
    cases d with
    | nil => exact Stream'.const_eq Item.eof
    | cons b d =>
      rw [List.take_succ_cons,List.drop_succ_cons,arrived,← Stream'.append_append_stream,← List.map_append,
        List.cons_append,List.take_append_drop]

theorem fread_block_eq_loop_pairs :
    let f := { fdevSetupBufio [2,3,4,5] (fun _ => 0) 3 true false ⟨false,false,false⟩ with unget := 2 }
    (f.fread ⟨true,false,64⟩ pairwise 2 3).2.1 = [1,2,3,4,5] ∧ (f.fread ⟨true,false,64⟩ pairwise 2 3).2.2 = 2 ∧
      (f.fread ⟨true,false,64⟩ pairwise 2 3).1.flags.seof = true := by
  have h := fread_block_eq_loop ⟨true,false,64⟩ pairwiseSource
    { fdevSetupBufio [2,3,4,5] (fun _ => 0) 3 true false ⟨false,false,false⟩ with unget := 2 } 2 3
    ⟨rfl,by decide,le_rfl,fun h => (by cases h)⟩ rfl rfl (by decide)
  exact ⟨h.1.trans (by decide),h.2.1.trans (by decide),(congrArg Flags.seof h.2.2.1).trans (by decide)⟩

end Stdio
