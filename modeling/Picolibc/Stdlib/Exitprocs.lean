import Mathlib
import Picolibc.Lib.Simulation

namespace Exitprocs

open Simulation

inductive Kind where
  | empty
  | onexit
  | atexit
  | cxaAtexit
deriving DecidableEq,Repr

structure OnExit where
  func : Nat
  arg : Nat
  kind : Kind
deriving DecidableEq,Repr

def OnExit.zero : OnExit := ⟨0,0,.empty⟩

def claimSlot (entry : OnExit) : List OnExit → Option (List OnExit)
  | [] => none
  | slot :: rest =>
    if slot.kind = .empty then some (entry :: rest) else (claimSlot entry rest).map (slot :: ·)

def onExitSlot (onExits : List OnExit) (kind : Kind) (func arg : Nat) : List OnExit × Int :=
  match claimSlot ⟨func,arg,kind⟩ onExits with
  | some onExits => (onExits,0)
  | none => (onExits,-1)

def atexit (onExits : List OnExit) (func : Nat) : List OnExit × Int := onExitSlot onExits .atexit func 0

def onExit (onExits : List OnExit) (func arg : Nat) : List OnExit × Int := onExitSlot onExits .onexit func arg

def cxaAtexit (onExits : List OnExit) (func arg _d : Nat) : List OnExit × Int :=
  onExitSlot onExits .cxaAtexit func arg

def drainSlot : Nat → List OnExit → Option (OnExit × List OnExit)
  | 0, _ => none
  | i + 1, onExits =>
    let slot := onExits.getD i .zero
    if slot.kind ≠ .empty then some (slot,onExits.set i .zero) else drainSlot i onExits

inductive Call where
  | onexit (func : Nat) (code : Int) (arg : Nat)
  | atexit (func : Nat)
  | cxaAtexit (func arg : Nat)
deriving DecidableEq,Repr

def dispatch (code : Int) (slot : OnExit) : Option Call :=
  match slot.kind with
  | .empty => none
  | .onexit => some (.onexit slot.func code slot.arg)
  | .atexit => some (.atexit slot.func)
  | .cxaAtexit => some (.cxaAtexit slot.func slot.arg)

inductive Registration where
  | atexit (func : Nat)
  | onExit (func arg : Nat)
  | cxaAtexit (func arg d : Nat)

def Registration.apply (onExits : List OnExit) : Registration → List OnExit × Int
  | .atexit func => Exitprocs.atexit onExits func
  | .onExit func arg => Exitprocs.onExit onExits func arg
  | .cxaAtexit func arg d => Exitprocs.cxaAtexit onExits func arg d

inductive Event where
  | register (r : Registration)
  | turn

inductive Report where
  | ret (r : Int)
  | calls (c : Call)
  | returns
deriving DecidableEq,Repr

def turn (code : Int) (onExits : List OnExit) : List OnExit × Report :=
  match drainSlot onExits.length onExits with
  | none => (onExits,.returns)
  | some (slot,onExits) =>
    match dispatch code slot with
    | none => (onExits,.returns)
    | some c => (onExits,.calls c)

def step (code : Int) (onExits : List OnExit) : Event → List OnExit × Report
  | .register r => let q := r.apply onExits; (q.1,.ret q.2)
  | .turn => turn code onExits

def registerAll (onExits : List OnExit) (rs : List Registration) : List OnExit :=
  rs.foldl (fun t r => (r.apply t).1) onExits

def callExitprocs (code : Int) (handler : List Call → List Registration) :
    Nat → List OnExit → List Call → Option (List OnExit × List Call)
  | 0, _, _ => none
  | fuel + 1, onExits, log =>
    match turn code onExits with
    | (onExits,.calls c) =>
      callExitprocs code handler fuel (registerAll onExits (handler (log ++ [c]))) (log ++ [c])
    | (onExits,_) => some (onExits,log)

def loopEvents (code : Int) (handler : List Call → List Registration) :
    Nat → List OnExit → List Call → List Event
  | 0, _, _ => []
  | fuel + 1, onExits, log =>
    match turn code onExits with
    | (onExits,.calls c) =>
      .turn :: ((handler (log ++ [c])).map .register ++
        loopEvents code handler fuel (registerAll onExits (handler (log ++ [c]))) (log ++ [c]))
    | (_,_) => [.turn]

def Registration.call (code : Int) : Registration → Call
  | .atexit func => .atexit func
  | .onExit func arg => .onexit func code arg
  | .cxaAtexit func arg _ => .cxaAtexit func arg

structure Record where
  registered : List Call
  called : List Nat

def Record.uncalled (r : Record) : List Nat := (List.range r.registered.length).filter (· ∉ r.called)

def Record.step (n : Nat) (code : Int) (r : Record) : Event → Record × Report
  | .register h =>
    if r.uncalled.length < n then ({ r with registered := r.registered ++ [h.call code] },.ret 0)
    else (r,.ret (-1))
  | .turn =>
    match r.uncalled.getLast? with
    | none => (r,.returns)
    | some i => ({ r with called := r.called ++ [i] },(r.registered[i]?).elim .returns .calls)

structure Laid (n : Nat) (code : Int) (onExits : List OnExit) (r : Record) (l : List OnExit) : Prop where
  table : onExits = l ++ List.replicate (n - l.length) .zero
  room : l.length ≤ n
  occupied : ∀ s ∈ l, s.kind ≠ .empty
  matching : l.map (dispatch code) = r.uncalled.map (fun i => r.registered[i]?)
  once : r.called.Nodup
  known : ∀ i ∈ r.called, i < r.registered.length

variable {n : Nat} {code : Int} {onExits l : List OnExit} {r : Record}

theorem claimSlot_occupied (h : ∀ s ∈ l, s.kind ≠ .empty) (entry : OnExit) (t : List OnExit) :
    claimSlot entry (l ++ t) = (claimSlot entry t).map (l ++ ·) := by
  induction l with
  | nil => simp
  | cons s l ih =>
    rw [List.cons_append,claimSlot,if_neg (h s List.mem_cons_self),
      ih (fun x hx => h x (List.mem_cons_of_mem s hx)),Option.map_map]
    rfl

theorem drainSlot_skips {k m : Nat} (hk : k ≤ m) :
    drainSlot (l.length + k) (l ++ List.replicate m .zero) = drainSlot l.length (l ++ List.replicate m .zero) := by
  induction k with
  | zero => rfl
  | succ k ih =>
    have hzero : (l ++ List.replicate m OnExit.zero).getD (l.length + k) .zero = .zero := by
      simp [List.getD_eq_getElem?_getD,show k < m by omega]
    rw [← Nat.add_assoc,drainSlot,hzero]
    exact ih (by omega)

theorem drainSlot_last {s : OnExit} (hs : s.kind ≠ .empty) (m : Nat) :
    drainSlot (l ++ [s]).length (l ++ [s] ++ List.replicate m .zero) =
      some (s,l ++ List.replicate (m + 1) .zero) := by
  have hget : (l ++ [s] ++ List.replicate m OnExit.zero).getD l.length .zero = s := by simp
  rw [List.length_append,List.length_singleton,drainSlot,hget,if_pos hs]
  simp [List.replicate_succ]

theorem Laid.size (h : Laid n code onExits r l) : onExits.length = n := by
  have := h.room
  rw [h.table,List.length_append,List.length_replicate]
  omega

theorem Laid.count (h : Laid n code onExits r l) : l.length = r.uncalled.length := by
  simpa using congrArg List.length h.matching

theorem Laid.prefix_slots (h : Laid n code onExits r l) :
    ∀ i slot, onExits[i]? = some slot → (slot.kind ≠ .empty ↔ i < r.uncalled.length) := by
  intro i slot hslot
  rw [h.table] at hslot
  rw [← h.count]
  by_cases hi : i < l.length
  · rw [List.getElem?_append_left hi,List.getElem?_eq_getElem hi,Option.some.injEq] at hslot
    exact iff_of_true (hslot ▸ h.occupied _ (List.getElem_mem hi)) hi
  · rw [List.getElem?_append_right (by omega),List.getElem?_replicate] at hslot
    split at hslot
    · rw [Option.some.injEq] at hslot
      exact iff_of_false (fun hk => hk (hslot ▸ rfl)) hi
    · exact absurd hslot (by simp)

theorem uncalled_mem {i : Nat} : i ∈ r.uncalled ↔ i < r.registered.length ∧ i ∉ r.called := by
  simp [Record.uncalled]

theorem uncalled_register (hknown : ∀ i ∈ r.called, i < r.registered.length) (c : Call) :
    Record.uncalled { r with registered := r.registered ++ [c] } = r.uncalled ++ [r.registered.length] := by
  have hnew : r.registered.length ∉ r.called := fun h => absurd (hknown _ h) (lt_irrefl _)
  rw [Record.uncalled,List.length_append,List.length_singleton,List.range_succ,List.filter_append]
  simp [Record.uncalled,hnew]

theorem uncalled_call {i : Nat} {rest : List Nat} (h : r.uncalled = rest ++ [i]) :
    Record.uncalled { r with called := r.called ++ [i] } = rest := by
  have hnodup : r.uncalled.Nodup := List.nodup_range.filter _
  have hi : i ∉ rest := by
    rw [h,List.nodup_append] at hnodup
    exact fun hr => hnodup.2.2 i hr i (by simp) rfl
  have hfilter : Record.uncalled { r with called := r.called ++ [i] } = r.uncalled.filter (· ≠ i) := by
    rw [Record.uncalled,Record.uncalled,List.filter_filter]
    congr 1
    funext j
    simp [and_comm]
  rw [hfilter,h,List.filter_append]
  simp only [ne_eq,decide_not,List.filter_cons,decide_true,Bool.not_true,Bool.false_eq_true,if_false,List.filter_nil,
    List.append_nil]
  refine List.filter_eq_self.mpr (fun j hj => ?_)
  have hne : j ≠ i := by
    rintro rfl
    exact hi hj
  simpa using hne

theorem apply_eq (code : Int) (h : Registration) (onExits : List OnExit) :
    ∃ entry, entry.kind ≠ .empty ∧ dispatch code entry = some (h.call code) ∧
      h.apply onExits = match claimSlot entry onExits with
        | some t => (t,0)
        | none => (onExits,-1) := by
  cases h with
  | atexit func => exact ⟨⟨func,0,.atexit⟩,by simp,rfl,rfl⟩
  | onExit func arg => exact ⟨⟨func,arg,.onexit⟩,by simp,rfl,rfl⟩
  | cxaAtexit func arg d => exact ⟨⟨func,arg,.cxaAtexit⟩,by simp,rfl,rfl⟩

def Holds (n : Nat) (code : Int) (onExits : List OnExit) (r : Record) : Prop := ∃ l, Laid n code onExits r l

theorem register_holds (h : Laid n code onExits r l) (g : Registration) :
    Holds n code (g.apply onExits).1 (r.step n code (.register g)).1 ∧
      Report.ret (g.apply onExits).2 = (r.step n code (.register g)).2 := by
  obtain ⟨entry,hkind,hcall,happly⟩ := apply_eq code g onExits
  have hclaim := claimSlot_occupied h.occupied entry (List.replicate (n - l.length) .zero)
  rw [← h.table] at hclaim
  rw [happly,Record.step,← h.count]
  by_cases hroom : l.length < n
  · obtain ⟨m,hm⟩ : ∃ m, n - l.length = m + 1 := ⟨n - l.length - 1,by omega⟩
    have hsome : claimSlot entry onExits = some (l ++ entry :: List.replicate m .zero) := by
      rw [hclaim,hm,List.replicate_succ,claimSlot,if_pos (show OnExit.zero.kind = .empty from rfl)]
      rfl
    rw [hsome,if_pos hroom]
    refine ⟨⟨l ++ [entry],?_,?_,?_,?_,h.once,?_⟩,rfl⟩
    · rw [List.length_append,List.length_singleton,show n - (l.length + 1) = m by omega]
      simp
    · rw [List.length_append,List.length_singleton]
      omega
    · intro s hs
      rcases List.mem_append.mp hs with hs | hs
      · exact h.occupied s hs
      · rw [List.mem_singleton.mp hs]
        exact hkind
    · rw [uncalled_register h.known,List.map_append,List.map_append,List.map_singleton,List.map_singleton,hcall,
        h.matching]
      have hold : ∀ i ∈ r.uncalled, r.registered[i]? = (r.registered ++ [g.call code])[i]? := fun i hi =>
        (List.getElem?_append_left (uncalled_mem.mp hi).1).symm
      rw [List.map_congr_left hold]
      simp
    · intro i hi
      have := h.known i hi
      simp only [List.length_append,List.length_singleton]
      omega
  · have hfull : n - l.length = 0 := by omega
    have hnone : claimSlot entry onExits = none := by rw [hclaim,hfull]; rfl
    rw [hnone,if_neg hroom]
    exact ⟨⟨l,h⟩,rfl⟩

theorem turn_holds (h : Laid n code onExits r l) :
    Holds n code (turn code onExits).1 (r.step n code .turn).1 ∧ (turn code onExits).2 = (r.step n code .turn).2 := by
  have hdrain : drainSlot onExits.length onExits = drainSlot l.length (l ++ List.replicate (n - l.length) .zero) := by
    calc drainSlot onExits.length onExits
        = drainSlot (l.length + (n - l.length)) (l ++ List.replicate (n - l.length) .zero) := by
          rw [Nat.add_sub_cancel' h.room,h.size,← h.table]
      _ = _ := drainSlot_skips (le_refl _)
  rcases List.eq_nil_or_concat r.uncalled with hnil | ⟨rest,i,hlast⟩
  · have hl : l = [] := List.eq_nil_of_length_eq_zero (by rw [h.count,hnil]; rfl)
    have hnone : drainSlot onExits.length onExits = none := by rw [hdrain,hl]; rfl
    have hstep : r.step n code .turn = (r,.returns) := by rw [Record.step,hnil]; rfl
    have hturn : turn code onExits = (onExits,.returns) := by rw [turn,hnone]
    rw [hstep,hturn]
    exact ⟨⟨l,h⟩,rfl⟩
  · rw [List.concat_eq_append] at hlast
    have hmatch := h.matching
    rw [hlast,List.map_append,List.map_singleton] at hmatch
    obtain ⟨l',last,rfl,hrest,hone⟩ := List.map_eq_append_iff.mp hmatch
    obtain ⟨s,rfl,hs⟩ := List.map_eq_singleton_iff.mp hone
    have hi := (uncalled_mem.mp (show i ∈ r.uncalled by rw [hlast]; simp))
    have hget : r.registered[i]? = some r.registered[i] := List.getElem?_eq_getElem hi.1
    rw [drainSlot_last (h.occupied s (by simp))] at hdrain
    have hturn : turn code onExits =
        (l' ++ List.replicate (n - (l' ++ [s]).length + 1) .zero,.calls r.registered[i]) := by
      rw [turn,hdrain]
      simp only [hs,hget]
    have hstep : r.step n code .turn = ({ r with called := r.called ++ [i] },.calls r.registered[i]) := by
      rw [Record.step,hlast,List.getLast?_append]
      simp [hget]
    have hroom := h.room
    rw [List.length_append,List.length_singleton] at hroom
    rw [hturn,hstep]
    refine ⟨⟨l',?_,by omega,fun x hx => h.occupied x (List.mem_append_left _ hx),?_,?_,?_⟩,rfl⟩
    · rw [List.length_append,List.length_singleton,show n - (l'.length + 1) + 1 = n - l'.length by omega]
    · rw [uncalled_call hlast]
      exact hrest
    · exact List.nodup_append.mpr ⟨h.once,List.nodup_singleton i,
        fun a ha b hb e => hi.2 (by rw [← List.mem_singleton.mp hb,← e]; exact ha)⟩
    · intro j hj
      rcases List.mem_append.mp hj with hj | hj
      · exact h.known j hj
      · rw [List.mem_singleton.mp hj]
        exact hi.1

theorem step_holds (h : Holds n code onExits r) (e : Event) :
    Holds n code (step code onExits e).1 (r.step n code e).1 ∧ (step code onExits e).2 = (r.step n code e).2 := by
  obtain ⟨l,hl⟩ := h
  cases e with
  | register g => exact register_holds hl g
  | turn => exact turn_holds hl

theorem empty_holds (n : Nat) (code : Int) : Holds n code (List.replicate n .zero) ⟨[],[]⟩ :=
  ⟨[],rfl,Nat.zero_le n,by simp,rfl,List.nodup_nil,by simp⟩

theorem run_holds (n : Nat) (code : Int) (es : List Event) :
    Holds n code (run (step code) (List.replicate n .zero) es).1 (run (Record.step n code) ⟨[],[]⟩ es).1 ∧
      (run (step code) (List.replicate n .zero) es).2 = (run (Record.step n code) ⟨[],[]⟩ es).2 :=
  @run_simulates (List OnExit) Record Event Report (step code) (Record.step n code) (fun _ _ => True) (Holds n code)
    (fun _ _ e h _ => step_holds h e) _ _ es (empty_holds n code) (along_of_mem (fun _ _ => trivial))

def Record.calls (r : Record) : List (Option Call) := r.called.map (fun i => r.registered[i]?)

def Record.after (n : Nat) (code : Int) (r : Record) (es : List Event) : Record := (run (Record.step n code) r es).1

theorem after_append (es fs : List Event) : r.after n code (es ++ fs) = (r.after n code es).after n code fs := by
  rw [Record.after,run_append]
  rfl

theorem register_calls (h : Holds n code onExits r) (g : Registration) :
    (r.step n code (.register g)).1.calls = r.calls := by
  obtain ⟨l,hl⟩ := h
  rw [Record.step]
  split
  · refine List.map_congr_left (fun i hi => ?_)
    exact List.getElem?_append_left (hl.known i hi)
  · rfl

theorem registerAll_holds (h : Holds n code onExits r) (rs : List Registration) :
    Holds n code (registerAll onExits rs) (r.after n code (rs.map .register)) ∧
      (r.after n code (rs.map .register)).calls = r.calls := by
  induction rs generalizing onExits r with
  | nil => exact ⟨h,rfl⟩
  | cons g rs ih =>
    have hg := (step_holds h (.register g)).1
    obtain ⟨h1,h2⟩ := ih hg
    exact ⟨h1,h2.trans (register_calls h g)⟩

theorem turn_calls {c : Call} (h : Holds n code onExits r) (hc : (turn code onExits).2 = .calls c) :
    Holds n code (turn code onExits).1 (r.step n code .turn).1 ∧
      (r.step n code .turn).1.calls = r.calls ++ [some c] := by
  obtain ⟨hnext,hrep⟩ := step_holds h .turn
  refine ⟨hnext,?_⟩
  have hrep : (turn code onExits).2 = (r.step n code .turn).2 := hrep
  rw [hc,Record.step] at hrep
  rw [Record.step]
  cases hlast : r.uncalled.getLast? with
  | none => simp [hlast] at hrep
  | some i =>
    simp only [hlast] at hrep ⊢
    cases hget : r.registered[i]? with
    | none => simp [hget] at hrep
    | some d =>
      have hd : c = d := by simpa [hget] using hrep
      simp [Record.calls,hget,hd]

theorem Holds.within (h : Holds n code onExits r) : r.uncalled.length ≤ n := by
  obtain ⟨l,hl⟩ := h
  rw [← hl.count]
  exact hl.room

theorem turn_shrinks {c : Call} (h : Holds n code onExits r) (hc : (turn code onExits).2 = .calls c) :
    (r.step n code .turn).1.uncalled.length + 1 = r.uncalled.length := by
  have hrep : (turn code onExits).2 = (r.step n code .turn).2 := (step_holds h .turn).2
  rcases List.eq_nil_or_concat r.uncalled with hnil | ⟨rest,i,hlast⟩
  · rw [hc,Record.step,hnil] at hrep
    exact absurd hrep (by simp)
  · rw [List.concat_eq_append] at hlast
    have hstep : (r.step n code .turn).1 = { r with called := r.called ++ [i] } := by
      rw [Record.step,hlast,List.getLast?_append]
      rfl
    rw [hstep,uncalled_call hlast,hlast,List.length_append,List.length_singleton]

theorem turn_returns (h : Holds n code onExits r) (hc : ∀ c, (turn code onExits).2 ≠ .calls c) :
    (r.step n code .turn).1 = r ∧ r.uncalled = [] := by
  have hrep : (turn code onExits).2 = (r.step n code .turn).2 := (step_holds h .turn).2
  rcases List.eq_nil_or_concat r.uncalled with hnil | ⟨rest,i,hlast⟩
  · exact ⟨by rw [Record.step,hnil]; rfl,hnil⟩
  · rw [List.concat_eq_append] at hlast
    have hi := (uncalled_mem.mp (show i ∈ r.uncalled by rw [hlast]; simp)).1
    have hcall : (r.step n code .turn).2 = .calls r.registered[i] := by
      rw [Record.step,hlast,List.getLast?_append]
      simp [hi]
    exact absurd (hrep.trans hcall) (hc _)

theorem called_perm (h : Holds n code onExits r) (hnil : r.uncalled = []) :
    r.called.Perm (List.range r.registered.length) := by
  obtain ⟨l,hl⟩ := h
  refine (List.perm_ext_iff_of_nodup hl.once List.nodup_range).mpr (fun i => ?_)
  rw [List.mem_range]
  refine ⟨hl.known i,fun hi => ?_⟩
  by_contra hcalled
  have := uncalled_mem.mpr ⟨hi,hcalled⟩
  rw [hnil] at this
  exact List.not_mem_nil this

theorem loop_calls {handler : List Call → List Registration} {fuel : Nat} {log log' : List Call} {t' : List OnExit}
    (h : Holds n code onExits r) (hlog : log.map some = r.calls)
    (hloop : callExitprocs code handler fuel onExits log = some (t',log')) :
    Holds n code t' (r.after n code (loopEvents code handler fuel onExits log)) ∧
      log'.map some = (r.after n code (loopEvents code handler fuel onExits log)).calls ∧
      (r.after n code (loopEvents code handler fuel onExits log)).uncalled = [] := by
  induction fuel generalizing onExits r log with
  | zero => exact absurd hloop (by simp [callExitprocs])
  | succ fuel ih =>
    rcases hturn : turn code onExits with ⟨t1,rep⟩
    by_cases hcalls : ∃ c, rep = .calls c
    · obtain ⟨c,rfl⟩ := hcalls
      obtain ⟨h1,hc1⟩ := turn_calls h (by rw [hturn])
      obtain ⟨h2,hc2⟩ := registerAll_holds h1 (handler (log ++ [c]))
      rw [hturn] at h2
      simp only [callExitprocs,hturn] at hloop
      have hnext := ih h2 (by rw [hc2,hc1,← hlog,List.map_append,List.map_singleton]) hloop
      simp only [loopEvents,hturn]
      rw [show ∀ es, r.after n code (.turn :: es) = ((r.step n code .turn).1).after n code es from fun _ => rfl,
        after_append]
      exact hnext
    · have hend := turn_returns h (fun c hc => hcalls ⟨c,by rw [hturn] at hc; exact hc⟩)
      have hholds := (step_holds h .turn).1
      have hstep : (step code onExits .turn).1 = t1 := congrArg Prod.fst hturn
      cases rep with
      | calls c => exact absurd ⟨c,rfl⟩ hcalls
      | ret x =>
        simp only [callExitprocs,hturn,Option.some.injEq,Prod.mk.injEq] at hloop
        obtain ⟨rfl,rfl⟩ := hloop
        simp only [loopEvents,hturn]
        rw [show r.after n code [.turn] = (r.step n code .turn).1 from rfl,← hstep]
        exact ⟨hholds,by rw [hend.1,hlog],by rw [hend.1]; exact hend.2⟩
      | returns =>
        simp only [callExitprocs,hturn,Option.some.injEq,Prod.mk.injEq] at hloop
        obtain ⟨rfl,rfl⟩ := hloop
        simp only [loopEvents,hturn]
        rw [show r.after n code [.turn] = (r.step n code .turn).1 from rfl,← hstep]
        exact ⟨hholds,by rw [hend.1,hlog],by rw [hend.1]; exact hend.2⟩

theorem loop_ends {handler : List Call → List Registration} {m : Nat} (hm : ∀ log, m ≤ log.length → handler log = [])
    {fuel : Nat} {log : List Call} (h : Holds n code onExits r)
    (hfuel : (m - log.length) * (n + 1) + r.uncalled.length < fuel) :
    ∃ q, callExitprocs code handler fuel onExits log = some q := by
  induction fuel generalizing onExits r log with
  | zero => exact absurd hfuel (Nat.not_lt_zero _)
  | succ fuel ih =>
    rcases hturn : turn code onExits with ⟨t1,rep⟩
    cases rep with
    | ret x => exact ⟨(t1,log),by simp only [callExitprocs,hturn]⟩
    | returns => exact ⟨(t1,log),by simp only [callExitprocs,hturn]⟩
    | calls c =>
      obtain ⟨h1,-⟩ := turn_calls h (by rw [hturn])
      rw [hturn] at h1
      have hshrinks := turn_shrinks h (c := c) (by rw [hturn])
      obtain ⟨h2,-⟩ := registerAll_holds h1 (handler (log ++ [c]))
      have hlen : (log ++ [c]).length = log.length + 1 := by simp
      simp only [callExitprocs,hturn]
      refine ih h2 ?_
      rw [hlen]
      by_cases hlog : log.length < m
      · have hwithin := h2.within
        obtain ⟨k,hk⟩ : ∃ k, m - log.length = k + 1 := ⟨m - log.length - 1,by omega⟩
        rw [hk,Nat.add_mul] at hfuel
        rw [show m - (log.length + 1) = k by omega]
        omega
      · rw [hm (log ++ [c]) (by omega),show m - (log.length + 1) = 0 by omega]
        have hsame : ((r.step n code .turn).1.after n code (List.map .register [])) = (r.step n code .turn).1 := rfl
        rw [hsame]
        omega

theorem handlers_lifo (n : Nat) (code : Int) :
    (∀ es : List Event,
      let s := run (step code) (List.replicate n .zero) es
      let r := run (Record.step n code) ⟨[],[]⟩ es
      s.2 = r.2 ∧ s.1.length = n ∧ r.1.called.Nodup ∧ (∀ i ∈ r.1.called, i < r.1.registered.length) ∧
        ∀ i slot, s.1[i]? = some slot → (slot.kind ≠ .empty ↔ i < r.1.uncalled.length)) ∧
    ∀ (rs : List Registration) (handler : List Call → List Registration),
      (∀ fuel onExits log,
        callExitprocs code handler fuel (registerAll (List.replicate n .zero) rs) [] = some (onExits,log) →
        let r := Record.after n code ⟨[],[]⟩ (rs.map .register ++
          loopEvents code handler fuel (registerAll (List.replicate n .zero) rs) [])
        log.map some = r.called.map (fun i => r.registered[i]?) ∧ r.called.Perm (List.range r.registered.length)) ∧
      ∀ m, (∀ log, m ≤ log.length → handler log = []) →
        ∃ fuel q, callExitprocs code handler fuel (registerAll (List.replicate n .zero) rs) [] = some q := by
  refine ⟨fun es => ?_,fun rs handler => ?_⟩
  · obtain ⟨⟨l,hl⟩,hout⟩ := run_holds n code es
    exact ⟨hout,hl.size,hl.once,hl.known,hl.prefix_slots⟩
  · obtain ⟨hstart,hcalls⟩ := registerAll_holds (empty_holds n code) rs
    refine ⟨fun fuel onExits log hloop => ?_,fun m hm => ?_⟩
    · have hempty : List.map some ([] : List Call) = (Record.after n code ⟨[],[]⟩ (rs.map .register)).calls :=
        hcalls.symm
      obtain ⟨hend,hlog,hnil⟩ := loop_calls hstart hempty hloop
      rw [after_append]
      exact ⟨hlog,called_perm hend hnil⟩
    · obtain ⟨q,hq⟩ := loop_ends hm hstart (Nat.lt_succ_self _)
      exact ⟨_,q,hq⟩

end Exitprocs
