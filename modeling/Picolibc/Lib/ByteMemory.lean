import Mathlib

namespace ByteMemory

abbrev Mem := Nat → UInt8

def load (m : Mem) (a : Nat) : Nat → Nat
  | 0 => 0
  | n + 1 => (m a).toNat + 256 * load m (a + 1) n

def store (m : Mem) (a n v : Nat) : Mem := fun x =>
  if a ≤ x ∧ x < a + n then UInt8.ofNat (v / 256 ^ (x - a)) else m x

def fill (m : Mem) (a : Nat) (b : UInt8) (n : Nat) : Mem := fun x =>
  if a ≤ x ∧ x < a + n then b else m x

def copy (m : Mem) (dst src n : Nat) : Mem := fun x =>
  if dst ≤ x ∧ x < dst + n then m (src + (x - dst)) else m x

theorem load_zero (m : Mem) (a : Nat) : load m a 0 = 0 := rfl

theorem load_succ (m : Mem) (a n : Nat) : load m a (n + 1) = (m a).toNat + 256 * load m (a + 1) n := rfl

theorem load_congr {m m' : Mem} {a n : Nat}
    (h : ∀ x, a ≤ x → x < a + n → m' x = m x) : load m' a n = load m a n := by
  induction n generalizing a with
  | zero => rfl
  | succ n ih =>
    have ha : m' a = m a := h a (by omega) (by omega)
    have ht : load m' (a + 1) n = load m (a + 1) n :=
      ih (fun x hx hx' => h x (by omega) (by omega))
    rw [load_succ,load_succ,ha,ht]

theorem load_lt (m : Mem) (a n : Nat) : load m a n < 256 ^ n := by
  induction n generalizing a with
  | zero => simp [load_zero]
  | succ n ih =>
    have h := ih (a + 1)
    have hb := (m a).toNat_lt
    rw [load_succ,Nat.pow_succ]
    omega

theorem load_of_digits {m : Mem} {a n v : Nat}
    (h : ∀ i, i < n → m (a + i) = UInt8.ofNat (v / 256 ^ i)) : load m a n = v % 256 ^ n := by
  induction n generalizing a v with
  | zero => simp [load_zero,Nat.mod_one]
  | succ n ih =>
    have h0 : m a = UInt8.ofNat v := by simpa using h 0 (by omega)
    have ht : load m (a + 1) n = v / 256 % 256 ^ n := by
      apply ih
      intro i hi
      have hi' := h (i + 1) (by omega)
      rw [Nat.pow_succ',← Nat.div_div_eq_div_mul] at hi'
      rw [← hi',Nat.add_assoc,Nat.add_comm 1 i]
    have hb : (UInt8.ofNat v).toNat = v % 256 := by simp
    have hs : v % 256 ^ (n + 1) = v % 256 + 256 * (v / 256 % 256 ^ n) := by
      rw [Nat.pow_succ',Nat.mod_mul]
    rw [load_succ,ht,h0,hb,hs]

theorem load_store_same (m : Mem) (a n v : Nat) : load (store m a n v) a n = v % 256 ^ n := by
  apply load_of_digits
  intro i hi
  simp [store,hi]

theorem load_store_of_lt (m : Mem) (a : Nat) {n v : Nat} (h : v < 256 ^ n) :
    load (store m a n v) a n = v := by
  rw [load_store_same,Nat.mod_eq_of_lt h]

theorem store_apart {m : Mem} {a n v x : Nat} (h : x < a ∨ a + n ≤ x) :
    store m a n v x = m x := by
  rw [store,if_neg (by omega)]

theorem fill_apart {m : Mem} {a n x : Nat} {b : UInt8} (h : x < a ∨ a + n ≤ x) :
    fill m a b n x = m x := by
  rw [fill,if_neg (by omega)]

theorem fill_inside {m : Mem} {a n x : Nat} {b : UInt8} (h : a ≤ x) (h' : x < a + n) :
    fill m a b n x = b := by
  rw [fill,if_pos ⟨h,h'⟩]

theorem copy_apart {m : Mem} {dst src n x : Nat} (h : x < dst ∨ dst + n ≤ x) :
    copy m dst src n x = m x := by
  rw [copy,if_neg (by omega)]

theorem copy_inside {m : Mem} {dst src n i : Nat} (h : i < n) :
    copy m dst src n (dst + i) = m (src + i) := by
  rw [copy,if_pos ⟨by omega,by omega⟩,Nat.add_sub_cancel_left]

theorem store_comm {m : Mem} {a n v b k u : Nat} (h : b + k ≤ a ∨ a + n ≤ b) :
    store (store m a n v) b k u = store (store m b k u) a n v := by
  funext x
  simp only [store]
  split_ifs <;> first | rfl | omega

theorem load_store_apart {m : Mem} {a n v b k : Nat} (h : b + k ≤ a ∨ a + n ≤ b) :
    load (store m a n v) b k = load m b k :=
  load_congr (fun _ hx hx' => store_apart (by omega))

theorem load_fill_apart {m : Mem} {a n b k : Nat} {c : UInt8} (h : b + k ≤ a ∨ a + n ≤ b) :
    load (fill m a c n) b k = load m b k :=
  load_congr (fun _ hx hx' => fill_apart (by omega))

end ByteMemory
