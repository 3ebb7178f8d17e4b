import Mathlib
import Picolibc.Lib.Checked
import Picolibc.Lib.Simulation

namespace Rand48

open Checked (signed32)

structure Words where
  w0 : UInt16
  w1 : UInt16
  w2 : UInt16
deriving Repr,DecidableEq

def Words.value (x : Words) : Nat := x.w0.toNat + 2 ^ 16 * x.w1.toNat + 2 ^ 32 * x.w2.toNat

structure Rand where
  seed : Words
  mult : Words
  add : UInt16
deriving Repr,DecidableEq

def defaultMult : Words := ⟨0xe66d,0xdeec,0x0005⟩

def rand48 : Rand := ⟨⟨0x330e,0xabcd,0x1234⟩,defaultMult,0x000b⟩

def dorand48 (r : Rand) (xseed : Words) : Words :=
  let accu : UInt32 := r.mult.w0.toUInt32 * xseed.w0.toUInt32 + r.add.toUInt32
  let temp0 := accu.toUInt16
  let accu := accu >>> 16
  let accu := accu + (r.mult.w0.toUInt32 * xseed.w1.toUInt32 + r.mult.w1.toUInt32 * xseed.w0.toUInt32)
  let temp1 := accu.toUInt16
  let accu := accu >>> 16
  let accu := accu + (r.mult.w0.toUInt32 * xseed.w2.toUInt32 + r.mult.w1.toUInt32 * xseed.w1.toUInt32 +
    r.mult.w2.toUInt32 * xseed.w0.toUInt32)
  ⟨temp0,temp1,accu.toUInt16⟩

def nrand48 (r : Rand) (xseed : Words) : Words × Nat :=
  let x := dorand48 r xseed
  (x,x.w2.toNat <<< 15 + x.w1.toNat >>> 1)

def jrand48 (r : Rand) (xseed : Words) : Words × Int :=
  let x := dorand48 r xseed
  (x,(x.w2.toUInt32 <<< 16 ||| x.w1.toUInt32).toInt32.toInt)

def lrand48 (r : Rand) : Rand × Nat :=
  let q := nrand48 r r.seed
  ({ r with seed := q.1 },q.2)

def mrand48 (r : Rand) : Rand × Int :=
  let q := jrand48 r r.seed
  ({ r with seed := q.1 },q.2)

def srand48 (longBits : Nat) (seed : Int) : Rand :=
  let u := (seed % 2 ^ longBits).toNat
  ⟨⟨0x330e,UInt16.ofNat u,UInt16.ofNat (u >>> 16)⟩,defaultMult,0x000b⟩

def seed48 (r : Rand) (xseed : Words) : Rand × Words := (⟨xseed,defaultMult,0x000b⟩,r.seed)

def lcong48 (seed mult : Words) (add : UInt16) : Rand := ⟨seed,mult,add⟩

theorem digits_below {B d0 d1 d2 : Nat} (h0 : d0 < B) (h1 : d1 < B) (h2 : d2 < B) :
    d0 + B * d1 + B ^ 2 * d2 < B ^ 3 := by
  calc d0 + B * d1 + B ^ 2 * d2
      ≤ (B - 1) + B * (B - 1) + B ^ 2 * (B - 1) := by gcongr <;> omega
    _ < B ^ 3 := by
      obtain ⟨b,rfl⟩ : ∃ b, B = b + 1 := ⟨B - 1,by omega⟩
      rw [Nat.add_sub_cancel]
      ring_nf
      omega

theorem limbs_exact {B m0 m1 m2 x0 x1 x2 c a1 a2 : Nat} (hB : 0 < B)
    (h1 : a1 = ((m0 * x0 + c) / B + (m0 * x1 + m1 * x0)) % B ^ 2)
    (h2 : a2 = (a1 / B + (m0 * x2 + m1 * x1 + m2 * x0)) % B ^ 2) :
    (m0 * x0 + c) % B + B * (a1 % B) + B ^ 2 * (a2 % B) =
      ((m0 + B * m1 + B ^ 2 * m2) * (x0 + B * x1 + B ^ 2 * x2) + c) % B ^ 3 := by
  have hlow := Nat.div_add_mod (m0 * x0 + c) B
  have hmid := Nat.div_add_mod ((m0 * x0 + c) / B + (m0 * x1 + m1 * x0)) (B ^ 2)
  have hcarry := Nat.div_add_mod a1 B
  have htop := Nat.div_add_mod (a1 / B + (m0 * x2 + m1 * x1 + m2 * x0)) B
  have hfold : a2 % B = (a1 / B + (m0 * x2 + m1 * x1 + m2 * x0)) % B := by
    rw [h2,pow_two,Nat.mod_mul_right_mod]
  rw [← h1] at hmid
  rw [hfold]
  have hbelow := digits_below (Nat.mod_lt (m0 * x0 + c) hB) (Nat.mod_lt a1 hB)
    (Nat.mod_lt (a1 / B + (m0 * x2 + m1 * x1 + m2 * x0)) hB)
  -- what the accumulators drop has weight B ^ 3
  have htotal : (m0 + B * m1 + B ^ 2 * m2) * (x0 + B * x1 + B ^ 2 * x2) + c =
      (m0 * x0 + c) % B + B * (a1 % B) + B ^ 2 * ((a1 / B + (m0 * x2 + m1 * x1 + m2 * x0)) % B) +
        B ^ 3 * ((a1 / B + (m0 * x2 + m1 * x1 + m2 * x0)) / B +
          ((m0 * x0 + c) / B + (m0 * x1 + m1 * x0)) / B ^ 2 + (m1 * x2 + m2 * x1) + B * (m2 * x2)) := by
    linear_combination -hlow - B * hmid - B * hcarry - B ^ 2 * htop
  rw [htotal,Nat.add_mul_mod_self_left,Nat.mod_eq_of_lt hbelow]

theorem word_lt (w : UInt16) : w.toNat < 2 ^ 16 := w.toNat_lt

theorem value_lt (x : Words) : x.value < 2 ^ 48 := by
  have h0 := word_lt x.w0
  have h1 := word_lt x.w1
  have h2 := word_lt x.w2
  simp only [Words.value]
  omega

theorem value_inj {x y : Words} (h : x.value = y.value) : x = y := by
  obtain ⟨x0,x1,x2⟩ := x
  obtain ⟨y0,y1,y2⟩ := y
  simp only [Words.value] at h
  have hx0 := word_lt x0
  have hx1 := word_lt x1
  have hy0 := word_lt y0
  have hy1 := word_lt y1
  have e0 : x0 = y0 := UInt16.toNat_inj.mp (by omega)
  have e1 : x1 = y1 := UInt16.toNat_inj.mp (by omega)
  have e2 : x2 = y2 := UInt16.toNat_inj.mp (by omega)
  rw [e0,e1,e2]

theorem product_lt (a b : UInt16) : a.toNat * b.toNat ≤ (2 ^ 16 - 1) * (2 ^ 16 - 1) :=
  Nat.mul_le_mul (by have := word_lt a; omega) (by have := word_lt b; omega)

theorem low_accu (a b c : UInt16) :
    (a.toUInt32 * b.toUInt32 + c.toUInt32).toNat = a.toNat * b.toNat + c.toNat := by
  have h := product_lt a b
  have hc := word_lt c
  rw [UInt32.toNat_add,UInt32.toNat_mul,UInt16.toNat_toUInt32,UInt16.toNat_toUInt32,UInt16.toNat_toUInt32]
  omega

theorem accu_sum {p : UInt32} {n : Nat} (accu : UInt32) (hp : p.toNat = n % 2 ^ 32) :
    (accu >>> 16 + p).toNat = (accu.toNat / 2 ^ 16 + n) % (2 ^ 16) ^ 2 := by
  have hs : (accu >>> 16).toNat = accu.toNat / 2 ^ 16 := by
    rw [UInt32.toNat_shiftRight]
    exact Nat.shiftRight_eq_div_pow _ _
  rw [UInt32.toNat_add,hs,hp]
  omega

theorem word_product (a b : UInt16) : (a.toUInt32 * b.toUInt32).toNat = a.toNat * b.toNat := by
  have h := product_lt a b
  rw [UInt32.toNat_mul,UInt16.toNat_toUInt32,UInt16.toNat_toUInt32]
  omega

theorem two_products (a b c d : UInt16) :
    (a.toUInt32 * b.toUInt32 + c.toUInt32 * d.toUInt32).toNat =
      (a.toNat * b.toNat + c.toNat * d.toNat) % 2 ^ 32 := by
  rw [UInt32.toNat_add,word_product,word_product]

theorem three_products (a b c d e f : UInt16) :
    (a.toUInt32 * b.toUInt32 + c.toUInt32 * d.toUInt32 + e.toUInt32 * f.toUInt32).toNat =
      (a.toNat * b.toNat + c.toNat * d.toNat + e.toNat * f.toNat) % 2 ^ 32 := by
  rw [UInt32.toNat_add,two_products,word_product,Nat.mod_add_mod]

theorem dorand48_value (r : Rand) (xseed : Words) :
    (dorand48 r xseed).value = (r.mult.value * xseed.value + r.add.toNat) % 2 ^ 48 := by
  obtain ⟨seed,⟨m0,m1,m2⟩,c⟩ := r
  obtain ⟨x0,x1,x2⟩ := xseed
  have h0 := low_accu m0 x0 c
  have h1 := accu_sum (m0.toUInt32 * x0.toUInt32 + c.toUInt32) (two_products m0 x1 m1 x0)
  have h2 := accu_sum (((m0.toUInt32 * x0.toUInt32 + c.toUInt32) >>> 16) +
    (m0.toUInt32 * x1.toUInt32 + m1.toUInt32 * x0.toUInt32)) (three_products m0 x2 m1 x1 m2 x0)
  rw [h0] at h1
  have hall := limbs_exact (by norm_num) h1 h2
  simp only [dorand48,Words.value,UInt32.toNat_toUInt16,h0]
  simpa only [← pow_mul] using hall

theorem step_iterate (r : Rand) (n : Nat) (x : Words) :
    ((dorand48 r)^[n] x).value =
      (r.mult.value ^ n * x.value + r.add.toNat * ∑ i ∈ Finset.range n, r.mult.value ^ i) % 2 ^ 48 := by
  induction n generalizing x with
  | zero => simpa using (Nat.mod_eq_of_lt (value_lt x)).symm
  | succ n ih =>
    rw [Function.iterate_succ_apply,ih,dorand48_value,Finset.sum_range_succ]
    conv_lhs => rw [Nat.add_mod,Nat.mul_mod,Nat.mod_mod,← Nat.mul_mod,← Nat.add_mod]
    congr 1
    ring

theorem upper_31 (x : Words) : x.w2.toNat <<< 15 + x.w1.toNat >>> 1 = x.value / 2 ^ 17 := by
  have h0 := word_lt x.w0
  have h1 := word_lt x.w1
  rw [Nat.shiftLeft_eq,Nat.shiftRight_eq_div_pow,Words.value]
  omega

theorem upper_32 (x : Words) : (x.w2.toUInt32 <<< 16 ||| x.w1.toUInt32).toNat = x.value / 2 ^ 16 := by
  have h0 := word_lt x.w0
  have h1 := word_lt x.w1
  have h2 := word_lt x.w2
  have hs : (x.w2.toUInt32 <<< 16).toNat = x.w2.toNat <<< 16 := by
    rw [UInt32.toNat_shiftLeft,UInt16.toNat_toUInt32]
    have : x.w2.toNat <<< 16 = x.w2.toNat * 2 ^ 16 := Nat.shiftLeft_eq _ _
    exact Nat.mod_eq_of_lt (by change x.w2.toNat <<< 16 < 2 ^ 32; omega)
  rw [UInt32.toNat_or,hs,UInt16.toNat_toUInt32,← Nat.shiftLeft_add_eq_or_of_lt h1,Nat.shiftLeft_eq,Words.value]
  omega

theorem srand48_value {longBits : Nat} (hlong : 32 ≤ longBits) (seed : Int) :
    (srand48 longBits seed).seed.value = 2 ^ 16 * (seed % 2 ^ 32).toNat + 0x330e := by
  obtain ⟨k,rfl⟩ := Nat.exists_eq_add_of_le hlong
  have hdvd : seed % 2 ^ (32 + k) % 2 ^ 32 = seed % 2 ^ 32 :=
    Int.emod_emod_of_dvd seed ⟨2 ^ k,by rw [pow_add]⟩
  have hpos : 0 ≤ seed % 2 ^ (32 + k) := Int.emod_nonneg _ (by positivity)
  simp only [srand48,Words.value,UInt16.toNat_ofNat',Nat.shiftRight_eq_div_pow]
  generalize seed % 2 ^ (32 + k) = u at hdvd hpos
  rw [← hdvd]
  simp only [UInt16.toNat_ofNat]
  omega

inductive Call where
  | lrand48
  | mrand48
  | nrand48 (xseed : Words)
  | jrand48 (xseed : Words)
  | srand48 (seed : Int)
  | seed48 (xseed : Words)
  | lcong48 (seed mult : Words) (add : UInt16)

def call (longBits : Nat) (r : Rand) : Call → Rand × List Int
  | .lrand48 => let q := lrand48 r; (q.1,[q.2])
  | .mrand48 => let q := mrand48 r; (q.1,[q.2])
  | .nrand48 x => let q := nrand48 r x; (r,[q.1.value,q.2])
  | .jrand48 x => let q := jrand48 r x; (r,[q.1.value,q.2])
  | .srand48 s => (srand48 longBits s,[])
  | .seed48 x => let q := seed48 r x; (q.1,[q.2.value])
  | .lcong48 s m a => (lcong48 s m a,[])

structure Generator where
  x : Nat
  a : Nat
  c : Nat

def Generator.next (g : Generator) (x : Nat) : Nat := (g.a * x + g.c) % 2 ^ 48

def standard (x : Nat) : Generator := ⟨x,25214903917,11⟩

def high31 (x : Nat) : Nat := x / 2 ^ 17

def high32 (x : Nat) : Int := signed32 (x / 2 ^ 16)

def Generator.call (g : Generator) : Call → Generator × List Int
  | .lrand48 => ({ g with x := g.next g.x },[high31 (g.next g.x)])
  | .mrand48 => ({ g with x := g.next g.x },[high32 (g.next g.x)])
  | .nrand48 x => (g,[g.next x.value,high31 (g.next x.value)])
  | .jrand48 x => (g,[g.next x.value,high32 (g.next x.value)])
  | .srand48 s => (standard (2 ^ 16 * (s % 2 ^ 32).toNat + 0x330e),[])
  | .seed48 x => (standard x.value,[g.x])
  | .lcong48 s m a => (⟨s.value,m.value,a.toNat⟩,[])

def Rand.view (r : Rand) : Generator := ⟨r.seed.value,r.mult.value,r.add.toNat⟩

theorem toInt_signed (u : UInt32) : u.toInt32.toInt = signed32 u.toNat := by
  have h : u.toInt32.toInt = u.toBitVec.toInt := rfl
  rw [h,BitVec.toInt_eq_toNat_cond,signed32]
  have hu : u.toBitVec.toNat = u.toNat := rfl
  have hlt := u.toNat_lt
  split <;> split <;> omega

theorem nrand48_eq (r : Rand) (x : Words) :
    (nrand48 r x).1.value = r.view.next x.value ∧ (nrand48 r x).2 = high31 (r.view.next x.value) := by
  have hd : (dorand48 r x).value = r.view.next x.value := dorand48_value r x
  rw [← hd]
  exact ⟨rfl,upper_31 (dorand48 r x)⟩

theorem jrand48_eq (r : Rand) (x : Words) :
    (jrand48 r x).1.value = r.view.next x.value ∧ (jrand48 r x).2 = high32 (r.view.next x.value) := by
  have hd : (dorand48 r x).value = r.view.next x.value := dorand48_value r x
  rw [← hd]
  refine ⟨rfl,?_⟩
  rw [jrand48,high32,toInt_signed,upper_32]

theorem defaultMult_value : defaultMult.value = 25214903917 := by decide

theorem view_standard (x : Words) : (⟨x,defaultMult,0x000b⟩ : Rand).view = standard x.value := by
  rw [Rand.view,defaultMult_value]
  rfl

theorem call_view {longBits : Nat} (hlong : 32 ≤ longBits) (r : Rand) (k : Call) :
    (call longBits r k).1.view = (r.view.call k).1 ∧ (call longBits r k).2 = (r.view.call k).2 := by
  cases k with
  | lrand48 =>
    obtain ⟨hx,hv⟩ := nrand48_eq r r.seed
    simp only [call,lrand48,Generator.call,Rand.view,hx,hv,and_self]
  | mrand48 =>
    obtain ⟨hx,hv⟩ := jrand48_eq r r.seed
    simp only [call,mrand48,Generator.call,Rand.view,hx,hv,and_self]
  | nrand48 x =>
    obtain ⟨hx,hv⟩ := nrand48_eq r x
    simp only [call,Generator.call,hx,hv,and_self]
  | jrand48 x =>
    obtain ⟨hx,hv⟩ := jrand48_eq r x
    simp only [call,Generator.call,hx,hv,and_self]
  | srand48 s =>
    refine ⟨?_,rfl⟩
    rw [Generator.call,← srand48_value hlong]
    exact view_standard _
  | seed48 x => exact ⟨view_standard x,rfl⟩
  | lcong48 s m a => exact ⟨rfl,rfl⟩

theorem calls_view {longBits : Nat} (hlong : 32 ≤ longBits) (r : Rand) (ks : List Call) :
    (Simulation.run (call longBits) r ks).1.view = (Simulation.run Generator.call r.view ks).1 ∧
      (Simulation.run (call longBits) r ks).2 = (Simulation.run Generator.call r.view ks).2 := by
  have hstep : ∀ (r : Rand) (g : Generator) (k : Call), r.view = g → True →
      (call longBits r k).1.view = (g.call k).1 ∧ (call longBits r k).2 = (g.call k).2 := by
    rintro r _ k rfl _
    exact call_view hlong r k
  exact @Simulation.run_simulates Rand Generator Call (List Int) (call longBits) Generator.call (fun _ _ => True)
    (fun r g => r.view = g) hstep r r.view ks rfl (Simulation.along_of_mem (fun _ _ => trivial))

end Rand48
