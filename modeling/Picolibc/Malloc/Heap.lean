import Mathlib
import Picolibc.Lib.ByteMemory

namespace Malloc

open ByteMemory

structure Config where
  headSize : Nat
  mallocChunkSize : Nat
  chunkAlign : Nat
  sizeBits : Nat
  smallBucket : Nat
  clearFreed : Bool
  deriving DecidableEq, Repr

namespace Config

variable (cfg : Config)

def wrap (n : Nat) : Nat := n % 2 ^ cfg.sizeBits

def wrapSub (a b : Nat) : Nat := cfg.wrap (a + (2 ^ cfg.sizeBits - b % 2 ^ cfg.sizeBits))

end Config

def alignUp (x a : Nat) : Nat := (x + (a - 1)) / a * a

def builtinAlignUp (x a : Nat) : Nat :=
  if a = 0 then 0 else x + (a - 1) - ((x + (a - 1)) &&& (a - 1))

def upPot (x : Nat) : Nat :=
  if x ≤ 2 ^ 4 then 4 else if x ≤ 2 ^ 5 then 5 else if x ≤ 2 ^ 6 then 6
  else if x ≤ 2 ^ 7 then 7 else if x ≤ 2 ^ 8 then 8 else if x ≤ 2 ^ 9 then 9
  else if x ≤ 2 ^ 10 then 10 else 0

namespace Config

variable (cfg : Config)

def chunkMin : Nat := alignUp (cfg.mallocChunkSize + cfg.headSize) cfg.chunkAlign

def chunkMax : Nat := 2 ^ cfg.sizeBits - 1 - 2 * max cfg.mallocChunkSize cfg.chunkAlign

def allocMax : Nat := cfg.chunkMax - cfg.headSize

def bucketExtra : Nat := alignUp cfg.headSize cfg.chunkAlign

def minBucketPot : Nat := upPot cfg.chunkMin

def maxBucketPot : Nat := upPot cfg.smallBucket

def bucketSize (bucket : Nat) : Nat := 2 ^ (bucket + cfg.minBucketPot) + cfg.bucketExtra

def maxBucket : Nat := cfg.bucketSize (cfg.maxBucketPot - cfg.minBucketPot)

def bucketNum (s : Nat) : Nat := upPot (cfg.wrapSub s cfg.bucketExtra) - cfg.minBucketPot

def isBucketSize (s : Nat) : Bool :=
  cfg.smallBucket != 0 && decide (s ≤ cfg.maxBucket) && s == cfg.bucketSize (cfg.bucketNum s)

def chunkSize (mallocSize : Nat) : Nat :=
  max cfg.chunkMin (cfg.wrap (alignUp (cfg.wrap (mallocSize + cfg.headSize)) cfg.chunkAlign))

def mallocSize (chunkSize : Nat) : Nat := chunkSize - cfg.headSize

end Config

inductive Errno where
  | none | enomem | einval
  deriving DecidableEq, Repr

structure Env where
  fails : Nat → Bool
  limit : Nat

structure Heap where
  mem : Mem
  freeList : Nat
  bucketList : Nat → Nat
  sbrkStart : Nat
  sbrkTop : Nat
  brk : Nat
  sbrkCalls : Nat
  errno : Errno

def Heap.init (base : Nat) (mem : Mem) : Heap where
  mem := mem
  freeList := 0
  bucketList := fun _ => 0
  sbrkStart := 0
  sbrkTop := 0
  brk := base
  sbrkCalls := 0
  errno := .none

inductive Slot where
  | head
  | next (c : Nat)
  deriving DecidableEq, Repr

namespace Heap

variable (cfg : Config)

def sizeRef (h : Heap) (c : Nat) : Nat := load h.mem (c - cfg.headSize) cfg.headSize

def setSizeRef (h : Heap) (c v : Nat) : Heap :=
  { h with mem := store h.mem (c - cfg.headSize) cfg.headSize v }

def size (h : Heap) (c : Nat) : Nat := h.sizeRef cfg c / 2 * 2

def isFree (h : Heap) (c : Nat) : Bool := h.sizeRef cfg c % 2 == 1

def markFree (h : Heap) (c : Nat) : Heap := h.setSizeRef cfg c (h.sizeRef cfg c / 2 * 2 + 1)

def markBusy (h : Heap) (c : Nat) : Heap := h.setSizeRef cfg c (h.sizeRef cfg c / 2 * 2)

def setSize (h : Heap) (c s : Nat) : Heap := h.setSizeRef cfg c s

def next (h : Heap) (c : Nat) : Nat := load h.mem c cfg.mallocChunkSize

def setNext (h : Heap) (c v : Nat) : Heap := { h with mem := store h.mem c cfg.mallocChunkSize v }

def chunkEnd (h : Heap) (c : Nat) : Nat := c - cfg.headSize + h.sizeRef cfg c

def chunkAfter (h : Heap) (c : Nat) : Nat := c + h.size cfg c

def chunkUsable (h : Heap) (c : Nat) : Nat := cfg.mallocSize (h.size cfg c)

def memset (h : Heap) (a : Nat) (b : UInt8) (n : Nat) : Heap := { h with mem := fill h.mem a b n }

def memcpy (h : Heap) (dst src n : Nat) : Heap := { h with mem := copy h.mem dst src n }

def get (h : Heap) : Slot → Nat
  | .head => h.freeList
  | .next c => h.next cfg c

def set (h : Heap) (p : Slot) (v : Nat) : Heap :=
  match p with
  | .head => { h with freeList := v }
  | .next c => h.setNext cfg c v

def setBucket (h : Heap) (bucket c : Nat) : Heap :=
  { h with bucketList := Function.update h.bucketList bucket c }

def pushBucket (h : Heap) (bucket c : Nat) : Heap :=
  (h.setNext cfg c (h.bucketList bucket)).setBucket bucket c

def setErrno (h : Heap) (e : Errno) : Heap := { h with errno := e }

def sbrk (env : Env) (h : Heap) (incr : Nat) : Heap × Option Nat :=
  let h' := { h with sbrkCalls := h.sbrkCalls + 1 }
  if env.fails h.sbrkCalls || decide (env.limit < h.brk + incr) then
    (h'.setErrno .enomem, none)
  else
    ({ h' with brk := h.brk + incr }, some h.brk)

end Heap

def fuel (cfg : Config) : Nat := 2 ^ (8 * cfg.mallocChunkSize)

end Malloc
