import Mathlib
import Picolibc.Malloc.Heap

namespace Malloc

inductive FreePos where
  | insert (p : Slot) (c : Nat)
  | merge (p : Slot) (c : Nat)
  | double
  deriving DecidableEq, Repr

section

variable (cfg : Config) (env : Env)

def findFree (h : Heap) (toFree : Nat) : Nat → Slot → Option FreePos
  | 0, _ => none
  | n + 1, p =>
    let c := h.get cfg p
    if c = 0 then some (.insert p 0)
    else if toFree ≤ c then
      if toFree = c then some .double else some (.insert p c)
    else if h.chunkAfter cfg c = toFree then some (.merge p c)
    else findFree h toFree n (.next c)

def mergeNext (h : Heap) (toFree c : Nat) : Heap :=
  if h.chunkAfter cfg toFree = c then
    let h := h.setSizeRef cfg toFree (h.sizeRef cfg toFree + h.size cfg c)
    h.setNext cfg toFree (h.next cfg c)
  else h

def migrate (h : Heap) (p : Slot) (toFree : Nat) : Heap :=
  let s := h.size cfg toFree
  if cfg.isBucketSize s then
    let h := h.set cfg p (h.next cfg toFree)
    h.pushBucket cfg (cfg.bucketNum s) toFree
  else h

def mallocFree (h : Heap) (ptr : Nat) : Option Heap :=
  if ptr = 0 then some h
  else if h.isFree cfg ptr then some (h.setErrno .enomem)
  else
    let h := if cfg.clearFreed then h.memset ptr 0 (h.chunkUsable cfg ptr) else h.setNext cfg ptr 0
    let h := h.markFree cfg ptr
    let s := h.size cfg ptr
    if cfg.isBucketSize s then some (h.pushBucket cfg (cfg.bucketNum s) ptr)
    else
      match findFree cfg h ptr (fuel cfg) .head with
      | none => none
      | some .double => some (h.setErrno .enomem)
      | some (.insert p c) =>
        let h := (h.setNext cfg ptr c).set cfg p ptr
        some (migrate cfg (mergeNext cfg h ptr c) p ptr)
      | some (.merge p c) =>
        let h := h.setSizeRef cfg c (h.sizeRef cfg c + h.size cfg ptr)
        some (migrate cfg (mergeNext cfg h c (h.next cfg c)) p c)

def makeFreeChunk (h : Heap) (c size : Nat) : Option Heap :=
  mallocFree cfg (h.setSize cfg c size) c

def sbrkAligned (h : Heap) (s : Nat) : Heap × Option Nat :=
  if 2 ^ (cfg.sizeBits - 1) ≤ s then (h, none)
  else
    match h.sbrk env s with
    | (h, none) => (h, none)
    | (h, some p) =>
      let h := { h with sbrkTop := p + s }
      let alignP := alignUp (p + cfg.headSize) cfg.chunkAlign - cfg.headSize
      if alignP = p then
        (if h.sbrkStart = 0 then { h with sbrkStart := alignP } else h, some alignP)
      else
        match h.sbrk env (alignP - p) with
        | (h, none) => (h, none)
        | (h, some extra) =>
          if extra = p + s then
            let h := { h with sbrkTop := extra + (alignP - p) }
            (if h.sbrkStart = 0 then { h with sbrkStart := alignP } else h, some alignP)
          else (h, none)

def growChunk (h : Heap) (c newSize : Nat) : Option (Heap × Bool) :=
  let chunkE := h.chunkEnd cfg c
  if chunkE ≠ h.sbrkTop then some (h, false)
  else
    let addSize := max cfg.chunkMin (cfg.wrapSub newSize (h.size cfg c))
    match sbrkAligned cfg env h addSize with
    | (h, none) => some (h, false)
    | (h, some heap) =>
      if heap = chunkE then some (h.setSizeRef cfg c (h.sizeRef cfg c + addSize), true)
      else (makeFreeChunk cfg h (heap + cfg.headSize) addSize).map (fun h => (h, false))

def takeChunk (h : Heap) (p : Slot) (c allocSize : Nat) : Heap :=
  let rem := h.size cfg c - allocSize
  if cfg.chunkMin ≤ rem then
    let s := c + allocSize
    let h := ((h.setSize cfg c allocSize).setSize cfg s rem).markFree cfg s
    if cfg.isBucketSize rem then
      let h := h.pushBucket cfg (cfg.bucketNum rem) s
      h.set cfg p (h.next cfg c)
    else
      (h.setNext cfg s (h.next cfg c)).set cfg p s
  else h.set cfg p (h.next cfg c)

def findFit (allocSize : Nat) : Nat → Heap → Slot → Option (Heap × Nat)
  | 0, _, _ => none
  | n + 1, h, p =>
    let c := h.get cfg p
    if c = 0 then some (h, 0)
    else if allocSize ≤ h.size cfg c then some (takeChunk cfg h p c allocSize, c)
    else if h.next cfg c = 0 then
      match growChunk cfg env h c allocSize with
      | none => none
      | some (h, true) => some (h.set cfg p (h.next cfg c), c)
      | some (h, false) => findFit allocSize n h (.next c)
    else findFit allocSize n h (.next c)

def popBucket (h : Heap) (bucket : Nat) : Heap × Nat :=
  let c := h.bucketList bucket
  if c = 0 then (h, 0)
  else (h.setBucket bucket (h.next cfg c), c)

def finishAlloc (h : Heap) (c allocSize : Nat) : Heap × Nat :=
  ((h.markBusy cfg c).memset c 0 (allocSize - cfg.headSize), c)

def allocTail (h : Heap) (c allocSize : Nat) : Heap × Nat :=
  if c = 0 then
    match sbrkAligned cfg env h allocSize with
    | (h, none) => (h.setErrno .enomem, 0)
    | (h, some blob) =>
      let c := blob + cfg.headSize
      finishAlloc cfg (h.setSize cfg c allocSize) c allocSize
  else finishAlloc cfg h c allocSize

def malloc (h : Heap) (s : Nat) : Option (Heap × Nat) :=
  if cfg.allocMax < s then some (h.setErrno .enomem, 0)
  else
    let allocSize := cfg.chunkSize s
    if cfg.smallBucket ≠ 0 ∧ allocSize ≤ cfg.maxBucket then
      let bucket := cfg.bucketNum allocSize
      let (h, c) := popBucket cfg h bucket
      some (allocTail cfg env h c (cfg.bucketSize bucket))
    else
      (findFit cfg env allocSize (fuel cfg) h .head).map
        (fun r => allocTail cfg env r.1 r.2 allocSize)

def calloc (h : Heap) (n elem : Nat) : Option (Heap × Nat) :=
  if 2 ^ cfg.sizeBits ≤ n * elem then some (h.setErrno .enomem, 0)
  else malloc cfg env h (n * elem)

def findPast (h : Heap) (toRealloc chunkE : Nat) : Nat → Slot → Option (Option (Slot × Nat))
  | 0, _ => none
  | n + 1, p =>
    let r := h.get cfg p
    if r = 0 then some none
    else if r = chunkE then some (some (p, r))
    else if toRealloc < r then some none
    else findPast h toRealloc chunkE n (.next r)

def reallocGrow (h : Heap) (ptr newSize oldSize : Nat) : Option (Heap × Nat) :=
  let chunkE := h.chunkEnd cfg ptr
  match growChunk cfg env h ptr newSize with
  | none => none
  | some (h, true) => some (h.memset chunkE 0 (newSize - oldSize), newSize)
  | some (h, false) =>
    match findPast cfg h ptr chunkE (fuel cfg) .head with
    | none => none
    | some none => some (h, oldSize)
    | some (some (p, r)) =>
      let rSize := h.size cfg r
      let h := (h.set cfg p (h.next cfg r)).memset r 0 rSize
      some (h.setSize cfg ptr (oldSize + rSize), oldSize + rSize)

def reallocShrink (h : Heap) (ptr size newSize oldSize : Nat) (isBucket : Bool) :
    Option (Heap × Nat) :=
  let extra := oldSize - newSize
  let h := if cfg.clearFreed then h.memset (ptr + size) 0 (oldSize - size) else h
  if !isBucket && decide (cfg.chunkMin ≤ extra) then
    let h := h.setSize cfg ptr newSize
    (makeFreeChunk cfg h (h.chunkAfter cfg ptr) extra).map (fun h => (h, ptr))
  else some (h, ptr)

def reallocCopy (h : Heap) (ptr size oldSize : Nat) : Option (Heap × Nat) :=
  match malloc cfg env h size with
  | none => none
  | some (h, mem) =>
    if mem = 0 then some (h, 0)
    else
      (mallocFree cfg (h.memcpy mem ptr (cfg.mallocSize oldSize)) ptr).map (fun h => (h, mem))

def realloc (h : Heap) (ptr size : Nat) : Option (Heap × Nat) :=
  if ptr = 0 then malloc cfg env h size
  else if size = 0 then (mallocFree cfg h ptr).map (fun h => (h, 0))
  else if cfg.allocMax < size then some (h.setErrno .enomem, 0)
  else if h.isFree cfg ptr then some (h.setErrno .enomem, 0)
  else
    let newSize := cfg.chunkSize size
    let oldSize := h.size cfg ptr
    let isBucket := cfg.isBucketSize oldSize
    let grown :=
      if !isBucket && decide (oldSize < newSize) then reallocGrow cfg env h ptr newSize oldSize
      else some (h, oldSize)
    match grown with
    | none => none
    | some (h, oldSize) =>
      if newSize ≤ oldSize then reallocShrink cfg h ptr size newSize oldSize isBucket
      else reallocCopy cfg env h ptr size oldSize

def splitFront (h : Heap) (allocated align : Nat) : Option (Heap × Nat) :=
  let alignedP := builtinAlignUp allocated align
  let offset := cfg.wrapSub alignedP allocated
  if offset = 0 then some (h, allocated)
  else
    let newChunk := if offset < cfg.chunkMin then alignedP + align else alignedP
    let offset := if offset < cfg.chunkMin then offset + align else offset
    let h := h.setSize cfg newChunk (cfg.wrapSub (h.size cfg allocated) offset)
    (makeFreeChunk cfg h allocated offset).map (fun h => (h, newChunk))

def splitBack (h : Heap) (c s : Nat) : Option (Heap × Nat) :=
  let offset := cfg.wrapSub (h.size cfg c) s
  if cfg.chunkMin ≤ offset then
    let h := h.setSizeRef cfg c (cfg.wrapSub (h.sizeRef cfg c) offset)
    (makeFreeChunk cfg h (h.chunkAfter cfg c) offset).map (fun h => (h, c))
  else some (h, c)

def memalign (h : Heap) (align s : Nat) : Option (Heap × Nat) :=
  if align &&& (align - 1) ≠ 0 then some (h.setErrno .einval, 0)
  else
    let align := max align (upPot cfg.chunkMin)
    if cfg.allocMax < align ∨ cfg.allocMax - align < s then some (h.setErrno .enomem, 0)
    else
      let s := cfg.chunkSize s
      match malloc cfg env h (cfg.wrap (s + align + cfg.chunkMin)) with
      | none => none
      | some (h, allocated) =>
        if allocated = 0 then some (h, 0)
        else (splitFront cfg h allocated align).bind (fun r => splitBack cfg r.1 r.2 s)

end

end Malloc
