import RtThread.Memory.Basic
import RtThread.Lib.BlockChain
import RtThread.Lib.Runs

/-!
# Memory heap objects

Model of `src/memheap.c`: `rt_memheap_init`, `rt_memheap_alloc`,
`rt_memheap_realloc` and `rt_memheap_free`. A pool is tiled by blocks, each with
a `struct rt_memheap_item` in front; the last one is an empty used block, the
tailer. All blocks are linked in a circle in the order of their addresses, and
the free ones in a second circle, through `free_header` in the heap object.

Memory is modelled by its 32-bit words, by address. The header `free_header` is
kept there, at an address of its own; the other fields of the heap object are
kept apart. Sizes are unsigned 32-bit numbers. A function whose `RT_ASSERT`
fails, or whose loop does not end, returns `none`. The heap's semaphore is not
modelled: calls do not overlap.
-/

namespace RtThread

open BlockChain

/-- `RT_MEMHEAP_MAGIC`. -/
def memheapMagic : ℕ := 0x1ea01ea0

/-- `RT_MEMHEAP_MASK`, which is also `~RT_MEMHEAP_USED`. -/
def memheapMask : ℕ := 0xfffffffe

/-- `RT_MEMHEAP_USED`. -/
def memheapUsed : ℕ := 0x01

/-- `RT_MEMHEAP_MINIALLOC`. -/
def memheapMinialloc : ℕ := 12

/-- `RT_MEMHEAP_SIZE`, the size of a header. -/
def memheapSize : ℕ := 24

/-! ## `struct rt_memheap_item` -/

namespace Item

variable (m : ℕ → ℕ) (a : ℕ)

def magic : ℕ := field m a 0

def poolPtr : ℕ := field m a 1

def next : ℕ := field m a 2

def prev : ℕ := field m a 3

def nextFree : ℕ := field m a 4

def prevFree : ℕ := field m a 5

def setMagic (v : ℕ) : ℕ → ℕ := setField m a 0 v

def setPoolPtr (v : ℕ) : ℕ → ℕ := setField m a 1 v

def setNext (v : ℕ) : ℕ → ℕ := setField m a 2 v

def setPrev (v : ℕ) : ℕ → ℕ := setField m a 3 v

def setNextFree (v : ℕ) : ℕ → ℕ := setField m a 4 v

def setPrevFree (v : ℕ) : ℕ → ℕ := setField m a 5 v

/-- `RT_MEMHEAP_IS_USED`. -/
def IsUsed : Prop := magic m a &&& memheapUsed ≠ 0
  deriving Decidable

/-- `MEMITEM_SIZE`. -/
def memitemSize : ℕ := sub32 (sub32 (next m a) a) memheapSize

/-- All fields of the item at `a`. -/
def setItem (magic poolPtr next prev nextFree prevFree : ℕ) : ℕ → ℕ :=
  let m := setPoolPtr (setMagic m a magic) a poolPtr
  let m := setPrev (setNext m a next) a prev
  setPrevFree (setNextFree m a nextFree) a prevFree

/-- "mark the new block as a memory block and freed", "put the pool pointer into the new block". -/
def newItem (heap : ℕ) : ℕ → ℕ := setPoolPtr (setMagic m a memheapMagic) a heap

/-- "break down the block list": the new block `c` follows the block `a`. -/
def insertBlock (c : ℕ) : ℕ → ℕ :=
  let m := setPrev m c a
  let m := setNext m c (next m a)
  let m := setPrev m (next m a) c
  setNext m a c

/-- The block `a` leaves the block list, in `rt_memheap_realloc` (lines 370–371). -/
def removeBlock : ℕ → ℕ :=
  let m := setPrev m (next m a) (prev m a)
  setNext m (prev m a) (next m a)

/-- "merge block with previous neighbor" (lines 551–552). -/
def mergePrev : ℕ → ℕ :=
  let m := setNext m (prev m a) (next m a)
  setPrev m (next m a) (prev m a)

/-- "merge block with next neighbor", in `rt_memheap_free` (lines 573–574) and `rt_memheap_realloc`
(lines 471–472). -/
def mergeNext : ℕ → ℕ :=
  let b := next m a
  let m := setPrev m (next m b) a
  setNext m a (next m b)

/-- The block `a` leaves the free list. -/
def unlinkFree : ℕ → ℕ :=
  let m := setPrevFree m (nextFree m a) (prevFree m a)
  setNextFree m (prevFree m a) (nextFree m a)

/-- `next_free` and `prev_free` of a block that has left the free list. -/
def clearFree : ℕ → ℕ := setPrevFree (setNextFree m a 0) a 0

/-- The block `a` becomes the first one of the free list. -/
def insertFree (freeList : ℕ) : ℕ → ℕ :=
  let m := setNextFree m a (nextFree m freeList)
  let m := setPrevFree m a freeList
  let m := setPrevFree m (nextFree m freeList) a
  setNextFree m freeList a

end Item

/-! ## `struct rt_memheap` -/

/-- What `rt_memheap_init` fixes: the address of the heap object, that of its `free_header`, and the
pool. -/
structure Pool where
  memheap : ℕ
  freeHeader : ℕ
  startAddr : ℕ
  poolSize : ℕ

/-- `free_list` always points to `free_header`. -/
def Pool.freeList (P : Pool) : ℕ := P.freeHeader

structure Memheap extends Pool where
  availableSize : ℕ
  maxUsedSize : ℕ
  mem : ℕ → ℕ

open Item

/-- The headers that `rt_memheap_init` writes, with the tailer at `tailer`. -/
def initMem (mem : ℕ → ℕ) (memheap freeHeader startAddr tailer : ℕ) : ℕ → ℕ :=
  let mem := setItem mem freeHeader memheapMagic memheap 0 0 freeHeader freeHeader
  -- the first big memory block
  let mem := setItem mem startAddr memheapMagic memheap 0 0 startAddr startAddr
  let mem := setNext mem startAddr tailer
  let mem := setPrev mem startAddr (next mem startAddr)
  let mem := insertFree mem startAddr freeHeader
  -- the tailer
  let item := next mem startAddr
  setItem mem item (memheapMagic ||| memheapUsed) memheap startAddr startAddr 0 0

/-- `rt_memheap_init` (lines 60–131). -/
def rtMemheapInit (mem : ℕ → ℕ) (memheap freeHeader startAddr size : ℕ) : Memheap :=
  let poolSize := rtAlignDown size
  let availableSize := sub32 poolSize (2 * memheapSize)
  { memheap := memheap
    freeHeader := freeHeader
    startAddr := startAddr
    poolSize := poolSize
    availableSize := availableSize
    maxUsedSize := sub32 poolSize availableSize
    mem := initMem mem memheap freeHeader startAddr (startAddr + availableSize + memheapSize) }

/-- "align allocated size", at least `RT_MEMHEAP_MINIALLOC`. -/
def allocSize (size : ℕ) : ℕ :=
  if rtAlign size < memheapMinialloc then memheapMinialloc else rtAlign size

/-- The search loop of `rt_memheap_alloc`, at most `fuel` rounds: `header_ptr` and `free_size`
behind the loop. -/
def searchLoop (m : ℕ → ℕ) (freeList size : ℕ) : (fuel headerPtr freeSize : ℕ) → Option (ℕ × ℕ)
  | 0, _, _ => none
  | fuel + 1, headerPtr, freeSize =>
    if headerPtr ≠ freeList ∧ freeSize < size then
      if memitemSize m headerPtr < size then
        searchLoop m freeList size fuel (nextFree m headerPtr) (memitemSize m headerPtr)
      else searchLoop m freeList size fuel headerPtr (memitemSize m headerPtr)
    else some (headerPtr, freeSize)

namespace Memheap

variable (h : Memheap)

/-- The update of `max_used_size`. -/
def noteMax : Memheap :=
  if h.maxUsedSize < sub32 h.poolSize h.availableSize then
    { h with maxUsedSize := sub32 h.poolSize h.availableSize }
  else h

/-- "split the block" in `rt_memheap_alloc` (lines 199–242). -/
def takeSplit (a size : ℕ) : Memheap :=
  let c := a + size + memheapSize
  let m := insertBlock (newItem h.mem c h.memheap) a c
  let m := clearFree (unlinkFree m a) a
  let m := insertFree m c h.freeList
  { h with
    mem := m, availableSize := sub32 (sub32 h.availableSize size) memheapSize }.noteMax

/-- The block is taken as a whole (lines 246–261). -/
def takeWhole (a freeSize : ℕ) : Memheap :=
  let h := { h with availableSize := sub32 h.availableSize freeSize }.noteMax
  { h with mem := clearFree (unlinkFree h.mem a) a }

/-- The free block at `a` is taken, and marked "as not available". -/
def takeItem (a size freeSize : ℕ) : Memheap :=
  let h :=
    if add32 size (memheapSize + memheapMinialloc) ≤ freeSize then h.takeSplit a size
    else h.takeWhole a freeSize
  { h with mem := setMagic h.mem a (magic h.mem a ||| memheapUsed) }

/-- More rounds than the search can take. -/
def rounds : ℕ := h.poolSize + 2

/-- `rt_memheap_alloc` (lines 146–288) for an aligned size: the address it returns, 0 for `RT_NULL`.
-/
def allocItem (size : ℕ) : Option (ℕ × Memheap) :=
  if size < h.availableSize then
    (searchLoop h.mem h.freeList size h.rounds (nextFree h.mem h.freeList) 0).map
      fun (a, freeSize) =>
        if size ≤ freeSize then (a + memheapSize, h.takeItem a size freeSize) else (0, h)
  else some (0, h)

def rtMemheapAlloc (size : ℕ) : Option (ℕ × Memheap) := h.allocItem (allocSize size)

/-- "determine if the block can be merged with the next neighbor", in `rt_memheap_free`. -/
def mergeRight (a : ℕ) : Memheap :=
  let b := next h.mem a
  if ¬ IsUsed h.mem b then
    { h with
      availableSize := add32 h.availableSize memheapSize
      mem := unlinkFree (mergeNext h.mem a) b }
  else h

/-- "Mark the memory as available", with its bytes. -/
def markAvailable (a : ℕ) : Memheap :=
  { h with
    mem := setMagic h.mem a (magic h.mem a &&& memheapMask)
    availableSize := add32 h.availableSize (memitemSize h.mem a) }

/-- `rt_memheap_free` for the block at `a`, past the checks. The header is inserted into the free
list if it is not merged to the left. -/
def freeItem (a : ℕ) : Memheap :=
  let h := h.markAvailable a
  let p := prev h.mem a
  if ¬ IsUsed h.mem p then
    { h with
      availableSize := add32 h.availableSize memheapSize
      mem := mergePrev h.mem a }.mergeRight p
  else
    let h := h.mergeRight a
    { h with mem := insertFree h.mem a h.freeList }

/-- `rt_memheap_free` (lines 499–596). -/
def rtMemheapFree (ptr : ℕ) : Option Memheap :=
  if ptr = 0 then some h
  else
    let a := ptr - memheapSize
    -- the RT_ASSERTs on the magic, and "get pool ptr"
    if magic h.mem a &&& memheapMask = memheapMagic ∧ IsUsed h.mem a ∧
        magic h.mem (next h.mem a) &&& memheapMask = memheapMagic ∧
        poolPtr h.mem a = h.memheap then
      some (h.freeItem a)
    else none

/-- `rt_memcpy` between two blocks. All sizes are multiples of 4, so whole words are copied. -/
def rtMemcpy (dst src count : ℕ) : Memheap :=
  { h with mem := fun w =>
      if dst ≤ w ∧ w < dst + count then h.mem (w - dst + src) else h.mem w }

/-- The block at `a` grows into the free block behind it (lines 356–397). The address of the rest
wraps around for a `newsize` that the test for room has let through by an overflow. -/
def growItem (a oldsize newsize : ℕ) : Memheap :=
  let b := next h.mem a
  let c := add32 (a + memheapSize) newsize
  let h := { h with availableSize := sub32 h.availableSize (newsize - oldsize) }.noteMax
  let m := removeBlock (unlinkFree h.mem b) b
  let m := insertBlock (newItem m c h.memheap) a c
  { h with mem := insertFree m c h.freeList }

/-- "re-allocate a memory block". -/
def moveItem (ptr oldsize newsize : ℕ) : Option (ℕ × Memheap) :=
  (h.rtMemheapAlloc newsize).bind fun (newPtr, h) =>
    if newPtr = 0 then some (0, h)
    else ((h.rtMemcpy newPtr ptr (min oldsize newsize)).rtMemheapFree ptr).map (newPtr, ·)

/-- "re-allocate memory" for a block at `a` that has to become larger. -/
def expandItem (ptr a oldsize newsize : ℕ) : Option (ℕ × Memheap) :=
  let b := next h.mem a
  -- RT_ASSERT(next_ptr > header_ptr)
  if b ≤ a then none
  else if ¬ IsUsed h.mem b ∧
      add32 newsize memheapMinialloc < add32 (memitemSize h.mem b) oldsize then
    some (ptr, h.growItem a oldsize newsize)
  else h.moveItem ptr oldsize newsize

/-- "split the block" in `rt_memheap_realloc` (lines 437–489). -/
def shrinkItem (a newsize : ℕ) : Memheap :=
  let c := a + newsize + memheapSize
  let m := insertBlock (newItem h.mem c h.memheap) a c
  let b := next m c
  let h :=
    if ¬ IsUsed m b then
      { h with
        availableSize := sub32 h.availableSize (memitemSize m b)
        mem := unlinkFree (mergeNext m c) b }
    else { h with mem := m }
  let m := insertFree h.mem c h.freeList
  { h with mem := m, availableSize := add32 h.availableSize (memitemSize m c) }

/-- `rt_memheap_realloc` for the block at `a`, with `oldsize` bytes. -/
def reallocItem (ptr a oldsize newsize : ℕ) : Option (ℕ × Memheap) :=
  if oldsize < newsize then h.expandItem ptr a oldsize newsize
  else if oldsize ≤ add32 newsize (memheapSize + memheapMinialloc) then some (ptr, h)
  else some (ptr, h.shrinkItem a newsize)

/-- `rt_memheap_realloc` (lines 291–496). -/
def rtMemheapRealloc (ptr newsize : ℕ) : Option (ℕ × Memheap) :=
  if newsize = 0 then (h.rtMemheapFree ptr).map (0, ·)
  else if ptr = 0 then h.rtMemheapAlloc (allocSize newsize)
  else
    h.reallocItem ptr (ptr - memheapSize) (memitemSize h.mem (ptr - memheapSize))
      (allocSize newsize)

end Memheap

/-- A heap and its clients: `live` are the pointers they have got and not released. -/
structure MemheapSys where
  heap : Memheap
  live : List ℕ

/-- The calls, and a client that writes to the `i`-th word of a block it has. -/
inductive MemheapOp
  | alloc (size : ℕ)
  | free (p : ℕ)
  | realloc (p newsize : ℕ)
  | store (p i v : ℕ)
  deriving DecidableEq, Repr

namespace MemheapSys

variable (s : MemheapSys)

/-- The calls of the clients: of their own blocks, with sizes up to that of the pool for
`rt_memheap_realloc`. -/
def Allowed : MemheapOp → Prop
  | .alloc _ => True
  | .free p => p ∈ s.live
  | .realloc p newsize => p ∈ s.live ∧ newsize ≤ s.heap.poolSize
  | .store p i _ => p ∈ s.live ∧ p + 4 * i + 4 ≤ next s.heap.mem (p - memheapSize)

instance : (op : MemheapOp) → Decidable (s.Allowed op)
  | .alloc _ => inferInstanceAs (Decidable True)
  | .free p => inferInstanceAs (Decidable (p ∈ s.live))
  | .realloc _ _ => inferInstanceAs (Decidable (_ ∧ _))
  | .store _ _ _ => inferInstanceAs (Decidable (_ ∧ _))

/-- One call, with the pointer it returns. -/
def call : MemheapOp → Option (ℕ × MemheapSys)
  | .alloc size => (s.heap.rtMemheapAlloc size).map fun (q, h) =>
      (q, { heap := h, live := if q = 0 then s.live else q :: s.live })
  | .free p => (s.heap.rtMemheapFree p).map fun h => (0, { heap := h, live := s.live.erase p })
  | .realloc p newsize => (s.heap.rtMemheapRealloc p newsize).map fun (q, h) =>
      (q, { heap := h
            live :=
              if q ≠ 0 then q :: s.live.erase p
              else if newsize = 0 then s.live.erase p
              else s.live })
  | .store p i v => some (0, { s with heap := { s.heap with mem := setField s.heap.mem p i v } })

/-- One allowed call. -/
def step (op : MemheapOp) : Option (ℕ × MemheapSys) := if s.Allowed op then s.call op else none

end MemheapSys

end RtThread
