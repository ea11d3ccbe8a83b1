import RtThread.Memory.Basic
import RtThread.Lib.BlockChain
import RtThread.Lib.Runs

/-!
# The small memory heap

Model of `src/mem.c`: `rt_system_heap_init`, `rt_malloc`, `rt_realloc`,
`rt_calloc`, `rt_free` and `plug_holes`. The heap is one area of memory; every block starts
with a `struct heap_mem` of three words (`magic` and `used`, `next`, `prev`),
and the area ends with the header `heap_end`.

Memory is modelled by its 32-bit words. A word is addressed by its offset from
`heap_ptr`, in bytes, as `next` and `prev` are; the pointers that the functions
take and return are addresses. `rt_size_t` is an unsigned 32-bit number. A
function whose `RT_ASSERT` fails, or whose loop does not end, returns `none`.
The heap semaphore is not modelled: calls do not overlap.
-/

namespace RtThread

open BlockChain

/-- `HEAP_MAGIC`. -/
def heapMagic : ℕ := 0x1ea0

/-- `MIN_SIZE`. -/
def minSize : ℕ := 12

/-- `MIN_SIZE_ALIGNED`. -/
def minSizeAligned : ℕ := 12

/-- `SIZEOF_STRUCT_MEM`. -/
def sizeofStructMem : ℕ := 12

/-- The variables of `src/mem.c`. `lfree` is an offset from `heap_ptr`. -/
structure Heap where
  heapPtr : ℕ
  memSizeAligned : ℕ
  mem : ℕ → ℕ
  lfree : ℕ
  usedMem : ℕ
  maxMem : ℕ

namespace Heap

variable (h : Heap)

/-- The offset of `heap_end`. -/
def heapEnd : ℕ := h.memSizeAligned + sizeofStructMem

/-! ## `struct heap_mem` -/

/-- `mem->magic`, the lower half of the first word. -/
def magic (o : ℕ) : ℕ := field h.mem o 0 % 2 ^ 16

/-- `mem->used`, the upper half of the first word. -/
def used (o : ℕ) : ℕ := field h.mem o 0 / 2 ^ 16 % 2 ^ 16

def next (o : ℕ) : ℕ := field h.mem o 1

def prev (o : ℕ) : ℕ := field h.mem o 2

def setMagic (o v : ℕ) : Heap := { h with mem := setField h.mem o 0 (v + h.used o * 2 ^ 16) }

def setUsed (o v : ℕ) : Heap := { h with mem := setField h.mem o 0 (h.magic o + v * 2 ^ 16) }

def setNext (o v : ℕ) : Heap := { h with mem := setField h.mem o 1 v }

def setPrev (o v : ℕ) : Heap := { h with mem := setField h.mem o 2 v }

/-! ## Functions -/

/-- "combine mem and mem->next": the block at `mem` takes the space of the block `nmem` behind it.
-/
def combine (mem nmem : ℕ) : Heap :=
  let h := if h.lfree = nmem then { h with lfree := mem } else h
  let h := h.setNext mem (h.next nmem)
  h.setPrev (h.next nmem) mem

/-- "plug hole forward". -/
def plugForward (mem : ℕ) : Heap :=
  let nmem := h.next mem
  if mem ≠ nmem ∧ h.used nmem = 0 ∧ nmem ≠ h.heapEnd then h.combine mem nmem else h

/-- "plug hole backward". -/
def plugBackward (mem : ℕ) : Heap :=
  let pmem := h.prev mem
  if pmem ≠ mem ∧ h.used pmem = 0 then h.combine pmem mem else h

/-- `plug_holes` (lines 136–174) for the block at offset `mem`. -/
def plugHoles (mem : ℕ) : Option Heap :=
  -- RT_ASSERT(mem < heap_end), RT_ASSERT(mem->used == 0)
  if mem < h.heapEnd ∧ h.used mem = 0 then some ((h.plugForward mem).plugBackward mem) else none

/-- "initialize the start of the heap" and "the end of the heap"; `mem` is what the area contains.
-/
def initHeap (mem : ℕ → ℕ) (heapPtr memSizeAligned : ℕ) : Heap :=
  let h : Heap := ⟨heapPtr, memSizeAligned, mem, 0, 0, 0⟩
  let heapEnd := h.heapEnd
  let h := (((h.setMagic 0 heapMagic).setNext 0 heapEnd).setPrev 0 0).setUsed 0 0
  let h := (h.setMagic heapEnd heapMagic).setUsed heapEnd 1
  (h.setNext heapEnd heapEnd).setPrev heapEnd heapEnd

/-- `rt_system_heap_init` (lines 184–231); `none` if the area is refused. -/
def rtSystemHeapInit (mem : ℕ → ℕ) (beginAddr endAddr : ℕ) : Option Heap :=
  let beginAlign := rtAlign (beginAddr % 2 ^ 32)
  let endAlign := rtAlignDown (endAddr % 2 ^ 32)
  if 2 * sizeofStructMem < endAlign ∧ beginAlign ≤ endAlign - 2 * sizeofStructMem then
    some (initHeap mem beginAlign (endAlign - beginAlign - 2 * sizeofStructMem))
  else none

/-- The search loop of `rt_malloc`, at most `fuel` rounds: the offset of a block that fits, or
`none` if there is none. -/
def mallocLoop (size : ℕ) : (fuel ptr : ℕ) → Option (Option ℕ)
  | 0, _ => none
  | fuel + 1, ptr =>
    if ptr < sub32 h.memSizeAligned size then
      if h.used ptr = 0 ∧ size ≤ sub32 (h.next ptr) (ptr + sizeofStructMem) then some (some ptr)
      else mallocLoop size fuel (h.next ptr)
    else some none

/-- `used_mem += n` and the update of `max_mem`. -/
def addUsed (n : ℕ) : Heap :=
  let usedMem := (h.usedMem + n) % 2 ^ 32
  { h with usedMem := usedMem, maxMem := if h.maxMem < usedMem then usedMem else h.maxMem }

/-- "create mem2 struct" at `ptr2` "and insert it between mem and mem->next", in `rt_malloc` (lines
305–319, which also set `mem->used`) and `rt_realloc` (lines 438–448). -/
def split (ptr ptr2 : ℕ) : Heap :=
  let h := (h.setMagic ptr2 heapMagic).setUsed ptr2 0
  let h := h.setNext ptr2 (h.next ptr)
  let h := h.setPrev ptr2 ptr
  let h := h.setNext ptr ptr2
  if h.next ptr2 ≠ h.memSizeAligned + sizeofStructMem then h.setPrev (h.next ptr2) ptr2 else h

/-- The block at `ptr` is taken for `size` bytes: "split large block", or "near fit or exact fit".
-/
def takeBlock (ptr size : ℕ) : Heap :=
  if size + sizeofStructMem + minSizeAligned ≤ sub32 (h.next ptr) (ptr + sizeofStructMem) then
    let h := (h.split ptr (ptr + sizeofStructMem + size)).setUsed ptr 1
    h.addUsed (size + sizeofStructMem)
  else
    let h := h.setUsed ptr 1
    h.addUsed (sub32 (h.next ptr) ptr)

/-- "Find next free block after mem", at most `fuel` rounds. -/
def lfreeLoop : (fuel lfree : ℕ) → Option ℕ
  | 0, _ => none
  | fuel + 1, lfree =>
    if h.used lfree ≠ 0 ∧ lfree ≠ h.heapEnd then lfreeLoop fuel (h.next lfree) else some lfree

/-- More rounds than there can be headers. -/
def rounds : ℕ := h.heapEnd + 2

/-- "update lowest free pointer". -/
def updateLfree : Option Heap := (h.lfreeLoop h.rounds h.lfree).map fun o => { h with lfree := o }

/-- The block at `ptr` is taken for `size` bytes and returned. -/
def mallocBlock (ptr size : ℕ) : Option (ℕ × Heap) :=
  let h := (h.takeBlock ptr size).setMagic ptr heapMagic
  (if ptr = h.lfree then h.updateLfree else some h).bind fun h =>
    -- RT_ASSERTs on the end and on the alignment of the block
    if ptr + sizeofStructMem + size ≤ h.heapEnd ∧ (h.heapPtr + ptr) % 4 = 0 then
      some (h.heapPtr + ptr + sizeofStructMem, h)
    else none

/-- "every data block must be at least MIN_SIZE_ALIGNED long". -/
def blockSize (size : ℕ) : ℕ := if size < minSizeAligned then minSizeAligned else size

/-- `rt_malloc` (lines 246–375): the address it returns, 0 for `RT_NULL`. -/
def rtMalloc (size : ℕ) : Option (ℕ × Heap) :=
  if size = 0 then some (0, h)
  else if h.memSizeAligned < rtAlign size then some (0, h)
  else
    match h.mallocLoop (blockSize (rtAlign size)) h.rounds h.lfree with
    | none => none
    | some none => some (0, h)
    | some (some ptr) => h.mallocBlock ptr (blockSize (rtAlign size))

/-- `used_mem -= n`. -/
def subUsed (n : ℕ) : Heap := { h with usedMem := sub32 h.usedMem n }

/-- The block at offset `mem` becomes unused; `lfree` is lowered to it. -/
def markUnused (mem : ℕ) : Heap :=
  let h := (h.setUsed mem 0).setMagic mem heapMagic
  if mem < h.lfree then { h with lfree := mem } else h

/-- The end of `rt_free`, for the block at offset `mem`. -/
def freeBlock (mem : ℕ) : Option Heap :=
  let h := h.markUnused mem
  (h.subUsed (sub32 (h.next mem) mem)).plugHoles mem

/-- The offset of the header of the block at the address `rmem`. -/
def headerOf (rmem : ℕ) : ℕ := rmem - sizeofStructMem - h.heapPtr

/-- `rt_free` (lines 505–559). -/
def rtFree (rmem : ℕ) : Option Heap :=
  if rmem = 0 then some h
  -- RT_ASSERTs on the address
  else if rmem % 4 = 0 ∧ h.heapPtr ≤ rmem ∧ rmem < h.heapPtr + h.heapEnd then
    -- RT_ASSERT(mem->used), RT_ASSERT(mem->magic == HEAP_MAGIC)
    if h.used (h.headerOf rmem) ≠ 0 ∧ h.magic (h.headerOf rmem) = heapMagic then
      h.freeBlock (h.headerOf rmem)
    else none
  else none

/-- `rt_memcpy` between two blocks, at offsets `dst` and `src`. All sizes are multiples of 4, so
whole words are copied. -/
def rtMemcpy (dst src count : ℕ) : Heap :=
  { h with mem := fun w =>
      if dst ≤ w ∧ w < dst + count then h.mem (w - dst + src) else h.mem w }

/-- "split memory block" in `rt_realloc`, with `size` bytes at `ptr`. -/
def reallocSplit (ptr size newsize : ℕ) : Option Heap :=
  let ptr2 := ptr + sizeofStructMem + newsize
  ((h.subUsed (size - newsize)).split ptr ptr2).plugHoles ptr2

/-- "expand memory" in `rt_realloc`, with `size` bytes at `rmem`. -/
def reallocMove (rmem size newsize : ℕ) : Option (ℕ × Heap) :=
  (h.rtMalloc newsize).bind fun (nmem, h) =>
    if nmem = 0 then some (0, h)
    else
      let h := h.rtMemcpy (nmem - h.heapPtr) (rmem - h.heapPtr) (min size newsize)
      (h.rtFree rmem).map (nmem, ·)

/-- `rt_realloc` for an aligned size and the block with the header at `ptr`, which has `size` bytes.
-/
def reallocBlock (rmem ptr size newsize : ℕ) : Option (ℕ × Heap) :=
  if size = newsize then some (rmem, h)
  else if newsize + sizeofStructMem + minSize < size then
    (h.reallocSplit ptr size newsize).map (rmem, ·)
  else h.reallocMove rmem size newsize

/-- The bytes between the header at `ptr` and the next one. -/
def sizeOf (ptr : ℕ) : ℕ := sub32 (sub32 (h.next ptr) ptr) sizeofStructMem

/-- `rt_realloc` (lines 386–467). -/
def rtRealloc (rmem newsize : ℕ) : Option (ℕ × Heap) :=
  if h.memSizeAligned < rtAlign newsize then some (0, h)
  else if rmem = 0 then h.rtMalloc (rtAlign newsize)
  else if rmem < h.heapPtr ∨ h.heapPtr + h.heapEnd ≤ rmem then some (rmem, h)
  else
    h.reallocBlock rmem (h.headerOf rmem) (h.sizeOf (h.headerOf rmem)) (rtAlign newsize)

/-- `rt_memset(p, 0, count)` for a block at offset `dst`: whole words, and the lower bytes of the
last one. -/
def rtMemset (dst count : ℕ) : Heap :=
  { h with mem := fun w =>
      if dst ≤ w ∧ w + 4 ≤ dst + count then 0
      else if dst ≤ w ∧ w < dst + count then
        h.mem w / 256 ^ (dst + count - w) * 256 ^ (dst + count - w)
      else h.mem w }

/-- `rt_calloc` (lines 483–496). -/
def rtCalloc (count size : ℕ) : Option (ℕ × Heap) :=
  (h.rtMalloc (count * size % 2 ^ 32)).map fun (p, h) =>
    (p, if p = 0 then h else h.rtMemset (p - h.heapPtr) (count * size % 2 ^ 32))

end Heap

/-- A heap and its clients: `live` are the pointers they have got and not released. -/
structure MemSys where
  heap : Heap
  live : List ℕ

/-- The calls, and a client that writes to the `i`-th word of a block it has. -/
inductive MemOp
  | malloc (size : ℕ)
  | free (p : ℕ)
  | realloc (p newsize : ℕ)
  | store (p i v : ℕ)
  deriving DecidableEq, Repr

namespace MemSys

variable (s : MemSys)

/-- One returning call, with the pointer it returns. A `rt_realloc` that returns `RT_NULL` has not
released anything. -/
def step : MemOp → Option (ℕ × MemSys)
  | .malloc size => (s.heap.rtMalloc size).map fun (q, h) =>
      (q, { heap := h, live := if q = 0 then s.live else q :: s.live })
  | .free p =>
    if p ∈ s.live then
      (s.heap.rtFree p).map fun h => (0, { heap := h, live := s.live.erase p })
    else none
  | .realloc p newsize =>
    if p = 0 ∨ p ∈ s.live then
      (s.heap.rtRealloc p newsize).map fun (q, h) =>
        (q, { heap := h, live := if q = 0 then s.live else q :: s.live.erase p })
    else none
  | .store p i v =>
    let o := s.heap.headerOf p
    if p ∈ s.live ∧ o + sizeofStructMem + 4 * i + 4 ≤ s.heap.next o then
      let mem := setField s.heap.mem (o + sizeofStructMem) i v
      some (0, { s with heap := { s.heap with mem := mem } })
    else none

end MemSys

end RtThread
