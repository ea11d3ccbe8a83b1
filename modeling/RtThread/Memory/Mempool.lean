import RtThread.Ipc.Basic
import RtThread.Lib.LinkedList
import RtThread.Lib.Runs
import RtThread.Memory.Basic

/-!
# Memory pools

Model of `src/mempool.c`: `rt_mp_init`, `rt_mp_create`, `rt_mp_alloc` and
`rt_mp_free`, and of threads and interrupt handlers that use one pool.

A pool is an array of blocks, each with one word in front. The word of a free
block links it to the next free block; the word of a block that is handed out
points to the control block of the pool. Memory is modelled by its 32-bit words,
by address; address 0 is `RT_NULL`.

A thread that is woken in `rt_mp_alloc` reads its error code and the tick with
interrupts enabled, and then tests the pool again in a section of its own; other
threads may run before that section. `MpSys.calls` holds the local variables of
the calls that are under way, `MpSys.live` the pointers that have been returned
and not been freed. A function whose `RT_ASSERT` fails, or that takes the list
head of an empty list for a thread, returns `none`.
-/

namespace RtThread

open Runs Function

/-- `sizeof(rt_uint8_t *)`. -/
def sizeofPtr : ℕ := 4

/-- `struct rt_mempool`, without its wait list. -/
structure Mempool where
  startAddress : ℕ
  size : ℕ
  blockSize : ℕ
  blockList : ℕ
  blockTotalCount : ℕ
  blockFreeCount : ℕ
  suspendThreadCount : ℕ
  deriving DecidableEq, Repr

/-- `block_ptr + i * (block_size + sizeof(rt_uint8_t *))`. -/
def blockAt (blockPtr blockSize i : ℕ) : ℕ := (blockPtr + i * (blockSize + sizeofPtr)) % 2 ^ 32

/-- The loop of "initialize free block list", for the offsets below the last argument. -/
def initBlockLoop (mem : ℕ → ℕ) (blockPtr blockSize : ℕ) : ℕ → ℕ → ℕ
  | 0 => mem
  | offset + 1 =>
    update (initBlockLoop mem blockPtr blockSize offset)
      (blockAt blockPtr blockSize offset) (blockAt blockPtr blockSize (offset + 1))

/-- "initialize free block list". Without blocks, the last assignment is to the word in front of the
pool. -/
def initBlocks (mem : ℕ → ℕ) (blockPtr blockSize total : ℕ) : ℕ → ℕ :=
  update (initBlockLoop mem blockPtr blockSize total)
    (blockAt blockPtr blockSize (total + 2 ^ 32 - 1)) 0

/-- The fields that `rt_mp_init` and `rt_mp_create` set in the same way. -/
def newMempool (start size blockSize total : ℕ) : Mempool where
  startAddress := start
  size := size
  blockSize := blockSize
  blockList := start
  blockTotalCount := total
  blockFreeCount := total
  suspendThreadCount := 0

/-- `rt_mp_init` (lines 91–136), with the memory of the pool. -/
def rtMpInit (mem : ℕ → ℕ) (start size blockSize : ℕ) : Mempool × (ℕ → ℕ) :=
  let size := rtAlignDown size
  let blockSize := rtAlign blockSize
  let total := size / add32 blockSize sizeofPtr
  (newMempool start size blockSize total, initBlocks mem start blockSize total)

/-- The size that `rt_mp_create` asks `rt_malloc` for. -/
def mpCreateSize (blockCount blockSize : ℕ) : ℕ :=
  add32 (rtAlign blockSize) sizeofPtr * blockCount % 2 ^ 32

/-- `rt_mp_create` (lines 197–250), where `rt_malloc` has returned `start`. -/
def rtMpCreate (mem : ℕ → ℕ) (start blockCount blockSize : ℕ) : Mempool × (ℕ → ℕ) :=
  let size := mpCreateSize blockCount blockSize
  let blockSize := rtAlign blockSize
  (newMempool start size blockSize blockCount, initBlocks mem start blockSize blockCount)

/-- The local variables of an `rt_mp_alloc` under way: the thread is suspended, or it has run again
and is about to test the pool. -/
inductive MpCall
  | suspended (time : ℤ) (beforeSleep : ℕ)
  | retrying (time : ℤ) (beforeSleep : ℕ)
  deriving DecidableEq, Repr

/-- How a step ends. `allocated p`: `rt_mp_alloc` returns `p`. `null`: it returns `RT_NULL`.
`expired`: the timer of a thread that waits for a block has expired. -/
inductive MpResult
  | allocated (p : ℕ)
  | null
  | blocked
  | expired
  | void
  deriving DecidableEq, Repr

/-- Threads and the pool they use; `mpAddr` is the address of its control block. -/
structure MpSys where
  kernel : Kernel Unit
  mp : Mempool
  mpAddr : ℕ
  mem : ℕ → ℕ
  tick : ℕ
  calls : Tid → Option MpCall
  live : List ℕ

namespace MpSys

variable (M : ℕ) (s : MpSys) (t : Tid)

/-- "need suspend thread" in `rt_mp_alloc`, up to `rt_schedule` (lines 349–372); the thread goes to
the front of the list. -/
def suspend (time : ℤ) : MpSys :=
  let k := s.kernel.modify t fun th => { th with error := .eok }
  let k := (k.rtThreadSuspend M t).2
  let k := { k with suspendThread := update k.suspendThread () (t :: k.suspendThread ()) }
  let k := if 0 < time then k.startThreadTimer t else k
  { s with
    kernel := k.rtSchedule M
    mp := { s.mp with suspendThreadCount := (s.mp.suspendThreadCount + 1) % 2 ^ 32 } }

/-- "memory block is available" (lines 387–406). -/
def takeBlock : Option (MpResult × MpSys) :=
  let blockPtr := s.mp.blockList
  -- RT_ASSERT(block_ptr != RT_NULL)
  if blockPtr = 0 then none
  else some (.allocated (blockPtr + sizeofPtr), { s with
    mp := { s.mp with
      blockFreeCount := s.mp.blockFreeCount - 1
      blockList := s.mem blockPtr }
    mem := update s.mem blockPtr s.mpAddr
    live := (blockPtr + sizeofPtr) :: s.live })

/-- `rt_mp_alloc` by `self` (`none`: an interrupt handler) from the test of its loop on, until it
returns or blocks. -/
def allocLoop (self : Option Tid) (time : ℤ) (beforeSleep : ℕ) : Option (MpResult × MpSys) :=
  if s.mp.blockFreeCount = 0 then
    if time = 0 then some (.null, s)
    else
      -- RT_DEBUG_NOT_IN_INTERRUPT
      match self with
      | none => none
      | some thread =>
        some (.blocked, { s.suspend M thread time with
          calls := update s.calls thread
            (some (.suspended time (if 0 < time then s.tick else beforeSleep))) })
  else s.takeBlock

/-- `rt_mp_alloc` (lines 321–407). -/
def rtMpAlloc (self : Option Tid) (time : ℤ) : Option (MpResult × MpSys) :=
  s.allocLoop M self time 0

/-- `time` after the suspension that began at `before_sleep` (lines 377–382). -/
def remaining (time : ℤ) (beforeSleep : ℕ) : ℤ :=
  if 0 < time then
    let time := (time - ((s.tick + 2 ^ 32 - beforeSleep) % 2 ^ 32 : ℕ)).bmod (2 ^ 32)
    if time < 0 then 0 else time
  else time

/-- `rt_mp_alloc` after `rt_schedule`, until interrupts are disabled again. -/
def rtMpWoken : Option (MpResult × MpSys) :=
  match s.calls t with
  | some (.suspended time beforeSleep) =>
    if (s.kernel.thread t).error ≠ .eok then
      some (.null, { s with calls := update s.calls t none })
    else
      some (.void, { s with
        calls := update s.calls t
          (some (.retrying (s.remaining time beforeSleep) beforeSleep)) })
  | _ => none

/-- The test of the loop of `rt_mp_alloc`, once more. -/
def rtMpRetry : Option (MpResult × MpSys) :=
  match s.calls t with
  | some (.retrying time beforeSleep) =>
    ({ s with calls := update s.calls t none }).allocLoop M (some t) time beforeSleep
  | _ => none

/-- "increase the free block count", "link the block into the block list". -/
def putBlock (blockPtr : ℕ) : MpSys :=
  { s with
    mp := { s.mp with
      blockFreeCount := (s.mp.blockFreeCount + 1) % 2 ^ 32
      blockList := blockPtr }
    mem := update s.mem blockPtr s.mp.blockList
    live := s.live.erase (blockPtr + sizeofPtr) }

/-- "get the suspended thread", "resume thread" in `rt_mp_free`. -/
def wakeFirst : Option MpSys :=
  match s.kernel.suspendThread () with
  | [] => none
  | thread :: _ =>
    let k := s.kernel.modify thread fun th => { th with error := .eok }
    some { s with
      kernel := (k.rtThreadResume M thread).2.rtSchedule M
      mp := { s.mp with suspendThreadCount := s.mp.suspendThreadCount - 1 } }

/-- `rt_mp_free` (lines 415–465), for a block of which the word in front points to this pool. -/
def rtMpFree (block : ℕ) : Option MpSys :=
  let blockPtr := block - sizeofPtr
  if s.mem blockPtr = s.mpAddr then
    let s := s.putBlock blockPtr
    if 0 < s.mp.suspendThreadCount then s.wakeFirst M else some s
  else none

end MpSys

/-- The steps of the system; calls come from a thread or an interrupt handler. `woken t`: thread
`t`, suspended in `rt_mp_alloc`, runs again. `retry t`: it tests the pool again. `store`: a client
writes to word `i` of a block. `timeout t`: the timer of thread `t` expires. -/
inductive MpOp
  | schedulerStart
  | startup (t : Tid)
  | tick
  | alloc (self : Option Tid) (time : ℤ)
  | woken (t : Tid)
  | retry (t : Tid)
  | free (self : Option Tid) (block : ℕ)
  | store (block i v : ℕ)
  | timeout (t : Tid)
  deriving DecidableEq, Repr

/-- The call does not wait, or it waits forever. -/
def MpOp.untimed : MpOp → Bool
  | .alloc _ time => decide (time ≤ 0)
  | _ => true

namespace MpSys

variable (M : ℕ) (s : MpSys) (t : Tid)

/-- The caller can make a call: an interrupt handler, or a thread that is ready and not in the
middle of one. -/
def CanCall (self : Option Tid) : Prop :=
  ∀ t ∈ self, (s.kernel.thread t).stat = .ready ∧ s.calls t = none
  deriving Decidable

/-- `rt_thread_self()` is the caller from here on, if the caller is a thread. -/
def dispatch : Option Tid → MpSys
  | none => s
  | some t => { s with kernel := s.kernel.dispatch t }

/-- One step. Clients free blocks that they hold, and write to those only. -/
def step : MpOp → Option (MpResult × MpSys)
  | .schedulerStart => some (.void, { s with kernel := s.kernel.rtSystemSchedulerStart M })
  | .startup t => (s.kernel.rtThreadStartup M t).map fun k => (.void, { s with kernel := k })
  | .tick => some (.void, { s with tick := (s.tick + 1) % 2 ^ 32 })
  | .alloc self time =>
    if s.CanCall self then (s.dispatch self).rtMpAlloc M self time else none
  | .woken t =>
    if (s.kernel.thread t).stat = .ready then (s.dispatch (some t)).rtMpWoken t else none
  | .retry t =>
    if (s.kernel.thread t).stat = .ready then (s.dispatch (some t)).rtMpRetry M t else none
  | .free self block =>
    if s.CanCall self ∧ block ∈ s.live then
      ((s.dispatch self).rtMpFree M block).map fun s => (.void, s)
    else none
  | .store block i v =>
    if block ∈ s.live ∧ 4 * i < s.mp.blockSize then
      some (.void, { s with mem := update s.mem (block + 4 * i) v })
    else none
  | .timeout t => (s.kernel.threadTimerExpires M t).map fun k =>
      (if t ∈ s.kernel.suspendThread () then .expired else .void, { s with kernel := k })

/-- A pool of at least one block has just been built by `rt_mp_init` or `rt_mp_create`, no size has
wrapped around, and nobody uses the pool. The end of the pool is an address too. -/
structure Initial : Prop where
  mp : ∃ mem start n blockSize, 0 < start ∧ rtAlign blockSize + sizeofPtr < 2 ^ 32 ∧
    ((s.mp, s.mem) = rtMpInit mem start n blockSize ∧ start + n < 2 ^ 32 ∨
      (s.mp, s.mem) = rtMpCreate mem start n blockSize ∧
        start + (rtAlign blockSize + sizeofPtr) * n < 2 ^ 32)
  blocks : 0 < s.mp.blockTotalCount
  suspendThread : s.kernel.suspendThread () = []
  calls : ∀ t, s.calls t = none
  live : s.live = []

end MpSys

end RtThread
