import RtThread.Ipc.Basic
import RtThread.Lib.LinkedList
import RtThread.Lib.Runs
import RtThread.Memory.Basic

/-!
# Message queues

Models of `rt_mq_init`, `rt_mq_create`, `rt_mq_send`, `rt_mq_urgent`, `rt_mq_recv`
and `rt_mq_control` (`src/ipc.c`, lines 1740–2282), and of threads and interrupt
handlers that use one message queue.

The nodes of the pool are linked into the queue or into a free list. A send takes
a node off the free list in one section with interrupts disabled, fills it with
interrupts enabled, and links it in a second section; a receive takes a node off
the queue, copies the message out and puts the node back. In between, the node is
in neither list and other calls run. `MqSys.calls` holds the local variables of
the calls that are under way.

A node is modelled by its index in the pool. All fields of the queue object are
16-bit numbers but the pointers.
-/

namespace RtThread

open Runs Function

/-- `struct rt_mq_message *`, by the index of the node in the pool. -/
abbrev MqNode := ℕ

abbrev Byte := BitVec 8

/-- `sizeof(struct rt_mq_message)`, one pointer. -/
def sizeofStructMqMessage : ℕ := 4

/-- `struct rt_messagequeue` without its wait list, with the pool: the `next` field of each node and
the bytes behind it. -/
structure MessageQueue where
  msgSize : ℕ
  maxMsgs : ℕ
  entry : ℕ
  msgQueueHead : Option MqNode
  msgQueueTail : Option MqNode
  msgQueueFree : Option MqNode
  next : MqNode → Option MqNode
  data : MqNode → ℕ → Byte
  flag : IpcFlag

/-- "init message empty list": the loop over the nodes, on `next` and `msg_queue_free`. -/
def initFreeLoop (next : MqNode → Option MqNode) : ℕ → (MqNode → Option MqNode) × Option MqNode
  | 0 => (next, none)
  | temp + 1 =>
    let (next, free) := initFreeLoop next temp
    (update next temp free, some temp)

/-- The lists of a new queue with `maxMsgs` nodes; `next` and `data` are what the pool contains. -/
def newMessageQueue (next : MqNode → Option MqNode) (data : MqNode → ℕ → Byte)
    (msgSize maxMsgs : ℕ) (flag : IpcFlag) : MessageQueue :=
  let (next, free) := initFreeLoop next maxMsgs
  { msgSize := msgSize
    maxMsgs := maxMsgs
    entry := 0
    msgQueueHead := none
    msgQueueTail := none
    msgQueueFree := free
    next := next
    data := data
    flag := flag }

/-- `rt_mq_init` (lines 1740–1787). -/
def rtMqInit (next : MqNode → Option MqNode) (data : MqNode → ℕ → Byte)
    (msgSize poolSize : ℕ) (flag : IpcFlag) : MessageQueue :=
  let msgSize := rtAlign msgSize % 2 ^ 16
  newMessageQueue next data msgSize (poolSize / (msgSize + sizeofStructMqMessage) % 2 ^ 16) flag

/-- `rt_mq_create` (lines 1823–1878), once the pool is allocated. -/
def rtMqCreate (next : MqNode → Option MqNode) (data : MqNode → ℕ → Byte)
    (msgSize maxMsgs : ℕ) (flag : IpcFlag) : MessageQueue :=
  newMessageQueue next data (rtAlign msgSize % 2 ^ 16) (maxMsgs % 2 ^ 16) flag

namespace MessageQueue

variable (mq : MessageQueue) (msg : MqNode)

/-! ## What is done to the lists -/

/-- "get a free list, there must be an empty item", "move free list pointer". -/
def takeFree : Option (MqNode × MessageQueue) :=
  match mq.msgQueueFree with
  | none => none
  | some msg => some (msg, { mq with msgQueueFree := mq.next msg })

/-- "put message to free list". -/
def putFree : MessageQueue :=
  { mq with
    next := update mq.next msg mq.msgQueueFree
    msgQueueFree := some msg }

/-- "copy buffer". -/
def copyIn (buffer : List Byte) : MessageQueue :=
  { mq with data := update mq.data msg fun i => buffer.getD i (mq.data msg i) }

/-- "the msg is the new tailer of list, the next shall be NULL". -/
def clearNext : MessageQueue := { mq with next := update mq.next msg none }

/-- "link msg to message queue" in `rt_mq_send`, with the count. -/
def linkTail : MessageQueue :=
  { mq with
    next := match mq.msgQueueTail with
      | some tail => update mq.next tail (some msg)
      | none => mq.next
    msgQueueTail := some msg
    msgQueueHead := match mq.msgQueueHead with
      | none => some msg
      | some head => some head
    entry := (mq.entry + 1) % 2 ^ 16 }

/-- "link msg to the beginning of message queue" in `rt_mq_urgent`, with the count. -/
def linkHead : MessageQueue :=
  { mq with
    next := update mq.next msg mq.msgQueueHead
    msgQueueHead := some msg
    msgQueueTail := match mq.msgQueueTail with
      | none => some msg
      | some tail => some tail
    entry := (mq.entry + 1) % 2 ^ 16 }

/-- "move message queue head", "reach queue tail, set to NULL". -/
def dropHead : MessageQueue :=
  { mq with
    msgQueueHead := mq.next msg
    msgQueueTail := if mq.msgQueueTail = some msg then none else mq.msgQueueTail }

/-- "get message from queue" in `rt_mq_recv`; `none` if `msg_queue_head` is null, which the code
would dereference. -/
def takeHead : Option (MqNode × MessageQueue) :=
  match mq.msgQueueHead with
  | none => none
  | some msg => some (msg, { mq.dropHead msg with entry := (mq.entry + 2 ^ 16 - 1) % 2 ^ 16 })

/-- "release all message in the queue" in `rt_mq_control`, at most `n` rounds. -/
def releaseAll : ℕ → MessageQueue → Option MessageQueue
  | n, mq =>
    match mq.msgQueueHead with
    | none => some mq
    | some msg =>
      match n with
      | 0 => none
      | n + 1 => releaseAll n ((mq.dropHead msg).putFree msg)

end MessageQueue

/-- A thread or an interrupt handler. -/
inductive Context
  | thread (t : Tid)
  | handler (n : ℕ)
  deriving DecidableEq, Repr

/-- The local variables of a call that is under way: a send with its node before and after the copy,
a receive that waits, or one with its node before and after the copy. -/
inductive MqCall
  | filling (urgent : Bool) (msg : MqNode) (buffer : List Byte)
  | linking (urgent : Bool) (msg : MqNode)
  | waiting (size : ℕ) (timeout : ℤ) (tickDelta : ℕ)
  | reading (msg : MqNode) (size : ℕ)
  | freeing (msg : MqNode)
  deriving DecidableEq, Repr

/-- The node that the call holds. -/
def MqCall.msg : MqCall → Option MqNode
  | .filling _ msg _ => some msg
  | .linking _ msg => some msg
  | .waiting .. => none
  | .reading msg _ => some msg
  | .freeing msg => some msg

/-- How a step ends. `linked` and `taken`: a node has been linked into the queue, or taken out of it
by a receive. `copied`: what a receive has copied. -/
inductive MqResult
  | linked (urgent : Bool) (msg : MqNode)
  | taken (msg : MqNode)
  | copied (message : List Byte)
  | reset
  | returned (e : Err)
  | blocked
  | void
  deriving DecidableEq, Repr

/-- Threads and the message queue they use, and `rt_tick`. -/
structure MqSys where
  kernel : Kernel Unit
  mq : MessageQueue
  tick : ℕ
  calls : Context → Option MqCall

namespace MqSys

variable (M : ℕ) (s : MqSys) (c : Context)

/-- The call of `c` goes on with these local variables, or is over. -/
def setCall (call : Option MqCall) : MqSys := { s with calls := update s.calls c call }

/-- `rt_mq_send` (lines 1926–1958) and `rt_mq_urgent` (lines 2014–2046) up to the end of their first
section. -/
def rtMqSend (urgent : Bool) (buffer : List Byte) : Option (MqResult × MqSys) :=
  -- RT_ASSERT(size != 0)
  if buffer.length = 0 then none
  else if s.mq.msgSize < buffer.length then some (.returned .error, s)
  else
    match s.mq.takeFree with
    | none => some (.returned .efull, s)
    | some (msg, mq) =>
      some (.void, { s with mq := mq }.setCall c (some (.filling urgent msg buffer)))

/-- "resume suspended thread" at the end of both functions. -/
def resumeReceiver : MqSys :=
  if s.kernel.suspendThread () ≠ [] then
    { s with kernel := (s.kernel.rtIpcListResume M ()).rtSchedule M }
  else s

/-- `tick_delta` when the thread blocks. -/
def startTick (timeout : ℤ) (tickDelta : ℕ) : ℕ := if 0 < timeout then s.tick else tickDelta

/-- `rt_mq_recv` from the test of its loop on, until it blocks, returns or has taken a message
(lines 2129–2207). -/
def recvLoop (size : ℕ) (timeout : ℤ) (tickDelta : ℕ) : Option (MqResult × MqSys) :=
  if s.mq.entry = 0 then
    -- message queue is empty; RT_DEBUG_IN_THREAD_CONTEXT
    match c with
    | .handler _ => none
    | .thread t =>
      let k := s.kernel.modify t fun th => { th with error := .eok }
      if timeout = 0 then
        some (.returned .etimeout, { s with
          kernel := k.modify t fun th => { th with error := .etimeout } })
      else
        some (.blocked, { s with
          kernel := k.blockOn M t () s.mq.flag timeout }.setCall c
            (some (.waiting size timeout (s.startTick timeout tickDelta))))
  else
    s.mq.takeHead.map fun (msg, mq) =>
      (.taken msg, { s with mq := mq }.setCall c (some (.reading msg size)))

/-- `rt_mq_recv` (lines 2097–2223), up to the end of its first section. -/
def rtMqRecv (size : ℕ) (timeout : ℤ) : Option (MqResult × MqSys) :=
  -- RT_ASSERT(size != 0)
  if size = 0 then none
  -- for non-blocking call
  else if s.mq.entry = 0 ∧ timeout = 0 then some (.returned .etimeout, s)
  else s.recvLoop M c size timeout 0

/-- `rt_tick_get() - tick_delta`. -/
def elapsed (tickDelta : ℕ) : ℕ := (s.tick + 2 ^ 32 - tickDelta) % 2 ^ 32

/-- "if it's not waiting forever and then re-calculate timeout tick". -/
def remaining (timeout : ℤ) (tickDelta : ℕ) : ℤ :=
  if 0 < timeout then
    let timeout := (timeout - s.elapsed tickDelta).bmod (2 ^ 32)
    if timeout < 0 then 0 else timeout
  else timeout

/-- The rest of the loop of `rt_mq_recv`, once thread `t` runs again. -/
def rtMqResume (t : Tid) : Option (MqResult × MqSys) :=
  match s.calls (.thread t) with
  | some (.waiting size timeout tickDelta) =>
    let s := s.setCall (.thread t) none
    let th := s.kernel.thread t
    if th.error ≠ .eok then some (.returned th.error, s)
    else s.recvLoop M (.thread t) size (s.remaining timeout tickDelta) (s.elapsed tickDelta)
  | _ => none

/-- What a call does with interrupts enabled: a send fills its node, a receive copies the message
out. -/
def copy : Option (MqResult × MqSys) :=
  match s.calls c with
  | some (.filling urgent msg buffer) =>
    let mq := if urgent then s.mq else s.mq.clearNext msg
    some (.void, { s with mq := mq.copyIn msg buffer }.setCall c (some (.linking urgent msg)))
  | some (.reading msg size) =>
    let n := if s.mq.msgSize < size then s.mq.msgSize else size
    some (.copied ((List.range n).map (s.mq.data msg)), s.setCall c (some (.freeing msg)))
  | _ => none

/-- The second section of a call, up to its return (lines 1966–1999, 2052–2081 and 2213–2222). -/
def finish : Option (MqResult × MqSys) :=
  match s.calls c with
  | some (.linking urgent msg) =>
    let mq := if urgent then s.mq.linkHead msg else s.mq.linkTail msg
    some (.linked urgent msg, ({ s with mq := mq }.setCall c none).resumeReceiver M)
  | some (.freeing msg) =>
    some (.returned .eok, { s with mq := s.mq.putFree msg }.setCall c none)
  | _ => none

/-- `rt_mq_control` with `RT_IPC_CMD_RESET` (lines 2236–2280). -/
def rtMqReset : Option (MqResult × MqSys) :=
  (s.mq.releaseAll s.mq.maxMsgs).map fun mq =>
    (.reset, { s with
      kernel := (s.kernel.rtIpcListResumeAll M ()).rtSchedule M
      mq := { mq with entry := 0 } })

end MqSys

/-- The steps of the system. `copy` and `finish`: a call goes on. `resume t`: thread `t`, woken in
`rt_mq_recv`, runs again. `timeout t`: the timer of thread `t` expires. -/
inductive MqOp
  | schedulerStart
  | startup (t : Tid)
  | tick
  | send (c : Context) (buffer : List Byte)
  | urgent (c : Context) (buffer : List Byte)
  | recv (c : Context) (size : ℕ) (timeout : ℤ)
  | copy (c : Context)
  | finish (c : Context)
  | resume (t : Tid)
  | reset (c : Context)
  | timeout (t : Tid)
  deriving DecidableEq, Repr

namespace MqSys

variable (M : ℕ) (s : MqSys) (c : Context)

/-- `c` can run: an interrupt handler, or a thread that is ready. -/
def CanRun : Context → Prop
  | .thread t => (s.kernel.thread t).stat = .ready
  | .handler _ => True

instance : (c : Context) → Decidable (s.CanRun c)
  | .thread _ => inferInstanceAs (Decidable (_ = _))
  | .handler _ => inferInstanceAs (Decidable True)

/-- `c` can make a call: it is not in the middle of one. -/
def CanCall : Prop := s.CanRun c ∧ s.calls c = none
  deriving Decidable

/-- `rt_thread_self()` is the caller from here on, if the caller is a thread. -/
def dispatch : Context → MqSys
  | .thread t => { s with kernel := s.kernel.dispatch t }
  | .handler _ => s

/-- One step. Whichever ready thread or handler runs next goes on. -/
def step : MqOp → Option (MqResult × MqSys)
  | .schedulerStart => some (.void, { s with kernel := s.kernel.rtSystemSchedulerStart M })
  | .startup t => (s.kernel.rtThreadStartup M t).map fun k =>
      (.returned .eok, { s with kernel := k })
  | .tick => some (.void, { s with tick := (s.tick + 1) % 2 ^ 32 })
  | .send c buffer => if s.CanCall c then (s.dispatch c).rtMqSend c false buffer else none
  | .urgent c buffer => if s.CanCall c then (s.dispatch c).rtMqSend c true buffer else none
  | .recv c size timeout => if s.CanCall c then (s.dispatch c).rtMqRecv M c size timeout else none
  | .copy c => if s.CanRun c then (s.dispatch c).copy c else none
  | .finish c => if s.CanRun c then (s.dispatch c).finish M c else none
  | .resume t =>
    if s.CanRun (.thread t) then (s.dispatch (.thread t)).rtMqResume M t else none
  | .reset c => if s.CanCall c then (s.dispatch c).rtMqReset M else none
  | .timeout t => (s.kernel.threadTimerExpires M t).map fun k => (.void, { s with kernel := k })

/-- The queue has just been initialised or created, and nobody uses it. -/
structure Initial : Prop where
  mq : ∃ next data msgSize n flag,
    s.mq = rtMqInit next data msgSize n flag ∨ s.mq = rtMqCreate next data msgSize n flag
  suspendThread : s.kernel.suspendThread () = []
  calls : ∀ c, s.calls c = none

end MqSys

end RtThread
