import Mathlib.Tactic

/-!
# Threads, ready queue and wait lists

The data shared by `src/scheduler.c`, `src/thread.c` and `src/ipc.c`: the
thread control block, the ready lists with their bitmap, and the lists that
the IPC objects keep their suspended threads in.

A thread has one list node, `thread->tlist`, which is linked into at most one
of these lists. The lists are modelled by the threads they link, in order, so
`rt_list_insert_before` at a list head is an append, `rt_list_insert_after` a
cons, and `rt_list_remove(&thread->tlist)` takes the thread out of whichever
list holds it (`Kernel.listRemove`).

`RT_THREAD_PRIORITY_MAX` is a parameter `M` of the model (`rtconfig.h` sets
it to 32, the kernel supports up to 256). `Q` is the type of the IPC wait
lists of the system at hand.
-/

namespace RtThread

/-- `struct rt_thread *`. -/
abbrev Tid := ℕ

/-- The values of `thread->stat` that the kernel stores (`include/rtdef.h`). An object that is no
thread (yet, or any more) has `close`. -/
inductive Stat
  | init
  | ready
  | suspend
  | close
  deriving DecidableEq, Repr

/-- `rt_err_t`: `RT_EOK`, `-RT_ERROR`, `-RT_ETIMEOUT`, `-RT_EFULL`. -/
inductive Err
  | eok
  | error
  | etimeout
  | efull
  deriving DecidableEq, Repr

/-- `struct rt_thread`. `number` and `highMask` exist only for `RT_THREAD_PRIORITY_MAX > 32` and are
not used otherwise. `timerLinked` says that `thread_timer` is in the timer list. -/
structure Thread where
  stat : Stat
  currentPriority : ℕ
  initPriority : ℕ
  number : ℕ
  highMask : BitVec 8
  numberMask : BitVec 32
  error : Err
  eventSet : BitVec 32
  eventInfo : BitVec 8
  timerLinked : Bool
  cleanup : Bool
  systemObject : Bool

/-- The state of the scheduler (`src/scheduler.c`) with the thread objects and the wait lists of the
IPC objects. -/
structure Kernel (Q : Type) where
  thread : Tid → Thread
  /-- `rt_thread_priority_table`. -/
  priorityTable : ℕ → List Tid
  /-- `rt_thread_ready_priority_group`. -/
  readyPriorityGroup : BitVec 32
  /-- `rt_thread_ready_table`. -/
  readyTable : ℕ → BitVec 8
  /-- `rt_current_thread`. -/
  currentThread : Option Tid
  /-- `rt_scheduler_lock_nest`. -/
  schedulerLockNest : ℤ
  /-- `rt_thread_defunct`. -/
  threadDefunct : List Tid
  /-- `suspend_thread` of each IPC object. -/
  suspendThread : Q → List Tid

namespace Kernel

variable {Q : Type} (k : Kernel Q) (t u : Tid)

/-- Write to the object of thread `t`. -/
def modify (f : Thread → Thread) : Kernel Q :=
  { k with thread := Function.update k.thread t (f (k.thread t)) }

/-- `rt_list_remove(&thread->tlist)`. -/
def listRemove : Kernel Q :=
  { k with
    priorityTable := fun p => (k.priorityTable p).erase t
    threadDefunct := k.threadDefunct.erase t
    suspendThread := fun q => (k.suspendThread q).erase t }

section Modify

variable (f : Thread → Thread)

@[simp] theorem modify_thread_self : (k.modify t f).thread t = f (k.thread t) := by
  simp [modify]

@[simp] theorem modify_thread_ne {t u : Tid} (h : u ≠ t) :
    (k.modify t f).thread u = k.thread u := by
  simp [modify, h]

theorem modify_thread_apply :
    (k.modify t f).thread u = if u = t then f (k.thread t) else k.thread u := by
  by_cases h : u = t
  · subst h; simp
  · simp [h]

@[simp] theorem modify_priorityTable : (k.modify t f).priorityTable = k.priorityTable := rfl

@[simp] theorem modify_readyPriorityGroup :
    (k.modify t f).readyPriorityGroup = k.readyPriorityGroup := rfl

@[simp] theorem modify_readyTable : (k.modify t f).readyTable = k.readyTable := rfl

@[simp] theorem modify_currentThread : (k.modify t f).currentThread = k.currentThread := rfl

@[simp] theorem modify_schedulerLockNest :
    (k.modify t f).schedulerLockNest = k.schedulerLockNest := rfl

@[simp] theorem modify_threadDefunct : (k.modify t f).threadDefunct = k.threadDefunct := rfl

@[simp] theorem modify_suspendThread : (k.modify t f).suspendThread = k.suspendThread := rfl

end Modify

@[simp] theorem listRemove_thread : (k.listRemove t).thread = k.thread := rfl

@[simp] theorem listRemove_priorityTable (p : ℕ) :
    (k.listRemove t).priorityTable p = (k.priorityTable p).erase t := rfl

@[simp] theorem listRemove_readyPriorityGroup :
    (k.listRemove t).readyPriorityGroup = k.readyPriorityGroup := rfl

@[simp] theorem listRemove_readyTable : (k.listRemove t).readyTable = k.readyTable := rfl

@[simp] theorem listRemove_currentThread : (k.listRemove t).currentThread = k.currentThread := rfl

@[simp] theorem listRemove_schedulerLockNest :
    (k.listRemove t).schedulerLockNest = k.schedulerLockNest := rfl

@[simp] theorem listRemove_threadDefunct :
    (k.listRemove t).threadDefunct = k.threadDefunct.erase t := rfl

@[simp] theorem listRemove_suspendThread (q : Q) :
    (k.listRemove t).suspendThread q = (k.suspendThread q).erase t := rfl

end Kernel

end RtThread
