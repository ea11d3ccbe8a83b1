import Mathlib.Tactic

/-!
# Timers

Model of `src/timer.c`: `rt_timer_start`, `rt_timer_stop`, `rt_timer_detach`,
`rt_timer_control`, `rt_timer_check` and `rt_soft_timer_check`.

The timers that are running are kept in a skip list: `RT_TIMER_SKIP_LIST_LEVEL`
rows, the last of which links all of them, in the order in which they expire. A
row is modelled by the timers it links, in order. A timer has one list node for
each row, and a node that is in no row points to itself; where the code follows
such a node, `nextNode` gives the node itself and the walk of `rt_timer_start`,
which would not end, is `none`. The loop of `rt_timer_check` may not end either;
the model runs a given number of rounds.

The timeout functions are not part of `src/timer.c`. What a timeout function does
to timers is a list of calls, which the model takes from outside. Ticks are 32-bit
numbers. `starts` and `startNo` are not in the source: they count the calls of
`rt_timer_start`.
-/

namespace RtThread

open Function

/-- `rt_timer_t`. -/
abbrev TimerId := ℕ

/-- `rt_tick_t`. -/
abbrev Tick := BitVec 32

/-- `RT_TICK_MAX / 2`. -/
def halfTickMax : ℕ := 0xffffffff / 2

/-- `RT_TIMER_SKIP_LIST_LEVEL` and `RT_TIMER_SKIP_LIST_MASK`. -/
structure SkipConfig where
  level : ℕ
  mask : BitVec 32
  pos : 0 < level

/-- `struct rt_timer` without its list nodes. The first three fields are the bits
`RT_TIMER_FLAG_ACTIVATED`, `RT_TIMER_FLAG_PERIODIC` and `RT_TIMER_FLAG_SOFT_TIMER` of `parent.flag`.
-/
structure Timer where
  activated : Bool
  periodic : Bool
  soft : Bool
  initTick : Tick
  timeoutTick : Tick
  deriving DecidableEq, Repr

/-- `rt_timer_list` and `rt_soft_timer_list`. -/
inductive TimerList
  | hard
  | soft
  deriving DecidableEq, Repr

/-- The list that `rt_timer_start` puts a timer into. -/
def Timer.list (tm : Timer) : TimerList := if tm.soft then .soft else .hard

/-- The commands of `rt_timer_control` that change a timer. -/
inductive TimerCtrl
  | setTime (tick : Tick)
  | setOneshot
  | setPeriodic
  deriving DecidableEq, Repr

/-- The state of `src/timer.c` with the timer objects and `rt_tick`. -/
structure TimerSys where
  tick : Tick
  timer : TimerId → Timer
  rows : TimerList → ℕ → List TimerId
  /-- `random_nr` of `rt_timer_start`. -/
  randomNr : BitVec 32
  /-- `timer_thread` is suspended; its `thread_timer`. -/
  timerThreadSuspended : Bool
  threadTimer : TimerId
  starts : ℕ
  startNo : TimerId → ℕ

/-! ## Walking the rows -/

/-- The part of a row behind `p`, the list head (`none`) or a timer. -/
def behind (row : List TimerId) : Option TimerId → Option (List TimerId)
  | none => some row
  | some x => if x ∈ row then some (row.dropWhile (· ≠ x)).tail else none

/-- The inner loop of `rt_timer_start`: from `p`, with `rest` behind it, to the node after which a
timer that expires at `tick` belongs. -/
def walkRow (timer : TimerId → Timer) (tick : Tick) :
    (rest : List TimerId) → (p : Option TimerId) → Option TimerId
  | [], p => p
  | t :: rest, p =>
    -- the timer inserted early gets called early
    if (timer t).timeoutTick - tick = 0 then walkRow timer tick rest (some t)
    else if ((timer t).timeoutTick - tick).toNat < halfTickMax then p
    else walkRow timer tick rest (some t)

/-- `row_head[r]`. The walk of a row starts at the node where that of the row before has ended. -/
def rowHead (timer : TimerId → Timer) (rows : ℕ → List TimerId) (tick : Tick) :
    ℕ → Option (Option TimerId)
  | 0 => (behind (rows 0) none).map fun rest => walkRow timer tick rest none
  | r + 1 => (rowHead timer rows tick r).bind fun p =>
      (behind (rows (r + 1)) p).map fun rest => walkRow timer tick rest p

/-- `rt_list_insert_after` behind the list head or a timer of the row. -/
def insertAfter (t : TimerId) : Option TimerId → List TimerId → List TimerId
  | none, row => t :: row
  | some _, [] => []
  | some x, y :: row => if y = x then y :: t :: row else y :: insertAfter t (some x) row

/-- The second loop of `rt_timer_start`, over the rows below `r`, from the last one up. -/
def insertHigher (cfg : SkipConfig) (heads : ℕ → Option TimerId) (t : TimerId) :
    (r : ℕ) → (tstNr : BitVec 32) → (ℕ → List TimerId) → ℕ → List TimerId
  | 0, _, rows => rows
  | r + 1, tstNr, rows =>
    if tstNr &&& cfg.mask = 0 then
      insertHigher cfg heads t r (tstNr >>> ((cfg.mask + 1) >>> 1).toNat)
        (update rows r (insertAfter t (heads r) (rows r)))
    else rows

/-- `n->next` for the node of timer `t` in a row. -/
def nextNode (row : List TimerId) (t : TimerId) : Option TimerId :=
  if t ∈ row then (row.dropWhile (· ≠ t)).tail.head? else some t

namespace TimerSys

variable (cfg : SkipConfig) (s : TimerSys) (t : TimerId)

/-- Write to the object of timer `t`. -/
def modify (f : Timer → Timer) : TimerSys :=
  { s with timer := update s.timer t (f (s.timer t)) }

/-- `timer->parent.flag &= ~RT_TIMER_FLAG_ACTIVATED`. -/
def deactivate : TimerSys := s.modify t fun tm => { tm with activated := false }

/-- `_rt_timer_remove` (lines 123–131). -/
def remove : TimerSys := { s with rows := fun l r => (s.rows l r).erase t }

/-- `rt_timer_stop` (lines 419–442); `false` for `-RT_ERROR`. -/
def rtTimerStop : Bool × TimerSys :=
  if (s.timer t).activated then (true, (s.remove t).deactivate t) else (false, s)

/-- `rt_timer_detach` (lines 204–222). -/
def rtTimerDetach : TimerSys := s.remove t

/-- `rt_timer_control` (lines 454–480). -/
def rtTimerControl : TimerCtrl → TimerSys
  | .setTime tick => s.modify t fun tm => { tm with initTick := tick }
  | .setOneshot => s.modify t fun tm => { tm with periodic := false }
  | .setPeriodic => s.modify t fun tm => { tm with periodic := true }

/-- "resume timer thread to check soft timer": `rt_thread_resume` stops the thread timer. -/
def resumeTimerThread : TimerSys :=
  if s.timerThreadSuspended then
    { (s.rtTimerStop s.threadTimer).2 with timerThreadSuspended := false }
  else s

/-- "insert timer to soft timer list" or "to system timer list": the rows with `t` behind the row
heads, with the tower height that `random_nr` gives. -/
def insertRows (rows : ℕ → List TimerId) : Option (ℕ → List TimerId) :=
  let tick := (s.timer t).timeoutTick
  (rowHead s.timer rows tick (cfg.level - 1)).map fun p =>
    let heads := fun r => (rowHead s.timer rows tick r).getD none
    insertHigher cfg heads t (cfg.level - 1) (s.randomNr + 1)
      (update rows (cfg.level - 1) (insertAfter t p (rows (cfg.level - 1))))

/-- The timer is inserted into its list and activated. -/
def link : Option TimerSys :=
  let list := (s.timer t).list
  (s.insertRows cfg t (s.rows list)).map fun rows =>
    { s with
      timer := update s.timer t { s.timer t with activated := true }
      rows := update s.rows list rows
      randomNr := s.randomNr + 1
      starts := s.starts + 1
      startNo := update s.startNo t (s.starts + 1) }

/-- `rt_timer_start` (lines 294–409). -/
def rtTimerStart : Option TimerSys :=
  -- stop timer firstly
  let s := (s.remove t).deactivate t
  -- RT_ASSERT(timer->init_tick < RT_TICK_MAX / 2)
  if (s.timer t).initTick.toNat < halfTickMax then
    let s := s.modify t fun tm => { tm with timeoutTick := s.tick + tm.initTick }
    (s.link cfg t).map fun s => if (s.timer t).soft then s.resumeTimerThread else s
  else none

end TimerSys

/-- What a timeout function, or an interrupt handler or thread that runs in the meantime, does. -/
inductive TimerCall
  | start (t : TimerId)
  | stop (t : TimerId)
  | control (t : TimerId) (cmd : TimerCtrl)
  | tick
  deriving DecidableEq, Repr

namespace TimerSys

variable (cfg : SkipConfig) (s : TimerSys) (t : TimerId)

def call : TimerCall → Option TimerSys
  | .start t => s.rtTimerStart cfg t
  | .stop t => some (s.rtTimerStop t).2
  | .control t cmd => some (s.rtTimerControl t cmd)
  | .tick => some { s with tick := s.tick + 1 }

/-- The calls of one timeout function. -/
def runCalls : List TimerCall → TimerSys → Option TimerSys
  | [], s => some s
  | c :: cs, s => (s.call cfg c).bind (runCalls cs)

/-! ## Timers that expire -/

/-- `(current_tick - t->timeout_tick) < RT_TICK_MAX / 2`. -/
def Due (currentTick : Tick) : Prop := (currentTick - (s.timer t).timeoutTick).toNat < halfTickMax
  deriving Decidable

/-- What follows the timeout function: a periodic timer is started again, another one stopped. -/
def rearm : Option TimerSys :=
  if (s.timer t).periodic ∧ (s.timer t).activated then (s.deactivate t).rtTimerStart cfg t
  else some (s.deactivate t)

/-- Timer `t` expires: it is removed, its timeout function makes `calls`, and it is started again or
stopped. -/
def expire (calls : List TimerCall) : Option TimerSys :=
  (runCalls cfg calls (s.remove t)).bind fun s => s.rearm cfg t

/-- The loop of `rt_timer_check` (lines 499–540), at most `rounds` times; `calls k t` is what the
`k`-th timeout function does if its timer is `t`. -/
def checkLoop (calls : ℕ → TimerId → List TimerCall) :
    (rounds k : ℕ) → (currentTick : Tick) → TimerSys → Option TimerSys
  | rounds, k, currentTick, s =>
    match s.rows .hard (cfg.level - 1) with
    | [] => some s
    | t :: _ =>
      if s.Due t currentTick then
        match rounds with
        | 0 => none
        | rounds + 1 =>
          (s.expire cfg t (calls k t)).bind fun s => checkLoop calls rounds (k + 1) s.tick s
      else some s

/-- `rt_timer_check` (lines 488–546). -/
def rtTimerCheck (calls : ℕ → TimerId → List TimerCall) (rounds : ℕ) : Option TimerSys :=
  checkLoop cfg calls rounds 0 s.tick s

/-- `rt_timer_list_next_timeout` (lines 110–121). -/
def rtTimerListNextTimeout (l : TimerList) : Tick :=
  match s.rows l (cfg.level - 1) with
  | [] => 0xffffffff
  | t :: _ => (s.timer t).timeoutTick

end TimerSys

/-- The local variables of `rt_soft_timer_check`, with the state; `n` is `none` at the list head. -/
structure SoftCheck where
  sys : TimerSys
  currentTick : Tick
  n : Option TimerId

namespace SoftCheck

variable (cfg : SkipConfig)

/-- `rt_soft_timer_check` (lines 563–628) up to its loop. -/
def begin (s : TimerSys) : SoftCheck :=
  { sys := s, currentTick := s.tick, n := (s.rows .soft (cfg.level - 1)).head? }

/-- The loop is at timer `t`, which is due. -/
def Fires (c : SoftCheck) (t : TimerId) : Prop := c.n = some t ∧ c.sys.Due t c.currentTick

/-- One round of the loop, with the timer whose timeout function is called; `none` if the loop ends.
The next node is read before the timer is removed and its timeout function makes `calls`. -/
def round (c : SoftCheck) (calls : List TimerCall) : Option (TimerId × SoftCheck) :=
  c.n.bind fun t =>
    if c.sys.Due t c.currentTick then
      let n := nextNode (c.sys.rows .soft (cfg.level - 1)) t
      (c.sys.expire cfg t calls).map fun s => (t, { sys := s, currentTick := s.tick, n := n })
    else none

end SoftCheck

/-- The calls of threads and interrupt handlers; `rounds` bounds the loop of `rt_timer_check`.
`tickIncrease`: the clock advances by one tick, and `rt_timer_check` runs (`src/clock.c`).
`threadSuspend`: the timer thread is suspended. -/
inductive TimerOp
  | start (t : TimerId)
  | stop (t : TimerId)
  | detach (t : TimerId)
  | control (t : TimerId) (cmd : TimerCtrl)
  | check (calls : ℕ → TimerId → List TimerCall) (rounds : ℕ)
  | tickIncrease (calls : ℕ → TimerId → List TimerCall) (rounds : ℕ)
  | threadSuspend

namespace TimerSys

variable (cfg : SkipConfig) (s : TimerSys)

/-- One call; `none` if it does not return. -/
def step (op : TimerOp) : Option (Unit × TimerSys) :=
  let s' := match op with
    | .start t => s.rtTimerStart cfg t
    | .stop t => some (s.rtTimerStop t).2
    | .detach t => some (s.rtTimerDetach t)
    | .control t cmd => some (s.rtTimerControl t cmd)
    | .check calls rounds => s.rtTimerCheck cfg calls rounds
    | .tickIncrease calls rounds =>
      { s with tick := s.tick + 1 }.rtTimerCheck cfg calls rounds
    | .threadSuspend => some { s with timerThreadSuspended := true }
  s'.map fun s => ((), s)

/-- `rt_system_timer_init`, `rt_system_timer_thread_init`: no timer is linked, and none is activated
(`_rt_timer_init`). -/
structure Initial : Prop where
  rows : ∀ l r, s.rows l r = []
  activated : ∀ t, (s.timer t).activated = false

end TimerSys

end RtThread
