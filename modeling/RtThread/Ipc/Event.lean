import RtThread.Ipc.Basic
import RtThread.Lib.Runs

/-!
# Events

Models of `rt_event_init`, `rt_event_send`, `rt_event_recv` and
`rt_event_control` (`src/ipc.c`, lines 889–1238), and of threads and interrupt
handlers that use one event object.

`rt_event_send` walks the wait list once. A thread that it wakes with
`RT_EVENT_FLAG_CLEAR` takes its events out of the set, so the threads behind
it are tested against a smaller set than those before it. `Satisfied.mono`
says why one walk is enough: a condition that fails stays failed when the set
shrinks.

* `sendLoop_stranded`: after the walk no waiter's condition is satisfied.
* `no_satisfied_waiter`: nor in any state a run reaches.
-/

namespace RtThread

open Runs Option Kernel BitVec

/-- `RT_EVENT_FLAG_AND`. -/
def eventFlagAnd : BitVec 8 := 0x01

/-- `RT_EVENT_FLAG_OR`. -/
def eventFlagOr : BitVec 8 := 0x02

/-- `RT_EVENT_FLAG_CLEAR`. -/
def eventFlagClear : BitVec 8 := 0x04

/-- `struct rt_event`, without its wait list. -/
structure Event where
  set : BitVec 32
  flag : IpcFlag
  deriving DecidableEq, Repr

/-- `rt_event_init` (lines 889–906). -/
def rtEventInit (flag : IpcFlag) : Event where
  set := 0
  flag := flag

/-- Threads and the event object they use. `calls` are the threads that were suspended in an
`rt_event_recv` that has not returned. -/
structure EventSys where
  kernel : Kernel Unit
  event : Event
  calls : List Tid

namespace EventSys

variable (M : ℕ) (s : EventSys) (t : Tid)

/-! ## Model -/

/-- "condition is satisfied, resume thread": clear the events, resume the thread. -/
def wake : EventSys :=
  let th := s.kernel.thread t
  { s with
    event :=
      if th.eventInfo &&& eventFlagClear ≠ 0 then
        { s.event with set := s.event.set &&& ~~~th.eventSet }
      else s.event
    kernel := (s.kernel.rtThreadResume M t).2 }

/-- One round of the loop of `rt_event_send`, for the waiting thread `t`. The flag says that the
thread was resumed. -/
def sendTo : Bool × EventSys :=
  let th := s.kernel.thread t
  if th.eventInfo &&& eventFlagAnd ≠ 0 then
    if th.eventSet &&& s.event.set = th.eventSet then (true, s.wake M t) else (false, s)
  else if th.eventInfo &&& eventFlagOr ≠ 0 then
    if th.eventSet &&& s.event.set ≠ 0 then
      -- save received event set
      let k := s.kernel.modify t fun th => { th with eventSet := th.eventSet &&& s.event.set }
      (true, ({ s with kernel := k }).wake M t)
    else (false, s)
  else (false, s)

/-- The loop of `rt_event_send` over the wait list as it is at the start: a round reads the next
node before it takes its own thread off the list. -/
def sendLoop : List Tid → Bool × EventSys → Bool × EventSys
  | [], r => r
  | t :: l, (needSchedule, s) =>
    let (resumed, s) := s.sendTo M t
    sendLoop l (needSchedule || resumed, s)

/-- `rt_event_send` (lines 998–1077). -/
def rtEventSend (set : BitVec 32) : Outcome × EventSys :=
  if set = 0 then (.returned .error, s)
  else
    -- set event
    let s := { s with event := { s.event with set := s.event.set ||| set } }
    let (needSchedule, s) := sendLoop M (s.kernel.suspendThread ()) (false, s)
    (.returned .eok, if needSchedule then { s with kernel := s.kernel.rtSchedule M } else s)

/-- The condition of a receiver with option `option` that wants the events `set`, in an event object
that has the events `has`. -/
def Satisfied (option : BitVec 8) (set has : BitVec 32) : Prop :=
  if option &&& eventFlagAnd ≠ 0 then has &&& set = set
  else option &&& eventFlagOr ≠ 0 ∧ has &&& set ≠ 0

instance (option : BitVec 8) (set has : BitVec 32) : Decidable (Satisfied option set has) := by
  unfold Satisfied; infer_instance

/-- `rt_event_recv` (lines 1093–1201) by thread `t`, up to its return or until `rt_schedule` has
switched to another thread; with what is stored in `*recved`. -/
def rtEventRecv (set : BitVec 32) (option : BitVec 8) (timeout : ℤ) :
    Option ((Outcome × Option (BitVec 32)) × EventSys) :=
  if set = 0 then some ((.returned .error, none), s)
  else
    -- reset thread error
    let k := s.kernel.modify t fun th => { th with error := .eok }
    -- either RT_EVENT_FLAG_AND or RT_EVENT_FLAG_OR should be set
    if option &&& eventFlagAnd = 0 ∧ option &&& eventFlagOr = 0 then none
    else if Satisfied option set s.event.set then
      some ((.returned .eok, some (s.event.set &&& set)), { s with
        kernel := k
        event :=
          if option &&& eventFlagClear ≠ 0 then
            { s.event with set := s.event.set &&& ~~~set }
          else s.event })
    else if timeout = 0 then
      -- no waiting
      some ((.returned .etimeout, none), { s with
        kernel := k.modify t fun th => { th with error := .etimeout } })
    else
      -- fill thread event info
      let k := k.modify t fun th => { th with eventSet := set, eventInfo := option }
      some ((.blocked, none), { s with
        kernel := k.blockOn M t () s.event.flag timeout
        calls := t :: s.calls })

/-- The end of `rt_event_recv`, once thread `t` runs again (lines 1180–1200). -/
def rtEventRecvEnd : Option ((Outcome × Option (BitVec 32)) × EventSys) :=
  if t ∈ s.calls then
    let th := s.kernel.thread t
    some ((.returned th.error, if th.error = .eok then some th.eventSet else none),
      { s with calls := s.calls.erase t })
  else none

/-- `rt_event_control` with `RT_IPC_CMD_RESET` (lines 1213–1238). -/
def rtEventReset : Outcome × EventSys :=
  let k := s.kernel.rtIpcListResumeAll M ()
  (.returned .eok, { s with kernel := k.rtSchedule M, event := { s.event with set := 0 } })

end EventSys

/-- The steps of the system. `rt_event_send` and `rt_event_control` may be called by a thread or an
interrupt handler. `resume t`: thread `t`, woken in `rt_event_recv`, runs again. `timeout t`: the
timer of thread `t` expires. -/
inductive EventOp
  | schedulerStart
  | startup (t : Tid)
  | send (self : Option Tid) (set : BitVec 32)
  | recv (t : Tid) (set : BitVec 32) (option : BitVec 8) (timeout : ℤ)
  | resume (t : Tid)
  | reset (self : Option Tid)
  | timeout (t : Tid)
  deriving DecidableEq, Repr

namespace EventSys

variable (M : ℕ) (s : EventSys) (t : Tid)

/-- The caller can make a call: an interrupt handler, or a thread that is ready and not in the
middle of one. -/
def CanCall (self : Option Tid) : Prop :=
  ∀ t ∈ self, (s.kernel.thread t).stat = .ready ∧ t ∉ s.calls
  deriving Decidable

/-- `rt_thread_self()` is the caller from here on, if the caller is a thread. -/
def dispatch : Option Tid → EventSys
  | none => s
  | some t => { s with kernel := s.kernel.dispatch t }

/-- One step. Whichever ready thread runs next makes the call. -/
def step : EventOp → Option ((Outcome × Option (BitVec 32)) × EventSys)
  | .schedulerStart =>
    some ((.void, none), { s with kernel := s.kernel.rtSystemSchedulerStart M })
  | .startup t => (s.kernel.rtThreadStartup M t).map fun k =>
      ((.returned .eok, none), { s with kernel := k })
  | .send self set =>
    if s.CanCall self then
      let (o, s) := (s.dispatch self).rtEventSend M set
      some ((o, none), s)
    else none
  | .recv t set option timeout =>
    if s.CanCall (some t) then (s.dispatch (some t)).rtEventRecv M t set option timeout else none
  | .resume t =>
    if (s.kernel.thread t).stat = .ready then (s.dispatch (some t)).rtEventRecvEnd t else none
  | .reset self =>
    if s.CanCall self then
      let (o, s) := (s.dispatch self).rtEventReset M
      some ((o, none), s)
    else none
  | .timeout t => (s.kernel.threadTimerExpires M t).map fun k =>
      ((.void, none), { s with kernel := k })

/-- The event object has just been initialised and nobody waits. -/
structure Initial : Prop where
  event : ∃ flag, s.event = rtEventInit flag
  suspendThread : s.kernel.suspendThread () = []
  calls : s.calls = []

/-! ## Conditions -/

variable {M s t} {s' : EventSys}

variable {option : BitVec 8} {set : BitVec 32} {timeout : ℤ}

/-- A condition that fails stays failed when events are cleared. -/
theorem Satisfied.mono {has clear : BitVec 32} (h : Satisfied option set (has &&& clear)) :
    Satisfied option set has := by
  unfold Satisfied at h ⊢
  split_ifs at h ⊢ with hand
  · -- a bit of `set` is in `has &&& clear`, so it is in `has`
    apply eq_of_getLsbD_eq
    intro i hi
    have hbit := congrArg (·.getLsbD i) h
    simp only [getLsbD_and] at hbit ⊢
    rw [← hbit]
    cases has.getLsbD i <;> simp
  · refine ⟨h.1, fun hzero => h.2 ?_⟩
    rw [BitVec.and_assoc, BitVec.and_comm clear, ← BitVec.and_assoc, hzero]
    exact zero_and

/-- Thread `t` would be woken by `rt_event_send`. -/
def Wakes (s : EventSys) (t : Tid) : Prop :=
  Satisfied (s.kernel.thread t).eventInfo (s.kernel.thread t).eventSet s.event.set

/-- The invariant: nobody waits whose condition is satisfied. -/
structure EventOk (s : EventSys) : Prop where
  waits : s.kernel.WaitOk
  stranded : ∀ t ∈ s.kernel.suspendThread (), ¬ s.Wakes t

/-! ## The walk over the wait list -/

/-- What a round of the walk does for the thread `t` it looks at. -/
structure Sent (s : EventSys) (t : Tid) (s' : EventSys) : Prop where
  waits : s'.kernel.WaitOk
  list : ∀ u ≠ t, u ∈ s'.kernel.suspendThread () ↔ u ∈ s.kernel.suspendThread ()
  stays : t ∈ s'.kernel.suspendThread () → t ∈ s.kernel.suspendThread () ∧ ¬ s'.Wakes t
  wakes : ∀ u ≠ t, s'.Wakes u → s.Wakes u

theorem sent_wake {k : Kernel Unit} (hw : s.kernel.WaitOk)
    (hsusp : (s.kernel.thread t).stat = .suspend) (hne : ∀ u ≠ t, k.thread u = s.kernel.thread u)
    (hstat : (k.thread t).stat = (s.kernel.thread t).stat)
    (hlist : k.suspendThread = s.kernel.suspendThread) :
    Sent s t (({ s with kernel := k } : EventSys).wake M t) := by
  have hkw : k.WaitOk := by
    refine hw.congr hlist fun u hu => ?_
    by_cases hut : u = t
    · rw [hut, hstat, hsusp]
    · rw [hne u hut, hu]
  have hks : (k.thread t).stat = .suspend := by rw [hstat, hsusp]
  have herase : ∀ q, (k.rtThreadResume M t).2.suspendThread q = (k.suspendThread q).erase t :=
    rtThreadResume_suspendThread hks
  have hthread : ∀ u ≠ t, (k.rtThreadResume M t).2.thread u = s.kernel.thread u := by
    intro u hu
    rw [rtThreadResume_thread hks, modify_thread_ne _ _ hu, hne u hu]
  refine ⟨hkw.erase herase fun u hu => ?_, fun u hu => ?_, fun ht => ?_, fun u hu hwake => ?_⟩
  · simp only [wake, hthread u hu, hne u hu]
  · simp only [wake, herase, hlist]
    exact List.mem_erase_of_ne hu
  · simp only [wake, herase, (hkw.nodup ()).mem_erase_iff] at ht
    exact absurd rfl ht.1
  · simp only [Wakes, wake, hthread u hu] at hwake
    split_ifs at hwake
    · exact hwake.mono
    · exact hwake

theorem sendTo_sent (hw : s.kernel.WaitOk) (ht : t ∈ s.kernel.suspendThread ()) :
    Sent s t (s.sendTo M t).2 := by
  have hsusp := hw.suspended () t ht
  have hkeep : ¬ s.Wakes t → Sent s t s := fun hn =>
    ⟨hw, fun _ _ => Iff.rfl, fun h => ⟨h, hn⟩, fun _ _ h => h⟩
  unfold sendTo
  dsimp only
  split_ifs with hand hset hor hset
  · exact sent_wake (k := s.kernel) hw hsusp (fun _ _ => rfl) rfl rfl
  · refine hkeep fun hwake => hset ?_
    rw [Wakes, Satisfied, if_pos hand] at hwake
    rw [BitVec.and_comm, hwake]
  · exact sent_wake hw hsusp (fun u hu => modify_thread_ne _ _ hu) (by simp) rfl
  · refine hkeep fun hwake => hset ?_
    rw [Wakes, Satisfied, if_neg hand] at hwake
    rw [BitVec.and_comm]
    exact hwake.2
  · refine hkeep fun hwake => hor ?_
    rw [Wakes, Satisfied, if_neg hand] at hwake
    exact hwake.1

/-- The walk. The threads it still has to look at are in the list, the others in the list are not to
be woken. -/
theorem sendLoop_stranded (l : List Tid) (b : Bool) (s : EventSys) (hw : s.kernel.WaitOk)
    (hnodup : l.Nodup) (hmem : ∀ t ∈ l, t ∈ s.kernel.suspendThread ())
    (hdone : ∀ t ∈ s.kernel.suspendThread (), t ∉ l → ¬ s.Wakes t) :
    EventOk (sendLoop M l (b, s)).2 := by
  induction l generalizing b s with
  | nil => exact ⟨hw, fun t ht => hdone t ht (by simp)⟩
  | cons t l ih =>
    rw [List.nodup_cons] at hnodup
    have hsent := sendTo_sent (M := M) hw (hmem t (by simp))
    refine ih _ _ hsent.waits hnodup.2 (fun u hu => ?_) fun u hu hn => ?_
    · have hut : u ≠ t := by rintro rfl; exact hnodup.1 hu
      exact (hsent.list u hut).mpr (hmem u (by simp [hu]))
    · by_cases hut : u = t
      · subst hut; exact (hsent.stays hu).2
      · intro hwake
        exact hdone u ((hsent.list u hut).mp hu) (by simp [hut, hn]) (hsent.wakes u hut hwake)

/-! ## Steps and runs -/

theorem EventOk.dispatch (h : EventOk s) (self : Option Tid) : EventOk (s.dispatch self) := by
  cases self with
  | none => exact h
  | some t => exact ⟨h.waits.dispatch t, h.stranded⟩

/-- Steps that add no waiter, leave the waiters' conditions alone and add no events. -/
theorem EventOk.of_fewer (h : EventOk s) (hw : s'.kernel.WaitOk)
    (hlist : ∀ t ∈ s'.kernel.suspendThread (), t ∈ s.kernel.suspendThread () ∧
      (s'.kernel.thread t).eventInfo = (s.kernel.thread t).eventInfo ∧
      (s'.kernel.thread t).eventSet = (s.kernel.thread t).eventSet)
    (hset : ∃ clear, s'.event.set = s.event.set &&& clear) : EventOk s' := by
  refine ⟨hw, fun t ht hwake => ?_⟩
  obtain ⟨hmem, hinfo, hwant⟩ := hlist t ht
  obtain ⟨clear, hclear⟩ := hset
  rw [Wakes, hinfo, hwant, hclear] at hwake
  exact h.stranded t hmem hwake.mono

theorem EventOk.send (h : EventOk s) (set : BitVec 32) : EventOk (s.rtEventSend M set).2 := by
  unfold rtEventSend
  split_ifs with hzero
  · exact h
  · have hloop := sendLoop_stranded (M := M) (s.kernel.suspendThread ()) false
      { s with event := { s.event with set := s.event.set ||| set } } h.waits (h.waits.nodup ())
      (fun _ ht => ht) fun t ht hn => absurd ht hn
    dsimp only
    split_ifs
    · exact ⟨hloop.waits.schedule, by simpa [Wakes] using hloop.stranded⟩
    · exact hloop

/-- A thread whose condition is not satisfied blocks. -/
theorem EventOk.recvBlocks (h : EventOk s) (hready : (s.kernel.thread t).stat = .ready)
    (hsat : ¬ Satisfied option set s.event.set) :
    EventOk { s with
      kernel := ((s.kernel.modify t fun th => { th with error := .eok }).modify t fun th =>
        { th with eventSet := set, eventInfo := option }).blockOn M t () s.event.flag timeout
      calls := t :: s.calls } := by
  set k := (s.kernel.modify t fun th => { th with error := .eok }).modify t fun th =>
    { th with eventSet := set, eventInfo := option } with hk
  have hkw : k.WaitOk := (h.waits.modify rfl).modify rfl
  have hkt : (k.thread t).stat = .ready := by simpa [hk] using hready
  have hthread : (k.blockOn M t () s.event.flag timeout).thread = _ := blockOn_thread hkt
  refine ⟨hkw.blockOn hkt, fun u hu hwake => ?_⟩
  simp only [Wakes, hthread] at hwake
  rcases (mem_blockOn u hkw hkt).mp hu with hmem | ⟨hut, -⟩
  · have hut : u ≠ t := hkw.ne_of_ready hmem hkt
    rw [modify_thread_ne _ _ hut, modify_thread_ne _ _ hut, modify_thread_ne _ _ hut] at hwake
    exact h.stranded u hmem hwake
  · rw [hut] at hwake
    refine hsat ?_
    simpa [hk] using hwake

variable {o : Outcome × Option (BitVec 32)}

theorem EventOk.recv (h : EventOk s) (hready : (s.kernel.thread t).stat = .ready)
    (hs : s.rtEventRecv M t set option timeout = some (o, s')) : EventOk s' := by
  have hother : ∀ u ∈ s.kernel.suspendThread (), u ≠ t := fun u hu =>
    h.waits.ne_of_ready hu hready
  have herror : (s.kernel.modify t fun th => { th with error := .eok }).WaitOk := h.waits.modify rfl
  unfold rtEventRecv at hs
  split_ifs at hs with hzero hopt hsat hclear htime
  · cases hs
    exact h
  · cases hs
    refine h.of_fewer ?_ (fun u hu => ⟨hu, ?_⟩) ⟨_, rfl⟩
    · exact herror
    · simp [hother u hu]
  · cases hs
    refine h.of_fewer ?_ (fun u hu => ⟨hu, ?_⟩) ⟨s.event.set, by simp⟩
    · exact herror
    · simp [hother u hu]
  · cases hs
    refine h.of_fewer ?_ (fun u hu => ⟨hu, ?_⟩) ⟨s.event.set, by simp⟩
    · exact herror.modify (t := t) (f := fun th => { th with error := .etimeout }) rfl
    · simp [hother u hu]
  · cases hs
    exact h.recvBlocks hready hsat

theorem EventOk.reset (h : EventOk s) : EventOk (s.rtEventReset M).2 where
  waits := h.waits.listResumeAll.schedule
  stranded := by simp [rtEventReset, rtIpcListResumeAll_nil h.waits]

theorem EventOk.step {op : EventOp} (h : EventOk s) (hs : s.step M op = some (o, s')) :
    EventOk s' := by
  cases op with
  | schedulerStart =>
    cases hs
    exact ⟨h.waits.congr (by simp) (by simp), by simpa [Wakes] using h.stranded⟩
  | startup t =>
    obtain ⟨k, hk, heq⟩ := map_eq_some_iff.mp hs
    cases heq
    refine h.of_fewer (h.waits.startup hk) (fun u hu => ?_) ⟨s.event.set, by simp⟩
    obtain ⟨hmem, hthread⟩ := h.waits.startup_waiter hk hu
    exact ⟨hmem, by simp [hthread]⟩
  | send self set =>
    simp only [EventSys.step] at hs
    split_ifs at hs
    cases hs
    exact (h.dispatch self).send set
  | recv t set option timeout =>
    simp only [EventSys.step] at hs
    split_ifs at hs with hcall
    exact (h.dispatch (some t)).recv (hcall t rfl).1 hs
  | resume t =>
    simp only [EventSys.step] at hs
    split_ifs at hs
    unfold rtEventRecvEnd at hs
    split at hs
    · cases hs
      exact ⟨(h.dispatch (some t)).waits, h.stranded⟩
    · cases hs
  | reset self =>
    simp only [EventSys.step] at hs
    split_ifs at hs
    cases hs
    exact (h.dispatch self).reset
  | timeout t =>
    obtain ⟨k, hk, heq⟩ := map_eq_some_iff.mp hs
    cases heq
    refine h.of_fewer (h.waits.timeout hk) (fun u hu => ?_) ⟨s.event.set, by simp⟩
    obtain ⟨hut, hmem⟩ := (h.waits.mem_timeout hk).mp hu
    exact ⟨hmem, by simp [threadTimerExpires_other hk hut]⟩

/-- In every state that any interleaving of sends, receives, resets and timeouts reaches, no thread
waits whose condition is satisfied. -/
theorem no_satisfied_waiter {s₀ : EventSys} {tr : List (EventOp × (Outcome × Option (BitVec 32)))}
    (hinit : s₀.Initial) (hrun : Run (EventSys.step M) s₀ tr s) (t : Tid)
    (ht : t ∈ s.kernel.suspendThread ()) :
    ¬ Satisfied (s.kernel.thread t).eventInfo (s.kernel.thread t).eventSet s.event.set := by
  have h0 : EventOk s₀ :=
    ⟨⟨by simp [hinit.suspendThread], by simp [hinit.suspendThread], by simp⟩,
      by simp [hinit.suspendThread]⟩
  have h : EventOk s := hrun.inv h0 fun _ _ _ _ h hs => h.step hs
  exact h.stranded t ht

/-- Thread 0 has priority 20, thread 1 has 15, thread 2 has 10; threads 1 and 2 wait for events 1
and 2, one for both of them, one for any; thread 2 takes event 1 away from thread 1. -/
def sampleEvents : List EventOp :=
  [.startup 0, .schedulerStart, .startup 1, .recv 1 0b11 eventFlagAnd (-1), .startup 2,
    .recv 2 0b11 (eventFlagOr ||| eventFlagClear) 7, .send none 0b01, .resume 2,
    .send (some 2) 0b10]

def sampleSys : EventSys where
  kernel := newThreads fun t => 20 - 5 * t
  event := rtEventInit .prio
  calls := []

theorem sampleEvents_possible : (exec (EventSys.step 32) sampleSys sampleEvents).isSome := by
  decide +kernel

theorem no_satisfied_waiter_sample :
    let s := ((exec (EventSys.step 32) sampleSys sampleEvents).get sampleEvents_possible).2
    s.kernel.suspendThread () = [1] ∧
      ¬ Satisfied (s.kernel.thread 1).eventInfo (s.kernel.thread 1).eventSet s.event.set :=
  ⟨by decide +kernel,
    no_satisfied_waiter ⟨⟨.prio, rfl⟩, rfl, rfl⟩ (Run.of_isSome sampleEvents_possible) 1
      (by decide +kernel)⟩

end EventSys

end RtThread
