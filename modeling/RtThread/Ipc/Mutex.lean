import RtThread.Ipc.Basic
import RtThread.Lib.Runs

/-!
# Mutexes

Models of `rt_mutex_init`, `rt_mutex_take` and `rt_mutex_release`
(`src/ipc.c`, lines 525–859) and of a system of threads that use any number of
mutexes. A thread that blocks in `rt_mutex_take` is in the middle of the call
until it runs again; `MutexSys.calls` records this.

Every step is one critical section with the `rt_schedule` that follows it.
`takeEffect` and `releaseEffect` say once what the two functions can do; the
invariants of the system are derived from them.

* `MutexOk`: the state machine of each mutex.
* `mutexOk_run`: it holds in every state a run reaches.
* `mutex_take_returns`: the calls return; `mutex->owner` is never
  dereferenced when it is `RT_NULL`.
-/

namespace RtThread

open Runs List Function Option Kernel Nat

/-- `struct rt_mutex`, without the wait list, which is in the kernel. `value` is a `rt_uint16_t`,
`original_priority` and `hold` are `rt_uint8_t`. -/
structure Mutex where
  value : ℕ
  originalPriority : ℕ
  hold : ℕ
  owner : Option Tid
  flag : IpcFlag
  deriving DecidableEq, Repr

/-- `rt_mutex_init` (lines 525–544). -/
def rtMutexInit (flag : IpcFlag) : Mutex where
  value := 1
  owner := none
  originalPriority := 0xff
  hold := 0
  flag := flag

/-- Threads and the mutexes they use. `calls t` is the mutex of the `rt_mutex_take` in which `t` was
suspended and that has not returned. -/
structure MutexSys (Q : Type) where
  kernel : Kernel Q
  mutex : Q → Mutex
  calls : Tid → Option Q

namespace Kernel

variable {Q : Type} (M : ℕ) (k : Kernel Q) (t owner : Tid)

/-- "change the owner thread priority of mutex" in `rt_mutex_take` (lines 706–713). -/
def inheritPriority : Kernel Q :=
  if (k.thread t).currentPriority < (k.thread owner).currentPriority then
    k.rtThreadChangePriority M owner (k.thread t).currentPriority
  else k

/-- "change the owner thread to original priority" in `rt_mutex_release` (lines 811–817). -/
def restorePriority (p : ℕ) : Kernel Q :=
  if p ≠ (k.thread owner).currentPriority then k.rtThreadChangePriority M owner p else k

/-- Thread `owner` gets priority `p`, nothing else changes. -/
structure Reprioritised (p : ℕ) (k' : Kernel Q) : Prop where
  stat : ∀ u, (k'.thread u).stat = (k.thread u).stat
  error : ∀ u, (k'.thread u).error = (k.thread u).error
  initPriority : ∀ u, (k'.thread u).initPriority = (k.thread u).initPriority
  priority : ∀ u, (k'.thread u).currentPriority =
    if u = owner then p else (k.thread u).currentPriority
  lists : k'.suspendThread = k.suspendThread

variable {M k t owner} {p : ℕ}

theorem reprioritised_changePriority (hw : WaitOk k) :
    Reprioritised k owner p (k.rtThreadChangePriority M owner p) where
  stat u := by
    rw [rtThreadChangePriority_thread, modify_thread_apply]; split_ifs with h <;> simp [h]
  error u := by
    rw [rtThreadChangePriority_thread, modify_thread_apply]; split_ifs with h <;> simp [h]
  initPriority u := by
    rw [rtThreadChangePriority_thread, modify_thread_apply]; split_ifs with h <;> simp [h]
  priority u := by
    rw [rtThreadChangePriority_thread, modify_thread_apply]; split_ifs with h <;> simp
  lists := by
    funext q
    exact rtThreadChangePriority_suspendThread fun hm => by simp [hw.suspended q owner hm]

theorem reprioritised_self (h : p = (k.thread owner).currentPriority) :
    Reprioritised k owner p k where
  stat _ := rfl
  error _ := rfl
  initPriority _ := rfl
  priority u := by split_ifs with hu <;> simp [h, hu]
  lists := rfl

theorem reprioritised_inherit (hw : WaitOk k) :
    Reprioritised k owner (min (k.thread t).currentPriority (k.thread owner).currentPriority)
      (k.inheritPriority M t owner) := by
  unfold inheritPriority
  split_ifs with h
  · rw [min_eq_left h.le]; exact reprioritised_changePriority hw
  · exact reprioritised_self (min_eq_right (not_lt.mp h))

theorem reprioritised_restore (hw : WaitOk k) :
    Reprioritised k owner p (k.restorePriority M owner p) := by
  unfold restorePriority
  split_ifs with h
  · exact reprioritised_changePriority hw
  · exact reprioritised_self (not_not.mp h)

theorem Reprioritised.waitOk {k' : Kernel Q} (h : Reprioritised k owner p k') (hw : WaitOk k) :
    WaitOk k' :=
  hw.congr h.lists fun u hu => by rwa [h.stat u]

end Kernel

namespace MutexSys

variable {Q : Type} [DecidableEq Q] (M : ℕ) (s : MutexSys Q) (t u : Tid) (m : Q)

/-! ## Model -/

/-- `rt_mutex_take` (lines 642–761) by thread `t`, up to its return or until `rt_schedule` has
switched to another thread. -/
def rtMutexTake (time : ℤ) : Option (Outcome × MutexSys Q) :=
  let mx := s.mutex m
  -- reset thread error
  let k := s.kernel.modify t fun th => { th with error := .eok }
  if mx.owner = some t then
    -- it's the same thread
    some (.returned .eok, { s with
      kernel := k
      mutex := update s.mutex m { mx with hold := (mx.hold + 1) % 2 ^ 8 } })
  else if 0 < mx.value then
    -- mutex is available
    some (.returned .eok, { s with
      kernel := k
      mutex := update s.mutex m { mx with
        value := mx.value - 1
        owner := some t
        originalPriority := (k.thread t).currentPriority
        hold := (mx.hold + 1) % 2 ^ 8 } })
  else if time = 0 then
    -- no waiting, return with timeout
    some (.returned .etimeout, { s with
      kernel := k.modify t fun th => { th with error := .etimeout } })
  else
    match mx.owner with
    | none => none
    | some owner =>
      let k := k.inheritPriority M t owner
      -- suspend current thread, start its timer, do schedule
      some (.blocked, { s with
        kernel := k.blockOn M t m mx.flag time
        calls := update s.calls t (some m) })

/-- The end of `rt_mutex_take`, once thread `t` runs again (lines 738–760). -/
def rtMutexTakeEnd : Option (Outcome × MutexSys Q) :=
  match s.calls t with
  | none => none
  | some _ =>
    some (.returned (s.kernel.thread t).error, { s with calls := update s.calls t none })

/-- `rt_mutex_release` (lines 772–859) by thread `t`. -/
def rtMutexRelease : Outcome × MutexSys Q :=
  let mx := s.mutex m
  let k := s.kernel
  -- mutex only can be released by owner
  if mx.owner ≠ some t then
    (.returned .error, { s with kernel := k.modify t fun th => { th with error := .error } })
  else
    -- decrease hold
    let mx := { mx with hold := (mx.hold + 2 ^ 8 - 1) % 2 ^ 8 }
    if mx.hold = 0 then
      let k := k.restorePriority M t mx.originalPriority
      match k.suspendThread m with
      | thread :: _ =>
        -- set new owner and priority, resume thread
        let mx := { mx with
          owner := some thread
          originalPriority := (k.thread thread).currentPriority
          hold := (mx.hold + 1) % 2 ^ 8 }
        (.returned .eok, { s with
          kernel := (k.rtIpcListResume M m).rtSchedule M
          mutex := update s.mutex m mx })
      | [] =>
        -- increase value, clear owner
        let mx := { mx with
          value := (mx.value + 1) % 2 ^ 16
          owner := none
          originalPriority := 0xff }
        (.returned .eok, { s with kernel := k, mutex := update s.mutex m mx })
    else (.returned .eok, { s with kernel := k, mutex := update s.mutex m mx })

end MutexSys

/-- The steps of the system. `resume t`: thread `t`, woken in `rt_mutex_take`, runs again. `timeout
t`: the timer of thread `t` expires. -/
inductive MutexOp (Q : Type)
  | schedulerStart
  | startup (t : Tid)
  | take (t : Tid) (m : Q) (time : ℤ)
  | resume (t : Tid)
  | release (t : Tid) (m : Q)
  | timeout (t : Tid)
  deriving DecidableEq, Repr

namespace MutexSys

variable {Q : Type} [DecidableEq Q] (M : ℕ) (s : MutexSys Q) (t u : Tid) (m : Q)

/-- Thread `t` can make calls: it is ready and not in the middle of one. -/
def CanCall : Prop := (s.kernel.thread t).stat = .ready ∧ s.calls t = none
  deriving Decidable

/-- `rt_thread_self()` is `t` from here on. -/
def dispatch : MutexSys Q := { s with kernel := s.kernel.dispatch t }

/-- One step. Whichever ready thread runs next makes the call. -/
def step : MutexOp Q → Option (Outcome × MutexSys Q)
  | .schedulerStart => some (.void, { s with kernel := s.kernel.rtSystemSchedulerStart M })
  | .startup t => (s.kernel.rtThreadStartup M t).map fun k =>
      (.returned .eok, { s with kernel := k })
  | .take t m time => if s.CanCall t then (s.dispatch t).rtMutexTake M t m time else none
  | .resume t =>
    if (s.kernel.thread t).stat = .ready then (s.dispatch t).rtMutexTakeEnd t else none
  | .release t m => if s.CanCall t then some ((s.dispatch t).rtMutexRelease M t m) else none
  | .timeout t => (s.kernel.threadTimerExpires M t).map fun k => (.void, { s with kernel := k })

/-- The mutexes have just been initialised and nobody waits. -/
structure Initial : Prop where
  mutex : ∀ m, ∃ flag, s.mutex m = rtMutexInit flag
  suspendThread : ∀ m, s.kernel.suspendThread m = []
  calls : ∀ t, s.calls t = none

/-! ## What the two functions can do -/

/-- Thread `t` blocks on mutex `m`, which `o` owns. -/
structure Blocks (o : Tid) (s' : MutexSys Q) : Prop where
  owner : (s.mutex m).owner = some o
  ne : o ≠ t
  mutex : s'.mutex = s.mutex
  calls : s'.calls = update s.calls t (some m)
  stat : ∀ u, (s'.kernel.thread u).stat = if u = t then .suspend else (s.kernel.thread u).stat
  error : ∀ u, (s'.kernel.thread u).error = if u = t then .eok else (s.kernel.thread u).error
  -- priority inheritance
  priority : ∀ u, (s'.kernel.thread u).currentPriority =
    if u = o then min (s.kernel.thread t).currentPriority (s.kernel.thread o).currentPriority
    else (s.kernel.thread u).currentPriority
  initPriority : ∀ u, (s'.kernel.thread u).initPriority = (s.kernel.thread u).initPriority
  waits : s'.kernel.WaitOk
  mem : ∀ m' u, u ∈ s'.kernel.suspendThread m' ↔ u ∈ s.kernel.suspendThread m' ∨ u = t ∧ m' = m

/-- `rt_mutex_take` by `t`: a recursive take, a take of a free mutex, a take that fails at once, or
a blocking one. -/
inductive TakeEffect (time : ℤ) : Outcome → MutexSys Q → Prop
  | again {k : Kernel Q} (howner : (s.mutex m).owner = some t)
      (hthread : k.thread = (s.kernel.modify t fun th => { th with error := .eok }).thread)
      (hlists : k.suspendThread = s.kernel.suspendThread) :
      TakeEffect time (.returned .eok) { s with
        kernel := k
        mutex := update s.mutex m { s.mutex m with hold := ((s.mutex m).hold + 1) % 2 ^ 8 } }
  | free {k : Kernel Q} (howner : (s.mutex m).owner ≠ some t) (hvalue : 0 < (s.mutex m).value)
      (hthread : k.thread = (s.kernel.modify t fun th => { th with error := .eok }).thread)
      (hlists : k.suspendThread = s.kernel.suspendThread) :
      TakeEffect time (.returned .eok) { s with
        kernel := k
        mutex := update s.mutex m { s.mutex m with
          value := (s.mutex m).value - 1
          owner := some t
          originalPriority := (s.kernel.thread t).currentPriority
          hold := ((s.mutex m).hold + 1) % 2 ^ 8 } }
  | fails {k : Kernel Q} (howner : (s.mutex m).owner ≠ some t) (hvalue : (s.mutex m).value = 0)
      (htime : time = 0)
      (hthread : k.thread = (s.kernel.modify t fun th => { th with error := .etimeout }).thread)
      (hlists : k.suspendThread = s.kernel.suspendThread) :
      TakeEffect time (.returned .etimeout) { s with kernel := k }
  | blocks {o : Tid} {s' : MutexSys Q} (htime : time ≠ 0) (h : Blocks s t m o s') :
      TakeEffect time .blocked s'

/-- What giving up mutex `m` does to the threads: `t` gets the saved priority, the thread in `woken`
becomes ready. -/
structure GivesUp (woken : Option Tid) (k : Kernel Q) : Prop where
  stat : ∀ u, (k.thread u).stat = if woken = some u then .ready else (s.kernel.thread u).stat
  error : ∀ u, (k.thread u).error = (s.kernel.thread u).error
  priority : ∀ u, (k.thread u).currentPriority =
    if u = t then (s.mutex m).originalPriority else (s.kernel.thread u).currentPriority
  initPriority : ∀ u, (k.thread u).initPriority = (s.kernel.thread u).initPriority
  waits : k.WaitOk
  mem : ∀ m' u, u ∈ k.suspendThread m' ↔ u ∈ s.kernel.suspendThread m' ∧ woken ≠ some u

/-- `rt_mutex_release` by `t`: refused, one of several holds given up, or the mutex itself, to the
first waiter or to nobody. -/
inductive ReleaseEffect : Outcome → MutexSys Q → Prop
  | refused {k : Kernel Q} (howner : (s.mutex m).owner ≠ some t)
      (hthread : k.thread = (s.kernel.modify t fun th => { th with error := .error }).thread)
      (hlists : k.suspendThread = s.kernel.suspendThread) :
      ReleaseEffect (.returned .error) { s with kernel := k }
  | holds {k : Kernel Q} (howner : (s.mutex m).owner = some t)
      (hhold : ((s.mutex m).hold + 2 ^ 8 - 1) % 2 ^ 8 ≠ 0)
      (hthread : k.thread = s.kernel.thread) (hlists : k.suspendThread = s.kernel.suspendThread) :
      ReleaseEffect (.returned .eok) { s with
        kernel := k
        mutex := update s.mutex m
          { s.mutex m with hold := ((s.mutex m).hold + 2 ^ 8 - 1) % 2 ^ 8 } }
  | handsOver {k : Kernel Q} {h : Tid} {l : List Tid} (howner : (s.mutex m).owner = some t)
      (hhold : ((s.mutex m).hold + 2 ^ 8 - 1) % 2 ^ 8 = 0)
      (hhead : s.kernel.suspendThread m = h :: l) (hne : h ≠ t)
      (hk : GivesUp s t m (some h) k) :
      ReleaseEffect (.returned .eok) { s with
        kernel := k
        mutex := update s.mutex m { s.mutex m with
          owner := some h
          originalPriority := (s.kernel.thread h).currentPriority
          hold := 1 } }
  | frees {k : Kernel Q} (howner : (s.mutex m).owner = some t)
      (hhold : ((s.mutex m).hold + 2 ^ 8 - 1) % 2 ^ 8 = 0)
      (hempty : s.kernel.suspendThread m = []) (hk : GivesUp s t m none k) :
      ReleaseEffect (.returned .eok) { s with
        kernel := k
        mutex := update s.mutex m { s.mutex m with
          value := ((s.mutex m).value + 1) % 2 ^ 16
          owner := none
          originalPriority := 0xff
          hold := 0 } }

variable {M s t m}

variable {time : ℤ}

/-- The blocking path of `rt_mutex_take`. -/
theorem blocks_of_wait {o : Tid} (hw : s.kernel.WaitOk) (hready : (s.kernel.thread t).stat = .ready)
    (howner : (s.mutex m).owner = some o) (hne : o ≠ t) : Blocks s t m o { s with
      kernel := ((s.kernel.modify t fun th => { th with error := .eok }).inheritPriority
        M t o).blockOn M t m (s.mutex m).flag time
      calls := update s.calls t (some m) } := by
  set k := s.kernel.modify t fun th => { th with error := .eok } with hk
  have hkw : k.WaitOk := hw.modify rfl
  have hp : k.Reprioritised o _ (k.inheritPriority M t o) := reprioritised_inherit hkw
  set k' := k.inheritPriority M t o
  have hk'w : k'.WaitOk := hp.waitOk hkw
  have hk't : (k'.thread t).stat = .ready := by simpa [hp.stat, hk] using hready
  have hth : (k'.blockOn M t m (s.mutex m).flag time).thread = _ := blockOn_thread hk't
  refine ⟨howner, hne, rfl, rfl, fun u => ?_, fun u => ?_, fun u => ?_, fun u => ?_,
    hk'w.blockOn hk't, fun m' u => ?_⟩
  · simp only [hth, modify_thread_apply]
    split_ifs with hu
    · rfl
    · simp [hp.stat, hk, hu]
  · simp only [hth, modify_thread_apply]
    split_ifs with hu
    · simp [hp.error, hk]
    · simp [hp.error, hk, hu]
  · have hcp : ∀ v, (k.thread v).currentPriority = (s.kernel.thread v).currentPriority := by
      intro v
      rw [modify_thread_apply]
      split_ifs with hv <;> simp [hv]
    have hcp' : ((k'.blockOn M t m (s.mutex m).flag time).thread u).currentPriority =
        (k'.thread u).currentPriority := by
      rw [hth, modify_thread_apply]
      split_ifs with hu <;> simp [hu]
    simp only [hcp', hp.priority, hcp]
  · simp only [hth, modify_thread_apply]
    split_ifs with hu
    · simp [hp.initPriority, hk, hu]
    · simp [hp.initPriority, hk, hu]
  · simp only [mem_blockOn u hk'w hk't, hp.lists]
    rfl

variable {o : Outcome} {s' : MutexSys Q}

theorem takeEffect (hw : s.kernel.WaitOk) (hready : (s.kernel.thread t).stat = .ready)
    (h : s.rtMutexTake M t m time = some (o, s')) : TakeEffect s t m time o s' := by
  unfold rtMutexTake at h
  dsimp only at h
  split_ifs at h with hown hval htime
  · cases h
    exact .again hown rfl rfl
  · cases h
    simpa using TakeEffect.free (k := s.kernel.modify t fun th => { th with error := .eok })
      hown hval rfl rfl
  · cases h
    refine .fails hown (by omega) htime ?_ rfl
    funext u
    by_cases hu : u = t
    · subst hu; simp
    · simp [hu]
  · split at h
    · cases h
    · rename_i w howner
      cases h
      have hne : w ≠ t := by rintro rfl; exact hown howner
      exact .blocks htime (blocks_of_wait hw hready howner hne)

theorem releaseEffect (hw : s.kernel.WaitOk) (hready : (s.kernel.thread t).stat = .ready) :
    ReleaseEffect s t m (s.rtMutexRelease M t m).1 (s.rtMutexRelease M t m).2 := by
  unfold rtMutexRelease
  dsimp only
  have hp : s.kernel.Reprioritised t _
      (s.kernel.restorePriority M t (s.mutex m).originalPriority) :=
    reprioritised_restore hw
  have hpw := hp.waitOk hw
  set k := s.kernel.restorePriority M t (s.mutex m).originalPriority
  split_ifs with hown hhold
  · exact .refused hown rfl rfl
  · rw [not_not] at hown
    split
    · rename_i h l hlist
      have hhead : s.kernel.suspendThread m = h :: l := by rw [← hp.lists, hlist]
      have hne : h ≠ t := hw.ne_of_ready (q := m) (by simp [hhead]) hready
      have hth := rtIpcListResume_thread (M := M) hpw hlist
      have hmx : (k.thread h).currentPriority = (s.kernel.thread h).currentPriority := by
        rw [hp.priority, if_neg hne]
      simp only [hhold, hmx]
      refine .handsOver hown hhold hhead hne ⟨fun u => ?_, fun u => ?_, fun u => ?_, fun u => ?_,
        hpw.listResume.schedule, fun m' u => ?_⟩
      · simp only [rtSchedule_thread, hth, modify_thread_apply, some.injEq, eq_comm (a := h)]
        split_ifs
        · rfl
        · exact hp.stat u
      · simp only [rtSchedule_thread, hth, modify_thread_apply]
        split_ifs with hu <;> simp [hp.error, hu]
      · simp only [rtSchedule_thread, hth, modify_thread_apply]
        split_ifs with hu hu' hu' <;> simp_all [hp.priority]
      · simp only [rtSchedule_thread, hth, modify_thread_apply]
        split_ifs with hu <;> simp [hp.initPriority, hu]
      · simp only [rtSchedule_suspendThread, rtIpcListResume_suspendThread hpw hlist]
        rw [(hpw.nodup m').mem_erase_iff, hp.lists]
        simp only [ne_eq, some.injEq, eq_comm (a := h)]
        tauto
    · rename_i hlist
      have hempty : s.kernel.suspendThread m = [] := by rw [← hp.lists, hlist]
      simp only [hhold]
      refine .frees hown hhold hempty ⟨fun u => ?_, hp.error, hp.priority, hp.initPriority, hpw,
        fun m' u => ?_⟩
      · simp [hp.stat]
      · simp [hp.lists]
  · rw [not_not] at hown
    exact .holds hown hhold rfl rfl

/-! ## The state machine -/

/-- The state of one mutex: it is free and nobody waits, or a started thread owns it. -/
def MutexStateOk (s : MutexSys Q) (m : Q) : Prop :=
  (s.mutex m).value = 1 ∧ (s.mutex m).owner = none ∧ s.kernel.suspendThread m = [] ∨
  (s.mutex m).value = 0 ∧ ∃ o, (s.mutex m).owner = some o ∧ (s.kernel.thread o).stat ≠ .init

/-- The invariant of the system. A thread in the middle of `rt_mutex_take` waits, or has been woken
as the owner, or has timed out. -/
structure MutexOk (s : MutexSys Q) : Prop where
  waits : s.kernel.WaitOk
  state : ∀ m, MutexStateOk s m
  hold : ∀ m, (s.mutex m).hold < 2 ^ 8
  waiter : ∀ m t, t ∈ s.kernel.suspendThread m → (s.mutex m).owner ≠ some t ∧
    s.calls t = some m ∧ (s.kernel.thread t).error = .eok
  woken : ∀ m t, s.calls t = some m → t ∉ s.kernel.suspendThread m →
    (s.kernel.thread t).stat = .ready ∧
      ((s.kernel.thread t).error = .eok → (s.mutex m).owner = some t)

omit [DecidableEq Q] in
theorem Initial.mutexOk (h : s.Initial) : MutexOk s where
  waits := ⟨by simp [h.suspendThread], by simp [h.suspendThread], by simp [h.suspendThread]⟩
  state m := by
    obtain ⟨flag, hf⟩ := h.mutex m
    exact .inl ⟨by simp [hf, rtMutexInit], by simp [hf, rtMutexInit], h.suspendThread m⟩
  hold m := by
    obtain ⟨flag, hf⟩ := h.mutex m
    simp [hf, rtMutexInit]
  waiter m t ht := by simp [h.suspendThread] at ht
  woken m t ht := by simp [h.calls] at ht

omit [DecidableEq Q] in
theorem MutexOk.dispatch (h : MutexOk s) : MutexOk (s.dispatch t) :=
  ⟨h.waits.dispatch t, h.state, h.hold, h.waiter, h.woken⟩

variable {mx : Mutex} {k : Kernel Q}

/-- A step that leaves the threads (but for data of a thread that is not in the middle of a call),
the lists and the owners alone. -/
theorem MutexOk.quiet (h : MutexOk s) (ht : s.CanCall t)
    (hstat : (k.thread t).stat = (s.kernel.thread t).stat)
    (hne : ∀ u, u ≠ t → k.thread u = s.kernel.thread u)
    (hlists : k.suspendThread = s.kernel.suspendThread) (hvalue : mx.value = (s.mutex m).value)
    (howner : mx.owner = (s.mutex m).owner) (hhold : mx.hold < 2 ^ 8) :
    MutexOk { s with kernel := k, mutex := update s.mutex m mx } := by
  have hstat' : ∀ u, (k.thread u).stat = (s.kernel.thread u).stat := by
    intro u
    by_cases hu : u = t
    · rw [hu, hstat]
    · rw [hne u hu]
  have hcall : ∀ u m', s.calls u = some m' → k.thread u = s.kernel.thread u := by
    intro u m' hu
    refine hne u ?_
    rintro rfl
    simp [ht.2] at hu
  have hown : ∀ m', (update s.mutex m mx m').owner = (s.mutex m').owner := by
    intro m'
    rw [update_apply]
    split_ifs with hm
    · rw [hm, howner]
    · rfl
  refine ⟨h.waits.congr hlists fun u hu => by rw [hstat', hu], fun m' => ?_, fun m' => ?_,
    fun m' u hu => ?_, fun m' u hu hn => ?_⟩
  · have hval : (update s.mutex m mx m').value = (s.mutex m').value := by
      rw [update_apply]
      split_ifs with hm
      · rw [hm, hvalue]
      · rfl
    simpa only [MutexStateOk, hown, hval, hlists, hstat'] using h.state m'
  · simp only [update_apply]
    split_ifs
    · exact hhold
    · exact h.hold m'
  · simp only [hlists] at hu
    obtain ⟨h1, h2, h3⟩ := h.waiter m' u hu
    exact ⟨by rwa [hown], h2, by rwa [hcall u m' h2]⟩
  · simp only [hlists] at hn
    simpa only [hcall u m' hu, hown] using h.woken m' u hu hn

theorem MutexOk.quiet_kernel (h : MutexOk s) (ht : s.CanCall t)
    (hstat : (k.thread t).stat = (s.kernel.thread t).stat)
    (hne : ∀ u, u ≠ t → k.thread u = s.kernel.thread u)
    (hlists : k.suspendThread = s.kernel.suspendThread) (m : Q) :
    MutexOk { s with kernel := k } := by
  have hq : MutexOk { s with kernel := k, mutex := update s.mutex m (s.mutex m) } :=
    h.quiet ht hstat hne hlists rfl rfl (h.hold m)
  rwa [update_eq_self] at hq

omit [DecidableEq Q] in
/-- A mutex that is not held has no waiters, and nobody was woken to own it. -/
theorem MutexOk.free (h : MutexOk s) (hvalue : 0 < (s.mutex m).value) :
    (s.mutex m).value = 1 ∧ (s.mutex m).owner = none ∧ s.kernel.suspendThread m = [] := by
  rcases h.state m with hfree | ⟨hzero, -⟩
  · exact hfree
  · omega

theorem MutexOk.takeFree (h : MutexOk s) (ht : s.CanCall t) (hfree : 0 < (s.mutex m).value)
    (hthread : k.thread = (s.kernel.modify t fun th => { th with error := .eok }).thread)
    (hlists : k.suspendThread = s.kernel.suspendThread) (hvalue : mx.value = (s.mutex m).value - 1)
    (howner : mx.owner = some t) (hhold : mx.hold < 2 ^ 8) :
    MutexOk { s with kernel := k, mutex := update s.mutex m mx } := by
  obtain ⟨hone, hnone, hnil⟩ := h.free hfree
  -- as far as the other mutexes are concerned nothing happens
  have hq := h.quiet_kernel (k := k) ht (by simp [hthread]) (fun u hu => by simp [hthread, hu])
    hlists m
  refine ⟨hq.waits, fun m' => ?_, fun m' => ?_, fun m' u hu => ?_, fun m' u hu hn => ?_⟩
  · by_cases hm : m' = m
    · subst hm
      refine .inr ⟨by simp [hvalue, hone], t, by simp [howner], ?_⟩
      simp [hthread, ht.1]
    · simpa [MutexStateOk, hm] using hq.state m'
  · by_cases hm : m' = m
    · subst hm; simpa using hhold
    · simpa [hm] using hq.hold m'
  · have hm : m' ≠ m := by rintro rfl; simp [hlists, hnil] at hu
    simpa [hm] using hq.waiter m' u hu
  · by_cases hm : m' = m
    · subst hm
      obtain ⟨h1, h2⟩ := hq.woken m' u hu hn
      exact ⟨h1, fun he => by simpa [hnone] using h2 he⟩
    · simpa [hm] using hq.woken m' u hu hn

omit [DecidableEq Q] in
theorem MutexOk.blocks {o : Tid} (h : MutexOk s) (ht : s.CanCall t) (hb : Blocks s t m o s') :
    MutexOk s' := by
  have hn : ∀ m', t ∉ s.kernel.suspendThread m' := h.waits.notMem (by simp [ht.1])
  refine ⟨hb.waits, fun m' => ?_, by rw [hb.mutex]; exact h.hold, fun m' u hu => ?_,
    fun m' u hu hn' => ?_⟩
  · rcases h.state m' with ⟨h1, h2, h3⟩ | ⟨h1, w, h2, h3⟩
    · refine .inl ⟨by rwa [hb.mutex], by rwa [hb.mutex], ?_⟩
      have hm : m' ≠ m := by rintro rfl; simp [hb.owner] at h2
      exact eq_nil_iff_forall_not_mem.mpr fun u hu => by
        simpa [h3, hm] using (hb.mem m' u).mp hu
    · refine .inr ⟨by rwa [hb.mutex], w, by rwa [hb.mutex], ?_⟩
      rw [hb.stat]
      split_ifs
      · simp
      · exact h3
  · rw [hb.mutex, hb.calls, hb.error, update_apply]
    rcases (hb.mem m' u).mp hu with hu | ⟨rfl, rfl⟩
    · have hut : u ≠ t := by rintro rfl; exact hn m' hu
      simpa [hut] using h.waiter m' u hu
    · simpa [hb.owner] using hb.ne
  · rw [hb.calls, update_apply] at hu
    have hmem := (hb.mem m' u).not.mp hn'
    rw [not_or, not_and] at hmem
    by_cases hut : u = t
    · rw [if_pos hut, some.injEq] at hu
      exact absurd hu.symm (hmem.2 hut)
    · rw [if_neg hut] at hu
      rw [hb.stat, hb.error, hb.mutex, if_neg hut, if_neg hut]
      exact h.woken m' u hu hmem.1

section

variable (h : MutexOk s) (ht : s.CanCall t)
include h ht

theorem MutexOk.take (he : TakeEffect s t m time o s') : MutexOk s' := by
  cases he with
  | again howner hthread hlists =>
    exact h.quiet ht (by simp [hthread]) (fun u hu => by simp [hthread, hu]) hlists rfl rfl
      (mod_lt _ (by norm_num))
  | free howner hvalue hthread hlists =>
    exact h.takeFree ht hvalue hthread hlists rfl rfl (mod_lt _ (by norm_num))
  | fails howner hvalue htime hthread hlists =>
    exact h.quiet_kernel ht (by simp [hthread]) (fun u hu => by simp [hthread, hu]) hlists m
  | blocks htime hb => exact h.blocks ht hb

/-- The owner gives the mutex to the thread in `woken`, the first waiter, or to nobody if there is
none. -/
theorem MutexOk.givesUp {k : Kernel Q} {woken : Option Tid} (howner : (s.mutex m).owner = some t)
    (hk : GivesUp s t m woken k) (hwoken : woken = (s.kernel.suspendThread m).head?)
    (hmx : mx.owner = woken) (hvalue : mx.value = if woken = none then 1 else 0)
    (hhold : mx.hold < 2 ^ 8) :
    MutexOk { s with kernel := k, mutex := update s.mutex m mx } := by
  have hstat : ∀ u, (s.kernel.thread u).stat ≠ .init → (k.thread u).stat ≠ .init := by
    intro u hu
    rw [hk.stat]
    split_ifs
    · simp
    · exact hu
  have hnil : ∀ m', s.kernel.suspendThread m' = [] → k.suspendThread m' = [] := fun m' hm' =>
    eq_nil_iff_forall_not_mem.mpr fun u hu => by simpa [hm'] using ((hk.mem m' u).mp hu).1
  have hmem : ∀ u, woken = some u → u ∈ s.kernel.suspendThread m := by
    intro u hu
    exact mem_of_mem_head? (hwoken ▸ hu)
  refine ⟨hk.waits, fun m' => ?_, fun m' => ?_, fun m' u hu => ?_, fun m' u hu hn => ?_⟩
  · by_cases hm : m' = m
    · subst hm
      cases hw : woken with
      | none =>
        refine .inl ⟨by simp [hvalue, hw], by simp [hmx, hw], hnil m' ?_⟩
        exact head?_eq_none_iff.mp (hwoken ▸ hw)
      | some w =>
        refine .inr ⟨by simp [hvalue, hw], w, by simp [hmx, hw], ?_⟩
        simp [hk.stat, hw]
    · rcases h.state m' with ⟨h1, h2, h3⟩ | ⟨h1, w, h2, h3⟩
      · exact .inl ⟨by simpa [hm] using h1, by simpa [hm] using h2, hnil m' h3⟩
      · exact .inr ⟨by simpa [hm] using h1, w, by simpa [hm] using h2, hstat w h3⟩
  · by_cases hm : m' = m
    · subst hm; simpa using hhold
    · simpa [hm] using h.hold m'
  · obtain ⟨hu, hne⟩ := (hk.mem m' u).mp hu
    obtain ⟨h1, h2, h3⟩ := h.waiter m' u hu
    refine ⟨?_, h2, by rwa [hk.error]⟩
    by_cases hm : m' = m
    · subst hm; simpa [hmx] using hne
    · simpa [hm] using h1
  · by_cases hu' : u ∈ s.kernel.suspendThread m'
    · -- it is the thread that is woken here
      have hw : woken = some u := by
        by_contra hw
        exact hn ((hk.mem m' u).mpr ⟨hu', hw⟩)
      obtain rfl : m' = m := h.waits.unique _ _ _ hu' (hmem u hw)
      exact ⟨by simp [hk.stat, hw], fun _ => by simp [hmx, hw]⟩
    · obtain ⟨h1, h2⟩ := h.woken m' u hu hu'
      refine ⟨by simp [hk.stat, h1], fun he => ?_⟩
      rw [hk.error] at he
      have hm : m' ≠ m := by
        rintro rfl
        have hut : t = u := by simpa [howner] using h2 he
        simp [← hut, ht.2] at hu
      simpa [hm] using h2 he

theorem MutexOk.release (he : ReleaseEffect s t m o s') : MutexOk s' := by
  cases he with
  | refused howner hthread hlists =>
    exact h.quiet_kernel ht (by simp [hthread]) (fun u hu => by simp [hthread, hu]) hlists m
  | holds howner hhold hthread hlists =>
    exact h.quiet ht (by simp [hthread]) (fun u _ => by simp [hthread]) hlists rfl rfl
      (mod_lt _ (by norm_num))
  | handsOver howner hhold hhead hne hk =>
    refine h.givesUp ht howner hk (by simp [hhead]) rfl ?_ (by norm_num)
    rcases h.state m with ⟨-, hnone, -⟩ | ⟨hzero, -⟩
    · simp [howner] at hnone
    · simpa using hzero
  | frees howner hhold hempty hk =>
    refine h.givesUp ht howner hk (by simp [hempty]) rfl ?_ (by norm_num)
    rcases h.state m with ⟨-, hnone, -⟩ | ⟨hzero, -⟩
    · simp [howner] at hnone
    · simp [hzero]

end

omit [DecidableEq Q] in
theorem MutexOk.takeEnd (h : MutexOk s)
    (he : s.rtMutexTakeEnd t = some (o, s')) (hready : (s.kernel.thread t).stat = .ready) :
    MutexOk s' := by
  unfold rtMutexTakeEnd at he
  split at he
  · cases he
  · cases he
    refine ⟨h.waits, h.state, h.hold, fun m u hu => ?_, fun m u hu hn => ?_⟩
    · have hut : u ≠ t := h.waits.ne_of_ready hu hready
      simpa [hut] using h.waiter m u hu
    · have hut : u ≠ t := by rintro rfl; simp at hu
      exact h.woken m u (by simpa [hut] using hu) hn

omit [DecidableEq Q] in
theorem MutexOk.timeout (h : MutexOk s) (he : s.kernel.threadTimerExpires M t = some k) :
    MutexOk { s with kernel := k } := by
  obtain ⟨-, hsusp, hthread, hlists⟩ := threadTimerExpires_some he
  have hstat : ∀ u, (s.kernel.thread u).stat ≠ .init → (k.thread u).stat ≠ .init := by
    intro u hu
    rw [hthread, modify_thread_apply]
    split_ifs
    · simp
    · exact hu
  refine ⟨h.waits.timeout he, fun m => ?_, h.hold, fun m u hu => ?_, fun m u hu hn => ?_⟩
  · rcases h.state m with ⟨h1, h2, h3⟩ | ⟨h1, w, h2, h3⟩
    · exact .inl ⟨h1, h2, by simp [hlists, h3]⟩
    · exact .inr ⟨h1, w, h2, hstat w h3⟩
  · obtain ⟨hut, hu⟩ := (h.waits.mem_timeout he).mp hu
    simpa [hthread, hut] using h.waiter m u hu
  · rw [h.waits.mem_timeout he, not_and] at hn
    by_cases hut : u = t
    · subst hut; simp [hthread]
    · simpa [hthread, hut] using h.woken m u hu (hn hut)

omit [DecidableEq Q] in
theorem MutexOk.startup (h : MutexOk s) (he : s.kernel.rtThreadStartup M t = some k) :
    MutexOk { s with kernel := k } := by
  have hlists : k.suspendThread = s.kernel.suspendThread := h.waits.startup_suspendThread he
  have hne : ∀ u, (s.kernel.thread u).stat ≠ .init → k.thread u = s.kernel.thread u :=
    fun u hu => rtThreadStartup_other he hu
  refine ⟨h.waits.startup he, fun m => ?_, h.hold, fun m u hu => ?_, fun m u hu hn => ?_⟩
  · rcases h.state m with ⟨h1, h2, h3⟩ | ⟨h1, w, h2, h3⟩
    · exact .inl ⟨h1, h2, by simp [hlists, h3]⟩
    · exact .inr ⟨h1, w, h2, by simpa [hne w h3] using h3⟩
  · rw [hlists] at hu
    simpa [hne u (by simp [h.waits.suspended m u hu])] using h.waiter m u hu
  · rw [hlists] at hn
    have hw := h.woken m u hu hn
    simpa [hne u (by simp [hw.1])] using hw

theorem MutexOk.take_step (h : MutexOk s) (hs : s.step M (.take t m time) = some (o, s')) :
    s.CanCall t ∧ TakeEffect (s.dispatch t) t m time o s' := by
  simp only [MutexSys.step] at hs
  split_ifs at hs with ht
  exact ⟨ht, takeEffect h.dispatch.waits ht.1 hs⟩

theorem MutexOk.release_step (h : MutexOk s) (hs : s.step M (.release t m) = some (o, s')) :
    s.CanCall t ∧ ReleaseEffect (s.dispatch t) t m o s' := by
  simp only [MutexSys.step] at hs
  split_ifs at hs with ht
  have he := releaseEffect (M := M) (m := m) (h.dispatch (t := t)).waits ht.1
  rw [some.inj hs] at he
  exact ⟨ht, he⟩

theorem MutexOk.step {op : MutexOp Q} (h : MutexOk s) (hs : s.step M op = some (o, s')) :
    MutexOk s' := by
  cases op with
  | schedulerStart =>
    cases hs
    exact ⟨h.waits.congr (by simp) (by simp), by simpa [MutexStateOk] using h.state, h.hold,
      by simpa using h.waiter, by simpa using h.woken⟩
  | startup t =>
    obtain ⟨k, hk, heq⟩ := map_eq_some_iff.mp hs
    cases heq
    exact h.startup hk
  | take t m time =>
    obtain ⟨ht, he⟩ := h.take_step hs
    exact h.dispatch.take ht he
  | resume t =>
    simp only [MutexSys.step] at hs
    split_ifs at hs with ht
    exact h.dispatch.takeEnd hs ht
  | release t m =>
    obtain ⟨ht, he⟩ := h.release_step hs
    exact h.dispatch.release ht he
  | timeout t =>
    obtain ⟨k, hk, heq⟩ := map_eq_some_iff.mp hs
    cases heq
    exact h.timeout hk

theorem mutexOk_run {s₀ : MutexSys Q} {tr : List (MutexOp Q × Outcome)} (hinit : s₀.Initial)
    (hrun : Run (step M) s₀ tr s) : MutexOk s :=
  hrun.inv hinit.mutexOk fun _ _ _ _ h hs => h.step hs

/-- What can be observed of mutex `m` in state `s`. -/
structure MachineOk (M : ℕ) (s : MutexSys Q) (m : Q) : Prop where
  value : (s.mutex m).value = 0 ∨ (s.mutex m).value = 1
  value_eq_one : (s.mutex m).value = 1 ↔ (s.mutex m).owner = none
  owned : s.kernel.suspendThread m ≠ [] → (s.mutex m).owner ≠ none
  waiter : ∀ t ∈ s.kernel.suspendThread m, (s.mutex m).owner ≠ some t
  -- `rt_mutex_take` returns `RT_EOK`, at once or after blocking
  take_eok : ∀ t time s', s.step M (.take t m time) = some (.returned .eok, s') →
    (s'.mutex m).owner = some t
  resume_eok : ∀ t s', s.calls t = some m → s.step M (.resume t) = some (.returned .eok, s') →
    (s'.mutex m).owner = some t
  -- `rt_mutex_release` by a thread that is not the owner
  release_refused : ∀ t o s', (s.mutex m).owner ≠ some t →
    s.step M (.release t m) = some (o, s') →
    o = .returned .error ∧ s'.mutex m = s.mutex m ∧
      s'.kernel.suspendThread m = s.kernel.suspendThread m

theorem MutexOk.take_eok (h : MutexOk s)
    (hs : s.step M (.take t m time) = some (.returned .eok, s')) : (s'.mutex m).owner = some t := by
  obtain ⟨-, he⟩ := h.take_step hs
  cases he with
  | again howner => simpa using howner
  | free => simp

theorem MutexOk.resume_eok (h : MutexOk s) (hcall : s.calls t = some m)
    (hs : s.step M (.resume t) = some (.returned .eok, s')) : (s'.mutex m).owner = some t := by
  simp only [MutexSys.step] at hs
  split_ifs at hs with ht
  have hcall' : (s.dispatch t).calls t = some m := hcall
  simp only [rtMutexTakeEnd, hcall', some.injEq, Prod.mk.injEq, Outcome.returned.injEq] at hs
  obtain ⟨herr, rfl⟩ := hs
  have hn : t ∉ s.kernel.suspendThread m := h.waits.notMem (by simp [ht]) m
  exact (h.woken m t hcall hn).2 herr

theorem MutexOk.release_refused (h : MutexOk s)
    (hne : (s.mutex m).owner ≠ some t) (hs : s.step M (.release t m) = some (o, s')) :
    o = .returned .error ∧ s'.mutex m = s.mutex m ∧
      s'.kernel.suspendThread m = s.kernel.suspendThread m := by
  obtain ⟨-, he⟩ := h.release_step hs
  cases he with
  | refused _ _ hlists => exact ⟨rfl, rfl, congrFun hlists m⟩
  | holds howner | handsOver howner | frees howner => exact absurd howner hne

/-- In every state that any interleaving of takes, releases and timeouts reaches, each mutex is a
correct state machine. -/
theorem mutex_state_machine {s₀ : MutexSys Q} {tr : List (MutexOp Q × Outcome)}
    (hinit : s₀.Initial) (hrun : Run (step M) s₀ tr s) (m : Q) : MachineOk M s m := by
  have h := mutexOk_run hinit hrun
  refine ⟨?_, ?_, ?_, fun t ht => (h.waiter m t ht).1, fun t time s' => h.take_eok,
    fun t s' => h.resume_eok, fun t o s' => h.release_refused⟩
  · rcases h.state m with ⟨h1, -, -⟩ | ⟨h1, -⟩
    · exact .inr h1
    · exact .inl h1
  · rcases h.state m with ⟨h1, h2, -⟩ | ⟨h1, o, h2, -⟩
    · simp [h1, h2]
    · simp [h1, h2]
  · rcases h.state m with ⟨-, -, h3⟩ | ⟨-, o, h2, -⟩
    · simp [h3]
    · simp [h2]

/-- Thread `t` has priority `20 - 5 * t`; all mutexes have the same flag. -/
def sampleSys (flag : IpcFlag) : MutexSys Q where
  kernel := newThreads fun t => 20 - 5 * t
  mutex := fun _ => rtMutexInit flag
  calls := fun _ => none

omit [DecidableEq Q] in
theorem sampleSys_initial (flag : IpcFlag) : (sampleSys flag : MutexSys Q).Initial :=
  ⟨fun _ => ⟨flag, rfl⟩, fun _ => rfl, fun _ => rfl⟩

/-- Thread 0 holds the mutex, thread 1 blocks on it and gets it, thread 2 times out. -/
def sampleTakes : List (MutexOp Unit) :=
  [.startup 0, .schedulerStart, .take 0 () 0, .startup 1, .take 1 () (-1), .startup 2,
    .take 2 () 10, .timeout 2, .resume 2, .release 2 (), .release 0 (), .resume 1]

theorem sampleTakes_possible : (exec (step 32) (sampleSys .prio) sampleTakes).isSome := by
  decide_cbv

theorem mutex_state_machine_sample :
    (((exec (step 32) (sampleSys .prio) sampleTakes).get sampleTakes_possible).2.mutex ()).owner =
        some 1 ∧
      MachineOk 32 ((exec (step 32) (sampleSys .prio) sampleTakes).get sampleTakes_possible).2 () :=
  ⟨by decide_cbv,
    mutex_state_machine (sampleSys_initial .prio) (Run.of_isSome sampleTakes_possible) ()⟩

end MutexSys

end RtThread
