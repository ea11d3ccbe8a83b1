import RtThread.Ipc.Mutex
import RtThread.Ipc.Sem
import RtThread.Kernel.Selection

/-!
# Preemption

A system of threads that use any number of mutexes and semaphores and run as
`rt_schedule` lets them: the thread that makes a call is `rt_current_thread`.
`Urgent` says that no ready thread is more urgent than it.

`rt_schedule` establishes this whatever was so before (`SchedOk.urgent_schedule`), and
the functions call it whenever they make a thread ready. `rt_mutex_release` can also
make the running thread less urgent. If it finds nobody waiting it does not call
`rt_schedule` then (`preemption_lost`): the waiter from which the priority was inherited
may have timed out.

* `urgent_step_iff`: which steps keep `Urgent`.
* `preemption`: it holds in every run of such steps.
-/

namespace RtThread

open Runs Function Option Kernel Nat

namespace Kernel

variable {Q : Type} {M : ℕ} {k k' : Kernel Q} {t : Tid} {q : Q} {sem : Sem}

/-- No ready thread is more urgent than the running one. -/
def Urgent (k : Kernel Q) : Prop :=
  ∀ c, k.currentThread = some c → ∀ u, (k.thread u).stat = .ready →
    (k.thread c).currentPriority ≤ (k.thread u).currentPriority

/-- What the functions rely on: ready lists, bitmap and wait lists are in order, and the scheduler
is not locked. -/
structure SchedOk (M : ℕ) (k : Kernel Q) : Prop where
  threads : ThreadsOk M k
  bitmap : BitmapOk M k
  waits : WaitOk k
  unlocked : k.schedulerLockNest = 0

/-! ## `rt_schedule` -/

section

variable (hM : M ≤ 256) (h : SchedOk M k)
include hM h

/-- The head of the list that the bitmap leads to is a most urgent ready thread. -/
theorem SchedOk.head_least {u : Tid} (hu : (k.thread u).stat = .ready) :
    ∃ c, (k.priorityTable (k.highestReadyPriority M)).head? = some c ∧
      ∀ u, (k.thread u).stat = .ready →
        (k.thread c).currentPriority ≤ (k.thread u).currentPriority := by
  have hlist : ∀ v, (k.thread v).stat = .ready →
      k.priorityTable (k.thread v).currentPriority ≠ [] :=
    fun v hv => List.ne_nil_of_mem ((h.threads.queued.mem _ v).mpr ⟨hv, rfl⟩)
  obtain ⟨hne, hempty⟩ := highestReadyPriority_spec hM h.bitmap
    ⟨_, (h.threads.mask u (.inl hu)).lt, hlist u hu⟩
  obtain ⟨c, l, hcons⟩ := List.exists_cons_of_ne_nil hne
  have hc := (h.threads.queued.mem (k.highestReadyPriority M) c).mp (by simp [hcons])
  refine ⟨c, by simp [hcons], fun v hv => ?_⟩
  rw [hc.2]
  exact not_lt.mp fun hlt => hlist v hv (hempty _ hlt)

theorem SchedOk.urgent_schedule : Urgent (k.rtSchedule M) := by
  intro c hc u hu
  rw [rtSchedule_thread] at hu ⊢
  obtain ⟨c', hhead, hleast⟩ := h.head_least hM hu
  rw [rtSchedule_currentThread h.unlocked hhead] at hc
  cases hc
  exact hleast u hu

theorem SchedOk.urgent_start : Urgent (k.rtSystemSchedulerStart M) := by
  intro c hc u hu
  rw [rtSystemSchedulerStart_thread] at hu ⊢
  obtain ⟨c', hhead, hleast⟩ := h.head_least hM hu
  rw [rtSystemSchedulerStart, hhead] at hc
  cases hc
  exact hleast u hu

end

/-! ## What keeps the scheduler in order -/

theorem rtThreadChangePriority_currentThread (p : ℕ) :
    (k.rtThreadChangePriority M t p).currentThread = k.currentThread := by
  unfold rtThreadChangePriority
  split_ifs <;> simp

section

variable (h : SchedOk M k) {p : ℕ}
include h

theorem SchedOk.schedule : SchedOk M (k.rtSchedule M) :=
  ⟨h.threads.schedule, h.bitmap.schedule, h.waits.schedule, by simpa using h.unlocked⟩

theorem SchedOk.start : SchedOk M (k.rtSystemSchedulerStart M) := by
  obtain ⟨c, hc⟩ := k.rtSystemSchedulerStart_eq M
  rw [hc]
  exact ⟨⟨⟨h.threads.queued.mem, h.threads.queued.nodup⟩, h.threads.mask, h.threads.init⟩,
    h.bitmap.congr rfl rfl rfl, h.waits.congr rfl fun _ hu => hu, h.unlocked⟩

/-- Writes to `error` and to the thread timer. -/
theorem SchedOk.modify {f : Thread → Thread}
    (hf : ∀ th, (f th).stat = th.stat ∧ (f th).currentPriority = th.currentPriority ∧ (f
      th).initPriority = th.initPriority ∧ (f th).number = th.number ∧ (f th).highMask = th.highMask
      ∧ (f th).numberMask = th.numberMask) : SchedOk M (k.modify t f) := by
  obtain ⟨h1, h2, h3, h4, h5, h6⟩ := hf (k.thread t)
  exact ⟨h.threads.modify_data h1 h2 h3 h4 h5 h6, h.bitmap.modify, h.waits.modify h1, h.unlocked⟩

theorem SchedOk.setError (e : Err) : SchedOk M (k.modify t fun th => { th with error := e }) :=
  h.modify fun _ => ⟨rfl, rfl, rfl, rfl, rfl, rfl⟩

theorem SchedOk.changePriority (hM : M ≤ 256) (hp : p < M) :
    SchedOk M (k.rtThreadChangePriority M t p) := by
  obtain ⟨hthreads, hbitmap⟩ := h.threads.changePriority (t := t) hM hp
  refine ⟨hthreads, hbitmap h.bitmap, h.waits.changePriority, ?_⟩
  unfold rtThreadChangePriority
  split_ifs <;> simp [h.unlocked]

theorem SchedOk.inheritPriority (hM : M ≤ 256) (ht : (k.thread t).stat = .ready) (owner : Tid) :
    SchedOk M (k.inheritPriority M t owner) := by
  unfold Kernel.inheritPriority
  split_ifs
  · exact h.changePriority hM (h.threads.mask t (.inl ht)).lt
  · exact h

theorem SchedOk.restorePriority (hM : M ≤ 256) (hp : p < M) :
    SchedOk M (k.restorePriority M t p) := by
  unfold Kernel.restorePriority
  split_ifs
  · exact h.changePriority hM hp
  · exact h

end

theorem restorePriority_currentThread (p : ℕ) :
    (k.restorePriority M t p).currentThread = k.currentThread := by
  unfold Kernel.restorePriority
  split_ifs
  · exact rtThreadChangePriority_currentThread p
  · rfl

/-- `rt_schedule` changes `rt_current_thread` only. -/
theorem SchedOk.of_schedule (h : SchedOk M (k.rtSchedule M)) : SchedOk M k := by
  obtain ⟨c, hc⟩ := k.rtSchedule_eq M
  rw [hc] at h
  exact ⟨⟨⟨h.threads.queued.mem, h.threads.queued.nodup⟩, h.threads.mask, h.threads.init⟩,
    h.bitmap.congr rfl rfl rfl, h.waits.congr rfl fun _ hu => hu, h.unlocked⟩

section

variable (h : SchedOk M k)
include h

theorem SchedOk.resume (hq : t ∈ k.suspendThread q) : SchedOk M (k.rtThreadResume M t).2 := by
  obtain ⟨hthreads, hbitmap⟩ := h.threads.resume (t := t)
  have hs := h.waits.suspended q t hq
  refine ⟨hthreads, hbitmap h.bitmap,
    h.waits.erase (rtThreadResume_suspendThread hs) fun u hu => ?_, ?_⟩
  · rw [rtThreadResume_thread hs, modify_thread_ne _ _ hu]
  · unfold rtThreadResume
    rw [if_pos hs]
    simp [h.unlocked]

theorem SchedOk.listResume : SchedOk M (k.rtIpcListResume M q) := by
  unfold rtIpcListResume
  split
  · exact h
  · rename_i t l hlist
    exact h.resume (q := q) (by simp [hlist])

/-- A thread that blocks lets the most urgent ready thread run. -/
theorem SchedOk.blockOn [DecidableEq Q] (hM : M ≤ 256) (ht : (k.thread t).stat = .ready) (q : Q)
    (flag : IpcFlag) (time : ℤ) :
    SchedOk M (k.blockOn M t q flag time) ∧ Urgent (k.blockOn M t q flag time) := by
  have hsusp : SchedOk M (k.rtIpcListSuspend M t q flag) := by
    obtain ⟨hthreads, hbitmap⟩ := h.threads.suspend (t := t) hM
    refine ⟨⟨⟨hthreads.queued.mem, hthreads.queued.nodup⟩, hthreads.mask, hthreads.init⟩,
      (hbitmap h.bitmap).congr rfl rfl rfl, h.waits.listSuspend ht, ?_⟩
    show (k.rtThreadSuspend M t).2.schedulerLockNest = 0
    unfold rtThreadSuspend
    rw [if_pos ht]
    simp [h.unlocked]
  have htimer : SchedOk M (if 0 < time then (k.rtIpcListSuspend M t q flag).startThreadTimer t
      else k.rtIpcListSuspend M t q flag) := by
    split_ifs
    · exact hsusp.modify fun _ => ⟨rfl, rfl, rfl, rfl, rfl, rfl⟩
    · exact hsusp
  exact ⟨htimer.schedule, htimer.urgent_schedule hM⟩

theorem SchedOk.timeout (hM : M ≤ 256) (hk : k.threadTimerExpires M t = some k') :
    SchedOk M k' ∧ Urgent k' := by
  have hwaits := h.waits.timeout hk
  unfold threadTimerExpires at hk
  split_ifs at hk
  have hm : SchedOk M (k.modify t fun th => { th with timerLinked := false }) :=
    h.modify fun _ => ⟨rfl, rfl, rfl, rfl, rfl, rfl⟩
  obtain ⟨hthreads, hbitmap⟩ := hm.threads.timeout hk
  unfold rtThreadTimeout at hk
  split_ifs at hk
  cases hk
  have hok : SchedOk M _ := ⟨hthreads, hbitmap hm.bitmap, hwaits, by simp [h.unlocked]⟩
  exact ⟨hok, hok.of_schedule.urgent_schedule hM⟩

theorem SchedOk.startup (hM : M ≤ 256) (hk : k.rtThreadStartup M t = some k') :
    SchedOk M k' ∧ Urgent k' := by
  have hwaits := h.waits.startup hk
  obtain ⟨hthreads, hbitmap⟩ := h.threads.startup hk
  unfold rtThreadStartup at hk
  split_ifs at hk
  rw [some.injEq] at hk
  have hlock : k'.schedulerLockNest = 0 := by
    rw [← hk]
    split_ifs <;> simp [rtThreadResume, h.unlocked]
  have hok : SchedOk M k' := ⟨hthreads, hbitmap h.bitmap, hwaits, hlock⟩
  refine ⟨hok, ?_⟩
  split_ifs at hk with hcur
  · intro c hc
    rw [← hk, hcur] at hc
    cases hc
  · rw [← hk] at hok ⊢
    exact hok.of_schedule.urgent_schedule hM

end

theorem Urgent.congr (h : Urgent k) (hcur : k'.currentThread = k.currentThread)
    (hthread : ∀ u, (k'.thread u).stat = (k.thread u).stat ∧
      (k'.thread u).currentPriority = (k.thread u).currentPriority) : Urgent k' := by
  intro c hc u hu
  rw [hcur] at hc
  rw [(hthread u).1] at hu
  rw [(hthread c).2, (hthread u).2]
  exact h c hc u hu

theorem Urgent.setError (h : Urgent k) (e : Err) :
    Urgent (k.modify t fun th => { th with error := e }) := by
  refine h.congr rfl fun u => ?_
  rw [modify_thread_apply]
  split_ifs with hu <;> simp [hu]

/-! ## Semaphores -/

/-- `rt_sem_take` (`src/ipc.c`, lines 328–411) by thread `t`, for a semaphore with wait list `q`. -/
def semTake [DecidableEq Q] (M : ℕ) (k : Kernel Q) (sem : Sem) (q : Q) (t : Tid) (time : ℤ) :
    Outcome × Kernel Q × Sem :=
  if 0 < sem.value then (.returned .eok, k, { sem with value := sem.value - 1 })
  else if time = 0 then (.returned .etimeout, k, sem)
  else
    let k := k.modify t fun th => { th with error := .eok }
    (.blocked, k.blockOn M t q sem.flag time, sem)

/-- `rt_sem_release` (`src/ipc.c`, lines 435–469). -/
def semRelease (M : ℕ) (k : Kernel Q) (sem : Sem) (q : Q) : Kernel Q × Sem :=
  if k.suspendThread q ≠ [] then ((k.rtIpcListResume M q).rtSchedule M, sem)
  else (k, { sem with value := (sem.value + 1) % 2 ^ 16 })

/-- With one semaphore, this is `SemSys.rtSemTake`. -/
theorem rtSemTake_eq_semTake (s : SemSys) (time : ℤ) :
    s.rtSemTake M (some t) time =
      let r := s.kernel.semTake M s.sem () t time
      some (r.1, ⟨r.2.1, r.2.2, if r.1 = .blocked then t :: s.calls else s.calls⟩) := by
  unfold SemSys.rtSemTake semTake
  split_ifs <;> rfl

theorem rtSemRelease_eq_semRelease (s : SemSys) :
    s.rtSemRelease M =
      let r := s.kernel.semRelease M s.sem ()
      (.returned .eok, ⟨r.1, r.2, s.calls⟩) := by
  unfold SemSys.rtSemRelease semRelease
  split_ifs <;> rfl

theorem SchedOk.semTake [DecidableEq Q] {time : ℤ} (h : SchedOk M k) (hM : M ≤ 256) (hu : Urgent k)
    (ht : (k.thread t).stat = .ready) :
    SchedOk M (k.semTake M sem q t time).2.1 ∧ Urgent (k.semTake M sem q t time).2.1 := by
  unfold Kernel.semTake
  split_ifs
  · exact ⟨h, hu⟩
  · exact ⟨h, hu⟩
  · exact (h.setError .eok).blockOn hM (by simpa using ht) q sem.flag time

theorem SchedOk.semRelease (h : SchedOk M k) (hM : M ≤ 256) (hu : Urgent k) :
    SchedOk M (k.semRelease M sem q).1 ∧ Urgent (k.semRelease M sem q).1 := by
  unfold Kernel.semRelease
  split_ifs
  · exact ⟨h.listResume.schedule, h.listResume.urgent_schedule hM⟩
  · exact ⟨h, hu⟩

end Kernel

/-! ## Mutexes -/

namespace MutexSys

variable {Q : Type} [DecidableEq Q] {M : ℕ} {s s' : MutexSys Q} {t : Tid} {m : Q} {o : Outcome}
  {k : Kernel Q}

/-- The scheduler is in order, and the priorities saved in the mutexes are priorities. -/
structure SavedOk (M : ℕ) (s : MutexSys Q) : Prop where
  sched : s.kernel.SchedOk M
  saved : ∀ m t, (s.mutex m).owner = some t → (s.mutex m).originalPriority < M
  hold : ∀ m, (s.mutex m).hold < 2 ^ 8

omit [DecidableEq Q] in
theorem SavedOk.congr (h : SavedOk M s) (hk : k.SchedOk M) : SavedOk M { s with kernel := k } :=
  ⟨hk, h.saved, h.hold⟩

theorem SavedOk.update {mx : Mutex} (h : SavedOk M s) (hk : k.SchedOk M)
    (hsaved : ∀ u, mx.owner = some u → mx.originalPriority < M) (hhold : mx.hold < 2 ^ 8) :
    SavedOk M { s with kernel := k, mutex := update s.mutex m mx } := by
  refine ⟨hk, fun m' u hu => ?_, fun m' => ?_⟩
  · by_cases hm : m' = m
    · subst hm
      simp only [update_self] at hu ⊢
      exact hsaved u hu
    · simp only [update_of_ne hm] at hu ⊢
      exact h.saved m' u hu
  · by_cases hm : m' = m
    · subst hm
      simpa only [update_self] using hhold
    · simpa only [update_of_ne hm] using h.hold m'

theorem SavedOk.take {time : ℤ} (h : SavedOk M s) (hM : M ≤ 256) (hu : s.kernel.Urgent)
    (ht : (s.kernel.thread t).stat = .ready) (hs : s.rtMutexTake M t m time = some (o, s')) :
    SavedOk M s' ∧ s'.kernel.Urgent := by
  have hok := h.sched.setError (t := t) .eok
  have hurg := hu.setError (t := t) .eok
  unfold rtMutexTake at hs
  dsimp only at hs
  split_ifs at hs with hown hval htime
  · cases hs
    exact ⟨h.update hok (h.saved m) (mod_lt _ (by norm_num)), hurg⟩
  · cases hs
    refine ⟨h.update hok (fun _ _ => ?_) (mod_lt _ (by norm_num)), hurg⟩
    simpa using (h.sched.threads.mask t (.inl ht)).lt
  · cases hs
    exact ⟨h.congr (hok.setError .etimeout), hurg.setError .etimeout⟩
  · split at hs
    · cases hs
    · rename_i w howner
      cases hs
      have ht' :
          ((s.kernel.modify t fun th => { th with error := .eok }).thread t).stat = .ready := by
        simpa using ht
      have hin := hok.inheritPriority hM ht' w
      have hstat : ((Kernel.inheritPriority M _ t w).thread t).stat = _ :=
        (reprioritised_inherit hok.waits).stat t
      obtain ⟨hk, hurg'⟩ := hin.blockOn hM (hstat.trans ht') m (s.mutex m).flag time
      exact ⟨⟨hk, h.saved, h.hold⟩, hurg'⟩

/-- A thread that gives up a mutex for which nobody waits is not less urgent then than another ready
thread. -/
def StaysUrgent (s : MutexSys Q) (t : Tid) (m : Q) : Prop :=
  (s.mutex m).owner = some t → (s.mutex m).hold = 1 → s.kernel.suspendThread m = [] →
    ∀ u, u ≠ t → (s.kernel.thread u).stat = .ready →
      (s.mutex m).originalPriority ≤ (s.kernel.thread u).currentPriority

theorem SavedOk.release (h : SavedOk M s) (hM : M ≤ 256) (hu : s.kernel.Urgent)
    (hcur : s.kernel.currentThread = some t) :
    SavedOk M (s.rtMutexRelease M t m).2 ∧
      ((s.rtMutexRelease M t m).2.kernel.Urgent ↔ StaysUrgent s t m) := by
  have hlt := h.hold m
  unfold rtMutexRelease
  dsimp only
  by_cases hown : (s.mutex m).owner ≠ some t
  · rw [if_pos hown]
    exact ⟨h.congr (h.sched.setError .error),
      iff_of_true (hu.setError .error) fun howner => absurd howner hown⟩
  rw [if_neg hown]
  rw [not_not] at hown
  by_cases hhold : ((s.mutex m).hold + 2 ^ 8 - 1) % 2 ^ 8 = 0
  · have hone : (s.mutex m).hold = 1 := by omega
    have hk := h.sched.restorePriority (t := t) hM (h.saved m t hown)
    have hp : s.kernel.Reprioritised t _
        (s.kernel.restorePriority M t (s.mutex m).originalPriority) :=
      reprioritised_restore h.sched.waits
    have hcur' := (restorePriority_currentThread (M := M) (k := s.kernel) (t := t)
      (s.mutex m).originalPriority).trans hcur
    rw [if_pos hhold]
    set k := s.kernel.restorePriority M t (s.mutex m).originalPriority
    split
    · -- the first waiter gets the mutex, and `rt_schedule` is called
      rename_i w l hlist
      have hw : (k.thread w).currentPriority < M :=
        (hk.threads.mask w (.inr (hk.waits.suspended m w (by simp [hlist])))).lt
      refine ⟨h.update hk.listResume.schedule (fun _ _ => hw) (mod_lt _ (by norm_num)), ?_⟩
      refine iff_of_true (hk.listResume.urgent_schedule hM) fun _ _ hempty => ?_
      rw [← hp.lists, hlist] at hempty
      cases hempty
    · rename_i hlist
      refine ⟨h.update hk (fun _ hnone => by cases hnone) (mod_lt _ (by norm_num)), ?_⟩
      constructor
      · intro hurg _ _ _ u hut hready
        have hle := hurg t hcur' u (by rw [hp.stat, hready])
        simpa only [hp.priority, if_neg hut, if_true] using hle
      · intro hstays c hc u hready
        rw [hcur'] at hc
        cases hc
        simp only [hp.stat] at hready
        simp only [hp.priority, if_true]
        by_cases hut : u = t
        · rw [if_pos hut]
        · rw [if_neg hut]
          exact hstays hown hone (by rw [← hp.lists, hlist]) u hut hready
  · rw [if_neg hhold]
    refine ⟨h.update h.sched (h.saved m) (mod_lt _ (by norm_num)), ?_⟩
    exact iff_of_true hu fun _ hone => absurd (by rw [hone]; rfl) hhold

end MutexSys

/-! ## The system -/

/-- Threads with the mutexes and semaphores they use. `calls t` is the object of the `rt_mutex_take`
or `rt_sem_take` in which `t` was suspended and that has not returned. The mutexes of `A ⊕ B` that
are semaphores are not used. -/
structure IpcSys (A B : Type) extends MutexSys (A ⊕ B) where
  sem : B → Sem

/-- The calls of the running thread `t`, the start of threads, and the timeouts of waiting threads.
`resume t`: thread `t`, woken in one of the two functions, runs. -/
inductive IpcOp (A B : Type)
  | startup (t : Tid)
  | schedulerStart
  | mutexTake (t : Tid) (m : A) (time : ℤ)
  | mutexRelease (t : Tid) (m : A)
  | semTake (t : Tid) (b : B) (time : ℤ)
  | semRelease (t : Tid) (b : B)
  | resume (t : Tid)
  | timeout (t : Tid)
  deriving DecidableEq, Repr

namespace IpcSys

variable {A B : Type} [DecidableEq A] [DecidableEq B] (M : ℕ) (s : IpcSys A B)

/-- Thread `t` is running. -/
def Running (t : Tid) : Prop := s.kernel.currentThread = some t ∧ (s.kernel.thread t).stat = .ready
  deriving Decidable

/-- The state after a function of a mutex. -/
def withMutexes (r : Outcome × MutexSys (A ⊕ B)) : Outcome × IpcSys A B :=
  (r.1, { s with toMutexSys := r.2 })

/-- One step: a call up to its return or until another thread runs. -/
def step : IpcOp A B → Option (Outcome × IpcSys A B)
  | .startup t => (s.kernel.rtThreadStartup M t).map fun k =>
      (.returned .eok, { s with kernel := k })
  | .schedulerStart =>
    if s.kernel.currentThread = none then
      some (.void, { s with kernel := s.kernel.rtSystemSchedulerStart M })
    else none
  | .mutexTake t m time =>
    if s.Running t ∧ s.calls t = none then
      (s.toMutexSys.rtMutexTake M t (.inl m) time).map s.withMutexes
    else none
  | .mutexRelease t m =>
    if s.Running t ∧ s.calls t = none then
      some (s.withMutexes (s.toMutexSys.rtMutexRelease M t (.inl m)))
    else none
  | .semTake t b time =>
    if s.Running t ∧ s.calls t = none then
      let r := s.kernel.semTake M (s.sem b) (.inr b) t time
      some (r.1, { s with
        kernel := r.2.1
        sem := update s.sem b r.2.2
        calls := if r.1 = .blocked then update s.calls t (some (.inr b)) else s.calls })
    else none
  | .semRelease t b =>
    if s.Running t ∧ s.calls t = none then
      let r := s.kernel.semRelease M (s.sem b) (.inr b)
      some (.returned .eok, { s with kernel := r.1, sem := update s.sem b r.2 })
    else none
  | .resume t =>
    if s.Running t then (s.toMutexSys.rtMutexTakeEnd t).map s.withMutexes else none
  | .timeout t => (s.kernel.threadTimerExpires M t).map fun k => (.void, { s with kernel := k })

/-- The scheduler, the threads and the mutexes have just been initialised. -/
structure Initial : Prop where
  kernel : ∃ mem : Tid → Thread,
    (∀ t, (mem t).stat = .close ∨ (mem t).stat = .init ∧ (mem t).initPriority < M) ∧
      s.kernel = rtSystemSchedulerInit mem
  mutex : ∀ m, ∃ flag, s.mutex m = rtMutexInit flag

variable {M s} {s' : IpcSys A B} {op : IpcOp A B} {o : Outcome}

omit [DecidableEq A] [DecidableEq B] in
theorem Initial.savedOk (h : s.Initial M) : s.toMutexSys.SavedOk M := by
  obtain ⟨mem, hmem, hk⟩ := h.kernel
  have hstat : ∀ t, (mem t).stat ≠ .ready ∧ (mem t).stat ≠ .suspend := fun t => by
    rcases hmem t with ht | ⟨ht, -⟩ <;> simp [ht]
  refine ⟨?_, fun m t ht => ?_, fun m => ?_⟩
  · rw [hk]
    refine ⟨⟨?_, fun t ht => ?_, fun t ht => ?_⟩, bitmapOk_init mem, ?_, rfl⟩
    · have hR : {t | ((rtSystemSchedulerInit mem : Kernel (A ⊕ B)).thread t).stat = .ready} =
          ∅ := Set.eq_empty_of_forall_notMem fun t ht => (hstat t).1 ht
      rw [hR]
      exact queued_init mem
    · rcases ht with ht | ht
      · exact absurd ht (hstat t).1
      · exact absurd ht (hstat t).2
    · rcases hmem t with hc | ⟨-, hp⟩
      · exact absurd (ht.symm.trans hc) (by simp)
      · exact hp
    · exact ⟨by simp [rtSystemSchedulerInit], by simp [rtSystemSchedulerInit],
        by simp [rtSystemSchedulerInit]⟩
  · obtain ⟨flag, hf⟩ := h.mutex m
    rw [hf] at ht
    cases ht
  · obtain ⟨flag, hf⟩ := h.mutex m
    rw [hf]
    exact zero_lt_succ _

/-! ## Runs -/

/-- The step is not a release that makes the running thread less urgent than another ready one while
nobody waits for the mutex. -/
def KeepsUrgent (s : IpcSys A B) : IpcOp A B → Prop
  | .mutexRelease t m => s.toMutexSys.StaysUrgent t (.inl m)
  | _ => True

/-- A step keeps the scheduler in order, and it leaves the most urgent thread running exactly if it
is not such a release. -/
theorem urgent_step_iff (hM : M ≤ 256) (h : s.toMutexSys.SavedOk M) (hu : s.kernel.Urgent)
    (hs : s.step M op = some (o, s')) :
    s'.toMutexSys.SavedOk M ∧ (s'.kernel.Urgent ↔ KeepsUrgent s op) := by
  have hboth : s'.toMutexSys.SavedOk M ∧ s'.kernel.Urgent → KeepsUrgent s op →
      s'.toMutexSys.SavedOk M ∧ (s'.kernel.Urgent ↔ KeepsUrgent s op) := fun h' hc =>
    ⟨h'.1, iff_of_true h'.2 hc⟩
  cases op with
  | startup t =>
    obtain ⟨k, hk, heq⟩ := map_eq_some_iff.mp hs
    cases heq
    obtain ⟨hok, hurg⟩ := h.sched.startup hM hk
    exact hboth ⟨h.congr hok, hurg⟩ trivial
  | schedulerStart =>
    simp only [step] at hs
    split_ifs at hs
    cases hs
    exact hboth ⟨h.congr h.sched.start, h.sched.urgent_start hM⟩ trivial
  | mutexTake t m time =>
    simp only [step] at hs
    split_ifs at hs with ht
    obtain ⟨r, hr, heq⟩ := map_eq_some_iff.mp hs
    cases heq
    exact hboth (h.take hM hu ht.1.2 hr) trivial
  | mutexRelease t m =>
    simp only [step] at hs
    split_ifs at hs with ht
    cases hs
    exact h.release hM hu ht.1.1
  | semTake t b time =>
    by_cases ht : s.Running t ∧ s.calls t = none
    · simp only [step, if_pos ht] at hs
      cases hs
      obtain ⟨hok, hurg⟩ := h.sched.semTake hM hu ht.1.2
      exact hboth ⟨⟨hok, h.saved, h.hold⟩, hurg⟩ trivial
    · simp only [step, if_neg ht] at hs
      cases hs
  | semRelease t b =>
    simp only [step] at hs
    split_ifs at hs with ht
    cases hs
    obtain ⟨hok, hurg⟩ := h.sched.semRelease hM hu
    exact hboth ⟨⟨hok, h.saved, h.hold⟩, hurg⟩ trivial
  | resume t =>
    simp only [step] at hs
    split_ifs at hs with ht
    obtain ⟨r, hr, heq⟩ := map_eq_some_iff.mp hs
    cases heq
    unfold MutexSys.rtMutexTakeEnd at hr
    split at hr
    · cases hr
    · cases hr
      exact hboth ⟨⟨h.sched, h.saved, h.hold⟩, hu⟩ trivial
  | timeout t =>
    obtain ⟨k, hk, heq⟩ := map_eq_some_iff.mp hs
    cases heq
    obtain ⟨hok, hurg⟩ := h.sched.timeout hM hk
    exact hboth ⟨h.congr hok, hurg⟩ trivial

/-- In every run of `rt_mutex_take`, `rt_mutex_release`, `rt_sem_take`, `rt_sem_release` and
timeouts in which a thread that gives up a mutex with nobody waiting for it is not made less urgent
than another ready thread: no ready thread is more urgent than the running one. -/
theorem preemption {s₀ : IpcSys A B} {tr : List (IpcOp A B × Outcome)} (hM : M ≤ 256)
    (h₀ : s₀.Initial M) (hrun : StepsSatisfy (step M) KeepsUrgent s₀ tr s) (c u : Tid)
    (hc : s.kernel.currentThread = some c) (hu : (s.kernel.thread u).stat = .ready) :
    ¬ (s.kernel.thread u).currentPriority < (s.kernel.thread c).currentPriority := by
  have hinit : s₀.kernel.Urgent := by
    obtain ⟨mem, -, hk⟩ := h₀.kernel
    intro c hc
    rw [hk] at hc
    cases hc
  have h : s.toMutexSys.SavedOk M ∧ s.kernel.Urgent :=
    hrun.inv (I := fun s => s.toMutexSys.SavedOk M ∧ s.kernel.Urgent) ⟨h₀.savedOk, hinit⟩
      fun _ _ _ _ h hop hs => by
        obtain ⟨hok, hiff⟩ := urgent_step_iff hM h.1 h.2 hs
        exact ⟨hok, hiff.mpr hop⟩
  exact not_lt.mpr (h.2 c hc u hu)

/-! ### Two runs -/

/-- One mutex and one semaphore; thread `t` has priority `20 - 5 * t`. -/
def sampleIpc : IpcSys Unit Unit where
  kernel := newThreads fun t => 20 - 5 * t
  mutex := fun _ => rtMutexInit .prio
  calls := fun _ => none
  sem := fun _ => rtSemInit 0 .prio

theorem sampleIpc_initial : sampleIpc.Initial 32 :=
  ⟨⟨_, fun t => .inr ⟨rfl, (sub_le 20 (5 * t)).trans_lt (by decide)⟩, rfl⟩,
    fun _ => ⟨.prio, rfl⟩⟩

/-- Thread 3 waits for the mutex of thread 0 and gets it. -/
theorem preemption_sample :
    ∃ tr s, StepsSatisfy (step 32) KeepsUrgent sampleIpc tr s ∧ s.kernel.currentThread = some 3 ∧
      ¬ (s.kernel.thread 0).currentPriority < (s.kernel.thread 3).currentPriority := by
  have h₀ : StepsSatisfy (step 32) KeepsUrgent sampleIpc [] sampleIpc := .nil
  have h₁ := h₀.next (i := IpcOp.startup 0) trivial (by decide)
  have h₂ := h₁.next (i := IpcOp.schedulerStart) trivial (by decide)
  have h₃ := h₂.next (i := IpcOp.mutexTake 0 () 0) trivial (by decide)
  have h₄ := h₃.next (i := IpcOp.startup 3) trivial (by decide)
  have h₅ := h₄.next (i := IpcOp.mutexTake 3 () (-1)) trivial (by decide)
  -- thread 3 waits when thread 0 gives the mutex up
  have h₆ := h₅.next (i := IpcOp.mutexRelease 0 ())
    (fun _ _ hempty => absurd hempty (by decide)) (by decide)
  exact ⟨_, _, h₆, by decide,
    preemption (by decide) sampleIpc_initial h₆ 3 0 (by decide) (by decide)⟩

/-- Thread 0 takes the mutex, thread 3 waits for it, so that thread 0 inherits its priority, and
times out. Thread 0 gives the mutex up. -/
def sampleTimedOut : List (IpcOp Unit Unit) :=
  [.startup 0, .schedulerStart, .mutexTake 0 () 0, .startup 3, .mutexTake 3 () 10, .timeout 3,
    .mutexRelease 0 ()]

theorem sampleTimedOut_possible : (exec (step 32) sampleIpc sampleTimedOut).isSome := by
  decide_cbv

/-- When `rt_mutex_release` returns, thread 0 runs at priority 20, and thread 3 with priority 5 is
ready. -/
theorem preemption_lost :
    ∃ tr s, sampleIpc.Initial 32 ∧ Run (step 32) sampleIpc tr s ∧
      s.kernel.currentThread = some 0 ∧ (s.kernel.thread 3).stat = .ready ∧
      (s.kernel.thread 3).currentPriority < (s.kernel.thread 0).currentPriority :=
  ⟨_, _, sampleIpc_initial, .of_isSome sampleTimedOut_possible, by decide_cbv,
    by decide_cbv, by decide_cbv⟩

end IpcSys

end RtThread
