import RtThread.Ipc.Basic
import RtThread.Lib.ArrivalOrder
import RtThread.Lib.Runs

/-!
# The order of wait lists

The lists of an object with `RT_IPC_FLAG_PRIO` are to be sorted by the threads'
`current_priority`, and threads with the same priority are to be in the order in which
they came. `rt_ipc_list_suspend` puts a thread where it belongs, but nothing moves a
thread when its priority changes while it waits: `rt_thread_control` only writes
`current_priority`, be it called by the application or by `rt_mutex_take` for the owner
of a mutex.

`WaitStep` says what any function of `src/ipc.c` can do to wait lists and priorities.
A `WaitObject` is a system of threads that use IPC objects, all of whose steps are of
this kind. To its steps come priority changes of any thread at any time.

* `sorted_step_iff`: a step keeps the lists sorted iff a waiting thread whose priority
  it changes fits its place in the list.
* `release_least`: while they are sorted, a release wakes a most urgent waiter.
-/

namespace RtThread

open Runs ArrivalOrder List Function

/-! ## What a step can do to the wait lists -/

namespace Kernel

variable {Q : Type} {M : ℕ} {k k' : Kernel Q} {t : Tid} {q : Q} {flag : Q → IpcFlag}

/-- `thread->current_priority`. -/
def priority (k : Kernel Q) (t : Tid) : ℕ := (k.thread t).currentPriority

/-- The changes in one step of the wait lists `L` and the priorities `P`. `arrives` is the thread
that joins a list; `releases` says that at most the first thread of a list is woken. -/
inductive WaitStep (flag : Q → IpcFlag) (P P' : Tid → ℕ) (L L' : Q → List Tid) :
    (arrives : Option Tid) → (releases : Prop) → Prop
  /-- One thread at most gets another priority. -/
  | keeps {releases : Prop} (o : Tid) (hprio : ∀ u ≠ o, P' u = P u) (hlist : L' = L) :
      WaitStep flag P P' L L' none releases
  /-- The same, and then a thread joins a list. -/
  | joins {releases : Prop} (o t : Tid) (q : Q) (hprio : ∀ u ≠ o, P' u = P u)
      (hnew : ∀ q', t ∉ L q')
      (hlist : L' q = match flag q with
        | .fifo => L q ++ [t]
        | .prio => (L q).orderedInsert (fun a b => P' a < P' b) t)
      (hother : ∀ q' ≠ q, L' q' = L q') : WaitStep flag P P' L L' (some t) releases
  /-- The first thread of a list is woken. -/
  | wakes {releases : Prop} (q : Q) (hprio : ∀ q', ∀ u ∈ L q', P' u = P u)
      (hlist : L' q = (L q).tail) (hother : ∀ q' ≠ q, L' q' = L q') :
      WaitStep flag P P' L L' none releases
  /-- Some threads leave. -/
  | leaves {releases : Prop} (hno : ¬ releases) (hprio : ∀ q', ∀ u ∈ L q', P' u = P u)
      (hlist : ∀ q', (L' q').Sublist (L q')) : WaitStep flag P P' L L' none releases

/-- A step that changes lists and priorities in this way and keeps `WaitOk`. -/
structure Waits (flag : Q → IpcFlag) (arrives : Option Tid) (releases : Prop)
    (k k' : Kernel Q) : Prop where
  waits : k'.WaitOk
  step : WaitStep flag k.priority k'.priority k.suspendThread k'.suspendThread arrives releases

theorem insertPrio_eq (thread : Tid → Thread) (t : Tid) (l : List Tid) :
    insertPrio thread t l = l.orderedInsert
      (fun a b => (thread a).currentPriority < (thread b).currentPriority) t := by
  induction l with
  | nil => rfl
  | cons s l ih => rw [insertPrio, orderedInsert, ih]

variable {releases : Prop} {k₁ : Kernel Q}

theorem priority_of_modify {f : Thread → Thread} (hth : k'.thread = (k.modify t f).thread)
    (hf : ∀ th, (f th).currentPriority = th.currentPriority) (u : Tid) :
    k'.priority u = k.priority u := by
  rw [priority, hth, modify_thread_apply]
  split_ifs with hu
  · rw [hf, hu]
    rfl
  · rfl

section

variable (hw : k.WaitOk)
include hw

/-- Neither lists nor priorities change. -/
theorem Waits.same (hstat : ∀ u, (k'.thread u).stat = (k.thread u).stat)
    (hprio : ∀ u, k'.priority u = k.priority u) (hlist : k'.suspendThread = k.suspendThread) :
    Waits flag none releases k k' :=
  ⟨hw.congr hlist fun u hu => by rw [hstat, hu], .keeps 0 (fun u _ => hprio u) hlist⟩

theorem Waits.changePriority (p : ℕ) :
    Waits flag none releases k (k.rtThreadChangePriority M t p) := by
  refine ⟨hw.changePriority, .keeps t (fun u hu => ?_) ?_⟩
  · rw [priority, rtThreadChangePriority_thread, modify_thread_ne _ _ hu]
    rfl
  · funext q
    exact rtThreadChangePriority_suspendThread fun hm => by simp [hw.suspended q t hm]

theorem Waits.schedulerStart : Waits flag none releases k (k.rtSystemSchedulerStart M) :=
  .same hw (by simp) (by simp [priority]) (by simp)

theorem Waits.startup (h : k.rtThreadStartup M t = some k') : Waits flag none releases k k' := by
  obtain ⟨-, hth⟩ := rtThreadStartup_thread h
  refine ⟨hw.startup h, .keeps t (fun u hu => ?_) (hw.startup_suspendThread h)⟩
  rw [priority, hth, modify_thread_ne _ _ hu]
  rfl

theorem Waits.timeout (h : k.threadTimerExpires M t = some k') : Waits flag none False k k' := by
  obtain ⟨-, -, hth, hlist⟩ := threadTimerExpires_some h
  refine ⟨hw.timeout h, .leaves id (fun _ u _ => priority_of_modify hth (fun _ => rfl) u) ?_⟩
  intro q
  rw [hlist]
  exact erase_sublist

end

/-- A thread blocks on `q`, after the priority of another one has changed. -/
theorem Waits.blockOn [DecidableEq Q] {time : ℤ} (o : Tid) (hw : k₁.WaitOk)
    (hready : (k₁.thread t).stat = .ready) (hprio : ∀ u ≠ o, k₁.priority u = k.priority u)
    (hlist : k₁.suspendThread = k.suspendThread) {f : IpcFlag} (hf : f = flag q) :
    Waits flag (some t) releases k (k₁.blockOn M t q f time) := by
  have hnew : ∀ q', t ∉ k₁.suspendThread q' := hw.notMem (by simp [hready])
  have hsame : ∀ u, (k₁.blockOn M t q f time).priority u = k₁.priority u :=
    priority_of_modify (blockOn_thread hready) fun _ => rfl
  refine ⟨hw.blockOn hready, .joins o t q (fun u hu => ?_) ?_ ?_ fun q' hq => ?_⟩
  · rw [hsame, hprio u hu]
  · rw [← hlist]
    exact hnew
  · have hold : (k₁.rtThreadSuspend M t).2.suspendThread q = k.suspendThread q := by
      rw [rtThreadSuspend_suspendThread hready, erase_of_not_mem (hnew q), hlist]
    have hinsert : insertPrio (k₁.rtThreadSuspend M t).2.thread t (k.suspendThread q) =
        (k.suspendThread q).orderedInsert (fun a b => (k₁.blockOn M t q f time).priority a <
          (k₁.blockOn M t q f time).priority b) t := by
      have hprio' : ∀ u, ((k₁.rtThreadSuspend M t).2.thread u).currentPriority =
          (k₁.blockOn M t q f time).priority u := by
        intro u
        rw [hsame]
        exact priority_of_modify (rtThreadSuspend_thread hready) (fun _ => rfl) u
      rw [insertPrio_eq]
      simp only [hprio']
    rw [blockOn_suspendThread, ← hf]
    cases f with
    | fifo => simp [rtIpcListSuspend, hold]
    | prio => simpa [rtIpcListSuspend, hold] using hinsert
  · rw [blockOn_suspendThread, rtIpcListSuspend_other hw hready hq, hlist]

/-- `rt_ipc_list_resume` and `rt_schedule`, after the priority of a thread has changed that does not
wait. -/
theorem Waits.listResume (hw : k₁.WaitOk)
    (hprio : ∀ q', ∀ u ∈ k.suspendThread q', k₁.priority u = k.priority u)
    (hlist : k₁.suspendThread = k.suspendThread) :
    Waits flag none releases k ((k₁.rtIpcListResume M q).rtSchedule M) := by
  refine ⟨hw.listResume.schedule, ?_⟩
  cases hq : k₁.suspendThread q with
  | nil =>
    have hsame : k₁.rtIpcListResume M q = k₁ := by simp [rtIpcListResume, hq]
    rw [hsame]
    refine .wakes q (fun q' u hu => ?_) ?_ fun q' _ => ?_
    · simpa [priority] using hprio q' u hu
    · rw [rtSchedule_suspendThread, ← hlist, hq]
      rfl
    · rw [rtSchedule_suspendThread, hlist]
  | cons h l =>
    have herase := rtIpcListResume_suspendThread (M := M) hw hq
    refine .wakes q (fun q' u hu => ?_) ?_ fun q' hne => ?_
    · rw [← hprio q' u hu, priority, rtSchedule_thread]
      exact priority_of_modify (rtIpcListResume_thread hw hq) (fun _ => rfl) u
    · rw [rtSchedule_suspendThread, herase, ← hlist, hq, erase_cons_head, tail_cons]
    · have hn : h ∉ k₁.suspendThread q' := fun hm => hne (hw.unique q' q h hm (by simp [hq]))
      rw [rtSchedule_suspendThread, herase, erase_of_not_mem hn, hlist]

/-- Threads leave the lists and keep their priorities. -/
structure Shrinks (k k' : Kernel Q) : Prop where
  prio : ∀ u, k'.priority u = k.priority u
  list : ∀ q, (k'.suspendThread q).Sublist (k.suspendThread q)

theorem Shrinks.refl (k : Kernel Q) : Shrinks k k := ⟨fun _ => rfl, fun _ => .refl _⟩

theorem Shrinks.trans {k₁ k₂ : Kernel Q} (h : Shrinks k k₁) (h' : Shrinks k₁ k₂) : Shrinks k k₂ :=
  ⟨fun u => (h'.prio u).trans (h.prio u), fun q => (h'.list q).trans (h.list q)⟩

theorem shrinks_modify {f : Thread → Thread}
    (hf : ∀ th, (f th).currentPriority = th.currentPriority) : Shrinks k (k.modify t f) :=
  ⟨priority_of_modify rfl hf, fun _ => .refl _⟩

theorem shrinks_resume : Shrinks k (k.rtThreadResume M t).2 := by
  by_cases hs : (k.thread t).stat = .suspend
  · refine ⟨priority_of_modify (rtThreadResume_thread hs) fun _ => rfl, fun q => ?_⟩
    rw [rtThreadResume_suspendThread hs]
    exact erase_sublist
  · rw [rtThreadResume, if_neg hs]
    exact .refl k

theorem shrinks_resumeAllLoop (n : ℕ) (k : Kernel Q) : Shrinks k (resumeAllLoop M q n k) := by
  induction n generalizing k with
  | zero => exact .refl k
  | succ n ih =>
    rw [resumeAllLoop]
    split
    · exact .refl k
    · have hmodify : ∀ t, Shrinks k (k.modify t fun th => { th with error := .error }) :=
        fun t => shrinks_modify fun _ => rfl
      exact ((hmodify _).trans shrinks_resume).trans (ih _)

theorem shrinks_schedule : Shrinks k (k.rtSchedule M) :=
  ⟨by simp [priority], fun q => by rw [rtSchedule_suspendThread]⟩

theorem WaitStep.mem {P P' : Tid → ℕ} {L L' : Q → List Tid} {arrives : Option Tid} {u : Tid}
    (h : WaitStep flag P P' L L' arrives releases) (hu : u ∈ L' q) :
    u ∈ L q ∨ arrives = some u := by
  cases h with
  | keeps o hprio hlist =>
    rw [hlist] at hu
    exact .inl hu
  | joins o t q₀ hprio hnew hlist hother =>
    by_cases hq : q = q₀
    · subst hq
      rw [hlist] at hu
      have hcons : u = t ∨ u ∈ L q := by
        cases hf : flag q with
        | fifo =>
          rw [hf] at hu
          simpa [or_comm] using hu
        | prio =>
          rw [hf] at hu
          exact (mem_orderedInsert _).mp hu
      rcases hcons with rfl | hu
      · exact .inr rfl
      · exact .inl hu
    · rw [hother q hq] at hu
      exact .inl hu
  | wakes q₀ hprio hlist hother =>
    by_cases hq : q = q₀
    · subst hq
      rw [hlist] at hu
      exact .inl (mem_of_mem_tail hu)
    · rw [hother q hq] at hu
      exact .inl hu
  | leaves hno hprio hlist => exact .inl ((hlist q).subset hu)

theorem Shrinks.waits (h : Shrinks k k') (hw : k'.WaitOk) : Waits flag none False k k' :=
  ⟨hw, .leaves id (fun _ u _ => h.prio u) h.list⟩

end Kernel

/-! ## Systems of threads and IPC objects -/

/-- A system of threads that use IPC objects with the wait lists `Q`. Its steps change the wait
lists in the ways of `WaitStep`: `arrives` is the thread that an operation with this result puts
into a list, `releases` are the operations that wake the first thread of a list. -/
structure WaitObject where
  Q : Type
  Sys : Type
  Op : Type
  Result : Type
  step : ℕ → Sys → Op → Option (Result × Sys)
  kernel : Sys → Kernel Q
  setKernel : Sys → Kernel Q → Sys
  flag : Sys → Q → IpcFlag
  arrives : Op → Result → Option Tid
  releases : Op → Prop
  kernel_setKernel : ∀ s k, kernel (setKernel s k) = k
  flag_setKernel : ∀ s k, flag (setKernel s k) = flag s
  waits_step : ∀ {M s op r s'}, (kernel s).WaitOk → step M s op = some (r, s') →
    flag s' = flag s ∧ (kernel s).Waits (flag s) (arrives op r) (releases op) (kernel s')

namespace WaitObject

variable (w : WaitObject)

/-- A step of the system, or `rt_thread_control` with `RT_THREAD_CTRL_CHANGE_PRIORITY` for thread
`t`, called by the application or by `rt_mutex_take`. -/
inductive EnvOp
  | op (a : w.Op)
  | changePriority (t : Tid) (p : ℕ)

/-- A state, and when the threads came: `arrived t` is the number of the step in which thread `t`
last joined a wait list, `now` that of the next step. -/
structure Recorded where
  sys : w.Sys
  now : ℕ
  arrived : Tid → ℕ

variable {w} (M : ℕ) (s : w.Recorded)

/-- The threads in the wait list `q`. -/
def Recorded.list (q : w.Q) : List Tid := (w.kernel s.sys).suspendThread q

/-- `thread->current_priority`. -/
def Recorded.priority (t : Tid) : ℕ := (w.kernel s.sys).priority t

/-- Was the object of the wait list created with `RT_IPC_FLAG_PRIO`? -/
def Recorded.IsPrio (q : w.Q) : Prop := w.flag s.sys q = .prio

def recordedStep : w.EnvOp → Option (Option w.Result × w.Recorded)
  | .op a => (w.step M s.sys a).map fun r =>
      (some r.1, {
        sys := r.2
        now := s.now + 1
        arrived := match w.arrives a r.1 with
          | none => s.arrived
          | some t => update s.arrived t s.now })
  | .changePriority t p => some (none, { s with
      sys := w.setKernel s.sys ((w.kernel s.sys).rtThreadChangePriority M t p)
      now := s.now + 1 })

/-- Nobody waits. -/
def Recorded.Initial : Prop := ∀ q, s.list q = []

/-- The lists of the objects with `RT_IPC_FLAG_PRIO` are sorted by priority, threads with the same
priority in the order in which they came. -/
def Recorded.ListsSorted : Prop := ∀ q, s.IsPrio q → Sorted s.priority s.arrived (s.list q)

/-- A thread that waits in such a list and whose priority is changed by the step fits its place in
the list with the new priority. -/
def KeepsPlaces (op : w.EnvOp) : Prop :=
  ∀ r s', recordedStep M s op = some (r, s') → ∀ q, s.IsPrio q →
    Fits s.priority s'.priority s.arrived (s.list q)

variable {M s} {s' : w.Recorded} {r : Option w.Result} {op : w.EnvOp}

/-- What the lists rely on: who waits came before now. -/
structure Recorded.Ok (s : w.Recorded) : Prop where
  waits : (w.kernel s.sys).WaitOk
  arrived : ∀ q, ∀ t ∈ s.list q, s.arrived t < s.now

theorem Recorded.Initial.ok (h : s.Initial) : s.Ok := by
  have hnil : ∀ q, (w.kernel s.sys).suspendThread q = [] := h
  exact ⟨⟨by simp [hnil], by simp [hnil], by simp [hnil]⟩, by simp [Recorded.list, hnil]⟩

theorem Recorded.Initial.listsSorted (h : s.Initial) : s.ListsSorted := fun q _ => by
  rw [h q]
  exact Pairwise.nil

/-- What a step does to lists, priorities and arrivals. -/
theorem recordedStep_spec (h : s.Ok) (hs : recordedStep M s op = some (r, s')) :
    ∃ arrives releases, (w.kernel s.sys).Waits (w.flag s.sys) arrives releases (w.kernel s'.sys) ∧
      w.flag s'.sys = w.flag s.sys ∧ s'.now = s.now + 1 ∧
      (s'.arrived = match arrives with
        | none => s.arrived
        | some t => update s.arrived t s.now) ∧
      ∀ a, op = .op a → releases = w.releases a := by
  cases op with
  | op a =>
    obtain ⟨⟨r₁, s₁⟩, hstep, heq⟩ := Option.map_eq_some_iff.mp hs
    cases heq
    obtain ⟨hflag, hwaits⟩ := w.waits_step h.waits hstep
    refine ⟨_, _, hwaits, hflag, rfl, rfl, fun b hb => ?_⟩
    cases hb
    rfl
  | changePriority t p =>
    cases hs
    refine ⟨none, True, ?_, w.flag_setKernel _ _, rfl, rfl, fun b hb => by cases hb⟩
    rw [w.kernel_setKernel]
    exact .changePriority h.waits p

theorem Recorded.Ok.step (h : s.Ok) (hs : recordedStep M s op = some (r, s')) : s'.Ok := by
  obtain ⟨arrives, releases, hwaits, -, hnow, harr, -⟩ := recordedStep_spec h hs
  refine ⟨hwaits.waits, fun q u hu => ?_⟩
  rw [hnow, harr]
  rcases hwaits.step.mem hu with hold | rfl
  · have hlt := h.arrived q u hold
    cases arrives with
    | none => exact hlt.trans (Nat.lt_succ_self _)
    | some t =>
      by_cases hut : u = t
      · simp [hut]
      · simpa [hut] using hlt.trans (Nat.lt_succ_self _)
  · simp

/-- A step keeps the lists sorted iff it keeps the places of the waiting threads. -/
theorem sorted_step_iff (h : s.Ok) (hsorted : s.ListsSorted)
    (hs : recordedStep M s op = some (r, s')) : s'.ListsSorted ↔ KeepsPlaces M s op := by
  obtain ⟨arrives, releases, hwaits, hflag, -, harr, -⟩ := recordedStep_spec h hs
  have hprioq : ∀ q, s'.IsPrio q ↔ s.IsPrio q := fun q => by
    unfold Recorded.IsPrio
    rw [hflag]
  have hkeeps : KeepsPlaces M s op ↔
      ∀ q, s.IsPrio q → Fits s.priority s'.priority s.arrived (s.list q) := by
    refine ⟨fun hk => hk r s' hs, fun hk r₁ s₁ hs₁ => ?_⟩
    rw [hs] at hs₁
    cases hs₁
    exact hk
  -- at most one thread gets another priority
  have hone : ∀ o, (∀ u ≠ o, s'.priority u = s.priority u) → ∀ q, s.IsPrio q →
      (Sorted s'.priority s.arrived (s.list q) ↔
        Fits s.priority s'.priority s.arrived (s.list q)) := fun o ho q hq =>
    sorted_iff_fits (hsorted q hq) (h.waits.nodup q) ho
  -- or none of those that wait
  have hnone : (∀ q, ∀ u ∈ s.list q, s'.priority u = s.priority u) →
      KeepsPlaces M s op := fun hsame => by
    refine hkeeps.mpr fun q hq => Sorted.fits ?_
    exact (hsorted q hq).congr (hsame q) fun _ _ => rfl
  have hfewer : arrives = none → (∀ q, (s'.list q).Sublist (s.list q)) →
      (∀ q, ∀ u ∈ s.list q, s'.priority u = s.priority u) → s'.ListsSorted := by
    rintro rfl hsub hsame q hq
    refine Pairwise.sublist (hsub q) ?_
    refine (hsorted q ((hprioq q).mp hq)).congr (hsame q) fun _ _ => ?_
    rw [harr]
  cases hwaits.step with
  | keeps o hprio hlist =>
    rw [hkeeps]
    refine forall_congr' fun q => ?_
    rw [hprioq]
    refine imp_congr_right fun hq => ?_
    rw [← hone o hprio q hq, harr, Recorded.list, hlist]
    rfl
  | joins o t q₀ hprio hnew hlist hother =>
    rw [hkeeps]
    refine forall_congr' fun q => ?_
    rw [hprioq]
    refine imp_congr_right fun hq => ?_
    rw [← hone o hprio q hq]
    have hkeep : ∀ u ∈ s.list q, s'.arrived u = s.arrived u := by
      rintro u hu
      have hut : u ≠ t := by
        rintro rfl
        exact hnew q hu
      rw [harr]
      exact update_of_ne hut _ _
    by_cases hq₀ : q = q₀
    · subst hq₀
      have hins : s'.list q = (s.list q).orderedInsert
          (fun a b => s'.priority a < s'.priority b) t := by
        rw [Recorded.list, hlist, show w.flag s.sys q = .prio from hq]
        rfl
      rw [hins]
      refine sorted_insert_iff hkeep fun u hu => ?_
      rw [harr]
      simpa using h.arrived q u hu
    · rw [Recorded.list, hother q hq₀]
      constructor
      · intro hso
        exact hso.congr (fun _ _ => rfl) fun u hu => (hkeep u hu).symm
      · intro hso
        exact hso.congr (fun _ _ => rfl) hkeep
  | wakes q₀ hprio hlist hother =>
    refine iff_of_true (hfewer rfl (fun q => ?_) hprio) (hnone hprio)
    by_cases hq : q = q₀
    · subst hq
      rw [Recorded.list, hlist]
      exact tail_sublist _
    · rw [Recorded.list, hother q hq]
      exact .refl _
  | leaves hno hprio hlist => exact iff_of_true (hfewer rfl hlist hprio) (hnone hprio)

/-- The lists are sorted after the step. -/
def SortedAfter (M : ℕ) (s : w.Recorded) (op : w.EnvOp) : Prop :=
  ∀ x ∈ recordedStep M s op, x.2.ListsSorted

/-- A run from a state in which nobody waits, with sorted lists all the way, is one of steps that
keep the places of the waiting threads. -/
theorem stepsSatisfy_keepsPlaces {s₀ : w.Recorded} {tr : List (w.EnvOp × Option w.Result)}
    (hinit : s₀.Initial) (h : StepsSatisfy (recordedStep M) (SortedAfter M) s₀ tr s) :
    StepsSatisfy (recordedStep M) (KeepsPlaces M) s₀ tr s := by
  suffices hboth : StepsSatisfy (recordedStep M) (KeepsPlaces M) s₀ tr s ∧ s.Ok ∧
      s.ListsSorted from hboth.1
  induction h with
  | nil => exact ⟨.nil, hinit.ok, hinit.listsSorted⟩
  | snoc _ hafter hs ih =>
    obtain ⟨hrun, hok, hsorted⟩ := ih
    have hsorted' := hafter _ hs
    exact ⟨.snoc hrun ((sorted_step_iff hok hsorted hs).mp hsorted') hs, hok.step hs, hsorted'⟩

/-- A release wakes a most urgent waiter. -/
theorem release_least (h : s.Ok) (hsorted : s.ListsSorted) {a : w.Op}
    (hs : recordedStep M s (.op a) = some (r, s')) (hrel : w.releases a) {q : w.Q} (hq : s.IsPrio q)
    {t : Tid} (ht : t ∈ s.list q) (hwoken : t ∉ s'.list q) {u : Tid} (hu : u ∈ s.list q) :
    s.priority t ≤ s.priority u := by
  obtain ⟨arrives, releases, hwaits, -, -, -, hreleases⟩ := recordedStep_spec h hs
  have hrel' : releases := by
    rw [hreleases a rfl]
    exact hrel
  -- who joins a list does not take another thread's place
  have hstays : ∀ q₀ t₀, s'.list q₀ = (match w.flag s.sys q₀ with
      | .fifo => s.list q₀ ++ [t₀]
      | .prio => (s.list q₀).orderedInsert (fun a b => s'.priority a < s'.priority b) t₀) →
      t ∈ s.list q₀ → t ∈ s'.list q₀ := by
    intro q₀ t₀ hlist hmem
    rw [hlist]
    cases w.flag s.sys q₀ with
    | fifo => exact mem_append_left _ hmem
    | prio => exact (mem_orderedInsert _).mpr (.inr hmem)
  cases hwaits.step with
  | keeps o hprio hlist =>
    rw [Recorded.list, hlist] at hwoken
    exact absurd ht hwoken
  | joins o t₀ q₀ hprio hnew hlist hother =>
    by_cases hq₀ : q = q₀
    · subst hq₀
      exact absurd (hstays q t₀ hlist ht) hwoken
    · rw [Recorded.list, hother q hq₀] at hwoken
      exact absurd ht hwoken
  | wakes q₀ hprio hlist hother =>
    by_cases hq₀ : q = q₀
    · subst hq₀
      have hso := hsorted q hq
      have htail : s'.list q = (s.list q).tail := hlist
      rw [htail] at hwoken
      cases hl : s.list q with
      | nil =>
        rw [hl] at ht
        cases ht
      | cons h₀ l =>
        rw [hl] at ht hwoken hso hu
        have hhead : t = h₀ := (mem_cons.mp ht).resolve_right hwoken
        rcases mem_cons.mp hu with rfl | hu
        · rw [hhead]
        · rw [hhead]
          exact hso.head_le hu
    · rw [Recorded.list, hother q hq₀] at hwoken
      exact absurd ht hwoken
  | leaves hno hprio hlist => exact absurd hrel' hno

end WaitObject

end RtThread
