import RtThread.Kernel.Thread

/-!
# Wait lists

Models of `rt_ipc_list_suspend`, `rt_ipc_list_resume` and
`rt_ipc_list_resume_all` (`src/ipc.c`, lines 92–197), and what the thread
functions called from `src/ipc.c` do to thread objects and wait lists.

`WaitOk k` is what all IPC objects rely on: a thread in a wait list is
suspended, and it is in one list only, once.

Interleavings are modelled at the granularity of the sections that run with
interrupts disabled. Any ready thread may run next: the scheduler's choice is
one of the interleavings considered.
-/

namespace RtThread

open List Function Option

/-- `RT_IPC_FLAG_FIFO` and `RT_IPC_FLAG_PRIO`. -/
inductive IpcFlag
  | fifo
  | prio
  deriving DecidableEq, Repr

/-- How a step ends: the call returns to its caller, or the thread is suspended in it; `void` where
there is no result. -/
inductive Outcome
  | returned (e : Err)
  | blocked
  | void
  deriving DecidableEq, Repr

namespace Kernel

variable {Q : Type} (M : ℕ) (k : Kernel Q) (t u : Tid) (q : Q)

/-! ## Model -/

/-- "find a suitable position": insert `t` before the first thread with a larger `current_priority`
value. -/
def insertPrio (thread : Tid → Thread) (t : Tid) : List Tid → List Tid
  | [] => [t]
  | s :: l =>
    if (thread t).currentPriority < (thread s).currentPriority then t :: s :: l
    else s :: insertPrio thread t l

/-- `rt_ipc_list_suspend` (lines 92–135). -/
def rtIpcListSuspend [DecidableEq Q] (flag : IpcFlag) : Kernel Q :=
  let k := (k.rtThreadSuspend M t).2
  { k with suspendThread := update k.suspendThread q
            (match flag with
              | .fifo => k.suspendThread q ++ [t]
              | .prio => insertPrio k.thread t (k.suspendThread q)) }

/-- `rt_ipc_list_resume` (lines 146–159). It is called on non-empty lists. -/
def rtIpcListResume : Kernel Q :=
  match k.suspendThread q with
  | [] => k
  | t :: _ => (k.rtThreadResume M t).2

/-- The loop of `rt_ipc_list_resume_all` (lines 169–197), at most `n` rounds. Every round takes the
head off the list. -/
def resumeAllLoop : ℕ → Kernel Q → Kernel Q
  | 0, k => k
  | n + 1, k =>
    match k.suspendThread q with
    | [] => k
    | t :: _ =>
      let k := k.modify t fun th => { th with error := .error }
      resumeAllLoop n (k.rtThreadResume M t).2

/-- `rt_ipc_list_resume_all` (lines 169–197). -/
def rtIpcListResumeAll : Kernel Q := resumeAllLoop M q (k.suspendThread q).length k

/-- `rt_timer_control` and `rt_timer_start` on `thread->thread_timer`. -/
def startThreadTimer : Kernel Q := k.modify t fun th => { th with timerLinked := true }

/-- The way a thread blocks in all IPC functions: "suspend current thread", "has waiting time, start
thread timer", "do schedule". -/
def blockOn [DecidableEq Q] (flag : IpcFlag) (time : ℤ) : Kernel Q :=
  let k := k.rtIpcListSuspend M t q flag
  let k := if 0 < time then k.startThreadTimer t else k
  k.rtSchedule M

/-- Thread `t` is dispatched: `rt_thread_self()` is `t`. -/
def dispatch : Kernel Q := { k with currentThread := some t }

/-- Threads that have been initialised and not started, `t` with priority `p t`. -/
def newThreads (p : Tid → ℕ) : Kernel Q :=
  rtSystemSchedulerInit fun t =>
    { stat := .init
      currentPriority := p t
      initPriority := p t
      number := 0
      highMask := 0
      numberMask := 0
      error := .eok
      eventSet := 0
      eventInfo := 0
      timerLinked := false
      cleanup := false
      systemObject := true }

@[simp] theorem dispatch_thread : (k.dispatch t).thread = k.thread := rfl

@[simp] theorem dispatch_suspendThread : (k.dispatch t).suspendThread = k.suspendThread := rfl

/-! ## Thread functions, as seen from the wait lists -/

section ThreadFunctions

variable {M k t} {k' : Kernel Q}

theorem rtThreadSuspend_thread (h : (k.thread t).stat = .ready) :
    (k.rtThreadSuspend M t).2.thread =
      (k.modify t fun th => { th with stat := .suspend, timerLinked := false }).thread := by
  unfold rtThreadSuspend
  rw [if_pos h]
  funext u
  by_cases hu : u = t
  · subst hu; simp
  · simp [hu]

theorem rtThreadSuspend_suspendThread (h : (k.thread t).stat = .ready) (q : Q) :
    (k.rtThreadSuspend M t).2.suspendThread q = (k.suspendThread q).erase t := by
  unfold rtThreadSuspend; rw [if_pos h]; simp

theorem rtThreadResume_thread (h : (k.thread t).stat = .suspend) :
    (k.rtThreadResume M t).2.thread =
      (k.modify t fun th => { th with stat := .ready, timerLinked := false }).thread := by
  unfold rtThreadResume
  rw [if_pos h]
  funext u
  by_cases hu : u = t
  · subst hu; simp
  · simp [hu]

theorem rtThreadResume_suspendThread (h : (k.thread t).stat = .suspend) (q : Q) :
    (k.rtThreadResume M t).2.suspendThread q = (k.suspendThread q).erase t := by
  unfold rtThreadResume; rw [if_pos h]; simp

theorem rtThreadChangePriority_thread (p : ℕ) :
    (k.rtThreadChangePriority M t p).thread = (k.modify t (Thread.setPriority M p)).thread := by
  unfold rtThreadChangePriority
  split_ifs with h
  · funext u
    by_cases hu : u = t
    · subst hu
      have hs : (Thread.setPriority M p (k.thread u)).stat = .ready := by simpa using h
      simp only [rtScheduleInsertThread_thread, modify_thread_self, rtScheduleRemoveThread_thread]
      generalize Thread.setPriority M p (k.thread u) = th at hs
      cases th; cases hs; rfl
    · simp [hu]
  · rfl

theorem rtThreadChangePriority_suspendThread {p : ℕ} {q : Q}
    (h : t ∈ k.suspendThread q → (k.thread t).stat ≠ .ready) :
    (k.rtThreadChangePriority M t p).suspendThread q = k.suspendThread q := by
  unfold rtThreadChangePriority
  split_ifs with hs
  · simp [erase_of_not_mem fun hm => h hm hs]
  · rfl

theorem rtThreadStartup_thread (h : k.rtThreadStartup M t = some k') :
    (k.thread t).stat = .init ∧ k'.thread = (k.modify t fun th =>
      { th.setPriority M th.initPriority with stat := .ready, timerLinked := false }).thread := by
  unfold rtThreadStartup at h
  split_ifs at h with hs
  refine ⟨hs, ?_⟩
  simp only [some.injEq] at h
  have hk : k'.thread = (((k.modify t fun th => th.setPriority M th.initPriority).modify t
      fun th => { th with stat := .suspend }).rtThreadResume M t).2.thread := by
    rw [← h]; split_ifs <;> simp
  rw [hk, rtThreadResume_thread (by simp)]
  funext u
  by_cases hu : u = t
  · subst hu; simp
  · simp [hu]

theorem rtThreadStartup_suspendThread (h : k.rtThreadStartup M t = some k') (q : Q) :
    k'.suspendThread q = (k.suspendThread q).erase t := by
  unfold rtThreadStartup at h
  split_ifs at h with hs
  simp only [some.injEq] at h
  have hk : k'.suspendThread q = (((k.modify t fun th => th.setPriority M th.initPriority).modify t
      fun th => { th with stat := .suspend }).rtThreadResume M t).2.suspendThread q := by
    rw [← h]; split_ifs <;> simp
  rw [hk, rtThreadResume_suspendThread (by simp)]
  rfl

theorem threadTimerExpires_some (h : k.threadTimerExpires M t = some k') :
    (k.thread t).timerLinked = true ∧ (k.thread t).stat = .suspend ∧
      k'.thread = (k.modify t fun th =>
        { th with stat := .ready, timerLinked := false, error := .etimeout }).thread ∧
      ∀ q, k'.suspendThread q = (k.suspendThread q).erase t := by
  unfold threadTimerExpires at h
  split_ifs at h with ht
  unfold rtThreadTimeout at h
  split_ifs at h with hs
  cases h
  refine ⟨ht, by simpa using hs, ?_, fun q => by simp⟩
  funext u
  by_cases hu : u = t
  · subst hu; simp
  · simp [hu]

end ThreadFunctions

/-! ## Wait lists -/

/-- A thread in a wait list is suspended and is in one list only, once. -/
structure WaitOk : Prop where
  suspended : ∀ q t, t ∈ k.suspendThread q → (k.thread t).stat = .suspend
  nodup : ∀ q, (k.suspendThread q).Nodup
  unique : ∀ q q' t, t ∈ k.suspendThread q → t ∈ k.suspendThread q' → q = q'

theorem insertPrio_perm (thread : Tid → Thread) (l : List Tid) :
    (insertPrio thread t l).Perm (t :: l) := by
  induction l with
  | nil => exact .refl _
  | cons s l ih =>
    rw [insertPrio]
    split_ifs
    · exact .refl _
    · exact (ih.cons s).trans (.swap t s l)

variable {M k t q} {k' : Kernel Q}

theorem WaitOk.notMem (h : WaitOk k) (ht : (k.thread t).stat ≠ .suspend) (q : Q) :
    t ∉ k.suspendThread q := fun hm => ht (h.suspended q t hm)

/-- A waiting thread is not one that runs. -/
theorem WaitOk.ne_of_ready {u : Tid} (h : WaitOk k) (hu : u ∈ k.suspendThread q)
    (ht : (k.thread t).stat = .ready) : u ≠ t := by
  rintro rfl
  exact h.notMem (by simp [ht]) q hu

theorem WaitOk.congr (h : WaitOk k) (h1 : k'.suspendThread = k.suspendThread)
    (h2 : ∀ t, (k.thread t).stat = .suspend → (k'.thread t).stat = .suspend) : WaitOk k' where
  suspended q t ht := h2 t (h.suspended q t (by rwa [h1] at ht))
  nodup := by rw [h1]; exact h.nodup
  unique := by rw [h1]; exact h.unique

/-- Whose turn it is does not matter to the wait lists. -/
theorem WaitOk.dispatch (h : WaitOk k) (t : Tid) : WaitOk (k.dispatch t) :=
  h.congr rfl fun _ hu => hu

theorem WaitOk.modify {f : Thread → Thread} (hw : WaitOk k)
    (hf : (f (k.thread t)).stat = (k.thread t).stat) : WaitOk (k.modify t f) := by
  refine hw.congr rfl fun u hu => ?_
  by_cases hut : u = t
  · subst hut; simpa [hf] using hu
  · rwa [modify_thread_ne _ _ hut]

/-- A thread leaves the wait lists. -/
theorem WaitOk.erase (h : WaitOk k) (h1 : ∀ q, k'.suspendThread q = (k.suspendThread q).erase t)
    (h2 : ∀ u, u ≠ t → (k'.thread u).stat = (k.thread u).stat) : WaitOk k' where
  suspended q u hu := by
    rw [h1, (h.nodup q).mem_erase_iff] at hu
    rw [h2 u hu.1]
    exact h.suspended q u hu.2
  nodup q := by rw [h1]; exact (h.nodup q).erase t
  unique q q' u hu hu' := by
    rw [h1] at hu hu'
    exact h.unique q q' u (mem_of_mem_erase hu) (mem_of_mem_erase hu')

/-- A thread that is ready joins the list `q`. -/
theorem WaitOk.join (hw : WaitOk k) (h : (k.thread t).stat = .ready)
    (hperm : (k'.suspendThread q).Perm (t :: k.suspendThread q))
    (hother : ∀ q', q' ≠ q → k'.suspendThread q' = k.suspendThread q')
    (hstat : (k'.thread t).stat = .suspend)
    (hne : ∀ u, u ≠ t → (k'.thread u).stat = (k.thread u).stat) : WaitOk k' := by
  have hn : ∀ q', t ∉ k.suspendThread q' := hw.notMem (by simp [h])
  have hmem : ∀ q' u, u ∈ k'.suspendThread q' → u ∈ k.suspendThread q' ∨ u = t ∧ q' = q := by
    intro q' u hu
    by_cases hq : q' = q
    · subst hq
      rcases mem_cons.mp (hperm.mem_iff.mp hu) with rfl | hu
      · exact .inr ⟨rfl, rfl⟩
      · exact .inl hu
    · exact .inl (hother q' hq ▸ hu)
  refine ⟨fun q' u hu => ?_, fun q' => ?_, fun q₁ q₂ u h1 h2 => ?_⟩
  · by_cases hut : u = t
    · rw [hut, hstat]
    · rcases hmem q' u hu with hu | ⟨hut', -⟩
      · rw [hne u hut, hw.suspended q' u hu]
      · exact absurd hut' hut
  · by_cases hq : q' = q
    · subst hq
      exact hperm.nodup_iff.mpr (nodup_cons.mpr ⟨hn q', hw.nodup q'⟩)
    · rw [hother q' hq]
      exact hw.nodup q'
  · rcases hmem q₁ u h1 with hm1 | ⟨he1, hq1⟩
    · rcases hmem q₂ u h2 with hm2 | ⟨he2, -⟩
      · exact hw.unique _ _ _ hm1 hm2
      · exact absurd (he2 ▸ hm1) (hn _)
    · rcases hmem q₂ u h2 with hm2 | ⟨-, hq2⟩
      · exact absurd (he1 ▸ hm2) (hn _)
      · rw [hq1, hq2]

section Suspend

variable [DecidableEq Q] {flag : IpcFlag} {time : ℤ}

theorem rtIpcListSuspend_thread (h : (k.thread t).stat = .ready) :
    (k.rtIpcListSuspend M t q flag).thread =
      (k.modify t fun th => { th with stat := .suspend, timerLinked := false }).thread :=
  rtThreadSuspend_thread h

theorem blockOn_thread (h : (k.thread t).stat = .ready) :
    (k.blockOn M t q flag time).thread = (k.modify t fun th =>
      { th with stat := .suspend, timerLinked := decide (0 < time) }).thread := by
  have hth : (k.rtIpcListSuspend M t q flag).thread = _ := rtIpcListSuspend_thread h
  funext u
  by_cases hu : u = t <;> by_cases ht : 0 < time <;> simp [blockOn, startThreadTimer, hth, hu, ht]

theorem blockOn_suspendThread :
    (k.blockOn M t q flag time).suspendThread = (k.rtIpcListSuspend M t q flag).suspendThread := by
  by_cases ht : 0 < time <;> simp [blockOn, startThreadTimer, ht]

variable (hw : WaitOk k) (h : (k.thread t).stat = .ready) {q' : Q}
include hw h

theorem rtIpcListSuspend_other (hq : q' ≠ q) :
    (k.rtIpcListSuspend M t q flag).suspendThread q' = k.suspendThread q' := by
  have hn : t ∉ k.suspendThread q' := hw.notMem (by simp [h]) q'
  simp [rtIpcListSuspend, hq, rtThreadSuspend_suspendThread h, erase_of_not_mem hn]

/-- The list gets one more thread; where it is put depends on the flag. -/
theorem rtIpcListSuspend_perm :
    ((k.rtIpcListSuspend M t q flag).suspendThread q).Perm (t :: k.suspendThread q) := by
  have hn : t ∉ k.suspendThread q := hw.notMem (by simp [h]) q
  have hl : (k.rtThreadSuspend M t).2.suspendThread q = k.suspendThread q := by
    rw [rtThreadSuspend_suspendThread h, erase_of_not_mem hn]
  cases flag with
  | fifo =>
    simp only [rtIpcListSuspend, update_self, hl]
    exact perm_append_singleton _ _
  | prio =>
    simp only [rtIpcListSuspend, update_self, hl]
    exact insertPrio_perm _ _ _

theorem mem_rtIpcListSuspend :
    u ∈ (k.rtIpcListSuspend M t q flag).suspendThread q' ↔
      u ∈ k.suspendThread q' ∨ u = t ∧ q' = q := by
  by_cases hq : q' = q
  · subst hq
    rw [(rtIpcListSuspend_perm hw h).mem_iff, mem_cons]
    tauto
  · rw [rtIpcListSuspend_other hw h hq]
    simp [hq]

theorem WaitOk.listSuspend : WaitOk (k.rtIpcListSuspend M t q flag) := by
  refine hw.join h (rtIpcListSuspend_perm hw h) (fun q' hq => rtIpcListSuspend_other hw h hq) ?_
    fun u hu => ?_
  · simp [rtIpcListSuspend_thread h]
  · rw [rtIpcListSuspend_thread h, modify_thread_ne _ _ hu]

theorem mem_blockOn :
    u ∈ (k.blockOn M t q flag time).suspendThread q' ↔ u ∈ k.suspendThread q' ∨ u = t ∧ q' = q := by
  rw [blockOn_suspendThread, mem_rtIpcListSuspend u hw h]

theorem WaitOk.blockOn : WaitOk (k.blockOn M t q flag time) := by
  refine (hw.listSuspend h).congr blockOn_suspendThread fun u hu => ?_
  rw [rtIpcListSuspend_thread h, modify_thread_apply] at hu
  rw [blockOn_thread h, modify_thread_apply]
  split_ifs at hu ⊢
  · rfl
  · exact hu

end Suspend

section Resume

variable {l : List Tid}

/-- The loop of `rt_ipc_list_resume_all` empties the list and adds to no other. -/
theorem resumeAllLoop_nil (n : ℕ) (k : Kernel Q) (hw : WaitOk k)
    (hn : (k.suspendThread q).length = n) :
    WaitOk (resumeAllLoop M q n k) ∧ (resumeAllLoop M q n k).suspendThread q = [] ∧
      ∀ q' u, u ∈ (resumeAllLoop M q n k).suspendThread q' → u ∈ k.suspendThread q' := by
  induction n generalizing k with
  | zero => exact ⟨hw, length_eq_zero_iff.mp hn, fun _ _ hu => hu⟩
  | succ n ih =>
    obtain ⟨t, l, hq⟩ := exists_cons_of_length_eq_add_one hn
    simp only [resumeAllLoop, hq]
    set k₁ := k.modify t fun th => { th with error := .error } with hk₁
    have hw₁ : WaitOk k₁ := hw.modify rfl
    have hs : (k₁.thread t).stat = .suspend := by
      simpa [hk₁] using hw.suspended q t (by simp [hq])
    have hlist : ∀ q', (k₁.rtThreadResume M t).2.suspendThread q' = (k.suspendThread q').erase t :=
      fun q' => rtThreadResume_suspendThread hs q'
    have hw₂ : WaitOk (k₁.rtThreadResume M t).2 := hw₁.erase (t := t) hlist fun u hu => by
      rw [rtThreadResume_thread hs, modify_thread_ne _ _ hu]
    have hlen : ((k₁.rtThreadResume M t).2.suspendThread q).length = n := by
      rw [hlist]
      simpa [hq] using hn
    obtain ⟨hok, hnil, hsub⟩ := ih _ hw₂ hlen
    refine ⟨hok, hnil, fun q' u hu => ?_⟩
    have hmem := hsub q' u hu
    rw [hlist] at hmem
    exact mem_of_mem_erase hmem

variable (hw : WaitOk k)
include hw

theorem rtIpcListResume_thread (hq : k.suspendThread q = t :: l) :
    (k.rtIpcListResume M q).thread =
      (k.modify t fun th => { th with stat := .ready, timerLinked := false }).thread := by
  have hs := hw.suspended q t (by simp [hq])
  simp only [rtIpcListResume, hq]
  exact rtThreadResume_thread hs

theorem rtIpcListResume_suspendThread (hq : k.suspendThread q = t :: l) (q' : Q) :
    (k.rtIpcListResume M q).suspendThread q' = (k.suspendThread q').erase t := by
  have hs := hw.suspended q t (by simp [hq])
  simp only [rtIpcListResume, hq]
  exact rtThreadResume_suspendThread hs q'

theorem WaitOk.listResume : WaitOk (k.rtIpcListResume M q) := by
  cases hq : k.suspendThread q with
  | nil => simpa [rtIpcListResume, hq] using hw
  | cons t l =>
    refine hw.erase (t := t) (rtIpcListResume_suspendThread hw hq) fun u hu => ?_
    rw [rtIpcListResume_thread hw hq, modify_thread_ne _ _ hu]

theorem WaitOk.listResumeAll : WaitOk (k.rtIpcListResumeAll M q) := (resumeAllLoop_nil _ k hw rfl).1

theorem rtIpcListResumeAll_nil : (k.rtIpcListResumeAll M q).suspendThread q = [] :=
  (resumeAllLoop_nil _ k hw rfl).2.1

end Resume

theorem WaitOk.changePriority (hw : WaitOk k) {p : ℕ} :
    WaitOk (k.rtThreadChangePriority M t p) := by
  refine hw.congr ?_ fun u hu => ?_
  · funext q
    exact rtThreadChangePriority_suspendThread fun hm => by simp [hw.suspended q t hm]
  · rw [rtThreadChangePriority_thread]
    by_cases hut : u = t
    · subst hut; simpa using hu
    · rwa [modify_thread_ne _ _ hut]

section OtherThreads

variable {k' : Kernel Q} {u : Tid}

theorem threadTimerExpires_other (h : k.threadTimerExpires M t = some k') (hu : u ≠ t) :
    k'.thread u = k.thread u := by
  obtain ⟨-, -, hth, -⟩ := threadTimerExpires_some h
  rw [hth, modify_thread_ne _ _ hu]

theorem WaitOk.timeout (hw : WaitOk k) (h : k.threadTimerExpires M t = some k') : WaitOk k' := by
  obtain ⟨-, -, -, hq⟩ := threadTimerExpires_some h
  exact hw.erase hq fun u hu => by rw [threadTimerExpires_other h hu]

theorem WaitOk.mem_timeout (hw : WaitOk k) (h : k.threadTimerExpires M t = some k') :
    u ∈ k'.suspendThread q ↔ u ≠ t ∧ u ∈ k.suspendThread q := by
  obtain ⟨-, -, -, hq⟩ := threadTimerExpires_some h
  rw [hq, (hw.nodup q).mem_erase_iff]

theorem rtThreadStartup_other (h : k.rtThreadStartup M t = some k')
    (hu : (k.thread u).stat ≠ .init) : k'.thread u = k.thread u := by
  obtain ⟨hinit, hth⟩ := rtThreadStartup_thread h
  rw [hth, modify_thread_ne]
  rintro rfl
  exact hu hinit

variable (hw : WaitOk k) (h : k.rtThreadStartup M t = some k')
include hw h

/-- A thread that has not been started does not wait. -/
theorem WaitOk.startup_suspendThread : k'.suspendThread = k.suspendThread := by
  obtain ⟨hinit, -⟩ := rtThreadStartup_thread h
  funext q
  rw [rtThreadStartup_suspendThread h]
  exact erase_of_not_mem (hw.notMem (by simp [hinit]) q)

theorem WaitOk.startup : WaitOk k' := by
  refine hw.congr (hw.startup_suspendThread h) fun u hu => ?_
  rw [rtThreadStartup_other h (by simp [hu]), hu]

/-- The object of a waiting thread is not touched. -/
theorem WaitOk.startup_waiter (hu : u ∈ k'.suspendThread q) :
    u ∈ k.suspendThread q ∧ k'.thread u = k.thread u := by
  rw [hw.startup_suspendThread h] at hu
  exact ⟨hu, rtThreadStartup_other h (by simp [hw.suspended q u hu])⟩

end OtherThreads

theorem WaitOk.schedule (hw : WaitOk k) : WaitOk (k.rtSchedule M) := hw.congr (by simp) (by simp)

end Kernel

end RtThread
