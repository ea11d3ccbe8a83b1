import RtThread.Ipc.Basic
import RtThread.Lib.Runs

/-!
# Semaphores

Models of `rt_sem_init`, `rt_sem_take`, `rt_sem_trytake` and `rt_sem_release`
(`src/ipc.c`, lines 211–469), and of threads and interrupt handlers that use
one semaphore. A release with a waiter hands the unit over by resuming the
waiter with `thread->error` still `RT_EOK`; `value` does not change.

* `SemOk`: the invariant. A thread in the middle of `rt_sem_take` waits, or
  holds a unit that it was handed, or has timed out, and never two of these.
* `Conserved`: the units are conserved, modulo the width of `value`.
* `sem_conservation`: both hold after every run, and a release hands one unit
  to the first waiter or to `value`.
-/

namespace RtThread

open Runs List Option Kernel

/-- `struct rt_semaphore`, without its wait list; `value` is a `rt_uint16_t`. -/
structure Sem where
  value : ℕ
  flag : IpcFlag
  deriving DecidableEq, Repr

/-- `rt_sem_init` (lines 211–231). -/
def rtSemInit (value : ℕ) (flag : IpcFlag) : Sem where
  value := value % 2 ^ 16
  flag := flag

/-- Threads and the semaphore they use. `calls` are the threads that were suspended in an
`rt_sem_take` that has not returned. -/
structure SemSys where
  kernel : Kernel Unit
  sem : Sem
  calls : List Tid

namespace SemSys

variable (M : ℕ) (s : SemSys) (t : Tid)

/-! ## Model -/

/-- `rt_sem_take` (lines 328–411) by thread `self`, or by an interrupt handler (`none`), up to its
return or until `rt_schedule` has switched to another thread. -/
def rtSemTake (self : Option Tid) (time : ℤ) : Option (Outcome × SemSys) :=
  if 0 < s.sem.value then
    -- semaphore is available
    some (.returned .eok, { s with sem := { s.sem with value := s.sem.value - 1 } })
  else if time = 0 then
    -- no waiting, return with timeout
    some (.returned .etimeout, s)
  else
    -- RT_DEBUG_IN_THREAD_CONTEXT
    match self with
    | none => none
    | some thread =>
      -- reset thread error number
      let k := s.kernel.modify thread fun th => { th with error := .eok }
      some (.blocked, { s with
        kernel := k.blockOn M thread () s.sem.flag time
        calls := thread :: s.calls })

/-- The end of `rt_sem_take`, once thread `t` runs again (lines 396–411). -/
def rtSemTakeEnd : Option (Outcome × SemSys) :=
  if t ∈ s.calls then
    some (.returned (s.kernel.thread t).error, { s with calls := s.calls.erase t })
  else none

/-- `rt_sem_release` (lines 435–469). -/
def rtSemRelease : Outcome × SemSys :=
  if s.kernel.suspendThread () ≠ [] then
    -- resume the suspended thread, re-schedule
    (.returned .eok, { s with kernel := (s.kernel.rtIpcListResume M ()).rtSchedule M })
  else
    -- increase value
    (.returned .eok, { s with sem := { s.sem with value := (s.sem.value + 1) % 2 ^ 16 } })

end SemSys

/-- The steps of the system; calls come from a thread or an interrupt handler. `resume t`: thread
`t`, woken in `rt_sem_take`, runs again. `timeout t`: the timer of thread `t` expires. -/
inductive SemOp
  | schedulerStart
  | startup (t : Tid)
  | take (self : Option Tid) (time : ℤ)
  | resume (t : Tid)
  | release (self : Option Tid)
  | timeout (t : Tid)
  deriving DecidableEq, Repr

namespace SemSys

variable (M : ℕ) (s : SemSys) (t : Tid)

/-- The caller can make a call: an interrupt handler, or a thread that is ready and not in the
middle of one. -/
def CanCall (self : Option Tid) : Prop :=
  ∀ t ∈ self, (s.kernel.thread t).stat = .ready ∧ t ∉ s.calls
  deriving Decidable

/-- `rt_thread_self()` is the caller from here on, if the caller is a thread. -/
def dispatch : Option Tid → SemSys
  | none => s
  | some t => { s with kernel := s.kernel.dispatch t }

/-- One step. Whichever ready thread runs next makes the call. -/
def step : SemOp → Option (Outcome × SemSys)
  | .schedulerStart => some (.void, { s with kernel := s.kernel.rtSystemSchedulerStart M })
  | .startup t => (s.kernel.rtThreadStartup M t).map fun k =>
      (.returned .eok, { s with kernel := k })
  | .take self time =>
    if s.CanCall self then (s.dispatch self).rtSemTake M self time else none
  | .resume t =>
    if (s.kernel.thread t).stat = .ready then (s.dispatch (some t)).rtSemTakeEnd t else none
  | .release self => if s.CanCall self then some ((s.dispatch self).rtSemRelease M) else none
  | .timeout t => (s.kernel.threadTimerExpires M t).map fun k => (.void, { s with kernel := k })

/-- The semaphore has just been initialised and nobody waits. -/
structure Initial (value : ℕ) : Prop where
  sem : ∃ flag, s.sem = rtSemInit value flag
  suspendThread : s.kernel.suspendThread () = []
  calls : s.calls = []

/-! ## The invariant -/

/-- The threads that were handed a unit and have not returned with it yet. -/
def woken : List Tid :=
  s.calls.filter fun t => t ∉ s.kernel.suspendThread () ∧ (s.kernel.thread t).error = .eok

structure SemOk : Prop where
  waits : s.kernel.WaitOk
  value : s.sem.value < 2 ^ 16
  zero : s.kernel.suspendThread () ≠ [] → s.sem.value = 0
  nodup : s.calls.Nodup
  waiter : ∀ t ∈ s.kernel.suspendThread (), t ∈ s.calls ∧ (s.kernel.thread t).error = .eok
  returns : ∀ t ∈ s.calls, t ∉ s.kernel.suspendThread () → (s.kernel.thread t).stat = .ready

variable {M s t} {s' : SemSys} {o : Outcome} {v : ℕ}

theorem mem_woken : t ∈ s.woken ↔
    t ∈ s.calls ∧ t ∉ s.kernel.suspendThread () ∧ (s.kernel.thread t).error = .eok := by
  simp [woken]

theorem Initial.semOk (h : s.Initial v) : SemOk s where
  waits := ⟨by simp [h.suspendThread], by simp [h.suspendThread], by simp⟩
  value := by
    obtain ⟨flag, hf⟩ := h.sem
    rw [hf]
    exact Nat.mod_lt _ (by norm_num)
  zero := by simp [h.suspendThread]
  nodup := by simp [h.calls]
  waiter := by simp [h.suspendThread]
  returns := by simp [h.calls]

section

variable (h : SemOk s) {k : Kernel Unit}
include h

theorem woken_length_eq (h' : SemOk s') (hmem : ∀ t, t ∈ s'.woken ↔ t ∈ s.woken) :
    s'.woken.length = s.woken.length :=
  ((perm_ext_iff_of_nodup (h'.nodup.filter _) (h.nodup.filter _)).mpr hmem).length_eq

theorem woken_length_succ {x : Tid} (h' : SemOk s') (hx : x ∉ s.woken)
    (hmem : ∀ t, t ∈ s'.woken ↔ t = x ∨ t ∈ s.woken) : s'.woken.length = s.woken.length + 1 := by
  have hnodup : (x :: s.woken).Nodup := nodup_cons.mpr ⟨hx, h.nodup.filter _⟩
  exact ((perm_ext_iff_of_nodup (h'.nodup.filter _) hnodup).mpr fun t =>
    (hmem t).trans mem_cons.symm).length_eq

/-- Steps that leave wait list and calls alone, and the threads in calls. -/
theorem SemOk.of_same (s' : SemSys) (hlist : s'.kernel.suspendThread = s.kernel.suspendThread)
    (hcalls : s'.calls = s.calls)
    (hstat : ∀ t, (s.kernel.thread t).stat = .suspend → (s'.kernel.thread t).stat = .suspend)
    (hthread : ∀ t ∈ s.calls, (s'.kernel.thread t).stat = (s.kernel.thread t).stat ∧
      (s'.kernel.thread t).error = (s.kernel.thread t).error) (hvalue : s'.sem.value < 2 ^ 16)
    (hzero : s.kernel.suspendThread () ≠ [] → s'.sem.value = 0) :
    SemOk s' ∧ s'.woken.length = s.woken.length := by
  have hok : SemOk s' :=
    { waits := h.waits.congr hlist hstat
      value := hvalue
      zero := by rwa [hlist]
      nodup := by rw [hcalls]; exact h.nodup
      waiter := by
        intro t ht
        rw [hlist] at ht
        obtain ⟨h1, h2⟩ := h.waiter t ht
        rw [hcalls, (hthread t h1).2]
        exact ⟨h1, h2⟩
      returns := by
        intro t ht hn
        rw [hcalls] at ht
        rw [hlist] at hn
        rw [(hthread t ht).1]
        exact h.returns t ht hn }
  refine ⟨hok, woken_length_eq h hok fun t => ?_⟩
  rw [mem_woken, mem_woken, hcalls, hlist]
  refine and_congr_right fun ht => ?_
  rw [(hthread t ht).2]

/-- A thread blocks in `rt_sem_take`. -/
theorem SemOk.block {time : ℤ} (hready : (s.kernel.thread t).stat = .ready) (hcall : t ∉ s.calls)
    (hvalue : s.sem.value = 0) :
    let s' : SemSys := { s with
      kernel := (s.kernel.modify t fun th => { th with error := .eok }).blockOn
        M t () s.sem.flag time
      calls := t :: s.calls }
    SemOk s' ∧ s'.woken.length = s.woken.length := by
  intro s'
  set k := s.kernel.modify t fun th => { th with error := .eok } with hk₀
  have hcalls : s'.calls = t :: s.calls := rfl
  have hw : k.WaitOk := h.waits.modify rfl
  have hkt : (k.thread t).stat = .ready := by simpa [hk₀] using hready
  have hmem : ∀ u, u ∈ s'.kernel.suspendThread () ↔ u ∈ s.kernel.suspendThread () ∨ u = t := by
    intro u
    rw [mem_blockOn u hw hkt]
    simp [hk₀]
  have hthread : s'.kernel.thread = (k.modify t fun th =>
      { th with stat := .suspend, timerLinked := decide (0 < time) }).thread := by
    rw [blockOn_thread hkt]
  have hother : ∀ u, u ≠ t → s'.kernel.thread u = s.kernel.thread u := by
    intro u hu
    simp [hthread, hk₀, hu]
  have hok : SemOk s' :=
    { waits := by exact hw.blockOn hkt
      value := h.value
      zero := fun _ => hvalue
      nodup := by exact nodup_cons.mpr ⟨hcall, h.nodup⟩
      waiter := by
        intro u hu
        by_cases hut : u = t
        · subst hut; simp [hcalls, hthread, hk₀]
        · have hu' := ((hmem u).mp hu).resolve_right hut
          simpa [hcalls, hut, hother u hut] using h.waiter u hu'
      returns := by
        intro u hu hnu
        rw [hmem, not_or] at hnu
        rw [mem_cons] at hu
        rw [hother u hnu.2]
        exact h.returns u (hu.resolve_left hnu.2) hnu.1 }
  refine ⟨hok, woken_length_eq h hok fun u => ?_⟩
  rw [mem_woken, mem_woken, hcalls, hmem]
  by_cases hut : u = t
  · subst hut; simp [hcall]
  · simp [hut, hother u hut]

/-- The head of the wait list gets the unit. -/
theorem SemOk.handOver {h₀ : Tid} {l : List Tid} (hlist : s.kernel.suspendThread () = h₀ :: l) :
    let s' : SemSys := { s with kernel := (s.kernel.rtIpcListResume M ()).rtSchedule M }
    SemOk s' ∧ s'.woken.length = s.woken.length + 1 := by
  intro s'
  have hcalls : s'.calls = s.calls := rfl
  have hthread : s'.kernel.thread = (s.kernel.modify h₀ fun th =>
      { th with stat := .ready, timerLinked := false }).thread := by
    rw [rtSchedule_thread, rtIpcListResume_thread h.waits hlist]
  have hl : s'.kernel.suspendThread () = l := by
    rw [rtSchedule_suspendThread,
      rtIpcListResume_suspendThread h.waits hlist, hlist, erase_cons_head]
  have hnodup := h.waits.nodup ()
  rw [hlist, nodup_cons] at hnodup
  have hhead : h₀ ∈ s.calls ∧ (s.kernel.thread h₀).error = .eok := h.waiter h₀ (by simp [hlist])
  have herror : ∀ u, (s'.kernel.thread u).error = (s.kernel.thread u).error := by
    intro u
    rw [hthread, modify_thread_apply]
    split_ifs with hu <;> simp [hu]
  have hok : SemOk s' :=
    { waits := by exact h.waits.listResume.schedule
      value := h.value
      zero := fun _ => h.zero (by simp [hlist])
      nodup := h.nodup
      waiter := by
        intro u hu
        rw [hl] at hu
        rw [herror]
        exact h.waiter u (by simp [hlist, hu])
      returns := by
        intro u hu hn
        rw [hl] at hn
        by_cases huh : u = h₀
        · subst huh; simp [hthread]
        · simpa [hthread, huh] using h.returns u hu (by simp [hlist, huh, hn]) }
  refine ⟨hok, woken_length_succ h hok (x := h₀) ?_ fun u => ?_⟩
  · simp [mem_woken, hlist]
  · rw [mem_woken, mem_woken, hcalls, hl, herror, hlist]
    by_cases huh : u = h₀
    · subst huh; simp [hhead, hnodup.1]
    · simp [huh]

/-- A waiting thread that times out gets nothing. -/
theorem SemOk.timeout (hk : s.kernel.threadTimerExpires M t = some k) :
    SemOk { s with kernel := k } ∧
      ({ s with kernel := k } : SemSys).woken.length = s.woken.length := by
  obtain ⟨-, hsusp, hthread, hlists⟩ := threadTimerExpires_some hk
  have hmem : ∀ u, u ∈ k.suspendThread () ↔ u ≠ t ∧ u ∈ s.kernel.suspendThread () := by
    intro u
    exact h.waits.mem_timeout hk
  have hok : SemOk { s with kernel := k } :=
    { waits := h.waits.timeout hk
      value := h.value
      zero := by
        intro hne
        refine h.zero fun hnil => hne ?_
        simp [hlists, hnil]
      nodup := h.nodup
      waiter := by
        intro u hu
        obtain ⟨hut, hu⟩ := (hmem u).mp hu
        simpa [hthread, hut] using h.waiter u hu
      returns := by
        intro u hu hn
        by_cases hut : u = t
        · subst hut; simp [hthread]
        · have hnu : u ∉ s.kernel.suspendThread () := fun hu' => hn ((hmem u).mpr ⟨hut, hu'⟩)
          simpa [hthread, hut] using h.returns u hu hnu }
  refine ⟨hok, woken_length_eq h hok fun u => ?_⟩
  rw [mem_woken, mem_woken]
  refine and_congr_right fun hu => ?_
  by_cases hut : u = t
  · -- it was waiting, as it was suspended
    subst hut
    have hwait : u ∈ s.kernel.suspendThread () := by
      by_contra hn
      have hready := h.returns u hu hn
      simp [hsusp] at hready
    simp [hthread, hwait]
  · simp [hmem, hut, hthread]

/-- A woken thread returns, with its unit or without one. -/
theorem SemOk.takeEnd {o : Outcome} (hready : (s.kernel.thread t).stat = .ready)
    (hs : s.rtSemTakeEnd t = some (o, s')) :
    SemOk s' ∧ s'.sem = s.sem ∧
      s'.woken.length + (if o = .returned .eok then 1 else 0) = s.woken.length := by
  unfold rtSemTakeEnd at hs
  split_ifs at hs with hcall
  cases hs
  have hn : t ∉ s.kernel.suspendThread () := h.waits.notMem (by simp [hready]) ()
  have hok : SemOk { s with calls := s.calls.erase t } :=
    { waits := h.waits
      value := h.value
      zero := h.zero
      nodup := h.nodup.erase t
      waiter := by
        intro u hu
        have hut : u ≠ t := h.waits.ne_of_ready hu hready
        exact ⟨(mem_erase_of_ne hut).mpr (h.waiter u hu).1, (h.waiter u hu).2⟩
      returns := fun u hu => h.returns u (mem_of_mem_erase hu) }
  refine ⟨hok, rfl, ?_⟩
  by_cases herr : (s.kernel.thread t).error = .eok
  · rw [if_pos (by rw [herr]), ← woken_length_succ hok h (x := t) ?_ fun u => ?_]
    · simp [mem_woken, h.nodup.mem_erase_iff]
    · rw [mem_woken, mem_woken]
      by_cases hut : u = t
      · subst hut; simp [hcall, hn, herr]
      · simp [hut]
  · rw [if_neg (by simpa using herr)]
    refine woken_length_eq h hok fun u => ?_
    rw [mem_woken, mem_woken]
    by_cases hut : u = t
    · subst hut; simp [herr]
    · simp [hut]

theorem SemOk.startup (hk : s.kernel.rtThreadStartup M t = some k) :
    SemOk { s with kernel := k } ∧
      ({ s with kernel := k } : SemSys).woken.length = s.woken.length := by
  have hne : ∀ u, (s.kernel.thread u).stat ≠ .init → k.thread u = s.kernel.thread u :=
    fun u hu => rtThreadStartup_other hk hu
  have hstarted : ∀ u ∈ s.calls, (s.kernel.thread u).stat ≠ .init := by
    intro u hu
    by_cases hw : u ∈ s.kernel.suspendThread ()
    · simp [h.waits.suspended () u hw]
    · simp [h.returns u hu hw]
  refine h.of_same _ (h.waits.startup_suspendThread hk) rfl (fun u hu => ?_) (fun u hu => ?_)
    h.value h.zero
  · simpa [hne u (by simp [hu])] using hu
  · simp [hne u (hstarted u hu)]

end

/-! ## Conservation -/

/-- What the step with this outcome takes from the semaphore. -/
def taken : SemOp × Outcome → ℕ
  | (.take _ _, .returned .eok) | (.resume _, .returned .eok) => 1
  | _ => 0

/-- What the step adds to the semaphore. -/
def released : SemOp × Outcome → ℕ
  | (.release _, _) => 1
  | _ => 0

section

variable (h : SemOk s)
include h

theorem SemOk.dispatch (self : Option Tid) : SemOk (s.dispatch self) := by
  cases self with
  | none => exact h
  | some t =>
    exact ⟨h.waits.dispatch t, h.value, h.zero, h.nodup, h.waiter, h.returns⟩

theorem SemOk.take {self : Option Tid} {time : ℤ} (hcall : s.CanCall self)
    (hs : s.rtSemTake M self time = some (o, s')) :
    SemOk s' ∧ s'.sem.value + s'.woken.length + taken (.take self time, o) =
      s.sem.value + s.woken.length := by
  unfold rtSemTake at hs
  split_ifs at hs with hvalue htime
  · cases hs
    obtain ⟨hok, hw⟩ := h.of_same { s with sem := { s.sem with value := s.sem.value - 1 } }
      rfl rfl (fun _ hu => hu) (fun _ _ => ⟨rfl, rfl⟩) (by have := h.value; simp only; omega)
      (fun hne => by have := h.zero hne; omega)
    refine ⟨hok, ?_⟩
    simp only [hw, taken]
    omega
  · cases hs
    exact ⟨h, rfl⟩
  · split at hs
    · cases hs
    · rename_i t
      cases hs
      obtain ⟨hready, hcalls⟩ := hcall t rfl
      have hvalue : s.sem.value = 0 := by omega
      obtain ⟨hok, hw⟩ := h.block hready hcalls hvalue
      refine ⟨hok, ?_⟩
      rw [hw]
      rfl

/-- `rt_sem_release` hands one unit to the first waiter, or adds it to `value`. -/
theorem SemOk.release :
    SemOk (s.rtSemRelease M).2 ∧
      ((s.rtSemRelease M).2.sem.value + (s.rtSemRelease M).2.woken.length ≡
        s.sem.value + s.woken.length + 1 [MOD 2 ^ 16]) := by
  unfold rtSemRelease
  split_ifs with hne
  · obtain ⟨h₀, l, hlist⟩ := exists_cons_of_ne_nil hne
    obtain ⟨hok, hw⟩ := h.handOver (M := M) hlist
    refine ⟨hok, ?_⟩
    simp only [hw]
    exact Nat.ModEq.refl _
  · obtain ⟨hok, hw⟩ := h.of_same
      { s with sem := { s.sem with value := (s.sem.value + 1) % 2 ^ 16 } }
      rfl rfl (fun _ hu => hu) (fun _ _ => ⟨rfl, rfl⟩) (Nat.mod_lt _ (by norm_num))
      (fun hne' => absurd hne' hne)
    refine ⟨hok, ?_⟩
    have hmod := (Nat.mod_modEq (s.sem.value + 1) (2 ^ 16)).add_right s.woken.length
    rwa [Nat.add_right_comm] at hmod

theorem SemOk.step {op : SemOp} (hs : s.step M op = some (o, s')) :
    SemOk s' ∧ s'.sem.value + s'.woken.length + taken (op, o) ≡
      s.sem.value + s.woken.length + released (op, o) [MOD 2 ^ 16] := by
  cases op with
  | schedulerStart =>
    cases hs
    obtain ⟨hok, hw⟩ := h.of_same
      { s with kernel := s.kernel.rtSystemSchedulerStart M } (by simp) rfl (by simp)
      (by simp) h.value h.zero
    exact ⟨hok, by simp only [hw, taken, released]; exact Nat.ModEq.refl _⟩
  | startup t =>
    obtain ⟨k, hk, heq⟩ := map_eq_some_iff.mp hs
    cases heq
    obtain ⟨hok, hw⟩ := h.startup hk
    exact ⟨hok, by simp only [hw, taken, released]; exact Nat.ModEq.refl _⟩
  | take self time =>
    simp only [SemSys.step] at hs
    split_ifs at hs with hcall
    have hcall' : (s.dispatch self).CanCall self := by cases self <;> exact hcall
    obtain ⟨hok, hw⟩ := (h.dispatch self).take hcall' hs
    refine ⟨hok, ?_⟩
    rw [hw]
    cases self <;> exact Nat.ModEq.refl _
  | resume t =>
    simp only [SemSys.step] at hs
    split_ifs at hs with hready
    obtain ⟨hok, hsem, hw⟩ := (h.dispatch (some t)).takeEnd hready hs
    refine ⟨hok, ?_⟩
    have htaken : taken (.resume t, o) = if o = .returned .eok then 1 else 0 := by
      unfold taken
      split <;> simp_all
    rw [htaken, hsem, Nat.add_assoc, hw]
    exact Nat.ModEq.refl _
  | release self =>
    simp only [SemSys.step] at hs
    split_ifs at hs with hcall
    have hrel := (h.dispatch self).release (M := M)
    rw [some.inj hs] at hrel
    refine ⟨hrel.1, ?_⟩
    cases self <;> exact hrel.2
  | timeout t =>
    obtain ⟨k, hk, heq⟩ := map_eq_some_iff.mp hs
    cases heq
    obtain ⟨hok, hw⟩ := h.timeout hk
    exact ⟨hok, by simp only [hw, taken, released]; exact Nat.ModEq.refl _⟩

/-- The first waiter is woken, and nobody else; `value` is as before. -/
def WakesHead (s s' : SemSys) : Prop :=
  ∃ h l, s.kernel.suspendThread () = h :: l ∧ s'.kernel.suspendThread () = l ∧
    s'.sem.value = s.sem.value ∧
    ∀ u, (s'.kernel.thread u).stat = if u = h then .ready else (s.kernel.thread u).stat

/-- Nobody waits and `value` goes up by one; no thread changes. -/
def Increments (s s' : SemSys) : Prop :=
  s.kernel.suspendThread () = [] ∧ s'.kernel.suspendThread () = [] ∧
    s'.sem.value = (s.sem.value + 1) % 2 ^ 16 ∧ s'.kernel.thread = s.kernel.thread

theorem SemOk.release_cases :
    WakesHead s (s.rtSemRelease M).2 ∨ Increments s (s.rtSemRelease M).2 := by
  unfold rtSemRelease
  split_ifs with hne
  · obtain ⟨h₀, l, hlist⟩ := exists_cons_of_ne_nil hne
    refine .inl ⟨h₀, l, hlist, ?_, rfl, fun u => ?_⟩
    · simp [rtIpcListResume_suspendThread h.waits hlist, hlist]
    · simp only [rtSchedule_thread, rtIpcListResume_thread h.waits hlist, modify_thread_apply]
      split_ifs <;> rfl
  · rw [not_not] at hne
    exact .inr ⟨hne, hne, rfl, rfl⟩

end

/-- What holds of a semaphore with initial value `v` after the trace `tr`. -/
structure Conserves (M v : ℕ) (tr : List (SemOp × Outcome)) (s : SemSys) : Prop where
  zero : s.kernel.suspendThread () ≠ [] → s.sem.value = 0
  release : ∀ self o s', s.step M (.release self) = some (o, s') → WakesHead s s' ∨ Increments s s'
  -- takes that returned `RT_EOK`, and threads that will return it
  units : s.sem.value + ((tr.map taken).sum + s.woken.length) ≡
    v + (tr.map released).sum [MOD 2 ^ 16]

/-- The invariant and the number of units, modulo the width of `value`. -/
theorem semOk_run {s₀ : SemSys} {tr : List (SemOp × Outcome)} (hinit : s₀.Initial v)
    (hrun : Run (step M) s₀ tr s) :
    SemOk s ∧ s.sem.value + s.woken.length + (tr.map taken).sum ≡
      v + (tr.map released).sum [MOD 2 ^ 16] := by
  refine Run.invTrace (I := fun tr s => SemOk s ∧ s.sem.value + s.woken.length +
    (tr.map taken).sum ≡ v + (tr.map released).sum [MOD 2 ^ 16]) ⟨hinit.semOk, ?_⟩
    (fun tr s op o s' h hs => ?_) hrun
  · obtain ⟨flag, hf⟩ := hinit.sem
    have hvalue : s₀.sem.value = v % 2 ^ 16 := by rw [hf]; rfl
    have hwoken : s₀.woken = [] := by simp [woken, hinit.calls]
    rw [hvalue, hwoken]
    exact Nat.mod_modEq v _
  · obtain ⟨hok, hstep⟩ := h.1.step hs
    refine ⟨hok, ?_⟩
    have hsum := (hstep.add_right (tr.map taken).sum).trans
      ((show s.sem.value + s.woken.length + released (op, o) + (tr.map taken).sum =
        s.sem.value + s.woken.length + (tr.map taken).sum + released (op, o) by omega) ▸
        h.2.add_right (released (op, o)))
    simp only [map_append, map_cons, map_nil, sum_append, sum_cons, sum_nil, Nat.add_zero]
    convert hsum using 1 <;> omega

/-- For every interleaving of takes, releases and timeouts: nobody waits while units are left, each
release wakes the first waiter or increments `value`, and no unit is lost or duplicated. -/
theorem sem_conservation {s₀ : SemSys} {v : ℕ} {tr : List (SemOp × Outcome)}
    (hinit : s₀.Initial v) (hrun : Run (step M) s₀ tr s) : Conserves M v tr s := by
  have h := semOk_run hinit hrun
  refine ⟨h.1.zero, fun self o s' hs => ?_, ?_⟩
  · simp only [step] at hs
    split_ifs at hs
    have hrel := (h.1.dispatch self).release_cases (M := M)
    rw [some.inj hs] at hrel
    cases self <;> exact hrel
  · have heq := h.2
    rwa [Nat.add_assoc, Nat.add_comm s.woken.length] at heq

/-- Thread `t` has priority `20 - 5 * t`. -/
def sampleSys (value : ℕ) : SemSys where
  kernel := newThreads fun t => 20 - 5 * t
  sem := rtSemInit value .fifo
  calls := []

/-- Threads 1 and 2 block; an interrupt handler wakes thread 1, and thread 2 times out. -/
def sampleTakes : List SemOp :=
  [.startup 0, .schedulerStart, .take (some 0) 0, .startup 1, .take (some 1) 7, .startup 2,
    .take (some 2) 7, .release none, .timeout 2, .resume 2, .release (some 2), .resume 1]

theorem sampleTakes_possible : (exec (step 32) (sampleSys 1) sampleTakes).isSome := by
  decide

theorem sem_conservation_sample :
    let r := (exec (step 32) (sampleSys 1) sampleTakes).get sampleTakes_possible
    r.2.sem.value = 1 ∧ Conserves 32 1 (sampleTakes.zip r.1) r.2 :=
  ⟨by decide,
    sem_conservation ⟨⟨.fifo, rfl⟩, rfl, rfl⟩ (Run.of_isSome sampleTakes_possible)⟩

end SemSys

end RtThread
