import RtThread.Ipc.EventDelivery
import RtThread.Ipc.Mailbox
import RtThread.Ipc.MessageQueue
import RtThread.Ipc.Mutex
import RtThread.Ipc.Sem
import RtThread.Ipc.WaitOrder

/-!
# Wait lists sorted by priority

The five classes of IPC objects as `WaitObject`s: what their functions do to wait lists
and priorities is a `WaitStep` each.

* `prio_lists_sorted`: in all runs in which a waiting thread whose priority is changed
  fits its place in the list, the lists of objects with `RT_IPC_FLAG_PRIO` are sorted,
  and each release wakes a most urgent waiter.
* `release_wakes_less_urgent`: after any other priority change it may not.
-/

namespace RtThread

open Runs ArrivalOrder Function Option Kernel MessageQueue

namespace Kernel

variable {Q : Type} {M : ℕ} {k k' k'' : Kernel Q} {t : Tid} {flag : Q → IpcFlag} {releases : Prop}

theorem Waits.refl (hw : k.WaitOk) : k.Waits flag none releases k :=
  .same hw (fun _ => rfl) (fun _ => rfl) rfl

theorem Waits.of_dispatch {a : Option Tid} (h : (k.dispatch t).Waits flag a releases k') :
    k.Waits flag a releases k' :=
  ⟨h.waits, h.step⟩

/-- The writes to a thread object that have nothing to do with wait lists. -/
structure Untouched (k k' : Kernel Q) : Prop where
  stat : ∀ u, (k'.thread u).stat = (k.thread u).stat
  prio : ∀ u, k'.priority u = k.priority u
  list : k'.suspendThread = k.suspendThread

theorem untouched_modify {f : Thread → Thread} (hstat : ∀ th, (f th).stat = th.stat)
    (hprio : ∀ th, (f th).currentPriority = th.currentPriority) :
    Untouched k (k.modify t f) := by
  refine ⟨fun u => ?_, (shrinks_modify hprio).prio, rfl⟩
  rw [modify_thread_apply]
  split_ifs with hu
  · rw [hstat, hu]
  · rfl

theorem untouched_error (e : Err) : Untouched k (k.modify t fun th => { th with error := e }) :=
  untouched_modify (fun _ => rfl) fun _ => rfl

theorem Untouched.trans (h : Untouched k k') (h' : Untouched k' k'') : Untouched k k'' :=
  ⟨fun u => (h'.stat u).trans (h.stat u), fun u => (h'.prio u).trans (h.prio u),
    h'.list.trans h.list⟩

variable (h : Untouched k k') (hw : k.WaitOk)
include h hw

theorem Untouched.waitOk : k'.WaitOk := hw.congr h.list fun u hu => by rw [h.stat, hu]

theorem Untouched.waits : k.Waits flag none releases k' := .same hw h.stat h.prio h.list

/-- A thread blocks after such writes. -/
theorem Untouched.waits_blockOn [DecidableEq Q] {q : Q} {time : ℤ} {f : IpcFlag}
    (hready : (k.thread t).stat = .ready) (hf : f = flag q) :
    k.Waits flag (some t) releases (k'.blockOn M t q f time) := by
  refine .blockOn (k := k) t (h.waitOk hw) ?_ (fun u _ => h.prio u) h.list hf
  rw [h.stat, hready]

end Kernel

/-! ## Semaphores -/

namespace SemSys

variable {M : ℕ} {s s' : SemSys} {op : SemOp} {o : Outcome} {a self : Option Tid} {R : Prop}

/-- The thread that the operation puts into the wait list. -/
def arrives : SemOp → Outcome → Option Tid
  | .take self _, .blocked => self
  | _, _ => none

def IsRelease : SemOp → Prop
  | .release _ => True
  | _ => False

/-- What happens to the wait list from `s` to `s'`. -/
def StepWaits (s : SemSys) (a : Option Tid) (R : Prop) (s' : SemSys) : Prop :=
  s'.sem.flag = s.sem.flag ∧ s.kernel.Waits (fun _ => s.sem.flag) a R s'.kernel

theorem CanCall.ready (h : s.CanCall self) :
    ∀ t ∈ self, ((s.dispatch self).kernel.thread t).stat = .ready := by
  intro t ht
  cases ht
  exact (h t rfl).1

theorem rtSemTake_waits {time : ℤ} (hready : ∀ t ∈ self, (s.kernel.thread t).stat = .ready)
    (hs : s.rtSemTake M self time = some (o, s')) (hw : s.kernel.WaitOk) :
    StepWaits s (arrives (.take self time) o) R s' := by
  unfold rtSemTake at hs
  split_ifs at hs
  · cases hs
    exact ⟨rfl, .refl hw⟩
  · cases hs
    exact ⟨rfl, .refl hw⟩
  · cases self with
    | none => cases hs
    | some t =>
      cases hs
      exact ⟨rfl, (untouched_error .eok).waits_blockOn hw (hready t rfl) rfl⟩

variable (hw : s.kernel.WaitOk)
include hw

/-- The dispatch of the caller changes neither the list nor a thread. -/
theorem StepWaits.of_dispatch
    (h : (s.dispatch self).kernel.WaitOk → StepWaits (s.dispatch self) a R s') :
    StepWaits s a R s' := by
  cases self with
  | none => exact h hw
  | some t =>
    obtain ⟨hflag, hwaits⟩ := h (hw.dispatch t)
    exact ⟨hflag, hwaits.of_dispatch⟩

theorem rtSemRelease_waits : StepWaits s none R (s.rtSemRelease M).2 := by
  unfold rtSemRelease
  split_ifs
  · exact ⟨rfl, .listResume hw (fun _ _ _ => rfl) rfl⟩
  · exact ⟨rfl, .refl hw⟩

theorem waits_step (hs : s.step M op = some (o, s')) :
    StepWaits s (arrives op o) (IsRelease op) s' := by
  cases op with
  | schedulerStart =>
    cases hs
    exact ⟨rfl, .schedulerStart hw⟩
  | startup t =>
    obtain ⟨k, hk, heq⟩ := map_eq_some_iff.mp hs
    cases heq
    exact ⟨rfl, .startup hw hk⟩
  | take self time =>
    simp only [step] at hs
    split_ifs at hs with hcall
    exact .of_dispatch hw (rtSemTake_waits hcall.ready hs)
  | resume t =>
    simp only [step] at hs
    split_ifs at hs
    unfold rtSemTakeEnd at hs
    split_ifs at hs
    cases hs
    exact ⟨rfl, .same hw (fun _ => rfl) (fun _ => rfl) rfl⟩
  | release self =>
    simp only [step] at hs
    split_ifs at hs
    obtain rfl : ((s.dispatch self).rtSemRelease M).2 = s' := congrArg Prod.snd (some.inj hs)
    exact .of_dispatch hw rtSemRelease_waits
  | timeout t =>
    obtain ⟨k, hk, heq⟩ := map_eq_some_iff.mp hs
    cases heq
    exact ⟨rfl, .timeout hw hk⟩

end SemSys

/-- A semaphore. -/
def semObject : WaitObject where
  Q := Unit
  Sys := SemSys
  Op := SemOp
  Result := Outcome
  step := SemSys.step
  kernel := SemSys.kernel
  setKernel s k := { s with kernel := k }
  flag s _ := s.sem.flag
  arrives := SemSys.arrives
  releases := SemSys.IsRelease
  kernel_setKernel _ _ := rfl
  flag_setKernel _ _ := rfl
  waits_step hw hs := ⟨funext fun _ => (SemSys.waits_step hw hs).1, (SemSys.waits_step hw hs).2⟩

/-! ## Events -/

namespace EventSys

variable {M : ℕ} {s s' : EventSys} {op : EventOp} {o : Outcome × Option (BitVec 32)} {t : Tid}
  {a self : Option Tid} {R : Prop}

/-- The thread that the operation puts into the wait list. -/
def arrives : EventOp → Outcome × Option (BitVec 32) → Option Tid
  | .recv t .., (.blocked, _) => some t
  | _, _ => none

/-- What happens to the wait list from `s` to `s'`. -/
def StepWaits (s : EventSys) (a : Option Tid) (R : Prop) (s' : EventSys) : Prop :=
  s'.event.flag = s.event.flag ∧ s.kernel.Waits (fun _ => s.event.flag) a R s'.kernel

theorem StepWaits.of_dispatch (hw : s.kernel.WaitOk)
    (h : (s.dispatch self).kernel.WaitOk → StepWaits (s.dispatch self) a R s') :
    StepWaits s a R s' := by
  cases self with
  | none => exact h hw
  | some t =>
    obtain ⟨hflag, hwaits⟩ := h (hw.dispatch t)
    exact ⟨hflag, hwaits.of_dispatch⟩

theorem wake_shrinks {k : Kernel Unit} (h : s.kernel.Shrinks k) :
    s.kernel.Shrinks (({ s with kernel := k } : EventSys).wake M t).kernel ∧
      (({ s with kernel := k } : EventSys).wake M t).event.flag = s.event.flag := by
  refine ⟨h.trans shrinks_resume, ?_⟩
  unfold wake
  dsimp only
  split_ifs <;> rfl

theorem sendTo_shrinks : s.kernel.Shrinks (s.sendTo M t).2.kernel ∧
    (s.sendTo M t).2.event.flag = s.event.flag := by
  unfold sendTo
  dsimp only
  split_ifs
  · exact wake_shrinks (.refl _)
  · exact ⟨.refl _, rfl⟩
  · exact wake_shrinks (shrinks_modify fun _ => rfl)
  · exact ⟨.refl _, rfl⟩
  · exact ⟨.refl _, rfl⟩

theorem sendLoop_shrinks (l : List Tid) (b : Bool) (s : EventSys) :
    s.kernel.Shrinks (sendLoop M l (b, s)).2.kernel ∧
      (sendLoop M l (b, s)).2.event.flag = s.event.flag := by
  induction l generalizing b s with
  | nil => exact ⟨.refl _, rfl⟩
  | cons t l ih =>
    obtain ⟨hone, hflag⟩ := sendTo_shrinks (M := M) (s := s) (t := t)
    obtain ⟨hrest, hflags⟩ := ih (b || (s.sendTo M t).1) (s.sendTo M t).2
    exact ⟨hone.trans hrest, hflags.trans hflag⟩

theorem rtEventSend_shrinks (set : BitVec 32) :
    s.kernel.Shrinks (s.rtEventSend M set).2.kernel ∧
      (s.rtEventSend M set).2.event.flag = s.event.flag := by
  unfold rtEventSend
  split_ifs with hzero
  · exact ⟨.refl _, rfl⟩
  · obtain ⟨hloop, hflag⟩ := sendLoop_shrinks (M := M) (s.kernel.suspendThread ()) false
      { s with event := { s.event with set := s.event.set ||| set } }
    dsimp only
    split_ifs
    · exact ⟨hloop.trans shrinks_schedule, hflag⟩
    · exact ⟨hloop, hflag⟩

theorem CanCall.ready (h : s.CanCall self) :
    ∀ t ∈ self, ((s.dispatch self).kernel.thread t).stat = .ready := by
  intro t ht
  cases ht
  exact (h t rfl).1

theorem rtEventRecv_waits {set : BitVec 32} {option : BitVec 8} {timeout : ℤ}
    (hready : (s.kernel.thread t).stat = .ready)
    (hs : s.rtEventRecv M t set option timeout = some (o, s')) (hw : s.kernel.WaitOk) :
    StepWaits s (arrives (.recv t set option timeout) o) R s' := by
  unfold rtEventRecv at hs
  split_ifs at hs with hzero hopt hsat hclear htime
  · cases hs
    exact ⟨rfl, .refl hw⟩
  · cases hs
    exact ⟨rfl, (untouched_error .eok).waits hw⟩
  · cases hs
    exact ⟨rfl, (untouched_error .eok).waits hw⟩
  · cases hs
    exact ⟨rfl, ((untouched_error .eok).trans (untouched_error .etimeout)).waits hw⟩
  · cases hs
    have hinfo : (s.kernel.modify t fun th => { th with error := .eok }).Untouched
        ((s.kernel.modify t fun th => { th with error := .eok }).modify t fun th =>
          { th with eventSet := set, eventInfo := option }) :=
      untouched_modify (fun _ => rfl) fun _ => rfl
    exact ⟨rfl, ((untouched_error .eok).trans hinfo).waits_blockOn hw hready rfl⟩

theorem waits_step (hw : s.kernel.WaitOk) (hs : s.step M op = some (o, s')) :
    StepWaits s (arrives op o) False s' := by
  cases op with
  | schedulerStart =>
    cases hs
    exact ⟨rfl, .schedulerStart hw⟩
  | startup t =>
    obtain ⟨k, hk, heq⟩ := map_eq_some_iff.mp hs
    cases heq
    exact ⟨rfl, .startup hw hk⟩
  | send self set =>
    simp only [step] at hs
    split_ifs at hs
    cases hs
    obtain ⟨hshrinks, hflag⟩ := rtEventSend_shrinks (M := M) (s := s.dispatch self) set
    exact .of_dispatch hw fun hwd => ⟨hflag, hshrinks.waits (rtEventSend_waits hwd set)⟩
  | recv t set option timeout =>
    simp only [step] at hs
    split_ifs at hs with hcall
    exact .of_dispatch hw (rtEventRecv_waits (hcall.ready t rfl) hs)
  | resume t =>
    simp only [step] at hs
    split_ifs at hs
    unfold rtEventRecvEnd at hs
    split_ifs at hs
    cases hs
    exact ⟨rfl, .same hw (fun _ => rfl) (fun _ => rfl) rfl⟩
  | reset self =>
    simp only [step] at hs
    split_ifs at hs
    cases hs
    refine .of_dispatch hw fun hwd => ⟨rfl, ?_⟩
    exact ((shrinks_resumeAllLoop _ _).trans shrinks_schedule).waits hwd.listResumeAll.schedule
  | timeout t =>
    obtain ⟨k, hk, heq⟩ := map_eq_some_iff.mp hs
    cases heq
    exact ⟨rfl, .timeout hw hk⟩

end EventSys

/-- An event. `rt_event_send` wakes the threads whose condition is satisfied, wherever they are in
the list. -/
def eventObject : WaitObject where
  Q := Unit
  Sys := EventSys
  Op := EventOp
  Result := Outcome × Option (BitVec 32)
  step := EventSys.step
  kernel := EventSys.kernel
  setKernel s k := { s with kernel := k }
  flag s _ := s.event.flag
  arrives := EventSys.arrives
  releases _ := False
  kernel_setKernel _ _ := rfl
  flag_setKernel _ _ := rfl
  waits_step hw hs := ⟨funext fun _ => (EventSys.waits_step hw hs).1, (EventSys.waits_step hw hs).2⟩

/-! ## Mutexes -/

namespace MutexSys

variable {Q : Type} [DecidableEq Q] {M : ℕ} {s s' : MutexSys Q} {op : MutexOp Q} {o : Outcome}
  {t : Tid} {m : Q} {R : Prop}

/-- The thread that the operation puts into a wait list. -/
def arrives : MutexOp Q → Outcome → Option Tid
  | .take t _ _, .blocked => some t
  | _, _ => none

def IsRelease : MutexOp Q → Prop
  | .release _ _ => True
  | _ => False

/-- What happens to the wait lists from `s` to `s'`. -/
def StepWaits (s : MutexSys Q) (a : Option Tid) (R : Prop) (s' : MutexSys Q) : Prop :=
  (fun m => (s'.mutex m).flag) = (fun m => (s.mutex m).flag) ∧
    s.kernel.Waits (fun m => (s.mutex m).flag) a R s'.kernel

theorem flag_update {mx : Mutex} (h : mx.flag = (s.mutex m).flag) :
    (fun m' => (update s.mutex m mx m').flag) = fun m' => (s.mutex m').flag := by
  funext m'
  by_cases hm : m' = m
  · subst hm
    simpa using h
  · simp [hm]

theorem rtMutexTake_waits {time : ℤ} (hready : (s.kernel.thread t).stat = .ready)
    (hw : s.kernel.WaitOk) (hs : s.rtMutexTake M t m time = some (o, s')) :
    StepWaits s (arrives (.take t m time) o) R s' := by
  set k₁ := s.kernel.modify t fun th => { th with error := .eok }
  have heok : s.kernel.Untouched k₁ := untouched_error .eok
  unfold rtMutexTake at hs
  dsimp only at hs
  split_ifs at hs with howner hvalue htime
  · cases hs
    exact ⟨flag_update rfl, heok.waits hw⟩
  · cases hs
    exact ⟨flag_update rfl, heok.waits hw⟩
  · cases hs
    exact ⟨rfl, (heok.trans (untouched_error .etimeout)).waits hw⟩
  · split at hs
    · cases hs
    · rename_i owner howner
      cases hs
      -- the owner inherits the priority, then the thread joins the list
      have hinherit : k₁.Reprioritised owner _ (k₁.inheritPriority M t owner) :=
        reprioritised_inherit (heok.waitOk hw)
      refine ⟨rfl, .blockOn (k := s.kernel) owner (hinherit.waitOk (heok.waitOk hw)) ?_
        (fun u hu => ?_) hinherit.lists rfl⟩
      · rw [hinherit.stat, heok.stat, hready]
      · rw [priority, hinherit.priority, if_neg hu]
        exact heok.prio u

theorem rtMutexRelease_waits (hready : (s.kernel.thread t).stat = .ready) (hw : s.kernel.WaitOk) :
    StepWaits s none R (s.rtMutexRelease M t m).2 := by
  unfold rtMutexRelease
  dsimp only
  split_ifs with howner hhold
  · exact ⟨rfl, (untouched_error .error).waits hw⟩
  · -- the caller does not wait, so that its priority does not matter
    have hrestore : s.kernel.Reprioritised t _
        (s.kernel.restorePriority M t (s.mutex m).originalPriority) :=
      reprioritised_restore hw
    have hne : ∀ q, ∀ u ∈ s.kernel.suspendThread q, u ≠ t := fun q u hu =>
      hw.ne_of_ready hu hready
    have hprio : ∀ u ≠ t, (s.kernel.restorePriority M t (s.mutex m).originalPriority).priority u =
        s.kernel.priority u := by
      intro u hu
      rw [priority, hrestore.priority, if_neg hu]
      rfl
    split
    · exact ⟨flag_update rfl, .listResume (hrestore.waitOk hw)
        (fun q u hu => hprio u (hne q u hu)) hrestore.lists⟩
    · exact ⟨flag_update rfl, hrestore.waitOk hw, .keeps t hprio hrestore.lists⟩
  · exact ⟨flag_update rfl, .refl hw⟩

theorem waits_step (hw : s.kernel.WaitOk) (hs : s.step M op = some (o, s')) :
    StepWaits s (arrives op o) (IsRelease op) s' := by
  have hdispatch : ∀ {t a R}, StepWaits (s.dispatch t) a R s' → StepWaits s a R s' :=
    fun h => ⟨h.1, h.2.of_dispatch⟩
  have hwd : ∀ t, (s.dispatch t).kernel.WaitOk := fun t => hw.dispatch t
  cases op with
  | schedulerStart =>
    cases hs
    exact ⟨rfl, .schedulerStart hw⟩
  | startup t =>
    obtain ⟨k, hk, heq⟩ := map_eq_some_iff.mp hs
    cases heq
    exact ⟨rfl, .startup hw hk⟩
  | take t m time =>
    simp only [step] at hs
    split_ifs at hs with hcall
    exact hdispatch (rtMutexTake_waits hcall.1 (hwd t) hs)
  | resume t =>
    simp only [step] at hs
    split_ifs at hs
    unfold rtMutexTakeEnd at hs
    split at hs
    · cases hs
    · cases hs
      exact ⟨rfl, .same hw (fun _ => rfl) (fun _ => rfl) rfl⟩
  | release t m =>
    simp only [step] at hs
    split_ifs at hs with hcall
    obtain rfl : ((s.dispatch t).rtMutexRelease M t m).2 = s' := congrArg Prod.snd (some.inj hs)
    exact hdispatch (rtMutexRelease_waits hcall.1 (hwd t))
  | timeout t =>
    obtain ⟨k, hk, heq⟩ := map_eq_some_iff.mp hs
    cases heq
    exact ⟨rfl, .timeout hw hk⟩

end MutexSys

/-- Any number of mutexes. -/
def mutexObject : WaitObject where
  Q := ℕ
  Sys := MutexSys ℕ
  Op := MutexOp ℕ
  Result := Outcome
  step := MutexSys.step
  kernel := MutexSys.kernel
  setKernel s k := { s with kernel := k }
  flag s m := (s.mutex m).flag
  arrives := MutexSys.arrives
  releases := MutexSys.IsRelease
  kernel_setKernel _ _ := rfl
  flag_setKernel _ _ := rfl
  waits_step hw hs := MutexSys.waits_step hw hs

/-! ## Mailboxes -/

namespace MbSys

variable {M : ℕ} {s s' : MbSys} {op : MbOp} {r : MbResult} {a self : Option Tid} {R : Prop}
  {timeout : ℤ} {d : ℕ}

/-- The caller joins a wait list if it blocks. -/
def blockedThread (self : Option Tid) : MbResult → Option Tid
  | .blocked => self
  | _ => none

/-- The thread that the operation puts into a wait list. -/
def arrives : MbOp → MbResult → Option Tid
  | .send self _ _, r => blockedThread self r
  | .recv self _, r => blockedThread self r
  | .resume t, r => blockedThread (some t) r
  | _, _ => none

/-- A send wakes a receiver, a receive wakes a sender, be it after a wait. -/
def IsRelease : MbOp → Prop
  | .send .. => True
  | .recv .. => True
  | .resume _ => True
  | _ => False

/-- What happens to the wait lists from `s` to `s'`. -/
def StepWaits (s : MbSys) (a : Option Tid) (R : Prop) (s' : MbSys) : Prop :=
  s'.mb.flag = s.mb.flag ∧ s.kernel.Waits (fun _ => s.mb.flag) a R s'.kernel

theorem StepWaits.of_dispatch (hw : s.kernel.WaitOk)
    (h : (s.dispatch self).kernel.WaitOk → StepWaits (s.dispatch self) a R s') :
    StepWaits s a R s' := by
  cases self with
  | none => exact h hw
  | some t =>
    obtain ⟨hflag, hwaits⟩ := h (hw.dispatch t)
    exact ⟨hflag, hwaits.of_dispatch⟩

theorem CanCall.ready (h : s.CanCall self) :
    ∀ t ∈ self, ((s.dispatch self).kernel.thread t).stat = .ready := by
  intro t ht
  cases ht
  exact (h t rfl).1

theorem resumeFrom_waits (q : MbList) {flag : MbList → IpcFlag} (hw : s.kernel.WaitOk) :
    s.kernel.Waits flag none R (s.resumeFrom M q).kernel := by
  unfold resumeFrom
  split_ifs
  · exact .listResume hw (fun _ _ _ => rfl) rfl
  · exact .refl hw

theorem sendLoop_waits {v : Mail} (hready : ∀ t ∈ self, (s.kernel.thread t).stat = .ready)
    (hs : s.sendLoop M self v timeout d = some (r, s')) (hw : s.kernel.WaitOk) :
    StepWaits s (blockedThread self r) R s' := by
  obtain ⟨t, rfl, -, -, ⟨⟩⟩ | ⟨t, rfl, -, -, ⟨⟩⟩ | ⟨-, ⟨⟩⟩ := loop_cases hs
  · exact ⟨rfl, (untouched_error .eok).waits hw⟩
  · exact ⟨rfl, (untouched_error .eok).waits_blockOn hw (hready t rfl) rfl⟩
  · exact ⟨by rw [resumeFrom_mb]; rfl, resumeFrom_waits (s := s.put v) .receivers hw⟩

theorem recvLoop_waits (hready : ∀ t ∈ self, (s.kernel.thread t).stat = .ready)
    (hs : s.recvLoop M self timeout d = some (r, s')) (hw : s.kernel.WaitOk) :
    StepWaits s (blockedThread self r) R s' := by
  obtain ⟨t, rfl, -, -, ⟨⟩⟩ | ⟨t, rfl, -, -, ⟨⟩⟩ | ⟨-, ⟨⟩⟩ := loop_cases hs
  · exact ⟨rfl, ((untouched_error .eok).trans (untouched_error .etimeout)).waits hw⟩
  · exact ⟨rfl, (untouched_error .eok).waits_blockOn hw (hready t rfl) rfl⟩
  · exact ⟨by rw [resumeFrom_mb]; rfl, resumeFrom_waits (s := s.drop) .senders hw⟩

theorem rtMbResume_waits {t : Tid} (hready : (s.kernel.thread t).stat = .ready)
    (hs : s.rtMbResume M t = some (r, s')) (hw : s.kernel.WaitOk) :
    StepWaits s (blockedThread (some t) r) R s' := by
  unfold rtMbResume at hs
  split at hs
  · cases hs
  · dsimp only at hs
    set s₁ : MbSys := { s with calls := update s.calls t none }
    have hready₁ : ∀ u ∈ some t, (s₁.kernel.thread u).stat = .ready := by
      rintro u hu
      cases hu
      exact hready
    have hback : ∀ {a R}, StepWaits s₁ a R s' → StepWaits s a R s' := fun h => h
    split_ifs at hs
    · cases hs
      exact ⟨rfl, .refl hw⟩
    · split at hs
      · exact hback (sendLoop_waits hready₁ hs hw)
      · exact hback (recvLoop_waits hready₁ hs hw)

theorem waits_step (hw : s.kernel.WaitOk) (hs : s.step M op = some (r, s')) :
    StepWaits s (arrives op r) (IsRelease op) s' := by
  cases op with
  | schedulerStart =>
    cases hs
    exact ⟨rfl, .schedulerStart hw⟩
  | startup t =>
    obtain ⟨k, hk, heq⟩ := map_eq_some_iff.mp hs
    cases heq
    exact ⟨rfl, .startup hw hk⟩
  | tick =>
    cases hs
    exact ⟨rfl, .refl hw⟩
  | send self v timeout =>
    simp only [step] at hs
    split_ifs at hs with hcall
    unfold rtMbSendWait at hs
    split_ifs at hs
    · cases hs
      exact .of_dispatch hw fun hwd => ⟨rfl, .refl hwd⟩
    · exact .of_dispatch hw (sendLoop_waits hcall.ready hs)
  | recv self timeout =>
    simp only [step] at hs
    split_ifs at hs with hcall
    unfold rtMbRecv at hs
    split_ifs at hs
    · cases hs
      exact .of_dispatch hw fun hwd => ⟨rfl, .refl hwd⟩
    · exact .of_dispatch hw (recvLoop_waits hcall.ready hs)
  | resume t =>
    simp only [step] at hs
    split_ifs at hs with hready
    exact .of_dispatch hw (rtMbResume_waits (s := s.dispatch (some t)) hready hs)
  | reset self =>
    simp only [step] at hs
    split_ifs at hs
    cases hs
    refine .of_dispatch hw fun hwd => ⟨rfl, ?_⟩
    exact (((shrinks_resumeAllLoop _ _).trans (shrinks_resumeAllLoop _ _)).trans
      shrinks_schedule).waits hwd.listResumeAll.listResumeAll.schedule
  | timeout t =>
    obtain ⟨k, hk, heq⟩ := map_eq_some_iff.mp hs
    cases heq
    exact ⟨rfl, .timeout hw hk⟩

end MbSys

/-- A mailbox. -/
def mailboxObject : WaitObject where
  Q := MbList
  Sys := MbSys
  Op := MbOp
  Result := MbResult
  step := MbSys.step
  kernel := MbSys.kernel
  setKernel s k := { s with kernel := k }
  flag s _ := s.mb.flag
  arrives := MbSys.arrives
  releases := MbSys.IsRelease
  kernel_setKernel _ _ := rfl
  flag_setKernel _ _ := rfl
  waits_step hw hs := ⟨funext fun _ => (MbSys.waits_step hw hs).1, (MbSys.waits_step hw hs).2⟩

/-! ## Message queues -/

/-- The thread, if the context is one. -/
def Context.tid : Context → Option Tid
  | .thread t => some t
  | .handler _ => none

namespace MqSys

variable {M : ℕ} {s s' : MqSys} {op : MqOp} {r : MqResult} {a : Option Tid} {c : Context} {R : Prop}
  {mq mq' : MessageQueue}

/-- The caller joins the wait list if it blocks. -/
def blockedThread (c : Context) : MqResult → Option Tid
  | .blocked => c.tid
  | _ => none

/-- The thread that the operation puts into the wait list. -/
def arrives : MqOp → MqResult → Option Tid
  | .recv c _ _, r => blockedThread c r
  | .resume t, r => blockedThread (.thread t) r
  | _, _ => none

/-- A send wakes a receiver in its second section. -/
def IsRelease : MqOp → Prop
  | .finish _ => True
  | _ => False

/-- What happens to the wait list from `s` to `s'`. -/
def StepWaits (s : MqSys) (a : Option Tid) (R : Prop) (s' : MqSys) : Prop :=
  s'.mq.flag = s.mq.flag ∧ s.kernel.Waits (fun _ => s.mq.flag) a R s'.kernel

theorem StepWaits.of_dispatch (hw : s.kernel.WaitOk)
    (h : (s.dispatch c).kernel.WaitOk → StepWaits (s.dispatch c) a R s') :
    StepWaits s a R s' := by
  cases c with
  | handler n => exact h hw
  | thread t =>
    obtain ⟨hflag, hwaits⟩ := h (hw.dispatch t)
    exact ⟨hflag, hwaits.of_dispatch⟩

theorem CanRun.ready (h : s.CanRun c) :
    ∀ t ∈ c.tid, ((s.dispatch c).kernel.thread t).stat = .ready := by
  intro t ht
  cases c with
  | handler n => cases ht
  | thread u =>
    cases ht
    exact h

theorem rtMqSend_waits {urgent : Bool} {buffer : List Byte}
    (hs : s.rtMqSend c urgent buffer = some (r, s')) (hw : s.kernel.WaitOk) :
    StepWaits s none R s' := by
  unfold rtMqSend at hs
  split_ifs at hs
  · cases hs
    exact ⟨rfl, .refl hw⟩
  · unfold takeFree at hs
    cases hfree : s.mq.msgQueueFree with
    | none | some msg =>
      simp only [hfree] at hs
      cases hs
      exact ⟨rfl, .refl hw⟩

theorem takeHead_flag {msg : MqNode} (h : mq.takeHead = some (msg, mq')) : mq'.flag = mq.flag := by
  unfold takeHead at h
  split at h
  · cases h
  · simp only [some.injEq, Prod.mk.injEq] at h
    rw [← h.2]
    rfl

theorem recvLoop_waits {size : ℕ} {timeout : ℤ} {d : ℕ}
    (hready : ∀ t ∈ c.tid, (s.kernel.thread t).stat = .ready)
    (hs : s.recvLoop M c size timeout d = some (r, s')) (hw : s.kernel.WaitOk) :
    StepWaits s (blockedThread c r) R s' := by
  unfold recvLoop at hs
  by_cases hempty : s.mq.entry = 0
  · rw [if_pos hempty] at hs
    cases c with
    | handler n => cases hs
    | thread t =>
      split_ifs at hs
      · cases hs
        exact ⟨rfl, ((untouched_error .eok).trans (untouched_error .etimeout)).waits hw⟩
      · cases hs
        exact ⟨rfl, (untouched_error .eok).waits_blockOn hw (hready t rfl) rfl⟩
  · rw [if_neg hempty] at hs
    obtain ⟨⟨msg, mq⟩, htake, heq⟩ := map_eq_some_iff.mp hs
    cases heq
    exact ⟨takeHead_flag htake, .refl hw⟩

theorem copy_waits (hs : s.copy c = some (r, s')) (hw : s.kernel.WaitOk) :
    StepWaits s none R s' := by
  unfold copy at hs
  split at hs
  · cases hs
    refine ⟨?_, .refl hw⟩
    split_ifs <;> rfl
  · cases hs
    exact ⟨rfl, .refl hw⟩
  · cases hs

theorem resumeReceiver_waits (hw : s.kernel.WaitOk) :
    (s.resumeReceiver M).mq.flag = s.mq.flag ∧
      ∀ flag, s.kernel.Waits flag none R (s.resumeReceiver M).kernel := by
  unfold resumeReceiver
  split_ifs
  · exact ⟨rfl, fun _ => .listResume hw (fun _ _ _ => rfl) rfl⟩
  · exact ⟨rfl, fun _ => .refl hw⟩

theorem finish_waits (hs : s.finish M c = some (r, s')) (hw : s.kernel.WaitOk) :
    StepWaits s none R s' := by
  unfold finish at hs
  split at hs
  · rename_i urgent msg _
    cases hs
    have hflag : (if urgent then s.mq.linkHead msg else s.mq.linkTail msg).flag = s.mq.flag := by
      cases urgent <;> rfl
    obtain ⟨hsame, hwaits⟩ := resumeReceiver_waits (M := M) (R := R) (s := setCall
      { s with mq := if urgent then s.mq.linkHead msg else s.mq.linkTail msg } c none) hw
    exact ⟨hsame.trans hflag, hwaits _⟩
  · cases hs
    exact ⟨rfl, .refl hw⟩
  · cases hs

theorem releaseAll_flag {n : ℕ} (h : releaseAll n mq = some mq') :
    mq'.flag = mq.flag := by
  induction n generalizing mq with
  | zero =>
    unfold releaseAll at h
    split at h
    · cases h
      rfl
    · cases h
  | succ n ih =>
    unfold releaseAll at h
    split at h
    · cases h
      rfl
    · have hflag := ih h
      rw [hflag]
      rfl

theorem waits_step (hw : s.kernel.WaitOk) (hs : s.step M op = some (r, s')) :
    StepWaits s (arrives op r) (IsRelease op) s' := by
  cases op with
  | schedulerStart =>
    cases hs
    exact ⟨rfl, .schedulerStart hw⟩
  | startup t =>
    obtain ⟨k, hk, heq⟩ := map_eq_some_iff.mp hs
    cases heq
    exact ⟨rfl, .startup hw hk⟩
  | tick =>
    cases hs
    exact ⟨rfl, .refl hw⟩
  | send c buffer | urgent c buffer =>
    simp only [step] at hs
    split_ifs at hs
    exact .of_dispatch hw (rtMqSend_waits hs)
  | recv c size timeout =>
    simp only [step] at hs
    split_ifs at hs with hcall
    unfold rtMqRecv at hs
    split_ifs at hs
    · cases hs
      exact .of_dispatch hw fun hwd => ⟨rfl, .refl hwd⟩
    · exact .of_dispatch hw (recvLoop_waits hcall.1.ready hs)
  | copy c =>
    simp only [step] at hs
    split_ifs at hs
    exact .of_dispatch hw (copy_waits hs)
  | finish c =>
    simp only [step] at hs
    split_ifs at hs
    exact .of_dispatch hw (finish_waits hs)
  | resume t =>
    simp only [step] at hs
    split_ifs at hs with hready
    unfold rtMqResume at hs
    split at hs
    · dsimp only at hs
      split_ifs at hs
      · cases hs
        exact ⟨rfl, .same hw (fun _ => rfl) (fun _ => rfl) rfl⟩
      · refine .of_dispatch (c := .thread t) hw fun hwd => ?_
        have hloop := recvLoop_waits (R := IsRelease (.resume t))
          (s := (s.dispatch (.thread t)).setCall (.thread t) none) hready.ready hs hwd
        exact hloop
    · cases hs
  | reset c =>
    simp only [step] at hs
    split_ifs at hs
    obtain ⟨mq, hall, heq⟩ := map_eq_some_iff.mp hs
    cases heq
    have hflag := releaseAll_flag hall
    refine .of_dispatch (c := c) hw fun hwd => ⟨hflag, ?_⟩
    exact ((shrinks_resumeAllLoop _ _).trans shrinks_schedule).waits hwd.listResumeAll.schedule
  | timeout t =>
    obtain ⟨k, hk, heq⟩ := map_eq_some_iff.mp hs
    cases heq
    exact ⟨rfl, .timeout hw hk⟩

end MqSys

/-- A message queue. -/
def messageQueueObject : WaitObject where
  Q := Unit
  Sys := MqSys
  Op := MqOp
  Result := MqResult
  step := MqSys.step
  kernel := MqSys.kernel
  setKernel s k := { s with kernel := k }
  flag s _ := s.mq.flag
  arrives := MqSys.arrives
  releases := MqSys.IsRelease
  kernel_setKernel _ _ := rfl
  flag_setKernel _ _ := rfl
  waits_step hw hs := ⟨funext fun _ => (MqSys.waits_step hw hs).1, (MqSys.waits_step hw hs).2⟩

/-! ## All of them -/

/-- The classes of IPC objects. -/
inductive IpcClass
  | semaphore
  | mutex
  | event
  | mailbox
  | messageQueue
  deriving DecidableEq, Repr

def IpcClass.object : IpcClass → WaitObject
  | .semaphore => semObject
  | .mutex => mutexObject
  | .event => eventObject
  | .mailbox => mailboxObject
  | .messageQueue => messageQueueObject

open WaitObject

/-- A semaphore with `RT_IPC_FLAG_PRIO` and value 0; thread `t` has priority `20 - 5 * t`. -/
def samplePrio : semObject.Recorded where
  sys := {
    kernel := newThreads fun t => 20 - 5 * t
    sem := rtSemInit 0 .prio
    calls := [] }
  now := 0
  arrived := fun _ => 0

theorem samplePrio_initial : samplePrio.Initial := fun _ => rfl

/-- Threads 1 and 2 wait for the semaphore. Thread 0 makes the first in the list, thread 2, less
urgent, but not less than thread 1. -/
def sampleFits : List semObject.EnvOp :=
  [.op (.startup 0), .op .schedulerStart, .op (.startup 1), .op (.take (some 1) (-1)),
    .op (.startup 2), .op (.take (some 2) (-1)), .changePriority 2 12]

instance (s : semObject.Recorded) : Decidable s.ListsSorted :=
  decidable_of_iff (s.sys.sem.flag = .prio → Sorted s.priority s.arrived
    (s.sys.kernel.suspendThread ())) ⟨fun h _ => h, fun h => h ()⟩

instance (s : semObject.Recorded) (op : semObject.EnvOp) : Decidable (SortedAfter 32 s op) :=
  inferInstanceAs (Decidable (∀ x ∈ recordedStep 32 s op, _))

theorem sampleFits_possible :
    (exec (guard (SortedAfter 32) (recordedStep 32)) samplePrio sampleFits).isSome := by
  decide

/-- Threads 1 and 2 wait for the semaphore. Thread 0 makes the last in the list, thread 1, the most
urgent, and releases the semaphore. -/
def sampleOvertakes : List semObject.EnvOp :=
  [.op (.startup 0), .op .schedulerStart, .op (.startup 1), .op (.take (some 1) (-1)),
    .op (.startup 2), .op (.take (some 2) (-1)), .changePriority 1 5]

theorem sampleOvertakes_possible : (exec (recordedStep 32) samplePrio sampleOvertakes).isSome := by
  decide

theorem sampleRelease_possible :
    (recordedStep 32 ((exec (recordedStep 32) samplePrio sampleOvertakes).get
      sampleOvertakes_possible).2 (.op (.release (some 0)))).isSome := by
  decide

end RtThread
