import RtThread.Kernel.Scheduler

/-!
# Thread management

Models of `src/thread.c`. A function whose `RT_ASSERT` can fail, or that
dereferences `rt_current_thread`, returns `none` when it does not come back.

`ThreadsOk M k` collects what all functions of `src/thread.c` maintain: the
ready lists hold exactly the threads with `stat` `RT_THREAD_READY`, and the
masks of a started thread agree with its current priority. The bitmap needs
more care (`RtThread.Kernel.ReadyQueue`).
-/

namespace RtThread

open List Function Option

/-- Change of `current_priority` with "recalculate priority attribute" (lines 244–252 and 525–533).
-/
def Thread.setPriority (M p : ℕ) (th : Thread) : Thread :=
  if 32 < M then
    { th with
      currentPriority := p
      number := p >>> 3
      numberMask := 1#32 <<< (p >>> 3)
      highMask := 1#8 <<< (p &&& 7) }
  else { th with currentPriority := p, numberMask := 1#32 <<< p }

section SetPriority

variable (M p : ℕ) (th : Thread)

@[simp] theorem Thread.setPriority_stat : (th.setPriority M p).stat = th.stat := by
  unfold Thread.setPriority; split_ifs <;> rfl

@[simp] theorem Thread.setPriority_currentPriority : (th.setPriority M p).currentPriority = p := by
  unfold Thread.setPriority; split_ifs <;> rfl

@[simp] theorem Thread.setPriority_initPriority :
    (th.setPriority M p).initPriority = th.initPriority := by
  unfold Thread.setPriority; split_ifs <;> rfl

@[simp] theorem Thread.setPriority_error : (th.setPriority M p).error = th.error := by
  unfold Thread.setPriority; split_ifs <;> rfl

@[simp] theorem Thread.setPriority_timerLinked :
    (th.setPriority M p).timerLinked = th.timerLinked := by
  unfold Thread.setPriority; split_ifs <;> rfl

/-- The recalculated masks agree with the new priority. -/
theorem Thread.setPriority_maskOk {M p : ℕ} (hp : p < M) (th : Thread) :
    Kernel.MaskOk M (th.setPriority M p) := by
  have h3 : p >>> 3 = p / 8 := by rw [Nat.shiftRight_eq_div_pow]
  have h7 : p &&& 7 = p % 8 := Nat.and_two_pow_sub_one_eq_mod p 3
  unfold Thread.setPriority
  split_ifs with hM
  · exact ⟨hp, fun hs => absurd hM (by omega), fun _ => h3, fun _ => by rw [h3],
      fun _ => by rw [h7]⟩
  · exact ⟨hp, fun _ => rfl, fun h => absurd h hM, fun h => absurd h hM, fun h => absurd h hM⟩

end SetPriority

/-- The thread is started and not closed. -/
def Thread.Started (th : Thread) : Prop := th.stat = .ready ∨ th.stat = .suspend

instance (th : Thread) : Decidable th.Started := inferInstanceAs (Decidable (_ ∨ _))

namespace Kernel

variable {Q : Type} (M : ℕ) (k : Kernel Q) (t u : Tid)

/-! ## Model -/

/-- `_rt_thread_init` (lines 115–166) for the object `t`, from `rt_thread_init` (`systemObject`) or
`rt_thread_create`. The masks keep whatever the object contained before. -/
def rtThreadInit (priority : ℕ) (systemObject : Bool) : Option (Kernel Q) :=
  -- RT_ASSERT(priority < RT_THREAD_PRIORITY_MAX)
  if priority < M then
    some (k.modify t fun th =>
      { th with
        initPriority := priority
        currentPriority := priority
        error := .eok
        stat := .init
        cleanup := false
        timerLinked := false
        systemObject := systemObject })
  else none

/-- `rt_thread_resume` (lines 627–660). -/
def rtThreadResume : Err × Kernel Q :=
  if (k.thread t).stat = .suspend then
    -- remove from suspend list, stop the thread timer
    let k := (k.listRemove t).modify t fun th => { th with timerLinked := false }
    (.eok, k.rtScheduleInsertThread M t)
  else (.error, k)

/-- `rt_thread_suspend` (lines 585–617). -/
def rtThreadSuspend : Err × Kernel Q :=
  if (k.thread t).stat = .ready then
    let k := k.modify t fun th => { th with stat := .suspend }
    let k := k.rtScheduleRemoveThread M t
    (.eok, k.modify t fun th => { th with timerLinked := false })
  else (.error, k)

/-- `rt_thread_startup` (lines 234–265). -/
def rtThreadStartup : Option (Kernel Q) :=
  -- RT_ASSERT(thread->stat == RT_THREAD_INIT)
  if (k.thread t).stat = .init then
    let k := k.modify t fun th => th.setPriority M th.initPriority
    let k := k.modify t fun th => { th with stat := .suspend }
    let k := (k.rtThreadResume M t).2
    some (if k.currentThread = none then k else k.rtSchedule M)
  else none

/-- `rt_thread_control` with `RT_THREAD_CTRL_CHANGE_PRIORITY` (lines 516–557). -/
def rtThreadChangePriority (p : ℕ) : Kernel Q :=
  if (k.thread t).stat = .ready then
    let k := k.rtScheduleRemoveThread M t
    let k := k.modify t (Thread.setPriority M p)
    k.rtScheduleInsertThread M t
  else k.modify t (Thread.setPriority M p)

/-- `rt_thread_timeout` (lines 669–690). -/
def rtThreadTimeout : Option (Kernel Q) :=
  -- RT_ASSERT(thread->stat == RT_THREAD_SUSPEND)
  if (k.thread t).stat = .suspend then
    let k := k.modify t fun th => { th with error := .etimeout }
    let k := (k.listRemove t).rtScheduleInsertThread M t
    some (k.rtSchedule M)
  else none

/-- What `rt_timer_check` (`src/timer.c`, lines 511–536) does with the expired timer of thread `t`:
unlink it and call `rt_thread_timeout`. -/
def threadTimerExpires : Option (Kernel Q) :=
  if (k.thread t).timerLinked then
    (k.modify t fun th => { th with timerLinked := false }).rtThreadTimeout M t
  else none

/-- `rt_thread_yield` (lines 408–442). `tlist.next != tlist.prev` says that the ready list has
another thread beside this one. -/
def rtThreadYield : Option (Kernel Q) :=
  match k.currentThread with
  | none => none
  | some t =>
    let p := (k.thread t).currentPriority
    if (k.thread t).stat = .ready ∧ 1 < (k.priorityTable p).length then
      let k := k.listRemove t
      let k := { k with priorityTable := update k.priorityTable p (k.priorityTable p ++ [t]) }
      some (k.rtSchedule M)
    else some k

/-- `rt_thread_exit` (lines 78–113). -/
def rtThreadExit : Option (Kernel Q) :=
  match k.currentThread with
  | none => none
  | some t =>
    let k := k.rtScheduleRemoveThread M t
    -- change stat, remove it from timer list
    let k := k.modify t fun th => { th with stat := .close, timerLinked := false }
    let k := if (k.thread t).systemObject ∧ ¬ (k.thread t).cleanup then k
      else { k with threadDefunct := t :: k.threadDefunct }
    some (k.rtSchedule M)

/-- `rt_thread_detach` (lines 276–308). -/
def rtThreadDetach : Kernel Q :=
  let k := k.rtScheduleRemoveThread M t
  let k := k.modify t fun th => { th with stat := .close, timerLinked := false }
  if (k.thread t).cleanup then { k with threadDefunct := t :: k.threadDefunct } else k

/-- `rt_thread_delete` (lines 371–397). -/
def rtThreadDelete : Kernel Q :=
  let k := k.rtScheduleRemoveThread M t
  let k := k.modify t fun th => { th with stat := .close, timerLinked := false }
  { k with threadDefunct := t :: k.threadDefunct }

/-- One round of the loop of `rt_thread_idle_excute` (`src/idle.c`, lines 89–143): take the first
defunct thread off the list. -/
def rtThreadIdleExcute : Option (Kernel Q) :=
  match k.threadDefunct with
  | [] => none
  | t :: _ => some (k.listRemove t)

/-! ## Preservation of the ready lists -/

/-- What every function of `src/thread.c` maintains: the ready lists hold exactly the ready threads,
the masks of a started thread agree with its current priority, and a thread to be started has a
valid priority. -/
structure ThreadsOk : Prop where
  queued : Queued k {t | (k.thread t).stat = .ready}
  mask : ∀ t, (k.thread t).Started → MaskOk M (k.thread t)
  init : ∀ t, (k.thread t).stat = .init → (k.thread t).initPriority < M

variable {M k t}

theorem threadsOk_init {mem : Tid → Thread} (hmem : ∀ t, (mem t).stat = .close) :
    ThreadsOk M (rtSystemSchedulerInit mem : Kernel Q) where
  queued := by
    have hR : {t | ((rtSystemSchedulerInit mem : Kernel Q).thread t).stat = .ready} = ∅ := by
      ext t; simp [rtSystemSchedulerInit, hmem]
    rw [hR]; exact queued_init mem
  mask t ht := by simp [Thread.Started, rtSystemSchedulerInit, hmem] at ht
  init t ht := by simp [rtSystemSchedulerInit, hmem] at ht

variable {k' : Kernel Q}

/-- An operation that touches only thread `t`: the invariant has to be checked for `t` alone. -/
theorem ThreadsOk.of_update {R : Set Tid} (h : ThreadsOk M k) (hq : Queued k' R)
    (hne : ∀ u, u ≠ t → k'.thread u = k.thread u) (hR : ∀ u, u ∈ R ↔ (k'.thread u).stat = .ready)
    (hm : (k'.thread t).Started → MaskOk M (k'.thread t))
    (hi : (k'.thread t).stat = .init → (k'.thread t).initPriority < M) : ThreadsOk M k' where
  queued := by
    rwa [show {u | (k'.thread u).stat = .ready} = R from Set.ext fun u => (hR u).symm]
  mask u hu := by
    by_cases hut : u = t
    · subst hut; exact hm hu
    · rw [hne u hut] at hu ⊢; exact h.mask u hu
  init u hu := by
    by_cases hut : u = t
    · subst hut; exact hi hu
    · rw [hne u hut] at hu ⊢; exact h.init u hu

variable {f : Thread → Thread}

section

variable (h : ThreadsOk M k)
include h

/-- Writing to an object that is not queued and does not become so. -/
theorem ThreadsOk.modify (ht : (k.thread t).stat ≠ .ready) (hf : (f (k.thread t)).stat ≠ .ready)
    (hm : (f (k.thread t)).Started → MaskOk M (f (k.thread t)))
    (hi : (f (k.thread t)).stat = .init → (f (k.thread t)).initPriority < M) :
    ThreadsOk M (k.modify t f) := by
  refine h.of_update (t := t) (R := {u | (k.thread u).stat = .ready})
    (h.queued.congr rfl fun u hu => ?_) (fun u hu => modify_thread_ne _ _ hu) (fun u => ?_) ?_ ?_
  · have hut : u ≠ t := by rintro rfl; exact ht hu
    rw [modify_thread_ne _ _ hut]
  · by_cases hut : u = t
    · subst hut; simp [ht, hf]
    · simp [hut]
  · simpa using hm
  · simpa using hi

/-- Writing to a thread object without touching `stat`, priorities and masks. -/
theorem ThreadsOk.modify_data (h1 : (f (k.thread t)).stat = (k.thread t).stat)
    (h2 : (f (k.thread t)).currentPriority = (k.thread t).currentPriority)
    (h3 : (f (k.thread t)).initPriority = (k.thread t).initPriority)
    (h4 : (f (k.thread t)).number = (k.thread t).number)
    (h5 : (f (k.thread t)).highMask = (k.thread t).highMask)
    (h6 : (f (k.thread t)).numberMask = (k.thread t).numberMask) : ThreadsOk M (k.modify t f) := by
  refine h.of_update (t := t) (R := {u | (k.thread u).stat = .ready})
    (h.queued.congr rfl fun u _ => ?_) (fun u hu => modify_thread_ne _ _ hu) (fun u => ?_) ?_ ?_
  · by_cases hut : u = t
    · subst hut; simp [h2]
    · simp [hut]
  · by_cases hut : u = t
    · subst hut; simp [h1]
    · simp [hut]
  · simp only [modify_thread_self, Thread.Started, h1]
    exact fun hs => (h.mask t hs).congr h2 h4 h5 h6
  · simp only [modify_thread_self, h1, h3]
    exact h.init t

/-- `rt_schedule_insert_thread` on a thread that is not queued yet. -/
theorem ThreadsOk.insertThread (ht : (k.thread t).stat ≠ .ready) (hm : MaskOk M (k.thread t)) :
    ThreadsOk M (k.rtScheduleInsertThread M t) := by
  refine h.of_update (t := t) (h.queued.insertThread ht) (fun u hu => ?_) (fun u => ?_) ?_ ?_
  · rw [rtScheduleInsertThread_thread, modify_thread_ne _ _ hu]
  · by_cases hut : u = t
    · subst hut; simp
    · simp [hut]
  · intro _
    rw [rtScheduleInsertThread_thread, modify_thread_self]
    exact hm.congr rfl rfl rfl rfl
  · simp

/-- A thread leaves the ready lists and gets a `stat` other than ready. -/
theorem ThreadsOk.removed (hl : ∀ p, k'.priorityTable p = (k.priorityTable p).erase t)
    (hne : ∀ u, u ≠ t → k'.thread u = k.thread u) (hs : (k'.thread t).stat ≠ .ready)
    (hm : (k'.thread t).Started → MaskOk M (k'.thread t)) (hi : (k'.thread t).stat ≠ .init) :
    ThreadsOk M k' := by
  have htable : k'.priorityTable = (k.rtScheduleRemoveThread M t).priorityTable := by
    funext p; rw [hl, rtScheduleRemoveThread_priorityTable]
  have hq := (h.queued.removeThread (M := M) (t := t)).congr htable
    (fun u hu => by rw [rtScheduleRemoveThread_thread, hne u hu.2])
  refine h.of_update (t := t) hq hne (fun u => ?_) hm (fun h' => absurd h' hi)
  by_cases hut : u = t
  · subst hut; simp [hs]
  · simp [hut, hne u hut]

theorem ThreadsOk.schedule : ThreadsOk M (k.rtSchedule M) := by
  obtain ⟨c, hc⟩ := k.rtSchedule_eq M
  rw [hc]
  exact ⟨⟨h.queued.mem, h.queued.nodup⟩, h.mask, h.init⟩

end

theorem BitmapOk.schedule (h : BitmapOk M k) : BitmapOk M (k.rtSchedule M) :=
  h.congr (by simp) (by simp) (by simp)

theorem BitmapOk.modify (h : BitmapOk M k) : BitmapOk M (k.modify t f) := h.congr rfl rfl rfl

section

variable (h : ThreadsOk M k) {p : ℕ}
include h

/-- Unlinking a thread that is not ready leaves the ready queue alone. -/
theorem ThreadsOk.listRemove (ht : (k.thread t).stat ≠ .ready) :
    ThreadsOk M (k.listRemove t) ∧ (BitmapOk M k → BitmapOk M (k.listRemove t)) := by
  have hl : (k.listRemove t).priorityTable = k.priorityTable := h.queued.listRemove_priorityTable ht
  exact ⟨⟨h.queued.congr hl fun _ _ => rfl, h.mask, h.init⟩, fun hb => hb.congr hl rfl rfl⟩

/-! ## The functions of `src/thread.c` keep the ready queue

Each theorem says that the function keeps `ThreadsOk`, and the bitmap with it. -/

theorem ThreadsOk.initThread {b : Bool} (ht : (k.thread t).stat = .close)
    (hk : k.rtThreadInit M t p b = some k') : ThreadsOk M k' ∧ (BitmapOk M k → BitmapOk M k') := by
  unfold rtThreadInit at hk
  split_ifs at hk with hp
  cases hk
  refine ⟨h.modify (by simp [ht]) (by simp) (fun hs => ?_) (fun _ => hp), BitmapOk.modify⟩
  simp [Thread.Started] at hs

theorem ThreadsOk.resume :
    ThreadsOk M (k.rtThreadResume M t).2 ∧
      (BitmapOk M k → BitmapOk M (k.rtThreadResume M t).2) := by
  unfold rtThreadResume
  split_ifs with ht
  · have hnr : (k.thread t).stat ≠ .ready := by simp [ht]
    have hm := h.mask t (.inr ht)
    obtain ⟨h1, hb1⟩ := h.listRemove hnr
    have h2 : ThreadsOk M ((k.listRemove t).modify t fun th => { th with timerLinked := false }) :=
      h1.modify_data rfl rfl rfl rfl rfl rfl
    have hm2 : MaskOk M
        (((k.listRemove t).modify t fun th => { th with timerLinked := false }).thread t) :=
      hm.congr (by simp) (by simp) (by simp) (by simp)
    exact ⟨h2.insertThread (by simpa using hnr) hm2, fun hb => (hb1 hb).modify.insertThread hm2⟩
  · exact ⟨h, id⟩

theorem ThreadsOk.suspend (hM : M ≤ 256) :
    ThreadsOk M (k.rtThreadSuspend M t).2 ∧
      (BitmapOk M k → BitmapOk M (k.rtThreadSuspend M t).2) := by
  unfold rtThreadSuspend
  split_ifs with ht
  · have hm := h.mask t (.inl ht)
    dsimp only
    constructor
    · refine h.removed (t := t) (fun p => by simp) (fun u hu => by simp [hu]) (by simp)
        (fun _ => ?_) (by simp)
      exact hm.congr (by simp) (by simp) (by simp) (by simp)
    · intro hb
      refine BitmapOk.modify (BitmapOk.removeThread hb.modify hM ?_ fun p hp => ?_)
      · exact hm.congr (by simp) (by simp) (by simp) (by simp)
      · simpa using ((h.queued.mem p t).mp hp).2.symm
  · exact ⟨h, id⟩

theorem ThreadsOk.startup (hk : k.rtThreadStartup M t = some k') :
    ThreadsOk M k' ∧ (BitmapOk M k → BitmapOk M k') := by
  unfold rtThreadStartup at hk
  split_ifs at hk with ht
  have hp := h.init t ht
  have h1 : ThreadsOk M (k.modify t fun th => th.setPriority M th.initPriority) :=
    h.modify (by simp [ht]) (by simp [ht]) (fun hs => by simp [Thread.Started, ht] at hs)
      (fun _ => by simpa using hp)
  have h2 : ThreadsOk M ((k.modify t fun th => th.setPriority M th.initPriority).modify t
      fun th => { th with stat := .suspend }) := by
    refine h1.modify (by simp [ht]) (by simp) (fun _ => ?_) (by simp)
    exact (Thread.setPriority_maskOk hp (k.thread t)).congr (by simp) (by simp) (by simp) (by simp)
  obtain ⟨h3, hb3⟩ := h2.resume (t := t)
  have hb : BitmapOk M k → BitmapOk M _ := fun hb => hb3 hb.modify.modify
  simp only [some.injEq] at hk
  subst hk
  split_ifs
  · exact ⟨h3, hb⟩
  · exact ⟨h3.schedule, fun h' => (hb h').schedule⟩

theorem ThreadsOk.changePriority (hM : M ≤ 256) (hp : p < M) :
    ThreadsOk M (k.rtThreadChangePriority M t p) ∧
      (BitmapOk M k → BitmapOk M (k.rtThreadChangePriority M t p)) := by
  unfold rtThreadChangePriority
  split_ifs with ht
  · have hm := h.mask t (.inl ht)
    have hm' := Thread.setPriority_maskOk hp (k.thread t)
    have hq := h.queued.removeThread (M := M) (t := t)
    have hq' : Queued ((k.rtScheduleRemoveThread M t).modify t (Thread.setPriority M p))
        ({t | (k.thread t).stat = .ready} \ {t}) :=
      hq.congr rfl fun u hu => by rw [modify_thread_ne _ _ hu.2]
    constructor
    · refine h.of_update (t := t) (hq'.insertThread (M := M) (t := t) (by simp))
        (fun u hu => by simp [hu]) (fun u => ?_) (fun _ => ?_) (by simp)
      · by_cases hut : u = t
        · subst hut; simp
        · simp [hut]
      · exact hm'.congr (by simp) (by simp) (by simp) (by simp)
    · intro hb
      refine BitmapOk.insertThread (BitmapOk.modify (hb.removeThread hM hm fun q hq => ?_)) ?_
      · exact ((h.queued.mem q t).mp hq).2.symm
      · simpa using hm'
  · refine ⟨h.modify ht (by simpa using ht) (fun _ => Thread.setPriority_maskOk hp _) ?_,
      BitmapOk.modify⟩
    simpa using h.init t

theorem ThreadsOk.timeout (hk : k.rtThreadTimeout M t = some k') :
    ThreadsOk M k' ∧ (BitmapOk M k → BitmapOk M k') := by
  unfold rtThreadTimeout at hk
  split_ifs at hk with ht
  cases hk
  have hm := h.mask t (.inr ht)
  have h1 : ThreadsOk M (k.modify t fun th => { th with error := .etimeout }) :=
    h.modify_data rfl rfl rfl rfl rfl rfl
  obtain ⟨h2, hb2⟩ := h1.listRemove (t := t) (by simp [ht])
  have hm2 : MaskOk M
      (((k.modify t fun th => { th with error := .etimeout }).listRemove t).thread t) := by
    exact hm.congr (by simp) (by simp) (by simp) (by simp)
  exact ⟨(h2.insertThread (by simp [ht]) hm2).schedule,
    fun hb => ((hb2 hb.modify).insertThread hm2).schedule⟩

theorem ThreadsOk.yield (hk : k.rtThreadYield M = some k') :
    ThreadsOk M k' ∧ (BitmapOk M k → BitmapOk M k') := by
  unfold rtThreadYield at hk
  split at hk
  · cases hk
  · rename_i t _
    dsimp only at hk
    split_ifs at hk with hc
    · obtain ⟨hs, hlen⟩ := hc
      cases hk
      have hmem : t ∈ k.priorityTable (k.thread t).currentPriority :=
        (h.queued.mem _ t).mpr ⟨hs, rfl⟩
      -- every list keeps its members; only the order of one list changes
      have hperm : ∀ p, (update (k.listRemove t).priorityTable
          (k.thread t).currentPriority ((k.listRemove t).priorityTable
            (k.thread t).currentPriority ++ [t]) p).Perm (k.priorityTable p) := by
        intro p
        by_cases hp : p = (k.thread t).currentPriority
        · subst hp
          rw [update_self]
          exact (perm_append_singleton _ _).trans (perm_cons_erase hmem).symm
        · rw [update_of_ne hp, listRemove_priorityTable, erase_of_not_mem]
          exact fun hm => hp ((h.queued.mem p t).mp hm).2.symm
      refine ⟨ThreadsOk.schedule ⟨⟨fun p u => ?_, fun p => ?_⟩, h.mask, h.init⟩, fun hb => ?_⟩
      · exact ((hperm p).mem_iff).trans (h.queued.mem p u)
      · exact (hperm p).nodup_iff.mpr (h.queued.nodup p)
      · have hnil : ∀ p, update (k.listRemove t).priorityTable
            (k.thread t).currentPriority ((k.listRemove t).priorityTable
              (k.thread t).currentPriority ++ [t]) p ≠ [] ↔ k.priorityTable p ≠ [] := by
          intro p
          rw [Ne, Ne, ← length_eq_zero_iff, ← length_eq_zero_iff, (hperm p).length_eq]
        refine BitmapOk.schedule ⟨fun hM p hp => ?_, fun hM p hp => ?_, hb.group⟩
        · exact (hb.single hM p hp).trans (hnil p).symm
        · exact (hb.table hM p hp).trans (hnil p).symm
    · cases hk; exact ⟨h, id⟩

/-- `rt_schedule_remove_thread` followed by closing the thread, as in `rt_thread_exit`,
`rt_thread_detach` and `rt_thread_delete`. -/
theorem ThreadsOk.close (hf : (f (k.thread t)).stat = .close) :
    ThreadsOk M ((k.rtScheduleRemoveThread M t).modify t f) := by
  refine h.removed (t := t) (fun p => by simp) (fun u hu => by simp [hu]) (by simp [hf])
    (fun hs => ?_) (by simp [hf])
  simp [Thread.Started, hf] at hs

theorem ThreadsOk.defunct {l : List Tid} : ThreadsOk M { k with threadDefunct := l } :=
  ⟨⟨h.queued.mem, h.queued.nodup⟩, h.mask, h.init⟩

theorem ThreadsOk.exit (hM : M ≤ 256)
    (hstart : ∀ t, k.currentThread = some t → (k.thread t).Started)
    (hk : k.rtThreadExit M = some k') :
    ThreadsOk M k' ∧ (BitmapOk M k → BitmapOk M k') := by
  unfold rtThreadExit at hk
  split at hk
  · cases hk
  · rename_i t ht
    simp only [some.injEq] at hk
    subst hk
    have h1 := h.close (t := t)
      (f := fun th => { th with stat := .close, timerLinked := false }) rfl
    have hb1 : BitmapOk M k → BitmapOk M ((k.rtScheduleRemoveThread M t).modify t
        fun th => { th with stat := .close, timerLinked := false }) := fun hb =>
      (hb.removeThread hM (h.mask t (hstart t ht))
        fun p hp => ((h.queued.mem p t).mp hp).2.symm).modify
    split_ifs
    · exact ⟨h1.schedule, fun hb => (hb1 hb).schedule⟩
    · exact ⟨h1.defunct.schedule, fun hb => BitmapOk.schedule ((hb1 hb).congr rfl rfl rfl)⟩

theorem ThreadsOk.detach : ThreadsOk M (k.rtThreadDetach M t) := by
  have h1 := h.close (t := t) (f := fun th => { th with stat := .close, timerLinked := false }) rfl
  unfold rtThreadDetach
  dsimp only
  split_ifs
  · exact h1.defunct
  · exact h1

theorem ThreadsOk.delete : ThreadsOk M (k.rtThreadDelete M t) :=
  (h.close (t := t) (f := fun th => { th with stat := .close, timerLinked := false }) rfl).defunct

end

end Kernel

end RtThread
