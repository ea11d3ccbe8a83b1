import RtThread.Lib.Runs
import RtThread.Kernel.Thread

/-!
# The ready queue over whole runs

`threadStep M` is the state machine of `src/thread.c`: one step is one call.

* `ready_queue_invariant`: along every sequence of calls that does not close
  a thread from outside, the ready lists hold exactly the ready threads and
  the bitmap marks exactly the non-empty lists.
* `close_frame_iff`: when `rt_thread_detach` and `rt_thread_delete` leave the
  other threads alone. `_rt_thread_init` does not set `number_mask`, so
  closing a thread that was never started clears the bits that the previous
  life of the object left there (`close_unmarks_level`).
-/

namespace RtThread

open Runs List Option

/-- The calls of the thread API. -/
inductive ThreadOp
  | init (t : Tid) (priority : ℕ) (systemObject : Bool)
  | startup (t : Tid)
  | suspend (t : Tid)
  | resume (t : Tid)
  | yield
  | changePriority (t : Tid) (p : ℕ)
  | timeout (t : Tid)
  | exit
  | schedulerStart
  | idle
  | detach (t : Tid)
  | delete (t : Tid)
  deriving DecidableEq

/-- `rt_thread_detach` and `rt_thread_delete` close a thread from outside. -/
def ThreadOp.closes : ThreadOp → Bool
  | .detach _ | .delete _ => true
  | _ => false

namespace Kernel

variable {Q : Type} (M : ℕ) (k : Kernel Q)

/-- One call. An object is initialised only while it is no thread and has left the defunct list; a
thread that exits has been started. -/
def threadStep : ThreadOp → Option (Err × Kernel Q)
  | .init t p b =>
    if (k.thread t).stat = .close ∧ t ∉ k.threadDefunct then
      (k.rtThreadInit M t p b).map (.eok, ·)
    else none
  | .startup t => (k.rtThreadStartup M t).map (.eok, ·)
  | .suspend t => some (k.rtThreadSuspend M t)
  | .resume t => some (k.rtThreadResume M t)
  | .yield => (k.rtThreadYield M).map (.eok, ·)
  | .changePriority t p =>
    if p < M then some (.eok, k.rtThreadChangePriority M t p) else none
  | .timeout t => (k.rtThreadTimeout M t).map (.eok, ·)
  | .exit =>
    if ∀ t ∈ k.currentThread, (k.thread t).Started then (k.rtThreadExit M).map (.eok, ·) else none
  | .schedulerStart =>
    if k.currentThread = none then some (.eok, k.rtSystemSchedulerStart M) else none
  | .idle => k.rtThreadIdleExcute.map (.eok, ·)
  | .detach t =>
    if (k.thread t).stat = .close then none else some (.eok, k.rtThreadDetach M t)
  | .delete t =>
    if (k.thread t).stat = .close then none else some (.eok, k.rtThreadDelete M t)

variable {M k}

/-- What a call did, guards included. -/
def ThreadEffect (M : ℕ) (k k' : Kernel Q) : ThreadOp → Prop
  | .init t p b =>
    (k.thread t).stat = .close ∧ t ∉ k.threadDefunct ∧ k.rtThreadInit M t p b = some k'
  | .startup t => k.rtThreadStartup M t = some k'
  | .suspend t => k' = (k.rtThreadSuspend M t).2
  | .resume t => k' = (k.rtThreadResume M t).2
  | .yield => k.rtThreadYield M = some k'
  | .changePriority t p => p < M ∧ k' = k.rtThreadChangePriority M t p
  | .timeout t => k.rtThreadTimeout M t = some k'
  | .exit => (∀ t, k.currentThread = some t → (k.thread t).Started) ∧ k.rtThreadExit M = some k'
  | .schedulerStart => k' = k.rtSystemSchedulerStart M
  | .idle => k.rtThreadIdleExcute = some k'
  | .detach t => (k.thread t).stat ≠ .close ∧ k' = k.rtThreadDetach M t
  | .delete t => (k.thread t).stat ≠ .close ∧ k' = k.rtThreadDelete M t

variable {k' : Kernel Q} {op : ThreadOp} {r : Err}

theorem threadStep_effect (hk : k.threadStep M op = some (r, k')) : ThreadEffect M k k' op := by
  have hmap : ∀ {x : Option (Kernel Q)}, x.map (Err.eok, ·) = some (r, k') → x = some k' := by
    intro x hx
    obtain ⟨y, hy, heq⟩ := map_eq_some_iff.mp hx
    cases heq
    exact hy
  cases op <;> simp only [threadStep] at hk
  case init => split_ifs at hk with hc; exact ⟨hc.1, hc.2, hmap hk⟩
  case startup => exact hmap hk
  case suspend => rw [some.injEq] at hk; simp only [ThreadEffect, hk]
  case resume => rw [some.injEq] at hk; simp only [ThreadEffect, hk]
  case yield => exact hmap hk
  case changePriority => split_ifs at hk with hp; cases hk; exact ⟨hp, rfl⟩
  case timeout => exact hmap hk
  case exit =>
    split_ifs at hk with hc
    exact ⟨fun t ht => hc t ht, hmap hk⟩
  case schedulerStart => split_ifs at hk; cases hk; rfl
  case idle => exact hmap hk
  case detach => split_ifs at hk with hc; cases hk; exact ⟨hc, rfl⟩
  case delete => split_ifs at hk with hc; cases hk; exact ⟨hc, rfl⟩

/-! ## The defunct list -/

/-- The objects in the defunct list are closed threads. -/
def DefunctClosed (k : Kernel Q) : Prop := ∀ t ∈ k.threadDefunct, (k.thread t).stat = .close

variable {t : Tid}

section

variable (h : DefunctClosed k)
include h

theorem DefunctClosed.of_update (hd : ∀ u, u ≠ t → u ∈ k'.threadDefunct → u ∈ k.threadDefunct)
    (hne : ∀ u, u ≠ t → (k'.thread u).stat = (k.thread u).stat)
    (ht : t ∈ k'.threadDefunct → (k'.thread t).stat = .close) : DefunctClosed k' := by
  intro u hu
  by_cases hut : u = t
  · subst hut; exact ht hu
  · rw [hne u hut]; exact h u (hd u hut hu)

/-- Unlinking an object that is not a closed thread does not take anything off the list. -/
theorem DefunctClosed.unlink
    (ht : (k.thread t).stat ≠ .close) (hd : k'.threadDefunct = k.threadDefunct.erase t)
    (hne : ∀ u, u ≠ t → (k'.thread u).stat = (k.thread u).stat) : DefunctClosed k' := by
  have hnot : t ∉ k.threadDefunct := fun hu => ht (h t hu)
  rw [erase_of_not_mem hnot] at hd
  exact h.of_update (fun u _ hu => hd ▸ hu) hne fun hu => absurd (hd ▸ hu) hnot

theorem DefunctClosed.resume : DefunctClosed (k.rtThreadResume M t).2 := by
  unfold rtThreadResume
  split_ifs with ht
  · exact h.unlink (t := t) (by simp [ht]) (by simp) fun u hu => by simp [hu]
  · exact h

theorem DefunctClosed.modify {f : Thread → Thread}
    (ht : t ∈ k.threadDefunct → (f (k.thread t)).stat = .close) : DefunctClosed (k.modify t f) :=
  h.of_update (t := t) (fun _ _ hu => hu) (fun u hu => by simp [hu]) (by simpa using ht)

theorem DefunctClosed.startup (hk : k.rtThreadStartup M t = some k') : DefunctClosed k' := by
  unfold rtThreadStartup at hk
  split_ifs at hk with ht
  have hnot : t ∉ k.threadDefunct := fun hu => by simp [h t hu] at ht
  have h1 := ((h.modify (t := t) (f := fun th => th.setPriority M th.initPriority)
    fun hu => absurd hu hnot).modify (t := t) (f := fun th => { th with stat := .suspend })
    fun hu => absurd hu hnot).resume (M := M) (t := t)
  simp only [some.injEq] at hk
  subst hk
  split_ifs
  · exact h1
  · simpa [DefunctClosed] using h1

theorem DefunctClosed.changePriority {p : ℕ} : DefunctClosed (k.rtThreadChangePriority M t p) := by
  unfold rtThreadChangePriority
  split_ifs with ht
  · exact h.unlink (t := t) (by simp [ht]) (by simp) fun u hu => by simp [hu]
  · exact h.modify fun hu => by simpa using h t hu

theorem DefunctClosed.timeout (hk : k.rtThreadTimeout M t = some k') : DefunctClosed k' := by
  unfold rtThreadTimeout at hk
  split_ifs at hk with ht
  cases hk
  exact h.unlink (t := t) (by simp [ht]) (by simp) fun u hu => by simp [hu]

theorem DefunctClosed.suspend : DefunctClosed (k.rtThreadSuspend M t).2 := by
  unfold rtThreadSuspend
  split_ifs with ht
  · exact h.unlink (t := t) (by simp [ht]) (by simp) fun u hu => by simp [hu]
  · exact h

/-- Every call keeps the defunct list. -/
theorem DefunctClosed.step (hk : k.threadStep M op = some (r, k')) : DefunctClosed k' := by
  -- closing a thread puts it on the list, or does not
  have hclose : ∀ (t : Tid) (l : List Tid), (l = k.threadDefunct.erase t ∨
      l = t :: k.threadDefunct.erase t) → DefunctClosed { (k.rtScheduleRemoveThread M t).modify t
        (fun th => { th with stat := .close, timerLinked := false }) with threadDefunct := l } := by
    intro t l hl
    refine h.of_update (t := t) (fun u hut hu => ?_) (fun u hu => by simp [hu]) (fun _ => by simp)
    rcases hl with rfl | rfl
    · exact mem_of_mem_erase hu
    · exact mem_of_mem_erase ((mem_cons.mp hu).resolve_left hut)
  have he := threadStep_effect hk
  cases op with
  | init t p b =>
    obtain ⟨-, ht, hk₁⟩ := he
    unfold rtThreadInit at hk₁
    split_ifs at hk₁
    cases hk₁
    exact h.modify fun hu => absurd hu ht
  | startup t => exact h.startup he
  | suspend t => rw [show k' = _ from he]; exact h.suspend
  | resume t => rw [show k' = _ from he]; exact h.resume
  | yield =>
    change k.rtThreadYield M = some k' at he
    unfold rtThreadYield at he
    split at he
    · cases he
    · dsimp only at he
      split_ifs at he <;> cases he
      · intro u hu
        simpa using h u (mem_of_mem_erase (by simpa using hu))
      · exact h
  | changePriority t p => rw [he.2]; exact h.changePriority
  | timeout t => exact h.timeout he
  | exit =>
    obtain ⟨-, hk₁⟩ := he
    unfold rtThreadExit at hk₁
    split at hk₁
    · cases hk₁
    · rename_i t _
      simp only [some.injEq] at hk₁
      subst hk₁
      split_ifs
      · simpa [DefunctClosed] using hclose t _ (.inl rfl)
      · simpa [DefunctClosed] using hclose t _ (.inr rfl)
  | schedulerStart =>
    obtain ⟨c, hc⟩ := k.rtSystemSchedulerStart_eq M
    rw [show k' = _ from he, hc]
    exact h
  | idle =>
    change k.rtThreadIdleExcute = some k' at he
    unfold rtThreadIdleExcute at he
    split at he <;> cases he
    exact fun u hu => h u (mem_of_mem_erase hu)
  | detach t =>
    rw [he.2]
    unfold rtThreadDetach
    dsimp only
    split_ifs
    · simpa [DefunctClosed] using hclose t _ (.inr rfl)
    · simpa [DefunctClosed] using hclose t _ (.inl rfl)
  | delete t =>
    rw [he.2]
    simpa [rtThreadDelete] using hclose t _ (.inr rfl)

end

/-! ## The ready queue -/

/-- Every call keeps the ready lists, and every call but the two that close a thread from outside
keeps the bitmap. -/
theorem ThreadsOk.step (hM : M ≤ 256)
    (h : ThreadsOk M k) (hd : DefunctClosed k) (hk : k.threadStep M op = some (r, k')) :
    ThreadsOk M k' ∧ (op.closes = false → BitmapOk M k → BitmapOk M k') := by
  have he := threadStep_effect hk
  cases op with
  | init t p b =>
    obtain ⟨h1, h2⟩ := h.initThread he.1 he.2.2
    exact ⟨h1, fun _ => h2⟩
  | startup t =>
    obtain ⟨h1, h2⟩ := h.startup he
    exact ⟨h1, fun _ => h2⟩
  | suspend t =>
    rw [show k' = _ from he]
    obtain ⟨h1, h2⟩ := h.suspend (t := t) hM
    exact ⟨h1, fun _ => h2⟩
  | resume t =>
    rw [show k' = _ from he]
    obtain ⟨h1, h2⟩ := h.resume (t := t)
    exact ⟨h1, fun _ => h2⟩
  | yield =>
    obtain ⟨h1, h2⟩ := h.yield he
    exact ⟨h1, fun _ => h2⟩
  | changePriority t p =>
    rw [he.2]
    obtain ⟨h1, h2⟩ := h.changePriority (t := t) hM he.1
    exact ⟨h1, fun _ => h2⟩
  | timeout t =>
    obtain ⟨h1, h2⟩ := h.timeout he
    exact ⟨h1, fun _ => h2⟩
  | exit =>
    obtain ⟨h1, h2⟩ := h.exit hM he.1 he.2
    exact ⟨h1, fun _ => h2⟩
  | schedulerStart =>
    obtain ⟨c, hc⟩ := k.rtSystemSchedulerStart_eq M
    rw [show k' = _ from he, hc]
    exact ⟨⟨⟨h.queued.mem, h.queued.nodup⟩, h.mask, h.init⟩, fun _ hb => hb.congr rfl rfl rfl⟩
  | idle =>
    change k.rtThreadIdleExcute = some k' at he
    unfold rtThreadIdleExcute at he
    split at he <;> cases he
    rename_i t l hl
    obtain ⟨h1, h2⟩ := h.listRemove (t := t) (by simp [hd t (by simp [hl])])
    exact ⟨h1, fun _ => h2⟩
  | detach t => rw [he.2]; exact ⟨h.detach, fun hc => by simp [ThreadOp.closes] at hc⟩
  | delete t => rw [he.2]; exact ⟨h.delete, fun hc => by simp [ThreadOp.closes] at hc⟩

/-- The ready lists in every reachable state. -/
theorem ThreadsOk.run {mem : Tid → Thread} {tr : List (ThreadOp × Err)} (hM : M ≤ 256)
    (hmem : ∀ t, (mem t).stat = .close)
    (hrun : Run (threadStep M) (rtSystemSchedulerInit mem) tr k) :
    ThreadsOk M k ∧ DefunctClosed k := by
  refine hrun.inv (I := fun k => ThreadsOk M k ∧ DefunctClosed k) ?_ fun k op r k' h hk => ?_
  · exact ⟨threadsOk_init hmem, by simp [DefunctClosed, rtSystemSchedulerInit]⟩
  · exact ⟨(h.1.step hM h.2 hk).1, h.2.step hk⟩

/-- In every state that `rt_thread_startup`, `rt_thread_suspend`, `rt_thread_resume`,
`rt_thread_yield`, changes of priority, timeouts and `rt_thread_exit` can reach, ready list `p`
holds exactly the ready threads of priority `p`, each once, and the bitmap marks `p` iff the list is
not empty. -/
theorem ready_queue_invariant {mem : Tid → Thread} {tr : List (ThreadOp × Err)} (hM : M ≤ 256)
    (hmem : ∀ t, (mem t).stat = .close) (hrun : Run (threadStep M) (rtSystemSchedulerInit mem) tr k)
    (hops : ∀ e ∈ tr, e.1.closes = false) (p : ℕ) :
    (∀ t, t ∈ k.priorityTable p ↔ (k.thread t).stat = .ready ∧ (k.thread t).currentPriority = p) ∧
      (k.priorityTable p).Nodup ∧ (p < M → (Marked M k p ↔ k.priorityTable p ≠ [])) := by
  have h : ThreadsOk M k ∧ DefunctClosed k ∧ BitmapOk M k := by
    refine hrun.invTrace (I := fun tr k => (∀ e ∈ tr, e.1.closes = false) →
      ThreadsOk M k ∧ DefunctClosed k ∧ BitmapOk M k) ?_ (fun tr k op r k' ih hk hops => ?_) hops
    · exact fun _ => ⟨threadsOk_init hmem, by simp [DefunctClosed, rtSystemSchedulerInit],
        bitmapOk_init mem⟩
    · obtain ⟨h1, h2, h3⟩ := ih fun e he => hops e (by simp [he])
      obtain ⟨h4, h5⟩ := h1.step hM h2 hk
      exact ⟨h4, h2.step hk, h5 (hops (op, r) (by simp)) h3⟩
  exact ⟨h.1.queued.mem p, h.1.queued.nodup p, fun hp => h.2.2.marked_iff hM hp⟩

/-- Thread objects in zeroed memory. -/
def zeroedThreads : Tid → Thread := fun _ =>
  { stat := .close, currentPriority := 0, initPriority := 0, number := 0, highMask := 0,
    numberMask := 0, error := .eok, eventSet := 0, eventInfo := 0, timerLinked := false,
    cleanup := false, systemObject := true }

/-- Two threads of different priority; the running one suspends itself after the other was moved to
its level. -/
def sampleOps : List ThreadOp :=
  [.init 0 20 true, .init 1 7 true, .startup 0, .startup 1, .schedulerStart,
   .changePriority 0 7, .suspend 1]

theorem sampleOps_possible : (exec (threadStep 32)
    (rtSystemSchedulerInit zeroedThreads : Kernel Empty) sampleOps).isSome := by decide

theorem ready_queue_invariant_sample :
    ∃ (k : Kernel Empty) (tr : List (ThreadOp × Err)),
      Run (threadStep 32) (rtSystemSchedulerInit zeroedThreads) tr k ∧
      (∀ e ∈ tr, e.1.closes = false) ∧ k.priorityTable 7 = [0] ∧ Marked 32 k 7 := by
  have hrun := Run.of_isSome sampleOps_possible
  have hops : ∀ e ∈ sampleOps.zip ((exec (threadStep 32) (rtSystemSchedulerInit zeroedThreads)
      sampleOps).get sampleOps_possible).1, e.1.closes = false := by decide
  have hlist : ((exec (threadStep 32) (rtSystemSchedulerInit zeroedThreads)
      sampleOps).get sampleOps_possible).2.priorityTable 7 = [0] := by decide
  have h := ready_queue_invariant (by decide) (fun _ => rfl) hrun hops 7
  exact ⟨_, _, hrun, hops, hlist, (h.2.2 (by decide)).mpr (by simp [hlist])⟩

/-! ## Closing a thread from outside -/

variable (M k) in
/-- Removing thread `t` clears the mark of level `q`, if the list of `t`'s priority is empty then:
the masks in `t`'s object cover `q`. -/
def Clears (t : Tid) (q : ℕ) : Prop :=
  if M ≤ 32 then (k.thread t).numberMask.getLsbD q = true
  else
    q / 8 = (k.thread t).number ∧ (k.thread t).highMask.getLsbD (q % 8) = true ∨
    (k.thread t).numberMask.getLsbD (q / 8) = true ∧
      k.readyTable (k.thread t).number &&& ~~~(k.thread t).highMask = 0

theorem getLsbD_and_not {w i : ℕ} (x m : BitVec w) (hi : i < w) :
    (x &&& ~~~m).getLsbD i = true ↔ x.getLsbD i = true ∧ ¬ m.getLsbD i = true := by
  simp [hi]

/-- The marks that are left after `rt_schedule_remove_thread`. -/
theorem marked_removeThread_iff (hM : M ≤ 256) {q : ℕ} (hq : q < M) :
    Marked M (k.rtScheduleRemoveThread M t) q ↔
      Marked M k q ∧
        ¬ ((k.priorityTable (k.thread t).currentPriority).erase t = [] ∧ Clears M k t q) := by
  have hno : ¬ (k.priorityTable (k.thread t).currentPriority).erase t = [] →
      (Marked M (k.rtScheduleRemoveThread M t) q ↔ Marked M k q) := by
    intro he
    have hg := rtScheduleRemoveThread_readyPriorityGroup M k t
    rw [if_neg fun h' => he h'.1] at hg
    unfold Marked
    rw [hg]
    split_ifs
    · rfl
    · rw [rtScheduleRemoveThread_readyTable _ _ _ (by omega), if_neg fun h' => he h'.1]
  by_cases he : (k.priorityTable (k.thread t).currentPriority).erase t = []
  · simp only [he, true_and]
    unfold Marked Clears
    rw [rtScheduleRemoveThread_readyPriorityGroup]
    split_ifs with hs hc hc
    · exact getLsbD_and_not _ _ (by omega)
    · exact absurd ⟨he, fun hb => absurd hb (by omega)⟩ hc
    · have hz := hc.2 (by omega)
      rw [rtScheduleRemoveThread_readyTable _ _ _ (by omega), getLsbD_and_not _ _ (by omega)]
      split_ifs with hn
      · rw [getLsbD_and_not _ _ (by omega)]
        simp only [hn, hz, true_and, and_true, not_or]
        exact and_and_and_comm.trans (and_congr_right' and_comm)
      · have hn' : ¬ q / 8 = (k.thread t).number := fun h' => hn ⟨he, h'⟩
        simp only [hn', hz, false_and, false_or, and_true]
        exact and_right_comm
    · have hz : ¬ k.readyTable (k.thread t).number &&& ~~~(k.thread t).highMask = 0 :=
        fun h0 => hc ⟨he, fun _ => h0⟩
      rw [rtScheduleRemoveThread_readyTable _ _ _ (by omega)]
      split_ifs with hn
      · rw [getLsbD_and_not _ _ (by omega)]
        simp only [hn, hz, true_and, and_false, or_false]
        exact and_assoc.symm
      · have hn' : ¬ q / 8 = (k.thread t).number := fun h' => hn ⟨he, h'⟩
        simp only [hn', hz, false_and, and_false, or_false, not_false_eq_true, and_true]
  · rw [hno he]
    exact (and_iff_left fun h' => he h'.1).symm

/-- The masks of a started thread cover its own level only. -/
theorem MaskOk.not_clears (hM : M ≤ 256) (h : MaskOk M (k.thread t)) {q : ℕ}
    (hq : q < M) (hne : q ≠ (k.thread t).currentPriority) (hmark : Marked M k q) :
    ¬ Clears M k t q := by
  unfold Clears
  unfold Marked at hmark
  split_ifs at hmark ⊢ with hs
  · rw [h.single hs, getLsbD_one_shiftLeft _ (by omega)]
    simpa using hne
  · rintro (⟨hn, hh⟩ | ⟨hg, hz⟩)
    · rw [h.highMask (by omega), getLsbD_one_shiftLeft _ (by omega), decide_eq_true_iff] at hh
      rw [h.number (by omega)] at hn
      omega
    · rw [h.numberMask (by omega), getLsbD_one_shiftLeft _ (by omega), decide_eq_true_iff] at hg
      rw [h.number (by omega), ← hg, h.highMask (by omega)] at hz
      -- the bit of `q` itself survives, so the byte is not empty
      refine (byte_ne_zero_iff _).mpr ⟨q % 8, by omega, ?_⟩ hz
      rw [getLsbD_and_not_one_shiftLeft _ _ (by omega)]
      exact ⟨hmark.2, by omega⟩

/-- Between `k` and `k'` nothing happened to the threads other than `t`: they are in the same ready
lists, and a level that still has a ready thread is still marked. -/
def OthersKept (M : ℕ) (k k' : Kernel Q) (t : Tid) : Prop :=
  (∀ u, u ≠ t → ∀ p, u ∈ k'.priorityTable p ↔ u ∈ k.priorityTable p) ∧
    ∀ q < M, Marked M k q → k'.priorityTable q ≠ [] → Marked M k' q

/-- Closing `t` keeps the other threads iff `rt_schedule_remove_thread` does. -/
theorem othersKept_iff (hM : M ≤ 256)
    (h1 : k'.priorityTable = (k.rtScheduleRemoveThread M t).priorityTable)
    (h2 : k'.readyPriorityGroup = (k.rtScheduleRemoveThread M t).readyPriorityGroup)
    (h3 : k'.readyTable = (k.rtScheduleRemoveThread M t).readyTable) :
    OthersKept M k k' t ↔
      ((k.priorityTable (k.thread t).currentPriority).erase t ≠ [] ∨
        ∀ q < M, Marked M k q → (k.priorityTable q).erase t ≠ [] → ¬ Clears M k t q) := by
  have hmark : ∀ q, Marked M k' q ↔ Marked M (k.rtScheduleRemoveThread M t) q := by
    intro q; unfold Marked; rw [h2, h3]
  have hlist : ∀ q, k'.priorityTable q = (k.priorityTable q).erase t := by
    intro q; rw [h1, rtScheduleRemoveThread_priorityTable]
  have hmem : ∀ u, u ≠ t → ∀ p, u ∈ k'.priorityTable p ↔ u ∈ k.priorityTable p := by
    intro u hu p; rw [hlist, mem_erase_of_ne hu]
  constructor
  · rintro ⟨-, h⟩
    by_cases he : (k.priorityTable (k.thread t).currentPriority).erase t = []
    · refine .inr fun q hq hm hl hc => ?_
      have := h q hq hm (by rw [hlist]; exact hl)
      rw [hmark, marked_removeThread_iff hM hq] at this
      exact this.2 ⟨he, hc⟩
    · exact .inl he
  · intro h
    refine ⟨hmem, fun q hq hm hl => ?_⟩
    rw [hmark, marked_removeThread_iff hM hq]
    rw [hlist] at hl
    exact ⟨hm, fun hc => h.elim (fun he => he hc.1) fun hall => hall q hq hm hl hc.2⟩

/-- `rt_thread_detach` and `rt_thread_delete`, called in any reachable state on any thread, leave
the other threads alone iff the thread has been started, or another thread of its priority is ready,
or the masks left in its object cover no marked level with a ready thread. -/
theorem close_frame_iff {mem : Tid → Thread} {tr : List (ThreadOp × Err)} (hM : M ≤ 256)
    (hmem : ∀ t, (mem t).stat = .close)
    (hrun : Run (threadStep M) (rtSystemSchedulerInit mem) tr k) (t : Tid) :
    (OthersKept M k (k.rtThreadDetach M t) t ∧ OthersKept M k (k.rtThreadDelete M t) t) ↔
      ((k.thread t).Started ∨
        (k.priorityTable (k.thread t).currentPriority).erase t ≠ [] ∨
        ∀ q < M, Marked M k q → (k.priorityTable q).erase t ≠ [] → ¬ Clears M k t q) := by
  obtain ⟨h, -⟩ := ThreadsOk.run hM hmem hrun
  have hdelete := othersKept_iff hM (show (k.rtThreadDelete M t).priorityTable = _ from rfl) rfl rfl
  have hdetach : (k.rtThreadDetach M t).priorityTable =
      (k.rtScheduleRemoveThread M t).priorityTable := by
    unfold rtThreadDetach; dsimp only; split_ifs <;> rfl
  rw [hdelete, othersKept_iff hM hdetach
    (by unfold rtThreadDetach; dsimp only; split_ifs <;> rfl)
    (by unfold rtThreadDetach; dsimp only; split_ifs <;> rfl), and_self]
  constructor
  · exact .inr
  · rintro (hs | hc)
    · by_cases he : (k.priorityTable (k.thread t).currentPriority).erase t = []
      · refine .inr fun q hq hm hl => (h.mask t hs).not_clears hM hq ?_ hm
        rintro rfl
        exact hl he
      · exact .inl he
    · exact hc

/-- Thread 1 lives and is detached at priority 5, where thread 0 is ready, and its object is
initialised again with priority 6. -/
def staleMaskOps : List ThreadOp :=
  [.init 0 5 true, .init 1 5 true, .startup 0, .startup 1, .detach 1, .init 1 6 true]

theorem staleMaskOps_possible : (exec (threadStep 32)
    (rtSystemSchedulerInit zeroedThreads : Kernel Empty) staleMaskOps).isSome := by decide

/-- Detaching or deleting the thread before it is started unmarks the level of the ready thread 0.
-/
theorem close_unmarks_level :
    ∃ (k : Kernel Empty) (tr : List (ThreadOp × Err)),
      Run (threadStep 32) (rtSystemSchedulerInit zeroedThreads) tr k ∧
      (k.thread 1).stat = .init ∧ (k.thread 0).stat = .ready ∧ Marked 32 k 5 ∧
      0 ∈ (k.rtThreadDetach 32 1).priorityTable 5 ∧ ¬ Marked 32 (k.rtThreadDetach 32 1) 5 ∧
      0 ∈ (k.rtThreadDelete 32 1).priorityTable 5 ∧ ¬ Marked 32 (k.rtThreadDelete 32 1) 5 ∧
      ¬ OthersKept 32 k (k.rtThreadDetach 32 1) 1 := by
  refine ⟨_, _, Run.of_isSome staleMaskOps_possible, by decide, by decide, by decide, by decide,
    by decide, by decide, by decide, fun h => ?_⟩
  exact absurd (h.2 5 (by decide) (by decide) (by decide)) (by decide)

/-- In the same state thread 0, which is started, can be closed. -/
theorem close_frame_iff_sample :
    ∃ (k : Kernel Empty) (tr : List (ThreadOp × Err)),
      Run (threadStep 32) (rtSystemSchedulerInit zeroedThreads) tr k ∧
      OthersKept 32 k (k.rtThreadDetach 32 0) 0 ∧ OthersKept 32 k (k.rtThreadDelete 32 0) 0 := by
  have hrun := Run.of_isSome staleMaskOps_possible
  have h := close_frame_iff (by decide) (fun _ => rfl) hrun 0
  exact ⟨_, _, hrun, h.mpr (.inl (by decide))⟩

end Kernel

end RtThread
