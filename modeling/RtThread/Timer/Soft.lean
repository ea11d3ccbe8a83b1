import RtThread.Timer.SkipList
import RtThread.Timer.Activated

/-!
# The soft timers

The loop of `rt_soft_timer_check` reads the next node before it calls a timeout
function. If the timeout function stops the timer of that node, the loop goes on with
a node that points to itself: the timer fires though it is stopped, and the loop does
not end (`soft_timer_fires_stopped`).

* `round_linked_iff`: the next timer that fires is linked exactly if the timeout
  function leaves the next timer linked or not due (`LeavesNext`).
* `soft_timer_check_fires_linked`: in an execution all of whose timeout functions do
  so, every timer that fires is linked; if they only stop timers, the loop ends.
* `timer_thread_suspends_iff`: the timer thread suspends itself with an empty list only,
  just if the next timeout is not `RT_TICK_MAX`.
-/

namespace RtThread

open Runs List Function Option

namespace TimerSys

variable {cfg : SkipConfig} {s s' s'' : TimerSys} {t u : TimerId}

/-! ## What the calls leave alone -/

/-- The kinds of the timers and the thread timer are as before. -/
structure SameKinds (s s' : TimerSys) : Prop where
  thread : s'.threadTimer = s.threadTimer
  list : ∀ t, (s'.timer t).list = (s.timer t).list

theorem SameKinds.refl (s : TimerSys) : SameKinds s s := ⟨rfl, fun _ => rfl⟩

theorem SameKinds.trans (h : SameKinds s s') (h' : SameKinds s' s'') : SameKinds s s'' :=
  ⟨h'.thread.trans h.thread, fun t => (h'.list t).trans (h.list t)⟩

/-- The rows are in order, and the thread timer of the timer thread is a hard timer
(`rt_thread_init`). -/
structure SoftShape (cfg : SkipConfig) (s : TimerSys) : Prop where
  shape : Shape cfg s
  thread : (s.timer s.threadTimer).list = .hard

theorem SoftShape.congr (h : SoftShape cfg s) (hshape : Shape cfg s') (hkinds : SameKinds s s') :
    SoftShape cfg s' := by
  refine ⟨hshape, ?_⟩
  rw [hkinds.thread, hkinds.list]
  exact h.thread

theorem sameKinds_modify {f : Timer → Timer} (hf : ∀ tm, (f tm).soft = tm.soft) :
    SameKinds s (s.modify t f) :=
  ⟨rfl, list_modify hf⟩

theorem sameKinds_stop (s : TimerSys) (t : TimerId) : SameKinds s (s.rtTimerStop t).2 := by
  rcases rtTimerStop_cases s t with ⟨-, heq⟩ | ⟨-, heq⟩
  · have hrm : SameKinds s (s.remove t) := ⟨rfl, fun _ => rfl⟩
    rw [heq]
    exact hrm.trans (sameKinds_modify fun _ => rfl)
  · rw [heq]
    exact .refl s

theorem sameKinds_resumeTimerThread (s : TimerSys) : SameKinds s s.resumeTimerThread := by
  unfold resumeTimerThread
  split_ifs
  · exact (sameKinds_stop s s.threadTimer).trans ⟨rfl, fun _ => rfl⟩
  · exact .refl s

section

variable (h : Shape cfg s)
include h

theorem sameKinds_start (hs : s.rtTimerStart cfg t = some s') : SameKinds s s' := by
  obtain ⟨lo, heads, s₁, hst, heq⟩ := rtTimerStart_spec h (rtTimerStart_some hs)
  rw [heq] at hs
  cases hs
  have h₁ : SameKinds s s₁ := ⟨hst.threadTimer, hst.list⟩
  split_ifs
  · exact h₁.trans (sameKinds_resumeTimerThread s₁)
  · exact h₁

theorem sameKinds_call {c : TimerCall} (hs : s.call cfg c = some s') : SameKinds s s' := by
  cases c with
  | start t => exact sameKinds_start h hs
  | stop t =>
    cases hs
    exact sameKinds_stop s t
  | control t cmd =>
    cases hs
    cases cmd with
    | setTime tick =>
      exact sameKinds_modify (f := fun tm => { tm with initTick := tick }) fun _ => rfl
    | setOneshot =>
      exact sameKinds_modify (f := fun tm => { tm with periodic := false }) fun _ => rfl
    | setPeriodic =>
      exact sameKinds_modify (f := fun tm => { tm with periodic := true }) fun _ => rfl
  | tick =>
    cases hs
    exact ⟨rfl, fun _ => rfl⟩

theorem sameKinds_runCalls {cs : List TimerCall} (hs : runCalls cfg cs s = some s') :
    SameKinds s s' := by
  have hinv := runCalls_induction (I := fun s₁ => Shape cfg s₁ ∧ SameKinds s s₁)
    (fun c _ s₁ s₂ h₁ hs => ⟨h₁.1.call hs, h₁.2.trans (sameKinds_call h₁.1 hs)⟩)
    ⟨h, .refl s⟩ hs
  exact hinv.2

theorem sameKinds_rearm (hs : s.rearm cfg t = some s') : SameKinds s s' := by
  have hd : SameKinds s (s.deactivate t) := sameKinds_modify fun _ => rfl
  unfold rearm at hs
  split_ifs at hs
  · exact hd.trans (sameKinds_start (h.modify fun _ => rfl) hs)
  · cases hs
    exact hd

end

/-- Timer `u` is linked and expires as before. -/
structure SameTimer (cfg : SkipConfig) (s s' : TimerSys) (u : TimerId) : Prop where
  linked : Linked cfg s' u ↔ Linked cfg s u
  timeout : (s'.timer u).timeoutTick = (s.timer u).timeoutTick
  tick : s'.tick = s.tick

theorem SameTimer.trans (h : SameTimer cfg s s' u) (h' : SameTimer cfg s' s'' u) :
    SameTimer cfg s s'' u :=
  ⟨h'.linked.trans h.linked, h'.timeout.trans h.timeout, h'.tick.trans h.tick⟩

theorem sameTimer_deactivate (cfg : SkipConfig) (s : TimerSys) (t u : TimerId) :
    SameTimer cfg s (s.deactivate t) u := by
  refine ⟨linked_deactivate, ?_, rfl⟩
  by_cases hu : u = t
  · subst hu
    simp [deactivate, TimerSys.modify]
  · simp [deactivate, TimerSys.modify, hu]

theorem sameTimer_stop (h : Shape cfg s) (hut : u ≠ t) : SameTimer cfg s (s.rtTimerStop t).2 u := by
  rcases rtTimerStop_cases s t with ⟨-, heq⟩ | ⟨-, heq⟩
  · have hrm : SameTimer cfg s (s.remove t) u :=
      ⟨(linked_remove h).trans (and_iff_right hut), rfl, rfl⟩
    rw [heq]
    exact hrm.trans (sameTimer_deactivate cfg _ t u)
  · rw [heq]
    exact ⟨Iff.rfl, rfl, rfl⟩

/-- `rt_timer_start` leaves the other soft timers alone. -/
theorem sameTimer_start (h : SoftShape cfg s) (hut : u ≠ t) (hu : (s.timer u).list = .soft)
    (hs : s.rtTimerStart cfg t = some s') : SameTimer cfg s s' u := by
  obtain ⟨lo, heads, s₁, hst, heq⟩ := rtTimerStart_spec h.shape (rtTimerStart_some hs)
  rw [heq] at hs
  cases hs
  have h₁ : SameTimer cfg s s₁ u := by
    refine ⟨(hst.linked_iff h.shape).trans ?_, by rw [hst.timer_of_ne hut], hst.tick⟩
    simp [hut]
  split_ifs
  · refine h₁.trans ?_
    unfold resumeTimerThread
    split_ifs
    · have hthread : u ≠ s₁.threadTimer := by
        rintro rfl
        rw [hst.threadTimer, h.thread] at hu
        cases hu
      have hstop : SameTimer cfg s₁ (s₁.rtTimerStop s₁.threadTimer).2 u :=
        sameTimer_stop (hst.shape h.shape) hthread
      exact ⟨hstop.linked, hstop.timeout, hstop.tick⟩
    · exact ⟨Iff.rfl, rfl, rfl⟩
  · exact h₁

theorem sameTimer_rearm (h : SoftShape cfg s) (hut : u ≠ t) (hu : (s.timer u).list = .soft)
    (hs : s.rearm cfg t = some s') : SameTimer cfg s s' u := by
  have hd := sameTimer_deactivate cfg s t u
  have hkinds : SameKinds s (s.deactivate t) := sameKinds_modify fun _ => rfl
  have hshape : SoftShape cfg (s.deactivate t) := h.congr (h.shape.modify fun _ => rfl) hkinds
  unfold rearm at hs
  split_ifs at hs
  · exact hd.trans (sameTimer_start hshape hut (by rw [hkinds.list, hu]) hs)
  · cases hs
    exact hd

/-! ## Timeout functions that only stop timers -/

/-- Soft timers leave the rows; the others keep their times. -/
structure Quiet (s s' : TimerSys) : Prop where
  rows : ∀ r, (s'.rows .soft r).Sublist (s.rows .soft r)
  tick : s'.tick = s.tick
  timeout : ∀ t, (s'.timer t).timeoutTick = (s.timer t).timeoutTick
  init : ∀ t, (s'.timer t).initTick = (s.timer t).initTick
  periodic : ∀ t, (s'.timer t).periodic = (s.timer t).periodic

theorem Quiet.trans (h : Quiet s s') (h' : Quiet s' s'') : Quiet s s'' where
  rows r := (h'.rows r).trans (h.rows r)
  tick := h'.tick.trans h.tick
  timeout t := (h'.timeout t).trans (h.timeout t)
  init t := (h'.init t).trans (h.init t)
  periodic t := (h'.periodic t).trans (h.periodic t)

section

variable (s : TimerSys)

theorem Quiet.refl : Quiet s s := ⟨fun _ => .refl _, rfl, fun _ => rfl, fun _ => rfl, fun _ => rfl⟩

variable (t : TimerId)

theorem quiet_remove : Quiet s (s.remove t) :=
  ⟨fun _ => erase_sublist, rfl, fun _ => rfl, fun _ => rfl, fun _ => rfl⟩

theorem quiet_deactivate : Quiet s (s.deactivate t) := by
  have hsame : ∀ u, (s.deactivate t).timer u = s.timer u ∨
      (s.deactivate t).timer u = { s.timer u with activated := false } := fun u => by
    by_cases hu : u = t
    · subst hu
      exact .inr (by simp [deactivate, TimerSys.modify])
    · exact .inl (by simp [deactivate, TimerSys.modify, hu])
  refine ⟨fun _ => .refl _, rfl, fun u => ?_, fun u => ?_, fun u => ?_⟩
  · rcases hsame u with h | h <;> rw [h]
  · rcases hsame u with h | h <;> rw [h]
  · rcases hsame u with h | h <;> rw [h]

theorem quiet_stop : Quiet s (s.rtTimerStop t).2 := by
  rcases rtTimerStop_cases s t with ⟨-, heq⟩ | ⟨-, heq⟩
  · rw [heq]
    exact (quiet_remove s t).trans (quiet_deactivate _ t)
  · rw [heq]
    exact .refl s

theorem quiet_resumeTimerThread : Quiet s s.resumeTimerThread := by
  unfold resumeTimerThread
  split_ifs
  · have h := quiet_stop s s.threadTimer
    exact ⟨h.rows, h.tick, h.timeout, h.init, h.periodic⟩
  · exact .refl s

end

/-- The timeout function makes no calls but of `rt_timer_stop`. -/
def OnlyStops (calls : List TimerCall) : Prop := ∀ c ∈ calls, ∃ t, c = .stop t

theorem quiet_runCalls (cfg : SkipConfig) {calls : List TimerCall} (hcalls : OnlyStops calls)
    (s : TimerSys) :
    ∃ s', runCalls cfg calls s = some s' ∧ Quiet s s' := by
  induction calls generalizing s with
  | nil => exact ⟨s, rfl, .refl s⟩
  | cons c calls ih =>
    obtain ⟨t, rfl⟩ := hcalls c (by simp)
    obtain ⟨s', hs', hq⟩ := ih (fun c hc => hcalls c (by simp [hc])) (s.rtTimerStop t).2
    exact ⟨s', hs', (quiet_stop s t).trans hq⟩

/-- The soft timers that are due. -/
def softDue (cfg : SkipConfig) (s : TimerSys) : ℕ :=
  (s.rows .soft (cfg.level - 1)).countP fun t => s.Due t s.tick

/-- The periodic timers of the list have times in range. -/
def PeriodicOk (cfg : SkipConfig) (s : TimerSys) : Prop :=
  ∀ t ∈ s.rows .soft (cfg.level - 1), (s.timer t).periodic = true → TickOk (s.timer t).initTick

theorem due_congr (htick : s'.tick = s.tick)
    (htimeout : (s'.timer t).timeoutTick = (s.timer t).timeoutTick) :
    s'.Due t s'.tick ↔ s.Due t s.tick := by
  unfold Due
  rw [htick, htimeout]

theorem Quiet.softDue_le (h : Quiet s s') : s'.softDue cfg ≤ s.softDue cfg := by
  have hcongr : s'.softDue cfg = (s'.rows .soft (cfg.level - 1)).countP fun t => s.Due t s.tick :=
    countP_congr fun t _ => by simp only [due_congr h.tick (h.timeout t)]
  rw [hcongr]
  exact (h.rows _).countP_le

theorem Quiet.periodicOk (h : Quiet s s') (hper : PeriodicOk cfg s) : PeriodicOk cfg s' := by
  intro t ht
  rw [h.periodic, h.init]
  exact hper t ((h.rows _).mem ht)

/-- A timer that is started with a time in range is not due. -/
theorem start_softDue (h : Shape cfg s) (hper : PeriodicOk cfg s)
    (hinit : TickOk (s.timer t).initTick) :
    ∃ s', s.rtTimerStart cfg t = some s' ∧ s'.softDue cfg ≤ s.softDue cfg ∧ PeriodicOk cfg s' := by
  obtain ⟨lo, heads, s₁, hst, heq⟩ := rtTimerStart_spec h hinit.2
  have hdue : s₁.softDue cfg ≤ s.softDue cfg := by
    refine hst.countP_le h ?_ (fun x hx => ?_) .soft (cfg.level - 1)
    · have h0 := hinit.1
      have hlt := hinit.2
      rw [decide_eq_false_iff_not, Due, hst.timer, hst.tick, update_self]
      unfold halfTickMax at *
      bv_omega
    · exact decide_eq_decide.mpr (due_congr hst.tick (by rw [hst.timer_of_ne hx]))
  have hper₁ : PeriodicOk cfg s₁ := by
    intro u hu
    rcases (hst.mem_rows h .soft _).mp hu with ⟨rfl, -⟩ | ⟨hut, hu⟩
    · rw [hst.timer, update_self]
      exact fun _ => hinit
    · rw [hst.timer_of_ne hut]
      exact hper u hu
  refine ⟨_, heq, ?_⟩
  split_ifs
  · have hq := quiet_resumeTimerThread s₁
    exact ⟨hq.softDue_le.trans hdue, hq.periodicOk hper₁⟩
  · exact ⟨hdue, hper₁⟩

end TimerSys

/-! ## The loop of `rt_soft_timer_check` -/

namespace SoftCheck

open TimerSys

variable {cfg : SkipConfig} {s : TimerSys} {c c' : SoftCheck} {t : TimerId} {calls : List TimerCall}

/-- The timeout function leaves the next timer of the list linked, or not due. -/
def LeavesNext (cfg : SkipConfig) (c : SoftCheck) (calls : List TimerCall) : Prop :=
  ∀ t ∈ c.n, ∀ u ∈ nextNode (c.sys.rows .soft (cfg.level - 1)) t,
    ∀ s ∈ runCalls cfg calls (c.sys.remove t), s.Due u s.tick → Linked cfg s u
  deriving Decidable

instance : Decidable (c.Fires t) := inferInstanceAs (Decidable (_ ∧ _))

/-- The timer that fires is linked. -/
structure SoftOk (cfg : SkipConfig) (c : SoftCheck) : Prop where
  shape : SoftShape cfg c.sys
  current : c.currentTick = c.sys.tick
  soft : ∀ t ∈ c.n, (c.sys.timer t).list = .soft
  linked : ∀ t, c.Fires t → t ∈ c.sys.rows .soft (cfg.level - 1)

theorem begin_softOk (h : SoftShape cfg s) : SoftOk cfg (begin cfg s) := by
  have hmem : ∀ t ∈ (begin cfg s).n, t ∈ s.rows .soft (cfg.level - 1) := fun t ht =>
    mem_of_head? ht
  exact ⟨h, rfl, fun t ht => h.shape.list .soft _ t (hmem t ht), fun t ht => hmem t ht.1⟩

/-- What a round does. -/
theorem round_eq (hs : c.round cfg calls = some (t, c')) :
    c.Fires t ∧ ∃ s₁ s₂, runCalls cfg calls (c.sys.remove t) = some s₁ ∧
      s₁.rearm cfg t = some s₂ ∧
      c' = ⟨s₂, s₂.tick, nextNode (c.sys.rows .soft (cfg.level - 1)) t⟩ := by
  obtain ⟨t', hn, hs⟩ := bind_eq_some_iff.mp hs
  split_ifs at hs with hdue
  obtain ⟨s₂, hs₂, heq⟩ := map_eq_some_iff.mp hs
  cases heq
  obtain ⟨s₁, hs₁, hre⟩ := bind_eq_some_iff.mp hs₂
  exact ⟨⟨hn, hdue⟩, s₁, s₂, hs₁, hre, rfl⟩

section

variable (h : SoftOk cfg c)
include h

/-- What a round leaves, but for the timer that fires next. -/
theorem round_shape (hs : c.round cfg calls = some (t, c')) :
    SoftShape cfg c'.sys ∧ c'.currentTick = c'.sys.tick ∧
      ∀ u ∈ c'.n, (c'.sys.timer u).list = .soft := by
  obtain ⟨hfire, s₁, s₂, hs₁, hre, rfl⟩ := round_eq hs
  have hrm : SameKinds c.sys (c.sys.remove t) := ⟨rfl, fun _ => rfl⟩
  have hk₁ := hrm.trans (sameKinds_runCalls (h.shape.shape.remove t) hs₁)
  have hsh₁ := (h.shape.shape.remove t).runCalls hs₁
  have hk₂ := hk₁.trans (sameKinds_rearm hsh₁ hre)
  refine ⟨h.shape.congr (hsh₁.rearm hre) hk₂, rfl, fun u hu => ?_⟩
  obtain ⟨hmem, -⟩ := nextNode_mem ((h.shape.shape.rows _).nodup _) (h.linked t hfire) hu
  rw [hk₂.list]
  exact h.shape.shape.list _ _ _ hmem

/-- The timer that fires next is linked exactly if the timeout function leaves the next timer of the
list linked or not due. -/
theorem round_linked_iff (hs : c.round cfg calls = some (t, c')) :
    (∀ u, c'.Fires u → u ∈ c'.sys.rows .soft (cfg.level - 1)) ↔ LeavesNext cfg c calls := by
  obtain ⟨-, -, hsoft⟩ := round_shape h hs
  obtain ⟨hfire, s₁, s₂, hs₁, hre, rfl⟩ := round_eq hs
  have hrm : SameKinds c.sys (c.sys.remove t) := ⟨rfl, fun _ => rfl⟩
  have hk₁ := hrm.trans (sameKinds_runCalls (h.shape.shape.remove t) hs₁)
  have hsh₁ := h.shape.congr ((h.shape.shape.remove t).runCalls hs₁) hk₁
  -- the next timer is another soft timer, which is not touched after the timeout function
  have hnext : ∀ u ∈ nextNode (c.sys.rows .soft (cfg.level - 1)) t, SameTimer cfg s₁ s₂ u := by
    intro u hu
    obtain ⟨hmem, hut⟩ := nextNode_mem ((h.shape.shape.rows _).nodup _) (h.linked t hfire) hu
    have hlist : (s₁.timer u).list = .soft := by
      rw [hk₁.list]
      exact h.shape.shape.list _ _ _ hmem
    exact sameTimer_rearm hsh₁ hut hlist hre
  have hrow : ∀ u ∈ nextNode (c.sys.rows .soft (cfg.level - 1)) t,
      (u ∈ s₂.rows .soft (cfg.level - 1) ↔ Linked cfg s₁ u) := fun u hu => by
    rw [← (hnext u hu).linked, Linked, hsoft u hu]
  have hdue : ∀ u ∈ nextNode (c.sys.rows .soft (cfg.level - 1)) t,
      (s₂.Due u s₂.tick ↔ s₁.Due u s₁.tick) := fun u hu =>
    due_congr (hnext u hu).tick (hnext u hu).timeout
  constructor
  · intro hfires t' ht' u hu s hs hd
    cases some.inj (hfire.1.symm.trans ht')
    cases some.inj (hs₁.symm.trans hs)
    exact (hrow u hu).mp (hfires u ⟨hu, (hdue u hu).mpr hd⟩)
  · intro hleaves u hu
    exact (hrow u hu.1).mpr (hleaves t hfire.1 u hu.1 s₁ hs₁ ((hdue u hu.1).mp hu.2))

theorem round_softOk (hleaves : LeavesNext cfg c calls) (hs : c.round cfg calls = some (t, c')) :
    SoftOk cfg c' := by
  obtain ⟨hshape, hcur, hsoft⟩ := round_shape h hs
  exact ⟨hshape, hcur, hsoft, (round_linked_iff h hs).mpr hleaves⟩

/-- A round whose timeout function only stops timers returns, and leaves fewer timers due. -/
theorem round_softDue (hper : PeriodicOk cfg c.sys) (hcalls : OnlyStops calls) (hfire : c.Fires t) :
    ∃ c', c.round cfg calls = some (t, c') ∧ PeriodicOk cfg c'.sys ∧
      c'.sys.softDue cfg < c.sys.softDue cfg := by
  have hmem := h.linked t hfire
  obtain ⟨s₁, hs₁, hq⟩ := quiet_runCalls cfg hcalls (c.sys.remove t)
  have hrm := (quiet_remove c.sys t).trans hq
  have hfewer : (c.sys.remove t).softDue cfg < c.sys.softDue cfg := by
    have hdue : c.sys.Due t c.sys.tick := h.current ▸ hfire.2
    show ((c.sys.rows .soft (cfg.level - 1)).erase t).countP (fun u => c.sys.Due u c.sys.tick) < _
    rw [softDue, (perm_cons_erase hmem).countP_eq, countP_cons_of_pos (by simpa using hdue)]
    exact Nat.lt_succ_self _
  have hq₁ := quiet_deactivate s₁ t
  have hlt : (s₁.deactivate t).softDue cfg < c.sys.softDue cfg :=
    (hq₁.softDue_le.trans hq.softDue_le).trans_lt hfewer
  have hper₁ : PeriodicOk cfg (s₁.deactivate t) := (hrm.trans hq₁).periodicOk hper
  have hround : ∀ s₂, s₁.rearm cfg t = some s₂ → c.round cfg calls =
      some (t, ⟨s₂, s₂.tick, nextNode (c.sys.rows .soft (cfg.level - 1)) t⟩) := fun s₂ hre => by
    rw [round, hfire.1, bind_some, if_pos hfire.2, expire, hs₁, bind_some, hre]
    rfl
  by_cases hagain : (s₁.timer t).periodic ∧ (s₁.timer t).activated
  · have hinit : TickOk ((s₁.deactivate t).timer t).initTick := by
      rw [(hrm.trans hq₁).init]
      exact hper t hmem (by rw [← hrm.periodic]; exact hagain.1)
    have hshape : Shape cfg (s₁.deactivate t) :=
      ((h.shape.shape.remove t).runCalls hs₁).modify fun _ => rfl
    obtain ⟨s₂, hs₂, hle, hper₂⟩ := start_softDue hshape hper₁ hinit
    exact ⟨_, hround s₂ (by rw [rearm, if_pos hagain, hs₂]), hper₂, hle.trans_lt hlt⟩
  · exact ⟨_, hround (s₁.deactivate t) (by rw [rearm, if_neg hagain]), hper₁, hlt⟩

end

/-! ## Executions -/

/-- The loop at a timer that is stopped and due: the timer fires, and the loop is at the same timer
again. -/
structure Stuck (cfg : SkipConfig) (c : SoftCheck) (t : TimerId) : Prop where
  fires : c.Fires t
  current : c.currentTick = c.sys.tick
  stopped : t ∉ c.sys.rows .soft (cfg.level - 1)
  inactive : (c.sys.timer t).activated = false

theorem Stuck.round (h : Stuck cfg c t) : ∃ c', c.round cfg [] = some (t, c') ∧ Stuck cfg c' t := by
  set s₂ := (c.sys.remove t).deactivate t with hs₂
  have hrearm : (c.sys.remove t).rearm cfg t = some s₂ := by
    have hact : ((c.sys.remove t).timer t).activated = false := h.inactive
    rw [rearm, if_neg (by simp [hact])]
  have hn : nextNode (c.sys.rows .soft (cfg.level - 1)) t = some t := if_neg h.stopped
  refine ⟨⟨s₂, s₂.tick, some t⟩, ?_, ⟨rfl, ?_⟩, rfl, ?_, ?_⟩
  · rw [SoftCheck.round, h.fires.1, bind_some, if_pos h.fires.2, expire, runCalls,
      bind_some, hrearm, hn]
    rfl
  · have hdue := h.fires.2
    rw [h.current] at hdue
    have hsame : (s₂.timer t).timeoutTick = (c.sys.timer t).timeoutTick := by
      simp [hs₂, deactivate, TimerSys.modify, remove]
    have hiff : s₂.Due t s₂.tick ↔ c.sys.Due t c.sys.tick := due_congr rfl hsame
    exact hiff.mpr hdue
  · exact fun ht => h.stopped (mem_of_mem_erase ht)
  · simp [hs₂, deactivate, TimerSys.modify]

/-- The timer fires any number of times. -/
theorem Stuck.forever (h : Stuck cfg c t) (k : ℕ) :
    ∃ tr c', Run (SoftCheck.round cfg) c tr c' ∧ tr.length = k := by
  have hrun : ∃ tr c', Run (SoftCheck.round cfg) c tr c' ∧ tr.length = k ∧ Stuck cfg c' t := by
    induction k with
    | zero => exact ⟨[], c, .nil, rfl, h⟩
    | succ k ih =>
      obtain ⟨tr, c', hrun, hlen, hstuck⟩ := ih
      obtain ⟨c'', hs, hstuck'⟩ := hstuck.round
      exact ⟨_, c'', .snoc hrun hs, by simp [hlen], hstuck'⟩
  obtain ⟨tr, c', hrun, hlen, -⟩ := hrun
  exact ⟨tr, c', hrun, hlen⟩

/-- Two timers are due: timer 0, which is periodic, and timer 1. -/
def sampleSoft : TimerSys where
  tick := 7
  timer t :=
    { activated := t < 2, periodic := t = 0, soft := t < 2, initTick := 5,
      timeoutTick := if t = 0 then 5 else 6 }
  rows l r := if l = .soft ∧ r = 0 then [0, 1] else []
  randomNr := 0
  timerThreadSuspended := false
  threadTimer := 2
  starts := 2
  startNo t := t + 1

theorem sampleSoft_shape : SoftShape ⟨1, 0, by decide⟩ sampleSoft := by
  refine ⟨⟨fun l => ⟨fun r => ?_, fun r hr => ?_, fun r hr => ?_⟩, fun l r t ht => ?_⟩, by decide⟩
  · show (if l = .soft ∧ r = 0 then [0, 1] else []).Nodup
    split_ifs <;> decide
  · exact absurd hr (by simp)
  · exact if_neg fun h => absurd hr (by simp [h.2])
  · change t ∈ if l = .soft ∧ r = 0 then [0, 1] else [] at ht
    split_ifs at ht with h
    · rw [h.1]
      fin_cases ht <;> rfl
    · simp at ht

/-- Both timers fire if the timeout functions do nothing. -/
theorem sampleSoft_undisturbed :
    (exec (guard (LeavesNext ⟨1, 0, by decide⟩) (round ⟨1, 0, by decide⟩))
      (begin ⟨1, 0, by decide⟩ sampleSoft) [[]]).isSome := by
  decide

/-- The timeout function of timer 0 stops timer 1. -/
theorem sampleSoft_stopped :
    (exec (round ⟨1, 0, by decide⟩) (begin ⟨1, 0, by decide⟩ sampleSoft) [[.stop 1]]).isSome := by
  decide

end SoftCheck

/-! ## The timer thread -/

/-- What the timer thread does before it checks the soft timers. -/
inductive ThreadWait
  | suspend
  | delay (ticks : Tick)
  | go
  deriving DecidableEq

namespace TimerSys

/-- A round of the loop of `rt_thread_timer_entry` (lines 635–662), up to `rt_soft_timer_check`. -/
def rtThreadTimerEntry (cfg : SkipConfig) (s : TimerSys) : ThreadWait :=
  let nextTimeout := s.rtTimerListNextTimeout cfg .soft
  -- RT_TICK_MAX: no software timer exist, suspend self
  if nextTimeout = 0xffffffff then .suspend
  else if (nextTimeout - s.tick).toNat < halfTickMax then .delay (nextTimeout - s.tick)
  else .go

/-- The timer thread suspends itself if there is no soft timer, or if the first one expires at
`RT_TICK_MAX`. -/
theorem rtThreadTimerEntry_eq_suspend_iff (cfg : SkipConfig) (s : TimerSys) :
    s.rtThreadTimerEntry cfg = .suspend ↔
      ∀ t ∈ (s.rows .soft (cfg.level - 1)).head?, (s.timer t).timeoutTick = 0xffffffff := by
  have hsuspend : s.rtThreadTimerEntry cfg = .suspend ↔
      s.rtTimerListNextTimeout cfg .soft = 0xffffffff := by
    unfold rtThreadTimerEntry
    dsimp only
    split_ifs with hmax
    · exact ⟨fun _ => hmax, fun _ => rfl⟩
    · exact ⟨fun h => absurd h (by simp), fun h => absurd h hmax⟩
    · exact ⟨fun h => absurd h (by simp), fun h => absurd h hmax⟩
  rw [hsuspend, rtTimerListNextTimeout]
  cases s.rows .soft (cfg.level - 1) with
  | nil => simp
  | cons t rest => simp

/-- The timer thread suspends itself only while no soft timer is linked, just if the timer that
expires next does not do so at the tick `RT_TICK_MAX`. -/
theorem timer_thread_suspends_iff (cfg : SkipConfig) (s : TimerSys) :
    (s.rtThreadTimerEntry cfg = .suspend → s.rows .soft (cfg.level - 1) = []) ↔
      ∀ t ∈ (s.rows .soft (cfg.level - 1)).head?, (s.timer t).timeoutTick ≠ 0xffffffff := by
  rw [rtThreadTimerEntry_eq_suspend_iff]
  cases s.rows .soft (cfg.level - 1) with
  | nil => simp
  | cons t rest => simp

/-- Sixteen ticks before the clock wraps around, a soft timer of 15 ticks. -/
def sampleLate : TimerSys where
  tick := 0xfffffff0
  timer _ := { activated := false, periodic := false, soft := true, initTick := 15,
               timeoutTick := 0 }
  rows _ _ := []
  randomNr := 0
  timerThreadSuspended := false
  threadTimer := 9
  starts := 0
  startNo _ := 0

theorem sampleLate_started : (sampleLate.rtTimerStart ⟨1, 0, by decide⟩ 0).isSome := by
  decide

/-- The timer is started, and the timer thread suspends itself. -/
theorem pending_timer_suspends :
    ∃ s, sampleLate.Initial ∧ sampleLate.rtTimerStart ⟨1, 0, by decide⟩ 0 = some s ∧
      s.rows .soft 0 = [0] ∧ s.rtThreadTimerEntry ⟨1, 0, by decide⟩ = .suspend :=
  ⟨_, ⟨fun _ _ => rfl, fun _ => rfl⟩, (some_get sampleLate_started).symm,
    by decide, by decide⟩

end TimerSys

end RtThread
