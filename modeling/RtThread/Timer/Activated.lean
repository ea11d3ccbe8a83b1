import RtThread.Timer.Rows
import RtThread.Lib.Runs

/-!
# The flag `RT_TIMER_FLAG_ACTIVATED`

`rt_timer_stop` trusts the flag: it does nothing to a timer that does not have it.
`Truthful` says that the timers that have it are those that are linked in a timer
list. While a timeout function runs, its timer has the flag but is not linked.

When the timeout function of a one-shot timer returns, `rt_timer_check` clears the
flag. If the timeout function has started its own timer again, the timer is linked
and the flag is lost (`activated_lost`).

* `rearm_truthful_iff`: the flag is right after a timer has expired exactly if the
  timer was periodic or not running when its timeout function returned.
* `activated_iff_linked`: the flag is right in every run in which this is so of
  every timer that expires.
-/

namespace RtThread.TimerSys

open Runs Option

variable {cfg : SkipConfig} {s s' : TimerSys} {t u : TimerId} {p : Option TimerId}
  {heads : ℕ → Option TimerId} {lo : ℕ}

/-! ## The flag and the rows -/

/-- The timers that are linked have the flag, and the timers that have the flag are linked, except
for `p`, the timer whose timeout function runs. -/
structure Truthful (cfg : SkipConfig) (p : Option TimerId) (s : TimerSys) : Prop where
  shape : Shape cfg s
  activated : ∀ t, Linked cfg s t → (s.timer t).activated = true
  linked : ∀ t, (s.timer t).activated = true → Linked cfg s t ∨ t ∈ p

theorem Truthful.iff (h : Truthful cfg none s) (t : TimerId) :
    (s.timer t).activated = true ↔ ∃ l r, t ∈ s.rows l r := by
  constructor
  · intro ht
    have hlinked := (h.linked t ht).resolve_right (by simp)
    exact ⟨_, _, hlinked⟩
  · rintro ⟨l, r, ht⟩
    exact h.activated t (h.shape.linked ht)

/-- Rows, kinds and flags are as before. -/
theorem Truthful.congr (h : Truthful cfg p s) (hrows : s'.rows = s.rows)
    (hlist : ∀ t, (s'.timer t).list = (s.timer t).list)
    (hact : ∀ t, (s'.timer t).activated = (s.timer t).activated) : Truthful cfg p s' := by
  have hlinked : ∀ t, Linked cfg s' t ↔ Linked cfg s t := fun t => by
    unfold Linked
    rw [hrows, hlist]
  refine ⟨h.shape.congr hrows hlist, fun t ht => ?_, fun t ht => ?_⟩
  · rw [hact]
    exact h.activated t ((hlinked t).mp ht)
  · rw [hact] at ht
    exact (h.linked t ht).imp_left (hlinked t).mpr

theorem linked_remove (h : Shape cfg s) : Linked cfg (s.remove t) u ↔ u ≠ t ∧ Linked cfg s u :=
  ((h.rows _).nodup _).mem_erase_iff

theorem linked_modify {f : Timer → Timer} (hf : ∀ tm, (f tm).soft = tm.soft) :
    Linked cfg (s.modify t f) u ↔ Linked cfg s u := by
  unfold Linked
  rw [list_modify hf]
  rfl

theorem linked_deactivate : Linked cfg (s.deactivate t) u ↔ Linked cfg s u :=
  linked_modify fun _ => rfl

theorem activated_deactivate :
    ((s.deactivate t).timer u).activated = true ↔ u ≠ t ∧ (s.timer u).activated = true := by
  by_cases hu : u = t
  · subst hu
    simp [deactivate, TimerSys.modify]
  · simp [deactivate, TimerSys.modify, hu]

/-! ## Calls -/

/-- A timer that leaves its list and loses its flag. -/
theorem Truthful.unlink (h : Truthful cfg p s) (t : TimerId) :
    Truthful cfg p ((s.remove t).deactivate t) := by
  refine ⟨(h.shape.remove t).modify fun _ => rfl, fun u hu => ?_, fun u hu => ?_⟩
  · rw [linked_deactivate, linked_remove h.shape] at hu
    exact activated_deactivate.mpr ⟨hu.1, h.activated u hu.2⟩
  · obtain ⟨hut, hact⟩ := activated_deactivate.mp hu
    rw [linked_deactivate, linked_remove h.shape]
    exact (h.linked u hact).imp_left fun hl => ⟨hut, hl⟩

theorem Truthful.stop (h : Truthful cfg p s) (t : TimerId) :
    Truthful cfg p (s.rtTimerStop t).2 := by
  rcases rtTimerStop_cases s t with ⟨-, heq⟩ | ⟨-, heq⟩
  · rw [heq]
    exact h.unlink t
  · rwa [heq]

theorem Truthful.resumeTimerThread (h : Truthful cfg p s) : Truthful cfg p s.resumeTimerThread := by
  unfold TimerSys.resumeTimerThread
  split_ifs
  · exact (h.stop s.threadTimer).congr rfl (fun _ => rfl) fun _ => rfl
  · exact h

/-- A timer that is started is linked and has the flag, whatever was so before. -/
theorem Started.linked_iff (hst : Started cfg s t lo heads s') (hshape : Shape cfg s) :
    Linked cfg s' u ↔ u = t ∨ u ≠ t ∧ Linked cfg s u := by
  have hlo := hst.lt
  unfold Linked
  rw [hst.list u, hst.mem_rows hshape]
  constructor
  · rintro (⟨rfl, -⟩ | hu)
    · exact .inl rfl
    · exact .inr hu
  · rintro (rfl | hu)
    · exact .inl ⟨rfl, rfl, by omega, by omega⟩
    · exact .inr hu

theorem Started.activated_iff (hst : Started cfg s t lo heads s') :
    (s'.timer u).activated = true ↔ u = t ∨ u ≠ t ∧ (s.timer u).activated = true := by
  rw [hst.timer]
  by_cases hu : u = t
  · subst hu
    simp
  · simp [hu]

/-- `rt_timer_start` makes the flag of its timer right; the flags of the others have to be right
before. -/
theorem start_truthful (hshape : Shape cfg s)
    (hact : ∀ u, u ≠ t → Linked cfg s u → (s.timer u).activated = true)
    (hlinked : ∀ u, u ≠ t → (s.timer u).activated = true → Linked cfg s u ∨ u ∈ p)
    (hs : s.rtTimerStart cfg t = some s') : Truthful cfg p s' := by
  obtain ⟨lo, heads, s₁, hst, heq⟩ := rtTimerStart_spec hshape (rtTimerStart_some hs)
  rw [heq] at hs
  cases hs
  have h₁ : Truthful cfg p s₁ := by
    refine ⟨hst.shape hshape, fun u hu => ?_, fun u hu => ?_⟩
    · rw [hst.activated_iff]
      exact ((hst.linked_iff hshape).mp hu).imp_right fun h => ⟨h.1, hact u h.1 h.2⟩
    · rw [hst.linked_iff hshape]
      rcases hst.activated_iff.mp hu with rfl | ⟨hut, hu⟩
      · exact .inl (.inl rfl)
      · exact (hlinked u hut hu).imp_left fun h => .inr ⟨hut, h⟩
  split_ifs
  · exact h₁.resumeTimerThread
  · exact h₁

section

variable (h : Truthful cfg p s)
include h

theorem Truthful.start (hs : s.rtTimerStart cfg t = some s') : Truthful cfg p s' :=
  start_truthful h.shape (fun u _ => h.activated u) (fun u _ => h.linked u) hs

theorem Truthful.modify {f : Timer → Timer} (hsoft : ∀ tm, (f tm).soft = tm.soft)
    (hact : ∀ tm, (f tm).activated = tm.activated) : Truthful cfg p (s.modify t f) := by
  refine h.congr rfl (list_modify hsoft) fun u => ?_
  by_cases hu : u = t
  · subst hu
    simp [TimerSys.modify, hact]
  · simp [TimerSys.modify, hu]

theorem Truthful.control (cmd : TimerCtrl) : Truthful cfg p (s.rtTimerControl t cmd) := by
  cases cmd with
  | setTime tick =>
    exact h.modify (f := fun tm => { tm with initTick := tick }) (fun _ => rfl) fun _ => rfl
  | setOneshot =>
    exact h.modify (f := fun tm => { tm with periodic := false }) (fun _ => rfl) fun _ => rfl
  | setPeriodic =>
    exact h.modify (f := fun tm => { tm with periodic := true }) (fun _ => rfl) fun _ => rfl

theorem Truthful.call {c : TimerCall} (hs : s.call cfg c = some s') : Truthful cfg p s' := by
  cases c with
  | start t => exact h.start hs
  | stop t =>
    cases hs
    exact h.stop t
  | control t cmd =>
    cases hs
    exact h.control cmd
  | tick =>
    cases hs
    exact h.congr rfl (fun _ => rfl) fun _ => rfl

theorem Truthful.runCalls {cs : List TimerCall} (hs : runCalls cfg cs s = some s') :
    Truthful cfg p s' :=
  runCalls_induction (fun _ _ _ _ h hs => h.call hs) h hs

end

/-! ## Timers that expire -/

/-- The timer is periodic, or it is not running: `rt_timer_check` may go on. -/
def RearmOk (cfg : SkipConfig) (s : TimerSys) (t : TimerId) : Prop :=
  (s.timer t).periodic = true ∨ ¬ Linked cfg s t
  deriving Decidable

theorem Truthful.remove (h : Truthful cfg none s) (t : TimerId) :
    Truthful cfg (some t) (s.remove t) := by
  refine ⟨h.shape.remove t, fun u hu => ?_, fun u hu => ?_⟩
  · exact h.activated u ((linked_remove h.shape).mp hu).2
  · have hl := (h.linked u hu).resolve_right (by simp)
    by_cases hut : u = t
    · exact .inr (by simp [hut])
    · exact .inl ((linked_remove h.shape).mpr ⟨hut, hl⟩)

/-- What `rt_timer_check` does after the timeout function leaves the flag right exactly if the timer
is periodic or not running. -/
theorem rearm_truthful_iff (h : Truthful cfg (some t) s) (hs : s.rearm cfg t = some s') :
    Truthful cfg none s' ↔ RearmOk cfg s t := by
  have hd : Shape cfg (s.deactivate t) := h.shape.modify fun _ => rfl
  have hother : ∀ u, u ≠ t → (s.timer u).activated = true → Linked cfg s u := fun u hut hu =>
    (h.linked u hu).resolve_right fun hm => hut (by simpa using hm.symm)
  unfold rearm at hs
  split_ifs at hs with hper
  · refine ⟨fun _ => .inl hper.1, fun _ => start_truthful hd (fun u hut hu => ?_)
      (fun u hut hu => .inl ?_) hs⟩
    · exact activated_deactivate.mpr ⟨hut, h.activated u (linked_deactivate.mp hu)⟩
    · exact linked_deactivate.mpr (hother u hut (activated_deactivate.mp hu).2)
  · cases hs
    constructor
    · intro h'
      refine .inr fun ht => ?_
      have hact := h'.activated t (linked_deactivate.mpr ht)
      exact (activated_deactivate.mp hact).1 rfl
    · intro hok
      have ht : ¬ Linked cfg s t := by
        rcases hok with hp | ht
        · exact fun ht => hper ⟨hp, h.activated t ht⟩
        · exact ht
      refine ⟨hd, fun u hu => ?_, fun u hu => .inl ?_⟩
      · have hu' := linked_deactivate.mp hu
        have hut : u ≠ t := fun heq => ht (heq ▸ hu')
        exact activated_deactivate.mpr ⟨hut, h.activated u hu'⟩
      · obtain ⟨hut, hact⟩ := activated_deactivate.mp hu
        exact linked_deactivate.mpr (hother u hut hact)

/-- Each timer that expires in the loop of `rt_timer_check` is periodic or not running when its
timeout function returns. -/
def expiriesOk (cfg : SkipConfig) (calls : ℕ → TimerId → List TimerCall) :
    (rounds k : ℕ) → (currentTick : Tick) → TimerSys → Bool
  | rounds, k, currentTick, s =>
    match s.rows .hard (cfg.level - 1) with
    | [] => true
    | t :: _ =>
      if s.Due t currentTick then
        match rounds with
        | 0 => true
        | rounds + 1 =>
          match runCalls cfg (calls k t) (s.remove t) with
          | none => true
          | some s =>
            decide (RearmOk cfg s t) &&
              match s.rearm cfg t with
              | none => true
              | some s => expiriesOk cfg calls rounds (k + 1) s.tick s
      else true

theorem checkLoop_truthful {calls : ℕ → TimerId → List TimerCall} {rounds k : ℕ}
    {currentTick : Tick} (h : Truthful cfg none s)
    (hok : expiriesOk cfg calls rounds k currentTick s = true)
    (hs : checkLoop cfg calls rounds k currentTick s = some s') : Truthful cfg none s' := by
  induction rounds generalizing s k currentTick with
  | zero =>
    unfold checkLoop at hs
    split at hs
    · cases hs
      exact h
    · split_ifs at hs
      cases hs
      exact h
  | succ rounds ih =>
    unfold checkLoop at hs
    unfold expiriesOk at hok
    split at hs
    · cases hs
      exact h
    · rename_i t rest hrow
      rw [hrow] at hok
      dsimp only at hs hok
      split_ifs at hs hok with hdue
      · obtain ⟨s₂, hs₂, hs⟩ := bind_eq_some_iff.mp hs
        obtain ⟨s₁, hs₁, hre⟩ := bind_eq_some_iff.mp hs₂
        rw [hs₁] at hok
        dsimp only at hok
        rw [hre, Bool.and_eq_true, decide_eq_true_iff] at hok
        have h₁ := (h.remove t).runCalls hs₁
        exact ih ((rearm_truthful_iff h₁ hre).mpr hok.1) hok.2 hs
      · cases hs
        exact h

/-! ## Runs -/

/-- The calls of the timers' users; in `rt_timer_check`, each timer that expires is periodic or not
running when its timeout function returns. -/
def ExpiriesOk (cfg : SkipConfig) (s : TimerSys) : TimerOp → Prop
  | .start _ => True
  | .stop _ => True
  | .control _ _ => True
  | .threadSuspend => True
  | .check calls rounds => expiriesOk cfg calls rounds 0 s.tick s = true
  | .tickIncrease calls rounds =>
    expiriesOk cfg calls rounds 0 (s.tick + 1) { s with tick := s.tick + 1 } = true
  | .detach _ => False

instance : ∀ op, Decidable (ExpiriesOk cfg s op)
  | .start _ | .stop _ | .control _ _ | .threadSuspend => .isTrue trivial
  | .check _ _ | .tickIncrease _ _ => inferInstanceAs (Decidable (_ = true))
  | .detach _ => .isFalse id

theorem step_truthful {op : TimerOp} {o : Unit} (h : Truthful cfg none s)
    (hop : ExpiriesOk cfg s op) (hs : s.step cfg op = some (o, s')) : Truthful cfg none s' := by
  obtain ⟨s₁, hs₁, heq⟩ := map_eq_some_iff.mp hs
  cases heq
  cases op with
  | start t => exact h.start hs₁
  | stop t =>
    cases hs₁
    exact h.stop t
  | detach t => exact hop.elim
  | control t cmd =>
    cases hs₁
    exact h.control cmd
  | check calls rounds => exact checkLoop_truthful h hop hs₁
  | tickIncrease calls rounds =>
    have h' : Truthful cfg none { s with tick := s.tick + 1 } :=
      h.congr rfl (fun _ => rfl) fun _ => rfl
    exact checkLoop_truthful h' hop hs₁
  | threadSuspend =>
    cases hs₁
    exact h.congr rfl (fun _ => rfl) fun _ => rfl

theorem Initial.truthful (h : s.Initial) : Truthful cfg none s where
  shape := h.shape
  activated t ht := by simp [Linked, h.rows] at ht
  linked t ht := by simp [h.activated] at ht

theorem not_linked_after_stop (h : Shape cfg s) (ht : (s.timer t).activated = true)
    (l : TimerList) (r : ℕ) : t ∉ (s.rtTimerStop t).2.rows l r := by
  rcases rtTimerStop_cases s t with ⟨-, heq⟩ | ⟨hact, -⟩
  · rw [heq]
    exact ((h.rows l).nodup r).not_mem_erase
  · rw [ht] at hact
    cases hact

/-- In every run of `rt_timer_start`, `rt_timer_stop`, `rt_timer_control` and `rt_timer_check` in
which each timer that expires is periodic or not running when its timeout function returns: the
timers with `RT_TIMER_FLAG_ACTIVATED` are those that are linked in a list, and `rt_timer_stop`
unlinks a linked timer. -/
theorem activated_iff_linked {s₀ : TimerSys} {tr : List (TimerOp × Unit)} (h₀ : s₀.Initial)
    (hrun : StepsSatisfy (step cfg) (ExpiriesOk cfg) s₀ tr s) :
    (∀ t, (s.timer t).activated = true ↔ ∃ l r, t ∈ s.rows l r) ∧
    ∀ t, (∃ l r, t ∈ s.rows l r) →
      (s.rtTimerStop t).1 = true ∧ ∀ l r, t ∉ (s.rtTimerStop t).2.rows l r := by
  have h : Truthful cfg none s := hrun.inv h₀.truthful fun _ _ _ _ h hop hs =>
    step_truthful h hop hs
  refine ⟨h.iff, fun t ht => ?_⟩
  have hact := (h.iff t).mpr ht
  exact ⟨by rw [rtTimerStop, if_pos hact], not_linked_after_stop h.shape hact⟩

/-! ### Two runs -/

/-- Timer 0 is a one-shot timer, timer 1 a periodic one. -/
def sampleOneshot : TimerSys where
  tick := 0
  timer t :=
    { activated := false, periodic := t = 1, soft := false, initTick := 1, timeoutTick := 0 }
  rows _ _ := []
  randomNr := 0
  timerThreadSuspended := true
  threadTimer := 9
  starts := 0
  startNo _ := 0

theorem sampleOneshot_initial : sampleOneshot.Initial := ⟨fun _ _ => rfl, fun _ => rfl⟩

/-- The timeout function of the periodic timer stops the one-shot timer and starts its own timer. -/
theorem sampleOneshot_stopped :
    (exec (guard (ExpiriesOk ⟨1, 0, by decide⟩) (step ⟨1, 0, by decide⟩)) sampleOneshot
      [.start 1, .start 0, .tickIncrease (fun _ _ => [.stop 0, .start 1]) 2]).isSome := by
  decide_cbv

theorem activated_iff_linked_sample :
    ∃ tr s, StepsSatisfy (step ⟨1, 0, by decide⟩) (ExpiriesOk ⟨1, 0, by decide⟩)
        sampleOneshot tr s ∧
      s.rows .hard 0 = [1] ∧ ((s.timer 1).activated = true ↔ ∃ l r, 1 ∈ s.rows l r) :=
  ⟨_, _, .of_isSome sampleOneshot_stopped, by decide_cbv,
    (activated_iff_linked sampleOneshot_initial (.of_isSome sampleOneshot_stopped)).1 1⟩

/-- The timeout function of the one-shot timer starts it again. -/
theorem sampleOneshot_restarted :
    (exec (step ⟨1, 0, by decide⟩) sampleOneshot
      [.start 0, .tickIncrease (fun _ _ => [.start 0]) 1]).isSome := by
  decide

/-- The timer that was started again is linked and does not have the flag; `rt_timer_stop` fails and
leaves it linked. -/
theorem activated_lost :
    ∃ tr s, sampleOneshot.Initial ∧ Run (step ⟨1, 0, by decide⟩) sampleOneshot tr s ∧
      0 ∈ s.rows .hard 0 ∧ (s.timer 0).activated = false ∧
      (s.rtTimerStop 0).1 = false ∧ 0 ∈ (s.rtTimerStop 0).2.rows .hard 0 :=
  ⟨_, _, sampleOneshot_initial, .of_isSome sampleOneshot_restarted, by decide,
    by decide, by decide, by decide⟩

end RtThread.TimerSys
