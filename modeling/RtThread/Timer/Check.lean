import RtThread.Timer.SkipList
import RtThread.Timer.Activated

/-!
# The timers that `rt_timer_check` fires

`rt_timer_check` takes the first timer of the list as long as it is due, calls its
timeout function, and puts a periodic timer back into the list that it walks. Here
the timeout functions leave the timers and the clock alone. The timeouts, the
present tick and the next timeouts of the periodic timers lie in one window of less
than half the range of the clock (`Window`), which begins at some tick `base`.

* `Fired.append`: what a sequence of timeouts changes, from what each one does.
* `checkLoopLog_fired`: the loop fires the timers that are due, in their order.
* `check_fires_due_iff`: `rt_timer_check` fires each timer that is due once and puts
  the periodic ones back, just if all of these have `RT_TIMER_FLAG_ACTIVATED` and a
  time that `rt_timer_start` accepts.
* `periodic_not_restarted`: a periodic timer without the flag fires and is gone.
* `timer_check_terminates_iff`: in lists of any order, `rt_timer_check` returns just if
  no periodic timer has the time 0.
-/

namespace RtThread

open Runs List Function Option

/-! ## Rows without some timers -/

section Filter

variable {f : TimerId → Bool} {t : TimerId}

theorem filter_insertAfter (ht : f t = false) (p : Option TimerId) (row : List TimerId) :
    (insertAfter t p row).filter f = row.filter f := by
  cases p with
  | none => rw [insertAfter, filter_cons_of_neg (by simp [ht])]
  | some x =>
    induction row with
    | nil => rfl
    | cons y row ih =>
      rw [insertAfter]
      split_ifs
      · rw [filter_cons, filter_cons_of_neg (by simp [ht]), filter_cons]
      · rw [filter_cons, ih, filter_cons]

theorem filter_erase {row : List TimerId} (hnd : row.Nodup) (ht : f t = false) :
    (row.erase t).filter f = row.filter f := by
  rw [hnd.erase_eq_filter, List.filter_filter]
  refine filter_congr fun x _ => ?_
  by_cases hx : x = t
  · simp [hx, ht]
  · simp [hx]

end Filter

namespace TimerSys

/-! ## The loop with its timeout functions -/

/-- The loop of `rt_timer_check`, with the timers whose timeout functions it calls. -/
def checkLoopLog (cfg : SkipConfig) (calls : ℕ → TimerId → List TimerCall) :
    (rounds k : ℕ) → (currentTick : Tick) → TimerSys → Option (List TimerId × TimerSys)
  | rounds, k, currentTick, s =>
    match s.rows .hard (cfg.level - 1) with
    | [] => some ([], s)
    | t :: _ =>
      if s.Due t currentTick then
        match rounds with
        | 0 => none
        | rounds + 1 =>
          (s.expire cfg t (calls k t)).bind fun s =>
            (checkLoopLog cfg calls rounds (k + 1) s.tick s).map fun r => (t :: r.1, r.2)
      else some ([], s)

def rtTimerCheckLog (cfg : SkipConfig) (s : TimerSys) (calls : ℕ → TimerId → List TimerCall)
    (rounds : ℕ) : Option (List TimerId × TimerSys) :=
  checkLoopLog cfg calls rounds 0 s.tick s

/-- Timeout functions that leave the timers and the clock alone. -/
def idle : ℕ → TimerId → List TimerCall := fun _ _ => []

variable {cfg : SkipConfig} {base : Tick} {s s' s'' : TimerSys} {t x : TimerId}

theorem checkLoopLog_snd (calls : ℕ → TimerId → List TimerCall) (rounds k : ℕ)
    (currentTick : Tick) (s : TimerSys) :
    (checkLoopLog cfg calls rounds k currentTick s).map Prod.snd =
      checkLoop cfg calls rounds k currentTick s := by
  induction rounds generalizing k currentTick s with
  | zero =>
    unfold checkLoopLog checkLoop
    cases s.rows .hard (cfg.level - 1) with
    | nil => rfl
    | cons t rest =>
      dsimp only
      split_ifs <;> rfl
  | succ rounds ih =>
    unfold checkLoopLog checkLoop
    cases s.rows .hard (cfg.level - 1) with
    | nil => rfl
    | cons t rest =>
      dsimp only
      split_ifs
      · rw [map_bind]
        congr 1
        funext s₁
        rw [← ih, comp_apply, Option.map_map]
        rfl
      · rfl

theorem rtTimerCheckLog_snd (calls : ℕ → TimerId → List TimerCall) (rounds : ℕ) (s : TimerSys) :
    (s.rtTimerCheckLog cfg calls rounds).map Prod.snd = s.rtTimerCheck cfg calls rounds :=
  checkLoopLog_snd calls rounds 0 s.tick s

/-! ## What timeouts change -/

/-- `rt_timer_check` starts timer `t` again after its timeout function. -/
def Rearms (s : TimerSys) (t : TimerId) : Prop :=
  (s.timer t).periodic = true ∧ (s.timer t).activated = true

/-- `t` has fired between `s` and `s'`. -/
structure AfterTimeout (cfg : SkipConfig) (s : TimerSys) (t : TimerId) (s' : TimerSys) : Prop where
  rearmed : s.Rearms t → (s.timer t).initTick.toNat < halfTickMax ∧
    t ∈ s'.rows .hard (cfg.level - 1) ∧
    s'.timer t = { s.timer t with timeoutTick := s.tick + (s.timer t).initTick }
  stopped : ¬ s.Rearms t → (∀ l r, t ∉ s'.rows l r) ∧
    s'.timer t = { s.timer t with activated := false }

/-- The timers `ts` have fired between `s` and `s'`, and nothing else has changed: a row without
these timers is the same as before. -/
structure Fired (cfg : SkipConfig) (s : TimerSys) (ts : List TimerId) (s' : TimerSys) : Prop where
  tick : s'.tick = s.tick
  timer : ∀ x, x ∉ ts → s'.timer x = s.timer x
  rows : ∀ l r, ∀ f : TimerId → Bool, (∀ t ∈ ts, f t = false) →
    (s'.rows l r).filter f = (s.rows l r).filter f
  after : ∀ t ∈ ts, AfterTimeout cfg s t s'

theorem Fired.nil (s : TimerSys) : Fired cfg s [] s :=
  ⟨rfl, fun _ _ => rfl, fun _ _ _ _ => rfl, fun t ht => absurd ht (by simp)⟩

variable {ts : List TimerId}

theorem Fired.mem_rows (h : Fired cfg s ts s') (hx : x ∉ ts) (l : TimerList) (r : ℕ) :
    x ∈ s'.rows l r ↔ x ∈ s.rows l r := by
  have hf : ∀ t ∈ ts, decide (t = x) = false := fun t ht => by
    rw [decide_eq_false_iff_not]
    rintro rfl
    exact hx ht
  have hrows := h.rows l r (fun y => decide (y = x)) hf
  have hmem : ∀ row : List TimerId, x ∈ row ↔ x ∈ row.filter fun y => decide (y = x) := by
    simp
  rw [hmem (s'.rows l r), hmem (s.rows l r), hrows]

/-- The timeouts of `ts`, and after them those of other timers. -/
theorem Fired.append {ts' : List TimerId} (h : Fired cfg s ts s') (h' : Fired cfg s' ts' s'')
    (hdisj : ∀ t ∈ ts, t ∉ ts') : Fired cfg s (ts ++ ts') s'' := by
  refine ⟨h'.tick.trans h.tick, fun x hx => ?_, fun l r f hf => ?_, fun t ht => ?_⟩
  · rw [mem_append, not_or] at hx
    rw [h'.timer x hx.2, h.timer x hx.1]
  · rw [h'.rows l r f fun t ht => hf t (by simp [ht]), h.rows l r f fun t ht => hf t (by simp [ht])]
  · rcases mem_append.mp ht with ht | ht'
    · -- the later timeouts leave `t` alone
      have hafter := h.after t ht
      have hne := hdisj t ht
      refine ⟨fun hre => ?_, fun hre => ?_⟩
      · obtain ⟨hinit, hmem, htimer⟩ := hafter.rearmed hre
        exact ⟨hinit, (h'.mem_rows hne _ _).mpr hmem, (h'.timer t hne).trans htimer⟩
      · obtain ⟨hmem, htimer⟩ := hafter.stopped hre
        exact ⟨fun l r => mt (h'.mem_rows hne l r).mp (hmem l r), (h'.timer t hne).trans htimer⟩
    · -- the earlier timeouts have left `t` alone
      have hafter := h'.after t ht'
      have heq := h.timer t fun ht => hdisj t ht ht'
      refine ⟨fun hre => ?_, fun hre => ?_⟩
      · obtain ⟨hinit, hmem, htimer⟩ := hafter.rearmed (by rwa [Rearms, heq])
        rw [heq] at hinit htimer
        rw [h.tick] at htimer
        exact ⟨hinit, hmem, htimer⟩
      · obtain ⟨hmem, htimer⟩ := hafter.stopped (by rwa [Rearms, heq])
        rw [heq] at htimer
        exact ⟨hmem, htimer⟩

/-! ## The window -/

/-- The ticks from `base` to the timeout of `t`. -/
def deadline (base : Tick) (s : TimerSys) (t : TimerId) : ℕ :=
  ((s.timer t).timeoutTick - base).toNat

/-- The hard timers are ordered by their timeouts. These, the present tick and the next timeouts of
the periodic timers are in one window of less than half the range of the clock from `base` on. -/
structure Window (cfg : SkipConfig) (base : Tick) (s : TimerSys) : Prop where
  shape : Shape cfg s
  sorted : ∀ r, (s.rows .hard r).Pairwise fun x y => s.deadline base x ≤ s.deadline base y
  near : ∀ t ∈ s.rows .hard (cfg.level - 1), s.deadline base t < halfTickMax
  now : (s.tick - base).toNat < halfTickMax
  next : ∀ t ∈ s.rows .hard (cfg.level - 1), (s.timer t).periodic = true →
    (s.timer t).initTick ≠ 0 ∧ (s.tick + (s.timer t).initTick - base).toNat < halfTickMax

theorem Ordered.window (h : Ordered cfg s) : Window cfg s.tick s where
  shape := h.shape
  sorted r := (h.sorted r).imp fun hxy => hxy.elim le_of_lt fun heq => heq.1.le
  near t ht := h.near _ t ht
  now := by
    rw [BitVec.sub_self]
    decide
  next t ht _ := by
    obtain ⟨hne, hlt⟩ := h.init _ t ht
    refine ⟨hne, ?_⟩
    rwa [BitVec.add_comm, BitVec.add_sub_cancel]

/-- In a run in which timers are set and started with times in range, each tick is in a window. -/
theorem window_run {s₀ : TimerSys} {tr : List (TimerOp × Unit)} (h₀ : s₀.Initial)
    (hrun : StepsSatisfy (step cfg) Admissible s₀ tr s) :
    Window cfg (s.tick + 1) { s with tick := s.tick + 1 } := by
  obtain ⟨hord, hdue⟩ := ordered_run h₀ hrun
  exact (hord.advance hdue).window

theorem Window.due_iff (h : Window cfg base s) (ht : t ∈ s.rows .hard (cfg.level - 1)) :
    s.Due t s.tick ↔ s.deadline base t ≤ (s.tick - base).toNat := by
  have hnear := h.near t ht
  have hnow := h.now
  unfold Due deadline halfTickMax at *
  bv_omega

/-! ## One timeout -/

variable {lo : ℕ} {heads : ℕ → Option TimerId} {rounds k : ℕ}

theorem Started.filter_rows {f : TimerId → Bool} (hst : Started cfg s t lo heads s')
    (hshape : Shape cfg s) (ht : f t = false) (l : TimerList) (r : ℕ) :
    (s'.rows l r).filter f = (s.rows l r).filter f := by
  have herase := filter_erase ((hshape.rows l).nodup r) ht
  by_cases hl : l = (s.timer t).list
  · subst hl
    rw [hst.own]
    split_ifs
    · rw [filter_insertAfter ht, herase]
    · exact herase
  · rw [hst.other l hl, herase]

theorem Started.deadline_of_ne (hst : Started cfg s t lo heads s') (hx : x ≠ t) :
    s'.deadline base x = s.deadline base x := by
  rw [deadline, deadline, hst.timer_of_ne hx]

/-- `rt_timer_start` keeps the window if the new timeout is in it. -/
theorem Window.started (h : Window cfg base s) (hst : Started cfg s t lo heads s')
    (hhard : (s.timer t).list = .hard) (hne : (s.timer t).initTick ≠ 0)
    (hnext : (s.tick + (s.timer t).initTick - base).toNat < halfTickMax) : Window cfg base s' := by
  have hcases : ∀ r, ∀ x ∈ s'.rows .hard r, x = t ∨ x ≠ t ∧ x ∈ s.rows .hard r :=
    fun r x hx => ((hst.mem_rows h.shape .hard r).mp hx).imp_left And.left
  have hmem : ∀ {r x}, x ∈ (s.rows .hard r).erase t → x ≠ t ∧ x ∈ s.rows .hard r := fun hx =>
    ((h.shape.rows .hard).nodup _).mem_erase_iff.mp hx
  have hself : s'.deadline base t < halfTickMax := by
    rwa [deadline, hst.timer, update_self]
  -- the walk passes the timers that do not expire later
  have hpass : ∀ {r x}, x ∈ (s.rows .hard r).erase t →
      (passes s'.timer (s'.timer t).timeoutTick x = true ↔
        s'.deadline base x ≤ s'.deadline base t) := by
    intro r x hx
    have hx' : s'.deadline base x < halfTickMax := by
      rw [hst.deadline_of_ne (hmem hx).1]
      exact h.near x ((h.shape.rows .hard).mem_last (hmem hx).2)
    rw [passes, decide_eq_true_iff]
    exact walk_compare hx' hself
  have hsort : ∀ r, ((s.rows .hard r).erase t).Pairwise fun x y =>
      s'.deadline base x ≤ s'.deadline base y := fun r =>
    ((h.sorted r).sublist erase_sublist).imp_of_mem fun hx hy hxy => by
      rwa [hst.deadline_of_ne (hmem hx).1, hst.deadline_of_ne (hmem hy).1]
  refine ⟨hst.shape h.shape, hst.own_pairwise h.shape hhard hsort (fun r => ?_)
    (fun r x hx hpx => (hpass hx).mp hpx) (fun r x hx hstop => ?_), fun x hx => ?_, ?_,
    fun x hx hper => ?_⟩
  · exact (hsort r).imp_of_mem fun hx hy hxy hpy =>
      (hpass hx).mpr (hxy.trans ((hpass hy).mp hpy))
  · have hgt := mt (hpass hx).mpr (by simpa using hstop)
    exact (not_le.mp hgt).le
  · rcases hcases _ x hx with rfl | ⟨hxt, hx⟩
    · exact hself
    · rw [hst.deadline_of_ne hxt]
      exact h.near x hx
  · rw [hst.tick]
    exact h.now
  · rw [hst.tick]
    rcases hcases _ x hx with rfl | ⟨hxt, hx⟩
    · rw [hst.timer, update_self]
      exact ⟨hne, hnext⟩
    · rw [hst.timer_of_ne hxt] at hper ⊢
      exact h.next x hx hper

theorem timer_unlink (s : TimerSys) (t : TimerId) :
    ((s.remove t).deactivate t).timer = update s.timer t { s.timer t with activated := false } :=
  rfl

theorem Window.unlink (h : Window cfg base s) (t : TimerId) :
    Window cfg base ((s.remove t).deactivate t) := by
  have hsame : ∀ x, (((s.remove t).deactivate t).timer x).timeoutTick = (s.timer x).timeoutTick ∧
      (((s.remove t).deactivate t).timer x).initTick = (s.timer x).initTick ∧
      (((s.remove t).deactivate t).timer x).periodic = (s.timer x).periodic := by
    intro x
    rw [timer_unlink]
    by_cases hx : x = t
    · subst hx
      rw [update_self]
      exact ⟨rfl, rfl, rfl⟩
    · rw [update_of_ne hx]
      exact ⟨rfl, rfl, rfl⟩
  have hdeadline : ∀ x, ((s.remove t).deactivate t).deadline base x = s.deadline base x :=
    fun x => by rw [deadline, deadline, (hsame x).1]
  refine ⟨(h.shape.remove t).modify fun _ => rfl, fun r => ?_, fun x hx => ?_, h.now,
    fun x hx hper => ?_⟩
  · simp only [hdeadline]
    exact (h.sorted r).sublist erase_sublist
  · rw [hdeadline]
    exact h.near x (mem_of_mem_erase hx)
  · rw [(hsame x).2.1]
    rw [(hsame x).2.2] at hper
    exact h.next x (mem_of_mem_erase hx) hper

theorem expire_of_rearms (hre : s.Rearms t) :
    s.expire cfg t [] = ((s.remove t).deactivate t).rtTimerStart cfg t :=
  if_pos hre

/-- A timer of the list fires. `rt_timer_check` returns from this if `rt_timer_start` accepts the
time of a timer that is started again. -/
theorem Shape.expire (h : Shape cfg s) (ht : t ∈ s.rows .hard (cfg.level - 1))
    (hinit : s.Rearms t → (s.timer t).initTick.toNat < halfTickMax) :
    ∃ s', s.expire cfg t [] = some s' ∧ Shape cfg s' ∧ Fired cfg s [t] s' ∧
      (¬ s.Rearms t ∧ s' = (s.remove t).deactivate t ∨
        s.Rearms t ∧ ∃ lo heads, Started cfg ((s.remove t).deactivate t) t lo heads s') := by
  set s₁ := (s.remove t).deactivate t
  have h₁ : Shape cfg s₁ := (h.remove t).modify fun _ => rfl
  have hself : s₁.timer t = { s.timer t with activated := false } := by
    rw [timer_unlink, update_self]
  have hother : ∀ x, x ≠ t → s₁.timer x = s.timer x := fun x hx => by
    rw [timer_unlink, update_of_ne hx]
  have hrows : ∀ l r, ∀ f : TimerId → Bool, f t = false →
      (s₁.rows l r).filter f = (s.rows l r).filter f := fun l r f hf =>
    filter_erase ((h.rows l).nodup r) hf
  by_cases hre : s.Rearms t
  · have hlist : (s₁.timer t).list = .hard := by
      rw [hself]
      exact h.list _ _ t ht
    have hsoft : (s₁.timer t).soft = false := by
      by_contra hsoft
      rw [Timer.list, if_pos (by simpa using hsoft)] at hlist
      cases hlist
    have hinit₁ : (s₁.timer t).initTick.toNat < halfTickMax := by
      rw [hself]
      exact hinit hre
    obtain ⟨lo, heads, s', hst, heq⟩ := rtTimerStart_spec h₁ hinit₁
    rw [if_neg (by simp [hsoft])] at heq
    refine ⟨s', (expire_of_rearms hre).trans heq, hst.shape h₁, ⟨hst.tick, fun x hx => ?_,
      fun l r f hf => ?_, fun x hx => ?_⟩, .inr ⟨hre, lo, heads, hst⟩⟩
    · have hxt : x ≠ t := by simpa using hx
      rw [hst.timer_of_ne hxt, hother x hxt]
    · have hft := hf t (by simp)
      rw [hst.filter_rows h₁ hft, hrows l r f hft]
    · obtain rfl : x = t := by simpa using hx
      refine ⟨fun _ => ⟨hinit hre, ?_, ?_⟩, fun hno => absurd hre hno⟩
      · refine (hst.mem_rows h₁ .hard _).mpr (.inl ⟨rfl, hlist.symm, ?_⟩)
        have hlt := hst.lt
        omega
      · -- `rt_timer_start` sets the flag again
        rw [hst.timer, update_self, hself, ← hre.2]
        rfl
  · refine ⟨s₁, if_neg hre, h₁, ⟨rfl, fun x hx => hother x (by simpa using hx),
      fun l r f hf => hrows l r f (hf t (by simp)), fun x hx => ?_⟩, .inl ⟨hre, rfl⟩⟩
    obtain rfl : x = t := by simpa using hx
    exact ⟨fun hyes => absurd hyes hre,
      fun _ => ⟨fun l r => ((h.rows l).nodup r).not_mem_erase, hself⟩⟩

theorem Window.expire (h : Window cfg base s) (ht : t ∈ s.rows .hard (cfg.level - 1))
    (hinit : s.Rearms t → (s.timer t).initTick.toNat < halfTickMax) :
    ∃ s', s.expire cfg t [] = some s' ∧ Window cfg base s' ∧ Fired cfg s [t] s' := by
  obtain ⟨s', hs', -, hf, hcases⟩ := h.shape.expire ht hinit
  refine ⟨s', hs', ?_, hf⟩
  rcases hcases with ⟨-, rfl⟩ | ⟨hre, lo, heads, hst⟩
  · exact h.unlink t
  · obtain ⟨hne, hnext⟩ := h.next t ht hre.1
    have hself : ((s.remove t).deactivate t).timer t = { s.timer t with activated := false } := by
      rw [timer_unlink, update_self]
    refine (h.unlink t).started hst ?_ ?_ ?_
    · rw [hself]
      exact h.shape.list _ _ t ht
    · rw [hself]
      exact hne
    · rw [hself]
      exact hnext

theorem expire_rearms (hs : s.expire cfg t [] = some s') (hre : s.Rearms t) :
    (s.timer t).initTick.toNat < halfTickMax := by
  have hinit := rtTimerStart_some ((expire_of_rearms hre).symm.trans hs)
  rwa [timer_unlink, update_self] at hinit

/-! ## The loop -/

/-- The hard timers that are due, in their order. -/
def dueTimers (cfg : SkipConfig) (s : TimerSys) : List TimerId :=
  (s.rows .hard (cfg.level - 1)).filter fun t => s.Due t s.tick

theorem Shape.dueTimers_nodup (h : Shape cfg s) : (s.dueTimers cfg).Nodup :=
  ((h.rows .hard).nodup _).filter _

/-- If the first timer is not due, no timer is. -/
theorem Window.dueTimers_eq_nil (h : Window cfg base s)
    (hhead : ∀ t ∈ (s.rows .hard (cfg.level - 1)).head?, ¬ s.Due t s.tick) :
    s.dueTimers cfg = [] := by
  refine filter_eq_nil_iff.mpr fun u hu => ?_
  obtain ⟨t, rest, hrow⟩ := exists_cons_of_ne_nil (ne_nil_of_mem hu)
  have hdue := hhead t (by simp [hrow])
  have hsort := h.sorted (cfg.level - 1)
  rw [hrow, pairwise_cons] at hsort
  have hle : s.deadline base t ≤ s.deadline base u := by
    rw [hrow] at hu
    rcases mem_cons.mp hu with rfl | hu
    · exact le_rfl
    · exact hsort.1 u hu
  have ht : t ∈ s.rows .hard (cfg.level - 1) := by simp [hrow]
  rw [h.due_iff ht] at hdue
  rw [decide_eq_true_iff, h.due_iff hu]
  omega

/-- A timer that has fired is not due, if it is in a row at all. -/
theorem AfterTimeout.not_due {l : TimerList} {r : ℕ} (h : AfterTimeout cfg s t s')
    (hne : s.Rearms t → (s.timer t).initTick ≠ 0) (htick : s'.tick = s.tick)
    (ht : t ∈ s'.rows l r) : ¬ s'.Due t s'.tick := by
  by_cases hre : s.Rearms t
  · obtain ⟨hinit, -, htimer⟩ := h.rearmed hre
    have hne := hne hre
    rw [Due, htick, htimer]
    show ¬ (s.tick - (s.tick + (s.timer t).initTick)).toNat < halfTickMax
    unfold halfTickMax at *
    bv_omega
  · exact absurd ht ((h.stopped hre).1 l r)

/-- The first timer fires, and those behind it that are due are still due. -/
theorem Shape.dueTimers_cons {rest : List TimerId} (h : Shape cfg s)
    (hrow : s.rows .hard (cfg.level - 1) = t :: rest) (hdue : s.Due t s.tick)
    (hne : s.Rearms t → (s.timer t).initTick ≠ 0) (hf : Fired cfg s [t] s') :
    s.dueTimers cfg = t :: s'.dueTimers cfg := by
  have hnd := (h.rows .hard).nodup (cfg.level - 1)
  rw [hrow, nodup_cons] at hnd
  have hafter : s'.dueTimers cfg =
      (s'.rows .hard (cfg.level - 1)).filter fun x => decide (x ≠ t ∧ s.Due x s.tick) := by
    refine filter_congr fun x hx => decide_eq_decide.mpr ?_
    by_cases hxt : x = t
    · subst hxt
      have hno := (hf.after x (by simp)).not_due hne hf.tick hx
      exact ⟨fun hyes => absurd hyes hno, fun hne => absurd rfl hne.1⟩
    · rw [Due, hf.tick, hf.timer x (by simpa using hxt)]
      exact ⟨fun hd => ⟨hxt, hd⟩, fun hd => hd.2⟩
  rw [hafter, hf.rows .hard _ _ (by simp), dueTimers, hrow, filter_cons_of_pos (by simpa),
    filter_cons_of_neg (by simp)]
  refine congrArg (t :: ·) (filter_congr fun x hx => decide_eq_decide.mpr ?_)
  exact ⟨fun hd => ⟨fun hxt => hnd.1 (hxt ▸ hx), hd⟩, fun hd => hd.2⟩

/-- The loop ends if the first timer of the list is not due; otherwise this timer fires. -/
theorem checkLoopLog_cases (cfg : SkipConfig) (s : TimerSys) (k : ℕ) :
    (∀ t ∈ (s.rows .hard (cfg.level - 1)).head?, ¬ s.Due t s.tick) ∧
      (∀ rounds, checkLoopLog cfg idle rounds k s.tick s = some ([], s)) ∨
    ∃ t rest, s.rows .hard (cfg.level - 1) = t :: rest ∧ s.Due t s.tick ∧
      checkLoopLog cfg idle 0 k s.tick s = none ∧
      ∀ rounds, checkLoopLog cfg idle (rounds + 1) k s.tick s =
        (s.expire cfg t []).bind fun s =>
          (checkLoopLog cfg idle rounds (k + 1) s.tick s).map fun r => (t :: r.1, r.2) := by
  cases hrow : s.rows .hard (cfg.level - 1) with
  | nil =>
    refine .inl ⟨by simp, fun rounds => ?_⟩
    unfold checkLoopLog
    rw [hrow]
  | cons t rest =>
    by_cases hdue : s.Due t s.tick
    · refine .inr ⟨t, rest, rfl, hdue, ?_, fun rounds => ?_⟩
      · rw [checkLoopLog, hrow]
        exact if_pos hdue
      · rw [checkLoopLog, hrow]
        exact if_pos hdue
    · refine .inl ⟨by simpa using hdue, fun rounds => ?_⟩
      unfold checkLoopLog
      rw [hrow]
      exact if_neg hdue

/-- If the loop of `rt_timer_check` returns, it has fired the timers that are due, in their order.
-/
theorem checkLoopLog_fired {fired : List TimerId} (h : Window cfg base s)
    (hs : checkLoopLog cfg idle rounds k s.tick s = some (fired, s')) :
    fired = s.dueTimers cfg ∧ Fired cfg s fired s' := by
  induction rounds generalizing s k fired with
  | zero =>
    rcases checkLoopLog_cases cfg s k with ⟨hhead, heq⟩ | ⟨t, rest, -, -, heq, -⟩
    · cases (heq 0).symm.trans hs
      exact ⟨(h.dueTimers_eq_nil hhead).symm, .nil _⟩
    · cases heq.symm.trans hs
  | succ rounds ih =>
    rcases checkLoopLog_cases cfg s k with ⟨hhead, heq⟩ | ⟨t, rest, hrow, hdue, -, heq⟩
    · cases (heq (rounds + 1)).symm.trans hs
      exact ⟨(h.dueTimers_eq_nil hhead).symm, .nil _⟩
    · rw [heq] at hs
      obtain ⟨s₁, hs₁, hs⟩ := bind_eq_some_iff.mp hs
      obtain ⟨⟨later, s₂⟩, hlater, hpair⟩ := map_eq_some_iff.mp hs
      cases hpair
      have ht : t ∈ s.rows .hard (cfg.level - 1) := by simp [hrow]
      obtain ⟨s₁', hs₁', h₁, hf₁⟩ := h.expire ht (expire_rearms hs₁)
      cases hs₁.symm.trans hs₁'
      obtain ⟨rfl, hf⟩ := ih h₁ hlater
      have hcons := h.shape.dueTimers_cons hrow hdue (fun hre => (h.next t ht hre.1).1) hf₁
      refine ⟨hcons.symm, hf₁.append hf fun x hx => ?_⟩
      obtain rfl : x = t := by simpa using hx
      have hnd := h.shape.dueTimers_nodup
      rw [hcons, nodup_cons] at hnd
      exact hnd.1

/-- The loop of `rt_timer_check` returns, in lists of any order, if the timers that are started
again have times other than 0 that `rt_timer_start` accepts. Each round leaves one timer less that
is due. -/
theorem checkLoopLog_isSome (h : Shape cfg s)
    (hinit : ∀ t ∈ s.dueTimers cfg, s.Rearms t → TickOk (s.timer t).initTick)
    (hlen : (s.dueTimers cfg).length ≤ rounds) :
    (checkLoopLog cfg idle rounds k s.tick s).isSome := by
  induction rounds generalizing s k with
  | zero =>
    rcases checkLoopLog_cases cfg s k with ⟨-, heq⟩ | ⟨t, rest, hrow, hdue, -, -⟩
    · rw [heq]
      rfl
    · have ht : t ∈ s.dueTimers cfg := mem_filter.mpr ⟨by simp [hrow], by simpa using hdue⟩
      exact absurd hlen (Nat.not_le.mpr (length_pos_of_mem ht))
  | succ rounds ih =>
    rcases checkLoopLog_cases cfg s k with ⟨-, heq⟩ | ⟨t, rest, hrow, hdue, -, heq⟩
    · rw [heq]
      rfl
    · have hrow' : t ∈ s.rows .hard (cfg.level - 1) := by simp [hrow]
      have ht : t ∈ s.dueTimers cfg := mem_filter.mpr ⟨hrow', by simpa using hdue⟩
      obtain ⟨s₁, hs₁, h₁, hf₁, -⟩ := h.expire hrow' fun hre => (hinit t ht hre).2
      have hcons := h.dueTimers_cons hrow hdue (fun hre => (hinit t ht hre).1) hf₁
      have hnd := h.dueTimers_nodup
      rw [hcons, nodup_cons] at hnd
      rw [hcons, length_cons, Nat.add_le_add_iff_right] at hlen
      rw [heq, hs₁, bind_some, isSome_map]
      refine ih h₁ (fun x hx hre => ?_) hlen
      -- the timers that are still due have not changed
      have hxt : x ∉ [t] := by
        rw [mem_singleton]
        rintro rfl
        exact hnd.1 hx
      rw [Rearms, hf₁.timer x hxt] at hre
      rw [hf₁.timer x hxt]
      exact hinit x (by simp [hcons, hx]) hre

/-! ## `rt_timer_check` -/

/-- `rt_timer_check` has called the timeout functions of the timers `fired`, in this order, and gone
from `s` to `s'`: these are the timers that are due. -/
structure FiresDue (cfg : SkipConfig) (base : Tick) (s : TimerSys) (fired : List TimerId)
    (s' : TimerSys) : Prop where
  once : fired.Nodup
  due : ∀ t, t ∈ fired ↔
    t ∈ s.rows .hard (cfg.level - 1) ∧ s.deadline base t ≤ (s.tick - base).toNat
  order : fired.Pairwise fun x y => s.deadline base x ≤ s.deadline base y
  oneshot : ∀ t ∈ fired, (s.timer t).periodic = false →
    (∀ l r, t ∉ s'.rows l r) ∧ (s'.timer t).activated = false
  periodic : ∀ t ∈ fired, (s.timer t).periodic = true →
    t ∈ s'.rows .hard (cfg.level - 1) ∧ (s'.timer t).timeoutTick = s.tick + (s.timer t).initTick
  others : ∀ t, t ∉ fired → s'.timer t = s.timer t
  places : ∀ l r, (s'.rows l r).filter (fun t => decide (t ∉ fired)) =
    (s.rows l r).filter fun t => decide (t ∉ fired)

theorem Window.mem_dueTimers (h : Window cfg base s) :
    t ∈ s.dueTimers cfg ↔
      t ∈ s.rows .hard (cfg.level - 1) ∧ s.deadline base t ≤ (s.tick - base).toNat := by
  rw [dueTimers, mem_filter, decide_eq_true_iff]
  exact and_congr_right fun ht => h.due_iff ht

/-- What the timeouts have done to the timers that are due. -/
theorem Window.firesDue (h : Window cfg base s) (hf : Fired cfg s (s.dueTimers cfg) s')
    (hact : ∀ t ∈ s.dueTimers cfg, (s.timer t).periodic = true → (s.timer t).activated = true) :
    FiresDue cfg base s (s.dueTimers cfg) s' where
  once := h.shape.dueTimers_nodup
  due _ := h.mem_dueTimers
  order := (h.sorted _).sublist filter_sublist
  oneshot t ht hper := by
    have hre : ¬ s.Rearms t := fun hre => by simp [hre.1] at hper
    obtain ⟨hmem, htimer⟩ := (hf.after t ht).stopped hre
    exact ⟨hmem, by rw [htimer]⟩
  periodic t ht hper := by
    obtain ⟨-, hmem, htimer⟩ := (hf.after t ht).rearmed ⟨hper, hact t ht hper⟩
    exact ⟨hmem, by rw [htimer]⟩
  others := hf.timer
  places l r := hf.rows l r _ fun t ht => by simpa using ht

/-- Let the hard timers be ordered, with their timeouts, the present tick and the next timeouts of
the periodic timers in one window of less than `RT_TICK_MAX/2` ticks, and let the timeout functions
leave the timers and the clock alone. Then `rt_timer_check` calls the timeout functions of the
timers that are due, once each and in the order of the timeouts, unlinks and deactivates the
one-shot timers among them, links the periodic ones with the timeout `now + init_tick` and leaves
all other timers alone, just if every periodic timer that is due has `RT_TIMER_FLAG_ACTIVATED` and a
time that `rt_timer_start` accepts. -/
theorem check_fires_due_iff {rounds : ℕ} (h : Window cfg base s)
    (hlen : (s.rows .hard (cfg.level - 1)).length ≤ rounds) :
    (∃ fired s', s.rtTimerCheckLog cfg idle rounds = some (fired, s') ∧
      s.rtTimerCheck cfg idle rounds = some s' ∧ FiresDue cfg base s fired s') ↔
    ∀ t ∈ s.rows .hard (cfg.level - 1), s.deadline base t ≤ (s.tick - base).toNat →
      (s.timer t).periodic = true →
        (s.timer t).activated = true ∧ (s.timer t).initTick.toNat < halfTickMax := by
  constructor
  · rintro ⟨fired, s', hlog, -, hfires⟩ t ht hdue hper
    obtain ⟨rfl, hf⟩ := checkLoopLog_fired h hlog
    have ht' := h.mem_dueTimers.mpr ⟨ht, hdue⟩
    -- a timer that is linked afterwards has been started again
    have hre : s.Rearms t := by
      by_contra hre
      exact ((hf.after t ht').stopped hre).1 _ _ (hfires.periodic t ht' hper).1
    exact ⟨hre.2, ((hf.after t ht').rearmed hre).1⟩
  · intro hok
    have hdue : ∀ t ∈ s.dueTimers cfg, (s.timer t).periodic = true →
        (s.timer t).activated = true ∧ (s.timer t).initTick.toNat < halfTickMax := fun t ht =>
      hok t (h.mem_dueTimers.mp ht).1 (h.mem_dueTimers.mp ht).2
    have hshort : (s.dueTimers cfg).length ≤ rounds := (length_filter_le _ _).trans hlen
    obtain ⟨⟨fired, s'⟩, hlog⟩ := isSome_iff_exists.mp
      (checkLoopLog_isSome (k := 0) h.shape (fun t ht hre =>
        ⟨(h.next t (h.mem_dueTimers.mp ht).1 hre.1).1, (hdue t ht hre.1).2⟩) hshort)
    have hcheck : s.rtTimerCheck cfg idle rounds = some s' := by
      rw [← rtTimerCheckLog_snd, rtTimerCheckLog, hlog]
      rfl
    obtain ⟨rfl, hf⟩ := checkLoopLog_fired h hlog
    exact ⟨_, s', hlog, hcheck, h.firesDue hf fun t ht hper => (hdue t ht hper).1⟩

/-! ### Two runs -/

/-- Two of the sample timers run. After the next tick the periodic one is due. -/
theorem check_fires_due_sample :
    ∃ base s fired s', Window ⟨2, 1, by decide⟩ base s ∧
      s.rtTimerCheckLog ⟨2, 1, by decide⟩ idle 2 = some (fired, s') ∧
      FiresDue ⟨2, 1, by decide⟩ base s fired s' ∧ fired = [2] := by
  have hrun : StepsSatisfy (step ⟨2, 1, by decide⟩) Admissible sampleTimers [] sampleTimers := .nil
  have start : ∀ s t, TickOk (s.timer t).initTick → Admissible s (.start t) := fun _ _ h => h
  have h₁ := hrun.next (start _ 0 (by decide)) (by decide)
  have h₂ := h₁.next (start _ 2 (by decide)) (by decide)
  have hinit : sampleTimers.Initial := ⟨fun _ _ => rfl, fun _ => rfl⟩
  have hwindow := window_run hinit h₂
  obtain ⟨fired, s', hlog, -, hfires⟩ :=
    (check_fires_due_iff hwindow (by decide : _ ≤ 2)).mpr (by decide)
  refine ⟨_, _, fired, s', hwindow, hlog, hfires, ?_⟩
  have hfst := congrArg (Option.map Prod.fst) hlog
  exact (some.inj (hfst.symm.trans (by decide)))

/-- The timeout function of a one-shot timer starts the timer again, which leaves it in the list
without `RT_TIMER_FLAG_ACTIVATED`. It is made periodic. At the next tick it fires, and is not
started again. -/
theorem periodic_not_restarted :
    ∃ tr s, sampleOneshot.Initial ∧
      StepsSatisfy (step ⟨1, 0, by decide⟩) Admissible sampleOneshot tr s ∧
      Window ⟨1, 0, by decide⟩ (s.tick + 1) { s with tick := s.tick + 1 } ∧
      s.rows .hard 0 = [0] ∧ (s.timer 0).periodic = true ∧
      (rtTimerCheckLog ⟨1, 0, by decide⟩ { s with tick := s.tick + 1 } idle 1).map
        (fun r => (r.1, r.2.rows .hard 0)) = some ([0], []) ∧
      ¬ ∃ fired s', rtTimerCheckLog ⟨1, 0, by decide⟩ { s with tick := s.tick + 1 } idle 1 =
          some (fired, s') ∧
        FiresDue ⟨1, 0, by decide⟩ (s.tick + 1) { s with tick := s.tick + 1 } fired s' := by
  have hrun : StepsSatisfy (step ⟨1, 0, by decide⟩) Admissible sampleOneshot [] sampleOneshot :=
    .nil
  have start : ∀ s t, TickOk (s.timer t).initTick → Admissible s (.start t) := fun _ _ h => h
  have restart : ∀ s t rounds, TickOk (s.timer t).initTick →
      Admissible s (.tickIncrease (fun _ _ => [.start t]) rounds) := fun s t rounds h k u c hc => by
    obtain rfl : c = .start t := by simpa using hc
    exact h
  have periodic : ∀ s t, Admissible s (.control t .setPeriodic) := fun _ _ => trivial
  have h₁ := hrun.next (start _ 0 (by decide)) (by decide)
  have h₂ := h₁.next (restart _ 0 1 (by decide)) (by decide)
  have h₃ := h₂.next (periodic _ 0) (by decide)
  refine ⟨_, _, sampleOneshot_initial, h₃, window_run sampleOneshot_initial h₃,
    by decide, by decide, by decide, ?_⟩
  rintro ⟨fired, s', hlog, hfires⟩
  have hmap := congrArg (Option.map fun r => (r.1, r.2.rows .hard 0)) hlog
  have hpair : (fired, s'.rows .hard 0) = ([0], []) :=
    some.inj (hmap.symm.trans (by decide))
  obtain ⟨rfl, hrow⟩ := Prod.mk.inj hpair
  have hlinked : 0 ∈ s'.rows .hard 0 := (hfires.periodic 0 (by simp) (by decide)).1
  simp [hrow] at hlinked

/-! ## When the loop ends -/

/-- The list links `t` alone, which is due and is started again to expire at once. -/
structure Spins (cfg : SkipConfig) (s : TimerSys) (t : TimerId) : Prop where
  shape : Shape cfg s
  row : s.rows .hard (cfg.level - 1) = [t]
  rearms : s.Rearms t
  init : (s.timer t).initTick = 0
  now : (s.timer t).timeoutTick = s.tick

/-- A row that links no timer but `t` links it once. -/
theorem Shape.row_eq_singleton (h : Shape cfg s) (ht : t ∈ s.rows .hard (cfg.level - 1))
    (hall : ∀ x ∈ s.rows .hard (cfg.level - 1), x = t) : s.rows .hard (cfg.level - 1) = [t] := by
  refine perm_singleton.mp ?_
  refine (perm_ext_iff_of_nodup ((h.rows .hard).nodup _) (nodup_singleton t)).mpr ?_
  intro x
  rw [mem_singleton]
  exact ⟨hall x, fun hx => hx ▸ ht⟩

section

variable (h : Spins cfg s t)
include h

theorem Spins.expire : ∃ s', s.expire cfg t [] = some s' ∧ Spins cfg s' t := by
  obtain ⟨s', hs', hshape, hf, -⟩ := h.shape.expire (t := t) (by simp [h.row]) fun _ => by
    rw [h.init]
    decide
  obtain ⟨-, hmem, htimer⟩ := (hf.after t (by simp)).rearmed h.rearms
  refine ⟨s', hs', hshape, hshape.row_eq_singleton hmem fun x hx => ?_, ?_, ?_, ?_⟩
  · by_contra hxt
    have hx' := (hf.mem_rows (by simpa using hxt) _ _).mp hx
    rw [h.row, mem_singleton] at hx'
    exact hxt hx'
  · rw [Rearms, htimer]
    exact h.rearms
  · rw [htimer]
    exact h.init
  · rw [htimer, h.init, hf.tick]
    exact BitVec.add_zero _

theorem Spins.due : s.Due t s.tick := by
  rw [Due, h.now, BitVec.sub_self]
  decide

/-- The loop does not end. -/
theorem Spins.checkLoopLog_eq_none (rounds k : ℕ) :
    checkLoopLog cfg idle rounds k s.tick s = none := by
  induction rounds generalizing s k with
  | zero =>
    rcases checkLoopLog_cases cfg s k with ⟨hhead, -⟩ | ⟨u, rest, -, -, heq, -⟩
    · exact absurd h.due (hhead t (by simp [h.row]))
    · exact heq
  | succ rounds ih =>
    rcases checkLoopLog_cases cfg s k with ⟨hhead, -⟩ | ⟨u, rest, hrow, -, -, heq⟩
    · exact absurd h.due (hhead t (by simp [h.row]))
    · cases hrow.symm.trans h.row
      obtain ⟨s', hs', hspins⟩ := h.expire
      rw [heq, hs', bind_some, ih hspins (k + 1)]
      rfl

theorem Spins.rtTimerCheck_eq_none (rounds : ℕ) : s.rtTimerCheck cfg idle rounds = none := by
  rw [← rtTimerCheckLog_snd, rtTimerCheckLog, h.checkLoopLog_eq_none]
  rfl

end

/-- A periodic timer with the time 0 is started in a system without timers. -/
theorem Initial.spins (cfg : SkipConfig) (h : s.Initial) (hper : (s.timer t).periodic = true)
    (hsoft : (s.timer t).soft = false) (hinit : (s.timer t).initTick = 0) :
    ∃ s', s.rtTimerStart cfg t = some s' ∧ Spins cfg s' t := by
  have hok : (s.timer t).initTick.toNat < halfTickMax := by
    rw [hinit]
    decide
  have hshape₀ : Shape cfg s := h.shape
  obtain ⟨lo, heads, s', hst, heq⟩ := rtTimerStart_spec hshape₀ hok
  rw [hsoft] at heq
  have hshape := hst.shape hshape₀
  have hlist : TimerList.hard = (s.timer t).list := by rw [Timer.list, hsoft]; rfl
  have hlt := hst.lt
  have hmem := fun x => hst.mem_rows (u := x) hshape₀ .hard (cfg.level - 1)
  refine ⟨s', heq, hshape, hshape.row_eq_singleton ?_ fun x hx => ?_, ?_, ?_, ?_⟩
  · exact (hmem t).mpr (.inl ⟨rfl, hlist, by omega, by omega⟩)
  · rcases (hmem x).mp hx with ⟨hxt, -⟩ | ⟨-, hx⟩
    · exact hxt
    · rw [h.rows] at hx
      cases hx
  · rw [Rearms, hst.timer, update_self]
    exact ⟨hper, rfl⟩
  · rw [hst.timer, update_self]
    exact hinit
  · rw [hst.timer, update_self, hst.tick, hinit]
    exact BitVec.add_zero _

/-- A system with one periodic hard timer, of the time 0. -/
def sampleZero : TimerSys where
  tick := 7
  timer _ :=
    { activated := false, periodic := true, soft := false, initTick := 0, timeoutTick := 0 }
  rows _ _ := []
  randomNr := 0
  timerThreadSuspended := true
  threadTimer := 9
  starts := 0
  startNo _ := 0

end TimerSys

end RtThread
