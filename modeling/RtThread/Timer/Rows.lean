import RtThread.Timer.Basic

/-!
# The rows of the timer lists

What holds of the rows whatever the timeouts are: a row links a timer at most once,
and a timer of one row is in all rows behind it (`RowsOk`), so the walk of
`rt_timer_start` ends. `rtTimerStart_spec` says what `rt_timer_start` does to the
state; `Shape` is kept by every function.
-/

namespace RtThread

open List Function Option

variable {timer : TimerId → Timer} {tick : Tick} {row rest : List TimerId} {t x : TimerId}
  {p : Option TimerId} {timer' : TimerId → Timer}

/-! ## One row -/

theorem dropWhile_append_cons {A B : List TimerId} (hx : x ∉ A) :
    (A ++ x :: B).dropWhile (· ≠ x) = x :: B := by
  rw [dropWhile_append_of_pos]
  · simp
  · intro y hy
    simp only [ne_eq, decide_not, Bool.not_eq_true', decide_eq_false_iff_not]
    rintro rfl
    exact hx hy

/-- The node behind a timer of the row is another timer of the row. -/
theorem nextNode_mem (hnd : row.Nodup) (ht : t ∈ row) (hx : nextNode row t = some x) :
    x ∈ row ∧ x ≠ t := by
  obtain ⟨A, B, rfl⟩ := append_of_mem ht
  obtain ⟨-, hnd', hdisj⟩ := nodup_append.mp hnd
  have htA : t ∉ A := fun h => hdisj t h t (by simp) rfl
  rw [nextNode, if_pos ht, dropWhile_append_cons htA, tail_cons] at hx
  have hxB := mem_of_head? hx
  refine ⟨by simp [hxB], ?_⟩
  rintro rfl
  exact (nodup_cons.mp hnd').1 hxB

theorem behind_of_mem (hp : ∀ x ∈ p, x ∈ row) :
    ∃ rest, behind row p = some rest ∧ ∀ y ∈ rest, y ∈ row := by
  cases p with
  | none => exact ⟨row, rfl, fun _ hy => hy⟩
  | some x =>
    refine ⟨_, if_pos (hp x rfl), fun y hy => ?_⟩
    exact (dropWhile_sublist _).mem (mem_of_mem_tail hy)

/-- The walk ends where it starts or at a timer that it has passed. -/
theorem walkRow_mem (timer : TimerId → Timer) (tick : Tick) (rest : List TimerId)
    (p : Option TimerId) :
    walkRow timer tick rest p = p ∨ ∃ x ∈ rest, walkRow timer tick rest p = some x := by
  induction rest generalizing p with
  | nil => exact .inl rfl
  | cons y rest ih =>
    have hnext : walkRow timer tick rest (some y) = p ∨
        ∃ x ∈ y :: rest, walkRow timer tick rest (some y) = some x := by
      rcases ih (some y) with h | ⟨x, hx, h⟩
      · exact .inr ⟨y, by simp, h⟩
      · exact .inr ⟨x, by simp [hx], h⟩
    unfold walkRow
    split_ifs
    · exact hnext
    · exact .inl rfl
    · exact hnext

/-- The walk looks at the timeouts only. -/
theorem walkRow_congr (h : ∀ x, (timer' x).timeoutTick = (timer x).timeoutTick)
    (rest : List TimerId) (p : Option TimerId) :
    walkRow timer' tick rest p = walkRow timer tick rest p := by
  induction rest generalizing p with
  | nil => rfl
  | cons y rest ih => simp only [walkRow, h, ih]

theorem rowHead_congr (h : ∀ x, (timer' x).timeoutTick = (timer x).timeoutTick)
    (rows : ℕ → List TimerId) (r : ℕ) : rowHead timer' rows tick r = rowHead timer rows tick r := by
  induction r with
  | zero => simp only [rowHead, walkRow_congr h]
  | succ r ih => simp only [rowHead, ih, walkRow_congr h]

theorem insertAfter_perm (hp : ∀ x ∈ p, x ∈ row) : (insertAfter t p row).Perm (t :: row) := by
  cases p with
  | none =>
    rw [insertAfter]
  | some x =>
    induction row with
    | nil => exact absurd (hp x rfl) (by simp)
    | cons y row ih =>
      unfold insertAfter
      split_ifs with hy
      · exact .swap t y row
      · have hx : x ∈ row := by
          rcases mem_cons.mp (hp x rfl) with rfl | hx
          · exact absurd rfl hy
          · exact hx
        have ih' := ih fun z hz => by
          cases hz
          exact hx
        exact (ih'.cons y).trans (.swap t y row)

/-! ## The rows of one list -/

/-- A row links a timer at most once, the rows are nested, and there are no rows but those of the
list. -/
structure RowsOk (cfg : SkipConfig) (rows : ℕ → List TimerId) : Prop where
  nodup : ∀ r, (rows r).Nodup
  nested : ∀ r, r + 1 < cfg.level → ∀ t ∈ rows r, t ∈ rows (r + 1)
  outside : ∀ r, cfg.level ≤ r → rows r = []

namespace RowsOk

variable {cfg : SkipConfig} {rows rows' : ℕ → List TimerId} {r r' : ℕ}

variable (h : RowsOk cfg rows)
include h

theorem lt_level (ht : t ∈ rows r) : r < cfg.level := by
  by_contra hr
  rw [h.outside r (by omega)] at ht
  simp at ht

/-- A timer of row `r` is in every row behind it. -/
theorem mem_of_le (ht : t ∈ rows r) (hle : r ≤ r') (hr' : r' < cfg.level) : t ∈ rows r' := by
  induction r', hle using Nat.le_induction with
  | base => exact ht
  | succ r' hle ih => exact h.nested r' hr' t (ih (by omega))

theorem mem_last (ht : t ∈ rows r) : t ∈ rows (cfg.level - 1) := by
  have := h.lt_level ht
  exact h.mem_of_le ht (by omega) (by omega)

theorem erase (t : TimerId) : RowsOk cfg fun r => (rows r).erase t where
  nodup r := (h.nodup r).erase t
  nested r hr u hu := by
    obtain ⟨hut, hu⟩ := (h.nodup r).mem_erase_iff.mp hu
    exact (h.nodup (r + 1)).mem_erase_iff.mpr ⟨hut, h.nested r hr u hu⟩
  outside r hr := by simp [h.outside r hr]

/-- The walks of `rt_timer_start` end, each at the list head or at a timer of its row. -/
theorem rowHead_some (timer : TimerId → Timer) (tick : Tick) (hr : r < cfg.level) :
    ∃ p, rowHead timer rows tick r = some p ∧ ∀ x ∈ p, x ∈ rows r := by
  induction r with
  | zero =>
    refine ⟨walkRow timer tick (rows 0) none, rfl, fun x hx => ?_⟩
    rcases walkRow_mem timer tick (rows 0) none with hw | ⟨y, hy, hw⟩
    · rw [hw] at hx
      cases hx
    · rw [hw] at hx
      cases hx
      exact hy
  | succ r ih =>
    obtain ⟨p, hp, hmem⟩ := ih (by omega)
    have hmem' : ∀ x ∈ p, x ∈ rows (r + 1) := fun x hx => h.nested r hr x (hmem x hx)
    obtain ⟨rest, hrest, hsub⟩ := behind_of_mem hmem'
    refine ⟨walkRow timer tick rest p, by simp [rowHead, hp, hrest], fun x hx => ?_⟩
    rcases walkRow_mem timer tick rest p with hw | ⟨y, hy, hw⟩
    · exact hmem' x (by rwa [hw] at hx)
    · rw [hw] at hx
      cases hx
      exact hsub x hy

/-- `t` is put into the rows from `lo` on. -/
theorem insert (lo : ℕ) {heads : ℕ → Option TimerId} (ht : ∀ r, t ∉ rows r)
    (hheads : ∀ r, r < cfg.level → ∀ x ∈ heads r, x ∈ rows r) :
    RowsOk cfg fun r =>
      if lo ≤ r ∧ r < cfg.level then insertAfter t (heads r) (rows r) else rows r := by
  have hmem : ∀ r u, r < cfg.level →
      (u ∈ insertAfter t (heads r) (rows r) ↔ u = t ∨ u ∈ rows r) := fun r u hr => by
    rw [(insertAfter_perm (hheads r hr)).mem_iff, mem_cons]
  refine ⟨fun r => ?_, fun r hr u hu => ?_, fun r hr => ?_⟩
  · split_ifs with hlo
    · rw [(insertAfter_perm (hheads r hlo.2)).nodup_iff, nodup_cons]
      exact ⟨ht r, h.nodup r⟩
    · exact h.nodup r
  · have hold : u ∈ rows r → u ∈ rows (r + 1) := h.nested r hr u
    by_cases hlo : lo ≤ r
    · rw [if_pos ⟨hlo, by omega⟩, hmem r u (by omega)] at hu
      rw [if_pos ⟨by omega, hr⟩, hmem (r + 1) u hr]
      exact hu.imp_right hold
    · rw [if_neg (by omega)] at hu
      split_ifs with hlo'
      · rw [hmem (r + 1) u hr]
        exact .inr (hold hu)
      · exact hold hu
  · rw [if_neg (by omega)]
    exact h.outside r hr

end RowsOk

/-- The second loop of `rt_timer_start` inserts the timer into some rows below `r`, down from the
last of them. -/
theorem insertHigher_eq (cfg : SkipConfig) (heads : ℕ → Option TimerId) (t : TimerId) (r : ℕ)
    (tstNr : BitVec 32) (rows : ℕ → List TimerId) :
    ∃ lo ≤ r, insertHigher cfg heads t r tstNr rows = fun r' =>
      if lo ≤ r' ∧ r' < r then insertAfter t (heads r') (rows r') else rows r' := by
  induction r generalizing tstNr rows with
  | zero => exact ⟨0, le_rfl, by funext r'; simp [insertHigher]⟩
  | succ r ih =>
    unfold insertHigher
    split_ifs
    · obtain ⟨lo, hlo, heq⟩ := ih (tstNr >>> ((cfg.mask + 1) >>> 1).toNat)
        (update rows r (insertAfter t (heads r) (rows r)))
      refine ⟨lo, by omega, heq.trans (funext fun r' => ?_)⟩
      by_cases hr : r' = r
      · subst hr
        rw [if_neg (by omega), if_pos (by omega), update_self]
      · rw [update_of_ne hr]
        by_cases hlo' : lo ≤ r' ∧ r' < r
        · rw [if_pos hlo', if_pos (by omega)]
        · rw [if_neg hlo', if_neg (by omega)]
    · exact ⟨r + 1, le_rfl, by funext r'; rw [if_neg (by omega)]⟩

/-! ## The state -/

namespace TimerSys

variable {cfg : SkipConfig} {s s' : TimerSys} {l : TimerList} {u : TimerId} {cs : List TimerCall}

/-- The rows of both lists are in order, and a timer is in the list of its kind. -/
structure Shape (cfg : SkipConfig) (s : TimerSys) : Prop where
  rows : ∀ l, RowsOk cfg (s.rows l)
  list : ∀ l r t, t ∈ s.rows l r → (s.timer t).list = l

/-- Timer `t` is linked in its list. -/
def Linked (cfg : SkipConfig) (s : TimerSys) (t : TimerId) : Prop :=
  t ∈ s.rows (s.timer t).list (cfg.level - 1)
  deriving Decidable

theorem list_modify {f : Timer → Timer} (hf : ∀ tm, (f tm).soft = tm.soft) (u : TimerId) :
    ((s.modify t f).timer u).list = (s.timer u).list := by
  by_cases hu : u = t
  · subst hu
    simp [modify, Timer.list, hf]
  · simp [modify, hu]

theorem insertRows_spec {rows : ℕ → List TimerId} (h : RowsOk cfg rows) :
    ∃ lo < cfg.level, ∃ heads : ℕ → Option TimerId,
      (∀ r < cfg.level, rowHead s.timer rows (s.timer t).timeoutTick r = some (heads r) ∧
        ∀ x ∈ heads r, x ∈ rows r) ∧
      s.insertRows cfg t rows = some fun r =>
        if lo ≤ r ∧ r < cfg.level then insertAfter t (heads r) (rows r) else rows r := by
  have hpos := cfg.pos
  set tick := (s.timer t).timeoutTick
  set heads : ℕ → Option TimerId := fun r => (rowHead s.timer rows tick r).getD none with hheads
  have hhead : ∀ r < cfg.level, rowHead s.timer rows tick r = some (heads r) ∧
      ∀ x ∈ heads r, x ∈ rows r := by
    intro r hr
    obtain ⟨p, hp, hmem⟩ := h.rowHead_some s.timer tick hr
    have hpr : heads r = p := by simp [hheads, hp]
    rw [hpr]
    exact ⟨hp, hmem⟩
  obtain ⟨lo, hlo, heq⟩ := insertHigher_eq cfg heads t (cfg.level - 1) (s.randomNr + 1)
    (update rows (cfg.level - 1) (insertAfter t (heads (cfg.level - 1)) (rows (cfg.level - 1))))
  refine ⟨lo, by omega, heads, hhead, ?_⟩
  unfold insertRows
  dsimp only
  rw [(hhead (cfg.level - 1) (by omega)).1, map_some, heq]
  refine congrArg some (funext fun r => ?_)
  by_cases hr : r = cfg.level - 1
  · subst hr
    rw [if_neg (by omega), if_pos (by omega), update_self]
  · rw [update_of_ne hr]
    by_cases hr' : lo ≤ r ∧ r < cfg.level - 1
    · rw [if_pos hr', if_pos (by omega)]
    · rw [if_neg hr', if_neg (by omega)]

section

variable (h : Shape cfg s)
include h

theorem Shape.linked {r : ℕ} (ht : t ∈ s.rows l r) : Linked cfg s t := by
  unfold Linked
  rw [h.list l r t ht]
  exact (h.rows l).mem_last ht

/-- The shape depends on the rows and on the kinds of the timers. -/
theorem Shape.congr (hrows : s'.rows = s.rows) (hlist : ∀ t, (s'.timer t).list = (s.timer t).list) :
    Shape cfg s' := by
  refine ⟨fun l => ?_, fun l r t ht => ?_⟩
  · rw [hrows]
    exact h.rows l
  · rw [hrows] at ht
    rw [hlist, h.list l r t ht]

theorem Shape.modify {f : Timer → Timer} (hf : ∀ tm, (f tm).soft = tm.soft) :
    Shape cfg (s.modify t f) :=
  h.congr rfl (list_modify hf)

theorem Shape.remove (t : TimerId) : Shape cfg (s.remove t) where
  rows l := (h.rows l).erase t
  list l r u hu := h.list l r u (mem_of_mem_erase hu)

/-- What `rt_timer_start` has done before it looks at the timer thread: the timer has left all rows
and is behind `heads r` in the rows `r` from `lo` on. -/
structure Started (cfg : SkipConfig) (s : TimerSys) (t : TimerId) (lo : ℕ)
    (heads : ℕ → Option TimerId) (s' : TimerSys) : Prop where
  tick : s'.tick = s.tick
  timer : s'.timer = update s.timer t
    { s.timer t with activated := true, timeoutTick := s.tick + (s.timer t).initTick }
  threadTimer : s'.threadTimer = s.threadTimer
  starts : s'.starts = s.starts + 1
  startNo : s'.startNo = update s.startNo t (s.starts + 1)
  lt : lo < cfg.level
  walk : ∀ r < cfg.level,
    rowHead s'.timer (fun r => (s.rows (s.timer t).list r).erase t) (s'.timer t).timeoutTick r =
      some (heads r) ∧ ∀ x ∈ heads r, x ∈ (s.rows (s.timer t).list r).erase t
  own : ∀ r, s'.rows (s.timer t).list r =
    if lo ≤ r ∧ r < cfg.level then insertAfter t (heads r) ((s.rows (s.timer t).list r).erase t)
    else (s.rows (s.timer t).list r).erase t
  other : ∀ l, l ≠ (s.timer t).list → ∀ r, s'.rows l r = (s.rows l r).erase t

/-- `rt_timer_start` starts the timer if its assertion holds. -/
theorem rtTimerStart_spec (hinit : (s.timer t).initTick.toNat < halfTickMax) :
    ∃ lo heads s₁, Started cfg s t lo heads s₁ ∧
      s.rtTimerStart cfg t = some (if (s.timer t).soft then s₁.resumeTimerThread else s₁) := by
  -- the timer as it is inserted
  set tm : Timer := { s.timer t with
    activated := false, timeoutTick := s.tick + (s.timer t).initTick } with htm
  set s₀ : TimerSys := { s.remove t with timer := update s.timer t tm } with hs₀
  have hlist : (s₀.timer t).list = (s.timer t).list := by simp [hs₀, htm, Timer.list]
  have heq : ((s.remove t).deactivate t).modify t (fun tm => { tm with
      timeoutTick := ((s.remove t).deactivate t).tick + tm.initTick }) = s₀ := by
    simp [hs₀, htm, modify, deactivate, remove]
  have hrows : RowsOk cfg (s₀.rows (s₀.timer t).list) := (h.remove t).rows _
  obtain ⟨lo, hlo, heads, hwalk, hins⟩ := insertRows_spec (s := s₀) (t := t) hrows
  rw [hlist] at hwalk hins
  set rows : ℕ → List TimerId := fun r =>
    if lo ≤ r ∧ r < cfg.level then insertAfter t (heads r) (s₀.rows (s.timer t).list r)
    else s₀.rows (s.timer t).list r with hrows'
  set s₁ : TimerSys := { s₀ with
    timer := update s₀.timer t { s₀.timer t with activated := true }
    rows := update s₀.rows (s.timer t).list rows
    randomNr := s₀.randomNr + 1
    starts := s₀.starts + 1
    startNo := update s₀.startNo t (s₀.starts + 1) } with hs₁
  have htimeout : ∀ x, (s₁.timer x).timeoutTick = (s₀.timer x).timeoutTick := by
    intro x
    by_cases hx : x = t
    · subst hx
      simp [hs₁]
    · simp [hs₁, hx]
  have hlink : s₀.link cfg t = some s₁ := by
    unfold link
    dsimp only
    rw [hlist, hins, map_some]
  have hstart : s.rtTimerStart cfg t =
      some (if (s.timer t).soft then s₁.resumeTimerThread else s₁) := by
    have hinit' : (((s.remove t).deactivate t).timer t).initTick.toNat < halfTickMax := by
      simpa [deactivate, modify, remove] using hinit
    have hsoft : (s₁.timer t).soft = (s.timer t).soft := by simp [hs₁, hs₀, htm]
    unfold rtTimerStart
    dsimp only
    rw [if_pos hinit', heq, hlink, map_some, hsoft]
  refine ⟨lo, heads, s₁, ⟨rfl, ?_, rfl, rfl, rfl, hlo, fun r hr => ?_, fun r => ?_,
    fun l hl r => ?_⟩, hstart⟩
  · simp [hs₁, hs₀, htm]
  · rw [rowHead_congr htimeout, htimeout]
    exact hwalk r hr
  · show update s₀.rows (s.timer t).list rows (s.timer t).list r = _
    rw [update_self]
    rfl
  · show update s₀.rows (s.timer t).list rows l r = _
    rw [update_of_ne hl]
    rfl

end

/-! ## What every function keeps -/

theorem rtTimerStop_cases (s : TimerSys) (t : TimerId) :
    (s.timer t).activated = true ∧ (s.rtTimerStop t).2 = (s.remove t).deactivate t ∨
      (s.timer t).activated = false ∧ (s.rtTimerStop t).2 = s := by
  unfold rtTimerStop
  split_ifs with h
  · exact .inl ⟨h, rfl⟩
  · exact .inr ⟨by simpa using h, rfl⟩

theorem rtTimerStart_some (hs : s.rtTimerStart cfg t = some s') :
    (s.timer t).initTick.toNat < halfTickMax := by
  unfold rtTimerStart at hs
  dsimp only at hs
  split_ifs at hs with hinit
  simpa [deactivate, modify, remove] using hinit

namespace Started

variable {lo : ℕ} {heads : ℕ → Option TimerId}

theorem list (h : Started cfg s t lo heads s') (u : TimerId) :
    (s'.timer u).list = (s.timer u).list := by
  rw [h.timer]
  by_cases hu : u = t
  · subst hu
    simp [Timer.list]
  · simp [hu]

variable (h : Started cfg s t lo heads s') (hshape : Shape cfg s)
include h hshape

/-- The rows have the timer from `lo` on, and the other timers as before. -/
theorem mem_rows (l : TimerList) (r : ℕ) :
    u ∈ s'.rows l r ↔
      u = t ∧ l = (s.timer t).list ∧ lo ≤ r ∧ r < cfg.level ∨ u ≠ t ∧ u ∈ s.rows l r := by
  have herase : u ∈ (s.rows l r).erase t ↔ u ≠ t ∧ u ∈ s.rows l r :=
    ((hshape.rows l).nodup r).mem_erase_iff
  by_cases hl : l = (s.timer t).list
  · subst hl
    rw [h.own]
    split_ifs with hr
    · rw [(insertAfter_perm (h.walk r hr.2).2).mem_iff, mem_cons]
      tauto
    · tauto
  · rw [h.other l hl]
    tauto

/-- The timer that is started does not count, the others do not count more than before. -/
theorem countP_le {f g : TimerId → Bool} (ht : g t = false) (hsame : ∀ x, x ≠ t → g x = f x)
    (l : TimerList) (r : ℕ) : (s'.rows l r).countP g ≤ (s.rows l r).countP f := by
  have hold : ((s.rows l r).erase t).countP g ≤ (s.rows l r).countP f := by
    have hcongr : ((s.rows l r).erase t).countP g = ((s.rows l r).erase t).countP f :=
      countP_congr fun x hx => by
        rw [hsame x (((hshape.rows l).nodup r).mem_erase_iff.mp hx).1]
    rw [hcongr]
    exact erase_sublist.countP_le
  by_cases hl : l = (s.timer t).list
  · subst hl
    rw [h.own]
    split_ifs with hr
    · rw [(insertAfter_perm (h.walk r hr.2).2).countP_eq, countP_cons_of_neg (by simp [ht])]
      exact hold
    · exact hold
  · rw [h.other l hl]
    exact hold

theorem shape : Shape cfg s' := by
  refine ⟨fun l => ?_, fun l r u hu => ?_⟩
  · by_cases hl : l = (s.timer t).list
    · subst hl
      have hrows : RowsOk cfg fun r => (s.rows (s.timer t).list r).erase t :=
        (hshape.rows _).erase t
      have hins := hrows.insert (t := t) lo
        (fun r => ((hshape.rows _).nodup r).not_mem_erase) fun r hr => (h.walk r hr).2
      have heq : s'.rows (s.timer t).list = fun r =>
          if lo ≤ r ∧ r < cfg.level then
            insertAfter t (heads r) ((s.rows (s.timer t).list r).erase t)
          else (s.rows (s.timer t).list r).erase t := funext h.own
      rw [heq]
      exact hins
    · have heq : s'.rows l = fun r => (s.rows l r).erase t := funext (h.other l hl)
      rw [heq]
      exact (hshape.rows l).erase t
  · rw [h.list]
    rcases (h.mem_rows hshape l r).mp hu with ⟨rfl, rfl, -⟩ | ⟨-, hu⟩
    · rfl
    · exact hshape.list l r u hu

end Started

section

variable (h : Shape cfg s)
include h

theorem Shape.stop (t : TimerId) : Shape cfg (s.rtTimerStop t).2 := by
  rcases rtTimerStop_cases s t with ⟨-, heq⟩ | ⟨-, heq⟩
  · rw [heq]
    exact (h.remove t).modify fun _ => rfl
  · rwa [heq]

theorem Shape.resumeTimerThread : Shape cfg s.resumeTimerThread := by
  unfold TimerSys.resumeTimerThread
  split_ifs
  · exact (h.stop s.threadTimer).congr rfl fun _ => rfl
  · exact h

theorem Shape.start (hs : s.rtTimerStart cfg t = some s') : Shape cfg s' := by
  obtain ⟨lo, heads, s₁, hst, heq⟩ := rtTimerStart_spec h (rtTimerStart_some hs)
  rw [heq] at hs
  cases hs
  have h₁ := hst.shape h
  split_ifs
  · exact h₁.resumeTimerThread
  · exact h₁

theorem Shape.control (cmd : TimerCtrl) : Shape cfg (s.rtTimerControl t cmd) := by
  cases cmd with
  | setTime tick => exact h.modify (f := fun tm => { tm with initTick := tick }) fun _ => rfl
  | setOneshot => exact h.modify (f := fun tm => { tm with periodic := false }) fun _ => rfl
  | setPeriodic => exact h.modify (f := fun tm => { tm with periodic := true }) fun _ => rfl

theorem Shape.call {c : TimerCall} (hs : s.call cfg c = some s') : Shape cfg s' := by
  cases c with
  | start t => exact h.start hs
  | stop t =>
    cases hs
    exact h.stop t
  | control t cmd =>
    cases hs
    exact h.control cmd
  | tick =>
    cases hs
    exact h.congr rfl fun _ => rfl

end

/-- A property that every call keeps is kept by a timeout function. -/
theorem runCalls_induction {I : TimerSys → Prop}
    (hcall : ∀ c ∈ cs, ∀ s s', I s → s.call cfg c = some s' → I s') (h : I s)
    (hs : runCalls cfg cs s = some s') : I s' := by
  induction cs generalizing s with
  | nil =>
    cases hs
    exact h
  | cons c cs ih =>
    obtain ⟨s₁, hs₁, hrest⟩ := bind_eq_some_iff.mp hs
    exact ih (fun c' hc' => hcall c' (by simp [hc'])) (hcall c (by simp) s s₁ h hs₁) hrest

theorem Shape.runCalls (h : Shape cfg s) (hs : runCalls cfg cs s = some s') : Shape cfg s' :=
  runCalls_induction (fun _ _ _ _ h hs => h.call hs) h hs

theorem Shape.rearm (h : Shape cfg s) (hs : s.rearm cfg t = some s') : Shape cfg s' := by
  have hd : Shape cfg (s.deactivate t) := h.modify fun _ => rfl
  unfold TimerSys.rearm at hs
  split_ifs at hs
  · exact hd.start hs
  · cases hs
    exact hd

theorem Initial.shape (h : s.Initial) : Shape cfg s where
  rows l :=
    { nodup := fun r => by simp [h.rows]
      nested := fun r _ t ht => by simp [h.rows] at ht
      outside := fun r _ => h.rows l r }
  list l r t ht := by simp [h.rows] at ht

end TimerSys

end RtThread
