import RtThread.Timer.Rows
import RtThread.Lib.Runs

/-!
# The order of the timers

The rows of the hard timer list are ordered by the ticks that remain, and timers
that expire together by when they were started (`Ordered`). The comparisons of
`rt_timer_start` are those of 32-bit numbers; they find the right place as long as
every timer expires within half the range of the clock. `rt_timer_check` leaves no
timer behind that is due, so this is still so after the next tick.

* `checkLoop_ordered`: `rt_timer_check` returns, and keeps the order.
* `skip_list_ordered`: the order holds in every state a run reaches.
-/

namespace RtThread

open Runs List Function Option Nat

/-! ## Where the walk of `rt_timer_start` ends -/

/-- A list in which nothing that satisfies `f` follows something that does not. -/
theorem filter_append_filter {α : Type*} {f : α → Bool} {l : List α}
    (h : l.Pairwise fun x y => f y = true → f x = true) :
    l.filter f ++ l.filter (fun x => !f x) = l := by
  induction l with
  | nil => rfl
  | cons x l ih =>
    obtain ⟨hx, hl⟩ := pairwise_cons.mp h
    by_cases hf : f x = true
    · simp [hf, ih hl]
    · have hnone : l.filter f = [] := by
        refine filter_eq_nil_iff.mpr fun y hy hfy => ?_
        exact hf (hx y hy hfy)
      have hall : l.filter (fun x => !f x) = l := by simpa [hnone] using ih hl
      simp [hf, hnone, hall]

section Walk

variable {timer : TimerId → Timer} {tick : Tick} {row A B C : List TimerId} {t x : TimerId}
  {p : Option TimerId}

/-- The walk of `rt_timer_start` passes the timer `x`. -/
def passes (timer : TimerId → Timer) (tick : Tick) (x : TimerId) : Bool :=
  (timer x).timeoutTick - tick = 0 ∨ ¬ ((timer x).timeoutTick - tick).toNat < halfTickMax

theorem walkRow_append (hA : ∀ x ∈ A, passes timer tick x = true)
    (hB : ∀ x ∈ B, passes timer tick x = false) :
    walkRow timer tick (A ++ B) p = A.getLast?.or p := by
  induction A generalizing p with
  | nil =>
    cases B with
    | nil => rfl
    | cons y B =>
      have hy := hB y (by simp)
      simp only [passes, decide_eq_false_iff_not, not_or, not_not] at hy
      simp only [nil_append, walkRow, if_neg hy.1, if_pos hy.2]
      rfl
  | cons y A ih =>
    have hy := hA y (by simp)
    have hrest : walkRow timer tick ((y :: A) ++ B) p = walkRow timer tick (A ++ B) (some y) := by
      simp only [passes, decide_eq_true_iff] at hy
      rw [cons_append, walkRow]
      split_ifs with h0 h1
      · rfl
      · exact absurd h1 (hy.resolve_left h0)
      · rfl
    rw [hrest, ih fun x hx => hA x (by simp [hx])]
    cases A with
    | nil => rfl
    | cons z A => simp [getLast?_cons]

theorem behind_getLast (hnd : (A ++ B).Nodup) : behind (A ++ B) A.getLast? = some B := by
  cases A using reverseRecOn with
  | nil => rfl
  | append_singleton A x =>
    have hx : x ∉ A := by
      intro hx
      rw [append_assoc, nodup_append] at hnd
      exact hnd.2.2 x hx x (by simp) rfl
    rw [getLast?_append, getLast?_singleton, some_or, behind, if_pos (by simp)]
    rw [append_assoc, singleton_append, dropWhile_append_cons hx, tail_cons]

theorem insertAfter_getLast (hnd : (A ++ B).Nodup) :
    insertAfter t A.getLast? (A ++ B) = A ++ t :: B := by
  induction A with
  | nil =>
    rw [getLast?_nil, insertAfter]
    rfl
  | cons y A ih =>
    obtain ⟨hy, hnd'⟩ := nodup_cons.mp hnd
    cases A with
    | nil =>
      rw [getLast?_singleton, cons_append, insertAfter, if_pos rfl]
      rfl
    | cons z A =>
      obtain ⟨x, hx⟩ : ∃ x, (z :: A).getLast? = some x := ⟨_, getLast?_eq_some_getLast (by simp)⟩
      have hyx : y ≠ x := by
        rintro rfl
        exact hy (mem_append_left B (mem_of_getLast? hx))
      have ih' := ih hnd'
      rw [hx] at ih'
      rw [getLast?_cons_cons, hx, cons_append, insertAfter, if_neg hyx, ih']
      rfl

/-- In rows where no timer that the walk passes follows one that stops it, the walk ends at the last
of the timers that it passes. -/
theorem rowHead_eq {cfg : SkipConfig} {rows : ℕ → List TimerId} {r : ℕ} (hrows : RowsOk cfg rows)
    (hsort : ∀ r, (rows r).Pairwise fun x y =>
      passes timer tick y = true → passes timer tick x = true) (hr : r < cfg.level) :
    rowHead timer rows tick r = some ((rows r).filter (passes timer tick)).getLast? := by
  -- what the walk passes and what it does not, in the row `r`
  set A : ℕ → List TimerId := fun r => (rows r).filter (passes timer tick)
  set B : ℕ → List TimerId := fun r => (rows r).filter fun x => !passes timer tick x
  have hsplit : ∀ r, rows r = A r ++ B r := fun r => (filter_append_filter (hsort r)).symm
  have hpass : ∀ r, ∀ x ∈ A r, passes timer tick x = true := fun r x hx =>
    (mem_filter.mp hx).2
  have hstop : ∀ r, ∀ x ∈ B r, passes timer tick x = false := fun r x hx => by
    simpa using (mem_filter.mp hx).2
  induction r with
  | zero =>
    show some (walkRow timer tick (rows 0) none) = some (A 0).getLast?
    rw [hsplit 0, walkRow_append (hpass 0) (hstop 0), or_none]
  | succ r ih =>
    rw [rowHead, ih (by omega)]
    have hnd : (A (r + 1) ++ B (r + 1)).Nodup := hsplit (r + 1) ▸ hrows.nodup (r + 1)
    show (behind (rows (r + 1)) (A r).getLast?).map _ = some (A (r + 1)).getLast?
    cases hlast : (A r).getLast? with
    | none =>
      show some (walkRow timer tick (rows (r + 1)) none) = _
      rw [hsplit (r + 1), walkRow_append (hpass _) (hstop _), or_none]
    | some x =>
      -- the walk goes on from `x`, which it passes in this row as well
      have hx : x ∈ A (r + 1) := by
        obtain ⟨hx, hpx⟩ := mem_filter.mp (mem_of_getLast? hlast)
        exact mem_filter.mpr ⟨hrows.nested r hr x hx, hpx⟩
      obtain ⟨C, D, hCD⟩ := append_of_mem hx
      have heq : A (r + 1) ++ B (r + 1) = (C ++ [x]) ++ (D ++ B (r + 1)) := by simp [hCD]
      have hbehind : behind (rows (r + 1)) (some x) = some (D ++ B (r + 1)) := by
        have h := behind_getLast (heq ▸ hnd)
        rwa [getLast?_append, ← heq, ← hsplit (r + 1)] at h
      have hD : ∀ y ∈ D, passes timer tick y = true := fun y hy =>
        hpass (r + 1) y (by simp [hCD, hy])
      rw [hbehind, map_some, walkRow_append hD (hstop _), hCD, getLast?_append, getLast?_cons]
      cases D.getLast? <;> rfl

end Walk

/-! ## The order -/

/-- A time that `rt_timer_start` accepts for a timer that does not expire at once. -/
def TickOk (v : Tick) : Prop := v ≠ 0 ∧ v.toNat < halfTickMax
  deriving Decidable

/-- The comparison of `rt_timer_start` for two times less than half the range of the clock away. -/
theorem walk_compare {a b tick : Tick} (ha : (a - tick).toNat < halfTickMax)
    (hb : (b - tick).toNat < halfTickMax) :
    (a - b = 0 ∨ ¬ (a - b).toNat < halfTickMax) ↔ (a - tick).toNat ≤ (b - tick).toNat := by
  unfold halfTickMax at *
  bv_omega

namespace TimerSys

/-- The ticks that remain until timer `t` expires: `timeout_tick - now`. -/
def remaining (s : TimerSys) (t : TimerId) : ℕ := ((s.timer t).timeoutTick - s.tick).toNat

/-- `x` expires before `y`, or with it and was started before it. -/
def Before (s : TimerSys) (x y : TimerId) : Prop :=
  s.remaining x < s.remaining y ∨ s.remaining x = s.remaining y ∧ s.startNo x < s.startNo y

/-- The hard timers that are due. -/
def dueCount (cfg : SkipConfig) (s : TimerSys) : ℕ :=
  (s.rows .hard (cfg.level - 1)).countP fun t => s.remaining t = 0

/-- The rows of the hard timers are ordered. -/
structure Ordered (cfg : SkipConfig) (s : TimerSys) : Prop where
  shape : Shape cfg s
  sorted : ∀ r, (s.rows .hard r).Pairwise s.Before
  near : ∀ r, ∀ t ∈ s.rows .hard r, s.remaining t < halfTickMax
  init : ∀ r, ∀ t ∈ s.rows .hard r, TickOk (s.timer t).initTick
  startNo : ∀ r, ∀ t ∈ s.rows .hard r, s.startNo t ≤ s.starts

/-- `s'` comes from `s` by calls at one time that keep the order: no timer has become due, and the
times are still such that timers can be started. -/
structure Keeps (cfg : SkipConfig) (s s' : TimerSys) : Prop where
  ordered : Ordered cfg s'
  tick : s'.tick = s.tick
  due : s'.dueCount cfg ≤ s.dueCount cfg
  init : ∀ t, TickOk (s.timer t).initTick → TickOk (s'.timer t).initTick

variable {cfg : SkipConfig} {s s' s'' : TimerSys} {t : TimerId}

theorem Keeps.trans (h : Keeps cfg s s') (h' : Keeps cfg s' s'') : Keeps cfg s s'' where
  ordered := h'.ordered
  tick := h'.tick.trans h.tick
  due := h'.due.trans h.due
  init t ht := h'.init t (h.init t ht)

section

variable (h : Ordered cfg s)
include h

theorem Ordered.refl : Keeps cfg s s := ⟨h, rfl, le_rfl, fun _ ht => ht⟩

/-- Timers leave the rows, and those that stay keep their timeouts. -/
theorem Ordered.shrink (hshape : Shape cfg s')
    (hrows : ∀ r, (s'.rows .hard r).Sublist (s.rows .hard r)) (htick : s'.tick = s.tick)
    (hstarts : s.starts ≤ s'.starts)
    (hsame : ∀ r, ∀ t ∈ s'.rows .hard r, (s'.timer t).timeoutTick = (s.timer t).timeoutTick ∧
      s'.startNo t = s.startNo t)
    (hinit : ∀ t, TickOk (s.timer t).initTick → TickOk (s'.timer t).initTick) : Keeps cfg s s' := by
  have hrem : ∀ r, ∀ t ∈ s'.rows .hard r, s'.remaining t = s.remaining t := fun r t ht => by
    rw [remaining, remaining, (hsame r t ht).1, htick]
  refine ⟨⟨hshape, fun r => ?_, fun r t ht => ?_, fun r t ht => ?_, fun r t ht => ?_⟩, htick, ?_,
    hinit⟩
  · refine ((h.sorted r).sublist (hrows r)).imp_of_mem fun {x y} hx hy hxy => ?_
    unfold Before
    rw [hrem r x hx, hrem r y hy, (hsame r x hx).2, (hsame r y hy).2]
    exact hxy
  · rw [hrem r t ht]
    exact h.near r t ((hrows r).mem ht)
  · exact hinit t (h.init r t ((hrows r).mem ht))
  · rw [(hsame r t ht).2]
    exact (h.startNo r t ((hrows r).mem ht)).trans hstarts
  · have hcount : s'.dueCount cfg =
        (s'.rows .hard (cfg.level - 1)).countP fun t => s.remaining t = 0 :=
      countP_congr fun t ht => by rw [hrem _ t ht]
    rw [hcount]
    exact (hrows _).countP_le

theorem Ordered.remove (t : TimerId) : Keeps cfg s (s.remove t) :=
  h.shrink (h.shape.remove t) (fun _ => erase_sublist) rfl le_rfl (fun _ _ _ => ⟨rfl, rfl⟩)
    fun _ ht => ht

/-- A write to a timer object that leaves the timeout alone. -/
theorem Ordered.modify {f : Timer → Timer} (hsoft : ∀ tm, (f tm).soft = tm.soft)
    (htimeout : ∀ tm, (f tm).timeoutTick = tm.timeoutTick)
    (hinit : ∀ tm, TickOk tm.initTick → TickOk (f tm).initTick) : Keeps cfg s (s.modify t f) := by
  refine h.shrink (h.shape.modify hsoft) (fun _ => .refl _) rfl le_rfl
    (fun _ u _ => ⟨?_, rfl⟩) fun u hu => ?_
  · by_cases hut : u = t
    · subst hut
      simp [TimerSys.modify, htimeout]
    · simp [TimerSys.modify, hut]
  · by_cases hut : u = t
    · subst hut
      simpa [TimerSys.modify] using hinit _ hu
    · simpa [TimerSys.modify, hut] using hu

theorem Ordered.deactivate (t : TimerId) : Keeps cfg s (s.deactivate t) :=
  h.modify (fun _ => rfl) (fun _ => rfl) fun _ ht => ht

theorem Ordered.stop (t : TimerId) : Keeps cfg s (s.rtTimerStop t).2 := by
  rcases rtTimerStop_cases s t with ⟨-, heq⟩ | ⟨-, heq⟩
  · rw [heq]
    exact (h.remove t).trans ((h.remove t).ordered.deactivate t)
  · rw [heq]
    exact h.refl

theorem Ordered.resumeTimerThread : Keeps cfg s s.resumeTimerThread := by
  unfold TimerSys.resumeTimerThread
  split_ifs
  · have hstop := h.stop s.threadTimer
    refine hstop.trans ?_
    exact hstop.ordered.shrink (hstop.ordered.shape.congr rfl fun _ => rfl) (fun _ => .refl _) rfl
      le_rfl (fun _ _ _ => ⟨rfl, rfl⟩) fun _ ht => ht
  · exact h.refl

end

/-! ## `rt_timer_start` -/

namespace Started

variable {lo : ℕ} {heads : ℕ → Option TimerId} {x y : TimerId}

section

variable (hst : Started cfg s t lo heads s')
include hst

theorem remaining_self : s'.remaining t = (s.timer t).initTick.toNat := by
  rw [remaining, hst.timer, hst.tick, update_self]
  show (s.tick + (s.timer t).initTick - s.tick).toNat = (s.timer t).initTick.toNat
  bv_omega

theorem timer_of_ne (hx : x ≠ t) : s'.timer x = s.timer x := by
  rw [hst.timer, update_of_ne hx]

theorem remaining_of_ne (hx : x ≠ t) : s'.remaining x = s.remaining x := by
  rw [remaining, remaining, hst.timer_of_ne hx, hst.tick]

theorem startNo_of_ne (hx : x ≠ t) : s'.startNo x = s.startNo x := by
  rw [hst.startNo, update_of_ne hx]

theorem before_iff (hx : x ≠ t) (hy : y ≠ t) : s'.Before x y ↔ s.Before x y := by
  unfold Before
  rw [hst.remaining_of_ne hx, hst.remaining_of_ne hy, hst.startNo_of_ne hx, hst.startNo_of_ne hy]

/-- The walk passes the timers that do not expire later than `t`. -/
theorem passes_iff (hinit : TickOk (s.timer t).initTick)
    (hx : x ≠ t) (hnear : s.remaining x < halfTickMax) :
    passes s'.timer (s'.timer t).timeoutTick x = true ↔ s'.remaining x ≤ s'.remaining t := by
  have hx' : s'.remaining x < halfTickMax := by rwa [hst.remaining_of_ne hx]
  have ht' : s'.remaining t < halfTickMax := by
    rw [hst.remaining_self]
    exact hinit.2
  rw [passes, decide_eq_true_iff]
  exact walk_compare hx' ht'

/-- `rt_timer_start` puts the timer behind the timers that its walk passes. If these stand before
the others in each row, a row that was ordered by `R` is still so. -/
theorem own_pairwise {R : TimerId → TimerId → Prop}
    (hshape : Shape cfg s) (hhard : (s.timer t).list = .hard)
    (hsort : ∀ r, ((s.rows .hard r).erase t).Pairwise R)
    (hpassed : ∀ r, ((s.rows .hard r).erase t).Pairwise fun x y =>
      passes s'.timer (s'.timer t).timeoutTick y = true →
        passes s'.timer (s'.timer t).timeoutTick x = true)
    (hle : ∀ r, ∀ x ∈ (s.rows .hard r).erase t,
      passes s'.timer (s'.timer t).timeoutTick x = true → R x t)
    (hlt : ∀ r, ∀ x ∈ (s.rows .hard r).erase t,
      passes s'.timer (s'.timer t).timeoutTick x = false → R t x) (r : ℕ) :
    (s'.rows .hard r).Pairwise R := by
  set rows : ℕ → List TimerId := fun r => (s.rows .hard r).erase t
  have hrowsOk : RowsOk cfg rows := (hshape.rows .hard).erase t
  have hown := hst.own r
  rw [hhard] at hown
  by_cases hr : lo ≤ r ∧ r < cfg.level
  · have hwalk := (hst.walk r hr.2).1
    rw [hhard] at hwalk
    have hhead := (rowHead_eq hrowsOk hpassed hr.2).symm.trans hwalk
    rw [if_pos hr, ← some.inj hhead] at hown
    set A := (rows r).filter (passes s'.timer (s'.timer t).timeoutTick)
    set B := (rows r).filter fun x => !passes s'.timer (s'.timer t).timeoutTick x
    have hsplit : A ++ B = rows r := filter_append_filter (hpassed r)
    have hins : s'.rows .hard r = A ++ t :: B := by
      rw [hown]
      show insertAfter t A.getLast? (rows r) = A ++ t :: B
      rw [← hsplit]
      exact insertAfter_getLast (hsplit ▸ hrowsOk.nodup r)
    have hAB : (rows r).Pairwise R := hsort r
    rw [← hsplit, pairwise_append] at hAB
    rw [hins, pairwise_append, pairwise_cons]
    refine ⟨hAB.1, ⟨fun y hy => ?_, hAB.2.1⟩, fun x hx y hy => ?_⟩
    · obtain ⟨hy, hstop⟩ := mem_filter.mp hy
      exact hlt r y hy (by simpa using hstop)
    · rcases mem_cons.mp hy with rfl | hy
      · obtain ⟨hx, hpx⟩ := mem_filter.mp hx
        exact hle r x hx hpx
      · exact hAB.2.2 x hx y hy
  · rw [if_neg hr] at hown
    rw [hown]
    exact hsort r

/-- In ordered rows, `rt_timer_start` puts the timer behind those that do not expire later than it.
-/
theorem own_sorted (h : Ordered cfg s)
    (hhard : (s.timer t).list = .hard) (hinit : TickOk (s.timer t).initTick) (r : ℕ) :
    (s'.rows .hard r).Pairwise s'.Before := by
  have hmem : ∀ {r x}, x ∈ (s.rows .hard r).erase t → x ≠ t ∧ x ∈ s.rows .hard r := fun hx =>
    ((h.shape.rows .hard).nodup _).mem_erase_iff.mp hx
  have hsort : ∀ r, ((s.rows .hard r).erase t).Pairwise s'.Before := fun r =>
    ((h.sorted r).sublist erase_sublist).imp_of_mem fun hx hy hxy =>
      (hst.before_iff (hmem hx).1 (hmem hy).1).mpr hxy
  have hpass : ∀ {r x}, x ∈ (s.rows .hard r).erase t →
      (passes s'.timer (s'.timer t).timeoutTick x = true ↔ s'.remaining x ≤ s'.remaining t) :=
    fun hx => hst.passes_iff hinit (hmem hx).1 (h.near _ _ (hmem hx).2)
  refine hst.own_pairwise h.shape hhard hsort (fun r => ?_) (fun r x hx hpx => ?_)
    (fun r x hx hstop => ?_) r
  · refine (hsort r).imp_of_mem fun {x y} hx hy hxy hpy => ?_
    have hy' := (hpass hy).mp hpy
    have hxy' : s'.remaining x ≤ s'.remaining y := hxy.elim le_of_lt fun heq => heq.1.le
    exact (hpass hx).mpr (hxy'.trans hy')
  · have hlt : s'.startNo x < s'.startNo t := by
      rw [hst.startNo_of_ne (hmem hx).1, hst.startNo, update_self]
      exact lt_succ_of_le (h.startNo r x (hmem hx).2)
    exact (lt_or_eq_of_le ((hpass hx).mp hpx)).imp_right fun heq => ⟨heq, hlt⟩
  · have hgt := mt (hpass hx).mpr (by simpa using hstop)
    exact .inl (not_le.mp hgt)

/-- The timer that is started is not due. -/
theorem dueCount_le (hshape : Shape cfg s) (hinit : TickOk (s.timer t).initTick) :
    s'.dueCount cfg ≤ s.dueCount cfg := by
  refine hst.countP_le hshape ?_ (fun x hx => ?_) .hard (cfg.level - 1)
  · rw [hst.remaining_self, decide_eq_false_iff_not]
    exact fun h0 => hinit.1 (BitVec.eq_of_toNat_eq h0)
  · rw [hst.remaining_of_ne hx]

end

end Started

/-- `rt_timer_start` keeps the order, if it is called with a time in range. -/
theorem Ordered.start (h : Ordered cfg s) (hinit : TickOk (s.timer t).initTick) :
    ∃ s', s.rtTimerStart cfg t = some s' ∧ Keeps cfg s s' := by
  obtain ⟨lo, heads, s₁, hst, heq⟩ := rtTimerStart_spec h.shape hinit.2
  have hshape := hst.shape h.shape
  have hinits : ∀ x, (s₁.timer x).initTick = (s.timer x).initTick := fun x => by
    by_cases hx : x = t
    · subst hx
      rw [hst.timer, update_self]
    · rw [hst.timer_of_ne hx]
  have hok : ∀ x, TickOk (s.timer x).initTick → TickOk (s₁.timer x).initTick := fun x hx => by
    rwa [hinits]
  have h₁ : Keeps cfg s s₁ := by
    by_cases hlist : (s.timer t).list = .hard
    · have hcases : ∀ r, ∀ x ∈ s₁.rows .hard r, x = t ∨ x ≠ t ∧ x ∈ s.rows .hard r :=
        fun r x hx => ((hst.mem_rows h.shape .hard r).mp hx).imp_left And.left
      refine ⟨⟨hshape, hst.own_sorted h hlist hinit, fun r x hx => ?_, fun r x hx => ?_,
        fun r x hx => ?_⟩, hst.tick, hst.dueCount_le h.shape hinit, hok⟩
      · rcases hcases r x hx with rfl | ⟨hxt, hx⟩
        · rw [hst.remaining_self]
          exact hinit.2
        · rw [hst.remaining_of_ne hxt]
          exact h.near r x hx
      · rcases hcases r x hx with rfl | ⟨-, hx⟩
        · exact hok x hinit
        · exact hok x (h.init r x hx)
      · rw [hst.starts]
        rcases hcases r x hx with rfl | ⟨hxt, hx⟩
        · rw [hst.startNo, update_self]
        · rw [hst.startNo_of_ne hxt]
          exact (h.startNo r x hx).trans (le_succ _)
    · -- a soft timer is in no row of the hard timers
      have hrows : ∀ r, s₁.rows .hard r = (s.rows .hard r).erase t :=
        hst.other .hard (Ne.symm hlist)
      refine h.shrink hshape (fun r => ?_) hst.tick (by rw [hst.starts]; omega)
        (fun r x hx => ?_) hok
      · rw [hrows]
        exact erase_sublist
      · rw [hrows] at hx
        have hxt := (((h.shape.rows .hard).nodup r).mem_erase_iff.mp hx).1
        exact ⟨by rw [hst.timer_of_ne hxt], hst.startNo_of_ne hxt⟩
  refine ⟨_, heq, ?_⟩
  split_ifs
  · exact h₁.trans h₁.ordered.resumeTimerThread
  · exact h₁

/-! ## `rt_timer_check` -/

/-- A call that sets and starts timers with times in range, at one time. -/
def CallOk (s : TimerSys) : TimerCall → Prop
  | .start t => TickOk (s.timer t).initTick
  | .stop _ => True
  | .control _ (.setTime v) => TickOk v
  | .control _ _ => True
  | .tick => False

theorem Keeps.callOk {c : TimerCall} (h : Keeps cfg s s') (hc : CallOk s c) : CallOk s' c := by
  cases c with
  | start t => exact h.init t hc
  | stop t => trivial
  | control t cmd => cases cmd <;> exact hc
  | tick => exact hc

section

variable (h : Ordered cfg s) {rest : List TimerId} {cs : List TimerCall} {r : ℕ}
include h

theorem Ordered.control {cmd : TimerCtrl} (hc : CallOk s (.control t cmd)) :
    Keeps cfg s (s.rtTimerControl t cmd) := by
  cases cmd with
  | setTime v =>
    exact h.modify (f := fun tm => { tm with initTick := v }) (fun _ => rfl) (fun _ => rfl)
      fun _ _ => hc
  | setOneshot =>
    exact h.modify (f := fun tm => { tm with periodic := false }) (fun _ => rfl) (fun _ => rfl)
      fun _ ht => ht
  | setPeriodic =>
    exact h.modify (f := fun tm => { tm with periodic := true }) (fun _ => rfl) (fun _ => rfl)
      fun _ ht => ht

theorem Ordered.call {c : TimerCall} (hc : CallOk s c) :
    ∃ s', s.call cfg c = some s' ∧ Keeps cfg s s' := by
  cases c with
  | start t => exact h.start hc
  | stop t => exact ⟨_, rfl, h.stop t⟩
  | control t cmd => exact ⟨_, rfl, h.control hc⟩
  | tick => exact hc.elim

/-- A timeout function returns, and keeps the order. -/
theorem Ordered.runCalls (hcs : ∀ c ∈ cs, CallOk s c) :
    ∃ s', runCalls cfg cs s = some s' ∧ Keeps cfg s s' := by
  induction cs generalizing s with
  | nil => exact ⟨s, rfl, h.refl⟩
  | cons c cs ih =>
    obtain ⟨s₁, hs₁, hk₁⟩ := h.call (hcs c (by simp))
    obtain ⟨s', hs', hk'⟩ := ih hk₁.ordered fun c' hc' => hk₁.callOk (hcs c' (by simp [hc']))
    exact ⟨s', by rw [runCalls, hs₁, bind_some, hs'], hk₁.trans hk'⟩

theorem Ordered.rearm (hinit : TickOk (s.timer t).initTick) :
    ∃ s', s.rearm cfg t = some s' ∧ Keeps cfg s s' := by
  have hd := h.deactivate t
  unfold TimerSys.rearm
  split_ifs
  · obtain ⟨s', hs', hk⟩ := hd.ordered.start (hd.init t hinit)
    exact ⟨s', hs', hd.trans hk⟩
  · exact ⟨_, rfl, hd⟩

/-- A timer at the front of the list that is due expires: there are fewer timers due than before. -/
theorem Ordered.expire (hrow : s.rows .hard (cfg.level - 1) = t :: rest) (hdue : s.remaining t = 0)
    (hcs : ∀ c ∈ cs, CallOk s c) :
    ∃ s', s.expire cfg t cs = some s' ∧ Keeps cfg s s' ∧ s'.dueCount cfg < s.dueCount cfg := by
  have hrm := h.remove t
  obtain ⟨s₁, hs₁, hk₁⟩ := hrm.ordered.runCalls fun c hc => hrm.callOk (hcs c hc)
  have hinit : TickOk (s.timer t).initTick := h.init (cfg.level - 1) t (by simp [hrow])
  obtain ⟨s', hs', hk'⟩ := hk₁.ordered.rearm (hk₁.init t (hrm.init t hinit))
  have hfewer : (s.remove t).dueCount cfg < s.dueCount cfg := by
    show ((s.rows .hard (cfg.level - 1)).erase t).countP (fun u => s.remaining u = 0) <
      (s.rows .hard (cfg.level - 1)).countP fun u => s.remaining u = 0
    rw [hrow, erase_cons_head, countP_cons_of_pos (by simpa using hdue)]
    exact lt_succ_self _
  refine ⟨s', by rw [TimerSys.expire, hs₁, bind_some, hs'], hrm.trans (hk₁.trans hk'), ?_⟩
  exact ((hk'.due.trans hk₁.due).trans_lt hfewer)

theorem Ordered.due_iff (ht : t ∈ s.rows .hard r) : s.Due t s.tick ↔ s.remaining t = 0 := by
  have hnear := h.near r t ht
  unfold Due remaining halfTickMax at *
  bv_omega

/-- The first timer of a row expires first. -/
theorem Ordered.head_le (hrow : s.rows .hard r = t :: rest) :
    ∀ u ∈ s.rows .hard r, s.remaining t ≤ s.remaining u := by
  intro u hu
  have hsort := h.sorted r
  rw [hrow, pairwise_cons] at hsort
  rw [hrow] at hu
  rcases mem_cons.mp hu with rfl | hu
  · exact le_rfl
  · exact (hsort.1 u hu).elim le_of_lt fun heq => heq.1.le

/-- The loop of `rt_timer_check` ends if no timer is due; otherwise the first timer of the list is
due, and expires. -/
theorem Ordered.checkLoop_eq (calls : ℕ → TimerId → List TimerCall) (k : ℕ) :
    s.dueCount cfg = 0 ∧ (∀ rounds, checkLoop cfg calls rounds k s.tick s = some s) ∨
    ∃ t rest, s.rows .hard (cfg.level - 1) = t :: rest ∧ s.remaining t = 0 ∧
      checkLoop cfg calls 0 k s.tick s = none ∧
      ∀ rounds, checkLoop cfg calls (rounds + 1) k s.tick s =
        (s.expire cfg t (calls k t)).bind fun s => checkLoop cfg calls rounds (k + 1) s.tick s := by
  cases hrow : s.rows .hard (cfg.level - 1) with
  | nil =>
    refine .inl ⟨by simp [dueCount, hrow], fun rounds => ?_⟩
    unfold checkLoop
    rw [hrow]
  | cons t rest =>
    have hdue := h.due_iff (r := cfg.level - 1) (t := t) (by simp [hrow])
    by_cases h0 : s.remaining t = 0
    · refine .inr ⟨t, rest, rfl, h0, ?_, fun rounds => ?_⟩
      · rw [checkLoop, hrow]
        exact if_pos (hdue.mpr h0)
      · rw [checkLoop, hrow]
        exact if_pos (hdue.mpr h0)
    · refine .inl ⟨?_, fun rounds => ?_⟩
      · refine countP_eq_zero.mpr fun u hu => ?_
        have hle := h.head_le hrow u hu
        simp only [decide_eq_true_eq]
        omega
      · unfold checkLoop
        rw [hrow]
        exact if_neg (mt hdue.mp h0)

/-- `rt_timer_check` keeps the order and leaves no timer that is due. Its loop runs at most once for
each timer that is due at the start. -/
theorem checkLoop_ordered {calls : ℕ → TimerId → List TimerCall} {k : ℕ}
    (hcalls : ∀ k t, ∀ c ∈ calls k t, CallOk s c) (rounds : ℕ) :
    (∀ s', checkLoop cfg calls rounds k s.tick s = some s' → Keeps cfg s s' ∧ s'.dueCount cfg = 0) ∧
    (s.dueCount cfg ≤ rounds → (checkLoop cfg calls rounds k s.tick s).isSome) := by
  induction rounds generalizing s k with
  | zero =>
    rcases h.checkLoop_eq calls k with ⟨h0, heq⟩ | ⟨t, rest, hrow, hrem, heq, -⟩
    · rw [heq]
      exact ⟨fun s' hs' => by cases hs'; exact ⟨h.refl, h0⟩, fun _ => rfl⟩
    · rw [heq]
      refine ⟨fun s' hs' => absurd hs' (by simp), fun hle => ?_⟩
      obtain ⟨s₁, -, -, hlt⟩ := h.expire hrow hrem (hcalls k t)
      omega
  | succ rounds ih =>
    rcases h.checkLoop_eq calls k with ⟨h0, heq⟩ | ⟨t, rest, hrow, hrem, -, heq⟩
    · rw [heq]
      exact ⟨fun s' hs' => by cases hs'; exact ⟨h.refl, h0⟩, fun _ => rfl⟩
    · obtain ⟨s₁, hs₁, hk₁, hlt⟩ := h.expire hrow hrem (hcalls k t)
      rw [heq, hs₁]
      obtain ⟨hkeeps, hends⟩ := ih (k := k + 1) hk₁.ordered fun k t c hc =>
        hk₁.callOk (hcalls k t c hc)
      refine ⟨fun s' hs' => ?_, fun hle => hends (by omega)⟩
      obtain ⟨hk, h0⟩ := hkeeps s' hs'
      exact ⟨hk₁.trans hk, h0⟩

/-! ## Runs -/

/-- The clock advances while no timer is due. -/
theorem Ordered.advance (hdue : s.dueCount cfg = 0) :
    Ordered cfg { s with tick := s.tick + 1 } := by
  have hrem : ∀ {r x}, x ∈ s.rows .hard r →
      remaining { s with tick := s.tick + 1 } x + 1 = s.remaining x := by
    intro r x hx
    have hlast : x ∈ s.rows .hard (cfg.level - 1) := (h.shape.rows .hard).mem_last hx
    have hne : s.remaining x ≠ 0 := by
      have := countP_eq_zero.mp hdue x hlast
      simpa using this
    unfold remaining at *
    bv_omega
  refine ⟨h.shape.congr rfl fun _ => rfl, fun r => ?_, fun r t ht => ?_, h.init, h.startNo⟩
  · refine (h.sorted r).imp_of_mem fun {x y} hx hy hxy => ?_
    have hx' := hrem hx
    have hy' := hrem hy
    rcases hxy with hlt | ⟨heq, hno⟩
    · exact .inl (by omega)
    · exact .inr ⟨by omega, hno⟩
  · have hnear := h.near r t ht
    have ht' := hrem ht
    show remaining { s with tick := s.tick + 1 } t < halfTickMax
    omega

end

/-- Timers are set and started with times in range. -/
def Admissible (s : TimerSys) : TimerOp → Prop
  | .start t => CallOk s (.start t)
  | .control t cmd => CallOk s (.control t cmd)
  | .check calls _ => ∀ k t, ∀ c ∈ calls k t, CallOk s c
  | .tickIncrease calls _ => ∀ k t, ∀ c ∈ calls k t, CallOk s c
  | .stop _ => True
  | .detach _ => True
  | .threadSuspend => True

theorem step_ordered {op : TimerOp} {o : Unit} (h : Ordered cfg s ∧ s.dueCount cfg = 0)
    (hop : Admissible s op) (hs : s.step cfg op = some (o, s')) :
    Ordered cfg s' ∧ s'.dueCount cfg = 0 := by
  obtain ⟨hord, h0⟩ := h
  have hkeep : ∀ {s'}, Keeps cfg s s' → Ordered cfg s' ∧ s'.dueCount cfg = 0 := fun hk =>
    ⟨hk.ordered, le_zero.mp (h0 ▸ hk.due)⟩
  obtain ⟨s₁, hs₁, heq⟩ := map_eq_some_iff.mp hs
  cases heq
  cases op with
  | start t =>
    obtain ⟨s₂, hs₂, hk⟩ := hord.start hop
    cases hs₂.symm.trans hs₁
    exact hkeep hk
  | stop t =>
    cases hs₁
    exact hkeep (hord.stop t)
  | detach t =>
    cases hs₁
    exact hkeep (hord.remove t)
  | control t cmd =>
    cases hs₁
    exact hkeep (hord.control hop)
  | check calls rounds =>
    exact hkeep ((checkLoop_ordered hord hop rounds).1 _ hs₁).1
  | tickIncrease calls rounds =>
    obtain ⟨hk, h0'⟩ := (checkLoop_ordered (hord.advance h0) hop rounds).1 _ hs₁
    exact ⟨hk.ordered, h0'⟩
  | threadSuspend =>
    cases hs₁
    exact hkeep (hord.shrink (hord.shape.congr rfl fun _ => rfl) (fun _ => .refl _) rfl le_rfl
      (fun _ _ _ => ⟨rfl, rfl⟩) fun _ ht => ht)

theorem Initial.ordered (h : s.Initial) : Ordered cfg s ∧ s.dueCount cfg = 0 := by
  refine ⟨⟨h.shape, fun r => ?_, fun r t ht => ?_, fun r t ht => ?_, fun r t ht => ?_⟩, ?_⟩
  · simp [h.rows]
  · simp [h.rows] at ht
  · simp [h.rows] at ht
  · simp [h.rows] at ht
  · simp [dueCount, h.rows]

/-- Every run that sets and starts timers with times in range keeps the order, and leaves no timer
that is due. -/
theorem ordered_run {s₀ : TimerSys} {tr : List (TimerOp × Unit)} (h₀ : s₀.Initial)
    (hrun : StepsSatisfy (step cfg) Admissible s₀ tr s) :
    Ordered cfg s ∧ s.dueCount cfg = 0 :=
  hrun.inv (I := fun s => Ordered cfg s ∧ s.dueCount cfg = 0) h₀.ordered
    fun _ _ _ _ h hop hs => step_ordered h hop hs

/-- `rt_timer_list_next_timeout` gives the timeout of a timer that expires first. -/
theorem Ordered.nextTimeout (h : Ordered cfg s) :
    s.rows .hard (cfg.level - 1) = [] ∧ s.rtTimerListNextTimeout cfg .hard = 0xffffffff ∨
    ∃ t ∈ s.rows .hard (cfg.level - 1),
      s.rtTimerListNextTimeout cfg .hard = (s.timer t).timeoutTick ∧
      ∀ u ∈ s.rows .hard (cfg.level - 1), s.remaining t ≤ s.remaining u := by
  unfold rtTimerListNextTimeout
  cases hrow : s.rows .hard (cfg.level - 1) with
  | nil => exact .inl ⟨rfl, rfl⟩
  | cons t rest =>
    exact .inr ⟨t, by simp, rfl, by rw [← hrow]; exact h.head_le hrow⟩

/-- In every run, for every number of rows, in which timers are started with times from 1 to
`RT_TICK_MAX/2 - 1` and the clock advances one tick at a time, each time with a complete
`rt_timer_check`: each row is ordered by the ticks that remain, timers with the same timeout stand
in the order of their starts, a timer of one row is in all rows behind it, and
`rt_timer_list_next_timeout` gives the timeout of a timer that expires first. The next
`rt_timer_check` returns. -/
theorem skip_list_ordered {s₀ : TimerSys} {tr : List (TimerOp × Unit)} (h₀ : s₀.Initial)
    (hrun : StepsSatisfy (step cfg) Admissible s₀ tr s) :
    (∀ r, (s.rows .hard r).Pairwise fun x y => s.remaining x ≤ s.remaining y) ∧
    (∀ r, (s.rows .hard r).Pairwise fun x y =>
      (s.timer x).timeoutTick = (s.timer y).timeoutTick → s.startNo x < s.startNo y) ∧
    (∀ r r', r ≤ r' → r' < cfg.level → ∀ t ∈ s.rows .hard r, t ∈ s.rows .hard r') ∧
    (s.rows .hard (cfg.level - 1) = [] ∧ s.rtTimerListNextTimeout cfg .hard = 0xffffffff ∨
      ∃ t ∈ s.rows .hard (cfg.level - 1),
        s.rtTimerListNextTimeout cfg .hard = (s.timer t).timeoutTick ∧
        ∀ u ∈ s.rows .hard (cfg.level - 1), s.remaining t ≤ s.remaining u) ∧
    ∀ calls, (∀ k t, ∀ c ∈ calls k t, CallOk s c) → ∀ rounds,
      (s.rows .hard (cfg.level - 1)).length ≤ rounds →
        (s.step cfg (.tickIncrease calls rounds)).isSome := by
  obtain ⟨h, h0⟩ := ordered_run h₀ hrun
  refine ⟨fun r => (h.sorted r).imp fun hxy => hxy.elim le_of_lt fun heq => heq.1.le,
    fun r => (h.sorted r).imp fun {x y} hxy heq => ?_,
    fun r r' hle hr' t ht => (h.shape.rows .hard).mem_of_le ht hle hr', h.nextTimeout,
    fun calls hcalls rounds hlen => ?_⟩
  · have hrem : s.remaining x = s.remaining y := by rw [remaining, remaining, heq]
    exact (hxy.resolve_left hrem.not_lt).2
  · have hdue : dueCount cfg { s with tick := s.tick + 1 } ≤ rounds :=
      countP_le_length.trans hlen
    have hsome := (checkLoop_ordered (k := 0) (h.advance h0) hcalls rounds).2 hdue
    rw [step, isSome_map]
    exact hsome

/-! ### A run -/

/-- Three timers that do not run, at a tick before the clock wraps around: timers 0 and 1 expire
after three ticks, timer 2 after one, and it is periodic. -/
def sampleTimers : TimerSys where
  tick := 0xfffffffe
  timer t :=
    { activated := false, periodic := t = 2, soft := false, initTick := if t = 2 then 1 else 3,
      timeoutTick := 0 }
  rows _ _ := []
  randomNr := 0
  timerThreadSuspended := true
  threadTimer := 9
  starts := 0
  startNo _ := 0

/-- The timers are started and the clock wraps around. -/
theorem skip_list_ordered_sample :
    ∃ tr s, StepsSatisfy (step ⟨2, 1, by decide⟩) Admissible sampleTimers tr s ∧
      s.tick = 0 ∧ s.rows .hard 1 = [0, 1, 2] ∧
      (s.rows .hard 1).Pairwise (fun x y => s.remaining x ≤ s.remaining y) := by
  have idle : ∀ s rounds, Admissible s (.tickIncrease (fun _ _ => []) rounds) :=
    fun s _ _ _ c hc => absurd hc (by simp)
  have hrun : StepsSatisfy (step ⟨2, 1, by decide⟩) Admissible sampleTimers [] sampleTimers := .nil
  have start : ∀ s t, TickOk (s.timer t).initTick → Admissible s (.start t) := fun _ _ h => h
  have h₁ := hrun.next (start _ 0 (by decide)) (by decide)
  have h₂ := h₁.next (start _ 1 (by decide)) (by decide)
  have h₃ := h₂.next (start _ 2 (by decide)) (by decide)
  have h₄ := h₃.next (idle _ 2) (by decide)
  have h₅ := h₄.next (idle _ 2) (by decide +kernel)
  have hinit : sampleTimers.Initial := ⟨fun _ _ => rfl, fun _ => rfl⟩
  exact ⟨_, _, h₅, by decide +kernel, by decide +kernel, (skip_list_ordered hinit h₅).1 1⟩

end TimerSys

end RtThread
