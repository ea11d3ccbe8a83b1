import Mathlib.Algebra.Group.Int.Defs
import Mathlib.Algebra.Group.Nat.Defs
import Mathlib.Data.Int.Init
import Mathlib.Order.Lattice

/-!
# Timeouts over several suspensions

A call with a signed 32-bit timeout is suspended, woken and suspended again with what
is left of the timeout. The clock counts ticks in an unsigned 32-bit number; the ticks
of a suspension are the difference of two readings, and what is left is at least 0. A
negative timeout means that there is none.

`Step` says how the variables of the call and the clock change; `Wait` is what the call
is meant to do: the timeout it was given, the ticks of the suspensions that are over and
those of the one that is not.

* `remaining_eq`: what is left, as long as no number is out of range.
* `Agrees.step`: the variables of the call agree with its `Wait` after each step.
* `LoopEnds.first`, `LoopEnds.resumed`: the steps of a function that waits in a loop.
-/

namespace Countdown

open Function Nat

/-- The variables of a call: it is suspended with this timeout since the clock showed `start`, or it
has been woken and this much is left. -/
inductive Call
  | suspended (timeout : ℤ) (start : ℕ)
  | awake (timeout : ℤ)
  deriving DecidableEq, Repr

/-- What happens to a call: nothing, the clock ticks, it is suspended for the first time, it is
woken and suspended again at once, it is woken, it is suspended again, it is over. -/
inductive Event
  | other
  | tick
  | start (timeout : ℤ)
  | again
  | wake
  | retry
  | stop
  deriving DecidableEq, Repr

/-- What is left of the timeout after a suspension since `start`. -/
def remaining (tick : ℕ) (timeout : ℤ) (start : ℕ) : ℤ :=
  if 0 < timeout then
    let timeout := (timeout - ((tick + 2 ^ 32 - start) % 2 ^ 32 : ℕ)).bmod (2 ^ 32)
    if timeout < 0 then 0 else timeout
  else timeout

/-- How the clock and the variables of a call change. The clock is read if there is a timeout, and a
call with nothing left is not suspended. -/
inductive Step (tick : ℕ) : Option Call → Event → ℕ → Option Call → Prop
  | other (c : Option Call) : Step tick c .other tick c
  | tick (c : Option Call) : Step tick c .tick ((tick + 1) % 2 ^ 32) c
  | start {timeout : ℤ} {d : ℕ} (hne : timeout ≠ 0) (hd : 0 < timeout → d = tick) :
      Step tick none (.start timeout) tick (some (.suspended timeout d))
  | again {timeout : ℤ} {d d' : ℕ} (hne : remaining tick timeout d ≠ 0)
      (hd : 0 < remaining tick timeout d → d' = tick) :
      Step tick (some (.suspended timeout d)) .again tick
        (some (.suspended (remaining tick timeout d) d'))
  | wake {timeout : ℤ} {d : ℕ} :
      Step tick (some (.suspended timeout d)) .wake tick (some (.awake (remaining tick timeout d)))
  | retry {timeout : ℤ} {d : ℕ} (hne : timeout ≠ 0) (hd : 0 < timeout → d = tick) :
      Step tick (some (.awake timeout)) .retry tick (some (.suspended timeout d))
  | stop (c : Call) : Step tick (some c) .stop tick none

/-- The timeout that a call was given, the ticks of its suspensions that are over, and those of the
one that is not, if it is suspended. -/
structure Wait where
  timeout : ℤ
  spent : ℕ
  current : ℕ
  isSuspended : Bool
  deriving DecidableEq, Repr

/-- The suspension is over. -/
def Wait.woken (w : Wait) : Wait :=
  { w with spent := w.spent + w.current, current := 0, isSuspended := false }

def Wait.suspendAgain (w : Wait) : Wait := { w with isSuspended := true }

def Wait.count (w : Wait) : Wait :=
  if w.isSuspended then { w with current := w.current + 1 } else w

def Wait.next (w : Option Wait) : Event → Option Wait
  | .other => w
  | .tick => w.map Wait.count
  | .start timeout => some ⟨timeout, 0, 0, true⟩
  | .again => w.map fun w => w.woken.suspendAgain
  | .wake => w.map Wait.woken
  | .retry => w.map Wait.suspendAgain
  | .stop => none

/-- The call has a timeout, and neither the timeout nor the ticks of all suspensions are more than a
signed 32-bit number can hold. -/
structure Wait.InRange (w : Wait) : Prop where
  pos : 0 < w.timeout
  lt : w.timeout < 2 ^ 31
  total : w.spent + w.current < 2 ^ 31

variable {tick tick' : ℕ} {timeout : ℤ} {start e : ℕ} {w : Wait} {c c' : Option Call}
  {event : Event}

/-- As long as no number is out of range, what is left is the difference, or 0. -/
theorem remaining_eq (hpos : 0 < timeout) (hlt : timeout < 2 ^ 31) (he : e < 2 ^ 31)
    (hstart : start < 2 ^ 32) (h : (start + e) % 2 ^ 32 = tick) :
    remaining tick timeout start = max 0 (timeout - e) := by
  have helapsed : (tick + 2 ^ 32 - start) % 2 ^ 32 = e := by omega
  have hbmod : (timeout - (e : ℤ)).bmod (2 ^ 32) = timeout - e := by
    apply Int.bmod_eq_of_le <;> omega
  rw [remaining, helapsed]
  dsimp only
  rw [hbmod]
  split_ifs with hneg
  · rw [max_eq_left hneg.le]
  · rw [max_eq_right (not_lt.mp hneg)]

/-- The variables of a call in range say what the call is meant to do. -/
def CallAgrees (tick : ℕ) (w : Wait) : Call → Prop
  | .suspended timeout start => w.isSuspended = true ∧ timeout = w.timeout - w.spent ∧
      0 < timeout ∧ start < 2 ^ 32 ∧ (start + w.current) % 2 ^ 32 = tick
  | .awake timeout => w.isSuspended = false ∧ w.current = 0 ∧
      timeout = max 0 (w.timeout - w.spent)

/-- There is a call iff there is a wait, and they agree. -/
def Agrees (tick : ℕ) : Option Wait → Option Call → Prop
  | none, none => True
  | some w, some c => w.InRange → CallAgrees tick w c
  | _, _ => False

/-- What is left when a suspended call is woken. -/
theorem CallAgrees.remaining_eq (h : CallAgrees tick w (.suspended timeout start))
    (hw : w.InRange) :
    remaining tick timeout start = max 0 (w.timeout - (w.spent + w.current : ℕ)) := by
  obtain ⟨-, rfl, hpos, hstart, hmod⟩ := h
  have hlt := hw.lt
  have htotal := hw.total
  rw [remaining_eq hpos (by omega) (by omega) hstart hmod]
  omega

theorem CallAgrees.count {c : Call} (h : CallAgrees tick w c) :
    CallAgrees ((tick + 1) % 2 ^ 32) w.count c := by
  cases c with
  | suspended timeout start =>
    obtain ⟨hsusp, htimeout, hpos, hstart, hmod⟩ := h
    rw [Wait.count, if_pos hsusp]
    refine ⟨hsusp, htimeout, hpos, hstart, ?_⟩
    dsimp only
    omega
  | awake timeout =>
    have hawake : ¬ w.isSuspended = true := by simp [h.1]
    rw [Wait.count, if_neg hawake]
    exact h

/-- The call is suspended with what is left, if anything is. -/
theorem CallAgrees.suspend (htick : tick < 2 ^ 32) (hcurrent : w.current = 0)
    (htimeout : timeout = max 0 (w.timeout - w.spent)) (hne : timeout ≠ 0)
    (hd : 0 < timeout → start = tick) :
    CallAgrees tick w.suspendAgain (.suspended timeout start) := by
  have hpos : 0 < timeout := lt_of_le_of_ne (htimeout ▸ le_max_left _ _) hne.symm
  have hleft : timeout = w.timeout - w.spent := by omega
  refine ⟨rfl, hleft, hpos, ?_, ?_⟩
  · rw [hd hpos]
    exact htick
  · rw [hd hpos, Wait.suspendAgain, hcurrent, add_zero, mod_eq_of_lt htick]

theorem Wait.InRange.of_count (h : w.count.InRange) : w.InRange := by
  obtain ⟨hpos, hlt, htotal⟩ := h
  unfold Wait.count at hpos hlt htotal
  split_ifs at hpos hlt htotal
  · exact ⟨hpos, hlt, by dsimp only at htotal; omega⟩
  · exact ⟨hpos, hlt, htotal⟩

/-- A call that has a timeout agrees with its wait after each step. -/
theorem Agrees.step {w : Option Wait} (h : Agrees tick w c) (htick : tick < 2 ^ 32)
    (hs : Step tick c event tick' c') : Agrees tick' (Wait.next w event) c' := by
  cases hs with
  | other => exact h
  | tick =>
    cases w with
    | none => cases c <;> exact h
    | some w =>
      cases c with
      | none => exact h
      | some c => exact fun hw => CallAgrees.count (h hw.of_count)
  | start hne hd =>
    intro hw
    have hpos : (0 : ℤ) < _ := hw.pos
    refine ⟨rfl, by simp, hpos, ?_, ?_⟩
    · rw [hd hpos]
      exact htick
    · rw [hd hpos, add_zero, mod_eq_of_lt htick]
  | again hne hd =>
    cases w with
    | none => exact h
    | some w =>
      intro hw
      have hrange : w.InRange := ⟨hw.pos, hw.lt, hw.total⟩
      have hleft := CallAgrees.remaining_eq (h hrange) hrange
      exact CallAgrees.suspend (w := w.woken) htick rfl hleft hne hd
  | wake =>
    cases w with
    | none => exact h
    | some w =>
      intro hw
      have hrange : w.InRange := ⟨hw.pos, hw.lt, hw.total⟩
      have hleft := CallAgrees.remaining_eq (h hrange) hrange
      exact ⟨rfl, rfl, hleft⟩
  | retry hne hd =>
    cases w with
    | none => exact h
    | some w =>
      intro hw
      obtain ⟨-, hcurrent, htimeout⟩ := h ⟨hw.pos, hw.lt, hw.total⟩
      exact CallAgrees.suspend htick hcurrent htimeout hne hd
  | stop c => trivial

theorem Step.tick_lt (h : tick < 2 ^ 32) (hs : Step tick c event tick' c') : tick' < 2 ^ 32 := by
  cases hs with
  | tick => exact mod_lt _ (by decide)
  | _ => exact h

/-! ## Functions that wait in a loop -/

section Loops

variable {ι : Type*} [DecidableEq ι] {calls calls' : ι → Option Call} {self : Option ι}
  {B : Prop} {t : ι}

/-- How the loop of a call ends that is not one of `calls`: the caller is suspended with `timeout`,
which is `B`, or the loop is over. -/
inductive LoopEnds (tick : ℕ) (calls : ι → Option Call) (self : Option ι) (timeout : ℤ)
    (B : Prop) (tick' : ℕ) (calls' : ι → Option Call) : Prop
  | suspends {u : ι} {d : ℕ} (hself : self = some u) (hB : B) (hne : timeout ≠ 0)
      (hd : 0 < timeout → d = tick) (htick : tick' = tick)
      (hcalls : calls' = update calls u (some (.suspended timeout d)))
  | returns (hB : ¬ B) (htick : tick' = tick) (hcalls : calls' = calls)

/-- A call that does not wait yet. -/
theorem LoopEnds.first [Decidable B] (h : LoopEnds tick calls self timeout B tick' calls')
    (hfree : ∀ u ∈ self, calls u = none) (t : ι) :
    Step tick (calls t) (if self = some t ∧ B then .start timeout else .other) tick'
      (calls' t) := by
  cases h with
  | suspends hself hB hne hd htick hcalls =>
    rename_i u d
    rw [htick, hcalls]
    by_cases hut : u = t
    · subst hut
      rw [if_pos ⟨hself, hB⟩, hfree u hself, update_self]
      exact .start hne hd
    · rw [if_neg fun h => hut (Option.some.inj (hself.symm.trans h.1)), update_of_ne (Ne.symm hut)]
      exact .other _
  | returns hB htick hcalls =>
    rw [if_neg fun h => hB h.2, htick, hcalls]
    exact .other _

/-- A call that has waited with the variables `c`; to suspend it again is `event`. -/
theorem LoopEnds.resumed [Decidable B] {c : Call} (hcall : calls t = some c)
    (h : LoopEnds tick (update calls t none) (some t) timeout B tick' calls')
    (hevent : ∀ d, timeout ≠ 0 → (0 < timeout → d = tick) →
      Step tick (some c) event tick (some (.suspended timeout d))) (u : ι) :
    Step tick (calls u) (if t = u then (if B then event else .stop) else .other) tick'
      (calls' u) := by
  cases h with
  | suspends hself hB hne hd htick hcalls =>
    rename_i v d
    cases hself
    rw [htick, hcalls]
    by_cases htu : t = u
    · subst htu
      rw [if_pos rfl, if_pos hB, hcall, update_self]
      exact hevent d hne hd
    · rw [if_neg htu, update_of_ne (Ne.symm htu), update_of_ne (Ne.symm htu)]
      exact .other _
  | returns hB htick hcalls =>
    rw [htick, hcalls]
    by_cases htu : t = u
    · subst htu
      rw [if_pos rfl, if_neg hB, hcall, update_self]
      exact .stop _
    · rw [if_neg htu, update_of_ne (Ne.symm htu)]
      exact .other _

end Loops

end Countdown
