import RtThread.Ipc.Sem

/-!
# What a semaphore counts

A semaphore that nobody waits for is a counter: `rt_sem_release` adds one to
`value` and a non-blocking `rt_sem_take` subtracts one, or fails. `value` has 16
bits, `rt_sem_init` takes a number of 32 bits, and neither function looks for an
overflow. `Available` is the number of takes that still succeed.

* `available_iff`: it is the initial value and the releases less the successful
  takes iff that number is below `2 ^ 16`.
* `releases_lost`: a release after which no take succeeds.
-/

namespace RtThread

open Runs List Option Kernel

/-- The call does not block. -/
def SemOp.nonBlocking : SemOp → Bool
  | .take _ time => decide (time = 0)
  | _ => true

namespace SemSys

variable {M : ℕ} {s s' : SemSys} {op : SemOp} {o : Outcome} {self : Option Tid} {n : ℕ}

/-- Of the takes that `self` makes from now on without blocking, the first `n` succeed and the next
one fails. -/
def Available (M : ℕ) (s : SemSys) (self : Option Tid) (n : ℕ) : Prop :=
  ∃ s₁ s₂, exec (step M) s (replicate n (.take self 0)) = some (replicate n (.returned .eok), s₁) ∧
    s₁.step M (.take self 0) = some (.returned .etimeout, s₂)

/-- Nobody waits for the semaphore, or is in the middle of a take. -/
structure Idle (s : SemSys) : Prop where
  suspendThread : s.kernel.suspendThread () = []
  calls : s.calls = []

@[simp] theorem dispatch_sem (self : Option Tid) : (s.dispatch self).sem = s.sem := by
  cases self <;> rfl

theorem Idle.dispatch (h : s.Idle) (self : Option Tid) : (s.dispatch self).Idle := by
  cases self with
  | none => exact h
  | some t => exact ⟨h.suspendThread, h.calls⟩

theorem take_zero (hvalue : s.sem.value = 0) (hcall : s.CanCall self) :
    s.step M (.take self 0) = some (.returned .etimeout, s.dispatch self) := by
  have hzero : ¬ 0 < (s.dispatch self).sem.value := by simp [hvalue]
  rw [step, if_pos hcall]
  unfold rtSemTake
  rw [if_neg hzero, if_pos rfl]

theorem take_succ (hvalue : s.sem.value = n + 1) (hcall : s.CanCall self) :
    ∃ s', s.step M (.take self 0) = some (.returned .eok, s') ∧ s'.sem.value = n ∧
      s'.CanCall self := by
  have hpos : 0 < (s.dispatch self).sem.value := by simp [hvalue]
  rw [step, if_pos hcall]
  unfold rtSemTake
  rw [if_pos hpos]
  refine ⟨_, rfl, ?_, ?_⟩
  · simp [hvalue]
  · cases self with
    | none => exact hcall
    | some t => exact hcall

/-- The takes that succeed use up `value`. -/
theorem available_iff_value (hcall : s.CanCall self) : Available M s self n ↔ s.sem.value = n := by
  induction n generalizing s with
  | zero =>
    constructor
    · rintro ⟨s₁, s₂, hexec, hlast⟩
      cases hexec
      by_contra hne
      obtain ⟨k, hk⟩ := Nat.exists_eq_succ_of_ne_zero hne
      obtain ⟨s', hs, -⟩ := take_succ (M := M) hk hcall
      rw [hs] at hlast
      cases hlast
    · exact fun hvalue => ⟨s, _, rfl, take_zero hvalue hcall⟩
  | succ n ih =>
    cases hvalue : s.sem.value with
    | zero =>
      refine iff_of_false ?_ (by omega)
      rintro ⟨s₁, s₂, hexec, -⟩
      rw [replicate_succ, exec, take_zero hvalue hcall] at hexec
      obtain ⟨r, -, hr⟩ := map_eq_some_iff.mp hexec
      simp [replicate_succ] at hr
    | succ k =>
      -- the first take succeeds; the others are those of the state behind it
      obtain ⟨s', hs, hvalue', hcall'⟩ := take_succ (M := M) hvalue hcall
      have hiff : Available M s self (n + 1) ↔ Available M s' self n := by
        unfold Available
        rw [replicate_succ, exec, hs]
        simp [replicate_succ]
      rw [hiff, ih hcall']
      omega

/-! ## Runs without waiting -/

variable {tr : List (SemOp × Outcome)} {v : ℕ}

/-- Steps that block nobody leave the wait list empty, and `value` never gets ahead of the units
that were released. -/
theorem Idle.step (h : s.Idle) (hop : op.nonBlocking) (hs : s.step M op = some (o, s')) :
    s'.Idle ∧ s'.sem.value + taken (op, o) ≤ s.sem.value + released (op, o) := by
  cases op with
  | schedulerStart =>
    cases hs
    exact ⟨⟨by simpa using h.suspendThread, h.calls⟩, le_rfl⟩
  | startup t =>
    obtain ⟨k, hk, heq⟩ := map_eq_some_iff.mp hs
    cases heq
    refine ⟨⟨?_, h.calls⟩, le_rfl⟩
    rw [rtThreadStartup_suspendThread hk, h.suspendThread]
    rfl
  | take self time =>
    have htime : time = 0 := by simpa [SemOp.nonBlocking] using hop
    simp only [step] at hs
    split_ifs at hs with hcall
    unfold rtSemTake at hs
    by_cases hpos : 0 < (s.dispatch self).sem.value
    · rw [if_pos hpos] at hs
      cases hs
      rw [dispatch_sem] at hpos
      refine ⟨⟨(h.dispatch self).suspendThread, (h.dispatch self).calls⟩, ?_⟩
      simp only [dispatch_sem, taken, released]
      omega
    · rw [if_neg hpos, if_pos htime] at hs
      cases hs
      exact ⟨h.dispatch self, by simp [taken, released]⟩
  | resume t =>
    simp only [step] at hs
    split_ifs at hs
    unfold rtSemTakeEnd at hs
    rw [if_neg (by simp [(h.dispatch (some t)).calls])] at hs
    cases hs
  | release self =>
    simp only [step] at hs
    split_ifs at hs
    unfold rtSemRelease at hs
    rw [if_neg (by simp [(h.dispatch self).suspendThread])] at hs
    cases hs
    refine ⟨⟨(h.dispatch self).suspendThread, (h.dispatch self).calls⟩, ?_⟩
    simp only [dispatch_sem, taken, released, Nat.add_zero]
    exact Nat.mod_le _ _
  | timeout t =>
    obtain ⟨k, hk, heq⟩ := map_eq_some_iff.mp hs
    cases heq
    refine ⟨⟨?_, h.calls⟩, le_rfl⟩
    rw [(threadTimerExpires_some hk).2.2.2, h.suspendThread]
    rfl

theorem idle_run {s₀ : SemSys} (hinit : s₀.Initial v) (hrun : Run (step M) s₀ tr s)
    (hops : ∀ e ∈ tr, e.1.nonBlocking) :
    s.Idle ∧ s.sem.value + (tr.map taken).sum ≤ v + (tr.map released).sum := by
  induction hrun with
  | nil =>
    obtain ⟨flag, hf⟩ := hinit.sem
    refine ⟨⟨hinit.suspendThread, hinit.calls⟩, ?_⟩
    rw [hf]
    exact Nat.mod_le v _
  | @snoc tr s₁ s₂ op o hrun hs ih =>
    obtain ⟨hidle, hle⟩ := ih fun e he => hops e (by simp [he])
    have hop : op.nonBlocking := hops (op, o) (by simp)
    obtain ⟨hidle', hle'⟩ := hidle.step hop hs
    refine ⟨hidle', ?_⟩
    simp only [map_append, map_cons, map_nil, sum_append, sum_cons, sum_nil, Nat.add_zero]
    omega

/-- After any calls of `rt_sem_release` and of non-blocking `rt_sem_take`, the number of takes that
still succeed is the one that the calls leave, iff that number fits into `value`. -/
theorem available_iff {s₀ : SemSys} (hinit : s₀.Initial v) (hrun : Run (step M) s₀ tr s)
    (hops : ∀ e ∈ tr, e.1.nonBlocking) (hcall : s.CanCall self) :
    (tr.map taken).sum ≤ v + (tr.map released).sum ∧
      (Available M s self (v + (tr.map released).sum - (tr.map taken).sum) ↔
        v + (tr.map released).sum - (tr.map taken).sum < 2 ^ 16) := by
  obtain ⟨hidle, hle⟩ := idle_run hinit hrun hops
  obtain ⟨hok, hmod⟩ := semOk_run hinit hrun
  have hwoken : s.woken = [] := by simp [woken, hidle.calls]
  rw [hwoken, length_nil] at hmod
  refine ⟨by omega, ?_⟩
  rw [available_iff_value hcall]
  have hlt := hok.value
  unfold Nat.ModEq at hmod
  constructor
  · intro heq
    omega
  · intro hfits
    omega

/-- A semaphore with value 1, two releases and a take. -/
def sampleReleases : List SemOp := [.release none, .take none 0, .release none]

theorem sampleReleases_possible : (exec (step 32) (sampleSys 1) sampleReleases).isSome := by
  decide

theorem available_sample :
    let r := (exec (step 32) (sampleSys 1) sampleReleases).get sampleReleases_possible
    r.2.sem.value = 2 ∧ (Available 32 r.2 none 2 ↔ 2 < 2 ^ 16) :=
  ⟨by decide,
    (available_iff (⟨⟨.fifo, rfl⟩, rfl, rfl⟩ : (sampleSys 1).Initial 1)
      (Run.of_isSome sampleReleases_possible) (by decide) (by simp [CanCall])).2⟩

theorem fullRelease_possible : (exec (step 32) (sampleSys 65535) [.release none]).isSome := by
  decide

/-- The release of a semaphore with value 65535: no take succeeds after it. -/
theorem releases_lost :
    ∃ tr s, Run (step 32) (sampleSys 65535) tr s ∧ (tr.map taken).sum = 0 ∧
      (tr.map released).sum = 1 ∧ Available 32 s none 0 ∧ ¬ Available 32 s none 65536 := by
  refine ⟨_, _, Run.of_isSome fullRelease_possible, by decide, by decide, ?_, ?_⟩
  · rw [available_iff_value (by simp [CanCall])]
    decide
  · rw [available_iff_value (by simp [CanCall])]
    decide

end SemSys

end RtThread
