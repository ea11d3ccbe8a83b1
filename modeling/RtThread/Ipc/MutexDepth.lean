import RtThread.Ipc.Priority

/-!
# Recursive mutexes

A thread may take a mutex that it owns; `mutex->hold` counts the takes, and the
mutex is given up by the release that finds it at 1. `hold` has eight bits, and
`rt_mutex_take` does not look for an overflow: of `n` nested takes it keeps `n`
modulo 256.

`HoldStep` says once what a step does to the owner and to `hold` of a mutex. The
count starts when the thread becomes the owner (`Acquires`), by a take of the free
mutex or by the release of another thread that hands the mutex over.

* `nested_release_count`: after `n` nested takes, the mutex is given up by release
  number `(n - 1) % 256 + 1`, which is `n` iff `n ≤ 256`, and until then no other
  thread's take succeeds.
* `depth_overflow`: after 257 nested takes, one release gives the mutex up.
-/

namespace RtThread.MutexSys

open Runs List Option

variable {Q : Type} [DecidableEq Q] {M : ℕ} {s s' : MutexSys Q} {t u : Tid} {m : Q}
variable {op : MutexOp Q} {o : Outcome} {m' : Q}

/-- The successful takes of mutex `m` by thread `t` that did not wait. -/
def takes (t : Tid) (m : Q) : MutexOp Q × Outcome → ℕ
  | (.take u m' _, .returned .eok) => if u = t ∧ m' = m then 1 else 0
  | _ => 0

/-- The successful releases of mutex `m` by thread `t`. -/
def releases (t : Tid) (m : Q) : MutexOp Q × Outcome → ℕ
  | (.release u m', .returned .eok) => if u = t ∧ m' = m then 1 else 0
  | _ => 0

/-! ## What a step does to `hold` -/

/-- What the step does to mutex `m`, which is `mx` before and `mx'` after it. -/
inductive HoldStep (m : Q) (mx mx' : Mutex) : MutexOp Q → Outcome → Prop
  | first {t : Tid} {time : ℤ} (howner : mx.owner = none) (howner' : mx'.owner = some t)
      (hhold : mx'.hold = 1) : HoldStep m mx mx' (.take t m time) (.returned .eok)
  | again {t : Tid} {time : ℤ} (howner : mx.owner = some t) (howner' : mx'.owner = some t)
      (hhold : mx'.hold = (mx.hold + 1) % 2 ^ 8) :
      HoldStep m mx mx' (.take t m time) (.returned .eok)
  | keeps {t : Tid} (howner : mx.owner = some t) (hone : mx.hold ≠ 1)
      (howner' : mx'.owner = some t) (hhold : mx'.hold = (mx.hold + 2 ^ 8 - 1) % 2 ^ 8) :
      HoldStep m mx mx' (.release t m) (.returned .eok)
  | givesUp {t : Tid} (howner : mx.owner = some t) (hone : mx.hold = 1)
      (howner' : mx'.owner ≠ some t) (hhold : mx'.hold = if mx'.owner = none then 0 else 1) :
      HoldStep m mx mx' (.release t m) (.returned .eok)
  | other {op : MutexOp Q} {o : Outcome} (howner : mx'.owner = mx.owner)
      (hhold : mx'.hold = mx.hold) (htakes : ∀ t, takes t m (op, o) = 0)
      (hreleases : ∀ t, releases t m (op, o) = 0) : HoldStep m mx mx' op o

/-- A mutex that nobody owns is not held. -/
def FreeOk (s : MutexSys Q) : Prop := ∀ m, (s.mutex m).owner = none → (s.mutex m).hold = 0

theorem holdStep_take {time : ℤ} (h : MutexOk s) (hfree : FreeOk s)
    (he : TakeEffect s t m' time o s') (m : Q) :
    HoldStep m (s.mutex m) (s'.mutex m) (.take t m' time) o := by
  cases he with
  | again howner hthread hlists =>
    by_cases hm : m = m'
    · subst hm
      exact .again howner (by simpa using howner) (by simp)
    · exact .other (by simp [hm]) (by simp [hm]) (by simp [takes, Ne.symm hm]) (by simp [releases])
  | free howner hvalue hthread hlists =>
    by_cases hm : m = m'
    · subst hm
      have hnone := (h.free hvalue).2.1
      exact .first hnone (by simp) (by simp [hfree m hnone])
    · exact .other (by simp [hm]) (by simp [hm]) (by simp [takes, Ne.symm hm]) (by simp [releases])
  | fails howner hvalue htime hthread hlists =>
    exact .other rfl rfl (by simp [takes]) (by simp [releases])
  | blocks htime hb =>
    exact .other (by rw [hb.mutex]) (by rw [hb.mutex]) (by simp [takes]) (by simp [releases])

theorem holdStep_release (h : MutexOk s) (he : ReleaseEffect s t m' o s') (m : Q) :
    HoldStep m (s.mutex m) (s'.mutex m) (.release t m') o := by
  have hlt := h.hold m'
  cases he with
  | refused howner hthread hlists => exact .other rfl rfl (by simp [takes]) (by simp [releases])
  | holds howner hne hthread hlists =>
    by_cases hm : m = m'
    · subst hm
      exact .keeps howner (by omega) (by simpa using howner) (by simp)
    · exact .other (by simp [hm]) (by simp [hm]) (by simp [takes]) (by simp [releases, Ne.symm hm])
  | handsOver howner hzero hhead hne hk =>
    by_cases hm : m = m'
    · subst hm
      exact .givesUp howner (by omega) (by simpa using hne) (by simp)
    · exact .other (by simp [hm]) (by simp [hm]) (by simp [takes]) (by simp [releases, Ne.symm hm])
  | frees howner hzero hempty hk =>
    by_cases hm : m = m'
    · subst hm
      exact .givesUp howner (by omega) (by simp) (by simp)
    · exact .other (by simp [hm]) (by simp [hm]) (by simp [takes]) (by simp [releases, Ne.symm hm])

theorem holdStep (h : MutexOk s) (hfree : FreeOk s) (hs : s.step M op = some (o, s')) (m : Q) :
    HoldStep m (s.mutex m) (s'.mutex m) op o := by
  cases op with
  | schedulerStart =>
    cases hs
    exact .other rfl rfl (by simp [takes]) (by simp [releases])
  | startup t | timeout t =>
    obtain ⟨k, -, heq⟩ := map_eq_some_iff.mp hs
    cases heq
    exact .other rfl rfl (by simp [takes]) (by simp [releases])
  | take t m' time =>
    obtain ⟨-, he⟩ := h.take_step hs
    exact holdStep_take h.dispatch hfree he m
  | resume t =>
    simp only [step] at hs
    split_ifs at hs with ht
    unfold rtMutexTakeEnd at hs
    split at hs
    · cases hs
    · cases hs
      exact .other rfl rfl (by simp [takes]) (by simp [releases])
  | release t m' =>
    obtain ⟨-, he⟩ := h.release_step hs
    exact holdStep_release h.dispatch he m

theorem FreeOk.step (h : MutexOk s) (hfree : FreeOk s) (hs : s.step M op = some (o, s')) :
    FreeOk s' := by
  intro m hnone
  cases holdStep h hfree hs m with
  | first _ howner' | again _ howner' | keeps _ _ howner' => simp [hnone] at howner'
  | givesUp _ _ _ hhold => rw [hhold, if_pos hnone]
  | other howner hhold =>
    rw [hhold]
    exact hfree m (howner ▸ hnone)

theorem freeOk_run {s₀ : MutexSys Q} {tr : List (MutexOp Q × Outcome)} (hinit : s₀.Initial)
    (hrun : Run (step M) s₀ tr s) : MutexOk s ∧ FreeOk s := by
  refine hrun.inv (I := fun s => MutexOk s ∧ FreeOk s) ⟨hinit.mutexOk, fun m _ => ?_⟩
    fun s op o s' h hs => ⟨h.1.step hs, h.2.step h.1 hs⟩
  obtain ⟨flag, hf⟩ := hinit.mutex m
  rw [hf]
  rfl

/-! ## Nested takes -/

/-- The step from `s` to `s'` makes thread `t` the owner of mutex `m`. -/
def Acquires (M : ℕ) (s : MutexSys Q) (t : Tid) (m : Q) (s' : MutexSys Q) : Prop :=
  (s.mutex m).owner ≠ some t ∧ (s'.mutex m).owner = some t ∧ ∃ op o, s.step M op = some (o, s')

/-- No take of mutex `m` by another thread than `t` succeeds now, at once or after it has waited. -/
def Excludes (M : ℕ) (s : MutexSys Q) (t : Tid) (m : Q) : Prop :=
  ∀ u ≠ t, ∀ s', (∀ time, s.step M (.take u m time) ≠ some (.returned .eok, s')) ∧
    (s.calls u = some m → s.step M (.resume u) ≠ some (.returned .eok, s'))

theorem Acquires.hold (h : MutexOk s) (hfree : FreeOk s) (hacq : Acquires M s t m s') :
    (s'.mutex m).owner = some t ∧ (s'.mutex m).hold = 1 := by
  obtain ⟨hne, howner, op, o, hs⟩ := hacq
  refine ⟨howner, ?_⟩
  cases holdStep h hfree hs m with
  | first _ _ hhold => exact hhold
  | again howner₀ howner' | keeps howner₀ _ howner' =>
    exact absurd (howner₀.trans (howner'.symm.trans howner)) hne
  | givesUp _ _ _ hhold => rw [hhold, howner, if_neg (by simp)]
  | other heq => exact absurd (heq ▸ howner) hne

theorem MutexOk.excludes (h : MutexOk s) (howner : (s.mutex m).owner = some t) :
    Excludes M s t m := by
  intro u hu s'
  refine ⟨fun time hs => ?_, fun hcall hs => ?_⟩
  · obtain ⟨-, he⟩ := h.take_step hs
    cases he with
    | again howner' =>
      have heq : some t = some u := howner.symm.trans howner'
      exact hu (some.inj heq).symm
    | free _ hvalue =>
      have hnone := (h.free hvalue).2.1
      simp [howner] at hnone
  · have howner' := h.resume_eok hcall hs
    simp only [MutexSys.step] at hs
    split_ifs at hs
    unfold rtMutexTakeEnd at hs
    split at hs
    · cases hs
    · simp only [some.injEq, Prod.mk.injEq] at hs
      obtain ⟨-, rfl⟩ := hs
      have heq : some t = some u := howner.symm.trans howner'
      exact hu (some.inj heq).symm

theorem MutexOk.release_eok (h : MutexOk s) (howner : (s.mutex m).owner = some t)
    (hs : s.step M (.release t m) = some (o, s')) : o = .returned .eok := by
  obtain ⟨-, he⟩ := h.release_step hs
  cases he with
  | refused hne => exact absurd howner hne
  | holds => rfl
  | handsOver => rfl
  | frees => rfl

variable {tr : List (MutexOp Q × Outcome)} {s₁ s₂ : MutexSys Q}

/-- As long as the owner only takes, or has released less often than `hold` says, it stays the owner
and `hold` counts its takes and releases. -/
theorem hold_run (h : MutexOk s₁) (hfree : FreeOk s₁) (howner : (s₁.mutex m).owner = some t)
    (hrun : Run (step M) s₁ tr s₂)
    (hcond : (tr.map (releases t m)).sum = 0 ∨ (tr.map (takes t m)).sum = 0 ∧
      (tr.map (releases t m)).sum ≤ ((s₁.mutex m).hold + 255) % 256) :
    MutexOk s₂ ∧ FreeOk s₂ ∧ (s₂.mutex m).owner = some t ∧
      ((s₂.mutex m).hold + (tr.map (releases t m)).sum) % 256 =
        ((s₁.mutex m).hold + (tr.map (takes t m)).sum) % 256 := by
  induction hrun with
  | nil => exact ⟨h, hfree, howner, rfl⟩
  | @snoc tr s₂ s₃ op o hrun hs ih =>
    simp only [map_append, map_cons, map_nil, sum_append, sum_cons,
      sum_nil, Nat.add_zero] at hcond ⊢
    obtain ⟨hok, hfree', howner', hsum⟩ := ih (by omega)
    refine ⟨hok.step hs, hfree'.step hok hs, ?_⟩
    have howner_eq : ∀ u, (s₂.mutex m).owner = some u → u = t := fun u hu =>
      some.inj (hu.symm.trans howner')
    cases holdStep hok hfree' hs m with
    | first hnone => simp [hnone] at howner'
    | again hu howner₃ hhold | keeps hu hone howner₃ hhold =>
      obtain rfl := howner_eq _ hu
      refine ⟨howner₃, ?_⟩
      simp only [takes, releases, and_self, if_true, hhold]
      omega
    | givesUp hu hone =>
      -- `hold` says that there have been as many releases as the bound allows
      obtain rfl := howner_eq _ hu
      simp only [takes, releases, and_self, if_true] at hcond
      omega
    | other heq hhold htakes hreleases =>
      rw [htakes, hreleases, heq, hhold]
      exact ⟨howner', hsum⟩

/-- After `n` nested takes of mutex `m` by thread `t`, the release by `t` that gives the mutex up
has the number `(n - 1) % 256 + 1`, and before it no other thread's take succeeds. -/
theorem nested_release_count {s₀ s₃ : MutexSys Q} {tr₀ tr₁ tr₂ : List (MutexOp Q × Outcome)}
    {n : ℕ} (hinit : s₀.Initial) (hreach : Run (step M) s₀ tr₀ s) (hacq : Acquires M s t m s₁)
    (htakes : Run (step M) s₁ tr₁ s₂) (hn : (tr₁.map (takes t m)).sum + 1 = n)
    (hnone : (tr₁.map (releases t m)).sum = 0)
    (hreleases : Run (step M) s₂ tr₂ s₃) (hnone' : (tr₂.map (takes t m)).sum = 0) :
    ((tr₂.map (releases t m)).sum < (n - 1) % 256 + 1 →
      (s₃.mutex m).owner = some t ∧ Excludes M s₃ t m) ∧
    ((tr₂.map (releases t m)).sum + 1 = (n - 1) % 256 + 1 → ∀ o s₄,
      s₃.step M (.release t m) = some (o, s₄) → (s₄.mutex m).owner ≠ some t) ∧
    ((n - 1) % 256 + 1 = n ↔ n ≤ 256) := by
  obtain ⟨hok, hfree⟩ := freeOk_run hinit hreach
  obtain ⟨howner₁, hone⟩ := hacq.hold hok hfree
  obtain ⟨-, -, op, o, hs⟩ := hacq
  obtain ⟨hok₂, hfree₂, howner₂, hsum₂⟩ := hold_run (hok.step hs) (hfree.step hok hs) howner₁ htakes
    (.inl hnone)
  have hrun₂ := hold_run hok₂ hfree₂ howner₂ hreleases
  rw [hnone'] at hrun₂
  refine ⟨fun hlt => ?_, fun hlast o s₄ hs₄ => ?_, by omega⟩
  · obtain ⟨hok₃, -, howner₃, -⟩ := hrun₂ (.inr ⟨rfl, by omega⟩)
    exact ⟨howner₃, hok₃.excludes howner₃⟩
  · obtain ⟨hok₃, hfree₃, howner₃, hsum₃⟩ := hrun₂ (.inr ⟨rfl, by omega⟩)
    have hlt₃ := hok₃.hold m
    cases holdStep hok₃ hfree₃ hs₄ m with
    | keeps _ hne => exact absurd (by omega) hne
    | givesUp _ _ howner₄ => exact howner₄
    | other _ _ _ hzero =>
      have heok := hok₃.release_eok howner₃ hs₄
      have := hzero t
      simp [heok, releases] at this

theorem sampleStart_possible :
    (exec (step 32) (sampleSys .prio : MutexSys Unit) [.startup 0, .schedulerStart]).isSome := by
  decide

/-- Thread 0 runs, and has not taken the mutex yet. -/
def sampleStart : MutexSys Unit :=
  ((exec (step 32) (sampleSys .prio) [.startup 0, .schedulerStart]).get sampleStart_possible).2

theorem sampleOwned_possible : (sampleStart.step 32 (.take 0 () 0)).isSome := by
  decide

/-- Thread 0 has taken the mutex once. -/
def sampleOwned : MutexSys Unit := ((sampleStart.step 32 (.take 0 () 0)).get sampleOwned_possible).2

theorem sampleNest_possible : (exec (step 32) sampleOwned [.take 0 () 0, .take 0 () 0]).isSome := by
  decide

theorem sampleUnnest_possible :
    (exec (step 32) ((exec (step 32) sampleOwned [.take 0 () 0, .take 0 () 0]).get
      sampleNest_possible).2 [.release 0 (), .release 0 ()]).isSome := by
  decide

/-- Three takes and two releases. -/
theorem nested_release_count_sample :
    ∃ s : MutexSys Unit, (s.mutex ()).hold = 1 ∧ Excludes 32 s 0 () ∧
      ∀ o s', s.step 32 (.release 0 ()) = some (o, s') → (s'.mutex ()).owner ≠ some 0 := by
  have h := nested_release_count (n := 3) (sampleSys_initial .prio)
    (Run.of_isSome sampleStart_possible)
    (⟨by decide, by decide, _, _, (some_get sampleOwned_possible).symm⟩ :
      Acquires 32 sampleStart 0 () sampleOwned)
    (Run.of_isSome sampleNest_possible) (by decide) (by decide)
    (Run.of_isSome sampleUnnest_possible) (by decide)
  exact ⟨_, by decide, (h.1 (by decide)).2, h.2.1 (by decide)⟩

/-- Thread 0 takes the mutex 257 times and releases it once. -/
def deepTakes : List (MutexOp Unit) :=
  [.startup 0, .schedulerStart] ++ replicate 257 (.take 0 () 0) ++
    [.release 0 (), .startup 1, .take 1 () 0]

theorem deepTakes_result :
    (exec (guard Scheduled (step 32)) (sampleSys .prio) deepTakes).any (fun r =>
      decide (((deepTakes.zip r.1).map (takes 0 ())).sum = 257 ∧
        ((deepTakes.zip r.1).map (releases 0 ())).sum = 1 ∧
        (r.2.mutex ()).owner = some 1)) = true := by
  set_option maxRecDepth 8192 in
  decide

theorem depth_overflow :
    ∃ tr s, StepsSatisfy (step 32) Scheduled (sampleSys .prio : MutexSys Unit) tr s ∧
      (tr.map (takes 0 ())).sum = 257 ∧ (tr.map (releases 0 ())).sum = 1 ∧
      (s.mutex ()).owner = some 1 := by
  obtain ⟨⟨os, s⟩, hexec, hresult⟩ := (any_eq_true _ _).mp deepTakes_result
  exact ⟨_, s, StepsSatisfy.of_guard (Run.of_exec hexec), of_decide_eq_true hresult⟩

end RtThread.MutexSys
