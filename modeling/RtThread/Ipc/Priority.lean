import RtThread.Ipc.Mutex

/-!
# Priority inheritance

What `rt_mutex_take` and `rt_mutex_release` achieve with
`mutex->original_priority` when threads own several mutexes. Each mutex saves
the priority its owner happens to have when it gets the mutex, which may
already be an inherited one.

* `Undone`: a thread that owns no mutex has its initial priority. A step keeps
  this iff the step does not give up a thread's only mutex with another
  priority saved in it (`undone_step_iff`).
* `Ordered`: no owner is less urgent than a thread that waits for it.
  `ordered_step_iff` gives the steps that keep this.
* `inheritance_undone` and `no_inversion` are the results for whole runs;
  `inheritance_not_undone` and `inversion_after_hand_over` are runs, under the
  scheduler's own choice of threads, that break the two properties.
-/

namespace RtThread.MutexSys

open Runs Function Option Kernel

variable {Q : Type} [DecidableEq Q] {M : ℕ} {s s' : MutexSys Q} {op : MutexOp Q} {o : Outcome}

/-! ## Inherited priorities are given back -/

/-- A thread that owns no mutex has its initial priority. -/
def Undone (s : MutexSys Q) : Prop :=
  ∀ t, (∀ m, (s.mutex m).owner ≠ some t) →
    (s.kernel.thread t).currentPriority = (s.kernel.thread t).initPriority

/-- A thread that gives up the only mutex it owns finds its initial priority saved in it. -/
def SavedInitial (s : MutexSys Q) : MutexOp Q → Prop
  | .release t m =>
    (s.mutex m).owner = some t → (s.mutex m).hold = 1 →
      (∀ m', (s.mutex m').owner = some t → m' = m) →
      (s.mutex m).originalPriority = (s.kernel.thread t).initPriority
  | _ => True

section Undone

omit [DecidableEq Q] in
/-- Steps after which nobody is a non-owner who was not one before, and non-owners keep their
priorities. -/
theorem Undone.of_nonOwners (h : Undone s)
    (hs' : ∀ u, (∀ m, (s'.mutex m).owner ≠ some u) → (∀ m, (s.mutex m).owner ≠ some u) ∧
      (s'.kernel.thread u).currentPriority = (s.kernel.thread u).currentPriority ∧
      (s'.kernel.thread u).initPriority = (s.kernel.thread u).initPriority) : Undone s' := by
  intro u hu
  obtain ⟨hnone, hp, hi⟩ := hs' u hu
  rw [hp, hi]
  exact h u hnone

variable {t : Tid} {m : Q} {k : Kernel Q} {mx : Mutex}

theorem owner_update (howner : mx.owner = (s.mutex m).owner) (m' : Q) :
    (update s.mutex m mx m').owner = (s.mutex m').owner := by
  rw [update_apply]
  split_ifs with hm
  · rw [hm, howner]
  · rfl

omit [DecidableEq Q] in
theorem modify_error_priority {e : Err}
    (hthread : k.thread = (s.kernel.modify t fun th => { th with error := e }).thread) (u : Tid) :
    (k.thread u).currentPriority = (s.kernel.thread u).currentPriority ∧
      (k.thread u).initPriority = (s.kernel.thread u).initPriority := by
  rw [hthread, modify_thread_apply]
  split_ifs with hu <;> simp [hu]

theorem Undone.take {time : ℤ} (h : Undone s) (hok : MutexOk s) (he : TakeEffect s t m time o s') :
    Undone s' := by
  refine h.of_nonOwners fun u hu => ?_
  cases he with
  | again howner hthread hlists =>
    exact ⟨fun m' => by simpa only [owner_update] using hu m', modify_error_priority hthread u⟩
  | free howner hvalue hthread hlists =>
    refine ⟨fun m' => ?_, modify_error_priority hthread u⟩
    by_cases hm : m' = m
    · rw [hm, (hok.free hvalue).2.1]; simp
    · simpa [hm] using hu m'
  | fails howner hvalue htime hthread hlists => exact ⟨hu, modify_error_priority hthread u⟩
  | @blocks w _ htime hb =>
    rw [hb.mutex] at hu
    have huw : u ≠ w := by rintro rfl; exact hu m hb.owner
    exact ⟨hu, by rw [hb.priority, if_neg huw], hb.initPriority u⟩

theorem undone_givesUp_iff {woken : Option Tid} (h : Undone s) (howner : (s.mutex m).owner = some t)
    (hone : (s.mutex m).hold = 1) (hk : GivesUp s t m woken k) (hmx : mx.owner = woken)
    (hne : woken ≠ some t) :
    Undone { s with kernel := k, mutex := update s.mutex m mx } ↔
      SavedInitial s (.release t m) := by
  constructor
  · intro h' _ _ honly
    have ht := h' t fun m' => ?_
    · simpa [hk.priority, hk.initPriority] using ht
    · by_cases hm : m' = m
      · subst hm; simpa [hmx] using hne
      · simpa [hm] using fun ho => hm (honly m' ho)
  · intro hsaved u hu
    have hother : ∀ m', m' ≠ m → (s.mutex m').owner ≠ some u := by
      intro m' hm
      simpa [hm] using hu m'
    simp only [hk.priority, hk.initPriority]
    by_cases hut : u = t
    · subst hut
      rw [if_pos rfl]
      exact hsaved howner hone fun m' ho => by_contra fun hm => hother m' hm ho
    · rw [if_neg hut]
      refine h u fun m' => ?_
      by_cases hm : m' = m
      · rw [hm, howner]; simpa using Ne.symm hut
      · exact hother m' hm

/-- `rt_mutex_release` gives a thread that owns nothing else the saved priority. -/
theorem undone_release_iff (h : Undone s) (hhold : ∀ m, (s.mutex m).hold < 2 ^ 8)
    (he : ReleaseEffect s t m o s') : Undone s' ↔ SavedInitial s (.release t m) := by
  cases he with
  | refused howner hthread hlists =>
    refine iff_of_true (h.of_nonOwners fun u hu => ⟨hu, modify_error_priority hthread u⟩) ?_
    exact fun howner' => absurd howner' howner
  | holds howner hne hthread hlists =>
    refine iff_of_true (h.of_nonOwners fun u hu => ?_) fun _ hone => ?_
    · exact ⟨fun m' => by simpa only [owner_update] using hu m', by simp [hthread]⟩
    · simp [hone] at hne
  | handsOver howner hzero hhead hne hk =>
    have hone : (s.mutex m).hold = 1 := by have := hhold m; omega
    exact undone_givesUp_iff h howner hone hk rfl (by simpa using hne)
  | frees howner hzero hempty hk =>
    have hone : (s.mutex m).hold = 1 := by have := hhold m; omega
    exact undone_givesUp_iff h howner hone hk rfl (by simp)

/-- A step keeps `Undone` iff it is not the release of a thread's only mutex with a priority other
than the initial one saved in it. -/
theorem undone_step_iff (hok : MutexOk s) (h : Undone s) (hs : s.step M op = some (o, s')) :
    Undone s' ↔ SavedInitial s op := by
  cases op with
  | schedulerStart =>
    cases hs
    exact iff_of_true (h.of_nonOwners fun u hu => ⟨hu, by simp⟩) trivial
  | startup t =>
    obtain ⟨k, hk, heq⟩ := map_eq_some_iff.mp hs
    cases heq
    obtain ⟨-, hthread⟩ := rtThreadStartup_thread hk
    refine iff_of_true (fun u hu => ?_) trivial
    simp only [hthread, modify_thread_apply]
    split_ifs
    · simp
    · exact h u hu
  | take t m time =>
    obtain ⟨-, he⟩ := hok.take_step hs
    have hd : Undone (s.dispatch t) := h
    exact iff_of_true (hd.take hok.dispatch he) trivial
  | resume t =>
    simp only [step] at hs
    split_ifs at hs with ht
    unfold rtMutexTakeEnd at hs
    split at hs
    · cases hs
    · cases hs
      exact iff_of_true h trivial
  | release t m =>
    obtain ⟨-, he⟩ := hok.release_step hs
    have hd : Undone (s.dispatch t) := h
    have hiff := undone_release_iff hd hok.hold he
    exact hiff
  | timeout t =>
    obtain ⟨k, hk, heq⟩ := map_eq_some_iff.mp hs
    cases heq
    obtain ⟨-, -, hthread, -⟩ := threadTimerExpires_some hk
    refine iff_of_true (h.of_nonOwners fun u hu => ⟨hu, ?_⟩) trivial
    simp only [hthread, modify_thread_apply]
    split_ifs with hut <;> simp [hut]

end Undone

/-- In every run in which each thread finds its initial priority saved in the mutex it gives up
last, a thread that owns no mutex has its initial priority. -/
theorem inheritance_undone {s₀ : MutexSys Q} {tr : List (MutexOp Q × Outcome)} (hinit : s₀.Initial)
    (hprio : ∀ t, (s₀.kernel.thread t).currentPriority = (s₀.kernel.thread t).initPriority)
    (hrun : StepsSatisfy (step M) SavedInitial s₀ tr s) (t : Tid)
    (hnone : ∀ m, (s.mutex m).owner ≠ some t) :
    (s.kernel.thread t).currentPriority = (s.kernel.thread t).initPriority := by
  have h : MutexOk s ∧ Undone s := by
    refine StepsSatisfy.inv (I := fun s => MutexOk s ∧ Undone s)
      ⟨hinit.mutexOk, fun t _ => hprio t⟩ (fun s op o s' h hc hs => ?_) hrun
    exact ⟨h.1.step hs, (undone_step_iff h.1 h.2 hs).mpr hc⟩
  exact h.2 t hnone

instance [Fintype Q] (s : MutexSys Q) (op : MutexOp Q) : Decidable (SavedInitial s op) := by
  cases op <;> unfold SavedInitial <;> infer_instance

/-- Thread 0 takes both mutexes, thread 3 blocks on the second one, and thread 0 gives them up in
the reverse order. -/
def sampleNested : List (MutexOp (Fin 2)) :=
  [.startup 0, .schedulerStart, .take 0 0 0, .take 0 1 0, .startup 3, .take 3 1 (-1),
    .release 0 1, .resume 3, .release 3 1, .release 0 0]

theorem sampleNested_possible :
    (exec (guard SavedInitial (step 32)) (sampleSys .prio) sampleNested).isSome := by
  decide

theorem inheritance_undone_sample :
    let s := ((exec (guard SavedInitial (step 32)) (sampleSys .prio) sampleNested).get
      sampleNested_possible).2
    (s.kernel.thread 0).currentPriority = (s.kernel.thread 0).initPriority :=
  inheritance_undone (sampleSys_initial .prio) (fun _ => rfl)
    (StepsSatisfy.of_isSome sampleNested_possible) 0 (by decide)

/-- The thread the scheduler has chosen makes the call. -/
def Scheduled (s : MutexSys Q) : MutexOp Q → Prop
  | .take t _ _ | .resume t | .release t _ => s.kernel.currentThread = some t
  | _ => True

instance (s : MutexSys Q) (op : MutexOp Q) : Decidable (Scheduled s op) := by
  cases op <;> unfold Scheduled <;> infer_instance

/-- Thread 0 takes mutex 0 and thread 3 blocks on it, so thread 0 has thread 3's priority when it
takes mutex 1. It gives up mutex 0 and is back at its own priority, thread 3 blocks on mutex 1, and
with mutex 1 thread 0 "gets back" the priority 5 that was saved there. -/
def crossedReleases : List (MutexOp (Fin 2)) :=
  [.startup 0, .schedulerStart, .take 0 0 0, .startup 3, .take 3 0 (-1), .take 0 1 0,
    .release 0 0, .resume 3, .take 3 1 (-1), .release 0 1]

theorem crossedReleases_possible :
    (exec (guard Scheduled (step 32)) (sampleSys .prio) crossedReleases).isSome := by
  decide_cbv

theorem inheritance_not_undone :
    ∃ tr s, StepsSatisfy (step 32) Scheduled (sampleSys .prio : MutexSys (Fin 2)) tr s ∧
      (∀ m, (s.mutex m).owner ≠ some 0) ∧
      (s.kernel.thread 0).currentPriority = 5 ∧ (s.kernel.thread 0).initPriority = 20 :=
  ⟨_, _, StepsSatisfy.of_isSome crossedReleases_possible, by decide +kernel, by decide +kernel,
    by decide +kernel⟩

/-! ## Owners are at least as urgent as the threads that wait for them -/

/-- No priority inversion under a mutex. -/
def Ordered (s : MutexSys Q) : Prop :=
  ∀ m o, (s.mutex m).owner = some o → ∀ w ∈ s.kernel.suspendThread m,
    (s.kernel.thread o).currentPriority ≤ (s.kernel.thread w).currentPriority

/-- The steps that keep `Ordered`. A thread may block and raise the owner of the mutex if the owner
does not itself wait for a less urgent thread. A thread may give up a mutex if the priority saved in
it suits the waiters of its other mutexes, and if the first waiter is the most urgent one. -/
def KeepsOrder (s : MutexSys Q) : MutexOp Q → Prop
  | .take t m time =>
    ∀ o ∈ (s.mutex m).owner, o ≠ t → time ≠ 0 →
      (s.kernel.thread t).currentPriority < (s.kernel.thread o).currentPriority →
      ∀ m', o ∈ s.kernel.suspendThread m' → ∀ o' ∈ (s.mutex m').owner,
        (s.kernel.thread o').currentPriority ≤ (s.kernel.thread t).currentPriority
  | .release t m =>
    (s.mutex m).owner = some t → (s.mutex m).hold = 1 →
      (∀ m', m' ≠ m → (s.mutex m').owner = some t → ∀ w ∈ s.kernel.suspendThread m',
        (s.mutex m).originalPriority ≤ (s.kernel.thread w).currentPriority) ∧
      ∀ h ∈ (s.kernel.suspendThread m).head?, ∀ w ∈ s.kernel.suspendThread m,
        (s.kernel.thread h).currentPriority ≤ (s.kernel.thread w).currentPriority
  | _ => True

section Ordered

variable {t : Tid} {m : Q}

omit [DecidableEq Q] in
/-- Steps that add no waiter and leave owners and priorities alone. -/
theorem Ordered.of_fewer (h : Ordered s) (ho : ∀ m, (s'.mutex m).owner = (s.mutex m).owner)
    (hw : ∀ m, ∀ w ∈ s'.kernel.suspendThread m, w ∈ s.kernel.suspendThread m)
    (hp : ∀ u, (s.kernel.thread u).stat ≠ .init →
      (s'.kernel.thread u).currentPriority = (s.kernel.thread u).currentPriority)
    (hok : MutexOk s) : Ordered s' := by
  intro m o hown w hmem
  rw [ho] at hown
  have hmem' := hw m w hmem
  have hstat : (s.kernel.thread o).stat ≠ .init := by
    rcases hok.state m with ⟨-, hnone, -⟩ | ⟨-, o', ho', hstat⟩
    · simp [hown] at hnone
    · rw [hown, some.injEq] at ho'
      rwa [ho']
  rw [hp o hstat, hp w (by simp [hok.waits.suspended m w hmem'])]
  exact h m o hown w hmem'

section

variable (h : Ordered s) (hok : MutexOk s)
include h hok

omit [DecidableEq Q] in
theorem ordered_blocks_iff {b : Tid} (hb : Blocks s t m b s') :
    Ordered s' ↔ ((s.kernel.thread t).currentPriority < (s.kernel.thread b).currentPriority →
      ∀ m', b ∈ s.kernel.suspendThread m' → ∀ o', (s.mutex m').owner = some o' →
        (s.kernel.thread o').currentPriority ≤ (s.kernel.thread t).currentPriority) := by
  constructor
  · intro h' hlt m' hwait o' hown
    have hne : o' ≠ b := by
      rintro rfl
      exact (hok.waiter m' o' hwait).1 hown
    have := h' m' o' (by rwa [hb.mutex]) b ((hb.mem m' b).mpr (.inl hwait))
    rw [hb.priority, hb.priority, if_neg hne, if_pos rfl] at this
    exact this.trans (min_le_left _ _)
  · intro hcond m' o' hown w hmem
    rw [hb.mutex] at hown
    rw [hb.priority, hb.priority]
    have hle : (if o' = b then min (s.kernel.thread t).currentPriority
        (s.kernel.thread b).currentPriority else (s.kernel.thread o').currentPriority) ≤
        (s.kernel.thread o').currentPriority := by
      split_ifs with hob
      · rw [hob]; exact min_le_right _ _
      · exact le_rfl
    rcases (hb.mem m' w).mp hmem with hmem | ⟨rfl, rfl⟩
    · have hold := h m' o' hown w hmem
      by_cases hwb : w = b
      · -- the raised thread waits itself
        subst hwb
        rw [if_pos rfl]
        refine le_min ?_ (hle.trans hold)
        by_cases hlt : (s.kernel.thread t).currentPriority < (s.kernel.thread w).currentPriority
        · exact hle.trans (hcond hlt m' hmem o' hown)
        · exact (hle.trans hold).trans (not_lt.mp hlt)
      · rw [if_neg hwb]
        exact hle.trans hold
    · -- the thread that blocks
      rw [hb.owner, some.injEq] at hown
      subst hown
      rw [if_pos rfl, if_neg hb.ne.symm]
      exact min_le_left _ _

theorem ordered_take_iff {time : ℤ} (he : TakeEffect s t m time o s') :
    Ordered s' ↔ KeepsOrder s (.take t m time) := by
  cases he with
  | again howner hthread hlists =>
    refine iff_of_true (h.of_fewer (fun m' => ?_) (fun m' => by simp [hlists])
      (fun u _ => (modify_error_priority hthread u).1) hok) fun b hb hne => ?_
    · simp only [owner_update]
    · rw [howner, mem_some_iff] at hb
      exact absurd hb.symm hne
  | free howner hvalue hthread hlists =>
    obtain ⟨-, hnone, hnil⟩ := hok.free hvalue
    refine iff_of_true (fun m' b hb w hw => ?_) fun b hb => by simp [hnone] at hb
    have hm : m' ≠ m := by rintro rfl; simp [hlists, hnil] at hw
    simp only [(modify_error_priority hthread _).1]
    exact h m' b (by simpa [hm] using hb) w (by simpa [hlists] using hw)
  | fails howner hvalue htime hthread hlists =>
    refine iff_of_true (h.of_fewer (fun _ => rfl) (fun m' => by simp [hlists])
      (fun u _ => (modify_error_priority hthread u).1) hok) fun b _ _ hne => absurd htime hne
  | @blocks b _ htime hb =>
    rw [ordered_blocks_iff h hok hb]
    constructor
    · intro hcond b' hb' _ _
      rw [hb.owner, mem_some_iff] at hb'
      exact hb' ▸ hcond
    · intro hcond
      exact hcond b hb.owner hb.ne htime

theorem ordered_givesUp_iff {k : Kernel Q} {mx : Mutex} {woken : Option Tid}
    (ht : (s.kernel.thread t).stat = .ready) (howner : (s.mutex m).owner = some t)
    (hone : (s.mutex m).hold = 1) (hk : GivesUp s t m woken k) (hmx : mx.owner = woken)
    (hwoken : woken = (s.kernel.suspendThread m).head?) :
    Ordered { s with kernel := k, mutex := update s.mutex m mx } ↔ KeepsOrder s (.release t m) := by
  have hmem : ∀ m', ∀ w ∈ s.kernel.suspendThread m', w ≠ t := fun m' w hw =>
    hok.waits.ne_of_ready hw ht
  have hhead : ∀ b, woken = some b → b ∈ s.kernel.suspendThread m := fun b hb =>
    List.mem_of_mem_head? (hwoken ▸ hb)
  constructor
  · intro h' _ _
    refine ⟨fun m' hm hown w hw => ?_, fun b hb w hw => ?_⟩
    · have hne : woken ≠ some w := fun hw' => hm (hok.waits.unique _ _ _ hw (hhead w hw'))
      have := h' m' t (by simpa [hm] using hown) w ((hk.mem m' w).mpr ⟨hw, hne⟩)
      simpa [hk.priority, hmem m' w hw] using this
    · rw [← hwoken] at hb
      by_cases hbw : b = w
      · rw [hbw]
      · have hne : woken ≠ some w := fun hw' => hbw (some.inj (hb.symm.trans hw'))
        have := h' m b (by simpa [hmx] using hb) w ((hk.mem m w).mpr ⟨hw, hne⟩)
        simpa [hk.priority, hmem m w hw, hmem m b (hhead b hb)] using this
  · intro hcond m' b hown w hw
    obtain ⟨hother, hfirst⟩ := hcond howner hone
    replace hw := ((hk.mem m' w).mp hw).1
    simp only [hk.priority, if_neg (hmem m' w hw)]
    by_cases hm : m' = m
    · subst hm
      have hb : woken = some b := by simpa [hmx] using hown
      rw [if_neg (hmem m' b (hhead b hb))]
      exact hfirst b (hwoken ▸ hb) w hw
    · have hown' : (s.mutex m').owner = some b := by simpa [hm] using hown
      by_cases hbt : b = t
      · rw [if_pos hbt]
        exact hother m' hm (hbt ▸ hown') w hw
      · rw [if_neg hbt]
        exact h m' b hown' w hw

theorem ordered_release_iff (ht : (s.kernel.thread t).stat = .ready)
    (he : ReleaseEffect s t m o s') : Ordered s' ↔ KeepsOrder s (.release t m) := by
  cases he with
  | refused howner hthread hlists =>
    refine iff_of_true (h.of_fewer (fun _ => rfl) (fun m' => by simp [hlists])
      (fun u _ => (modify_error_priority hthread u).1) hok) fun howner' => absurd howner' howner
  | holds howner hne hthread hlists =>
    refine iff_of_true (h.of_fewer (fun m' => ?_) (fun m' => by simp [hlists])
      (fun u _ => by simp [hthread]) hok) fun _ hone => ?_
    · simp only [owner_update]
    · simp [hone] at hne
  | handsOver howner hzero hhead hne hk =>
    have hone : (s.mutex m).hold = 1 := by have := hok.hold m; omega
    exact ordered_givesUp_iff h hok ht howner hone hk rfl (by simp [hhead])
  | frees howner hzero hempty hk =>
    have hone : (s.mutex m).hold = 1 := by have := hok.hold m; omega
    exact ordered_givesUp_iff h hok ht howner hone hk rfl (by simp [hempty])

end

/-- `KeepsOrder` is the exact condition under which a step keeps `Ordered`. -/
theorem ordered_step_iff (hok : MutexOk s) (h : Ordered s) (hs : s.step M op = some (o, s')) :
    Ordered s' ↔ KeepsOrder s op := by
  cases op with
  | schedulerStart =>
    cases hs
    exact iff_of_true (h.of_fewer (fun _ => rfl) (by simp) (by simp) hok) trivial
  | startup t =>
    obtain ⟨k, hk, heq⟩ := map_eq_some_iff.mp hs
    cases heq
    refine iff_of_true (h.of_fewer (fun _ => rfl) (fun m w hw => ?_) (fun u hu => ?_) hok) trivial
    · rwa [hok.waits.startup_suspendThread hk] at hw
    · rw [rtThreadStartup_other hk hu]
  | take t m time =>
    obtain ⟨-, he⟩ := hok.take_step hs
    have hd : Ordered (s.dispatch t) := h
    have hiff := ordered_take_iff hd hok.dispatch he
    exact hiff
  | resume t =>
    simp only [step] at hs
    split_ifs at hs with ht
    unfold rtMutexTakeEnd at hs
    split at hs
    · cases hs
    · cases hs
      exact iff_of_true h trivial
  | release t m =>
    obtain ⟨ht, he⟩ := hok.release_step hs
    have hd : Ordered (s.dispatch t) := h
    have hiff := ordered_release_iff hd hok.dispatch ht.1 he
    exact hiff
  | timeout t =>
    obtain ⟨k, hk, heq⟩ := map_eq_some_iff.mp hs
    cases heq
    obtain ⟨-, -, hthread, hlists⟩ := threadTimerExpires_some hk
    refine iff_of_true (h.of_fewer (fun _ => rfl) (fun m w hw => ?_) (fun u _ => ?_) hok) trivial
    · rw [hlists] at hw
      exact List.mem_of_mem_erase hw
    · simp only [hthread, modify_thread_apply]
      split_ifs with hut <;> simp [hut]

end Ordered

/-- In every run of such steps there is no priority inversion under a mutex. -/
theorem no_inversion {s₀ : MutexSys Q} {tr : List (MutexOp Q × Outcome)} (hinit : s₀.Initial)
    (hrun : StepsSatisfy (step M) KeepsOrder s₀ tr s) (m : Q) (b : Tid)
    (howner : (s.mutex m).owner = some b) (w : Tid) (hw : w ∈ s.kernel.suspendThread m) :
    (s.kernel.thread b).currentPriority ≤ (s.kernel.thread w).currentPriority := by
  have h : MutexOk s ∧ Ordered s := by
    refine StepsSatisfy.inv (I := fun s => MutexOk s ∧ Ordered s)
      ⟨hinit.mutexOk, fun m _ _ w hw => ?_⟩ (fun s op o s' h hc hs => ?_) hrun
    · simp [hinit.suspendThread m] at hw
    · exact ⟨h.1.step hs, (ordered_step_iff h.1 h.2 hs).mpr hc⟩
  exact h.2 m b howner w hw

instance [Fintype Q] (s : MutexSys Q) (op : MutexOp Q) : Decidable (KeepsOrder s op) := by
  cases op <;> unfold KeepsOrder <;> infer_instance

/-- Threads 1 and 3 block on the mutex of thread 0 in the order of urgency. -/
def sampleWaiters : List (MutexOp (Fin 1)) :=
  [.startup 0, .schedulerStart, .take 0 0 0, .startup 1, .take 1 0 (-1), .startup 3,
    .take 3 0 (-1), .release 0 0, .resume 3]

theorem sampleWaiters_possible :
    (exec (guard KeepsOrder (step 32)) (sampleSys .prio) sampleWaiters).isSome := by
  decide

theorem no_inversion_sample :
    let s := ((exec (guard KeepsOrder (step 32)) (sampleSys .prio) sampleWaiters).get
      sampleWaiters_possible).2
    (s.kernel.thread 3).currentPriority ≤ (s.kernel.thread 1).currentPriority :=
  no_inversion (sampleSys_initial .prio) (StepsSatisfy.of_isSome sampleWaiters_possible) 0 3
    (by decide) 1 (by decide)

/-- The same with a first-in-first-out mutex: thread 1 gets it, with thread 3 behind it. -/
theorem fifoWaiters_possible :
    (exec (guard Scheduled (step 32)) (sampleSys .fifo) sampleWaiters.dropLast).isSome := by
  decide

theorem inversion_after_hand_over :
    ∃ tr s, StepsSatisfy (step 32) Scheduled (sampleSys .fifo : MutexSys (Fin 1)) tr s ∧
      (s.mutex 0).owner = some 1 ∧ 3 ∈ s.kernel.suspendThread 0 ∧
      (s.kernel.thread 1).currentPriority = 15 ∧ (s.kernel.thread 3).currentPriority = 5 :=
  ⟨_, _, StepsSatisfy.of_isSome fifoWaiters_possible, by decide, by decide,
    by decide, by decide⟩

end RtThread.MutexSys
