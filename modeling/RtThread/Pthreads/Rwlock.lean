import RtThread.Lib.Runs
import RtThread.Lib.Tally

/-!
# Read-write locks

`components/libc/pthreads/pthread_rwlock.c`. The three counters of a lock are read and written
while the thread holds `rw_mutex`; a wait on one of the two conditions lets it go and takes it
again. A step of the model goes from one point where the thread takes or lets go of `rw_mutex` to
the next one, so that anything may happen in between. A wait ends when it likes, with any result.

A lock may also be left to the first call: with `PTHREAD_RWLOCK_INITIALIZER` its `attr` is -1,
and a call that finds this runs `pthread_rwlock_init`. This is not protected by anything.
-/

namespace RtThread

open Runs Function Option Tally Finset

/-- `pthread_rwlock_t`, without the mutex and the conditions. -/
structure Rwlock where
  attr : ℤ
  rwNwaitreaders : ℤ
  rwNwaitwriters : ℤ
  rwRefcount : ℤ
  deriving DecidableEq

namespace Rwlock

/-- What the calls return. -/
inductive Result
  | ok
  | ebusy
  | etimedout
  | einval
  deriving DecidableEq

/-- What `rt_sem_take` may give to a wait. -/
inductive SemResult
  | eok
  | etimeout
  | error
  deriving DecidableEq

/-- How a call goes on: it waits for its condition, or it lets `rw_mutex` go and returns. -/
inductive Next
  | wait
  | leave (r : Result)
  deriving DecidableEq

variable (l : Rwlock)

/-- The loop of `pthread_rwlock_rdlock` and `pthread_rwlock_timedrdlock`, from its condition up to
the wait, or to the end of the call. -/
def rdlockLoop : Rwlock × Next :=
  -- give preference to waiting writers
  if l.rwRefcount < 0 ∨ l.rwNwaitwriters > 0 then
    ({ l with rwNwaitreaders := l.rwNwaitreaders + 1 }, .wait)
  else ({ l with rwRefcount := l.rwRefcount + 1 }, .leave .ok)

/-- The same from the end of the wait on. -/
def rdlockWoken (result : Result) : Rwlock × Next :=
  let l := { l with rwNwaitreaders := l.rwNwaitreaders - 1 }
  if result ≠ .ok then (l, .leave result) else l.rdlockLoop

/-- `pthread_rwlock_tryrdlock`. -/
def tryrdlock : Rwlock × Next :=
  if l.rwRefcount < 0 ∨ l.rwNwaitwriters > 0 then (l, .leave .ebusy)
  else ({ l with rwRefcount := l.rwRefcount + 1 }, .leave .ok)

/-- The loop of `pthread_rwlock_wrlock` and `pthread_rwlock_timedwrlock`. -/
def wrlockLoop : Rwlock × Next :=
  if l.rwRefcount ≠ 0 then ({ l with rwNwaitwriters := l.rwNwaitwriters + 1 }, .wait)
  else ({ l with rwRefcount := -1 }, .leave .ok)

def wrlockWoken (result : Result) : Rwlock × Next :=
  let l := { l with rwNwaitwriters := l.rwNwaitwriters - 1 }
  if result ≠ .ok then (l, .leave result) else l.wrlockLoop

/-- `pthread_rwlock_trywrlock`. -/
def trywrlock : Rwlock × Next :=
  if l.rwRefcount ≠ 0 then (l, .leave .ebusy) else ({ l with rwRefcount := -1 }, .leave .ok)

/-- `pthread_rwlock_unlock`, up to the signals. -/
def release : Rwlock :=
  if l.rwRefcount > 0 then { l with rwRefcount := l.rwRefcount - 1 }
  else if l.rwRefcount = -1 then { l with rwRefcount := 0 }
  else l

/-- The condition on which `pthread_rwlock_unlock` wakes threads. -/
inductive Signal
  | signalWriters
  | broadcastReaders
  deriving DecidableEq

/-- The signal that `pthread_rwlock_unlock` gives, to waiting writers over waiting readers. -/
def signal : Option Signal :=
  if l.rwNwaitwriters > 0 then if l.rwRefcount = 0 then some .signalWriters else none
  else if l.rwNwaitreaders > 0 then some .broadcastReaders
  else none

inductive Call
  | rdlock
  | tryrdlock
  | timedrdlock
  | wrlock
  | trywrlock
  | timedwrlock
  | unlock
  deriving DecidableEq

/-- What a call does once it has taken `rw_mutex`. -/
def body : Call → Rwlock × Next
  | .rdlock | .timedrdlock => l.rdlockLoop
  | .tryrdlock => l.tryrdlock
  | .wrlock | .timedwrlock => l.wrlockLoop
  | .trywrlock => l.trywrlock
  | .unlock => (l.release, .leave .ok)

/-- What it does after a wait, when it has taken `rw_mutex` again. -/
def woken (result : Result) : Call → Rwlock × Next
  | .rdlock | .timedrdlock => l.rdlockWoken result
  | .wrlock | .timedwrlock => l.wrlockWoken result
  | .tryrdlock | .trywrlock | .unlock => (l, .leave result)

/-- The result of `pthread_cond_wait`, or of `pthread_cond_timedwait` for the timed calls. -/
def waitResult : Call → SemResult → Result
  | _, .eok => .ok
  | .timedrdlock, .etimeout | .timedwrlock, .etimeout => .etimedout
  | _, _ => .einval

/-- `pthread_rwlock_init` after it has set `attr`. -/
def setup : Rwlock := { l with rwNwaitwriters := 0, rwNwaitreaders := 0, rwRefcount := 0 }

end Rwlock

/-! ## Threads -/

open Rwlock

/-- Where a thread is. -/
inductive RwPc
  | idle
  /-- called, and about to look at `attr` -/
  | start (c : Call)
  /-- in `pthread_rwlock_init` -/
  | init (c : Call)
  | setup (c : Call)
  /-- in `pthread_mutex_lock` -/
  | locking (c : Call)
  | body (c : Call)
  /-- in `rt_sem_take` of a wait -/
  | waiting (c : Call)
  /-- in `pthread_mutex_lock` of a wait -/
  | relocking (c : Call) (r : Result)
  | woken (c : Call) (r : Result)
  | leaving (r : Result)
  deriving DecidableEq

/-- A lock, who has its `rw_mutex`, and the threads `ι`: where they are, how often they hold the
lock for reading and whether for writing. -/
structure RwSys (ι : Type*) where
  lock : Rwlock
  owner : Option ι
  pc : ι → RwPc
  reads : ι → ℕ
  writes : ι → Bool

namespace RwSys

variable {ι : Type*}

inductive Op (ι : Type*)
  | call (t : ι) (c : Call)
  | check (t : ι)
  | init (t : ι)
  | setup (t : ι)
  | lock (t : ι)
  | run (t : ι)
  | wake (t : ι) (r : SemResult)
  | leave (t : ι)

/-- What can be seen of a step. -/
inductive Out
  | silent
  | signals (s : Option Signal)
  | returns (r : Result)
  deriving DecidableEq

variable [DecidableEq ι] {s : RwSys ι}

def goto (s : RwSys ι) (t : ι) (pc : RwPc) : RwSys ι := { s with pc := update s.pc t pc }

/-- The thread holds the lock. -/
def Holds (s : RwSys ι) (t : ι) : Prop := 0 < s.reads t ∨ s.writes t = true
  deriving Decidable

/-- What a thread holds when the call leaves with success. -/
def grant (s : RwSys ι) (t : ι) : Call → RwSys ι
  | .rdlock | .timedrdlock | .tryrdlock =>
    { s with reads := update s.reads t (s.reads t + 1) }
  | .wrlock | .timedwrlock | .trywrlock => { s with writes := update s.writes t true }
  | .unlock =>
    if s.writes t then { s with writes := update s.writes t false }
    else { s with reads := update s.reads t (s.reads t - 1) }

/-- The call goes on as `r` says. A wait gives up if the thread does not have the mutex. -/
def proceed (s : RwSys ι) (t : ι) (c : Call) (r : Rwlock × Next) : RwSys ι :=
  let s := { s with lock := r.1 }
  match r.2 with
  | .wait =>
    if s.owner = some t then { s with owner := none }.goto t (.waiting c)
    else s.goto t (.woken c .einval)
  | .leave .ok => (s.grant t c).goto t (.leaving .ok)
  | .leave e => s.goto t (.leaving e)

def step (s : RwSys ι) : Op ι → Option (Out × RwSys ι)
  | .call t c =>
    -- only a holder unlocks
    if s.pc t = .idle ∧ (c = .unlock → s.Holds t) then some (.silent, s.goto t (.start c)) else none
  | .check t =>
    match s.pc t with
    | .start c => some (.silent, s.goto t (if s.lock.attr = -1 then .init c else .locking c))
    | _ => none
  | .init t =>
    match s.pc t with
    | .init c => some (.silent, { s with lock := { s.lock with attr := 0 } }.goto t (.setup c))
    | _ => none
  | .setup t =>
    match s.pc t with
    | .setup c => some (.silent, { s with lock := s.lock.setup, owner := none }.goto t (.locking c))
    | _ => none
  | .lock t =>
    match s.owner, s.pc t with
    | none, .locking c => some (.silent, { s with owner := some t }.goto t (.body c))
    | none, .relocking c r => some (.silent, { s with owner := some t }.goto t (.woken c r))
    | _, _ => none
  | .run t =>
    match s.pc t with
    | .body c =>
      some (.signals (if c = .unlock then s.lock.release.signal else none),
        s.proceed t c (s.lock.body c))
    | .woken c r => some (.signals none, s.proceed t c (s.lock.woken r c))
    | _ => none
  | .wake t r =>
    match s.pc t with
    | .waiting c => some (.silent, s.goto t (.relocking c (waitResult c r)))
    | _ => none
  | .leave t =>
    match s.pc t with
    | .leaving r =>
      -- the mutex stays as it is if another thread has it
      let owner := if s.owner = some t then none else s.owner
      some (.returns r, { s with owner := owner }.goto t .idle)
    | _ => none

/-- A lock that nobody has used: `attr` is -1 with `PTHREAD_RWLOCK_INITIALIZER`, and 0 after
`pthread_rwlock_init`. -/
def unused (attr : ℤ) : RwSys ι where
  lock := { attr := attr, rwNwaitreaders := 0, rwNwaitwriters := 0, rwRefcount := 0 }
  owner := none
  pc := fun _ => .idle
  reads := fun _ => 0
  writes := fun _ => false

theorem holds_grant {t u : ι} (hne : u ≠ t) (c : Call) : (s.grant t c).Holds u ↔ s.Holds u := by
  unfold Holds grant
  cases c <;> simp only [] <;> try rw [update_of_ne hne]
  split_ifs <;> simp only [] <;> rw [update_of_ne hne]

section

variable (s : RwSys ι) (t : ι) (c : Call)

@[simp] theorem grant_lock : (s.grant t c).lock = s.lock := by
  unfold grant
  cases c <;> try rfl
  split_ifs <;> rfl

@[simp] theorem grant_owner : (s.grant t c).owner = s.owner := by
  unfold grant
  cases c <;> try rfl
  split_ifs <;> rfl

@[simp] theorem grant_pc : (s.grant t c).pc = s.pc := by
  unfold grant
  cases c <;> try rfl
  split_ifs <;> rfl

end

theorem pc_granted {t : ι} {c : Call} (l : Rwlock) :
    (({ s with lock := l }.grant t c).goto t (.leaving .ok)).pc = update s.pc t (.leaving .ok) := by
  simp only [goto, grant_pc]

end RwSys

/-! ## What a section does -/

namespace Rwlock

namespace Call

/-- The calls that may wait for `rw_condreaders`, and for `rw_condwriters`. -/
def waitsToRead : Call → Bool
  | rdlock | timedrdlock => true
  | _ => false

def waitsToWrite : Call → Bool
  | wrlock | timedwrlock => true
  | _ => false

end Call

/-- What the section of a call between two points where it has no mutex does to the lock. -/
inductive Effect (l : Rwlock) : Call → Rwlock × Next → Prop
  | waitToRead {c : Call} (hc : c.waitsToRead = true) :
    Effect l c ({ l with rwNwaitreaders := l.rwNwaitreaders + 1 }, .wait)
  | waitToWrite {c : Call} (hc : c.waitsToWrite = true) :
    Effect l c ({ l with rwNwaitwriters := l.rwNwaitwriters + 1 }, .wait)
  | read {c : Call} (hc : c = .rdlock ∨ c = .timedrdlock ∨ c = .tryrdlock)
    (href : 0 ≤ l.rwRefcount) :
    Effect l c ({ l with rwRefcount := l.rwRefcount + 1 }, .leave .ok)
  | write {c : Call} (hc : c = .wrlock ∨ c = .timedwrlock ∨ c = .trywrlock)
    (href : l.rwRefcount = 0) : Effect l c ({ l with rwRefcount := -1 }, .leave .ok)
  | fail {c : Call} {r : Result} (hr : r ≠ .ok) : Effect l c (l, .leave r)
  | unlock : Effect l .unlock (l.release, .leave .ok)

variable (l : Rwlock)

variable {c : Call}

theorem effect_rdlockLoop (hc : c.waitsToRead = true) : Effect l c l.rdlockLoop := by
  unfold rdlockLoop
  split_ifs with hwait
  · exact .waitToRead hc
  · rw [not_or, not_lt] at hwait
    refine .read ?_ hwait.1
    cases c <;> simp_all [Call.waitsToRead]

theorem effect_wrlockLoop (hc : c.waitsToWrite = true) : Effect l c l.wrlockLoop := by
  unfold wrlockLoop
  split_ifs with hwait
  · exact .waitToWrite hc
  · refine .write ?_ (not_not.mp hwait)
    cases c <;> simp_all [Call.waitsToWrite]

theorem effect_body (c : Call) : Effect l c (l.body c) := by
  cases c with
  | rdlock | timedrdlock => exact l.effect_rdlockLoop rfl
  | wrlock | timedwrlock => exact l.effect_wrlockLoop rfl
  | tryrdlock =>
    unfold body tryrdlock
    split_ifs with hbusy
    · exact .fail (by decide)
    · rw [not_or, not_lt] at hbusy
      exact .read (.inr (.inr rfl)) hbusy.1
  | trywrlock =>
    unfold body trywrlock
    split_ifs with hbusy
    · exact .fail (by decide)
    · exact .write (.inr (.inr rfl)) (not_not.mp hbusy)
  | unlock => exact .unlock

/-- After a wait the thread is first taken off the number of those that wait. -/
theorem effect_woken_read (hc : c.waitsToRead = true) (r : Result) :
    Effect { l with rwNwaitreaders := l.rwNwaitreaders - 1 } c (l.woken r c) := by
  have heq : l.woken r c = l.rdlockWoken r := by cases c <;> first | rfl | cases hc
  rw [heq, rdlockWoken]
  split_ifs with hr
  · exact .fail hr
  · exact effect_rdlockLoop _ hc

theorem effect_woken_write (hc : c.waitsToWrite = true) (r : Result) :
    Effect { l with rwNwaitwriters := l.rwNwaitwriters - 1 } c (l.woken r c) := by
  have heq : l.woken r c = l.wrlockWoken r := by cases c <;> first | rfl | cases hc
  rw [heq, wrlockWoken]
  split_ifs with hr
  · exact .fail hr
  · exact effect_wrlockLoop _ hc

variable {l} in
theorem Effect.attr {r : Rwlock × Next} (h : Effect l c r) : r.1.attr = l.attr := by
  cases h with
  | unlock =>
    unfold release
    split_ifs <;> rfl
  | _ => rfl

theorem woken_attr (r : Result) (c : Call) : (l.woken r c).1.attr = l.attr := by
  cases c with
  | rdlock | timedrdlock => exact (l.effect_woken_read rfl r).attr
  | wrlock | timedwrlock => exact (l.effect_woken_write rfl r).attr
  | _ => rfl

end Rwlock

/-! ## The invariant -/

namespace RwPc

/-- The thread has `rw_mutex`. -/
def inside : RwPc → Bool
  | body _ | woken _ _ | leaving _ => true
  | _ => false

/-- The thread is in a condition wait of a call that satisfies `p`. -/
def inWait (p : Call → Bool) : RwPc → Bool
  | waiting c | relocking c _ => p c
  | _ => false

/-- It is, or it has returned from the wait and is not yet taken off the number. -/
def counted (p : Call → Bool) : RwPc → Bool
  | waiting c | relocking c _ | woken c _ => p c
  | _ => false

variable {pc : RwPc}

theorem counted_eq_inWait (h : pc.inside = false) (p : Call → Bool) :
    pc.counted p = pc.inWait p := by
  cases pc <;> first | rfl | cases h

/-- The thread has not yet found the lock initialised. -/
def before : RwPc → Bool
  | idle | start _ | init _ | setup _ => true
  | _ => false

/-- The thread is in `pthread_rwlock_init`. -/
def initialising : RwPc → Bool
  | init _ | setup _ => true
  | _ => false

theorem of_before (h : pc.before = true) : pc.inside = false ∧ ∀ p, pc.counted p = false := by
  cases pc <;> first | exact ⟨rfl, fun _ => rfl⟩ | cases h

/-- Only a holder is in `pthread_rwlock_unlock`, and only some calls wait. -/
def Valid (holds : Prop) : RwPc → Prop
  | start c | init c | setup c | locking c | body c => c = .unlock → holds
  | waiting c | relocking c _ | woken c _ => c.waitsToRead = true ∨ c.waitsToWrite = true
  | idle | leaving _ => True

end RwPc

namespace RwSys

variable {ι : Type*} [Fintype ι]

/-- The reference count agrees with what the threads hold. -/
def Counts (s : RwSys ι) : Prop :=
  (s.lock.rwRefcount = -1 ∧ ∑ t, (s.writes t).toNat = 1 ∧ ∑ t, s.reads t = 0) ∨
  (s.lock.rwRefcount = ∑ t, s.reads t ∧ ∑ t, (s.writes t).toNat = 0)

structure Inv (s : RwSys ι) : Prop where
  inside : ∀ t, s.owner = some t ↔ (s.pc t).inside = true
  counts : s.Counts
  readers : s.lock.rwNwaitreaders = ∑ t, ((s.pc t).counted Call.waitsToRead).toNat
  writers : s.lock.rwNwaitwriters = ∑ t, ((s.pc t).counted Call.waitsToWrite).toNat
  valid : ∀ t, (s.pc t).Valid (s.Holds t)

theorem inv_unused (attr : ℤ) : (unused attr : RwSys ι).Inv where
  inside t := by simp [unused, RwPc.inside]
  counts := .inr (by simp [unused])
  readers := by simp [unused, RwPc.counted]
  writers := by simp [unused, RwPc.counted]
  valid t := trivial

variable [DecidableEq ι] {s s' : RwSys ι} {t : ι} {pc : RwPc}

/-- What is left to show of a step in which only the thread `t` moves. -/
theorem Inv.move (h : s.Inv) (hpc : s'.pc = update s.pc t pc)
    (howner : ∀ u, u ≠ t → (s'.owner = some u ↔ s.owner = some u))
    (hself : s'.owner = some t ↔ pc.inside = true) (hcounts : s'.Counts)
    (hreaders : s'.lock.rwNwaitreaders + ((s.pc t).counted Call.waitsToRead).toNat =
      s.lock.rwNwaitreaders + (pc.counted Call.waitsToRead).toNat)
    (hwriters : s'.lock.rwNwaitwriters + ((s.pc t).counted Call.waitsToWrite).toNat =
      s.lock.rwNwaitwriters + (pc.counted Call.waitsToWrite).toNat)
    (hvalid : pc.Valid (s'.Holds t)) (hothers : ∀ u, u ≠ t → (s.Holds u → s'.Holds u)) :
    s'.Inv where
  inside u := by
    rw [hpc]
    rcases eq_or_ne u t with rfl | hne
    · rw [update_self, hself]
    · rw [update_of_ne hne, howner u hne, h.inside]
  counts := hcounts
  readers := by
    have hsum := sum_update s.pc (fun pc => (pc.counted Call.waitsToRead).toNat) t pc
    have := h.readers
    rw [hpc]
    omega
  writers := by
    have hsum := sum_update s.pc (fun pc => (pc.counted Call.waitsToWrite).toNat) t pc
    have := h.writers
    rw [hpc]
    omega
  valid u := by
    rw [hpc]
    rcases eq_or_ne u t with rfl | hne
    · rwa [update_self]
    · rw [update_of_ne hne]
      have hu := h.valid u
      cases hcase : s.pc u <;> rw [hcase] at hu <;>
        first
        | exact hu
        | exact fun hc => hothers u hne (hu hc)

/-- A thread goes to a place of the same kind. -/
theorem Inv.goto (h : s.Inv) (hin : pc.inside = (s.pc t).inside)
    (hcounted : ∀ p, pc.counted p = (s.pc t).counted p) (hvalid : pc.Valid (s.Holds t)) :
    (s.goto t pc).Inv :=
  h.move rfl (fun _ _ => Iff.rfl) (by rw [hin]; exact h.inside t) h.counts (by rw [hcounted]; rfl)
    (by rw [hcounted]; rfl) hvalid (fun _ _ hu => hu)

theorem Counts.read (h : s.Counts) (href : 0 ≤ s.lock.rwRefcount) {s' : RwSys ι}
    (hlock : s'.lock.rwRefcount = s.lock.rwRefcount + 1)
    (hreads : s'.reads = update s.reads t (s.reads t + 1))
    (hwrites : s'.writes = s.writes) : s'.Counts := by
  have hsum := sum_update s.reads id t (s.reads t + 1)
  simp only [id_eq] at hsum
  rcases h with ⟨href', -, -⟩ | ⟨href', hnone⟩
  · omega
  · refine .inr ⟨?_, by rw [hwrites]; exact hnone⟩
    rw [hreads]
    omega

theorem Counts.write (h : s.Counts) (href : s.lock.rwRefcount = 0) {s' : RwSys ι}
    (hlock : s'.lock.rwRefcount = -1) (hreads : s'.reads = s.reads)
    (hwrites : s'.writes = update s.writes t true) : s'.Counts := by
  have hsum := sum_update s.writes Bool.toNat t true
  rcases h with ⟨href', -, -⟩ | ⟨href', hnone⟩
  · omega
  · have hself : (s.writes t).toNat = 0 := sum_eq_zero_iff.mp hnone t (mem_univ t)
    refine .inl ⟨hlock, ?_, by rw [hreads]; omega⟩
    rw [hwrites]
    simp only [Bool.toNat_true] at hsum
    omega

/-- `pthread_rwlock_unlock` takes off the count what its thread holds. -/
theorem Counts.release (h : s.Counts) (hholds : s.Holds t) :
    ({ s with lock := s.lock.release }.grant t .unlock).Counts := by
  have hreads := sum_update s.reads id t (s.reads t - 1)
  have hwrites := sum_update s.writes Bool.toNat t false
  simp only [id_eq, Bool.toNat_false] at hreads hwrites
  have hle' := le_sum (fun u => (s.writes u).toNat) t
  rcases hw : s.writes t with _ | _
  · -- a reader: the count is positive
    have hpos : 0 < s.reads t := hholds.resolve_right (by simp [hw])
    rcases h with ⟨-, -, hzero⟩ | ⟨href, hnone⟩
    · omega
    · refine .inr ⟨?_, ?_⟩
      · simp only [grant, hw, Bool.false_eq_true, if_false, Rwlock.release]
        rw [if_pos (by omega)]
        simp only []
        omega
      · simpa [grant, hw] using hnone
  · rw [hw, Bool.toNat_true] at hle' hwrites
    rcases h with ⟨href, hone, hzero⟩ | ⟨-, hnone⟩
    · refine .inr ⟨?_, ?_⟩
      · simp [grant, hw, Rwlock.release, href, hzero]
      · simp only [grant, hw, if_true]
        omega
    · omega

variable {r : Rwlock × Next} {c : Call} {tr : List (Op ι × Out)} {i : Op ι} {o : Out}

/-- A section, of a thread that has `rw_mutex` and is already taken off the numbers of `l`. -/
theorem Inv.proceed (h : s.Inv) {l : Rwlock} (he : Effect l c r) (hown : s.owner = some t)
    (href : l.rwRefcount = s.lock.rwRefcount)
    (hreaders : l.rwNwaitreaders + ((s.pc t).counted Call.waitsToRead).toNat =
      s.lock.rwNwaitreaders)
    (hwriters : l.rwNwaitwriters + ((s.pc t).counted Call.waitsToWrite).toNat =
      s.lock.rwNwaitwriters) (hholds : c = .unlock → s.Holds t) : (s.proceed t c r).Inv := by
  -- nobody else has the mutex
  have hothers : ∀ u, u ≠ t → (none = some u ↔ s.owner = some u) := by
    intro u hne
    simp only [hown, reduceCtorEq, some.injEq, false_iff]
    exact Ne.symm hne
  have hcounts : ∀ l' : Rwlock, l'.rwRefcount = s.lock.rwRefcount →
      ({ s with lock := l' } : RwSys ι).Counts := by
    intro l' hl'
    simpa only [Counts, hl'] using h.counts
  -- a call that ends with success, and what it then holds
  have hleave : ∀ l' : Rwlock, l'.rwNwaitreaders = l.rwNwaitreaders →
      l'.rwNwaitwriters = l.rwNwaitwriters → ({ s with lock := l' }.grant t c).Counts →
      (({ s with lock := l' }.grant t c).goto t (.leaving .ok)).Inv := by
    intro l' hr hw hgrant
    refine h.move (pc_granted l') (fun u _ => by simp [RwSys.goto])
      (by simp [RwSys.goto, hown, RwPc.inside]) hgrant ?_ ?_ trivial
      (fun u hne hu => (holds_grant hne c).mpr hu)
    · simpa [RwSys.goto, hr, RwPc.counted] using hreaders
    · simpa [RwSys.goto, hw, RwPc.counted] using hwriters
  cases he with
  | waitToRead hc =>
    have hnot : c.waitsToWrite = false := by cases c <;> first | rfl | cases hc
    simp only [proceed, hown, if_true]
    refine h.move rfl hothers (by simp [RwSys.goto, RwPc.inside]) (hcounts _ href) ?_ ?_ (.inl hc)
      (fun _ _ hu => hu)
    · rw [show (RwPc.waiting c).counted Call.waitsToRead = true from hc]
      simp only [RwSys.goto, Bool.toNat_true]
      omega
    · simpa [RwSys.goto, RwPc.counted, hnot] using hwriters
  | waitToWrite hc =>
    have hnot : c.waitsToRead = false := by cases c <;> first | rfl | cases hc
    simp only [proceed, hown, if_true]
    refine h.move rfl hothers (by simp [RwSys.goto, RwPc.inside]) (hcounts _ href) ?_ ?_ (.inr hc)
      (fun _ _ hu => hu)
    · simpa [RwSys.goto, RwPc.counted, hnot] using hreaders
    · rw [show (RwPc.waiting c).counted Call.waitsToWrite = true from hc]
      simp only [RwSys.goto, Bool.toNat_true]
      omega
  | read hc hpos =>
    refine hleave _ rfl rfl ?_
    rcases hc with rfl | rfl | rfl <;>
      exact h.counts.read (t := t) (by omega) (by simp [grant, href]) rfl rfl
  | write hc hzero =>
    refine hleave _ rfl rfl ?_
    rcases hc with rfl | rfl | rfl <;> exact h.counts.write (t := t) (by omega) rfl rfl rfl
  | @fail _ e hr =>
    have heq : s.proceed t c (l, .leave e) = { s with lock := l }.goto t (.leaving e) := by
      cases e <;> first | rfl | exact absurd rfl hr
    rw [heq]
    refine h.move rfl (fun _ _ => Iff.rfl) (by simp [RwSys.goto, hown, RwPc.inside])
      (hcounts l href) ?_ ?_ trivial (fun _ _ hu => hu)
    · simpa [RwSys.goto, RwPc.counted] using hreaders
    · simpa [RwSys.goto, RwPc.counted] using hwriters
  | unlock =>
    have hnums : l.release.rwNwaitreaders = l.rwNwaitreaders ∧
        l.release.rwNwaitwriters = l.rwNwaitwriters := by
      unfold Rwlock.release
      split_ifs <;> exact ⟨rfl, rfl⟩
    exact hleave _ hnums.1 hnums.2
      (Counts.release (s := { s with lock := l }) (hcounts l href) (hholds rfl))

/-! ## Runs -/

/-- `pthread_rwlock_init` resets a lock that nobody holds and nobody else uses. -/
def Quiet (s : RwSys ι) : Op ι → Prop
  | .setup t => ∀ u, ¬ s.Holds u ∧ (u ≠ t → (s.pc u).before = true)
  | _ => True

theorem inv_setup (h : s.Inv) (hpc : s.pc t = .setup c) (hq : s.Quiet (.setup t)) :
    ({ s with lock := s.lock.setup, owner := none }.goto t (.locking c)).Inv := by
  have hbefore : ∀ u, (s.pc u).before = true := by
    intro u
    rcases eq_or_ne u t with rfl | hne
    · rw [hpc]
      rfl
    · exact (hq u).2 hne
  have hzero : ∀ p, ∑ u, ((s.pc u).counted p).toNat = 0 := by
    intro p
    refine sum_eq_zero fun u _ => ?_
    rw [(RwPc.of_before (hbefore u)).2, Bool.toNat_false]
  have hreads : ∀ u, s.reads u = 0 := fun u => by
    have := (hq u).1
    simp only [Holds, not_or] at this
    omega
  have hwrites : ∀ u, s.writes u = false := fun u => by
    have := (hq u).1
    simp only [Holds, not_or, Bool.not_eq_true] at this
    exact this.2
  refine h.move rfl (fun u _ => ?_) (by simp [RwSys.goto, RwPc.inside])
    (.inr ?_) ?_ ?_ ?_ (fun _ _ hu => hu)
  · rw [h.inside, (RwPc.of_before (hbefore u)).1]
    simp [RwSys.goto]
  · simp [RwSys.goto, setup, hreads, hwrites]
  · rw [h.readers, hzero, hpc]
    rfl
  · rw [h.writers, hzero, hpc]
    rfl
  · have := h.valid t
    rw [hpc] at this
    exact this

theorem inv_run (h : s.Inv)
    (hr : s.pc t = .body c ∧ r = s.lock.body c ∨ ∃ e, s.pc t = .woken c e ∧ r = s.lock.woken e c) :
    (s.proceed t c r).Inv := by
  have hvalid := h.valid t
  have hown : s.owner = some t := by
    rw [h.inside]
    rcases hr with ⟨hpc, -⟩ | ⟨e, hpc, -⟩ <;> rw [hpc] <;> rfl
  rcases hr with ⟨hpc, rfl⟩ | ⟨e, hpc, rfl⟩
  · rw [hpc] at hvalid
    exact h.proceed (s.lock.effect_body c) hown rfl (by simp [hpc, RwPc.counted])
      (by simp [hpc, RwPc.counted]) hvalid
  · rw [hpc] at hvalid
    rcases hvalid with hc | hc
    · have hnot : c.waitsToWrite = false := by cases c <;> first | rfl | cases hc
      exact h.proceed (s.lock.effect_woken_read hc e) hown rfl (by simp [hpc, RwPc.counted, hc])
        (by simp [hpc, RwPc.counted, hnot]) (by rintro rfl; cases hc)
    · have hnot : c.waitsToRead = false := by cases c <;> first | rfl | cases hc
      exact h.proceed (s.lock.effect_woken_write hc e) hown rfl
        (by simp [hpc, RwPc.counted, hnot]) (by simp [hpc, RwPc.counted, hc])
        (by rintro rfl; cases hc)

theorem inv_step (h : s.Inv) (hq : s.Quiet i) (hs : s.step i = some (o, s')) : s'.Inv := by
  cases i with
  | call t c =>
    simp only [step, ite_none_right_eq_some, some.injEq, Prod.mk.injEq] at hs
    obtain ⟨⟨hpc, hc⟩, -, rfl⟩ := hs
    exact h.goto (by rw [hpc]; rfl) (by rw [hpc]; exact fun _ => rfl) hc
  | check t =>
    have hvalid := h.valid t
    simp only [step] at hs
    split at hs
    · rename_i c hpc
      obtain ⟨-, rfl⟩ := hs
      rw [hpc] at hvalid
      split_ifs <;> exact h.goto (by rw [hpc]; rfl) (by rw [hpc]; exact fun _ => rfl) hvalid
    · cases hs
  | init t =>
    have hvalid := h.valid t
    simp only [step] at hs
    split at hs
    · rename_i c hpc
      obtain ⟨-, rfl⟩ := hs
      rw [hpc] at hvalid
      have hself := h.inside t
      rw [hpc] at hself
      exact h.move rfl (fun _ _ => Iff.rfl) hself h.counts (by rw [hpc]; rfl) (by rw [hpc]; rfl)
        hvalid (fun _ _ hu => hu)
    · cases hs
  | setup t =>
    simp only [step] at hs
    split at hs
    · rename_i c hpc
      obtain ⟨-, rfl⟩ := hs
      exact inv_setup h hpc hq
    · cases hs
  | lock t =>
    have hvalid := h.valid t
    simp only [step] at hs
    split at hs
    · rename_i c hown hpc
      obtain ⟨-, rfl⟩ := hs
      rw [hpc] at hvalid
      exact h.move rfl (fun u hne => by simp [RwSys.goto, hown, hne.symm])
        (by simp [RwSys.goto, RwPc.inside]) h.counts (by rw [hpc]; rfl) (by rw [hpc]; rfl) hvalid
        (fun _ _ hu => hu)
    · rename_i c r hown hpc
      obtain ⟨-, rfl⟩ := hs
      rw [hpc] at hvalid
      exact h.move rfl (fun u hne => by simp [RwSys.goto, hown, hne.symm])
        (by simp [RwSys.goto, RwPc.inside]) h.counts (by rw [hpc]; rfl) (by rw [hpc]; rfl) hvalid
        (fun _ _ hu => hu)
    · cases hs
  | run t =>
    simp only [step] at hs
    split at hs
    · rename_i c hpc
      obtain ⟨-, rfl⟩ := hs
      exact inv_run h (.inl ⟨hpc, rfl⟩)
    · rename_i c e hpc
      obtain ⟨-, rfl⟩ := hs
      exact inv_run h (.inr ⟨e, hpc, rfl⟩)
    · cases hs
  | wake t r =>
    have hvalid := h.valid t
    simp only [step] at hs
    split at hs
    · rename_i c hpc
      obtain ⟨-, rfl⟩ := hs
      rw [hpc] at hvalid
      exact h.goto (by rw [hpc]; rfl) (by rw [hpc]; exact fun _ => rfl) hvalid
    · cases hs
  | leave t =>
    simp only [step] at hs
    split at hs
    · rename_i r hpc
      have hown : s.owner = some t := by rw [h.inside, hpc]; rfl
      obtain ⟨-, rfl⟩ := hs
      exact h.move rfl (fun u hne => by simp [RwSys.goto, hown, hne.symm])
        (by simp [RwSys.goto, RwPc.inside]) h.counts (by rw [hpc]; rfl) (by rw [hpc]; rfl) trivial
        (fun _ _ hu => hu)
    · cases hs

/-- The counters are what they stand for. -/
def Exact (s : RwSys ι) : Prop :=
  (s.lock.rwRefcount = -1 ↔ (∃! t, s.writes t = true) ∧ ∀ t, s.reads t = 0) ∧
  (s.lock.rwRefcount ≠ -1 → s.lock.rwRefcount = ∑ t, s.reads t ∧ ∀ t, s.writes t = false) ∧
  s.lock.rwNwaitreaders =
    (univ.filter fun t => (s.pc t).inWait Call.waitsToRead = true).card ∧
  s.lock.rwNwaitwriters =
    (univ.filter fun t => (s.pc t).inWait Call.waitsToWrite = true).card

omit [DecidableEq ι] in
theorem Inv.exact (h : s.Inv) (howner : s.owner = none) : s.Exact := by
  have hin : ∀ t, (s.pc t).inside = false := by
    intro t
    have := h.inside t
    rw [howner] at this
    simpa using this
  have hcard : ∀ p, ∑ t, ((s.pc t).counted p).toNat =
      (univ.filter fun t => (s.pc t).inWait p = true).card := by
    intro p
    rw [← sum_toNat_eq_card]
    exact sum_congr rfl fun t _ => by rw [RwPc.counted_eq_inWait (hin t)]
  refine ⟨?_, ?_, by rw [h.readers, hcard], by rw [h.writers, hcard]⟩
  · rcases h.counts with ⟨href, hone, hzero⟩ | ⟨href, hnone⟩
    · refine iff_of_true href ⟨(sum_toNat_eq_one_iff _).mp hone, fun t => ?_⟩
      exact sum_eq_zero_iff.mp hzero t (mem_univ t)
    · refine iff_of_false (by omega) fun hw => ?_
      have := (sum_toNat_eq_one_iff _).mpr hw.1
      omega
  · intro hne
    rcases h.counts with ⟨href, -, -⟩ | ⟨href, hnone⟩
    · exact absurd href hne
    · refine ⟨href, fun t => ?_⟩
      exact Bool.toNat_eq_zero.mp (sum_eq_zero_iff.mp hnone t (mem_univ t))

/-! ## A lock that `pthread_rwlock_init` has set up -/

omit [Fintype ι]

/-- No call runs `pthread_rwlock_init`. -/
def Initialised (s : RwSys ι) : Prop := s.lock.attr = 0 ∧ ∀ t, (s.pc t).initialising = false

omit [DecidableEq ι] in
theorem initialised_unused : (unused 0 : RwSys ι).Initialised := ⟨rfl, fun _ => rfl⟩

theorem Initialised.move (h : s.Initialised) (hattr : s'.lock.attr = s.lock.attr)
    (hpc : s'.pc = update s.pc t pc) (hnot : pc.initialising = false) :
    s'.Initialised := by
  refine ⟨hattr.trans h.1, fun u => ?_⟩
  rw [hpc]
  rcases eq_or_ne u t with rfl | hne
  · rwa [update_self]
  · rw [update_of_ne hne]
    exact h.2 u

theorem Initialised.proceed (h : s.Initialised) (hattr : r.1.attr = s.lock.attr) :
    (s.proceed t c r).Initialised := by
  obtain ⟨l, _ | e⟩ := r
  · simp only [proceed]
    split_ifs
    · exact h.move hattr rfl rfl
    · exact h.move hattr rfl rfl
  · cases e with
    | ok => exact h.move (by simpa [proceed, RwSys.goto] using hattr) (pc_granted l) rfl
    | _ => exact h.move hattr rfl rfl

theorem initialised_step (h : s.Initialised) (hs : s.step i = some (o, s')) : s'.Initialised := by
  have hattr : s.lock.attr ≠ -1 := by rw [h.1]; decide
  -- a thread is not in `pthread_rwlock_init`
  have hpc : ∀ t, (s.pc t).initialising = false := h.2
  cases i with
  | call t c =>
    simp only [step, ite_none_right_eq_some, some.injEq, Prod.mk.injEq] at hs
    obtain ⟨-, -, rfl⟩ := hs
    exact h.move rfl rfl rfl
  | check t =>
    simp only [step, if_neg hattr] at hs
    split at hs <;> cases hs
    exact h.move rfl rfl rfl
  | init t | setup t =>
    simp only [step] at hs
    split at hs
    · rename_i c hc
      have := hpc t
      rw [hc] at this
      cases this
    · cases hs
  | lock t =>
    simp only [step] at hs
    split at hs <;> cases hs
    · exact h.move rfl rfl rfl
    · exact h.move rfl rfl rfl
  | run t =>
    simp only [step] at hs
    split at hs <;> cases hs
    · exact h.proceed (s.lock.effect_body _).attr
    · exact h.proceed (s.lock.woken_attr _ _)
  | wake t r | leave t =>
    simp only [step] at hs
    split at hs <;> cases hs
    exact h.move rfl rfl rfl

/-- Then the condition on `pthread_rwlock_init` is met by every run. -/
theorem stepsSatisfy_of_run (h0 : s.Initialised) (h : Run step s tr s') :
    StepsSatisfy step Quiet s tr s' ∧ s'.Initialised := by
  induction h with
  | nil => exact ⟨.nil, h0⟩
  | @snoc tr s₁ s₂ i o _ hs ih =>
    refine ⟨.snoc ih.1 ?_ hs, initialised_step ih.2 hs⟩
    cases i with
    | setup t =>
      simp only [step] at hs
      split at hs
      · rename_i c hc
        have := ih.2.2 t
        rw [hc] at this
        cases this
      · cases hs
    | _ => trivial

theorem exact_of_steps [Fintype ι] {attr : ℤ} (h : StepsSatisfy step Quiet (unused attr) tr s)
    (howner : s.owner = none) : s.Exact := by
  refine Inv.exact (h.inv (inv_unused attr) ?_) howner
  intro s i o s' hinv hq hs
  exact inv_step hinv hq hs

/-- Whenever nobody has `rw_mutex`, the counters of the lock are what they stand for: after every
run with a lock that `pthread_rwlock_init` has set up, and with a lock that the first call sets up
after every run in which `pthread_rwlock_init` does not reset a lock in use. -/
theorem rwlock_exclusion [Fintype ι] {tr : List (Op ι × Out)} (howner : s'.owner = none) :
    (Run step (unused 0) tr s' → s'.Exact) ∧
      (StepsSatisfy step Quiet (unused (-1)) tr s' → s'.Exact) :=
  ⟨fun h => exact_of_steps (stepsSatisfy_of_run initialised_unused h).1 howner,
    fun h => exact_of_steps h howner⟩

/-- Thread `false` finds a lock that is not initialised and takes it for reading; thread `true`
waits for writing. -/
def sampleOps : List (Op Bool) :=
  [.call false .rdlock, .check false, .init false, .setup false, .lock false, .run false,
    .leave false, .call true .wrlock, .check true, .lock true, .run true]

instance (s : RwSys Bool) (i : Op Bool) : Decidable (s.Quiet i) :=
  match i with
  | .setup t => inferInstanceAs (Decidable (∀ u, ¬ s.Holds u ∧ (u ≠ t → (s.pc u).before = true)))
  | .call _ _ | .check _ | .init _ | .lock _ | .run _ | .wake _ _ | .leave _ => .isTrue trivial

theorem sampleOps_possible :
    (exec (guard Quiet step) (unused (-1) : RwSys Bool) sampleOps).isSome := by decide

theorem rwlock_exclusion_sample : ∃ (tr : List (Op Bool × Out)) (s : RwSys Bool),
    StepsSatisfy step Quiet (unused (-1)) tr s ∧ s.lock.rwRefcount = 1 ∧
      s.lock.rwNwaitwriters = 1 ∧ s.Exact :=
  ⟨_, _, .of_isSome sampleOps_possible, by decide, by decide,
    (rwlock_exclusion (by decide)).2 (.of_isSome sampleOps_possible)⟩

/-- Both threads find that the lock is not initialised. Thread `true` initialises it and takes it
for writing; then thread `false` initialises it again, and takes it for reading. -/
def raceOps : List (Op Bool) :=
  [.call false .rdlock, .check false, .call true .wrlock, .check true,
    .init true, .setup true, .lock true, .run true, .leave true,
    .init false, .setup false, .lock false, .run false, .leave false]

theorem raceOps_possible : (exec step (unused (-1) : RwSys Bool) raceOps).isSome := by decide

theorem reader_beside_writer : ∃ (tr : List (Op Bool × Out)) (s : RwSys Bool),
    Run step (unused (-1)) tr s ∧ s.owner = none ∧ s.writes true = true ∧ s.reads false = 1 ∧
      s.lock.rwRefcount = 1 ∧ ¬ s.Exact := by
  refine ⟨_, _, .of_isSome raceOps_possible, by decide, by decide, by decide, by decide, ?_⟩
  intro hexact
  exact absurd ((hexact.2.1 (by decide)).2 true) (by decide)

/-! ## Destroying a lock -/

/-- `rt_sem_trytake` of a semaphore with value `v`, as long as nobody waits for it. -/
def trytake (v : ℕ) : Option ℕ := if 0 < v then some (v - 1) else none

/-- `pthread_cond_destroy`: the semaphore of the condition, `none` once it is destroyed. -/
def condDestroy (v : ℕ) : Option ℕ := if (trytake v).isSome then none else some v

/-- The counters say that nobody uses the lock. -/
def Unlocked (s : RwSys ι) : Prop :=
  s.lock.rwRefcount = 0 ∧ s.lock.rwNwaitreaders = 0 ∧ s.lock.rwNwaitwriters = 0
  deriving Decidable

/-- `pthread_rwlock_destroy` by a thread `t` that finds `rw_mutex` free, with the values of the
semaphores of both conditions: the result, who has `rw_mutex` then, and the semaphores. -/
def destroy (s : RwSys ι) (t : ι) (condreaders condwriters : ℕ) :
    Result × Option ι × Option ℕ × Option ℕ :=
  let conds := (some condreaders, some condwriters)
  -- rwlock is not initialized
  if s.lock.attr = -1 then (.ok, s.owner, conds)
  -- this exit does not let `rw_mutex` go
  else if ¬ s.Unlocked then (.ebusy, some t, conds)
  else match trytake condreaders, trytake condwriters with
    | some r, some w => (.ok, none, condDestroy (r + 1), condDestroy (w + 1))
    | some r, none => (.ebusy, none, some (r + 1), some condwriters)
    | none, _ => (.ebusy, none, conds)

/-- Nobody holds the lock or waits for it. -/
def Idle (s : RwSys ι) : Prop :=
  ∀ u, ¬ s.Holds u ∧ (s.pc u).inWait Call.waitsToRead = false ∧
    (s.pc u).inWait Call.waitsToWrite = false

/-- What is expected of `pthread_rwlock_destroy`. -/
def DestroyExact (s : RwSys ι) (t : ι) (condreaders condwriters : ℕ) : Prop :=
  let d := s.destroy t condreaders condwriters
  (d.1 = .ok ↔ s.Idle) ∧
    (d.1 ≠ .ok → d.1 = .ebusy ∧ d.2.2 = (some condreaders, some condwriters)) ∧ d.2.1 ≠ some t

omit [DecidableEq ι] in
theorem Exact.unlocked_iff [Fintype ι] (h : s.Exact) : s.Unlocked ↔ s.Idle := by
  obtain ⟨hwriter, hreaders, hwaitr, hwaitw⟩ := h
  rw [Unlocked, hwaitr, hwaitw, Nat.cast_eq_zero, Nat.cast_eq_zero, card_eq_zero,
    card_eq_zero]
  simp only [filter_eq_empty_iff, mem_univ, true_imp_iff, Bool.not_eq_true]
  constructor
  · rintro ⟨href, hr, hw⟩ u
    obtain ⟨hsum, hnone⟩ := hreaders (by omega)
    have hzero : ∑ t, s.reads t = 0 := by omega
    have hu := sum_eq_zero_iff.mp hzero u (mem_univ u)
    exact ⟨by simp [Holds, hu, hnone u], @hr u, @hw u⟩
  · intro h
    refine ⟨?_, fun u => (h u).2.1, fun u => (h u).2.2⟩
    by_cases href : s.lock.rwRefcount = -1
    · obtain ⟨⟨u, hu, -⟩, -⟩ := hwriter.mp href
      exact absurd (.inr hu) (h u).1
    · rw [(hreaders href).1, Nat.cast_eq_zero, sum_eq_zero_iff]
      exact fun u _ => Nat.eq_zero_of_not_pos fun hpos => (h u).1 (.inl hpos)

/-- `pthread_rwlock_destroy` does what is expected if the lock is not initialised and idle, or if
the counters are zero and the lock is idle just if both semaphores can be taken. After runs that do
not reset a lock in use this means: if the lock is idle and, unless it is not initialised, both
semaphores have been signalled. -/
theorem rwlock_destroy_iff [Fintype ι] (howner : s.owner = none) (t : ι) (r w : ℕ) :
    (s.DestroyExact t r w ↔
      if s.lock.attr = -1 then s.Idle else s.Unlocked ∧ (0 < r ∧ 0 < w ↔ s.Idle)) ∧
    ∀ attr tr, StepsSatisfy step Quiet (unused attr) tr s →
      (s.DestroyExact t r w ↔ s.Idle ∧ (s.lock.attr = -1 ∨ 0 < r ∧ 0 < w)) := by
  have hiff : s.DestroyExact t r w ↔
      if s.lock.attr = -1 then s.Idle else s.Unlocked ∧ (0 < r ∧ 0 < w ↔ s.Idle) := by
    unfold DestroyExact destroy trytake
    by_cases hattr : s.lock.attr = -1
    · simp [hattr, howner]
    · by_cases hun : s.Unlocked
      · by_cases hr : 0 < r
        · by_cases hw : 0 < w
          · simp [hattr, hun, hr, hw]
          · simp [hattr, hun, hr, hw, Nat.sub_add_cancel hr]
        · simp [hattr, hun, hr]
      · simp [hattr, hun]
  refine ⟨hiff, fun attr tr hrun => ?_⟩
  have hexact := (exact_of_steps hrun howner).unlocked_iff
  rw [hiff]
  split_ifs with hattr
  · simp [hattr]
  · rw [hexact]
    exact and_congr_right fun hidle => by simp [hattr, hidle]

theorem rwlock_destroy_sample : (unused 0 : RwSys Bool).DestroyExact true 1 1 :=
  ((rwlock_destroy_iff rfl true 1 1).2 0 [] .nil).mpr
    ⟨fun u => by simp [unused, Holds, RwPc.inWait], .inr (by decide)⟩

/-- A new lock cannot be destroyed, and a lock that is held keeps its mutex. -/
theorem rwlock_destroy_leaks :
    (unused 0 : RwSys Bool).Idle ∧ ((unused 0 : RwSys Bool).destroy true 0 0).1 = .ebusy ∧
    ∃ (tr : List (Op Bool × Out)) (s : RwSys Bool),
      StepsSatisfy step Quiet (unused (-1)) tr s ∧ s.owner = none ∧ s.Holds false ∧
        s.destroy true 1 1 = (.ebusy, some true, some 1, some 1) :=
  ⟨fun u => by simp [unused, Holds, RwPc.inWait], by decide, _, _, .of_isSome sampleOps_possible,
    by decide, by decide, by decide⟩

end RwSys

end RtThread
