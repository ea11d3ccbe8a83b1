import RtThread.Kernel.Basic

/-!
# The scheduler

Models of `src/scheduler.c` (`rt_system_scheduler_init`, `rt_schedule`,
`rt_schedule_insert_thread`, `rt_schedule_remove_thread`) and of `__rt_ffs`
(`src/kservice.c`).

* `Queued k R`: the ready lists hold exactly the threads of `R`, each once and
  at its current priority. `Queued.insertThread` and `Queued.removeThread` say
  what the two queue operations do to `R`.
* `BitmapOk M k`: the bitmap marks exactly the non-empty lists.
  `BitmapOk.insertThread` and `BitmapOk.removeThread` need the masks cached in
  the thread to agree with its current priority (`MaskOk`).
-/

namespace RtThread

open List Function

/-- `__lowest_bit_bitmap` (`src/kservice.c`, lines 1211–1229). -/
def lowestBitBitmap : List ℕ :=
  [0, 0, 1, 0, 2, 0, 1, 0, 3, 0, 1, 0, 2, 0, 1, 0,
   4, 0, 1, 0, 2, 0, 1, 0, 3, 0, 1, 0, 2, 0, 1, 0,
   5, 0, 1, 0, 2, 0, 1, 0, 3, 0, 1, 0, 2, 0, 1, 0,
   4, 0, 1, 0, 2, 0, 1, 0, 3, 0, 1, 0, 2, 0, 1, 0,
   6, 0, 1, 0, 2, 0, 1, 0, 3, 0, 1, 0, 2, 0, 1, 0,
   4, 0, 1, 0, 2, 0, 1, 0, 3, 0, 1, 0, 2, 0, 1, 0,
   5, 0, 1, 0, 2, 0, 1, 0, 3, 0, 1, 0, 2, 0, 1, 0,
   4, 0, 1, 0, 2, 0, 1, 0, 3, 0, 1, 0, 2, 0, 1, 0,
   7, 0, 1, 0, 2, 0, 1, 0, 3, 0, 1, 0, 2, 0, 1, 0,
   4, 0, 1, 0, 2, 0, 1, 0, 3, 0, 1, 0, 2, 0, 1, 0,
   5, 0, 1, 0, 2, 0, 1, 0, 3, 0, 1, 0, 2, 0, 1, 0,
   4, 0, 1, 0, 2, 0, 1, 0, 3, 0, 1, 0, 2, 0, 1, 0,
   6, 0, 1, 0, 2, 0, 1, 0, 3, 0, 1, 0, 2, 0, 1, 0,
   4, 0, 1, 0, 2, 0, 1, 0, 3, 0, 1, 0, 2, 0, 1, 0,
   5, 0, 1, 0, 2, 0, 1, 0, 3, 0, 1, 0, 2, 0, 1, 0,
   4, 0, 1, 0, 2, 0, 1, 0, 3, 0, 1, 0, 2, 0, 1, 0]

/-- `__rt_ffs` (`src/kservice.c`, lines 1243–1257). -/
def rtFfs (value : BitVec 32) : ℕ :=
  if value = 0 then 0
  else if value &&& 0xff#32 ≠ 0 then
    lowestBitBitmap.getD (value &&& 0xff#32).toNat 0 + 1
  else if value &&& 0xff00#32 ≠ 0 then
    lowestBitBitmap.getD ((value &&& 0xff00#32) >>> 8).toNat 0 + 9
  else if value &&& 0xff0000#32 ≠ 0 then
    lowestBitBitmap.getD ((value &&& 0xff0000#32) >>> 16).toNat 0 + 17
  else lowestBitBitmap.getD ((value &&& 0xff000000#32) >>> 24).toNat 0 + 25

namespace Kernel

variable {Q : Type} (M : ℕ) (k : Kernel Q) (t u : Tid) {w q : ℕ}

/-! ## Model -/

/-- `rt_system_scheduler_init` (lines 121–148): empty ready lists, no thread running. `mem` is what
the thread objects contain at that time. -/
def rtSystemSchedulerInit (mem : Tid → Thread) : Kernel Q where
  thread := mem
  priorityTable := fun _ => []
  readyPriorityGroup := 0
  readyTable := fun _ => 0
  currentThread := none
  schedulerLockNest := 0
  threadDefunct := []
  suspendThread := fun _ => []

/-- `highest_ready_priority` as computed by `rt_schedule` and `rt_system_scheduler_start`. With
nothing ready the code computes `-1` and reads outside the table; the idle thread prevents this. -/
def highestReadyPriority : ℕ :=
  if M ≤ 32 then rtFfs k.readyPriorityGroup - 1
  else
    let number := rtFfs k.readyPriorityGroup - 1
    (number <<< 3) + rtFfs ((k.readyTable number).setWidth 32) - 1

/-- `rt_system_scheduler_start` (lines 155–180). -/
def rtSystemSchedulerStart : Kernel Q :=
  match (k.priorityTable (k.highestReadyPriority M)).head? with
  | some toThread => { k with currentThread := some toThread }
  | none => k

/-- `rt_schedule` (lines 192–259). -/
def rtSchedule : Kernel Q :=
  if k.schedulerLockNest = 0 then
    match (k.priorityTable (k.highestReadyPriority M)).head? with
    | some toThread =>
      if k.currentThread = some toThread then k else { k with currentThread := some toThread }
    | none => k
  else k

/-- `rt_schedule_insert_thread` (lines 268–305). -/
def rtScheduleInsertThread : Kernel Q :=
  -- change stat
  let k := k.modify t fun th => { th with stat := .ready }
  let th := k.thread t
  -- insert thread to ready list
  let k := { k with priorityTable := update k.priorityTable th.currentPriority
                      (k.priorityTable th.currentPriority ++ [t]) }
  -- set priority mask
  let k := if 32 < M then
      { k with readyTable := update k.readyTable th.number
                  (k.readyTable th.number ||| th.highMask) }
    else k
  { k with readyPriorityGroup := k.readyPriorityGroup ||| th.numberMask }

/-- `rt_schedule_remove_thread` (lines 314–354). -/
def rtScheduleRemoveThread : Kernel Q :=
  let th := k.thread t
  -- remove thread from ready list
  let k := k.listRemove t
  if k.priorityTable th.currentPriority = [] then
    if 32 < M then
      let k := { k with readyTable := update k.readyTable th.number
                          (k.readyTable th.number &&& ~~~th.highMask) }
      if k.readyTable th.number = 0 then
        { k with readyPriorityGroup := k.readyPriorityGroup &&& ~~~th.numberMask }
      else k
    else { k with readyPriorityGroup := k.readyPriorityGroup &&& ~~~th.numberMask }
  else k

/-! ## What the functions leave alone -/

section Schedule

theorem rtSchedule_eq : ∃ c, k.rtSchedule M = { k with currentThread := c } := by
  unfold rtSchedule
  split_ifs
  · split
    · split_ifs
      · exact ⟨k.currentThread, rfl⟩
      · exact ⟨_, rfl⟩
    · exact ⟨k.currentThread, rfl⟩
  · exact ⟨k.currentThread, rfl⟩

@[simp] theorem rtSchedule_thread : (k.rtSchedule M).thread = k.thread := by
  obtain ⟨c, h⟩ := k.rtSchedule_eq M; rw [h]

@[simp] theorem rtSchedule_priorityTable : (k.rtSchedule M).priorityTable = k.priorityTable := by
  obtain ⟨c, h⟩ := k.rtSchedule_eq M; rw [h]

@[simp] theorem rtSchedule_readyPriorityGroup :
    (k.rtSchedule M).readyPriorityGroup = k.readyPriorityGroup := by
  obtain ⟨c, h⟩ := k.rtSchedule_eq M; rw [h]

@[simp] theorem rtSchedule_readyTable : (k.rtSchedule M).readyTable = k.readyTable := by
  obtain ⟨c, h⟩ := k.rtSchedule_eq M; rw [h]

@[simp] theorem rtSchedule_threadDefunct : (k.rtSchedule M).threadDefunct = k.threadDefunct := by
  obtain ⟨c, h⟩ := k.rtSchedule_eq M; rw [h]

@[simp] theorem rtSchedule_suspendThread : (k.rtSchedule M).suspendThread = k.suspendThread := by
  obtain ⟨c, h⟩ := k.rtSchedule_eq M; rw [h]

@[simp] theorem rtSchedule_schedulerLockNest :
    (k.rtSchedule M).schedulerLockNest = k.schedulerLockNest := by
  obtain ⟨c, h⟩ := k.rtSchedule_eq M; rw [h]

theorem rtSystemSchedulerStart_eq :
    ∃ c, k.rtSystemSchedulerStart M = { k with currentThread := c } := by
  unfold rtSystemSchedulerStart
  split
  · exact ⟨_, rfl⟩
  · exact ⟨k.currentThread, rfl⟩

@[simp] theorem rtSystemSchedulerStart_thread : (k.rtSystemSchedulerStart M).thread = k.thread := by
  obtain ⟨c, h⟩ := k.rtSystemSchedulerStart_eq M; rw [h]

@[simp] theorem rtSystemSchedulerStart_suspendThread :
    (k.rtSystemSchedulerStart M).suspendThread = k.suspendThread := by
  obtain ⟨c, h⟩ := k.rtSystemSchedulerStart_eq M; rw [h]

end Schedule

section Insert

@[simp] theorem rtScheduleInsertThread_thread :
    (k.rtScheduleInsertThread M t).thread =
      (k.modify t fun th => { th with stat := .ready }).thread := by
  unfold rtScheduleInsertThread; split_ifs <;> rfl

@[simp] theorem rtScheduleInsertThread_priorityTable :
    (k.rtScheduleInsertThread M t).priorityTable =
      update k.priorityTable (k.thread t).currentPriority
        (k.priorityTable (k.thread t).currentPriority ++ [t]) := by
  unfold rtScheduleInsertThread; split_ifs <;> simp

@[simp] theorem rtScheduleInsertThread_readyPriorityGroup :
    (k.rtScheduleInsertThread M t).readyPriorityGroup =
      k.readyPriorityGroup ||| (k.thread t).numberMask := by
  unfold rtScheduleInsertThread; split_ifs <;> simp

theorem rtScheduleInsertThread_readyTable (hM : 32 < M) :
    (k.rtScheduleInsertThread M t).readyTable =
      update k.readyTable (k.thread t).number
        (k.readyTable (k.thread t).number ||| (k.thread t).highMask) := by
  unfold rtScheduleInsertThread; dsimp only; rw [if_pos hM]; simp

@[simp] theorem rtScheduleInsertThread_threadDefunct :
    (k.rtScheduleInsertThread M t).threadDefunct = k.threadDefunct := by
  unfold rtScheduleInsertThread; split_ifs <;> rfl

@[simp] theorem rtScheduleInsertThread_suspendThread :
    (k.rtScheduleInsertThread M t).suspendThread = k.suspendThread := by
  unfold rtScheduleInsertThread; split_ifs <;> rfl

@[simp] theorem rtScheduleInsertThread_currentThread :
    (k.rtScheduleInsertThread M t).currentThread = k.currentThread := by
  unfold rtScheduleInsertThread; split_ifs <;> rfl

@[simp] theorem rtScheduleInsertThread_schedulerLockNest :
    (k.rtScheduleInsertThread M t).schedulerLockNest = k.schedulerLockNest := by
  unfold rtScheduleInsertThread; split_ifs <;> rfl

end Insert

section Remove

@[simp] theorem rtScheduleRemoveThread_thread :
    (k.rtScheduleRemoveThread M t).thread = k.thread := by
  unfold rtScheduleRemoveThread; dsimp only; split_ifs <;> rfl

@[simp] theorem rtScheduleRemoveThread_priorityTable (p : ℕ) :
    (k.rtScheduleRemoveThread M t).priorityTable p = (k.priorityTable p).erase t := by
  unfold rtScheduleRemoveThread; dsimp only; split_ifs <;> rfl

@[simp] theorem rtScheduleRemoveThread_threadDefunct :
    (k.rtScheduleRemoveThread M t).threadDefunct = k.threadDefunct.erase t := by
  unfold rtScheduleRemoveThread; dsimp only; split_ifs <;> rfl

@[simp] theorem rtScheduleRemoveThread_suspendThread (q : Q) :
    (k.rtScheduleRemoveThread M t).suspendThread q = (k.suspendThread q).erase t := by
  unfold rtScheduleRemoveThread; dsimp only; split_ifs <;> rfl

@[simp] theorem rtScheduleRemoveThread_currentThread :
    (k.rtScheduleRemoveThread M t).currentThread = k.currentThread := by
  unfold rtScheduleRemoveThread; dsimp only; split_ifs <;> rfl

@[simp] theorem rtScheduleRemoveThread_schedulerLockNest :
    (k.rtScheduleRemoveThread M t).schedulerLockNest = k.schedulerLockNest := by
  unfold rtScheduleRemoveThread; dsimp only; split_ifs <;> rfl

/-- The bits of the ready table that `rt_schedule_remove_thread` clears are those of `high_mask`, if
the list of the thread's priority is empty now. -/
theorem rtScheduleRemoveThread_readyTable (hM : 32 < M) (n : ℕ) :
    (k.rtScheduleRemoveThread M t).readyTable n =
      if (k.priorityTable (k.thread t).currentPriority).erase t = [] ∧ n = (k.thread t).number then
        k.readyTable n &&& ~~~(k.thread t).highMask
      else k.readyTable n := by
  unfold rtScheduleRemoveThread
  simp only [listRemove_priorityTable, listRemove_readyTable, hM, ↓reduceIte]
  by_cases hn : n = (k.thread t).number
  · split_ifs <;> simp_all
  · split_ifs <;> simp_all

/-- The bits of the group that `rt_schedule_remove_thread` clears are those of `number_mask`, if the
list of the thread's priority is empty now and, with the two-level bitmap, nothing is left in the
thread's byte of the table. -/
theorem rtScheduleRemoveThread_readyPriorityGroup :
    (k.rtScheduleRemoveThread M t).readyPriorityGroup =
      if (k.priorityTable (k.thread t).currentPriority).erase t = [] ∧
          (32 < M → k.readyTable (k.thread t).number &&& ~~~(k.thread t).highMask = 0) then
        k.readyPriorityGroup &&& ~~~(k.thread t).numberMask
      else k.readyPriorityGroup := by
  unfold rtScheduleRemoveThread
  simp only [listRemove_priorityTable, listRemove_readyTable, listRemove_readyPriorityGroup,
    update_self]
  by_cases hM : 32 < M
  · split_ifs <;> simp_all
  · simp only [hM, ↓reduceIte, false_imp_iff, and_true]
    split_ifs <;> rfl

end Remove

/-! ## The bitmap -/

/-- The masks cached in a thread object agree with its current priority. -/
structure MaskOk (th : Thread) : Prop where
  lt : th.currentPriority < M
  single : M ≤ 32 → th.numberMask = 1#32 <<< th.currentPriority
  number : 32 < M → th.number = th.currentPriority / 8
  numberMask : 32 < M → th.numberMask = 1#32 <<< (th.currentPriority / 8)
  highMask : 32 < M → th.highMask = 1#8 <<< (th.currentPriority % 8)

/-- The bitmap marks priority level `p` as ready. -/
def Marked (p : ℕ) : Prop :=
  if M ≤ 32 then k.readyPriorityGroup.getLsbD p = true
  else k.readyPriorityGroup.getLsbD (p / 8) = true ∧ (k.readyTable (p / 8)).getLsbD (p % 8) = true
  deriving Decidable

/-- The bitmap agrees with the ready lists. -/
structure BitmapOk : Prop where
  single : M ≤ 32 → ∀ p < 32, (k.readyPriorityGroup.getLsbD p = true ↔ k.priorityTable p ≠ [])
  table : 32 < M → ∀ p < 256,
    ((k.readyTable (p / 8)).getLsbD (p % 8) = true ↔ k.priorityTable p ≠ [])
  group : 32 < M → ∀ n < 32, (k.readyPriorityGroup.getLsbD n = true ↔ k.readyTable n ≠ 0)

/-- The ready lists hold exactly the threads of `R`, each once and in the list of its current
priority. -/
structure Queued (R : Set Tid) : Prop where
  mem : ∀ p t, t ∈ k.priorityTable p ↔ t ∈ R ∧ (k.thread t).currentPriority = p
  nodup : ∀ p, (k.priorityTable p).Nodup

theorem getLsbD_one_shiftLeft (p : ℕ) (hq : q < w) : (1#w <<< p).getLsbD q = decide (q = p) := by
  rw [BitVec.getLsbD_shiftLeft]
  by_cases h : q = p
  · subst h; simp [hq]; omega
  · simp [hq, h]; omega

theorem getLsbD_and_not_one_shiftLeft (x : BitVec w) (p : ℕ) (hq : q < w) :
    (x &&& ~~~(1#w <<< p)).getLsbD q = true ↔ x.getLsbD q = true ∧ q ≠ p := by
  rw [BitVec.getLsbD_and, BitVec.getLsbD_not, getLsbD_one_shiftLeft p hq]
  simp [hq]

theorem byte_ne_zero_iff (x : BitVec 8) : x ≠ 0 ↔ ∃ i < 8, x.getLsbD i = true := by
  constructor
  · intro h
    by_contra hne
    push Not at hne
    exact h (BitVec.eq_of_getLsbD_eq fun i hi => by simpa using hne i hi)
  · rintro ⟨i, _, hi⟩ rfl
    simp at hi

variable {M k t} {R : Set Tid} {k' : Kernel Q}

/-- A level is marked iff its ready list is not empty. -/
theorem BitmapOk.marked_iff (h : BitmapOk M k) (hM : M ≤ 256) {p : ℕ} (hp : p < M) :
    Marked M k p ↔ k.priorityTable p ≠ [] := by
  unfold Marked
  split_ifs with hs
  · exact h.single hs p (by omega)
  · rw [h.group (by omega) _ (by omega), h.table (by omega) p (by omega)]
    refine ⟨And.right, fun hne => ⟨(byte_ne_zero_iff _).mpr ⟨p % 8, by omega, ?_⟩, hne⟩⟩
    exact (h.table (by omega) p (by omega)).mpr hne

/-- The bitmap is about the ready lists only. -/
theorem BitmapOk.congr (h : BitmapOk M k) (h1 : k'.priorityTable = k.priorityTable)
    (h2 : k'.readyPriorityGroup = k.readyPriorityGroup) (h3 : k'.readyTable = k.readyTable) :
    BitmapOk M k' := by
  constructor
  · rw [h1, h2]; exact h.single
  · rw [h1, h3]; exact h.table
  · rw [h2, h3]; exact h.group

theorem MaskOk.congr {th th' : Thread} (h : MaskOk M th)
    (h1 : th'.currentPriority = th.currentPriority) (h2 : th'.number = th.number)
    (h3 : th'.highMask = th.highMask) (h4 : th'.numberMask = th.numberMask) : MaskOk M th' := by
  constructor
  · rw [h1]; exact h.lt
  · rw [h1, h4]; exact h.single
  · rw [h1, h2]; exact h.number
  · rw [h1, h4]; exact h.numberMask
  · rw [h1, h3]; exact h.highMask

/-- The bitmap after one more thread is appended to the list of its priority. -/
theorem BitmapOk.insertThread (h : BitmapOk M k) (hmask : MaskOk M (k.thread t)) :
    BitmapOk M (k.rtScheduleInsertThread M t) := by
  have hlist : ∀ p, (k.rtScheduleInsertThread M t).priorityTable p ≠ [] ↔
      k.priorityTable p ≠ [] ∨ p = (k.thread t).currentPriority := by
    intro p
    by_cases hp : p = (k.thread t).currentPriority
    · subst hp; simp
    · simp [hp]
  refine ⟨fun hs p hp => ?_, fun hb p hp => ?_, fun hb n hn => ?_⟩
  · rw [hlist, rtScheduleInsertThread_readyPriorityGroup, hmask.single hs, BitVec.getLsbD_or,
      getLsbD_one_shiftLeft _ hp, Bool.or_eq_true, h.single hs p hp, decide_eq_true_iff]
  · rw [hlist, rtScheduleInsertThread_readyTable _ _ _ hb, hmask.number hb, hmask.highMask hb]
    by_cases hn : p / 8 = (k.thread t).currentPriority / 8
    · rw [hn, update_self, BitVec.getLsbD_or, getLsbD_one_shiftLeft _ (by omega),
        Bool.or_eq_true, ← hn, h.table hb p hp, decide_eq_true_iff]
      exact or_congr_right (by omega)
    · rw [update_of_ne hn, h.table hb p hp]
      simp only [iff_self_or]
      rintro rfl
      exact absurd rfl hn
  · rw [rtScheduleInsertThread_readyTable _ _ _ hb, rtScheduleInsertThread_readyPriorityGroup,
      hmask.number hb, hmask.highMask hb, hmask.numberMask hb, BitVec.getLsbD_or,
      getLsbD_one_shiftLeft _ hn, Bool.or_eq_true, h.group hb n hn, decide_eq_true_iff]
    by_cases hc : n = (k.thread t).currentPriority / 8
    · subst hc
      rw [update_self]
      have h8 : (k.thread t).currentPriority % 8 < 8 := Nat.mod_lt _ (by omega)
      refine iff_of_true (.inr rfl) ((byte_ne_zero_iff _).mpr ⟨_, h8, ?_⟩)
      rw [BitVec.getLsbD_or, getLsbD_one_shiftLeft _ h8]
      simp
    · simp [hc]

/-- The bitmap after a thread left the list of its priority. -/
theorem BitmapOk.removeThread (h : BitmapOk M k) (hM : M ≤ 256) (hmask : MaskOk M (k.thread t))
    (honly : ∀ p, t ∈ k.priorityTable p → p = (k.thread t).currentPriority) :
    BitmapOk M (k.rtScheduleRemoveThread M t) := by
  have hlist : ∀ p, p ≠ (k.thread t).currentPriority →
      (k.rtScheduleRemoveThread M t).priorityTable p = k.priorityTable p := by
    intro p hp
    rw [rtScheduleRemoveThread_priorityTable]
    exact erase_of_not_mem fun hm => hp (honly p hm)
  have hself : (k.rtScheduleRemoveThread M t).priorityTable (k.thread t).currentPriority =
      (k.priorityTable (k.thread t).currentPriority).erase t :=
    rtScheduleRemoveThread_priorityTable ..
  have hkeep : ¬ (k.priorityTable (k.thread t).currentPriority).erase t = [] →
      k.priorityTable (k.thread t).currentPriority ≠ [] := fun he h0 => he (by rw [h0]; rfl)
  refine ⟨fun hs p hp => ?_, fun hb p hp => ?_, fun hb n hn => ?_⟩
  · rw [rtScheduleRemoveThread_readyPriorityGroup, hmask.single hs]
    have hcond : (32 < M → k.readyTable (k.thread t).number &&& ~~~(k.thread t).highMask = 0) :=
      fun hb => absurd hb (by omega)
    by_cases hc : p = (k.thread t).currentPriority
    · subst hc
      rw [hself]
      by_cases he : (k.priorityTable (k.thread t).currentPriority).erase t = []
      · rw [if_pos ⟨he, hcond⟩]
        simp [he]
      · rw [if_neg (fun h' => he h'.1), h.single hs _ hp]
        exact iff_of_true (hkeep he) he
    · rw [hlist p hc, ← h.single hs p hp]
      split_ifs
      · rw [getLsbD_and_not_one_shiftLeft _ _ hp]
        simp [hc]
      · rfl
  · rw [rtScheduleRemoveThread_readyTable _ _ _ hb, hmask.number hb, hmask.highMask hb]
    have h8 : p % 8 < 8 := Nat.mod_lt _ (by omega)
    by_cases hc : p = (k.thread t).currentPriority
    · subst hc
      rw [hself]
      by_cases he : (k.priorityTable (k.thread t).currentPriority).erase t = []
      · simp [he]
      · rw [if_neg (fun h' => he h'.1), h.table hb _ hp]
        exact iff_of_true (hkeep he) he
    · rw [hlist p hc, ← h.table hb p hp]
      split_ifs with he
      · rw [getLsbD_and_not_one_shiftLeft _ _ h8]
        have : p % 8 ≠ (k.thread t).currentPriority % 8 := by omega
        simp [this]
      · rfl
  · rw [rtScheduleRemoveThread_readyTable _ _ _ hb, rtScheduleRemoveThread_readyPriorityGroup,
      hmask.number hb, hmask.numberMask hb]
    by_cases hc : n = (k.thread t).currentPriority / 8
    · subst hc
      by_cases he : (k.priorityTable (k.thread t).currentPriority).erase t = []
      · by_cases hz : k.readyTable ((k.thread t).currentPriority / 8) &&&
            ~~~(k.thread t).highMask = 0
        · rw [if_pos ⟨he, fun _ => hz⟩, if_pos ⟨he, rfl⟩]
          simp [hz]
        · rw [if_neg (fun h' => hz (h'.2 hb)), if_pos ⟨he, rfl⟩, h.group hb _ hn]
          exact iff_of_true (fun h0 => hz (by rw [h0]; simp)) hz
      · rw [if_neg (fun h' => he h'.1), if_neg (fun h' => he h'.1), h.group hb _ hn]
    · rw [if_neg (fun h' => hc h'.2 : ¬ (_ ∧ n = _)), ← h.group hb n hn]
      split_ifs
      · rw [getLsbD_and_not_one_shiftLeft _ _ hn]
        simp [hc]
      · rfl

/-! ## The two queue operations -/

theorem queued_init (mem : Tid → Thread) : Queued (rtSystemSchedulerInit mem : Kernel Q) ∅ where
  mem := by simp [rtSystemSchedulerInit]
  nodup := by simp [rtSystemSchedulerInit]

theorem bitmapOk_init (mem : Tid → Thread) : BitmapOk M (rtSystemSchedulerInit mem : Kernel Q) := by
  constructor <;> simp [rtSystemSchedulerInit]

variable (h : Queued k R)
include h

/-- A thread that is not queued is in no ready list. -/
theorem Queued.notMem (ht : t ∉ R) (p : ℕ) : t ∉ k.priorityTable p :=
  fun hm => ht ((h.mem p t).mp hm).1

/-- Unlinking a thread that is not queued leaves the ready lists alone. -/
theorem Queued.listRemove_priorityTable (ht : t ∉ R) :
    (k.listRemove t).priorityTable = k.priorityTable := by
  funext p
  exact erase_of_not_mem (h.notMem ht p)

/-- The queue depends on the ready lists and the current priorities of `R`. -/
theorem Queued.congr (h1 : k'.priorityTable = k.priorityTable)
    (h2 : ∀ t ∈ R, (k'.thread t).currentPriority = (k.thread t).currentPriority) : Queued k' R where
  mem p t := by
    rw [h1, h.mem]
    exact and_congr_right fun hR => by rw [h2 t hR]
  nodup := by rw [h1]; exact h.nodup

theorem Queued.insertThread (ht : t ∉ R) : Queued (k.rtScheduleInsertThread M t) (insert t R) where
  mem p u := by
    rw [rtScheduleInsertThread_priorityTable]
    by_cases hp : p = (k.thread t).currentPriority
    · subst hp
      rw [update_self, mem_append, h.mem]
      by_cases hu : u = t
      · subst hu; simp
      · simp [hu]
    · rw [update_of_ne hp, h.mem]
      by_cases hu : u = t
      · subst hu; simp [ht, Ne.symm hp]
      · simp [hu]
  nodup p := by
    rw [rtScheduleInsertThread_priorityTable]
    by_cases hp : p = (k.thread t).currentPriority
    · subst hp
      rw [update_self, nodup_append]
      refine ⟨h.nodup _, nodup_singleton t, fun a ha b hb => ?_⟩
      rw [mem_singleton.mp hb]
      rintro rfl
      exact h.notMem ht _ ha
    · rw [update_of_ne hp]; exact h.nodup p

theorem Queued.removeThread : Queued (k.rtScheduleRemoveThread M t) (R \ {t}) where
  mem p u := by
    rw [rtScheduleRemoveThread_priorityTable, rtScheduleRemoveThread_thread,
      (h.nodup p).mem_erase_iff, h.mem, Set.mem_sdiff]
    tauto
  nodup p := by
    rw [rtScheduleRemoveThread_priorityTable]; exact (h.nodup p).erase t

end Kernel

end RtThread
