import RtThread.Kernel.Scheduler

/-!
# Which thread the scheduler selects

`rt_schedule` and `rt_system_scheduler_start` find the highest ready priority in the
bitmap: in one word for up to 32 priority levels, in a group word and a byte of the
ready table for more. `linearSearch` says what they look for.

* `rtFfs_spec`: `__rt_ffs` finds the lowest bit that is set.
* `highestReadyPriority_spec`: the level found is the first whose list is not empty.
* `schedule_selects_least`: the search in the bitmap refines the linear search, and the
  head of the list found is left running.
-/

namespace RtThread

open BitVec Nat List

/-! ## `__rt_ffs` -/

/-- The table gives the lowest bit that is set in a byte. -/
theorem lowestBitBitmap_spec : ∀ x < 256, x ≠ 0 →
    lowestBitBitmap.getD x 0 < 8 ∧ x.testBit (lowestBitBitmap.getD x 0) = true ∧
      ∀ m < lowestBitBitmap.getD x 0, x.testBit m = false := by
  set_option maxRecDepth 2048 in
  decide

/-- A byte of a word, in its place. -/
theorem and_byte_mask (n s : ℕ) : n &&& 255 <<< s = (n >>> s % 256) <<< s := by
  refine eq_of_testBit_eq fun i => ?_
  rw [testBit_and, testBit_shiftLeft, testBit_shiftLeft,
    show (256 : ℕ) = 2 ^ 8 from rfl, show (255 : ℕ) = 2 ^ 8 - 1 from rfl,
    testBit_two_pow_sub_one, testBit_mod_two_pow]
  by_cases hi : s ≤ i
  · simp [hi, Bool.and_comm]
  · simp [hi]

theorem toNat_and_mask {v m : BitVec 32} {s : ℕ} (hm : m.toNat = 255 <<< s) :
    (v &&& m = 0 ↔ v.toNat >>> s % 256 = 0) ∧ ((v &&& m) >>> s).toNat = v.toNat >>> s % 256 := by
  have hand : (v &&& m).toNat = (v.toNat >>> s % 256) <<< s := by
    rw [toNat_and, hm, and_byte_mask]
  constructor
  · rw [← toNat_inj, hand]
    simp [Nat.shiftLeft_eq]
  · rw [toNat_ushiftRight, hand, shiftLeft_shiftRight]

variable {v : BitVec 32}

/-- `__rt_ffs` looks at the lowest byte that is not zero. -/
theorem rtFfs_eq (hv : v ≠ 0) :
    ∃ s, v.toNat % 2 ^ s = 0 ∧ v.toNat >>> s % 256 ≠ 0 ∧
      rtFfs v = s + lowestBitBitmap.getD (v.toNat >>> s % 256) 0 + 1 := by
  obtain ⟨h₀, hb₀⟩ := toNat_and_mask (v := v) (m := 0xff#32) (s := 0) rfl
  obtain ⟨h₁, hb₁⟩ := toNat_and_mask (v := v) (m := 0xff00#32) (s := 8) rfl
  obtain ⟨h₂, hb₂⟩ := toNat_and_mask (v := v) (m := 0xff0000#32) (s := 16) rfl
  obtain ⟨h₃, hb₃⟩ := toNat_and_mask (v := v) (m := 0xff000000#32) (s := 24) rfl
  have hne : v.toNat ≠ 0 := fun h => hv (eq_of_toNat_eq h)
  unfold rtFfs
  rw [if_neg hv, hb₁, hb₂, hb₃]
  by_cases hc₀ : v &&& 0xff#32 ≠ 0
  · rw [if_pos hc₀]
    refine ⟨0, by simp [mod_one], mt h₀.mpr hc₀, ?_⟩
    rw [← hb₀]
    simp
  rw [if_neg hc₀]
  have hz₀ := h₀.mp (not_not.mp hc₀)
  by_cases hc₁ : v &&& 0xff00#32 ≠ 0
  · rw [if_pos hc₁]
    exact ⟨8, by omega, mt h₁.mpr hc₁, by omega⟩
  rw [if_neg hc₁]
  have hz₁ := h₁.mp (not_not.mp hc₁)
  by_cases hc₂ : v &&& 0xff0000#32 ≠ 0
  · rw [if_pos hc₂]
    exact ⟨16, by omega, mt h₂.mpr hc₂, by omega⟩
  rw [if_neg hc₂]
  have hz₂ := h₂.mp (not_not.mp hc₂)
  exact ⟨24, by omega, by omega, by omega⟩

/-- `__rt_ffs` finds the lowest bit that is set, counted from 1. -/
theorem rtFfs_spec (hv : v ≠ 0) :
    ∃ n, rtFfs v = n + 1 ∧ v.getLsbD n = true ∧ ∀ m < n, v.getLsbD m = false := by
  obtain ⟨s, hlow, hbyte, heq⟩ := rtFfs_eq hv
  obtain ⟨hlt, hset, hclear⟩ := lowestBitBitmap_spec _ (mod_lt _ (by decide)) hbyte
  set j := lowestBitBitmap.getD (v.toNat >>> s % 256) 0
  have hbit : ∀ i < 8, (v.toNat >>> s % 256).testBit i = v.getLsbD (s + i) := fun i hi => by
    rw [show (256 : ℕ) = 2 ^ 8 from rfl, testBit_mod_two_pow]
    simp [hi, getLsbD]
  refine ⟨s + j, heq, by rw [← hbit j hlt, hset], fun m hm => ?_⟩
  by_cases hms : m < s
  · have hmod : (v.toNat % 2 ^ s).testBit m = v.getLsbD m := by
      simp [hms, getLsbD]
    rw [← hmod, hlow, zero_testBit]
  · obtain ⟨i, rfl⟩ := Nat.exists_eq_add_of_le (not_lt.mp hms)
    rw [← hbit i (by omega)]
    exact hclear i (by omega)

namespace Kernel

variable {Q : Type} {M : ℕ} {k : Kernel Q}

/-! ## The highest ready priority -/

/-- The first level whose list is not empty, found by looking at one after another. -/
def linearSearch (M : ℕ) (k : Kernel Q) : Option ℕ :=
  (range M).find? fun p => k.priorityTable p ≠ []

/-- With one word: bit `p` is level `p`. -/
theorem highestReadyPriority_single (hM : M ≤ 32) (h : BitmapOk M k)
    (hne : ∃ p < M, k.priorityTable p ≠ []) :
    k.priorityTable (k.highestReadyPriority M) ≠ [] ∧
      ∀ p < k.highestReadyPriority M, k.priorityTable p = [] := by
  obtain ⟨p, hp, hlist⟩ := hne
  have hgroup : k.readyPriorityGroup ≠ 0 := by
    intro h0
    have hbit := (h.single hM p (by omega)).mpr hlist
    rw [h0] at hbit
    simp at hbit
  obtain ⟨n, heq, hset, hclear⟩ := rtFfs_spec hgroup
  have hn : n < 32 := lt_of_getLsbD hset
  have hhigh : k.highestReadyPriority M = n := by
    rw [highestReadyPriority, if_pos hM, heq, Nat.add_sub_cancel]
  rw [hhigh]
  refine ⟨(h.single hM n hn).mp hset, fun p hp => ?_⟩
  by_contra hlist
  have hbit := (h.single hM p (by omega)).mpr hlist
  rw [hclear p hp] at hbit
  cases hbit

/-- With two levels: the byte `p / 8` of the ready table has a bit for level `p`. -/
theorem highestReadyPriority_double (hM : 32 < M) (hM' : M ≤ 256) (h : BitmapOk M k)
    (hne : ∃ p < M, k.priorityTable p ≠ []) :
    k.priorityTable (k.highestReadyPriority M) ≠ [] ∧
      ∀ p < k.highestReadyPriority M, k.priorityTable p = [] := by
  obtain ⟨p, hp, hlist⟩ := hne
  have hbyte : k.readyTable (p / 8) ≠ 0 :=
    (byte_ne_zero_iff _).mpr ⟨p % 8, by omega, (h.table hM p (by omega)).mpr hlist⟩
  have hgroup : k.readyPriorityGroup ≠ 0 := by
    intro h0
    have hbit := (h.group hM (p / 8) (by omega)).mpr hbyte
    rw [h0] at hbit
    simp at hbit
  obtain ⟨n, heq, hset, hclear⟩ := rtFfs_spec hgroup
  have hn : n < 32 := lt_of_getLsbD hset
  have htable : (k.readyTable n).setWidth 32 ≠ 0 := by
    obtain ⟨j, hj, hbit⟩ := (byte_ne_zero_iff _).mp ((h.group hM n hn).mp hset)
    intro h0
    have hbit' : ((k.readyTable n).setWidth 32).getLsbD j = true := by
      rw [getLsbD_setWidth, hbit]
      simp
      omega
    rw [h0] at hbit'
    simp at hbit'
  obtain ⟨j, heq', hset', hclear'⟩ := rtFfs_spec htable
  have hwidth : ∀ i < 32, ((k.readyTable n).setWidth 32).getLsbD i = (k.readyTable n).getLsbD i :=
    fun i hi => by simp [hi]
  have hj32 : j < 32 := lt_of_getLsbD hset'
  rw [hwidth j hj32] at hset'
  have hj : j < 8 := lt_of_getLsbD hset'
  have hhigh : k.highestReadyPriority M = n * 8 + j := by
    rw [highestReadyPriority, if_neg (by omega)]
    dsimp only
    rw [heq, Nat.add_sub_cancel]
    omega
  have hdiv : (n * 8 + j) / 8 = n := by omega
  have hmod : (n * 8 + j) % 8 = j := by omega
  rw [hhigh]
  refine ⟨(h.table hM _ (by omega)).mp (by rw [hdiv, hmod, hset']), fun p hp => ?_⟩
  by_contra hlist
  have hbit := (h.table hM p (by omega)).mpr hlist
  by_cases hpn : p / 8 = n
  · rw [hpn, ← hwidth _ (by omega), hclear' _ (by omega)] at hbit
    cases hbit
  · have hbyte := (byte_ne_zero_iff _).mpr ⟨p % 8, by omega, hbit⟩
    have hgbit := (h.group hM (p / 8) (by omega)).mpr hbyte
    rw [hclear _ (by omega)] at hgbit
    cases hgbit

/-- The level found in the bitmap is the first whose list is not empty. -/
theorem highestReadyPriority_spec (hM : M ≤ 256) (h : BitmapOk M k)
    (hne : ∃ p < M, k.priorityTable p ≠ []) :
    k.priorityTable (k.highestReadyPriority M) ≠ [] ∧
      ∀ p < k.highestReadyPriority M, k.priorityTable p = [] := by
  by_cases hs : M ≤ 32
  · exact highestReadyPriority_single hs h hne
  · exact highestReadyPriority_double (by omega) hM h hne

/-! ## The thread that runs -/

theorem rtSchedule_currentThread {t : Tid} (hlock : k.schedulerLockNest = 0)
    (ht : (k.priorityTable (k.highestReadyPriority M)).head? = some t) :
    (k.rtSchedule M).currentThread = some t := by
  rw [rtSchedule, ht]
  dsimp only
  split_ifs with hcur
  · exact hcur
  · rfl

/-- For up to 256 priority levels and a bitmap that agrees with the lists, the level found through
`__rt_ffs` is that of the linear search, the smallest one with a thread ready, and the head of its
list is left running. -/
theorem schedule_selects_least (hM : M ≤ 256) (h : BitmapOk M k)
    (hne : ∃ p < M, k.priorityTable p ≠ []) :
    k.linearSearch M = some (k.highestReadyPriority M) ∧
    IsLeast {p | k.priorityTable p ≠ []} (k.highestReadyPriority M) ∧
    ∃ t, (k.priorityTable (k.highestReadyPriority M)).head? = some t ∧
      (k.rtSystemSchedulerStart M).currentThread = some t ∧
      (k.schedulerLockNest = 0 → (k.rtSchedule M).currentThread = some t) := by
  obtain ⟨hlist, hempty⟩ := highestReadyPriority_spec hM h hne
  have hle : ∀ p, k.priorityTable p ≠ [] → k.highestReadyPriority M ≤ p := fun p hp =>
    not_lt.mp fun hlt => hp (hempty p hlt)
  refine ⟨?_, ⟨hlist, hle⟩, ?_⟩
  · obtain ⟨p, hp, hpl⟩ := hne
    have hlt : k.highestReadyPriority M < M := (hle p hpl).trans_lt hp
    refine find?_range_eq_some.mpr ⟨by simpa using hlist, by simpa using hlt, fun p hp => ?_⟩
    simp [hempty p hp]
  · obtain ⟨t, rest, hcons⟩ := exists_cons_of_ne_nil hlist
    have ht : (k.priorityTable (k.highestReadyPriority M)).head? = some t := by rw [hcons]; rfl
    refine ⟨t, ht, ?_, fun hlock => rtSchedule_currentThread hlock ht⟩
    rw [rtSystemSchedulerStart, ht]

/-- A thread object with the masks of its priority, for 256 levels. -/
def sampleThread (priority : ℕ) : Thread where
  stat := .init
  currentPriority := priority
  initPriority := priority
  number := priority / 8
  highMask := 1#8 <<< (priority % 8)
  numberMask := 1#32 <<< (priority / 8)
  error := .eok
  eventSet := 0
  eventInfo := 0
  timerLinked := false
  cleanup := false
  systemObject := false

/-- Thread 0 has priority 200, thread 1 priority 77. Both are ready. -/
def sampleReady : Kernel Empty :=
  ((rtSystemSchedulerInit fun t => sampleThread (if t = 0 then 200 else 77)
    ).rtScheduleInsertThread 256 0).rtScheduleInsertThread 256 1

theorem sampleReady_bitmapOk : BitmapOk 256 sampleReady := by
  have hmask : ∀ p < 256, MaskOk 256 (sampleThread p) := fun p hp =>
    ⟨hp, fun h => absurd h (by decide), fun _ => rfl, fun _ => rfl, fun _ => rfl⟩
  exact ((bitmapOk_init _).insertThread (hmask 200 (by decide))).insertThread
    ((hmask 77 (by decide)).congr rfl rfl rfl rfl)

theorem schedule_selects_least_sample :
    sampleReady.highestReadyPriority 256 = 77 ∧
      sampleReady.linearSearch 256 = some (sampleReady.highestReadyPriority 256) :=
  ⟨by decide,
    (schedule_selects_least (by decide) sampleReady_bitmapOk ⟨77, by decide, by decide⟩).1⟩

end Kernel

end RtThread
