import RtThread.Lib.CircularList

/-!
# Block devices of memory cards

`rt_mmcsd_blk_remove` (`components/drivers/sdio/block_dev.c`, line 452). The list `blk_devices`
is a ring of the devices and its root. The loop saves the successor of the first device before
its first round, and never again.

`rt_mmcsd_blk_probe` (line 324) looks for up to 16 partitions with `dfs_filesystem_get_partition`
(`components/dfs/src/dfs_fs.c`, line 158). The table in the sector has four entries.
-/

namespace RtThread

open CircularList Nat Function Finset Option

/-- The devices `ι` of cards `κ`: the links of `blk_devices`, and which devices are registered and
freed. -/
structure BlkDevices (ι κ : Type) where
  next : ι → ι
  prev : ι → ι
  card : ι → κ
  registered : Finset ι
  freed : Finset ι

namespace BlkDevices

variable {ι κ : Type} [DecidableEq ι] [DecidableEq κ]

/-- `rt_list_remove`. -/
def rtListRemove (s : BlkDevices ι κ) (n : ι) : BlkDevices ι κ :=
  { s with
    next := update (update s.next (s.prev n) (s.next n)) n n
    prev := update (update s.prev (s.next n) (s.prev n)) n n }

/-- One round of the loop; unmounting the file system of the device is left out. No device may be
used that is freed. -/
def removeRound (card : κ) (s : BlkDevices ι κ) (l : ι) : Option (BlkDevices ι κ) :=
  if l ∈ s.freed then none
  else if s.card l = card then
    some { s.rtListRemove l with
      registered := s.registered.erase l
      freed := insert l s.freed }
  else some s

/-- `l = n` ends each round; without a result after so many of them. -/
def removeLoop (card : κ) (root n : ι) : ℕ → ι → BlkDevices ι κ → Option (BlkDevices ι κ)
  | 0, _, _ => none
  | rounds + 1, l, s =>
    if l = root then some s else (removeRound card s l).bind (removeLoop card root n rounds n)

def rtMmcsdBlkRemove (s : BlkDevices ι κ) (rounds : ℕ) (root : ι) (card : κ) :
    Option (BlkDevices ι κ) :=
  removeLoop card root (s.next (s.next root)) rounds (s.next root) s

variable {s : BlkDevices ι κ} {card : κ} {root n d : ι} {l : List ι}

/-- From the second device on the loop stays where it is. -/
theorem removeLoop_self (hn : n ≠ root) (rounds : ℕ) :
    removeLoop card root n rounds n s = none := by
  induction rounds generalizing s with
  | zero => rfl
  | succ rounds ih =>
    rw [removeLoop, if_neg hn]
    exact bind_eq_none_iff.mpr fun s' _ => ih

/-- `s'` is `s` without the devices of the card. -/
structure Removed (s : BlkDevices ι κ) (root : ι) (l : List ι) (card : κ) (s' : BlkDevices ι κ) :
    Prop where
  ring : IsRing s'.next s'.prev root (l.filter (s.card · ≠ card))
  registered : s'.registered = s.registered \ (l.filter (s.card · = card)).toFinset
  freed : s'.freed = s.freed ∪ (l.filter (s.card · = card)).toFinset

/-- The only device. -/
theorem removeRound_single (h : IsRing s.next s.prev root [d]) (hlive : d ∉ s.freed) (card : κ) :
    ∃ s', removeRound card s d = some s' ∧ s.Removed root [d] card s' := by
  rw [removeRound, if_neg hlive]
  split_ifs with hcard
  · refine ⟨_, rfl, ?_, ?_, ?_⟩
    · have hne : root ≠ d := fun heq => by simpa [heq] using h.nodup
      have hnil : [d].filter (s.card · ≠ card) = [] ++ [] := by simp [hcard]
      rw [hnil]
      refine IsRing.unlink (x := d) h (fun o ho => ?_) fun o ho => ?_
      all_goals
        obtain rfl : o = root := by simpa using ho
        simp [rtListRemove, hne, update_apply]
    · simp [hcard, sdiff_singleton_eq_erase]
    · simp [hcard]
  · exact ⟨s, rfl, by simpa [hcard] using h, by simp [hcard], by simp [hcard]⟩

/-- `rt_mmcsd_blk_remove` ends, and removes exactly the devices of the card without using one that
is freed, just if there is at most one device in the list. -/
theorem blk_remove_exact_iff (h : IsRing s.next s.prev root l) (hlive : ∀ d ∈ l, d ∉ s.freed)
    (card : κ) :
    (∃ rounds s', s.rtMmcsdBlkRemove rounds root card = some s' ∧ s.Removed root l card s') ↔
      l.length ≤ 1 := by
  have hhead := h.head
  unfold rtMmcsdBlkRemove
  cases l with
  | nil =>
    have hnext : s.next root = root := by simpa using hhead.symm
    rw [hnext]
    exact iff_of_true ⟨1, s, if_pos rfl, by simpa using h, by simp, by simp⟩ (zero_le 1)
  | cons d l =>
    have hfirst : s.next root = d := by simpa using hhead.symm
    have hring : IsRing s.next s.prev root ([] ++ d :: l) := h
    have hsecond := hring.split.1
    have hnodup := h.nodup
    rw [hfirst]
    cases l with
    | nil =>
      have hnext : s.next d = root := by simpa using hsecond.symm
      have hd : d ≠ root := fun heq => by simp [heq] at hnodup
      obtain ⟨s', hround, hremoved⟩ := removeRound_single h (hlive d (by simp)) card
      refine iff_of_true ⟨2, s', ?_, hremoved⟩ le_rfl
      rw [hnext, removeLoop, if_neg hd, hround, bind_some, removeLoop, if_pos rfl]
    | cons e l =>
      have hnext : s.next d = e := by simpa using hsecond.symm
      have hd : d ≠ root := fun heq => by simp [heq] at hnodup
      have he : e ≠ root := fun heq => by simp [heq] at hnodup
      refine iff_of_false ?_ (by simp)
      rintro ⟨rounds, s', hloop, -⟩
      cases rounds with
      | zero => cases hloop
      | succ rounds =>
        rw [hnext, removeLoop, if_neg hd] at hloop
        obtain ⟨s₁, -, hrest⟩ := bind_eq_some_iff.mp hloop
        rw [removeLoop_self he] at hrest
        cases hrest

/-- The root 0 and devices from 1 on, in a ring of `n`; device `i` is of card `i`. -/
def sampleDevices (n : ℕ) : BlkDevices (Fin (n + 1)) ℕ :=
  ⟨(· + 1), (· - 1), (·.val), univ.erase 0, ∅⟩

theorem blk_remove_exact_sample :
    ∃ rounds s', (sampleDevices 1).rtMmcsdBlkRemove rounds 0 1 = some s' ∧
      (sampleDevices 1).Removed 0 [1] 1 s' :=
  (blk_remove_exact_iff ⟨by decide, by decide⟩ (by simp [sampleDevices]) 1).mpr le_rfl

/-- With two devices the loop does not end, whatever their cards are. -/
theorem blk_remove_stays :
    IsRing (sampleDevices 2).next (sampleDevices 2).prev 0 [1, 2] ∧
      ∀ rounds card, (sampleDevices 2).rtMmcsdBlkRemove rounds 0 card = none := by
  refine ⟨⟨by decide, by decide⟩, fun rounds card => ?_⟩
  cases rounds with
  | zero => rfl
  | succ rounds => exact bind_eq_none_iff.mpr fun s' _ => removeLoop_self (by decide) rounds

end BlkDevices

/-! ## Partitions -/

namespace Mmcsd

/-- `struct dfs_partition`, without its semaphore. -/
structure DfsPartition where
  type : BitVec 8
  offset : BitVec 32
  size : BitVec 32
  deriving DecidableEq

/-- A read of the buffer, which has `SECTOR_SIZE` bytes. -/
def readSector (buf : ℕ → BitVec 8) (i : ℕ) : Option (BitVec 8) :=
  if i < 512 then some (buf i) else none

/-- Four bytes, the lowest first. -/
def word (buf : ℕ → BitVec 8) (i : ℕ) : BitVec 32 :=
  buf (i + 3) ++ buf (i + 2) ++ buf (i + 1) ++ buf i

def readWord (buf : ℕ → BitVec 8) (i : ℕ) : Option (BitVec 32) :=
  if i + 3 < 512 then some (word buf i) else none

/-- `dfs_filesystem_get_partition`; it has no result if it reads outside of the buffer. -/
def dfsFilesystemGetPartition (buf : ℕ → BitVec 8) (pindex : ℕ) : Option (Option DfsPartition) := do
  let dpt := 0x1be + pindex * 16
  let flag ← readSector buf dpt
  if flag ≠ 0x80#8 ∧ flag ≠ 0x00#8 then return none
  let type ← readSector buf (dpt + 4)
  if type = 0#8 then return none
  return some ⟨type, ← readWord buf (dpt + 8), ← readWord buf (dpt + 12)⟩

/-- The loop of `rt_mmcsd_blk_probe`, with `calloc i` if there is memory for device `i`: the devices
that it registers, with no partition for the whole card. -/
def probeLoop (calloc : ℕ → Bool) (buf : ℕ → BitVec 8) :
    (rounds i : ℕ) → Option (List (ℕ × Option DfsPartition))
  | 0, _ => some []
  | rounds + 1, i =>
    if calloc i then
      match dfsFilesystemGetPartition buf i with
      | none => none
      | some (some part) => (probeLoop calloc buf rounds (i + 1)).map ((i, some part) :: ·)
      -- there is no partition table
      | some none => some (if i = 0 then [(0, none)] else [])
    else some []

/-- The part of `rt_mmcsd_blk_probe` that looks at sector 0; `RT_MMCSD_MAX_PARTITION` is 16. -/
def rtMmcsdBlkProbe (calloc : ℕ → Bool) (buf : ℕ → BitVec 8) :
    Option (List (ℕ × Option DfsPartition)) :=
  probeLoop calloc buf 16 0

/-- Entry `i` of the partition table, if it is valid. -/
def entry (buf : ℕ → BitVec 8) (i : ℕ) : Option DfsPartition :=
  let dpt := 0x1be + i * 16
  if buf dpt ≠ 0x80#8 ∧ buf dpt ≠ 0x00#8 ∨ buf (dpt + 4) = 0#8 then none
  else some ⟨buf (dpt + 4), word buf (dpt + 8), word buf (dpt + 12)⟩

/-- The valid entries from entry `i` on, up to the first one that is not. -/
def entries (buf : ℕ → BitVec 8) : (n i : ℕ) → List (ℕ × Option DfsPartition)
  | 0, _ => []
  | n + 1, i =>
    match entry buf i with
    | some part => (i, some part) :: entries buf n (i + 1)
    | none => []

variable {buf : ℕ → BitVec 8} {calloc : ℕ → Bool}

theorem getPartition_eq {i : ℕ} (hi : i < 4) :
    dfsFilesystemGetPartition buf i = some (entry buf i) := by
  unfold dfsFilesystemGetPartition entry readSector readWord
  dsimp only
  rw [if_pos (by omega), if_pos (by omega), if_pos (by omega), if_pos (by omega)]
  by_cases hflag : buf (0x1be + i * 16) ≠ 0x80#8 ∧ buf (0x1be + i * 16) ≠ 0x00#8
  · rw [if_pos (.inl hflag)]
    exact if_pos hflag
  · by_cases htype : buf (0x1be + i * 16 + 4) = 0#8
    · rw [if_pos (.inr htype)]
      exact (if_neg hflag).trans (if_pos htype)
    · rw [if_neg (not_or.mpr ⟨hflag, htype⟩)]
      exact (if_neg hflag).trans (if_neg htype)

/-- Behind the table there are two bytes only. -/
theorem getPartition_four :
    dfsFilesystemGetPartition buf 4 =
      if buf 510 ≠ 0x80#8 ∧ buf 510 ≠ 0x00#8 then some none else none := by
  by_cases hflag : buf 510 ≠ 0x80#8 ∧ buf 510 ≠ 0x00#8
  · rw [if_pos hflag]
    exact if_pos hflag
  · rw [if_neg hflag]
    exact if_neg hflag

/-- The loop from entry `i` on, with `n` entries left. -/
theorem probeLoop_iff {n i : ℕ} (hi : 0 < i) (h4 : n + i = 4) (rounds : ℕ) :
    probeLoop calloc buf (rounds + n + 1) i = some (entries buf n i) ↔
      (∀ d ∈ entries buf n i, calloc d.1) ∧
        ((entries buf n i).length = n → calloc 4 → buf 510 ≠ 0x80#8 ∧ buf 510 ≠ 0x00#8) := by
  induction n generalizing i with
  | zero =>
    obtain rfl : i = 4 := by omega
    rw [probeLoop, getPartition_four]
    by_cases hc : calloc 4
    · by_cases hflag : buf 510 ≠ 0x80#8 ∧ buf 510 ≠ 0x00#8
      · simp [entries, hc, hflag]
      · rw [if_neg hflag]
        simp [entries, hc, hflag]
    · simp [entries, hc]
  | succ n ih =>
    have ih' := ih (i := i + 1) (by omega) (by omega)
    rw [← add_assoc, probeLoop, getPartition_eq (by omega), entries]
    cases hentry : entry buf i with
    | none => simp [ne_of_gt hi]
    | some part =>
      by_cases hc : calloc i
      · simp [hc, ih']
      · simp [hc]

/-- `rt_mmcsd_blk_probe` reads inside of the sector, and registers a device for each valid entry up
to the first one that is not, or one for the whole card, iff there is memory for these devices, and
it does not look for a type behind four valid entries. -/
theorem blk_probe_iff (calloc : ℕ → Bool) (buf : ℕ → BitVec 8) :
    rtMmcsdBlkProbe calloc buf =
        some (if (entry buf 0).isSome then entries buf 4 0 else [(0, none)]) ↔
      calloc 0 ∧ (∀ d ∈ entries buf 4 0, calloc d.1) ∧
      ((entries buf 4 0).length = 4 → calloc 4 → buf 510 ≠ 0x80#8 ∧ buf 510 ≠ 0x00#8) := by
  rw [rtMmcsdBlkProbe, probeLoop, getPartition_eq (by omega), entries]
  cases hentry : entry buf 0 with
  | none => by_cases hc : calloc 0 <;> simp [hc]
  | some part =>
    have hloop : probeLoop calloc buf 15 1 = some (entries buf 3 1) ↔ _ :=
      probeLoop_iff one_pos rfl 11
    by_cases hc : calloc 0
    · simp [hc, hloop]
    · simp [hc]

/-- Four partitions of type 1, and zeros behind them. -/
def sampleSector (i : ℕ) : BitVec 8 := if i % 16 = 2 then 1 else 0

/-- The type of a fifth partition would be byte 514. -/
theorem probe_reads_behind :
    (entries sampleSector 4 0).length = 4 ∧
      rtMmcsdBlkProbe (fun _ => true) sampleSector = none := by
  decide

end Mmcsd

end RtThread
