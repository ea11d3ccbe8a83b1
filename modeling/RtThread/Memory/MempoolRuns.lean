import RtThread.Memory.Mempool

/-!
# Memory pools keep their blocks

`BlocksOk s F`: the blocks `F` are linked from `block_list`, and they and the
blocks that clients hold are the blocks of the pool, each once. `WaitsOk e s`:
`suspend_thread_count` is the number of threads in the wait list, plus `e`.

* `block_conservation`: the blocks are conserved, in every state a run reaches.
* `waiter_count_iff`: `suspend_thread_count` is the length of the wait list as long
  as no wait has timed out: `rt_thread_timeout` takes the thread off the list, and
  nobody decrements the counter. `free_takes_list_head` is a run in which
  `rt_mp_free` then takes the head of the empty list for a thread.
-/

namespace RtThread

open Runs LinkedList List Function Option Kernel Nat

/-- A pointer; `none` is `RT_NULL`. -/
def ofPtr (p : ℕ) : Option ℕ := if p = 0 then none else some p

theorem ofPtr_of_pos {p : ℕ} (h : 0 < p) : ofPtr p = some p := if_neg h.ne'

namespace Mempool

/-- The blocks of the pool, by the addresses of the words in front of them. -/
def blocks (mp : Mempool) : List ℕ :=
  (range mp.blockTotalCount).map fun i => mp.startAddress + i * (mp.blockSize + sizeofPtr)

/-- The pool is an area of memory. -/
structure Ok (mp : Mempool) : Prop where
  start : 0 < mp.startAddress
  stop : mp.startAddress + mp.blockTotalCount * (mp.blockSize + sizeofPtr) < 2 ^ 32
  aligned : mp.blockSize % 4 = 0

variable {mp : Mempool} {a : ℕ}

theorem mem_blocks : a ∈ mp.blocks ↔
    ∃ i < mp.blockTotalCount, mp.startAddress + i * (mp.blockSize + sizeofPtr) = a := by
  simp [blocks]

theorem nodup_blocks : mp.blocks.Nodup := by
  refine nodup_range.map fun i j hij => ?_
  have heq : i * (mp.blockSize + sizeofPtr) = j * (mp.blockSize + sizeofPtr) :=
    add_left_cancel hij
  exact eq_of_mul_eq_mul_right (by unfold sizeofPtr; omega) heq

theorem Ok.pos (h : mp.Ok) (ha : a ∈ mp.blocks) : 0 < a := by
  obtain ⟨i, -, rfl⟩ := mem_blocks.mp ha
  have := h.start
  omega

/-- The words of a block are not in front of a block. -/
theorem block_ne {b i : ℕ} (ha : a ∈ mp.blocks) (hb : b ∈ mp.blocks) (hi : 4 * i < mp.blockSize) :
    a + sizeofPtr + 4 * i ≠ b := by
  obtain ⟨m, -, rfl⟩ := mem_blocks.mp ha
  obtain ⟨n, -, rfl⟩ := mem_blocks.mp hb
  intro heq
  unfold sizeofPtr at heq
  have hlt : m * (mp.blockSize + 4) < n * (mp.blockSize + 4) := by omega
  have hmn : m + 1 ≤ n := Nat.lt_of_mul_lt_mul_right hlt
  have hle := mul_le_mul_right (mp.blockSize + 4) hmn
  rw [add_mul] at hle
  omega

end Mempool

/-- The `time` of a call under way. -/
def MpCall.time : MpCall → ℤ
  | .suspended time _ => time
  | .retrying time _ => time

namespace MpSys

variable {M : ℕ} {s s' : MpSys} {t : Tid} {F : List ℕ} {p : ℕ} {r : MpResult} {l : List ℕ}

/-! ## The blocks -/

/-- The pointer to a block, for the address of the word in front of it. -/
def ptrs (l : List ℕ) : List ℕ := l.map (· + sizeofPtr)

/-- The free list is `F`, and the other blocks are held by the clients. -/
structure BlocksOk (s : MpSys) (F : List ℕ) : Prop where
  pool : s.mp.Ok
  free : Linked (fun a => ofPtr (s.mem a)) (ofPtr s.mp.blockList) F
  count : s.mp.blockFreeCount = F.length
  perm : (ptrs F ++ s.live).Perm (ptrs s.mp.blocks)
  header : ∀ p ∈ s.live, s.mem (p - sizeofPtr) = s.mpAddr

theorem mem_ptrs {a : ℕ} : a + sizeofPtr ∈ ptrs l ↔ a ∈ l := by
  simp [ptrs]

theorem nodup_ptrs : (ptrs l).Nodup ↔ l.Nodup := nodup_map_iff fun _ _ h => add_right_cancel h

section

variable (h : BlocksOk s F)
include h

theorem BlocksOk.nodup : (ptrs F ++ s.live).Nodup :=
  h.perm.nodup_iff.mpr (nodup_ptrs.mpr Mempool.nodup_blocks)

theorem BlocksOk.mem_blocks {a : ℕ} (ha : a ∈ F) : a ∈ s.mp.blocks :=
  mem_ptrs.mp (h.perm.mem_iff.mp (mem_append_left _ (mem_ptrs.mpr ha)))

/-- A client's pointer is the pointer to a block that is not free. -/
theorem BlocksOk.live (hp : p ∈ s.live) : ∃ a ∈ s.mp.blocks, p = a + sizeofPtr ∧ a ∉ F := by
  have hmem : p ∈ ptrs s.mp.blocks := h.perm.mem_iff.mp (mem_append_right _ hp)
  obtain ⟨a, ha, rfl⟩ := mem_map.mp hmem
  refine ⟨a, ha, rfl, fun haF => ?_⟩
  exact (disjoint_of_nodup_append h.nodup) (mem_ptrs.mpr haF) hp

theorem BlocksOk.congr (hmp : s'.mp = { s.mp with suspendThreadCount := s'.mp.suspendThreadCount })
    (haddr : s'.mpAddr = s.mpAddr) (hmem : s'.mem = s.mem) (hlive : s'.live = s.live) :
    BlocksOk s' F := by
  refine ⟨?_, ?_, ?_, ?_, ?_⟩
  · rw [hmp]
    exact ⟨h.pool.start, h.pool.stop, h.pool.aligned⟩
  · rw [hmem, hmp]
    exact h.free
  · rw [hmp]
    exact h.count
  · rw [hlive, hmp]
    exact h.perm
  · rw [hlive, hmem, haddr]
    exact h.header

/-- Taking the first free block. -/
theorem BlocksOk.take (hs : s.takeBlock = some (r, s')) :
    ∃ a F', F = a :: F' ∧ r = .allocated (a + sizeofPtr) ∧ s'.live = (a + sizeofPtr) :: s.live ∧
      s'.kernel = s.kernel ∧ s'.calls = s.calls ∧ s'.mp.blocks = s.mp.blocks ∧
      s'.mp.suspendThreadCount = s.mp.suspendThreadCount ∧ BlocksOk s' F' := by
  unfold takeBlock at hs
  dsimp only at hs
  split_ifs at hs with hzero
  have hfree := h.free
  rw [ofPtr_of_pos (pos_of_ne_zero hzero)] at hfree
  obtain ⟨F', rfl, hfree'⟩ := hfree.uncons
  cases hs
  set a := s.mp.blockList
  have hnd : a ∉ F' := (nodup_cons.mp (nodup_ptrs.mp h.nodup.of_append_left)).1
  refine ⟨a, F', rfl, rfl, rfl, rfl, rfl, rfl, rfl, ?_, ?_, ?_, ?_, ?_⟩
  · exact ⟨h.pool.start, h.pool.stop, h.pool.aligned⟩
  · refine hfree'.congr fun b hb => ?_
    have hba : b ≠ a := by
      rintro rfl
      exact hnd hb
    simp only [update_of_ne hba]
  · show s.mp.blockFreeCount - 1 = F'.length
    rw [h.count, length_cons, Nat.add_sub_cancel]
  · exact perm_middle.trans h.perm
  · intro p hp
    rcases mem_cons.mp hp with rfl | hp
    · simp only [Nat.add_sub_cancel, update_self]
    · obtain ⟨b, -, rfl, hb⟩ := h.live hp
      have hba : b ≠ a := by
        rintro rfl
        exact hb (by simp)
      have hheader := h.header _ hp
      rw [Nat.add_sub_cancel] at hheader ⊢
      simp only [update_of_ne hba, hheader]

theorem BlocksOk.take_isSome (hcount : s.mp.blockFreeCount ≠ 0) : s.takeBlock.isSome := by
  have hne : s.mp.blockList ≠ 0 := by
    intro hzero
    have hhead := h.free.head
    rw [hzero] at hhead
    rw [h.count, head?_eq_none_iff.mp hhead.symm] at hcount
    exact hcount rfl
  unfold takeBlock
  rw [if_neg hne]
  rfl

variable (hp : p ∈ s.live)
include hp

theorem BlocksOk.length_lt : F.length + 1 < 2 ^ 32 := by
  have hlen := h.perm.length_eq
  have hpos := length_pos_of_mem hp
  have hstop := h.pool.stop
  have hle : s.mp.blockTotalCount * 1 ≤ s.mp.blockTotalCount * (s.mp.blockSize + sizeofPtr) :=
    mul_le_mul_left _ (by unfold sizeofPtr; omega)
  simp only [length_append, ptrs, length_map, Mempool.blocks, length_range] at hlen
  omega

/-- Putting a client's block in front of the free list. -/
theorem BlocksOk.put : BlocksOk (s.putBlock (p - sizeofPtr)) ((p - sizeofPtr) :: F) := by
  have hlt := h.length_lt hp
  obtain ⟨a, ha, rfl, hnF⟩ := h.live hp
  have hnd : s.live.Nodup := h.nodup.of_append_right
  refine ⟨⟨h.pool.start, h.pool.stop, h.pool.aligned⟩, ?_, ?_, ?_, fun p' hp' => ?_⟩
  · refine ⟨ofPtr_of_pos (h.pool.pos ha), ?_⟩
    show Linked (fun b => ofPtr (update s.mem a s.mp.blockList b))
      (ofPtr (update s.mem a s.mp.blockList a)) F
    rw [update_self]
    refine h.free.congr fun b hb => ?_
    have hba : b ≠ a := by
      rintro rfl
      exact hnF hb
    simp only [update_of_ne hba]
  · show (s.mp.blockFreeCount + 1) % 2 ^ 32 = F.length + 1
    rw [h.count, mod_eq_of_lt hlt]
  · have hperm : (ptrs F ++ s.live).Perm
        (ptrs F ++ (a + sizeofPtr) :: s.live.erase (a + sizeofPtr)) :=
      (perm_cons_erase hp).append_left _
    exact (hperm.trans perm_middle).symm.trans h.perm
  · obtain ⟨hne, hp'⟩ := hnd.mem_erase_iff.mp hp'
    obtain ⟨b, -, rfl, -⟩ := h.live hp'
    have hba : b ≠ a := by
      rintro rfl
      exact hne rfl
    have hheader := h.header _ hp'
    rw [Nat.add_sub_cancel] at hheader ⊢
    show update s.mem a s.mp.blockList b = s.mpAddr
    rw [update_of_ne hba, hheader]

/-- A client writes to its block. -/
theorem BlocksOk.store {i v : ℕ} (hi : 4 * i < s.mp.blockSize) :
    BlocksOk { s with mem := update s.mem (p + 4 * i) v } F := by
  obtain ⟨a, ha, rfl, -⟩ := h.live hp
  have hsame : ∀ b ∈ s.mp.blocks, update s.mem (a + sizeofPtr + 4 * i) v b = s.mem b := fun b hb =>
    update_of_ne (Mempool.block_ne ha hb hi).symm ..
  refine ⟨h.pool, h.free.congr fun b hb => ?_, h.count, h.perm, fun p' hp' => ?_⟩
  · simp only [hsame b (h.mem_blocks hb)]
  · obtain ⟨b, hb, rfl, -⟩ := h.live hp'
    have hheader := h.header _ hp'
    rw [← hheader]
    exact hsame b hb

end

/-! ## New pools -/

section Init

variable {mem : ℕ → ℕ} {start blockSize total : ℕ}

variable {i : ℕ}

section

variable (hlt : total * (blockSize + sizeofPtr) < 2 ^ 32)
include hlt

theorem blockAt_inj {j : ℕ} (hi : i ≤ total) (hj : j ≤ total)
    (h : blockAt start blockSize i = blockAt start blockSize j) : i = j := by
  have hi' := mul_le_mul_right (blockSize + sizeofPtr) hi
  have hj' := mul_le_mul_right (blockSize + sizeofPtr) hj
  refine eq_of_mul_eq_mul_right (show 0 < blockSize + sizeofPtr by unfold sizeofPtr; omega) ?_
  unfold blockAt at h
  omega

/-- The loop has linked the blocks below `n`. -/
theorem initBlockLoop_apply (n : ℕ) (hn : n ≤ total) (hi : i < n) :
    initBlockLoop mem start blockSize n (blockAt start blockSize i) =
      blockAt start blockSize (i + 1) := by
  induction n with
  | zero => omega
  | succ n ih =>
    rw [initBlockLoop]
    by_cases hin : i = n
    · rw [hin, update_self]
    · rw [update_of_ne fun h => hin (blockAt_inj hlt (by omega) (by omega) h)]
      exact ih (by omega) (by omega)

end

theorem blockAt_last (htotal : 0 < total) :
    blockAt start blockSize (total + 2 ^ 32 - 1) = blockAt start blockSize (total - 1) := by
  have hsplit : total + 2 ^ 32 - 1 = (total - 1) + 2 ^ 32 := by omega
  unfold blockAt
  rw [hsplit, add_mul, ← add_assoc, add_mul_mod_self_left]

section

variable (hlt : total * (blockSize + sizeofPtr) < 2 ^ 32)
include hlt

theorem initBlocks_apply (hi : i < total) :
    initBlocks mem start blockSize total (blockAt start blockSize i) =
      if i + 1 < total then blockAt start blockSize (i + 1) else 0 := by
  unfold initBlocks
  rw [blockAt_last (by omega)]
  split_ifs with hlast
  · rw [update_of_ne fun h => absurd (blockAt_inj hlt (by omega) (by omega) h) (by omega)]
    exact initBlockLoop_apply hlt total le_rfl hi
  · obtain rfl : i = total - 1 := by omega
    rw [update_self]

/-- The blocks of a new pool are linked one after the other. -/
theorem linked_initBlocks (hpos : ∀ i < total, 0 < blockAt start blockSize i) (htotal : 0 < total)
    (hstart : start < 2 ^ 32) :
    Linked (fun a => ofPtr (initBlocks mem start blockSize total a)) (ofPtr start)
      ((range' 0 total).map (blockAt start blockSize)) := by
  have hzero : blockAt start blockSize 0 = start := by
    rw [blockAt, zero_mul]
    exact mod_eq_of_lt hstart
  have hlinked := linked_range (fun a => ofPtr (initBlocks mem start blockSize total a))
    (f := blockAt start blockSize) (m := total) (fun j hj => ?_) total 0 (zero_add total)
  · rwa [if_pos htotal, ← ofPtr_of_pos (hpos 0 htotal), hzero] at hlinked
  · simp only [initBlocks_apply hlt hj]
    split_ifs with hlast
    · exact ofPtr_of_pos (hpos _ hlast)
    · rfl

end

theorem initBlocks_of_ne {a : ℕ} (ha : ∀ i < total, a ≠ blockAt start blockSize i)
    (hlast : a ≠ blockAt start blockSize (total + 2 ^ 32 - 1)) :
    initBlocks mem start blockSize total a = mem a := by
  rw [initBlocks, update_of_ne hlast]
  clear hlast
  induction total with
  | zero => rfl
  | succ n ih =>
    rw [initBlockLoop, update_of_ne (ha n n.lt_succ_self)]
    exact ih fun i hi => ha i (hi.trans n.lt_succ_self)

theorem blocksOk_new {s : MpSys} {size : ℕ} (hmp : s.mp = newMempool start size blockSize total)
    (hmem : s.mem = initBlocks mem start blockSize total) (hstart : 0 < start)
    (hlt : start + total * (blockSize + sizeofPtr) < 2 ^ 32) (hal : blockSize % 4 = 0)
    (htotal : 0 < total) (hlive : s.live = []) : BlocksOk s s.mp.blocks := by
  have hpool : s.mp.Ok := by
    rw [hmp]
    exact ⟨hstart, hlt, hal⟩
  have hat : ∀ i < total, blockAt start blockSize i = start + i * (blockSize + sizeofPtr) := by
    intro i hi
    have := mul_le_mul_right (blockSize + sizeofPtr) hi.le
    exact mod_eq_of_lt (by omega)
  have hblocks : s.mp.blocks = (range' 0 total).map (blockAt start blockSize) := by
    rw [hmp, ← range_eq_range']
    exact map_congr_left fun i hi => (hat i (mem_range.mp hi)).symm
  refine ⟨hpool, ?_, ?_, ?_, by simp [hlive]⟩
  · rw [hblocks, hmem, hmp]
    refine linked_initBlocks (by omega) (fun i hi => ?_) htotal (by omega)
    rw [hat i hi]
    omega
  · rw [hmp]
    simp [newMempool, Mempool.blocks]
  · rw [hlive, append_nil]

/-- The blocks are in the memory of the pool, also if `block_size + sizeof(rt_uint8_t *)` wraps:
then there are none. -/
theorem blockTotalCount_mul_le (size blockSize : ℕ) :
    rtAlignDown size / add32 (rtAlign blockSize) sizeofPtr * (rtAlign blockSize + sizeofPtr) ≤
      size := by
  by_cases hlt : rtAlign blockSize + sizeofPtr < 2 ^ 32
  · rw [add32_of_lt hlt]
    exact (div_mul_le_self ..).trans (div_mul_le_self ..)
  · have hwrap : add32 (rtAlign blockSize) sizeofPtr = 0 := by
      unfold add32 rtAlign sizeofPtr at *
      omega
    rw [hwrap, Nat.div_zero, Nat.zero_mul]
    exact size.zero_le

/-- `RT_NULL` is not in a list of blocks. -/
theorem ne_zero_of_linked {p : ℕ} {l : List ℕ}
    (h : Linked (fun a => ofPtr (mem a)) (ofPtr p) l) : ∀ a ∈ l, a ≠ 0 := by
  induction l generalizing p with
  | nil => simp
  | cons b l ih =>
    refine forall_mem_cons.mpr ⟨?_, ih h.2⟩
    rintro rfl
    have hb := h.1
    unfold ofPtr at hb
    split_ifs at hb with hp
    exact hp (some.inj hb)

/-- `rt_mp_init` writes words of the memory from `start` on only, and links all blocks of the pool
from `block_list` to `RT_NULL`. -/
def InitOk (start size blockSize : ℕ) : Prop :=
  ∀ mem : ℕ → ℕ, let r := rtMpInit mem start size blockSize
    (∀ a, (∀ i, i + sizeofPtr ≤ size → a ≠ (start + i) % 2 ^ 32) → r.2 a = mem a) ∧
      Linked (fun a => ofPtr (r.2 a)) (ofPtr r.1.blockList)
        ((range' 0 r.1.blockTotalCount).map (blockAt start r.1.blockSize))

/-- This is so if and only if no block is at address 0, and there is a block: without blocks it is
so at address 0 only, where the list is empty, if the word in front of the pool is in it. -/
theorem mp_init_iff {size : ℕ} (hstart : start < 2 ^ 32) (hsize : size < 2 ^ 32) :
    let total := rtAlignDown size / add32 (rtAlign blockSize) sizeofPtr
    InitOk start size blockSize ↔
      (∀ i < total, blockAt start (rtAlign blockSize) i ≠ 0) ∧
        (total = 0 →
          start = 0 ∧ blockAt 0 (rtAlign blockSize) (2 ^ 32 - 1) + sizeofPtr ≤ size) := by
  have htotal := blockTotalCount_mul_le size blockSize
  simp only [InitOk, rtMpInit, newMempool]
  generalize rtAlignDown size / add32 (rtAlign blockSize) sizeofPtr = total at htotal ⊢
  constructor
  · intro h
    refine ⟨fun i hi => ?_, ?_⟩
    · exact ne_zero_of_linked (h id).2 _ (mem_map_of_mem (mem_range'_1.mpr ⟨i.zero_le, by omega⟩))
    · rintro rfl
      obtain ⟨hframe, hchain⟩ := h fun _ => 1
      obtain rfl : start = 0 := by
        by_contra hne
        simp [Linked, ofPtr, hne] at hchain
      refine ⟨rfl, ?_⟩
      by_contra hout
      have hword := hframe (blockAt 0 (rtAlign blockSize) (0 + 2 ^ 32 - 1)) fun i hi => by
        rw [zero_add, mod_eq_of_lt (by unfold sizeofPtr at hi; omega)]
        omega
      rw [initBlocks, update_self] at hword
      exact zero_ne_one hword
  · rintro ⟨hpos, hnone⟩ mem
    rcases Nat.eq_zero_or_pos total with rfl | hblocks
    · obtain ⟨rfl, hword⟩ := hnone rfl
      refine ⟨fun a ha => initBlocks_of_ne (by simp) ?_, rfl⟩
      have hne := ha _ hword
      rwa [zero_add, mod_eq_of_lt (by omega)] at hne
    · refine ⟨fun a ha => ?_, linked_initBlocks (htotal.trans_lt hsize)
        (fun i hi => pos_of_ne_zero (hpos i hi)) hblocks hstart⟩
      have hblock : ∀ i < total, a ≠ blockAt start (rtAlign blockSize) i := fun i hi => by
        have hle := mul_le_mul_right (rtAlign blockSize + sizeofPtr) (succ_le_of_lt hi)
        rw [succ_mul] at hle
        exact ha _ (by omega)
      refine initBlocks_of_ne hblock ?_
      rw [blockAt_last hblocks]
      exact hblock _ (sub_one_lt_of_lt hblocks)

theorem mp_init_sample : InitOk 4096 100 16 :=
  (mp_init_iff (by decide) (by decide)).mpr ⟨by decide, by decide⟩

/-- Memory of 8 bytes is too small for a block of 8 bytes: `rt_mp_init` clears the word 12 bytes in
front of the pool, and `block_list` is not `RT_NULL`. -/
theorem mp_init_writes_outside :
    let r := rtMpInit (fun _ => 1) 4096 8 8
    r.1.blockTotalCount = 0 ∧ r.1.blockList = 4096 ∧ r.2 4084 = 0 ∧ ¬ InitOk 4096 8 8 := by
  refine ⟨by decide, rfl, by decide, fun h => ?_⟩
  have hword := (h fun _ => 1).1 4084 fun i hi => by
    unfold sizeofPtr at hi
    omega
  exact absurd hword (by decide)

end Init

theorem Initial.blocksOk (h : s.Initial) : BlocksOk s s.mp.blocks := by
  obtain ⟨mem, start, n, blockSize, hstart, hlt, hnew⟩ := h.mp
  have hadd : add32 (rtAlign blockSize) sizeofPtr = rtAlign blockSize + sizeofPtr := add32_of_lt hlt
  have hblocks := h.blocks
  rcases hnew with ⟨heq, hstop⟩ | ⟨heq, hstop⟩
  · obtain ⟨hmp, hmem⟩ := Prod.mk.inj heq
    rw [hadd] at hmp hmem
    rw [hmp] at hblocks
    refine blocksOk_new hmp hmem hstart ?_ (rtAlign_mod _) hblocks h.live
    have hle := blockTotalCount_mul_le n blockSize
    rw [hadd] at hle
    omega
  · obtain ⟨hmp, hmem⟩ := Prod.mk.inj heq
    rw [hmp] at hblocks
    refine blocksOk_new hmp hmem hstart ?_ (rtAlign_mod _) hblocks h.live
    rwa [mul_comm]

/-! ## The wait list -/

/-- `suspend_thread_count` is ahead of the wait list by `e`. -/
structure WaitsOk (e : ℕ) (s : MpSys) : Prop where
  waits : s.kernel.WaitOk
  count : s.mp.suspendThreadCount = ((s.kernel.suspendThread ()).length + e) % 2 ^ 32

variable {e : ℕ} {time : ℤ}

theorem suspend_suspendThread (time : ℤ) (hready : (s.kernel.thread t).stat = .ready)
    (hw : s.kernel.WaitOk) :
    (s.suspend M t time).kernel.suspendThread () = t :: s.kernel.suspendThread () := by
  have hn : t ∉ s.kernel.suspendThread () := hw.notMem (by simp [hready]) ()
  have hready' : ((s.kernel.modify t fun th => { th with error := .eok }).thread t).stat =
      .ready := by simpa using hready
  by_cases ht : 0 < time <;>
    simp [suspend, startThreadTimer, ht, rtThreadSuspend_suspendThread hready', erase_of_not_mem hn]

theorem suspend_thread (time : ℤ) (hready : (s.kernel.thread t).stat = .ready) :
    (s.suspend M t time).kernel.thread = (s.kernel.modify t fun th =>
      { th with error := .eok, stat := .suspend, timerLinked := decide (0 < time) }).thread := by
  have hready' : ((s.kernel.modify t fun th => { th with error := .eok }).thread t).stat =
      .ready := by simpa using hready
  have hth := rtThreadSuspend_thread (M := M) hready'
  funext u
  by_cases hu : u = t <;> by_cases ht : 0 < time <;> simp [suspend, startThreadTimer, hth, hu, ht]

theorem WaitsOk.suspend (h : WaitsOk e s) (time : ℤ) (hready : (s.kernel.thread t).stat = .ready) :
    WaitsOk e (s.suspend M t time) := by
  have hlist := suspend_suspendThread (M := M) time hready h.waits
  refine ⟨h.waits.join (q := ()) hready (by rw [hlist]) (fun q hq => absurd rfl hq) ?_
    fun u hu => ?_, ?_⟩
  · simp [suspend_thread time hready]
  · rw [suspend_thread time hready, modify_thread_ne _ _ hu]
  · have hcount : (s.suspend M t time).mp.suspendThreadCount =
        (s.mp.suspendThreadCount + 1) % 2 ^ 32 := rfl
    rw [hcount, hlist, h.count, length_cons]
    omega

/-- What `rt_mp_free` does to the first waiting thread. -/
theorem wakeFirst_some (hw : s.kernel.WaitOk) (hs : s.wakeFirst M = some s') :
    ∃ t, s.kernel.suspendThread () = t :: s'.kernel.suspendThread () ∧
      s'.kernel.thread = (s.kernel.modify t fun th =>
        { th with error := .eok, stat := .ready, timerLinked := false }).thread ∧
      s'.mp = { s.mp with suspendThreadCount := s.mp.suspendThreadCount - 1 } ∧
      s'.mpAddr = s.mpAddr ∧ s'.mem = s.mem ∧ s'.live = s.live ∧ s'.calls = s.calls := by
  unfold wakeFirst at hs
  cases hlist : s.kernel.suspendThread () with
  | nil =>
    rw [hlist] at hs
    cases hs
  | cons t l =>
    have hsusp : ((s.kernel.modify t fun th => { th with error := .eok }).thread t).stat =
        .suspend := by simpa using hw.suspended () t (by simp [hlist])
    rw [hlist] at hs
    cases hs
    refine ⟨t, ?_, ?_, rfl, rfl, rfl, rfl, rfl⟩
    · simp [rtThreadResume_suspendThread hsusp, hlist]
    · have hth := rtThreadResume_thread (M := M) hsusp
      funext u
      by_cases hu : u = t <;> simp [hth, hu]

/-- The first waiting thread is woken: it was counted. -/
theorem WaitsOk.wake (h : WaitsOk e s) (hpos : 0 < s.mp.suspendThreadCount)
    (hs : s.wakeFirst M = some s') : WaitsOk e s' := by
  obtain ⟨t, hlist, hth, hmp, -⟩ := wakeFirst_some h.waits hs
  refine ⟨h.waits.erase (t := t) (fun q => ?_) fun u hu => ?_, ?_⟩
  · rw [hlist, erase_cons_head]
  · rw [hth, modify_thread_ne _ _ hu]
  · have hcount := h.count
    rw [hlist, length_cons] at hcount
    rw [hmp]
    show s.mp.suspendThreadCount - 1 = _
    omega

theorem WaitsOk.congr (h : WaitsOk e s) (hlist : s'.kernel.suspendThread = s.kernel.suspendThread)
    (hstat : ∀ t, (s.kernel.thread t).stat = .suspend → (s'.kernel.thread t).stat = .suspend)
    (hcount : s'.mp.suspendThreadCount = s.mp.suspendThreadCount) : WaitsOk e s' :=
  ⟨h.waits.congr hlist hstat, by rw [hcount, hlist, h.count]⟩

/-- The timer of thread `t` expires, which nobody tells the pool. -/
theorem WaitsOk.timeout {k : Kernel Unit} (h : WaitsOk e s)
    (hk : s.kernel.threadTimerExpires M t = some k) :
    WaitsOk (e + if t ∈ s.kernel.suspendThread () then 1 else 0) { s with kernel := k } := by
  obtain ⟨-, -, -, hlist⟩ := threadTimerExpires_some hk
  refine ⟨h.waits.timeout hk, ?_⟩
  show s.mp.suspendThreadCount = _
  rw [h.count, hlist, length_erase]
  split_ifs with ht
  · have := length_pos_of_mem ht
    omega
  · rfl

/-! ## Steps -/

variable {b : ℕ} {self : Option Tid}

theorem allocLoop_cases (hs : s.allocLoop M self time b = some (r, s')) :
    s.mp.blockFreeCount = 0 ∧ time = 0 ∧ r = .null ∧ s' = s ∨
    (∃ t, self = some t ∧ s.mp.blockFreeCount = 0 ∧ time ≠ 0 ∧ r = .blocked ∧
      s' = { s.suspend M t time with
        calls := update s.calls t (some (.suspended time (if 0 < time then s.tick else b))) }) ∨
    s.mp.blockFreeCount ≠ 0 ∧ s.takeBlock = some (r, s') := by
  unfold allocLoop at hs
  by_cases hcount : s.mp.blockFreeCount = 0
  · rw [if_pos hcount] at hs
    by_cases htime : time = 0
    · rw [if_pos htime] at hs
      cases hs
      exact .inl ⟨hcount, htime, rfl, rfl⟩
    · rw [if_neg htime] at hs
      cases self with
      | none => cases hs
      | some t =>
        cases hs
        exact .inr (.inl ⟨t, rfl, hcount, htime, rfl, rfl⟩)
  · rw [if_neg hcount] at hs
    exact .inr (.inr ⟨hcount, hs⟩)

variable {block : ℕ}

theorem rtMpFree_cases (hs : s.rtMpFree M block = some s') :
    (s.putBlock (block - sizeofPtr)).mp.suspendThreadCount = 0 ∧
      s' = s.putBlock (block - sizeofPtr) ∨
    0 < (s.putBlock (block - sizeofPtr)).mp.suspendThreadCount ∧
      (s.putBlock (block - sizeofPtr)).wakeFirst M = some s' := by
  unfold rtMpFree at hs
  dsimp only at hs
  split_ifs at hs with hheader hpos
  · exact .inr ⟨hpos, hs⟩
  · cases hs
    exact .inl ⟨by omega, rfl⟩

/-- What a step from `s` with result `r` leads to. -/
structure StepOk (e : ℕ) (s : MpSys) (r : MpResult) (s' : MpSys) : Prop where
  blocks : ∃ F, BlocksOk s' F
  waits : WaitsOk (e + if r = .expired then 1 else 0) s'
  pool : s'.mp.blocks = s.mp.blocks
  fresh : ∀ p, r = .allocated p → p ∉ s.live

theorem StepOk.quiet (hb : BlocksOk s' F) (hw : WaitsOk e s')
    (hpool : s'.mp.blocks = s.mp.blocks) (hr : r ≠ .expired) (hr' : ∀ p, r ≠ .allocated p) :
    StepOk e s r s' := by
  refine ⟨⟨F, hb⟩, ?_, hpool, fun p hp => absurd hp (hr' p)⟩
  rw [if_neg hr]
  exact hw

theorem allocLoop_ok (hb : BlocksOk s F) (hw : WaitsOk e s)
    (hready : ∀ t ∈ self, (s.kernel.thread t).stat = .ready)
    (hs : s.allocLoop M self time b = some (r, s')) : StepOk e s r s' := by
  rcases allocLoop_cases hs with ⟨-, -, rfl, rfl⟩ | ⟨t, ht, -, -, rfl, rfl⟩ | ⟨-, htake⟩
  · exact .quiet hb hw rfl (by simp) (by simp)
  · have hw' := hw.suspend (M := M) time (hready t ht)
    exact .quiet (hb.congr rfl rfl rfl rfl) (hw'.congr rfl (fun _ h => h) rfl) rfl (by simp)
      (by simp)
  · obtain ⟨a, F', rfl, rfl, -, hk, -, hpool, hcount, hb'⟩ := hb.take htake
    refine ⟨⟨F', hb'⟩, ?_, hpool, ?_⟩
    · exact hw.congr (by rw [hk]) (fun u hu => by rw [hk, hu]) hcount
    · rintro p heq
      cases heq
      exact disjoint_of_nodup_append hb.nodup (mem_ptrs.mpr (by simp))

theorem rtMpFree_ok (hb : BlocksOk s F) (hw : WaitsOk e s) (hlive : block ∈ s.live)
    (hs : s.rtMpFree M block = some s') : StepOk e s .void s' := by
  have hb' := hb.put hlive
  have hw' : WaitsOk e (s.putBlock (block - sizeofPtr)) := hw.congr rfl (fun _ h => h) rfl
  rcases rtMpFree_cases hs with ⟨-, rfl⟩ | ⟨hpos, hwake⟩
  · exact .quiet hb' hw' rfl (by simp) (by simp)
  · obtain ⟨t, -, -, hmp, haddr, hmem, hlive', -⟩ := wakeFirst_some hw'.waits hwake
    refine .quiet (hb'.congr ?_ haddr hmem hlive') (hw'.wake hpos hwake) ?_ (by simp) (by simp)
    · rw [hmp]
    · rw [hmp]
      rfl

theorem BlocksOk.dispatch (h : BlocksOk s F) (self : Option Tid) :
    BlocksOk (s.dispatch self) F := by
  cases self with
  | none => exact h
  | some t => exact h.congr rfl rfl rfl rfl

theorem WaitsOk.dispatch (h : WaitsOk e s) (self : Option Tid) : WaitsOk e (s.dispatch self) := by
  cases self with
  | none => exact h
  | some t => exact h.congr rfl (fun _ hu => hu) rfl

@[simp] theorem dispatch_thread (self : Option Tid) :
    (s.dispatch self).kernel.thread = s.kernel.thread := by
  cases self <;> rfl

@[simp] theorem dispatch_mp (self : Option Tid) : (s.dispatch self).mp = s.mp := by
  cases self <;> rfl

@[simp] theorem dispatch_live (self : Option Tid) : (s.dispatch self).live = s.live := by
  cases self <;> rfl

theorem StepOk.of_dispatch (h : StepOk e (s.dispatch self) r s') : StepOk e s r s' :=
  ⟨h.blocks, h.waits, by simpa using h.pool, by simpa using h.fresh⟩

variable {op : MpOp}

theorem step_ok (hb : BlocksOk s F) (hw : WaitsOk e s) (hs : s.step M op = some (r, s')) :
    StepOk e s r s' := by
  cases op with
  | schedulerStart =>
    cases hs
    exact .quiet (hb.congr rfl rfl rfl rfl) (hw.congr (by simp) (by simp) rfl) rfl (by simp)
      (by simp)
  | startup t =>
    obtain ⟨k, hk, heq⟩ := map_eq_some_iff.mp hs
    cases heq
    refine .quiet (hb.congr rfl rfl rfl rfl)
      (hw.congr (hw.waits.startup_suspendThread hk) (fun u hu => ?_) rfl) rfl (by simp) (by simp)
    have hth := rtThreadStartup_other hk (u := u) (by simp [hu])
    simpa [hth] using hu
  | tick =>
    cases hs
    exact .quiet (hb.congr rfl rfl rfl rfl) (hw.congr rfl (fun _ h => h) rfl) rfl (by simp)
      (by simp)
  | alloc self time =>
    simp only [step] at hs
    split_ifs at hs with hcall
    exact .of_dispatch (allocLoop_ok (hb.dispatch self) (hw.dispatch self)
      (fun t ht => by simpa using (hcall t ht).1) hs)
  | woken t =>
    simp only [step] at hs
    split_ifs at hs with hready
    unfold rtMpWoken at hs
    split at hs
    · split_ifs at hs
      · cases hs
        exact .quiet (hb.congr rfl rfl rfl rfl) (hw.congr rfl (fun _ h => h) rfl) rfl (by simp)
          (by simp)
      · cases hs
        exact .quiet (hb.congr rfl rfl rfl rfl) (hw.congr rfl (fun _ h => h) rfl) rfl (by simp)
          (by simp)
    · cases hs
  | retry t =>
    simp only [step] at hs
    split_ifs at hs with hready
    unfold rtMpRetry at hs
    split at hs
    · set s₁ : MpSys := { s.dispatch (some t) with
        calls := update (s.dispatch (some t)).calls t none }
      have hb' : BlocksOk s₁ F := (hb.dispatch (some t)).congr rfl rfl rfl rfl
      have hw' : WaitsOk e s₁ := (hw.dispatch (some t)).congr rfl (fun _ h => h) rfl
      have hok := allocLoop_ok hb' hw' (fun u hu => by cases hu; exact hready) hs
      exact ⟨hok.blocks, hok.waits, hok.pool, hok.fresh⟩
    · cases hs
  | free self block =>
    simp only [step] at hs
    split_ifs at hs with hcall
    obtain ⟨s₁, hfree, heq⟩ := map_eq_some_iff.mp hs
    cases heq
    exact .of_dispatch (rtMpFree_ok (hb.dispatch self) (hw.dispatch self) (by simpa using hcall.2)
      hfree)
  | store block i v =>
    simp only [step] at hs
    split_ifs at hs with hcall
    cases hs
    exact .quiet (hb.store hcall.1 hcall.2) (hw.congr rfl (fun _ h => h) rfl) rfl (by simp)
      (by simp)
  | timeout t =>
    obtain ⟨k, hk, heq⟩ := map_eq_some_iff.mp hs
    cases heq
    have hw' := hw.timeout hk
    refine ⟨⟨F, hb.congr rfl rfl rfl rfl⟩, ?_, rfl, fun p hp => ?_⟩
    · split_ifs at hw' ⊢ <;> first | exact hw' | contradiction
    · split_ifs at hp

/-! ## Runs -/

/-- The number of waits that have timed out. -/
def expired (tr : List (MpOp × MpResult)) : ℕ :=
  (tr.map fun e => if e.2 = .expired then 1 else 0).sum

theorem expired_append (tr : List (MpOp × MpResult)) (op : MpOp) :
    expired (tr ++ [(op, r)]) = expired tr + if r = .expired then 1 else 0 := by
  simp [expired]

theorem Initial.waitsOk (h : s.Initial) : WaitsOk 0 s := by
  refine ⟨⟨by simp [h.suspendThread], by simp [h.suspendThread], by simp⟩, ?_⟩
  obtain ⟨mem, start, n, blockSize, -, -, ⟨heq, -⟩ | ⟨heq, -⟩⟩ := h.mp
  · rw [(Prod.mk.inj heq).1, h.suspendThread]
    rfl
  · rw [(Prod.mk.inj heq).1, h.suspendThread]
    rfl

variable {tr : List (MpOp × MpResult)} {s₀ : MpSys}

theorem ok_run (hinit : s₀.Initial) (hrun : Run (step M) s₀ tr s) :
    (∃ F, BlocksOk s F) ∧ WaitsOk (expired tr) s ∧ s.mp.blocks = s₀.mp.blocks := by
  refine hrun.invTrace (I := fun tr s => (∃ F, BlocksOk s F) ∧ WaitsOk (expired tr) s ∧
    s.mp.blocks = s₀.mp.blocks) ⟨⟨_, hinit.blocksOk⟩, hinit.waitsOk, rfl⟩
    fun tr s op r s' h hs => ?_
  obtain ⟨⟨F, hb⟩, hw, hpool⟩ := h
  have hok := step_ok hb hw hs
  refine ⟨hok.blocks, ?_, hok.pool.trans hpool⟩
  rw [expired_append]
  exact hok.waits

/-- As long as no wait has timed out, `rt_mp_free` of a client's block comes back. -/
theorem free_isSome (hb : BlocksOk s F) (hw : WaitsOk 0 s)
    (hcall : s.CanCall self) (hp : p ∈ s.live) : (s.step M (.free self p)).isSome := by
  have hb' := hb.dispatch self
  have hw' := hw.dispatch self
  have hheader := hb'.header p (by simpa using hp)
  simp only [step, if_pos (show s.CanCall self ∧ p ∈ s.live from ⟨hcall, hp⟩), isSome_map]
  unfold rtMpFree
  dsimp only
  split_ifs with hpos
  · have hpos' : 0 < (s.dispatch self).mp.suspendThreadCount := hpos
    rw [hw'.count] at hpos'
    unfold wakeFirst
    split
    · rename_i hnil
      have hnil' : (s.dispatch self).kernel.suspendThread () = [] := hnil
      simp [hnil'] at hpos'
    · rfl
  · rfl

/-- A thread's `rt_mp_alloc` comes back or blocks. -/
theorem alloc_isSome (hb : BlocksOk s F) (hcall : s.CanCall (some t)) :
    (s.step M (.alloc (some t) time)).isSome := by
  simp only [step, if_pos hcall, rtMpAlloc]
  unfold allocLoop
  by_cases hcount : (s.dispatch (some t)).mp.blockFreeCount = 0
  · rw [if_pos hcount]
    by_cases htime : time = 0
    · rw [if_pos htime]
      rfl
    · rw [if_neg htime]
      rfl
  · rw [if_neg hcount]
    exact (hb.dispatch (some t)).take_isSome hcount

/-! ## Runs without timeouts -/

/-- Nobody waits with a timeout. -/
structure Untimed (s : MpSys) : Prop where
  time : ∀ t c, s.calls t = some c → c.time ≤ 0
  timer : ∀ t ∈ s.kernel.suspendThread (), (s.kernel.thread t).timerLinked = false

section

variable (h : Untimed s)
include h

/-- Steps that add no thread to the wait list. -/
theorem Untimed.of_fewer (hcalls : s'.calls = s.calls)
    (hlist : ∀ t ∈ s'.kernel.suspendThread (), t ∈ s.kernel.suspendThread () ∧ (s'.kernel.thread
      t).timerLinked = (s.kernel.thread t).timerLinked) : Untimed s' := by
  refine ⟨by rw [hcalls]; exact h.time, fun t ht => ?_⟩
  obtain ⟨ht', htimer⟩ := hlist t ht
  rw [htimer]
  exact h.timer t ht'

/-- A call ends, or goes on without a timeout. -/
theorem Untimed.setCall {call : Option MpCall} (t : Tid) (htime : ∀ c ∈ call, c.time ≤ 0) :
    Untimed { s with calls := update s.calls t call } := by
  refine ⟨fun u c hc => ?_, h.timer⟩
  by_cases hut : u = t
  · subst hut
    simp only [update_self] at hc
    exact htime c hc
  · simp only [update_of_ne hut] at hc
    exact h.time u c hc

theorem Untimed.dispatch (self : Option Tid) : Untimed (s.dispatch self) := by
  cases self with
  | none => exact h
  | some t => exact ⟨h.time, h.timer⟩

theorem Untimed.allocLoop (hb : BlocksOk s F) (hw : s.kernel.WaitOk)
    (hready : ∀ t ∈ self, (s.kernel.thread t).stat = .ready) (htime : time ≤ 0)
    (hs : s.allocLoop M self time b = some (r, s')) : Untimed s' := by
  rcases allocLoop_cases hs with ⟨-, -, -, rfl⟩ | ⟨t, ht, -, -, -, rfl⟩ | ⟨-, htake⟩
  · exact h
  · have hlist := suspend_suspendThread (M := M) time (hready t ht) hw
    have hth := suspend_thread (M := M) time (hready t ht)
    have hsuspended : Untimed (s.suspend M t time) := by
      refine ⟨h.time, fun u hu => ?_⟩
      simp only [hlist, mem_cons] at hu
      simp only [hth, modify_thread_apply]
      split_ifs with hut
      · simpa using htime
      · exact h.timer u (hu.resolve_left hut)
    refine hsuspended.setCall t fun c hc => ?_
    cases hc
    exact htime
  · obtain ⟨-, -, -, -, -, hk, hcalls, -⟩ := hb.take htake
    exact ⟨by rw [hcalls]; exact h.time, by rw [hk]; exact h.timer⟩

theorem Untimed.free (hw : s.kernel.WaitOk) (hs : s.rtMpFree M block = some s') : Untimed s' := by
  have h' : Untimed (s.putBlock (block - sizeofPtr)) := ⟨h.time, h.timer⟩
  rcases rtMpFree_cases hs with ⟨-, rfl⟩ | ⟨-, hwake⟩
  · exact h'
  · have hw' : (s.putBlock (block - sizeofPtr)).kernel.WaitOk := hw
    obtain ⟨t, hlist, hth, -, -, -, -, hcalls⟩ := wakeFirst_some hw' hwake
    have hnd := hw'.nodup ()
    rw [hlist] at hnd
    refine h'.of_fewer hcalls fun u hu => ?_
    have hut : u ≠ t := by
      rintro rfl
      exact (nodup_cons.mp hnd).1 hu
    rw [hth, modify_thread_ne _ _ hut, hlist]
    exact ⟨mem_cons_of_mem _ hu, rfl⟩

theorem Untimed.step (hb : BlocksOk s F) (hw : s.kernel.WaitOk) (hop : op.untimed)
    (hs : s.step M op = some (r, s')) : Untimed s' := by
  have hwd : ∀ self, (s.dispatch self).kernel.WaitOk := by
    intro self
    cases self with
    | none => exact hw
    | some t => exact hw.dispatch t
  cases op with
  | schedulerStart =>
    cases hs
    exact h.of_fewer rfl (by simp)
  | startup t =>
    obtain ⟨k, hk, heq⟩ := map_eq_some_iff.mp hs
    cases heq
    refine h.of_fewer rfl fun u hu => ?_
    obtain ⟨hmem, hth⟩ := hw.startup_waiter hk hu
    exact ⟨hmem, by rw [hth]⟩
  | tick =>
    cases hs
    exact ⟨h.time, h.timer⟩
  | alloc self time =>
    have htime : time ≤ 0 := by simpa [MpOp.untimed] using hop
    simp only [step] at hs
    split_ifs at hs with hcall
    exact (h.dispatch self).allocLoop (hb.dispatch self) (hwd self)
      (fun t ht => by simpa using (hcall t ht).1) htime hs
  | woken t =>
    simp only [step] at hs
    split_ifs at hs with hready
    unfold rtMpWoken at hs
    split at hs
    · rename_i time b hcall
      have hcall' : s.calls t = some (.suspended time b) := hcall
      have htime : time ≤ 0 := h.time t _ hcall'
      split_ifs at hs
      · cases hs
        exact (h.dispatch (some t)).setCall t (by simp)
      · cases hs
        refine (h.dispatch (some t)).setCall t fun c hc => ?_
        cases hc
        show (s.dispatch (some t)).remaining time b ≤ 0
        rwa [remaining, if_neg (by omega)]
    · cases hs
  | retry t =>
    simp only [step] at hs
    split_ifs at hs with hready
    unfold rtMpRetry at hs
    split at hs
    · rename_i time b hcall
      have htime : time ≤ 0 := h.time t _ hcall
      have h' : Untimed { s.dispatch (some t) with
          calls := update (s.dispatch (some t)).calls t none } :=
        (h.dispatch (some t)).setCall t (by simp)
      exact h'.allocLoop (hb.congr rfl rfl rfl rfl) (hwd (some t))
        (fun u hu => by cases hu; exact hready) htime hs
    · cases hs
  | free self block =>
    simp only [step] at hs
    split_ifs at hs with hcall
    obtain ⟨s₁, hfree, heq⟩ := map_eq_some_iff.mp hs
    cases heq
    exact (h.dispatch self).free (hwd self) hfree
  | store block i v =>
    simp only [step] at hs
    split_ifs at hs with hcall
    cases hs
    exact ⟨h.time, h.timer⟩
  | timeout t =>
    obtain ⟨k, hk, heq⟩ := map_eq_some_iff.mp hs
    cases heq
    refine h.of_fewer rfl fun u hu => ?_
    obtain ⟨hut, hmem⟩ := (hw.mem_timeout hk).mp hu
    exact ⟨hmem, by rw [threadTimerExpires_other hk hut]⟩

end

/-- Only a wait with a timeout expires. -/
theorem step_expired (hs : s.step M op = some (.expired, s')) :
    ∃ t ∈ s.kernel.suspendThread (), (s.kernel.thread t).timerLinked = true := by
  have hloop : ∀ {s : MpSys} {self time b}, s.allocLoop M self time b ≠ some (.expired, s') := by
    intro s self time b hs
    rcases allocLoop_cases hs with ⟨-, -, hr, -⟩ | ⟨t, -, -, -, hr, -⟩ | ⟨-, htake⟩
    · cases hr
    · cases hr
    · unfold takeBlock at htake
      dsimp only at htake
      split_ifs at htake
      cases htake
  cases op with
  | schedulerStart => cases hs
  | startup t =>
    obtain ⟨k, -, heq⟩ := map_eq_some_iff.mp hs
    cases heq
  | tick => cases hs
  | alloc self time =>
    simp only [step] at hs
    split_ifs at hs
    exact absurd hs hloop
  | woken t =>
    simp only [step] at hs
    split_ifs at hs
    unfold rtMpWoken at hs
    split at hs
    · split_ifs at hs
      · cases hs
      · cases hs
    · cases hs
  | retry t =>
    simp only [step] at hs
    split_ifs at hs
    unfold rtMpRetry at hs
    split at hs
    · exact absurd hs hloop
    · cases hs
  | free self block =>
    simp only [step] at hs
    split_ifs at hs
    obtain ⟨k, -, heq⟩ := map_eq_some_iff.mp hs
    cases heq
  | store block i v =>
    simp only [step] at hs
    split_ifs at hs
    cases hs
  | timeout t =>
    obtain ⟨k, hk, heq⟩ := map_eq_some_iff.mp hs
    by_cases ht : t ∈ s.kernel.suspendThread ()
    · exact ⟨t, ht, (threadTimerExpires_some hk).1⟩
    · rw [if_neg ht] at heq
      cases heq

theorem untimed_run (hinit : s₀.Initial) (hrun : Run (step M) s₀ tr s)
    (hops : ∀ e ∈ tr, e.1.untimed) : Untimed s ∧ expired tr = 0 := by
  induction hrun with
  | nil =>
    exact ⟨⟨fun t c hc => by simp [hinit.calls] at hc, by simp [hinit.suspendThread]⟩, rfl⟩
  | @snoc tr s₁ s₂ op r hrun hs ih =>
    obtain ⟨hun, hexp⟩ := ih fun e he => hops e (by simp [he])
    obtain ⟨⟨F, hb⟩, hw, -⟩ := ok_run hinit hrun
    refine ⟨hun.step hb hw.waits (hops (op, r) (by simp)) hs, ?_⟩
    have hr : r ≠ .expired := by
      rintro rfl
      obtain ⟨t, ht, htimer⟩ := step_expired hs
      simp [hun.timer t ht] at htimer
    rw [expired_append, hexp, if_neg hr]

/-! ## Results -/

/-- What holds of the blocks of the pool in state `s`. -/
structure Conserved (M : ℕ) (s : MpSys) : Prop where
  -- the chain from `block_list`, and the blocks that clients hold
  chain : ∃ F, Linked (fun a => ofPtr (s.mem a)) (ofPtr s.mp.blockList) F ∧
    F.length = s.mp.blockFreeCount ∧ F.Nodup ∧ (ptrs F ++ s.live).Perm (ptrs s.mp.blocks)
  total : s.mp.blocks.length = s.mp.blockTotalCount ∧ s.mp.blocks.Nodup
  header : ∀ p ∈ s.live, s.mem (p - sizeofPtr) = s.mpAddr
  fresh : ∀ op p s', s.step M op = some (.allocated p, s') → p ∉ s.live
  -- the calls come back, or block
  alloc : ∀ t time, s.CanCall (some t) → (s.step M (.alloc (some t) time)).isSome
  free : ∀ self block, s.CanCall self → block ∈ s.live → (s.step M (.free self block)).isSome

/-- In every state that an interleaving of calls of `rt_mp_alloc` without timeout and of
`rt_mp_free` reaches, the blocks of the pool are conserved. -/
theorem block_conservation {s₀ : MpSys} {tr : List (MpOp × MpResult)} (hinit : s₀.Initial)
    (hrun : Run (step M) s₀ tr s) (hops : ∀ e ∈ tr, e.1.untimed) :
    Conserved M s ∧ s.mp.blocks = s₀.mp.blocks := by
  obtain ⟨⟨F, hb⟩, hw, hpool⟩ := ok_run hinit hrun
  rw [(untimed_run hinit hrun hops).2] at hw
  refine ⟨⟨⟨F, hb.free, hb.count.symm, nodup_ptrs.mp hb.nodup.of_append_left, hb.perm⟩,
    ⟨by simp [Mempool.blocks], Mempool.nodup_blocks⟩, hb.header, fun op p s' hs => ?_,
    fun t time hcall => alloc_isSome hb hcall,
    fun self block hcall hlive => free_isSome hb hw hcall hlive⟩, hpool⟩
  exact (step_ok hb hw hs).fresh p rfl

/-- A pool of one block of eight bytes; thread `t` has priority `20 - 5 * t`. -/
def sampleSys : MpSys where
  kernel := newThreads fun t => 20 - 5 * t
  mp := (rtMpInit (fun _ => 0) 4096 15 8).1
  mpAddr := 1000
  mem := (rtMpInit (fun _ => 0) 4096 15 8).2
  tick := 0
  calls := fun _ => none
  live := []

theorem sampleSys_initial : sampleSys.Initial :=
  ⟨⟨fun _ => 0, 4096, 15, 8, by norm_num, by decide, .inl ⟨rfl, by norm_num⟩⟩, by decide, rfl,
    fun _ => rfl, rfl⟩

/-- Thread 0 holds the block and writes to it; thread 1 waits for the block and gets it. -/
def sampleAllocs : List MpOp :=
  [.startup 0, .schedulerStart, .alloc (some 0) 0, .store 4100 1 77, .startup 1,
    .alloc (some 1) (-1), .free (some 0) 4100, .woken 1, .retry 1]

theorem sampleAllocs_possible : (exec (step 32) sampleSys sampleAllocs).isSome := by
  decide +kernel

theorem block_conservation_sample :
    ((exec (step 32) sampleSys sampleAllocs).get sampleAllocs_possible).2.live = [4100] ∧
      Conserved 32 ((exec (step 32) sampleSys sampleAllocs).get sampleAllocs_possible).2 :=
  ⟨by decide +kernel, (block_conservation sampleSys_initial (Run.of_isSome sampleAllocs_possible)
    (by decide +kernel)).1⟩

/-- `suspend_thread_count` is the length of the wait list, modulo its width, plus the number of
waits that have timed out: the two agree as long as there are none, and then `rt_mp_free` finds a
thread whenever it looks for one. -/
theorem waiter_count_iff {s₀ : MpSys} {tr : List (MpOp × MpResult)} (hinit : s₀.Initial)
    (hrun : Run (step M) s₀ tr s) (hlt : (s.kernel.suspendThread ()).length + expired tr < 2 ^ 32) :
    (s.mp.suspendThreadCount = (s.kernel.suspendThread ()).length ↔ expired tr = 0) ∧
      (expired tr = 0 → ∀ self block, s.CanCall self → block ∈ s.live →
        (s.step M (.free self block)).isSome) := by
  obtain ⟨⟨F, hb⟩, hw, -⟩ := ok_run hinit hrun
  refine ⟨?_, fun hzero self block hcall hlive => ?_⟩
  · rw [hw.count]
    omega
  · rw [hzero] at hw
    exact free_isSome hb hw hcall hlive

theorem waiter_count_sample :
    let s := ((exec (step 32) sampleSys (sampleAllocs.take 6)).get (by decide +kernel)).2
    s.mp.suspendThreadCount = 1 ∧ s.kernel.suspendThread () = [1] ∧
      (s.mp.suspendThreadCount = (s.kernel.suspendThread ()).length ↔
        expired ((sampleAllocs.take 6).zip
          ((exec (step 32) sampleSys (sampleAllocs.take 6)).get (by decide +kernel)).1) = 0) :=
  ⟨by decide, by decide,
    (waiter_count_iff sampleSys_initial (Run.of_isSome (by decide)) (by decide)).1⟩

/-- The thread that the scheduler has chosen makes the call. -/
def Scheduled (s : MpSys) : MpOp → Prop
  | .alloc self _ | .free self _ => ∀ t ∈ self, s.kernel.currentThread = some t
  | .woken t | .retry t => s.kernel.currentThread = some t
  | _ => True

instance (s : MpSys) (op : MpOp) : Decidable (Scheduled s op) := by
  cases op <;> unfold Scheduled <;> infer_instance

/-- Thread 0 holds the block, thread 1 waits for it with a timeout, and the timeout expires. -/
def timedOutAlloc : List MpOp :=
  [.startup 0, .schedulerStart, .alloc (some 0) 0, .startup 1, .alloc (some 1) 5, .timeout 1,
    .woken 1]

theorem timedOutAlloc_possible :
    (exec (guard Scheduled (step 32)) sampleSys timedOutAlloc).isSome := by
  decide +kernel

theorem free_takes_list_head :
    ∃ tr s, StepsSatisfy (step 32) Scheduled sampleSys tr s ∧
      s.mp.suspendThreadCount = 1 ∧ s.kernel.suspendThread () = [] ∧
      4100 ∈ s.live ∧ s.CanCall none ∧ s.step 32 (.free none 4100) = none :=
  ⟨_, _, StepsSatisfy.of_isSome timedOutAlloc_possible, by decide +kernel, by decide +kernel,
    by decide +kernel, by decide +kernel, isNone_iff_eq_none.mp (by decide +kernel)⟩

end MpSys

end RtThread
