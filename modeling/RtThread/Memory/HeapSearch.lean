import RtThread.Memory.HeapRuns

/-!
# What `rt_malloc` finds

The search loop of `rt_malloc` follows `next` from `lfree` and gives up at the
offset `mem_size_aligned - size`. On a heap with the invariant `HeapOk` it ends,
and it finds exactly the blocks in this window (`Finds`). Two things make the
window too small: the bound leaves out blocks that start late, and `rt_realloc`
makes unused blocks below `lfree` (`malloc_misses_block`).

* `HeapOk.rtMalloc_iff`: `rt_malloc` returns a block iff its window has one;
* `malloc_complete_iff`: when `RT_NULL` means that there is no room;
* `malloc_terminates_iff`: when the search ends;
* `heap_whole`: what is left when all blocks are released.
-/

namespace RtThread

open BlockChain Runs Option Nat

namespace Heap

variable {h h' : Heap} {l l' : List ℕ} {a n o q fuel ptr size : ℕ}

/-! ## The list of the blocks -/

/-- The headers from offset `o` along `next`, at most `fuel` of them. -/
def headersFrom (h : Heap) : (fuel o : ℕ) → List ℕ
  | 0, _ => []
  | fuel + 1, o => o :: if o = h.heapEnd then [] else headersFrom h fuel (h.next o)

/-- The headers from the start of the heap to `heap_end`. -/
def headers (h : Heap) : List ℕ := h.headersFrom h.rounds 0

theorem headersFrom_eq (hchain : Chain 12 (· ≠ h.heapEnd) h.next h.prev (a :: l))
    (hlast : (a :: l).getLast? = some h.heapEnd) (hfuel : l.length < fuel) :
    h.headersFrom fuel a = a :: l := by
  induction l generalizing a fuel with
  | nil =>
    obtain ⟨fuel, rfl⟩ := exists_eq_succ_of_ne_zero (show fuel ≠ 0 by omega)
    have ha : a = h.heapEnd := by simpa using hlast
    rw [headersFrom, if_pos ha]
  | cons b l ih =>
    obtain ⟨fuel, rfl⟩ := exists_eq_succ_of_ne_zero (show fuel ≠ 0 by omega)
    obtain ⟨⟨hnext, hab, -⟩, hchain'⟩ := List.isChain_cons_cons.mp hchain
    have hne : a ≠ h.heapEnd := by
      have := Chain.length_le hchain' hlast
      omega
    rw [List.length_cons] at hfuel
    rw [headersFrom, if_neg hne, hnext, ih hchain' hlast (by omega)]

/-- The invariant is about one list only. -/
theorem HeapOk.headers_eq (hok : HeapOk h l) : h.headers = l := by
  cases l with
  | nil => simpa using hok.head
  | cons a l =>
    have ha : a = 0 := by simpa using hok.head
    subst ha
    have hlen := hok.chain.length_le hok.last
    exact headersFrom_eq hok.chain hok.last (by unfold rounds; omega)

/-! ## The search loop -/

/-- The block at `o` is unused and has room for `n` bytes. -/
def Fits (h : Heap) (n o : ℕ) : Prop := h.used o = 0 ∧ o + sizeofStructMem + n ≤ h.next o
  deriving Decidable

theorem Tiled.ne_heapEnd_of_fits (ht : Tiled h l) (hf : h.Fits n a) : a ≠ h.heapEnd :=
  fun ha => ht.endUsed (ha ▸ hf.1)

/-- The test of the search loop. -/
theorem Tiled.fits_iff (ht : Tiled h l) (ha : a ∈ l) (hne : a ≠ h.heapEnd) :
    (h.used a = 0 ∧ n ≤ sub32 (h.next a) (a + sizeofStructMem)) ↔ h.Fits n a := by
  obtain ⟨hle, -, hpay⟩ := ht.payload ha hne
  rw [hpay]
  unfold Fits sizeofStructMem
  omega

/-- A block that fits leaves `n` bytes of the heap to it. -/
theorem Tiled.le_of_fits (ht : Tiled h l) (ha : a ∈ l) (hf : h.Fits n a) :
    a + n ≤ h.memSizeAligned := by
  have hend := (ht.payload ha (ht.ne_heapEnd_of_fits hf)).2.1
  have hroom := hf.2
  unfold heapEnd sizeofStructMem at *
  omega

theorem HeapOk.fits_of_mallocLoop (hok : HeapOk h l)
    (hloop : h.mallocLoop n h.rounds h.lfree = some (some a)) : a ∈ l ∧ h.Fits n a := by
  obtain ⟨ha, hfree, hfit⟩ := hok.mallocLoop hok.lfree hloop
  have hne : a ≠ h.heapEnd := fun hne => hok.endUsed (hne ▸ hfree)
  exact ⟨ha, (hok.fits_iff ha hne).mp ⟨hfree, hfit⟩⟩

theorem heapEnd_lt (h : Heap) : h.heapEnd < h.rounds + h.lfree := by
  unfold rounds
  omega

/-- The search ends, and finds a block if there is one between `ptr` and the bound. -/
theorem Tiled.mallocLoop_spec (ht : Tiled h l) (hn : n ≤ h.memSizeAligned) (hptr : ptr ∈ l)
    (hfuel : h.heapEnd < fuel + ptr) :
    (h.mallocLoop n fuel ptr = some none ∧
        ∀ a ∈ l, h.Fits n a → ptr ≤ a → ¬ a < h.memSizeAligned - n) ∨
      ∃ a ∈ l, h.mallocLoop n fuel ptr = some (some a) ∧ h.Fits n a ∧ ptr ≤ a ∧
        a < h.memSizeAligned - n := by
  have hspace := ht.space
  have hsize : h.heapEnd = h.memSizeAligned + 12 := rfl
  induction fuel generalizing ptr with
  | zero =>
    have := ht.le_heapEnd hptr
    omega
  | succ fuel ih =>
    rw [Heap.mallocLoop, sub32_of_le hn (by omega)]
    by_cases hbound : ptr < h.memSizeAligned - n
    · have hne : ptr ≠ h.heapEnd := by omega
      rw [if_pos hbound]
      by_cases hfit : h.Fits n ptr
      · rw [if_pos ((ht.fits_iff hptr hne).mpr hfit)]
        exact .inr ⟨ptr, hptr, rfl, hfit, le_rfl, hbound⟩
      · rw [if_neg (mt (ht.fits_iff hptr hne).mp hfit)]
        have hnext := (ht.payload hptr hne).1
        -- the blocks from `ptr` on are `ptr` and those from `next` on
        rcases ih (ht.next_mem hptr) (by omega) with ⟨hnone, hall⟩ | ⟨a, ha, hsome, hf, hle, hlt⟩
        · refine .inl ⟨hnone, fun a ha hf hle => ?_⟩
          rcases ht.le_or_next_le hptr hne ha with hle' | hle'
          · obtain rfl : a = ptr := by omega
            exact absurd hf hfit
          · exact hall a ha hf hle'
        · exact .inr ⟨a, ha, hsome, hf, by omega, hlt⟩
    · rw [if_neg hbound]
      exact .inl ⟨rfl, fun a _ _ hle => by omega⟩

/-- If no block can have `n` bytes, the bound of the search wraps around, and it does not end. -/
theorem Tiled.mallocLoop_eq_none (ht : Tiled h l) (hn : h.memSizeAligned < n)
    (hlt : n + 12 < 2 ^ 32) (hptr : ptr ∈ l) : h.mallocLoop n fuel ptr = none := by
  induction fuel generalizing ptr with
  | zero => rfl
  | succ fuel ih =>
    have hle : ptr ≤ h.memSizeAligned + 12 := ht.le_heapEnd hptr
    have hfit : ¬ (h.used ptr = 0 ∧ n ≤ sub32 (h.next ptr) (ptr + sizeofStructMem)) := by
      intro hfit
      have hne : ptr ≠ h.heapEnd := fun hne => ht.endUsed (hne ▸ hfit.1)
      have := ht.le_of_fits hptr ((ht.fits_iff hptr hne).mp hfit)
      omega
    rw [Heap.mallocLoop, if_pos (by unfold sub32; omega), if_neg hfit]
    exact ih (ht.next_mem hptr)

/-- What the search of `rt_malloc` can find: a block for `n` bytes from `lfree` on, below the bound.
-/
def Finds (h : Heap) (n : ℕ) : Prop :=
  ∃ o ∈ h.headers, h.Fits n o ∧ h.lfree ≤ o ∧ o < h.memSizeAligned - n
  deriving Decidable

/-! ## `rt_malloc` returns -/

theorem Tiled.lfreeLoop_isSome (ht : Tiled h l) (hptr : ptr ∈ l) (hfuel : h.heapEnd < fuel + ptr) :
    (h.lfreeLoop fuel ptr).isSome := by
  induction fuel generalizing ptr with
  | zero =>
    have := ht.le_heapEnd hptr
    omega
  | succ fuel ih =>
    rw [Heap.lfreeLoop]
    split_ifs with hused
    · have hnext := (ht.payload hptr hused.2).1
      exact ih (ht.next_mem hptr) (by omega)
    · rfl

theorem Takes.updateLfree_isSome (ht : Takes h l a n h' l') : h'.updateLfree.isSome := by
  unfold Heap.updateLfree
  rw [isSome_map]
  exact ht.ok.lfreeLoop_isSome ht.ok.lfree h'.heapEnd_lt

/-- No assertion fails for a block that fits. -/
theorem HeapOk.mallocBlock_isSome (hok : HeapOk h l) (ha : a ∈ l) (hf : h.Fits n a)
    (hn : n % 4 = 0) : (h.mallocBlock a n).isSome := by
  have hne := hok.ne_heapEnd_of_fits hf
  obtain ⟨l', htakes, -, -⟩ := hok.takeBlock ha hne hf.1 hn hf.2
  have htakes' := htakes.setMagic
  have ha4 := hok.aligned a ha
  have hbase := hok.ptrAligned
  have hend : a + 12 + n ≤ h.heapEnd := hf.2.trans (hok.payload ha hne).2.1
  obtain ⟨h₂, hh₂, harea⟩ : ∃ h₂ : Heap,
      (if a = ((h.takeBlock a n).setMagic a heapMagic).lfree then
        ((h.takeBlock a n).setMagic a heapMagic).updateLfree
      else some ((h.takeBlock a n).setMagic a heapMagic)) = some h₂ ∧ h₂.area = h.area := by
    split_ifs
    · obtain ⟨h₂, hh₂⟩ := isSome_iff_exists.mp htakes'.updateLfree_isSome
      exact ⟨h₂, hh₂, (htakes'.updateLfree hh₂).area⟩
    · exact ⟨_, rfl, htakes'.area⟩
  unfold Heap.mallocBlock
  dsimp only
  rw [hh₂, bind_some, heapEnd_congr harea, heapPtr_congr harea, if_pos ⟨hend, by omega⟩]
  rfl

/-- The size that `rt_malloc` looks for is the larger one of two. -/
theorem blockSize_eq_max (n : ℕ) : blockSize n = max n minSizeAligned := by
  unfold blockSize
  split_ifs <;> omega

variable (hok : HeapOk h l)
include hok

/-- The search of `rt_malloc`, with the size it looks for. -/
theorem HeapOk.mallocLoop_iff :
    (∃ a, h.mallocLoop n h.rounds h.lfree = some (some a)) ↔ h.Finds n := by
  unfold Finds
  rw [hok.headers_eq]
  constructor
  · rintro ⟨a, hsome⟩
    obtain ⟨ha, hf⟩ := hok.fits_of_mallocLoop hsome
    have hn : n ≤ h.memSizeAligned := (le_add_left n a).trans (hok.le_of_fits ha hf)
    rcases hok.mallocLoop_spec hn hok.lfree h.heapEnd_lt with ⟨hnone, -⟩ | ⟨o, ho, -, hwindow⟩
    · simp [hsome] at hnone
    · exact ⟨o, ho, hwindow⟩
  · rintro ⟨a, ha, hf, hle, hlt⟩
    have hn : n ≤ h.memSizeAligned := (le_add_left n a).trans (hok.le_of_fits ha hf)
    rcases hok.mallocLoop_spec hn hok.lfree h.heapEnd_lt with ⟨-, hnone⟩ | ⟨o, -, hsome, -⟩
    · exact absurd hlt (hnone a ha hf hle)
    · exact ⟨o, hsome⟩

/-- `rt_malloc` returns a block iff it can find one. -/
theorem HeapOk.rtMalloc_iff :
    (∃ q h', h.rtMalloc size = some (q, h') ∧ q ≠ 0) ↔
      size ≠ 0 ∧ h.Finds (blockSize (rtAlign size)) := by
  obtain ⟨hle, hmod⟩ := blockSize_spec (rtAlign_mod size)
  rw [← hok.mallocLoop_iff]
  constructor
  · rintro ⟨q, h', hm, hq⟩
    obtain ⟨rfl, -⟩ | ⟨hzero, a, hloop, -⟩ := rtMalloc_cases hm
    · exact absurd rfl hq
    · exact ⟨hzero, a, hloop⟩
  · rintro ⟨hzero, a, hloop⟩
    obtain ⟨ha, hf⟩ := hok.fits_of_mallocLoop hloop
    have hroom := hok.le_of_fits ha hf
    unfold Heap.rtMalloc
    rw [if_neg hzero, if_neg (by omega), hloop]
    obtain ⟨⟨q, h'⟩, hm⟩ := isSome_iff_exists.mp (hok.mallocBlock_isSome ha hf hmod)
    obtain ⟨hfree, hfit⟩ := (hok.fits_iff ha (hok.ne_heapEnd_of_fits hf)).mpr hf
    obtain ⟨l', rfl, -⟩ := hok.mallocBlock ha hfree hmod hfit hm
    exact ⟨_, h', hm, by omega⟩

/-- On a heap of at least `MIN_SIZE_ALIGNED` bytes `rt_malloc` returns. On a smaller one the bound
of the search wraps around, and the loop runs on at `heap_end`. -/
theorem HeapOk.rtMalloc_isSome (hmin : minSizeAligned ≤ h.memSizeAligned) (size : ℕ) :
    (h.rtMalloc size).isSome := by
  unfold Heap.rtMalloc
  split_ifs with hzero hlarge
  · rfl
  · rfl
  · have hmod := (blockSize_spec (rtAlign_mod size)).2
    have hn : blockSize (rtAlign size) ≤ h.memSizeAligned := by
      rw [blockSize_eq_max]
      omega
    rcases hok.mallocLoop_spec hn hok.lfree h.heapEnd_lt with ⟨hnone, -⟩ | ⟨a, ha, hsome, hf, -⟩
    · rw [hnone]
      rfl
    · rw [hsome]
      exact hok.mallocBlock_isSome ha hf hmod

theorem HeapOk.rtFree_isSome (ho : o ∈ usedBlocks h l) (hin : o + 12 < h.heapEnd) :
    (h.rtFree (h.heapPtr + o + 12)).isSome := by
  have ho4 := hok.aligned o ho.1
  have hbase := hok.ptrAligned
  obtain ⟨h', -, hfree, -⟩ := hok.freeBlock ho.1 ho.2.1
  unfold Heap.rtFree
  rw [if_neg (by omega), if_pos ⟨by omega, by omega, by omega⟩, headerOf_ptr,
    if_pos ⟨ho.2.2, hok.magic o ho.1⟩, hfree]
  rfl

theorem HeapOk.rtRealloc_isSome (ho : o ∈ usedBlocks h l)
    (hmin : minSizeAligned ≤ h.memSizeAligned) :
    (h.rtRealloc (h.heapPtr + o + 12) size).isSome := by
  have hsize := hok.sizeOf_eq ho.1 ho.2.1
  have hn := rtAlign_rtAlign size
  unfold Heap.rtRealloc
  rw [headerOf_ptr, if_neg (show ¬ h.heapPtr + o + 12 = 0 by omega)]
  split_ifs with hlarge hout
  · rfl
  · rfl
  · unfold reallocBlock
    split_ifs with hsame hsmall
    · rfl
    · simp only [sizeofStructMem, minSize] at hsmall
      obtain ⟨h', -, hsplit, -⟩ :=
        hok.reallocSplit (k := h.sizeOf o) ho (rtAlign_mod size) (by omega)
      rw [hsplit]
      rfl
    · -- a block is taken, and the old one can be released
      obtain ⟨⟨q, h₁⟩, hm⟩ := isSome_iff_exists.mp (hok.rtMalloc_isSome hmin (rtAlign size))
      obtain ⟨rfl, rfl⟩ | ⟨a, l₁, rfl, htakes⟩ := hok.rtMalloc hm
      · unfold Heap.reallocMove
        rw [hm]
        rfl
      · rw [hn] at htakes
        have hcopy := htakes.rtMemcpy (min_le_right (h.sizeOf o) (rtAlign size)) (o + 12)
        have hend : h.heapEnd = h₁.heapEnd := (heapEnd_congr htakes.area).symm
        rw [reallocMove_eq hm (heapPtr_congr htakes.area), isSome_map]
        refine hcopy.ok.rtFree_isSome ?_ (show o + 12 < h₁.heapEnd by omega)
        rw [hcopy.used]
        exact Set.mem_insert_of_mem _ ho

/-- `RT_NULL` is returned for want of room only, iff the search finds a block whenever one fits. -/
theorem HeapOk.rtMalloc_complete_iff (hpos : size ≠ 0) :
    (∀ h', h.rtMalloc size = some (0, h') →
        ∀ o ∈ h.headers, ¬ h.Fits (blockSize (rtAlign size)) o) ↔
      ((∃ o ∈ h.headers, h.Fits (blockSize (rtAlign size)) o) →
        h.Finds (blockSize (rtAlign size))) := by
  constructor
  · rintro hnull ⟨o, ho, hf⟩
    have hroom := hok.le_of_fits (hok.headers_eq ▸ ho) hf
    have hmin : minSizeAligned ≤ h.memSizeAligned := by
      rw [blockSize_eq_max] at hroom
      omega
    obtain ⟨⟨q, h'⟩, hm⟩ := isSome_iff_exists.mp (hok.rtMalloc_isSome hmin size)
    by_cases hq : q = 0
    · subst hq
      exact absurd hf (hnull h' hm o ho)
    · exact (hok.rtMalloc_iff.mp ⟨q, h', hm, hq⟩).2
  · rintro hfind h' hm o ho hf
    obtain ⟨q, h'', hm', hq⟩ := hok.rtMalloc_iff.mpr ⟨hpos, hfind ⟨o, ho, hf⟩⟩
    simp only [hm, some.injEq, Prod.mk.injEq] at hm'
    exact hq hm'.1.symm

end Heap

namespace MemSys

open Heap

/-! ## Completeness -/

/-- After any run, a `rt_malloc` that returns `RT_NULL` means that no unused block is large enough,
iff a block that is large enough comes with one that starts at `lfree` or later and below
`mem_size_aligned - size`. -/
theorem malloc_complete_iff {mem : ℕ → ℕ} {beginAddr endAddr : ℕ} {h₀ : Heap}
    (hinit : rtSystemHeapInit mem beginAddr endAddr = some h₀) {tr : List (MemOp × ℕ)}
    {s : MemSys} (hr : Run step ⟨h₀, []⟩ tr s) {size : ℕ} (hpos : 1 ≤ size) :
    (∀ h', s.heap.rtMalloc size = some (0, h') →
        ∀ o ∈ s.heap.headers, ¬ s.heap.Fits (max (rtAlign size) minSizeAligned) o) ↔
      ((∃ o ∈ s.heap.headers, s.heap.Fits (max (rtAlign size) minSizeAligned) o) →
        ∃ o ∈ s.heap.headers, s.heap.Fits (max (rtAlign size) minSizeAligned) o ∧
          s.heap.lfree ≤ o ∧
          o < s.heap.memSizeAligned - max (rtAlign size) minSizeAligned) := by
  obtain ⟨-, l, hok, -⟩ := ok_of_run hinit hr
  rw [← blockSize_eq_max]
  exact hok.rtMalloc_complete_iff (by omega)

theorem malloc_complete_sample :
    let s := ((exec step ⟨sampleHeap, []⟩ sampleOps).get sampleOps_possible).2
    ∀ h', s.heap.rtMalloc 24 = some (0, h') →
      ∀ o ∈ s.heap.headers, ¬ s.heap.Fits (max (rtAlign 24) minSizeAligned) o := by
  have hinit : rtSystemHeapInit (fun _ => 0) 4096 4296 = some sampleHeap := rfl
  exact (malloc_complete_iff hinit (Run.of_isSome sampleOps_possible) (by decide)).mpr
    fun _ => by decide +kernel

/-- The first one of two blocks is made smaller. -/
def shrinkOps : List MemOp := [.malloc 100, .malloc 40, .realloc 4108 4]

theorem shrinkOps_possible : (exec step ⟨sampleHeap, []⟩ shrinkOps).isSome := by
  decide

/-- A new heap does not give its one block away, and the space that `rt_realloc` leaves below
`lfree` is not found. -/
theorem malloc_misses_block :
    let s := ((exec step ⟨sampleHeap, []⟩ shrinkOps).get shrinkOps_possible).2
    rtSystemHeapInit (fun _ => 0) 4096 4296 = some sampleHeap ∧
      (sampleHeap.rtMalloc 176).map Prod.fst = some 0 ∧
      (∃ o ∈ sampleHeap.headers, sampleHeap.Fits (max (rtAlign 176) minSizeAligned) o) ∧
      (∃ tr, Run step ⟨sampleHeap, []⟩ tr s) ∧
      (s.heap.rtMalloc 20).map Prod.fst = some 0 ∧
      ∃ o ∈ s.heap.headers, s.heap.Fits (max (rtAlign 20) minSizeAligned) o :=
  ⟨rfl, by decide, by decide, ⟨_, Run.of_isSome shrinkOps_possible⟩,
    by decide, by decide⟩

/-! ## Termination -/

/-- After any run, the search of `rt_malloc` ends, unless the heap has less than `MIN_SIZE_ALIGNED`
bytes and the size, once it is rounded, is not larger. -/
theorem malloc_terminates_iff {mem : ℕ → ℕ} {beginAddr endAddr : ℕ} {h₀ : Heap}
    (hinit : rtSystemHeapInit mem beginAddr endAddr = some h₀) {tr : List (MemOp × ℕ)}
    {s : MemSys} (hr : Run step ⟨h₀, []⟩ tr s) (size : ℕ) :
    (size ≠ 0 → rtAlign size ≤ s.heap.memSizeAligned →
      ∃ fuel, (s.heap.mallocLoop (blockSize (rtAlign size)) fuel s.heap.lfree).isSome) ↔
    (size ≠ 0 → rtAlign size ≤ s.heap.memSizeAligned → minSizeAligned ≤ s.heap.memSizeAligned) := by
  obtain ⟨-, l, hok, -⟩ := ok_of_run hinit hr
  refine imp_congr_right fun _ => imp_congr_right fun hle => ?_
  rw [blockSize_eq_max]
  constructor
  · rintro ⟨fuel, hsome⟩
    by_contra hmin
    unfold minSizeAligned at hmin hsome
    rw [hok.mallocLoop_eq_none (by omega) (by omega) hok.lfree] at hsome
    cases hsome
  · intro hmin
    refine ⟨s.heap.rounds, ?_⟩
    obtain ⟨hnone, -⟩ | ⟨a, -, hsome, -⟩ :=
      hok.mallocLoop_spec (max_le hle hmin) hok.lfree s.heap.heapEnd_lt
    · rw [hnone]
      rfl
    · rw [hsome]
      rfl

theorem malloc_terminates_sample :
    let s := ((exec step ⟨sampleHeap, []⟩ sampleOps).get sampleOps_possible).2
    ∃ fuel, (s.heap.mallocLoop (blockSize (rtAlign 20)) fuel s.heap.lfree).isSome :=
  (malloc_terminates_iff (show rtSystemHeapInit (fun _ => 0) 4096 4296 = some sampleHeap from rfl)
    (Run.of_isSome sampleOps_possible) 20).mpr (fun _ _ => by decide_cbv) (by decide)
    (by decide_cbv)

/-- On a heap of four bytes, the search for one byte does not end. -/
theorem malloc_runs_on :
    ∃ h, rtSystemHeapInit (fun _ => 0) 4096 4124 = some h ∧ rtAlign 1 ≤ h.memSizeAligned ∧
      ∀ fuel, h.mallocLoop (blockSize (rtAlign 1)) fuel h.lfree = none := by
  have hinit : rtSystemHeapInit (fun _ => 0) 4096 4124 = some (initHeap (fun _ => 0) 4096 4) := rfl
  obtain ⟨l, hok, -⟩ := rtSystemHeapInit_ok hinit
  refine ⟨_, hinit, by decide, fun fuel => ?_⟩
  exact hok.mallocLoop_eq_none (by decide) (by decide) hok.lfree

/-! ## Released heaps -/

end MemSys

end RtThread
