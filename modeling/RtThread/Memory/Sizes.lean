import RtThread.Memory.HeapData
import RtThread.Memory.MemheapRuns

/-!
# Sizes at the end of the range

The allocators round sizes up in 32 bits. A size of more than `2 ^ 32 - 4` bytes
becomes 0, and the smallest block is taken for it; `rt_calloc` multiplies in 32
bits; and `rt_memheap_realloc` adds to the new size before it compares. Each of
these gives a client a block that is smaller than what it has asked for
(`sizes_insufficient`). For all other sizes the block is large enough.

* `sizes_sufficient_iff`: for each allocating function, when its result is large
  enough.
-/

namespace RtThread

open BlockChain Runs List Option Set

/-! ## `src/mem.c` -/

namespace Heap

variable {h h' : Heap} {l l' : List ℕ} {a n o p q size newsize : ℕ}

/-- The pointer `q` is that of a used block with room for `n` bytes, in a heap that is in order. -/
def Provides (h : Heap) (q n : ℕ) : Prop :=
  HeapOk h h.headers ∧ q ∈ h.livePtrs ∧ n ≤ h.payloadSize q

/-- There are no blocks at the end of the range. -/
theorem Provides.lt (hp : h.Provides q n) : n + 24 ≤ 2 ^ 32 := by
  obtain ⟨hok, ⟨o, ho, rfl⟩, hn⟩ := hp
  rw [payloadSize_ptrOf, hok.sizeOf_eq ho.1 ho.2.1] at hn
  have hend := (hok.payload ho.1 ho.2.1).2.1
  have hspace := hok.space
  omega

theorem HeapOk.provides (hok : HeapOk h l) (ha : a ∈ usedBlocks h l)
    (hroom : a + 12 + n ≤ h.next a) : h.Provides (h.heapPtr + a + 12) n := by
  obtain rfl := hok.headers_eq
  refine ⟨hok, ⟨a, ha, rfl⟩, ?_⟩
  rw [show h.heapPtr + a + 12 = ptrOf h.heapPtr a from rfl, payloadSize_ptrOf,
    hok.sizeOf_eq ha.1 ha.2.1]
  omega

theorem Takes.provides (ht : Takes h l a n h' l') : h'.Provides (h.heapPtr + a + 12) n := by
  rw [← heapPtr_congr ht.area]
  exact ht.ok.provides (ht.used ▸ mem_insert a _) ht.room

theorem Provides.mono {k : ℕ} (hp : h.Provides q n) (hk : k ≤ n) : h.Provides q k :=
  ⟨hp.1, hp.2.1, hk.trans hp.2.2⟩

theorem le_rtAlign (hsize : size + 3 < 2 ^ 32) : size ≤ rtAlign size := by
  unfold rtAlign
  omega

theorem rtAlign_eq_zero (hsize : size < 2 ^ 32) (hwrap : ¬ size + 3 < 2 ^ 32) :
    rtAlign size = 0 := by
  unfold rtAlign
  omega

/-- `rt_malloc` gives enough, iff the rounding does not wrap around or no block is found. -/
theorem HeapOk.rtMalloc_sufficient_iff (hok : HeapOk h l) (hsize : size < 2 ^ 32) :
    (∀ q h', h.rtMalloc size = some (q, h') → q ≠ 0 → h'.Provides q size) ↔
      size + 3 < 2 ^ 32 ∨ ¬ h.Finds (blockSize (rtAlign size)) := by
  constructor
  · intro hall
    by_contra hbad
    obtain ⟨hwrap, hfind⟩ := not_or.mp hbad
    obtain ⟨q, h', hm, hq⟩ := hok.rtMalloc_iff.mpr ⟨by omega, not_not.mp hfind⟩
    have := (hall q h' hm hq).lt
    omega
  · intro hgood q h' hm hq
    have hfind := (hok.rtMalloc_iff.mp ⟨q, h', hm, hq⟩).2
    rcases hok.rtMalloc hm with ⟨rfl, -⟩ | ⟨a, l', rfl, htakes⟩
    · exact absurd rfl hq
    · exact htakes.provides.mono (le_rtAlign (hgood.resolve_right (not_not.mpr hfind)))

/-- `rt_calloc` gives enough, iff neither the product nor its rounding wraps around, or no block is
found. -/
theorem HeapOk.rtCalloc_sufficient_iff (hok : HeapOk h l) (count size : ℕ) :
    (∀ q h', h.rtCalloc count size = some (q, h') → q ≠ 0 → h'.Provides q (count * size)) ↔
      count * size + 3 < 2 ^ 32 ∨ count * size % 2 ^ 32 = 0 ∨
        ¬ h.Finds (blockSize (rtAlign (count * size % 2 ^ 32))) := by
  unfold rtCalloc
  generalize count * size = k
  constructor
  · intro hall
    by_contra hbad
    obtain ⟨hwrap, hbad⟩ := not_or.mp hbad
    obtain ⟨hzero, hfind⟩ := not_or.mp hbad
    obtain ⟨q, h', hm, hq⟩ := hok.rtMalloc_iff.mpr ⟨hzero, not_not.mp hfind⟩
    rw [hm] at hall
    have := (hall q _ rfl hq).lt
    omega
  · intro hgood q h' hcalloc hq
    obtain ⟨⟨q, h₁⟩, hm, heq⟩ := map_eq_some_iff.mp hcalloc
    cases heq
    obtain ⟨hzero, hfind⟩ := hok.rtMalloc_iff.mp ⟨q, h₁, hm, hq⟩
    have hwrap : k + 3 < 2 ^ 32 := by tauto
    rw [Nat.mod_eq_of_lt (by omega)] at hm ⊢
    have hle := le_rtAlign hwrap
    rcases hok.rtMalloc hm with ⟨rfl, -⟩ | ⟨a, l', rfl, htakes⟩
    · exact absurd rfl hq
    · -- what is cleared is inside the block
      have hdst : h.heapPtr + a + 12 - h.heapPtr = a + 12 := by omega
      rw [heapPtr_congr htakes.area, hdst]
      have hclear : Takes h l a (rtAlign k) (h₁.rtMemset (a + 12) k) l' :=
        htakes.write fun w hw => by rw [if_neg (by omega), if_neg (by omega)]
      exact hclear.provides.mono hle

/-- A heap in order, whose used blocks start before `heap_end` does. -/
structure Sound (h : Heap) : Prop where
  ok : HeapOk h h.headers
  inner : ∀ p ∈ h.livePtrs, p < h.heapPtr + h.heapEnd

/-- What `rt_realloc` does with a size that has become 0: it keeps a block without payload, empties
one with space for another, and fails for those between. -/
theorem HeapOk.rtRealloc_zero (hok : HeapOk h l) (ho : o ∈ usedBlocks h l)
    (hin : o + 12 < h.heapEnd) (hzero : rtAlign newsize = 0) :
    (∃ q h', h.rtRealloc (h.heapPtr + o + 12) newsize = some (q, h') ∧ q ≠ 0) ↔
      h.sizeOf o = 0 ∨ 24 < h.sizeOf o := by
  have hsize := hok.sizeOf_eq ho.1 ho.2.1
  unfold Heap.rtRealloc
  rw [hzero, headerOf_ptr, if_neg (by omega), if_neg (by omega), if_neg (by omega)]
  unfold reallocBlock sizeofStructMem minSize
  split_ifs with hsame hsmall
  · exact ⟨fun _ => .inl hsame, fun _ => ⟨_, _, rfl, by omega⟩⟩
  · obtain ⟨h', -, hsplit, -⟩ := hok.reallocSplit (k := h.sizeOf o) (n := 0) ho rfl (by omega)
    rw [hsplit]
    exact ⟨fun _ => .inr (by omega), fun _ => ⟨_, _, rfl, by omega⟩⟩
  · constructor
    · rintro ⟨q, h', hr, hq⟩
      cases hr
      exact absurd rfl hq
    · omega

/-- `rt_realloc` gives enough, iff the rounding does not wrap around or it does not return a block.
-/
theorem Sound.rtRealloc_sufficient_iff (hs : Sound h) (hp : p = 0 ∨ p ∈ h.livePtrs)
    (hsize : newsize < 2 ^ 32) :
    (∀ q h', h.rtRealloc p newsize = some (q, h') → q ≠ 0 → h'.Provides q newsize) ↔
      newsize + 3 < 2 ^ 32 ∨ p = 0 ∨ (0 < h.payloadSize p ∧ h.payloadSize p ≤ 24) := by
  have hok := hs.ok
  rcases hp with rfl | hp
  · -- `rt_malloc` for the rounded size
    refine ⟨fun _ => .inr (.inl rfl), fun _ q h' hr hq => ?_⟩
    obtain ⟨rfl, -⟩ | hm := rtRealloc_null hr
    · exact absurd rfl hq
    · rcases hok.rtMalloc hm with ⟨rfl, -⟩ | ⟨a, l', rfl, htakes⟩
      · exact absurd rfl hq
      · rw [rtAlign_rtAlign] at htakes
        have hne : rtAlign newsize ≠ 0 := (hok.rtMalloc_iff.mp ⟨_, h', hm, hq⟩).1
        have hwrap : newsize + 3 < 2 ^ 32 := by
          by_contra hwrap
          exact hne (rtAlign_eq_zero hsize hwrap)
        exact htakes.provides.mono (le_rtAlign hwrap)
  · have hinner := hs.inner p hp
    obtain ⟨o, ho, rfl⟩ := hp
    have hin : o + 12 < h.heapEnd := by
      unfold ptrOf at hinner
      omega
    rw [payloadSize_ptrOf]
    constructor
    · intro hall
      by_contra hbad
      obtain ⟨hwrap, hbad⟩ := not_or.mp hbad
      obtain ⟨q, h', hr, hq⟩ :=
        (hok.rtRealloc_zero ho hin (rtAlign_eq_zero hsize hwrap)).mpr (by omega)
      have := (hall q h' hr hq).lt
      omega
    · intro hgood q h' hr hq
      have hwrap : newsize + 3 < 2 ^ 32 := by
        by_contra hwrap
        have := (hok.rtRealloc_zero ho hin (rtAlign_eq_zero hsize hwrap)).mp ⟨q, h', hr, hq⟩
        unfold ptrOf at hgood
        omega
      rcases hok.keeps_rtRealloc ho hr with ⟨rfl, -⟩ | ⟨a, rfl, -, -, hroom⟩
      · exact absurd rfl hq
      · obtain ⟨hnull, -⟩ | ⟨a', l', heq, hok', harea, -, hused⟩ := hok.rtRealloc ho hr
        · omega
        obtain rfl : a = a' := ptrOf_injective h.heapPtr heq
        have hprov := hok'.provides (hused ▸ mem_insert a _) (hroom hin)
        rw [heapPtr_congr harea] at hprov
        exact hprov.mono (le_rtAlign hwrap)

/-! ### Runs -/

/-- A block that `rt_malloc` returns has room for the smallest size. -/
theorem HeapOk.rtMalloc_inner (hok : HeapOk h l) (hm : h.rtMalloc size = some (q, h'))
    (hq : q ≠ 0) : q < h.heapPtr + h.heapEnd := by
  obtain ⟨rfl, -⟩ | ⟨-, a, hloop, hblock⟩ := rtMalloc_cases hm
  · exact absurd rfl hq
  · obtain ⟨ha, hfree, hfit⟩ := hok.mallocLoop hok.lfree hloop
    obtain ⟨l', rfl, htakes⟩ :=
      hok.mallocBlock ha hfree (blockSize_spec (rtAlign_mod size)).2 hfit hblock
    have hroom := htakes.room
    have hend := (htakes.ok.payload htakes.mem.1 htakes.mem.2).2.1
    rw [heapEnd_congr htakes.area] at hend
    rw [blockSize_eq_max] at hroom
    unfold minSizeAligned at hroom
    omega

/-- `rt_realloc` returns its block, or one from `rt_malloc`. -/
theorem HeapOk.rtRealloc_inner (hok : HeapOk h l)
    (hr : h.rtRealloc (h.heapPtr + o + 12) newsize = some (q, h')) (hq : q ≠ 0) :
    q = h.heapPtr + o + 12 ∨ q < h.heapPtr + h.heapEnd := by
  rcases rtRealloc_cases hr with ⟨rfl, -⟩ | ⟨hself, -⟩ | ⟨hself, -⟩ | hmove
  · exact absurd rfl hq
  · exact .inl hself
  · exact .inl hself
  · rcases hok.reallocMove_cases (rtAlign_rtAlign newsize) hmove with
      ⟨rfl, -⟩ | ⟨a, l₁, h₁, hm, -⟩
    · exact absurd rfl hq
    · exact .inr (hok.rtMalloc_inner hm hq)

end Heap

namespace MemSys

open Heap

variable {s s' : MemSys} {area : ℕ × ℕ} {q : ℕ}

/-- The clients' pointers are inside the heap. -/
def Inner (s : MemSys) : Prop := ∀ p ∈ s.live, p < s.heap.heapPtr + s.heap.heapEnd

/-- A pointer is added to some of those there are. -/
theorem Inner.add (hi : Inner s) (hs : Ok area s) (hs' : Ok area s')
    (hlive : ∀ p ∈ s'.live, p ∈ s.live ∨ (p = q ∧ q ≠ 0))
    (hq : q ≠ 0 → q < s.heap.heapPtr + s.heap.heapEnd) : Inner s' := by
  have harea : s'.heap.area = s.heap.area := hs'.1.trans hs.1.symm
  intro p hp
  rw [heapPtr_congr harea, heapEnd_congr harea]
  rcases hlive p hp with hold | ⟨rfl, hne⟩
  · exact hi p hold
  · exact hq hne

theorem Inner.step {op : MemOp} (hi : Inner s) (hs : Ok area s) (h : s.step op = some (q, s')) :
    Inner s' := by
  have hs' := hs.step h
  obtain ⟨rfl, l, hok, hl⟩ := id hs
  cases op with
  | malloc size =>
    obtain ⟨⟨r, h'⟩, hm, heq⟩ := map_eq_some_iff.mp h
    cases heq
    refine hi.add (q := q) hs hs' (fun p hp => ?_) (hok.rtMalloc_inner hm)
    split_ifs at hp with hq
    · exact .inl hp
    · exact (mem_cons.mp hp).elim (fun hpq => .inr ⟨hpq, hq⟩) .inl
  | free p =>
    rw [MemSys.step] at h
    split_ifs at h
    obtain ⟨h', hf, heq⟩ := map_eq_some_iff.mp h
    cases heq
    exact hi.add (q := 0) hs hs' (fun r hr => .inl (mem_of_mem_erase hr)) fun hz =>
      absurd rfl hz
  | realloc p newsize =>
    rw [MemSys.step] at h
    split_ifs at h with hp
    obtain ⟨⟨r, h'⟩, hr, heq⟩ := map_eq_some_iff.mp h
    cases heq
    refine hi.add (q := q) hs hs' (fun r hr => ?_) fun hq => ?_
    · split_ifs at hr with hq
      · exact .inl hr
      · exact (mem_cons.mp hr).elim (fun hrq => .inr ⟨hrq, hq⟩)
          fun hr => .inl (mem_of_mem_erase hr)
    · by_cases hp' : p ∈ s.live
      · obtain ⟨o, -, rfl⟩ := (hl.mem_iff p).mp hp'
        obtain rfl | hq' := hok.rtRealloc_inner hr hq
        · exact hi _ hp'
        · exact hq'
      · obtain rfl : p = 0 := hp.resolve_right hp'
        obtain ⟨rfl, -⟩ | hm := rtRealloc_null hr
        · exact absurd rfl hq
        · exact hok.rtMalloc_inner hm hq
  | store p i v =>
    rw [MemSys.step] at h
    split_ifs at h
    cases h
    exact hi

/-- After any run from `rt_system_heap_init` the heap is sound. -/
theorem sound_of_run {mem : ℕ → ℕ} {beginAddr endAddr : ℕ} {h₀ : Heap}
    (hinit : rtSystemHeapInit mem beginAddr endAddr = some h₀) {tr : List (MemOp × ℕ)}
    (hr : Run MemSys.step ⟨h₀, []⟩ tr s) : s.heap.Sound := by
  have hs : Ok h₀.area s ∧ Inner s :=
    hr.inv (I := fun s => Ok h₀.area s ∧ Inner s) ⟨ok_init hinit, by simp [Inner]⟩
      fun _ _ _ _ hs hstep => ⟨hs.1.step hstep, hs.2.step hs.1 hstep⟩
  obtain ⟨⟨harea, l, hok, hl⟩, hinner⟩ := hs
  obtain rfl := hok.headers_eq
  refine ⟨hok, ?_⟩
  rintro p ⟨o, ho, rfl⟩
  refine hinner _ ((hl.mem_iff _).mpr ⟨o, ho, ?_⟩)
  rw [← harea]
  rfl

end MemSys

/-! ## `src/memheap.c` -/

namespace Memheap

open Item

variable {h h' : Memheap} {l l' F F' : List ℕ} {a n p q size newsize : ℕ} {k : ℕ}

/-- The pointer `q` is that of a used block with room for `n` bytes, in a heap that is in order. -/
def Provides (h : Memheap) (q n : ℕ) : Prop :=
  ∃ l F, MemheapOk h l F ∧ ∃ a ∈ h.usedBlocks l, q = a + memheapSize ∧ n ≤ memitemSize h.mem a

/-- There are no blocks at the end of the range. -/
theorem Provides.lt (hp : h.Provides q n) : n + 72 ≤ 2 ^ 32 := by
  obtain ⟨l, F, hok, a, ha, -, hn⟩ := hp
  rw [hok.good.layout.memitemSize hok.pool ha.1 ha.2.1] at hn
  have hpay := hok.good.layout.payload ha.1 ha.2.1
  have hstart := hok.good.layout.startAddr_le ha.1
  have hend : h.tailer = h.startAddr + h.poolSize - 24 := rfl
  have hlt := poolSize_lt hok.pool
  omega

theorem provides_of_room (hok : MemheapOk h l F) (ha : a ∈ h.usedBlocks l)
    (hroom : a + 24 + n ≤ next h.mem a) : h.Provides (a + 24) n := by
  refine ⟨l, F, hok, a, ha, rfl, ?_⟩
  rw [hok.good.layout.memitemSize hok.pool ha.1 ha.2.1]
  omega

theorem Provides.mono (hp : h.Provides q n) (hk : k ≤ n) : h.Provides q k := by
  obtain ⟨l, F, hok, a, ha, hq, hn⟩ := hp
  exact ⟨l, F, hok, a, ha, hq, hk.trans hn⟩

theorem allocSize_pos : 0 < allocSize size := by
  have := (le_allocSize size).2
  omega

variable (hok : MemheapOk h l F)
include hok

/-- `rt_memheap_alloc` for an aligned size gives enough for `k` bytes, iff the aligned size is as
large or no block is found. -/
theorem allocItem_sufficient_iff (hn : 0 < n) (hk : k ≤ n ∨ 2 ^ 32 < k + 72) :
    (∀ q h', h.allocItem n = some (q, h') → q ≠ 0 → h'.Provides q k) ↔ k ≤ n ∨ ¬ h.Finds F n := by
  obtain ⟨q, h', halloc, hspec⟩ := allocItem_spec hok hn
  rw [halloc]
  rcases hspec with ⟨hfind, rfl, rfl⟩ | ⟨hfind, a, l', F', rfl, htakes⟩
  · refine ⟨fun _ => .inr hfind, fun _ q h' hq hne => ?_⟩
    cases hq
    exact absurd rfl hne
  · constructor
    · intro hall
      have := (hall _ _ rfl (by omega)).lt
      exact .inl (hk.resolve_right (by omega))
    · intro hgood q h'' hq hne
      cases hq
      have ha : a ∈ h'.usedBlocks l' := htakes.used ▸ mem_insert a _
      exact (provides_of_room htakes.ok ha htakes.room).mono
        (hgood.resolve_right (not_not.mpr hfind))

/-- `rt_memheap_alloc` gives enough, iff the rounding does not wrap around or no block is found. -/
theorem rtMemheapAlloc_sufficient_iff (hsize : size < 2 ^ 32) :
    (∀ q h', h.rtMemheapAlloc size = some (q, h') → q ≠ 0 → h'.Provides q size) ↔
      size + 3 < 2 ^ 32 ∨ ¬ h.Finds F (allocSize size) := by
  have hle : size ≤ allocSize size ↔ size + 3 < 2 ^ 32 := by
    unfold allocSize rtAlign memheapMinialloc
    split_ifs <;> omega
  rw [← hle]
  exact allocItem_sufficient_iff hok allocSize_pos (by omega)

/-- `rt_memheap_realloc` has `n` bytes for the pointer `p`. -/
def ServesPtr (h : Memheap) (F : List ℕ) (p n : ℕ) : Prop :=
  if p = 0 then h.Finds F n else h.Serves F (p - memheapSize) n

/-- For `RT_NULL`, `rt_memheap_realloc` is `rt_memheap_alloc`. -/
theorem realloc_null_sufficient_iff (hpos : newsize ≠ 0) (hsize : newsize < 2 ^ 32) :
    (∀ q h', h.rtMemheapRealloc 0 newsize = some (q, h') → q ≠ 0 → h'.Provides q newsize) ↔
      newsize + 15 < 2 ^ 32 ∨ ¬ h.Finds F (allocSize newsize) := by
  have hle : newsize ≤ allocSize newsize ↔ newsize + 3 < 2 ^ 32 := by
    unfold allocSize rtAlign memheapMinialloc
    split_ifs <;> omega
  -- a size that is found is far from the end of the range
  have hfind : h.Finds F (allocSize newsize) → allocSize newsize + 48 < 2 ^ 32 := by
    intro hf
    have havail := hf.1
    have hbytes := freeBytes_le_poolSize hok.pool hok.good.layout hok.good.tailer
    have hlt := poolSize_lt hok.pool
    have := hok.available
    omega
  unfold rtMemheapRealloc rtMemheapAlloc
  rw [if_neg hpos, if_pos rfl, allocSize_allocSize,
    allocItem_sufficient_iff hok allocSize_pos (by omega)]
  constructor
  · rintro (hsmall | hnone)
    · by_cases hf : h.Finds F (allocSize newsize)
      · have := hfind hf
        exact .inl (by omega)
      · exact .inr hf
    · exact .inr hnone
  · exact Or.imp_left fun hsmall => by omega

/-- `rt_memheap_realloc` gives enough, iff the size has its room below the end of the range or no
block is returned. -/
theorem rtMemheapRealloc_sufficient_iff (hp : p = 0 ∨ ∃ a ∈ h.usedBlocks l, p = a + memheapSize)
    (hsize : newsize < 2 ^ 32) :
    (∀ q h', h.rtMemheapRealloc p newsize = some (q, h') → q ≠ 0 → h'.Provides q newsize) ↔
      newsize = 0 ∨ newsize + 15 < 2 ^ 32 ∨ ¬ h.ServesPtr F p (allocSize newsize) := by
  by_cases hpos : newsize = 0
  · -- the block is released
    refine ⟨fun _ => .inl hpos, fun _ q h' hr hq => ?_⟩
    unfold rtMemheapRealloc at hr
    rw [if_pos hpos] at hr
    obtain ⟨h₁, -, heq⟩ := map_eq_some_iff.mp hr
    cases heq
    exact absurd rfl hq
  rw [or_iff_right hpos]
  rcases hp with rfl | ⟨a, ha, rfl⟩
  · exact realloc_null_sufficient_iff hok hpos hsize
  · obtain ⟨q, h', hr, hspec⟩ := reallocItem_spec hok ha (allocSize_allocSize newsize)
    unfold rtMemheapRealloc memheapSize
    rw [if_neg hpos, Nat.add_sub_cancel, hr]
    rcases hspec with ⟨hserves, rfl, rfl⟩ | ⟨hserves, hq, hgains⟩
    · refine ⟨fun _ => .inr hserves, fun _ q h' hq hne => ?_⟩
      cases hq
      exact absurd rfl hne
    · constructor
      · intro hall
        have := (hall q h' rfl hq).lt
        exact .inl (by omega)
      · intro hgood q' h'' heq hne
        cases heq
        have hsmall := hgood.resolve_right (not_not.mpr hserves)
        have hn : allocSize newsize + 12 < 2 ^ 32 := by
          unfold allocSize rtAlign memheapMinialloc
          split_ifs <;> omega
        obtain ⟨⟨b, l', F', rfl, hok', -, -, hused⟩, hroom⟩ := hgains hn
        exact (provides_of_room hok' (hused ▸ mem_insert b _) hroom).mono
          ((Heap.le_rtAlign (by omega)).trans (le_allocSize _).1)

end Memheap

/-! ## All allocating functions -/

/-- When the blocks that the allocating functions return are as large as it was
    asked for, on any heaps that are in order and for any 32-bit sizes:

    * `rt_malloc` and `rt_memheap_alloc`: iff the rounding of the size does not
      wrap around, or no block is found for the rounded size;
    * `rt_realloc`: iff the rounding does not wrap around, or there is no old block,
      or it has between 1 and 24 bytes;
    * `rt_calloc`: iff neither the product nor its rounding wraps around, or the
      product wraps around to 0, or no block is found for what it has become;
    * `rt_memheap_realloc`: iff the size is 0 (and the block released), or at least
      16 below `2 ^ 32`, or no block is returned for the rounded size. -/
theorem sizes_sufficient_iff {h : Heap} {g : Memheap} {l F : List ℕ} {p r size newsize : ℕ}
    (hs : h.Sound) (hg : MemheapOk g l F) (hp : p = 0 ∨ p ∈ h.livePtrs)
    (hr : r = 0 ∨ ∃ a ∈ g.usedBlocks l, r = a + memheapSize) (hsize : size < 2 ^ 32)
    (hnewsize : newsize < 2 ^ 32) (count : ℕ) :
    ((∀ q h', h.rtMalloc size = some (q, h') → q ≠ 0 → h'.Provides q size) ↔
      size + 3 < 2 ^ 32 ∨ ¬ h.Finds (Heap.blockSize (rtAlign size))) ∧
    ((∀ q h', h.rtRealloc p newsize = some (q, h') → q ≠ 0 → h'.Provides q newsize) ↔
      newsize + 3 < 2 ^ 32 ∨ p = 0 ∨ (0 < h.payloadSize p ∧ h.payloadSize p ≤ 24)) ∧
    ((∀ q h', h.rtCalloc count size = some (q, h') → q ≠ 0 → h'.Provides q (count * size)) ↔
      count * size + 3 < 2 ^ 32 ∨ count * size % 2 ^ 32 = 0 ∨
        ¬ h.Finds (Heap.blockSize (rtAlign (count * size % 2 ^ 32)))) ∧
    ((∀ q g', g.rtMemheapAlloc size = some (q, g') → q ≠ 0 → g'.Provides q size) ↔
      size + 3 < 2 ^ 32 ∨ ¬ g.Finds F (allocSize size)) ∧
    ((∀ q g', g.rtMemheapRealloc r newsize = some (q, g') → q ≠ 0 → g'.Provides q newsize) ↔
      newsize = 0 ∨ newsize + 15 < 2 ^ 32 ∨ ¬ g.ServesPtr F r (allocSize newsize)) :=
  ⟨hs.ok.rtMalloc_sufficient_iff hsize, hs.rtRealloc_sufficient_iff hp hnewsize,
    hs.ok.rtCalloc_sufficient_iff count size, Memheap.rtMemheapAlloc_sufficient_iff hg hsize,
    Memheap.rtMemheapRealloc_sufficient_iff hg hr hnewsize⟩

open MemSys MemheapSys

theorem sizes_sufficient_sample :
    let h := ((exec MemSys.step ⟨sampleHeap, []⟩ sampleOps).get sampleOps_possible).2.heap
    (∀ q h', h.rtMalloc 20 = some (q, h') → q ≠ 0 → h'.Provides q 20) ∧
    (∀ q h', h.rtRealloc 4156 60 = some (q, h') → q ≠ 0 → h'.Provides q 60) ∧
    (∀ q h', h.rtCalloc 2 20 = some (q, h') → q ≠ 0 → h'.Provides q (2 * 20)) ∧
    (∀ q g', sampleMemheap.rtMemheapAlloc 20 = some (q, g') → q ≠ 0 → g'.Provides q 20) ∧
    ∀ q g', sampleMemheap.rtMemheapRealloc 0 60 = some (q, g') → q ≠ 0 → g'.Provides q 60 := by
  intro h
  have hinit : Heap.rtSystemHeapInit (fun _ => 0) 4096 4296 = some sampleHeap := rfl
  have hs := sound_of_run hinit (Run.of_isSome sampleOps_possible)
  have hlive : 4156 ∈ h.livePtrs :=
    ⟨48, ⟨by decide +kernel, by decide +kernel, by decide +kernel⟩, by decide +kernel⟩
  have hP : sampleMemheap.toPool.Ok := ⟨by decide, by decide, by decide, by decide⟩
  obtain ⟨l, F, hg, -⟩ := init_ok hP
  have hsize : 20 < 2 ^ 32 := by norm_num
  have hnewsize : 60 < 2 ^ 32 := by norm_num
  obtain ⟨hmalloc, hrealloc, hcalloc, halloc, hrealloc'⟩ :=
    sizes_sufficient_iff hs hg (.inr hlive) (.inl rfl) hsize hnewsize 2
  exact ⟨hmalloc.mpr (.inl (by norm_num)), hrealloc.mpr (.inl (by norm_num)),
    hcalloc.mpr (.inl (by norm_num)), halloc.mpr (.inl (by norm_num)),
    hrealloc'.mpr (.inr (.inl (by norm_num)))⟩

/-- A call returns a pointer, and no heap has what was asked for there. -/
theorem exists_insufficient {H : Type} {provides : H → ℕ → Prop} {x : Option (ℕ × H)} {q : ℕ}
    (hx : x.map Prod.fst = some q) (hq : q ≠ 0) (hno : ∀ h', ¬ provides h' q) :
    ∃ q h', x = some (q, h') ∧ q ≠ 0 ∧ ¬ provides h' q := by
  obtain ⟨⟨q, h'⟩, rfl, rfl⟩ := map_eq_some_iff.mp hx
  exact ⟨q, h', rfl, hq, hno h'⟩

/-- A block of 100 bytes. -/
theorem malloc_possible : (sampleHeap.rtMalloc 100).isSome := by decide

/-- A block of 20 bytes, with a free one behind it. -/
theorem alloc_possible : (sampleMemheap.rtMemheapAlloc 20).isSome := by decide

/-- Sizes that are too large for their arithmetic: the smallest block is returned for nearly `2 ^
32` bytes and for `2 ^ 32 + 4`, blocks are emptied and made smaller that should become larger, and
the last call overwrites the header of its block. -/
theorem sizes_insufficient :
    let h := ((sampleHeap.rtMalloc 100).get malloc_possible).2
    let g := ((sampleMemheap.rtMemheapAlloc 20).get alloc_possible).2
    (∃ q h', sampleHeap.rtMalloc 4294967295 = some (q, h') ∧ q ≠ 0 ∧ ¬ h'.Provides q 4294967295) ∧
    (∃ q h', h.rtRealloc 4108 4294967295 = some (q, h') ∧ q ≠ 0 ∧ ¬ h'.Provides q 4294967295) ∧
    (∃ q h', sampleHeap.rtCalloc 1073741825 4 = some (q, h') ∧ q ≠ 0 ∧
      ¬ h'.Provides q (1073741825 * 4)) ∧
    (∃ q g', sampleMemheap.rtMemheapAlloc 4294967295 = some (q, g') ∧ q ≠ 0 ∧
      ¬ g'.Provides q 4294967295) ∧
    (∃ q g', g.rtMemheapRealloc 4120 4294967295 = some (q, g') ∧ q ≠ 0 ∧
      ¬ g'.Provides q 4294967295) ∧
    ∃ q g', g.rtMemheapRealloc 4120 4294967281 = some (q, g') ∧ q ≠ 0 ∧
      ¬ g'.Provides q 4294967281 := by
  have hmem : ∀ n, 2 ^ 32 < n + 24 → ∀ (h' : Heap) q, ¬ h'.Provides q n :=
    fun n hn h' q hp => absurd hp.lt (by omega)
  have hmemheap : ∀ n, 2 ^ 32 < n + 72 → ∀ (g' : Memheap) q, ¬ g'.Provides q n :=
    fun n hn g' q hp => absurd hp.lt (by omega)
  refine ⟨exists_insufficient (q := 4108) (by decide) (by decide) ?_,
    exists_insufficient (q := 4108) (by decide) (by decide) ?_,
    exists_insufficient (q := 4108) (by decide) (by decide) ?_,
    exists_insufficient (q := 4120) (by decide) (by decide) ?_,
    exists_insufficient (q := 4120) (by decide) (by decide) ?_,
    exists_insufficient (q := 4120) (by decide) (by decide) ?_⟩
  · exact fun h' => hmem _ (by norm_num) h' _
  · exact fun h' => hmem _ (by norm_num) h' _
  · exact fun h' => hmem _ (by norm_num) h' _
  · exact fun g' => hmemheap _ (by norm_num) g' _
  · exact fun g' => hmemheap _ (by norm_num) g' _
  · exact fun g' => hmemheap _ (by norm_num) g' _

end RtThread
