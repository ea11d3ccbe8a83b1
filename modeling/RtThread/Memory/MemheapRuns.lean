import RtThread.Memory.MemheapCalls

/-!
# Runs of a memory heap

A heap that `rt_memheap_init` has made satisfies the invariant, and the calls of
the clients keep it. The clients' pointers are those of the used blocks.
-/

namespace RtThread

open BlockChain CircularList Item Runs List Set

/-! ## `rt_memheap_init` -/

namespace Item

variable {m : ℕ → ℕ} {a o : ℕ}

theorem item_setItem {f : Fields} (h : Apart 24 o a) :
    item (setItem m a f.magic f.poolPtr f.next f.prev f.nextFree f.prevFree) o =
      if o = a then f else item m o := by
  unfold setItem
  rw [item_setPrevFree h, item_setNextFree h, item_setPrev h, item_setNext h, item_setPoolPtr h,
    item_setMagic h]
  split_ifs <;> rfl

end Item

section Init

variable {mem : ℕ → ℕ} {memheap freeHeader startAddr size : ℕ}

/-- The three headers of a new heap. -/
theorem initMem_items (mem : ℕ → ℕ) (memheap : ℕ) {tailer : ℕ} {T : Set ℕ} (hT : Sep T)
    (hf : freeHeader ∈ T) (hs : startAddr ∈ T) (ht : tailer ∈ T) (hfs : freeHeader ≠ startAddr)
    (hft : freeHeader ≠ tailer) (hst : startAddr ≠ tailer) :
    item (initMem mem memheap freeHeader startAddr tailer) freeHeader =
        ⟨memheapMagic, memheap, 0, 0, startAddr, startAddr⟩ ∧
      item (initMem mem memheap freeHeader startAddr tailer) startAddr =
        ⟨memheapMagic, memheap, tailer, tailer, freeHeader, freeHeader⟩ ∧
      item (initMem mem memheap freeHeader startAddr tailer) tailer =
        ⟨memheapMagic + 1, memheap, startAddr, startAddr, 0, 0⟩ := by
  unfold initMem
  dsimp only
  -- the header of the free list and the first block
  set m₁ := setItem mem freeHeader memheapMagic memheap 0 0 freeHeader freeHeader
  have h₁ : item m₁ freeHeader = ⟨memheapMagic, memheap, 0, 0, freeHeader, freeHeader⟩ :=
    (item_setItem (f := ⟨memheapMagic, memheap, 0, 0, freeHeader, freeHeader⟩) (hT _ hf _ hf)).trans
      (if_pos rfl)
  set m₂ := setItem m₁ startAddr memheapMagic memheap 0 0 startAddr startAddr
  have h₂ : ∀ o ∈ T, item m₂ o =
      if o = startAddr then ⟨memheapMagic, memheap, 0, 0, startAddr, startAddr⟩ else item m₁ o :=
    fun o ho => item_setItem (f := ⟨memheapMagic, memheap, 0, 0, startAddr, startAddr⟩)
      (hT _ ho _ hs)
  have h₂next : next (setNext m₂ startAddr tailer) startAddr = tailer := by
    refine (congrArg Fields.next (item_setNext (hT _ hs _ hs))).trans ?_
    exact if_pos rfl
  rw [h₂next]
  set m₄ := setPrev (setNext m₂ startAddr tailer) startAddr tailer
  have h₄ : ∀ o ∈ T, item m₄ o =
      { item m₂ o with
        next := if o = startAddr then tailer else (item m₂ o).next
        prev := if o = startAddr then tailer else (item m₂ o).prev } := by
    intro o ho
    rw [item_setPrev (hT _ ho _ hs), item_setNext (hT _ ho _ hs)]
  have h₄f : item m₄ freeHeader = ⟨memheapMagic, memheap, 0, 0, freeHeader, freeHeader⟩ := by
    simp only [h₄ _ hf, h₂ _ hf, if_neg hfs, h₁]
  have h₄s : item m₄ startAddr = ⟨memheapMagic, memheap, tailer, tailer, startAddr, startAddr⟩ := by
    simp only [h₄ _ hs, h₂ _ hs, if_true]
  -- the free list
  have hnextFree : nextFree m₄ freeHeader = freeHeader := congrArg Fields.nextFree h₄f
  set m₅ := insertFree m₄ startAddr freeHeader
  have h₅ : ∀ o ∈ T, item m₅ o =
      { item m₄ o with
        nextFree := if o = freeHeader then startAddr
          else if o = startAddr then freeHeader else (item m₄ o).nextFree
        prevFree := if o = freeHeader then startAddr
          else if o = startAddr then freeHeader else (item m₄ o).prevFree } := by
    intro o ho
    rw [item_insertFree hT hs hf (by rw [hnextFree]; exact hf) (Ne.symm hfs) ho, hnextFree]
  have h₅next : next m₅ startAddr = tailer := by
    refine (congrArg Fields.next (h₅ _ hs)).trans ?_
    exact congrArg Fields.next h₄s
  rw [h₅next, show memheapMagic ||| memheapUsed = memheapMagic + 1 from rfl]
  have h₆ : ∀ o ∈ T,
      item (setItem m₅ tailer (memheapMagic + 1) memheap startAddr startAddr 0 0) o =
        if o = tailer then ⟨memheapMagic + 1, memheap, startAddr, startAddr, 0, 0⟩
        else item m₅ o :=
    fun o ho => item_setItem (f := ⟨memheapMagic + 1, memheap, startAddr, startAddr, 0, 0⟩)
      (hT _ ho _ ht)
  refine ⟨?_, ?_, ?_⟩
  · simp only [h₆ _ hf, if_neg hft, h₅ _ hf, h₄f, if_true]
  · simp only [h₆ _ hs, if_neg hst, h₅ _ hs, h₄s, if_neg (Ne.symm hfs), if_true]
  · rw [h₆ _ ht, if_pos rfl]

/-- The new heap is one free block and the tailer. -/
theorem init_ok (hP : (rtMemheapInit mem memheap freeHeader startAddr size).toPool.Ok) :
    ∃ l F, MemheapOk (rtMemheapInit mem memheap freeHeader startAddr size) l F ∧
      (rtMemheapInit mem memheap freeHeader startAddr size).usedBlocks l = ∅ := by
  set h := rtMemheapInit mem memheap freeHeader startAddr size
  have hsize := hP.size
  have hheader := hP.header
  have hlt := Memheap.poolSize_lt hP
  have htailer : h.tailer = h.startAddr + h.poolSize - 24 := rfl
  have havail : h.availableSize = h.poolSize - 48 := by
    show sub32 h.poolSize 48 = _
    rw [sub32_of_le hsize (by omega)]
  have hmax : h.maxUsedSize = 48 := by
    show sub32 h.poolSize h.availableSize = 48
    rw [sub32_of_le (by omega) (by omega)]
    omega
  have hmem : h.mem = initMem mem h.memheap h.freeHeader h.startAddr h.tailer := by
    have : h.startAddr + h.availableSize + 24 = h.tailer := by omega
    rw [← this]
    rfl
  have hT : Sep {h.freeHeader, h.startAddr, h.tailer} := by
    intro a ha b hb
    simp only [mem_insert_iff, mem_singleton_iff] at ha hb
    unfold Apart
    omega
  obtain ⟨hf, hs, ht⟩ := initMem_items mem h.memheap hT (.inl rfl) (.inr (.inl rfl))
    (.inr (.inr rfl)) (by omega) (by omega) (by omega)
  rw [← hmem] at hf hs ht
  have hnexts : next h.mem h.startAddr = h.tailer := congrArg Fields.next hs
  have hfrees : Free h.mem h.startAddr := congrArg Fields.magic hs
  have hmagict : magic h.mem h.tailer = memheapMagic + 1 := congrArg Fields.magic ht
  have hfreet : ¬ Free h.mem h.tailer := by
    unfold Free
    omega
  have hlayout : Layout h.toPool (headers h.toPool [h.startAddr, h.tailer]) h.mem
      [h.startAddr, h.tailer] [h.startAddr] :=
    { sep := by
        intro a ha b hb
        simp only [headers, mem_cons, not_mem_nil, or_false, mem_ofPred_eq] at ha hb
        exact hT a (by simpa using ha) b (by simpa using hb)
      root := .inl rfl
      blocks := fun o ho => .inr ho
      free := fun o ho => .inr (by simp at ho; simp [ho])
      head := rfl
      last := rfl
      chain := isChain_pair.mpr ⟨hnexts, by omega, fun _ => congrArg Fields.prev ht⟩
      closedNext := congrArg Fields.next ht
      closedPrev := congrArg Fields.prev hs
      poolPtr := by
        intro o ho
        rcases mem_pair.mp ho with rfl | rfl
        · exact congrArg Fields.poolPtr hs
        · exact congrArg Fields.poolPtr ht
      ring :=
        { links := IsChain.cons_cons
            ⟨congrArg Fields.nextFree hf, congrArg Fields.prevFree hs⟩
            (isChain_pair.mpr ⟨congrArg Fields.nextFree hs, congrArg Fields.prevFree hf⟩)
          nodup := by
            simp
            omega } }
  refine ⟨_, _, ⟨hP, ⟨hlayout, ?_, hfreet, ?_, ?_⟩, ?_, ?_⟩, ?_⟩
  · intro o ho
    rcases mem_pair.mp ho with rfl | rfl
    · exact .inl hfrees
    · exact .inr hmagict
  · intro o
    simp only [mem_cons, not_mem_nil, or_false]
    constructor
    · rintro rfl
      exact ⟨.inl rfl, hfrees⟩
    · rintro ⟨rfl | rfl, ho⟩
      · rfl
      · exact absurd ho hfreet
  · exact isChain_pair.mpr fun hx => hfreet hx.2
  · have hws : weight h.mem h.startAddr = h.tailer - h.startAddr - 24 := by
      rw [weight, if_pos hfrees, hnexts]
    have hwt : weight h.mem h.tailer = 0 := if_neg hfreet
    simp only [freeBytes, map_cons, map_nil, sum_cons, sum_nil, hws, hwt]
    omega
  · omega
  · ext o
    simp only [Memheap.usedBlocks, Pool.usedBlocks, mem_ofPred_eq, mem_cons,
      not_mem_nil, or_false, mem_empty_iff_false, iff_false]
    rintro ⟨rfl | rfl, hne, ho⟩
    · exact ho hfrees
    · exact hne rfl

end Init

/-! ## Runs -/

namespace MemheapSys

open Memheap

variable {s s' : MemheapSys} {P : Pool} {q : ℕ}

/-- The pool is the one that was given, its heap is in order, and the clients have its used blocks.
-/
def Ok (P : Pool) (s : MemheapSys) : Prop :=
  s.heap.toPool = P ∧ ∃ l F, MemheapOk s.heap l F ∧ Live (· + 24) (s.heap.usedBlocks l) s.live

theorem ok_of_gains {U : Set ℕ} {live : List ℕ} {h' : Memheap} (hg : Gains P U q h')
    (hl : Live (· + 24) U live) : q ≠ 0 ∧ Ok P ⟨h', q :: live⟩ := by
  obtain ⟨a, l', F', rfl, hok, hpool, ha, hused⟩ := hg
  refine ⟨by omega, hpool, l', F', hok, ?_⟩
  rw [hused]
  exact hl.cons (add_left_injective 24) ha

section

variable (hs : Ok P s) {op : MemheapOp}
include hs

theorem Ok.alloc {size : ℕ} : ∃ q s', s.call (.alloc size) = some (q, s') ∧ Ok P s' := by
  obtain ⟨rfl, l, F, hok, hl⟩ := hs
  have hpos : 0 < allocSize size := by
    have := (le_allocSize size).2
    omega
  obtain ⟨q, h', halloc, hspec⟩ := allocItem_spec hok hpos
  unfold call rtMemheapAlloc
  dsimp only
  rw [halloc]
  refine ⟨_, _, rfl, ?_⟩
  rcases hspec with ⟨-, rfl, rfl⟩ | ⟨-, a, l', F', rfl, ht⟩
  · exact ⟨rfl, l, F, hok, hl⟩
  · obtain ⟨hne, hok'⟩ := ok_of_gains ⟨a, l', F', rfl, ht.ok, ht.pool, ht.fresh, ht.used⟩ hl
    exact hok'

theorem Ok.free {p : ℕ} (hp : p ∈ s.live) : ∃ q s', s.call (.free p) = some (q, s') ∧ Ok P s' := by
  obtain ⟨rfl, l, F, hok, hl⟩ := hs
  obtain ⟨a, ha, rfl⟩ := (hl.mem_iff p).mp hp
  obtain ⟨h', l', F', hfree, hok', hpool, hused, -⟩ := rtMemheapFree_spec hok ha
  unfold call
  dsimp only
  rw [hfree]
  refine ⟨_, _, rfl, hpool, l', F', hok', ?_⟩
  rw [hused]
  exact hl.erase (add_left_injective 24)

theorem Ok.realloc {p newsize : ℕ} (hp : p ∈ s.live) (hle : newsize ≤ s.heap.poolSize) :
    ∃ q s', s.call (.realloc p newsize) = some (q, s') ∧ Ok P s' := by
  obtain ⟨rfl, l, F, hok, hl⟩ := hs
  obtain ⟨a, ha, rfl⟩ := (hl.mem_iff p).mp hp
  have herase := hl.erase (a := a) (add_left_injective 24)
  obtain ⟨q, h', hr, hspec⟩ := rtMemheapRealloc_spec hok ha hle
  unfold call
  dsimp only
  rw [hr]
  refine ⟨_, _, rfl, ?_⟩
  rcases hspec with ⟨hn, rfl, l', F', hok', hpool, hused⟩ | ⟨hn, rfl, rfl⟩ | hg
  · rw [if_pos hn]
    refine ⟨hpool, l', F', hok', ?_⟩
    rw [hused]
    exact herase
  · rw [if_neg hn]
    exact ⟨rfl, l, F, hok, hl⟩
  · obtain ⟨hne, hok'⟩ := ok_of_gains hg herase
    rw [if_pos hne]
    exact hok'

theorem Ok.store {p i v : ℕ} (hp : p ∈ s.live)
    (hi : p + 4 * i + 4 ≤ next s.heap.mem (p - memheapSize)) :
    ∃ q s', s.call (.store p i v) = some (q, s') ∧ Ok P s' := by
  obtain ⟨rfl, l, F, hok, hl⟩ := hs
  obtain ⟨a, ha, rfl⟩ := (hl.mem_iff p).mp hp
  rw [memheapSize, Nat.add_sub_cancel] at hi
  have hout : ∀ w, w < a + 24 ∨ next s.heap.mem a ≤ w →
      setField s.heap.mem (a + 24) i v w = s.heap.mem w :=
    fun w hw => setField_of_outside (d := next s.heap.mem a - (a + 24)) (by omega) (by omega)
  obtain ⟨hok', hused⟩ := ok_write hok ha.1 ha.2.1 hout
  refine ⟨_, _, rfl, rfl, l, F, hok', ?_⟩
  rw [hused]
  exact hl

/-- Every allowed call returns and keeps the invariant. -/
theorem Ok.call (hop : s.Allowed op) : ∃ q s', s.call op = some (q, s') ∧ Ok P s' := by
  cases op with
  | alloc size => exact hs.alloc
  | free p => exact hs.free hop
  | realloc p newsize => exact hs.realloc hop.1 hop.2
  | store p i v => exact hs.store hop.1 hop.2

theorem Ok.step (h : s.step op = some (q, s')) : Ok P s' := by
  unfold MemheapSys.step at h
  split_ifs at h with hop
  obtain ⟨r, t, hcall, ht⟩ := hs.call hop
  rw [hcall] at h
  cases h
  exact ht

theorem Ok.step_isSome (hop : s.Allowed op) : (s.step op).isSome := by
  obtain ⟨r, t, hcall, -⟩ := hs.call hop
  rw [MemheapSys.step, if_pos hop, hcall]
  rfl

end

theorem ok_init {mem : ℕ → ℕ} {memheap freeHeader startAddr size : ℕ}
    (hP : (rtMemheapInit mem memheap freeHeader startAddr size).toPool.Ok) :
    Ok (rtMemheapInit mem memheap freeHeader startAddr size).toPool
      ⟨rtMemheapInit mem memheap freeHeader startAddr size, []⟩ := by
  obtain ⟨l, F, hok, hused⟩ := init_ok hP
  refine ⟨rfl, l, F, hok, ?_⟩
  rw [hused]
  exact live_nil

/-- `available_size` is the sum of `MEMITEM_SIZE` over the free list. -/
theorem availableSize_eq {h : Memheap} {l F : List ℕ} (hok : MemheapOk h l F) :
    h.availableSize = (F.map (memitemSize h.mem)).sum := by
  rw [hok.available, ← hok.good.sum_free]
  refine congrArg sum (map_congr_left fun o ho => ?_)
  obtain ⟨hol, hfree⟩ := (hok.good.mem_free o).mp ho
  refine (hok.good.layout.memitemSize hok.pool hol ?_).symm
  rintro rfl
  exact hok.good.tailer hfree

/-- After every run of a heap made by `rt_memheap_init`: every call that is allowed returns; the
block list `l` is circular and tiles the pool up to the tailer; the free list `F` is circular and
consists of the blocks whose used bit is clear, no two of them neighbours; and `available_size` and
`max_used_size` account for them. -/
theorem memheap_invariant {mem : ℕ → ℕ} {memheap freeHeader startAddr size : ℕ}
    {tr : List (MemheapOp × ℕ)}
    (hP : (rtMemheapInit mem memheap freeHeader startAddr size).toPool.Ok)
    (hr : Run MemheapSys.step ⟨rtMemheapInit mem memheap freeHeader startAddr size, []⟩ tr s) :
    s.heap.toPool = (rtMemheapInit mem memheap freeHeader startAddr size).toPool ∧
    (∀ op, s.Allowed op → (s.step op).isSome) ∧
    ∃ l F : List ℕ,
      l.head? = some s.heap.startAddr ∧ l.getLast? = some s.heap.tailer ∧
      l.IsChain (fun a b => next s.heap.mem a = b ∧ prev s.heap.mem b = a ∧ a + memheapSize ≤ b) ∧
      next s.heap.mem s.heap.tailer = s.heap.startAddr ∧
      prev s.heap.mem s.heap.startAddr = s.heap.tailer ∧
      IsUsed s.heap.mem s.heap.tailer ∧
      (s.heap.freeHeader :: (F ++ [s.heap.freeHeader])).IsChain
        (fun a b => nextFree s.heap.mem a = b ∧ prevFree s.heap.mem b = a) ∧
      F.Nodup ∧
      (∀ o, o ∈ F ↔ o ∈ l ∧ ¬ IsUsed s.heap.mem o) ∧
      l.IsChain (fun a b => ¬ (¬ IsUsed s.heap.mem a ∧ ¬ IsUsed s.heap.mem b)) ∧
      s.heap.availableSize = (F.map (memitemSize s.heap.mem)).sum ∧
      s.heap.poolSize - s.heap.availableSize ≤ s.heap.maxUsedSize := by
  have hs : Ok _ s := hr.inv (ok_init hP) fun _ _ _ _ hs hstep => hs.step hstep
  obtain ⟨hpool, l, F, hok, -⟩ := id hs
  have hused : ∀ o ∈ l, ¬ IsUsed s.heap.mem o ↔ Free s.heap.mem o :=
    fun o ho => not_isUsed_iff hok.good.marked ho
  have hlay := hok.good.layout
  refine ⟨hpool, fun op hop => hs.step_isSome hop, l, F, hlay.head, hlay.last, ?_,
    hlay.closedNext, hlay.closedPrev, ?_, hlay.ring.links, hok.good.nodup, ?_, ?_,
    availableSize_eq hok, ?_⟩
  · exact hlay.chain.imp fun a b hab => ⟨hab.1, hab.2.2 trivial, hab.2.1⟩
  · exact (isUsed_iff hok.good.marked hlay.tailer_mem).mpr hok.good.tailer
  · intro o
    rw [hok.good.mem_free]
    exact and_congr_right fun ho => (hused o ho).symm
  · refine hok.good.alternating.imp_of_mem_imp fun a b ha hb hab => ?_
    rw [hused a ha, hused b hb]
    exact hab
  · have hmax := hok.maxUsed
    omega

/-- A pool of 400 bytes at address 4096, of a heap object at address 1000. -/
def sampleMemheap : Memheap := rtMemheapInit (fun _ => 0) 1000 1044 4096 402

/-- Three blocks; the second one is released, the first one grows into it, the last one becomes
smaller, and the first one is moved. -/
def sampleMemheapOps : List MemheapOp :=
  [.alloc 20, .alloc 60, .alloc 50, .store 4120 4 7, .free 4164, .realloc 4120 40,
    .realloc 4248 12, .realloc 4120 100, .alloc 1000, .free 4248]

theorem sampleMemheapOps_possible :
    (exec MemheapSys.step ⟨sampleMemheap, []⟩ sampleMemheapOps).isSome := by
  decide +kernel

theorem memheap_invariant_sample :
    let s := ((exec MemheapSys.step ⟨sampleMemheap, []⟩ sampleMemheapOps).get
      sampleMemheapOps_possible).2
    s.live = [4284] ∧ ∃ l F : List ℕ,
      l.head? = some s.heap.startAddr ∧ l.getLast? = some s.heap.tailer ∧
      F.Nodup ∧ (∀ o, o ∈ F ↔ o ∈ l ∧ ¬ IsUsed s.heap.mem o) ∧
      s.heap.availableSize = (F.map (memitemSize s.heap.mem)).sum := by
  have hP : sampleMemheap.toPool.Ok := ⟨by decide, by decide, by decide, by decide⟩
  obtain ⟨-, -, l, F, hhead, hlast, -, -, -, -, -, hnd, hmem, -, havail, -⟩ :=
    memheap_invariant hP (Run.of_isSome sampleMemheapOps_possible)
  exact ⟨by decide +kernel, l, F, hhead, hlast, hnd, hmem, havail⟩

/-! ## Complete allocation -/

/-- `rt_memheap_alloc` returns `RT_NULL` for want of a block only, if and only if no block is all
that is free and has just the size that is asked for. -/
theorem alloc_complete_iff {h : Memheap} {l F : List ℕ} (hok : MemheapOk h l F) (size : ℕ) :
    (∀ h', h.rtMemheapAlloc size = some (0, h') → ∀ o ∈ F, memitemSize h.mem o < allocSize size) ↔
      ∀ o ∈ F, memitemSize h.mem o = h.availableSize → allocSize size ≠ h.availableSize := by
  have hpos := (le_allocSize size).2
  have hle : ∀ o ∈ F, memitemSize h.mem o ≤ h.availableSize := fun o ho => by
    rw [availableSize_eq hok]
    exact le_sum_of_mem (mem_map_of_mem ho)
  obtain ⟨q, h', halloc, hspec⟩ := allocItem_spec hok (show 0 < allocSize size by omega)
  have heq : h.rtMemheapAlloc size = some (q, h') := halloc
  constructor
  · intro hnull o ho hall hsize
    obtain ⟨-, rfl, -⟩ | ⟨hfinds, -⟩ := hspec
    · have := hnull h' heq o ho
      omega
    · have := hfinds.1
      omega
  · intro hall h'' hnull o ho
    rw [heq] at hnull
    cases hnull
    obtain ⟨hfinds, -⟩ | ⟨-, a, l', F', hq, -⟩ := hspec
    · by_contra hfit
      have := hle o ho
      have := hall o ho
      exact hfinds ⟨by omega, o, ho, by omega⟩
    · omega

theorem sampleMemheap_ok : ∃ l F, MemheapOk sampleMemheap l F := by
  obtain ⟨l, F, hok, -⟩ := init_ok
    (show sampleMemheap.toPool.Ok from ⟨by decide, by decide, by decide, by decide⟩)
  exact ⟨l, F, hok⟩

theorem alloc_complete_sample :
    ∃ l F, MemheapOk sampleMemheap l F ∧ ∀ h', sampleMemheap.rtMemheapAlloc 360 = some (0, h') →
      ∀ o ∈ F, memitemSize sampleMemheap.mem o < 360 := by
  obtain ⟨l, F, hok⟩ := sampleMemheap_ok
  exact ⟨l, F, hok, (alloc_complete_iff hok 360).mpr fun _ _ _ => by decide⟩

/-- A new heap does not give its one block away. -/
theorem alloc_misses_block :
    ∃ l F, MemheapOk sampleMemheap l F ∧ 4096 ∈ F ∧ memitemSize sampleMemheap.mem 4096 = 352 ∧
      (sampleMemheap.rtMemheapAlloc 352).map Prod.fst = some 0 := by
  obtain ⟨l, F, hok⟩ := sampleMemheap_ok
  have hmem := mem_of_mem_head? hok.good.layout.head
  exact ⟨l, F, hok, (hok.good.mem_free _).mpr ⟨hmem, by decide⟩, by decide,
    by decide⟩

end MemheapSys

end RtThread
