import RtThread.Memory.MemheapEdits

/-!
# Calls of a memory heap

`rt_memheap_alloc`, `rt_memheap_free` and `rt_memheap_realloc` always return on a
heap with the invariant `MemheapOk`, and keep it; the set of the used blocks
gains the block that is returned and loses the one that is released.
-/

namespace RtThread

open BlockChain CircularList Item List Option Set

/-- The invariant of a heap object. -/
structure MemheapOk (h : Memheap) (l F : List ℕ) : Prop where
  pool : h.toPool.Ok
  good : Good h.toPool h.mem l F
  available : h.availableSize = freeBytes h.mem l
  maxUsed : h.poolSize ≤ h.maxUsedSize + h.availableSize

namespace Memheap

/-- The used blocks, other than the tailer. -/
def usedBlocks (h : Memheap) (l : List ℕ) : Set ℕ := h.toPool.usedBlocks h.mem l

variable {h h' : Memheap} {l l' F F' xs ys : List ℕ} {a b c o q size n x : ℕ}

/-! ## `max_used_size` -/

@[simp] theorem noteMax_toPool : h.noteMax.toPool = h.toPool := by
  unfold noteMax; split_ifs <;> rfl

@[simp] theorem noteMax_mem : h.noteMax.mem = h.mem := by
  unfold noteMax; split_ifs <;> rfl

@[simp] theorem noteMax_availableSize : h.noteMax.availableSize = h.availableSize := by
  unfold noteMax; split_ifs <;> rfl

theorem noteMax_maxUsedSize (hle : h.availableSize ≤ h.poolSize) (hsize : h.poolSize < 2 ^ 32) :
    h.poolSize ≤ h.noteMax.maxUsedSize + h.availableSize := by
  unfold noteMax
  rw [sub32_of_le hle hsize]
  split_ifs
  · show h.poolSize ≤ h.poolSize - h.availableSize + h.availableSize
    omega
  · omega

/-- `max_used_size` does not depend on the memory. -/
theorem noteMax_mem_comm (m : ℕ → ℕ) :
    { h.noteMax with mem := m } = { h with mem := m }.noteMax := by
  unfold noteMax; split_ifs <;> rfl

theorem poolSize_lt (hP : h.toPool.Ok) : h.poolSize + 24 ≤ 2 ^ 32 := by
  have h1 := hP.space
  have h2 := hP.header
  have h3 := hP.headerSpace
  omega

theorem freeBytes_le_poolSize (hP : h.toPool.Ok) {T : Set ℕ} (hl : Layout h.toPool T h.mem l F)
    (ht : ¬ Free h.mem h.tailer) : freeBytes h.mem l + 24 ≤ h.poolSize := by
  have hsize := hP.size
  have hle := hl.freeBytes_le ht
  unfold Pool.tailer at hle
  omega

/-! ## `rt_memheap_alloc` -/

/-- There are not more free blocks than rounds. -/
theorem length_free_le (hok : MemheapOk h l F) : F.length + 2 ≤ h.rounds := by
  have hlayout := hok.good.layout
  have hsub : F.length ≤ l.length :=
    (hok.good.nodup.subperm fun o ho => ((hok.good.mem_free o).mp ho).1).length_le
  obtain ⟨zs, rfl⟩ := head?_eq_some_iff.mp hlayout.head
  have hlen := hlayout.chain.length_le hlayout.last
  have hsize := hok.pool.size
  unfold Pool.tailer at hlen
  unfold rounds
  rw [length_cons] at hsub
  omega

variable {m : ℕ → ℕ}

/-- The search along the rest `F₂` of the free list ends: there is no block that fits, or one is
found. -/
theorem search_spec {root : ℕ} (F₁ : List ℕ) {F₂ : List ℕ} {fuel ptr freeSize : ℕ}
    (hring : IsRing (nextFree m) (prevFree m) root (F₁ ++ F₂))
    (hptr : (F₂ ++ [root]).head? = some ptr) (hfuel : F₂.length + 2 ≤ fuel)
    (hsize : freeSize < size) :
    ∃ r, searchLoop m root size fuel ptr freeSize = some r ∧
      ((r.2 < size ∧ ∀ o ∈ F₂, memitemSize m o < size) ∨
        r.1 ∈ F₂ ∧ r.2 = memitemSize m r.1 ∧ size ≤ r.2) := by
  induction F₂ generalizing F₁ fuel ptr freeSize with
  | nil =>
    obtain rfl : root = ptr := by simpa using hptr
    obtain ⟨k, rfl⟩ : ∃ k, fuel = k + 1 := ⟨fuel - 1, by omega⟩
    refine ⟨(root, freeSize), ?_, .inl ⟨hsize, by simp⟩⟩
    rw [searchLoop, if_neg (by simp)]
  | cons x F₂ ih =>
    obtain rfl : x = ptr := by simpa using hptr
    obtain ⟨k, rfl⟩ : ∃ k, fuel = k + 1 + 1 := ⟨fuel - 2, by omega⟩
    have hne : x ≠ root := by
      rintro rfl
      have := hring.nodup
      simp at this
    rw [searchLoop, if_pos ⟨hne, hsize⟩]
    by_cases hfit : memitemSize m x < size
    · rw [if_pos hfit]
      have hring' : IsRing (nextFree m) (prevFree m) root ((F₁ ++ [x]) ++ F₂) := by
        simpa using hring
      have hfuel' : F₂.length + 2 ≤ k + 1 := by
        rw [length_cons] at hfuel
        omega
      obtain ⟨r, hr, hspec⟩ := ih _ hring' hring.split.1 hfuel' hfit
      refine ⟨r, hr, hspec.imp (fun hsmall => ⟨hsmall.1, ?_⟩) fun hfound => ⟨?_, hfound.2⟩⟩
      · exact forall_mem_cons.mpr ⟨hfit, hsmall.2⟩
      · exact mem_cons_of_mem x hfound.1
    · rw [if_neg hfit, searchLoop, if_neg (by omega)]
      exact ⟨_, rfl, .inr ⟨by simp, rfl, by omega⟩⟩

/-- The block at `a` is taken, with `size` bytes. -/
structure Takes (h : Memheap) (l : List ℕ) (a size : ℕ) (h' : Memheap) (l' F' : List ℕ) : Prop where
  ok : MemheapOk h' l' F'
  pool : h'.toPool = h.toPool
  fresh : a ∉ h.usedBlocks l
  used : h'.usedBlocks l' = insert a (h.usedBlocks l)
  room : a + 24 + size ≤ next h'.mem a

variable {avail : ℕ}

/-- A heap with a good memory, a right count and the update of `max_used_size`. -/
theorem ok_noteMax (hP : h.toPool.Ok) (hg : Good h.toPool m l F) (havail : avail = freeBytes m l) :
    MemheapOk { h with mem := m, availableSize := avail }.noteMax l F := by
  set h₁ : Memheap := { h with mem := m, availableSize := avail }
  have hP₁ : h₁.toPool.Ok := hP
  have hg₁ : Good h₁.toPool h₁.mem l F := hg
  have havail₁ : h₁.availableSize = freeBytes h₁.mem l := havail
  have hle := freeBytes_le_poolSize hP₁ hg₁.layout hg₁.tailer
  have hlt := poolSize_lt hP₁
  refine ⟨by rwa [noteMax_toPool], by rwa [noteMax_toPool, noteMax_mem], ?_, ?_⟩
  · rw [noteMax_availableSize, noteMax_mem]
    exact havail₁
  · rw [noteMax_toPool, noteMax_availableSize]
    exact noteMax_maxUsedSize (by omega) (by omega)

theorem takes_of_good (hP : h.toPool.Ok) (hfree : Free h.mem a) (hg : Good h.toPool m l' F)
    (havail : avail = freeBytes m l') (hused : h.toPool.usedBlocks m l' = insert a (h.usedBlocks l))
    (hroom : a + 24 + size ≤ next m a) :
    Takes h l a size { h with mem := m, availableSize := avail }.noteMax l' F where
  ok := ok_noteMax hP hg havail
  pool := noteMax_toPool
  fresh := fun hx => hx.2.2 hfree
  used := by
    rw [usedBlocks, noteMax_toPool, noteMax_mem]
    exact hused
  room := by
    rw [noteMax_mem]
    exact hroom

theorem takeItem_takes (hok : MemheapOk h l F) (ha : a ∈ F) (hsize : size < h.availableSize)
    (hfit : size ≤ memitemSize h.mem a) :
    ∃ l' F', Takes h l a size (h.takeItem a size (memitemSize h.mem a)) l' F' := by
  obtain ⟨hmema, hfreea⟩ := (hok.good.mem_free a).mp ha
  have htail := hok.good.free_ne_tailer hfreea
  have hpay := hok.good.layout.payload hmema htail
  have hle := freeBytes_le_poolSize hok.pool hok.good.layout hok.good.tailer
  have hlt := poolSize_lt hok.pool
  have havail := hok.available
  rw [hok.good.layout.memitemSize hok.pool hmema htail] at hfit ⊢
  unfold takeItem
  rw [add32_of_lt (by unfold memheapSize memheapMinialloc; omega)]
  split_ifs with hsplit
  · -- split the block
    unfold memheapSize memheapMinialloc at hsplit
    obtain ⟨l', F', hg, hbytes, hused, hnext⟩ := hok.good.split hok.pool ha
      (c := a + size + 24) (by omega) (by omega)
    have havail' : sub32 (sub32 h.availableSize size) memheapSize =
        freeBytes (splitMem h.toPool h.mem a (a + size + 24)) l' := by
      unfold memheapSize
      rw [sub32_of_le (show size ≤ h.availableSize by omega) (by omega),
        sub32_of_le (by omega) (by omega)]
      omega
    have htakes := takes_of_good hok.pool hfreea hg havail' hused (show a + 24 + size ≤ _ by omega)
    refine ⟨l', F', ?_⟩
    unfold takeSplit
    dsimp only
    rw [noteMax_mem, noteMax_mem_comm]
    exact htakes
  · -- the whole block
    obtain ⟨F', hg, hbytes, hused, hnext⟩ := hok.good.take hok.pool ha
    have havail' : sub32 h.availableSize (next h.mem a - a - 24) =
        freeBytes (markUsed (clearFree (unlinkFree h.mem a) a) a) l := by
      rw [sub32_of_le (by omega) (by omega)]
      omega
    have htakes := takes_of_good hok.pool hfreea hg havail' hused (show a + 24 + size ≤ _ by omega)
    refine ⟨l, F', ?_⟩
    unfold takeWhole
    dsimp only
    rw [noteMax_mem, noteMax_mem_comm]
    exact htakes

theorem le_allocSize (size : ℕ) : rtAlign size ≤ allocSize size ∧ 12 ≤ allocSize size := by
  unfold allocSize memheapMinialloc
  split_ifs <;> omega

/-- `rt_memheap_alloc` finds a block for `n` bytes. -/
def Finds (h : Memheap) (F : List ℕ) (n : ℕ) : Prop :=
  n < h.availableSize ∧ ∃ o ∈ F, n ≤ memitemSize h.mem o

/-- `rt_memheap_alloc` returns: it finds nothing and does nothing, or takes a block. -/
theorem allocItem_spec (hok : MemheapOk h l F) (hsize : 0 < size) :
    ∃ q h', h.allocItem size = some (q, h') ∧
      ((¬ h.Finds F size ∧ q = 0 ∧ h' = h) ∨
        h.Finds F size ∧ ∃ a l' F', q = a + 24 ∧ Takes h l a size h' l' F') := by
  unfold allocItem
  split_ifs with hlt
  · have hring := hok.good.layout.ring
    obtain ⟨⟨a, fs⟩, hr, hspec⟩ := search_spec [] hring hring.head (length_free_le hok) hsize
    have hr' : searchLoop h.mem h.freeList size h.rounds (nextFree h.mem h.freeList) 0 =
        some (a, fs) := hr
    rw [hr', map_some]
    dsimp only at hspec ⊢
    rcases hspec with ⟨hsmall, hall⟩ | ⟨ha, rfl, hfit⟩
    · rw [if_neg (by omega)]
      refine ⟨0, h, rfl, .inl ⟨?_, rfl, rfl⟩⟩
      rintro ⟨-, o, ho, hfit⟩
      have := hall o ho
      omega
    · rw [if_pos hfit]
      obtain ⟨l', F', htakes⟩ := takeItem_takes hok ha hlt hfit
      exact ⟨_, _, rfl, .inr ⟨⟨hlt, a, ha, hfit⟩, a, l', F', rfl, htakes⟩⟩
  · exact ⟨0, h, rfl, .inl ⟨fun hf => hlt hf.1, rfl, rfl⟩⟩

/-! ## `rt_memheap_free` -/

/-- A heap in the middle of `rt_memheap_free`: there is a hole at `a`, and `U` are the used blocks.
-/
structure Merging (h : Memheap) (T : Set ℕ) (xs : List ℕ) (a : ℕ) (ys F : List ℕ) (linked : Prop)
    (U : Set ℕ) : Prop where
  pool : h.toPool.Ok
  hole : Hole h.toPool T h.mem xs a ys F linked
  available : h.availableSize = freeBytes h.mem (xs ++ a :: ys)
  used : h.usedBlocks (xs ++ a :: ys) = U
  maxUsed : h.poolSize ≤ h.maxUsedSize + h.availableSize

variable {T : Set ℕ} {U : Set ℕ} {linked : Prop}

/-- A merge: the header of one block becomes free bytes. -/
theorem Merging.merge (hh : Merging h T xs a ys F linked U) {xs' ys' F' : List ℕ}
    {a' : ℕ} {linked' : Prop} (hhole : Hole h.toPool T m xs' a' ys' F' linked')
    (hbytes : freeBytes m (xs' ++ a' :: ys') = freeBytes h.mem (xs ++ a :: ys) + 24)
    (hused : h.toPool.usedBlocks m (xs' ++ a' :: ys') = h.usedBlocks (xs ++ a :: ys)) :
    Merging { h with availableSize := add32 h.availableSize memheapSize, mem := m } T xs' a' ys'
      F' linked' U := by
  have hle : freeBytes m (xs' ++ a' :: ys') + 24 ≤ h.poolSize :=
    freeBytes_le_poolSize (h := { h with mem := m }) hh.pool hhole.layout hhole.tailer
  have hlt := poolSize_lt hh.pool
  have havail := hh.available
  have hmax := hh.maxUsed
  have hadd : add32 h.availableSize memheapSize = h.availableSize + 24 :=
    add32_of_lt (by unfold memheapSize; omega)
  refine ⟨hh.pool, hhole, ?_, hused.trans hh.used, ?_⟩
  · show add32 h.availableSize memheapSize = freeBytes m (xs' ++ a' :: ys')
    omega
  · show h.poolSize ≤ h.maxUsedSize + add32 h.availableSize memheapSize
    omega

theorem Merging.right (hh : Merging h T xs a (b :: ys) F linked U) :
    ∃ d zs F', Merging (h.mergeRight a) T xs a (d :: zs) F' linked U ∧
      ¬ Free (h.mergeRight a).mem d ∧
      (∀ o ∈ xs, Free (h.mergeRight a).mem o ↔ Free h.mem o) ∧
      (h.mergeRight a).toPool = h.toPool ∧ d :: zs ⊆ b :: ys := by
  have hlayout := hh.hole.layout
  have hnext := hlayout.linked.1
  have hused : ¬ IsUsed h.mem b ↔ Free h.mem b := not_isUsed_iff hh.hole.marked (by simp)
  unfold mergeRight
  rw [hnext]
  by_cases hb : Free h.mem b
  · rw [if_pos (hused.mpr hb)]
    obtain ⟨d, zs, F', rfl, hhole, hd, hxs, hbytes, hblocks⟩ := hh.hole.right hb
    exact ⟨d, zs, F', hh.merge hhole hbytes hblocks, hd, hxs, rfl, subset_cons_self b _⟩
  · rw [if_neg (mt hused.mp hb)]
    exact ⟨b, ys, F, hh, hb, fun _ _ => Iff.rfl, rfl, List.Subset.refl _⟩

/-- The end of `rt_memheap_free` if there is no merge to the left. -/
theorem Merging.insertFree (hh : Merging h T xs a ys F False U)
    (hleft : ∀ p ∈ xs.getLast?, ¬ Free h.mem p) (hright : ∀ d ∈ ys.head?, ¬ Free h.mem d) :
    ∃ F', MemheapOk { h with mem := insertFree h.mem a h.freeList } (xs ++ a :: ys) F' ∧
      usedBlocks { h with mem := insertFree h.mem a h.freeList } (xs ++ a :: ys) = U := by
  obtain ⟨hg, hbytes, hused, -⟩ := hh.hole.close hh.pool hleft hright
  exact ⟨_, ⟨hh.pool, hg, hh.available.trans hbytes.symm, hh.maxUsed⟩, hused.trans hh.used⟩

theorem Merging.ok (hh : Merging h T xs a ys F True U) (hleft : ∀ p ∈ xs.getLast?, ¬ Free h.mem p)
    (hright : ∀ d ∈ ys.head?, ¬ Free h.mem d) : MemheapOk h (xs ++ a :: ys) F :=
  ⟨hh.pool, hh.hole.good hleft hright, hh.available, hh.maxUsed⟩

theorem markAvailable_merging (hok : MemheapOk h (xs ++ a :: b :: ys) F) (ha : ¬ Free h.mem a) :
    Merging (h.markAvailable a) (headers h.toPool (xs ++ a :: b :: ys)) xs a (b :: ys) F False
      (h.usedBlocks (xs ++ a :: b :: ys) \ {a}) := by
  have hmema : a ∈ xs ++ a :: b :: ys := by simp
  have hlayout := hok.good.layout
  have hmagic : magic h.mem a &&& memheapMask = memheapMagic := by
    rw [(hok.good.marked a hmema).resolve_left ha]
    rfl
  obtain ⟨hhole, hbytes, hused⟩ := hok.good.release ha
  have hne : a ≠ h.tailer := by
    have hb := hlayout.le_tailer (o := b) (by simp)
    have hab := hlayout.linked.2.1
    omega
  have hle := freeBytes_le_poolSize (h := { h with mem := setMagic h.mem a memheapMagic })
    hok.pool hhole.layout hhole.tailer
  have hle' : freeBytes (setMagic h.mem a memheapMagic) (xs ++ a :: b :: ys) + 24 ≤ h.poolSize :=
    hle
  have hlt := poolSize_lt hok.pool
  have havail := hok.available
  have hadd : add32 h.availableSize (memitemSize h.mem a) =
      freeBytes (setMagic h.mem a memheapMagic) (xs ++ a :: b :: ys) := by
    rw [hlayout.memitemSize hok.pool hmema hne, hlayout.linked.1, add32_of_lt (by omega)]
    omega
  have hmax := hok.maxUsed
  unfold markAvailable
  rw [hmagic]
  refine ⟨hok.pool, hhole, hadd, hused, ?_⟩
  show h.poolSize ≤ h.maxUsedSize + add32 h.availableSize (memitemSize h.mem a)
  omega

/-- `rt_memheap_free` past the checks. It makes no new block. -/
theorem freeItem_spec (hok : MemheapOk h l F) (ha : a ∈ h.usedBlocks l) :
    ∃ l' F', MemheapOk (h.freeItem a) l' F' ∧ (h.freeItem a).toPool = h.toPool ∧
      (h.freeItem a).usedBlocks l' = h.usedBlocks l \ {a} ∧ l' ⊆ l := by
  obtain ⟨hmema, htail, hfreea⟩ := ha
  obtain ⟨xs, ys, rfl⟩ := hok.good.layout.exists_next hmema htail
  have hmerge := markAvailable_merging hok hfreea
  generalize hb : next h.mem a = b at hmerge
  unfold freeItem
  dsimp only
  have hpool : (h.markAvailable a).toPool = h.toPool := rfl
  generalize h.markAvailable a = h₁ at hmerge hpool
  have hlayout := hmerge.hole.layout
  rcases eq_nil_or_concat xs with rfl | ⟨zs, p, rfl⟩
  · -- the first block comes after the tailer
    have hstart : a = h₁.startAddr := by simpa using hlayout.head
    have hprev : prev h₁.mem a = h₁.tailer := by rw [hstart, hlayout.closedPrev]
    have hused := (isUsed_iff hmerge.hole.marked hlayout.tailer_mem).mpr hmerge.hole.tailer
    rw [hprev, if_neg (not_not.mpr hused)]
    obtain ⟨d, zs, F', hmerge₂, hd, -, hpool₂, hsub⟩ := hmerge.right
    obtain ⟨F'', hok', hused'⟩ := hmerge₂.insertFree (by simp) (by simpa using hd)
    exact ⟨_, F'', hok', hpool₂.trans hpool, hused', cons_subset_cons a hsub⟩
  · rw [concat_eq_append] at hmerge hlayout ⊢
    have hlist : (zs ++ [p]) ++ a :: b :: ys = zs ++ p :: a :: b :: ys := by simp
    have hprev : prev h₁.mem a = p := by
      rw [hlist] at hlayout
      exact hlayout.linked.2.2
    have hused : ¬ IsUsed h₁.mem p ↔ Free h₁.mem p := not_isUsed_iff hmerge.hole.marked (by simp)
    rw [hprev]
    by_cases hp : Free h₁.mem p
    · -- merge to the left
      rw [if_pos (hused.mpr hp)]
      obtain ⟨hhole, hleft, hbytes, hblocks⟩ := hmerge.hole.left hp
      obtain ⟨d, zs', F', hmerge₂, hd, hxs, hpool₂, hsub⟩ :=
        (hmerge.merge hhole hbytes hblocks).right
      refine ⟨_, F', hmerge₂.ok (fun q hq => ?_) (by simpa using hd), hpool₂.trans hpool,
        hmerge₂.used, ?_⟩
      · rw [hxs q (mem_of_getLast? hq)]
        exact hleft q hq
      · rw [hlist]
        exact append_subset.mpr ⟨subset_append_left _ _,
          subset_append_of_subset_right _ (cons_subset_cons p (subset_cons_of_subset a hsub))⟩
    · rw [if_neg (mt hused.mp hp)]
      obtain ⟨d, zs', F', hmerge₂, hd, hxs, hpool₂, hsub⟩ := hmerge.right
      obtain ⟨F'', hok', hused'⟩ := hmerge₂.insertFree
        (by
          intro q hq
          obtain rfl : p = q := by simpa using hq
          rwa [hxs p (by simp)])
        (by simpa using hd)
      exact ⟨_, F'', hok', hpool₂.trans hpool, hused',
        append_subset.mpr ⟨subset_append_left _ _,
          subset_append_of_subset_right _ (cons_subset_cons a hsub)⟩⟩

/-- `rt_memheap_free` of a used block returns. -/
theorem rtMemheapFree_spec (hok : MemheapOk h l F) (ha : a ∈ h.usedBlocks l) :
    ∃ h' l' F', h.rtMemheapFree (a + 24) = some h' ∧ MemheapOk h' l' F' ∧
      h'.toPool = h.toPool ∧ h'.usedBlocks l' = h.usedBlocks l \ {a} ∧ l' ⊆ l := by
  obtain ⟨l', F', hok', hpool, hused, hsub⟩ := freeItem_spec hok ha
  refine ⟨h.freeItem a, l', F', ?_, hok', hpool, hused, hsub⟩
  obtain ⟨hmema, htail, hfreea⟩ := ha
  have hmarked := hok.good.marked
  have hmagic : ∀ o ∈ l, magic h.mem o &&& memheapMask = memheapMagic := by
    intro o ho
    rcases hmarked o ho with hm | hm <;> rw [hm] <;> rfl
  have hnext : next h.mem a ∈ l := by
    obtain ⟨xs, ys, hl⟩ := hok.good.layout.exists_next hmema htail
    rw [hl]
    simp
  unfold rtMemheapFree memheapSize
  rw [if_neg (by omega), Nat.add_sub_cancel, if_pos ⟨hmagic a hmema,
    (isUsed_iff hmarked hmema).mpr hfreea, hmagic _ hnext, hok.good.layout.poolPtr a hmema⟩]

/-! ## `rt_memheap_realloc` -/

/-- `q` points to a block of `h'` that is used besides those of `U`. -/
def Gains (P : Pool) (U : Set ℕ) (q : ℕ) (h' : Memheap) : Prop :=
  ∃ a l' F', q = a + 24 ∧ MemheapOk h' l' F' ∧ h'.toPool = P ∧ a ∉ U ∧ h'.usedBlocks l' = insert a U

/-- The block stays where it is. -/
theorem gains_self (hok : MemheapOk h' l' F) (hpool : h'.toPool = h.toPool)
    (hused : h'.usedBlocks l' = h.usedBlocks l) (ha : a ∈ h.usedBlocks l) :
    Gains h.toPool (h.usedBlocks l \ {a}) (a + 24) h' := by
  refine ⟨a, l', F, rfl, hok, hpool, fun hx => hx.2 rfl, ?_⟩
  rw [hused, insert_sdiff_singleton, insert_eq_of_mem ha]

section

variable (hok : MemheapOk h l F) (ha : a ∈ h.usedBlocks l)
include hok ha

/-- The block grows into the free block behind it. -/
theorem growItem_spec (hx : Free h.mem (next h.mem a)) (hgrow : next h.mem a - a - 24 < n)
    (hroom : a + 48 + n ≤ next h.mem (next h.mem a)) :
    Gains h.toPool (h.usedBlocks l \ {a}) (a + 24) (h.growItem a (next h.mem a - a - 24) n) ∧
      next (h.growItem a (next h.mem a - a - 24) n).mem a = a + 24 + n := by
  have hused := ha
  obtain ⟨hmema, htail, hfreea⟩ := ha
  have hlayout := hok.good.layout
  obtain ⟨xs, ys, hl⟩ := hlayout.exists_next hmema htail
  generalize hxa : next h.mem a = x at hl hx hgrow hroom
  -- behind the free block there is another one
  obtain ⟨b, zs, rfl⟩ : ∃ b zs, ys = b :: zs := by
    have hlast := hlayout.last
    cases ys with
    | nil =>
      rw [hl] at hlast
      obtain rfl : x = h.tailer := by simpa using hlast
      exact absurd hx hok.good.tailer
    | cons b zs => exact ⟨b, zs, rfl⟩
  subst hl
  have haround := hlayout.linked_around
  have hlinks := hlayout.linked
  have hfreeb : ¬ Free h.mem b := by
    intro hb
    have hbehind := (alternating_middle.mp hok.good.alternating).2.1
    exact (isChain_cons_cons.mp hbehind).1 ⟨hx, hb⟩
  obtain ⟨F₂, hg₂, hbytes₂, hused₂, hfree₂⟩ := hok.good.absorb hfreea hx
  obtain ⟨hhole, hfreea₃, hsame₃, hbytes₃, hused₃⟩ := hg₂.carve hok.pool
    (by rwa [hfree₂ a (by simp)]) (c := a + 24 + n) (by omega) (by omega)
  set m₃ := insertBlock (newItem (removeBlock (unlinkFree h.mem x) x) (a + 24 + n) h.memheap) a
    (a + 24 + n) with hm₃
  have hfreeb₃ : ¬ Free m₃ b := by
    unfold Free
    rw [(hsame₃ b (by simp)).1]
    exact fun hb => hfreeb ((hfree₂ b (by simp)).mp hb)
  obtain ⟨hg, hbytes, hblocks, -⟩ := hhole.close hok.pool
    (by simpa using hfreea₃) (by simpa using hfreeb₃)
  have hlist : xs ++ [a] ++ (a + 24 + n) :: b :: zs = xs ++ a :: (a + 24 + n) :: b :: zs := by simp
  rw [hlist] at hg hbytes hblocks
  have hle := freeBytes_le_poolSize hok.pool hlayout hok.good.tailer
  have hlt := poolSize_lt hok.pool
  have havail : sub32 h.availableSize (n - (x - a - 24)) = freeBytes (insertFree m₃ (a + 24 + n)
      h.freeList) (xs ++ a :: (a + 24 + n) :: b :: zs) := by
    have havail := hok.available
    rw [sub32_of_le (by omega) (by omega)]
    omega
  have hok' := ok_noteMax hok.pool hg havail
  have hend : h.tailer = h.startAddr + h.poolSize - 24 := rfl
  have hbtail := hlayout.le_tailer (o := b) (by simp)
  have hspace := hok.pool.space
  have hc : add32 (a + memheapSize) n = a + 24 + n := add32_of_lt (by unfold memheapSize; omega)
  unfold growItem
  dsimp only
  rw [noteMax_mem, noteMax_mem_comm, noteMax_toPool, hxa, hc]
  refine ⟨gains_self hok' noteMax_toPool ?_ hused, ?_⟩
  · rw [usedBlocks, noteMax_toPool, noteMax_mem]
    exact hblocks.trans (hused₃.trans hused₂)
  · exact hg.layout.linked.1

/-- The part that is given back, at `c`, is put into the free list. -/
theorem gains_of_hole {d : ℕ} {F' zs : List ℕ}
    (hhole : Hole h.toPool T m (xs ++ [a]) c (d :: zs) F' False) (hfreea : ¬ Free m a)
    (hfreed : ¬ Free m d) (hbytes : avail + (d - c - 24) = freeBytes m (xs ++ [a] ++ c :: d :: zs))
    (hle : h.availableSize ≤ avail + (d - c - 24))
    (hused : h.toPool.usedBlocks m (xs ++ [a] ++ c :: d :: zs) = h.usedBlocks l) :
    Gains h.toPool (h.usedBlocks l \ {a}) (a + 24)
        { h with
          mem := insertFree m c h.freeList
          availableSize := add32 avail (memitemSize (insertFree m c h.freeList) c) } ∧
      next (insertFree m c h.freeList) a = c := by
  obtain ⟨hg, hbytes', hblocks, hnext⟩ := hhole.close hok.pool (by simpa using hfreea)
    (by simpa using hfreed)
  have hlinks := hhole.layout.linked
  have hlt := poolSize_lt hok.pool
  have hle' := freeBytes_le_poolSize (h := { h with mem := insertFree m c h.freeList })
    hok.pool hg.layout hg.tailer
  have hle'' : freeBytes (insertFree m c h.freeList) (xs ++ [a] ++ c :: d :: zs) + 24 ≤
      h.poolSize := hle'
  have htail : c ≠ h.tailer := by
    have hd := hg.layout.le_tailer (o := d) (by simp)
    omega
  have hsize : memitemSize (insertFree m c h.freeList) c = d - c - 24 := by
    refine (hg.layout.memitemSize hok.pool (by simp) htail).trans ?_
    rw [show next (insertFree m c h.freeList) c = next m c from hnext, hlinks.1]
  have hmax := hok.maxUsed
  rw [hsize, add32_of_lt (by omega)]
  refine ⟨gains_self ⟨hok.pool, hg, hbytes.trans hbytes'.symm, ?_⟩ rfl (hblocks.trans hused) ha, ?_⟩
  · show h.poolSize ≤ h.maxUsedSize + (avail + (d - c - 24))
    omega
  · have hlayout := hg.layout
    rw [show xs ++ [a] ++ c :: d :: zs = xs ++ a :: c :: d :: zs by simp] at hlayout
    exact hlayout.linked.1

/-- The block gives back what lies behind its first `n` bytes. -/
theorem shrinkItem_spec (hroom : a + n + 48 ≤ next h.mem a) :
    Gains h.toPool (h.usedBlocks l \ {a}) (a + 24) (h.shrinkItem a n) ∧
      next (h.shrinkItem a n).mem a = a + n + 24 := by
  have hused := ha
  obtain ⟨hmema, htail, hfreea⟩ := ha
  obtain ⟨xs, ys, hl⟩ := hok.good.layout.exists_next hmema htail
  generalize hba : next h.mem a = b at hl hroom
  subst hl
  obtain ⟨hhole, hfreea₁, hsame₁, hbytes₁, hused₁⟩ := hok.good.carve hok.pool hfreea
    (c := a + n + 24) (by omega) (by omega)
  set m₁ := insertBlock (newItem h.mem (a + n + 24) h.memheap) a (a + n + 24)
  have hlist : xs ++ [a] ++ (a + n + 24) :: b :: ys = xs ++ a :: (a + n + 24) :: b :: ys := by simp
  rw [← hlist] at hbytes₁ hused₁
  have hnextc : next m₁ (a + n + 24) = b := hhole.layout.linked.1
  have hisUsed : ¬ IsUsed m₁ b ↔ Free m₁ b := not_isUsed_iff hhole.marked (by simp)
  have havail := hok.available
  unfold shrinkItem memheapSize
  dsimp only
  rw [hnextc]
  by_cases hb : Free m₁ b
  · -- merge with the next neighbour
    rw [if_pos (hisUsed.mpr hb)]
    obtain ⟨d, zs, F', rfl, hhole₂, hd, hxs, hbytes₂, hused₂⟩ := hhole.right hb
    have hlayout₁ := hhole.layout
    have hnextb : next m₁ b = d := hlayout₁.linked_around.2.2.1
    have hbtail : b ≠ h.tailer := fun hbt => hhole.tailer (hbt ▸ hb)
    have hsizeb : memitemSize m₁ b = d - b - 24 := by
      rw [hlayout₁.memitemSize hok.pool (by simp) hbtail, hnextb]
    have hbd := hlayout₁.payload (a := b) (by simp) hbtail
    -- the bytes of `b` are among those that are available
    have hwb : weight h.mem b = d - b - 24 := by
      rw [← weight_congr (hsame₁ b (by simp)), weight, if_pos hb, hnextb]
    have hweight : d - b - 24 ≤ h.availableSize := by
      rw [havail]
      simp only [freeBytes_append, freeBytes_cons]
      omega
    have hle := freeBytes_le_poolSize hok.pool hok.good.layout hok.good.tailer
    have hlt := poolSize_lt hok.pool
    rw [hsizeb, sub32_of_le hweight (by omega)]
    have hbytes : h.availableSize - (d - b - 24) + (d - (a + n + 24) - 24) =
        freeBytes (unlinkFree (mergeNext m₁ (a + n + 24)) b)
          (xs ++ [a] ++ (a + n + 24) :: d :: zs) := by
      omega
    have hmore : h.availableSize ≤ h.availableSize - (d - b - 24) + (d - (a + n + 24) - 24) := by
      omega
    have husea : ¬ Free (unlinkFree (mergeNext m₁ (a + n + 24)) b) a := by
      rw [hxs a (by simp)]
      exact hfreea₁
    exact gains_of_hole hok hused hhole₂ husea hd hbytes hmore (hused₂.trans hused₁)
  · rw [if_neg (mt hisUsed.mp hb)]
    have hbytes : h.availableSize + (b - (a + n + 24) - 24) =
        freeBytes m₁ (xs ++ [a] ++ (a + n + 24) :: b :: ys) := by
      omega
    have hmore : h.availableSize ≤ h.availableSize + (b - (a + n + 24) - 24) := by omega
    exact gains_of_hole hok hused hhole hfreea₁ hb hbytes hmore hused₁

end

theorem allocSize_allocSize (k : ℕ) : allocSize (allocSize k) = allocSize k := by
  unfold allocSize rtAlign memheapMinialloc
  split_ifs <;> omega

/-- What a block holds does not matter to the heap. -/
theorem ok_write (hok : MemheapOk h l F) (ha : a ∈ l) (hne : a ≠ h.tailer)
    (hmem : ∀ w, w < a + 24 ∨ next h.mem a ≤ w → m w = h.mem w) :
    MemheapOk { h with mem := m } l F ∧ usedBlocks { h with mem := m } l = h.usedBlocks l := by
  obtain ⟨hg, hbytes, hused⟩ := hok.good.write hok.pool ha hne hmem
  exact ⟨⟨hok.pool, hg, hok.available.trans hbytes.symm, hok.maxUsed⟩, hused⟩

/-- The block at `x` does not become smaller when blocks are merged. -/
theorem next_le_next (hok : MemheapOk h l F) (hok' : MemheapOk h' l' F') (hsub : l' ⊆ l)
    (hx : x ∈ h'.usedBlocks l') (hne : x ≠ h.tailer) : next h.mem x ≤ next h'.mem x := by
  have hpay := hok'.good.layout.payload hx.1 hx.2.1
  have hnext : next h'.mem x ∈ l := by
    obtain ⟨xs, ys, hl⟩ := hok'.good.layout.exists_next hx.1 hx.2.1
    exact hsub (by rw [hl]; simp)
  obtain ⟨xs, ys, hl⟩ := hok.good.layout.exists_next (hsub hx.1) hne
  have hchain := hok.good.layout.chain
  rw [hl] at hchain hnext
  rcases hchain.le_or_le hnext with hle | hle
  · omega
  · exact hle

variable (hok : MemheapOk h l F) (ha : a ∈ h.usedBlocks l)
include hok ha

/-- The block is moved: a block is taken, and the old one released. -/
theorem moveItem_spec (hn : allocSize n = n) (k : ℕ) :
    ∃ q h', h.moveItem (a + 24) k n = some (q, h') ∧
      ((¬ h.Finds F n ∧ q = 0 ∧ h' = h) ∨
        h.Finds F n ∧ Gains h.toPool (h.usedBlocks l \ {a}) q h' ∧
          q + n ≤ next h'.mem (q - 24)) := by
  have hpos : 0 < n := by
    have := (le_allocSize n).2
    omega
  obtain ⟨q, h₁, halloc, hspec⟩ := allocItem_spec hok hpos
  unfold moveItem rtMemheapAlloc
  rw [hn, halloc, bind_some]
  dsimp only
  rcases hspec with ⟨hfind, rfl, rfl⟩ | ⟨hfind, x, l₁, F₁, rfl, htakes⟩
  · exact ⟨0, h₁, if_pos rfl, .inl ⟨hfind, rfl, rfl⟩⟩
  · have hroom := htakes.room
    have hx : x ∈ h₁.usedBlocks l₁ := by
      rw [htakes.used]
      exact mem_insert x _
    have hxa : x ≠ a := by
      rintro rfl
      exact htakes.fresh ha
    -- the copy only writes to the block that was taken
    obtain ⟨hok₂, hused₂⟩ : MemheapOk (h₁.rtMemcpy (x + 24) (a + 24) (min k n)) l₁ F₁ ∧
        (h₁.rtMemcpy (x + 24) (a + 24) (min k n)).usedBlocks l₁ = h₁.usedBlocks l₁ :=
      ok_write htakes.ok hx.1 hx.2.1 fun w hw => if_neg (by omega)
    rw [htakes.used] at hused₂
    obtain ⟨h₃, l₃, F₃, hfree, hok₃, hpool₃, hused₃, hsub⟩ := rtMemheapFree_spec hok₂
      (by rw [hused₂]; exact mem_insert_of_mem _ ha)
    have hx₃ : x ∈ h₃.usedBlocks l₃ := by
      rw [hused₃, hused₂]
      exact ⟨mem_insert x _, hxa⟩
    have hkeep := next_le_next hok₂ hok₃ hsub hx₃ hx.2.1
    have hcopy : next (h₁.rtMemcpy (x + 24) (a + 24) (min k n)).mem x = next h₁.mem x :=
      if_neg (by omega)
    rw [hfree]
    refine ⟨x + 24, h₃, rfl, .inr ⟨hfind, ⟨x, l₃, F₃, rfl, hok₃, hpool₃.trans htakes.pool,
      fun hx' => htakes.fresh hx'.1, ?_⟩, ?_⟩⟩
    · rw [hused₃, hused₂]
      exact (insert_sdiff_singleton_comm hxa _).symm
    · rw [Nat.add_sub_cancel]
      omega

/-- `rt_memheap_realloc` has `n` bytes for the block at `a`: it has got them, or the free block
behind it has the rest, or there is another block. -/
def Serves (h : Memheap) (F : List ℕ) (a n : ℕ) : Prop :=
  n ≤ memitemSize h.mem a ∨
    (¬ IsUsed h.mem (next h.mem a) ∧ add32 n memheapMinialloc <
      add32 (memitemSize h.mem (next h.mem a)) (memitemSize h.mem a)) ∨
    h.Finds F n

/-- `rt_memheap_realloc` for a used block and an aligned size. For a size at the end of the range
the test for room overflows, and the heap may be destroyed. -/
theorem reallocItem_spec (hn : allocSize n = n) :
    ∃ q h', h.reallocItem (a + 24) a (memitemSize h.mem a) n = some (q, h') ∧
      ((¬ h.Serves F a n ∧ q = 0 ∧ h' = h) ∨
        h.Serves F a n ∧ q ≠ 0 ∧ (n + 12 < 2 ^ 32 →
          Gains h.toPool (h.usedBlocks l \ {a}) q h' ∧ q + n ≤ next h'.mem (q - 24))) := by
  have hused := ha
  obtain ⟨hmema, htail, hfreea⟩ := ha
  have hlayout := hok.good.layout
  have hpay := hlayout.payload hmema htail
  have hspace := hok.pool.space
  have hend : h.tailer = h.startAddr + h.poolSize - 24 := rfl
  have hself := gains_self hok rfl rfl hused
  have hsize := hlayout.memitemSize hok.pool hmema htail
  unfold reallocItem
  split_ifs with hgrow hsame
  · -- a larger block
    have hnext : next h.mem a ∈ l := by
      obtain ⟨xs, ys, hl⟩ := hlayout.exists_next hmema htail
      rw [hl]
      simp
    unfold expandItem
    rw [if_neg (by omega)]
    split_ifs with hroom
    · refine ⟨_, _, rfl, .inr ⟨.inr (.inl hroom), by omega, fun hn => ?_⟩⟩
      obtain ⟨hnused, hroom⟩ := hroom
      have hfree : Free h.mem (next h.mem a) := (not_isUsed_iff hok.good.marked hnext).mp hnused
      have htail' := hok.good.free_ne_tailer hfree
      have hpay' := hlayout.payload hnext htail'
      rw [hlayout.memitemSize hok.pool hnext htail', memheapMinialloc,
        add32_of_lt (by omega), add32_of_lt (by omega)] at hroom
      rw [hsize] at hgrow ⊢
      obtain ⟨hgains, hnext'⟩ := growItem_spec hok hused hfree hgrow (by omega)
      exact ⟨hgains, by exact hnext'.ge⟩
    · obtain ⟨q, h', hmove, hspec⟩ := moveItem_spec hok hused hn (memitemSize h.mem a)
      refine ⟨q, h', hmove, ?_⟩
      rcases hspec with ⟨hfind, hnull⟩ | ⟨hfind, hgains, hroom'⟩
      · refine .inl ⟨?_, hnull⟩
        rintro (hle | hroom' | hfind')
        · omega
        · exact hroom hroom'
        · exact hfind hfind'
      · refine .inr ⟨.inr (.inr hfind), ?_, fun _ => ⟨hgains, hroom'⟩⟩
        obtain ⟨x, -, -, rfl, -⟩ := hgains
        omega
  · exact ⟨_, _, rfl, .inr ⟨.inl (by omega), by omega, fun _ =>
      ⟨hself, by rw [Nat.add_sub_cancel]; omega⟩⟩⟩
  · rw [memheapSize, memheapMinialloc, add32_of_lt (by omega)] at hsame
    obtain ⟨hgains, hnext⟩ := shrinkItem_spec (n := n) hok hused (by omega)
    exact ⟨_, _, rfl, .inr ⟨.inl (by omega), by omega, fun _ =>
      ⟨hgains, by rw [Nat.add_sub_cancel]; omega⟩⟩⟩

/-- `rt_memheap_realloc` of a used block returns. For 0 bytes it releases the block; else it fails
and does nothing, or returns a block in its place. -/
theorem rtMemheapRealloc_spec (hle : n ≤ h.poolSize) :
    ∃ q h', h.rtMemheapRealloc (a + 24) n = some (q, h') ∧
      ((n = 0 ∧ q = 0 ∧ ∃ l' F', MemheapOk h' l' F' ∧ h'.toPool = h.toPool ∧
          h'.usedBlocks l' = h.usedBlocks l \ {a}) ∨
        (n ≠ 0 ∧ q = 0 ∧ h' = h) ∨ Gains h.toPool (h.usedBlocks l \ {a}) q h') := by
  unfold rtMemheapRealloc
  by_cases hn : n = 0
  · rw [if_pos hn]
    obtain ⟨h', l', F', hfree, hok', hpool, hused, -⟩ := rtMemheapFree_spec hok ha
    rw [hfree]
    exact ⟨0, h', rfl, .inl ⟨hn, rfl, l', F', hok', hpool, hused⟩⟩
  · rw [if_neg hn]
    have hsize : allocSize n + 12 < 2 ^ 32 := by
      have hlt := poolSize_lt hok.pool
      unfold allocSize rtAlign memheapMinialloc
      split_ifs <;> omega
    obtain ⟨q, h', hr, hspec⟩ := reallocItem_spec hok ha (allocSize_allocSize n)
    refine ⟨q, h', hr, .inr ?_⟩
    rcases hspec with ⟨-, hnull⟩ | ⟨-, -, hgains⟩
    · exact .inl ⟨hn, hnull⟩
    · exact .inr (hgains hsize).1

end Memheap

end RtThread
