import RtThread.Memory.Memheap
import RtThread.Lib.CircularList

/-!
# The two lists of a memory heap

`Layout P T m l F`: the headers at the addresses `l` are linked in a circle and
tile the pool `P`, and the headers `F` are linked in a circle through
`free_header`. The headers that take part are those of `T`, which do not
overlap. Each edit of `src/memheap.c` is followed on all fields of these headers
(`Item.item`), and from that on both lists.
-/

namespace RtThread

open BlockChain CircularList List

namespace Item

/-- The fields of a `struct rt_memheap_item`. -/
structure Fields where
  magic : ℕ
  poolPtr : ℕ
  next : ℕ
  prev : ℕ
  nextFree : ℕ
  prevFree : ℕ

/-- The item at `a`. -/
def item (m : ℕ → ℕ) (a : ℕ) : Fields :=
  ⟨magic m a, poolPtr m a, next m a, prev m a, nextFree m a, prevFree m a⟩

/-- The records at two addresses of `T` are the same or do not overlap. -/
def Sep (T : Set ℕ) : Prop := ∀ a ∈ T, ∀ b ∈ T, Apart 24 a b

variable {m : ℕ → ℕ} {T : Set ℕ} {a b c o v heap root : ℕ}

/-! ## Edits of one field -/

section

variable (h : Apart 24 o a)
include h

theorem item_setMagic :
    item (setMagic m a v) o = { item m o with magic := if o = a then v else (item m o).magic } := by
  simp [item, magic, poolPtr, next, prev, nextFree, prevFree, setMagic, field_setField_apart h]

theorem item_setPoolPtr :
    item (setPoolPtr m a v) o =
      { item m o with poolPtr := if o = a then v else (item m o).poolPtr } := by
  simp [item, magic, poolPtr, next, prev, nextFree, prevFree, setPoolPtr, field_setField_apart h]

theorem item_setNext :
    item (setNext m a v) o = { item m o with next := if o = a then v else (item m o).next } := by
  simp [item, magic, poolPtr, next, prev, nextFree, prevFree, setNext, field_setField_apart h]

theorem item_setPrev :
    item (setPrev m a v) o = { item m o with prev := if o = a then v else (item m o).prev } := by
  simp [item, magic, poolPtr, next, prev, nextFree, prevFree, setPrev, field_setField_apart h]

theorem item_setNextFree :
    item (setNextFree m a v) o =
      { item m o with nextFree := if o = a then v else (item m o).nextFree } := by
  simp [item, magic, poolPtr, next, prev, nextFree, prevFree, setNextFree, field_setField_apart h]

theorem item_setPrevFree :
    item (setPrevFree m a v) o =
      { item m o with prevFree := if o = a then v else (item m o).prevFree } := by
  simp [item, magic, poolPtr, next, prev, nextFree, prevFree, setPrevFree, field_setField_apart h]

/-! ## Edits of the lists -/

theorem item_newItem :
    item (newItem m a heap) o =
      { item m o with
        magic := if o = a then memheapMagic else (item m o).magic
        poolPtr := if o = a then heap else (item m o).poolPtr } := by
  rw [newItem, item_setPoolPtr h, item_setMagic h]

theorem item_clearFree :
    item (clearFree m a) o =
      { item m o with
        nextFree := if o = a then 0 else (item m o).nextFree
        prevFree := if o = a then 0 else (item m o).prevFree } := by
  rw [clearFree, item_setPrevFree h, item_setNextFree h]

end

variable (hT : Sep T) (ha : a ∈ T)
include hT ha

theorem item_insertBlock (hc : c ∈ T) (hn : next m a ∈ T) (hac : a ≠ c) (ho : o ∈ T) :
    item (insertBlock m a c) o =
      { item m o with
        next := if o = a then c else if o = c then next m a else (item m o).next
        prev := if o = next m a then c else if o = c then a else (item m o).prev } := by
  have h₁ : next (setPrev m c a) a = next m a := congrArg Fields.next (item_setPrev (hT a ha c hc))
  have h₂ : next (setNext (setPrev m c a) c (next m a)) a = next m a := by
    have := congrArg Fields.next (item_setNext (m := setPrev m c a) (v := next m a) (hT a ha c hc))
    rw [if_neg hac] at this
    exact this.trans h₁
  unfold insertBlock
  dsimp only
  rw [h₁, h₂, item_setNext (hT o ho a ha), item_setPrev (hT o ho _ hn), item_setNext (hT o ho c hc),
    item_setPrev (hT o ho c hc)]

theorem item_removeBlock (hn : next m a ∈ T) (hp : prev m a ∈ T) (ho : o ∈ T) :
    item (removeBlock m a) o =
      { item m o with
        next := if o = prev m a then next m a else (item m o).next
        prev := if o = next m a then prev m a else (item m o).prev } := by
  have h₁ := item_setPrev (m := m) (v := prev m a) (hT a ha _ hn)
  have hn₁ : next (setPrev m (next m a) (prev m a)) a = next m a := congrArg Fields.next h₁
  have hp₁ : prev (setPrev m (next m a) (prev m a)) a = prev m a := by
    refine (congrArg Fields.prev h₁).trans ?_
    show (if a = next m a then prev m a else prev m a) = prev m a
    rw [ite_self]
  unfold removeBlock
  dsimp only
  rw [hn₁, hp₁, item_setNext (hT o ho _ hp), item_setPrev (hT o ho _ hn)]

theorem item_mergePrev (hn : next m a ∈ T) (hp : prev m a ∈ T) (ho : o ∈ T) :
    item (mergePrev m a) o =
      { item m o with
        next := if o = prev m a then next m a else (item m o).next
        prev := if o = next m a then prev m a else (item m o).prev } := by
  have h₁ := item_setNext (m := m) (v := next m a) (hT a ha _ hp)
  have hp₁ : prev (setNext m (prev m a) (next m a)) a = prev m a := congrArg Fields.prev h₁
  have hn₁ : next (setNext m (prev m a) (next m a)) a = next m a := by
    refine (congrArg Fields.next h₁).trans ?_
    show (if a = prev m a then next m a else next m a) = next m a
    rw [ite_self]
  unfold mergePrev
  dsimp only
  rw [hn₁, hp₁, item_setPrev (hT o ho _ hn), item_setNext (hT o ho _ hp)]

/-- The block behind `a` is merged with it: it leaves the block list. -/
theorem item_mergeNext (hb : next m a ∈ T) (hn : next m (next m a) ∈ T) (ho : o ∈ T) :
    item (mergeNext m a) o =
      { item m o with
        next := if o = a then next m (next m a) else (item m o).next
        prev := if o = next m (next m a) then a else (item m o).prev } := by
  have hn₁ : next (setPrev m (next m (next m a)) a) (next m a) = next m (next m a) :=
    congrArg Fields.next (item_setPrev (hT _ hb _ hn))
  unfold mergeNext
  dsimp only
  rw [hn₁, item_setNext (hT o ho a ha), item_setPrev (hT o ho _ hn)]

theorem item_unlinkFree (hn : nextFree m a ∈ T) (hp : prevFree m a ∈ T) (ho : o ∈ T) :
    item (unlinkFree m a) o =
      { item m o with
        nextFree := if o = prevFree m a then nextFree m a else (item m o).nextFree
        prevFree := if o = nextFree m a then prevFree m a else (item m o).prevFree } := by
  have h₁ := item_setPrevFree (m := m) (v := prevFree m a) (hT a ha _ hn)
  have hn₁ : nextFree (setPrevFree m (nextFree m a) (prevFree m a)) a = nextFree m a :=
    congrArg Fields.nextFree h₁
  have hp₁ : prevFree (setPrevFree m (nextFree m a) (prevFree m a)) a = prevFree m a := by
    refine (congrArg Fields.prevFree h₁).trans ?_
    show (if a = nextFree m a then prevFree m a else prevFree m a) = prevFree m a
    rw [ite_self]
  unfold unlinkFree
  dsimp only
  rw [hn₁, hp₁, item_setNextFree (hT o ho _ hp), item_setPrevFree (hT o ho _ hn)]

theorem item_insertFree (hr : root ∈ T) (hn : nextFree m root ∈ T) (hne : a ≠ root) (ho : o ∈ T) :
    item (insertFree m a root) o =
      { item m o with
        nextFree :=
          if o = root then a else if o = a then nextFree m root else (item m o).nextFree
        prevFree :=
          if o = nextFree m root then a else if o = a then root else (item m o).prevFree } := by
  have h₁ : nextFree (setPrevFree (setNextFree m a (nextFree m root)) a root) root =
      nextFree m root := by
    have hra := hT root hr a ha
    have h := item_setPrevFree (m := setNextFree m a (nextFree m root)) (v := root) hra
    rw [item_setNextFree hra] at h
    refine (congrArg Fields.nextFree h).trans ?_
    exact if_neg (Ne.symm hne)
  unfold insertFree
  dsimp only
  rw [h₁, item_setNextFree (hT o ho _ hr), item_setPrevFree (hT o ho _ hn),
    item_setPrevFree (hT o ho _ ha), item_setNextFree (hT o ho _ ha)]

end Item

open Item

/-- The address of the tailer. -/
def Pool.tailer (P : Pool) : ℕ := P.startAddr + P.poolSize - 24

/-- The block list `l` and the free list `F` of the pool `P`, with headers at addresses of `T`. -/
structure Layout (P : Pool) (T : Set ℕ) (m : ℕ → ℕ) (l F : List ℕ) : Prop where
  sep : Sep T
  root : P.freeHeader ∈ T
  blocks : ∀ o ∈ l, o ∈ T
  free : ∀ o ∈ F, o ∈ T
  head : l.head? = some P.startAddr
  last : l.getLast? = some P.tailer
  chain : Chain 24 (fun _ => True) (next m) (prev m) l
  closedNext : next m P.tailer = P.startAddr
  closedPrev : prev m P.startAddr = P.tailer
  poolPtr : ∀ o ∈ l, poolPtr m o = P.memheap
  ring : IsRing (nextFree m) (prevFree m) P.freeHeader F

/-- The mark and the extent of the block at `o` have not changed. -/
def SameBlock (m m' : ℕ → ℕ) (o : ℕ) : Prop := magic m' o = magic m o ∧ next m' o = next m o

namespace Layout

variable {P : Pool} {T : Set ℕ} {m m' : ℕ → ℕ} {l F F₁ F₂ xs ys : List ℕ} {a b c o x : ℕ}

/-- What follows the block at `a`, with the link back. -/
theorem linked (h : Layout P T m (xs ++ a :: b :: ys) F) :
    next m a = b ∧ a + 24 ≤ b ∧ prev m b = a := by
  obtain ⟨h1, h2, h3⟩ := h.chain.linked
  exact ⟨h1, h2, h3 trivial⟩

section

variable (h : Layout P T m l F)
include h

theorem tailer_mem : P.tailer ∈ l := mem_of_getLast? h.last

theorem startAddr_mem : P.startAddr ∈ l := mem_of_mem_head? h.head

theorem ring_mem (ho : o ∈ P.freeHeader :: F) : o ∈ T := by
  rcases mem_cons.mp ho with rfl | ho
  · exact h.root
  · exact h.free o ho

theorem le_tailer (ho : o ∈ l) : o = P.tailer ∨ o + 24 ≤ P.tailer := by
  by_cases hne : o = P.tailer
  · exact .inl hne
  · exact .inr (h.chain.add_le_last h.last ho hne)

theorem startAddr_le (ho : o ∈ l) : o = P.startAddr ∨ P.startAddr + 24 ≤ o := by
  obtain ⟨zs, rfl⟩ := head?_eq_some_iff.mp h.head
  rcases mem_cons.mp ho with rfl | ho
  · exact .inl rfl
  · have hchain : Chain 24 (fun _ => True) (next m) (prev m) ([] ++ P.startAddr :: zs) := h.chain
    exact .inr (hchain.around.2 o ho)

theorem exists_next (ha : a ∈ l) (hne : a ≠ P.tailer) : ∃ xs ys, l = xs ++ a :: next m a :: ys := by
  obtain ⟨xs, b, ys, rfl⟩ := BlockChain.exists_next ha h.last hne
  exact ⟨xs, ys, by rw [h.linked.1]⟩

end

/-- The block list does not change. -/
theorem of_blocks (h : Layout P T m l F₁) (hnext : ∀ o ∈ T, next m' o = next m o)
    (hprev : ∀ o ∈ T, prev m' o = prev m o) (hpool : ∀ o ∈ T, Item.poolPtr m' o = Item.poolPtr m o)
    (hF : ∀ o ∈ F, o ∈ T) (hring : IsRing (nextFree m') (prevFree m') P.freeHeader F) :
    Layout P T m' l F :=
  { h with
    free := hF
    chain := h.chain.congr (fun o ho => hnext o (h.blocks o ho))
      fun o ho _ => hprev o (h.blocks o ho)
    closedNext := by rw [hnext _ (h.blocks _ h.tailer_mem), h.closedNext]
    closedPrev := by rw [hprev _ (h.blocks _ h.startAddr_mem), h.closedPrev]
    poolPtr := fun o ho => by rw [hpool o (h.blocks o ho), h.poolPtr o ho]
    ring := hring }

/-- Marks do not matter. -/
theorem congr (h : Layout P T m l F)
    (hitem : ∀ o ∈ T, item m' o = { item m o with magic := magic m' o }) :
    Layout P T m' l F := by
  refine h.of_blocks (fun o ho => congrArg Fields.next (hitem o ho))
    (fun o ho => congrArg Fields.prev (hitem o ho))
    (fun o ho => congrArg Fields.poolPtr (hitem o ho)) h.free ?_
  exact h.ring.congr (fun o ho => congrArg Fields.nextFree (hitem o (h.ring_mem ho)))
    fun o ho => congrArg Fields.prevFree (hitem o (h.ring_mem ho))

theorem setMagic {v : ℕ} (h : Layout P T m l F) (ha : a ∈ T) : Layout P T (setMagic m a v) l F := by
  refine h.congr fun o ho => ?_
  have hitem := item_setMagic (m := m) (v := v) (h.sep o ho a ha)
  rw [show magic (Item.setMagic m a v) o = _ from congrArg Fields.magic hitem]
  exact hitem

/-! ## The free list -/

/-- Only links of the free list change. -/
theorem of_ring {n p : ℕ → ℕ} (h : Layout P T m l F₁)
    (hitem : ∀ o ∈ T, item m' o = { item m o with nextFree := n o, prevFree := p o })
    (hF : ∀ o ∈ F, o ∈ T) (hring : IsRing n p P.freeHeader F) :
    Layout P T m' l F ∧ ∀ o ∈ T, SameBlock m m' o := by
  have hnext : ∀ o ∈ T, next m' o = next m o := fun o ho => congrArg Fields.next (hitem o ho)
  have hmem : ∀ o ∈ P.freeHeader :: F, o ∈ T := by
    intro o ho
    rcases mem_cons.mp ho with rfl | ho
    · exact h.root
    · exact hF o ho
  refine ⟨?_, fun o ho => ⟨congrArg Fields.magic (hitem o ho), hnext o ho⟩⟩
  refine h.of_blocks hnext (fun o ho => congrArg Fields.prev (hitem o ho))
    (fun o ho => congrArg Fields.poolPtr (hitem o ho)) hF ?_
  exact hring.congr (fun o ho => congrArg Fields.nextFree (hitem o (hmem o ho)))
    fun o ho => congrArg Fields.prevFree (hitem o (hmem o ho))

theorem unlinkFree (h : Layout P T m l (F₁ ++ x :: F₂)) :
    Layout P T (unlinkFree m x) l (F₁ ++ F₂) ∧ ∀ o ∈ T, SameBlock m (unlinkFree m x) o := by
  have hx : x ∈ F₁ ++ x :: F₂ := by simp
  have hn := h.ring_mem (h.ring.next_mem (.tail _ hx))
  have hp := h.ring_mem (h.ring.prev_mem hx)
  have hF : ∀ o ∈ F₁ ++ F₂, o ∈ T := fun o ho => h.free o (mem_middle.mpr (.inr ho))
  exact h.of_ring (fun o ho => item_unlinkFree h.sep (h.free x hx) hn hp ho) hF
    (h.ring.unlink (fun _ _ => rfl) fun _ _ => rfl)

theorem clearFree (h : Layout P T m l F) (hx : x ∈ T) (hxF : x ∉ P.freeHeader :: F) :
    Layout P T (clearFree m x) l F ∧ ∀ o ∈ T, SameBlock m (clearFree m x) o := by
  refine h.of_ring (fun o ho => item_clearFree (h.sep o ho x hx)) h.free
    (h.ring.congr (fun o ho => if_neg ?_) fun o ho => if_neg ?_)
  · rintro rfl
    exact hxF ho
  · rintro rfl
    exact hxF ho

theorem insertFree (h : Layout P T m l F) (hx : x ∈ T) (hxF : x ∉ P.freeHeader :: F) :
    Layout P T (insertFree m x P.freeList) l (x :: F) ∧
      ∀ o ∈ T, SameBlock m (insertFree m x P.freeList) o := by
  have hn := h.ring_mem (h.ring.next_mem (a := P.freeHeader) (by simp))
  have hne : x ≠ P.freeHeader := by
    rintro rfl
    simp at hxF
  have hF : ∀ o ∈ x :: F, o ∈ T := by
    intro o ho
    rcases mem_cons.mp ho with rfl | ho
    · exact hx
    · exact h.free o ho
  exact h.of_ring (fun o ho => item_insertFree h.sep hx h.root hn hne ho) hF
    (h.ring.cons hxF (fun _ _ => rfl) fun _ _ => rfl)

/-! ## The block list -/

/-- A header inside the block at `a` is a new one. -/
theorem notMem_inside (h : Layout P T m (xs ++ a :: b :: ys) F) (hac : a + 24 ≤ c)
    (hcb : c + 24 ≤ b) : c ∉ xs ++ a :: b :: ys := by
  intro hc
  have := h.chain.le_or_le hc
  omega

/-- A new block at `c`, in the block at `a`. -/
theorem insertBlock (h : Layout P T m (xs ++ a :: b :: ys) F) (hc : c ∈ T) (hac : a + 24 ≤ c)
    (hcb : c + 24 ≤ b) :
    Layout P T (insertBlock (newItem m c P.memheap) a c) (xs ++ a :: c :: b :: ys) F ∧
      ∀ o ∈ T,
        magic (Item.insertBlock (newItem m c P.memheap) a c) o =
          (if o = c then memheapMagic else magic m o) ∧
        next (Item.insertBlock (newItem m c P.memheap) a c) o =
          if o = a then c else if o = c then b else next m o := by
  have hmem : a ∈ xs ++ a :: b :: ys ∧ b ∈ xs ++ a :: b :: ys := by simp
  have hat := h.blocks a hmem.1
  have hbt := h.blocks b hmem.2
  obtain ⟨hab, -, -⟩ := h.linked
  have hnew : ∀ o ∈ T, item (newItem m c P.memheap) o =
      { item m o with
        magic := if o = c then memheapMagic else (item m o).magic
        poolPtr := if o = c then P.memheap else (item m o).poolPtr } :=
    fun o ho => item_newItem (h.sep o ho c hc)
  have hnext : next (newItem m c P.memheap) a = b := (congrArg Fields.next (hnew a hat)).trans hab
  have hitem : ∀ o ∈ T, item (Item.insertBlock (newItem m c P.memheap) a c) o =
      { item m o with
        magic := if o = c then memheapMagic else magic m o
        poolPtr := if o = c then P.memheap else Item.poolPtr m o
        next := if o = a then c else if o = c then b else next m o
        prev := if o = b then c else if o = c then a else prev m o } := by
    intro o ho
    rw [item_insertBlock h.sep hat hc (by rw [hnext]; exact hbt) (by omega) ho, hnext, hnew o ho]
    rfl
  set m' := Item.insertBlock (newItem m c P.memheap) a c
  have hnext' : ∀ o ∈ T, next m' o = if o = a then c else if o = c then b else next m o :=
    fun o ho => congrArg Fields.next (hitem o ho)
  have hprev' : ∀ o ∈ T, prev m' o = if o = b then c else if o = c then a else prev m o :=
    fun o ho => congrArg Fields.prev (hitem o ho)
  have hne : ∀ o ∈ xs ++ a :: b :: ys, o ≠ c := by
    rintro o ho rfl
    exact h.notMem_inside hac hcb ho
  have hbtail := h.le_tailer hmem.2
  have hbstart := h.startAddr_le hmem.1
  refine ⟨?_, fun o ho => ⟨congrArg Fields.magic (hitem o ho), hnext' o ho⟩⟩
  exact
    { h with
      blocks := by
        intro o ho
        rcases mem_behind.mp ho with rfl | ho
        · exact hc
        · exact h.blocks o ho
      head := by cases xs <;> simpa using h.head
      last := by simpa [getLast?_append] using h.last
      chain := by
        refine h.chain.insert (by norm_num) hac hcb (fun o ho hoa => ?_) (fun o ho hob _ => ?_)
          ?_ ?_ (fun _ => ?_) fun _ => ?_
        · rw [hnext' o (h.blocks o ho), if_neg hoa, if_neg (hne o ho)]
        · rw [hprev' o (h.blocks o ho), if_neg hob, if_neg (hne o ho)]
        · rw [hnext' a hat, if_pos rfl]
        · rw [hnext' c hc, if_neg (by omega), if_pos rfl]
        · rw [hprev' c hc, if_neg (by omega), if_pos rfl]
        · rw [hprev' b hbt, if_pos rfl]
      closedNext := by
        rw [hnext' _ (h.blocks _ h.tailer_mem), if_neg (by omega), if_neg (by omega), h.closedNext]
      closedPrev := by
        rw [hprev' _ (h.blocks _ h.startAddr_mem), if_neg (by omega), if_neg (by omega),
          h.closedPrev]
      poolPtr := by
        intro o ho
        by_cases hoc : o = c
        · rw [show Item.poolPtr m' o = _ from congrArg Fields.poolPtr (hitem o (hoc ▸ hc))]
          exact if_pos hoc
        · have ho' := (mem_behind.mp ho).resolve_left hoc
          rw [show Item.poolPtr m' o = _ from congrArg Fields.poolPtr (hitem o (h.blocks o ho'))]
          exact (if_neg hoc).trans (h.poolPtr o ho')
      ring := h.ring.congr (fun o ho => congrArg Fields.nextFree (hitem o (h.ring_mem ho)))
        fun o ho => congrArg Fields.prevFree (hitem o (h.ring_mem ho)) }

/-- The block at `x` leaves the block list; the block at `a` takes its space. -/
theorem remove (h : Layout P T m (xs ++ a :: x :: b :: ys) F)
    (hitem : ∀ o ∈ T, item m' o =
      { item m o with
        next := if o = a then b else (item m o).next
        prev := if o = b then a else (item m o).prev }) :
    Layout P T m' (xs ++ a :: b :: ys) F ∧
      ∀ o ∈ T, magic m' o = magic m o ∧ next m' o = if o = a then b else next m o := by
  have hsub : ∀ o ∈ xs ++ a :: b :: ys, o ∈ xs ++ a :: x :: b :: ys :=
    fun o ho => mem_behind.mpr (.inr ho)
  have hmem : a ∈ xs ++ a :: x :: b :: ys ∧ x ∈ xs ++ a :: x :: b :: ys ∧
      b ∈ xs ++ a :: x :: b :: ys := by simp
  have h' : Layout P T m ((xs ++ [a]) ++ x :: b :: ys) F := by simpa using h
  have hax := h.linked
  have hxb := h'.linked
  have hnext : ∀ o ∈ T, next m' o = if o = a then b else next m o :=
    fun o ho => congrArg Fields.next (hitem o ho)
  have hprev : ∀ o ∈ T, prev m' o = if o = b then a else prev m o :=
    fun o ho => congrArg Fields.prev (hitem o ho)
  have hxtail := h.le_tailer hmem.2.1
  have hxstart := h.startAddr_le hmem.2.1
  refine ⟨?_, fun o ho => ⟨congrArg Fields.magic (hitem o ho), hnext o ho⟩⟩
  exact
    { h with
      blocks := fun o ho => h.blocks o (hsub o ho)
      head := by cases xs <;> simpa using h.head
      last := by simpa [getLast?_append] using h.last
      chain := by
        refine h.chain.remove (by norm_num) (fun o ho hoa => ?_) (fun o ho hob _ => ?_) ?_
          fun _ => ?_
        · rw [hnext o (h.blocks o (hsub o ho)), if_neg hoa]
        · rw [hprev o (h.blocks o (hsub o ho)), if_neg hob]
        · rw [hnext a (h.blocks a hmem.1), if_pos rfl]
        · rw [hprev b (h.blocks b hmem.2.2), if_pos rfl]
      closedNext := by
        rw [hnext _ (h.blocks _ h.tailer_mem), if_neg (by omega), h.closedNext]
      closedPrev := by
        rw [hprev _ (h.blocks _ h.startAddr_mem), if_neg (by omega), h.closedPrev]
      poolPtr := fun o ho => by
        rw [show Item.poolPtr m' o = Item.poolPtr m o from
          congrArg Fields.poolPtr (hitem o (h.blocks o (hsub o ho))), h.poolPtr o (hsub o ho)]
      ring := h.ring.congr (fun o ho => congrArg Fields.nextFree (hitem o (h.ring_mem ho)))
        fun o ho => congrArg Fields.prevFree (hitem o (h.ring_mem ho)) }

section Remove

variable (h : Layout P T m (xs ++ a :: x :: b :: ys) F)
include h

/-- The links around the block that leaves. -/
theorem linked_around : next m a = x ∧ prev m x = a ∧ next m x = b ∧ a ∈ T ∧ x ∈ T ∧ b ∈ T := by
  have h' : Layout P T m ((xs ++ [a]) ++ x :: b :: ys) F := by simpa using h
  exact ⟨h.linked.1, h.linked.2.2, h'.linked.1, h.blocks a (by simp), h.blocks x (by simp),
    h.blocks b (by simp)⟩

theorem removeBlock :
    Layout P T (removeBlock m x) (xs ++ a :: b :: ys) F ∧
      ∀ o ∈ T, magic (removeBlock m x) o = magic m o ∧
        next (removeBlock m x) o = if o = a then b else next m o := by
  obtain ⟨hax, hxa, hxb, hat, hxt, hbt⟩ := h.linked_around
  refine h.remove fun o ho => ?_
  rw [item_removeBlock h.sep hxt (by rwa [hxb]) (by rwa [hxa]) ho, hxa, hxb]

theorem mergePrev :
    Layout P T (mergePrev m x) (xs ++ a :: b :: ys) F ∧
      ∀ o ∈ T, magic (mergePrev m x) o = magic m o ∧
        next (mergePrev m x) o = if o = a then b else next m o := by
  obtain ⟨hax, hxa, hxb, hat, hxt, hbt⟩ := h.linked_around
  refine h.remove fun o ho => ?_
  rw [item_mergePrev h.sep hxt (by rwa [hxb]) (by rwa [hxa]) ho, hxa, hxb]

theorem mergeNext :
    Layout P T (mergeNext m a) (xs ++ a :: b :: ys) F ∧
      ∀ o ∈ T, magic (mergeNext m a) o = magic m o ∧
        next (mergeNext m a) o = if o = a then b else next m o := by
  obtain ⟨hax, hxa, hxb, hat, hxt, hbt⟩ := h.linked_around
  refine h.remove fun o ho => ?_
  rw [item_mergeNext h.sep hat (by rwa [hax]) (by rwa [hax, hxb]) ho, hax, hxb]

end Remove

end Layout

end RtThread
