import RtThread.Memory.MemheapLayout

/-!
# The memory heap invariant

`Good P m l F`: the blocks `l` tile the pool, the free list `F` consists of the
free ones, and no two neighbours are free. The bytes of the free blocks are
counted by `freeBytes`. A block that has become free is first a hole (`Hole`)
around which neighbours may be free, and which need not be in the free list.
-/

namespace RtThread

open BlockChain CircularList Item

/-- The pool has room for two headers, does not wrap around, and `free_header` is not in it. -/
structure Pool.Ok (P : Pool) : Prop where
  size : 48 ≤ P.poolSize
  space : P.startAddr + P.poolSize ≤ 2 ^ 32
  headerSpace : P.freeHeader + 24 ≤ 2 ^ 32
  header : P.freeHeader + 24 ≤ P.startAddr ∨ P.startAddr + P.poolSize ≤ P.freeHeader

/-- All headers, `free_header` included. -/
def headers (P : Pool) (l : List ℕ) : Set ℕ := {o | o = P.freeHeader ∨ o ∈ l}

/-- The block at `o` is free. -/
def Free (m : ℕ → ℕ) (o : ℕ) : Prop := magic m o = memheapMagic
  deriving Decidable

/-- Every block is marked as free or as used. -/
def Marked (m : ℕ → ℕ) (l : List ℕ) : Prop :=
  ∀ o ∈ l, magic m o = memheapMagic ∨ magic m o = memheapMagic + 1

/-- The bytes that the block at `o` contributes to `available_size`. -/
def weight (m : ℕ → ℕ) (o : ℕ) : ℕ := if Free m o then next m o - o - 24 else 0

def freeBytes (m : ℕ → ℕ) (l : List ℕ) : ℕ := (l.map (weight m)).sum

/-- The used blocks, other than the tailer. -/
def Pool.usedBlocks (P : Pool) (m : ℕ → ℕ) (l : List ℕ) : Set ℕ :=
  {o | o ∈ l ∧ o ≠ P.tailer ∧ ¬ Free m o}

/-- The invariant of the two lists. -/
structure Good (P : Pool) (m : ℕ → ℕ) (l F : List ℕ) : Prop where
  layout : Layout P (headers P l) m l F
  marked : Marked m l
  tailer : ¬ Free m P.tailer
  mem_free : ∀ o, o ∈ F ↔ o ∈ l ∧ Free m o
  alternating : Alternating (Free m) l

variable {P : Pool} {T T' : Set ℕ} {m m' : ℕ → ℕ} {l l' F F₁ F₂ xs ys : List ℕ} {a b c o x : ℕ}

theorem isUsed_iff (hm : Marked m l) (ho : o ∈ l) : IsUsed m o ↔ ¬ Free m o := by
  unfold IsUsed Free
  rcases hm o ho with h | h <;> rw [h] <;> decide

theorem not_isUsed_iff (hm : Marked m l) (ho : o ∈ l) : ¬ IsUsed m o ↔ Free m o :=
  not_iff_comm.mp (isUsed_iff hm ho).symm

theorem free_congr (h : magic m' o = magic m o) : Free m' o ↔ Free m o := by
  rw [Free, Free, h]

theorem Marked.congr (h : Marked m l) (hsub : ∀ o ∈ l', o ∈ l)
    (hmagic : ∀ o ∈ l', magic m' o = magic m o) : Marked m' l' := by
  intro o ho
  rw [hmagic o ho]
  exact h o (hsub o ho)

theorem usedBlocks_congr (hmagic : ∀ o ∈ l, magic m' o = magic m o) :
    P.usedBlocks m' l = P.usedBlocks m l := by
  ext o
  refine and_congr_right fun ho => ?_
  rw [free_congr (hmagic o ho)]

theorem weight_congr (hsame : SameBlock m m' o) : weight m' o = weight m o := by
  unfold weight
  simp only [free_congr hsame.1, hsame.2]

theorem freeBytes_congr (hsame : ∀ o ∈ l, SameBlock m m' o) : freeBytes m' l = freeBytes m l := by
  unfold freeBytes
  rw [List.map_congr_left fun o ho => weight_congr (hsame o ho)]

@[simp] theorem freeBytes_append : freeBytes m (xs ++ ys) = freeBytes m xs + freeBytes m ys := by
  simp [freeBytes]

@[simp] theorem freeBytes_cons : freeBytes m (a :: ys) = weight m a + freeBytes m ys := by
  simp [freeBytes]

/-- Only the block at `a` changes. -/
theorem freeBytes_change (hnd : (xs ++ a :: ys).Nodup)
    (hsame : ∀ o ∈ xs ++ a :: ys, o ≠ a → SameBlock m m' o) :
    freeBytes m' (xs ++ a :: ys) + weight m a = freeBytes m (xs ++ a :: ys) + weight m' a := by
  obtain ⟨hna, -⟩ := List.nodup_cons.mp (List.perm_middle.nodup_iff.mp hnd)
  rw [List.mem_append, not_or] at hna
  have hxs : freeBytes m' xs = freeBytes m xs := by
    refine freeBytes_congr fun o ho => hsame o (by simp [ho]) ?_
    rintro rfl
    exact hna.1 ho
  have hys : freeBytes m' ys = freeBytes m ys := by
    refine freeBytes_congr fun o ho => hsame o (by simp [ho]) ?_
    rintro rfl
    exact hna.2 ho
  simp only [freeBytes_append, freeBytes_cons, hxs, hys]
  omega

/-- Only the extent of a used block changes. -/
theorem freeBytes_used (hnd : (xs ++ a :: ys).Nodup) (ha : ¬ Free m a)
    (hmagic : ∀ o ∈ xs ++ a :: ys, magic m' o = magic m o)
    (hnext : ∀ o ∈ xs ++ a :: ys, o ≠ a → next m' o = next m o) :
    freeBytes m' (xs ++ a :: ys) = freeBytes m (xs ++ a :: ys) := by
  have hchange := freeBytes_change hnd fun o ho hoa =>
    (⟨hmagic o ho, hnext o ho hoa⟩ : SameBlock m m' o)
  have hwa : weight m a = 0 := if_neg ha
  have hwa' : weight m' a = 0 := if_neg fun hf => ha ((free_congr (hmagic a (by simp))).mp hf)
  omega

/-! ## Headers that take part -/

/-- The headers that are in neither list can be left out. -/
theorem Layout.restrict (h : Layout P T m l F) (hF : ∀ o ∈ F, o ∈ l) :
    Layout P (headers P l) m l F := by
  have hsub : ∀ o ∈ headers P l, o ∈ T := by
    rintro o (rfl | ho)
    · exact h.root
    · exact h.blocks o ho
  exact
    { h with
      sep := fun a ha b hb => h.sep a (hsub a ha) b (hsub b hb)
      root := .inl rfl
      blocks := fun o ho => .inr ho
      free := fun o ho => .inr (hF o ho) }

/-- Room for one more header, in the block at `a`. -/
theorem Layout.track (hP : P.Ok) (h : Layout P (headers P (xs ++ a :: b :: ys)) m
    (xs ++ a :: b :: ys) F) (hac : a + 24 ≤ c) (hcb : c + 24 ≤ b) :
    Layout P (insert c (headers P (xs ++ a :: b :: ys))) m (xs ++ a :: b :: ys) F := by
  have hstart := h.startAddr_le (o := a) (by simp)
  have htail := h.le_tailer (o := b) (by simp)
  have hcApart : ∀ o ∈ headers P (xs ++ a :: b :: ys), Apart 24 c o := by
    intro o ho
    unfold Apart
    have hheader := hP.header
    unfold Pool.tailer at htail
    rcases ho with rfl | ho
    · omega
    · have := h.chain.le_or_le ho
      omega
  exact
    { h with
      sep := by
        rintro u (rfl | hu) v (rfl | hv)
        · exact .inl rfl
        · exact hcApart v hv
        · exact (hcApart u hu).symm
        · exact h.sep u hu v hv
      root := .inr h.root
      blocks := fun o ho => .inr (h.blocks o ho)
      free := fun o ho => .inr (h.free o ho) }

/-! ## Sizes -/

theorem Layout.payload (h : Layout P T m l F) (ha : a ∈ l) (hne : a ≠ P.tailer) :
    a + 24 ≤ next m a ∧ next m a ≤ P.tailer := by
  obtain ⟨xs, ys, rfl⟩ := h.exists_next ha hne
  have hnext := h.le_tailer (o := next m a) (by simp)
  exact ⟨h.linked.2.1, by omega⟩

/-- `MEMITEM_SIZE` is the size of a block. -/
theorem Layout.memitemSize (hP : P.Ok) (h : Layout P T m l F) (ha : a ∈ l) (hne : a ≠ P.tailer) :
    memitemSize m a = next m a - a - 24 := by
  obtain ⟨h1, h2⟩ := h.payload ha hne
  have hspace := hP.space
  unfold Pool.tailer at h2
  unfold Item.memitemSize memheapSize
  rw [sub32_of_le (show a ≤ next m a by omega) (by omega), sub32_of_le (by omega) (by omega)]

/-- The free bytes fit between the first and the last header. -/
theorem freeBytes_le {e : ℕ} (hchain : Chain 24 (fun _ => True) (next m) (prev m) (a :: l))
    (hlast : (a :: l).getLast? = some e) (he : ¬ Free m e) : a + freeBytes m (a :: l) ≤ e := by
  induction l generalizing a with
  | nil =>
    obtain rfl : a = e := by simpa using hlast
    simp [freeBytes, weight, he]
  | cons b l ih =>
    obtain ⟨⟨hab, hle, -⟩, hchain'⟩ := List.isChain_cons_cons.mp hchain
    have ih' := ih hchain' hlast
    have hw : weight m a ≤ b - a - 24 := by
      unfold weight
      split_ifs
      · rw [hab]
      · omega
    rw [freeBytes_cons]
    omega

theorem Layout.freeBytes_le (h : Layout P T m l F) (ht : ¬ Free m P.tailer) :
    P.startAddr + freeBytes m l ≤ P.tailer := by
  obtain ⟨zs, rfl⟩ := List.head?_eq_some_iff.mp h.head
  exact freeBytes_le h.chain h.last ht

theorem Good.nodup (h : Good P m l F) : F.Nodup := (List.nodup_cons.mp h.layout.ring.nodup).2

/-- The count over the free list is the same. -/
theorem Good.sum_free (h : Good P m l F) :
    (F.map fun o => next m o - o - 24).sum = freeBytes m l := by
  have hperm : List.Perm F (l.filter fun o => Free m o) := by
    refine (List.perm_ext_iff_of_nodup h.nodup ?_).mpr fun o => ?_
    · exact (h.layout.chain.nodup (by norm_num)).filter _
    · rw [h.mem_free, List.mem_filter, decide_eq_true_iff]
  rw [(hperm.map _).sum_eq]
  unfold freeBytes
  clear hperm h
  induction l with
  | nil => rfl
  | cons a l ih =>
    rw [List.map_cons, List.sum_cons, ← ih]
    unfold weight
    by_cases ha : Free m a <;> simp [ha]

/-! ## What clients write -/

/-- Only the headers matter. -/
theorem Good.congr (h : Good P m l F) (hitem : ∀ o ∈ headers P l, item m' o = item m o) :
    Good P m' l F ∧ freeBytes m' l = freeBytes m l ∧ P.usedBlocks m' l = P.usedBlocks m l := by
  have hsame : ∀ o ∈ l, SameBlock m m' o := fun o ho =>
    ⟨congrArg Fields.magic (hitem o (.inr ho)), congrArg Fields.next (hitem o (.inr ho))⟩
  have hmagic : ∀ o ∈ l, magic m' o = magic m o := fun o ho => (hsame o ho).1
  have hfree : ∀ o ∈ l, Free m' o ↔ Free m o := fun o ho => free_congr (hmagic o ho)
  refine ⟨⟨h.layout.congr fun o ho => ?_, h.marked.congr (fun _ ho => ho) hmagic, ?_, fun o => ?_,
    ?_⟩, freeBytes_congr hsame, usedBlocks_congr hmagic⟩
  · rw [hitem o ho, show magic m' o = magic m o from congrArg Fields.magic (hitem o ho)]
    rfl
  · rw [hfree _ h.layout.tailer_mem]
    exact h.tailer
  · rw [h.mem_free o]
    exact and_congr_right fun ho => (hfree o ho).symm
  · exact h.alternating.congr fun o ho => (hfree o ho).mp

/-- What a block holds does not matter. -/
theorem Good.write (hP : P.Ok) (h : Good P m l F) (ha : a ∈ l) (hne : a ≠ P.tailer)
    (hmem : ∀ w, w < a + 24 ∨ next m a ≤ w → m' w = m w) :
    Good P m' l F ∧ freeBytes m' l = freeBytes m l ∧ P.usedBlocks m' l = P.usedBlocks m l := by
  have hpay := h.layout.payload ha hne
  have hstart := h.layout.startAddr_le ha
  refine h.congr fun o ho => ?_
  have hout : o + 24 ≤ a + 24 ∨ next m a ≤ o := by
    rcases ho with rfl | ho
    · have hheader := hP.header
      have htail : P.tailer = P.startAddr + P.poolSize - 24 := rfl
      omega
    · obtain ⟨xs, ys, hl⟩ := h.layout.exists_next ha hne
      have hchain := h.layout.chain
      rw [hl] at hchain ho
      have := hchain.le_or_le ho
      omega
  have hword : ∀ i, i < 6 → m' (o + 4 * i) = m (o + 4 * i) := fun i hi => hmem _ (by omega)
  simp only [item, magic, poolPtr, next, prev, nextFree, prevFree, field, hword 0 (by norm_num),
    hword 1 (by norm_num), hword 2 (by norm_num), hword 3 (by norm_num), hword 4 (by norm_num),
    hword 5 (by norm_num)]

/-! ## Holes -/

/-- The block at `a` has become free: its neighbours may be free too, and it is in the free list
only if it is `linked`. -/
structure Hole (P : Pool) (T : Set ℕ) (m : ℕ → ℕ) (xs : List ℕ) (a : ℕ) (ys F : List ℕ)
    (linked : Prop) : Prop where
  layout : Layout P T m (xs ++ a :: ys) F
  marked : Marked m (xs ++ a :: ys)
  tailer : ¬ Free m P.tailer
  free : Free m a
  before : Alternating (Free m) xs
  behind : Alternating (Free m) ys
  mem_free : ∀ o, o ∈ F ↔ o ∈ xs ++ a :: ys ∧ Free m o ∧ (o = a → linked)

theorem Layout.ne_freeHeader (hP : P.Ok) (h : Layout P T m l F) (ho : o ∈ l) :
    o ≠ P.freeHeader := by
  have hstart := h.startAddr_le ho
  have htail := h.le_tailer ho
  have hsize := hP.size
  have hheader := hP.header
  unfold Pool.tailer at htail
  omega

/-- With used neighbours, a hole that is linked is no hole. -/
theorem Hole.good (h : Hole P T m xs a ys F True) (hleft : ∀ p ∈ xs.getLast?, ¬ Free m p)
    (hright : ∀ d ∈ ys.head?, ¬ Free m d) : Good P m (xs ++ a :: ys) F := by
  have hmem : ∀ o, o ∈ F ↔ o ∈ xs ++ a :: ys ∧ Free m o := by
    intro o
    rw [h.mem_free o]
    tauto
  exact
    { layout := h.layout.restrict fun o ho => ((hmem o).mp ho).1
      marked := h.marked
      tailer := h.tailer
      mem_free := hmem
      alternating := alternating_middle.mpr
        ⟨h.before, h.behind, fun p hp hf => hleft p hp hf.1, fun d hd hf => hright d hd hf.2⟩ }

theorem Hole.insertFree (hP : P.Ok) (h : Hole P T m xs a ys F False) :
    Hole P T (insertFree m a P.freeList) xs a ys (a :: F) True ∧
      ∀ o ∈ T, SameBlock m (insertFree m a P.freeList) o := by
  have ha : a ∈ xs ++ a :: ys := by simp
  have haF : a ∉ P.freeHeader :: F := by
    rw [List.mem_cons, h.mem_free a]
    have := h.layout.ne_freeHeader hP ha
    tauto
  obtain ⟨hlayout, hsame⟩ := h.layout.insertFree (h.layout.blocks a ha) haF
  have hmagic : ∀ o ∈ xs ++ a :: ys, magic (Item.insertFree m a P.freeList) o = magic m o :=
    fun o ho => (hsame o (h.layout.blocks o ho)).1
  have hfree : ∀ o ∈ xs ++ a :: ys, Free (Item.insertFree m a P.freeList) o ↔ Free m o :=
    fun o ho => free_congr (hmagic o ho)
  refine ⟨⟨hlayout, h.marked.congr (fun _ ho => ho) hmagic, ?_, ?_, ?_, ?_, fun o => ?_⟩, hsame⟩
  · rw [hfree _ h.layout.tailer_mem]
    exact h.tailer
  · rw [hfree a ha]
    exact h.free
  · exact h.before.congr fun o ho => (hfree o (by simp [ho])).mp
  · exact h.behind.congr fun o ho => (hfree o (by simp [ho])).mp
  · rw [List.mem_cons, h.mem_free o]
    constructor
    · rintro (rfl | ⟨ho, hf, -⟩)
      · exact ⟨ha, (hfree o ha).mpr h.free, fun _ => trivial⟩
      · exact ⟨ho, (hfree o ho).mpr hf, fun _ => trivial⟩
    · rintro ⟨ho, hf, -⟩
      by_cases hoa : o = a
      · exact .inl hoa
      · exact .inr ⟨ho, (hfree o ho).mp hf, hoa⟩

/-- A hole between used blocks that is put into the free list is no hole. -/
theorem Hole.close (hP : P.Ok) (h : Hole P T m xs a ys F False)
    (hleft : ∀ p ∈ xs.getLast?, ¬ Free m p) (hright : ∀ d ∈ ys.head?, ¬ Free m d) :
    Good P (Item.insertFree m a P.freeList) (xs ++ a :: ys) (a :: F) ∧
      freeBytes (Item.insertFree m a P.freeList) (xs ++ a :: ys) = freeBytes m (xs ++ a :: ys) ∧
      P.usedBlocks (Item.insertFree m a P.freeList) (xs ++ a :: ys) =
        P.usedBlocks m (xs ++ a :: ys) ∧
      next (Item.insertFree m a P.freeList) a = next m a := by
  obtain ⟨hhole, hsame⟩ := h.insertFree hP
  have hsame' : ∀ o ∈ xs ++ a :: ys, SameBlock m (Item.insertFree m a P.freeList) o :=
    fun o ho => hsame o (h.layout.blocks o ho)
  refine ⟨hhole.good (fun p hp => ?_) fun d hd => ?_, freeBytes_congr hsame',
    usedBlocks_congr fun o ho => (hsame' o ho).1, (hsame' a (by simp)).2⟩
  · rw [free_congr (hsame' p (List.mem_append_left _ (List.mem_of_getLast? hp))).1]
    exact hleft p hp
  · rw [free_congr (hsame' d (List.mem_append_right _ (.tail _ (List.mem_of_mem_head? hd)))).1]
    exact hright d hd

/-- A block is in each list once. -/
theorem Layout.notMem_removed (h : Layout P T m (xs ++ a :: x :: b :: ys) F) :
    x ∉ xs ++ a :: b :: ys := by
  have hnodup := h.chain.nodup (by norm_num)
  grind

theorem Layout.notMem_unlinked (h : Layout P T m l (F₁ ++ x :: F₂)) : x ∉ F₁ ++ F₂ := by
  have hnodup := (List.nodup_cons.mp h.ring.nodup).2
  exact (List.nodup_cons.mp (List.perm_middle.nodup_iff.mp hnodup)).1

/-- The block at `x` leaves both lists. -/
theorem Layout.mem_remove {R : ℕ → Prop}
    (h : Layout P T m (xs ++ a :: x :: b :: ys) (F₁ ++ x :: F₂))
    (hF : ∀ o, o ∈ F₁ ++ x :: F₂ ↔ o ∈ xs ++ a :: x :: b :: ys ∧ R o) (o : ℕ) :
    o ∈ F₁ ++ F₂ ↔ o ∈ xs ++ a :: b :: ys ∧ R o := by
  have hiff := hF o
  rw [mem_middle, mem_behind] at hiff
  constructor
  · intro ho
    have hox : o ≠ x := by
      rintro rfl
      exact h.notMem_unlinked ho
    obtain ⟨ho', hR⟩ := hiff.mp (.inr ho)
    exact ⟨ho'.resolve_left hox, hR⟩
  · rintro ⟨ho, hR⟩
    have hox : o ≠ x := by
      rintro rfl
      exact h.notMem_removed ho
    exact (hiff.mpr ⟨.inr ho, hR⟩).resolve_left hox

/-- The block at `x` leaves the block list: what changes in the count. -/
theorem freeBytes_remove (hchain : Chain 24 (fun _ => True) (next m) (prev m)
    (xs ++ a :: x :: b :: ys)) (ha : Free m a) (hx : Free m x)
    (hmagic : ∀ o ∈ xs ++ a :: b :: ys, magic m' o = magic m o)
    (hnext : ∀ o ∈ xs ++ a :: b :: ys, next m' o = if o = a then b else next m o) :
    freeBytes m' (xs ++ a :: b :: ys) = freeBytes m (xs ++ a :: x :: b :: ys) + 24 := by
  have hax := hchain.linked
  have hchain' : Chain 24 (fun _ => True) (next m) (prev m) ((xs ++ [a]) ++ x :: b :: ys) := by
    simpa using hchain
  have hxb := hchain'.linked
  have hnd : (xs ++ a :: b :: ys).Nodup := by
    have := hchain.nodup (by norm_num)
    grind
  have hchange := freeBytes_change hnd fun o ho hoa =>
    (⟨hmagic o ho, by rw [hnext o ho, if_neg hoa]⟩ : SameBlock m m' o)
  have hwa : weight m a = x - a - 24 := by
    rw [weight, if_pos ha, hax.1]
  have hwx : weight m x = b - x - 24 := by
    rw [weight, if_pos hx, hxb.1]
  have hwa' : weight m' a = b - a - 24 := by
    have ha' : Free m' a := (hmagic a (by simp)).trans ha
    rw [weight, if_pos ha', hnext a (by simp), if_pos rfl]
  have h1 := hax.2.1
  have h2 := hxb.2.1
  simp only [freeBytes_append, freeBytes_cons] at hchange ⊢
  omega

theorem usedBlocks_remove (hx : Free m x)
    (hmagic : ∀ o ∈ xs ++ a :: b :: ys, magic m' o = magic m o) :
    P.usedBlocks m' (xs ++ a :: b :: ys) = P.usedBlocks m (xs ++ a :: x :: b :: ys) := by
  ext o
  simp only [Pool.usedBlocks, Set.mem_ofPred_eq, Free]
  constructor
  · rintro ⟨ho, hne, hf⟩
    rw [hmagic o ho] at hf
    exact ⟨mem_behind.mpr (.inr ho), hne, hf⟩
  · rintro ⟨ho, hne, hf⟩
    have hox : o ≠ x := by
      rintro rfl
      exact hf hx
    have ho' := (mem_behind.mp ho).resolve_left hox
    exact ⟨ho', hne, by rwa [hmagic o ho']⟩

/-- The hole at `a` is merged with the free block before it, at `p`. -/
theorem Hole.left {p : ℕ} (h : Hole P T m (xs ++ [p]) a (b :: ys) F False) (hp : Free m p) :
    Hole P T (mergePrev m a) xs p (b :: ys) F True ∧
      (∀ q ∈ xs.getLast?, ¬ Free (mergePrev m a) q) ∧
      freeBytes (mergePrev m a) (xs ++ p :: b :: ys) =
        freeBytes m ((xs ++ [p]) ++ a :: b :: ys) + 24 ∧
      P.usedBlocks (mergePrev m a) (xs ++ p :: b :: ys) =
        P.usedBlocks m ((xs ++ [p]) ++ a :: b :: ys) := by
  have hlist : (xs ++ [p]) ++ a :: b :: ys = xs ++ p :: a :: b :: ys := by simp
  have hlayout := h.layout
  rw [hlist] at hlayout ⊢
  obtain ⟨hlayout', heffect⟩ := hlayout.mergePrev
  have hsub : ∀ o ∈ xs ++ p :: b :: ys, o ∈ xs ++ p :: a :: b :: ys :=
    fun o ho => mem_behind.mpr (.inr ho)
  have hmagic : ∀ o ∈ xs ++ p :: b :: ys, magic (mergePrev m a) o = magic m o :=
    fun o ho => (heffect o (hlayout'.blocks o ho)).1
  have hnext : ∀ o ∈ xs ++ p :: b :: ys, next (mergePrev m a) o = if o = p then b else next m o :=
    fun o ho => (heffect o (hlayout'.blocks o ho)).2
  have hfree : ∀ o ∈ xs ++ p :: b :: ys, Free (mergePrev m a) o ↔ Free m o :=
    fun o ho => free_congr (hmagic o ho)
  obtain ⟨hbefore, -, hbeforep, -⟩ := alternating_middle.mp h.before
  refine ⟨⟨hlayout', h.marked.congr (fun o ho => hlist ▸ hsub o ho) hmagic, ?_,
    (hfree p (by simp)).mpr hp, ?_, ?_, fun o => ?_⟩, fun q hq hf => ?_,
    freeBytes_remove hlayout.chain hp h.free hmagic hnext, usedBlocks_remove h.free hmagic⟩
  · rw [hfree _ hlayout'.tailer_mem]
    exact h.tailer
  · exact hbefore.congr fun o ho => (hfree o (by simp [ho])).mp
  · exact h.behind.congr fun o ho => (hfree o (List.mem_append_right _ (.tail _ ho))).mp
  · rw [h.mem_free o, hlist]
    constructor
    · rintro ⟨ho, hf, hoa⟩
      have ho' := (mem_behind.mp ho).resolve_left hoa
      exact ⟨ho', (hfree o ho').mpr hf, fun _ => trivial⟩
    · rintro ⟨ho, hf, -⟩
      refine ⟨hsub o ho, (hfree o ho).mp hf, ?_⟩
      rintro rfl
      exact hlayout.notMem_removed ho
  · have hqx : q ∈ xs := List.mem_of_getLast? hq
    exact hbeforep q hq ⟨(hfree q (by simp [hqx])).mp hf, hp⟩

/-- The hole at `a` is merged with the free block behind it, at `x`. -/
theorem Hole.right {linked : Prop} (h : Hole P T m xs a (x :: ys) F linked) (hx : Free m x) :
    ∃ b zs F', ys = b :: zs ∧ Hole P T (unlinkFree (mergeNext m a) x) xs a (b :: zs) F' linked ∧
      ¬ Free (unlinkFree (mergeNext m a) x) b ∧
      (∀ o ∈ xs, Free (unlinkFree (mergeNext m a) x) o ↔ Free m o) ∧
      freeBytes (unlinkFree (mergeNext m a) x) (xs ++ a :: b :: zs) =
        freeBytes m (xs ++ a :: x :: ys) + 24 ∧
      P.usedBlocks (unlinkFree (mergeNext m a) x) (xs ++ a :: b :: zs) =
        P.usedBlocks m (xs ++ a :: x :: ys) := by
  have hlayout := h.layout
  -- the tailer is not free
  obtain ⟨b, zs, rfl⟩ : ∃ b zs, ys = b :: zs := by
    cases ys with
    | nil =>
      have hlast := hlayout.last
      obtain rfl : x = P.tailer := by simpa using hlast
      exact absurd hx h.tailer
    | cons b zs => exact ⟨b, zs, rfl⟩
  have hxa : x ≠ a := by
    have := hlayout.linked.2.1
    omega
  obtain ⟨F₁, F₂, rfl⟩ :=
    List.append_of_mem ((h.mem_free x).mpr ⟨by simp, hx, fun hxa' => absurd hxa' hxa⟩)
  obtain ⟨hlayout₁, heffect₁⟩ := hlayout.mergeNext
  obtain ⟨hlayout₂, hsame₂⟩ := hlayout₁.unlinkFree
  set m₂ := unlinkFree (mergeNext m a) x
  have hsub : ∀ o ∈ xs ++ a :: b :: zs, o ∈ xs ++ a :: x :: b :: zs :=
    fun o ho => mem_behind.mpr (.inr ho)
  have hmagic : ∀ o ∈ xs ++ a :: b :: zs, magic m₂ o = magic m o := by
    intro o ho
    have hoT := hlayout₁.blocks o ho
    rw [(hsame₂ o hoT).1, (heffect₁ o hoT).1]
  have hnext : ∀ o ∈ xs ++ a :: b :: zs, next m₂ o = if o = a then b else next m o := by
    intro o ho
    have hoT := hlayout₁.blocks o ho
    rw [(hsame₂ o hoT).2, (heffect₁ o hoT).2]
  have hfree : ∀ o ∈ xs ++ a :: b :: zs, Free m₂ o ↔ Free m o :=
    fun o ho => free_congr (hmagic o ho)
  obtain ⟨hxb, hbehind⟩ := List.isChain_cons_cons.mp h.behind
  refine ⟨b, zs, F₁ ++ F₂, rfl, ⟨hlayout₂, h.marked.congr hsub hmagic, ?_, ?_, ?_, ?_,
    fun o => ?_⟩, ?_, fun o ho => hfree o (by simp [ho]),
    freeBytes_remove hlayout.chain h.free hx hmagic hnext, usedBlocks_remove hx hmagic⟩
  · rw [hfree _ hlayout₂.tailer_mem]
    exact h.tailer
  · exact (hfree a (by simp)).mpr h.free
  · exact h.before.congr fun o ho => (hfree o (by simp [ho])).mp
  · refine Alternating.congr (show Alternating (Free m) (b :: zs) from hbehind) fun o ho => ?_
    exact (hfree o (List.mem_append_right _ (.tail _ ho))).mp
  · rw [hlayout.mem_remove h.mem_free o]
    exact and_congr_right fun ho => and_congr_left fun _ => (hfree o ho).symm
  · rw [hfree b (by simp)]
    exact fun hb => hxb ⟨hx, hb⟩

end RtThread
