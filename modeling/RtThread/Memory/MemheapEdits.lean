import RtThread.Memory.MemheapInvariant

/-!
# Edits of a memory heap

What `src/memheap.c` does to the blocks of a pool, as steps from one `Good`
memory to the next: a used block is released (`Good.release`), a free block is
taken as a whole (`Good.take`) or in part (`Good.split`), a used block gives a
part of its space back (`Good.carve`) or takes the free block behind it
(`Good.absorb`). Each step says what becomes of the count of the free bytes and
of the set of the used blocks.
-/

namespace RtThread

open BlockChain CircularList Item List

variable {P : Pool} {m m' : ℕ → ℕ} {l F F₁ F₂ xs ys : List ℕ} {a b c o x : ℕ} {v : ℕ}

theorem Good.free_ne_tailer (h : Good P m l F) (ha : Free m a) : a ≠ P.tailer := by
  rintro rfl
  exact h.tailer ha

theorem Good.not_mem_ring (h : Good P m l (F₁ ++ a :: F₂)) (hP : P.Ok) :
    a ∉ P.freeHeader :: (F₁ ++ F₂) := by
  rw [mem_cons, not_or]
  exact ⟨h.layout.ne_freeHeader hP ((h.mem_free a).mp (by simp)).1, h.layout.notMem_unlinked⟩

theorem magic_setMagic (hoa : Apart 24 o a) :
    magic (setMagic m a v) o = if o = a then v else magic m o :=
  congrArg Fields.magic (item_setMagic hoa)

theorem next_setMagic (hoa : Apart 24 o a) : next (setMagic m a v) o = next m o :=
  congrArg Fields.next (item_setMagic hoa)

/-- A used block becomes a hole. -/
theorem Good.release (h : Good P m (xs ++ a :: b :: ys) F) (ha : ¬ Free m a) :
    Hole P (headers P (xs ++ a :: b :: ys)) (setMagic m a memheapMagic) xs a (b :: ys) F False ∧
      freeBytes (setMagic m a memheapMagic) (xs ++ a :: b :: ys) =
        freeBytes m (xs ++ a :: b :: ys) + (b - a - 24) ∧
      P.usedBlocks (setMagic m a memheapMagic) (xs ++ a :: b :: ys) =
        P.usedBlocks m (xs ++ a :: b :: ys) \ {a} := by
  have hmema : a ∈ xs ++ a :: b :: ys := by simp
  have hlayout := h.layout
  have hapart : ∀ o ∈ xs ++ a :: b :: ys, Apart 24 o a :=
    fun o ho => hlayout.chain.apart o ho a hmema
  have hmagic : ∀ o ∈ xs ++ a :: b :: ys,
      magic (setMagic m a memheapMagic) o = if o = a then memheapMagic else magic m o :=
    fun o ho => magic_setMagic (hapart o ho)
  have hnext : ∀ o ∈ xs ++ a :: b :: ys, next (setMagic m a memheapMagic) o = next m o :=
    fun o ho => next_setMagic (hapart o ho)
  have hfree : ∀ o ∈ xs ++ a :: b :: ys, o ≠ a → (Free (setMagic m a memheapMagic) o ↔ Free m o) :=
    fun o ho hoa => free_congr ((hmagic o ho).trans (if_neg hoa))
  have hfreea : Free (setMagic m a memheapMagic) a := by
    unfold Free
    rw [hmagic a hmema, if_pos rfl]
  obtain ⟨hbelow, habove⟩ := hlayout.chain.around
  have hxs : ∀ o ∈ xs, o ∈ xs ++ a :: b :: ys ∧ o ≠ a := by
    intro o ho
    have := hbelow o ho
    exact ⟨by simp [ho], by omega⟩
  have hys : ∀ o ∈ b :: ys, o ∈ xs ++ a :: b :: ys ∧ o ≠ a := by
    intro o ho
    have := habove o ho
    exact ⟨mem_append_right _ (.tail _ ho), by omega⟩
  obtain ⟨hbefore, hbehind, -, -⟩ := alternating_middle.mp h.alternating
  have htailne : P.tailer ≠ a := by
    have hb := hlayout.le_tailer (o := b) (by simp)
    have hab := hlayout.linked.2.1
    omega
  refine ⟨⟨hlayout.setMagic (hlayout.blocks a hmema), fun o ho => ?_, ?_, hfreea, ?_, ?_,
    fun o => ?_⟩, ?_, ?_⟩
  · rw [hmagic o ho]
    split_ifs
    · exact .inl rfl
    · exact h.marked o ho
  · rw [hfree _ hlayout.tailer_mem htailne]
    exact h.tailer
  · exact hbefore.congr fun o ho => (hfree o (hxs o ho).1 (hxs o ho).2).mp
  · exact hbehind.congr fun o ho => (hfree o (hys o ho).1 (hys o ho).2).mp
  · rw [h.mem_free o]
    constructor
    · rintro ⟨ho, hf⟩
      have hoa : o ≠ a := by
        rintro rfl
        exact ha hf
      exact ⟨ho, (hfree o ho hoa).mpr hf, hoa⟩
    · rintro ⟨ho, hf, hoa⟩
      exact ⟨ho, (hfree o ho hoa).mp hf⟩
  · have hsame : ∀ o ∈ xs ++ a :: b :: ys, o ≠ a →
        SameBlock m (setMagic m a memheapMagic) o := by
      intro o ho hoa
      exact ⟨by rw [hmagic o ho, if_neg hoa], hnext o ho⟩
    have hchange := freeBytes_change (hlayout.chain.nodup (by norm_num)) hsame
    have hwa : weight m a = 0 := if_neg ha
    have hwa' : weight (setMagic m a memheapMagic) a = b - a - 24 := by
      rw [weight, if_pos hfreea, hnext a hmema, hlayout.linked.1]
    omega
  · ext o
    constructor
    · rintro ⟨ho, hne, hf⟩
      have hoa : o ≠ a := by
        rintro rfl
        exact hf hfreea
      exact ⟨⟨ho, hne, fun hf' => hf ((hfree o ho hoa).mpr hf')⟩, hoa⟩
    · rintro ⟨⟨ho, hne, hf⟩, hoa⟩
      exact ⟨ho, hne, fun hf' => hf ((hfree o ho hoa).mp hf')⟩

/-- "Mark the allocated block as not available." -/
def markUsed (m : ℕ → ℕ) (a : ℕ) : ℕ → ℕ := setMagic m a (magic m a ||| memheapUsed)

theorem markUsed_of_free (ha : Free m a) : markUsed m a = setMagic m a (memheapMagic + 1) := by
  rw [markUsed, ha]
  rfl

/-- The block at `a` has got the mark of a used block, the other blocks have kept theirs. -/
structure Taken (m m' : ℕ → ℕ) (l : List ℕ) (a : ℕ) : Prop where
  self : magic m' a = memheapMagic + 1
  other : ∀ o ∈ l, o ≠ a → magic m' o = magic m o

namespace Taken

variable (h : Taken m m' l a)
include h

theorem not_free : ¬ Free m' a := by
  unfold Free
  rw [h.self]
  exact Nat.succ_ne_self _

theorem free_iff (ho : o ∈ l) : Free m' o ↔ o ≠ a ∧ Free m o := by
  by_cases hoa : o = a
  · rw [hoa]
    exact iff_of_false h.not_free fun hf => hf.1 rfl
  · unfold Free
    rw [h.other o ho hoa]
    simp [hoa]

theorem marked (hm : Marked m l) : Marked m' l := by
  intro o ho
  by_cases hoa : o = a
  · rw [hoa]
    exact .inr h.self
  · rw [h.other o ho hoa]
    exact hm o ho

/-- The free blocks are those of the free list without `a`. -/
theorem mem_free (hF : ∀ o, o ∈ F₁ ++ a :: F₂ ↔ o ∈ l ∧ Free m o) (hnot : a ∉ F₁ ++ F₂) (o : ℕ) :
    o ∈ F₁ ++ F₂ ↔ o ∈ l ∧ Free m' o := by
  have hiff := hF o
  rw [mem_middle] at hiff
  constructor
  · intro ho
    have hoa : o ≠ a := by
      rintro rfl
      exact hnot ho
    obtain ⟨hol, hf⟩ := hiff.mp (.inr ho)
    exact ⟨hol, (h.free_iff hol).mpr ⟨hoa, hf⟩⟩
  · rintro ⟨ho, hf⟩
    obtain ⟨hoa, hf⟩ := (h.free_iff ho).mp hf
    exact (hiff.mpr ⟨ho, hf⟩).resolve_left hoa

theorem usedBlocks (ha : a ∈ l) (htail : a ≠ P.tailer) :
    P.usedBlocks m' l = insert a (P.usedBlocks m l) := by
  ext o
  constructor
  · rintro ⟨ho, hne, hf⟩
    rw [h.free_iff ho] at hf
    by_cases hoa : o = a
    · exact .inl hoa
    · exact .inr ⟨ho, hne, fun hf' => hf ⟨hoa, hf'⟩⟩
  · rintro (rfl | ⟨ho, hne, hf⟩)
    · exact ⟨ha, htail, h.not_free⟩
    · exact ⟨ho, hne, fun hf' => hf ((h.free_iff ho).mp hf').2⟩

end Taken

/-- The free list loses the block at `a`, which is then marked as used. -/
theorem Good.take (hP : P.Ok) (h : Good P m l F) (ha : a ∈ F) :
    ∃ F', Good P (markUsed (clearFree (unlinkFree m a) a) a) l F' ∧
      freeBytes (markUsed (clearFree (unlinkFree m a) a) a) l + (next m a - a - 24) =
        freeBytes m l ∧
      P.usedBlocks (markUsed (clearFree (unlinkFree m a) a) a) l = insert a (P.usedBlocks m l) ∧
      next (markUsed (clearFree (unlinkFree m a) a) a) a = next m a := by
  obtain ⟨hmema, hfreea⟩ := (h.mem_free a).mp ha
  have htail := h.free_ne_tailer hfreea
  obtain ⟨F₁, F₂, rfl⟩ := append_of_mem ha
  have haT := h.layout.blocks a hmema
  have hnot := h.not_mem_ring hP
  obtain ⟨hlayout₁, hsame₁⟩ := h.layout.unlinkFree
  obtain ⟨hlayout₂, hsame₂⟩ := hlayout₁.clearFree haT hnot
  have hfreea₂ : Free (clearFree (unlinkFree m a) a) a := by
    unfold Free
    rw [(hsame₂ a haT).1, (hsame₁ a haT).1]
    exact hfreea
  rw [markUsed_of_free hfreea₂]
  have hlayout₃ := hlayout₂.setMagic (v := memheapMagic + 1) haT
  set m₃ := setMagic (clearFree (unlinkFree m a) a) a (memheapMagic + 1)
  have hmagic : ∀ o ∈ l, magic m₃ o = if o = a then memheapMagic + 1 else magic m o := by
    intro o ho
    have hoT := h.layout.blocks o ho
    rw [magic_setMagic (h.layout.sep o hoT a haT), (hsame₂ o hoT).1, (hsame₁ o hoT).1]
  have hnext : ∀ o ∈ l, next m₃ o = next m o := by
    intro o ho
    have hoT := h.layout.blocks o ho
    rw [next_setMagic (h.layout.sep o hoT a haT), (hsame₂ o hoT).2, (hsame₁ o hoT).2]
  have htaken : Taken m m₃ l a :=
    ⟨by rw [hmagic a hmema, if_pos rfl], fun o ho hoa => by rw [hmagic o ho, if_neg hoa]⟩
  refine ⟨F₁ ++ F₂, ⟨hlayout₃, htaken.marked h.marked, ?_,
    htaken.mem_free h.mem_free fun haF => hnot (.tail _ haF), ?_⟩, ?_,
    htaken.usedBlocks hmema htail, hnext a hmema⟩
  · rw [htaken.free_iff h.layout.tailer_mem]
    exact fun hf => h.tailer hf.2
  · exact h.alternating.congr fun o ho hf => ((htaken.free_iff ho).mp hf).2
  · obtain ⟨xs, ys, rfl⟩ := append_of_mem hmema
    have hchange := freeBytes_change (h.layout.chain.nodup (by norm_num)) fun o ho hoa =>
      (⟨htaken.other o ho hoa, hnext o ho⟩ : SameBlock m m₃ o)
    have hwa : weight m a = next m a - a - 24 := if_pos hfreea
    have hwa' : weight m₃ a = 0 := if_neg htaken.not_free
    omega

/-- A new free block at `c`, in a used block: a hole. -/
theorem Good.carve (hP : P.Ok) (h : Good P m (xs ++ a :: b :: ys) F) (ha : ¬ Free m a)
    (hac : a + 24 ≤ c) (hcb : c + 24 ≤ b) :
    Hole P (insert c (headers P (xs ++ a :: b :: ys)))
        (insertBlock (newItem m c P.memheap) a c) (xs ++ [a]) c (b :: ys) F False ∧
      ¬ Free (insertBlock (newItem m c P.memheap) a c) a ∧
      (∀ o ∈ b :: ys, SameBlock m (insertBlock (newItem m c P.memheap) a c) o) ∧
      freeBytes (insertBlock (newItem m c P.memheap) a c) (xs ++ a :: c :: b :: ys) =
        freeBytes m (xs ++ a :: b :: ys) + (b - c - 24) ∧
      P.usedBlocks (insertBlock (newItem m c P.memheap) a c) (xs ++ a :: c :: b :: ys) =
        P.usedBlocks m (xs ++ a :: b :: ys) := by
  have hlayout := h.layout.track hP hac hcb
  have hcT : c ∈ insert c (headers P (xs ++ a :: b :: ys)) := Set.mem_insert c _
  obtain ⟨hlayout₁, heffect⟩ := hlayout.insertBlock hcT hac hcb
  set m₁ := insertBlock (newItem m c P.memheap) a c
  have hmem : ∀ o, o ∈ xs ++ a :: c :: b :: ys ↔ o = c ∨ o ∈ xs ++ a :: b :: ys :=
    fun _ => mem_behind
  have hne : ∀ o ∈ xs ++ a :: b :: ys, o ≠ c := by
    rintro o ho rfl
    exact hlayout.notMem_inside hac hcb ho
  have hmagic : ∀ o ∈ xs ++ a :: b :: ys, magic m₁ o = magic m o := by
    intro o ho
    rw [(heffect o (hlayout.blocks o ho)).1, if_neg (hne o ho)]
  have hnext : ∀ o ∈ xs ++ a :: b :: ys, o ≠ a → next m₁ o = next m o := by
    intro o ho hoa
    rw [(heffect o (hlayout.blocks o ho)).2, if_neg hoa, if_neg (hne o ho)]
  have hfree : ∀ o ∈ xs ++ a :: b :: ys, Free m₁ o ↔ Free m o :=
    fun o ho => free_congr (hmagic o ho)
  have hfreec : Free m₁ c := by
    unfold Free
    rw [(heffect c hcT).1, if_pos rfl]
  have hnextc : next m₁ c = b := by
    rw [(heffect c hcT).2, if_neg (by omega), if_pos rfl]
  have hfreea : ¬ Free m₁ a := by
    rw [hfree a (by simp)]
    exact ha
  obtain ⟨hbefore, hbehind, -, -⟩ := alternating_middle.mp h.alternating
  have hlist : (xs ++ [a]) ++ c :: b :: ys = xs ++ a :: c :: b :: ys := by simp
  have hys : ∀ o ∈ b :: ys, o ∈ xs ++ a :: b :: ys ∧ o ≠ a := by
    intro o ho
    have := hlayout.chain.around.2 o ho
    exact ⟨mem_append_right _ (.tail _ ho), by omega⟩
  refine ⟨⟨by rwa [hlist], fun o ho => ?_, ?_, hfreec, ?_, ?_, fun o => ?_⟩, hfreea,
    fun o ho => ⟨hmagic o (hys o ho).1, hnext o (hys o ho).1 (hys o ho).2⟩, ?_, ?_⟩
  · rw [hlist, hmem] at ho
    rcases ho with rfl | ho
    · exact .inl hfreec
    · rw [hmagic o ho]
      exact h.marked o ho
  · rw [hfree _ hlayout.tailer_mem]
    exact h.tailer
  · refine alternating_middle.mpr ⟨hbefore.congr fun o ho => (hfree o (by simp [ho])).mp, .nil,
      fun p _ hf => hfreea hf.2, by simp⟩
  · exact hbehind.congr fun o ho => (hfree o (hys o ho).1).mp
  · rw [h.mem_free o, hlist, hmem]
    constructor
    · rintro ⟨ho, hf⟩
      exact ⟨.inr ho, (hfree o ho).mpr hf, hne o ho⟩
    · rintro ⟨rfl | ho, hf, hoc⟩
      · exact absurd rfl hoc
      · exact ⟨ho, (hfree o ho).mp hf⟩
  · have hold := freeBytes_used (hlayout.chain.nodup (by norm_num)) ha hmagic hnext
    have hwc : weight m₁ c = b - c - 24 := by rw [weight, if_pos hfreec, hnextc]
    simp only [freeBytes_append, freeBytes_cons] at hold ⊢
    omega
  · exact (usedBlocks_remove hfreec fun o ho => (hmagic o ho).symm).symm

/-- The used block at `a` takes the free block behind it, at `x`. -/
theorem Good.absorb (h : Good P m (xs ++ a :: x :: b :: ys) F) (ha : ¬ Free m a) (hx : Free m x) :
    ∃ F', Good P (removeBlock (unlinkFree m x) x) (xs ++ a :: b :: ys) F' ∧
      freeBytes (removeBlock (unlinkFree m x) x) (xs ++ a :: b :: ys) + (b - x - 24) =
        freeBytes m (xs ++ a :: x :: b :: ys) ∧
      P.usedBlocks (removeBlock (unlinkFree m x) x) (xs ++ a :: b :: ys) =
        P.usedBlocks m (xs ++ a :: x :: b :: ys) ∧
      ∀ o ∈ xs ++ a :: b :: ys, Free (removeBlock (unlinkFree m x) x) o ↔ Free m o := by
  have hlayout := h.layout
  obtain ⟨F₁, F₂, rfl⟩ := append_of_mem ((h.mem_free x).mpr ⟨by simp, hx⟩)
  obtain ⟨hlayout₁, hsame₁⟩ := hlayout.unlinkFree
  obtain ⟨hlayout₂, heffect₂⟩ := hlayout₁.removeBlock
  set m₂ := removeBlock (unlinkFree m x) x
  have hmagic : ∀ o ∈ xs ++ a :: b :: ys, magic m₂ o = magic m o := by
    intro o ho
    have hoT := hlayout₂.blocks o ho
    rw [(heffect₂ o hoT).1, (hsame₁ o hoT).1]
  have hnext : ∀ o ∈ xs ++ a :: b :: ys, o ≠ a → next m₂ o = next m o := by
    intro o ho hoa
    have hoT := hlayout₂.blocks o ho
    rw [(heffect₂ o hoT).2, if_neg hoa, (hsame₁ o hoT).2]
  have hfree : ∀ o ∈ xs ++ a :: b :: ys, Free m₂ o ↔ Free m o :=
    fun o ho => free_congr (hmagic o ho)
  have hfreea : ¬ Free m₂ a := by
    rw [hfree a (by simp)]
    exact ha
  have hmemF : ∀ o, o ∈ F₁ ++ F₂ ↔ o ∈ xs ++ a :: b :: ys ∧ Free m₂ o := by
    intro o
    rw [hlayout.mem_remove h.mem_free o]
    exact and_congr_right fun ho => (hfree o ho).symm
  obtain ⟨hbefore, hbehind, -, -⟩ := alternating_middle.mp h.alternating
  have hys : ∀ o ∈ b :: ys, o ∈ xs ++ a :: b :: ys := fun o ho => mem_append_right _ (.tail _ ho)
  refine ⟨F₁ ++ F₂, ⟨hlayout₂.restrict fun o ho => ((hmemF o).mp ho).1,
    h.marked.congr (fun o ho => mem_behind.mpr (.inr ho)) hmagic, ?_, hmemF, ?_⟩, ?_,
    usedBlocks_remove hx hmagic, hfree⟩
  · rw [hfree _ hlayout₂.tailer_mem]
    exact h.tailer
  · refine alternating_middle.mpr ⟨hbefore.congr fun o ho => (hfree o (by simp [ho])).mp,
      Alternating.congr (isChain_cons_cons.mp hbehind).2 fun o ho => (hfree o (hys o ho)).mp,
      fun p _ hf => hfreea hf.2, fun d _ hf => hfreea hf.1⟩
  · rw [freeBytes_used (hlayout₂.chain.nodup (by norm_num)) ha hmagic hnext]
    have hwx : weight m x = b - x - 24 := by
      rw [weight, if_pos hx, (hlayout.linked_around).2.2.1]
    simp only [freeBytes_append, freeBytes_cons]
    omega

/-- The lists after `rt_memheap_alloc` has split the free block at `a`. -/
def splitLists (P : Pool) (m : ℕ → ℕ) (a c : ℕ) : ℕ → ℕ :=
  insertFree (clearFree (unlinkFree (insertBlock (newItem m c P.memheap) a c) a) a) c P.freeList

/-- The same with the mark. -/
def splitMem (P : Pool) (m : ℕ → ℕ) (a c : ℕ) : ℕ → ℕ := markUsed (splitLists P m a c) a

/-- The free block at `a` is split: the rest, at `c`, stays free. -/
theorem Good.split (hP : P.Ok) (h : Good P m l F) (ha : a ∈ F) (hac : a + 24 ≤ c)
    (hcb : c + 24 ≤ next m a) :
    ∃ l' F', Good P (splitMem P m a c) l' F' ∧
      freeBytes (splitMem P m a c) l' + (c - a) = freeBytes m l ∧
      P.usedBlocks (splitMem P m a c) l' = insert a (P.usedBlocks m l) ∧
      next (splitMem P m a c) a = c := by
  obtain ⟨hmema, hfreea⟩ := (h.mem_free a).mp ha
  have htail := h.free_ne_tailer hfreea
  obtain ⟨xs, ys, hl⟩ := h.layout.exists_next hmema htail
  generalize hb : next m a = b at hl hcb
  subst hl
  obtain ⟨F₁, F₂, rfl⟩ := append_of_mem ha
  have hnot := h.not_mem_ring hP
  have hlayout := h.layout.track hP hac hcb
  have hcT : c ∈ insert c (headers P (xs ++ a :: b :: ys)) := Set.mem_insert c _
  have haT := hlayout.blocks a hmema
  have hcnot := hlayout.notMem_inside hac hcb
  have hne : ∀ o ∈ xs ++ a :: b :: ys, o ≠ c := by
    rintro o ho rfl
    exact hcnot ho
  have hcring : c ∉ P.freeHeader :: (F₁ ++ F₂) := by
    have hsplit := (hlayout.insertBlock hcT hac hcb).1
    have := hsplit.ne_freeHeader hP (o := c) (by simp)
    rw [mem_cons, not_or]
    exact ⟨this, fun hcF => hcnot ((h.mem_free c).mp (mem_middle.mpr (.inr hcF))).1⟩
  -- the six edits, with what they do to marks and sizes
  obtain ⟨hlayout₁, heffect₁⟩ := hlayout.insertBlock hcT hac hcb
  obtain ⟨hlayout₂, hsame₂⟩ := hlayout₁.unlinkFree
  obtain ⟨hlayout₃, hsame₃⟩ := hlayout₂.clearFree haT hnot
  obtain ⟨hlayout₄, hsame₄⟩ := hlayout₃.insertFree hcT hcring
  have hsplit : splitMem P m a c = setMagic (splitLists P m a c) a (memheapMagic + 1) := by
    refine markUsed_of_free ?_
    unfold Free splitLists
    rw [(hsame₄ a haT).1, (hsame₃ a haT).1, (hsame₂ a haT).1, (heffect₁ a haT).1,
      if_neg (hne a hmema)]
    exact hfreea
  have hlayout₅ : Layout P _ (splitMem P m a c) _ _ := hsplit ▸ hlayout₄.setMagic haT
  have hmagic : ∀ o ∈ insert c (headers P (xs ++ a :: b :: ys)), magic (splitMem P m a c) o =
      if o = a then memheapMagic + 1 else if o = c then memheapMagic else magic m o := by
    intro o ho
    rw [hsplit, magic_setMagic (hlayout.sep o ho a haT), splitLists, (hsame₄ o ho).1,
      (hsame₃ o ho).1, (hsame₂ o ho).1, (heffect₁ o ho).1]
  have hnext : ∀ o ∈ insert c (headers P (xs ++ a :: b :: ys)), next (splitMem P m a c) o =
      if o = a then c else if o = c then b else next m o := by
    intro o ho
    rw [hsplit, next_setMagic (hlayout.sep o ho a haT), splitLists, (hsame₄ o ho).2,
      (hsame₃ o ho).2, (hsame₂ o ho).2, (heffect₁ o ho).2]
  set m₅ := splitMem P m a c
  have hfreec : Free m₅ c := by
    unfold Free
    rw [hmagic c hcT, if_neg (by omega), if_pos rfl]
  have htaken : Taken m m₅ (xs ++ a :: b :: ys) a :=
    ⟨by rw [hmagic a haT, if_pos rfl], fun o ho hoa => by
      rw [hmagic o (hlayout.blocks o ho), if_neg hoa, if_neg (hne o ho)]⟩
  have husedb : ¬ Free m b := by
    intro hfb
    have := alternating_middle.mp h.alternating
    exact this.2.2.2 b (by simp) ⟨hfreea, hfb⟩
  have hmem : ∀ o, o ∈ xs ++ a :: c :: b :: ys ↔ o = c ∨ o ∈ xs ++ a :: b :: ys :=
    fun _ => mem_behind
  have hmemF : ∀ o, o ∈ c :: (F₁ ++ F₂) ↔ o ∈ xs ++ a :: c :: b :: ys ∧ Free m₅ o := by
    intro o
    rw [mem_cons, hmem, htaken.mem_free h.mem_free fun haF => hnot (.tail _ haF)]
    constructor
    · rintro (rfl | ⟨ho, hf⟩)
      · exact ⟨.inl rfl, hfreec⟩
      · exact ⟨.inr ho, hf⟩
    · rintro ⟨rfl | ho, hf⟩
      · exact .inl rfl
      · exact .inr ⟨ho, hf⟩
  obtain ⟨hbefore, hbehind, -, -⟩ := alternating_middle.mp h.alternating
  have hys : ∀ o ∈ b :: ys, o ∈ xs ++ a :: b :: ys := fun o ho => mem_append_right _ (.tail _ ho)
  have hwas : ∀ {o}, o ∈ xs ++ a :: b :: ys → Free m₅ o → Free m o := fun ho hf =>
    ((htaken.free_iff ho).mp hf).2
  refine ⟨_, _, ⟨hlayout₅.restrict fun o ho => ((hmemF o).mp ho).1, fun o ho => ?_, ?_, hmemF, ?_⟩,
    ?_, ?_, ?_⟩
  · rcases (hmem o).mp ho with rfl | ho
    · exact .inl hfreec
    · exact htaken.marked h.marked o ho
  · exact fun hf => h.tailer (hwas hlayout.tailer_mem hf)
  · refine alternating_middle.mpr ⟨hbefore.congr fun o ho hf => hwas (by simp [ho]) hf, ?_,
      fun p _ hf => htaken.not_free hf.2, fun d _ hf => htaken.not_free hf.1⟩
    refine isChain_cons_cons.mpr ⟨fun hf => husedb (hwas (by simp) hf.2), ?_⟩
    exact hbehind.congr fun o ho hf => hwas (hys o ho) hf
  · have hchange := freeBytes_change (hlayout.chain.nodup (by norm_num)) fun o ho hoa =>
      (⟨htaken.other o ho hoa,
        by rw [hnext o (hlayout.blocks o ho), if_neg hoa, if_neg (hne o ho)]⟩ : SameBlock m m₅ o)
    have hwa : weight m a = b - a - 24 := by rw [weight, if_pos hfreea, hb]
    have hwa' : weight m₅ a = 0 := if_neg htaken.not_free
    have hwc : weight m₅ c = b - c - 24 := by
      rw [weight, if_pos hfreec, hnext c hcT, if_neg (by omega), if_pos rfl]
    simp only [freeBytes_append, freeBytes_cons] at hchange ⊢
    omega
  · rw [← usedBlocks_remove hfreec fun _ _ => rfl]
    exact htaken.usedBlocks hmema htail
  · rw [hnext a haT, if_pos rfl]

end RtThread
