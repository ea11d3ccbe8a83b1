import RtThread.Memory.HeapSearch

/-!
# What is in the blocks

The functions of `src/mem.c` write headers, and the only payload they write is
that of a block `rt_realloc` moves to. `Keeps K h h'` says that the blocks `K`
have the same payloads in `h'` as in `h`; each function keeps the blocks that
are used before and after it. `rt_realloc` besides carries the contents of its
block over (`Carries`).

* `realloc_preserves_data`: what `rt_realloc` does to the bytes of the clients.
-/

namespace RtThread

open BlockChain Option Set

namespace Heap

variable {h h' h'' : Heap} {l l' xs ys : List ℕ} {K K' : Set ℕ}
variable {a b c n o p q v w size newsize : ℕ} {i : ℕ}

/-- The blocks `K` end where they ended, and no word of their payloads has changed. -/
def Keeps (K : Set ℕ) (h h' : Heap) : Prop :=
  ∀ o ∈ K, h'.next o = h.next o ∧ ∀ w, o + 12 ≤ w → w < h.next o → h'.mem w = h.mem w

theorem Keeps.trans (hk : Keeps K h h') (hk' : Keeps K h' h'') : Keeps K h h'' := by
  intro o ho
  obtain ⟨hnext, hmem⟩ := hk o ho
  obtain ⟨hnext', hmem'⟩ := hk' o ho
  refine ⟨hnext'.trans hnext, fun w hlo hhi => ?_⟩
  rw [hmem' w hlo (by rwa [hnext]), hmem w hlo hhi]

theorem Keeps.mono (hk : Keeps K h h') (hsub : K' ⊆ K) : Keeps K' h h' := fun o ho => hk o (hsub ho)

theorem keeps_of_mem (hmem : h'.mem = h.mem) : Keeps K h h' := by
  intro o _
  refine ⟨?_, fun w _ _ => by rw [hmem]⟩
  unfold next
  rw [hmem]

/-! ## Headers -/

/-- The word `w` is not in the header at `a`. -/
def Outside (a w : ℕ) : Prop := w < a ∨ a + 12 ≤ w

/-- Payloads are outside of headers. -/
theorem Tiled.outside (ht : Tiled h l) (ha : a ∈ l) (ho : o ∈ l) (hne : o ≠ h.heapEnd)
    (hlo : o + 12 ≤ w) (hhi : w < h.next o) : Outside a w := by
  have := ht.le_or_next_le ho hne ha
  unfold Outside
  omega

section

variable (hw : Outside a w)
include hw

theorem setNext_mem : (h.setNext a v).mem w = h.mem w :=
  setField_of_outside (d := 12) (by norm_num) hw

theorem setPrev_mem : (h.setPrev a v).mem w = h.mem w :=
  setField_of_outside (d := 12) (by norm_num) hw

theorem setUsed_mem : (h.setUsed a v).mem w = h.mem w :=
  setField_of_outside (d := 12) (by norm_num) hw

theorem setMagic_mem : (h.setMagic a v).mem w = h.mem w :=
  setField_of_outside (d := 12) (by norm_num) hw

end

/-- The blocks of the heap. -/
def blocks (h : Heap) (l : List ℕ) : Set ℕ := {o | o ∈ l ∧ o ≠ h.heapEnd}

theorem usedBlocks_subset : usedBlocks h l ⊆ blocks h l := fun _ ho => ⟨ho.1, ho.2.1⟩

section

variable (ht : Tiled h l) (ha : a ∈ l)
include ht ha

/-- A write to the header at `a` that leaves the `next` fields keeps every block. -/
theorem Tiled.keeps_header (hnext : ∀ o ∈ l, (h'.hdr o).next = (h.hdr o).next)
    (hmem : ∀ w, Outside a w → h'.mem w = h.mem w) : Keeps (blocks h l) h h' := by
  rintro o ⟨ho, hne⟩
  exact ⟨hnext o ho, fun w hlo hhi => hmem w (ht.outside ha ho hne hlo hhi)⟩

theorem Tiled.keeps_setUsed (hv : v < 2 ^ 16) : Keeps (blocks h l) h (h.setUsed a v) := by
  refine ht.keeps_header ha (fun o ho => ?_) fun w hw => setUsed_mem hw
  rw [hdr_setUsed (ht.apart ho ha) hv, apply_ite Hdr.next, ite_self]

theorem Tiled.keeps_setMagic (hv : v < 2 ^ 16) : Keeps (blocks h l) h (h.setMagic a v) := by
  refine ht.keeps_header ha (fun o ho => ?_) fun w hw => setMagic_mem hw
  rw [hdr_setMagic (ht.apart ho ha) hv, apply_ite Hdr.next, ite_self]

end

theorem Tiled.keeps_combine (ht : Tiled h (xs ++ a :: b :: c :: ys)) :
    Keeps (blocks h (xs ++ a :: b :: c :: ys) \ {a}) h (h.combine a b) := by
  have hab := ht.next_eq
  have ht' : Tiled h ((xs ++ [a]) ++ b :: c :: ys) := by simpa using ht
  have hbc := ht'.next_eq.1
  have hmem : a ∈ xs ++ a :: b :: c :: ys ∧ b ∈ xs ++ a :: b :: c :: ys ∧
      c ∈ xs ++ a :: b :: c :: ys := by simp
  have hAab := ht.apart hmem.1 hmem.2.1
  rintro o ⟨⟨ho, hne⟩, hoa : o ≠ a⟩
  constructor
  · have hhdr := combine_hdr (h := h) hAab (by omega) (ht.apart ho hmem.1)
      (by rw [hbc]; exact ht.apart ho hmem.2.2)
    rw [if_neg hoa] at hhdr
    exact congrArg Hdr.next hhdr
  · intro w hlo hhi
    rw [combine_mem hAab (by omega), hbc, setPrev_mem (ht.outside hmem.2.2 ho hne hlo hhi),
      setNext_mem (ht.outside hmem.1 ho hne hlo hhi)]

theorem split_mem (hac : a + 12 ≤ c) (hwa : Outside a w) (hwc : Outside c w)
    (hwb : Outside (h.next a) w) : (h.split a c).mem w = h.mem w := by
  have hinsert : (h.insertHdr a c (h.next a)).mem w = h.mem w := by
    unfold insertHdr
    rw [setNext_mem hwa, setPrev_mem hwc, setNext_mem hwc, setUsed_mem hwc, setMagic_mem hwc]
  rw [split_eq hac]
  split_ifs
  · rw [setPrev_mem hwb, hinsert]
  · exact hinsert

/-- A block keeps what is before the new header; the others keep everything. -/
theorem Tiled.keeps_split (ht : Tiled h (xs ++ a :: b :: ys)) (hac : a + 12 ≤ c)
    (hcb : c + 12 ≤ b) (hc : c % 4 = 0) :
    Keeps (blocks h (xs ++ a :: b :: ys) \ {a}) h (h.split a c) ∧ (h.split a c).next a = c ∧
      ∀ w, a + 12 ≤ w → w < c → (h.split a c).mem w = h.mem w := by
  obtain ⟨hnext, -⟩ := ht.next_eq
  have hmem : a ∈ xs ++ a :: b :: ys ∧ b ∈ xs ++ a :: b :: ys := by simp
  refine ⟨?_, (ht.split hac hcb hc).1.next_eq.1, fun w hlo hhi => ?_⟩
  · rintro o ⟨⟨ho, hne⟩, hoa : o ≠ a⟩
    -- the new header is inside the block at `a`
    have hoc : o + 12 ≤ a ∨ b ≤ o := by
      have h₁ := ht.le_or_next_le hmem.1 (fun haE => by
        have := ht.le_heapEnd hmem.2
        omega) ho
      have h₂ := ht.apart ho hmem.1
      unfold Apart at h₂
      omega
    have hle := ht.le_or_next_le ho hne hmem.1
    constructor
    · have hhdr := split_hdr (h := h) hac (by omega) (ht.apart ho hmem.1)
        (by unfold Apart; omega) (by rw [hnext]; exact ht.apart ho hmem.2)
      rw [if_neg (by omega), if_neg hoa] at hhdr
      exact congrArg Hdr.next hhdr
    · intro w hlo hhi
      exact split_mem hac (ht.outside hmem.1 ho hne hlo hhi) (by unfold Outside; omega)
        (by rw [hnext]; exact ht.outside hmem.2 ho hne hlo hhi)
  · exact split_mem hac (by unfold Outside; omega) (by unfold Outside; omega)
      (by unfold Outside; omega)

/-! ## `plug_holes` -/

/-- The block that takes the space of the next one is unused. -/
theorem Tiled.keeps_combine_free (ht : Tiled h (xs ++ a :: b :: c :: ys)) (ha : h.used a = 0) :
    Keeps (usedBlocks h (xs ++ a :: b :: c :: ys)) h (h.combine a b) :=
  ht.keeps_combine.mono fun o ho => ⟨usedBlocks_subset ho, fun hoa : o = a => ho.2.2 (hoa ▸ ha)⟩

section

variable (hh : Hole h xs a (b :: ys))
include hh

theorem Hole.keeps_forward : Keeps (usedBlocks h (xs ++ a :: b :: ys)) h (h.plugForward a) := by
  have ht := hh.tiled
  unfold plugForward
  dsimp only
  rw [ht.next_eq.1]
  split_ifs with hif
  · have ht' : Tiled h ((xs ++ [a]) ++ b :: ys) := by simpa using ht
    obtain ⟨c, zs, rfl⟩ := ht'.exists_cons hif.2.2
    exact ht.keeps_combine_free hh.free
  · exact keeps_of_mem rfl

theorem Hole.keeps_backward : Keeps (usedBlocks h (xs ++ a :: b :: ys)) h (h.plugBackward a) := by
  have ht := hh.tiled
  unfold plugBackward
  dsimp only
  split_ifs with hif
  · rcases List.eq_nil_or_concat xs with rfl | ⟨zs, d, rfl⟩
    · have ha : a = 0 := by simpa using ht.head
      rw [ha, ht.first] at hif
      exact absurd rfl hif.1
    · have hlist : zs.concat d ++ a :: b :: ys = zs ++ d :: a :: b :: ys := by simp
      rw [hlist] at ht ⊢
      rw [ht.prev_eq fun hne => ht.endUsed (hne ▸ hh.free)] at hif ⊢
      exact ht.keeps_combine_free hif.2
  · exact keeps_of_mem rfl

theorem Hole.keeps_plugHoles (hp : h.plugHoles a = some h') :
    Keeps (usedBlocks h (xs ++ a :: b :: ys)) h h' := by
  obtain ⟨d, zs, hd, -, -, hused⟩ := hh.forward
  unfold Heap.plugHoles at hp
  split_ifs at hp
  simp only [some.injEq] at hp
  subst hp
  exact hh.keeps_forward.trans (hused ▸ hd.keeps_backward)

end

/-! ## `rt_free` -/

theorem HeapOk.keeps_markUnused (hok : HeapOk h l) (ha : a ∈ l) (hne : a ≠ h.heapEnd) :
    Keeps (blocks h l) h (h.markUnused a) := by
  obtain ⟨ht, -⟩ := hok.toTiled.setUsed (v := 0) ha hne (by norm_num)
  have hmagic := ht.keeps_setMagic (v := heapMagic) ha (by norm_num [heapMagic])
  have hmem : (h.markUnused a).mem = ((h.setUsed a 0).setMagic a heapMagic).mem := by
    unfold Heap.markUnused
    dsimp only
    split_ifs <;> rfl
  exact ((hok.toTiled.keeps_setUsed ha (by norm_num)).trans hmagic).trans (keeps_of_mem hmem)

section

variable (hok : HeapOk h l)
include hok

theorem HeapOk.keeps_freeBlock (ha : a ∈ l) (hne : a ≠ h.heapEnd) (hf : h.freeBlock a = some h') :
    Keeps (usedBlocks h l \ {a}) h h' := by
  have hmark := hok.keeps_markUnused ha hne
  obtain ⟨xs, ys, rfl⟩ := hok.exists_next ha hne
  obtain ⟨hhole, -, hblocks⟩ := hok.markUnused hne
  have hplug := hhole.subUsed.keeps_plugHoles hf
  rw [usedBlocks_subUsed, hblocks] at hplug
  have hsub : usedBlocks h (xs ++ a :: h.next a :: ys) \ {a} ⊆
      blocks h (xs ++ a :: h.next a :: ys) :=
    sdiff_subset.trans usedBlocks_subset
  exact ((hmark.mono hsub).trans (keeps_of_mem rfl)).trans hplug

theorem HeapOk.keeps_rtFree (ho : o ∈ usedBlocks h l)
    (hf : h.rtFree (h.heapPtr + o + 12) = some h') : Keeps (usedBlocks h l \ {o}) h h' := by
  unfold Heap.rtFree at hf
  rw [if_neg (by omega), headerOf_ptr] at hf
  split_ifs at hf
  exact hok.keeps_freeBlock ho.1 ho.2.1 hf

/-! ## `rt_malloc` -/

theorem HeapOk.keeps_takeBlock (ha : a ∈ l) (hf : h.Fits n a) (hn : n % 4 = 0) :
    Keeps (usedBlocks h l) h (h.takeBlock a n) := by
  have ht := hok.toTiled
  have hne := ht.ne_heapEnd_of_fits hf
  obtain ⟨-, -, hpay⟩ := ht.payload ha hne
  have ha4 := ht.aligned a ha
  obtain ⟨xs, ys, rfl⟩ := ht.exists_next ha hne
  unfold Heap.takeBlock
  rw [hpay]
  split_ifs with hsplit
  · simp only [sizeofStructMem, minSizeAligned] at hsplit ⊢
    obtain ⟨ht', -, -⟩ := ht.split (c := a + 12 + n) (by omega) (by omega) (by omega)
    obtain ⟨hkeep, -, -⟩ := ht.keeps_split (c := a + 12 + n) (by omega) (by omega) (by omega)
    have hblocks := ht.usedBlocks_split (c := a + 12 + n) (by omega) (by omega) (by omega)
    have hset := ht'.keeps_setUsed (v := 1) (a := a) (by simp) (by norm_num)
    have hsub : usedBlocks h (xs ++ a :: h.next a :: ys) ⊆
        blocks h (xs ++ a :: h.next a :: ys) \ {a} :=
      fun o ho => ⟨usedBlocks_subset ho, fun hoa : o = a => ho.2.2 (hoa ▸ hf.1)⟩
    exact ((hkeep.mono hsub).trans (hset.mono (hblocks ▸ usedBlocks_subset))).trans
      (keeps_of_mem rfl)
  · exact ((ht.keeps_setUsed ha (by norm_num)).mono usedBlocks_subset).trans (keeps_of_mem rfl)

theorem HeapOk.keeps_mallocBlock (ha : a ∈ l) (hf : h.Fits n a) (hn : n % 4 = 0)
    (hm : h.mallocBlock a n = some (q, h')) : Keeps (usedBlocks h l) h h' := by
  have hne := hok.ne_heapEnd_of_fits hf
  obtain ⟨l', htakes, -, -⟩ := hok.takeBlock ha hne hf.1 hn hf.2
  have hmagic := htakes.ok.keeps_setMagic (v := heapMagic) htakes.mem.1 (by norm_num [heapMagic])
  have hsub : usedBlocks h l ⊆ blocks (h.takeBlock a n) l' := by
    refine Subset.trans ?_ usedBlocks_subset
    rw [htakes.used]
    exact subset_insert a _
  have hkeep := (hok.keeps_takeBlock ha hf hn).trans (hmagic.mono hsub)
  obtain ⟨h₂, hh₂, hm⟩ := bind_eq_some_iff.mp hm
  split_ifs at hm
  obtain ⟨-, rfl⟩ := hm
  split_ifs at hh₂
  · obtain ⟨-, -, rfl⟩ := map_eq_some_iff.mp hh₂
    exact hkeep.trans (keeps_of_mem rfl)
  · cases hh₂
    exact hkeep

theorem HeapOk.keeps_rtMalloc (hm : h.rtMalloc size = some (q, h')) :
    Keeps (usedBlocks h l) h h' := by
  obtain ⟨-, rfl⟩ | ⟨-, a, hloop, hblock⟩ := rtMalloc_cases hm
  · exact keeps_of_mem rfl
  · obtain ⟨ha, hf⟩ := hok.fits_of_mallocLoop hloop
    exact hok.keeps_mallocBlock ha hf (blockSize_spec (rtAlign_mod size)).2 hblock

end

/-! ## `rt_realloc` -/

/-- The block at `a` begins with the first `n` bytes of the block that was at `o`. -/
def Carries (h : Heap) (o : ℕ) (h' : Heap) (a n : ℕ) : Prop :=
  a + 12 + n ≤ h'.next a ∧ ∀ i < n, h'.mem (a + 12 + i) = h.mem (o + 12 + i)

/-- A block that is kept still has what it had. -/
theorem Keeps.carries (hk : Keeps K h' h'') (ha : a ∈ K) (hc : Carries h o h' a n) :
    Carries h o h'' a n := by
  obtain ⟨hnext, hmem⟩ := hk a ha
  refine ⟨by rw [hnext]; exact hc.1, fun i hi => ?_⟩
  have := hc.1
  rw [hmem _ (by omega) (by omega), hc.2 i hi]

theorem HeapOk.keeps_reallocSplit (hok : HeapOk h l) (ha : a ∈ usedBlocks h l) {k : ℕ}
    (hn : n % 4 = 0) (hle : a + 24 + n ≤ h.next a) (hr : h.reallocSplit a k n = some h') :
    Keeps (usedBlocks h l \ {a}) h h' ∧ Carries h a h' a n := by
  have ha4 := hok.aligned a ha.1
  obtain ⟨xs, ys, rfl⟩ := hok.exists_next ha.1 ha.2.1
  obtain ⟨hhole, hblocks⟩ := (hok.subUsed (n := k - n)).splitHole (c := a + 12 + n) ha.2.2
    (by omega) (by omega) (by omega)
  obtain ⟨hkeep, hnext, hmem⟩ := (hok.subUsed (n := k - n)).keeps_split (c := a + 12 + n)
    (by omega) (by omega) (by omega)
  have hplug := hhole.keeps_plugHoles hr
  rw [hblocks] at hplug
  have hsub : usedBlocks h (xs ++ a :: h.next a :: ys) \ {a} ⊆
      blocks h (xs ++ a :: h.next a :: ys) \ {a} :=
    sdiff_subset_sdiff_left usedBlocks_subset
  have hkeep' : Keeps _ h ((h.subUsed (k - n)).split a (a + 12 + n)) :=
    (keeps_of_mem rfl).trans (hkeep.mono hsub)
  refine ⟨hkeep'.trans (hplug.mono sdiff_subset), hplug.carries ha ⟨hnext.ge, fun i hi => ?_⟩⟩
  exact hmem _ (by omega) (by omega)

/-- A client's block is written to. -/
theorem Tiled.keeps_write (ht : Tiled h l) (ha : a ∈ l) (hne : a ≠ h.heapEnd) {mem : ℕ → ℕ}
    (hmem : ∀ w, w < a + 12 ∨ h.next a ≤ w → mem w = h.mem w) :
    Keeps (blocks h l \ {a}) h { h with mem := mem } := by
  rintro o ⟨⟨ho, hoE⟩, hoa : o ≠ a⟩
  have hhdr : ({ h with mem := mem } : Heap).hdr o = h.hdr o := ht.hdr_of_payload ha hne hmem ho
  refine ⟨congrArg Hdr.next hhdr, fun w hlo hhi => hmem w ?_⟩
  have h₁ := ht.le_or_next_le ha hne ho
  have h₂ := ht.le_or_next_le ho hoE ha
  omega

theorem HeapOk.keeps_reallocMove (hok : HeapOk h l) (ho : o ∈ usedBlocks h l)
    (hn : rtAlign n = n) (hsize : o + 12 + size ≤ h.next o)
    (hr : h.reallocMove (h.heapPtr + o + 12) size n = some (q, h')) :
    (q = 0 ∧ h' = h) ∨
      ∃ a, q = h.heapPtr + a + 12 ∧ Keeps (usedBlocks h l \ {o}) h h' ∧
        Carries h o h' a (min size n) ∧ a + 12 + n ≤ h'.next a := by
  rcases hok.reallocMove_cases hn hr with hnull | ⟨a, l₁, h₁, hm, hq, htakes, hf⟩
  · exact .inl hnull
  · refine .inr ⟨a, hq, ?_⟩
    have hmalloc := hok.keeps_rtMalloc hm
    have hcopy := htakes.rtMemcpy (min_le_right size n) (o + 12)
    set h₂ := h₁.rtMemcpy (a + 12) (o + 12) (min size n) with hh₂
    have hroom := htakes.room
    -- the copy writes to a new block, and the block at `o` is released
    have hwrite : Keeps (usedBlocks h l) h₁ h₂ := by
      refine (htakes.ok.keeps_write htakes.mem.1 htakes.mem.2 fun w hw => if_neg (by omega)).mono ?_
      intro o ho
      have ho₁ : o ∈ usedBlocks h₁ l₁ := by
        rw [htakes.used]
        exact mem_insert_of_mem _ ho
      exact ⟨usedBlocks_subset ho₁, fun hoa : o = a => htakes.fresh (hoa ▸ ho)⟩
    have hfree : Keeps (usedBlocks h₂ l₁ \ {o}) h₂ h' := by
      refine hcopy.ok.keeps_rtFree ?_ hf
      rw [hcopy.used]
      exact mem_insert_of_mem _ ho
    have hkept : usedBlocks h l \ {o} ⊆ usedBlocks h₂ l₁ \ {o} := by
      rw [hcopy.used]
      exact sdiff_subset_sdiff_left (subset_insert a _)
    have ha : a ∈ usedBlocks h₂ l₁ \ {o} := by
      rw [hcopy.used]
      exact ⟨mem_insert a _, fun hao : a = o => htakes.fresh (hao ▸ ho)⟩
    have hroom₂ := hcopy.room
    refine ⟨((hmalloc.trans hwrite).mono sdiff_subset).trans (hfree.mono hkept),
      hfree.carries ha ⟨by omega, fun i hi => ?_⟩, by rwa [(hfree a ha).1]⟩
    have hword : h₂.mem (a + 12 + i) = h₁.mem (o + 12 + i) := by
      rw [hh₂, rtMemcpy]
      dsimp only
      rw [if_pos (by omega)]
      congr 1
      omega
    rw [hword]
    exact (hmalloc o ho).2 _ (by omega) (by omega)

/-- `rt_realloc` carries over what fits, and does not touch the other blocks. The new block is large
enough, unless the old one is behind the range that `rt_realloc` looks at. -/
theorem HeapOk.keeps_rtRealloc (hok : HeapOk h l) (ho : o ∈ usedBlocks h l)
    (hr : h.rtRealloc (h.heapPtr + o + 12) newsize = some (q, h')) :
    (q = 0 ∧ h' = h) ∨
      ∃ a, q = h.heapPtr + a + 12 ∧ Keeps (usedBlocks h l \ {o}) h h' ∧
        Carries h o h' a (min (h.sizeOf o) (rtAlign newsize)) ∧
        (o + 12 < h.heapEnd → a + 12 + rtAlign newsize ≤ h'.next a) := by
  have hsize := hok.sizeOf_eq ho.1 ho.2.1
  have hle := (hok.payload ho.1 ho.2.1).1
  rcases rtRealloc_cases hr with hnull | ⟨rfl, rfl, hsame⟩ | ⟨rfl, hsmall, hsplit⟩ | hmove
  · exact .inl hnull
  · exact .inr ⟨o, rfl, keeps_of_mem rfl, ⟨by omega, fun _ _ => rfl⟩, fun hin => by omega⟩
  · obtain ⟨hkeep, hcarry⟩ :=
      hok.keeps_reallocSplit ho (rtAlign_mod newsize) (by omega) hsplit
    rw [Nat.min_eq_right (by omega)]
    exact .inr ⟨o, rfl, hkeep, hcarry, fun _ => hcarry.1⟩
  · refine (hok.keeps_reallocMove ho (rtAlign_rtAlign newsize) (by omega) hmove).imp id ?_
    rintro ⟨a, hq, hkeep, hcarry, hroom⟩
    exact ⟨a, hq, hkeep, hcarry, fun _ => hroom⟩

/-! ## Bytes -/

/-- The byte at offset `x`; words are stored with the lower byte first. -/
def byte (h : Heap) (x : ℕ) : ℕ := h.mem (x / 4 * 4) / 256 ^ (x % 4) % 256

/-- The pointers to the used blocks. -/
def livePtrs (h : Heap) : Set ℕ := ptrOf h.heapPtr '' usedBlocks h h.headers

/-- The size of the payload that `p` points to. -/
def payloadSize (h : Heap) (p : ℕ) : ℕ := h.sizeOf (h.headerOf p)

/-- The `i`-th byte of the payload that `p` points to. -/
def payloadByte (h : Heap) (p i : ℕ) : ℕ := h.byte (p - h.heapPtr + i)

/-- `p` points to the same bytes in `h'` as in `h`. -/
def SamePayload (h h' : Heap) (p : ℕ) : Prop :=
  h'.payloadSize p = h.payloadSize p ∧ ∀ i < h.payloadSize p, h'.payloadByte p i = h.payloadByte p i

theorem payloadSize_ptrOf : h.payloadSize (ptrOf h.heapPtr o) = h.sizeOf o :=
  congrArg h.sizeOf headerOf_ptr

theorem payloadByte_ptrOf (i : ℕ) : h.payloadByte (ptrOf h.heapPtr o) i = h.byte (o + 12 + i) := by
  unfold payloadByte ptrOf
  congr 1
  omega

/-- Equal words have equal bytes. -/
theorem byte_congr (ha : a % 4 = 0) (ho : o % 4 = 0)
    (hmem : h'.mem (a + 12 + i / 4 * 4) = h.mem (o + 12 + i / 4 * 4)) :
    h'.byte (a + 12 + i) = h.byte (o + 12 + i) := by
  have hword : ∀ x, x % 4 = 0 →
      (x + 12 + i) / 4 * 4 = x + 12 + i / 4 * 4 ∧ (x + 12 + i) % 4 = i % 4 := by omega
  unfold byte
  rw [(hword a ha).1, (hword a ha).2, (hword o ho).1, (hword o ho).2, hmem]

theorem Keeps.samePayload (hk : Keeps K h h') (hok : HeapOk h l) (ho : o ∈ usedBlocks h l)
    (hoK : o ∈ K) (harea : h'.area = h.area) : SamePayload h h' (ptrOf h.heapPtr o) := by
  obtain ⟨hnext, hmem⟩ := hk o hoK
  have hptr := heapPtr_congr harea
  have hsize : h'.payloadSize (ptrOf h.heapPtr o) = h.payloadSize (ptrOf h.heapPtr o) := by
    rw [payloadSize_ptrOf, ← hptr, payloadSize_ptrOf]
    unfold sizeOf
    rw [hnext]
  refine ⟨hsize, fun i hi => ?_⟩
  rw [payloadSize_ptrOf, hok.sizeOf_eq ho.1 ho.2.1] at hi
  have ho4 := hok.aligned o ho.1
  rw [payloadByte_ptrOf, ← hptr, payloadByte_ptrOf]
  exact byte_congr ho4 ho4 (hmem _ (by omega) (by omega))

theorem Carries.payload (hc : Carries h o h' a n) (hok : HeapOk h l) (hok' : HeapOk h' l')
    (ho : o ∈ usedBlocks h l) (ha : a ∈ usedBlocks h' l') (hi : i < n) :
    i < h'.payloadSize (ptrOf h'.heapPtr a) ∧
      h'.payloadByte (ptrOf h'.heapPtr a) i = h.payloadByte (ptrOf h.heapPtr o) i := by
  have hroom := hc.1
  refine ⟨?_, ?_⟩
  · rw [payloadSize_ptrOf, hok'.sizeOf_eq ha.1 ha.2.1]
    omega
  · rw [payloadByte_ptrOf, payloadByte_ptrOf]
    exact byte_congr (hok'.aligned a ha.1) (hok.aligned o ho.1) (hc.2 _ (by omega))

/-- The pointers change as the used blocks do. -/
theorem livePtrs_insert (hused : usedBlocks h' h'.headers = insert a (usedBlocks h h.headers \ {o}))
    (harea : h'.area = h.area) :
    h'.livePtrs = insert (ptrOf h.heapPtr a) (h.livePtrs \ {ptrOf h.heapPtr o}) := by
  unfold livePtrs
  rw [hused, heapPtr_congr harea, image_insert_eq, image_sdiff (ptrOf_injective _),
    image_singleton]

/-- `rt_realloc` keeps what its clients have. It returns unless the heap is smaller than the
smallest block. If it returns a block, then this block is live in the place of the old one and
begins with the old bytes, as many as there were and were asked for; all other live blocks are as
they were. If it returns `RT_NULL`, all live blocks are as they were. -/
theorem realloc_preserves_data (hok : HeapOk h h.headers) (hp : p ∈ h.livePtrs)
    (hwrap : newsize + 3 < 2 ^ 32) :
    (minSizeAligned ≤ h.memSizeAligned → (h.rtRealloc p newsize).isSome) ∧
      ∀ q h', h.rtRealloc p newsize = some (q, h') →
        HeapOk h' h'.headers ∧
        (q ≠ 0 →
          q ∉ h.livePtrs \ {p} ∧ h'.livePtrs = insert q (h.livePtrs \ {p}) ∧
          (∀ i < min (h.payloadSize p) newsize,
            i < h'.payloadSize q ∧ h'.payloadByte q i = h.payloadByte p i) ∧
          ∀ r ∈ h.livePtrs, r ≠ p → SamePayload h h' r) ∧
        (q = 0 → h'.livePtrs = h.livePtrs ∧ ∀ r ∈ h.livePtrs, SamePayload h h' r) := by
  obtain ⟨o, ho, rfl⟩ := hp
  refine ⟨fun hmin => hok.rtRealloc_isSome ho hmin, fun q h' hr => ?_⟩
  rcases hok.keeps_rtRealloc ho hr with ⟨rfl, rfl⟩ | ⟨a, rfl, hkeep, hcarry, -⟩
  · exact ⟨hok, fun hq => absurd rfl hq, fun _ => ⟨rfl, fun r _ => ⟨rfl, fun _ _ => rfl⟩⟩⟩
  · obtain ⟨hzero, -⟩ | ⟨a', l', heq, hok', harea, hfresh, hused⟩ := hok.rtRealloc ho hr
    · omega
    obtain rfl : a = a' := ptrOf_injective h.heapPtr heq
    obtain rfl := hok'.headers_eq
    have hptr := heapPtr_congr harea
    refine ⟨hok', fun _ => ⟨?_, livePtrs_insert hused harea, fun i hi => ?_, ?_⟩, by omega⟩
    · rintro ⟨⟨b, hb, hba⟩, hne⟩
      obtain rfl : b = a := ptrOf_injective h.heapPtr hba
      exact hfresh ⟨hb, fun hbo : b = o => hne (congrArg (ptrOf h.heapPtr) hbo)⟩
    · have hround : newsize ≤ rtAlign newsize := by
        unfold rtAlign
        omega
      rw [payloadSize_ptrOf] at hi
      have hpay := hcarry.payload hok hok' ho (hused ▸ mem_insert a _) (i := i) (by omega)
      rwa [hptr] at hpay
    · rintro r ⟨b, hb, rfl⟩ hne
      have hbo : b ≠ o := fun hbo => hne (congrArg (ptrOf h.heapPtr) hbo)
      exact hkeep.samePayload hok hb ⟨hb, hbo⟩ harea

end Heap

namespace MemSys

open Heap Runs

/-- Two blocks, and a 7 in the second one. -/
def storeOps : List MemOp := [.malloc 20, .malloc 30, .store 4140 2 7]

theorem storeOps_possible : (exec step ⟨sampleHeap, []⟩ storeOps).isSome := by
  decide

/-- The 7 is still there when the block is made larger. -/
theorem realloc_preserves_data_sample :
    let s := ((exec step ⟨sampleHeap, []⟩ storeOps).get storeOps_possible).2
    ∃ q h', s.heap.rtRealloc 4140 60 = some (q, h') ∧ q ≠ 0 ∧ h'.payloadByte q 8 = 7 := by
  intro s
  have hinit : rtSystemHeapInit (fun _ => 0) 4096 4296 = some sampleHeap := rfl
  obtain ⟨-, l, hok, -⟩ := ok_of_run hinit (Run.of_isSome storeOps_possible)
  have hlive : 4140 ∈ s.heap.livePtrs :=
    ⟨32, ⟨by decide, by decide, by decide⟩, rfl⟩
  have hwrap : 60 + 3 < 2 ^ 32 := by norm_num
  obtain ⟨hsome, hdata⟩ := realloc_preserves_data (hok.headers_eq.symm ▸ hok) hlive hwrap
  obtain ⟨⟨q, h'⟩, hr⟩ := isSome_iff_exists.mp (hsome (by decide))
  have hq : q ≠ 0 := by
    have hne : (s.heap.rtRealloc 4140 60).map Prod.fst ≠ some 0 := by decide
    rintro rfl
    exact hne (by rw [hr]; rfl)
  obtain ⟨-, -, hbytes, -⟩ := (hdata q h' hr).2.1 hq
  refine ⟨q, h', hr, hq, (hbytes 8 (by decide)).2.trans ?_⟩
  decide

end MemSys

end RtThread
