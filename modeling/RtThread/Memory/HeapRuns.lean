import Mathlib
import RtThread.Memory.HeapInvariant

/-!
# Runs of the heap

What `rt_malloc`, `rt_free` and `rt_realloc` do to a heap with the invariant
`HeapOk`: they keep it, and the set of the used blocks gains the block that is
returned and loses the one that is released. The clients' pointers are then
those of the used blocks after every run from `rt_system_heap_init`.
-/

namespace RtThread

open BlockChain Runs List Option Set

namespace Heap

variable {h h' : Heap} {l l' xs ys live : List ℕ} {a b c n o p q size : ℕ} {n : ℕ} {fuel ptr : ℕ}
  {h₁ : Heap} {h'' : Heap}

/-- The space of a block is what the functions compute it to be. -/
theorem Tiled.payload (ht : Tiled h l) (ha : a ∈ l) (hne : a ≠ h.heapEnd) :
    a + 12 ≤ h.next a ∧ h.next a ≤ h.heapEnd ∧
      sub32 (h.next a) (a + sizeofStructMem) = h.next a - (a + 12) := by
  have hnext := ht.le_heapEnd (ht.next_mem ha)
  have hspace := ht.space
  obtain ⟨xs, ys, hl⟩ := ht.exists_next ha hne
  rw [hl] at ht
  have hle := ht.next_eq.2
  exact ⟨hle, hnext, sub32_of_le hle (by omega)⟩

theorem usedBlocks_congr (harea : h'.area = h.area) (hused : ∀ o ∈ l, h'.used o = h.used o) :
    usedBlocks h' l = usedBlocks h l := by
  ext o
  simp only [usedBlocks, mem_ofPred_eq, heapEnd_congr harea]
  constructor
  · rintro ⟨ho, hne, hu⟩
    exact ⟨ho, hne, by rwa [← hused o ho]⟩
  · rintro ⟨ho, hne, hu⟩
    exact ⟨ho, hne, by rwa [hused o ho]⟩

/-- What a client writes to a block leaves all headers alone. -/
theorem Tiled.hdr_of_payload (ht : Tiled h l) (ha : a ∈ l) (hne : a ≠ h.heapEnd)
    (hmem : ∀ w, w < a + 12 ∨ h.next a ≤ w → h'.mem w = h.mem w) (ho : o ∈ l) :
    h'.hdr o = h.hdr o := by
  have hword : ∀ i, i < 3 → h'.mem (o + 4 * i) = h.mem (o + 4 * i) := by
    intro i hi
    apply hmem
    have := ht.le_or_next_le ha hne ho
    omega
  simp only [hdr, Heap.magic, used, next, prev, field, hword 0 (by norm_num),
    hword 1 (by norm_num), hword 2 (by norm_num)]

/-! ## `rt_malloc` -/

/-- The block at `a` is taken, with `size` bytes. -/
structure Takes (h : Heap) (l : List ℕ) (a size : ℕ) (h' : Heap) (l' : List ℕ) : Prop where
  ok : HeapOk h' l'
  area : h'.area = h.area
  fresh : a ∉ usedBlocks h l
  used : usedBlocks h' l' = insert a (usedBlocks h l)
  room : a + 12 + size ≤ h'.next a

section

variable (ht : Takes h l a size h' l')
include ht

theorem Takes.mem : a ∈ l' ∧ a ≠ h'.heapEnd := by
  have ha : a ∈ usedBlocks h' l' := by
    rw [ht.used]
    exact mem_insert a _
  exact ⟨ha.1, ha.2.1⟩

theorem Takes.congr (harea : h''.area = h'.area) (hhdr : ∀ o ∈ l', h''.hdr o = h'.hdr o)
    (hlfree : h''.lfree ∈ l') : Takes h l a size h'' l' where
  ok := ht.ok.congr harea hhdr hlfree
  area := harea.trans ht.area
  fresh := ht.fresh
  used := (usedBlocks_congr harea fun o ho => congrArg Hdr.used (hhdr o ho)).trans ht.used
  room := by
    rw [show h''.next a = h'.next a from congrArg Hdr.next (hhdr a ht.mem.1)]
    exact ht.room

theorem Takes.addUsed : Takes h l a size (h'.addUsed n) l' :=
  by
  have harea : (h'.addUsed n).area = h'.area := rfl
  exact ht.congr harea (fun _ _ => rfl) ht.ok.lfree

end

/-- Blocks may be taken from another heap with the same used blocks. -/
theorem Takes.of_eq {l₁ : List ℕ} (ht : Takes h₁ l₁ a size h' l')
    (hused : usedBlocks h₁ l₁ = usedBlocks h l) (harea : h₁.area = h.area) :
    Takes h l a size h' l' where
  ok := ht.ok
  area := ht.area.trans harea
  fresh := hused ▸ ht.fresh
  used := hused ▸ ht.used
  room := ht.room

/-- The block at `a` is marked in a heap that is tiled, but may have two unused blocks next to each
other at `a`. -/
theorem Tiled.takes (ht : Tiled h (xs ++ a :: ys)) (hne : a ≠ h.heapEnd) (hfree : h.used a = 0)
    (hxs : Alternating h.Free xs) (hys : Alternating h.Free ys) (hroom : a + 12 + size ≤ h.next a) :
    Takes h (xs ++ a :: ys) a size (h.setUsed a 1) (xs ++ a :: ys) := by
  have ha : a ∈ xs ++ a :: ys := by simp
  obtain ⟨ht', hu⟩ := ht.setUsed (v := 1) ha hne (by norm_num)
  have hua : (h.setUsed a 1).used a = 1 := by rw [hu a ha, if_pos rfl]
  have hf : ∀ o ∈ xs ++ a :: ys, (h.setUsed a 1).Free o → h.Free o := by
    intro o ho hfo
    rw [Free, hu o ho] at hfo
    split_ifs at hfo
    exact hfo
  refine ⟨⟨ht', alternating_middle.mpr ⟨?_, ?_, ?_, ?_⟩⟩, rfl, fun hused => hused.2.2 hfree, ?_, ?_⟩
  · exact hxs.congr fun o ho => hf o (by simp [ho])
  · exact hys.congr fun o ho => hf o (by simp [ho])
  · rintro p - ⟨-, hfa⟩
    rw [Free] at hfa
    omega
  · rintro d - ⟨hfa, -⟩
    rw [Free] at hfa
    omega
  · ext o
    constructor
    · rintro ⟨ho, hoe, huo⟩
      rw [hu o ho] at huo
      split_ifs at huo with hoa
      · exact .inl hoa
      · exact .inr ⟨ho, hoe, huo⟩
    · rintro (rfl | ⟨ho, hoe, huo⟩)
      · exact ⟨ha, hne, by rw [hua]; norm_num⟩
      · refine ⟨ho, hoe, ?_⟩
        rw [hu o ho]
        split_ifs
        · norm_num
        · exact huo
  · rwa [show (h.setUsed a 1).next a = h.next a by
      have := hdr_setUsed (h := h) (ht.apart ha ha) (show 1 < 2 ^ 16 by norm_num)
      rw [if_pos rfl] at this
      exact congrArg Hdr.next this]

theorem HeapOk.takeBlock (hok : HeapOk h l) (ha : a ∈ l) (hne : a ≠ h.heapEnd)
    (hfree : h.used a = 0) (hsize : size % 4 = 0) (hle : a + 12 + size ≤ h.next a) :
    ∃ l', Takes h l a size (h.takeBlock a size) l' ∧
      (h.takeBlock a size).heapEnd = h.heapEnd ∧ (h.takeBlock a size).lfree = h.lfree := by
  have ht := hok.toTiled
  obtain ⟨-, -, hpay⟩ := ht.payload ha hne
  obtain ⟨xs, ys, rfl⟩ := ht.exists_next ha hne
  obtain ⟨hxs, hys, -, hab⟩ := alternating_middle.mp hok.alternating
  have hb : ¬ h.Free (h.next a) := fun hb => hab (h.next a) (by simp) ⟨hfree, hb⟩
  unfold takeBlock
  rw [hpay]
  split_ifs with hsplit
  · -- split large block
    simp only [sizeofStructMem, minSizeAligned] at hsplit ⊢
    have ha4 := ht.aligned a ha
    obtain ⟨ht', huc, hu⟩ := ht.split (c := a + 12 + size) (by omega) (by omega) (by omega)
    set h₁ := h.split a (a + 12 + size)
    have hfree₁ : ∀ o ∈ xs ++ a :: h.next a :: ys, h₁.Free o → h.Free o := by
      intro o ho hf
      rwa [Free, hu o ho] at hf
    have hend₁ : h₁.heapEnd = h.heapEnd := split_heapEnd
    have hnext₁ : h₁.next a = a + 12 + size := ht'.next_eq.1
    have htakes : Takes h₁ _ a size _ _ := ht'.takes (by rwa [hend₁]) ((hu a ha).trans hfree)
      (hxs.congr fun o ho => hfree₁ o (by simp [ho]))
      (isChain_cons_cons.mpr ⟨fun hf => hb (hfree₁ _ (by simp) hf.2),
        hys.congr fun o ho => hfree₁ o (mem_append_right _ (.tail _ ho))⟩)
      (by rw [hnext₁])
    have hblocks := ht.usedBlocks_split (c := a + 12 + size) (by omega) (by omega) (by omega)
    have hlfree₁ : h₁.lfree = h.lfree := split_lfree
    exact ⟨_, (htakes.of_eq hblocks split_area).addUsed, hend₁, hlfree₁⟩
  · -- near fit or exact fit
    exact ⟨_, (ht.takes hne hfree hxs hys hle).addUsed, rfl, rfl⟩

/-- The search stays on the headers, and what it finds fits. -/
theorem Tiled.mallocLoop (ht : Tiled h l) (hptr : ptr ∈ l)
    (hm : h.mallocLoop size fuel ptr = some (some a)) :
    a ∈ l ∧ h.used a = 0 ∧ size ≤ sub32 (h.next a) (a + sizeofStructMem) := by
  induction fuel generalizing ptr with
  | zero => cases hm
  | succ fuel ih =>
    rw [mallocLoop] at hm
    split_ifs at hm with hbound hfit
    · obtain rfl : ptr = a := by simpa using hm
      exact ⟨hptr, hfit⟩
    · exact ih (ht.next_mem hptr) hm
    · simp at hm

theorem Tiled.lfreeLoop (ht : Tiled h l) (hptr : ptr ∈ l) (hm : h.lfreeLoop fuel ptr = some a) :
    a ∈ l := by
  induction fuel generalizing ptr with
  | zero => cases hm
  | succ fuel ih =>
    rw [lfreeLoop] at hm
    split_ifs at hm
    · exact ih (ht.next_mem hptr) hm
    · obtain rfl : ptr = a := by simpa using hm
      exact hptr

theorem Takes.setMagic (ht : Takes h l a size h' l') :
    Takes h l a size (h'.setMagic a heapMagic) l' := by
  have harea : (h'.setMagic a heapMagic).area = h'.area := rfl
  refine ht.congr harea (fun o ho => ?_) ht.ok.lfree
  rw [hdr_setMagic (ht.ok.apart ho ht.mem.1) (by norm_num [heapMagic])]
  split_ifs
  · rw [← ht.ok.magic o ho]
    rfl
  · rfl

theorem Takes.updateLfree (ht : Takes h l a size h' l') (hu : h'.updateLfree = some h'') :
    Takes h l a size h'' l' := by
  obtain ⟨o, ho, rfl⟩ := map_eq_some_iff.mp hu
  have harea : ({ h' with lfree := o } : Heap).area = h'.area := rfl
  exact ht.congr harea (fun _ _ => rfl) (ht.ok.lfreeLoop ht.ok.lfree ho)

theorem HeapOk.mallocBlock (hok : HeapOk h l) (ha : a ∈ l) (hfree : h.used a = 0)
    (hsize : size % 4 = 0) (hfit : size ≤ sub32 (h.next a) (a + sizeofStructMem))
    (hm : h.mallocBlock a size = some (q, h')) :
    ∃ l', q = h.heapPtr + a + 12 ∧ Takes h l a size h' l' := by
  have hne : a ≠ h.heapEnd := fun hne => hok.endUsed (hne ▸ hfree)
  obtain ⟨hle, -, hpay⟩ := hok.payload ha hne
  obtain ⟨l', htakes, -, -⟩ := hok.takeBlock ha hne hfree hsize (by omega)
  obtain ⟨h₂, hh₂, hm⟩ := bind_eq_some_iff.mp hm
  have htakes₂ : Takes h l a size h₂ l' := by
    split_ifs at hh₂ with hl
    · exact htakes.setMagic.updateLfree hh₂
    · cases hh₂
      exact htakes.setMagic
  split_ifs at hm
  obtain ⟨rfl, rfl⟩ := hm
  refine ⟨l', ?_, htakes₂⟩
  rw [heapPtr_congr htakes₂.area]
  rfl

theorem blockSize_spec (hn : n % 4 = 0) : n ≤ blockSize n ∧ blockSize n % 4 = 0 := by
  unfold blockSize minSizeAligned
  split_ifs <;> omega

/-- `rt_malloc` fails and does nothing, or takes the block that it has found. -/
theorem rtMalloc_cases (hm : h.rtMalloc size = some (q, h')) :
    (q = 0 ∧ h' = h) ∨
      (size ≠ 0 ∧ ∃ a, h.mallocLoop (blockSize (rtAlign size)) h.rounds h.lfree = some (some a) ∧
        h.mallocBlock a (blockSize (rtAlign size)) = some (q, h')) := by
  unfold rtMalloc at hm
  split_ifs at hm with hzero hlarge
  · cases hm
    exact .inl ⟨rfl, rfl⟩
  · cases hm
    exact .inl ⟨rfl, rfl⟩
  · split at hm
    · cases hm
    · cases hm
      exact .inl ⟨rfl, rfl⟩
    · rename_i a hloop
      exact .inr ⟨hzero, a, hloop, hm⟩

/-- `rt_malloc` fails, or takes a block. -/
theorem HeapOk.rtMalloc (hok : HeapOk h l) (hm : h.rtMalloc size = some (q, h')) :
    (q = 0 ∧ h' = h) ∨ ∃ a l', q = h.heapPtr + a + 12 ∧ Takes h l a (rtAlign size) h' l' := by
  rcases rtMalloc_cases hm with hnull | ⟨-, a, hloop, hblock⟩
  · exact .inl hnull
  · obtain ⟨hle, hmod⟩ := blockSize_spec (rtAlign_mod size)
    obtain ⟨ha, hfree, hfit⟩ := hok.mallocLoop hok.lfree hloop
    obtain ⟨l', hq, htakes⟩ := hok.mallocBlock ha hfree hmod hfit hblock
    exact .inr ⟨a, l', hq, { htakes with room := by have := htakes.room; omega }⟩

/-! ## `rt_free` -/

theorem headerOf_ptr : h.headerOf (h.heapPtr + o + 12) = o := by
  unfold headerOf sizeofStructMem
  omega

/-- A block becomes unused: a hole to plug. -/
theorem HeapOk.hole (hok : HeapOk h (xs ++ a :: ys)) (hne : a ≠ h.heapEnd) :
    Hole (h.setUsed a 0) xs a ys ∧
      usedBlocks (h.setUsed a 0) (xs ++ a :: ys) = usedBlocks h (xs ++ a :: ys) \ {a} := by
  have ha : a ∈ xs ++ a :: ys := by simp
  obtain ⟨ht, hu⟩ := hok.toTiled.setUsed (v := 0) ha hne (by norm_num)
  obtain ⟨hxs, hys, -, -⟩ := alternating_middle.mp hok.alternating
  obtain ⟨hbelow, habove⟩ := hok.chain.around
  -- `a` is neither before nor behind itself
  have hfree : ∀ o ∈ xs ++ a :: ys, o ≠ a → (h.setUsed a 0).Free o → h.Free o := by
    intro o ho hoa hf
    rwa [Free, hu o ho, if_neg hoa] at hf
  refine ⟨⟨ht, ?_, ?_, ?_⟩, ?_⟩
  · rw [hu a ha, if_pos rfl]
  · refine hxs.congr fun o ho => hfree o (by simp [ho]) ?_
    have := hbelow o ho
    omega
  · refine hys.congr fun o ho => hfree o (by simp [ho]) ?_
    have := habove o ho
    omega
  · ext o
    have hend : (h.setUsed a 0).heapEnd = h.heapEnd := rfl
    simp only [usedBlocks, mem_ofPred_eq, mem_sdiff, mem_singleton_iff, hend]
    constructor
    · rintro ⟨ho, hoe, huo⟩
      rw [hu o ho] at huo
      split_ifs at huo with hoa
      · exact absurd rfl huo
      · exact ⟨⟨ho, hoe, huo⟩, hoa⟩
    · rintro ⟨⟨ho, hoe, huo⟩, hoa⟩
      exact ⟨ho, hoe, by rwa [hu o ho, if_neg hoa]⟩

/-- A hole is about the headers only. -/
theorem Hole.congr (hh : Hole h xs a ys) (harea : h'.area = h.area)
    (hhdr : ∀ o ∈ xs ++ a :: ys, h'.hdr o = h.hdr o) (hlfree : h'.lfree ∈ xs ++ a :: ys) :
    Hole h' xs a ys := by
  have hused : ∀ o ∈ xs ++ a :: ys, h'.used o = h.used o :=
    fun o ho => congrArg Hdr.used (hhdr o ho)
  have hfree : ∀ o ∈ xs ++ a :: ys, h'.Free o → h.Free o := by
    intro o ho hf
    rwa [Free, hused o ho] at hf
  refine ⟨hh.tiled.congr harea (fun o ho => ?_) ?_ hlfree, ?_, ?_, ?_⟩
  · rw [hhdr o ho, hused o ho]
    rfl
  · rw [hused _ hh.tiled.heapEnd_mem]
    exact hh.tiled.endUsed
  · rw [hused a (by simp)]
    exact hh.free
  · exact hh.before.congr fun o ho => hfree o (by simp [ho])
  · exact hh.behind.congr fun o ho => hfree o (by simp [ho])

theorem Hole.subUsed (hh : Hole h xs a ys) : Hole (h.subUsed n) xs a ys := by
  have harea : (h.subUsed n).area = h.area := rfl
  exact hh.congr harea (fun _ _ => rfl) hh.tiled.lfree

theorem usedBlocks_subUsed : usedBlocks (h.subUsed n) l = usedBlocks h l := by
  have harea : (h.subUsed n).area = h.area := rfl
  exact usedBlocks_congr harea fun _ _ => rfl

theorem HeapOk.markUnused (hok : HeapOk h (xs ++ a :: ys)) (hne : a ≠ h.heapEnd) :
    Hole (h.markUnused a) xs a ys ∧ (h.markUnused a).area = h.area ∧
      usedBlocks (h.markUnused a) (xs ++ a :: ys) = usedBlocks h (xs ++ a :: ys) \ {a} := by
  have ha : a ∈ xs ++ a :: ys := by simp
  obtain ⟨hhole, hblocks⟩ := hok.hole hne
  have hhdr : ∀ o ∈ xs ++ a :: ys, (h.markUnused a).hdr o = (h.setUsed a 0).hdr o := by
    intro o ho
    have hmagic : ((h.setUsed a 0).setMagic a heapMagic).hdr o = (h.setUsed a 0).hdr o := by
      rw [hdr_setMagic (hok.apart ho ha) (by norm_num [heapMagic])]
      split_ifs
      · rw [← hhole.tiled.magic o ho]
        rfl
      · rfl
    rw [← hmagic]
    unfold Heap.markUnused
    dsimp only
    split_ifs <;> rfl
  have harea : (h.markUnused a).area = h.area := by
    unfold Heap.markUnused
    dsimp only
    split_ifs <;> rfl
  have hlfree : (h.markUnused a).lfree ∈ xs ++ a :: ys := by
    unfold Heap.markUnused
    dsimp only
    split_ifs
    · exact ha
    · exact hok.lfree
  exact ⟨hhole.congr harea hhdr hlfree, harea,
    (usedBlocks_congr (h := h.setUsed a 0) harea fun o ho => congrArg Hdr.used (hhdr o ho)).trans
      hblocks⟩

/-- What `rt_free` makes of a used block. -/
theorem HeapOk.freeBlock (hok : HeapOk h l) (ha : a ∈ l) (hne : a ≠ h.heapEnd) :
    ∃ h' l', h.freeBlock a = some h' ∧ HeapOk h' l' ∧ h'.area = h.area ∧
      usedBlocks h' l' = usedBlocks h l \ {a} := by
  obtain ⟨xs, ys, rfl⟩ := hok.exists_next ha hne
  obtain ⟨hhole, harea, hblocks⟩ := hok.markUnused hne
  obtain ⟨h', l', hplug, hok', harea', hused'⟩ := hhole.subUsed.plugHoles
  rw [usedBlocks_subUsed, hblocks] at hused'
  exact ⟨h', l', hplug, hok', harea'.trans harea, hused'⟩

/-- A `rt_free` that returns has released the block. -/
theorem HeapOk.rtFree (hok : HeapOk h l) (ho : o ∈ usedBlocks h l)
    (hf : h.rtFree (h.heapPtr + o + 12) = some h') :
    ∃ l', HeapOk h' l' ∧ h'.area = h.area ∧ usedBlocks h' l' = usedBlocks h l \ {o} := by
  obtain ⟨h'', l', hfree, hok', harea, hused⟩ := hok.freeBlock ho.1 ho.2.1
  unfold Heap.rtFree at hf
  rw [if_neg (by omega), headerOf_ptr] at hf
  split_ifs at hf
  obtain rfl : h'' = h' := by simpa [hfree] using hf
  exact ⟨l', hok', harea, hused⟩

/-! ## `rt_realloc` -/

/-- The end of a used block becomes an unused one: a hole to plug. -/
theorem HeapOk.splitHole (hok : HeapOk h (xs ++ a :: b :: ys)) (ha : h.used a ≠ 0)
    (hac : a + 12 ≤ c) (hcb : c + 12 ≤ b) (hc : c % 4 = 0) :
    Hole (h.split a c) (xs ++ [a]) c (b :: ys) ∧
      usedBlocks (h.split a c) (xs ++ [a] ++ c :: b :: ys) = usedBlocks h (xs ++ a :: b :: ys) := by
  obtain ⟨hxs, hys, -, -⟩ := alternating_middle.mp hok.alternating
  obtain ⟨ht, huc, hu⟩ := hok.split hac hcb hc
  have hfree : ∀ o ∈ xs ++ a :: b :: ys, (h.split a c).Free o → h.Free o := by
    intro o ho hf
    rwa [Free, hu o ho] at hf
  refine ⟨⟨by simpa using ht, huc, alternating_middle.mpr ⟨?_, .nil, ?_, by simp⟩, ?_⟩, ?_⟩
  · exact hxs.congr fun o ho => hfree o (by simp [ho])
  · rintro p - ⟨-, hf⟩
    exact ha (hfree a (by simp) hf)
  · exact hys.congr fun o ho => hfree o (mem_append_right _ (.tail _ ho))
  · rw [append_assoc]
    exact hok.usedBlocks_split hac hcb hc

theorem HeapOk.subUsed (hok : HeapOk h l) : HeapOk (h.subUsed n) l := by
  have harea : (h.subUsed n).area = h.area := rfl
  exact hok.congr harea (fun _ _ => rfl) hok.lfree

/-- `rt_realloc` makes a block smaller in place. -/
theorem HeapOk.reallocSplit (hok : HeapOk h l) (ha : a ∈ usedBlocks h l) {k n : ℕ} (hn : n % 4 = 0)
    (hle : a + 24 + n ≤ h.next a) :
    ∃ h' l', h.reallocSplit a k n = some h' ∧ HeapOk h' l' ∧ h'.area = h.area ∧
      usedBlocks h' l' = usedBlocks h l := by
  have ha4 := hok.aligned a ha.1
  obtain ⟨xs, ys, rfl⟩ := hok.exists_next ha.1 ha.2.1
  obtain ⟨hhole, hblocks⟩ := (hok.subUsed (n := k - n)).splitHole (c := a + 12 + n) ha.2.2
    (by omega) (by omega) (by omega)
  obtain ⟨h', l', hplug, hok', harea', hused'⟩ := hhole.plugHoles
  refine ⟨h', l', hplug, hok', ?_, ?_⟩
  · rw [harea', split_area]
    rfl
  · rw [hused', hblocks]
    exact usedBlocks_subUsed

variable {mem : ℕ → ℕ}

/-- What a client's block holds does not matter to the heap. -/
theorem HeapOk.write (hok : HeapOk h l) (ha : a ∈ l) (hne : a ≠ h.heapEnd)
    (hmem : ∀ w, w < a + 12 ∨ h.next a ≤ w → mem w = h.mem w) :
    HeapOk { h with mem := mem } l ∧ usedBlocks { h with mem := mem } l = usedBlocks h l := by
  have hhdr : ∀ o ∈ l, ({ h with mem := mem } : Heap).hdr o = h.hdr o :=
    fun o ho => hok.hdr_of_payload ha hne hmem ho
  exact ⟨hok.congr rfl hhdr hok.lfree,
    usedBlocks_congr rfl fun o ho => congrArg Hdr.used (hhdr o ho)⟩

/-- `q` points to a block of `h'` that is used besides those of `U`. -/
def Gains (area : ℕ × ℕ) (U : Set ℕ) (q : ℕ) (h' : Heap) : Prop :=
  ∃ a l', q = area.1 + a + 12 ∧ HeapOk h' l' ∧ h'.area = area ∧ a ∉ U ∧
    usedBlocks h' l' = insert a U

/-- `rt_realloc` moves a block: a block is taken, the contents are copied, and the old block is
released. -/
theorem reallocMove_eq (hm : h.rtMalloc n = some (h.heapPtr + a + 12, h₁))
    (hptr : h₁.heapPtr = h.heapPtr) :
    h.reallocMove (h.heapPtr + o + 12) size n =
      ((h₁.rtMemcpy (a + 12) (o + 12) (min size n)).rtFree (h₁.heapPtr + o + 12)).map
        (h.heapPtr + a + 12, ·) := by
  have hdst : h.heapPtr + a + 12 - h.heapPtr = a + 12 := by omega
  have hsrc : h.heapPtr + o + 12 - h.heapPtr = o + 12 := by omega
  unfold reallocMove
  rw [hm, bind_some]
  dsimp only
  rw [if_neg (by omega), hptr, hdst, hsrc]

theorem HeapOk.reallocMove_cases (hok : HeapOk h l) (hn : rtAlign n = n)
    (hr : h.reallocMove (h.heapPtr + o + 12) size n = some (q, h')) :
    (q = 0 ∧ h' = h) ∨
      ∃ a l₁ h₁, h.rtMalloc n = some (q, h₁) ∧ q = h.heapPtr + a + 12 ∧ Takes h l a n h₁ l₁ ∧
        (h₁.rtMemcpy (a + 12) (o + 12) (min size n)).rtFree (h₁.heapPtr + o + 12) = some h' := by
  obtain ⟨⟨nmem, h₁⟩, hm, hr'⟩ := bind_eq_some_iff.mp hr
  rcases hok.rtMalloc hm with ⟨rfl, rfl⟩ | ⟨a, l₁, rfl, htakes⟩
  · cases hr'
    exact .inl ⟨rfl, rfl⟩
  · rw [reallocMove_eq hm (heapPtr_congr htakes.area)] at hr
    obtain ⟨h₂, hf, heq⟩ := map_eq_some_iff.mp hr
    cases heq
    rw [hn] at htakes
    exact .inr ⟨a, l₁, h₁, hm, rfl, htakes, hf⟩

/-- What is written to the block that was taken does not matter. -/
theorem Takes.write (ht : Takes h l a n h' l')
    (hmem : ∀ w, w < a + 12 ∨ a + 12 + n ≤ w → mem w = h'.mem w) :
    Takes h l a n { h' with mem := mem } l' := by
  have hroom := ht.room
  have hhdr : ∀ o ∈ l', ({ h' with mem := mem } : Heap).hdr o = h'.hdr o :=
    fun o ho => ht.ok.hdr_of_payload ht.mem.1 ht.mem.2 (fun w hw => hmem w (by omega)) ho
  exact ht.congr rfl hhdr ht.ok.lfree

theorem Takes.rtMemcpy (ht : Takes h l a n h' l') {k : ℕ} (hk : k ≤ n) (src : ℕ) :
    Takes h l a n (h'.rtMemcpy (a + 12) src k) l' :=
  ht.write fun _ _ => if_neg (by omega)

theorem HeapOk.reallocMove (hok : HeapOk h l) (ho : o ∈ usedBlocks h l) (hn : rtAlign n = n)
    (hr : h.reallocMove (h.heapPtr + o + 12) size n = some (q, h')) :
    (q = 0 ∧ h' = h) ∨ Gains h.area (usedBlocks h l \ {o}) q h' := by
  rcases hok.reallocMove_cases hn hr with hnull | ⟨a, l₁, h₁, -, rfl, htakes, hf⟩
  · exact .inl hnull
  · have hao : a ≠ o := by
      rintro rfl
      exact htakes.fresh ho
    have hcopy := htakes.rtMemcpy (min_le_right size n) (o + 12)
    obtain ⟨l', hok', harea', hused'⟩ := hcopy.ok.rtFree (by
      rw [hcopy.used]
      exact mem_insert_of_mem _ ho) hf
    refine .inr ⟨a, l', rfl, hok', harea'.trans htakes.area, fun ha => htakes.fresh ha.1, ?_⟩
    rw [hused', hcopy.used]
    exact (insert_sdiff_singleton_comm hao _).symm

/-- The block stays where it is. -/
theorem HeapOk.gains_self (hok : HeapOk h' l') (harea : h'.area = h.area)
    (hused : usedBlocks h' l' = usedBlocks h l) (ho : o ∈ usedBlocks h l) :
    Gains h.area (usedBlocks h l \ {o}) (h.heapPtr + o + 12) h' := by
  refine ⟨o, l', rfl, hok, harea, fun hx => hx.2 rfl, ?_⟩
  rw [hused, insert_sdiff_singleton, insert_eq_of_mem ho]

theorem Tiled.sizeOf_eq (ht : Tiled h l) (ha : a ∈ l) (hne : a ≠ h.heapEnd) :
    h.sizeOf a = h.next a - (a + 12) := by
  obtain ⟨hle, hend, -⟩ := ht.payload ha hne
  have hspace := ht.space
  unfold sizeOf sizeofStructMem
  rw [sub32_of_le (show a ≤ h.next a by omega) (by omega), sub32_of_le (by omega) (by omega)]
  omega

variable {newsize : ℕ}

/-- `rt_realloc` of `RT_NULL` is `rt_malloc`. -/
theorem rtRealloc_null (hr : h.rtRealloc 0 newsize = some (q, h')) :
    (q = 0 ∧ h' = h) ∨ h.rtMalloc (rtAlign newsize) = some (q, h') := by
  unfold rtRealloc at hr
  rw [if_pos rfl] at hr
  split_ifs at hr
  · cases hr
    exact .inl ⟨rfl, rfl⟩
  · exact .inr hr

/-- `rt_realloc` fails and does nothing; or it leaves the block as it is; or it makes it smaller; or
it moves it. -/
theorem rtRealloc_cases (hr : h.rtRealloc (h.heapPtr + o + 12) newsize = some (q, h')) :
    (q = 0 ∧ h' = h) ∨
      (q = h.heapPtr + o + 12 ∧ h' = h ∧ (h.sizeOf o = rtAlign newsize ∨ h.heapEnd ≤ o + 12)) ∨
      (q = h.heapPtr + o + 12 ∧ rtAlign newsize + 24 < h.sizeOf o ∧
        h.reallocSplit o (h.sizeOf o) (rtAlign newsize) = some h') ∨
      h.reallocMove (h.heapPtr + o + 12) (h.sizeOf o) (rtAlign newsize) = some (q, h') := by
  unfold rtRealloc at hr
  rw [headerOf_ptr, if_neg (show ¬ h.heapPtr + o + 12 = 0 by omega)] at hr
  split_ifs at hr with hlarge hout
  · cases hr
    exact .inl ⟨rfl, rfl⟩
  · cases hr
    exact .inr (.inl ⟨rfl, rfl, .inr (by omega)⟩)
  · unfold reallocBlock at hr
    split_ifs at hr with hsame hsmall
    · cases hr
      exact .inr (.inl ⟨rfl, rfl, .inl hsame⟩)
    · obtain ⟨h₁, hsplit, heq⟩ := map_eq_some_iff.mp hr
      cases heq
      exact .inr (.inr (.inl ⟨rfl, hsmall, hsplit⟩))
    · exact .inr (.inr (.inr hr))

/-- `rt_realloc` fails and does nothing, or returns a block in the place of the one it was given. -/
theorem HeapOk.rtRealloc (hok : HeapOk h l) (ho : o ∈ usedBlocks h l)
    (hr : h.rtRealloc (h.heapPtr + o + 12) newsize = some (q, h')) :
    (q = 0 ∧ h' = h) ∨ Gains h.area (usedBlocks h l \ {o}) q h' := by
  have hsize := hok.sizeOf_eq ho.1 ho.2.1
  rcases rtRealloc_cases hr with hnull | ⟨rfl, rfl, -⟩ | ⟨rfl, hsmall, hsplit⟩ | hmove
  · exact .inl hnull
  · exact .inr (hok.gains_self rfl rfl ho)
  · obtain ⟨h₂, l', hsplit', hok', harea, hused⟩ :=
      hok.reallocSplit (k := h.sizeOf o) ho (rtAlign_mod newsize) (by omega)
    obtain rfl : h₂ = h' := by simpa [hsplit] using hsplit'.symm
    exact .inr (hok'.gains_self harea hused ho)
  · exact hok.reallocMove ho (rtAlign_rtAlign newsize) hmove

/-! ## `rt_system_heap_init` -/

theorem initHeap_hdr (mem : ℕ → ℕ) (base n : ℕ) :
    (initHeap mem base n).hdr 0 = ⟨heapMagic, 0, n + 12, 0⟩ ∧
      (initHeap mem base n).hdr (n + 12) = ⟨heapMagic, 1, n + 12, n + 12⟩ := by
  have h0E : Apart 12 0 (n + 12) := by unfold Apart; omega
  have h00 : Apart 12 0 0 := .inl rfl
  have hEE : Apart 12 (n + 12) (n + 12) := .inl rfl
  have hne : ¬ 0 = n + 12 := by omega
  have hmagic : heapMagic < 2 ^ 16 := by norm_num [heapMagic]
  unfold initHeap heapEnd sizeofStructMem
  constructor
  · rw [hdr_setPrev h0E, if_neg hne, hdr_setNext h0E, if_neg hne, hdr_setUsed h0E (by norm_num),
      if_neg hne, hdr_setMagic h0E hmagic, if_neg hne, hdr_setUsed h00 (by norm_num), if_pos rfl,
      hdr_setPrev h00, if_pos rfl, hdr_setNext h00, if_pos rfl, hdr_setMagic h00 hmagic, if_pos rfl]
  · rw [hdr_setPrev hEE, if_pos rfl, hdr_setNext hEE, if_pos rfl, hdr_setUsed hEE (by norm_num),
      if_pos rfl, hdr_setMagic hEE hmagic, if_pos rfl]

/-- The new heap is one unused block. -/
theorem initHeap_ok {base n : ℕ} (hbase : base % 4 = 0) (hn : n % 4 = 0)
    (hspace : base + n + 24 ≤ 2 ^ 32) :
    HeapOk (initHeap mem base n) [0, n + 12] ∧
      usedBlocks (initHeap mem base n) [0, n + 12] = ∅ := by
  obtain ⟨h0, hE⟩ := initHeap_hdr mem base n
  have hend : (initHeap mem base n).heapEnd = n + 12 := rfl
  have hused0 : (initHeap mem base n).used 0 = 0 := congrArg Hdr.used h0
  have husedE : (initHeap mem base n).used (n + 12) = 1 := congrArg Hdr.used hE
  refine ⟨⟨?_, ?_⟩, ?_⟩
  · exact
      { space := by exact hspace
        ptrAligned := hbase
        head := rfl
        last := rfl
        chain := isChain_pair.mpr ⟨congrArg Hdr.next h0, by omega, fun hx => absurd hend.symm hx⟩
        first := congrArg Hdr.prev h0
        endUsed := by rw [hend, husedE]; norm_num
        endNext := by exact congrArg Hdr.next hE
        aligned := by simp; omega
        magic := by
          intro o ho
          rcases mem_pair.mp ho with rfl | rfl
          · exact congrArg Hdr.magic h0
          · exact congrArg Hdr.magic hE
        lfree := by
          show 0 ∈ _
          simp }
  · refine isChain_pair.mpr fun hf => ?_
    rw [Free, Free] at hf
    omega
  · ext o
    simp only [usedBlocks, mem_ofPred_eq, hend, mem_empty_iff_false, iff_false]
    rintro ⟨ho, hoe, hu⟩
    rcases mem_pair.mp ho with rfl | rfl
    · exact hu hused0
    · exact hoe rfl

theorem rtSystemHeapInit_ok {beginAddr endAddr : ℕ}
    (hi : rtSystemHeapInit mem beginAddr endAddr = some h) :
    ∃ l, HeapOk h l ∧ usedBlocks h l = ∅ := by
  unfold rtSystemHeapInit at hi
  dsimp only at hi
  have hb := rtAlign_mod (beginAddr % 2 ^ 32)
  have he : rtAlignDown (endAddr % 2 ^ 32) % 4 = 0 ∧ rtAlignDown (endAddr % 2 ^ 32) < 2 ^ 32 := by
    unfold rtAlignDown
    omega
  generalize rtAlign (beginAddr % 2 ^ 32) = b at hi hb
  generalize rtAlignDown (endAddr % 2 ^ 32) = e at hi he
  split_ifs at hi with hif
  simp only [some.injEq] at hi
  subst hi
  simp only [sizeofStructMem] at hif ⊢
  exact ⟨_, initHeap_ok hb (by omega) (by omega)⟩

/-! ## The clients' pointers -/

/-- The pointer to the block with the header at offset `o`. -/
def ptrOf (base o : ℕ) : ℕ := base + o + 12

theorem ptrOf_injective (base : ℕ) : Function.Injective (ptrOf base) := by
  intro o o' h
  unfold ptrOf at h
  omega

end Heap

namespace MemSys

open Heap

variable {s s' : MemSys} {area : ℕ × ℕ} {q : ℕ} {h' : Heap} {beginAddr endAddr : ℕ} {mem : ℕ → ℕ}

/-- The heap lies where it was made, it is in order, and the clients have its used blocks. -/
def Ok (area : ℕ × ℕ) (s : MemSys) : Prop :=
  s.heap.area = area ∧ ∃ l, HeapOk s.heap l ∧ Live (ptrOf area.1) (usedBlocks s.heap l) s.live

/-- A block joins those of `U`, which the clients have. -/
theorem ok_of_gains {U : Set ℕ} {live live' : List ℕ} (hg : Gains area U q h')
    (hl : Live (ptrOf area.1) U live) : Ok area ⟨h', if q = 0 then live' else q :: live⟩ := by
  obtain ⟨a, l', rfl, hok, harea, ha, hused⟩ := hg
  refine ⟨harea, l', hok, ?_⟩
  rw [hused]
  exact hl.cons (ptrOf_injective _) ha

section

variable (hs : Ok area s)
include hs

theorem Ok.malloc {size : ℕ} (hm : s.heap.rtMalloc size = some (q, h')) :
    Ok area ⟨h', if q = 0 then s.live else q :: s.live⟩ := by
  obtain ⟨rfl, l, hok, hl⟩ := hs
  rcases hok.rtMalloc hm with ⟨rfl, rfl⟩ | ⟨a, l', rfl, ht⟩
  · exact ⟨rfl, l, hok, hl⟩
  · exact ok_of_gains ⟨a, l', rfl, ht.ok, ht.area, ht.fresh, ht.used⟩ hl

theorem Ok.free {p : ℕ} (hp : p ∈ s.live) (hf : s.heap.rtFree p = some h') :
    Ok area ⟨h', s.live.erase p⟩ := by
  obtain ⟨rfl, l, hok, hl⟩ := hs
  obtain ⟨o, ho, rfl⟩ := (hl.mem_iff p).mp hp
  obtain ⟨l', hok', harea, hused⟩ := hok.rtFree ho hf
  refine ⟨harea, l', hok', ?_⟩
  rw [hused]
  exact hl.erase (ptrOf_injective _)

theorem Ok.realloc {p newsize : ℕ} (hp : p ∈ s.live)
    (hr : s.heap.rtRealloc p newsize = some (q, h')) :
    Ok area ⟨h', if q = 0 then s.live else q :: s.live.erase p⟩ := by
  obtain ⟨rfl, l, hok, hl⟩ := hs
  obtain ⟨o, ho, rfl⟩ := (hl.mem_iff p).mp hp
  rcases hok.rtRealloc ho hr with ⟨rfl, rfl⟩ | hg
  · exact ⟨rfl, l, hok, hl⟩
  · exact ok_of_gains hg (hl.erase (ptrOf_injective _))

theorem Ok.store {p i v : ℕ} (hp : p ∈ s.live)
    (hi : s.heap.headerOf p + 12 + 4 * i + 4 ≤ s.heap.next (s.heap.headerOf p)) :
    Ok area ⟨{ s.heap with mem := setField s.heap.mem (s.heap.headerOf p + 12) i v }, s.live⟩ := by
  obtain ⟨rfl, l, hok, hl⟩ := hs
  obtain ⟨o, ho, rfl⟩ := (hl.mem_iff p).mp hp
  rw [show s.heap.headerOf (ptrOf s.heap.area.1 o) = o from headerOf_ptr] at hi ⊢
  have hout : ∀ w, w < o + 12 ∨ s.heap.next o ≤ w →
      setField s.heap.mem (o + 12) i v w = s.heap.mem w :=
    fun w hw => setField_of_outside (d := s.heap.next o - (o + 12)) (by omega) (by omega)
  obtain ⟨hok', hused⟩ := hok.write ho.1 ho.2.1 hout
  refine ⟨rfl, l, hok', ?_⟩
  rw [hused]
  exact hl

/-- Every call keeps the invariant. -/
theorem Ok.step {op : MemOp} (h : s.step op = some (q, s')) : Ok area s' := by
  cases op with
  | malloc size =>
    obtain ⟨⟨r, h'⟩, hm, heq⟩ := map_eq_some_iff.mp h
    cases heq
    exact hs.malloc hm
  | free p =>
    rw [MemSys.step] at h
    split_ifs at h with hp
    obtain ⟨h', hf, heq⟩ := map_eq_some_iff.mp h
    cases heq
    exact hs.free hp hf
  | realloc p newsize =>
    rw [MemSys.step] at h
    split_ifs at h with hp
    obtain ⟨⟨r, h'⟩, hr, heq⟩ := map_eq_some_iff.mp h
    cases heq
    by_cases hp' : p ∈ s.live
    · exact hs.realloc hp' hr
    · obtain rfl : p = 0 := hp.resolve_right hp'
      rw [erase_of_not_mem hp']
      obtain ⟨rfl, rfl⟩ | hm := rtRealloc_null hr
      · exact hs
      · exact hs.malloc hm
  | store p i v =>
    rw [MemSys.step] at h
    split_ifs at h with hp
    cases h
    exact hs.store hp.1 hp.2

end

theorem ok_init {h : Heap} (hi : rtSystemHeapInit mem beginAddr endAddr = some h) :
    Ok h.area ⟨h, []⟩ := by
  obtain ⟨l, hok, hused⟩ := rtSystemHeapInit_ok hi
  refine ⟨rfl, l, hok, ?_⟩
  rw [hused]
  exact live_nil

/-! ## Runs -/

/-- What the calls keep holds after all runs from `rt_system_heap_init`. -/
theorem ok_of_run {h₀ : Heap} (hinit : rtSystemHeapInit mem beginAddr endAddr = some h₀)
    {tr : List (MemOp × ℕ)} (hr : Run MemSys.step ⟨h₀, []⟩ tr s) : Ok h₀.area s :=
  hr.inv (I := Ok h₀.area) (ok_init hinit) fun _ _ _ _ hs hstep => hs.step hstep

/-- The addresses of the bytes that belong to the client with the pointer `p`. -/
def payload (s : MemSys) (p : ℕ) : Set ℕ :=
  Ico p (s.heap.heapPtr + s.heap.next (s.heap.headerOf p))

/-- The payloads of two used blocks are disjoint. -/
theorem disjoint_payload {l : List ℕ} {o o' : ℕ} (hok : HeapOk s.heap l)
    (ho : o ∈ usedBlocks s.heap l) (ho' : o' ∈ usedBlocks s.heap l) (hne : o ≠ o') :
    Disjoint (s.payload (s.heap.heapPtr + o + 12)) (s.payload (s.heap.heapPtr + o' + 12)) := by
  have h₁ := hok.le_or_next_le ho.1 ho.2.1 ho'.1
  have h₂ := hok.le_or_next_le ho'.1 ho'.2.1 ho.1
  rw [Set.disjoint_left]
  intro x hx hx'
  simp only [payload, headerOf_ptr, Set.mem_Ico] at hx hx'
  omega

/-- After any calls that return, on any heap that `rt_system_heap_init` accepts: the headers from
offset 0 along `next` increase up to `heap_end`, each knows its predecessor, no two unused blocks
are neighbours, and the live pointers are those of the used blocks, with disjoint payloads inside
the heap. -/
theorem heap_invariant {mem : ℕ → ℕ} {beginAddr endAddr : ℕ} {h₀ : Heap}
    (hinit : rtSystemHeapInit mem beginAddr endAddr = some h₀) {tr : List (MemOp × ℕ)}
    {s : MemSys} (hr : Run MemSys.step ⟨h₀, []⟩ tr s) :
    s.heap.heapPtr = h₀.heapPtr ∧ s.heap.heapEnd = h₀.heapEnd ∧
    ∃ l : List ℕ,
      l.head? = some 0 ∧ l.getLast? = some s.heap.heapEnd ∧
      l.IsChain (fun a b => s.heap.next a = b ∧ a + sizeofStructMem ≤ b) ∧
      s.heap.prev 0 = 0 ∧
      l.IsChain (fun a b => b ≠ s.heap.heapEnd → s.heap.prev b = a) ∧
      l.IsChain (fun a b => ¬ (s.heap.used a = 0 ∧ s.heap.used b = 0)) ∧
      s.live.Nodup ∧
      (∀ p, p ∈ s.live ↔ ∃ o ∈ l, o ≠ s.heap.heapEnd ∧ s.heap.used o ≠ 0 ∧
        p = s.heap.heapPtr + o + sizeofStructMem) ∧
      s.live.Pairwise (fun p q => Disjoint (s.payload p) (s.payload q)) ∧
      ∀ p ∈ s.live, s.payload p ⊆ Ico s.heap.heapPtr (s.heap.heapPtr + s.heap.heapEnd) := by
  obtain ⟨harea, l, hok, hl⟩ := ok_of_run hinit hr
  have hl : Live (ptrOf s.heap.heapPtr) (usedBlocks s.heap l) s.live := heapPtr_congr harea ▸ hl
  refine ⟨heapPtr_congr harea, heapEnd_congr harea, l, hok.head, hok.last, ?_, hok.first, ?_,
    hok.alternating, hl.nodup, ?_, ?_, ?_⟩
  · exact hok.chain.imp fun a b hab => ⟨hab.1, hab.2.1⟩
  · exact hok.chain.imp fun a b hab => hab.2.2
  · intro p
    rw [hl.mem_iff]
    exact exists_congr fun o => by
      simp only [usedBlocks, mem_ofPred_eq, and_assoc]
      rfl
  · refine hl.nodup.imp_of_mem fun {p q} hp hq hne => ?_
    obtain ⟨o, ho, rfl⟩ := (hl.mem_iff p).mp hp
    obtain ⟨o', ho', rfl⟩ := (hl.mem_iff q).mp hq
    exact disjoint_payload hok ho ho' fun heq => hne (by rw [heq])
  · intro p hp x hx
    obtain ⟨o, ho, rfl⟩ := (hl.mem_iff p).mp hp
    have hx' : s.heap.heapPtr + o + 12 ≤ x ∧ x < s.heap.heapPtr + s.heap.next o := by
      simpa [payload, ptrOf, headerOf_ptr] using hx
    have := (hok.payload ho.1 ho.2.1).2.1
    exact ⟨by omega, by omega⟩

/-- A heap of 200 bytes at address 4096. -/
def sampleHeap : Heap := initHeap (fun _ => 0) 4096 176

/-- Two blocks; the first one is released, and the second one made smaller and then moved. -/
def sampleOps : List MemOp :=
  [.malloc 20, .malloc 30, .store 4140 2 7, .free 4108, .realloc 4140 4, .realloc 4140 100]

theorem sampleOps_possible : (exec MemSys.step ⟨sampleHeap, []⟩ sampleOps).isSome := by
  decide_cbv

theorem heap_invariant_sample :
    let s := ((exec MemSys.step ⟨sampleHeap, []⟩ sampleOps).get sampleOps_possible).2
    s.live = [4156] ∧ s.heap.heapEnd = sampleHeap.heapEnd ∧
      ∃ l : List ℕ, l.head? = some 0 ∧ l.getLast? = some s.heap.heapEnd ∧
        l.IsChain (fun a b => s.heap.next a = b ∧ a + sizeofStructMem ≤ b) := by
  have hinit : rtSystemHeapInit (fun _ => 0) 4096 4296 = some sampleHeap := rfl
  obtain ⟨-, hend, l, hhead, hlast, hchain, -⟩ :=
    heap_invariant hinit (Run.of_isSome sampleOps_possible)
  exact ⟨by decide_cbv, hend, l, hhead, hlast, hchain⟩

end MemSys

end RtThread
