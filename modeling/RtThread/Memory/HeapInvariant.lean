import RtThread.Memory.Heap

/-!
# The heap invariant

`HeapOk h l`: the headers at the offsets `l` tile the heap, from offset 0 to
`heap_end`, with no two unused neighbours. Every function of `src/mem.c` is
followed on the headers only (`Heap.hdr`): a header is written in a few places,
and headers do not overlap.
-/

namespace RtThread.Heap

open BlockChain List

/-- A `struct heap_mem`. -/
structure Hdr where
  magic : ℕ
  used : ℕ
  next : ℕ
  prev : ℕ

variable (h : Heap)

/-- The header at offset `o`. -/
def hdr (o : ℕ) : Hdr := ⟨h.magic o, h.used o, h.next o, h.prev o⟩

variable {h} {a o v : ℕ} {h h' : Heap}

/-- Headers are in memory. -/
theorem hdr_congr {h' : Heap} (hmem : h'.mem = h.mem) : h'.hdr o = h.hdr o := by
  simp only [hdr, magic, used, next, prev, hmem]

section

variable (ho : Apart 12 o a)
include ho

theorem hdr_setNext :
    (h.setNext a v).hdr o = if o = a then { h.hdr o with next := v } else h.hdr o := by
  simp [hdr, magic, used, next, prev, setNext, field_setField_apart ho]
  split_ifs <;> rfl

theorem hdr_setPrev :
    (h.setPrev a v).hdr o = if o = a then { h.hdr o with prev := v } else h.hdr o := by
  simp [hdr, magic, used, next, prev, setPrev, field_setField_apart ho]
  split_ifs <;> rfl

theorem hdr_setUsed (hv : v < 2 ^ 16) :
    (h.setUsed a v).hdr o = if o = a then { h.hdr o with used := v } else h.hdr o := by
  simp [hdr, magic, used, next, prev, setUsed, field_setField_apart ho]
  split_ifs with hoa
  · subst hoa
    congr 1 <;> omega
  · rfl

theorem hdr_setMagic (hv : v < 2 ^ 16) :
    (h.setMagic a v).hdr o = if o = a then { h.hdr o with magic := v } else h.hdr o := by
  simp [hdr, magic, used, next, prev, setMagic, field_setField_apart ho]
  split_ifs with hoa
  · subst hoa
    congr 1 <;> omega
  · rfl

end

/-- Where the heap lies: no call changes that. -/
def area (h : Heap) : ℕ × ℕ := (h.heapPtr, h.memSizeAligned)

theorem heapPtr_congr (harea : h'.area = h.area) : h'.heapPtr = h.heapPtr := congrArg Prod.fst harea

theorem heapEnd_congr (harea : h'.area = h.area) : h'.heapEnd = h.heapEnd :=
  congrArg (·.2 + sizeofStructMem) harea

/-! ## The invariant -/

/-- The headers at the offsets `l` tile the heap. -/
structure Tiled (h : Heap) (l : List ℕ) : Prop where
  space : h.heapPtr + h.heapEnd + 12 ≤ 2 ^ 32
  ptrAligned : h.heapPtr % 4 = 0
  head : l.head? = some 0
  last : l.getLast? = some h.heapEnd
  chain : Chain 12 (· ≠ h.heapEnd) h.next h.prev l
  first : h.prev 0 = 0
  endUsed : h.used h.heapEnd ≠ 0
  endNext : h.next h.heapEnd = h.heapEnd
  aligned : ∀ o ∈ l, o % 4 = 0
  magic : ∀ o ∈ l, h.magic o = heapMagic
  lfree : h.lfree ∈ l

/-- The block at `o` is unused. -/
def Free (h : Heap) (o : ℕ) : Prop := h.used o = 0

/-- The heap invariant: the headers at the offsets `l` tile the heap, and no two neighbours are
unused. -/
structure HeapOk (h : Heap) (l : List ℕ) : Prop extends Tiled h l where
  alternating : Alternating h.Free l

variable {h' : Heap} {l l' xs ys : List ℕ} {b c : ℕ}

/-- The block behind the block at `a`. -/
theorem Tiled.next_eq (ht : Tiled h (xs ++ a :: b :: ys)) : h.next a = b ∧ a + 12 ≤ b :=
  ⟨ht.chain.linked.1, ht.chain.linked.2.1⟩

/-- A block other than `heap_end` has one behind it. -/
theorem Tiled.exists_cons (ht : Tiled h (xs ++ a :: ys)) (hne : a ≠ h.heapEnd) :
    ∃ b zs, ys = b :: zs := by
  cases ys with
  | nil =>
    have hlast := ht.last
    simp [getLast?_append] at hlast
    exact absurd hlast hne
  | cons b zs => exact ⟨b, zs, rfl⟩

/-- The block before the block at `a`. -/
theorem Tiled.prev_eq (ht : Tiled h (xs ++ b :: a :: ys)) (hne : a ≠ h.heapEnd) : h.prev a = b :=
  ht.chain.linked.2.2 hne

section

variable (ht : Tiled h l)
include ht

theorem Tiled.heapEnd_mem : h.heapEnd ∈ l := mem_of_getLast? ht.last

theorem Tiled.zero_mem : 0 ∈ l := mem_of_mem_head? ht.head

theorem Tiled.apart (ho : o ∈ l) (ha : a ∈ l) : Apart 12 o a := ht.chain.apart o ho a ha

theorem Tiled.le_heapEnd (ho : o ∈ l) : o ≤ h.heapEnd := by
  by_cases hne : o = h.heapEnd
  · exact hne.le
  · have := ht.chain.add_le_last ht.last ho hne
    omega

theorem Tiled.exists_next (ha : a ∈ l) (hne : a ≠ h.heapEnd) :
    ∃ xs ys, l = xs ++ a :: h.next a :: ys := by
  obtain ⟨xs, b, ys, rfl⟩ := BlockChain.exists_next ha ht.last hne
  exact ⟨xs, ys, by rw [ht.next_eq.1]⟩

theorem Tiled.next_mem (ha : a ∈ l) : h.next a ∈ l := by
  by_cases hne : a = h.heapEnd
  · rw [hne, ht.endNext]
    exact ht.heapEnd_mem
  · obtain ⟨xs, ys, hl⟩ := ht.exists_next ha hne
    rw [hl]
    simp

/-- No header lies between a block and the next one. -/
theorem Tiled.le_or_next_le (ha : a ∈ l) (hne : a ≠ h.heapEnd) (ho : o ∈ l) :
    o ≤ a ∨ h.next a ≤ o := by
  obtain ⟨xs, ys, hl⟩ := ht.exists_next ha hne
  rw [hl] at ht ho
  exact ht.chain.le_or_le ho

/-- Only the headers of `l` matter, and which ones of them are used does not. -/
theorem Tiled.congr (harea : h'.area = h.area)
    (hhdr : ∀ o ∈ l, h'.hdr o = { h.hdr o with used := h'.used o }) (hused : h'.used h.heapEnd ≠ 0)
    (hlfree : h'.lfree ∈ l) : Tiled h' l := by
  have hptr := heapPtr_congr harea
  have hend := heapEnd_congr harea
  have hnext : ∀ o ∈ l, h'.next o = h.next o := fun o ho => congrArg Hdr.next (hhdr o ho)
  have hprev : ∀ o ∈ l, h'.prev o = h.prev o := fun o ho => congrArg Hdr.prev (hhdr o ho)
  exact
    { space := by rw [hptr, hend]; exact ht.space
      ptrAligned := by rw [hptr]; exact ht.ptrAligned
      head := ht.head
      last := by rw [hend]; exact ht.last
      chain := by rw [hend]; exact ht.chain.congr hnext fun o ho _ => hprev o ho
      first := by rw [hprev 0 ht.zero_mem]; exact ht.first
      endUsed := by rw [hend]; exact hused
      endNext := by rw [hend, hnext _ ht.heapEnd_mem]; exact ht.endNext
      aligned := ht.aligned
      magic := fun o ho => by
        rw [show h'.magic o = h.magic o from congrArg Hdr.magic (hhdr o ho)]
        exact ht.magic o ho
      lfree := hlfree }

end

/-- A heap with the same headers is as good. -/
theorem HeapOk.congr (hok : HeapOk h l) (harea : h'.area = h.area)
    (hhdr : ∀ o ∈ l, h'.hdr o = h.hdr o) (hlfree : h'.lfree ∈ l) : HeapOk h' l := by
  have hused : ∀ o ∈ l, h'.used o = h.used o := fun o ho => congrArg Hdr.used (hhdr o ho)
  refine ⟨hok.toTiled.congr harea (fun o ho => ?_) ?_ hlfree, ?_⟩
  · rw [hhdr o ho, hused o ho]
    rfl
  · rw [hused _ hok.heapEnd_mem]
    exact hok.endUsed
  · refine hok.alternating.congr fun o ho hf => ?_
    rwa [Free, hused o ho] at hf

/-- Marking a block. -/
theorem Tiled.setUsed (ht : Tiled h l) (ha : a ∈ l) (hne : a ≠ h.heapEnd) (hv : v < 2 ^ 16) :
    Tiled (h.setUsed a v) l ∧ ∀ o ∈ l, (h.setUsed a v).used o = if o = a then v else h.used o := by
  have hhdr : ∀ o ∈ l, (h.setUsed a v).hdr o =
      if o = a then { h.hdr o with used := v } else h.hdr o :=
    fun o ho => hdr_setUsed (ht.apart ho ha) hv
  have hused : ∀ o ∈ l, (h.setUsed a v).used o = if o = a then v else h.used o := by
    intro o ho
    have := congrArg Hdr.used (hhdr o ho)
    rw [show (h.setUsed a v).used o = ((h.setUsed a v).hdr o).used from rfl, this]
    split_ifs <;> rfl
  refine ⟨ht.congr rfl (fun o ho => ?_) ?_ ht.lfree, hused⟩
  · rw [hhdr o ho, hused o ho]
    split_ifs <;> rfl
  · rw [hused _ ht.heapEnd_mem, if_neg (Ne.symm hne)]
    exact ht.endUsed

/-! ## Combining two blocks -/

theorem combine_mem (hab : Apart 12 a b) (hne : b ≠ a) :
    (h.combine a b).mem = ((h.setNext a (h.next b)).setPrev (h.next b) a).mem := by
  have hnext : (h.setNext a (h.next b)).next b = h.next b := by
    have hb := hdr_setNext (h := h) (v := h.next b) hab.symm
    rw [if_neg hne] at hb
    exact congrArg Hdr.next hb
  have hlfree : (h.combine a b).mem =
      ((h.setNext a (h.next b)).setPrev ((h.setNext a (h.next b)).next b) a).mem := by
    unfold combine
    split_ifs <;> rfl
  rw [hlfree, hnext]

theorem combine_hdr (hab : Apart 12 a b) (hne : b ≠ a) (hoa : Apart 12 o a)
    (hoc : Apart 12 o (h.next b)) :
    (h.combine a b).hdr o =
      { h.hdr o with
        next := if o = a then h.next b else h.next o
        prev := if o = h.next b then a else h.prev o } := by
  rw [hdr_congr (combine_mem hab hne), hdr_setPrev hoc, hdr_setNext hoa]
  split_ifs <;> rfl

theorem combine_area : (h.combine a b).area = h.area := by
  unfold combine; split_ifs <;> rfl

@[simp] theorem combine_heapPtr : (h.combine a b).heapPtr = h.heapPtr := heapPtr_congr combine_area

@[simp] theorem combine_heapEnd : (h.combine a b).heapEnd = h.heapEnd := heapEnd_congr combine_area

theorem combine_lfree : (h.combine a b).lfree = if h.lfree = b then a else h.lfree := by
  unfold combine; split_ifs <;> rfl

/-- The block at `a` takes the space of the block at `b`. -/
theorem Tiled.combine (ht : Tiled h (xs ++ a :: b :: c :: ys)) :
    Tiled (h.combine a b) (xs ++ a :: c :: ys) ∧
      ∀ o ∈ xs ++ a :: c :: ys, (h.combine a b).used o = h.used o := by
  have hab := ht.next_eq
  have ht' : Tiled h ((xs ++ [a]) ++ b :: c :: ys) := by simpa using ht
  have hbc := ht'.next_eq
  have hsub : ∀ o ∈ xs ++ a :: c :: ys, o ∈ xs ++ a :: b :: c :: ys :=
    fun o ho => mem_behind.mpr (.inr ho)
  have hmem : a ∈ xs ++ a :: b :: c :: ys ∧ b ∈ xs ++ a :: b :: c :: ys ∧
      c ∈ xs ++ a :: b :: c :: ys := by simp
  have hhdr : ∀ o ∈ xs ++ a :: c :: ys, (h.combine a b).hdr o =
      { h.hdr o with
        next := if o = a then c else h.next o
        prev := if o = c then a else h.prev o } := by
    intro o ho
    rw [combine_hdr (ht.apart hmem.1 hmem.2.1) (by omega) (ht.apart (hsub o ho) hmem.1)
      (by rw [hbc.1]; exact ht.apart (hsub o ho) hmem.2.2), hbc.1]
  have hnext : ∀ o ∈ xs ++ a :: c :: ys, (h.combine a b).next o = if o = a then c else h.next o :=
    fun o ho => congrArg Hdr.next (hhdr o ho)
  have hprev : ∀ o ∈ xs ++ a :: c :: ys, (h.combine a b).prev o = if o = c then a else h.prev o :=
    fun o ho => congrArg Hdr.prev (hhdr o ho)
  have hused : ∀ o ∈ xs ++ a :: c :: ys, (h.combine a b).used o = h.used o :=
    fun o ho => congrArg Hdr.used (hhdr o ho)
  have hhead : (xs ++ a :: c :: ys).head? = some 0 := by cases xs <;> simpa using ht.head
  have hlast : (xs ++ a :: c :: ys).getLast? = some h.heapEnd := by
    simpa [getLast?_append] using ht.last
  have hzero := mem_of_mem_head? hhead
  have hend := mem_of_getLast? hlast
  have haE : a + 12 ≤ h.heapEnd := by
    have := ht.le_heapEnd hmem.2.1
    omega
  have hchain : Chain 12 (· ≠ h.heapEnd) (h.combine a b).next (h.combine a b).prev
      (xs ++ a :: c :: ys) := by
    refine ht.chain.remove (by norm_num) (fun o ho hoa => ?_) (fun o ho hoc _ => ?_) ?_ fun _ => ?_
    · rw [hnext o ho, if_neg hoa]
    · rw [hprev o ho, if_neg hoc]
    · rw [hnext a (by simp), if_pos rfl]
    · rw [hprev c (by simp), if_pos rfl]
  refine ⟨?_, hused⟩
  exact
    { space := by simpa using ht.space
      ptrAligned := by simpa using ht.ptrAligned
      head := hhead
      last := by simpa using hlast
      chain := by simpa using hchain
      first := by rw [hprev 0 hzero, if_neg (by omega)]; exact ht.first
      endUsed := by rw [combine_heapEnd, hused _ hend]; exact ht.endUsed
      endNext := by
        rw [combine_heapEnd, hnext _ hend, if_neg (by omega)]
        exact ht.endNext
      aligned := fun o ho => ht.aligned o (hsub o ho)
      magic := fun o ho => by
        rw [show (h.combine a b).magic o = h.magic o from congrArg Hdr.magic (hhdr o ho)]
        exact ht.magic o (hsub o ho)
      lfree := by
        rw [combine_lfree]
        have hl := ht.lfree
        split_ifs with hb
        · simp
        · exact (mem_behind.mp hl).resolve_left hb }

/-! ## `plug_holes` -/

/-- The used blocks, other than `heap_end`. -/
def usedBlocks (h : Heap) (l : List ℕ) : Set ℕ := {o | o ∈ l ∧ o ≠ h.heapEnd ∧ h.used o ≠ 0}

theorem Tiled.usedBlocks_combine (ht : Tiled h (xs ++ a :: b :: c :: ys)) (hb : h.used b = 0) :
    usedBlocks (h.combine a b) (xs ++ a :: c :: ys) = usedBlocks h (xs ++ a :: b :: c :: ys) := by
  ext o
  simp only [usedBlocks, Set.mem_ofPred_eq, combine_heapEnd]
  constructor
  · rintro ⟨ho, hne, hu⟩
    rw [ht.combine.2 o ho] at hu
    exact ⟨mem_behind.mpr (.inr ho), hne, hu⟩
  · rintro ⟨ho, hne, hu⟩
    have hob : o ≠ b := by rintro rfl; exact hu hb
    have ho' := (mem_behind.mp ho).resolve_left hob
    exact ⟨ho', hne, by rwa [ht.combine.2 o ho']⟩

/-- What there is to do around the unused block at `a`: no two unused blocks are neighbours, `a`
apart. -/
structure Hole (h : Heap) (xs : List ℕ) (a : ℕ) (ys : List ℕ) : Prop where
  tiled : Tiled h (xs ++ a :: ys)
  free : h.used a = 0
  before : Alternating h.Free xs
  behind : Alternating h.Free ys

section

variable (hh : Hole h xs a (b :: ys))
include hh

theorem Hole.forward :
    ∃ d zs, Hole (h.plugForward a) xs a (d :: zs) ∧ ¬ (h.plugForward a).Free d ∧
      (h.plugForward a).area = h.area ∧
      usedBlocks (h.plugForward a) (xs ++ a :: d :: zs) = usedBlocks h (xs ++ a :: b :: ys) := by
  have ht := hh.tiled
  obtain ⟨hnext, hab⟩ := ht.next_eq
  unfold plugForward
  dsimp only
  rw [hnext]
  split_ifs with hif
  · obtain ⟨-, hb, hbE⟩ := hif
    -- `b` is not the last one
    have ht' : Tiled h ((xs ++ [a]) ++ b :: ys) := by simpa using ht
    obtain ⟨c, zs, rfl⟩ := ht'.exists_cons hbE
    have hu := ht.combine.2
    have hbehind := hh.behind
    unfold Alternating at hbehind
    rw [isChain_cons_cons] at hbehind
    have hc : h.used c ≠ 0 := fun hc => hbehind.1 ⟨hb, hc⟩
    refine ⟨c, zs, ⟨ht.combine.1, ?_, ?_, ?_⟩, ?_, combine_area, ht.usedBlocks_combine hb⟩
    · rw [hu a (by simp), hh.free]
    · refine hh.before.congr fun o ho hf => ?_
      rwa [Free, hu o (by simp [ho])] at hf
    · refine Alternating.congr (show Alternating h.Free (c :: zs) from hbehind.2) fun o ho hf => ?_
      rwa [Free, hu o (mem_append_right _ (.tail _ ho))] at hf
    · rwa [Free, hu c (by simp)]
  · refine ⟨b, ys, hh, fun hb => hif ⟨by omega, hb, ?_⟩, rfl, rfl⟩
    rintro rfl
    exact ht.endUsed hb

theorem Hole.backward (hb : ¬ h.Free b) :
    ∃ l', HeapOk (h.plugBackward a) l' ∧ (h.plugBackward a).area = h.area ∧
      usedBlocks (h.plugBackward a) l' = usedBlocks h (xs ++ a :: b :: ys) := by
  unfold plugBackward
  dsimp only
  have ht := hh.tiled
  rcases eq_nil_or_concat xs with rfl | ⟨zs, p, rfl⟩
  · -- the first block has no predecessor
    have ha : a = 0 := by simpa using ht.head
    rw [if_neg (by rw [ha, ht.first]; simp)]
    refine ⟨_, ⟨ht, ?_⟩, rfl, rfl⟩
    rw [alternating_middle]
    exact ⟨hh.before, hh.behind, by simp, by simpa using fun _ => hb⟩
  · have hlist : zs.concat p ++ a :: b :: ys = zs ++ p :: a :: b :: ys := by simp
    have hbefore := hh.before
    rw [concat_eq_append, alternating_middle] at hbefore
    rw [hlist] at ht ⊢
    have hpa := ht.next_eq
    have hne : a ≠ h.heapEnd := fun hne => ht.endUsed (hne ▸ hh.free)
    rw [ht.prev_eq hne]
    split_ifs with hif
    · have hu := ht.combine.2
      refine ⟨_, ⟨ht.combine.1, ?_⟩, combine_area, ht.usedBlocks_combine hh.free⟩
      rw [alternating_middle]
      have hfree : ∀ o ∈ zs ++ p :: b :: ys, (h.combine p a).Free o → h.Free o := by
        intro o ho hf
        rwa [Free, hu o ho] at hf
      refine ⟨hbefore.1.congr fun o ho => hfree o (by simp [ho]),
        hh.behind.congr fun o ho => hfree o (mem_append_right _ (.tail _ ho)),
        fun q hq hf => ?_, ?_⟩
      · have hqz : q ∈ zs := mem_of_getLast? hq
        exact hbefore.2.2.1 q hq ⟨hfree q (by simp [hqz]) hf.1, hfree p (by simp) hf.2⟩
      · simpa using fun _ hf => hb (hfree b (by simp) hf)
    · refine ⟨_, ⟨ht, ?_⟩, rfl, rfl⟩
      rw [← hlist, concat_eq_append, alternating_middle]
      refine ⟨alternating_middle.mpr hbefore, hh.behind, ?_, by simpa using fun _ => hb⟩
      simpa using fun (hp : h.Free p) => absurd ⟨by omega, hp⟩ hif

theorem Hole.plugHoles :
    ∃ h' l', h.plugHoles a = some h' ∧ HeapOk h' l' ∧ h'.area = h.area ∧
      usedBlocks h' l' = usedBlocks h (xs ++ a :: b :: ys) := by
  have ht := hh.tiled
  obtain ⟨hnext, hab⟩ := ht.next_eq
  have hbE := ht.le_heapEnd (o := b) (by simp)
  obtain ⟨d, zs, hd, hdfree, hdarea, hdused⟩ := hh.forward
  obtain ⟨l', hl', harea, hused⟩ := hd.backward hdfree
  refine ⟨_, l', ?_, hl', harea.trans hdarea, hused.trans hdused⟩
  unfold Heap.plugHoles
  rw [if_pos ⟨by omega, hh.free⟩]

end

/-! ## Splitting a block -/

/-- The header of the new block at `c`. -/
def newHdr (a b : ℕ) : Hdr := ⟨heapMagic, 0, b, a⟩

/-- `split` up to its last assignment: the header at `c`, between `a` and `b`. -/
def insertHdr (h : Heap) (a c b : ℕ) : Heap :=
  ((((h.setMagic c heapMagic).setUsed c 0).setNext c b).setPrev c a).setNext a c

theorem insertHdr_hdr (hac : a + 12 ≤ c) (hoa : Apart 12 o a) (hoc : Apart 12 o c) :
    (h.insertHdr a c b).hdr o =
      if o = c then newHdr a b else { h.hdr o with next := if o = a then c else h.next o } := by
  unfold insertHdr
  rw [hdr_setNext hoa, hdr_setPrev hoc, hdr_setNext hoc, hdr_setUsed hoc (by norm_num),
    hdr_setMagic hoc (by norm_num [heapMagic])]
  split_ifs with h₁ h₂
  · omega
  · rfl
  · rfl
  · rfl

theorem split_eq (hac : a + 12 ≤ c) :
    h.split a c =
      if h.next a ≠ h.heapEnd then (h.insertHdr a c (h.next a)).setPrev (h.next a) c
      else h.insertHdr a c (h.next a) := by
  have hAac : Apart 12 a c := .inr (.inl hac)
  have hfirst : ((h.setMagic c heapMagic).setUsed c 0).next a = h.next a := by
    have hhdr : ((h.setMagic c heapMagic).setUsed c 0).hdr a = h.hdr a := by
      rw [hdr_setUsed hAac (by norm_num), hdr_setMagic hAac (by norm_num [heapMagic]),
        if_neg (by omega), if_neg (by omega)]
    exact congrArg Hdr.next hhdr
  have hlast : (h.insertHdr a c (h.next a)).next c = h.next a := by
    have hhdr := insertHdr_hdr (h := h) (b := h.next a) hac hAac.symm (.inl rfl)
    rw [if_pos rfl] at hhdr
    exact congrArg Hdr.next hhdr
  unfold split
  dsimp only
  rw [hfirst]
  change (if (h.insertHdr a c (h.next a)).next c ≠ h.heapEnd then
    (h.insertHdr a c (h.next a)).setPrev ((h.insertHdr a c (h.next a)).next c) c
    else h.insertHdr a c (h.next a)) = _
  rw [hlast]

theorem split_hdr (hac : a + 12 ≤ c) (hcb : c + 12 ≤ h.next a) (hoa : Apart 12 o a)
    (hoc : Apart 12 o c) (hob : Apart 12 o (h.next a)) :
    (h.split a c).hdr o =
      if o = c then newHdr a (h.next a)
      else { h.hdr o with
        next := if o = a then c else h.next o
        prev := if o = h.next a ∧ h.next a ≠ h.heapEnd then c else h.prev o } := by
  rw [split_eq hac]
  by_cases hE : h.next a = h.heapEnd
  · have hno : ¬ (o = h.next a ∧ h.next a ≠ h.heapEnd) := fun hx => hx.2 hE
    rw [if_neg (not_not.mpr hE), insertHdr_hdr hac hoa hoc, if_neg hno]
    rfl
  · rw [if_pos hE, hdr_setPrev hob, insertHdr_hdr hac hoa hoc]
    by_cases hoc' : o = c
    · rw [if_pos hoc', if_pos hoc', if_neg (by omega)]
    · rw [if_neg hoc', if_neg hoc']
      by_cases hob' : o = h.next a
      · have hyes : o = h.next a ∧ h.next a ≠ h.heapEnd := ⟨hob', hE⟩
        rw [if_pos hob', if_pos hyes]
      · have hno : ¬ (o = h.next a ∧ h.next a ≠ h.heapEnd) := fun hx => hob' hx.1
        rw [if_neg hob', if_neg hno]
        rfl

theorem split_area : (h.split a c).area = h.area := by
  unfold split; dsimp only; split_ifs <;> rfl

@[simp] theorem split_heapPtr : (h.split a c).heapPtr = h.heapPtr := heapPtr_congr split_area

@[simp] theorem split_heapEnd : (h.split a c).heapEnd = h.heapEnd := heapEnd_congr split_area

@[simp] theorem split_lfree : (h.split a c).lfree = h.lfree := by
  unfold split; dsimp only; split_ifs <;> rfl

/-- A new unused block at `c` inside the block at `a`. -/
theorem Tiled.split (ht : Tiled h (xs ++ a :: b :: ys)) (hac : a + 12 ≤ c) (hcb : c + 12 ≤ b)
    (hc : c % 4 = 0) :
    Tiled (h.split a c) (xs ++ a :: c :: b :: ys) ∧ (h.split a c).used c = 0 ∧
      ∀ o ∈ xs ++ a :: b :: ys, (h.split a c).used o = h.used o := by
  obtain ⟨hnext, hab⟩ := ht.next_eq
  have hmem : a ∈ xs ++ a :: b :: ys ∧ b ∈ xs ++ a :: b :: ys := by simp
  -- `c` is apart from all headers there are
  have hcApart : ∀ o ∈ xs ++ a :: b :: ys, o ≠ c ∧ Apart 12 o c := by
    intro o ho
    have := ht.chain.le_or_le ho
    unfold Apart
    omega
  have hhdr : ∀ o ∈ xs ++ a :: b :: ys, (h.split a c).hdr o =
      { h.hdr o with
        next := if o = a then c else h.next o
        prev := if o = b ∧ b ≠ h.heapEnd then c else h.prev o } := by
    intro o ho
    rw [split_hdr hac (by omega) (ht.apart ho hmem.1) (hcApart o ho).2
      (by rw [hnext]; exact ht.apart ho hmem.2), if_neg (hcApart o ho).1, hnext]
  have hhdrc : (h.split a c).hdr c = newHdr a b := by
    rw [split_hdr hac (by omega) (hcApart a hmem.1).2.symm (.inl rfl)
      (by rw [hnext]; exact (hcApart b hmem.2).2.symm), if_pos rfl, hnext]
  have hused : ∀ o ∈ xs ++ a :: b :: ys, (h.split a c).used o = h.used o :=
    fun o ho => congrArg Hdr.used (hhdr o ho)
  have hnext' : ∀ o ∈ xs ++ a :: b :: ys, (h.split a c).next o = if o = a then c else h.next o :=
    fun o ho => congrArg Hdr.next (hhdr o ho)
  have hprev' : ∀ o ∈ xs ++ a :: b :: ys,
      (h.split a c).prev o = if o = b ∧ b ≠ h.heapEnd then c else h.prev o :=
    fun o ho => congrArg Hdr.prev (hhdr o ho)
  have haE : a + 12 ≤ h.heapEnd := by
    have := ht.le_heapEnd hmem.2
    omega
  have hchain : Chain 12 (· ≠ h.heapEnd) (h.split a c).next (h.split a c).prev
      (xs ++ a :: c :: b :: ys) := by
    refine ht.chain.insert (by norm_num) hac hcb (fun o ho hoa => ?_) (fun o ho hob _ => ?_) ?_
      (congrArg Hdr.next hhdrc) (fun _ => congrArg Hdr.prev hhdrc) fun hbE => ?_
    · rw [hnext' o ho, if_neg hoa]
    · rw [hprev' o ho, if_neg fun hx => hob hx.1]
    · rw [hnext' a hmem.1, if_pos rfl]
    · rw [hprev' b hmem.2, if_pos ⟨rfl, hbE⟩]
  refine ⟨?_, congrArg Hdr.used hhdrc, hused⟩
  exact
    { space := by simpa using ht.space
      ptrAligned := by simpa using ht.ptrAligned
      head := by cases xs <;> simpa using ht.head
      last := by simpa [getLast?_append] using ht.last
      chain := by simpa using hchain
      first := by
        rw [hprev' 0 ht.zero_mem, if_neg (by omega)]
        exact ht.first
      endUsed := by rw [split_heapEnd, hused _ ht.heapEnd_mem]; exact ht.endUsed
      endNext := by
        rw [split_heapEnd, hnext' _ ht.heapEnd_mem, if_neg (by omega)]
        exact ht.endNext
      aligned := by
        intro o ho
        rcases mem_behind.mp ho with rfl | ho
        · exact hc
        · exact ht.aligned o ho
      magic := by
        intro o ho
        rcases mem_behind.mp ho with rfl | ho
        · exact congrArg Hdr.magic hhdrc
        · rw [show (h.split a c).magic o = h.magic o from congrArg Hdr.magic (hhdr o ho)]
          exact ht.magic o ho
      lfree := by
        rw [split_lfree]
        exact mem_behind.mpr (.inr ht.lfree) }

theorem Tiled.usedBlocks_split (ht : Tiled h (xs ++ a :: b :: ys)) (hac : a + 12 ≤ c)
    (hcb : c + 12 ≤ b) (hc : c % 4 = 0) :
    usedBlocks (h.split a c) (xs ++ a :: c :: b :: ys) = usedBlocks h (xs ++ a :: b :: ys) := by
  obtain ⟨-, huc, hu⟩ := ht.split hac hcb hc
  ext o
  simp only [usedBlocks, Set.mem_ofPred_eq, split_heapEnd]
  constructor
  · rintro ⟨ho, hne, huo⟩
    have hoc : o ≠ c := by rintro rfl; exact huo huc
    have ho' := (mem_behind.mp ho).resolve_left hoc
    exact ⟨ho', hne, by rwa [← hu o ho']⟩
  · rintro ⟨ho, hne, huo⟩
    exact ⟨mem_behind.mpr (.inr ho), hne, by rwa [hu o ho]⟩

end RtThread.Heap
