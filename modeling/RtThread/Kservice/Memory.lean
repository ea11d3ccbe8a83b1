import RtThread.Lib.ByteMemory

/-!
# Setting, copying and moving memory

`rt_memset`, `rt_memcpy`, `rt_memmove` and `rt_malloc_align` of `src/kservice.c`, on a memory of
bytes with 32-bit addresses. The first two write whole words where the addresses are aligned and
leave the rest to a bytewise loop; with `RT_TINY_SIZE` there is the bytewise loop only
(`rtMemsetTiny`, `rtMemcpyTiny`).

* `setBigBlocks_spec`, `setLittleBlocks_spec`, `copyBigBlocks_spec`, `copyLittleBlocks_spec`:
  what the loops of words leave to do is what there was to do, less the bytes they have
  written.
* `words_as_bytes`: both functions do what their bytewise versions do.
* `memmove_overlap`: `rt_memmove` moves the bytes as they were before the call, however
  the two regions lie.
* `malloc_align_round_trip`: an aligned block lies inside the block that is freed with it.
-/

namespace RtThread.Kservice

open ByteMemory BitVec Nat

variable {mem : Memory 32} {s dst src a : BitVec 32} {c d : BitVec 32} {count n : ℕ} {i j : ℕ}

/-! ## `rt_memset` -/

/-- `rt_memset` with `RT_TINY_SIZE`: `while (count--) *xs++ = c;`. -/
def rtMemsetTiny (mem : Memory 32) (s c : BitVec 32) (count : ℕ) : BitVec 32 × Memory 32 :=
  (s, fill mem s (c.setWidth 8) count)

/-- `UNALIGNED(X)` of `rt_memset`. -/
def unaligned (x : BitVec 32) : Bool := x &&& 3 ≠ 0

/-- The word whose four bytes are the last byte of `d`. -/
def setBuffer (d : BitVec 32) : BitVec 32 :=
  let buffer := (d <<< 8) ||| d
  buffer ||| (buffer <<< 16)

/-- The loop that sets four words in each round. -/
def setBigBlocks (buffer : BitVec 32) (mem : Memory 32) (alignedAddr : BitVec 32) (count : ℕ) :
    Memory 32 × BitVec 32 × ℕ :=
  if 16 ≤ count then
    let mem := storeWord mem alignedAddr buffer
    let mem := storeWord mem (alignedAddr + 4) buffer
    let mem := storeWord mem (alignedAddr + 8) buffer
    let mem := storeWord mem (alignedAddr + 12) buffer
    setBigBlocks buffer mem (alignedAddr + 16) (count - 16)
  else (mem, alignedAddr, count)

/-- The loop that sets one word in each round. -/
def setLittleBlocks (buffer : BitVec 32) (mem : Memory 32) (alignedAddr : BitVec 32) (count : ℕ) :
    Memory 32 × BitVec 32 × ℕ :=
  if 4 ≤ count then
    setLittleBlocks buffer (storeWord mem alignedAddr buffer) (alignedAddr + 4) (count - 4)
  else (mem, alignedAddr, count)

/-- `rt_memset`: the pointer it returns, and the memory. -/
def rtMemset (mem : Memory 32) (s c : BitVec 32) (count : ℕ) : BitVec 32 × Memory 32 :=
  let d := c &&& 0xff
  if 4 ≤ count ∧ ¬ unaligned s then
    let (mem, alignedAddr, count) := setBigBlocks (setBuffer d) mem s count
    let (mem, alignedAddr, count) := setLittleBlocks (setBuffer d) mem alignedAddr count
    (s, fill mem alignedAddr (d.setWidth 8) count)
  else (s, fill mem s (d.setWidth 8) count)

theorem byteOf_setBuffer (c : BitVec 32) (hi : i < 4) :
    byteOf (setBuffer (c &&& 0xff)) i = c.setWidth 8 := by
  ext k hk
  have hmask : ∀ k, (255#32).getLsbD k = decide (k < 8) := by
    intro k
    by_cases hk : k < 32
    · interval_cases k <;> rfl
    · rw [getLsbD_of_ge _ _ (by omega)]
      simp
      omega
  interval_cases i <;> simp [byteOf, setBuffer, hmask] <;> grind

section

variable (mem : Memory 32) (a c : BitVec 32)

theorem storeWord_setBuffer :
    storeWord mem a (setBuffer (c &&& 0xff)) = fill mem a (c.setWidth 8) 4 :=
  storeWord_replicate mem a fun _ hi => byteOf_setBuffer c hi

/-- What the loop leaves to be set is what there was to be set. -/
theorem setLittleBlocks_spec (count : ℕ) :
    let r := setLittleBlocks (setBuffer (c &&& 0xff)) mem a count
    fill r.1 r.2.1 (c.setWidth 8) r.2.2 = fill mem a (c.setWidth 8) count := by
  induction count using Nat.strong_induction_on generalizing mem a with
  | _ count ih =>
    rw [setLittleBlocks]
    split_ifs with hc
    · obtain ⟨k, rfl⟩ := Nat.exists_eq_add_of_le hc
      rw [Nat.add_sub_cancel_left, storeWord_setBuffer, fill_add]
      exact ih k (by omega) (fill mem a (c.setWidth 8) 4) (a + 4)
    · rfl

theorem setBigBlocks_spec (count : ℕ) :
    let r := setBigBlocks (setBuffer (c &&& 0xff)) mem a count
    fill r.1 r.2.1 (c.setWidth 8) r.2.2 = fill mem a (c.setWidth 8) count := by
  induction count using Nat.strong_induction_on generalizing mem a with
  | _ count ih =>
    rw [setBigBlocks]
    split_ifs with hc
    · obtain ⟨k, rfl⟩ := Nat.exists_eq_add_of_le hc
      have hfour : fill mem a (c.setWidth 8) 16 =
          fill (fill (fill (fill mem a (c.setWidth 8) 4) (a + 4) (c.setWidth 8) 4)
            (a + 8) (c.setWidth 8) 4) (a + 12) (c.setWidth 8) 4 := by
        rw [show 16 = 4 + 4 + 4 + 4 from rfl, fill_add, fill_add, fill_add]
        rfl
      simp only [Nat.add_sub_cancel_left, storeWord_setBuffer]
      rw [← hfour, fill_add]
      exact ih k (by omega) (fill mem a (c.setWidth 8) 16) (a + 16)
    · rfl

end

theorem setWidth_and_mask (c : BitVec 32) : (c &&& 0xff).setWidth 8 = c.setWidth 8 := by
  ext k hk
  have hmask : (255#8)[k] = true := by
    rw [show 255#8 = allOnes 8 from rfl, getElem_allOnes]
  simp [hmask]

theorem rtMemset_eq (mem : Memory 32) (s c : BitVec 32) (count : ℕ) :
    rtMemset mem s c count = rtMemsetTiny mem s c count := by
  simp only [rtMemset, rtMemsetTiny, setWidth_and_mask]
  split_ifs
  · exact congrArg (s, ·) ((setLittleBlocks_spec _ _ c _).trans (setBigBlocks_spec mem s c count))
  · rfl

/-! ## `rt_memcpy` -/

/-- `rt_memcpy` with `RT_TINY_SIZE`: `while (count--) *tmp++ = *s++;`. -/
def rtMemcpyTiny (mem : Memory 32) (dst src : BitVec 32) (count : ℕ) : BitVec 32 × Memory 32 :=
  (dst, copy mem dst src count)

/-- `*aligned_dst++ = *aligned_src++`, at the two addresses. -/
def copyWord (mem : Memory 32) (alignedDst alignedSrc : BitVec 32) : Memory 32 :=
  storeWord mem alignedDst (loadWord mem alignedSrc)

/-- The loop that copies four words in each round. `len` is an `int`, and compared with `sizeof` as
an unsigned number. -/
def copyBigBlocks (mem : Memory 32) (alignedDst alignedSrc : BitVec 32) (len : ℕ) :
    Memory 32 × BitVec 32 × BitVec 32 × ℕ :=
  if 16 ≤ len then
    let mem := copyWord mem alignedDst alignedSrc
    let mem := copyWord mem (alignedDst + 4) (alignedSrc + 4)
    let mem := copyWord mem (alignedDst + 8) (alignedSrc + 8)
    let mem := copyWord mem (alignedDst + 12) (alignedSrc + 12)
    copyBigBlocks mem (alignedDst + 16) (alignedSrc + 16) (len - 16)
  else (mem, alignedDst, alignedSrc, len)

/-- The loop that copies one word in each round. -/
def copyLittleBlocks (mem : Memory 32) (alignedDst alignedSrc : BitVec 32) (len : ℕ) :
    Memory 32 × BitVec 32 × BitVec 32 × ℕ :=
  if 4 ≤ len then
    copyLittleBlocks (copyWord mem alignedDst alignedSrc) (alignedDst + 4) (alignedSrc + 4)
      (len - 4)
  else (mem, alignedDst, alignedSrc, len)

/-- `rt_memcpy`: the pointer it returns, and the memory. -/
def rtMemcpy (mem : Memory 32) (dst src : BitVec 32) (count : ℕ) : BitVec 32 × Memory 32 :=
  if 16 ≤ count ∧ ¬ (unaligned src || unaligned dst) then
    let (mem, alignedDst, alignedSrc, len) := copyBigBlocks mem dst src count
    let (mem, alignedDst, alignedSrc, len) := copyLittleBlocks mem alignedDst alignedSrc len
    (dst, copy mem alignedDst alignedSrc len)
  else (dst, copy mem dst src count)

/-- The regions of `count` bytes at `dst` and `src` have no byte in common. -/
def Apart (dst src : BitVec 32) (count : ℕ) : Prop :=
  ∀ i < count, ∀ j < count, dst + BitVec.ofNat 32 i ≠ src + BitVec.ofNat 32 j

instance : Decidable (Apart dst src count) :=
  inferInstanceAs (Decidable (∀ i < count, ∀ j < count, _))

theorem Apart.drop {m : ℕ} (h : Apart dst src (m + n)) :
    Apart (dst + BitVec.ofNat 32 m) (src + BitVec.ofNat 32 m) n := by
  intro i hi j hj
  rw [add_assoc, add_assoc, ← ofNat_add, ← ofNat_add]
  exact h (m + i) (by omega) (m + j) (by omega)

section

variable (mem : Memory 32) (h : Apart dst src count)
include h

theorem copyWord_eq (hc : 4 ≤ count) : copyWord mem dst src = copy mem dst src 4 :=
  storeWord_loadWord mem fun i j hij hj => h i (by omega) j (by omega)

theorem copyLittleBlocks_spec :
    let r := copyLittleBlocks mem dst src count
    copy r.1 r.2.1 r.2.2.1 r.2.2.2 = copy mem dst src count := by
  induction count using Nat.strong_induction_on generalizing mem dst src with
  | _ count ih =>
    rw [copyLittleBlocks]
    split_ifs with hc
    · obtain ⟨k, rfl⟩ := Nat.exists_eq_add_of_le hc
      have hstep := ih k (by omega) (copy mem dst src 4) h.drop
      rw [Nat.add_sub_cancel_left, copyWord_eq mem h hc, copy_add]
      exact hstep
    · rfl

/-- The blocks that the copying has not reached are apart as well. -/
theorem copyBigBlocks_spec :
    let r := copyBigBlocks mem dst src count
    copy r.1 r.2.1 r.2.2.1 r.2.2.2 = copy mem dst src count ∧ Apart r.2.1 r.2.2.1 r.2.2.2 := by
  induction count using Nat.strong_induction_on generalizing mem dst src with
  | _ count ih =>
    rw [copyBigBlocks]
    split_ifs with hc
    · obtain ⟨k, rfl⟩ := Nat.exists_eq_add_of_le hc
      have h4 : Apart (dst + 4) (src + 4) (12 + k) :=
        Apart.drop (m := 4) (by rwa [show 4 + (12 + k) = 16 + k by omega])
      have h8 : Apart (dst + 8) (src + 8) (8 + k) :=
        Apart.drop (m := 8) (by rwa [show 8 + (8 + k) = 16 + k by omega])
      have h12 : Apart (dst + 12) (src + 12) (4 + k) :=
        Apart.drop (m := 12) (by rwa [show 12 + (4 + k) = 16 + k by omega])
      have hfour : copy mem dst src 16 =
          copy (copy (copy (copy mem dst src 4) (dst + 4) (src + 4) 4)
            (dst + 8) (src + 8) 4) (dst + 12) (src + 12) 4 := by
        rw [show 16 = 4 + 4 + 4 + 4 from rfl, copy_add, copy_add, copy_add]
        rfl
      have hstep := ih k (by omega) (copy mem dst src 16) h.drop
      simp only [Nat.add_sub_cancel_left]
      rw [copyWord_eq mem h (by omega), copyWord_eq _ h4 (by omega), copyWord_eq _ h8 (by omega),
        copyWord_eq _ h12 (by omega), ← hfour, copy_add]
      exact hstep
    · exact ⟨rfl, h⟩

theorem rtMemcpy_eq : rtMemcpy mem dst src count = rtMemcpyTiny mem dst src count := by
  unfold rtMemcpy rtMemcpyTiny
  split_ifs
  · obtain ⟨hbig, hapart⟩ := copyBigBlocks_spec mem h
    exact congrArg (dst, ·) ((copyLittleBlocks_spec _ hapart).trans hbig)
  · rfl

end

/-- For all addresses and all counts below 2^31, the versions that write words give the memory that
the bytewise loops give: the bytes of the region are set, or are the bytes of a source that is apart
from it, and no other byte changes. -/
theorem words_as_bytes (mem : Memory 32) (s c dst src : BitVec 32) (count : ℕ)
    (hcount : count < 2 ^ 31) :
    (rtMemset mem s c count = rtMemsetTiny mem s c count ∧
      (∀ i < count, (rtMemset mem s c count).2 (s + BitVec.ofNat 32 i) = c.setWidth 8) ∧
      ∀ b, (∀ i < count, b ≠ s + BitVec.ofNat 32 i) → (rtMemset mem s c count).2 b = mem b) ∧
    (Apart dst src count →
      rtMemcpy mem dst src count = rtMemcpyTiny mem dst src count ∧
      (∀ i < count, (rtMemcpy mem dst src count).2 (dst + BitVec.ofNat 32 i) =
        mem (src + BitVec.ofNat 32 i)) ∧
      ∀ b, (∀ i < count, b ≠ dst + BitVec.ofNat 32 i) →
        (rtMemcpy mem dst src count).2 b = mem b) := by
  constructor
  · rw [rtMemset_eq]
    exact ⟨rfl, fun i hi => fill_inside (by omega) hi, fun b hb => fill_outside hb⟩
  · intro hapart
    rw [rtMemcpy_eq mem hapart]
    refine ⟨rfl, fun i hi => ?_, fun b hb => copy_outside hb⟩
    exact copy_inside (by omega) (fun i j hij hj => hapart i (by omega) j hj) hi

/-- 23 bytes, which takes both loops and the bytewise one, between aligned addresses. -/
theorem words_as_bytes_sample :
    rtMemcpy (setWidth 8) 0x20000100 0x20000000 23 =
        rtMemcpyTiny (setWidth 8) 0x20000100 0x20000000 23 ∧
      rtMemset (setWidth 8) 0x20000004 7 23 =
        rtMemsetTiny (setWidth 8) 0x20000004 7 23 :=
  have h := words_as_bytes (setWidth 8) 0x20000004 7 0x20000100 0x20000000 23 (by decide)
  ⟨(h.2 (by decide)).1, h.1.1⟩

/-! ## `rt_memmove` -/

/-- `rt_memmove`: the pointer it returns, and the memory. -/
def rtMemmove (mem : Memory 32) (dest src : BitVec 32) (n : ℕ) : BitVec 32 × Memory 32 :=
  if src < dest ∧ dest < src + BitVec.ofNat 32 n then
    (dest, copyBack mem (dest + BitVec.ofNat 32 n) (src + BitVec.ofNat 32 n) n)
  else (dest, copy mem dest src n)

theorem toNat_add_ofNat (h : a.toNat + i < 2 ^ 32) :
    (a + BitVec.ofNat 32 i).toNat = a.toNat + i := by
  rw [toNat_add, toNat_ofNat, add_mod_mod, mod_eq_of_lt h]

/-- Copying backwards from a lower address overwrites no byte that is still needed. -/
theorem ne_of_below (hlt : src < dst) (hij : i < j) (hdst : dst.toNat + j < 2 ^ 32) :
    dst + BitVec.ofNat 32 j ≠ src + BitVec.ofNat 32 i := by
  rw [BitVec.lt_def] at hlt
  intro heq
  have hval := congrArg BitVec.toNat heq
  rw [toNat_add_ofNat hdst, toNat_add_ofNat (by omega)] at hval
  omega

/-- Copying forwards overwrites no byte that is still needed, unless the destination begins inside
of the source. -/
theorem ne_of_not_inside (hside : ¬ (src < dst ∧ dst < src + BitVec.ofNat 32 n))
    (hsrc : src.toNat + n ≤ 2 ^ 32) (hdst : dst.toNat + n ≤ 2 ^ 32) (hij : i < j) (hj : j < n) :
    dst + BitVec.ofNat 32 i ≠ src + BitVec.ofNat 32 j := by
  intro heq
  have hval := congrArg BitVec.toNat heq
  rw [toNat_add_ofNat (by omega), toNat_add_ofNat (by omega)] at hval
  -- the destination lies above the source, and so the end of the source is no wrap-around
  have hlt : src < dst := by
    rw [BitVec.lt_def]
    omega
  refine hside ⟨hlt, ?_⟩
  rw [BitVec.lt_def] at hlt ⊢
  rw [toNat_add_ofNat (by omega)]
  omega

/-- After `rt_memmove` the destination holds the bytes that the source had before the call, and
every other byte is as it was, for all regions that do not wrap around. -/
theorem memmove_overlap (mem : Memory 32) (dest src : BitVec 32) (n : ℕ)
    (hsrc : src.toNat + n ≤ 2 ^ 32) (hdest : dest.toNat + n ≤ 2 ^ 32) :
    (rtMemmove mem dest src n).1 = dest ∧
      (∀ i < n, (rtMemmove mem dest src n).2 (dest + BitVec.ofNat 32 i) =
        mem (src + BitVec.ofNat 32 i)) ∧
      ∀ b, (∀ i < n, b ≠ dest + BitVec.ofNat 32 i) → (rtMemmove mem dest src n).2 b = mem b := by
  unfold rtMemmove
  split_ifs with hside
  · refine ⟨rfl, fun i hi => ?_, fun b hb => copyBack_outside hb⟩
    exact copyBack_inside (by omega) (fun i j hij hj => ne_of_below hside.1 hij (by omega)) hi
  · refine ⟨rfl, fun i hi => ?_, fun b hb => copy_outside hb⟩
    exact copy_inside (by omega) (fun i j hij hj => ne_of_not_inside hside hsrc hdest hij hj) hi

/-- Ten bytes moved up by three, the last one to the last byte of the address space. -/
theorem memmove_overlap_sample :
    (rtMemmove (setWidth 8) 0xfffffff6 0xfffffff3 10).2 0xfffffff6 = 0xf3 ∧
      (rtMemmove (setWidth 8) 0xfffffff6 0xfffffff3 10).2 0xffffffff = 0xfc :=
  have h := (memmove_overlap (setWidth 8) 0xfffffff6 0xfffffff3 10 (by decide)
    (by decide)).2.1
  ⟨h 0 (by decide), h 9 (by decide)⟩

/-! ## Aligned blocks -/

/-- Where the aligned block begins. -/
def alignPtr (ptr align : BitVec 32) : BitVec 32 :=
  if ptr &&& (align - 1) = 0 then ptr + align else (ptr + (align - 1)) &&& ~~~(align - 1)

/-- `rt_malloc_align`: the pointer and the memory; `rtMalloc` is what `rt_malloc` returns. -/
def rtMallocAlign (rtMalloc : BitVec 32 → BitVec 32) (mem : Memory 32) (size align : BitVec 32) :
    BitVec 32 × Memory 32 :=
  let align := (align + 3) &&& ~~~3
  let ptr := rtMalloc (((size + 3) &&& ~~~3) + align)
  if ptr ≠ 0 then (alignPtr ptr align, storeWord mem (alignPtr ptr align - 4) ptr) else (ptr, mem)

/-- `rt_free_align`: the pointer that it hands to `rt_free`. -/
def rtFreeAlign (mem : Memory 32) (ptr : BitVec 32) : BitVec 32 := loadWord mem (ptr - 4)

variable {x m : BitVec 32}

theorem and_not_eq_sub (x m : BitVec 32) : x &&& ~~~m = x - (x &&& m) := by
  rw [eq_sub_iff_add_eq, add_eq_or_of_and_eq_zero]
  · ext i
    grind
  · ext i
    grind

theorem toNat_and_mask (hm : m.toNat + 1 = 2 ^ j) : (x &&& m).toNat = x.toNat % 2 ^ j := by
  rw [toNat_and, show m.toNat = 2 ^ j - 1 by omega, and_two_pow_sub_one_eq_mod]

/-- The pointer moves up to a multiple of the alignment, by no more than the alignment. -/
theorem alignPtr_spec (ptr : BitVec 32) {align : BitVec 32} (halign : align.toNat = 2 ^ j) :
    2 ^ j ∣ (alignPtr ptr align).toNat ∧ alignPtr ptr align ≠ ptr ∧
      alignPtr ptr align - ptr ≤ align := by
  have hj : j < 32 := (Nat.pow_lt_pow_iff_right Nat.one_lt_two).mp (halign ▸ align.isLt)
  have hpos : 0 < 2 ^ j := by positivity
  have hm : (align - 1).toNat + 1 = 2 ^ j := by bv_omega
  have hdvd : ∀ x, x &&& (align - 1) = 0 ↔ 2 ^ j ∣ x.toNat := fun x => by
    rw [dvd_iff_mod_eq_zero, ← toNat_and_mask hm, ← toNat_inj]
    rfl
  rw [alignPtr]
  split_ifs with hptr
  · refine ⟨?_, by bv_omega, by bv_omega⟩
    rw [toNat_add, halign, dvd_mod_iff (pow_dvd_pow 2 hj.le)]
    exact dvd_add ((hdvd ptr).mp hptr) (dvd_refl _)
  · have hzero : ((ptr + (align - 1)) &&& ~~~(align - 1)) &&& (align - 1) = 0 := by
      ext i
      grind
    refine ⟨(hdvd _).mp hzero, fun heq => hptr (heq ▸ hzero), ?_⟩
    have hle : ((ptr + (align - 1)) &&& (align - 1)).toNat ≤ (align - 1).toNat := by
      rw [toNat_and]
      exact and_le_right
    rw [and_not_eq_sub]
    bv_omega

theorem toNat_round (h : x.toNat + 3 < 2 ^ 32) :
    ((x + 3) &&& ~~~3).toNat = (x.toNat + 3) / 4 * 4 := by
  have hadd : (x + 3).toNat = x.toNat + 3 := by
    rw [toNat_add]
    exact mod_eq_of_lt h
  have hand : ((x + 3) &&& 3).toNat = (x.toNat + 3) % 4 := by
    rw [toNat_and_mask (show (3 : BitVec 32).toNat + 1 = 2 ^ 2 from rfl), hadd]
    rfl
  rw [and_not_eq_sub, toNat_sub_of_le (by rw [le_def]; omega), hadd, hand]
  omega

/-- For an alignment that is a power of two, a block from `rt_malloc` holds the `size` bytes from
the pointer on and the word before it, and `rt_free_align` frees the block. -/
theorem malloc_align_round_trip (rtMalloc : BitVec 32 → BitVec 32) (mem : Memory 32)
    (size align ptr alignSize : BitVec 32) (halign : ∃ j, align.toNat = 2 ^ j)
    (hsize : alignSize.toNat = (size.toNat + 3) / 4 * 4 + (align.toNat + 3) / 4 * 4)
    (hptr : rtMalloc alignSize = ptr) (hnull : ptr ≠ 0) (hptr4 : ptr.toNat % 4 = 0) :
    let r := rtMallocAlign rtMalloc mem size align
    align.toNat ∣ r.1.toNat ∧ 4 ≤ (r.1 - ptr).toNat ∧
      (r.1 - ptr).toNat + size.toNat ≤ alignSize.toNat ∧
      ∀ mem' : Memory 32, (∀ a, (a - r.1).toNat < size.toNat ∨ mem' a = r.2 a) →
        rtFreeAlign mem' r.1 = ptr := by
  intro r
  obtain ⟨j, halign⟩ := halign
  have hlt := alignSize.isLt
  have hsize' : ((size + 3) &&& ~~~3).toNat = _ := toNat_round (by omega)
  have halign' : ((align + 3) &&& ~~~3).toNat = _ := toNat_round (by omega)
  obtain ⟨k, hround, hjk, hk⟩ : ∃ k, (align.toNat + 3) / 4 * 4 = 2 ^ k ∧ j ≤ k ∧ 2 ≤ k := by
    by_cases hj : 2 ≤ j
    · obtain ⟨i, rfl⟩ := Nat.exists_eq_add_of_le hj
      exact ⟨_, by rw [halign, pow_add]; omega, le_rfl, hj⟩
    · exact ⟨2, by interval_cases j <;> omega, by omega, le_rfl⟩
  have hask : ((size + 3) &&& ~~~3) + ((align + 3) &&& ~~~3) = alignSize :=
    eq_of_toNat_eq (by rw [toNat_add, mod_eq_of_lt (by omega)]; omega)
  obtain ⟨hdvd, hne, hle⟩ := alignPtr_spec ptr (halign'.trans hround)
  have hr : r = (alignPtr ptr ((align + 3) &&& ~~~3),
      storeWord mem (alignPtr ptr ((align + 3) &&& ~~~3) - 4) ptr) := by
    simp only [r, rtMallocAlign, hask, hptr, if_pos hnull]
  rw [hr]
  generalize alignPtr ptr ((align + 3) &&& ~~~3) = q at *
  have hfour : q.toNat % 4 = 0 := mod_eq_zero_of_dvd ((pow_dvd_pow 2 hk).trans hdvd)
  refine ⟨halign ▸ (pow_dvd_pow 2 hjk).trans hdvd, by bv_omega, by bv_omega,
    fun mem' hmem => ?_⟩
  refine (loadWord_congr fun i hi => (hmem _).resolve_left ?_).trans
    (loadWord_storeWord (by norm_num) mem _ ptr)
  bv_omega

/-- Five bytes at a multiple of 16, from a block at 0x20000004. -/
theorem malloc_align_sample :
    let r := rtMallocAlign (fun _ => 0x20000004) (fun _ => 0) 5 16
    16 ∣ r.1.toNat ∧ rtFreeAlign r.2 r.1 = 0x20000004 := by
  intro r
  have h := malloc_align_round_trip (fun _ => 0x20000004) (fun _ => 0) 5 16 0x20000004 24 ⟨4, rfl⟩
    rfl rfl (by decide) rfl
  exact ⟨h.1, h.2.2.2 _ fun _ => .inr rfl⟩

end RtThread.Kservice
