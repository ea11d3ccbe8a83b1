import Mathlib.Data.BitVec
import Mathlib.Tactic

/-!
# Memory of bytes

Memory is a function from the addresses of a machine, which wrap around, to bytes.
`fill` and `copy` are the bytewise loops that set and copy a region from its first
byte on, `copyBack` the one that copies from the last byte on.

* `fill_add`, `copy_add`: a loop is two loops in a row.
* `copy_inside`, `copyBack_inside`: what is copied, if no byte of the source is
  overwritten before it is read; `copy_outside`, `copyBack_outside`: the frame.
* `storeWord_replicate`, `storeWord_loadWord`: a word is four bytes of either loop.
* `loadWord_eq_iff`: a word by its bytes; `loadWord_storeWord`,
  `loadWord_storeWord_of_disjoint`: reading words back.
-/

namespace ByteMemory

open Function BitVec

variable {w : ℕ}

/-- A memory with addresses of `w` bits. -/
abbrev Memory (w : ℕ) := BitVec w → BitVec 8

variable {mem mem' : Memory w} {a b dst src : BitVec w} {d : BitVec 8} {i j m n : ℕ} {v : BitVec 32}

/-! ## Addresses -/

theorem ofNat_succ_add (a : BitVec w) (i : ℕ) :
    a + 1 + BitVec.ofNat w i = a + BitVec.ofNat w (i + 1) := by
  rw [ofNat_add, add_assoc, add_comm 1]
  rfl

theorem ofNat_add_one (a : BitVec w) (i : ℕ) :
    a + BitVec.ofNat w i + 1 = a + BitVec.ofNat w (i + 1) := by
  rw [ofNat_add, add_assoc]
  rfl

/-- Different offsets below the size of the address space give different addresses. -/
theorem offset_inj (hi : i < 2 ^ w) (hj : j < 2 ^ w)
    (h : a + BitVec.ofNat w i = a + BitVec.ofNat w j) : i = j := by
  have heq : BitVec.ofNat w i = BitVec.ofNat w j := (BitVec.add_right_inj a).mp h
  simpa [Nat.mod_eq_of_lt hi, Nat.mod_eq_of_lt hj] using congrArg BitVec.toNat heq

/-! ## Filling -/

/-- Write the byte `d` to the `n` addresses from `a` on. -/
def fill (mem : Memory w) (a : BitVec w) (d : BitVec 8) : ℕ → Memory w
  | 0 => mem
  | n + 1 => fill (update mem a d) (a + 1) d n

theorem fill_add (mem : Memory w) (a : BitVec w) (d : BitVec 8) (m n : ℕ) :
    fill mem a d (m + n) = fill (fill mem a d m) (a + BitVec.ofNat w m) d n := by
  induction m generalizing mem a with
  | zero => rw [Nat.zero_add, BitVec.add_zero, fill]
  | succ m ih => rw [Nat.add_right_comm, fill, fill, ih, ofNat_succ_add]

theorem fill_outside (h : ∀ i < n, b ≠ a + BitVec.ofNat w i) : fill mem a d n b = mem b := by
  induction n generalizing mem a with
  | zero => rfl
  | succ n ih =>
    have hb := h 0 n.succ_pos
    rw [BitVec.add_zero] at hb
    rw [fill, ih fun i hi => ?_, update_of_ne hb]
    rw [ofNat_succ_add]
    exact h (i + 1) (by omega)

theorem fill_inside (hn : n ≤ 2 ^ w) (hi : i < n) : fill mem a d n (a + BitVec.ofNat w i) = d := by
  induction n generalizing mem a i with
  | zero => omega
  | succ n ih =>
    rw [fill]
    cases i with
    | zero =>
      rw [BitVec.add_zero, fill_outside fun j hj heq => ?_, update_self]
      rw [ofNat_succ_add] at heq
      have := offset_inj (i := 0) (j := j + 1) (by omega) (by omega) ((add_zero a).trans heq)
      omega
    | succ i => rw [← ofNat_succ_add, ih (by omega) (by omega)]

/-! ## Copying -/

/-- Copy `n` bytes from `src` to `dst`, the first byte first. -/
def copy (mem : Memory w) (dst src : BitVec w) : ℕ → Memory w
  | 0 => mem
  | n + 1 => copy (update mem dst (mem src)) (dst + 1) (src + 1) n

theorem copy_add (mem : Memory w) (dst src : BitVec w) (m n : ℕ) :
    copy mem dst src (m + n) =
      copy (copy mem dst src m) (dst + BitVec.ofNat w m) (src + BitVec.ofNat w m) n := by
  induction m generalizing mem dst src with
  | zero => rw [Nat.zero_add, BitVec.add_zero, BitVec.add_zero, copy]
  | succ m ih => rw [Nat.add_right_comm, copy, copy, ih, ofNat_succ_add, ofNat_succ_add]

theorem copy_outside (h : ∀ i < n, b ≠ dst + BitVec.ofNat w i) : copy mem dst src n b = mem b := by
  induction n generalizing mem dst src with
  | zero => rfl
  | succ n ih =>
    have hb := h 0 n.succ_pos
    rw [BitVec.add_zero] at hb
    rw [copy, ih fun i hi => ?_, update_of_ne hb]
    rw [ofNat_succ_add]
    exact h (i + 1) (by omega)

/-- Each byte arrives if no byte of the source is overwritten before its turn. -/
theorem copy_inside (hn : n ≤ 2 ^ w)
    (h : ∀ i j, i < j → j < n → dst + BitVec.ofNat w i ≠ src + BitVec.ofNat w j) (hi : i < n) :
    copy mem dst src n (dst + BitVec.ofNat w i) = mem (src + BitVec.ofNat w i) := by
  induction n generalizing mem dst src i with
  | zero => omega
  | succ n ih =>
    rw [copy]
    cases i with
    | zero =>
      -- the later bytes leave the first one alone
      rw [BitVec.add_zero, BitVec.add_zero, copy_outside fun j hj => ?_, update_self]
      rw [ofNat_succ_add]
      intro heq
      have := offset_inj (i := 0) (j := j + 1) (by omega) (by omega)
        ((add_zero dst).trans heq)
      omega
    | succ i =>
      have hnext : ∀ i j, i < j → j < n →
          dst + 1 + BitVec.ofNat w i ≠ src + 1 + BitVec.ofNat w j := by
        intro i j hij hj
        rw [ofNat_succ_add, ofNat_succ_add]
        exact h (i + 1) (j + 1) (by omega) (by omega)
      have hsrc : src + BitVec.ofNat w (i + 1) ≠ dst := by
        intro heq
        exact h 0 (i + 1) (by omega) hi ((add_zero dst).trans heq.symm)
      rw [← ofNat_succ_add, ih (by omega) hnext (by omega), ofNat_succ_add, update_of_ne hsrc]

/-- Copy the `n` bytes before `src` to the `n` bytes before `dst`, the last byte first. -/
def copyBack (mem : Memory w) (dst src : BitVec w) : ℕ → Memory w
  | 0 => mem
  | n + 1 => copyBack (update mem (dst - 1) (mem (src - 1))) (dst - 1) (src - 1) n

theorem sub_ofNat_sub_one (a : BitVec w) (i : ℕ) :
    a + BitVec.ofNat w (i + 1) - 1 = a + BitVec.ofNat w i := by
  rw [← ofNat_add_one, add_sub_cancel]

theorem copyBack_outside (h : ∀ i < n, b ≠ dst + BitVec.ofNat w i) :
    copyBack mem (dst + BitVec.ofNat w n) (src + BitVec.ofNat w n) n b = mem b := by
  induction n generalizing mem with
  | zero => rfl
  | succ n ih =>
    rw [copyBack, sub_ofNat_sub_one, sub_ofNat_sub_one, ih fun i hi => h i (by omega),
      update_of_ne (h n (by omega))]

theorem copyBack_inside (hn : n ≤ 2 ^ w)
    (h : ∀ i j, i < j → j < n → dst + BitVec.ofNat w j ≠ src + BitVec.ofNat w i) (hi : i < n) :
    copyBack mem (dst + BitVec.ofNat w n) (src + BitVec.ofNat w n) n (dst + BitVec.ofNat w i) =
      mem (src + BitVec.ofNat w i) := by
  induction n generalizing mem with
  | zero => omega
  | succ n ih =>
    rw [copyBack, sub_ofNat_sub_one, sub_ofNat_sub_one]
    rcases Nat.lt_succ_iff_lt_or_eq.mp hi with hlt | rfl
    · rw [ih (by omega) (fun i j hij hj => h i j hij (by omega)) hlt,
        update_of_ne fun heq => h i n hlt (by omega) heq.symm]
    · rw [copyBack_outside fun j hj heq => ?_, update_self]
      have := offset_inj (by omega) (by omega) heq
      omega

/-! ## Words -/

/-- The four bytes of a word, the least significant first. -/
def byteOf (v : BitVec 32) (i : ℕ) : BitVec 8 := v.extractLsb' (8 * i) 8

/-- The word at `a`. -/
def loadWord (mem : Memory w) (a : BitVec w) : BitVec 32 :=
  mem (a + 3) ++ mem (a + 2) ++ mem (a + 1) ++ mem a

/-- Store the word `v` at `a`. -/
def storeWord (mem : Memory w) (a : BitVec w) (v : BitVec 32) : Memory w :=
  update (update (update (update mem a (byteOf v 0))
    (a + 1) (byteOf v 1)) (a + 2) (byteOf v 2)) (a + 3) (byteOf v 3)

theorem byteOf_append (b₃ b₂ b₁ b₀ : BitVec 8) :
    byteOf (b₃ ++ b₂ ++ b₁ ++ b₀) 0 = b₀ ∧ byteOf (b₃ ++ b₂ ++ b₁ ++ b₀) 1 = b₁ ∧
      byteOf (b₃ ++ b₂ ++ b₁ ++ b₀) 2 = b₂ ∧ byteOf (b₃ ++ b₂ ++ b₁ ++ b₀) 3 = b₃ := by
  refine ⟨?_, ?_, ?_, ?_⟩ <;> ext i hi <;> simp [byteOf] <;> grind

theorem append_byteOf (v : BitVec 32) :
    byteOf v 3 ++ byteOf v 2 ++ byteOf v 1 ++ byteOf v 0 = v := by
  ext i hi
  simp [byteOf]
  grind

theorem loadWord_eq_iff :
    loadWord mem a = v ↔ ∀ i < 4, mem (a + BitVec.ofNat w i) = byteOf v i := by
  obtain ⟨h0, h1, h2, h3⟩ := byteOf_append (mem (a + 3)) (mem (a + 2)) (mem (a + 1)) (mem a)
  constructor
  · rintro rfl i hi
    interval_cases i
    · rw [BitVec.add_zero]
      exact h0.symm
    · exact h1.symm
    · exact h2.symm
    · exact h3.symm
  · intro h
    have hzero := h 0 (by norm_num)
    have hone : mem (a + 1) = _ := h 1 (by norm_num)
    have htwo : mem (a + 2) = _ := h 2 (by norm_num)
    have hthree : mem (a + 3) = _ := h 3 (by norm_num)
    rw [BitVec.add_zero] at hzero
    rw [loadWord, hzero, hone, htwo, hthree, append_byteOf]

/-- Storing a word whose bytes are all `d` fills four bytes. -/
theorem storeWord_replicate (mem : Memory w) (a : BitVec w) (hv : ∀ i < 4, byteOf v i = d) :
    storeWord mem a v = fill mem a d 4 := by
  have h2 : a + 1 + 1 = a + 2 := ofNat_add_one a 1
  have h3 : a + 2 + 1 = a + 3 := ofNat_add_one a 2
  rw [storeWord, hv 0 (by norm_num), hv 1 (by norm_num), hv 2 (by norm_num), hv 3 (by norm_num)]
  simp only [fill, h2, h3]

/-- Copying a word copies four bytes, if the first three leave the others of the source alone. -/
theorem storeWord_loadWord (mem : Memory w)
    (h : ∀ i j, i < j → j < 4 → dst + BitVec.ofNat w i ≠ src + BitVec.ofNat w j) :
    storeWord mem dst (loadWord mem src) = copy mem dst src 4 := by
  have h2 : ∀ a : BitVec w, a + 1 + 1 = a + 2 := fun a => ofNat_add_one a 1
  have h3 : ∀ a : BitVec w, a + 2 + 1 = a + 3 := fun a => ofNat_add_one a 2
  have hne : ∀ i j, i < j → j < 4 → src + BitVec.ofNat w j ≠ dst + BitVec.ofNat w i :=
    fun i j hij hj => (h i j hij hj).symm
  have h01 : src + 1 ≠ dst := add_zero dst ▸ hne 0 1 (by norm_num) (by norm_num)
  have h02 : src + 2 ≠ dst := add_zero dst ▸ hne 0 2 (by norm_num) (by norm_num)
  have h03 : src + 3 ≠ dst := add_zero dst ▸ hne 0 3 (by norm_num) (by norm_num)
  have h12 : src + 2 ≠ dst + 1 := hne 1 2 (by norm_num) (by norm_num)
  have h13 : src + 3 ≠ dst + 1 := hne 1 3 (by norm_num) (by norm_num)
  have h23 : src + 3 ≠ dst + 2 := hne 2 3 (by norm_num) (by norm_num)
  obtain ⟨hb0, hb1, hb2, hb3⟩ :=
    byteOf_append (mem (src + 3)) (mem (src + 2)) (mem (src + 1)) (mem src)
  rw [storeWord, loadWord, hb0, hb1, hb2, hb3]
  simp only [copy, h2, h3, update_of_ne h01, update_of_ne h02, update_of_ne h03, update_of_ne h12,
    update_of_ne h13, update_of_ne h23]

/-! ### Reading words back -/

theorem storeWord_outside (h : ∀ i < 4, b ≠ a + BitVec.ofNat w i) :
    storeWord mem a v b = mem b := by
  have h0 : b ≠ a := add_zero a ▸ h 0 (by norm_num)
  have h1 : b ≠ a + 1 := h 1 (by norm_num)
  have h2 : b ≠ a + 2 := h 2 (by norm_num)
  have h3 : b ≠ a + 3 := h 3 (by norm_num)
  rw [storeWord, update_of_ne h3, update_of_ne h2, update_of_ne h1, update_of_ne h0]

theorem loadWord_congr (h : ∀ i < 4, mem' (a + BitVec.ofNat w i) = mem (a + BitVec.ofNat w i)) :
    loadWord mem' a = loadWord mem a :=
  loadWord_eq_iff.mpr fun i hi => (h i hi).trans (loadWord_eq_iff.mp rfl i hi)

/-- A word that is stored is read back, if the address space has room for it. -/
theorem loadWord_storeWord (hw : 4 ≤ 2 ^ w) (mem : Memory w) (a : BitVec w) (v : BitVec 32) :
    loadWord (storeWord mem a v) a = v := by
  have hne : ∀ i j, i < j → j < 4 → a + BitVec.ofNat w i ≠ a + BitVec.ofNat w j := by
    intro i j hij hj heq
    have := offset_inj (by omega) (by omega) heq
    omega
  have h01 : a ≠ a + 1 := (add_zero a).symm.trans_ne (hne 0 1 (by norm_num) (by norm_num))
  have h02 : a ≠ a + 2 := (add_zero a).symm.trans_ne (hne 0 2 (by norm_num) (by norm_num))
  have h03 : a ≠ a + 3 := (add_zero a).symm.trans_ne (hne 0 3 (by norm_num) (by norm_num))
  have h12 : a + 1 ≠ a + 2 := hne 1 2 (by norm_num) (by norm_num)
  have h13 : a + 1 ≠ a + 3 := hne 1 3 (by norm_num) (by norm_num)
  have h23 : a + 2 ≠ a + 3 := hne 2 3 (by norm_num) (by norm_num)
  simp only [loadWord, storeWord, update_self, update_of_ne h01, update_of_ne h02, update_of_ne h03,
    update_of_ne h12, update_of_ne h13, update_of_ne h23, append_byteOf]

end ByteMemory
