import Mathlib.Tactic

/-!
# Sizes

The unsigned 32-bit arithmetic of the memory managers (`src/mem.c`,
`src/memheap.c`), and the pointers that their clients hold.
-/

namespace RtThread

/-- `RT_ALIGN(size, RT_ALIGN_SIZE)`, with `RT_ALIGN_SIZE` 4. -/
def rtAlign (size : ℕ) : ℕ := (size + 3) % 2 ^ 32 / 4 * 4

/-- `RT_ALIGN_DOWN(size, RT_ALIGN_SIZE)`. -/
def rtAlignDown (size : ℕ) : ℕ := size / 4 * 4

/-- Addition of unsigned 32-bit numbers. -/
def add32 (a b : ℕ) : ℕ := (a + b) % 2 ^ 32

/-- Subtraction of unsigned 32-bit numbers. -/
def sub32 (a b : ℕ) : ℕ := (2 ^ 32 + a - b) % 2 ^ 32

variable {a b : ℕ}

theorem sub32_of_le (hba : b ≤ a) (ha : a < 2 ^ 32) : sub32 a b = a - b := by
  unfold sub32
  omega

theorem add32_of_lt (h : a + b < 2 ^ 32) : add32 a b = a + b := Nat.mod_eq_of_lt h

theorem rtAlign_mod (n : ℕ) : rtAlign n % 4 = 0 := by
  unfold rtAlign
  omega

theorem rtAlign_rtAlign (n : ℕ) : rtAlign (rtAlign n) = rtAlign n := by
  unfold rtAlign
  omega

/-! ## The clients' pointers -/

/-- The pointers `live` are those of the blocks `U`. -/
structure Live (ptr : ℕ → ℕ) (U : Set ℕ) (live : List ℕ) : Prop where
  nodup : live.Nodup
  mem_iff : ∀ p, p ∈ live ↔ ∃ o ∈ U, p = ptr o

section Live

variable {ptr : ℕ → ℕ} {U : Set ℕ} {live : List ℕ} {a : ℕ}

theorem live_nil : Live ptr ∅ [] := ⟨.nil, by simp⟩

theorem Live.not_mem (hl : Live ptr U []) (a : ℕ) : a ∉ U := by
  intro ha
  have hp := (hl.mem_iff (ptr a)).mpr ⟨a, ha, rfl⟩
  cases hp

/-- The block at `a` is released. -/
theorem Live.erase (hl : Live ptr U live) (hptr : Function.Injective ptr) :
    Live ptr (U \ {a}) (live.erase (ptr a)) where
  nodup := hl.nodup.erase _
  mem_iff p := by
    rw [hl.nodup.mem_erase_iff, hl.mem_iff]
    constructor
    · rintro ⟨hne, o, ho, rfl⟩
      exact ⟨o, ⟨ho, by rintro rfl; exact hne rfl⟩, rfl⟩
    · rintro ⟨o, ⟨ho, hne⟩, rfl⟩
      exact ⟨fun heq => hne (hptr heq), o, ho, rfl⟩

/-- The block at `a` is handed out. -/
theorem Live.cons (hl : Live ptr U live) (hptr : Function.Injective ptr) (ha : a ∉ U) :
    Live ptr (insert a U) (ptr a :: live) where
  nodup := by
    rw [List.nodup_cons, hl.mem_iff]
    refine ⟨?_, hl.nodup⟩
    rintro ⟨o, ho, heq⟩
    obtain rfl : a = o := hptr heq
    exact ha ho
  mem_iff p := by
    rw [List.mem_cons, hl.mem_iff]
    constructor
    · rintro (rfl | ⟨o, ho, rfl⟩)
      · exact ⟨a, Set.mem_insert a U, rfl⟩
      · exact ⟨o, Set.mem_insert_of_mem a ho, rfl⟩
    · rintro ⟨o, rfl | ho, rfl⟩
      · exact .inl rfl
      · exact .inr ⟨o, ho, rfl⟩

end Live

end RtThread
