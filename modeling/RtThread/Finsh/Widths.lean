import RtThread.Finsh.Compiler

/-!
# Values of one, two and four bytes

What the operations of the machine do with the low part of a cell and with the bytes of memory,
for each of the three widths.

* `low_set`, `low_get`, `low_add`: the low part of a cell is all that counts.
* `load_store`, `store_inside`, `store_outside`: memory.
* `loadWord_store_iff`: a narrow value that is read back as a `long`.
-/

namespace RtThread.Finsh

open ByteMemory Cells Function BitVec Nat

variable {text : ℕ → Byte} {mem : Memory 32} {a b c u v x : Long} {w : Width} {i : ℕ}

namespace Width

/-- The low part of a value, as a number. -/
def low (v : Long) : Width → Long
  | byte => (v.setWidth 8).setWidth 32
  | word => (v.setWidth 16).setWidth 32
  | dword => v

/-- The values of a width are counted modulo this number. -/
def modulus (w : Width) : ℕ := 2 ^ (8 * w.size)

theorem modulus_dvd (w : Width) : w.modulus ∣ 2 ^ 32 := pow_dvd_pow 2 (by cases w <;> decide)

theorem dvd_modulus (w : Width) : 256 ∣ w.modulus := by
  cases w <;> decide

theorem toNat_low (v : Long) (w : Width) : (w.low v).toNat = v.toNat % w.modulus := by
  have hv := v.isLt
  cases w with
  | byte =>
    have h : v.toNat % 256 < 4294967296 := by omega
    simpa [low, modulus, size] using mod_eq_of_lt h
  | word =>
    have h : v.toNat % 65536 < 4294967296 := by omega
    simpa [low, modulus, size] using mod_eq_of_lt h
  | dword => exact (mod_eq_of_lt hv).symm

theorem low_set (c v : Long) (w : Width) : w.low (w.set c v) = w.low v := by
  cases w with
  | byte | word =>
    ext i hi
    simp [low, set]
    grind
  | dword => rfl

theorem set_zero (v : Long) (w : Width) : w.set 0 v = w.low v := by
  cases w with
  | byte | word =>
    ext i hi
    simp [low, set]
    grind
  | dword => rfl

theorem low_get (c : Long) (w : Width) : w.low (w.get c) = w.low c := by
  cases w with
  | byte => simp [low, get]
  | word =>
    ext i hi
    simp [low, get]
    grind
  | dword => rfl

theorem low_load (mem : Memory 32) (a : Long) (w : Width) :
    w.low (w.load mem a) = w.load mem a := by
  cases w with
  | byte | word => simp [low, load]
  | dword => rfl

theorem get_set_one (c : Long) (w : Width) : w.get (w.set c 1) = 1 := by
  cases w with
  | byte | word =>
    ext i hi
    simp [get, set]
    grind
  | dword => rfl

theorem low_eq_iff : w.low x = w.low u ↔ x.toNat ≡ u.toNat [MOD w.modulus] := by
  rw [← toNat_inj, toNat_low, toNat_low]
  rfl

/-- The low part of a sum is known from the low parts of its terms. -/
theorem low_add (h : w.low x = w.low u) (v : Long) : w.low (x + v) = w.low (u + v) := by
  rw [low_eq_iff] at h ⊢
  have hx := (mod_modEq (x.toNat + v.toNat) (2 ^ 32)).of_dvd w.modulus_dvd
  have hu := (mod_modEq (u.toNat + v.toNat) (2 ^ 32)).of_dvd w.modulus_dvd
  exact hx.trans ((h.add_right _).trans hu.symm)

theorem byteOf_low (hi : i < w.size) : byteOf (w.low v) i = byteOf v i := by
  cases w with
  | byte =>
    obtain rfl : i = 0 := lt_one_iff.mp hi
    ext j hj
    simp [low, byteOf]
    grind
  | word =>
    have hi : i < 2 := hi
    ext j hj
    simp [low, byteOf]
    grind
  | dword => rfl

/-! ### Memory -/

theorem store_congr (h : w.low v = w.low u) : w.store mem a v = w.store mem a u := by
  have hbyte {i : ℕ} (hi : i < w.size) : byteOf v i = byteOf u i := by
    rw [← byteOf_low hi, h, byteOf_low hi]
  cases w with
  | byte => rw [store, store, hbyte one_pos]
  | word => rw [store, store, hbyte two_pos, hbyte one_lt_two]
  | dword => exact congrArg (storeWord mem a) h

theorem store_outside (h : ∀ i < w.size, b ≠ a + BitVec.ofNat 32 i) :
    w.store mem a v b = mem b := by
  cases w with
  | byte =>
    have h0 : b ≠ a := add_zero a ▸ h 0 one_pos
    rw [store, update_of_ne h0]
  | word =>
    have h0 : b ≠ a := add_zero a ▸ h 0 two_pos
    have h1 : b ≠ a + 1 := h 1 one_lt_two
    rw [store, update_of_ne h1, update_of_ne h0]
  | dword => exact storeWord_outside h

theorem byteOf_low_above (h : w.size ≤ i) (hi : i < 4) : byteOf (w.low v) i = 0 := by
  cases w with
  | byte =>
    have h : 1 ≤ i := h
    ext j hj
    simp [low, byteOf]
    grind
  | word =>
    have h : 2 ≤ i := h
    ext j hj
    simp [low, byteOf]
    grind
  | dword => exact absurd hi h.not_gt

section

variable (mem : Memory 32) (a v : Long)

theorem store_inside (hi : i < w.size) : w.store mem a v (a + BitVec.ofNat 32 i) = byteOf v i := by
  cases w with
  | byte =>
    obtain rfl : i = 0 := lt_one_iff.mp hi
    rw [BitVec.add_zero]
    exact update_self ..
  | word =>
    have hne : a ≠ a + 1 := fun h => by
      have := offset_inj (i := 0) (j := 1) (by norm_num) (by norm_num) ((add_zero a).trans h)
      omega
    obtain rfl | rfl : i = 0 ∨ i = 1 := Nat.le_one_iff_eq_zero_or_eq_one.mp (Nat.lt_succ_iff.mp hi)
    · rw [BitVec.add_zero, store, update_of_ne hne, update_self]
    · exact update_self ..
  | dword =>
    have h := loadWord_eq_iff.mp (loadWord_storeWord (w := 32) (by norm_num) mem a v)
    exact h i hi

theorem byteOf_load (a : Long) (w : Width) : byteOf (w.load mem a) 0 = mem a := by
  cases w with
  | byte | word =>
    ext i hi
    simp [load, byteOf]
    grind
  | dword => exact (byteOf_append ..).1

theorem load_store (w : Width) : w.load (w.store mem a v) a = w.low v := by
  cases w with
  | byte =>
    have h0 := store_inside (w := byte) mem a v one_pos
    rw [BitVec.add_zero] at h0
    rw [load, h0]
    rfl
  | word =>
    have h0 := store_inside (w := word) mem a v two_pos
    have h1 : word.store mem a v (a + 1) = byteOf v 1 := store_inside mem a v one_lt_two
    rw [BitVec.add_zero] at h0
    rw [load, h0, h1]
    ext i hi
    simp [low, byteOf]
    grind
  | dword => exact loadWord_storeWord (by norm_num) mem a v

/-- A `long` that is read where a value has been stored is that value if the bytes above it are
zero. -/
theorem loadWord_store_iff (w : Width) :
    loadWord (w.store mem a v) a = w.low v ↔
      ∀ i, w.size ≤ i → i < 4 → mem (a + BitVec.ofNat 32 i) = 0 := by
  have habove {i : ℕ} (h : w.size ≤ i) (hi : i < 4) :
      w.store mem a v (a + BitVec.ofNat 32 i) = mem (a + BitVec.ofNat 32 i) := by
    refine store_outside fun j hj heq => ?_
    have := offset_inj (by omega) (by omega) heq
    omega
  rw [loadWord_eq_iff]
  constructor
  · intro h i hsize hi
    rw [← habove hsize hi, h i hi, byteOf_low_above hsize hi]
  · intro h i hi
    by_cases hsize : i < w.size
    · rw [store_inside mem a v hsize, byteOf_low hsize]
    · rw [habove (by omega) hi, h i (by omega) hi, byteOf_low_above (by omega) hi]

end

theorem set_getLong {pc : ℕ} (h : Holds text pc (codeLong v w)) :
    w.set c (getLong text pc w) = w.set c v := by
  cases w with
  | byte =>
    obtain ⟨h0, -⟩ := h
    simp only [set, getLong, h0]
    congr 1
    ext i hi
    simp [byteOf]
  | word =>
    obtain ⟨h0, h1, -⟩ := h
    simp only [set, getLong, h0, h1]
    ext i hi
    simp [byteOf]
    grind
  | dword =>
    obtain ⟨h0, h1, h2, h3, -⟩ := h
    simp only [set, getLong, h0, h1, h2, h3, append_byteOf]

end Width

end RtThread.Finsh
