import RtThread.Lib.Cells

/-!
# Circular buffers

A buffer of `size` cells, a read index and a number of entries: the entries are
the cells from the read index on, wrapping around at `size`. Putting a value
into the cell behind the last entry appends it (`contents_put`); moving the
read index by one drops the first entry (`contents_take`). Whole lists are put
one value after another (`putAll`), which writes one piece of memory, or one at
the end of the buffer and one at its beginning (`putAll_eq_write`,
`putAll_wrap`); they are read in the same pieces (`contents_linear`,
`contents_wrap`).
-/

namespace Circular

open List Function Nat

variable {α : Type*}

/-- The `n` entries of the buffer from index `out` on. -/
def contents (pool : ℕ → α) (size out n : ℕ) : List α :=
  (range n).map fun i => pool ((out + i) % size)

@[simp] theorem length_contents (pool : ℕ → α) (size out n : ℕ) :
    (contents pool size out n).length = n := by
  simp [contents]

variable {size out : ℕ}

/-- Two entries of a buffer that is not overfull are in different cells. -/
theorem index_ne {i j : ℕ} (hij : i < j) (hj : j < size) : (out + i) % size ≠ (out + j) % size := by
  intro h
  have hmod : i ≡ j [MOD size] := ModEq.add_left_cancel' out h
  rw [ModEq, mod_eq_of_lt (hij.trans hj), mod_eq_of_lt hj] at hmod
  omega

variable {pool : ℕ → α} {n : ℕ}

theorem contents_put (hn : n < size) (v : α) :
    contents (update pool ((out + n) % size) v) size out (n + 1) =
      contents pool size out n ++ [v] := by
  unfold contents
  rw [range_succ, map_append, map_singleton, update_self]
  congr 1
  refine map_congr_left fun i hi => ?_
  rw [update_of_ne (index_ne (mem_range.mp hi) hn)]

theorem contents_take (pool : ℕ → α) (size out n : ℕ) :
    contents pool size out (n + 1) =
      pool (out % size) :: contents pool size ((out + 1) % size) n := by
  unfold contents
  rw [range_succ_eq_map, map_cons, map_map]
  congr 1
  refine map_congr_left fun i _ => ?_
  simp only [comp_apply, mod_add_mod]
  rw [show out + succ i = out + 1 + i by omega]

/-- An index that is set to 0 when it reaches the end goes around modulo `size`. -/
theorem wrap_eq_mod {i : ℕ} (hi : i < size) :
    (if size ≤ i + 1 then 0 else i + 1) = (i + 1) % size := by
  split_ifs with h
  · rw [show i + 1 = size by omega, mod_self]
  · rw [mod_eq_of_lt (not_le.mp h)]

/-! ## Several entries -/

theorem contents_mod (pool : ℕ → α) (size out n : ℕ) :
    contents pool size (out % size) n = contents pool size out n := by
  refine map_congr_left fun i _ => ?_
  rw [mod_add_mod]

theorem contents_add (pool : ℕ → α) (size out m n : ℕ) :
    contents pool size out (m + n) =
      contents pool size out m ++ contents pool size (out + m) n := by
  unfold contents
  rw [range_add, map_append, map_map]
  congr 1
  refine map_congr_left fun i _ => ?_
  rw [comp_apply, add_assoc]

/-- Entries that do not reach beyond the end of the buffer are read in one piece. -/
theorem contents_linear (h : out + n ≤ size) :
    contents pool size out n = (range n).map fun i => pool (out + i) := by
  refine map_congr_left fun i hi => ?_
  rw [mod_eq_of_lt]
  have := mem_range.mp hi
  omega

/-- Entries that do are read in two. -/
theorem contents_wrap (hout : out ≤ size) (h : size ≤ out + n) (hn : n ≤ size) :
    contents pool size out n =
      (range (size - out)).map (fun i => pool (out + i)) ++
        (range (n - (size - out))).map fun i => pool (0 + i) := by
  obtain ⟨k, rfl⟩ : ∃ k, n = (size - out) + k := ⟨n - (size - out), by omega⟩
  rw [contents_add, contents_linear (by omega), Nat.add_sub_cancel_left]
  rw [← contents_mod, show out + (size - out) = size by omega, mod_self,
    contents_linear (by omega)]

/-- Put the values of a list into the cells from `pos` on. -/
def putAll (pool : ℕ → α) (size : ℕ) : ℕ → List α → ℕ → α
  | _, [] => pool
  | pos, v :: vs => putAll (update pool (pos % size) v) size (pos + 1) vs

theorem putAll_append (pool : ℕ → α) (size pos : ℕ) (vs vs' : List α) :
    putAll pool size pos (vs ++ vs') =
      putAll (putAll pool size pos vs) size (pos + vs.length) vs' := by
  induction vs generalizing pool pos with
  | nil => rfl
  | cons v vs ih =>
    rw [cons_append, putAll, putAll, ih, length_cons, add_right_comm, add_assoc]

theorem putAll_mod (pool : ℕ → α) (size pos : ℕ) (vs : List α) :
    putAll pool size (pos % size) vs = putAll pool size pos vs := by
  induction vs generalizing pool pos with
  | nil => rfl
  | cons v vs ih =>
    rw [putAll, putAll, mod_mod, ← ih _ (pos % size + 1), mod_add_mod, ih]

variable {vs : List α} {pos : ℕ}

/-- The list goes behind the entries there are. -/
theorem contents_putAll (h : n + vs.length ≤ size) :
    contents (putAll pool size (out + n) vs) size out (n + vs.length) =
      contents pool size out n ++ vs := by
  induction vs generalizing pool n with
  | nil => rw [append_nil, putAll, length_nil, add_zero]
  | cons v vs ih =>
    rw [length_cons] at h
    rw [putAll, length_cons, add_comm vs.length, ← add_assoc, add_assoc out,
      ih (by omega), contents_put (by omega), append_assoc, singleton_append]

theorem putAll_eq_write (h : pos + vs.length ≤ size) :
    putAll pool size pos vs = Cells.write pool pos vs := by
  induction vs generalizing pool pos with
  | nil => rfl
  | cons v vs ih =>
    rw [length_cons] at h
    rw [putAll, Cells.write, mod_eq_of_lt (by omega), ih (by omega)]

theorem putAll_wrap (hpos : pos ≤ size) (h : size ≤ pos + vs.length) (hvs : vs.length ≤ size) :
    putAll pool size pos vs =
      Cells.write (Cells.write pool pos (vs.take (size - pos))) 0 (vs.drop (size - pos)) := by
  have hlen : (vs.take (size - pos)).length = size - pos := by
    rw [length_take]
    omega
  conv_lhs => rw [← take_append_drop (size - pos) vs]
  rw [putAll_append, hlen, ← putAll_mod _ _ (pos + (size - pos)), Nat.add_sub_cancel' hpos,
    Nat.mod_self, putAll_eq_write (by rw [length_drop]; omega), putAll_eq_write (by omega)]

end Circular
