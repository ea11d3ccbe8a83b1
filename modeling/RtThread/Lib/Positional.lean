import Mathlib.Data.BitVec
import Mathlib.Tactic

/-!
# Numbers read digit by digit

A number is written with its first digit in front (`number`). A loop that multiplies a word by
the base and adds a digit has, modulo the size of the word, the number that is written
(`foldl_eq_number`); for a base that is a power of two the multiplication may be a shift and the
addition a bitwise or (`shiftLeft_or`).

With a digit that is too large the shift and the bitwise or still forget what was there before:
a word that such a round leaves as it is can only be the one that the digit, taken often enough,
makes of zero (`eq_of_shiftIn_eq`).
-/

namespace Positional

open List Function

variable {α : Type*} {w b s : ℕ} {value : α → ℕ}

/-- The number that is written with the digits, the first one in front. -/
def number (b : ℕ) (value : α → ℕ) (digits : List α) : ℕ :=
  Nat.ofDigits b (digits.map value).reverse

theorem number_concat (digits : List α) (d : α) :
    number b value (digits ++ [d]) = number b value digits * b + value d := by
  rw [number, number, map_append, map_singleton, reverse_append,
    reverse_singleton, singleton_append, Nat.ofDigits_cons]
  ring

/-- A loop over the digits that multiplies by the base and adds. -/
theorem foldl_eq_number {step : BitVec w → α → BitVec w} {digits : List α}
    (h : ∀ v, ∀ d ∈ digits, step v d = v * BitVec.ofNat w b + BitVec.ofNat w (value d)) :
    digits.foldl step 0 = BitVec.ofNat w (number b value digits) := by
  induction digits using reverseRecOn with
  | nil => rfl
  | append_singleton digits d ih =>
    rw [foldl_append, ih fun v c hc => h v c (by simp [hc]), foldl_cons, foldl_nil,
      h _ d (by simp), number_concat, BitVec.ofNat_add, BitVec.ofNat_mul]

theorem shiftLeft_or (v : BitVec w) {d : ℕ} (hd : d < 2 ^ s) :
    v <<< s ||| BitVec.ofNat w d = v * BitVec.ofNat w (2 ^ s) + BitVec.ofNat w d := by
  have hv : v = BitVec.ofNat w v.toNat := by rw [BitVec.ofNat_toNat, BitVec.setWidth_eq]
  have hnat : (v <<< s ||| BitVec.ofNat w d).toNat = (v.toNat * 2 ^ s + d) % 2 ^ w := by
    rw [BitVec.toNat_or, BitVec.toNat_shiftLeft, BitVec.toNat_ofNat, ← Nat.or_mod_two_pow,
      ← Nat.shiftLeft_add_eq_or_of_lt hd, Nat.shiftLeft_eq]
  apply BitVec.eq_of_toNat_eq
  rw [hnat]
  nth_rewrite 2 [hv]
  rw [← BitVec.ofNat_mul, ← BitVec.ofNat_add, BitVec.toNat_ofNat]

/-- A round with the digit `t`, which may be too large. -/
def shiftIn (s : ℕ) (t v : BitVec w) : BitVec w := v <<< s ||| t

theorem iterate_shiftIn (t v : BitVec w) (n : ℕ) :
    (shiftIn s t)^[n] v = v <<< (s * n) ||| (shiftIn s t)^[n] 0 := by
  induction n with
  | zero => simp
  | succ n ih =>
    rw [iterate_succ_apply', iterate_succ_apply', ih, shiftIn, shiftIn,
      BitVec.shiftLeft_or_distrib, ← BitVec.shiftLeft_add, BitVec.or_assoc, Nat.mul_succ]

theorem eq_of_shiftIn_eq {t v : BitVec w} {n : ℕ} (hn : w ≤ s * n) (h : shiftIn s t v = v) :
    v = (shiftIn s t)^[n] 0 := by
  have hfix : IsFixedPt (shiftIn s t) v := h
  calc v = (shiftIn s t)^[n] v := (hfix.iterate n).symm
    _ = v <<< (s * n) ||| (shiftIn s t)^[n] 0 := iterate_shiftIn t v n
    _ = (shiftIn s t)^[n] 0 := by
      rw [BitVec.shiftLeft_eq_zero hn, BitVec.zero_or]

end Positional
