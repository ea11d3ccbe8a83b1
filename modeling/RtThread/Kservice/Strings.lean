import RtThread.Dfs.Basic

/-!
# Strings in buffers

`rt_strncpy` and `rt_strncmp` (`src/kservice.c`) on memory, where a string need not end with a
zero: the buffers of the shell may be full.

* `padded_rtStrncpy`: the buffer holds the string and zeros behind it.
* `rtStrncmp_eq_zero_iff`: buffers that hold strings and zeros behind them are found equal just
  if the strings are.
-/

namespace RtThread.Kservice

open Cells List Function

/-- `while (--n != 0) *d++ = 0;`, and `rt_memset` with 0. -/
def zeroFill (mem : CMem) : (d n : ℕ) → CMem
  | _, 0 => mem
  | d, n + 1 => zeroFill (update mem d 0) (d + 1) n

/-- The loop of `rt_strncpy` (lines 409–418), with `n` characters left to be written. -/
def strncpyLoop (src : ℕ → CChar) (mem : CMem) : (d s n : ℕ) → CMem
  | _, _, 0 => mem
  | d, s, n + 1 =>
    let mem := update mem d (src s)
    -- NUL pad the remaining n-1 bytes
    if src s = 0 then zeroFill mem (d + 1) n else strncpyLoop src mem (d + 1) (s + 1) n

/-- `rt_strncpy`. -/
def rtStrncpy (mem : CMem) (dst : ℕ) (src : ℕ → CChar) (n : ℕ) : CMem := strncpyLoop src mem dst 0 n

/-- The loop of `rt_strncmp` (lines 438–443), from the character `i` on. -/
def strncmpFrom (cs ct : ℕ → CChar) : (count i : ℕ) → (res : CChar) → CChar
  | 0, _, res => res
  | count + 1, i, _ =>
    let res := cs i - ct i
    if res ≠ 0 ∨ cs i = 0 then res else strncmpFrom cs ct count (i + 1) res

/-- `rt_strncmp`. -/
def rtStrncmp (cs ct : ℕ → CChar) (count : ℕ) : CChar := strncmpFrom cs ct count 0 0

variable {mem : CMem} {src cs ct : ℕ → CChar} {s t : List CChar} {n : ℕ} {d k i : ℕ}

theorem zeroFill_apply (mem : CMem) (d n i : ℕ) :
    zeroFill mem d n i = if d ≤ i ∧ i < d + n then 0 else mem i := by
  induction n generalizing mem d with
  | zero =>
    rw [if_neg (by omega)]
    rfl
  | succ n ih =>
    rw [zeroFill, ih]
    by_cases hi : i = d
    · subst hi
      rw [if_neg (by omega), update_self, if_pos (by omega)]
    · rw [update_of_ne hi]
      exact if_congr (by omega) rfl rfl

theorem padded_zeroFill (mem : CMem) (n : ℕ) : Padded (zeroFill mem 0 n) n [] := by
  intro i hi
  rw [zeroFill_apply, if_pos (by omega)]
  rfl

theorem strncpyLoop_outside (hi : i < d ∨ d + n ≤ i) : strncpyLoop src mem d k n i = mem i := by
  induction n generalizing mem d k with
  | zero => rfl
  | succ n ih =>
    rw [strncpyLoop]
    split_ifs
    · rw [zeroFill_apply, if_neg (by omega), update_of_ne (by omega)]
    · rw [ih (by omega), update_of_ne (by omega)]

/-- From the character `k` of a string on, what is copied is the string and zeros behind it. -/
theorem strncpyLoop_apply (hs : 0 ∉ s) (mem : CMem) (d k : ℕ) {j : ℕ} (hj : j < n) :
    strncpyLoop (fun i => s.getD i 0) mem d k n (d + j) = s.getD (k + j) 0 := by
  induction n generalizing mem d k j with
  | zero => omega
  | succ n ih =>
    rw [strncpyLoop]
    split_ifs with hend
    · -- the string has ended
      have hlen : s.length ≤ k := by
        by_contra hlt
        rw [not_le] at hlt
        rw [getD_eq_getElem _ _ hlt] at hend
        exact hs (hend ▸ getElem_mem hlt)
      rw [zeroFill_apply, getD_eq_default s (n := k + j) _ (by omega)]
      split_ifs with hin
      · rfl
      · rw [show d + j = d by omega, update_self, hend]
    · cases j with
      | zero => rw [strncpyLoop_outside (by omega), Nat.add_zero, update_self, Nat.add_zero]
      | succ j =>
        rw [show d + (j + 1) = d + 1 + j by omega, ih _ _ _ (by omega)]
        exact congrArg (s.getD · 0) (by omega)

theorem padded_rtStrncpy (hs : 0 ∉ s) : Padded (rtStrncpy mem 0 (fun i => s.getD i 0) n) n s := by
  intro i hi
  have hcopied := strncpyLoop_apply hs mem 0 0 hi
  rwa [Nat.zero_add] at hcopied

/-- The comparison from the character `i` on, of buffers with room for `n` characters. -/
theorem strncmpFrom_eq_zero_iff {count i : ℕ} (hn : i + count = n) (hcs : Padded cs n s)
    (hct : Padded ct n t) (hs : 0 ∉ s) (ht : 0 ∉ t) :
    strncmpFrom cs ct count i 0 = 0 ↔ ∀ j, i ≤ j → j < n → cs j = ct j := by
  induction count generalizing i with
  | zero => exact iff_of_true rfl fun j hij hj => absurd hj (by omega)
  | succ count ih =>
    have hsub : cs i - ct i = 0 ↔ cs i = ct i := by
      rw [UInt8.sub_eq_iff_eq_add, UInt8.zero_add]
    have hi : i < n := by omega
    rw [strncmpFrom]
    by_cases heq : cs i = ct i
    · rw [hsub.mpr heq]
      by_cases hend : cs i = 0
      · -- both strings have ended
        have hslen := hcs.length_le hs hi hend
        have htlen := hct.length_le ht hi (heq ▸ hend)
        rw [if_pos (.inr hend)]
        refine iff_of_true rfl fun j hij hj => ?_
        rw [hcs j hj, hct j hj, getD_eq_default _ _ (by omega), getD_eq_default _ _ (by omega)]
      · rw [if_neg (by simp [hend]), ih (by omega)]
        refine ⟨fun h j hij hj => ?_, fun h j hij hj => h j (by omega) hj⟩
        rcases Nat.eq_or_lt_of_le hij with rfl | hlt
        · exact heq
        · exact h j hlt hj
    · have hstop : cs i - ct i ≠ 0 := mt hsub.mp heq
      rw [if_pos (.inl hstop)]
      exact iff_of_false hstop fun h => heq (h i le_rfl hi)

theorem rtStrncmp_eq_zero_iff (hcs : Padded cs n s) (hct : Padded ct n t) (hs : 0 ∉ s)
    (ht : 0 ∉ t) (hslen : s.length ≤ n) (htlen : t.length ≤ n) : rtStrncmp cs ct n = 0 ↔ s = t := by
  rw [rtStrncmp, strncmpFrom_eq_zero_iff (Nat.zero_add n) hcs hct hs ht]
  constructor
  · intro h
    exact hcs.ext hct hs ht hslen htlen fun i hi => h i (Nat.zero_le i) hi
  · rintro rfl j - hj
    rw [hcs j hj, hct j hj]

end RtThread.Kservice
