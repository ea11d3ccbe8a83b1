import Mathlib.Tactic

/-!
# Singly linked lists

A list of nodes is linked through a field `next : α → Option α`, `none` being the
null pointer. `Linked next p l` says that following `next` from the pointer `p`
meets the nodes of `l`, in order, and ends at `none`. Writing to the field of a
node that is not in the list changes nothing (`Linked.update`); the other rules
are those of a stack (`Linked.cons`, `Linked.uncons`) and of appending behind the
last node (`Linked.append`).
-/

namespace LinkedList

open Function List

variable {α : Type*} {next next' : α → Option α} {p : Option α} {a : α} {l : List α}

/-- The nodes of `l` are linked, from the pointer `p` to the null pointer. -/
def Linked (next : α → Option α) : Option α → List α → Prop
  | p, [] => p = none
  | p, a :: l => p = some a ∧ Linked next (next a) l

theorem Linked.head (h : Linked next p l) : p = l.head? := by
  cases l with
  | nil => exact h
  | cons a l => exact h.1

/-- The list depends on the fields of its nodes only. -/
theorem Linked.congr (h : Linked next p l) (hsame : ∀ a ∈ l, next' a = next a) :
    Linked next' p l := by
  induction l generalizing p with
  | nil => exact h
  | cons a l ih =>
    refine ⟨h.1, ?_⟩
    rw [hsame a (by simp)]
    exact ih h.2 fun b hb => hsame b (by simp [hb])

theorem Linked.uncons (h : Linked next (some a) l) :
    ∃ l', l = a :: l' ∧ Linked next (next a) l' := by
  cases l with
  | nil => cases h
  | cons b l =>
    obtain ⟨heq, hl⟩ := h
    cases heq
    exact ⟨l, rfl, hl⟩

/-- The nodes `f i`, …, `f (m - 1)`, each linked to the next one. -/
theorem linked_range (next : α → Option α) {f : ℕ → α} {m : ℕ}
    (hnext : ∀ j < m, next (f j) = if j + 1 < m then some (f (j + 1)) else none) (n i : ℕ)
    (hi : i + n = m) :
    Linked next (if i < m then some (f i) else none) ((range' i n).map f) := by
  induction n generalizing i with
  | zero => exact if_neg (by omega)
  | succ n ih =>
    refine ⟨if_pos (by omega), ?_⟩
    rw [hnext i (by omega)]
    exact ih (i + 1) (by omega)

variable [DecidableEq α]

variable (h : Linked next p l)
include h

theorem Linked.update (ha : a ∉ l) (q : Option α) : Linked (update next a q) p l := by
  refine h.congr fun b hb => update_of_ne ?_ ..
  rintro rfl
  exact ha hb

/-- A node is put in front. -/
theorem Linked.cons (ha : a ∉ l) : Linked (Function.update next a p) (some a) (a :: l) := by
  refine ⟨rfl, ?_⟩
  rw [update_self]
  exact h.update ha p

/-- A node whose field is null is put behind the last one, `b`. -/
theorem Linked.append {b : α} (hlast : l.getLast? = some b) (hnd : l.Nodup) (ha : a ∉ l)
    (hnext : next a = none) : Linked (Function.update next b (some a)) p (l ++ [a]) := by
  induction l generalizing p with
  | nil => cases hlast
  | cons c l ih =>
    obtain ⟨hc, hnd'⟩ := nodup_cons.mp hnd
    obtain ⟨hp, hl⟩ := h
    refine ⟨hp, ?_⟩
    cases l with
    | nil =>
      obtain rfl : c = b := by simpa using hlast
      have hac : a ≠ c := by
        rintro rfl
        exact ha (by simp)
      refine ⟨by rw [update_self], ?_⟩
      rw [update_of_ne hac]
      exact hnext
    | cons d l =>
      have hlast' : (d :: l).getLast? = some b := by simpa using hlast
      have hcb : c ≠ b := by
        rintro rfl
        exact hc (mem_of_getLast? hlast')
      rw [update_of_ne hcb]
      exact ih hl hlast' hnd' fun hm => ha (by simp [hm])

end LinkedList
