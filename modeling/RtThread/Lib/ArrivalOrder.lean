import Mathlib.Data.List.Sort

/-!
# Queues sorted by key and arrival

A queue of elements `a` with a key `key a` and a number `arrived a`, which says when
the element came. The queue is sorted if smaller keys come first, and elements with
the same key are in the order in which they came.

* `sorted_insert_iff`: an element that comes now and is put before the first element
  with a larger key keeps the queue sorted.
* `sorted_iff_fits`: where one element gets another key, the queue stays sorted iff
  the element fits its place with it.
-/

namespace ArrivalOrder

open List

variable {α : Type*} {key key' arrived arrived' : α → ℕ} {a b c : α} {l l₁ l₂ : List α}

/-- `a` has its place before `b`. -/
def Before (key arrived : α → ℕ) (a b : α) : Prop :=
  key a < key b ∨ key a = key b ∧ arrived a < arrived b
  deriving Decidable

/-- Each element has its place before those behind it. -/
def Sorted (key arrived : α → ℕ) (l : List α) : Prop := l.Pairwise (Before key arrived)
  deriving Decidable

theorem Before.key_le (h : Before key arrived a b) : key a ≤ key b := by
  rcases h with h | ⟨h, -⟩
  · exact h.le
  · exact h.le

theorem Before.trans (h : Before key arrived a b) (h' : Before key arrived b c) :
    Before key arrived a c := by
  unfold Before at *
  omega

theorem Sorted.congr (h : Sorted key arrived l) (hkey : ∀ a ∈ l, key' a = key a)
    (harr : ∀ a ∈ l, arrived' a = arrived a) : Sorted key' arrived' l := by
  refine Pairwise.imp_of_mem (fun {a b} ha hb hab => ?_) h
  unfold Before at *
  rwa [hkey a ha, hkey b hb, harr a ha, harr b hb]

/-- The first element has a smallest key. -/
theorem Sorted.head_le (h : Sorted key arrived (a :: l)) (hb : b ∈ l) : key a ≤ key b :=
  ((pairwise_cons.mp h).1 b hb).key_le

/-- An element that comes after all others is put before the first one with a larger key. -/
theorem Sorted.insert (h : Sorted key arrived l) (hlast : ∀ b ∈ l, arrived b < arrived a) :
    Sorted key arrived (l.orderedInsert (fun a b => key a < key b) a) := by
  induction l with
  | nil => exact pairwise_singleton _ _
  | cons b l ih =>
    obtain ⟨hb, hl⟩ := pairwise_cons.mp h
    rw [orderedInsert]
    split_ifs with hlt
    · refine pairwise_cons.mpr ⟨fun c hc => ?_, h⟩
      rcases mem_cons.mp hc with rfl | hc
      · exact .inl hlt
      · exact Before.trans (.inl hlt) (hb c hc)
    · refine pairwise_cons.mpr ⟨fun c hc => ?_, ih hl fun c hc => hlast c (by simp [hc])⟩
      rcases (mem_orderedInsert _).mp hc with rfl | hc
      · rcases Nat.lt_or_eq_of_le (not_lt.mp hlt) with hlt' | heq
        · exact .inl hlt'
        · exact .inr ⟨heq, hlast b (by simp)⟩
      · exact hb c hc

/-- The queue was sorted iff it is sorted with the new element. -/
theorem sorted_insert_iff (harr : ∀ b ∈ l, arrived' b = arrived b)
    (hlast : ∀ b ∈ l, arrived b < arrived' a) :
    Sorted key arrived' (l.orderedInsert (fun a b => key a < key b) a) ↔ Sorted key arrived l := by
  constructor
  · intro h
    exact Sorted.congr (Pairwise.sublist (sublist_orderedInsert a l) h)
      (fun _ _ => rfl) fun b hb => (harr b hb).symm
  · intro h
    refine Sorted.insert (h.congr (fun _ _ => rfl) harr) fun b hb => ?_
    rw [harr b hb]
    exact hlast b hb

/-- The elements whose keys change fit their places in `l` with their new keys. -/
def Fits (key key' arrived : α → ℕ) (l : List α) : Prop :=
  ∀ l₁ a l₂, l = l₁ ++ a :: l₂ → key' a ≠ key a →
    (∀ b ∈ l₁, Before key' arrived b a) ∧ ∀ b ∈ l₂, Before key' arrived a b

theorem Sorted.fits (h : Sorted key' arrived l) : Fits key key' arrived l := by
  rintro l₁ a l₂ rfl -
  obtain ⟨-, h₂, hcross⟩ := pairwise_append.mp h
  exact ⟨fun b hb => hcross b hb a (by simp), (pairwise_cons.mp h₂).1⟩

/-- Only `a` gets another key. -/
theorem sorted_change (h : Sorted key arrived (l₁ ++ a :: l₂)) (hnodup : (l₁ ++ a :: l₂).Nodup)
    (hkey : ∀ b ≠ a, key' b = key b) (hbefore : ∀ b ∈ l₁, Before key' arrived b a)
    (hafter : ∀ b ∈ l₂, Before key' arrived a b) : Sorted key' arrived (l₁ ++ a :: l₂) := by
  have hne₁ : ∀ b ∈ l₁, b ≠ a := by
    rintro b hb rfl
    exact (nodup_append.mp hnodup).2.2 b hb b (by simp) rfl
  have hne₂ : ∀ b ∈ l₂, b ≠ a := by
    rintro b hb rfl
    exact (nodup_cons.mp (nodup_append.mp hnodup).2.1).1 hb
  -- all other pairs have the keys they had
  have hkeep : ∀ b ≠ a, ∀ c ≠ a, Before key arrived b c → Before key' arrived b c := by
    intro b hb c hc hbc
    unfold Before at *
    rwa [hkey b hb, hkey c hc]
  obtain ⟨h₁, h₂, h₁₂⟩ := pairwise_append.mp h
  obtain ⟨-, h₂⟩ := pairwise_cons.mp h₂
  refine pairwise_append.mpr ⟨?_, pairwise_cons.mpr ⟨hafter, ?_⟩, fun b hb c hc => ?_⟩
  · exact h₁.imp_of_mem fun hb hc => hkeep _ (hne₁ _ hb) _ (hne₁ _ hc)
  · exact h₂.imp_of_mem fun hb hc => hkeep _ (hne₂ _ hb) _ (hne₂ _ hc)
  · rcases mem_cons.mp hc with rfl | hc'
    · exact hbefore b hb
    · exact hkeep b (hne₁ b hb) c (hne₂ c hc') (h₁₂ b hb c hc)

theorem sorted_iff_fits (h : Sorted key arrived l) (hnodup : l.Nodup)
    (hkey : ∀ b ≠ a, key' b = key b) : Sorted key' arrived l ↔ Fits key key' arrived l := by
  refine ⟨Sorted.fits, fun hfits => ?_⟩
  by_cases ha : a ∈ l ∧ key' a ≠ key a
  · obtain ⟨l₁, l₂, rfl⟩ := append_of_mem ha.1
    obtain ⟨hbefore, hafter⟩ := hfits l₁ a l₂ rfl ha.2
    exact sorted_change h hnodup hkey hbefore hafter
  · refine h.congr (fun b hb => ?_) fun _ _ => rfl
    by_cases hba : b = a
    · subst hba
      exact not_not.mp fun hne => ha ⟨hb, hne⟩
    · exact hkey b hba

end ArrivalOrder
