import Mathlib.Data.List.GetD
import Mathlib.Tactic

/-!
# Lists in memory

Memory is a function from addresses to cells. `Holds` says that the cells from an
address on hold a list, and `StringAt` that they hold a list that ends before the
first zero, as the strings of C do.
-/

namespace Cells

open List Function

variable {β : Type*} {mem mem' : ℕ → β} {a b : ℕ} {c : β} {s t : List β}

/-- The cells from `a` on hold the list. -/
def Holds (mem : ℕ → β) : ℕ → List β → Prop
  | _, [] => True
  | a, c :: s => mem a = c ∧ Holds mem (a + 1) s

theorem holds_append : Holds mem a (s ++ t) ↔ Holds mem a s ∧ Holds mem (a + s.length) t := by
  induction s generalizing a with
  | nil => simp [Holds]
  | cons c s ih =>
    have haddr : a + (s.length + 1) = a + 1 + s.length := by omega
    simp only [cons_append, Holds, ih, length_cons, haddr, and_assoc]

theorem Holds.congr (h : Holds mem a s) (hmem : ∀ b, a ≤ b → b < a + s.length → mem' b = mem b) :
    Holds mem' a s := by
  induction s generalizing a with
  | nil => trivial
  | cons c s ih =>
    simp only [length_cons] at hmem
    refine ⟨(hmem a le_rfl (by omega)).trans h.1, ih h.2 fun b hb hb' => ?_⟩
    exact hmem b (by omega) (by omega)

theorem Holds.update (h : Holds mem a s) (hb : b < a ∨ a + s.length ≤ b) (c : β) :
    Holds (update mem b c) a s := by
  refine h.congr fun b' hb' hlt => update_of_ne ?_ _ _
  omega

/-- The list is extended by the cell behind it. -/
theorem Holds.put (h : Holds mem a s) (c : β) :
    Holds (Function.update mem (a + s.length) c) a (s ++ [c]) :=
  holds_append.mpr ⟨h.update (.inr le_rfl) c, update_self .., trivial⟩

/-- Write a list into the cells from `a` on. -/
def write (mem : ℕ → β) : ℕ → List β → ℕ → β
  | _, [] => mem
  | a, c :: s => write (update mem a c) (a + 1) s

theorem write_outside (hb : b < a ∨ a + s.length ≤ b) : write mem a s b = mem b := by
  induction s generalizing mem a with
  | nil => rfl
  | cons c s ih =>
    simp only [length_cons] at hb
    rw [write, ih (by omega), update_of_ne (by omega)]

theorem holds_write (mem : ℕ → β) (a : ℕ) (s : List β) : Holds (write mem a s) a s := by
  induction s generalizing mem a with
  | nil => trivial
  | cons c s ih =>
    refine ⟨?_, ih _ _⟩
    rw [write, write_outside (by omega), update_self]

/-- The cells of a list, behind those of the list in front of it. -/
theorem holds_getD (p s : List β) (c : β) : Holds (fun i => (p ++ s).getD i c) p.length s := by
  induction s generalizing p with
  | nil => trivial
  | cons d s ih =>
    have hnext := ih (p ++ [d])
    rw [append_assoc, length_append] at hnext
    exact ⟨by simp, hnext⟩

/-- The cells from `a` on. -/
def read (mem : ℕ → β) : (a n : ℕ) → List β
  | _, 0 => []
  | a, n + 1 => mem a :: read mem (a + 1) n

theorem Holds.read (h : Holds mem a s) : read mem a s.length = s := by
  induction s generalizing a with
  | nil => rfl
  | cons c s ih => rw [length_cons, read, h.1, ih h.2]

/-- Copy `n` cells, as if through another place. -/
def move (mem : ℕ → β) (dst src n : ℕ) : ℕ → β :=
  fun i => if dst ≤ i ∧ i < dst + n then mem (src + (i - dst)) else mem i

theorem move_zero (mem : ℕ → β) (dst src : ℕ) : move mem dst src 0 = mem := by
  funext i
  rw [move, if_neg (by omega)]

/-! ## Strings -/

section Strings

variable [Zero β]

/-- The cells from `a` on hold a string and the zero at its end. -/
structure StringAt (mem : ℕ → β) (a : ℕ) (s : List β) : Prop where
  holds : Holds mem a (s ++ [0])
  nonzero : 0 ∉ s

theorem StringAt.terminator (h : StringAt mem a []) : mem a = 0 := h.holds.1

theorem StringAt.end_zero (h : StringAt mem a s) : mem (a + s.length) = 0 :=
  (holds_append.mp h.holds).2.1

/-- A string holds the strings at its ends. -/
theorem StringAt.drop (h : StringAt mem a (s ++ t)) : StringAt mem (a + s.length) t where
  holds := by
    have hholds := h.holds
    rw [append_assoc] at hholds
    exact (holds_append.mp hholds).2
  nonzero ht := h.nonzero (mem_append_right s ht)

section

variable (h : StringAt mem a (c :: s))
include h

theorem StringAt.head : mem a = c := h.holds.1

theorem StringAt.ne_zero : c ≠ 0 := fun hc =>
  h.nonzero (by simp [hc])

/-- Two strings at one address begin with the same character. -/
theorem StringAt.head_eq (h' : StringAt mem a t) : t.head? = some c := by
  cases t with
  | nil => exact absurd (h.head.symm.trans h'.terminator) h.ne_zero
  | cons d t => rw [head?_cons, ← h'.head, h.head]

theorem StringAt.tail : StringAt mem (a + 1) s :=
  ⟨h.holds.2, fun hs => h.nonzero (mem_cons_of_mem c hs)⟩

end

theorem StringAt.unique (h : StringAt mem a s) (h' : StringAt mem a t) : s = t := by
  induction s generalizing a t with
  | nil =>
    cases t with
    | nil => rfl
    | cons d t => exact absurd (h'.head.symm.trans h.terminator) h'.ne_zero
  | cons c s ih =>
    obtain ⟨t, rfl⟩ : ∃ t', t = c :: t' := head?_eq_some_iff.mp (h.head_eq h')
    rw [ih h.tail h'.tail]

/-- A string ends where a zero is written. -/
theorem StringAt.cut (h : StringAt mem a (s ++ t)) (hmem : ∀ b < a + s.length, mem' b = mem b)
    (hzero : mem' (a + s.length) = 0) : StringAt mem' a s where
  holds := by
    have hs : Holds mem a s := by
      have hholds := h.holds
      rw [append_assoc] at hholds
      exact (holds_append.mp hholds).1
    exact holds_append.mpr ⟨hs.congr fun b _ hb => hmem b hb, hzero, trivial⟩
  nonzero hs := h.nonzero (mem_append_left t hs)

theorem StringAt.update (h : StringAt mem a s) (hb : b < a) (c : β) :
    StringAt (update mem b c) a s :=
  ⟨h.holds.update (.inl hb) c, h.nonzero⟩

/-! ## Buffers -/

/-- The first `n` cells hold the list, and zeros behind it. -/
def Padded (mem : ℕ → β) (n : ℕ) (s : List β) : Prop := ∀ i < n, mem i = s.getD i 0

variable {n : ℕ}

/-- The cell behind `s` is written, in place of what is left there. -/
theorem Padded.put (h : Padded mem n (s ++ t)) (ht : t.length ≤ 1) (c : β) :
    Padded (update mem s.length c) n (s ++ [c]) := by
  intro i hi
  rcases lt_trichotomy i s.length with hlt | rfl | hgt
  · rw [update_of_ne (by omega), h i hi, getD_append _ _ _ _ hlt, getD_append _ _ _ _ hlt]
  · simp
  · rw [update_of_ne (by omega), h i hi, getD_eq_default _ _ (by rw [length_append]; omega),
      getD_eq_default _ _ (by simpa using hgt)]

theorem Padded.of_zero (h : Padded mem n (s ++ [0])) : Padded mem n s := by
  intro i hi
  rw [h i hi]
  rcases lt_or_ge i s.length with hlt | hge
  · exact getD_append _ _ _ _ hlt
  · rw [getD_append_right _ _ _ _ hge, getD_eq_default s _ hge]
    cases i - s.length <;> rfl

section

variable (h : Padded mem n s)
include h

theorem Padded.holds (hn : s.length ≤ n) : Holds mem 0 s := by
  refine (holds_getD [] s 0).congr fun i _ hi => ?_
  rw [length_nil] at hi
  exact h i (by omega)

theorem Padded.stringAt (hs : 0 ∉ s) (hn : s.length < n) : StringAt mem 0 s := by
  refine ⟨holds_append.mpr ⟨h.holds hn.le, ?_, trivial⟩, hs⟩
  rw [Nat.zero_add, h _ hn, getD_eq_default _ _ le_rfl]

/-- A list without zeros ends before a cell that is zero. -/
theorem Padded.length_le {i : ℕ} (hs : 0 ∉ s) (hi : i < n) (hzero : mem i = 0) : s.length ≤ i := by
  by_contra hlt
  rw [not_le] at hlt
  rw [h i hi, getD_eq_getElem _ _ hlt] at hzero
  exact hs (hzero ▸ getElem_mem hlt)

/-- A buffer holds one list without zeros. -/
theorem Padded.ext (h' : Padded mem' n t) (hs : 0 ∉ s) (ht : 0 ∉ t) (hslen : s.length ≤ n)
    (htlen : t.length ≤ n) (heq : ∀ i < n, mem i = mem' i) : s = t := by
  have hlen : s.length = t.length := by
    rcases lt_trichotomy s.length t.length with hlt | heq' | hgt
    · have hend : mem' s.length = 0 := by
        rw [← heq _ (by omega), h _ (by omega), getD_eq_default _ _ le_rfl]
      have := h'.length_le ht (by omega) hend
      omega
    · exact heq'
    · have hend : mem t.length = 0 := by
        rw [heq _ (by omega), h' _ (by omega), getD_eq_default _ _ le_rfl]
      have := h.length_le hs (by omega) hend
      omega
  refine ext_getElem hlen fun i hi hi' => ?_
  rw [← getD_eq_getElem _ 0 hi, ← getD_eq_getElem _ 0 hi', ← h i (by omega),
    ← h' i (by omega), heq i (by omega)]

end

/-- A cell is inserted into the list. -/
theorem Padded.insert (h : Padded mem n (s ++ t)) (c : β) :
    Padded (update (move mem (s.length + 1) s.length t.length) s.length c) n (s ++ c :: t) := by
  intro i hi
  rcases lt_trichotomy i s.length with hlt | rfl | hgt
  · rw [update_of_ne (by omega), move, if_neg (by omega), h i hi,
      getD_append _ _ _ _ hlt, getD_append _ _ _ _ hlt]
  · rw [update_self, getD_append_right _ _ _ _ le_rfl, Nat.sub_self]
    rfl
  · obtain ⟨k, rfl⟩ : ∃ k, i = s.length + 1 + k := ⟨i - s.length - 1, by omega⟩
    rw [update_of_ne (by omega), getD_append_right _ _ _ _ (by omega),
      show s.length + 1 + k - s.length = k + 1 by omega, getD_cons_succ, move]
    split_ifs with hin
    · rw [h _ (by omega), getD_append_right _ _ _ _ (by omega)]
      exact congrArg (t.getD · 0) (by omega)
    · rw [h _ hi, getD_eq_default _ _ (by rw [length_append]; omega),
        getD_eq_default _ _ (by omega)]

/-- A cell is deleted from the list. -/
theorem Padded.delete (h : Padded mem n (s ++ c :: t)) (hn : s.length + t.length < n) :
    Padded (update (move mem s.length (s.length + 1) t.length)
      (s.length + t.length) 0) n (s ++ t) := by
  intro i hi
  rcases lt_or_ge i s.length with hlt | hge
  · rw [update_of_ne (by omega), move, if_neg (by omega), h i hi,
      getD_append _ _ _ _ hlt, getD_append _ _ _ _ hlt]
  · obtain ⟨k, rfl⟩ : ∃ k, i = s.length + k := ⟨i - s.length, by omega⟩
    rw [getD_append_right _ _ _ _ (by omega), Nat.add_sub_cancel_left]
    rcases lt_trichotomy k t.length with hlt | rfl | hgt
    · rw [update_of_ne (by omega), move, if_pos (by omega), h _ (by omega),
        getD_append_right _ _ _ _ (by omega),
        show s.length + 1 + (s.length + k - s.length) - s.length = k + 1 by omega, getD_cons_succ]
    · rw [update_self, getD_eq_default _ _ le_rfl]
    · rw [update_of_ne (by omega), move, if_neg (by omega), h _ hi,
        getD_eq_default _ _ (by rw [length_append, length_cons]; omega),
        getD_eq_default _ _ (by omega)]

end Strings

end Cells
