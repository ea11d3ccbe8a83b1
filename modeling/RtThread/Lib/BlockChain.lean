import Mathlib.Tactic

/-!
# Chains of blocks in memory

A heap keeps its blocks as a doubly linked list of headers in the memory that it
manages. This module has what such heaps share.

* Records in word memory: a record at address `a` keeps its field `i` in the
  word `a + 4 * i`. Records that are `Apart` do not share words.
* `Chain`: the addresses of a list are linked by `next` and `prev` and at least
  a header apart. `Chain.insert` and `Chain.remove` are the two edits: a new
  header in the middle of a block, and a header that is taken out.
* `Alternating`: no two neighbours of the list are both free. `alternating_middle`
  takes this apart around one block, which is how things are before the block
  is merged with its neighbours.
-/

namespace BlockChain

open List Function Option

/-! ## Records -/

/-- Field `i` of the record at `a`. -/
def field (mem : ℕ → ℕ) (a i : ℕ) : ℕ := mem (a + 4 * i)

/-- Write `v` to field `i` of the record at `a`. -/
def setField (mem : ℕ → ℕ) (a i v : ℕ) : ℕ → ℕ := update mem (a + 4 * i) v

/-- Two records of `d` bytes are the same or do not overlap. -/
def Apart (d a b : ℕ) : Prop := a = b ∨ a + d ≤ b ∨ b + d ≤ a

theorem Apart.symm {d a b : ℕ} (h : Apart d a b) : Apart d b a := by
  unfold Apart at *
  omega

theorem field_setField (mem : ℕ → ℕ) (a o i v : ℕ) :
    field (setField mem a i v) o i = if o = a then v else field mem o i := by
  unfold field setField
  rw [update_apply]
  simp only [Nat.add_right_cancel_iff]

variable {mem : ℕ → ℕ} {d a o i j v : ℕ} {xs ys : List ℕ}

/-- Writing a field leaves the other fields of all records alone. -/
theorem field_setField_ne (h : Apart d o a) (hi : 4 * i < d) (hj : 4 * j < d) (hij : j ≠ i) :
    field (setField mem a i v) o j = field mem o j := by
  refine update_of_ne ?_ _ _
  unfold Apart at h
  omega

/-- What a write to a record changes in the records apart from it. -/
theorem field_setField_apart (h : Apart d o a) (hi : 4 * i < d) (hj : 4 * j < d) :
    field (setField mem a i v) o j = if o = a ∧ j = i then v else field mem o j := by
  by_cases hij : j = i
  · subst hij
    rw [field_setField]
    simp
  · rw [field_setField_ne h hi hj hij, if_neg fun hx => hij hx.2]

/-- A word outside a record is not changed by a write to the record. -/
theorem setField_of_outside {d a i v w : ℕ} (hi : 4 * i < d) (hw : w < a ∨ a + d ≤ w) :
    setField mem a i v w = mem w := by
  refine update_of_ne ?_ _ _
  omega

/-! ## Chains -/

section Chain

variable (hdr : ℕ) (tracked : ℕ → Prop) (next prev : ℕ → ℕ)

/-- Block `b` follows block `a`. The back links are kept for the `tracked` blocks only. -/
def Linked (a b : ℕ) : Prop := next a = b ∧ a + hdr ≤ b ∧ (tracked b → prev b = a)

/-- The blocks of the list follow each other. -/
def Chain (l : List ℕ) : Prop := l.IsChain (Linked hdr tracked next prev)

variable {hdr tracked next prev} {next' prev' : ℕ → ℕ} {l xs ys : List ℕ} {a b c : ℕ} {e : ℕ}

/-- The blocks are in the order of their addresses. -/
theorem Chain.sorted (h : Chain hdr tracked next prev l) : l.Pairwise fun a b => a + hdr ≤ b := by
  have htrans : IsTrans ℕ fun a b => a + hdr ≤ b := ⟨fun a b c hab hbc => by omega⟩
  exact isChain_iff_pairwise.mp (h.imp fun a b hab => hab.2.1)

theorem Linked.congr (h : Linked hdr tracked next prev a b) (hnext : next' a = next a)
    (hprev : tracked b → prev' b = prev b) : Linked hdr tracked next' prev' a b :=
  ⟨by rw [hnext, h.1], h.2.1, fun ht => by rw [hprev ht, h.2.2 ht]⟩

theorem Chain.congr (h : Chain hdr tracked next prev l) (hnext : ∀ o ∈ l, next' o = next o)
    (hprev : ∀ o ∈ l, tracked o → prev' o = prev o) : Chain hdr tracked next' prev' l :=
  h.imp_of_mem_imp fun a b ha hb hab => hab.congr (hnext a ha) (hprev b hb)

theorem Chain.nodup (hpos : 0 < hdr) (h : Chain hdr tracked next prev l) : l.Nodup :=
  h.sorted.imp fun {a b} hab => by omega

/-- The headers do not overlap. -/
theorem Chain.apart (h : Chain hdr tracked next prev l) : ∀ a ∈ l, ∀ b ∈ l, Apart hdr a b := by
  have hs := h.sorted
  induction l with
  | nil => simp
  | cons x l ih =>
    rw [pairwise_cons] at hs
    have ih' := ih h.tail hs.2
    intro a ha b hb
    rw [mem_cons] at ha hb
    rcases ha with rfl | ha
    · rcases hb with rfl | hb
      · exact .inl rfl
      · exact .inr (.inl (hs.1 b hb))
    · rcases hb with rfl | hb
      · exact .inr (.inr (hs.1 a ha))
      · exact ih' a ha b hb

theorem chain_middle : Chain hdr tracked next prev (xs ++ a :: b :: ys) ↔
    Chain hdr tracked next prev (xs ++ [a]) ∧ Linked hdr tracked next prev a b ∧
      Chain hdr tracked next prev (b :: ys) :=
  isChain_append_cons_cons

/-- What follows block `a`. -/
theorem Chain.linked (h : Chain hdr tracked next prev (xs ++ a :: b :: ys)) :
    Linked hdr tracked next prev a b :=
  (chain_middle.mp h).2.1

/-- In a chain everything before `a` is below it, everything behind above it. -/
theorem Chain.around (h : Chain hdr tracked next prev (xs ++ a :: ys)) :
    (∀ x ∈ xs, x + hdr ≤ a) ∧ ∀ y ∈ ys, a + hdr ≤ y := by
  have hs := h.sorted
  rw [pairwise_append, pairwise_cons] at hs
  exact ⟨fun x hx => hs.2.2 x hx a (by simp), hs.2.1.1⟩

/-- No header lies between two neighbours. -/
theorem Chain.le_or_le {o : ℕ} (h : Chain hdr tracked next prev (xs ++ a :: b :: ys))
    (ho : o ∈ xs ++ a :: b :: ys) : o ≤ a ∨ b ≤ o := by
  have h' : Chain hdr tracked next prev ((xs ++ [a]) ++ b :: ys) := by simpa using h
  simp only [mem_append, mem_cons] at ho
  rcases ho with ho | rfl | rfl | ho
  · have := h.around.1 o ho
    omega
  · exact .inl le_rfl
  · exact .inr le_rfl
  · have := h'.around.2 o ho
    omega

/-- The last block is above all others. -/
theorem Chain.add_le_last (h : Chain hdr tracked next prev l) (hlast : l.getLast? = some e)
    (ha : a ∈ l) (hne : a ≠ e) : a + hdr ≤ e := by
  obtain ⟨zs, rfl⟩ := getLast?_eq_some_iff.mp hlast
  rw [mem_append, mem_singleton] at ha
  exact h.around.1 a (ha.resolve_right hne)

/-- There is room for the headers only. -/
theorem Chain.length_le (h : Chain hdr tracked next prev (a :: l))
    (hlast : (a :: l).getLast? = some e) : a + hdr * l.length ≤ e := by
  induction l generalizing a with
  | nil =>
    obtain rfl : a = e := by simpa using hlast
    simp
  | cons b l ih =>
    obtain ⟨hab, h'⟩ := isChain_cons_cons.mp h
    have ih' := ih h' hlast
    have hle := hab.2.1
    rw [length_cons, Nat.mul_succ]
    omega

/-- The two parts of a chain do not depend on the link between them. -/
theorem Chain.congr_parts (hl : Chain hdr tracked next prev (xs ++ [a]))
    (hr : Chain hdr tracked next prev (b :: ys)) (hpos : 0 < hdr) (hab : a + hdr ≤ b)
    (hnext : ∀ o ∈ xs ++ a :: b :: ys, o ≠ a → next' o = next o)
    (hprev : ∀ o ∈ xs ++ a :: b :: ys, o ≠ b → tracked o → prev' o = prev o) :
    Chain hdr tracked next' prev' (xs ++ [a]) ∧ Chain hdr tracked next' prev' (b :: ys) := by
  have hxa : ∀ x ∈ xs ++ [a], x ≤ a := by
    intro x hx
    rw [mem_append, mem_singleton] at hx
    rcases hx with hx | rfl
    · have := hl.around.1 x hx; omega
    · exact le_rfl
  have hyb : ∀ y ∈ b :: ys, b ≤ y := by
    intro y hy
    rcases mem_cons.mp hy with rfl | hy
    · exact le_rfl
    · have := (pairwise_cons.mp hr.sorted).1 y hy; omega
  refine ⟨hl.imp_of_mem_imp fun x y hx hy hxy => ?_, hr.imp_of_mem_tail_imp fun x y hx hy hxy => ?_⟩
  · have hya := hxa y hy
    have hlt := hxy.2.1
    exact hxy.congr (hnext x (by simp at hx ⊢; tauto) (by omega))
      (hprev y (by simp at hy ⊢; tauto) (by omega))
  · have hxb := hyb x hx
    have hlt := hxy.2.1
    exact hxy.congr (hnext x (by simp at hx ⊢; tauto) (by omega))
      (hprev y (by simp at hy ⊢; tauto) (by omega))

/-- A new header `c` is put into block `a`. -/
theorem Chain.insert (h : Chain hdr tracked next prev (xs ++ a :: b :: ys)) (hpos : 0 < hdr)
    (hac : a + hdr ≤ c) (hcb : c + hdr ≤ b)
    (hnext : ∀ o ∈ xs ++ a :: b :: ys, o ≠ a → next' o = next o)
    (hprev : ∀ o ∈ xs ++ a :: b :: ys, o ≠ b → tracked o → prev' o = prev o) (ha : next' a = c)
    (hc : next' c = b) (hpc : tracked c → prev' c = a) (hpb : tracked b → prev' b = c) :
    Chain hdr tracked next' prev' (xs ++ a :: c :: b :: ys) := by
  obtain ⟨h1, h2, h3⟩ := chain_middle.mp h
  obtain ⟨hl, hr⟩ := h1.congr_parts h3 hpos h2.2.1 hnext hprev
  exact chain_middle.mpr ⟨hl, ⟨ha, hac, hpc⟩, .cons_cons ⟨hc, hcb, hpb⟩ hr⟩

/-- The header `b` is taken out; block `a` takes its space. -/
theorem Chain.remove (h : Chain hdr tracked next prev (xs ++ a :: b :: c :: ys))
    (hpos : 0 < hdr) (hnext : ∀ o ∈ xs ++ a :: c :: ys, o ≠ a → next' o = next o)
    (hprev : ∀ o ∈ xs ++ a :: c :: ys, o ≠ c → tracked o → prev' o = prev o)
    (ha : next' a = c) (hpc : tracked c → prev' c = a) :
    Chain hdr tracked next' prev' (xs ++ a :: c :: ys) := by
  have hac : a + hdr ≤ c := h.around.2 c (by simp)
  obtain ⟨h1, h2, h3⟩ := chain_middle.mp h
  obtain ⟨hl, hr⟩ := h1.congr_parts h3.tail hpos hac hnext hprev
  exact chain_middle.mpr ⟨hl, ⟨ha, hac, hpc⟩, hr⟩

end Chain

/-! ## No two free neighbours -/

section Alternating

/-- No two neighbours are both free. -/
def Alternating (free : ℕ → Prop) (l : List ℕ) : Prop := l.IsChain fun a b => ¬ (free a ∧ free b)

variable {free free' : ℕ → Prop} {l xs ys : List ℕ} {a : ℕ}

theorem alternating_middle : Alternating free (xs ++ a :: ys) ↔
    Alternating free xs ∧ Alternating free ys ∧ (∀ p ∈ xs.getLast?, ¬ (free p ∧ free a)) ∧
      ∀ d ∈ ys.head?, ¬ (free a ∧ free d) := by
  unfold Alternating
  rw [isChain_append, isChain_cons]
  simp only [head?_cons, mem_some_iff, forall_eq']
  tauto

theorem Alternating.congr (h : Alternating free l) (hfree : ∀ o ∈ l, free' o → free o) :
    Alternating free' l :=
  h.imp_of_mem_imp fun a b ha hb hab hf => hab ⟨hfree a ha hf.1, hfree b hb hf.2⟩

/-- If all blocks but the last one are free, there is only one of them. -/
theorem Alternating.eq_pair {e : ℕ} (h : Alternating free l) (hnd : l.Nodup)
    (hhead : l.head? = some a) (hlast : l.getLast? = some e) (hne : a ≠ e)
    (hfree : ∀ o ∈ l, o ≠ e → free o) : l = [a, e] := by
  obtain ⟨zs, rfl⟩ := head?_eq_some_iff.mp hhead
  cases zs with
  | nil =>
    have hae : a = e := by simpa using hlast
    exact absurd hae hne
  | cons b ys =>
    obtain ⟨hab, -⟩ := isChain_cons_cons.mp h
    have hb : b = e := by
      by_contra hbe
      exact hab ⟨hfree a (by simp) hne, hfree b (by simp) hbe⟩
    subst hb
    cases ys with
    | nil => rfl
    | cons c ys =>
      have hmem : b ∈ c :: ys := mem_of_getLast? (by simpa using hlast)
      exact absurd hmem (nodup_cons.mp (nodup_cons.mp hnd).2).1

end Alternating

/-! ## Positions in a list -/

/-- The list with `x` has one member more. -/
theorem mem_middle {x o : ℕ} : o ∈ xs ++ x :: ys ↔ o = x ∨ o ∈ xs ++ ys :=
  perm_middle.mem_iff.trans mem_cons

theorem mem_behind {a x o : ℕ} : o ∈ xs ++ a :: x :: ys ↔ o = x ∨ o ∈ xs ++ a :: ys := by
  rw [append_cons, mem_middle, ← append_cons]

theorem exists_next {l : List ℕ} {a e : ℕ} (ha : a ∈ l) (hlast : l.getLast? = some e)
    (hne : a ≠ e) : ∃ xs b ys, l = xs ++ a :: b :: ys := by
  obtain ⟨xs, zs, rfl⟩ := append_of_mem ha
  cases zs with
  | nil =>
    rw [getLast?_concat, some.injEq] at hlast
    exact absurd hlast hne
  | cons b ys => exact ⟨xs, b, ys, rfl⟩

end BlockChain
