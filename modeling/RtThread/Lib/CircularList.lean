import Mathlib.Tactic

/-!
# Circular doubly linked lists

`IsRing next prev root l`: starting at `root`, the links `next` pass through the
elements of `l` and return to `root`, and the links `prev` pass through them the
other way round. The two edits are `IsRing.cons`, which links an element behind
`root`, and `IsRing.unlink`, which takes one out. Both only look at the links of
the elements of the ring.
-/

namespace CircularList

open List

variable {α : Type*}

/-- The list `l` is linked in a circle with `root`. -/
structure IsRing (next prev : α → α) (root : α) (l : List α) : Prop where
  links : (root :: (l ++ [root])).IsChain fun a b => next a = b ∧ prev b = a
  nodup : (root :: l).Nodup

variable {next prev next' prev' : α → α} {root x a : α} {l l₁ l₂ : List α}

theorem mem_of_mem_links (ha : a ∈ root :: (l ++ [root])) : a ∈ root :: l := by
  simp only [mem_cons, mem_append, not_mem_nil, or_false] at ha ⊢
  tauto

theorem IsRing.congr (h : IsRing next prev root l) (hnext : ∀ o ∈ root :: l, next' o = next o)
    (hprev : ∀ o ∈ root :: l, prev' o = prev o) : IsRing next' prev' root l := by
  refine ⟨h.links.imp_of_mem_imp fun a b ha hb hab => ?_, h.nodup⟩
  rw [hnext a (mem_of_mem_links ha), hprev b (mem_of_mem_links hb)]
  exact hab

/-- What follows `root`. -/
theorem IsRing.head (h : IsRing next prev root l) : (l ++ [root]).head? = some (next root) := by
  have hl := h.links
  rw [isChain_cons] at hl
  cases hh : (l ++ [root]).head? with
  | none => simp at hh
  | some b => rw [(hl.1 b hh).1]

/-- Both links of an element that is passed. -/
theorem IsRing.split (h : IsRing next prev root (l₁ ++ x :: l₂)) :
    (l₂ ++ [root]).head? = some (next x) ∧ prev (next x) = x ∧
      (root :: l₁).getLast? = some (prev x) ∧ next (prev x) = x := by
  have hl := h.links
  rw [show root :: (l₁ ++ x :: l₂ ++ [root]) = (root :: l₁) ++ x :: (l₂ ++ [root]) by simp,
    isChain_append] at hl
  obtain ⟨-, hmid, hleft⟩ := hl
  have hright := (isChain_cons.mp hmid).1
  obtain ⟨b, hb⟩ : ∃ b, (l₂ ++ [root]).head? = some b := by cases l₂ <;> simp
  obtain ⟨c, hc⟩ : ∃ c, (root :: l₁).getLast? = some c := by simp [getLast?_cons]
  obtain ⟨hxb, hbx⟩ := hright b hb
  obtain ⟨hcx, hxc⟩ := hleft c hc x rfl
  rw [hb, hc, hxb, hbx, hxc, hcx]
  exact ⟨rfl, rfl, rfl, rfl⟩

theorem IsRing.next_mem (h : IsRing next prev root l) (ha : a ∈ root :: l) :
    next a ∈ root :: l := by
  rcases mem_cons.mp ha with rfl | ha
  · exact mem_of_mem_links (.tail _ (mem_of_mem_head? h.head))
  · obtain ⟨l₁, l₂, rfl⟩ := append_of_mem ha
    have := mem_of_mem_head? h.split.1
    simp only [mem_cons, mem_append, not_mem_nil, or_false] at this ⊢
    tauto

theorem IsRing.prev_mem (h : IsRing next prev root l) (ha : a ∈ l) : prev a ∈ root :: l := by
  obtain ⟨l₁, l₂, rfl⟩ := append_of_mem ha
  have := mem_of_getLast? h.split.2.2.1
  simp only [mem_cons, mem_append] at this ⊢
  tauto

variable [DecidableEq α]

/-- `x` is linked behind `root`. -/
theorem IsRing.cons (h : IsRing next prev root l) (hx : x ∉ root :: l)
    (hnext : ∀ o ∈ root :: x :: l,
      next' o = if o = root then x else if o = x then next root else next o)
    (hprev : ∀ o ∈ root :: x :: l,
      prev' o = if o = next root then x else if o = x then root else prev o) :
    IsRing next' prev' root (x :: l) := by
  rw [mem_cons, not_or] at hx
  have hnr := h.next_mem (a := root) (by simp)
  have hxnr : x ≠ next root := by
    rintro rfl
    rw [mem_cons] at hnr
    tauto
  -- no link but the first one leads to the old first element
  have hfirst : next root ∉ (l ++ [root]).tail := by
    have hhead := h.head
    have hnd := h.nodup
    cases l with
    | nil => simp
    | cons b l =>
      have hb : b = next root := by simpa using hhead
      rw [← hb]
      simp only [nodup_cons, mem_cons, not_or] at hnd
      simp only [cons_append, tail_cons, mem_append, mem_singleton, not_or]
      exact ⟨hnd.2.1, Ne.symm hnd.1.1⟩
  refine ⟨.cons_cons ⟨?_, ?_⟩ (isChain_cons.mpr ⟨?_, ?_⟩), ?_⟩
  · rw [hnext root (by simp), if_pos rfl]
  · rw [hprev x (by simp), if_neg hxnr, if_pos rfl]
  · show ∀ b ∈ (l ++ [root]).head?, _
    rw [h.head]
    intro b hb
    obtain rfl : next root = b := by simpa using hb
    refine ⟨by rw [hnext x (by simp), if_neg hx.1, if_pos rfl], ?_⟩
    rw [hprev _ (by simp only [mem_cons] at hnr ⊢; tauto), if_pos rfl]
  · refine h.links.tail.imp_of_mem_tail_imp fun p q hp hq hpq => ?_
    have hmem : ∀ {o}, o ∈ l ++ [root] → o ∈ root :: l := fun ho => mem_of_mem_links (.tail _ ho)
    have hq' := hmem (mem_of_mem_tail hq)
    have hp' := hmem hp
    have hpr : p ≠ root := by
      rintro rfl
      exact hfirst (hpq.1 ▸ hq)
    have hqr : q ≠ next root := by
      rintro rfl
      exact hfirst hq
    have hpx : p ≠ x := by rintro rfl; simp [hx] at hp'
    have hqx : q ≠ x := by rintro rfl; simp [hx] at hq'
    rw [hnext p (by simp only [mem_cons] at hp' ⊢; tauto), if_neg hpr, if_neg hpx,
      hprev q (by simp only [mem_cons] at hq' ⊢; tauto), if_neg hqr, if_neg hqx]
    exact hpq
  · have hnd := h.nodup
    simp only [nodup_cons, mem_cons, not_or] at hnd ⊢
    exact ⟨⟨Ne.symm hx.1, hnd.1⟩, hx.2, hnd.2⟩

/-- `x` is taken out. -/
theorem IsRing.unlink (h : IsRing next prev root (l₁ ++ x :: l₂))
    (hnext : ∀ o ∈ root :: (l₁ ++ l₂), next' o = if o = prev x then next x else next o)
    (hprev : ∀ o ∈ root :: (l₁ ++ l₂), prev' o = if o = next x then prev x else prev o) :
    IsRing next' prev' root (l₁ ++ l₂) := by
  obtain ⟨hn, hpn, hp, hnp⟩ := h.split
  have hnd : x ∉ root :: (l₁ ++ l₂) ∧ (root :: (l₁ ++ l₂)).Nodup := by
    have hperm : Perm (root :: (l₁ ++ x :: l₂)) (x :: root :: (l₁ ++ l₂)) :=
      (perm_middle.cons root).trans (Perm.swap x root _)
    exact nodup_cons.mp (hperm.nodup_iff.mp h.nodup)
  -- a link that does not touch `x` stays
  have hlink : ∀ p q, p ∈ root :: (l₁ ++ l₂) → q ∈ root :: (l₁ ++ l₂) → next p = q ∧ prev q = p →
      next' p = q ∧ prev' q = p := by
    rintro p q hp' hq' ⟨hpq, hqp⟩
    have hpx : p ≠ prev x := by
      rintro rfl
      rw [hnp] at hpq
      exact hnd.1 (hpq ▸ hq')
    have hqx : q ≠ next x := by
      rintro rfl
      rw [hpn] at hqp
      exact hnd.1 (hqp ▸ hp')
    rw [hnext p hp', if_neg hpx, hprev q hq', if_neg hqx]
    exact ⟨hpq, hqp⟩
  have hl := h.links
  rw [show root :: (l₁ ++ x :: l₂ ++ [root]) = (root :: l₁) ++ x :: (l₂ ++ [root]) by simp,
    isChain_append] at hl
  obtain ⟨hleft, hmid, -⟩ := hl
  have hright := hmid.tail
  have hmem₁ : ∀ {o}, o ∈ root :: l₁ → o ∈ root :: (l₁ ++ l₂) := by
    intro o ho
    simp only [mem_cons, mem_append] at ho ⊢
    tauto
  have hmem₂ : ∀ {o}, o ∈ l₂ ++ [root] → o ∈ root :: (l₁ ++ l₂) := by
    intro o ho
    simp only [mem_cons, mem_append, not_mem_nil, or_false] at ho ⊢
    tauto
  refine ⟨?_, hnd.2⟩
  rw [show root :: (l₁ ++ l₂ ++ [root]) = (root :: l₁) ++ (l₂ ++ [root]) by simp, isChain_append]
  refine ⟨hleft.imp_of_mem_imp fun p q hp' hq' => hlink p q (hmem₁ hp') (hmem₁ hq'),
    hright.imp_of_mem_imp fun p q hp' hq' => hlink p q (hmem₂ hp') (hmem₂ hq'), ?_⟩
  rw [hp, hn]
  intro p hp' q hq'
  obtain rfl : prev x = p := by simpa using hp'
  obtain rfl : next x = q := by simpa using hq'
  rw [hnext _ (hmem₁ (mem_of_getLast? hp)), if_pos rfl,
    hprev _ (hmem₂ (mem_of_mem_head? hn)), if_pos rfl]
  exact ⟨rfl, rfl⟩

end CircularList
