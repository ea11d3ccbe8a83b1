import Mathlib.Tactic

/-!
# Paths

Paths are lists over an alphabet with a separator `sep` and a symbol `dot`. A path
stands for the list of its components (`components`). The empty components and `.`
stand for nothing, and `..` takes the last component away (`enter`, `resolve`). An
absolute path is normalised if it has no such components; these are the paths that
`render` writes.

* `pathInduction`: induction over a path, component by component.
* `normalised_iff`: the normalised paths are those that `render` writes.
* `Normalised.components_prefix_iff`: when one normalised path leads to another.
* `resolve_names`: names are entered one after another.
-/

namespace Paths

open List

variable {α : Type*} [DecidableEq α] {sep dot : α} {p q c : List α} {names : List (List α)}
  {P : List α → Prop}

/-! ## Components -/

/-- The components of a path, without the empty ones. -/
def components (sep : α) (p : List α) : List (List α) := (p.splitOn sep).filter (· ≠ [])

theorem components_append (sep : α) (p q : List α) :
    components sep (p ++ sep :: q) = components sep p ++ components sep q := by
  rw [components, splitOn_append_cons_self, filter_append]
  rfl

@[simp]
theorem components_nil : components sep [] = [] := by simp [components]

theorem components_name (hne : c ≠ []) (hsep : sep ∉ c) : components sep c = [c] := by
  rw [components, splitOn_eq_singleton hsep]
  simp [hne]

section

variable (sep : α) (p : List α)

theorem components_sep_cons : components sep (sep :: p) = components sep p := by
  simpa using components_append sep [] p

theorem components_dropWhile : components sep (p.dropWhile (· = sep)) = components sep p := by
  induction p with
  | nil => rfl
  | cons x p ih =>
    by_cases hx : x = sep
    · subst hx
      rw [dropWhile_cons_of_pos (by simp), ih, components_sep_cons]
    · rw [dropWhile_cons_of_neg (by simpa using hx)]

theorem head?_dropWhile_ne : (p.dropWhile (· = sep)).head? ≠ some sep := by
  intro hhead
  have hnot := head?_dropWhile_not (fun x => decide (x = sep)) p
  rw [hhead] at hnot
  simp at hnot

end

/-- Induction over the parts between separators. -/
theorem splitInduction (sep : α) (single : ∀ c, sep ∉ c → P c)
    (cons : ∀ c p, sep ∉ c → P p → P (c ++ sep :: p)) (p : List α) : P p := by
  induction hn : p.length using Nat.strong_induction_on generalizing p with
  | _ n ih =>
    by_cases hsep : sep ∈ p
    · obtain ⟨c, q, rfl, hc⟩ := eq_append_cons_of_mem hsep
      refine cons c q hc (ih q.length ?_ q rfl)
      simp at hn
      omega
    · exact single p hsep

/-- Induction over a path that does not begin with a separator: after a component, one or more
separators are skipped. -/
theorem pathInduction (nil : P []) (last : ∀ c, c ≠ [] → sep ∉ c → P c)
    (cons : ∀ c p, c ≠ [] → sep ∉ c → P (p.dropWhile (· = sep)) → P (c ++ sep :: p)) (p : List α)
    (hp : p.head? ≠ some sep) : P p := by
  induction hn : p.length using Nat.strong_induction_on generalizing p with
  | _ n ih =>
    by_cases hsep : sep ∈ p
    · obtain ⟨c, q, rfl, hc⟩ := eq_append_cons_of_mem hsep
      have hne : c ≠ [] := by
        rintro rfl
        simp at hp
      have hlen : (q.dropWhile (· = sep)).length ≤ q.length := (dropWhile_sublist _).length_le
      refine cons c q hne hc (ih _ ?_ _ ?_ rfl)
      · simp at hn
        omega
      · exact head?_dropWhile_ne sep q
    · by_cases hnil : p = []
      · rwa [hnil]
      · exact last p hnil hsep

theorem notMem_of_mem_splitOn (h : c ∈ p.splitOn sep) : sep ∉ c := by
  induction p using splitInduction sep with
  | single d hd =>
    rw [splitOn_eq_singleton hd, mem_singleton] at h
    rwa [h]
  | cons d p hd ih =>
    rw [splitOn_append_cons_self, splitOn_eq_singleton hd, singleton_append, mem_cons] at h
    rcases h with rfl | h
    · exact hd
    · exact ih h

theorem mem_components (h : c ∈ components sep p) : c ≠ [] ∧ sep ∉ c := by
  obtain ⟨hc, hne⟩ := mem_filter.mp h
  exact ⟨by simpa using hne, notMem_of_mem_splitOn hc⟩

/-! ## Normalised paths -/

/-- A component that names something. -/
structure Proper (sep dot : α) (c : List α) : Prop where
  ne_nil : c ≠ []
  sep : sep ∉ c
  ne_dot : c ≠ [dot]
  ne_dots : c ≠ [dot, dot]

/-- An absolute path without empty components, `.` and `..`, and with no separator at its end unless
it is the root. -/
def Normalised (sep dot : α) (p : List α) : Prop :=
  p = [sep] ∨ ∃ q, p = sep :: q ∧ ∀ c ∈ q.splitOn sep, c ≠ [] ∧ c ≠ [dot] ∧ c ≠ [dot, dot]

/-- The absolute path with the components `names`. -/
def render (sep : α) (names : List (List α)) : List α :=
  if names = [] then [sep] else names.flatMap (sep :: ·)

omit [DecidableEq α] in
theorem flatMap_eq_intercalate (hne : names ≠ []) :
    names.flatMap (sep :: ·) = sep :: [sep].intercalate names := by
  induction names with
  | nil => exact absurd rfl hne
  | cons c names ih =>
    cases names with
    | nil => simp [intercalate]
    | cons d names =>
      rw [flatMap_cons, ih (by simp)]
      simp [intercalate]

/-- The normalised paths are those that `render` writes. -/
theorem normalised_iff :
    Normalised sep dot p ↔ ∃ names, (∀ c ∈ names, Proper sep dot c) ∧ p = render sep names := by
  constructor
  · rintro (rfl | ⟨q, rfl, hq⟩)
    · exact ⟨[], by simp, rfl⟩
    · refine ⟨q.splitOn sep, fun c hc => ?_, ?_⟩
      · obtain ⟨hne, hdot, hdots⟩ := hq c hc
        exact ⟨hne, notMem_of_mem_splitOn hc, hdot, hdots⟩
      · have hne : q.splitOn sep ≠ [] := splitOn_ne_nil _ _
        rw [render, if_neg hne, flatMap_eq_intercalate hne, intercalate_splitOn]
  · rintro ⟨names, hnames, rfl⟩
    by_cases hnil : names = []
    · exact .inl (by rw [render, if_pos hnil])
    · refine .inr ⟨[sep].intercalate names, ?_, fun c hc => ?_⟩
      · rw [render, if_neg hnil, flatMap_eq_intercalate hnil]
      · rw [splitOn_intercalate _ (fun c hc => (hnames c hc).sep) hnil] at hc
        exact ⟨(hnames c hc).ne_nil, (hnames c hc).ne_dot, (hnames c hc).ne_dots⟩

theorem components_render (hnames : ∀ c ∈ names, Proper sep dot c) :
    components sep (render sep names) = names := by
  by_cases hnil : names = []
  · subst hnil
    rw [render, if_pos rfl, components_sep_cons, components_nil]
  · rw [render, if_neg hnil, flatMap_eq_intercalate hnil, components_sep_cons, components,
      splitOn_intercalate _ (fun c hc => (hnames c hc).sep) hnil, filter_eq_self]
    exact fun c hc => by simpa using (hnames c hc).ne_nil

section

variable (h : Normalised sep dot p)
include h

/-- A normalised path is given by its components, which are names. -/
theorem Normalised.components :
    (∀ c ∈ Paths.components sep p, Proper sep dot c) ∧ p = render sep (Paths.components sep p) := by
  obtain ⟨names, hnames, rfl⟩ := normalised_iff.mp h
  rw [components_render hnames]
  exact ⟨hnames, rfl⟩

/-- Only the root ends with a separator. -/
theorem Normalised.getLast? : p = [sep] ∨ p.getLast? ≠ some sep := by
  obtain ⟨names, hnames, rfl⟩ := normalised_iff.mp h
  rcases eq_nil_or_concat names with rfl | ⟨ns, c, rfl⟩
  · exact .inl rfl
  · refine .inr ?_
    rw [concat_eq_append] at hnames ⊢
    obtain ⟨hne, hsep, -, -⟩ := hnames c (by simp)
    rw [render, if_neg (by simp), flatMap_append, flatMap_singleton,
      getLast?_append, getLast?_cons, getLast?_eq_some_getLast hne]
    intro hlast
    exact hsep (Option.some.inj hlast ▸ getLast_mem hne)

theorem Normalised.head? : p.head? = some sep := by
  rcases h with rfl | ⟨q, rfl, -⟩
  · rfl
  · rfl

/-- A normalised path other than the root has no separator behind the first one. -/
theorem Normalised.eq_cons (hroot : p ≠ [sep]) : ∃ c q, p = sep :: c :: q ∧ c ≠ sep := by
  rcases h with h | ⟨q, rfl, hq⟩
  · exact absurd h hroot
  · cases q with
    | nil => exact absurd rfl hroot
    | cons c q =>
      refine ⟨c, q, rfl, ?_⟩
      rintro rfl
      have hnil : [] ∈ (c :: q).splitOn c := by
        have hsplit := splitOn_append_cons_self (a := c) [] q
        rw [nil_append] at hsplit
        simp [hsplit]
      exact (hq [] hnil).1 rfl

end

/-- One normalised path leads to another, component by component, just if it is the root, or the
same path, or there is a separator behind it. -/
theorem Normalised.components_prefix_iff (hp : Normalised sep dot p) (hq : Normalised sep dot q) :
    Paths.components sep p <+: Paths.components sep q ↔
      p = [sep] ∨ p = q ∨ ∃ r, q = p ++ sep :: r := by
  obtain ⟨ps, hps, rfl⟩ := normalised_iff.mp hp
  obtain ⟨qs, hqs, rfl⟩ := normalised_iff.mp hq
  rw [components_render hps, components_render hqs]
  constructor
  · rintro ⟨rs, rfl⟩
    by_cases hnil : ps = []
    · exact .inl (by rw [render, if_pos hnil])
    · cases rs with
      | nil => exact .inr (.inl (by rw [append_nil]))
      | cons c rs =>
        refine .inr (.inr ⟨c ++ rs.flatMap (sep :: ·), ?_⟩)
        rw [render, render, if_neg (by simp), if_neg hnil, flatMap_append, flatMap_cons,
          cons_append]
  · rintro (hroot | heq | ⟨r, hr⟩)
    · have hps' := components_render hps
      rw [hroot, components_sep_cons] at hps'
      rw [← hps']
      exact nil_prefix
    · rw [← components_render hps, heq, components_render hqs]
    · refine ⟨Paths.components sep r, ?_⟩
      rw [← components_render hqs, hr, components_append, components_render hps]

omit [DecidableEq α] in
/-- A longer list of names gives a longer path. -/
theorem length_render_lt {ns : List (List α)} (hns : ∀ c ∈ ns, Proper sep dot c)
    (hpre : names <+: ns) (hne : names ≠ ns) :
    (render sep names).length < (render sep ns).length := by
  obtain ⟨rs, rfl⟩ := hpre
  have hrs : rs ≠ [] := by
    rintro rfl
    exact hne (append_nil names).symm
  obtain ⟨c, rs, rfl⟩ := exists_cons_of_ne_nil hrs
  have hc := length_pos_iff.mpr (hns c (by simp)).ne_nil
  have hlong : render sep (names ++ c :: rs) =
      names.flatMap (sep :: ·) ++ (sep :: c ++ rs.flatMap (sep :: ·)) := by
    rw [render, if_neg (by simp), flatMap_append, flatMap_cons]
  rw [hlong, render]
  split_ifs with hnil
  · simp only [length_append, length_cons, length_nil]
    omega
  · simp only [length_append, length_cons]
    omega

/-! ## Following a path -/

/-- Follow one component from the place `names`; `none` if it climbs above the root. -/
def enter (dot : α) (names : List (List α)) (c : List α) : Option (List (List α)) :=
  if c = [dot] then some names
  else if c = [dot, dot] then if names = [] then none else some names.dropLast
  else some (names ++ [c])

/-- Follow components from the place `names`. -/
def resolve (dot : α) (names cs : List (List α)) : Option (List (List α)) :=
  cs.foldlM (enter dot) names

theorem resolve_append (dot : α) (names cs ds : List (List α)) :
    resolve dot names (cs ++ ds) = (resolve dot names cs).bind fun ns => resolve dot ns ds :=
  foldlM_append

theorem enter_proper (h : Proper sep dot c) : enter dot names c = some (names ++ [c]) := by
  rw [enter, if_neg h.ne_dot, if_neg h.ne_dots]

/-- Names are entered one after another. -/
theorem resolve_names {cs : List (List α)} (h : ∀ c ∈ cs, Proper sep dot c) :
    resolve dot names cs = some (names ++ cs) := by
  induction cs generalizing names with
  | nil => simp [resolve]
  | cons c cs ih =>
    have hrest : resolve dot (names ++ [c]) cs = some (names ++ [c] ++ cs) :=
      ih fun d hd => h d (by simp [hd])
    rw [resolve, foldlM_cons, enter_proper (h c (by simp))]
    simpa [resolve] using hrest

end Paths
