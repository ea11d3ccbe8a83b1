import RtThread.Dfs.Basic
import RtThread.Lib.Paths

/-!
# Which file system a path is on

`dfs_filesystem_lookup` goes through the table once. It compares the characters of a
mount path with those of the path, and looks for a separator behind them unless the
mount path is the root. It keeps the longest match so far.

* `matches_iff`: a mount path matches just if it leads to the path, component by
  component.
* `lookup_best`: the entry that is returned has the longest mount path that matches.
* `mount_resolution`: both in terms of components, and what `dfs_subdir` gives for
  the mount path that is found.
-/

namespace RtThread.Dfs

open Paths List Option

variable {mount path cs ct : CString} {i count : ℕ} (s : CString)

/-! ## Comparing strings -/

theorem get_of_le (hi : s.chars.length ≤ i) : s.get i = 0 := by
  rw [CString.get, getD_eq_default _ _ hi]

section

variable (hi : i < s.chars.length)
include hi

theorem get_eq_getElem : s.get i = s.chars[i] := by
  rw [CString.get, getD_eq_getElem _ _ hi]

theorem get_ne_zero : s.get i ≠ 0 := by
  rw [get_eq_getElem s hi]
  intro h0
  exact s.nonzero (h0 ▸ getElem_mem hi)

theorem drop_eq_cons : s.chars.drop i = s.get i :: s.chars.drop (i + 1) := by
  rw [get_eq_getElem s hi]
  exact drop_eq_getElem_cons hi

end

/-- `rt_strncmp` compares the rest of `cs` with the characters of `ct` there. -/
theorem strncmpFrom_eq_zero_iff (h : i + count = cs.chars.length) :
    strncmpFrom cs ct count i 0 = 0 ↔ cs.chars.drop i <+: ct.chars.drop i := by
  induction count generalizing i with
  | zero =>
    rw [drop_of_length_le (by omega)]
    exact ⟨fun _ => nil_prefix, fun _ => rfl⟩
  | succ count ih =>
    have hi : i < cs.chars.length := by omega
    have hne := get_ne_zero cs hi
    have hsub : cs.get i - ct.get i = 0 ↔ cs.get i = ct.get i := by
      rw [UInt8.sub_eq_iff_eq_add, UInt8.zero_add]
    rw [strncmpFrom, drop_eq_cons cs hi]
    by_cases heq : cs.get i = ct.get i
    · have hi' : i < ct.chars.length := by
        by_contra hge
        exact hne (heq.trans (get_of_le ct (not_lt.mp hge)))
      have hgo : ¬ (cs.get i - ct.get i ≠ 0 ∨ cs.get i = 0) := by
        rw [not_or, not_not]
        exact ⟨hsub.mpr heq, hne⟩
      rw [if_neg hgo, hsub.mpr heq, ih (by omega), drop_eq_cons ct hi', heq]
      simp
    · have hstop : cs.get i - ct.get i ≠ 0 := mt hsub.mp heq
      rw [if_pos (.inl hstop)]
      refine ⟨fun h0 => absurd h0 hstop, fun hpre => ?_⟩
      have hi' : i < ct.chars.length := by
        by_contra hge
        rw [drop_of_length_le (not_lt.mp hge)] at hpre
        simp at hpre
      rw [drop_eq_cons ct hi', cons_prefix_cons] at hpre
      exact absurd hpre.1 heq

theorem rtStrncmp_eq_zero_iff : rtStrncmp cs ct cs.chars.length = 0 ↔ cs.chars <+: ct.chars :=
  strncmpFrom_eq_zero_iff (Nat.zero_add _)

/-! ## Mount paths that match -/

/-- What the loop tests, apart from the length of the match so far. -/
def Matches (mount path : CString) : Prop :=
  rtStrncmp mount path mount.chars.length = 0 ∧
    ¬ (mount.chars.length > 1 ∧ path.chars.length > mount.chars.length ∧
      path.get mount.chars.length ≠ slash)
  deriving Decidable

/-- The components of the mount path are the first ones of the path. -/
def LeadsTo (mount path : CString) : Prop :=
  components slash mount.chars <+: components slash path.chars
  deriving Decidable

theorem get_append {t : List CChar} (h : path.chars = mount.chars ++ t) :
    path.get mount.chars.length = t.headD 0 := by
  rw [CString.get, h]
  cases t with
  | nil => simp
  | cons c t => simp

theorem matches_iff (hmount : Normalised slash dot mount.chars)
    (hpath : Normalised slash dot path.chars) : Matches mount path ↔ LeadsTo mount path := by
  rw [Matches, LeadsTo, rtStrncmp_eq_zero_iff, hmount.components_prefix_iff hpath]
  constructor
  · rintro ⟨⟨t, ht⟩, hsep⟩
    cases t with
    | nil => exact .inr (.inl (by rw [← ht, append_nil]))
    | cons c t =>
      by_cases hone : mount.chars.length > 1
      · refine .inr (.inr ⟨t, ?_⟩)
        have hlen : path.chars.length > mount.chars.length := by simp [← ht]
        have hc : path.get mount.chars.length = slash := by
          by_contra hne
          exact hsep ⟨hone, hlen, hne⟩
        rw [get_append ht.symm] at hc
        rw [← ht, show c = slash from hc]
      · -- a mount path of one character is the root
        rcases hmount with hroot | ⟨q, hq, -⟩
        · exact .inl hroot
        · rw [hq] at hone
          have hnil : q = [] := by simpa using hone
          exact .inl (by rw [hq, hnil])
  · rintro (hroot | heq | ⟨r, hr⟩)
    · refine ⟨?_, fun hcond => ?_⟩
      · obtain ⟨q, hq⟩ := head?_eq_some_iff.mp hpath.head?
        rw [hroot, hq]
        exact ⟨q, rfl⟩
      · rw [hroot] at hcond
        exact absurd hcond.1 (by simp)
    · rw [heq]
      exact ⟨prefix_rfl, fun hcond => absurd hcond.2.1 (lt_irrefl _)⟩
    · refine ⟨⟨slash :: r, hr.symm⟩, fun hcond => hcond.2.2 ?_⟩
      rw [get_append hr]
      rfl

/-- `/sd` does not lead to `/sdx`. -/
example : ¬ LeadsTo ⟨[slash, 0x73, 0x64], by decide⟩ ⟨[slash, 0x73, 0x64, 0x78], by decide⟩ := by
  decide

/-! ## The loop -/

/-- Entry `i` of the table is a file system mounted on `mount`. -/
def Mounted (table : List Filesystem) (i : ℕ) (mount : CString) : Prop :=
  ∃ entry, table[i]? = some entry ∧ entry.path = some mount ∧ entry.ops.isSome

/-- `fs` is an entry with the longest mount path that matches, among the first `n` entries. -/
def Best (table : List Filesystem) (path : CString) (n : ℕ) : Option ℕ → ℕ → Prop
  | none, prefixlen => prefixlen = 0 ∧ ∀ j < n, ∀ m, Mounted table j m → ¬ Matches m path
  | some i, prefixlen => ∃ m, Mounted table i m ∧ Matches m path ∧ m.chars.length = prefixlen ∧
      ∀ j < n, ∀ m', Mounted table j m' → Matches m' path → m'.chars.length ≤ prefixlen

variable {table rest : List Filesystem} {entry : Filesystem} {n prefixlen : ℕ} {fs : Option ℕ}
  {m m' : CString} {m : CString}

/-- The entry `n` is passed over. -/
theorem Best.skip (h : Best table path n fs prefixlen)
    (hn : ∀ m, Mounted table n m → Matches m path → m.chars.length < prefixlen) :
    Best table path (n + 1) fs prefixlen := by
  have hcases : ∀ j, j < n + 1 → j < n ∨ j = n := fun j hj => by omega
  cases fs with
  | none =>
    obtain ⟨h0, hnone⟩ := h
    refine ⟨h0, fun j hj m hm hmatch => ?_⟩
    rcases hcases j hj with hj | rfl
    · exact hnone j hj m hm hmatch
    · exact absurd (hn m hm hmatch) (by omega)
  | some i =>
    obtain ⟨m, hm, hmatch, hlen, hbest⟩ := h
    refine ⟨m, hm, hmatch, hlen, fun j hj m' hm' hmatch' => ?_⟩
    rcases hcases j hj with hj | rfl
    · exact hbest j hj m' hm' hmatch'
    · exact (hn m' hm' hmatch').le

/-- The entry `n` is taken. -/
theorem Best.take (h : Best table path n fs prefixlen) (hm : Mounted table n m)
    (hmatch : Matches m path) (hle : prefixlen ≤ m.chars.length) :
    Best table path (n + 1) (some n) m.chars.length := by
  refine ⟨m, hm, hmatch, rfl, fun j hj m' hm' hmatch' => ?_⟩
  rcases (by omega : j < n ∨ j = n) with hj | rfl
  · cases fs with
    | none => exact absurd hmatch' (h.2 j hj m' hm')
    | some i =>
      obtain ⟨m₀, -, -, -, hbest⟩ := h
      exact (hbest j hj m' hm' hmatch').trans hle
  · -- there is one mount path at an entry
    obtain ⟨entry, hentry, hpath, -⟩ := hm
    obtain ⟨entry', hentry', hpath', -⟩ := hm'
    cases hentry.symm.trans hentry'
    cases hpath.symm.trans hpath'
    exact le_rfl

theorem lookupLoop_unmounted (h : ∀ m, entry.path = some m → entry.ops = none) :
    lookupLoop path (entry :: rest) n fs prefixlen = lookupLoop path rest (n + 1) fs prefixlen := by
  rw [lookupLoop]
  split
  · rename_i m ops hpath hops
    rw [h m hpath] at hops
    cases hops
  · rfl

theorem lookupLoop_mounted (hpath : entry.path = some mount) (hops : entry.ops.isSome) :
    lookupLoop path (entry :: rest) n fs prefixlen =
      if prefixlen ≤ mount.chars.length ∧ Matches mount path then
        lookupLoop path rest (n + 1) (some n) mount.chars.length
      else lookupLoop path rest (n + 1) fs prefixlen := by
  obtain ⟨ops, hops⟩ := isSome_iff_exists.mp hops
  rw [lookupLoop, hpath, hops]
  dsimp only
  by_cases hle : prefixlen ≤ mount.chars.length
  · by_cases hcmp : rtStrncmp mount path mount.chars.length = 0
    · rw [if_neg (by simp [hcmp, hle])]
      by_cases hsep : mount.chars.length > 1 ∧ path.chars.length > mount.chars.length ∧
          path.get mount.chars.length ≠ slash
      · rw [if_pos hsep, if_neg fun hcond => hcond.2.2 hsep]
      · rw [if_neg hsep, if_pos ⟨hle, hcmp, hsep⟩]
    · rw [if_pos (.inr hcmp), if_neg fun hcond => hcmp hcond.2.1]
  · rw [if_pos (.inl (not_le.mp hle)), if_neg fun hcond => hle hcond.1]

/-- The loop returns an entry with the longest mount path that matches. -/
theorem lookupLoop_best (seen : List Filesystem) (htable : table = seen ++ rest)
    (h : Best table path seen.length fs prefixlen) :
    ∃ len, Best table path table.length (lookupLoop path rest seen.length fs prefixlen) len := by
  induction rest generalizing seen fs prefixlen with
  | nil =>
    rw [append_nil] at htable
    rw [htable] at h ⊢
    exact ⟨prefixlen, h⟩
  | cons entry rest ih =>
    have hentry : table[seen.length]? = some entry := by simp [htable]
    have htable' : table = (seen ++ [entry]) ++ rest := by simp [htable]
    have hlen : (seen ++ [entry]).length = seen.length + 1 := by simp
    by_cases hmounted : ∃ m, entry.path = some m ∧ entry.ops.isSome
    · obtain ⟨m, hpath, hops⟩ := hmounted
      have hm : Mounted table seen.length m := ⟨entry, hentry, hpath, hops⟩
      rw [lookupLoop_mounted hpath hops, ← hlen]
      split_ifs with hcond
      · refine ih _ htable' ?_
        rw [hlen]
        exact h.take hm hcond.2 hcond.1
      · refine ih _ htable' ?_
        rw [hlen]
        refine h.skip fun m' ⟨entry', hentry', hpath', _⟩ hmatch => ?_
        cases hentry.symm.trans hentry'
        cases hpath.symm.trans hpath'
        by_contra hge
        exact hcond ⟨not_lt.mp hge, hmatch⟩
    · have hnone : ∀ m, entry.path = some m → entry.ops = none := fun m hpath => by
        by_contra hne
        exact hmounted ⟨m, hpath, isSome_iff_ne_none.mpr hne⟩
      rw [lookupLoop_unmounted hnone, ← hlen]
      refine ih _ htable' ?_
      rw [hlen]
      refine h.skip fun m ⟨entry', hentry', hpath, hops⟩ _ => ?_
      cases hentry.symm.trans hentry'
      exact absurd ⟨m, hpath, hops⟩ hmounted

/-! ## Mount paths and the rest of a path -/

/-- `dfs_subdir` for a mount path that leads to the path. -/
theorem dfsSubdir_spec (hmount : Normalised slash dot mount.chars)
    (hpath : Normalised slash dot path.chars) (h : LeadsTo mount path) :
    (mount.chars = path.chars → dfsSubdir mount path = none) ∧
    (mount.chars ≠ path.chars → ∃ dir, dfsSubdir mount path = some dir ∧
      (mount.chars = [slash] → path.chars.drop dir = path.chars) ∧
      (mount.chars ≠ [slash] → ∃ r, path.chars.drop dir = slash :: r ∧
        mount.chars ++ path.chars.drop dir = path.chars)) := by
  refine ⟨fun heq => by rw [dfsSubdir, heq, if_pos rfl], fun hne => ?_⟩
  by_cases hroot : mount.chars = [slash]
  · obtain ⟨c, q, hq, hc⟩ := hpath.eq_cons (hroot ▸ hne.symm)
    refine ⟨0, ?_, fun _ => rfl, fun hnot => absurd hroot hnot⟩
    have hget : path.get 1 ≠ slash := by
      rw [CString.get, hq]
      exact hc
    rw [dfsSubdir, hroot, length_singleton, if_neg (by simp [hq])]
    dsimp only
    rw [if_pos ⟨hget, one_ne_zero⟩]
  · rcases (hmount.components_prefix_iff hpath).mp h with hroot' | heq | ⟨r, hr⟩
    · exact absurd hroot' hroot
    · exact absurd heq hne
    · refine ⟨mount.chars.length, ?_, fun hroot' => absurd hroot' hroot, fun _ => ⟨r, ?_⟩⟩
      · have hget : path.get mount.chars.length = slash := get_append hr
        rw [dfsSubdir, if_neg (by simp [hr])]
        dsimp only
        rw [if_neg fun hcond => hcond.1 hget]
      · rw [hr, drop_left]
        exact ⟨rfl, rfl⟩

/-- Of two mount paths that lead to a path, one that is not shorter, as a string, has not fewer
components. -/
theorem length_components_le (hm : Normalised slash dot m.chars)
    (hm' : Normalised slash dot m'.chars) (hlead : LeadsTo m path) (hlead' : LeadsTo m' path)
    (hlen : m'.chars.length ≤ m.chars.length) :
    (components slash m'.chars).length ≤ (components slash m.chars).length := by
  by_contra hlt
  have hpre : components slash m.chars <+: components slash m'.chars :=
    prefix_of_prefix_length_le hlead hlead' (by omega)
  have hshort := length_render_lt hm'.components.1 hpre fun heq => hlt (by rw [heq])
  rw [← hm.components.2, ← hm'.components.2] at hshort
  omega

/-- Mount paths that lead to a path and have as many components are equal. -/
theorem chars_eq_of_length (hm : Normalised slash dot m.chars) (hm' : Normalised slash dot m'.chars)
    (hlead : LeadsTo m path) (hlead' : LeadsTo m' path)
    (hlen : (components slash m.chars).length = (components slash m'.chars).length) :
    m.chars = m'.chars := by
  have hpre : components slash m.chars <+: components slash m'.chars :=
    prefix_of_prefix_length_le hlead hlead' hlen.le
  rw [hm.components.2, hm'.components.2, hpre.eq_of_length hlen]

/-- For every mount table whose paths are normalised and distinct and every normalised path,
`dfs_filesystem_lookup` returns the entry whose path is the longest prefix of the path, component by
component, and `RT_NULL` if there is none. For the mount path that it finds, `dfs_subdir` returns
`RT_NULL` if it is the path itself, the whole path if it is `/`, and otherwise what is left of the
path, which begins with `/`. -/
theorem mount_resolution (hpath : Normalised slash dot path.chars)
    (hnorm : ∀ i m, Mounted table i m → Normalised slash dot m.chars)
    (hdistinct : ∀ i j m m', Mounted table i m → Mounted table j m' → m.chars = m'.chars → i = j) :
    (∀ i, dfsFilesystemLookup table path = some i ↔
      ∃ m, Mounted table i m ∧ LeadsTo m path ∧ ∀ j m', Mounted table j m' → LeadsTo m' path →
        j ≠ i → (components slash m'.chars).length < (components slash m.chars).length) ∧
    (dfsFilesystemLookup table path = none ↔ ∀ i m, Mounted table i m → ¬ LeadsTo m path) ∧
    ∀ i m, dfsFilesystemLookup table path = some i → Mounted table i m →
      (m.chars = path.chars → dfsSubdir m path = none) ∧
      (m.chars ≠ path.chars → ∃ dir, dfsSubdir m path = some dir ∧
        (m.chars = [slash] → path.chars.drop dir = path.chars) ∧
        (m.chars ≠ [slash] → ∃ r, path.chars.drop dir = slash :: r ∧
          m.chars ++ path.chars.drop dir = path.chars)) := by
  have hlead : ∀ i m, Mounted table i m → (Matches m path ↔ LeadsTo m path) := fun i m hm =>
    matches_iff (hnorm i m hm) hpath
  have hlt : ∀ j m, Mounted table j m → j < table.length := fun j m ⟨entry, hentry, _⟩ =>
    (List.getElem?_eq_some_iff.mp hentry).1
  obtain ⟨len, hbest⟩ : ∃ len, Best table path table.length (dfsFilesystemLookup table path) len :=
    lookupLoop_best [] rfl ⟨rfl, fun j hj => absurd hj (by simp)⟩
  have hfound : ∀ i, dfsFilesystemLookup table path = some i →
      ∃ m, Mounted table i m ∧ LeadsTo m path ∧ ∀ j m', Mounted table j m' → LeadsTo m' path →
        j ≠ i → (components slash m'.chars).length < (components slash m.chars).length := by
    intro i hi
    rw [hi] at hbest
    obtain ⟨m, hm, hmatch, rfl, hmax⟩ := hbest
    refine ⟨m, hm, (hlead i m hm).mp hmatch, fun j m' hm' hlead' hne => ?_⟩
    have hle := hmax j (hlt j m' hm') m' hm' ((hlead j m' hm').mpr hlead')
    have hle' := length_components_le (hnorm i m hm) (hnorm j m' hm') ((hlead i m hm).mp hmatch)
      hlead' hle
    refine lt_of_le_of_ne hle' fun heq => hne ?_
    exact hdistinct j i m' m hm' hm
      (chars_eq_of_length (hnorm j m' hm') (hnorm i m hm) hlead' ((hlead i m hm).mp hmatch) heq)
  have hnone : dfsFilesystemLookup table path = none →
      ∀ i m, Mounted table i m → ¬ LeadsTo m path := by
    intro hnull i m hm
    rw [hnull] at hbest
    exact mt (hlead i m hm).mpr (hbest.2 i (hlt i m hm) m hm)
  refine ⟨fun i => ⟨hfound i, ?_⟩, ⟨hnone, fun hno => ?_⟩, fun i m hi hm => ?_⟩
  · rintro ⟨m, hm, hleads, hmax⟩
    cases hres : dfsFilesystemLookup table path with
    | none => exact absurd hleads (hnone hres i m hm)
    | some i' =>
      -- two entries cannot both have more components than the other one
      obtain ⟨m', hm', hleads', hmax'⟩ := hfound i' hres
      by_contra hne
      have hne' : i' ≠ i := fun heq => hne (by rw [heq])
      have h₁ := hmax i' m' hm' hleads' hne'
      have h₂ := hmax' i m hm hleads (Ne.symm hne')
      omega
  · cases hres : dfsFilesystemLookup table path with
    | none => rfl
    | some i =>
      obtain ⟨m, hm, hleads, -⟩ := hfound i hres
      exact absurd hleads (hno i m hm)
  · obtain ⟨m', hm', hleads, -⟩ := hfound i hi
    obtain ⟨entry, hentry, hp, -⟩ := hm
    obtain ⟨entry', hentry', hp', -⟩ := id hm'
    cases hentry.symm.trans hentry'
    cases hp.symm.trans hp'
    exact dfsSubdir_spec (hnorm i m hm') hpath hleads

/-! ### A table -/

/-- `/`. -/
def sampleRoot : CString := ⟨[slash], by decide⟩

/-- `/s`. -/
def sampleMount : CString := ⟨[slash, 0x73], by decide⟩

/-- `/s/x`. -/
def samplePath : CString := ⟨[slash, 0x73, slash, 0x78], by decide⟩

def sampleTable : List Filesystem := [⟨some sampleRoot, some 1⟩, ⟨some sampleMount, some 2⟩]

theorem sampleTable_mounted (h : Mounted sampleTable i m) :
    i = 0 ∧ m = sampleRoot ∨ i = 1 ∧ m = sampleMount := by
  obtain ⟨entry, hentry, hpath, -⟩ := h
  match i with
  | 0 =>
    cases hentry
    cases hpath
    exact .inl ⟨rfl, rfl⟩
  | 1 =>
    cases hentry
    cases hpath
    exact .inr ⟨rfl, rfl⟩
  | i + 2 => simp [sampleTable] at hentry

/-- `/s/x` is on the second file system, and is `/x` there. -/
theorem mount_resolution_sample :
    dfsFilesystemLookup sampleTable samplePath = some 1 ∧
    ∃ dir, dfsSubdir sampleMount samplePath = some dir ∧
      samplePath.chars.drop dir = [slash, 0x78] := by
  have hpath : Normalised slash dot samplePath.chars := .inr ⟨_, rfl, by decide⟩
  have hnorm : ∀ i m, Mounted sampleTable i m → Normalised slash dot m.chars := by
    intro i m hm
    rcases sampleTable_mounted hm with ⟨-, rfl⟩ | ⟨-, rfl⟩
    · exact .inl rfl
    · exact .inr ⟨_, rfl, by decide⟩
  have hdistinct : ∀ i j m m', Mounted sampleTable i m → Mounted sampleTable j m' →
      m.chars = m'.chars → i = j := by
    intro i j m m' hm hm' heq
    rcases sampleTable_mounted hm with ⟨rfl, rfl⟩ | ⟨rfl, rfl⟩
    · rcases sampleTable_mounted hm' with ⟨rfl, rfl⟩ | ⟨rfl, rfl⟩
      · rfl
      · exact absurd heq (by decide)
    · rcases sampleTable_mounted hm' with ⟨rfl, rfl⟩ | ⟨rfl, rfl⟩
      · exact absurd heq (by decide)
      · rfl
  have hlookup : dfsFilesystemLookup sampleTable samplePath = some 1 := by decide
  have hmounted : Mounted sampleTable 1 sampleMount := ⟨_, rfl, rfl, rfl⟩
  obtain ⟨dir, hdir, -, hrest⟩ :=
    ((mount_resolution hpath hnorm hdistinct).2.2 1 sampleMount hlookup hmounted).2 (by decide)
  obtain ⟨r, -, happend⟩ := hrest (by decide)
  have hsplit : sampleMount.chars ++ samplePath.chars.drop dir =
      sampleMount.chars ++ [slash, 0x78] := happend
  exact ⟨hlookup, dir, hdir, append_cancel_left hsplit⟩

end RtThread.Dfs
