import RtThread.Dfs.Basic
import RtThread.Lib.Paths

/-!
# What `dfs_normalize_path` returns

Between two components the block holds what has been written: the components `names`
with a `/` behind each, and a `/` in front of them if this has not been lost
(`Place`). At the root, `..` takes the `/` in front away, and at a place without it
the function returns `RT_NULL`.

* `normLoop_spec`: the loop follows the components of the path from place to place.
* `dfsNormalizePath_eq`: the string that the function returns.
* `normalize_path_iff`: the function returns the normalised path just if no `..`
  climbs above the root.
* `parent_of_root`: at the root, `..` gives the empty string.
-/

namespace RtThread.Dfs

open Cells Paths List Function Option Nat

variable {mem mem₀ : CMem} {src rounds : ℕ} {c : CChar} {s name rest : List CChar}

/-! ## The reading pointer -/

theorem slash_ne_zero : slash ≠ 0 := by decide

theorem dot_ne_zero : dot ≠ 0 := by decide

theorem dot_ne_slash : dot ≠ slash := by decide

theorem skipSlashes_eq (h : StringAt mem src s) (hr : s.length < rounds) :
    skipSlashes mem rounds src = some (src + (s.takeWhile (· = slash)).length) := by
  induction s generalizing src rounds with
  | nil =>
    obtain ⟨rounds, rfl⟩ := exists_eq_add_one.mpr (zero_lt_of_lt hr)
    rw [skipSlashes, h.terminator]
    rfl
  | cons c s ih =>
    obtain ⟨rounds, rfl⟩ := exists_eq_add_one.mpr (zero_lt_of_lt hr)
    rw [skipSlashes, h.head]
    by_cases hc : c = slash
    · rw [if_pos ⟨hc, h.ne_zero⟩, ih h.tail (by simpa using hr),
        takeWhile_cons_of_pos (by simpa), length_cons, add_assoc, add_comm 1]
    · rw [if_neg fun hcond => hc hcond.1, takeWhile_cons_of_neg (by simpa)]
      rfl

/-- The pointer ends up behind the character after the slashes. -/
theorem eatSlashes_eq (h : StringAt mem src s) (hr : s.length < rounds) :
    eatSlashes mem (rounds + 1) slash src = some (src + (s.takeWhile (· = slash)).length + 1) := by
  have heq : ∀ rounds src,
      eatSlashes mem (rounds + 1) slash src = (skipSlashes mem rounds src).map (· + 1) := by
    intro rounds
    induction rounds with
    | zero => exact fun _ => rfl
    | succ rounds ih =>
      intro src
      rw [eatSlashes, if_pos rfl, skipSlashes]
      by_cases hc : mem src = slash
      · rw [hc, ih, if_pos ⟨rfl, slash_ne_zero⟩]
      · rw [eatSlashes, if_neg hc, if_neg fun hcond => hc hcond.1, map_some]
  rw [heq, skipSlashes_eq h hr, map_some]

/-- The path ends here, or there is a slash. -/
def AtEnd (rest : List CChar) : Prop := ∀ c ∈ rest.head?, c = slash

/-- A component that is not `.` or `..` is copied. -/
theorem dots_name (h : StringAt mem src (name ++ rest)) (hsep : slash ∉ name) (hend : AtEnd rest)
    (hdot : name ≠ [dot]) (hdots : name ≠ [dot, dot]) : dots mem rounds src = some (.copy src) := by
  match name, rest with
  | [], [] => rw [dots, h.terminator, if_neg (by decide)]
  | [], c :: rest =>
    rw [dots, h.head, hend c (by simp), if_neg (by decide)]
  | [c], rest =>
    have hc : c ≠ dot := by simpa using hdot
    rw [dots, h.head, if_neg hc]
  | c :: d :: more, rest =>
    simp only [mem_cons, not_or] at hsep
    rw [dots, h.head]
    by_cases hc : c = dot
    · rw [if_pos hc, h.tail.head, if_neg h.tail.ne_zero, if_neg (Ne.symm hsep.2.1)]
      by_cases hd : d = dot
      · subst hc hd
        match more with
        | [] => exact absurd rfl hdots
        | e :: more =>
          simp only [mem_cons, not_or] at hsep
          rw [if_pos rfl, h.tail.tail.head, if_neg h.tail.tail.ne_zero, if_neg (Ne.symm hsep.2.2.1)]
      · rw [if_neg hd]
    · rw [if_neg hc]

theorem dots_dot_end (h : StringAt mem src [dot]) :
    dots mem rounds src = some (.copy (src + 1)) := by
  rw [dots, h.head, if_pos rfl, h.tail.terminator, if_pos rfl]

theorem dots_dot_slash (h : StringAt mem src (dot :: slash :: rest)) (hr : rest.length < rounds) :
    dots mem rounds src = some (.next (src + 2 + (rest.takeWhile (· = slash)).length)) := by
  rw [dots, h.head, if_pos rfl, h.tail.head, if_neg slash_ne_zero, if_pos rfl,
    skipSlashes_eq h.tail.tail hr, map_some]

theorem dots_dots_end (h : StringAt mem src [dot, dot]) :
    dots mem rounds src = some (.upOne (src + 2)) := by
  rw [dots, h.head, if_pos rfl, h.tail.head, if_neg dot_ne_zero, if_neg dot_ne_slash, if_pos rfl,
    h.tail.tail.terminator, if_pos rfl]

theorem dots_dots_slash (h : StringAt mem src (dot :: dot :: slash :: rest))
    (hr : rest.length < rounds) :
    dots mem rounds src = some (.upOne (src + 3 + (rest.takeWhile (· = slash)).length)) := by
  rw [dots, h.head, if_pos rfl, h.tail.head, if_neg dot_ne_zero, if_neg dot_ne_slash, if_pos rfl,
    h.tail.tail.head, if_neg slash_ne_zero, if_pos rfl, skipSlashes_eq h.tail.tail.tail hr,
    map_some]

/-! ## The block -/

/-- The block of `len + 1` characters at `p` holds `w`, up to the writing pointer. Memory outside
the block is as in `mem₀`. -/
structure Written (p len : ℕ) (mem₀ : CMem) (w : List CChar) (k : Cursor) : Prop where
  holds : Holds k.mem p w
  nonzero : 0 ∉ w
  dst : k.dst = p + w.length
  fits : k.dst ≤ p + len
  frame : ∀ a, a < p ∨ p + len < a → k.mem a = mem₀ a

/-- `w` has been written, and `s` is still to be read. -/
structure Buffer (p len : ℕ) (mem₀ : CMem) (w s : List CChar) (k : Cursor) : Prop
    extends Written p len mem₀ w k where
  le : k.dst ≤ k.src
  unread : StringAt k.mem k.src s
  room : k.src + s.length ≤ p + len

variable {p len : ℕ} {v w : List CChar} {k : Cursor}

namespace Buffer

/-- The reading pointer moves on. -/
theorem skip {t : List CChar} (h : Buffer p len mem₀ w (s ++ t) k) :
    Buffer p len mem₀ w t { k with src := k.src + s.length } where
  toWritten := ⟨h.holds, h.nonzero, h.dst, h.fits, h.frame⟩
  le := h.le.trans (Nat.le_add_right ..)
  unread := h.unread.drop
  room := by
    have hroom := h.room
    rw [length_append] at hroom
    show k.src + s.length + t.length ≤ p + len
    omega

theorem skipSlashes (h : Buffer p len mem₀ w s k) :
    Buffer p len mem₀ w (s.dropWhile (· = slash))
      { k with src := k.src + (s.takeWhile (· = slash)).length } := by
  rw [← takeWhile_append_dropWhile (p := (· = slash)) (l := s)] at h
  exact h.skip

/-- The writing pointer moves back. -/
theorem back (h : Buffer p len mem₀ (v ++ w) s k) :
    Buffer p len mem₀ v s { k with dst := p + v.length } := by
  have hdst := h.dst
  have hfits := h.fits
  have hle := h.le
  rw [length_append] at hdst
  refine ⟨⟨(holds_append.mp h.holds).1, fun hv => h.nonzero (mem_append_left w hv), rfl, ?_,
    h.frame⟩, ?_, h.unread, h.room⟩
  · show p + v.length ≤ p + len
    omega
  · show p + v.length ≤ k.src
    omega

/-- A character is read and written. -/
theorem put (h : Buffer p len mem₀ w (c :: s) k) :
    Buffer p len mem₀ (w ++ [c]) s ⟨update k.mem k.dst c, k.src + 1, k.dst + 1⟩ := by
  have hle := h.le
  have hroom := h.room
  have hdst := h.dst
  rw [length_cons] at hroom
  refine ⟨⟨?_, ?_, ?_, ?_, fun a ha => ?_⟩, ?_, h.unread.tail.update (by omega) c, ?_⟩
  · rw [h.dst]
    exact h.holds.put c
  · rw [mem_append, mem_singleton, not_or]
    exact ⟨h.nonzero, Ne.symm h.unread.ne_zero⟩
  · rw [length_append, length_singleton, ← add_assoc, ← hdst]
  · show k.dst + 1 ≤ p + len
    omega
  · rw [← h.frame a ha]
    exact update_of_ne (by omega) _ _
  · exact Nat.add_le_add_right hle 1
  · show k.src + 1 + s.length ≤ p + len
    omega

/-- A component is copied, and the pointer is behind the character that ends it. -/
theorem copyName_eq (h : Buffer p len mem₀ w (name ++ rest) k) (hsep : slash ∉ name)
    (hend : AtEnd rest) (hr : name.length < rounds) :
    ∃ k', copyName rounds k = some (k'.mem k'.src, { k' with src := k'.src + 1 }) ∧
      Buffer p len mem₀ (w ++ name) rest k' := by
  induction name generalizing w k rounds with
  | nil =>
    obtain ⟨rounds, rfl⟩ := exists_eq_add_one.mpr (zero_lt_of_lt hr)
    refine ⟨k, ?_, by rwa [append_nil]⟩
    have hstop : ¬ (k.mem k.src ≠ 0 ∧ k.mem k.src ≠ slash) := by
      match rest with
      | [] => exact fun hcond => hcond.1 h.unread.terminator
      | c :: rest => exact fun hcond => hcond.2 (h.unread.head.trans (hend c (by simp)))
    exact if_neg hstop
  | cons c name ih =>
    obtain ⟨rounds, rfl⟩ := exists_eq_add_one.mpr (zero_lt_of_lt hr)
    simp only [mem_cons, not_or] at hsep
    obtain ⟨k', hcopy, hk'⟩ := ih h.put hsep.2 (by simpa using hr)
    refine ⟨k', ?_, by simpa using hk'⟩
    have hgo : c ≠ 0 ∧ c ≠ slash := ⟨h.unread.ne_zero, Ne.symm hsep.1⟩
    rw [copyName, h.unread.head, if_pos hgo, hcopy]

/-- The last component is copied. -/
theorem copyUp_last (h : Buffer p len mem₀ w name k) (hsep : slash ∉ name)
    (hr : name.length < rounds) :
    ∃ k', copyUp rounds k = some (false, k') ∧ Written p len mem₀ (w ++ name) k' := by
  rw [← append_nil name] at h
  obtain ⟨k', hcopy, hk'⟩ := h.copyName_eq hsep (fun c hc => absurd hc (by simp)) hr
  refine ⟨{ k' with src := k'.src + 1 }, ?_, hk'.holds, hk'.nonzero, hk'.dst, hk'.fits, hk'.frame⟩
  rw [copyUp, hcopy, hk'.unread.terminator, bind_some]
  dsimp only
  rw [if_neg (by decide), if_pos rfl]

/-- A component is copied with one slash, and the slashes behind it are skipped. -/
theorem copyUp_slash (h : Buffer p len mem₀ w (name ++ slash :: rest) k) (hsep : slash ∉ name)
    (hr : name.length + rest.length + 1 < rounds) :
    ∃ k', copyUp rounds k = some (true, k') ∧
      Buffer p len mem₀ (w ++ name ++ [slash]) (rest.dropWhile (· = slash)) k' := by
  obtain ⟨k', hcopy, hk'⟩ := h.copyName_eq hsep (fun c hc => by simpa using hc.symm)
    (show name.length < rounds by omega)
  have hput := hk'.put
  obtain ⟨rounds, rfl⟩ := exists_eq_add_one.mpr (zero_lt_of_lt hr)
  refine ⟨_, ?_, hput.skipSlashes⟩
  rw [copyUp, hcopy, hk'.unread.head, bind_some]
  dsimp only
  rw [eatSlashes_eq hput.unread (by omega)]
  rfl

end Buffer

/-! ## Places -/

/-- What has been written between two components: `names`, and the `/` in front of them if `rooted`.
-/
structure Place where
  rooted : Bool
  names : List (List CChar)
  deriving DecidableEq, Repr

namespace Place

variable {pl pl' : Place} {c : List CChar}

def root (pl : Place) : List CChar := if pl.rooted then [slash] else []

/-- The block, with a `/` behind each component. -/
def opened (pl : Place) : List CChar := pl.root ++ pl.names.flatMap (· ++ [slash])

/-- The path. -/
def closed (pl : Place) : List CChar := if pl.names = [] then pl.root else pl.opened.dropLast

/-- `up_one`. -/
def up (pl : Place) : Option Place :=
  if pl.names = [] then if pl.rooted then some ⟨false, []⟩ else none
  else some { pl with names := pl.names.dropLast }

def push (pl : Place) (c : List CChar) : Place := { pl with names := pl.names ++ [c] }

/-- The loop follows one component. -/
def enter (pl : Place) (c : List CChar) : Option Place :=
  if c = [dot] then some pl else if c = [dot, dot] then pl.up else some (pl.push c)

def follow (pl : Place) (cs : List (List CChar)) : Option Place := cs.foldlM enter pl

section

variable (pl : Place) (c : List CChar)

theorem follow_cons (cs : List (List CChar)) :
    pl.follow (c :: cs) = (pl.enter c).bind fun pl => pl.follow cs :=
  foldlM_cons

/-- All components are names. -/
def Proper (pl : Place) : Prop := ∀ n ∈ pl.names, Paths.Proper slash dot n

theorem opened_push : (pl.push c).opened = pl.opened ++ c ++ [slash] := by
  show pl.root ++ (pl.names ++ [c]).flatMap (· ++ [slash]) = _
  rw [opened]
  simp

theorem closed_push : (pl.push c).closed = pl.opened ++ c := by
  rw [closed, if_neg (by simp [push]), opened_push, dropLast_concat]

/-- A place is a root, or the place of its last name. -/
theorem eq_push : pl.names = [] ∨ ∃ pl' c, pl = push pl' c := by
  rcases eq_nil_or_concat pl.names with h | ⟨ns, c, h⟩
  · exact .inl h
  · refine .inr ⟨⟨pl.rooted, ns⟩, c, ?_⟩
    rw [push, ← concat_eq_append, ← h]

theorem up_push : (pl.push c).up = some pl := by
  rw [up, if_neg (by simp [push]), push, dropLast_concat]

theorem opened_eq : pl.opened = [] ∨ ∃ v, pl.opened = v ++ [slash] := by
  rcases pl.eq_push with h | ⟨pl', c, rfl⟩
  · cases hroot : pl.rooted with
    | true => exact .inr ⟨[], by simp [opened, root, h, hroot]⟩
    | false => exact .inl (by simp [opened, root, h, hroot])
  · exact .inr ⟨_, opened_push pl' c⟩

end

variable (h : pl.Proper)
include h

theorem Proper.push (hc : Paths.Proper slash dot c) : (pl.push c).Proper := by
  intro n hn
  rcases mem_append.mp hn with hn | hn
  · exact h n hn
  · rwa [mem_singleton.mp hn]

theorem Proper.up (hup : pl.up = some pl') : pl'.Proper := by
  rcases pl.eq_push with hnil | ⟨pl₁, c, rfl⟩
  · rw [Place.up] at hup
    split_ifs at hup
    cases hup
    exact fun n hn => absurd hn (by simp)
  · rw [up_push] at hup
    cases hup
    exact fun n hn => h n (mem_append_left _ hn)

theorem Proper.enter (hne : c ≠ []) (hsep : slash ∉ c) (hent : pl.enter c = some pl') :
    pl'.Proper := by
  unfold Place.enter at hent
  split_ifs at hent with hdot hdots
  · cases hent
    exact h
  · exact h.up hent
  · cases hent
    exact h.push ⟨hne, hsep, hdot, hdots⟩

theorem Proper.follow {cs : List (List CChar)} (hcs : ∀ c ∈ cs, c ≠ [] ∧ slash ∉ c)
    (hf : pl.follow cs = some pl') : pl'.Proper := by
  induction cs generalizing pl with
  | nil =>
    cases hf
    exact h
  | cons c cs ih =>
    rw [follow_cons] at hf
    obtain ⟨pl₁, hent, hf⟩ := bind_eq_some_iff.mp hf
    obtain ⟨hne, hsep⟩ := hcs c (by simp)
    exact ih (h.enter hne hsep hent) (fun d hd => hcs d (by simp [hd])) hf

end Place

variable {pl pl' : Place}

theorem scanBack_self (mem : CMem) (p : ℕ) : scanBack mem p p = p := by
  cases p with
  | zero => rfl
  | succ p => rw [scanBack, if_neg fun hcond => absurd hcond.1 (lt_irrefl _)]

/-- `up_one` scans back over a name. -/
theorem scanBack_eq (h : Holds mem p (w ++ name)) (hsep : slash ∉ name)
    (hw : w = [] ∨ ∃ v, w = v ++ [slash]) :
    scanBack mem p (p + (w ++ name).length) = p + w.length := by
  induction name using reverseRecOn with
  | nil =>
    rw [append_nil] at h ⊢
    rcases hw with rfl | ⟨v, rfl⟩
    · exact scanBack_self mem p
    · have hlast : mem (p + v.length) = slash := (holds_append.mp h).2.1
      rw [length_append, length_singleton, ← add_assoc, scanBack,
        if_neg fun hcond => hcond.2 hlast]
  | append_singleton name c ih =>
    rw [mem_append, not_or, mem_singleton] at hsep
    rw [← append_assoc] at h ⊢
    obtain ⟨hinit, hlast, -⟩ := holds_append.mp h
    have hgo : p < p + (w ++ name).length + 1 ∧ mem (p + (w ++ name).length) ≠ slash := by
      rw [hlast]
      exact ⟨by omega, Ne.symm hsep.2⟩
    rw [length_append, length_singleton, ← add_assoc, scanBack, if_pos hgo]
    exact ih hinit hsep.1

theorem upOne_eq (hp : 0 < p) (h : Holds mem p pl.opened) (hpl : pl.Proper) :
    upOne mem p (p + pl.opened.length) = pl.up.map fun pl' => p + pl'.opened.length := by
  rcases pl.eq_push with hnil | ⟨pl', c, rfl⟩
  · cases hroot : pl.rooted with
    | true =>
      have hopen : pl.opened = [slash] := by simp [Place.opened, Place.root, hnil, hroot]
      rw [Place.up, if_pos hnil, if_pos hroot, hopen, upOne, length_singleton,
        Nat.add_sub_cancel, if_neg (lt_irrefl _), scanBack_self]
      rfl
    | false =>
      have hopen : pl.opened = [] := by simp [Place.opened, Place.root, hnil, hroot]
      rw [Place.up, if_pos hnil, if_neg (by simp [hroot]), hopen, upOne, length_nil,
        if_pos (by omega)]
      rfl
  · have hc : Paths.Proper slash dot c := hpl c (by simp [Place.push])
    rw [Place.opened_push] at h ⊢
    rw [Place.up_push, upOne, length_append, length_singleton, ← add_assoc,
      Nat.add_sub_cancel, if_neg (by omega), scanBack_eq (holds_append.mp h).1 hc.sep pl'.opened_eq]
    rfl

/-- `up_one` keeps what the block holds up to the place above. -/
theorem Buffer.up (h : Buffer p len mem₀ pl.opened s k) (hup : pl.up = some pl') :
    Buffer p len mem₀ pl'.opened s { k with dst := p + pl'.opened.length } := by
  rcases pl.eq_push with hnil | ⟨pl₁, c, rfl⟩
  · rw [Place.up] at hup
    split_ifs at hup
    cases hup
    exact (show Buffer p len mem₀ ([] ++ pl.opened) s k from h).back
  · rw [Place.up_push] at hup
    cases hup
    rw [Place.opened_push, append_assoc] at h
    exact h.back

/-! ## The loop -/

/-- The loop ends at the place `pl`, or the function returns `RT_NULL`. -/
def Ends (p len : ℕ) (mem₀ : CMem) (r : Option (Option Cursor)) : Option Place → Prop
  | none => r = some none
  | some pl => ∃ k w, r = some (some k) ∧ (w = pl.opened ∨ w = pl.closed) ∧
      Written p len mem₀ w k

/-- The last component is copied. -/
theorem normLoop_last (hd : dots k.mem (rounds + 1) k.src = some (.copy src))
    (h : Buffer p len mem₀ w name { k with src := src }) (hsep : slash ∉ name)
    (hr : name.length < rounds + 1) :
    ∃ k', normLoop p (rounds + 1) k = some (some k') ∧ Written p len mem₀ (w ++ name) k' := by
  obtain ⟨k', hcopy, hk'⟩ := h.copyUp_last hsep hr
  refine ⟨k', ?_, hk'⟩
  rw [normLoop, hd, bind_some]
  dsimp only
  rw [hcopy]
  rfl

/-- `..` leads to the place above, if there is one. -/
theorem normLoop_up {cs : List (List CChar)} (hp : 0 < p) (hpl : pl.Proper)
    (hd : dots k.mem (rounds + 1) k.src = some (.upOne src))
    (h : Buffer p len mem₀ pl.opened s { k with src := src })
    (hnext : ∀ (pl' : Place) (k' : Cursor), pl'.Proper → Buffer p len mem₀ pl'.opened s k' →
      Ends p len mem₀ (normLoop p rounds k') (pl'.follow cs)) :
    Ends p len mem₀ (normLoop p (rounds + 1) k) (pl.up.bind fun pl => pl.follow cs) := by
  have hup : upOne k.mem p k.dst = pl.up.map fun pl' => p + pl'.opened.length := by
    rw [show k.dst = p + pl.opened.length from h.dst]
    exact upOne_eq hp h.holds hpl
  rw [normLoop, hd]
  rw [hup]
  cases hplace : pl.up with
  | none => rfl
  | some pl' => exact hnext pl' _ (hpl.up hplace) (h.up hplace)

/-- At the end of the path. -/
theorem normLoop_nil (h : Buffer p len mem₀ pl.opened [] k) (hr : 0 < rounds) :
    Ends p len mem₀ (normLoop p rounds k) (some pl) := by
  obtain ⟨rounds, rfl⟩ := exists_eq_add_one.mpr hr
  have hdots : dots k.mem (rounds + 1) k.src = some (.copy k.src) :=
    dots_name (show StringAt k.mem k.src ([] ++ []) from h.unread) (by simp)
      (fun c hc => absurd hc (by simp)) (by simp) (by simp)
  obtain ⟨k', hk, hk'⟩ := normLoop_last hdots h (by simp) (by simp)
  exact ⟨k', _, hk, .inl rfl, by simpa using hk'⟩

/-- The loop follows the last component. -/
theorem normLoop_component (hp : 0 < p) (h : Buffer p len mem₀ pl.opened name k) (hpl : pl.Proper)
    (hne : name ≠ []) (hsep : slash ∉ name) (hr : name.length < rounds + 1) :
    Ends p len mem₀ (normLoop p (rounds + 1) k) (pl.enter name) := by
  by_cases hdot : name = [dot]
  · subst hdot
    have hend : Buffer p len mem₀ pl.opened ([] : List CChar) { k with src := k.src + 1 } :=
      Buffer.skip (s := [dot]) h
    obtain ⟨k', hk, hk'⟩ := normLoop_last (dots_dot_end h.unread) hend (by simp) (by simp)
    exact ⟨k', _, hk, .inl rfl, by simpa using hk'⟩
  · rw [Place.enter, if_neg hdot]
    by_cases hdots : name = [dot, dot]
    · subst hdots
      have hsame : pl.up = pl.up.bind fun pl => pl.follow [] := (bind_fun_some _).symm
      rw [hsame]
      have hend : Buffer p len mem₀ pl.opened ([] : List CChar) { k with src := k.src + 2 } :=
        Buffer.skip (s := [dot, dot]) h
      refine normLoop_up hp hpl (dots_dots_end h.unread) hend fun pl' k' _ hk' => ?_
      simp only [length_cons, length_nil] at hr
      exact normLoop_nil hk' (by omega)
    · rw [if_neg hdots]
      have hcopy : dots k.mem (rounds + 1) k.src = some (.copy k.src) :=
        dots_name (show StringAt k.mem k.src (name ++ []) by simpa using h.unread) hsep
          (fun c hc => absurd hc (by simp)) hdot hdots
      obtain ⟨k', hk, hk'⟩ := normLoop_last hcopy h hsep hr
      exact ⟨k', _, hk, .inr (pl.closed_push name).symm, hk'⟩

/-- The loop follows the components of the path. -/
theorem normLoop_spec (hp : 0 < p) (s : List CChar) (hs : s.head? ≠ some slash) :
    ∀ (pl : Place) (k : Cursor) (rounds : ℕ), pl.Proper → Buffer p len mem₀ pl.opened s k →
      s.length < rounds →
        Ends p len mem₀ (normLoop p rounds k) (pl.follow (components slash s)) := by
  refine pathInduction (P := fun s => ∀ (pl : Place) (k : Cursor) (rounds : ℕ), pl.Proper →
    Buffer p len mem₀ pl.opened s k → s.length < rounds →
      Ends p len mem₀ (normLoop p rounds k) (pl.follow (components slash s)))
    ?_ (fun name hne hsep => ?_) (fun name rest hne hsep ih => ?_) s hs
  · intro pl k rounds _ h hr
    rw [components_nil]
    exact normLoop_nil h hr
  · intro pl k rounds hpl h hr
    obtain ⟨rounds, rfl⟩ := exists_eq_add_one.mpr (zero_lt_of_lt hr)
    rw [components_name hne hsep, Place.follow_cons]
    have hlast := normLoop_component hp h hpl hne hsep hr
    cases hplace : pl.enter name <;> rwa [hplace] at hlast
  · intro pl k rounds hpl h hr
    obtain ⟨rounds, rfl⟩ := exists_eq_add_one.mpr (zero_lt_of_lt hr)
    have hdrop : (rest.dropWhile (· = slash)).length ≤ rest.length :=
      (dropWhile_sublist _).length_le
    rw [length_append, length_cons] at hr
    rw [components_append, components_name hne hsep, singleton_append, Place.follow_cons,
      ← components_dropWhile slash rest, Place.enter]
    by_cases hdot : name = [dot]
    · subst hdot
      have hnext : Buffer p len mem₀ pl.opened rest { k with src := k.src + 2 } :=
        Buffer.skip (s := [dot, slash]) h
      have hloop := ih pl _ rounds hpl hnext.skipSlashes (by omega)
      rw [normLoop, dots_dot_slash h.unread (by omega)]
      exact hloop
    · rw [if_neg hdot]
      by_cases hdots : name = [dot, dot]
      · subst hdots
        have hnext : Buffer p len mem₀ pl.opened rest { k with src := k.src + 3 } :=
          Buffer.skip (s := [dot, dot, slash]) h
        refine normLoop_up hp hpl (dots_dots_slash h.unread (by omega))
          hnext.skipSlashes fun pl' k' hpl' hk' => ih pl' k' rounds hpl' hk' ?_
        omega
      · rw [if_neg hdots]
        have hcopy : dots k.mem (rounds + 1) k.src = some (.copy k.src) :=
          dots_name h.unread hsep (fun c hc => by simpa using hc.symm) hdot hdots
        obtain ⟨k', hk, hk'⟩ := h.copyUp_slash hsep
          (show name.length + rest.length + 1 < rounds + 1 by omega)
        rw [← Place.opened_push] at hk'
        have hloop := ih (pl.push name) k' rounds (hpl.push ⟨hne, hsep, hdot, hdots⟩) hk' (by omega)
        rw [normLoop, hcopy, bind_some]
        dsimp only
        rw [hk]
        exact hloop

/-! ## The end of the path -/

namespace Written

/-- A path that does not end with a slash, or is only a slash, is kept. -/
theorem cutSlash_keep (h : Written p len mem₀ w k)
    (hw : w = [slash] ∨ ∃ c v, c ≠ slash ∧ w = v ++ [c]) :
    StringAt (cutSlash p k) p w ∧ ∀ a, a < p ∨ p + len < a → cutSlash p k a = mem₀ a := by
  have hdst := h.dst
  have hfits := h.fits
  have hstring : StringAt (update k.mem k.dst 0) p w := by
    refine ⟨?_, h.nonzero⟩
    rw [hdst]
    exact h.holds.put 0
  have hstop : ¬ (k.dst - 1 ≠ p ∧ update k.mem k.dst 0 (k.dst - 1) = slash) := by
    rintro ⟨hne, hlast⟩
    rcases hw with rfl | ⟨c, v, hc, rfl⟩
    · simp at hdst
      omega
    · rw [length_append, length_singleton] at hdst
      rw [update_of_ne (by omega), show k.dst - 1 = p + v.length by omega] at hlast
      exact hc ((holds_append.mp h.holds).2.1.symm.trans hlast)
  have hcut : cutSlash p k = update k.mem k.dst 0 := if_neg hstop
  rw [hcut]
  refine ⟨hstring, fun a ha => ?_⟩
  rw [update_of_ne (by omega)]
  exact h.frame a ha

/-- A slash at the end is taken away. -/
theorem cutSlash_slash (h : Written p len mem₀ (v ++ [slash]) k) (hv : v ≠ []) :
    StringAt (cutSlash p k) p v ∧ ∀ a, a < p ∨ p + len < a → cutSlash p k a = mem₀ a := by
  have hdst := h.dst
  have hfits := h.fits
  have hlen := length_pos_iff.mpr hv
  rw [length_append, length_singleton] at hdst
  obtain ⟨hholds, hlast, -⟩ := holds_append.mp h.holds
  have hgo : k.dst - 1 ≠ p ∧ update k.mem k.dst 0 (k.dst - 1) = slash := by
    rw [update_of_ne (by omega), show k.dst - 1 = p + v.length by omega]
    exact ⟨by omega, hlast⟩
  have hcut : cutSlash p k = update (update k.mem k.dst 0) (k.dst - 1) 0 := if_pos hgo
  rw [hcut]
  refine ⟨⟨?_, fun h0 => h.nonzero (mem_append_left _ h0)⟩, fun a ha => ?_⟩
  · rw [show k.dst - 1 = p + v.length by omega]
    exact (hholds.update (.inr (by omega)) 0).put 0
  · rw [update_of_ne (by omega), update_of_ne (by omega)]
    exact h.frame a ha

/-- If nothing has been written, the character in front of the block is looked at, and may be
overwritten. -/
theorem cutSlash_nil (hp : 0 < p) (h : Written p len mem₀ [] k) : StringAt (cutSlash p k) p [] := by
  have hdst : k.dst = p := h.dst
  refine ⟨⟨?_, trivial⟩, by simp⟩
  unfold cutSlash
  split_ifs
  · rw [update_of_ne (by omega), hdst, update_self]
  · rw [hdst, update_self]

/-- The string that is returned. -/
theorem cutSlash_place (hp : 0 < p) (h : Written p len mem₀ w k) (hpl : pl.Proper)
    (hw : w = pl.opened ∨ w = pl.closed) :
    StringAt (cutSlash p k) p pl.closed ∧
      (pl.closed ≠ [] → ∀ a, a < p ∨ p + len < a → cutSlash p k a = mem₀ a) := by
  rcases pl.eq_push with hnil | ⟨pl', c, rfl⟩
  · have hclosed : pl.closed = pl.root := if_pos hnil
    have hw' : w = pl.root := by
      rcases hw with rfl | rfl
      · simp [Place.opened, hnil]
      · exact hclosed
    rw [hclosed]
    cases hroot : pl.rooted with
    | true =>
      have hslash : pl.root = [slash] := if_pos hroot
      rw [hslash] at hw' ⊢
      subst hw'
      obtain ⟨hstring, hframe⟩ := h.cutSlash_keep (.inl rfl)
      exact ⟨hstring, fun _ => hframe⟩
    | false =>
      have hempty : pl.root = [] := if_neg (by simp [hroot])
      rw [hempty] at hw' ⊢
      subst hw'
      exact ⟨cutSlash_nil hp h, fun hne => absurd rfl hne⟩
  · have hc : Paths.Proper slash dot c := hpl c (by simp [Place.push])
    rw [Place.opened_push, Place.closed_push] at hw
    rw [Place.closed_push]
    rcases hw with rfl | rfl
    · obtain ⟨hstring, hframe⟩ := h.cutSlash_slash (by simp [hc.ne_nil])
      exact ⟨hstring, fun _ => hframe⟩
    · obtain ⟨init, x, rfl⟩ : ∃ init x, c = init ++ [x] :=
        ⟨_, _, (dropLast_append_getLast hc.ne_nil).symm⟩
      have hx : x ≠ slash := by
        rintro rfl
        exact hc.sep (by simp)
      obtain ⟨hstring, hframe⟩ := h.cutSlash_keep
        (.inr ⟨x, pl'.opened ++ init, hx, by rw [append_assoc]⟩)
      exact ⟨hstring, fun _ => hframe⟩

end Written

/-! ## The function -/

/-- `dfs_normalize_path` follows the components of the path from the root: it returns the path of
the place where they lead, or `RT_NULL`. -/
theorem dfsNormalizePath_eq {workingDirectory directory : Option CString} {filename : CString}
    {path : List CChar} (hpath : fullPath (directory.or workingDirectory) filename = some path)
    (hslash : path.head? = some slash) (hzero : 0 ∉ path) (hp : 0 < p)
    (hr : path.length + 1 < rounds) (mem : CMem) :
    match Place.follow ⟨true, []⟩ (components slash path) with
    | none =>
      dfsNormalizePath workingDirectory directory filename (some p) mem rounds = some none
    | some pl => ∃ mem', pl.Proper ∧
      dfsNormalizePath workingDirectory directory filename (some p) mem rounds =
        some (some (p, mem')) ∧
      StringAt mem' p pl.closed ∧
      (pl.closed ≠ [] → ∀ a, a < p ∨ p + path.length < a → mem' a = mem a) := by
  obtain ⟨rest, rfl⟩ : ∃ rest, path = slash :: rest := by
    cases path with
    | nil => simp at hslash
    | cons c rest => exact ⟨rest, by simpa using hslash⟩
  set path := slash :: rest
  have hrest : rest.length + 1 = path.length := rfl
  have hdrop : (rest.dropWhile (· = slash)).length ≤ rest.length := (dropWhile_sublist _).length_le
  obtain ⟨rounds, rfl⟩ := exists_eq_add_one.mpr (zero_lt_of_lt hr)
  -- the path is in the block, and nothing has been written
  set k : Cursor := ⟨write mem p (path ++ [0]), p, p⟩
  have hbuffer : Buffer p path.length mem [] ([] ++ slash :: rest) k := by
    refine ⟨⟨trivial, by simp, rfl, Nat.le_add_right .., fun a ha => ?_⟩, le_rfl,
      ⟨holds_write .., hzero⟩, le_rfl⟩
    exact write_outside (by simp only [length_append, length_singleton]; omega)
  -- the first round copies the slash in front
  have hdots : dots k.mem (rounds + 1) k.src = some (.copy k.src) :=
    dots_name hbuffer.unread (by simp) (fun c hc => by simpa using hc.symm) (by simp) (by simp)
  obtain ⟨k', hcopy, hk'⟩ := hbuffer.copyUp_slash (by simp)
    (show ([] : List CChar).length + rest.length + 1 < rounds + 1 by simp; omega)
  have hloop : normLoop p (rounds + 1) k = normLoop p rounds k' := by
    rw [normLoop, hdots, bind_some]
    dsimp only
    rw [hcopy]
    rfl
  have hroot : (⟨true, []⟩ : Place).Proper := fun n hn => absurd hn (by simp)
  have hends := normLoop_spec hp _ (head?_dropWhile_ne slash rest) ⟨true, []⟩ k' rounds hroot hk'
    (by omega)
  rw [components_dropWhile, ← components_sep_cons slash rest, ← hloop] at hends
  have hfun : dfsNormalizePath workingDirectory directory filename (some p) mem (rounds + 1) =
      (normLoop p (rounds + 1) k).map fun k => k.map fun k => (p, cutSlash p k) := by
    unfold dfsNormalizePath
    rw [hpath]
  rw [hfun]
  cases hplace : Place.follow ⟨true, []⟩ (components slash path) with
  | none =>
    rw [hplace] at hends
    rw [show normLoop p (rounds + 1) k = some none from hends]
    rfl
  | some pl =>
    rw [hplace] at hends
    obtain ⟨k₁, w, hk₁, hw, hwritten⟩ := hends
    have hpl : pl.Proper := hroot.follow (fun c hc => mem_components hc) hplace
    obtain ⟨hstring, hframe⟩ := hwritten.cutSlash_place hp hpl hw
    exact ⟨cutSlash p k₁, hpl, by rw [hk₁]; rfl, hstring, hframe⟩

/-! ## The path that is meant -/

/-- The components of the path that `filename` stands for, in `directory` unless it is an absolute
path; `none` if a `..` climbs above the root. -/
def target (directory filename : CString) : Option (List (List CChar)) :=
  resolve dot (if filename.chars.head? = some slash then [] else components slash directory.chars)
    (components slash filename.chars)

namespace Place

theorem enter_rooted (names : List (List CChar)) (c : List CChar) :
    enter ⟨true, names⟩ c =
      some (match Paths.enter dot names c with
        | some names' => ⟨true, names'⟩
        | none => ⟨false, []⟩) := by
  unfold Place.enter Paths.enter
  by_cases hdot : c = [dot]
  · rw [if_pos hdot, if_pos hdot]
  · rw [if_neg hdot, if_neg hdot]
    by_cases hdots : c = [dot, dot]
    · rw [if_pos hdots, if_pos hdots, up]
      by_cases hnil : names = []
      · rw [if_pos hnil, if_pos hnil]
        rfl
      · rw [if_neg hnil, if_neg hnil]
    · rw [if_neg hdots, if_neg hdots]
      rfl

theorem enter_unrooted {c : List CChar} (h : pl.rooted = false) (hent : pl.enter c = some pl') :
    pl'.rooted = false := by
  unfold Place.enter at hent
  split_ifs at hent with hdot hdots
  · cases hent
    exact h
  · unfold up at hent
    split_ifs at hent with hnil hroot
    · rw [h] at hroot
      cases hroot
    · cases hent
      exact h
  · cases hent
    exact h

theorem follow_unrooted {cs : List (List CChar)} (h : pl.rooted = false)
    (hf : pl.follow cs = some pl') : pl'.rooted = false := by
  induction cs generalizing pl with
  | nil =>
    cases hf
    exact h
  | cons c cs ih =>
    rw [follow_cons] at hf
    obtain ⟨pl₁, hent, hf⟩ := bind_eq_some_iff.mp hf
    exact ih (enter_unrooted h hent) hf

/-- The loop is at the root of a path just as long as no `..` has climbed above it. -/
theorem follow_rooted (names cs : List (List CChar)) :
    match resolve dot names cs with
    | some names' => follow ⟨true, names⟩ cs = some ⟨true, names'⟩
    | none => ∀ pl, follow ⟨true, names⟩ cs = some pl → pl.rooted = false := by
  induction cs generalizing names with
  | nil => rfl
  | cons c cs ih =>
    rw [follow_cons, enter_rooted, resolve, foldlM_cons]
    cases Paths.enter dot names c with
    | some names' => exact ih names'
    | none => exact fun pl hpl => follow_unrooted rfl hpl

theorem closed_rooted (names : List (List CChar)) : closed ⟨true, names⟩ = render slash names := by
  have hshift : ∀ names : List (List CChar),
      slash :: names.flatMap (· ++ [slash]) = names.flatMap (slash :: ·) ++ [slash] := by
    intro names
    induction names with
    | nil => rfl
    | cons n names ih =>
      rw [flatMap_cons, append_assoc, singleton_append, ih]
      simp
  unfold closed render
  by_cases hnil : names = []
  · rw [if_pos hnil, if_pos hnil]
    rfl
  · rw [if_neg hnil, if_neg hnil]
    show (slash :: names.flatMap (· ++ [slash])).dropLast = _
    rw [hshift, dropLast_concat]

/-- Without the slash in front, a path does not begin with a slash. -/
theorem closed_unrooted (hpl : pl.Proper) (h : pl.rooted = false) :
    pl.closed.head? ≠ some slash := by
  have hroot : pl.root = [] := if_neg (by simp [h])
  cases hnames : pl.names with
  | nil =>
    rw [closed, if_pos hnames, hroot]
    simp
  | cons n names =>
    obtain ⟨hne, hsep, -, -⟩ := hpl n (by simp [hnames])
    obtain ⟨x, n, rfl⟩ := exists_cons_of_ne_nil hne
    have hopen : pl.opened = x :: ((n ++ [slash]) ++ names.flatMap (· ++ [slash])) := by
      simp [opened, hroot, hnames]
    have hx : x ≠ slash := by
      rintro rfl
      exact hsep (by simp)
    rw [closed, if_neg (by simp [hnames]), hopen, dropLast_cons_of_ne_nil (by simp)]
    simpa using hx

end Place

/-- The path in the block begins with a slash, and its components lead to `target`. -/
theorem fullPath_eq {directory : CString} (hnorm : Normalised slash dot directory.chars)
    (filename : CString) :
    ∃ path, fullPath (some directory) filename = some path ∧ path.head? = some slash ∧ 0 ∉ path ∧
      path.length ≤ directory.chars.length + filename.chars.length + 1 ∧
      resolve dot [] (components slash path) = target directory filename := by
  unfold fullPath target
  by_cases habs : filename.chars.head? = some slash
  · rw [if_neg (not_not.mpr habs), if_pos habs]
    exact ⟨_, rfl, habs, filename.nonzero, by omega, rfl⟩
  · rw [if_pos habs, if_neg habs]
    obtain ⟨hnames, hrender⟩ := hnorm.components
    refine ⟨_, rfl, ?_, ?_, ?_, ?_⟩
    · rcases hnorm with hroot | ⟨q, hq, -⟩
      · simp [hroot]
      · simp [hq]
    · rw [mem_append, mem_cons, not_or, not_or]
      exact ⟨directory.nonzero, by decide, filename.nonzero⟩
    · simp only [length_append, length_cons]
      omega
    · rw [components_append, resolve_append, resolve_names hnames]
      rfl

/-- For every working directory that is a normalised absolute path and every path, if the block is
allocated, `dfs_normalize_path` returns. It returns `RT_NULL` only if some `..` climbs above the
root. If none does, it returns the path with the components that the path leads to, which is
normalised: it begins with `/`, has no component that is empty, `.` or `..`, and no `/` at its end
unless it is `/`. It returns a path that begins with `/` only in this case. -/
theorem normalize_path_iff {workingDirectory directory : Option CString}
    {currentDirectory filename : CString}
    (hdir : directory.or workingDirectory = some currentDirectory)
    (hnorm : Normalised slash dot currentDirectory.chars) (hp : 0 < p)
    (hr : currentDirectory.chars.length + filename.chars.length + 2 < rounds) (mem : CMem) :
    (dfsNormalizePath workingDirectory directory filename (some p) mem rounds).isSome ∧
    (dfsNormalizePath workingDirectory directory filename (some p) mem rounds = some none →
      target currentDirectory filename = none) ∧
    (∀ names, target currentDirectory filename = some names → ∃ mem',
      dfsNormalizePath workingDirectory directory filename (some p) mem rounds =
        some (some (p, mem')) ∧
      StringAt mem' p (render slash names) ∧ Normalised slash dot (render slash names) ∧
      (render slash names = [slash] ∨ (render slash names).getLast? ≠ some slash)) ∧
    ((∃ mem' s, dfsNormalizePath workingDirectory directory filename (some p) mem rounds =
        some (some (p, mem')) ∧ StringAt mem' p (slash :: s)) ↔
      (target currentDirectory filename).isSome) := by
  obtain ⟨path, hpath, hslash, hzero, hlen, htarget⟩ := fullPath_eq hnorm filename
  rw [← hdir] at hpath
  have heq := dfsNormalizePath_eq hpath hslash hzero hp (show path.length + 1 < rounds by omega) mem
  have hrooted := Place.follow_rooted [] (components slash path)
  rw [htarget] at hrooted
  cases hnames : target currentDirectory filename with
  | some names =>
    rw [hnames] at hrooted
    rw [show Place.follow ⟨true, []⟩ _ = some _ from hrooted] at heq
    obtain ⟨mem', hpl, hres, hstring, -⟩ := heq
    rw [Place.closed_rooted] at hstring
    have hnormal : Normalised slash dot (render slash names) := normalised_iff.mpr ⟨names, hpl, rfl⟩
    rw [hres]
    refine ⟨rfl, fun hnull => (by cases hnull), fun names' hnames' => ?_, fun _ => rfl, fun _ => ?_⟩
    · cases hnames'
      exact ⟨mem', rfl, hstring, hnormal, hnormal.getLast?⟩
    · rcases hnormal with hroot | ⟨q, hq, -⟩
      · exact ⟨mem', [], rfl, hroot ▸ hstring⟩
      · exact ⟨mem', q, rfl, hq ▸ hstring⟩
  | none =>
    rw [hnames] at hrooted
    have hres : dfsNormalizePath workingDirectory directory filename (some p) mem rounds =
        some none ∨ ∃ mem' s, dfsNormalizePath workingDirectory directory filename (some p) mem
          rounds = some (some (p, mem')) ∧ StringAt mem' p s ∧ s.head? ≠ some slash := by
      cases hplace : Place.follow ⟨true, []⟩ (components slash path) with
      | none =>
        rw [hplace] at heq
        exact .inl heq
      | some pl =>
        rw [hplace] at heq
        obtain ⟨mem', hpl, hres, hstring, -⟩ := heq
        exact .inr ⟨mem', _, hres, hstring, Place.closed_unrooted hpl (hrooted pl hplace)⟩
    refine ⟨?_, fun _ => rfl, fun names hnames => (by cases hnames), ?_,
      fun hsome => (by cases hsome)⟩
    · rcases hres with hres | ⟨mem', s, hres, -, -⟩
      · rw [hres]
        rfl
      · rw [hres]
        rfl
    · rintro ⟨mem', s, hpath, hstring⟩
      rcases hres with hres | ⟨mem'', s', hres, hstring', hhead⟩
      · cases hres.symm.trans hpath
      · cases hres.symm.trans hpath
        -- the block holds one string only
        exact absurd (hstring.head_eq hstring') hhead

/-! ### Two paths -/

/-- `/a`. -/
def sampleDirectory : CString := ⟨[slash, 0x61], by decide⟩

/-- `../b//.`. -/
def sampleFilename : CString := ⟨[dot, dot, slash, 0x62, slash, slash, dot], by decide⟩

/-- `../b//.` in `/a` is `/b`. -/
theorem normalize_path_sample :
    Normalised slash dot sampleDirectory.chars ∧
    ∃ mem', dfsNormalizePath none (some sampleDirectory) sampleFilename (some 1) (fun _ => 0) 12 =
      some (some (1, mem')) ∧ StringAt mem' 1 [slash, 0x62] := by
  have hdir : (some sampleDirectory).or none = some sampleDirectory := rfl
  have hnorm : Normalised slash dot sampleDirectory.chars := .inr ⟨[0x61], rfl, by decide⟩
  have hr : sampleDirectory.chars.length + sampleFilename.chars.length + 2 < 12 := by decide
  obtain ⟨mem', hres, hstring, -⟩ :=
    (normalize_path_iff hdir hnorm (by decide : 0 < 1) hr fun _ => 0).2.2.1 [[0x62]] (by decide)
  exact ⟨hnorm, mem', hres, hstring⟩

/-- `..` in `/` is the empty string, and `/../a` is `a`. In the first case the character in front of
the block, if it is a slash, is overwritten. -/
theorem parent_of_root :
    Normalised slash dot [slash] ∧
    (∃ mem', dfsNormalizePath none (some ⟨[slash], by decide⟩) ⟨[dot, dot], by decide⟩ (some 1)
        (fun _ => slash) 6 = some (some (1, mem')) ∧ StringAt mem' 1 [] ∧ mem' 0 = 0) ∧
    ∃ mem', dfsNormalizePath none (some ⟨[slash], by decide⟩)
        ⟨[slash, dot, dot, slash, 0x61], by decide⟩ (some 1) (fun _ => slash) 9 =
          some (some (1, mem')) ∧ StringAt mem' 1 [0x61] :=
  ⟨.inl rfl, ⟨_, rfl, ⟨⟨by decide, trivial⟩, by decide⟩, by decide⟩,
    ⟨_, rfl, ⟨⟨by decide, by decide, trivial⟩, by decide⟩⟩⟩

end RtThread.Dfs
