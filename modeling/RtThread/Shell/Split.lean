import RtThread.Dfs.Basic

/-!
# The words of a command line

`msh_split` (`components/finsh/msh.c`, lines 101–156) cuts a command line into words where it is:
it writes zeros over the blanks and the closing quotes, and stores the addresses of the words in
`argv`. `ptr` and `position` move together; `left` is `length - position`.

The words are those of `scan`, a scanner that goes through the line once. `opens` is whether a
quote in a word starts a new one; for `msh_split` it does not, and is part of the word.
-/

namespace RtThread.Shell

open Cells List Function Nat

def Blank (ch : CChar) : Prop := ch = 0x20 ∨ ch = 0x09
  deriving Decidable

def quote : CChar := 0x22

def backslash : CChar := 0x5c

/-- `RT_FINSH_ARG_MAX`. -/
def rtFinshArgMax : ℕ := 10

/-- "strip bank and tab" (lines 113–117), with `ptr` and `left` afterwards. -/
def strip : (mem : CMem) → (ptr left : ℕ) → CMem × ℕ × ℕ
  | mem, ptr, 0 => (mem, ptr, 0)
  | mem, ptr, left + 1 =>
    if Blank (mem ptr) then strip (update mem ptr 0) (ptr + 1) left
    else (mem, ptr, left + 1)

/-- "skip this string" (lines 127–137). -/
def skipString (mem : CMem) : (ptr left : ℕ) → ℕ × ℕ
  | ptr, 0 => (ptr, 0)
  | ptr, 1 =>
    if mem ptr = quote then (ptr, 1)
    else if mem ptr = backslash ∧ mem (ptr + 1) = quote then (ptr + 2, 0)
    else (ptr + 1, 0)
  | ptr, left + 2 =>
    if mem ptr = quote then (ptr, left + 2)
    else if mem ptr = backslash ∧ mem (ptr + 1) = quote then skipString mem (ptr + 2) left
    else skipString mem (ptr + 1) (left + 1)

/-- The loop over a word that is not in quotes (lines 147–150). -/
def skipWord (mem : CMem) : (ptr left : ℕ) → ℕ × ℕ
  | ptr, 0 => (ptr, 0)
  | ptr, left + 1 => if ¬ Blank (mem ptr) then skipWord mem (ptr + 1) left else (ptr, left + 1)

/-- The loop of `msh_split`, with the addresses in `argv` and the line afterwards. It runs a given
number of rounds and is `none` if this is not enough; `some none` if it stores an address outside of
`argv`. -/
def splitLoop : (rounds : ℕ) → CMem → (ptr left : ℕ) → (argv : List ℕ) →
    Option (Option (List ℕ × CMem))
  | 0, _, _, _, _ => none
  | rounds + 1, mem, ptr, left, argv =>
    if left = 0 then some (some (argv, mem))
    else
      let (mem, ptr, left) := strip mem ptr left
      if left = 0 then some (some (argv, mem))
      else if ¬ argv.length < rtFinshArgMax then some none
      -- handle string
      else if mem ptr = quote then
        let argv := argv ++ [ptr + 1]
        let (ptr, left) := skipString mem (ptr + 1) (left - 1)
        if left = 0 then some (some (argv, mem))
        -- skip '"'
        else splitLoop rounds (update mem ptr 0) (ptr + 1) (left - 1) argv
      else
        let argv := argv ++ [ptr]
        let (ptr, left) := skipWord mem ptr left
        if left = 0 then some (some (argv, mem)) else splitLoop rounds mem ptr left argv

/-- `msh_split`. -/
def mshSplit (rounds : ℕ) (mem : CMem) (cmd length : ℕ) : Option (Option (List ℕ × CMem)) :=
  splitLoop rounds mem cmd length []

/-! ## Scanning a line -/

/-- Between words, in a word, or in a string; with the part that has been read. -/
inductive Mode
  | outside
  | bare (w : List CChar)
  /-- `escaped` is that the last character was a backslash -/
  | quoted (w : List CChar) (escaped : Bool)
  deriving DecidableEq

/-- The words of a line. -/
def scan (opens : Bool) : Mode → List CChar → List (List CChar)
  | .outside, [] => []
  | .bare w, [] => [w]
  | .quoted w _, [] => [w]
  | .outside, c :: rest =>
    if Blank c then scan opens .outside rest
    else if c = quote then scan opens (.quoted [] false) rest
    else scan opens (.bare [c]) rest
  | .bare w, c :: rest =>
    if Blank c then w :: scan opens .outside rest
    else if opens = true ∧ c = quote then w :: scan opens (.quoted [] false) rest
    else scan opens (.bare (w ++ [c])) rest
  | .quoted w escaped, c :: rest =>
    if c = quote ∧ escaped = false then w :: scan opens .outside rest
    else scan opens (.quoted (w ++ [c]) (c = backslash)) rest

/-- The words of a line: they are split at the blanks that are not in quotes, and what is in quotes
is one word. -/
def words (line : List CChar) : List (List CChar) := scan true .outside line

/-- No word that is not in quotes has a quote in it. -/
def PlainFrom : Mode → List CChar → Prop
  | _, [] => True
  | .outside, c :: rest =>
    if Blank c then PlainFrom .outside rest
    else if c = quote then PlainFrom (.quoted [] false) rest
    else PlainFrom (.bare [c]) rest
  | .bare w, c :: rest =>
    if Blank c then PlainFrom .outside rest
    else c ≠ quote ∧ PlainFrom (.bare (w ++ [c])) rest
  | .quoted w escaped, c :: rest =>
    if c = quote ∧ escaped = false then PlainFrom .outside rest
    else PlainFrom (.quoted (w ++ [c]) (c = backslash)) rest

def Plain (line : List CChar) : Prop := PlainFrom .outside line

variable {mem : CMem} {ptr : ℕ} {c : CChar} {rest : List CChar}

/-- The first word of a scan in a word begins with what has been read. -/
theorem scan_bare (opens : Bool) (w rest : List CChar) :
    ∃ v ws, scan opens (.bare w) rest = (w ++ v) :: ws := by
  induction rest generalizing w with
  | nil => exact ⟨[], [], by simp [scan]⟩
  | cons c rest ih =>
    rw [scan]
    split_ifs
    · exact ⟨[], _, by rw [append_nil]⟩
    · exact ⟨[], _, by rw [append_nil]⟩
    · obtain ⟨v, ws, hv⟩ := ih (w ++ [c])
      exact ⟨c :: v, ws, by rw [hv, append_assoc, singleton_append]⟩

theorem scan_eq_iff (m : Mode) (rest : List CChar) :
    scan false m rest = scan true m rest ↔ PlainFrom m rest := by
  induction rest generalizing m with
  | nil => cases m <;> simp [scan, PlainFrom]
  | cons c rest ih =>
    cases m with
    | outside =>
      simp only [scan, PlainFrom]
      split_ifs <;> exact ih _
    | quoted w escaped =>
      simp only [scan, PlainFrom]
      split_ifs
      · rw [cons_inj_right]
        exact ih _
      · exact ih _
    | bare w =>
      simp only [scan, PlainFrom, Bool.false_eq_true, false_and, if_false, true_and]
      by_cases hblank : Blank c
      · rw [if_pos hblank, if_pos hblank, if_pos hblank, cons_inj_right]
        exact ih _
      rw [if_neg hblank, if_neg hblank, if_neg hblank]
      by_cases hquote : c = quote
      · -- the quote is a character of the word, or its end
        obtain ⟨v, ws, hv⟩ := scan_bare false (w ++ [c]) rest
        rw [hv, if_pos hquote]
        refine iff_of_false (fun heq => ?_) fun hplain => hplain.1 hquote
        have hlen := congrArg length (cons.inj heq).1
        simp at hlen
      · rw [if_neg hquote, ih]
        exact (and_iff_right hquote).symm

/-! ## The line in memory -/

theorem strip_spec (h : StringAt mem ptr rest) :
    ∃ mem' k, strip mem ptr rest.length = (mem', ptr + k, (rest.drop k).length) ∧
      StringAt mem' (ptr + k) (rest.drop k) ∧
      scan false .outside rest = scan false .outside (rest.drop k) ∧
      (∀ c r, rest.drop k = c :: r → ¬ Blank c) ∧
      (∀ a < ptr, mem' a = mem a) ∧ (∀ c r, rest = c :: r → Blank c → mem' ptr = 0) := by
  induction rest generalizing mem ptr with
  | nil => exact ⟨mem, 0, rfl, h, rfl, by simp, fun _ _ => rfl, by simp⟩
  | cons c rest ih =>
    rw [length_cons, strip, h.head]
    split_ifs with hblank
    · have hrest : StringAt (update mem ptr 0) (ptr + 1) rest :=
        h.tail.update (lt_succ_self ptr) 0
      obtain ⟨mem', k, heq, hat, hscan, hhead, hframe, -⟩ := ih hrest
      refine ⟨mem', k + 1, ?_, ?_, ?_, ?_, ?_, ?_⟩
      · rw [heq, drop_succ_cons, add_assoc, add_comm 1 k]
      · rwa [← add_assoc, add_right_comm]
      · rw [drop_succ_cons, ← hscan, scan, if_pos hblank]
      · rwa [drop_succ_cons]
      · intro a ha
        rw [hframe a (by omega), update_of_ne (by omega)]
      · intro _ _ _ _
        rw [hframe ptr (by omega), update_self]
    · refine ⟨mem, 0, rfl, h, rfl, ?_, fun _ _ => rfl, ?_⟩
      · intro c' r heq
        cases heq
        exact hblank
      · intro c' r heq hb
        cases heq
        exact absurd hb hblank

/-- A word ends at a blank or at the end of the line. -/
theorem skipWord_spec (h : StringAt mem ptr rest) :
    ∃ w rest', rest = w ++ rest' ∧ skipWord mem ptr rest.length = (ptr + w.length, rest'.length) ∧
      (∀ acc, scan false (.bare acc) rest = (acc ++ w) :: scan false .outside rest') ∧
      (∀ c r, rest' = c :: r → Blank c) := by
  induction rest generalizing ptr with
  | nil => exact ⟨[], [], rfl, rfl, fun acc => by simp [scan], by simp⟩
  | cons c rest ih =>
    rw [length_cons, skipWord, h.head]
    by_cases hblank : Blank c
    · rw [if_neg (not_not.mpr hblank)]
      refine ⟨[], c :: rest, rfl, rfl, fun acc => ?_, ?_⟩
      · rw [scan, if_pos hblank, scan, if_pos hblank, append_nil]
      · intro c' r heq
        cases heq
        exact hblank
    · rw [if_pos hblank]
      obtain ⟨w, rest', hrest, hskip, hscan, hend⟩ := ih h.tail
      refine ⟨c :: w, rest', by rw [hrest]; rfl, ?_, fun acc => ?_, hend⟩
      · rw [hskip, length_cons, add_assoc, add_comm 1]
      · rw [scan, if_neg hblank, if_neg (by simp), hscan, append_assoc, singleton_append]

theorem scan_quoted_of_ne (hc : c ≠ quote) (opens : Bool) (w : List CChar) (escaped : Bool)
    (rest : List CChar) :
    scan opens (.quoted w escaped) (c :: rest) = scan opens (.quoted w false) (c :: rest) := by
  rw [scan, if_neg fun h => hc h.1, scan, if_neg fun h => hc h.1]

/-- A string ends at a quote that is not behind a backslash, or at the end of the line. -/
theorem skipString_spec (mem : CMem) : ∀ (rest : List CChar) (ptr : ℕ), StringAt mem ptr rest →
    ∃ w rest', rest = w ++ rest' ∧
      skipString mem ptr rest.length = (ptr + w.length, rest'.length) ∧
      (∀ acc, scan false (.quoted acc false) rest = (acc ++ w) :: scan false .outside rest'.tail) ∧
      (∀ c r, rest' = c :: r → c = quote)
  | [], ptr, _ => ⟨[], [], rfl, rfl, fun acc => by simp [scan], by simp⟩
  | [c], ptr, h => by
    have hend : mem (ptr + 1) = 0 := h.tail.terminator
    rw [length_singleton, skipString, h.head, hend]
    by_cases hc : c = quote
    · rw [if_pos hc]
      exact ⟨[], [c], rfl, rfl, fun acc => by simp [scan, hc], by simp [hc]⟩
    · rw [if_neg hc, if_neg fun hq => absurd hq.2 (by decide)]
      exact ⟨[c], [], rfl, rfl, fun acc => by simp [scan, hc], by simp⟩
  | c :: d :: rest, ptr, h => by
    rw [length_cons, length_cons, skipString, h.head, h.tail.head]
    by_cases hc : c = quote
    · rw [if_pos hc]
      exact ⟨[], c :: d :: rest, rfl, rfl, fun acc => by simp [scan, hc], by simp [hc]⟩
    rw [if_neg hc]
    by_cases hesc : c = backslash ∧ d = quote
    · rw [if_pos hesc]
      obtain ⟨w, rest', hrest, hskip, hscan, hend⟩ := skipString_spec mem rest (ptr + 2) h.tail.tail
      refine ⟨c :: d :: w, rest', by rw [hrest]; rfl, ?_, fun acc => ?_, hend⟩
      · rw [hskip, length_cons, length_cons, add_assoc, add_comm 2]
      · have hd : decide (d = backslash) = false := by
          rw [hesc.2]
          decide
        rw [scan, if_neg fun hq => hc hq.1, decide_eq_true hesc.1, scan, hd, hscan]
        simp
    · rw [if_neg hesc]
      obtain ⟨w, rest', hrest, hskip, hscan, hend⟩ :=
        skipString_spec mem (d :: rest) (ptr + 1) h.tail
      refine ⟨c :: w, rest', by rw [hrest]; rfl, ?_, fun acc => ?_, hend⟩
      · rw [← length_cons (a := d), hskip, length_cons, add_assoc, add_comm 1]
      · have hnext : scan false (.quoted (acc ++ [c]) (c = backslash)) (d :: rest) =
            scan false (.quoted (acc ++ [c]) false) (d :: rest) := by
          by_cases hb : c = backslash
          · exact scan_quoted_of_ne (fun hd => hesc ⟨hb, hd⟩) _ _ _ _
          · rw [decide_eq_false hb]
        rw [scan, if_neg fun hq => hc hq.1, hnext, hscan, append_assoc, singleton_append]

/-- The result of `msh_split` from an address on: the words of the rest of the line, as long as
there is room in `argv`. What is in front of the rest stays; a blank at its start is overwritten, so
that the word in front of it ends there. -/
structure Finds (mem : CMem) (ptr : ℕ) (rest : List CChar) (argv : List ℕ)
    (result : Option (Option (List ℕ × CMem))) : Prop where
  fits : argv.length + (scan false .outside rest).length ≤ rtFinshArgMax →
    ∃ ps mem', result = some (some (argv ++ ps, mem')) ∧
      Forall₂ (StringAt mem') ps (scan false .outside rest) ∧
      (∀ a < ptr, mem' a = mem a) ∧ (∀ c r, rest = c :: r → Blank c → mem' ptr = 0)
  full : rtFinshArgMax < argv.length + (scan false .outside rest).length → result = some none

variable {argv : List ℕ} {result : Option (Option (List ℕ × CMem))}

theorem finds_nil (mem : CMem) (ptr : ℕ) (hargv : argv.length ≤ rtFinshArgMax) :
    Finds mem ptr [] argv (some (some (argv, mem))) where
  fits _ := ⟨[], mem, by rw [append_nil], .nil, fun _ _ => rfl, by simp⟩
  full hfull := by
    simp only [scan, length_nil] at hfull
    omega

theorem finds_strip (h : StringAt mem ptr rest)
    (hnext : ∀ mem' k, strip mem ptr rest.length = (mem', ptr + k, (rest.drop k).length) →
      StringAt mem' (ptr + k) (rest.drop k) → (∀ c r, rest.drop k = c :: r → ¬ Blank c) →
      Finds mem' (ptr + k) (rest.drop k) argv result) :
    Finds mem ptr rest argv result := by
  obtain ⟨mem₁, k, hstrip, hat, hscan, hhead, hframe, hblank⟩ := strip_spec h
  obtain ⟨hfits, hfull⟩ := hnext mem₁ k hstrip hat hhead
  rw [← hscan] at hfits hfull
  refine ⟨fun hroom => ?_, hfull⟩
  obtain ⟨ps, mem', hres, hwords, hframe', -⟩ := hfits hroom
  refine ⟨ps, mem', hres, hwords, fun a ha => ?_, fun c r hrest hb => ?_⟩
  · rw [hframe' a (by omega), hframe a ha]
  · have hk : 0 < k := by
      rw [pos_iff_ne_zero]
      rintro rfl
      exact hhead c r hrest hb
    rw [hframe' ptr (by omega), hblank c r hrest hb]

/-- One word, and what is found behind it. -/
theorem Finds.word {mem₂ : CMem} {ptr₂ p : ℕ} {w rest₂ : List CChar}
    (h : Finds mem₂ ptr₂ rest₂ (argv ++ [p]) result)
    (hscan : scan false .outside rest = w :: scan false .outside rest₂)
    (hhead : ∀ c r, rest = c :: r → ¬ Blank c) (hle : ptr ≤ ptr₂)
    (hframe : ∀ a < ptr, mem₂ a = mem a)
    (hword : ∀ mem' : CMem, (∀ a < ptr₂, mem' a = mem₂ a) →
      (∀ c r, rest₂ = c :: r → Blank c → mem' ptr₂ = 0) → StringAt mem' p w) :
    Finds mem ptr rest argv result := by
  obtain ⟨hfits, hfull⟩ := h
  rw [length_append, length_singleton, add_assoc, add_comm 1] at hfits hfull
  rw [← length_cons (a := w), ← hscan] at hfits hfull
  refine ⟨fun hroom => ?_, hfull⟩
  obtain ⟨ps, mem', hres, hwords, hframe', hblank⟩ := hfits hroom
  refine ⟨p :: ps, mem', ?_, ?_, fun a ha => ?_, fun c r hrest hb => absurd hb (hhead c r hrest)⟩
  · rw [hres, append_assoc, singleton_append]
  · rw [hscan]
    exact .cons (hword mem' hframe' hblank) hwords
  · rw [hframe' a (by omega), hframe a ha]

theorem finds_full {w : List CChar} {ws : List (List CChar)} (hargv : ¬ argv.length < rtFinshArgMax)
    (hscan : scan false .outside rest = w :: ws) : Finds mem ptr rest argv (some none) where
  fits hroom := by
    rw [hscan, length_cons] at hroom
    omega
  full _ := rfl

theorem splitLoop_spec {rounds : ℕ} (hrounds : rest.length < rounds) (h : StringAt mem ptr rest)
    (hargv : argv.length ≤ rtFinshArgMax) :
    Finds mem ptr rest argv (splitLoop rounds mem ptr rest.length argv) := by
  induction rounds generalizing mem ptr rest argv with
  | zero => omega
  | succ rounds ih =>
    rw [splitLoop]
    by_cases hnil : rest.length = 0
    · rw [length_eq_zero_iff.mp hnil]
      exact finds_nil mem ptr hargv
    rw [if_neg hnil]
    refine finds_strip h fun mem₁ k hstrip hat hhead => ?_
    have hdrop : (rest.drop k).length ≤ rest.length := by
      rw [length_drop]
      omega
    simp only [hstrip]
    generalize ptr + k = p at hat
    cases hrest : rest.drop k with
    | nil => exact finds_nil mem₁ _ hargv
    | cons c r =>
      rw [hrest] at hat hhead hdrop
      rw [length_cons] at hdrop ⊢
      have hblank : ¬ Blank c := hhead c r rfl
      rw [hat.head]
      by_cases hquote : c = quote
      · obtain ⟨w, rest', rfl, hskip, hscan, hend⟩ := skipString_spec mem₁ r _ hat.tail
        have hfirst : scan false .outside (c :: (w ++ rest')) =
            w :: scan false .outside rest'.tail := by
          rw [scan, if_neg hblank, if_pos hquote, hscan, nil_append]
        by_cases hroom : argv.length < rtFinshArgMax
        · have hargv' : (argv ++ [p + 1]).length ≤ rtFinshArgMax := by simpa using hroom
          rw [if_neg (not_not.mpr hroom), if_pos hquote, Nat.add_sub_cancel, hskip]
          rw [length_append] at hdrop
          cases rest' with
          | nil =>
            refine (finds_nil mem₁ (p + 1 + w.length + 1) hargv').word hfirst hhead (by omega)
              (fun _ _ => rfl) fun mem' hmem _ => ?_
            refine hat.tail.cut (fun b hb => hmem b (by omega)) ?_
            rw [hmem _ (by omega)]
            exact hat.tail.drop.terminator
          | cons q rest'' =>
            rw [length_cons] at hdrop ⊢
            refine (ih (by omega) (hat.tail.drop.tail.update (lt_succ_self _) 0)
              hargv').word hfirst hhead (by omega) (fun a ha => ?_) fun mem' hmem _ => ?_
            · exact update_of_ne (by omega) _ _
            · refine hat.tail.cut (fun b hb => ?_) ?_
              · rw [hmem b (by omega), update_of_ne (by omega)]
              · rw [hmem _ (by omega), update_self]
        · rw [if_pos hroom]
          exact finds_full hroom hfirst
      · obtain ⟨w, rest', hr, hskip, hscan, hend⟩ := skipWord_spec hat
        have hfirst : scan false .outside (c :: r) = w :: scan false .outside rest' := by
          have hbare := hscan []
          rw [scan, if_neg hblank] at hbare
          rw [scan, if_neg hblank, if_neg hquote]
          exact hbare
        by_cases hroom : argv.length < rtFinshArgMax
        · have hargv' : (argv ++ [p]).length ≤ rtFinshArgMax := by simpa using hroom
          rw [length_cons] at hskip
          rw [if_neg (not_not.mpr hroom), if_neg hquote, hskip]
          rw [hr] at hat
          cases rest' with
          | nil =>
            refine (finds_nil mem₁ (p + w.length + 1) hargv').word hfirst hhead (by omega)
              (fun _ _ => rfl) fun mem' hmem _ => ?_
            refine hat.cut (fun b hb => hmem b (by omega)) ?_
            rw [hmem _ (by omega)]
            exact hat.drop.terminator
          | cons b rest'' =>
            -- the word is not empty
            have hw : w ≠ [] := by
              rintro rfl
              exact hblank (hend c r hr.symm)
            have hlen := congrArg length hr
            have hpos := length_pos_iff.mpr hw
            rw [length_cons, length_append] at hlen
            rw [length_cons] at hlen ⊢
            refine (ih (by rw [length_cons]; omega) hat.drop hargv').word hfirst hhead
              (by omega) (fun _ _ => rfl) fun mem' hmem hzero => ?_
            exact hat.cut hmem (hzero b rest'' rfl (hend b rest'' rfl))
        · rw [if_pos hroom]
          exact finds_full hroom hfirst

/-- `a "b c"` -/
def sampleLine : CString := ⟨[0x61, 0x20, 0x22, 0x62, 0x20, 0x63, 0x22], by decide⟩

/-- Eleven words. -/
def elevenWords : CString := ⟨(replicate 11 [0x61, 0x20]).flatten, by decide⟩

/-- `a"b c"` -/
def quoteInWord : CString := ⟨[0x61, 0x22, 0x62, 0x20, 0x63, 0x22], by decide⟩

end RtThread.Shell
