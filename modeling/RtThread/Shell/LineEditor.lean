import RtThread.Kservice.Strings
import RtThread.Lib.Runs

/-!
# The line editor of the shell

The loop of `finsh_thread_entry` (`components/finsh/shell.c`, lines 424–650), without the history.
One step handles one character that `rt_device_read` gives. After a `'\r'` the loop reads another
character if one is there already, and handles this one in place of the `'\r'` unless it is 0.

`Editor` is the line as its user sees it: the text on both sides of the cursor. A line that gets
as long as the buffer is discarded; the Enter key executes the line.
-/

namespace RtThread.Shell

open Cells Kservice Runs List Function Option Prod

/-- `FINSH_CMD_SIZE`. -/
def finshCmdSize : ℕ := 80

/-- `enum input_stat`. -/
inductive Stat
  | waitNormal
  | waitSpecKey
  | waitFuncKey
  deriving DecidableEq

/-- The fields of `struct finsh_shell` that the loop works on. -/
structure FinshShell where
  stat : Stat
  line : CMem
  linePosition : ℕ
  lineCurpos : ℕ

/-- A character, the next one if it has already been received, and `msh_is_used()`. -/
structure Received where
  ch : CChar
  next : Option CChar
  msh : Bool
  deriving DecidableEq

/-- What is executed: a string and its length by `msh_exec`, or a string by `finsh_run_line`; there
is no string if the buffer has no zero in it. -/
inductive Exec
  | msh (cmd : Option (List CChar)) (length : ℕ)
  | finsh (line : Option (List CChar))
  deriving DecidableEq

/-- The string in the `n` cells from `i` on. -/
def cString (mem : CMem) (i : ℕ) : (n : ℕ) → Option (List CChar)
  | 0 => none
  | n + 1 => if mem i = 0 then some [] else (cString mem (i + 1) n).map (mem i :: ·)

namespace FinshShell

/-- The keys of one character. -/
def cr : CChar := 0x0d

def lf : CChar := 0x0a

def tab : CChar := 0x09

def escape : CChar := 0x1b

def semicolon : CChar := 0x3b

def Deletes (ch : CChar) : Prop := ch = 0x7f ∨ ch = 0x08
  deriving Decidable

/-- The backspace key (lines 547–581). -/
def backspace (s : FinshShell) : FinshShell :=
  if s.lineCurpos = 0 then s
  else
    let linePosition := s.linePosition - 1
    let lineCurpos := s.lineCurpos - 1
    let line :=
      if linePosition > lineCurpos then
        move s.line lineCurpos (lineCurpos + 1) (linePosition - lineCurpos)
      else s.line
    { s with
      line := update line linePosition 0
      linePosition := linePosition
      lineCurpos := lineCurpos }

/-- The end of the line (lines 584–614). -/
def enter (s : FinshShell) (msh : Bool) : List Exec × FinshShell :=
  let exec :=
    if msh then [.msh (cString s.line 0 finshCmdSize) s.linePosition]
    -- add ';' and run the command line
    else if s.linePosition ≠ 0 then
      [.finsh (cString (update s.line s.linePosition semicolon) 0 finshCmdSize)]
    else []
  (exec, { s with line := zeroFill s.line 0 finshCmdSize, linePosition := 0, lineCurpos := 0 })

/-- A normal character (lines 616–648). -/
def insert (s : FinshShell) (ch : CChar) : FinshShell :=
  -- it's a large line, discard it
  let linePosition := if s.linePosition ≥ finshCmdSize then 0 else s.linePosition
  let line :=
    if s.lineCurpos < linePosition then
      update (move s.line (s.lineCurpos + 1) s.lineCurpos (linePosition - s.lineCurpos))
        s.lineCurpos ch
    else update s.line linePosition ch
  -- clear command line
  if linePosition + 1 ≥ finshCmdSize then
    { s with line := line, linePosition := 0, lineCurpos := 0 }
  else
    { s with line := line, linePosition := linePosition + 1, lineCurpos := s.lineCurpos + 1 }

/-- The left and the right key (lines 488–508). -/
def keyLeft (s : FinshShell) : FinshShell :=
  if s.lineCurpos ≠ 0 then { s with lineCurpos := s.lineCurpos - 1 } else s

def keyRight (s : FinshShell) : FinshShell :=
  if s.lineCurpos < s.linePosition then { s with lineCurpos := s.lineCurpos + 1 } else s

/-- From the end of the control keys on (line 512). `complete` is the line that
`shell_auto_complete` leaves, and its length. -/
def handle (complete : CMem → CMem × ℕ) (s : FinshShell) (i : Received) : List Exec × FinshShell :=
  if i.ch = cr then
    -- linux telnet will issue '\0'
    let ch := match i.next with
      | some next => if next = 0 then cr else next
      | none => cr
    if ch = cr ∨ ch = lf then s.enter i.msh else ([], s.insert ch)
  else if i.ch = tab then
    let r := complete s.line
    ([], { s with line := r.1, linePosition := r.2, lineCurpos := r.2 })
  else if Deletes i.ch then ([], s.backspace)
  else if i.ch = lf then s.enter i.msh
  else ([], s.insert i.ch)

/-- One round of the loop. -/
def step (complete : CMem → CMem × ℕ) (s : FinshShell) (i : Received) :
    Option (List Exec × FinshShell) :=
  if i.ch = escape then some ([], { s with stat := .waitSpecKey })
  else
    match s.stat with
    | .waitNormal => some (s.handle complete i)
    | .waitSpecKey =>
      if i.ch = 0x5b then some ([], { s with stat := .waitFuncKey })
      else some ({ s with stat := .waitNormal }.handle complete i)
    | .waitFuncKey =>
      let s := { s with stat := .waitNormal }
      -- the up and the down key
      if i.ch = 0x41 ∨ i.ch = 0x42 then some ([], s)
      else if i.ch = 0x44 then some ([], s.keyLeft)
      else if i.ch = 0x43 then some ([], s.keyRight)
      else some (s.handle complete i)

def init : FinshShell := ⟨.waitNormal, fun _ => 0, 0, 0⟩

end FinshShell

/-! ## The line as it is seen -/

/-- The text before and behind the cursor, and how much of a key has been received. -/
structure Editor where
  stat : Stat
  left : List CChar
  right : List CChar
  deriving DecidableEq

namespace Editor

open FinshShell

def text (e : Editor) : List CChar := e.left ++ e.right

inductive Key
  | char (ch : CChar)
  | left
  | right
  | backspace
  | enter
  /-- the first characters of the left and the right key -/
  | part (stat : Stat)
  deriving DecidableEq

/-- The key that a character is, or ends. -/
def keyOf (stat : Stat) (ch : CChar) : Option Key :=
  match stat with
  | .waitNormal =>
    if 0x20 ≤ ch ∧ ch ≤ 0x7e then some (.char ch)
    else if ch = escape then some (.part .waitSpecKey)
    else if Deletes ch then some .backspace
    else if ch = cr ∨ ch = lf then some .enter
    else none
  | .waitSpecKey => if ch = 0x5b then some (.part .waitFuncKey) else none
  | .waitFuncKey => if ch = 0x44 then some .left else if ch = 0x43 then some .right else none

/-- What is executed for a line. A line without `msh` ends with `;`. -/
def executes (msh : Bool) (text : List CChar) : List Exec :=
  if msh then [.msh (some text) text.length]
  else if text = [] then [] else [.finsh (some (text ++ [semicolon]))]

def press (e : Editor) (msh : Bool) : Key → List Exec × Editor
  | .char ch =>
    if e.text.length + 1 < finshCmdSize then ([], ⟨.waitNormal, e.left ++ [ch], e.right⟩)
    else ([], ⟨.waitNormal, [], []⟩)
  | .left => ([], ⟨.waitNormal, e.left.dropLast, e.left.getLast?.toList ++ e.right⟩)
  | .right => ([], ⟨.waitNormal, e.left ++ e.right.head?.toList, e.right.tail⟩)
  | .backspace => ([], ⟨.waitNormal, e.left.dropLast, e.right⟩)
  | .enter => (executes msh e.text, ⟨.waitNormal, [], []⟩)
  | .part stat => ([], { e with stat := stat })

/-- One character. -/
def receive (e : Editor) (msh : Bool) (ch : CChar) : List Exec × Editor :=
  match keyOf e.stat ch with
  | some k => e.press msh k
  | none => ([], e)

/-- A `'\n'` or 0 right behind a `'\r'` belongs to the Enter key; another character is one of its
own. -/
def step (e : Editor) (i : Received) : List Exec × Editor :=
  let r := e.receive i.msh i.ch
  match i.next with
  | some next =>
    if i.ch = cr ∧ next ≠ 0 ∧ next ≠ lf then
      let r' := r.2.receive i.msh next
      (r.1 ++ r'.1, r'.2)
    else r
  | none => r

def start : Editor := ⟨.waitNormal, [], []⟩

end Editor

/-! ## The buffer holds the line -/

open FinshShell Editor

/-- The buffer holds the text and zeros behind it. -/
structure FinshShell.Repr (s : FinshShell) (e : Editor) : Prop where
  stat : s.stat = e.stat
  curpos : s.lineCurpos = e.left.length
  position : s.linePosition = e.text.length
  room : e.text.length < finshCmdSize
  padded : Padded s.line finshCmdSize e.text
  nonzero : 0 ∉ e.text

variable {t : List CChar} {mem : CMem}

theorem cString_eq {i n : ℕ} (h : StringAt mem i t) (hlen : t.length < n) :
    cString mem i n = some t := by
  induction t generalizing i n with
  | nil =>
    obtain ⟨n, rfl⟩ := Nat.exists_eq_add_of_lt hlen
    rw [cString, if_pos h.terminator]
  | cons c t ih =>
    obtain ⟨n, rfl⟩ : ∃ m, n = m + 1 := ⟨n - 1, by omega⟩
    rw [length_cons] at hlen
    rw [cString, h.head, if_neg h.ne_zero, ih h.tail (by omega)]
    rfl

theorem cString_of_padded {n : ℕ} (h : Padded mem n t) (ht : 0 ∉ t) (hlen : t.length < n) :
    cString mem 0 n = some t :=
  cString_eq (h.stringAt ht hlen) hlen

namespace FinshShell

variable {s : FinshShell} {e : Editor}

theorem repr_init : init.Repr .start where
  stat := rfl
  curpos := rfl
  position := rfl
  room := by decide
  padded i _ := by simp [init, start, text]
  nonzero := by simp [start, text]

theorem Repr.setStat (h : s.Repr e) (stat : Stat) :
    { s with stat := stat }.Repr { e with stat := stat } :=
  { h with stat := rfl }

/-- The cursor moves in the same text. -/
theorem Repr.moveTo (h : s.Repr e) {e' : Editor} {curpos : ℕ} (htext : e'.text = e.text)
    (hcur : curpos = e'.left.length) :
    { s with stat := e'.stat, lineCurpos := curpos }.Repr e' where
  stat := rfl
  curpos := hcur
  position := by rw [htext]; exact h.position
  room := by rw [htext]; exact h.room
  padded := by rw [htext]; exact h.padded
  nonzero := by rw [htext]; exact h.nonzero

theorem Repr.keyLeft (h : s.Repr e) (msh : Bool) :
    ({ s with stat := .waitNormal } : FinshShell).keyLeft.Repr (e.press msh .left).2 := by
  have hcur := h.curpos
  unfold FinshShell.keyLeft
  rcases e.left.eq_nil_or_concat' with hnil | ⟨l, c, hl⟩
  · rw [hnil] at hcur
    have htext : (e.press msh .left).2.text = e.text := by simp [press, text, hnil]
    rw [if_neg (by simp [hcur])]
    exact h.moveTo htext (by simp [press, hnil, hcur])
  · rw [hl] at hcur
    have htext : (e.press msh .left).2.text = e.text := by simp [press, text, hl]
    rw [if_pos (by simp [hcur])]
    exact h.moveTo htext (by simp [press, hl, hcur])

theorem Repr.keyRight (h : s.Repr e) (msh : Bool) :
    ({ s with stat := .waitNormal } : FinshShell).keyRight.Repr (e.press msh .right).2 := by
  have hcur := h.curpos
  have hpos := h.position
  rw [text, length_append] at hpos
  unfold FinshShell.keyRight
  rcases hright : e.right with _ | ⟨c, r⟩
  · rw [hright, length_nil] at hpos
    have htext : (e.press msh .right).2.text = e.text := by simp [press, text, hright]
    rw [if_neg (by simp only []; omega)]
    exact h.moveTo htext (by simp [press, hright, hcur])
  · rw [hright, length_cons] at hpos
    have htext : (e.press msh .right).2.text = e.text := by simp [press, text, hright]
    rw [if_pos (by simp only []; omega)]
    exact h.moveTo htext (by simp [press, hright, hcur])

section

variable (h : s.Repr e) (hstat : e.stat = .waitNormal)
include h hstat

theorem Repr.backspace (msh : Bool) : s.backspace.Repr (e.press msh .backspace).2 := by
  have hcur := h.curpos
  have hpos := h.position
  have hroom := h.room
  have hpadded := h.padded
  have hnonzero := h.nonzero
  have hs := h.stat
  obtain ⟨stat, left, right⟩ := e
  subst hstat
  simp only [text, length_append] at hcur hpos hroom hpadded hnonzero hs
  unfold backspace
  rcases left.eq_nil_or_concat' with rfl | ⟨l, c, rfl⟩
  · rw [if_pos (by simpa using hcur)]
    exact ⟨hs, hcur, by simpa [text, press] using hpos, by simpa [text, press] using hroom,
      by simpa [text, press] using hpadded, by simpa [text, press] using hnonzero⟩
  · simp only [length_append, length_singleton] at hcur hpos hroom
    rw [if_neg (by omega)]
    have hline : (if s.linePosition - 1 > s.lineCurpos - 1 then
        move s.line (s.lineCurpos - 1) (s.lineCurpos - 1 + 1)
          (s.linePosition - 1 - (s.lineCurpos - 1)) else s.line) =
        move s.line l.length (l.length + 1) right.length := by
      rw [show s.lineCurpos - 1 = l.length by omega,
        show s.linePosition - 1 = l.length + right.length by omega, Nat.add_sub_cancel_left]
      split_ifs with hgt
      · rfl
      · rw [show right.length = 0 by omega]
        exact (move_zero _ _ _).symm
    have hdelete := Padded.delete (s := l) (c := c) (t := right) (by simpa using hpadded) (by omega)
    refine ⟨hs, by simp [press, hcur], ?_, ?_, ?_, ?_⟩
    · simp only [press, text, dropLast_concat, length_append]
      omega
    · simp only [press, text, dropLast_concat, length_append]
      omega
    · simp only [press, text, dropLast_concat]
      rw [hline, show s.linePosition - 1 = l.length + right.length by omega]
      exact hdelete
    · simp only [press, text, dropLast_concat]
      simp only [mem_append, not_or] at hnonzero ⊢
      exact ⟨hnonzero.1.1, hnonzero.2⟩

theorem Repr.insert (msh : Bool) {ch : CChar} (hch : ch ≠ 0)
    (hfits : e.text.length + 1 < finshCmdSize) : (s.insert ch).Repr (e.press msh (.char ch)).2 := by
  have hcur := h.curpos
  have hpos := h.position
  have hpadded := h.padded
  have hnonzero := h.nonzero
  have hs := h.stat
  simp only [press, if_pos hfits]
  have hlen : e.text.length = e.left.length + e.right.length := by simp [text]
  have hline : (if s.lineCurpos < s.linePosition then
      update (move s.line (s.lineCurpos + 1) s.lineCurpos
        (s.linePosition - s.lineCurpos)) s.lineCurpos ch
      else update s.line s.linePosition ch) =
      update (move s.line (e.left.length + 1) e.left.length e.right.length) e.left.length ch := by
    rw [hcur, hpos, hlen, Nat.add_sub_cancel_left]
    split_ifs with hlt
    · rfl
    · rw [show e.right.length = 0 by omega, move_zero, Nat.add_zero]
  have hshort : (if s.linePosition ≥ finshCmdSize then 0 else s.linePosition) =
      s.linePosition := if_neg (by omega)
  simp only [FinshShell.insert, hshort]
  rw [if_neg (by omega), hline]
  refine ⟨hs.trans hstat, ?_, ?_, ?_, ?_, ?_⟩
  · simp [hcur]
  · simp only [text, length_append, length_singleton]
    omega
  · simp only [text, length_append, length_singleton]
    omega
  · simp only [text, append_assoc, singleton_append]
    exact hpadded.insert ch
  · simp only [text, mem_append, mem_singleton, not_or] at hnonzero ⊢
    exact ⟨⟨hnonzero.1, Ne.symm hch⟩, hnonzero.2⟩

/-- The Enter key executes the text, and clears the line. -/
theorem Repr.enter {msh : Bool} (hfits : msh = true ∨ e.text.length + 1 < finshCmdSize) :
    (s.enter msh).1 = (e.press msh .enter).1 ∧ (s.enter msh).2.Repr (e.press msh .enter).2 := by
  constructor
  · simp only [FinshShell.enter, press, executes, h.position]
    cases msh with
    | true => rw [if_pos rfl, if_pos rfl, cString_of_padded h.padded h.nonzero h.room]
    | false =>
      have hlt : e.text.length + 1 < finshCmdSize := by simpa using hfits
      by_cases hnil : e.text = []
      · simp [hnil]
      · have hlen : e.text.length ≠ 0 := by simpa using hnil
        have hpadded := (append_nil e.text ▸ h.padded).put (by simp) semicolon
        have hnonzero : 0 ∉ e.text ++ [semicolon] := by
          simp only [mem_append, mem_singleton, not_or]
          exact ⟨h.nonzero, by decide⟩
        simp only [Bool.false_eq_true, if_false, if_neg hnil, ne_eq, hlen, not_false_eq_true,
          if_true]
        rw [cString_of_padded hpadded hnonzero (by simpa using hlt)]
  · exact ⟨h.stat.trans hstat, rfl, rfl, show 0 < finshCmdSize by decide, padded_zeroFill _ _,
      by simp [press, text]⟩

end

/-! ## Steps and runs -/

/-- The character leaves room in the buffer; the Enter key is not followed at once by a character
that does not belong to it, and without `msh` there is room for the `;`. -/
def Fits (s : FinshShell) (i : Received) : Key → Prop
  | .char _ => s.linePosition + 1 < finshCmdSize
  | .enter =>
    (i.ch = cr → i.next = none ∨ i.next = some 0 ∨ i.next = some lf) ∧
      (i.msh = true ∨ s.linePosition + 1 < finshCmdSize)
  | _ => True

/-- The character is one of a key of the editor, and the key fits. -/
def Regular (s : FinshShell) (i : Received) : Prop := ∃ k, keyOf s.stat i.ch = some k ∧ s.Fits i k

variable {i : Received} {k : Key} (complete : CMem → CMem × ℕ)

theorem not_special {ch : CChar} (h : 0x20 ≤ ch ∧ ch ≤ 0x7e) :
    ch ≠ escape ∧ ch ≠ cr ∧ ch ≠ tab ∧ ¬ Deletes ch ∧ ch ≠ lf ∧ ch ≠ 0 := by
  refine ⟨?_, ?_, ?_, ?_, ?_, ?_⟩
  · rintro rfl
    exact absurd h (by decide)
  · rintro rfl
    exact absurd h (by decide)
  · rintro rfl
    exact absurd h (by decide)
  · rintro (rfl | rfl) <;> exact absurd h (by decide)
  · rintro rfl
    exact absurd h (by decide)
  · rintro rfl
    exact absurd h (by decide)

/-- The `'\r'` of an Enter key is handled as one. -/
theorem handle_enter (hch : i.ch = cr ∨ i.ch = lf)
    (hnext : i.ch = cr → i.next = none ∨ i.next = some 0 ∨ i.next = some lf) :
    s.handle complete i = s.enter i.msh := by
  unfold handle
  rcases hch with hch | hch
  · rw [if_pos hch]
    rcases hnext hch with h | h | h <;> rw [h] <;> simp [lf]
  · have hnot : i.ch ≠ cr ∧ i.ch ≠ tab ∧ ¬ Deletes i.ch := by
      rw [hch]
      decide
    rw [if_neg hnot.1, if_neg hnot.2.1, if_neg hnot.2.2, if_pos hch]

/-- One key, in the state where it starts. -/
theorem handle_key (h : s.Repr e) (hstat : e.stat = .waitNormal)
    (hkey : keyOf .waitNormal i.ch = some k) (hesc : i.ch ≠ escape) (hfits : s.Fits i k) :
    (s.handle complete i).1 = (e.press i.msh k).1 ∧
      (s.handle complete i).2.Repr (e.press i.msh k).2 := by
  simp only [keyOf, if_neg hesc] at hkey
  split_ifs at hkey with hprint hdel henter
  · cases hkey
    obtain ⟨-, hcr, htab, hdel, hlf, hzero⟩ := not_special hprint
    have hroom : e.text.length + 1 < finshCmdSize := by
      rw [← h.position]
      exact hfits
    unfold handle
    rw [if_neg hcr, if_neg htab, if_neg hdel, if_neg hlf]
    exact ⟨by simp [press, hroom], h.insert hstat i.msh hzero hroom⟩
  · cases hkey
    have hnot : i.ch ≠ cr ∧ i.ch ≠ tab := by
      rcases hdel with hd | hd <;> rw [hd] <;> decide
    unfold handle
    rw [if_neg hnot.1, if_neg hnot.2, if_pos hdel]
    exact ⟨rfl, h.backspace hstat i.msh⟩
  · cases hkey
    rw [handle_enter complete henter hfits.1]
    exact h.enter hstat (by rw [← h.position]; exact hfits.2)

theorem step_key (h : s.Repr e) (hkey : keyOf s.stat i.ch = some k) (hfits : s.Fits i k) :
    ∃ s', s.step complete i = some ((e.press i.msh k).1, s') ∧ s'.Repr (e.press i.msh k).2 := by
  unfold step
  by_cases hesc : i.ch = escape
  · -- the first character of the left or the right key
    rw [if_pos hesc]
    rw [hesc] at hkey
    have hk : k = .part .waitSpecKey := by
      have hnone : ∀ stat, keyOf stat escape = none ∨
          keyOf stat escape = some (.part .waitSpecKey) := fun stat => by cases stat <;> decide
      simpa [hkey] using hnone s.stat
    rw [hk]
    exact ⟨_, rfl, h.setStat .waitSpecKey⟩
  · rw [if_neg hesc]
    cases hs : s.stat with
    | waitNormal =>
      rw [hs] at hkey
      obtain ⟨hout, hrepr⟩ := handle_key complete h (h.stat ▸ hs) hkey hesc hfits
      exact ⟨_, congrArg some (Prod.ext hout rfl), hrepr⟩
    | waitSpecKey =>
      simp only [hs, keyOf, ite_none_right_eq_some, some.injEq] at hkey
      obtain ⟨hch, rfl⟩ := hkey
      simp only [if_pos hch]
      exact ⟨_, rfl, h.setStat .waitFuncKey⟩
    | waitFuncKey =>
      simp only [hs, keyOf] at hkey
      split_ifs at hkey with hleft hright
      · cases hkey
        have hnot : ¬ (i.ch = 0x41 ∨ i.ch = 0x42) := by
          rw [hleft]
          decide
        simp only [if_neg hnot, if_pos hleft]
        exact ⟨_, rfl, h.keyLeft i.msh⟩
      · cases hkey
        have hnot : ¬ (i.ch = 0x41 ∨ i.ch = 0x42) := by
          rw [hright]
          decide
        simp only [if_neg hnot, if_neg hleft, if_pos hright]
        exact ⟨_, rfl, h.keyRight i.msh⟩

/-- A character of a regular key is one key for the editor too. -/
theorem editor_step_eq (hkey : keyOf e.stat i.ch = some k) (hfits : s.Fits i k) :
    e.step i = e.press i.msh k := by
  have hreceive : e.receive i.msh i.ch = e.press i.msh k := by rw [receive, hkey]
  unfold Editor.step
  rw [hreceive]
  by_cases hcr : i.ch = cr
  · have hk : k = .enter := by
      have hnone : ∀ stat, keyOf stat cr = none ∨ keyOf stat cr = some .enter :=
        fun stat => by cases stat <;> decide
      rw [hcr] at hkey
      simpa [hkey] using hnone e.stat
    subst hk
    rcases hfits.1 hcr with hn | hn | hn <;> simp [hn]
  · cases i.next <;> simp [hcr]

/-- In every run in which the keys fit, after every character: the buffer holds the text that is
seen and zeros behind it, and what has been executed are the texts of the lines. -/
theorem line_editor_refines {tr : List (Received × List Exec)}
    (h : StepsSatisfy (step complete) Regular init tr s) :
    ∃ e, execTotal Editor.step .start (tr.map fst) = (tr.map snd, e) ∧
      s.lineCurpos = e.left.length ∧ s.lineCurpos ≤ s.linePosition ∧
      s.linePosition < finshCmdSize ∧ read s.line 0 s.linePosition = e.text ∧
      ∀ j, s.linePosition ≤ j → j < finshCmdSize → s.line j = 0 := by
  have hinv : ∃ e, execTotal Editor.step .start (tr.map fst) = (tr.map snd, e) ∧
      s.Repr e := by
    refine h.invTrace (I := fun tr s => ∃ e, execTotal Editor.step .start (tr.map fst) =
      (tr.map snd, e) ∧ s.Repr e) ⟨.start, rfl, repr_init⟩ ?_
    rintro tr s i o s' ⟨e, hexec, hrepr⟩ ⟨k, hkey, hfits⟩ hstep
    obtain ⟨s₁, hs₁, hrepr₁⟩ := step_key complete hrepr hkey hfits
    have heq := editor_step_eq (hrepr.stat ▸ hkey) hfits
    rw [hs₁] at hstep
    cases hstep
    refine ⟨_, ?_, hrepr₁⟩
    rw [map_append, map_append, execTotal_append, hexec, map_singleton, map_singleton]
    simp only [execTotal, heq]
  obtain ⟨e, hexec, hrepr⟩ := hinv
  have hlen : e.text.length = e.left.length + e.right.length := by simp [text]
  refine ⟨e, hexec, hrepr.curpos, ?_, ?_, ?_, ?_⟩
  · rw [hrepr.curpos, hrepr.position]
    omega
  · rw [hrepr.position]
    exact hrepr.room
  · rw [hrepr.position]
    exact (hrepr.padded.holds hrepr.room.le).read
  · intro j hj hlt
    rw [hrepr.position] at hj
    rw [hrepr.padded j hlt, getD_eq_default _ _ hj]

instance (s : FinshShell) (i : Received) (k : Key) : Decidable (s.Fits i k) :=
  match k with
  | .char _ => inferInstanceAs (Decidable (s.linePosition + 1 < finshCmdSize))
  | .enter => inferInstanceAs (Decidable (_ ∧ _))
  | .left | .right | .backspace | .part _ => .isTrue trivial

instance (s : FinshShell) (i : Received) : Decidable (s.Regular i) :=
  match h : keyOf s.stat i.ch with
  | some k => decidable_of_iff (s.Fits i k)
      ⟨fun hf => ⟨k, h, hf⟩, fun ⟨_, hk, hf⟩ => some.inj (h.symm.trans hk) ▸ hf⟩
  | none => .isFalse fun ⟨_, hk, _⟩ => some_ne_none _ (hk.symm.trans h)

/-- A character by itself, with `msh`. -/
def alone (ch : CChar) : Received := ⟨ch, none, true⟩

/-- `ls`, the left key, `x`, a backspace and the Enter key. -/
def sampleKeys : List Received :=
  [alone 0x6c, alone 0x73, alone 0x1b, alone 0x5b, alone 0x44, alone 0x78, alone 0x08,
    ⟨cr, some lf, true⟩]

theorem sampleKeys_possible (complete : CMem → CMem × ℕ) :
    (exec (guard Regular (step complete)) init sampleKeys).isSome := by
  rfl

theorem line_editor_refines_sample :
    ∃ (tr : List (Received × List Exec)) (s : FinshShell),
      StepsSatisfy (step fun line => (line, 0)) Regular init tr s ∧
        (tr.map snd).flatten = [.msh (some [0x6c, 0x73]) 2] ∧
        ∃ e, execTotal Editor.step .start (tr.map fst) = (tr.map snd, e) ∧
          read s.line 0 s.linePosition = e.text := by
  have hrun := StepsSatisfy.of_isSome (sampleKeys_possible fun line => (line, 0))
  obtain ⟨e, hexec, -, -, -, hread, -⟩ := line_editor_refines _ hrun
  exact ⟨_, _, hrun, by decide, e, hexec, hread⟩

/-- Eighty characters discard the line and leave it in the buffer: what is executed for the `ls`
that is typed next does not end in the buffer. And the Enter key behind `ls` is lost if the next
character has already been received. -/
theorem discarded_line_stays :
    let long := replicate 80 (alone 0x61)
    let ls := [alone 0x6c, alone 0x73]
    let step := step fun line => (line, 0)
    ((exec step init long).map fun r => (r.2.linePosition, r.2.line 0)) = some (0, 0x61) ∧
    (exec step init (long ++ ls ++ [alone cr])).map (·.1.flatten) = some [.msh none 2] ∧
    (execTotal Editor.step .start (long ++ ls ++ [alone cr])).1.flatten =
      [.msh (some [0x6c, 0x73]) 2] ∧
    (exec step init (ls ++ [⟨cr, some 0x70, true⟩])).map (·.1.flatten) = some [] ∧
    (execTotal Editor.step .start (ls ++ [⟨cr, some 0x70, true⟩])).1.flatten =
      [.msh (some [0x6c, 0x73]) 2] := by
  set_option maxRecDepth 4096 in
  decide

end FinshShell

end RtThread.Shell
