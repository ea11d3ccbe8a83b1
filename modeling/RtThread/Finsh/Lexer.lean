import Mathlib.Data.List.GetD
import Mathlib.Data.List.TakeWhile
import RtThread.Finsh.Parser

/-!
# The tokenizer of FinSH

`components/finsh/finsh_token.c`. The line is given by its characters up to the zero at its end.
At a newline or at its end the tokenizer sets `eof` and goes back to its beginning. The buffers
`string` of the token, `buf` of a number and `buf` of a character have 128, 128 and 4 bytes; what
would be written behind one of them has no result. A loop over the characters of the line is
bounded by their number.

The signed arithmetic of the code is the one of the machine, which wraps around.
-/

namespace RtThread.Finsh

open List Function Nat

def finshStringMax : ℕ := 128

/-- A character of the source. -/
def chr (c : Char) : Byte := BitVec.ofNat 8 c.toNat

/-! ## Characters -/

def isDigit (ch : Byte) : Bool := chr '0' ≤ ch && ch ≤ chr '9'

def isAlpha (ch : Byte) : Bool := chr 'a' ≤ ch ||| 0x20 && ch ||| 0x20 ≤ chr 'z'

def isXdigit (ch : Byte) : Bool := isDigit ch || chr 'a' ≤ ch ||| 0x20 && ch ||| 0x20 ≤ chr 'f'

def isSeparator (ch : Byte) : Bool :=
  !(chr 'a' ≤ ch && ch ≤ chr 'z' || chr 'A' ≤ ch && ch ≤ chr 'Z' || isDigit ch || ch == chr '_')

/-- `(ch - '0') < 8u`, and also `'0' <= ch && ch <= '7'`. -/
def isOctal (ch : Byte) : Bool := chr '0' ≤ ch && ch ≤ chr '7'

def isBinary (ch : Byte) : Bool := ch == chr '0' || ch == chr '1'

/-- The characters that `token_trim_space` skips. -/
def isBlank (ch : Byte) : Bool := ch == chr ' ' || ch == chr '\t' || ch == chr '\r'

/-! ## State -/

/-- `struct finsh_token`, with the errors that it has set. -/
structure Lexer where
  line : List Byte
  eof : Bool := false
  replay : Bool := false
  position : ℕ := 0
  currentToken : TokenType := .eof
  value : Long := 0
  string : ℕ → Byte := fun _ => 0
  errors : List FinshError := []

namespace Lexer

/-- `finsh_token_init`. -/
def finshTokenInit (line : List Byte) : Lexer := { line := line }

variable (self : Lexer)

def errorSet (e : FinshError) : Lexer := { self with errors := self.errors ++ [e] }

def setToken (type : TokenType) : Lexer := { self with currentToken := type }

/-- `self->string[i] = ch`. -/
def setString (i : ℕ) (ch : Byte) : Lexer := { self with string := update self.string i ch }

/-- `token_next_char`. -/
def tokenNextChar : Byte × Lexer :=
  if self.eof then (0, self)
  else if self.position = self.line.length ∨ self.line.getD self.position 0 = chr '\n' then
    (0, { self with eof := true, position := 0 })
  else (self.line.getD self.position 0, { self with position := self.position + 1 })

/-- `token_prev_char`. -/
def tokenPrevChar : Lexer :=
  if self.eof then self
  else if self.position = 0 then self
  else { self with position := self.position - 1 }

/-- The loops `while (p(ch)) { *buf++ = ch; ch = token_next_char(self); }`: what they have stored,
the last character and the tokenizer. -/
def readWhile (p : Byte → Bool) : ℕ → Byte → Lexer → Option (List Byte × Byte × Lexer)
  | 0, _, _ => none
  | n + 1, ch, self =>
    if p ch then do
      let (stored, last) ← readWhile p n self.tokenNextChar.1 self.tokenNextChar.2
      some (ch :: stored, last)
    else some ([], ch, self)

/-- More rounds than the line has characters. -/
def rounds : ℕ := self.line.length + 1

/-! ## Names -/

/-- `token_trim_space`. -/
def tokenTrimSpace : Option Lexer := do
  let (_, _, self) ← readWhile isBlank self.rounds self.tokenNextChar.1 self.tokenNextChar.2
  some self.tokenPrevChar

/-- `token_get_string`. The end of the line is a separator, so that `is_eof` adds nothing to the
condition of the loop. -/
def tokenGetString : Option Lexer :=
  let (ch, self) := self.tokenNextChar
  if self.eof then some self
  else
    let self := self.setString 0 0
    if isDigit ch then some self.tokenPrevChar
    else do
      let (str, _, self) ← readWhile (fun ch => !isSeparator ch) self.rounds ch self
      if str.length < finshStringMax then
        let self := { self with eof := false }.tokenPrevChar
        some { self with
          string := fun i => if i < str.length + 1 then str.getD i 0 else self.string i }
      else none

/-- `finsh_name_table`. -/
def nameTable : List (List Byte × TokenType) :=
  [("void".toList.map chr, .void), ("char".toList.map chr, .char),
   ("short".toList.map chr, .short), ("int".toList.map chr, .int),
   ("long".toList.map chr, .long), ("unsigned".toList.map chr, .unsigned),
   ("NULL".toList.map chr, .valueNull), ("null".toList.map chr, .valueNull)]

/-- The string up to its zero, of at most `n` characters. -/
def cString (string : ℕ → Byte) (n : ℕ) : List Byte := ((range n).map string).takeWhile (· ≠ 0)

/-- `token_match_name`, and what `token_run` does without a match. -/
def tokenMatchName : Lexer :=
  self.setToken ((nameTable.lookup (cString self.string finshStringMax)).getD .identifier)

/-! ## Numbers -/

/-- The number that `token_spec_number` has for a digit; a character that is none gives one too. -/
def specDigit (t : Byte) : Long :=
  if chr 'a' ≤ t ∧ t ≤ chr 'f' then (t - chr 'a').setWidth 32 + 10
  else if chr 'A' ≤ t ∧ t ≤ chr 'F' then (t - chr 'A').setWidth 32 + 10
  else t.setWidth 32 - (chr '0').setWidth 32

/-- A round of `token_spec_number` on the two words of `bn`. -/
def specStep (shift : ℕ) (bn : Long × Long) (t : Byte) : Long × Long :=
  (bn.1 <<< shift ||| specDigit t, bn.2 <<< shift ||| bn.1 >>> (32 - shift))

/-- `token_spec_number`, by the shift that it has for the base. -/
def tokenSpecNumber (string : List Byte) (shift : ℕ) : Long :=
  (string.foldl (specStep shift) (0, 0)).1

/-- The end of `token_proc_number`, with the character behind the digits. -/
def tokenProcSuffix (ch : Byte) : Lexer :=
  if ch = chr 'l' ∨ ch = chr 'L' then self.setToken .valueLong else self.tokenPrevChar

/-- The digits of a number that is not decimal. -/
def tokenProcDigits (p : Byte → Bool) (shift : ℕ) (ch : Byte) : Option Lexer := do
  let (buf, ch, self) ← readWhile p self.rounds ch self
  if buf.length < 128 then
    let self := { self with value := tokenSpecNumber buf shift, currentToken := .valueInt }
    some (self.tokenProcSuffix ch)
  else none

/-- The digits of a decimal number. -/
def tokenProcDecimal (ch : Byte) : Option Lexer := do
  let (digits, ch, self) ← readWhile isDigit self.rounds ch self
  let value := digits.foldl (fun v d => v * 10 + (d - chr '0').setWidth 32) 0
  some ({ self with value := value, currentToken := .valueInt }.tokenProcSuffix ch)

/-- `token_proc_number`. -/
def tokenProcNumber : Option Lexer :=
  let (ch, self) := self.tokenNextChar
  if ch = chr '0' then
    let (ch, self) := self.tokenNextChar
    if ch = chr 'x' ∨ ch = chr 'X' then
      let (ch, self) := self.tokenNextChar
      self.tokenProcDigits (fun ch => isDigit ch || isAlpha ch) 4 ch
    else if ch = chr 'b' ∨ ch = chr 'B' then
      let (ch, self) := self.tokenNextChar
      self.tokenProcDigits isBinary 1 ch
    else if isOctal ch then self.tokenProcDigits isOctal 3 ch
    else some { self.tokenPrevChar with value := 0, currentToken := .valueInt }
  else self.tokenProcDecimal ch

/-! ## Characters and strings -/

/-- The cases of `token_proc_char` behind a backslash. -/
def charEscapes : List (Byte × Byte) :=
  [(chr 'n', 10), (chr 't', 9), (chr 'v', 11), (chr 'b', 8), (chr 'r', 13),
   (chr '\\', chr '\\'), (chr '\'', chr '\'')]

/-- A character behind a backslash, or digits. What is stored of the digits is not read: `atoi` is
called with the end of the buffer. -/
def tokenCharEscape : Option (Byte × Lexer) :=
  let (ch, self) := self.tokenNextChar
  match charEscapes.lookup ch with
  | some ch => some (ch, self)
  | none => do
    let (buf, _, self) ← readWhile isDigit self.rounds ch self
    if buf.length < 4 then some (0, self.tokenPrevChar) else none

/-- `token_proc_char`. -/
def tokenProcChar : Option (Byte × Lexer) := do
  let (ch, self) := self.tokenNextChar
  let (ch, self) ← if ch = chr '\\' then self.tokenCharEscape else some (ch, self)
  if self.tokenNextChar.1 ≠ chr '\'' then
    some (ch, self.tokenNextChar.2.tokenPrevChar.errorSet .expectChar)
  else some (ch, self.tokenNextChar.2)

/-- The cases of `token_proc_escape` for a single character. -/
def stringEscapes : List (Byte × Byte) :=
  [(chr 'n', 10), (chr 't', 9), (chr 'v', 11), (chr 'b', 8), (chr 'r', 13), (chr 'f', 12),
   (chr 'a', 7), (chr '"', chr '"')]

/-- The value of a hexadecimal digit in `token_proc_escape`. -/
def escapeDigit (ch : Byte) : Long :=
  if ch < chr 'A' then (ch - chr '0').setWidth 32 else ((ch ||| 0x20) - chr 'a').setWidth 32 + 10

/-- `token_proc_escape`. -/
def tokenProcEscape : Option (Long × Lexer) :=
  let (ch, self) := self.tokenNextChar
  match stringEscapes.lookup ch with
  | some result => some (result.setWidth 32, self)
  | none =>
    if ch = chr 'x' ∨ ch = chr 'X' then do
      let (digits, _, self) ←
        readWhile isXdigit self.rounds self.tokenNextChar.1 self.tokenNextChar.2
      some (digits.foldl (fun v d => v * 16 + escapeDigit d) 0, self.tokenPrevChar)
    else if isOctal ch then do
      let (digits, _, self) ← readWhile isOctal self.rounds ch self
      some (digits.foldl (fun v d => v * 8 + (d - chr '0').setWidth 32) 0, self.tokenPrevChar)
    else some (0, self)

/-- `token_proc_string`, with room for `n` more characters behind `i` of them. -/
def tokenProcString : ℕ → ℕ → Lexer → Option Lexer
  | 0, _, self => some self
  | n + 1, i, self =>
    let (ch, self) := self.tokenNextChar
    if self.eof then some (self.errorSet .unexpectEnd)
    else if ch = chr '\\' then do
      let (result, self) ← self.tokenProcEscape
      tokenProcString n (i + 1) (self.setString i (result.setWidth 8))
    else if ch = chr '"' then some (self.setString i 0)
    else tokenProcString n (i + 1) (self.setString i ch)

/-! ## Tokens -/

/-- The operators of one character. -/
def singleTokens : List (Byte × TokenType) :=
  [(chr '(', .leftParen), (chr ')', .rightParen), (chr ',', .comma), (chr ';', .semicolon),
   (chr '&', .and), (chr '*', .mul), (chr '|', .or), (chr '%', .mod), (chr '~', .bitwise),
   (chr '^', .xor), (chr '=', .assign)]

/-- The operators that may be doubled: the token then, and the token if not. What is behind `//` is
a comment. -/
def doubleTokens : List (Byte × TokenType × TokenType) :=
  [(chr '+', .inc, .add), (chr '-', .dec, .sub), (chr '/', .eof, .div), (chr '<', .shl, .bad),
   (chr '>', .shr, .bad)]

/-- The token that begins with a character that is no letter. -/
def tokenOperator : Option Lexer :=
  let (ch, self) := self.tokenNextChar
  match singleTokens.lookup ch with
  | some type => some (self.setToken type)
  | none =>
    match doubleTokens.lookup ch with
    | some (double, single) =>
      if self.tokenNextChar.1 = ch then some (self.tokenNextChar.2.setToken double)
      else some (self.tokenNextChar.2.tokenPrevChar.setToken single)
    | none =>
      if ch = chr '\'' then do
        let (ch, self) ← self.tokenProcChar
        some { self with value := self.value.extractLsb' 8 24 ++ ch, currentToken := .valueChar }
      else if ch = chr '"' then do
        let self ← self.tokenProcString finshStringMax 0
        some (self.setToken .valueString)
      else if isDigit ch then self.tokenPrevChar.tokenProcNumber
      else some ((self.errorSet .unknownToken).setToken .bad)

/-- `token_run`. -/
def tokenRun : Option Lexer := do
  let self ← self.tokenTrimSpace
  let self ← self.tokenGetString
  if self.eof then some (self.setToken .eof)
  else if self.string 0 ≠ 0 then some self.tokenMatchName
  else self.tokenOperator

/-- `finsh_token_token`. -/
def finshTokenToken : Option Lexer :=
  if self.replay then some { self with replay := false } else self.tokenRun

/-! ## What remains of the line -/

/-- The characters that `token_next_char` still gives. -/
def remaining : List Byte :=
  if self.eof then [] else (self.line.drop self.position).takeWhile (· ≠ chr '\n')

/-- The tokenizer some characters later. -/
def skip (n : ℕ) : Lexer := { self with position := self.position + n }

variable {self : Lexer} {p : Byte → Bool} {c : Byte} {l rest : List Byte} {n : ℕ}

theorem setString_of_ne {i j : ℕ} (h : j ≠ i) : (self.setString i c).string j = self.string j :=
  update_of_ne h _ _

theorem setString_self (self : Lexer) (i : ℕ) (c : Byte) : (self.setString i c).string i = c :=
  update_self ..

theorem skip_skip (self : Lexer) (m n : ℕ) : (self.skip m).skip n = self.skip (m + n) := by
  rw [skip, skip, skip, add_assoc]

theorem rounds_skip (self : Lexer) (n : ℕ) : (self.skip n).rounds = self.rounds := rfl

section

variable (h : self.remaining = c :: rest)
include h

theorem remaining_cons :
    self.eof = false ∧ self.position < self.line.length ∧ self.line.getD self.position 0 = c ∧
      c ≠ chr '\n' ∧ (self.skip 1).remaining = rest := by
  rw [remaining] at h
  split_ifs at h with heof
  have hlt : self.position < self.line.length := by
    by_contra hge
    rw [drop_eq_nil_of_le (by omega)] at h
    simp at h
  rw [drop_eq_getElem_cons hlt, takeWhile_cons] at h
  split_ifs at h with hnl
  obtain ⟨rfl, hrest⟩ := cons.inj h
  refine ⟨by simpa using heof, hlt, getD_eq_getElem _ _ hlt, by simpa using hnl, ?_⟩
  rw [remaining, if_neg (show ¬(self.skip 1).eof = true from heof)]
  exact hrest

theorem remaining_tail : (self.skip 1).remaining = rest := (remaining_cons h).2.2.2.2

theorem eof_skip (n : ℕ) : (self.skip n).eof = false := (remaining_cons h).1

theorem tokenNextChar_cons : self.tokenNextChar = (c, self.skip 1) := by
  obtain ⟨heof, hlt, hget, hnl, -⟩ := remaining_cons h
  rw [tokenNextChar, if_neg (by simp [heof]), if_neg (by rw [hget]; simp [hlt.ne, hnl]), hget]
  rfl

end

theorem tokenNextChar_nil (h : self.remaining = []) : self.tokenNextChar.1 = 0 := by
  rw [tokenNextChar]
  split_ifs with heof hend
  · rfl
  · rfl
  · rw [remaining, if_neg heof, takeWhile_eq_nil_iff] at h
    by_contra hne
    have hlt : self.position < self.line.length := by
      by_contra hge
      exact hne (getD_eq_default _ _ (by omega))
    rw [getD_eq_getElem _ _ hlt] at hend
    exact h (by simpa using hlt) (by simpa [hlt.ne] using hend)

theorem remaining_skip (h : self.remaining = l ++ rest) :
    (self.skip l.length).remaining = rest := by
  induction l generalizing self with
  | nil => exact h
  | cons c l ih =>
    have hskip := remaining_tail h
    rw [length_cons, add_comm, ← skip_skip]
    exact ih hskip

/-- Reading a character and going back. -/
theorem tokenPrevChar_skip (h : self.remaining = c :: rest) :
    (self.skip 1).tokenPrevChar = self := by
  rw [tokenPrevChar, if_neg (by simp [eof_skip h])]
  simp [skip]

theorem tokenPrevChar_cons (h : self.remaining = c :: rest) :
    self.tokenNextChar.2.tokenPrevChar = self := by
  rw [tokenNextChar_cons h, tokenPrevChar_skip h]

/-- At the end of the line, too, nothing is lost. -/
theorem remaining_prev (self : Lexer) :
    self.tokenNextChar.2.tokenPrevChar.remaining = self.remaining := by
  cases h : self.remaining with
  | cons c rest => rw [tokenPrevChar_cons h, h]
  | nil =>
    rw [tokenNextChar]
    split_ifs with heof hend
    · rw [tokenPrevChar, if_pos heof, h]
    · rfl
    · rw [tokenPrevChar, if_neg heof]
      simpa using h

/-- The loops take the characters that they are for, and stand at the next one. -/
theorem readWhile_eq (hp : p 0 = false) (h : self.remaining = l ++ rest) (hl : ∀ c ∈ l, p c)
    (hrest : ∀ c ∈ rest.head?, p c = false) (hn : l.length < n) :
    readWhile p n self.tokenNextChar.1 self.tokenNextChar.2 =
      some (l, (self.skip l.length).tokenNextChar) := by
  induction l generalizing self n with
  | nil =>
    obtain ⟨n, rfl⟩ : ∃ k, n = k + 1 := ⟨n - 1, by omega⟩
    have hstop : p self.tokenNextChar.1 = false := by
      cases rest with
      | nil => rw [tokenNextChar_nil h, hp]
      | cons c rest => rw [tokenNextChar_cons h]; exact hrest c rfl
    rw [readWhile, if_neg (by simp [hstop])]
    rfl
  | cons c l ih =>
    obtain ⟨n, rfl⟩ : ∃ k, n = k + 1 := ⟨n - 1, by omega⟩
    have hskip : (self.skip 1).remaining = l ++ rest := remaining_tail h
    rw [tokenNextChar_cons h, readWhile, if_pos (hl c (by simp)),
      ih hskip (fun d hd => hl d (by simp [hd])) (by simpa using hn), skip_skip, add_comm 1]
    rfl

theorem length_remaining_le (self : Lexer) : self.remaining.length ≤ self.line.length := by
  rw [remaining]
  split_ifs
  · simp
  · exact (takeWhile_sublist _).length_le.trans (by simp)

/-- The number of rounds is enough. -/
theorem lt_rounds (h : self.remaining = l ++ rest) : l.length < self.rounds := by
  have hlen := self.length_remaining_le
  rw [h, length_append] at hlen
  rw [rounds]
  omega

/-- Reading the line changes nothing but where the tokenizer stands. -/
def Moves (self after : Lexer) : Prop :=
  after = { self with eof := after.eof, position := after.position }

theorem Moves.trans {a b c : Lexer} (hab : Moves a b) (hbc : Moves b c) : Moves a c := by
  rw [Moves] at *
  rw [hbc, hab]

theorem moves_skip (self : Lexer) (n : ℕ) : Moves self (self.skip n) := rfl

theorem moves_next (self : Lexer) : Moves self self.tokenNextChar.2 := by
  rw [tokenNextChar]
  split_ifs <;> rfl

theorem moves_prev (self : Lexer) : Moves self self.tokenPrevChar := by
  rw [tokenPrevChar]
  split_ifs <;> rfl

theorem moves_readWhile {ch last : Byte} {after : Lexer}
    (h : readWhile p n ch self = some (l, last, after)) : Moves self after := by
  induction n generalizing self ch l with
  | zero => simp [readWhile] at h
  | succ n ih =>
    rw [readWhile] at h
    split_ifs at h
    · obtain ⟨⟨stored, last', after'⟩, hread, heq⟩ := Option.bind_eq_some_iff.mp h
      obtain ⟨-, rfl, rfl⟩ : ch :: stored = l ∧ last' = last ∧ after' = after := by
        simpa using heq
      exact (moves_next self).trans (ih hread)
    · obtain ⟨-, -, rfl⟩ : [] = l ∧ ch = last ∧ self = after := by simpa using h
      rfl

end Lexer

end RtThread.Finsh
