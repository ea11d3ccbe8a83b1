import RtThread.Finsh.Lexer
import RtThread.Lib.Positional

/-!
# Integer literals

What C means by an integer literal (`IntLiteral`), and what the tokenizer makes of it.

* `tokenRun_eq`: behind blanks, a digit or an operator is read where it stands.
* `tokenProcDecimal_reads`, `tokenProcDigits_iff`, `tokenProcDigits_suffix_iff`: the loops over
  the digits. The one for hexadecimal numbers takes a suffix for a digit.
* `IntLiteral.tokenRun_iff`: the literals that are read as they are written.
-/

namespace RtThread.Finsh

open Positional List Function Option

/-! ## What C defines -/

/-- The value of a digit; a character that is no digit has 16. -/
def digit (c : Byte) : ℕ :=
  if chr '0' ≤ c ∧ c ≤ chr '9' then c.toNat - (chr '0').toNat
  else if chr 'a' ≤ c ∧ c ≤ chr 'f' then c.toNat - (chr 'a').toNat + 10
  else if chr 'A' ≤ c ∧ c ≤ chr 'F' then c.toNat - (chr 'A').toNat + 10
  else 16

inductive Radix
  | dec | oct | hex | bin
  deriving DecidableEq, Repr

def Radix.base : Radix → ℕ
  | dec => 10
  | oct => 8
  | hex => 16
  | bin => 2

/-- What stands before the digits. -/
def Radix.marks : Radix → List (List Byte)
  | dec => [[]]
  | oct => [[chr '0']]
  | hex => [[chr '0', chr 'x'], [chr '0', chr 'X']]
  | bin => [[chr '0', chr 'b'], [chr '0', chr 'B']]

/-- An integer literal. The literal `0` is octal, with no digits behind its mark. -/
structure IntLiteral where
  radix : Radix
  mark : List Byte
  digits : List Byte
  suffix : List Byte
  mark_mem : mark ∈ radix.marks
  digits_lt : ∀ c ∈ digits, digit c < radix.base
  digits_ne : radix ≠ .oct → digits ≠ []
  first_ne : radix = .dec → digits.head? ≠ some (chr '0')
  suffix_mem : suffix ∈ [[], [chr 'l'], [chr 'L']]

namespace IntLiteral

variable (lit : IntLiteral)

def text : List Byte := lit.mark ++ lit.digits ++ lit.suffix

def value : ℕ := number lit.radix.base digit lit.digits

end IntLiteral

/-! ## Digits -/

theorem isDigit_iff : ∀ c : Byte, isDigit c = true ↔ digit c < 10 := by
  decide

theorem isOctal_iff : ∀ c : Byte, isOctal c = true ↔ digit c < 8 := by
  decide

theorem isBinary_iff : ∀ c : Byte, isBinary c = true ↔ digit c < 2 := by
  decide

theorem isXdigit_iff : ∀ c : Byte, isXdigit c = true ↔ digit c < 16 := by
  decide

theorem alnum_of_digit : ∀ c : Byte, digit c < 16 → (isDigit c || isAlpha c) = true := by
  decide

theorem setWidth_digit : ∀ c : Byte, digit c < 10 →
    (c - chr '0').setWidth 32 = BitVec.ofNat 32 (digit c) := by
  decide

theorem specDigit_eq : ∀ c : Byte, digit c < 16 →
    Lexer.specDigit c = BitVec.ofNat 32 (digit c) := by
  decide

theorem escapeDigit_eq : ∀ c : Byte, digit c < 16 →
    Lexer.escapeDigit c = BitVec.ofNat 32 (digit c) := by
  decide

namespace Lexer

variable {self : Lexer} {blanks digits l rest suffix : List Byte} {c : Byte} {v : Long}
  {p : Byte → Bool} {shift : ℕ}

/-! ## The beginning of a token -/

theorem tokenTrimSpace_eq (h : self.remaining = blanks ++ c :: rest)
    (hblanks : ∀ b ∈ blanks, isBlank b) (hc : isBlank c = false) :
    self.tokenTrimSpace = some (self.skip blanks.length) := by
  have hread := readWhile_eq (by decide) h hblanks (by simpa using hc) (lt_rounds h)
  rw [tokenTrimSpace, hread]
  exact congrArg some (tokenPrevChar_cons (remaining_skip h))

/-- `token_get_string` gives back a character that does not begin a name. -/
theorem tokenGetString_eq (h : self.remaining = c :: rest) (hc : isDigit c ∨ isSeparator c) :
    ∃ string, string 0 = 0 ∧ self.tokenGetString = some { self with string := string } := by
  obtain ⟨heof, -⟩ := remaining_cons h
  rw [tokenGetString, tokenNextChar_cons h]
  by_cases hdigit : isDigit c = true
  · refine ⟨update self.string 0 0, by simp, ?_⟩
    simp [skip, heof, hdigit, tokenPrevChar, setString]
  · have hsep : isSeparator c = true := hc.resolve_left hdigit
    refine ⟨fun i => if i < 1 then 0 else update self.string 0 0 i, by simp, ?_⟩
    simp [skip, heof, hdigit, rounds, readWhile, hsep, tokenPrevChar, setString, finshStringMax]

/-- `token_run` comes to the operators with the blanks behind it. -/
theorem tokenRun_eq (h : self.remaining = blanks ++ c :: rest) (hblanks : ∀ b ∈ blanks, isBlank b)
    (hblank : isBlank c = false) (hc : isDigit c ∨ isSeparator c) :
    ∃ start : Lexer, start.remaining = c :: rest ∧ start.errors = self.errors ∧
      self.tokenRun = start.tokenOperator := by
  have hskip := remaining_skip h
  obtain ⟨heof, -⟩ := remaining_cons hskip
  obtain ⟨string, hzero, hget⟩ := tokenGetString_eq hskip hc
  refine ⟨{ self.skip blanks.length with string := string }, hskip, rfl, ?_⟩
  rw [tokenRun, tokenTrimSpace_eq h hblanks hblank]
  simp only [bind_eq_bind, bind_some, hget]
  rw [if_neg (by simp [heof]), if_neg (by simp [hzero])]

/-! ## Numbers -/

theorem digit_begins_number : ∀ c : Byte, isDigit c = true →
    singleTokens.lookup c = none ∧ doubleTokens.lookup c = none ∧ c ≠ chr '\'' ∧ c ≠ chr '"' := by
  decide

theorem tokenOperator_digit (h : self.remaining = c :: rest) (hc : isDigit c) :
    self.tokenOperator = self.tokenProcNumber := by
  obtain ⟨hsingle, hdouble, hchar, hstring⟩ := digit_begins_number c hc
  rw [tokenOperator, tokenNextChar_cons h]
  simp only [hsingle, hdouble, if_neg hchar, if_neg hstring, if_pos hc]
  exact congrArg tokenProcNumber (tokenPrevChar_skip h)

theorem tokenSpecNumber_eq (hl : ∀ c ∈ l, digit c < 2 ^ shift) (hshift : shift ≤ 4) :
    tokenSpecNumber l shift = BitVec.ofNat 32 (number (2 ^ shift) digit l) := by
  have hfst : tokenSpecNumber l shift = l.foldl (fun v t => shiftIn shift (specDigit t) v) 0 :=
    (foldl_hom Prod.fst fun _ _ => rfl).symm
  rw [hfst]
  refine foldl_eq_number fun v c hc => ?_
  have hpow : 2 ^ shift ≤ 2 ^ 4 := Nat.pow_le_pow_right (by decide) hshift
  rw [shiftIn, specDigit_eq c ((hl c hc).trans_le hpow), shiftLeft_or v (hl c hc)]

theorem tokenSpecNumber_concat (l : List Byte) (c : Byte) (shift : ℕ) :
    tokenSpecNumber (l ++ [c]) shift = shiftIn shift (specDigit c) (tokenSpecNumber l shift) := by
  rw [tokenSpecNumber, foldl_append]
  rfl

/-- A number has been read, and this is behind it. -/
structure GivesNumber (after : Lexer) (v : Long) (rest : List Byte) : Prop where
  value : after.value = v
  remaining : after.remaining = rest
  token : after.currentToken = .valueInt ∨ after.currentToken = .valueLong

/-- The result is a number, and this is behind it. -/
def ReadsNumber (result : Option Lexer) (v : Long) (rest : List Byte) : Prop :=
  ∃ after ∈ result, GivesNumber after v rest

theorem readsNumber_some {after : Lexer} {u : Long} (h : GivesNumber after u rest) :
    ReadsNumber (some after) v rest ↔ u = v := by
  constructor
  · rintro ⟨x, hx, hafter⟩
    obtain rfl := mem_some_iff.mp hx
    rw [← h.value, hafter.value]
  · rintro rfl
    exact ⟨after, rfl, h⟩

theorem readsNumber_none : ¬ReadsNumber none v rest := by
  rintro ⟨after, hafter, -⟩
  simp at hafter

/-- What may be behind a literal. -/
def Ends (rest : List Byte) : Prop := ∀ c ∈ rest.head?, isSeparator c
  deriving Decidable

theorem separator_ends_number : ∀ c : Byte, isSeparator c = true →
    digit c = 16 ∧ (isDigit c || isAlpha c) = false := by
  decide

/-- The value and the token do not matter to where the tokenizer stands. -/
theorem remaining_prev_number (self : Lexer) (v : Long) (type : TokenType) :
    ({ self.tokenNextChar.2 with value := v, currentToken := type } : Lexer).tokenPrevChar =
      { self.tokenNextChar.2.tokenPrevChar with value := v, currentToken := type } := by
  rw [tokenPrevChar, tokenPrevChar]
  split_ifs <;> rfl

theorem suffix_cons (hsuffix : suffix ∈ [[], [chr 'l'], [chr 'L']]) (hnil : suffix ≠ []) :
    ∃ c, (c = chr 'l' ∨ c = chr 'L') ∧ suffix = [c] := by
  have hsuffix : suffix = [chr 'l'] ∨ suffix = [chr 'L'] := by simpa [hnil] using hsuffix
  rcases hsuffix with rfl | rfl
  · exact ⟨_, .inl rfl, rfl⟩
  · exact ⟨_, .inr rfl, rfl⟩

theorem rounds_next (self : Lexer) : self.tokenNextChar.2.rounds = self.rounds := by
  rw [tokenNextChar]
  split_ifs <;> rfl

theorem tokenProcDigits_eq (hp : p 0 = false) (h : self.remaining = l ++ rest)
    (hl : ∀ c ∈ l, p c) (hrest : ∀ c ∈ rest.head?, p c = false) :
    self.tokenNextChar.2.tokenProcDigits p shift self.tokenNextChar.1 =
      if l.length < 128 then
        some (({ (self.skip l.length).tokenNextChar.2 with
          value := tokenSpecNumber l shift, currentToken := .valueInt } : Lexer).tokenProcSuffix
            (self.skip l.length).tokenNextChar.1)
      else none := by
  rw [tokenProcDigits, rounds_next, readWhile_eq hp h hl hrest (lt_rounds h)]
  rfl

section

variable (hsuffix : suffix ∈ [[], [chr 'l'], [chr 'L']]) (hend : Ends rest)
include hsuffix hend

theorem tokenProcSuffix_gives (h : self.remaining = suffix ++ rest) :
    GivesNumber (({ self.tokenNextChar.2 with value := v, currentToken := .valueInt } :
      Lexer).tokenProcSuffix self.tokenNextChar.1) v rest := by
  by_cases hnil : suffix = []
  · subst hnil
    have hl : ¬(self.tokenNextChar.1 = chr 'l' ∨ self.tokenNextChar.1 = chr 'L') := by
      cases rest with
      | nil => rw [tokenNextChar_nil h]; decide
      | cons c rest =>
        rw [tokenNextChar_cons h]
        rintro (rfl | rfl) <;> exact absurd (hend _ rfl) (by decide)
    rw [tokenProcSuffix, if_neg hl, remaining_prev_number]
    exact ⟨rfl, (remaining_prev self).trans h, .inl rfl⟩
  · obtain ⟨c, hc, rfl⟩ := suffix_cons hsuffix hnil
    have hskip := remaining_skip h
    rw [tokenNextChar_cons h, tokenProcSuffix, if_pos hc]
    exact ⟨rfl, hskip, .inr rfl⟩

/-- The character behind the digits. -/
theorem head_suffix : ∀ c ∈ (suffix ++ rest).head?, isSeparator c ∨ c = chr 'l' ∨ c = chr 'L' := by
  intro c hc
  by_cases hnil : suffix = []
  · subst hnil
    exact .inl (hend c hc)
  · obtain ⟨d, hd, rfl⟩ := suffix_cons hsuffix hnil
    obtain rfl : d = c := by simpa using hc
    exact .inr hd

theorem digit_head_suffix : ∀ c ∈ (suffix ++ rest).head?, digit c = 16 := by
  intro c hc
  rcases head_suffix hsuffix hend c hc with hsep | rfl | rfl
  · exact (separator_ends_number c hsep).1
  · decide
  · decide

theorem tokenProcDecimal_reads (h : self.remaining = digits ++ (suffix ++ rest))
    (hdigits : ∀ c ∈ digits, digit c < 10) :
    ReadsNumber (self.tokenNextChar.2.tokenProcDecimal self.tokenNextChar.1)
      (BitVec.ofNat 32 (number 10 digit digits)) rest := by
  have hrest : ∀ c ∈ (suffix ++ rest).head?, isDigit c = false := fun c hc => by
    simp [← Bool.not_eq_true, isDigit_iff, digit_head_suffix hsuffix hend c hc]
  have hread := readWhile_eq (by decide) h (fun c hc => (isDigit_iff c).mpr (hdigits c hc)) hrest
    (lt_rounds h)
  have hvalue : digits.foldl (fun v d => v * 10 + (d - chr '0').setWidth 32) 0 =
      BitVec.ofNat 32 (number 10 digit digits) :=
    foldl_eq_number fun v c hc => by rw [setWidth_digit c (hdigits c hc)]; rfl
  rw [tokenProcDecimal, rounds_next, hread]
  simp only [bind_eq_bind, bind_some, hvalue]
  exact ⟨_, rfl, tokenProcSuffix_gives hsuffix hend (remaining_skip h)⟩

/-- Digits of a number that is not decimal, and behind them a suffix that does not look like one of
them. -/
theorem tokenProcDigits_iff (hp : p 0 = false) (hshift : shift ≤ 4)
    (h : self.remaining = digits ++ (suffix ++ rest)) (hdigits : ∀ c ∈ digits, p c)
    (hlt : ∀ c ∈ digits, digit c < 2 ^ shift) (hrest : ∀ c ∈ (suffix ++ rest).head?, p c = false) :
    ReadsNumber (self.tokenNextChar.2.tokenProcDigits p shift self.tokenNextChar.1)
      (BitVec.ofNat 32 (number (2 ^ shift) digit digits)) rest ↔ digits.length < 128 := by
  rw [tokenProcDigits_eq hp h hdigits hrest, tokenSpecNumber_eq hlt hshift]
  split_ifs with hlength
  · simp only [hlength, iff_true]
    exact ⟨_, rfl, tokenProcSuffix_gives hsuffix hend (remaining_skip h)⟩
  · simp only [hlength, readsNumber_none]

end

/-- The values that a hexadecimal number has also with its suffix taken as a digit. -/
def suffixFixed (c : Byte) : ℕ := if c = chr 'l' then 0xFFFFFFFC else 0xDDDDDDDC

theorem shiftIn_suffix_iff (hc : c = chr 'l' ∨ c = chr 'L') :
    shiftIn 4 (specDigit c) v = v ↔ v = BitVec.ofNat 32 (suffixFixed c) := by
  have hiter : (shiftIn 4 (specDigit c))^[8] 0 = BitVec.ofNat 32 (suffixFixed c) := by
    rcases hc with rfl | rfl <;> decide
  constructor
  · intro h
    rw [← hiter]
    exact eq_of_shiftIn_eq (by decide) h
  · rintro rfl
    rcases hc with rfl | rfl <;> decide

/-- The loop for hexadecimal digits takes every letter, and so the suffix. -/
theorem tokenProcDigits_suffix_iff (h : self.remaining = digits ++ ([c] ++ rest))
    (hdigits : ∀ d ∈ digits, digit d < 16) (hc : c = chr 'l' ∨ c = chr 'L') (hend : Ends rest) :
    ReadsNumber (self.tokenNextChar.2.tokenProcDigits (fun ch => isDigit ch || isAlpha ch) 4
        self.tokenNextChar.1) (BitVec.ofNat 32 (number 16 digit digits)) rest ↔
      (digits ++ [c]).length < 128 ∧
        BitVec.ofNat 32 (number 16 digit digits) = BitVec.ofNat 32 (suffixFixed c) := by
  have h' : self.remaining = (digits ++ [c]) ++ rest := by rw [h, append_assoc]
  have hl : ∀ d ∈ digits ++ [c], (isDigit d || isAlpha d) = true := by
    intro d hd
    rcases mem_append.mp hd with hd | hd
    · exact alnum_of_digit d (hdigits d hd)
    · obtain rfl := mem_singleton.mp hd
      rcases hc with rfl | rfl <;> decide
  have hrest : ∀ d ∈ rest.head?, (isDigit d || isAlpha d) = false := by
    exact fun d hd => (separator_ends_number d (hend d hd)).2
  rw [tokenProcDigits_eq (by decide) h' hl hrest, tokenSpecNumber_concat,
    tokenSpecNumber_eq hdigits le_rfl]
  split_ifs with hlength
  · rw [and_iff_right hlength,
      readsNumber_some (tokenProcSuffix_gives (mem_cons_self ..) hend (remaining_skip h'))]
    exact shiftIn_suffix_iff hc
  · simp only [hlength, readsNumber_none, false_and]

/-- What `token_proc_number` does behind a zero. -/
theorem tokenProcNumber_zero (h : self.remaining = chr '0' :: l) :
    self.tokenProcNumber =
      let next := (self.skip 1).tokenNextChar
      if next.1 = chr 'x' ∨ next.1 = chr 'X' then
        next.2.tokenNextChar.2.tokenProcDigits (fun ch => isDigit ch || isAlpha ch) 4
          next.2.tokenNextChar.1
      else if next.1 = chr 'b' ∨ next.1 = chr 'B' then
        next.2.tokenNextChar.2.tokenProcDigits isBinary 1 next.2.tokenNextChar.1
      else if isOctal next.1 then next.2.tokenProcDigits isOctal 3 next.1
      else some { next.2.tokenPrevChar with value := 0, currentToken := .valueInt } := by
  rw [tokenProcNumber, tokenNextChar_cons h]
  rfl

theorem octal_no_mark : ∀ c : Byte, isOctal c = true →
    ¬(c = chr 'x' ∨ c = chr 'X') ∧ ¬(c = chr 'b' ∨ c = chr 'B') := by
  decide

section

variable (h : self.remaining = chr '0' :: c :: l)
include h

theorem tokenProcNumber_hex (hc : c = chr 'x' ∨ c = chr 'X') :
    self.tokenProcNumber = (self.skip 2).tokenNextChar.2.tokenProcDigits
      (fun ch => isDigit ch || isAlpha ch) 4 (self.skip 2).tokenNextChar.1 := by
  have hskip : (self.skip 1).remaining = c :: l := remaining_tail h
  rw [tokenProcNumber_zero h, tokenNextChar_cons hskip]
  exact if_pos hc

theorem tokenProcNumber_bin (hc : c = chr 'b' ∨ c = chr 'B') :
    self.tokenProcNumber = (self.skip 2).tokenNextChar.2.tokenProcDigits isBinary 1
      (self.skip 2).tokenNextChar.1 := by
  have hskip : (self.skip 1).remaining = c :: l := remaining_tail h
  have hx : ¬(c = chr 'x' ∨ c = chr 'X') := by rcases hc with rfl | rfl <;> decide
  rw [tokenProcNumber_zero h, tokenNextChar_cons hskip]
  exact (if_neg hx).trans (if_pos hc)

theorem tokenProcNumber_oct (hc : isOctal c) :
    self.tokenProcNumber = (self.skip 1).tokenNextChar.2.tokenProcDigits isOctal 3
      (self.skip 1).tokenNextChar.1 := by
  have hskip : (self.skip 1).remaining = c :: l := remaining_tail h
  obtain ⟨hx, hb⟩ := octal_no_mark c hc
  rw [tokenProcNumber_zero h, tokenNextChar_cons hskip]
  exact (if_neg hx).trans ((if_neg hb).trans (if_pos hc))

end

theorem tokenProcNumber_alone (h : self.remaining = chr '0' :: l)
    (hc : ∀ c ∈ l.head?, isSeparator c ∨ c = chr 'l' ∨ c = chr 'L') :
    self.tokenProcNumber = some
      { (self.skip 1).tokenNextChar.2.tokenPrevChar with
        value := 0, currentToken := .valueInt } := by
  have hskip : (self.skip 1).remaining = l := remaining_tail h
  have hno : ∀ c : Byte, isSeparator c = true ∨ c = chr 'l' ∨ c = chr 'L' →
      ¬(c = chr 'x' ∨ c = chr 'X') ∧ ¬(c = chr 'b' ∨ c = chr 'B') ∧ ¬isOctal c = true := by
    decide
  obtain ⟨hx, hb, ho⟩ := hno (self.skip 1).tokenNextChar.1 (by
    cases l with
    | nil => rw [tokenNextChar_nil hskip]; decide
    | cons c l => rw [tokenNextChar_cons hskip]; exact hc c rfl)
  rw [tokenProcNumber_zero h]
  exact (if_neg hx).trans ((if_neg hb).trans (if_neg ho))

theorem tokenProcNumber_dec (h : self.remaining = c :: l) (hc : c ≠ chr '0') :
    self.tokenProcNumber = self.tokenNextChar.2.tokenProcDecimal self.tokenNextChar.1 := by
  rw [tokenProcNumber, tokenNextChar_cons h]
  exact if_neg hc

end Lexer

namespace IntLiteral

open Lexer

/-- The literals that the tokenizer reads as they are written. -/
def Kept (lit : IntLiteral) : Prop :=
  match lit.radix with
  | .dec => True
  | .oct => if lit.digits = [] then lit.suffix = [] else lit.digits.length < 128
  | .hex => (lit.digits ++ lit.suffix).length < 128 ∧
      ∀ c ∈ lit.suffix, lit.value = suffixFixed c
  | .bin => lit.digits.length < 128

variable {self : Lexer} {lit : IntLiteral} {mark rest : List Byte} {b : ℕ}

theorem digit_lt (hradix : lit.radix.base = b) : ∀ c ∈ lit.digits, digit c < b :=
  hradix ▸ lit.digits_lt

section

variable (h : self.remaining = lit.text ++ rest)
include h

theorem remaining_mark (hmark : lit.mark = mark) :
    self.remaining = mark ++ (lit.digits ++ (lit.suffix ++ rest)) := by
  rw [h, text, hmark, append_assoc, append_assoc]

variable (hend : Ends rest)
include hend

theorem reads_dec (hradix : lit.radix = .dec) :
    ReadsNumber self.tokenProcNumber (BitVec.ofNat 32 lit.value) rest := by
  have hmark : lit.mark = [] := by simpa [hradix, Radix.marks] using lit.mark_mem
  have hdigits : ∀ c ∈ lit.digits, digit c < 10 := digit_lt (by rw [hradix]; rfl)
  have h := remaining_mark h hmark
  obtain ⟨c, l, hcons⟩ := exists_cons_of_ne_nil (lit.digits_ne (by simp [hradix]))
  have hc : c ≠ chr '0' := by simpa [hcons] using lit.first_ne hradix
  rw [tokenProcNumber_dec (c := c) (by rw [h, hcons]; rfl) hc, value, hradix]
  exact tokenProcDecimal_reads lit.suffix_mem hend h hdigits

theorem reads_bin (hradix : lit.radix = .bin) :
    ReadsNumber self.tokenProcNumber (BitVec.ofNat 32 lit.value) rest ↔
      lit.digits.length < 128 := by
  obtain ⟨c, hc, hmark⟩ : ∃ c, (c = chr 'b' ∨ c = chr 'B') ∧ lit.mark = [chr '0', c] := by
    simpa [hradix, Radix.marks] using lit.mark_mem
  have hdigits : ∀ c ∈ lit.digits, digit c < 2 := digit_lt (by rw [hradix]; rfl)
  have hrest : ∀ c ∈ (lit.suffix ++ rest).head?, isBinary c = false := fun c hc => by
    simp [← Bool.not_eq_true, isBinary_iff, digit_head_suffix lit.suffix_mem hend c hc]
  have h := remaining_mark h hmark
  rw [tokenProcNumber_bin h hc, value, hradix]
  exact tokenProcDigits_iff lit.suffix_mem hend (by decide) (by decide) (remaining_skip h)
    (fun d hd => (isBinary_iff d).mpr (hdigits d hd)) hdigits hrest

theorem reads_hex (hradix : lit.radix = .hex) (hvalue : lit.value < 2 ^ 32) :
    ReadsNumber self.tokenProcNumber (BitVec.ofNat 32 lit.value) rest ↔
      (lit.digits ++ lit.suffix).length < 128 ∧ ∀ c ∈ lit.suffix, lit.value = suffixFixed c := by
  obtain ⟨c, hc, hmark⟩ : ∃ c, (c = chr 'x' ∨ c = chr 'X') ∧ lit.mark = [chr '0', c] := by
    simpa [hradix, Radix.marks] using lit.mark_mem
  have hdigits : ∀ c ∈ lit.digits, digit c < 16 := digit_lt (by rw [hradix]; rfl)
  have hnumber : lit.value = number 16 digit lit.digits := by rw [value, hradix]; rfl
  have h := remaining_mark h hmark
  have hskip : (self.skip 2).remaining = lit.digits ++ (lit.suffix ++ rest) := remaining_skip h
  rw [tokenProcNumber_hex h hc]
  by_cases hnil : lit.suffix = []
  · rw [hnil] at hskip ⊢
    simp only [append_nil, not_mem_nil, false_imp_iff, implies_true, and_true]
    rw [hnumber]
    exact tokenProcDigits_iff (by simp) hend (by decide) le_rfl hskip
      (fun d hd => alnum_of_digit d (hdigits d hd)) hdigits
      fun d hd => (separator_ends_number d (hend d hd)).2
  · obtain ⟨s, hs, hsuffix⟩ := suffix_cons lit.suffix_mem hnil
    have hfixed : suffixFixed s < 2 ^ 32 := by rcases hs with rfl | rfl <;> decide
    rw [hsuffix] at hskip ⊢
    rw [hnumber] at hvalue ⊢
    rw [tokenProcDigits_suffix_iff hskip hdigits hs hend, ← BitVec.toNat_inj, BitVec.toNat_ofNat,
      BitVec.toNat_ofNat, Nat.mod_eq_of_lt hvalue, Nat.mod_eq_of_lt hfixed]
    simp only [mem_singleton, forall_eq]

theorem reads_oct (hradix : lit.radix = .oct) :
    ReadsNumber self.tokenProcNumber (BitVec.ofNat 32 lit.value) rest ↔
      if lit.digits = [] then lit.suffix = [] else lit.digits.length < 128 := by
  have hmark : lit.mark = [chr '0'] := by simpa [hradix, Radix.marks] using lit.mark_mem
  have hdigits : ∀ c ∈ lit.digits, digit c < 8 := digit_lt (by rw [hradix]; rfl)
  have hnumber : lit.value = number 8 digit lit.digits := by rw [value, hradix]; rfl
  have h := remaining_mark h hmark
  rw [hnumber]
  cases hcons : lit.digits with
  | nil =>
    rw [hcons, nil_append, singleton_append] at h
    have hprev := (remaining_prev (self.skip 1)).trans (remaining_tail h)
    rw [tokenProcNumber_alone h (head_suffix lit.suffix_mem hend)]
    constructor
    · rintro ⟨x, hx, hafter⟩
      obtain rfl := mem_some_iff.mp hx
      have heq : lit.suffix ++ rest = rest := hprev.symm.trans hafter.remaining
      simpa using heq
    · intro hnil
      exact ⟨_, rfl, rfl, hprev.trans (by rw [hnil]; rfl), .inl rfl⟩
  | cons d digits =>
    have hrest : ∀ c ∈ (lit.suffix ++ rest).head?, isOctal c = false := fun c hc => by
      simp [← Bool.not_eq_true, isOctal_iff, digit_head_suffix lit.suffix_mem hend c hc]
    rw [hcons] at h hdigits
    rw [tokenProcNumber_oct h ((isOctal_iff d).mpr (hdigits d (by simp)))]
    exact tokenProcDigits_iff lit.suffix_mem hend (by decide) (by decide) (remaining_skip h)
      (fun d hd => (isOctal_iff d).mpr (hdigits d hd)) hdigits hrest

/-- What `token_proc_number` makes of a literal. -/
theorem reads_iff (hvalue : lit.value < 2 ^ 32) :
    ReadsNumber self.tokenProcNumber (BitVec.ofNat 32 lit.value) rest ↔ lit.Kept := by
  rw [Kept]
  cases hradix : lit.radix with
  | dec => exact iff_of_true (reads_dec h hend hradix) trivial
  | oct => exact reads_oct h hend hradix
  | hex => exact reads_hex h hend hradix hvalue
  | bin => exact reads_bin h hend hradix

end

theorem mark_cons (hradix : lit.radix ≠ .dec) : ∃ l, lit.mark = chr '0' :: l := by
  have hmem := lit.mark_mem
  cases h : lit.radix with
  | dec => exact absurd h hradix
  | oct => exact ⟨[], by simpa [h, Radix.marks] using hmem⟩
  | hex =>
    rcases (by simpa [h, Radix.marks] using hmem) with hx | hx
    · exact ⟨_, hx⟩
    · exact ⟨_, hx⟩
  | bin =>
    rcases (by simpa [h, Radix.marks] using hmem) with hb | hb
    · exact ⟨_, hb⟩
    · exact ⟨_, hb⟩

theorem text_cons (lit : IntLiteral) : ∃ c l, lit.text = c :: l ∧ isDigit c := by
  by_cases hradix : lit.radix = .dec
  · have hmark : lit.mark = [] := by simpa [hradix, Radix.marks] using lit.mark_mem
    obtain ⟨c, l, hcons⟩ := exists_cons_of_ne_nil (lit.digits_ne (by simp [hradix]))
    have hc : digit c < 10 := digit_lt (by rw [hradix]; rfl) c (by simp [hcons])
    exact ⟨c, l ++ lit.suffix, by rw [text, hmark, hcons]; rfl, (isDigit_iff c).mpr hc⟩
  · obtain ⟨l, hmark⟩ := lit.mark_cons hradix
    exact ⟨chr '0', l ++ lit.digits ++ lit.suffix, by rw [text, hmark]; rfl, by decide⟩

theorem digit_no_blank : ∀ c : Byte, isDigit c = true → isBlank c = false := by
  decide

/-- What `token_run` makes of a literal, behind blanks. -/
theorem tokenRun_iff {blanks : List Byte} (hvalue : lit.value < 2 ^ 32) (hend : Ends rest)
    (hblanks : ∀ c ∈ blanks, isBlank c) (h : self.remaining = blanks ++ (lit.text ++ rest)) :
    ReadsNumber self.tokenRun (BitVec.ofNat 32 lit.value) rest ↔ lit.Kept := by
  obtain ⟨c, l, htext, hc⟩ := lit.text_cons
  rw [htext, cons_append] at h
  obtain ⟨start, hstart, -, hrun⟩ := tokenRun_eq h hblanks (digit_no_blank c hc) (.inl hc)
  rw [hrun, tokenOperator_digit hstart hc]
  exact reads_iff (by rw [hstart, htext, cons_append]) hend hvalue

end IntLiteral

end RtThread.Finsh
