import RtThread.Finsh.Literals

/-!
# Escapes

What C means by an escape (`Escape`), and what the tokenizer makes of it in a string and in a
character constant.

* `readsEscape_iff`: the escapes of a string. The loop over octal digits does not stop after the
  third one, and a backslash, a single quote and a question mark have no case.
* `tokenProcString_items`: a string all of whose escapes are read as they are meant is stored as
  it is meant.
* `readsChar_iff`: the escapes of a character constant. Octal digits are taken, but their value
  is not.
-/

namespace RtThread.Finsh

open Positional List Option Prod

/-! ## What C defines -/

/-- The escapes of a single character. -/
def simpleEscapes : List (Byte × Byte) :=
  [(chr 'n', 10), (chr 't', 9), (chr 'v', 11), (chr 'b', 8), (chr 'r', 13), (chr 'f', 12),
   (chr 'a', 7), (chr '\\', chr '\\'), (chr '?', chr '?'), (chr '\'', chr '\''),
   (chr '"', chr '"')]

/-- An escape, without its backslash. -/
inductive Escape
  | simple (c value : Byte) (mem : (c, value) ∈ simpleEscapes)
  | octal (digits : List Byte) (digits_lt : ∀ c ∈ digits, digit c < 8) (digits_ne : digits ≠ [])
    (length_le : digits.length ≤ 3) (value_lt : number 8 digit digits < 256)
  | hex (digits : List Byte) (digits_lt : ∀ c ∈ digits, digit c < 16) (digits_ne : digits ≠ [])
    (value_lt : number 16 digit digits < 256)

namespace Escape

def text : Escape → List Byte
  | simple c _ _ => [c]
  | octal digits .. => digits
  | hex digits .. => chr 'x' :: digits

def value : Escape → Byte
  | simple _ value _ => value
  | octal digits .. => BitVec.ofNat 8 (number 8 digit digits)
  | hex digits .. => BitVec.ofNat 8 (number 16 digit digits)

/-- The escape is not longer than it is written here: three octal digits are all that it can have,
and digits are taken as long as there are any. -/
def Ends (rest : List Byte) : Escape → Prop
  | simple .. => True
  | octal digits .. => digits.length < 3 → ∀ c ∈ rest.head?, 8 ≤ digit c
  | hex .. => ∀ c ∈ rest.head?, 16 ≤ digit c

instance {rest : List Byte} : (e : Escape) → Decidable (e.Ends rest)
  | simple .. => inferInstanceAs (Decidable True)
  | octal digits .. =>
    inferInstanceAs (Decidable (digits.length < 3 → ∀ c ∈ rest.head?, 8 ≤ digit c))
  | hex .. => inferInstanceAs (Decidable (∀ c ∈ rest.head?, 16 ≤ digit c))

end Escape

namespace Escape

open Lexer

variable {self : Lexer} {e : Escape} {blanks digits rest : List Byte} {c v : Byte}

/-! ## Strings -/

/-- `token_proc_escape` takes the escape and gives its character. -/
def ReadsEscape (self : Lexer) (e : Escape) (rest : List Byte) : Prop :=
  ∃ result after, self.tokenProcEscape = some (result, after) ∧ result.setWidth 8 = e.value ∧
    after.remaining = rest

/-- The escapes that `token_proc_escape` reads as they are meant. -/
def KeptInString (rest : List Byte) : Escape → Prop
  | simple c .. => c ∉ [chr '\\', chr '\'', chr '?']
  | octal .. => ∀ c ∈ rest.head?, 8 ≤ digit c
  | hex .. => True

theorem simple_in_string : ∀ e ∈ simpleEscapes,
    if e.1 ∈ [chr '\\', chr '\'', chr '?'] then
      stringEscapes.lookup e.1 = none ∧ ¬(e.1 = chr 'x' ∨ e.1 = chr 'X') ∧ ¬isOctal e.1 = true ∧
        e.2 ≠ 0
    else stringEscapes.lookup e.1 = some e.2 := by
  exact forall_iff_forall_mem.mp (by decide)

theorem readsEscape_simple (mem : (c, v) ∈ simpleEscapes) (h : self.remaining = c :: rest) :
    ReadsEscape self (.simple c v mem) rest ↔ c ∉ [chr '\\', chr '\'', chr '?'] := by
  have hskip : (self.skip 1).remaining = rest := remaining_tail h
  have hcase := simple_in_string (c, v) mem
  rw [ReadsEscape, tokenProcEscape, tokenNextChar_cons h]
  split_ifs at hcase with hc
  · obtain ⟨hlookup, hx, ho, hv⟩ := hcase
    simp only [hlookup, if_neg hx, if_neg ho]
    refine iff_of_false ?_ (not_not.mpr hc)
    rintro ⟨result, after, heq, hresult, -⟩
    obtain ⟨rfl, -⟩ := mk.inj (some.inj heq)
    exact hv hresult.symm
  · simp only [hcase]
    refine iff_of_true ⟨_, _, rfl, ?_, hskip⟩ hc
    simp [value]

theorem octal_in_string : ∀ c : Byte, digit c < 8 →
    stringEscapes.lookup c = none ∧ ¬(c = chr 'x' ∨ c = chr 'X') ∧ isOctal c = true ∧
      (c - chr '0').setWidth 32 = BitVec.ofNat 32 (digit c) := by
  decide

/-- The loop for octal digits. -/
theorem tokenProcEscape_octal (h : self.remaining = digits ++ rest)
    (hdigits : ∀ c ∈ digits, digit c < 8) (hne : digits ≠ [])
    (hrest : ∀ c ∈ rest.head?, 8 ≤ digit c) :
    ∃ after, self.tokenProcEscape = some (BitVec.ofNat 32 (number 8 digit digits), after) ∧
      after.remaining = rest := by
  obtain ⟨c, l, rfl⟩ := exists_cons_of_ne_nil hne
  obtain ⟨hlookup, hx, ho, -⟩ := octal_in_string c (hdigits c (by simp))
  have hread := readWhile_eq (p := isOctal) (by decide) h
    (fun d hd => (isOctal_iff d).mpr (hdigits d hd))
    (fun d hd => by simpa [← Bool.not_eq_true, isOctal_iff] using hrest d hd) (lt_rounds h)
  have hvalue : (c :: l).foldl (fun v d => v * 8 + (d - chr '0').setWidth 32) 0 =
      BitVec.ofNat 32 (number 8 digit (c :: l)) :=
    foldl_eq_number fun v d hd => by rw [(octal_in_string d (hdigits d hd)).2.2.2]; rfl
  rw [tokenNextChar_cons h] at hread
  rw [tokenProcEscape, tokenNextChar_cons h]
  simp only [hlookup, if_neg hx, if_pos ho, bind_eq_bind]
  rw [rounds_skip, hread]
  simp only [bind_some, hvalue]
  exact ⟨_, rfl, (remaining_prev _).trans (remaining_skip h)⟩

/-- The loop does not stop after three digits. -/
theorem tokenProcEscape_takeWhile (h : self.remaining = digits ++ rest)
    (hdigits : ∀ c ∈ digits, digit c < 8) (hne : digits ≠ []) :
    ∃ result after, self.tokenProcEscape = some (result, after) ∧
      after.remaining = rest.dropWhile isOctal := by
  have hsplit : self.remaining = (digits ++ rest.takeWhile isOctal) ++ rest.dropWhile isOctal := by
    rw [h, append_assoc, takeWhile_append_dropWhile]
  have hall : ∀ c ∈ digits ++ rest.takeWhile isOctal, digit c < 8 := by
    intro c hc
    rcases mem_append.mp hc with hc | hc
    · exact hdigits c hc
    · exact (isOctal_iff c).mp (mem_takeWhile_imp hc)
  have hstop : ∀ c ∈ (rest.dropWhile isOctal).head?, 8 ≤ digit c := by
    intro c hc
    have hnot := head?_dropWhile_not isOctal rest
    rw [mem_def.mp hc] at hnot
    simpa [← Bool.not_eq_true, isOctal_iff] using hnot
  obtain ⟨after, heq, hafter⟩ := tokenProcEscape_octal hsplit hall (by simp [hne]) hstop
  exact ⟨_, after, heq, hafter⟩

theorem readsEscape_octal (hdigits : ∀ c ∈ digits, digit c < 8) (hne : digits ≠ [])
    (hlength : digits.length ≤ 3) (hvalue : number 8 digit digits < 256)
    (h : self.remaining = digits ++ rest) :
    ReadsEscape self (.octal digits hdigits hne hlength hvalue) rest ↔
      ∀ c ∈ rest.head?, 8 ≤ digit c := by
  constructor
  · rintro ⟨result, after, heq, -, hafter⟩ c hc
    -- a further octal digit is taken, and then less than `rest` is left
    by_contra hlt
    obtain ⟨l, rfl⟩ := head?_eq_some_iff.mp hc
    have hoctal : isOctal c = true := (isOctal_iff c).mpr (by omega)
    obtain ⟨result', after', heq', hafter'⟩ := tokenProcEscape_takeWhile h hdigits hne
    obtain ⟨-, rfl⟩ := mk.inj (some.inj (heq.symm.trans heq'))
    rw [hafter, dropWhile_cons_of_pos hoctal] at hafter'
    have hlen := congrArg length hafter'
    have hle := (dropWhile_sublist isOctal (l := l)).length_le
    rw [length_cons] at hlen
    omega
  · intro hrest
    obtain ⟨after, heq, hafter⟩ := tokenProcEscape_octal h hdigits hne hrest
    refine ⟨_, after, heq, ?_, hafter⟩
    simp [value]

theorem hex_in_string : stringEscapes.lookup (chr 'x') = none := by
  decide

theorem readsEscape_hex (hdigits : ∀ c ∈ digits, digit c < 16) (hne : digits ≠ [])
    (hvalue : number 16 digit digits < 256) (h : self.remaining = chr 'x' :: (digits ++ rest))
    (hrest : ∀ c ∈ rest.head?, 16 ≤ digit c) :
    ReadsEscape self (.hex digits hdigits hne hvalue) rest := by
  have hskip : (self.skip 1).remaining = digits ++ rest := remaining_tail h
  have hread := readWhile_eq (p := isXdigit) (by decide) hskip
    (fun d hd => (isXdigit_iff d).mpr (hdigits d hd))
    (fun d hd => by simpa [← Bool.not_eq_true, isXdigit_iff] using hrest d hd) (lt_rounds hskip)
  have hvalue : digits.foldl (fun v d => v * 16 + escapeDigit d) 0 =
      BitVec.ofNat 32 (number 16 digit digits) :=
    foldl_eq_number fun v d hd => by rw [escapeDigit_eq d (hdigits d hd)]; rfl
  rw [ReadsEscape, tokenProcEscape, tokenNextChar_cons h]
  simp only [hex_in_string, true_or, if_true, bind_eq_bind, hread, bind_some, hvalue]
  refine ⟨_, _, rfl, ?_, (remaining_prev _).trans (remaining_skip hskip)⟩
  simp [value]

theorem readsEscape_iff (hend : e.Ends rest) (h : self.remaining = e.text ++ rest) :
    ReadsEscape self e rest ↔ e.KeptInString rest := by
  cases e with
  | simple c v mem => exact readsEscape_simple mem h
  | octal digits hdigits hne hlength hvalue =>
    exact readsEscape_octal hdigits hne hlength hvalue h
  | hex digits hdigits hne hvalue =>
    exact iff_of_true (readsEscape_hex hdigits hne hvalue h hend) trivial

theorem moves_tokenProcEscape {result : Long} {after : Lexer}
    (h : self.tokenProcEscape = some (result, after)) : Moves self after := by
  have hnext := moves_next self
  rw [tokenProcEscape] at h
  generalize self.tokenNextChar = step at h hnext
  dsimp only at h hnext
  split at h
  · obtain ⟨-, rfl⟩ := mk.inj (some.inj h)
    exact hnext
  · split_ifs at h
    · obtain ⟨⟨digits, last, x⟩, hread, heq⟩ := bind_eq_some_iff.mp h
      obtain ⟨-, rfl⟩ := mk.inj (some.inj heq)
      exact ((hnext.trans (moves_next _)).trans (moves_readWhile hread)).trans (moves_prev x)
    · obtain ⟨⟨digits, last, x⟩, hread, heq⟩ := bind_eq_some_iff.mp h
      obtain ⟨-, rfl⟩ := mk.inj (some.inj heq)
      exact (hnext.trans (moves_readWhile hread)).trans (moves_prev x)
    · obtain ⟨-, rfl⟩ := mk.inj (some.inj h)
      exact hnext

end Escape

/-- What a string is written with: characters that stand for themselves, and escapes. -/
inductive StringItem
  | plain (c : Byte) (ne : c ∉ [chr '\\', chr '"'])
  | escape (e : Escape)

namespace StringItem

open Lexer

def text : StringItem → List Byte
  | plain c _ => [c]
  | escape e => chr '\\' :: e.text

def value : StringItem → Byte
  | plain c _ => c
  | escape e => e.value

/-- An escape is read as it is meant, with this behind it. -/
def KeptBefore (rest : List Byte) : StringItem → Prop
  | plain .. => True
  | escape e => e.Ends rest ∧ e.KeptInString rest

def Kept : List StringItem → List Byte → Prop
  | [], _ => True
  | item :: items, rest => item.KeptBefore (items.flatMap text ++ rest) ∧ Kept items rest

variable {self : Lexer} {item : StringItem} {items : List StringItem} {blanks rest : List Byte}
  {i n : ℕ}

/-- A round of `token_proc_string`. -/
theorem tokenProcString_item (h : self.remaining = item.text ++ rest)
    (hkept : item.KeptBefore rest) :
    ∃ x, tokenProcString (n + 1) i self = tokenProcString n (i + 1) (x.setString i item.value) ∧
      x.remaining = rest ∧ Moves self x := by
  cases item with
  | plain c hc =>
    have hskip := remaining_tail h
    obtain ⟨hbackslash, hquote⟩ : c ≠ chr '\\' ∧ c ≠ chr '"' := by simpa using hc
    refine ⟨self.skip 1, ?_, hskip, rfl⟩
    rw [tokenProcString, tokenNextChar_cons h]
    simp only [eof_skip h, Bool.false_eq_true, if_false, if_neg hbackslash, if_neg hquote]
    rfl
  | escape e =>
    have hskip := remaining_tail h
    obtain ⟨result, x, heq, hresult, hx⟩ := (Escape.readsEscape_iff hkept.1 hskip).mpr hkept.2
    refine ⟨x, ?_, hx, (moves_skip self 1).trans (Escape.moves_tokenProcEscape heq)⟩
    rw [tokenProcString, tokenNextChar_cons h]
    simp only [eof_skip h, Bool.false_eq_true, if_false, if_true,
      heq, bind_eq_bind, bind_some, hresult]
    rfl

theorem tokenProcString_end (h : self.remaining = chr '"' :: rest) :
    tokenProcString (n + 1) i self = some ((self.skip 1).setString i 0) := by
  rw [tokenProcString, tokenNextChar_cons h]
  simp only [eof_skip h, Bool.false_eq_true, if_false]
  rfl

/-- `token_proc_string` with room for the items and for the zero behind them. The induction is on
the items; `i` characters are in the buffer already. -/
theorem tokenProcString_items (h : self.remaining = items.flatMap text ++ chr '"' :: rest)
    (hkept : Kept items (chr '"' :: rest)) (hn : items.length < n) :
    ∃ after, tokenProcString n i self = some after ∧ after.remaining = rest ∧
      after.errors = self.errors ∧ (∀ j < i, after.string j = self.string j) ∧
      ∀ j ≤ items.length, after.string (i + j) = (items.map value).getD j 0 := by
  induction items generalizing self i n with
  | nil =>
    obtain ⟨n, rfl⟩ : ∃ k, n = k + 1 := ⟨n - 1, by omega⟩
    refine ⟨_, tokenProcString_end h, remaining_tail h, rfl, ?_, ?_⟩
    · intro j hj
      exact setString_of_ne hj.ne
    · intro j hj
      obtain rfl : j = 0 := by simpa using hj
      exact setString_self ..
  | cons item items ih =>
    obtain ⟨n, rfl⟩ : ∃ k, n = k + 1 := ⟨n - 1, by omega⟩
    rw [flatMap_cons, append_assoc] at h
    obtain ⟨x, hstep, hx, hmoves⟩ := tokenProcString_item h hkept.1
    obtain ⟨after, heq, hremaining, herrors, hbelow, hstored⟩ :=
      ih (show (x.setString i item.value).remaining = _ from hx) hkept.2 (by simpa using hn)
    refine ⟨after, hstep.trans heq, hremaining, ?_, ?_, ?_⟩
    · rw [herrors, hmoves]
      rfl
    · intro j hj
      rw [hbelow j (by omega), setString_of_ne hj.ne, hmoves]
    · intro j hj
      cases j with
      | zero =>
        rw [Nat.add_zero, hbelow i (by omega), setString_self]
        rfl
      | succ j =>
        rw [show i + (j + 1) = i + 1 + j by omega, hstored j (by simpa using hj)]
        rfl

end StringItem

namespace Escape

open Lexer

variable {self : Lexer} {e : Escape} {blanks digits rest : List Byte} {c v : Byte}

/-! ## Character constants -/

theorem octal_in_char : ∀ c : Byte, digit c < 8 → charEscapes.lookup c = none := by
  decide

/-- `token_run` takes the constant and gives its character. -/
def ReadsChar (self : Lexer) (e : Escape) (rest : List Byte) : Prop :=
  ∃ after, self.tokenRun = some after ∧ after.currentToken = .valueChar ∧
    after.value.setWidth 8 = e.value ∧ after.remaining = rest ∧ after.errors = self.errors

/-- The escapes that `token_proc_char` reads as they are meant. -/
def KeptInChar : Escape → Prop
  | simple c .. => c ∉ [chr 'f', chr 'a', chr '?', chr '"']
  | octal digits .. => number 8 digit digits = 0
  | hex .. => False

instance : (e : Escape) → Decidable e.KeptInChar
  | simple c .. => inferInstanceAs (Decidable (c ∉ [chr 'f', chr 'a', chr '?', chr '"']))
  | octal digits .. => inferInstanceAs (Decidable (number 8 digit digits = 0))
  | hex .. => inferInstanceAs (Decidable False)

theorem tokenOperator_char (h : self.remaining = chr '\'' :: rest) :
    self.tokenOperator = (self.skip 1).tokenProcChar.bind fun (ch, self) => some
      { self with value := self.value.extractLsb' 8 24 ++ ch, currentToken := .valueChar } := by
  rw [tokenOperator, tokenNextChar_cons h]
  rfl

theorem tokenProcChar_escape (h : self.remaining = chr '\\' :: rest) :
    self.tokenProcChar = (self.skip 1).tokenCharEscape.bind fun (ch, self) =>
      if self.tokenNextChar.1 ≠ chr '\'' then
        some (ch, self.tokenNextChar.2.tokenPrevChar.errorSet .expectChar)
      else some (ch, self.tokenNextChar.2) := by
  rw [tokenProcChar, tokenNextChar_cons h]
  rfl

section Constant

variable {x : Lexer} {ch : Byte} {l : List Byte}

/-- A constant whose quote is found. -/
theorem tokenOperator_closed (h : self.remaining = chr '\'' :: chr '\\' :: l)
    (hescape : (self.skip 2).tokenCharEscape = some (ch, x))
    (hx : x.remaining = chr '\'' :: rest) (herrors : x.errors = self.errors) :
    ∃ after, self.tokenOperator = some after ∧ after.currentToken = .valueChar ∧
      after.value.setWidth 8 = ch ∧ after.remaining = rest ∧ after.errors = self.errors := by
  rw [tokenOperator_char h, tokenProcChar_escape (remaining_tail h), skip_skip, hescape]
  simp only [bind_some, tokenNextChar_cons hx, ne_eq, not_true_eq_false, if_false]
  exact ⟨_, rfl, rfl, BitVec.setWidth_append_eq_right, remaining_tail hx, herrors⟩

/-- A constant whose quote is not found: the error is set. -/
theorem tokenOperator_open (h : self.remaining = chr '\'' :: chr '\\' :: l)
    (hescape : (self.skip 2).tokenCharEscape = some (ch, x)) (hx : x.remaining = c :: rest)
    (hc : c ≠ chr '\'') :
    ∃ after, self.tokenOperator = some after ∧ after.errors = x.errors ++ [.expectChar] := by
  rw [tokenOperator_char h, tokenProcChar_escape (remaining_tail h), skip_skip, hescape]
  simp only [bind_some, tokenNextChar_cons hx, ne_eq, hc, not_false_eq_true, if_true,
    tokenPrevChar_skip hx]
  exact ⟨_, rfl, rfl⟩

end Constant

/-- Without a case, and without digits, nothing is taken. -/
theorem tokenCharEscape_other (h : self.remaining = c :: rest)
    (hlookup : charEscapes.lookup c = none) (hc : isDigit c = false) :
    self.tokenCharEscape = some (0, self) := by
  have hread := readWhile_eq (p := isDigit) (l := []) (by decide) h (by simp) (by simpa using hc)
    (lt_rounds h)
  rw [tokenNextChar_cons h] at hread
  rw [tokenCharEscape, tokenNextChar_cons h]
  simp only [hlookup]
  rw [rounds_skip, hread]
  exact congrArg (fun x => some (0, x)) (tokenPrevChar_cons h)

theorem tokenCharEscape_octal (h : self.remaining = digits ++ chr '\'' :: rest)
    (hdigits : ∀ c ∈ digits, digit c < 8) (hne : digits ≠ []) (hlength : digits.length ≤ 3) :
    self.tokenCharEscape = some (0, self.skip digits.length) := by
  obtain ⟨c, l, rfl⟩ := exists_cons_of_ne_nil hne
  have hlookup : charEscapes.lookup c = none := octal_in_char c (hdigits c (by simp))
  have hread := readWhile_eq (p := isDigit) (by decide) h
    (fun d hd => (isDigit_iff d).mpr ((hdigits d hd).trans (by decide))) (by simp; decide)
    (lt_rounds h)
  rw [tokenNextChar_cons h] at hread
  rw [tokenCharEscape, tokenNextChar_cons h]
  simp only [hlookup]
  rw [rounds_skip, hread]
  simp only [bind_eq_bind, bind_some, show (c :: l).length < 4 by omega, if_true,
    tokenPrevChar_cons (remaining_skip h)]

theorem simple_in_char : ∀ e ∈ simpleEscapes,
    if e.1 ∈ [chr 'f', chr 'a', chr '?', chr '"'] then
      charEscapes.lookup e.1 = none ∧ isDigit e.1 = false ∧ e.1 ≠ chr '\''
    else charEscapes.lookup e.1 = some e.2 := by
  exact forall_iff_forall_mem.mp (by decide)

variable (h : self.remaining = blanks ++ chr '\'' :: chr '\\' :: (e.text ++ chr '\'' :: rest))
  (hblanks : ∀ c ∈ blanks, isBlank c)
include h hblanks

/-- `token_run` takes a constant whose quote is found, with this character. -/
theorem readsChar_closed {ch : Byte}
    (hescape : ∀ here : Lexer, here.remaining = e.text ++ chr '\'' :: rest →
      ∃ x, here.tokenCharEscape = some (ch, x) ∧ x.remaining = chr '\'' :: rest ∧
        x.errors = here.errors) :
    ReadsChar self e rest ↔ ch = e.value := by
  obtain ⟨start, hstart, herrors, hrun⟩ := tokenRun_eq h hblanks (by decide) (.inr (by decide))
  obtain ⟨x, hx, hrest, hxerrors⟩ := hescape (start.skip 2) (remaining_skip (l := [_, _]) hstart)
  obtain ⟨after, hafter, htoken, hvalue, hremaining, hsame⟩ :=
    tokenOperator_closed hstart hx hrest hxerrors
  rw [ReadsChar, hrun, hafter]
  constructor
  · rintro ⟨after', heq, -, hvalue', -⟩
    obtain rfl := some.inj heq
    exact hvalue.symm.trans hvalue'
  · rintro rfl
    exact ⟨after, rfl, htoken, hvalue, hremaining, hsame.trans herrors⟩

/-- A constant whose escape is not taken. -/
theorem not_readsChar_open {l : List Byte} (htext : e.text = c :: l)
    (hlookup : charEscapes.lookup c = none) (hdigit : isDigit c = false) (hc : c ≠ chr '\'') :
    ¬ReadsChar self e rest := by
  obtain ⟨start, hstart, herrors, hrun⟩ := tokenRun_eq h hblanks (by decide) (.inr (by decide))
  have hskip : (start.skip 2).remaining = c :: (l ++ chr '\'' :: rest) :=
    (remaining_skip (l := [_, _]) hstart).trans (by rw [htext]; rfl)
  obtain ⟨after, hafter, hset⟩ :=
    tokenOperator_open hstart (tokenCharEscape_other hskip hlookup hdigit) hskip hc
  rintro ⟨after', heq, -, -, -, hsame⟩
  rw [hrun, hafter] at heq
  obtain rfl := some.inj heq
  have hlen : self.errors = start.errors ++ [.expectChar] := hsame.symm.trans hset
  rw [herrors] at hlen
  simp at hlen

theorem readsChar_iff : ReadsChar self e rest ↔ e.KeptInChar := by
  cases e with
  | simple c v mem =>
    have hcase := simple_in_char (c, v) mem
    split_ifs at hcase with hc
    · obtain ⟨hlookup, hdigit, hquote⟩ := hcase
      exact iff_of_false (not_readsChar_open h hblanks rfl hlookup hdigit hquote) (not_not.mpr hc)
    · refine iff_of_true ((readsChar_closed h hblanks ?_).mpr rfl) hc
      intro here hhere
      refine ⟨here.skip 1, ?_, remaining_tail hhere, rfl⟩
      rw [tokenCharEscape, tokenNextChar_cons hhere]
      simp only [hcase]
      rfl
  | octal digits hdigits hne hlength hvalue =>
    have hzero : (0 : Byte) = BitVec.ofNat 8 (number 8 digit digits) ↔
        number 8 digit digits = 0 := by
      rw [← BitVec.toNat_inj, BitVec.toNat_ofNat, Nat.mod_eq_of_lt hvalue]
      exact eq_comm
    refine (readsChar_closed h hblanks fun here hhere => ?_).trans hzero
    exact ⟨_, tokenCharEscape_octal hhere hdigits hne hlength, remaining_skip hhere, rfl⟩
  | hex digits hdigits hne hvalue =>
    exact iff_of_false
      (not_readsChar_open h hblanks rfl (by decide) (by decide) (by decide)) not_false

end Escape

open Lexer Escape

/-- Integer literals, the escapes of strings and the escapes of character constants, with `rest`
behind them. -/
theorem literals_iff (lit : IntLiteral) (e : Escape) (self : Lexer) {blanks rest : List Byte}
    (hblanks : ∀ c ∈ blanks, isBlank c) :
    (lit.value < 2 ^ 32 → Ends rest → self.remaining = blanks ++ (lit.text ++ rest) →
      (ReadsNumber self.tokenRun (BitVec.ofNat 32 lit.value) rest ↔ lit.Kept)) ∧
    (e.Ends rest → self.remaining = e.text ++ rest →
      (ReadsEscape self e rest ↔ e.KeptInString rest)) ∧
    (self.remaining = blanks ++ chr '\'' :: chr '\\' :: (e.text ++ chr '\'' :: rest) →
      (ReadsChar self e rest ↔ e.KeptInChar)) :=
  ⟨fun hvalue hend h => IntLiteral.tokenRun_iff hvalue hend hblanks h,
    fun hend h => readsEscape_iff hend h,
    fun h => readsChar_iff h hblanks⟩

def IntLiteral.sample : IntLiteral :=
  ⟨.hex, [chr '0', chr 'x'], [chr '1', chr 'F'], [], by decide, by decide, by decide, by decide,
    by decide⟩

def Escape.sample : Escape := .hex [chr '4', chr '1'] (by decide) (by decide) (by decide)

/-- `0x1F;`, `\x41"` and `'\n';` are read. -/
theorem literals_iff_sample :
    ReadsNumber (finshTokenInit ("0x1F;".toList.map chr)).tokenRun 31 [chr ';'] ∧
    ReadsEscape (finshTokenInit ("x41\"".toList.map chr)) sample [chr '"'] ∧
    ∃ e : Escape, e.value = chr '\n' ∧
      ReadsChar (finshTokenInit ("'\\n';".toList.map chr)) e [chr ';'] := by
  have hblanks : ∀ c ∈ ([] : List Byte), isBlank c := by simp
  refine ⟨?_, ?_, .simple (chr 'n') 10 (by decide), rfl, ?_⟩
  · exact ((literals_iff IntLiteral.sample Escape.sample _ hblanks).1 (by decide) (by decide)
      (by decide)).mpr ⟨by decide, by simp [IntLiteral.sample]⟩
  · exact ((literals_iff IntLiteral.sample Escape.sample _ hblanks).2.1 (by decide) (by decide)).mpr
      trivial
  · exact ((literals_iff IntLiteral.sample _ _ hblanks).2.2 (by decide)).mpr (by decide)

/-- `0x10L` is read as 284 instead of 16, `'\113'` as the character 0 instead of `K`, and in a
string `\1234` as one character instead of `S4`. -/
theorem suffix_taken_for_digit :
    (∃ lit : IntLiteral, lit.text = "0x10L".toList.map chr ∧ lit.value = 16 ∧
      (finshTokenInit ("0x10L;".toList.map chr)).tokenRun.map (·.value) = some 284) ∧
    (∃ e : Escape, e.text = "113".toList.map chr ∧ e.value = chr 'K' ∧
      (finshTokenInit ("'\\113';".toList.map chr)).tokenRun.map (·.value) = some 0) ∧
    ∃ e : Escape, e.text = "123".toList.map chr ∧ e.value = chr 'S' ∧
      (finshTokenInit ("1234\"".toList.map chr)).tokenProcEscape.map
        (fun (result, after) => (result, after.remaining)) = some (0o1234, [chr '"']) := by
  refine ⟨⟨⟨.hex, [chr '0', chr 'x'], [chr '1', chr '0'], [chr 'L'], by decide, by decide,
      by decide, by decide, by decide⟩, by decide, by decide, by decide⟩,
    ⟨.octal ("113".toList.map chr) (by decide) (by decide) (by decide) (by decide), rfl, by decide,
      by decide⟩,
    ⟨.octal ("123".toList.map chr) (by decide) (by decide) (by decide) (by decide), rfl, by decide,
      by decide⟩⟩

end RtThread.Finsh
