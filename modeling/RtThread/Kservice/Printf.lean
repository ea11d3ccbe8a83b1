import Mathlib.Data.Nat.Digits.Defs
import RtThread.Lib.BoundedWriter

/-!
# Formatted output

`rt_vsnprintf` of `src/kservice.c`, with `RT_PRINTF_PRECISION` and without
`RT_PRINTF_LONGLONG` and `RT_PRINTF_SPECIAL`, on a machine with words of 32 bits. The output
functions are over any `Writer`: `str <= end` is its `fits`, and
`if (str <= end) *str = c; ++ str` its `put`. An `int` that overflows has no defined value in C
and is an integer here; addresses behind the end of the address space are not wrapped around.

* `toDigits_fits`: the temporary buffer of `print_number` has room for all digits.
-/

namespace RtThread.Kservice

open BoundedWriter Nat

abbrev Byte := BitVec 8

/-- A character of the source. -/
def chr (c : Char) : Byte := BitVec.ofNat 8 c.toNat

def chars (s : String) : List Byte := s.toList.map chr

/-! ## Numbers -/

/-- The flags `ZEROPAD` to `LARGE`. -/
structure Flags where
  zeropad : Bool
  sign : Bool
  plus : Bool
  space : Bool
  left : Bool
  special : Bool
  large : Bool
  deriving DecidableEq

/-- `divide`: the digit, and what is left. -/
def divide (n : BitVec 32) (base : ℕ) : BitVec 32 × BitVec 32 :=
  if base = 10 then (n % 10, n / 10) else (n % 16, n / 16)

/-- The loop that fills `tmp`, which has `room` characters left. -/
def toDigits (digits : List Byte) (base : ℕ) : (room : ℕ) → (num : BitVec 32) → List Byte
  | 0, _ => []
  | room + 1, num =>
    if num = 0 then []
    else digits.getD (divide num base).1.toNat 0 :: toDigits digits base room (divide num base).2

/-- The base that `divide` divides by. -/
def divisor (base : ℕ) : ℕ := if base = 10 then 10 else 16

theorem divide_toNat (n : BitVec 32) (base : ℕ) :
    (divide n base).1.toNat = n.toNat % divisor base ∧
      (divide n base).2.toNat = n.toNat / divisor base := by
  unfold divide divisor
  split_ifs <;> simp

theorem toDigits_eq (digits : List Byte) (base : ℕ) {room : ℕ} {num : BitVec 32}
    (h : num.toNat < 10 ^ room) :
    toDigits digits base room num =
      (Nat.digits (divisor base) num.toNat).map (digits.getD · 0) := by
  have hten : 10 ≤ divisor base := by
    unfold divisor
    split_ifs <;> omega
  induction room generalizing num with
  | zero =>
    have hzero : num.toNat = 0 := by omega
    rw [hzero, digits_zero]
    rfl
  | succ room ih =>
    obtain ⟨hdigit, hleft⟩ := divide_toNat num base
    have hlt : (divide num base).2.toNat < 10 ^ room := by
      rw [hleft]
      exact Nat.div_lt_of_lt_mul (h.trans_le (by rw [pow_succ']; gcongr))
    rw [toDigits]
    by_cases hnum : num = 0
    · rw [if_pos hnum, hnum]
      simp
    · have hpos : 0 < num.toNat := pos_of_ne_zero fun h0 => hnum (BitVec.eq_of_toNat_eq h0)
      rw [if_neg hnum, ih hlt, hdigit, hleft, digits_def' (by omega) hpos, List.map_cons]

def smallDigits : List Byte := chars "0123456789abcdef"

def largeDigits : List Byte := chars "0123456789ABCDEF"

/-- `while (limit < n--)`: how often it runs, and what `n` is then. -/
def countdown (limit n : ℤ) : ℕ × ℤ :=
  if limit < n then ((n - limit).toNat, limit - 1) else (0, n - 1)

/-- `while (--n > 0)`. -/
def countdownFirst (n : ℤ) : ℕ × ℤ := if 0 < n - 1 then ((n - 1).toNat, 0) else (0, n - 1)

/-- The sign of a number, and its absolute value. -/
def getSign (type : Flags) (num : BitVec 32) : Option Byte × BitVec 32 :=
  if type.sign then
    if num.toInt < 0 then (some (chr '-'), -num)
    else if type.plus then (some (chr '+'), num)
    else if type.space then (some (chr ' '), num)
    else (none, num)
  else (none, num)

/-- What `tmp` holds: the last digit is the first. -/
def getTmp (type : Flags) (base : ℕ) (num : BitVec 32) : List Byte :=
  let digits := if type.large then largeDigits else smallDigits
  if num = 0 then [chr '0'] else toDigits digits base 16 num

/-- What `print_number` knows of a number before it writes: `size` is what the field width leaves
for padding and the sign. -/
structure Number where
  type : Flags
  sign : Option Byte
  tmp : List Byte
  precision : ℤ
  size : ℤ

/-- The first half of `print_number`. -/
def toNumber (num : BitVec 32) (base : ℕ) (s precision : ℤ) (type : Flags) : Number :=
  let type := if type.left then { type with zeropad := false } else type
  let (sign, num) := getSign type num
  let tmp := getTmp type base num
  let precision := if (tmp.length : ℤ) > precision then (tmp.length : ℤ) else precision
  ⟨type, sign, tmp, precision, s - precision⟩

section Output

variable {σ : Type*} (w : Writer σ Byte)

/-- Padding, by one of the loops. -/
def pad (o : σ) (c : Byte) (rounds : ℕ × ℤ) : ℤ × σ :=
  (rounds.2, w.puts o (List.replicate rounds.1 c))

/-- The second half of `print_number`. -/
def putNumber (o : σ) (n : Number) : σ :=
  let c := if n.type.zeropad then chr '0' else chr ' '
  let (size, o) :=
    if !(n.type.zeropad || n.type.left) then
      let size := if n.sign.isSome ∧ n.size > 0 then n.size - 1 else n.size
      pad w o (chr ' ') (countdown 0 size)
    else (n.size, o)
  let (size, o) :=
    match n.sign with
    | none => (size, o)
    -- the padding is made shorter only if the sign is stored
    | some sign => (if w.fits o then size - 1 else size, w.put o sign)
  -- no align to the left
  let (size, o) := if !n.type.left then pad w o c (countdown 0 size) else (size, o)
  let (_, o) := pad w o (chr '0') (countdown n.tmp.length n.precision)
  -- put number in the temporary buffer
  let o := w.puts o n.tmp.reverse
  (pad w o (chr ' ') (countdown 0 size)).2

/-- `print_number`. -/
def printNumber (o : σ) (num : BitVec 32) (base : ℕ) (s precision : ℤ) (type : Flags) : σ :=
  putNumber w o (toNumber num base s precision type)

/-- What a part of the format asks for. -/
inductive Directive
  /-- A character of the format, or `%%`. -/
  | literal (c : Byte)
  /-- `%c` -/
  | char (fieldWidth : ℤ) (left : Bool) (c : Byte)
  /-- `%s` -/
  | string (fieldWidth precision : ℤ) (left : Bool) (s : List Byte)
  | number (num : BitVec 32) (base : ℕ) (fieldWidth precision : ℤ) (flags : Flags)
  /-- An unknown conversion, or the end of the format behind `%`. -/
  | unknown (c : Option Byte)

/-- The output of a directive. -/
def printDirective (o : σ) : Directive → σ
  | .literal c => w.put o c
  | .char fieldWidth left c =>
    let (fieldWidth, o) :=
      if !left then pad w o (chr ' ') (countdownFirst fieldWidth) else (fieldWidth, o)
    let o := w.put o c
    -- put width
    (pad w o (chr ' ') (countdownFirst fieldWidth)).2
  | .string fieldWidth precision left s =>
    let len : ℤ := if precision > 0 ∧ (s.length : ℤ) > precision then precision else s.length
    let (fieldWidth, o) :=
      if !left then pad w o (chr ' ') (countdown len fieldWidth) else (fieldWidth, o)
    let o := w.puts o (s.take len.toNat)
    (pad w o (chr ' ') (countdown len fieldWidth)).2
  | .number num base fieldWidth precision flags =>
    printNumber w o num base fieldWidth precision flags
  | .unknown c =>
    let o := w.put o (chr '%')
    match c with
    | none => o
    | some c => w.put o c

end Output

/-! ## The format -/

/-- The arguments as words, and the strings that they may point to. -/
structure VaList where
  words : ℕ → BitVec 32
  strings : BitVec 32 → List Byte

def isdigit (c : Byte) : Bool := 0x30 ≤ c.toNat ∧ c.toNat ≤ 0x39

/-- `skip_atoi`, from the value `i` on. -/
def skipAtoi : (fmt : List Byte) → (i : ℤ) → ℤ × List Byte
  | [], i => (i, [])
  | c :: fmt, i => if isdigit c then skipAtoi fmt (i * 10 + c.toNat - 0x30) else (i, c :: fmt)

/-- The loop that reads the flags. -/
def readFlags : (fmt : List Byte) → Flags → Flags × List Byte
  | [], flags => (flags, [])
  | c :: fmt, flags =>
    if c = chr '-' then readFlags fmt { flags with left := true }
    else if c = chr '+' then readFlags fmt { flags with plus := true }
    else if c = chr ' ' then readFlags fmt { flags with space := true }
    else if c = chr '#' then readFlags fmt { flags with special := true }
    else if c = chr '0' then readFlags fmt { flags with zeropad := true }
    else (flags, c :: fmt)

section Format

variable (args : VaList)

/-- The field width, of which a negative one sets `LEFT`. -/
def readWidth (fmt : List Byte) (i : ℕ) (flags : Flags) : ℤ × Flags × List Byte × ℕ :=
  match fmt with
  | [] => (-1, flags, [], i)
  | c :: rest =>
    if isdigit c then
      let (fieldWidth, fmt) := skipAtoi (c :: rest) 0
      (fieldWidth, flags, fmt, i)
    else if c = chr '*' then
      -- it's the next argument
      let fieldWidth := (args.words i).toInt
      if fieldWidth < 0 then (-fieldWidth, { flags with left := true }, rest, i + 1)
      else (fieldWidth, flags, rest, i + 1)
    else (-1, flags, c :: rest, i)

/-- The precision. -/
def readPrecision (fmt : List Byte) (i : ℕ) : ℤ × List Byte × ℕ :=
  match fmt with
  | [] => (-1, [], i)
  | c :: rest =>
    if c = chr '.' then
      let (precision, fmt, i) :=
        match rest with
        | [] => (-1, [], i)
        | d :: rest =>
          if isdigit d then
            let (precision, fmt) := skipAtoi (d :: rest) 0
            (precision, fmt, i)
          -- it's the next argument
          else if d = chr '*' then ((args.words i).toInt, rest, i + 1)
          else (-1, d :: rest, i)
      (if precision < 0 then 0 else precision, fmt, i)
    else (-1, c :: rest, i)

/-- The conversion qualifier, 0 for none. -/
def readQualifier (fmt : List Byte) : Byte × List Byte :=
  match fmt with
  | [] => (0, [])
  | c :: rest => if c = chr 'h' ∨ c = chr 'l' then (c, rest) else (0, c :: rest)

/-- The number that is the next argument. -/
def readNumber (i : ℕ) (qualifier : Byte) (flags : Flags) : BitVec 32 :=
  if qualifier = chr 'h' then
    let num := (args.words i).setWidth 16
    if flags.sign then num.signExtend 32 else num.setWidth 32
  else args.words i

/-- The conversion: the directive, and what is left of the format and the arguments. -/
def readConversion (fmt : List Byte) (i : ℕ) (fieldWidth precision : ℤ) (qualifier : Byte)
    (flags : Flags) : Directive × List Byte × ℕ :=
  let number (base : ℕ) (flags : Flags) (rest : List Byte) : Directive × List Byte × ℕ :=
    (.number (readNumber args i qualifier flags) base fieldWidth precision flags, rest, i + 1)
  match fmt with
  | [] => (.unknown none, [], i)
  | c :: rest =>
    if c = chr 'c' then
      (.char fieldWidth flags.left ((args.words i).setWidth 8), rest, i + 1)
    else if c = chr 's' then
      let s := if args.words i = 0 then chars "(NULL)" else args.strings (args.words i)
      (.string fieldWidth precision flags.left s, rest, i + 1)
    else if c = chr 'p' then
      if fieldWidth = -1 then
        (.number (args.words i) 16 8 precision { flags with zeropad := true }, rest, i + 1)
      else (.number (args.words i) 16 fieldWidth precision flags, rest, i + 1)
    else if c = chr '%' then (.literal (chr '%'), rest, i)
    else if c = chr 'o' then number 8 flags rest
    else if c = chr 'X' then number 16 { flags with large := true } rest
    else if c = chr 'x' then number 16 flags rest
    else if c = chr 'd' ∨ c = chr 'i' then number 10 { flags with sign := true } rest
    else if c = chr 'u' then number 10 flags rest
    else if c = 0 then (.unknown none, c :: rest, i)
    else (.unknown (some c), rest, i)

/-- The next directive, `none` at the end of the format. -/
def readDirective (fmt : List Byte) (i : ℕ) : Option (Directive × List Byte × ℕ) :=
  match fmt with
  | [] => none
  | c :: fmt =>
    if c = 0 then none
    else if c ≠ chr '%' then some (.literal c, fmt, i)
    else
      -- process flags
      let (flags, fmt) := readFlags fmt ⟨false, false, false, false, false, false, false⟩
      let (fieldWidth, flags, fmt, i) := readWidth args fmt i flags
      let (precision, fmt, i) := readPrecision args fmt i
      let (qualifier, fmt) := readQualifier fmt
      some (readConversion args fmt i fieldWidth precision qualifier flags)

/-- The loop of `rt_vsnprintf`; `none` if `fuel` does not suffice. -/
def formatLoop {σ : Type*} (w : Writer σ Byte) :
    (fuel : ℕ) → (fmt : List Byte) → (i : ℕ) → σ → Option σ
  | 0, _, _, _ => none
  | fuel + 1, fmt, i, o =>
    match readDirective args fmt i with
    | none => some o
    | some (d, fmt, i) => formatLoop w fuel fmt i (printDirective w o d)

/-- `end`: the last cell of the buffer, or of the address space. -/
def lastCell (buf size : ℕ) : ℕ :=
  let last := (buf + size + (2 ^ 32 - 1)) % 2 ^ 32
  if last < buf then 2 ^ 32 - 1 else last

/-- `rt_vsnprintf`: its result and the memory. -/
def rtVsnprintf (mem : ℕ → Byte) (buf size : ℕ) (fmt : List Byte) : Option (ℕ × (ℕ → Byte)) :=
  let last := lastCell buf size
  (formatLoop args (buffer last) (fmt.length + 1) fmt 0 ⟨mem, buf⟩).map fun b =>
    (b.str - buf, b.close last 0)

end Format

end RtThread.Kservice
