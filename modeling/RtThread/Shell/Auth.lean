import RtThread.Kservice.Strings

/-!
# The password of the shell

`finsh_set_password` and `finsh_wait_auth` (`components/finsh/shell.c`, lines 187–262), for any
`FINSH_PASSWORD_MIN` and `FINSH_PASSWORD_MAX`. What the device gives is a list of characters; a
wait for more of them is not seen. A character that is written outside of the buffer ends the
model with `none`.

The backspace key clears the character at `cur_pos` before it moves `cur_pos` back, so that the
character it deletes stays in the buffer, and the one it clears may be the one behind the buffer.
`auth_exact_iff` says for which keys this makes a difference.
-/

namespace RtThread.Shell

open Cells Kservice List Function Option Prod

/-- `FINSH_PASSWORD_MIN` and `FINSH_PASSWORD_MAX`. -/
structure PasswordSize where
  min : ℕ
  max : ℕ
  pos : 0 < max

variable (size : PasswordSize)

/-- `finsh_set_password`: `shell->password` afterwards, or `none` for `-RT_ERROR`. -/
def finshSetPassword (stored : CMem) (password : CString) : Option CMem :=
  let pwLen := password.chars.length
  if pwLen < size.min ∨ pwLen > size.max then none
  else some (rtStrncpy stored 0 password.get size.max)

/-- `password` and `cur_pos` of `finsh_wait_auth`. -/
structure AuthInput where
  password : CMem
  curPos : ℕ

namespace AuthInput

def backspace : CChar := 0x08

def Printable (ch : CChar) : Prop := 0x20 ≤ ch ∧ ch ≤ 0x7e
  deriving Decidable

/-- `'\r'` or `'\n'`. -/
def IsEnter (ch : CChar) : Prop := ch = 0x0d ∨ ch = 0x0a
  deriving Decidable

/-- `password[i] = ch`. -/
def put (a : AuthInput) (i : ℕ) (ch : CChar) : Option CMem :=
  if i < size.max then some (update a.password i ch) else none

/-- The loop that reads characters until the Enter key (lines 221–250); `true` with that key. -/
def readLine (a : AuthInput) : List CChar → Option (Bool × AuthInput)
  | [] => some (false, a)
  | ch :: chars =>
    if Printable ch ∧ a.curPos < size.max then
      (a.put size a.curPos ch).bind fun password => readLine ⟨password, a.curPos + 1⟩ chars
    else if ch = backspace ∧ a.curPos > 0 then
      (a.put size a.curPos 0).bind fun password => readLine ⟨password, a.curPos - 1⟩ chars
    else if IsEnter ch then some (true, a)
    else readLine a chars

/-- The start of the line after an attempt that has failed. -/
def retry (a : AuthInput) : AuthInput := ⟨zeroFill a.password 0 size.max, 0⟩

/-- The local variables at the start. -/
def init : AuthInput := ⟨fun _ => 0, 0⟩

end AuthInput

open AuthInput

/-- `finsh_wait_auth`: `true` if it returns. For each attempt there are the characters that are
received from its start on; those behind the Enter key are dropped if the attempt fails ("read all
last dirty data"). -/
def finshWaitAuth (stored : CMem) (a : AuthInput) : List (List CChar) → Option (Bool × AuthInput)
  | [] => some (false, a)
  | received :: attempts =>
    (a.readLine size received).bind fun
      | (false, a) => some (false, a)
      | (true, a) =>
        if rtStrncmp stored a.password size.max = 0 then some (true, a)
        else finshWaitAuth stored (a.retry size) attempts

/-! ## The line that is typed -/

/-- What is typed: the text, and the character that the last key deleted, if this key was a
backspace. -/
structure Typed where
  text : List CChar
  deleted : Option CChar

namespace Typed

def empty : Typed := ⟨[], none⟩

/-- A key. Printable characters are added up to the maximum; a backspace deletes the last character.
Other keys do nothing. -/
def key (l : Typed) (ch : CChar) : Typed :=
  if Printable ch then
    if l.text.length < size.max then ⟨l.text ++ [ch], none⟩ else l
  else if ch = backspace ∧ l.text ≠ [] then ⟨l.text.dropLast, l.text.getLast?⟩
  else l

def keys (chars : List CChar) : Typed := chars.foldl (key size) empty

end Typed

/-- The buffer holds the text, and behind it the character that the last key deleted. -/
structure AuthInput.Repr (a : AuthInput) (l : Typed) : Prop where
  curPos : a.curPos = l.text.length
  padded : Padded a.password size.max (l.text ++ l.deleted.toList)
  room : (l.text ++ l.deleted.toList).length ≤ size.max
  nonzero : 0 ∉ l.text ++ l.deleted.toList

variable {size} {a : AuthInput} {l : Typed} {chars rest : List CChar} {ch : CChar} {stored : CMem}

namespace AuthInput

theorem repr_init : init.Repr size .empty where
  curPos := rfl
  padded i _ := by simp [init, Typed.empty]
  room := by simp [Typed.empty]
  nonzero := by simp [Typed.empty]

theorem repr_retry (a : AuthInput) : (a.retry size).Repr size .empty where
  curPos := rfl
  padded := padded_zeroFill a.password size.max
  room := by simp [Typed.empty]
  nonzero := by simp [Typed.empty]

/-- A printable character. -/
theorem Repr.type (h : a.Repr size l) (hch : Printable ch) (hroom : l.text.length < size.max) :
    (⟨update a.password a.curPos ch, a.curPos + 1⟩ : AuthInput).Repr size
      ⟨l.text ++ [ch], none⟩ where
  curPos := by simp [h.curPos]
  padded := by
    rw [toList_none, append_nil, h.curPos]
    exact h.padded.put length_toList_le ch
  room := by simpa using hroom
  nonzero := by
    have hne : ch ≠ 0 := by
      rintro rfl
      exact absurd hch (by decide)
    have := h.nonzero
    simp only [mem_append, not_or] at this
    simp [this.1, hne.symm]

/-- A backspace: the deleted character stays behind the text. -/
theorem Repr.delete (h : a.Repr size l) {t : List CChar} {c : CChar} (ht : l.text = t ++ [c])
    (hroom : l.text.length < size.max) :
    (⟨update a.password a.curPos 0, a.curPos - 1⟩ : AuthInput).Repr size ⟨t, some c⟩ where
  curPos := by simp [h.curPos, ht]
  padded := by
    rw [toList_some, ← ht, h.curPos]
    exact (h.padded.put length_toList_le 0).of_zero
  room := by
    rw [toList_some, ← ht]
    exact hroom.le
  nonzero := by
    have := h.nonzero
    simp only [mem_append, not_or] at this
    rw [toList_some, ← ht]
    exact this.1

end AuthInput

/-- Each backspace is pressed while there is room for another character. -/
def RoomFor (size : PasswordSize) (l : Typed) (chars : List CChar) : Prop :=
  ∀ before after, chars = before ++ backspace :: after →
    (before.foldl (Typed.key size) l).text.length < size.max

theorem roomFor_cons :
    RoomFor size l (ch :: chars) ↔
      (ch = backspace → l.text.length < size.max) ∧ RoomFor size (l.key size ch) chars := by
  constructor
  · intro h
    exact ⟨fun hch => h [] chars (by rw [hch]; rfl),
      fun before after heq => h (ch :: before) after (by rw [heq]; rfl)⟩
  · rintro ⟨hfirst, hrest⟩ before after heq
    cases before with
    | nil =>
      simp only [nil_append, cons.injEq] at heq
      exact hfirst heq.1
    | cons c before =>
      simp only [cons_append, cons.injEq] at heq
      obtain ⟨rfl, heq⟩ := heq
      exact hrest before after heq

namespace AuthInput

theorem not_printable_backspace : ¬ Printable backspace := by decide

theorem readLine_enter (a : AuthInput) (hch : IsEnter ch) :
    a.readLine size (ch :: rest) = some (true, a) := by
  have hnot : ¬ Printable ch ∧ ch ≠ backspace := by
    rcases hch with rfl | rfl <;> decide
  simp only [readLine, hnot.1, hnot.2, false_and, if_false, if_pos hch]

/-- One key that is not Enter. -/
theorem readLine_cons (h : a.Repr size l) (hch : ¬ IsEnter ch) (rest : List CChar) :
    ((ch = backspace → l.text.length < size.max) →
      ∃ a' : AuthInput, a.readLine size (ch :: rest) = a'.readLine size rest ∧
        a'.Repr size (l.key size ch)) ∧
    (¬ (ch = backspace → l.text.length < size.max) → a.readLine size (ch :: rest) = none) := by
  rw [readLine, h.curPos]
  by_cases hprint : Printable ch
  · have hne : ch ≠ backspace := by
      rintro rfl
      exact not_printable_backspace hprint
    refine ⟨fun _ => ?_, fun hnot => absurd (fun hbs => absurd hbs hne) hnot⟩
    simp only [Typed.key, hprint, if_true, true_and]
    by_cases hroom : l.text.length < size.max
    · rw [if_pos hroom, if_pos hroom, put, if_pos hroom, ← h.curPos]
      exact ⟨_, rfl, h.type hprint hroom⟩
    · refine ⟨a, ?_, by rwa [if_neg hroom]⟩
      rw [if_neg hroom, if_neg (fun hbs => hne hbs.1), if_neg hch]
  · simp only [Typed.key, hprint, if_false, false_and]
    by_cases hbs : ch = backspace ∧ l.text ≠ []
    · have hpos : l.text.length > 0 := length_pos_iff.mpr hbs.2
      rw [if_pos ⟨hbs.1, hpos⟩, if_pos hbs]
      refine ⟨fun hroom => ?_, fun hnot => ?_⟩
      · have hlast := dropLast_append_getLast hbs.2
        refine ⟨⟨update a.password a.curPos 0, a.curPos - 1⟩, ?_, ?_⟩
        · simp only [put, if_pos (hroom hbs.1), bind_some, h.curPos]
        · rw [getLast?_eq_some_getLast hbs.2]
          exact h.delete hlast.symm (hroom hbs.1)
      · have hfull : ¬ l.text.length < size.max := fun hroom => hnot fun _ => hroom
        rw [put, if_neg hfull, bind_none]
    · have hkey : ¬ (ch = backspace ∧ l.text.length > 0) := by
        rintro ⟨hch', hpos⟩
        exact hbs ⟨hch', length_pos_iff.mp hpos⟩
      rw [if_neg hkey, if_neg hch, if_neg hbs]
      refine ⟨fun _ => ⟨a, rfl, h⟩, fun hnot => absurd (fun hch' => ?_) hnot⟩
      -- the line is empty
      have hnil : l.text = [] := by_contra fun hne => hbs ⟨hch', hne⟩
      rw [hnil]
      exact size.pos

theorem readLine_spec (h : a.Repr size l) (hchars : ∀ ch ∈ chars, ¬ IsEnter ch)
    (rest : List CChar) :
    (RoomFor size l chars →
      ∃ a' : AuthInput, a.readLine size (chars ++ rest) = a'.readLine size rest ∧
        a'.Repr size (chars.foldl (Typed.key size) l)) ∧
    (¬ RoomFor size l chars → a.readLine size (chars ++ rest) = none) := by
  induction chars generalizing a l with
  | nil =>
    refine ⟨fun _ => ⟨a, rfl, h⟩, fun hnot => absurd ?_ hnot⟩
    intro before after heq
    simp at heq
  | cons ch chars ih =>
    obtain ⟨hgo, hstop⟩ := readLine_cons h (hchars ch (by simp)) (chars ++ rest)
    have hchars' : ∀ ch ∈ chars, ¬ IsEnter ch := fun c hc => hchars c (by simp [hc])
    rw [roomFor_cons, cons_append]
    refine ⟨?_, fun hnot => ?_⟩
    · rintro ⟨hfirst, hrest⟩
      obtain ⟨a₁, heq₁, hrepr₁⟩ := hgo hfirst
      obtain ⟨a₂, heq₂, hrepr₂⟩ := (ih hrepr₁ hchars').1 hrest
      exact ⟨a₂, heq₁.trans heq₂, hrepr₂⟩
    · by_cases hfirst : ch = backspace → l.text.length < size.max
      · obtain ⟨a₁, heq₁, hrepr₁⟩ := hgo hfirst
        rw [heq₁]
        exact (ih hrepr₁ hchars').2 fun hrest => hnot ⟨hfirst, hrest⟩
      · exact hstop hfirst

/-- With an Enter key in it, a line ends. -/
theorem readLine_finished {a' : AuthInput} {ok : Bool} (hchars : ∃ ch ∈ chars, IsEnter ch)
    (h : a.readLine size chars = some (ok, a')) : ok = true := by
  induction chars generalizing a with
  | nil => simp at hchars
  | cons ch chars ih =>
    by_cases hch : IsEnter ch
    · rw [readLine_enter a hch] at h
      cases h
      rfl
    · have hchars' : ∃ c ∈ chars, IsEnter c := by simpa [hch] using hchars
      rw [readLine] at h
      split_ifs at h
      · obtain ⟨password, -, hrec⟩ := bind_eq_some_iff.mp h
        exact ih hchars' hrec
      · obtain ⟨password, -, hrec⟩ := bind_eq_some_iff.mp h
        exact ih hchars' hrec
      · exact ih hchars' h

end AuthInput

/-- After attempts that have failed, the next one starts with an empty line. -/
theorem finshWaitAuth_append {a' : AuthInput} {earlier : List (List CChar)} (received : List CChar)
    (hrepr : a.Repr size .empty) (hearlier : ∀ line ∈ earlier, ∃ ch ∈ line, IsEnter ch)
    (h : finshWaitAuth size stored a earlier = some (false, a')) :
    finshWaitAuth size stored a (earlier ++ [received]) =
        finshWaitAuth size stored a' [received] ∧ a'.Repr size .empty := by
  induction earlier generalizing a with
  | nil =>
    cases h
    exact ⟨rfl, hrepr⟩
  | cons line earlier ih =>
    obtain ⟨⟨ok, a₁⟩, hline, hnext⟩ := bind_eq_some_iff.mp h
    cases readLine_finished (hearlier line (by simp)) hline
    simp only [] at hnext
    split_ifs at hnext with hsame
    · simp at hnext
    · obtain ⟨heq, hrepr'⟩ := ih (repr_retry a₁) (fun l hl => hearlier l (by simp [hl])) hnext
      refine ⟨?_, hrepr'⟩
      rw [cons_append, finshWaitAuth, hline, bind_some]
      simp only []
      rw [if_neg hsame, heq]

theorem finshWaitAuth_line {password : List CChar} {e : CChar}
    (hstored : Padded stored size.max password) (hzero : 0 ∉ password)
    (hlen : password.length ≤ size.max) (hrepr : a.Repr size l) (he : IsEnter e) :
    ∃ ok a', finshWaitAuth size stored a [[e]] = some (ok, a') ∧
      (ok = true ↔ password = l.text ++ l.deleted.toList) := by
  rw [← rtStrncmp_eq_zero_iff hstored hrepr.padded hzero hrepr.nonzero hlen hrepr.room,
    finshWaitAuth, readLine_enter a he, bind_some]
  by_cases hsame : rtStrncmp stored a.password size.max = 0
  · exact ⟨true, a, by simp only [hsame, if_true], iff_of_true rfl hsame⟩
  · exact ⟨false, a.retry size, by simp only [hsame, if_false, finshWaitAuth],
      iff_of_false (by simp) hsame⟩

/-- No backspace is pressed in a full line, and if the last key that has changed the line is a
backspace, the password is neither the text before it nor the text after it. -/
structure Undisturbed (size : PasswordSize) (password chars : List CChar) : Prop where
  room : RoomFor size .empty chars
  settled : ∀ c, (Typed.keys size chars).deleted = some c →
    password ≠ (Typed.keys size chars).text ∧ password ≠ (Typed.keys size chars).text ++ [c]

theorem same_iff_settled (password : List CChar) (l : Typed) :
    (password = l.text ++ l.deleted.toList ↔ l.text = password) ↔
      ∀ c, l.deleted = some c → password ≠ l.text ∧ password ≠ l.text ++ [c] := by
  rcases hdel : l.deleted with _ | c
  · simp [eq_comm]
  · simp only [toList_some, some.injEq, forall_eq']
    constructor
    · intro h
      refine ⟨?_, fun hlong => ?_⟩
      · rintro rfl
        simpa using h.mpr rfl
      · have := h.mp hlong
        rw [hlong] at this
        simpa using congrArg length this
    · rintro ⟨hshort, hlong⟩
      exact iff_of_false hlong (Ne.symm hshort)

/-- A line of keys and Enter, after any number of attempts that have failed: no key writes outside
of the buffer, and the line is accepted just if its text is the password, exactly if the backspaces
in it are without effect on this. -/
theorem auth_exact_iff {stored₀ stored : CMem} {password : CString}
    (hset : finshSetPassword size stored₀ password = some stored) {earlier : List (List CChar)}
    {a : AuthInput} (hearlier : ∀ line ∈ earlier, ∃ ch ∈ line, IsEnter ch)
    (hfailed : finshWaitAuth size stored init earlier = some (false, a)) {chars : List CChar}
    (hchars : ∀ ch ∈ chars, ¬ IsEnter ch) {e : CChar} (he : IsEnter e) :
    (∃ ok a', finshWaitAuth size stored init (earlier ++ [chars ++ [e]]) = some (ok, a') ∧
      (ok = true ↔ (Typed.keys size chars).text = password.chars)) ↔
      Undisturbed size password.chars chars := by
  have hpassword : Padded stored size.max password.chars ∧ password.chars.length ≤ size.max := by
    simp only [finshSetPassword] at hset
    split_ifs at hset with hlen
    cases hset
    exact ⟨padded_rtStrncpy password.nonzero, by omega⟩
  obtain ⟨heq, hrepr⟩ := finshWaitAuth_append (chars ++ [e]) repr_init hearlier hfailed
  obtain ⟨hgo, hstop⟩ := readLine_spec hrepr hchars [e]
  rw [heq]
  by_cases hroom : RoomFor size .empty chars
  · obtain ⟨a₁, hline, hrepr₁⟩ := hgo hroom
    have hsame : finshWaitAuth size stored a [chars ++ [e]] =
        finshWaitAuth size stored a₁ [[e]] := by rw [finshWaitAuth, finshWaitAuth, hline]
    obtain ⟨ok, a₂, hres, hok⟩ := finshWaitAuth_line hpassword.1 password.nonzero hpassword.2
      hrepr₁ he
    rw [hsame, hres]
    have hsettled := same_iff_settled password.chars (Typed.keys size chars)
    constructor
    · rintro ⟨ok', a', heq', hiff⟩
      cases heq'
      exact ⟨hroom, hsettled.mp (hok.symm.trans hiff)⟩
    · intro h
      exact ⟨ok, a₂, rfl, hok.trans (hsettled.mpr h.settled)⟩
  · rw [finshWaitAuth, hstop hroom]
    refine iff_of_false ?_ fun h => hroom h.room
    rintro ⟨ok, a', hnone, -⟩
    cases hnone

/-- A password of at most eight characters, and `secret`. -/
def sampleSize : PasswordSize := ⟨6, 8, by decide⟩

def secret : CString := ⟨[0x73, 0x65, 0x63, 0x72, 0x65, 0x74], by decide⟩

def secretStored : CMem := rtStrncpy (fun _ => 0) 0 secret.get sampleSize.max

theorem secretStored_eq : finshSetPassword sampleSize (fun _ => 0) secret = some secretStored := rfl

/-- After a wrong attempt, `secrex`, a backspace and `t`. -/
theorem auth_exact_iff_sample :
    (∃ ok a', finshWaitAuth sampleSize secretStored init
        ([[0x78, 0x0d]] ++ [[0x73, 0x65, 0x63, 0x72, 0x65, 0x78, 0x08, 0x74] ++ [0x0d]]) =
          some (ok, a') ∧
      (ok = true ↔ (Typed.keys sampleSize
        [0x73, 0x65, 0x63, 0x72, 0x65, 0x78, 0x08, 0x74]).text = secret.chars)) ↔
      Undisturbed sampleSize secret.chars [0x73, 0x65, 0x63, 0x72, 0x65, 0x78, 0x08, 0x74] :=
  auth_exact_iff secretStored_eq (by decide) rfl (forall_iff_forall_mem.mp (by decide)) (by decide)

/-- The text of `secretx` and a backspace is the password, but the line is rejected. That of
`secret` and a backspace is not, but the line is accepted. A backspace in a full line writes behind
the buffer. -/
theorem deleted_character_stays :
    finshSetPassword sampleSize (fun _ => 0) secret = some secretStored ∧
    (Typed.keys sampleSize (secret.chars ++ [0x78, 0x08])).text = secret.chars ∧
    (finshWaitAuth sampleSize secretStored init [secret.chars ++ [0x78, 0x08] ++ [0x0d]]).map
      fst = some false ∧
    (Typed.keys sampleSize (secret.chars ++ [0x08])).text ≠ secret.chars ∧
    (finshWaitAuth sampleSize secretStored init [secret.chars ++ [0x08] ++ [0x0d]]).map
      fst = some true ∧
    (finshWaitAuth sampleSize secretStored init [secret.chars ++ [0x78, 0x78, 0x08] ++ [0x0d]]).map
      fst = none :=
  ⟨secretStored_eq, by decide⟩

end RtThread.Shell
