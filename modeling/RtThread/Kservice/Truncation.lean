import RtThread.Kservice.Printf

/-!
# Truncated output

What `rt_vsnprintf` returns and stores when its buffer is too small. The directives of the
format do not depend on the output; what a directive writes does so in one place, where a
number has a sign and its padding comes after it.

* `Number.putNumber_eq`, `Directive.printDirective_eq`: what a directive writes.
* `outputFrom_cases`: the output is the same for a smaller buffer, or it has grown longer
  behind the end of it.
* `rtVsnprintf_listing`: `rt_vsnprintf` stores what a list collects.
* `truncation_iff`: the return value does not depend on the size exactly if every sign that
  shortens its padding is stored.
-/

namespace RtThread.Kservice

open BoundedWriter List Option Nat Int

/-! ## What a directive writes -/

theorem countdown_zero_fst (n : ℤ) : (countdown 0 n).1 = n.toNat := by
  unfold countdown
  split_ifs
  · rw [sub_zero]
  · exact (toNat_of_nonpos (by omega)).symm

theorem countdown_zero_snd (n : ℤ) : (countdown 0 n).2 < 0 := by
  unfold countdown
  split_ifs
  · exact (by decide : (0 : ℤ) - 1 < 0)
  · omega

namespace Number

variable (n : Number)

/-- The padding is behind the sign. -/
def padsLate : Bool := n.type.zeropad || n.type.left

/-- The padding before the sign: how much, and what is left of `size`. -/
def lead : ℕ × ℤ :=
  if !n.padsLate then countdown 0 (if n.sign.isSome ∧ n.size > 0 then n.size - 1 else n.size)
  else (0, n.size)

/-- The padding behind the sign, when `size` is left for it. -/
def middle (size : ℤ) : ℕ × ℤ := if !n.type.left then countdown 0 size else (0, size)

/-- What follows the sign. -/
def rest (size : ℤ) : List Byte :=
  replicate (n.middle size).1 (if n.type.zeropad then chr '0' else chr ' ') ++
    (replicate (countdown n.tmp.length n.precision).1 (chr '0') ++
      (n.tmp.reverse ++ replicate (countdown 0 (n.middle size).2).1 (chr ' ')))

/-- The sign and what follows it: `fits` tells whether it is stored. -/
def tail (fits : Bool) : List Byte :=
  match n.sign with
  | none => n.rest n.lead.2
  | some sign => sign :: n.rest (if fits then n.lead.2 - 1 else n.lead.2)

/-- The sign takes the place of padding that is behind it. -/
def signShortens : Bool := n.sign.isSome && n.padsLate && 0 < n.size

variable {n}

theorem length_rest (size : ℤ) :
    (n.rest size).length =
      size.toNat + ((countdown n.tmp.length n.precision).1 + n.tmp.length) := by
  have hpads : (n.middle size).1 + (countdown 0 (n.middle size).2).1 = size.toNat := by
    unfold middle
    split_ifs
    · rw [countdown_zero_fst, countdown_zero_fst, toNat_of_nonpos (countdown_zero_snd size).le,
        add_zero]
    · rw [countdown_zero_fst, zero_add]
  simp only [rest, length_append, length_replicate, length_reverse]
  omega

/-- Without padding it does not matter how much is missing. -/
theorem rest_of_nonpos {size size' : ℤ} (h : size ≤ 0) (h' : size' ≤ 0) :
    n.rest size = n.rest size' := by
  have hmiddle {size : ℤ} (h : size ≤ 0) :
      (n.middle size).1 = 0 ∧ (countdown 0 (n.middle size).2).1 = 0 := by
    unfold middle
    split_ifs
    · rw [countdown_zero_fst, countdown_zero_fst]
      exact ⟨toNat_of_nonpos h, toNat_of_nonpos (countdown_zero_snd size).le⟩
    · rw [countdown_zero_fst]
      exact ⟨rfl, toNat_of_nonpos h⟩
  rw [rest, rest, (hmiddle h).1, (hmiddle h).2, (hmiddle h').1, (hmiddle h').2]

theorem lead_of_padsLate (h : n.padsLate = true) : n.lead = (0, n.size) := by
  rw [lead, h]
  rfl

/-- No padding is left behind the sign. -/
theorem lead_snd (h : n.signShortens = false) (hsign : n.sign.isSome) : n.lead.2 ≤ 0 := by
  cases hpads : n.padsLate with
  | false =>
    rw [lead, hpads]
    exact (countdown_zero_snd _).le
  | true =>
    rw [lead_of_padsLate hpads]
    simpa [signShortens, hsign, hpads] using h

theorem tail_eq (h : n.signShortens = false) (fits : Bool) : n.tail fits = n.tail true := by
  unfold tail
  cases hsign : n.sign with
  | none => rfl
  | some sign =>
    have hlead := lead_snd h (by rw [hsign]; rfl)
    dsimp only
    rw [rest_of_nonpos (by split_ifs <;> omega) (by omega : n.lead.2 - 1 ≤ 0), if_pos rfl]

/-- One character more, if the sign is not stored. -/
theorem length_tail_false (h : n.signShortens = true) :
    (n.tail false).length = (n.tail true).length + 1 := by
  simp only [signShortens, Bool.and_eq_true, decide_eq_true_eq] at h
  obtain ⟨⟨hsign, hpads⟩, hsize⟩ := h
  obtain ⟨sign, hsign⟩ := isSome_iff_exists.mp hsign
  simp only [tail, hsign, lead_of_padsLate hpads, length_cons, length_rest]
  simp only [Bool.false_eq_true, if_false, if_true]
  omega

/-- A number is padded, and the rest depends on whether its sign is stored. -/
theorem putNumber_eq {σ : Type*} (w : Writer σ Byte) (o : σ) (n : Number) :
    putNumber w o n =
      let o := w.puts o (replicate n.lead.1 (chr ' '))
      w.puts o (n.tail (w.fits o)) := by
  obtain ⟨⟨zeropad, _, _, _, left, _, _⟩, sign, _, _, _⟩ := n
  cases left <;> cases zeropad <;> cases sign <;>
    simp [putNumber, tail, rest, middle, lead, padsLate, pad, Writer.puts_append, Writer.puts_cons]

end Number

namespace Directive

/-- The padding before a sign. -/
def lead : Directive → List Byte
  | .number num base fieldWidth precision flags =>
    replicate (toNumber num base fieldWidth precision flags).lead.1 (chr ' ')
  | _ => []

/-- What follows: `fits` tells whether the first character of it is stored. -/
def tail : Directive → (fits : Bool) → List Byte
  | .literal c, _ => [c]
  | .char fieldWidth left c, _ =>
    let before := if !left then countdownFirst fieldWidth else (0, fieldWidth)
    replicate before.1 (chr ' ') ++ c :: replicate (countdownFirst before.2).1 (chr ' ')
  | .string fieldWidth precision left s, _ =>
    let len : ℤ := if precision > 0 ∧ (s.length : ℤ) > precision then precision else s.length
    let before := if !left then countdown len fieldWidth else (0, fieldWidth)
    replicate before.1 (chr ' ') ++
      (s.take len.toNat ++ replicate (countdown len before.2).1 (chr ' '))
  | .number num base fieldWidth precision flags, fits =>
    (toNumber num base fieldWidth precision flags).tail fits
  | .unknown c, _ => chr '%' :: c.toList

/-- A number with a sign that shortens its padding. -/
def signShortens : Directive → Bool
  | .number num base fieldWidth precision flags =>
    (toNumber num base fieldWidth precision flags).signShortens
  | _ => false

variable {d : Directive}

theorem tail_eq (h : d.signShortens = false) (fits : Bool) : d.tail fits = d.tail true := by
  cases d with
  | number num base fieldWidth precision flags => exact Number.tail_eq h fits
  | literal | char | string | unknown => rfl

theorem length_tail_false (h : d.signShortens = true) :
    (d.tail false).length = (d.tail true).length + 1 := by
  cases d with
  | number num base fieldWidth precision flags => exact Number.length_tail_false h
  | literal | char | string | unknown => cases h

theorem length_tail_le (d : Directive) : (d.tail true).length ≤ (d.tail false).length := by
  cases h : d.signShortens with
  | false => rw [tail_eq h false]
  | true =>
    rw [length_tail_false h]
    omega

theorem printDirective_eq {σ : Type*} (w : Writer σ Byte) (o : σ) (d : Directive) :
    printDirective w o d = w.puts (w.puts o d.lead) (d.tail (w.fits (w.puts o d.lead))) := by
  cases d with
  | literal c => rfl
  | char fieldWidth left c =>
    cases left <;> simp [printDirective, tail, lead, pad, Writer.puts_append, Writer.puts_cons]
  | string fieldWidth precision left s =>
    cases left <;> simp [printDirective, tail, lead, pad, Writer.puts_append]
  | number num base fieldWidth precision flags => exact Number.putNumber_eq w o _
  | unknown c => cases c <;> rfl

theorem printDirective_listing (fits : ℕ → Bool) (l : List Byte) (d : Directive) :
    printDirective (listing fits) l d = l ++ d.lead ++ d.tail (fits (l ++ d.lead).length) := by
  rw [printDirective_eq, listing_puts, listing_puts]
  rfl

end Directive

/-! ## The loop over the format -/

section Loop

variable {args : VaList}

/-- The directives of a format. -/
def directives (args : VaList) : (fuel : ℕ) → (fmt : List Byte) → (i : ℕ) → Option (List Directive)
  | 0, _, _ => none
  | fuel + 1, fmt, i =>
    match readDirective args fmt i with
    | none => some []
    | some (d, fmt, i) => (directives args fuel fmt i).map (d :: ·)

theorem formatLoop_eq {σ : Type*} (w : Writer σ Byte) (fuel : ℕ) (fmt : List Byte) (i : ℕ) (o : σ) :
    formatLoop args w fuel fmt i o =
      (directives args fuel fmt i).map fun ds => ds.foldl (printDirective w) o := by
  induction fuel generalizing fmt i o with
  | zero => rfl
  | succ fuel ih =>
    rw [formatLoop, directives]
    cases readDirective args fmt i with
    | none => rfl
    | some p =>
      dsimp only
      rw [ih, Option.map_map]
      rfl

section

variable (fmt : List Byte)

theorem length_skipAtoi (i : ℤ) : (skipAtoi fmt i).2.length ≤ fmt.length := by
  induction fmt generalizing i with
  | nil => exact le_rfl
  | cons c fmt ih =>
    rw [skipAtoi]
    split_ifs
    · exact (ih _).trans (le_succ _)
    · exact le_rfl

theorem length_readFlags (flags : Flags) : (readFlags fmt flags).2.length ≤ fmt.length := by
  induction fmt generalizing flags with
  | nil => exact le_rfl
  | cons c fmt ih =>
    rw [readFlags]
    split_ifs
    · exact (ih _).trans (le_succ _)
    · exact (ih _).trans (le_succ _)
    · exact (ih _).trans (le_succ _)
    · exact (ih _).trans (le_succ _)
    · exact (ih _).trans (le_succ _)
    · exact le_rfl

theorem length_readWidth (i : ℕ) (flags : Flags) :
    (readWidth args fmt i flags).2.2.1.length ≤ fmt.length := by
  unfold readWidth
  split
  · exact le_rfl
  · dsimp only
    split_ifs
    · exact length_skipAtoi _ _
    · exact le_succ _
    · exact le_succ _
    · exact le_rfl

theorem length_readPrecision (i : ℕ) : (readPrecision args fmt i).2.1.length ≤ fmt.length := by
  unfold readPrecision
  split
  · exact le_rfl
  · split_ifs
    · dsimp only
      split
      · exact zero_le _
      · split_ifs
        · exact (length_skipAtoi _ _).trans (le_succ _)
        · exact (le_succ _).trans (le_succ _)
        · exact le_succ _
    · exact le_rfl

theorem length_readQualifier : (readQualifier fmt).2.length ≤ fmt.length := by
  unfold readQualifier
  split
  · exact le_rfl
  · split_ifs
    · exact le_succ _
    · exact le_rfl

end

theorem length_ite_le {c : Prop} [Decidable c] {x y : Directive × List Byte × ℕ} {k : ℕ}
    (hx : x.2.1.length ≤ k) (hy : y.2.1.length ≤ k) : (if c then x else y).2.1.length ≤ k := by
  split
  · exact hx
  · exact hy

theorem length_readConversion (fmt : List Byte) (i : ℕ) (fieldWidth precision : ℤ)
    (qualifier : Byte) (flags : Flags) :
    (readConversion args fmt i fieldWidth precision qualifier flags).2.1.length ≤ fmt.length := by
  unfold readConversion
  split
  · exact le_rfl
  · repeat' apply length_ite_le
    all_goals first | exact le_succ _ | exact le_rfl

/-- Every directive takes a character of the format. -/
theorem length_readDirective {fmt fmt' : List Byte} {i i' : ℕ} {d : Directive}
    (h : readDirective args fmt i = some (d, fmt', i')) : fmt'.length < fmt.length := by
  cases fmt with
  | nil => cases h
  | cons c fmt =>
    rw [readDirective] at h
    split_ifs at h with hzero hlit
    · obtain ⟨-, rfl, -⟩ := h
      exact lt_succ_self _
    · have hfmt : fmt' = _ := (congrArg (fun p => p.2.1) (some.inj h)).symm
      rw [hfmt]
      refine lt_succ_of_le ?_
      calc _ ≤ _ := length_readConversion _ _ _ _ _ _
        _ ≤ _ := length_readQualifier _
        _ ≤ _ := length_readPrecision _ _
        _ ≤ _ := length_readWidth _ _ _
        _ ≤ _ := length_readFlags _ _

theorem directives_isSome (args : VaList) {fuel : ℕ} {fmt : List Byte} (h : fmt.length < fuel)
    (i : ℕ) :
    (directives args fuel fmt i).isSome := by
  induction fuel generalizing fmt i with
  | zero => omega
  | succ fuel ih =>
    rw [directives]
    cases hread : readDirective args fmt i with
    | none => rfl
    | some p =>
      obtain ⟨d, fmt', i'⟩ := p
      have hlt := length_readDirective hread
      rw [isSome_map]
      exact ih (by omega) i'

end Loop

/-! ## Truncation -/

section Truncation

/-- Where the signs that shorten their padding are in the output, if nothing is cut off. -/
def signOffsets : (pos : ℕ) → List Directive → List ℕ
  | _, [] => []
  | pos, d :: ds =>
    (if d.signShortens then [pos + d.lead.length] else []) ++
      signOffsets (pos + (d.lead ++ d.tail true).length) ds

variable {n : ℕ} {l l' : List Byte} {d : Directive} {ds : List Directive} {buf size : ℕ}

/-- The output of the directives behind `l`, where `fits` says what is stored. -/
def outputFrom (fits : ℕ → Bool) (l : List Byte) (ds : List Directive) : List Byte :=
  ds.foldl (printDirective (listing fits)) l

/-- `l` has grown longer than `l'` behind the first `n` characters. -/
structure Diverged (n : ℕ) (l l' : List Byte) : Prop where
  full : n ≤ l'.length
  longer : l'.length < l.length
  take_eq : l.take n = l'.take n

/-- A directive whose sign, if it has one, is cut off. -/
theorem printDirective_of_le (h : n ≤ l.length + d.lead.length) :
    printDirective (listing (· < n)) l d = l ++ d.lead ++ d.tail false := by
  have hfits : decide ((l ++ d.lead).length < n) = false := by
    rw [length_append]
    exact decide_eq_false (by omega)
  rw [Directive.printDirective_listing, hfits]

theorem Diverged.printDirective (h : Diverged n l l') (d : Directive) :
    Diverged n (printDirective (listing (· < n)) l d)
      (printDirective (listing fun _ => true) l' d) := by
  have hfull := h.full
  have hlonger := h.longer
  have hle := d.length_tail_le
  rw [printDirective_of_le (by omega), Directive.printDirective_listing]
  refine ⟨?_, ?_, ?_⟩
  · simp only [length_append]
    omega
  · simp only [length_append]
    omega
  · rw [append_assoc, append_assoc, take_append_of_le_length (by omega),
      take_append_of_le_length hfull, h.take_eq]

theorem Diverged.outputFrom (h : Diverged n l l') (ds : List Directive) :
    Diverged n (outputFrom (· < n) l ds) (outputFrom (fun _ => true) l' ds) := by
  induction ds generalizing l l' with
  | nil => exact h
  | cons d ds ih => exact ih (h.printDirective d)

/-- A directive with a sign that is stored, or that shortens nothing. -/
theorem printDirective_stored (h : d.signShortens → l.length + d.lead.length < n) :
    printDirective (listing (· < n)) l d = l ++ (d.lead ++ d.tail true) := by
  rw [Directive.printDirective_listing, append_assoc]
  cases hshort : d.signShortens with
  | false => rw [Directive.tail_eq hshort]
  | true =>
    have hfits : decide ((l ++ d.lead).length < n) = true := by
      rw [length_append]
      exact decide_eq_true (h hshort)
    rw [hfits]

/-- A directive with a sign that is cut off. -/
theorem printDirective_cut (hshort : d.signShortens = true) (h : n ≤ l.length + d.lead.length) :
    Diverged n (printDirective (listing (· < n)) l d)
      (printDirective (listing fun _ => true) l d) := by
  have hlen := Directive.length_tail_false hshort
  rw [printDirective_of_le h, Directive.printDirective_listing]
  refine ⟨?_, ?_, ?_⟩
  · simp only [length_append]
    omega
  · simp only [length_append]
    omega
  · have hfull : n ≤ (l ++ d.lead).length := by rw [length_append]; exact h
    rw [take_append_of_le_length hfull, take_append_of_le_length hfull]

/-- The output is the same, or it has grown longer: this is so if a sign that shortens its padding
is cut off. -/
theorem outputFrom_cases (n : ℕ) (l : List Byte) (ds : List Directive) :
    (outputFrom (· < n) l ds = outputFrom (fun _ => true) l ds ∧
      ∀ k ∈ signOffsets l.length ds, k < n) ∨
    (Diverged n (outputFrom (· < n) l ds) (outputFrom (fun _ => true) l ds) ∧
      ∃ k ∈ signOffsets l.length ds, n ≤ k) := by
  induction ds generalizing l with
  | nil => exact .inl ⟨rfl, nofun⟩
  | cons d ds ih =>
    have hnext : printDirective (listing fun _ => true) l d = l ++ (d.lead ++ d.tail true) := by
      rw [Directive.printDirective_listing, append_assoc]
    have hlen : l.length + (d.lead ++ d.tail true).length =
        (l ++ (d.lead ++ d.tail true)).length := length_append.symm
    simp only [signOffsets, mem_append, hlen]
    by_cases hstored : d.signShortens → l.length + d.lead.length < n
    · have hsame := printDirective_stored hstored
      have hhead : ∀ k ∈ (if d.signShortens then [l.length + d.lead.length] else []), k < n := by
        intro k hk
        split_ifs at hk with hshort
        · rw [mem_singleton.mp hk]
          exact hstored hshort
        · cases hk
      simp only [outputFrom, foldl_cons, hnext, hsame]
      rcases ih (l ++ (d.lead ++ d.tail true)) with ⟨heq, hall⟩ | ⟨hdiv, k, hk, hle⟩
      · refine .inl ⟨heq, ?_⟩
        rintro k (hk | hk)
        · exact hhead k hk
        · exact hall k hk
      · exact .inr ⟨hdiv, k, .inr hk, hle⟩
    · obtain ⟨hshort, hcut⟩ := Classical.not_imp.mp hstored
      refine .inr ⟨(printDirective_cut hshort (not_lt.mp hcut)).outputFrom ds, _, .inl ?_,
        not_lt.mp hcut⟩
      rw [if_pos hshort]
      exact mem_singleton_self _

/-- The buffer follows the list that collects the output. -/
theorem stored_printDirective {mem : ℕ → Byte} {buf last : ℕ} (hbuf : buf ≤ last)
    {b : Buffer Byte} (h : Stored mem buf last b l) (d : Directive) :
    Stored mem buf last (printDirective (buffer last) b d)
      (printDirective (listing (· < last + 1 - buf)) l d) := by
  have hlead := h.puts d.lead
  rw [Directive.printDirective_eq, Directive.printDirective_listing, hlead.fits hbuf]
  exact hlead.puts _

/-- `rt_vsnprintf` stores the beginning of the list that collects the output. -/
theorem rtVsnprintf_listing (args : VaList) (mem : ℕ → Byte) (fmt : List Byte)
    (hbuf : buf ≤ lastCell buf size) :
    ∃ ds mem', directives args (fmt.length + 1) fmt 0 = some ds ∧
      rtVsnprintf args mem buf size fmt =
        some ((outputFrom (· < lastCell buf size + 1 - buf) [] ds).length, mem') ∧
      Cells.Holds mem' buf
        ((outputFrom (· < lastCell buf size + 1 - buf) [] ds).take (lastCell buf size - buf) ++
          [0]) := by
  obtain ⟨ds, hds⟩ := isSome_iff_exists.mp (directives_isSome args (lt_succ_self fmt.length) 0)
  have hstored (b : Buffer Byte) (l : List Byte) (h : Stored mem buf (lastCell buf size) b l)
      (ds : List Directive) :
      Stored mem buf (lastCell buf size) (ds.foldl (printDirective (buffer (lastCell buf size))) b)
        (outputFrom (· < lastCell buf size + 1 - buf) l ds) := by
    induction ds generalizing b l with
    | nil => exact h
    | cons d ds ih => exact ih _ _ (stored_printDirective hbuf h d)
  have hfinal := hstored ⟨mem, buf⟩ [] rfl ds
  refine ⟨ds, _, hds, ?_, holds_close mem hbuf 0⟩
  rw [rtVsnprintf]
  simp only [formatLoop_eq, hds, map_some]
  rw [hfinal, puts_str, Nat.add_sub_cancel_left]

/-- The output of a format, if nothing is cut off. -/
def untruncated (args : VaList) (fmt : List Byte) : List Byte :=
  (formatLoop args (listing fun _ => true) (fmt.length + 1) fmt 0 []).getD []

/-- Where in it the signs are that shorten their padding. -/
def paddedSigns (args : VaList) (fmt : List Byte) : List ℕ :=
  signOffsets 0 ((directives args (fmt.length + 1) fmt 0).getD [])

/-- A buffer of `size` bytes, or of which the output does not reach the end of the address space. -/
structure Room (buf size length : ℕ) : Prop where
  buf_lt : buf < 2 ^ 32
  size_pos : 1 ≤ size
  size_lt : size < 2 ^ 32
  fits : buf + size ≤ 2 ^ 32 ∨ buf + length < 2 ^ 32

theorem Room.lastCell {buf size length : ℕ} (h : Room buf size length) :
    buf ≤ lastCell buf size ∧
      (lastCell buf size + 1 - buf = size ∨
        length < lastCell buf size + 1 - buf ∧ lastCell buf size + 1 - buf ≤ size) := by
  obtain ⟨hbuf, hpos, hsize, hfits⟩ := h
  unfold Kservice.lastCell
  by_cases hin : buf + size ≤ 2 ^ 32
  · rw [if_neg (by omega)]
    omega
  · have hlast : (buf + size + (2 ^ 32 - 1)) % 2 ^ 32 < buf := by omega
    rw [if_pos hlast]
    omega

/-- One call: the buffer is as it should be, and so is the return value unless a sign is cut off. -/
theorem rtVsnprintf_spec (args : VaList) (mem : ℕ → Byte) (fmt : List Byte)
    (h : Room buf size (untruncated args fmt).length) :
    ∃ r mem', rtVsnprintf args mem buf size fmt = some (r, mem') ∧
      Cells.Holds mem' buf ((untruncated args fmt).take (size - 1) ++ [0]) ∧
      (r = (untruncated args fmt).length ↔ ∀ k ∈ paddedSigns args fmt, k < size) := by
  obtain ⟨hbuf, hroom⟩ := h.lastCell
  obtain ⟨ds, mem', hds, hcall, hholds⟩ := rtVsnprintf_listing args mem fmt hbuf
  have hout : untruncated args fmt = outputFrom (fun _ => true) [] ds := by
    rw [untruncated, formatLoop_eq, hds]
    rfl
  have hsigns : paddedSigns args fmt = signOffsets 0 ds := by
    rw [paddedSigns, hds]
    rfl
  rw [hout] at hroom ⊢
  rw [hsigns]
  refine ⟨_, mem', hcall, ?_⟩
  rcases outputFrom_cases (lastCell buf size + 1 - buf) [] ds with ⟨heq, hall⟩ |
    ⟨⟨hfull, hlonger, htake⟩, k, hk, hle⟩
  · rw [heq] at hholds ⊢
    refine ⟨?_, fun _ k hk => lt_of_lt_of_le (hall k hk) (by omega), fun _ => rfl⟩
    rcases hroom with hcap | ⟨hlt, hcap⟩
    · have hprev : lastCell buf size - buf = size - 1 := by omega
      rwa [hprev] at hholds
    · rw [take_of_length_le (by omega)] at hholds ⊢
      exact hholds
  · -- a sign is cut off, so the buffer is too small
    refine ⟨?_, fun heq => absurd heq (by omega), fun hall => absurd (hall k hk) (by omega)⟩
    have hprev : lastCell buf size - buf = size - 1 := by omega
    have htake' := congrArg (take (size - 1)) htake
    rw [take_take, take_take, min_eq_left (by omega)] at htake'
    rwa [hprev, htake'] at hholds

/-- With the sizes `n` and `m`, `rt_vsnprintf` returns the length of the untruncated output, and the
buffer of size `n` holds the beginning of it, exactly if both buffers have room for every sign that
shortens its padding. -/
theorem truncation_iff (args : VaList) (mem mem' : ℕ → Byte) (fmt : List Byte)
    {buf buf' n m : ℕ} (hn : Room buf n (untruncated args fmt).length)
    (hm : Room buf' m (untruncated args fmt).length) :
    ∃ rn memn rm memm, rtVsnprintf args mem buf n fmt = some (rn, memn) ∧
      rtVsnprintf args mem' buf' m fmt = some (rm, memm) ∧
      (rn = rm ∧ rn = (untruncated args fmt).length ∧
          Cells.Holds memn buf ((untruncated args fmt).take (n - 1) ++ [0]) ↔
        ∀ k ∈ paddedSigns args fmt, k < n ∧ k < m) := by
  obtain ⟨rn, memn, hcall, hholds, hiff⟩ := rtVsnprintf_spec args mem fmt hn
  obtain ⟨rm, memm, hcall', -, hiff'⟩ := rtVsnprintf_spec args mem' fmt hm
  refine ⟨rn, memn, rm, memm, hcall, hcall', ?_, ?_⟩
  · rintro ⟨rfl, hlen, -⟩ k hk
    exact ⟨hiff.mp hlen k hk, hiff'.mp hlen k hk⟩
  · intro hall
    have hlen := hiff.mpr fun k hk => (hall k hk).1
    have hlen' := hiff'.mpr fun k hk => (hall k hk).2
    exact ⟨hlen.trans hlen'.symm, hlen, hholds⟩

/-- `a%03d` of -5, with a buffer of 3 characters and one of 10. -/
theorem truncation_sample :
    ∃ rn memn rm memm, rtVsnprintf ⟨fun _ => -5, fun _ => []⟩ (fun _ => 0) 0x1000 3
        (chars "a%03d") = some (rn, memn) ∧
      rtVsnprintf ⟨fun _ => -5, fun _ => []⟩ (fun _ => 0) 0x1000 10 (chars "a%03d") =
        some (rm, memm) ∧
      rn = rm ∧ rn = 4 ∧ Cells.Holds memn 0x1000 (chars "a-" ++ [0]) := by
  have hthree : Room 0x1000 3 (chars "a-05").length := ⟨by decide, by decide, by decide, by decide⟩
  have hten : Room 0x1000 10 (chars "a-05").length := ⟨by decide, by decide, by decide, by decide⟩
  obtain ⟨rn, memn, rm, memm, hn, hm, hiff⟩ := truncation_iff ⟨fun _ => -5, fun _ => []⟩
    (fun _ => 0) (fun _ => 0) (chars "a%03d") hthree hten
  obtain ⟨heq, hlen, hholds⟩ := hiff.mpr (by decide)
  exact ⟨rn, memn, rm, memm, hn, hm, heq, hlen, hholds⟩

/-- With a buffer of one character the sign is cut off, and a zero more is counted. -/
theorem cut_sign_counted_twice :
    (rtVsnprintf ⟨fun _ => -5, fun _ => []⟩ (fun _ => 0) 0x1000 1 (chars "a%03d")).map Prod.fst =
        some 5 ∧
      (rtVsnprintf ⟨fun _ => -5, fun _ => []⟩ (fun _ => 0) 0x1000 10 (chars "a%03d")).map
        Prod.fst = some 4 := by
  decide

end Truncation

end RtThread.Kservice
