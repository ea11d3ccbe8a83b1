import Mathlib.Tactic

/-!
# Cyclic redundancy checks

The remainder of a message by a polynomial over the field of two elements, the most
significant bit first and with nothing prepended. `crc` shifts the remainder bit by bit; what
programs do is a byte at a time, from a table.

* `shifts_xor`: shifting is linear in exclusive or.
* `crcByte_eq`: so eight shifts are those of the top byte, and the rest moved up.
* `foldl_table`: a table of the shifted bytes gives the remainder.
* `crc_eq_foldl_feed`: so does a register that the bits are fed into.
-/

namespace Crc

open List BitVec

variable {w : ℕ} (poly : BitVec w)

/-- One more bit of the message, which is zero. -/
def shift (c : BitVec w) : BitVec w := if c.msb then (c <<< 1) ^^^ poly else c <<< 1

def shifts : ℕ → BitVec w → BitVec w
  | 0, c => c
  | n + 1, c => shift poly (shifts n c)

/-- One more bit of the message, which meets the one that is shifted out. -/
def feed (c : BitVec w) (bit : Bool) : BitVec w :=
  if c.msb ^^ bit then (c <<< 1) ^^^ poly else c <<< 1

/-- The byte in the top bits of a remainder. -/
def lift (b : BitVec 8) : BitVec w := b.setWidth w <<< (w - 8)

def top (c : BitVec w) : BitVec 8 := (c >>> (w - 8)).setWidth 8

/-- One more byte of the message. -/
def crcByte (c : BitVec w) (b : BitVec 8) : BitVec w := shifts poly 8 (c ^^^ lift b)

def crc (bytes : List (BitVec 8)) : BitVec w := bytes.foldl (crcByte poly) 0

variable {poly}

theorem shift_xor (a b : BitVec w) : shift poly (a ^^^ b) = shift poly a ^^^ shift poly b := by
  unfold shift
  rw [msb_xor, shiftLeft_xor_distrib]
  cases a.msb <;> cases b.msb
  · rfl
  · exact BitVec.xor_assoc ..
  · simp only [Bool.true_xor, Bool.not_false, if_true, Bool.false_eq_true, if_false]
    ac_rfl
  · -- the two polynomials cancel
    simp only [bne_self_eq_false, Bool.false_eq_true, if_false, if_true]
    rw [BitVec.xor_assoc, BitVec.xor_comm poly, BitVec.xor_assoc, BitVec.xor_self, BitVec.xor_zero]

theorem shifts_xor (n : ℕ) (a b : BitVec w) :
    shifts poly n (a ^^^ b) = shifts poly n a ^^^ shifts poly n b := by
  induction n with
  | zero => rfl
  | succ n ih => rw [shifts, ih, shift_xor]; rfl

/-- A remainder whose first bits are zero only moves up. -/
theorem shifts_low {c : BitVec w} {n : ℕ} (h : ∀ i < n, c.getMsbD i = false) :
    shifts poly n c = c <<< n := by
  induction n with
  | zero => exact (shiftLeft_zero c).symm
  | succ n ih =>
    have hmsb : (c <<< n).msb = false := by
      rw [BitVec.msb, BitVec.getMsbD_shiftLeft, Nat.zero_add]
      exact h n (by omega)
    rw [shifts, ih fun i hi => h i (by omega), shift, hmsb, if_neg (by decide),
      ← shiftLeft_add]

theorem lift_xor (a b : BitVec 8) : (lift (a ^^^ b) : BitVec w) = lift a ^^^ lift b := by
  rw [lift, setWidth_xor, shiftLeft_xor_distrib]
  rfl

theorem feed_eq (c : BitVec w) (bit : Bool) :
    feed poly c bit = shift poly c ^^^ if bit then poly else 0#w := by
  unfold feed shift
  cases c.msb <;> cases bit
  · exact (xor_zero).symm
  · rfl
  · exact (xor_zero).symm
  · show c <<< 1 = (c <<< 1 ^^^ poly) ^^^ poly
    rw [BitVec.xor_assoc, BitVec.xor_self, BitVec.xor_zero]

variable (hw : 8 ≤ w)
include hw

theorem getMsbD_lift (b : BitVec 8) {i : ℕ} (hi : i < 8) :
    (lift b : BitVec w).getMsbD i = b.getMsbD i := by
  have hge : ¬ w - 1 - i < w - 8 := by omega
  have hlt : w - 1 - i < w := by omega
  have hsub : w - 1 - i - (w - 8) = 7 - i := by omega
  simp [getMsbD, lift, hge, hlt, hsub, hi, show i < w by omega]

/-- Without its top byte, a remainder begins with zeros. -/
theorem getMsbD_xor_lift_top (c : BitVec w) {i : ℕ} (hi : i < 8) :
    (c ^^^ lift (top c)).getMsbD i = false := by
  have htop : (top c).getMsbD i = c.getMsbD i := by
    have hsum : w - 8 + (7 - i) = w - 1 - i := by omega
    have hlt : 7 - i < 8 := by omega
    simp [top, getMsbD, hsum, hlt, hi, show i < w by omega]
  rw [getMsbD_xor, getMsbD_lift hw _ hi, htop, Bool.xor_self]

theorem lift_shiftLeft (b : BitVec 8) : (lift b : BitVec w) <<< 8 = 0#w := by
  rw [lift, ← shiftLeft_add]
  exact shiftLeft_eq_zero (by omega)

/-- A byte at a time. -/
theorem crcByte_eq (c : BitVec w) (b : BitVec 8) :
    crcByte poly c b = (c <<< 8) ^^^ shifts poly 8 (lift (top c ^^^ b)) := by
  have hsplit : c ^^^ lift b = (c ^^^ lift (top c)) ^^^ lift (top c ^^^ b) := by
    rw [lift_xor, BitVec.xor_assoc, ← BitVec.xor_assoc (lift (top c)), BitVec.xor_self,
      zero_xor]
  have hlow : shifts poly 8 (c ^^^ lift (top c)) = c <<< 8 := by
    rw [shifts_low fun i hi => getMsbD_xor_lift_top hw c hi, shiftLeft_xor_distrib,
      lift_shiftLeft hw, xor_zero]
  rw [crcByte, hsplit, shifts_xor, hlow]

/-- The remainder from a table. -/
theorem foldl_table {table : BitVec 8 → BitVec w} (htable : ∀ b, table b = shifts poly 8 (lift b))
    (bytes : List (BitVec 8)) :
    bytes.foldl (fun (c : BitVec w) b => (c <<< 8) ^^^ table (top c ^^^ b)) 0 = crc poly bytes := by
  have hstep : (fun (c : BitVec w) b => (c <<< 8) ^^^ table (top c ^^^ b)) = crcByte poly := by
    funext c b
    rw [htable, crcByte_eq hw]
  rw [hstep, crc]

/-- `n` bits of a byte, while the others wait in the top bits. -/
theorem shifts_xor_lift (c : BitVec w) (b : BitVec 8) {n : ℕ} (hn : n ≤ 8) :
    shifts poly n (c ^^^ lift b) =
      ((range n).map b.getMsbD).foldl (feed poly) c ^^^ lift b <<< n := by
  induction n with
  | zero => rw [shiftLeft_zero]; rfl
  | succ n ih =>
    have hbit : shift poly ((lift b : BitVec w) <<< n) =
        (if b.getMsbD n then poly else 0#w) ^^^ lift b <<< (n + 1) := by
      rw [shift, BitVec.msb, BitVec.getMsbD_shiftLeft, Nat.zero_add, getMsbD_lift hw b (by omega),
        ← shiftLeft_add]
      cases b.getMsbD n
      · exact (zero_xor).symm
      · exact BitVec.xor_comm ..
    rw [shifts, ih (by omega), shift_xor, hbit, ← BitVec.xor_assoc, ← feed_eq, range_succ,
      map_append, foldl_append]
    rfl

/-- The remainder, bit by bit. -/
theorem crc_eq_foldl_feed (bytes : List (BitVec 8)) :
    crc poly bytes = (bytes.flatMap fun b => (range 8).map b.getMsbD).foldl (feed poly) 0 := by
  have hstep : crcByte poly = fun c b => ((range 8).map b.getMsbD).foldl (feed poly) c := by
    funext c b
    rw [crcByte, shifts_xor_lift hw c b le_rfl, lift_shiftLeft hw, xor_zero]
  rw [crc, hstep, foldl_flatMap]

end Crc
