import Mathlib.Data.List.DropRight
import RtThread.Lib.Circular
import RtThread.Lib.Runs

/-!
# Receiving by interrupts on a serial device

The software FIFO of `components/drivers/serial/serial.c`: `rt_hw_serial_isr` for
`RT_SERIAL_EVENT_RX_IND` puts the bytes that have arrived into it, and `rt_serial_read` takes
them out. Both protect one byte at a time, so that interrupts and other readers may come between
the bytes of a read. A byte for which there is no room takes the place of the oldest one.

* `Repr`: the FIFO holds the bytes of a list of less than `bufsz` bytes.
* `Repr.isrPut`, `Repr.takeByte`: what one byte does to them.
* `serial_receive`: in every run the FIFO holds the newest of the bytes that have been received
  since the last one that has been read.
* `overwritten_not_readable`: bytes that were received before one that has been read are gone.
-/

namespace RtThread

open Runs List Option Circular Nat Function

/-- `struct rt_serial_rx_fifo`. The indices are `rt_uint16_t`. -/
structure RxFifo where
  buffer : ℕ → UInt8
  putIndex : ℕ
  getIndex : ℕ

namespace RxFifo

/-- The FIFO that `rt_serial_open` sets up for `RT_DEVICE_FLAG_INT_RX`. -/
def rtSerialOpen : RxFifo := { buffer := fun _ => 0, putIndex := 0, getIndex := 0 }

/-- `index += 1; if (index >= bufsz) index = 0`. -/
def next (bufsz index : ℕ) : ℕ :=
  let index := (index + 1) % 2 ^ 16
  if index ≥ bufsz then 0 else index

variable (bufsz : ℕ) (fifo : RxFifo)

/-- A round of the loop of `rt_hw_serial_isr`, between the two calls that disable and enable
interrupts. -/
def isrPut (ch : UInt8) : RxFifo :=
  let fifo := { fifo with
    buffer := update fifo.buffer fifo.putIndex ch
    putIndex := next bufsz fifo.putIndex }
  -- if the next position is read index, discard this 'read char'
  if fifo.putIndex = fifo.getIndex then { fifo with getIndex := next bufsz fifo.getIndex }
  else fifo

/-- The length that is passed to `rx_indicate`. -/
def rxLength : ℕ :=
  if fifo.putIndex ≥ fifo.getIndex then fifo.putIndex - fifo.getIndex
  else bufsz - (fifo.getIndex - fifo.putIndex)

/-- `rt_hw_serial_isr` for `RT_SERIAL_EVENT_RX_IND`, where `getc` gives `bytes` and then -1: the
length for `rx_indicate`, and the FIFO. -/
def rtHwSerialIsr (bytes : List UInt8) : ℕ × RxFifo :=
  let fifo := bytes.foldl (isrPut bufsz) fifo
  (rxLength bufsz fifo, fifo)

/-- A round of the loop of `_serial_int_rx`, between the two calls that disable and enable
interrupts: `none` if there is no data. -/
def takeByte : Option (UInt8 × RxFifo) :=
  if fifo.getIndex ≠ fifo.putIndex then
    some (fifo.buffer fifo.getIndex, { fifo with getIndex := next bufsz fifo.getIndex })
  else none

/-- `_serial_int_rx`, if no interrupt comes between its rounds: the bytes it stores. -/
def serialIntRx : (length : ℕ) → RxFifo → List UInt8
  | 0, _ => []
  | length + 1, fifo =>
    match takeByte bufsz fifo with
    | none => []
    | some (ch, fifo) => ch :: serialIntRx length fifo

/-- The bytes that can be read: those that a read without interrupts finds, however long it is. -/
def readable : List UInt8 := serialIntRx bufsz bufsz fifo

/-! ## The bytes in the FIFO -/

/-- The FIFO holds the bytes of `q`, the oldest one at the read index. -/
structure Repr (bufsz : ℕ) (fifo : RxFifo) (q : List UInt8) : Prop where
  get_lt : fifo.getIndex < bufsz
  length_lt : q.length < bufsz
  put_eq : fifo.putIndex = (fifo.getIndex + q.length) % bufsz
  contents_eq : contents fifo.buffer bufsz fifo.getIndex q.length = q

variable {bufsz fifo} {q : List UInt8}

theorem repr_rtSerialOpen (hpos : 1 ≤ bufsz) : Repr bufsz rtSerialOpen [] where
  get_lt := hpos
  length_lt := hpos
  put_eq := (zero_mod bufsz).symm
  contents_eq := rfl

theorem Repr.put_lt (h : Repr bufsz fifo q) : fifo.putIndex < bufsz := by
  rw [h.put_eq]
  exact mod_lt _ (zero_lt_of_lt h.get_lt)

theorem next_eq {i : ℕ} (hsize : bufsz < 2 ^ 16) (hi : i < bufsz) :
    next bufsz i = (i + 1) % bufsz := by
  have hmod : (i + 1) % 2 ^ 16 = i + 1 := mod_eq_of_lt (by omega)
  simp only [next, hmod]
  exact wrap_eq_mod hi

theorem add_mod_ne {i n : ℕ} (hi : i < bufsz) (hpos : 0 < n) (hn : n < bufsz) :
    (i + n) % bufsz ≠ i := by
  have hne : (i + 0) % bufsz ≠ (i + n) % bufsz := index_ne hpos hn
  rw [add_zero, mod_eq_of_lt hi] at hne
  exact hne.symm

/-- The oldest byte is taken. -/
theorem Repr.takeByte_cons {ch : UInt8} (h : Repr bufsz fifo (ch :: q)) (hsize : bufsz < 2 ^ 16) :
    ∃ fifo', fifo.takeByte bufsz = some (ch, fifo') ∧ Repr bufsz fifo' q := by
  have hget := h.get_lt
  have hlen := h.length_lt
  have hcontents := h.contents_eq
  rw [length_cons] at hlen
  rw [length_cons, contents_take, mod_eq_of_lt hget] at hcontents
  obtain ⟨hch, hrest⟩ := cons.inj hcontents
  have hne : fifo.getIndex ≠ fifo.putIndex := by
    rw [h.put_eq]
    exact (add_mod_ne hget (succ_pos q.length) hlen).symm
  refine ⟨{ fifo with getIndex := next bufsz fifo.getIndex }, ?_, ?_, by omega, ?_, ?_⟩
  · rw [takeByte, if_pos hne, hch]
  · rw [next_eq hsize hget]
    exact mod_lt _ (by omega)
  · rw [h.put_eq, next_eq hsize hget, mod_add_mod, length_cons, add_right_comm,
      add_assoc]
  · rw [next_eq hsize hget]
    exact hrest

theorem Repr.takeByte_nil (h : Repr bufsz fifo []) : fifo.takeByte bufsz = none := by
  have heq : fifo.putIndex = fifo.getIndex := by
    rw [h.put_eq, length_nil, add_zero, mod_eq_of_lt h.get_lt]
  rw [takeByte, if_neg (not_not.mpr heq.symm)]

variable (h : Repr bufsz fifo q) (hsize : bufsz < 2 ^ 16)
include h hsize

/-- A byte is put behind the others. If there is no room for it, the oldest one goes. -/
theorem Repr.isrPut (ch : UInt8) :
    Repr bufsz (fifo.isrPut bufsz ch) ((q ++ [ch]).rtake (bufsz - 1)) := by
  have hlen := h.length_lt
  have hget := h.get_lt
  have hput : next bufsz fifo.putIndex = (fifo.getIndex + (q.length + 1)) % bufsz := by
    rw [next_eq hsize h.put_lt, h.put_eq, mod_add_mod, add_assoc]
  have hcontents : contents (update fifo.buffer fifo.putIndex ch) bufsz
      fifo.getIndex (q.length + 1) = q ++ [ch] := by
    rw [h.put_eq, contents_put hlen, h.contents_eq]
  unfold RxFifo.isrPut
  rw [hput]
  by_cases hroom : q.length + 1 < bufsz
  · have hne := add_mod_ne hget (succ_pos q.length) hroom
    have hkeep : (q ++ [ch]).rtake (bufsz - 1) = q ++ [ch] := by
      rw [rtake, length_append, length_singleton, Nat.sub_eq_zero_of_le (by omega), drop_zero]
    rw [if_neg hne, hkeep]
    refine ⟨hget, ?_, ?_, ?_⟩
    · simpa using hroom
    · simp
    · simpa using hcontents
  · have hfull : q.length + 1 = bufsz := by omega
    have heq : (fifo.getIndex + (q.length + 1)) % bufsz = fifo.getIndex := by
      rw [hfull, add_mod_right, mod_eq_of_lt hget]
    have hdrop : (q ++ [ch]).rtake (bufsz - 1) = (q ++ [ch]).tail := by
      rw [rtake, length_append, length_singleton, ← drop_one]
      congr 1
      omega
    have hlength : (q ++ [ch]).tail.length = q.length := by simp
    rw [contents_take] at hcontents
    rw [if_pos heq, hdrop]
    refine ⟨?_, ?_, ?_, ?_⟩
    · rw [next_eq hsize hget]
      exact mod_lt _ (by omega)
    · rw [hlength]
      exact hlen
    · rw [next_eq hsize hget, hlength, mod_add_mod, add_right_comm, add_assoc]
    · rw [hlength, next_eq hsize hget, ← hcontents, tail_cons]

theorem Repr.serialIntRx (length : ℕ) : serialIntRx bufsz length fifo = q.take length := by
  induction length generalizing fifo q with
  | zero => rfl
  | succ length ih =>
    rw [serialIntRx]
    cases q with
    | nil =>
      rw [h.takeByte_nil]
      rfl
    | cons ch q =>
      obtain ⟨fifo', htake, h'⟩ := h.takeByte_cons hsize
      simp only [htake, ih h', take_succ_cons]

/-- All the bytes in the FIFO can be read. -/
theorem Repr.readable : fifo.readable bufsz = q := by
  rw [RxFifo.readable, h.serialIntRx hsize, take_of_length_le h.length_lt.le]

end RxFifo

/-! ## Interrupts and readers -/

/-- A call of `rt_serial_read` that has not returned: the bytes it is still to read, and those it
has stored. -/
structure SerialRead where
  length : ℕ
  data : List UInt8

/-- A serial device with its FIFO, and the reads of the threads `ι`. -/
structure SerialSys (ι : Type*) where
  fifo : RxFifo
  reads : ι → Option SerialRead

namespace SerialSys

variable {ι : Type*} {bufsz : ℕ} {s s' : SerialSys ι} {out : Out}

/-- The steps: an interrupt, a call of `rt_serial_read` by a thread, and a round of the loop of its
call. -/
inductive Op (ι : Type*)
  | isr (bytes : List UInt8)
  | read (t : ι) (size : ℕ)
  | round (t : ι)

/-- What can be seen of a step: the length for `rx_indicate`, that a read goes on, a byte that it
has taken, or the bytes with which it returns. -/
inductive Out
  | indicate (rxLength : ℕ)
  | calls
  | byte (ch : UInt8)
  | returns (data : List UInt8)
  deriving DecidableEq

def setRead [DecidableEq ι] (s : SerialSys ι) (t : ι) (r : Option SerialRead) : SerialSys ι :=
  { s with reads := update s.reads t r }

def step [DecidableEq ι] (bufsz : ℕ) (s : SerialSys ι) : Op ι → Option (Out × SerialSys ι)
  | .isr bytes =>
    let r := s.fifo.rtHwSerialIsr bufsz bytes
    some (.indicate r.1, { s with fifo := r.2 })
  | .read t size =>
    match s.reads t with
    | none =>
      if size = 0 then some (.returns [], s)
      else some (.calls, s.setRead t (some { length := size, data := [] }))
    | some _ => none
  | .round t =>
    match s.reads t with
    | none => none
    | some r =>
      match r.length with
      | 0 => some (.returns r.data, s.setRead t none)
      | length + 1 =>
        match s.fifo.takeByte bufsz with
        -- no data, enable interrupt and break out
        | none => some (.returns r.data, s.setRead t none)
        | some (ch, fifo) =>
          some (.byte ch, { s with fifo := fifo }.setRead t
            (some { length := length, data := r.data ++ [ch] }))

/-- The device after it has been opened, before any thread reads from it. -/
def opened : SerialSys ι := { fifo := .rtSerialOpen, reads := fun _ => none }

/-! ## Which bytes can be read -/

/-- The bytes that have been received since the last one that has been read, when `q` are those
before the step. A byte that is read is the oldest of the newest `bufsz - 1`. -/
def sinceRead (bufsz : ℕ) (q : List UInt8) : Op ι × Out → List UInt8
  | (.isr bytes, _) => q ++ bytes
  | (_, .byte _) => (q.rtake (bufsz - 1)).tail
  | _ => q

/-- The bytes that have been received since the last one that has been read, or since the device has
been opened. -/
def unread (bufsz : ℕ) (tr : List (Op ι × Out)) : List UInt8 := tr.foldl (sinceRead bufsz) []

theorem unread_snoc (bufsz : ℕ) (tr : List (Op ι × Out)) (e : Op ι × Out) :
    unread bufsz (tr ++ [e]) = sinceRead bufsz (unread bufsz tr) e := by
  simp [unread]

/-- Every byte that has been read was the oldest one that could be read. -/
def ReadsOldest (bufsz : ℕ) (tr : List (Op ι × Out)) : Prop :=
  ∀ pre op ch post, tr = pre ++ (op, .byte ch) :: post →
    ((unread bufsz pre).rtake (bufsz - 1)).head? = some ch

theorem readsOldest_snoc {tr : List (Op ι × Out)} {e : Op ι × Out} (h : ReadsOldest bufsz tr)
    (he : ∀ ch, e.2 = .byte ch → ((unread bufsz tr).rtake (bufsz - 1)).head? = some ch) :
    ReadsOldest bufsz (tr ++ [e]) := by
  intro pre op ch post heq
  rcases eq_nil_or_concat post with rfl | ⟨post, e', rfl⟩
  · obtain ⟨rfl, hlast⟩ := append_inj' heq rfl
    obtain rfl := singleton_inj.mp hlast
    exact he ch rfl
  · rw [concat_eq_append, ← cons_append, ← append_assoc] at heq
    obtain ⟨rfl, -⟩ := append_inj' heq rfl
    exact h pre op ch post rfl

/-- The newest bytes of a list are not changed by what was before them. -/
theorem rtake_rtake_append (u : List UInt8) (ch : UInt8) (n : ℕ) :
    (u.rtake n ++ [ch]).rtake n = (u ++ [ch]).rtake n := by
  cases n with
  | zero => rw [rtake_zero, rtake_zero]
  | succ n =>
    rw [rtake_concat_succ, rtake_concat_succ]
    congr 1
    simp only [rtake, length_drop, drop_drop]
    congr 1
    omega

theorem repr_isr {fifo : RxFifo} {u : List UInt8} (hsize : bufsz < 2 ^ 16)
    (h : RxFifo.Repr bufsz fifo (u.rtake (bufsz - 1))) (bytes : List UInt8) :
    RxFifo.Repr bufsz (fifo.rtHwSerialIsr bufsz bytes).2 ((u ++ bytes).rtake (bufsz - 1)) := by
  induction bytes generalizing fifo u with
  | nil => rwa [append_nil]
  | cons ch bytes ih =>
    have hput := h.isrPut hsize ch
    rw [rtake_rtake_append] at hput
    rw [← singleton_append, ← append_assoc]
    exact ih hput

/-- The FIFO holds the newest of the unread bytes, and the bytes were read in their order. -/
structure Inv (bufsz : ℕ) (tr : List (Op ι × Out)) (s : SerialSys ι) : Prop where
  repr : s.fifo.Repr bufsz ((unread bufsz tr).rtake (bufsz - 1))
  reads : ReadsOldest bufsz tr

/-- A step that takes no byte and leaves the FIFO as it is. -/
theorem Inv.idle {tr : List (Op ι × Out)} (h : Inv bufsz tr s) {op : Op ι}
    (hsame : sinceRead bufsz (unread bufsz tr) (op, out) = unread bufsz tr)
    (hbyte : ∀ ch, out ≠ .byte ch) (hfifo : s'.fifo = s.fifo) :
    Inv bufsz (tr ++ [(op, out)]) s' where
  repr := by
    rw [unread_snoc, hsame, hfifo]
    exact h.repr
  reads := readsOldest_snoc h.reads fun ch hch => absurd hch (hbyte ch)

variable [DecidableEq ι]

/-- One step. -/
theorem Inv.step (hsize : bufsz < 2 ^ 16) {tr : List (Op ι × Out)} {op : Op ι} (h : Inv bufsz tr s)
    (hstep : s.step bufsz op = some (out, s')) : Inv bufsz (tr ++ [(op, out)]) s' := by
  cases op with
  | isr bytes =>
    obtain ⟨rfl, rfl⟩ := Prod.mk.inj (some.inj hstep)
    refine ⟨?_, readsOldest_snoc h.reads fun ch hch => by cases hch⟩
    rw [unread_snoc]
    exact repr_isr hsize h.repr bytes
  | read t size =>
    simp only [SerialSys.step] at hstep
    split at hstep
    · split_ifs at hstep
      · obtain ⟨rfl, rfl⟩ := Prod.mk.inj (some.inj hstep)
        exact h.idle rfl (fun ch => by simp) rfl
      · obtain ⟨rfl, rfl⟩ := Prod.mk.inj (some.inj hstep)
        exact h.idle rfl (fun ch => by simp) rfl
    · cases hstep
  | round t =>
    simp only [SerialSys.step] at hstep
    split at hstep
    · cases hstep
    · split at hstep
      · obtain ⟨rfl, rfl⟩ := Prod.mk.inj (some.inj hstep)
        exact h.idle rfl (fun ch => by simp) rfl
      · have hrepr := h.repr
        cases hq : (unread bufsz tr).rtake (bufsz - 1) with
        | nil =>
          rw [hq] at hrepr
          rw [hrepr.takeByte_nil] at hstep
          obtain ⟨rfl, rfl⟩ := Prod.mk.inj (some.inj hstep)
          exact h.idle rfl (fun ch => by simp) rfl
        | cons ch q =>
          rw [hq] at hrepr
          obtain ⟨fifo', htake, hrepr'⟩ := hrepr.takeByte_cons hsize
          rw [htake] at hstep
          obtain ⟨rfl, rfl⟩ := Prod.mk.inj (some.inj hstep)
          have hall : q.rtake (bufsz - 1) = q := by
            have := hrepr'.length_lt
            rw [rtake, Nat.sub_eq_zero_of_le (by omega), drop_zero]
          have hsince : sinceRead bufsz (unread bufsz tr) (.round t, .byte ch) = q :=
            congrArg tail hq
          refine ⟨?_, readsOldest_snoc h.reads fun ch' hch => ?_⟩
          · rw [unread_snoc, hsince, hall]
            exact hrepr'
          · obtain rfl := Out.byte.inj hch
            rw [hq, head?_cons]

/-- In every interleaving of interrupts with the rounds of reads the indices stay below `bufsz`, and
what can be read are the newest of the bytes that have been received since the last one that has
been read, in the order in which they came. -/
theorem serial_receive {bufsz : ℕ} (hpos : 1 ≤ bufsz) (hsize : bufsz < 2 ^ 16)
    {tr : List (Op ι × Out)} {s : SerialSys ι} (h : Run (SerialSys.step bufsz) opened tr s) :
    s.fifo.putIndex < bufsz ∧ s.fifo.getIndex < bufsz ∧
      s.fifo.readable bufsz = (unread bufsz tr).rtake (min (unread bufsz tr).length (bufsz - 1)) ∧
      ReadsOldest bufsz tr := by
  have hopened : Inv bufsz ([] : List (Op ι × Out)) opened := by
    have hrepr := RxFifo.repr_rtSerialOpen hpos
    rw [← rtake_nil (bufsz - 1)] at hrepr
    refine ⟨hrepr, fun pre op ch post heq => ?_⟩
    simp at heq
  have hinv := h.invTrace hopened fun _ _ _ _ _ => Inv.step hsize
  have hnewest : (unread bufsz tr).rtake (min (unread bufsz tr).length (bufsz - 1)) =
      (unread bufsz tr).rtake (bufsz - 1) := by
    simp only [rtake]
    congr 1
    omega
  refine ⟨hinv.repr.put_lt, hinv.repr.get_lt, ?_, hinv.reads⟩
  rw [hnewest]
  exact hinv.repr.readable hsize

/-- A FIFO of four bytes, which has room for three: five bytes arrive and one is read. -/
def sampleTrace : List (Op ℕ × Out) :=
  [(.isr [1, 2, 3, 4, 5], .indicate 3), (.read 0 1, .calls), (.round 0, .byte 3)]

theorem sampleTrace_run :
    ∃ s : SerialSys ℕ, Run (step 4) opened sampleTrace s ∧ s.fifo.readable 4 = [4, 5] :=
  ⟨_, .snoc (.snoc (.snoc .nil rfl) rfl) rfl, by decide⟩

theorem serial_receive_sample :
    ∃ s : SerialSys ℕ, Run (step 4) opened sampleTrace s ∧ s.fifo.putIndex < 4 ∧
      s.fifo.readable 4 = (unread 4 sampleTrace).rtake (min (unread 4 sampleTrace).length 3) := by
  obtain ⟨s, hrun, -⟩ := sampleTrace_run
  obtain ⟨hput, -, hreadable, -⟩ := serial_receive (by decide) (by decide) hrun
  exact ⟨s, hrun, hput, hreadable⟩

/-- The bytes that have been received. -/
def received : List (Op ι × Out) → List UInt8
  | [] => []
  | (.isr bytes, _) :: tr => bytes ++ received tr
  | _ :: tr => received tr

/-- The bytes that have been read. -/
def readBytes : List (Op ι × Out) → List UInt8
  | [] => []
  | (_, .byte ch) :: tr => ch :: readBytes tr
  | _ :: tr => readBytes tr

/-- Of the bytes that have been received and not been read, here 1, 2, 4 and 5, the newest three are
not what can be read: 2 was received before the byte that has been read, and was overwritten. -/
theorem overwritten_not_readable :
    ∃ s : SerialSys ℕ, Run (step 4) opened sampleTrace s ∧
      (received sampleTrace).diff (readBytes sampleTrace) = [1, 2, 4, 5] ∧
      s.fifo.readable 4 ≠
        ((received sampleTrace).diff (readBytes sampleTrace)).rtake (min 4 (4 - 1)) := by
  obtain ⟨s, hrun, hreadable⟩ := sampleTrace_run
  refine ⟨s, hrun, by decide, ?_⟩
  rw [hreadable]
  decide

end SerialSys

end RtThread
