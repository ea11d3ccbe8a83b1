import RtThread.Drivers.Serial

/-!
# Receiving by DMA on a serial device

The receive FIFO of `components/drivers/serial/serial.c` for `RT_DEVICE_FLAG_DMA_RX` and a
`bufsz` that is not 0. The hardware writes the bytes, `rt_hw_serial_isr` moves `put_index` on by
the length that comes with `RT_SERIAL_EVENT_RX_DMADONE`, and `_serial_dma_rx` copies bytes from
`get_index` on. Both indices are of 16 bits. Where `put_index` passes the end of the buffer,
`bufsz` is subtracted once more than it goes into the length, which is right only if the rest of
the length takes `put_index` past the end; and `get_index` may become `bufsz` itself.

* `WellFormed`: the indices are below `bufsz`.
* `WellFormed.rtDmaRecvUpdatePutIndex`, `WellFormed.serialDmaRx`: what keeps them there.
* `dma_receive_fifo`: the same along every run; `event_of_whole_buffer`: the length `bufsz`.
-/

namespace RtThread

open Runs List Option Nat Prod

/-- The conversion of an `int` to `rt_size_t`. -/
def rtSizeT (n : ℤ) : ℕ := (n % 2 ^ 32).toNat

theorem rtSizeT_of_lt {n : ℕ} (h : n < 2 ^ 32) : rtSizeT n = n := by
  unfold rtSizeT
  omega

namespace RxFifo

variable (bufsz : ℕ) (fifo : RxFifo)

/-- `rt_dma_calc_recved_len`. -/
def rtDmaCalcRecvedLen : ℕ :=
  if fifo.putIndex ≥ fifo.getIndex then fifo.putIndex - fifo.getIndex
  else rtSizeT (bufsz - (fifo.getIndex - fifo.putIndex))

/-- `rt_dma_recv_update_get_index`: `none` if the assertion fails. -/
def rtDmaRecvUpdateGetIndex (len : ℕ) : Option RxFifo :=
  if len ≤ rtDmaCalcRecvedLen bufsz fifo then
    let getIndex := (fifo.getIndex + len) % 2 ^ 16
    some { fifo with getIndex := if getIndex > bufsz then getIndex - bufsz else getIndex }
  else none

/-- The loop of `rt_dma_recv_update_put_index`. It does not end if `len / bufsz` is the largest
`rt_size_t`. -/
def subtractRounds (len putIndex : ℕ) : Option ℕ :=
  if len / bufsz = 2 ^ 32 - 1 then none
  else some ((fun putIndex => (putIndex + 2 ^ 16 - bufsz) % 2 ^ 16)^[len / bufsz + 1] putIndex)

/-- `rt_dma_recv_update_put_index`. -/
def rtDmaRecvUpdatePutIndex (len : ℕ) : Option RxFifo :=
  let putIndex := (fifo.putIndex + len) % 2 ^ 16
  if fifo.getIndex ≤ fifo.putIndex then
    -- beyond the fifo end
    if putIndex ≥ bufsz then
      (subtractRounds bufsz len putIndex).map fun putIndex =>
        -- force overwrite get index
        if putIndex ≥ fifo.getIndex then
          { fifo with putIndex, getIndex := (putIndex + 1) % 2 ^ 16 }
        else { fifo with putIndex }
    else some { fifo with putIndex }
  else if putIndex ≥ fifo.getIndex then
    (if putIndex ≥ bufsz then subtractRounds bufsz len putIndex else some putIndex).map
      fun putIndex => { fifo with putIndex, getIndex := (putIndex + 1) % 2 ^ 16 }
  else some { fifo with putIndex }

/-- The length in an event, `(event & (~0xff)) >> 8`, as an `rt_size_t`. -/
def dmaLength (event : BitVec 32) : ℕ := ((event &&& ~~~0xff#32).sshiftRight 8).toNat

/-- `rt_hw_serial_isr` for `RT_SERIAL_EVENT_RX_DMADONE`: the length for `rx_indicate`, and the FIFO.
-/
def rtHwSerialIsrRxDmadone (event : BitVec 32) : Option (ℕ × RxFifo) :=
  (rtDmaRecvUpdatePutIndex bufsz fifo (dmaLength event)).map fun fifo =>
    (rtDmaCalcRecvedLen bufsz fifo, fifo)

/-- A call of `rt_memcpy` that copies from the FIFO: where in the buffer it starts, and the number
of bytes. -/
structure Piece where
  start : ℕ
  count : ℕ
  deriving DecidableEq

/-- `recv_len` of `_serial_dma_rx`. The comparison is one of `rt_size_t`. -/
def recvLen (length : BitVec 32) : ℕ :=
  if length.toNat < rtDmaCalcRecvedLen bufsz fifo then length.toNat
  else rtDmaCalcRecvedLen bufsz fifo

/-- `_serial_dma_rx`: the number of bytes it returns, what it copies, and the FIFO. -/
def serialDmaRx (length : BitVec 32) : Option ((ℕ × List Piece) × RxFifo) :=
  let recvLen := recvLen bufsz fifo length
  let pieces : List Piece :=
    if (fifo.getIndex + recvLen) % 2 ^ 32 < bufsz then [⟨fifo.getIndex, recvLen⟩]
    else
      [⟨fifo.getIndex, rtSizeT (bufsz - fifo.getIndex)⟩,
        ⟨0, rtSizeT (recvLen + fifo.getIndex - bufsz)⟩]
  (rtDmaRecvUpdateGetIndex bufsz fifo recvLen).map fun fifo => ((recvLen, pieces), fifo)

/-- An interrupt at the end of a DMA transfer, or a read. -/
inductive DmaOp
  | rxDmadone (event : BitVec 32)
  | read (length : BitVec 32)
  deriving DecidableEq

/-- The length for `rx_indicate`, or the number of bytes of a read and the copies it has made. -/
inductive DmaOut
  | indicate (rxLength : ℕ)
  | copied (recvLen : ℕ) (pieces : List Piece)
  deriving DecidableEq

def dmaStep : DmaOp → Option (DmaOut × RxFifo)
  | .rxDmadone event =>
    (rtHwSerialIsrRxDmadone bufsz fifo event).map fun r => (.indicate r.1, r.2)
  | .read length =>
    (serialDmaRx bufsz fifo length).map fun r => (.copied r.1.1 r.1.2, r.2)

/-! ## The indices -/

variable {bufsz fifo}

/-- Both indices are inside the buffer. -/
structure WellFormed (bufsz : ℕ) (fifo : RxFifo) : Prop where
  get_lt : fifo.getIndex < bufsz
  put_lt : fifo.putIndex < bufsz

/-- The bytes that are copied are in the buffer. -/
def Piece.Inside (bufsz : ℕ) (p : Piece) : Prop := p.start + p.count ≤ bufsz

theorem wellFormed_rtSerialOpen (hpos : 1 ≤ bufsz) : WellFormed bufsz rtSerialOpen := ⟨hpos, hpos⟩

theorem WellFormed.rtDmaCalcRecvedLen (h : WellFormed bufsz fifo) (hsize : bufsz < 2 ^ 16) :
    rtDmaCalcRecvedLen bufsz fifo =
      if fifo.getIndex ≤ fifo.putIndex then fifo.putIndex - fifo.getIndex
      else bufsz - fifo.getIndex + fifo.putIndex := by
  have hget := h.get_lt
  unfold RxFifo.rtDmaCalcRecvedLen
  split_ifs with hle
  · rfl
  · have heq : (bufsz : ℤ) - (fifo.getIndex - fifo.putIndex) =
        (bufsz - fifo.getIndex + fifo.putIndex : ℕ) := by omega
    rw [heq, rtSizeT_of_lt (by omega)]

theorem WellFormed.rtDmaCalcRecvedLen_le (h : WellFormed bufsz fifo) (hsize : bufsz < 2 ^ 16) :
    RxFifo.rtDmaCalcRecvedLen bufsz fifo ≤ bufsz - 1 := by
  have hput := h.put_lt
  rw [h.rtDmaCalcRecvedLen hsize]
  split_ifs <;> omega

theorem recvLen_le (length : BitVec 32) :
    recvLen bufsz fifo length ≤ rtDmaCalcRecvedLen bufsz fifo := by
  unfold recvLen
  split_ifs with h
  · exact h.le
  · exact le_rfl

/-- The assertion in `rt_dma_recv_update_get_index` holds for every read. -/
theorem serialDmaRx_isSome (length : BitVec 32) : (serialDmaRx bufsz fifo length).isSome := by
  unfold serialDmaRx rtDmaRecvUpdateGetIndex
  dsimp only
  rw [if_pos (recvLen_le length)]
  rfl

/-- The rounds of the loop take `bufsz` away as often as it goes into `len`, and once more. -/
theorem subtractRounds_eq {len p : ℕ} (hpos : 1 ≤ bufsz) (hpast : bufsz ≤ p + len % bufsz)
    (hlt : p + len < 2 ^ 16) :
    subtractRounds bufsz len (p + len) = some (p + len % bufsz - bufsz) := by
  have hrounds : ∀ n x, bufsz * n ≤ x → x < 2 ^ 16 →
      (fun i => (i + 2 ^ 16 - bufsz) % 2 ^ 16)^[n] x = x - bufsz * n := by
    intro n
    induction n with
    | zero => intro x _ _; rfl
    | succ n ih =>
      intro x hle hx
      rw [mul_succ] at hle
      rw [Function.iterate_succ_apply, ih _ (by omega) (by omega), mul_succ]
      omega
  have hdiv := div_add_mod len bufsz
  have hle : len / bufsz ≤ len := div_le_self len bufsz
  unfold subtractRounds
  rw [if_neg (by omega), hrounds _ _ (by rw [mul_succ]; omega) hlt, mul_succ]
  congr 1
  omega

/-- What an event needs. The length does not take `put_index` to the end of the buffer, and not to
its last byte either if `get_index` is then set to the one after it; or its rest takes `put_index`
past the end, and `put_index` does not overflow. -/
def EventOk (bufsz : ℕ) (fifo : RxFifo) (len : ℕ) : Prop :=
  fifo.putIndex + len + 1 < bufsz ∨
    (fifo.getIndex ≤ fifo.putIndex ∧ fifo.putIndex + len < bufsz) ∨
    (bufsz ≤ fifo.putIndex + len % bufsz ∧ fifo.putIndex + len < 2 ^ 16)
  deriving Decidable

section

variable (h : WellFormed bufsz fifo) (hsize : bufsz < 2 ^ 16) {fifo' : RxFifo} {length : BitVec 32}
include h hsize

theorem WellFormed.rtDmaRecvUpdatePutIndex {len : ℕ} (hok : EventOk bufsz fifo len) :
    ∃ fifo', rtDmaRecvUpdatePutIndex bufsz fifo len = some fifo' ∧ WellFormed bufsz fifo' := by
  have hget := h.get_lt
  have hput := h.put_lt
  have hpos : 1 ≤ bufsz := one_le_of_lt hget
  have hmod : (fifo.putIndex + len) % 2 ^ 16 = fifo.putIndex + len := by
    refine mod_eq_of_lt ?_
    rcases hok with hlt | ⟨-, hlt⟩ | ⟨-, hlt⟩ <;> omega
  have hrest : len % bufsz ≤ len := mod_le len bufsz
  unfold RxFifo.rtDmaRecvUpdatePutIndex
  simp only [hmod]
  by_cases hpast : bufsz ≤ fifo.putIndex + len
  · -- then the rest of the length takes the index past the end, by less than `bufsz - 1`
    obtain ⟨hwrap, hlt⟩ : bufsz ≤ fifo.putIndex + len % bufsz ∧ fifo.putIndex + len < 2 ^ 16 := by
      rcases hok with hlt | ⟨-, hlt⟩ | hwrap
      · omega
      · omega
      · exact hwrap
    have hmodlt : len % bufsz < bufsz := mod_lt len hpos
    have hnext : (fifo.putIndex + len % bufsz - bufsz + 1) % 2 ^ 16 =
        fifo.putIndex + len % bufsz - bufsz + 1 := mod_eq_of_lt (by omega)
    simp only [ge_iff_le, if_pos hpast, subtractRounds_eq hpos hwrap hlt, map_some, hnext]
    split_ifs
    · exact ⟨_, rfl, by dsimp only; omega, by dsimp only; omega⟩
    · exact ⟨_, rfl, by omega, by dsimp only; omega⟩
    · exact ⟨_, rfl, by dsimp only; omega, by dsimp only; omega⟩
    · omega
  · split_ifs with hle hover
    · exact ⟨_, rfl, hget, by dsimp only; omega⟩
    · have hnext : (fifo.putIndex + len + 1) % 2 ^ 16 = fifo.putIndex + len + 1 :=
        mod_eq_of_lt (by omega)
      refine ⟨_, rfl, ?_, by dsimp only; omega⟩
      dsimp only
      rw [hnext]
      rcases hok with hlt | ⟨hle', -⟩ | ⟨hwrap, -⟩
      · exact hlt
      · omega
      · omega
    · exact ⟨_, rfl, hget, by dsimp only; omega⟩

/-- What a read needs: if there are bytes up to the end of the buffer, it does not stop just there.
-/
def ReadOk (bufsz : ℕ) (fifo : RxFifo) (length : ℕ) : Prop :=
  fifo.getIndex ≤ fifo.putIndex ∨
    min length (bufsz - fifo.getIndex + fifo.putIndex) ≠ bufsz - fifo.getIndex
  deriving Decidable

/-- A read copies from inside the buffer, whatever its length. -/
theorem WellFormed.serialDmaRx_inside {n : ℕ} {pieces : List Piece}
    (hread : serialDmaRx bufsz fifo length = some ((n, pieces), fifo')) :
    ∀ p ∈ pieces, p.Inside bufsz := by
  have hget := h.get_lt
  have hrecv : recvLen bufsz fifo length ≤ _ :=
    (recvLen_le length).trans (h.rtDmaCalcRecvedLen_le hsize)
  obtain ⟨_, -, heq⟩ := map_eq_some_iff.mp hread
  obtain ⟨⟨-, rfl⟩, -⟩ := Prod.mk.inj heq |>.imp_left Prod.mk.inj
  generalize recvLen bufsz fifo length = n at hrecv
  have hfirst : (bufsz : ℤ) - fifo.getIndex = (bufsz - fifo.getIndex : ℕ) := by omega
  unfold Piece.Inside
  intro p hp
  rw [mod_eq_of_lt (by omega : fifo.getIndex + n < 2 ^ 32)] at hp
  split_ifs at hp with hlt
  · obtain rfl := mem_singleton.mp hp
    exact hlt.le
  · have hsecond : (n : ℤ) + fifo.getIndex - bufsz = (n + fifo.getIndex - bufsz : ℕ) := by omega
    rw [hfirst, hsecond, rtSizeT_of_lt (by omega), rtSizeT_of_lt (by omega)] at hp
    simp only [mem_cons, not_mem_nil, or_false] at hp
    rcases hp with rfl | rfl <;> dsimp only <;> omega

theorem WellFormed.serialDmaRx (hok : ReadOk bufsz fifo length.toNat) {r : ℕ × List Piece}
    (hread : serialDmaRx bufsz fifo length = some (r, fifo')) : WellFormed bufsz fifo' := by
  have hget := h.get_lt
  have hput := h.put_lt
  have hcalc := h.rtDmaCalcRecvedLen hsize
  unfold RxFifo.serialDmaRx rtDmaRecvUpdateGetIndex at hread
  dsimp only at hread
  rw [if_pos (recvLen_le length)] at hread
  obtain ⟨_, -, rfl⟩ := Prod.mk.inj (some.inj hread)
  refine ⟨?_, hput⟩
  dsimp only
  -- a read ends below `bufsz`, or above it by less than `bufsz`
  have hne : fifo.getIndex + recvLen bufsz fifo length ≠ bufsz := by
    unfold recvLen
    rw [hcalc]
    unfold ReadOk at hok
    split_ifs <;> omega
  have hle : recvLen bufsz fifo length ≤ _ :=
    (recvLen_le length).trans (h.rtDmaCalcRecvedLen_le hsize)
  split_ifs <;> omega

/-! ## Runs -/

/-- The condition on a step. -/
def DmaOk (bufsz : ℕ) (fifo : RxFifo) : DmaOp → Prop
  | .rxDmadone event => EventOk bufsz fifo (dmaLength event)
  | .read length => ReadOk bufsz fifo length.toNat

instance : ∀ op : DmaOp, Decidable (DmaOk bufsz fifo op)
  | .rxDmadone event => inferInstanceAs (Decidable (EventOk bufsz fifo (dmaLength event)))
  | .read length => inferInstanceAs (Decidable (ReadOk bufsz fifo length.toNat))

/-- The copies of a read are inside the buffer. -/
def DmaOut.Inside (bufsz : ℕ) : DmaOut → Prop
  | .indicate _ => True
  | .copied _ pieces => ∀ p ∈ pieces, p.Inside bufsz

theorem WellFormed.dmaStep {op : DmaOp} {out : DmaOut} (hok : DmaOk bufsz fifo op)
    (hstep : dmaStep bufsz fifo op = some (out, fifo')) :
    WellFormed bufsz fifo' ∧ out.Inside bufsz := by
  cases op with
  | rxDmadone event =>
    obtain ⟨fifo₁, hput, hwf⟩ := h.rtDmaRecvUpdatePutIndex hsize hok
    simp only [RxFifo.dmaStep, rtHwSerialIsrRxDmadone, hput, map_some] at hstep
    obtain ⟨rfl, rfl⟩ := Prod.mk.inj (some.inj hstep)
    exact ⟨hwf, trivial⟩
  | read length =>
    obtain ⟨⟨⟨n, pieces⟩, fifo₁⟩, hread, heq⟩ := map_eq_some_iff.mp hstep
    obtain ⟨rfl, rfl⟩ := Prod.mk.inj heq
    exact ⟨h.serialDmaRx hsize hok hread, h.serialDmaRx_inside hsize hread⟩

end

/-- In every run of events and reads that all satisfy `DmaOk` the indices stay below `bufsz`, the
received length is at most `bufsz - 1`, and every read copies from inside the buffer. -/
theorem dma_receive_fifo {bufsz : ℕ} (hpos : 1 ≤ bufsz) (hsize : bufsz < 2 ^ 16)
    {tr : List (DmaOp × DmaOut)} {fifo : RxFifo}
    (h : StepsSatisfy (dmaStep bufsz) (DmaOk bufsz) rtSerialOpen tr fifo) :
    fifo.getIndex < bufsz ∧ fifo.putIndex < bufsz ∧
      rtDmaCalcRecvedLen bufsz fifo ≤ bufsz - 1 ∧ ∀ e ∈ tr, e.2.Inside bufsz := by
  obtain ⟨hwf, hinside⟩ := StepsSatisfy.invTrace
    (I := fun tr fifo => WellFormed bufsz fifo ∧ ∀ e ∈ tr, e.2.Inside bufsz)
    ⟨wellFormed_rtSerialOpen hpos, by simp⟩
    (fun tr fifo op out fifo' hinv hok hstep => by
      obtain ⟨hwf, hout⟩ := hinv.1.dmaStep hsize hok hstep
      refine ⟨hwf, fun e he => ?_⟩
      rcases mem_append.mp he with he | he
      · exact hinv.2 e he
      · obtain rfl := mem_singleton.mp he
        exact hout) h
  exact ⟨hwf.get_lt, hwf.put_lt, hwf.rtDmaCalcRecvedLen_le hsize, hinside⟩

/-- A FIFO of eight bytes: six bytes arrive and are read, then five, of which four are read. -/
def sampleDmaOps : List DmaOp := [.rxDmadone 0x603, .read 16, .rxDmadone 0x503, .read 4]

theorem dma_receive_fifo_sample :
    ∃ tr fifo, StepsSatisfy (dmaStep 8) (DmaOk 8) rtSerialOpen tr fifo ∧
      tr.map fst = sampleDmaOps ∧ fifo.putIndex = 3 ∧ fifo.getIndex = 2 ∧
      fifo.putIndex < 8 ∧ ∀ e ∈ tr, e.2.Inside 8 := by
  have hsome : (exec (guard (DmaOk 8) (dmaStep 8)) rtSerialOpen sampleDmaOps).isSome := by decide
  have hrun := StepsSatisfy.of_isSome hsome
  obtain ⟨-, hput, -, hinside⟩ := dma_receive_fifo (by decide) (by decide) hrun
  exact ⟨_, _, hrun, rfl, rfl, rfl, hput, hinside⟩

/-- Four bytes that arrive at once in a FIFO of four take `put_index` to 65532, and the next read
copies from there. A read that stops at the end of the buffer leaves `get_index` at 4. -/
theorem event_of_whole_buffer :
    (∃ tr fifo, Run (dmaStep 4) rtSerialOpen tr fifo ∧
      tr.map fst = [.rxDmadone 0x403, .read 1] ∧ fifo.putIndex = 65532 ∧
      ∃ e ∈ tr, ¬ e.2.Inside 4) ∧
    ∃ tr fifo, Run (dmaStep 4) rtSerialOpen tr fifo ∧
      tr.map fst = [.rxDmadone 0x303, .read 3, .rxDmadone 0x103, .read 1] ∧
      fifo.getIndex = 4 := by
  have hwhole : (exec (dmaStep 4) rtSerialOpen [.rxDmadone 0x403, .read 1]).isSome := by decide
  have hend : (exec (dmaStep 4) rtSerialOpen
      [.rxDmadone 0x303, .read 3, .rxDmadone 0x103, .read 1]).isSome := by decide
  refine ⟨⟨_, _, .of_isSome hwhole, rfl, rfl, ?_⟩, _, _, .of_isSome hend, rfl, rfl⟩
  refine ⟨_, mem_cons_of_mem _ (mem_cons_self ..), fun hinside => ?_⟩
  exact absurd (hinside _ (mem_cons_self ..)) (by unfold Piece.Inside; decide)

end RxFifo

end RtThread
