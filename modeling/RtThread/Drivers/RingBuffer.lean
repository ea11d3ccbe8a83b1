import RtThread.Lib.Circular
import RtThread.Lib.Runs
import RtThread.Memory.Basic

/-!
# Ring buffers

`components/drivers/src/ringbuffer.c` and the inline functions of `rtdevice.h`. The read
and the write index are bit-fields of 15 bits; a mirror bit next to each of them is flipped
when the index goes back to 0, and tells a full buffer from an empty one. An access to the
buffer that would leave it is undefined (`none`).

* `Repr`: the entries are those from the read index on, and the mirrors are equal just if
  they end before the end of the buffer.
* `Repr.put`, `Repr.get`, `Repr.putchar`, `Repr.putcharForce`, `Repr.getchar`: each
  function is the operation of a bounded queue.
* `ringbuffer_refines`: so is every sequence of calls, and none of them leaves the buffer.
* `put_force_keeps_newest_iff`: a forced write keeps the newest bytes in few cases only.
-/

namespace RtThread

open Runs List Function Option Circular Nat

/-- `struct rt_ringbuffer`. `buffer_size` is an `rt_int16_t`, and positive. -/
structure Ringbuffer where
  bufferPtr : ℕ → UInt8
  readMirror : Bool
  readIndex : ℕ
  writeMirror : Bool
  writeIndex : ℕ
  bufferSize : ℕ

/-- `enum rt_ringbuffer_state`. -/
inductive RingbufferState
  | empty
  | full
  | halffull
  deriving DecidableEq

namespace Ringbuffer

/-- `rt_ringbuffer_init`; `none` if an assertion fails. -/
def rtRingbufferInit (pool : ℕ → UInt8) (size : ℤ) : Option Ringbuffer :=
  if size > 0 then
    some { bufferPtr := pool, readMirror := false, readIndex := 0, writeMirror := false,
           writeIndex := 0, bufferSize := rtAlignDown size.toNat }
  else none

/-- `rt_ringbuffer_status`. -/
def rtRingbufferStatus (rb : Ringbuffer) : RingbufferState :=
  if rb.readIndex = rb.writeIndex then
    if rb.readMirror = rb.writeMirror then .empty else .full
  else .halffull

/-- `rt_ringbuffer_data_len`, an `rt_uint16_t`. -/
def rtRingbufferDataLen (rb : Ringbuffer) : ℕ :=
  match rb.rtRingbufferStatus with
  | .empty => 0
  | .full => rb.bufferSize % 2 ^ 16
  | .halffull =>
    if rb.writeIndex > rb.readIndex then rb.writeIndex - rb.readIndex
    else (((rb.bufferSize : ℤ) - (rb.readIndex - rb.writeIndex)) % 2 ^ 16).toNat

/-- `rt_ringbuffer_space_len`, an `int`. -/
def rtRingbufferSpaceLen (rb : Ringbuffer) : ℤ := rb.bufferSize - rb.rtRingbufferDataLen

/-- `memcpy(&rb->buffer_ptr[index], ptr, n)`, which has to stay inside of the buffer and of the
bytes at `ptr`. -/
def memcpyIn (rb : Ringbuffer) (index : ℕ) (ptr : List UInt8) (n : ℤ) : Option Ringbuffer :=
  if 0 ≤ n ∧ n ≤ ptr.length ∧ index + n ≤ rb.bufferSize then
    some { rb with bufferPtr := Cells.write rb.bufferPtr index (ptr.take n.toNat) }
  else none

/-- `memcpy(ptr, &rb->buffer_ptr[index], n)`: the bytes that are copied. -/
def memcpyOut (rb : Ringbuffer) (index : ℕ) (n : ℤ) : Option (List UInt8) :=
  if 0 ≤ n ∧ index + n ≤ rb.bufferSize then
    some ((range n.toNat).map fun i => rb.bufferPtr (index + i))
  else none

/-- `rt_ringbuffer_put` of the bytes at `ptr`. -/
def rtRingbufferPut (rb : Ringbuffer) (ptr : List UInt8) : Option (ℕ × Ringbuffer) :=
  let size := (rb.rtRingbufferSpaceLen % 2 ^ 16).toNat
  if size = 0 then some (0, rb)
  else
    -- drop some data
    let length := if size < ptr.length then size else ptr.length
    let rest : ℤ := rb.bufferSize - rb.writeIndex
    if rest > length then
      (rb.memcpyIn rb.writeIndex ptr length).map fun rb =>
        (length, { rb with writeIndex := (rb.writeIndex + length) % 2 ^ 15 })
    else
      (rb.memcpyIn rb.writeIndex ptr rest).bind fun rb =>
        (rb.memcpyIn 0 (ptr.drop rest.toNat) (length - rest)).map fun rb =>
          (length, { rb with
            writeMirror := !rb.writeMirror
            writeIndex := ((length - rest) % 2 ^ 15).toNat })

/-- `rt_ringbuffer_put_force` of the bytes at `ptr`. -/
def rtRingbufferPutForce (rb : Ringbuffer) (ptr : List UInt8) : Option (ℕ × Ringbuffer) :=
  let spaceLength := (rb.rtRingbufferSpaceLen % 2 ^ 16).toNat
  let length := if ptr.length > spaceLength then rb.bufferSize else ptr.length
  let rest : ℤ := rb.bufferSize - rb.writeIndex
  if rest > length then
    (rb.memcpyIn rb.writeIndex ptr length).map fun rb =>
      let rb := { rb with writeIndex := (rb.writeIndex + length) % 2 ^ 15 }
      (length, if length > spaceLength then { rb with readIndex := rb.writeIndex } else rb)
  else
    (rb.memcpyIn rb.writeIndex ptr rest).bind fun rb =>
      (rb.memcpyIn 0 (ptr.drop rest.toNat) (length - rest)).map fun rb =>
        let rb := { rb with
          writeMirror := !rb.writeMirror
          writeIndex := ((length - rest) % 2 ^ 15).toNat }
        (length, if length > spaceLength then
          { rb with readMirror := !rb.readMirror, readIndex := rb.writeIndex } else rb)

/-- `rt_ringbuffer_get` of `length` bytes: what it returns, and the bytes it stores. -/
def rtRingbufferGet (rb : Ringbuffer) (length : ℕ) : Option ((ℕ × List UInt8) × Ringbuffer) :=
  let size := rb.rtRingbufferDataLen
  if size = 0 then some ((0, []), rb)
  else
    -- less data
    let length := if size < length then size else length
    let rest : ℤ := rb.bufferSize - rb.readIndex
    if rest > length then
      (rb.memcpyOut rb.readIndex length).map fun bytes =>
        ((length, bytes), { rb with readIndex := (rb.readIndex + length) % 2 ^ 15 })
    else
      (rb.memcpyOut rb.readIndex rest).bind fun bytes =>
        (rb.memcpyOut 0 (length - rest)).map fun bytes' =>
          ((length, bytes ++ bytes'), { rb with
            readMirror := !rb.readMirror
            readIndex := ((length - rest) % 2 ^ 15).toNat })

/-- `rb->buffer_ptr[rb->write_index] = ch`. -/
def store (rb : Ringbuffer) (ch : UInt8) : Option Ringbuffer :=
  if rb.writeIndex < rb.bufferSize then
    some { rb with bufferPtr := update rb.bufferPtr rb.writeIndex ch }
  else none

/-- `rt_ringbuffer_putchar`. -/
def rtRingbufferPutchar (rb : Ringbuffer) (ch : UInt8) : Option (ℕ × Ringbuffer) :=
  if rb.rtRingbufferSpaceLen = 0 then some (0, rb)
  else
    (rb.store ch).map fun rb =>
      -- flip mirror
      if (rb.writeIndex : ℤ) = rb.bufferSize - 1 then
        (1, { rb with writeMirror := !rb.writeMirror, writeIndex := 0 })
      else (1, { rb with writeIndex := (rb.writeIndex + 1) % 2 ^ 15 })

/-- `rt_ringbuffer_putchar_force`. -/
def rtRingbufferPutcharForce (rb : Ringbuffer) (ch : UInt8) : Option (ℕ × Ringbuffer) :=
  let oldState := rb.rtRingbufferStatus
  (rb.store ch).map fun rb =>
    -- flip mirror
    if (rb.writeIndex : ℤ) = rb.bufferSize - 1 then
      let rb := { rb with writeMirror := !rb.writeMirror, writeIndex := 0 }
      if oldState = .full then
        (1, { rb with readMirror := !rb.readMirror, readIndex := rb.writeIndex })
      else (1, rb)
    else
      let rb := { rb with writeIndex := (rb.writeIndex + 1) % 2 ^ 15 }
      if oldState = .full then (1, { rb with readIndex := rb.writeIndex }) else (1, rb)

/-- `rt_ringbuffer_getchar`: what it returns, and the byte it stores. -/
def rtRingbufferGetchar (rb : Ringbuffer) : Option ((ℕ × List UInt8) × Ringbuffer) :=
  if rb.rtRingbufferDataLen = 0 then some ((0, []), rb)
  else if rb.readIndex < rb.bufferSize then
    let ch := rb.bufferPtr rb.readIndex
    if (rb.readIndex : ℤ) = rb.bufferSize - 1 then
      some ((1, [ch]), { rb with readMirror := !rb.readMirror, readIndex := 0 })
    else some ((1, [ch]), { rb with readIndex := (rb.readIndex + 1) % 2 ^ 15 })
  else none

variable {rb rb' : Ringbuffer} {q : List UInt8}

/-! ## The entries of the buffer -/

/-- The buffer holds the bytes of `q`, the oldest one at the read index. -/
structure Repr (rb : Ringbuffer) (q : List UInt8) : Prop where
  size_lt : rb.bufferSize < 2 ^ 15
  read_lt : rb.readIndex < rb.bufferSize
  length_le : q.length ≤ rb.bufferSize
  write_eq : rb.writeIndex = (rb.readIndex + q.length) % rb.bufferSize
  mirror_iff : rb.readMirror = rb.writeMirror ↔ rb.readIndex + q.length < rb.bufferSize
  contents_eq : contents rb.bufferPtr rb.bufferSize rb.readIndex q.length = q

section

variable (h : Repr rb q)
include h

/-- The entries end before the end of the buffer, or they go around it. -/
theorem Repr.write_cases :
    (rb.readMirror = rb.writeMirror ∧ rb.writeIndex = rb.readIndex + q.length ∧
      rb.readIndex + q.length < rb.bufferSize) ∨
    (rb.readMirror ≠ rb.writeMirror ∧ rb.writeIndex + rb.bufferSize = rb.readIndex + q.length) := by
  have hread := h.read_lt
  have hlen := h.length_le
  by_cases hlt : rb.readIndex + q.length < rb.bufferSize
  · exact .inl ⟨h.mirror_iff.mpr hlt, by rw [h.write_eq, mod_eq_of_lt hlt], hlt⟩
  · refine .inr ⟨mt h.mirror_iff.mp hlt, ?_⟩
    rw [h.write_eq, mod_eq_sub_mod (not_lt.mp hlt), mod_eq_of_lt (by omega)]
    omega

theorem Repr.write_lt : rb.writeIndex < rb.bufferSize := by
  rw [h.write_eq]
  exact mod_lt _ (by have := h.read_lt; omega)

theorem Repr.status_eq :
    rb.rtRingbufferStatus = if q.length = 0 then .empty
      else if q.length = rb.bufferSize then .full else .halffull := by
  have hread := h.read_lt
  unfold rtRingbufferStatus
  rcases h.write_cases with ⟨hm, hw, hlt⟩ | ⟨hm, hw⟩
  · split_ifs <;> first | rfl | omega
  · split_ifs <;> first | rfl | omega

theorem Repr.dataLen : rb.rtRingbufferDataLen = q.length := by
  have hlen := h.length_le
  have hsize := h.size_lt
  unfold rtRingbufferDataLen
  rw [h.status_eq]
  rcases h.write_cases with ⟨-, hw, hlt⟩ | ⟨-, hw⟩
  · split_ifs <;> simp only <;> omega
  · split_ifs <;> simp only <;> omega

theorem Repr.spaceLen : rb.rtRingbufferSpaceLen = ((rb.bufferSize - q.length : ℕ) : ℤ) := by
  rw [rtRingbufferSpaceLen, h.dataLen, cast_sub h.length_le]

end

variable {vs : List UInt8}

/-- The write index goes over the cells of `vs`. -/
theorem Repr.append (h : Repr rb q) (hvs : q.length + vs.length ≤ rb.bufferSize)
    (hsize : rb'.bufferSize = rb.bufferSize)
    (hpool : rb'.bufferPtr = putAll rb.bufferPtr rb.bufferSize rb.writeIndex vs)
    (hread : rb'.readIndex = rb.readIndex) (hreadm : rb'.readMirror = rb.readMirror)
    (hwrite : rb'.writeIndex = (rb.writeIndex + vs.length) % rb.bufferSize)
    (hwritem : rb'.writeMirror =
      if rb.writeIndex + vs.length < rb.bufferSize then rb.writeMirror else !rb.writeMirror) :
    Repr rb' (q ++ vs) where
  size_lt := hsize ▸ h.size_lt
  read_lt := by rw [hsize, hread]; exact h.read_lt
  length_le := by rw [hsize, length_append]; exact hvs
  write_eq := by
    rw [hwrite, hsize, hread, h.write_eq, mod_add_mod, length_append, add_assoc]
  mirror_iff := by
    have hlt := h.read_lt
    rw [hreadm, hwritem, length_append]
    rcases h.write_cases with ⟨hm, hw, hin⟩ | ⟨hm, hw⟩
    · split_ifs with hend
      · exact ⟨fun _ => by omega, fun _ => hm⟩
      · refine ⟨fun heq => ?_, fun hin => by omega⟩
        rw [hm] at heq
        cases hwm : rb.writeMirror <;> simp [hwm] at heq
    · rw [if_pos (by omega)]
      exact ⟨fun heq => absurd heq hm, fun hin => by omega⟩
  contents_eq := by
    rw [hpool, hsize, hread, length_append, h.write_eq, putAll_mod,
      contents_putAll hvs, h.contents_eq]

variable {k : ℕ}

/-- The read index goes over `k` entries. -/
theorem Repr.drop (h : Repr rb q) (hk : k ≤ q.length)
    (hsize : rb'.bufferSize = rb.bufferSize) (hpool : rb'.bufferPtr = rb.bufferPtr)
    (hwrite : rb'.writeIndex = rb.writeIndex) (hwritem : rb'.writeMirror = rb.writeMirror)
    (hread : rb'.readIndex = (rb.readIndex + k) % rb.bufferSize)
    (hreadm : rb'.readMirror =
      if rb.readIndex + k < rb.bufferSize then rb.readMirror else !rb.readMirror) :
    Repr rb' (q.drop k) where
  size_lt := hsize ▸ h.size_lt
  read_lt := by rw [hsize, hread]; exact Nat.mod_lt _ (by have := h.read_lt; omega)
  length_le := by
    have := h.length_le
    rw [length_drop]
    omega
  write_eq := by
    rw [hwrite, hsize, hread, h.write_eq, Nat.mod_add_mod, length_drop,
      show rb.readIndex + k + (q.length - k) = rb.readIndex + q.length by omega]
  mirror_iff := by
    have hlt := h.read_lt
    have hlen := h.length_le
    rw [hread, hreadm, hwritem, length_drop]
    rcases h.write_cases with ⟨hm, hw, hin⟩ | ⟨hm, hw⟩
    · rw [if_pos (by omega), Nat.mod_eq_of_lt (by omega)]
      exact ⟨fun _ => by omega, fun _ => hm⟩
    · split_ifs with hend
      · rw [Nat.mod_eq_of_lt hend]
        exact ⟨fun heq => absurd heq hm, fun hin => by omega⟩
      · rw [Nat.mod_eq_sub_mod (not_lt.mp hend), Nat.mod_eq_of_lt (by omega)]
        refine ⟨fun _ => by omega, fun _ => ?_⟩
        cases hrm : rb.readMirror <;> cases hwm : rb.writeMirror <;> simp [hrm, hwm] at hm ⊢
  contents_eq := by
    have hsplit := contents_add rb.bufferPtr rb.bufferSize rb.readIndex k (q.length - k)
    rw [Nat.add_sub_cancel' hk, h.contents_eq] at hsplit
    rw [hpool, hsize, hread, contents_mod, length_drop]
    conv_rhs => rw [hsplit]
    rw [drop_left' (length_contents ..)]

/-! ## The functions on the entries -/

variable {index : ℕ} {ptr : List UInt8} {n : ℕ}

theorem memcpyIn_of_le (hptr : n ≤ ptr.length) (hend : index + n ≤ rb.bufferSize) :
    rb.memcpyIn index ptr n =
      some { rb with bufferPtr := Cells.write rb.bufferPtr index (ptr.take n) } := by
  rw [memcpyIn, if_pos ⟨by omega, by omega, by omega⟩, Int.toNat_natCast]

theorem memcpyIn_of_short {n : ℤ} (hptr : ptr.length < n) : rb.memcpyIn index ptr n = none :=
  if_neg (by omega)

theorem memcpyOut_of_le (hend : index + n ≤ rb.bufferSize) :
    rb.memcpyOut index n = some ((range n).map fun i => rb.bufferPtr (index + i)) := by
  rw [memcpyOut, if_pos ⟨by omega, by omega⟩, Int.toNat_natCast]

/-- The bytes fit between the write index and the end of the buffer. -/
theorem memcpyIn_linear (hk : k ≤ ptr.length) (hin : rb.writeIndex + k ≤ rb.bufferSize) :
    rb.memcpyIn rb.writeIndex ptr k = some { rb with
      bufferPtr := putAll rb.bufferPtr rb.bufferSize rb.writeIndex (ptr.take k) } := by
  rw [memcpyIn_of_le hk hin, putAll_eq_write (by rw [length_take]; omega)]

/-- They are copied in two pieces. -/
theorem memcpyIn_wrap {β : Type} (f : Ringbuffer → β) (hw : rb.writeIndex ≤ rb.bufferSize)
    (hk : k ≤ ptr.length) (hin : k ≤ rb.bufferSize) (hend : rb.bufferSize ≤ rb.writeIndex + k) :
    ((rb.memcpyIn rb.writeIndex ptr (rb.bufferSize - rb.writeIndex)).bind fun rb' =>
      (rb'.memcpyIn 0 (ptr.drop (rb.bufferSize - rb.writeIndex : ℤ).toNat)
        (k - (rb.bufferSize - rb.writeIndex))).map f) = some (f { rb with
      bufferPtr := putAll rb.bufferPtr rb.bufferSize rb.writeIndex (ptr.take k) }) := by
  obtain ⟨r, hr⟩ : ∃ r : ℕ, r = rb.bufferSize - rb.writeIndex := ⟨_, rfl⟩
  have hrest : (rb.bufferSize : ℤ) - rb.writeIndex = r := by omega
  have hsub : (k : ℤ) - r = (k - r : ℕ) := by omega
  have hlen : (ptr.take k).length = k := length_take_of_le hk
  rw [hrest, memcpyIn_of_le (by omega) (by omega), bind_some, hsub,
    memcpyIn_of_le (by rw [length_drop]; omega) (by dsimp only; omega),
    putAll_wrap hw (by omega) (by omega), ← hr, take_take, min_eq_left (by omega), drop_take]
  rfl

section

variable (h : Repr rb q)
include h

theorem Repr.advance (vs : List UInt8) (hvs : q.length + vs.length ≤ rb.bufferSize)
    (hin : rb.writeIndex + vs.length < rb.bufferSize) :
    Repr { rb with
      bufferPtr := putAll rb.bufferPtr rb.bufferSize rb.writeIndex vs
      writeIndex := (rb.writeIndex + vs.length) % 2 ^ 15 } (q ++ vs) := by
  refine h.append hvs rfl rfl rfl rfl ?_ ?_
  · rw [mod_eq_of_lt hin]
    exact mod_eq_of_lt (hin.trans h.size_lt)
  · rw [if_pos hin]

theorem Repr.advance_wrap (vs : List UInt8) (hvs : q.length + vs.length ≤ rb.bufferSize)
    (hend : rb.bufferSize ≤ rb.writeIndex + vs.length) :
    Repr { rb with
      bufferPtr := putAll rb.bufferPtr rb.bufferSize rb.writeIndex vs
      writeMirror := !rb.writeMirror
      writeIndex := ((vs.length - (rb.bufferSize - rb.writeIndex : ℤ)) % 2 ^ 15).toNat }
      (q ++ vs) := by
  have hwlt := h.write_lt
  have hsize := h.size_lt
  refine h.append hvs rfl rfl rfl rfl ?_ ?_
  · have hpast : rb.writeIndex + vs.length =
        (rb.writeIndex + vs.length - rb.bufferSize) + rb.bufferSize := by omega
    rw [hpast, add_mod_right, mod_eq_of_lt (by omega)]
    dsimp only
    omega
  · rw [if_neg (by omega)]

theorem Repr.spaceLen_toNat :
    (rb.rtRingbufferSpaceLen % 2 ^ 16).toNat = rb.bufferSize - q.length := by
  have hsize := h.size_lt
  rw [h.spaceLen]
  omega

theorem Repr.put (ptr : List UInt8) :
    ∃ rb', rb.rtRingbufferPut ptr = some (min ptr.length (rb.bufferSize - q.length), rb') ∧
      rb'.bufferSize = rb.bufferSize ∧
      Repr rb' (q ++ ptr.take (min ptr.length (rb.bufferSize - q.length))) := by
  have hwlt := h.write_lt
  have hmin : (if rb.bufferSize - q.length < ptr.length then rb.bufferSize - q.length
      else ptr.length) = min ptr.length (rb.bufferSize - q.length) := by
    split_ifs <;> omega
  unfold rtRingbufferPut
  simp only [h.spaceLen_toNat, hmin]
  obtain ⟨k, hk⟩ : ∃ k, k = min ptr.length (rb.bufferSize - q.length) := ⟨_, rfl⟩
  have htake : (ptr.take k).length = k := length_take_of_le (by omega)
  rw [← hk]
  split_ifs with hfull hlin
  · obtain rfl : k = 0 := by omega
    rw [take_zero, append_nil]
    exact ⟨rb, rfl, rfl, h⟩
  · rw [memcpyIn_linear (by omega) (by omega)]
    have hrepr := h.advance (ptr.take k) (by omega) (by omega)
    rw [htake] at hrepr
    exact ⟨_, rfl, rfl, hrepr⟩
  · rw [memcpyIn_wrap _ hwlt.le (by omega) (by omega) (by omega)]
    have hrepr := h.advance_wrap (ptr.take k) (by omega) (by omega)
    rw [htake] at hrepr
    exact ⟨_, rfl, rfl, hrepr⟩

theorem Repr.get (length : ℕ) :
    ∃ rb', rb.rtRingbufferGet length =
        some ((min length q.length, q.take (min length q.length)), rb') ∧
      rb'.bufferSize = rb.bufferSize ∧ Repr rb' (q.drop (min length q.length)) := by
  have hlen := h.length_le
  have hrlt := h.read_lt
  have hsize := h.size_lt
  have hmin : (if q.length < length then q.length else length) = min length q.length := by
    split_ifs <;> omega
  unfold rtRingbufferGet
  simp only [h.dataLen, hmin]
  obtain ⟨k, hk⟩ : ∃ k, k = min length q.length := ⟨_, rfl⟩
  rw [← hk]
  -- the first `k` entries
  have htake : q.take k = contents rb.bufferPtr rb.bufferSize rb.readIndex k := by
    have hsplit := contents_add rb.bufferPtr rb.bufferSize rb.readIndex k (q.length - k)
    rw [Nat.add_sub_cancel' (by omega), h.contents_eq] at hsplit
    conv_lhs => rw [hsplit]
    rw [take_left' (length_contents ..)]
  split_ifs with hempty hlin
  · obtain rfl : k = 0 := by omega
    exact ⟨rb, rfl, rfl, h⟩
  · have hin : rb.readIndex + k < rb.bufferSize := by omega
    rw [memcpyOut_of_le hin.le, htake, contents_linear hin.le]
    refine ⟨_, rfl, rfl, h.drop (by omega) rfl rfl rfl rfl ?_ ?_⟩
    · rw [mod_eq_of_lt hin]
      exact mod_eq_of_lt (hin.trans hsize)
    · rw [if_pos hin]
  · obtain ⟨r, hr⟩ : ∃ r : ℕ, r = rb.bufferSize - rb.readIndex := ⟨_, rfl⟩
    have hrest : (rb.bufferSize : ℤ) - rb.readIndex = r := by omega
    have hsub : (k : ℤ) - r = (k - r : ℕ) := by omega
    rw [hrest, memcpyOut_of_le (by omega), hsub, memcpyOut_of_le (by omega),
      htake, contents_wrap hrlt.le (by omega) (by omega), ← hr]
    refine ⟨_, rfl, rfl, h.drop (by omega) rfl rfl rfl rfl ?_ ?_⟩
    · have hpast : rb.readIndex + k = (k - r) + rb.bufferSize := by omega
      rw [hpast, add_mod_right, mod_eq_of_lt (by omega)]
      dsimp only
      omega
    · rw [if_neg (by omega)]

variable (ch : UInt8)

theorem Repr.update_eq_putAll :
    update rb.bufferPtr rb.writeIndex ch =
      putAll rb.bufferPtr rb.bufferSize rb.writeIndex [ch] := by
  rw [putAll, putAll, mod_eq_of_lt h.write_lt]

/-- One byte is put into the last cell, and the write index goes to the first one. -/
theorem Repr.store_last (hroom : q.length < rb.bufferSize) (ch : UInt8)
    (hlast : rb.writeIndex + 1 = rb.bufferSize) :
    Repr { rb with
      bufferPtr := update rb.bufferPtr rb.writeIndex ch
      writeMirror := !rb.writeMirror
      writeIndex := 0 } (q ++ [ch]) := by
  refine h.append hroom rfl (h.update_eq_putAll ch) rfl rfl ?_ ?_
  · rw [length_singleton, hlast, mod_self]
  · rw [length_singleton, if_neg hlast.not_lt]

/-- One byte is put into a cell that is not the last one. -/
theorem Repr.store_next (hroom : q.length < rb.bufferSize) (ch : UInt8)
    (hin : rb.writeIndex + 1 < rb.bufferSize) :
    Repr { rb with
      bufferPtr := update rb.bufferPtr rb.writeIndex ch
      writeIndex := (rb.writeIndex + 1) % 2 ^ 15 } (q ++ [ch]) := by
  rw [h.update_eq_putAll]
  exact h.advance [ch] hroom hin

theorem Repr.putchar :
    ∃ rb', rb.rtRingbufferPutchar ch = some (if q.length < rb.bufferSize then 1 else 0, rb') ∧
      rb'.bufferSize = rb.bufferSize ∧
      Repr rb' (if q.length < rb.bufferSize then q ++ [ch] else q) := by
  have hwlt := h.write_lt
  unfold rtRingbufferPutchar
  rw [h.spaceLen]
  by_cases hroom : q.length < rb.bufferSize
  · rw [if_neg (by omega), store, if_pos hwlt, map_some]
    dsimp only
    split_ifs with hlast
    · exact ⟨_, rfl, rfl, h.store_last hroom ch (by omega)⟩
    · exact ⟨_, rfl, rfl, h.store_next hroom ch (by omega)⟩
  · rw [if_pos (by omega), if_neg hroom, if_neg hroom]
    exact ⟨rb, rfl, rfl, h⟩

/-- On a full buffer both indices move on, and the oldest byte makes room for `ch`. -/
theorem Repr.putcharForce :
    ∃ rb', rb.rtRingbufferPutcharForce ch = some (1, rb') ∧
      rb'.bufferSize = rb.bufferSize ∧
      Repr rb' (if q.length < rb.bufferSize then q ++ [ch] else q.tail ++ [ch]) := by
  have hlen := h.length_le
  have hwlt := h.write_lt
  have hsize := h.size_lt
  unfold rtRingbufferPutcharForce
  rw [h.status_eq, store, if_pos hwlt, map_some]
  by_cases hroom : q.length < rb.bufferSize
  · have hstate : ¬ (if q.length = 0 then RingbufferState.empty
        else if q.length = rb.bufferSize then .full else .halffull) = .full := by
      split_ifs <;> first | omega | simp
    dsimp only
    split_ifs with hlast
    · exact ⟨_, rfl, rfl, h.store_last hroom ch (by omega)⟩
    · exact ⟨_, rfl, rfl, h.store_next hroom ch (by omega)⟩
  · have hstate : (if q.length = 0 then RingbufferState.empty
        else if q.length = rb.bufferSize then .full else .halffull) = .full := by
      rw [if_neg (by omega), if_pos (by omega)]
    have hindex : rb.readIndex = rb.writeIndex := by
      rcases h.write_cases with ⟨-, hw, -⟩ | ⟨-, hw⟩ <;> omega
    rw [← drop_one]
    dsimp only
    split_ifs with hlast
    · have hnext : rb.writeIndex + 1 = rb.bufferSize := by omega
      have hdrop : Repr { rb with readMirror := !rb.readMirror, readIndex := 0 } (q.drop 1) := by
        refine h.drop (by omega) rfl rfl rfl rfl ?_ ?_
        · rw [hindex, hnext, mod_self]
        · rw [hindex, hnext, if_neg (lt_irrefl _)]
      exact ⟨_, rfl, rfl, hdrop.store_last (by rw [length_drop]; dsimp only; omega) ch hnext⟩
    · have hin : rb.writeIndex + 1 < rb.bufferSize := by omega
      have hmod : (rb.writeIndex + 1) % 2 ^ 15 = rb.writeIndex + 1 :=
        mod_eq_of_lt (hin.trans hsize)
      have hdrop : Repr { rb with readIndex := (rb.writeIndex + 1) % 2 ^ 15 } (q.drop 1) := by
        refine h.drop (by omega) rfl rfl rfl rfl ?_ ?_
        · rw [hindex, mod_eq_of_lt hin, hmod]
        · rw [hindex, if_pos hin]
      exact ⟨_, rfl, rfl, hdrop.store_next (by rw [length_drop]; dsimp only; omega) ch hin⟩

theorem Repr.getchar :
    ∃ rb', rb.rtRingbufferGetchar = some ((min 1 q.length, q.take 1), rb') ∧
      rb'.bufferSize = rb.bufferSize ∧ Repr rb' (q.drop 1) := by
  have hrlt := h.read_lt
  have hsize := h.size_lt
  unfold rtRingbufferGetchar
  rw [h.dataLen]
  cases q with
  | nil =>
    exact ⟨rb, rfl, rfl, h⟩
  | cons c q =>
    have hc : rb.bufferPtr rb.readIndex = c := by
      have hcont := h.contents_eq
      rw [length_cons, contents_take, cons.injEq, mod_eq_of_lt hrlt] at hcont
      exact hcont.1
    have hone : 1 ≤ (c :: q).length := by simp
    rw [if_neg (by omega), hc]
    split_ifs with hlast
    · refine ⟨_, rfl, rfl, h.drop hone rfl rfl rfl rfl ?_ ?_⟩
      · rw [show rb.readIndex + 1 = rb.bufferSize by omega, mod_self]
      · rw [if_neg (by omega)]
    · have hin : rb.readIndex + 1 < rb.bufferSize := by omega
      refine ⟨_, rfl, rfl, h.drop hone rfl rfl rfl rfl ?_ ?_⟩
      · rw [mod_eq_of_lt hin]
        exact mod_eq_of_lt (hin.trans hsize)
      · rw [if_pos hin]

end

/-! ## Sequences of calls -/

/-- A call, with the bytes or the length that it is given. -/
inductive Call
  | put (ptr : List UInt8)
  | get (length : ℕ)
  | putchar (ch : UInt8)
  | putcharForce (ch : UInt8)
  | getchar

/-- A call: the number it returns, and the bytes it hands out. -/
def call (rb : Ringbuffer) : Call → Option ((ℕ × List UInt8) × Ringbuffer)
  | .put ptr => (rb.rtRingbufferPut ptr).map fun r => ((r.1, []), r.2)
  | .get length => rb.rtRingbufferGet length
  | .putchar ch => (rb.rtRingbufferPutchar ch).map fun r => ((r.1, []), r.2)
  | .putcharForce ch => (rb.rtRingbufferPutcharForce ch).map fun r => ((r.1, []), r.2)
  | .getchar => rb.rtRingbufferGetchar

/-- The calls on a queue of at most `capacity` bytes, the oldest one first. -/
def queueCall (capacity : ℕ) (q : List UInt8) : Call → (ℕ × List UInt8) × List UInt8
  | .put ptr =>
    let n := min ptr.length (capacity - q.length)
    ((n, []), q ++ ptr.take n)
  | .get length =>
    let n := min length q.length
    ((n, q.take n), q.drop n)
  | .putchar ch => if q.length < capacity then ((1, []), q ++ [ch]) else ((0, []), q)
  | .putcharForce ch => ((1, []), if q.length < capacity then q ++ [ch] else q.tail ++ [ch])
  | .getchar => ((min 1 q.length, q.take 1), q.drop 1)

theorem Repr.call (h : Repr rb q) (c : Call) :
    ∃ rb', rb.call c = some ((queueCall rb.bufferSize q c).1, rb') ∧
      rb'.bufferSize = rb.bufferSize ∧ Repr rb' (queueCall rb.bufferSize q c).2 := by
  cases c with
  | put ptr =>
    obtain ⟨rb', hput, hsize, hrepr⟩ := h.put ptr
    exact ⟨rb', by rw [Ringbuffer.call, hput]; rfl, hsize, hrepr⟩
  | get length => exact h.get length
  | putchar ch =>
    obtain ⟨rb', hput, hsize, hrepr⟩ := h.putchar ch
    refine ⟨rb', ?_, hsize, ?_⟩
    · rw [Ringbuffer.call, hput, queueCall]
      split_ifs <;> rfl
    · rw [queueCall]
      split_ifs at hrepr ⊢ <;> exact hrepr
  | putcharForce ch =>
    obtain ⟨rb', hput, hsize, hrepr⟩ := h.putcharForce ch
    exact ⟨rb', by rw [Ringbuffer.call, hput]; rfl, hsize, hrepr⟩
  | getchar => exact h.getchar

theorem repr_init {pool : ℕ → UInt8} {size : ℤ} (hsize : 4 ≤ size) (hint : size < 2 ^ 15)
    (h : rtRingbufferInit pool size = some rb) :
    Repr rb [] ∧ rb.bufferSize = rtAlignDown size.toNat := by
  rw [rtRingbufferInit, if_pos (by omega), some.injEq] at h
  subst h
  have hdown : 4 ≤ rtAlignDown size.toNat ∧ rtAlignDown size.toNat < 2 ^ 15 := by
    unfold rtAlignDown
    omega
  have hpos : 0 < rtAlignDown size.toNat := by omega
  refine ⟨⟨hdown.2, hpos, zero_le _, ?_, ?_, rfl⟩, rfl⟩
  · exact (zero_mod _).symm
  · exact ⟨fun _ => hpos, fun _ => rfl⟩

/-- Every sequence of calls on a buffer that `rt_ringbuffer_init` accepts, of at least four bytes,
is possible without leaving the buffer, and returns and hands out what it does on a queue of at most
`buffer_size` bytes; `rt_ringbuffer_data_len` then is the number of bytes in the queue. -/
theorem ringbuffer_refines (pool : ℕ → UInt8) (size : ℤ) (hsize : 4 ≤ size) (hint : size < 2 ^ 15) :
    ∃ rb, rtRingbufferInit pool size = some rb ∧ rb.bufferSize = rtAlignDown size.toNat ∧
      ∀ calls : List Call, ∃ rb',
        exec call rb calls = some ((execTotal (queueCall rb.bufferSize) [] calls).1, rb') ∧
        rb'.rtRingbufferDataLen = (execTotal (queueCall rb.bufferSize) [] calls).2.length := by
  obtain ⟨rb, hrb⟩ : ∃ rb, rtRingbufferInit pool size = some rb := ⟨_, if_pos (by omega)⟩
  obtain ⟨hinit, hdown⟩ := repr_init hsize hint hrb
  refine ⟨rb, hrb, hdown, fun calls => ?_⟩
  have hstep : ∀ r q c, r.bufferSize = rb.bufferSize ∧ Repr r q →
      ∃ r', call r c = some ((queueCall rb.bufferSize q c).1, r') ∧
        r'.bufferSize = rb.bufferSize ∧ Repr r' (queueCall rb.bufferSize q c).2 := by
    rintro r q c ⟨hsame, hr⟩
    obtain ⟨r', hcall, hsame', hr'⟩ := hr.call c
    rw [hsame] at hcall hr' hsame'
    exact ⟨r', hcall, hsame', hr'⟩
  obtain ⟨rb', hexec, -, hrepr⟩ := exec_refines hstep ⟨rfl, hinit⟩ calls
  exact ⟨rb', hexec, hrepr.dataLen⟩

/-- A buffer of four bytes (`rt_ringbuffer_init` rounds 7 down): five bytes are put, of which one is
dropped, two are taken, and one is put around the end of the buffer. -/
theorem ringbuffer_refines_sample :
    ∃ rb, rtRingbufferInit (fun _ => 0) 7 = some rb ∧ rb.bufferSize = 4 ∧ ∃ rb',
      exec call rb [.put [1, 2, 3, 4, 5], .get 2, .putchar 6, .get 9] =
        some ([(4, []), (2, [1, 2]), (1, []), (3, [3, 4, 6])], rb') ∧
      rb'.rtRingbufferDataLen = 0 := by
  obtain ⟨rb, hinit, hsize, hcalls⟩ := ringbuffer_refines (fun _ => 0) 7 (by decide) (by decide)
  obtain ⟨rb', hexec, hlen⟩ := hcalls [.put [1, 2, 3, 4, 5], .get 2, .putchar 6, .get 9]
  have hfour : rb.bufferSize = 4 := hsize
  rw [hfour] at hexec hlen
  exact ⟨rb, hinit, hfour, rb', hexec, hlen⟩

/-! ## Forced writes -/

theorem Repr.unique {q' : List UInt8} (h : Repr rb q) (h' : Repr rb q') : q = q' := by
  rw [← h.contents_eq, ← h'.contents_eq, ← h.dataLen, ← h'.dataLen]

theorem Repr.putForce_of_room (h : Repr rb q) (hroom : ptr.length ≤ rb.bufferSize - q.length) :
    ∃ rb', rb.rtRingbufferPutForce ptr = some (ptr.length, rb') ∧
      rb'.bufferSize = rb.bufferSize ∧ Repr rb' (q ++ ptr) := by
  have hlen := h.length_le
  have hwlt := h.write_lt
  unfold rtRingbufferPutForce
  simp only [h.spaceLen_toNat, if_neg (not_lt.mpr hroom), gt_iff_lt]
  split_ifs with hlin
  · rw [memcpyIn_linear le_rfl (by omega), take_length]
    exact ⟨_, rfl, rfl, h.advance ptr (by omega) (by omega)⟩
  · rw [memcpyIn_wrap _ hwlt.le le_rfl (by omega) (by omega), take_length]
    exact ⟨_, rfl, rfl, h.advance_wrap ptr (by omega) (by omega)⟩

/-- Otherwise a whole buffer is copied. Both mirrors are flipped unless there were no entries, so
that they tell a full buffer only if they were different before. -/
theorem Repr.putForce_of_full (h : Repr rb q)
    (hfull : rb.bufferSize - q.length < ptr.length) (hptr : rb.bufferSize ≤ ptr.length) :
    ∃ rb', rb.rtRingbufferPutForce ptr = some (rb.bufferSize, rb') ∧
      rb'.bufferSize = rb.bufferSize ∧
      if q = [] ∨ rb.readMirror ≠ rb.writeMirror then Repr rb' (ptr.take rb.bufferSize)
      else rb'.rtRingbufferDataLen = 0 := by
  have hwlt := h.write_lt
  have hsize := h.size_lt
  have htake : (ptr.take rb.bufferSize).length = rb.bufferSize := length_take_of_le hptr
  unfold rtRingbufferPutForce
  simp only [h.spaceLen_toNat, gt_iff_lt, if_pos hfull]
  rw [if_neg (by omega), memcpyIn_wrap _ hwlt.le hptr le_rfl (by omega)]
  by_cases hq : q = []
  · subst hq
    have hrepr := h.advance_wrap (ptr.take rb.bufferSize) (by simp [htake]) (by omega)
    rw [htake] at hrepr
    rw [if_neg (by simp)]
    refine ⟨_, rfl, rfl, ?_⟩
    rwa [if_pos (.inl rfl)]
  · have hpos := length_pos_iff.mpr hq
    rw [if_pos (by omega)]
    refine ⟨_, rfl, rfl, ?_⟩
    split_ifs with hm
    · have hempty : Repr { rb with readMirror := !rb.readMirror, readIndex := rb.writeIndex } [] :=
        ⟨hsize, hwlt, zero_le _, (mod_eq_of_lt hwlt).symm,
          iff_of_true (Bool.eq_not.mpr (hm.resolve_left hq).symm).symm hwlt, rfl⟩
      have hrepr := hempty.advance_wrap (ptr.take rb.bufferSize) (by simp [htake])
        (by dsimp only; omega)
      have hindex : (((rb.bufferSize : ℤ) - (rb.bufferSize - rb.writeIndex)) % 2 ^ 15).toNat =
          rb.writeIndex := by omega
      rw [htake] at hrepr
      simp only [hindex] at hrepr ⊢
      exact hrepr
    · have hsame := not_not.mp (not_or.mp hm).2
      rw [rtRingbufferDataLen, rtRingbufferStatus, if_pos rfl, if_pos (congrArg (! ·) hsame)]

/-- A shorter source is read beyond its end. -/
theorem Repr.putForce_of_short (h : Repr rb q)
    (hfull : rb.bufferSize - q.length < ptr.length) (hptr : ptr.length < rb.bufferSize) :
    rb.rtRingbufferPutForce ptr = none := by
  unfold rtRingbufferPutForce
  simp only [h.spaceLen_toNat, gt_iff_lt, if_pos hfull]
  rw [if_neg (by omega)]
  by_cases hfirst : (ptr.length : ℤ) < rb.bufferSize - rb.writeIndex
  · rw [memcpyIn_of_short hfirst, bind_none]
  · refine bind_eq_none_iff.mpr fun rb' _ => ?_
    rw [memcpyIn_of_short (by rw [length_drop]; omega), map_none]

/-- A forced write keeps the newest data just if there is room for all of it, or if the source has
as many bytes as the buffer, the first of them are also the last ones, and the entries are none or
go around the end of the buffer. -/
theorem put_force_keeps_newest_iff (h : Repr rb q) (ptr : List UInt8) :
    (∃ n rb', rb.rtRingbufferPutForce ptr = some (n, rb') ∧ rb'.bufferSize = rb.bufferSize ∧
      Repr rb' ((q ++ ptr).drop (q.length + ptr.length - rb.bufferSize))) ↔
    ptr.length ≤ rb.bufferSize - q.length ∨
      rb.bufferSize ≤ ptr.length ∧ (q = [] ∨ rb.readMirror ≠ rb.writeMirror) ∧
        ptr.take rb.bufferSize = ptr.drop (ptr.length - rb.bufferSize) := by
  have hlen := h.length_le
  have hread := h.read_lt
  by_cases hroom : ptr.length ≤ rb.bufferSize - q.length
  · obtain ⟨rb', hput, hsize, hrepr⟩ := h.putForce_of_room hroom
    rw [Nat.sub_eq_zero_of_le (by omega)]
    exact iff_of_true ⟨_, _, hput, hsize, hrepr⟩ (.inl hroom)
  rw [or_iff_right hroom]
  by_cases hptr : rb.bufferSize ≤ ptr.length
  · obtain ⟨rb', hput, hsize, hrepr⟩ := h.putForce_of_full (not_le.mp hroom) hptr
    rw [show q.length + ptr.length - rb.bufferSize = q.length + (ptr.length - rb.bufferSize) by
      omega, drop_append, drop_eq_nil_of_le (by omega), nil_append,
      Nat.add_sub_cancel_left]
    constructor
    · rintro ⟨n, rb'', heq, -, hnewest⟩
      rw [hput] at heq
      obtain ⟨rfl, rfl⟩ := heq
      split_ifs at hrepr with hmirror
      · exact ⟨hptr, hmirror, hrepr.unique hnewest⟩
      · rw [hnewest.dataLen, length_drop] at hrepr
        omega
    · rintro ⟨-, hmirror, heq⟩
      rw [if_pos hmirror, heq] at hrepr
      exact ⟨_, _, hput, hsize, hrepr⟩
  · rw [h.putForce_of_short (not_le.mp hroom) (not_le.mp hptr)]
    exact iff_of_false (by simp) fun hcon => hptr hcon.1

/-- A buffer of four bytes that holds two. -/
def halfFull : Ringbuffer := ⟨fun i => [1, 2].getD i 0, false, 0, false, 2, 4⟩

theorem repr_halfFull : Repr halfFull [1, 2] :=
  ⟨by decide, by decide, by decide, rfl, by decide, rfl⟩

theorem put_force_keeps_newest_sample :
    ∃ n rb', halfFull.rtRingbufferPutForce [3, 4] = some (n, rb') ∧ rb'.bufferSize = 4 ∧
      Repr rb' [1, 2, 3, 4] :=
  (put_force_keeps_newest_iff repr_halfFull [3, 4]).mpr (.inl (by decide))

/-- Three bytes are read beyond the end of the source, and after four bytes the buffer counts as
empty. -/
theorem put_force_loses_data :
    Repr halfFull [1, 2] ∧ halfFull.rtRingbufferPutForce [3, 4, 5] = none ∧
      (halfFull.rtRingbufferPutForce [3, 4, 5, 6]).map (fun r => r.2.rtRingbufferDataLen) =
        some 0 :=
  ⟨repr_halfFull, rfl, rfl⟩

end Ringbuffer

end RtThread
