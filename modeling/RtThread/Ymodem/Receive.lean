import RtThread.Lib.Cells
import RtThread.Lib.Crc

/-!
# Receiving a file by YModem

`components/utilities/ymodem/ymodem.c`. The device gives a stream of bytes; how many of them a
`rt_device_read` gives is up to the device. `rt_sem_take` succeeds as long as bytes are still to
come, and times out when there are none. The callbacks answer as they like, from everything that
has happened so far.

* `rymReadCode_cons`, `rymReadData_eq`: however the stream is split, the next bytes are read.
* `crc16_eq`: `CRC16` is the remainder by the polynomial of the CCITT.
-/

namespace RtThread.Ymodem

open List Option Function

abbrev Byte := BitVec 8

/-! ## Codes and errors -/

def rymCodeNone : Byte := 0x00
def rymCodeSoh : Byte := 0x01
def rymCodeStx : Byte := 0x02
def rymCodeEot : Byte := 0x04
def rymCodeAck : Byte := 0x06
def rymCodeNak : Byte := 0x15
def rymCodeCan : Byte := 0x18
def rymCodeC : Byte := 0x43

def rtEok : ℤ := 0
def rtEnomem : ℤ := 5
def rymErrTmo : ℤ := 0x70
def rymErrCode : ℤ := 0x71
def rymErrSeq : ℤ := 0x72
def rymErrCrc : ℤ := 0x73
def rymErrDsz : ℤ := 0x74
def rymErrCan : ℤ := 0x75

def rymEndSessionSendCanNum : ℕ := 0x07

/-! ## `CRC16` -/

def ccittTable : List (BitVec 16) :=
  [0x0000, 0x1021, 0x2042, 0x3063, 0x4084, 0x50A5, 0x60C6, 0x70E7,
   0x8108, 0x9129, 0xA14A, 0xB16B, 0xC18C, 0xD1AD, 0xE1CE, 0xF1EF,
   0x1231, 0x0210, 0x3273, 0x2252, 0x52B5, 0x4294, 0x72F7, 0x62D6,
   0x9339, 0x8318, 0xB37B, 0xA35A, 0xD3BD, 0xC39C, 0xF3FF, 0xE3DE,
   0x2462, 0x3443, 0x0420, 0x1401, 0x64E6, 0x74C7, 0x44A4, 0x5485,
   0xA56A, 0xB54B, 0x8528, 0x9509, 0xE5EE, 0xF5CF, 0xC5AC, 0xD58D,
   0x3653, 0x2672, 0x1611, 0x0630, 0x76D7, 0x66F6, 0x5695, 0x46B4,
   0xB75B, 0xA77A, 0x9719, 0x8738, 0xF7DF, 0xE7FE, 0xD79D, 0xC7BC,
   0x48C4, 0x58E5, 0x6886, 0x78A7, 0x0840, 0x1861, 0x2802, 0x3823,
   0xC9CC, 0xD9ED, 0xE98E, 0xF9AF, 0x8948, 0x9969, 0xA90A, 0xB92B,
   0x5AF5, 0x4AD4, 0x7AB7, 0x6A96, 0x1A71, 0x0A50, 0x3A33, 0x2A12,
   0xDBFD, 0xCBDC, 0xFBBF, 0xEB9E, 0x9B79, 0x8B58, 0xBB3B, 0xAB1A,
   0x6CA6, 0x7C87, 0x4CE4, 0x5CC5, 0x2C22, 0x3C03, 0x0C60, 0x1C41,
   0xEDAE, 0xFD8F, 0xCDEC, 0xDDCD, 0xAD2A, 0xBD0B, 0x8D68, 0x9D49,
   0x7E97, 0x6EB6, 0x5ED5, 0x4EF4, 0x3E13, 0x2E32, 0x1E51, 0x0E70,
   0xFF9F, 0xEFBE, 0xDFDD, 0xCFFC, 0xBF1B, 0xAF3A, 0x9F59, 0x8F78,
   0x9188, 0x81A9, 0xB1CA, 0xA1EB, 0xD10C, 0xC12D, 0xF14E, 0xE16F,
   0x1080, 0x00A1, 0x30C2, 0x20E3, 0x5004, 0x4025, 0x7046, 0x6067,
   0x83B9, 0x9398, 0xA3FB, 0xB3DA, 0xC33D, 0xD31C, 0xE37F, 0xF35E,
   0x02B1, 0x1290, 0x22F3, 0x32D2, 0x4235, 0x5214, 0x6277, 0x7256,
   0xB5EA, 0xA5CB, 0x95A8, 0x8589, 0xF56E, 0xE54F, 0xD52C, 0xC50D,
   0x34E2, 0x24C3, 0x14A0, 0x0481, 0x7466, 0x6447, 0x5424, 0x4405,
   0xA7DB, 0xB7FA, 0x8799, 0x97B8, 0xE75F, 0xF77E, 0xC71D, 0xD73C,
   0x26D3, 0x36F2, 0x0691, 0x16B0, 0x6657, 0x7676, 0x4615, 0x5634,
   0xD94C, 0xC96D, 0xF90E, 0xE92F, 0x99C8, 0x89E9, 0xB98A, 0xA9AB,
   0x5844, 0x4865, 0x7806, 0x6827, 0x18C0, 0x08E1, 0x3882, 0x28A3,
   0xCB7D, 0xDB5C, 0xEB3F, 0xFB1E, 0x8BF9, 0x9BD8, 0xABBB, 0xBB9A,
   0x4A75, 0x5A54, 0x6A37, 0x7A16, 0x0AF1, 0x1AD0, 0x2AB3, 0x3A92,
   0xFD2E, 0xED0F, 0xDD6C, 0xCD4D, 0xBDAA, 0xAD8B, 0x9DE8, 0x8DC9,
   0x7C26, 0x6C07, 0x5C64, 0x4C45, 0x3CA2, 0x2C83, 0x1CE0, 0x0CC1,
   0xEF1F, 0xFF3E, 0xCF5D, 0xDF7C, 0xAF9B, 0xBFBA, 0x8FD9, 0x9FF8,
   0x6E17, 0x7E36, 0x4E55, 0x5E74, 0x2E93, 0x3EB2, 0x0ED1, 0x1EF0]

/-- `CRC16`. -/
def crc16 (q : List Byte) : BitVec 16 :=
  q.foldl (fun crc b =>
    (crc <<< 8) ^^^ ccittTable.getD (((crc >>> 8) ^^^ b.setWidth 16) &&& 0xff).toNat 0) 0

/-- The polynomial of the CCITT, x¹⁶ + x¹² + x⁵ + 1. -/
def ccittPoly : BitVec 16 := 0x1021

theorem ccittTable_eq :
    ccittTable = (range 256).map fun i => Crc.shifts ccittPoly 8 (Crc.lift (BitVec.ofNat 8 i)) := by
  set_option maxRecDepth 4096 in
  decide

theorem ccittTable_getD (b : Byte) :
    ccittTable.getD b.toNat 0 = Crc.shifts ccittPoly 8 (Crc.lift b) := by
  have hb : b.toNat < 256 := b.isLt
  rw [ccittTable_eq, getD_eq_getElem?_getD, getElem?_map, getElem?_range hb]
  simp only [map_some, getD_some, BitVec.ofNat_toNat, BitVec.setWidth_eq]

/-- The index in the table is a byte. -/
theorem index_eq (crc : BitVec 16) (b : Byte) :
    (((crc >>> 8) ^^^ b.setWidth 16) &&& 0xff).toNat = (Crc.top crc ^^^ b).toNat := by
  have hb : b.toNat % 2 ^ 16 % 2 ^ 8 = b.toNat := by
    omega
  have hmask (n : ℕ) : n &&& 255 = n % 2 ^ 8 := Nat.and_two_pow_sub_one_eq_mod n 8
  have hff : (0xff : BitVec 16).toNat = 255 := rfl
  rw [BitVec.toNat_and, BitVec.toNat_xor, BitVec.toNat_xor, BitVec.toNat_setWidth, Crc.top,
    BitVec.toNat_setWidth, hff, hmask, Nat.xor_mod_two_pow, hb]

theorem crc16_eq (q : List Byte) : crc16 q = Crc.crc ccittPoly q := by
  rw [crc16, ← Crc.foldl_table (by decide) fun b => ccittTable_getD b]
  congr 1
  funext crc b
  rw [index_eq]

/-- `CRC16` is the shift register with the feedback of 0x1021, fed with the bits of the bytes, the
highest first, from zero. -/
theorem crc16_shift_register (q : List Byte) :
    crc16 q = (q.flatMap fun b => (range 8).map b.getMsbD).foldl (Crc.feed ccittPoly) 0 := by
  rw [crc16_eq, Crc.crc_eq_foldl_feed (by decide)]

/-! ## The device -/

/-- The bytes that are still to come, and how many bytes the next reads give at most. When this list
is at its end, a read gives all that there is. -/
structure Device where
  stream : List Byte
  sizes : List ℕ

/-- `rt_device_read`. -/
def rtDeviceRead (d : Device) (size : ℕ) : List Byte × Device :=
  let n := match d.sizes with
    | [] => size
    | most :: _ => min most size
  (d.stream.take n, ⟨d.stream.drop n, d.sizes.tail⟩)

inductive Stage
  | none
  | establishing
  | established
  | transmitting
  | finishing
  | finished
  deriving DecidableEq

/-- What can be seen of a session: the codes that are sent and the calls of the callbacks. -/
inductive Event
  | put (code : Byte)
  | begin (buf : List Byte)
  | data (buf : List Byte)
  | end_ (buf : List Byte)
  deriving DecidableEq

/-- The callbacks, `none` for `NULL`. The answer of `on_end` is ignored. -/
structure Callbacks where
  onBegin : Option (List Event → List Byte → Byte)
  onData : Option (List Event → List Byte → Byte)
  onEnd : Bool

/-- `struct rym_ctx`, and what has been seen of the session. -/
structure Ctx where
  stage : Stage
  buf : ℕ → Byte
  dev : Device
  log : List Event

def rymSohPkgSz : ℕ := 1 + 2 + 128 + 2

/-- The slow path of `_rym_read_code`: `none` if it times out. -/
def readCodeLoop (stream : List Byte) : (sizes : List ℕ) → Option Byte × Device
  | [] =>
    let (r, d) := rtDeviceRead ⟨stream, []⟩ 1
    (r.head?, d)
  | size :: sizes =>
    -- no data yet, wait for one
    if stream = [] then (none, ⟨[], size :: sizes⟩)
    else
      match rtDeviceRead ⟨stream, size :: sizes⟩ 1 with
      | (b :: _, d) => (some b, d)
      | ([], _) => readCodeLoop stream sizes

/-- `_rym_read_code`. -/
def rymReadCode (c : Ctx) : Byte × Ctx :=
  match rtDeviceRead c.dev 1 with
  | (b :: _, dev) => (b, { c with dev, buf := update c.buf 0 b })
  | ([], dev) =>
    match readCodeLoop dev.stream dev.sizes with
    | (some b, dev) => (b, { c with dev, buf := update c.buf 0 b })
    | (none, dev) => (rymCodeNone, { c with dev })

/-- The loop of `_rym_read_data`: `got` is what has been read. -/
def readDataLoop (len : ℕ) : (sizes : List ℕ) → (stream got : List Byte) → List Byte × Device
  | [], stream, got =>
    let (r, d) := rtDeviceRead ⟨stream, []⟩ (len - got.length)
    (got ++ r, d)
  | size :: sizes, stream, got =>
    let (r, d) := rtDeviceRead ⟨stream, size :: sizes⟩ (len - got.length)
    if (got ++ r).length ≥ len then (got ++ r, d)
    else if d.stream = [] then (got ++ r, d)
    else readDataLoop len sizes d.stream (got ++ r)

/-- `_rym_read_data`, which reads into `buf + 1`. -/
def rymReadData (c : Ctx) (len : ℕ) : ℕ × Ctx :=
  let (got, dev) := readDataLoop len c.dev.sizes c.dev.stream []
  (got.length, { c with dev, buf := Cells.write c.buf 1 got })

/-- `_rym_putchar`. -/
def rymPutchar (c : Ctx) (code : Byte) : Ctx := { c with log := c.log ++ [.put code] }

/-! ## The session -/

section Session

variable (cb : Callbacks)

/-- The checksum that has been received, at `i` and `i + 1` of the buffer. -/
def recvCrc (buf : ℕ → Byte) (i : ℕ) : BitVec 16 :=
  ((buf i).setWidth 16 <<< 8) ||| (buf (i + 1)).setWidth 16

/-- The loop of `_rym_do_handshake`; `false` if it has run for `rounds` rounds. -/
def handshakeLoop : (rounds : ℕ) → Ctx → Bool × Ctx
  | 0, c => (false, c)
  | rounds + 1, c =>
    let (code, c) := rymReadCode (rymPutchar c rymCodeC)
    if code = rymCodeSoh then (true, c) else handshakeLoop rounds c

/-- `tm_sec` is an `int` and is compared with a `rt_size_t`. -/
def handshakeRounds (tmSec : ℤ) : ℕ := (tmSec % 2 ^ 32).toNat

/-- What `_rym_do_handshake` and `_rym_do_fin` do after SOH: they read the packet and check it. -/
def readHeader (c : Ctx) : ℤ × Ctx :=
  let (i, c) := rymReadData c (rymSohPkgSz - 1)
  if i ≠ rymSohPkgSz - 1 then (-rymErrDsz, c)
  -- sanity check
  else if c.buf 1 ≠ 0 ∨ c.buf 2 ≠ 0xff then (-rymErrSeq, c)
  else if recvCrc c.buf (rymSohPkgSz - 2) ≠ crc16 (Cells.read c.buf 3 (rymSohPkgSz - 5)) then
    (-rymErrCrc, c)
  else (rtEok, c)

/-- `_rym_do_handshake`. -/
def rymDoHandshake (tmSec : ℤ) (c : Ctx) : ℤ × Ctx :=
  -- send C every second, so the sender could know we are waiting for it
  match handshakeLoop (handshakeRounds tmSec) { c with stage := .establishing } with
  | (false, c) => (-rymErrTmo, c)
  | (true, c) =>
    let (err, c) := readHeader c
    if err ≠ rtEok then (err, c)
    else
      match cb.onBegin with
      | none => (rtEok, c)
      | some f =>
        let buf := Cells.read c.buf 3 128
        let code := f c.log buf
        let c := { c with log := c.log ++ [.begin buf] }
        if code ≠ rymCodeAck then (-rymErrCan, c) else (rtEok, c)

/-- `_rym_trans_data`: the code that it gives, or an error. -/
def rymTransData (dataSz : ℕ) (c : Ctx) : Except ℤ Byte × Ctx :=
  let tsz := 2 + dataSz + 2
  -- seq + data + crc
  let (i, c) := rymReadData c tsz
  if i ≠ tsz then (.error (-rymErrDsz), c)
  else if (c.buf 1).toNat + (c.buf 2).toNat ≠ 0xff then (.error (-rymErrSeq), c)
  -- the sender has sent the first packet again
  else if c.stage = .established ∧ c.buf 1 = 0x00 then (.ok rymCodeNone, c)
  else
    let c := { c with stage := .transmitting }
    if recvCrc c.buf (tsz - 1) ≠ crc16 (Cells.read c.buf 3 dataSz) then (.error (-rymErrCrc), c)
    else
      match cb.onData with
      | none => (.ok rymCodeAck, c)
      | some f =>
        let buf := Cells.read c.buf 3 dataSz
        (.ok (f c.log buf), { c with log := c.log ++ [.data buf] })

/-- The size of a packet's data, from its first byte. -/
def dataSize (code : Byte) : Option ℕ :=
  if code = rymCodeSoh then some 128
  else if code = rymCodeStx then some 1024
  else none

/-- The loop of `_rym_do_trans`; `none` if `fuel` does not suffice. -/
def transLoop : (fuel : ℕ) → Ctx → Option (ℤ × Ctx)
  | 0, _ => none
  | fuel + 1, c =>
    let (code, c) := rymReadCode c
    if code = rymCodeEot then some (rtEok, c)
    else
      match dataSize code with
      | none => some (-rymErrCode, c)
      | some dataSz =>
        match rymTransData cb dataSz c with
        | (.error err, c) => some (err, c)
        | (.ok code, c) =>
          if code = rymCodeCan then
            -- the spec requires multiple CAN
            some (-rymErrCan, (replicate rymEndSessionSendCanNum rymCodeCan).foldl rymPutchar c)
          else if code = rymCodeAck then transLoop fuel (rymPutchar c rymCodeAck)
          else transLoop fuel c

/-- `_rym_do_trans`: every round reads from the stream. -/
def rymDoTrans (c : Ctx) : Option (ℤ × Ctx) :=
  let c := rymPutchar (rymPutchar c rymCodeAck) rymCodeC
  transLoop cb (c.dev.stream.length + 1) { c with stage := .established }

/-- `_rym_do_fin`, up to its NAK. -/
def finBegin (c : Ctx) : Ctx :=
  let c := { c with stage := .finishing }
  let c := if cb.onEnd then { c with log := c.log ++ [.end_ (Cells.read c.buf 3 128)] } else c
  rymPutchar c rymCodeNak

/-- `_rym_do_fin`. -/
def rymDoFin (c : Ctx) : ℤ × Ctx :=
  let (code, c) := rymReadCode (finBegin cb c)
  if code ≠ rymCodeEot then (-rymErrCode, c)
  else
    let (code, c) := rymReadCode (rymPutchar (rymPutchar c rymCodeAck) rymCodeC)
    if code ≠ rymCodeSoh then (-rymErrCode, c)
    else
      let (err, c) := readHeader c
      if err ≠ rtEok then (err, c)
      else (rtEok, rymPutchar { c with stage := .finished } rymCodeAck)

/-- `_rym_do_recv`; `buf` is what `rt_malloc` gives. -/
def rymDoRecv (buf : Option (ℕ → Byte)) (dev : Device) (handshakeTimeout : ℤ) :
    Option (ℤ × List Event) :=
  match buf with
  | none => some (-rtEnomem, [])
  | some buf =>
    match rymDoHandshake cb handshakeTimeout ⟨.none, buf, dev, []⟩ with
    | (err, c) =>
      if err ≠ rtEok then some (err, c.log)
      else
        (rymDoTrans cb c).map fun (err, c) =>
          if err ≠ rtEok then (err, c.log)
          else
            let (err, c) := rymDoFin cb c
            (err, c.log)

end Session

/-! ## Reading -/

section Reading

variable {c : Ctx} {stream rest : List Byte} {b : Byte}

theorem readCodeLoop_eq (stream : List Byte) (sizes : List ℕ) :
    ∃ sizes', readCodeLoop stream sizes = (stream.head?, ⟨stream.tail, sizes'⟩) := by
  induction sizes with
  | nil =>
    refine ⟨[], ?_⟩
    cases stream <;> rfl
  | cons size sizes ih =>
    rw [readCodeLoop]
    cases stream with
    | nil => exact ⟨size :: sizes, rfl⟩
    | cons b rest =>
      rcases Nat.eq_zero_or_pos size with rfl | hsize
      · exact ih
      · have hmin : min size 1 = 1 := by omega
        exact ⟨sizes, by rw [rtDeviceRead]; dsimp only; rw [hmin]; rfl⟩

theorem rymReadCode_nil (h : c.dev.stream = []) :
    ∃ sizes, rymReadCode c = (rymCodeNone, { c with dev := ⟨[], sizes⟩ }) := by
  have hread : rtDeviceRead c.dev 1 = ([], ⟨[], c.dev.sizes.tail⟩) := by
    rw [rtDeviceRead, h, take_nil, drop_nil]
  obtain ⟨sizes, hloop⟩ := readCodeLoop_eq [] c.dev.sizes.tail
  exact ⟨sizes, by rw [rymReadCode, hread]; dsimp only; rw [hloop]; rfl⟩

/-- The next byte of the stream is read. -/
theorem rymReadCode_cons (h : c.dev.stream = b :: rest) :
    ∃ sizes, rymReadCode c =
      (b, { c with dev := ⟨rest, sizes⟩, buf := update c.buf 0 b }) := by
  obtain ⟨n, hread⟩ : ∃ n, rtDeviceRead c.dev 1 =
      ((b :: rest).take n, ⟨(b :: rest).drop n, c.dev.sizes.tail⟩) ∧ n ≤ 1 := by
    rw [rtDeviceRead, h]
    cases c.dev.sizes with
    | nil => exact ⟨1, rfl, le_rfl⟩
    | cons most _ => exact ⟨min most 1, rfl, min_le_right _ _⟩
  obtain ⟨hread, hn⟩ := hread
  match n, hn with
  | 0, _ =>
    obtain ⟨sizes, hloop⟩ := readCodeLoop_eq (b :: rest) c.dev.sizes.tail
    exact ⟨sizes, by rw [rymReadCode, hread]; dsimp only [take, drop]; rw [hloop]; rfl⟩
  | 1, _ => exact ⟨c.dev.sizes.tail, by rw [rymReadCode, hread]; rfl⟩

theorem readDataLoop_eq (len : ℕ) (sizes : List ℕ) (stream got : List Byte) :
    ∃ sizes', readDataLoop len sizes stream got =
      (got ++ stream.take (len - got.length), ⟨stream.drop (len - got.length), sizes'⟩) := by
  induction sizes generalizing stream got with
  | nil => exact ⟨[], rfl⟩
  | cons size sizes ih =>
    rw [readDataLoop, rtDeviceRead]
    dsimp only
    obtain ⟨n, hn⟩ : ∃ n, n = min size (len - got.length) := ⟨_, rfl⟩
    rw [← hn, length_append, length_take]
    split_ifs with henough hend
    · -- the read has given all that was asked for
      have hn' : n = len - got.length := by omega
      exact ⟨sizes, by rw [hn']; rfl⟩
    · -- the stream is at its end
      have hlen : stream.length ≤ n := drop_eq_nil_iff.mp hend
      rw [take_of_length_le hlen, drop_of_length_le hlen,
        take_of_length_le (by omega), drop_of_length_le (by omega)]
      exact ⟨sizes, rfl⟩
    · obtain ⟨sizes', hih⟩ := ih (stream.drop n) (got ++ stream.take n)
      have hlen : (got ++ stream.take n).length = got.length + n := by
        have : n < stream.length := by
          by_contra hle
          exact hend (drop_eq_nil_iff.mpr (not_lt.mp hle))
        rw [length_append, length_take]
        omega
      have hsum : n + (len - (got.length + n)) = len - got.length := by omega
      refine ⟨sizes', ?_⟩
      rw [hih, hlen, append_assoc, drop_drop, ← hsum, take_add]

/-- The next `len` bytes of the stream are read, or all that there are. -/
theorem rymReadData_eq (c : Ctx) (len : ℕ) :
    ∃ sizes, rymReadData c len =
      (min len c.dev.stream.length, { c with
        dev := ⟨c.dev.stream.drop len, sizes⟩
        buf := Cells.write c.buf 1 (c.dev.stream.take len) }) := by
  obtain ⟨sizes, hloop⟩ := readDataLoop_eq len c.dev.sizes c.dev.stream []
  refine ⟨sizes, ?_⟩
  rw [rymReadData, hloop]
  simp only [nil_append, length_nil, Nat.sub_zero, length_take]

end Reading

end RtThread.Ymodem
