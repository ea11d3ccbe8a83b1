import RtThread.Ymodem.Receive

/-!
# The packets of a YModem session

A packet is its first byte, its number and the complement, the payload and the checksum. The
loop of `_rym_do_trans` is a fold over the packets that are in the stream.

* `transLoop_packet`: a packet is taken, or it ends the session with an error.
* `transLoop_sound`, `transLoop_complete`: the loop returns `RT_EOK` exactly if packets that
  are taken, and then EOT, are what comes.
* `transLoop_isSome`: it ends.
-/

namespace RtThread.Ymodem

open List Option Prod

/-! ## Packets -/

/-- The number of bytes in a packet that begins with STX, or with SOH. -/
def payloadSize (stx : Bool) : ℕ := if stx then 1024 else 128

structure Packet where
  stx : Bool
  number : Byte
  complement : Byte
  payload : List Byte
  crcHigh : Byte
  crcLow : Byte
  length_payload : payload.length = payloadSize stx

namespace Packet

variable (p : Packet)

def code : Byte := if p.stx then rymCodeStx else rymCodeSoh

/-- What follows the first byte. -/
def body : List Byte := p.number :: p.complement :: (p.payload ++ [p.crcHigh, p.crcLow])

def bytes : List Byte := p.code :: p.body

/-- The number and the complement add to 0xFF. -/
def Numbered : Prop := p.number.toNat + p.complement.toNat = 0xff
  deriving Decidable

def CrcOk : Prop := p.crcHigh ++ p.crcLow = Crc.crc ccittPoly p.payload
  deriving Decidable

/-- The packet before the data and the one after it: SOH, number 0 and a valid checksum. -/
structure Header : Prop where
  soh : p.stx = false
  number : p.number = 0
  complement : p.complement = 0xff
  crc : p.CrcOk

variable {p}

theorem length_body : p.body.length = 2 + payloadSize p.stx + 2 := by
  simp only [body, length_cons, length_append, length_nil, p.length_payload]
  omega

theorem dataSize_code : dataSize p.code = some (payloadSize p.stx) := by
  unfold code
  cases p.stx <;> rfl

/-- Bytes that are enough for a packet are one. -/
theorem exists_body (stx : Bool) {stream : List Byte}
    (h : 2 + payloadSize stx + 2 ≤ stream.length) :
    ∃ (p : Packet) (rest : List Byte), p.stx = stx ∧ stream = p.body ++ rest := by
  match stream with
  | [] | [_] => simp at h
  | number :: complement :: stream =>
    simp only [length_cons] at h
    have hlen : (stream.drop (payloadSize stx)).length = stream.length - payloadSize stx :=
      length_drop
    match hcrc : stream.drop (payloadSize stx) with
    | [] | [_] => rw [hcrc] at hlen; simp only [length_cons, length_nil] at hlen; omega
    | crcHigh :: crcLow :: rest =>
      refine ⟨⟨stx, number, complement, stream.take (payloadSize stx), crcHigh, crcLow, ?_⟩,
        rest, rfl, ?_⟩
      · rw [length_take]
        omega
      · have happend := take_append_drop (payloadSize stx) stream
        rw [hcrc] at happend
        simp only [body, cons_append, append_assoc, nil_append, happend]

end Packet

/-! ## The buffer -/

section Buffer

variable {p : Packet} {c : Ctx} {rest : List Byte} {buf : ℕ → Byte} {len : ℕ}

theorem recvCrc_eq (buf : ℕ → Byte) (i : ℕ) : recvCrc buf i = buf i ++ buf (i + 1) := by
  rw [recvCrc, BitVec.append_def, BitVec.shiftLeftZeroExtend_eq, BitVec.setWidth'_eq]

/-- A packet has been read into the buffer. -/
theorem rymReadData_body (h : c.dev.stream = p.body ++ rest)
    (hlen : len = 2 + payloadSize p.stx + 2) :
    ∃ sizes buf, rymReadData c len = (len, { c with dev := ⟨rest, sizes⟩, buf }) ∧
      Cells.Holds buf 1 p.body := by
  rw [← p.length_body] at hlen
  obtain ⟨sizes, hread⟩ := rymReadData_eq c len
  rw [h, hlen, take_left, drop_left, length_append, Nat.min_eq_left (by omega)] at hread
  rw [hlen]
  exact ⟨sizes, _, hread, Cells.holds_write _ _ _⟩

theorem rymReadData_short (h : c.dev.stream.length < len) : (rymReadData c len).1 ≠ len := by
  obtain ⟨sizes, hread⟩ := rymReadData_eq c len
  rw [hread]
  omega

variable (h : Cells.Holds buf 1 p.body)

include h

theorem holds_number : buf 1 = p.number := h.1

theorem holds_complement : buf 2 = p.complement := h.2.1

theorem holds_payload : Cells.read buf 3 (payloadSize p.stx) = p.payload := by
  have hpayload := (Cells.holds_append.mp h.2.2).1.read
  rwa [p.length_payload] at hpayload

theorem holds_crc : recvCrc buf (3 + payloadSize p.stx) = p.crcHigh ++ p.crcLow := by
  have hcrc := (Cells.holds_append.mp h.2.2).2
  rw [p.length_payload] at hcrc
  rw [recvCrc_eq, hcrc.1, hcrc.2.1]

/-- The comparison of the checksums. -/
theorem holds_crcOk :
    recvCrc buf (3 + payloadSize p.stx) = crc16 (Cells.read buf 3 (payloadSize p.stx)) ↔
      p.CrcOk := by
  rw [holds_crc h, holds_payload h, crc16_eq, Packet.CrcOk]

end Buffer

/-! ## The packets of a session -/

/-- `on_begin` answers ACK and `on_data` never answers CAN. -/
structure Callbacks.Willing (cb : Callbacks) : Prop where
  begin_ack : ∀ f, cb.onBegin = some f → ∀ log buf, f log buf = rymCodeAck
  data_ne_can : ∀ f, cb.onData = some f → ∀ log buf, f log buf ≠ rymCodeCan

section Packets

variable (cb : Callbacks)

/-- The session after a packet has been delivered. -/
def packetLog (log : List Event) (p : Packet) : List Event :=
  match cb.onData with
  | none => log ++ [.put rymCodeAck]
  | some f =>
    log ++ .data p.payload :: if f log p.payload = rymCodeAck then [.put rymCodeAck] else []

/-- The first packet is sent again. -/
def Skips (stage : Stage) (p : Packet) : Prop := stage = .established ∧ p.number = 0
  deriving Decidable

/-- The packet does not end the session. -/
def Taken (stage : Stage) (p : Packet) : Prop := p.Numbered ∧ (Skips stage p ∨ p.CrcOk)

/-- The stage and the log after a packet. -/
def takePacket (s : Stage × List Event) (p : Packet) : Stage × List Event :=
  if Skips s.1 p then s else (.transmitting, packetLog cb s.2 p)

variable {cb} {p : Packet} {c c' : Ctx} {rest : List Byte} {ps : List Packet}

/-- `_rym_trans_data`, of a packet. -/
theorem rymTransData_eq (cb : Callbacks) (h : c.dev.stream = p.body ++ rest) :
    ∃ c₁, c₁.dev.stream = rest ∧ c₁.stage = c.stage ∧ c₁.log = c.log ∧
      rymTransData cb (payloadSize p.stx) c =
        if ¬ p.Numbered then (.error (-rymErrSeq), c₁)
        else if Skips c.stage p then (.ok rymCodeNone, c₁)
        else if ¬ p.CrcOk then (.error (-rymErrCrc), { c₁ with stage := .transmitting })
        else
          match cb.onData with
          | none => (.ok rymCodeAck, { c₁ with stage := .transmitting })
          | some f =>
            (.ok (f c.log p.payload),
              { c₁ with stage := .transmitting, log := c.log ++ [.data p.payload] }) := by
  obtain ⟨sizes, buf, hread, hbuf⟩ := rymReadData_body h rfl
  have hindex : 2 + payloadSize p.stx + 2 - 1 = 3 + payloadSize p.stx := by omega
  have hcrc := holds_crcOk hbuf
  rw [holds_payload hbuf] at hcrc
  refine ⟨{ c with dev := ⟨rest, sizes⟩, buf }, rfl, rfl, rfl, ?_⟩
  simp only [rymTransData, hread, ne_eq, not_true_eq_false, if_false, holds_number hbuf,
    holds_complement hbuf, holds_payload hbuf, hindex, hcrc]
  rfl

theorem transLoop_eot (cb : Callbacks) (fuel : ℕ) (h : c.dev.stream = rymCodeEot :: rest) :
    ∃ c', transLoop cb (fuel + 1) c = some (rtEok, c') ∧ c'.dev.stream = rest ∧ c'.log = c.log := by
  obtain ⟨sizes, hcode⟩ := rymReadCode_cons h
  simp only [transLoop, hcode]
  exact ⟨_, rfl, rfl, rfl⟩

theorem stage_takePacket {stage stage' : Stage} {log log' : List Event}
    (h : (stage', log') = takePacket cb (stage, log) p) :
    stage' = if Skips stage p then stage else .transmitting := by
  unfold takePacket at h
  split_ifs at h ⊢
  · exact (mk.inj h).1
  · exact (mk.inj h).1

section

variable (hcb : cb.Willing) {fuel : ℕ}
include hcb

theorem rymTransData_body (h : c.dev.stream = p.body ++ rest) :
    (Taken c.stage p ∧ ∃ code c₁, rymTransData cb (payloadSize p.stx) c = (.ok code, c₁) ∧
      code ≠ rymCodeCan ∧ c₁.dev.stream = rest ∧
      (c₁.stage, if code = rymCodeAck then c₁.log ++ [.put rymCodeAck] else c₁.log) =
        takePacket cb (c.stage, c.log) p) ∨
    (¬ Taken c.stage p ∧ ∃ err c₁, rymTransData cb (payloadSize p.stx) c = (.error err, c₁) ∧
      err ≠ rtEok) := by
  obtain ⟨c₁, hrest, hstage, hlog, heq⟩ := rymTransData_eq cb h
  rw [heq]
  by_cases hnum : p.Numbered
  · rw [if_neg (not_not.mpr hnum)]
    by_cases hskip : Skips c.stage p
    · refine .inl ⟨⟨hnum, .inl hskip⟩, ?_⟩
      rw [if_pos hskip, takePacket, if_pos hskip, ← hstage, ← hlog]
      exact ⟨_, _, rfl, by decide, hrest, rfl⟩
    · rw [if_neg hskip]
      by_cases hok : p.CrcOk
      · refine .inl ⟨⟨hnum, .inr hok⟩, ?_⟩
        rw [if_neg (not_not.mpr hok), takePacket, if_neg hskip, packetLog, ← hlog]
        cases hdata : cb.onData with
        | none => exact ⟨_, _, rfl, by decide, hrest, rfl⟩
        | some f =>
          refine ⟨_, _, rfl, hcb.data_ne_can f hdata _ _, hrest, ?_⟩
          dsimp only
          split_ifs
          · rw [append_assoc]
            rfl
          · rfl
      · rw [if_pos hok]
        refine .inr ⟨?_, _, _, rfl, by decide⟩
        rintro ⟨-, h | h⟩
        · exact hskip h
        · exact hok h
  · rw [if_pos hnum]
    exact .inr ⟨fun h => hnum h.1, _, _, rfl, by decide⟩

/-- A packet is taken, or it ends the session with an error. -/
theorem transLoop_packet (fuel : ℕ) (h : c.dev.stream = p.bytes ++ rest) :
    (Taken c.stage p ∧ ∃ c₁, transLoop cb (fuel + 1) c = transLoop cb fuel c₁ ∧
      c₁.dev.stream = rest ∧ (c₁.stage, c₁.log) = takePacket cb (c.stage, c.log) p) ∨
    (¬ Taken c.stage p ∧ ∃ err c₁, transLoop cb (fuel + 1) c = some (err, c₁) ∧ err ≠ rtEok) := by
  have hcons : c.dev.stream = p.code :: (p.body ++ rest) := h
  obtain ⟨sizes, hcode⟩ := rymReadCode_cons hcons
  have hne : p.code ≠ rymCodeEot := by
    unfold Packet.code
    cases p.stx <;> decide
  simp only [transLoop, hcode, if_neg hne, Packet.dataSize_code]
  rcases rymTransData_body hcb (c := { c with
      dev := ⟨p.body ++ rest, sizes⟩, buf := Function.update c.buf 0 p.code }) rfl with
    ⟨htaken, code, c₁, htrans, hcan, hrest, hlog⟩ | ⟨htaken, err, c₁, htrans, herr⟩
  · refine .inl ⟨htaken, ?_⟩
    rw [htrans]
    dsimp only
    rw [if_neg hcan, ← hlog]
    split_ifs
    · exact ⟨_, rfl, hrest, rfl⟩
    · exact ⟨_, rfl, hrest, rfl⟩
  · refine .inr ⟨htaken, err, c₁, ?_, herr⟩
    rw [htrans]

/-- A round of the loop: the stream begins with EOT, or with a packet that is taken, or the session
ends with an error. -/
theorem transLoop_step (fuel : ℕ) (c : Ctx) :
    (∃ rest c₁, c.dev.stream = rymCodeEot :: rest ∧
      transLoop cb (fuel + 1) c = some (rtEok, c₁) ∧ c₁.dev.stream = rest ∧ c₁.log = c.log) ∨
    (∃ p rest c₁, c.dev.stream = Packet.bytes p ++ rest ∧ Taken c.stage p ∧
      transLoop cb (fuel + 1) c = transLoop cb fuel c₁ ∧ c₁.dev.stream = rest ∧
      (c₁.stage, c₁.log) = takePacket cb (c.stage, c.log) p) ∨
    ∃ err c₁, transLoop cb (fuel + 1) c = some (err, c₁) ∧ err ≠ rtEok := by
  cases hstream : c.dev.stream with
  | nil =>
    obtain ⟨sizes, hcode⟩ := rymReadCode_nil hstream
    refine .inr (.inr ⟨-rymErrCode, { c with dev := ⟨[], sizes⟩ }, ?_, by decide⟩)
    simp only [transLoop, hcode]
    rfl
  | cons b stream =>
    by_cases heot : b = rymCodeEot
    · subst heot
      obtain ⟨c₁, hloop, hrest, hlog⟩ := transLoop_eot cb fuel hstream
      exact .inl ⟨stream, c₁, rfl, hloop, hrest, hlog⟩
    obtain ⟨sizes, hcode⟩ := rymReadCode_cons hstream
    cases hsize : dataSize b with
    | none =>
      refine .inr (.inr ⟨-rymErrCode, ?_⟩)
      simp only [transLoop, hcode, if_neg heot, hsize]
      exact ⟨_, rfl, by decide⟩
    | some dataSz =>
      obtain ⟨stx, rfl, rfl⟩ : ∃ stx, payloadSize stx = dataSz ∧
          (if stx then rymCodeStx else rymCodeSoh) = b := by
        unfold dataSize at hsize
        split_ifs at hsize with hsoh hstx
        · exact ⟨false, some.inj hsize, hsoh.symm⟩
        · exact ⟨true, some.inj hsize, hstx.symm⟩
      by_cases hlen : 2 + payloadSize stx + 2 ≤ stream.length
      · obtain ⟨p, rest, rfl, rfl⟩ := Packet.exists_body stx hlen
        rcases transLoop_packet hcb fuel hstream with ⟨htaken, c₁, hloop⟩ | ⟨-, herr⟩
        · exact .inr (.inl ⟨p, rest, c₁, rfl, htaken, hloop⟩)
        · exact .inr (.inr herr)
      · -- not enough data
        refine .inr (.inr ⟨-rymErrDsz, ?_⟩)
        simp only [transLoop, hcode, if_neg heot, hsize, rymTransData]
        rw [if_pos (rymReadData_short (not_le.mp hlen))]
        exact ⟨_, rfl, by decide⟩

/-- No packet of a list ends the session. -/
def AllTaken : Stage → List Packet → Prop
  | _, [] => True
  | stage, p :: ps =>
    Taken stage p ∧ AllTaken (if Skips stage p then stage else .transmitting) ps

/-- The loop has taken packets up to an EOT. -/
theorem transLoop_sound (h : transLoop cb fuel c = some (rtEok, c')) :
    ∃ ps, c.dev.stream = ps.flatMap Packet.bytes ++ rymCodeEot :: c'.dev.stream ∧
      AllTaken c.stage ps := by
  induction fuel generalizing c with
  | zero => cases h
  | succ fuel ih =>
    rcases transLoop_step hcb fuel c with ⟨rest, c₁, hstream, hloop, hrest, -⟩ |
      ⟨p, rest, c₁, hstream, htaken, hloop, hrest, hnext⟩ | ⟨err, c₁, hloop, herr⟩
    · rw [hloop] at h
      obtain rfl := (mk.inj (some.inj h)).2
      exact ⟨[], by rw [hstream, hrest]; rfl, trivial⟩
    · rw [hloop] at h
      obtain ⟨ps, hps, htaken'⟩ := ih h
      rw [stage_takePacket hnext] at htaken'
      refine ⟨p :: ps, ?_, htaken, htaken'⟩
      rw [hstream, ← hrest, hps, flatMap_cons, append_assoc]
    · rw [hloop] at h
      exact absurd (mk.inj (some.inj h)).1 herr

/-- Packets that are taken, up to an EOT. -/
theorem transLoop_complete {ps : List Packet}
    (h : c.dev.stream = ps.flatMap Packet.bytes ++ rymCodeEot :: rest)
    (htaken : AllTaken c.stage ps) (hfuel : ps.length < fuel) :
    ∃ c', transLoop cb fuel c = some (rtEok, c') ∧ c'.dev.stream = rest ∧
      c'.log = (ps.foldl (takePacket cb) (c.stage, c.log)).2 := by
  obtain ⟨fuel, rfl⟩ := Nat.exists_eq_add_one_of_ne_zero (Nat.ne_zero_of_lt hfuel)
  induction ps generalizing c fuel with
  | nil => exact transLoop_eot cb fuel h
  | cons p ps ih =>
    rw [length_cons] at hfuel
    rw [flatMap_cons, append_assoc] at h
    rcases transLoop_packet hcb fuel h with ⟨-, c₁, hloop, hrest, hnext⟩ | ⟨hnot, -⟩
    · obtain ⟨fuel, rfl⟩ := Nat.exists_eq_add_one_of_ne_zero (n := fuel) (by omega)
      have htaken' := htaken.2
      rw [← stage_takePacket hnext] at htaken'
      rw [foldl_cons, hloop, ← hnext]
      exact ih hrest htaken' fuel (by omega)
    · exact absurd htaken.1 hnot

/-- The loop ends: every round reads from the stream. -/
theorem transLoop_isSome (h : c.dev.stream.length < fuel) : (transLoop cb fuel c).isSome := by
  induction fuel generalizing c with
  | zero => omega
  | succ fuel ih =>
    rcases transLoop_step hcb fuel c with ⟨rest, c₁, -, hloop, -⟩ |
      ⟨p, rest, c₁, hstream, -, hloop, hrest, -⟩ | ⟨err, c₁, hloop, -⟩
    · rw [hloop]
      rfl
    · rw [hloop]
      refine ih ?_
      rw [hstream, Packet.bytes, length_append, length_cons] at h
      rw [hrest]
      omega
    · rw [hloop]
      rfl

end

/-- The packets that are delivered: those after the first packet sent again. -/
def delivered (ps : List Packet) : List Packet := ps.dropWhile fun p => p.number = 0

theorem delivered_cons_zero (ps : List Packet) (h : p.number = 0) :
    delivered (p :: ps) = delivered ps :=
  dropWhile_cons_of_pos (decide_eq_true h)

theorem delivered_cons_of_ne (ps : List Packet) (h : p.number ≠ 0) :
    delivered (p :: ps) = p :: ps :=
  dropWhile_cons_of_neg (by rwa [decide_eq_true_eq])

theorem allTaken_transmitting : AllTaken .transmitting ps ↔ ∀ p ∈ ps, p.Numbered ∧ p.CrcOk := by
  induction ps with
  | nil => simp [AllTaken]
  | cons p ps ih => simp [AllTaken, Taken, Skips, ih]

theorem allTaken_established :
    AllTaken .established ps ↔ (∀ p ∈ ps, p.Numbered) ∧ ∀ p ∈ delivered ps, p.CrcOk := by
  induction ps with
  | nil => simp [AllTaken, delivered]
  | cons p ps ih =>
    by_cases hzero : p.number = 0
    · have hskip : Skips .established p := ⟨rfl, hzero⟩
      simp only [AllTaken, Taken, hskip, true_or, and_true, if_true, ih,
        delivered_cons_zero ps hzero, forall_mem_cons, and_assoc]
    · have hskip : ¬ Skips .established p := fun h => hzero h.2
      simp only [AllTaken, Taken, hskip, false_or, if_false, allTaken_transmitting,
        delivered_cons_of_ne ps hzero, forall_mem_cons, forall_and]
      tauto

theorem foldl_takePacket_transmitting (ps : List Packet) (log : List Event) :
    (ps.foldl (takePacket cb) (.transmitting, log)).2 = ps.foldl (packetLog cb) log := by
  induction ps generalizing log with
  | nil => rfl
  | cons p ps ih =>
    have hskip : ¬ Skips .transmitting p := fun h => nomatch h.1
    rw [foldl_cons, takePacket, if_neg hskip, ih]
    rfl

theorem foldl_takePacket_established (ps : List Packet) (log : List Event) :
    (ps.foldl (takePacket cb) (.established, log)).2 = (delivered ps).foldl (packetLog cb) log := by
  induction ps with
  | nil => rfl
  | cons p ps ih =>
    rw [foldl_cons, takePacket]
    by_cases hzero : p.number = 0
    · have hskip : Skips .established p := ⟨rfl, hzero⟩
      rw [if_pos hskip, ih, delivered_cons_zero ps hzero]
    · have hskip : ¬ Skips .established p := fun h => hzero h.2
      rw [if_neg hskip, delivered_cons_of_ne ps hzero, foldl_takePacket_transmitting]
      rfl

end Packets

end RtThread.Ymodem
