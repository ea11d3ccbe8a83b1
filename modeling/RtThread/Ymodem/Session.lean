import RtThread.Ymodem.Packets

/-!
# Sessions of the YModem receiver

Which streams `_rym_do_recv` accepts, and what it gives to `on_data`.

* `session_accepted`: it returns `RT_EOK` exactly for the streams that begin with a session,
  and gives `on_data` the payloads of its packets.
* `delivered_once_iff`: the receiver does not look at the numbers of the packets, so it
  delivers the file exactly if they arrive in order and once.
-/

namespace RtThread.Ymodem

open List Option Nat Prod

/-! ## Before and after the packets -/

/-- What the receiver answers to packets: the calls of `on_data`, and ACK. -/
def exchanged (log : List Event) : List Event :=
  log.filter fun
    | .data _ => true
    | .put code => code = rymCodeAck
    | _ => false

theorem exchanged_append (log log' : List Event) :
    exchanged (log ++ log') = exchanged log ++ exchanged log' :=
  filter_append ..

/-- The payloads that are passed to `on_data`. -/
def onDataCalls (log : List Event) : List (List Byte) :=
  (exchanged log).filterMap fun
    | .data buf => some buf
    | _ => none

theorem onDataCalls_append (log log' : List Event) :
    onDataCalls (log ++ log') = onDataCalls log ++ onDataCalls log' := by
  rw [onDataCalls, exchanged_append, filterMap_append]
  rfl

section Ends

variable {cb : Callbacks} {p : Packet} {c c' : Ctx} {rest junk : List Byte} {rounds : ℕ} {tmSec : ℤ}

theorem readHeader_body (hsoh : p.stx = false) (h : c.dev.stream = p.body ++ rest) :
    ∃ err c₁, readHeader c = (err, c₁) ∧ (err = rtEok ↔ p.Header) ∧
      c₁.dev.stream = rest ∧ c₁.log = c.log := by
  have hlen : rymSohPkgSz - 1 = 2 + payloadSize p.stx + 2 := by rw [hsoh]; rfl
  obtain ⟨sizes, buf, hread, hbuf⟩ := rymReadData_body h hlen
  have hcrc : recvCrc buf (rymSohPkgSz - 2) = crc16 (Cells.read buf 3 (rymSohPkgSz - 5)) ↔
      p.CrcOk := by
    have := holds_crcOk hbuf
    rwa [hsoh] at this
  simp only [readHeader, hread, ne_eq, not_true_eq_false, if_false, hcrc, holds_number hbuf,
    holds_complement hbuf]
  split_ifs with hseq hok
  · refine ⟨_, _, rfl, ⟨fun h => absurd h (by decide), fun h => ?_⟩, rfl, rfl⟩
    rcases hseq with hseq | hseq
    · exact absurd h.number hseq
    · exact absurd h.complement hseq
  · rw [not_or, not_not, not_not] at hseq
    exact ⟨_, _, rfl, ⟨fun _ => ⟨hsoh, hseq.1, hseq.2, hok⟩, fun _ => rfl⟩, rfl, rfl⟩
  · exact ⟨_, _, rfl, ⟨fun h => absurd h (by decide), fun h => absurd h.crc hok⟩, rfl, rfl⟩

theorem readHeader_sound (h : readHeader c = (rtEok, c')) :
    ∃ p, Packet.Header p ∧ c.dev.stream = p.body ++ c'.dev.stream ∧ c'.log = c.log := by
  by_cases hlen : 2 + payloadSize false + 2 ≤ c.dev.stream.length
  · obtain ⟨p, rest, hsoh, hstream⟩ := Packet.exists_body false hlen
    obtain ⟨err, c₁, hread, hiff, hrest, hlog⟩ := readHeader_body hsoh hstream
    obtain ⟨rfl, rfl⟩ := mk.inj (hread.symm.trans h)
    exact ⟨p, hiff.mp rfl, by rw [hstream, hrest], hlog⟩
  · have hshort : (rymReadData c (rymSohPkgSz - 1)).1 ≠ rymSohPkgSz - 1 :=
      rymReadData_short (not_le.mp hlen)
    rw [readHeader] at h
    dsimp only at h
    rw [if_pos hshort] at h
    exact absurd (mk.inj h).1 (by decide)

theorem handshakeLoop_complete (h : c.dev.stream = junk ++ rymCodeSoh :: rest)
    (hjunk : rymCodeSoh ∉ junk) (hrounds : junk.length < rounds) :
    ∃ c₁, handshakeLoop rounds c = (true, c₁) ∧ c₁.dev.stream = rest ∧
      exchanged c₁.log = exchanged c.log := by
  obtain ⟨rounds, rfl⟩ := exists_eq_add_one_of_ne_zero (ne_zero_of_lt hrounds)
  have hlog : exchanged (rymPutchar c rymCodeC).log = exchanged c.log := by
    rw [rymPutchar, exchanged_append]
    exact append_nil _
  induction junk generalizing c rounds with
  | nil =>
    obtain ⟨sizes, hcode⟩ := rymReadCode_cons (c := rymPutchar c rymCodeC) h
    simp only [handshakeLoop, hcode, if_true]
    exact ⟨_, rfl, rfl, hlog⟩
  | cons b junk ih =>
    rw [mem_cons, not_or] at hjunk
    rw [length_cons] at hrounds
    obtain ⟨sizes, hcode⟩ := rymReadCode_cons (c := rymPutchar c rymCodeC) h
    obtain ⟨rounds, rfl⟩ := exists_eq_add_one_of_ne_zero (n := rounds) (by omega)
    rw [handshakeLoop]
    simp only [hcode, if_neg (Ne.symm hjunk.1)]
    obtain ⟨c₁, hloop, hrest, hlog₁⟩ := ih (c := { rymPutchar c rymCodeC with
      dev := ⟨junk ++ rymCodeSoh :: rest, sizes⟩
      buf := Function.update c.buf 0 b }) rfl hjunk.2 rounds (by omega)
      (by rw [rymPutchar, exchanged_append]; exact append_nil _)
    exact ⟨c₁, hloop, hrest, hlog₁.trans hlog⟩

theorem handshakeLoop_sound (h : handshakeLoop rounds c = (true, c')) :
    ∃ junk, c.dev.stream = junk ++ rymCodeSoh :: c'.dev.stream ∧ rymCodeSoh ∉ junk ∧
      junk.length < rounds := by
  induction rounds generalizing c with
  | zero => cases h
  | succ rounds ih =>
    rw [handshakeLoop] at h
    cases hstream : c.dev.stream with
    | nil =>
      -- nothing is read in any round
      obtain ⟨sizes, hcode⟩ := rymReadCode_nil (c := rymPutchar c rymCodeC) hstream
      simp only [hcode] at h
      obtain ⟨junk, hjunk, -⟩ := ih h
      exact absurd hjunk (by simp)
    | cons b stream =>
      obtain ⟨sizes, hcode⟩ := rymReadCode_cons (c := rymPutchar c rymCodeC) hstream
      simp only [hcode] at h
      split_ifs at h with hsoh
      · obtain rfl := (mk.inj h).2
        exact ⟨[], by rw [hsoh]; rfl, not_mem_nil, by simp⟩
      · obtain ⟨junk, hjunk, hnot, hlt⟩ := ih h
        refine ⟨b :: junk, ?_, ?_, ?_⟩
        · exact congrArg (b :: ·) hjunk
        · rw [mem_cons, not_or]
          exact ⟨Ne.symm hsoh, hnot⟩
        · rw [length_cons]
          omega

theorem rymDoHandshake_complete (hcb : cb.Willing) (h : c.dev.stream = junk ++ (p.bytes ++ rest))
    (hjunk : rymCodeSoh ∉ junk) (hrounds : junk.length < handshakeRounds tmSec) (hp : p.Header) :
    ∃ c₁, rymDoHandshake cb tmSec c = (rtEok, c₁) ∧ c₁.dev.stream = rest ∧
      exchanged c₁.log = exchanged c.log := by
  have hcode : p.code = rymCodeSoh := by rw [Packet.code, hp.soh]; rfl
  rw [Packet.bytes, hcode] at h
  obtain ⟨c₁, hloop, hrest, hlog⟩ :=
    handshakeLoop_complete (c := { c with stage := .establishing }) h hjunk hrounds
  obtain ⟨err, c₂, hheader, hiff, hrest₂, hlog₂⟩ := readHeader_body hp.soh hrest
  obtain rfl := hiff.mpr hp
  have hlog' : exchanged c₂.log = exchanged c.log := by rw [hlog₂, hlog]
  simp only [rymDoHandshake, hloop, hheader, ne_eq, not_true_eq_false, if_false]
  cases hbegin : cb.onBegin with
  | none => exact ⟨c₂, rfl, hrest₂, hlog'⟩
  | some f =>
    dsimp only
    rw [if_neg (not_not.mpr (hcb.begin_ack f hbegin _ _))]
    refine ⟨_, rfl, hrest₂, ?_⟩
    rw [exchanged_append, hlog']
    exact append_nil _

theorem rymDoHandshake_sound (h : rymDoHandshake cb tmSec c = (rtEok, c')) :
    ∃ junk p, c.dev.stream = junk ++ (Packet.bytes p ++ c'.dev.stream) ∧ rymCodeSoh ∉ junk ∧
      junk.length < handshakeRounds tmSec ∧ p.Header := by
  rw [rymDoHandshake] at h
  split at h
  · exact absurd (mk.inj h).1 (by decide)
  · rename_i c₁ hloop
    obtain ⟨junk, hstream, hjunk, hlt⟩ := handshakeLoop_sound hloop
    obtain ⟨⟨err, c₂⟩, hheader⟩ : ∃ r, readHeader c₁ = r := ⟨_, rfl⟩
    rw [hheader] at h
    dsimp only at h
    split_ifs at h with herr
    · exact absurd (mk.inj h).1 herr
    · obtain ⟨p, hp, hbody, -⟩ := readHeader_sound (not_not.mp herr ▸ hheader)
      have hcode : p.code = rymCodeSoh := by rw [Packet.code, hp.soh]; rfl
      have hrest : c'.dev.stream = c₂.dev.stream := by
        split at h
        · rw [← (mk.inj h).2]
        · split_ifs at h
          · exact absurd (mk.inj h).1 (by decide)
          · rw [← (mk.inj h).2]
      refine ⟨junk, p, ?_, hjunk, hlt, hp⟩
      rw [Packet.bytes, hcode, hrest, cons_append, ← hbody]
      exact hstream

theorem rymReadCode_next {b : Byte} (h : c.dev.stream = b :: rest) :
    ∃ c₁, rymReadCode c = (b, c₁) ∧ c₁.dev.stream = rest ∧ c₁.log = c.log := by
  obtain ⟨sizes, hread⟩ := rymReadCode_cons h
  exact ⟨_, hread, rfl, rfl⟩

/-- A code that is not `RYM_CODE_NONE` has been read. -/
theorem rymReadCode_sound {code : Byte} (h : rymReadCode c = (code, c')) (hcode : code ≠ 0) :
    c.dev.stream = code :: c'.dev.stream := by
  cases hstream : c.dev.stream with
  | nil =>
    obtain ⟨sizes, hread⟩ := rymReadCode_nil hstream
    exact absurd (mk.inj (hread.symm.trans h)).1.symm hcode
  | cons b stream =>
    obtain ⟨sizes, hread⟩ := rymReadCode_cons hstream
    obtain ⟨rfl, rfl⟩ := mk.inj (hread.symm.trans h)
    rfl

theorem finBegin_dev (cb : Callbacks) (c : Ctx) : (finBegin cb c).dev = c.dev := by
  unfold finBegin
  split_ifs <;> rfl

theorem exchanged_finBegin (cb : Callbacks) (c : Ctx) :
    exchanged (finBegin cb c).log = exchanged c.log := by
  unfold finBegin
  split_ifs
  · simp [rymPutchar, exchanged, rymCodeNak, rymCodeAck]
  · simp [rymPutchar, exchanged, rymCodeNak, rymCodeAck]

theorem rymDoFin_complete (cb : Callbacks) (h : c.dev.stream = rymCodeEot :: (p.bytes ++ rest))
    (hp : p.Header) :
    ∃ c₁, rymDoFin cb c = (rtEok, c₁) ∧
      exchanged c₁.log = exchanged c.log ++ [.put rymCodeAck, .put rymCodeAck] := by
  have hcode : p.code = rymCodeSoh := by rw [Packet.code, hp.soh]; rfl
  rw [Packet.bytes, hcode, ← finBegin_dev cb c] at h
  obtain ⟨c₁, hread₁, hrest₁, hlog₁⟩ := rymReadCode_next h
  obtain ⟨c₂, hread₂, hrest₂, hlog₂⟩ :=
    rymReadCode_next (c := rymPutchar (rymPutchar c₁ rymCodeAck) rymCodeC) hrest₁
  obtain ⟨err, c₃, hheader, hiff, -, hlog₃⟩ := readHeader_body hp.soh hrest₂
  obtain rfl := hiff.mpr hp
  refine ⟨rymPutchar { c₃ with stage := .finished } rymCodeAck, ?_, ?_⟩
  · simp only [rymDoFin, hread₁, hread₂, hheader, ne_eq, not_true_eq_false, if_false]
  · simp only [rymPutchar, hlog₃, hlog₂, hlog₁, exchanged_append, exchanged_finBegin, append_assoc]
    rfl

theorem rymDoFin_sound (h : rymDoFin cb c = (rtEok, c')) :
    ∃ p, c.dev.stream = rymCodeEot :: (Packet.bytes p ++ c'.dev.stream) ∧ p.Header := by
  obtain ⟨⟨code₁, c₁⟩, hread₁⟩ : ∃ r, rymReadCode (finBegin cb c) = r := ⟨_, rfl⟩
  obtain ⟨⟨code₂, c₂⟩, hread₂⟩ :
    ∃ r, rymReadCode (rymPutchar (rymPutchar c₁ rymCodeAck) rymCodeC) = r := ⟨_, rfl⟩
  obtain ⟨⟨err, c₃⟩, hheader⟩ : ∃ r, readHeader c₂ = r := ⟨_, rfl⟩
  simp only [rymDoFin, hread₁, hread₂, hheader] at h
  split_ifs at h with heot hsoh herr
  · exact absurd (mk.inj h).1 (by decide)
  · exact absurd (mk.inj h).1 (by decide)
  · exact absurd (mk.inj h).1 herr
  · obtain rfl := not_not.mp heot
    obtain rfl := not_not.mp hsoh
    obtain rfl := not_not.mp herr
    obtain ⟨p, hp, hbody, -⟩ := readHeader_sound hheader
    have hcode : p.code = rymCodeSoh := by rw [Packet.code, hp.soh]; rfl
    have hstream₁ := rymReadCode_sound hread₁ (by decide)
    have hstream₂ := rymReadCode_sound hread₂ (by decide)
    refine ⟨p, ?_, hp⟩
    rw [hbody] at hstream₂
    rw [← finBegin_dev cb c, hstream₁, Packet.bytes, hcode, ← (mk.inj h).2]
    exact congrArg (rymCodeEot :: ·) hstream₂

end Ends

/-! ## Sessions -/

/-- The bytes of a session with the packets `ps`: fewer than `rounds` bytes other than SOH, a
header, the packets, of which those that are delivered have a valid checksum, EOT, EOT and a header.
-/
structure IsSession (rounds : ℕ) (bytes : List Byte) (ps : List Packet) : Prop where
  form : ∃ (junk : List Byte) (first last : Packet),
    bytes = junk ++ (first.bytes ++
      (ps.flatMap Packet.bytes ++ rymCodeEot :: rymCodeEot :: last.bytes)) ∧
    junk.length < rounds ∧ rymCodeSoh ∉ junk ∧ first.Header ∧ last.Header
  numbered : ∀ p ∈ ps, p.Numbered
  crc : ∀ p ∈ delivered ps, p.CrcOk

section Sessions

variable {cb : Callbacks} {dev : Device} {tmSec : ℤ} {ps : List Packet} {bytes : List Byte}

theorem length_le_length_bytes (ps : List Packet) :
    ps.length ≤ (ps.flatMap Packet.bytes).length := by
  induction ps with
  | nil => exact le_rfl
  | cons p ps ih =>
    rw [flatMap_cons, length_append, length_cons, Packet.bytes, length_cons]
    omega

/-- The receiver accepts a stream that begins with a session. -/
theorem rymDoRecv_session (hcb : cb.Willing) (buf : ℕ → Byte) (dev : Device)
    (hbegins : bytes <+: dev.stream) (h : IsSession (handshakeRounds tmSec) bytes ps) :
    ∃ log log', rymDoRecv cb (some buf) dev tmSec = some (rtEok, log) ∧
      exchanged log' = [.put rymCodeAck] ∧
      exchanged log = exchanged ((delivered ps).foldl (packetLog cb) log') ++
        [.put rymCodeAck, .put rymCodeAck] := by
  obtain ⟨⟨junk, first, last, rfl, hrounds, hjunk, hfirst, hlast⟩, hnum, hcrc⟩ := h
  obtain ⟨rest, hstream⟩ := hbegins
  simp only [append_assoc, cons_append] at hstream
  obtain ⟨c₁, hhand, hrest₁, hlog₁⟩ := rymDoHandshake_complete hcb
    (c := ⟨.none, buf, dev, []⟩) hstream.symm hjunk hrounds hfirst
  have hfuel : ps.length < c₁.dev.stream.length + 1 := by
    have := length_le_length_bytes ps
    rw [hrest₁, length_append]
    omega
  obtain ⟨c₂, htrans, hrest₂, hlog₂⟩ := transLoop_complete hcb
    (c := { rymPutchar (rymPutchar c₁ rymCodeAck) rymCodeC with stage := .established })
    hrest₁ (allTaken_established.mpr ⟨hnum, hcrc⟩) hfuel
  obtain ⟨c₃, hfin, hlog₃⟩ := rymDoFin_complete cb hrest₂ hlast
  have htrans' : rymDoTrans cb c₁ = some (rtEok, c₂) := htrans
  refine ⟨c₃.log, (rymPutchar (rymPutchar c₁ rymCodeAck) rymCodeC).log, ?_, ?_, ?_⟩
  · simp only [rymDoRecv, hhand, htrans', hfin, ne_eq, not_true_eq_false, if_false, map_some]
  · simp only [rymPutchar, exchanged_append, hlog₁]
    rfl
  · rw [hlog₃, hlog₂, foldl_takePacket_established]

/-- A stream that the receiver accepts begins with a session. -/
theorem session_of_rymDoRecv (hcb : cb.Willing) {buf : ℕ → Byte} {log : List Event}
    (h : rymDoRecv cb (some buf) dev tmSec = some (rtEok, log)) :
    ∃ bytes ps, bytes <+: dev.stream ∧ IsSession (handshakeRounds tmSec) bytes ps := by
  obtain ⟨⟨err₁, c₁⟩, hhand⟩ : ∃ r, rymDoHandshake cb tmSec ⟨.none, buf, dev, []⟩ = r := ⟨_, rfl⟩
  simp only [rymDoRecv, hhand] at h
  split_ifs at h with herr₁
  · exact absurd (mk.inj (some.inj h)).1 herr₁
  obtain rfl := not_not.mp herr₁
  obtain ⟨⟨err₂, c₂⟩, htrans, h⟩ := map_eq_some_iff.mp h
  split_ifs at h with herr₂
  · exact absurd (mk.inj h).1 herr₂
  obtain rfl := not_not.mp herr₂
  obtain ⟨⟨err₃, c₃⟩, hfin⟩ : ∃ r, rymDoFin cb c₂ = r := ⟨_, rfl⟩
  rw [hfin] at h
  obtain rfl : err₃ = rtEok := (mk.inj h).1
  obtain ⟨junk, first, hstream, hjunk, hrounds, hfirst⟩ := rymDoHandshake_sound hhand
  obtain ⟨ps, hps, htaken⟩ := transLoop_sound hcb htrans
  obtain ⟨hnum, hcrc⟩ := allTaken_established.mp htaken
  obtain ⟨last, hlast, hheader⟩ := rymDoFin_sound hfin
  refine ⟨_, ps, ?_, ⟨junk, first, last, rfl, hrounds, hjunk, hfirst, hheader⟩, hnum, hcrc⟩
  refine ⟨c₃.dev.stream, ?_⟩
  have hps' : c₁.dev.stream = _ := hps
  rw [hstream, hps', hlast]
  simp only [append_assoc, cons_append]

theorem rymDoRecv_isSome (hcb : cb.Willing) (buf : ℕ → Byte) (dev : Device) (tmSec : ℤ) :
    ∃ err log, rymDoRecv cb (some buf) dev tmSec = some (err, log) := by
  obtain ⟨⟨err, c⟩, hhand⟩ : ∃ r, rymDoHandshake cb tmSec ⟨.none, buf, dev, []⟩ = r := ⟨_, rfl⟩
  simp only [rymDoRecv, hhand]
  split_ifs
  · exact ⟨_, _, rfl⟩
  · obtain ⟨r, htrans⟩ := isSome_iff_exists.mp
      (transLoop_isSome (c := { rymPutchar (rymPutchar c rymCodeAck) rymCodeC with
        stage := .established }) hcb (lt_succ_self _))
    have htrans' : rymDoTrans cb c = some r := htrans
    rw [htrans']
    exact ⟨_, _, rfl⟩

theorem onDataCalls_foldl_packetLog {f : List Event → List Byte → Byte}
    (hdata : cb.onData = some f) (ps : List Packet) (log : List Event) :
    onDataCalls (ps.foldl (packetLog cb) log) = onDataCalls log ++ ps.map Packet.payload := by
  induction ps generalizing log with
  | nil => exact (append_nil _).symm
  | cons p ps ih =>
    have hpacket : onDataCalls (packetLog cb log p) = onDataCalls log ++ [p.payload] := by
      rw [packetLog, hdata]
      rw [onDataCalls_append]
      split_ifs <;> rfl
    rw [foldl_cons, ih, hpacket, append_assoc]
    rfl

theorem onDataCalls_foldl_packetLog_none (hdata : cb.onData = none) (ps : List Packet)
    (log : List Event) : onDataCalls (ps.foldl (packetLog cb) log) = onDataCalls log := by
  induction ps generalizing log with
  | nil => rfl
  | cons p ps ih =>
    rw [foldl_cons, ih, packetLog, hdata, onDataCalls_append]
    exact append_nil _

/-- What `on_data` is called with, if there is one. -/
theorem onDataCalls_session {log log' : List Event} (hlog' : exchanged log' = [.put rymCodeAck])
    (hlog : exchanged log = exchanged ((delivered ps).foldl (packetLog cb) log') ++
      [.put rymCodeAck, .put rymCodeAck]) :
    onDataCalls log = if cb.onData.isSome then (delivered ps).map Packet.payload else [] := by
  have hcalls : onDataCalls log = onDataCalls ((delivered ps).foldl (packetLog cb) log') := by
    rw [onDataCalls, hlog, filterMap_append]
    exact append_nil _
  have hnone : onDataCalls log' = [] := by rw [onDataCalls, hlog']; rfl
  cases hdata : cb.onData with
  | none => rw [hcalls, onDataCalls_foldl_packetLog_none hdata, hnone]; rfl
  | some f => rw [hcalls, onDataCalls_foldl_packetLog hdata, hnone]; rfl

/-- For every stream, and however it is split into reads, the receiver returns; it returns `RT_EOK`
exactly if the stream begins with a session, and then it has called `on_data` with the payloads of
the packets of the session. -/
theorem session_accepted (hcb : cb.Willing) (buf : ℕ → Byte) (dev : Device) (tmSec : ℤ) :
    ∃ err log, rymDoRecv cb (some buf) dev tmSec = some (err, log) ∧
      (err = rtEok ↔
        ∃ bytes ps, bytes <+: dev.stream ∧ IsSession (handshakeRounds tmSec) bytes ps) ∧
      ∀ bytes ps, bytes <+: dev.stream → IsSession (handshakeRounds tmSec) bytes ps →
        onDataCalls log =
          if cb.onData.isSome then (delivered ps).map Packet.payload else [] := by
  obtain ⟨err, log, hrecv⟩ := rymDoRecv_isSome hcb buf dev tmSec
  have hsession {bytes : List Byte} {ps : List Packet} (hbegins : bytes <+: dev.stream)
      (h : IsSession (handshakeRounds tmSec) bytes ps) : err = rtEok ∧ onDataCalls log =
        if cb.onData.isSome then (delivered ps).map Packet.payload else [] := by
    obtain ⟨log₁, log', hrecv₁, hlog', hlog⟩ := rymDoRecv_session hcb buf dev hbegins h
    obtain ⟨rfl, rfl⟩ := mk.inj (some.inj (hrecv.symm.trans hrecv₁))
    exact ⟨rfl, onDataCalls_session hlog' hlog⟩
  refine ⟨err, log, hrecv, ⟨?_, ?_⟩, fun _ _ hbegins h => (hsession hbegins h).2⟩
  · rintro rfl
    exact session_of_rymDoRecv hcb hrecv
  · rintro ⟨bytes, ps, hbegins, h⟩
    exact (hsession hbegins h).1

end Sessions

/-- A packet of zeros. -/
def zeroPacket (number : Byte) : Packet where
  stx := false
  number := number
  complement := ~~~number
  payload := replicate 128 0
  crcHigh := 0
  crcLow := 0
  length_payload := length_replicate

theorem crc_replicate_zero (n : ℕ) : Crc.crc ccittPoly (replicate n 0) = 0 := by
  induction n with
  | zero => rfl
  | succ n ih => exact ih

theorem zeroPacket_crcOk (number : Byte) : (zeroPacket number).CrcOk := by
  rw [Packet.CrcOk, zeroPacket, crc_replicate_zero]
  exact (by decide : (0 : Byte) ++ (0 : Byte) = (0 : BitVec 16))

theorem zeroPacket_numbered (number : Byte) : (zeroPacket number).Numbered := by
  simp only [zeroPacket, Packet.Numbered, BitVec.toNat_not]
  omega

theorem zeroPacket_header : (zeroPacket 0).Header := ⟨rfl, rfl, rfl, zeroPacket_crcOk 0⟩

/-- A session of packets of zeros. -/
def zeroSession (numbers : List Byte) : List Byte :=
  (zeroPacket 0).bytes ++ ((numbers.map zeroPacket).flatMap Packet.bytes ++
    rymCodeEot :: rymCodeEot :: (zeroPacket 0).bytes)

theorem isSession_zeroSession (numbers : List Byte) :
    IsSession (handshakeRounds 1) (zeroSession numbers) (numbers.map zeroPacket) where
  form := ⟨[], zeroPacket 0, zeroPacket 0, rfl, by decide, not_mem_nil, zeroPacket_header,
    zeroPacket_header⟩
  numbered p hp := by
    obtain ⟨number, -, rfl⟩ := mem_map.mp hp
    exact zeroPacket_numbered number
  crc p hp := by
    obtain ⟨number, -, rfl⟩ := mem_map.mp (dropWhile_subset _ hp)
    exact zeroPacket_crcOk number

def sampleCallbacks : Callbacks := ⟨none, some fun _ _ => rymCodeAck, true⟩

theorem sampleCallbacks_willing : sampleCallbacks.Willing where
  begin_ack := nofun
  data_ne_can f hf log buf := by
    obtain rfl := some.inj hf
    exact (by decide : rymCodeAck ≠ rymCodeCan)

/-- The first packet is sent twice, then one packet of data; the reads give nothing, then one byte,
and then all that is asked for. -/
theorem session_accepted_sample :
    ∃ log, rymDoRecv sampleCallbacks (some fun _ => 0) ⟨zeroSession [0, 1], [0, 1]⟩ 1 =
        some (rtEok, log) ∧
      onDataCalls log = [replicate 128 0] := by
  obtain ⟨err, log, hrecv, hiff, hcalls⟩ := session_accepted sampleCallbacks_willing
    (fun _ => 0) ⟨zeroSession [0, 1], [0, 1]⟩ 1
  have hsession := isSession_zeroSession [0, 1]
  obtain rfl := hiff.mpr ⟨_, _, prefix_rfl, hsession⟩
  exact ⟨log, hrecv, hcalls _ _ prefix_rfl hsession⟩

/-! ## Packets that are sent again -/

/-- A receiver that delivers a packet only if it has the number that is expected next. -/
def receive (expected : Byte) : List Packet → List (List Byte)
  | [] => []
  | p :: ps =>
    if p.number = expected then p.payload :: receive (expected + 1) ps else receive expected ps

/-- The packets are numbered from `expected` on. -/
def NumberedFrom (expected : Byte) : List Packet → Prop
  | [] => True
  | p :: ps => p.number = expected ∧ NumberedFrom (expected + 1) ps

section Again

variable {ps : List Packet} {expected : Byte}

theorem receive_delivered (ps : List Packet) : receive 1 (delivered ps) = receive 1 ps := by
  induction ps with
  | nil => rfl
  | cons p ps ih =>
    by_cases hzero : p.number = 0
    · rw [delivered_cons_zero ps hzero, ih, receive, if_neg (by rw [hzero]; decide)]
    · rw [delivered_cons_of_ne ps hzero]

theorem receive_sublist (expected : Byte) (ps : List Packet) :
    (receive expected ps).Sublist (ps.map Packet.payload) := by
  induction ps generalizing expected with
  | nil => exact Sublist.slnil
  | cons p ps ih =>
    rw [receive]
    split_ifs
    · exact (ih _).cons_cons _
    · exact (ih _).cons _

theorem receive_eq_iff :
    receive expected ps = ps.map Packet.payload ↔ NumberedFrom expected ps := by
  induction ps generalizing expected with
  | nil => simp [receive, NumberedFrom]
  | cons p ps ih =>
    rw [receive, NumberedFrom, map_cons]
    split_ifs with hnum
    · rw [cons.injEq, ih]
      simp [hnum]
    · refine ⟨fun heq => ?_, fun h => absurd h.1 hnum⟩
      have hlen := congrArg length heq
      have hle := (receive_sublist expected ps).length_le
      rw [length_cons] at hlen
      omega

/-- A sublist with the same bytes is the whole list, if no element is empty. -/
theorem eq_of_sublist_of_flatten_eq {α : Type*} {l l' : List (List α)} (h : l.Sublist l')
    (hne : ∀ a ∈ l', a ≠ []) (heq : l.flatten = l'.flatten) : l = l' := by
  induction h with
  | slnil => rfl
  | cons a hsub ih =>
    have hle := hsub.flatten.length_le
    have hpos := length_pos_iff.mpr (hne a mem_cons_self)
    have hlen := congrArg length heq
    rw [flatten_cons, length_append] at hlen
    omega
  | cons_cons a _ ih =>
    rw [flatten_cons, flatten_cons, append_cancel_left_eq] at heq
    rw [ih (fun b hb => hne b (mem_cons_of_mem a hb)) heq]

theorem exchanged_foldl_packetLog {cb : Callbacks} {f : List Event → List Byte → Byte}
    (hdata : cb.onData = some f) (hack : ∀ log buf, f log buf = rymCodeAck) (ps : List Packet)
    (log : List Event) :
    exchanged (ps.foldl (packetLog cb) log) =
      exchanged log ++ ps.flatMap fun p => [.data p.payload, .put rymCodeAck] := by
  induction ps generalizing log with
  | nil => exact (append_nil _).symm
  | cons p ps ih =>
    have hpacket : exchanged (packetLog cb log p) =
        exchanged log ++ [.data p.payload, .put rymCodeAck] := by
      rw [packetLog, hdata]
      dsimp only
      rw [hack, exchanged_append]
      rfl
    rw [foldl_cons, ih, hpacket, append_assoc, flatMap_cons]

/-- In every session, with an `on_data` that answers ACK, each packet that is not skipped is
acknowledged; what is delivered is the file exactly if these packets are numbered one after the
other from 1 on. -/
theorem delivered_once_iff {cb : Callbacks} {f : List Event → List Byte → Byte}
    (hcb : cb.Willing) (hdata : cb.onData = some f) (hack : ∀ log buf, f log buf = rymCodeAck)
    (buf : ℕ → Byte) (dev : Device) {tmSec : ℤ} {bytes : List Byte}
    (hbegins : bytes <+: dev.stream) (h : IsSession (handshakeRounds tmSec) bytes ps) :
    ∃ log, rymDoRecv cb (some buf) dev tmSec = some (rtEok, log) ∧
      exchanged log =
        .put rymCodeAck :: (delivered ps).flatMap (fun p => [.data p.payload, .put rymCodeAck]) ++
          [.put rymCodeAck, .put rymCodeAck] ∧
      ((onDataCalls log).flatten = (receive 1 ps).flatten ↔ NumberedFrom 1 (delivered ps)) := by
  obtain ⟨log, log', hrecv, hlog', hlog⟩ := rymDoRecv_session hcb buf dev hbegins h
  refine ⟨log, hrecv, ?_, ?_⟩
  · rw [hlog, exchanged_foldl_packetLog hdata hack, hlog']
    rfl
  · have hcalls := onDataCalls_session hlog' hlog
    rw [hdata, isSome_some, if_pos rfl] at hcalls
    rw [hcalls, ← receive_delivered, ← receive_eq_iff]
    refine ⟨fun heq => ?_, fun heq => by rw [heq]⟩
    refine eq_of_sublist_of_flatten_eq (receive_sublist 1 _) ?_ heq.symm
    intro payload hmem
    obtain ⟨p, -, rfl⟩ := mem_map.mp hmem
    have hlen := p.length_payload
    intro hnil
    rw [hnil, payloadSize] at hlen
    split_ifs at hlen

end Again

/-- Two packets in order. -/
theorem delivered_once_sample :
    ∃ log, rymDoRecv sampleCallbacks (some fun _ => 0) ⟨zeroSession [1, 2], []⟩ 1 =
        some (rtEok, log) ∧
      (onDataCalls log).flatten = (receive 1 ([1, 2].map zeroPacket)).flatten := by
  obtain ⟨log, hrecv, -, hiff⟩ := delivered_once_iff sampleCallbacks_willing rfl
    (fun _ _ => rfl) (fun _ => 0) ⟨zeroSession [1, 2], []⟩ prefix_rfl
    (isSession_zeroSession [1, 2])
  exact ⟨log, hrecv, hiff.mpr ⟨rfl, rfl, trivial⟩⟩

/-- The first packet is sent again, and is delivered twice. -/
theorem retransmitted_packet_delivered_twice :
    ∃ log, rymDoRecv sampleCallbacks (some fun _ => 0) ⟨zeroSession [1, 1], []⟩ 1 =
        some (rtEok, log) ∧
      onDataCalls log = [replicate 128 0, replicate 128 0] ∧
      receive 1 ([1, 1].map zeroPacket) = [replicate 128 0] := by
  obtain ⟨log, log', hrecv, hlog', hlog⟩ := rymDoRecv_session sampleCallbacks_willing
    (fun _ => 0) ⟨zeroSession [1, 1], []⟩ prefix_rfl (isSession_zeroSession [1, 1])
  exact ⟨log, hrecv, onDataCalls_session hlog' hlog, rfl⟩

end RtThread.Ymodem
