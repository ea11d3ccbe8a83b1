import RtThread.Ipc.Basic
import RtThread.Lib.Circular
import RtThread.Lib.Runs

/-!
# Mailboxes

Models of `rt_mb_init`, `rt_mb_send_wait`, `rt_mb_send`, `rt_mb_recv` and
`rt_mb_control` (`src/ipc.c`, lines 1255–1717), and of threads and interrupt
handlers that use one mailbox.

A blocked sender or receiver tests the mailbox again when it runs, with what is
left of its timeout, and may block again: another thread may have come first.
`MbSys.calls` holds the local variables of the calls that are blocked.

* `MbOk`: the indices of the circular buffer.
* `mailbox_fifo`: what has been received is a prefix of what has been sent,
  and the rest is in the mailbox.
-/

namespace RtThread

open Runs Option Circular Nat Function

/-- `rt_uint32_t`, the type of a mail. -/
abbrev Mail := BitVec 32

/-- `struct rt_mailbox` without its wait lists. `size`, `entry` and the offsets are `rt_uint16_t`.
-/
structure Mailbox where
  msgPool : ℕ → Mail
  size : ℕ
  entry : ℕ
  inOffset : ℕ
  outOffset : ℕ
  flag : IpcFlag

/-- `rt_mb_init` (lines 1255–1283). -/
def rtMbInit (msgpool : ℕ → Mail) (size : ℕ) (flag : IpcFlag) : Mailbox where
  msgPool := msgpool
  size := size % 2 ^ 16
  entry := 0
  inOffset := 0
  outOffset := 0
  flag := flag

/-- The wait lists of a mailbox, `parent.suspend_thread` and `suspend_sender_thread`. -/
inductive MbList
  | receivers
  | senders
  deriving DecidableEq, Repr

/-- The local variables of a blocked `rt_mb_send_wait` or `rt_mb_recv`. -/
inductive MbCall
  | send (value : Mail) (timeout : ℤ) (tickDelta : ℕ)
  | recv (timeout : ℤ) (tickDelta : ℕ)
  deriving DecidableEq, Repr

/-- How a step ends. `sent v`: `rt_mb_send_wait` has stored `v` and returns `RT_EOK`. `received v`:
`rt_mb_recv` returns `RT_EOK` with `v` in `*value`. -/
inductive MbResult
  | sent (v : Mail)
  | received (v : Mail)
  | returned (e : Err)
  | blocked
  | void
  deriving DecidableEq, Repr

/-- Threads and the mailbox they use, and `rt_tick`, a `rt_uint32_t`. -/
structure MbSys where
  kernel : Kernel MbList
  mb : Mailbox
  tick : ℕ
  calls : Tid → Option MbCall

namespace MbSys

variable (M : ℕ) (s : MbSys) (t : Tid)

/-! ## Model -/

/-- "set ptr", "increase input offset", "increase message entry" in `rt_mb_send_wait`. -/
def put (value : Mail) : MbSys :=
  let mb := s.mb
  let inOffset := (mb.inOffset + 1) % 2 ^ 16
  { s with mb := { mb with
      msgPool := update mb.msgPool mb.inOffset value
      inOffset := if mb.size ≤ inOffset then 0 else inOffset
      entry := (mb.entry + 1) % 2 ^ 16 } }

/-- "increase output offset", "decrease message entry" in `rt_mb_recv`. -/
def drop : MbSys :=
  let mb := s.mb
  let outOffset := (mb.outOffset + 1) % 2 ^ 16
  { s with mb := { mb with
      outOffset := if mb.size ≤ outOffset then 0 else outOffset
      entry := mb.entry - 1 } }

/-- "resume suspended thread" at the end of both functions. -/
def resumeFrom (q : MbList) : MbSys :=
  if s.kernel.suspendThread q ≠ [] then
    { s with kernel := (s.kernel.rtIpcListResume M q).rtSchedule M }
  else s

/-- The value of `tick_delta` when the thread blocks. -/
def startTick (timeout : ℤ) (tickDelta : ℕ) : ℕ := if 0 < timeout then s.tick else tickDelta

/-- `rt_mb_send_wait` by `self` (`none`: an interrupt handler) from the test of its loop on, until
it returns or blocks (lines 1431–1520). -/
def sendLoop (self : Option Tid) (value : Mail) (timeout : ℤ) (tickDelta : ℕ) :
    Option (MbResult × MbSys) :=
  if s.mb.entry = s.mb.size then
    -- mailbox is full; RT_DEBUG_IN_THREAD_CONTEXT
    match self with
    | none => none
    | some thread =>
      let k := s.kernel.modify thread fun th => { th with error := .eok }
      if timeout = 0 then some (.returned .efull, { s with kernel := k })
      else some (.blocked, { s with
        kernel := k.blockOn M thread .senders s.mb.flag timeout
        calls := update s.calls thread
          (some (.send value timeout (s.startTick timeout tickDelta))) })
  else some (.sent value, (s.put value).resumeFrom M .receivers)

/-- `rt_mb_send_wait` (lines 1406–1524); `rt_mb_send` is the case of timeout 0. -/
def rtMbSendWait (self : Option Tid) (value : Mail) (timeout : ℤ) : Option (MbResult × MbSys) :=
  -- for non-blocking call
  if s.mb.entry = s.mb.size ∧ timeout = 0 then some (.returned .efull, s)
  else s.sendLoop M self value timeout 0

/-- `rt_mb_recv` by `self` from the test of its loop on, until it returns or blocks (lines
1577–1672). -/
def recvLoop (self : Option Tid) (timeout : ℤ) (tickDelta : ℕ) : Option (MbResult × MbSys) :=
  if s.mb.entry = 0 then
    -- mailbox is empty; RT_DEBUG_IN_THREAD_CONTEXT
    match self with
    | none => none
    | some thread =>
      let k := s.kernel.modify thread fun th => { th with error := .eok }
      if timeout = 0 then
        some (.returned .etimeout, { s with
          kernel := k.modify thread fun th => { th with error := .etimeout } })
      else some (.blocked, { s with
        kernel := k.blockOn M thread .receivers s.mb.flag timeout
        calls := update s.calls thread
          (some (.recv timeout (s.startTick timeout tickDelta))) })
  else some (.received (s.mb.msgPool s.mb.outOffset), s.drop.resumeFrom M .senders)

/-- `rt_mb_recv` (lines 1553–1676). -/
def rtMbRecv (self : Option Tid) (timeout : ℤ) : Option (MbResult × MbSys) :=
  -- for non-blocking call
  if s.mb.entry = 0 ∧ timeout = 0 then some (.returned .etimeout, s)
  else s.recvLoop M self timeout 0

/-- `rt_tick_get() - tick_delta`. -/
def elapsed (tickDelta : ℕ) : ℕ := (s.tick + 2 ^ 32 - tickDelta) % 2 ^ 32

/-- "if it's not waiting forever and then re-calculate timeout tick". The subtraction is one of
32-bit numbers. -/
def remaining (timeout : ℤ) (tickDelta : ℕ) : ℤ :=
  if 0 < timeout then
    let timeout := (timeout - s.elapsed tickDelta).bmod (2 ^ 32)
    if timeout < 0 then 0 else timeout
  else timeout

/-- The rest of the loop, once thread `t` runs again. -/
def rtMbResume : Option (MbResult × MbSys) :=
  match s.calls t with
  | none => none
  | some call =>
    let s := { s with calls := update s.calls t none }
    let th := s.kernel.thread t
    if th.error ≠ .eok then some (.returned th.error, s)
    else match call with
      | .send value timeout tickDelta =>
        s.sendLoop M (some t) value (s.remaining timeout tickDelta) (s.elapsed tickDelta)
      | .recv timeout tickDelta =>
        s.recvLoop M (some t) (s.remaining timeout tickDelta) (s.elapsed tickDelta)

/-- `rt_mb_control` with `RT_IPC_CMD_RESET` (lines 1688–1717). -/
def rtMbReset : MbResult × MbSys :=
  let k := (s.kernel.rtIpcListResumeAll M .receivers).rtIpcListResumeAll M .senders
  (.returned .eok, { s with
    kernel := k.rtSchedule M
    mb := { s.mb with entry := 0, inOffset := 0, outOffset := 0 } })

end MbSys

/-- The steps of the system; calls come from a thread or an interrupt handler. `tick`:
`rt_tick_increase`. `resume t`: thread `t`, woken in a blocked call, runs again. `timeout t`: the
timer of thread `t` expires. -/
inductive MbOp
  | schedulerStart
  | startup (t : Tid)
  | tick
  | send (self : Option Tid) (value : Mail) (timeout : ℤ)
  | recv (self : Option Tid) (timeout : ℤ)
  | resume (t : Tid)
  | reset (self : Option Tid)
  | timeout (t : Tid)
  deriving DecidableEq, Repr

/-- The operation is a reset. -/
def MbOp.isReset : MbOp → Bool
  | .reset _ => true
  | _ => false

namespace MbSys

variable (M : ℕ) (s : MbSys) (t : Tid)

/-- The caller can make a call: an interrupt handler, or a thread that is ready and not in the
middle of one. -/
def CanCall (self : Option Tid) : Prop :=
  ∀ t ∈ self, (s.kernel.thread t).stat = .ready ∧ s.calls t = none
  deriving Decidable

/-- `rt_thread_self()` is the caller from here on, if the caller is a thread. -/
def dispatch : Option Tid → MbSys
  | none => s
  | some t => { s with kernel := s.kernel.dispatch t }

/-- One step. Whichever ready thread runs next makes the call. -/
def step : MbOp → Option (MbResult × MbSys)
  | .schedulerStart => some (.void, { s with kernel := s.kernel.rtSystemSchedulerStart M })
  | .startup t => (s.kernel.rtThreadStartup M t).map fun k =>
      (.returned .eok, { s with kernel := k })
  | .tick => some (.void, { s with tick := (s.tick + 1) % 2 ^ 32 })
  | .send self value timeout =>
    if s.CanCall self then (s.dispatch self).rtMbSendWait M self value timeout else none
  | .recv self timeout =>
    if s.CanCall self then (s.dispatch self).rtMbRecv M self timeout else none
  | .resume t =>
    if (s.kernel.thread t).stat = .ready then (s.dispatch (some t)).rtMbResume M t else none
  | .reset self => if s.CanCall self then some ((s.dispatch self).rtMbReset M) else none
  | .timeout t => (s.kernel.threadTimerExpires M t).map fun k => (.void, { s with kernel := k })

/-- The mailbox has just been initialised with `size`, and nobody waits. -/
structure Initial (size : ℕ) : Prop where
  mb : ∃ pool flag, s.mb = rtMbInit pool size flag
  suspendThread : ∀ q, s.kernel.suspendThread q = []
  calls : ∀ t, s.calls t = none

/-! ## What a step does to the mailbox -/

/-- A step stores a mail in a mailbox that is not full, takes one out of a mailbox that is not
empty, or leaves the mailbox alone. -/
inductive Effect (mb : Mailbox) : MbResult → Mailbox → Prop
  | sent {s : MbSys} (v : Mail) (hmb : s.mb = mb) (hne : mb.entry ≠ mb.size) :
      Effect mb (.sent v) (s.put v).mb
  | received {s : MbSys} (hmb : s.mb = mb) (hne : mb.entry ≠ 0) :
      Effect mb (.received (mb.msgPool mb.outOffset)) s.drop.mb
  | returned (e : Err) : Effect mb (.returned e) mb
  | blocked : Effect mb .blocked mb
  | void : Effect mb .void mb

variable {M s t} {s' : MbSys} {r : MbResult} {op : MbOp} {d : ℕ}

@[simp] theorem resumeFrom_mb (q : MbList) : (s.resumeFrom M q).mb = s.mb := by
  unfold resumeFrom
  split_ifs <;> rfl

/-- The three ends of a round of the loops in `rt_mb_send_wait` and `rt_mb_recv`. -/
theorem loop_cases {α : Type} {p : Prop} [Decidable p] {self : Option Tid} {timeout : ℤ}
    {fails blocks : Tid → α} {done x : α}
    (h : (if p then
        match self with
        | none => none
        | some t => if timeout = 0 then some (fails t) else some (blocks t)
      else some done) = some x) :
    (∃ t, self = some t ∧ p ∧ timeout = 0 ∧ fails t = x) ∨
      (∃ t, self = some t ∧ p ∧ timeout ≠ 0 ∧ blocks t = x) ∨ ¬ p ∧ done = x := by
  by_cases hp : p
  · rw [if_pos hp] at h
    cases self with
    | none => cases h
    | some t =>
      split_ifs at h with htime
      · exact .inl ⟨t, rfl, hp, htime, some.inj h⟩
      · exact .inr (.inl ⟨t, rfl, hp, htime, some.inj h⟩)
  · rw [if_neg hp] at h
    exact .inr (.inr ⟨hp, some.inj h⟩)

theorem sendLoop_effect {self : Option Tid} {v : Mail} {timeout : ℤ}
    (h : s.sendLoop M self v timeout d = some (r, s')) : Effect s.mb r s'.mb := by
  obtain ⟨t, -, -, -, ⟨⟩⟩ | ⟨t, -, -, -, ⟨⟩⟩ | ⟨hfull, ⟨⟩⟩ := loop_cases h
  · exact .returned _
  · exact .blocked
  · rw [resumeFrom_mb]
    exact .sent v rfl hfull

theorem recvLoop_effect {self : Option Tid} {timeout : ℤ}
    (h : s.recvLoop M self timeout d = some (r, s')) : Effect s.mb r s'.mb := by
  obtain ⟨t, -, -, -, ⟨⟩⟩ | ⟨t, -, -, -, ⟨⟩⟩ | ⟨hempty, ⟨⟩⟩ := loop_cases h
  · exact .returned _
  · exact .blocked
  · rw [resumeFrom_mb]
    exact .received rfl hempty

@[simp] theorem dispatch_mb (self : Option Tid) : (s.dispatch self).mb = s.mb := by
  cases self <;> rfl

theorem step_effect (hop : op.isReset = false) (h : s.step M op = some (r, s')) :
    Effect s.mb r s'.mb := by
  cases op with
  | schedulerStart | tick => cases h; exact .void
  | startup t =>
    obtain ⟨k, -, heq⟩ := map_eq_some_iff.mp h
    cases heq
    exact .returned _
  | send self v timeout =>
    simp only [step] at h
    split_ifs at h
    rw [← dispatch_mb self]
    unfold rtMbSendWait at h
    split_ifs at h
    · cases h; exact .returned _
    · exact sendLoop_effect h
  | recv self timeout =>
    simp only [step] at h
    split_ifs at h
    rw [← dispatch_mb self]
    unfold rtMbRecv at h
    split_ifs at h
    · cases h; exact .returned _
    · exact recvLoop_effect h
  | resume t =>
    simp only [step] at h
    split_ifs at h
    unfold rtMbResume at h
    split at h
    · cases h
    · dsimp only at h
      split_ifs at h
      · cases h; exact .returned _
      · split at h
        · have he := sendLoop_effect h
          exact he
        · have he := recvLoop_effect h
          exact he
  | reset self => simp [MbOp.isReset] at hop
  | timeout t =>
    obtain ⟨k, -, heq⟩ := map_eq_some_iff.mp h
    cases heq
    exact .void

/-! ## The circular buffer -/

/-- The indices of a mailbox. -/
structure MbOk (mb : Mailbox) : Prop where
  size : mb.size < 2 ^ 16
  entry : mb.entry ≤ mb.size
  outOffset : 0 < mb.size → mb.outOffset < mb.size
  inOffset : 0 < mb.size → mb.inOffset = (mb.outOffset + mb.entry) % mb.size

/-- The mails in the mailbox, oldest first. -/
def mails (mb : Mailbox) : List Mail := contents mb.msgPool mb.size mb.outOffset mb.entry

theorem mbOk_init (pool : ℕ → Mail) (size : ℕ) (flag : IpcFlag) :
    MbOk (rtMbInit pool size flag) where
  size := mod_lt _ (by norm_num)
  entry := zero_le _
  outOffset h := h
  inOffset _ := by simp [rtMbInit]

theorem put_ok (h : MbOk s.mb) (hne : s.mb.entry ≠ s.mb.size) (v : Mail) :
    MbOk (s.put v).mb ∧ mails (s.put v).mb = mails s.mb ++ [v] := by
  have hlt : s.mb.entry < s.mb.size := lt_of_le_of_ne h.entry hne
  have hpos : 0 < s.mb.size := by omega
  have hsize := h.size
  have hout := h.outOffset hpos
  have hin := h.inOffset hpos
  have hinlt : s.mb.inOffset < s.mb.size := by rw [hin]; exact mod_lt _ hpos
  -- neither counter wraps as a 16-bit number
  have hinc : (s.mb.inOffset + 1) % 2 ^ 16 = s.mb.inOffset + 1 := mod_eq_of_lt (by omega)
  have hent : (s.mb.entry + 1) % 2 ^ 16 = s.mb.entry + 1 := mod_eq_of_lt (by omega)
  constructor
  · refine ⟨h.size, ?_, fun _ => hout, fun _ => ?_⟩
    · simp only [put, hent]; omega
    · simp only [put, hinc, hent, wrap_eq_mod hinlt]
      rw [hin, mod_add_mod, add_assoc]
  · simp only [mails, put, hent]
    rw [hin]
    exact contents_put hlt v

theorem drop_ok (h : MbOk s.mb) (hne : s.mb.entry ≠ 0) :
    MbOk s.drop.mb ∧ mails s.mb = s.mb.msgPool s.mb.outOffset :: mails s.drop.mb := by
  have hpos : 0 < s.mb.size := by have := h.entry; omega
  have hsize := h.size
  have hout := h.outOffset hpos
  have hin := h.inOffset hpos
  obtain ⟨n, hn⟩ := exists_eq_succ_of_ne_zero hne
  have hinc : (s.mb.outOffset + 1) % 2 ^ 16 = s.mb.outOffset + 1 := mod_eq_of_lt (by omega)
  constructor
  · refine ⟨h.size, ?_, fun _ => ?_, fun _ => ?_⟩
    · have := h.entry; simp only [drop]; omega
    · simp only [drop, hinc, wrap_eq_mod hout]
      exact mod_lt _ hpos
    · simp only [drop, hinc, wrap_eq_mod hout, mod_add_mod]
      rw [hin]
      congr 1
      omega
  · simp only [mails, drop, hinc, wrap_eq_mod hout]
    rw [hn, Nat.succ_eq_add_one, contents_take, Nat.mod_eq_of_lt hout, Nat.add_sub_cancel]

/-! ## First in, first out -/

/-- The mail that a step has sent. -/
def sentMail : MbOp × MbResult → Option Mail
  | (_, .sent v) => some v
  | _ => none

/-- The mail that a step has received. -/
def receivedMail : MbOp × MbResult → Option Mail
  | (_, .received v) => some v
  | _ => none

/-- What has been sent is what has been received, followed by what is in the mailbox. -/
structure Fifo (tr : List (MbOp × MbResult)) (mb : Mailbox) : Prop where
  ok : MbOk mb
  order : tr.filterMap sentMail = tr.filterMap receivedMail ++ mails mb

theorem Fifo.step {tr : List (MbOp × MbResult)} {mb mb' : Mailbox} (h : Fifo tr mb)
    (he : Effect mb r mb') : Fifo (tr ++ [(op, r)]) mb' := by
  cases he with
  | sent v hmb hne =>
    subst hmb
    obtain ⟨hok, hmails⟩ := put_ok h.ok hne v
    exact ⟨hok, by simp [sentMail, receivedMail, h.order, hmails]⟩
  | received hmb hne =>
    subst hmb
    obtain ⟨hok, hmails⟩ := drop_ok h.ok hne
    exact ⟨hok, by simp [sentMail, receivedMail, h.order, hmails]⟩
  | returned e | blocked | void =>
    exact ⟨h.ok, by simp [List.filterMap_cons, sentMail, receivedMail, h.order]⟩

/-- In every state that any interleaving of sends, receives and timeouts reaches: the indices are in
step, and the mails received are a prefix of the mails sent, `entry` of which are outstanding. -/
theorem mailbox_fifo {s₀ : MbSys} {size : ℕ} {tr : List (MbOp × MbResult)} (hinit : s₀.Initial size)
    (hrun : Run (step M) s₀ tr s) (hreset : ∀ e ∈ tr, e.1.isReset = false) :
    s.mb.entry ≤ s.mb.size ∧
      (0 < s.mb.size → s.mb.inOffset = (s.mb.outOffset + s.mb.entry) % s.mb.size) ∧
      ∃ outstanding, outstanding.length = s.mb.entry ∧
        tr.filterMap sentMail = tr.filterMap receivedMail ++ outstanding := by
  have h : (∀ e ∈ tr, e.1.isReset = false) → Fifo tr s.mb := by
    refine Run.invTrace (I := fun tr s => (∀ e ∈ tr, e.1.isReset = false) → Fifo tr s.mb)
      (fun _ => ?_) (fun tr s op r s' ih hs hreset => ?_) hrun
    · obtain ⟨pool, flag, hmb⟩ := hinit.mb
      rw [hmb]
      exact ⟨mbOk_init pool size flag, rfl⟩
    · refine (ih fun e he => hreset e (by simp [he])).step (step_effect ?_ hs)
      exact hreset (op, r) (by simp)
  obtain ⟨hok, horder⟩ := h hreset
  exact ⟨hok.entry, hok.inOffset, mails s.mb, by simp [mails], horder⟩

/-- Thread `t` has priority `20 - 5 * t`; the mailbox has one cell. -/
def sampleSys : MbSys where
  kernel := Kernel.newThreads fun t => 20 - 5 * t
  mb := rtMbInit (fun _ => 0) 1 .fifo
  tick := 0
  calls := fun _ => none

/-- Thread 1 blocks with mail 8 behind mail 7; an interrupt handler takes mail 7 and puts mail 9
into the cell before thread 1 runs again. -/
def sampleMails : List MbOp :=
  [.startup 0, .schedulerStart, .send (some 0) 7 0, .startup 1, .send (some 1) 8 5, .tick,
    .recv none 0, .send none 9 0, .resume 1, .recv none 0, .resume 1]

theorem sampleMails_possible : (exec (step 32) sampleSys sampleMails).isSome := by
  decide +kernel

theorem mailbox_fifo_sample :
    let r := (exec (step 32) sampleSys sampleMails).get sampleMails_possible
    (sampleMails.zip r.1).filterMap sentMail = [7, 9, 8] ∧ r.2.mb.entry ≤ r.2.mb.size ∧
      (0 < r.2.mb.size → r.2.mb.inOffset = (r.2.mb.outOffset + r.2.mb.entry) % r.2.mb.size) ∧
      ∃ outstanding, outstanding.length = r.2.mb.entry ∧
        (sampleMails.zip r.1).filterMap sentMail =
          (sampleMails.zip r.1).filterMap receivedMail ++ outstanding :=
  ⟨by decide +kernel, mailbox_fifo (show sampleSys.Initial 1 from
      ⟨⟨_, _, rfl⟩, fun _ => rfl, fun _ => rfl⟩)
    (Run.of_isSome sampleMails_possible) (by decide +kernel)⟩

end MbSys

end RtThread
