import RtThread.Ipc.Mailbox
import RtThread.Ipc.MessageQueue
import RtThread.Lib.Countdown
import RtThread.Memory.Mempool

/-!
# Timeouts of calls that wait again

`rt_mb_send_wait`, `rt_mb_recv`, `rt_mq_recv` and `rt_mp_alloc` wait in a loop: a thread
that was woken may find that another one came first, and waits again with what is left
of its timeout. The timeout is a `rt_int32_t` in which a negative number means to wait
forever, the ticks are `rt_uint32_t`.

A `TimedObject` is a system of threads with such calls. Its steps change the variables of
each call, and `rt_tick`, in the ways of `Countdown.Step`.

* `timeouts_shrink_exactly`: the timeout of every suspension is the one the call was
  given, less the ticks of its suspensions before, and it is positive.
-/

namespace RtThread

open Runs Countdown Function Option

/-- A system of threads with calls that wait. `call s t` are the variables of the call in which
thread `t` waits; `event t op r` is what the operation `op` with result `r` is to this call. -/
structure TimedObject where
  Sys : Type
  Op : Type
  Result : Type
  step : ℕ → Sys → Op → Option (Result × Sys)
  tick : Sys → ℕ
  call : Sys → Tid → Option Call
  event : Tid → Op → Result → Countdown.Event
  call_step : ∀ {M s op r s'}, step M s op = some (r, s') →
    ∀ t, Step (tick s) (call s t) (event t op r) (tick s') (call s' t)

namespace TimedObject

variable (o : TimedObject) {M : ℕ} {s₀ s : o.Sys} {tr : List (o.Op × o.Result)}

/-- The call in which thread `t` waits at the end of the trace: its timeout, and the ticks of its
suspensions. -/
def wait (t : Tid) (tr : List (o.Op × o.Result)) : Option Wait :=
  tr.foldl (fun w e => Wait.next w (o.event t e.1 e.2)) none

variable {o}

theorem agrees_run (hcalls : ∀ t, o.call s₀ t = none) (htick : o.tick s₀ < 2 ^ 32)
    (hrun : Run (o.step M) s₀ tr s) (t : Tid) :
    o.tick s < 2 ^ 32 ∧ Agrees (o.tick s) (o.wait t tr) (o.call s t) := by
  refine Run.invTrace (I := fun tr s => o.tick s < 2 ^ 32 ∧
    Agrees (o.tick s) (o.wait t tr) (o.call s t)) ⟨htick, ?_⟩ (fun tr s op r s' h hs => ?_) hrun
  · rw [hcalls]
    trivial
  · have hstep := o.call_step hs t
    refine ⟨hstep.tick_lt h.1, ?_⟩
    rw [wait, List.foldl_append]
    exact h.2.step h.1 hstep

end TimedObject

/-! ## Mailboxes -/

/-- The variables of a blocked call, as far as its timeout is concerned. -/
def MbCall.waiting : MbCall → Call
  | .send _ timeout tickDelta => .suspended timeout tickDelta
  | .recv timeout tickDelta => .suspended timeout tickDelta

namespace MbSys

variable {M : ℕ} {s s' : MbSys} {op : MbOp} {r : MbResult} {self : Option Tid} {t : Tid}
  {timeout : ℤ} {d : ℕ}

def call (s : MbSys) (t : Tid) : Option Call := (s.calls t).map MbCall.waiting

/-- What the step is to the call of thread `t`. -/
def event (t : Tid) : MbOp → MbResult → Countdown.Event
  | .tick, _ => .tick
  | .send self _ timeout, r => if self = some t ∧ r = .blocked then .start timeout else .other
  | .recv self timeout, r => if self = some t ∧ r = .blocked then .start timeout else .other
  | .resume u, r => if u = t then (if r = .blocked then .again else .stop) else .other
  | _, _ => .other

theorem call_update {c : Option MbCall} (h : s'.calls = update s.calls t c) :
    s'.call = update s.call t (c.map MbCall.waiting) := by
  funext u
  rw [call, h, apply_update fun _ => Option.map MbCall.waiting]
  rfl

theorem call_congr (h : s'.calls = s.calls) : s'.call = s.call := by
  funext t
  rw [call, call, h]

theorem resumeFrom_calls (q : MbList) :
    (s.resumeFrom M q).calls = s.calls ∧ (s.resumeFrom M q).tick = s.tick := by
  unfold resumeFrom
  split_ifs <;> exact ⟨rfl, rfl⟩

theorem sendLoop_ends {v : Mail} (hs : s.sendLoop M self v timeout d = some (r, s')) :
    LoopEnds s.tick s.call self timeout (r = .blocked) s'.tick s'.call := by
  obtain ⟨u, rfl, -, -, ⟨⟩⟩ | ⟨u, rfl, -, htime, ⟨⟩⟩ | ⟨-, ⟨⟩⟩ := loop_cases hs
  · exact .returns (by simp) rfl rfl
  · exact .suspends rfl rfl htime (fun hpos => if_pos hpos) rfl
      (call_update (c := some (.send v timeout (s.startTick timeout d))) rfl)
  · obtain ⟨hcalls, htick⟩ := resumeFrom_calls (M := M) (s := s.put v) .receivers
    exact .returns (by simp) htick (call_congr hcalls)

theorem recvLoop_ends (hs : s.recvLoop M self timeout d = some (r, s')) :
    LoopEnds s.tick s.call self timeout (r = .blocked) s'.tick s'.call := by
  obtain ⟨u, rfl, -, -, ⟨⟩⟩ | ⟨u, rfl, -, htime, ⟨⟩⟩ | ⟨-, ⟨⟩⟩ := loop_cases hs
  · exact .returns (by simp) rfl rfl
  · exact .suspends rfl rfl htime (fun hpos => if_pos hpos) rfl
      (call_update (c := some (.recv timeout (s.startTick timeout d))) rfl)
  · obtain ⟨hcalls, htick⟩ := resumeFrom_calls (M := M) (s := s.drop) .senders
    exact .returns (by simp) htick (call_congr hcalls)

/-- A call that has waited, and goes on in the state `s₁`. -/
theorem resumed_countdown (s₁ : MbSys) {c : MbCall} (hcall : s.calls t = some c)
    (hwaiting : c.waiting = .suspended timeout d) (htick₁ : s₁.tick = s.tick)
    (hcalls₁ : s₁.calls = update s.calls t none)
    (h : LoopEnds s₁.tick s₁.call (some t) (s₁.remaining timeout d) (r = .blocked) s'.tick
      s'.call) (u : Tid) :
    Step s.tick (s.call u) (event u (.resume t) r) s'.tick (s'.call u) := by
  have hleft : s₁.remaining timeout d = Countdown.remaining s.tick timeout d := by
    rw [← htick₁]
    rfl
  rw [call_update hcalls₁, htick₁, hleft] at h
  exact h.resumed (by rw [call, hcall, map_some, hwaiting]) (fun _ hne hd => .again hne hd) u

theorem rtMbResume_countdown (hs : s.rtMbResume M t = some (r, s')) (u : Tid) :
    Step s.tick (s.call u) (event u (.resume t) r) s'.tick (s'.call u) := by
  let s₁ : MbSys := { s with calls := update s.calls t none }
  unfold rtMbResume at hs
  cases hcall : s.calls t with
  | none =>
    rw [hcall] at hs
    cases hs
  | some c =>
    rw [hcall] at hs
    dsimp only at hs
    cases c with
    | send v timeout d =>
      refine resumed_countdown s₁ hcall rfl rfl rfl ?_ u
      split_ifs at hs
      · cases hs
        exact .returns (by simp) rfl rfl
      · exact sendLoop_ends hs
    | recv timeout d =>
      refine resumed_countdown s₁ hcall rfl rfl rfl ?_ u
      split_ifs at hs
      · cases hs
        exact .returns (by simp) rfl rfl
      · exact recvLoop_ends hs

/-- A call that does not wait yet. -/
theorem first_countdown (h : LoopEnds (s.dispatch self).tick (s.dispatch self).call self timeout
      (r = .blocked) s'.tick s'.call) (hcall : s.CanCall self) (t : Tid) :
    Step s.tick (s.call t) (if self = some t ∧ r = .blocked then .start timeout else .other)
      s'.tick (s'.call t) := by
  have hfree : ∀ u ∈ self, (s.dispatch self).call u = none := by
    intro u hu
    have hnone := (hcall u hu).2
    cases hu
    show (s.calls u).map MbCall.waiting = none
    rw [hnone, map_none]
  have hstep := h.first hfree t
  cases self <;> exact hstep

theorem call_step (hs : s.step M op = some (r, s')) (t : Tid) :
    Step s.tick (s.call t) (event t op r) s'.tick (s'.call t) := by
  cases op with
  | schedulerStart =>
    cases hs
    exact .other _
  | startup u | timeout u =>
    obtain ⟨k, -, heq⟩ := map_eq_some_iff.mp hs
    cases heq
    exact .other _
  | tick =>
    cases hs
    exact .tick _
  | send self v timeout =>
    simp only [step] at hs
    split_ifs at hs with hcall
    refine first_countdown ?_ hcall t
    unfold rtMbSendWait at hs
    split_ifs at hs
    · cases hs
      exact .returns (by simp) rfl rfl
    · exact sendLoop_ends hs
  | recv self timeout =>
    simp only [step] at hs
    split_ifs at hs with hcall
    refine first_countdown ?_ hcall t
    unfold rtMbRecv at hs
    split_ifs at hs
    · cases hs
      exact .returns (by simp) rfl rfl
    · exact recvLoop_ends hs
  | resume u =>
    simp only [step] at hs
    split_ifs at hs
    exact rtMbResume_countdown (s := s.dispatch (some u)) hs t
  | reset self =>
    simp only [step] at hs
    split_ifs at hs
    cases hs
    cases self <;> exact .other _

end MbSys

def timedMailbox : TimedObject where
  Sys := MbSys
  Op := MbOp
  Result := MbResult
  step := MbSys.step
  tick := MbSys.tick
  call := MbSys.call
  event := MbSys.event
  call_step hs t := MbSys.call_step hs t

/-! ## Message queues -/

/-- The variables of a receive that waits, as far as its timeout is concerned. -/
def MqCall.wait : MqCall → Option Call
  | .waiting _ timeout tickDelta => some (.suspended timeout tickDelta)
  | _ => none

namespace MqSys

variable {M : ℕ} {s s' : MqSys} {op : MqOp} {r : MqResult} {c : Context} {t : Tid} {timeout : ℤ}
  {d : ℕ} {x : Option MqCall}

def call (s : MqSys) (t : Tid) : Option Call := (s.calls (.thread t)).bind MqCall.wait

/-- What the step is to the call of thread `t`. -/
def event (t : Tid) : MqOp → MqResult → Countdown.Event
  | .tick, _ => .tick
  | .recv c _ timeout, r => if c = .thread t ∧ r = .blocked then .start timeout else .other
  | .resume u, r => if u = t then (if r = .blocked then .again else .stop) else .other
  | _, _ => .other

/-- The call of `c` goes on, and it does not wait. -/
theorem call_setCall (hx : x.bind MqCall.wait = none) (hc : (s.calls c).bind MqCall.wait = none)
    (t : Tid) : (s.setCall c x).call t = s.call t := by
  unfold call setCall
  dsimp only
  by_cases hct : Context.thread t = c
  · subst hct
    rw [update_self, hx, hc]
  · rw [update_of_ne hct]

theorem call_update (u : Tid) :
    (s.setCall (.thread u) x).call = update s.call u (x.bind MqCall.wait) := by
  funext t
  unfold call setCall
  dsimp only
  by_cases htu : t = u
  · subst htu
    rw [update_self, update_self]
  · rw [update_of_ne htu, update_of_ne fun h => htu (Context.thread.inj h)]

/-- The thread that makes the call. -/
def caller : Context → Option Tid
  | .thread t => some t
  | .handler _ => none

theorem recvLoop_ends {size : ℕ} (hfree : s.calls c = none)
    (hs : s.recvLoop M c size timeout d = some (r, s')) :
    LoopEnds s.tick s.call (caller c) timeout (r = .blocked) s'.tick s'.call := by
  unfold recvLoop at hs
  by_cases hempty : s.mq.entry = 0
  · rw [if_pos hempty] at hs
    cases c with
    | handler n => cases hs
    | thread u =>
      split_ifs at hs with htime
      · cases hs
        exact .returns (by simp) rfl rfl
      · cases hs
        exact .suspends rfl rfl htime (fun hpos => if_pos hpos) rfl
          (call_update (x := some (.waiting size timeout (s.startTick timeout d))) u)
  · rw [if_neg hempty] at hs
    obtain ⟨⟨msg, mq⟩, -, heq⟩ := map_eq_some_iff.mp hs
    cases heq
    refine .returns (by simp) rfl (funext fun t => ?_)
    exact call_setCall (s := { s with mq := mq }) rfl (by rw [hfree]; rfl) t

theorem rtMqResume_countdown (hs : s.rtMqResume M t = some (r, s')) (u : Tid) :
    Step s.tick (s.call u) (event u (.resume t) r) s'.tick (s'.call u) := by
  unfold rtMqResume at hs
  split at hs
  · rename_i size timeout d hcall
    have hends : LoopEnds s.tick (s.setCall (.thread t) none).call (some t)
        (Countdown.remaining s.tick timeout d) (r = .blocked) s'.tick s'.call := by
      dsimp only at hs
      split_ifs at hs
      · cases hs
        exact .returns (by simp) rfl rfl
      · exact recvLoop_ends (by simp [setCall]) hs
    rw [call_update] at hends
    exact hends.resumed (by rw [call, hcall]; rfl) (fun _ hne hd => .again hne hd) u
  · cases hs

/-- A call that does not wait yet. -/
theorem first_countdown {size : ℕ}
    (h : LoopEnds s.tick s.call (caller c) timeout (r = .blocked) s'.tick s'.call)
    (hfree : s.calls c = none) (t : Tid) :
    Step s.tick (s.call t) (event t (.recv c size timeout) r) s'.tick (s'.call t) := by
  have hnone : ∀ u ∈ caller c, s.call u = none := by
    intro u hu
    cases c with
    | thread v =>
      cases hu
      rw [call, hfree, bind_none]
    | handler n => cases hu
  have hstep := h.first hnone t
  cases c with
  | thread v | handler n => simpa [event, caller] using hstep

/-- The steps of sends and of receives that have got their message. -/
theorem other_step (htick : s'.tick = s.tick) (hcall : ∀ t, s'.call t = s.call t) (t : Tid) :
    Step s.tick (s.call t) .other s'.tick (s'.call t) := by
  rw [htick, hcall]
  exact .other _

theorem rtMqSend_call {urgent : Bool} {buffer : List Byte} (hfree : s.calls c = none)
    (hs : s.rtMqSend c urgent buffer = some (r, s')) :
    s'.tick = s.tick ∧ ∀ t, s'.call t = s.call t := by
  unfold rtMqSend at hs
  split_ifs at hs
  · cases hs
    exact ⟨rfl, fun _ => rfl⟩
  · split at hs
    · cases hs
      exact ⟨rfl, fun _ => rfl⟩
    · cases hs
      exact ⟨rfl, call_setCall rfl (by rw [hfree]; rfl)⟩

theorem copy_call (hs : s.copy c = some (r, s')) :
    s'.tick = s.tick ∧ ∀ t, s'.call t = s.call t := by
  unfold copy at hs
  split at hs
  · rename_i hcall
    cases hs
    exact ⟨rfl, call_setCall rfl (by rw [hcall]; rfl)⟩
  · rename_i hcall
    cases hs
    exact ⟨rfl, call_setCall rfl (by rw [hcall]; rfl)⟩
  · cases hs

theorem finish_call (hs : s.finish M c = some (r, s')) :
    s'.tick = s.tick ∧ ∀ t, s'.call t = s.call t := by
  unfold finish at hs
  split at hs
  · rename_i hcall
    cases hs
    unfold resumeReceiver
    split_ifs <;> exact ⟨rfl, call_setCall rfl (by rw [hcall]; rfl)⟩
  · rename_i hcall
    cases hs
    exact ⟨rfl, call_setCall rfl (by rw [hcall]; rfl)⟩
  · cases hs

theorem call_step (hs : s.step M op = some (r, s')) (t : Tid) :
    Step s.tick (s.call t) (event t op r) s'.tick (s'.call t) := by
  have hd : ∀ c, (s.dispatch c).tick = s.tick ∧ (s.dispatch c).calls = s.calls ∧
      (s.dispatch c).call = s.call := by
    rintro (_ | _) <;> exact ⟨rfl, rfl, rfl⟩
  cases op with
  | schedulerStart =>
    cases hs
    exact .other _
  | startup u | timeout u =>
    obtain ⟨k, -, heq⟩ := map_eq_some_iff.mp hs
    cases heq
    exact .other _
  | tick =>
    cases hs
    exact .tick _
  | send c buffer | urgent c buffer =>
    simp only [step] at hs
    split_ifs at hs with hcall
    rw [← (hd c).1, ← (hd c).2.2]
    obtain ⟨htick, hsame⟩ := rtMqSend_call ((hd c).2.1 ▸ hcall.2) hs
    exact other_step htick hsame t
  | recv c size timeout =>
    simp only [step] at hs
    split_ifs at hs with hcall
    have hfree : (s.dispatch c).calls c = none := (hd c).2.1 ▸ hcall.2
    rw [← (hd c).1, ← (hd c).2.2]
    refine first_countdown ?_ hfree t
    unfold rtMqRecv at hs
    split_ifs at hs
    · cases hs
      exact .returns (by simp) rfl rfl
    · exact recvLoop_ends hfree hs
  | copy c =>
    simp only [step] at hs
    split_ifs at hs
    rw [← (hd c).1, ← (hd c).2.2]
    obtain ⟨htick, hsame⟩ := copy_call hs
    exact other_step htick hsame t
  | finish c =>
    simp only [step] at hs
    split_ifs at hs
    rw [← (hd c).1, ← (hd c).2.2]
    obtain ⟨htick, hsame⟩ := finish_call hs
    exact other_step htick hsame t
  | resume u =>
    simp only [step] at hs
    split_ifs at hs
    exact rtMqResume_countdown (s := s.dispatch (.thread u)) hs t
  | reset c =>
    simp only [step] at hs
    split_ifs at hs
    obtain ⟨mq, -, heq⟩ := map_eq_some_iff.mp hs
    cases heq
    cases c <;> exact .other _

end MqSys

def timedMessageQueue : TimedObject where
  Sys := MqSys
  Op := MqOp
  Result := MqResult
  step := MqSys.step
  tick := MqSys.tick
  call := MqSys.call
  event := MqSys.event
  call_step hs t := MqSys.call_step hs t

/-! ## Memory pools -/

/-- The variables of an `rt_mp_alloc` that waits, as far as its timeout is concerned. -/
def MpCall.waiting : MpCall → Call
  | .suspended time beforeSleep => .suspended time beforeSleep
  | .retrying time _ => .awake time

namespace MpSys

variable {M : ℕ} {s s' : MpSys} {op : MpOp} {r : MpResult} {self : Option Tid} {t : Tid}
  {time : ℤ} {b : ℕ}

def call (s : MpSys) (t : Tid) : Option Call := (s.calls t).map MpCall.waiting

/-- What the step is to the call of thread `t`. -/
def event (t : Tid) : MpOp → MpResult → Countdown.Event
  | .tick, _ => .tick
  | .alloc self time, r => if self = some t ∧ r = .blocked then .start time else .other
  | .woken u, r => if u = t then (if r = .void then .wake else .stop) else .other
  | .retry u, r => if u = t then (if r = .blocked then .retry else .stop) else .other
  | _, _ => .other

theorem call_update {c : Option MpCall} (h : s'.calls = update s.calls t c) :
    s'.call = update s.call t (c.map MpCall.waiting) := by
  funext u
  rw [call, h, apply_update fun _ => Option.map MpCall.waiting]
  rfl

theorem allocLoop_ends (hs : s.allocLoop M self time b = some (r, s')) :
    LoopEnds s.tick s.call self time (r = .blocked) s'.tick s'.call := by
  unfold allocLoop at hs
  by_cases hempty : s.mp.blockFreeCount = 0
  · rw [if_pos hempty] at hs
    by_cases htime : time = 0
    · rw [if_pos htime] at hs
      cases hs
      exact .returns (by simp) rfl rfl
    · rw [if_neg htime] at hs
      cases self with
      | none => cases hs
      | some u =>
        cases hs
        exact .suspends rfl rfl htime (fun hpos => if_pos hpos) rfl
          (call_update (c := some (.suspended time (if 0 < time then s.tick else b))) rfl)
  · unfold takeBlock at hs
    dsimp only at hs
    split_ifs at hs
    cases hs
    exact .returns (by simp) rfl rfl

theorem rtMpWoken_countdown (hs : s.rtMpWoken t = some (r, s')) (u : Tid) :
    Step s.tick (s.call u) (event u (.woken t) r) s'.tick (s'.call u) := by
  unfold rtMpWoken at hs
  cases hcall : s.calls t with
  | none =>
    rw [hcall] at hs
    cases hs
  | some c =>
    cases c with
    | retrying time b =>
      rw [hcall] at hs
      cases hs
    | suspended time b =>
      rw [hcall] at hs
      by_cases htu : t = u
      · subst htu
        split_ifs at hs
        · cases hs
          rw [event, if_pos rfl, call, call, hcall]
          dsimp only
          rw [update_self]
          exact .stop _
        · cases hs
          rw [event, if_pos rfl, call, call, hcall]
          dsimp only
          rw [update_self]
          exact .wake
      · rw [event, if_neg htu, call, call]
        split_ifs at hs
        · cases hs
          dsimp only
          rw [update_of_ne (Ne.symm htu)]
          exact .other _
        · cases hs
          dsimp only
          rw [update_of_ne (Ne.symm htu)]
          exact .other _

theorem rtMpRetry_countdown (hs : s.rtMpRetry M t = some (r, s')) (u : Tid) :
    Step s.tick (s.call u) (event u (.retry t) r) s'.tick (s'.call u) := by
  unfold rtMpRetry at hs
  cases hcall : s.calls t with
  | none =>
    rw [hcall] at hs
    cases hs
  | some c =>
    cases c with
    | suspended time b =>
      rw [hcall] at hs
      cases hs
    | retrying time b =>
      rw [hcall] at hs
      have hends := allocLoop_ends hs
      rw [call_update (s := s) (t := t) (c := none) rfl] at hends
      exact hends.resumed (by rw [call, hcall]; rfl) (fun _ hne hd => .retry hne hd) u

theorem rtMpFree_call {block : ℕ} (hs : s.rtMpFree M block = some s') :
    s'.tick = s.tick ∧ s'.calls = s.calls := by
  unfold rtMpFree at hs
  dsimp only at hs
  split_ifs at hs
  · unfold wakeFirst at hs
    split at hs
    · cases hs
    · cases hs
      exact ⟨rfl, rfl⟩
  · cases hs
    exact ⟨rfl, rfl⟩

theorem call_step (hs : s.step M op = some (r, s')) (t : Tid) :
    Step s.tick (s.call t) (event t op r) s'.tick (s'.call t) := by
  cases op with
  | schedulerStart =>
    cases hs
    exact .other _
  | startup u | timeout u =>
    obtain ⟨k, -, heq⟩ := map_eq_some_iff.mp hs
    cases heq
    exact .other _
  | tick =>
    cases hs
    exact .tick _
  | alloc self time =>
    simp only [step] at hs
    split_ifs at hs with hcall
    have hends := allocLoop_ends hs
    cases self with
    | none => exact hends.first (by simp) t
    | some u =>
      refine hends.first (fun v hv => ?_) t
      show (s.calls v).map MpCall.waiting = none
      rw [(hcall v hv).2, map_none]
  | woken u =>
    simp only [step] at hs
    split_ifs at hs
    exact rtMpWoken_countdown (s := s.dispatch (some u)) hs t
  | retry u =>
    simp only [step] at hs
    split_ifs at hs
    exact rtMpRetry_countdown (s := s.dispatch (some u)) hs t
  | free self block =>
    simp only [step] at hs
    split_ifs at hs
    obtain ⟨s₁, hfree, heq⟩ := map_eq_some_iff.mp hs
    cases heq
    obtain ⟨htick, hcalls⟩ := rtMpFree_call hfree
    have hd : (s.dispatch self).tick = s.tick ∧ (s.dispatch self).calls = s.calls := by
      cases self <;> exact ⟨rfl, rfl⟩
    rw [htick, hd.1, call, call, hcalls, hd.2]
    exact .other _
  | store block i v =>
    simp only [step] at hs
    split_ifs at hs
    cases hs
    exact .other _

end MpSys

def timedMempool : TimedObject where
  Sys := MpSys
  Op := MpOp
  Result := MpResult
  step := MpSys.step
  tick := MpSys.tick
  call := MpSys.call
  event := MpSys.event
  call_step hs t := MpSys.call_step hs t

/-! ## All of them -/

/-- The objects whose functions wait in a loop. -/
inductive TimedClass
  | mailbox
  | messageQueue
  | mempool
  deriving DecidableEq, Repr

def TimedClass.object : TimedClass → TimedObject
  | .mailbox => timedMailbox
  | .messageQueue => timedMessageQueue
  | .mempool => timedMempool

/-- In every run, for a call with a positive timeout `w.timeout` whose suspensions were `w.spent`
ticks long, and the one it is in `w.current` ticks, less than `2 ^ 31` in all: the timeout of its
present suspension is `w.timeout - w.spent`, which is positive, and what will be left of it is not
negative. Likewise if the call has been woken and has not tested the object yet. -/
theorem timeouts_shrink_exactly {M : ℕ} (c : TimedClass) {s₀ s : c.object.Sys}
    {tr : List (c.object.Op × c.object.Result)} (hcalls : ∀ t, c.object.call s₀ t = none)
    (htick : c.object.tick s₀ < 2 ^ 32) (hrun : Run (c.object.step M) s₀ tr s) (t : Tid)
    {w : Wait} (hw : c.object.wait t tr = some w) (hrange : w.InRange) :
    (w.isSuspended = true → 0 < w.timeout - w.spent ∧ ∃ start,
      c.object.call s t = some (.suspended (w.timeout - w.spent) start) ∧
      remaining (c.object.tick s) (w.timeout - w.spent) start =
        max 0 (w.timeout - (w.spent + w.current : ℕ))) ∧
    (w.isSuspended = false → c.object.call s t = some (.awake (max 0 (w.timeout - w.spent)))) := by
  obtain ⟨-, hagrees⟩ := TimedObject.agrees_run hcalls htick hrun t
  rw [hw] at hagrees
  cases hcall : c.object.call s t with
  | none =>
    rw [hcall] at hagrees
    exact hagrees.elim
  | some x =>
    rw [hcall] at hagrees
    have hx : CallAgrees (c.object.tick s) w x := hagrees hrange
    cases x with
    | suspended timeout start =>
      have hleft := hx.remaining_eq hrange
      obtain ⟨hsusp, rfl, hpos, -, -⟩ := hx
      exact ⟨fun _ => ⟨hpos, start, rfl, hleft⟩, fun h => by simp [hsusp] at h⟩
    | awake timeout =>
      obtain ⟨hawake, -, rfl⟩ := hx
      exact ⟨fun h => by simp [hawake] at h, fun _ => rfl⟩

/-- The clock is about to wrap around. -/
def sampleClock : MbSys := { MbSys.sampleSys with tick := 2 ^ 32 - 2 }

/-- Thread 1 waits 5 ticks at most to send. It is woken after 3 ticks, finds that an interrupt
handler was faster, and waits again. -/
def sampleStolenSend : List MbOp :=
  [.startup 0, .schedulerStart, .send (some 0) 7 0, .startup 1, .send (some 1) 8 5, .tick,
    .tick, .tick, .recv none 0, .send none 9 0, .resume 1, .tick]

theorem sampleStolenSend_possible : (exec (MbSys.step 32) sampleClock sampleStolenSend).isSome := by
  decide +kernel

theorem timeouts_shrink_exactly_sample :
    let r := (exec (MbSys.step 32) sampleClock sampleStolenSend).get sampleStolenSend_possible
    r.2.tick = 2 ∧ timedMailbox.wait 1 (sampleStolenSend.zip r.1) = some ⟨5, 3, 1, true⟩ ∧
      (0 : ℤ) < 5 - (3 : ℕ) ∧ ∃ start,
        timedMailbox.call r.2 1 = some (.suspended (5 - (3 : ℕ)) start) ∧
        remaining (timedMailbox.tick r.2) (5 - (3 : ℕ)) start = max 0 ((5 : ℤ) - (3 + 1 : ℕ)) := by
  have hrun : Run (timedMailbox.step 32) sampleClock _ _ := Run.of_isSome sampleStolenSend_possible
  have hwait : timedMailbox.wait 1 (sampleStolenSend.zip
      ((exec (MbSys.step 32) sampleClock sampleStolenSend).get sampleStolenSend_possible).1) =
        some ⟨5, 3, 1, true⟩ := by
    decide +kernel
  have hrange : Wait.InRange ⟨5, 3, 1, true⟩ := ⟨by decide, by decide, by decide⟩
  have hleft := timeouts_shrink_exactly .mailbox (fun _ => rfl) (by decide) hrun 1 hwait hrange
  exact ⟨by decide +kernel, hwait, hleft.1 rfl⟩

end RtThread
