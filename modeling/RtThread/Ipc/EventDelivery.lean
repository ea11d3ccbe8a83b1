import RtThread.Ipc.Event

/-!
# Delivery of events

`rt_event_send` delivers events to the waiting threads in a loop of its own, which
stores what a thread receives in `thread->event_set`; `rt_event_recv` delivers
events that are there at once, which it stores in `*recved`. `deliver` is what both
do, in terms of the threads' conditions and the event set alone.

* `sendLoop_deliver` and `recvEach_deliver`: the loop of `rt_event_send`, and the
  waiting threads receiving one after the other without waiting, are `deliver`.
* `send_agrees_with_recv`: so they wake or serve the same threads, with the same
  events, and leave the same event set.
-/

namespace RtThread.EventSys

open Runs List Option Kernel

variable {M : ℕ} {s s' : EventSys} {t u : Tid} {o : Outcome × Option (BitVec 32)} {set : BitVec 32}

/-! ## One receiver -/

/-- What a receiver gets from the events `has`, if its condition is satisfied. -/
def received (option : BitVec 8) (set has : BitVec 32) : Option (BitVec 32) :=
  if Satisfied option set has then some (has &&& set) else none

/-- The events that are left. -/
def left (option : BitVec 8) (set has : BitVec 32) : BitVec 32 :=
  if Satisfied option set has ∧ option &&& eventFlagClear ≠ 0 then has &&& ~~~set else has

/-- One thread after the other gets what its condition asks for. The result is what each of them
got, and the events that are left. -/
def deliver (thread : Tid → Thread) : List Tid → BitVec 32 → List (Tid × BitVec 32) × BitVec 32
  | [], has => ([], has)
  | t :: l, has =>
    let th := thread t
    let r := deliver thread l (left th.eventInfo th.eventSet has)
    (((received th.eventInfo th.eventSet has).map (t, ·)).toList ++ r.1, r.2)

variable (l : List Tid)

theorem deliver_congr {thread thread' : Tid → Thread} (has : BitVec 32)
    (h : ∀ t ∈ l, (thread' t).eventSet = (thread t).eventSet ∧ (thread' t).eventInfo = (thread
      t).eventInfo) : deliver thread' l has = deliver thread l has := by
  induction l generalizing has with
  | nil => rfl
  | cons t l ih =>
    obtain ⟨hset, hinfo⟩ := h t (by simp)
    simp only [deliver, hset, hinfo, ih _ fun u hu => h u (by simp [hu])]

/-- A thread gets something at its turn only. -/
theorem mem_of_mem_deliver {thread : Tid → Thread} {l : List Tid} {has b : BitVec 32}
    (h : (t, b) ∈ (deliver thread l has).1) : t ∈ l := by
  induction l generalizing has with
  | nil => simp [deliver] at h
  | cons u l ih =>
    simp only [deliver, mem_append, mem_toList, map_eq_some_iff, Prod.mk.injEq] at h
    rcases h with ⟨c, -, rfl, -⟩ | h
    · simp
    · simp [ih h]

/-! ## Receiving without waiting -/

/-- The threads call `rt_event_recv` with timeout 0, one after the other, each with the events and
the option that are stored in its object; with what they get. -/
def recvEach (M : ℕ) : List Tid → EventSys → Option (List (Tid × BitVec 32) × EventSys)
  | [], s => some ([], s)
  | t :: l, s =>
    let th := s.kernel.thread t
    match s.rtEventRecv M t th.eventSet th.eventInfo 0 with
    | none => none
    | some ((_, got), s) =>
      (recvEach M l s).map fun r => ((got.map (t, ·)).toList ++ r.1, r.2)

/-- A thread can call `rt_event_recv` with these arguments. -/
def Callable (th : Thread) : Prop :=
  th.eventSet ≠ 0 ∧ (th.eventInfo &&& eventFlagAnd ≠ 0 ∨ th.eventInfo &&& eventFlagOr ≠ 0)

theorem recv_spec {th : Thread} (h : Callable th) :
    ∃ o s', s.rtEventRecv M t th.eventSet th.eventInfo 0 =
        some ((o, received th.eventInfo th.eventSet s.event.set), s') ∧
      s'.event.set = left th.eventInfo th.eventSet s.event.set ∧
      ∀ u, (s'.kernel.thread u).eventSet = (s.kernel.thread u).eventSet ∧
        (s'.kernel.thread u).eventInfo = (s.kernel.thread u).eventInfo := by
  have hflag : ¬ (th.eventInfo &&& eventFlagAnd = 0 ∧ th.eventInfo &&& eventFlagOr = 0) := by
    rintro ⟨hand, hor⟩
    exact h.2.elim (absurd hand) (absurd hor)
  unfold rtEventRecv received left
  rw [if_neg h.1]
  rw [if_neg hflag]
  by_cases hsat : Satisfied th.eventInfo th.eventSet s.event.set
  · rw [if_pos hsat, if_pos hsat]
    refine ⟨_, _, rfl, ?_, fun u => ?_⟩
    · by_cases hclear : th.eventInfo &&& eventFlagClear ≠ 0
      · rw [if_pos hclear, if_pos ⟨hsat, hclear⟩]
      · rw [if_neg hclear, if_neg fun h' => hclear h'.2]
    · by_cases hu : u = t <;> simp [hu]
  · rw [if_neg hsat, if_neg hsat]
    refine ⟨_, _, rfl, ?_, fun u => ?_⟩
    · rw [if_neg fun h' => hsat h'.1]
    · by_cases hu : u = t <;> simp [hu]

theorem recvEach_deliver (s : EventSys) (h : ∀ t ∈ l, Callable (s.kernel.thread t)) :
    ∃ s', recvEach M l s = some ((deliver s.kernel.thread l s.event.set).1, s') ∧
      s'.event.set = (deliver s.kernel.thread l s.event.set).2 := by
  induction l generalizing s with
  | nil => exact ⟨s, rfl, rfl⟩
  | cons t l ih =>
    obtain ⟨o, s₁, hrecv, hset, hsame⟩ := recv_spec (M := M) (s := s) (t := t) (h t (by simp))
    have hcall : ∀ u ∈ l, Callable (s₁.kernel.thread u) := by
      intro u hu
      unfold Callable
      rw [(hsame u).1, (hsame u).2]
      exact h u (by simp [hu])
    obtain ⟨s₂, heach, hset₂⟩ := ih s₁ hcall
    rw [deliver_congr l _ fun u _ => hsame u, hset] at heach hset₂
    refine ⟨s₂, ?_, hset₂⟩
    simp only [recvEach, hrecv, heach, map_some, deliver]

/-! ## The loop of `rt_event_send` -/

theorem and_not_and (x y : BitVec 32) : x &&& ~~~(y &&& x) = x &&& ~~~y := by
  apply BitVec.eq_of_getLsbD_eq
  intro i hi
  simp only [BitVec.getLsbD_and, BitVec.getLsbD_not]
  cases x.getLsbD i <;> cases y.getLsbD i <;> simp [hi]

/-- What a round of the loop does for the thread `t`, as far as the thread and the event set are
concerned. -/
structure Delivered (s : EventSys) (t : Tid) (s' : EventSys) : Prop where
  set : s'.event.set = left (s.kernel.thread t).eventInfo (s.kernel.thread t).eventSet s.event.set
  calls : s'.calls = s.calls
  other : ∀ u ≠ t, s'.kernel.thread u = s.kernel.thread u
  woken : ∀ b, received (s.kernel.thread t).eventInfo (s.kernel.thread t).eventSet s.event.set =
    some b → (s'.kernel.thread t).stat = .ready ∧ (s'.kernel.thread t).eventSet = b ∧
      (s'.kernel.thread t).error = (s.kernel.thread t).error ∧
      s'.kernel.suspendThread () = (s.kernel.suspendThread ()).erase t
  stays : received (s.kernel.thread t).eventInfo (s.kernel.thread t).eventSet s.event.set = none →
    s' = s

/-- The thread is woken, with the events that it receives in its object. -/
theorem delivered_wake {k : Kernel Unit} (hsusp : (s.kernel.thread t).stat = .suspend)
    (hsat : Satisfied (s.kernel.thread t).eventInfo (s.kernel.thread t).eventSet s.event.set)
    (hset : (k.thread t).eventSet = (s.kernel.thread t).eventSet &&& s.event.set)
    (hinfo : (k.thread t).eventInfo = (s.kernel.thread t).eventInfo)
    (hstat : (k.thread t).stat = (s.kernel.thread t).stat)
    (herror : (k.thread t).error = (s.kernel.thread t).error)
    (hne : ∀ u ≠ t, k.thread u = s.kernel.thread u)
    (hlist : k.suspendThread = s.kernel.suspendThread) :
    Delivered s t (({ s with kernel := k } : EventSys).wake M t) := by
  have hks : (k.thread t).stat = .suspend := by rw [hstat, hsusp]
  have hth := rtThreadResume_thread (M := M) hks
  have herase := rtThreadResume_suspendThread (M := M) hks ()
  refine ⟨?_, rfl, fun u hu => ?_, fun b hb => ?_, fun hnone => ?_⟩
  · -- clearing the events that were received clears those that were asked for
    unfold left wake
    dsimp only
    rw [hinfo, hset]
    by_cases hclear : (s.kernel.thread t).eventInfo &&& eventFlagClear ≠ 0
    · rw [if_pos hclear, if_pos ⟨hsat, hclear⟩]
      exact and_not_and _ _
    · rw [if_neg hclear, if_neg fun h' => hclear h'.2]
  · simp [wake, hth, hne u hu, hu]
  · rw [received, if_pos hsat, some.injEq, BitVec.and_comm] at hb
    refine ⟨by simp [wake, hth], ?_, ?_, ?_⟩
    · simp [wake, hth, hset, hb]
    · simp [wake, hth, herror]
    · simp [wake, herase, hlist]
  · rw [received, if_pos hsat] at hnone
    cases hnone

theorem sendTo_delivered (hsusp : (s.kernel.thread t).stat = .suspend) :
    Delivered s t (s.sendTo M t).2 := by
  have hkeep : ¬ Satisfied (s.kernel.thread t).eventInfo (s.kernel.thread t).eventSet
      s.event.set → Delivered s t s := by
    intro hn
    refine ⟨?_, rfl, fun _ _ => rfl, fun b hb => ?_, fun _ => rfl⟩
    · rw [left, if_neg fun h' => hn h'.1]
    · rw [received, if_neg hn] at hb
      cases hb
  unfold sendTo
  dsimp only
  split_ifs with hand hset hor hset
  · refine delivered_wake (k := s.kernel) hsusp ?_ hset.symm rfl rfl rfl (fun _ _ => rfl) rfl
    rw [Satisfied, if_pos hand, BitVec.and_comm]
    exact hset
  · refine hkeep fun hsat => hset ?_
    rw [Satisfied, if_pos hand] at hsat
    rw [BitVec.and_comm, hsat]
  · refine delivered_wake hsusp ?_ (by simp) (by simp) (by simp) (by simp)
      (fun u hu => modify_thread_ne _ _ hu) rfl
    rw [Satisfied, if_neg hand]
    refine ⟨hor, ?_⟩
    rw [BitVec.and_comm]
    exact hset
  · refine hkeep fun hsat => hset ?_
    rw [Satisfied, if_neg hand] at hsat
    rw [BitVec.and_comm]
    exact hsat.2
  · refine hkeep fun hsat => hor ?_
    rw [Satisfied, if_neg hand] at hsat
    exact hsat.1

/-- The loop over the threads `l`, which wait: it leaves the events that `deliver` leaves and wakes
the threads that get something, with what they get. -/
structure LoopDelivered (s : EventSys) (l : List Tid) (s' : EventSys) : Prop where
  set : s'.event.set = (deliver s.kernel.thread l s.event.set).2
  calls : s'.calls = s.calls
  other : ∀ u, (∀ b, (u, b) ∉ (deliver s.kernel.thread l s.event.set).1) →
    s'.kernel.thread u = s.kernel.thread u
  woken : ∀ t b, (t, b) ∈ (deliver s.kernel.thread l s.event.set).1 →
    (s'.kernel.thread t).stat = .ready ∧ (s'.kernel.thread t).eventSet = b ∧
      (s'.kernel.thread t).error = (s.kernel.thread t).error
  list : ∀ t, t ∈ s'.kernel.suspendThread () ↔ t ∈ s.kernel.suspendThread () ∧
    ∀ b, (t, b) ∉ (deliver s.kernel.thread l s.event.set).1

theorem sendLoop_deliver (b : Bool) (s : EventSys) (hw : s.kernel.WaitOk) (hnd : l.Nodup)
    (hmem : ∀ t ∈ l, t ∈ s.kernel.suspendThread ()) :
    LoopDelivered s l (sendLoop M l (b, s)).2 := by
  induction l generalizing b s with
  | nil => exact ⟨rfl, rfl, fun _ _ => rfl, by simp [deliver], by simp [deliver, sendLoop]⟩
  | cons t l ih =>
    rw [nodup_cons] at hnd
    have hsent := sendTo_sent (M := M) hw (hmem t (by simp))
    have hd := sendTo_delivered (M := M) (hw.suspended () t (hmem t (by simp)))
    set s₁ := (s.sendTo M t).2
    have hne : ∀ u ∈ l, u ≠ t := by
      rintro u hu rfl
      exact hnd.1 hu
    have hloop := ih (b || (s.sendTo M t).1) s₁ hsent.waits hnd.2 fun u hu =>
      (hsent.list u (hne u hu)).mpr (hmem u (by simp [hu]))
    have hcongr : deliver s₁.kernel.thread l s₁.event.set = deliver s.kernel.thread l
        (left (s.kernel.thread t).eventInfo (s.kernel.thread t).eventSet s.event.set) := by
      rw [hd.set]
      refine deliver_congr l _ fun u hu => ?_
      rw [hd.other u (hne u hu)]
      exact ⟨rfl, rfl⟩
    -- the thread `t` leaves the list iff it gets something
    have hleaves : ∀ u, u ∈ s₁.kernel.suspendThread () ↔ u ∈ s.kernel.suspendThread () ∧
        ∀ c, ¬ (received (s.kernel.thread t).eventInfo (s.kernel.thread t).eventSet s.event.set =
          some c ∧ t = u) := by
      intro u
      cases hr : received (s.kernel.thread t).eventInfo (s.kernel.thread t).eventSet
          s.event.set with
      | none =>
        rw [hd.stays hr]
        simp
      | some c =>
        rw [(hd.woken c hr).2.2.2, (hw.nodup ()).mem_erase_iff]
        simp [eq_comm, and_comm]
    have hgot : ∀ u c, (u, c) ∈ (deliver s.kernel.thread (t :: l) s.event.set).1 ↔
        received (s.kernel.thread t).eventInfo (s.kernel.thread t).eventSet s.event.set = some c ∧
          t = u ∨ (u, c) ∈ (deliver s₁.kernel.thread l s₁.event.set).1 := by
      intro u c
      rw [hcongr]
      simp [deliver]
    refine ⟨?_, hloop.calls.trans hd.calls, fun u hu => ?_, fun u c huc => ?_, fun u => ?_⟩
    · rw [deliver, ← hcongr]
      exact hloop.set
    · simp only [hgot, not_or, forall_and] at hu
      refine (hloop.other u hu.2).trans ?_
      by_cases hut : u = t
      · rw [hd.stays (eq_none_iff_forall_ne_some.mpr fun c hc => hu.1 c ⟨hc, hut.symm⟩)]
      · exact hd.other u hut
    · rcases (hgot u c).mp huc with ⟨hr, rfl⟩ | huc
      · have hsame : (sendLoop M l (b || (s.sendTo M t).1, s₁)).2.kernel.thread t =
            s₁.kernel.thread t := hloop.other t fun c hc => hnd.1 (mem_of_mem_deliver hc)
        obtain ⟨hstat, hset, herror, -⟩ := hd.woken c hr
        rw [sendLoop, hsame]
        exact ⟨hstat, hset, herror⟩
      · obtain ⟨hstat, hset, herror⟩ := hloop.woken u c huc
        rw [hd.other u (hne u (mem_of_mem_deliver huc))] at herror
        exact ⟨hstat, hset, herror⟩
    · simp only [hgot, not_or, forall_and]
      rw [← and_assoc, ← hleaves]
      exact hloop.list u

/-- `rt_event_send` is a delivery to the waiting threads. -/
theorem rtEventSend_deliver (h : s.kernel.WaitOk) (hset : set ≠ 0) :
    LoopDelivered { s with event := { s.event with set := s.event.set ||| set } }
      (s.kernel.suspendThread ()) (s.rtEventSend M set).2 := by
  have hloop := sendLoop_deliver (M := M) (s.kernel.suspendThread ()) false
    { s with event := { s.event with set := s.event.set ||| set } } h (h.nodup ())
    fun _ ht => ht
  unfold rtEventSend
  rw [if_neg hset]
  dsimp only
  split_ifs
  · exact ⟨hloop.set, hloop.calls, by simpa using hloop.other, by simpa using hloop.woken,
      by simpa using hloop.list⟩
  · exact hloop

theorem rtEventSend_waits (h : s.kernel.WaitOk) (set : BitVec 32) :
    (s.rtEventSend M set).2.kernel.WaitOk := by
  unfold rtEventSend
  split_ifs with hzero
  · exact h
  · have hloop := sendLoop_stranded (M := M) (s.kernel.suspendThread ()) false
      { s with event := { s.event with set := s.event.set ||| set } } h (h.nodup ())
      (fun _ ht => ht) fun t ht hn => absurd ht hn
    dsimp only
    split_ifs
    · exact hloop.waits.schedule
    · exact hloop.waits

/-! ## The waiting threads -/

/-- The threads in the wait list are in the middle of `rt_event_recv`. -/
structure Waiting (s : EventSys) : Prop where
  waits : s.kernel.WaitOk
  callable : ∀ t ∈ s.kernel.suspendThread (), Callable (s.kernel.thread t)
  error : ∀ t ∈ s.kernel.suspendThread (), (s.kernel.thread t).error = .eok
  calls : ∀ t ∈ s.kernel.suspendThread (), t ∈ s.calls

section

variable (h : s.Waiting)
include h

/-- Steps that add no waiter and leave the waiters alone. -/
theorem Waiting.of_fewer (hw : s'.kernel.WaitOk)
    (hlist : ∀ t ∈ s'.kernel.suspendThread (), t ∈ s.kernel.suspendThread () ∧ s'.kernel.thread t =
      s.kernel.thread t) (hcalls : ∀ t ∈ s'.kernel.suspendThread (), t ∈ s.calls → t ∈ s'.calls) :
    s'.Waiting where
  waits := hw
  callable := fun t ht => by
    rw [(hlist t ht).2]
    exact h.callable t (hlist t ht).1
  error := fun t ht => by
    rw [(hlist t ht).2]
    exact h.error t (hlist t ht).1
  calls := fun t ht => hcalls t ht (h.calls t (hlist t ht).1)

theorem Waiting.dispatch (self : Option Tid) : (s.dispatch self).Waiting := by
  cases self with
  | none => exact h
  | some t => exact ⟨h.waits.dispatch t, h.callable, h.error, h.calls⟩

theorem Waiting.send (set : BitVec 32) : (s.rtEventSend M set).2.Waiting := by
  by_cases hset : set = 0
  · rw [rtEventSend, if_pos hset]
    exact h
  · have hsent := rtEventSend_deliver (M := M) h.waits hset
    refine h.of_fewer (rtEventSend_waits h.waits set) (fun t ht => ?_) fun t _ ht => ?_
    · obtain ⟨hold, hno⟩ := (hsent.list t).mp ht
      exact ⟨hold, hsent.other t hno⟩
    · rw [hsent.calls]
      exact ht

theorem Waiting.recv {option : BitVec 8} {timeout : ℤ} (hready : (s.kernel.thread t).stat = .ready)
    (hs : s.rtEventRecv M t set option timeout = some (o, s')) : s'.Waiting := by
  have hother : ∀ u ∈ s.kernel.suspendThread (), u ≠ t := fun u hu =>
    h.waits.ne_of_ready hu hready
  have herror : (s.kernel.modify t fun th => { th with error := .eok }).WaitOk := h.waits.modify rfl
  unfold rtEventRecv at hs
  by_cases hzero : set = 0
  · rw [if_pos hzero] at hs
    cases hs
    exact h
  rw [if_neg hzero] at hs
  by_cases hopt : option &&& eventFlagAnd = 0 ∧ option &&& eventFlagOr = 0
  · rw [if_pos hopt] at hs
    cases hs
  rw [if_neg hopt] at hs
  by_cases hsat : Satisfied option set s.event.set
  · rw [if_pos hsat] at hs
    cases hs
    refine h.of_fewer herror (fun u hu => ⟨hu, ?_⟩) fun _ _ hu => hu
    simp [hother u hu]
  rw [if_neg hsat] at hs
  by_cases htime : timeout = 0
  · rw [if_pos htime] at hs
    cases hs
    refine h.of_fewer ?_ (fun u hu => ⟨hu, ?_⟩) fun _ _ hu => hu
    · exact herror.modify (t := t) (f := fun th => { th with error := .etimeout }) rfl
    · simp [hother u hu]
  rw [if_neg htime] at hs
  cases hs
  -- the thread blocks, with what it wants in its object
  set k := (s.kernel.modify t fun th => { th with error := .eok }).modify t fun th =>
    { th with eventSet := set, eventInfo := option } with hk
  have hkw : k.WaitOk := herror.modify rfl
  have hkt : (k.thread t).stat = .ready := by simpa [hk] using hready
  have hthread : (k.blockOn M t () s.event.flag timeout).thread = _ := blockOn_thread hkt
  have hwait : ∀ u ∈ (k.blockOn M t () s.event.flag timeout).suspendThread (),
      Callable ((k.blockOn M t () s.event.flag timeout).thread u) ∧
      ((k.blockOn M t () s.event.flag timeout).thread u).error = .eok ∧ u ∈ t :: s.calls := by
    intro u hu
    rw [hthread]
    rcases (mem_blockOn u hkw hkt).mp hu with hmem | ⟨rfl, -⟩
    · have hold : k.thread u = s.kernel.thread u := by simp [hk, hother u hmem]
      rw [modify_thread_ne _ _ (hother u hmem), hold]
      exact ⟨h.callable u hmem, h.error u hmem, mem_cons_of_mem _ (h.calls u hmem)⟩
    · refine ⟨⟨?_, ?_⟩, ?_, by simp⟩
      · simpa [hk] using hzero
      · simpa [hk, ← not_and_or] using hopt
      · simp [hk]
  exact ⟨hkw.blockOn hkt, fun u hu => (hwait u hu).1, fun u hu => (hwait u hu).2.1,
    fun u hu => (hwait u hu).2.2⟩

theorem Waiting.step {op : EventOp} (hs : s.step M op = some (o, s')) : s'.Waiting := by
  cases op with
  | schedulerStart =>
    cases hs
    refine h.of_fewer (h.waits.congr (by simp) (by simp)) ?_ fun _ _ ht => ht
    simp
  | startup t =>
    obtain ⟨k, hk, heq⟩ := map_eq_some_iff.mp hs
    cases heq
    refine h.of_fewer (h.waits.startup hk) (fun u hu => ?_) fun _ _ ht => ht
    obtain ⟨hmem, hthread⟩ := h.waits.startup_waiter hk hu
    exact ⟨hmem, by simp [hthread]⟩
  | send self set =>
    simp only [EventSys.step] at hs
    split_ifs at hs
    cases hs
    exact (h.dispatch self).send set
  | recv t set option timeout =>
    simp only [EventSys.step] at hs
    split_ifs at hs with hcall
    exact (h.dispatch (some t)).recv (hcall t rfl).1 hs
  | resume t =>
    simp only [EventSys.step] at hs
    split_ifs at hs with hready
    unfold rtEventRecvEnd at hs
    split at hs
    · cases hs
      refine h.of_fewer (h.dispatch (some t)).waits (fun u hu => ⟨hu, rfl⟩) fun u hu hcall => ?_
      have hut : u ≠ t := h.waits.ne_of_ready hu hready
      exact (mem_erase_of_ne hut).mpr hcall
    · cases hs
  | reset self =>
    simp only [EventSys.step] at hs
    split_ifs at hs
    cases hs
    have hd := h.dispatch self
    refine hd.of_fewer hd.waits.listResumeAll.schedule ?_ ?_
    · simp [rtEventReset, rtIpcListResumeAll_nil hd.waits]
    · simp [rtEventReset, rtIpcListResumeAll_nil hd.waits]
  | timeout t =>
    obtain ⟨k, hk, heq⟩ := map_eq_some_iff.mp hs
    cases heq
    refine h.of_fewer (h.waits.timeout hk) (fun u hu => ?_) fun _ _ ht => ht
    obtain ⟨hut, hmem⟩ := (h.waits.mem_timeout hk).mp hu
    exact ⟨hmem, by simp [threadTimerExpires_other hk hut]⟩

end

theorem waiting_run {s₀ : EventSys} {tr : List (EventOp × (Outcome × Option (BitVec 32)))}
    (hinit : s₀.Initial) (hrun : Run (EventSys.step M) s₀ tr s) : s.Waiting := by
  have h₀ : s₀.Waiting :=
    ⟨⟨by simp [hinit.suspendThread], by simp [hinit.suspendThread], by simp⟩,
      by simp [hinit.suspendThread], by simp [hinit.suspendThread], by simp [hinit.suspendThread]⟩
  exact hrun.inv h₀ fun _ _ _ _ h hs => h.step hs

/-! ## Both agree -/

/-- Where no condition is satisfied, nothing is delivered. -/
theorem deliver_none (thread : Tid → Thread) (l : List Tid) (has : BitVec 32)
    (h : ∀ t ∈ l, ¬ Satisfied (thread t).eventInfo (thread t).eventSet has) :
    deliver thread l has = ([], has) := by
  induction l with
  | nil => rfl
  | cons t l ih =>
    have ht := h t (by simp)
    have hleft : left (thread t).eventInfo (thread t).eventSet has = has := by
      rw [left, if_neg fun hsat => ht hsat.1]
    simp only [deliver, received, if_neg ht, hleft, ih fun u hu => h u (by simp [hu])]
    rfl

/-- An empty set is refused, which is as good as delivering it as long as nobody waits whose
condition is satisfied. -/
theorem rtEventSend_zero (h : ∀ t ∈ s.kernel.suspendThread (), ¬ s.Wakes t) :
    LoopDelivered { s with event := { s.event with set := s.event.set ||| 0#32 } }
      (s.kernel.suspendThread ()) (s.rtEventSend M 0#32).2 := by
  have hnone := deliver_none s.kernel.thread _ s.event.set h
  rw [← BitVec.or_zero (x := s.event.set)] at hnone
  refine ⟨?_, rfl, fun _ _ => rfl, fun t b hb => ?_, fun t => ?_⟩
  · rw [hnone]
    exact BitVec.or_zero.symm
  · rw [hnone] at hb
    cases hb
  · rw [hnone]
    simp [rtEventSend]

/-- `rt_event_send` wakes the threads that would have received something, had the waiting threads
received without waiting in the order of the list, right after the events were set. Each woken
thread returns with the events that it would have received, and the event set is left the same. -/
theorem send_agrees_with_recv {set : BitVec 32} (h : s.Waiting)
    (hzero : set = 0 → ∀ t ∈ s.kernel.suspendThread (), ¬ s.Wakes t) :
    ∃ got s₁, recvEach M (s.kernel.suspendThread ())
        { s with event := { s.event with set := s.event.set ||| set } } = some (got, s₁) ∧
      (s.rtEventSend M set).2.event.set = s₁.event.set ∧
      ∀ t ∈ s.kernel.suspendThread (), ∀ b, (t, b) ∈ got ↔
        t ∉ (s.rtEventSend M set).2.kernel.suspendThread () ∧
        ((s.rtEventSend M set).2.kernel.thread t).stat = .ready ∧
        ∃ s₂, (s.rtEventSend M set).2.rtEventRecvEnd t = some ((.returned .eok, some b), s₂) := by
  have hsent : LoopDelivered { s with event := { s.event with set := s.event.set ||| set } }
      (s.kernel.suspendThread ()) (s.rtEventSend M set).2 := by
    by_cases hset : set = 0
    · rw [hset]
      exact rtEventSend_zero (hzero hset)
    · exact rtEventSend_deliver h.waits hset
  obtain ⟨s₁, heach, hset⟩ := recvEach_deliver (M := M) (s.kernel.suspendThread ())
    { s with event := { s.event with set := s.event.set ||| set } } h.callable
  refine ⟨_, s₁, heach, hsent.set.trans hset.symm, fun t ht b => ?_⟩
  -- what a woken thread returns
  have hreturns : ∀ c, (t, c) ∈ (deliver s.kernel.thread (s.kernel.suspendThread ())
      (s.event.set ||| set)).1 → ∃ s₂, (s.rtEventSend M set).2.rtEventRecvEnd t =
        some ((.returned .eok, some c), s₂) := by
    intro c hc
    obtain ⟨-, hstored, herror⟩ := hsent.woken t c hc
    have hcall : t ∈ (s.rtEventSend M set).2.calls := by
      rw [hsent.calls]
      exact h.calls t ht
    have heok := herror.trans (h.error t ht)
    rw [rtEventRecvEnd, if_pos hcall]
    dsimp only
    rw [heok, hstored]
    exact ⟨_, rfl⟩
  constructor
  · intro hb
    refine ⟨fun hstays => ((hsent.list t).mp hstays).2 b hb, (hsent.woken t b hb).1, ?_⟩
    exact hreturns b hb
  · rintro ⟨hleaves, -, s₂, hend⟩
    -- a thread that left the list got something, and that is what it returns
    have hgot : ∃ c, (t, c) ∈ (deliver s.kernel.thread (s.kernel.suspendThread ())
        (s.event.set ||| set)).1 := by
      by_contra hno
      exact hleaves ((hsent.list t).mpr ⟨ht, fun c hc => hno ⟨c, hc⟩⟩)
    obtain ⟨c, hc⟩ := hgot
    obtain ⟨s₃, hend'⟩ := hreturns c hc
    rw [hend'] at hend
    cases hend
    exact hc

/-- Threads 1, 2 and 3 wait: one for events 1 and 2, one for any of them, which it clears, one for
event 2. -/
def sampleWaiters : List EventOp :=
  [.startup 0, .schedulerStart, .startup 1, .recv 1 0b11 eventFlagAnd (-1), .startup 2,
    .recv 2 0b11 (eventFlagOr ||| eventFlagClear) 7, .startup 3, .recv 3 0b10 eventFlagOr (-1)]

theorem sampleWaiters_possible : (exec (EventSys.step 32) sampleSys sampleWaiters).isSome := by
  decide

theorem send_agrees_with_recv_sample :
    let s := ((exec (EventSys.step 32) sampleSys sampleWaiters).get sampleWaiters_possible).2
    s.kernel.suspendThread () = [3, 2, 1] ∧
      ∃ got s₁, recvEach 32 (s.kernel.suspendThread ())
          { s with event := { s.event with set := s.event.set ||| 0b10 } } = some (got, s₁) ∧
        (s.rtEventSend 32 0b10).2.event.set = s₁.event.set ∧
        ∀ t ∈ s.kernel.suspendThread (), ∀ b, (t, b) ∈ got ↔
          t ∉ (s.rtEventSend 32 0b10).2.kernel.suspendThread () ∧
          ((s.rtEventSend 32 0b10).2.kernel.thread t).stat = .ready ∧
          ∃ s₂, (s.rtEventSend 32 0b10).2.rtEventRecvEnd t = some ((.returned .eok, some b), s₂) :=
  ⟨by decide, send_agrees_with_recv
    (waiting_run ⟨⟨.prio, rfl⟩, rfl, rfl⟩ (Run.of_isSome sampleWaiters_possible))
    fun h => absurd h (by decide)⟩

end RtThread.EventSys
