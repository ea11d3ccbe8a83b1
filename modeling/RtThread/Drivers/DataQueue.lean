import RtThread.Kernel.Basic
import RtThread.Lib.Circular
import RtThread.Lib.Runs

/-!
# Data queues

`rt_data_queue_init`, `rt_data_queue_push` and `rt_data_queue_pop` with timeout 0, and
`rt_data_queue_peak`, of `components/drivers/src/dataqueue.c`. Both indices count on in
16 bits. The queue is full if their difference is its size, and this difference is an `int`:
it is negative when `put_index` has wrapped around and `get_index` has not. The slots are the
indices modulo the size, which jumps where the indices wrap around unless the size divides
65536.

* `Repr`: the items of the queue are those in the slots of the indices from `get_index`
  up to `put_index`.
* `Repr.call`: what a call does to them, if `PushOk` holds.
* `Repr.meets_iff`: a push does what it does on a bounded queue just if `PushOk` holds.
* `data_queue_iff`: the same along every run; `full_queue_overwritten`: the size 1.
-/

namespace RtThread

open Runs List Function Circular

/-- `struct rt_data_item`. -/
structure DataItem where
  dataPtr : ℕ
  dataSize : ℕ
  deriving DecidableEq

/-- `RT_DATAQUEUE_EVENT_POP`, `RT_DATAQUEUE_EVENT_PUSH` and `RT_DATAQUEUE_EVENT_LWM`. -/
inductive DataqueueEvent
  | pop
  | push
  | lwm
  deriving DecidableEq

/-- `struct rt_data_queue`. The sizes and indices are `rt_uint16_t`. -/
structure DataQueue where
  size : ℕ
  lwm : ℕ
  getIndex : ℕ
  putIndex : ℕ
  queue : ℕ → DataItem
  suspendedPushList : List Tid
  suspendedPopList : List Tid
  /-- `evt_notify` is not `RT_NULL`. -/
  evtNotify : Bool

namespace DataQueue

/-- `rt_data_queue_init`, with what `rt_malloc` gives for the slots. -/
def rtDataQueueInit (size lwm : ℕ) (evtNotify : Bool) (malloc : Option (ℕ → DataItem)) :
    Option DataQueue :=
  malloc.map fun queue =>
    { size, lwm, getIndex := 0, putIndex := 0, queue, suspendedPushList := [],
      suspendedPopList := [], evtNotify }

/-- What a call does besides changing the queue: its result, the item it stores for the caller, the
thread it resumes and the event that it passes to `evt_notify`. -/
structure Reply where
  result : Err
  item : Option DataItem := none
  resumed : Option Tid := none
  event : Option DataqueueEvent := none
  deriving DecidableEq

/-- `queue->evt_notify(queue, event)`. -/
def notify (dq : DataQueue) (event : DataqueueEvent) : Option DataqueueEvent :=
  if dq.evtNotify then some event else none

/-- `rt_data_queue_push` with timeout 0. -/
def rtDataQueuePush (dq : DataQueue) (item : DataItem) : Reply × DataQueue :=
  if (dq.putIndex : ℤ) - dq.getIndex = dq.size then ({ result := .etimeout }, dq)
  else
    let dq := { dq with
      queue := update dq.queue (dq.putIndex % dq.size) item
      putIndex := (dq.putIndex + 1) % 2 ^ 16 }
    match dq.suspendedPopList with
    | t :: l => ({ result := .eok, resumed := some t }, { dq with suspendedPopList := l })
    | [] => ({ result := .eok, event := dq.notify .push }, dq)

/-- `rt_data_queue_pop` with timeout 0. -/
def rtDataQueuePop (dq : DataQueue) : Reply × DataQueue :=
  if dq.getIndex = dq.putIndex then ({ result := .etimeout }, dq)
  else
    let item := dq.queue (dq.getIndex % dq.size)
    let dq := { dq with getIndex := (dq.getIndex + 1) % 2 ^ 16 }
    if (dq.putIndex : ℤ) - dq.getIndex ≤ dq.lwm then
      match dq.suspendedPushList with
      | t :: l =>
        ({ result := .eok, item := some item, resumed := some t, event := dq.notify .lwm },
          { dq with suspendedPushList := l })
      | [] => ({ result := .eok, item := some item, event := dq.notify .lwm }, dq)
    else ({ result := .eok, item := some item, event := dq.notify .pop }, dq)

/-- `rt_data_queue_peak`: `none` if the queue is empty. -/
def rtDataQueuePeak (dq : DataQueue) : Option DataItem :=
  if dq.getIndex = dq.putIndex then none else some (dq.queue (dq.getIndex % dq.size))

/-- A non-blocking call. -/
inductive Call
  | push (item : DataItem)
  | pop
  deriving DecidableEq

/-- A call: its reply, and the queue after it. -/
def call (dq : DataQueue) : Call → Reply × DataQueue
  | .push item => dq.rtDataQueuePush item
  | .pop => dq.rtDataQueuePop

/-- The same call on a queue of at most `size` items, the oldest one first: its result, the item
that it returns, and the queue after it. -/
def queueCall (size : ℕ) (q : List DataItem) : Call → (Err × Option DataItem) × List DataItem
  | .push item => if q.length < size then ((.eok, none), q ++ [item]) else ((.etimeout, none), q)
  | .pop =>
    match q with
    | [] => ((.etimeout, none), [])
    | x :: q => ((.eok, some x), q)

/-! ## The items of the queue -/

variable {dq dq' : DataQueue} {q : List DataItem} {k : ℕ} {x : DataItem}

/-- The slot of the `k`-th item. -/
def slot (dq : DataQueue) (k : ℕ) : ℕ := (dq.getIndex + k) % 2 ^ 16 % dq.size

/-- The queue holds the items `q`, and no call is waiting. -/
structure Repr (dq : DataQueue) (q : List DataItem) : Prop where
  size_pos : 0 < dq.size
  size_lt : dq.size < 2 ^ 16
  get_lt : dq.getIndex < 2 ^ 16
  length_le : q.length ≤ dq.size
  put_eq : dq.putIndex = (dq.getIndex + q.length) % 2 ^ 16
  items_eq : (range q.length).map (fun k => dq.queue (dq.slot k)) = q
  pushList : dq.suspendedPushList = []
  popList : dq.suspendedPopList = []

section

variable (h : Repr dq q)
include h

/-- `put_index` has not wrapped around, or it has and `get_index` has not yet. -/
theorem Repr.put_cases :
    (dq.getIndex ≤ dq.putIndex ∧ dq.putIndex = dq.getIndex + q.length) ∨
      (dq.putIndex < dq.getIndex ∧ dq.putIndex + 2 ^ 16 = dq.getIndex + q.length) := by
  have hget := h.get_lt
  have hlen := h.length_le
  have hsize := h.size_lt
  have hput := h.put_eq
  omega

/-- What a push needs: when `put_index` has wrapped around and `get_index` has not, there is room in
the queue, and the slot is not that of an item from before the wrap-around. -/
def PushOk (dq : DataQueue) : Prop :=
  dq.putIndex < dq.getIndex →
    dq.putIndex + 2 ^ 16 - dq.getIndex ≠ dq.size ∧
      (2 ^ 16 : ℤ) - dq.getIndex ≤ ((dq.putIndex : ℤ) - dq.getIndex) % dq.size
  deriving Decidable

/-- The condition on a call. -/
def CallOk (dq : DataQueue) : Call → Prop
  | .push _ => PushOk dq
  | .pop => True

instance : ∀ c : Call, Decidable (CallOk dq c)
  | .push _ => inferInstanceAs (Decidable (PushOk dq))
  | .pop => inferInstanceAs (Decidable True)

/-- The slot that a push writes is that of a stored item. -/
def Overwrites (dq : DataQueue) (q : List DataItem) : Prop :=
  ∃ k < q.length, dq.slot k = dq.putIndex % dq.size

/-- In a queue that is not full, the slot is taken just if `put_index` has wrapped around and an
item from before has an index with the same remainder. -/
theorem Repr.overwrites_iff (hroom : q.length < dq.size) :
    Overwrites dq q ↔ dq.putIndex < dq.getIndex ∧
      ((dq.putIndex : ℤ) - dq.getIndex) % dq.size < (2 ^ 16 : ℤ) - dq.getIndex := by
  have hget := h.get_lt
  unfold Overwrites slot
  rcases h.put_cases with ⟨hle, hput⟩ | ⟨hlt, hput⟩
  · refine ⟨fun ⟨k, hk, heq⟩ => ?_, fun hwrap => absurd hwrap.1 (not_lt.mpr hle)⟩
    have hlt : dq.getIndex + k < 2 ^ 16 := by
      have := h.put_eq
      omega
    rw [Nat.mod_eq_of_lt hlt, hput] at heq
    exact absurd heq (index_ne hk hroom)
  · constructor
    · rintro ⟨k, hk, heq⟩
      by_cases hbefore : dq.getIndex + k < 2 ^ 16
      · rw [Nat.mod_eq_of_lt hbefore] at heq
        have hrem : ((dq.putIndex : ℤ) - dq.getIndex) % dq.size = k := by
          have heq' : ((dq.getIndex : ℤ) + k) % dq.size = dq.putIndex % dq.size := by
            exact_mod_cast heq
          rw [Int.sub_emod, ← heq', ← Int.sub_emod, add_sub_cancel_left,
            Int.emod_eq_of_lt (by omega) (by omega)]
        omega
      · -- the items from after the wrap-around are fewer than the slots
        obtain ⟨i, hi⟩ := Nat.exists_eq_add_of_le (not_lt.mp hbefore)
        have hput' : dq.putIndex = i + (q.length - k) := by omega
        have hlti : i < 2 ^ 16 := by omega
        rw [hi, Nat.add_mod_left, Nat.mod_eq_of_lt hlti, hput'] at heq
        exact absurd heq (index_ne (i := 0) (by omega) (by omega))
    · intro hrem
      have hpos : 0 < (dq.size : ℤ) := by omega
      have hnonneg := Int.emod_nonneg ((dq.putIndex : ℤ) - dq.getIndex) hpos.ne'
      obtain ⟨k, hk⟩ := Int.eq_ofNat_of_zero_le hnonneg
      have hbefore : dq.getIndex + k < 2 ^ 16 := by omega
      refine ⟨k, by omega, ?_⟩
      rw [Nat.mod_eq_of_lt hbefore]
      have heq : ((dq.getIndex : ℤ) + k) % dq.size = dq.putIndex % dq.size := by
        rw [← hk, Int.add_emod, Int.emod_emod, ← Int.add_emod, add_sub_cancel]
      exact_mod_cast heq

/-- The test of the code for a full queue. -/
theorem Repr.full_iff :
    (dq.putIndex : ℤ) - dq.getIndex = dq.size ↔ q.length = dq.size ∧ dq.getIndex ≤ dq.putIndex := by
  rcases h.put_cases with ⟨hle, hput⟩ | ⟨hlt, hput⟩ <;> omega

variable (item : DataItem)

theorem Repr.rtDataQueuePush_of_room (hroom : ¬ (q.length = dq.size ∧ dq.getIndex ≤ dq.putIndex)) :
    dq.rtDataQueuePush item = ({ result := .eok, event := dq.notify .push },
      { dq with queue := update dq.queue (dq.putIndex % dq.size) item
                putIndex := (dq.putIndex + 1) % 2 ^ 16 }) := by
  rw [rtDataQueuePush, if_neg (mt h.full_iff.mp hroom)]
  simp only [h.popList]
  rfl

theorem Repr.rtDataQueuePush_of_full (hfull : q.length = dq.size ∧ dq.getIndex ≤ dq.putIndex) :
    dq.rtDataQueuePush item = ({ result := .etimeout }, dq) := by
  rw [rtDataQueuePush, if_pos (h.full_iff.mpr hfull)]

/-- An item goes into a free slot. -/
theorem Repr.put (hroom : q.length < dq.size) (hfree : ¬ Overwrites dq q) :
    Repr { dq with queue := update dq.queue (dq.putIndex % dq.size) item
                   putIndex := (dq.putIndex + 1) % 2 ^ 16 } (q ++ [item]) where
  size_pos := h.size_pos
  size_lt := h.size_lt
  get_lt := h.get_lt
  length_le := by
    rw [length_append]
    exact hroom
  put_eq := by
    rw [h.put_eq, Nat.mod_add_mod, length_append]
    rfl
  items_eq := by
    have hlast : dq.slot q.length = dq.putIndex % dq.size := by rw [slot, h.put_eq]
    rw [length_append, length_singleton, range_succ, map_append]
    congr 1
    · conv_rhs => rw [← h.items_eq]
      refine map_congr_left fun k hk => update_of_ne (fun heq => ?_) _ _
      exact hfree ⟨k, mem_range.mp hk, heq⟩
    · exact congrArg ([·]) ((congrArg _ hlast).trans (update_self ..))
  pushList := h.pushList
  popList := h.popList

end

/-- The oldest item is taken. -/
theorem Repr.take (h : Repr dq (x :: q)) :
    dq.queue (dq.getIndex % dq.size) = x ∧
      Repr { dq with getIndex := (dq.getIndex + 1) % 2 ^ 16 } q := by
  have hlen := h.length_le
  have hitems := h.items_eq
  rw [length_cons] at hlen
  rw [length_cons, range_succ_eq_map, map_cons, map_map, cons.injEq] at hitems
  refine ⟨?_, h.size_pos, h.size_lt, Nat.mod_lt _ (by norm_num), by dsimp only; omega, ?_, ?_,
    h.pushList, h.popList⟩
  · rw [← hitems.1, slot, Nat.add_zero, Nat.mod_eq_of_lt h.get_lt]
  · rw [h.put_eq, Nat.mod_add_mod, length_cons, Nat.add_assoc, Nat.add_comm 1]
  · conv_rhs => rw [← hitems.2]
    refine map_congr_left fun k _ => ?_
    simp only [slot, comp_apply, Nat.mod_add_mod]
    rw [Nat.add_assoc, Nat.add_comm 1]

/-- The test of the code for an empty queue. -/
theorem Repr.empty_iff (h : Repr dq q) : dq.getIndex = dq.putIndex ↔ q = [] := by
  have hlen := h.length_le
  have hsize := h.size_lt
  have hget := h.get_lt
  rw [← length_eq_zero_iff]
  rcases h.put_cases with ⟨-, hput⟩ | ⟨-, hput⟩ <;> omega

theorem Repr.rtDataQueuePeak (h : Repr dq q) : dq.rtDataQueuePeak = q.head? := by
  unfold DataQueue.rtDataQueuePeak
  cases q with
  | nil =>
    rw [if_pos (h.empty_iff.mpr rfl)]
    rfl
  | cons x q =>
    rw [if_neg (mt h.empty_iff.mp (cons_ne_nil x q)), h.take.1]
    rfl

theorem Repr.rtDataQueuePop_cons (h : Repr dq (x :: q)) :
    (dq.rtDataQueuePop).1.result = .eok ∧ (dq.rtDataQueuePop).1.item = some x ∧
      (dq.rtDataQueuePop).2 = { dq with getIndex := (dq.getIndex + 1) % 2 ^ 16 } := by
  rw [rtDataQueuePop, if_neg (mt h.empty_iff.mp (cons_ne_nil x q)), h.take.1]
  simp only [h.pushList]
  split_ifs <;> exact ⟨rfl, rfl, rfl⟩

theorem Repr.rtDataQueuePop_nil (h : Repr dq []) :
    dq.rtDataQueuePop = ({ result := .etimeout }, dq) := by
  rw [rtDataQueuePop, if_pos (h.empty_iff.mpr rfl)]

/-! ## Runs -/

/-- The call does what it does on a queue of at most `size` items that holds `q`, and it overwrites
none of them. -/
def Meets (dq : DataQueue) (q : List DataItem) : Call → Prop
  | .push item =>
    ((dq.rtDataQueuePush item).1.result = .eok ↔ q.length < dq.size) ∧
      ((dq.rtDataQueuePush item).1.result = .eok → ¬ Overwrites dq q)
  | .pop =>
    (dq.rtDataQueuePop.1.result = .eok ↔ q ≠ []) ∧ dq.rtDataQueuePop.1.item = q.head?

theorem Repr.pushOk_iff (h : Repr dq q) :
    PushOk dq ↔ (dq.putIndex < dq.getIndex → q.length ≠ dq.size) ∧
      (q.length < dq.size → ¬ Overwrites dq q) := by
  have hlen := h.length_le
  unfold PushOk
  constructor
  · intro hok
    refine ⟨fun hlt => ?_, fun hroom => ?_⟩
    · rcases h.put_cases with ⟨hle, -⟩ | ⟨-, hput⟩ <;> omega
    · rw [h.overwrites_iff hroom]
      rintro ⟨hlt, hrem⟩
      exact absurd (hok hlt).2 (not_le.mpr hrem)
  · rintro ⟨hne, hfree⟩ hlt
    have hroom : q.length < dq.size := lt_of_le_of_ne hlen (hne hlt)
    have hrem := hfree hroom
    rw [h.overwrites_iff hroom, not_and, not_lt] at hrem
    refine ⟨?_, hrem hlt⟩
    rcases h.put_cases with ⟨hle, -⟩ | ⟨-, hput⟩ <;> omega

theorem Repr.meets_iff (h : Repr dq q) (c : Call) : Meets dq q c ↔ CallOk dq c := by
  cases c with
  | push item =>
    have hlen := h.length_le
    rw [CallOk, h.pushOk_iff, Meets]
    by_cases hfull : q.length = dq.size ∧ dq.getIndex ≤ dq.putIndex
    · rw [h.rtDataQueuePush_of_full item hfull]
      constructor
      · exact fun _ => ⟨fun hlt => by omega, fun hroom => by omega⟩
      · exact fun _ => ⟨⟨nofun, fun hroom => by omega⟩, nofun⟩
    · rw [h.rtDataQueuePush_of_room item hfull]
      constructor
      · rintro ⟨hroom, hfree⟩
        exact ⟨fun _ => (hroom.mp rfl).ne, fun _ => hfree rfl⟩
      · rintro ⟨hne, hfree⟩
        have hroom : q.length < dq.size := by
          by_contra hge
          exact hne (by omega) (by omega)
        exact ⟨⟨fun _ => hroom, fun _ => rfl⟩, fun _ => hfree hroom⟩
  | pop =>
    refine ⟨fun _ => trivial, fun _ => ?_⟩
    cases q with
    | nil =>
      rw [Meets, h.rtDataQueuePop_nil]
      exact ⟨⟨nofun, fun hne => absurd rfl hne⟩, rfl⟩
    | cons x q =>
      obtain ⟨hres, hitem, -⟩ := h.rtDataQueuePop_cons
      exact ⟨⟨fun _ => cons_ne_nil x q, fun _ => hres⟩, hitem⟩

/-- A call that satisfies the condition is the call on the queue. -/
theorem Repr.call (h : Repr dq q) {c : Call} (hok : CallOk dq c) :
    ((dq.call c).1.result, (dq.call c).1.item) = (queueCall dq.size q c).1 ∧
      (dq.call c).2.size = dq.size ∧ Repr (dq.call c).2 (queueCall dq.size q c).2 := by
  cases c with
  | push item =>
    obtain ⟨hne, hfree⟩ := h.pushOk_iff.mp hok
    have hlen := h.length_le
    rw [DataQueue.call, queueCall]
    by_cases hroom : q.length < dq.size
    · rw [h.rtDataQueuePush_of_room item (by omega), if_pos hroom]
      exact ⟨rfl, rfl, h.put item hroom (hfree hroom)⟩
    · rw [h.rtDataQueuePush_of_full item (by omega), if_neg hroom]
      exact ⟨rfl, rfl, h⟩
  | pop =>
    rw [DataQueue.call]
    cases q with
    | nil =>
      rw [h.rtDataQueuePop_nil]
      exact ⟨rfl, rfl, h⟩
    | cons x q =>
      obtain ⟨hres, hitem, hnext⟩ := h.rtDataQueuePop_cons
      rw [hres, hitem, hnext]
      exact ⟨rfl, rfl, h.take.2⟩

/-- The calls as a step function of runs. -/
def step (dq : DataQueue) (c : Call) : Option (Reply × DataQueue) := some (dq.call c)

/-- In every run of non-blocking calls from `rt_data_queue_init` on whose pushes all satisfy
`PushOk`, the results and the items returned are those of a queue of at most `size` items; and the
next call does what it does on that queue just if it satisfies the condition as well. -/
theorem data_queue_iff (size lwm : ℕ) (evtNotify : Bool) (slots : ℕ → DataItem)
    (hsize : 1 ≤ size) (hint : size < 2 ^ 16) :
    ∃ dq₀, rtDataQueueInit size lwm evtNotify (some slots) = some dq₀ ∧
      ∀ tr dq, StepsSatisfy step CallOk dq₀ tr dq → ∃ q,
        execTotal (queueCall size) [] (tr.map Prod.fst) =
          (tr.map fun p => (p.2.result, p.2.item), q) ∧
        Repr dq q ∧ ∀ c, Meets dq q c ↔ CallOk dq c := by
  refine ⟨_, rfl, fun tr dq hrun => ?_⟩
  suffices hinv : ∃ q, execTotal (queueCall size) [] (tr.map Prod.fst) =
      (tr.map fun p => (p.2.result, p.2.item), q) ∧ dq.size = size ∧ Repr dq q by
    obtain ⟨q, hexec, -, hrepr⟩ := hinv
    exact ⟨q, hexec, hrepr, hrepr.meets_iff⟩
  refine StepsSatisfy.invTrace (I := fun tr dq => ∃ q,
    execTotal (queueCall size) [] (tr.map Prod.fst) =
      (tr.map fun p => (p.2.result, p.2.item), q) ∧ dq.size = size ∧ Repr dq q)
    ⟨[], rfl, rfl, ?_⟩ ?_ hrun
  · exact ⟨hsize, hint, by norm_num, Nat.zero_le _, rfl, rfl, rfl, rfl⟩
  · rintro tr dq c o dq' ⟨q, hexec, hsame, hrepr⟩ hok hstep
    obtain ⟨rfl, rfl⟩ : (dq.call c).1 = o ∧ (dq.call c).2 = dq' := by
      rw [step, Option.some.injEq] at hstep
      rw [hstep]
      exact ⟨rfl, rfl⟩
    obtain ⟨hreply, hsize', hrepr'⟩ := hrepr.call hok
    rw [hsame] at hreply hsize' hrepr'
    refine ⟨_, ?_, hsize', hrepr'⟩
    rw [map_append, execTotal_append, hexec, map_append]
    simp only [map_cons, map_nil, execTotal, hreply]

/-- A queue of three slots and a push, a push and a pop. -/
theorem data_queue_sample :
    ∃ dq₀ tr dq q, rtDataQueueInit 3 0 false (some fun _ => ⟨0, 0⟩) = some dq₀ ∧
      StepsSatisfy step CallOk dq₀ tr dq ∧
      tr.map Prod.fst = [.push ⟨1, 1⟩, .push ⟨2, 1⟩, .pop] ∧
      (tr.map fun p => (p.2.result, p.2.item)) =
        [(.eok, none), (.eok, none), (.eok, some ⟨1, 1⟩)] ∧ Repr dq q := by
  obtain ⟨dq₀, hinit, hruns⟩ := data_queue_iff 3 0 false (fun _ => ⟨0, 0⟩) (by decide) (by decide)
  obtain rfl := Option.some.inj hinit
  have hsome : (exec (guard CallOk step) ⟨3, 0, 0, 0, fun _ => ⟨0, 0⟩, [], [], false⟩
      [.push ⟨1, 1⟩, .push ⟨2, 1⟩, .pop]).isSome := by decide
  have hrun := StepsSatisfy.of_isSome hsome
  obtain ⟨q, -, hrepr, -⟩ := hruns _ _ hrun
  exact ⟨_, _, _, q, rfl, hrun, rfl, rfl, hrepr⟩

/-- Pushing and popping an item, over and over, in a queue of one slot. -/
theorem cycles (x : DataItem) (n : ℕ) {k : ℕ} (hk : k + n < 2 ^ 16) (dq : DataQueue)
    (hdq : dq = ⟨1, 0, k, k, fun _ => x, [], [], false⟩) :
    execTotal call dq (replicate n [Call.push x, Call.pop]).flatten =
      ((replicate n [{ result := .eok }, { result := .eok, item := some x }]).flatten,
        ⟨1, 0, k + n, k + n, fun _ => x, [], [], false⟩) := by
  induction n generalizing k dq with
  | zero => rw [hdq]; rfl
  | succ n ih =>
    have hpush : dq.call (.push x) =
        ({ result := .eok }, ⟨1, 0, k, k + 1, fun _ => x, [], [], false⟩) := by
      rw [hdq, call, rtDataQueuePush]
      simp [notify, Nat.mod_eq_of_lt (show k + 1 < 65536 by omega)]
    have hpop : (mk 1 0 k (k + 1) (fun _ => x) [] [] false).call .pop =
        ({ result := .eok, item := some x }, ⟨1, 0, k + 1, k + 1, fun _ => x, [], [], false⟩) := by
      rw [call, rtDataQueuePop]
      simp [notify, Nat.mod_eq_of_lt (show k + 1 < 65536 by omega)]
    have hrest := ih (k := k + 1) (by omega) _ rfl
    rw [replicate_succ, flatten_cons, execTotal_append]
    simp only [execTotal, hpush, hpop, hrest, replicate_succ, flatten_cons,
      Nat.add_assoc, Nat.add_comm 1]

/-- The results and items of every sequence of calls are those of a queue of at most `size` items.
-/
def Refines (dq : DataQueue) : Prop :=
  ∀ calls, (execTotal call dq calls).1.map (fun r => (r.result, r.item)) =
    (execTotal (queueCall dq.size) [] calls).1

/-- A queue of one slot that has been filled and emptied 65535 times takes two items. -/
theorem full_queue_overwritten :
    ∃ dq, rtDataQueueInit 1 0 false (some fun _ => ⟨1, 1⟩) = some dq ∧ ¬ Refines dq := by
  refine ⟨_, rfl, fun h => ?_⟩
  have hcalls := h ((replicate 65535 [Call.push ⟨1, 1⟩, Call.pop]).flatten ++
    [.push ⟨1, 1⟩, .push ⟨2, 2⟩])
  have hcycles := cycles ⟨1, 1⟩ 65535 (k := 0) (by norm_num) _ rfl
  have hempty : ∀ n, (execTotal (queueCall 1) []
      (replicate n [Call.push ⟨1, 1⟩, Call.pop]).flatten).2 = [] := by
    intro n
    induction n with
    | zero => rfl
    | succ n ih =>
      exact ih
  rw [execTotal_append, execTotal_append, hcycles, hempty 65535, map_append] at hcalls
  -- the last results differ
  generalize map _ (replicate 65535 _).flatten = before at hcalls
  generalize (execTotal _ _ (replicate 65535 _).flatten).1 = before' at hcalls
  have hlast := congrArg getLast? hcalls
  rw [getLast?_append_of_ne_nil _ (by simp [execTotal]),
    getLast?_append_of_ne_nil _ (by simp [execTotal])] at hlast
  exact absurd hlast (by decide)

end DataQueue

end RtThread
