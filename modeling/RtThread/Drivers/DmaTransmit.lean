import RtThread.Drivers.DataQueue

/-!
# Transmitting by DMA on a serial device

`_serial_dma_tx` of `components/drivers/serial/serial.c`, and `rt_hw_serial_isr` for
`RT_SERIAL_EVENT_TX_DMADONE`. A thread pushes its buffer to the data queue. If the device is not
activated, it then activates it and starts a transfer of its own buffer. The interrupt at the end
of a transfer takes the first buffer out of the queue, and starts a transfer of the next one.

A thread can be preempted between the push and the test of `activated`, and once more before it
starts the transfer. Its buffer is the one that the interrupt takes out only if it is the first
one in the queue.

* `Inv`: which buffers are done, and which one of those in the queue is being sent.
* `dma_transmit_order`: the buffers are sent in the order in which they were pushed, in every run
  in which a thread that activates the device finds its buffer at the head of the queue.
* `second_buffer_sent_first`: two threads of which one does not.
-/

namespace RtThread

open Runs List Function Option Nat

/-- Where a thread is in `_serial_dma_tx`: not in it, behind the push of its buffer, or about to
start the transfer after it has activated the device. -/
inductive TxPc
  | idle
  | pushed (item : DataItem)
  | starting (item : DataItem)
  deriving DecidableEq

/-- `struct rt_serial_tx_dma`, the threads `ι` that write to the device, and the number of transfers
that have been started and are not done. -/
structure TxDma (ι : Type*) where
  activated : Bool
  dataQueue : DataQueue
  threads : ι → TxPc
  inFlight : ℕ

namespace TxDma

variable {ι : Type*} {out done q : List DataItem} {s : TxDma ι}

/-- What `rt_serial_open` sets up for `RT_DEVICE_FLAG_DMA_TX`, with the memory of the slots. -/
def rtSerialOpen (slots : ℕ → DataItem) : TxDma ι where
  activated := false
  dataQueue :=
    { size := 8, lwm := 4, getIndex := 0, putIndex := 0, queue := slots,
      suspendedPushList := [], suspendedPopList := [], evtNotify := false }
  threads := fun _ => .idle
  inFlight := 0

/-- The steps of a thread in `_serial_dma_tx`, which are the push, the test of `activated` and
`dma_transmit`, and the interrupt at the end of a transfer. -/
inductive Op (ι : Type*)
  | push (t : ι) (item : DataItem)
  | test (t : ι)
  | transmit (t : ι)
  | txDmadone
  deriving DecidableEq

/-- `rt_hw_serial_isr` for `RT_SERIAL_EVENT_TX_DMADONE`, with the buffer that it passes to
`dma_transmit`. -/
def rtHwSerialIsr (s : TxDma ι) : Option DataItem × TxDma ι :=
  let s := { s with dataQueue := s.dataQueue.rtDataQueuePop.2 }
  match s.dataQueue.rtDataQueuePeak with
  -- transmit next data node
  | some item => (some item, { s with activated := true, inFlight := s.inFlight + 1 })
  | none => (none, { s with activated := false })

def setThread [DecidableEq ι] (s : TxDma ι) (t : ι) (pc : TxPc) : TxDma ι :=
  { s with threads := update s.threads t pc }

/-- A step, with the buffer that it passes to `dma_transmit`. A push waits while the queue is full,
and there is an interrupt only for a transfer that has been started. -/
def step [DecidableEq ι] (s : TxDma ι) : Op ι → Option (Option DataItem × TxDma ι)
  | .push t item =>
    match s.threads t with
    | .idle =>
      let r := s.dataQueue.rtDataQueuePush item
      if r.1.result = .eok then
        some (none, { s with dataQueue := r.2 }.setThread t (.pushed item))
      else none
    | _ => none
  | .test t =>
    match s.threads t with
    | .pushed item =>
      if s.activated = false then
        some (none, { s with activated := true }.setThread t (.starting item))
      else some (none, s.setThread t .idle)
    | _ => none
  | .transmit t =>
    match s.threads t with
    | .starting item =>
      some (some item, { s with inFlight := s.inFlight + 1 }.setThread t .idle)
    | _ => none
  | .txDmadone =>
    match s.inFlight with
    | 0 => none
    | n + 1 => some { s with inFlight := n }.rtHwSerialIsr

/-! ## The order of the buffers -/

/-- The buffer that a step pushes. -/
def Op.pushes : Op ι → Option DataItem
  | .push _ item => some item
  | _ => none

/-- The buffers that have been pushed to the data queue. -/
def pushed (tr : List (Op ι × Option DataItem)) : List DataItem := tr.filterMap (·.1.pushes)

/-- The buffers that have been passed to `dma_transmit`. -/
def sent (tr : List (Op ι × Option DataItem)) : List DataItem := tr.filterMap Prod.snd

/-- What a step needs. A push needs what it needs on every data queue. A thread that activates the
device has its buffer at the head of the queue. -/
def StepOk (s : TxDma ι) : Op ι → Prop
  | .push _ _ => s.dataQueue.PushOk
  | .test t => s.activated = true ∨
      ∀ item, s.threads t = .pushed item → s.dataQueue.rtDataQueuePeak = some item
  | .transmit _ => True
  | .txDmadone => True

/-- No thread is about to start a transfer. -/
def NoneStarting (s : TxDma ι) : Prop := ∀ t item, s.threads t ≠ .starting item

/-- Nothing is being sent; or a thread is about to send the first buffer in the queue; or this
buffer is being sent. `out` are the buffers that have been sent, `done` those of them that have been
taken out of the queue. -/
inductive Sending (s : TxDma ι) (out done q : List DataItem) : Prop
  | inactive : s.activated = false → s.inFlight = 0 → NoneStarting s → out = done →
      Sending s out done q
  | starting (t : ι) (item : DataItem) : s.activated = true → s.inFlight = 0 →
      s.threads t = .starting item → (∀ t' item', s.threads t' = .starting item' → t' = t) →
      q.head? = some item → out = done → Sending s out done q
  | busy (item : DataItem) : s.activated = true → s.inFlight = 1 → NoneStarting s →
      q.head? = some item → out = done ++ [item] → Sending s out done q

/-- The buffers that have been pushed are those that are done and those in the queue. -/
structure Inv (tr : List (Op ι × Option DataItem)) (s : TxDma ι) (done q : List DataItem) :
    Prop where
  queue : s.dataQueue.Repr q
  pushed_eq : pushed tr = done ++ q
  sending : Sending s (sent tr) done q

section

variable (h : Sending s out done q)
include h

theorem Sending.isPrefix : out <+: done ++ q := by
  cases h with
  | inactive _ _ _ hout | starting _ _ _ _ _ _ _ hout =>
    rw [hout]
    exact prefix_append done q
  | busy item _ _ _ hhead hout =>
    obtain ⟨q', rfl⟩ := head?_eq_some_iff.mp hhead
    rw [hout, append_cons done item q']
    exact prefix_append (done ++ [item]) q'

/-- A thread that is not about to start a transfer goes on to where it is not either. -/
theorem Sending.setThread [DecidableEq ι] {t : ι} {pc : TxPc}
    (hbefore : ∀ item, s.threads t ≠ .starting item) (hafter : ∀ item, pc ≠ .starting item) :
    Sending (s.setThread t pc) out done q := by
  have hsame : ∀ t' item, (s.setThread t pc).threads t' = .starting item →
      s.threads t' = .starting item := by
    intro t' item heq
    by_cases ht : t' = t
    · subst ht
      exact absurd ((update_self ..).symm.trans heq) (hafter item)
    · exact (update_of_ne ht ..).symm.trans heq
  cases h with
  | inactive hact hfly hnone hout =>
    exact .inactive hact hfly (fun t' item heq => hnone t' item (hsame t' item heq)) hout
  | starting t₀ item hact hfly hthread honly hhead hout =>
    refine .starting t₀ item hact hfly ?_ (fun t' item' heq => honly t' item' (hsame t' item' heq))
      hhead hout
    refine (update_of_ne ?_ ..).trans hthread
    rintro rfl
    exact hbefore item hthread
  | busy item hact hfly hnone hhead hout =>
    exact .busy item hact hfly (fun t' item heq => hnone t' item (hsame t' item heq)) hhead hout

/-- A buffer is put at the end of the queue. -/
theorem Sending.push (dataQueue : DataQueue) (item : DataItem) :
    Sending { s with dataQueue } out done (q ++ [item]) := by
  have hhead : ∀ x, q.head? = some x → (q ++ [item]).head? = some x := by
    intro x hx
    rw [head?_append, hx]
    rfl
  cases h with
  | inactive hact hfly hnone hout => exact .inactive hact hfly hnone hout
  | starting t x hact hfly hthread honly hx hout =>
    exact .starting t x hact hfly hthread honly (hhead x hx) hout
  | busy x hact hfly hnone hx hout => exact .busy x hact hfly hnone (hhead x hx) hout

end

theorem pushed_snoc (tr : List (Op ι × Option DataItem)) (op : Op ι) (o : Option DataItem) :
    pushed (tr ++ [(op, o)]) = pushed tr ++ op.pushes.toList := by
  unfold pushed
  cases h : op.pushes <;> simp [h]

theorem sent_snoc (tr : List (Op ι × Option DataItem)) (op : Op ι) (o : Option DataItem) :
    sent (tr ++ [(op, o)]) = sent tr ++ o.toList := by
  unfold sent
  cases o <;> simp

section Steps

variable [DecidableEq ι] {tr : List (Op ι × Option DataItem)} {s s' : TxDma ι}
  {done q : List DataItem} {o : Option DataItem}

variable (h : Inv tr s done q) {t : ι}
include h

theorem Inv.push {item : DataItem} (hok : s.dataQueue.PushOk)
    (hstep : s.step (.push t item) = some (o, s')) :
    Inv (tr ++ [(.push t item, o)]) s' done (q ++ [item]) := by
  obtain ⟨hreply, -, hrepr⟩ := h.queue.call (c := .push item) hok
  simp only [step] at hstep
  split at hstep
  · rename_i hidle
    split_ifs at hstep with hres
    obtain ⟨rfl, rfl⟩ := Prod.mk.inj (some.inj hstep)
    -- the push has not found a full queue
    have hroom : q.length < s.dataQueue.size := by
      by_contra hfull
      rw [DataQueue.queueCall, if_neg hfull] at hreply
      exact absurd (hres.symm.trans (Prod.mk.inj hreply).1) (by decide)
    rw [DataQueue.queueCall, if_pos hroom] at hrepr
    refine ⟨hrepr, ?_, ?_⟩
    · rw [pushed_snoc, h.pushed_eq, append_assoc]
      rfl
    · rw [sent_snoc, toList_none, append_nil]
      refine (h.sending.push _ item).setThread (fun item' heq => ?_) (fun item' heq => ?_)
      · cases hidle.symm.trans heq
      · cases heq
  · cases hstep

theorem Inv.test (hok : s.StepOk (.test t)) (hstep : s.step (.test t) = some (o, s')) :
    Inv (tr ++ [(.test t, o)]) s' done q := by
  simp only [step] at hstep
  split at hstep
  · rename_i item hpushed
    have hnot : ∀ item', s.threads t ≠ .starting item' := by
      intro item' heq
      cases hpushed.symm.trans heq
    split_ifs at hstep with hact
    · obtain ⟨rfl, rfl⟩ := Prod.mk.inj (some.inj hstep)
      refine ⟨h.queue, ?_, ?_⟩
      · rw [pushed_snoc, h.pushed_eq]
        exact append_nil _
      · rw [sent_snoc, toList_none, append_nil]
        have hhead : q.head? = some item := by
          rw [← h.queue.rtDataQueuePeak]
          exact hok.resolve_left (by rw [hact]; decide) item hpushed
        cases h.sending with
        | inactive _ hfly hnone hout =>
          refine .starting t item rfl hfly (update_self ..) (fun t' item' heq => ?_) hhead hout
          by_contra ht
          exact hnone t' item' ((update_of_ne ht ..).symm.trans heq)
        | starting _ _ hact' | busy _ hact' => cases hact.symm.trans hact'
    · obtain ⟨rfl, rfl⟩ := Prod.mk.inj (some.inj hstep)
      refine ⟨h.queue, ?_, ?_⟩
      · rw [pushed_snoc, h.pushed_eq]
        exact append_nil _
      · rw [sent_snoc, toList_none, append_nil]
        exact h.sending.setThread hnot fun item' heq => by cases heq
  · cases hstep

theorem Inv.transmit (hstep : s.step (.transmit t) = some (o, s')) :
    Inv (tr ++ [(.transmit t, o)]) s' done q := by
  simp only [step] at hstep
  split at hstep
  · rename_i item hstarting
    obtain ⟨rfl, rfl⟩ := Prod.mk.inj (some.inj hstep)
    refine ⟨h.queue, ?_, ?_⟩
    · rw [pushed_snoc, h.pushed_eq]
      exact append_nil _
    · rw [sent_snoc]
      cases h.sending with
      | inactive _ _ hnone | busy _ _ _ hnone => exact absurd hstarting (hnone t item)
      | starting t₀ item₀ hact hfly hthread honly hhead hout =>
        obtain rfl := honly t item hstarting
        obtain rfl : item = item₀ := TxPc.starting.inj (hstarting.symm.trans hthread)
        refine .busy item hact (congrArg (· + 1) hfly) (fun t' item' heq => ?_) hhead
          (by rw [hout]; rfl)
        by_cases ht : t' = t
        · subst ht
          cases (update_self ..).symm.trans heq
        · exact ht (honly t' item' ((update_of_ne ht ..).symm.trans heq))
  · cases hstep

theorem Inv.txDmadone (hstep : s.step .txDmadone = some (o, s')) :
    ∃ done' q', Inv (tr ++ [(.txDmadone, o)]) s' done' q' := by
  simp only [step] at hstep
  split at hstep
  · cases hstep
  · rename_i n hn
    cases h.sending with
    | inactive _ hfly | starting _ _ _ hfly => cases hfly.symm.trans hn
    | busy item hact hfly hnone hhead hout =>
      obtain rfl : n = 0 := succ.inj (hn.symm.trans hfly)
      obtain ⟨q', rfl⟩ := head?_eq_some_iff.mp hhead
      obtain ⟨-, -, hpop⟩ := h.queue.rtDataQueuePop_cons
      have hrepr := h.queue.take.2
      rw [← hpop] at hrepr
      have hpushed : pushed (tr ++ [(.txDmadone, o)]) = (done ++ [item]) ++ q' := by
        rw [pushed_snoc, h.pushed_eq, append_cons]
        exact append_nil _
      refine ⟨done ++ [item], q', ?_⟩
      simp only [rtHwSerialIsr, hrepr.rtDataQueuePeak] at hstep
      cases hnext : q'.head? with
      | none =>
        rw [hnext] at hstep
        obtain ⟨rfl, rfl⟩ := Prod.mk.inj (some.inj hstep)
        refine ⟨hrepr, hpushed, .inactive rfl rfl hnone ?_⟩
        rw [sent_snoc, hout]
        exact append_nil _
      | some next =>
        rw [hnext] at hstep
        obtain ⟨rfl, rfl⟩ := Prod.mk.inj (some.inj hstep)
        refine ⟨hrepr, hpushed, .busy next rfl rfl hnone hnext ?_⟩
        rw [sent_snoc, hout]
        rfl

/-- One step. -/
theorem Inv.step {op : Op ι} (hok : s.StepOk op) (hstep : s.step op = some (o, s')) :
    ∃ done' q', Inv (tr ++ [(op, o)]) s' done' q' := by
  cases op with
  | push t item => exact ⟨_, _, h.push hok hstep⟩
  | test t => exact ⟨_, _, h.test hok hstep⟩
  | transmit t => exact ⟨_, _, h.transmit hstep⟩
  | txDmadone => exact h.txDmadone hstep

end Steps

theorem inv_rtSerialOpen (slots : ℕ → DataItem) : Inv [] (rtSerialOpen (ι := ι) slots) [] [] where
  queue :=
    { size_pos := succ_pos 7
      size_lt := show 8 < 2 ^ 16 by decide
      get_lt := show 0 < 2 ^ 16 by decide
      length_le := zero_le _
      put_eq := rfl
      items_eq := rfl
      pushList := rfl
      popList := rfl }
  pushed_eq := rfl
  sending := .inactive rfl rfl (fun _ _ heq => by cases heq) rfl

/-- In every interleaving of writing threads and interrupts whose steps all satisfy `StepOk` the
buffers that have been passed to `dma_transmit` are the first ones that have been pushed, in the
same order. -/
theorem dma_transmit_order [DecidableEq ι] (slots : ℕ → DataItem)
    {tr : List (Op ι × Option DataItem)} {s : TxDma ι}
    (h : StepsSatisfy step StepOk (rtSerialOpen slots) tr s) : sent tr <+: pushed tr := by
  obtain ⟨done, q, hinv⟩ := StepsSatisfy.invTrace
    (I := fun tr s => ∃ done q, Inv tr s done q) ⟨[], [], inv_rtSerialOpen slots⟩
    (fun _ _ _ _ _ ⟨_, _, hinv⟩ hok hstep => hinv.step hok hstep) h
  rw [hinv.pushed_eq]
  exact hinv.sending.isPrefix

/-- A thread pushes two buffers and another one a third in between. -/
def sampleTrace : List (Op Bool × Option DataItem) :=
  [(.push false ⟨1, 1⟩, none), (.test false, none), (.push true ⟨2, 1⟩, none),
    (.transmit false, some ⟨1, 1⟩), (.test true, none), (.txDmadone, some ⟨2, 1⟩),
    (.push false ⟨3, 1⟩, none)]

theorem dma_transmit_order_sample :
    ∃ s, StepsSatisfy step StepOk (rtSerialOpen fun _ => ⟨0, 0⟩) sampleTrace s ∧
      sent sampleTrace = [⟨1, 1⟩, ⟨2, 1⟩] ∧ sent sampleTrace <+: pushed sampleTrace := by
  have hrun : ∃ s, StepsSatisfy step StepOk (rtSerialOpen fun _ => ⟨0, 0⟩) sampleTrace s := by
    refine ⟨_, .snoc (.snoc (.snoc (.snoc (.snoc (.snoc (.snoc .nil
      ?push₁ rfl) ?test₁ rfl) ?push₂ rfl) trivial rfl) (.inl rfl) rfl) trivial rfl) ?push₃ rfl⟩
    case test₁ => exact .inr fun item heq => congrArg some (TxPc.pushed.inj heq)
    all_goals exact show DataQueue.PushOk _ by decide
  obtain ⟨s, hrun⟩ := hrun
  exact ⟨s, hrun, rfl, dma_transmit_order _ hrun⟩

/-- A thread is preempted between its push and the test of `activated`. The other one pushes a
buffer, finds the device not activated and sends it first. The interrupt takes out the buffer of the
first thread, and sends the other one again. -/
theorem second_buffer_sent_first :
    ∃ (tr : List (Op Bool × Option DataItem)) (s : TxDma Bool),
      Run step (rtSerialOpen fun _ => ⟨0, 0⟩) tr s ∧
      tr.map Prod.fst = [.push false ⟨1, 1⟩, .push true ⟨2, 1⟩, .test true, .transmit true,
        .test false, .txDmadone, .txDmadone] ∧
      pushed tr = [⟨1, 1⟩, ⟨2, 1⟩] ∧ sent tr = [⟨2, 1⟩, ⟨2, 1⟩] ∧ ¬ sent tr <+: pushed tr := by
  have hsome : (exec step (rtSerialOpen fun _ => ⟨0, 0⟩)
      [.push false ⟨1, 1⟩, .push true ⟨2, 1⟩, .test true, .transmit true,
        .test false, .txDmadone, .txDmadone]).isSome := by decide
  refine ⟨_, _, .of_isSome hsome, rfl, rfl, rfl, ?_⟩
  exact show ¬ [DataItem.mk 2 1, ⟨2, 1⟩] <+: [⟨1, 1⟩, ⟨2, 1⟩] by decide

end TxDma

end RtThread
