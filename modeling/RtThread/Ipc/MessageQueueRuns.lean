import RtThread.Ipc.MessageQueue

/-!
# Message queues keep their nodes and their order

`Lists mq F Q H`: the free list `F`, the queue `Q` and the nodes `H` held by calls
under way are the nodes of the pool, each once. The lemmas about it say what each
section of a call moves from where to where. `pending` computes from a trace the
messages that have been linked and not been received, in the order in which they
were linked; the queue holds the urgent ones, the last one first, in front of the
others, the first one first.

* `MqOk`: the invariant.
* `message_queue_conserved`: it holds in every state a run reaches.
-/

namespace RtThread

open Runs LinkedList List Function Option

/-! ## Moving a node -/

/-- Every node of the pool is in the free list, in the queue, or held. -/
structure Lists (mq : MessageQueue) (F Q H : List MqNode) : Prop where
  free : Linked mq.next mq.msgQueueFree F
  queue : Linked mq.next mq.msgQueueHead Q
  tail : mq.msgQueueTail = Q.getLast?
  perm : (F ++ Q ++ H).Perm (range mq.maxMsgs)

namespace Lists

variable {mq mq' : MessageQueue} {F Q H : List MqNode} {msg n : MqNode}

section

variable (h : Lists mq F Q H)
include h

theorem nodup : (F ++ Q ++ H).Nodup := h.perm.nodup_iff.mpr nodup_range

theorem nodup_queue : Q.Nodup := (nodup_append.mp (nodup_append.mp h.nodup).1).2.1

/-- A held node is in neither list. -/
theorem held (hn : n ∈ H) : n ∉ F ∧ n ∉ Q := by
  obtain ⟨-, -, hdisj⟩ := nodup_append.mp h.nodup
  exact ⟨fun hm => hdisj n (by simp [hm]) n hn rfl, fun hm => hdisj n (by simp [hm]) n hn rfl⟩

theorem free_not_mem_queue (hn : n ∈ F) : n ∉ Q := by
  obtain ⟨-, -, hdisj⟩ := nodup_append.mp (nodup_append.mp h.nodup).1
  exact fun hm => hdisj n hn n hm rfl

/-- There are no more messages than nodes. -/
theorem length_queue_le : Q.length ≤ mq.maxMsgs := by
  have := h.perm.length_eq
  simp only [length_append, length_range] at this
  omega

/-- A node goes from the free list to a call. -/
theorem takeFree (hs : mq.takeFree = some (msg, mq')) :
    ∃ F', Lists mq' F' Q (msg :: H) ∧ mq'.next = mq.next ∧ mq'.entry = mq.entry := by
  unfold MessageQueue.takeFree at hs
  split at hs
  · cases hs
  · rename_i m hm
    cases hs
    obtain ⟨F', rfl, hF'⟩ := (hm ▸ h.free).uncons
    exact ⟨F', ⟨hF', h.queue, h.tail, perm_middle.trans h.perm⟩, rfl, rfl⟩

end

section

variable (h : Lists mq F Q (msg :: H))
include h

/-- A node goes from a call to the free list. -/
theorem putFree : Lists (mq.putFree msg) (msg :: F) Q H where
  free := h.free.cons (h.held (by simp)).1
  queue := h.queue.update (h.held (by simp)).2 _
  tail := h.tail
  perm := perm_middle.symm.trans h.perm

/-- A node whose `next` is null goes from a call to the end of the queue. -/
theorem linkTail (hnext : mq.next msg = none) : Lists (mq.linkTail msg) F (Q ++ [msg]) H := by
  obtain ⟨hmF, hmQ⟩ := h.held (n := msg) (by simp)
  have hperm : (F ++ (Q ++ [msg]) ++ H).Perm (range mq.maxMsgs) := by
    simpa using h.perm
  cases Q using reverseRecOn with
  | nil =>
    have hhead : mq.msgQueueHead = none := h.queue
    have htail : mq.msgQueueTail = none := h.tail
    refine ⟨?_, ?_, by simp [MessageQueue.linkTail], hperm⟩
    · simpa [MessageQueue.linkTail, htail] using h.free
    · simp only [MessageQueue.linkTail, htail, hhead]
      exact ⟨rfl, hnext⟩
  | append_singleton Q b =>
    have hb : (Q ++ [b]).getLast? = some b := by simp
    have htail : mq.msgQueueTail = some b := h.tail.trans hb
    have hbF : b ∉ F := fun hm => h.free_not_mem_queue hm (by simp)
    obtain ⟨a, ha⟩ : ∃ a, mq.msgQueueHead = some a := by
      rw [h.queue.head]
      cases Q with
      | nil => exact ⟨b, rfl⟩
      | cons a Q => exact ⟨a, rfl⟩
    refine ⟨?_, ?_, by simp [MessageQueue.linkTail], hperm⟩
    · simpa [MessageQueue.linkTail, htail] using h.free.update hbF (some msg)
    · simp only [MessageQueue.linkTail, htail, ha]
      have hq := h.queue.append hb h.nodup_queue hmQ hnext
      rwa [ha] at hq

/-- A node goes from a call to the front of the queue. -/
theorem linkHead : Lists (mq.linkHead msg) F (msg :: Q) H := by
  obtain ⟨hmF, hmQ⟩ := h.held (n := msg) (by simp)
  refine ⟨h.free.update hmF _, h.queue.cons hmQ, ?_, ?_⟩
  · have htail := h.tail
    cases Q with
    | nil =>
      have htail' : mq.msgQueueTail = none := htail
      simp [MessageQueue.linkHead, htail']
    | cons a Q =>
      obtain ⟨b, hb⟩ : ∃ b, (a :: Q).getLast? = some b := ⟨_, getLast?_eq_some_getLast (by simp)⟩
      simp [MessageQueue.linkHead, htail, hb]
  · refine Perm.trans ?_ h.perm
    rw [append_assoc, append_assoc]
    refine Perm.append_left F ?_
    exact perm_middle.symm

end

/-- The first message leaves the queue. -/
theorem dropHead (h : Lists mq F (msg :: Q) H) : Lists (mq.dropHead msg) F Q (msg :: H) := by
  have hhead := h.queue
  refine ⟨h.free, hhead.2, ?_, ?_⟩
  · have htail := h.tail
    cases Q with
    | nil =>
      have htail' : mq.msgQueueTail = some msg := htail
      simp [MessageQueue.dropHead, htail']
    | cons a Q =>
      have hne : mq.msgQueueTail ≠ some msg := by
        rw [htail]
        intro he
        have hm : msg ∈ a :: Q := mem_of_getLast? (by simpa using he)
        exact (nodup_cons.mp h.nodup_queue).1 hm
      exact (if_neg hne).trans htail
  · refine Perm.trans ?_ h.perm
    rw [append_assoc, append_assoc]
    exact Perm.append_left F perm_middle

variable (h : Lists mq F Q H)
include h

/-- What is in the fields of a held node does not matter. -/
theorem write (hn : n ∈ H) (p : Option MqNode) (data : MqNode → ℕ → Byte) :
    Lists { mq with next := update mq.next n p, data := data } F Q H where
  free := h.free.update (h.held hn).1 p
  queue := h.queue.update (h.held hn).2 p
  tail := h.tail
  perm := h.perm

/-- `rt_mq_send` writes to the last node of the queue. -/
theorem linkTail_next (hn : n ∉ Q) : (mq.linkTail msg).next n = mq.next n := by
  have htail := h.tail
  unfold MessageQueue.linkTail
  cases hb : mq.msgQueueTail with
  | none => rfl
  | some b =>
    refine update_of_ne ?_ ..
    rintro rfl
    exact hn (mem_of_getLast? (htail.symm.trans hb))

theorem takeHead (hs : mq.takeHead = some (msg, mq')) :
    ∃ Q', Q = msg :: Q' ∧ Lists mq' F Q' (msg :: H) ∧ mq'.next = mq.next ∧
      mq'.entry = (mq.entry + 2 ^ 16 - 1) % 2 ^ 16 := by
  unfold MessageQueue.takeHead at hs
  split at hs
  · cases hs
  · rename_i m hm
    cases hs
    obtain ⟨Q', rfl, -⟩ := (hm ▸ h.queue).uncons
    have h' := h.dropHead
    exact ⟨Q', rfl, ⟨h'.free, h'.queue, h'.tail, h'.perm⟩, rfl, rfl⟩

/-- The loop of `rt_mq_control` moves the queue to the free list. It writes to nodes of the queue
only. -/
theorem releaseAll {n : ℕ} (hn : Q.length ≤ n) :
    ∃ mq' F', mq.releaseAll n = some mq' ∧ Lists mq' F' [] H ∧ mq'.maxMsgs = mq.maxMsgs ∧
      ∀ m ∈ H, mq'.next m = mq.next m := by
  induction Q generalizing mq F n with
  | nil =>
    have hhead : mq.msgQueueHead = none := h.queue
    refine ⟨mq, F, ?_, h, rfl, fun _ _ => rfl⟩
    unfold MessageQueue.releaseAll
    simp only [hhead]
  | cons msg Q ih =>
    have hhead : mq.msgQueueHead = some msg := h.queue.1
    obtain ⟨k, rfl⟩ : ∃ k, n = k + 1 := ⟨n - 1, by simp at hn; omega⟩
    obtain ⟨mq', F', hs, h', hmax, hnext⟩ := ih (n := k) h.dropHead.putFree (by simpa using hn)
    refine ⟨mq', F', ?_, h', hmax, fun m hm => (hnext m hm).trans ?_⟩
    · unfold MessageQueue.releaseAll
      simp only [hhead]
      exact hs
    · refine update_of_ne ?_ ..
      rintro rfl
      exact (h.held hm).2 (by simp)

end Lists

/-! ## The lists of a new queue -/

/-- The loop of `rt_mq_init` links all nodes. -/
theorem initFreeLoop_linked (next : MqNode → Option MqNode) (n : ℕ) :
    Linked (initFreeLoop next n).1 (initFreeLoop next n).2 (range n).reverse := by
  induction n with
  | zero => rfl
  | succ n ih =>
    rw [range_succ, reverse_append]
    exact ih.cons (by simp)

theorem lists_new (next : MqNode → Option MqNode) (data : MqNode → ℕ → Byte)
    (msgSize maxMsgs : ℕ) (flag : IpcFlag) :
    Lists (newMessageQueue next data msgSize maxMsgs flag) (range maxMsgs).reverse [] [] where
  free := initFreeLoop_linked next maxMsgs
  queue := rfl
  tail := rfl
  perm := by
    rw [append_nil, append_nil]
    exact reverse_perm _

/-! ## The messages that a trace leaves pending -/

/-- The messages that have been linked and not received, with the way they were linked, the oldest
one first. -/
def pendingStep (p : List (MqNode × Bool)) : MqOp × MqResult → List (MqNode × Bool)
  | (_, .linked urgent msg) => p ++ [(msg, urgent)]
  | (_, .taken msg) => p.filter fun m => m.1 ≠ msg
  | (_, .reset) => []
  | _ => p

def pending (tr : List (MqOp × MqResult)) : List (MqNode × Bool) := tr.foldl pendingStep []

/-- The message to receive: the most recent urgent one, else the oldest one. -/
def nextMessage (p : List (MqNode × Bool)) : Option MqNode :=
  match (p.filter fun m => m.2).getLast? with
  | some m => some m.1
  | none => p.head?.map Prod.fst

/-- The urgent messages, the last one first, and the others, the first one first. -/
def arrange (p : List (MqNode × Bool)) : List MqNode :=
  ((p.filter fun m => m.2).map Prod.fst).reverse ++ (p.filter fun m => !m.2).map Prod.fst

section

variable (p : List (MqNode × Bool)) (msg : MqNode)

theorem arrange_urgent : arrange (p ++ [(msg, true)]) = msg :: arrange p := by
  simp [arrange]

theorem arrange_normal : arrange (p ++ [(msg, false)]) = arrange p ++ [msg] := by
  simp [arrange]

theorem arrange_filter :
    arrange (p.filter fun m => m.1 ≠ msg) = (arrange p).filter fun m => m ≠ msg := by
  have hcomm : ∀ f : MqNode × Bool → Bool, ((p.filter fun m => m.1 ≠ msg).filter f).map Prod.fst =
      ((p.filter f).map Prod.fst).filter fun m => m ≠ msg := by
    intro f
    rw [List.filter_map, List.filter_filter, List.filter_filter]
    exact congrArg (map Prod.fst) (filter_congr fun m _ => Bool.and_comm ..)
  unfold arrange
  rw [hcomm, hcomm, filter_append, filter_reverse]

end

/-- The first message of the queue is the one to receive. -/
theorem head?_arrange (p : List (MqNode × Bool)) : (arrange p).head? = nextMessage p := by
  unfold arrange nextMessage
  cases hu : (p.filter fun m => m.2).getLast? with
  | some m =>
    rw [head?_append, head?_reverse, getLast?_map, hu]
    rfl
  | none =>
    have hnil := getLast?_eq_none_iff.mp hu
    have hall : (p.filter fun m => !m.2) = p := by
      refine filter_eq_self.mpr fun m hm => ?_
      simpa using filter_eq_nil_iff.mp hnil m hm
    simp [hnil, hall]

/-! ## The invariant -/

/-- `H` are the calls that hold a node, each with its node. -/
structure Holders (calls : Context → Option MqCall) (H : List (Context × MqNode)) : Prop where
  nodup : (H.map Prod.fst).Nodup
  mem : ∀ c n, (c, n) ∈ H ↔ ∃ call, calls c = some call ∧ call.msg = some n

/-- The invariant: the lists, the count, and the nodes about to be appended. -/
structure MqSys.MqOk (s : MqSys) (F Q : List MqNode) (H : List (Context × MqNode)) : Prop where
  lists : Lists s.mq F Q (H.map Prod.snd)
  entry : s.mq.entry = Q.length
  max : s.mq.maxMsgs < 2 ^ 16
  holders : Holders s.calls H
  cleared : ∀ c msg, s.calls c = some (.linking false msg) → s.mq.next msg = none

namespace Holders

variable {calls : Context → Option MqCall} {H : List (Context × MqNode)} {c : Context}
  {msg : MqNode} {call call' : MqCall}

variable (h : Holders calls H)
include h

/-- A call that holds nothing gets a node. -/
theorem take (hfree : ∀ call, calls c = some call → call.msg = none) (hmsg : call.msg = some msg) :
    Holders (update calls c (some call)) ((c, msg) :: H) := by
  have hnot : ∀ n, (c, n) ∉ H := by
    intro n hm
    obtain ⟨call', hc, hn⟩ := (h.mem c n).mp hm
    rw [hfree call' hc] at hn
    cases hn
  refine ⟨?_, fun c' n => ?_⟩
  · rw [map_cons, nodup_cons]
    refine ⟨fun hm => ?_, h.nodup⟩
    obtain ⟨⟨c', n⟩, hmem, rfl⟩ := mem_map.mp hm
    exact hnot n hmem
  · by_cases hc : c' = c
    · subst hc
      simp [hnot, hmsg, eq_comm]
    · simp [hc, h.mem]

/-- A call gives its node away. -/
theorem give (hc : calls c = some call) (hmsg : call.msg = some msg) :
    ∃ H', H.Perm ((c, msg) :: H') ∧ Holders (update calls c none) H' := by
  have hmem : (c, msg) ∈ H := (h.mem c msg).mpr ⟨call, hc, hmsg⟩
  refine ⟨H.erase (c, msg), perm_cons_erase hmem, ?_, fun c' n => ?_⟩
  · exact h.nodup.sublist ((erase_sublist).map _)
  · have hnd : H.Nodup := h.nodup.of_map
    rw [hnd.mem_erase_iff, h.mem]
    by_cases hcc : c' = c
    · subst hcc
      simp [hc, hmsg, eq_comm]
    · simp [hcc]

/-- A call goes on with its node. -/
theorem keep (hc : calls c = some call) (hmsg : call'.msg = call.msg) :
    Holders (update calls c (some call')) H := by
  refine ⟨h.nodup, fun c' n => ?_⟩
  by_cases hcc : c' = c
  · subst hcc
    simp [h.mem, hc, hmsg]
  · simp [hcc, h.mem]

/-- A call that holds nothing blocks, or is over. -/
theorem idle (hfree : ∀ call, calls c = some call → call.msg = none) {call' : Option MqCall}
    (hfree' : ∀ call, call' = some call → call.msg = none) :
    Holders (update calls c call') H := by
  refine ⟨h.nodup, fun c' n => ?_⟩
  rw [h.mem]
  by_cases hcc : c' = c
  · subst hcc
    rw [update_self]
    constructor
    · rintro ⟨call, hc, hn⟩
      rw [hfree call hc] at hn
      cases hn
    · rintro ⟨call, hc, hn⟩
      rw [hfree' call hc] at hn
      cases hn
  · simp [hcc]

end Holders

/-! ## The steps -/

/-- What a step with result `r` does to the queue. -/
def QueueStep (Q Q' : List MqNode) : MqResult → Prop
  | .linked true msg => Q' = msg :: Q
  | .linked false msg => Q' = Q ++ [msg]
  | .taken msg => Q = msg :: Q'
  | .reset => Q' = []
  | _ => Q' = Q

/-- The step to `s'` with result `r` keeps the invariant. -/
def MqSys.MqStep (Q : List MqNode) (r : MqResult) (s' : MqSys) : Prop :=
  ∃ F' Q' H', MqSys.MqOk s' F' Q' H' ∧ QueueStep Q Q' r

namespace MqSys

variable {M : ℕ} {s s' : MqSys} {c : Context} {F Q : List MqNode} {H : List (Context × MqNode)}
  {r : MqResult} {msg : MqNode} {call : MqCall}

section

variable (h : MqOk s F Q H) {timeout : ℤ} {size : ℕ}
include h

/-- The invariant is about the queue object and the calls. -/
theorem MqOk.congr (hmq : s'.mq = s.mq) (hcalls : s'.calls = s.calls) : MqOk s' F Q H := by
  refine ⟨?_, ?_, ?_, ?_, ?_⟩
  · rw [hmq]; exact h.lists
  · rw [hmq]; exact h.entry
  · rw [hmq]; exact h.max
  · rw [hcalls]; exact h.holders
  · rw [hmq, hcalls]; exact h.cleared

theorem MqOk.mem_held (hc : s.calls c = some call) (hmsg : call.msg = some msg) :
    msg ∈ H.map Prod.snd :=
  mem_map.mpr ⟨(c, msg), (h.holders.mem c msg).mpr ⟨call, hc, hmsg⟩, rfl⟩

/-- The other calls after a change of the call of `c`. -/
theorem cleared_update {call' : Option MqCall} {next : MqNode → Option MqNode}
    (hcall : ∀ m, call' = some (.linking false m) → next m = none)
    (hnext : ∀ c' m, c' ≠ c → s.calls c' = some (.linking false m) → next m = s.mq.next m) :
    ∀ c' m, update s.calls c call' c' = some (.linking false m) → next m = none := by
  intro c' m hm
  by_cases hc : c' = c
  · subst hc
    rw [update_self] at hm
    exact hcall m hm
  · rw [update_of_ne hc] at hm
    rw [hnext c' m hc hm]
    exact h.cleared c' m hm

/-- The call of `c` gives its node away; no other call has it. -/
theorem MqOk.give (hc : s.calls c = some call) (hmsg : call.msg = some msg) :
    ∃ H', Lists s.mq F Q (msg :: H'.map Prod.snd) ∧
      Holders (update s.calls c none) H' ∧
      ∀ c' m, c' ≠ c → s.calls c' = some (.linking false m) → m ≠ msg ∧ m ∉ Q := by
  obtain ⟨H', hperm, hH'⟩ := h.holders.give hc hmsg
  have hmap : (H.map Prod.snd).Perm (msg :: H'.map Prod.snd) := hperm.map Prod.snd
  have hlists : Lists s.mq F Q (msg :: H'.map Prod.snd) :=
    { h.lists with perm := (hmap.append_left (F ++ Q)).symm.trans h.lists.perm }
  refine ⟨H', hlists, hH', fun c' m hne hc' => ?_⟩
  have hm : (c', m) ∈ H' := (hH'.mem c' m).mpr ⟨_, by rwa [update_of_ne hne], rfl⟩
  have hm' : m ∈ H'.map Prod.snd := mem_map.mpr ⟨_, hm, rfl⟩
  refine ⟨?_, (hlists.held (by simp [hm'])).2⟩
  rintro rfl
  exact (nodup_cons.mp (nodup_append.mp hlists.nodup).2.1).1 hm'

theorem rtMqSend_step {urgent : Bool} {buffer : List Byte}
    (hc : s.calls c = none) (hs : s.rtMqSend c urgent buffer = some (r, s')) : MqStep Q r s' := by
  unfold rtMqSend at hs
  split_ifs at hs with h0 hsize
  · cases hs
    exact ⟨F, Q, H, h, rfl⟩
  · split at hs
    · cases hs
      exact ⟨F, Q, H, h, rfl⟩
    · rename_i msg mq htake
      cases hs
      obtain ⟨F', hl, hnext, hentry⟩ := h.lists.takeFree htake
      have hmax : mq.maxMsgs = s.mq.maxMsgs := by
        unfold MessageQueue.takeFree at htake
        split at htake
        · cases htake
        · cases htake; rfl
      refine ⟨F', Q, (c, msg) :: H, ⟨hl, hentry.trans h.entry, ?_, ?_, ?_⟩, rfl⟩
      · exact hmax ▸ h.max
      · exact h.holders.take (fun call hcall => by simp [hc] at hcall) rfl
      · exact cleared_update (s := s) h (fun m hm => by cases hm) fun c' m _ _ => congrFun hnext m

theorem recvLoop_step {d : ℕ} (hc : s.calls c = none)
    (hs : s.recvLoop M c size timeout d = some (r, s')) : MqStep Q r s' := by
  have hfree : ∀ call, s.calls c = some call → call.msg = none := fun call hcall => by
    simp [hc] at hcall
  unfold recvLoop at hs
  by_cases hempty : s.mq.entry = 0
  · rw [if_pos hempty] at hs
    cases c with
    | handler n => cases hs
    | thread t =>
      split_ifs at hs
      · cases hs
        exact ⟨F, Q, H, h.congr rfl rfl, rfl⟩
      · cases hs
        refine ⟨F, Q, H, ⟨h.lists, h.entry, h.max, h.holders.idle hfree ?_, ?_⟩, rfl⟩
        · rintro call ⟨⟩
          rfl
        · exact cleared_update (s := s) h (fun m hm => by cases hm) fun _ _ _ _ => rfl
  · rw [if_neg hempty] at hs
    obtain ⟨⟨msg, mq⟩, htake, heq⟩ := map_eq_some_iff.mp hs
    cases heq
    obtain ⟨Q', rfl, hl, hnext, hentry⟩ := h.lists.takeHead htake
    have hmax : mq.maxMsgs = s.mq.maxMsgs := by
      unfold MessageQueue.takeHead at htake
      split at htake
      · cases htake
      · cases htake; rfl
    have hle := h.lists.length_queue_le
    have hlt := h.max
    have hent := h.entry
    rw [length_cons] at hle hent
    refine ⟨F, Q', (c, msg) :: H, ⟨hl, ?_, hmax ▸ hlt, h.holders.take hfree rfl, ?_⟩, rfl⟩
    · show mq.entry = Q'.length
      omega
    · exact cleared_update (s := s) h (fun m hm => by cases hm) fun c' m _ _ => congrFun hnext m

theorem copy_step (hs : s.copy c = some (r, s')) : MqStep Q r s' := by
  unfold copy at hs
  split at hs
  · rename_i urgent msg buffer hc
    cases hs
    have hmem := h.mem_held hc rfl
    refine ⟨F, Q, H, ?_, rfl⟩
    cases urgent with
    | true =>
      have hl := h.lists.write hmem (s.mq.next msg) (s.mq.copyIn msg buffer).data
      rw [update_eq_self] at hl
      refine ⟨hl, h.entry, h.max, h.holders.keep hc rfl, ?_⟩
      exact cleared_update (s := s) h (fun m hm => by cases hm) fun _ _ _ _ => rfl
    | false =>
      refine ⟨h.lists.write hmem none _, h.entry, h.max, h.holders.keep hc rfl, ?_⟩
      refine cleared_update (s := s) h (fun m hm => ?_) fun c' m hne hm => ?_
      · cases hm
        exact update_self ..
      · obtain ⟨H', -, -, hother⟩ := h.give hc rfl
        exact update_of_ne (hother c' m hne hm).1 ..
  · rename_i msg size hc
    cases hs
    refine ⟨F, Q, H, ⟨h.lists, h.entry, h.max, h.holders.keep hc rfl, ?_⟩, rfl⟩
    exact cleared_update (s := s) h (fun m hm => by cases hm) fun _ _ _ _ => rfl
  · cases hs

theorem resumeReceiver_ok : MqOk (s.resumeReceiver M) F Q H := by
  unfold resumeReceiver
  split_ifs
  · exact h.congr rfl rfl
  · exact h

theorem finish_step (hs : s.finish M c = some (r, s')) : MqStep Q r s' := by
  have hlt := h.max
  have hent := h.entry
  unfold finish at hs
  split at hs
  · rename_i urgent msg hc
    cases hs
    obtain ⟨H', hl, hH', hother⟩ := h.give hc rfl
    have hle := hl.perm.length_eq
    simp only [length_append, length_cons, length_range] at hle
    cases urgent with
    | true =>
      refine ⟨F, msg :: Q, H', resumeReceiver_ok ⟨hl.linkHead, ?_, hlt, hH', ?_⟩, rfl⟩
      · show (s.mq.entry + 1) % 2 ^ 16 = Q.length + 1
        omega
      · refine cleared_update (s := s) h (fun m hm => by cases hm) fun c' m hne hm => ?_
        exact update_of_ne (hother c' m hne hm).1 ..
    | false =>
      refine ⟨F, Q ++ [msg], H', resumeReceiver_ok ⟨hl.linkTail (h.cleared c msg hc), ?_, hlt,
        hH', ?_⟩, rfl⟩
      · rw [length_append]
        show (s.mq.entry + 1) % 2 ^ 16 = Q.length + 1
        omega
      · refine cleared_update (s := s) h (fun m hm => by cases hm) fun c' m hne hm => ?_
        exact h.lists.linkTail_next (hother c' m hne hm).2
  · rename_i msg hc
    cases hs
    obtain ⟨H', hl, hH', hother⟩ := h.give hc rfl
    refine ⟨msg :: F, Q, H', ⟨hl.putFree, hent, hlt, hH', ?_⟩, rfl⟩
    refine cleared_update (s := s) h (fun m hm => by cases hm) fun c' m hne hm => ?_
    exact update_of_ne (hother c' m hne hm).1 ..
  · cases hs

theorem rtMqReset_step (hs : s.rtMqReset M = some (r, s')) : MqStep Q r s' := by
  obtain ⟨mq, F', hmq, hl, hmax, hnext⟩ := h.lists.releaseAll h.lists.length_queue_le
  unfold rtMqReset at hs
  rw [hmq] at hs
  cases hs
  refine ⟨F', [], H, ⟨⟨hl.free, hl.queue, hl.tail, hl.perm⟩, rfl, ?_, h.holders, ?_⟩, rfl⟩
  · show mq.maxMsgs < 2 ^ 16
    exact hmax ▸ h.max
  · intro c msg hc
    exact (hnext msg (h.mem_held hc rfl)).trans (h.cleared c msg hc)

theorem rtMqResume_step {t : Tid} (hs : s.rtMqResume M t = some (r, s')) : MqStep Q r s' := by
  unfold rtMqResume at hs
  split at hs
  · rename_i size timeout d hc
    have h' : MqOk (s.setCall (.thread t) none) F Q H := by
      refine ⟨h.lists, h.entry, h.max, h.holders.idle ?_ (by simp), ?_⟩
      · intro call hcall
        rw [hc] at hcall
        cases hcall
        rfl
      · exact cleared_update (s := s) h (fun m hm => by cases hm) fun _ _ _ _ => rfl
    dsimp only at hs
    split_ifs at hs
    · cases hs
      exact ⟨F, Q, H, h', rfl⟩
    · exact recvLoop_step h' (update_self ..) hs
  · cases hs

theorem MqOk.dispatch (c : Context) : MqOk (s.dispatch c) F Q H := by
  cases c with
  | thread t => exact h.congr rfl rfl
  | handler n => exact h

/-- Every step keeps the invariant. -/
theorem MqOk.step {op : MqOp} (hs : s.step M op = some (r, s')) : MqStep Q r s' := by
  have hcalls : ∀ c, (s.dispatch c).calls = s.calls := fun c => by cases c <;> rfl
  cases op with
  | schedulerStart | tick =>
    cases hs
    exact ⟨F, Q, H, h.congr rfl rfl, rfl⟩
  | startup t | timeout t =>
    obtain ⟨k, -, heq⟩ := map_eq_some_iff.mp hs
    cases heq
    exact ⟨F, Q, H, h.congr rfl rfl, rfl⟩
  | send c buffer | urgent c buffer =>
    simp only [MqSys.step] at hs
    split_ifs at hs with hcan
    exact rtMqSend_step (h.dispatch c) (by rw [hcalls]; exact hcan.2) hs
  | recv c size timeout =>
    simp only [MqSys.step] at hs
    split_ifs at hs with hcan
    unfold rtMqRecv at hs
    split_ifs at hs
    · cases hs
      exact ⟨F, Q, H, h.dispatch c, rfl⟩
    · exact recvLoop_step (h.dispatch c) (by rw [hcalls]; exact hcan.2) hs
  | copy c =>
    simp only [MqSys.step] at hs
    split_ifs at hs
    exact copy_step (h.dispatch c) hs
  | finish c =>
    simp only [MqSys.step] at hs
    split_ifs at hs
    exact finish_step (h.dispatch c) hs
  | resume t =>
    simp only [MqSys.step] at hs
    split_ifs at hs
    exact rtMqResume_step (h.dispatch (.thread t)) hs
  | reset c =>
    simp only [MqSys.step] at hs
    split_ifs at hs
    exact rtMqReset_step (h.dispatch c) hs

/-- A receive takes a message if there is one. -/
theorem MqOk.recv_takes (hcan : s.CanCall c) (hsize : size ≠ 0) (hne : s.mq.entry ≠ 0) :
    ∃ msg s', s.step M (.recv c size timeout) = some (.taken msg, s') := by
  have hmq : (s.dispatch c).mq = s.mq := by cases c <;> rfl
  cases Q with
  | nil => exact absurd h.entry hne
  | cons msg Q =>
    have hhead : s.mq.msgQueueHead = some msg := h.lists.queue.1
    have htake : s.mq.takeHead = some (msg,
        { s.mq.dropHead msg with entry := (s.mq.entry + 2 ^ 16 - 1) % 2 ^ 16 }) := by
      unfold MessageQueue.takeHead
      simp only [hhead]
    rw [MqSys.step, if_pos hcan, rtMqRecv, if_neg hsize, if_neg (by rw [hmq]; tauto)]
    unfold recvLoop
    rw [if_neg (by rw [hmq]; exact hne), hmq, htake]
    exact ⟨msg, _, rfl⟩

end

/-! ## Runs -/

theorem Initial.mqOk (h : s.Initial) : ∃ F, MqOk s F [] [] := by
  have hnew : ∃ next data msgSize maxMsgs flag, maxMsgs < 2 ^ 16 ∧
      s.mq = newMessageQueue next data msgSize maxMsgs flag := by
    obtain ⟨next, data, msgSize, n, flag, hmq | hmq⟩ := h.mq
    · exact ⟨next, data, _, _, flag, Nat.mod_lt _ (by norm_num), hmq⟩
    · exact ⟨next, data, _, _, flag, Nat.mod_lt _ (by norm_num), hmq⟩
  obtain ⟨next, data, msgSize, maxMsgs, flag, hlt, hmq⟩ := hnew
  refine ⟨(range maxMsgs).reverse, ?_, ?_, ?_, ?_, ?_⟩
  · rw [hmq]
    exact lists_new next data msgSize maxMsgs flag
  · rw [hmq]
    rfl
  · rw [hmq]
    exact hlt
  · exact ⟨nodup_nil, fun c n => by simp [h.calls c]⟩
  · intro c msg hc
    rw [h.calls c] at hc
    cases hc

/-- The queue after a step is arranged as the messages that are pending then. -/
theorem arrange_pending {tr : List (MqOp × MqResult)} {op : MqOp} {Q' : List MqNode}
    (hQ : Q = arrange (pending tr)) (hnd : Q.Nodup) (hs : QueueStep Q Q' r) :
    Q' = arrange (pending (tr ++ [(op, r)])) := by
  have hpending : pending (tr ++ [(op, r)]) = pendingStep (pending tr) (op, r) := by
    simp [pending]
  rw [hpending]
  cases r with
  | linked urgent msg =>
    cases urgent with
    | true =>
      rw [pendingStep, arrange_urgent, ← hQ]
      exact hs
    | false =>
      rw [pendingStep, arrange_normal, ← hQ]
      exact hs
  | taken msg =>
    have hQ' : Q = msg :: Q' := hs
    subst hQ'
    have hmem : msg ∉ Q' := (nodup_cons.mp hnd).1
    rw [pendingStep, arrange_filter, ← hQ, filter_cons_of_neg (by simp)]
    refine (filter_eq_self.mpr fun m hm => ?_).symm
    simp only [ne_eq, decide_not, Bool.not_eq_true', decide_eq_false_iff_not]
    rintro rfl
    exact hmem hm
  | reset => exact hs
  | copied message | returned e | blocked | void => exact hs.trans hQ

/-- The call of context `c` holds the node `n`. -/
def Holds (s : MqSys) (c : Context) (n : MqNode) : Prop :=
  ∃ call, s.calls c = some call ∧ call.msg = some n

/-- In every state that any interleaving of the sections of sends, urgent sends, receives and resets
reaches: every node of the pool is in exactly one of the free list `F`, the queue `Q` and the hands
of one call; `entry` and `msg_queue_tail` are those of the queue; and a receive takes the most
recently linked urgent message, or the oldest message if there is no urgent one. -/
theorem message_queue_conserved {s₀ : MqSys} {tr : List (MqOp × MqResult)} (hinit : s₀.Initial)
    (hrun : Run (step M) s₀ tr s) :
    ∃ F Q : List MqNode,
      Linked s.mq.next s.mq.msgQueueFree F ∧ Linked s.mq.next s.mq.msgQueueHead Q ∧
      F.Nodup ∧ Q.Nodup ∧
      (∀ n < s.mq.maxMsgs,
        (n ∈ F ∧ n ∉ Q ∧ ∀ c, ¬ s.Holds c n) ∨
        (n ∉ F ∧ n ∈ Q ∧ ∀ c, ¬ s.Holds c n) ∨
        (n ∉ F ∧ n ∉ Q ∧ ∃! c, s.Holds c n)) ∧
      (∀ n, n ∈ F ∨ n ∈ Q ∨ (∃ c, s.Holds c n) → n < s.mq.maxMsgs) ∧
      s.mq.entry = Q.length ∧ s.mq.msgQueueTail = Q.getLast? ∧
      (∀ c size timeout, s.CanCall c → size ≠ 0 → s.mq.entry ≠ 0 →
        ∃ msg s', s.step M (.recv c size timeout) = some (.taken msg, s')) ∧
      ∀ op msg s', s.step M op = some (.taken msg, s') → nextMessage (pending tr) = some msg := by
  obtain ⟨F, Q, H, h, hQ⟩ : ∃ F Q H, MqOk s F Q H ∧ Q = arrange (pending tr) := by
    refine hrun.invTrace (I := fun tr s => ∃ F Q H, MqOk s F Q H ∧ Q = arrange (pending tr))
      ?_ fun tr s op r s' hs hstep => ?_
    · obtain ⟨F, hF⟩ := hinit.mqOk
      exact ⟨F, [], [], hF, rfl⟩
    · obtain ⟨F, Q, H, h, hQ⟩ := hs
      obtain ⟨F', Q', H', h', hQ'⟩ := h.step hstep
      exact ⟨F', Q', H', h', arrange_pending hQ h.lists.nodup_queue hQ'⟩
  have hholds : ∀ c n, s.Holds c n ↔ (c, n) ∈ H := fun c n => (h.holders.mem c n).symm
  have hmem : ∀ n, n ∈ F ∨ n ∈ Q ∨ (∃ c, s.Holds c n) ↔ n < s.mq.maxMsgs := by
    intro n
    rw [← mem_range, ← h.lists.perm.mem_iff]
    simp [hholds]
  obtain ⟨hFQ, hndH, -⟩ := nodup_append.mp h.lists.nodup
  obtain ⟨hndF, hndQ, hdisj⟩ := nodup_append.mp hFQ
  have hheld : ∀ c n, s.Holds c n → n ∉ F ∧ n ∉ Q := fun c n hc =>
    h.lists.held (mem_map.mpr ⟨(c, n), (hholds c n).mp hc, rfl⟩)
  refine ⟨F, Q, h.lists.free, h.lists.queue, hndF, hndQ, fun n hn => ?_, fun n => (hmem n).mp,
    h.entry, h.lists.tail, fun c size timeout hcan hsize hne => h.recv_takes hcan hsize hne,
    fun op msg s' hstep => ?_⟩
  · rcases (hmem n).mpr hn with hF | hQm | ⟨c, hc⟩
    · exact .inl ⟨hF, h.lists.free_not_mem_queue hF, fun c hc => (hheld c n hc).1 hF⟩
    · exact .inr (.inl ⟨fun hF => h.lists.free_not_mem_queue hF hQm, hQm,
        fun c hc => (hheld c n hc).2 hQm⟩)
    · refine .inr (.inr ⟨(hheld c n hc).1, (hheld c n hc).2, c, hc, fun c' hc' => ?_⟩)
      have heq := inj_on_of_nodup_map hndH ((hholds c' n).mp hc') ((hholds c n).mp hc) rfl
      exact congrArg Prod.fst heq
  · obtain ⟨F', Q', H', -, hQ'⟩ := h.step hstep
    have hcons : Q = msg :: Q' := hQ'
    rw [← head?_arrange, ← hQ, hcons]
    rfl

/-- A queue of three nodes for messages of four bytes. -/
def sampleSys : MqSys where
  kernel := Kernel.newThreads fun _ => 10
  mq := rtMqCreate (fun _ => none) (fun _ _ => 0) 4 3 .fifo
  tick := 0
  calls := fun _ => none

/-- A normal and an urgent send overlap; the urgent message is received, and a reset comes before
its node is put back. -/
def sampleMessages : List MqOp :=
  [.send (.handler 0) [1], .copy (.handler 0), .urgent (.handler 1) [2], .finish (.handler 0),
    .copy (.handler 1), .finish (.handler 1), .recv (.handler 0) 4 0, .reset (.handler 1)]

theorem sampleMessages_possible : (exec (step 32) sampleSys sampleMessages).isSome := by
  decide

theorem message_queue_conserved_sample :
    let r := (exec (step 32) sampleSys sampleMessages).get sampleMessages_possible
    r.1 = [.void, .void, .void, .linked false 2, .void, .linked true 1, .taken 1, .reset] ∧
      ∃ F Q : List MqNode, Linked r.2.mq.next r.2.mq.msgQueueFree F ∧
        Linked r.2.mq.next r.2.mq.msgQueueHead Q ∧ r.2.mq.entry = Q.length ∧
        r.2.mq.msgQueueTail = Q.getLast? := by
  have hinit : sampleSys.Initial := ⟨⟨_, _, _, _, _, .inr rfl⟩, rfl, fun _ => rfl⟩
  obtain ⟨F, Q, hF, hQ, -, -, -, -, hentry, htail, -⟩ :=
    message_queue_conserved hinit (Run.of_isSome sampleMessages_possible)
  exact ⟨by decide, F, Q, hF, hQ, hentry, htail⟩

end MqSys

end RtThread
