import RtThread.Ipc.Mailbox

/-!
# Mailboxes do not lose wake-ups

A send wakes one receiver, a receive wakes one sender, and a woken thread may
find its mail or its cell taken by another thread and block again. For each wait
list that is not empty, there are at least as many threads on their way from it
as there are mails, or free cells, for them (`WakeOk`). When no thread is on its
way, a receiver waits only for an empty mailbox and a sender for a full one
(`no_lost_wakeup`).
-/

namespace RtThread

open Runs List Function Option Kernel Nat

/-- The list in which a call blocks. -/
def MbCall.list : MbCall → MbList
  | .send .. => .senders
  | .recv .. => .receivers

namespace MbSys

variable (s : MbSys) (t : Tid) (q : MbList)

/-- Thread `t` has been woken from the mailbox and does not run yet. -/
def Woken : Prop := s.calls t ≠ none ∧ ∀ q, t ∉ s.kernel.suspendThread q

/-- Thread `t` has been woken from list `q` to test the mailbox again. -/
structure WokenFrom : Prop where
  call : ∃ c, s.calls t = some c ∧ c.list = q
  error : (s.kernel.thread t).error = .eok
  ready : (s.kernel.thread t).stat = .ready

/-- How many threads of list `q` the mailbox could serve. -/
def supply (mb : Mailbox) : MbList → ℕ
  | .receivers => mb.entry
  | .senders => mb.size - mb.entry

/-- Every waiting thread is in a call that belongs to its list, and the threads woken from a list
that is not empty, with `slack q` more, are enough for the mails or free cells. -/
structure WakeOk (slack : MbList → ℕ) (s : MbSys) : Prop where
  waits : s.kernel.WaitOk
  call : ∀ q t, t ∈ s.kernel.suspendThread q →
    (∃ c, s.calls t = some c ∧ c.list = q) ∧ (s.kernel.thread t).error = .eok
  woken : ∀ q, s.kernel.suspendThread q ≠ [] →
    ∃ W : List Tid, W.Nodup ∧ (∀ t ∈ W, s.WokenFrom t q) ∧ supply s.mb q ≤ W.length + slack q

variable {M : ℕ} {s t q} {s' : MbSys} {n n' : MbList → ℕ} {r : MbResult} {k : Kernel MbList}
  {op : MbOp}

/-- A thread woken from a list is still on its way if its call and what it finds in its object are
the same. -/
theorem WokenFrom.congr (h : s.WokenFrom t q) (hcalls : s'.calls t = s.calls t)
    (herror : (s'.kernel.thread t).error = (s.kernel.thread t).error)
    (hstat : (s'.kernel.thread t).stat = (s.kernel.thread t).stat) : s'.WokenFrom t q := by
  refine ⟨?_, ?_, ?_⟩
  · rw [hcalls]
    exact h.call
  · rw [herror]
    exact h.error
  · rw [hstat]
    exact h.ready

theorem WokenFrom.off (h : s.WokenFrom t q) (hw : s.kernel.WaitOk) (q' : MbList) :
    t ∉ s.kernel.suspendThread q' :=
  hw.notMem (by simp [h.ready]) q'

section

variable (h : WakeOk n s) {timeout : ℤ} {self : Option Tid} {d : ℕ}
include h

/-- A step that wakes no thread keeps the invariant if no list is left with more mails or cells to
serve than before, unless there are none. -/
theorem WakeOk.of_step (hw : s'.kernel.WaitOk) (hcall : ∀ q t, t ∈ s'.kernel.suspendThread q →
      (∃ c, s'.calls t = some c ∧ c.list = q) ∧ (s'.kernel.thread t).error = .eok)
    (hwoken : ∀ q t, s.WokenFrom t q → s'.kernel.suspendThread q ≠ [] → supply s'.mb q ≠ 0 →
      s'.WokenFrom t q)
    (hsupply : ∀ q, s'.kernel.suspendThread q ≠ [] → supply s'.mb q ≠ 0 →
      s.kernel.suspendThread q ≠ [] ∧ supply s'.mb q + n q ≤ supply s.mb q + n' q) :
    WakeOk n' s' := by
  refine ⟨hw, hcall, fun q hq => ?_⟩
  by_cases hzero : supply s'.mb q = 0
  · exact ⟨[], nodup_nil, by simp, by omega⟩
  · obtain ⟨hq', hle⟩ := hsupply q hq hzero
    obtain ⟨W, hnd, hW, hlen⟩ := h.woken q hq'
    exact ⟨W, hnd, fun t ht => hwoken q t (hW t ht) hq hzero, by omega⟩

/-- A step that leaves the mailbox and the waiting threads alone. -/
theorem WakeOk.quiet (hw : s'.kernel.WaitOk) (hmb : s'.mb = s.mb) (hcalls : s'.calls = s.calls)
    (hlists : ∀ q, s'.kernel.suspendThread q = s.kernel.suspendThread q)
    (hthread : ∀ t, s.calls t ≠ none → (s'.kernel.thread t).error = (s.kernel.thread t).error ∧
      (s'.kernel.thread t).stat = (s.kernel.thread t).stat) : WakeOk n s' := by
  refine h.of_step hw (fun q t ht => ?_) (fun q t ht _ _ => ?_) fun q hq _ => ?_
  · rw [hlists] at ht
    obtain ⟨⟨c, hc, hq⟩, he⟩ := h.call q t ht
    rw [hcalls, (hthread t (by simp [hc])).1]
    exact ⟨⟨c, hc, hq⟩, he⟩
  · obtain ⟨c, hc, -⟩ := ht.call
    obtain ⟨herror, hstat⟩ := hthread t (by simp [hc])
    exact ht.congr (by rw [hcalls]) herror hstat
  · rw [hlists] at hq
    exact ⟨hq, by rw [hmb]⟩

/-- The caller blocks in a list that the mailbox cannot serve. -/
theorem WakeOk.block {c : MbCall} {flag : IpcFlag} (hready : (s.kernel.thread t).stat = .ready)
    (hfree : s.calls t = none) (hzero : supply s.mb c.list = 0) (hn : ∀ q, q ≠ c.list → n q = 0) :
    WakeOk 0 { s with
      kernel := (s.kernel.modify t fun th => { th with error := .eok }).blockOn M t c.list flag
        timeout
      calls := update s.calls t (some c) } := by
  set k := s.kernel.modify t fun th => { th with error := .eok } with hk
  have hw : k.WaitOk := h.waits.modify rfl
  have hready' : (k.thread t).stat = .ready := by simpa [hk] using hready
  have hmem : ∀ u q, u ∈ (k.blockOn M t c.list flag timeout).suspendThread q ↔
      u ∈ s.kernel.suspendThread q ∨ u = t ∧ q = c.list :=
    fun u q => mem_blockOn u hw hready'
  have hthread : ∀ u, u ≠ t → (k.blockOn M t c.list flag timeout).thread u = s.kernel.thread u := by
    intro u hu
    rw [blockOn_thread hready', modify_thread_ne _ _ hu, modify_thread_ne _ _ hu]
  have hoff : ∀ q, t ∉ s.kernel.suspendThread q := h.waits.notMem (by simp [hready])
  refine h.of_step (hw.blockOn hready') (fun q u hu => ?_) (fun q u hu _ _ => ?_) fun q hq hne => ?_
  · by_cases hut : u = t
    · subst hut
      have hqc : q = c.list := by
        rcases (hmem u q).mp hu with hm | hm
        · exact absurd hm (hoff q)
        · exact hm.2
      refine ⟨⟨c, update_self .., hqc.symm⟩, ?_⟩
      rw [blockOn_thread hready']
      simp [hk]
    · have hm : u ∈ s.kernel.suspendThread q := ((hmem u q).mp hu).resolve_right fun he => hut he.1
      obtain ⟨hc, he⟩ := h.call q u hm
      exact ⟨by simpa [hut] using hc, (congrArg Thread.error (hthread u hut)).trans he⟩
  · obtain ⟨c', hc', -⟩ := hu.call
    have hut : u ≠ t := by
      rintro rfl
      rw [hfree] at hc'
      cases hc'
    exact hu.congr (update_of_ne hut ..) (congrArg Thread.error (hthread u hut))
      (congrArg Thread.stat (hthread u hut))
  · have hqc : q ≠ c.list := by
      rintro rfl
      exact hne hzero
    refine ⟨?_, by rw [hn q hqc]; exact le_rfl⟩
    obtain ⟨u, hu⟩ := exists_mem_of_ne_nil _ hq
    exact ne_nil_of_mem (((hmem u q).mp hu).resolve_right fun he => hqc he.2)

/-- The mailbox can serve one more thread of list `q`, and the first one is woken. -/
theorem WakeOk.wake (mb : Mailbox) (hq : supply mb q ≤ supply s.mb q + 1)
    (hnq : n q = 0) (hother : ∀ q', q' ≠ q → supply mb q' + n q' ≤ supply s.mb q') :
    WakeOk 0 (resumeFrom M { s with mb := mb } q) := by
  unfold resumeFrom
  dsimp only
  split_ifs with hne
  · obtain ⟨t, l, hl⟩ := exists_cons_of_ne_nil hne
    have ht : t ∈ s.kernel.suspendThread q := by simp [hl]
    set k := (s.kernel.rtIpcListResume M q).rtSchedule M
    have hlists : ∀ q', k.suspendThread q' = (s.kernel.suspendThread q').erase t := fun q' => by
      rw [rtSchedule_suspendThread, rtIpcListResume_suspendThread h.waits hl]
    have hmem : ∀ q' u, u ∈ k.suspendThread q' ↔ u ≠ t ∧ u ∈ s.kernel.suspendThread q' :=
      fun q' u => by rw [hlists, (h.waits.nodup q').mem_erase_iff]
    have hth : k.thread =
        (s.kernel.modify t fun th => { th with stat := .ready, timerLinked := false }).thread := by
      rw [rtSchedule_thread, rtIpcListResume_thread h.waits hl]
    have herror : ∀ u, (k.thread u).error = (s.kernel.thread u).error := fun u => by
      rw [hth, modify_thread_apply]
      split_ifs with hu
      · rw [hu]
      · rfl
    have hready : (k.thread t).stat = .ready := by
      rw [hth, modify_thread_self]
    have hold : ∀ q' u, s.WokenFrom u q' → WokenFrom { s with mb := mb, kernel := k } u q' := by
      intro q' u hu
      have hut : u ≠ t := by
        rintro rfl
        exact hu.off h.waits q ht
      refine hu.congr rfl (herror u) ?_
      show (k.thread u).stat = _
      rw [hth, modify_thread_ne _ _ hut]
    refine ⟨h.waits.listResume.schedule, fun q' u hu => ?_, fun q' hq' => ?_⟩
    · obtain ⟨hc, he⟩ := h.call q' u ((hmem q' u).mp hu).2
      exact ⟨hc, by rw [herror, he]⟩
    · have hq'' : s.kernel.suspendThread q' ≠ [] := by
        obtain ⟨u, hu⟩ := exists_mem_of_ne_nil _ hq'
        exact ne_nil_of_mem ((hmem q' u).mp hu).2
      obtain ⟨W, hnd, hW, hlen⟩ := h.woken q' hq''
      by_cases heq : q' = q
      · subst heq
        obtain ⟨hc, he⟩ := h.call q' t ht
        refine ⟨t :: W, nodup_cons.mpr ⟨fun hm => (hW t hm).off h.waits q' ht, hnd⟩, ?_, ?_⟩
        · intro u hu
          rcases mem_cons.mp hu with rfl | hu
          · exact ⟨hc, by rw [herror, he], hready⟩
          · exact hold q' u (hW u hu)
        · simp only [length_cons, Pi.zero_apply]
          omega
      · refine ⟨W, hnd, fun u hu => hold q' u (hW u hu), ?_⟩
        have := hother q' heq
        simp only [Pi.zero_apply]
        omega
  · refine h.of_step h.waits h.call (fun q' u hu _ _ => hu.congr rfl rfl rfl) fun q' hq' _ => ?_
    refine ⟨hq', ?_⟩
    have heq : q' ≠ q := by
      rintro rfl
      exact hne hq'
    simpa using hother q' heq

/-- The slack of a list that the mailbox cannot serve does not matter. -/
theorem WakeOk.tighten (hn : ∀ q, supply s.mb q ≠ 0 → n q = 0) : WakeOk 0 s :=
  h.of_step h.waits h.call (fun _ _ hu _ _ => hu) fun q hq hne => ⟨hq, by simp [hn q hne]⟩

/-- The caller returns, with any error. -/
theorem WakeOk.returns {f : Thread → Thread} (hfree : s.calls t = none)
    (hf : (f (s.kernel.thread t)).stat = (s.kernel.thread t).stat) :
    WakeOk n { s with kernel := s.kernel.modify t f } := by
  refine h.quiet (h.waits.modify hf) rfl rfl (fun _ => rfl) fun u hu => ?_
  have hut : u ≠ t := by
    rintro rfl
    exact hu hfree
  have hu' : (s.kernel.modify t f).thread u = s.kernel.thread u := modify_thread_ne _ _ hut
  exact ⟨congrArg Thread.error hu', congrArg Thread.stat hu'⟩

/-- `rt_mb_send_wait`, when one more cell may be free than there are senders on their way. -/
theorem sendLoop_wakeOk {v : Mail} (hmb : MbOk s.mb) (hn : n .receivers = 0) (hn' : n .senders ≤ 1)
    (hself : ∀ t ∈ self, (s.kernel.thread t).stat = .ready ∧ s.calls t = none)
    (hs : s.sendLoop M self v timeout d = some (r, s')) : WakeOk 0 s' := by
  have hle := hmb.entry
  have hsize := hmb.size
  obtain ⟨t, rfl, hfull, -, ⟨⟩⟩ | ⟨t, rfl, hfull, -, ⟨⟩⟩ | ⟨hfull, ⟨⟩⟩ := loop_cases hs
  · refine WakeOk.returns (h.tighten fun q hq => ?_) (hself t rfl).2 rfl
    cases q with
    | receivers => exact hn
    | senders => exact absurd (show s.mb.size - s.mb.entry = 0 by omega) hq
  · obtain ⟨hready, hfree⟩ := hself t rfl
    refine h.block (c := .send v timeout (s.startTick timeout d)) hready hfree ?_ fun q hq => ?_
    · show s.mb.size - s.mb.entry = 0
      omega
    · cases q with
      | receivers => exact hn
      | senders => exact absurd rfl hq
  · refine h.wake (s.put v).mb ?_ hn fun q hq => ?_
    · show (s.mb.entry + 1) % 2 ^ 16 ≤ s.mb.entry + 1
      omega
    · cases q with
      | receivers => exact absurd rfl hq
      | senders =>
        show s.mb.size - (s.mb.entry + 1) % 2 ^ 16 + n .senders ≤ s.mb.size - s.mb.entry
        omega

/-- `rt_mb_recv`, when one more mail may be there than receivers on their way. -/
theorem recvLoop_wakeOk (hn : n .senders = 0) (hn' : n .receivers ≤ 1)
    (hself : ∀ t ∈ self, (s.kernel.thread t).stat = .ready ∧ s.calls t = none)
    (hs : s.recvLoop M self timeout d = some (r, s')) : WakeOk 0 s' := by
  obtain ⟨t, rfl, hempty, -, ⟨⟩⟩ | ⟨t, rfl, hempty, -, ⟨⟩⟩ | ⟨hempty, ⟨⟩⟩ := loop_cases hs
  · have hfree := (hself t rfl).2
    have h₀ : WakeOk 0 s := h.tighten fun q hq => by
      cases q with
      | receivers => exact absurd hempty hq
      | senders => exact hn
    have h₁ : WakeOk 0 { s with kernel := s.kernel.modify t fun th => { th with error := .eok } } :=
      h₀.returns hfree rfl
    exact h₁.returns hfree rfl
  · obtain ⟨hready, hfree⟩ := hself t rfl
    refine h.block (c := .recv timeout (s.startTick timeout d)) hready hfree hempty fun q hq => ?_
    cases q with
    | receivers => exact absurd rfl hq
    | senders => exact hn
  · refine h.wake s.drop.mb ?_ hn fun q hq => ?_
    · show s.mb.size - (s.mb.entry - 1) ≤ s.mb.size - s.mb.entry + 1
      omega
    · cases q with
      | receivers =>
        show s.mb.entry - 1 + n .receivers ≤ s.mb.entry
        omega
      | senders => exact absurd rfl hq

theorem WakeOk.dispatch (self : Option Tid) : WakeOk n (s.dispatch self) := by
  cases self with
  | none => exact h
  | some t =>
    exact h.quiet (h.waits.dispatch t) rfl rfl (fun _ => rfl) fun _ _ => ⟨rfl, rfl⟩

end

section

variable (h : WakeOk 0 s)
include h

/-- A woken thread runs again. -/
theorem WakeOk.leave (hready : (s.kernel.thread t).stat = .ready)
    (hn : ∀ q, s.WokenFrom t q → 1 ≤ n q) :
    WakeOk n { s with calls := update s.calls t none } := by
  have hne : ∀ q u, u ∈ s.kernel.suspendThread q → u ≠ t := fun q u hu =>
    h.waits.ne_of_ready hu hready
  refine ⟨h.waits, fun q u hu => ?_, fun q hq => ?_⟩
  · obtain ⟨hc, he⟩ := h.call q u hu
    exact ⟨by simpa [hne q u hu] using hc, he⟩
  · obtain ⟨W, hnd, hW, hlen⟩ := h.woken q hq
    refine ⟨W.erase t, hnd.erase t, fun u hu => ?_, ?_⟩
    · obtain ⟨hut, hu⟩ := (hnd.mem_erase_iff).mp hu
      exact (hW u hu).congr (update_of_ne hut ..) rfl rfl
    · simp only [Pi.zero_apply] at hlen
      by_cases ht : t ∈ W
      · have := hn q (hW t ht)
        have := length_erase_of_mem ht
        simp only
        omega
      · rw [erase_of_not_mem ht]
        simp only
        omega

theorem rtMbResume_wakeOk (hmb : MbOk s.mb) (hready : (s.kernel.thread t).stat = .ready)
    (hs : s.rtMbResume M t = some (r, s')) : WakeOk 0 s' := by
  unfold rtMbResume at hs
  cases hc : s.calls t with
  | none => simp [hc] at hs
  | some c =>
    simp only [hc] at hs
    have hself : ∀ u ∈ some t, (s.kernel.thread u).stat = .ready ∧
        update s.calls t none u = none := by
      rintro u ⟨⟩
      exact ⟨hready, update_self ..⟩
    have hlist : ∀ q, s.WokenFrom t q → c.list = q := by
      intro q hq
      obtain ⟨c', hc', hq'⟩ := hq.call
      rw [hc] at hc'
      cases hc'
      exact hq'
    split_ifs at hs with he
    · cases hs
      exact h.leave hready fun q hq => absurd hq.error he
    · cases c with
      | send v timeout d =>
        have hl : WakeOk (fun q => if q = .senders then 1 else 0) _ :=
          h.leave hready fun q hq => by rw [← hlist q hq]; exact le_rfl
        exact sendLoop_wakeOk hl hmb rfl le_rfl hself hs
      | recv timeout d =>
        have hl : WakeOk (fun q => if q = .receivers then 1 else 0) _ :=
          h.leave hready fun q hq => by rw [← hlist q hq]; exact le_rfl
        exact recvLoop_wakeOk hl rfl le_rfl hself hs

/-- After a reset nobody waits. -/
theorem rtMbReset_wakeOk : WakeOk 0 (s.rtMbReset M).2 := by
  set k := s.kernel.rtIpcListResumeAll M .receivers
  have hw : k.WaitOk := h.waits.listResumeAll
  have hnil : ∀ q, ((k.rtIpcListResumeAll M .senders).rtSchedule M).suspendThread q = [] := by
    intro q
    rw [rtSchedule_suspendThread]
    cases q with
    | receivers =>
      refine eq_nil_iff_forall_not_mem.mpr fun u hu => ?_
      have hu' := (resumeAllLoop_nil _ _ hw rfl).2.2 _ u hu
      rw [rtIpcListResumeAll_nil h.waits] at hu'
      simp at hu'
    | senders => exact rtIpcListResumeAll_nil hw
  refine ⟨hw.listResumeAll.schedule, fun q u hu => ?_, fun q hq => absurd (hnil q) hq⟩
  have hu' : u ∈ ((k.rtIpcListResumeAll M .senders).rtSchedule M).suspendThread q := hu
  rw [hnil] at hu'
  simp at hu'

theorem WakeOk.timeout (hs : s.kernel.threadTimerExpires M t = some k) :
    WakeOk 0 { s with kernel := k } := by
  obtain ⟨-, hsus, -, -⟩ := threadTimerExpires_some hs
  have hmem : ∀ q u, u ∈ k.suspendThread q ↔ u ≠ t ∧ u ∈ s.kernel.suspendThread q :=
    fun q u => h.waits.mem_timeout hs
  have hthread : ∀ u, u ≠ t → k.thread u = s.kernel.thread u := fun u hu =>
    threadTimerExpires_other hs hu
  refine h.of_step (h.waits.timeout hs) (fun q u hu => ?_) (fun q u hu _ _ => ?_) fun q hq _ => ?_
  · obtain ⟨hut, hm⟩ := (hmem q u).mp hu
    obtain ⟨hc, he⟩ := h.call q u hm
    exact ⟨hc, (congrArg Thread.error (hthread u hut)).trans he⟩
  · have hut : u ≠ t := by
      rintro rfl
      rw [hu.ready] at hsus
      cases hsus
    exact hu.congr rfl (congrArg Thread.error (hthread u hut))
      (congrArg Thread.stat (hthread u hut))
  · obtain ⟨u, hu⟩ := exists_mem_of_ne_nil _ hq
    exact ⟨ne_nil_of_mem ((hmem q u).mp hu).2, le_rfl⟩

theorem WakeOk.startup (hs : s.kernel.rtThreadStartup M t = some k) :
    WakeOk 0 { s with kernel := k } := by
  refine h.of_step (h.waits.startup hs) (fun q u hu => ?_) (fun q u hu _ _ => ?_) fun q hq _ => ?_
  · obtain ⟨hmem, hthread⟩ := h.waits.startup_waiter hs hu
    obtain ⟨hc, he⟩ := h.call q u hmem
    exact ⟨hc, (congrArg Thread.error hthread).trans he⟩
  · have hthread := rtThreadStartup_other hs (u := u) (by simp [hu.ready])
    exact hu.congr rfl (congrArg Thread.error hthread) (congrArg Thread.stat hthread)
  · exact ⟨by rwa [← h.waits.startup_suspendThread hs], le_rfl⟩

end

/-! ## Runs -/

theorem Effect.mbOk {mb mb' : Mailbox} (he : Effect mb r mb') (h : MbOk mb) : MbOk mb' := by
  cases he with
  | sent v hmb hne =>
    subst hmb
    exact (put_ok h hne v).1
  | received hmb hne =>
    subst hmb
    exact (drop_ok h hne).1
  | returned e | blocked | void => exact h

/-- The indices are in step after every step, a reset included. -/
theorem mbOk_step (h : MbOk s.mb) (hs : s.step M op = some (r, s')) : MbOk s'.mb := by
  cases op with
  | reset self =>
    simp only [step] at hs
    split_ifs at hs
    cases hs
    have hmb : (s.dispatch self).mb = s.mb := dispatch_mb self
    refine ⟨?_, zero_le _, fun hpos => hpos, fun hpos => ?_⟩
    · show (s.dispatch self).mb.size < 2 ^ 16
      rw [hmb]
      exact h.size
    · exact (zero_mod _).symm
  | schedulerStart | startup t | tick | send self v timeout | recv self timeout | resume t
  | timeout t => exact (step_effect rfl hs).mbOk h

/-- Every step keeps the invariant. -/
theorem WakeOk.step (h : WakeOk 0 s) (hmb : MbOk s.mb) (hs : s.step M op = some (r, s')) :
    WakeOk 0 s' := by
  have hself : ∀ self, s.CanCall self → ∀ t ∈ self,
      ((s.dispatch self).kernel.thread t).stat = .ready ∧ (s.dispatch self).calls t = none := by
    intro self hcan t ht
    cases self with
    | none => cases ht
    | some u => exact hcan t ht
  have hmb' : ∀ self, MbOk (s.dispatch self).mb := fun self => by rwa [dispatch_mb]
  cases op with
  | schedulerStart =>
    cases hs
    exact h.quiet (h.waits.congr (by simp) (by simp)) rfl rfl (fun q => by simp) fun t _ => by simp
  | startup t =>
    obtain ⟨k, hk, heq⟩ := map_eq_some_iff.mp hs
    cases heq
    exact h.startup hk
  | tick =>
    cases hs
    exact h.quiet h.waits rfl rfl (fun _ => rfl) fun _ _ => ⟨rfl, rfl⟩
  | send self v timeout =>
    simp only [step] at hs
    split_ifs at hs with hcan
    unfold rtMbSendWait at hs
    split_ifs at hs
    · cases hs
      exact h.dispatch self
    · exact sendLoop_wakeOk (h.dispatch self) (hmb' self) rfl (zero_le _) (hself self hcan) hs
  | recv self timeout =>
    simp only [step] at hs
    split_ifs at hs with hcan
    unfold rtMbRecv at hs
    split_ifs at hs
    · cases hs
      exact h.dispatch self
    · exact recvLoop_wakeOk (h.dispatch self) rfl (zero_le _) (hself self hcan) hs
  | resume t =>
    simp only [step] at hs
    split_ifs at hs with hready
    exact rtMbResume_wakeOk (h.dispatch (some t)) (hmb' (some t)) hready hs
  | reset self =>
    simp only [step] at hs
    split_ifs at hs
    cases hs
    exact rtMbReset_wakeOk (h.dispatch self)
  | timeout t =>
    obtain ⟨k, hk, heq⟩ := map_eq_some_iff.mp hs
    cases heq
    exact h.timeout hk

theorem Initial.wakeOk {size : ℕ} (h : s.Initial size) : WakeOk 0 s where
  waits :=
    { suspended := fun q t ht => by simp [h.suspendThread q] at ht
      nodup := fun q => by simp [h.suspendThread q]
      unique := fun q q' t ht => by simp [h.suspendThread q] at ht }
  call q t ht := by simp [h.suspendThread q] at ht
  woken q hq := absurd (h.suspendThread q) hq

/-- In every state that any interleaving of sends, receives, resets and timeouts reaches and in
which no thread has been woken and does not run yet: receivers wait only for an empty mailbox,
senders only for a full one. -/
theorem no_lost_wakeup {s₀ : MbSys} {size : ℕ} {tr : List (MbOp × MbResult)}
    (hinit : s₀.Initial size) (hrun : Run (step M) s₀ tr s) (hquiet : ∀ t, ¬ s.Woken t) :
    (s.kernel.suspendThread .receivers ≠ [] → s.mb.entry = 0) ∧
      (s.kernel.suspendThread .senders ≠ [] → s.mb.entry = s.mb.size) := by
  have hinit' : MbOk s₀.mb ∧ WakeOk 0 s₀ := by
    obtain ⟨pool, flag, hmb⟩ := hinit.mb
    refine ⟨?_, hinit.wakeOk⟩
    rw [hmb]
    exact mbOk_init pool size flag
  obtain ⟨hmb, h⟩ := hrun.inv (I := fun s => MbOk s.mb ∧ WakeOk 0 s) hinit'
    fun _ _ _ _ hs hstep => ⟨mbOk_step hs.1 hstep, hs.2.step hs.1 hstep⟩
  -- nobody is on the way, so the mailbox can serve nobody
  have hzero : ∀ q, s.kernel.suspendThread q ≠ [] → supply s.mb q = 0 := by
    intro q hq
    obtain ⟨W, -, hW, hlen⟩ := h.woken q hq
    cases W with
    | nil => simpa using hlen
    | cons t W =>
      have ht := hW t (by simp)
      obtain ⟨c, hc, -⟩ := ht.call
      exact absurd ⟨by simp [hc], ht.off h.waits⟩ (hquiet t)
  refine ⟨hzero .receivers, fun hq => ?_⟩
  have hle := hmb.entry
  have : s.mb.size - s.mb.entry = 0 := hzero .senders hq
  omega

/-- Thread 0 waits for a mail; thread 1 sends one, and an interrupt handler takes it before thread 0
runs again and goes back to sleep. -/
def sampleStolen : List MbOp :=
  [.startup 0, .schedulerStart, .recv (some 0) 5, .startup 1, .send (some 1) 7 0, .recv none 0,
    .resume 0]

theorem sampleStolen_possible : (exec (step 32) sampleSys sampleStolen).isSome := by
  decide

theorem no_lost_wakeup_sample :
    let s := ((exec (step 32) sampleSys sampleStolen).get sampleStolen_possible).2
    s.kernel.suspendThread .receivers = [0] ∧ s.mb.entry = 0 := by
  intro s
  have hlist : s.kernel.suspendThread .receivers = [0] := by decide
  have hquiet : ∀ t, ¬ s.Woken t := by
    rintro (_ | t) ⟨hcall, hoff⟩
    · exact hoff .receivers (by simp [hlist])
    · exact hcall rfl
  have hinit : sampleSys.Initial 1 := ⟨⟨_, _, rfl⟩, fun _ => rfl, fun _ => rfl⟩
  have hne : s.kernel.suspendThread .receivers ≠ [] := by simp [hlist]
  exact ⟨hlist, (no_lost_wakeup hinit (Run.of_isSome sampleStolen_possible) hquiet).1 hne⟩

end MbSys

end RtThread
