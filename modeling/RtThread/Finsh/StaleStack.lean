import RtThread.Finsh.RunLine
import RtThread.Finsh.TypeCheck
import RtThread.Finsh.Widths

/-!
# What a line reads of the stack

`finsh_compiler_run` clears the first cell of the stack only, and an instruction that loads a byte
or a word sets the low part of its cell. What is above it, and what is in the other cells, is left
from the lines before. `Known` notes how many bytes of each cell a line has set, and `ReadsKnown`
says that an instruction reads no others.

* `step_same`: such an instruction does the same whatever is in the other bytes.
* `line_independent`: a line all of whose instructions are of this kind makes the same calls and
  leaves the same `finsh_stack_bottom`, whatever was on the stack.
-/

namespace RtThread.Finsh

open ByteMemory List Function Option Width Node

variable {calls : Syscalls} {text : ℕ → Byte} {m t : Vm} {mem : Memory 32} {x y a v : Long}
  {w : Width} {k k' n : ℕ}

/-! ## Cells that agree in their low bytes -/

/-- The low `k` bytes are the same. -/
def Agree (k : ℕ) (x y : Long) : Prop := ∀ j < 8 * k, x.getLsbD j = y.getLsbD j

theorem Agree.refl (k : ℕ) (x : Long) : Agree k x x := fun _ _ => rfl

theorem getLsbD_set (x v : Long) (w : Width) (j : ℕ) :
    (w.set x v).getLsbD j = if j < 8 * w.size then v.getLsbD j else x.getLsbD j := by
  by_cases hj : j < 32
  · cases w with
    | byte | word =>
      rw [Width.set]
      simp [Width.size]
      grind
    | dword => simp [Width.set, Width.size, hj]
  · have hj : 32 ≤ j := by omega
    rw [BitVec.getLsbD_of_ge _ _ hj, BitVec.getLsbD_of_ge v _ hj, BitVec.getLsbD_of_ge x _ hj,
      ite_self]

section

variable (h : Agree k x y)
include h

theorem Agree.setWidth (hn : n ≤ 8 * k) : x.setWidth n = y.setWidth n := by
  ext j hj
  simpa using h j (by omega)

theorem Agree.eq (hk : 4 ≤ k) : x = y := by
  simpa using h.setWidth (n := 32) (by omega)

theorem Agree.get (hw : w.size ≤ k) : w.get x = w.get y := by
  cases w with
  | byte => simp only [Width.get, h.setWidth (n := 8) (Nat.mul_le_mul_left 8 hw)]
  | word => simp only [Width.get, h.setWidth (n := 16) (Nat.mul_le_mul_left 8 hw)]
  | dword => exact h.eq hw

theorem Agree.store (hw : w.size ≤ k) (mem : Memory 32) (a : Long) :
    w.store mem a x = w.store mem a y := by
  refine store_congr ?_
  rw [← low_get, h.get hw, low_get]

theorem Agree.set (v : Long) (w : Width) : Agree (max k w.size) (w.set x v) (w.set y v) := by
  intro j hj
  rw [getLsbD_set, getLsbD_set]
  split
  · rfl
  · exact h j (by omega)

end

/-! ## What a line has set, and what it reads -/

/-- How many of the low bytes of each cell have been set since the line was started. -/
abbrev Known := ℕ → ℕ

/-- `finsh_compiler_run` sets the first cell. -/
def Known.start : Known := fun i => if i = 0 then 4 else 0

namespace Vm

variable (text : ℕ → Byte) (known : Known) (m : Vm)

/-- The operation at `finsh_pc`. -/
def op : Option Op := opTable[(text m.pc).toNat]?

/-- The number of arguments of a call. -/
def parameters : ℕ := (text (m.pc + 1)).toNat

/-- The cell of the function of a call; the arguments are in the cells above it. -/
def function : ℕ := m.sp - (m.parameters text + 1)

/-- What has been set behind the operation. -/
def note : Known :=
  match m.op text with
  | some (.ld w) | some (.ldValue w) =>
    update known m.sp (max (known m.sp) w.size)
  | some .syscall => update known (m.function text) 4
  | _ => known

/-- The operation reads bytes only that have been set. -/
def ReadsKnown : Prop :=
  match m.op text with
  | some (.bin _ w) => w.size ≤ known (m.sp - 2) ∧ w.size ≤ known (m.sp - 1)
  | some (.bitwise w) => w.size ≤ known (m.sp - 1)
  | some (.st w) => 4 ≤ known (m.sp - 2) ∧ w.size ≤ known (m.sp - 1)
  | some (.ldValueStack _) => 4 ≤ known (m.sp - 1)
  | some .syscall =>
    m.parameters text + 1 ≤ m.sp → ∀ i ≤ m.parameters text, 4 ≤ known (m.function text + i)
  | _ => True

/-- The function that the operation calls, and its arguments. -/
def callMade : List (Long × List Long) :=
  match m.op text with
  | some .syscall =>
    if m.pc + 1 < finshTextMax ∧ m.parameters text + 1 ≤ m.sp ∧ m.parameters text ≤ 16 then
      [(m.stack (m.function text),
        (range (m.parameters text)).map fun i => m.stack (m.function text + 1 + i))]
    else []
  | _ => []

end Vm

/-! ## Two machines -/

/-- The machines differ at most in bytes of the stack that have not been set. -/
structure Same (known : Known) (m t : Vm) : Prop where
  sp : m.sp = t.sp
  pc : m.pc = t.pc
  mem : m.mem = t.mem
  bottom : 4 ≤ known 0
  stack : ∀ i, Agree (known i) (m.stack i) (t.stack i)

variable {known : Known} {stack : ℕ → Long} {stack stack' : ℕ → Long}

/-- The cell `i` gets a value that agrees in the bytes that are set then. -/
theorem agree_update (h : ∀ i, Agree (known i) (stack i) (stack' i)) {i : ℕ} (hxy : Agree k x y)
    (j : ℕ) :
    Agree (update known i k j) (update stack i x j) (update stack' i y j) := by
  by_cases hj : j = i
  · subst hj
    simpa using hxy
  · simpa [update_of_ne hj] using h j

theorem le_update (i j : ℕ) (h : 4 ≤ known j) (hk : i = j → 4 ≤ k) : 4 ≤ update known i k j := by
  by_cases hi : i = j
  · subst hi
    simpa using hk rfl
  · simpa [update_of_ne (Ne.symm hi)] using h

section

variable (h : Same known m t)
include h

/-- Both machines load the same value. -/
theorem push_same (w : Width) (v : Long) (pc : ℕ) :
    Rel (Same (update known m.sp (max (known m.sp) w.size)))
      ((m.push w v).bind fun m => some { m with pc := m.pc + pc })
      ((t.push w v).bind fun m => some { m with pc := m.pc + pc }) := by
  rw [Vm.push, Vm.push, ← h.sp]
  by_cases hsp : m.sp < finshStackMax
  · rw [if_pos hsp, if_pos hsp]
    have hbottom : 4 ≤ update known m.sp (max (known m.sp) w.size) 0 :=
      le_update _ _ h.bottom fun hi => le_max_of_le_left (hi ▸ h.bottom)
    exact .some ⟨rfl, congrArg (· + pc) h.pc, h.mem, hbottom,
      agree_update h.stack ((h.stack m.sp).set v w)⟩
  · rw [if_neg hsp, if_neg hsp]
    exact .none

/-- Both machines set a part of a cell of which that part is known. -/
theorem Same.setCell (i : ℕ) (v : Long) (hw : w.size ≤ known i) :
    ∀ j, Agree (known j) (update m.stack i (w.set (m.stack i) v) j)
      (update t.stack i (w.set (t.stack i) v) j) := by
  have hset := (h.stack i).set v w
  rw [max_eq_left hw] at hset
  have hupdate := agree_update (i := i) h.stack hset
  rwa [update_eq_self] at hupdate

/-- Only the stacks are different. -/
theorem Same.eq_stack : t = { m with stack := t.stack } := by
  obtain ⟨hsp, hpc, hmem, -, -⟩ := h
  cases t
  simp_all

/-- The function and the arguments of a call that are known are the same. -/
theorem Same.arguments (hreads : ∀ i ≤ n, 4 ≤ known (k + i)) :
    m.stack k = t.stack k ∧ (range n).map (fun i => m.stack (k + 1 + i)) =
      (range n).map fun i => t.stack (k + 1 + i) := by
  refine ⟨(h.stack k).eq (hreads 0 n.zero_le), map_congr_left fun i hi => ?_⟩
  have hi : i < n := mem_range.mp hi
  have hknown := hreads (i + 1) hi
  rw [show k + (i + 1) = k + 1 + i by omega] at hknown
  exact (h.stack _).eq hknown

/-- An operation that reads nothing but what is known does the same on both machines. -/
theorem step_same (hreads : m.ReadsKnown text known) :
    Rel (Same (m.note text known)) (m.step calls text) (t.step calls text) := by
  obtain ⟨stack, rfl⟩ : ∃ stack, t = { m with stack := stack } := ⟨_, h.eq_stack⟩
  have hnext : Same known { m with pc := m.pc + 1 } { m with stack := stack, pc := m.pc + 1 } :=
    ⟨rfl, rfl, rfl, h.bottom, h.stack⟩
  have hop : opTable[(text m.pc).toNat]? = m.op text := rfl
  unfold Vm.ReadsKnown at hreads
  unfold Vm.note
  simp only [Vm.step, hop]
  cases ho : m.op text with
  | none => exact .none
  | some op =>
    rw [ho] at hreads
    simp only [bind_eq_bind, bind_some]
    cases op with
    | noop => exact .some hnext
    | bin op w =>
      have hl := (h.stack (m.sp - 2)).get hreads.1
      have hr := (h.stack (m.sp - 1)).get hreads.2
      simp only [Vm.exec, ← hl, ← hr]
      split
      · cases op.apply (w.get (m.stack (m.sp - 2))) (w.get (m.stack (m.sp - 1))) with
        | none => exact .none
        | some r => exact .some ⟨rfl, rfl, rfl, h.bottom, h.setCell _ r hreads.1⟩
      · exact .none
    | bitwise w =>
      have hv := (h.stack (m.sp - 1)).get hreads
      simp only [Vm.exec, ← hv]
      split
      · exact .some ⟨rfl, rfl, rfl, h.bottom, h.setCell _ _ hreads⟩
      · exact .none
    | ld w | ldValue w =>
      simp only [Vm.exec, Vm.operand]
      split
      · exact push_same hnext w _ _
      · exact .none
    | st w =>
      have ha : m.stack (m.sp - 2) = stack (m.sp - 2) := (h.stack (m.sp - 2)).eq hreads.1
      have hstore := (h.stack (m.sp - 1)).store hreads.2 m.mem (m.stack (m.sp - 2))
      simp only [Vm.exec, ← ha]
      split
      · exact .some ⟨rfl, rfl, hstore, h.bottom, h.stack⟩
      · exact .none
    | pop =>
      simp only [Vm.exec]
      split
      · exact .some ⟨rfl, rfl, rfl, h.bottom, h.stack⟩
      · exact .none
    | syscall =>
      simp only [Vm.exec, Vm.call]
      split
      · split
        · rename_i hguard
          obtain ⟨hf, hargs⟩ := h.arguments (hreads hguard.1)
          simp only [Vm.function, Vm.parameters] at hf hargs ⊢
          rw [hf, hargs]
          generalize calls _ _ m.mem = r
          cases r with
          | none => exact .none
          | some r =>
            exact .some ⟨rfl, rfl, rfl, le_update _ _ h.bottom fun _ => le_rfl,
              agree_update h.stack (.refl 4 r.1)⟩
        · exact .none
      · exact .none
    | ldValueStack w =>
      have ha := (h.stack (m.sp - 1)).eq hreads
      have hsize : w.size ≤ 4 := by cases w <;> decide
      have hset := h.setCell (m.sp - 1) (w.load m.mem (m.stack (m.sp - 1))) (hsize.trans hreads)
      simp only [Vm.exec]
      split
      · refine .some ⟨rfl, rfl, rfl, h.bottom, ?_⟩
        rw [ha] at hset ⊢
        exact hset
      · exact .none

theorem callMade_same (hreads : m.ReadsKnown text known) : m.callMade text = t.callMade text := by
  obtain ⟨stack, rfl⟩ : ∃ stack, t = { m with stack := stack } := ⟨_, h.eq_stack⟩
  have hop : Vm.op text { m with stack := stack } = m.op text := rfl
  unfold Vm.ReadsKnown at hreads
  unfold Vm.callMade
  rw [hop]
  cases ho : m.op text with
  | none => rfl
  | some op =>
    rw [ho] at hreads
    cases op with
    | syscall =>
      dsimp only [Vm.parameters, Vm.function] at hreads ⊢
      refine ite_congr rfl (fun hguard => ?_) fun _ => rfl
      obtain ⟨hf, hargs⟩ := h.arguments (hreads hguard.2.1)
      rw [hf, hargs]
    | _ => rfl

end

/-! ## Runs -/

theorem map_finshStackBottom {r r' : Option Vm} (h : Rel (Same known) r r') :
    r.map Vm.finshStackBottom = r'.map Vm.finshStackBottom := by
  cases h with
  | none => rfl
  | some h => exact congrArg some ((h.stack 0).eq h.bottom)

/-- The calls that `finsh_vm_run` makes, with their arguments. -/
def callTrace (calls : Syscalls) (text : ℕ → Byte) (stack : ℕ → Long) (mem : Memory 32) :
    List (Long × List Long) :=
  Machine.trace Vm.Running (Vm.step calls text) (Vm.callMade text) finshTextMax
    { stack := stack, sp := 0, pc := 0, mem := mem }

/-- Every operation of the run reads bytes of the stack only that the line has set. -/
def ReadsSet (calls : Syscalls) (text : ℕ → Byte) (stack : ℕ → Long) (mem : Memory 32) : Prop :=
  Machine.StepsMeet Vm.Running (Vm.step calls text) (Vm.note text) (Vm.ReadsKnown text)
    finshTextMax Known.start { stack := stack, sp := 0, pc := 0, mem := mem }

/-- Runs of one code on two stacks with the same first cell. -/
theorem run_same (hbottom : stack 0 = stack' 0) (hreads : ReadsSet calls text stack mem) :
    callTrace calls text stack mem = callTrace calls text stack' mem ∧
      (finshVmRun calls text stack mem).map Vm.finshStackBottom =
        (finshVmRun calls text stack' mem).map Vm.finshStackBottom := by
  have hsame : Same Known.start { stack := stack, sp := 0, pc := 0, mem := mem }
      { stack := stack', sp := 0, pc := 0, mem := mem } := by
    refine ⟨rfl, rfl, rfl, le_rfl, fun i => ?_⟩
    by_cases hi : i = 0
    · subst hi
      show Agree 4 (stack 0) (stack' 0)
      rw [hbottom]
      exact .refl 4 _
    · simp [Agree, Known.start, hi]
  have hrunning : ∀ known m t, Same known m t → (m.Running ↔ t.Running) := by
    intro known m t h
    simp only [Vm.Running, h.pc]
  have hout : ∀ known m t, Same known m t → m.Running → m.ReadsKnown text known →
      m.callMade text = t.callMade text := fun _ _ _ h _ hc => callMade_same h hc
  have hstep : ∀ known m t, Same known m t → m.Running → m.ReadsKnown text known →
      Rel (Same (m.note text known)) (m.step calls text) (t.step calls text) :=
    fun _ _ _ h _ hc => step_same h hc
  obtain ⟨htrace, known, hrel⟩ := Machine.lockstep hrunning hout hstep hsame hreads
  exact ⟨htrace, map_finshStackBottom hrel⟩

/-! ## Code that works on whole cells -/

open Cells

variable {g : Globals} {node : Node} {code code' : List Byte} {o : Op} {d : Byte}

/-- The operations without an operand that read and write whole cells. -/
def Op.isWide : Op → Bool
  | .noop | .bin _ .dword | .bitwise .dword | .st .dword | .pop | .ldValueStack .dword => true
  | _ => false

inductive WideCode : List Byte → Prop
  | nil : WideCode []
  | ld {code : List Byte} (v : Long) (h : WideCode code) :
    WideCode (instr (.ld .dword) .dword v ++ code)
  | ldValue {code : List Byte} (a : Long) (h : WideCode code) :
    WideCode (instr (.ldValue .dword) .dword a ++ code)
  | op {code : List Byte} {o : Op} (ho : o.isWide = true) (h : WideCode code) :
    WideCode (o.code :: code)
  | syscall {code : List Byte} (n : Byte) (h : WideCode code) :
    WideCode (Op.syscall.code :: n :: code)

theorem WideCode.append (h : WideCode code) (h' : WideCode code') : WideCode (code ++ code') := by
  induction h with
  | nil => exact h'
  | ld v _ ih =>
    exact .ld v ih
  | ldValue a _ ih =>
    exact .ldValue a ih
  | op ho _ ih => exact .op ho ih
  | syscall n _ ih => exact .syscall n ih

/-- The first cell and all cells that are in use have been set. -/
def Filled (known : Known) (sp : ℕ) : Prop := ∀ i, i < sp ∨ i = 0 → 4 ≤ known i

theorem Filled.push (h : Filled known k) (hn : 4 ≤ n) : Filled (update known k n) (k + 1) := by
  intro j hj
  by_cases hk : k = j
  · subst hk
    simpa using hn
  · rw [update_of_ne (Ne.symm hk)]
    exact h j (by omega)

/-- An operation on whole cells. -/
theorem exec_wide (ho : o.isWide = true) (h : m.exec calls text o = some t) :
    t.pc = m.pc ∧ t.sp ≤ m.sp := by
  cases o with
  | noop =>
    obtain rfl : m = t := some.inj h
    exact ⟨rfl, le_rfl⟩
  | bin op w =>
    simp only [Vm.exec, ite_none_right_eq_some, bind_eq_bind, bind_eq_some_iff, some.injEq] at h
    obtain ⟨-, r, -, rfl⟩ := h
    exact ⟨rfl, Nat.sub_le ..⟩
  | bitwise w | ldValueStack w =>
    simp only [Vm.exec, ite_none_right_eq_some, some.injEq] at h
    obtain ⟨-, rfl⟩ := h
    exact ⟨rfl, le_rfl⟩
  | st w | pop =>
    simp only [Vm.exec, ite_none_right_eq_some, some.injEq] at h
    obtain ⟨-, rfl⟩ := h
    exact ⟨rfl, Nat.sub_le ..⟩
  | ld w | ldValue w | syscall => cases ho

theorem op_of_holds (h : Holds text m.pc (o.code :: code)) : m.op text = some o := by
  rw [Vm.op, h.1]
  exact opTable_code o

theorem step_of_op (h : m.op text = some o) :
    m.step calls text = Vm.exec calls text { m with pc := m.pc + 1 } o := by
  have hop : opTable[(text m.pc).toNat]? = some o := h
  rw [Vm.step, hop]
  rfl

theorem exec_load (ho : o = .ld .dword ∨ o = .ldValue .dword) (h : m.exec calls text o = some t) :
    t.pc = m.pc + 4 ∧ t.sp = m.sp + 1 := by
  obtain rfl | rfl := ho <;>
  · simp only [Vm.exec, Vm.operand, Vm.push, bind_eq_bind, bind_eq_some_iff,
      ite_none_right_eq_some, some.injEq] at h
    obtain ⟨-, -, m₁, ⟨-, rfl⟩, rfl⟩ := h
    exact ⟨rfl, rfl⟩

theorem exec_syscall (h : m.exec calls text .syscall = some t) :
    t.pc = m.pc + 1 ∧ t.sp = m.sp - ((text m.pc).toNat + 1) + 1 := by
  simp only [Vm.exec, Vm.call, bind_eq_bind, bind_eq_some_iff, Prod.exists,
    ite_none_right_eq_some, some.injEq] at h
  obtain ⟨-, -, r, mem, -, rfl⟩ := h
  exact ⟨rfl, rfl⟩

/-- Operations on whole cells read what has been set. -/
theorem readsKnown_wide (ho : o.isWide = true) (hop : m.op text = some o)
    (hfilled : Filled known m.sp) : m.ReadsKnown text known := by
  have h1 : 4 ≤ known (m.sp - 1) := hfilled _ (by omega)
  have h2 : 4 ≤ known (m.sp - 2) := hfilled _ (by omega)
  unfold Vm.ReadsKnown
  rw [hop]
  cases o with
  | bin op w | st w => cases w <;> first | exact ⟨h2, h1⟩ | cases ho
  | bitwise w => cases w <;> first | exact h1 | cases ho
  | ldValueStack w => exact h1
  | noop | pop => trivial
  | ld w | ldValue w | syscall => cases ho

theorem note_wide (ho : o.isWide = true) (hop : m.op text = some o) :
    m.note text known = known := by
  unfold Vm.note
  rw [hop]
  cases o <;> first | rfl | cases ho

/-- There is code that works on whole cells, and the cleared rest of the text segment. -/
def AtWide (text : ℕ → Byte) (pc : ℕ) : Prop :=
  ∃ code, WideCode code ∧ Holds text pc code ∧ ∀ i, pc + code.length ≤ i → text i = 0

theorem AtWide.skip {pc : ℕ} {own : List Byte} (h : WideCode code)
    (hholds : Holds text pc (own ++ code))
    (hrest : ∀ i, pc + (own ++ code).length ≤ i → text i = 0) : AtWide text (pc + own.length) := by
  refine ⟨code, h, (holds_append.mp hholds).2, fun i hi => hrest i ?_⟩
  rw [length_append]
  omega

/-- Code that works on whole cells reads nothing but what it has set, and goes on so. -/
theorem wide_step (hat : AtWide text m.pc) (hfilled : Filled known m.sp) :
    m.ReadsKnown text known ∧ ∀ t, m.step calls text = some t →
      AtWide text t.pc ∧ Filled (m.note text known) t.sp := by
  obtain ⟨code, hcode, hholds, hrest⟩ := hat
  cases hcode with
  | nil =>
    have hop : m.op text = some .noop := by
      rw [Vm.op, hrest m.pc le_rfl]
      rfl
    refine ⟨readsKnown_wide rfl hop hfilled, fun t ht => ?_⟩
    rw [step_of_op hop] at ht
    obtain rfl := some.inj ht
    rw [note_wide rfl hop]
    exact ⟨⟨[], .nil, trivial, fun i hi => hrest i ((Nat.le_succ _).trans hi)⟩, hfilled⟩
  | @ld code v h =>
    have hop : m.op text = some (.ld .dword) := op_of_holds hholds
    refine ⟨by simp [Vm.ReadsKnown, hop], fun t ht => ?_⟩
    rw [step_of_op hop] at ht
    obtain ⟨hpc, hsp⟩ := exec_load (.inl rfl) ht
    rw [hpc, hsp, Vm.note, hop]
    exact ⟨.skip h hholds hrest, hfilled.push (le_max_right ..)⟩
  | @ldValue code a h =>
    have hop : m.op text = some (.ldValue .dword) := op_of_holds hholds
    refine ⟨by simp [Vm.ReadsKnown, hop], fun t ht => ?_⟩
    rw [step_of_op hop] at ht
    obtain ⟨hpc, hsp⟩ := exec_load (.inr rfl) ht
    rw [hpc, hsp, Vm.note, hop]
    exact ⟨.skip h hholds hrest, hfilled.push (le_max_right ..)⟩
  | @op code o ho h =>
    have hop := op_of_holds hholds
    refine ⟨readsKnown_wide ho hop hfilled, fun t ht => ?_⟩
    rw [step_of_op hop] at ht
    obtain ⟨hpc, hsp⟩ := exec_wide ho ht
    rw [hpc, note_wide ho hop]
    have hle : t.sp ≤ m.sp := hsp
    have hat : AtWide text (m.pc + [o.code].length) := .skip h hholds hrest
    exact ⟨hat, fun i hi => hfilled i (by omega)⟩
  | @syscall code n h =>
    have hop : m.op text = some .syscall := op_of_holds hholds
    refine ⟨?_, fun t ht => ?_⟩
    · unfold Vm.ReadsKnown
      rw [hop]
      intro hsp i hi
      refine hfilled _ (.inl ?_)
      unfold Vm.function
      omega
    · rw [step_of_op hop] at ht
      obtain ⟨hpc, hsp⟩ := exec_syscall ht
      rw [hpc, hsp, Vm.note, hop]
      have hat : AtWide text (m.pc + [Op.syscall.code, n].length) := .skip h hholds hrest
      have hbelow : Filled known (m.function text) := by
        intro i hi
        refine hfilled i ?_
        unfold Vm.function at hi
        omega
      exact ⟨hat, hbelow.push le_rfl⟩

theorem stepsMeet_wide (hat : AtWide text m.pc) (hfilled : Filled known m.sp) :
    Machine.StepsMeet Vm.Running (Vm.step calls text) (Vm.note text) (Vm.ReadsKnown text) n known
      m := by
  induction n generalizing m known with
  | zero => trivial
  | succ n ih =>
    intro _
    obtain ⟨hreads, hnext⟩ : _ ∧ ∀ t, m.step calls text = some t → _ := wide_step hat hfilled
    exact ⟨hreads, fun t ht => ih (hnext t ht).1 (hnext t ht).2⟩

/-! ### Trees of whole cells -/

/-- The data type is the one of whole cells, or has no code. -/
def WideData (d : Byte) : Prop := d = dataTypeVoid ∨ d = dataTypeDword

/-- Nothing in the tree is of the types `char` and `short`, constants and casts included. -/
def Node.Wide (g : Globals) : Node → Prop
  | .null => True
  | .mk n child sibling =>
    n.nodeType ≠ .valueChar ∧ (n.nodeType = .id → WideData (leafDataType g n).1) ∧
      WideData ((mk n child sibling).dataType g) ∧ child.Wide g ∧ sibling.Wide g

theorem WideData.width (h : WideData d) :
    dataTypeWidth d = none ∨ dataTypeWidth d = some .dword := by
  obtain rfl | rfl := h
  · exact .inl rfl
  · exact .inr rfl

theorem wideCode_single (ho : o.isWide = true) : WideCode [o.code] := .op ho .nil

theorem wideCode_ld (v : Long) : WideCode (instr (.ld .dword) .dword v) := by
  simpa using WideCode.ld v .nil

theorem wideCode_ldValue (a : Long) : WideCode (instr (.ldValue .dword) .dword a) := by
  simpa using WideCode.ldValue a .nil

theorem wideCode_codeOp {n : Info} (h : WideData n.dataType) {op : Width → Op}
    (hop : (op .dword).isWide = true) : WideCode (codeOp n op) := by
  unfold codeOp
  obtain h | h := h.width <;> rw [h]
  · exact .nil
  · exact wideCode_single hop

theorem wideCode_codeStore (h : WideData d) : WideCode (codeStore d).1 := by
  unfold codeStore
  obtain h | h := h.width <;> rw [h]
  · exact .nil
  · exact .op rfl (.op rfl .nil)

theorem wideCode_codeStep (op : BinOp) (var : Option Symbol) :
    WideCode (codeStep g op .dword var) :=
  ((wideCode_ldValue _).append (wideCode_ld 1)).append (.op rfl (.op rfl .nil))

theorem wideCode_codeVariable {type : FinshType} {old : Byte}
    (h : WideData (typeDataType old type).1) (address : Bool) (a : Long) :
    WideCode (codeVariable address type a) := by
  have hload : WideCode (instr (if address then .ld .dword else .ldValue .dword) .dword a) := by
    cases address
    · exact wideCode_ldValue a
    · exact wideCode_ld a
  have hbyte : ¬ WideData dataTypeByte := by
    simp [WideData, dataTypeByte, dataTypeVoid, dataTypeDword]
  have hword : ¬ WideData dataTypeWord := by
    simp [WideData, dataTypeWord, dataTypeVoid, dataTypeDword]
  cases type <;> first | exact hload | exact .nil | exact absurd h hbyte | exact absurd h hword

theorem wideCode_codeId {n n' : Info} (hid : n.nodeType = .id)
    (h : WideData (leafDataType g n).1) (hsymbol : n'.symbol = n.symbol) :
    WideCode (codeId g n') := by
  unfold leafDataType at h
  unfold codeId
  rw [hid] at h
  rw [hsymbol]
  cases hs : n.symbol with
  | none => exact .nil
  | some s =>
    rw [hs] at h
    cases s with
    | var v | sysvar entry type a => exact wideCode_codeVariable h _ _
    | syscall entry func => exact wideCode_ld func

theorem wideCode_codePre_codePost {n : Info} (h : WideData n.dataType) (op : BinOp) (child : Node) :
    WideCode (codePre g op n child) ∧ WideCode (codePost g op n child) := by
  cases child with
  | null => exact ⟨.nil, .nil⟩
  | mk c _ _ =>
    rw [codePre, codePost]
    split
    · have hstep : WideCode (codeStep g op .dword c.symbol) := wideCode_codeStep op _
      obtain h | h := h.width <;> rw [h]
      · exact ⟨.nil, .nil⟩
      · exact ⟨hstep.append (wideCode_single rfl),
          ((wideCode_ld _).append hstep).append (wideCode_single rfl)⟩
    · exact ⟨.nil, .nil⟩

theorem wideCode_codeFunc (child : Node) : WideCode (codeFunc child) := by
  cases child with
  | null => exact .nil
  | mk _ _ arguments => exact .syscall _ .nil

theorem wideCode_codeAssign {child : Node} (h : child.Wide g) (isAddr : Bool) :
    WideCode (codeAssign (finshTypeCheck g child isAddr).1).1 := by
  obtain ⟨rfl, hc⟩ | ⟨c, cc, cs, c', cc', cs', rfl, hc, -, hdata⟩ :=
    finshTypeCheck_child g child isAddr
  · exact .nil
  · have hwide := h.2.2.1
    rw [← hdata] at hwide
    have hlow : WideData (c'.dataType &&& 0x0F) := by
      obtain hd | hd := hwide <;> rw [hd]
      · exact .inl rfl
      · exact .inr rfl
    rw [hc, codeAssign]
    split_ifs
    · exact wideCode_codeStore hwide
    · exact wideCode_codeStore hlow
    · exact .nil

theorem wideCode_codeNode {n : Info} {child sibling : Node} (h : (mk n child sibling).Wide g)
    (isAddr b : Bool) :
    WideCode (codeNode g { n.markAddr isAddr with
      dataType := (mk n child sibling).dataType g } (finshTypeCheck g child b).1).1 := by
  obtain ⟨hchar, hid, hdata, hchild, -⟩ := h
  have htype : (n.markAddr isAddr).nodeType = n.nodeType := by
    unfold Info.markAddr
    split <;> rfl
  unfold codeNode
  simp only [htype]
  cases hn : n.nodeType with
  | id =>
    refine wideCode_codeId hn (hid hn) ?_
    unfold Info.markAddr
    split <;> rfl
  | valueChar => exact absurd hn hchar
  | valueInt | valueLong | valueNull | valueString => exact wideCode_ld _
  | sysFunc => exact wideCode_codeFunc _
  | sysAssign => exact wideCode_codeAssign hchild b
  | sysPreinc | sysPredec => exact (wideCode_codePre_codePost hdata _ _).1
  | sysInc | sysDec => exact (wideCode_codePre_codePost hdata _ _).2
  | sysNull =>
    have hzero : codeLong 0 .dword = replicate 4 Op.noop.code := by decide
    rw [hzero]
    exact .op rfl (.op rfl (.op rfl (.op rfl .nil)))
  | sysGetvalue =>
    dsimp only
    split
    · exact .nil
    · exact wideCode_codeOp hdata rfl
  | sysGetaddr | unknown | sysCast => exact .nil
  | _ => exact wideCode_codeOp hdata rfl

theorem wideCode_finshCompile (h : node.Wide g) (isAddr : Bool) :
    WideCode (finshCompile g (finshTypeCheck g node isAddr).1).1 := by
  induction node generalizing isAddr with
  | null =>
    exact .nil
  | mk n child sibling ihc ihs =>
    rw [finshTypeCheck_mk]
    exact ((ihc h.2.2.2.1 _).append (wideCode_codeNode h isAddr _)).append (ihs h.2.2.2.2 false)

/-- The code of a line without `char` and `short` works on whole cells. -/
theorem wideCode_compileStatements (h : node.Wide g) :
    WideCode (compileStatements g (finshTypeCheck g node false).1).1 := by
  induction node with
  | null =>
    exact .nil
  | mk n child sibling _ ihs =>
    obtain ⟨hchar, hid, hdata, hchild, hsibling⟩ := h
    rw [dataType_sibling] at hdata
    have hnode : (mk n child .null).Wide g := ⟨hchar, hid, hdata, hchild, trivial⟩
    have hone := wideCode_finshCompile hnode false
    rw [finshTypeCheck_mk, ← dataType_sibling g n child sibling] at hone
    rw [finshTypeCheck_mk]
    refine WideCode.append ?_ (ihs hsibling)
    split
    · exact hone
    · exact hone.append (wideCode_single rfl)

/-- A line without `char` and `short` reads nothing of the stack but what it has set. -/
theorem readsSet_of_wide {c : Compiled} (h : node.Wide g)
    (hc : finshCompilerRun g stack node = some c) (calls : Syscalls) (mem : Memory 32) :
    ReadsSet calls c.text c.stack mem := by
  simp only [finshCompilerRun, textSegment, bind_eq_bind, bind_eq_some_iff,
    ite_none_right_eq_some, some.injEq] at hc
  obtain ⟨text, ⟨-, rfl⟩, rfl⟩ := hc
  have hat : AtWide (fun i =>
      (compileStatements g (finshTypeCheck g node false).1).1.getD i 0) 0 :=
    ⟨_, wideCode_compileStatements h, holds_getD [] _ 0, fun i hi =>
      getD_eq_default _ _ (by omega)⟩
  refine stepsMeet_wide hat fun i hi => ?_
  obtain rfl : i = 0 := by simpa using hi
  exact le_rfl

/-! ## Lines -/

variable {c c' : Compiled} {stack' : ℕ → Long}

theorem finshCompilerRun_stack (h : finshCompilerRun g stack node = some c)
    (h' : finshCompilerRun g stack' node = some c') :
    c.text = c'.text ∧ c.stack 0 = c'.stack 0 := by
  simp only [finshCompilerRun, bind_eq_bind, bind_eq_some_iff, some.injEq] at h h'
  obtain ⟨text, htext, rfl⟩ := h
  obtain ⟨text', htext', rfl⟩ := h'
  refine ⟨some.inj (htext.symm.trans htext'), ?_⟩
  simp

/-- A line that parses and compiles makes the same calls with the same arguments and leaves the same
`finsh_stack_bottom`, whatever was on the stack before, if none of its instructions reads a byte of
the stack that the line has not set. -/
theorem line_independent (rt : Runtime) (calls : Syscalls) (globalVariable : Long)
    (vars : Fin finshVariableMax → VarEntry) (tokens : List Token) (mem : Memory 32)
    (stack stack' : ℕ → Long) :
    let r := finshParserRun rt { vars := vars } tokens
    let g := r.2.core.globals globalVariable
    finshCompilerRun g stack r.1 = some c → finshCompilerRun g stack' r.1 = some c' →
    ReadsSet calls c.text c.stack mem →
    callTrace calls c.text c.stack mem = callTrace calls c'.text c'.stack mem ∧
      (finshVmRun calls c.text c.stack mem).map Vm.finshStackBottom =
        (finshVmRun calls c'.text c'.stack mem).map Vm.finshStackBottom := by
  intro r g hc hc' hreads
  obtain ⟨htext, hbottom⟩ := finshCompilerRun_stack hc hc'
  rw [← htext]
  exact run_same hbottom hreads

/-- A shell with one function, `f` at 0x8000100, which returns its argument. -/
def callRuntime : Runtime :=
  { sampleRuntime with
    syscallLookup := fun name => if name = [0x66] then some (.syscall 0x8001000 0x8000100)
      else none }

def echoCall : Syscalls := fun _ args mem => some (args.headD 0, mem)

/-- The line `f(1);`. -/
def intCall : List Token :=
  [{ type := .identifier, string := [0x66] }, { type := .leftParen }, sampleInt 1,
    { type := .rightParen }, { type := .semicolon }]

def intTree : Node :=
  .mk { nodeType := .sysFunc }
    (.mk { nodeType := .id, symbol := some (.syscall 0x8001000 0x8000100) } .null
      (.mk { nodeType := .valueInt, value := 1 } .null .null)) .null

theorem line_independent_sample :
    let r := finshParserRun callRuntime { vars := fun _ => {} } intCall
    let g := r.2.core.globals 0x20000000
    ∃ c c', finshCompilerRun g (fun _ => 0) r.1 = some c ∧
      finshCompilerRun g (fun _ => 0xffffffff) r.1 = some c' ∧
      callTrace echoCall c.text c.stack (fun _ => 0) =
        callTrace echoCall c'.text c'.stack (fun _ => 0) := by
  have hroot : (finshParserRun callRuntime { vars := fun _ => {} } intCall).1 = intTree := by
    set_option maxRecDepth 2048 in
    decide
  have hmain (c c' : Compiled) := @line_independent c c' callRuntime echoCall 0x20000000
    (fun _ => {}) intCall (fun _ => 0) (fun _ => 0) fun _ => 0xffffffff
  dsimp only at hmain ⊢
  generalize (finshParserRun callRuntime { vars := fun _ => {} } intCall).2.core.globals
    0x20000000 = g at hmain ⊢
  rw [hroot] at hmain ⊢
  have hwide : intTree.Wide g := by
    simp [intTree, Wide, dataType, leafDataType, WideData, dataTypeVoid]
  have hcompiles (stack : ℕ → Long) : ∃ c, finshCompilerRun g stack intTree = some c :=
    isSome_iff_exists.mp rfl
  obtain ⟨c, hc⟩ := hcompiles fun _ => 0
  obtain ⟨c', hc'⟩ := hcompiles fun _ => 0xffffffff
  exact ⟨c, c', hc, hc', (hmain c c' hc hc' (readsSet_of_wide hwide hc echoCall _)).1⟩

/-- The line `f('a');`. -/
def charCall : List Token :=
  [{ type := .identifier, string := [0x66] }, { type := .leftParen },
    { type := .valueChar, value := 0x61 }, { type := .rightParen }, { type := .semicolon }]

/-- Load `f`, load the byte, and call with one argument. -/
def charCode : List Byte := [0x24, 0x00, 0x01, 0x00, 0x08, 0x22, 0x61, 0x2c, 0x01]

/-- The argument of `f('a')` has in its upper bytes what was on the stack. -/
theorem stale_argument :
    let r := finshParserRun callRuntime { vars := fun _ => {} } charCall
    let g := r.2.core.globals 0x20000000
    r.2.core.Clean ∧ ∃ c c', finshCompilerRun g (fun _ => 0) r.1 = some c ∧ c.errors = [] ∧
      finshCompilerRun g (fun _ => 0xffffffff) r.1 = some c' ∧ c'.errors = [] ∧
      callTrace echoCall c.text c.stack (fun _ => 0) = [(0x8000100, [0x61])] ∧
      callTrace echoCall c'.text c'.stack (fun _ => 0) = [(0x8000100, [0xffffff61])] := by
  intro r g
  set_option maxRecDepth 2048 in
  have herrors : (finshTypeCheck g r.1 false).2 = [] := by decide
  have hcheck : finshTypeCheck g r.1 false = ((finshTypeCheck g r.1 false).1, []) :=
    Prod.mk.eta.symm.trans (congrArg _ herrors)
  have hcode : compileStatements g (finshTypeCheck g r.1 false).1 = (charCode, []) := by
    decide
  have hclean : r.2.core.errors = [] ∧ r.2.core.fault = false ∧ r.2.core.exhausted = false := by
    decide
  refine ⟨hclean, _, _, finshCompilerRun_eq hcheck hcode (by decide), rfl,
    finshCompilerRun_eq hcheck hcode (by decide), rfl, ?_, ?_⟩
  · decide
  · decide

end RtThread.Finsh
