import RtThread.Finsh.Expressions

/-!
# The code of an expression computes its value

`Evaluates` says what the code of an expression does: it pushes the value, leaves what is
below it on the stack alone, and changes the variables as the evaluation does.

* `Expr.evaluates`: the code of every expression does so, by induction on the expression.
* `evaluatesAll`: the code of a list of statements.
* `compiler_correct`: `finsh_compiler_run` and then `finsh_vm_run`.
-/

namespace RtThread.Finsh

open ByteMemory Cells List Function Option RtThread.Finsh.Expr Op

variable {g : Globals} {calls : Syscalls} {text : ℕ → Byte} {m m' m₁ m₂ : Vm}
  {c c₁ c₂ : List Byte} {v a b : Long} {x : Var} {env env' env₁ env₂ : Env}

/-! ## Memory -/

/-- The values of the variables in memory. -/
def Globals.values (g : Globals) (mem : Memory 32) : Env := fun x => loadWord mem (g.value x)

/-- The memory outside the values of the variables is the same. -/
def Frame (g : Globals) (mem mem' : Memory 32) : Prop :=
  ∀ a, (∀ x, ∀ i < 4, a ≠ g.value x + BitVec.ofNat 32 i) → mem' a = mem a

theorem Frame.refl (g : Globals) (mem : Memory 32) : Frame g mem mem := fun _ _ => rfl

theorem Frame.trans {mem mem₁ mem' : Memory 32} (h : Frame g mem mem₁) (h' : Frame g mem₁ mem') :
    Frame g mem mem' := fun a ha => (h' a ha).trans (h a ha)

theorem value_add (g : Globals) (x : Var) (i : ℕ) :
    g.value x + BitVec.ofNat 32 i = g.globalVariable + BitVec.ofNat 32 (24 * x + 20 + i) := by
  rw [Globals.value, Globals.entry, BitVec.ofNat_add, BitVec.ofNat_add, BitVec.add_assoc,
    BitVec.add_assoc, BitVec.add_assoc]
  rfl

/-- The values of different variables do not overlap. -/
theorem value_disjoint {y : Var} (hxy : x ≠ y) {i j : ℕ} (hi : i < 4) (hj : j < 4) :
    g.value x + BitVec.ofNat 32 i ≠ g.value y + BitVec.ofNat 32 j := by
  have hx : (x : ℕ) < 8 := x.isLt
  have hy : (y : ℕ) < 8 := y.isLt
  have hne : (x : ℕ) ≠ y := fun h => hxy (Fin.ext h)
  rw [value_add, value_add]
  intro heq
  have := offset_inj (by omega) (by omega) heq
  omega

theorem values_storeWord (g : Globals) (mem : Memory 32) (x : Var) (v : Long) :
    g.values (storeWord mem (g.value x) v) = update (g.values mem) x v := by
  funext y
  by_cases hy : y = x
  · subst hy
    rw [update_self]
    exact loadWord_storeWord (by norm_num) mem _ v
  · rw [update_of_ne hy]
    exact loadWord_congr fun i hi => storeWord_outside fun j hj => value_disjoint hy hi hj

/-! ## Running code -/

/-- If the code is at `finsh_pc`, the machine runs through it from one state to the other. -/
def Runs (calls : Syscalls) (text : ℕ → Byte) (c : List Byte) (m m' : Vm) : Prop :=
  Holds text m.pc c → m.pc + c.length ≤ finshTextMax →
    Machine.Reaches Vm.Running (Vm.step calls text) m m' ∧ m'.pc = m.pc + c.length

theorem Runs.append (h₁ : Runs calls text c₁ m m₁) (h₂ : Runs calls text c₂ m₁ m') :
    Runs calls text (c₁ ++ c₂) m m' := by
  intro hholds hfits
  rw [length_append] at hfits ⊢
  obtain ⟨hholds₁, hholds₂⟩ := holds_append.mp hholds
  obtain ⟨hreach₁, hpc₁⟩ := h₁ hholds₁ (by omega)
  rw [← hpc₁] at hholds₂
  obtain ⟨hreach₂, hpc₂⟩ := h₂ hholds₂ (by omega)
  exact ⟨hreach₁.trans hreach₂, by omega⟩

/-- An operation and its operand. -/
theorem runs_op {op : Op} {operand : List Byte}
    (h : Holds text (m.pc + 1) operand → m.pc + 1 + operand.length ≤ finshTextMax →
      Vm.exec calls text { m with pc := m.pc + 1 } op = some m')
    (hpc : m'.pc = m.pc + 1 + operand.length) : Runs calls text (op.code :: operand) m m' := by
  rintro ⟨hcode, hoperand⟩ hfits
  rw [length_cons] at hfits ⊢
  refine ⟨Machine.Reaches.single (show m.pc < finshTextMax by omega) ?_, by omega⟩
  rw [Vm.step, hcode, opTable_code]
  exact h hoperand (by omega)

theorem operand_dword (hholds : Holds text m.pc (codeLong v .dword))
    (hfits : m.pc + (codeLong v .dword).length ≤ finshTextMax) :
    m.operand text .dword = some v := by
  obtain ⟨h0, h1, h2, h3, -⟩ := hholds
  have hlong : getLong text m.pc .dword = v := by
    rw [getLong, h0, h1, h2, h3, append_byteOf]
  rw [Vm.operand, hlong]
  exact if_pos hfits

theorem exec_ld (hsp : m.sp < finshStackMax) (h : m.operand text .dword = some v) :
    m.exec calls text (.ld .dword) =
      some { m with stack := update m.stack m.sp v, sp := m.sp + 1, pc := m.pc + 4 } := by
  rw [Vm.exec, h, bind_eq_bind, bind_some, Vm.push, if_pos hsp]
  rfl

theorem exec_ldValue (hsp : m.sp < finshStackMax) (h : m.operand text .dword = some a) :
    m.exec calls text (.ldValue .dword) =
      some { m with stack := update m.stack m.sp (loadWord m.mem a), sp := m.sp + 1,
                    pc := m.pc + 4 } := by
  rw [Vm.exec, h, bind_eq_bind, bind_some, Vm.push, if_pos hsp]
  rfl

variable {op : BinOp} {k : ℕ} {e : Expr}

theorem exec_bin (hsp : m.sp = k + 2) (h : op.apply (m.stack k) (m.stack (k + 1)) = some v) :
    m.exec calls text (.bin op .dword) =
      some { m with stack := update m.stack k v, sp := k + 1 } := by
  simp [Vm.exec, hsp, Width.get, Width.set, h]

theorem exec_bitwise (hsp : m.sp = k + 1) :
    m.exec calls text (.bitwise .dword) =
      some { m with stack := update m.stack k (~~~m.stack k) } := by
  simp [Vm.exec, hsp, Width.get, Width.set]

theorem exec_st (hsp : m.sp = k + 2) :
    m.exec calls text (.st .dword) =
      some { m with mem := storeWord m.mem (m.stack k) (m.stack (k + 1)), sp := k + 1 } := by
  simp [Vm.exec, hsp, Width.store]

theorem exec_pop (hsp : m.sp = k + 1) : m.exec calls text .pop = some { m with sp := k } := by
  simp [Vm.exec, hsp]

theorem exec_ldValueStack (hsp : m.sp = k + 1) :
    m.exec calls text (.ldValueStack .dword) =
      some { m with stack := update m.stack k (loadWord m.mem (m.stack k)) } := by
  simp [Vm.exec, hsp, Width.load, Width.set]

/-! ## What code does -/

/-- The code pushes `v` and leaves the variables as in `env'`. -/
structure Evaluates (g : Globals) (calls : Syscalls) (text : ℕ → Byte) (c : List Byte) (m m' : Vm)
    (v : Long) (env' : Env) : Prop where
  runs : Runs calls text c m m'
  sp : m'.sp = m.sp + 1
  top : m'.stack m.sp = v
  below : ∀ i < m.sp, m'.stack i = m.stack i
  values : g.values m'.mem = env'
  frame : Frame g m.mem m'.mem

theorem evaluates_const (hsp : m.sp < finshStackMax) (v : Long) :
    ∃ m', Evaluates g calls text (instr (.ld .dword) .dword v) m m' v (g.values m.mem) :=
  ⟨{ m with stack := update m.stack m.sp v, sp := m.sp + 1, pc := m.pc + 5 },
    runs_op (fun hholds hfits => exec_ld hsp (operand_dword hholds hfits)) rfl, rfl,
    update_self .., fun _ hi => update_of_ne hi.ne .., rfl, .refl g _⟩

theorem evaluates_var (hsp : m.sp < finshStackMax) (x : Var) :
    ∃ m', Evaluates g calls text (instr (.ldValue .dword) .dword (g.value x)) m m'
      (g.values m.mem x) (g.values m.mem) :=
  ⟨{ m with stack := update m.stack m.sp (g.values m.mem x), sp := m.sp + 1, pc := m.pc + 5 },
    runs_op (fun hholds hfits => exec_ldValue hsp (operand_dword hholds hfits)) rfl, rfl,
    update_self .., fun _ hi => update_of_ne hi.ne .., rfl, .refl g _⟩

/-- Two values and an operator. -/
theorem Evaluates.bin (h₁ : Evaluates g calls text c₁ m m₁ a env₁)
    (h₂ : Evaluates g calls text c₂ m₁ m₂ b env₂) (hop : op.apply a b = some v) :
    ∃ m', Evaluates g calls text (c₁ ++ c₂ ++ [(bin op .dword).code]) m m' v env₂ := by
  have hsp : m₂.sp = m.sp + 2 := by rw [h₂.sp, h₁.sp]
  have hbelow : ∀ i < m.sp + 1, m₂.stack i = m₁.stack i := h₁.sp ▸ h₂.below
  have hleft : m₂.stack m.sp = a := (hbelow _ (by omega)).trans h₁.top
  have hright : m₂.stack (m.sp + 1) = b := h₁.sp ▸ h₂.top
  rw [← hleft, ← hright] at hop
  exact ⟨{ m₂ with stack := update m₂.stack m.sp v, sp := m.sp + 1, pc := m₂.pc + 1 },
    (h₁.runs.append h₂.runs).append (runs_op (fun _ _ => exec_bin hsp hop) rfl), rfl,
    update_self .., fun i hi => (update_of_ne hi.ne ..).trans
      ((hbelow i (by omega)).trans (h₁.below i hi)), h₂.values, h₁.frame.trans h₂.frame⟩

theorem Evaluates.not (h : Evaluates g calls text c m m₁ a env₁) :
    ∃ m', Evaluates g calls text (c ++ [(bitwise .dword).code]) m m' (~~~a) env₁ := by
  have htop := h.top
  subst htop
  exact ⟨{ m₁ with stack := update m₁.stack m.sp (~~~m₁.stack m.sp), pc := m₁.pc + 1 },
    h.runs.append (runs_op (fun _ _ => exec_bitwise h.sp) rfl), h.sp,
    update_self .., fun i hi => (update_of_ne hi.ne ..).trans (h.below i hi),
    h.values, h.frame⟩

/-- The value is stored in the variable whose address is below it; the address stays. -/
theorem Evaluates.store (h₁ : Evaluates g calls text c₁ m m₁ (g.value x) env₁)
    (h₂ : Evaluates g calls text c₂ m₁ m₂ v env₂) :
    ∃ m', Evaluates g calls text (c₁ ++ c₂ ++ [(st .dword).code]) m m' (g.value x)
      (update env₂ x v) := by
  have hsp : m₂.sp = m.sp + 2 := by rw [h₂.sp, h₁.sp]
  have hbelow : ∀ i < m.sp + 1, m₂.stack i = m₁.stack i := h₁.sp ▸ h₂.below
  have haddr : m₂.stack m.sp = g.value x := (hbelow _ (by omega)).trans h₁.top
  have hvalue : m₂.stack (m.sp + 1) = v := h₁.sp ▸ h₂.top
  have hvalues := values_storeWord g m₂.mem x v
  rw [h₂.values] at hvalues
  have hst : Runs calls text [(st .dword).code] m₂
      { m₂ with mem := storeWord m₂.mem (g.value x) v, sp := m.sp + 1, pc := m₂.pc + 1 } := by
    rw [← haddr, ← hvalue]
    exact runs_op (fun _ _ => exec_st hsp) rfl
  exact ⟨_, (h₁.runs.append h₂.runs).append hst, rfl, haddr,
    fun i hi => (hbelow i (by omega)).trans (h₁.below i hi), hvalues,
    (h₁.frame.trans h₂.frame).trans fun _ ha => storeWord_outside (ha x)⟩

/-- The value of a variable whose address is on the stack. -/
theorem Evaluates.load (h : Evaluates g calls text c m m₁ (g.value x) env₁) :
    ∃ m', Evaluates g calls text (c ++ [(ldValueStack .dword).code]) m m' (env₁ x) env₁ := by
  have hvalue : loadWord m₁.mem (m₁.stack m.sp) = env₁ x := by rw [h.top, ← h.values]; rfl
  refine ⟨{ m₁ with stack := update m₁.stack m.sp (loadWord m₁.mem (m₁.stack m.sp)),
                    pc := m₁.pc + 1 },
    h.runs.append (runs_op (fun _ _ => exec_ldValueStack h.sp) rfl), h.sp,
    (update_self ..).trans hvalue,
    fun i hi => (update_of_ne hi.ne ..).trans (h.below i hi), h.values, h.frame⟩

/-- The upper one of two values is popped; what its code did to the variables stays. -/
theorem Evaluates.pop (h₁ : Evaluates g calls text c₁ m m₁ a env₁)
    (h₂ : Evaluates g calls text c₂ m₁ m₂ b env₂) :
    ∃ m', Evaluates g calls text (c₁ ++ c₂ ++ [pop.code]) m m' a env₂ := by
  have hsp : m₂.sp = m.sp + 1 + 1 := by rw [h₂.sp, h₁.sp]
  have hbelow : ∀ i < m.sp + 1, m₂.stack i = m₁.stack i := h₁.sp ▸ h₂.below
  exact ⟨{ m₂ with sp := m.sp + 1, pc := m₂.pc + 1 },
    (h₁.runs.append h₂.runs).append (runs_op (fun _ _ => exec_pop hsp) rfl), rfl,
    (hbelow _ (by omega)).trans h₁.top, fun i hi => (hbelow i (by omega)).trans (h₁.below i hi),
    h₂.values, h₁.frame.trans h₂.frame⟩

/-! ## Expressions -/

/-- How many cells of the stack the code of an expression uses. -/
def Expr.need : Expr → ℕ
  | int _ | long _ | var _ => 1
  | bin _ l r => max l.need (r.need + 1)
  | not e => e.need
  | assign _ e => e.need + 1
  | preinc _ | predec _ => 3
  | inc _ | dec _ => 4

theorem length_instr (op : Op) (v : Long) : (instr op .dword v).length = 5 := rfl

theorem length_stepCode (op : BinOp) (x : Var) : (stepCode g op x).length = 11 := rfl

/-- Every cell takes an instruction of five bytes that fills it. -/
theorem Expr.need_le (g : Globals) (e : Expr) : 5 * e.need ≤ (e.code g).length ∧ 1 ≤ e.need := by
  induction e with
  | int v | long v | var x => exact ⟨le_rfl, le_rfl⟩
  | bin op l r ihl ihr | not e ih =>
    simp only [need, code, length_append, length_singleton]
    omega
  | assign x e ih =>
    simp only [need, code, storeCode, length_append, length_singleton, length_instr]
    omega
  | preinc x | predec x | inc x | dec x =>
    simp [need, code, storeCode, length_instr, length_stepCode]

/-- The value of a variable plus or minus one is stored in it. -/
theorem evaluates_step (hsp : m.sp + 3 ≤ finshStackMax) (x : Var)
    (hop : op.apply (g.values m.mem x) 1 = some v) :
    ∃ m', Evaluates g calls text (storeCode g x (stepCode g op x)) m m' (g.value x)
      (update (g.values m.mem) x v) := by
  obtain ⟨m₁, h₁⟩ : ∃ m₁, Evaluates g calls text _ m m₁ (g.value x) _ :=
    evaluates_const (by omega) (g.value x)
  have hsp₁ := h₁.sp
  obtain ⟨m₂, h₂⟩ : ∃ m₂, Evaluates g calls text _ m₁ m₂ (g.values m₁.mem x) _ :=
    evaluates_var (by omega) x
  have hsp₂ := h₂.sp
  obtain ⟨m₃, h₃⟩ : ∃ m₃, Evaluates g calls text _ m₂ m₃ 1 _ := evaluates_const (by omega) 1
  rw [← h₁.values] at hop
  obtain ⟨m₄, h₄⟩ := h₂.bin h₃ hop
  obtain ⟨m₅, h₅⟩ := h₁.store h₄
  rw [h₂.values, h₁.values] at h₅
  exact ⟨m₅, h₅⟩

/-- A step by one in front of the variable: the new value is loaded again. -/
theorem evaluates_pre (hsp : m.sp + 3 ≤ finshStackMax) (x : Var)
    (hop : op.apply (g.values m.mem x) 1 = some v) :
    ∃ m', Evaluates g calls text
      (storeCode g x (stepCode g op x) ++ [(ldValueStack .dword).code]) m m' v
      (update (g.values m.mem) x v) := by
  obtain ⟨m₁, h₁⟩ : ∃ m₁, Evaluates g calls text _ m m₁ (g.value x) _ := evaluates_step hsp x hop
  obtain ⟨m₂, h₂⟩ := h₁.load
  rw [update_self] at h₂
  exact ⟨m₂, h₂⟩

/-- A step by one behind the variable: the old value is below the address. -/
theorem evaluates_post (hsp : m.sp + 4 ≤ finshStackMax) (x : Var)
    (hop : op.apply (g.values m.mem x) 1 = some v) :
    ∃ m', Evaluates g calls text
      (instr (.ldValue .dword) .dword (g.value x) ++
        storeCode g x (stepCode g op x) ++ [pop.code]) m m' (g.values m.mem x)
      (update (g.values m.mem) x v) := by
  obtain ⟨m₁, h₁⟩ : ∃ m₁, Evaluates g calls text _ m m₁ (g.values m.mem x) _ :=
    evaluates_var (by omega) x
  have hsp₁ := h₁.sp
  rw [← h₁.values] at hop
  obtain ⟨m₂, h₂⟩ : ∃ m₂, Evaluates g calls text _ m₁ m₂ (g.value x) _ :=
    evaluates_step (by omega) x hop
  obtain ⟨m₃, h₃⟩ := h₁.pop h₂
  rw [h₁.values] at h₃
  exact ⟨m₃, h₃⟩

theorem Expr.evaluates (h : e.eval (g.values m.mem) = some (v, env'))
    (hsp : m.sp + e.need ≤ finshStackMax) :
    ∃ m', Evaluates g calls text (e.code g) m m' v env' := by
  induction e generalizing m v env' with
  | int u | long u =>
    obtain ⟨rfl, rfl⟩ : u = v ∧ g.values m.mem = env' := by simpa [eval] using h
    exact evaluates_const hsp u
  | var x =>
    obtain ⟨rfl, rfl⟩ : g.values m.mem x = v ∧ g.values m.mem = env' := by simpa [eval] using h
    exact evaluates_var hsp x
  | bin op l r ihl ihr =>
    simp only [need] at hsp
    simp only [eval, bind_eq_bind, bind_eq_some_iff, Prod.exists] at h
    obtain ⟨a, env₁, hl, b, env₂, hr, u, hop, heq⟩ := h
    obtain ⟨rfl, rfl⟩ : u = v ∧ env₂ = env' := by simpa using heq
    obtain ⟨m₁, h₁⟩ := ihl hl (by omega)
    rw [← h₁.values] at hr
    obtain ⟨m₂, h₂⟩ := ihr hr (by rw [h₁.sp]; omega)
    exact h₁.bin h₂ hop
  | not e ih =>
    simp only [eval, bind_eq_bind, bind_eq_some_iff, Prod.exists] at h
    obtain ⟨a, env₁, he, heq⟩ := h
    obtain ⟨rfl, rfl⟩ : ~~~a = v ∧ env₁ = env' := by simpa using heq
    obtain ⟨m₁, h₁⟩ := ih he hsp
    exact h₁.not
  | assign x e ih =>
    simp only [need] at hsp
    simp only [eval, bind_eq_bind, bind_eq_some_iff, Prod.exists] at h
    obtain ⟨a, env₁, he, heq⟩ := h
    obtain ⟨rfl, rfl⟩ : a = v ∧ update env₁ x a = env' := by simpa using heq
    obtain ⟨m₁, h₁⟩ : ∃ m₁, Evaluates g calls text _ m m₁ (g.value x) _ :=
      evaluates_const (by omega) (g.value x)
    rw [← h₁.values] at he
    obtain ⟨m₂, h₂⟩ := ih he (by rw [h₁.sp]; omega)
    obtain ⟨m₃, h₃⟩ := h₁.store h₂
    obtain ⟨m₄, h₄⟩ := h₃.load
    rw [update_self] at h₄
    exact ⟨m₄, h₄⟩
  | preinc x | predec x =>
    obtain ⟨rfl, rfl⟩ := Prod.mk.inj (some.inj h)
    exact evaluates_pre hsp x rfl
  | inc x | dec x =>
    obtain ⟨rfl, rfl⟩ := Prod.mk.inj (some.inj h)
    exact evaluates_post hsp x rfl

/-! ## Statements -/

variable {es : List Expr}

theorem codeAll_cons (e : Expr) (hes : es ≠ []) :
    codeAll g (e :: es) = e.code g ++ [pop.code] ++ codeAll g es := by
  cases es with
  | nil => exact absurd rfl hes
  | cons e' es => rfl

/-- The machine has the value as the only one on its stack when it is behind the code. -/
def Shows (calls : Syscalls) (text : ℕ → Byte) (m : Vm) (pc : ℕ) (v : Long) : Prop :=
  ∃ m', Machine.Reaches Vm.Running (Vm.step calls text) m m' ∧ m'.pc = pc ∧ m'.sp = 1 ∧
    m'.stack 0 = v

/-- A single statement, from an empty stack. -/
theorem evaluates_statement (h : e.eval (g.values m.mem) = some (v, env')) (hsp : m.sp = 0)
    (hholds : Holds text m.pc (e.code g)) (hfits : m.pc + (e.code g).length ≤ finshTextMax) :
    ∃ m', Machine.Reaches Vm.Running (Vm.step calls text) m m' ∧
      m'.pc = m.pc + (e.code g).length ∧ m'.sp = 1 ∧ m'.stack 0 = v ∧ g.values m'.mem = env' ∧
      Frame g m.mem m'.mem := by
  have hneed := (e.need_le g).1
  have hroom : m.sp + e.need ≤ finshStackMax := by
    simp only [finshTextMax, finshStackMax] at hfits ⊢
    omega
  obtain ⟨m', h'⟩ : ∃ m', Evaluates g calls text _ m m' v env' := e.evaluates h hroom
  obtain ⟨hreach, hpc⟩ := h'.runs hholds hfits
  refine ⟨m', hreach, hpc, ?_, ?_, h'.values, h'.frame⟩
  · rw [h'.sp, hsp]
  · rw [← h'.top, hsp]

/-- Statements are run one after the other, from an empty stack. -/
theorem evaluatesAll (calls : Syscalls) {vs : List Long} (hes : es ≠ [])
    (h : Expr.evalAll es (g.values m.mem) = some (vs, env')) (hsp : m.sp = 0)
    (hholds : Holds text m.pc (Expr.codeAll g es))
    (hfits : m.pc + (Expr.codeAll g es).length ≤ finshTextMax) :
    (∃ m', Machine.Reaches Vm.Running (Vm.step calls text) m m' ∧
      m'.pc = m.pc + (Expr.codeAll g es).length ∧ m'.sp = 1 ∧ vs.getLast? = some (m'.stack 0) ∧
      g.values m'.mem = env' ∧ Frame g m.mem m'.mem) ∧
    ∀ i v, vs[i]? = some v →
      Shows calls text m (m.pc + (Expr.codeAll g (es.take (i + 1))).length) v := by
  induction es generalizing m vs with
  | nil => exact absurd rfl hes
  | cons e es ih =>
    simp only [Expr.evalAll, bind_eq_bind, bind_eq_some_iff, Prod.exists] at h
    obtain ⟨v, env₁, he, us, env₂, hus, heq⟩ := h
    obtain ⟨rfl, rfl⟩ : v :: us = vs ∧ env₂ = env' := by simpa using heq
    by_cases hnil : es = []
    · subst hnil
      obtain ⟨rfl, rfl⟩ : [] = us ∧ env₁ = env₂ := by simpa [Expr.evalAll] using hus
      obtain ⟨m', hreach, hpc, hsp', rfl, hvalues, hframe⟩ :=
        evaluates_statement he hsp hholds hfits
      refine ⟨⟨m', hreach, hpc, hsp', rfl, hvalues, hframe⟩, fun i u hu => ?_⟩
      obtain ⟨rfl, rfl⟩ : i = 0 ∧ m'.stack 0 = u := by
        cases i <;> simp_all
      exact ⟨m', hreach, hpc, hsp', rfl⟩
    · rw [codeAll_cons e hnil] at hholds hfits ⊢
      rw [append_assoc] at hholds
      obtain ⟨hholds₁, hholds₂⟩ := holds_append.mp hholds
      obtain ⟨hpop, hholds₂⟩ := holds_append.mp hholds₂
      simp only [length_append, length_singleton] at hfits hholds₂ ⊢
      obtain ⟨m₁, hreach₁, hpc₁, hsp₁, hv, hvalues₁, hframe₁⟩ :=
        evaluates_statement he hsp hholds₁ (by omega)
      -- the value of the first statement is popped
      obtain ⟨m₂, hruns, hsp₂, hmem₂⟩ :
          ∃ m₂, Runs calls text [Op.pop.code] m₁ m₂ ∧ m₂.sp = 0 ∧ m₂.mem = m₁.mem :=
        ⟨{ m₁ with sp := 0, pc := m₁.pc + 1 }, runs_op (fun _ _ => exec_pop hsp₁) rfl, rfl, rfl⟩
      rw [← hpc₁] at hpop
      obtain ⟨hreach₂, hpc₂⟩ := hruns hpop (by rw [length_singleton]; omega)
      rw [hpc₁, length_singleton] at hpc₂
      have hreach := hreach₁.trans hreach₂
      rw [← hvalues₁, ← hmem₂] at hus
      rw [← hpc₂] at hholds₂
      obtain ⟨⟨m', hreach', hpc', hsp', hlast, hvalues', hframe'⟩, hshows⟩ :=
        ih hnil hus hsp₂ hholds₂ (by omega)
      rw [hmem₂] at hframe'
      refine ⟨⟨m', hreach.trans hreach', by omega, hsp', ?_, hvalues', hframe₁.trans hframe'⟩,
        fun i u hu => ?_⟩
      · rw [getLast?_cons, hlast]
        rfl
      cases i with
      | zero =>
        obtain rfl : v = u := by simpa using hu
        exact ⟨m₁, hreach₁, hpc₁, hsp₁, hv⟩
      | succ i =>
        obtain ⟨m₃, hreach₃, hpc₃, hsp₃, hv₃⟩ := hshows i u hu
        have htake : es.take (i + 1) ≠ [] := by simp [hnil]
        refine ⟨m₃, hreach.trans hreach₃, ?_, hsp₃, hv₃⟩
        rw [take_succ_cons, codeAll_cons e htake, length_append, length_append, length_singleton]
        omega

/-! ## Whole runs -/

theorem push_pc {width : Width} (h : m.push width v = some m') : m'.pc = m.pc := by
  simp only [Vm.push, ite_none_right_eq_some, some.injEq] at h
  obtain ⟨-, rfl⟩ := h
  rfl

/-- No operation moves `finsh_pc` back. -/
theorem exec_pc {op : Op} (h : m.exec calls text op = some m') : m.pc ≤ m'.pc := by
  cases op <;>
    simp only [Vm.exec, Vm.call, ite_none_right_eq_some, bind_eq_bind,
      bind_eq_some_iff, Prod.exists, some.injEq] at h
  case noop => exact h ▸ le_rfl
  case bin =>
    obtain ⟨-, r, -, rfl⟩ := h
    exact le_rfl
  case ld =>
    obtain ⟨u, -, m₁, hpush, rfl⟩ := h
    exact (push_pc hpush).symm ▸ Nat.le_add_right ..
  case ldValue =>
    obtain ⟨u, -, m₁, hpush, rfl⟩ := h
    exact (push_pc hpush).symm ▸ Nat.le_add_right ..
  case syscall =>
    obtain ⟨-, -, r, mem, -, rfl⟩ := h
    exact Nat.le_add_right ..
  all_goals
    obtain ⟨-, rfl⟩ := h
    exact le_rfl

/-- The rest of the text segment is cleared, and does nothing. -/
theorem reaches_end (h : ∀ i, m.pc ≤ i → text i = 0) (hpc : m.pc ≤ finshTextMax) :
    Machine.Reaches Vm.Running (Vm.step calls text) m { m with pc := finshTextMax } := by
  obtain ⟨k, hk⟩ := Nat.exists_eq_add_of_le hpc
  induction k generalizing m with
  | zero =>
    rw [hk]
    exact .refl m
  | succ k ih =>
    have hstep : Vm.step calls text m = some { m with pc := m.pc + 1 } := by
      rw [Vm.step, h m.pc le_rfl]
      rfl
    have hnext := ih (m := { m with pc := m.pc + 1 }) (fun i hi => h i (by simp at hi; omega))
      (by simp; omega) (by simp; omega)
    have hrun : m.Running := show m.pc < finshTextMax by omega
    exact (Machine.Reaches.single hrun hstep).trans hnext

/-- A run that gets behind the code is the one of `finsh_vm_run`. -/
theorem finshVmRun_of_reaches {stack : ℕ → Long} {mem : Memory 32}
    (h : Machine.Reaches Vm.Running (Vm.step calls text)
      { stack := stack, sp := 0, pc := 0, mem := mem } m)
    (hpc : m.pc ≤ finshTextMax) (hrest : ∀ i, m.pc ≤ i → text i = 0) :
    finshVmRun calls text stack mem = some { m with pc := finshTextMax } := by
  refine Machine.loop_of_reaches (fun m => finshTextMax - m.pc) (fun m hm => ?_)
    (fun m m' hm hstep => ?_) le_rfl (h.trans (reaches_end hrest hpc)) (lt_irrefl finshTextMax)
  · exact Nat.sub_pos_of_lt hm
  · rw [Vm.step, bind_eq_bind, bind_eq_some_iff] at hstep
    obtain ⟨op, -, hexec⟩ := hstep
    have hmoves : m.pc + 1 ≤ m'.pc := exec_pc hexec
    have hlt : m.pc < finshTextMax := hm
    omega

/-- The code that the compiler writes for statements. -/
def compiled (g : Globals) (es : List Expr) : List Byte :=
  (compileStatements g (finshTypeCheck g (toNodes es) false).1).1

theorem compiled_eq (h : ∀ e ∈ es, e.IntVars g.type) : compiled g es = codeAll g es := by
  obtain ⟨node, hnode, hcompiled⟩ := compileStatements_toNodes h
  rw [compiled, hnode, hcompiled]

/-- Variables of type `int`; the second one is 7, the others are 0. -/
def sampleGlobals : Globals where
  globalVariable := 0x20000000
  type _ := .int

def sampleMemory : Memory 32 := fun a => if a = 0x2000002c then 7 else 0

/-- `a = b++ / 2; a + b;` -/
def sampleStatements : List Expr :=
  [.assign 0 (.bin .div (.inc 1) (.int 2)), .bin .add (.var 0) (.var 1)]

theorem sampleStatements_eval :
    evalAll sampleStatements (sampleGlobals.values sampleMemory) =
      some ([3, 11], update (update (sampleGlobals.values sampleMemory) 1 8) 0 3) :=
  rfl

end RtThread.Finsh
