import RtThread.Finsh.RunLine
import RtThread.Finsh.Widths

/-!
# Increments and decrements

`++v`, `--v`, `v++` and `v--` from the tokens of the line to the machine, for variables of the
user and system variables of all the integer types. The compiler takes the identifier for a
variable of the user whatever it is: it steps the value at `&(var->value)` (`Symbol.value`),
which for a system variable is a place 20 bytes behind its entry in the table. `++v` and `--v`
are stored where the variable is, `v++` and `v--` at that place.

* `runs_codeStep`: the instructions that step a value of any width.
* `runs_pre`, `runs_post`: what the code of a line leaves in memory and on the stack.
* `incDec_iff`: when they do what C says.
-/

namespace RtThread.Finsh

open ByteMemory Cells Function Option Width RtThread.Finsh.Core Op BitVec Nat

variable {g : Globals} {calls : Syscalls} {text : ℕ → Byte} {m : Vm} {mem : Memory 32}
  {a b c u v x : Long} {w : Width} {op : BinOp} {i k : ℕ} {t : FinshType}

/-! ## Instructions of any width -/

theorem length_codeLong (v : Long) (w : Width) : (codeLong v w).length = w.size := by
  cases w <;> rfl

/-- The machine behind an instruction that loads `v`, `pc` bytes long. -/
def Vm.pushed (m : Vm) (w : Width) (v : Long) (pc : ℕ) : Vm :=
  { m with stack := update m.stack m.sp (w.set (m.stack m.sp) v), sp := m.sp + 1, pc := m.pc + pc }

theorem runs_ld (hsp : m.sp < finshStackMax) (w : Width) (v : Long) :
    Runs calls text (instr (.ld w) w v) m (m.pushed w v (1 + w.size)) := by
  refine runs_op (fun hholds hfits => ?_) ?_
  · rw [length_codeLong] at hfits
    have hoperand : Vm.operand text { m with pc := m.pc + 1 } w =
        some (getLong text (m.pc + 1) w) := if_pos hfits
    rw [Vm.exec, hoperand, bind_eq_bind, bind_some, Vm.push, if_pos hsp, set_getLong hholds]
    simp [Vm.pushed, add_assoc]
  · rw [length_codeLong, add_assoc]
    rfl

theorem runs_ldValue (hsp : m.sp < finshStackMax) (w : Width) (a : Long) :
    Runs calls text (instr (.ldValue w) .dword a) m (m.pushed w (w.load m.mem a) 5) := by
  refine runs_op (fun hholds hfits => ?_) rfl
  rw [Vm.exec, operand_dword hholds hfits, bind_eq_bind, bind_some, Vm.push, if_pos hsp]
  rfl

theorem runs_bin (hsp : m.sp = k + 2)
    (h : op.apply (w.get (m.stack k)) (w.get (m.stack (k + 1))) = some v) :
    Runs calls text [(bin op w).code] m
      { m with stack := update m.stack k (w.set (m.stack k) v), sp := k + 1, pc := m.pc + 1 } :=
  runs_op (fun _ _ => by simp [Vm.exec, hsp, h]) rfl

theorem runs_st (hsp : m.sp = k + 2) :
    Runs calls text [(st w).code] m
      { m with mem := w.store m.mem (m.stack k) (m.stack (k + 1)), sp := k + 1, pc := m.pc + 1 } :=
  runs_op (fun _ _ => by simp [Vm.exec, hsp]) rfl

/-! ## Steps by one -/

/-- The value plus or minus one. -/
def BinOp.byOne (op : BinOp) (v : Long) : Long := if op = .add then v + 1 else v - 1

theorem low_byOne (op : BinOp) (h : w.low x = w.low u) :
    w.low (op.byOne x) = w.low (op.byOne u) := by
  simp only [BinOp.byOne, sub_eq_add_neg]
  split <;> exact low_add h _

/-- The value at `&(var->value)` is stepped, and stored at the address on the stack. -/
theorem runs_codeStep (hop : op = .add ∨ op = .sub) (hsp : m.sp = k + 1)
    (hroom : k + 3 ≤ finshStackMax) (w : Width) (s : Option Symbol) :
    ∃ m', Runs calls text (codeStep g op w s) m m' ∧ m'.sp = k + 1 ∧
      (∀ i ≤ k, m'.stack i = m.stack i) ∧
      m'.mem = w.store m.mem (m.stack k) (op.byOne (w.load m.mem (g.pointer s + valueOffset))) := by
  let v := w.load m.mem (g.pointer s + valueOffset)
  let m₁ := m.pushed w v 5
  let m₂ := m₁.pushed w 1 (1 + w.size)
  have hsp₁ : m₁.sp = k + 2 := congrArg (· + 1) hsp
  have hsp₂ : m₂.sp = k + 1 + 2 := congrArg (· + 1) hsp₁
  have h₁ : Runs calls text (instr (.ldValue w) .dword (g.pointer s + valueOffset)) m m₁ :=
    runs_ldValue (by omega) w _
  have h₂ : Runs calls text (instr (.ld w) w 1) m₁ m₂ := runs_ld (by omega) w 1
  have hone : m₂.stack (k + 1 + 1) = w.set (m₁.stack (k + 1 + 1)) 1 := by
    simp only [m₂, Vm.pushed, hsp₁, update_self]
  have hvalue : m₂.stack (k + 1) = w.set (m.stack (k + 1)) v := by
    simp only [m₂, m₁, Vm.pushed, hsp]
    rw [update_of_ne (by omega), update_self]
  have hbelow : ∀ i ≤ k, m₂.stack i = m.stack i := by
    intro i hi
    simp only [m₂, m₁, Vm.pushed, hsp]
    rw [update_of_ne (by omega), update_of_ne (by omega)]
  -- the sum has the low part of `v` plus or minus one
  let r := op.byOne (w.get (m₂.stack (k + 1)))
  have hr : w.low r = w.low (op.byOne v) := by
    refine low_byOne op ?_
    rw [low_get, hvalue, low_set]
  have happly : op.apply (w.get (m₂.stack (k + 1))) (w.get (m₂.stack (k + 1 + 1))) = some r := by
    rw [hone, get_set_one]
    obtain rfl | rfl := hop <;> rfl
  have h₃ : Runs calls text _ m₂ _ := runs_bin hsp₂ happly
  have h₄ := ((h₁.append h₂).append h₃).append (runs_st (k := k) (w := w) rfl)
  have hcode : codeStep g op w s = instr (.ldValue w) .dword (g.pointer s + valueOffset) ++
      instr (.ld w) w 1 ++ [(bin op w).code] ++ [(st w).code] := by simp [codeStep]
  refine ⟨_, hcode ▸ h₄, rfl, fun i hi => ?_, ?_⟩
  · exact (update_of_ne (by omega) ..).trans (hbelow i hi)
  · dsimp only
    rw [update_self, update_of_ne (by omega), hbelow k le_rfl]
    exact store_congr (by rw [low_set, hr])

/-! ## The lines -/

/-- `++v`, `--v`, `v++` and `v--`. -/
inductive IncDec
  | preinc | predec | inc | dec
  deriving DecidableEq, Repr

namespace IncDec

/-- The operator is in front of the variable. -/
def isPre : IncDec → Bool
  | preinc | predec => true
  | inc | dec => false

def binOp : IncDec → BinOp
  | preinc | inc => .add
  | predec | dec => .sub

def token : IncDec → TokenType
  | preinc | inc => .inc
  | predec | dec => .dec

def nodeType : IncDec → NodeType
  | preinc => .sysPreinc
  | predec => .sysPredec
  | inc => .sysInc
  | dec => .sysDec

/-- The tokens of the line. -/
def line (s : IncDec) (name : List Byte) : List Token :=
  let id : Token := { type := .identifier, string := name }
  if s.isPre then [{ type := s.token }, id, { type := .semicolon }]
  else [id, { type := s.token }, { type := .semicolon }]

def phrase (s : IncDec) (name : List Byte) : Phrase :=
  if s.isPre then .unary s.nodeType (.identifier name) else .post s.nodeType (.identifier name)

theorem binOp_eq (s : IncDec) : s.binOp = .add ∨ s.binOp = .sub := by
  cases s <;> simp [binOp]

theorem derives_phrase (s : IncDec) (name : List Byte) :
    ∃ ts, Derives .assign ts (s.phrase name) ∧ s.line name = ts ++ [{ type := .semicolon }] := by
  have hid : Derives .primary [{ type := .identifier, string := name }] (.identifier name) :=
    .identifier rfl
  let incToken : Token := { type := .inc }
  let decToken : Token := { type := .dec }
  have hcast : Derives (.level 0) [{ type := .identifier, string := name }] (.identifier name) :=
    .ofUnary (.post (.primary hid))
  cases s with
  | preinc => exact ⟨_, (Derives.ofUnary (.unary (t := incToken) rfl hcast)).assign_of_cast, rfl⟩
  | predec => exact ⟨_, (Derives.ofUnary (.unary (t := decToken) rfl hcast)).assign_of_cast, rfl⟩
  | inc =>
    have hpost := Derives.inc (t := incToken) (.primary hid) rfl
    exact ⟨_, (Derives.ofUnary (.post hpost)).assign_of_cast, rfl⟩
  | dec =>
    have hpost := Derives.dec (t := decToken) (.primary hid) rfl
    exact ⟨_, (Derives.ofUnary (.post hpost)).assign_of_cast, rfl⟩

end IncDec

/-- The width of the integer types. -/
def intWidth : FinshType → Option Width
  | .char | .uchar => some .byte
  | .short | .ushort => some .word
  | .int | .uint | .long | .ulong => some .dword
  | _ => none

theorem typeWidth_of_int (h : intWidth t = some w) : typeWidth t = some w := by
  cases t <;> simp_all [intWidth, typeWidth]

theorem typeDataType_of_int (h : intWidth t = some w) (old : Byte) :
    ∃ d, typeDataType old t = (d, []) ∧ dataTypeWidth d = some w := by
  cases t <;> simp_all [intWidth, typeDataType] <;> subst h <;> rfl

/-- The address and the type of the variable that an identifier stands for. -/
def Symbol.place (g : Globals) : Symbol → Option (Long × FinshType)
  | .var v => some (g.value v, g.type v)
  | .sysvar _ type a => some (a, type)
  | .syscall .. => none

/-- `&(var->value)`, with the identifier taken for a variable of the user. -/
def Symbol.value (g : Globals) (sym : Symbol) : Long := g.pointer (some sym) + valueOffset

namespace IncDec

variable {s : IncDec} {sym : Symbol} {t : FinshType}

/-- The node of an identifier. -/
def idInfo (sym : Symbol) (d : Byte) (address : Bool) : Info :=
  { nodeType := .id, dataType := d, symbol := some sym, address := address }

def tree (s : IncDec) (sym : Symbol) : Node :=
  .mk { nodeType := s.nodeType } (.mk (idInfo sym dataTypeVoid false) .null .null) .null

/-- The code of the line: the variable or its address, and the step. -/
def code (g : Globals) (sym : Symbol) (a : Long) (w : Width) (s : IncDec) : List Byte :=
  if s.isPre then
    instr (.ld .dword) .dword a ++ codeStep g s.binOp w (some sym) ++
      [(ldValueStack .dword).code]
  else
    instr (.ldValue w) .dword a ++ instr (.ld .dword) .dword (sym.value g) ++
      codeStep g s.binOp w (some sym) ++ [pop.code]

theorem tree_phrase {rt : Runtime} {vars : Fin finshVariableMax → VarEntry} {name : List Byte}
    (hsym : Parser.symbolLookup rt vars (name.take finshNameMax) = some sym) (s : IncDec) :
    (s.phrase name).tree rt vars [] = s.tree sym := by
  cases s <;>
    simp [phrase, isPre, Phrase.tree, Phrase.inner, Node.setSibling, hsym, tree, idInfo,
      dataTypeVoid]

section

variable (hplace : sym.place g = some (a, t)) {d : Byte}
include hplace

theorem finshTypeCheck_id (hd : typeDataType dataTypeVoid t = (d, [])) (isAddr : Bool) :
    finshTypeCheck g (.mk (idInfo sym dataTypeVoid false) .null .null) isAddr =
      (.mk (idInfo sym d isAddr) .null .null, []) := by
  cases sym with
  | var v | sysvar entry type var =>
    obtain ⟨-, rfl⟩ := Prod.mk.inj (some.inj hplace)
    simp [finshTypeCheck, idInfo, Info.markAddr, Info.isSyscall, leafDataType, hd]
  | syscall entry func => cases hplace

theorem finshCompile_id (hw : typeWidth t = some w) (isAddr : Bool) :
    finshCompile g (.mk (idInfo sym d isAddr) .null .null) =
      (instr (if isAddr then .ld .dword else .ldValue w) .dword a, []) := by
  cases sym with
  | var v | sysvar entry type var =>
    obtain ⟨rfl, rfl⟩ := Prod.mk.inj (some.inj hplace)
    cases isAddr <;> simp [finshCompile, idInfo, codeNode, codeId, codeVariable, hw, Output.andThen]
  | syscall entry func => cases hplace

theorem compiles (hw : intWidth t = some w) (s : IncDec) :
    ∃ node, finshTypeCheck g (s.tree sym) false = (node, []) ∧
      compileStatements g node = (s.code g sym a w, []) := by
  obtain ⟨d, hd, hdw⟩ := typeDataType_of_int hw dataTypeVoid
  have haddr : childIsAddr s.nodeType false = s.isPre := by cases s <;> rfl
  have hcheck := Expr.finshTypeCheck_node haddr (finshTypeCheck_id hplace hd s.isPre) .null
  refine ⟨_, hcheck, ?_⟩
  have hchild : finshCompile g (.mk (idInfo sym d s.isPre) .null .null) = _ :=
    finshCompile_id hplace (typeWidth_of_int hw) s.isPre
  rw [compileStatements, finshCompile, hchild]
  cases s <;>
    simp [finshCompile, codeNode, nodeType, codePre, codePost, idInfo, hdw, code, isPre, binOp,
      Symbol.value, compileStatements, Node.isNull, Output.andThen]

end

theorem length_code (g : Globals) (sym : Symbol) (a : Long) (w : Width) (s : IncDec) :
    (s.code g sym a w).length ≤ finshTextMax := by
  cases w <;> cases s <;> simp [code, isPre, codeStep, instr, codeLong, finshTextMax]

/-- The code of `++v` and `--v`: the `long` at the variable is left on the stack. -/
theorem runs_pre (hs : s.isPre = true) (hsp : m.sp = 0) :
    ∃ m', Runs calls text (s.code g sym a w) m m' ∧
      m'.mem = w.store m.mem a (s.binOp.byOne (w.load m.mem (sym.value g))) ∧
      m'.stack 0 = loadWord m'.mem a := by
  have h₁ : Runs calls text _ m (m.pushed .dword a 5) := runs_ld (by rw [hsp]; decide) .dword a
  have hsp₁ : (m.pushed .dword a 5).sp = 0 + 1 := congrArg (· + 1) hsp
  have htop : (m.pushed .dword a 5).stack 0 = a := by
    simp [Vm.pushed, hsp, Width.set]
  obtain ⟨m₂, h₂, hsp₂, hbelow, hmem⟩ : ∃ m₂, Runs calls text (codeStep g ..) _ m₂ ∧ _ :=
    runs_codeStep s.binOp_eq hsp₁ (by decide) w (some sym)
  rw [htop] at hmem
  have h₃ : Runs calls text [(Op.ldValueStack .dword).code] m₂
      { m₂ with stack := update m₂.stack 0 (loadWord m₂.mem (m₂.stack 0)),
                pc := m₂.pc + 1 } := runs_op (fun _ _ => exec_ldValueStack hsp₂) rfl
  have hcode : s.code g sym a w = instr (.ld .dword) .dword a ++
      codeStep g s.binOp w (some sym) ++ [(Op.ldValueStack .dword).code] := by
    rw [code, if_pos hs]
  have hruns := (h₁.append h₂).append h₃
  rw [← hcode] at hruns
  refine ⟨_, hruns, hmem, ?_⟩
  dsimp only
  rw [update_self, hbelow 0 le_rfl, htop]

/-- The code of `v++` and `v--`: the value of the variable stays on the stack. -/
theorem runs_post (hs : s.isPre = false) (hsp : m.sp = 0) (hzero : m.stack 0 = 0) :
    ∃ m', Runs calls text (s.code g sym a w) m m' ∧
      m'.mem = w.store m.mem (sym.value g) (s.binOp.byOne (w.load m.mem (sym.value g))) ∧
      m'.stack 0 = w.load m.mem a := by
  let m₁ := m.pushed w (w.load m.mem a) 5
  let m₂ := m₁.pushed .dword (sym.value g) 5
  have hsp₁ : m₁.sp = 1 := congrArg (· + 1) hsp
  have hsp₂ : m₂.sp = 1 + 1 := congrArg (· + 1) hsp₁
  have h₁ : Runs calls text _ m m₁ := runs_ldValue (by rw [hsp]; decide) w a
  have h₂ : Runs calls text _ m₁ m₂ := runs_ld (by rw [hsp₁]; decide) .dword (sym.value g)
  have hvalue : m₁.stack 0 = w.load m.mem a := by
    simp only [m₁, Vm.pushed, hsp, update_self, hzero]
    rw [set_zero, low_load]
  have hvalue₂ : m₂.stack 0 = w.load m.mem a := by
    simp only [m₂, Vm.pushed, hsp₁]
    rw [update_of_ne (by decide), hvalue]
  have htop : m₂.stack 1 = sym.value g := by
    simp [m₂, Vm.pushed, hsp₁, Width.set]
  obtain ⟨m₃, h₃, hsp₃, hbelow, hmem⟩ : ∃ m₃, Runs calls text (codeStep g ..) _ m₃ ∧ _ :=
    runs_codeStep s.binOp_eq hsp₂ (by decide) w (some sym)
  rw [htop] at hmem
  have h₄ : Runs calls text [Op.pop.code] m₃ { m₃ with sp := 1, pc := m₃.pc + 1 } :=
    runs_op (fun _ _ => exec_pop hsp₃) rfl
  have hcode : s.code g sym a w = instr (.ldValue w) .dword a ++
      instr (.ld .dword) .dword (sym.value g) ++ codeStep g s.binOp w (some sym) ++
        [Op.pop.code] := by
    rw [code, hs]
    rfl
  have hruns := ((h₁.append h₂).append h₃).append h₄
  rw [← hcode] at hruns
  exact ⟨_, hruns, hmem, (hbelow 0 (by decide)).trans hvalue₂⟩

/-! ## What C says -/

/-- The value behind or before another one, modulo the width of the variable. -/
def next (s : IncDec) (w : Width) (n : ℕ) : ℕ :=
  if s.binOp = .add then (n + 1) % w.modulus else (n + w.modulus - 1) % w.modulus

theorem toNat_low_byOne (s : IncDec) (w : Width) (x : Long) :
    (w.low (s.binOp.byOne x)).toNat = s.next w x.toNat := by
  rw [toNat_low, next, BinOp.byOne]
  split
  · rw [toNat_add, mod_mod_of_dvd _ w.modulus_dvd]
    rfl
  · have hpos : 0 < w.modulus := Nat.two_pow_pos _
    obtain ⟨k, hk⟩ := w.modulus_dvd
    have hcount : 2 ^ 32 - 1 + x.toNat = x.toNat + w.modulus - 1 + w.modulus * (k - 1) := by
      rw [mul_sub_one]
      have : w.modulus ≤ 2 ^ 32 := le_of_dvd (by norm_num) w.modulus_dvd
      omega
    rw [toNat_sub, mod_mod_of_dvd _ w.modulus_dvd]
    exact (congrArg (· % w.modulus) hcount).trans (add_mul_mod_self_left ..)

theorem load_lt (mem : Memory 32) (a : Long) (w : Width) : (w.load mem a).toNat < w.modulus := by
  rw [← low_load, toNat_low]
  exact Nat.mod_lt _ (Nat.two_pow_pos _)

theorem next_inj {n n' : ℕ} (hn : n < w.modulus) (hn' : n' < w.modulus)
    (h : s.next w n = s.next w n') : n = n' := by
  have hcancel : n ≡ n' [MOD w.modulus] := by
    unfold next at h
    split at h
    · exact ModEq.add_right_cancel' 1 h
    · have hpos : 1 ≤ w.modulus := Nat.one_le_two_pow
      rw [Nat.add_sub_assoc hpos, Nat.add_sub_assoc hpos] at h
      exact ModEq.add_right_cancel' _ h
  exact hcancel.eq_of_lt_of_lt hn hn'

/-- The lowest byte is another one. -/
theorem next_low_byte (s : IncDec) (w : Width) (n : ℕ) : s.next w n % 256 ≠ n % 256 := by
  obtain ⟨k, hk⟩ := w.dvd_modulus
  have hpos : 0 < w.modulus := Nat.two_pow_pos _
  unfold next
  split
  · rw [mod_mod_of_dvd _ w.dvd_modulus]
    omega
  · rw [mod_mod_of_dvd _ w.dvd_modulus]
    omega

/-- The line does what C says: the variable gets the next value, nothing else changes, and the value
on the stack is the new one or the old one. -/
structure Correct (s : IncDec) (w : Width) (a : Long) (mem : Memory 32) (m : Vm) : Prop where
  value : (w.load m.mem a).toNat = s.next w (w.load mem a).toNat
  frame : ∀ b, (∀ i < w.size, b ≠ a + BitVec.ofNat 32 i) → m.mem b = mem b
  shown : m.finshStackBottom.toNat =
    if s.isPre then s.next w (w.load mem a).toNat else (w.load mem a).toNat

/-- `&(var->value)` is where the variable is; for `++v` and `--v` it is enough that the same value
is there, but the bytes above the variable have to be zero. -/
def Aimed (s : IncDec) (w : Width) (mem : Memory 32) (a value : Long) : Prop :=
  if s.isPre then
    w.load mem value = w.load mem a ∧ ∀ i, w.size ≤ i → i < 4 → mem (a + BitVec.ofNat 32 i) = 0
  else value = a

theorem correct_pre_iff (hs : s.isPre = true)
    (hmem : m.mem = w.store mem a (s.binOp.byOne (w.load mem v)))
    (hshown : m.stack 0 = loadWord m.mem a) : s.Correct w a mem m ↔ s.Aimed w mem a v := by
  have hload : (w.load m.mem a).toNat = s.next w (w.load mem v).toNat := by
    rw [hmem, load_store, toNat_low_byOne]
  have hiff := loadWord_store_iff mem a (s.binOp.byOne (w.load mem v)) w
  rw [← hmem, ← toNat_inj, toNat_low_byOne] at hiff
  rw [Aimed, if_pos hs, ← hiff]
  constructor
  · rintro ⟨hvalue, -, hbottom⟩
    have heq := next_inj (load_lt mem v w) (load_lt mem a w) (hload.symm.trans hvalue)
    rw [Vm.finshStackBottom, hshown, if_pos hs, ← heq] at hbottom
    exact ⟨toNat_inj.mp heq, hbottom⟩
  · rintro ⟨heq, hbottom⟩
    refine ⟨heq ▸ hload, fun b hb => ?_, ?_⟩
    · rw [hmem, store_outside hb]
    · rw [Vm.finshStackBottom, hshown, if_pos hs, hbottom, heq]

theorem correct_post_iff (hs : s.isPre = false)
    (hmem : m.mem = w.store mem v (s.binOp.byOne (w.load mem v)))
    (hshown : m.stack 0 = w.load mem a) : s.Correct w a mem m ↔ s.Aimed w mem a v := by
  rw [Aimed, hs]
  constructor
  · rintro ⟨hvalue, hframe, -⟩
    have hsize : w.size ≤ 4 := by cases w <;> decide
    -- the first byte that is stored is changed, so that it belongs to the variable
    have hchanged : m.mem v ≠ mem v := by
      intro h
      have hbyte : byteOf (w.load m.mem v) 0 = byteOf (w.load mem v) 0 := by
        rw [byteOf_load, byteOf_load, h]
      rw [hmem, load_store, ← toNat_inj] at hbyte
      simp only [byteOf, extractLsb'_toNat, toNat_low_byOne] at hbyte
      exact next_low_byte s w _ (by simpa using hbyte)
    obtain ⟨i, hi, rfl⟩ : ∃ i < w.size, v = a + BitVec.ofNat 32 i := by
      by_contra! h
      exact hchanged (hframe v h)
    -- and the first byte of the variable is changed too
    by_contra hne
    have hsame : m.mem a = mem a := by
      rw [hmem]
      refine store_outside fun j hj heq => ?_
      rw [add_assoc, ← ofNat_add] at heq
      have := offset_inj (i := 0) (by norm_num) (by omega) ((add_zero a).trans heq)
      obtain rfl : i = 0 := by omega
      exact hne (add_zero a)
    have hbyte : byteOf (w.load m.mem a) 0 = byteOf (w.load mem a) 0 := by
      rw [byteOf_load, byteOf_load, hsame]
    rw [← toNat_inj] at hbyte
    simp only [byteOf, extractLsb'_toNat, hvalue] at hbyte
    exact next_low_byte s w _ (by simpa using hbyte)
  · rintro rfl
    refine ⟨?_, fun b hb => ?_, ?_⟩
    · rw [hmem, load_store, toNat_low_byOne]
    · rw [hmem, store_outside hb]
    · rw [Vm.finshStackBottom, hshown, hs]
      rfl

/-- The machine in front of a line. -/
def start (stack : ℕ → Long) (mem : Memory 32) : Vm :=
  { stack := update stack 0 0, sp := 0, pc := 0, mem := mem }

section Line

variable {rt : Runtime} {globalVariable : Long} {vars : Fin finshVariableMax → VarEntry}
  {stack : ℕ → Long} {name : List Byte}

/-- A line whose code does something has been run. -/
theorem finshRunLine_incDec (hsym : Parser.symbolLookup rt vars (name.take finshNameMax) = some sym)
    (hplace : sym.place (Core.globals { vars := vars } globalVariable) = some (a, t))
    (hw : intWidth t = some w)
    (hruns : Runs calls
      (fun i => (s.code (Core.globals { vars := vars } globalVariable) sym a w).getD i 0)
      (s.code (Core.globals { vars := vars } globalVariable) sym a w) (start stack mem) m) :
    finshRunLine rt calls globalVariable vars stack mem (s.line name) =
      some (.ran { m with pc := finshTextMax }) := by
  obtain ⟨ts, hderives, hline⟩ := s.derives_phrase name
  have hnodes : (s.phrase name).nodes ≤ finshNodeMax := by
    cases s <;> simp [phrase, isPre, Phrase.nodes, finshNodeMax]
  have hacc : (s.phrase name).Accepted rt vars [] := by
    cases s <;> simp [phrase, isPre, Phrase.Accepted, hsym]
  obtain ⟨q, hparse, hclean, hvars⟩ :=
    finshParserRun_expr (t := { type := .semicolon }) hderives rfl hnodes hacc
  rw [tree_phrase hsym, ← hline] at hparse
  obtain ⟨node, hcheck, hcode⟩ := compiles hplace hw s
  have hglobals : q.core.globals globalVariable = Core.globals { vars := vars } globalVariable := by
    rw [Core.globals, hvars]
    rfl
  exact finshRunLine_ran hparse hclean hglobals hcheck hcode (length_code ..) hruns

theorem exists_ran_iff {r : Option LineResult} {P : Vm → Prop} (h : r = some (.ran m)) :
    (∃ m, r = some (.ran m) ∧ P m) ↔ P m := by
  subst h
  simp

/-- `++v`, `--v`, `v++` and `v--` change the variable, and nothing else, to its next value modulo
its width and show the new or the old value, if and only if `&(var->value)` is where the variable
is. For a variable of the user it is. For a system variable the line is right only if the place 20
bytes behind its entry is the variable (`v++`, `v--`), or holds the same value (`++v`, `--v`); `++v`
and `--v` read four bytes back, of which those above a narrow variable have to be zero. -/
theorem incDec_iff (calls : Syscalls) (stack : ℕ → Long) (mem : Memory 32) (s : IncDec)
    (hsym : Parser.symbolLookup rt vars (name.take finshNameMax) = some sym)
    (hplace : sym.place (globals { vars := vars } globalVariable) = some (a, t))
    (hw : intWidth t = some w) :
    (∃ m, finshRunLine rt calls globalVariable vars stack mem (s.line name) = some (.ran m) ∧
      s.Correct w a mem m) ↔
    s.Aimed w mem a (sym.value (globals { vars := vars } globalVariable)) := by
  cases hs : s.isPre with
  | true =>
    obtain ⟨m, hruns, hmem, hshown⟩ : ∃ m, Runs calls _ _ (start stack mem) m ∧ _ := runs_pre hs rfl
    rw [exists_ran_iff (finshRunLine_incDec hsym hplace hw hruns)]
    exact correct_pre_iff hs hmem hshown
  | false =>
    obtain ⟨m, hruns, hmem, hshown⟩ : ∃ m, Runs calls _ _ (start stack mem) m ∧ _ :=
      runs_post hs rfl rfl
    rw [exists_ran_iff (finshRunLine_incDec hsym hplace hw hruns)]
    exact correct_post_iff hs hmem hshown

/-- `a++` for the variable `a`, of type `int`. -/
theorem incDec_iff_sample :
    ∃ m, finshRunLine sampleRuntime (fun _ _ _ => none) 0x20000000 sampleVars (fun _ => 7)
        (fun _ => 0) (inc.line [0x61]) = some (.ran m) ∧
      inc.Correct .dword 0x20000014 (fun _ => 0) m :=
  have hsym : Parser.symbolLookup sampleRuntime sampleVars [0x61] = some (.var 0) := rfl
  have hplace : Symbol.place (globals { vars := sampleVars } 0x20000000) (.var 0) =
      some (0x20000014, .int) := rfl
  (incDec_iff (fun _ _ _ => none) (fun _ => 7) (fun _ => 0) inc hsym hplace rfl).mpr
    (show (0x20000014 : Long) = 0x20000014 from rfl)

/-- A shell with one system variable, `c` of type `char` at 0x20000000, whose entry is at 0x8000000.
-/
def sysvarRuntime : Runtime :=
  { sampleRuntime with
    sysvarLookup := fun name => if name = [0x63] then some (.sysvar 0x8000000 .char 0x20000000)
      else none }

/-- `c++` changes the byte 20 bytes behind the entry of `c`, and not `c`. -/
theorem sysvar_not_stepped :
    Parser.symbolLookup sysvarRuntime (fun _ => {}) [0x63] =
      some (.sysvar 0x8000000 .char 0x20000000) ∧
    (∃ m, finshRunLine sysvarRuntime (fun _ _ _ => none) 0x20000100 (fun _ => {}) (fun _ => 0)
        (fun _ => 0) (inc.line [0x63]) = some (.ran m) ∧
      m.mem 0x20000000 = 0 ∧ m.mem 0x8000014 = 1) ∧
    ¬ ∃ m, finshRunLine sysvarRuntime (fun _ _ _ => none) 0x20000100 (fun _ => {}) (fun _ => 0)
        (fun _ => 0) (inc.line [0x63]) = some (.ran m) ∧
      inc.Correct .byte 0x20000000 (fun _ => 0) m := by
  have hsym : Parser.symbolLookup sysvarRuntime (fun _ => {}) [0x63] =
      some (.sysvar 0x8000000 .char 0x20000000) := rfl
  obtain ⟨m, hruns, hmem, hshown⟩ :
      ∃ m, Runs (fun _ _ _ => none) _ (inc.code _ _ 0x20000000 .byte)
        (start (fun _ => 0) fun _ => 0) m ∧ _ := runs_post rfl rfl rfl
  have hplace : Symbol.place (globals { vars := fun _ => {} } 0x20000100)
      (.sysvar 0x8000000 .char 0x20000000) = some (0x20000000, .char) := rfl
  have hline : finshRunLine sysvarRuntime _ _ _ _ _ (inc.line [0x63]) = _ :=
    finshRunLine_incDec hsym hplace rfl hruns
  refine ⟨hsym, ⟨_, hline, ?_, ?_⟩, ?_⟩
  · rw [hmem]
    decide
  · rw [hmem]
    decide
  · have hiff : inc.Correct .byte 0x20000000 (fun _ => 0) { m with pc := finshTextMax } ↔ _ :=
      correct_post_iff rfl hmem hshown
    rw [exists_ran_iff hline, hiff]
    show ¬ (0x8000014 : Long) = 0x20000000
    decide

end Line

end IncDec

end RtThread.Finsh
