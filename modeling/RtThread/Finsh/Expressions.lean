import RtThread.Finsh.Compiler

/-!
# Expressions and their code

Expressions over `int` and `long` constants and variables, their direct evaluation, and the
trees that `make_sys_node` builds for them. `Expr.code` is the code that an expression should
have.

* `finshTypeCheck_toNode`: the code of the type checked tree is the code of the expression.
* `compileStatements_toNodes`: the code of a list of statements.
-/

namespace RtThread.Finsh

open Function Op

abbrev Var := Fin finshVariableMax

inductive Expr
  | int (v : Long)
  | long (v : Long)
  | var (x : Var)
  | bin (op : BinOp) (l r : Expr)
  | not (e : Expr)
  | assign (x : Var) (e : Expr)
  | preinc (x : Var)
  | predec (x : Var)
  | inc (x : Var)
  | dec (x : Var)
  deriving DecidableEq, Repr

namespace Expr

/-! ## Direct evaluation -/

/-- The values of the variables. -/
abbrev Env := Var → Long

/-- The value of an expression and the variables after it; none if it divides by zero. The left
operand comes first. -/
def eval : Expr → Env → Option (Long × Env)
  | int v, env => some (v, env)
  | long v, env => some (v, env)
  | var x, env => some (env x, env)
  | bin op l r, env => do
    let (a, env) ← l.eval env
    let (b, env) ← r.eval env
    let v ← op.apply a b
    some (v, env)
  | not e, env => do
    let (v, env) ← e.eval env
    some (~~~v, env)
  | assign x e, env => do
    let (v, env) ← e.eval env
    some (v, update env x v)
  | preinc x, env => some (env x + 1, update env x (env x + 1))
  | predec x, env => some (env x - 1, update env x (env x - 1))
  | inc x, env => some (env x, update env x (env x + 1))
  | dec x, env => some (env x, update env x (env x - 1))

/-- The values of statements that are evaluated one after the other. -/
def evalAll : List Expr → Env → Option (List Long × Env)
  | [], env => some ([], env)
  | e :: es, env => do
    let (v, env) ← e.eval env
    let (vs, env) ← evalAll es env
    some (v :: vs, env)

/-- The variables of an expression have the type `int` or `long`. -/
def IntVars (type : Var → FinshType) : Expr → Prop
  | int _ | long _ => True
  | var x | preinc x | predec x | inc x | dec x => type x = .int ∨ type x = .long
  | bin _ l r => l.IntVars type ∧ r.IntVars type
  | not e => e.IntVars type
  | assign x e => (type x = .int ∨ type x = .long) ∧ e.IntVars type

/-! ## Trees -/

end Expr

/-- The node type of an operator. -/
def BinOp.nodeType : BinOp → NodeType
  | add => .sysAdd
  | sub => .sysSub
  | div => .sysDiv
  | mod => .sysMod
  | mul => .sysMul
  | and => .sysAnd
  | or => .sysOr
  | xor => .sysXor
  | shl => .sysShl
  | shr => .sysShr

namespace Expr

/-- The node of a variable (`finsh_node_new_id`). -/
def varNode (x : Var) (sibling : Node) : Node :=
  .mk { nodeType := .id, symbol := some (.var x) } .null sibling

/-- The tree of an expression, with its next sibling. -/
def toNode : Expr → Node → Node
  | int v, sibling => .mk { nodeType := .valueInt, value := v } .null sibling
  | long v, sibling => .mk { nodeType := .valueLong, value := v } .null sibling
  | var x, sibling => varNode x sibling
  | bin op l r, sibling => .mk { nodeType := op.nodeType } (l.toNode (r.toNode .null)) sibling
  | not e, sibling => .mk { nodeType := .sysBitwise } (e.toNode .null) sibling
  | assign x e, sibling => .mk { nodeType := .sysAssign } (varNode x (e.toNode .null)) sibling
  | preinc x, sibling => .mk { nodeType := .sysPreinc } (varNode x .null) sibling
  | predec x, sibling => .mk { nodeType := .sysPredec } (varNode x .null) sibling
  | inc x, sibling => .mk { nodeType := .sysInc } (varNode x .null) sibling
  | dec x, sibling => .mk { nodeType := .sysDec } (varNode x .null) sibling

/-- The trees of statements, linked as siblings. -/
def toNodes : List Expr → Node
  | [] => .null
  | e :: es => e.toNode (toNodes es)

theorem isNull_toNode (e : Expr) (sibling : Node) : (e.toNode sibling).isNull = false := by
  cases e <;> rfl

/-! ## Code -/

variable (g : Globals)

/-- The address of the variable, the code, and the store. -/
def storeCode (x : Var) (code : List Byte) : List Byte :=
  instr (.ld .dword) .dword (g.value x) ++ code ++ [(st .dword).code]

/-- The code of `x` plus or minus one. -/
def stepCode (op : BinOp) (x : Var) : List Byte :=
  instr (.ldValue .dword) .dword (g.value x) ++ instr (.ld .dword) .dword 1 ++
    [(Op.bin op .dword).code]

def code : Expr → List Byte
  | int v | long v => instr (.ld .dword) .dword v
  | var x => instr (.ldValue .dword) .dword (g.value x)
  | bin op l r => l.code ++ r.code ++ [(Op.bin op .dword).code]
  | not e => e.code ++ [(bitwise .dword).code]
  | assign x e => storeCode g x e.code ++ [(ldValueStack .dword).code]
  | preinc x => storeCode g x (stepCode g .add x) ++ [(ldValueStack .dword).code]
  | predec x => storeCode g x (stepCode g .sub x) ++ [(ldValueStack .dword).code]
  | inc x =>
    instr (.ldValue .dword) .dword (g.value x) ++ storeCode g x (stepCode g .add x) ++ [pop.code]
  | dec x =>
    instr (.ldValue .dword) .dword (g.value x) ++ storeCode g x (stepCode g .sub x) ++ [pop.code]

/-- The code of statements: each value but the last one is popped. -/
def codeAll : List Expr → List Byte
  | [] => []
  | [e] => e.code g
  | e :: es => e.code g ++ [pop.code] ++ codeAll es

/-! ## The compiler writes it -/

variable {g} {t : FinshType}

theorem finshCompile_sibling (n : Info) (child sibling : Node) :
    finshCompile g (.mk n child sibling) =
      (finshCompile g (.mk n child .null)).andThen (finshCompile g sibling) := by
  simp [finshCompile, Output.andThen]

/-- A node as the type checker leaves it, with the code of an expression. -/
structure Checked (g : Globals) (code : List Byte) (n : Info) (child : Node) : Prop where
  dataType : n.dataType = dataTypeDword
  compiled : finshCompile g (.mk n child .null) = (code, [])

theorem dataTypeWidth_dword : dataTypeWidth dataTypeDword = some .dword := rfl

theorem typeWidth_eq (h : t = .int ∨ t = .long) : typeWidth t = some .dword := by
  obtain rfl | rfl := h <;> rfl

theorem typeDataType_eq (h : t = .int ∨ t = .long) (old : Byte) :
    typeDataType old t = (dataTypeDword, []) := by
  obtain rfl | rfl := h <;> rfl

variable {x : Var}

/-- A variable is checked: its address is loaded if that is wanted, or else its value. -/
theorem finshTypeCheck_varNode (hx : g.type x = .int ∨ g.type x = .long)
    (sibling : Node) (isAddr : Bool) :
    finshTypeCheck g (varNode x sibling) isAddr =
      (.mk { nodeType := .id, dataType := dataTypeDword, symbol := some (.var x),
             address := isAddr } .null (finshTypeCheck g sibling false).1,
        (finshTypeCheck g sibling false).2) := by
  simp [varNode, finshTypeCheck, leafDataType, Info.markAddr, Info.isSyscall, typeDataType_eq hx]

theorem codeNode_var (hx : g.type x = .int ∨ g.type x = .long) (isAddr : Bool) (child : Node) :
    codeNode g { nodeType := .id, dataType := dataTypeDword, symbol := some (.var x),
                 address := isAddr } child =
      (instr (if isAddr then .ld .dword else .ldValue .dword) .dword (g.value x), []) := by
  simp [codeNode, codeId, codeVariable, typeWidth_eq hx]

variable (op : BinOp)

theorem codeNode_bin {d : Byte} (hd : d = dataTypeDword) (child : Node) :
    codeNode g { nodeType := op.nodeType, dataType := d } child =
      ([(Op.bin op .dword).code], []) := by
  subst hd
  cases op <;> rfl

@[simp]
theorem finshTypeCheck_null (isAddr : Bool) : finshTypeCheck g .null isAddr = (.null, []) := by
  rw [finshTypeCheck]

variable {t : NodeType}

/-- A node gets the data type of its first child. -/
theorem finshTypeCheck_node {isAddr : Bool} {child c₁ c₂ : Node} {c : Info}
    {errors : List FinshError} (ht : childIsAddr t false = isAddr)
    (h : finshTypeCheck g child isAddr = (.mk c c₁ c₂, errors)) (sibling : Node) :
    finshTypeCheck g (.mk { nodeType := t } child sibling) false =
      (.mk { nodeType := t, dataType := c.dataType } (.mk c c₁ c₂)
        (finshTypeCheck g sibling false).1, errors ++ (finshTypeCheck g sibling false).2) := by
  subst ht
  simp [finshTypeCheck, h, Info.markAddr, Info.isSyscall]

theorem childIsAddr_bin : childIsAddr op.nodeType false = false := by
  cases op <;> rfl

theorem finshCompile_varNode (hx : g.type x = .int ∨ g.type x = .long) (isAddr : Bool)
    (sibling : Node) :
    finshCompile g (.mk { nodeType := .id, dataType := dataTypeDword, symbol := some (.var x),
                          address := isAddr } .null sibling) =
      Output.andThen (instr (if isAddr then .ld .dword else .ldValue .dword) .dword (g.value x), [])
        (finshCompile g sibling) := by
  rw [finshCompile, codeNode_var hx]
  rfl

theorem finshTypeCheck_value (ht : t = .valueInt ∨ t = .valueLong) (v : Long) (sibling : Node) :
    finshTypeCheck g (.mk { nodeType := t, value := v } .null sibling) false =
      (.mk { nodeType := t, dataType := dataTypeDword, value := v } .null
        (finshTypeCheck g sibling false).1, (finshTypeCheck g sibling false).2) := by
  obtain rfl | rfl := ht <;> simp [finshTypeCheck, leafDataType, Info.markAddr, Info.isSyscall]

theorem checked_value (ht : t = .valueInt ∨ t = .valueLong) (v : Long) :
    Checked g (instr (.ld .dword) .dword v)
      { nodeType := t, dataType := dataTypeDword, value := v } .null where
  dataType := rfl
  compiled := by
    obtain rfl | rfl := ht <;> simp [finshCompile, codeNode, Output.andThen]

/-- A variable that is loaded and stored again. -/
theorem codeStep_dword (x : Var) :
    codeStep g op .dword (some (.var x)) = stepCode g op x ++ [(st .dword).code] := by
  simp [codeStep, stepCode, Globals.pointer, Globals.value]

/-- The code of the four steps by one, behind the code of their variable. -/
theorem checked_step {isAddr : Bool} {own code : List Byte}
    (hx : g.type x = .int ∨ g.type x = .long)
    (hown : codeNode g { nodeType := t, dataType := dataTypeDword }
      (.mk { nodeType := .id, dataType := dataTypeDword, symbol := some (.var x),
             address := isAddr } .null .null) = (own, []))
    (hcode : code =
      instr (if isAddr then .ld .dword else .ldValue .dword) .dword (g.value x) ++ own) :
    Checked g code { nodeType := t, dataType := dataTypeDword }
      (.mk { nodeType := .id, dataType := dataTypeDword, symbol := some (.var x),
             address := isAddr } .null .null) where
  dataType := rfl
  compiled := by
    rw [finshCompile, hown, finshCompile_varNode hx, finshCompile, hcode]
    simp [Output.andThen]

/-- The tree of an expression is checked without an error, and its code is the one of the
expression. -/
theorem finshTypeCheck_toNode {e : Expr} (h : e.IntVars g.type) (sibling : Node) :
    ∃ n child, finshTypeCheck g (e.toNode sibling) false =
        (.mk n child (finshTypeCheck g sibling false).1, (finshTypeCheck g sibling false).2) ∧
      Checked g (e.code g) n child := by
  induction e generalizing sibling with
  | int v => exact ⟨_, _, finshTypeCheck_value (.inl rfl) v sibling, checked_value (.inl rfl) v⟩
  | long v => exact ⟨_, _, finshTypeCheck_value (.inr rfl) v sibling, checked_value (.inr rfl) v⟩
  | var x =>
    rw [toNode, finshTypeCheck_varNode h]
    exact ⟨_, _, rfl, rfl, finshCompile_varNode h false .null⟩
  | bin op l r ihl ihr =>
    obtain ⟨nr, cr, hr, hcr⟩ := ihr h.2 .null
    obtain ⟨nl, cl, hl, hcl⟩ := ihl h.1 (r.toNode .null)
    simp only [hr, finshTypeCheck_null] at hl
    rw [toNode, finshTypeCheck_node (childIsAddr_bin op) hl]
    refine ⟨_, _, rfl, hcl.dataType, ?_⟩
    rw [finshCompile, codeNode_bin op hcl.dataType, finshCompile_sibling, hcl.compiled,
      hcr.compiled]
    simp [Output.andThen, finshCompile, code]
  | not e ih =>
    obtain ⟨n, c, hn, hc⟩ := ih h .null
    rw [finshTypeCheck_null] at hn
    rw [toNode, finshTypeCheck_node rfl hn]
    refine ⟨_, _, rfl, hc.dataType, ?_⟩
    rw [finshCompile, codeNode, hc.compiled]
    simp [Output.andThen, finshCompile, code, codeOp, hc.dataType, dataTypeWidth_dword]
  | assign x e ih =>
    obtain ⟨n, c, hn, hc⟩ := ih h.2 .null
    have hvar := finshTypeCheck_varNode h.1 (e.toNode .null) true
    simp only [hn, finshTypeCheck_null] at hvar
    rw [toNode, finshTypeCheck_node rfl hvar]
    refine ⟨_, _, rfl, rfl, ?_⟩
    rw [finshCompile, codeNode, finshCompile_varNode h.1, hc.compiled]
    simp [Output.andThen, finshCompile, code, storeCode, codeAssign, codeStore, dataTypeWidth_dword]
  | preinc x | predec x =>
    rw [toNode, finshTypeCheck_node rfl (finshTypeCheck_varNode h .null true)]
    refine ⟨_, _, rfl, checked_step h rfl ?_⟩
    simp [code, storeCode, codePre, dataTypeWidth_dword, codeStep_dword]
  | inc x | dec x =>
    rw [toNode, finshTypeCheck_node rfl (finshTypeCheck_varNode h .null false)]
    refine ⟨_, _, rfl, checked_step h rfl ?_⟩
    simp [code, storeCode, codePost, dataTypeWidth_dword, codeStep_dword, Globals.pointer,
      Globals.value]

theorem isNull_finshTypeCheck (node : Node) (isAddr : Bool) :
    (finshTypeCheck g node isAddr).1.isNull = node.isNull := by
  cases node with
  | null => rw [finshTypeCheck_null]
  | mk n child sibling =>
    rw [finshTypeCheck]
    split <;> rfl

/-- The statements are compiled one after the other. -/
theorem compileStatements_toNodes {es : List Expr} (h : ∀ e ∈ es, e.IntVars g.type) :
    ∃ node, finshTypeCheck g (toNodes es) false = (node, []) ∧
      compileStatements g node = (codeAll g es, []) := by
  induction es with
  | nil => exact ⟨_, finshTypeCheck_null false, rfl⟩
  | cons e es ih =>
    obtain ⟨node, hnode, hcompiled⟩ := ih fun e' he' => h e' (List.mem_cons_of_mem e he')
    obtain ⟨n, child, hn, hc⟩ := finshTypeCheck_toNode (h e List.mem_cons_self) (toNodes es)
    rw [hnode] at hn
    refine ⟨_, hn, ?_⟩
    rw [compileStatements, hc.compiled, hcompiled]
    cases es with
    | nil =>
      obtain rfl : Node.null = node := by simpa [toNodes] using hnode
      simp [Node.isNull, Output.andThen, codeAll]
    | cons e' es =>
      have hnull : node.isNull = false := by
        have h := isNull_finshTypeCheck (g := g) (toNodes (e' :: es)) false
        rwa [hnode, toNodes, isNull_toNode] at h
      simp [hnull, Output.andThen, codeAll]

end Expr

end RtThread.Finsh
