import RtThread.Finsh.RunLine
import RtThread.Finsh.TypeCheck

/-!
# The size of the code

The compiler writes into `text_segment` without a look at its end. `Node.size` counts the bytes
of a tree from the kinds of its nodes and the types of its identifiers.

* `length_finshCompile`: the code of a tree has that size.
* `lineSize_le`: a line without `++` and `--` that fits the node table fits the text segment.
* `codeSize_iff`: the code of a line stays inside the text segment if and only if its size does.
-/

namespace RtThread.Finsh

open Nat Node

variable {g : Globals} {n : Info} {node : Node}

/-! ## Sizes -/

/-- The size of an operation that is written if its data type has a width. -/
def opSize (d : Byte) : ℕ := if (dataTypeWidth d).isSome then 1 else 0

/-- The size of the code for a variable of the type. -/
def variableSize (type : FinshType) : ℕ := if (typeWidth type).isSome then 5 else 0

def idSize (g : Globals) : Option Symbol → ℕ
  | some (.syscall ..) => 5
  | some (.sysvar _ type _) => variableSize type
  | some (.var v) => variableSize (g.type v)
  | none => 0

namespace Node

/-- The node is an identifier. -/
def isId : Node → Bool
  | null => false
  | mk n _ _ => n.nodeType == .id

end Node

/-- A step by one: load the value and the one, add, store, and `more` bytes. -/
def stepSize (d : Byte) (child : Node) (more : ℕ) : ℕ :=
  if child.isId then ((dataTypeWidth d).map fun width => 8 + width.size + more).getD 0 else 0

/-- Store, and load the value again. -/
def storeSize (g : Globals) : Node → ℕ
  | .null => 0
  | .mk c child sibling =>
    if c.nodeType = .id then 2 * opSize ((mk c child sibling).dataType g)
    else if c.nodeType = .sysGetvalue then
      2 * opSize ((mk c child sibling).dataType g &&& 0x0F)
    else 0

/-- The size of the code of the node itself, for a node of the data type `d`. -/
def nodeSize (g : Globals) (n : Info) (d : Byte) (isAddr : Bool) (child : Node) : ℕ :=
  match n.nodeType with
  | .id => idSize g n.symbol
  | .valueChar => 2
  | .valueInt | .valueLong | .valueNull | .valueString => 5
  | .sysAdd | .sysSub | .sysMul | .sysDiv | .sysMod | .sysAnd | .sysOr | .sysXor | .sysBitwise
  | .sysShl | .sysShr => opSize d
  | .sysFunc => if child.isNull then 0 else 2
  | .sysAssign => storeSize g child
  | .sysPreinc | .sysPredec => stepSize d child 1
  | .sysInc | .sysDec => stepSize d child 6
  | .sysNull => 4
  | .sysGetvalue => if (n.markAddr isAddr).address then 0 else opSize d
  | .sysGetaddr | .unknown | .sysCast => 0

namespace Node

/-- The size of the code of a tree and its siblings. -/
def size (g : Globals) : Node → Bool → ℕ
  | null, _ => 0
  | mk n child sibling, isAddr =>
    child.size g (childIsAddr n.nodeType isAddr) +
      nodeSize g n ((mk n child sibling).dataType g) isAddr child + sibling.size g false

/-- The size of the code of a line, with one byte more between two statements. -/
def lineSize (g : Globals) : Node → ℕ
  | null => 0
  | mk n child sibling =>
    (mk n child null).size g false + (if sibling.isNull then 0 else 1) + sibling.lineSize g

end Node

/-! ## The compiler writes as much -/

theorem length_codeVariable (address : Bool) (type : FinshType) (a : Long) :
    (codeVariable address type a).length = variableSize type := by
  unfold codeVariable variableSize
  cases typeWidth type <;> simp [length_instr]

theorem length_codeOp (n : Info) (op : Width → Op) : (codeOp n op).length = opSize n.dataType := by
  unfold codeOp opSize
  cases dataTypeWidth n.dataType <;> simp

theorem length_codeStore (d : Byte) : (codeStore d).1.length = 2 * opSize d := by
  unfold codeStore opSize
  cases dataTypeWidth d <;> simp

variable (op : BinOp)

theorem length_codeStep (width : Width) (var : Option Symbol) :
    (codeStep g op width var).length = 8 + width.size := by
  cases width <;> rfl

theorem length_codePre_codePost (n : Info) (child : Node) (isAddr : Bool) :
    (codePre g op n (finshTypeCheck g child isAddr).1).length = stepSize n.dataType child 1 ∧
    (codePost g op n (finshTypeCheck g child isAddr).1).length = stepSize n.dataType child 6 := by
  obtain ⟨rfl, h⟩ | ⟨c, cc, cs, c', cc', cs', rfl, h, htype, -⟩ :=
    finshTypeCheck_child g child isAddr
  · exact ⟨rfl, rfl⟩
  · rw [h, codePre, codePost, htype, stepSize, stepSize, isId]
    by_cases hid : c.nodeType = .id
    · cases dataTypeWidth n.dataType with
      | none => simp [hid]
      | some width =>
        simp [hid, length_codeStep, length_instr]
        omega
    · simp [hid]

theorem length_codeAssign (child : Node) (isAddr : Bool) :
    (codeAssign (finshTypeCheck g child isAddr).1).1.length = storeSize g child := by
  obtain ⟨rfl, h⟩ | ⟨c, cc, cs, c', cc', cs', rfl, h, htype, hdata⟩ :=
    finshTypeCheck_child g child isAddr
  · rfl
  · rw [h, codeAssign, storeSize, htype, hdata]
    split_ifs <;> simp [length_codeStore]

theorem length_codeFunc (child : Node) (isAddr : Bool) :
    (codeFunc (finshTypeCheck g child isAddr).1).length = if child.isNull then 0 else 2 := by
  obtain ⟨rfl, h⟩ | ⟨c, cc, cs, c', cc', cs', rfl, h, -, -⟩ := finshTypeCheck_child g child isAddr
  · rfl
  · rw [h]
    rfl

theorem length_codeId (n : Info) : (codeId g n).length = idSize g n.symbol := by
  unfold codeId idSize
  split <;> simp [length_codeVariable, length_instr, *]

variable (g : Globals)

theorem length_codeNode (n : Info) (d : Byte) (isAddr b : Bool) (child : Node) :
    (codeNode g { n.markAddr isAddr with dataType := d } (finshTypeCheck g child b).1).1.length =
      nodeSize g n d isAddr child := by
  have htype : (n.markAddr isAddr).nodeType = n.nodeType := by
    unfold Info.markAddr
    split <;> rfl
  have hsymbol : (n.markAddr isAddr).symbol = n.symbol := by
    unfold Info.markAddr
    split <;> rfl
  unfold codeNode nodeSize
  simp only [htype]
  cases n.nodeType <;>
    simp [length_codeId, hsymbol, length_codeOp, length_codeFunc, length_codeAssign,
      length_codePre_codePost, instr, codeLong]
  case sysGetvalue => split <;> simp [length_codeOp]

/-- The code of a checked tree has the size of the tree. -/
theorem length_finshCompile (node : Node) (isAddr : Bool) :
    (finshCompile g (finshTypeCheck g node isAddr).1).1.length = node.size g isAddr := by
  induction node generalizing isAddr with
  | null =>
    rfl
  | mk n child sibling ihc ihs =>
    rw [finshTypeCheck_mk, finshCompile, Node.size, Output.andThen, Output.andThen]
    simp only [List.length_append]
    rw [ihc, ihs, length_codeNode]

/-- The code of a checked line has the size of the line. -/
theorem length_compileStatements (node : Node) :
    (compileStatements g (finshTypeCheck g node false).1).1.length = node.lineSize g := by
  induction node with
  | null =>
    rfl
  | mk n child sibling _ ihs =>
    have hone := length_finshCompile g (.mk n child .null) false
    rw [finshTypeCheck_mk, ← dataType_sibling g n child sibling] at hone
    rw [finshTypeCheck_mk, compileStatements, lineSize, Expr.isNull_finshTypeCheck, ← hone,
      ← ihs]
    cases sibling.isNull
    · simp [Output.andThen, add_assoc, add_comm 1]
    · simp [Output.andThen]

/-! ## Lines without `++` and `--` -/

namespace Node

/-- The number of nodes of a tree and its siblings. -/
def total : Node → ℕ
  | null => 0
  | mk _ child sibling => child.total + sibling.total + 1

/-- No node is a step by one. -/
def Stepless : Node → Prop
  | null => True
  | mk n child sibling =>
    n.nodeType ∉ [.sysPreinc, .sysPredec, .sysInc, .sysDec] ∧ child.Stepless ∧ sibling.Stepless

end Node

theorem opSize_le (d : Byte) : opSize d ≤ 1 := by
  unfold opSize
  split <;> omega

theorem variableSize_le (type : FinshType) : variableSize type ≤ 5 := by
  unfold variableSize
  split <;> omega

theorem storeSize_le (child : Node) : storeSize g child ≤ 2 := by
  unfold storeSize
  split
  · omega
  · split_ifs
    · exact mul_le_mul_left 2 (opSize_le _)
    · exact mul_le_mul_left 2 (opSize_le _)
    · omega

theorem nodeSize_le (h : n.nodeType ∉ [NodeType.sysPreinc, .sysPredec, .sysInc, .sysDec])
    (g : Globals) (d : Byte) (isAddr : Bool) (child : Node) :
    nodeSize g n d isAddr child ≤ 5 := by
  have hop := opSize_le d
  have hstore := storeSize_le g child
  have hid : idSize g n.symbol ≤ 5 := by
    unfold idSize
    split
    · exact le_rfl
    · exact variableSize_le _
    · exact variableSize_le _
    · exact zero_le 5
  unfold nodeSize
  cases hn : n.nodeType <;> simp [hn] at h ⊢ <;> first | omega | (split <;> omega)

theorem size_le (h : node.Stepless) (g : Globals) (isAddr : Bool) :
    node.size g isAddr ≤ 5 * node.total := by
  induction node generalizing isAddr with
  | null => exact le_rfl
  | mk n child sibling ihc ihs =>
    have hc := ihc h.2.1 (childIsAddr n.nodeType isAddr)
    have hs := ihs h.2.2 false
    have hn := nodeSize_le h.1 g ((mk n child sibling).dataType g) isAddr child
    simp only [Node.size, Node.total]
    omega

theorem isSome_finshCompilerRun (stack : ℕ → Long) (node : Node) :
    (finshCompilerRun g stack node).isSome ↔ node.lineSize g ≤ finshTextMax := by
  rw [← length_compileStatements]
  simp only [finshCompilerRun, textSegment]
  split <;> simp [*]

/-- The code of a line stays inside the text segment if and only if the sizes of its nodes, and one
byte between two statements, add up to no more than `FINSH_TEXT_MAX`. -/
theorem codeSize_iff (rt : Runtime) (vars : Fin finshVariableMax → VarEntry)
    (globalVariable : Long) (stack : ℕ → Long) (tokens : List Token) :
    let r := finshParserRun rt { vars := vars } tokens
    let g := r.2.core.globals globalVariable
    (finshCompilerRun g stack r.1).isSome ↔ r.1.lineSize g ≤ finshTextMax := by
  intro r g
  exact isSome_finshCompilerRun g stack r.1

/-- The line `a++;`, six times. -/
def sixIncrements : List Token :=
  (List.replicate 6 [{ type := .identifier, string := [0x61] }, { type := .inc },
    { type := .semicolon }]).flatten

/-- The parser accepts the line, and uses 12 of the 16 nodes; its code has 143 bytes. -/
theorem code_leaves_text :
    let r := finshParserRun sampleRuntime { vars := sampleVars } sixIncrements
    r.2.core.Clean ∧ r.2.core.nodes = 12 ∧
      finshCompilerRun (r.2.core.globals 0x20000000) (fun _ => 0) r.1 = none := by
  intro r
  refine ⟨⟨rfl, rfl, rfl⟩, rfl, ?_⟩
  rw [← Option.not_isSome_iff_eq_none, isSome_finshCompilerRun]
  decide

end RtThread.Finsh
