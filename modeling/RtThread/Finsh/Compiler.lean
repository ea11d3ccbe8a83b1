import RtThread.Finsh.Vm

/-!
# The compiler of FinSH

`components/finsh/finsh_compiler.c`. `finsh_type_check` marks the nodes whose address is
wanted and gives each node the data type of its first child; `finsh_compile` writes the code
of the children, of the node and of its siblings, in this order.
-/

namespace RtThread.Finsh

open Op

/-! ## The variables -/

/-- `sizeof(struct finsh_var)`. -/
def finshVarSize : ℕ := 24

/-- The offset of `value` in `struct finsh_var`. -/
def valueOffset : Long := 20

/-- What the compiler knows of `global_variable`: its address and the types in it. -/
structure Globals where
  globalVariable : Long
  type : Fin finshVariableMax → FinshType

namespace Globals

variable (g : Globals)

/-- `&global_variable[v]`. -/
def entry (v : Fin finshVariableMax) : Long := g.globalVariable + BitVec.ofNat 32 (finshVarSize * v)

/-- `&(global_variable[v].value)`. -/
def value (v : Fin finshVariableMax) : Long := g.entry v + valueOffset

/-- The pointer in the union `id` of a node. -/
def pointer : Option Symbol → Long
  | none => 0
  | some (.var v) => g.entry v
  | some (.sysvar entry _ _) => entry
  | some (.syscall entry _) => entry

end Globals

/-! ## `finsh_type_check` -/

/-- The data type of a variable of the type, and the error that is set. -/
def typeDataType (old : Byte) : FinshType → Byte × List FinshError
  | .void => (dataTypeVoid, [])
  | .char | .uchar => (dataTypeByte, [])
  | .short | .ushort => (dataTypeWord, [])
  | .int | .uint | .long | .ulong => (dataTypeDword, [])
  | .charp | .voidp | .shortp | .intp | .longp => (dataTypeDword, [])
  | .unknown => (old, [.unknownType])

/-- The data type of a node without children. -/
def leafDataType (g : Globals) (n : Info) : Byte × List FinshError :=
  match n.nodeType with
  | .id =>
    match n.symbol with
    | some (.var v) => typeDataType n.dataType (g.type v)
    | some (.sysvar _ type _) => typeDataType n.dataType type
    | _ => (n.dataType, [])
  | .valueChar => (dataTypeByte, [])
  | .valueInt | .valueLong | .valueString | .valueNull => (dataTypeDword, [])
  | _ => (n.dataType, [])

/-- Whether the first child of a node is to give an address. -/
def childIsAddr (nodeType : NodeType) (isAddr : Bool) : Bool :=
  match nodeType with
  | .sysAssign | .sysPreinc | .sysPredec | .sysGetaddr => true
  | .sysGetvalue => if isAddr then false else isAddr
  | _ => isAddr

/-- The bits of `idtype` are `FINSH_IDTYPE_SYSCALL` alone. -/
def Info.isSyscall (n : Info) : Bool :=
  match n.symbol with
  | some (.syscall ..) => !n.address
  | _ => false

def Info.markAddr (n : Info) (isAddr : Bool) : Info :=
  if n.isSyscall then n else { n with address := n.address || isAddr }

/-- `finsh_type_check`, with the errors it sets. -/
def finshTypeCheck (g : Globals) : Node → Bool → Node × List FinshError
  | .null, _ => (.null, [])
  | .mk n child sibling, isAddr =>
    let c := finshTypeCheck g child (childIsAddr n.nodeType isAddr)
    let s := finshTypeCheck g sibling false
    let n := n.markAddr isAddr
    match c.1 with
    | .mk info _ _ => (.mk { n with dataType := info.dataType } c.1 s.1, c.2 ++ s.2)
    | .null =>
      let d := leafDataType g n
      (.mk { n with dataType := d.1 } .null s.1, c.2 ++ s.2 ++ d.2)

/-! ## `finsh_compile` -/

/-- The bytes that are written, and the errors that are set. -/
abbrev Output := List Byte × List FinshError

def Output.andThen (o o' : Output) : Output := (o.1 ++ o'.1, o.2 ++ o'.2)

/-- `finsh_code_word` and `finsh_code_dword`. -/
def codeLong (v : Long) : Width → List Byte
  | .byte => [ByteMemory.byteOf v 0]
  | .word => [ByteMemory.byteOf v 0, ByteMemory.byteOf v 1]
  | .dword => (List.range 4).map (ByteMemory.byteOf v)

/-- An instruction and its operand. -/
def instr (op : Op) (width : Width) (v : Long) : List Byte := op.code :: codeLong v width

/-- The width of the code for the data type. -/
def dataTypeWidth (d : Byte) : Option Width :=
  if d = dataTypeByte then some .byte
  else if d = dataTypeWord then some .word
  else if d = dataTypeDword then some .dword
  else none

/-- The width of the code for a variable of the type. -/
def typeWidth : FinshType → Option Width
  | .char | .uchar => some .byte
  | .short | .ushort => some .word
  | .int | .uint | .long | .ulong | .charp | .shortp | .intp | .longp => some .dword
  | .unknown | .void | .voidp => none

/-- Load a variable at `a`, or its address. -/
def codeVariable (address : Bool) (type : FinshType) (a : Long) : List Byte :=
  match typeWidth type with
  | some width => instr (if address then .ld .dword else .ldValue width) .dword a
  | none => []

def codeId (g : Globals) (n : Info) : List Byte :=
  match n.symbol with
  | some (.syscall _ func) => instr (.ld .dword) .dword func
  | some (.sysvar _ type var) => codeVariable n.address type var
  | some (.var v) => codeVariable n.address (g.type v) (g.value v)
  | none => []

/-- One operation, in the width of the data type. -/
def codeOp (n : Info) (op : Width → Op) : List Byte :=
  match dataTypeWidth n.dataType with
  | some width => [(op width).code]
  | none => []

/-- Store, and load the value again. -/
def codeStore (d : Byte) : Output :=
  match dataTypeWidth d with
  | some width => ([(st width).code, (ldValueStack width).code], [])
  | none => ([], [.unknownType])

/-- Load the variable, add or subtract one, and store the result; `var` is the union `id` of the
child, whatever the child is. -/
def codeStep (g : Globals) (op : BinOp) (width : Width) (var : Option Symbol) : List Byte :=
  instr (.ldValue width) .dword (g.pointer var + valueOffset) ++ instr (.ld width) width 1 ++
    [(bin op width).code, (st width).code]

/-- `FINSH_NODE_SYS_PREINC` and `FINSH_NODE_SYS_PREDEC`. -/
def codePre (g : Globals) (op : BinOp) (n : Info) : Node → List Byte
  | .mk c _ _ =>
    if c.nodeType = .id then
      match dataTypeWidth n.dataType with
      | some width => codeStep g op width c.symbol ++ [(ldValueStack .dword).code]
      | none => []
    else []
  | .null => []

/-- `FINSH_NODE_SYS_INC` and `FINSH_NODE_SYS_DEC`. -/
def codePost (g : Globals) (op : BinOp) (n : Info) : Node → List Byte
  | .mk c _ _ =>
    if c.nodeType = .id then
      match dataTypeWidth n.dataType with
      | some width =>
        instr (.ld .dword) .dword (g.pointer c.symbol + valueOffset) ++
          codeStep g op width c.symbol ++ [pop.code]
      | none => []
    else []
  | .null => []

/-- `FINSH_NODE_SYS_ASSIGN`. The code reads the type of the child even if there is none; the parser
builds no such node. -/
def codeAssign : Node → Output
  | .mk c _ _ =>
    if c.nodeType = .id then codeStore c.dataType
    else if c.nodeType = .sysGetvalue then codeStore (c.dataType &&& 0x0F)
    else ([], [])
  | .null => ([], [])

/-- `FINSH_NODE_SYS_FUNC`. The children are the function and its arguments. -/
def codeFunc : Node → List Byte
  | .mk _ _ arguments => [syscall.code, BitVec.ofNat 8 arguments.count]
  | .null => []

/-- The code of the node itself, behind that of its children. -/
def codeNode (g : Globals) (n : Info) (child : Node) : Output :=
  match n.nodeType with
  | .id => (codeId g n, [])
  | .valueChar => (instr (.ld .byte) .byte n.value, [])
  | .valueInt | .valueLong | .valueNull | .valueString => (instr (.ld .dword) .dword n.value, [])
  | .sysAdd => (codeOp n (.bin .add), [])
  | .sysSub => (codeOp n (.bin .sub), [])
  | .sysMul => (codeOp n (.bin .mul), [])
  | .sysDiv => (codeOp n (.bin .div), [])
  | .sysMod => (codeOp n (.bin .mod), [])
  | .sysAnd => (codeOp n (.bin .and), [])
  | .sysOr => (codeOp n (.bin .or), [])
  | .sysXor => (codeOp n (.bin .xor), [])
  | .sysBitwise => (codeOp n .bitwise, [])
  | .sysShl => (codeOp n (.bin .shl), [])
  | .sysShr => (codeOp n (.bin .shr), [])
  | .sysFunc => (codeFunc child, [])
  | .sysAssign => codeAssign child
  | .sysPreinc => (codePre g .add n child, [])
  | .sysPredec => (codePre g .sub n child, [])
  | .sysInc => (codePost g .add n child, [])
  | .sysDec => (codePost g .sub n child, [])
  | .sysNull => (codeLong 0 .dword, [])
  | .sysGetvalue => (if n.address then [] else codeOp n .ldValueStack, [])
  | .sysGetaddr => ([], [])
  | .unknown | .sysCast => ([], [.unknownNode])

/-- `finsh_compile`. -/
def finshCompile (g : Globals) : Node → Output
  | .null => ([], [])
  | .mk n child sibling =>
    ((finshCompile g child).andThen (codeNode g n child)).andThen (finshCompile g sibling)

/-! ## `finsh_compiler_run` -/

/-- The loop over the statements, each of which is compiled without its siblings. The value of a
statement is popped if another one follows. -/
def compileStatements (g : Globals) : Node → Output
  | .null => ([], [])
  | .mk n child sibling =>
    let o := finshCompile g (.mk n child .null)
    let o := if sibling.isNull then o else o.andThen ([pop.code], [])
    o.andThen (compileStatements g sibling)

/-- The text segment with the code in it, if the code fits. -/
def textSegment (code : List Byte) : Option (ℕ → Byte) :=
  if code.length ≤ finshTextMax then some fun i => code.getD i 0 else none

/-- What `finsh_compiler_run` leaves: the text segment, the stack and the errors. -/
structure Compiled where
  text : ℕ → Byte
  stack : ℕ → Long
  errors : List FinshError

/-- `finsh_compiler_run`. Only the first cell of the stack is cleared. -/
def finshCompilerRun (g : Globals) (stack : ℕ → Long) (node : Node) : Option Compiled := do
  let (node, errors) := finshTypeCheck g node false
  let (code, errors') := compileStatements g node
  let text ← textSegment code
  some { text := text, stack := Function.update stack 0 0, errors := errors ++ errors' }

end RtThread.Finsh
