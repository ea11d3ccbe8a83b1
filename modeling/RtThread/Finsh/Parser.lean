import RtThread.Finsh.Node

/-!
# The parser of FinSH

`components/finsh/finsh_parser.c`, with `finsh_node.c` and `finsh_var.c` as far as the parser
uses them. The tokens of the line are given: each has its type and what the tokenizer leaves in
`string` and `value`. What the symbol tables and the heap of the shell answer is given too.

Recursion and loops are bounded by a number of rounds. A parser that would need more gets the
mark `exhausted`, and one that writes through a null pointer the mark `fault`.
-/

namespace RtThread.Finsh

/-! ## Tokens -/

/-- `enum finsh_token_type`. -/
inductive TokenType
  | leftParen | rightParen | comma | semicolon | mul | add | inc | sub | dec | div | mod | assign
  | and | or | xor | bitwise | shl | shr | comments
  | void | char | short | int | long | unsigned
  | valueChar | valueInt | valueLong | valueString | valueNull
  | identifier | bad | eof
  deriving DecidableEq, Repr

/-- A token, with the text and the value that the tokenizer leaves behind with it. -/
structure Token where
  type : TokenType
  string : List Byte := []
  value : Long := 0
  deriving DecidableEq, Repr

/-! ## State -/

/-- `name` and `type` of a `struct finsh_var`. -/
structure VarEntry where
  name : List Byte := []
  type : FinshType := .unknown
  deriving DecidableEq, Repr

/-- The tables outside the parser: `finsh_sysvar_lookup` and `finsh_syscall_lookup` by name, and
where `finsh_heap_allocate` puts the last of the strings it has been asked for. -/
structure Runtime where
  sysvarLookup : List Byte → Option Symbol
  syscallLookup : List Byte → Option Symbol
  heapAllocate : List (List Byte) → Option Long

/-- What the parser changes beside the tokens: the number of nodes in `global_node_table`, the
variables, the strings on the heap, and the errors in the order they are set. -/
structure Core where
  nodes : ℕ := 0
  vars : Fin finshVariableMax → VarEntry
  strings : List (List Byte) := []
  errors : List FinshError := []
  fault : Bool := false
  exhausted : Bool := false

/-- The tokens that are still to come, the last token, and whether it is to be given again. -/
structure Parser where
  tokens : List Token
  current : Token
  replay : Bool
  core : Core

namespace Parser

variable (rt : Runtime) (p : Parser)

/-- The node that a function returns, and the parser after it. -/
abbrev Result := Node × Parser

/-- `finsh_error_set`. -/
def errorSet (e : FinshError) : Parser :=
  { p with core := { p.core with errors := p.core.errors ++ [e] } }

def setFault : Parser := { p with core := { p.core with fault := true } }

def setExhausted : Parser := { p with core := { p.core with exhausted := true } }

/-- `finsh_token_token`: at the end of the line the text and the value stay. -/
def nextToken : Parser :=
  if p.replay then { p with replay := false }
  else
    match p.tokens with
    | [] => { p with current := { p.current with type := .eof } }
    | t :: ts => { p with tokens := ts, current := t }

/-- `finsh_token_replay`. -/
def tokenReplay : Parser := { p with replay := true }

/-- `check_token`. -/
def checkToken (token type : TokenType) : Parser :=
  if token ≠ type then (p.errorSet .invalidToken).tokenReplay else p

/-- `match_token`. -/
def matchToken (type : TokenType) : Parser := p.nextToken.checkToken p.nextToken.current.type type

/-! ## Nodes -/

/-- `finsh_node_allocate` for a node that is filled with a value, or an error. -/
def nodeNew (info : Info) : Result :=
  if p.core.nodes < finshNodeMax then
    (.mk info .null .null, { p with core := { p.core with nodes := p.core.nodes + 1 } })
  else (.null, p.errorSet .memoryFull)

/-- `strncmp` of two names up to `FINSH_NAME_MAX`. -/
def sameName (s t : List Byte) : Bool := s.take finshNameMax == t.take finshNameMax

/-- `finsh_var_lookup`. -/
def varLookup (vars : Fin finshVariableMax → VarEntry) (name : List Byte) :
    Option (Fin finshVariableMax) :=
  (List.finRange finshVariableMax).find? fun v => sameName (vars v).name name

/-- The lookup of `finsh_node_new_id`: variables, system variables, system calls. -/
def symbolLookup (vars : Fin finshVariableMax → VarEntry) (name : List Byte) : Option Symbol :=
  match varLookup vars name with
  | some v => some (.var v)
  | none =>
    match rt.sysvarLookup name with
    | some s => some s
    | none => rt.syscallLookup name

/-- `finsh_node_new_id`. -/
def nodeNewId (id : List Byte) : Result :=
  match symbolLookup rt p.core.vars id with
  | some s => p.nodeNew { nodeType := .id, symbol := some s }
  | none => (.null, p.errorSet .unknownSymbol)

/-- `finsh_node_new_char`, of which only the low byte is set. -/
def nodeNewChar (v : Long) : Result := p.nodeNew { nodeType := .valueChar, value := v &&& 0xff }

/-- `finsh_node_new_int`. -/
def nodeNewInt (v : Long) : Result := p.nodeNew { nodeType := .valueInt, value := v }

/-- `finsh_node_new_long`. -/
def nodeNewLong (v : Long) : Result := p.nodeNew { nodeType := .valueLong, value := v }

/-- `finsh_node_new_ptr`. -/
def nodeNewPtr (v : Long) : Result := p.nodeNew { nodeType := .valueNull, value := v }

/-- `finsh_node_new_string`. The string is copied to where the heap says, also if that is nowhere.
-/
def nodeNewString (s : List Byte) : Result :=
  if p.core.nodes < finshNodeMax then
    let strings := p.core.strings ++ [s]
    let core := { p.core with nodes := p.core.nodes + 1, strings := strings }
    match rt.heapAllocate strings with
    | some a => (.mk { nodeType := .valueString, value := a } .null .null, { p with core := core })
    | none => (.mk { nodeType := .valueString } .null .null, { p with core := core }.setFault)
  else (.null, p.errorSet .memoryFull)

end Parser

namespace Node

/-- `finsh_node_sibling(node) = s`. -/
def setSibling : Node → Node → Node
  | null, _ => null
  | mk info child _, s => mk info child s

/-- `node->data_type = d`. -/
def setDataType : Node → Byte → Node
  | null, _ => null
  | mk info child sibling, d => mk { info with dataType := d } child sibling

/-- The list of siblings with another one at its end. -/
def append : Node → Node → Node
  | null, s => s
  | mk info child sibling, s => mk info child (sibling.append s)

/-- `finsh_node_sibling(node) = s` for the node `k` places on in the list. -/
def setSiblingAt : Node → ℕ → Node → Node
  | node, 0, s => node.setSibling s
  | null, _ + 1, _ => null
  | mk info child sibling, k + 1, s => mk info child (sibling.setSiblingAt k s)

end Node

namespace Parser

variable (rt : Runtime) (p : Parser)

/-- `make_sys_node`. -/
def makeSysNode (type : NodeType) (node1 node2 : Node) : Result :=
  if p.core.nodes < finshNodeMax then
    let p := { p with core := { p.core with nodes := p.core.nodes + 1 } }
    if node1.isNull then (.mk { nodeType := type } .null .null, p.errorSet .nullNode)
    else (.mk { nodeType := type } (node1.setSibling node2) .null, p)
  else (.null, p.errorSet .nullNode)

/-! ## Types and identifiers -/

/-- `is_base_type`. -/
def isBaseType : TokenType → Bool
  | .void | .char | .short | .int | .long => true
  | _ => false

/-- The type behind a type with a `*`. -/
def pointerType : FinshType → FinshType
  | .void => .voidp
  | .char | .uchar => .charp
  | .short | .ushort => .shortp
  | .int | .uint => .intp
  | .long | .ulong => .longp
  | _ => .voidp

/-- `parse for pointer` in `proc_type`. -/
def procPointer (type : FinshType) : FinshType × Parser :=
  let p := p.nextToken
  if p.current.type = .mul then (pointerType type, p) else (type, p.tokenReplay)

/-- The label `__return` of `proc_type`. -/
def unknownType (type : FinshType) : FinshType × Parser :=
  (type, p.tokenReplay.errorSet .unknownType)

/-- `proc_type`. -/
def procType : FinshType × Parser :=
  let p := p.nextToken
  match p.current.type with
  | .void => p.procPointer .void
  | .char => p.procPointer .char
  | .short => p.procPointer .short
  | .int => p.procPointer .int
  | .long => p.procPointer .long
  | .unsigned =>
    let p := p.nextToken
    match p.current.type with
    | .char => p.procPointer .uchar
    | .short => p.procPointer .ushort
    | .int => p.procPointer .uint
    | .long => p.procPointer .ulong
    | .void => p.unknownType .unknown
    | _ => (p.tokenReplay.errorSet .expectType).procPointer .unknown
  | _ => p.unknownType .unknown

/-- `proc_identifier`: the text of the token is taken even if it is no identifier. -/
def procIdentifier : List Byte × Parser :=
  let p := p.matchToken .identifier
  (p.current.string.take finshNameMax, p)

/-! ## Expressions

The functions that call each other are parameters of the ones below them: `assign` and `cast`
stand for `proc_assign_expr` and `proc_cast_expr`. -/

section Levels

variable (assign cast : Parser → Result)

/-- `proc_primary_expr`. -/
def procPrimaryExpr : Result :=
  let p := p.nextToken
  match p.current.type with
  | .identifier =>
    let r := p.tokenReplay.procIdentifier
    r.2.nodeNewId rt r.1
  | .leftParen =>
    let r := assign p
    (r.1, r.2.matchToken .rightParen)
  | .valueInt => p.nodeNewInt p.current.value
  | .valueLong => p.nodeNewLong p.current.value
  | .valueChar => p.nodeNewChar p.current.value
  | .valueString => p.nodeNewString rt p.current.string
  | .valueNull => p.nodeNewPtr 0
  | _ => (.null, p.errorSet .invalidToken)

/-- The loop of `proc_param_list` over the arguments behind the first. -/
def paramLoop : ℕ → Node → Parser → Result
  | 0, node, p => (node, p.setExhausted)
  | n + 1, node, p =>
    let p := p.nextToken
    if p.current.type = .comma then
      let r := assign p
      if r.1.isNull then paramLoop n node (r.2.errorSet .expectOperator)
      else paramLoop n (node.append r.1) r.2
    else (node, p.tokenReplay)

/-- `proc_param_list`. -/
def procParamList (n : ℕ) (p : Parser) : Result :=
  let r := assign p
  if r.1.isNull then (.null, r.2) else paramLoop assign n r.1 r.2

/-- The arguments of a call up to the closing parenthesis. -/
def procArguments (n : ℕ) (p : Parser) : Result :=
  let p := p.nextToken
  if p.current.type ≠ .rightParen then
    let r := procParamList assign n p.tokenReplay
    (r.1, r.2.matchToken .rightParen)
  else (.null, p)

/-- The loop of `proc_postfix_expr`. -/
def postfixLoop : ℕ → Node → Parser → Result
  | 0, node, p => (node, p.setExhausted)
  | n + 1, node, p =>
    let p := p.nextToken
    match p.current.type with
    | .inc =>
      let r := p.makeSysNode .sysInc node .null
      postfixLoop n r.1 r.2
    | .dec =>
      let r := p.makeSysNode .sysDec node .null
      postfixLoop n r.1 r.2
    | .leftParen =>
      let a := procArguments assign n p
      let r := a.2.makeSysNode .sysFunc node a.1
      postfixLoop n r.1 r.2
    | _ => (node, p.tokenReplay)

/-- `proc_postfix_expr`. -/
def procPostfixExpr (n : ℕ) : Result :=
  let r := p.procPrimaryExpr rt assign
  postfixLoop assign n r.1 r.2

/-- A node with what `proc_cast_expr` gives as its child. -/
def procUnary (type : NodeType) : Result :=
  let r := cast p
  r.2.makeSysNode type r.1 .null

/-- `proc_unary_expr`. -/
def procUnaryExpr (n : ℕ) : Result :=
  let q := p.nextToken
  match q.current.type with
  | .add => cast q
  | .inc => q.procUnary cast .sysPreinc
  | .sub =>
    let r := cast q
    let zero := r.2.nodeNewLong 0
    zero.2.makeSysNode .sysSub zero.1 r.1
  | .dec => q.procUnary cast .sysPredec
  | .bitwise => q.procUnary cast .sysBitwise
  | .mul => q.procUnary cast .sysGetvalue
  | .and => q.procUnary cast .sysGetaddr
  | _ => q.tokenReplay.procPostfixExpr rt assign n

/-- The loop of a binary level: operands by `next`, the nodes of the operators by `op`. -/
def binaryLoop (op : TokenType → Option NodeType) (next : Parser → Result) :
    ℕ → Node → Parser → Result
  | 0, node, p => (node, p.setExhausted)
  | n + 1, node, p =>
    let p := p.nextToken
    match op p.current.type with
    | some type =>
      let r := next p
      if r.1.isNull then binaryLoop op next n node (r.2.errorSet .expectOperator)
      else
        let s := r.2.makeSysNode type node r.1
        binaryLoop op next n s.1 s.2
    | none => (node, p.tokenReplay)

/-- A binary level. -/
def procBinary (op : TokenType → Option NodeType) (next : Parser → Result) (n : ℕ) (p : Parser) :
    Result :=
  let r := next p
  binaryLoop op next n r.1 r.2

def multiplicativeOp : TokenType → Option NodeType
  | .mul => some .sysMul
  | .div => some .sysDiv
  | .mod => some .sysMod
  | _ => none

def additiveOp : TokenType → Option NodeType
  | .sub => some .sysSub
  | .add => some .sysAdd
  | _ => none

def shiftOp : TokenType → Option NodeType
  | .shl => some .sysShl
  | .shr => some .sysShr
  | _ => none

def andOp : TokenType → Option NodeType
  | .and => some .sysAnd
  | _ => none

def exclusiveOrOp : TokenType → Option NodeType
  | .xor => some .sysXor
  | _ => none

def inclusiveOrOp : TokenType → Option NodeType
  | .or => some .sysOr
  | _ => none

/-- `proc_multiplicative_expr`. -/
def procMultiplicativeExpr (n : ℕ) : Parser → Result := procBinary multiplicativeOp cast n

/-- `proc_additive_expr`. -/
def procAdditiveExpr (n : ℕ) : Parser → Result :=
  procBinary additiveOp (procMultiplicativeExpr cast n) n

/-- `proc_shift_expr`. -/
def procShiftExpr (n : ℕ) : Parser → Result := procBinary shiftOp (procAdditiveExpr cast n) n

/-- `proc_and_expr`. -/
def procAndExpr (n : ℕ) : Parser → Result := procBinary andOp (procShiftExpr cast n) n

/-- `proc_exclusive_or_expr`. -/
def procExclusiveOrExpr (n : ℕ) : Parser → Result := procBinary exclusiveOrOp (procAndExpr cast n) n

/-- `proc_inclusive_or_expr`. -/
def procInclusiveOrExpr (n : ℕ) : Parser → Result :=
  procBinary inclusiveOrOp (procExclusiveOrExpr cast n) n

end Levels

mutual

/-- `proc_cast_expr`. -/
def procCastExpr (rt : Runtime) : ℕ → Parser → Result
  | 0, p => (.null, p.setExhausted)
  | n + 1, p =>
    let q := p.nextToken
    if q.current.type = .leftParen then
      let t := q.procType
      let r := procCastExpr rt n (t.2.matchToken .rightParen)
      if r.1.isNull then
        r.2.tokenReplay.procUnaryExpr rt (procAssignExpr rt n) (procCastExpr rt n) n
      else (r.1.setDataType t.1.code, r.2)
    else q.tokenReplay.procUnaryExpr rt (procAssignExpr rt n) (procCastExpr rt n) n

/-- `proc_assign_expr`, which is also `proc_expr`. -/
def procAssignExpr (rt : Runtime) : ℕ → Parser → Result
  | 0, p => (.null, p.setExhausted)
  | n + 1, p =>
    let r := procInclusiveOrExpr (procCastExpr rt n) n p
    let q := r.2.nextToken
    if q.current.type = .assign then
      let a := procAssignExpr rt n q
      a.2.makeSysNode .sysAssign r.1 a.1
    else (r.1, q.tokenReplay)

end

/-! ## Statements -/

/-- `proc_expr_statement`. -/
def procExprStatement (n : ℕ) : Result :=
  let q := p.nextToken
  if q.current.type ≠ .semicolon then
    let r := procAssignExpr rt n q.tokenReplay
    (r.1, r.2.matchToken .semicolon)
  else (.null, q)

/-- The place in which `finsh_var_insert` puts a new variable. -/
def varPlace (vars : Fin finshVariableMax → VarEntry) (name : List Byte) :
    Option (Fin finshVariableMax) :=
  if (varLookup vars name).isSome then none
  else (List.finRange finshVariableMax).find? fun v => (vars v).type == .unknown

/-- `finsh_var_insert`, and the error if there is no place. -/
def varInsert (name : List Byte) (type : FinshType) : Parser :=
  match varPlace p.core.vars name with
  | some v =>
    { p with core :=
      { p.core with vars := Function.update p.core.vars v { name := name, type := type } } }
  | none => p.errorSet .variableExist

/-- The identifier of a declarator is declared. -/
def declare (type : FinshType) : List Byte × Parser :=
  let r := p.procIdentifier
  (r.1, r.2.varInsert r.1 type)

/-- The value of a declarator, if the token behind its identifier says that there is one. The nodes
so far and the next token go with the parser. An assignment that does not fit the node table is an
error; the code would then also lose the end of its list. -/
def declInit (n : ℕ) (id : List Byte) (node : Node) (token : TokenType) :
    (Node × TokenType) × Parser :=
  if token = .assign then
    let r := procAssignExpr rt n p
    if r.1.isNull then ((node, token), r.2)
    else
      let idnode := r.2.nodeNewId rt id
      let a := idnode.2.makeSysNode .sysAssign idnode.1 r.1
      let q := a.2.nextToken
      ((node.append a.1, q.current.type), q)
  else ((node, token), p)

/-- The loop of `proc_variable_decl` over the declarators behind a comma. -/
def declLoop (n : ℕ) (type : FinshType) : ℕ → Node → TokenType → Parser →
    (Node × TokenType) × Parser
  | 0, node, token, p => ((node, token), p.setExhausted)
  | m + 1, node, token, p =>
    if token = .comma then
      let d := p.declare type
      let q := d.2.nextToken
      let r := q.declInit rt n d.1 node q.current.type
      declLoop n type m r.1.1 r.1.2 r.2
    else ((node, token), p)

/-- `proc_variable_decl`. The code writes the first round behind a comma out. -/
def procVariableDecl (n : ℕ) : Result :=
  let t := p.procType
  let d := t.2.declare t.1
  let q := d.2.nextToken
  match q.current.type with
  | .comma | .assign =>
    let r := q.declInit rt n d.1 .null q.current.type
    let s := declLoop rt n t.1 n r.1.1 r.1.2 r.2
    (s.1.1, s.2.checkToken s.1.2 .semicolon)
  | .semicolon => (.null, q)
  | _ => (.null, q.errorSet .expectType)

/-- The tokens in front of which `finsh_parser_run` sees a declaration. -/
def isDecl (token : TokenType) : Bool := isBaseType token || token == .unsigned

/-- The statement that begins with the last token. -/
def procStatement (n : ℕ) : Result :=
  if isDecl p.current.type then p.tokenReplay.procVariableDecl rt n
  else p.tokenReplay.procExprStatement rt n

/-- The loop of `finsh_parser_run`: the statements so far, and how many places on in them the next
one is linked. -/
def runLoop (n : ℕ) : ℕ → Node → ℕ → Parser → Result
  | 0, root, _, p => (root, p.setExhausted)
  | m + 1, root, k, p =>
    let token := p.current.type
    if token = .eof ∨ token = .bad then (root, p)
    else
      let r := p.procStatement rt n
      if root.isNull then
        if r.1.isNull then (root, r.2) else runLoop n m r.1 0 r.2.nextToken
      else
        let q := if r.1.isNull && token != .identifier && !isDecl token then r.2.nextToken else r.2
        runLoop n m (root.setSiblingAt k r.1) (if r.1.isNull then k else k + 1) q.nextToken

end Parser

/-- `finsh_parser_run` on the tokens of a line, with no tree yet. Each token is good for a round of
`proc_cast_expr` and one of `proc_assign_expr`. -/
def finshParserRun (rt : Runtime) (core : Core) (tokens : List Token) : Parser.Result :=
  let n := 2 * tokens.length + 2
  Parser.runLoop rt n n .null 0
    (Parser.nextToken
      { tokens := tokens, current := { type := .eof }, replay := false, core := core })

end RtThread.Finsh
