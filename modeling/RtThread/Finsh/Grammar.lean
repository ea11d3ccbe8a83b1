import RtThread.Finsh.Parser

/-!
# The grammar of FinSH

The grammar in the comments of `components/finsh/finsh_parser.c`, one rule for each of its
alternatives. `Phrase` is a derivation without its unit productions. The binary levels and
`expr_cast` are numbered by how loosely they bind: `level 0` is `expr_cast`, `level 1` is
`expr_multiplicative`, and so on up to `level 6`, `expr_inclusive_or`.

`tree` is the tree of a derivation, and `Accepted` says which derivations the parser can do.
-/

namespace RtThread.Finsh

/-! ## Types -/

/-- `type_basic`. There is no token for the `STRING` of the comment. -/
inductive BasicType
  | void | char | short | int
  deriving DecidableEq, Repr

def BasicType.token : BasicType → TokenType
  | void => .void
  | char => .char
  | short => .short
  | int => .int

/-- A type with or without `UNSIGNED`. -/
structure TypeName where
  isUnsigned : Bool
  basic : BasicType
  deriving DecidableEq, Repr

/-- The type of the shell that is meant; there is no unsigned `void`. -/
def TypeName.type : TypeName → Option FinshType
  | ⟨false, .void⟩ => some .void
  | ⟨false, .char⟩ => some .char
  | ⟨false, .short⟩ => some .short
  | ⟨false, .int⟩ => some .int
  | ⟨true, .void⟩ => none
  | ⟨true, .char⟩ => some .uchar
  | ⟨true, .short⟩ => some .ushort
  | ⟨true, .int⟩ => some .uint

/-- `type`. -/
inductive TypeDerives : List Token → TypeName → Prop
  | basic {t : Token} {b : BasicType} (ht : t.type = b.token) : TypeDerives [t] ⟨false, b⟩
  | ofUnsigned {u t : Token} {b : BasicType} (hu : u.type = .unsigned) (ht : t.type = b.token) :
    TypeDerives [u, t] ⟨true, b⟩

/-! ## Expressions -/

inductive Phrase
  | identifier (name : List Byte)
  | literal (info : Info)
  | string (s : List Byte)
  | paren (e : Phrase)
  | post (type : NodeType) (e : Phrase)
  | call (f a : Phrase)
  | plus (e : Phrase)
  | minus (e : Phrase)
  | unary (type : NodeType) (e : Phrase)
  | cast (T : TypeName) (e : Phrase)
  | binary (type : NodeType) (l r : Phrase)
  | assign (l r : Phrase)
  | noParams
  | param (e : Phrase)
  | params (a e : Phrase)
  deriving DecidableEq, Repr

inductive Nonterminal
  | assign
  | level (k : ℕ)
  | unary
  | post
  | primary
  | params

/-- The node of a literal that is not a string. -/
def literalInfo (t : Token) : Option Info :=
  match t.type with
  | .valueChar => some { nodeType := .valueChar, value := t.value &&& 0xff }
  | .valueInt => some { nodeType := .valueInt, value := t.value }
  | .valueLong => some { nodeType := .valueLong, value := t.value }
  | .valueNull => some { nodeType := .valueNull }
  | _ => none

/-- The operators in front of an `expr_cast` that have a node of their own. -/
def unaryNode : TokenType → Option NodeType
  | .inc => some .sysPreinc
  | .dec => some .sysPredec
  | .bitwise => some .sysBitwise
  | .mul => some .sysGetvalue
  | .and => some .sysGetaddr
  | _ => none

/-- The operators of a binary level. -/
def operator : ℕ → TokenType → Option NodeType
  | 1, .mul => some .sysMul
  | 1, .div => some .sysDiv
  | 1, .mod => some .sysMod
  | 2, .sub => some .sysSub
  | 2, .add => some .sysAdd
  | 3, .shl => some .sysShl
  | 3, .shr => some .sysShr
  | 4, .and => some .sysAnd
  | 5, .xor => some .sysXor
  | 6, .or => some .sysOr
  | _, _ => none

inductive Derives : Nonterminal → List Token → Phrase → Prop
  -- expr_primary
  | literal {t : Token} {info : Info} (ht : literalInfo t = some info) :
    Derives .primary [t] (.literal info)
  | string {t : Token} (ht : t.type = .valueString) : Derives .primary [t] (.string t.string)
  | paren {l r : Token} {ts : List Token} {e : Phrase} (hl : l.type = .leftParen)
    (he : Derives .assign ts e) (hr : r.type = .rightParen) :
    Derives .primary (l :: (ts ++ [r])) (.paren e)
  | identifier {t : Token} (ht : t.type = .identifier) :
    Derives .primary [t] (.identifier t.string)
  -- expr_postfix
  | primary {ts : List Token} {e : Phrase} (he : Derives .primary ts e) : Derives .post ts e
  | inc {t : Token} {ts : List Token} {e : Phrase} (he : Derives .post ts e)
    (ht : t.type = .inc) : Derives .post (ts ++ [t]) (.post .sysInc e)
  | dec {t : Token} {ts : List Token} {e : Phrase} (he : Derives .post ts e)
    (ht : t.type = .dec) : Derives .post (ts ++ [t]) (.post .sysDec e)
  | call {l r : Token} {ts us : List Token} {f a : Phrase} (hf : Derives .post ts f)
    (hl : l.type = .leftParen) (ha : Derives .params us a) (hr : r.type = .rightParen) :
    Derives .post (ts ++ l :: (us ++ [r])) (.call f a)
  -- expr_unary
  | post {ts : List Token} {e : Phrase} (he : Derives .post ts e) : Derives .unary ts e
  | plus {t : Token} {ts : List Token} {e : Phrase} (ht : t.type = .add)
    (he : Derives (.level 0) ts e) : Derives .unary (t :: ts) (.plus e)
  | minus {t : Token} {ts : List Token} {e : Phrase} (ht : t.type = .sub)
    (he : Derives (.level 0) ts e) : Derives .unary (t :: ts) (.minus e)
  | unary {t : Token} {ts : List Token} {e : Phrase} {type : NodeType}
    (ht : unaryNode t.type = some type) (he : Derives (.level 0) ts e) :
    Derives .unary (t :: ts) (.unary type e)
  -- expr_cast
  | ofUnary {ts : List Token} {e : Phrase} (he : Derives .unary ts e) : Derives (.level 0) ts e
  | cast {l r : Token} {ts us : List Token} {T : TypeName} {e : Phrase} (hl : l.type = .leftParen)
    (hT : TypeDerives us T) (hr : r.type = .rightParen) (he : Derives (.level 0) ts e) :
    Derives (.level 0) (l :: (us ++ r :: ts)) (.cast T e)
  -- expr_multiplicative up to expr_inclusive_or
  | level {k : ℕ} {ts : List Token} {e : Phrase} (he : Derives (.level k) ts e) :
    Derives (.level (k + 1)) ts e
  | binary {k : ℕ} {t : Token} {ts us : List Token} {l r : Phrase} {type : NodeType}
    (hl : Derives (.level (k + 1)) ts l) (ht : operator (k + 1) t.type = some type)
    (hr : Derives (.level k) us r) : Derives (.level (k + 1)) (ts ++ t :: us) (.binary type l r)
  -- expr_assign
  | inclusiveOr {ts : List Token} {e : Phrase} (he : Derives (.level 6) ts e) :
    Derives .assign ts e
  | assign {t : Token} {ts us : List Token} {l r : Phrase} (hl : Derives .unary ts l)
    (ht : t.type = .assign) (hr : Derives .assign us r) :
    Derives .assign (ts ++ t :: us) (.assign l r)
  -- param_list
  | noParams : Derives .params [] .noParams
  | param {ts : List Token} {e : Phrase} (he : Derives .assign ts e) : Derives .params ts (.param e)
  | params {t : Token} {ts us : List Token} {a e : Phrase} (ha : Derives .params ts a)
    (ht : t.type = .comma) (he : Derives .assign us e) :
    Derives .params (ts ++ t :: us) (.params a e)

namespace Phrase

/-! ### Trees -/

/-- The strings of a phrase, from left to right. -/
def strings : Phrase → List (List Byte)
  | identifier _ | literal _ | noParams => []
  | string s => [s]
  | paren e | post _ e | plus e | minus e | unary _ e | cast _ e | param e => e.strings
  | call f a => f.strings ++ a.strings
  | binary _ l r | assign l r => l.strings ++ r.strings
  | params a e => a.strings ++ e.strings

/-- The number of nodes in the tree. -/
def nodes : Phrase → ℕ
  | identifier _ | literal _ | string _ => 1
  | paren e | plus e | cast _ e | param e => e.nodes
  | post _ e | unary _ e => e.nodes + 1
  | minus e => e.nodes + 2
  | call f a => f.nodes + a.nodes + 1
  | binary _ l r | assign l r => l.nodes + r.nodes + 1
  | noParams => 0
  | params a e => a.nodes + e.nodes

variable (rt : Runtime) (vars : Fin finshVariableMax → VarEntry)

/-- An inner node with its operands. -/
def inner (type : NodeType) (node1 node2 : Node) : Node :=
  .mk { nodeType := type } (node1.setSibling node2) .null

/-- The tree of a phrase that comes behind the strings `before`. A minus is a difference from zero,
and a cast marks the node it is in front of. -/
def tree (before : List (List Byte)) : Phrase → Node
  | identifier name =>
    .mk { nodeType := .id, symbol := Parser.symbolLookup rt vars (name.take finshNameMax) }
      .null .null
  | literal info => .mk info .null .null
  | string s =>
    .mk { nodeType := .valueString, value := (rt.heapAllocate (before ++ [s])).getD 0 } .null .null
  | paren e | plus e | param e => e.tree before
  | post type e | unary type e => inner type (e.tree before) .null
  | call f a => inner .sysFunc (f.tree before) (a.tree (before ++ f.strings))
  | minus e => inner .sysSub (.mk { nodeType := .valueLong } .null .null) (e.tree before)
  | cast T e => (e.tree before).setDataType ((T.type.getD .unknown).code)
  | binary type l r => inner type (l.tree before) (r.tree (before ++ l.strings))
  | assign l r => inner .sysAssign (l.tree before) (r.tree (before ++ l.strings))
  | noParams => .null
  | params a e => (a.tree before).append (e.tree (before ++ a.strings))

/-! ### What the parser can do -/

/-- The phrases that the parser can do: identifiers have a meaning, strings have a place, nothing is
in parentheses, no type is an unsigned `void`, and no list of arguments begins with a comma. -/
def Accepted (before : List (List Byte)) : Phrase → Prop
  | identifier name => (Parser.symbolLookup rt vars (name.take finshNameMax)).isSome
  | literal _ | noParams => True
  | string s => (rt.heapAllocate (before ++ [s])).isSome
  | paren _ => False
  | post _ e | plus e | minus e | unary _ e | param e => e.Accepted before
  | call f a => f.Accepted before ∧ a.Accepted (before ++ f.strings)
  | cast T e => T.type.isSome ∧ e.Accepted before
  | binary _ l r | assign l r => l.Accepted before ∧ r.Accepted (before ++ l.strings)
  | params a e => a ≠ noParams ∧ a.Accepted before ∧ e.Accepted (before ++ a.strings)

end Phrase

/-! ## Statements -/

/-- `declarator`: an identifier, or one with a value. -/
structure Declarator where
  name : List Byte
  value : Option Phrase
  deriving DecidableEq, Repr

inductive DeclaratorDerives : List Token → Declarator → Prop
  | identifier {t : Token} (ht : t.type = .identifier) : DeclaratorDerives [t] ⟨t.string, none⟩
  | assign {t a : Token} {ts : List Token} {e : Phrase} (ht : t.type = .identifier)
    (ha : a.type = .assign) (he : Derives .assign ts e) :
    DeclaratorDerives (t :: a :: ts) ⟨t.string, some e⟩

/-- `declarator_list`. -/
inductive DeclaratorsDerive : List Token → List Declarator → Prop
  | declarator {ts : List Token} {d : Declarator} (hd : DeclaratorDerives ts d) :
    DeclaratorsDerive ts [d]
  | comma {c : Token} {ts us : List Token} {ds : List Declarator} {d : Declarator}
    (hds : DeclaratorsDerive ts ds) (hc : c.type = .comma) (hd : DeclaratorDerives us d) :
    DeclaratorsDerive (ts ++ c :: us) (ds ++ [d])

inductive Statement
  | empty
  | expr (e : Phrase)
  | decl (T : TypeName) (ds : List Declarator)
  deriving DecidableEq, Repr

/-- `start`. -/
inductive StartDerives : List Token → Statement → Prop
  | empty {t : Token} (ht : t.type = .semicolon) : StartDerives [t] .empty
  | expr {t : Token} {ts : List Token} {e : Phrase} (he : Derives .assign ts e)
    (ht : t.type = .semicolon) : StartDerives (ts ++ [t]) (.expr e)
  | decl {t : Token} {us ts : List Token} {T : TypeName} {ds : List Declarator}
    (hT : TypeDerives us T) (hds : DeclaratorsDerive ts ds) (ht : t.type = .semicolon) :
    StartDerives (us ++ (ts ++ [t])) (.decl T ds)

namespace Declarator

variable (rt : Runtime) (type : FinshType) (vars : Fin finshVariableMax → VarEntry)
  (before : List (List Byte)) (d : Declarator)

/-- The name as the shell keeps it. -/
def id : List Byte := d.name.take finshNameMax

def strings : List (List Byte) := (d.value.map Phrase.strings).getD []

def nodes : ℕ := (d.value.map fun e => e.nodes + 2).getD 0

/-- The variables after the declaration. -/
def declared : Fin finshVariableMax → VarEntry :=
  match Parser.varPlace vars d.id with
  | some v => Function.update vars v { name := d.id, type := type }
  | none => vars

/-- An assignment of the value to the new variable. -/
def tree : Node :=
  match d.value with
  | none => .null
  | some e =>
    Phrase.inner .sysAssign
      (.mk { nodeType := .id, symbol := (Parser.varPlace vars d.id).map .var } .null .null)
      (e.tree rt (d.declared type vars) before)

/-- The name is new and there is room for it, and the parser can do the value. -/
def Accepted : Prop :=
  (Parser.varPlace vars d.id).isSome ∧
    ∀ e, d.value = some e → e.Accepted rt (d.declared type vars) before

end Declarator

/-- The trees of declarators, as siblings. -/
def declTree (rt : Runtime) (type : FinshType) : (Fin finshVariableMax → VarEntry) →
    List (List Byte) → List Declarator → Node
  | _, _, [] => .null
  | vars, before, d :: ds =>
    (d.tree rt type vars before).append
      (declTree rt type (d.declared type vars) (before ++ d.strings) ds)

def DeclAccepted (rt : Runtime) (type : FinshType) : (Fin finshVariableMax → VarEntry) →
    List (List Byte) → List Declarator → Prop
  | _, _, [] => True
  | vars, before, d :: ds =>
    d.Accepted rt type vars before ∧
      DeclAccepted rt type (d.declared type vars) (before ++ d.strings) ds

namespace Statement

variable (rt : Runtime) (vars : Fin finshVariableMax → VarEntry)

def nodes : Statement → ℕ
  | empty => 0
  | expr e => e.nodes
  | decl _ ds => (ds.map Declarator.nodes).sum

def tree : Statement → Node
  | empty => .null
  | expr e => e.tree rt vars []
  | decl T ds => declTree rt (T.type.getD .unknown) vars [] ds

def Accepted : Statement → Prop
  | empty => True
  | expr e => e.Accepted rt vars []
  | decl T ds => T.type.isSome ∧ DeclAccepted rt (T.type.getD .unknown) vars [] ds

end Statement

end RtThread.Finsh
