import Mathlib.Data.BitVec
import Mathlib.Tactic

/-!
# Syntax trees of FinSH

`components/finsh/finsh.h`, `finsh_node.h` and `finsh_var.h`: the types of the shell, its
error numbers, and the nodes that the parser builds and the compiler reads. A node has its
children in a list: `child` is the first of them, and each has the next one as `sibling`.
-/

namespace RtThread.Finsh

abbrev Byte := BitVec 8

/-- `long`, and the addresses of the machine. -/
abbrev Long := BitVec 32

def finshNameMax : ℕ := 16
def finshNodeMax : ℕ := 16
def finshVariableMax : ℕ := 8
def finshStackMax : ℕ := 64
def finshTextMax : ℕ := 128

instance : NeZero finshVariableMax := ⟨Nat.succ_ne_zero 7⟩

/-- `enum finsh_type`. -/
inductive FinshType
  | unknown | void | voidp | char | uchar | charp | short | ushort | shortp
  | int | uint | intp | long | ulong | longp
  deriving DecidableEq, Repr

/-- The number of the type in the enumeration. -/
def FinshType.code : FinshType → Byte
  | .unknown => 0
  | .void => 1
  | .voidp => 2
  | .char => 3
  | .uchar => 4
  | .charp => 5
  | .short => 6
  | .ushort => 7
  | .shortp => 8
  | .int => 9
  | .uint => 10
  | .intp => 11
  | .long => 12
  | .ulong => 13
  | .longp => 14

/-- `FINSH_ERROR_*`. -/
inductive FinshError
  | invalidToken | expectType | unknownType | variableExist | expectOperator | memoryFull
  | unknownOp | unknownNode | expectChar | unexpectEnd | unknownToken | noFloat
  | unknownSymbol | nullNode
  deriving DecidableEq, Repr

/-- `FINSH_NODE_*`. -/
inductive NodeType
  | unknown | id
  | valueChar | valueInt | valueLong | valueString | valueNull
  | sysAdd | sysSub | sysMul | sysDiv | sysMod | sysAnd | sysOr | sysXor | sysBitwise
  | sysShl | sysShr | sysFunc | sysAssign | sysCast
  | sysPreinc | sysPredec | sysInc | sysDec | sysGetvalue | sysGetaddr | sysNull
  deriving DecidableEq, Repr

/-! `FINSH_DATA_TYPE_*`. -/

def dataTypeVoid : Byte := 0x00
def dataTypeByte : Byte := 0x01
def dataTypeWord : Byte := 0x02
def dataTypeDword : Byte := 0x03

/-- What an identifier is: a variable of the user by its place in `global_variable`, a system
variable, or a system call. The latter two are entries of a table at `entry`. -/
inductive Symbol
  | var (v : Fin finshVariableMax)
  | sysvar (entry : Long) (type : FinshType) (var : Long)
  | syscall (entry func : Long)
  deriving DecidableEq, Repr

/-- The fields of `struct finsh_node` beside the links. Which kind of `symbol` it is and `address`
are the bits of `idtype`; `value` is the union. -/
structure Info where
  nodeType : NodeType
  dataType : Byte := dataTypeVoid
  symbol : Option Symbol := none
  address : Bool := false
  value : Long := 0
  deriving DecidableEq, Repr

/-- `struct finsh_node *`. -/
inductive Node
  | null
  | mk (info : Info) (child sibling : Node)
  deriving DecidableEq, Repr

namespace Node

def isNull : Node → Bool
  | null => true
  | mk .. => false

/-- The number of nodes in the list that starts here. -/
def count : Node → ℕ
  | null => 0
  | mk _ _ sibling => sibling.count + 1

end Node

end RtThread.Finsh
