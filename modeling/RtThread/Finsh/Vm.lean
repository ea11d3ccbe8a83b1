import RtThread.Finsh.Node
import RtThread.Lib.ByteMemory
import RtThread.Lib.Cells
import RtThread.Lib.Machine

/-!
# The virtual machine of FinSH

`components/finsh/finsh_ops.c`, `finsh_ops.h` and `finsh_vm.c`. The cells of the stack are a
union: an operation on bytes or words changes the low part of its cell only. The text segment,
the stack and the memory that the instructions load from and store to are different objects.
An instruction that would leave one of them, or that divides by zero, has no result.

* `opTable_code`: the table of the operations has each one at its code.
-/

namespace RtThread.Finsh

open ByteMemory Function

/-! ## Operations -/

inductive Width
  | byte | word | dword
  deriving DecidableEq, Repr

/-- The operators of `OP_BIN_BYTE`, `OP_BIN_WORD` and `OP_BIN_DWORD`. -/
inductive BinOp
  | add | sub | div | mod | mul | and | or | xor | shl | shr
  deriving DecidableEq, Repr

inductive Op
  | noop
  | bin (op : BinOp) (width : Width)
  | bitwise (width : Width)
  | ld (width : Width)
  | ldValue (width : Width)
  | st (width : Width)
  | pop
  | syscall
  | ldValueStack (width : Width)
  deriving DecidableEq, Repr

/-- `FINSH_OP_*`. -/
def Op.code : Op → Byte
  | noop => 0x00
  | bin .add .byte => 0x01
  | bin .add .word => 0x02
  | bin .add .dword => 0x03
  | bin .sub .byte => 0x04
  | bin .sub .word => 0x05
  | bin .sub .dword => 0x06
  | bin .div .byte => 0x07
  | bin .div .word => 0x08
  | bin .div .dword => 0x09
  | bin .mod .byte => 0x0A
  | bin .mod .word => 0x0B
  | bin .mod .dword => 0x0C
  | bin .mul .byte => 0x0D
  | bin .mul .word => 0x0E
  | bin .mul .dword => 0x0F
  | bin .and .byte => 0x10
  | bin .and .word => 0x11
  | bin .and .dword => 0x12
  | bin .or .byte => 0x13
  | bin .or .word => 0x14
  | bin .or .dword => 0x15
  | bin .xor .byte => 0x16
  | bin .xor .word => 0x17
  | bin .xor .dword => 0x18
  | bitwise .byte => 0x19
  | bitwise .word => 0x1A
  | bitwise .dword => 0x1B
  | bin .shl .byte => 0x1C
  | bin .shl .word => 0x1D
  | bin .shl .dword => 0x1E
  | bin .shr .byte => 0x1F
  | bin .shr .word => 0x20
  | bin .shr .dword => 0x21
  | ld .byte => 0x22
  | ld .word => 0x23
  | ld .dword => 0x24
  | ldValue .byte => 0x25
  | ldValue .word => 0x26
  | ldValue .dword => 0x27
  | st .byte => 0x28
  | st .word => 0x29
  | st .dword => 0x2A
  | pop => 0x2B
  | syscall => 0x2C
  | ldValueStack .byte => 0x2D
  | ldValueStack .word => 0x2E
  | ldValueStack .dword => 0x2F

/-- `op_table`. -/
def opTable : List Op :=
  [.noop,
   .bin .add .byte, .bin .add .word, .bin .add .dword,
   .bin .sub .byte, .bin .sub .word, .bin .sub .dword,
   .bin .div .byte, .bin .div .word, .bin .div .dword,
   .bin .mod .byte, .bin .mod .word, .bin .mod .dword,
   .bin .mul .byte, .bin .mul .word, .bin .mul .dword,
   .bin .and .byte, .bin .and .word, .bin .and .dword,
   .bin .or .byte, .bin .or .word, .bin .or .dword,
   .bin .xor .byte, .bin .xor .word, .bin .xor .dword,
   .bitwise .byte, .bitwise .word, .bitwise .dword,
   .bin .shl .byte, .bin .shl .word, .bin .shl .dword,
   .bin .shr .byte, .bin .shr .word, .bin .shr .dword,
   .ld .byte, .ld .word, .ld .dword,
   .ldValue .byte, .ldValue .word, .ldValue .dword,
   .st .byte, .st .word, .st .dword,
   .pop, .syscall,
   .ldValueStack .byte, .ldValueStack .word, .ldValueStack .dword]

theorem opTable_code (op : Op) : opTable[op.code.toNat]? = some op := by
  cases op with
  | noop | pop | syscall => rfl
  | bin op width => cases op <;> cases width <;> rfl
  | bitwise width | ld width | ldValue width | st width | ldValueStack width => cases width <;> rfl

/-- The operator on two `long`. The code leaves shifts by 32 bits and more to the machine; here they
shift everything out. -/
def BinOp.apply (op : BinOp) (a b : Long) : Option Long :=
  match op with
  | add => some (a + b)
  | sub => some (a - b)
  | div => if b = 0 then none else some (a.sdiv b)
  | mod => if b = 0 then none else some (a.srem b)
  | mul => some (a * b)
  | and => some (a &&& b)
  | or => some (a ||| b)
  | xor => some (a ^^^ b)
  | shl => some (a <<< b)
  | shr => some (a.sshiftRight' b)

/-! ## Cells and memory by width -/

namespace Width

/-- `char_value`, `short_value` or `long_value` of a cell, as C promotes it. A `char` has no sign,
as usual on ARM. -/
def get (c : Long) : Width → Long
  | byte => (c.setWidth 8).setWidth 32
  | word => (c.setWidth 16).signExtend 32
  | dword => c

/-- The cell after its `char_value`, `short_value` or `long_value` has been set. -/
def set (c v : Long) : Width → Long
  | byte => c.extractLsb' 8 24 ++ v.setWidth 8
  | word => c.extractLsb' 16 16 ++ v.setWidth 16
  | dword => v

/-- The value that a pointer to `char`, `short` or `long` points to. -/
def load (mem : Memory 32) (a : Long) : Width → Long
  | byte => (mem a).setWidth 32
  | word => (mem (a + 1) ++ mem a).setWidth 32
  | dword => loadWord mem a

def store (mem : Memory 32) (a v : Long) : Width → Memory 32
  | byte => update mem a (byteOf v 0)
  | word => update (update mem a (byteOf v 0)) (a + 1) (byteOf v 1)
  | dword => storeWord mem a v

/-- The number of bytes of the operand of `LD_BYTE`, `LD_WORD` and `LD_DWORD`. -/
def size : Width → ℕ
  | byte => 1
  | word => 2
  | dword => 4

end Width

/-! ## The machine -/

/-- `finsh_vm_stack`, `finsh_sp` and `finsh_pc` by their indices, and the memory. -/
structure Vm where
  stack : ℕ → Long
  sp : ℕ
  pc : ℕ
  mem : Memory 32

/-- What a system call does: its address, its arguments and the memory give its result and the
memory after it. -/
abbrev Syscalls := Long → List Long → Memory 32 → Option (Long × Memory 32)

/-- The bytes from `pc` on as a number, the least significant first (`FINSH_GET32`). -/
def getLong (text : ℕ → Byte) (pc : ℕ) : Width → Long
  | .byte => (text pc).setWidth 32
  | .word => (text (pc + 1) ++ text pc).setWidth 32
  | .dword => text (pc + 3) ++ text (pc + 2) ++ text (pc + 1) ++ text pc

namespace Vm

variable (calls : Syscalls) (text : ℕ → Byte) (m : Vm)

/-- The operand of an instruction, if it is inside the text segment. -/
def operand (width : Width) : Option Long :=
  if m.pc + width.size ≤ finshTextMax then some (getLong text m.pc width) else none

/-- Set the part of the cell at `finsh_sp` that an instruction loads. -/
def push (width : Width) (v : Long) : Option Vm :=
  if m.sp < finshStackMax then
    some { m with stack := update m.stack m.sp (width.set (m.stack m.sp) v),
                  sp := m.sp + 1 }
  else none

/-- `OP_call`. `parameterv` has room for 16 arguments. -/
def call : Option Vm := do
  if m.pc < finshTextMax then
    let parameters := (text m.pc).toNat
    if parameters + 1 ≤ m.sp ∧ parameters ≤ 16 then
      let f := m.sp - (parameters + 1)
      let parameterv := (List.range parameters).map fun i => m.stack (f + 1 + i)
      let (r, mem) ← calls (m.stack f) parameterv m.mem
      some { stack := update m.stack f r, sp := f + 1, pc := m.pc + 1, mem := mem }
    else none
  else none

/-- The function of `op_table` for the operation. -/
def exec : Op → Option Vm
  | .noop => some m
  | .bin op width =>
    if 2 ≤ m.sp then do
      let r ← op.apply (width.get (m.stack (m.sp - 2))) (width.get (m.stack (m.sp - 1)))
      some { m with stack := update m.stack (m.sp - 2) (width.set (m.stack (m.sp - 2)) r),
                    sp := m.sp - 1 }
    else none
  | .bitwise width =>
    if 1 ≤ m.sp then
      let r := ~~~ width.get (m.stack (m.sp - 1))
      some { m with stack := update m.stack (m.sp - 1) (width.set (m.stack (m.sp - 1)) r) }
    else none
  | .ld width => do
    let v ← m.operand text width
    let m ← m.push width v
    some { m with pc := m.pc + width.size }
  | .ldValue width => do
    let a ← m.operand text .dword
    let m ← m.push width (width.load m.mem a)
    some { m with pc := m.pc + 4 }
  | .st width =>
    if 2 ≤ m.sp then
      some { m with mem := width.store m.mem (m.stack (m.sp - 2)) (m.stack (m.sp - 1)),
                    sp := m.sp - 1 }
    else none
  | .pop => if 1 ≤ m.sp then some { m with sp := m.sp - 1 } else none
  | .syscall => m.call calls text
  | .ldValueStack width =>
    if 1 ≤ m.sp then
      let v := width.load m.mem (m.stack (m.sp - 1))
      some { m with stack := update m.stack (m.sp - 1) (width.set (m.stack (m.sp - 1)) v) }
    else none

/-- The condition of the loop of `finsh_vm_run`. -/
def Running : Prop := m.pc < finshTextMax

instance : DecidablePred Running := fun m => inferInstanceAs (Decidable (m.pc < finshTextMax))

/-- A round of the loop of `finsh_vm_run`. A code behind the table has no result. -/
def step : Option Vm := do
  let op ← opTable[(text m.pc).toNat]?
  { m with pc := m.pc + 1 }.exec calls text op

end Vm

/-- `finsh_vm_run`. Every round moves `finsh_pc`, so that it is done after as many rounds as the
text segment has bytes. -/
def finshVmRun (calls : Syscalls) (text : ℕ → Byte) (stack : ℕ → Long) (mem : Memory 32) :
    Option Vm :=
  Machine.loop Vm.Running (Vm.step calls text) finshTextMax
    { stack := stack, sp := 0, pc := 0, mem := mem }

end RtThread.Finsh
