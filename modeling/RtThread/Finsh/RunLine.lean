import RtThread.Finsh.Correctness
import RtThread.Finsh.Statements

/-!
# Running a line of FinSH

`finsh_run_line` of `components/finsh/shell.c`: the line is parsed, its tree is compiled, and
the code is run. The line is given by its tokens, as for the parser.

* `finshRunLine_ran`: a line whose code gets to its end has been run.
-/

namespace RtThread.Finsh

open ByteMemory Cells Function Option

/-- What becomes of a line: the parser or the compiler sets errors, or the machine runs. -/
inductive LineResult
  | failed (errors : List FinshError)
  | ran (m : Vm)

/-- The variables as the compiler sees them. -/
def Core.globals (core : Core) (globalVariable : Long) : Globals where
  globalVariable := globalVariable
  type v := (core.vars v).type

/-- `finsh_stack_bottom`. -/
def Vm.finshStackBottom (m : Vm) : Long := m.stack 0

/-- `finsh_run_line`, behind a `finsh_flush`. -/
def finshRunLine (rt : Runtime) (calls : Syscalls) (globalVariable : Long)
    (vars : Fin finshVariableMax → VarEntry) (stack : ℕ → Long) (mem : Memory 32)
    (tokens : List Token) : Option LineResult :=
  let r := finshParserRun rt { vars := vars } tokens
  if r.2.core.fault || r.2.core.exhausted then none
  else if r.2.core.errors ≠ [] then some (.failed r.2.core.errors)
  else do
    let c ← finshCompilerRun (r.2.core.globals globalVariable) stack r.1
    if c.errors ≠ [] then some (.failed c.errors)
    else do
      let m ← finshVmRun calls c.text c.stack mem
      some (.ran m)

variable {rt : Runtime} {calls : Syscalls} {globalVariable : Long}
  {vars : Fin finshVariableMax → VarEntry} {stack : ℕ → Long} {mem : Memory 32}
  {tokens : List Token} {root node : Node} {q : Parser} {g : Globals} {code : List Byte}

/-- What the compiler leaves for a tree that it compiles without an error. -/
theorem finshCompilerRun_eq (hcheck : finshTypeCheck g root false = (node, []))
    (hcode : compileStatements g node = (code, [])) (hfits : code.length ≤ finshTextMax) :
    finshCompilerRun g stack root = some
      { text := fun i => code.getD i 0, stack := update stack 0 0, errors := [] } := by
  rw [finshCompilerRun, hcheck]
  simp only [hcode, textSegment, if_pos hfits]
  rfl

theorem finshRunLine_ran (hparse : finshParserRun rt { vars := vars } tokens = (root, q))
    (hclean : q.core.Clean) (hg : q.core.globals globalVariable = g)
    (hcheck : finshTypeCheck g root false = (node, []))
    (hcode : compileStatements g node = (code, [])) (hfits : code.length ≤ finshTextMax) {m : Vm}
    (hruns : Runs calls (fun i => code.getD i 0) code
      { stack := update stack 0 0, sp := 0, pc := 0, mem := mem } m) :
    finshRunLine rt calls globalVariable vars stack mem tokens =
      some (.ran { m with pc := finshTextMax }) := by
  obtain ⟨herrors, hfault, hexhausted⟩ := hclean
  obtain ⟨hreach, hpc⟩ := hruns (holds_getD [] code 0) (by simpa using hfits)
  rw [Nat.zero_add] at hpc
  have hvm := finshVmRun_of_reaches hreach (by omega) fun i hi =>
    List.getD_eq_default _ _ (by omega)
  have hgo : (q.core.fault || q.core.exhausted) = false := by rw [hfault, hexhausted]; rfl
  simp only [finshRunLine, hparse, hgo, herrors, hg, finshCompilerRun_eq hcheck hcode hfits, hvm,
    ne_eq, not_true_eq_false, Bool.false_eq_true, if_false, bind_eq_bind, bind_some]

end RtThread.Finsh
