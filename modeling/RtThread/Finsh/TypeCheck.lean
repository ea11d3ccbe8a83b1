import RtThread.Finsh.Expressions

/-!
# Trees behind the type checker

What `finsh_type_check` makes of any tree: each node gets its address mark and the data type of
the first leaf below it.

* `finshTypeCheck_mk`: the node, above its checked children.
-/

namespace RtThread.Finsh

open Node

/-- The data type that `finsh_type_check` gives a node: that of the first leaf below it. -/
def Node.dataType (g : Globals) : Node → Byte
  | .null => dataTypeVoid
  | .mk n .null _ => (leafDataType g n).1
  | .mk _ (.mk n child sibling) _ => dataType g (.mk n child sibling)

variable (g : Globals)

theorem leafDataType_markAddr (n : Info) (isAddr : Bool) :
    leafDataType g (n.markAddr isAddr) = leafDataType g n := by
  unfold Info.markAddr
  split <;> rfl

/-- A node with its address mark and its data type, above its checked children. -/
theorem finshTypeCheck_mk (n : Info) (child sibling : Node) (isAddr : Bool) :
    (finshTypeCheck g (.mk n child sibling) isAddr).1 =
      .mk { n.markAddr isAddr with dataType := (mk n child sibling).dataType g }
        (finshTypeCheck g child (childIsAddr n.nodeType isAddr)).1
        (finshTypeCheck g sibling false).1 := by
  induction child generalizing n sibling isAddr with
  | null => simp [finshTypeCheck, dataType, leafDataType_markAddr]
  | mk c cc cs ihc _ =>
    rw [finshTypeCheck]
    simp only [ihc, dataType]

/-- The child of a node as the compiler sees it. -/
theorem finshTypeCheck_child (child : Node) (isAddr : Bool) :
    (child = .null ∧ (finshTypeCheck g child isAddr).1 = .null) ∨
      ∃ c cc cs c' cc' cs', child = .mk c cc cs ∧
        (finshTypeCheck g child isAddr).1 = .mk c' cc' cs' ∧ c'.nodeType = c.nodeType ∧
        c'.dataType = child.dataType g := by
  cases child with
  | null => exact .inl ⟨rfl, by rw [Expr.finshTypeCheck_null]⟩
  | mk c cc cs =>
    refine .inr ⟨c, cc, cs, _, _, _, rfl, finshTypeCheck_mk g c cc cs isAddr, ?_, rfl⟩
    unfold Info.markAddr
    split <;> rfl

theorem dataType_sibling (n : Info) (child sibling : Node) :
    (mk n child sibling).dataType g = (mk n child .null).dataType g := by
  cases child <;> rfl

end RtThread.Finsh
