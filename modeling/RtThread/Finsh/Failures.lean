import RtThread.Finsh.Parser

/-!
# Errors of the parser stay

No function of the parser takes an error back, so that a parser that has failed stays so
whatever it does afterwards (`Keeps`).
-/

namespace RtThread.Finsh

namespace Parser

variable {rt : Runtime} {p : Parser} {assign cast next : Parser → Result} {n : ℕ} {m : ℕ}

/-- An error has been set, or a null pointer written through. -/
def Failed (p : Parser) : Prop := p.core.errors ≠ [] ∨ p.core.fault = true

/-- The function leaves a parser that has failed as it is in this. -/
def Keeps {α : Type} (f : Parser → α × Parser) : Prop := ∀ p, Failed p → Failed (f p).2

/-! ## Steps -/

theorem failed_errorSet (p : Parser) (e : FinshError) : Failed (p.errorSet e) :=
  .inl (List.append_ne_nil_of_right_ne_nil _ (List.cons_ne_nil e []))

theorem failed_setFault (p : Parser) : Failed p.setFault := .inr rfl

section

variable (h : Failed p)
include h

theorem Failed.setExhausted : Failed p.setExhausted := h

theorem Failed.nextToken : Failed p.nextToken := by
  unfold Parser.nextToken
  split
  · exact h
  · split <;> exact h

theorem Failed.tokenReplay : Failed p.tokenReplay := h

theorem Failed.checkToken (token type : TokenType) : Failed (p.checkToken token type) := by
  unfold Parser.checkToken
  split
  · exact (failed_errorSet p _).tokenReplay
  · exact h

theorem Failed.matchToken (type : TokenType) : Failed (p.matchToken type) :=
  h.nextToken.checkToken ..

theorem Failed.nodeNew (info : Info) : Failed (p.nodeNew info).2 := by
  unfold Parser.nodeNew
  split
  · exact h
  · exact failed_errorSet ..

theorem Failed.nodeNewId (id : List Byte) : Failed (p.nodeNewId rt id).2 := by
  unfold Parser.nodeNewId
  split
  · exact h.nodeNew _
  · exact failed_errorSet ..

theorem Failed.nodeNewString (s : List Byte) : Failed (p.nodeNewString rt s).2 := by
  unfold Parser.nodeNewString
  split
  · dsimp only
    split
    · exact h
    · exact failed_setFault _
  · exact failed_errorSet ..

theorem Failed.makeSysNode (type : NodeType) (node1 node2 : Node) :
    Failed (p.makeSysNode type node1 node2).2 := by
  unfold Parser.makeSysNode
  split
  · split
    · exact failed_errorSet ..
    · exact h
  · exact failed_errorSet ..

theorem Failed.varInsert (name : List Byte) (type : FinshType) :
    Failed (p.varInsert name type) := by
  unfold Parser.varInsert
  split
  · exact h
  · exact failed_errorSet ..

theorem Failed.procPointer (type : FinshType) : Failed (p.procPointer type).2 := by
  unfold Parser.procPointer
  dsimp only
  split
  · exact h.nextToken
  · exact h.nextToken.tokenReplay

end

theorem failed_unknownType (p : Parser) (type : FinshType) : Failed (p.unknownType type).2 :=
  failed_errorSet ..

theorem Failed.procType (h : Failed p) : Failed p.procType.2 := by
  unfold Parser.procType
  dsimp only
  split
  case h_6 =>
    split
    case h_5 => exact failed_unknownType ..
    case h_6 => exact (failed_errorSet ..).procPointer _
    all_goals exact h.nextToken.nextToken.procPointer _
  case h_7 => exact failed_unknownType ..
  all_goals exact h.nextToken.procPointer _

theorem Failed.procIdentifier (h : Failed p) : Failed p.procIdentifier.2 := h.matchToken _

theorem Failed.declare (h : Failed p) (type : FinshType) : Failed (p.declare type).2 :=
  h.procIdentifier.varInsert ..

/-! ## Expressions -/

theorem Failed.procPrimaryExpr (ha : Keeps assign) (h : Failed p) :
    Failed (p.procPrimaryExpr rt assign).2 := by
  unfold Parser.procPrimaryExpr
  dsimp only
  split
  · exact h.nextToken.tokenReplay.procIdentifier.nodeNewId _
  · exact (ha _ h.nextToken).matchToken _
  · exact h.nextToken.nodeNew _
  · exact h.nextToken.nodeNew _
  · exact h.nextToken.nodeNew _
  · exact h.nextToken.nodeNewString _
  · exact h.nextToken.nodeNew _
  · exact failed_errorSet ..

section

variable (ha : Keeps assign)
include ha

theorem Failed.paramLoop (node : Node) (h : Failed p) : Failed (paramLoop assign n node p).2 := by
  induction n generalizing node p with
  | zero => exact h.setExhausted
  | succ n ih =>
    unfold paramLoop
    dsimp only
    split
    · split
      · exact ih _ (failed_errorSet ..)
      · exact ih _ (ha _ h.nextToken)
    · exact h.nextToken.tokenReplay

theorem Failed.procParamList (h : Failed p) : Failed (procParamList assign n p).2 := by
  unfold Parser.procParamList
  dsimp only
  split
  · exact ha _ h
  · exact (ha _ h).paramLoop ha _

theorem Failed.procArguments (h : Failed p) : Failed (procArguments assign n p).2 := by
  unfold Parser.procArguments
  dsimp only
  split
  · exact (h.nextToken.tokenReplay.procParamList ha).matchToken _
  · exact h.nextToken

theorem Failed.postfixLoop (node : Node) (h : Failed p) :
    Failed (postfixLoop assign n node p).2 := by
  induction n generalizing node p with
  | zero => exact h.setExhausted
  | succ n ih =>
    unfold postfixLoop
    dsimp only
    split
    · exact ih _ (h.nextToken.makeSysNode ..)
    · exact ih _ (h.nextToken.makeSysNode ..)
    · exact ih _ ((h.nextToken.procArguments ha).makeSysNode ..)
    · exact h.nextToken.tokenReplay

theorem Failed.procPostfixExpr (h : Failed p) : Failed (p.procPostfixExpr rt assign n).2 :=
  (h.procPrimaryExpr ha).postfixLoop ha _

end

theorem Failed.procUnary (hc : Keeps cast) (type : NodeType) (h : Failed p) :
    Failed (p.procUnary cast type).2 :=
  (hc _ h).makeSysNode ..

theorem Failed.procUnaryExpr (ha : Keeps assign) (hc : Keeps cast) (h : Failed p) :
    Failed (p.procUnaryExpr rt assign cast n).2 := by
  unfold Parser.procUnaryExpr
  dsimp only
  split
  · exact hc _ h.nextToken
  · exact h.nextToken.procUnary hc _
  · exact ((hc _ h.nextToken).nodeNew _).makeSysNode ..
  · exact h.nextToken.procUnary hc _
  · exact h.nextToken.procUnary hc _
  · exact h.nextToken.procUnary hc _
  · exact h.nextToken.procUnary hc _
  · exact h.nextToken.tokenReplay.procPostfixExpr ha

theorem Failed.binaryLoop (hn : Keeps next) {op : TokenType → Option NodeType} (node : Node)
    (h : Failed p) : Failed (binaryLoop op next n node p).2 := by
  induction n generalizing node p with
  | zero => exact h.setExhausted
  | succ n ih =>
    unfold binaryLoop
    dsimp only
    split
    · split
      · exact ih _ (failed_errorSet ..)
      · exact ih _ ((hn _ h.nextToken).makeSysNode ..)
    · exact h.nextToken.tokenReplay

theorem keeps_procBinary (hn : Keeps next) (op : TokenType → Option NodeType) (n : ℕ) :
    Keeps (procBinary op next n) := fun p h => (hn p h).binaryLoop hn _

theorem keeps_procInclusiveOrExpr (hc : Keeps cast) (n : ℕ) :
    Keeps (procInclusiveOrExpr cast n) := by
  exact keeps_procBinary (keeps_procBinary (keeps_procBinary (keeps_procBinary (keeps_procBinary
    (keeps_procBinary hc _ n) _ n) _ n) _ n) _ n) _ n

section

variable (rt : Runtime) (n : ℕ)

theorem keeps_exprs : Keeps (procCastExpr rt n) ∧ Keeps (procAssignExpr rt n) := by
  induction n with
  | zero =>
    refine ⟨fun p h => ?_, fun p h => ?_⟩
    · exact h.setExhausted
    · exact h.setExhausted
  | succ n ih =>
    obtain ⟨hc, ha⟩ := ih
    refine ⟨fun p h => ?_, fun p h => ?_⟩
    · rw [procCastExpr]
      dsimp only
      split
      · have hr := hc _ (h.nextToken.procType.matchToken .rightParen)
        split
        · exact hr.tokenReplay.procUnaryExpr ha hc
        · exact hr
      · exact h.nextToken.tokenReplay.procUnaryExpr ha hc
    · rw [procAssignExpr]
      have hr := (keeps_procInclusiveOrExpr hc n _ h).nextToken
      split
      · exact (ha _ hr).makeSysNode ..
      · exact hr.tokenReplay

theorem keeps_procCastExpr : Keeps (procCastExpr rt n) := (keeps_exprs rt n).1

theorem keeps_procAssignExpr : Keeps (procAssignExpr rt n) := (keeps_exprs rt n).2

end

/-! ## Statements -/

theorem Failed.declInit (h : Failed p) (id : List Byte) (node : Node) (token : TokenType) :
    Failed (p.declInit rt n id node token).2 := by
  unfold Parser.declInit
  split
  · have hr := keeps_procAssignExpr rt n p h
    dsimp only
    split
    · exact hr
    · exact ((hr.nodeNewId _).makeSysNode ..).nextToken
  · exact h

theorem Failed.declLoop (h : Failed p) (type : FinshType) (node : Node) (token : TokenType) :
    Failed (declLoop rt n type m node token p).2 := by
  induction m generalizing node token p with
  | zero => exact h.setExhausted
  | succ m ih =>
    unfold declLoop
    split
    · exact ih ((h.declare type).nextToken.declInit ..) _ _
    · exact h

theorem failed_procVariableDecl (h : Failed p.procType.2) : Failed (p.procVariableDecl rt n).2 := by
  have hd := (h.declare p.procType.1).nextToken
  unfold procVariableDecl
  dsimp only
  split
  · exact ((hd.declInit ..).declLoop ..).checkToken ..
  · exact ((hd.declInit ..).declLoop ..).checkToken ..
  · exact hd
  · exact failed_errorSet ..

theorem Failed.procExprStatement (h : Failed p) : Failed (p.procExprStatement rt n).2 := by
  unfold Parser.procExprStatement
  dsimp only
  split
  · exact (keeps_procAssignExpr rt n _ h.nextToken.tokenReplay).matchToken _
  · exact h.nextToken

theorem Failed.procStatement (h : Failed p) : Failed (p.procStatement rt n).2 := by
  unfold Parser.procStatement
  split
  · exact failed_procVariableDecl h.tokenReplay.procType
  · exact h.tokenReplay.procExprStatement

theorem Failed.runLoop (h : Failed p) (root : Node) (k : ℕ) :
    Failed (runLoop rt n m root k p).2 := by
  induction m generalizing root k p with
  | zero => exact h.setExhausted
  | succ m ih =>
    have hr : Failed (p.procStatement rt n).2 := h.procStatement
    unfold runLoop
    dsimp only
    split
    · exact h
    split
    · split
      · exact hr
      · exact ih hr.nextToken _ _
    · refine ih (Failed.nextToken ?_) _ _
      split
      · exact hr.nextToken
      · exact hr

end Parser

end RtThread.Finsh
