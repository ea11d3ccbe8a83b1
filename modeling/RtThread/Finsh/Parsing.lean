import RtThread.Finsh.Tokens

/-!
# The parser follows the grammar

For each nonterminal `Spec` says what its function does with a derivation: it builds the tree and
goes behind the tokens if the derivation is accepted, and fails otherwise. The functions of the
left recursive nonterminals are loops; there `Spec` says that a derivation brings the parser into
the loop with its tree.

* `Derives.spec`: every derivation has its `Spec`, by induction on the derivation.
-/

namespace RtThread.Finsh

open RtThread.Finsh.Parser List Option Nat Phrase

variable {rt : Runtime} {p : Parser} {σ : Core} {t : Token} {ts us rest : List Token}
  {e l r f a : Phrase} {k m n : ℕ} {type : NodeType}

/-! ## Specifications -/

/-- The state behind a phrase. -/
def Core.add (σ : Core) (e : Phrase) : Core := σ.plus e.nodes e.strings

attribute [local simp] Core.add nodes strings tree Accepted

/-- The result is the tree of the phrase, with the rest of the tokens before the parser, or a
failure if the phrase is not accepted. -/
def Does (rt : Runtime) (e : Phrase) (σ : Core) (rest : List Token) (r : Result) : Prop :=
  (e.Accepted rt σ.vars σ.strings → r.1 = e.tree rt σ.vars σ.strings ∧ Sees r.2 (σ.add e) rest) ∧
  (¬ e.Accepted rt σ.vars σ.strings → Failed r.2)

/-- The result is that of a loop that goes on behind the phrase, and has used up less of its `n`
rounds than the phrase has tokens. -/
def Continues (rt : Runtime) (e : Phrase) (σ : Core) (rest : List Token) (len n : ℕ)
    (loop : ℕ → Node → Parser → Result) (r : Result) : Prop :=
  (e.Accepted rt σ.vars σ.strings → ∃ m p', n < m + len ∧
    r = loop m (e.tree rt σ.vars σ.strings) p' ∧ Sees p' (σ.add e) rest) ∧
  (¬ e.Accepted rt σ.vars σ.strings → Failed r.2)

/-- The functions of the levels by their number. -/
def procLevel (rt : Runtime) (n : ℕ) : ℕ → Parser → Result
  | 0 => procCastExpr rt n
  | k + 1 => procBinary (operator (k + 1)) (procLevel rt n k) n

theorem procInclusiveOrExpr_eq (rt : Runtime) (n : ℕ) :
    procInclusiveOrExpr (procCastExpr rt n) n = procLevel rt n 6 := by
  have h1 : multiplicativeOp = operator 1 := by funext t; cases t <;> rfl
  have h2 : additiveOp = operator 2 := by funext t; cases t <;> rfl
  have h3 : shiftOp = operator 3 := by funext t; cases t <;> rfl
  have h4 : andOp = operator 4 := by funext t; cases t <;> rfl
  have h5 : exclusiveOrOp = operator 5 := by funext t; cases t <;> rfl
  have h6 : inclusiveOrOp = operator 6 := by funext t; cases t <;> rfl
  simp only [procInclusiveOrExpr, procExclusiveOrExpr, procAndExpr, procShiftExpr,
    procAdditiveExpr, procMultiplicativeExpr, h1, h2, h3, h4, h5, h6, procLevel]

theorem keeps_procLevel (rt : Runtime) (n k : ℕ) : Keeps (procLevel rt n k) := by
  induction k with
  | zero => exact keeps_procCastExpr rt n
  | succ k ih => exact keeps_procBinary ih _ n

/-- The phrase does not begin with a parenthesis. -/
def NoParen (ts : List Token) : Prop := ∀ t us, ts = t :: us → t.type ≠ .leftParen

/-- What the function of a nonterminal does with the tokens of a phrase. -/
def Spec (rt : Runtime) : Nonterminal → List Token → Phrase → Prop
  | .assign, ts, e => ∀ n p σ rest, 2 * ts.length + 1 ≤ n → Sees p σ (ts ++ rest) →
    Follow 8 rest → σ.nodes + e.nodes ≤ finshNodeMax → Does rt e σ rest (procAssignExpr rt n p)
  | .level 0, ts, e => ∀ n p σ rest, 2 * ts.length ≤ n → Sees p σ (ts ++ rest) →
    Follow 1 rest → σ.nodes + e.nodes ≤ finshNodeMax → Does rt e σ rest (procCastExpr rt n p)
  | .level (k + 1), ts, e => ∀ n p σ rest, 2 * ts.length ≤ n → Sees p σ (ts ++ rest) →
    Follow (k + 1) rest → σ.nodes + e.nodes ≤ finshNodeMax →
    Continues rt e σ rest ts.length n (binaryLoop (operator (k + 1)) (procLevel rt n k))
      (procLevel rt n (k + 1) p)
  | .unary, ts, e => NoParen ts → ∀ n p σ rest, 2 * ts.length ≤ n + 1 → Sees p σ (ts ++ rest) →
    Follow 1 rest → σ.nodes + e.nodes ≤ finshNodeMax →
    Does rt e σ rest (p.procUnaryExpr rt (procAssignExpr rt n) (procCastExpr rt n) n)
  | .post, ts, e => NoParen ts → ∀ n p σ rest, 2 * ts.length ≤ n + 1 → Sees p σ (ts ++ rest) →
    rest ≠ [] → σ.nodes + e.nodes ≤ finshNodeMax →
    Continues rt e σ rest ts.length n (postfixLoop (procAssignExpr rt n))
      (p.procPostfixExpr rt (procAssignExpr rt n) n)
  | .primary, ts, e => NoParen ts → ∀ n p σ rest, Sees p σ (ts ++ rest) → rest ≠ [] →
    σ.nodes + e.nodes ≤ finshNodeMax →
    Does rt e σ rest (p.procPrimaryExpr rt (procAssignExpr rt n))
  | .params, ts, e => e ≠ .noParams → ∀ n m p σ rest, 2 * ts.length + 1 ≤ n → ts.length ≤ m →
    Sees p σ (ts ++ rest) → Follow 8 rest → σ.nodes + e.nodes ≤ finshNodeMax →
    Continues rt e σ rest ts.length m (paramLoop (procAssignExpr rt n))
      (procParamList (procAssignExpr rt n) m p)

/-! ### Operands -/

theorem does_nodeNew (h : Sees p σ rest) (hn : σ.nodes + 1 ≤ finshNodeMax) (info : Info) :
    Does rt (.literal info) σ rest (p.nodeNew info) := by
  obtain ⟨p', hnew, hsees⟩ := nodeNew_eq h hn info
  rw [hnew]
  exact ⟨fun _ => ⟨rfl, hsees⟩, fun hnot => absurd trivial hnot⟩

theorem spec_literal {info : Info} (ht : literalInfo t = some info) :
    Spec rt .primary [t] (.literal info) := by
  intro _ n p σ rest hsees hrest hnodes
  have hnext : p.nextToken = past t rest σ := hsees.next
  unfold literalInfo at ht
  split at ht <;> cases ht <;> rename_i htype <;>
    simp only [Parser.procPrimaryExpr, hnext, past_current, htype] <;>
    exact does_nodeNew (sees_past t hrest σ) hnodes _

theorem spec_identifier (ht : t.type = .identifier) :
    Spec rt .primary [t] (.identifier t.string) := by
  intro _ n p σ rest hsees hrest hnodes
  have hnext : p.nextToken = past t rest σ := hsees.next
  have hid : (past t rest σ).tokenReplay.procIdentifier =
      (t.string.take finshNameMax, past t rest σ) := by
    rw [Parser.procIdentifier, matchToken_past (sees_replay t rest σ) ht]
    rfl
  simp only [Parser.procPrimaryExpr, hnext, past_current, ht, hid, Parser.nodeNewId, past_core]
  refine ⟨fun hacc => ?_, fun hnot => ?_⟩
  · obtain ⟨s, hs⟩ := isSome_iff_exists.mp hacc
    obtain ⟨p', hnew, hsees'⟩ :=
      nodeNew_eq (sees_past t hrest σ) hnodes { nodeType := .id, symbol := some s }
    simp only [hnew, tree, hs]
    exact ⟨trivial, hsees'⟩
  · have hs := not_isSome_iff_eq_none.mp hnot
    simp only [hs]
    exact failed_errorSet ..

theorem spec_string (ht : t.type = .valueString) : Spec rt .primary [t] (.string t.string) := by
  intro _ n p σ rest hsees hrest hnodes
  have hnext : p.nextToken = past t rest σ := hsees.next
  have hroom : σ.nodes < finshNodeMax := hnodes
  simp only [Parser.procPrimaryExpr, hnext, past_current, ht, Parser.nodeNewString, past_core,
    if_pos hroom]
  refine ⟨fun hacc => ?_, fun hnot => ?_⟩
  · obtain ⟨a, ha⟩ := isSome_iff_exists.mp hacc
    simp only [ha, tree, getD_some]
    exact ⟨trivial, (sees_past t hrest σ).withCore _⟩
  · have hs := not_isSome_iff_eq_none.mp hnot
    simp only [hs]
    exact failed_setFault _

/-! ### Postfix operators -/

theorem spec_primary (he : Derives .primary ts e) (h : Spec rt .primary ts e) :
    Spec rt .post ts e := by
  intro hparen n p σ rest _ hsees hrest hnodes
  obtain ⟨hgood, hbad⟩ := h hparen n p σ rest hsees hrest hnodes
  refine ⟨fun hacc => ?_, fun hnot => ?_⟩
  · obtain ⟨htree, hsees'⟩ := hgood hacc
    obtain ⟨t, us, rfl, -⟩ := he.opening
    exact ⟨n, _, Nat.lt_add_of_pos_right (Nat.succ_pos _), by rw [← htree]; rfl, hsees'⟩
  · exact (hbad hnot).postfixLoop (keeps_procAssignExpr rt n) _

theorem NoParen.left (h : NoParen (ts ++ us)) : NoParen ts := by
  rintro t vs rfl
  exact h t (vs ++ us) rfl

/-- The loop takes an increment or a decrement. -/
theorem postfixLoop_step (assign : Parser → Result) (m : ℕ) {node : Node}
    (ht : t.type = .inc ∧ type = .sysInc ∨ t.type = .dec ∧ type = .sysDec)
    (hsees : Sees p σ (t :: rest)) (hrest : rest ≠ []) (hnodes : σ.nodes + 1 ≤ finshNodeMax)
    (hnode : node.isNull = false) :
    ∃ p', postfixLoop assign (m + 1) node p =
        postfixLoop assign m (inner type node .null) p' ∧
      Sees p' (σ.plus 1 []) rest := by
  obtain ⟨p', hmake, hsees'⟩ := makeSysNode_eq (sees_past t hrest σ) hnodes type hnode .null
  refine ⟨p', ?_, hsees'⟩
  obtain ⟨ht, rfl⟩ | ⟨ht, rfl⟩ := ht <;>
    simp only [postfixLoop, hsees.next, past_current, ht, hmake]

theorem spec_step (ht : t.type = .inc ∧ type = .sysInc ∨ t.type = .dec ∧ type = .sysDec)
    (he : Derives .post ts e) (h : Spec rt .post ts e) :
    Spec rt .post (ts ++ [t]) (.post type e) := by
  intro hparen n p σ rest hn hsees hrest hnodes
  simp only [length_append, length_singleton, Phrase.nodes] at hn hnodes ⊢
  rw [append_assoc] at hsees
  obtain ⟨hgood, hbad⟩ := h hparen.left n p σ _ (by omega) hsees (cons_ne_nil t _) (by omega)
  refine ⟨fun hacc => ?_, fun hnot => hbad hnot⟩
  obtain ⟨m, p₁, hm, heq, hsees₁⟩ := hgood hacc
  obtain ⟨m, rfl⟩ : ∃ m', m = m' + 1 := exists_eq_add_one.mpr (by omega)
  obtain ⟨p₂, hloop, hsees₂⟩ := postfixLoop_step (procAssignExpr rt n) m ht hsees₁ hrest
    (by simp only [Core.add, Core.plus]; omega) (he.isNull_tree (by simp) _ _ _)
  rw [Core.add, plus_plus, append_nil] at hsees₂
  exact ⟨m, p₂, by omega, heq.trans hloop, hsees₂⟩

/-- The arguments of a call. -/
theorem does_arguments (ha : Derives .params us a) (h : Spec rt .params us a) {r : Token}
    (hr : r.type = .rightParen) (hn : 2 * us.length + 1 ≤ n) (hm : us.length ≤ m)
    (hsees : Sees p σ (us ++ r :: rest)) (hnodes : σ.nodes + a.nodes ≤ finshNodeMax) :
    (a.Accepted rt σ.vars σ.strings → procArguments (procAssignExpr rt n) m p =
      (a.tree rt σ.vars σ.strings, past r rest (σ.add a))) ∧
    (¬ a.Accepted rt σ.vars σ.strings → Failed (procArguments (procAssignExpr rt n) m p).2) := by
  have hfollow : Follow 8 (r :: rest) := ⟨r, rest, rfl, by rw [hr]; rfl⟩
  obtain ⟨rfl, rfl⟩ | ⟨hne, u, vs, rfl, hu⟩ := ha.opening
  · refine ⟨fun _ => ?_, fun hnot => absurd trivial hnot⟩
    have hnext : p.nextToken = past r rest σ := hsees.next
    simp [procArguments, hnext, hr, Core.plus]
  · have hnext : p.nextToken = past u (vs ++ r :: rest) σ := hsees.next
    obtain ⟨hgood, hbad⟩ := h hne n m _ σ (r :: rest) hn (by omega)
      (sees_replay u (vs ++ r :: rest) σ) hfollow hnodes
    simp only [procArguments, hnext, past_current, if_pos hu]
    refine ⟨fun hacc => ?_, fun hnot => (hbad hnot).matchToken _⟩
    obtain ⟨m', p₁, hm', heq, hsees₁⟩ := hgood hacc
    obtain ⟨m', rfl⟩ : ∃ i, m' = i + 1 := exists_eq_add_one.mpr (by omega)
    have hcomma : r.type ≠ .comma := by rw [hr]; decide
    have hloop : paramLoop (procAssignExpr rt n) (m' + 1) (a.tree rt σ.vars σ.strings) p₁ =
        (a.tree rt σ.vars σ.strings, (past r rest (σ.add a)).tokenReplay) := by
      simp only [paramLoop, hsees₁.next, past_current, if_neg hcomma]
    rw [heq, hloop, matchToken_past (sees_replay r rest _) hr]

theorem spec_call {l r : Token} (hf : Derives .post ts f) (hspec : Spec rt .post ts f)
    (hl : l.type = .leftParen) (ha : Derives .params us a) (hspec' : Spec rt .params us a)
    (hr : r.type = .rightParen) : Spec rt .post (ts ++ l :: (us ++ [r])) (.call f a) := by
  intro hparen n p σ rest hn hsees hrest hnodes
  simp only [length_append, length_cons, length_nil, Phrase.nodes] at hn hnodes ⊢
  simp only [append_assoc, cons_append, nil_append] at hsees
  obtain ⟨hgood, hbad⟩ := hspec hparen.left n p σ _ (by omega) hsees (cons_ne_nil l _) (by omega)
  have hkeeps := keeps_procAssignExpr rt n
  by_cases haccf : f.Accepted rt σ.vars σ.strings
  case neg => exact ⟨fun hacc => absurd hacc.1 haccf, fun _ => hbad haccf⟩
  obtain ⟨m, p₁, hm, heq, hsees₁⟩ := hgood haccf
  obtain ⟨m, rfl⟩ : ∃ m', m = m' + 1 := exists_eq_add_one.mpr (by omega)
  have hsees₂ : Sees (past l (us ++ r :: rest) (σ.add f)) (σ.add f) (us ++ r :: rest) :=
    sees_past l (by simp) _
  obtain ⟨hgood', hbad'⟩ := does_arguments (n := n) (m := m) ha hspec' hr (by omega) (by omega)
    hsees₂ (by simp only [Core.add, Core.plus]; omega)
  simp only [heq, postfixLoop, hsees₁.next, past_current, hl]
  refine ⟨fun hacc => ?_, fun hnot => ?_⟩
  · have hargs := hgood' hacc.2
    obtain ⟨p₃, hmake, hsees₃⟩ := makeSysNode_eq (sees_past r hrest ((σ.add f).add a))
      (by simp only [Core.add, Core.plus]; omega) .sysFunc
      (hf.isNull_tree (by simp) rt σ.vars σ.strings) (a.tree rt (σ.add f).vars (σ.add f).strings)
    simp only [hargs, hmake]
    refine ⟨m, p₃, by omega, rfl, ?_⟩
    simpa using hsees₃
  · exact ((hbad' fun hacc => hnot ⟨haccf, hacc⟩).makeSysNode ..).postfixLoop hkeeps _

/-! ### Unary operators and casts -/

/-- The postfix loop stops at a token that is no postfix operator. -/
theorem postfixLoop_stop (assign : Parser → Result) (m : ℕ) (node : Node)
    (hsees : Sees p σ (t :: rest)) (ht : 1 ≤ follows t.type) :
    postfixLoop assign (m + 1) node p = (node, (past t rest σ).tokenReplay) := by
  simp only [postfixLoop, hsees.next, past_current]
  split <;> simp_all [follows]

theorem spec_post (he : Derives .post ts e) (h : Spec rt .post ts e) : Spec rt .unary ts e := by
  intro hparen n p σ rest hn hsees hfollow hnodes
  obtain ⟨t, us, rfl, ht, -⟩ := he.opening
  obtain ⟨u, vs, rfl, hu⟩ := hfollow
  have hnext : p.nextToken = past t (us ++ u :: vs) σ := hsees.next
  have heq : p.procUnaryExpr rt (procAssignExpr rt n) (procCastExpr rt n) n =
      (past t (us ++ u :: vs) σ).tokenReplay.procPostfixExpr rt (procAssignExpr rt n) n := by
    simp only [Parser.procUnaryExpr, hnext, past_current]
    split <;> simp_all [beginsPrimary]
  rw [heq]
  obtain ⟨hgood, hbad⟩ := h hparen n (past t (us ++ u :: vs) σ).tokenReplay σ (u :: vs) hn
    (sees_replay t _ σ) (cons_ne_nil u vs) hnodes
  refine ⟨fun hacc => ?_, hbad⟩
  obtain ⟨m, p₁, hm, heq, hsees₁⟩ := hgood hacc
  obtain ⟨m, rfl⟩ : ∃ m', m = m' + 1 := exists_eq_add_one.mpr (by omega)
  rw [heq, postfixLoop_stop _ m _ hsees₁ hu]
  exact ⟨rfl, sees_replay u vs _⟩

theorem spec_plus (ht : t.type = .add) (he : Derives (.level 0) ts e)
    (h : Spec rt (.level 0) ts e) : Spec rt .unary (t :: ts) (.plus e) := by
  intro _ n p σ rest hn hsees hfollow hnodes
  have hnext : p.nextToken = past t (ts ++ rest) σ := hsees.next
  simp only [length_cons] at hn
  simp only [Parser.procUnaryExpr, hnext, past_current, ht]
  exact h n _ σ rest (by omega) (sees_past t (he.append_ne_nil rest) σ) hfollow hnodes

theorem spec_minus (ht : t.type = .sub) (he : Derives (.level 0) ts e)
    (h : Spec rt (.level 0) ts e) : Spec rt .unary (t :: ts) (.minus e) := by
  intro _ n p σ rest hn hsees hfollow hnodes
  have hnext : p.nextToken = past t (ts ++ rest) σ := hsees.next
  simp only [length_cons] at hn
  simp only [Phrase.nodes] at hnodes
  obtain ⟨hgood, hbad⟩ := h n _ σ rest (by omega) (sees_past t (he.append_ne_nil rest) σ) hfollow
    (by omega)
  simp only [Parser.procUnaryExpr, hnext, past_current, ht]
  refine ⟨fun hacc => ?_, fun hnot => ((hbad hnot).nodeNew _).makeSysNode ..⟩
  obtain ⟨htree, hsees₁⟩ := hgood hacc
  obtain ⟨p₂, hzero, hsees₂⟩ := nodeNew_eq hsees₁ (by simp only [Core.add, Core.plus]; omega)
    { nodeType := .valueLong, value := 0 }
  obtain ⟨p₃, hmake, hsees₃⟩ := makeSysNode_eq hsees₂ (by simp only [Core.add, Core.plus]; omega)
    .sysSub (a := .mk { nodeType := .valueLong, value := 0 } .null .null) rfl
    (e.tree rt σ.vars σ.strings)
  simp only [Parser.nodeNewLong, hzero, htree, hmake]
  exact ⟨rfl, by simpa using hsees₃⟩

theorem spec_unary (ht : unaryNode t.type = some type) (he : Derives (.level 0) ts e)
    (h : Spec rt (.level 0) ts e) : Spec rt .unary (t :: ts) (.unary type e) := by
  intro _ n p σ rest hn hsees hfollow hnodes
  have hnext : p.nextToken = past t (ts ++ rest) σ := hsees.next
  simp only [length_cons] at hn
  simp only [Phrase.nodes] at hnodes
  obtain ⟨hgood, hbad⟩ := h n _ σ rest (by omega) (sees_past t (he.append_ne_nil rest) σ) hfollow
    (by omega)
  have heq : p.procUnaryExpr rt (procAssignExpr rt n) (procCastExpr rt n) n =
      (past t (ts ++ rest) σ).procUnary (procCastExpr rt n) type := by
    simp only [Parser.procUnaryExpr, hnext, past_current]
    unfold unaryNode at ht
    split at ht <;> cases ht <;> rename_i htype <;> simp only [htype]
  rw [heq]
  refine ⟨fun hacc => ?_, fun hnot => (hbad hnot).makeSysNode ..⟩
  obtain ⟨htree, hsees₁⟩ := hgood hacc
  obtain ⟨p₂, hmake, hsees₂⟩ := makeSysNode_eq hsees₁ (by simp only [Core.add, Core.plus]; omega)
    type (he.isNull_tree (by simp) rt σ.vars σ.strings) .null
  simp only [Parser.procUnary, htree, hmake]
  exact ⟨rfl, by simpa using hsees₂⟩

/-- In front of an expression there is no type. -/
theorem failed_procType (hsees : Sees p σ (t :: ts)) (ht : begins t.type = true) :
    Failed p.procType.2 := by
  simp only [Parser.procType, hsees.next, past_current]
  split
  case h_7 => exact failed_unknownType ..
  all_goals simp_all [begins, beginsPrimary]

/-- A cast fails with its operand. -/
theorem failed_procCastExpr (hsees : Sees p σ (t :: ts)) (ht : t.type = .leftParen)
    (h : Failed (procCastExpr rt n ((past t ts σ).procType.2.matchToken .rightParen)).2) :
    Failed (procCastExpr rt (n + 1) p).2 := by
  simp only [procCastExpr, hsees.next, past_current, if_pos ht]
  split
  · exact h.tokenReplay.procUnaryExpr (keeps_procAssignExpr rt n) (keeps_procCastExpr rt n)
  · exact h

theorem spec_ofUnary (he : Derives .unary ts e) (h : Spec rt .unary ts e) :
    Spec rt (.level 0) ts e := by
  intro n p σ rest hn hsees hfollow hnodes
  obtain ⟨t, us, rfl, ht, hparen⟩ := he.opening
  have hnext : p.nextToken = past t (us ++ rest) σ := hsees.next
  simp only [length_cons] at hn
  obtain ⟨n, rfl⟩ : ∃ n', n = n' + 1 := exists_eq_add_one.mpr (by omega)
  by_cases hl : t.type = .leftParen
  · -- the parenthesis is taken for that of a cast
    obtain ⟨⟨u, vs, rfl, hu⟩, hnot⟩ := hparen hl
    refine ⟨fun hacc => (hnot rt _ _ hacc).elim, fun _ => ?_⟩
    have hfailed : Failed (past t (u :: vs ++ rest) σ).procType.2 :=
      failed_procType (sees_past t (cons_ne_nil u _) σ) hu
    exact failed_procCastExpr hsees hl (keeps_procCastExpr rt n _ (hfailed.matchToken .rightParen))
  · simp only [procCastExpr, hnext, past_current, if_neg hl]
    refine h ?_ n _ σ rest (by omega) (sees_replay t _ σ) hfollow hnodes
    rintro t' us' heq
    obtain ⟨rfl, rfl⟩ := cons.inj heq
    exact hl

theorem procPointer_eq {type : FinshType} (hsees : Sees p σ (t :: ts)) (ht : t.type ≠ .mul) :
    p.procPointer type = (type, (past t ts σ).tokenReplay) := by
  simp only [Parser.procPointer, hsees.next, past_current, if_neg ht]

/-- A type is read, unless it is an unsigned `void`. What is behind it is no `*`. -/
theorem procType_eq {T : TypeName} (hT : TypeDerives us T) (ht : t.type ≠ .mul)
    (hsees : Sees p σ (us ++ t :: ts)) :
    (∀ type, T.type = some type → p.procType = (type, (past t ts σ).tokenReplay)) ∧
      (T.type = none → Failed p.procType.2) := by
  cases hT with
  | @basic u b hu =>
    have hnext : p.nextToken = past u (t :: ts) σ := hsees.next
    have hpast := sees_past u (cons_ne_nil t ts) σ
    simp only [Parser.procType, hnext, past_current, hu]
    cases b <;> simp [BasicType.token, TypeName.type, procPointer_eq hpast ht]
  | @ofUnsigned v u b hv hu =>
    have hnext : p.nextToken = past v (u :: t :: ts) σ := hsees.next
    have hnext' : (past v (u :: t :: ts) σ).nextToken = past u (t :: ts) σ := rfl
    have hpast := sees_past u (cons_ne_nil t ts) σ
    simp only [Parser.procType, hnext, past_current, hv, hnext', hu]
    cases b <;> simp [BasicType.token, TypeName.type, procPointer_eq hpast ht, failed_unknownType]

theorem spec_cast {l r : Token} {T : TypeName} (hl : l.type = .leftParen) (hT : TypeDerives us T)
    (hr : r.type = .rightParen) (he : Derives (.level 0) ts e) (h : Spec rt (.level 0) ts e) :
    Spec rt (.level 0) (l :: (us ++ r :: ts)) (.cast T e) := by
  intro n p σ rest hn hsees hfollow hnodes
  simp only [length_cons, length_append] at hn
  obtain ⟨n, rfl⟩ : ∃ n', n = n' + 1 := exists_eq_add_one.mpr (by omega)
  simp only [cons_append, append_assoc] at hsees
  have hpast : Sees (past l (us ++ r :: (ts ++ rest)) σ) σ (us ++ r :: (ts ++ rest)) :=
    sees_past l (by simp) σ
  obtain ⟨htype, hvoid⟩ := procType_eq hT (by rw [hr]; decide) hpast
  cases hnone : T.type with
  | none =>
    refine ⟨fun hacc => by simp [hnone] at hacc, fun _ => ?_⟩
    exact failed_procCastExpr hsees hl
      (keeps_procCastExpr rt n _ ((hvoid hnone).matchToken .rightParen))
  | some type =>
    have hmatch : (past l (us ++ r :: (ts ++ rest)) σ).procType.2.matchToken .rightParen =
        past r (ts ++ rest) σ := by
      rw [htype type hnone, matchToken_past (sees_replay r (ts ++ rest) σ) hr]
    obtain ⟨hgood, hbad⟩ := h n _ σ rest (by omega) (sees_past r (he.append_ne_nil rest) σ) hfollow
      hnodes
    refine ⟨fun hacc => ?_, fun hnot => ?_⟩
    · obtain ⟨htree, hsees₁⟩ := hgood hacc.2
      simp only [procCastExpr, hsees.next, past_current, if_pos hl, hmatch, htree,
        he.isNull_tree (by simp)]
      exact ⟨by simp [tree, hnone, htype type hnone], hsees₁⟩
    · refine failed_procCastExpr hsees hl ?_
      rw [hmatch]
      exact hbad fun hacc => hnot ⟨by simp [hnone], hacc⟩

/-! ### Binary operators -/

/-- A level is done if the next token is none of its operators. -/
theorem Spec.level_done (h : Spec rt (.level k) ts e) (he : Derives (.level k) ts e)
    (hn : 2 * ts.length ≤ n) (hsees : Sees p σ (ts ++ rest)) (hfollow : Follow (k + 1) rest)
    (hnodes : σ.nodes + e.nodes ≤ finshNodeMax) : Does rt e σ rest (procLevel rt n k p) := by
  cases k with
  | zero => exact h n p σ rest hn hsees hfollow hnodes
  | succ k =>
    obtain ⟨hgood, hbad⟩ := h n p σ rest hn hsees (hfollow.mono (by omega)) hnodes
    refine ⟨fun hacc => ?_, hbad⟩
    obtain ⟨m, p₁, hm, heq, hsees₁⟩ := hgood hacc
    obtain ⟨m, rfl⟩ : ∃ m', m = m' + 1 := exists_eq_add_one.mpr (by omega)
    obtain ⟨t, us, rfl, ht⟩ := hfollow
    have hloop : binaryLoop (operator (k + 1)) (procLevel rt n k) (m + 1)
        (e.tree rt σ.vars σ.strings) p₁ =
        (e.tree rt σ.vars σ.strings, (past t us (σ.add e)).tokenReplay) := by
      simp only [binaryLoop, hsees₁.next, past_current, operator_of_follows ht]
    rw [heq, hloop]
    exact ⟨rfl, sees_replay t us _⟩

theorem spec_level (he : Derives (.level k) ts e) (h : Spec rt (.level k) ts e) :
    Spec rt (.level (k + 1)) ts e := by
  intro n p σ rest hn hsees hfollow hnodes
  obtain ⟨hgood, hbad⟩ := h.level_done he hn hsees hfollow hnodes
  refine ⟨fun hacc => ?_, fun hnot => (hbad hnot).binaryLoop (keeps_procLevel rt n k) _⟩
  obtain ⟨htree, hsees₁⟩ := hgood hacc
  obtain ⟨t, us, rfl, -⟩ := he.opening
  exact ⟨n, _, Nat.lt_add_of_pos_right (Nat.succ_pos _), by rw [← htree]; rfl, hsees₁⟩

theorem spec_binary (hl : Derives (.level (k + 1)) ts l) (hspec : Spec rt (.level (k + 1)) ts l)
    (ht : operator (k + 1) t.type = some type) (hr : Derives (.level k) us r)
    (hspec' : Spec rt (.level k) us r) :
    Spec rt (.level (k + 1)) (ts ++ t :: us) (.binary type l r) := by
  intro n p σ rest hn hsees hfollow hnodes
  simp only [length_append, length_cons, Phrase.nodes] at hn hnodes ⊢
  simp only [append_assoc, cons_append] at hsees
  have hkeeps := keeps_procLevel rt n k
  obtain ⟨hgood, hbad⟩ := hspec n p σ _ (by omega) hsees
    ⟨t, us ++ rest, rfl, (follows_operator ht).ge⟩ (by omega)
  by_cases haccl : l.Accepted rt σ.vars σ.strings
  case neg => exact ⟨fun hacc => absurd hacc.1 haccl, fun _ => hbad haccl⟩
  obtain ⟨m, p₁, hm, heq, hsees₁⟩ := hgood haccl
  obtain ⟨m, rfl⟩ : ∃ m', m = m' + 1 := exists_eq_add_one.mpr (by omega)
  obtain ⟨hgood', hbad'⟩ := hspec'.level_done hr (n := n) (by omega)
    (sees_past t (hr.append_ne_nil rest) (σ.add l)) hfollow
    (by simp only [Core.add, Core.plus]; omega)
  simp only [heq, binaryLoop, hsees₁.next, past_current, ht]
  refine ⟨fun hacc => ?_, fun hnot => ?_⟩
  · obtain ⟨htree, hsees₂⟩ := hgood' hacc.2
    obtain ⟨p₃, hmake, hsees₃⟩ := makeSysNode_eq hsees₂
      (by simp only [Core.add, Core.plus]; omega) type
      (hl.isNull_tree (by simp) rt σ.vars σ.strings) (r.tree rt (σ.add l).vars (σ.add l).strings)
    refine ⟨m, p₃, by omega, ?_, ?_⟩
    · simp only [htree, hr.isNull_tree (by simp), hmake]
      rfl
    · simpa using hsees₃
  · have hfailed := hbad' fun hacc => hnot ⟨haccl, hacc⟩
    split
    · exact (failed_errorSet ..).binaryLoop hkeeps _
    · exact (hfailed.makeSysNode ..).binaryLoop hkeeps _

/-! ### Assignments -/

theorem failed_procAssignExpr (h : Failed (procLevel rt n 6 p).2) :
    Failed (procAssignExpr rt (n + 1) p).2 := by
  simp only [procAssignExpr, procInclusiveOrExpr_eq]
  split
  · exact (keeps_procAssignExpr rt n _ h.nextToken).makeSysNode ..
  · exact h.nextToken.tokenReplay

theorem spec_inclusiveOr (he : Derives (.level 6) ts e) (h : Spec rt (.level 6) ts e) :
    Spec rt .assign ts e := by
  intro n p σ rest hn hsees hfollow hnodes
  obtain ⟨n, rfl⟩ : ∃ n', n = n' + 1 := exists_eq_add_one.mpr (by omega)
  obtain ⟨hgood, hbad⟩ := h.level_done he (n := n) (by omega) hsees (hfollow.mono (by omega)) hnodes
  refine ⟨fun hacc => ?_, fun hnot => failed_procAssignExpr (hbad hnot)⟩
  obtain ⟨htree, hsees₁⟩ := hgood hacc
  obtain ⟨u, us, rfl, hu⟩ := hfollow
  have hne : u.type ≠ .assign := fun h => by simp [h, follows] at hu
  simp only [procAssignExpr, procInclusiveOrExpr_eq, hsees₁.next, past_current, if_neg hne]
  exact ⟨htree, sees_replay u us _⟩

/-- An `expr_unary` is of every level. -/
theorem spec_levels (he : Derives .unary ts e) (h : Spec rt .unary ts e) (k : ℕ) :
    Derives (.level k) ts e ∧ Spec rt (.level k) ts e := by
  induction k with
  | zero => exact ⟨.ofUnary he, spec_ofUnary he h⟩
  | succ k ih => exact ⟨.level ih.1, spec_level ih.1 ih.2⟩

theorem spec_assign (hl : Derives .unary ts l) (hspec : Spec rt .unary ts l)
    (ht : t.type = .assign) (hr : Derives .assign us r) (hspec' : Spec rt .assign us r) :
    Spec rt .assign (ts ++ t :: us) (.assign l r) := by
  intro n p σ rest hn hsees hfollow hnodes
  simp only [length_append, length_cons, Phrase.nodes] at hn hnodes
  simp only [append_assoc, cons_append] at hsees
  obtain ⟨n, rfl⟩ : ∃ n', n = n' + 1 := exists_eq_add_one.mpr (by omega)
  obtain ⟨hder, hlevel⟩ := spec_levels hl hspec 6
  obtain ⟨hgood, hbad⟩ := hlevel.level_done hder (n := n) (by omega) hsees
    ⟨t, us ++ rest, rfl, by rw [ht]; rfl⟩ (by omega)
  by_cases haccl : l.Accepted rt σ.vars σ.strings
  case neg =>
    exact ⟨fun hacc => absurd hacc.1 haccl, fun _ => failed_procAssignExpr (hbad haccl)⟩
  obtain ⟨htree, hsees₁⟩ := hgood haccl
  obtain ⟨u, vs, rfl, -⟩ := hr.opening
  obtain ⟨hgood', hbad'⟩ := hspec' n (past t (u :: vs ++ rest) (σ.add l)) (σ.add l) rest (by omega)
    (sees_past t (cons_ne_nil u _) (σ.add l)) hfollow
    (by simp only [Core.add, Core.plus]; omega)
  simp only [procAssignExpr, procInclusiveOrExpr_eq, hsees₁.next, past_current, if_pos ht]
  refine ⟨fun hacc => ?_, fun hnot => ?_⟩
  · obtain ⟨htree', hsees₂⟩ := hgood' hacc.2
    obtain ⟨p₃, hmake, hsees₃⟩ := makeSysNode_eq hsees₂
      (by simp only [Core.add, Core.plus]; omega) .sysAssign
      (hl.isNull_tree (by simp) rt σ.vars σ.strings) (r.tree rt (σ.add l).vars (σ.add l).strings)
    simp only [htree, htree', hmake]
    exact ⟨rfl, by simpa using hsees₃⟩
  · exact (hbad' fun hacc => hnot ⟨haccl, hacc⟩).makeSysNode ..

/-! ### Lists of arguments -/

theorem spec_param (he : Derives .assign ts e) (h : Spec rt .assign ts e) :
    Spec rt .params ts (.param e) := by
  intro _ n m p σ rest hn hm hsees hfollow hnodes
  obtain ⟨hgood, hbad⟩ := h n p σ rest hn hsees hfollow hnodes
  simp only [procParamList]
  refine ⟨fun hacc => ?_, fun hnot => ?_⟩
  · obtain ⟨htree, hsees₁⟩ := hgood hacc
    obtain ⟨t, us, rfl, -⟩ := he.opening
    refine ⟨m, _, Nat.lt_add_of_pos_right (Nat.succ_pos _), ?_, hsees₁⟩
    rw [htree, he.isNull_tree (by simp)]
    rfl
  · split
    · exact hbad hnot
    · exact (hbad hnot).paramLoop (keeps_procAssignExpr rt n) _

/-- No expression begins with a comma. -/
theorem failed_procCastExpr_comma (hsees : Sees p σ (t :: ts)) (ht : t.type = .comma) (n : ℕ) :
    Failed (procCastExpr rt (n + 1) p).2 := by
  have hnext : (past t ts σ).tokenReplay.nextToken = past t ts σ := rfl
  have hprimary :
      Failed ((past t ts σ).tokenReplay.procPrimaryExpr rt (procAssignExpr rt n)).2 := by
    simp only [Parser.procPrimaryExpr, hnext, past_current, ht]
    exact failed_errorSet ..
  simp only [procCastExpr, hsees.next, past_current, Parser.procUnaryExpr, hnext, ht]
  exact hprimary.postfixLoop (keeps_procAssignExpr rt n) _

theorem failed_procAssignExpr_comma (hsees : Sees p σ (t :: ts)) (ht : t.type = .comma)
    (hn : 2 ≤ n) : Failed (procAssignExpr rt n p).2 := by
  obtain ⟨n, rfl⟩ : ∃ n', n = n' + 2 := Nat.exists_eq_add_of_le' hn
  have hlevel (k : ℕ) : Failed (procLevel rt (n + 1) k p).2 := by
    induction k with
    | zero => exact failed_procCastExpr_comma hsees ht n
    | succ k ih => exact ih.binaryLoop (keeps_procLevel rt (n + 1) k) _
  exact failed_procAssignExpr (hlevel 6)

theorem spec_params (ha : Derives .params ts a) (hspec : Spec rt .params ts a)
    (ht : t.type = .comma) (he : Derives .assign us e) (hspec' : Spec rt .assign us e) :
    Spec rt .params (ts ++ t :: us) (.params a e) := by
  intro _ n m p σ rest hn hm hsees hfollow hnodes
  simp only [length_append, length_cons, Phrase.nodes] at hn hm hnodes ⊢
  simp only [append_assoc, cons_append] at hsees
  have hkeeps := keeps_procAssignExpr rt n
  obtain ⟨rfl, rfl⟩ | ⟨hne, -⟩ := ha.opening
  · -- the list begins with a comma
    have hfailed : Failed (procAssignExpr rt n p).2 :=
      failed_procAssignExpr_comma hsees ht (by omega)
    refine ⟨fun hacc => absurd rfl hacc.1, fun _ => ?_⟩
    simp only [procParamList]
    split
    · exact hfailed
    · exact hfailed.paramLoop hkeeps _
  obtain ⟨hgood, hbad⟩ := hspec hne n m p σ _ (by omega) (by omega) hsees
    ⟨t, us ++ rest, rfl, by rw [ht]; rfl⟩ (by omega)
  by_cases hacca : a.Accepted rt σ.vars σ.strings
  case neg => exact ⟨fun hacc => absurd hacc.2.1 hacca, fun _ => hbad hacca⟩
  obtain ⟨m', p₁, hm', heq, hsees₁⟩ := hgood hacca
  obtain ⟨m', rfl⟩ : ∃ i, m' = i + 1 := exists_eq_add_one.mpr (by omega)
  obtain ⟨u, vs, rfl, -⟩ := he.opening
  obtain ⟨hgood', hbad'⟩ := hspec' n (past t (u :: vs ++ rest) (σ.add a)) (σ.add a) rest (by omega)
    (sees_past t (cons_ne_nil u _) (σ.add a)) hfollow
    (by simp only [Core.add, Core.plus]; omega)
  simp only [heq, paramLoop, hsees₁.next, past_current, if_pos ht]
  refine ⟨fun hacc => ?_, fun hnot => ?_⟩
  · obtain ⟨htree, hsees₂⟩ := hgood' hacc.2.2
    refine ⟨m', _, by omega, ?_, by simpa [Core.add, nodes, strings] using hsees₂⟩
    simp only [htree, he.isNull_tree (by simp)]
    rfl
  · have hfailed := hbad' fun hacc => hnot ⟨hne, hacca, hacc⟩
    split
    · exact (failed_errorSet ..).paramLoop hkeeps _
    · exact hfailed.paramLoop hkeeps _

/-! ### All derivations -/

/-- The parser does what the derivation says, or fails if the phrase is not accepted. -/
theorem Derives.spec {nt : Nonterminal} (h : Derives nt ts e) : Spec rt nt ts e := by
  induction h with
  | literal ht => exact spec_literal ht
  | string ht => exact spec_string ht
  | paren hl _ _ _ => exact fun h => absurd hl (h _ _ rfl)
  | identifier ht => exact spec_identifier ht
  | primary he ih => exact spec_primary he ih
  | inc he ht ih => exact spec_step (.inl ⟨ht, rfl⟩) he ih
  | dec he ht ih => exact spec_step (.inr ⟨ht, rfl⟩) he ih
  | call hf hl ha hr ihf iha => exact spec_call hf ihf hl ha iha hr
  | post he ih => exact spec_post he ih
  | plus ht he ih => exact spec_plus ht he ih
  | minus ht he ih => exact spec_minus ht he ih
  | unary ht he ih => exact spec_unary ht he ih
  | ofUnary he ih => exact spec_ofUnary he ih
  | cast hl hT hr he ih => exact spec_cast hl hT hr he ih
  | level he ih => exact spec_level he ih
  | binary hl ht hr ihl ihr => exact spec_binary hl ihl ht hr ihr
  | inclusiveOr he ih => exact spec_inclusiveOr he ih
  | assign hl ht hr ihl ihr => exact spec_assign hl ihl ht hr ihr
  | noParams => exact fun h => absurd rfl h
  | param he ih => exact spec_param he ih
  | params ha ht he iha ihe => exact spec_params ha iha ht he ihe

end RtThread.Finsh
