import RtThread.Finsh.Failures
import RtThread.Finsh.Grammar

/-!
# The tokens before the parser

`Sees` says which tokens a parser has before it, whether the first of them is to be read or to
be given again. `Follow` says at which tokens the loops over operators stop, and `Opening` how a
derivation begins.

* `Derives.opening`: every derivation begins as its `Opening` says.
* `Derives.isNull_tree`: the tree of a derivation has a node, unless it is a list of arguments.
-/

namespace RtThread.Finsh

open RtThread.Finsh.Parser List

variable {p : Parser} {σ : Core} {t : Token} {ts rest : List Token} {e : Phrase} {k : ℕ}
  {nt : Nonterminal} {type : NodeType}

/-! ## The tokens before a parser -/

/-- The parser that has just read `t`. -/
def past (t : Token) (ts : List Token) (σ : Core) : Parser :=
  { tokens := ts, current := t, replay := false, core := σ }

@[simp]
theorem past_current (t : Token) (ts : List Token) (σ : Core) : (past t ts σ).current = t := rfl

@[simp]
theorem past_core (t : Token) (ts : List Token) (σ : Core) : (past t ts σ).core = σ := rfl

/-- The next token is the first one of the list. -/
def Sees (p : Parser) (σ : Core) (ts : List Token) : Prop :=
  ∃ t us, ts = t :: us ∧ p.nextToken = past t us σ

theorem Sees.next (h : Sees p σ (t :: ts)) : p.nextToken = past t ts σ := by
  obtain ⟨u, us, heq, hnext⟩ := h
  obtain ⟨rfl, rfl⟩ := cons.inj heq
  exact hnext

theorem nextToken_core (p : Parser) : p.nextToken.core = p.core := by
  unfold Parser.nextToken
  split
  · rfl
  · split <;> rfl

theorem Sees.core_eq (h : Sees p σ ts) : p.core = σ := by
  obtain ⟨t, us, -, hnext⟩ := h
  rw [← nextToken_core, hnext]
  rfl

theorem sees_past (t : Token) {ts : List Token} (hts : ts ≠ []) (σ : Core) :
    Sees (past t ts σ) σ ts := by
  obtain ⟨u, us, rfl⟩ := exists_cons_of_ne_nil hts
  exact ⟨u, us, rfl, rfl⟩

theorem sees_replay (t : Token) (ts : List Token) (σ : Core) :
    Sees (past t ts σ).tokenReplay σ (t :: ts) := ⟨t, ts, rfl, rfl⟩

theorem Sees.withCore (h : Sees p σ ts) (σ' : Core) : Sees { p with core := σ' } σ' ts := by
  obtain ⟨t, us, rfl, hnext⟩ := h
  refine ⟨t, us, rfl, ?_⟩
  unfold Parser.nextToken at hnext ⊢
  split_ifs at hnext ⊢
  · simp only [past, Parser.mk.injEq] at hnext ⊢
    exact ⟨hnext.1, hnext.2.1, trivial, trivial⟩
  · cases htokens : p.tokens with
    | nil | cons v vs => simp_all [past]

theorem matchToken_past {type : TokenType} (h : Sees p σ (t :: ts)) (ht : t.type = type) :
    p.matchToken type = past t ts σ := by
  rw [Parser.matchToken, h.next]
  exact if_neg (not_not.mpr ht)

/-! ## Nodes and strings -/

/-- The state after more nodes and strings. -/
def Core.plus (σ : Core) (nodes : ℕ) (strings : List (List Byte)) : Core :=
  { σ with nodes := σ.nodes + nodes, strings := σ.strings ++ strings }

@[simp]
theorem plus_plus (σ : Core) (i j : ℕ) (s s' : List (List Byte)) :
    (σ.plus i s).plus j s' = σ.plus (i + j) (s ++ s') := by
  simp [Core.plus, Nat.add_assoc]

theorem nodeNew_eq (h : Sees p σ ts) (hn : σ.nodes + 1 ≤ finshNodeMax) (info : Info) :
    ∃ p', p.nodeNew info = (.mk info .null .null, p') ∧ Sees p' (σ.plus 1 []) ts := by
  have hcore := h.core_eq
  refine ⟨_, if_pos (by rw [hcore]; exact hn), ?_⟩
  have hplus : { p.core with nodes := p.core.nodes + 1 } = σ.plus 1 [] := by
    rw [hcore, Core.plus, append_nil]
  rw [hplus]
  exact h.withCore _

theorem makeSysNode_eq (h : Sees p σ ts) (hn : σ.nodes + 1 ≤ finshNodeMax) (type : NodeType)
    {a : Node} (ha : a.isNull = false) (b : Node) :
    ∃ p', p.makeSysNode type a b = (Phrase.inner type a b, p') ∧ Sees p' (σ.plus 1 []) ts := by
  have hcore := h.core_eq
  have hplus : { p.core with nodes := p.core.nodes + 1 } = σ.plus 1 [] := by
    rw [hcore, Core.plus, append_nil]
  refine ⟨{ p with core := σ.plus 1 [] }, ?_, h.withCore _⟩
  rw [Parser.makeSysNode, if_pos (by rw [hcore]; exact hn), hplus]
  simp [ha, Phrase.inner]

/-! ## What may follow -/

/-- The loosest level whose loop goes on at a token: 0 for the postfix operators, then the binary
levels, 7 for an assignment, 8 for none. -/
def follows : TokenType → ℕ
  | .inc | .dec | .leftParen => 0
  | .mul | .div | .mod => 1
  | .add | .sub => 2
  | .shl | .shr => 3
  | .and => 4
  | .xor => 5
  | .or => 6
  | .assign => 7
  | _ => 8

/-- The next token does not go on with a level below `k`. -/
def Follow (k : ℕ) (rest : List Token) : Prop := ∃ t us, rest = t :: us ∧ k ≤ follows t.type

theorem Follow.mono {j : ℕ} (h : Follow k rest) (hj : j ≤ k) : Follow j rest := by
  obtain ⟨t, us, rfl, ht⟩ := h
  exact ⟨t, us, rfl, hj.trans ht⟩

theorem follows_operator {t : TokenType} (h : operator k t = some type) : follows t = k := by
  unfold operator at h
  split at h <;> first | rfl | cases h

theorem operator_of_follows {t : TokenType} (h : k < follows t) : operator k t = none := by
  by_contra hne
  obtain ⟨type, htype⟩ := Option.ne_none_iff_exists'.mp hne
  exact absurd (follows_operator htype) (by omega)

/-! ## How phrases begin -/

/-- The tokens that begin an `expr_primary`. -/
def beginsPrimary : TokenType → Bool
  | .identifier | .leftParen | .valueChar | .valueInt | .valueLong | .valueString
  | .valueNull => true
  | _ => false

/-- The tokens that begin an expression. -/
def begins : TokenType → Bool
  | .add | .sub | .inc | .dec | .bitwise | .mul | .and => true
  | t => beginsPrimary t

theorem begins_of_beginsPrimary {t : TokenType} (h : beginsPrimary t = true) : begins t = true := by
  cases t <;> first | rfl | cases h

/-- How a derivation begins. An operand in parentheses cannot be done, and has an expression behind
its first token. -/
def Opening : Nonterminal → List Token → Phrase → Prop
  | .assign, ts, _ | .level _, ts, _ => ∃ t us, ts = t :: us ∧ begins t.type = true
  | .unary, ts, e =>
    ∃ t us, ts = t :: us ∧ begins t.type = true ∧ (t.type = .leftParen →
      (∃ u vs, us = u :: vs ∧ begins u.type = true) ∧ ∀ rt vars before, ¬ e.Accepted rt vars before)
  | .post, ts, e | .primary, ts, e =>
    ∃ t us, ts = t :: us ∧ beginsPrimary t.type = true ∧ (t.type = .leftParen →
      (∃ u vs, us = u :: vs ∧ begins u.type = true) ∧ ∀ rt vars before, ¬ e.Accepted rt vars before)
  | .params, ts, e =>
    e = .noParams ∧ ts = [] ∨ e ≠ .noParams ∧ ∃ t us, ts = t :: us ∧ t.type ≠ .rightParen

theorem beginsPrimary_literal {info : Info} (h : literalInfo t = some info) :
    beginsPrimary t.type = true ∧ t.type ≠ .leftParen := by
  unfold literalInfo at h
  split at h <;> simp_all [beginsPrimary]

theorem begins_unaryNode {t : TokenType} (h : unaryNode t = some type) :
    begins t = true ∧ t ≠ .leftParen := by
  unfold unaryNode at h
  split at h <;> simp_all [begins]

theorem Opening.append (h : Opening .post ts e) (us : List Token) {e' : Phrase}
    (hacc : ∀ rt vars before, e'.Accepted rt vars before → e.Accepted rt vars before) :
    Opening .post (ts ++ us) e' := by
  obtain ⟨t, ws, rfl, ht, hparen⟩ := h
  refine ⟨t, ws ++ us, rfl, ht, fun h => ?_⟩
  obtain ⟨⟨u, vs, rfl, hu⟩, hnot⟩ := hparen h
  exact ⟨⟨u, vs ++ us, rfl, hu⟩, fun rt vars before h' => hnot rt vars before (hacc _ _ _ h')⟩

theorem Derives.opening (h : Derives nt ts e) : Opening nt ts e := by
  induction h with
  | literal ht =>
    obtain ⟨hbegins, hne⟩ := beginsPrimary_literal ht
    exact ⟨_, _, rfl, hbegins, fun h => absurd h hne⟩
  | string ht | identifier ht | plus ht _ _ | minus ht _ _ =>
    exact ⟨_, _, rfl, by rw [ht]; rfl, fun h => by rw [ht] at h; cases h⟩
  | paren hl _ _ ih =>
    obtain ⟨t, us, rfl, ht⟩ := ih
    exact ⟨_, _, rfl, by rw [hl]; rfl, fun _ => ⟨⟨t, _, rfl, ht⟩, fun _ _ _ h => h⟩⟩
  | primary _ ih | level _ ih | inclusiveOr _ ih => exact ih
  | inc _ _ ih | dec _ _ ih => exact ih.append _ fun _ _ _ h => h
  | call _ _ _ _ ih _ => exact ih.append _ fun _ _ _ h => h.1
  | post _ ih =>
    obtain ⟨t, us, rfl, ht, hparen⟩ := ih
    exact ⟨t, us, rfl, begins_of_beginsPrimary ht, hparen⟩
  | unary ht _ _ =>
    obtain ⟨hbegins, hne⟩ := begins_unaryNode ht
    exact ⟨_, _, rfl, hbegins, fun h => absurd h hne⟩
  | ofUnary _ ih =>
    obtain ⟨t, us, rfl, ht, -⟩ := ih
    exact ⟨t, us, rfl, ht⟩
  | cast hl _ _ _ _ => exact ⟨_, _, rfl, by rw [hl]; rfl⟩
  | binary _ _ _ ih _ =>
    obtain ⟨t, us, rfl, ht⟩ := ih
    exact ⟨t, _, rfl, ht⟩
  | assign _ _ _ ih _ =>
    obtain ⟨t, us, rfl, ht, -⟩ := ih
    exact ⟨t, _, rfl, ht⟩
  | noParams => exact .inl ⟨rfl, rfl⟩
  | param _ ih =>
    obtain ⟨t, us, rfl, ht⟩ := ih
    exact .inr ⟨by simp, t, us, rfl, fun h => by rw [h] at ht; cases ht⟩
  | params _ ht _ ih _ =>
    obtain ⟨-, rfl⟩ | ⟨-, t, us, rfl, hne⟩ := ih
    · exact .inr ⟨by simp, _, _, rfl, fun h => by rw [ht] at h; cases h⟩
    · exact .inr ⟨by simp, t, _, rfl, hne⟩

theorem Derives.append_ne_nil (h : Derives (.level k) ts e) (rest : List Token) :
    ts ++ rest ≠ [] := by
  obtain ⟨t, us, rfl, -⟩ := h.opening
  exact cons_ne_nil t _

theorem isNull_setDataType (node : Node) (d : Byte) :
    (node.setDataType d).isNull = node.isNull := by
  cases node <;> rfl

theorem isNull_append (node : Node) {s : Node} (hs : s.isNull = false) :
    (node.append s).isNull = false := by
  cases node with
  | null => exact hs
  | mk info child sibling => rfl

/-- Every phrase but an empty list of arguments has a node. -/
theorem Derives.isNull_or (h : Derives nt ts e) :
    nt = .params ∧ e = .noParams ∨ ∀ rt vars before, (e.tree rt vars before).isNull = false := by
  induction h with
  | paren _ _ _ ih | primary _ ih | post _ ih | plus _ _ ih | ofUnary _ ih | level _ ih
  | inclusiveOr _ ih | param _ ih => exact ih.imp (fun h => nomatch h.1) id
  | cast _ _ _ _ ih =>
    refine ih.imp (fun h => nomatch h.1) fun h rt vars before => ?_
    rw [Phrase.tree, isNull_setDataType, h]
  | noParams => exact .inl ⟨rfl, rfl⟩
  | params _ _ _ _ ih =>
    refine ih.imp (fun h => nomatch h.1) fun h rt vars before => isNull_append _ (h rt vars _)
  | _ => exact .inr fun _ _ _ => rfl

theorem Derives.isNull_tree (h : Derives nt ts e) (hnt : nt ≠ .params) (rt : Runtime)
    (vars : Fin finshVariableMax → VarEntry) (before : List (List Byte)) :
    (e.tree rt vars before).isNull = false :=
  h.isNull_or.elim (fun h => absurd h.1 hnt) fun h => h rt vars before

end RtThread.Finsh
