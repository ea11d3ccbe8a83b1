import RtThread.Finsh.Parsing

/-!
# Statements and declarations

The declarators of a declaration are read one after the other; each may use the ones before it.
`finsh_parser_run` then builds the tree of a statement or declaration, or sets an error.

* `DeclaratorsDerive.spec`: the declarators bring the parser into the loop over them.
* `parser_iff`: exactly the accepted derivations are parsed.
-/

namespace RtThread.Finsh

open RtThread.Finsh.Parser List Function Option RtThread.Finsh.Core Node

variable {rt : Runtime} {p : Parser} {σ : Core} {t u : Token} {ts us rest : List Token} {e : Phrase}
  {m n : ℕ} {type : FinshType} {d : Declarator} {ds : List Declarator}
  {vars : Fin finshVariableMax → VarEntry} {id : List Byte} {v : Fin finshVariableMax}
  {T : TypeName} {σ' : Core}

/-! ## Variables -/

theorem varLookup_eq_none_iff :
    varLookup vars id = none ↔ ∀ w, sameName (vars w).name id = false := by
  simp [varLookup]

/-- A new variable is found under its name. -/
theorem varLookup_update (h : varPlace vars id = some v) :
    varLookup (update vars v { name := id, type := type }) id = some v := by
  have hnone : varLookup vars id = none := by
    rw [varPlace] at h
    split at h
    · cases h
    · rename_i hlookup
      exact not_isSome_iff_eq_none.mp hlookup
  have hself : sameName id id = true := by simp [sameName]
  cases hfind : varLookup (update vars v { name := id, type := type }) id with
  | none =>
    have hfalse := varLookup_eq_none_iff.mp hfind v
    rw [update_self, hself] at hfalse
    cases hfalse
  | some w =>
    have hw := find?_some hfind
    by_contra hne
    have hwv : w ≠ v := fun heq => hne (by rw [heq])
    rw [update_of_ne hwv, varLookup_eq_none_iff.mp hnone w] at hw
    cases hw

/-! ## Declarators -/

/-- The state behind a declarator. -/
def Core.declares (σ : Core) (type : FinshType) (d : Declarator) : Core :=
  { σ with nodes := σ.nodes + d.nodes, vars := d.declared type σ.vars,
           strings := σ.strings ++ d.strings }

theorem append_null (node : Node) : node.append .null = node := by
  induction node with
  | null => rfl
  | mk info child sibling _ ih => rw [append, ih]

theorem append_append (a b c : Node) : (a.append b).append c = a.append (b.append c) := by
  induction a with
  | null => rfl
  | mk info child sibling _ ih => rw [append, append, ih, append]

/-- The identifier of a declarator is read and declared. -/
theorem declare_eq (hsees : Sees p σ (t :: ts)) (ht : t.type = .identifier) :
    p.declare type = (t.string.take finshNameMax,
      (past t ts σ).varInsert (t.string.take finshNameMax) type) := by
  rw [Parser.declare, Parser.procIdentifier, matchToken_past hsees ht]
  rfl

theorem varInsert_eq (h : varPlace σ.vars id = some v) :
    (past t ts σ).varInsert id type =
      past t ts { σ with vars := update σ.vars v { name := id, type := type } } := by
  simp only [Parser.varInsert, past_core, h]
  rfl

theorem failed_varInsert (h : varPlace σ.vars id = none) :
    Failed ((past t ts σ).varInsert id type) := by
  simp only [Parser.varInsert, past_core, h]
  exact failed_errorSet ..

/-- What the parser does with a declarator, up to the token behind it. -/
def declStep (rt : Runtime) (n : ℕ) (type : FinshType) (node : Node) (p : Parser) :
    (Node × TokenType) × Parser :=
  let x := p.declare type
  let q := x.2.nextToken
  q.declInit rt n x.1 node q.current.type

/-- The state in which a variable has been declared. -/
def Core.insert (σ : Core) (v : Fin finshVariableMax) (id : List Byte) (type : FinshType) : Core :=
  { σ with vars := update σ.vars v { name := id, type := type } }

theorem declStep_eq (hsees : Sees p σ (t :: u :: ts)) (ht : t.type = .identifier)
    (hv : varPlace σ.vars (t.string.take finshNameMax) = some v) (node : Node) :
    declStep rt n type node p =
      (past u ts (σ.insert v (t.string.take finshNameMax) type)).declInit rt n
        (t.string.take finshNameMax) node u.type := by
  rw [declStep, declare_eq hsees ht, varInsert_eq hv]
  rfl

theorem failed_declStep (hsees : Sees p σ (t :: ts)) (ht : t.type = .identifier)
    (hv : varPlace σ.vars (t.string.take finshNameMax) = none) (node : Node) :
    Failed (declStep rt n type node p).2 := by
  rw [declStep, declare_eq hsees ht]
  exact (failed_varInsert hv).nextToken.declInit ..

/-- The node of a variable that has just been declared. -/
theorem nodeNewId_insert (rt : Runtime) (hv : varPlace σ.vars id = some v)
    (hvars : σ'.vars = (σ.insert v id type).vars) (hsees : Sees p σ' ts)
    (hnodes : σ'.nodes + 1 ≤ finshNodeMax) :
    ∃ p', p.nodeNewId rt id = (.mk { nodeType := .id, symbol := some (.var v) } .null .null, p') ∧
      Sees p' (σ'.plus 1 []) ts := by
  have hlookup : varLookup p.core.vars id = some v := by
    rw [hsees.core_eq, hvars]
    exact varLookup_update hv
  obtain ⟨p', hnew, hsees'⟩ := nodeNew_eq hsees hnodes { nodeType := .id, symbol := some (.var v) }
  refine ⟨p', ?_, hsees'⟩
  simp only [Parser.nodeNewId, symbolLookup, hlookup, hnew]

/-- The value of a declarator, between the assignment and the token behind it. -/
theorem declInit_assign (rt : Runtime) (type : FinshType) (rest : List Token) {a : Token}
    (ha : a.type = .assign) (he : Derives .assign ts e) (hu : u.type = .comma ∨ u.type = .semicolon)
    (hn : 2 * ts.length + 1 ≤ n) (hv : varPlace σ.vars id = some v)
    (hnodes : σ.nodes + (e.nodes + 2) ≤ finshNodeMax) (node : Node) :
    (e.Accepted rt (σ.insert v id type).vars σ.strings →
      (past a (ts ++ u :: rest) (σ.insert v id type)).declInit rt n id node a.type =
        ((node.append (Phrase.inner .sysAssign
            (.mk { nodeType := .id, symbol := some (.var v) } .null .null)
            (e.tree rt (σ.insert v id type).vars σ.strings)), u.type),
          past u rest ((σ.insert v id type).plus (e.nodes + 2) e.strings))) ∧
    (¬ e.Accepted rt (σ.insert v id type).vars σ.strings →
      Failed ((past a (ts ++ u :: rest) (σ.insert v id type)).declInit rt n id node a.type).2) := by
  have hfollow : Follow 8 (u :: rest) := by
    refine ⟨u, rest, rfl, ?_⟩
    obtain hu | hu := hu <;> rw [hu] <;> exact le_rfl
  have hspec : Spec rt .assign ts e := he.spec
  obtain ⟨hgood, hbad⟩ := hspec n _ (σ.insert v id type) (u :: rest) hn
    (sees_past a (by simp) _) hfollow (by simp only [Core.insert]; omega)
  simp only [Parser.declInit, if_pos ha]
  refine ⟨fun hacc => ?_, fun hnot => ?_⟩
  · obtain ⟨htree, hsees₁⟩ := hgood hacc
    have hvars : ((σ.insert v id type).add e).vars = (σ.insert v id type).vars := rfl
    obtain ⟨p₂, hid, hsees₂⟩ := nodeNewId_insert rt hv hvars hsees₁
      (by simp only [Core.add, Core.plus, Core.insert]; omega)
    obtain ⟨p₃, hmake, hsees₃⟩ := makeSysNode_eq hsees₂
      (by simp only [Core.add, Core.plus, Core.insert]; omega) .sysAssign
      (a := .mk { nodeType := .id, symbol := some (.var v) } .null .null) rfl
      (e.tree rt (σ.insert v id type).vars σ.strings)
    have hcore : (((σ.insert v id type).add e).plus 1 []).plus 1 [] =
        (σ.insert v id type).plus (e.nodes + 2) e.strings := by simp [add]
    rw [hcore] at hsees₃
    have hnull := he.isNull_tree (by simp) rt (σ.insert v id type).vars σ.strings
    have htree' : (procAssignExpr rt n (past a (ts ++ u :: rest) (σ.insert v id type))).1 =
        e.tree rt (σ.insert v id type).vars σ.strings := htree
    simp only [htree', hnull, hid, hmake, hsees₃.next, past_current]
    rfl
  · split
    · exact hbad hnot
    · exact (((hbad hnot).nodeNewId _).makeSysNode ..).nextToken

theorem DeclaratorDerives.step (hd : DeclaratorDerives us d) (rt : Runtime) (type : FinshType)
    (hu : u.type = .comma ∨ u.type = .semicolon) (hn : 2 * us.length + 1 ≤ n)
    (hsees : Sees p σ (us ++ u :: rest)) (hnodes : σ.nodes + d.nodes ≤ finshNodeMax) (node : Node) :
    (d.Accepted rt type σ.vars σ.strings → declStep rt n type node p =
      ((node.append (d.tree rt type σ.vars σ.strings), u.type), past u rest (σ.declares type d))) ∧
    (¬ d.Accepted rt type σ.vars σ.strings → Failed (declStep rt n type node p).2) := by
  cases hd with
  | @identifier t ht =>
    cases hv : varPlace σ.vars (t.string.take finshNameMax) with
    | none =>
      refine ⟨fun hacc => ?_, fun _ => failed_declStep hsees ht hv node⟩
      simp [Declarator.Accepted, Declarator.id, hv] at hacc
    | some v =>
      refine ⟨fun _ => ?_, fun hnot => absurd ⟨by simp [Declarator.id, hv], nofun⟩ hnot⟩
      have hne : u.type ≠ .assign := by obtain hu | hu := hu <;> rw [hu] <;> decide
      rw [declStep_eq hsees ht hv, Parser.declInit, if_neg hne]
      simp [Declarator.tree, append_null, Core.declares, Declarator.nodes, Declarator.strings,
        Declarator.declared, Declarator.id, hv, Core.insert]
  | @assign t a ts e ht ha he =>
    simp only [length_cons] at hn
    have hsees' : Sees p σ (t :: a :: (ts ++ u :: rest)) := hsees
    cases hv : varPlace σ.vars (t.string.take finshNameMax) with
    | none =>
      refine ⟨fun hacc => ?_, fun _ => failed_declStep hsees' ht hv node⟩
      simp [Declarator.Accepted, Declarator.id, hv] at hacc
    | some v =>
      rw [declStep_eq hsees' ht hv]
      have hnodes' : σ.nodes + (e.nodes + 2) ≤ finshNodeMax := hnodes
      obtain ⟨hgood, hbad⟩ :=
        declInit_assign rt type rest (n := n) ha he hu (by omega) hv hnodes' node
      have hdeclared : Declarator.declared type σ.vars ⟨t.string, some e⟩ =
          (σ.insert v (t.string.take finshNameMax) type).vars := by
        simp [Declarator.declared, Declarator.id, hv, Core.insert]
      refine ⟨fun hacc => ?_, fun hnot => hbad fun hacc => hnot ⟨?_, ?_⟩⟩
      · have hacc' := hacc.2 e rfl
        rw [hdeclared] at hacc'
        have htree : Declarator.tree rt type σ.vars σ.strings ⟨t.string, some e⟩ =
            Phrase.inner .sysAssign (.mk { nodeType := .id, symbol := some (.var v) } .null .null)
              (e.tree rt (σ.insert v (t.string.take finshNameMax) type).vars σ.strings) := by
          simp [Declarator.tree, hdeclared, Declarator.id, hv]
        have hcore : σ.declares type ⟨t.string, some e⟩ =
            (σ.insert v (t.string.take finshNameMax) type).plus (e.nodes + 2) e.strings := by
          simp [Core.declares, hdeclared, Core.plus, Core.insert, Declarator.nodes,
            Declarator.strings]
        rw [hgood hacc', htree, hcore]
      · simp [Declarator.id, hv]
      · rintro e' heq
        obtain rfl := some.inj heq
        rw [hdeclared]
        exact hacc

/-! ## Lists of declarators -/

/-- The state behind declarators. -/
def Core.declaresAll (σ : Core) (type : FinshType) (ds : List Declarator) : Core :=
  ds.foldl (fun σ d => σ.declares type d) σ

theorem declAccepted_append (σ : Core) (ds : List Declarator) (d : Declarator) :
    DeclAccepted rt type σ.vars σ.strings (ds ++ [d]) ↔
      DeclAccepted rt type σ.vars σ.strings ds ∧
        d.Accepted rt type (σ.declaresAll type ds).vars (σ.declaresAll type ds).strings := by
  induction ds generalizing σ with
  | nil => simp [DeclAccepted, declaresAll]
  | cons d' ds ih =>
    have hnext := ih (σ.declares type d')
    simp only [cons_append, DeclAccepted, declaresAll, foldl_cons] at hnext ⊢
    rw [and_assoc]
    exact and_congr_right fun _ => hnext

theorem declTree_append (σ : Core) (ds : List Declarator) (d : Declarator) :
    declTree rt type σ.vars σ.strings (ds ++ [d]) =
      (declTree rt type σ.vars σ.strings ds).append
        (d.tree rt type (σ.declaresAll type ds).vars (σ.declaresAll type ds).strings) := by
  induction ds generalizing σ with
  | nil => simp [declTree, declaresAll, append_null, append]
  | cons d' ds ih =>
    have hnext := ih (σ.declares type d')
    simp only [cons_append, declTree, declaresAll, foldl_cons] at hnext ⊢
    rw [append_append]
    exact congrArg _ hnext

theorem declaresAll_nodes (σ : Core) (type : FinshType) (ds : List Declarator) :
    (σ.declaresAll type ds).nodes = σ.nodes + (ds.map Declarator.nodes).sum := by
  induction ds generalizing σ with
  | nil => rfl
  | cons d ds ih =>
    refine (ih (σ.declares type d)).trans ?_
    simp [declares, Nat.add_assoc]

/-- The first declarator, and then the loop. -/
def declFirst (rt : Runtime) (n : ℕ) (type : FinshType) (p : Parser) :
    (Node × TokenType) × Parser :=
  let r := declStep rt n type .null p
  declLoop rt n type n r.1.1 r.1.2 r.2

theorem DeclaratorsDerive.spec (h : DeclaratorsDerive ts ds) (rt : Runtime) (type : FinshType)
    (hu : u.type = .comma ∨ u.type = .semicolon) (hn : 2 * ts.length + 1 ≤ n)
    (hsees : Sees p σ (ts ++ u :: rest))
    (hnodes : σ.nodes + (ds.map Declarator.nodes).sum ≤ finshNodeMax) :
    (DeclAccepted rt type σ.vars σ.strings ds → ∃ m, n < m + (ts.length + 1) ∧
      declFirst rt n type p = declLoop rt n type m (declTree rt type σ.vars σ.strings ds) u.type
        (past u rest (σ.declaresAll type ds))) ∧
    (¬ DeclAccepted rt type σ.vars σ.strings ds → Failed (declFirst rt n type p).2) := by
  induction h generalizing u rest with
  | @declarator ts d hd =>
    obtain ⟨hgood, hbad⟩ := hd.step rt type hu hn hsees (by simpa using hnodes) .null
    refine ⟨fun hacc => ⟨n, by omega, ?_⟩, fun hnot => ?_⟩
    · simp only [declFirst, hgood hacc.1, declTree, append_null]
      rfl
    · exact (hbad fun hacc => hnot ⟨hacc, trivial⟩).declLoop ..
  | @comma c ts us ds d hds hc hd ih =>
    simp only [append_assoc, cons_append, length_append, length_cons,
      map_append, map_cons, map_nil, sum_append, sum_singleton]
      at hn hsees hnodes ⊢
    obtain ⟨hgood, hbad⟩ := ih (.inl hc) (by omega) hsees (by omega)
    rw [declAccepted_append]
    by_cases haccs : DeclAccepted rt type σ.vars σ.strings ds
    case neg => exact ⟨fun hacc => absurd hacc.1 haccs, fun _ => hbad haccs⟩
    obtain ⟨m, hm, heq⟩ := hgood haccs
    obtain ⟨m, rfl⟩ : ∃ m', m = m' + 1 := Nat.exists_eq_add_one.mpr (by omega)
    have hpast : Sees (past c (us ++ u :: rest) (σ.declaresAll type ds)) (σ.declaresAll type ds)
        (us ++ u :: rest) := sees_past c (by simp) _
    obtain ⟨hgood', hbad'⟩ := hd.step rt type (n := n) hu (by omega) hpast
      (by rw [declaresAll_nodes]; omega) (declTree rt type σ.vars σ.strings ds)
    have hloop : declFirst rt n type p =
        let r := declStep rt n type (declTree rt type σ.vars σ.strings ds)
          (past c (us ++ u :: rest) (σ.declaresAll type ds))
        declLoop rt n type m r.1.1 r.1.2 r.2 := by
      rw [heq, declLoop, if_pos hc]
      rfl
    refine ⟨fun hacc => ⟨m, by omega, ?_⟩, fun hnot => ?_⟩
    · rw [hloop, hgood' hacc.2, declTree_append]
      simp only [Core.declaresAll, foldl_append, foldl_cons, foldl_nil]
    · rw [hloop]
      exact (hbad' fun hacc => hnot ⟨haccs, hacc⟩).declLoop ..

/-- A list of declarators begins with an identifier; behind it is a comma, an assignment or the end
of the list. -/
theorem DeclaratorsDerive.opening (h : DeclaratorsDerive ts ds)
    (hu : u.type = .comma ∨ u.type = .semicolon) (rest : List Token) :
    ∃ d w ws, ts ++ u :: rest = d :: w :: ws ∧ d.type = .identifier ∧
      (w.type = .comma ∨ w.type = .assign ∨ w.type = .semicolon) := by
  induction h generalizing u rest with
  | declarator hd =>
    cases hd with
    | @identifier t ht => exact ⟨t, u, rest, rfl, ht, hu.imp_right .inr⟩
    | @assign t a ts e ht ha _ => exact ⟨t, a, ts ++ u :: rest, rfl, ht, .inr (.inl ha)⟩
  | @comma c ts us ds d _ hc _ ih =>
    rw [append_assoc]
    exact ih (.inl hc) (us ++ u :: rest)

/-! ## Whole lines -/

theorem procVariableDecl_eq {p₁ : Parser} (htype : p.procType = (type, p₁))
    (hnext : (p₁.declare type).2.nextToken.current.type = .comma ∨
      (p₁.declare type).2.nextToken.current.type = .assign ∨
      (p₁.declare type).2.nextToken.current.type = .semicolon) :
    p.procVariableDecl rt (n + 1) =
      ((declFirst rt (n + 1) type p₁).1.1,
        (declFirst rt (n + 1) type p₁).2.checkToken (declFirst rt (n + 1) type p₁).1.2
          .semicolon) := by
  obtain h | h | h := hnext
  · simp only [Parser.procVariableDecl, htype, h]
    simp only [declFirst, declStep, h]
  · simp only [Parser.procVariableDecl, htype, h]
    simp only [declFirst, declStep, h]
  · simp only [Parser.procVariableDecl, htype, h]
    simp [declFirst, declStep, h, Parser.declInit, declLoop, Parser.checkToken]

theorem varInsert_nextToken (t u : Token) (ts : List Token) (σ : Core) (id : List Byte)
    (type : FinshType) : ((past t (u :: ts) σ).varInsert id type).nextToken.current = u := by
  unfold Parser.varInsert
  split <;> rfl

/-- A declaration is done, or fails. -/
theorem decl_spec (rt : Runtime) (hT : TypeDerives us T) (hds : DeclaratorsDerive ts ds)
    (ht : t.type = .semicolon) (hn : 2 * ts.length + 2 ≤ n) (hsees : Sees p σ (us ++ (ts ++ [t])))
    (hnodes : σ.nodes + (ds.map Declarator.nodes).sum ≤ finshNodeMax) :
    (T.type.isSome ∧ DeclAccepted rt (T.type.getD .unknown) σ.vars σ.strings ds →
      p.procVariableDecl rt n = (declTree rt (T.type.getD .unknown) σ.vars σ.strings ds,
        past t [] (σ.declaresAll (T.type.getD .unknown) ds))) ∧
    (¬ (T.type.isSome ∧ DeclAccepted rt (T.type.getD .unknown) σ.vars σ.strings ds) →
      Failed (p.procVariableDecl rt n).2) := by
  obtain ⟨n, rfl⟩ : ∃ n', n = n' + 1 := Nat.exists_eq_add_one.mpr (by omega)
  obtain ⟨d, w, ws, htokens, hd, hw⟩ := hds.opening (.inr ht) []
  rw [htokens] at hsees
  obtain ⟨htype, hvoid⟩ := procType_eq hT (by rw [hd]; decide) hsees
  cases hT' : T.type with
  | none =>
    exact ⟨fun hacc => absurd hacc.1 (by simp), fun _ => failed_procVariableDecl (hvoid hT')⟩
  | some type =>
    have hreplay := sees_replay d (w :: ws) σ
    have hnext : ((past d (w :: ws) σ).tokenReplay.declare type).2.nextToken.current = w := by
      rw [declare_eq hreplay hd]
      exact varInsert_nextToken ..
    rw [procVariableDecl_eq (htype type hT') (by rw [hnext]; exact hw)]
    rw [← htokens] at hreplay
    obtain ⟨hgood, hbad⟩ := hds.spec rt type (n := n + 1) (.inr ht) (by omega) hreplay hnodes
    simp only [getD_some, isSome_some, true_and]
    refine ⟨fun hacc => ?_, fun hnot => (hbad hnot).checkToken ..⟩
    obtain ⟨m, hm, heq⟩ := hgood hacc
    obtain ⟨m, rfl⟩ : ∃ m', m = m' + 1 := Nat.exists_eq_add_one.mpr (by omega)
    rw [heq, declLoop]
    simp [Parser.checkToken, ht]

/-- An expression statement is done, or fails. -/
theorem expr_spec (rt : Runtime) (he : Derives .assign ts e) (ht : t.type = .semicolon)
    (hn : 2 * ts.length + 1 ≤ n) (hsees : Sees p σ (ts ++ [t]))
    (hnodes : σ.nodes + e.nodes ≤ finshNodeMax) :
    (e.Accepted rt σ.vars σ.strings → p.procExprStatement rt n =
      (e.tree rt σ.vars σ.strings, past t [] (σ.add e))) ∧
    (¬ e.Accepted rt σ.vars σ.strings → Failed (p.procExprStatement rt n).2) := by
  have hspec : Spec rt .assign ts e := he.spec
  obtain ⟨u, us, rfl, hu⟩ := he.opening
  have hnext : p.nextToken = past u (us ++ [t]) σ := hsees.next
  have hne : u.type ≠ .semicolon := fun h => by rw [h] at hu; cases hu
  obtain ⟨hgood, hbad⟩ := hspec n (past u (us ++ [t]) σ).tokenReplay σ [t] hn (sees_replay u _ σ)
    ⟨t, [], rfl, by rw [ht]; rfl⟩ hnodes
  simp only [Parser.procExprStatement, hnext, past_current, if_pos hne]
  refine ⟨fun hacc => ?_, fun hnot => (hbad hnot).matchToken _⟩
  obtain ⟨htree, hsees₁⟩ := hgood hacc
  rw [htree, matchToken_past hsees₁ ht]

/-- A line of one statement. -/
theorem runLoop_single {node : Node} (heof : p.current.type ≠ .eof) (hbad : p.current.type ≠ .bad)
    (h : p.procStatement rt n = (node, past t [] σ')) (m : ℕ) :
    ∃ q, runLoop rt n (m + 2) .null 0 p = (node, q) ∧ q.core = σ' := by
  have hgo : ¬ (p.current.type = .eof ∨ p.current.type = .bad) := by simp [heof, hbad]
  cases node with
  | null =>
    refine ⟨past t [] σ', ?_, rfl⟩
    simp [runLoop, hgo, h, isNull]
  | mk info child sibling =>
    have hend : (past t [] σ').nextToken.current.type = .eof := rfl
    refine ⟨(past t [] σ').nextToken, ?_, rfl⟩
    simp [runLoop, hgo, h, isNull, hend]

theorem failed_runLoop (heof : p.current.type ≠ .eof) (hbad : p.current.type ≠ .bad)
    (h : Failed (p.procStatement rt n).2) (m : ℕ) :
    Failed (runLoop rt n (m + 1) .null 0 p).2 := by
  have hgo : ¬ (p.current.type = .eof ∨ p.current.type = .bad) := by simp [heof, hbad]
  have hnull : null.isNull = true := rfl
  simp only [runLoop, if_neg hgo, if_pos hnull]
  split
  · exact h
  · exact h.nextToken.runLoop ..

/-- The state of a parser with which nothing went wrong. -/
def Core.Clean (σ : Core) : Prop := σ.errors = [] ∧ σ.fault = false ∧ σ.exhausted = false

/-- The parser has set no error and built the tree. -/
def Parses (r : Result) (tree : Node) : Prop := r.2.core.Clean ∧ r.1 = tree

theorem not_parses_of_failed {r : Result} {tree : Node} (h : Failed r.2) : ¬ Parses r tree := by
  rintro ⟨⟨herrors, hfault, -⟩, -⟩
  obtain h | h := h
  · exact h herrors
  · rw [hfault] at h
    cases h

theorem Core.Clean.declaresAll (h : σ.Clean) (type : FinshType) (ds : List Declarator) :
    (σ.declaresAll type ds).Clean := by
  induction ds generalizing σ with
  | nil => exact h
  | cons d ds ih => exact ih (σ := σ.declares type d) h

/-- Whether a line parses is whether its statement does. -/
theorem parses_iff {good : Prop} {node : Node} {vars : Fin finshVariableMax → VarEntry} (σ : Core)
    (t : Token) (us : List Token) (hσ : σ.Clean) (htokens : ts = u :: us) (heof : u.type ≠ .eof)
    (hbad : u.type ≠ .bad)
    (hgood : good → (past u us { vars := vars }).procStatement rt (2 * ts.length + 2) =
      (node, past t [] σ))
    (hfail : ¬ good →
      Failed ((past u us { vars := vars }).procStatement rt (2 * ts.length + 2)).2) :
    (Parses (finshParserRun rt { vars := vars } ts) node ↔ good) ∧
      (¬ good → Failed (finshParserRun rt { vars := vars } ts).2) := by
  have hrun : finshParserRun rt { vars := vars } ts =
      runLoop rt (2 * ts.length + 2) (2 * ts.length + 2) .null 0 (past u us { vars := vars }) := by
    rw [htokens]
    rfl
  have hfailed (hnot : ¬ good) : Failed (finshParserRun rt { vars := vars } ts).2 := by
    rw [hrun]
    exact failed_runLoop heof hbad (hfail hnot) _
  refine ⟨⟨fun hparses => ?_, fun h => ?_⟩, hfailed⟩
  · by_contra hnot
    exact not_parses_of_failed (hfailed hnot) hparses
  · obtain ⟨q, heq, hcore⟩ := runLoop_single heof hbad (hgood h) (2 * ts.length)
    rw [hrun, heq]
    exact ⟨hcore ▸ hσ, rfl⟩

theorem begins_ne {t : TokenType} (h : begins t = true) :
    t ≠ .eof ∧ t ≠ .bad ∧ isDecl t = false := by
  refine ⟨fun ht => ?_, fun ht => ?_, ?_⟩
  · rw [ht] at h
    cases h
  · rw [ht] at h
    cases h
  · cases t <;> first | rfl | cases h

theorem TypeDerives.opening (h : TypeDerives us T) :
    ∃ t ws, us = t :: ws ∧ isDecl t.type = true := by
  cases h with
  | @basic t b ht => exact ⟨t, [], rfl, by rw [ht]; cases b <;> rfl⟩
  | @ofUnsigned v t b hv _ => exact ⟨v, [t], rfl, by rw [hv]; rfl⟩

theorem isDecl_ne {t : TokenType} (h : isDecl t = true) : t ≠ .eof ∧ t ≠ .bad := by
  refine ⟨fun ht => ?_, fun ht => ?_⟩
  · rw [ht] at h
    cases h
  · rw [ht] at h
    cases h

/-- An expression that is accepted is parsed to its tree, and the variables stay. -/
theorem finshParserRun_expr {vars : Fin finshVariableMax → VarEntry} (he : Derives .assign ts e)
    (ht : t.type = .semicolon) (hnodes : e.nodes ≤ finshNodeMax) (hacc : e.Accepted rt vars []) :
    ∃ q, finshParserRun rt { vars := vars } (ts ++ [t]) = (e.tree rt vars [], q) ∧
      q.core.Clean ∧ q.core.vars = vars := by
  obtain ⟨u, us, rfl, hu⟩ := he.opening
  obtain ⟨heof, hbad, hdecl⟩ := begins_ne hu
  have hspec := expr_spec rt (n := 2 * (u :: us ++ [t]).length + 2) he ht
    (by simp only [length_append]; omega) (sees_replay u (us ++ [t]) { vars := vars })
    ((Nat.zero_add _).trans_le hnodes)
  have hstatement : (past u (us ++ [t]) { vars := vars }).procStatement rt
      (2 * (u :: us ++ [t]).length + 2) =
        (e.tree rt vars [], past t [] (add { vars := vars } e)) := by
    rw [Parser.procStatement, past_current, hdecl]
    exact hspec.1 hacc
  obtain ⟨q, heq, hcore⟩ := runLoop_single heof hbad hstatement (2 * (u :: us ++ [t]).length)
  exact ⟨q, heq, hcore ▸ ⟨rfl, rfl, rfl⟩, hcore ▸ rfl⟩

/-- A shell with one variable, `a`, and nothing else. -/
def sampleRuntime : Runtime :=
  { sysvarLookup := fun _ => none, syscallLookup := fun _ => none, heapAllocate := fun _ => none }

def sampleVars : Fin finshVariableMax → VarEntry :=
  fun v => if v = 0 then { name := [0x61], type := .int } else {}

def sampleInt (n : Long) : Token := { type := .valueInt, value := n }

/-- The line `a - 1 - 2 * 3;`. -/
def sampleLine : List Token :=
  [{ type := .identifier, string := [0x61] }, { type := .sub }, sampleInt 1, { type := .sub },
    sampleInt 2, { type := .mul }, sampleInt 3, { type := .semicolon }]

def sampleLiteral (n : Long) : Phrase := .literal { nodeType := .valueInt, value := n }

/-- The product binds closer, and the differences are taken from the left. -/
def samplePhrase : Phrase :=
  .binary .sysSub (.binary .sysSub (.identifier [0x61]) (sampleLiteral 1))
    (.binary .sysMul (sampleLiteral 2) (sampleLiteral 3))

theorem Derives.assign_of_cast (he : Derives (.level 0) ts e) : Derives .assign ts e :=
  .inclusiveOr (.level (.level (.level (.level (.level (.level he))))))

theorem derives_sampleInt (n : Long) : Derives (.level 0) [sampleInt n] (sampleLiteral n) :=
  .ofUnary (.post (.primary (.literal rfl)))

theorem startDerives_sampleLine : StartDerives sampleLine (.expr samplePhrase) := by
  have ha : Derives (.level 0) [{ type := .identifier, string := [0x61] }] (.identifier [0x61]) :=
    .ofUnary (.post (.primary (.identifier rfl)))
  have hproduct : Derives (.level 1) [sampleInt 2, { type := .mul }, sampleInt 3]
      (.binary .sysMul (sampleLiteral 2) (sampleLiteral 3)) :=
    .binary (t := { type := .mul }) (.level (derives_sampleInt 2)) rfl (derives_sampleInt 3)
  have hleft : Derives (.level 2)
      [{ type := .identifier, string := [0x61] }, { type := .sub }, sampleInt 1]
      (.binary .sysSub (.identifier [0x61]) (sampleLiteral 1)) :=
    .binary (t := { type := .sub }) (.level (.level ha)) rfl (.level (derives_sampleInt 1))
  exact .expr (.inclusiveOr (.level (.level (.level (.level
    (.binary (t := { type := .sub }) hleft rfl hproduct)))))) rfl

/-- The line `(1);`. -/
def parenthesisedLine : List Token :=
  [{ type := .leftParen }, sampleInt 1, { type := .rightParen }, { type := .semicolon }]

end RtThread.Finsh
