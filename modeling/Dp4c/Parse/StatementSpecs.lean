import Dp4c.Parse.ExpressionSpecs

/-! # Contracts of the functions for statements and local declarations -/
namespace Dp4c.Parse

open Dp4c.Lib Dp4c.Lib.Prog

variable {memory : Memory} {n : Nat} {fwd : Forward} {a : Ast} {p : TokenClass → Bool}

section

variable (h : fwd.Fits memory n)
include h

/-! ## Declarations among statements -/

theorem buildOptConstructorParameters_spec :
    Spec memory (n + 1) any 0 (buildOptConstructorParameters fwd) (ListOf (isKind .parameter)) := by
  refine .ifToken (.next rfl (.bind (buildParameterList_spec h) fun params hp => ?_)) (.pure .none)
  exact .expect (by decide) (.pure hp)

theorem buildConstantDeclaration_spec :
    Spec memory (n + 2) any 1 (buildConstantDeclaration fwd) (Is (isKind .constDecl)) := by
  refine .expectEnter (by decide) (.node fun a ha => .require (.bind (typeRef_spec h) ?_))
  refine fun type ht => .set ha (.ast rfl ht) fun a ha => .require (.bind buildName_spec ?_)
  refine fun name hn => .set ha (.ast rfl hn) fun a ha => .expect (by decide) (.require ?_)
  refine .bind (h.expression 1) fun e he => .set ha (.ast rfl he) fun a ha => ?_
  exact .expect (by decide) (.pure (ha.finish rfl rfl))

variable (ha : a = .null ∨ Is isTypeKind a)
include ha

theorem buildVariableDeclaration_spec :
    Spec memory (n + 1) any 1 (buildVariableDeclaration fwd a) (Is (isKind .varDecl)) := by
  refine .requireOr (.node fun b hb => .givenOr ha (typeRef_spec h) fun type ht => ?_)
  refine .set hb (.ast rfl ht) fun b hb => .require (.bind buildName_spec fun name hn => ?_)
  refine .set hb (.ast rfl hn) fun b hb => .bind (buildOptInitializer_spec h) fun e he => ?_
  exact .set hb (.ast rfl he) fun b hb => .expect (by decide) (.pure (hb.finish rfl rfl))

theorem buildInstantiation_spec :
    Spec memory (n + 1) any 1 (buildInstantiation fwd a) (Is (isKind .instantiation)) := by
  refine .requireOr (.node fun b hb => .givenOr ha (typeRef_spec h) fun type ht => ?_)
  refine .set hb (.ast rfl ht) fun b hb => .expect (by decide) ?_
  refine .bind (buildArgumentList_spec h) fun args hargs => .set hb (.list rfl hargs) fun b hb => ?_
  refine .expect (by decide) (.require (.bind buildName_spec fun name hn => ?_))
  exact .set hb (.ast rfl hn) fun b hb => .expect (by decide) (.pure (hb.finish rfl rfl))

/-! ## Applications, assignments and calls -/

theorem buildDirectApplication_spec :
    Spec memory (n + 2) any 1 (buildDirectApplication fwd a) (Is (isKind .directApplic)) := by
  have htypeName : Spec memory (n + 2) any 1 (buildTypeName fwd) (Is isTypeKind) :=
    (buildTypeName_spec h).imp fun b hb => hb.mono (by decide)
  refine .requireOr (.node fun b hb => .givenOr ha htypeName fun type ht => ?_)
  refine .set hb (.ast rfl ht) fun b hb => .expectEnter (by decide) (.expect (by decide) ?_)
  refine .expect (by decide) (.bind (buildArgumentList_spec h) fun args hargs => ?_)
  refine .set hb (.list rfl hargs) fun b hb => .expect (by decide) ?_
  exact .expect (by decide) (.pure (hb.finish rfl rfl))

omit h ha in
theorem buildPrefixedNonTypeName_spec :
    Spec memory n any 1 buildPrefixedNonTypeName (Is (isKind .name)) := by
  refine .bind buildDotPrefix_spec fun dot _ => .bind buildNonTypeName_spec fun name hn => ?_
  refine (Spec.setMore hn rfl fun k hk => ?_)
  rw [isKind, beq_iff_eq] at hk
  exact hk ▸ .plain rfl trivial rfl

omit ha

theorem buildLvalueExpr_spec :
    Spec memory (n + 1) any 1 (buildLvalueExpr fwd) (Is isLvalueExprKind) := by
  refine .ifToken (.next rfl (.bind buildName_spec fun name hn => ?_))
    (.ifToken (.next rfl ?_) .error)
  · refine (Spec.setMore hn rfl fun k hk => ?_).imp fun a ha => ha.mono (by decide)
    rw [isKind, beq_iff_eq] at hk
    exact hk ▸ .plain rfl trivial rfl
  · refine .bind (buildArrayIndex_spec h) fun index hi => .expect (by decide) (.pure ?_)
    exact hi.mono (by decide)

theorem buildLvalue_spec : Spec memory (n + 2) any 1 (buildLvalue fwd) (Is (isKind .lvalue)) := by
  refine .require (.node fun a ha => .enter buildPrefixedNonTypeName_spec.at fun name hn => ?_)
  refine .set ha (.ast rfl hn) fun a ha => .ifToken ?_ (.pure (ha.finish rfl rfl))
  have hlist : Spec memory (n + 1) (fun k => any k && goesOnLvalue k) 1
      (whileList goesOnLvalue (buildLvalueExpr fwd) fwd.fuel) (ListOf isLvalueExprKind) :=
    whileList_spec (buildLvalueExpr_spec h).at (Nat.succ_le_succ h.fuel) (by decide)
  refine .bindFrom hlist fun exprs he => ?_
  exact .setLast ha (.list rfl he) fun a ha => ha.finish rfl rfl

theorem buildOptTypeArguments_spec :
    Spec memory (n + 1) any 0 (buildOptTypeArguments fwd) (ListOf isTypeArgKind) := by
  refine .ifToken (.next rfl (.bind (buildTypeArgumentList_spec h) fun args hargs => ?_))
    (.pure .none)
  exact .expect (by decide) (.pure hargs)

theorem buildAssignmentOrMethodCallStatement_spec :
    Spec memory (n + 2) any 1 (buildAssignmentOrMethodCallStatement fwd) (Is isStmtKind) := by
  refine .require (.enter (buildLvalue_spec h).at fun lvalue hl => ?_)
  refine .note (by decide) (fun k _ => ⟨by simp, by simp, by simp⟩) ?_
  refine .bind (buildOptTypeArguments_spec h) fun types ht => ?_
  have hstmt : Spec memory (n + 1) any 1
      (ifToken (is .parenthOpen)
        (do
          nextToken
          let callStmt ← newAstNode .methodCallStmt
          let callStmt ← astSetattr callStmt .lvalue .ast (.ast lvalue)
          let callStmt ← astSetattr callStmt .typeArgs .astList (listValue types)
          let callStmt ← astSetattr callStmt .args .astList (listValue (← buildArgumentList fwd))
          expect .parenthClose "`)` was expected"
          return callStmt) <|
        ifToken (is .equal)
          (do
            note .assignment
            nextToken
            let assgnStmt ← newAstNode .assignmentStmt
            let assgnStmt ← astSetattr assgnStmt .lvalue .ast (.ast lvalue)
            astSetattr assgnStmt .expr .ast (.ast (← fwd.expression 1)))
          (error "assignment or function call was expected")) (Is isStmtKind) := by
    refine .ifToken (.next rfl (.node fun a ha => ?_)) (.ifToken ?_ .error)
    · refine .set ha (.ast rfl hl) fun a ha => .set ha (.list rfl ht) fun a ha => ?_
      refine .bind (buildArgumentList_spec h) fun args hargs =>
        .set ha (.list rfl hargs) fun a ha => ?_
      exact .expect (by decide) (.pure (ha.finish rfl rfl))
    · refine .note (by decide) (fun k _ => ⟨by simp, by simp, by simp⟩) ?_
      refine .next rfl (.node fun a ha => ?_)
      refine .set ha (.ast rfl hl) fun a ha => .bind (h.expression 1) fun e he => ?_
      exact .setLast ha (.ast rfl he) fun a ha => ha.finish rfl rfl
  exact .bind hstmt fun a ha => .expect (by decide) (.pure ha)

/-! ## Statements of parser states -/

omit h in
/-- A first item and one more while the condition holds is the loop from the start. -/
theorem whileList_eq {c : TokenClass → Bool} {item : Parser Ast} {fuel : Nat} {s : State}
    (hc : c s.token.klass = true) :
    whileList c item fuel s = (do return some (← whileLoop c item (fuel + 1) {}) : Parser _) s := by
  have hloop : (whileLoop c item (fuel + 1) {} >>= fun list => pure (some list)) s =
      ((do whileLoop c item fuel (← astListAppendLink {} (← item))) >>= fun list =>
        pure (some list)) s := by
    rw [bind_apply, whileLoop, ifToken_pos hc, ← bind_apply]
  rw [hloop, whileList, newAstList_eq, pure_bind]
  simp only [bind_assoc]

/-- The loop stays at a semicolon for as long as it may. -/
theorem whileLoop_halts : ∀ {fuel : Nat} {list : AstList} {s : State}, Halting memory s →
    2 * s.left < n + 1 → list.Ready → (0 < fuel ∨ ∃ step ∈ s.trace, step.Stuck) →
    wp (whileLoop tokenIsParserStatement fwd.parserStatement fuel list) s (fun _ _ => False)
      (fun e => Ended memory e ∧ Later 0 s e.state)
  | 0, list, s, hs, hl, hlist, hstuck =>
    have hstuck := hstuck.resolve_left (Nat.lt_irrefl 0)
    ⟨⟨hs.inBounds, hs.within, .outOfFuel rfl hstuck hs.listed hs.accepted⟩, .refl _⟩
  | fuel + 1, list, s, hs, hl, hlist, hstuck => by
    unfold whileLoop
    have hc : tokenIsParserStatement s.token.klass = true := by rw [hs.klass]; rfl
    refine (wp_congr (ifToken_pos hc)).mpr ?_
    rw [wp_bind]
    refine wp_mono (h.halts s hs hl) ?_ fun _ h => h.elim
    rintro a t ⟨ht, hleft, hlater, hstuck⟩
    unfold astListAppendLink
    rw [if_neg fun h => h.2 (hlist h.1)]
    refine wp_mono (whileLoop_halts ht (by omega) (fun h => absurd h (by simp)) (.inr hstuck))
      (fun _ _ h => h) fun e he => ⟨he.1, hlater.andEnds he.2⟩

theorem parserStatementLoop_spec : ∀ {fuel k : Nat} {list : AstList}, k ≤ n + 1 → k ≤ fuel + 1 →
    Growing isStmtOrDeclKind list → Spec memory k any 0
      (whileLoop tokenIsParserStatement fwd.parserStatement fuel list) (Growing isStmtOrDeclKind)
  | 0, _, _, _, hk, _ => .exhausted hk
  | fuel + 1, k, list, hn, hk, hl => by
    refine .split (is .semicolon) (fun s hs hk hleft => ?_) ?_
    · have hsemi : s.token.klass = .semicolon := by simpa [any, is] using hk
      refine wp_mono (whileLoop_halts h ?_ (by omega) hl.1 (.inl (Nat.succ_pos _)))
        (fun _ _ h => h.elim) fun _ he => he
      exact ⟨hsemi, hs.inBounds, hs.within, hs.orderly.listed, hs.orderly.accepted⟩
    · unfold whileLoop
      refine .ifToken (.bindFrom (h.parserStatement.mono hn ?_ (Nat.le_refl _) fun _ h => h) ?_)
        (.pure hl)
      · intro k hk
        simp only [Bool.and_eq_true] at hk
        exact hk.1.2
      · intro a ha
        refine .append hl ha fun list hl => ?_
        exact parserStatementLoop_spec (by omega) (by omega) hl

theorem buildParserStatements_spec :
    Spec memory (n + 1) any 0 (buildParserStatements fwd) (ListOf isStmtOrDeclKind) := by
  refine .ifToken (fun s hs hk hl => ?_) (.pure .none)
  refine (wp_congr (whileList_eq hk)).mpr ?_
  have hloop : Spec memory (n + 1) any 0
      (do return some (← whileLoop tokenIsParserStatement fwd.parserStatement (fwd.fuel + 1) {}))
      (ListOf isStmtOrDeclKind) := by
    refine .bind (parserStatementLoop_spec h (Nat.le_refl _) ?_ ?_) fun list hl => .pure hl.listOf
    · exact Nat.succ_le_succ (h.fuel.trans (Nat.le_succ _))
    · exact ⟨fun _ => rfl, fun _ h => nomatch h⟩
  exact hloop s hs rfl hl

theorem buildParserBlockStatements_spec :
    Spec memory (n + 2) any 1 (buildParserBlockStatements fwd) (Is (isKind .blockStmt)) := by
  refine .require (.node fun a ha => .nextEnter rfl (.bind (buildParserStatements_spec h) ?_))
  exact fun stmts hs => .set ha (.list rfl hs) fun a ha =>
    .expect (by decide) (.pure (ha.finish rfl rfl))

theorem buildParserStatement_spec :
    Spec memory (n + 2) (fun k => !is .semicolon k) 1 (buildParserStatement fwd)
      (Is isStmtOrDeclKind) := by
  refine .note (by decide) (fun k hk => ⟨by simp, ?_, by simp⟩) ?_
  · rintro ⟨-, rfl⟩
    cases hk
  refine .ifToken (.enter (buildTypeRef_spec h).at fun type ht => ?_) ?_
  · refine .ifToken ((buildVariableDeclaration_spec h (.inr ht)).imp ?_).rest ?_
    · exact fun a ha => ha.mono (by decide)
    · refine ((buildDirectApplication_spec h (.inr ht)).fewer (Nat.le_succ _) |>.imp ?_).rest
      exact fun a ha => ha.mono (by decide)
  refine .ifToken ((buildAssignmentOrMethodCallStatement_spec h).imp ?_).at ?_
  · exact fun a ha => ha.mono (by decide)
  refine .ifToken ((buildParserBlockStatements_spec h).imp ?_).at ?_
  · exact fun a ha => ha.mono (by decide)
  refine .ifToken ((buildConstantDeclaration_spec h).imp ?_).at (.ifToken (.never ?_) .error)
  · exact fun a ha => ha.mono (by decide)
  · decide

omit h in
/-- At a semicolon nothing happens but that a node is made. -/
theorem buildParserStatement_halts {s : State} (hs : Halting memory s) :
    wp (buildParserStatement fwd) s (fun _ t => Halting memory t ∧ t.left = s.left ∧ Later 0 s t ∧
      ∃ step ∈ t.trace, step.Stuck) fun _ => False := by
  let step : Step := ⟨.parserStatement, s.tokenAt, s.token.klass⟩
  let s' : State := { s with trace := step :: s.trace }
  have hk : s'.token.klass = .semicolon := hs.klass
  have hrun : buildParserStatement fwd s =
      .ok (.node .emptyStmt s.nodeId s.token.lineNr [], { s' with nodeId := s.nodeId + 1 }) := by
    unfold buildParserStatement
    rw [bind_of_ok (rfl : note .parserStatement s = .ok ((), s')), ifToken_neg (by rw [hk]; rfl),
      ifToken_neg (by rw [hk]; rfl), ifToken_neg (by rw [hk]; rfl), ifToken_neg (by rw [hk]; rfl),
      ifToken_pos (by rw [hk]; rfl)]
    rfl
  refine wp_of_ok hrun ⟨⟨hs.klass, hs.inBounds, ?_, ?_, ?_⟩, rfl,
    ⟨rfl, id, Nat.le_refl _, List.suffix_cons _ _⟩, step,
    List.mem_cons_self, rfl, hs.klass⟩
  · refine List.forall_mem_cons.mpr ⟨s.within hs.inBounds fun hcall => ?_, hs.within⟩
    rcases hcall with hcall | hcall <;> cases hcall
  · exact List.forall_mem_cons.mpr ⟨(fun hcall => nomatch hcall.1), hs.listed⟩
  · exact List.forall_mem_cons.mpr ⟨(fun hcall => nomatch hcall.1), hs.accepted⟩

/-! ## Statements of controls, actions and functions -/

theorem buildConditionalStatement_spec :
    Spec memory (n + 1) any 1 (buildConditionalStatement fwd) (Is (isKind .ifStmt)) := by
  refine .expectEnter (by decide) (.node fun a ha => .expect (by decide) (.require ?_))
  refine .bind ((h.expression 1).fewer (Nat.le_succ _)) fun e he =>
    .set ha (.ast rfl he) fun a ha => ?_
  refine .expect (by decide) (.require (.bind h.statement fun stmt hs => .set ha (.ast rfl hs) ?_))
  refine fun a ha => .ifToken (.next rfl (.require ?_)) (.pure (ha.finish rfl rfl))
  refine .bind h.statement fun stmt hs => ?_
  exact .setLast ha (.ast rfl hs) fun a ha => ha.finish rfl rfl

omit h in
theorem buildExitStatement_spec : Spec memory n any 1 buildExitStatement (Is (isKind .exitStmt)) :=
  .expect (by decide) (.node fun _ ha => .expect (by decide) (.pure (ha.finish rfl rfl)))

theorem buildReturnStatement_spec :
    Spec memory (n + 1) any 1 (buildReturnStatement fwd) (Is (isKind .returnStmt)) := by
  refine .expect (by decide) (.node fun a ha => ?_)
  have hexpr : Spec memory (n + 1) any 0
      (ifToken tokenIsExpression (do astSetattr a .expr .ast (.ast (← fwd.expression 1))) (pure a))
      (Is (isKind .returnStmt)) := by
    refine .ifToken (.bind (h.expression 1) fun e he => ?_) (.pure (ha.finish rfl rfl))
    exact .setLast ha (.ast rfl he) fun a ha => ha.finish rfl rfl
  exact .bind hexpr fun a ha => .expect (by decide) (.pure ha)

omit h in
theorem buildSwitchLabel_spec : Spec memory n any 1 buildSwitchLabel (Is isLabelKind) := by
  refine .ifToken (.node fun a ha => .bind buildName_spec fun name hn => ?_) (.ifToken ?_ .error)
  · exact .setLast ha (.ast rfl hn) fun a ha => ha.finish rfl rfl
  · exact .next rfl (.nodeLast fun a ha => ha.finish rfl rfl)

theorem buildSwitchCase_spec :
    Spec memory (n + 1) any 1 (buildSwitchCase fwd) (Is (isKind .switchCase)) := by
  refine .require (.node fun a ha => .bind buildSwitchLabel_spec fun label hl => ?_)
  refine .set ha (.ast rfl hl) fun a ha => .expect (by decide) ?_
  refine .ifToken (.bind h.blockStatement fun stmt hs => ?_) (.pure (ha.finish rfl rfl))
  exact .setLast ha (.ast rfl hs) fun a ha => ha.finish rfl rfl

theorem buildSwitchCases_spec :
    Spec memory (n + 1) any 0 (buildSwitchCases fwd) (ListOf (isKind .switchCase)) :=
  optList_spec (whileList_spec (buildSwitchCase_spec h).at (Nat.succ_le_succ h.fuel) (by decide))

theorem buildSwitchStatement_spec :
    Spec memory (n + 1) any 1 (buildSwitchStatement fwd) (Is (isKind .switchStmt)) := by
  refine .expect (by decide) (.node fun a ha => .expect (by decide) (.bind (h.expression 1) ?_))
  refine fun e he => .set ha (.ast rfl he) fun a ha => .expect (by decide) (.expect (by decide) ?_)
  refine .bind (buildSwitchCases_spec h) fun cases hc => .set ha (.list rfl hc) fun a ha => ?_
  exact .expect (by decide) (.pure (ha.finish rfl rfl))

theorem buildPlainStatement_spec :
    Spec memory (n + 1) any 1 (buildPlainStatement fwd) (Is isStmtKind) := by
  have hdirect := (buildDirectApplication_spec h (.inl rfl)).fewer (Nat.le_succ (n + 1))
  have hassign := (buildAssignmentOrMethodCallStatement_spec h).fewer (Nat.le_succ (n + 1))
  refine .ifToken (hdirect.widen (by decide) (by decide)) (.ifToken hassign.at ?_)
  refine .ifToken ((buildConditionalStatement_spec h).imp fun a ha => ha.mono (by decide)).at ?_
  refine .ifToken (.next rfl (.nodeLast fun a ha => ha.finish rfl rfl)) ?_
  refine .ifToken (h.blockStatement.imp fun a ha => ha.mono (by decide)).at ?_
  refine .ifToken (buildExitStatement_spec.imp fun a ha => ha.mono (by decide)).at ?_
  refine .ifToken ((buildReturnStatement_spec h).imp fun a ha => ha.mono (by decide)).at ?_
  exact .ifToken ((buildSwitchStatement_spec h).imp fun a ha => ha.mono (by decide)).at .error

theorem buildStatement_spec (ha : a = .null ∨ Is isTypeKind a) :
    Spec memory (n + 1) any 1 (buildStatement fwd a) (Is isStmtKind) := by
  cases a with
  | null => exact buildPlainStatement_spec h
  | node =>
    exact ((buildDirectApplication_spec h ha).fewer (Nat.le_succ _)).imp fun a ha =>
      ha.mono (by decide)

theorem buildAfterType_spec {other : Parser Ast} {kinds : AstKind → Bool} (ha : Is isTypeKind a)
    (hkinds : ∀ k, isLocalElementKind k = true → kinds k = true)
    (hother : Spec memory (n + 1) any 0 other (Is kinds)) :
    Spec memory (n + 1) any 0 (buildAfterType fwd a other) (Is kinds) := by
  refine .ifToken ((buildInstantiation_spec h (.inr ha)).imp fun b hb => hb.mono ?_).rest ?_
  · have hsub : ∀ k, isKind .instantiation k = true → isLocalElementKind k = true := by decide
    exact fun k hk => hkinds k (hsub k hk)
  · refine .ifToken ((buildVariableDeclaration_spec h (.inr ha)).imp fun b hb => hb.mono ?_).rest ?_
    · have hsub : ∀ k, isKind .varDecl k = true → isLocalElementKind k = true := by decide
      exact fun k hk => hkinds k (hsub k hk)
    · exact hother.at

theorem buildStatementOrDecl_spec :
    Spec memory (n + 1) tokenIsStatementOrDeclaration 1 (buildStatementOrDecl fwd)
      (Is isStmtOrDeclKind) := by
  refine .ifToken (.ifToken (.bind (typeRef_spec h) fun type ht => ?_) ?_) (.never (by decide))
  · refine buildAfterType_spec h ht (by decide) ?_
    exact ((buildStatement_spec h (.inr ht)).imp fun a ha => ha.mono (by decide)).rest
  · refine .ifToken ((buildStatement_spec h (.inl rfl)).imp fun a ha => ha.mono (by decide)).at ?_
    have hconst := (buildConstantDeclaration_spec h).fewer (Nat.le_succ (n + 1))
    exact .ifToken (hconst.widen (by decide) (by decide)) (.never (by decide))

theorem buildStatementOrDeclList_spec :
    Spec memory (n + 1) any 0 (buildStatementOrDeclList fwd) (ListOf isStmtOrDeclKind) :=
  optList_spec (whileList_spec (buildStatementOrDecl_spec h) (Nat.succ_le_succ h.fuel) (by decide))

theorem buildBlockStatement_spec :
    Spec memory (n + 2) any 1 (buildBlockStatement fwd) (Is (isKind .blockStmt)) := by
  refine .require (.node fun a ha => .nextEnter rfl (.bind (buildStatementOrDeclList_spec h) ?_))
  exact fun stmts hs => .set ha (.list rfl hs) fun a ha =>
    .expect (by decide) (.pure (ha.finish rfl rfl))

end

end Dp4c.Parse
