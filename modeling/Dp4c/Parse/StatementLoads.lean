import Dp4c.Parse.TypeLoads

/-! # Where the nodes of statements and declarations go -/
namespace Dp4c.Parse

open Dp4c.Lib Dp4c.Lib.Prog

variable {fwd : Forward} {memory : Memory}

section

variable (h : fwd.Keeps)
include h

/-! ## Declarations among statements -/

theorem buildOptConstructorParameters_keeps :
    Keeps allCalls 0 (buildOptConstructorParameters fwd) Any :=
  optList_keeps (.next (.bindNew (buildParameterList_keeps h.types) fun _ _ =>
    .expect (.pure trivial)))

theorem buildConstantDeclaration_keeps : Keeps allCalls 0 (buildConstantDeclaration fwd) Any := by
  refine .expect (.node (by decide) fun a ha => .require (.bindNew (buildTypeRef_keeps h.types) ?_))
  refine fun type _ => .setAst ha (by decide) fun a ha =>
    .require (.bindNew (buildName_keeps false) ?_)
  refine fun name _ => .setAst ha (by decide) fun a ha => .expect (.require ?_)
  refine .bindNew (h.types.expression 1) fun e _ => .setAst ha (by decide) fun a _ => ?_
  exact .expect (.pure trivial)

theorem buildVariableDeclaration_keeps (typeRef : Ast) :
    Keeps allCalls (load typeRef + 0) (buildVariableDeclaration fwd typeRef) Any := by
  refine .requireOr (.node (by decide) fun a ha =>
    .givenOr (buildTypeRef_keeps h.types) fun type => ?_)
  refine .setAst ha (by decide) fun a ha => .require (.bindNew (buildName_keeps false) ?_)
  refine fun name _ => .setAst ha (by decide) fun a ha =>
    .bindNew (buildOptInitializer_keeps h.types) ?_
  exact fun e _ => .setAst ha (by decide) fun a _ => .expect (.pure trivial)

theorem buildInstantiation_keeps (typeRef : Ast) :
    Keeps allCalls (load typeRef + 0) (buildInstantiation fwd typeRef) Any := by
  refine .requireOr (.node (by decide) fun a ha =>
    .givenOr (buildTypeRef_keeps h.types) fun type => ?_)
  refine .setAst ha (by decide) fun a ha => .expect (.bindNew (buildArgumentList_keeps h.types) ?_)
  refine fun args _ => .setList ha (by decide) fun a ha => .expect (.require ?_)
  refine .bindNew (buildName_keeps false) fun name _ => .setAst ha (by decide) fun a _ => ?_
  exact .expect (.pure trivial)

/-! ## Applications, assignments and calls -/

theorem buildDirectApplication_keeps (typeName : Ast) :
    Keeps allCalls (load typeName + 0) (buildDirectApplication fwd typeName) Any := by
  refine .requireOr (.node (by decide) fun a ha => ?_)
  refine .givenOr (buildTypeName_keeps h.types).any fun type =>
    .setAst ha (by decide) fun a ha => ?_
  refine .expect (.expect (.expect (.bindNew (buildArgumentList_keeps h.types) fun args _ => ?_)))
  exact .setList ha (by decide) fun a _ => .expect (.expect (.pure trivial))

omit h in
theorem buildPrefixedNonTypeName_keeps : Keeps allCalls 0 buildPrefixedNonTypeName Any :=
  .quiet buildDotPrefix_quiet fun _ => .bindNew (buildNonTypeName_keeps false) fun _ ha =>
    .setMore (ha.bare (by decide)) rfl rfl

theorem buildLvalueExpr_keeps : Keeps allCalls 0 (buildLvalueExpr fwd) Any := by
  refine .ifToken (.next (.bindNew (buildName_keeps false) fun a ha => ?_)) (.ifToken ?_ (.error _))
  · exact .setMore (ha.bare (by decide)) rfl rfl
  · exact .next (.bindNew (buildArrayIndex_keeps h.types) fun index _ => .expect (.pure trivial))

theorem buildLvalue_keeps : Keeps allCalls 0 (buildLvalue fwd) Any := by
  refine .require (.node (by decide) fun a ha => .bindNew buildPrefixedNonTypeName_keeps ?_)
  refine fun name _ => .setAst ha (by decide) fun a ha => .ifToken ?_ (.pure trivial)
  refine .bindNew (whileList_keeps (buildLvalueExpr_keeps h) fwd.fuel) fun exprs _ => ?_
  exact .setListLast ha (by decide) fun _ _ => trivial

/-- The type arguments behind an lvalue, which an assignment drops. -/
theorem wp_typeArguments (s : State) : wp (note .lvalue >>= fun _ => buildOptTypeArguments fwd) s
    (fun types t => Grows allCalls s t ∧ ∀ F, Counts s F → Counts t (load types + F) ∧
      Counts { t with trace := ⟨.assignment, t.tokenAt, t.token.klass⟩ :: t.trace } F)
    fun e => Grows allCalls s e.state := by
  let s' : State := { s with trace := ⟨.lvalue, s.tokenAt, s.token.klass⟩ :: s.trace }
  have hs' : ∀ F, Counts s F → Counts s' F := fun F hs => ⟨hs.ids, hs.flaws⟩
  have hgrows : ∀ {t}, Grows plainCalls s' t → Grows allCalls s t := by
    rintro t ⟨steps, h, -⟩
    exact (Grows.cons rfl rfl).trans (t := s') ⟨steps, h, fun _ _ => rfl⟩
  have hplain : Keeps plainCalls 0 (buildOptTypeArguments fwd) Any :=
    optList_keeps (.next (.bindNew (buildTypeArgumentList_keeps h.plain) fun _ _ =>
      .expect (.pure trivial)))
  rw [wp_bind, note, wp_modify]
  refine wp_mono (hplain s') (fun types t ht => ?_) fun e he => hgrows he
  obtain ⟨htrace, -, hcounts⟩ := ht
  refine ⟨hgrows htrace, fun F hs => ?_⟩
  have ht := hcounts F (by rw [zero_add]; exact hs' F hs)
  refine ⟨ht, le_trans (Multiset.le_add_left _ _) ht.ids, hs.flaws.trans ?_⟩
  exact htrace.dropped.symm

/-- After an lvalue the call takes the type arguments over, the assignment does not. -/
theorem typeArguments_keeps {call : Option AstList → Parser Ast} {assign : Parser Ast}
    {what : String} {rest : Ast → Parser Ast} {L : Load}
    (hcall : ∀ types, Keeps allCalls (load types + L) (call types) Any)
    (hassign : Keeps allCalls L assign Any)
      (hrest : ∀ a, Keeps allCalls (load a + 0) (rest a) Any) :
    Keeps allCalls L (note .lvalue >>= fun _ => buildOptTypeArguments fwd >>= fun types =>
      ifToken (is .parenthOpen) (call types)
        (ifToken (is .equal) (note .assignment >>= fun _ => assign) (error what)) >>= rest)
        Any := by
  have hbind : ∀ {x : Parser Ast} {K : Load}, Keeps allCalls K x Any →
      Keeps allCalls K (x >>= rest) Any := fun {x K} hx =>
    (Keeps.bind (hx.of_eq (by rw [add_zero])) fun a _ => hrest a).of_eq (add_zero K)
  intro s
  rw [← bind_assoc, wp_bind]
  refine wp_mono (wp_typeArguments h s) (fun types t ht => ?_) fun e he => he
  obtain ⟨htrace, hcounts⟩ := ht
  cases hopen : is .parenthOpen t.token.klass with
  | true =>
    rw [wp_bind, wp_congr (ifToken_pos hopen), ← wp_bind]
    refine wp_mono (hbind (hcall types) t) (fun a u hu => ?_) fun e he => htrace.trans he
    obtain ⟨htrace', ha, hcounts'⟩ := hu
    refine ⟨htrace.trans htrace', ha, fun F hs => hcounts' F ?_⟩
    rw [add_assoc]
    exact (hcounts _ hs).1
  | false =>
    rw [wp_bind, wp_congr (ifToken_neg hopen)]
    cases hequal : is .equal t.token.klass with
    | true =>
      rw [wp_congr (ifToken_pos hequal), wp_bind, note, wp_modify, ← wp_bind]
      have hstep : Grows allCalls s
          { t with trace := ⟨.assignment, t.tokenAt, t.token.klass⟩ :: t.trace } :=
        htrace.trans (.cons rfl rfl)
      refine wp_mono (hbind hassign _) (fun a u hu => ?_) fun e he => hstep.trans he
      obtain ⟨htrace', ha, hcounts'⟩ := hu
      exact ⟨hstep.trans htrace', ha, fun F hs => hcounts' F (hcounts _ hs).2⟩
    | false =>
      rw [wp_congr (ifToken_neg hequal)]
      exact htrace

theorem buildAssignmentOrMethodCallStatement_keeps :
    Keeps allCalls 0 (buildAssignmentOrMethodCallStatement fwd) Any := by
  refine .require (.bindNew (buildLvalue_keeps h) fun lvalue _ => ?_)
  refine typeArguments_keeps h (fun types => ?_) ?_ fun a => .expect (.pure (a := a) trivial)
  · refine .next (.node (by decide) fun a ha => ?_)
    refine .of_eq (.setAst (K := load types + 0) ha (by decide) fun a ha => ?_) (by ac_rfl)
    refine .of_eq (.setList (K := 0) ha (by decide) fun a ha => ?_) (add_left_comm ..)
    refine .bindNew (buildArgumentList_keeps h.types) fun args _ => .setList ha (by decide) ?_
    exact fun a _ => .expect (.pure trivial)
  · refine .next (.node (by decide) fun a ha => .giveAst ha (by decide) fun a ha => ?_)
    exact .bindNew (h.types.expression 1) fun e _ => .setAstLast ha (by decide) fun _ _ => trivial

/-! ## Statements of parser states -/

theorem buildParserStatements_keeps : Keeps allCalls 0 (buildParserStatements fwd) Any :=
  optList_keeps (whileList_keeps h.parserStatement fwd.fuel)

theorem buildParserBlockStatements_keeps :
    Keeps allCalls 0 (buildParserBlockStatements fwd) Any := by
  refine .require (.node (by decide) fun a ha =>
    .next (.bindNew (buildParserStatements_keeps h) ?_))
  exact fun stmts _ => .setList ha (by decide) fun a _ => .expect (.pure trivial)

theorem buildParserStatement_keeps : Keeps allCalls 0 (buildParserStatement fwd) Any := by
  refine .quiet (.note rfl (by decide)) fun _ =>
    .ifToken (.bindNew (buildTypeRef_keeps h.types) ?_) ?_
  · refine fun type _ => .ifToken (buildVariableDeclaration_keeps h type) ?_
    exact buildDirectApplication_keeps h type
  · refine .ifToken (buildAssignmentOrMethodCallStatement_keeps h) ?_
    refine .ifToken (buildParserBlockStatements_keeps h) ?_
    refine .ifToken (buildConstantDeclaration_keeps h) (.ifToken ?_ (.error _))
    exact (Keeps.new (by decide)).any

/-! ## Statements of controls, actions and functions -/

theorem buildConditionalStatement_keeps : Keeps allCalls 0 (buildConditionalStatement fwd) Any := by
  refine .expect (.node (by decide) fun a ha =>
    .expect (.require (.bindNew (h.types.expression 1) ?_)))
  refine fun e _ => .setAst ha (by decide) fun a ha => .expect (.require (.bindNew h.statement ?_))
  refine fun stmt _ => .setAst ha (by decide) fun a ha => .ifToken ?_ (.pure trivial)
  refine .next (.require (.bindNew h.statement fun stmt _ => ?_))
  exact .setAstLast ha (by decide) fun _ _ => trivial

omit h in
theorem buildExitStatement_keeps : Keeps allCalls 0 buildExitStatement Any :=
  .expect (.node (by decide) fun _ _ => .expect (.pure trivial))

theorem buildReturnStatement_keeps : Keeps allCalls 0 (buildReturnStatement fwd) Any := by
  refine .expect (.node (by decide) fun a ha => .bind (R := Any) ?_ fun _ _ =>
    .expect (.pure trivial))
  refine .ifToken (.bindNew (h.types.expression 1) fun e _ => ?_) (.pure trivial)
  exact .setAstLast ha (by decide) fun _ _ => trivial

omit h in
theorem buildSwitchLabel_keeps : Keeps allCalls 0 buildSwitchLabel Any := by
  refine .ifToken (.node (by decide) fun a ha => .bindNew (buildName_keeps false) fun name _ => ?_)
    (.ifToken (.next (Keeps.new (by decide)).any) (.error _))
  exact .setAstLast ha (by decide) fun _ _ => trivial

theorem buildSwitchCase_keeps : Keeps allCalls 0 (buildSwitchCase fwd) Any := by
  refine .require (.node (by decide) fun a ha => .bindNew buildSwitchLabel_keeps fun label _ => ?_)
  refine .setAst ha (by decide) fun a ha => .expect (.ifToken ?_ (.pure trivial))
  exact .bindNew h.blockStatement fun stmt _ => .setAstLast ha (by decide) fun _ _ => trivial

theorem buildSwitchCases_keeps : Keeps allCalls 0 (buildSwitchCases fwd) Any :=
  optList_keeps (whileList_keeps (buildSwitchCase_keeps h) fwd.fuel)

theorem buildSwitchStatement_keeps : Keeps allCalls 0 (buildSwitchStatement fwd) Any := by
  refine .expect (.node (by decide) fun a ha =>
    .expect (.bindNew (h.types.expression 1) fun e _ => ?_))
  refine .setAst ha (by decide) fun a ha =>
    .expect (.expect (.bindNew (buildSwitchCases_keeps h) ?_))
  exact fun cases _ => .setList ha (by decide) fun a _ => .expect (.pure trivial)

theorem buildPlainStatement_keeps : Keeps allCalls 0 (buildPlainStatement fwd) Any := by
  refine .ifToken (buildDirectApplication_keeps h .null) ?_
  refine .ifToken (buildAssignmentOrMethodCallStatement_keeps h) ?_
  refine .ifToken (buildConditionalStatement_keeps h) ?_
  refine .ifToken (.next (Keeps.new (by decide)).any) (.ifToken h.blockStatement ?_)
  refine .ifToken buildExitStatement_keeps (.ifToken (buildReturnStatement_keeps h) ?_)
  exact .ifToken (buildSwitchStatement_keeps h) (.error _)

theorem buildStatement_keeps (typeName : Ast) :
    Keeps allCalls (load typeName + 0) (buildStatement fwd typeName) Any := by
  cases typeName with
  | null => exact buildPlainStatement_keeps h
  | node => exact buildDirectApplication_keeps h _

theorem buildAfterType_keeps {typeRef : Ast} {other : Parser Ast}
    (hother : Keeps allCalls (load typeRef + 0) other Any) :
    Keeps allCalls (load typeRef + 0) (buildAfterType fwd typeRef other) Any :=
  .ifToken (buildInstantiation_keeps h typeRef)
    (.ifToken (buildVariableDeclaration_keeps h typeRef) hother)

theorem buildStatementOrDecl_keeps : Keeps allCalls 0 (buildStatementOrDecl fwd) Any := by
  refine .ifToken (.ifToken (.bindNew (buildTypeRef_keeps h.types) fun type _ => ?_) ?_) .null
  · exact buildAfterType_keeps h (buildStatement_keeps h type)
  · exact .ifToken (buildStatement_keeps h .null)
      (.ifToken (buildConstantDeclaration_keeps h) (.stop _))

theorem buildStatementOrDeclList_keeps : Keeps allCalls 0 (buildStatementOrDeclList fwd) Any :=
  optList_keeps (whileList_keeps (buildStatementOrDecl_keeps h) fwd.fuel)

theorem buildBlockStatement_keeps : Keeps allCalls 0 (buildBlockStatement fwd) Any := by
  refine .require (.node (by decide) fun a ha =>
    .next (.bindNew (buildStatementOrDeclList_keeps h) ?_))
  exact fun stmts _ => .setList ha (by decide) fun a _ => .expect (.pure trivial)

end

end Dp4c.Parse
