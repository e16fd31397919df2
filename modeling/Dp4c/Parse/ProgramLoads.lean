import Dp4c.Parse.StatementLoads

/-! # Where the nodes of the program go -/
namespace Dp4c.Parse

open Dp4c.Lib Dp4c.Lib.Prog

variable {fwd : Forward} {memory : Memory}

section

variable (h : fwd.Keeps)
include h

/-! ## Parsers and their states -/

theorem buildSimpleKeysetExpression_keeps :
    Keeps allCalls 0 (buildSimpleKeysetExpression fwd) Any := by
  refine .ifToken (h.types.expression 1) (.ifToken ?_ (.ifToken ?_ (.error _)))
  · exact .next (Keeps.new (by decide)).any
  · exact .next (Keeps.new (by decide)).any

omit h in
theorem newTupleList_keeps : Keeps allCalls 0 (newTupleList memory) Any := by
  refine .quiet (.note rfl (by decide)) fun _ => .reads fun i => ?_
  unfold astListInit
  split
  · split
    · exact .of_eq (.pure trivial) rfl
    · exact .stop _
  · exact .stop _

theorem buildTupleKeysetExpression_keeps :
    Keeps allCalls 0 (buildTupleKeysetExpression fwd memory) Any := by
  refine .require (.node (by decide) fun a ha =>
    .next (.bindNew newTupleList_keeps fun exprs _ => ?_))
  refine .bindNew (buildSimpleKeysetExpression_keeps h) fun e _ => .append fun exprs => ?_
  refine .bind (commaLoop_keeps (buildSimpleKeysetExpression_keeps h) fwd.fuel exprs)
    fun exprs _ => ?_
  exact .setList (l := some exprs) ha (by decide) fun a _ => .expect (.pure trivial)

theorem buildKeysetExpression_keeps : Keeps allCalls 0 (buildKeysetExpression fwd memory) Any :=
  .ifToken (buildTupleKeysetExpression_keeps h)
    (.ifToken (buildSimpleKeysetExpression_keeps h) (.error _))

theorem buildSelectCase_keeps : Keeps allCalls 0 (buildSelectCase fwd memory) Any := by
  refine .require (.node (by decide) fun a ha => .bindNew (buildKeysetExpression_keeps h) ?_)
  refine fun keyset _ => .setAst ha (by decide) fun a ha => .expect (.require ?_)
  refine .bindNew (buildName_keeps false) fun name _ => .setAst ha (by decide) fun a _ => ?_
  exact .expect (.pure trivial)

theorem buildSelectCaseList_keeps : Keeps allCalls 0 (buildSelectCaseList fwd memory) Any :=
  optList_keeps (whileList_keeps (buildSelectCase_keeps h) fwd.fuel)

theorem buildSelectExpression_keeps : Keeps allCalls 0 (buildSelectExpression fwd memory) Any := by
  refine .expect (.node (by decide) fun a ha =>
    .expect (.bindNew (buildExpressionList_keeps h.types) ?_))
  refine fun exprs _ => .setList ha (by decide) fun a ha => .expect (.expect ?_)
  refine .bindNew (buildSelectCaseList_keeps h) fun cases _ => .setList ha (by decide) fun a _ => ?_
  exact .expect (.pure trivial)

theorem buildStateExpression_keeps : Keeps allCalls 0 (buildStateExpression fwd memory) Any := by
  refine .ifToken (.bindNew (buildName_keeps false) fun name _ => .expect (.pure trivial)) ?_
  exact .ifToken (buildSelectExpression_keeps h) (.error _)

theorem buildTransitionStatement_keeps :
    Keeps allCalls 0 (buildTransitionStatement fwd memory) Any :=
  .expect (buildStateExpression_keeps h)

theorem buildParserState_keeps : Keeps allCalls 0 (buildParserState fwd memory) Any := by
  refine .expect (.node (by decide) fun a ha => .bindNew (buildName_keeps false) fun name _ => ?_)
  refine .setAst ha (by decide) fun a ha => .expect (.bindNew (buildParserStatements_keeps h) ?_)
  refine fun stmts _ => .setList ha (by decide) fun a ha => ?_
  refine .bindNew (buildTransitionStatement_keeps h) fun stmt _ => .setAst ha (by decide) ?_
  exact fun a _ => .expect (.pure trivial)

theorem buildParserStates_keeps : Keeps allCalls 0 (buildParserStates fwd memory) Any :=
  .require (whileList_keeps (buildParserState_keeps h) fwd.fuel)

theorem buildParserLocalElement_keeps : Keeps allCalls 0 (buildParserLocalElement fwd) Any := by
  refine .require (.ifToken (buildConstantDeclaration_keeps h) (.ifToken ?_ (.stop _)))
  exact .bindNew (buildTypeRef_keeps h.types) fun type _ => buildAfterType_keeps h .unexpected

theorem buildParserLocalElements_keeps : Keeps allCalls 0 (buildParserLocalElements fwd) Any :=
  optList_keeps (whileList_keeps (buildParserLocalElement_keeps h) fwd.fuel)

theorem buildSignatureType_keeps {klass : TokenClass} {kind : AstKind} {text : String}
    (hkind : kind ≠ .none) : Keeps allCalls 0 (buildSignatureType fwd klass kind text) Any :=
  .expect (.node hkind fun _ ha => setSignature_keeps h.types true ha (by decide)
    (by decide) (by decide))

/-- What a parser and a control have in common: the type, and a body or a semicolon. -/
theorem buildParserDeclaration_keeps :
    Keeps allCalls 0 (buildParserDeclaration fwd memory) Any := by
  refine .require (.node (by decide) fun a ha =>
    .bindNew (buildSignatureType_keeps h (by decide)) ?_)
  refine fun type _ => .setAst ha (by decide) fun a ha => .ifToken (.next (.pure trivial)) ?_
  refine .bindNew (buildOptConstructorParameters_keeps h) fun params _ => ?_
  refine .setList ha (by decide) fun a ha =>
    .expect (.bindNew (buildParserLocalElements_keeps h) ?_)
  refine fun locals _ => .setList ha (by decide) fun a ha => .bindNew (buildParserStates_keeps h) ?_
  exact fun states _ => .setList ha (by decide) fun a _ => .expect (.pure trivial)

/-! ## Controls, actions and tables -/

theorem buildActionDeclaration_keeps : Keeps allCalls 0 (buildActionDeclaration fwd) Any := by
  refine .expect (.node (by decide) fun a ha => .require (.bindNew (buildName_keeps false) ?_))
  refine fun name _ => .setAst ha (by decide) fun a ha => .expect ?_
  refine .bindNew (buildParameterList_keeps h.types) fun params _ => .setList ha (by decide) ?_
  refine fun a ha => .expect (.require (.bindNew h.blockStatement fun stmt _ => ?_))
  exact .setAstLast ha (by decide) fun _ _ => trivial

theorem buildKeyElement_keeps : Keeps allCalls 0 (buildKeyElement fwd) Any := by
  refine .require (.node (by decide) fun a ha => .bindNew (h.types.expression 1) fun e _ => ?_)
  refine .setAst ha (by decide) fun a ha => .expect (.bindNew (buildName_keeps false) ?_)
  exact fun name _ => .setAst ha (by decide) fun a _ => .expect (.pure trivial)

theorem buildKeyElementList_keeps : Keeps allCalls 0 (buildKeyElementList fwd) Any :=
  optList_keeps (whileList_keeps (buildKeyElement_keeps h) fwd.fuel)

theorem buildActionRef_keeps : Keeps allCalls 0 (buildActionRef fwd) Any := by
  refine .require (.node (by decide) fun a ha => .bindNew buildPrefixedNonTypeName_keeps ?_)
  refine fun name _ => .setAst ha (by decide) fun a ha => .ifToken ?_ (.pure trivial)
  refine .next (.bindNew (buildArgumentList_keeps h.types) fun args _ => ?_)
  exact .setList ha (by decide) fun a _ => .expect (.pure trivial)

theorem buildActionItem_keeps : Keeps allCalls 0 (buildActionItem fwd) Any :=
  .bindNew (buildActionRef_keeps h) fun _ _ => .expect (.pure trivial)

theorem buildActionList_keeps : Keeps allCalls 0 (buildActionList fwd) Any :=
  optList_keeps (whileList_keeps (buildActionItem_keeps h) fwd.fuel)

theorem buildEntry_keeps : Keeps allCalls 0 (buildEntry fwd memory) Any := by
  refine .require (.node (by decide) fun a ha => .bindNew (buildKeysetExpression_keeps h) ?_)
  refine fun keyset _ => .setAst ha (by decide) fun a ha => .expect ?_
  refine .bindNew (buildActionRef_keeps h) fun ref _ => .setAst ha (by decide) fun a _ => ?_
  exact .expect (.pure trivial)

theorem buildEntriesList_keeps : Keeps allCalls 0 (buildEntriesList fwd memory) Any :=
  .require (whileList_keeps (buildEntry_keeps h) fwd.fuel)

omit h in
theorem buildBracedProperty_keeps {names : List AttrName} {attr : AttrName} {prop : Ast}
    {list : Parser (Option AstList)} (ha : Named names prop) (hnew : attr ∉ names)
    (hlist : Keeps allCalls 0 list Any) :
    Keeps allCalls (load prop + 0) (buildBracedProperty prop attr list) Any := by
  refine .expect (.expect (.bindNew hlist fun list _ => .setList ha hnew fun a _ => ?_))
  exact .expect (.pure trivial)

theorem buildPropertyKind_keeps (isConst : Bool) :
    Keeps allCalls 0 (buildPropertyKind fwd memory isConst) Any := by
  refine .quiet (.note rfl (by decide)) fun _ =>
    .ifToken ?key (.ifToken ?actions (.ifToken ?entries ?_))
  case key =>
    exact .next (.node (by decide) fun a ha =>
      buildBracedProperty_keeps ha (by decide) (buildKeyElementList_keeps h))
  case actions =>
    exact .next (.node (by decide) fun a ha =>
      buildBracedProperty_keeps ha (by decide) (buildActionList_keeps h))
  case entries =>
    exact .next (.node (by decide) fun a ha => .setData ha (by decide) rfl rfl fun a ha =>
      buildBracedProperty_keeps ha (by decide) (buildEntriesList_keeps h))
  · refine .ifToken (.node (by decide) fun a ha => .bindNew (buildName_keeps false) ?_) (.stop _)
    refine fun name _ => .setAst ha (by decide) fun a ha => .expect ?_
    refine .bindNew (buildInitializer_keeps h.types) fun e _ => .setAst ha (by decide) fun a _ => ?_
    exact .expect (.pure trivial)

theorem buildTableProperty_keeps : Keeps allCalls 0 (buildTableProperty fwd memory) Any := by
  have hconst : Quiet allCalls buildOptConst :=
      .ifToken (.bind .nextToken fun _ => .pure true) (.pure false)
  exact .require (.quiet hconst fun isConst => buildPropertyKind_keeps h isConst)

theorem buildTablePropertyList_keeps : Keeps allCalls 0 (buildTablePropertyList fwd memory) Any :=
  .require (whileList_keeps (buildTableProperty_keeps h) fwd.fuel)

theorem buildTableDeclaration_keeps : Keeps allCalls 0 (buildTableDeclaration fwd memory) Any := by
  refine .expect (.node (by decide) fun a ha => .bindNew (buildName_keeps false) fun name _ => ?_)
  refine .setAst ha (by decide) fun a ha => .expect (.bindNew (buildTablePropertyList_keeps h) ?_)
  exact fun props _ => .setList ha (by decide) fun a _ => .expect (.pure trivial)

theorem buildControlLocalDeclaration_keeps :
    Keeps allCalls 0 (buildControlLocalDeclaration fwd memory) Any := by
  refine .ifToken (buildConstantDeclaration_keeps h) (.ifToken (buildActionDeclaration_keeps h) ?_)
  refine .ifToken (buildTableDeclaration_keeps h) (.ifToken ?_ (.error _))
  exact .bindNew (buildTypeRef_keeps h.types) fun type _ => buildAfterType_keeps h .unexpected

theorem buildControlLocalDeclarations_keeps :
    Keeps allCalls 0 (buildControlLocalDeclarations fwd memory) Any :=
  optList_keeps (whileList_keeps (buildControlLocalDeclaration_keeps h) fwd.fuel)

theorem buildControlDeclaration_keeps :
    Keeps allCalls 0 (buildControlDeclaration fwd memory) Any := by
  refine .require (.node (by decide) fun a ha =>
    .bindNew (buildSignatureType_keeps h (by decide)) ?_)
  refine fun type _ => .setAst ha (by decide) fun a ha => .ifToken (.next (.pure trivial)) ?_
  refine .bindNew (buildOptConstructorParameters_keeps h) fun params _ => ?_
  refine .setList ha (by decide) fun a ha =>
    .expect (.bindNew (buildControlLocalDeclarations_keeps h) ?_)
  refine fun locals _ => .setList ha (by decide) fun a ha => .expect (.bindNew h.blockStatement ?_)
  exact fun stmt _ => .setAst ha (by decide) fun a _ => .expect (.pure trivial)

/-! ## Declarations and the program -/

theorem buildTypedefDeclaration_keeps : Keeps allCalls 0 (buildTypedefDeclaration fwd) Any := by
  have hkeyword : Quiet allCalls buildTypedefKeyword :=
    .ifToken (.bind .nextToken fun _ => .pure true)
      (.ifToken (.bind .nextToken fun _ => .pure false) (.stop _))
  refine .require (.quiet hkeyword fun isTypedef => .require (.node (by decide) fun a ha => ?_))
  refine .setData ha (by decide) rfl rfl fun a ha => .bindNew (R := Any) ?_ fun type _ => ?_
  · exact .ifToken (buildTypeRef_keeps h.types)
      (.ifToken (buildDerivedTypeDeclaration_keeps h.types) (.stop _))
  · refine .setAst ha (by decide) fun a ha => .require (.bindNew (buildName_keeps true) ?_)
    exact fun name _ => .setAst ha (by decide) fun a _ => .expect (.pure trivial)

theorem buildTypeDeclaration_keeps : Keeps allCalls 0 (buildTypeDeclaration fwd memory) Any := by
  refine .require (.ifToken (buildDerivedTypeDeclaration_keeps h.types) ?_)
  refine .ifToken (buildTypedefDeclaration_keeps h) (.ifToken (buildParserDeclaration_keeps h) ?_)
  refine .ifToken (buildControlDeclaration_keeps h) (.ifToken ?_ (.stop _))
  exact .bindNew (buildSignatureType_keeps h (by decide)) fun _ _ => .expect (.pure trivial)

omit h in
theorem buildIdentifiersDeclaration_keeps {klass : TokenClass} {kind : AstKind} {text : String}
    (hkind : kind ≠ .none) :
    Keeps allCalls 0 (buildIdentifiersDeclaration fwd klass kind text) Any := by
  have hlist : Keeps allCalls 0 (buildIdentifierList fwd) Any :=
    .require (commaList_keeps (buildName_keeps false).any fwd.fuel)
  refine .expect (.node hkind fun a ha => .expect (.require (.bindNew hlist fun ids _ => ?_)))
  exact .setList ha (by decide) fun a _ => .expect (.pure trivial)

theorem buildFunctionDeclaration_keeps (typeRef : Ast) :
    Keeps allCalls (load typeRef + 0) (buildFunctionDeclaration fwd typeRef) Any := by
  refine .require (.node (by decide) fun a ha => ?_)
  refine .of_eq (.bind (buildFunctionPrototype_keeps h.types typeRef) fun proto _ => ?_)
    (add_left_comm ..)
  refine .setAst (K := 0) ha (by decide) fun a ha =>
    .require (.bindNew h.blockStatement fun stmt _ => ?_)
  exact .setAstLast ha (by decide) fun _ _ => trivial

theorem buildDeclaration_keeps : Keeps allCalls 0 (buildDeclaration fwd memory) Any := by
  refine .require (.ifToken (buildConstantDeclaration_keeps h) ?_)
  refine .ifToken (buildExternDeclaration_keeps h.types)
    (.ifToken (buildActionDeclaration_keeps h) ?_)
  refine .ifToken (buildTypeDeclaration_keeps h) ?_
  refine .ifToken (buildIdentifiersDeclaration_keeps (by decide)) ?_
  refine .ifToken (buildIdentifiersDeclaration_keeps (by decide))
    (.ifToken ?_ (.ifToken ?_ (.stop _)))
  · refine .bindNew (buildTypeRef_keeps h.types) fun type _ => ?_
    exact .ifToken (buildInstantiation_keeps h type)
      (.ifToken (buildFunctionDeclaration_keeps h type) .unexpected)
  · exact .bindNew (buildTypeRef_keeps h.types) fun type _ => buildFunctionDeclaration_keeps h type

theorem declarationLoop_keeps : ∀ (fuel : Nat) (decls : AstList),
    Keeps allCalls (load decls + 0) (declarationLoop fwd memory fuel decls) Any
  | 0, _ => .stop _
  | fuel + 1, decls => by
    refine .ifToken (.ifToken ?_ (.ifToken ?_ (declarationLoop_keeps fuel decls))) (.pure trivial)
    · refine .bindNew (buildDeclaration_keeps h) fun decl _ => .append fun decls => ?_
      exact declarationLoop_keeps fuel decls
    · exact .next (declarationLoop_keeps fuel decls)

theorem buildP4program_keeps : Keeps allCalls 0 (buildP4program fwd memory) Any := by
  refine .node (by decide) fun a ha => .newAstList ?_
  refine .bind (declarationLoop_keeps h fwd.fuel {}) fun decls _ => ?_
  exact .setList (l := some decls) ha (by decide) fun a _ => .ifToken (.pure trivial) .unexpected

end

theorem forward_keeps : ∀ n, (forward n).Keeps
  | 0 =>
    { plain := ⟨fun _ => .stop _, .stop _⟩
      types := ⟨fun _ => .stop _, .stop _⟩
      blockStatement := .stop _
      statement := .stop _
      parserStatement := .stop _ }
  | n + 1 => by
    have ih := forward_keeps n
    exact {
      plain := ⟨fun threshold => buildExpression_keeps ih.plain threshold,
        buildTypeRef_keeps ih.plain⟩
      types := ⟨fun threshold => buildExpression_keeps ih.types threshold,
        buildTypeRef_keeps ih.types⟩
      blockStatement := buildBlockStatement_keeps ih
      statement := (buildStatement_keeps ih .null).of_eq (add_zero _)
      parserStatement := buildParserStatement_keeps ih }

theorem buildAstProgram_keeps (fuel : Nat) : Keeps allCalls 0 (buildAstProgram fuel memory) Any :=
  .next (buildP4program_keeps (forward_keeps fuel))

variable {rounds : Nat} {tokens : List Token} {scopes : Symtable.Scopes} {a : Ast} {s : State}

/-- A run hands out the ids of its nodes and counts their flaws. -/
theorem run_counts (h : run rounds tokens scopes memory = .ok (a, s)) :
    Counts s (loadOf a.nodes) := by
  obtain ⟨_, _, hcounts⟩ := wp_ok (buildAstProgram_keeps _ (start tokens scopes)) h
  have hload := hcounts 0 ⟨Multiset.zero_le _, rfl⟩
  rwa [add_zero] at hload

/-- The program's nodes have ids of their own, and its flaws are the names kept. -/
theorem run_load (h : run rounds tokens scopes memory = .ok (a, s)) :
    (a.nodes.map Ast.id).Nodup ∧ (a.nodes.map Ast.flaws).sum = namesKept false s.trace := by
  have hload := run_counts h
  constructor
  · have hids := Multiset.nodup_of_le hload.ids (Multiset.nodup_range _)
    rwa [loadOf_ids, Multiset.coe_nodup] at hids
  · rw [← loadOf_flaws]
    exact hload.flaws

theorem run_ids (h : run rounds tokens scopes memory = .ok (a, s)) :
    ∀ n ∈ a.nodes, n.id < s.nodeId := by
  intro n hn
  have hids := (run_counts h).ids
  rw [loadOf_ids] at hids
  exact Multiset.mem_range.mp (Multiset.mem_of_le hids
    (Multiset.mem_coe.mpr (List.mem_map_of_mem hn)))

end Dp4c.Parse
