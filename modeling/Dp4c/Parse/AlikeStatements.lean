import Dp4c.Parse.AlikeTypes

/-! # Statements and local declarations, in runs that look alike -/
namespace Dp4c.Parse

open Dp4c.Lib Dp4c.Lib.Prog

variable {L : Likeness} {fwd fwd' : Forward} {a : Ast}

section

variable (h : Forward.Alike L fwd fwd')
include h

/-! ## Declarations among statements -/

theorem buildOptConstructorParameters_alike :
    Alike L L.OptTrees (buildOptConstructorParameters fwd) (buildOptConstructorParameters fwd') :=
  .optList (.next (.bind (buildParameterList_alike h) fun _ hp => .expect (.pure hp)))

theorem buildConstantDeclaration_alike :
    Alike L L.Tree (buildConstantDeclaration fwd) (buildConstantDeclaration fwd') := by
  refine .expect (.newNode fun a ha => .require (.bind (buildTypeRef_alike h) fun type htype => ?_))
  refine .bind (.setAst ha htype rfl) fun a ha => .require (.bind (buildName_alike false) ?_)
  refine fun name hname => .bind (.setAst ha hname rfl) fun a ha => .expect (.require ?_)
  refine .bind (h.expression 1) fun e he => .bind (.setAst ha he rfl) fun a ha => ?_
  exact .expect (.pure ha)

theorem buildVariableDeclaration_alike (ha : L.Tree a) :
    Alike L L.Tree (buildVariableDeclaration fwd a) (buildVariableDeclaration fwd' a) := by
  refine .requireOr (.newNode fun b hb => .givenOr ha (buildTypeRef_alike h) fun type htype => ?_)
  refine .bind (.setAst hb htype rfl) fun b hb => .require (.bind (buildName_alike false) ?_)
  refine fun name hname => .bind (.setAst hb hname rfl) fun b hb => ?_
  refine .bind (buildOptInitializer_alike h) fun e he => .bind (.setAst hb he rfl) fun b hb => ?_
  exact .expect (.pure hb)

theorem buildInstantiation_alike (ha : L.Tree a) :
    Alike L L.Tree (buildInstantiation fwd a) (buildInstantiation fwd' a) := by
  refine .requireOr (.newNode fun b hb => .givenOr ha (buildTypeRef_alike h) fun type htype => ?_)
  refine .bind (.setAst hb htype rfl) fun b hb => .expect (.bind (buildArgumentList_alike h) ?_)
  refine fun args hargs => .bind (.setList hb hargs rfl) fun b hb => .expect (.require ?_)
  refine .bind (buildName_alike false) fun name hname => .bind (.setAst hb hname rfl) fun b hb => ?_
  exact .expect (.pure hb)

/-! ## Applications, assignments and calls -/

theorem buildDirectApplication_alike (ha : L.Tree a) :
    Alike L L.Tree (buildDirectApplication fwd a) (buildDirectApplication fwd' a) := by
  refine .requireOr (.newNode fun b hb => .givenOr ha (buildTypeName_alike h) fun type htype => ?_)
  refine .bind (.setAst hb htype rfl) fun b hb => .expect (.expect (.expect ?_))
  refine .bind (buildArgumentList_alike h) fun args hargs => .bind (.setList hb hargs rfl) ?_
  exact fun b hb => .expect (.expect (.pure hb))

omit h in
theorem buildPrefixedNonTypeName_alike :
    Alike L L.Tree buildPrefixedNonTypeName buildPrefixedNonTypeName :=
  .bind buildDotPrefix_alike fun _ _ => .bind (buildNonTypeName_alike false) fun _ ha =>
    .setData ha rfl rfl

theorem buildLvalueExpr_alike : Alike L L.Tree (buildLvalueExpr fwd) (buildLvalueExpr fwd') := by
  refine .ifToken (.next (.bind (buildName_alike false) fun a ha => ?_)) (.ifToken ?_ (.error _))
  · exact .setData ha rfl rfl
  · exact .next (.bind (buildArrayIndex_alike h) fun index hindex => .expect (.pure hindex))

theorem buildLvalue_alike : Alike L L.Tree (buildLvalue fwd) (buildLvalue fwd') := by
  refine .require (.newNode fun a ha => .bind buildPrefixedNonTypeName_alike fun name hname => ?_)
  refine .bind (.setAst ha hname rfl) fun a ha => .ifToken ?_ (.pure ha)
  exact .bind (.whileList (buildLvalueExpr_alike h) h.fuel) fun exprs he => .setList ha he rfl

theorem buildOptTypeArguments_alike :
    Alike L L.OptTrees (buildOptTypeArguments fwd) (buildOptTypeArguments fwd') :=
  .optList (.next (.bind (buildTypeArgumentList_alike h) fun _ ht => .expect (.pure ht)))

theorem buildAssignmentOrMethodCallStatement_alike :
    Alike L L.Tree (buildAssignmentOrMethodCallStatement fwd)
      (buildAssignmentOrMethodCallStatement fwd') := by
  refine .require (.bind (buildLvalue_alike h) fun lvalue hl => .note ?_)
  refine .bind (buildOptTypeArguments_alike h) fun types ht => ?_
  refine .bind (R := L.Tree) (.ifToken (.next (.newNode fun a ha => ?_))
    (.ifToken (.note (.next ?_)) (.error _))) ?_
  · refine .bind (.setAst ha hl rfl) fun a ha => .bind (.setList ha ht rfl) fun a ha => ?_
    refine .bind (buildArgumentList_alike h) fun args hargs => .bind (.setList ha hargs rfl) ?_
    exact fun a ha => .expect (.pure ha)
  · refine .newNode fun a ha => .bind (.setAst ha hl rfl) fun a ha => ?_
    exact .bind (h.expression 1) fun e he => .setAst ha he rfl
  · exact fun a ha => .expect (.pure ha)

/-! ## Statements of parser states -/

theorem buildParserStatements_alike :
    Alike L L.OptTrees (buildParserStatements fwd) (buildParserStatements fwd') :=
  .optList (.whileList h.parserStatement h.fuel)

theorem buildParserBlockStatements_alike :
    Alike L L.Tree (buildParserBlockStatements fwd) (buildParserBlockStatements fwd') := by
  refine .require (.newNode fun a ha => .next (.bind (buildParserStatements_alike h) ?_))
  exact fun stmts hs => .bind (.setList ha hs rfl) fun a ha => .expect (.pure ha)

theorem buildParserStatement_alike :
    Alike L L.Tree (buildParserStatement fwd) (buildParserStatement fwd') := by
  refine .note (.ifToken (.bind (buildTypeRef_alike h) fun type htype => ?_) ?_)
  · exact .ifToken (buildVariableDeclaration_alike h htype) (buildDirectApplication_alike h htype)
  · refine .ifToken (buildAssignmentOrMethodCallStatement_alike h) ?_
    refine .ifToken (buildParserBlockStatements_alike h) ?_
    exact .ifToken (buildConstantDeclaration_alike h) (.ifToken .new (.error _))

/-! ## Statements of controls, actions and functions -/

theorem buildConditionalStatement_alike :
    Alike L L.Tree (buildConditionalStatement fwd) (buildConditionalStatement fwd') := by
  refine .expect (.newNode fun a ha => .expect (.require (.bind (h.expression 1) fun e he => ?_)))
  refine .bind (.setAst ha he rfl) fun a ha => .expect (.require (.bind h.statement ?_))
  refine fun stmt hs => .bind (.setAst ha hs rfl) fun a ha => .ifToken (.next ?_) (.pure ha)
  exact .require (.bind h.statement fun stmt hs => .setAst ha hs rfl)

omit h in
theorem buildExitStatement_alike : Alike L L.Tree buildExitStatement buildExitStatement :=
  .expect (.newNode fun _ ha => .expect (.pure ha))

theorem buildReturnStatement_alike :
    Alike L L.Tree (buildReturnStatement fwd) (buildReturnStatement fwd') := by
  refine .expect (.newNode fun a ha => .bind (.ifToken ?_ (.pure ha)) fun a ha =>
    .expect (.pure ha))
  exact .bind (h.expression 1) fun e he => .setAst ha he rfl

omit h in
theorem buildSwitchLabel_alike : Alike L L.Tree buildSwitchLabel buildSwitchLabel := by
  refine .ifToken (.newNode fun a ha => .bind (buildName_alike false) fun name hname => ?_)
    (.ifToken (.next .new) (.error _))
  exact .setAst ha hname rfl

theorem buildSwitchCase_alike : Alike L L.Tree (buildSwitchCase fwd) (buildSwitchCase fwd') := by
  refine .require (.newNode fun a ha => .bind buildSwitchLabel_alike fun label hl => ?_)
  refine .bind (.setAst ha hl rfl) fun a ha => .expect (.ifToken ?_ (.pure ha))
  exact .bind h.blockStatement fun stmt hs => .setAst ha hs rfl

theorem buildSwitchCases_alike :
    Alike L L.OptTrees (buildSwitchCases fwd) (buildSwitchCases fwd') :=
  .optList (.whileList (buildSwitchCase_alike h) h.fuel)

theorem buildSwitchStatement_alike :
    Alike L L.Tree (buildSwitchStatement fwd) (buildSwitchStatement fwd') := by
  refine .expect (.newNode fun a ha => .expect (.bind (h.expression 1) fun e he => ?_))
  refine .bind (.setAst ha he rfl) fun a ha =>
    .expect (.expect (.bind (buildSwitchCases_alike h) ?_))
  exact fun cases hc => .bind (.setList ha hc rfl) fun a ha => .expect (.pure ha)

theorem buildPlainStatement_alike :
    Alike L L.Tree (buildPlainStatement fwd) (buildPlainStatement fwd') := by
  refine .ifToken (buildDirectApplication_alike h (fine_null _)) ?_
  refine .ifToken (buildAssignmentOrMethodCallStatement_alike h) ?_
  refine .ifToken (buildConditionalStatement_alike h) (.ifToken (.next .new) ?_)
  refine .ifToken h.blockStatement (.ifToken buildExitStatement_alike ?_)
  exact .ifToken (buildReturnStatement_alike h) (.ifToken (buildSwitchStatement_alike h) (.error _))

theorem buildStatement_alike (ha : L.Tree a) :
    Alike L L.Tree (buildStatement fwd a) (buildStatement fwd' a) := by
  cases a with
  | null => exact buildPlainStatement_alike h
  | node => exact buildDirectApplication_alike h ha

theorem buildAfterType_alike {other other' : Parser Ast} (ha : L.Tree a)
    (hother : Alike L L.Tree other other') :
    Alike L L.Tree (buildAfterType fwd a other) (buildAfterType fwd' a other') :=
  .ifToken (buildInstantiation_alike h ha) (.ifToken (buildVariableDeclaration_alike h ha) hother)

theorem buildStatementOrDecl_alike :
    Alike L L.Tree (buildStatementOrDecl fwd) (buildStatementOrDecl fwd') := by
  refine .ifToken (.ifToken (.bind (buildTypeRef_alike h) fun type htype => ?_) ?_)
    (.pure (fine_null _))
  · exact buildAfterType_alike h htype (buildStatement_alike h htype)
  · exact .ifToken (buildStatement_alike h (fine_null _))
      (.ifToken (buildConstantDeclaration_alike h) (.stop _))

theorem buildStatementOrDeclList_alike :
    Alike L L.OptTrees (buildStatementOrDeclList fwd) (buildStatementOrDeclList fwd') :=
  .optList (.whileList (buildStatementOrDecl_alike h) h.fuel)

theorem buildBlockStatement_alike :
    Alike L L.Tree (buildBlockStatement fwd) (buildBlockStatement fwd') := by
  refine .require (.newNode fun a ha => .next (.bind (buildStatementOrDeclList_alike h) ?_))
  exact fun stmts hs => .bind (.setList ha hs rfl) fun a ha => .expect (.pure ha)

end

end Dp4c.Parse
