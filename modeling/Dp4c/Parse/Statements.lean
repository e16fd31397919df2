import Dp4c.Parse.Expressions

/-! # Statements and local declarations (build_ast.c) -/
namespace Dp4c.Parse

open Dp4c.Lib

section

variable (fwd : Forward)

/-! ## Declarations among statements -/

def buildOptConstructorParameters : Parser (Option AstList) :=
  ifToken (is .parenthOpen)
    (do
      nextToken
      let ctorParams ← buildParameterList fwd
      expect .parenthClose "`)` was expected"
      return ctorParams)
    (pure none)

def buildConstantDeclaration : Parser Ast := do
  expect .const "`const` was expected"
  let decl ← newAstNode .constDecl
  require tokenIsTypeRef "type was expected"
  let decl ← astSetattr decl .typeRef .ast (.ast (← buildTypeRef fwd))
  require tokenIsName "name was expected"
  let decl ← astSetattr decl .name .ast (.ast (← buildName false))
  expect .equal "`=` was expected"
  require tokenIsExpression "an expression was expected"
  let decl ← astSetattr decl .expr .ast (.ast (← fwd.expression 1))
  expect .semicolon "`;` expected"
  return decl

def buildVariableDeclaration (typeRef : Ast) : Parser Ast := do
  requireOr typeRef tokenIsTypeRef "type was expected"
  let decl ← newAstNode .varDecl
  let decl ← astSetattr decl .type .ast (.ast (← givenOr typeRef (buildTypeRef fwd)))
  require tokenIsName "name was expected"
  let decl ← astSetattr decl .name .ast (.ast (← buildName false))
  let decl ← astSetattr decl .initExpr .ast (.ast (← buildOptInitializer fwd))
  expect .semicolon "`;` was expected"
  return decl

def buildInstantiation (typeRef : Ast) : Parser Ast := do
  requireOr typeRef tokenIsTypeRef "type was expected"
  let inst ← newAstNode .instantiation
  let inst ← astSetattr inst .typeRef .ast (.ast (← givenOr typeRef (buildTypeRef fwd)))
  expect .parenthOpen "`(` was expected"
  let inst ← astSetattr inst .args .astList (listValue (← buildArgumentList fwd))
  expect .parenthClose "`)` was expected"
  require tokenIsName "instance name was expected"
  let inst ← astSetattr inst .name .ast (.ast (← buildName false))
  expect .semicolon "`;` was expected"
  return inst

/-! ## Applications, assignments and calls -/

def buildDirectApplication (typeName : Ast) : Parser Ast := do
  requireOr typeName tokenIsTypeName "type name was expected"
  let applic ← newAstNode .directApplic
  let applic ← astSetattr applic .name .ast (.ast (← givenOr typeName (buildTypeName fwd)))
  expect .dotPrefix "`.` was expected"
  expect .apply "`apply` was expected"
  expect .parenthOpen "`(` was expected"
  let applic ← astSetattr applic .args .astList (listValue (← buildArgumentList fwd))
  expect .parenthClose "`)` was expected"
  expect .semicolon "`;` was expected"
  return applic

/-- The condition in front of the call is the name of a function and always true. -/
def buildPrefixedNonTypeName : Parser Ast := do
  let isDotprefixed ← buildDotPrefix
  let name ← buildNonTypeName false
  astSetattr name .isDotprefixed .integer (.bool isDotprefixed)

def buildLvalueExpr : Parser Ast :=
  ifToken (is .dotPrefix)
    (do
      nextToken
      let dotMember ← buildName false
      astSetattr dotMember .isDotprefixed .integer (.bool true)) <|
    ifToken (is .bracketOpen)
      (do
        nextToken
        let expr ← buildArrayIndex fwd
        expect .bracketClose "`]` was expected"
        return expr)
      (error "lvalue was expected")

/-- The tokens that go on with an lvalue. -/
def goesOnLvalue (k : TokenClass) : Bool := k == .dotPrefix || k == .bracketOpen

def buildLvalue : Parser Ast := do
  require tokenIsLvalue "lvalue was expected"
  let lvalue ← newAstNode .lvalue
  let lvalue ← astSetattr lvalue .name .ast (.ast (← buildPrefixedNonTypeName))
  ifToken goesOnLvalue
    (do
      let lvalueExpr ← whileList goesOnLvalue (buildLvalueExpr fwd) fwd.fuel
      astSetattr lvalue .expr .astList (listValue lvalueExpr))
    (pure lvalue)

/-- The type arguments of a call, if there are any. -/
def buildOptTypeArguments : Parser (Option AstList) :=
  ifToken (is .angleOpen)
    (do
      nextToken
      let typeArgs ← buildTypeArgumentList fwd
      expect .angleClose "`>` was expected"
      return typeArgs)
    (pure none)

def buildAssignmentOrMethodCallStatement : Parser Ast := do
  require tokenIsLvalue "lvalue was expected"
  let lvalue ← buildLvalue fwd
  note .lvalue
  let typeArgs ← buildOptTypeArguments fwd
  let stmt ← ifToken (is .parenthOpen)
    (do
      nextToken
      let callStmt ← newAstNode .methodCallStmt
      let callStmt ← astSetattr callStmt .lvalue .ast (.ast lvalue)
      let callStmt ← astSetattr callStmt .typeArgs .astList (listValue typeArgs)
      let callStmt ← astSetattr callStmt .args .astList (listValue (← buildArgumentList fwd))
      expect .parenthClose "`)` was expected"
      return callStmt) <|
    ifToken (is .equal)
      (do
        -- the type arguments are dropped
        note .assignment
        nextToken
        let assgnStmt ← newAstNode .assignmentStmt
        let assgnStmt ← astSetattr assgnStmt .lvalue .ast (.ast lvalue)
        astSetattr assgnStmt .expr .ast (.ast (← fwd.expression 1)))
      (error "assignment or function call was expected")
  expect .semicolon "`;` expected"
  return stmt

/-! ## Statements of parser states -/

def buildParserStatements : Parser (Option AstList) :=
  ifToken tokenIsParserStatement
    (whileList tokenIsParserStatement fwd.parserStatement fwd.fuel) (pure none)

def buildParserBlockStatements : Parser Ast := do
  require (is .braceOpen) "`\x7b` was expected"
  let stmt ← newAstNode .blockStmt
  nextToken
  let stmt ← astSetattr stmt .stmtList .astList (listValue (← buildParserStatements fwd))
  expect .braceClose "`\x7d` was expected"
  return stmt

/-- The branch for `;` makes a node and leaves the token where it is. -/
def buildParserStatement : Parser Ast := do
  note .parserStatement
  ifToken tokenIsTypeRef
    (do
      let typeRef ← buildTypeRef fwd
      ifToken tokenIsName (buildVariableDeclaration fwd typeRef)
        (buildDirectApplication fwd typeRef)) <|
    ifToken tokenIsAssignmentOrMethodCallStatement (buildAssignmentOrMethodCallStatement fwd) <|
    ifToken (is .braceOpen) (buildParserBlockStatements fwd) <|
    ifToken (is .const) (buildConstantDeclaration fwd) <|
    ifToken (is .semicolon) (newAstNode .emptyStmt)
      (error "statement was expected")

/-! ## Statements of controls, actions and functions -/

def buildConditionalStatement : Parser Ast := do
  expect .ifKw "`if` was expected"
  let ifStmt ← newAstNode .ifStmt
  expect .parenthOpen "`(` was expected"
  require tokenIsExpression "an expression was expected"
  let ifStmt ← astSetattr ifStmt .condExpr .ast (.ast (← fwd.expression 1))
  expect .parenthClose "`)` was expected"
  require tokenIsStatement "statement was expected"
  let ifStmt ← astSetattr ifStmt .stmt .ast (.ast (← fwd.statement .null))
  ifToken (is .elseKw)
    (do
      nextToken
      require tokenIsStatement "statement was expected"
      astSetattr ifStmt .elseStmt .ast (.ast (← fwd.statement .null)))
    (pure ifStmt)

def buildExitStatement : Parser Ast := do
  expect .exit "`exit` was expected"
  let exitStmt ← newAstNode .exitStmt
  expect .semicolon "`;` expected"
  return exitStmt

def buildReturnStatement : Parser Ast := do
  expect .returnKw "`return` was expected"
  let retStmt ← newAstNode .returnStmt
  let retStmt ← ifToken tokenIsExpression
    (do astSetattr retStmt .expr .ast (.ast (← fwd.expression 1)))
    (pure retStmt)
  expect .semicolon "`;` expected"
  return retStmt

def buildSwitchLabel : Parser Ast :=
  ifToken tokenIsName
    (do
      let nameLabel ← newAstNode .switchLabel
      astSetattr nameLabel .name .ast (.ast (← buildName false))) <|
    ifToken (is .default)
      (do
        nextToken
        newAstNode .default)
      (error "switch label was expected")

def buildSwitchCase : Parser Ast := do
  require tokenIsSwitchLabel "switch label was expected"
  let switchCase ← newAstNode .switchCase
  let switchCase ← astSetattr switchCase .label .ast (.ast (← buildSwitchLabel))
  expect .colon "`:` was expected"
  ifToken (is .braceOpen)
    (do astSetattr switchCase .stmt .ast (.ast (← fwd.blockStatement)))
    (pure switchCase)

def buildSwitchCases : Parser (Option AstList) :=
  ifToken tokenIsSwitchLabel
    (whileList tokenIsSwitchLabel (buildSwitchCase fwd) fwd.fuel) (pure none)

def buildSwitchStatement : Parser Ast := do
  expect .switch "`switch` was expected"
  let stmt ← newAstNode .switchStmt
  expect .parenthOpen "`(` was expected"
  let stmt ← astSetattr stmt .expr .ast (.ast (← fwd.expression 1))
  expect .parenthClose "`)` was expected"
  expect .braceOpen "`\x7b` was expected"
  let stmt ← astSetattr stmt .switchCases .astList (listValue (← buildSwitchCases fwd))
  expect .braceClose "`\x7d` was expected"
  return stmt

/-- `build_statement` where no type name was read. -/
def buildPlainStatement : Parser Ast :=
  ifToken tokenIsTypeName (buildDirectApplication fwd .null) <|
    ifToken tokenIsAssignmentOrMethodCallStatement (buildAssignmentOrMethodCallStatement fwd) <|
    ifToken (is .ifKw) (buildConditionalStatement fwd) <|
    ifToken (is .semicolon)
      (do
        nextToken
        newAstNode .emptyStmt) <|
    ifToken (is .braceOpen) fwd.blockStatement <|
    ifToken (is .exit) buildExitStatement <|
    ifToken (is .returnKw) (buildReturnStatement fwd) <|
    ifToken (is .switch) (buildSwitchStatement fwd)
      (error "statement was expected")

/-- With the name of a type only a direct application is possible. -/
def buildStatement (typeName : Ast) : Parser Ast :=
  match typeName with
  | .null => buildPlainStatement fwd
  | typeName => buildDirectApplication fwd typeName

/-- What follows the type of a local declaration; `other` is for neither a parenthesis
nor a name. -/
def buildAfterType (typeRef : Ast) (other : Parser Ast) : Parser Ast :=
  ifToken (is .parenthOpen) (buildInstantiation fwd typeRef) <|
    ifToken tokenIsName (buildVariableDeclaration fwd typeRef) other

def buildStatementOrDecl : Parser Ast :=
  ifToken tokenIsStatementOrDeclaration
    (ifToken tokenIsTypeRef
      (do
        let typeRef ← buildTypeRef fwd
        buildAfterType fwd typeRef (buildStatement fwd typeRef)) <|
      ifToken tokenIsStatement (buildStatement fwd .null) <|
      ifToken (is .const) (buildConstantDeclaration fwd) assertFalse)
    (pure .null)

def buildStatementOrDeclList : Parser (Option AstList) :=
  ifToken tokenIsStatementOrDeclaration
    (whileList tokenIsStatementOrDeclaration (buildStatementOrDecl fwd) fwd.fuel) (pure none)

def buildBlockStatement : Parser Ast := do
  require (is .braceOpen) "`\x7b` was expected"
  let stmt ← newAstNode .blockStmt
  nextToken
  let stmt ← astSetattr stmt .stmtList .astList (listValue (← buildStatementOrDeclList fwd))
  expect .braceClose "`\x7d` was expected"
  return stmt

end

end Dp4c.Parse
