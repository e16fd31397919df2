import Dp4c.Parse.Statements

/-! # Parsers and their states (build_ast.c)

`memory i` is what the memory of a list held that is made while the current token has
index `i`. Only the lists of tuple keysets can show it: `memset` clears the first eight of
their bytes, the size of a pointer. -/
namespace Dp4c.Parse

open Dp4c.Lib

abbrev Memory := Nat → Nat → UInt8

section

variable (fwd : Forward)

/-! ## Keysets -/

def buildSimpleKeysetExpression : Parser Ast :=
  ifToken tokenIsExpression (fwd.expression 1) <|
    ifToken (is .default)
      (do
        nextToken
        newAstNode .default) <|
      ifToken (is .dontcare)
        (do
          nextToken
          newAstNode .dontcare)
        (error "keyset expression was expected")

variable (memory : Memory)

/-- The list of a tuple keyset. -/
def newTupleList : Parser AstList := do
  note .tupleKeyset
  let i ← Prog.reads (·.tokenAt)
  astListInit (memset 8 (memory i))

def buildTupleKeysetExpression : Parser Ast := do
  require (is .parenthOpen) "`(` was expected"
  let tupleKeyset ← newAstNode .tupleKeyset
  nextToken
  let exprs ← newTupleList memory
  let exprs ← astListAppendLink exprs (← buildSimpleKeysetExpression fwd)
  let exprs ← commaLoop (buildSimpleKeysetExpression fwd) fwd.fuel exprs
  let tupleKeyset ← astSetattr tupleKeyset .exprList .astList (listValue (some exprs))
  expect .parenthClose "`)` was expected"
  return tupleKeyset

def buildKeysetExpression : Parser Ast :=
  ifToken (is .parenthOpen) (buildTupleKeysetExpression fwd memory) <|
    ifToken tokenIsSimpleKeysetExpression (buildSimpleKeysetExpression fwd)
      (error "keyset expression was expected")

/-! ## States -/

def buildSelectCase : Parser Ast := do
  require tokenIsKeysetExpression "keyset expression was expected"
  let selectCase ← newAstNode .selectCase
  let selectCase ← astSetattr selectCase .keyset .ast (.ast (← buildKeysetExpression fwd memory))
  expect .colon "`:` was expected"
  require tokenIsName "name was expected"
  let selectCase ← astSetattr selectCase .name .ast (.ast (← buildName false))
  expect .semicolon "`;` expected"
  return selectCase

def buildSelectCaseList : Parser (Option AstList) :=
  ifToken tokenIsSelectCase
    (whileList tokenIsSelectCase (buildSelectCase fwd memory) fwd.fuel) (pure none)

def buildSelectExpression : Parser Ast := do
  expect .select "`select` was expected"
  let selectExpr ← newAstNode .selectExpr
  expect .parenthOpen "`(` was expected"
  let selectExpr ← astSetattr selectExpr .exprList .astList (listValue (← buildExpressionList fwd))
  expect .parenthClose "`)` was expected"
  expect .braceOpen "`\x7b` was expected"
  let selectExpr ←
    astSetattr selectExpr .caseList .astList (listValue (← buildSelectCaseList fwd memory))
  expect .braceClose "`\x7d` was expected"
  return selectExpr

def buildStateExpression : Parser Ast :=
  ifToken tokenIsName
    (do
      let stateExpr ← buildName false
      expect .semicolon "`;` was expected"
      return stateExpr) <|
    ifToken (is .select) (buildSelectExpression fwd memory)
      (error "state expression was expected")

def buildTransitionStatement : Parser Ast := do
  expect .transition "`transition` was expected"
  buildStateExpression fwd memory

def buildParserState : Parser Ast := do
  expect .state "`state` was expected"
  let state ← newAstNode .parserState
  let state ← astSetattr state .name .ast (.ast (← buildName false))
  expect .braceOpen "`\x7b` was expected"
  let state ← astSetattr state .stmtList .astList (listValue (← buildParserStatements fwd))
  let state ← astSetattr state .transStmt .ast (.ast (← buildTransitionStatement fwd memory))
  expect .braceClose "`\x7d` was expected"
  return state

def buildParserStates : Parser (Option AstList) := do
  require (is .state) "`state` was expected"
  whileList (is .state) (buildParserState fwd memory) fwd.fuel

/-! ## Declarations -/

def buildParserLocalElement : Parser Ast := do
  require tokenIsParserLocalElement "local declaration was expected"
  ifToken (is .const) (buildConstantDeclaration fwd) <|
    ifToken tokenIsTypeRef
      (do
        let typeRef ← buildTypeRef fwd
        buildAfterType fwd typeRef unexpected)
      assertFalse

def buildParserLocalElements : Parser (Option AstList) :=
  ifToken tokenIsParserLocalElement
    (whileList tokenIsParserLocalElement (buildParserLocalElement fwd) fwd.fuel) (pure none)

/-- A type with a signature, after its keyword. -/
def buildSignatureType (klass : TokenClass) (kind : AstKind) (text : String) : Parser Ast := do
  expect klass text
  let type ← newAstNode kind
  setSignature fwd type true "name was expected"

def buildParserTypeDeclaration : Parser Ast :=
  buildSignatureType fwd .parser .parserType "`parser` was expected"

def buildParserDeclaration : Parser Ast := do
  require (is .parser) "`parser` was expected"
  let decl ← newAstNode .parser
  let decl ← astSetattr decl .typeDecl .ast (.ast (← buildParserTypeDeclaration fwd))
  ifToken (is .semicolon)
    (do
      nextToken
      return decl)
    (do
      let decl ←
        astSetattr decl .ctorParams .astList (listValue (← buildOptConstructorParameters fwd))
      expect .braceOpen "`\x7b` was expected"
      let decl ←
        astSetattr decl .localElements .astList (listValue (← buildParserLocalElements fwd))
      let decl ← astSetattr decl .states .astList (listValue (← buildParserStates fwd memory))
      expect .braceClose "`\x7d` was expected"
      return decl)

end

end Dp4c.Parse
