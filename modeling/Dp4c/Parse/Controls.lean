import Dp4c.Parse.Parsers

/-! # Controls, actions and tables (build_ast.c) -/
namespace Dp4c.Parse

open Dp4c.Lib

section

variable (fwd : Forward) (memory : Memory)

def buildActionDeclaration : Parser Ast := do
  expect .action "`action` was expected"
  let decl ← newAstNode .actionDecl
  require tokenIsName "name was expected"
  let decl ← astSetattr decl .name .ast (.ast (← buildName false))
  expect .parenthOpen "`(` was expected"
  let decl ← astSetattr decl .params .astList (listValue (← buildParameterList fwd))
  expect .parenthClose "`\x7d` was expected"
  require (is .braceOpen) "`\x7b` was expected"
  astSetattr decl .stmt .ast (.ast (← fwd.blockStatement))

/-! ## Tables -/

def buildKeyElement : Parser Ast := do
  require tokenIsExpression "an expression was expected"
  let keyElem ← newAstNode .keyElement
  let keyElem ← astSetattr keyElem .expr .ast (.ast (← fwd.expression 1))
  expect .colon "`:` was expected"
  let keyElem ← astSetattr keyElem .name .ast (.ast (← buildName false))
  expect .semicolon "`;` was expected"
  return keyElem

def buildKeyElementList : Parser (Option AstList) :=
  ifToken tokenIsExpression
    (whileList tokenIsExpression (buildKeyElement fwd) fwd.fuel) (pure none)

def buildActionRef : Parser Ast := do
  require (fun k => k == .dotPrefix || tokenIsNonTypeName k) "non-type name was expected"
  let ref ← newAstNode .actionRef
  let ref ← astSetattr ref .name .ast (.ast (← buildPrefixedNonTypeName))
  ifToken (is .parenthOpen)
    (do
      nextToken
      let ref ← astSetattr ref .args .astList (listValue (← buildArgumentList fwd))
      expect .parenthClose "`)` was expected"
      return ref)
    (pure ref)

/-- A reference to an action and the semicolon behind it. -/
def buildActionItem : Parser Ast := do
  let ref ← buildActionRef fwd
  expect .semicolon "`;` was expected"
  return ref

def buildActionList : Parser (Option AstList) :=
  ifToken tokenIsActionRef
    (whileList tokenIsActionRef (buildActionItem fwd) fwd.fuel) (pure none)

def buildEntry : Parser Ast := do
  require tokenIsKeysetExpression "keyset was expected"
  let entry ← newAstNode .tableEntry
  let entry ← astSetattr entry .keyset .ast (.ast (← buildKeysetExpression fwd memory))
  expect .colon "`:` was expected"
  let entry ← astSetattr entry .action .ast (.ast (← buildActionRef fwd))
  expect .semicolon "`;` was expected"
  return entry

def buildEntriesList : Parser (Option AstList) := do
  require tokenIsKeysetExpression "keyset expression was expected"
  whileList tokenIsKeysetExpression (buildEntry fwd memory) fwd.fuel

/-- A property whose value is a list in braces. -/
def buildBracedProperty (prop : Ast) (attr : AttrName) (list : Parser (Option AstList)) :
    Parser Ast := do
  expect .equal "`=` was expected"
  expect .braceOpen "`\x7b` was expected"
  let prop ← astSetattr prop attr .astList (listValue (← list))
  expect .braceClose "`\x7d` was expected"
  return prop

/-- `const` in front of a property. -/
def buildOptConst : Parser Bool :=
  ifToken (is .const)
    (do
      nextToken
      return true)
    (pure false)

/-- The kinds of properties; the token behind a `const` was not looked at before. -/
def buildPropertyKind (isConst : Bool) : Parser Ast := do
  note .tableProperty
  ifToken (is .key)
    (do
      nextToken
      buildBracedProperty (← newAstNode .tablePropKey) .keyelemList (buildKeyElementList fwd)) <|
    ifToken (is .actions)
      (do
        nextToken
        buildBracedProperty (← newAstNode .tablePropActions) .actionList (buildActionList fwd)) <|
    ifToken (is .entries)
      (do
        nextToken
        let entriesProp ← newAstNode .tablePropEntries
        let entriesProp ← astSetattr entriesProp .isConst .integer (.bool isConst)
        buildBracedProperty entriesProp .entries (buildEntriesList fwd memory)) <|
    ifToken tokenIsNonTableKwName
      (do
        let entryProp ← newAstNode .tablePropSingleEntry
        let entryProp ← astSetattr entryProp .name .ast (.ast (← buildName false))
        expect .equal "`=` was expected"
        let entryProp ← astSetattr entryProp .initExpr .ast (.ast (← buildInitializer fwd))
        expect .semicolon "`;` was expected"
        return entryProp)
      assertFalse

def buildTableProperty : Parser Ast := do
  require tokenIsTableProperty "table property was expected"
  let isConst ← buildOptConst
  buildPropertyKind fwd memory isConst

def buildTablePropertyList : Parser (Option AstList) := do
  require tokenIsTableProperty "table property was expected"
  whileList tokenIsTableProperty (buildTableProperty fwd memory) fwd.fuel

def buildTableDeclaration : Parser Ast := do
  expect .table "`table` was expected"
  let table ← newAstNode .tableDecl
  let table ← astSetattr table .name .ast (.ast (← buildName false))
  expect .braceOpen "`\x7b` was expected"
  let table ← astSetattr table .propList .astList (listValue (← buildTablePropertyList fwd memory))
  expect .braceClose "`\x7d` was expected"
  return table

/-! ## Controls -/

def buildControlTypeDeclaration : Parser Ast :=
  buildSignatureType fwd .control .controlType "`control` was expected"

def buildControlLocalDeclaration : Parser Ast :=
  ifToken (is .const) (buildConstantDeclaration fwd) <|
    ifToken (is .action) (buildActionDeclaration fwd) <|
    ifToken (is .table) (buildTableDeclaration fwd memory) <|
    ifToken tokenIsTypeRef
      (do
        let typeRef ← buildTypeRef fwd
        buildAfterType fwd typeRef unexpected)
      (error "local declaration was expected")

def buildControlLocalDeclarations : Parser (Option AstList) :=
  ifToken tokenIsControlLocalDeclaration
    (whileList tokenIsControlLocalDeclaration (buildControlLocalDeclaration fwd memory) fwd.fuel)
    (pure none)

def buildControlDeclaration : Parser Ast := do
  require (is .control) "`control` was expected"
  let decl ← newAstNode .control
  let decl ← astSetattr decl .typeDecl .ast (.ast (← buildControlTypeDeclaration fwd))
  ifToken (is .semicolon)
    (do
      nextToken
      return decl)
    (do
      let decl ←
        astSetattr decl .ctorParams .astList (listValue (← buildOptConstructorParameters fwd))
      expect .braceOpen "`\x7b` was expected"
      let decl ←
        astSetattr decl .localDecls .astList
          (listValue (← buildControlLocalDeclarations fwd memory))
      expect .apply "`apply` was expected"
      let decl ← astSetattr decl .applyStmt .ast (.ast (← fwd.blockStatement))
      expect .braceClose "`\x7d` was expected"
      return decl)

end

end Dp4c.Parse
