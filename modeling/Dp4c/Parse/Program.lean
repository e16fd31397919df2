import Dp4c.Parse.Controls

/-! # Declarations and the program (build_ast.c) -/
namespace Dp4c.Parse

open Dp4c.Lib

section

variable (fwd : Forward) (memory : Memory)

def buildPackageTypeDeclaration : Parser Ast :=
  buildSignatureType fwd .package .package "`package` was expected"

/-- `typedef` or `type`; the answer is whether it was `typedef`. -/
def buildTypedefKeyword : Parser Bool :=
  ifToken (is .typedef)
    (do
      nextToken
      return true) <|
    ifToken (is .type)
      (do
        nextToken
        return false)
      assertFalse

def buildTypedefDeclaration : Parser Ast := do
  require (fun k => k == .typedef || k == .type) "type definition was expected"
  let isTypedef ← buildTypedefKeyword
  require (fun k => tokenIsTypeRef k || tokenIsDerivedTypeDeclaration k) "type was expected"
  let typeDecl ← newAstNode .typeDecl
  let typeDecl ← astSetattr typeDecl .isTypedef .integer (.bool isTypedef)
  let typeRef ← ifToken tokenIsTypeRef (buildTypeRef fwd) <|
    ifToken tokenIsDerivedTypeDeclaration (buildDerivedTypeDeclaration fwd) assertFalse
  let typeDecl ← astSetattr typeDecl .typeRef .ast (.ast typeRef)
  require tokenIsName "name was expected"
  let typeDecl ← astSetattr typeDecl .name .ast (.ast (← buildName true))
  expect .semicolon "`;` expected"
  return typeDecl

def buildTypeDeclaration : Parser Ast := do
  require tokenIsTypeDeclaration "type declaration was expected"
  ifToken tokenIsDerivedTypeDeclaration (buildDerivedTypeDeclaration fwd) <|
    ifToken (fun k => k == .typedef || k == .type) (buildTypedefDeclaration fwd) <|
    ifToken (is .parser) (buildParserDeclaration fwd memory) <|
    ifToken (is .control) (buildControlDeclaration fwd memory) <|
    ifToken (is .package)
      (do
        let decl ← buildPackageTypeDeclaration fwd
        expect .semicolon "`;` expected"
        return decl)
      assertFalse

def buildIdentifierList : Parser (Option AstList) := do
  require tokenIsName "name was expected"
  commaList (buildName false) fwd.fuel

/-- A declaration of identifiers in braces, after its keyword. -/
def buildIdentifiersDeclaration (klass : TokenClass) (kind : AstKind) (text : String) :
    Parser Ast := do
  expect klass text
  let decl ← newAstNode kind
  expect .braceOpen "`\x7b` was expected"
  require tokenIsName "name was expected"
  let decl ← astSetattr decl .idList .astList (listValue (← buildIdentifierList fwd))
  expect .braceClose "`\x7d` was expected"
  return decl

def buildErrorDeclaration : Parser Ast :=
  buildIdentifiersDeclaration fwd .error .error "`error` was expected"

def buildMatchKindDeclaration : Parser Ast :=
  buildIdentifiersDeclaration fwd .matchKind .matchKind "`match_kind` was expected"

def buildFunctionDeclaration (typeRef : Ast) : Parser Ast := do
  require tokenIsTypeOrVoid "type was expected"
  let decl ← newAstNode .functionDecl
  let decl ← astSetattr decl .proto .ast (.ast (← buildFunctionPrototype fwd typeRef))
  require (is .braceOpen) "`\x7b` was expected"
  astSetattr decl .stmt .ast (.ast (← fwd.blockStatement))

def buildDeclaration : Parser Ast := do
  require tokenIsDeclaration "top-level declaration as expected"
  ifToken (is .const) (buildConstantDeclaration fwd) <|
    ifToken (is .externKw) (buildExternDeclaration fwd) <|
    ifToken (is .action) (buildActionDeclaration fwd) <|
    ifToken tokenIsTypeDeclaration (buildTypeDeclaration fwd memory) <|
    ifToken (is .error) (buildErrorDeclaration fwd) <|
    ifToken (is .matchKind) (buildMatchKindDeclaration fwd) <|
    ifToken tokenIsTypeRef
      (do
        let typeRef ← buildTypeRef fwd
        ifToken (is .parenthOpen) (buildInstantiation fwd typeRef) <|
          ifToken tokenIsName (buildFunctionDeclaration fwd typeRef) unexpected) <|
    ifToken tokenIsTypeOrVoid (do buildFunctionDeclaration fwd (← buildTypeRef fwd))
      assertFalse

/-- The loop over declarations and the semicolons of empty ones. -/
def declarationLoop : Nat → AstList → Parser AstList
  | 0, _ => stop .outOfFuel
  | fuel + 1, decls =>
    ifToken (fun k => tokenIsDeclaration k || k == .semicolon)
      (ifToken tokenIsDeclaration
        (do declarationLoop fuel (← astListAppendLink decls (← buildDeclaration fwd memory))) <|
        ifToken (is .semicolon)
          (do
            nextToken
            declarationLoop fuel decls)
          (declarationLoop fuel decls))
      (pure decls)

def buildP4program : Parser Ast := do
  let program ← newAstNode .p4Program
  let decls ← declarationLoop fwd memory fwd.fuel (← newAstList)
  let program ← astSetattr program .declList .astList (listValue (some decls))
  ifToken (is .endOfInput) (pure program) unexpected

end

/-! ## The forward declarations -/

/-- The functions with recursion of depth `n` at most; deeper ones run out of fuel. -/
def forward : Nat → Forward
  | 0 =>
    { fuel := 0
      expression := fun _ => stop .outOfFuel
      typeRef := stop .outOfFuel
      blockStatement := stop .outOfFuel
      statement := fun _ => stop .outOfFuel
      parserStatement := stop .outOfFuel }
  | n + 1 =>
    { fuel := n + 1
      expression := buildExpression (forward n)
      typeRef := buildTypeRef (forward n)
      blockStatement := buildBlockStatement (forward n)
      statement := buildStatement (forward n)
      parserStatement := buildParserStatement (forward n) }

def buildAstProgram (fuel : Nat) (memory : Memory) : Parser Ast := do
  nextToken
  buildP4program (forward fuel) memory

/-- The state in which `build_ast_program` starts. -/
def start (tokens : List Token) (scopes : Symtable.Scopes) : State :=
  { tokens := tokens, scopes := scopes }

/-- A run on a token array and a symbol table. A recursion or a loop that ends is through
after twice the number of tokens; `rounds` are what a loop that does not end gets beyond
that. -/
def run (rounds : Nat) (tokens : List Token) (scopes : Symtable.Scopes) (memory : Memory) :
    Except Stop (Ast × State) :=
  buildAstProgram (rounds + 2 * tokens.length) memory (start tokens scopes)

/-- The last state of a run. -/
def finalState : Except Stop (Ast × State) → State
  | .ok (_, s) => s
  | .error e => e.state

/-- The steps of a run. -/
def steps (r : Except Stop (Ast × State)) : List Step := (finalState r).trace

end Dp4c.Parse
