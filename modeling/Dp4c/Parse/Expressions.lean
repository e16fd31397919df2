import Dp4c.Parse.Types

/-! # Expressions (build_ast.c)

Binary operators are read by precedence climbing: `build_expression` goes on as long as
the priority of the operator reaches its threshold. Member selections, indices, calls and
type arguments are taken in the same loop. -/
namespace Dp4c.Parse

open Dp4c.Lib

section

variable (fwd : Forward)

/-! ## Arguments and indices -/

def buildArgument : Parser Ast := do
  require tokenIsArgument "an argument was expected"
  ifToken tokenIsExpression (fwd.expression 1) <|
    ifToken tokenIsName
      (do
        let namedArg ← newAstNode .argument
        let namedArg ← astSetattr namedArg .name .ast (.ast (← buildName false))
        expect .equal "`=` was expected"
        require tokenIsExpression "an expression was expected"
        astSetattr namedArg .initExpr .ast (.ast (← fwd.expression 1))) <|
      ifToken (is .dontcare)
        (do
          let dontcareArg ← newAstNode .dontcare
          nextToken
          return dontcareArg)
        assertFalse

def buildArgumentList : Parser (Option AstList) :=
  ifToken tokenIsArgument (commaList (buildArgument fwd) fwd.fuel) (pure none)

def buildArrayIndex : Parser Ast := do
  let index ← newAstNode .arrayIndex
  require tokenIsExpression "an expression was expected"
  let index ← astSetattr index .index .ast (.ast (← fwd.expression 1))
  ifToken (is .colon)
    (do
      nextToken
      require tokenIsExpression "an expression was expected"
      astSetattr index .colonIndex .ast (.ast (← fwd.expression 1)))
    (pure index)

def buildExpressionList : Parser (Option AstList) :=
  ifToken tokenIsExpression (commaList (fwd.expression 1) fwd.fuel) (pure none)

def buildRealTypeArg : Parser Ast :=
  ifToken (is .dontcare)
    (do
      nextToken
      newAstNode .dontcare) <|
    ifToken tokenIsTypeRef (buildTypeRef fwd) (error "type argument was expected")

def buildRealTypeArgumentList : Parser (Option AstList) :=
  ifToken tokenIsRealTypeArg (commaList (buildRealTypeArg fwd) fwd.fuel) (pure none)

/-! ## Primaries -/

/-- A name behind a dot. -/
def buildDottedName : Parser Ast := do
  nextToken
  ifToken (is .identifier)
    (do astSetattr (← buildNonTypeName false) .isDotprefixed .integer (.bool true)) <|
    ifToken (is .typeIdentifier)
      (do astSetattr (← buildTypeName fwd) .isDotprefixed .integer (.bool true))
      unexpected

/-- `'{' <expressionList> '}'`. -/
def buildBracedList : Parser Ast := do
  nextToken
  let exprList ← newAstNode .expressionListExpr
  let exprList ← astSetattr exprList .exprList .astList (listValue (← buildExpressionList fwd))
  expect .braceClose "`\x7d` was expected"
  return exprList

/-- What starts with a parenthesis: a cast, or an expression in parentheses. -/
def buildParenthesized : Parser Ast := do
  nextToken
  ifToken tokenIsTypeRef
    (do
      let cast ← newAstNode .castExpr
      let cast ← astSetattr cast .toType .ast (.ast (← buildTypeRef fwd))
      expect .parenthClose "`)` was expected"
      astSetattr cast .expr .ast (.ast (← fwd.expression 1))) <|
    ifToken tokenIsExpression
      (do
        let primary ← fwd.expression 1
        expect .parenthClose "`)` was expected"
        return primary)
      (error "an expression was expected")

/-- A prefix operator and its operand. -/
def buildUnary (op : AstExprOperator) : Parser Ast := do
  nextToken
  let unaryExpr ← newAstNode .unaryExpr
  let unaryExpr ← astSetattr unaryExpr .op .exprOperator (.operator op)
  astSetattr unaryExpr .expr .ast (.ast (← fwd.expression 1))

/-- `error` as the name of a type. The attribute points to a string and is tagged as a
node. -/
def buildErrorName : Parser Ast := do
  note .errorName
  nextToken
  let name ← newAstNode .name
  let lexeme := (← Prog.reads (·.token)).lexeme
  astSetattr name .name .ast (.string lexeme)

def buildExpressionPrimary : Parser Ast := do
  require tokenIsExpression "an expression was expected"
  ifToken (is .integer) buildInteger <|
    ifToken (is .true) buildBoolean <|
    ifToken (is .false) buildBoolean <|
    ifToken (is .stringLiteral) buildStringLiteral <|
    ifToken (is .dotPrefix) (buildDottedName fwd) <|
    ifToken tokenIsNonTypeName (buildNonTypeName false) <|
    ifToken (is .braceOpen) (buildBracedList fwd) <|
    ifToken (is .parenthOpen) (buildParenthesized fwd) <|
    ifToken (is .exclamation) (buildUnary fwd .logNot) <|
    ifToken (is .tilda) (buildUnary fwd .bitNot) <|
    ifToken (is .unaryMinus) (buildUnary fwd .minus) <|
    ifToken tokenIsTypeName (buildTypeName fwd) <|
    ifToken (is .error) buildErrorName assertFalse

/-! ## Operators -/

/-- The table of `get_operator_priority`; its last branch is an assertion. -/
def getOperatorPriority : TokenClass → Option Nat
  | .twoAmpersand | .twoPipe => some 1
  | .twoEqual | .exclamationEqual | .angleOpen | .angleClose | .angleOpenEqual
  | .angleCloseEqual => some 2
  | .plus | .minus | .ampersand | .pipe | .circumflex | .twoAngleOpen | .twoAngleClose => some 3
  | .star | .slash => some 4
  | .threeAmpersand => some 5
  | _ => none

def tokenToBinop : TokenClass → AstExprOperator
  | .twoAmpersand => .and
  | .twoPipe => .or
  | .twoEqual => .equal
  | .exclamationEqual => .notEqual
  | .angleOpen => .less
  | .angleClose => .greater
  | .angleOpenEqual => .lessEqual
  | .angleCloseEqual => .greaterEqual
  | .plus => .add
  | .minus => .sub
  | .star => .mul
  | .slash => .div
  | .ampersand => .bitAnd
  | .pipe => .bitOr
  | .circumflex => .bitXor
  | .twoAngleOpen => .bitShiftLeft
  | .twoAngleClose => .bitShiftRight
  | .threeAmpersand => .mask
  | _ => .none

def buildMemberSelect (expr : Ast) : Parser Ast := do
  nextToken
  let selectExpr ← newAstNode .memberSelectExpr
  let selectExpr ← astSetattr selectExpr .expr .ast (.ast expr)
  require tokenIsName "name was expected"
  astSetattr selectExpr .memberName .ast (.ast (← buildName false))

def buildIndexedArray (expr : Ast) : Parser Ast := do
  nextToken
  let indexExpr ← newAstNode .indexedArrayExpr
  let indexExpr ← astSetattr indexExpr .expr .ast (.ast expr)
  let indexExpr ← astSetattr indexExpr .indexExpr .ast (.ast (← buildArrayIndex fwd))
  expect .bracketClose "`]` was expected"
  return indexExpr

def buildFunctionCall (expr : Ast) : Parser Ast := do
  nextToken
  let callExpr ← newAstNode .functionCallExpr
  let callExpr ← astSetattr callExpr .expr .ast (.ast expr)
  let callExpr ← astSetattr callExpr .args .astList (listValue (← buildArgumentList fwd))
  expect .parenthClose "`)` was expected"
  return callExpr

def buildTypeArgs (expr : Ast) : Parser Ast := do
  nextToken
  let argsExpr ← newAstNode .typeArgsExpr
  let argsExpr ← astSetattr argsExpr .expr .ast (.ast expr)
  let argsExpr ← astSetattr argsExpr .typeArgs .astList
      (listValue (← buildRealTypeArgumentList fwd))
  expect .angleClose "`>` was expected"
  return argsExpr

def buildKvPair (expr : Ast) : Parser Ast := do
  nextToken
  let kvPair ← newAstNode .kvPair
  let kvPair ← astSetattr kvPair .name .ast (.ast expr)
  astSetattr kvPair .expr .ast (.ast (← fwd.expression 1))

/-- A binary operator of this priority with its right operand. -/
def buildBinary (expr : Ast) (priority : Nat) : Parser Ast := do
  let binExpr ← newAstNode .binaryExpr
  let binExpr ← astSetattr binExpr .leftOperand .ast (.ast expr)
  let klass := (← Prog.reads (·.token)).klass
  let binExpr ← astSetattr binExpr .op .exprOperator (.operator (tokenToBinop klass))
  nextToken
  astSetattr binExpr .rightOperand .ast (.ast (← fwd.expression (priority + 1)))

/-- `if (priority >= priority_threshold) { x } else break`, the priority that of the
current token. -/
def atPriority {α : Type} (threshold : Nat) (x : Nat → Parser α) (done : Parser α) : Parser α :=
  fun s =>
    match getOperatorPriority s.token.klass with
    | some priority => if priority ≥ threshold then x priority s else done s
    | none => assertFalse s

/-- The loop over the operators behind `expr`. -/
def operatorLoop (threshold : Nat) : Nat → Ast → Parser Ast
  | 0, _ => stop .outOfFuel
  | fuel + 1, expr =>
    let binary : Parser Ast :=
      ifToken (is .equal) (do operatorLoop threshold fuel (← buildKvPair fwd expr)) <|
        ifToken tokenIsBinaryOperator
          (atPriority threshold
            (fun priority => do operatorLoop threshold fuel (← buildBinary fwd expr priority))
            (pure expr))
          assertFalse
    ifToken tokenIsExprOperator
      (ifToken (is .dotPrefix) (do operatorLoop threshold fuel (← buildMemberSelect expr)) <|
        ifToken (is .bracketOpen)
          (do operatorLoop threshold fuel (← buildIndexedArray fwd expr)) <|
        ifToken (is .parenthOpen)
          (do operatorLoop threshold fuel (← buildFunctionCall fwd expr)) <|
        ifToken (is .angleOpen)
          (ifPeek tokenIsRealTypeArg
            (do operatorLoop threshold fuel (← buildTypeArgs fwd expr))
            binary)
          binary)
      (pure expr)

def buildExpression (threshold : Nat) : Parser Ast := do
  require tokenIsExpression "an expression was expected"
  operatorLoop fwd threshold fwd.fuel (← buildExpressionPrimary fwd)

end

end Dp4c.Parse
