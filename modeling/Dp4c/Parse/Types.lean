import Dp4c.Parse.Machine

/-! # Names, prototypes and types (build_ast.c, up to the enumerations) -/
namespace Dp4c.Parse

open Dp4c.Lib

/-! ## Names and literals -/

def buildNonTypeName (isType : Bool) : Parser Ast := do
  require tokenIsNonTypeName "non-type name was expected"
  let lexeme := (← Prog.reads (·.token)).lexeme
  let name ← astSetattr (← newAstNode .name) .name .string (.string lexeme)
  registerType isType lexeme name
  nextToken
  return name

def buildName (isType : Bool) : Parser Ast := do
  require tokenIsName "name was expected"
  ifToken tokenIsNonTypeName (buildNonTypeName isType) <|
    ifToken (is .typeIdentifier)
      (do
        let lexeme := (← Prog.reads (·.token)).lexeme
        let typeName ← astSetattr (← newAstNode .name) .name .string (.string lexeme)
        nextToken
        return typeName)
      assertFalse

def buildTypeParameterList (fuel : Nat) : Parser (Option AstList) := do
  require tokenIsTypeParameterList "name was expected"
  commaList (buildName true) fuel

def buildOptTypeParameters (fuel : Nat) : Parser (Option AstList) :=
  ifToken (is .angleOpen)
    (do
      nextToken
      require tokenIsTypeParameterList "name was expected"
      let params ← buildTypeParameterList fuel
      expect .angleClose "`>` was expected"
      return params)
    (pure none)

def buildInteger : Parser Ast :=
  ifToken (is .integer)
    (do
      let i := (← Prog.reads (·.token)).i
      let intNode ← newAstNode .int
      let intNode ← astSetattr intNode .flags .integer (.flags i.flags)
      let intNode ← astSetattr intNode .width .integer (.int i.width)
      let intNode ← astSetattr intNode .value .integer (.int i.value)
      nextToken
      return intNode)
    (pure .null)

def buildBoolean : Parser Ast :=
  ifToken (fun k => k == .true || k == .false)
    (do
      let boolNode ← newAstNode .bool
      let boolNode ← astSetattr boolNode .value .integer (.int 0)
      let boolNode ← ifToken (is .true) (astSetattr boolNode .value .integer (.int 1))
          (pure boolNode)
      nextToken
      return boolNode)
    (pure .null)

def buildStringLiteral : Parser Ast :=
  ifToken (is .stringLiteral)
    (do
      let lexeme := (← Prog.reads (·.token)).lexeme
      let string ← astSetattr (← newAstNode .stringLiteral) .value .string (.string lexeme)
      nextToken
      return string)
    (pure .null)

section

variable (fwd : Forward)

def buildTypeArg : Parser Ast := do
  require tokenIsTypeArg "type argument was expected"
  ifToken (is .dontcare)
    (do
      let dontcare ← newAstNode .dontcare
      nextToken
      return dontcare) <|
    ifToken tokenIsTypeRef fwd.typeRef <|
      ifToken tokenIsNonTypeName (buildNonTypeName false) assertFalse

/-! ## Prototypes -/

def buildDirection : Parser AstParamDirection :=
  ifToken tokenIsDirection
    (do
      let dir ← ifToken (is .inKw) (pure .in) <|
        ifToken (is .out) (pure .out) <|
          ifToken (is .inOut) (pure .inOut) assertFalse
      nextToken
      return dir)
    (pure .none)

def buildParameter : Parser Ast := do
  let param ← newAstNode .parameter
  let direction ← buildDirection
  let param ← astSetattr param .direction .integer (.direction direction)
  require tokenIsTypeRef "type was expected"
  let param ← astSetattr param .type .ast (.ast (← fwd.typeRef))
  require tokenIsName "name was expected"
  let param ← astSetattr param .name .ast (.ast (← buildName false))
  ifToken (is .equal)
    (do
      nextToken
      require tokenIsExpression "expression was expected"
      astSetattr param .initExpr .ast (.ast (← fwd.expression 1)))
    (pure param)

def buildParameterList : Parser (Option AstList) :=
  ifToken tokenIsParameter (commaList (buildParameter fwd) fwd.fuel) (pure none)

def buildTypeOrVoid (isType : Bool) : Parser Ast := do
  require tokenIsTypeOrVoid "type was expected"
  ifToken tokenIsTypeRef fwd.typeRef <|
    ifToken (is .void)
      (do
        let lexeme := (← Prog.reads (·.token)).lexeme
        let voidName ← astSetattr (← newAstNode .name) .name .string (.string lexeme)
        nextToken
        return voidName) <|
      ifToken (is .identifier)
        (do
          let lexeme := (← Prog.reads (·.token)).lexeme
          let name ← astSetattr (← newAstNode .name) .name .string (.string lexeme)
          registerType isType lexeme name
          nextToken
          return name)
        assertFalse

/-- `'(' <parameterList> ')'` as the value of an attribute. -/
def setParams (node : Ast) (text : String) : Parser Ast := do
  expect .parenthOpen text
  let node ← astSetattr node .params .astList (listValue (← buildParameterList fwd))
  expect .parenthClose "`)` was expected"
  return node

/-- `<name> <optTypeParameters> '(' <parameterList> ')'` as attributes; the text is
that of the error for a missing name. -/
def setSignature (node : Ast) (isType : Bool) (text : String) : Parser Ast := do
  require tokenIsName text
  let node ← astSetattr node .name .ast (.ast (← buildName isType))
  let node ← astSetattr node .typeParams .astList (listValue (← buildOptTypeParameters fwd.fuel))
  setParams fwd node "`(` was expected"

def buildFunctionPrototype (typeRef : Ast) : Parser Ast := do
  requireOr typeRef tokenIsTypeOrVoid "type was expected"
  let proto ← newAstNode .functionProto
  let returnType ← givenOr typeRef (buildTypeOrVoid fwd true)
  let proto ← astSetattr proto .returnType .ast (.ast returnType)
  setSignature fwd proto false "function name was expected"

def buildMethodPrototype : Parser Ast := do
  require tokenIsMethodPrototype "type was expected"
  let proto ← ifToken (is .typeIdentifier)
    (ifPeek (is .parenthOpen)
      (do
        -- the constructor
        let proto ← newAstNode .functionProto
        let proto ← astSetattr proto .name .ast (.ast (← buildName false))
        setParams fwd proto "`(` as expected")
      (ifToken tokenIsTypeOrVoid (buildFunctionPrototype fwd .null) (error "type was expected")))
    (ifToken tokenIsTypeOrVoid (buildFunctionPrototype fwd .null) (error "type was expected"))
  expect .semicolon "`;` was expected"
  return proto

def buildMethodPrototypes : Parser (Option AstList) :=
  ifToken tokenIsMethodPrototype
    (whileList tokenIsMethodPrototype (buildMethodPrototype fwd) fwd.fuel) (pure none)

/-- `extern` followed by a prototype. -/
def buildExternFunction : Parser Ast := do
  let decl ← buildFunctionPrototype fwd .null
  expect .semicolon "`;` was expected"
  return decl

/-- `extern` followed by a name and methods. -/
def buildExternObject (externDecl : Ast) : Parser Ast := do
  let externDecl ← astSetattr externDecl .name .ast (.ast (← buildNonTypeName true))
  let externDecl ←
    astSetattr externDecl .typeParams .astList (listValue (← buildOptTypeParameters fwd.fuel))
  expect .braceOpen "`\x7b` was expected"
  let externDecl ←
    astSetattr externDecl .methodProtos .astList (listValue (← buildMethodPrototypes fwd))
  expect .braceClose "`\x7d` was expected"
  return externDecl

def buildExternDeclaration : Parser Ast :=
  ifToken (is .externKw)
    (do
      nextToken
      let externDecl ← newAstNode .externDecl
      ifToken (fun k => tokenIsTypeOrVoid k && tokenIsNonTypeName k)
        (ifPeek tokenIsName (buildExternFunction fwd) (buildExternObject fwd externDecl)) <|
        ifToken tokenIsTypeOrVoid (buildExternFunction fwd) <|
          ifToken tokenIsNonTypeName (buildExternObject fwd externDecl)
            (error "extern declaration was expected"))
    (pure .null)

/-! ## Types -/

def buildIntegerTypeSize : Parser Ast := do
  let typeSize ← newAstNode .intTypeSize
  ifToken (is .integer)
    (do astSetattr typeSize .size .ast (.ast (← buildInteger))) <|
    ifToken (is .parenthOpen)
      (do astSetattr typeSize .size .ast (.ast (← fwd.expression 1)))
      (error "`(` was expected")

/-- A base type without a size. -/
def buildPlainType (base : Ast) (value : AstBaseTypeKind) : Parser Ast := do
  let base ← astSetattr base .baseType .integer (.baseType value)
  nextToken
  return base

/-- A base type that may have a size. -/
def buildSizedType (base : Ast) (value : AstBaseTypeKind) : Parser Ast := do
  let base ← buildPlainType base value
  ifToken (is .angleOpen)
    (do
      nextToken
      let base ← astSetattr base .size .ast (.ast (← buildIntegerTypeSize fwd))
      expect .angleClose "`>` was expected"
      return base)
    (pure base)

def buildBaseType : Parser Ast := do
  require tokenIsBaseType "type as expected"
  let base ← newAstNode .baseType
  ifToken (is .bool) (buildPlainType base .bool) <|
    ifToken (is .error) (buildPlainType base .error) <|
      ifToken (is .int) (buildSizedType fwd base .int) <|
        ifToken (is .bit) (buildSizedType fwd base .bit) <|
          ifToken (is .varbit) (buildSizedType fwd base .varbit) <|
            ifToken (is .string) (buildPlainType base .string) assertFalse

def buildTypeArgumentList : Parser (Option AstList) :=
  ifToken tokenIsTypeArg (commaList (buildTypeArg fwd) fwd.fuel) (pure none)

def buildTupleType : Parser Ast := do
  expect .tuple "`tuple` was expected"
  let type ← newAstNode .tuple
  expect .angleOpen "`<` was expected"
  let type ← astSetattr type .typeArgs .astList (listValue (← buildTypeArgumentList fwd))
  expect .angleClose "`>` was expected"
  return type

def buildHeaderStackType : Parser Ast := do
  expect .bracketOpen "`[` was expected"
  let stack ← newAstNode .headerStack
  require tokenIsExpression "an expression expected"
  let stack ← astSetattr stack .stackExpr .ast (.ast (← fwd.expression 1))
  expect .bracketClose "`]` was expected"
  return stack

def buildSpecializedType : Parser Ast := do
  expect .angleOpen "`<` was expected"
  let type ← newAstNode .specdType
  let type ← astSetattr type .typeArgs .astList (listValue (← buildTypeArgumentList fwd))
  expect .angleClose "`>` was expected"
  return type

/-- The optional dot in front of a name. -/
def buildDotPrefix : Parser Bool :=
  ifToken (is .dotPrefix)
    (do
      nextToken
      return true)
    (pure false)

def buildPrefixedType : Parser Ast := do
  let isDotprefixed ← buildDotPrefix
  require (is .typeIdentifier) "type was expected"
  let lexeme := (← Prog.reads (·.token)).lexeme
  let name ← astSetattr (← newAstNode .name) .name .string (.string lexeme)
  let name ← astSetattr name .isDotprefixed .integer (.bool isDotprefixed)
  nextToken
  return name

def buildTypeName : Parser Ast := do
  require tokenIsTypeName "type was expected"
  let name ← buildPrefixedType
  let name ← ifToken (is .angleOpen)
    (do astSetattr (← buildSpecializedType fwd) .name .ast (.ast name))
    (pure name)
  ifToken (is .bracketOpen)
    (do astSetattr (← buildHeaderStackType fwd) .name .ast (.ast name))
    (pure name)

def buildTypeRef : Parser Ast := do
  require tokenIsTypeRef "type was expected"
  ifToken tokenIsBaseType (buildBaseType fwd) <|
    ifToken tokenIsTypeName (buildTypeName fwd) <|
      ifToken (is .tuple) (buildTupleType fwd) assertFalse

/-! ## Structs, headers and enumerations -/

def buildStructField : Parser Ast := do
  let field ← newAstNode .structField
  require tokenIsTypeRef "struct field was expected"
  let field ← astSetattr field .type .ast (.ast (← buildTypeRef fwd))
  require tokenIsName "name was expected"
  let field ← astSetattr field .name .ast (.ast (← buildName false))
  expect .semicolon "`;` was expected"
  return field

def buildStructFieldList : Parser (Option AstList) :=
  ifToken tokenIsStructField
    (whileList tokenIsStructField (buildStructField fwd) fwd.fuel) (pure none)

/-- A declaration with fields, after its keyword. -/
def buildFieldsDeclaration (klass : TokenClass) (kind : AstKind) (text : String) :
    Parser Ast := do
  expect klass text
  let decl ← newAstNode kind
  require tokenIsName "name was expected"
  let decl ← astSetattr decl .name .ast (.ast (← buildName true))
  expect .braceOpen "`\x7b` was expected"
  let decl ← astSetattr decl .fields .astList (listValue (← buildStructFieldList fwd))
  expect .braceClose "`\x7d` was expected"
  return decl

def buildHeaderTypeDeclaration : Parser Ast :=
  buildFieldsDeclaration fwd .header .headerDecl "`header` was expected"

def buildHeaderUnionDeclaration : Parser Ast :=
  buildFieldsDeclaration fwd .headerUnion .headerUnionDecl "`header_union` was expected"

def buildStructTypeDeclaration : Parser Ast :=
  buildFieldsDeclaration fwd .struct .structDecl "`struct` was expected"

def buildInitializer : Parser Ast := fwd.expression 1

def buildOptInitializer : Parser Ast :=
  ifToken (is .equal)
    (do
      nextToken
      buildInitializer fwd)
    (pure .null)

def buildSpecifiedIdentifier : Parser Ast := do
  require tokenIsSpecifiedIdentifier "name was expected"
  let id ← newAstNode .specdId
  let id ← astSetattr id .name .ast (.ast (← buildName false))
  ifToken (is .equal)
    (do
      nextToken
      require tokenIsExpression "an expression was expected"
      astSetattr id .initExpr .ast (.ast (← buildInitializer fwd)))
    (pure id)

def buildSpecifiedIdentifierList : Parser (Option AstList) :=
  ifToken tokenIsSpecifiedIdentifier (commaList (buildSpecifiedIdentifier fwd) fwd.fuel) (pure none)

/-- `bit '<' INTEGER '>'` in front of an enumeration's name. -/
def buildEnumSize (decl : Ast) : Parser Ast :=
  ifToken (is .bit)
    (do
      nextToken
      expect .angleOpen "`<` was expected"
      require (is .integer) "an integer was expected"
      let decl ← astSetattr decl .typeSize .ast (.ast (← buildInteger))
      expect .angleClose "`>` was expected"
      return decl)
    (pure decl)

def buildEnumDeclaration : Parser Ast := do
  expect .enum "`enum` was expected"
  let decl ← buildEnumSize (← newAstNode .enumDecl)
  require tokenIsName "name was expected"
  let decl ← astSetattr decl .name .ast (.ast (← buildName true))
  expect .braceOpen "`\x7b` was expected"
  require tokenIsSpecifiedIdentifier "name was expected"
  let decl ← astSetattr decl .idList .astList (listValue (← buildSpecifiedIdentifierList fwd))
  expect .braceClose "`\x7d` was expected"
  return decl

def buildDerivedTypeDeclaration : Parser Ast := do
  require tokenIsDerivedTypeDeclaration "structure declaration was expected"
  ifToken (is .header) (buildHeaderTypeDeclaration fwd) <|
    ifToken (is .headerUnion) (buildHeaderUnionDeclaration fwd) <|
      ifToken (is .struct) (buildStructTypeDeclaration fwd) <|
        ifToken (is .enum) (buildEnumDeclaration fwd) assertFalse

end

end Dp4c.Parse
