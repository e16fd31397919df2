import Dp4c.Token

/-! # The syntax tree (ast.h)

A node is a kind, an id, a line and attributes. `null` is the null pointer. The
attribute table of a node is the list of its entries in the order they were
first set; what a `void*` points to is a `Value`, told apart from the
`enum AstAttributeType` it is tagged with. -/
namespace Dp4c

/-- `enum AstKind`. -/
inductive AstKind where
  | none | name | baseType | constDecl | externDecl | functionProto | actionDecl | headerDecl
  | headerUnionDecl | structDecl | enumDecl | typeDecl | parser | control | package
  | instantiation | error | matchKind | functionDecl | dontcare | intTypeSize | int | bool
  | stringLiteral | tuple | tupleKeyset | headerStack | specdType | structField | specdId
  | parserType | argument | varDecl | directApplic | arrayIndex | parameter | lvalue
  | assignmentStmt | methodCallStmt | emptyStmt | default | selectExpr | selectCase | parserState
  | controlType | keyElement | actionRef | tableEntry | tablePropKey | tablePropActions
  | tablePropEntries | tablePropSingleEntry | tableDecl | ifStmt | exitStmt | returnStmt
  | switchLabel | switchCase | switchStmt | blockStmt | expressionListExpr | castExpr | unaryExpr
  | binaryExpr | kvPair | memberSelectExpr | indexedArrayExpr | functionCallExpr | typeArgsExpr
  | p4Program
deriving DecidableEq, Repr

inductive AstBaseTypeKind where
  | none | bool | error | int | bit | varbit | string
deriving DecidableEq, Repr

inductive AstExprOperator where
  | none | add | sub | mul | div | and | or | equal | notEqual | less | greater | lessEqual
  | greaterEqual | bitAnd | bitOr | bitXor | bitShiftLeft | bitShiftRight | mask | minus | logNot
  | bitNot
deriving DecidableEq, Repr

inductive AstParamDirection where
  | none | in | out | inOut
deriving DecidableEq, Repr

inductive AstAttributeType where
  | none | ast | astList | integer | string | exprOperator
deriving DecidableEq, Repr

/-- The names build_ast.c gives to attributes. -/
inductive AttrName where
  | action | actionList | applyStmt | args | baseType | caseList | colonIndex | condExpr
  | ctorParams | declList | direction | elseStmt | entries | expr | exprList | fields | flags
  | idList | index | indexExpr | initExpr | isConst | isDotprefixed | isTypedef | keyelemList
  | keyset | label | leftOperand | localDecls | localElements | lvalue | memberName
  | methodProtos | name | op | params | propList | proto | returnType | rightOperand | size
  | stackExpr | states | stmt | stmtList | switchCases | toType | transStmt | type | typeArgs
  | typeDecl | typeParams | typeRef | typeSize | value | width
deriving DecidableEq, Repr

/-- What an attribute points to, over the type of nodes. A list has its links in
order and the `link_count` of its `struct AstList`. -/
inductive Value (α : Type) where
  | ast (a : α)
  | nullList
  | list (links : List α) (linkCount : Int)
  | string (s : Cstr)
  | int (n : Int)
  | bool (b : Bool)
  | flags (f : AstIntegerFlags)
  | direction (d : AstParamDirection)
  | baseType (b : AstBaseTypeKind)
  | operator (op : AstExprOperator)

structure Attribute (α : Type) where
  name : AttrName
  type : AstAttributeType
  value : Value α

inductive Ast where
  | null
  | node (kind : AstKind) (id lineNr : Nat) (attrs : List (Attribute Ast))

/-- `AST_ATTRTABLE_CAPACITY`. -/
def astAttrtableCapacity : Nat := 15

namespace Ast

def kind : Ast → AstKind
  | null => .none
  | node kind _ _ _ => kind

def id : Ast → Nat
  | null => 0
  | node _ id _ _ => id

def lineNr : Ast → Nat
  | null => 0
  | node _ _ lineNr _ => lineNr

def attrs : Ast → List (Attribute Ast)
  | null => []
  | node _ _ _ attrs => attrs

/-- `ast_getattr` of a node, without the null pointer for a missing attribute. -/
def getattr (a : Ast) (attr : AttrName) : Option (Value Ast) :=
  (a.attrs.find? (·.name = attr)).map (·.value)

end Ast

/-- Sets an attribute that is there, or adds it behind the others. -/
def setEntry (entry : Attribute Ast) : List (Attribute Ast) → List (Attribute Ast)
  | [] => [entry]
  | e :: rest => if e.name = entry.name then entry :: rest else e :: setEntry entry rest

/-- The nodes a value points to. -/
def Value.children : Value Ast → List Ast
  | .ast a => [a]
  | .list links _ => links
  | _ => []

end Dp4c
