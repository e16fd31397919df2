import Dp4c.Ast
import Dp4c.Symtable.Scopes

/-! # Reading tokens (build_ast.c)

The parser walks over the token array, whose classes it rewrites: an identifier
that is a keyword or a declared type gets the class of that. The pointers `token`
and `prev_token` always belong to `token_at` and `prev_token_at`, so the indices
stand for both. The symbol table is the `Scopes` that the hash table of symtable.c
implements; a node is named there by its id.

A struct whose memory the source clears with its whole size, or assigns before it
is used, does not show what the memory held before. -/
namespace Dp4c.Parse

open Dp4c.Lib Dp4c.Symtable

/-- Points of a run that the theorems speak about. -/
inductive Call where
  | nextToken | peekToken
  /-- `build_parserStatement` is called. -/
  | parserStatement
  /-- `build_tableProperty` looks for the kind of the property. -/
  | tableProperty
  /-- `build_tupleKeysetExpression` makes its list. -/
  | tupleKeyset
  /-- `build_expressionPrimary` takes `error` for a name. -/
  | errorName
  /-- `build_assignmentOrMethodCallStatement` is through with the lvalue. -/
  | lvalue
  /-- It comes to the `=` of an assignment. -/
  | assignment
deriving DecidableEq, Repr

structure Step where
  call : Call
  tokenAt : Nat
  klass : TokenClass
deriving DecidableEq, Repr

/-- The file-scope variables. `trace` is none of the source: the steps of the run so
far, the last one first. -/
structure State where
  tokens : List Token
  tokenAt : Nat := 0
  prevTokenAt : Nat := 0
  scopes : Scopes
  nodeId : Nat := 1
  trace : List Step := []
deriving DecidableEq

def State.token (s : State) : Token := s.tokens.getD s.tokenAt {}

/-- The end of a process: how, and in which state. -/
structure Stop where
  exit : Exit
  state : State
deriving DecidableEq

abbrev Parser := Prog Stop State

def stop {α : Type} (exit : Exit) : Parser α := fun s => .error ⟨exit, s⟩

/-- The `error` of this file; all formats but two are of this form. -/
def error {α : Type} (what : String) : Parser α := fun s =>
  .error ⟨.error ("at line %d: " ++ what ++ ", got `%s`.") s.token.lineNr s.token.lexeme.bytes, s⟩

def unexpected {α : Type} : Parser α := fun s =>
  .error ⟨.error "at line %d: unexpected token `%s`." s.token.lineNr s.token.lexeme.bytes, s⟩

def assertFalse {α : Type} : Parser α := stop (.assertion "0")

def note (call : Call) : Parser Unit :=
  Prog.modify fun s => { s with trace := ⟨call, s.tokenAt, s.token.klass⟩ :: s.trace }

/-! ## Tokens -/

def arrayGet (i : Nat) : Parser Token := fun s =>
  match s.tokens[i]? with
  | some token => .ok (token, s)
  | none => .error ⟨.assertion "i >= 0 && i < array->elem_count", s⟩

/-- The loop over comments: the first other token from `i` on. -/
def skipComments : Nat → Nat → Parser Nat
  | 0, _ => stop .outOfFuel
  | fuel + 1, i => do
    if (← arrayGet i).klass = .comment then skipComments fuel (i + 1) else pure i

/-- The class of a word with these bindings. -/
def wordKlass (b : Bindings) : TokenClass :=
  match b.idKw.head?.filter (·.identKind = .keyword) with
  | some idKw => idKw.tokenKlass
  | none =>
    match b.idType.head?.filter (·.identKind = .type) with
    | some _ => .typeIdentifier
    | none => .identifier

/-- `symbol->id_kw` and `symbol->id_type` decide what an identifier is. -/
def reclassify (s : State) : State :=
  if s.token.klass = .identifier then
    let scopes := s.scopes.enter s.token.lexeme
    let klass := wordKlass (scopes.lookup s.token.lexeme)
    { s with tokens := s.tokens.set s.tokenAt { s.token with klass := klass }, scopes := scopes }
  else s

def nextToken : Parser Unit := do
  note .nextToken
  let s ← Prog.state
  if s.tokenAt < s.tokens.length then
    let i ← skipComments (s.tokens.length + 1) (s.tokenAt + 1)
    Prog.modify fun s => reclassify { s with tokenAt := i, prevTokenAt := s.tokenAt }
  else stop (.assertion "token_at < tokens_array->elem_count")

/-- The token after the current one. -/
def peekToken : Parser Token := do
  note .peekToken
  nextToken
  let token ← Prog.reads (·.token)
  Prog.modify fun s => { s with tokenAt := s.prevTokenAt }
  return token

/-- `if (c(token)) x else y`. -/
def ifToken {α : Type} (c : TokenClass → Bool) (x y : Parser α) : Parser α := fun s =>
  if c s.token.klass then x s else y s

/-- `if (c(peek_token())) x else y`. -/
def ifPeek {α : Type} (c : TokenClass → Bool) (x y : Parser α) : Parser α := do
  if c (← peekToken).klass then x else y

theorem ifToken_pos {α : Type} {c : TokenClass → Bool} {x y : Parser α} {s : State}
    (h : c s.token.klass = true) : ifToken c x y s = x s := if_pos h

theorem ifToken_neg {α : Type} {c : TokenClass → Bool} {x y : Parser α} {s : State}
    (h : c s.token.klass = false) :
      ifToken c x y s = y s := if_neg (by rw [h]; exact Bool.noConfusion)

def is (klass : TokenClass) : TokenClass → Bool := fun k => k == klass

/-- A condition without which the run ends. What stands inside of `if (c) { ... } else
error(what)` in the source stands behind `require c what` here. -/
def require (c : TokenClass → Bool) (what : String) : Parser Unit :=
  ifToken c (pure ()) (error what)

/-- A token without which the run ends. -/
def expect (klass : TokenClass) (what : String) : Parser Unit :=
  ifToken (is klass) nextToken (error what)

/-! ## Nodes and lists -/

/-- The macro `new_ast_node`, at the current token. -/
def newAstNode (kind : AstKind) : Parser Ast := fun s =>
  .ok (.node kind s.nodeId s.token.lineNr [], { s with nodeId := s.nodeId + 1 })

def astSetattr (ast : Ast) (attr : AttrName) (type : AstAttributeType) (value : Value Ast) :
    Parser Ast :=
  match ast with
  | .null => stop .fault
  | .node kind id lineNr attrs =>
    if attrs.length < astAttrtableCapacity ∨ attr ∈ attrs.map (·.name) then
      pure (.node kind id lineNr (setEntry ⟨attr, type, value⟩ attrs))
    else stop (.assertion "ast->attr_count < AST_ATTRTABLE_CAPACITY")

/-- `struct AstList`: the `next` of its sentinel until a link is there, the links and
the `link_count`. -/
structure AstList where
  sentinelNext : Nat := 0
  links : List Ast := []
  linkCount : Int := 0

/-- The `size` bytes from `i` on as a number, the low byte first. -/
def word (bytes : Nat → UInt8) (i : Nat) : Nat → Nat
  | 0 => 0
  | size + 1 => (bytes i).toNat + 256 * word bytes (i + 1) size

/-- `memset(p, 0, n)`. -/
def memset (n : Nat) (bytes : Nat → UInt8) : Nat → UInt8 := fun i => if i < n then 0 else bytes i

/-- `ast_list_init` on a `struct AstList` with these bytes: the sentinel's links are at 0
and 8, its node at 16, `head` at 24, `tail` at 32 and `link_count` at 40. -/
def astListInit (bytes : Nat → UInt8) : Parser AstList := do
  if word bytes 24 8 = 0 then
    if word bytes 32 8 = 0 then
      return { sentinelNext := word bytes 8 8, linkCount :=
        (BitVec.ofNat 32 (word bytes 40 4)).toInt }
    else stop (.assertion "list->tail == 0")
  else stop (.assertion "list->head == 0")

/-- A list whose memory is cleared with `sizeof(*list)`. -/
def newAstList : Parser AstList := astListInit fun _ => 0

theorem word_zero (i : Nat) : ∀ size, word (fun _ => 0) i size = 0
  | 0 => by rw [word]
  | size + 1 => by rw [word, word_zero (i + 1) size]; rfl

-- with variable bytes its value only grows
attribute [irreducible] word

theorem newAstList_eq : newAstList = pure {} := by
  unfold newAstList astListInit
  rw [word_zero, word_zero, word_zero, word_zero, if_pos rfl, if_pos rfl]
  rfl

/-- A new link, which the source clears, for a node. -/
def astListAppendLink (list : AstList) (ast : Ast) : Parser AstList :=
  if list.links = [] ∧ list.sentinelNext ≠ 0 then stop (.assertion "list->tail->next == 0")
  else pure { list with links := list.links ++ [ast], linkCount := list.linkCount + 1 }

/-- The pointer to a list as a value; no list is the null pointer. -/
def listValue : Option AstList → Value Ast
  | none => .nullList
  | some list => .list list.links list.linkCount

def newType (name : Cstr) (ast : Ast) : Parser Unit :=
  Prog.modify fun s => { s with scopes := s.scopes.newType name ast.id }

/-- `if (is_type) new_type(...)`. -/
def registerType (isType : Bool) (name : Cstr) (ast : Ast) : Parser Unit :=
  if isType then newType name ast else pure ()

/-- `if (c(token) || node) { ... } else error(what)`. -/
def requireOr (node : Ast) (c : TokenClass → Bool) (what : String) : Parser Unit :=
  match node with
  | .null => require c what
  | .node .. => pure ()

/-- `node` if it is given, else what `x` builds. -/
def givenOr (node : Ast) (x : Parser Ast) : Parser Ast :=
  match node with
  | .null => x
  | node => pure node

/-! ## Lists of nodes

The loops of the source run as long as they find a token of their kind; `fuel` bounds
their rounds in the model. -/

/-- `while (token->klass == Token_Comma) { next_token(); ... }`. -/
def commaLoop (item : Parser Ast) : Nat → AstList → Parser AstList
  | 0, _ => stop .outOfFuel
  | fuel + 1, list => ifToken (is .comma)
      (do
        nextToken
        commaLoop item fuel (← astListAppendLink list (← item)))
      (pure list)

/-- `while (c(token)) { ... }`. -/
def whileLoop (c : TokenClass → Bool) (item : Parser Ast) : Nat → AstList → Parser AstList
  | 0, _ => stop .outOfFuel
  | fuel + 1, list => ifToken c
      (do whileLoop c item fuel (← astListAppendLink list (← item)))
      (pure list)

/-- A first item and one more after each comma. -/
def commaList (item : Parser Ast) (fuel : Nat) : Parser (Option AstList) := do
  let list ← newAstList
  return some (← commaLoop item fuel (← astListAppendLink list (← item)))

/-- A first item and one more while the condition holds. -/
def whileList (c : TokenClass → Bool) (item : Parser Ast) (fuel : Nat) :
    Parser (Option AstList) := do
  let list ← newAstList
  return some (← whileLoop c item fuel (← astListAppendLink list (← item)))

/-- The functions that build_ast.c declares before it defines them, and the rounds its
loops may take. -/
structure Forward where
  fuel : Nat
  /-- `build_expression`, with the priority threshold. -/
  expression : Nat → Parser Ast
  /-- `build_typeRef`. -/
  typeRef : Parser Ast
  /-- `build_blockStatement`. -/
  blockStatement : Parser Ast
  /-- `build_statement`, with the name of a type that was read already. -/
  statement : Ast → Parser Ast
  /-- `build_parserStatement`. -/
  parserStatement : Parser Ast

/-! ## Classes of tokens -/

def tokenIsTypeName (k : TokenClass) : Bool := k == .typeIdentifier || k == .dotPrefix

def tokenIsPrefixedType (k : TokenClass) : Bool := k == .typeIdentifier || k == .dotPrefix

def tokenIsBaseType (k : TokenClass) : Bool :=
  k == .bool || k == .error || k == .int || k == .bit || k == .varbit || k == .string

def tokenIsTypeRef (k : TokenClass) : Bool :=
  tokenIsBaseType k || tokenIsPrefixedType k || k == .tuple

def tokenIsDirection (k : TokenClass) : Bool := k == .inKw || k == .out || k == .inOut

def tokenIsParameter (k : TokenClass) : Bool := tokenIsDirection k || tokenIsTypeRef k

def tokenIsDerivedTypeDeclaration (k : TokenClass) : Bool :=
  k == .header || k == .headerUnion || k == .struct || k == .enum

def tokenIsTypeDeclaration (k : TokenClass) : Bool :=
  tokenIsDerivedTypeDeclaration k || k == .typedef || k == .type || k == .parser || k == .control ||
    k == .package

def tokenIsNonTypeName (k : TokenClass) : Bool :=
  k == .identifier || k == .apply || k == .key || k == .actions || k == .state || k == .entries ||
    k == .type

def tokenIsName (k : TokenClass) : Bool := tokenIsNonTypeName k || k == .typeIdentifier

def tokenIsNonTableKwName (k : TokenClass) : Bool :=
  k == .identifier || k == .typeIdentifier || k == .apply || k == .state || k == .type

def tokenIsTypeArg (k : TokenClass) : Bool :=
  k == .dontcare || tokenIsTypeRef k || tokenIsNonTypeName k

def tokenIsTypeParameterList (k : TokenClass) : Bool := tokenIsName k

def tokenIsTypeOrVoid (k : TokenClass) : Bool :=
  tokenIsTypeRef k || k == .void || k == .identifier

def tokenIsActionRef (k : TokenClass) : Bool :=
  k == .dotPrefix || tokenIsNonTypeName k || k == .parenthOpen

def tokenIsTableProperty (k : TokenClass) : Bool :=
  k == .key || k == .actions || k == .const || k == .entries || tokenIsNonTableKwName k

def tokenIsSwitchLabel (k : TokenClass) : Bool := tokenIsName k || k == .default

def tokenIsExpressionPrimary (k : TokenClass) : Bool :=
  k == .integer || k == .true || k == .false || k == .stringLiteral || k == .dotPrefix ||
    tokenIsNonTypeName k || k == .braceOpen || k == .parenthOpen || k == .exclamation ||
    k == .tilda || k == .unaryMinus || tokenIsTypeName k || k == .error || tokenIsPrefixedType k

def tokenIsExpression (k : TokenClass) : Bool := tokenIsExpressionPrimary k

def tokenIsMethodPrototype (k : TokenClass) : Bool := tokenIsTypeOrVoid k || k == .typeIdentifier

def tokenIsStructField (k : TokenClass) : Bool := tokenIsTypeRef k

def tokenIsSpecifiedIdentifier (k : TokenClass) : Bool := tokenIsName k

def tokenIsDeclaration (k : TokenClass) : Bool :=
  k == .const || k == .externKw || k == .action || k == .parser || tokenIsTypeDeclaration k ||
    k == .control || tokenIsTypeRef k || k == .error || k == .matchKind || tokenIsTypeOrVoid k ||
    k == .dotPrefix

def tokenIsLvalue (k : TokenClass) : Bool := tokenIsNonTypeName k || k == .dotPrefix

def tokenIsAssignmentOrMethodCallStatement (k : TokenClass) : Bool :=
  tokenIsLvalue k || k == .parenthOpen || k == .angleOpen || k == .equal

def tokenIsStatement (k : TokenClass) : Bool :=
  tokenIsAssignmentOrMethodCallStatement k || tokenIsTypeName k || k == .ifKw || k == .semicolon ||
    k == .braceOpen || k == .exit || k == .returnKw || k == .switch

def tokenIsStatementOrDeclaration (k : TokenClass) : Bool :=
  tokenIsTypeRef k || k == .const || tokenIsStatement k

def tokenIsArgument (k : TokenClass) : Bool :=
  tokenIsExpression k || tokenIsName k || k == .dontcare

def tokenIsParserLocalElement (k : TokenClass) : Bool := k == .const || tokenIsTypeRef k

def tokenIsParserStatement (k : TokenClass) : Bool :=
  tokenIsAssignmentOrMethodCallStatement k || tokenIsTypeName k || k == .braceOpen || k == .const ||
    tokenIsTypeRef k || k == .semicolon

def tokenIsSimpleKeysetExpression (k : TokenClass) : Bool :=
  tokenIsExpression k || k == .default || k == .dontcare

def tokenIsKeysetExpression (k : TokenClass) : Bool :=
  k == .tuple || tokenIsSimpleKeysetExpression k

def tokenIsSelectCase (k : TokenClass) : Bool := tokenIsKeysetExpression k

def tokenIsControlLocalDeclaration (k : TokenClass) : Bool :=
  k == .const || k == .action || k == .table || tokenIsTypeRef k || tokenIsTypeRef k

def tokenIsRealTypeArg (k : TokenClass) : Bool := k == .dontcare || tokenIsTypeRef k

def tokenIsBinaryOperator (k : TokenClass) : Bool :=
  k == .star || k == .slash || k == .plus || k == .minus || k == .angleOpenEqual ||
    k == .angleCloseEqual || k == .angleOpen || k == .angleClose || k == .exclamationEqual ||
    k == .twoEqual || k == .twoPipe || k == .twoAmpersand || k == .pipe || k == .ampersand ||
    k == .circumflex || k == .twoAngleOpen || k == .twoAngleClose || k == .threeAmpersand ||
    k == .equal

def tokenIsExprOperator (k : TokenClass) : Bool :=
  tokenIsBinaryOperator k || k == .dotPrefix || k == .bracketOpen || k == .parenthOpen ||
    k == .angleOpen

end Dp4c.Parse
