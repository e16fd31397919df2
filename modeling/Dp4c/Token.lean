import Dp4c.Cstr

/-! # Tokens (token.h)

The classes of `enum TokenClass` in the source's order. Five of its words are
reserved in Lean and end in `Kw` here. -/
namespace Dp4c

inductive TokenClass where
  | none | semicolon | identifier | typeIdentifier | string | integer | parenthOpen | parenthClose
  | angleOpen | angleClose | braceOpen | braceClose | bracketOpen | bracketClose | dontcare | colon
  | dotPrefix | comma | minus | unaryMinus | plus | star | slash | equal | twoEqual
  | exclamationEqual | exclamation | twoPipe | angleOpenEqual | angleCloseEqual | tilda | ampersand
  | twoAmpersand | threeAmpersand | pipe | circumflex | twoAngleOpen | twoAngleClose | comment
  | action | actions | enum | inKw | package | select | switch | tuple | void | apply | control
  | error | header | inOut | parser | state | table | entries | key | typedef | type | bool | true
  | false | default | externKw | headerUnion | int | bit | varbit | out | stringLiteral
  | transition | elseKw | exit | ifKw | matchKind | returnKw | struct | const
  | unknown | startOfInput | endOfInput | lexicalError
deriving DecidableEq, Repr

/-- The bits of `enum AstIntegerFlags`: `HasWidth` is 1, `IsSigned` is 2. -/
structure AstIntegerFlags where
  hasWidth : Bool := false
  isSigned : Bool := false
deriving DecidableEq, Repr

/-- The `i` member of `struct Token`. `width` is an `int`, `value` an `int64_t`. -/
structure IntegerPayload where
  flags : AstIntegerFlags := {}
  width : Int := 0
  value : Int := 0
deriving DecidableEq, Repr

/-- `struct Token`. The source positions `start` up to and without `stop` that
the token was read from are no field of the source. -/
structure Token where
  klass : TokenClass := .none
  lexeme : Cstr := ⟨[], Cstr.noNul_nil⟩
  lineNr : Nat := 0
  i : IntegerPayload := {}
  start : Nat := 0
  stop : Nat := 0
deriving DecidableEq

/-- The tokens that are no comments. -/
def spoken (tokens : List Token) : List Token := tokens.filter (·.klass ≠ .comment)

end Dp4c
