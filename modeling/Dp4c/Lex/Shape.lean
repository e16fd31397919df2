import Dp4c.Lex.Machine

/-! # What the analyzer reads from where it stands

`shape r` is the token that `next_token` finds at the front of the rest `r` of
the text, a list without a NUL: its class and its length, and where the digits
of a number stand. It is a function of `r` alone; the machine is shown to
compute it. -/
namespace Dp4c.Lex

/-- Line breaks, the two-character ones paired from the left. -/
def breaks : List UInt8 → Nat
  | [] => 0
  | [c] => if isNewline c then 1 else 0
  | c :: c' :: r =>
    if isNewline c then if isPair c c' then breaks r + 1 else breaks (c' :: r) + 1
    else breaks (c' :: r)

/-- The length up to and with the first `*` followed by `/`. -/
def blockEnd : List UInt8 → Option Nat
  | [] => none
  | [_] => none
  | c :: c' :: r => if c = 42 ∧ c' = 47 then some 2 else (blockEnd (c' :: r)).map (· + 1)

/-- The length up to and with the first character of a kind. -/
def endAt (p : UInt8 → Bool) : List UInt8 → Option Nat
  | [] => none
  | c :: r => if p c then some 1 else (endAt p r).map (· + 1)

/-- A number: the digits of its width and the sign marker, its base, and where
its digits stand. -/
structure Number where
  width : Option (Nat × Bool)
  base : Base
  body : Nat
  bodyLen : Nat
deriving DecidableEq

inductive Shape where
  | endOfInput
  | unknown
  | plain (klass : TokenClass) (len : Nat)
  | minus
  | blockComment (len : Nat)
  | lineComment (len : Nat)
  | stringLiteral (len : Nat)
  | number (n : Number)
  | stuck
deriving DecidableEq

/-- A token that goes on up to an end that may be missing. -/
def Shape.upTo (make : Nat → Shape) : Option Nat → Shape
  | some n => make n
  | none => .stuck

/-- The base of a prefix `0x`, `0o`, `0b`. -/
def prefixOf (r : List UInt8) : Option Base :=
  if r.headD 0 = 48 then
    let c := r.getD 1 0
    if c = 120 ∨ c = 88 then some .sixteen
    else if c = 111 ∨ c = 79 then some .eight
    else if c = 98 ∨ c = 66 then some .two
    else none
  else none

/-- The body of a number at an offset: any character, then those of a kind. -/
def numberAt (r : List UInt8) (width : Option (Nat × Bool)) (base : Base) (body : Nat)
    (p : UInt8 → Bool) : Shape :=
  match r.drop body with
  | [] => .stuck
  | _ :: t => .number ⟨width, base, body, (t.takeWhile p).length + 1⟩

/-- The length of a run of digits from the first character on. -/
def decimalLen (r : List UInt8) : Nat := (r.tail.takeWhile (cstrIsDigit · .ten)).length + 1

/-- The number after the width marker `c`. -/
def widthShape (r : List UInt8) (n : Nat) (c : UInt8) : Shape :=
  let width := some (n, c == 115)
  match prefixOf (r.drop (n + 1)) with
  | some base => numberAt r width base (n + 3) (isDigitOrUnderscore base)
  | none => numberAt r width .ten (n + 1) (cstrIsDigit · .ten)

def numberShape (r : List UInt8) : Shape :=
  match prefixOf r with
  | some base => numberAt r none base 2 (isDigitOrUnderscore base)
  | none =>
    let n := decimalLen r
    let c := r.getD n 0
    if c = 119 ∨ c = 115 then widthShape r n c
    else .number ⟨none, .ten, 0, n⟩

def wordShape (r : List UInt8) : Shape :=
  .plain .identifier ((r.tail.takeWhile isWordChar).length + 1)

/-- A choice by the second character. -/
def secondShape (r : List UInt8) (c : UInt8) (klass : TokenClass) (rest : Shape) : Shape :=
  if r.getD 1 0 = c then .plain klass 2 else rest

def slashShape (r : List UInt8) : Shape :=
  if r.getD 1 0 = 42 then
    .upTo (fun n => .blockComment (n + 2)) (blockEnd (r.drop 2))
  else if r.getD 1 0 = 47 then
    .upTo (fun n => .lineComment (n + 1)) (endAt isNewline (r.drop 1))
  else .plain .slash 1

def ampersandShape (r : List UInt8) : Shape :=
  if r.getD 1 0 = 38 then
    if r.getD 2 0 = 38 then .plain .threeAmpersand 3 else .plain .twoAmpersand 2
  else .plain .ampersand 1

def stringShape (r : List UInt8) : Shape :=
  .upTo (fun n => .stringLiteral (n + 1)) (endAt (fun c => c == 34 || c == 92) r.tail)

/-- The token read from a state that state 1 leads to. -/
def shapeFrom (r : List UInt8) : LexState → Shape
  | .s2 => .endOfInput
  | .s100 => .plain .semicolon 1
  | .s101 => secondShape r 61 .angleOpenEqual
      (secondShape r 60 .twoAngleOpen (.plain .angleOpen 1))
  | .s102 => secondShape r 61 .angleCloseEqual
      (secondShape r 62 .twoAngleClose (.plain .angleClose 1))
  | .s103 => if isWordChar (r.getD 1 0) then wordShape r else .plain .dontcare 1
  | .s104 => .plain .colon 1
  | .s105 => .plain .parenthOpen 1
  | .s106 => .plain .parenthClose 1
  | .s107 => .plain .dotPrefix 1
  | .s108 => .plain .braceOpen 1
  | .s109 => .plain .braceClose 1
  | .s110 => .plain .bracketOpen 1
  | .s111 => .plain .bracketClose 1
  | .s112 => .plain .comma 1
  | .s113 => .minus
  | .s114 => .plain .plus 1
  | .s115 => .plain .star 1
  | .s116 => slashShape r
  | .s117 => secondShape r 61 .twoEqual (.plain .equal 1)
  | .s118 => secondShape r 61 .exclamationEqual (.plain .exclamation 1)
  | .s119 => ampersandShape r
  | .s120 => secondShape r 124 .twoPipe (.plain .pipe 1)
  | .s121 => .plain .circumflex 1
  | .s122 => .plain .tilda 1
  | .s200 => stringShape r
  | .s400 => numberShape r
  | .s500 => wordShape r
  | _ => .unknown

/-- The token at the front of a rest that starts with no blank. -/
def shape (r : List UInt8) : Shape := shapeFrom r (dispatch (r.headD 0))

namespace Shape

/-- The characters a token takes. -/
def len : Shape → Nat
  | .endOfInput => 0
  | .unknown => 1
  | .plain _ len => len
  | .minus => 1
  | .blockComment len => len
  | .lineComment len => len
  | .stringLiteral len => len
  | .number n => n.body + n.bodyLen
  | .stuck => 0

/-- The class of a token after one of class `prev`. -/
def klass (prev : TokenClass) : Shape → TokenClass
  | .endOfInput => .endOfInput
  | .unknown => .unknown
  | .plain klass _ => klass
  | .minus => if prev = .parenthOpen then .unaryMinus else .minus
  | .blockComment _ => .comment
  | .lineComment _ => .comment
  | .stringLiteral _ => .stringLiteral
  | .number _ => .integer
  | .stuck => .none

/-- The line breaks the machine counts while it reads the token. -/
def lines (r : List UInt8) : Shape → Nat
  | .blockComment len => breaks (r.take len)
  | .lineComment _ => 1
  | _ => 0

end Shape

/-! ## Lexemes -/

/-- What `lexeme_copy` writes for the characters of a lexeme, `next` being the
one after it. -/
def decode (next : UInt8) : List UInt8 → List UInt8
  | [] => []
  | [c] => if c = 92 then [escapeChar next] else [c]
  | c :: c' :: l => if c = 92 then escapeChar c' :: decode next l else c :: decode next (c' :: l)

/-- The string made of a lexeme, over memory that held anything. -/
def Spelled (memory : Nat → Nat → UInt8) (next : UInt8) (l : List UInt8) (string : Cstr) : Prop :=
  ∃ junk, (decode next l).length + junk.length = l.length ∧
    (∀ b ∈ junk, ∃ k i, b = memory k i) ∧ string = cstrOf (decode next l ++ junk)

/-- The value of the digits that `parse_integer` reads. -/
def digitValue (c : UInt8) : Int :=
  if 97 ≤ c then (c.toNat : Int) - 87 else if 65 ≤ c then (c.toNat : Int) - 55
  else (c.toNat : Int) - 48

/-- What `parse_integer` makes of the digits after `result`. -/
def digitsFrom (base : Base) : List UInt8 → Int → Option Int
  | [], result => some result
  | c :: str, result =>
    if cstrIsDigit c base then
      digitsFrom base str (int32 (int32 (result * base.val) + digitValue c))
    else if c = 95 then digitsFrom base str result
    else none

/-- `parse_integer` on a string that starts like a number. -/
def integerOf (base : Base) : List UInt8 → Option Int
  | [] => none
  | c :: str => digitsFrom base str (if c ≠ 95 then digitValue c else 0)

end Dp4c.Lex
