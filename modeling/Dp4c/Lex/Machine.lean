import Dp4c.Token
import Mathlib.Data.List.TakeWhile

/-! # The lexical analyzer (lex.c)

Positions in the text are numbers. The text is the buffer `read_source` makes:
`textSize` bytes and a NUL. Memory that `arena_push` hands out on
`lexeme_storage` has contents of its own: `memory k i` is byte `i` of what the
`k`-th of these calls returns. Allocations succeed.

An `int` that overflows wraps around. -/
namespace Dp4c.Lex

open Dp4c.Lib

/-- `struct Lexeme`: a first and a last position. -/
structure Lexeme where
  start : Nat := 0
  last : Nat := 0
deriving DecidableEq

/-- The file-scope variables. `lexeme` is `lexeme[0]`, `digits` is `lexeme[1]`,
`pushes` counts the calls of `arena_push`. -/
structure State where
  text : List UInt8
  textSize : Nat
  lexeme : Lexeme := {}
  digits : Lexeme := {}
  lineNr : Nat := 1
  tokens : List Token := []
  memory : Nat → Nat → UInt8
  pushes : Nat := 0

abbrev LexM := Prog Exit State

/-- The values of the variable `state`. -/
inductive LexState where
  | s0 | s1 | s2 | s3 | s4
  | s100 | s101 | s102 | s103 | s104 | s105 | s106 | s107 | s108 | s109 | s110 | s111 | s112
  | s113 | s114 | s115 | s116 | s117 | s118 | s119 | s120 | s121 | s122
  | s200 | s201 | s310 | s311
  | s400 | s401 | s402 | s403 | s404 | s405 | s406 | s407 | s408 | s409 | s500
deriving DecidableEq, Repr

/-! ## Characters of the text -/

/-- A read of the text buffer. -/
def charAt (pos : Nat) : LexM UInt8 := fun s =>
  match s.text[pos]? with
  | some c => .ok (c, s)
  | none => .error .fault

/-- The assertion of `char_lookahead` and `char_advance`. -/
def checkPos (charPos : Nat) : LexM Unit := do
  let textSize ← Prog.reads (·.textSize)
  Prog.check (charPos ≤ textSize) (.assertion "char_pos >= 0 && char_pos <= (text + text_size)")

def charLookahead (pos : Nat) : LexM UInt8 := do
  let charPos := (← Prog.reads (·.lexeme.last)) + pos
  checkPos charPos
  charAt charPos

/-- Moves the last position of the lexeme. -/
def setLast (last : Nat) : LexM Unit :=
  Prog.modify fun s => { s with lexeme := { s.lexeme with last := last } }

def charAdvance (pos : Nat) : LexM UInt8 := do
  let charPos := (← Prog.reads (·.lexeme.last)) + pos
  checkPos charPos
  setLast charPos
  charAt charPos

def charRetract : LexM Unit := do
  let last ← Prog.reads (·.lexeme.last)
  setLast (last - 1)

def lexemeAdvance : LexM Unit := do
  let next := (← Prog.reads (·.lexeme.last)) + 1
  Prog.modify fun s => { s with lexeme := ⟨next, next⟩ }
  let textSize ← Prog.reads (·.textSize)
  Prog.check (next ≤ textSize) (.assertion "lexeme->start <= (text + text_size)")

/-! ## Lexemes -/

/-- The character an escape stands for, given the one after the backslash. -/
def escapeChar (c : UInt8) : UInt8 :=
  if c = 110 then 10 else if c = 114 then 13 else if c = 116 then 9 else c

/-- The loop of `lexeme_copy`: what it writes from `src` on. -/
def copyFrom (last : Nat) : Nat → Nat → LexM (List UInt8)
  | 0, _ => Prog.exit .outOfFuel
  | fuel + 1, src => do
    let c ← charAt src
    let (written, src) ← if c = 92 then do pure (escapeChar (← charAt (src + 1)), src + 2)
      else pure (c, src + 1)
    if src ≤ last then do pure (written :: (← copyFrom last fuel src))
    else pure [written]

def lexemeCopy (lexeme : Lexeme) : LexM (List UInt8) := do
  copyFrom lexeme.last (← Prog.reads (·.textSize + 1)) lexeme.start

def lexemeLen (lexeme : Lexeme) : Nat := lexeme.last + 1 - lexeme.start

/-- The bytes of a buffer before its first NUL. -/
def cstrOf (buffer : List UInt8) : Cstr :=
  ⟨buffer.takeWhile (· ≠ 0), fun h => by simpa using List.mem_takeWhile_imp h⟩

/-- `arena_push` on `lexeme_storage`: the memory as it finds it. -/
def pushLexeme (size : Nat) : LexM (List UInt8) := fun s =>
  .ok ((List.range size).map (s.memory s.pushes), { s with pushes := s.pushes + 1 })

/-- `lexeme_to_cstring`. The bytes between the copy and `string[len]` keep
what the memory held. -/
def lexemeToCstring (lexeme : Lexeme) : LexM Cstr := do
  let len := lexemeLen lexeme
  let string ← pushLexeme (len + 1)
  let copied ← lexemeCopy lexeme
  Prog.check (copied.length ≤ len) .fault
  pure (cstrOf (copied ++ (string.take len).drop copied.length))

/-! ## Integers -/

/-- The value of an `int` after a computation. -/
def int32 (n : Int) : Int := n.bmod (2 ^ 32)

def digitToInteger (c : UInt8) (base : Base) : LexM Int :=
  match base with
  | .ten | .eight | .two => pure ((c.toNat : Int) - 48)
  | .sixteen =>
    if 48 ≤ c && c ≤ 57 then pure ((c.toNat : Int) - 48)
    else if 97 ≤ c && c ≤ 102 then pure (10 + ((c.toNat : Int) - 97))
    else if 65 ≤ c && c ≤ 70 then pure (10 + ((c.toNat : Int) - 65))
    else Prog.exit (.assertion "0")

/-- The loop of `parse_integer`. -/
def parseDigits (base : Base) : List UInt8 → Int → LexM Int
  | [], result => pure result
  | c :: str, result =>
    if cstrIsDigit c base then do
      let digit ← digitToInteger c base
      parseDigits base str (int32 (int32 (result * base.val) + digit))
    else if c = 95 then parseDigits base str result
    else Prog.exit (.assertion "0")

def parseInteger (str : Cstr) (base : Base) : LexM Int :=
  match str.bytes with
  | [] => Prog.exit (.assertion "cstr_is_digit(c, base) || c == '_'")
  | c :: str => do
    Prog.check (cstrIsDigit c base ∨ c = 95) (.assertion "cstr_is_digit(c, base) || c == '_'")
    let result ← if c ≠ 95 then digitToInteger c base else pure 0
    parseDigits base str result

def digitsExpected : Base → String
  | .ten => "at line %d: expected one or more digits, got '%s'."
  | .sixteen => "at line %d: expected one or more hexadecimal digits, got '%s'."
  | .eight => "at line %d: expected one or more octal digits, got '%s'."
  | .two => "at line %d: expected one or more binary digits, got '%s'."

/-- `cstr_is_digit(*string, base) || *string == '_'`. -/
def startsNumber (string : Cstr) (base : Base) : Bool :=
  match string.bytes with
  | [] => false
  | c :: _ => cstrIsDigit c base || c == 95

/-- `token_install_integer`. -/
def tokenInstallInteger (token : Token) (lexeme : Lexeme) (base : Base) : LexM Token := do
  let string ← lexemeToCstring lexeme
  if startsNumber string base then do
    let value ← parseInteger string base
    pure { token with i := { token.i with value := value } }
  else Prog.exit (.error (digitsExpected base) token.lineNr string.bytes)

/-! ## The loops inside a state -/

/-- `do { c = char_advance(1); } while (p(c))`; the last `c`. -/
def advanceWhile (p : UInt8 → Bool) : Nat → LexM UInt8
  | 0 => Prog.exit .outOfFuel
  | fuel + 1 => do
    let c ← charAdvance 1
    if p c then advanceWhile p fuel else pure c

/-- The bound of the loops: each round reads a further character. -/
def textFuel : LexM Nat := Prog.reads (·.textSize + 2)

def isNewline (c : UInt8) : Bool := c == 10 || c == 13

def isBlank (c : UInt8) : Bool := c == 32 || c == 9 || c == 10 || c == 13

/-- `c + cc == '\n' + '\r'`. -/
def isPair (c cc : UInt8) : Bool := c.toNat + cc.toNat == 23

def countLine : LexM Unit := Prog.modify fun s => { s with lineNr := s.lineNr + 1 }

/-- The body of the loop of state 200: the next value of `state`, and whether
the loop ends. -/
def stringChar (c : UInt8) (state : LexState) : LexState × Bool :=
  if c = 92 then (.s201, true)
  else if isNewline c then (.s4, false)
  else (state, c == 34)

def stringLoop : Nat → LexState → LexM LexState
  | 0, _ => Prog.exit .outOfFuel
  | fuel + 1, state => do
    let c ← charAdvance 1
    let (state, done) := stringChar c state
    if done then pure state else stringLoop fuel state

/-- A line break inside a block comment; the last `c`. -/
def commentBreak (c : UInt8) : LexM UInt8 :=
  if isNewline c then do
    let cc ← charLookahead 1
    let c ← if isPair c cc then charAdvance 1 else pure c
    countLine
    pure c
  else pure c

/-- The loop of state 310. -/
def commentLoop : Nat → LexM Unit
  | 0 => Prog.exit .outOfFuel
  | fuel + 1 => do
    let c ← commentBreak (← charAdvance 1)
    if c ≠ 42 then commentLoop fuel else pure ()

/-! ## The states -/

/-- The blanks of state 1. -/
def skipBlank (c : UInt8) : LexM Unit := do
  lexemeAdvance
  if isNewline c then do
    let cc ← charLookahead 0
    if isPair c cc then lexemeAdvance else pure ()
    countLine
  else pure ()

/-- The tests of state 1 on a character that is no blank. -/
def dispatch (c : UInt8) : LexState :=
  if c = 59 then .s100 else if c = 60 then .s101 else if c = 62 then .s102
  else if c = 95 then .s103 else if c = 58 then .s104 else if c = 40 then .s105
  else if c = 41 then .s106 else if c = 46 then .s107 else if c = 123 then .s108
  else if c = 125 then .s109 else if c = 91 then .s110 else if c = 93 then .s111
  else if c = 44 then .s112 else if c = 45 then .s113 else if c = 43 then .s114
  else if c = 42 then .s115 else if c = 47 then .s116 else if c = 61 then .s117
  else if c = 33 then .s118 else if c = 38 then .s119 else if c = 124 then .s120
  else if c = 94 then .s121 else if c = 126 then .s122 else if c = 34 then .s200
  else if cstrIsDigit c .ten then .s400 else if cstrIsLetter c then .s500
  else if c = 0 then .s2 else .s3

/-- `token->lexeme = lexeme_to_cstring(lexeme); lexeme_advance(); state = 0;` -/
def finish (token : Token) : LexM (LexState × Token) := do
  let lexeme ← Prog.reads (·.lexeme)
  let string ← lexemeToCstring lexeme
  lexemeAdvance
  pure (.s0, { token with lexeme := string, start := lexeme.start, stop := lexeme.last + 1 })

/-- A token of a class, from a text that is no source text. -/
def finishAs (token : Token) (klass : TokenClass) (string : Cstr) : LexM (LexState × Token) := do
  let lexeme ← Prog.reads (·.lexeme)
  pure (.s0, { token with klass := klass, lexeme := string, start := lexeme.start,
                          stop := lexeme.start })

/-- The states of the one-character tokens. -/
def single (token : Token) (klass : TokenClass) : LexM (LexState × Token) :=
  finish { token with klass := klass }

/-- `if (char_lookahead(1) == second) { char_advance(1); klass } else rest`. -/
def orSecond (second : UInt8) (klass : TokenClass) (rest : LexM TokenClass) : LexM TokenClass := do
  let c ← charLookahead 1
  if c = second then do
    let _ ← charAdvance 1
    pure klass
  else rest

/-- State 119 after the first two `&`. -/
def ampersands : LexM TokenClass := do
  let c ← charLookahead 1
  if c = 38 then do
    let _ ← charAdvance 1
    orSecond 38 .threeAmpersand (pure .twoAmpersand)
  else pure .ampersand

def isWordChar (c : UInt8) : Bool := cstrIsLetter c || cstrIsDigit c .ten || c == 95

def isDigitOrUnderscore (base : Base) (c : UInt8) : Bool := cstrIsDigit c base || c == 95

/-- The number after its prefix: states 402 to 404 and 406 to 409. The lexeme
of the digits starts at whatever character stands there. -/
def numberBody (token : Token) (base : Base) (p : UInt8 → Bool) : LexM (LexState × Token) := do
  Prog.modify fun s => { s with digits := ⟨s.lexeme.last, s.lexeme.last⟩ }
  let _ ← advanceWhile p (← textFuel)
  charRetract
  Prog.modify fun s => { s with digits := { s.digits with last := s.lexeme.last } }
  let token ← tokenInstallInteger token (← Prog.reads (·.digits)) base
  finish token

/-- States 402 to 404. -/
def prefixedNumber (token : Token) (base : Base) : LexM (LexState × Token) := do
  let flags := { token.i.flags with isSigned := true }
  numberBody { token with klass := .integer, i := { token.i with flags := flags } } base
    (isDigitOrUnderscore base)

/-- States 400 and 405: the prefix of a number, and the states it leads to. -/
def numberPrefix (c : UInt8) (hex oct bin dec : LexState) : LexM LexState :=
  if c = 48 then do
    let c ← charLookahead 1
    if c = 120 ∨ c = 88 then do
      let _ ← charAdvance 2
      pure hex
    else if c = 111 ∨ c = 79 then do
      let _ ← charAdvance 2
      pure oct
    else if c = 98 ∨ c = 66 then do
      let _ ← charAdvance 2
      pure bin
    else pure dec
  else pure dec

/-- State 401 after its digits, at the width marker `c`. -/
def widthMarker (token : Token) (c : UInt8) : LexM (LexState × Token) := do
  let flags : AstIntegerFlags := ⟨true, if c = 115 then true else token.i.flags.isSigned⟩
  Prog.modify fun s => { s with digits := { s.digits with last := s.lexeme.last - 1 } }
  let string ← lexemeToCstring (← Prog.reads (·.digits))
  let width ← parseInteger string .ten
  let _ ← charAdvance 1
  let i := { token.i with flags := flags, width := width }
  pure (.s405, { token with klass := .integer, i := i })

/-- State 401 after its digits, at no width marker. -/
def decimal (token : Token) : LexM (LexState × Token) := do
  charRetract
  Prog.modify fun s => { s with digits := { s.digits with last := s.lexeme.last } }
  let flags := { token.i.flags with isSigned := true }
  let token := { token with klass := .integer, i := { token.i with flags := flags } }
  let token ← tokenInstallInteger token (← Prog.reads (·.digits)) .ten
  finish token

/-- One round of the loop of `next_token`. -/
def step (state : LexState) (token : Token) : LexM (LexState × Token) := do
  let c ← charLookahead 0
  match state with
  | .s0 => Prog.exit (.assertion "0")
  | .s1 =>
    if isBlank c then do
      skipBlank c
      pure (.s1, token)
    else pure (dispatch c, token)
  | .s2 => finishAs token .endOfInput (Cstr.ofString "<end-of-input>")
  | .s3 => do
    let r ← finishAs token .unknown (Cstr.ofString "<unknown>")
    lexemeAdvance
    pure r
  | .s4 => do
    let r ← finishAs token .lexicalError (Cstr.ofString "<error>")
    lexemeAdvance
    pure r
  | .s100 => single token .semicolon
  | .s101 => do
    single token (← orSecond 61 .angleOpenEqual (orSecond 60 .twoAngleOpen (pure .angleOpen)))
  | .s102 => do
    single token (← orSecond 61 .angleCloseEqual (orSecond 62 .twoAngleClose (pure .angleClose)))
  | .s103 => do
    let cc ← charLookahead 1
    if isWordChar cc then pure (.s500, token) else single token .dontcare
  | .s104 => single token .colon
  | .s105 => single token .parenthOpen
  | .s106 => single token .parenthClose
  | .s107 => single token .dotPrefix
  | .s108 => single token .braceOpen
  | .s109 => single token .braceClose
  | .s110 => single token .bracketOpen
  | .s111 => single token .bracketClose
  | .s112 => single token .comma
  | .s113 => do
    let prevToken ← Prog.lift (.assertion "i >= 0 && i < array->elem_count")
      (← Prog.reads (·.tokens.getLast?))
    single token (if prevToken.klass = .parenthOpen then .unaryMinus else .minus)
  | .s114 => single token .plus
  | .s115 => single token .star
  | .s116 => do
    if (← charLookahead 1) = 42 then do
      let _ ← charAdvance 1
      pure (.s310, token)
    else if (← charLookahead 1) = 47 then pure (.s311, token)
    else single token .slash
  | .s117 => do single token (← orSecond 61 .twoEqual (pure .equal))
  | .s118 => do single token (← orSecond 61 .exclamationEqual (pure .exclamation))
  | .s119 => do single token (← ampersands)
  | .s120 => do single token (← orSecond 124 .twoPipe (pure .pipe))
  | .s121 => single token .circumflex
  | .s122 => single token .tilda
  | .s200 => do
    -- the states 4 and 201 that the loop sets are overwritten
    let _ ← stringLoop (← textFuel) .s200
    single token .stringLiteral
  | .s201 => do
    let c ← charAdvance 1
    if isNewline c then do
      countLine
      pure (.s200, token)
    else if c = 92 ∨ c = 34 ∨ c = 110 ∨ c = 114 then pure (.s200, token)
    else pure (.s4, token)
  | .s310 => do
    commentLoop (← textFuel)
    if (← charLookahead 1) = 47 then do
      let _ ← charAdvance 1
      single token .comment
    else pure (.s310, token)
  | .s311 => do
    let _ ← advanceWhile (fun c => !isNewline c) (← textFuel)
    countLine
    single token .comment
  | .s400 => do
    pure (← numberPrefix c .s402 .s403 .s404 .s401, token)
  | .s401 => do
    Prog.modify fun s => { s with digits := ⟨s.lexeme.last, s.lexeme.last⟩ }
    let c ← advanceWhile (cstrIsDigit · .ten) (← textFuel)
    if c = 119 ∨ c = 115 then widthMarker token c else decimal token
  | .s402 => prefixedNumber token .sixteen
  | .s403 => prefixedNumber token .eight
  | .s404 => prefixedNumber token .two
  | .s405 => do
    pure (← numberPrefix c .s406 .s407 .s408 .s409, token)
  | .s406 => numberBody token .sixteen (isDigitOrUnderscore .sixteen)
  | .s407 => numberBody token .eight (isDigitOrUnderscore .eight)
  | .s408 => numberBody token .two (isDigitOrUnderscore .two)
  | .s409 => numberBody token .ten (cstrIsDigit · .ten)
  | .s500 => do
    let _ ← advanceWhile isWordChar (← textFuel)
    charRetract
    single token .identifier

/-- The loop of `next_token`. -/
def stateLoop : Nat → LexState → Token → LexM Token
  | _, .s0, token => do pure { token with lineNr := ← Prog.reads (·.lineNr) }
  | 0, _, _ => Prog.exit .outOfFuel
  | fuel + 1, state, token => do
    let (state, token) ← step state token
    stateLoop fuel state token

/-- `next_token`. Every round after a few reads a further character. -/
def nextToken : LexM Token := do
  stateLoop (← Prog.reads (·.textSize + 8)) .s1 {}

def appendToken (token : Token) : LexM Unit :=
  Prog.modify fun s => { s with tokens := s.tokens ++ [token] }

/-- The loop of `lex_tokenize`. -/
def tokenizeLoop : Nat → Token → LexM Unit
  | 0, _ => Prog.exit .outOfFuel
  | fuel + 1, token =>
    if token.klass = .endOfInput then pure ()
    else if token.klass = .unknown then
      Prog.exit (.error "at line %d: unknown token." token.lineNr [])
    else if token.klass = .lexicalError then
      Prog.exit (.error "at line %d: lexical error." token.lineNr [])
    else do
      let token ← nextToken
      appendToken token
      tokenizeLoop fuel token

/-- `lex_tokenize` on the initial state of the file's variables. -/
def lexTokenize : LexM Unit := do
  Prog.modify fun s => { s with lexeme := {}, tokens := [{ klass := .startOfInput }] }
  let token ← nextToken
  appendToken token
  tokenizeLoop (← textFuel) token

/-- The state `lex_tokenize` is called in: the text as `read_source` leaves it. -/
def initial (text : List UInt8) (memory : Nat → Nat → UInt8) : State :=
  { text := text ++ [0], textSize := text.length, memory := memory }

/-- The tokens of a text, or how the run ends. -/
def tokenize (text : List UInt8) (memory : Nat → Nat → UInt8) : Except Exit (List Token) :=
  (lexTokenize (initial text memory)).map (·.2.tokens)

end Dp4c.Lex
