import Mathlib.Tactic.Common

/-!
# The tokens of a selector

`broker/SelectorToken.{h,cpp}`. The iterator `tokenStart` of a token is not
used by the parser and is left out. Characters are classified as in the "C"
locale.
-/

namespace QB.Impl.Selector

inductive TokenType where
  | eos
  | null
  | true
  | false
  | not
  | and
  | or
  | in
  | is
  | between
  | like
  | escape
  | identifier
  | string
  | numericExact
  | numericApprox
  | lparen
  | rparen
  | comma
  | plus
  | minus
  | mult
  | div
  | equal
  | neq
  | less
  | grt
  | lseq
  | greq
deriving DecidableEq

structure Token where
  type : TokenType
  val : List Char
deriving DecidableEq

/-- `std::isspace(c)`. -/
def isSpace (c : Char) : Bool := c ∈ [' ', '\t', '\n', '\x0b', '\x0c', '\r']

def skipWS (s : List Char) : List Char := s.dropWhile isSpace

/-- The reserved words. -/
def reserved : List (List Char × TokenType) :=
  [("and".toList, .and), ("between".toList, .between), ("escape".toList, .escape),
    ("false".toList, .false), ("in".toList, .in), ("is".toList, .is), ("like".toList, .like),
    ("not".toList, .not), ("null".toList, .null), ("or".toList, .or), ("true".toList, .true)]

/-- `tokeniseReservedWord(tok)` of an identifier: the type that it has. The
search of the sorted table compares words without case. -/
def tokeniseReservedWord (val : List Char) : TokenType :=
  ((reserved.find? fun entry => entry.1 == val.map Char.toLower).map Prod.snd).getD .identifier

/-- `processString(s, e, tok)` after the first quote: the content, and what is
left. Two quotes are one quote of the content. -/
def processString : List Char → Option (List Char × List Char)
  | [] => none
  | c :: s =>
    if c = '\'' then
      match s with
      | [] => some ([], [])
      | d :: s' => if d = '\'' then (processString s').map fun r => ('\'' :: r.1, r.2) else some ([], d :: s')
    else (processString s).map fun r => (c :: r.1, r.2)

def isIdentifierStart (c : Char) : Bool := c.isAlpha || c = '_' || c = '$'

def isIdentifierPart (c : Char) : Bool := c.isAlphanum || c = '_' || c = '$' || c = '.'

/-- The states of `tokenise` in which it has taken a part of a token. -/
inductive State where
  | identifier
  | digit
  | decimalStart
  | decimal
  | exponentSign
  | exponentStart
  | exponent
deriving DecidableEq

namespace State

/-- The state after a character, if it is taken. -/
def step : State → Char → Option State
  | identifier, c => if isIdentifierPart c then some identifier else none
  | decimalStart, c => if c.isDigit then some decimal else none
  | exponentSign, c =>
    if c = '-' ∨ c = '+' then some exponentStart else if c.isDigit then some exponent else none
  | exponentStart, c => if c.isDigit then some exponent else none
  | digit, c =>
    if c.isDigit then some digit else if c = '.' then some decimal
    else if c = 'e' ∨ c = 'E' then some exponentSign else none
  | decimal, c => if c.isDigit then some decimal else if c = 'e' ∨ c = 'E' then some exponentSign else none
  | exponent, c => if c.isDigit then some exponent else none

/-- What is accepted where no further character is taken; none if it is rejected. -/
def accept : State → Option TokenType
  | identifier => some .identifier
  | digit => some .numericExact
  | decimal => some .numericApprox
  | exponent => some .numericApprox
  | decimalStart => none
  | exponentSign => none
  | exponentStart => none

end State

/-- The loop of `tokenise` in a state: the type, the characters taken and what
is left. -/
def scan : State → List Char → Option (TokenType × List Char × List Char)
  | state, [] => state.accept.map fun type => (type, [], [])
  | state, c :: t =>
    match state.step c with
    | some state' => (scan state' t).map fun r => (r.1, c :: r.2.1, r.2.2)
    | none => state.accept.map fun type => (type, [], c :: t)

/-- The token of a scan that starts with a character. -/
def scanned (c : Char) (state : State) (t : List Char) : Option (Token × List Char) :=
  (scan state t).map fun r =>
    let val := c :: r.2.1
    (⟨if r.1 = .identifier then tokeniseReservedWord val else r.1, val⟩, r.2.2)

/-- `tokenise(s, e, tok)` of a text that is not empty. -/
def tokenise : List Char → Option (Token × List Char)
  | [] => none
  | c :: t =>
    if c = '(' then some (⟨.lparen, [c]⟩, t)
    else if c = ')' then some (⟨.rparen, [c]⟩, t)
    else if c = ',' then some (⟨.comma, [c]⟩, t)
    else if c = '+' then some (⟨.plus, [c]⟩, t)
    else if c = '-' then some (⟨.minus, [c]⟩, t)
    else if c = '*' then some (⟨.mult, [c]⟩, t)
    else if c = '/' then some (⟨.div, [c]⟩, t)
    else if c = '=' then some (⟨.equal, [c]⟩, t)
    else if c = '<' then
      match t with
      | [] => some (⟨.less, [c]⟩, [])
      | d :: t' =>
        if d = '>' then some (⟨.neq, [c, d]⟩, t')
        else if d = '=' then some (⟨.lseq, [c, d]⟩, t')
        else some (⟨.less, [c]⟩, d :: t')
    else if c = '>' then
      match t with
      | [] => some (⟨.grt, [c]⟩, [])
      | d :: t' => if d = '=' then some (⟨.greq, [c, d]⟩, t') else some (⟨.grt, [c]⟩, d :: t')
    else if isIdentifierStart c then scanned c .identifier t
    else if c = '\'' then (processString t).map fun r => (⟨.string, r.1⟩, r.2)
    else if c.isDigit then scanned c .digit t
    else if c = '.' then scanned c .decimalStart t
    else none

def endOfStream : Token := ⟨.eos, "<END>".toList⟩

/-- The tokens that a `Tokeniser` gives one after the other, and whether the end
of the text is reached; where it is not, `nextToken` finds an illegal character. -/
def tokens : Nat → List Char → List Token × Bool
  | 0, _ => ([], Bool.false)
  | n + 1, s =>
    match skipWS s with
    | [] => ([], Bool.true)
    | c :: s' =>
      match tokenise (c :: s') with
      | none => ([], Bool.false)
      | some (tok, rest) => (tok :: (tokens n rest).1, (tokens n rest).2)

end QB.Impl.Selector
