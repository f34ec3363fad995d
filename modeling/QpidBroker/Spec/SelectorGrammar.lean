import QpidBroker.Impl.SelectorParse

/-!
# The grammar of selectors

The syntax that the comment at the head of `broker/SelectorExpression.cpp`
documents: how a token is written (`Lexeme`), how a text is made of tokens
(`Spelled`), and which tokens derive which expression (`Derives`).

A binary operator takes its operands from the left, and a unary sign applies to
a unary expression.
-/

namespace QB.Spec.Selector

open QB.Impl.Selector

/-! ## Tokens -/

def Digits (w : List Char) : Prop := w ≠ [] ∧ ∀ c ∈ w, c.isDigit

/-- `IdentifierInitial IdentifierPart*`. -/
def Identifier (w : List Char) : Prop :=
  ∃ c v, w = c :: v ∧ isIdentifierStart c ∧ ∀ d ∈ v, isIdentifierPart d

/-- `"E" Exponent`, where `Exponent ::= ['+'|'-'] LiteralExactNumeric`. -/
inductive Exponent : List Char → Prop where
  | mk {e : Char} {sign w : List Char} (he : e = 'e' ∨ e = 'E')
      (hsign : sign = [] ∨ sign = ['+'] ∨ sign = ['-']) (hw : Digits w) : Exponent (e :: (sign ++ w))

/-- `LiteralApproxNumeric`. -/
inductive ApproxNumeric : List Char → Prop where
  | point {w v x : List Char} (hw : Digits w) (hv : ∀ c ∈ v, c.isDigit) (hx : x = [] ∨ Exponent x) :
      ApproxNumeric (w ++ '.' :: (v ++ x))
  | fraction {v x : List Char} (hv : Digits v) (hx : x = [] ∨ Exponent x) : ApproxNumeric ('.' :: (v ++ x))
  | whole {w x : List Char} (hw : Digits w) (hx : Exponent x) : ApproxNumeric (w ++ x)

/-- `LiteralString ::= ("'" ~[']* "'")+`, and its content. -/
inductive LiteralString : List Char → List Char → Prop where
  | one {w : List Char} (hw : ∀ c ∈ w, c ≠ '\'') : LiteralString w ('\'' :: (w ++ ['\'']))
  | more {w v x : List Char} (hw : ∀ c ∈ w, c ≠ '\'') (hx : LiteralString v x) :
      LiteralString (w ++ '\'' :: v) ('\'' :: (w ++ '\'' :: x))

def symbols : List Token :=
  [⟨.lparen, ['(']⟩, ⟨.rparen, [')']⟩, ⟨.comma, [',']⟩, ⟨.plus, ['+']⟩,
    ⟨.minus, ['-']⟩, ⟨.mult, ['*']⟩,
    ⟨.div, ['/']⟩, ⟨.equal, ['=']⟩, ⟨.neq, ['<', '>']⟩, ⟨.less, ['<']⟩, ⟨.lseq, ['<', '=']⟩,
    ⟨.grt, ['>']⟩, ⟨.greq, ['>', '=']⟩]

/-- How a token is written. -/
inductive Lexeme : Token → List Char → Prop where
  | symbol {t : Token} (ht : t ∈ symbols) : Lexeme t t.val
  | word {type : TokenType} {w : List Char} (hw : (w.map Char.toLower, type) ∈ reserved) : Lexeme ⟨type, w⟩ w
  | identifier {w : List Char} (hw : Identifier w) (hres : ∀ type, (w.map Char.toLower, type) ∉ reserved) :
      Lexeme ⟨.identifier, w⟩ w
  | string {v w : List Char} (hw : LiteralString v w) : Lexeme ⟨.string, v⟩ w
  | exact {w : List Char} (hw : Digits w) : Lexeme ⟨.numericExact, w⟩ w
  | approx {w : List Char} (hw : ApproxNumeric w) : Lexeme ⟨.numericApprox, w⟩ w

/-- The characters with which a token would go on. -/
def continues (t : Token) (c : Char) : Bool :=
  match t.type with
  | .less => c = '>' || c = '='
  | .grt => c = '='
  | .string => c = '\''
  | .numericExact => c.isDigit || c = '.' || c = 'e' || c = 'E'
  | .numericApprox => c.isDigit || ((c = 'e' || c = 'E') && !(t.val.contains 'e' || t.val.contains 'E'))
  | .lparen | .rparen | .comma | .plus | .minus | .mult | .div | .equal | .neq | .lseq | .greq => false
  | _ => isIdentifierPart c

/-- A token ends before a text. -/
def Ends (t : Token) (rest : List Char) : Prop := ∀ c s, rest = c :: s → continues t c = false

/-- A text that starts with the tokens. -/
inductive Begins : List Token → List Char → Prop where
  | nil {s : List Char} : Begins [] s
  | cons {t : Token} {ts : List Token} {w x s : List Char} (hw : ∀ c ∈ w, isSpace c) (ht : Lexeme t x)
      (hend : Ends t s) (hts : Begins ts s) : Begins (t :: ts) (w ++ (x ++ s))

/-- A text that is made of the tokens, with space between them. -/
inductive Spelled : List Token → List Char → Prop where
  | nil {s : List Char} (hs : ∀ c ∈ s, isSpace c) : Spelled [] s
  | cons {t : Token} {ts : List Token} {w x s : List Char} (hw : ∀ c ∈ w, isSpace c) (ht : Lexeme t x)
      (hend : Ends t s) (hts : Spelled ts s) : Spelled (t :: ts) (w ++ (x ++ s))

/-! ## Expressions -/

/-- The nonterminals, and the list of `IN`. -/
inductive Level where
  | or
  | and
  | comparison
  | add
  | multiply
  | unary
  | list
deriving DecidableEq

variable {D : Type} [Machine D]

/-- What a nonterminal stands for. -/
@[reducible] def Level.Syntax (D : Type) : Level → Type
  | .list => List (Expression D)
  | _ => Expression D

/-- `[ "NOT" ]` before a comparison. -/
inductive Negation : List Token → (Expression D → Expression D) → Prop where
  | none : Negation [] id
  | not {t : Token} (ht : t.type = .not) : Negation [t] (.unaryBoolean .not)

/-- Variants of the grammar: whether it has a unary `+` and numerals of any
size, and whether the string after `ESCAPE` has any length. -/
structure Grammar where
  full : Bool
  longEscape : Bool

namespace Grammar

/-- The grammar as it is documented. -/
def documented : Grammar := ⟨true, true⟩

/-- The documented grammar, with at most one character after `ESCAPE`. -/
def singleEscape : Grammar := ⟨true, false⟩

/-- As well without the unary `+`, and with numerals that have a value. -/
def plain : Grammar := ⟨false, false⟩

end Grammar

/-- `[ "ESCAPE" LiteralString ]`. -/
inductive Escape (g : Grammar) : List Token → List Char → Prop where
  | none : Escape g [] []
  | escape {t e : Token} (ht : t.type = .escape) (he : e.type = .string)
      (hlen : g.longEscape = true ∨ e.val.length ≤ 1) : Escape g [t, e] e.val

/-- A numeral that has no value of its type. -/
def Unrepresentable (D : Type) [Machine D] (t : Token) : Prop :=
  t.type = .numericExact ∧ Machine.lexicalCastInt64 D t.val = none ∨
    t.type = .numericApprox ∧ (Machine.lexicalCast t.val : Option D) = none

/-- The tokens derive the expression. -/
inductive Derives (g : Grammar) : (l : Level) → List Token → l.Syntax D → Prop where
  | or {us vs t a b} (ha : Derives g .or us a) (ht : t.type = .or) (hb : Derives g .and vs b) :
      Derives g .or (us ++ t :: vs) (.or a b)
  | ofAnd {us a} (ha : Derives g .and us a) : Derives g .or us a
  | and {us vs t a b} (ha : Derives g .and us a) (ht : t.type = .and) (hb : Derives g .comparison vs b) :
      Derives g .and (us ++ t :: vs) (.and a b)
  | ofComparison {us a} (ha : Derives g .comparison us a) : Derives g .and us a
  | not {us t a} (ht : t.type = .not) (ha : Derives g .comparison us a) :
      Derives g .comparison (t :: us) (.unaryBoolean .not a)
  | isNull {us t u a} (ha : Derives g .add us a) (ht : t.type = .is) (hu : u.type = .null) :
      Derives g .comparison (us ++ [t, u]) (.unaryBoolean .isNull a)
  | isNotNull {us t u v a} (ha : Derives g .add us a) (ht : t.type = .is) (hu : u.type = .not)
      (hv : v.type = .null) : Derives g .comparison (us ++ [t, u, v]) (.unaryBoolean .isNonNull a)
  | like {us ns es t s a neg esc} (ha : Derives g .add us a) (hn : Negation ns neg) (ht : t.type = .like)
      (hs : s.type = .string) (he : Escape g es esc) :
      Derives g .comparison (us ++ (ns ++ t :: s :: es)) (neg (.like a (toRegex s.val esc)))
  | between {us ns ls vs t u a l b neg} (ha : Derives g .add us a) (hn : Negation ns neg)
      (ht : t.type = .between) (hl : Derives g .add ls l) (hu : u.type = .and)
      (hb : Derives g .add vs b) :
      Derives g .comparison (us ++ (ns ++ t :: (ls ++ u :: vs))) (neg (.between a l b))
  | isIn {us ns vs t u v a l neg} (ha : Derives g .add us a) (hn : Negation ns neg) (ht : t.type = .in)
      (hu : u.type = .lparen) (hl : Derives g .list vs l) (hv : v.type = .rparen) :
      Derives g .comparison (us ++ (ns ++ t :: u :: (vs ++ [v]))) (neg (.isIn a l))
  | compare {us vs t op a b} (ha : Derives g .add us a) (ht : comparisonOperator t.type = some op)
      (hb : Derives g .add vs b) : Derives g .comparison (us ++ t :: vs) (.comparison op a b)
  | ofAdd {us a} (ha : Derives g .add us a) : Derives g .comparison us a
  | add {us vs t op a b} (ha : Derives g .add us a)
      (ht : t.type = .plus ∧ op = .add ∨ t.type = .minus ∧ op = .sub) (hb : Derives g .multiply vs b) :
      Derives g .add (us ++ t :: vs) (.arithmetic op a b)
  | ofMultiply {us a} (ha : Derives g .multiply us a) : Derives g .add us a
  | multiply {us vs t op a b} (ha : Derives g .multiply us a)
      (ht : t.type = .mult ∧ op = .mult ∨ t.type = .div ∧ op = .div) (hb : Derives g .unary vs b) :
      Derives g .multiply (us ++ t :: vs) (.arithmetic op a b)
  | ofUnary {us a} (ha : Derives g .unary us a) : Derives g .multiply us a
  | plus {us t a} (hfull : g.full = true) (ht : t.type = .plus) (ha : Derives g .unary us a) :
      Derives g .unary (t :: us) a
  | minus {us t a} (ht : t.type = .minus) (ha : Derives g .unary us a) :
      Derives g .unary (t :: us) (.negate a)
  | parens {us t u a} (ht : t.type = .lparen) (ha : Derives g .or us a) (hu : u.type = .rparen) :
      Derives g .unary (t :: (us ++ [u])) a
  | identifier {t} (ht : t.type = .identifier) : Derives g .unary [t] (.identifier t.val)
  | string {t} (ht : t.type = .string) : Derives g .unary [t] (.literal (.string t.val))
  | bool {t b} (ht : t.type = .true ∧ b = true ∨ t.type = .false ∧ b = false) :
      Derives g .unary [t] (.literal (.bool b))
  | exact {t i} (ht : t.type = .numericExact) (hi : Machine.lexicalCastInt64 D t.val = some i) :
      Derives g .unary [t] (.literal (.exact i))
  | approx {t x} (ht : t.type = .numericApprox) (hx : Machine.lexicalCast t.val = some x) :
      Derives g .unary [t] (.literal (.inexact x))
  | unsized {t} (hfull : g.full = true) (ht : t.type = .numericExact ∨ t.type = .numericApprox) :
      Derives g .unary [t] (.literal .unknown)
  | one {us a} (ha : Derives g .add us a) : Derives g .list us [a]
  | more {us vs t as b} (ha : Derives g .list us as) (ht : t.type = .comma) (hb : Derives g .add vs b) :
      Derives g .list (us ++ t :: vs) (as ++ [b])

end QB.Spec.Selector
