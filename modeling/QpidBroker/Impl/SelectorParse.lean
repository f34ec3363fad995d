import QpidBroker.Framework.Descent
import QpidBroker.Impl.SelectorExpression
import QpidBroker.Impl.SelectorToken

/-!
# The selector parser

`class Parse` and `TopExpression::parse` of `broker/SelectorExpression.cpp`.

* A token that is read and then returned (`returnTokens`) is one that the model
  leaves in its input.
* A function that returns no expression has set `error` and read the token it
  refuses; its callers return none as well, and `parse` throws for that token.
  The model throws at once (`throwParseError`).
* The loops of the binary operators and of `IN` are chains. What is in
  parentheses is read by `orExpression` with a smaller bound, and the bound of
  `parse` is greater than the number of parentheses.
-/

namespace QB.Impl.Selector

open QB.Descent

inductive Thrown where
  | rangeError (what : List Char)
  | badLexicalCast
deriving DecidableEq

def tokenException : Thrown := .rangeError "Found illegal character".toList

/-- `throwParseError(tokeniser, msg)` for the token read last. -/
def throwParseError (t : Token) (msg : String) : Thrown :=
  .rangeError ("Illegal selector: '".toList ++ t.val ++ "': ".toList ++ msg.toList)

def comparisonOperator : TokenType → Option ComparisonOperator
  | .equal => some .eq
  | .neq => some .neq
  | .less => some .ls
  | .grt => some .gr
  | .lseq => some .lseq
  | .greq => some .greq
  | _ => none

section

variable {D : Type} [Machine D]

/-- The operators of the loops. -/
def orOperator (t : Token) : Option (Expression D → Expression D → Expression D) :=
  if t.type = .or then some .or else none

def andOperator (t : Token) : Option (Expression D → Expression D → Expression D) :=
  if t.type = .and then some .and else none

def addOperator (t : Token) : Option (Expression D → Expression D → Expression D) :=
  if t.type = .plus then some (.arithmetic .add)
  else if t.type = .minus then some (.arithmetic .sub) else none

def multiplyOperator (t : Token) : Option (Expression D → Expression D → Expression D) :=
  if t.type = .mult then some (.arithmetic .mult)
  else if t.type = .div then some (.arithmetic .div) else none

def listOperator (t : Token) : Option (List (Expression D) → Expression D → List (Expression D)) :=
  if t.type = .comma then some fun l e => l ++ [e] else none

variable (eos : Except Thrown Token)

def primaryExpression : Parser Token Thrown (Expression D) := fun ts => do
  let (t, ts) ← next eos ts
  match t.type with
  | .identifier => return (.identifier t.val, ts)
  | .string => return (.literal (.string t.val), ts)
  | .false => return (.literal (.bool false), ts)
  | .true => return (.literal (.bool true), ts)
  | .numericExact =>
    match Machine.lexicalCastInt64 D t.val with
    | some i => return (.literal (.exact i), ts)
    | none => throw .badLexicalCast
  | .numericApprox =>
    match Machine.lexicalCast t.val with
    | some x => return (.literal (.inexact x), ts)
    | none => throw .badLexicalCast
  | _ => throw (throwParseError t "expected literal or identifier")

variable (par : Parser Token Thrown (Expression D))

/-- `unaryArithExpression`; `par` reads what is in parentheses. A `+` is
returned, and is then no primary expression. -/
def unaryArithExpression : Parser Token Thrown (Expression D)
  | [] => primaryExpression eos []
  | t :: ts =>
    match t.type with
    | .lparen => do
      let (e, ts) ← par ts
      let (t, ts) ← next eos ts
      if t.type ≠ .rparen then throw (throwParseError t "missing ')' after '('") else return (e, ts)
    | .minus => do
      let (e, ts) ← unaryArithExpression ts
      return (.negate e, ts)
    | _ => primaryExpression eos (t :: ts)

def multiplyExpression : Parser Token Thrown (Expression D) :=
  chain eos multiplyOperator (unaryArithExpression eos par) id

def addExpression : Parser Token Thrown (Expression D) :=
  chain eos addOperator (multiplyExpression eos par) id

def specialComparisons (e1 : Expression D) : Parser Token Thrown (Expression D) := fun ts => do
  let (t, ts) ← next eos ts
  match t.type with
  | .like => do
    let (t, ts) ← next eos ts
    if t.type ≠ .string then throw (throwParseError t "expected string after LIKE")
    else do
      let (u, us) ← next eos ts
      if u.type = .escape then do
        let (e, us) ← next eos us
        if e.type ≠ .string then throw (throwParseError e "expected string after ESCAPE")
        else if e.val.length > 1 then
          throw (throwParseError e "single character string required after ESCAPE")
        else return (.like e1 (toRegex t.val e.val), us)
      else return (.like e1 (toRegex t.val []), ts)
  | .between => do
    let (lower, ts) ← addExpression eos par ts
    let (t, ts) ← next eos ts
    if t.type ≠ .and then throw (throwParseError t "expected AND after BETWEEN")
    else do
      let (upper, ts) ← addExpression eos par ts
      return (.between e1 lower upper, ts)
  | .in => do
    let (t, ts) ← next eos ts
    if t.type ≠ .lparen then throw (throwParseError t "missing '(' after IN")
    else do
      let (list, ts) ← chain eos listOperator (addExpression eos par) (fun e => [e]) ts
      let (t, ts) ← next eos ts
      if t.type ≠ .rparen then throw (throwParseError t "missing ',' or ')' after IN")
      else return (.isIn e1 list, ts)
  | _ => throw (throwParseError t "expected LIKE, IN or BETWEEN")

/-- The part of `comparisonExpression` after a first expression. -/
def comparisonRest (e1 : Expression D) : Parser Token Thrown (Expression D) := fun ts => do
  let (t, us) ← next eos ts
  match t.type with
  | .is => do
    let (u, us) ← next eos us
    match u.type with
    | .null => return (.unaryBoolean .isNull e1, us)
    | .not => do
      let (v, us) ← next eos us
      if v.type ≠ .null then throw (throwParseError v "expected NULL or NOT NULL after IS")
      else return (.unaryBoolean .isNonNull e1, us)
    | _ => throw (throwParseError u "expected NULL or NOT NULL after IS")
  | .not => do
    let (e, us) ← specialComparisons eos par e1 us
    return (.unaryBoolean .not e, us)
  | .between => specialComparisons eos par e1 ts
  | .like => specialComparisons eos par e1 ts
  | .in => specialComparisons eos par e1 ts
  | _ =>
    match comparisonOperator t.type with
    | none => return (e1, ts)
    | some op => do
      let (e2, us) ← addExpression eos par us
      return (.comparison op e1 e2, us)

def comparisonExpression : Parser Token Thrown (Expression D)
  | [] => do
    let (e1, ts) ← addExpression eos par []
    comparisonRest eos par e1 ts
  | t :: ts =>
    if t.type = .not then do
      let (e, ts) ← comparisonExpression ts
      return (.unaryBoolean .not e, ts)
    else do
      let (e1, ts) ← addExpression eos par (t :: ts)
      comparisonRest eos par e1 ts

def andExpression : Parser Token Thrown (Expression D) :=
  chain eos andOperator (comparisonExpression eos par) id

/-- `orExpression`, for at most so many parentheses inside each other. -/
def orExpression : Nat → Parser Token Thrown (Expression D)
  | 0 => fun _ => throw (throwParseError endOfStream "")
  | n + 1 => chain eos orOperator (andExpression eos (orExpression n)) id

end

/-- How the tokens of a text end. -/
def streamEnd (legal : Bool) : Except Thrown Token :=
  if legal then .ok endOfStream else .error tokenException

/-- `TopExpression::parse(exp)`. -/
def parse (D : Type) [Machine D] (exp : List Char) : Except Thrown (Expression D) := do
  let (ts, legal) := tokens (exp.length + 1) exp
  let (b, ts) ← orExpression (streamEnd legal) (ts.length + 1) ts
  let (t, _) ← next (streamEnd legal) ts
  if t.type ≠ .eos then throw (throwParseError t "extra input") else return b

end QB.Impl.Selector
