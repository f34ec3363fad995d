import Mathlib.Data.BitVec

/-!
# Selector values and expressions

`broker/SelectorValue.{h,cpp}` and the expressions of
`broker/SelectorExpression.cpp`: a selector is a tree that is evaluated against
the properties of a message.

* Text is a list of characters. An `int64_t` is a 64-bit word, and arithmetic on
  it wraps around; a division that the processor traps is an exception of the
  model (`Trap`).
* `double` and its arithmetic, `boost::lexical_cast` and `regexec` are a
  parameter (`Machine`); of the cast to an integer it is assumed that decimal
  digits have their value.
* `eval_bool` of an expression that is not boolean, and `eval` of one that is,
  are each made from the other; the model has one function (`eval`), and
  `eval_bool` reads its value.
-/

namespace QB.Impl.Selector

/-- The value of decimal digits. -/
def digitsValue (val : List Char) : Nat := val.foldl (fun n c => 10 * n + (c.toNat - '0'.toNat)) 0

/-- What the selectors use of the machine and of libraries. -/
class Machine (D : Type) where
  ofInt : BitVec 64 → D
  add : D → D → D
  sub : D → D → D
  mul : D → D → D
  div : D → D → D
  neg : D → D
  eq : D → D → Bool
  lt : D → D → Bool
  le : D → D → Bool
  /-- `boost::lexical_cast<double>`; none if it throws. -/
  lexicalCast : List Char → Option D
  /-- `boost::lexical_cast<int64_t>`; none if it throws. -/
  lexicalCastInt64 : List Char → Option (BitVec 64)
  lexicalCastInt64_digits {val : List Char} : val ≠ [] → val.all Char.isDigit = true →
    lexicalCastInt64 val = if digitsValue val < 2 ^ 63 then some (BitVec.ofNat 64 (digitsValue val)) else none
  /-- `regexec` with an expression and a text. -/
  regexMatch : List Char → List Char → Bool

inductive BoolOrNone where
  | false
  | true
  | unknown
deriving DecidableEq

inductive Value (D : Type) where
  | unknown
  | bool (b : Bool)
  | string (s : List Char)
  | exact (i : BitVec 64)
  | inexact (x : D)
deriving DecidableEq

/-- An integer division that the processor traps. -/
inductive Trap where
  | divideByZero
  | overflow
deriving DecidableEq

namespace BoolOrNone

def ofBool (b : Bool) : BoolOrNone := if b then .true else .false

end BoolOrNone

namespace Value

variable {D : Type}

def ofBoolOrNone : BoolOrNone → Value D
  | .false => bool Bool.false
  | .true => bool Bool.true
  | .unknown => unknown

/-- What `eval_bool` makes of a value. -/
def toBoolOrNone : Value D → BoolOrNone
  | bool b => .ofBool b
  | _ => .unknown

def isUnknown : Value D → Bool
  | unknown => true
  | _ => false

section

variable [Machine D]

open Machine

/-- `promoteNumeric(v1, v2)`: a pair of `int64_t` or of `double`. -/
inductive NumericPair (D : Type) where
  | exact (n1 n2 : BitVec 64)
  | inexact (n1 n2 : D)

def promoteNumeric : Value D → Value D → Option (NumericPair D)
  | inexact x, exact i => some (.inexact x (ofInt i))
  | exact i, inexact x => some (.inexact (ofInt i) x)
  | inexact x, inexact y => some (.inexact x y)
  | exact i, exact j => some (.exact i j)
  | _, _ => none

/-- An operator of `NumericPair<T>`, and what becomes of other values. -/
def compare (onInt : BitVec 64 → BitVec 64 → Bool) (onDouble : D → D → Bool)
    (other : Value D → Value D → Bool) (v1 v2 : Value D) : Bool :=
  match promoteNumeric v1 v2 with
  | some (.exact i j) => onInt i j
  | some (.inexact x y) => onDouble x y
  | none => other v1 v2

def eq : Value D → Value D → Bool :=
  compare (· == ·) Machine.eq fun v1 v2 =>
    match v1, v2 with
    | bool a, bool b => a == b
    | string s, string t => s == t
    | _, _ => false

/-- Values of different types are not unequal either. -/
def ne : Value D → Value D → Bool :=
  compare (· != ·) (fun x y => !Machine.eq x y) fun v1 v2 =>
    match v1, v2 with
    | bool a, bool b => a != b
    | string s, string t => s != t
    | _, _ => false

def ls : Value D → Value D → Bool := compare (·.slt ·) lt fun _ _ => false

def gr : Value D → Value D → Bool := compare (fun i j => j.slt i) (fun x y => lt y x) fun _ _ => false

def le : Value D → Value D → Bool := compare (·.sle ·) Machine.le fun _ _ => false

def ge : Value D → Value D → Bool := compare (fun i j => j.sle i) (fun x y => Machine.le y x) fun _ _ => false

/-- `n1/n2` of two `int64_t`. -/
def divide (i j : BitVec 64) : Except Trap (BitVec 64) :=
  if j = 0 then .error .divideByZero
  else if i = BitVec.intMin 64 ∧ j = -1 then .error .overflow
  else .ok (i.sdiv j)

/-- `+`, `-`, `*` and `/`. -/
inductive ArithmeticOperator where
  | add
  | sub
  | mult
  | div
deriving DecidableEq

def arithmetic (op : ArithmeticOperator) (v1 v2 : Value D) : Except Trap (Value D) :=
  match promoteNumeric v1 v2 with
  | none => .ok unknown
  | some (.exact i j) =>
    match op with
    | .add => .ok (exact (i + j))
    | .sub => .ok (exact (i - j))
    | .mult => .ok (exact (i * j))
    | .div => exact <$> divide i j
  | some (.inexact x y) =>
    match op with
    | .add => .ok (inexact (Machine.add x y))
    | .sub => .ok (inexact (Machine.sub x y))
    | .mult => .ok (inexact (Machine.mul x y))
    | .div => .ok (inexact (Machine.div x y))

/-- Unary `operator-`. -/
def negate : Value D → Value D
  | exact i => exact (-i)
  | inexact x => inexact (Machine.neg x)
  | _ => unknown

end

end Value

open Value (ArithmeticOperator)

inductive ComparisonOperator where
  | eq
  | neq
  | ls
  | gr
  | lseq
  | greq
deriving DecidableEq

inductive UnaryBooleanOperator where
  | isNull
  | isNonNull
  | not
deriving DecidableEq

/-- `class Expression` and its subclasses. A `LikeExpression` keeps the
regular expression that was made of its pattern. -/
inductive Expression (D : Type) where
  | comparison (op : ComparisonOperator) (e1 e2 : Expression D)
  | or (e1 e2 : Expression D)
  | and (e1 e2 : Expression D)
  | unaryBoolean (op : UnaryBooleanOperator) (e1 : Expression D)
  | like (e : Expression D) (reString : List Char)
  | between (e l u : Expression D)
  | isIn (e : Expression D) (l : List (Expression D))
  | arithmetic (op : ArithmeticOperator) (e1 e2 : Expression D)
  | negate (e1 : Expression D)
  | literal (value : Value D)
  | identifier (name : List Char)

/-- The loop of `toRegex`, after its first characters. -/
def toRegexLoop (escape : Option Char) : Bool → List Char → List Char
  | _, [] => ['$']
  | doEscape, c :: s =>
    if some c = escape then toRegexLoop escape true s
    else
      (if c = '%' then if doEscape then [c] else ['.', '*']
      else if c = '_' then if doEscape then [c] else ['.']
      else if c = ']' then ['[', ']', ']']
      else if c = '-' then ['[', '-', ']']
      else if c ∈ ['\\', '^', '$', '.', '*', '['] then ['\\', c]
      else [c]) ++ toRegexLoop escape false s

/-- `LikeExpression::toRegex(s, escape)`; an escape that is NUL is none. -/
def toRegex (s escape : List Char) : List Char := '^' :: toRegexLoop (escape.head?.filter (· ≠ '\x00')) false s

/-- `SelectorEnv`: the value of an identifier. -/
abbrev Env (D : Type) := List Char → Value D

namespace ComparisonOperator

def apply {D : Type} [Machine D] : ComparisonOperator → Value D → Value D → Bool
  | eq => Value.eq
  | neq => Value.ne
  | ls => Value.ls
  | gr => Value.gr
  | lseq => Value.le
  | greq => Value.ge

end ComparisonOperator

namespace Expression

variable {D : Type} [Machine D] (env : Env D)

mutual
def eval : Expression D → Except Trap (Value D)
  | comparison op e1 e2 => do
    let v1 ← eval e1
    if v1.isUnknown then return .unknown
    let v2 ← eval e2
    if v2.isUnknown then return .unknown
    return .bool (op.apply v1 v2)
  | or e1 e2 => do
    let bn1 := (← eval e1).toBoolOrNone
    if bn1 = .true then return .bool true
    let bn2 := (← eval e2).toBoolOrNone
    if bn2 = .true then return .bool true
    if bn1 = .false ∧ bn2 = .false then return .bool false else return .unknown
  | and e1 e2 => do
    let bn1 := (← eval e1).toBoolOrNone
    if bn1 = .false then return .bool false
    let bn2 := (← eval e2).toBoolOrNone
    if bn2 = .false then return .bool false
    if bn1 = .true ∧ bn2 = .true then return .bool true else return .unknown
  | unaryBoolean .isNull e => return .bool (← eval e).isUnknown
  | unaryBoolean .isNonNull e => return .bool !(← eval e).isUnknown
  | unaryBoolean .not e => do
    match (← eval e).toBoolOrNone with
    | .unknown => return .unknown
    | .true => return .bool false
    | .false => return .bool true
  | like e reString => do
    match ← eval e with
    | .string s => return .bool (Machine.regexMatch D reString s)
    | _ => return .unknown
  | between e l u => do
    let ve ← eval e
    if ve.isUnknown then return .unknown
    let vl ← eval l
    if !vl.isUnknown && Value.ls ve vl then return .bool false
    let vu ← eval u
    if !vu.isUnknown && Value.gr ve vu then return .bool false
    if vl.isUnknown || vu.isUnknown then return .unknown
    return .bool true
  | isIn e l => do
    let ve ← eval e
    if ve.isUnknown then return .unknown
    return .ofBoolOrNone (← evalIn ve .false l)
  | arithmetic op e1 e2 => do Value.arithmetic op (← eval e1) (← eval e2)
  | negate e => return (← eval e).negate
  | literal value => return value
  | identifier name => return env name

/-- The loop of `InExpression`. -/
def evalIn (ve : Value D) : BoolOrNone → List (Expression D) → Except Trap BoolOrNone
  | r, [] => return r
  | r, e :: l => do
    let li ← eval e
    if li.isUnknown then evalIn ve .unknown l
    else if Value.eq ve li then return .true
    else evalIn ve r l
end

def evalBool (e : Expression D) : Except Trap BoolOrNone := return (← e.eval env).toBoolOrNone

end Expression

end QB.Impl.Selector
