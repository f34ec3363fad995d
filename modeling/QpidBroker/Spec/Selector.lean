import QpidBroker.Impl.SelectorExpression

/-!
# What a selector means

The value of an expression in three-valued logic (`value`), for which a
division that cannot be made is unknown, the expressions in which no such
division is reached (`Safe`), and those whose divisors can be seen to be harmless
without an evaluation (`Guarded`).
-/

namespace QB.Spec.Selector

open QB.Impl.Selector

variable {D : Type} [Machine D]

def orElse : BoolOrNone → BoolOrNone → BoolOrNone
  | .true, _ => .true
  | _, .true => .true
  | .false, .false => .false
  | _, _ => .unknown

def negation : BoolOrNone → BoolOrNone
  | .true => .false
  | .false => .true
  | .unknown => .unknown

def andAlso (a b : BoolOrNone) : BoolOrNone := negation (orElse (negation a) (negation b))

/-- The integer division that a processor makes. -/
def Divides (i j : BitVec 64) : Prop := j ≠ 0 ∧ ¬ (i = BitVec.intMin 64 ∧ j = -1)

instance (i j : BitVec 64) : Decidable (Divides i j) := inferInstanceAs (Decidable (_ ∧ _))

/-- The operands of an operator allow it to be applied. -/
def Applies (op : Value.ArithmeticOperator) (v1 v2 : Value D) : Prop :=
  ∀ i j, op = .div → v1 = .exact i → v2 = .exact j → Divides i j

/-- An operator applied to values, unknown if it cannot be. -/
def arithmetic (op : Value.ArithmeticOperator) (v1 v2 : Value D) : Value D :=
  match Value.promoteNumeric v1 v2 with
  | none => .unknown
  | some (.exact i j) =>
    match op with
    | .add => .exact (i + j)
    | .sub => .exact (i - j)
    | .mult => .exact (i * j)
    | .div => if Divides i j then .exact (i.sdiv j) else .unknown
  | some (.inexact x y) =>
    match op with
    | .add => .inexact (Machine.add x y)
    | .sub => .inexact (Machine.sub x y)
    | .mult => .inexact (Machine.mul x y)
    | .div => .inexact (Machine.div x y)

/-- A comparison, unknown if one of the values is. -/
def comparison (c : Value D → Value D → Bool) (v1 v2 : Value D) : BoolOrNone :=
  if v1.isUnknown || v2.isUnknown then .unknown else .ofBool (c v1 v2)

variable (env : Env D)

mutual
def value : Expression D → Value D
  | .comparison op e1 e2 => .ofBoolOrNone (comparison op.apply (value e1) (value e2))
  | .or e1 e2 => .ofBoolOrNone (orElse (value e1).toBoolOrNone (value e2).toBoolOrNone)
  | .and e1 e2 => .ofBoolOrNone (andAlso (value e1).toBoolOrNone (value e2).toBoolOrNone)
  | .unaryBoolean .isNull e => .bool (value e).isUnknown
  | .unaryBoolean .isNonNull e => .bool !(value e).isUnknown
  | .unaryBoolean .not e => .ofBoolOrNone (negation (value e).toBoolOrNone)
  | .like e reString =>
    match value e with
    | .string s => .bool (Machine.regexMatch D reString s)
    | _ => .unknown
  | .between e l u =>
    .ofBoolOrNone (if (value e).isUnknown then .unknown
      else andAlso (negation (comparison Value.ls (value e) (value l)))
        (negation (comparison Value.gr (value e) (value u))))
  | .isIn e l => .ofBoolOrNone (if (value e).isUnknown then .unknown else valueIn (value e) l)
  | .arithmetic op e1 e2 => arithmetic op (value e1) (value e2)
  | .negate e => (value e).negate
  | .literal v => v
  | .identifier name => env name

/-- Whether a value is one of a list. -/
def valueIn (v : Value D) : List (Expression D) → BoolOrNone
  | [] => .false
  | e :: l => orElse (comparison Value.eq v (value e)) (valueIn v l)
end

mutual
/-- No division that is reached by the evaluation is one a processor traps. An
operand is reached unless the ones before it decide the value. -/
def Safe : Expression D → Prop
  | .comparison _ e1 e2 => Safe e1 ∧ (¬ (value env e1).isUnknown → Safe e2)
  | .or e1 e2 => Safe e1 ∧ ((value env e1).toBoolOrNone ≠ .true → Safe e2)
  | .and e1 e2 => Safe e1 ∧ ((value env e1).toBoolOrNone ≠ .false → Safe e2)
  | .unaryBoolean _ e => Safe e
  | .like e _ => Safe e
  | .between e l u => Safe e ∧ (¬ (value env e).isUnknown →
      Safe l ∧ (comparison Value.ls (value env e) (value env l) ≠ .true → Safe u))
  | .isIn e l => Safe e ∧ (¬ (value env e).isUnknown → SafeIn (value env e) l)
  | .arithmetic op e1 e2 => Safe e1 ∧ Safe e2 ∧ Applies op (value env e1) (value env e2)
  | .negate e => Safe e
  | .literal _ => True
  | .identifier _ => True

def SafeIn (v : Value D) : List (Expression D) → Prop
  | [] => True
  | e :: l => Safe e ∧ (comparison Value.eq v (value env e) ≠ .true → SafeIn v l)
end

/-- What a literal or an identifier stands for, under any number of minus signs. -/
def atom : Expression D → Option (Value D)
  | .literal v => some v
  | .identifier name => some (env name)
  | .negate e => (atom e).map .negate
  | _ => none

/-- The divisor is a literal or an identifier and not the integer 0 or -1, or the
dividend is one and not an integer. -/
def Harmless (e1 e2 : Expression D) : Prop :=
  (∃ v, atom env e2 = some v ∧ v ≠ .exact 0 ∧ v ≠ .exact (-1)) ∨
    ∃ v, atom env e1 = some v ∧ ∀ i, v ≠ .exact i

mutual
/-- Every division in the expression, reached or not, is harmless. -/
def Guarded : Expression D → Prop
  | .comparison _ e1 e2 | .or e1 e2 | .and e1 e2 => Guarded e1 ∧ Guarded e2
  | .unaryBoolean _ e | .like e _ | .negate e => Guarded e
  | .between e l u => Guarded e ∧ Guarded l ∧ Guarded u
  | .isIn e l => Guarded e ∧ GuardedIn l
  | .arithmetic op e1 e2 => Guarded e1 ∧ Guarded e2 ∧ (op = .div → Harmless env e1 e2)
  | .literal _ | .identifier _ => True

def GuardedIn : List (Expression D) → Prop
  | [] => True
  | e :: l => Guarded e ∧ GuardedIn l
end

end QB.Spec.Selector

/-! ## Forms that others abbreviate -/

namespace QB.Impl.Selector

variable {D : Type} [Machine D]

/-- `acc OR x = l₁ OR … OR x = lₙ`. -/
def orEach (e : Expression D) : Expression D → List (Expression D) → Expression D :=
  List.foldl fun acc li => .or acc (.comparison .eq e li)

/-- `x = l₁ OR … OR x = lₙ`. -/
def anyOf (e l₁ : Expression D) : List (Expression D) → Expression D := orEach e (.comparison .eq e l₁)

/-- `x >= a AND x <= b`. -/
def within (e l u : Expression D) : Expression D := .and (.comparison .greq e l) (.comparison .lseq e u)

/-- A known `x` is below a known lower bound or not, unless the upper bound is decisive, and is above a known
upper bound or not, unless the lower one is. -/
def Ordered (env : Env D) (e l u : Expression D) : Prop :=
  ∀ v, e.eval env = .ok v → v.isUnknown = false →
    (∀ vl, l.eval env = .ok vl → vl.isUnknown = false → Value.ls v vl ∨ Value.ge v vl ∨
      ∃ vu, u.eval env = .ok vu ∧ vu.isUnknown = false ∧ Value.gr v vu) ∧
    ∀ vl, l.eval env = .ok vl → (vl.isUnknown = false → Value.ls v vl = false) →
      ∀ vu, u.eval env = .ok vu → vu.isUnknown = false → Value.gr v vu ∨ Value.le v vu

end QB.Impl.Selector
