import QpidBroker.Impl.Properties
import QpidBroker.Spec.Headers

/-!
# Reading the properties of a message exactly

What a property stands for, from its type and octets alone (`Expected`), what
it is to hand each of them to the handler exactly once (`WalkExact`), to
find the one of a name (`GetExact`), and to write an integer in decimal
(`StringExact`).

`Sound` is the condition under which all this is so for a message and a name. It
is about the types of the values, the names, and the size of an integer.
-/

namespace QB.Spec

open QB.Impl

/-- How the handler is to be called for a property. -/
inductive Expected where
  /-- With a value that stands for this; nothing for a void property. -/
  | call (m : Option Meaning)
  /-- Not at all, for a list or a map. -/
  | silent
  /-- No callback is for values of this type. -/
  | impossible
deriving DecidableEq

/-- Octets as a number in two's complement. -/
def signedValue (o : Octets) : Int :=
  if 2 * o.toNat < 256 ^ o.length then o.toNat else o.toNat - 256 ^ o.length

/-- The type octets of integers of AMQP 0-10: binary and signed ones. -/
def signedTypes : List (BitVec 8) := [0x00, 0x01, 0x10, 0x11, 0x20, 0x21, 0x30, 0x31]

/-- The type octets of unsigned integers of AMQP 0-10, and of a datetime. -/
def unsignedTypes : List (BitVec 8) := [0x02, 0x12, 0x22, 0x32, 0x38]

/-- The integer a value of AMQP 0-10 is. -/
def fieldInteger (t : BitVec 8) (o : Octets) : Option Int :=
  if signedTypes.contains t then some (signedValue o)
  else if unsignedTypes.contains t then some o.toNat
  else none

/-- What a value of AMQP 0-10 that is not a list or a map stands for. -/
def octetsExpected (t : BitVec 8) (o : Octets) : Expected :=
  match fieldInteger t o with
  | some z => .call (some (.number z))
  | none =>
    if t = 0x08 then .call (some (.number (if o.toNat = 0 then 0 else 1)))
    else if t = 0x23 then .call (some (.real (.single (o.word 32))))
    else if t = 0x33 then .call (some (.real (.double (o.word 64))))
    else if t = 0xf0 ∨ t = 0xf1 then .call none
    else if FieldValue.textTypes.contains t then .call (some (.text o))
    else .impossible

def fieldExpected : FieldValue → Expected
  | .fixedWidth t o => octetsExpected t o
  | .variableWidth t o => octetsExpected t o
  | .uuid _ => .impossible
  | .table _ | .list _ | .array _ => .silent

/-- The integer a value of AMQP 1.0 is. -/
def amqpInteger : AmqpValue → Option Int
  | .ubyte v => some v.toNat
  | .ushort v => some v.toNat
  | .uint v => some v.toNat
  | .ulong v => some v.toNat
  | .byte v => some v.toInt
  | .short v => some v.toInt
  | .int v => some v.toInt
  | .long v => some v.toInt
  | .timestamp v => some v.toInt
  | _ => none

def amqpExpected (v : AmqpValue) : Expected :=
  match amqpInteger v with
  | some z => .call (some (.number z))
  | none =>
    match v with
    | .null => .call none
    | .boolean b => .call (some (.number b.toNat))
    | .float v => .call (some (.real (.single v)))
    | .double v => .call (some (.real (.double v)))
    | .string s | .binary s | .symbol s => .call (some (.text s))
    | .list _ | .map _ | .array _ => .silent
    | _ => .impossible

/-- The properties of a message, with how the handler is to be called for each. -/
def expected : AppProperties → List (Octets × Expected)
  | .transfer headers => headers.values.map fun e => (e.1, fieldExpected e.2)
  | .message properties _ => properties.map fun e => (e.1, amqpExpected e.2)

/-! ## Exactness -/

/-- The calls made while a property was read are those that are expected. -/
def CallsExact (e : Octets × Expected) (calls : List Call) : Prop :=
  match e.2 with
  | .call m => ∃ s, calls = [(e.1, s)] ∧ meaning s = m
  | .silent => calls = []
  | .impossible => False

/-- The handler is called for each property as expected, and nothing is thrown. -/
def WalkExact (m : AppProperties) : Prop :=
  ∃ trace, m.processProperties = .ok trace ∧ List.Forall₂ CallsExact (expected m) trace

/-- What the property of a name stands for; nothing if there is none. -/
def namedMeaning (m : AppProperties) (k : Octets) : Option Meaning :=
  match (expected m).lookup k with
  | some (.call x) => x
  | _ => none

def GetExact (m : AppProperties) (k : Octets) : Prop :=
  ∃ s, m.getProperty k = .ok s ∧ meaning s = namedMeaning m k

/-- The integer that the property of a name is. -/
def namedInteger : AppProperties → Octets → Option Int
  | .transfer headers, k =>
    match headers.get k with
    | some (.fixedWidth t o) => fieldInteger t o
    | _ => none
  | .message properties _, k => (properties.lookup k).bind amqpInteger

def StringExact (floatText : Scalar → Octets) (m : AppProperties) (k : Octets) : Prop :=
  ∀ z, namedInteger m k = some z → m.getPropertyAsString floatText k = .ok (decimal z)

/-! ## The condition -/

/-- A value of AMQP 0-10 that is handed over: of a type that is translated, and
not a 16-bit unsigned integer that 8 bits do not hold. -/
def fieldPlain (v : FieldValue) : Prop :=
  fieldExpected v ≠ .impossible ∧ ∀ o, v = .fixedWidth 0x12 o → o.toNat ≤ 0xff

/-- A value of AMQP 1.0 that the adapter takes. -/
def amqpPlain : AmqpValue → Bool
  | .char _ | .decimal _ | .uuid _ | .binary _ | .symbol _ | .list _ | .map _ | .array _ => false
  | _ => true

/-- Every property can be handed over. In a 1.0 message a list, a map or an
array may only be the last value. -/
def AllPlain : AppProperties → Prop
  | .transfer headers => ∀ e ∈ headers.values, fieldPlain e.2
  | .message properties _ =>
    (∀ e ∈ properties.dropLast, amqpPlain e.2 = true) ∧
      ∀ e ∈ properties.getLast?, amqpPlain e.2 = true ∨ amqpExpected e.2 = .silent

/-- The properties with a value that is not void, list or map, and that value. -/
def valued (m : AppProperties) : List (Octets × Meaning) :=
  (expected m).filterMap fun e =>
    match e.2 with
    | .call (some x) => some (e.1, x)
    | _ => none

/-- The last property whose name agrees with `k` as far as both go, up to a NUL,
has the value of the property named `k`. -/
def Unshadowed (m : AppProperties) (k : Octets) : Prop :=
  ∀ e ∈ ((valued m).filter fun e => PropertyRetriever.isMatch k e.1).getLast?, (k, e.2) ∈ valued m

/-- An integer of the name is one whose decimal form is given: not one of 8 bits
in a 1.0 message; in a 0-10 message one that an `int` holds, and not a
negative one of 8 or 16 bits. -/
def Written : AppProperties → Octets → Prop
  | .transfer headers, k => ∀ t o z, headers.get k = some (.fixedWidth t o) → fieldInteger t o = some z →
      -2 ^ 31 ≤ z ∧ z < 2 ^ 31 ∧ (z < 0 → 4 ≤ o.length)
  | .message properties _, k => ∀ v, (k, .ubyte v) ∉ properties ∧ (k, .byte v) ∉ properties

/-- The condition for a message and a name. -/
structure Sound (m : AppProperties) (k : Octets) : Prop where
  plain : AllPlain m
  unshadowed : Unshadowed m k
  written : Written m k

end QB.Spec
