import QpidBroker.Impl.HeadersExchange

/-!
# What the headers exchange is for

A binding is matched by a message according to the values that its entries
and the properties of the message stand for (`Meaning`): numbers by their
value, whatever their width or sign, texts by their octets, and values of
different sorts never (`equal`).

`Exact` says, of a binding and a message, when counting hits as the matcher does
gives that answer. It is in terms of the values that the matcher takes to be
equal and that are not (`mistaken`), of those that are equal and that it does
not find so (`overlooked`), and of a property named as the match mode is. It is
about the values as they were bound: a little-endian host turns a bound double
round each time it compares it (`ReadsDouble`).
-/

namespace QB.Spec

open QB.Impl QB.Impl.HeadersExchange

/-- What a value stands for. -/
inductive Meaning where
  | number (z : Int)
  | real (r : FloatValue)
  | text (s : Octets)
deriving DecidableEq

def Meaning.same : Meaning → Meaning → Bool
  | number y, number z => decide (y = z)
  | real a, real b => a.eq b
  | text s, text t => decide (s = t)
  | _, _ => false

/-- A property stands for its value; a boolean is the number 0 or 1. -/
def meaning : Scalar → Option Meaning
  | .void => none
  | .bool b => some (.number b.toNat)
  | .uint8 v => some (.number v.toNat)
  | .uint16 v => some (.number v.toNat)
  | .uint32 v => some (.number v.toNat)
  | .uint64 v => some (.number v.toNat)
  | .int8 v => some (.number v.toInt)
  | .int16 v => some (.number v.toInt)
  | .int32 v => some (.number v.toInt)
  | .int64 v => some (.number v.toInt)
  | .float v => some (.real (.single v))
  | .double v => some (.real (.double v))
  | .string s => some (.text s)

/-- A bound value stands for what it is translated to when it is a property of
a message. -/
def boundMeaning (v : FieldValue) : Option Meaning :=
  match v.toVariant with
  | .ok (.scalar s) => meaning s
  | _ => none

/-- The bound value and the property are equal. -/
def equal (v : FieldValue) (p : Scalar) : Bool :=
  match boundMeaning v, meaning p with
  | some a, some b => a.same b
  | _, _ => false

def isVoid (v : FieldValue) : Bool := decide (v.getType = 0xf0)

/-- `x-match`. -/
inductive Mode where
  | all
  | any
deriving DecidableEq

def Mode.text : Mode → Octets
  | .all => HeadersExchange.all
  | .any => HeadersExchange.any

/-- The arguments of a binding, with its match mode. -/
structure Binding where
  args : FieldTable
  mode : Mode
  modeText : getMatch args = .ok mode.text

/-- The properties of a message, with distinct keys. -/
structure Properties where
  values : List (Octets × Scalar)
  nodup : (values.map Prod.fst).Nodup

/-- The entries to be matched: all but the match mode. -/
def Binding.entries (b : Binding) : List (Octets × FieldValue) := b.args.values.filter (·.1 ≠ xMatch)

/-- `p` holds of an entry and the property of the same key. -/
def onProperty (p : FieldValue → Scalar → Bool) (msg : Properties) (e : Octets × FieldValue) : Bool :=
  match msg.values.lookup e.1 with
  | some s => p e.2 s
  | none => false

/-- An entry is satisfied: the message has a property of its key, which is equal
to it unless its value is void. -/
def holds (msg : Properties) (e : Octets × FieldValue) : Bool :=
  onProperty (fun v s => isVoid v || equal v s) msg e

/-- Whether a message matches a binding. -/
def Binding.matched (b : Binding) (msg : Properties) : Bool :=
  match b.mode with
  | .all => b.entries.all (holds msg)
  | .any => b.entries.any (holds msg)

/-! ## Where the matcher goes wrong -/

/-- The octets of a fixed-width value read as an unsigned number, of which the
low 64 bits are kept; zero for other values. -/
def unsignedOctets : FieldValue → Int
  | .fixedWidth _ o => (o.toNat % 2 ^ 64 : Nat)
  | .uuid o => (o.toNat % 2 ^ 64 : Nat)
  | _ => 0

/-- The text of a value; empty for values that have none. -/
def textOctets : FieldValue → Octets
  | .uuid o => FieldValue.uuidText o
  | .variableWidth _ o => o
  | _ => []

/-- A property that is not equal to the bound value, but is an integer of the
same 64 bits as its unsigned octets, or is the same text as it has by default,
as a UUID or under a type octet of no meaning. -/
def mistaken (v : FieldValue) (p : Scalar) : Bool :=
  !isVoid v && !equal v p &&
    match meaning p with
    | some (.number z) => decide (unsignedOctets v = z % 2 ^ 64)
    | some (.text s) => decide (textOctets v = s)
    | _ => false

/-- A bound value that is a negative integer of less than eight octets, a
boolean of an octet other than 0 and 1, or a single-precision number, and a
property that is equal to it. -/
def overlooked (v : FieldValue) (p : Scalar) : Bool :=
  equal v p &&
    match v, boundMeaning v with
    | .fixedWidth t o, some (.number z) =>
      decide (z < 0 ∧ o.length < 8) || decide (t = 0x08 ∧ 1 < o.toNat)
    | .fixedWidth t _, some (.real _) => decide (t = 0x23)
    | _, _ => false

/-- A property named `x-match` is counted: it is the text of the binding's
match mode, or the integer zero. -/
def countsMode (b : Binding) (msg : Properties) : Bool :=
  match (msg.values.lookup xMatch).bind meaning with
  | some (.text s) => decide (s = b.mode.text)
  | some (.number z) => decide (z = 0)
  | _ => false

/-- The miscounts of a message do not change whether it matches. -/
def Binding.Exact (b : Binding) (msg : Properties) : Prop :=
  let satisfied := b.entries.countP (holds msg)
  let wrong := b.entries.countP (onProperty mistaken msg) + (countsMode b msg).toNat
  let lost := b.entries.countP (onProperty overlooked msg)
  match b.mode with
  | .all => satisfied = b.entries.length ↔ satisfied + wrong = b.entries.length + lost
  | .any => 0 < satisfied ↔ lost < satisfied + wrong

instance (b : Binding) (msg : Properties) : Decidable (b.Exact msg) := by
  unfold Binding.Exact
  cases b.mode <;> exact instDecidableIff

end QB.Spec
