import QpidBroker.Impl.FieldTable

/-!
# The application properties of a message

`broker/amqp_0_10/MessageTransfer.cpp`, `broker/amqp/Message.cpp`,
`broker/Message.cpp`: how the properties of a message are handed to a
`MapHandler`, and the two handlers that look for one of them.

* The calls that `processProperties` makes are listed by the property that is
  being read, in order.
* A 1.0 message is the list of its properties as sent, each a name and a value;
  `qpid::amqp::Decoder` makes one call to its `Reader` for each of them. It has no
  case for a char or a decimal, whose octets it takes for further values:
  nothing is said then of what follows.
* How `boost::lexical_cast` writes a floating-point number is a parameter.
-/

namespace QB.Impl

/-- A call to a `MapHandler`. -/
abbrev Call := Octets × Scalar

/-- `processProperties` does not return, or does not keep to the properties. -/
inductive Failure where
  | thrown (e : Thrown)
  | undecoded
deriving DecidableEq

/-! ## Messages of AMQP 0-10 -/

namespace MessageTransfer

/-- `Variant::asUint8()` of a `uint16`. -/
def asUint8 (v : BitVec 16) : Except Failure (BitVec 8) :=
  if v.toNat ≤ 0xff then .ok (v.setWidth 8) else .error (.thrown .invalidConversion)

/-- The case for a type of variant. -/
def call (key : Octets) : Variant → Except Failure (List Call)
  | .scalar (.uint16 v) => return [(key, .uint8 (← asUint8 v))]
  | .scalar s => return [(key, s)]
  -- unhandled key
  | .uuid _ | .map _ | .list _ => return []

/-- `translate` and the call for one property. -/
def processProperty (e : Octets × FieldValue) : Except Failure (List Call) :=
  match e.2.toVariant with
  | .ok v => call e.1 v
  | .error x => .error (.thrown x)

def processProperties (headers : FieldTable) : Except Failure (List (List Call)) :=
  headers.values.mapM processProperty

end MessageTransfer

/-! ## Messages of AMQP 1.0 -/

/-- A value of AMQP 1.0: a call to a `Reader`, and the types without one. The
elements of a list, a map or an array are skipped. -/
inductive AmqpValue where
  | null
  | boolean (b : Bool)
  | ubyte (v : BitVec 8)
  | ushort (v : BitVec 16)
  | uint (v : BitVec 32)
  | ulong (v : BitVec 64)
  | byte (v : BitVec 8)
  | short (v : BitVec 16)
  | int (v : BitVec 32)
  | long (v : BitVec 64)
  | float (v : BitVec 32)
  | double (v : BitVec 64)
  | timestamp (v : BitVec 64)
  | char (v : BitVec 32)
  | decimal (v : Octets)
  | uuid (v : Octets)
  | binary (v : Octets)
  | string (v : Octets)
  | symbol (v : Octets)
  | list (elements : Octets)
  | map (elements : Octets)
  | array (elements : Octets)
deriving DecidableEq

/-- `class PropertyAdapter`: `value` is its state `VALUE`. -/
structure PropertyAdapter where
  key : Octets := []
  value : Bool := false
deriving DecidableEq

namespace PropertyAdapter

/-- `checkValue()`, and the call for a value that is not a string. -/
def onValue (a : PropertyAdapter) (s : Scalar) : PropertyAdapter × List Call :=
  if a.value then ({ a with value := false }, [(a.key, s)])
  else
    -- received non string property key
    ({ key := [], value := false }, [([], s)])

def onString (a : PropertyAdapter) (s : Octets) : PropertyAdapter × List Call :=
  if a.value then ({ a with value := false }, [(a.key, .string s)]) else ({ key := s, value := true }, [])

/-- The call that the decoder makes for a value. A list, a map or an array is
not entered, and a call that is not overridden does nothing. -/
def read (a : PropertyAdapter) : AmqpValue → Except Failure (PropertyAdapter × List Call)
  | .null => .ok (a.onValue .void)
  | .boolean b => .ok (a.onValue (.bool b))
  | .ubyte v => .ok (a.onValue (.uint8 v))
  | .ushort v => .ok (a.onValue (.uint16 v))
  | .uint v => .ok (a.onValue (.uint32 v))
  | .ulong v => .ok (a.onValue (.uint64 v))
  | .byte v => .ok (a.onValue (.int8 v))
  | .short v => .ok (a.onValue (.int16 v))
  | .int v => .ok (a.onValue (.int32 v))
  | .long v => .ok (a.onValue (.int64 v))
  | .float v => .ok (a.onValue (.float v))
  | .double v => .ok (a.onValue (.double v))
  | .timestamp v => .ok (a.onValue (.int64 v))
  | .string s => .ok (a.onString s)
  | .uuid _ | .binary _ | .symbol _ => .ok (a, [])
  | .list _ | .map _ | .array _ => .ok (a, [])
  | .char _ | .decimal _ => .error .undecoded

/-- `processMapData(source, handler)` from a state of the adapter on. -/
def process : PropertyAdapter → List (Octets × AmqpValue) → Except Failure (List (List Call))
  | _, [] => .ok []
  | a, (k, v) :: ps => do
    let (a, calls) := a.onString k
    let (a, calls') ← a.read v
    return (calls ++ calls') :: (← a.process ps)

end PropertyAdapter

/-! ## Looking for a property -/

/-- The application properties of a message, by its protocol; those of a 0-10
message without application headers are an empty table. -/
inductive AppProperties where
  | transfer (headers : FieldTable)
  | message (properties : List (Octets × AmqpValue)) (nodup : (properties.map Prod.fst).Nodup)

namespace AppProperties

/-- `Message::processProperties(handler)`. -/
def processProperties : AppProperties → Except Failure (List (List Call))
  | transfer headers => MessageTransfer.processProperties headers
  | message properties _ => PropertyAdapter.process {} properties

end AppProperties

namespace PropertyRetriever

/-- `strncmp(a, b, n) == 0`. -/
def strncmp : Octets → Octets → Nat → Bool
  | _, _, 0 => true
  | a :: as, b :: bs, n + 1 => a = b && (a = 0 || strncmp as bs n)
  | _, _, _ => false

/-- `matches(key)` of the retriever of `name`. -/
def isMatch (name key : Octets) : Bool := strncmp key name (min key.length name.length)

def handle (name : Octets) (result : Scalar) (c : Call) : Scalar :=
  if c.2 = .void then result else if isMatch name c.1 then c.2 else result

end PropertyRetriever

/-- `Message::getProperty(key)`. -/
def AppProperties.getProperty (m : AppProperties) (key : Octets) : Except Failure Scalar := do
  return (← m.processProperties).flatten.foldl (PropertyRetriever.handle key) .void

/-- The decimal form of a number. -/
def decimal (z : Int) : Octets :=
  let digits := Octets.ascii (Nat.toDigits 10 z.natAbs)
  if z < 0 then 0x2d :: digits else digits

namespace StringRetriever

variable (floatText : Scalar → Octets)

/-- `boost::lexical_cast<std::string>(value)`: an integer of eight bits is a
character. -/
def lexicalCast : Scalar → Octets
  | .void => []
  | .bool b => decimal b.toNat
  | .uint8 v => [v]
  | .uint16 v => decimal v.toNat
  | .uint32 v => decimal v.toNat
  | .uint64 v => decimal v.toNat
  | .int8 v => [v]
  | .int16 v => decimal v.toInt
  | .int32 v => decimal v.toInt
  | .int64 v => decimal v.toInt
  | .float v => floatText (.float v)
  | .double v => floatText (.double v)
  | .string s => s

def handle (key : Octets) (value : Octets) (c : Call) : Octets :=
  if c.2 = .void then value else if key = c.1 then lexicalCast floatText c.2 else value

end StringRetriever

def AppProperties.getPropertyAsString (floatText : Scalar → Octets) (key : Octets) :
    AppProperties → Except Failure Octets
  | transfer headers =>
    match headers.get key with
    | none => .ok []
    | some value =>
      match value.getString, value.getInt with
      | .ok s, _ => .ok s
      | .error _, .ok i => .ok (decimal (i.setWidth 32).toInt)
      | .error _, .error _ => .ok []
  | message properties h => do
    return (← (message properties h).processProperties).flatten.foldl (StringRetriever.handle floatText key) []

end QB.Impl
