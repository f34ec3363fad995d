import QpidBroker.Impl.FieldTable

/-!
# The headers exchange

`broker/HeadersExchange.cpp`: how a message is matched with the arguments of a
binding. `Matcher` is the handler that is called with each property of the
message; the properties of a message are here the calls it makes.

`littleEndian` is the byte order of the host, `Endian::instance`.
-/

namespace QB.Impl

namespace HeadersExchange

def xMatch : Octets := .ascii ['x', '-', 'm', 'a', 't', 'c', 'h']

def all : Octets := .ascii ['a', 'l', 'l']

def any : Octets := .ascii ['a', 'n', 'y']

def getMatch (args : FieldTable) : Except Thrown Octets :=
  match args.get xMatch with
  | none => .ok []
  | some what =>
    if what.convertsToString then what.getString
    else .error (.internalError
      "Invalid x-match binding format to headers exchange. Must be a string [\"all\" or \"any\"]")

end HeadersExchange

open HeadersExchange

structure Matcher where
  binding : FieldTable
  matched : Nat := 0

namespace Matcher

def valueCheckRequired (m : Matcher) (key : Octets) : Bool × Matcher :=
  match m.binding.get key with
  | none => (false, m)
  | some v => if v.getType = 0xf0 then (false, { m with matched := m.matched + 1 }) else (true, m)

def processString (m : Matcher) (key actual : Octets) : Matcher :=
  let (required, m) := m.valueCheckRequired key
  if required && m.binding.getAsString key = actual then { m with matched := m.matched + 1 } else m

def processFloat (littleEndian : Bool) (m : Matcher) (key : Octets) (actual : FloatValue) : Matcher :=
  let (required, m) := m.valueCheckRequired key
  if required then
    let (bound, binding) := m.binding.getDouble littleEndian key
    let m := { m with binding }
    match bound with
    | some bound => if (FloatValue.double bound).eq actual then { m with matched := m.matched + 1 } else m
    | none => m
  else m

def processInt (m : Matcher) (key : Octets) (actual : BitVec 64) : Matcher :=
  let (required, m) := m.valueCheckRequired key
  if required && m.binding.getAsInt64 key = actual then { m with matched := m.matched + 1 } else m

def processUint (m : Matcher) (key : Octets) (actual : BitVec 64) : Matcher :=
  let (required, m) := m.valueCheckRequired key
  if required && m.binding.getAsUInt64 key = actual then { m with matched := m.matched + 1 } else m

/-- The callbacks. A narrower integer is widened by its own sign; a single is
the same number as a double. -/
def handle (littleEndian : Bool) (m : Matcher) (key : Octets) : Scalar → Matcher
  | .void => (m.valueCheckRequired key).2
  | .bool b => m.processUint key (if b then 1 else 0)
  | .uint8 v => m.processUint key (v.setWidth 64)
  | .uint16 v => m.processUint key (v.setWidth 64)
  | .uint32 v => m.processUint key (v.setWidth 64)
  | .uint64 v => m.processUint key v
  | .int8 v => m.processInt key (v.signExtend 64)
  | .int16 v => m.processInt key (v.signExtend 64)
  | .int32 v => m.processInt key (v.signExtend 64)
  | .int64 v => m.processInt key v
  | .float v => m.processFloat littleEndian key (.single v)
  | .double v => m.processFloat littleEndian key (.double v)
  | .string v => m.processString key v

end Matcher

end QB.Impl
