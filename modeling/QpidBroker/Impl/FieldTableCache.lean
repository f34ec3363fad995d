import QpidBroker.Impl.FieldCodec

/-!
# Field tables and their cached octets

`framing/FieldTable.{h,cpp}`: a table is its octets (`cachedBytes`), a map (`values`), or
both; `newBytes` says that the octets are yet to be decoded.

* Copies of a table share its octets, which are not changed once they are there.
* The functions that the source declares `const` change the table too: the members are
  mutable. What a function that throws leaves behind is not modelled.
* `getFloat` and `getDouble` convert the octets of the value in place, on a host with the
  other byte order.
-/

namespace QB.Impl.Field

open Codec Buffer

structure Table where
  values : ValueMap := []
  cachedBytes : Option Octets := none
  cachedSize : Nat := 0
  newBytes : Bool := false

namespace Table

/-! ## The cache -/

def realDecode (t : Table) : Except CodingError Table :=
  if t.newBytes then
    (Value.realDecodeInto t.values (t.cachedBytes.getD [])).map fun es => { t with values := es, newBytes := false }
  else .ok t

def flushRawCache (t : Table) : Table := { t with cachedBytes := none, cachedSize := 0 }

/-- `encodedSize()`: the size is kept. -/
def encodedSize (t : Table) : Nat × Table :=
  if t.cachedSize ≠ 0 then (t.cachedSize, t)
  else
    let len := (8 + Value.entriesSize t.values) % 2 ^ 32
    (len, { t with cachedSize := len })

/-- The octets of the map, written to a buffer of so many octets. -/
def encodeValues (t : Table) (size : Nat) : Except CodingError Octets :=
  (Value.encodeData (.table t.values) ⟨[], size⟩).map fun r => r.2.written

/-- `encodedSize()`, and `encode(buffer)` to a buffer of that size. -/
def encode (t : Table) : Except CodingError (Octets × Table) :=
  match t.cachedBytes with
  | some b => .ok (b.take t.cachedSize, t)
  | none => (t.encodedSize.2.encodeValues t.encodedSize.1).map fun o => (o, t.encodedSize.2)

def decode (_ : Table) : Get Table := fun buffer =>
  (Value.decodeTable buffer).map fun r => (⟨[], some r.1, r.1.length, true⟩, r.2)

/-- The copy constructor: the copy, and the table that is copied. -/
def copy (ft : Table) : Except CodingError (Table × Table) :=
  match ft.cachedBytes with
  | some b => .ok (⟨[], some b, ft.cachedSize, true⟩, ft)
  | none =>
    if ft.values.isEmpty then .ok (⟨[], none, ft.cachedSize, ft.newBytes⟩, ft)
    else
      (ft.encodedSize.2.encodeValues ft.encodedSize.1).map fun o =>
        (⟨[], some o, ft.encodedSize.1, true⟩, { ft.encodedSize.2 with cachedBytes := some o })

/-! ## The map -/

def count (t : Table) : Nat := t.values.length

/-- `set(name, value)`; `setString` and the others set a value that they make. -/
def set (name : Octets) (value : Value) (t : Table) : Except CodingError Table :=
  t.realDecode.map fun t => flushRawCache { t with values := SortedMap.assign name value t.values }

/-- `get(name)`; `getAsString` and the others return what the value converts to. -/
def get (name : Octets) (t : Table) : Except CodingError (Option Value × Table) :=
  t.realDecode.map fun t => (t.values.lookup name, t)

/-- `getFloat(name, value)` and `getDouble(name, value)`, for values of this type. -/
def getFloating (littleEndian : Bool) (type : BitVec 8) (name : Octets) (t : Table) :
    Except CodingError (Option Octets × Table) :=
  t.realDecode.map fun t =>
    match t.values.lookup name with
    | some (.fixedWidth ty o) =>
      if ty = type then
        (some o,
          if littleEndian then { t with values := SortedMap.assign name (.fixedWidth ty o.reverse) t.values } else t)
      else (none, t)
    | _ => (none, t)

def erase (name : Octets) (t : Table) : Except CodingError Table :=
  t.realDecode.map fun t =>
    if (t.values.lookup name).isSome then flushRawCache { t with values := t.values.filter (·.1 ≠ name) } else t

def clear (t : Table) : Table := flushRawCache { t with values := [], newBytes := false }

/-- From `begin()` to `end()`: the entries. Iterators to a table that is not `const` flush
its cache. -/
def entries (isConst : Bool) (t : Table) : Except CodingError (ValueMap × Table) :=
  t.realDecode.map fun t => (t.values, if isConst then t else t.flushRawCache)

/-- `find(name)`: the value, if it is there. -/
def find (isConst : Bool) (name : Octets) (t : Table) : Except CodingError (Option Value × Table) :=
  t.realDecode.map fun t => (t.values.lookup name, if isConst then t else t.flushRawCache)

/-- `insert(value)`: whether it was not there yet. -/
def insert (name : Octets) (value : Value) (t : Table) : Except CodingError (Bool × Table) :=
  t.realDecode.map fun t =>
    if (t.values.lookup name).isSome then (false, t.flushRawCache)
    else (true, flushRawCache { t with values := SortedMap.assign name value t.values })

/-- `operator==`, with the depth of the comparison as `FieldValue::operator==` has it, and the
two tables. -/
def compare (t u : Table) : Except CodingError ((Nat → Except CodingError Bool) × Table × Table) := do
  let t ← t.realDecode
  let u ← u.realDecode
  return (fun depth => Value.eqTables (Value.eq depth) (.ok t.values) (.ok u.values), t, u)

end Table

end QB.Impl.Field
