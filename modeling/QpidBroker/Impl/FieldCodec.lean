import QpidBroker.Framework.SortedMap
import QpidBroker.Impl.Buffer

/-!
# Field values on the wire

`framing/FieldValue.{h,cpp}`, `framing/FieldTable.cpp`, `framing/List.cpp` and
`framing/Array.cpp`: how values are encoded, decoded and compared.

* A `std::map` is a list of its entries, in the order of their keys.
* A table that was decoded or copied is its octets until its entries are needed (`raw`);
  `realDecode` gives the entries. A table that was built holds them (`table`).
* `List::operator==` compares the shared pointers in the lists. The values here are made
  apart from each other, so no pointer of one list is in another.
-/

namespace QB.Impl.Field

open Codec Buffer

/-- `FieldValue`, by the class of its data: `FixedWidthValue`, `VariableWidthValue<lenwidth>`
and the `EncodedValue`s of tables, lists and arrays. -/
inductive Value where
  | fixedWidth (typeOctet : BitVec 8) (octets : Octets)
  | variableWidth (typeOctet : BitVec 8) (lenwidth : Nat) (octets : Octets)
  | table (values : List (Octets × Value))
  | raw (cachedBytes : Octets)
  | list (values : List Value)
  | array (type : BitVec 8) (values : List Value)

abbrev ValueMap := List (Octets × Value)

/-! ## Types -/

/-- The class of the data of a value. -/
inductive DataClass where
  | fixedWidth (width : Nat)
  | variableWidth (lenwidth : Nat)
  | table
  | list
  | array
deriving DecidableEq

/-- The data that `setType(type)` allocates. -/
def setType (type : BitVec 8) : Except CodingError DataClass :=
  if type = 0xa8 then .ok .table
  else if type = 0xa9 then .ok .list
  else if type = 0xaa then .ok .array
  else if type = 0x48 then .ok (.fixedWidth 16)
  else match type.toNat / 16 with
    | 0 => .ok (.fixedWidth 1)
    | 1 => .ok (.fixedWidth 2)
    | 2 => .ok (.fixedWidth 4)
    | 3 => .ok (.fixedWidth 8)
    | 4 => .ok (.fixedWidth 16)
    | 5 => .ok (.fixedWidth 32)
    | 6 => .ok (.fixedWidth 64)
    | 7 => .ok (.fixedWidth 128)
    | 8 => .ok (.variableWidth 1)
    | 9 => .ok (.variableWidth 2)
    | 0xa => .ok (.variableWidth 4)
    | 0xc => .ok (.fixedWidth 5)
    | 0xd => .ok (.fixedWidth 9)
    | 0xf => .ok (.fixedWidth 0)
    | _ => .error (.illegalArgument ("Unknown field table value type: " ++ toString type.toNat))

/-- `encodedSize()` of the data that `setType` allocates. -/
def DataClass.emptySize : DataClass → Nat
  | fixedWidth w => w
  | variableWidth w => w
  | table => 8
  | list => 8
  | array => 9

namespace Value

def getType : Value → BitVec 8
  | fixedWidth t _ => t
  | variableWidth t _ _ => t
  | table _ => 0xa8
  | raw _ => 0xa8
  | list _ => 0xa9
  | array _ _ => 0xaa

/-! ## Encoding -/

mutual
/-- The size of the data, before it is cut to 32 bits. -/
def dataSize : Value → Nat
  | fixedWidth _ o => o.length
  | variableWidth _ w o => w + o.length
  | table es => 8 + entriesSize es
  | raw b => b.length
  | list vs => 8 + valuesSize 1 vs
  | array _ vs => 9 + valuesSize 0 vs

/-- Entries: the length of the key, the key, the type and the data. -/
def entriesSize : List (Octets × Value) → Nat
  | [] => 0
  | (k, v) :: es => 1 + k.length + (1 + dataSize v) + entriesSize es

/-- Values, each with its type if that takes an octet. -/
def valuesSize (typeSize : Nat) : List Value → Nat
  | [] => 0
  | v :: vs => typeSize + dataSize v + valuesSize typeSize vs
end

def encodedSize (v : Value) : BitVec 32 := BitVec.ofNat 32 v.dataSize

mutual
/-- `getData().encode(buffer)`: for the tables, lists and arrays, their own `encode`. -/
def encodeData : Value → Put
  | fixedWidth _ o => putRawData o
  | variableWidth _ w o => do
    putUInt w o.length
    putRawData o
  | table es => do
    putLong (BitVec.ofNat 32 (8 + entriesSize es) - 4)
    putLong (BitVec.ofNat 32 es.length)
    encodeEntries es
  | raw b => putRawData b
  | list vs => do
    putLong (BitVec.ofNat 32 (8 + valuesSize 1 vs) - 4)
    putLong (BitVec.ofNat 32 vs.length)
    encodeValues vs
  | array t vs => do
    putLong (BitVec.ofNat 32 (9 + valuesSize 0 vs) - 4)
    putOctet t
    putLong (BitVec.ofNat 32 vs.length)
    encodeElements vs

def encodeEntries : List (Octets × Value) → Put
  | [] => pure ()
  | (k, v) :: es => do
    putShortString k
    putOctet v.getType
    encodeData v
    encodeEntries es

def encodeValues : List Value → Put
  | [] => pure ()
  | v :: vs => do
    putOctet v.getType
    encodeData v
    encodeValues vs

/-- The values of an array, which are of one type. -/
def encodeElements : List Value → Put
  | [] => pure ()
  | v :: vs => do
    encodeData v
    encodeElements vs
end

/-! ## Decoding -/

/-- `FieldTable::decode(buffer)`: the octets of the table. -/
def decodeTable : Get Octets := fun buffer =>
  if buffer.length < 4 then .error (.illegalArgument "Not enough data for field table.")
  else
    let len := (Octets.word 32 (buffer.take 4)).toNat
    if len ≠ 0 ∧ (buffer.length - 4 < len ∨ buffer.length - 4 < 4) then
      .error (.illegalArgument "Not enough data for field table.")
    else getRawData (len + 4) buffer

/-- So many values, one after the other. -/
def decodeMany (decode : Get Value) : Nat → Get (List Value)
  | 0 => pure []
  | n + 1 => do
    let v ← decode
    let vs ← decodeMany decode n
    return v :: vs

def decodeList (decode : Get Value) : Get Value := do
  let n ← available
  throwIf (n < 4) (.illegalArgument ("Not enough data for list, expected at least  4 bytes but only " ++ toString n ++
    " available"))
  let size ← getLong
  let n ← available
  throwIf (n < size.toNat) (.illegalArgument ("Not enough data for list, expected " ++ toString size.toNat ++
    " bytes but only " ++ toString n ++ " available"))
  if size = 0 then return list []
  else
    throwIf (n < 4) (.illegalArgument ("Not enough data for list, expected at least  4 bytes but only " ++
      toString n ++ " available"))
    let count ← getLong
    list <$> decodeMany decode count.toNat

/-- `Array::decode(buffer)` of a new array; `decode` is that of the data of a type. -/
def decodeArray (decode : BitVec 8 → Get Value) : Get Value := do
  let size ← getLong
  let n ← available
  throwIf (n < size.toNat) (.illegalArgument ("Not enough data for array, expected " ++ toString size.toNat ++
    " bytes but only " ++ toString n ++ " available"))
  if size = 0 then return array 0xf0 []
  else
    let type ← getOctet
    let count ← getLong
    match setType type with
    | .error e => throw e
    | .ok c =>
      let n ← available
      throwIf (n < (count * BitVec.ofNat 32 c.emptySize).toNat) (.illegalArgument (
        "Not enough data for array, expected " ++ toString count.toNat ++ " items of " ++ toString c.emptySize ++
        " bytes each  but only " ++ toString n ++ " bytes available"))
      throwIf (c.emptySize = 0 ∧ 256 < count.toNat) (.illegalArgument (
        "Too many zero length elements in array: " ++ toString count.toNat))
      array type <$> decodeMany (decode type) count.toNat

/-- `getData().decode(buffer)` after `setType(type)`. A value in a list or an array takes
fewer octets than that has, so the nesting is no deeper than there are octets. -/
def decodeData : Nat → BitVec 8 → Get Value
  | 0, _ => throw .pastTheEnd
  | fuel + 1, type =>
    match setType type with
    | .error e => throw e
    | .ok (.fixedWidth w) => fixedWidth type <$> getRawData w
    | .ok (.variableWidth w) => do
      let len ← getUInt w
      variableWidth type w <$> getRawData len
    | .ok .table => raw <$> decodeTable
    | .ok .list => decodeList do
      let t ← getOctet
      decodeData fuel t
    | .ok .array => decodeArray (decodeData fuel)

def decode : Get Value := fun buffer =>
  (do
    let type ← getOctet
    decodeData (buffer.length + 1) type) buffer

/-- The loop of `realDecode`. -/
def realDecodeLoop (leftover : Nat) : Nat → ValueMap → Get ValueMap
  | 0, values => pure values
  | count + 1, values => fun buffer =>
    if leftover < buffer.length then
      (do
        let name ← getShortString
        let value ← decode
        realDecodeLoop leftover count (SortedMap.assign name value values)) buffer
    else .ok (values, buffer)

/-- `realDecode()` of a table with these octets: the entries go into its map. -/
def realDecodeInto (values : ValueMap) (cachedBytes : Octets) : Except CodingError ValueMap :=
  let decoded : Get ValueMap := do
    let len ← getLong
    if len = 0 then return values
    else
      let n ← available
      let count ← getLong
      realDecodeLoop (n - len.toNat) count.toNat values
  (decoded cachedBytes).map Prod.fst

/-- `realDecode()` of a table with no entries yet. -/
def realDecode (cachedBytes : Octets) : Except CodingError ValueMap := realDecodeInto [] cachedBytes

/-! ## Comparison -/

/-- The entries of a table. -/
def entries : Value → Option (Except CodingError ValueMap)
  | table es => some (.ok es)
  | raw b => some (realDecode b)
  | _ => none

/-- The values of one array are equal to those of another. -/
def eqValues (eq : Value → Value → Except CodingError Bool) : List Value → List Value → Except CodingError Bool
  | v :: vs, w :: ws => do
    if ← eq v w then eqValues eq vs ws else return false
  | _, _ => return true

/-- Each entry of one table is in the other. -/
def eqEntries (eq : Value → Value → Except CodingError Bool) (other : ValueMap) :
    ValueMap → Except CodingError Bool
  | [] => return true
  | (k, v) :: es =>
    match other.lookup k with
    | none => return false
    | some w => do
      if ← eq v w then eqEntries eq other es else return false

/-- `FieldTable::operator==`. -/
def eqTables (eq : Value → Value → Except CodingError Bool) (es es' : Except CodingError ValueMap) :
    Except CodingError Bool := do
  let es ← es
  let es' ← es'
  if es.length ≠ es'.length then return false
  else eqEntries eq es' es

/-- `operator==` of the data. -/
def eqData (eq : Value → Value → Except CodingError Bool) (v w : Value) : Except CodingError Bool :=
  match v, w with
  | fixedWidth _ o, fixedWidth _ o' => return o == o'
  | variableWidth _ lw o, variableWidth _ lw' o' => return lw == lw' && o == o'
  | list vs, list ws => return vs.isEmpty && ws.isEmpty
  | array t vs, array t' ws =>
    if t ≠ t' ∨ vs.length ≠ ws.length then return false
    else eqValues eq vs ws
  | v, w =>
    match v.entries, w.entries with
    | some es, some es' => eqTables eq es es'
    | _, _ => return false

/-- `FieldValue::operator==`, to a depth. -/
def eq : Nat → Value → Value → Except CodingError Bool
  | 0, _, _ => .error .pastTheEnd
  | depth + 1, v, w => if v.getType ≠ w.getType then return false else eqData (eq depth) v w

end Value

end QB.Impl.Field
