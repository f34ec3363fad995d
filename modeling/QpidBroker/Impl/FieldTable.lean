import Mathlib.Data.List.Basic
import QpidBroker.Framework.Octets

/-!
# Field values and field tables

`framing/FieldValue.{h,cpp}`, `framing/FieldTable.cpp`, and the translation of
a field value into a variant, `amqp_0_10/Codecs.cpp`.

* A `std::string` is a list of octets.
* A `std::map` is a list of its entries, in the order of their keys.
* Left out: the encoded form of a table that is decoded on first use, and the
  encoding that a variant names for its text, which no modelled function reads.
-/

namespace QB.Impl

/-- The exceptions of the modelled functions: `InvalidConversionException` and
`InternalErrorException`. -/
inductive Thrown where
  | invalidConversion
  | internalError (msg : String)
deriving DecidableEq

/-- A value that a `MapHandler` is called with: the constructors are its
callbacks. Floating-point numbers are their patterns. -/
inductive Scalar where
  | void
  | bool (b : Bool)
  | uint8 (v : BitVec 8)
  | uint16 (v : BitVec 16)
  | uint32 (v : BitVec 32)
  | uint64 (v : BitVec 64)
  | int8 (v : BitVec 8)
  | int16 (v : BitVec 16)
  | int32 (v : BitVec 32)
  | int64 (v : BitVec 64)
  | float (v : BitVec 32)
  | double (v : BitVec 64)
  | string (v : Octets)
deriving DecidableEq

inductive Variant where
  | scalar (v : Scalar)
  | uuid (octets : Octets)
  | map (entries : List (Octets × Variant))
  | list (values : List Variant)

/-- `FieldValue`, by the class of its data: `FixedWidthValue<W>` of `W` octets,
`UuidData`, `VariableWidthValue` and the `EncodedValue`s, whose type octets are
fixed. -/
inductive FieldValue where
  | fixedWidth (typeOctet : BitVec 8) (octets : Octets)
  | uuid (octets : Octets)
  | variableWidth (typeOctet : BitVec 8) (octets : Octets)
  | table (values : List (Octets × FieldValue))
  | list (values : List FieldValue)
  | array (values : List FieldValue)

namespace FieldValue

def getType : FieldValue → BitVec 8
  | fixedWidth t _ => t
  | uuid _ => 0x48
  | variableWidth t _ => t
  | table _ => 0xa8
  | list _ => 0xa9
  | array _ => 0xaa

/-- The width of the fixed-width data that `setType` allocates. -/
def width (typeOctet : BitVec 8) : Option Nat :=
  match typeOctet.toNat / 16 with
  | 0 => some 1
  | 1 => some 2
  | 2 => some 4
  | 3 => some 8
  | 4 => if typeOctet = 0x48 then none else some 16
  | 5 => some 32
  | 6 => some 64
  | 7 => some 128
  | 0xc => some 5
  | 0xd => some 9
  | 0xf => some 0
  | _ => none

/-- The width of the length of the variable-width data that `setType` allocates. -/
def lengthWidth (typeOctet : BitVec 8) : Option Nat :=
  if typeOctet = 0xa8 ∨ typeOctet = 0xa9 ∨ typeOctet = 0xaa then none
  else match typeOctet.toNat / 16 with
    | 8 => some 1
    | 9 => some 2
    | 0xa => some 4
    | _ => none

mutual
/-- The data is of the class that `setType` allocates for the type octet. -/
def Fits : FieldValue → Prop
  | fixedWidth t o => width t = some o.length
  | uuid o => o.length = 16
  | variableWidth t o => ∃ w, lengthWidth t = some w ∧ o.length < 256 ^ w
  | table es => FitEntries es
  | list vs => FitAll vs
  | array vs => FitAll vs

def FitEntries : List (Octets × FieldValue) → Prop
  | [] => True
  | (_, v) :: es => v.Fits ∧ FitEntries es

def FitAll : List FieldValue → Prop
  | [] => True
  | v :: vs => v.Fits ∧ FitAll vs
end

/-- `get<int64_t>()`: the octets are not sign-extended. -/
def getInt : FieldValue → Except Thrown (BitVec 64)
  | fixedWidth _ o => if o.isEmpty then .error .invalidConversion else .ok (o.word 64)
  | uuid o => .ok (o.word 64)
  | _ => .error .invalidConversion

/-- Lower-case hexadecimal digit. -/
def hexDigit (n : Nat) : BitVec 8 := BitVec.ofNat 8 (if n < 10 then 0x30 + n else 0x57 + n)

/-- `Uuid::str()`: groups of 4, 2, 2, 2 and 6 octets. -/
def uuidText (o : Octets) : Octets :=
  let hex (l : Octets) : Octets := l.flatMap fun b => [hexDigit (b.toNat / 16), hexDigit (b.toNat % 16)]
  hex (o.take 4) ++ [0x2d] ++ hex ((o.drop 4).take 2) ++ [0x2d] ++ hex ((o.drop 6).take 2) ++ [0x2d]
    ++ hex ((o.drop 8).take 2) ++ [0x2d] ++ hex (o.drop 10)

def convertsToString : FieldValue → Bool
  | uuid _ => true
  | variableWidth _ _ => true
  | _ => false

def getString : FieldValue → Except Thrown Octets
  | uuid o => .ok (uuidText o)
  | variableWidth _ o => .ok o
  | _ => .error .invalidConversion

/-- `getIntegerValue<T, W>()`, `T` of `n` bits. -/
def getIntegerValue (n w : Nat) : FieldValue → Except Thrown (BitVec n)
  | fixedWidth _ o => if o.length = w then .ok (o.word n) else .error .invalidConversion
  | uuid o => if o.length = w then .ok (o.word n) else .error .invalidConversion
  | _ => .error .invalidConversion

/-- The octets after `getFloatingPointValue`, which converts them in place on
a host with the other byte order. -/
def converted (littleEndian : Bool) : FieldValue → FieldValue
  | fixedWidth t o => fixedWidth t (if littleEndian then o.reverse else o)
  | v => v

theorem Fits.converted {v : FieldValue} (h : v.Fits) (littleEndian : Bool) : (v.converted littleEndian).Fits := by
  cases v with
  | fixedWidth t o =>
    simp only [FieldValue.converted, Fits] at h ⊢
    cases littleEndian <;> simpa using h
  | _ => exact h

/-- The type octets of texts. -/
def textTypes : List (BitVec 8) := [0x80, 0x84, 0x85, 0x86, 0x90, 0x94, 0x95, 0x96, 0xa0, 0xab]

/-- `toVariant(in)` for a type octet whose variant is a scalar. `get<float>()`
and `get<double>()` read the octets as an integer is read. -/
def toScalar (v : FieldValue) : Except Thrown Scalar :=
  match v.getType.toNat with
  | 0x00 | 0x01 => return .int8 (← v.getIntegerValue 8 1)
  | 0x02 => return .uint8 (← v.getIntegerValue 8 1)
  | 0x08 => return .bool ((← v.getIntegerValue 8 1) != 0)
  | 0x10 | 0x11 => return .int16 (← v.getIntegerValue 16 2)
  | 0x12 => return .uint16 (← v.getIntegerValue 16 2)
  | 0x20 | 0x21 => return .int32 (← v.getIntegerValue 32 4)
  | 0x22 => return .uint32 (← v.getIntegerValue 32 4)
  | 0x23 => return .float (← v.getIntegerValue 32 4)
  | 0x30 | 0x31 => return .int64 (← v.getIntegerValue 64 8)
  | 0x32 | 0x38 => return .uint64 (← v.getIntegerValue 64 8)
  | 0x33 => return .double (← v.getIntegerValue 64 8)
  | _ => if v.getType ∈ textTypes then return .string (← v.getString) else return .void

mutual
def toVariant : FieldValue → Except Thrown Variant
  | table es => do return .map (← toVariantMap es)
  | list vs => do return .list (← toVariantList vs)
  | array vs => do return .list (← toVariantList vs)
  | uuid o => if o.length = 16 then .ok (.uuid o) else .error .invalidConversion
  | fixedWidth t o => do return .scalar (← toScalar (fixedWidth t o))
  | variableWidth t o => do return .scalar (← toScalar (variableWidth t o))

def toVariantMap : List (Octets × FieldValue) → Except Thrown (List (Octets × Variant))
  | [] => .ok []
  | (k, v) :: es => do return (k, ← toVariant v) :: (← toVariantMap es)

def toVariantList : List FieldValue → Except Thrown (List Variant)
  | [] => .ok []
  | v :: vs => do return (← toVariant v) :: (← toVariantList vs)
end

end FieldValue

/-- `FieldTable`, its keys in order and each value of its type's class. -/
structure FieldTable where
  values : List (Octets × FieldValue)
  sorted : (values.map Prod.fst).Pairwise (· < ·)
  fits : ∀ e ∈ values, e.2.Fits

namespace FieldTable

def size (t : FieldTable) : Nat := t.values.length

def get (t : FieldTable) (name : Octets) : Option FieldValue := t.values.lookup name

/-- `getAsString(name)`: the default, an empty text, if it does not convert. -/
def getAsString (t : FieldTable) (name : Octets) : Octets :=
  match (t.get name).map FieldValue.getString with
  | some (.ok s) => s
  | _ => []

/-- `getAsInt64(name)`: the default, zero, if it does not convert. -/
def getAsInt64 (t : FieldTable) (name : Octets) : BitVec 64 :=
  match (t.get name).map FieldValue.getInt with
  | some (.ok i) => i
  | _ => 0

/-- `getAsUInt64(name)`: the cast keeps the bits. -/
def getAsUInt64 (t : FieldTable) (name : Octets) : BitVec 64 := t.getAsInt64 name

/-- The value of a name after its octets were converted in place. -/
def convert (littleEndian : Bool) (t : FieldTable) (name : Octets) : FieldTable where
  values := t.values.map fun e => if e.1 = name then (e.1, e.2.converted littleEndian) else e
  sorted := by
    have : (t.values.map fun e => if e.1 = name then (e.1, e.2.converted littleEndian) else e).map Prod.fst =
        t.values.map Prod.fst := by
      rw [List.map_map]
      refine List.map_congr_left fun e _ => ?_
      simp only [Function.comp_apply]
      split <;> rfl
    rw [this]
    exact t.sorted
  fits := by
    intro e he
    obtain ⟨a, ha, rfl⟩ := List.mem_map.1 he
    split
    · exact (t.fits a ha).converted littleEndian
    · exact t.fits a ha

/-- `getDouble(name, value)`: the value, if it is of type double, and the table
with its octets as the conversion leaves them. -/
def getDouble (littleEndian : Bool) (t : FieldTable) (name : Octets) : Option (BitVec 64) × FieldTable :=
  match t.get name with
  | some (.fixedWidth ty o) =>
    if ty = 0x33 then (some (o.word 64), t.convert littleEndian name) else (none, t)
  | _ => (none, t)

end FieldTable

end QB.Impl
