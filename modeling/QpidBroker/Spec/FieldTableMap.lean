import QpidBroker.Impl.FieldTableCache
import QpidBroker.Spec.FieldCodec

/-!
# Field tables as maps

Operations on any number of tables, made by copying each other in any way, and the same
operations on maps that are decoded at once. `Agree` says when a reply of a table is that
of the map: values are compared by structure, and octets by the map that they decode to.
-/

namespace QB.Spec.Field

open Impl Impl.Field

/-- An operation on the tables with these numbers. `count` is also `size` and `empty`, `set`
any of the functions that set a value, `copy` the copy constructor and the assignment. -/
inductive TableOp where
  | decode (i : Nat) (buffer : Octets)
  | encode (i : Nat)
  | set (i : Nat) (name : Octets) (value : Value)
  | erase (i : Nat) (name : Octets)
  | clear (i : Nat)
  | get (i : Nat) (name : Octets)
  | getFloating (i : Nat) (type : BitVec 8) (name : Octets)
  | count (i : Nat)
  | entries (i : Nat) (isConst : Bool)
  | find (i : Nat) (isConst : Bool) (name : Octets)
  | insert (i : Nat) (name : Octets) (value : Value)
  | copy (i j : Nat)
  | compare (i j : Nat)

/-! ## The tables -/

inductive Reply where
  | done
  | rest (octets : Octets)
  | bytes (octets : Octets)
  | value (v : Option Value)
  | octets (o : Option Octets)
  | number (n : Nat)
  | entries (es : ValueMap)
  | flag (b : Bool)
  | compared (eq : Nat → Except CodingError Bool)

abbrev Tables := Nat → Table

def Tables.on (s : Tables) (i : Nat) (x : Except CodingError (Reply × Table)) : Except CodingError (Reply × Tables) :=
  x.map fun r => (r.1, Function.update s i r.2)

def Tables.step (littleEndian : Bool) (s : Tables) : TableOp → Except CodingError (Reply × Tables)
  | .decode i buffer => s.on i (((s i).decode buffer).map fun r => (.rest r.2, r.1))
  | .encode i => s.on i ((s i).encode.map fun r => (.bytes r.1, r.2))
  | .set i name value => s.on i (((s i).set name value).map fun t => (.done, t))
  | .erase i name => s.on i (((s i).erase name).map fun t => (.done, t))
  | .clear i => s.on i (.ok (.done, (s i).clear))
  | .get i name => s.on i (((s i).get name).map fun r => (.value r.1, r.2))
  | .getFloating i type name => s.on i (((s i).getFloating littleEndian type name).map fun r => (.octets r.1, r.2))
  | .count i => .ok (.number (s i).count, s)
  | .entries i isConst => s.on i (((s i).entries isConst).map fun r => (.entries r.1, r.2))
  | .find i isConst name => s.on i (((s i).find isConst name).map fun r => (.value r.1, r.2))
  | .insert i name value => s.on i (((s i).insert name value).map fun r => (.flag r.1, r.2))
  | .copy i j => (s i).copy.map fun r => (.done, Function.update (Function.update s i r.2) j r.1)
  | .compare i j => ((s i).compare (s j)).map fun r =>
      (.compared r.1, Function.update (Function.update s i r.2.1) j r.2.2)

/-! ## The maps -/

inductive MapReply where
  | done
  | rest (octets : Octets)
  | table (m : ValueMap)
  | value (v : Option Value)
  | octets (o : Option Octets)
  | number (n : Nat)
  | entries (es : ValueMap)
  | flag (b : Bool)
  | compared (same : Prop)

abbrev Maps := Nat → ValueMap

/-- The octets of a value of this type. -/
def floatingOctets (type : BitVec 8) : Option Value → Option Octets
  | some (.fixedWidth ty o) => if ty = type then some o else none
  | _ => none

def Maps.step (m : Maps) : TableOp → Except CodingError (MapReply × Maps)
  | .decode i buffer => Value.decodeTable buffer >>= fun r =>
      (Value.realDecode r.1).map fun es => (.rest r.2, Function.update m i es)
  | .encode i => .ok (.table (m i), m)
  | .set i name value => .ok (.done, Function.update m i (SortedMap.assign name value (m i)))
  | .erase i name => .ok (.done, Function.update m i ((m i).filter (·.1 ≠ name)))
  | .clear i => .ok (.done, Function.update m i [])
  | .get i name => .ok (.value ((m i).lookup name), m)
  | .getFloating i type name => .ok (.octets (floatingOctets type ((m i).lookup name)), m)
  | .count i => .ok (.number (m i).length, m)
  | .entries i _ => .ok (.entries (m i), m)
  | .find i _ name => .ok (.value ((m i).lookup name), m)
  | .insert i name value =>
    if ((m i).lookup name).isSome then .ok (.flag false, m)
    else .ok (.flag true, Function.update m i (SortedMap.assign name value (m i)))
  | .copy i j => .ok (.done, Function.update m j (m i))
  | .compare i j => .ok (.compared (Same (.table (m i)) (.table (m j))), m)

/-! ## Agreement -/

/-- The reply of a table is that of the map. -/
inductive Agree : Except CodingError Reply → Except CodingError MapReply → Prop where
  | error (e : CodingError) : Agree (.error e) (.error e)
  | done : Agree (.ok .done) (.ok .done)
  | rest (o : Octets) : Agree (.ok (.rest o)) (.ok (.rest o))
  /-- The octets decode to the map, all of them. -/
  | bytes {o : Octets} {m : ValueMap} (hall : Value.decodeTable o = .ok (o, [])) (hsame : Same (.table m) (.raw o)) :
      Agree (.ok (.bytes o)) (.ok (.table m))
  | noValue : Agree (.ok (.value none)) (.ok (.value none))
  | value {v w : Value} (h : Same w v) : Agree (.ok (.value (some v))) (.ok (.value (some w)))
  | octets (o : Option Octets) : Agree (.ok (.octets o)) (.ok (.octets o))
  | number (n : Nat) : Agree (.ok (.number n)) (.ok (.number n))
  | entries {es m : ValueMap} (h : Same (.table m) (.table es)) : Agree (.ok (.entries es)) (.ok (.entries m))
  | flag (b : Bool) : Agree (.ok (.flag b)) (.ok (.flag b))
  /-- The comparison ends, if it may go deep enough. -/
  | compared {eq : Nat → Except CodingError Bool} {same : Prop} {b : Bool} {n : Nat}
      (h : ∀ depth, n ≤ depth → eq depth = .ok b) (hb : b = true ↔ same) :
      Agree (.ok (.compared eq)) (.ok (.compared same))

/-- The tables, the maps, and what they do on an operation; a table whose operation fails
stays as it was. -/
structure Both where
  tables : Tables
  maps : Maps

def Both.step (littleEndian : Bool) (s : Both) (op : TableOp) : Option Both :=
  some ⟨match s.tables.step littleEndian op with | .ok r => r.2 | .error _ => s.tables,
    match s.maps.step op with | .ok r => r.2 | .error _ => s.maps⟩

/-- What the operation puts into a table can be encoded, and what it asks for is not left
open: the number of entries of a table whose octets are yet to be decoded, floating-point
numbers on a host with the other byte order, and the equality of lists with values in
them. -/
def Both.Ok (littleEndian : Bool) (s : Both) : TableOp → Prop
  | .decode _ buffer => ∀ b rest, Value.decodeTable buffer = .ok (b, rest) →
      ∃ es, Value.realDecode b = .ok es ∧ Fits (.table es) ∧ Value.dataSize (.table es) < 2 ^ 32
  | .set i name value | .insert i name value => name.length ≤ 255 ∧ Fits value ∧
      Value.dataSize (.table (SortedMap.assign name value (s.maps i))) < 2 ^ 32
  | .getFloating _ _ _ => littleEndian = false
  | .count i => (s.tables i).newBytes = false
  | .compare i j => ListFree (.table (s.maps i)) ∧ ListFree (.table (s.maps j))
  | _ => True

def Both.start : Both := ⟨fun _ => {}, fun _ => []⟩

end QB.Spec.Field
