import QpidBroker.Impl.FieldCodec

/-!
# Values that survive the wire

* `Fits`: the values that the encoding can carry: of the class that belongs to their type,
  each text within the width of its length, each array within what `Array::decode` accepts.
* `Same`: values of the same structure.
* `ListFree`: values without a list that is not empty, at any depth.
-/

namespace QB.Spec.Field

open Impl Impl.Field Value

/-- What can be encoded and decoded. -/
inductive Fits : Value → Prop where
  | fixedWidth {t : BitVec 8} {o : Octets} (htype : setType t = .ok (.fixedWidth o.length)) : Fits (.fixedWidth t o)
  | variableWidth {t : BitVec 8} {w : Nat} {o : Octets} (htype : setType t = .ok (.variableWidth w))
      (hlen : o.length < 256 ^ w) : Fits (.variableWidth t w o)
  | table {es : ValueMap} (hsorted : SortedMap.Sorted es) (hkeys : ∀ e ∈ es, e.1.length ≤ 255)
      (hvalues : ∀ e ∈ es, Fits e.2) : Fits (.table es)
  /-- The octets of a table are those that it declares, and make up entries. -/
  | raw {b : Octets} {es : ValueMap} (hlen : b.length = (Octets.word 32 (b.take 4)).toNat + 4)
      (hdecode : realDecode b = .ok es) (hvalues : ∀ e ∈ es, Fits e.2) : Fits (.raw b)
  | list {vs : List Value} (hvalues : ∀ v ∈ vs, Fits v) : Fits (.list vs)
  /-- The values of an array are of its type. At most 256 may take no octets, and none takes
  fewer than an empty one: a table that came as four octets would. -/
  | array {t : BitVec 8} {c : DataClass} {vs : List Value} (htype : setType t = .ok c)
      (htypes : ∀ v ∈ vs, v.getType = t) (hzero : c.emptySize = 0 → vs.length ≤ 256)
      (hsize : ∀ v ∈ vs, c.emptySize ≤ v.dataSize) (hvalues : ∀ v ∈ vs, Fits v) : Fits (.array t vs)

/-- The same structure: types, octets, keys, and values in their order. -/
inductive Same : Value → Value → Prop where
  | fixedWidth (t : BitVec 8) (o : Octets) : Same (.fixedWidth t o) (.fixedWidth t o)
  | variableWidth (t : BitVec 8) (w : Nat) (o : Octets) : Same (.variableWidth t w o) (.variableWidth t w o)
  | table {v w : Value} {es es' : ValueMap} (hv : v.entries = some (.ok es)) (hw : w.entries = some (.ok es'))
      (hkeys : es.map Prod.fst = es'.map Prod.fst) (hvalues : ∀ p ∈ es.zip es', Same p.1.2 p.2.2) : Same v w
  | list {vs ws : List Value} (hlen : vs.length = ws.length) (hvalues : ∀ p ∈ vs.zip ws, Same p.1 p.2) :
      Same (.list vs) (.list ws)
  | array {t : BitVec 8} {vs ws : List Value} (hlen : vs.length = ws.length)
      (hvalues : ∀ p ∈ vs.zip ws, Same p.1 p.2) : Same (.array t vs) (.array t ws)

/-- No list with values in it. -/
inductive ListFree : Value → Prop where
  | fixedWidth (t : BitVec 8) (o : Octets) : ListFree (.fixedWidth t o)
  | variableWidth (t : BitVec 8) (w : Nat) (o : Octets) : ListFree (.variableWidth t w o)
  | table {v : Value} {es : ValueMap} (hv : v.entries = some (.ok es)) (hvalues : ∀ e ∈ es, ListFree e.2) :
      ListFree v
  | list : ListFree (.list [])
  | array {t : BitVec 8} {vs : List Value} (hvalues : ∀ v ∈ vs, ListFree v) : ListFree (.array t vs)

/-- `==` gives this result, if it may go as deep as the values do. -/
def Compares (v w : Value) (b : Bool) : Prop := ∃ n, ∀ depth, n ≤ depth → Value.eq depth v w = .ok b

end QB.Spec.Field
