import Mathlib.Data.BitVec

/-!
# Queue depth

`broker/QueueDepth.{h,cpp}`: a number of messages and an aggregate size, each of
which may be left untracked.
-/

namespace QB.Impl

/-- `QueueDepth::Optional`: the value is 0 while it is not valid. -/
structure Optional (w : Nat) where
  value : BitVec w := 0
  valid : Bool := false
deriving DecidableEq

structure QueueDepth where
  count : Optional 32 := {}
  size : Optional 64 := {}
deriving DecidableEq

namespace QueueDepth

/-- `QueueDepth(c, s)`. -/
def of (c : BitVec 32) (s : BitVec 64) : QueueDepth := ⟨⟨c, true⟩, ⟨s, true⟩⟩

def setCount (d : QueueDepth) (c : BitVec 32) : QueueDepth := { d with count := ⟨c, true⟩ }

def setSize (d : QueueDepth) (s : BitVec 64) : QueueDepth := { d with size := ⟨s, true⟩ }

end QueueDepth

/-- `operator+=` on one component. -/
def Optional.addTo {w : Nat} (a b : Optional w) : Optional w :=
  if a.valid then { a with value := a.value + b.value } else a

/-- `operator-=` on one component. -/
def Optional.subTo {w : Nat} (a b : Optional w) : Optional w :=
  if a.valid then { a with value := a.value - b.value } else a

def Optional.subtract {w : Nat} (a b : Optional w) : Optional w :=
  if a.valid && b.valid then ⟨a.value - b.value, true⟩ else {}

namespace QueueDepth

/-- `operator+=`. -/
def addTo (a b : QueueDepth) : QueueDepth := ⟨a.count.addTo b.count, a.size.addTo b.size⟩

/-- `operator-=`. -/
def subTo (a b : QueueDepth) : QueueDepth := ⟨a.count.subTo b.count, a.size.subTo b.size⟩

/-- `operator-`. -/
def sub (a b : QueueDepth) : QueueDepth := ⟨a.count.subtract b.count, a.size.subtract b.size⟩

/-- `operator<`, which is not a total order. -/
def lt (a b : QueueDepth) : Bool :=
  if a.count.valid && a.size.valid then
    decide (a.count.value < b.count.value) || decide (a.size.value < b.size.value)
  else if a.count.valid then decide (a.count.value < b.count.value)
  else decide (a.size.value < b.size.value)

/-- `operator bool`. -/
def toBool (d : QueueDepth) : Bool := d.count.valid || d.size.valid

end QueueDepth

end QB.Impl
