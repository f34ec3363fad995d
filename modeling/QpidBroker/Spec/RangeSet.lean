import QpidBroker.Framework.Octets
import QpidBroker.Framework.Serial
import QpidBroker.Impl.RangeSet
import Mathlib.Data.Set.Basic

/-!
# What sets of ranges stand for

The mathematical sets of sequence numbers that the operations compute, and what it means
that the numbers of an operation lie within one half of the number space.
-/

namespace QB.Spec

open QB.Impl

/-- The numbers of a range: those on the way from its begin up to its end. -/
def rangeNumbers (r : Range SequenceNumber) : Set SequenceNumber :=
  {x | Serial.dist r.begin_ x < Serial.dist r.begin_ r.end_}

def numbersStep (σ : Nat → Set SequenceNumber) : RangeSetOp SequenceNumber → Nat → Set SequenceNumber
  | .addRange k r => fun i => if i = k then σ k ∪ rangeNumbers r else σ i
  | .removeRange k r => fun i => if i = k then σ k \ rangeNumbers r else σ i
  | .add k t => fun i => if i = k then σ k ∪ {t} else σ i
  | .remove k t => fun i => if i = k then σ k \ {t} else σ i
  | .addSet k m => fun i => if i = k then σ k ∪ σ m else σ i
  | .removeSet k m => fun i => if i = k then σ k \ σ m else σ i

/-- The sets that the operations compute. -/
def numbers (ops : List (RangeSetOp SequenceNumber)) : Nat → Set SequenceNumber := ops.foldl numbersStep fun _ => ∅

/-- The range does not go backwards, and it lies with its end in the half of the number space
that starts at `b`. -/
def RangeWithin (b : SequenceNumber) (r : Range SequenceNumber) : Prop :=
  Serial.dist b r.begin_ ≤ Serial.dist b r.end_ ∧ Serial.dist b r.end_ < 2 ^ 31

/-- The numbers of the operation, with the ends of its ranges, lie in the half of the number
space that starts at `b`; and no set is removed from itself. -/
def OpWithin (b : SequenceNumber) : RangeSetOp SequenceNumber → Prop
  | .addRange _ r | .removeRange _ r => RangeWithin b r
  | .add _ t | .remove _ t => Serial.dist b t + 1 < 2 ^ 31
  | .addSet _ _ => True
  | .removeSet k m => k ≠ m

/-! ## On the wire -/

/-- The number of octets that the first two say will follow. -/
def declaredSize (o : Octets) : Nat := Octets.toNat (o.take 2)

/-- The octets start with the two numbers of a range that are as far apart as two numbers in
one half can be. -/
def SpansHalf (o : Octets) : Prop :=
  let x := Octets.word 32 (o.take 4)
  let y := Octets.word 32 ((o.drop 4).take 4)
  Serial.dist x y = 2 ^ 31 - 1 ∨ Serial.dist y x = 2 ^ 31 - 1

end QB.Spec
