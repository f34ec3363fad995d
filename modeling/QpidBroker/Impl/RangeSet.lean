import QpidBroker.Framework.Bisect
import QpidBroker.Impl.Message

/-!
# Sets of ranges

`qpid/RangeSet.h`: a set of values as a sorted list of ranges.

* The code is generic: `RangeValue` is what it needs of its values.
* What would read through an iterator at the end of the list fails, with `none`; so does
  `makeClosed` where the constructor's assertion fails. The others that are made or merged
  need no check: `removeRange` and `addRange` have just compared their ends.
-/

namespace QB.Impl

/-- The operations on values: `<`, `++`, `--`, and the difference, which is an `int32_t`. -/
class RangeValue (T : Type) where
  lt : T → T → Bool
  next : T → T
  prev : T → T
  sub : T → T → BitVec 32

instance : RangeValue SequenceNumber where
  lt := SequenceNumber.lt
  next n := n + 1
  prev n := n - 1
  sub a b := a - b

namespace RangeValue

variable {T : Type} [RangeValue T]

def le (a b : T) : Bool := !lt b a

def min (a b : T) : T := if lt b a then b else a

def max (a b : T) : T := if lt a b then b else a

end RangeValue

open RangeValue

/-- `Range`: from `begin_` up to, and without, `end_`. -/
structure Range (T : Type) where
  begin_ : T
  end_ : T
deriving DecidableEq

namespace Range

variable {T : Type} [RangeValue T]

/-- `Range(t)`. -/
def point (t : T) : Range T := ⟨t, next t⟩

/-- `Range(first, ++last)`, which asserts that it does not go backwards. -/
def makeClosed (first last : T) : Option (Range T) :=
  if le first (next last) then some ⟨first, next last⟩ else none

/-- The last value of the range. -/
def last (r : Range T) : T := prev r.end_

/-- The difference as a `size_t`. -/
def size (r : Range T) : BitVec 64 := (sub r.end_ r.begin_).signExtend 64

def empty [DecidableEq T] (r : Range T) : Bool := r.begin_ = r.end_

def contains (r : Range T) (x : T) : Bool := le r.begin_ x && lt x r.end_

/-- `contains` of a range. -/
def containsRange (r s : Range T) : Bool := le r.begin_ s.begin_ && le s.end_ r.end_

def strictContains (r s : Range T) : Bool := lt r.begin_ s.begin_ && lt s.end_ r.end_

/-- `operator<` of ranges. -/
def lt (r s : Range T) : Bool := RangeValue.lt r.end_ s.begin_

/-- Touching ranges can be merged into a single range. -/
def touching (r s : Range T) : Bool := le (max r.begin_ s.begin_) (min r.end_ s.end_)

def merge (r s : Range T) : Range T := ⟨min r.begin_ s.begin_, max r.end_ s.end_⟩

end Range

structure RangeSet (T : Type) where
  ranges : List (Range T) := []
deriving DecidableEq

namespace RangeSet

variable {T : Type} [RangeValue T] [DecidableEq T] (s : RangeSet T)

/-- `std::lower_bound(ranges.begin(), ranges.end(), r)`. -/
def find (r : Range T) : Nat := lowerBound (·.lt r) s.ranges

def contains (t : T) : Option Bool :=
  let i := s.find (.point t)
  if i = s.ranges.length then some false else (s.ranges[i]?).map (·.contains t)

/-- The ranges that are merged into `x`, one after the other, while they touch it; with those
that are left. -/
def mergeLoop (x : Range T) : List (Range T) → Range T × List (Range T)
  | [] => (x, [])
  | y :: ys => if x.touching y then mergeLoop (x.merge y) ys else (x, y :: ys)

def addRange (r : Range T) : Option (RangeSet T) :=
  if r.empty then some s
  else
    let i := s.find r
    if i = s.ranges.length then some ⟨s.ranges ++ [r]⟩
    else (s.ranges[i]?).map fun x =>
      if !x.touching r then ⟨s.ranges.take i ++ r :: s.ranges.drop i⟩ -- no overlap
      else
        let (x, rest) := mergeLoop (x.merge r) (s.ranges.drop (i + 1))
        ⟨s.ranges.take i ++ x :: rest⟩

/-- The end of `removeRange`: from `i` on, the ranges in `r` are erased, and one that starts in
`r` is truncated. -/
def eraseFrom (r : Range T) (ranges : List (Range T)) (i : Nat) : Option (List (Range T)) :=
  let j := i + ((ranges.drop i).takeWhile (r.containsRange ·)).length
  if j = ranges.length then some (ranges.take i)
  else (ranges[j]?).map fun y =>
    let y := if RangeValue.lt y.begin_ r.end_ then { y with begin_ := r.end_ } else y
    ranges.take i ++ y :: ranges.drop (j + 1)

def removeRange (r : Range T) : Option (RangeSet T) :=
  if r.empty then some s
  else
    let i := s.find r
    if i = s.ranges.length then some s
    else (s.ranges[i]?).bind fun x =>
      if le r.end_ x.begin_ then some s -- outside of set
      else if x = r then some ⟨s.ranges.eraseIdx i⟩
      else if x.strictContains r then
        some ⟨s.ranges.take i ++ ⟨x.begin_, r.begin_⟩ :: ⟨r.end_, x.end_⟩ :: s.ranges.drop (i + 1)⟩
      else if RangeValue.lt x.begin_ r.begin_ then
        (eraseFrom r (s.ranges.set i { x with end_ := r.begin_ }) (i + 1)).map (⟨·⟩)
      else (eraseFrom r s.ranges i).map (⟨·⟩)

/-- `std::for_each` over the ranges of another set. -/
def forEach (f : RangeSet T → Range T → Option (RangeSet T)) : List (Range T) → RangeSet T → Option (RangeSet T)
  | [], s => some s
  | r :: rs, s => (f s r).bind (forEach f rs)

/-- `std::for_each` over the ranges of the set itself, which `f` changes: `n` ranges are left,
and the next is at `i`. -/
def forEachSelf (f : RangeSet T → Range T → Option (RangeSet T)) :
    Nat → Nat → RangeSet T → Option (RangeSet T)
  | 0, _, s => some s
  | n + 1, i, s => (s.ranges[i]?).bind fun r => (f s r).bind (forEachSelf f n (i + 1))

def addSet (r : RangeSet T) : Option (RangeSet T) := forEach addRange r.ranges s

def removeSet (r : RangeSet T) : Option (RangeSet T) := forEach removeRange r.ranges s

/-- `operator==`. The sets are const and `Range::operator==` is not, so what `std::equal` compares
is the ranges as `bool`: whether they are empty. -/
def eq (t : RangeSet T) : Bool :=
  s.ranges.length == t.ranges.length && (s.ranges.zip t.ranges).all fun (r, q) => (!r.empty) == (!q.empty)

/-- `span()`, a `uint32_t`. -/
def span : BitVec 32 :=
  match s.ranges.head?, s.ranges.getLast? with
  | some f, some l => sub l.last f.begin_
  | _, _ => 0

/-- `size()`. The sizes are added up in an `int`. -/
def size : BitVec 64 :=
  (s.ranges.foldl (fun (n : BitVec 32) r => (n.signExtend 64 + r.size).setWidth 32) 0).signExtend 64

/-! ## Iterators -/

/-- `iterator`: the range it is in, and the value; `none` is `end()`. -/
abbrev Iterator (T : Type) := Option (Nat × T)

/-- `begin()`. -/
def first : Iterator T := s.ranges.head?.map fun r => (0, r.begin_)

def increment : Iterator T → Option (Iterator T)
  | none => none
  | some (i, value) => (s.ranges[i]?).map fun r =>
    let value := next value
    if r.contains value then some (i, value)
    else (s.ranges[i + 1]?).map fun r => (i + 1, r.begin_)

/-- The values from an iterator to the end, if they are no more than the first argument. -/
def valuesFrom : Nat → Iterator T → Option (List T)
  | _, none => some []
  | 0, some _ => none
  | n + 1, some (i, value) =>
    (s.increment (some (i, value))).bind fun it => (valuesFrom n it).map (value :: ·)

end RangeSet

/-! ## Sets that are made of each other -/

/-- An operation on the set `k`. The argument of `addSet` and of `removeSet` is the set `m`. -/
inductive RangeSetOp (T : Type) where
  | addRange (k : Nat) (r : Range T)
  | removeRange (k : Nat) (r : Range T)
  | add (k : Nat) (t : T)
  | remove (k : Nat) (t : T)
  | addSet (k m : Nat)
  | removeSet (k m : Nat)

/-- The sets by their numbers. -/
abbrev RangeSets (T : Type) := Nat → RangeSet T

namespace RangeSets

variable {T : Type} [RangeValue T] [DecidableEq T]

/-- The change of the set `k`. -/
def update (σ : RangeSets T) (k : Nat) (s : Option (RangeSet T)) : Option (RangeSets T) :=
  s.map fun s i => if i = k then s else σ i

def step (σ : RangeSets T) : RangeSetOp T → Option (RangeSets T)
  | .addRange k r => update σ k ((σ k).addRange r)
  | .removeRange k r => update σ k ((σ k).removeRange r)
  | .add k t => update σ k ((σ k).addRange (.point t))
  | .remove k t => update σ k ((σ k).removeRange (.point t))
  | .addSet k m =>
    update σ k (if k = m then (σ k).forEachSelf RangeSet.addRange (σ k).ranges.length 0 else (σ k).addSet (σ m))
  | .removeSet k m =>
    update σ k (if k = m then (σ k).forEachSelf RangeSet.removeRange (σ k).ranges.length 0
      else (σ k).removeSet (σ m))

def run (ops : List (RangeSetOp T)) : Option (RangeSets T) := ops.foldlM step fun _ => {}

end RangeSets

end QB.Impl
