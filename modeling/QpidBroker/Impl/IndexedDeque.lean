import Mathlib.Data.List.DropRight
import QpidBroker.Impl.Message

/-!
# The indexed deque

`broker/IndexedDeque.h`: a deque whose records are found by sequence number,
by index arithmetic from the first record. The template is instantiated with
`Message` (`MessageDeque`), and with holders of messages and pointers to
them (`PriorityQueue`), so what the template uses of its parameter is a class
(`Record`): a record is read and written through a store `σ`, which is
trivial for a record that holds its own state.

An `std::deque` is a list, a pointer to one of its records an index. Where an
operation throws, the deque it leaves behind is returned with the error.
-/

namespace QB.Impl

/-- What `IndexedDeque<T>` uses of `T`, and the padding it is constructed with. -/
class Record (σ : Type) (T : Type) where
  getSequence : σ → T → SequenceNumber
  getState : σ → T → MessageState
  setState : σ → T → MessageState → σ × T
  padding : SequenceNumber → T

structure IndexedDeque (T : Type) where
  messages : List T := []
  head : Nat := 0
  version : BitVec 32 := 0
deriving DecidableEq

namespace IndexedDeque

open Record

variable {σ T : Type} [Record σ T]

/-- `index(position, i)`: whether there is a record with that number, and the
value left in `i`, whose value before is `i`. -/
def index (s : σ) (d : IndexedDeque T) (position : SequenceNumber) (i : Nat) : Bool × Nat :=
  match d.messages with
  | [] => (false, i)
  | m :: _ =>
    let front := getSequence s m
    if position.lt front then (false, 0)
    else
      let i := (position.sub front).toNat
      (decide (i < d.messages.length), i)

/-- `index(cursor, result)`: the record after the cursor's. -/
def indexAfter (s : σ) (d : IndexedDeque T) (cursor : QueueCursor) (i : Nat) : Bool × Nat :=
  if cursor.valid then d.index s (cursor.position + 1) i else (false, i)

/-- The loop of `clean`: at most ten deleted records leave the front. -/
def cleanLoop (s : σ) : List T → Nat → List T × Nat
  | [], count => ([], count)
  | m :: ms, count =>
    if getState s m = .deleted ∧ count < 10 then cleanLoop s ms (count + 1) else (m :: ms, count)

def clean (s : σ) (d : IndexedDeque T) : IndexedDeque T :=
  let (messages, count) := cleanLoop s d.messages 0
  { d with messages := messages, head := if d.head > count then d.head - count else 0 }

def setStateAt (s : σ) (d : IndexedDeque T) (i : Nat) (state : MessageState) : σ × IndexedDeque T :=
  match d.messages[i]? with
  | none => (s, d)
  | some m =>
    let (s, m) := setState s m state
    (s, { d with messages := d.messages.set i m })

def deleted (s : σ) (d : IndexedDeque T) (cursor : QueueCursor) : Bool × σ × IndexedDeque T :=
  let (found, i) := d.index s cursor.position 0
  if cursor.valid && found then
    let (s, d) := d.setStateAt s i .deleted
    (true, s, d.clean s)
  else (false, s, d)

/-- The loop that pads a gap, from the number `back` of the last record:
`fuel` bounds the turns, each of which shortens the gap by one. -/
def pad (added : SequenceNumber) : Nat → SequenceNumber → List T
  | 0, _ => []
  | fuel + 1, back =>
    if added.sub back > 1 then padding σ (back + 1) :: pad added fuel (back + 1) else []

/-- The records left once the deleted ones at the tail that do not precede
`added` are popped. -/
def popTail (s : σ) (added : SequenceNumber) (ms : List T) : List T :=
  ms.rdropWhile fun m => added.le (getSequence s m) && getState s m = .deleted

/-- The padding between the last record and `added`. -/
def gap (s : σ) (added : SequenceNumber) (ms : List T) : List T :=
  match ms.getLast? with
  | none => []
  | some m => pad (σ := σ) added (added.sub (getSequence s m)).toNat (getSequence s m)

/-- `publish(added)`: the index of the new record, or the error thrown. -/
def publish (s : σ) (d : IndexedDeque T) (added : T) : Except String Nat × σ × IndexedDeque T :=
  let d := d.clean s
  let sequence := getSequence s added
  let messages := popTail s sequence d.messages
  if messages.getLast?.any fun back => sequence.le (getSequence s back) then
    (.error "Index out of sequence!", s, { d with messages := messages })
  else
    let (s', m) := setState s added .available
    let messages := messages ++ gap s sequence messages ++ [m]
    (.ok (messages.length - 1), s', { d with
        messages := messages
        head := if d.head ≥ messages.length then messages.length - 1 else d.head })

/-- `release(cursor)`: the index of the record released, if there is one. -/
def release (s : σ) (d : IndexedDeque T) (cursor : QueueCursor) : Option Nat × σ × IndexedDeque T :=
  let (found, i) := d.index s cursor.position 0
  if cursor.valid && found then
    let (s, d) := d.setStateAt s i .available
    (some i, s, { d with version := d.version + 1 })
  else (none, s, d)

def reset (d : IndexedDeque T) (cursor : QueueCursor) : Bool :=
  !cursor.valid || (cursor.type = .consumer && cursor.version ≠ d.version)

/-- The loop of `next`, over the records from index `i` on. -/
def nextLoop (s : σ) (version : BitVec 32) : List T → Nat → QueueCursor → Option Nat × QueueCursor
  | [], _, cursor => (none, cursor)
  | m :: ms, i, cursor =>
    if getState s m = .deleted then nextLoop s version ms (i + 1) cursor
    else
      let cursor := cursor.setPosition (getSequence s m) version
      if cursor.check (getState s m) then (some i, cursor) else nextLoop s version ms (i + 1) cursor

/-- The index `next` starts from. -/
def start (s : σ) (d : IndexedDeque T) (cursor : QueueCursor) : Nat :=
  if d.reset cursor then d.head else (d.indexAfter s cursor 0).2

def next (s : σ) (d : IndexedDeque T) (cursor : QueueCursor) : Option Nat × QueueCursor :=
  let i := d.start s cursor
  nextLoop s d.version (d.messages.drop i) i cursor

def size (s : σ) (d : IndexedDeque T) : Nat :=
  (d.messages.drop d.head).countP fun m => getState s m = .available

/-- `find(position, cursor)`: the index found, and what becomes of the cursor
passed by pointer. -/
def find (s : σ) (d : IndexedDeque T) (position : SequenceNumber) (cursor : Option QueueCursor) :
    Option Nat × Option QueueCursor :=
  let (found, i) := d.index s position 0
  if found then
    let cursor := cursor.map (·.setPosition position d.version)
    match d.messages[i]? with
    | some m =>
      if getState s m = .available ∨ getState s m = .acquired then (some i, cursor) else (none, cursor)
    | none => (none, cursor)
  else if i ≥ d.messages.length then
    -- haven't yet got a message with that number
    (none, cursor.map (·.setPosition position d.version))
  else if i = 0 then (none, cursor.map ({ · with valid := false }))
  else (none, cursor)

def findAt (s : σ) (d : IndexedDeque T) (cursor : QueueCursor) : Option Nat :=
  if cursor.valid then (d.find s cursor.position none).1 else none

/-- `foreach(f)`, for a functor that only reads: the records it is applied to. -/
def foreach (s : σ) (d : IndexedDeque T) : List T × IndexedDeque T :=
  (d.messages.filter fun m => getState s m = .available, d.clean s)

def resetCursors (d : IndexedDeque T) : IndexedDeque T := { d with version := d.version + 1 }

end IndexedDeque

end QB.Impl
