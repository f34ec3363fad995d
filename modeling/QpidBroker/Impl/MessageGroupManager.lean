import Mathlib.Logic.Function.Basic
import QpidBroker.Impl.Message

/-!
# Message groups

`broker/MessageGroupManager.{h,cpp}`: the messages of a group are acquired by
one consumer at a time.

* A `GroupState*` is the number of a state among those allocated (`groups`); a
  number is not used again. `messageGroups` and `freeGroups` are maps; their order
  is not read. `std::lower_bound` is what it is on a range that is sorted: the
  first element that is not less.
* An assertion that fails, or what is undefined (an element before the first or
  past the last, a state that was freed), is an `Assertion`.
* Left out: `hits` and `misses`, which are only logged, and the cursors of the
  queue, which `dequeued` resets when it releases a group.
-/

namespace QB.Impl

namespace MessageGroupManager

/-- `GroupState::MessageState`. -/
structure MessageState where
  position : SequenceNumber
  acquired : Bool := false
deriving DecidableEq

structure GroupState where
  group : String := ""
  owner : String := ""
  acquired : BitVec 32 := 0
  members : List MessageState := []
deriving DecidableEq

/-- The assertions, and what is undefined. -/
inductive Assertion where
  /-- `pos != freeGroups.end() && pos->second == &state` -/
  | notFree
  /-- `state.members.size()`, or `front()` of none -/
  | noMembers
  /-- `freeGroups.find(..) == freeGroups.end()` -/
  | alreadyFree
  /-- `found->position` of `members.end()` -/
  | pastMembers
  /-- `gm != state.members.end()` -/
  | notMember
  /-- `state.acquired != 0` -/
  | noneAcquired
  /-- a state that is not allocated -/
  | dangling
deriving DecidableEq

def GroupState.owned (state : GroupState) : Bool := !(state.owner = "")

/-- `findMsg(position)`: the index found, or none for `members.end()`. -/
def GroupState.findMsg (state : GroupState) (position : SequenceNumber) : Except Assertion (Option Nat) :=
  let found := state.members.findIdx fun m => !SequenceNumber.lt m.position position
  match state.members[found]? with
  | some m => .ok (if m.position = position then some found else none)
  | none => .error .pastMembers

end MessageGroupManager

open MessageGroupManager in
structure MessageGroupManager where
  groupIdHeader : String
  defaultGroupId : String
  groups : Nat → Option GroupState := fun _ => none
  allocated : Nat := 0
  messageGroups : String → Option Nat := fun _ => none
  freeGroups : SequenceNumber → Option Nat := fun _ => none
  lastMsg : SequenceNumber := 0
  lastGroup : String := ""
  cachedGroup : Option Nat := none

namespace MessageGroupManager

def deref (mgr : MessageGroupManager) (state : Nat) : Except Assertion GroupState :=
  match mgr.groups state with
  | some g => .ok g
  | none => .error .dangling

def setGroup (mgr : MessageGroupManager) (state : Nat) (g : GroupState) : MessageGroupManager :=
  { mgr with groups := Function.update mgr.groups state (some g) }

def setFree (mgr : MessageGroupManager) (position : SequenceNumber) (state : Option Nat) : MessageGroupManager :=
  { mgr with freeGroups := Function.update mgr.freeGroups position state }

/-- `state.members.front().position`. -/
def front (g : GroupState) : Except Assertion SequenceNumber :=
  match g.members with
  | m :: _ => .ok m.position
  | [] => .error .noMembers

/-- An iterator that was asserted not to be `members.end()`, with its element. -/
def member (g : GroupState) (position : SequenceNumber) : Except Assertion (Nat × MessageState) := do
  match ← g.findMsg position with
  | none => .error .notMember
  | some i =>
    match g.members[i]? with
    | some m => pure (i, m)
    | none => .error .notMember

def unFree (state : Nat) (mgr : MessageGroupManager) : Except Assertion MessageGroupManager := do
  let g ← mgr.deref state
  let p ← front g
  if mgr.freeGroups p = some state then pure (mgr.setFree p none) else .error .notFree

def own (state : Nat) (owner : String) (mgr : MessageGroupManager) : Except Assertion MessageGroupManager := do
  let g ← mgr.deref state
  unFree state (mgr.setGroup state { g with owner })

def disown (state : Nat) (mgr : MessageGroupManager) : Except Assertion MessageGroupManager := do
  let g ← mgr.deref state
  let mgr := mgr.setGroup state { g with owner := "" }
  let p ← front g
  if mgr.freeGroups p = none then pure (mgr.setFree p (some state)) else .error .alreadyFree

/-- The group of a message, as `findGroup` reads it. -/
def groupOf (mgr : MessageGroupManager) (m : Message) : String :=
  let group := m.getPropertyAsString mgr.groupIdHeader
  if group = "" then mgr.defaultGroupId else group

/-- `findGroup(m)` when the cache does not help. -/
def lookup (thisMsg : SequenceNumber) (group : String) (mgr : MessageGroupManager) : Nat × MessageGroupManager :=
  match mgr.messageGroups group with
  | some found =>
    (found, { mgr with
      groups := Function.update mgr.groups found
        ((mgr.groups found).map fun g => if g.group = "" then { g with group } else g)
      lastMsg := thisMsg, lastGroup := group, cachedGroup := some found })
  | none =>
    (mgr.allocated, { mgr with
      groups := Function.update mgr.groups mgr.allocated (some { group })
      allocated := mgr.allocated + 1
      messageGroups := Function.update mgr.messageGroups group (some mgr.allocated)
      lastMsg := thisMsg, lastGroup := group, cachedGroup := some mgr.allocated })

def findGroup (m : Message) (mgr : MessageGroupManager) : Nat × MessageGroupManager :=
  match mgr.cachedGroup with
  | none => mgr.lookup m.sequence (mgr.groupOf m)
  | some cachedGroup =>
    if mgr.lastMsg = m.sequence then (cachedGroup, mgr)
    else if mgr.groupOf m = mgr.lastGroup then (cachedGroup, { mgr with lastMsg := m.sequence })
    else mgr.lookup m.sequence (mgr.groupOf m)

def enqueued (m : Message) (mgr : MessageGroupManager) : Except Assertion MessageGroupManager := do
  let (state, mgr) := mgr.findGroup m
  let g ← mgr.deref state
  let g := { g with members := g.members ++ [{ position := m.sequence }] }
  let mgr := mgr.setGroup state g
  if g.members.length % 2 ^ 32 = 1 then
    if mgr.freeGroups m.sequence = none then pure (mgr.setFree m.sequence (some state)) else .error .alreadyFree
  else pure mgr

def acquired (m : Message) (mgr : MessageGroupManager) : Except Assertion MessageGroupManager := do
  let (state, mgr) := mgr.findGroup m
  let g ← mgr.deref state
  let (i, gm) ← member g m.sequence
  pure (mgr.setGroup state { g with
    members := g.members.set i { gm with acquired := true }
    acquired := g.acquired + 1 })

def requeued (m : Message) (mgr : MessageGroupManager) : Except Assertion MessageGroupManager := do
  let (state, mgr) := mgr.findGroup m
  let g ← mgr.deref state
  if g.acquired = 0 then .error .noneAcquired
  else
    let (i, gm) ← member g m.sequence
    let g := { g with
      acquired := g.acquired - 1
      members := g.members.set i { gm with acquired := false } }
    let mgr := mgr.setGroup state g
    if g.acquired = 0 && g.owned then disown state mgr else pure mgr

/-- The last part of `dequeued`, when the message is off its group. -/
def dequeuedFrom (state : Nat) (reFreeNeeded : Bool) (mgr : MessageGroupManager) :
    Except Assertion MessageGroupManager := do
  let g ← mgr.deref state
  if g.members.length % 2 ^ 32 = 0 then
    pure { mgr with
      cachedGroup := if mgr.cachedGroup = some state then none else mgr.cachedGroup
      messageGroups := Function.update mgr.messageGroups g.group none
      groups := Function.update mgr.groups state none }
  else if g.acquired = 0 && g.owned then disown state mgr
  else if reFreeNeeded then disown state mgr
  else pure mgr

def dequeued (m : Message) (mgr : MessageGroupManager) : Except Assertion MessageGroupManager := do
  let (state, mgr) := mgr.findGroup m
  let g ← mgr.deref state
  let (i, gm) ← member g m.sequence
  if gm.acquired && g.acquired = 0 then .error .noneAcquired
  else
    let g := if gm.acquired then { g with acquired := g.acquired - 1 } else g
    let mgr := mgr.setGroup state g
    if i = 0 then
      if !g.owned then
        let mgr ← unFree state mgr
        dequeuedFrom state true (mgr.setGroup state { g with members := g.members.tail })
      else dequeuedFrom state false (mgr.setGroup state { g with members := g.members.tail })
    else dequeuedFrom state false (mgr.setGroup state { g with members := g.members.eraseIdx i })

/-- `acquire(consumer, m)`: its result, with the message. -/
def acquire (consumer : String) (m : Message) (mgr : MessageGroupManager) :
    Except Assertion (Bool × Message × MessageGroupManager) := do
  if m.state = .available then
    let (state, mgr) := mgr.findGroup m
    let g ← mgr.deref state
    let mgr ← if !g.owned then own state consumer mgr else pure mgr
    let g ← mgr.deref state
    if g.owner = consumer then pure (true, m.setState .acquired, mgr) else pure (false, m, mgr)
  else pure (false, m, mgr)

end MessageGroupManager

end QB.Impl
