import QpidBroker.Framework.Run
import QpidBroker.Framework.Serial
import QpidBroker.Impl.MessageGroupManager

/-!
# Groups of messages are exclusive

A queue with groups: its messages, with the consumers that hold them, and what it
tells the manager (`GroupQueue.step`). A group is exclusive if its messages are
held by one consumer, the owner that the manager has for it, and the manager knows
which messages those are (`GroupQueue.Exclusive`). A queue can also be rewound
(`GroupQueue.stepTo`); the manager still has to find the group of a message (`Finds`).
-/

namespace QB.Spec

open QB.Impl QB.Impl.MessageGroupManager

/-- A message that is not deleted, with the consumer that has acquired it. -/
structure Grouped (C : Type) where
  message : Message
  holder : Option C := none
deriving DecidableEq

structure GroupQueue (C : Type) where
  manager : MessageGroupManager
  messages : List (Grouped C) := []
  sequence : SequenceNumber := 0
  failed : Option Assertion := none

namespace GroupQueue

variable {C : Type} (name : C → String)

/-- The calls of a queue, for the message at an index. -/
inductive Call (C : Type) where
  | enqueue (m : Message)
  | acquire (c : C) (i : Nat)
  | requeue (i : Nat)
  | dequeue (i : Nat)
  /-- `Queue::remove` of an available message, which nobody owns. -/
  | remove (i : Nat)

/-- What the manager was told succeeds, or an assertion fails. -/
def told (s : GroupQueue C) (result : Except Assertion MessageGroupManager) (messages : List (Grouped C)) :
    GroupQueue C :=
  match result with
  | .ok manager => { s with manager, messages }
  | .error e => { s with failed := some e }

/-- `acquire`, followed by `acquired` if it succeeds. -/
def acquireAt (s : GroupQueue C) (c : C) (i : Nat) (g : Grouped C) : GroupQueue C :=
  match s.manager.acquire (name c) g.message with
  | .error e => { s with failed := some e }
  | .ok (false, _, manager) => { s with manager }
  | .ok (true, message, manager) =>
    s.told (manager.acquired message) (s.messages.set i { message, holder := some c })

/-- The queue tells the manager nothing more when an assertion has failed. -/
def step (s : GroupQueue C) (call : Call C) : Option (GroupQueue C) :=
  if s.failed.isSome then none
  else
    match call with
    | .enqueue m =>
      let message := (m.setSequence (s.sequence + 1)).setState .available
      some { s.told (s.manager.enqueued message) (s.messages ++ [{ message }]) with sequence := s.sequence + 1 }
    | .acquire c i => (s.messages[i]?).map fun g => s.acquireAt name c i g
    | .requeue i => (s.messages[i]?).bind fun g =>
      if g.message.state = .acquired then
        let message := g.message.setState .available
        some (s.told (s.manager.requeued message) (s.messages.set i { message }))
      else none
    | .dequeue i => (s.messages[i]?).map fun g =>
      s.told (s.manager.dequeued g.message) (s.messages.eraseIdx i)
    | .remove i => (s.messages[i]?).bind fun g =>
      if g.message.state = .available then
        some (s.told (s.manager.acquired g.message >>= fun manager => manager.dequeued g.message)
          (s.messages.eraseIdx i))
      else none

def groupOf (s : GroupQueue C) (g : Grouped C) : String := s.manager.groupOf g.message

/-- The messages of a group, as its members. -/
def membersOf (s : GroupQueue C) (group : String) : List MessageGroupManager.MessageState :=
  (s.messages.filter fun g => s.groupOf g = group).map fun g =>
    ⟨g.message.sequence, g.message.state = .acquired⟩

def stateOf (s : GroupQueue C) (group : String) : Option GroupState :=
  (s.manager.messageGroups group).bind s.manager.groups

structure Exclusive (s : GroupQueue C) : Prop where
  /-- No assertion has failed. -/
  asserts : s.failed = none
  /-- Messages of a group that are acquired were acquired by one consumer. -/
  same : ∀ g ∈ s.messages, ∀ g' ∈ s.messages, s.groupOf g = s.groupOf g' →
    g.message.state = .acquired → g'.message.state = .acquired → g.holder = g'.holder
  /-- It is the owner of the group. -/
  owner : ∀ g ∈ s.messages, g.message.state = .acquired →
    ∃ c state, g.holder = some c ∧ s.stateOf (s.groupOf g) = some state ∧ state.owner = name c
  /-- The groups are those of the messages. -/
  known : ∀ group, s.stateOf group = none ↔ s.membersOf group = []
  members : ∀ group state, s.stateOf group = some state → state.members = s.membersOf group
  sorted : ∀ group state, s.stateOf group = some state →
    state.members.Pairwise fun m m' => SequenceNumber.lt m.position m'.position = true
  count : ∀ group state, s.stateOf group = some state → state.acquired.toNat = state.members.countP (·.acquired)
  owned : ∀ group state, s.stateOf group = some state → (state.owned = true ↔ 0 < state.acquired.toNat)
  /-- The free groups are found by the position of their first member. -/
  free : ∀ p a, s.manager.freeGroups p = some a ↔ ∃ group state, s.manager.messageGroups group = some a ∧
    s.manager.groups a = some state ∧ state.owned = false ∧ state.members.head?.map (·.position) = some p

/-- A consumer has a name, and not that of another that holds a message of the
group; a message that is enqueued is less than half of all numbers ahead of those
in the queue. -/
def Named (s : GroupQueue C) : Call C → Prop
  | .acquire c i => name c ≠ "" ∧ ∀ g ∈ s.messages[i]?, ∀ g' ∈ s.messages, s.groupOf g' = s.groupOf g →
    ∀ c' ∈ g'.holder, name c' = name c → c' = c
  | .enqueue _ => ∀ g ∈ s.messages, Serial.dist g.message.sequence (s.sequence + 1) < 2 ^ 31
  | _ => True

instance [DecidableEq C] (s : GroupQueue C) : (call : Call C) → Decidable (s.Named name call)
  | .acquire _ _ => inferInstanceAs (Decidable (_ ∧ ∀ g ∈ _, ∀ g' ∈ _, _))
  | .enqueue _ => inferInstanceAs (Decidable (∀ g ∈ _, _))
  | .requeue _ | .dequeue _ | .remove _ => inferInstanceAs (Decidable True)

/-! ## Consumers of sessions -/

/-- A consumer, by its tag, which is its own only in its session. -/
structure SessionConsumer where
  session : String
  tag : String
deriving DecidableEq

/-- The name a consumer acquires a message under: the one that `consume` makes for it when the message
is dispatched, its tag when it asks for one that it was delivered (`DeliveryRecord::acquire`). -/
def acquirer : SessionConsumer × Bool → String
  | (c, false) => c.session ++ "::" ++ c.tag
  | (c, true) => c.tag

/-- No two consumers hold messages of one group. -/
def Sole (s : GroupQueue (SessionConsumer × Bool)) : Prop :=
  ∀ g ∈ s.messages, ∀ g' ∈ s.messages, s.groupOf g = s.groupOf g' →
    ∀ a ∈ g.holder, ∀ a' ∈ g'.holder, a.1 = a'.1

/-! ## A queue that is rewound -/

/-- The manager is told of the messages after a number, which `Queue::remove` takes off. -/
def removeAfter (s : GroupQueue C) (n : SequenceNumber) : Except Assertion MessageGroupManager :=
  (s.messages.filter fun g => n.lt g.message.sequence).foldlM (fun manager g => do
    let manager ← if g.message.state = .available then manager.acquired g.message else pure manager
    manager.dequeued g.message) s.manager

/-- A call of the queue, or `Queue::setPosition`. -/
inductive Event (C : Type) where
  | call (call : Call C)
  | setPosition (n : SequenceNumber)

def stepTo (s : GroupQueue C) : Event C → Option (GroupQueue C)
  | .call call => s.step name call
  | .setPosition n =>
    if s.failed.isSome then none
    else
      let s := if n.lt s.sequence then
        s.told (s.removeAfter n) (s.messages.filter fun g => !n.lt g.message.sequence) else s
      some { s with sequence := n }

/-- `findGroup(m)` returns the state that is stored under the message's group, which was not erased. -/
def Finds (manager : MessageGroupManager) (m : Message) : Prop :=
  (manager.findGroup m).2.messageGroups (manager.groupOf m) = some (manager.findGroup m).1 ∧
    ((manager.findGroup m).2.groups (manager.findGroup m).1).isSome = true

instance (manager : MessageGroupManager) (m : Message) : Decidable (Finds manager m) :=
  inferInstanceAs (Decidable (_ ∧ _))

end GroupQueue

end QB.Spec

namespace QB.Impl.MessageGroupManager

/-- The cache does not lead a message to the group of another. -/
def CacheFits (mgr : MessageGroupManager) (m : Message) : Prop :=
  mgr.cachedGroup.isSome = true → mgr.lastMsg = m.sequence → mgr.groupOf m = mgr.lastGroup

end QB.Impl.MessageGroupManager
