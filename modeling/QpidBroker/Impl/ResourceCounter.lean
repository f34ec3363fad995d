import QpidBroker.Impl.AclData

/-!
# The queues of users

`acl/AclResourceCounter.cpp`, `acl/Acl.cpp`, `Broker::createQueue`, `Broker::deleteQueue`,
`Queue::tryAutoDelete`, `SelfDestructQueue::checkDepth`, `Queue::updateAclUserQueueCount` and
`broker/QueueRegistry.cpp`: which queues there are, and the counts that the quotas are
enforced by, in a broker with the ACL module.

* A `std::map` is a function to what is found under a key, and the registry the list of the
  names of the queues with their owning users.
* The properties that `createQueue` and `deleteQueue` give to `authorise` are arguments, and
  so is what is left of a declaration and of a deletion that can throw.
* Left out: the queues themselves, exclusive owners, management events and redirection.
-/

namespace QB.Impl.Acl

structure ResourceCounter where
  queueOwnerMap : Text → Option Text := fun _ => none
  queuePerUserMap : Text → Option Nat := fun _ => none

namespace ResourceCounter

def limitApproveLH (theMap : Text → Option Nat) (theName : Text) (theLimit : Nat) (enforceLimit : Bool) :
    Bool × (Text → Option Nat) :=
  match theMap theName with
  | some n =>
    let count := n % 2 ^ 16
    if !enforceLimit || count < theLimit then (true, Function.update theMap theName (some ((count + 1) % 2 ^ 16)))
    else (false, theMap)
  | none =>
    -- user not found in map
    if enforceLimit && theLimit = 0 then (false, theMap)
    else (true, Function.update theMap theName (some 1))

def releaseLH (theMap : Text → Option Nat) (theName : Text) : Text → Option Nat :=
  match theMap theName with
  | some n =>
    let count := n % 2 ^ 16
    if count = 1 then Function.update theMap theName none
    else Function.update theMap theName (some ((count + 2 ^ 32 - 1) % 2 ^ 32))
  | none => theMap

def approveCreateQueue (c : ResourceCounter) (userId queueName : Text) (enforcingQueueQuotas : Bool)
    (queueUserQuota : Nat) : Bool × ResourceCounter :=
  match limitApproveLH c.queuePerUserMap userId queueUserQuota enforcingQueueQuotas with
  | (true, counts) => (true, ⟨Function.update c.queueOwnerMap queueName (some userId), counts⟩)
  | (false, counts) => (false, { c with queuePerUserMap := counts })

def recordDestroyQueue (c : ResourceCounter) (queueName : Text) : ResourceCounter :=
  match c.queueOwnerMap queueName with
  | some owner => ⟨Function.update c.queueOwnerMap queueName none, releaseLH c.queuePerUserMap owner⟩
  | none => c

end ResourceCounter

/-- The broker: the queues with their owning users, and the names of the exchanges. -/
structure Broker where
  acl : AclData
  counter : ResourceCounter := {}
  queues : List (Text × Text) := []
  exchanges : List Text := []

inductive Outcome where
  | created | existing | deleted
  /-- `authorise` said no -/
  | denied
  /-- `approveCreateQueue` said no -/
  | overQuota
  | noAlternate
  | notFound
  /-- another exception -/
  | failed
deriving DecidableEq

namespace Broker

def authorise [LexicalCast] (s : Broker) (id : Text) (action : Action) (objType : ObjectType)
    (name : Text) (params : Params) :
    Bool :=
  match s.acl.lookup id action objType name (some params) with
  | .allow => true
  | .allowlog => true
  | _ => false

def approveCreateQueue (s : Broker) (userId queueName : Text) : Bool × Broker :=
  let queueLimit := (s.acl.getQueueQuotaForUser userId).2
  let approved := s.counter.approveCreateQueue userId queueName s.acl.queueQuotaRulesExist queueLimit
  (approved.1, { s with counter := approved.2 })

def recordDestroyQueue (s : Broker) (queueName : Text) : Broker :=
  { s with counter := s.counter.recordDestroyQueue queueName }

/-- `QueueRegistry::find(name)`, whether there is one. -/
def find (s : Broker) (name : Text) : Bool := (s.queues.lookup name).isSome

def destroy (s : Broker) (name : Text) : Broker := { s with queues := s.queues.filter (·.1 ≠ name) }

/-- A request to create a queue, with whether the declaration of a new queue goes through. -/
structure CreateQueue where
  name : Text
  userId : Text
  alternateExchange : Text := []
  params : Params := []
  declared : Bool := true

/-- The rest of `createQueue`, once the request was let through. -/
def declare (s : Broker) (q : CreateQueue) : Outcome × Broker :=
  if !q.alternateExchange.isEmpty && !s.exchanges.contains q.alternateExchange then (.noAlternate, s)
  -- `QueueRegistry::declare`
  else if s.find q.name then (.existing, s)
  else if !q.declared then (.failed, s)
  else (.created, { s with queues := (q.name, q.userId) :: s.queues })

def createQueue [LexicalCast] (s : Broker) (q : CreateQueue) : Outcome × Broker :=
  if !s.authorise q.userId .create .queue q.name q.params then (.denied, s)
  else if s.find q.name then s.declare q
  else match s.approveCreateQueue q.userId q.name with
    | (false, s) => (.overQuota, s)
    | (true, s) => s.declare q

/-- `deleteQueue(name, userId, connectionId, check)`, with whether the check throws. -/
def deleteQueue [LexicalCast] (s : Broker) (name userId : Text) (params : Params) (checked : Bool) :
    Outcome × Broker :=
  if !s.find name then (.notFound, s)
  else if !s.authorise userId .delete .queue name params then (.denied, s)
  else if !checked then (.failed, s)
  else (.deleted, (s.recordDestroyQueue name).destroy name)

/-- `tryAutoDelete()` of a queue that can be deleted. -/
def tryAutoDelete (s : Broker) (name : Text) : Broker := (s.destroy name).recordDestroyQueue name

/-- `SelfDestructQueue::checkDepth` of a queue at its limit. -/
def selfDestruct (s : Broker) (name : Text) : Broker := (s.destroy name).recordDestroyQueue name

/-- The start of the broker with the queues of the store: they are restored before the ACL
module is there, and `updateAclUserQueueCount` is called of each after. -/
def recover (acl : AclData) (exchanges : List Text) (queues : List (Text × Text)) : Broker :=
  queues.foldl (fun s e => (s.approveCreateQueue e.2 e.1).2) ⟨acl, {}, queues, exchanges⟩

inductive Op where
  | create (q : CreateQueue)
  | delete (name userId : Text) (params : Params) (checked : Bool)
  | autoDelete (name : Text)
  | selfDestruct (name : Text)
  | addExchange (name : Text)
  | removeExchange (name : Text)
  /-- the rules are read anew -/
  | reload (acl : AclData)

def step [LexicalCast] (s : Broker) : Op → Option Broker
  | .create q => some (s.createQueue q).2
  | .delete name userId params checked => some (s.deleteQueue name userId params checked).2
  | .autoDelete name => some (s.tryAutoDelete name)
  | .selfDestruct name => some (s.selfDestruct name)
  | .addExchange name => some { s with exchanges := name :: s.exchanges }
  | .removeExchange name => some { s with exchanges := s.exchanges.filter (· ≠ name) }
  | .reload acl => some { s with acl := acl }

end Broker

end QB.Impl.Acl
