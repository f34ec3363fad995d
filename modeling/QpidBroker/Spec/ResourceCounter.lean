import QpidBroker.Impl.ResourceCounter

/-!
# Quotas count queues

What the counter of a user should be, and which operations keep it so.
-/

namespace QB.Impl.Acl.Broker

/-- The queues that a user has. -/
def owned (s : Broker) (user : Text) : Nat := s.queues.countP (·.2 = user)

/-- The queues counted for a user. -/
def count (s : Broker) (user : Text) : Nat := (s.counter.queuePerUserMap user).getD 0

/-- The quota of a user is enforced and reached. -/
def full (s : Broker) (user : Text) : Bool :=
  s.acl.queueQuotaRulesExist && (s.acl.getQueueQuotaForUser user).2 ≤ s.owned user

/-- A creation for a name that is not taken, of a user who may create the queue and has not
reached the quota, finds its alternate exchange, goes through, and is not the user's 65536th. -/
def Kept [LexicalCast] (s : Broker) : Op → Prop
  | .create q =>
    s.find q.name = true ∨ s.authorise q.userId .create .queue q.name q.params = false ∨ s.full q.userId = true ∨
      (q.alternateExchange = [] ∨ q.alternateExchange ∈ s.exchanges) ∧ q.declared = true ∧
        s.owned q.userId + 1 < 2 ^ 16
  | _ => True

/-- The queues of the store: no quota is exceeded by them, and no user has 65536. -/
def Recoverable (acl : AclData) (queues : List (Text × Text)) : Prop :=
  (queues.map Prod.fst).Nodup ∧ ∀ user, queues.countP (·.2 = user) < 2 ^ 16 ∧
      (acl.queueQuotaRulesExist = true → queues.countP (·.2 = user) ≤ (acl.getQueueQuotaForUser user).2)

end QB.Impl.Acl.Broker
