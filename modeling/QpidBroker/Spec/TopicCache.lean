import QpidBroker.Framework.Run
import QpidBroker.Impl.TopicCache
import QpidBroker.Spec.Topic

/-!
# Threads that bind, unbind and route

Each section of `bind`, `unbind` and `route` under a lock is one step of a thread. From its search
until it has updated the cache, `route` holds `lock` for reading, and no other can change the tree.
The state has the changes in their order, how many of them had been made when the last to return
was, and what was routed.
-/

namespace QB.Spec.TopicCache

open Impl TopicExchange Topic

/-- Where a thread is. -/
inductive Phase where
  | idle
  /-- In `bind` or `unbind`, before the cache is cleared: the tree has had `n` changes with its own. -/
  | changed (n : Nat)
  /-- In `route`, with no cache hit. -/
  | missed (routingKey : Text) (since : Nat)
  /-- In `route`, with `lock` held for reading. -/
  | found (routingKey : Text) (since : Nat) (b : List String)
deriving DecidableEq

def Phase.reads : Phase → Bool
  | .found .. => true
  | _ => false

/-- A message routed: `since` changes had returned when its route began, and `upto` had been made
when it had its queues. -/
structure Routed where
  routingKey : Text
  queues : List String
  since : Nat
  upto : Nat

structure State where
  bindingTree : TopicKeyNode := {}
  bindingCache : BindingCache := []
  threads : List Phase
  changes : List Topic.Op := []
  returned : Nat := 0
  routed : List Routed := []

inductive Act where
  | change (i : Nat) (op : Topic.Op)
  | clearCache (i : Nat)
  | lookup (i : Nat) (routingKey : Text)
  | search (i : Nat)
  | update (i : Nat)

/-- One section of the thread `i`. -/
def State.step (s : State) : Act → Option State
  | .change i op =>
    if s.threads[i]? = some .idle ∧ s.threads.all (!·.reads) then
      some { s with bindingTree := perform s.bindingTree op, changes := s.changes ++ [op],
                    threads := s.threads.set i (.changed (s.changes.length + 1)) }
    else none
  | .clearCache i =>
    match s.threads[i]? with
    | some (.changed n) =>
      some { s with bindingCache := [], threads := s.threads.set i .idle, returned := max s.returned n }
    | _ => none
  | .lookup i routingKey =>
    if s.threads[i]? = some .idle then
      match s.bindingCache.lookup routingKey with
      | some b => some { s with routed := ⟨routingKey, b, s.returned, s.changes.length⟩ :: s.routed }
      | none => some { s with threads := s.threads.set i (.missed routingKey s.returned) }
    else none
  | .search i =>
    match s.threads[i]? with
    | some (.missed routingKey since) =>
      some { s with threads := s.threads.set i (.found routingKey since (findBindings s.bindingTree routingKey)) }
    | _ => none
  | .update i =>
    match s.threads[i]? with
    | some (.found routingKey since b) =>
      some { s with bindingCache := s.bindingCache.update routingKey b, threads := s.threads.set i .idle,
                    routed := ⟨routingKey, b, since, s.changes.length⟩ :: s.routed }
    | _ => none

/-- The queues are those bound with a pattern that matches, each once. -/
def Exact (bound : List (String × Text)) (routingKey : Text) (queues : List String) : Prop :=
  queues.Nodup ∧ ∀ queue, queue ∈ queues ↔ ∃ p, (queue, p) ∈ bound ∧ Matches p.tokens routingKey.tokens

end QB.Spec.TopicCache
