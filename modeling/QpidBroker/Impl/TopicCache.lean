import QpidBroker.Impl.TopicExchange

/-!
# The cache of a topic exchange

`BindingsFinderIter` and `route` of `broker/TopicExchange.cpp`: the queues that a routing key
matches, and the cache in which they are kept until the next change.
-/

namespace QB.Impl.TopicExchange

/-- The search with a `BindingsFinderIter`, which does not duplicate queues; the node visited is the
one that its pattern leads to. -/
def findBindings (bindingTree : TopicKeyNode) (routingKey : Text) : List String :=
  ((visited bindingTree routingKey).flatMap fun p => (bindingTree.get p.tokens).getD []).foldl
    (fun b queue => if queue ∈ b then b else b ++ [queue]) []

abbrev BindingCache := List (Text × List String)

/-- `bindingCache[routingKey] = b`. -/
def BindingCache.update (cache : BindingCache) (routingKey : Text) (b : List String) : BindingCache :=
  (routingKey, b) :: cache.filter (·.1 ≠ routingKey)

end QB.Impl.TopicExchange
