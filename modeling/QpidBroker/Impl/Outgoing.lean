import QpidBroker.Impl.Message
import QpidBroker.Impl.TopicExchange

/-!
# The filter of an AMQP 1.0 link

`broker/amqp/Outgoing.cpp`: which messages of its queue a sending link takes, by their
subject and by a selector. Of `OutgoingFromQueue` there is what `filter` reads.
-/

namespace QB.Impl

structure OutgoingFromQueue where
  subjectFilter : String := ""
  selector : Option (Message → Bool) := none

namespace OutgoingFromQueue

/-- The loop of `match(filter, target)`: `fuel` bounds the turns, each of which
leaves less of the filter or of the target. -/
def matchLoop : Nat → Bool → List Text → List Text → Bool
  | 0, _, _, _ => false
  | _, _, [], target => target.isEmpty
  | fuel + 1, wild, word :: filter, target =>
    if word = .star then
      match target with
      | [] => false
      | _ :: target => matchLoop fuel wild filter target
    else if word = .hash then
      if filter.isEmpty then true else if target.isEmpty then false else matchLoop fuel true filter target
    else
      match target with
      | [] => false
      | word' :: target =>
        if word = word' then matchLoop fuel false filter target
        else if wild then matchLoop fuel wild (word :: filter) target
        else false

/-- `match(filter, target)`. -/
def matchSubject (filter target : Text) : Bool :=
  matchLoop (filter.tokens.length + target.tokens.length + 1) false filter.tokens target.tokens

def filter (o : OutgoingFromQueue) (m : Message) : Bool :=
  (o.subjectFilter.isEmpty || o.subjectFilter = m.getRoutingKey ||
    matchSubject o.subjectFilter.toList m.getRoutingKey.toList) &&
  match o.selector with
  | none => true
  | some selector => selector m

end OutgoingFromQueue

end QB.Impl
