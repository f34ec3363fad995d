import QpidBroker.Impl.AclReader
import QpidBroker.Spec.Topic

/-!
# Decisions of an access control list

What the rules of an ACL file say of a request, in the order of the file.
-/

namespace QB.Spec.Acl

open Impl Impl.Acl

/-- The rule is one for this user: it names the user, alone or in a group, or all users. -/
def appliesTo (r : AclRule) (id : Text) : Bool := r.names.contains wildcard || r.names.contains id

/-- The rule is one for this action on this type of object. -/
def covers (r : AclRule) (a : Action) (o : ObjectType) : Bool :=
  (r.actionAll || r.action = a) && (r.objStatus ≠ .value || r.object = o)

/-- The rule is one for all users and all actions. -/
def allAll (r : AclRule) : Bool := r.actionAll && r.names = [wildcard]

/-- The rules but for the last one for all users and all actions. -/
def ordinary (rules : List AclRule) : List AclRule := (rules.reverse.eraseP allAll).reverse

/-- The permission of the last rule for all users and all actions, deny without one. -/
def defaultMode (rules : List AclRule) : AclResult := ((rules.reverse.find? allAll).map (·.res)).getD .deny

/-- What the first rule decides that is one for the user, the action and the object, and
that matches: `decides` is what a rule that matches decides. -/
def firstMatch (decides : AclRule → Option AclResult) (rules : List AclRule) (id : Text) (a : Action)
    (o : ObjectType) : Option AclResult :=
  rules.findSome? fun r => if appliesTo r id && covers r a o then decides r else none

/-! ## Conditions of a rule -/

/-- The text is the pattern, or begins like a pattern that ends in a wildcard. -/
def fits (pattern t : Text) : Bool := pattern = t || pattern.getLast? = some '*' && pattern.dropLast <+: t

/-- A request with these properties satisfies a condition of a rule. Of a quantity that the
rule limits, the request has to give the value. -/
def satisfies (id name : Text) (m : Params) : SpecProperty × Text → Bool
  | (.name, v) => fits (substituteUserId v id) name
  | (.alternate, v) => (m.lookup .alternate).any (fits (substituteUserId v id))
  | (.queuename, v) => (m.lookup .queuename).any (fits (substituteUserId v id))
  | (.routingkey, v) => (m.lookup .routingkey).any fun key =>
      Topic.Matches v.tokens (if hasKeyword v then substituteKeywords key id else key).tokens
  | (.lowerLimit q, _) => (m.lookup (SpecProperty.limited q)).isSome
  | (.upperLimit q, _) => (m.lookup (SpecProperty.limited q)).isSome
  | (p, v) => (m.lookup p.param).any (fits v)

/-- The numbers of a limit and of a request are in a relation; a limit of zero is none. -/
def limits [LexicalCast] (le : Nat → Nat → Bool) (limit value : Text) : Bool :=
  match lexicalCast 64 limit, lexicalCast 64 value with
  | some 0, _ => true
  | some n, some k => le k n
  | _, _ => false

/-- The quantity that the request gives is within the limit of a rule. -/
def within [LexicalCast] (m : Params) : SpecProperty × Text → Bool
  | (.lowerLimit q, v) => (m.lookup (SpecProperty.limited q)).all (limits (fun k n => n ≤ k) v)
  | (.upperLimit q, v) => (m.lookup (SpecProperty.limited q)).all (limits (fun k n => k ≤ n) v)
  | _ => true

/-- What a rule decides of a request whose conditions it satisfies: its permission, and for
an allow rule with a limit that the request is not within the corresponding denial. -/
def decides [LexicalCast] (id name : Text) (m : Params) (r : AclRule) : Option AclResult :=
  if r.props.entries.all (satisfies id name m) then
    some (if r.props.entries.all (within m) then r.res else r.res.demote)
  else none

/-- The properties that count when a message is published: `amq.default` is the exchange whose name
is blank. -/
def publishedProps (m : SpecPropertyMap) : SpecPropertyMap :=
  let named := match m.find .name with
    | none => .empty
    | some v => SpecPropertyMap.empty.insert .name (if v = defaultExchange then [] else v)
  match m.find .routingkey with
  | none => named
  | some key => named.insert .routingkey key

/-- The rule as it counts when a message is published. -/
def published (rule : AclRule) : AclRule := { rule with props := publishedProps rule.props }

/-- What the first rule decides that matches the exchange and the routing key. -/
def publishing [LexicalCast] (id name key : Text) (rules : List AclRule) : Option AclResult :=
  firstMatch (decides id name [(.routingkey, key)]) rules id .publish .exchange

/-- Nothing else is in the rule, and where it names the default exchange, the request is for another. -/
def Alike (name : Text) (rule : AclRule) : Prop :=
  (∀ e ∈ rule.props.entries, e.1 = .name ∨ e.1 = .routingkey) ∧
    (rule.props.find .name = some defaultExchange → name ≠ [] ∧ name ≠ defaultExchange)

end QB.Spec.Acl

namespace QB.Impl.Acl.AclReader

/-- The rule as it is loaded for an action: the places for publish are filled from that
action on. -/
def loadedAt (rule : AclRule) (a : Action) : Rule :=
  if Action.publish ∈ (actions rule).takeWhile (· ≠ a) ∨ a = .publish then loadPublish rule (loadRule rule)
  else loadRule rule

end QB.Impl.Acl.AclReader
