import QpidBroker.Framework.Replace
import QpidBroker.Impl.TopicExchange
import Mathlib.Data.BitVec
import Mathlib.Data.List.Nodup
import Mathlib.Logic.Function.Basic

/-!
# The decision data of the access control list

`acl/AclData.h`, `acl/AclData.cpp`, `acl/AclTopicMatch.h` and the enumerations of
`broker/AclModule.h`: the rules by action, object and user, and the lookups in them.

* A `std::map` is a list of its entries, and a null pointer to one is `none`.
* `Rule::ruleHasUserSub` is the list of the properties that are set in it.
* The log is left out, and with it `rawRuleNum`.
* `boost::lexical_cast` is a parameter (`LexicalCast`).
* The code asserts that a key reaches the node of a rule at most once (`VisitsOnce`), that no
  name it looks for in a key is empty (`substituteString`), and that the limit of a rule is a
  number (`compareInt`). A lookup is here what it is where these hold.
-/

namespace QB.Impl.Acl

open List

inductive ObjectType where
  | queue | exchange | broker | link | method
deriving DecidableEq

/-- The values below `OBJECTSIZE`. -/
def ObjectType.all : List ObjectType := [.queue, .exchange, .broker, .link, .method]

inductive Action where
  | consume | publish | create | access | bind | unbind | delete | purge | update
deriving DecidableEq

/-- The values below `ACTIONSIZE`. -/
def Action.all : List Action :=
  [.consume, .publish, .create, .access, .bind, .unbind, .delete, .purge, .update]

inductive Property where
  | name | durable | owner | routingkey | autodelete | exclusive | type | alternate | queuename
  | schemapackage | schemaclass | policytype | paging
  | maxpages | maxpagefactor | maxqueuesize | maxqueuecount | maxfilesize | maxfilecount
deriving DecidableEq

/-- A quantity of a queue that a rule can limit. -/
inductive Limited where
  | maxqueuesize | maxqueuecount | maxfilesize | maxfilecount | maxpages | maxpagefactor
deriving DecidableEq

/-- A property of a rule: `lowerLimit q` and `upperLimit q` are `SPECPROP_<q>LOWERLIMIT`
and `SPECPROP_<q>UPPERLIMIT`. -/
inductive SpecProperty where
  | name | durable | owner | routingkey | autodelete | exclusive | type | alternate | queuename
  | schemapackage | schemaclass | policytype | paging
  | lowerLimit (q : Limited) | upperLimit (q : Limited)
deriving DecidableEq

inductive AclResult where
  | allow | allowlog | deny | denylog
deriving DecidableEq

/-- `specPropertyMap`: the entries, each of a property of its own. -/
structure SpecPropertyMap where
  entries : List (SpecProperty × Text)
  nodup : (entries.map Prod.fst).Nodup

namespace SpecPropertyMap

def empty : SpecPropertyMap := ⟨[], nodup_nil⟩

def find (m : SpecPropertyMap) (p : SpecProperty) : Option Text := m.entries.lookup p

/-- `insert(propNvPair(p, v))`: a property that is there already stays. -/
def insert (m : SpecPropertyMap) (p : SpecProperty) (v : Text) : SpecPropertyMap :=
  if h : p ∈ m.entries.map Prod.fst then m
  else ⟨m.entries ++ [(p, v)], by
    rw [map_append, nodup_append]
    refine ⟨m.nodup, nodup_singleton _, fun a ha b hb => ?_⟩
    obtain rfl : b = p := by simpa using hb
    exact fun e => h (e ▸ ha)⟩

end SpecPropertyMap

/-- `ACL_KEYWORD_WILDCARD`. -/
def wildcard : Text := "*".toList

/-- `ACL_KEYWORD_USER_SUBST`. -/
def userSubst : Text := "$\x7buser\x7d".toList

/-- `ACL_KEYWORD_DOMAIN_SUBST`. -/
def domainSubst : Text := "$\x7bdomain\x7d".toList

/-- `ACL_KEYWORD_USERDOMAIN_SUBST`. -/
def userdomainSubst : Text := "$\x7buserdomain\x7d".toList

/-- `ACL_KEYWORD_DEFAULT_EXCHANGE`. -/
def defaultExchange : Text := "amq.default".toList

/-- One of the three keywords is found in the text. -/
def hasKeyword (t : Text) : Bool := userSubst <:+: t || domainSubst <:+: t || userdomainSubst <:+: t

/-! ## Texts -/

/-- `matchProp(ruleStr, lookupStr)`. The character before an empty string, which the code
reads then, is not the wildcard. -/
def matchProp (ruleStr lookupStr : Text) : Bool :=
  if ruleStr.getLast? = some '*' then ruleStr.dropLast = lookupStr.take (ruleStr.length - 1)
  else ruleStr = lookupStr

/-- `boost::lexical_cast` of a text to an unsigned integer of so many bits; none if it throws. -/
class LexicalCast where
  lexicalCast : Nat → Text → Option Nat

export LexicalCast (lexicalCast)

/-- A cast that takes decimal digits, with which a lookup can be run. -/
instance decimal : LexicalCast where
  lexicalCast bits t :=
    let n := t.foldl (fun n c => 10 * n + (c.toNat - '0'.toNat)) 0
    if t ≠ [] ∧ t.all Char.isDigit ∧ n < 2 ^ bits then some n else none

def compareInt [LexicalCast] (theAclValue theLookupValue : Text) (theMaxFlag : Bool) : Bool :=
  match lexicalCast 64 theAclValue with
  | none => false
  | some aclRuleValue =>
    if aclRuleValue = 0 then true
    else match lexicalCast 64 theLookupValue with
      | none => false
      | some lookupValue => if theMaxFlag then lookupValue ≤ aclRuleValue else aclRuleValue ≤ lookupValue

def substituteString (targetString placeholder replacement : Text) : Text :=
  replaceAll placeholder replacement targetString

def normalizeUserId (userId : Text) : Text :=
  substituteString (substituteString userId ['@'] ['_']) ['.'] ['_']

/-- The user of `substituteUserId` and `substituteKeywords`: what stands before the domain. -/
def userOf (userId : Text) : Text := normalizeUserId (userId.takeWhile (· ≠ '@'))

def domainOf (userId : Text) : Text := normalizeUserId ((userId.dropWhile (· ≠ '@')).drop 1)

def substituteUserId (ruleString userId : Text) : Text :=
  substituteString
    (substituteString (substituteString ruleString userSubst (userOf userId)) domainSubst (domainOf userId))
    userdomainSubst (normalizeUserId userId)

def substituteKeywords (ruleString userId : Text) : Text :=
  substituteString (substituteString (substituteString ruleString (normalizeUserId userId) userdomainSubst)
      (userOf userId) userSubst)
    (domainOf userId) domainSubst

/-! ## Rules -/

/-- `TopicExchangeTester::addBindingKey(bKey)`. -/
def addBindingKey (bindingTree : TopicKeyNode) (bKey : Text) : TopicKeyNode :=
  let routingPattern := TopicExchange.normalize bKey
  -- a dummy binding marks the node
  (bindingTree.add routingPattern routingPattern.tokens).modify (· ++ ["true"]) routingPattern.tokens

/-- `TopicExchangeTester::findMatches(rKey, matches)`, without the assertion of `VisitsOnce`. -/
def findMatches (bindingTree : TopicKeyNode) (rKey : Text) : Bool :=
  !(bindingTree.iterateMatch rKey.tokens).isEmpty

structure Rule where
  ruleMode : AclResult
  props : SpecPropertyMap
  pubRoutingKeyInRule : Bool := false
  pubRoutingKey : Text := []
  pTTest : TopicKeyNode := {}
  pubExchNameInRule : Bool := false
  pubExchNameMatchesBlank : Bool := false
  pubExchName : Text := []
  ruleHasUserSub : List SpecProperty := []

namespace Rule

def addTopicTest (rule : Rule) (pattern : Text) : Rule :=
  { rule with pTTest := addBindingKey rule.pTTest (TopicExchange.normalize pattern) }

def matchRoutingKey (rule : Rule) (pattern : Text) : Bool := findMatches rule.pTTest pattern

/-- `assert(!found)` of `TestFinder::visit` holds: the key reaches the node of the rule in no
more than one way. -/
def VisitsOnce (rule : Rule) (pattern : Text) : Prop := (rule.pTTest.iterateMatch pattern.tokens).length ≤ 1

instance (rule : Rule) (pattern : Text) : Decidable (rule.VisitsOnce pattern) := inferInstanceAs (Decidable (_ ≤ _))

end Rule

abbrev Params := List (Property × Text)

namespace SpecProperty

/-- The index of the parameter that a lookup gives for a quantity. -/
def limited : Limited → Property
  | .maxqueuesize => .maxqueuesize
  | .maxqueuecount => .maxqueuecount
  | .maxfilesize => .maxfilesize
  | .maxfilecount => .maxfilecount
  | .maxpages => .maxpages
  | .maxpagefactor => .maxpagefactor

/-- The index of the parameter that a lookup gives for a property of a rule. -/
def param : SpecProperty → Property
  | .name => .name
  | .durable => .durable
  | .owner => .owner
  | .routingkey => .routingkey
  | .autodelete => .autodelete
  | .exclusive => .exclusive
  | .type => .type
  | .alternate => .alternate
  | .queuename => .queuename
  | .schemapackage => .schemapackage
  | .schemaclass => .schemaclass
  | .policytype => .policytype
  | .paging => .paging
  | .lowerLimit q => limited q
  | .upperLimit q => limited q

end SpecProperty

/-! ## Lookups -/

/-- The object name of a rule against that of a lookup. -/
def matchName (rule : Rule) (ruleName id name : Text) : Bool :=
  if rule.ruleHasUserSub.contains .name then matchProp (substituteUserId ruleName id) name
  else matchProp ruleName name

/-- The routing key of a lookup against the pattern of a rule. -/
def matchKey (rule : Rule) (id key : Text) : Bool :=
  if rule.ruleHasUserSub.contains .routingkey then rule.matchRoutingKey (substituteKeywords key id)
  else rule.matchRoutingKey key

/-- The turn of the loop of `lookupMatchRule` for one property of the rule: `match` and
`limitChecked` after it. -/
def matchProperty [LexicalCast] (rule : Rule) (id name : Text) (params : Option Params) (limitChecked : Bool) :
    SpecProperty × Text → Bool × Bool
  | (.name, value) => (matchName rule value id name, limitChecked)
  | (prop, value) =>
    match params with
    -- params don't exist
    | none => (true, limitChecked)
    | some params =>
      match params.lookup prop.param with
      -- the rule has a property that does not exist in the caller's list
      | none => (false, limitChecked)
      | some lookupValue =>
        match prop with
        | .upperLimit _ => (true, limitChecked && compareInt value lookupValue true)
        | .lowerLimit _ => (true, limitChecked && compareInt value lookupValue false)
        | .routingkey => (matchKey rule id lookupValue, limitChecked)
        | prop =>
          if (prop = .alternate || prop = .queuename) && rule.ruleHasUserSub.contains prop then
            (matchProp (substituteUserId value id) lookupValue, limitChecked)
          else (matchProp value lookupValue, limitChecked)

/-- The loop of `lookupMatchRule`. -/
def matchProperties [LexicalCast] (rule : Rule) (id name : Text) (params : Option Params) :
    List (SpecProperty × Text) → Bool → Bool × Bool
  | [], limitChecked => (true, limitChecked)
  | prop :: props, limitChecked =>
    match matchProperty rule id name params limitChecked prop with
    | (true, limitChecked) => matchProperties rule id name params props limitChecked
    | (false, limitChecked) => (false, limitChecked)

/-- An allow rule demoted to the corresponding deny rule. -/
def AclResult.demote : AclResult → AclResult
  | .allow => .deny
  | .allowlog => .denylog
  | r => r

/-- `lookupMatchRule(rsItr, id, name, params, aclresult)`: the result, if the rule matches. -/
def lookupMatchRule [LexicalCast] (rule : Rule) (id name : Text) (params : Option Params) : Option AclResult :=
  match matchProperties rule id name params rule.props.entries true with
  | (true, limitChecked) => some (if limitChecked then rule.ruleMode else rule.ruleMode.demote)
  | (false, _) => none

/-- `lookupMatchPublishExchangeRule(rsItr, id, name, routingKey, aclresult)`: the result, if
the rule matches. -/
def lookupMatchPublishExchangeRule (rule : Rule) (id name routingKey : Text) : Option AclResult :=
  let nameMatches :=
    if !rule.pubExchNameInRule then true
    else if rule.ruleHasUserSub.contains .name then matchProp (substituteUserId rule.pubExchName id) name
    else if rule.pubExchNameMatchesBlank then name.isEmpty
    else matchProp rule.pubExchName name
  let keyMatches :=
    if !rule.pubRoutingKeyInRule then true
    -- the user is not allowed to present a routing key with the substitution key in it
    else if hasKeyword routingKey then false
    else matchKey rule id routingKey
  if nameMatches && keyMatches then some rule.ruleMode else none

/-- `actionObject`: the rules of each user. -/
abbrev ActionObject := List (Text × List Rule)

structure AclData where
  actionList : Action → Option (ObjectType → Option ActionObject) := fun _ => none
  decisionMode : AclResult := .deny
  transferAcl : Bool := false
  connQuotaRulesExist : Bool := false
  connQuotaRuleSettings : List (Text × Nat) := []
  queueQuotaRulesExist : Bool := false
  queueQuotaRuleSettings : List (Text × Nat) := []

namespace AclData

/-- The list of rules that both lookups iterate, empty if there is none. -/
def ruleSet (d : AclData) (id : Text) (action : Action) (objType : ObjectType) : List Rule :=
  match (d.actionList action).bind (· objType) with
  | none => []
  | some rules =>
    match rules.lookup id with
    | some rs => rs
    -- individual actorId not found
    | none => (rules.lookup wildcard).getD []

/-- The iteration of a list from its end to the first rule that matches. -/
def iterate (d : AclData) (lookupMatch : Rule → Option AclResult) (rs : List Rule) : AclResult :=
  (rs.reverse.findSome? lookupMatch).getD d.decisionMode

def lookup [LexicalCast] (d : AclData) (id : Text) (action : Action) (objType : ObjectType) (name : Text)
    (params : Option Params) : AclResult :=
  d.iterate (lookupMatchRule · id name params) (d.ruleSet id action objType)

/-- `lookup(id, action, objType, ExchangeName, RoutingKey)`. -/
def lookupPublish (d : AclData) (id : Text) (action : Action) (objType : ObjectType)
    (exchangeName routingKey : Text) : AclResult :=
  d.iterate (lookupMatchPublishExchangeRule · id exchangeName routingKey) (d.ruleSet id action objType)

/-- `getQueueQuotaForUser(theUserName, theResult)`: whether rules exist, and the result. -/
def getQueueQuotaForUser (d : AclData) (theUserName : Text) : Bool × Nat :=
  (d.queueQuotaRulesExist,
    if d.queueQuotaRulesExist then
      match d.queueQuotaRuleSettings.lookup theUserName with
      | some n => n
      | none => (d.queueQuotaRuleSettings.lookup "all".toList).getD 0
    else 0)

end AclData

end QB.Impl.Acl
