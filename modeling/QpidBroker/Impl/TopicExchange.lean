import Mathlib.Data.List.Basic

/-!
# The topic exchange

`broker/TopicKeyNode.h`, `broker/TopicExchange.cpp`: a tree of the tokens of
binding patterns, searched with the tokens of a routing key.

* A `std::string` is a list of characters (`Text`), and a `TokenIterator` over
  one is the list of tokens from the current one on, empty once it is finished.
* The functions of a node that search its children are given that search
  as a function, so that the recursion is over the tree.
* Left out: federation, the cache of `route`, management. A visitor never stops
  the search, as that of `route` does not.
-/

namespace QB.Impl

/-- A `std::string`, or a token of one. -/
abbrev Text := List Char

namespace Text

def star : Text := ['*']

def hash : Text := ['#']

/-- `TokenIterator(key)`. -/
def tokens (key : Text) : List Text := key.splitOn '.'

/-- `token` of an iterator that is not finished. -/
def token (p : Text) : Text := p.takeWhile (· ≠ '.')

def match1 (p : Text) (c : Char) : Bool := p.token = [c]

end Text

/-- `TopicKeyNode<BindingKey>`: `bindings` are the names of the queues in its
`bindingVector`. A map of children is a list of its entries. -/
structure TopicKeyNode where
  token : Text := []
  routePattern : Text := []
  bindings : List String := []
  childTokens : List (Text × TopicKeyNode) := []
  starChild : Option TopicKeyNode := none
  hashChild : Option TopicKeyNode := none

namespace TopicKeyNode

/-- The child for a token of a pattern. -/
def child (n : TopicKeyNode) (t : Text) : Option TopicKeyNode :=
  if t = .star then n.starChild else if t = .hash then n.hashChild else n.childTokens.lookup t

/-- The child for a token of a pattern is set, or reset. -/
def setChild (n : TopicKeyNode) (t : Text) (c : Option TopicKeyNode) : TopicKeyNode :=
  if t = .star then { n with starChild := c }
  else if t = .hash then { n with hashChild := c }
  else { n with childTokens := (c.map (t, ·)).toList ++ n.childTokens.filter (·.1 ≠ t) }

/-- `add(bKey, fullPattern)`, but for the pointer it returns. -/
def add (fullPattern : Text) : List Text → TopicKeyNode → TopicKeyNode
  | [], n => if n.routePattern.isEmpty then { n with routePattern := fullPattern } else n
  | t :: bKey, n => n.setChild t (some (add fullPattern bKey ((n.child t).getD { token := t })))

/-- What is done through the pointer to the bindings of a node. -/
def modify (f : List String → List String) : List Text → TopicKeyNode → TopicKeyNode
  | [], n => { n with bindings := f n.bindings }
  | t :: bKey, n => n.setChild t ((n.child t).map (modify f bKey))

/-- No bindings and no children: the parent can delete this node. -/
def isDead (n : TopicKeyNode) : Bool :=
  n.childTokens.isEmpty && n.starChild.isNone && n.hashChild.isNone && n.bindings.isEmpty

def remove : List Text → TopicKeyNode → Bool × TopicKeyNode
  | [], n => (n.isDead, n)
  | t :: bKey, n =>
    match n.child t with
    | none => (n.isDead, n)
    | some c =>
      let (dead, c) := remove bKey c
      let n := if dead then n.setChild t none else n.setChild t (some c)
      (n.isDead, n)

/-- `get(bKey)`: the bindings, if there is a node. -/
def get : List Text → TopicKeyNode → Option (List String)
  | [], n => some n.bindings
  | t :: bKey, n => (n.child t).bind (get bKey)

/-- The pattern of the node if it is bound, as it is visited only then. -/
def visit (n : TopicKeyNode) : List Text := if n.bindings.isEmpty then [] else [n.routePattern]

def iterateMatchString (n : TopicKeyNode) (children : List Text → List Text) (rKey : List Text) : List Text :=
  -- exact match of this node
  (if rKey.isEmpty then n.visit else []) ++ children rKey

def iterateMatchStar (n : TopicKeyNode) (children : List Text → List Text) : List Text → List Text
  | [] => []
  | _ :: rKey => (if rKey.isEmpty then n.visit else []) ++ children rKey

def iterateMatchHash (n : TopicKeyNode) (children : List Text → List Text) : List Text → List Text
  | [] => n.visit
  | t :: rKey => children (t :: rKey) ++ iterateMatchHash n children rKey

mutual

/-- `iterateMatch(rKey, iter)`: the patterns of the nodes visited. -/
def iterateMatch : TopicKeyNode → List Text → List Text
  | ⟨token, routePattern, bindings, childTokens, starChild, hashChild⟩, rKey =>
    let n : TopicKeyNode := ⟨token, routePattern, bindings, childTokens, starChild, hashChild⟩
    -- `iterateMatchChildren`: always try glob, as it can match empty keys
    let children (key : List Text) := iterateMatchChild hashChild key ++
      match key with
      | [] => []
      | t :: newKey => iterateMatchChild starChild (t :: newKey) ++ iterateMatchToken childTokens t newKey
    if token = .star then n.iterateMatchStar children rKey
    else if token = .hash then n.iterateMatchHash children rKey
    else n.iterateMatchString children rKey

/-- The search of a child, if there is one. -/
def iterateMatchChild : Option TopicKeyNode → List Text → List Text
  | none, _ => []
  | some n, key => iterateMatch n key

/-- The search of the child found under a token. -/
def iterateMatchToken : List (Text × TopicKeyNode) → Text → List Text → List Text
  | [], _, _ => []
  | (t', n) :: l, t, newKey => if t = t' then iterateMatch n newKey else iterateMatchToken l t newKey

end

def iterateMatchChildren (n : TopicKeyNode) (key : List Text) : List Text :=
  iterateMatchChild n.hashChild key ++
    match key with
    | [] => []
    | t :: newKey => iterateMatchChild n.starChild (t :: newKey) ++ iterateMatchToken n.childTokens t newKey

theorem iterateMatch_eq (n : TopicKeyNode) (rKey : List Text) : n.iterateMatch rKey =
    if n.token = .star then n.iterateMatchStar n.iterateMatchChildren rKey
    else if n.token = .hash then n.iterateMatchHash n.iterateMatchChildren rKey
    else n.iterateMatchString n.iterateMatchChildren rKey := by
  cases n
  rw [iterateMatch]
  rfl

end TopicKeyNode

namespace TopicExchange

/-- The loop of `Normalizer::normalize`: what it makes of the pattern from the
current token on. `fuel` bounds the turns, each of which leaves less of it. -/
def normalizeLoop : Nat → Text → Text
  | 0, p => p
  | fuel + 1, p =>
    if Text.match1 p '#' then
      match p.drop 1 with
      | [] => p
      | _ :: rest =>
        if Text.match1 rest '#' then
          -- erase #.# -> #
          normalizeLoop fuel rest
        else if Text.match1 rest '*' then
          -- swap #.* -> *.#
          '*' :: '.' :: normalizeLoop fuel ('#' :: rest.drop 1)
        else '#' :: '.' :: normalizeLoop fuel rest
    else
      match p.dropWhile (· ≠ '.') with
      | [] => p
      | _ :: rest => p.token ++ '.' :: normalizeLoop fuel rest

def normalize (pattern : Text) : Text := normalizeLoop (pattern.length + 1) pattern

/-- `bind(queue, routingKey, 0)`: whether the queue was not yet bound. -/
def bind (bindingTree : TopicKeyNode) (queue : String) (routingKey : Text) : Bool × TopicKeyNode :=
  let routingPattern := normalize routingKey
  let tree := bindingTree.add routingPattern routingPattern.tokens
  if ((tree.get routingPattern.tokens).getD []).contains queue then (false, tree)
  else (true, tree.modify (· ++ [queue]) routingPattern.tokens)

/-- `unbind(queue, routingKey, 0)`: whether the queue was bound. -/
def unbind (bindingTree : TopicKeyNode) (queue : String) (constRoutingKey : Text) : Bool × TopicKeyNode :=
  let routingKey := normalize constRoutingKey
  -- `getQueueBinding`
  match bindingTree.get routingKey.tokens with
  | none => (false, bindingTree)
  | some qv =>
    if qv.contains queue then
      -- `deleteBinding`
      let tree := bindingTree.modify (fun _ => qv.erase queue) routingKey.tokens
      (true, if (qv.erase queue).isEmpty then (tree.remove routingKey.tokens).2 else tree)
    else (false, bindingTree)

/-- The patterns of the nodes that a routing key visits. -/
def visited (bindingTree : TopicKeyNode) (routingKey : Text) : List Text :=
  bindingTree.iterateMatch routingKey.tokens

end TopicExchange

end QB.Impl
