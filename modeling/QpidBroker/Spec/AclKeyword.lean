import QpidBroker.Spec.Acl

/-!
# Keywords in the routing keys of rules

A pattern with the names of a user for its keywords, and when these names can be found
again in a key.
-/

namespace QB.Spec.Acl

open Impl Impl.Acl

inductive Keyword where
  | user | domain | userdomain
deriving DecidableEq

namespace Keyword

def all : List Keyword := [.user, .domain, .userdomain]

def text : Keyword → Text
  | .user => userSubst
  | .domain => domainSubst
  | .userdomain => userdomainSubst

/-- What the keyword stands for: the user's normalised name, domain, or both. -/
def name (id : Text) : Keyword → Text
  | .user => userOf id
  | .domain => domainOf id
  | .userdomain => normalizeUserId id

end Keyword

/-- A piece of a text. -/
inductive Piece where
  | char (c : Char)
  | keyword (k : Keyword)
deriving DecidableEq

/-- The keyword at the beginning of a text. -/
def keywordAt (t : Text) : Option Keyword := Keyword.all.find? (·.text <+: t)

/-- The pieces of a text, while `skip` characters of a keyword are still to be left out. -/
def piecesFrom : Nat → Text → List Piece
  | _, [] => []
  | skip + 1, _ :: t => piecesFrom skip t
  | 0, c :: t =>
    match keywordAt (c :: t) with
    | some k => .keyword k :: piecesFrom (k.text.length - 1) t
    | none => .char c :: piecesFrom 0 t

/-- The keywords of a text, and its other characters. -/
def pieces (t : Text) : List Piece := piecesFrom 0 t

/-- A piece with a text for a keyword. -/
def render (f : Keyword → Text) : Piece → Text
  | .char c => [c]
  | .keyword k => f k

/-- The pattern with the keywords replaced by the names of a user. -/
def expand (id pattern : Text) : Text := (pieces pattern).flatMap (render (·.name id))

/-! ## Names that can be told apart -/

/-- The user has a name and a domain, without characters that mean something in a pattern and
without being a part of a keyword. -/
def plain (id : Text) : Bool :=
  Keyword.all.all fun k => !(k.name id).isEmpty && (k.name id).all (fun c => !(['$', '\x7d', '*', '#'].contains c)) &&
    Keyword.all.all fun k' => !(k.name id <:+: k'.text)

/-- A name, in characters. -/
def spelled (id : Text) (k : Keyword) : List Piece := (k.name id).map .char

/-- A piece with the name for a keyword, unless it is one of `ks`. -/
def spell (id : Text) (ks : List Keyword) : Piece → List Piece
  | .char c => [.char c]
  | .keyword k => if ks.contains k then [.keyword k] else spelled id k

/-- The names of the user begin in the pattern with the names for its keywords only where
the keyword is: the name with the domain first, then the name, and then the domain, in what
is left of the characters. -/
structure Apart (id pattern : Text) : Prop where
  userdomain : BeginsOnlyAt (.keyword .userdomain) (spelled id .userdomain)
    ((pieces pattern).flatMap (spell id [.userdomain]))
  user : BeginsOnlyAt (.keyword .user) (spelled id .user) ((pieces pattern).flatMap (spell id [.userdomain, .user]))
  domain : BeginsOnlyAt (.keyword .domain) (spelled id .domain) (pieces pattern)

end QB.Spec.Acl
