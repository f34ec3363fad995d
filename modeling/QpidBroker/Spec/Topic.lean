import QpidBroker.Impl.TopicExchange

/-!
# Topic routing

What a binding pattern matches, on the tokens of pattern and key, and which patterns
are bound after a run of binds and unbinds.
-/

namespace QB.Spec.Topic

open Impl

/-- `*` matches one token, `#` any number of them, and any other token itself. -/
def Matches : List Text → List Text → Prop
  | [], key => key = []
  | p :: ps, key =>
    if p = .hash then ∃ rest ∈ key.tails, Matches ps rest
    else match key with
      | [] => False
      | t :: key => (p = .star ∨ p = t) ∧ Matches ps key

theorem matches_hash (ps key : List Text) : Matches (.hash :: ps) key ↔ ∃ rest ∈ key.tails, Matches ps rest := by
  cases key <;> simp [Matches]

theorem matches_nil_right {p : Text} (h : p ≠ .hash) (ps : List Text) : ¬Matches (p :: ps) [] := by
  simp [Matches, h]

theorem matches_cons {p : Text} (h : p ≠ .hash) (ps : List Text) (t : Text) (key : List Text) :
    Matches (p :: ps) (t :: key) ↔ (p = .star ∨ p = t) ∧ Matches ps key := by
  simp [Matches, h]

instance : (ps key : List Text) → Decidable (Matches ps key)
  | [], key => inferInstanceAs (Decidable (key = []))
  | p :: ps, key =>
    have := instDecidableMatches ps
    if h : p = .hash then decidable_of_iff (∃ rest ∈ key.tails, Matches ps rest) (by rw [h, matches_hash])
    else match key with
      | [] => .isFalse (matches_nil_right h ps)
      | t :: key => decidable_of_iff ((p = .star ∨ p = t) ∧ Matches ps key) (by rw [matches_cons h])

inductive Op where
  | bind (queue : String) (pattern : Text)
  | unbind (queue : String) (pattern : Text)

/-- The bindings after an operation, each with its pattern as it is stored. -/
def step (bound : List (String × Text)) : Op → List (String × Text)
  | .bind queue pattern => (queue, TopicExchange.normalize pattern) :: bound
  | .unbind queue pattern => bound.filter (· ≠ (queue, TopicExchange.normalize pattern))

def bound (ops : List Op) : List (String × Text) := ops.foldl step []

/-- What the exchange does. -/
def perform (tree : TopicKeyNode) : Op → TopicKeyNode
  | .bind queue pattern => (TopicExchange.bind tree queue pattern).2
  | .unbind queue pattern => (TopicExchange.unbind tree queue pattern).2

end QB.Spec.Topic
