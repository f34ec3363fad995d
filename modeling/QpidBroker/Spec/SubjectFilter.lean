import QpidBroker.Impl.Outgoing
import QpidBroker.Spec.Topic

/-!
# Subject filters

What the filter of a link is to select (`Selects`), and the filters that a single pass
over the subject decides (`Direct`).
-/

namespace QB.Spec.Topic

open Impl

/-- The subjects that a filter selects. -/
def Selects (filter subject : Text) : Prop :=
  filter = [] ∨ filter = subject ∨ Matches filter.tokens subject.tokens

/-- Between two `#` stands at most one word besides `*`. -/
def SingleWords (filter : List Text) : Prop :=
  ∀ before segment after, filter = before ++ .hash :: (segment ++ .hash :: after) → .hash ∉ segment →
    (segment.filter (· ≠ .star)).length ≤ 1

/-- No `#`, or only `#`, or one `#` at the end and single words between the others. -/
def Direct (filter : List Text) : Prop :=
  .hash ∉ filter ∨ (∀ word ∈ filter, word = .hash) ∨
    (∃ before word, filter = before ++ [word, .hash] ∧ word ≠ .hash) ∧ SingleWords filter

end QB.Spec.Topic
