import QpidBroker.Impl.Trace
import QpidBroker.Framework.Run

/-!
# What the trace of a message is to list

A message goes through queues and brokers, that add ids to its trace or clear it. Beside the
message a history keeps the ids that were added since it was last cleared.
-/

namespace QB.Spec.Trace

open Impl

/-- The ids of a trace. -/
def listed (trace : Text) : List Text := Text.split trace [',', ' ']

def ids (m : TracedMessage) : List Text := listed (m.annotations.getD m.encoding)

/-- A message, with the ids added to its trace. -/
structure History where
  message : TracedMessage
  added : List Text
deriving DecidableEq

inductive Op where
  | addTraceId (id : Text)
  | clearTrace
  | sendHeader

namespace History

def step (h : History) : Op → Option History
  | .addTraceId id => some ⟨h.message.addTraceId id, id :: h.added⟩
  | .clearTrace => some ⟨h.message.clearTrace, []⟩
  | .sendHeader => some { h with message := h.message.sendHeader }

/-- The trace lists the ids that were added, each once. -/
def Exact (h : History) : Prop := (ids h.message).Nodup ∧ ∀ x, x ∈ ids h.message ↔ x ∈ h.added

/-- A message is excluded by the ids that were added. -/
def Excludes (h : History) : Prop :=
  ∀ excludes, h.message.isExcluded excludes = true ↔ ∃ x ∈ excludes, x ∈ h.added

/-- The id of a call has no separators. -/
def Separate (_ : History) : Op → Prop
  | .addTraceId id => ',' ∉ id ∧ ' ' ∉ id
  | _ => True

/-- An id is added that the trace lists already, or that is no part of the trace received while
that, but for the id, is still the trace. -/
def Fair (h : History) : Op → Prop
  | .addTraceId id => id ≠ [] ∧
    if h.message.encoding ≠ [] ∧ id <:+: h.message.encoding then id ∈ ids h.message
    else ∀ x ∈ ids h.message ++ listed h.message.encoding, x ≠ id →
      (x ∈ ids h.message ↔ x ∈ listed h.message.encoding)
  | _ => True

instance (h : History) (op : Op) : Decidable (h.Separate op) :=
  match op with
  | .addTraceId id => inferInstanceAs (Decidable (',' ∉ id ∧ ' ' ∉ id))
  | .clearTrace | .sendHeader => .isTrue trivial

instance (h : History) (op : Op) : Decidable (h.Fair op) :=
  match op with
  | .addTraceId id => inferInstanceAs (Decidable (id ≠ [] ∧ ite _ _ _))
  | .clearTrace | .sendHeader => .isTrue trivial

end History

end QB.Spec.Trace
