import QpidBroker.Impl.PagedQueue
import QpidBroker.Spec.LastValue
import QpidBroker.Spec.Ledger

/-!
# What a paged queue is for

It holds the messages published and not deleted, whichever of its pages are in memory, and
finds each under its number. What is on a page is read off the page in memory, or off what
would be loaded.
-/

namespace QB.Impl

open Serial

/-- A message, without what the broker noted of its deliveries. -/
def face (m : Message) : Message := { encoding := m.encoding, state := m.state, sequence := m.sequence }

/-- The messages of the page, as they are in memory or as they would be loaded. -/
def Page.view (page : Page) : List Message :=
  if page.isLoaded then page.messages.map face
  else (page.stored.take page.count).map fun e => page.reload e.1

namespace PagedQueue

/-- Each page, by its number, with what it holds. -/
abbrev View := List (SequenceNumber × List Message)

def viewOf (used : List (SequenceNumber × Page)) : View := used.map fun e => (e.1, e.2.view)

def view (q : PagedQueue) : View := viewOf q.used

/-- The messages on the pages, those deleted among them. -/
def all (v : View) : List Message := v.flatMap (·.2)

/-- The number of a page, and those of its messages. -/
def numbersOf (P : SequenceNumber × List Message) : List SequenceNumber := P.1 :: P.2.map (·.sequence)

/-- The number is ahead of those on the pages, by less than a half of the numbers. -/
def Fits (v : View) (s : SequenceNumber) : Prop :=
  ∀ P ∈ v, ∀ x ∈ numbersOf P, 0 < dist x s ∧ dist x s + 2 < 2 ^ 31

/-- The numbers of the pages are gone through, not all numbers there are. -/
instance (v : View) (s : SequenceNumber) : Decidable (Fits v s) :=
  decidable_of_iff ((v.all fun P => (numbersOf P).all fun x => decide (0 < dist x s ∧ dist x s + 2 < 2 ^ 31)) = true)
    (by simp only [Fits, List.all_eq_true, decide_eq_true_eq])

/-- The message goes on the last page, which has room for it. -/
def Joins (q : PagedQueue) (added : Message) (encoded : Nat) : Prop :=
  encoded ≤ q.pageSize ∧ ((q.require (q.used.length - 1)).addTo (q.used.length - 1) added encoded).1 = true

instance (q : PagedQueue) (added : Message) (encoded : Nat) : Decidable (Joins q added encoded) :=
  inferInstanceAs (Decidable (_ ∧ _))

def found (q : PagedQueue) (p : SequenceNumber) : Option Message :=
  (q.find p none).1.bind (q.find p none).2.2.get

end PagedQueue

end QB.Impl

namespace QB.Spec.Paged

open Impl PagedQueue LastValue

/-- A call made on the queue, and what it says of the messages: one is published if `publish`
does not throw. -/
def step (s : PagedQueue × Ledger) (a : PagedQueue.Call) : Option (PagedQueue × Ledger) :=
  (s.1.call a).map fun q => (q,
    match a with
    | .publish m encoded =>
      match (s.1.publish m encoded).1 with
      | .ok _ => s.2 ++ [m]
      | .error _ => s.2
    | .deleted c => if c.valid then s.2.filter fun m => m.sequence ≠ c.position else s.2
    | .acquire _ => s.2
    | .release _ => s.2
    | .next _ => s.2
    | .find _ _ => s.2)

/-- Under each number the message published and not deleted is found, and nothing else; no
assertion fails on the way. -/
def FindsExactly (s : PagedQueue × Ledger) : Prop :=
  ∀ p, (s.1.find p none).2.2.aborted = false ∧ (s.1.found p).map content = (s.2.lookup p).map content

/-- Numbers increase, with gaps or without. -/
def Increasing (q : PagedQueue) : PagedQueue.Call → Prop
  | .publish m _ => Fits q.view m.sequence
  | _ => True

/-- A message that goes on the last page has the number after the last there, so that page is
not one that a call which threw has left without messages. -/
def Contiguous (q : PagedQueue) : PagedQueue.Call → Prop
  | .publish m encoded =>
    Joins q m encoded → ∀ P ∈ q.view.getLast?, ∃ x ∈ P.2.getLast?, m.sequence = x.sequence + 1
  | _ => True

/-- A message that is deleted is alone on its page. -/
def Alone (q : PagedQueue) : PagedQueue.Call → Prop
  | .deleted c => c.valid = true → ∀ P ∈ q.view, (∃ m ∈ P.2, m.sequence = c.position) →
      ∀ m ∈ P.2, m.sequence = c.position
  | _ => True

/-- A message that is deleted is not released. -/
def ReleasesHeld (q : PagedQueue) : PagedQueue.Call → Prop
  | .release c => c.valid = true → ∀ m ∈ all q.view, m.sequence = c.position → m.state ≠ .deleted
  | _ => True

instance (q : PagedQueue) : (a : PagedQueue.Call) → Decidable (Increasing q a)
  | .publish m _ => inferInstanceAs (Decidable (Fits q.view m.sequence))
  | .deleted _ | .acquire _ | .release _ | .next _ | .find _ _ => .isTrue trivial

instance (q : PagedQueue) : (a : PagedQueue.Call) → Decidable (Contiguous q a)
  | .publish m encoded => inferInstanceAs (Decidable (Joins q m encoded → _))
  | .deleted _ | .acquire _ | .release _ | .next _ | .find _ _ => .isTrue trivial

instance (q : PagedQueue) : (a : PagedQueue.Call) → Decidable (Alone q a)
  | .deleted c => inferInstanceAs (Decidable (c.valid = true → _))
  | .publish _ _ | .acquire _ | .release _ | .next _ | .find _ _ => .isTrue trivial

instance (q : PagedQueue) : (a : PagedQueue.Call) → Decidable (ReleasesHeld q a)
  | .release c => inferInstanceAs (Decidable (c.valid = true → _))
  | .publish _ _ | .deleted _ | .acquire _ | .next _ | .find _ _ => .isTrue trivial

end QB.Spec.Paged
