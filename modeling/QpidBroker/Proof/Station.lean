import QpidBroker.Framework.Run
import QpidBroker.Proof.Queue
import QpidBroker.Spec.Station

/-!
# What a queue keeps of its container

A property of containers, and of the cursors that go with one, is kept by every
operation of a queue if each call on the container keeps it
(`Container`). `getNextLoop_refused` says what is known where
`getNextMessage` finds a message its consumer cannot accept.
-/

namespace QB.Impl

open Spec List Option

/-- A container that may follow another: it has the property, and the cursors
that went with the other go with it. -/
structure Follows {M : Type} (Ok : M → Prop) (Knows : M → QueueCursor → Prop) (q q' : M) : Prop where
  ok : Ok q'
  knows (c : QueueCursor) : Knows q c → Knows q' c

/-- A property of containers that each call keeps: which containers, which
cursors go with one, and which messages may be published to it. -/
structure Container (M : Type) [Messages M] where
  Ok : M → Prop
  Knows : M → QueueCursor → Prop
  Fits : M → Message → Prop
  knows_new (q : M) (type : SubscriptionType) : Knows q { type := type }
  deleted {q : M} (c : QueueCursor) : Ok q → Follows Ok Knows q (Messages.deleted q c).2
  publish {q : M} {m : Message} : Ok q → Fits q m → Follows Ok Knows q (Messages.publish q m).2
  release {q q' : M} {c : QueueCursor} {r : Option (Messages.Ptr M)} : Ok q →
    Messages.release q c = some (r, q') → Follows Ok Knows q q'
  modify {q : M} {p : Messages.Ptr M} {f : Message → Message} : Ok q →
    (∀ m ∈ Messages.get q p, (f m).sequence = m.sequence ∧ ((f m).state = .deleted ↔ m.state = .deleted)) →
    Follows Ok Knows q (Messages.modify q p f)
  next {q : M} {c : QueueCursor} : Ok q → Knows q c →
    Follows Ok Knows q (Messages.next q c).2.2 ∧ Knows (Messages.next q c).2.2 (Messages.next q c).2.1

namespace Container

variable {M : Type} [Messages M] (C : Container M)

/-- The container of a queue may be followed by that of another. -/
def Keeps (q q' : Queue M) : Prop := Follows C.Ok C.Knows q.messages q'.messages

variable {C} {q q' q'' : Queue M}

theorem Keeps.refl (h : C.Ok q.messages) : C.Keeps q q := ⟨h, fun _ => id⟩

theorem Keeps.trans (h : C.Keeps q q') (h' : C.Keeps q' q'') : C.Keeps q q'' :=
  ⟨h'.ok, fun c hc => h'.knows c (h.knows c hc)⟩

/-- The property that every container has. -/
def trivial (M : Type) [Messages M] : Container M where
  Ok _ := True
  Knows _ _ := True
  Fits _ _ := True
  knows_new _ _ := ⟨⟩
  deleted _ _ := ⟨⟨⟩, fun _ => id⟩
  publish _ _ := ⟨⟨⟩, fun _ => id⟩
  release _ _ := ⟨⟨⟩, fun _ => id⟩
  modify _ _ := ⟨⟨⟩, fun _ => id⟩
  next _ _ := ⟨⟨⟨⟩, fun _ => id⟩, ⟨⟩⟩

/-! ## Operations of the queue -/

theorem keeps_push (h : C.Ok q.messages) {m : Message} (hm : C.Fits q.messages (m.setSequence (q.sequence + 1))) :
    C.Keeps q (q.push m).2.1 := by
  have hp := C.publish h hm
  rcases hr : Messages.publish q.messages (m.setSequence (q.sequence + 1)) with ⟨_ | _, messages⟩ <;>
    simp only [hr] at hp <;> simp only [Queue.push, hr] <;> exact hp

variable {c : QueueCursor}

theorem keeps_release (h : C.Ok q.messages) {b : Bool} {l : List Nat}
    (hr : q.release c b = some (q', l)) : C.Keeps q q' := by
  unfold Queue.release at hr
  split at hr
  · obtain ⟨rfl, -⟩ : q = q' ∧ _ := by simpa using hr
    exact .refl h
  simp only [map_eq_some_iff] at hr
  obtain ⟨⟨r, q1⟩, h1, he⟩ := hr
  have hk := C.release h h1
  cases r with
  | none =>
    obtain ⟨rfl, -⟩ : _ = q' ∧ _ := by simpa using he
    exact hk
  | some p =>
    obtain ⟨rfl, -⟩ : _ = q' ∧ _ := by simpa using he
    cases b
    · have hm := C.modify (p := p) (f := Message.undeliver) hk.ok fun m _ => ⟨rfl, Iff.rfl⟩
      exact ⟨hm.ok, fun c hc => hm.knows c (hk.knows c hc)⟩
    · exact hk

theorem keeps_takeOff (h : C.Ok q.messages) (p : Messages.Ptr M) (c : QueueCursor) : C.Keeps q (q.takeOff p c) := by
  unfold Queue.takeOff
  split <;> exact C.deleted c h

theorem keeps_dequeueMessageAt (h : C.Ok q.messages) (p : SequenceNumber) : C.Keeps q (q.dequeueMessageAt p).2 := by
  unfold Queue.dequeueMessageAt
  split
  · exact keeps_takeOff h _ _
  · exact .refl h

theorem keeps_modify_acquired (h : C.Ok q.messages) {p : Messages.Ptr M} {m : Message} {f : Message → Message}
    (hm : Messages.get q.messages p = some m) (hs : m.state = .available) (hq : (f m).sequence = m.sequence)
    (hf : (f m).state = .acquired) :
    C.Keeps q { q with messages := Messages.modify q.messages p f } := by
  refine C.modify h fun m' hm' => ?_
  cases hm.symm.trans hm'
  exact ⟨hq, by simp [hs, hf]⟩

theorem keeps_acquire (h : C.Ok q.messages) (c : QueueCursor) : C.Keeps q (q.acquire c).2 := by
  unfold Queue.acquire
  split
  · exact .refl h
  split
  · rename_i p _ m hm
    obtain ⟨m0, hm0, ha⟩ := map_eq_some_iff.1 hm
    obtain ⟨hs, rfl⟩ := FifoDistributor.acquire_eq_true ha
    exact keeps_modify_acquired h hm0 hs rfl rfl
  · exact .refl h

theorem keeps_dequeue (h : C.Ok q.messages) (b : Bool) (c : QueueCursor) : C.Keeps q (q.dequeue b c) := by
  unfold Queue.dequeue
  split
  · exact .refl h
  split
  · exact .refl h
  · split
    · exact .refl h
    · exact keeps_takeOff h _ _

theorem keeps_dequeueCommitted (h : C.Ok q.messages) (c : QueueCursor) : C.Keeps q (q.dequeueCommitted c) := by
  unfold Queue.dequeueCommitted
  split
  · exact .refl h
  · exact keeps_takeOff h _ _

theorem keeps_reject (h : C.Ok q.messages) (c : QueueCursor) : C.Keeps q (q.reject c).2 := by
  unfold Queue.reject
  split
  · exact .refl h
  · exact keeps_takeOff h _ _

theorem keeps_next (h : C.Ok q.messages) {c' : QueueCursor} (hc : C.Knows q.messages c) {r : Option (Messages.Ptr M)}
    {m : M} (hn : Messages.next q.messages c = (r, c', m)) :
    C.Keeps q { q with messages := m } ∧ C.Knows m c' := by
  have hk := C.next h hc
  rw [hn] at hk
  exact hk

theorem keeps_removeLoop {maxCount maxTests : BitVec 32} {predicate : Message → Bool} {fuel : Nat}
    {count tests : BitVec 32} {removed ms : List Message} (h : C.Ok q.messages)
    (hc : C.Knows q.messages c)
    (hr : Queue.removeLoop maxCount predicate maxTests fuel q c count tests removed = some (ms, q')) :
    C.Keeps q q' := by
  induction fuel generalizing q c count tests removed with
  | zero => simp [Queue.removeLoop] at hr
  | succ fuel ih =>
    rcases Queue.removeLoop_cases hr with ⟨c', messages, hn, -, rfl⟩ | ⟨p, c', messages, m, hn, hm, hr⟩
    · exact (keeps_next h hc hn).1
    obtain ⟨hk, hc'⟩ := keeps_next h hc hn
    rcases hr with ⟨-, -, rfl⟩ | ⟨-, -, hr⟩ | ⟨-, hr⟩
    · exact hk
    · have ht := keeps_takeOff hk.ok p c'
      exact (hk.trans ht).trans (ih ht.ok (ht.knows _ hc') hr)
    · exact hk.trans (ih hk.ok hc' hr)

/-! ## The next message for a consumer -/

section GetNextMessage

variable {κ : Type} [Subscriber κ] {expired : Message → Bool} {fuel : Nat} {c c' : Consumer κ}
  {set set' : NotificationSet} {r : Outcome (Messages.Ptr M)}

theorem keeps_getNextLoop (h : C.Ok q.messages) (hc : C.Knows q.messages c.cursor)
    (hr : Queue.getNextLoop expired fuel q c set = some (r, q', c', set')) :
    C.Keeps q q' ∧ C.Knows q'.messages c'.cursor := by
  induction fuel generalizing q c set with
  | zero => simp [Queue.getNextLoop] at hr
  | succ fuel ih =>
    rcases Queue.getNextLoop_cases hr with ⟨cursor, messages, hn, he⟩ | ⟨p, cursor, messages, m, hn, hm, hr⟩
    · obtain ⟨-, rfl, rfl, -⟩ := he
      exact keeps_next h hc hn
    obtain ⟨hk, hc'⟩ := keeps_next h hc hn
    rcases hr with ⟨-, hr⟩ | ⟨-, ⟨-, -, -, hs, -, rfl, rfl, -⟩ | ⟨-, -, -, -, hr⟩ | ⟨-,
      -, -, -, rfl, rfl, -⟩ |
      ⟨-, -, -, rfl, rfl, -⟩ | ⟨-, hr⟩⟩
    · have ht := keeps_takeOff hk.ok p cursor
      obtain ⟨hk', hc2⟩ := ih ht.ok (ht.knows _ hc') hr
      exact ⟨(hk.trans ht).trans hk', hc2⟩
    · have hm := keeps_modify_acquired (f := fun _ => (m.setState .acquired).deliver) hk.ok hm hs rfl rfl
      exact ⟨hk.trans hm, hm.knows _ hc'⟩
    · obtain ⟨hk', hc2⟩ := ih hk.ok hc' hr
      exact ⟨hk.trans hk', hc2⟩
    · exact ⟨hk, hc'⟩
    · exact ⟨hk, hk.knows _ hc⟩
    · have hp : C.Keeps q { q with messages := messages, listeners := (q.passOn c set).1 } := hk
      obtain ⟨hk', hc2⟩ := ih hp.ok hc' hr
      exact ⟨hp.trans hk', hc2⟩

/-- Where a message is refused, `next` had returned it for the cursor that is
restored, and the container is left as it was then. -/
theorem getNextLoop_refused {p : Messages.Ptr M} (h : C.Ok q.messages) (hc : C.Knows q.messages c.cursor)
    (hr : Queue.getNextLoop expired fuel q c set = some (.refused p, q', c', set')) :
    ∃ q1 cursor, C.Ok q1 ∧ C.Knows q1 c'.cursor ∧ Messages.next q1 c'.cursor = (some p, cursor, q'.messages) := by
  induction fuel generalizing q c set with
  | zero => simp [Queue.getNextLoop] at hr
  | succ fuel ih =>
    rcases Queue.getNextLoop_cases hr with ⟨_, _, _, he⟩ | ⟨p', cursor, messages, m, hn, hm, hr⟩
    · simp at he
    obtain ⟨hk, hc'⟩ := keeps_next h hc hn
    rcases hr with ⟨-, hr⟩ | ⟨-, ⟨-, -, -, -, he, -⟩ | ⟨-, -, -, -, hr⟩ | ⟨-, -, -, he, -⟩ |
      ⟨-, -, he, rfl, rfl, -⟩ | ⟨-, hr⟩⟩
    · have ht := keeps_takeOff hk.ok p' cursor
      exact ih ht.ok (ht.knows _ hc') hr
    · simp at he
    · exact ih hk.ok hc' hr
    · simp at he
    · obtain rfl : p = p' := by simpa using he
      exact ⟨q.messages, cursor, h, hc, hn⟩
    · have hp : C.Keeps q { q with messages := messages, listeners := (q.passOn c set).1 } := hk
      exact ih hp.ok hc' hr

end GetNextMessage

/-! ## Runs of a queue and its consumers -/

variable {κ : Type} {s s' : Station M κ}

def InBounds (C : Container M) (s : Station M κ) : Station.Op κ → Prop
  | .push m => C.Fits s.queue.messages (m.setSequence (s.queue.sequence + 1))
  | _ => True

/-- The container has the property, and the cursors of all consumers go with it. -/
structure Holds (C : Container M) (s : Station M κ) : Prop where
  ok : C.Ok s.queue.messages
  knows : ∀ c ∈ s.consumers, C.Knows s.queue.messages c.cursor

theorem Holds.of_keeps (h : C.Holds s) {q : Queue M} (hk : C.Keeps s.queue q) : C.Holds { s with queue := q } :=
  ⟨hk.ok, fun c hc => hk.knows _ (h.knows c hc)⟩

variable [Subscriber κ]

theorem Holds.step {op : Station.Op κ} (h : C.Holds s) (hop : C.InBounds s op) (ht : s.step op = some s') :
    C.Holds s' := by
  cases op with
  | subscribe type impl =>
    cases ht
    refine ⟨h.ok, fun c hc => ?_⟩
    rcases mem_append.1 hc with hc | hc
    · exact h.knows c hc
    · obtain rfl := mem_singleton.1 hc
      exact C.knows_new _ type
  | push m =>
    cases ht
    exact h.of_keeps (keeps_push h.ok hop)
  | release c b =>
    obtain ⟨⟨q, l⟩, hr, rfl⟩ := map_eq_some_iff.1 ht
    exact h.of_keeps (keeps_release h.ok hr)
  | acquire c =>
    cases ht
    exact h.of_keeps (keeps_acquire h.ok c)
  | dequeue b c =>
    cases ht
    exact h.of_keeps (keeps_dequeue h.ok b c)
  | dequeueCommitted c =>
    cases ht
    exact h.of_keeps (keeps_dequeueCommitted h.ok c)
  | dequeueMessageAt p =>
    cases ht
    exact h.of_keeps (keeps_dequeueMessageAt h.ok p)
  | reject c =>
    cases ht
    exact h.of_keeps (keeps_reject h.ok c)
  | remove fuel maxCount predicate type maxTests =>
    obtain ⟨⟨ms, q⟩, hr, rfl⟩ := map_eq_some_iff.1 ht
    exact h.of_keeps (keeps_removeLoop h.ok (C.knows_new _ type) hr)
  | dispatch k expired fuel =>
    obtain ⟨c, hc, hd⟩ := bind_eq_some_iff.1 ht
    obtain ⟨⟨r, q, c', l⟩, hg, rfl⟩ := map_eq_some_iff.1 hd
    obtain ⟨set', hl, -⟩ := Queue.getNextMessage_eq hg
    obtain ⟨hk, hc'⟩ := keeps_getNextLoop h.ok (h.knows c (mem_of_getElem? hc)) hl
    refine ⟨hk.ok, fun c1 hc1 => ?_⟩
    rcases mem_or_eq_of_mem_set hc1 with hc1 | rfl
    · exact hk.knows _ (h.knows c1 hc1)
    · exact hc'
  | change k impl =>
    cases ht
    refine ⟨h.ok, fun c hc => ?_⟩
    obtain ⟨i, hi⟩ := mem_iff_getElem?.1 hc
    simp only [getElem?_modify, Option.map_eq_map, map_eq_some_iff] at hi
    obtain ⟨c0, hc0, rfl⟩ := hi
    have := h.knows c0 (mem_of_getElem? hc0)
    split <;> exact this

theorem holds_run (h : C.Holds s) {ops : List (Station.Op κ)} (hr : Run Station.step C.InBounds s ops s') :
    C.Holds s' :=
  hr.keep (I := C.Holds) Holds.step h

end Container

end QB.Impl
