import QpidBroker.Impl.Queue

/-!
# The loops of a queue

What one turn of the loop of `remove`, and of that of `getNextMessage`, can do.
-/

namespace QB.Impl

open Subscriber

theorem FifoDistributor.acquire_eq_true {m m' : Message} (h : FifoDistributor.acquire m = (true, m')) :
    m.state = .available ∧ m' = m.setState .acquired := by
  unfold FifoDistributor.acquire at h
  split at h
  · exact ⟨‹_›, by simpa using h.symm⟩
  · simp at h

namespace Queue

variable {M : Type} [Messages M] {q q' : Queue M}

omit [Messages M] in
theorem new_current (messages : M) (settings : QueueDepth) (broker : Option (BitVec 64)) (hasStore : Bool) :
    (new messages settings broker hasStore).current =
      ⟨⟨0, true⟩, ⟨0, decide ((new messages settings broker hasStore).maxDepth.size.value ≠ 0)⟩⟩ := by
  simp only [new]
  split <;> split <;> simp_all [QueueDepth.setCount, QueueDepth.setSize]

omit [Messages M] in
/-- `enqueue`: the message is admitted; is not, and nothing changes; or is
admitted, and then withdrawn as the store throws. -/
theorem enqueue_cases (q : Queue M) (m : Message) (storeThrows : Bool) :
    q.enqueue m storeThrows = (.ok true, q.recoverPrepared m) ∨
    (∃ r, r ≠ .ok true ∧ q.enqueue m storeThrows = (r, q)) ∨
    ∃ e, q.enqueue m storeThrows = (.error e, (q.recoverPrepared m).enqueueAborted m) := by
  unfold enqueue checkDepth
  by_cases hd : q.deleted = true
  · exact .inr (.inl ⟨.ok false, by simp, by simp [hd]⟩)
  by_cases hc : (q.maxDepth.toBool && (q.maxDepth.sub q.current).lt (depthOf m)) = true
  · exact .inr (.inl ⟨.error "Maximum depth exceeded", by simp, by simp [hd, hc]⟩)
  · by_cases ht : (m.isPersistent && q.hasStore && storeThrows) = true
    · exact .inr (.inr ⟨"store", by simp [hd, hc, ht, recoverPrepared]⟩)
    · exact .inl (by simp [hd, hc, ht, recoverPrepared])

/-- A turn of the loop of `remove`: it ends, or goes on with the message taken
off the queue or passed over. -/
theorem removeLoop_cases {maxCount maxTests : BitVec 32} {predicate : Message → Bool} {fuel : Nat}
    {c : QueueCursor} {count tests : BitVec 32} {removed ms : List Message}
    (h : removeLoop maxCount predicate maxTests (fuel + 1) q c count tests removed = some (ms, q')) :
    (∃ c' messages, Messages.next q.messages c = (none, c', messages) ∧
      ms = removed ∧ { q with messages := messages } = q') ∨
    ∃ p c' messages m, Messages.next q.messages c = (some p, c', messages) ∧ Messages.get messages p = some m ∧
      ((((maxTests ≠ 0 ∧ tests ≥ maxTests) ∨ (maxCount ≠ 0 ∧ count ≥ maxCount)) ∧
          ms = removed ∧ { q with messages := messages } = q') ∨
        (predicate m = true ∧ ¬(maxTests ≠ 0 ∧ tests ≥ maxTests) ∧
          removeLoop maxCount predicate maxTests fuel (takeOff { q with messages := messages } p c') c'
            (count + 1) (tests + 1) (removed ++ [m]) = some (ms, q')) ∨
        (predicate m = false ∧ removeLoop maxCount predicate maxTests fuel { q with messages := messages } c'
            count (tests + 1) removed = some (ms, q'))) := by
  rw [removeLoop] at h
  rcases hn : Messages.next q.messages c with ⟨_ | p, c', messages⟩
  · simp only [hn, Option.some.injEq, Prod.mk.injEq] at h
    exact .inl ⟨c', messages, rfl, h.1.symm, h.2⟩
  simp only [hn] at h
  rcases hm : Messages.get messages p with _ | m
  · simp [hm] at h
  refine .inr ⟨p, c', messages, m, rfl, hm, ?_⟩
  simp only [hm] at h
  by_cases ht : maxTests ≠ 0 ∧ tests ≥ maxTests
  · simp only [ht, ne_eq, not_false_eq_true, and_self, if_true, Option.some.injEq, Prod.mk.injEq] at h
    exact .inl ⟨.inl ht, h.1.symm, h.2⟩
  rw [if_neg ht] at h
  by_cases hp : predicate m = true
  swap
  · rw [if_neg hp] at h
    exact .inr (.inr ⟨by simpa using hp, h⟩)
  rw [if_pos hp] at h
  by_cases hcnt : maxCount ≠ 0 ∧ count ≥ maxCount
  · rw [if_pos hcnt] at h
    obtain ⟨h1, h2⟩ := Prod.mk.inj (Option.some.inj h)
    exact .inl ⟨.inr hcnt, h1.symm, h2⟩
  · rw [if_neg hcnt] at h
    exact .inr (.inl ⟨hp, ht, h⟩)

section GetNextMessage

variable {κ : Type} [Subscriber κ]

/-- What becomes of the listeners, and of those to notify, where a consumer leaves
a message to others. -/
def passOn (q : Queue M) (c : Consumer κ) (set : NotificationSet) : QueueListeners × NotificationSet :=
  if c.preAcquires then q.listeners.populate set else (q.listeners, set)

variable {expired : Message → Bool} {fuel : Nat} {c c' : Consumer κ} {set' : NotificationSet}
  {r : Outcome (Messages.Ptr M)}

/-- A turn of the loop of `getNextMessage`. There is no message left, or there
is one, which has expired; is acquired; is acquired by another; is browsed; is
refused for now; or does not pass the filter. -/
theorem getNextLoop_cases {set : NotificationSet}
    (h : getNextLoop expired (fuel + 1) q c set = some (r, q', c', set')) :
    (∃ cursor messages, Messages.next q.messages c.cursor = (none, cursor, messages) ∧ r = .nothing ∧
      { q with messages := messages, listeners := q.listeners.addListener c.id c.preAcquires } = q' ∧
      { c with cursor := cursor } = c' ∧ set = set') ∨
    ∃ p cursor messages m, Messages.next q.messages c.cursor = (some p, cursor, messages) ∧
      Messages.get messages p = some m ∧
      ((expired m = true ∧ getNextLoop expired fuel (takeOff { q with messages := messages } p cursor)
          { c with cursor := cursor } set = some (r, q', c', set')) ∨
        expired m = false ∧
        ((filter c.impl m = true ∧ (accept c.impl m).1 = true ∧ c.preAcquires = true ∧
          m.state = .available ∧ r = .found (m.setState .acquired).deliver ∧
          { q with messages := Messages.modify messages p fun _ => (m.setState .acquired).deliver } = q' ∧
          { c with cursor := cursor, impl := (accept c.impl m).2 } = c' ∧ set = set') ∨
        (filter c.impl m = true ∧ (accept c.impl m).1 = true ∧ c.preAcquires = true ∧
          m.state ≠ .available ∧ getNextLoop expired fuel { q with messages := messages }
            { c with cursor := cursor, impl := (accept c.impl m).2 } set = some (r, q', c', set')) ∨
        (filter c.impl m = true ∧ (accept c.impl m).1 = true ∧ c.preAcquires = false ∧
          r = .found m ∧ { q with messages := messages } = q' ∧
          { c with cursor := cursor, impl := (accept c.impl m).2 } = c' ∧ set = set') ∨
        (filter c.impl m = true ∧ (accept c.impl m).1 = false ∧
          r = .refused p ∧ { q with messages := messages, listeners := (q.passOn c set).1 } = q' ∧
          { c with impl := (accept c.impl m).2 } = c' ∧ (q.passOn c set).2 = set') ∨
        (filter c.impl m = false ∧
          getNextLoop expired fuel { q with messages := messages, listeners := (q.passOn c set).1 }
            { c with cursor := cursor } (q.passOn c set).2 = some (r, q', c', set')))) := by
  rw [getNextLoop] at h
  rcases hn : Messages.next q.messages c.cursor with ⟨_ | p, cursor, messages⟩
  · simp only [hn, Option.some.injEq, Prod.mk.injEq] at h
    exact .inl ⟨cursor, messages, rfl, h.1.symm, h.2⟩
  simp only [hn] at h
  rcases hm : Messages.get messages p with _ | m
  · simp [hm] at h
  refine .inr ⟨p, cursor, messages, m, rfl, hm, ?_⟩
  simp only [hm] at h
  cases he : expired m with
  | true =>
    rw [if_pos he] at h
    exact .inl ⟨rfl, h⟩
  | false =>
    refine .inr ⟨rfl, ?_⟩
    rw [if_neg (by simp [he])] at h
    cases hf : filter c.impl m with
    | false =>
      rw [if_neg (by simp [hf])] at h
      exact .inr (.inr (.inr (.inr ⟨rfl, h⟩)))
    | true =>
      rw [if_pos hf] at h
      rcases ha : accept c.impl m with ⟨_ | _, impl⟩
      · simp only [ha, Bool.false_eq_true, if_false, Option.some.injEq, Prod.mk.injEq] at h
        exact .inr (.inr (.inr (.inl ⟨rfl, rfl, h.1.symm, h.2⟩)))
      simp only [ha, if_true] at h
      cases hp : c.preAcquires with
      | false =>
        simp only [hp, Bool.false_eq_true, if_false, Option.some.injEq, Prod.mk.injEq] at h
        exact .inr (.inr (.inl ⟨rfl, rfl, rfl, h.1.symm, h.2⟩))
      | true =>
        simp only [hp, FifoDistributor.acquire] at h
        by_cases hs : m.state = .available
        · simp only [hs, if_true, Option.some.injEq, Prod.mk.injEq] at h
          exact .inl ⟨rfl, rfl, rfl, hs, h.1.symm, h.2⟩
        · simp only [hs] at h
          exact .inr (.inl ⟨rfl, rfl, rfl, hs, h⟩)

theorem getNextMessage_eq {l : List Nat} (h : getNextMessage expired fuel q c = some (r, q', c', l)) :
    ∃ set, getNextLoop expired fuel q c {} = some (r, q', c', set) ∧ set.notify = l := by
  obtain ⟨⟨r1, q1, c1, set⟩, hl, he⟩ := Option.map_eq_some_iff.1 h
  obtain ⟨rfl, rfl, rfl, rfl⟩ : _ ∧ _ ∧ _ ∧ _ := by simpa using he
  exact ⟨set, hl, rfl⟩

theorem getNextLoop_type (hn : ∀ (q : M) (c : QueueCursor), (Messages.next q c).2.1.type = c.type)
    {set : NotificationSet}
    (h : getNextLoop expired fuel q c set = some (r, q', c', set')) :
    c'.cursor.type = c.cursor.type := by
  induction fuel generalizing q c set with
  | zero => simp [getNextLoop] at h
  | succ fuel ih =>
    have ht := hn q.messages c.cursor
    rcases getNextLoop_cases h with ⟨cursor, messages, he, -, -, rfl, -⟩ | ⟨p, cursor, messages, m, he, -, h⟩
    · simpa [he] using ht
    simp only [he] at ht
    rcases h with ⟨-, h⟩ | ⟨-, ⟨-, -, -, -, -, -, rfl, -⟩ | ⟨-, -, -, -, h⟩ | ⟨-, -, -,
      -, -, rfl, -⟩ |
      ⟨-, -, -, -, rfl, -⟩ | ⟨-, h⟩⟩
    · exact (ih h).trans ht
    · exact ht
    · exact (ih h).trans ht
    · exact ht
    · rfl
    · exact (ih h).trans ht

end GetNextMessage

end Queue

end QB.Impl
