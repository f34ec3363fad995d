import Mathlib.Algebra.Order.BigOperators.Group.List
import Mathlib.Algebra.Order.Group.Nat
import QpidBroker.Proof.MessageDeque
import QpidBroker.Proof.Queue
import QpidBroker.Spec.Account

/-!
# Queue depth accounting is exact

The depth of a queue is that of a list of sizes (`Depth`): those of the messages
held, and of the messages that have a place reserved. Each operation adds a
message to the list, moves it within, or takes it off.
-/

namespace QB.Impl

open Serial Spec List QueueDepth
open Option hiding map_map mem_map_of_mem

/-! ## The depth of a list of sizes -/

/-- The depth tracks the number of messages, and their sizes if they are tracked. -/
structure Depth (tracked : Bool) (d : QueueDepth) (sizes : List (BitVec 64)) : Prop where
  valid : d.count.valid = true
  tracks : d.size.valid = tracked
  count : d.count.value = BitVec.ofNat 32 sizes.length
  size : d.size.valid = true → d.size.value = sizes.sum
  untracked : d.size.valid = false → d.size.value = 0

namespace Depth

variable {t : Bool} {d : QueueDepth} {l l' : List (BitVec 64)} {m : Message}

theorem perm (h : Depth t d l) (hp : l.Perm l') : Depth t d l' :=
  ⟨h.valid, h.tracks, by rw [h.count, hp.length_eq], fun hv => by rw [h.size hv, hp.sum_eq], h.untracked⟩

theorem add (h : Depth t d l) : Depth t (d.addTo (Queue.depthOf m)) (m.getMessageSize :: l) := by
  refine ⟨by simp [addTo, Optional.addTo, h.valid], ?_, ?_, ?_, ?_⟩
  · rw [← h.tracks]
    simp only [addTo, Optional.addTo]
    split <;> rfl
  · simp only [addTo, Optional.addTo, h.valid, h.count, length_cons, BitVec.ofNat_add]
    rfl
  · intro hv
    simp only [addTo, Optional.addTo] at hv ⊢
    split at hv
    · rename_i hs
      simp [hs, h.size hs, Queue.depthOf, of, add_comm]
    · rename_i hs
      exact absurd hv hs
  intro hv
  simp only [addTo, Optional.addTo] at hv ⊢
  split at hv
  · rename_i hs
    exact absurd hs (by simpa using hv)
  · rename_i hs
    rw [if_neg hs]
    exact h.untracked hv

/-- A message taken off is taken from both counters. -/
theorem sub (h : Depth t d (m.getMessageSize :: l)) : Depth t (d.subTo (Queue.depthOf m)) l := by
  refine ⟨by simp [subTo, Optional.subTo, h.valid], ?_, ?_, ?_, ?_⟩
  · rw [← h.tracks]
    simp only [subTo, Optional.subTo]
    split <;> rfl
  · simp only [subTo, Optional.subTo, h.valid, h.count, length_cons, BitVec.ofNat_add]
    exact add_sub_cancel_right _ _
  · intro hv
    simp only [subTo, Optional.subTo] at hv ⊢
    split at hv
    · rename_i hs
      simp [hs, h.size hs, Queue.depthOf, of]
    · rename_i hs
      exact absurd hv hs
  intro hv
  simp only [subTo, Optional.subTo] at hv ⊢
  split at hv
  · rename_i hs
    exact absurd hs (by simpa using hv)
  · rename_i hs
    rw [if_neg hs]
    exact h.untracked hv

end Depth

namespace MessageDeque

open IndexedDeque

/-! ## The sizes of the messages held -/

/-- The size of a message, if it is not deleted. -/
def weight (m : Message) : Option (BitVec 64) := if m.state = .deleted then none else some m.getMessageSize

variable {m : Message} {d : MessageDeque}

theorem weight_of_deleted (h : m.state = .deleted) : weight m = none := if_pos h

theorem weight_of_ne (h : m.state ≠ .deleted) : weight m = some m.getMessageSize := if_neg h

def weights (d : MessageDeque) : List (BitVec 64) := d.messages.filterMap weight

theorem weights_eq (d : MessageDeque) : weights d =
    (d.messages.filter fun m => m.state ≠ .deleted).map (·.getMessageSize) := by
  unfold weights
  induction d.messages with
  | nil => rfl
  | cons m ms ih =>
    by_cases h : m.state = .deleted
    · rw [filterMap_cons_none (weight_of_deleted h), ih, filter_cons_of_neg (by simp [h])]
    · rw [filterMap_cons_some (weight_of_ne h), ih, filter_cons_of_pos (by simp [h])]
      rfl

theorem weights_of_live {d' : MessageDeque} (h : live () d' = live () d) : weights d' = weights d := by
  rw [weights_eq, weights_eq]
  exact congrArg _ h

/-- A change that does not delete keeps what is counted. -/
theorem weights_modify {i : Nat} {f : Message → Message}
    (h : ∀ m ∈ d.messages[i]?, weight (f m) = weight m) : weights (d.modify i f) = weights d := by
  have he : (d.messages.modify i f).map weight = d.messages.map weight := by
    refine ext_getElem? fun j => ?_
    simp only [getElem?_map, getElem?_modify]
    by_cases hij : i = j
    · subst hij
      cases hm : d.messages[i]? with
      | none => rfl
      | some m => simp [h m hm]
    · simp [hij]
  have hr : ∀ l : List Message, l.filterMap weight = (l.map weight).filterMap id := fun l => by
    rw [filterMap_map]; rfl
  rw [weights, weights, MessageDeque.modify, hr, he, ← hr]

/-- A deletion takes the size of one message away. -/
theorem weights_deleted {c : QueueCursor} {i : Nat} (hv : c.valid = true)
    (hi : d.index () c.position 0 = (true, i)) (hm : d.messages[i]? = some m) (hs : m.state ≠ .deleted) :
    (weights d).Perm (m.getMessageSize :: weights (d.deleted c).2) := by
  rw [MessageDeque.deleted, deleted_eq hv hi hm, weights_of_live (clean_live () _), weights, weights]
  obtain ⟨hlt, hget⟩ := List.getElem?_eq_some_iff.1 hm
  rw [set_eq_take_append_cons_drop, if_pos hlt]
  conv_lhs => rw [← take_append_drop i d.messages, drop_eq_getElem_cons hlt, hget]
  rw [filterMap_append, filterMap_append, filterMap_cons_some (weight_of_ne hs)]
  exact perm_middle

/-- Publishing adds the size of the message, unless it throws. -/
theorem weights_publish {d' : MessageDeque} {r : Except String Unit}
    (h : d.publish m = (r, d')) : weights d' = match r with
      | .ok _ => weights d ++ [m.getMessageSize]
      | .error _ => weights d := by
  have hl := publish_live () d m
  simp only [MessageDeque.publish, Prod.mk.injEq] at h
  obtain ⟨hr, rfl⟩ := h
  rcases hp : (IndexedDeque.publish () d m).1 with e | n <;> rw [hp] at hl hr <;> subst hr
  · exact weights_of_live hl
  · rw [weights_eq, weights_eq]
    exact (congrArg (List.map _) hl).trans (by rw [map_append]; rfl)

end MessageDeque

/-! ## The account of a queue -/

/-- The depth of the queue, whose maximum is `max`, is that of the messages it
holds and of `ws`. -/
structure Tally (max : QueueDepth) (q : Queue MessageDeque) (ws : List (BitVec 64)) : Prop where
  windowed : q.messages.Windowed
  maxDepth : q.maxDepth = max
  depth : Depth (max.size.value ≠ 0) q.current (q.messages.weights ++ ws)

namespace Tally

open MessageDeque

variable {max : QueueDepth} {q q' : Queue MessageDeque} {ws : List (BitVec 64)} {m : Message}

theorem enqueueAborted (h : Tally max q (m.getMessageSize :: ws)) : Tally max (q.enqueueAborted m) ws :=
  ⟨h.windowed, h.maxDepth, (h.depth.perm perm_middle).sub⟩

theorem recoverPrepared (h : Tally max q ws) : Tally max (q.recoverPrepared m) (m.getMessageSize :: ws) :=
  ⟨h.windowed, h.maxDepth, h.depth.add.perm perm_middle.symm⟩

/-- What was reserved becomes held, or is lost if the publication throws. -/
theorem push {r : Except String Unit} {b : Bool} {l : List Nat} (h : Tally max q (m.getMessageSize :: ws))
    (hf : ∀ x ∈ IndexedDeque.popTail () (q.sequence + 1) (IndexedDeque.clean () q.messages).messages,
      Ahead x.sequence (q.sequence + 1))
    (hp : q.push m b = (r, q', l)) :
    (r.isOk = true → Tally max q' ws) ∧ (r.isOk = false → Tally max q' (m.getMessageSize :: ws)) := by
  obtain ⟨ms, he, hw, -⟩ := h.windowed.publish (m := m.setSequence (q.sequence + 1)) hf
  have hwt := weights_publish he
  cases b with
  | true =>
    obtain ⟨rfl, rfl, -⟩ : _ ∧ _ ∧ _ := by simpa [Queue.push] using hp
    exact ⟨by simp [Except.toBool], fun _ => ⟨h.windowed, h.maxDepth, h.depth⟩⟩
  | false =>
    simp only [Queue.push, Messages.publish, he] at hp
    obtain ⟨rfl, rfl, -⟩ := hp
    refine ⟨fun _ => ⟨hw, h.maxDepth, ?_⟩, by simp [Except.toBool]⟩
    rw [hwt, append_assoc]
    exact h.depth

variable {c : QueueCursor} {f : Message → Message}

/-- A message is taken off the queue and off its depth together. -/
theorem takeOff {i : Nat} (h : Tally max q ws) (ha : At q.messages c i m) : Tally max (q.takeOff i c) ws := by
  have hp := weights_deleted ha.valid ha.index ha.get ha.state
  have hg : Messages.get q.messages i = some m := ha.get
  refine ⟨?_, ?_, ?_⟩
  · simp only [Queue.takeOff, hg]
    exact h.windowed.deleted c
  · simp only [Queue.takeOff, hg]
    exact h.maxDepth
  · simp only [Queue.takeOff, hg]
    exact (h.depth.perm (hp.append_right ws)).sub

theorem dequeueMessageAt (h : Tally max q ws) (p : SequenceNumber) : Tally max (q.dequeueMessageAt p).2 ws := by
  unfold Queue.dequeueMessageAt
  rcases hf : Messages.find q.messages p (some {}) with ⟨_ | i, c⟩
  · exact h
  · obtain ⟨m, hi, hm, hs, rfl⟩ := find_cases hf
    exact h.takeOff ⟨rfl, hi, hm, hs⟩

theorem dequeueCommitted (h : Tally max q ws) (c : QueueCursor) : Tally max (q.dequeueCommitted c) ws := by
  unfold Queue.dequeueCommitted
  rcases hf : Messages.findAt q.messages c with _ | i
  · exact h
  · obtain ⟨m, ha⟩ := findAt_at hf
    exact h.takeOff ha

theorem reject (h : Tally max q ws) (c : QueueCursor) : Tally max (q.reject c).2 ws := by
  unfold Queue.reject
  rcases hf : Messages.findAt q.messages c with _ | i
  · exact h
  · obtain ⟨m, ha⟩ := findAt_at hf
    exact h.takeOff ha

theorem dequeue (h : Tally max q ws) (b : Bool) (c : QueueCursor) : Tally max (q.dequeue b c) ws := by
  unfold Queue.dequeue
  split
  · exact h
  rcases hf : Messages.findAt q.messages c with _ | i
  · exact h
  cases b with
  | true => exact h
  | false =>
    obtain ⟨m, ha⟩ := findAt_at hf
    exact h.takeOff ha

theorem modify {i : Nat} (h : Tally max q ws)
    (hf : ∀ m ∈ q.messages.messages[i]?, (f m).sequence = m.sequence ∧ weight (f m) = weight m) :
    Tally max { q with messages := q.messages.modify i f } ws := by
  refine ⟨h.windowed.modify fun m hm => (hf m hm).1, h.maxDepth, ?_⟩
  rw [weights_modify fun m hm => (hf m hm).2]
  exact h.depth

theorem modify_acquired {i : Nat} (h : Tally max q ws) (hm : q.messages.messages[i]? = some m)
    (hs : m.state = .available) (hq : (f m).sequence = m.sequence) (hst : (f m).state = .acquired)
    (he : (f m).encoding = m.encoding) : Tally max { q with messages := q.messages.modify i f } ws := by
  refine h.modify fun m' hm' => ?_
  cases hm.symm.trans hm'
  exact ⟨hq, by simp [weight, hs, hst, Message.getMessageSize, he]⟩

theorem acquire (h : Tally max q ws) (c : QueueCursor) : Tally max (q.acquire c).2 ws := by
  unfold Queue.acquire
  split
  · exact h
  split
  · rename_i i _ m hm
    obtain ⟨m0, hm0, ha⟩ := map_eq_some_iff.1 hm
    obtain ⟨hs, rfl⟩ := FifoDistributor.acquire_eq_true ha
    exact h.modify_acquired hm0 hs rfl rfl rfl
  · exact h

/-- Removing takes messages off one by one. The induction is over the fuel. -/
theorem removeLoop {maxCount maxTests : BitVec 32} {predicate : Message → Bool} {fuel : Nat}
    {count tests : BitVec 32} {removed ms : List Message} (h : Tally max q ws)
    (hr : Queue.removeLoop maxCount predicate maxTests fuel q c count tests removed = some (ms, q')) :
    Tally max q' ws := by
  induction fuel generalizing q c count tests removed with
  | zero => simp [Queue.removeLoop] at hr
  | succ fuel ih =>
    rcases Queue.removeLoop_cases hr with ⟨c', messages, hn, -, rfl⟩ | ⟨i, c', messages, m, hn, hm, hr⟩
    · obtain rfl : q.messages = messages := congrArg (·.2.2) hn
      exact h
    obtain rfl : q.messages = messages := congrArg (·.2.2) hn
    obtain ⟨m', ha⟩ := next_at h.windowed (Prod.ext (congrArg (·.1) hn) (congrArg (·.2.1) hn))
    rcases hr with ⟨-, -, rfl⟩ | ⟨-, -, hr⟩ | ⟨-, hr⟩
    · exact h
    · exact ih (h.takeOff ha) hr
    · exact ih h hr

theorem getNextLoop {κ : Type} [Subscriber κ] {expired : Message → Bool} {fuel : Nat} {c c' : Consumer κ}
    {set set' : NotificationSet} {r : Outcome (Messages.Ptr MessageDeque)} (h : Tally max q ws)
    (hr : Queue.getNextLoop expired fuel q c set = some (r, q', c', set')) : Tally max q' ws := by
  induction fuel generalizing q c set with
  | zero => simp [Queue.getNextLoop] at hr
  | succ fuel ih =>
    rcases Queue.getNextLoop_cases hr with ⟨cursor, messages, hn, -, rfl, -⟩ |
      ⟨i, cursor, messages, m, hn, hm, hr⟩
    · obtain rfl : q.messages = messages := congrArg (·.2.2) hn
      exact ⟨h.windowed, h.maxDepth, h.depth⟩
    obtain rfl : q.messages = messages := congrArg (·.2.2) hn
    rcases hr with ⟨-, hr⟩ | ⟨-, ⟨-, -, -, hs, -, rfl, -⟩ | ⟨-, -, -, -, hr⟩ | ⟨-, -, -, -, rfl, -⟩ |
      ⟨-, -, -, rfl, -⟩ | ⟨-, hr⟩⟩
    · obtain ⟨m', ha⟩ := next_at h.windowed (Prod.ext (congrArg (·.1) hn) (congrArg (·.2.1) hn))
      exact ih (h.takeOff ha) hr
    · exact h.modify_acquired hm hs rfl rfl rfl
    · exact ih h hr
    · exact h
    · exact ⟨h.windowed, h.maxDepth, h.depth⟩
    · have hp : Tally max { q with listeners := (q.passOn c set).1 } ws := ⟨h.windowed, h.maxDepth, h.depth⟩
      exact ih hp hr

/-- A message released was not deleted, so that its size is still counted. -/
theorem release {b : Bool} {l : List Nat} (h : Tally max q ws)
    (hc : c.valid = true → ∀ x ∈ q.messages.messages, x.sequence = c.position → x.state ≠ .deleted)
    (hr : q.release c b = some (q', l)) : Tally max q' ws := by
  unfold Queue.release at hr
  split at hr
  · obtain ⟨rfl, -⟩ : q = q' ∧ _ := by simpa using hr
    exact h
  simp only [map_eq_some_iff] at hr
  obtain ⟨⟨r, d⟩, h1, he⟩ := hr
  have hw := h.windowed.release c
  simp only [Messages.release, Option.some.injEq] at h1
  rcases release_cases h.windowed.window c with ⟨hv, i, m, hm, hp, e⟩ | ⟨-, e⟩ <;> rw [e] at h1 hw
  · obtain ⟨rfl, rfl⟩ := Prod.mk.inj h1
    have hwt : weights { MessageDeque.update q.messages c.position (fun m => m.setState .available) with
        version := q.messages.version + 1 } = weights q.messages := by
      have hmod := weights_modify (f := fun m => m.setState .available) fun x hx => by
        cases hm.symm.trans hx
        rw [weight_of_ne (hc hv m (mem_of_getElem? hm) hp)]
        rfl
      rwa [modify_eq h.windowed.window hm, hp] at hmod
    have h2 : Tally max { q with messages := { MessageDeque.update q.messages c.position
        (fun m => m.setState .available) with version := q.messages.version + 1 } } ws :=
      ⟨hw, h.maxDepth, by simp only [hwt]; exact h.depth⟩
    obtain ⟨rfl, -⟩ : _ = q' ∧ _ := by simpa using he
    cases b with
    | true => exact ⟨h2.windowed, h2.maxDepth, h2.depth⟩
    | false =>
      have h3 := h2.modify (i := i) (f := Message.undeliver) fun m _ => ⟨rfl, rfl⟩
      exact ⟨h3.windowed, h3.maxDepth, h3.depth⟩
  · obtain ⟨rfl, rfl⟩ := Prod.mk.inj h1
    obtain ⟨rfl, -⟩ : _ = q' ∧ _ := by simpa using he
    exact h

end Tally

namespace Account

open Spec.Account

variable {κ : Type} {max : QueueDepth} {a a' : Account}

/-- The depth of the queue is that of the messages held and reserved. -/
def Kept (max : QueueDepth) (a : Account) : Prop := Tally max a.queue (a.reserved.map (·.getMessageSize))

variable {q : Queue MessageDeque}

theorem tally_perm {ws ws' : List (BitVec 64)} (h : Tally max q ws) (hp : ws.Perm ws') :
    Tally max q ws' := ⟨h.windowed, h.maxDepth, h.depth.perm (hp.append_left _)⟩

/-- What a failed push loses is still outstanding. -/
theorem reserved_lost (m : Message) (l : List Message) :
    (m.getMessageSize :: (l ++ a.lost).map (·.getMessageSize)).Perm ((l ++ m :: a.lost).map (·.getMessageSize)) :=
  Perm.map _ (perm_middle : (l ++ m :: a.lost).Perm (m :: (l ++ a.lost))).symm

theorem kept_push {q' : Queue MessageDeque} {m : Message} {b : Bool} {r : Except String Unit} {l : List Nat}
    (txs : List TxPublish)
    (h : Tally max q (m.getMessageSize :: ({ a with transactions := txs } : Account).reserved.map (·.getMessageSize)))
    (hf : ∀ x ∈ IndexedDeque.popTail () (q.sequence + 1) (IndexedDeque.clean () q.messages).messages,
      Ahead x.sequence (q.sequence + 1))
    (hp : q.push m b = (r, q', l)) : Kept max ⟨q', txs, lose a.lost m r⟩ := by
  obtain ⟨hok, herr⟩ := h.push hf hp
  cases r with
  | ok _ => exact hok rfl
  | error _ => exact tally_perm (herr rfl) (reserved_lost m _)

theorem reserved_eraseIdx {i : Nat} {t : TxPublish} (ht : a.transactions[i]? = some t) :
    a.reserved.Perm ((if t.prepared then [t.message] else []) ++
      ({ a with transactions := a.transactions.eraseIdx i } : Account).reserved) := by
  obtain ⟨hlt, rfl⟩ := List.getElem?_eq_some_iff.1 ht
  have hp := (getElem_cons_eraseIdx_perm hlt).symm
  rw [reserved, reserved, ← append_assoc]
  refine Perm.append_right _ ?_
  refine ((hp.filter _).map _).trans ?_
  rw [filter_cons]
  split <;> rfl

variable [Subscriber κ]

/-- Every operation keeps the tally. -/
theorem Kept.step {op : Op κ} (h : Kept max a) (hop : Orderly a op) (ht : a.step op = some a') : Kept max a' := by
  cases op with
  | deliver m storeThrows publishThrows =>
    rcases Queue.enqueue_cases a.queue m storeThrows with he | ⟨r, hr, he⟩ | ⟨e, he⟩
    · rcases hp : (a.queue.recoverPrepared m).push m publishThrows with ⟨r, q', l⟩
      simp only [Account.step, Queue.deliverTo, he, hp, Option.some.injEq] at ht
      subst ht
      exact kept_push a.transactions h.recoverPrepared hop hp
    · obtain rfl : a = a' := by
        rcases r with e | _ | _
        · simpa [Account.step, Queue.deliverTo, he] using ht
        · simpa [Account.step, Queue.deliverTo, he] using ht
        · exact absurd rfl hr
      exact h
    · simp only [Account.step, Queue.deliverTo, he, Option.some.injEq] at ht
      subst ht
      exact h.recoverPrepared.enqueueAborted
  | prepare m storeThrows =>
    rcases Queue.enqueue_cases a.queue m storeThrows with he | ⟨r, hr, he⟩ | ⟨e, he⟩
    · simp only [Account.step, TxPublish.prepare, he, Option.some.injEq] at ht
      subst ht
      refine tally_perm (Tally.recoverPrepared h) ?_
      simp only [reserved, filter_append, map_append, append_assoc]
      exact perm_middle.symm
    · rcases r with e | _ | _
      · simp only [Account.step, TxPublish.prepare, he, Option.some.injEq] at ht
        subst ht
        simpa [Kept, reserved] using h
      · simp only [Account.step, TxPublish.prepare, he, Option.some.injEq] at ht
        subst ht
        simpa [Kept, reserved] using h
      · exact absurd rfl hr
    simp only [Account.step, TxPublish.prepare, he, Option.some.injEq] at ht
    subst ht
    have := (Tally.recoverPrepared (m := m) h).enqueueAborted
    simpa [Kept, reserved] using this
  | commit i publishThrows =>
    obtain ⟨t, hti, rfl⟩ := map_eq_some_iff.1 ht
    have hk := tally_perm h ((reserved_eraseIdx hti).map _)
    cases hp : t.prepared with
    | false => simpa [TxPublish.commit, hp, lose, Kept] using hk
    | true =>
      rcases hr : a.queue.push t.message publishThrows with ⟨r, q', l⟩
      simp only [TxPublish.commit, hp, Queue.process, hr]
      simp only [hp] at hk
      exact kept_push _ hk hop hr
  | rollback i =>
    obtain ⟨t, hti, rfl⟩ := map_eq_some_iff.1 ht
    have hk := tally_perm h ((reserved_eraseIdx hti).map _)
    cases hp : t.prepared with
    | false => simpa [TxPublish.rollback, hp, Kept] using hk
    | true =>
      simp only [hp] at hk
      simp only [TxPublish.rollback, hp]
      exact Tally.enqueueAborted hk
  | recover m publishThrows =>
    rcases hp : (a.queue.recoverPrepared m).push m publishThrows with ⟨r, q', l⟩
    simp only [Account.step, Queue.recover, hp, Option.some.injEq] at ht
    subst ht
    exact kept_push a.transactions (Tally.recoverPrepared h) hop hp
  | dequeue ctxt c =>
    cases ht
    exact Tally.dequeue h ctxt c
  | dequeueCommitted c =>
    cases ht
    exact Tally.dequeueCommitted h c
  | dequeueMessageAt p =>
    cases ht
    exact Tally.dequeueMessageAt h p
  | reject c =>
    cases ht
    exact Tally.reject h c
  | remove fuel maxCount predicate type maxTests =>
    obtain ⟨⟨ms, q⟩, hr, rfl⟩ := map_eq_some_iff.1 ht
    exact Tally.removeLoop h hr
  | getNextMessage expired fuel c =>
    obtain ⟨⟨r, q, c', l⟩, hg, rfl⟩ := map_eq_some_iff.1 ht
    obtain ⟨set, hl, -⟩ := Queue.getNextMessage_eq hg
    exact Tally.getNextLoop h hl
  | acquire c =>
    cases ht
    exact Tally.acquire h c
  | release c b =>
    obtain ⟨⟨q, l⟩, hr, rfl⟩ := map_eq_some_iff.1 ht
    exact Tally.release h hop hr
  | destroyed =>
    cases ht
    exact ⟨h.windowed, h.maxDepth, h.depth⟩

omit [Subscriber κ] in
theorem kept_new (settings : QueueDepth) (broker : Option (BitVec 64)) (hasStore : Bool) :
    Kept (Queue.new ({} : MessageDeque) settings broker hasStore).maxDepth
      { queue := .new {} settings broker hasStore } := by
  refine ⟨MessageDeque.windowed_empty, rfl, ?_⟩
  simp only [Queue.new_current]
  exact ⟨rfl, rfl, rfl, fun _ => rfl, fun _ => rfl⟩

/-- The sum of the sizes wraps as its counter does. -/
theorem toNat_sum (l : List (BitVec 64)) : l.sum.toNat = (l.map (·.toNat)).sum % 2 ^ 64 := by
  induction l with
  | nil => rfl
  | cons x l ih => rw [sum_cons, BitVec.toNat_add, ih, map_cons, sum_cons, Nat.add_mod_mod]

theorem Kept.exact (h : Kept max a) : a.Exact := by
  have hw : a.queue.messages.weights ++ a.reserved.map (·.getMessageSize) = a.outstanding.map (·.getMessageSize) := by
    rw [outstanding, map_append, MessageDeque.weights_eq]
  obtain ⟨-, -, -, -, hc, hs, -⟩ := h
  rw [hw] at hc hs
  refine ⟨?_, fun hv => ?_⟩
  · rw [hc, BitVec.toNat_ofNat, length_map]
  · rw [hs hv, toNat_sum, map_map]
    rfl

theorem kept_run {settings : QueueDepth} {broker : Option (BitVec 64)} {hasStore : Bool} {ops : List (Op κ)}
    (h : Run step Orderly { queue := .new {} settings broker hasStore } ops a) :
    Kept (Queue.new ({} : MessageDeque) settings broker hasStore).maxDepth a :=
  h.keep (I := Kept _) Kept.step (kept_new settings broker hasStore)

/-- In every run the depth of the queue is that of the messages it holds
and of those with a place reserved: as natural numbers while the totals
fit the counters, so that to take off a message outstanding is never to go below 0. -/
theorem depth_exact {settings : QueueDepth} {broker : Option (BitVec 64)} {hasStore : Bool} {ops : List (Op κ)}
    (h : Run step Orderly { queue := .new {} settings broker hasStore } ops a) :
    a.Exact ∧
    (a.outstanding.length < 2 ^ 32 → a.queue.current.count.value.toNat = a.outstanding.length) ∧
    (a.queue.current.size.valid = true → (a.outstanding.map (·.getMessageSize.toNat)).sum < 2 ^ 64 →
      a.queue.current.size.value.toNat = (a.outstanding.map (·.getMessageSize.toNat)).sum ∧
      ∀ m ∈ a.outstanding, m.getMessageSize.toNat ≤ a.queue.current.size.value.toNat) := by
  have he := (kept_run h).exact
  refine ⟨he, fun hl => by rw [he.count, Nat.mod_eq_of_lt hl], fun hv hl => ?_⟩
  have hs := he.size hv
  rw [Nat.mod_eq_of_lt hl] at hs
  refine ⟨hs, fun m hm => ?_⟩
  rw [hs]
  exact single_le_sum (by simp) _ (mem_map_of_mem hm)

/-- A consumer with no filter that takes everything. -/
instance : Subscriber Unit where
  filter _ _ := true
  accept _ _ := (true, ())

/-- Four bytes, and a transaction that publishes as many again and is rolled
back after the first message has been lost to the container. -/
def lostAndFound : List (Op Unit) :=
  [.deliver { encoding := some { messageSize := 4 } } false true,
    .prepare { encoding := some { messageSize := 4 } } false,
    .deliver { encoding := some { messageSize := 4 } } false false, .rollback 0,
    .getNextMessage (fun _ => false) 2 ⟨0, {}, ()⟩, .dequeueMessageAt 2]

theorem depth_exact_lost : ∃ a, Run step Orderly { queue := .new {} (.of 10 100) none false } lostAndFound a ∧
    a.outstanding.length = 1 ∧ a.queue.current.count.value.toNat = 1 ∧ a.queue.current.size.value.toNat = 4 := by
  refine exists_run (Q := fun a => a.outstanding.map (·.getMessageSize.toNat) = [4] ∧ a.queue.current.size.valid)
    (by decide +kernel) fun a hr ⟨ho, hv⟩ => ⟨hr, ?_⟩
  obtain ⟨-, hc, hs⟩ := depth_exact hr
  have hl : a.outstanding.length = 1 := by simpa using congrArg List.length ho
  refine ⟨hl, (hc (by omega)).trans hl, ?_⟩
  rw [ho] at hs
  exact (hs hv (by decide)).1

/-- A message recovered whose push throws is counted, though it was never
admitted by `checkDepth`. -/
theorem recovered_counted_lost : ∃ a, Run step (Orderly (κ := Unit)) { queue := .new {} (.of 10 100) none false }
      [.recover { encoding := some { messageSize := 4 } } true] a ∧
    a.queue.messages.messages = [] ∧ a.transactions = [] ∧ a.queue.current.count.value = 1 := by
  exact exists_run (by decide +kernel) fun a hr ha => ⟨hr, ha⟩

end Account

end QB.Impl
