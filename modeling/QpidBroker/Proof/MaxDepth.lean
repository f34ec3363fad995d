import QpidBroker.Proof.Account

/-!
# When the maximum depth is enforced

`checkDepth` subtracts the current depth from the maximum on unsigned words, so
it is right where no component is past its limit; recovery adds to the
depth without a check. `checkDepth_iff` says when a message is admitted in
natural numbers.
-/

namespace QB.Impl

open Spec

namespace Queue

variable {M : Type}

theorem admits_iff_not_lt (q : Queue M) (m : Message) :
    q.Admits m ↔ ¬(q.maxDepth.toBool = true ∧ (q.maxDepth.sub q.current).lt (depthOf m) = true) := by
  unfold Admits checkDepth
  rw [← Bool.and_eq_true]
  by_cases h : (q.maxDepth.toBool && (q.maxDepth.sub q.current).lt (depthOf m)) = true
  · simp [h, Except.toBool]
  · simp [h, Except.toBool]

theorem sub_lt_one_iff (a b : BitVec 32) : a - b < 1 ↔ b.toNat = a.toNat := by
  rw [BitVec.lt_def, BitVec.toNat_sub]
  have := a.isLt
  have : (1 : BitVec 32).toNat = 1 := rfl
  omega

theorem sub_lt_iff (a b s : BitVec 64) : a - b < s ↔
    (b.toNat ≤ a.toNat ∧ a.toNat < b.toNat + s.toNat) ∨ 2 ^ 64 + a.toNat < b.toNat + s.toNat := by
  rw [BitVec.lt_def, BitVec.toNat_sub]
  have := b.isLt
  omega

/-- The depth is tracked as the constructor sets it up. -/
structure Tracked (q : Queue M) : Prop where
  count : q.current.count.valid = true
  size : q.current.size.valid = decide (q.maxDepth.size.value ≠ 0)
  untracked : q.current.size.valid = false → q.current.size.value = 0

variable {q : Queue M}

theorem checkDepth_iff (h : Tracked q) (m : Message) : q.Admits m ↔ ¬q.Refused m := by
  obtain ⟨hc, hs, hu⟩ := h
  rw [admits_iff_not_lt]
  by_cases h0 : q.maxDepth.size.value = 0
  · -- the depth in bytes is not tracked
    have hf : q.current.size.valid = false := by rw [hs, h0]; rfl
    have hz : q.current.size.value.toNat = 0 := by rw [hu hf]; rfl
    have hm0 : q.maxDepth.size.value.toNat = 0 := by rw [h0]; rfl
    have hpos : (0 : BitVec 64) < m.getMessageSize ↔ 0 < m.getMessageSize.toNat := BitVec.lt_def
    cases hmc : q.maxDepth.count.valid <;> cases hms : q.maxDepth.size.valid <;>
      simp only [QueueDepth.toBool, QueueDepth.sub, QueueDepth.lt, Optional.subtract, hmc, hms, hc, hf, depthOf,
        QueueDepth.of, Refused, sub_lt_one_iff, hpos, Bool.and_true, Bool.and_false, Bool.or_true, Bool.or_false,
        Bool.false_eq_true, Bool.true_eq_false, if_true, if_false, decide_eq_true_eq, true_and, false_and, false_or,
        or_false, or_true] <;>
      omega
  have ht : q.current.size.valid = true := by rw [hs, decide_eq_true_eq]; exact h0
  have hm0 : q.maxDepth.size.value.toNat ≠ 0 := fun e => h0 (BitVec.eq_of_toNat_eq e)
  cases hmc : q.maxDepth.count.valid <;> cases hms : q.maxDepth.size.valid <;>
    simp only [QueueDepth.toBool, QueueDepth.sub, QueueDepth.lt, Optional.subtract, hmc, hms, hc, ht, depthOf,
      QueueDepth.of, Refused, sub_lt_one_iff, sub_lt_iff, Bool.and_true, Bool.and_false, Bool.or_eq_true,
      Bool.false_eq_true, if_true, if_false, decide_eq_true_eq, true_and, false_and, false_or, or_false, or_true]
  omega

theorem admissible_iff {m : Message} (hr : ¬q.Refused m) : q.Admissible m ↔ ¬q.PastLimit m := by
  simp only [Refused, Admissible, PastLimit] at *
  cases hmc : q.maxDepth.count.valid <;> cases hms : q.maxDepth.size.valid <;> simp only [hmc, hms,
    Bool.false_eq_true, true_and, false_and, false_or, or_false, or_true, true_implies, false_implies, and_true,
    not_false_eq_true] at * <;> omega

theorem not_refused_of_admissible {m : Message} (ha : q.Admissible m) : ¬q.Refused m := by
  simp only [Refused, Admissible] at *
  cases hmc : q.maxDepth.count.valid <;> cases hms : q.maxDepth.size.valid <;> simp only [hmc, hms,
    Bool.false_eq_true, false_and, false_or, or_false, true_implies, not_false_eq_true] at * <;> omega

/-- The check is right exactly where no component is past its limit, or one
that is looked at refuses the message anyway. -/
theorem admits_iff_admissible (h : Tracked q) (m : Message) :
    (q.Admits m ↔ q.Admissible m) ↔ (¬q.PastLimit m ∨ q.Refused m) := by
  have hc := checkDepth_iff h m
  by_cases hr : q.Refused m
  · have hn : ¬q.Admissible m := fun ha => not_refused_of_admissible ha hr
    simp [hc, hr, hn]
  · simp [hc, hr, admissible_iff hr]

end Queue

namespace Account

open Spec.Account

variable {κ : Type} [Subscriber κ] {a : Account}

omit [Subscriber κ] in
theorem Kept.tracked {max : QueueDepth} (h : Kept max a) : a.queue.Tracked :=
  ⟨h.depth.valid, by rw [h.depth.tracks, h.maxDepth], h.depth.untracked⟩

/-- In every state that a queue with any maximum depth can reach, `checkDepth`
admits what is within the maximum and nothing else, exactly where no
component of the depth is past its limit, or it refuses the message anyway. -/
theorem maxDepth_enforced {settings : QueueDepth} {broker : Option (BitVec 64)} {hasStore : Bool}
    {ops : List (Op κ)} (h : Run step Orderly { queue := .new {} settings broker hasStore } ops a) (m : Message) :
    (a.queue.Admits m ↔ a.queue.Admissible m) ↔ (¬a.queue.PastLimit m ∨ a.queue.Refused m) :=
  Queue.admits_iff_admissible (kept_run h).tracked m

/-- At the limit: one message recovered, of one allowed. -/
theorem maxDepth_enforced_full : ∃ a, Run step (Orderly (κ := Unit))
      { queue := .new {} (({} : QueueDepth).setCount 1) (some 0) false } [.recover {} false] a ∧
    ¬a.queue.Admits {} ∧ ¬a.queue.Admissible {} := by
  refine exists_run (Q := fun a => ¬a.queue.Admits {} ∧ a.queue.maxDepth.count = ⟨1, true⟩ ∧
    a.queue.current.count.value = 1) (by decide +kernel) fun a hr ⟨hn, hm, hc⟩ => ⟨hr, hn, ?_⟩
  have hf : a.queue.Refused {} := .inl ⟨by rw [hm], by rw [hm, hc]⟩
  exact fun hx => hn (((maxDepth_enforced hr {}).2 (.inr hf)).2 hx)

/-- Recovery has put two messages on a queue that may hold one: a third is admitted. -/
theorem admitted_past_limit : ∃ a, Run step (Orderly (κ := Unit))
      { queue := .new {} (({} : QueueDepth).setCount 1) (some 0) false } [.recover {} false, .recover {} false] a ∧
    a.queue.Admits {} ∧ ¬a.queue.Admissible {} := by
  refine exists_run (Q := fun a => a.queue.Admits {} ∧ a.queue.maxDepth.count = ⟨1, true⟩ ∧
    a.queue.current.count.value = 2) (by decide +kernel) fun a hr ⟨hn, hm, hc⟩ => ⟨hr, hn, fun hx => ?_⟩
  have := hx.1 (by rw [hm])
  rw [hm, hc] at this
  exact absurd this (by decide)

end Account

end QB.Impl
