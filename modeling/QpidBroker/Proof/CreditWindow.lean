import QpidBroker.Framework.Run
import QpidBroker.Spec.CreditWindow

/-!
# The window is exact

What `used` of a kind of credit changes by is what a record counts for (`consume_used`,
`move_used`), so each step keeps it equal to what is outstanding (`Exact.step`).
-/

namespace QB

namespace Impl.CreditBalance

variable {c : CreditBalance} {v : BitVec 32}

theorem consume_used (h : c.unlimited = false → c.used.toNat + v.toNat < 2 ^ 32) :
    (c.consume true v).used.toNat = c.used.toNat + if !c.unlimited then v.toNat else 0 := by
  cases hu : c.unlimited with
  | true => simp [consume, hu]
  | false =>
    have := h hu
    simp only [consume, hu, Bool.false_eq_true, if_false, if_true, Bool.not_false]
    bv_omega

theorem move_used (h : c.unlimited = false → v.toNat ≤ c.used.toNat) :
    (c.move v).used.toNat + (if !c.unlimited then v.toNat else 0) = c.used.toNat := by
  cases hu : c.unlimited with
  | true => simp [move, hu]
  | false =>
    have := h hu
    simp only [move, hu, Bool.false_eq_true, if_false, if_true, Bool.not_false]
    bv_omega

theorem grant_used (c : CreditBalance) (v : BitVec 32) : (c.grant v).used = c.used := by
  unfold grant
  split_ifs <;> rfl

theorem le_grant (c : CreditBalance) (v : BitVec 32) : c.balance ≤ (c.grant v).balance := by
  unfold grant infiniteCredit
  split_ifs <;> bv_omega

theorem spent_consume {windowing : Bool} (hcheck : c.check windowing v = true)
    (hfits : windowing = true → Spec.Subscription.Fits c v) :
    Spec.Subscription.Spent windowing c (c.consume windowing v) v := by
  unfold Spec.Subscription.Spent
  cases hu : c.unlimited with
  | true => simp [consume, hu]
  | false =>
    simp only [consume, hu, Bool.false_eq_true, if_false]
    cases windowing with
    | true =>
      have := hfits rfl hu
      simp only [check, if_true, decide_eq_true_eq] at hcheck ⊢
      exact ⟨by bv_omega, hcheck⟩
    | false =>
      simp only [check, Bool.false_eq_true, if_false, decide_eq_true_eq] at hcheck ⊢
      bv_omega

end Impl.CreditBalance

namespace Spec.Subscription

open Impl

variable {s t : Subscription} {weight : Delivered → Nat} {l : List Delivered} {r : Delivered} {i : Nat}

theorem outstanding_append : outstanding weight (l ++ [r]) =
    outstanding weight l + if r.windowing && !r.completed then weight r else 0 := by
  simp [outstanding]

theorem outstanding_complete (weight : Delivered → Nat) (hr : l[i]? = some r) (hc : r.completed = false) :
    outstanding weight (l.modify i ({ · with completed := true })) + (if r.windowing then weight r else 0) =
      outstanding weight l := by
  induction l generalizing i with
  | nil => cases hr
  | cons x l ih =>
    cases i with
    | zero =>
      obtain rfl : x = r := by simpa using hr
      simp [outstanding, hc, Nat.add_comm]
    | succ i =>
      have := ih (by simpa using hr)
      simp only [outstanding, List.modify_succ_cons, List.map_cons, List.sum_cons] at this ⊢
      omega

theorem Exact.deliver {m : Message} (h : s.Exact) (hop : s.Regular (.deliver m)) (ht : s.step (.deliver m) = some t) :
    t.Exact ∧ s.Sound t (.deliver m) := by
  rw [step] at ht
  split at ht
  swap
  · cases ht
  rename_i hcheck
  obtain ⟨hm, hb⟩ : s.current.messages.check s.consumer.credit.windowing 1 = true ∧
      s.current.bytes.check s.consumer.credit.windowing m.getRequiredCredit = true :=
    Bool.and_eq_true_iff.1 hcheck
  have hspent := And.intro (CreditBalance.spent_consume hm fun e => (hop e).1)
    (CreditBalance.spent_consume hb fun e => (hop e).2)
  cases ht
  have hfits := hop
  unfold Exact Sound current at *
  rw [outstanding_append, outstanding_append]
  cases hw : s.consumer.credit.windowing with
  | true =>
    simp only [Regular, current, Credit.current, hw, if_true] at hfits hspent
    have hm := CreditBalance.consume_used (hfits trivial).1
    have hb := CreditBalance.consume_used (hfits trivial).2
    simp only [ConsumerImpl.allocateCredit, Credit.consume, Credit.setCurrent, Credit.current, hw, if_true,
      messageWeight, byteWeight, hm, hb, h.1, h.2]
    refine ⟨⟨?_, ?_⟩, hspent⟩ <;> simp
  | false =>
    simp only [Credit.current, hw] at hspent
    simpa [ConsumerImpl.allocateCredit, Credit.consume, Credit.setCurrent, Credit.current, hw] using ⟨h, hspent⟩

theorem Exact.complete (h : s.Exact) (hop : s.Regular (.complete i)) (ht : s.step (.complete i) = some t) :
    t.Exact := by
  obtain ⟨r, hr, rfl⟩ := Option.map_eq_some_iff.1 ht
  split
  · exact h
  rename_i hc
  have hc := Bool.eq_false_iff.2 hc
  obtain ⟨hmode, hkind⟩ := hop r hr hc
  have hm := outstanding_complete messageWeight hr hc
  have hb := outstanding_complete byteWeight hr hc
  cases hw : s.consumer.credit.windowing with
  | true =>
    simp only [current, Credit.current, hw, if_true] at hkind
    simp only [hmode, hw, messageWeight, byteWeight, hkind, ← h.1, ← h.2] at hm hb
    have hm' := CreditBalance.move_used (c := s.consumer.credit.window.messages) (v := 1) (by
      intro hu
      simp only [hu] at hm
      exact Nat.le.intro ((Nat.add_comm _ _).trans hm))
    have hb' := CreditBalance.move_used (c := s.consumer.credit.window.bytes) (by
      intro hu
      simp only [hu] at hb
      exact Nat.le.intro ((Nat.add_comm _ _).trans hb))
    simp only [Credit.moveWindow, hw]
    exact ⟨Nat.add_right_cancel (hm'.trans hm.symm), Nat.add_right_cancel (hb'.trans hb.symm)⟩
  | false =>
    simp only [hmode, hw, Bool.false_eq_true, if_false, Nat.add_zero] at hm hb
    simpa only [Exact, Credit.moveWindow, hw, Bool.false_eq_true, if_false, hm, hb] using h

theorem Exact.step {op : Op} (h : s.Exact) (hop : s.Regular op) (ht : s.step op = some t) :
    t.Exact ∧ s.Sound t op := by
  cases op with
  | setMode b =>
    cases ht
    cases b <;> exact ⟨h, trivial⟩
  | addMessageCredit v =>
    cases ht
    cases hw : s.consumer.credit.windowing <;>
      simpa [Exact, Sound, current, ConsumerImpl.addMessageCredit, Credit.addMessageCredit, Credit.setCurrent,
        Credit.current, hw, CreditBalance.grant_used, CreditBalance.le_grant] using h
  | addByteCredit v =>
    cases ht
    cases hw : s.consumer.credit.windowing <;>
      simpa [Exact, Sound, current, ConsumerImpl.addByteCredit, Credit.addByteCredit, Credit.setCurrent,
        Credit.current, hw, CreditBalance.grant_used, CreditBalance.le_grant] using h
  | stop =>
    cases ht
    unfold Exact ConsumerImpl.stop Credit.cancel Credit.setCurrent Credit.current
    split <;> exact ⟨h, trivial⟩
  | deliver m => exact h.deliver hop ht
  | complete i => exact ⟨h.complete hop ht, trivial⟩

/-- What is used of the window is exactly what is outstanding of it, and a delivery spends
credit that is there. -/
theorem window_is_exact (c : ConsumerImpl) (hc : c.credit = {}) (ops : List Op)
    (hrun : Run step Regular ⟨c, []⟩ ops s) :
    s.Exact ∧ ∀ op t, s.Regular op → s.step op = some t → s.Sound t op := by
  have h : s.Exact := hrun.keep (I := Exact) (fun h hop ht => (h.step hop ht).1) (by
    simp [Exact, hc, outstanding])
  exact ⟨h, fun op t hop ht => (h.step hop ht).2⟩

/-- A message that needs this much byte credit. -/
def requiring (credit : BitVec 32) : Message := { encoding := some { requiredCredit := credit } }

/-- Two messages are delivered, and the window moves past the first. -/
theorem window_is_exact_two : ∃ s, Run step Regular {}
    [.addMessageCredit 2, .addByteCredit 9, .deliver (requiring 4), .deliver (requiring 3), .complete 0] s ∧
    (s.consumer.credit.window.messages.used = 1 ∧ s.consumer.credit.window.bytes.used = 3) ∧ s.Exact ∧
    ∀ op t, s.Regular op → s.step op = some t → s.Sound t op := by
  exact exists_run (by decide +kernel) fun s hs hused => ⟨hs, hused, window_is_exact {} rfl _ hs⟩

/-- A stop takes back the window of a message that is still outstanding. -/
theorem stop_revokes_window : ∃ s,
    Run step Regular {} [.addMessageCredit 1, .addByteCredit 9, .deliver (requiring 4), .stop] s ∧
    s.consumer.credit.window.messages = ⟨0, 1⟩ ∧ s.consumer.credit.window.bytes = ⟨0, 4⟩ ∧
    outstanding messageWeight s.records = 1 ∧ outstanding byteWeight s.records = 4 := by
  exact exists_run (by decide +kernel) fun s hs h => ⟨hs, h⟩

end Spec.Subscription

end QB
