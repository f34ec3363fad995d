import Mathlib.Data.List.Nodup
import QpidBroker.Framework.Run
import QpidBroker.Spec.FlowControl

/-!
# Flow control leaks no completion

The messages held are some of those on the queue, in their order (`Kept.held`). Each
notification keeps that and succeeds (`Kept.enqueued`, `Kept.dequeued`).
-/

namespace QB

open List

namespace Impl.QueueFlowLimit

/-! ## The notifications -/

variable {f : QueueFlowLimit} {m : Message}

def counting (f : QueueFlowLimit) (count : BitVec 32) (size : BitVec 64) : QueueFlowLimit :=
  { f with count := count, size := size }

theorem enqueued_stopped
    (hstop : (f.flowStopped || (f.counting (f.count + 1) (f.size + m.getMessageSize)).reached) = true)
    (hm : m.toBool = true) (huni : f.index.any (·.sequence = m.sequence) = false) :
    f.enqueued m = (.ok [.startCompleter m],
      { f.counting (f.count + 1) (f.size + m.getMessageSize) with flowStopped := true, index := f.index ++ [m] }) := by
  simp only [counting] at hstop ⊢
  simp only [enqueued, hstop, hm, huni, Bool.true_or, Bool.not_true, Bool.false_eq_true, if_true, if_false]

theorem enqueued_flowing
    (hstop : (f.flowStopped || (f.counting (f.count + 1) (f.size + m.getMessageSize)).reached) = false)
    (hnil : f.index = []) :
    f.enqueued m = (.ok [], { f.counting (f.count + 1) (f.size + m.getMessageSize) with flowStopped := false }) := by
  simp only [counting] at hstop ⊢
  simp only [enqueued, hstop, Bool.false_or, hnil ▸ isEmpty_nil, Bool.not_true, Bool.false_eq_true, if_false]

theorem drained_empty (f : QueueFlowLimit) : (f.counting 0 0).drained = true := by
  have hcount : f.flowResumeCount = 0 ∨ 0 < f.flowResumeCount := by bv_omega
  have hsize : f.flowResumeSize = 0 ∨ 0 < f.flowResumeSize := by bv_omega
  rcases hcount with h | h <;> rcases hsize with h' | h' <;>
    simp only [drained, counting, h, h', decide_true, Bool.true_or, Bool.or_true, Bool.and_self]

variable (hcount : f.count ≠ 0) (hsize : m.getMessageSize ≤ f.size)
include hcount hsize

theorem dequeued_resumed
    (hstop : (f.flowStopped && !(f.counting (f.count - 1) (f.size - m.getMessageSize)).drained) = false) :
    f.dequeued m = (.ok ((f.index.filter (·.toBool)).map .finishCompleter),
      { f.counting (f.count - 1) (f.size - m.getMessageSize) with flowStopped := false, index := [] }) := by
  simp only [counting] at hstop ⊢
  simp only [dequeued, hcount, BitVec.not_lt.2 hsize, hstop, Bool.not_false, if_true, if_false]

theorem dequeued_stopped
    (hstop : (f.flowStopped && !(f.counting (f.count - 1) (f.size - m.getMessageSize)).drained) = true)
    (hm : m.toBool = true) :
    f.dequeued m = (.ok (if f.index.any (·.sequence = m.sequence) then [.finishCompleter m] else []),
      { f.counting (f.count - 1) (f.size - m.getMessageSize) with
        flowStopped := true, index := f.index.eraseP (·.sequence = m.sequence) }) := by
  simp only [counting] at hstop ⊢
  simp only [dequeued, hcount, BitVec.not_lt.2 hsize, hstop, hm, Bool.not_true, Bool.false_eq_true, if_false]
  split
  · rfl
  · rename_i hnone
    rw [eraseP_of_forall_not (by simpa using hnone)]

end Impl.QueueFlowLimit

namespace Spec.FlowControl

open Impl

variable {s : FlowControl} {m : Message}

structure Kept (s : FlowControl) : Prop where
  held : s.limit.index.Sublist s.live
  distinct : (s.live.map (·.sequence)).Nodup
  real : ∀ m ∈ s.live, m.toBool = true
  completed : ∀ p, started s.calls p = finished s.calls p + s.limit.index.countP (·.sequence = p)
  flows : s.limit.flowStopped = false → s.limit.index = []
  count : s.limit.count.toNat = s.live.length
  size : s.limit.size.toNat = totalSize s.live
  empty : s.live = [] → s.limit.flowStopped = false

theorem started_append (l l' : List CompleterCall) (p : SequenceNumber) :
    started (l ++ l') p = started l p + started l' p := countP_append

theorem finished_append (l l' : List CompleterCall) (p : SequenceNumber) :
    finished (l ++ l') p = finished l p + finished l' p := countP_append

theorem finished_all (l : List Message) (p : SequenceNumber) :
    started (l.map .finishCompleter) p = 0 ∧ finished (l.map .finishCompleter) p = l.countP (·.sequence = p) := by
  simp [started, finished, Function.comp_def]

/-- The message that leaves a list leaves the count of its number. -/
theorem countP_eraseP (l : List Message) (p : SequenceNumber) :
    l.countP (·.sequence = p) = (l.eraseP (·.sequence = m.sequence)).countP (·.sequence = p) +
      finished (if l.any (·.sequence = m.sequence) then [.finishCompleter m] else []) p := by
  induction l with
  | nil => rfl
  | cons x l ih =>
    by_cases hx : x.sequence = m.sequence
    · simp [hx, finished, countP_cons]
    · rw [eraseP_cons_of_neg (by simpa using hx), countP_cons, countP_cons]
      simp only [any_cons, hx, decide_false, Bool.false_or]
      omega

theorem Kept.enqueued (h : Kept s) (hm : s.Notified (.enqueued m)) :
    ∃ t, s.step (.enqueued m) = some t ∧ Kept t := by
  obtain ⟨hreal, hahead, hcount, hsize⟩ := hm
  have hnew : ∀ x ∈ s.live, x.sequence ≠ m.sequence := fun x hx => (hahead x hx).ne
  have hdis : ((s.live ++ [m]).map (·.sequence)).Nodup := by
    rw [map_append, nodup_append]
    exact ⟨h.distinct, by simp, by simpa using fun x hx => hnew x hx⟩
  have huni : s.limit.index.any (·.sequence = m.sequence) = false := by
    rw [any_eq_false]
    exact fun x hx => by simpa using hnew x (h.held.subset hx)
  have hcou' : (s.limit.count + 1).toNat = (s.live ++ [m]).length := by
    have := h.count
    rw [length_append, length_singleton]
    bv_omega
  have hsize' : (s.limit.size + m.getMessageSize).toNat = totalSize (s.live ++ [m]) := by
    have := h.size
    rw [totalSize, map_append, sum_append, ← totalSize]
    simp only [map_cons, map_nil, sum_singleton]
    bv_omega
  have hreal' : ∀ x ∈ s.live ++ [m], x.toBool = true := by
    simpa [or_imp, forall_and, hreal] using h.real
  cases hstop : s.limit.flowStopped ||
      (s.limit.counting (s.limit.count + 1) (s.limit.size + m.getMessageSize)).reached with
  | true =>
    -- the completion is started, and the message held
    refine ⟨_, by rw [step, QueueFlowLimit.enqueued_stopped hstop hreal huni], ?_⟩
    refine ⟨h.held.append (.refl _), hdis, hreal', fun p => ?_, (fun e => by cases e), hcou', hsize',
      fun e => absurd e (by simp)⟩
    rw [started_append, h.completed]
    simp only [started, finished, countP_append, countP_cons, countP_nil, Bool.false_eq_true, if_false]
    omega
  | false =>
    have hnil := h.flows (Bool.or_eq_false_iff.1 hstop).1
    refine ⟨_, by rw [step, QueueFlowLimit.enqueued_flowing hstop hnil], ?_⟩
    refine ⟨h.held.trans (sublist_append_left _ _), hdis, hreal', fun p => ?_, fun _ => hnil, hcou', hsize',
      fun _ => rfl⟩
    rw [append_nil]
    exact h.completed p

theorem Kept.dequeued (h : Kept s) (hm : s.Notified (.dequeued m)) :
    ∃ t, s.step (.dequeued m) = some t ∧ Kept t := by
  obtain ⟨x, hx, hseq, henc⟩ := hm
  obtain ⟨y, l1, l2, -, hy, hlive, herase⟩ := exists_of_eraseP (p := fun x => x.sequence = m.sequence)
    hx (by simpa using hseq)
  obtain rfl : y = x := by
    refine inj_on_of_nodup_map h.distinct (by simp [hlive]) hx ?_
    rw [hseq]
    simpa using hy
  have hreal : m.toBool = true := by
    rw [Message.toBool, ← henc]
    exact h.real y hx
  have hsame : y.getMessageSize = m.getMessageSize := by rw [Message.getMessageSize, henc]; rfl
  have hleng : s.live.length = (l1 ++ l2).length + 1 := by rw [hlive]; simp; omega
  have htotal : totalSize s.live = totalSize (l1 ++ l2) + m.getMessageSize.toNat := by
    rw [hlive, ← hsame]
    simp only [totalSize, map_append, map_cons, sum_append, sum_cons]
    omega
  have hcount : s.limit.count ≠ 0 := fun e => by
    have := h.count
    rw [e, hleng] at this
    simp at this
  have hsize : m.getMessageSize ≤ s.limit.size := by
    have := h.size
    rw [BitVec.le_def]
    omega
  have hcou' : (s.limit.count - 1).toNat = (l1 ++ l2).length := by
    have := h.count
    bv_omega
  have hsize' : (s.limit.size - m.getMessageSize).toNat = totalSize (l1 ++ l2) := by
    have := h.size
    bv_omega
  have hsub : (l1 ++ l2).Sublist s.live := herase ▸ eraseP_sublist
  have hdis := h.distinct.sublist (hsub.map (·.sequence))
  have hreal' : ∀ x ∈ l1 ++ l2, x.toBool = true := fun x hx => h.real x (hsub.subset hx)
  have hheld : (s.limit.index.eraseP (·.sequence = m.sequence)).Sublist (l1 ++ l2) := herase ▸ h.held.eraseP
  cases hstop : s.limit.flowStopped &&
      !(s.limit.counting (s.limit.count - 1) (s.limit.size - m.getMessageSize)).drained with
  | true =>
    refine ⟨_, by rw [step, QueueFlowLimit.dequeued_stopped hcount hsize hstop hreal, herase], ?_⟩
    refine ⟨hheld, hdis, hreal', fun p => ?_, (fun e => by cases e), hcou', hsize', fun hnil => ?_⟩
    · have hcalls := h.completed p
      have hindex := countP_eraseP (m := m) s.limit.index p
      have hnone :
          started (if s.limit.index.any (·.sequence = m.sequence) then [.finishCompleter m] else []) p = 0 := by
        split <;> rfl
      show started (s.calls ++ _) p = finished (s.calls ++ _) p + (s.limit.index.eraseP _).countP _
      rw [started_append, finished_append]
      omega
    -- an empty queue is drained
    have hnil : l1 ++ l2 = [] := hnil
    rw [hnil] at hcou' hsize'
    rw [BitVec.eq_of_toNat_eq (y := 0) hcou', BitVec.eq_of_toNat_eq (y := 0) hsize',
      QueueFlowLimit.drained_empty] at hstop
    simp at hstop
  | false =>
    refine ⟨_, by rw [step, QueueFlowLimit.dequeued_resumed hcount hsize hstop, herase], ?_⟩
    refine ⟨nil_sublist _, hdis, hreal', fun p => ?_, fun _ => rfl, hcou', hsize', fun _ => rfl⟩
    have hall : s.limit.index.filter (·.toBool) = s.limit.index :=
      filter_eq_self.2 fun x hx => h.real x (h.held.subset hx)
    rw [started_append, finished_append, h.completed, hall, (finished_all _ p).1, (finished_all _ p).2]
    simp

theorem Kept.step {op : Op} (h : Kept s) (hop : s.Notified op) : ∃ t, s.step op = some t ∧ Kept t := by
  cases op with
  | enqueued m => exact h.enqueued hop
  | dequeued m => exact h.dequeued hop

theorem Kept.noLeak (h : Kept s) : s.NoLeak := by
  refine ⟨h.completed, fun p => ?_, fun m hm => h.held.subset hm, h.flows, h.count, h.size, h.empty⟩
  have hnodup := h.distinct.sublist (h.held.map (·.sequence))
  have := nodup_iff_count_le_one.1 hnodup p
  rwa [List.count, countP_map] at this

variable {queueName : String} {stopCount resumeCount : BitVec 32} {stopSize resumeSize : BitVec 64}

/-- **Flow control leaks no completion**, whatever the thresholds: in every state of a run, a completion that was
started has been finished once or its message is held, on the queue while flow is stopped; and each further
notification succeeds. -/
theorem flow_control_leaks_nothing {ops : List Op}
    (h : Run step Notified { limit := ⟨queueName, stopCount, resumeCount, stopSize, resumeSize, false, 0, 0, []⟩ }
      ops s) :
    s.NoLeak ∧ ∀ op, s.Notified op → (s.step op).isSome := by
  have hkept : Kept s := h.keep (I := Kept) (fun hk hop ht => by
    obtain ⟨t', ht', hk'⟩ := hk.step hop
    cases ht.symm.trans ht'
    exact hk')
    ⟨.refl _, by simp, by simp, fun _ => rfl, fun _ => rfl, rfl, rfl, fun _ => rfl⟩
  refine ⟨hkept.noLeak, fun op hop => ?_⟩
  obtain ⟨t, ht, -⟩ := hkept.step hop
  rw [ht]
  rfl

def sized (sequence : SequenceNumber) (size : BitVec 64) : Message :=
  { encoding := some { messageSize := size }, sequence := sequence }

/-- Flow stops at the third message, whose completion is started, and resumes as the second leaves. -/
theorem flow_control_leaks_nothing_three : ∃ s, Run step Notified { limit := ⟨"q", 2, 2, 0, 0, false, 0, 0, []⟩ }
    [.enqueued (sized 1 5), .enqueued (sized 2 5), .enqueued (sized 3 5),
      .dequeued (sized 1 5), .dequeued (sized 2 5)] s ∧
    s.calls = [.startCompleter (sized 3 5), .finishCompleter (sized 3 5)] ∧
    s.NoLeak ∧ ∀ op, s.Notified op → (s.step op).isSome := by
  exact exists_run (by decide +kernel) fun s hs hcalls => ⟨hs, hcalls, flow_control_leaks_nothing hs⟩

/-- The limit after messages of one octet each, up to the number `n`. -/
def enqueueAll (f : QueueFlowLimit) (n : Nat) : QueueFlowLimit :=
  (List.range n).foldl (fun f i => (f.enqueued (sized (BitVec.ofNat 32 i) 1)).2) f

/-- A flow that stops at 2⁴⁰ octets. -/
def largeLimit : QueueFlowLimit := ⟨"q", 0, 0, 1 <<< 40, 1 <<< 40, false, 0, 0, []⟩

theorem enqueueAll_largeLimit {n : Nat} (h : n ≤ 2 ^ 32) :
    enqueueAll largeLimit n = { largeLimit with count := BitVec.ofNat 32 n, size := BitVec.ofNat 64 n } := by
  induction n with
  | zero => rfl
  | succ n ih =>
    have hsize : ¬ 1099511627776#64 < BitVec.ofNat 64 n + 1#64 := by bv_omega
    rw [enqueueAll, range_succ, foldl_append, ← enqueueAll, ih (by omega)]
    simp [largeLimit, QueueFlowLimit.enqueued, QueueFlowLimit.reached, sized, Message.getMessageSize, hsize,
      BitVec.ofNat_add]

/-- With 2³² small messages the count comes round to 0, and the first to be dequeued underflows it. -/
theorem message_count_wraps : ((enqueueAll largeLimit (2 ^ 32)).dequeued (sized 0 1)).1 =
    .error (.exception "Flow limit count underflow on dequeue. Queue=q") := by
  rw [enqueueAll_largeLimit le_rfl]
  rfl

end Spec.FlowControl

end QB
