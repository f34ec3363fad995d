import QpidBroker.Framework.Run
import QpidBroker.Spec.ReplicatedTx

/-!
# Replicated transactions

What holds of a transaction in any state (`Kept`): the completers that are left, the
callback and the errors. Each step keeps it (`Kept.step`), and what it says of the backups
that are not done agrees with what was heard of them (`History.step`). A disconnection
before the answer leaves no error behind: `cancel` takes the backup off the incomplete ones
before it asks whether it is one of them.
-/

namespace QB.Spec.Ha

open Impl Impl.Ha List Finset AsyncCompletion

variable {U Q Op : Type} {env : ReplicatedTx.Env U Op} {t t' : ReplicatedTx U Q Op}

/-! ## What the functions leave as it was -/

/-- Neither the completion nor the errors have changed, nor the backups that are not done. -/
structure Frame (t t' : ReplicatedTx U Q Op) : Prop where
  completion : t'.completion = t.completion
  phase : t'.phase = t.phase
  completed : t'.completed = t.completed
  scheduled : t'.scheduled = t.scheduled
  errors : t'.errors = t.errors
  error : t'.buffer.error = t.buffer.error
  incomplete : t'.observer.incomplete = t.observer.incomplete
  pointer : t.observer.incomplete ≠ ∅ → t'.observer.txBuffer = t.observer.txBuffer

namespace PrimaryTxObserver

variable {o : PrimaryTxObserver U Q} {logPrefix : String}

/-- The functions that end a transaction drop the pointer only if all backups are done. -/
def Ends (o o' : PrimaryTxObserver U Q) : Prop :=
  o'.incomplete = o.incomplete ∧ (o.incomplete ≠ ∅ → o'.txBuffer = o.txBuffer)

variable {o' : PrimaryTxObserver U Q}

theorem call_frame [DecidableEq Q] {c : ObserverCall Q} (h : o.call logPrefix c = .ok o') :
    o'.incomplete = o.incomplete ∧ o'.txBuffer = o.txBuffer := by
  cases c with
  | enqueue q all id =>
    simp only [PrimaryTxObserver.call] at h
    split at h
    · split at h
      · cases h
      · cases h
        exact ⟨rfl, rfl⟩
    · cases h
      exact ⟨rfl, rfl⟩
  | dequeue q all id =>
    simp only [PrimaryTxObserver.call] at h
    split at h
    · cases h
    split at h
    · cases h
      exact ⟨rfl, rfl⟩
    · cases h
      exact ⟨rfl, rfl⟩

theorem callAll_frame [DecidableEq Q] (logPrefix : String) (cs : List (ObserverCall Q)) (o : PrimaryTxObserver U Q) :
    (o.callAll logPrefix cs).2.incomplete = o.incomplete ∧ (o.callAll logPrefix cs).2.txBuffer = o.txBuffer := by
  induction cs generalizing o with
  | nil => exact ⟨rfl, rfl⟩
  | cons c cs ih =>
    rw [PrimaryTxObserver.callAll]
    cases hc : o.call logPrefix c with
    | error e => exact ⟨rfl, rfl⟩
    | ok o' =>
      obtain ⟨h1, h2⟩ := call_frame hc
      exact ⟨(ih o').1.trans h1, (ih o').2.trans h2⟩

theorem prepare_frame (h : o.prepare logPrefix = .ok o') :
    o'.incomplete = o.incomplete ∧ o'.txBuffer = o.txBuffer := by
  rw [PrimaryTxObserver.prepare] at h
  split at h
  · cases h
  · cases h
    exact ⟨rfl, rfl⟩

variable [DecidableEq U]

/-- `finish` leaves the backups that are not complete as they are. -/
theorem ends_finish (o : PrimaryTxObserver U Q) : Ends o o.finish := by
  rw [PrimaryTxObserver.finish]
  split
  · exact ⟨rfl, fun _ => rfl⟩
  · exact ⟨rfl, fun h => if_neg h⟩

theorem ends_commit (logPrefix : String) (o : PrimaryTxObserver U Q) : Ends o (o.commit logPrefix).2 := by
  rw [PrimaryTxObserver.commit]
  split
  · exact ⟨rfl, fun _ => rfl⟩
  · split
    · exact ends_finish _
    · exact ends_finish _

theorem ends_rollback (o : PrimaryTxObserver U Q) : Ends o o.rollback := by
  rw [PrimaryTxObserver.rollback]
  split
  · exact ⟨rfl, fun _ => rfl⟩
  · exact ends_finish _

end PrimaryTxObserver

variable [DecidableEq U]

theorem frame_rollback (t : ReplicatedTx U Q Op) : Frame t t.rollback :=
  have h := PrimaryTxObserver.ends_rollback t.observer
  ⟨rfl, rfl, rfl, rfl, rfl, rfl, h.1, h.2⟩

theorem frame_endCommit (env : ReplicatedTx.Env U Op) (t : ReplicatedTx U Q Op) : Frame t (t.endCommit env) := by
  rw [ReplicatedTx.endCommit]
  split
  · exact ⟨rfl, rfl, rfl, rfl, rfl, rfl, rfl, fun _ => rfl⟩
  split
  · split
    · exact ⟨rfl, rfl, rfl, rfl, rfl, rfl, rfl, fun _ => rfl⟩
    · exact frame_rollback t
  split
  · exact ⟨rfl, rfl, rfl, rfl, rfl, rfl, rfl, fun _ => rfl⟩
  obtain ⟨h1, h2⟩ := PrimaryTxObserver.ends_commit env.logPrefix t.observer
  simp only
  split
  · exact ⟨rfl, rfl, rfl, rfl, rfl, rfl, h1, h2⟩
  · exact ⟨rfl, rfl, rfl, rfl, rfl, rfl, h1, h2⟩

/-- Only a transaction without an error is committed. -/
theorem committed_endCommit (h : (t.endCommit env).buffer.committed = true) :
    t.buffer.committed = true ∨ t.buffer.error = "" := by
  rw [ReplicatedTx.endCommit] at h
  split at h
  · exact .inl h
  split at h
  · split at h
    · exact .inl h
    · exact .inl h
  · rename_i herror
    exact .inr (by simpa using herror)

/-! ## Completion -/

def opened (phase : Phase) : Nat := if phase = .idle ∨ phase = .ended ∨ phase = .rolledBack then 0 else 1

/-- What holds between any two steps of the transaction. -/
structure Kept (t : ReplicatedTx U Q Op) : Prop where
  needed : t.completion.completionsNeeded = t.observer.incomplete.card + opened t.phase
  completed : t.completed = if t.phase = .ended ∧ t.observer.incomplete = ∅ then 1 else 0
  callback : t.completion.callback = true ↔ t.phase = .ending ∨ t.phase = .ended ∧ t.observer.incomplete ≠ ∅
  active : t.observer.incomplete ≠ ∅ ∨ t.phase = .ending → t.completion.active = true
  pointer : t.observer.incomplete ≠ ∅ → t.observer.txBuffer = true
  error : t.buffer.error = "" ↔ t.errors = []
  undisturbed : ∀ b, .disconnected b ∉ t.errors
  committed : t.buffer.committed = true → t.phase = .ended ∧ t.observer.incomplete = ∅ ∧ t.errors = []
  scheduled : t.scheduled = true → t.phase = .ended ∧ t.observer.incomplete = ∅

theorem Kept.not_committed {P : Prop} (h : Kept t) (hphase : t.phase ≠ .ended) (hc : t.buffer.committed = true) : P :=
  absurd (h.committed hc).1 hphase

theorem Kept.not_scheduled {P : Prop} (h : Kept t) (hphase : t.phase ≠ .ended) (hs : t.scheduled = true) : P :=
  absurd (h.scheduled hs).1 hphase

theorem Kept.frame (h : Kept t) (hf : Frame t t') (hc : t'.buffer.committed = true →
    t.phase = .ended ∧ t.observer.incomplete = ∅ ∧ t.errors = []) : Kept t' where
  needed := by rw [hf.completion, hf.incomplete, hf.phase, h.needed]
  completed := by rw [hf.completed, hf.incomplete, hf.phase, h.completed]
  callback := by rw [hf.completion, hf.incomplete, hf.phase, h.callback]
  active := by
    rw [hf.completion, hf.incomplete, hf.phase]
    exact h.active
  pointer := by
    rw [hf.incomplete]
    exact fun hne => (hf.pointer hne).trans (h.pointer hne)
  error := by rw [hf.error, hf.errors, h.error]
  undisturbed := by
    rw [hf.errors]
    exact h.undisturbed
  committed := by
    rw [hf.phase, hf.incomplete, hf.errors]
    exact hc
  scheduled := by
    rw [hf.scheduled, hf.phase, hf.incomplete]
    exact h.scheduled

theorem Kept.endCommit (h : Kept t) (hphase : t.phase = .ended) (hall : t.observer.incomplete = ∅) :
    Kept (t.endCommit env) := by
  refine h.frame (frame_endCommit env t) fun hc => ?_
  rcases committed_endCommit hc with hc | herror
  · exact h.committed hc
  · exact ⟨hphase, hall, h.error.1 herror⟩

theorem Kept.move (h : Kept t) (phase : Phase) (hope : opened phase = opened t.phase)
    (ht : t.phase ≠ .ending ∧ t.phase ≠ .ended) (hphase : phase ≠ .ending ∧ phase ≠ .ended) :
    Kept { t with phase := phase } where
  needed := by rw [hope, h.needed]
  completed := by rw [h.completed, if_neg fun h => ht.2 h.1, if_neg fun h => hphase.2 h.1]
  callback := by
    rw [h.callback]
    exact iff_of_false (by simp [ht]) (by simp [hphase])
  active hne := h.active (.inl (hne.resolve_right hphase.1))
  pointer := h.pointer
  error := h.error
  undisturbed := h.undisturbed
  committed hc := absurd (h.committed hc).1 ht.2
  scheduled hs := absurd (h.scheduled hs).1 ht.2

/-- With the last completer the completion is over. -/
theorem Kept.finishCompleter_last (h : Kept t) (hcard : t.observer.incomplete.card = 1) (hphase : opened t.phase = 0) :
    t.completion.finishCompleter = (decide (t.phase = .ended), ⟨0, false, false⟩) := by
  have hne : t.observer.incomplete ≠ ∅ := by
    rw [← nonempty_iff_ne_empty, ← card_pos]
    omega
  have hact := h.active (.inl hne)
  have hcal : t.completion.callback = decide (t.phase = .ended) := by
    rw [Bool.eq_iff_iff, h.callback, decide_eq_true_eq]
    refine ⟨?_, fun hended => .inr ⟨hended, hne⟩⟩
    rintro (hendi | hended)
    · rw [hendi] at hphase
      cases hphase
    · exact hended.1
  have hnee : t.completion.completionsNeeded - 1 = 0 := by
    rw [h.needed]
    omega
  rw [finishCompleter, invokeCallback, hnee]
  simp [hact, hcal]

omit [DecidableEq U] in
theorem Kept.finishCompleter_other (hnee : t.completion.completionsNeeded - 1 ≠ 0) : t.completion.finishCompleter =
      (false, { t.completion with completionsNeeded := t.completion.completionsNeeded - 1 }) := by
  rw [finishCompleter, if_neg hnee]

/-- A backup completes once, and counts once. -/
theorem Kept.completedBackup (h : Kept t) (b : U) : ∃ t', t.completedBackup b =
    some (decide (b ∈ t.observer.incomplete), t') ∧ Kept t' ∧ t'.errors = t.errors ∧
      t'.observer.incomplete = t.observer.incomplete.erase b := by
  by_cases hb : b ∈ t.observer.incomplete
  swap
  · refine ⟨t, ?_, h, rfl, (erase_eq_of_notMem hb).symm⟩
    rw [ReplicatedTx.completedBackup, if_neg hb, decide_eq_false hb]
  have hne : t.observer.incomplete ≠ ∅ := ne_empty_of_mem hb
  have hcard := card_erase_of_mem hb
  have hpos := card_pos.2 ⟨b, hb⟩
  have hempty : t.observer.incomplete.erase b = ∅ ↔ t.observer.incomplete.card = 1 := by
    rw [← card_eq_zero]
    omega
  have hcom : t.buffer.committed ≠ true := fun hc => hne (h.committed hc).2.1
  have hsch : t.scheduled = false := by
    rw [← Bool.not_eq_true]
    exact fun hs => hne (h.scheduled hs).2
  have hzero : t.completed = 0 := by
    rw [h.completed, if_neg fun h => hne h.2]
  simp only [ReplicatedTx.completedBackup, h.pointer hne, hb]
  refine ⟨_, rfl, ?_, rfl, rfl⟩
  by_cases hlast : t.observer.incomplete.card = 1 ∧ opened t.phase = 0
  · rw [h.finishCompleter_last hlast.1 hlast.2]
    have herase := hempty.2 hlast.1
    refine ⟨?_, ?_, ?_, ?_, ?_, h.error, h.undisturbed, fun hc => absurd hc hcom, ?_⟩
    · simp [hlast.2, herase]
    · simp [herase, hzero]
    · simp only [herase, ne_eq, not_true, and_false, or_false, Bool.false_eq_true, false_iff]
      intro hendi
      have hope := hlast.2
      rw [hendi] at hope
      cases hope
    · simp only [herase, ne_eq, not_true, false_or]
      intro hendi
      have hope := hlast.2
      rw [hendi] at hope
      cases hope
    · exact fun hne' => absurd herase hne'
    · simp only [hsch, Bool.false_or, decide_eq_true_eq]
      exact fun hended => ⟨hended, herase⟩
  have hnee : t.completion.completionsNeeded - 1 ≠ 0 := by
    rw [h.needed]
    omega
  have hended : t.phase = .ended → t.observer.incomplete.erase b ≠ ∅ := by
    intro hended herase
    exact hlast ⟨hempty.1 herase, by rw [hended]; rfl⟩
  rw [Kept.finishCompleter_other hnee]
  refine ⟨?_, ?_, ?_, ?_, ?_, h.error, h.undisturbed, fun hc => absurd hc hcom, ?_⟩
  · simp only [h.needed]
    omega
  · simp only [Bool.false_eq_true, if_false, hzero]
    rw [if_neg fun h => hended h.1 h.2]
  · simp only [h.callback]
    exact ⟨fun h => h.imp_right fun h => ⟨h.1, hended h.1⟩, fun h => h.imp_right fun h => ⟨h.1, hne⟩⟩
  · exact fun _ => h.active (.inl hne)
  · exact fun _ => rfl
  · simp [hsch]

omit [DecidableEq U] in
theorem TxError.text_ne (env : ReplicatedTx.Env U Op) (e : TxError U) : ReplicatedTx.TxError.text env e ≠ "" := by
  have happ {a b c : String} (hb : b ≠ "") : a ++ b ++ c ≠ "" := by
    rw [Ne, String.append_eq_empty_iff, String.append_eq_empty_iff]
    exact fun h => hb h.1.2
  cases e with
  | prepareFailed => exact (by decide : "Transaction prepare failed." ≠ "")
  | backupFailed b => exact happ (by decide)
  | disconnected b => exact happ (by decide)

theorem Kept.setError (h : Kept t) (hopen : t.completed = 0) {e : TxError U} (he : ∀ b, e ≠ .disconnected b) :
    Kept (t.setError env e) where
  needed := h.needed
  completed := h.completed
  callback := h.callback
  active := h.active
  pointer := h.pointer
  error := iff_of_false (TxError.text_ne env e) (by simp [ReplicatedTx.setError])
  undisturbed b hb := by
    rcases mem_cons.1 hb with hb | hb
    · exact he b hb.symm
    · exact h.undisturbed b hb
  committed hc := by
    obtain ⟨hphase, hall, -⟩ := h.committed hc
    rw [h.completed, if_pos ⟨hphase, hall⟩] at hopen
    cases hopen
  scheduled := h.scheduled

/-! ## Steps -/

/-- What a step does about the backups: those it says something of are done, errors are not
forgotten, and a failure leaves one. -/
structure Progress (t : ReplicatedTx U Q Op) (op : TxStep U Q Op) (t' : ReplicatedTx U Q Op) : Prop where
  kept : Kept t'
  incomplete : t'.observer.incomplete = t.observer.incomplete.filter fun b => answerOf b op = none
  errors : t.errors ≠ [] → t'.errors ≠ []
  failed : ∀ b ∈ t.observer.incomplete, answerOf b op = some .prepareFail → t'.errors ≠ []

variable {op : TxStep U Q Op}

theorem Progress.of_own (hop : ∀ b, answerOf b op = none) (hkept : Kept t')
    (hinc : t'.observer.incomplete = t.observer.incomplete) (herr : t.errors ≠ [] → t'.errors ≠ []) :
    Progress t op t' := by
  refine ⟨hkept, ?_, herr, fun b _ hb => ?_⟩
  · rw [hinc, filter_true_of_mem fun b _ => hop b]
  · rw [hop b] at hb
    cases hb

/-- The step is the answer of one backup. -/
theorem Progress.of_answer {b : U} {a : Answer}
    (hop : ∀ b', answerOf b' op = if b = b' then some a else none) (hkept : Kept t')
    (hinc : t'.observer.incomplete = t.observer.incomplete.erase b)
    (herr : t.errors ≠ [] → t'.errors ≠ [])
    (hfai : b ∈ t.observer.incomplete → a = .prepareFail → t'.errors ≠ []) : Progress t op t' := by
  refine ⟨hkept, ?_, herr, fun b' hb' ha => ?_⟩
  · rw [hinc, ← filter_ne]
    refine Finset.filter_congr fun b' _ => ?_
    rw [hop]
    simp
  rw [hop] at ha
  split at ha
  · rename_i heq
    subst heq
    exact hfai hb' (Option.some.inj ha)
  · cases ha

variable [DecidableEq Q]

theorem Kept.prepareOk (h : Kept t) (b : U) : ∃ t', t.step env (.prepareOk b) = some t' ∧
    Progress t (.prepareOk b) t' := by
  obtain ⟨t', ht', hkept, herr, hinc⟩ := h.completedBackup b
  refine ⟨t', ?_, .of_answer (fun _ => rfl) hkept hinc (herr ▸ id) fun _ ha => nomatch ha⟩
  rw [ReplicatedTx.step, ht']
  rfl

theorem Kept.prepareFail (h : Kept t) (b : U) :
    ∃ t', t.step env (.prepareFail b) = some t' ∧ Progress t (.prepareFail b) t' := by
  rw [ReplicatedTx.step, ReplicatedTx.error]
  by_cases hb : b ∈ t.observer.incomplete
  swap
  · rw [if_neg hb]
    exact ⟨t, rfl, .of_answer (fun _ => rfl) h (erase_eq_of_notMem hb).symm id fun hb' => absurd hb' hb⟩
  have hopen : t.completed = 0 := by
    rw [h.completed, if_neg fun h => ne_empty_of_mem hb h.2]
  have hset : Kept (t.setError env (.backupFailed b)) := h.setError hopen (by simp)
  obtain ⟨t', ht', hkept, herr, hinc⟩ := hset.completedBackup b
  have hne : t'.errors ≠ [] := by
    rw [herr]
    simp [ReplicatedTx.setError]
  refine ⟨t', ?_, .of_answer (fun _ => rfl) hkept hinc (fun _ => hne) fun _ _ => hne⟩
  rw [if_pos hb, ht']
  rfl

/-- A backup is taken off before it is looked for, so that no error is set. -/
theorem Kept.cancel (h : Kept t) (b : U) : ∃ t', t.step env (.cancel b) = some t' ∧ Progress t (.cancel b) t' := by
  obtain ⟨u, hu, hkept, herr, hinc⟩ := h.completedBackup b
  have hb : b ∉ u.observer.incomplete := by
    rw [hinc]
    exact notMem_erase b _
  have herror : u.error env b (.disconnected b) = some u := if_neg hb
  rw [ReplicatedTx.step, ReplicatedTx.cancel, hu]
  simp only [Option.bind_eq_bind, Option.bind_some, herror, ite_self]
  refine ⟨_, rfl, ?_⟩
  split
  · rename_i hdone
    refine .of_answer (fun _ => rfl) ⟨hkept.needed, hkept.completed, hkept.callback, hkept.active,
      fun hne => absurd hdone.2 hne, hkept.error, hkept.undisturbed, hkept.committed, hkept.scheduled⟩ hinc
      (herr ▸ id) fun _ ha => nomatch ha
  · exact .of_answer (fun _ => rfl) hkept hinc (herr ▸ id) fun _ ha => nomatch ha

section own

variable {op : TxStep U Q Op}

theorem Kept.enlist {x : Op} {calls : List (ObserverCall Q)} (h : Kept t)
    (hstep : t.step env (.enlist x calls) = some t') :
    Progress t (.enlist x calls) t' := by
  obtain ⟨h1, h2⟩ := PrimaryTxObserver.callAll_frame env.logPrefix calls t.observer
  obtain ⟨hphase, hstep⟩ := Option.ite_none_right_eq_some.1 hstep
  have hended : t.phase ≠ .ended := by
    rintro hended
    simp [hended] at hphase
  split at hstep
  · cases hstep
    exact .of_own (fun _ => rfl)
      (h.frame ⟨rfl, rfl, rfl, rfl, rfl, rfl, h1, fun _ => h2⟩ (h.not_committed hended)) h1 id
  cases hstep
  refine .of_own (fun _ => rfl) ?_ h1 id
  have hkept : Kept { t with observer := (t.observer.callAll env.logPrefix calls).2 } :=
    h.frame ⟨rfl, rfl, rfl, rfl, rfl, rfl, h1, fun _ => h2⟩ (h.not_committed hended)
  rcases hphase with hphase | hphase
  · rw [if_neg (by rw [hphase]; simp)]
    exact hkept
  · rw [if_pos hphase]
    exact hkept.move _ (by rw [hphase]; rfl) (by rw [hphase]; simp) (by simp)

theorem Kept.start (h : Kept t) (hstep : t.step env .start = some t') : Progress t .start t' := by
  obtain ⟨hphase, hstep⟩ := Option.ite_none_right_eq_some.1 hstep
  cases hstep
  have hended : t.phase ≠ .ended := by rw [hphase]; simp
  refine .of_own (fun _ => rfl) ⟨?_, ?_, ?_, ?_, h.pointer, h.error, h.undisturbed, h.not_committed hended,
    h.not_scheduled hended⟩ rfl id
  · have hnee := h.needed
    rw [hphase] at hnee
    exact congrArg (· + 1) hnee
  · have hcom := h.completed
    rw [hphase] at hcom
    simpa using hcom
  · have hcal := h.callback
    rw [hphase] at hcal
    simpa [start] using hcal
  · intro hne
    exact h.active (.inl (hne.resolve_right (by simp)))

theorem Kept.prepare (h : Kept t) (hstep : t.step env .prepare = some t') : Progress t .prepare t' := by
  obtain ⟨hphase, hstep⟩ := Option.ite_none_right_eq_some.1 hstep
  dsimp only at hstep
  have hbuf : Kept { t with buffer := { t.buffer with txContext := true } } :=
    h.frame ⟨rfl, rfl, rfl, rfl, rfl, rfl, rfl, fun _ => rfl⟩ h.committed
  split at hstep
  swap
  · cases hstep
    exact .of_own (fun _ => rfl) (h.move _ (by rw [hphase]; rfl) (by rw [hphase]; simp) (by simp)) rfl id
  split at hstep
  swap
  · cases hstep
    exact .of_own (fun _ => rfl) (hbuf.move _ (by rw [hphase]; rfl) (by rw [hphase]; simp) (by simp)) rfl id
  rename_i o ho
  cases hstep
  obtain ⟨h1, h2⟩ := PrimaryTxObserver.prepare_frame ho
  refine .of_own (fun _ => rfl) ?_ h1 id
  have hkept : Kept { t with observer := o, buffer := { t.buffer with txContext := true } } :=
    hbuf.frame ⟨rfl, rfl, rfl, rfl, rfl, rfl, h1, fun _ => h2⟩ h.committed
  exact hkept.move _ (by rw [hphase]; rfl) (by rw [hphase]; simp) (by simp)

theorem Kept.prepareOps (h : Kept t) (hstep : t.step env .prepareOps = some t') : Progress t .prepareOps t' := by
  obtain ⟨hphase, hstep⟩ := Option.ite_none_right_eq_some.1 hstep
  have hframe : Frame t { t with buffer := (t.buffer.prepare env.work true).2 } :=
    ⟨rfl, rfl, rfl, rfl, rfl, rfl, rfl, fun _ => rfl⟩
  have hkept := (h.frame hframe h.committed).move .prepared (by rw [hphase]; rfl)
    (by rw [hphase]; simp) (by simp)
  cases hstep
  split
  · exact .of_own (fun _ => rfl) hkept rfl id
  · refine .of_own (fun _ => rfl) (hkept.setError ?_ (by simp)) rfl fun _ => by simp [ReplicatedTx.setError]
    rw [hkept.completed, if_neg (by simp)]

theorem Kept.rollback (h : Kept t) (hstep : t.step env .rollback = some t') : Progress t .rollback t' := by
  obtain ⟨hphase, hstep⟩ := Option.ite_none_right_eq_some.1 hstep
  cases hstep
  have hframe := frame_rollback t
  have hkept : Kept t.rollback := h.frame hframe h.committed
  exact .of_own (fun _ => rfl) (hkept.move _ (by rw [hframe.phase, hphase]; rfl) (by rw [hframe.phase, hphase]; simp)
    (by simp)) hframe.incomplete (hframe.errors ▸ id)

omit [DecidableEq Q] in
theorem Kept.progress_endCommit {u : ReplicatedTx U Q Op} (hu : Kept u) (hop : ∀ b, answerOf b op = none)
    (hphase : u.phase = .ended) (hall : u.observer.incomplete = ∅)
    (hinc : u.observer.incomplete = t.observer.incomplete) (herr : u.errors = t.errors) :
    Progress t op (u.endCommit env) := by
  have hframe := frame_endCommit env u
  refine .of_own hop (hu.endCommit hphase hall) (hframe.incomplete.trans hinc) ?_
  rw [hframe.errors, herr]
  exact id

omit [DecidableEq Q] in
theorem Kept.completed_zero (h : Kept t) (hended : t.phase ≠ .ended) : t.completed = 0 := by
  rw [h.completed, if_neg fun h => hended h.1]

omit [DecidableEq Q] in
/-- The commit ends with all backups done, whatever step ends it. -/
theorem Kept.ended (h : Kept t) (hop : ∀ b, answerOf b op = none) (hended : t.phase ≠ .ended)
    (hall : t.observer.incomplete = ∅) {c : AsyncCompletion} (hnee : c.completionsNeeded = 0)
    (hcal : c.callback ≠ true) : Progress t op
      (ReplicatedTx.endCommit env { t with completion := c, phase := .ended, completed := t.completed + 1 }) := by
  have hkept : Kept { t with completion := c, phase := .ended, completed := t.completed + 1 } := by
    refine ⟨?_, ?_, ?_, ?_, h.pointer, h.error, h.undisturbed, h.not_committed hended, h.not_scheduled hended⟩
    · simp only [hall, hnee]
      rfl
    · simp [hall, h.completed_zero hended]
    · exact iff_of_false hcal (by simp [hall])
    · simp [hall]
  exact hkept.progress_endCommit hop rfl hall rfl rfl

theorem Kept.finish (h : Kept t) (hstep : t.step env .finish = some t') : Progress t .finish t' := by
  obtain ⟨hphase, hstep⟩ := Option.ite_none_right_eq_some.1 hstep
  have hnee := h.needed
  rw [hphase] at hnee
  have hcal : t.completion.callback ≠ true := by
    rw [Ne, h.callback, hphase]
    simp
  have hended : t.phase ≠ .ended := by rw [hphase]; simp
  split at hstep
  · rename_i hone
    have hall : t.observer.incomplete = ∅ := by
      rw [hone, opened] at hnee
      simpa using hnee
    cases hstep
    exact h.ended (fun _ => rfl) hended hall rfl hcal
  rename_i hone
  have hne : t.observer.incomplete ≠ ∅ := by
    intro hall
    rw [hall] at hnee
    exact hone hnee
  cases hstep
  refine .of_own (fun _ => rfl) ⟨hnee, ?_, ?_, ?_, h.pointer, h.error, h.undisturbed, h.not_committed hended,
    h.not_scheduled hended⟩ rfl id
  · simp [h.completed_zero hended]
  · simp
  · exact fun _ => h.active (.inl hne)

/-- The last completer may have come in between. -/
theorem Kept.wait (h : Kept t) (hstep : t.step env .wait = some t') : Progress t .wait t' := by
  obtain ⟨hphase, hstep⟩ := Option.ite_none_right_eq_some.1 hstep
  have hnee := h.needed
  rw [hphase] at hnee
  have hcal : t.completion.callback = true := h.callback.2 (.inl hphase)
  have hact := h.active (.inr hphase)
  have hended : t.phase ≠ .ended := by rw [hphase]; simp
  by_cases hall : t.observer.incomplete = ∅
  · have hfin : t.completion.finishCompleter = (true, ⟨0, false, false⟩) := by
      have hzero : t.completion.completionsNeeded - 1 = 0 := by rw [hnee, hall]; rfl
      rw [finishCompleter, invokeCallback, hzero]
      simp [hact, hcal]
    rw [hfin] at hstep
    cases hstep
    exact h.ended (fun _ => rfl) hended hall rfl nofun
  have hnon : t.completion.completionsNeeded - 1 = t.observer.incomplete.card := by rw [hnee]; rfl
  rw [Kept.finishCompleter_other (by rw [hnon]; exact card_ne_zero.2 (nonempty_iff_ne_empty.2 hall)),
    hnon] at hstep
  cases hstep
  refine .of_own (fun _ => rfl) ⟨rfl, ?_, ?_, ?_, h.pointer, h.error, h.undisturbed, h.not_committed hended,
    h.not_scheduled hended⟩ rfl id
  · simp [h.completed_zero hended, hall]
  · simp [hcal, hall]
  · exact fun _ => hact

theorem Kept.complete {attached : Bool} (h : Kept t) (hstep : t.step env (.complete attached) = some t') :
    Progress t (.complete attached) t' := by
  obtain ⟨hsch, hstep⟩ := Option.ite_none_right_eq_some.1 hstep
  obtain ⟨hphase, hall⟩ := h.scheduled hsch
  have hkept : Kept { t with scheduled := false } :=
    ⟨h.needed, h.completed, h.callback, h.active, h.pointer, h.error, h.undisturbed, h.committed, nofun⟩
  cases hstep
  split
  · exact hkept.progress_endCommit (fun _ => rfl) hphase hall rfl rfl
  · exact .of_own (fun _ => rfl) hkept rfl id

end own

/-- Every step keeps it, and makes the progress its answers allow. -/
theorem Kept.step (h : Kept t) (hstep : t.step env op = some t') : Progress t op t' := by
  have hevent (hevent : ∃ u, t.step env op = some u ∧ Progress t op u) : Progress t op t' := by
    obtain ⟨u, hu, hpro⟩ := hevent
    rw [hu] at hstep
    cases hstep
    exact hpro
  cases op with
  | enlist x calls => exact h.enlist hstep
  | start => exact h.start hstep
  | prepare => exact h.prepare hstep
  | prepareOps => exact h.prepareOps hstep
  | finish => exact h.finish hstep
  | wait => exact h.wait hstep
  | complete attached => exact h.complete hstep
  | rollback => exact h.rollback hstep
  | prepareOk b => exact hevent (h.prepareOk b)
  | prepareFail b => exact hevent (h.prepareFail b)
  | cancel b => exact hevent (h.cancel b)

/-! ## Runs -/

/-- What was heard of the backups. -/
structure History (backups : Finset U) (steps : List (TxStep U Q Op)) (t : ReplicatedTx U Q Op) : Prop where
  kept : Kept t
  incomplete : t.observer.incomplete = backups.filter fun b => firstAnswer steps b = none
  failed : ∀ b ∈ backups, firstAnswer steps b = some .prepareFail → t.errors ≠ []

section runs

variable {backups : Finset U} {steps : List (TxStep U Q Op)}

omit [DecidableEq Q] in
theorem firstAnswer_concat (steps : List (TxStep U Q Op)) (op : TxStep U Q Op) (b : U) :
    firstAnswer (steps ++ [op]) b = (firstAnswer steps b).or (answerOf b op) := by
  rw [firstAnswer, findSome?_append, findSome?_singleton]
  rfl

omit [DecidableEq Q] in
theorem History.create (backups : Finset U) : History backups [] (.create backups : ReplicatedTx U Q Op) := by
  have hnee : ∀ n, startCompleter^[n] {} = ⟨n, true, false⟩ := by
    intro n
    induction n with
    | zero => rfl
    | succ n ih => rw [Function.iterate_succ_apply', ih]; rfl
  refine ⟨⟨?_, ?_, ?_, ?_, fun _ => rfl, by simp [ReplicatedTx.create], ?_, nofun, nofun⟩, ?_, nofun⟩
  · simp only [ReplicatedTx.create, hnee]
    rfl
  · simp [ReplicatedTx.create]
  · simp [ReplicatedTx.create, hnee]
  · simp [ReplicatedTx.create, hnee]
  · simp [ReplicatedTx.create]
  · simp [ReplicatedTx.create, PrimaryTxObserver.create, firstAnswer]

/-- The answers so far are those of the steps so far. -/
theorem History.step {op : TxStep U Q Op} (h : History backups steps t) (hstep : t.step env op = some t') :
    History backups (steps ++ [op]) t' := by
  have hp := h.kept.step hstep
  refine ⟨hp.kept, ?_, fun b hb hfai => ?_⟩
  · rw [hp.incomplete, h.incomplete, Finset.filter_filter]
    refine Finset.filter_congr fun b _ => ?_
    rw [firstAnswer_concat, Option.or_eq_none_iff]
  rw [firstAnswer_concat] at hfai
  cases hfirst : firstAnswer steps b with
  | some a =>
    rw [hfirst] at hfai
    cases hfai
    exact hp.errors (h.failed b hb hfirst)
  | none =>
    rw [hfirst] at hfai
    refine hp.failed b ?_ hfai
    rw [h.incomplete]
    exact Finset.mem_filter.2 ⟨hb, hfirst⟩

theorem History.run (hrun : Run (ReplicatedTx.step env) (fun _ _ => True)
      (.create backups : ReplicatedTx U Q Op) steps t) :
    History backups steps t := by
  have h := hrun.keep_ops (I := fun t steps => History backups steps t) (fun h _ hstep => h.step hstep)
    (History.create backups)
  rwa [nil_append] at h

omit [DecidableEq Q] in
/-- Without a disconnection before the answer, a transaction is atomic. -/
theorem History.atomic (h : History backups steps t)
    (hsta : ∀ b ∈ backups, firstAnswer steps b ≠ some .disconnect) :
    Atomic backups steps t := by
  have hall : t.observer.incomplete = ∅ ↔ ∀ b ∈ backups, firstAnswer steps b ≠ none := by
    rw [h.incomplete, filter_eq_empty_iff]
  have hpre (hdone : t.observer.incomplete = ∅) (herr : t.errors = []) (b : U) (hb : b ∈ backups) :
      firstAnswer steps b = some .prepareOk := by
    cases hfirst : firstAnswer steps b with
    | none => exact absurd hfirst (hall.1 hdone b hb)
    | some a =>
      cases a with
      | prepareOk => rfl
      | prepareFail => exact absurd herr (h.failed b hb hfirst)
      | disconnect => exact absurd hfirst (hsta b hb)
  refine ⟨?_, ?_, fun hcom herror => ?_, fun hcomm => ?_, fun b hb hfirst => absurd hfirst (hsta b hb)⟩
  · rw [h.kept.needed, h.incomplete]
    rfl
  · rw [h.kept.completed]
    simp [hall]
  · have hdone : t.observer.incomplete = ∅ := by
      by_contra hne
      rw [h.kept.completed, if_neg fun h => hne h.2] at hcom
      cases hcom
    exact hpre hdone (h.kept.error.1 herror)
  · obtain ⟨-, hdone, herr⟩ := h.kept.committed hcomm
    exact hpre hdone herr

/-- In every run the transaction is atomic, if and only if no backup disconnects before it
answers. -/
theorem replicated_tx_atomic_iff
    (hrun : Run (ReplicatedTx.step env) (fun _ _ => True) (.create backups : ReplicatedTx U Q Op) steps t) :
    Atomic backups steps t ↔ ∀ b ∈ backups, firstAnswer steps b ≠ some .disconnect := by
  have h := History.run hrun
  refine ⟨fun hato b hb hfirst => ?_, h.atomic⟩
  exact h.kept.undisturbed b (hato.recorded b hb hfirst)

end runs

/-- A transaction with a store in which nothing fails. -/
def plainEnv : ReplicatedTx.Env Nat Unit := ⟨"1", toString, fun _ => .ok true, some {}⟩

/-- Two backups, one that fails. -/
theorem replicated_tx_atomic_two : ∃ t, Run (ReplicatedTx.step plainEnv) (fun _ _ => True)
    (.create {1, 2} : ReplicatedTx Nat Unit Unit)
    [.start, .prepare, .prepareOps, .prepareOk 1, .finish, .wait, .prepareFail 2, .complete true] t ∧
    t.completed = 1 ∧ t.buffer.committed = false ∧
    Atomic {1, 2} [.start, .prepare, .prepareOps, .prepareOk 1, .finish, .wait, .prepareFail 2, .complete true] t := by
  exact exists_run (Q := fun t => t.completed = 1 ∧ t.buffer.committed = false) (by decide +kernel)
    fun t hrun ⟨h₁, h₂⟩ => ⟨hrun, h₁, h₂, (replicated_tx_atomic_iff hrun).2 (by decide)⟩

/-- The only backup disconnects before it has answered, and the transaction is committed. -/
theorem commit_without_backup : ∃ t, Run (ReplicatedTx.step plainEnv) (fun _ _ => True)
    (.create {1} : ReplicatedTx Nat Unit Unit)
    [.start, .prepare, .prepareOps, .finish, .wait, .cancel 1, .complete true] t ∧
    t.completed = 1 ∧ t.buffer.committed = true ∧ t.buffer.error = "" ∧
    ¬ Atomic {1} [.start, .prepare, .prepareOps, .finish, .wait, .cancel 1, .complete true] t := by
  refine exists_run (Q := fun t => t.completed = 1 ∧ t.buffer.committed = true ∧ t.buffer.error = "")
    (by decide +kernel) fun t hrun ⟨h₁, h₂, h₃⟩ => ⟨hrun, h₁, h₂, h₃, fun hato => ?_⟩
  have hpre := hato.committed h₂ 1 (by decide)
  cases hpre

end QB.Spec.Ha
