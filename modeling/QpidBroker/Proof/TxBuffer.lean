import QpidBroker.Spec.Transaction

/-!
# A local transaction is all or nothing while its store serves

`startCommit` prepares operations in their order (`prepareLoop_eq`), and
`endCommit` tells all of them the same (`endCommit_serves`) unless the store
throws, which leaves them as they are (`endCommit_throws`).
-/

namespace QB.Impl.TxBuffer

open QB.Spec List

variable {Op : Type} (work : Op → Except String Bool)

theorem foldl_enlist (b : TxBuffer Op) (ops : List Op) : ops.foldl enlist b = { b with ops := b.ops ++ ops } := by
  induction ops generalizing b with
  | nil => simp
  | cons op ops ih => simp [ih, enlist]

theorem prepareLoop_eq (ops : List Op) : (prepareLoop work ops).2 <+: ops ∧
    ((prepareLoop work ops).1 = true → (prepareLoop work ops).2 = ops) ∧
    ((prepareLoop work ops).1 = true ↔ ∀ op ∈ ops, TxOp.prepare work op) := by
  induction ops with
  | nil => simp [prepareLoop]
  | cons op ops ih =>
    obtain ⟨hprep, hall, hiff⟩ := ih
    by_cases hop : TxOp.prepare work op
    · simp only [prepareLoop, hop, if_true]
      refine ⟨cons_prefix_cons.2 ⟨rfl, hprep⟩, fun h => by rw [hall h], ?_⟩
      simp [hiff, hop]
    · simp [prepareLoop, hop]

theorem foldl_setError (b : TxBuffer Op) (errors : List { e : String // e ≠ "" }) :
    ∃ error, errors.foldl (fun b e => b.setError e.1) b = b.setError error ∧
      (error = "" ↔ b.error = "" ∧ errors = []) := by
  induction errors generalizing b with
  | nil => exact ⟨b.error, rfl, by simp⟩
  | cons e errors ih =>
    obtain ⟨error, h, herror⟩ := ih (b.setError e.1)
    refine ⟨error, h, ?_⟩
    rw [herror]
    simp [setError, e.2]

variable {store : TransactionalStore} {b : TxBuffer Op}

/-- Which function of the store is called at the end. -/
def endThrows (store : TransactionalStore) (b : TxBuffer Op) : Option String :=
  if b.error = "" then store.commit else store.abort

theorem endCommit_throws {e : String} (h : endThrows store b = some e) : (b.endCommit store).2 = b := by
  unfold endThrows at h
  unfold endCommit
  split at h <;> simp_all

theorem endCommit_serves (h : endThrows store b = none) (hc : b.committed = false) :
    ((b.endCommit store).2).ops = [] ∧
      ((b.endCommit store).2).calls = b.calls ++ b.ops.map (·, if b.error = "" then .commit else .rollback) ∧
      (((b.endCommit store).2).committed = true ↔ b.error = "") := by
  unfold endThrows at h
  unfold endCommit
  split at h <;> simp_all [commit, rollback]

/-- The buffer when the commit ends, after the operations were prepared. -/
def completed (observer : Bool) (ops : List Op) (error : String) : TxBuffer Op :=
  { ops, txContext := true, error, calls := (if observer then (prepareLoop work ops).2 else []).map (·, .prepare) }

theorem startCommit_begun (observer : Bool) (ops : List Op) (hbegin : store.begin = none) :
    ∃ error, (error = "" ↔ observer = true ∧ ∀ op ∈ ops, TxOp.prepare work op) ∧
      startCommit work observer (some store) { ops } = (.ok (), completed work observer ops error) := by
  obtain ⟨-, -, hiff⟩ := prepareLoop_eq work ops
  cases observer with
  | false => exact ⟨"Transaction prepare failed.", by simp,
      by simp [startCommit, hbegin, prepare, completed, setError]⟩
  | true =>
    cases h : (prepareLoop work ops).1 with
    | false =>
      rw [h] at hiff
      refine ⟨"Transaction prepare failed.", by simpa using hiff, ?_⟩
      simp [startCommit, hbegin, prepare, completed, setError, h]
    | true =>
      rw [h] at hiff
      exact ⟨"", by simpa using hiff, by simp [startCommit, hbegin, prepare, completed, h]⟩

theorem transact_begun (observer : Bool) (ops : List Op) (errors : List { e : String // e ≠ "" })
    (hbegin : store.begin = none) :
    ∃ error, (error = "" ↔ observer = true ∧ (∀ op ∈ ops, TxOp.prepare work op) ∧ errors = []) ∧
      transact work observer store ops (.commit errors) = (completed work observer ops error).endCommit store := by
  obtain ⟨error, herror, hstart⟩ := startCommit_begun work observer ops hbegin
  obtain ⟨error', hset, herr'⟩ := foldl_setError (completed work observer ops error) errors
  refine ⟨error', ?_, ?_⟩
  · rw [herr', ← and_assoc, ← herror]
    rfl
  · simp only [transact, foldl_enlist, nil_append, hstart, hset]
    rfl

theorem transact_not_begun {e : String} (observer : Bool) (ops : List Op)
    (errors : List { e : String // e ≠ "" }) (hbegin : store.begin = some e) :
    (transact work observer store ops (.commit errors)).2 = { ops } := by
  simp [transact, foldl_enlist, startCommit, hbegin]

theorem allOrNothing_completed (observer : Bool) (ops : List Op) {error : String}
    (herror : error = "" → observer = true ∧ ∀ op ∈ ops, TxOp.prepare work op)
    (h : endThrows store (completed work observer ops error) = none) :
    AllOrNothing ops ((completed work observer ops error).endCommit store).2 := by
  obtain ⟨hops, hcalls, hcom⟩ := endCommit_serves h rfl
  obtain ⟨hprep, hall, hiff⟩ := prepareLoop_eq work ops
  refine ⟨hops, if error = "" then .commit else .rollback, if observer then (prepareLoop work ops).2 else [], ?_, ?_,
    hcalls, ?_, ?_⟩
  · split <;> simp
  · split
    · exact hprep
    · exact nil_prefix
  · intro hcall
    split at hcall
    · obtain ⟨hobs, hpre⟩ := herror ‹_›
      rw [if_pos hobs, hall (hiff.2 hpre)]
    · cases hcall
  · rw [hcom]
    simp [completed]

theorem allOrNothing_nil {b : TxBuffer Op} (hops : b.ops = []) (hcalls : b.calls = []) : AllOrNothing [] b := by
  refine ⟨hops, if b.committed then .commit else .rollback, [], ?_, nil_prefix, by simp [hcalls], by simp, ?_⟩
  · split <;> simp
  · cases b.committed <;> simp

/-- A transaction is carried out altogether or not at all just if the store does
not throw where it is called. -/
theorem transact_allOrNothing_iff (observer : Bool) (store : TransactionalStore) (ops : List Op) (ending : Ending) :
    AllOrNothing ops (transact work observer store ops ending).2 ↔ StoreServes work observer store ops ending := by
  cases ending with
  | rollback =>
    refine iff_of_true ⟨rfl, .rollback, [], .inr rfl, nil_prefix, ?_, nofun, ?_⟩ trivial
    · simp [transact, foldl_enlist, rollback]
    · simp [transact, foldl_enlist, rollback]
  | commit errors =>
    cases hbegin : store.begin with
    | some e =>
      rw [transact_not_begun work observer ops errors hbegin]
      simp only [StoreServes, hbegin, reduceCtorEq, false_and, or_false]
      constructor
      · exact fun h => h.1
      · rintro rfl
        exact allOrNothing_nil rfl rfl
    | none =>
      obtain ⟨error, herror, ht⟩ := transact_begun work observer ops errors hbegin
      rw [ht]
      have hthr : endThrows store (completed work observer ops error) = none ↔
          if observer = true ∧ (∀ op ∈ ops, TxOp.prepare work op) ∧ errors = [] then store.commit = none
          else store.abort = none := by
        simp only [endThrows, completed, herror]
        split <;> rfl
      simp only [StoreServes, hbegin, true_and, ← hthr]
      cases h : endThrows store (completed work observer ops error) with
      | none =>
        refine iff_of_true (allOrNothing_completed work observer ops (fun he => ?_) h) (.inr rfl)
        obtain ⟨hobs, hpre, -⟩ := herror.1 he
        exact ⟨hobs, hpre⟩
      | some e =>
        rw [endCommit_throws h]
        simp only [reduceCtorEq, or_false]
        constructor
        · exact fun h => h.1
        · rintro rfl
          exact allOrNothing_nil rfl (by simp [completed, prepareLoop])

/-- The store fails to commit: the operation is neither committed nor rolled
back, and stays in the buffer. -/
theorem transact_left_over :
    ¬ AllOrNothing [()] (transact (fun _ => .ok true) true { commit := some "no space" } [()] (.commit [])).2 :=
  fun h => by cases h.1

end QB.Impl.TxBuffer
