import QpidBroker.Impl.PrimaryTxObserver

/-!
# A replicated transaction commits only if every backup prepared

What the steps of a run say of each backup (`firstAnswer`), and what is to hold of the
transaction after them (`Atomic`).
-/

namespace QB.Spec.Ha

open Impl.Ha

/-- How a backup is done with a transaction. -/
inductive Answer where
  | prepareOk
  | prepareFail
  | disconnect
deriving DecidableEq

section answers

variable {U Q Op : Type} [DecidableEq U]

/-- What a step is for a backup. -/
def answerOf (b : U) : TxStep U Q Op → Option Answer
  | .prepareOk b' => if b' = b then some .prepareOk else none
  | .prepareFail b' => if b' = b then some .prepareFail else none
  | .cancel b' => if b' = b then some .disconnect else none
  | _ => none

/-- The first that is heard of a backup. -/
def firstAnswer (steps : List (TxStep U Q Op)) (b : U) : Option Answer := steps.findSome? (answerOf b)

/-- After these steps:
* there is a completer for each backup that is not done, and one for a commit under way;
* the callback is called once, when the commit has ended on the primary and all backups
  are done;
* it is called without an error, and the transaction is committed, only if all backups
  are prepared;
* a disconnection before the answer is recorded as an error. -/
structure Atomic (backups : Finset U) (steps : List (TxStep U Q Op)) (t : ReplicatedTx U Q Op) : Prop where
  pending : t.completion.completionsNeeded = (backups.filter fun b => firstAnswer steps b = none).card +
    if t.phase = .idle ∨ t.phase = .ended ∨ t.phase = .rolledBack then 0 else 1
  completes : t.completed = if t.phase = .ended ∧ ∀ b ∈ backups, firstAnswer steps b ≠ none then 1 else 0
  prepared : t.completed = 1 → t.buffer.error = "" → ∀ b ∈ backups, firstAnswer steps b = some .prepareOk
  committed : t.buffer.committed = true → ∀ b ∈ backups, firstAnswer steps b = some .prepareOk
  recorded : ∀ b ∈ backups, firstAnswer steps b = some .disconnect → .disconnected b ∈ t.errors

end answers

end QB.Spec.Ha
