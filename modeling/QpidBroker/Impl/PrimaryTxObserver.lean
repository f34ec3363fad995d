import Mathlib.Data.Finset.Prod
import QpidBroker.Impl.TxBuffer

/-!
# Replicated transactions on the primary

`ha/PrimaryTxObserver.{h,cpp}` with `broker/AsyncCompletion.h` and the way
`SemanticState::commit` uses a `TxBuffer`.

* A step is what one thread does without others in between: a function of the observer
  under its lock, one access to the counter of completions (`end` makes two), one scan of
  the operations. The steps of the thread that commits come in their order (`Phase`), those
  of the connections of the backups at any time.
* The events that the observer puts on the transaction queue are recorded (`sent`), and so
  are the identifiers that the subscriptions of the backups are told to skip (`skips`) and
  the calls of `setError` (`errors`).
* `U`, `Q` and `Op` are the types of broker identifiers, queues and operations.
-/

namespace QB.Impl.Ha

/-! ## Completion -/

/-- `AsyncCompletion`. The callback of a commit is known, so only whether there is one is
kept. -/
structure AsyncCompletion where
  completionsNeeded : Nat := 0
  active : Bool := true
  callback : Bool := false
deriving DecidableEq

namespace AsyncCompletion

def startCompleter (c : AsyncCompletion) : AsyncCompletion := { c with completionsNeeded := c.completionsNeeded + 1 }

def start (c : AsyncCompletion) : AsyncCompletion := { c with completionsNeeded := c.completionsNeeded + 1 }

/-- `invokeCallback`, and whether it called. -/
def invokeCallback (c : AsyncCompletion) : Bool × AsyncCompletion :=
  if c.active then (c.callback, { c with callback := false, active := false }) else (false, c)

/-- `--completionsNeeded`, and what follows if that was the last. -/
def finishCompleter (c : AsyncCompletion) : Bool × AsyncCompletion :=
  if c.completionsNeeded - 1 = 0 then invokeCallback { c with completionsNeeded := c.completionsNeeded - 1 }
  else (false, { c with completionsNeeded := c.completionsNeeded - 1 })

end AsyncCompletion

/-! ## The observer -/

inductive TxState where
  | sending
  | preparing
  | ended
deriving DecidableEq

/-- What is put on the transaction queue. -/
inductive TxEvent (U Q : Type) where
  | backups (ids : Finset U)
  | enqueue (queue : Q) (id : Nat)
  | message (id : Nat)
  | dequeue (queue : Q) (id : Nat)
  | prepare
  | commit
  | rollback
deriving DecidableEq

structure PrimaryTxObserver (U Q : Type) where
  state : TxState := .sending
  backups : Finset U
  incomplete : Finset U
  enqueues : Finset (Q × Nat) := ∅
  empty : Bool := true
  /-- The pointer to the `TxBuffer` is not null. -/
  txBuffer : Bool := true
  sent : List (TxEvent U Q) := []
  skips : Finset (U × Q × Nat) := ∅

/-- What an operation tells the observer; `all` is the replication level of the queue. -/
inductive ObserverCall (Q : Type) where
  | enqueue (queue : Q) (all : Bool) (id : Nat)
  | dequeue (queue : Q) (all : Bool) (id : Nat)

namespace PrimaryTxObserver

variable {U Q : Type} [DecidableEq U] [DecidableEq Q]

def create (backups : Finset U) : PrimaryTxObserver U Q where
  backups := backups
  incomplete := backups
  sent := [.backups backups]

def deliver (o : PrimaryTxObserver U Q) (e : TxEvent U Q) : PrimaryTxObserver U Q := { o with sent := o.sent ++ [e] }

/-- `enqueue(q, m)` and `dequeue(q, pos, id)`. -/
def call (logPrefix : String) (o : PrimaryTxObserver U Q) : ObserverCall Q → Except String (PrimaryTxObserver U Q)
  | .enqueue q all id =>
    if all then
      if o.state ≠ .sending then .error (logPrefix ++ "Illegal state: Too late for enqueue")
      else
        .ok (({ o with empty := false, enqueues := insert (q, id) o.enqueues }.deliver (.enqueue q id)).deliver
          (.message id))
    else .ok o
  | .dequeue q all id =>
    if o.state ≠ .sending then .error (logPrefix ++ "Illegal state: Too late for dequeue")
    else if all then .ok ({ o with empty := false }.deliver (.dequeue q id))
    else .ok o

/-- `callObserver` of an operation: the calls up to one that throws. -/
def callAll (logPrefix : String) : List (ObserverCall Q) → PrimaryTxObserver U Q →
    Except String Unit × PrimaryTxObserver U Q
  | [], o => (.ok (), o)
  | c :: cs, o =>
    match o.call logPrefix c with
    | .ok o => callAll logPrefix cs o
    | .error e => (.error e, o)

def prepare (logPrefix : String) (o : PrimaryTxObserver U Q) : Except String (PrimaryTxObserver U Q) :=
  if o.state ≠ .sending then .error (logPrefix ++ "Illegal state: Too late for prepare")
  else .ok ({ o with state := .preparing, skips := o.backups ×ˢ o.enqueues }.deliver .prepare)

def finish (o : PrimaryTxObserver U Q) : PrimaryTxObserver U Q :=
  if o.state = .ended then o
  else { o with state := .ended, txBuffer := if o.incomplete = ∅ then false else o.txBuffer }

def commit (logPrefix : String) (o : PrimaryTxObserver U Q) : Except String Unit × PrimaryTxObserver U Q :=
  if o.state ≠ .preparing then (.error (logPrefix ++ "Illegal state: Cannot commit, not preparing"), o)
  else if o.incomplete.card = 0 then (.ok (), (o.deliver .commit).finish)
  else
    (.error (logPrefix ++ "Cannot commit, " ++ toString o.incomplete.card ++ " incomplete backups"),
      (o.deliver .rollback).finish)

def rollback (o : PrimaryTxObserver U Q) : PrimaryTxObserver U Q :=
  if o.state = .ended then o else (o.deliver .rollback).finish

end PrimaryTxObserver

/-! ## The transaction -/

/-- What `setError` is told. -/
inductive TxError (U : Type) where
  | prepareFailed
  | backupFailed (backup : U)
  | disconnected (backup : U)
deriving DecidableEq

/-- Where the thread that commits or rolls back is. -/
inductive Phase where
  | idle
  | begun
  | preparing
  | prepared
  | ending
  | ended
  | rolledBack
  /-- An exception has left `SemanticState::commit`. -/
  | thrown
deriving DecidableEq

/-- A transaction of the primary: the `TxBuffer`, its completion and its observer. -/
structure ReplicatedTx (U Q Op : Type) where
  observer : PrimaryTxObserver U Q
  buffer : TxBuffer Op := {}
  completion : AsyncCompletion := {}
  phase : Phase := .idle
  /-- The callback has scheduled `endCommit`. -/
  scheduled : Bool := false
  /-- How often the callback was called. -/
  completed : Nat := 0
  errors : List (TxError U) := []

inductive TxStep (U Q Op : Type) where
  | enlist (op : Op) (calls : List (ObserverCall Q))
  /-- `SemanticState::commit`, up to the store. -/
  | start
  /-- `startCommit` up to the operations. -/
  | prepare
  | prepareOps
  /-- `end(callback)`, with the counter compared. -/
  | finish
  /-- `end(callback)`, with the counter decremented. -/
  | wait
  /-- `endCommit` in the thread of the connection, if the session is still attached. -/
  | complete (attached : Bool)
  | rollback
  /-- Events of the backups: the two answers, and a subscription that is cancelled. -/
  | prepareOk (backup : U)
  | prepareFail (backup : U)
  | cancel (backup : U)

namespace ReplicatedTx

variable {U Q Op : Type} [DecidableEq U] [DecidableEq Q]

/-- The parameters of a transaction: the texts of its own identifier and of those of the
backups, what the work of the operations does, and the store. -/
structure Env (U Op : Type) where
  shortId : String
  name : U → String
  work : Op → Except String Bool
  store : Option TransactionalStore

def Env.logPrefix (env : Env U Op) : String := "Primary transaction " ++ env.shortId ++ ": "

variable (env : Env U Op)

def TxError.text : TxError U → String
  | .prepareFailed => "Transaction prepare failed."
  | .backupFailed b => env.logPrefix ++ "Prepare failed on backup: " ++ env.name b
  | .disconnected b => env.logPrefix ++ "Unexpected disconnect:" ++ env.name b

/-- A transaction with a completer for each backup. -/
def create (backups : Finset U) : ReplicatedTx U Q Op where
  observer := .create backups
  completion := AsyncCompletion.startCompleter^[backups.card] {}

def setError (t : ReplicatedTx U Q Op) (e : TxError U) : ReplicatedTx U Q Op :=
  { t with buffer := t.buffer.setError (TxError.text env e), errors := e :: t.errors }

def rollback (t : ReplicatedTx U Q Op) : ReplicatedTx U Q Op :=
  { t with observer := t.observer.rollback, buffer := t.buffer.rollback }

def endCommit (t : ReplicatedTx U Q Op) : ReplicatedTx U Q Op :=
  match env.store with
  | none => t
  | some store =>
    if t.buffer.error ≠ "" then
      if store.abort.isSome then t else t.rollback
    else if store.commit.isSome then t
    else
      let r := t.observer.commit env.logPrefix
      match r.1 with
      | .ok _ => { t with observer := r.2, buffer := { t.buffer with committed := true }.commit }
      | .error _ => { t with observer := r.2, buffer := { t.buffer with committed := true } }

/-- `completed(id)`: none for a null pointer. -/
def completedBackup (t : ReplicatedTx U Q Op) (b : U) : Option (Bool × ReplicatedTx U Q Op) :=
  if b ∈ t.observer.incomplete then
    if t.observer.txBuffer then
      let r := t.completion.finishCompleter
      some (true, { t with
        observer := { t.observer with incomplete := t.observer.incomplete.erase b }
        completion := r.2
        completed := if r.1 then t.completed + 1 else t.completed
        scheduled := t.scheduled || r.1 })
    else none
  else some (false, t)

def error (t : ReplicatedTx U Q Op) (b : U) (e : TxError U) : Option (ReplicatedTx U Q Op) :=
  if b ∈ t.observer.incomplete then ((t.setError env e).completedBackup b).map (·.2) else some t

def cancel (t : ReplicatedTx U Q Op) (b : U) : Option (ReplicatedTx U Q Op) := do
  let r ← t.completedBackup b
  let t ← if r.1 then r.2.error env b (.disconnected b) else some r.2
  return if t.observer.state = .ended ∧ t.observer.incomplete = ∅ then
    { t with observer := { t.observer with txBuffer := false } } else t

def step (t : ReplicatedTx U Q Op) : TxStep U Q Op → Option (ReplicatedTx U Q Op)
  | .enlist op calls =>
    if t.phase = .idle ∨ t.phase = .begun then
      let r := t.observer.callAll env.logPrefix calls
      match r.1 with
      | .ok _ => some { t with observer := r.2, buffer := t.buffer.enlist op }
      | .error _ => some { t with observer := r.2, phase := if t.phase = .begun then .thrown else t.phase }
    else none
  | .start => if t.phase = .idle then some { t with completion := t.completion.start, phase := .begun } else none
  | .prepare =>
    if t.phase = .begun then
      match env.store.map (·.begin) with
      | some none =>
        let t := { t with buffer := { t.buffer with txContext := true } }
        match t.observer.prepare env.logPrefix with
        | .ok o => some { t with observer := o, phase := .preparing }
        | .error _ => some { t with phase := .thrown }
      | _ => some { t with phase := .thrown }
    else none
  | .prepareOps =>
    if t.phase = .preparing then
      let r := t.buffer.prepare env.work true
      let t := { t with buffer := r.2, phase := .prepared }
      some (if r.1 then t else t.setError env .prepareFailed)
    else none
  | .finish =>
    if t.phase = .prepared then
      if t.completion.completionsNeeded = 1 then
        some (endCommit env { t with
          completion := { t.completion with completionsNeeded := 0 }, phase := .ended, completed := t.completed + 1 })
      else some { t with completion := { t.completion with callback := true }, phase := .ending }
    else none
  | .wait =>
    if t.phase = .ending then
      let r := t.completion.finishCompleter
      let t := { t with completion := r.2, phase := .ended }
      some (if r.1 then endCommit env { t with completed := t.completed + 1 } else t)
    else none
  | .complete attached =>
    if t.scheduled then
      let t := { t with scheduled := false }
      some (if attached then t.endCommit env else t)
    else none
  | .rollback => if t.phase = .idle then some { t.rollback with phase := .rolledBack } else none
  | .prepareOk b => (t.completedBackup b).map (·.2)
  | .prepareFail b => t.error env b (.backupFailed b)
  | .cancel b => t.cancel env b

end ReplicatedTx

end QB.Impl.Ha
