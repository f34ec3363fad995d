import QpidBroker.Impl.TxBuffer

/-!
# Distributed transactions

`broker/DtxBuffer.{h,cpp}`, `broker/DtxWorkRecord.{h,cpp}` and
`broker/DtxManager.{h,cpp}`: the work of a branch is the buffers of the sessions
that took part in it, and the manager knows the branches by their xid.

* The store does not throw here. Of a transaction of the store the model has
  whether the record holds one (`txn`).
* `history` records what a buffer was told. A buffer that is recovered was
  prepared before the broker was restarted.
-/

namespace QB.Impl

/-- `class DtxBuffer`, with the buffer it extends. -/
structure DtxBuffer (Op : Type) where
  buffer : TxBuffer Op := {}
  ended : Bool := false
  failed : Bool := false
  expired : Bool := false
  history : List TxCall := []
deriving DecidableEq

namespace DtxBuffer

variable {Op : Type}

/-- What the operations and the observer do when a buffer is prepared. -/
structure Preparation (Op : Type) where
  observer : Bool
  work : Op → Except String Bool

def prepare (p : Preparation Op) (b : DtxBuffer Op) : Bool × DtxBuffer Op :=
  let r := b.buffer.prepare p.work p.observer
  (r.1, { b with buffer := r.2, history := b.history ++ [.prepare] })

def commit (b : DtxBuffer Op) : DtxBuffer Op :=
  { b with buffer := b.buffer.commit, history := b.history ++ [.commit] }

def rollback (b : DtxBuffer Op) : DtxBuffer Op :=
  { b with buffer := b.buffer.rollback, history := b.history ++ [.rollback] }

def enlist (b : DtxBuffer Op) (op : Op) : DtxBuffer Op := { b with buffer := b.buffer.enlist op }

def markEnded (b : DtxBuffer Op) : DtxBuffer Op := { b with ended := true }

def isRollbackOnly (b : DtxBuffer Op) : Bool := b.failed

def fail (b : DtxBuffer Op) : DtxBuffer Op := { b.rollback with failed := true, ended := true }

def timedout (b : DtxBuffer Op) : DtxBuffer Op := { b with expired := true }.fail

end DtxBuffer

/-- The exceptions of the record and the manager. -/
inductive DtxThrown where
  | timeout
  | notCompleted
  | onePhaseNotValid
  | onePhaseRequired
  | timedOut
  | alreadyCompleted
  | unrecognised
  | alreadyKnown
  /-- Not an exception: `*txn` of no transaction. -/
  | noTransaction
deriving DecidableEq

/-- The text of an exception, for a branch. -/
def DtxThrown.what (xid : String) : DtxThrown → String
  | timeout => ""
  | notCompleted => "Branch with xid " ++ xid ++ " not completed!"
  | onePhaseNotValid => "Branch with xid " ++ xid ++ " has been prepared, one-phase option not valid!"
  | onePhaseRequired => "Branch with xid " ++ xid ++ " has not been prepared, one-phase option required!"
  | timedOut => "Branch with xid " ++ xid ++ " has timed out."
  | alreadyCompleted => "Branch with xid " ++ xid ++ " has been completed!"
  | unrecognised => "Unrecognised xid " ++ xid
  | alreadyKnown => "Xid " ++ xid ++ " is already known (use 'join' to add work to an existing xid)"
  | noTransaction => ""

structure DtxWorkRecord (Op : Type) where
  completed : Bool := false
  rolledback : Bool := false
  prepared : Bool := false
  expired : Bool := false
  timeout : Option Nat := none
  work : List (DtxBuffer Op) := []
  txn : Bool := false
deriving DecidableEq

namespace DtxWorkRecord

variable {Op : Type}

/-- A result, with what has become of the record. -/
abbrev Result (Op α : Type) := Except DtxThrown α × DtxWorkRecord Op

/-- The loop of `check`: whether all buffers are ended, and `rolledback`. -/
def checkLoop : Bool → List (DtxBuffer Op) → Bool × Bool
  | rolledback, [] => (true, rolledback)
  | rolledback, b :: work =>
    if b.ended then checkLoop (rolledback || b.isRollbackOnly) work else (false, rolledback)

def check (r : DtxWorkRecord Op) : Result Op Bool :=
  if r.expired then (.error .timeout, r)
  else if r.completed then (.ok !r.rolledback, r)
  else
    let c := checkLoop r.rolledback r.work
    if c.1 then (.ok !c.2, { r with rolledback := c.2, completed := true })
    else (.error .notCompleted, { r with rolledback := c.2 })

def abort (r : DtxWorkRecord Op) : DtxWorkRecord Op :=
  { r with txn := false, work := r.work.map DtxBuffer.rollback }

/-- `prepare(txn)`: the buffers are prepared up to one that fails. -/
def prepareLoop (p : Nat → DtxBuffer.Preparation Op) : Nat → List (DtxBuffer Op) → Bool × List (DtxBuffer Op)
  | _, [] => (true, [])
  | i, b :: work =>
    let r := b.prepare (p i)
    if r.1 then
      let rs := prepareLoop p (i + 1) work
      (rs.1, r.2 :: rs.2)
    else (false, r.2 :: work)

def prepare (p : Nat → DtxBuffer.Preparation Op) (r : DtxWorkRecord Op) : Result Op Bool :=
  match r.check with
  | (.error e, r) => (.error e, r)
  | (.ok false, r) => (.ok r.prepared, r.abort)
  | (.ok true, r) =>
    let w := prepareLoop p 0 r.work
    let r := { r with txn := true, work := w.2 }
    if w.1 then (.ok true, { r with prepared := true }) else (.ok r.prepared, r.abort)

/-- All buffers are committed. -/
def commitWork (r : DtxWorkRecord Op) : DtxWorkRecord Op := { r with work := r.work.map DtxBuffer.commit }

def commit (onePhase : Bool) (p : Nat → DtxBuffer.Preparation Op) (r : DtxWorkRecord Op) : Result Op Bool :=
  match r.check with
  | (.error e, r) => (.error e, r)
  | (.ok false, r) => (.ok false, r.abort)
  | (.ok true, r) =>
    if r.prepared then
      if onePhase then (.error .onePhaseNotValid, r)
      else if r.txn then (.ok true, { r with txn := false }.commitWork)
      else (.error .noTransaction, r)
    else if onePhase then
      let w := prepareLoop p 0 r.work
      let r := { r with work := w.2 }
      if w.1 then (.ok true, r.commitWork) else (.ok false, r.abort)
    else (.error .onePhaseRequired, r)

def rollback (r : DtxWorkRecord Op) : Result Op Unit :=
  match r.check with
  | (.error e, r) => (.error e, r)
  | (.ok _, r) => (.ok (), r.abort)

def add (ops : DtxBuffer Op) (r : DtxWorkRecord Op) : Result Op Unit :=
  if r.expired then (.error .timedOut, r)
  else if r.completed then (.error .alreadyCompleted, r)
  else (.ok (), { r with work := r.work ++ [ops] })

/-- `recover(txn, ops)`: the buffer is added, and then marked as ended. -/
def recover (ops : DtxBuffer Op) (r : DtxWorkRecord Op) : Result Op Unit :=
  match r.add ops.markEnded with
  | (.error e, r) => (.error e, r)
  | (.ok (), r) => (.ok (), { r with txn := true, completed := true, prepared := true })

/-- The buffers when the branch has timed out, before it is aborted. -/
def expireWork (r : DtxWorkRecord Op) : List (DtxBuffer Op) :=
  if r.completed then r.work else r.work.map fun b => if b.ended then b else b.timedout

def timedout (r : DtxWorkRecord Op) : DtxWorkRecord Op :=
  { r with expired := true, rolledback := true, work := r.expireWork }.abort

end DtxWorkRecord

structure DtxManager (Xid Op : Type) where
  work : Xid → Option (DtxWorkRecord Op) := fun _ => none
  dtxDefaultTimeout : Nat := 0

namespace DtxManager

variable {Xid Op : Type} [DecidableEq Xid]

abbrev Result (Xid Op α : Type) := Except DtxThrown α × DtxManager Xid Op

/-- What the manager knows of a branch is replaced. -/
def set (m : DtxManager Xid Op) (xid : Xid) (r : Option (DtxWorkRecord Op)) : DtxManager Xid Op :=
  { m with work := fun x => if x = xid then r else m.work x }

def remove (m : DtxManager Xid Op) (xid : Xid) : DtxManager Xid Op := m.set xid none

/-- `createWork(xid)->f`, with the default timeout of a new branch. -/
def createWork (xid : Xid) (f : DtxWorkRecord Op → DtxWorkRecord.Result Op Unit) (m : DtxManager Xid Op) :
    Result Xid Op Unit :=
  match m.work xid with
  | some _ => (.error .alreadyKnown, m)
  | none =>
    let r := f { timeout := if 0 < m.dtxDefaultTimeout then some m.dtxDefaultTimeout else none }
    (r.1, m.set xid (some r.2))

/-- `getWork(xid)->f`, and whether the branch is removed after a result. -/
def getWork {α : Type} (xid : Xid) (f : DtxWorkRecord Op → DtxWorkRecord.Result Op α)
    (removes : Except DtxThrown α → Bool) (m : DtxManager Xid Op) : Result Xid Op α :=
  match m.work xid with
  | none => (.error .unrecognised, m)
  | some r =>
    let result := f r
    (result.1, if removes result.1 then m.remove xid else m.set xid (some result.2))

/-- A `DtxTimeoutException` of a command removes the branch. -/
def isTimeout {α : Type} : Except DtxThrown α → Bool
  | .error .timeout => true
  | _ => false

/-- As does the end of a command that completes it. -/
def isOver {α : Type} : Except DtxThrown α → Bool
  | .ok _ => true
  | result => isTimeout result

def start (xid : Xid) (ops : DtxBuffer Op) : DtxManager Xid Op → Result Xid Op Unit :=
  createWork xid (DtxWorkRecord.add ops)

def join (xid : Xid) (ops : DtxBuffer Op) : DtxManager Xid Op → Result Xid Op Unit :=
  getWork xid (DtxWorkRecord.add ops) fun _ => false

def recover (xid : Xid) (ops : DtxBuffer Op) : DtxManager Xid Op → Result Xid Op Unit :=
  createWork xid (DtxWorkRecord.recover ops)

def prepare (xid : Xid) (p : Nat → DtxBuffer.Preparation Op) : DtxManager Xid Op → Result Xid Op Bool :=
  getWork xid (DtxWorkRecord.prepare p) isTimeout

def commit (xid : Xid) (onePhase : Bool) (p : Nat → DtxBuffer.Preparation Op) :
    DtxManager Xid Op → Result Xid Op Bool :=
  getWork xid (DtxWorkRecord.commit onePhase p) isOver

def rollback (xid : Xid) : DtxManager Xid Op → Result Xid Op Unit :=
  getWork xid DtxWorkRecord.rollback isOver

def setTimeout (xid : Xid) (secs : Nat) : DtxManager Xid Op → Result Xid Op Unit :=
  getWork xid (fun r => (.ok (), { r with timeout := some secs })) fun _ => false

/-- `timedout(xid)`, when the timer of a branch fires. -/
def timedout (xid : Xid) (m : DtxManager Xid Op) : DtxManager Xid Op :=
  match m.work xid with
  | none => m
  | some r => m.set xid (some r.timedout)

end DtxManager

end QB.Impl
