import QpidBroker.Impl.StoreRecovery

/-!
# Branches that are in doubt

What the records of a store say of the branches of distributed transactions: which of them
are prepared and not yet decided, and what their operations are. A restart is to keep these,
and no others, as they are.
-/

namespace QB.Spec.Linear

open QB.Impl.Linear

/-- A record of the list of prepared transactions, after the branches `xids` are undecided.
The data of a prepare record say whether it is one of a distributed transaction. -/
def prepareStep (xids : List Xid) (d : DiskRec) : List Xid :=
  match d.record with
  | .enq _ xid data _ => if data = [1] then xids ++ [xid] else xids
  | .deq _ _ xid _ | .txa _ xid | .txc _ xid => xids.filter (· ≠ xid)

/-- The branches that are prepared and neither committed nor aborted. -/
def undecided (tpl : JournalDisk) : List Xid := tpl.records.foldl prepareStep []

/-- A record of a queue, after the operations of the transaction are `ops`: whether it is an
enqueue, and the message. -/
def openStep (xid : Xid) (ops : List (Bool × Nat)) (d : DiskRec) : List (Bool × Nat) :=
  match d.record with
  | .enq rid x _ _ => if x = xid then ops ++ [(true, rid)] else ops
  | .deq _ drid x _ => if x = xid then ops ++ [(false, drid)] else ops
  | .txa _ x | .txc _ x => if x = xid then [] else ops

/-- The operations of a transaction on a queue. -/
def openOps (q : JournalDisk) (xid : Xid) : List (Bool × Nat) := q.records.foldl (openStep xid) []

/-- The enqueues, or the dequeues, of a transaction on all queues. -/
def operations (d : StoreDisk) (enq : Bool) (xid : Xid) : List (Nat × Nat) :=
  d.queues.flatMap fun q => ((openOps q.2 xid).filter (·.1 = enq)).map fun op => (q.1, op.2)

/-- The restart keeps the branches that are in doubt: they are handed over with their
operations, no other transaction is, and they are what `collectPreparedXids` returns. -/
structure StaysInDoubt (d : StoreDisk) (r : Restart) (xids : List Xid) : Prop where
  handed : ∀ xid ∈ undecided d.tpl, (⟨xid, operations d true xid, operations d false xid⟩,
    .inDoubt) ∈ r.transactions
  only : ∀ t ∈ r.transactions, t.2 = .inDoubt ↔ t.1.xid ∈ undecided d.tpl
  collected : ∀ xid, xid ∈ xids ↔ xid ∈ undecided d.tpl

end QB.Spec.Linear
