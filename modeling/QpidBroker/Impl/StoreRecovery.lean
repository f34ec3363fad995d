import QpidBroker.Impl.JournalRecovery
import Mathlib.Data.List.Sort

/-!
# Recovery of the store

`linearstore/MessageStoreImpl.cpp`: the list of prepared transactions (the journal "TPL")
is recovered first, then the journal of each queue with the messages in it, and then the
transactions that were prepared are completed or are handed to the broker as in doubt.

* What is left out is what the store keeps of exchanges, bindings and other configuration,
  and the contents of the messages: a message is the record id it is stored under.
* A journal is given by the files that have a header and by the records that are read.
-/

namespace QB.Impl.Linear

structure JournalDisk where
  files : List Nat
  records : List DiskRec
deriving DecidableEq

/-- The journals of a store: the list of prepared transactions, and the queues by their ids. -/
structure StoreDisk where
  tpl : JournalDisk
  queues : List (Nat × JournalDisk)
deriving DecidableEq

/-- `PreparedTransaction`. A locked mapping is a queue and a message. -/
structure PreparedTransaction where
  xid : Xid
  enqueues : List (Nat × Nat) := []
  dequeues : List (Nat × Nat) := []
deriving DecidableEq

namespace PreparedTransaction

def isLocked (pt : PreparedTransaction) (queue message : Nat) : Bool :=
  pt.enqueues.contains (queue, message) || pt.dequeues.contains (queue, message)

/-- What `JournalImpl::recover` adds from the transaction map of a queue. -/
def addOps (queueId : Nat) (tmap : TxnMap) (pt : PreparedTransaction) : PreparedTransaction :=
  let tdl := tmap.getTdataList pt.xid
  { pt with
    enqueues := pt.enqueues ++ (tdl.filter (·.enqFlag)).map fun td => (queueId, td.rid)
    dequeues := pt.dequeues ++ (tdl.filter (!·.enqFlag)).map fun td => (queueId, td.drid) }

end PreparedTransaction

/-- What is done with a message that is read: it is put on its queue, or kept for a
transaction that is in doubt, or neither. -/
inductive Restored where
  | queued | inDoubt | none
deriving DecidableEq

/-- The record ids of `prepareRecordList()`, in order. -/
def Recovery.recordIdList (s : Recovery) : List Nat :=
  (s.emap.ridList ++ s.tmap.flatMap fun e => (e.2.filter (·.enqFlag)).map (·.rid)).insertionSort (· ≤ ·)

/-- What `recoverMessages` does with the message `rid` that the transaction `xid` locks, given
the operations of the transaction in the list of prepared transactions. -/
def restoreLocked (s : Recovery) (stats : TxnOpStats) (xid : Xid) (rid : Nat) : Restored :=
  if 0 < stats.deqCnt || stats.tpcCnt = 0 then
    if s.emap.isEnqueued rid true then
      -- the enqueue is not in a transaction, the dequeue is
      if 0 < stats.abortCnt then .queued else .none
    else
      let enq := (s.tmap.getTdataList xid).any fun td => td.enqFlag && td.rid = rid
      let deq := (s.tmap.getTdataList xid).any fun td => !td.enqFlag && td.drid = rid
      if enq && !deq && stats.abortCnt = 0 then .queued else .none
  else .inDoubt

/-- `recoverMessages` for one message; `none` if it throws. -/
def recoverMessage (tpl : Recovery) (prepared : List PreparedTransaction) (queueId : Nat) (s : Recovery) (rid : Nat) :
    Option Restored :=
  match prepared.find? (·.isLocked queueId rid) with
  | none => some .queued
  | some pt =>
    let tdl := tpl.tmap.getTdataList pt.xid
    -- "XID not found in txn_map"
    if tdl.isEmpty then none else (txnOpStats tdl).map fun stats => restoreLocked s stats pt.xid rid

/-- A queue that is recovered: its journal, and what became of each message in it. -/
structure RecoveredQueue where
  id : Nat
  jrnl : Recovery
  messages : List (Nat × Restored)
deriving DecidableEq

def recoverQueues (tpl : Recovery) :
    List (Nat × JournalDisk) → List PreparedTransaction → Option (List RecoveredQueue × List PreparedTransaction)
  | [], prepared => some ([], prepared)
  | (id, d) :: ds, prepared =>
    (analyzeJournals (some (prepared.map (·.xid))) d.files d.records).bind fun s =>
      let prepared := prepared.map (·.addOps id s.tmap)
      (s.recordIdList.mapM fun rid => (recoverMessage tpl prepared id s rid).map (rid, ·)).bind fun messages =>
        (recoverQueues tpl ds prepared).map fun (queues, prepared) => (⟨id, s, messages⟩ :: queues, prepared)

/-- What becomes of a prepared transaction: it is handed to the broker in doubt, or it is
committed or aborted. -/
inductive Fate where
  | inDoubt | completed (commit : Bool)
deriving DecidableEq

/-- The loop of `recover` over the prepared transactions; `none` if it throws. -/
def fateOf (tpl : Recovery) (xid : Xid) : Option Fate :=
  let tdl := tpl.tmap.getTdataList xid
  if tdl.isEmpty then none
  else (txnOpStats tdl).map fun stats =>
    let commitFlag : Bool := stats.abortCnt = 0
    -- `complete` was interrupted part way through the queues
    let incomplTplTxnFlag : Bool := 0 < stats.deqCnt
    if 0 < stats.tpcCnt && !incomplTplTxnFlag then .inDoubt else .completed commitFlag

/-- What is known after `recover`. -/
structure Restart where
  queues : List RecoveredQueue
  transactions : List (PreparedTransaction × Fate)
deriving DecidableEq

def StoreDisk.recover (d : StoreDisk) : Option Restart :=
  (analyzeJournals none d.tpl.files d.tpl.records).bind fun tpl =>
    -- `recoverLockedMappings`
    (recoverQueues tpl d.queues (tpl.tmap.xidList.map fun xid => { xid })).bind fun (queues, prepared) =>
      (prepared.mapM fun pt => (fateOf tpl pt.xid).map (pt, ·)).map fun transactions => { queues, transactions }

/-- `collectPreparedXids(xids)`. The difference of the counts is an `int`. -/
def StoreDisk.collectPreparedXids (d : StoreDisk) : Option (List Xid) :=
  (analyzeJournals none d.tpl.files d.tpl.records).bind fun tpl =>
    (tpl.tmap.xidList.mapM fun xid => (txnOpStats (tpl.tmap.getTdataList xid)).map (xid, ·)).map fun xids =>
      (xids.filter fun (_, stats) => 0 < stats.tpcCnt && stats.deqCnt < stats.enqCnt).map (·.1)

end QB.Impl.Linear
