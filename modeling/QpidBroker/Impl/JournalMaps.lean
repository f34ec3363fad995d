import Mathlib.Data.BitVec
import Mathlib.Data.List.Nodup

/-!
# The maps of a journal

`linearstore/journal/enq_map.cpp` and `linearstore/journal/txn_map.cpp`: the records that
are enqueued, and the operations of the open transactions.

* A `std::map` is the list of its entries; the entry of a new key comes first.
* Record ids and file numbers are natural numbers, but for the file number of a
  transaction's operation, which has sixteen bits.
-/

namespace QB.Impl.Linear

/-- A transaction id. It is empty outside of transactions. -/
abbrev Xid := List UInt8

/-! ## `enq_map` -/

structure EmapData where
  pfid : Nat
  filePosn : Nat := 0
  lock : Bool := false
deriving DecidableEq

abbrev EnqMap := List (Nat × EmapData)

/-- `EMAP_RID_NOT_FOUND` and `EMAP_LOCKED`. -/
inductive EmapError where
  | ridNotFound | locked
deriving DecidableEq

namespace EnqMap

/-- `insert_pfid(rid, pfid, file_posn)`; `none` is `EMAP_DUP_RID`. -/
def insertPfid (m : EnqMap) (rid pfid filePosn : Nat) : Option EnqMap :=
  if (m.lookup rid).isSome then none else some ((rid, ⟨pfid, filePosn, false⟩) :: m)

def getPfid (m : EnqMap) (rid : Nat) : Except EmapError Nat :=
  match m.lookup rid with
  | none => .error .ridNotFound
  | some d => if d.lock then .error .locked else .ok d.pfid

def getRemovePfid (m : EnqMap) (rid : Nat) (txnFlag : Bool) : Except EmapError (Nat × EnqMap) :=
  match m.lookup rid with
  | none => .error .ridNotFound
  | some d =>
    -- locked, but not a commit or abort
    if d.lock && !txnFlag then .error .locked else .ok (d.pfid, m.filter (·.1 ≠ rid))

def setLock (m : EnqMap) (rid : Nat) (lock : Bool) : EnqMap :=
  m.map fun e => if e.1 = rid then (e.1, { e.2 with lock := lock }) else e

/-- `lock(rid)`. That the id is not found is ignored by every caller. -/
def lock (m : EnqMap) (rid : Nat) : EnqMap := m.setLock rid true

def unlock (m : EnqMap) (rid : Nat) : EnqMap := m.setLock rid false

def isEnqueued (m : EnqMap) (rid : Nat) (ignoreLock : Bool) : Bool :=
  match m.lookup rid with
  | none => false
  | some d => ignoreLock || !d.lock

def ridList (m : EnqMap) : List Nat := m.map Prod.fst

end EnqMap

/-! ## `txn_map` -/

structure TxnData where
  rid : Nat
  drid : Nat
  pfid : Nat
  foffs : Nat
  enqFlag : Bool
  tpcFlag : Bool
  commitFlag : Bool
  aioCompl : Bool
deriving DecidableEq

/-- `txn_data_t(rid, drid, pfid, foffs, enq_flag, tpc_flag, commit_flag)`, whose `pfid` is a
`uint16_t`. -/
def TxnData.new (rid drid pfid foffs : Nat) (enqFlag tpcFlag commitFlag : Bool) : TxnData :=
  ⟨rid, drid, pfid % 2 ^ 16, foffs, enqFlag, tpcFlag, commitFlag, false⟩

abbrev TxnMap := List (Xid × List TxnData)

namespace TxnMap

def insertTxnData (m : TxnMap) (xid : Xid) (td : TxnData) : TxnMap :=
  if (m.lookup xid).isSome then m.map fun e => if e.1 = xid then (e.1, e.2 ++ [td]) else e
  else (xid, [td]) :: m

/-- `get_tdata_list(xid)`, empty if the transaction is not there. -/
def getTdataList (m : TxnMap) (xid : Xid) : List TxnData := (m.lookup xid).getD []

def getRemoveTdataList (m : TxnMap) (xid : Xid) : List TxnData × TxnMap :=
  (m.getTdataList xid, m.filter (·.1 ≠ xid))

/-- The loop of `set_aio_compl`: the first operation with the record id is marked. -/
def markAioCompl (rid : Nat) : List TxnData → Option (List TxnData)
  | [] => none
  | td :: tdl =>
    if td.rid = rid then some ({ td with aioCompl := true } :: tdl) else (markAioCompl rid tdl).map (td :: ·)

/-- `set_aio_compl(xid, rid)`; `none` is `TMAP_XID_NOT_FOUND` or `TMAP_RID_NOT_FOUND`. -/
def setAioCompl (m : TxnMap) (xid : Xid) (rid : Nat) : Option TxnMap :=
  ((m.lookup xid).bind (markAioCompl rid)).map fun tdl =>
    m.map fun e => if e.1 = xid then (e.1, tdl) else e

def dataExists (m : TxnMap) (xid : Xid) (rid : Nat) : Bool := (m.getTdataList xid).any (·.rid = rid)

def xidList (m : TxnMap) : List Xid := m.map Prod.fst

end TxnMap

/-- `txn_op_stats_t`. The counts have sixteen bits. -/
structure TxnOpStats where
  enqCnt : Nat
  deqCnt : Nat
  tpcCnt : Nat
  abortCnt : Nat
  commitCnt : Nat
  rid : Nat
deriving DecidableEq

/-- `txn_op_stats_t(tdl)`; `none` if it throws. -/
def txnOpStats (tdl : List TxnData) : Option TxnOpStats :=
  let stats : TxnOpStats :=
    { enqCnt := tdl.countP (·.enqFlag) % 2 ^ 16
      deqCnt := tdl.countP (!·.enqFlag) % 2 ^ 16
      tpcCnt := tdl.countP (·.tpcFlag) % 2 ^ 16
      abortCnt := tdl.countP (fun td => !td.enqFlag && !td.commitFlag) % 2 ^ 16
      commitCnt := tdl.countP (fun td => !td.enqFlag && td.commitFlag) % 2 ^ 16
      rid := ((tdl.filter (·.enqFlag)).getLast?.map (·.rid)).getD 0 }
  -- "Inconsistent 2PC count"
  if 0 < stats.tpcCnt && stats.tpcCnt ≠ tdl.length then none
  -- "Both abort and commit in same transaction"
  else if 0 < stats.abortCnt && 0 < stats.commitCnt then none
  else some stats

end QB.Impl.Linear
