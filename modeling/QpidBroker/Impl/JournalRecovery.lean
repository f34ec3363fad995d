import QpidBroker.Impl.Journal

/-!
# Recovery of a journal

`linearstore/journal/RecoveryManager.cpp`: the maps of a journal are built again from the
records that are read from its files.

* What is modelled is what is done with each record (`getNextRecordHeader`); a record is
  given with the file it starts in and its offset there.
* A file that is not found in `fileNumberMap_` is a null pointer that is used: recovery
  fails, as it does where the source throws.
-/

namespace QB.Impl.Linear

/-- A record as it is read from a file. -/
structure DiskRec where
  record : Rec
  fid : Nat
  posn : Nat := 0
deriving DecidableEq

/-- `RecoveryManager`: `fileNumberMap_` and the maps. -/
structure Recovery where
  files : List JournalFile
  emap : EnqMap := []
  tmap : TxnMap := []
deriving DecidableEq

namespace Recovery

variable (s : Recovery)

/-- `fileNumberMap_[fid]->journalFilePtr_`, and a change of the file. -/
def modify (fid : Nat) (f : JournalFile → Option JournalFile) : Option Recovery :=
  (modifyFile fid f s.files).map fun files => { s with files }

def incrEnqueuedRecordCount (fid : Nat) : Option Recovery :=
  s.modify fid fun f => some { f with enqueuedRecordCount := f.enqueuedRecordCount + 1 }

def decrEnqueuedRecordCount (fid : Nat) : Option Recovery :=
  s.modify fid JournalFile.decrEnqueuedRecordCount

/-- `insert_txn_data`, and then `set_aio_compl`. -/
def insertTxnData (xid : Xid) (td : TxnData) : Option Recovery :=
  ((s.tmap.insertTxnData xid td).setAioCompl xid td.rid).map fun tmap => { s with tmap }

/-- A record is dequeued; that it is not found is ignored. -/
def removeEnqueued (drid : Nat) : Option Recovery :=
  match s.emap.getRemovePfid drid true with
  | .ok (fid, emap) => { s with emap }.decrEnqueuedRecordCount fid
  | .error _ => some s

/-- The loop over the operations of a transaction that is aborted. -/
def abortLoop : List TxnData → Recovery → Option Recovery
  | [], s => some s
  | td :: tdl, s =>
    if td.enqFlag then (s.decrEnqueuedRecordCount td.pfid).bind (abortLoop tdl)
    else abortLoop tdl { s with emap := s.emap.unlock td.drid }

/-- The loop over the operations of a transaction that is committed. -/
def commitLoop : List TxnData → Recovery → Option Recovery
  | [], s => some s
  | td :: tdl, s =>
    if td.enqFlag then
      (s.emap.insertPfid td.rid td.pfid td.foffs).bind fun emap => commitLoop tdl { s with emap }
    else (s.removeEnqueued td.drid).bind (commitLoop tdl)

/-- `getNextRecordHeader()`, with the record that is read. -/
def nextRecord (d : DiskRec) : Option Recovery :=
  match d.record with
  | .enq rid xid _ transient =>
    -- ignore transient messages
    if transient then some s
    else (s.incrEnqueuedRecordCount d.fid).bind fun s =>
      if xid.isEmpty then (s.emap.insertPfid rid d.fid d.posn).map fun emap => { s with emap }
      else s.insertTxnData xid (.new rid 0 d.fid d.posn true false false)
  | .deq rid drid xid txnComlCommit =>
    if xid.isEmpty then s.removeEnqueued drid
    else
      { s with emap := s.emap.lock drid }.insertTxnData xid (.new rid drid d.fid d.posn false false txnComlCommit)
  | .txa _ xid =>
    let tdl := s.tmap.getRemoveTdataList xid
    abortLoop tdl.1 { s with tmap := tdl.2 }
  | .txc _ xid =>
    let tdl := s.tmap.getRemoveTdataList xid
    commitLoop tdl.1 { s with tmap := tdl.2 }

/-- The loop `while (getNextRecordHeader())`. -/
def readRecords : List DiskRec → Recovery → Option Recovery
  | [], s => some s
  | d :: ds, s => (s.nextRecord d).bind (readRecords ds)

/-- The loop of `removeEmptyFiles`. The last file stays. -/
def removeFiles : List JournalFile → List JournalFile
  | f :: g :: fs => if f.enqueuedRecordCount = 0 then removeFiles (g :: fs) else f :: g :: fs
  | fs => fs

/-- The loop over the transactions that removes those which are not prepared. -/
def removeUnprepared (prepared : List Xid) : List Xid → Recovery → Option Recovery
  | [], s => some s
  | xid :: xids, s =>
    if prepared.contains xid then removeUnprepared prepared xids s
    else
      let tdl := s.tmap.getRemoveTdataList xid
      (abortLoop tdl.1 { s with tmap := tdl.2 }).bind (removeUnprepared prepared xids)

end Recovery

/-- `analyzeJournals(preparedTransactionListPtr, …)` of a journal with these files and these
records in them. A journal with no files is empty. -/
def analyzeJournals (prepared : Option (List Xid)) (files : List Nat) (records : List DiskRec) : Option Recovery :=
  let s : Recovery := { files := files.map fun n => { fileSeqNum := n } }
  if files.isEmpty then some s
  else (s.readRecords records).bind fun s =>
    let s := { s with files := Recovery.removeFiles s.files }
    match prepared with
    | none => some s
    | some xids => s.removeUnprepared xids s.tmap.xidList

end QB.Impl.Linear
