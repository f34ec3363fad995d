import QpidBroker.Impl.JournalMaps

/-!
# Journals

`linearstore/journal/LinearFileController.cpp`, `linearstore/journal/JournalFile.cpp` and
the parts of `wmgr::enqueue`, `dequeue`, `abort`, `commit` and `get_events` that change the
maps and the counts: what a record does once it is encoded, and once it is on disk.

* A record is what the code encodes of it, and a data token its record with its state.
* The journal files are those of `journalFileList_`; the last one is the current file.
  `pool` is the list of the files that were given back to the empty file pool.
* `none` is an exception, or an `assert` that fails.
* Left out: file handles, names and headers, and the counts of outstanding I/O operations.
-/

namespace QB.Impl.Linear

def dblkSizeBytes : Nat := 128

def sblkSizeDblks : Nat := 32

/-- The size of a file header, `QLS_JRNL_FHDR_RES_SIZE_SBLKS * QLS_SBLK_SIZE_DBLKS`. -/
def fhdrSizeDblks : Nat := 1 * sblkSizeDblks

/-! ## Records -/

/-- The records of a journal: `enq_rec`, `deq_rec`, and `txn_rec` with `QLS_TXA_MAGIC` and
with `QLS_TXC_MAGIC`. -/
inductive Rec where
  | enq (rid : Nat) (xid : Xid) (data : List UInt8) (transient : Bool)
  | deq (rid drid : Nat) (xid : Xid) (txnComlCommit : Bool)
  | txa (rid : Nat) (xid : Xid)
  | txc (rid : Nat) (xid : Xid)
deriving DecidableEq

namespace Rec

def rid : Rec → Nat
  | .enq rid .. | .deq rid .. | .txa rid _ | .txc rid _ => rid

def xid : Rec → Xid
  | .enq _ xid .. | .deq _ _ xid _ | .txa _ xid | .txc _ xid => xid

/-- `rec_size()`: header, transaction id, data and tail. -/
def recSize : Rec → Nat
  | .enq _ xid data _ => 40 + xid.length + data.length + 24
  | .deq _ _ xid _ => 40 + if xid.isEmpty then 0 else xid.length + 24
  | .txa _ xid | .txc _ xid => 32 + xid.length + 24

def recSizeDblks (r : Rec) : Nat := (r.recSize + dblkSizeBytes - 1) / dblkSizeBytes

end Rec

/-- The write state of a token, whose operation is that of its record: `NONE`, `ENQ_PART`
and its like, `ENQ_SUBM` and its like, and `ENQ`, `DEQ`, `ABORTED` and `COMMITTED`. -/
inductive WriteState where
  | none | part | subm | compl
deriving DecidableEq

structure DataTok where
  record : Rec
  tpcFlag : Bool := false
  wstate : WriteState := .none
  dblksWritten : Nat := 0
  pgCnt : Nat := 0
  fid : Nat := 0
deriving DecidableEq

/-! ## Files -/

structure JournalFile where
  fileSeqNum : Nat
  enqueuedRecordCount : Nat := 0
  submittedDblkCount : Nat := 0
  completedDblkCount : Nat := 0
  firstRecordOffset : Nat := 0
deriving DecidableEq

/-- `find(fileSeqNumber)`, and a change of the file that is found. -/
def modifyFile (seq : Nat) (f : JournalFile → Option JournalFile) : List JournalFile → Option (List JournalFile)
  | [] => none
  | j :: js => if j.fileSeqNum = seq then (f j).map (· :: js) else (modifyFile seq f js).map (j :: ·)

/-- `LinearFileController`, with the size of the files of its pool. -/
structure LinearFileController where
  fileSizeDblks : Nat
  fileSeqCounter : Nat := 0
  decrCounter : Nat := 0
  files : List JournalFile := []
  pool : List Nat := []
deriving DecidableEq

namespace JournalFile

def isNoEnqueuedRecordsRemaining (f : JournalFile) (fileSizeDblks : Nat) : Bool :=
  f.completedDblkCount = fileSizeDblks && f.enqueuedRecordCount = 0

def decrEnqueuedRecordCount (f : JournalFile) : Option JournalFile :=
  if f.enqueuedRecordCount = 0 then none else some { f with enqueuedRecordCount := f.enqueuedRecordCount - 1 }

def addSubmittedDblkCount (f : JournalFile) (a fileSizeDblks : Nat) : Option JournalFile :=
  if f.submittedDblkCount + a > fileSizeDblks then none
  else some { f with submittedDblkCount := f.submittedDblkCount + a }

def addCompletedDblkCount (f : JournalFile) (a : Nat) : Option JournalFile :=
  if f.completedDblkCount + a > f.submittedDblkCount then none
  else some { f with completedDblkCount := f.completedDblkCount + a }

end JournalFile

namespace LinearFileController

variable (l : LinearFileController)

/-- `find(fileSeqNumber)` and a change of the file. -/
def modify (seq : Nat) (f : JournalFile → Option JournalFile) : Option LinearFileController :=
  (modifyFile seq f l.files).map fun files => { l with files }

def getCurrentFileSeqNum : Option Nat := l.files.getLast?.map (·.fileSeqNum)

def getNextJournalFile : LinearFileController :=
  { l with
    fileSeqCounter := l.fileSeqCounter + 1
    files := l.files ++ [{ fileSeqNum := l.fileSeqCounter + 1 }] }

/-- The loop of `purgeEmptyFilesToEfp()`. The last file stays. -/
def purgeFiles (fileSizeDblks : Nat) : List JournalFile → List Nat → List JournalFile × List Nat
  | f :: g :: fs, pool =>
    if f.isNoEnqueuedRecordsRemaining fileSizeDblks then purgeFiles fileSizeDblks (g :: fs) (f.fileSeqNum :: pool)
    else (f :: g :: fs, pool)
  | fs, pool => (fs, pool)

def purgeEmptyFilesToEfp : LinearFileController :=
  let purged := purgeFiles l.fileSizeDblks l.files l.pool
  { l with files := purged.1, pool := purged.2 }

def incrEnqueuedRecordCount (seq : Nat) : Option LinearFileController :=
  l.modify seq fun f => some { f with enqueuedRecordCount := f.enqueuedRecordCount + 1 }

def decrEnqueuedRecordCount (seq : Nat) : Option LinearFileController :=
  (l.modify seq JournalFile.decrEnqueuedRecordCount).map fun l =>
    let l := { l with decrCounter := l.decrCounter + 1 }
    if l.decrCounter % 100 = 0 then l.purgeEmptyFilesToEfp else l

end LinearFileController

/-! ## Journals -/

/-- The maps and the files of a journal, with all the data tokens that were given to it. -/
structure Journal where
  lfc : LinearFileController
  emap : EnqMap := []
  tmap : TxnMap := []
  txnPendingMap : List (Xid × List Nat) := []
  toks : List DataTok := []
deriving DecidableEq

/-- The loop of `commit` over the operations of the transaction: the enqueue map, and the
files of the records that were dequeued. -/
def commitOps : List TxnData → EnqMap → List Nat → Option (EnqMap × List Nat)
  | [], emap, fidl => some (emap, fidl)
  | td :: tdl, emap, fidl =>
    if td.enqFlag then (emap.insertPfid td.rid td.pfid 0).bind (commitOps tdl · fidl)
    else match emap.getRemovePfid td.drid true with
      | .ok (fid, emap) => commitOps tdl emap (fidl ++ [fid])
      | .error _ => none

/-- The loop of `abort` over the operations of the transaction. -/
def abortOps : List TxnData → EnqMap → List Nat → EnqMap × List Nat
  | [], emap, fidl => (emap, fidl)
  | td :: tdl, emap, fidl =>
    if td.enqFlag then abortOps tdl emap (fidl ++ [td.pfid]) else abortOps tdl (emap.unlock td.drid) fidl

namespace Journal

variable (j : Journal)

def dequeueCheck (xid : Xid) (drid : Nat) : Bool :=
  match j.emap.getPfid drid with
  | .ok _ => true
  | .error .ridNotFound => !xid.isEmpty && j.tmap.dataExists xid drid
  | .error .locked => false

/-- The file number that is remembered with the first part of a record: the file that the
record starts in, and for a dequeue that of the record that is dequeued. -/
def startFid : Rec → Option Nat
  | .deq _ drid xid _ =>
    match j.emap.getPfid drid with
    | .ok fid => some fid
    | .error _ =>
      if xid.isEmpty then none else ((j.tmap.getTdataList xid).find? (·.rid = drid)).map (·.pfid)
  | _ => j.lfc.getCurrentFileSeqNum

/-- The insertion into `_txn_pending_map`. -/
def insertPending (xid : Xid) (fidl : List Nat) : Option (List (Xid × List Nat)) :=
  if (j.txnPendingMap.lookup xid).isSome then none else some ((xid, fidl) :: j.txnPendingMap)

/-- What `enqueue`, `dequeue`, `abort` and `commit` do when the encoding of the record is
complete. -/
def encoded (t : DataTok) : Option Journal :=
  match t.record with
  | .enq rid xid _ _ =>
    (j.lfc.incrEnqueuedRecordCount t.fid).bind fun lfc =>
      if xid.isEmpty then (j.emap.insertPfid rid t.fid 0).map fun emap => { j with lfc, emap }
      else some { j with
        lfc, tmap := j.tmap.insertTxnData xid (.new rid 0 t.fid 0 true t.tpcFlag false) }
  | .deq rid drid xid _ =>
    if xid.isEmpty then
      match j.emap.getRemovePfid drid false with
      | .ok (_, emap) => some { j with emap }
      | .error _ => none
    else some { j with
      emap := j.emap.lock drid
      tmap := j.tmap.insertTxnData xid (.new rid drid t.fid 0 false t.tpcFlag false) }
  | .txa _ xid =>
    let tdl := j.tmap.getRemoveTdataList xid
    let (emap, fidl) := abortOps tdl.1 j.emap []
    (j.insertPending xid fidl).map fun txnPendingMap => { j with emap, tmap := tdl.2, txnPendingMap }
  | .txc _ xid =>
    let tdl := j.tmap.getRemoveTdataList xid
    (commitOps tdl.1 j.emap []).bind fun (emap, fidl) =>
      (j.insertPending xid fidl).map fun txnPendingMap => { j with emap, tmap := tdl.2, txnPendingMap }

/-- The loop over the files of `_txn_pending_map`. -/
def decrAll : List Nat → LinearFileController → Option LinearFileController
  | [], l => some l
  | fid :: fidl, l => (l.decrEnqueuedRecordCount fid).bind (decrAll fidl)

/-- What `get_events` does with a token whose last page is on disk. -/
def completed (t : DataTok) : Option Journal :=
  match t.record with
  -- the transaction may have ended before
  | .enq rid xid .. =>
    some { j with tmap := if xid.isEmpty then j.tmap else (j.tmap.setAioCompl xid rid).getD j.tmap }
  | .deq rid _ xid _ =>
    if xid.isEmpty then (j.lfc.decrEnqueuedRecordCount t.fid).map fun lfc => { j with lfc }
    else some { j with tmap := (j.tmap.setAioCompl xid rid).getD j.tmap }
  | .txa _ xid | .txc _ xid =>
    (j.txnPendingMap.lookup xid).bind fun fidl =>
      (decrAll fidl j.lfc).map fun lfc => { j with lfc, txnPendingMap := j.txnPendingMap.filter (·.1 ≠ xid) }

/-- The end of the encoding of the last token. -/
def encodeTok (k : Nat) (t : DataTok) : Option Journal :=
  (j.encoded t).map fun j => { j with toks := j.toks.set k { t with wstate := .subm } }

/-- The loop of `get_events` over the tokens of a page. -/
def completeTok (k : Nat) : Option Journal :=
  (j.toks[k]?).bind fun t =>
    if t.pgCnt = 0 then none
    else
      let t := { t with pgCnt := t.pgCnt - 1 }
      if t.pgCnt = 0 then
        match t.wstate with
        | .subm => (j.completed t).map fun j => { j with toks := j.toks.set k { t with wstate := .compl } }
        | .part => some { j with toks := j.toks.set k t }
        | _ => none
      else some { j with toks := j.toks.set k t }

end Journal

end QB.Impl.Linear
