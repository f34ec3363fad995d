import QpidBroker.Impl.Journal

/-!
# The write manager

`linearstore/journal/wmgr.cpp`: records are encoded into the pages of the write cache, full
pages and flushed parts of pages are written to the current file, and completed writes are
taken notice of in any order.

* An operation is a step `begin` and, for each round of its `while` loop, a step `encode`.
  An operation that has to wait for its page (`RHM_IORES_PAGE_AIOWAIT`) goes on with the
  next `encode`, after `events` that set the page free (`jcntl::handle_aio_wait`).
* The writes that are completed when `get_events` is called are given with the step.
* The contents of the pages are left out: a page has the tokens of the records in it.
-/

namespace QB.Impl.Linear

/-- The sizes: `_cache_pgsize_sblks`, `_cache_num_pages`, and `dataSize_sblks()` of the
empty file pool. -/
structure Config where
  cachePgsizeSblks : Nat
  cacheNumPages : Nat
  dataSizeSblks : Nat
deriving DecidableEq

namespace Config

variable (c : Config)

def pgsizeDblks : Nat := c.cachePgsizeSblks * sblkSizeDblks

def dataSizePgs : Nat := c.dataSizeSblks / c.cachePgsizeSblks

def fileSizeDblks : Nat := c.dataSizeSblks * sblkSizeDblks + fhdrSizeDblks

end Config

inductive PageState where
  | unused | inUse | aioPending
deriving DecidableEq

/-- `page_cb`; the tokens are given by their numbers, and the file by its number. -/
structure PageCb where
  state : PageState := .unused
  pdtokl : List Nat := []
  wdblks : Nat := 0
  jfp : Nat := 0
deriving DecidableEq

/-- `wmgr`. `headers` are the files whose header is being written, and `busy` says that an
operation is part way through; it is that of the last token. -/
structure Wmgr where
  jrnl : Journal
  pages : List PageCb
  pgIndex : Nat := 0
  pgCntr : Nat := 0
  pgOffsetDblks : Nat := 0
  cachedOffsetDblks : Nat := 0
  headers : List Nat := []
  busy : Bool := false
deriving DecidableEq

/-- A completed write: of a page, or of the header of a file. -/
inductive Event where
  | page (index : Nat)
  | header (fid : Nat)
deriving DecidableEq

namespace Wmgr

/-- A journal with nothing in it and its first file. Files are numbered after
`initialFileNumberVal`, which is zero for a new journal. -/
def start (c : Config) (initialFileNumberVal : Nat) : Wmgr :=
  let lfc : LinearFileController :=
    { fileSizeDblks := c.fileSizeDblks, fileSeqCounter := initialFileNumberVal }
  { jrnl := { lfc := lfc.getNextJournalFile }
    pages := { state := .inUse } :: List.replicate (c.cacheNumPages - 1) {} }

variable (w : Wmgr)

def page? : Option PageCb := w.pages[w.pgIndex]?

def setPage (p : PageCb) : Wmgr := { w with pages := w.pages.set w.pgIndex p }

/-- A page that is not used is taken into use. -/
def takePage : Wmgr :=
  match w.page? with
  | some p => if p.state = .unused then w.setPage { p with state := .inUse } else w
  | none => w

/-- The loop of `get_events` over the tokens of a page. -/
def completeToks : List Nat → Journal → Option Journal
  | [], j => some j
  | k :: ks, j => (j.completeTok k).bind (completeToks ks)

/-- One completed write of `get_events`. -/
def getEvent : Event → Option Wmgr
  | .page i =>
    (w.pages[i]?).bind fun p =>
      if p.state = .aioPending then
        (completeToks p.pdtokl w.jrnl).bind fun j =>
          (j.lfc.modify p.jfp (·.addCompletedDblkCount p.wdblks)).map fun lfc =>
            { w with
              jrnl := { j with lfc }
              pages := w.pages.set i { p with state := .unused, pdtokl := [] } }
      else none
  | .header fid =>
    if fid ∈ w.headers then
      (w.jrnl.lfc.modify fid (·.addCompletedDblkCount fhdrSizeDblks)).map fun lfc =>
        { w with jrnl := { w.jrnl with lfc }, headers := w.headers.erase fid }
    else none

def getEvents : List Event → Wmgr → Option Wmgr
  | [], w => some w
  | e :: es, w => (w.getEvent e).bind (getEvents es)

def rotatePage (c : Config) : Wmgr :=
  let w := if c.pgsizeDblks ≤ w.pgOffsetDblks then { w with pgOffsetDblks := 0, pgCntr := w.pgCntr + 1 } else w
  { w with pgIndex := if c.cacheNumPages ≤ w.pgIndex + 1 then 0 else w.pgIndex + 1 }

def dblkRoundup : Wmgr :=
  let wdblks := (w.cachedOffsetDblks + sblkSizeDblks - 1) / sblkSizeDblks * sblkSizeDblks
  { w with
    pgOffsetDblks := w.pgOffsetDblks + (wdblks - w.cachedOffsetDblks)
    cachedOffsetDblks := wdblks }

/-- The current page is written to the current file. -/
def asyncPageWrite (p : PageCb) : Option Wmgr :=
  w.jrnl.lfc.getCurrentFileSeqNum.bind fun fid =>
    (w.jrnl.lfc.modify fid (·.addSubmittedDblkCount w.cachedOffsetDblks w.jrnl.lfc.fileSizeDblks)).map fun lfc =>
      { w.setPage { p with state := .aioPending, wdblks := w.cachedOffsetDblks, jfp := fid } with
        jrnl := { w.jrnl with lfc }
        cachedOffsetDblks := 0 }

/-- `write_flush()`, with whether the result is `RHM_IORES_SUCCESS`. -/
def writeFlush (c : Config) (evts : List Event) : Option (Bool × Wmgr) :=
  if w.cachedOffsetDblks = 0 then (getEvents evts w).map fun w => (true, w.takePage)
  else w.page?.bind fun p =>
    match p.state with
    | .aioPending => (getEvents evts w).map fun w => (false, w.takePage)
    | .unused => none
    | .inUse =>
      (w.dblkRoundup.asyncPageWrite p).bind fun w =>
        (getEvents evts (w.rotatePage c).takePage).map fun w => (true, w.takePage)

def getNextFile : Wmgr := { w with pgCntr := 0, jrnl := { w.jrnl with lfc := w.jrnl.lfc.getNextJournalFile } }

/-- The file is full. -/
def rotateFile (c : Config) : Wmgr := if c.dataSizePgs ≤ w.pgCntr then w.getNextFile else w

def flushCheck (c : Config) (evts : List Event) : Option Wmgr :=
  if c.pgsizeDblks ≤ w.pgOffsetDblks then
    (w.writeFlush c evts).bind fun (success, w) => if success then some (w.rotateFile c) else none
  else some w

/-- `file_header_check(rid, cont, rec_dblks_rem)`: a record goes on from the file before if
there is an offset into it. -/
def fileHeaderCheck (c : Config) (dataOffsDblks recDblksRem : Nat) : Option Wmgr :=
  w.jrnl.lfc.files.getLast?.bind fun f =>
    if f.submittedDblkCount = 0 then
      let fro :=
        if dataOffsDblks = 0 then fhdrSizeDblks * dblkSizeBytes
        else if recDblksRem < c.dataSizeSblks * sblkSizeDblks then (recDblksRem + fhdrSizeDblks) * dblkSizeBytes
        else 0
      (w.jrnl.lfc.modify f.fileSeqNum fun f =>
        { f with firstRecordOffset := fro }.addSubmittedDblkCount fhdrSizeDblks w.jrnl.lfc.fileSizeDblks).map
        fun lfc => { w with jrnl := { w.jrnl with lfc }, headers := f.fileSeqNum :: w.headers }
    else some w

/-- The part of a record that the current page has room for. -/
def encodePart (c : Config) (k : Nat) (t : DataTok) (fid : Nat) : Option Wmgr :=
  w.page?.bind fun p =>
    if p.state = .inUse then
      let ret := min (t.record.recSizeDblks - t.dblksWritten) (c.pgsizeDblks - w.pgOffsetDblks)
      let t := { t with dblksWritten := t.dblksWritten + ret, pgCnt := t.pgCnt + 1, fid, wstate := .part }
      let w := { w.setPage { p with pdtokl := p.pdtokl ++ [k] } with
        pgOffsetDblks := w.pgOffsetDblks + ret
        cachedOffsetDblks := w.cachedOffsetDblks + ret }
      -- is the encoding of this record complete?
      if t.record.recSizeDblks ≤ t.dblksWritten then
        (w.jrnl.encodeTok k t).map fun j => { w with jrnl := j, busy := false }
      else some { w with jrnl := { w.jrnl with toks := w.jrnl.toks.set k t } }
    else none

/-- One round of the `while` loop of an operation. -/
def encode (c : Config) (evts : List Event) : Option Wmgr :=
  if w.busy then
    w.jrnl.toks.getLast?.bind fun t =>
      (if t.dblksWritten = 0 then w.jrnl.startFid t.record else some t.fid).bind fun fid =>
        (w.takePage.encodePart c (w.jrnl.toks.length - 1) t fid).bind fun w =>
          (w.fileHeaderCheck c t.dblksWritten (t.record.recSizeDblks - t.dblksWritten)).bind fun w =>
            w.flushCheck c evts
  else none

/-- The start of `enqueue`, `dequeue`, `abort` or `commit`. -/
def begin (r : Rec) (tpcFlag : Bool) : Option Wmgr :=
  if w.busy then none
  else
    let ok := match r with
      | .deq _ drid xid _ => w.jrnl.dequeueCheck xid drid
      | .enq .. => true
      -- commit and abort must have a transaction id
      | .txa _ xid | .txc _ xid => !xid.isEmpty
    if ok then some { w with jrnl := { w.jrnl with toks := w.jrnl.toks ++ [{ record := r, tpcFlag }] }, busy := true }
    else none

def flush (c : Config) (evts : List Event) : Option Wmgr :=
  if w.busy then none
  else (w.writeFlush c evts).map fun (success, w) => if success then w.rotateFile c else w

inductive Op where
  | begin (r : Rec) (tpcFlag : Bool)
  | encode (evts : List Event)
  | flush (evts : List Event)
  | events (evts : List Event)

def step (c : Config) : Op → Option Wmgr
  | .begin r tpcFlag => w.begin r tpcFlag
  | .encode evts => w.encode c evts
  | .flush evts => w.flush c evts
  | .events evts => getEvents evts w

end Wmgr

end QB.Impl.Linear
