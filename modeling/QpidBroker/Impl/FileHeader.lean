import QpidBroker.Framework.Octets

/-!
# The header of a journal file

`linearstore/journal/utils/file_hdr.c`, `JournalFile::asyncFileHeaderWrite`, and how
`RecoveryManager` reads a header: `readJournalFileHeader`, `analyzeJournalFileHeaders` for one
file, and `readFileHeader`.

* The fields of `file_hdr_t` stand apart from the octets behind them, which are found by their
  offset in the block.
* Each `memcpy` and `memset` is noted with its offset and its length, in the block or not.
* What the clock gives is an argument.
-/

namespace QB.Impl.Linear

def fileMagic : BitVec 32 := 0x66534c51

def jrnlVersion : BitVec 16 := 2

def maxFileHdrLen : Nat := 4096

def sizeofFileHdr : Nat := 74

structure FileHdr where
  magic : BitVec 32
  version : BitVec 16
  uflag : BitVec 16 := 0
  serial : BitVec 64 := 0
  rid : BitVec 64 := 0
  fhdrSizeSblks : BitVec 16
  efpPartition : BitVec 16
  reserved : BitVec 32 := 0
  dataSizeKib : BitVec 64
  fro : BitVec 64 := 0
  tsSec : BitVec 64 := 0
  tsNsec : BitVec 64 := 0
  fileNumber : BitVec 64 := 0
  queueNameLen : BitVec 16 := 0
deriving DecidableEq

/-- The block a header is written to. -/
structure HeaderBlock where
  hdr : FileHdr
  octets : Nat → BitVec 8 := fun _ => 0
  written : List (Nat × Nat) := [(0, sizeofFileHdr)]

def fileHdrCreate (magic : BitVec 32) (version fhdrSizeSblks efpPartition : BitVec 16) (fileSize : BitVec 64) :
    FileHdr :=
  { magic, version, fhdrSizeSblks, efpPartition, dataSizeKib := fileSize }

def fileHdrInit (dest : HeaderBlock) (destLen : BitVec 64) (uflag : BitVec 16) (serial rid fro fileNumber : BitVec 64)
    (queueNameLen : BitVec 16) (queueName : Octets) (now : BitVec 64 × BitVec 64) : HeaderBlock :=
  let hdr := { dest.hdr with uflag, serial, rid, fro, fileNumber }
  let hdr := if sizeofFileHdr + queueNameLen.toNat < maxFileHdrLen then { hdr with queueNameLen }
    else { hdr with queueNameLen := BitVec.ofNat 16 (maxFileHdrLen - sizeofFileHdr) }
  -- the length that was clipped is assigned again
  let hdr := { hdr with queueNameLen }
  let len := queueNameLen.toNat
  let rest := (destLen - BitVec.ofNat 64 sizeofFileHdr - queueNameLen.setWidth 64).toNat
  { hdr := { hdr with tsSec := now.1, tsNsec := now.2 }
    octets := fun i =>
      if i < sizeofFileHdr then dest.octets i
      else if i < sizeofFileHdr + len then queueName.getD (i - sizeofFileHdr) 0
      else if i < sizeofFileHdr + len + rest then 0 else dest.octets i
    written := dest.written ++ [(sizeofFileHdr, len), (sizeofFileHdr + len, rest)] }

/-- What `asyncFileHeaderWrite` prepares for the disk. -/
def asyncFileHeaderWrite (queueName : Octets) (efpPartitionNumber : BitVec 16) (efpDataSizeKib : BitVec 64)
    (userFlags : BitVec 16) (serial recordId firstRecordOffset fileSeqNum : BitVec 64) (now : BitVec 64 × BitVec 64) :
    HeaderBlock :=
  fileHdrInit { hdr := fileHdrCreate fileMagic jrnlVersion 1 efpPartitionNumber efpDataSizeKib }
    (BitVec.ofNat 64 maxFileHdrLen) userFlags serial recordId firstRecordOffset fileSeqNum
    (BitVec.ofNat 16 queueName.length) queueName now

/-- `file_hdr_check`, after `rec_hdr_check_base`. -/
def fileHdrCheck (hdr : FileHdr) (magic : BitVec 32) (version : BitVec 16) (dataSizeKib : BitVec 64) : Nat :=
  if hdr.magic ≠ magic then 1
  else if hdr.version ≠ version then 2
  else if hdr.dataSizeKib ≠ dataSizeKib then 3 else 0

/-- The header and the queue name that are read from a block. A name that is
longer than the rest of the block is read from behind it, which is undefined. -/
def readJournalFileHeader (block : HeaderBlock) : Option (FileHdr × Octets) :=
  let len := block.hdr.queueNameLen.toNat
  if sizeofFileHdr + len ≤ maxFileHdrLen then
    some (block.hdr, (List.range len).map fun i => block.octets (sizeofFileHdr + i))
  else none

/-- What is made of a journal file. -/
inductive FileUse where
  | uninitialized
  | ignored
  | recovered
deriving DecidableEq

/-- The loop body of `analyzeJournalFileHeaders`. -/
def analyzeJournalFileHeader (queueName : Octets) (block : HeaderBlock) : Option FileUse :=
  (readJournalFileHeader block).map fun (_, headerQueueName) =>
    if headerQueueName = [] then .uninitialized
    else if headerQueueName ≠ queueName then .ignored else .recovered

/-- `readFileHeader()`: the file is read if the check does not return 0. -/
def readFileHeader (hdr : FileHdr) (efpFileSizeKib : BitVec 32) : Bool :=
  fileHdrCheck hdr fileMagic jrnlVersion (efpFileSizeKib.setWidth 64) ≠ 0

end QB.Impl.Linear
