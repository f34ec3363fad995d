import QpidBroker.Impl.FileHeader

/-!
# What a journal file header should be
-/

namespace QB.Spec.Linear

open Impl.Linear

/-- Nothing is written behind the block. -/
def InBlock (block : HeaderBlock) : Prop := ∀ w ∈ block.written, w.1 + w.2 ≤ maxFileHdrLen

/-- A header of the right magic, version and size: the size of the file is that of the data and of
the block, in KiB. -/
def Right (hdr : FileHdr) (efpFileSizeKib : BitVec 32) : Prop :=
  hdr.magic = fileMagic ∧ hdr.version = jrnlVersion ∧ hdr.dataSizeKib + 4 = efpFileSizeKib.setWidth 64

end QB.Spec.Linear
