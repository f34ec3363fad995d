import QpidBroker.Spec.FileHeader

/-!
# Journal file headers: what is written, and what is recognised

A queue name is written as long as its length says modulo 2 ^ 16, whether it fits into the block
(`inBlock_iff`) or not. If it does, it is read back as it was written (`readJournalFileHeader_write`).
-/

namespace QB.Spec.Linear

open Impl.Linear

variable {name queue : Octets} {part flags : BitVec 16} {size serial rid fro number : BitVec 64}
  {now : BitVec 64 × BitVec 64}

/-- The name that is written. -/
def kept (name : Octets) : Octets := name.take (name.length % 2 ^ 16)

theorem inBlock_iff :
    InBlock (asyncFileHeaderWrite name part size flags serial rid fro number now) ↔
      name.length % 2 ^ 16 ≤ 4022 := by
  have hrest (h : name.length % 2 ^ 16 ≤ 4022) :
      (4096#64 - 74#64 - (BitVec.ofNat 16 name.length).setWidth 64).toNat = 4022 - name.length % 2 ^ 16 := by
    bv_omega
  simp only [InBlock, asyncFileHeaderWrite, fileHdrInit, List.cons_append, List.nil_append, List.forall_mem_cons,
    maxFileHdrLen, sizeofFileHdr, BitVec.toNat_ofNat]
  refine ⟨fun h => by omega, fun h => ⟨by decide, by omega, ?_, nofun⟩⟩
  rw [hrest h]
  omega

theorem queueName_write :
    (List.range (asyncFileHeaderWrite name part size flags serial rid fro number now).hdr.queueNameLen.toNat).map
      (fun i => (asyncFileHeaderWrite name part size flags serial rid fro number now).octets (sizeofFileHdr + i)) =
    kept name := by
  refine List.ext_getElem? fun i => ?_
  simp only [asyncFileHeaderWrite, fileHdrInit, kept, BitVec.toNat_ofNat, List.getElem?_map, List.getElem?_take]
  by_cases hi : i < name.length % 2 ^ 16
  · have hlt := Nat.lt_of_lt_of_le hi (Nat.mod_le _ _)
    rw [List.getElem?_range hi, if_pos hi, List.getElem?_eq_getElem hlt, Option.map_some, if_neg (by omega),
      if_pos (by omega), Nat.add_sub_cancel_left, List.getD_eq_getElem?_getD, List.getElem?_eq_getElem hlt]
    rfl
  · rw [if_neg hi, List.getElem?_eq_none (by simpa using hi)]
    rfl

/-- A name that is in the block is read back as it was written. -/
theorem readJournalFileHeader_write (h : name.length % 2 ^ 16 ≤ 4022) :
    readJournalFileHeader (asyncFileHeaderWrite name part size flags serial rid fro number now) =
      some ((asyncFileHeaderWrite name part size flags serial rid fro number now).hdr, kept name) := by
  rw [readJournalFileHeader, queueName_write, if_pos]
  simp only [asyncFileHeaderWrite, fileHdrInit, BitVec.toNat_ofNat, sizeofFileHdr, maxFileHdrLen]
  omega

theorem recovered_iff (h : name.length % 2 ^ 16 ≤ 4022) : analyzeJournalFileHeader queue
      (asyncFileHeaderWrite name part size flags serial rid fro number now) = some .recovered ↔
    kept name = queue ∧ queue ≠ [] := by
  rw [analyzeJournalFileHeader, readJournalFileHeader_write h]
  by_cases hname : kept name = queue
  · subst hname
    by_cases hnil : kept name = [] <;> simp [hnil]
  · by_cases hnil : kept name = [] <;> simp [hnil, hname]

theorem readFileHeader_iff {hdr : FileHdr} {fileSize : BitVec 32} : readFileHeader hdr fileSize = true ↔
    ¬ (hdr.magic = fileMagic ∧ hdr.version = jrnlVersion ∧ hdr.dataSizeKib = fileSize.setWidth 64) := by
  unfold readFileHeader fileHdrCheck
  by_cases h1 : hdr.magic = fileMagic <;> by_cases h2 : hdr.version = jrnlVersion <;>
    by_cases h3 : hdr.dataSizeKib = fileSize.setWidth 64 <;> simp [h1, h2, h3]

/-- A header is written within its block, tells the queue it was written for, and is only accepted
if it is right, if and only if the name (as far as its length is written) fits and tells the queue,
and the header is right or has the size of the whole file for that of the data. -/
theorem file_header_identifies_iff (name queue : Octets) (part flags : BitVec 16)
    (size serial rid fro number : BitVec 64)
    (now : BitVec 64 × BitVec 64) (hdr : FileHdr) (fileSize : BitVec 32) :
    (InBlock (asyncFileHeaderWrite name part size flags serial rid fro number now) ∧
      (analyzeJournalFileHeader queue (asyncFileHeaderWrite name part size flags serial rid fro number now) =
        some .recovered ↔ name = queue) ∧
      (readFileHeader hdr fileSize = true → Right hdr fileSize)) ↔
    name.length % 2 ^ 16 ≤ 4022 ∧
      (if name = queue then 0 < name.length ∧ name.length < 2 ^ 16
        else queue = [] ∨ name.take (name.length % 2 ^ 16) ≠ queue) ∧
      (Right hdr fileSize ∨
        hdr.magic = fileMagic ∧ hdr.version = jrnlVersion ∧ hdr.dataSizeKib = fileSize.setWidth 64) := by
  rw [inBlock_iff]
  refine and_congr_right fun hblock => and_congr ?_ ?_
  · rw [recovered_iff hblock]
    by_cases hname : name = queue
    · subst hname
      rw [if_pos rfl, iff_true_right rfl, kept, List.take_eq_self_iff, ← List.length_pos_iff, and_comm]
      have := Nat.mod_lt name.length (show 0 < 2 ^ 16 by decide)
      refine and_congr_right fun _ => ⟨fun h => by omega, fun h => (Nat.mod_eq_of_lt h).ge⟩
    · rw [if_neg hname, iff_false_right hname, not_and_or, not_not, or_comm]
      rfl
  · rw [readFileHeader_iff]
    exact or_iff_not_imp_right.symm

/-- A queue with a name of 4023 octets: its header is written behind the block. A header of another
version is accepted. -/
theorem file_header_overruns :
    ¬ InBlock (asyncFileHeaderWrite (List.replicate 4023 65) 1 2048 0 0 0 4096 1 (0, 0)) ∧
    readFileHeader (fileHdrCreate fileMagic 1 1 1 2048) 2052 = true ∧
      ¬ Right (fileHdrCreate fileMagic 1 1 1 2048) 2052 := by
  refine ⟨?_, by decide, by unfold Right; decide⟩
  rw [inBlock_iff, List.length_replicate]
  decide

end QB.Spec.Linear
