import QpidBroker.Framework.Outcome
import QpidBroker.Proof.JournalMaps
import QpidBroker.Spec.InDoubt

/-!
# No branch stays in doubt

What is read of a transaction from a journal is never marked as part of a distributed
transaction (`Recovery.Unmarked`), whatever its prepare record says. So a restart completes
every prepared transaction, and keeps the branches that are in doubt only if there are none.
-/

namespace QB.Impl.Linear

open QB.Spec.Linear List Option

/-! ## What is marked as part of a distributed transaction -/

/-- No operation is marked as part of a distributed transaction. -/
def Recovery.Unmarked (s : Recovery) : Prop := ∀ x, ∀ td ∈ s.tmap.getTdataList x, td.tpcFlag = false

namespace Recovery.Unmarked

variable {s s' : Recovery}

theorem congr (h : s.Unmarked) (ht : s'.tmap = s.tmap) : s'.Unmarked := by
  unfold Recovery.Unmarked
  rw [ht]
  exact h

theorem insertTxnData (h : s.Unmarked) {xid : Xid} {td : TxnData} (htd : td.tpcFlag = false)
    (hs : s.insertTxnData xid td = some s') : s'.Unmarked := by
  obtain ⟨tmap, hset, rfl⟩ := map_eq_some_iff.1 hs
  intro x
  have hmar := TxnMap.Marked.setAioCompl (s.tmap.insertTxnData xid td) xid td.rid
  rw [hset] at hmar
  refine hmar.all (fun _ => Iff.rfl) x fun td' htd' => ?_
  rw [TxnMap.getTdataList_insertTxnData] at htd'
  split at htd'
  · rcases mem_append.1 htd' with htd' | htd'
    · exact h _ td' htd'
    · rw [mem_singleton.1 htd']
      exact htd
  · exact h x td' htd'

theorem remove (h : s.Unmarked) (xid : Xid) :
    ({ s with tmap := (s.tmap.getRemoveTdataList xid).2 } : Recovery).Unmarked := by
  intro x td htd
  rw [TxnMap.getTdataList_getRemoveTdataList] at htd
  split at htd
  · cases htd
  · exact h x td htd

end Recovery.Unmarked

/-! ## What leaves the transaction map as it is -/

namespace Recovery

variable {s s' : Recovery}

theorem tmap_modify {fid : Nat} {f : JournalFile → Option JournalFile} (h : s.modify fid f = some s') :
    s'.tmap = s.tmap := by
  obtain ⟨files, -, rfl⟩ := map_eq_some_iff.1 h
  rfl

theorem tmap_removeEnqueued {drid : Nat} (h : s.removeEnqueued drid = some s') : s'.tmap = s.tmap := by
  unfold removeEnqueued at h
  split at h
  · rw [tmap_modify h]
  · rw [Option.some.inj h]

theorem tmap_abortLoop {tdl : List TxnData} (h : abortLoop tdl s = some s') : s'.tmap = s.tmap := by
  induction tdl generalizing s with
  | nil => rw [Option.some.inj h]
  | cons td tdl ih =>
    rw [abortLoop] at h
    split at h
    · obtain ⟨s1, hs1, h⟩ := bind_eq_some_iff.1 h
      rw [ih h, tmap_modify hs1]
    · rw [ih h]

theorem tmap_commitLoop {tdl : List TxnData} (h : commitLoop tdl s = some s') : s'.tmap = s.tmap := by
  induction tdl generalizing s with
  | nil => rw [Option.some.inj h]
  | cons td tdl ih =>
    rw [commitLoop] at h
    split at h
    · obtain ⟨emap, -, h⟩ := bind_eq_some_iff.1 h
      rw [ih h]
    · obtain ⟨s1, hs1, h⟩ := bind_eq_some_iff.1 h
      rw [ih h, tmap_removeEnqueued hs1]

/-! ## Records -/

theorem Unmarked.nextRecord {d : DiskRec} (h : s.Unmarked) (hs : s.nextRecord d = some s') : s'.Unmarked := by
  unfold Recovery.nextRecord at hs
  split at hs
  · split at hs
    · rw [← Option.some.inj hs]
      exact h
    obtain ⟨s1, hs1, hs⟩ := bind_eq_some_iff.1 hs
    have h1 : s1.Unmarked := h.congr (tmap_modify hs1)
    split at hs
    · obtain ⟨emap, -, rfl⟩ := map_eq_some_iff.1 hs
      exact h1
    · exact h1.insertTxnData rfl hs
  · split at hs
    · exact h.congr (tmap_removeEnqueued hs)
    · exact Unmarked.insertTxnData (s := { s with emap := s.emap.lock _ }) h rfl hs
  · exact (h.remove _).congr (tmap_abortLoop hs)
  · exact (h.remove _).congr (tmap_commitLoop hs)

theorem Unmarked.readRecords {ds : List DiskRec} (h : s.Unmarked) (hs : readRecords ds s = some s') : s'.Unmarked := by
  induction ds generalizing s with
  | nil =>
    rw [← Option.some.inj hs]
    exact h
  | cons d ds ih =>
    obtain ⟨s1, hs1, hs⟩ := bind_eq_some_iff.1 hs
    exact ih (h.nextRecord hs1) hs

end Recovery

variable {s : Recovery}

theorem unmarked_analyzeJournals {files : List Nat} {records : List DiskRec}
    (h : analyzeJournals none files records = some s) : s.Unmarked := by
  have hstart : ({ files := files.map fun n => { fileSeqNum := n } } : Recovery).Unmarked := fun _ _ htd => by cases htd
  unfold analyzeJournals at h
  split at h
  · rw [← Option.some.inj h]
    exact hstart
  · obtain ⟨s1, hs1, h⟩ := bind_eq_some_iff.1 h
    rw [← Option.some.inj h]
    exact (hstart.readRecords hs1).congr rfl

/-! ## Transactions -/

theorem Recovery.Unmarked.tpcCnt (h : s.Unmarked) {xid : Xid} {stats : TxnOpStats}
    (hs : txnOpStats (s.tmap.getTdataList xid) = some stats) : stats.tpcCnt = 0 := by
  have hzero : (s.tmap.getTdataList xid).countP (·.tpcFlag) = 0 := by
    rw [countP_eq_zero]
    intro td htd
    simp [h xid td htd]
  unfold txnOpStats at hs
  simp only at hs
  split at hs
  · cases hs
  split at hs
  · cases hs
  · rw [← Option.some.inj hs]
    simp [hzero]

theorem Recovery.Unmarked.fateOf (h : s.Unmarked) {xid : Xid} {fate : Fate}
    (hf : fateOf s xid = some fate) : fate ≠ .inDoubt := by
  unfold Linear.fateOf at hf
  simp only at hf
  split at hf
  · cases hf
  · obtain ⟨stats, hstats, rfl⟩ := map_eq_some_iff.1 hf
    simp [h.tpcCnt hstats]

variable {d : StoreDisk} {r : Restart} {xids : List Xid}

theorem recover_not_inDoubt (hr : d.recover = some r) : ∀ t ∈ r.transactions, t.2 ≠ .inDoubt := by
  obtain ⟨tpl, htpl, hr⟩ := bind_eq_some_iff.1 hr
  obtain ⟨⟨queues, prepared⟩, -, hr⟩ := bind_eq_some_iff.1 hr
  obtain ⟨transactions, hts, rfl⟩ := map_eq_some_iff.1 hr
  intro t ht
  obtain ⟨pt, -, hpt⟩ := exists_of_mem_mapM hts ht
  obtain ⟨fate, hfate, rfl⟩ := map_eq_some_iff.1 hpt
  exact (unmarked_analyzeJournals htpl).fateOf hfate

theorem collectPreparedXids_eq_nil (hc : d.collectPreparedXids = some xids) : xids = [] := by
  obtain ⟨tpl, htpl, hc⟩ := bind_eq_some_iff.1 hc
  obtain ⟨l, hl, rfl⟩ := map_eq_some_iff.1 hc
  rw [map_eq_nil_iff, filter_eq_nil_iff]
  intro e he
  obtain ⟨xid, -, hxid⟩ := exists_of_mem_mapM hl he
  obtain ⟨stats, hstats, rfl⟩ := map_eq_some_iff.1 hxid
  simp [(unmarked_analyzeJournals htpl).tpcCnt hstats]

/-- A restart keeps the branches that are in doubt exactly if there are none. -/
theorem stays_in_doubt_iff (hr : d.recover = some r) (hc : d.collectPreparedXids = some xids) :
    StaysInDoubt d r xids ↔ undecided d.tpl = [] := by
  have hnone := recover_not_inDoubt hr
  have hnil := collectPreparedXids_eq_nil hc
  constructor
  · intro h
    rw [eq_nil_iff_forall_not_mem]
    intro xid hxid
    have := (h.collected xid).2 hxid
    rw [hnil] at this
    cases this
  intro h
  refine ⟨fun xid hxid => ?_, fun t ht => ?_, fun xid => ?_⟩
  · rw [h] at hxid
    cases hxid
  · rw [h]
    exact iff_of_false (hnone t ht) (by simp)
  · rw [h, hnil]

/-- A distributed transaction is prepared on one queue: the prepare record is on disk, and so
is the enqueue of the message 1. -/
def onePrepared : StoreDisk :=
  { tpl := { files := [1], records := [{ record := .enq 2 [7] [1] false, fid := 1 }] }
    queues := [(5, { files := [1], records := [{ record := .enq 1 [7] [] false, fid := 1 }] })] }

/-- A local transaction that is committed on both of its queues. -/
def oneCommitted : StoreDisk :=
  { tpl :=
      { files := [1]
        records :=
          [{ record := .enq 2 [7] [0] false, fid := 1 }, { record := .deq 3 2 [7] true, fid := 1 },
            { record := .txc 4 [7], fid := 1 }] }
    queues :=
      [(5, { files := [1], records := [{ record := .enq 1 [7] [] false, fid := 1 },
        { record := .txc 6 [7], fid := 1 }] })] }

theorem stays_in_doubt_iff_committed :
    ∃ r, oneCommitted.recover = some r ∧ oneCommitted.collectPreparedXids = some [] ∧
      StaysInDoubt oneCommitted r [] := by
  obtain ⟨r, hr⟩ : ∃ r, oneCommitted.recover = some r := isSome_iff_exists.1 (by decide +kernel)
  have hc : oneCommitted.collectPreparedXids = some [] := by decide +kernel
  exact ⟨r, hr, hc, (stays_in_doubt_iff hr hc).2 (by decide)⟩

/-- The branch is undecided, and the restart puts its message on the queue and commits it. -/
theorem prepared_branch_is_committed : undecided onePrepared.tpl = [[7]] ∧
    onePrepared.collectPreparedXids = some [] ∧
      (onePrepared.recover.map fun r => (r.queues.map (·.messages), r.transactions)) =
        some ([[(1, .queued)]], [({ xid := [7], enqueues := [(5, 1)] }, .completed true)]) := by
  decide +kernel

end QB.Impl.Linear
