import QpidBroker.Impl.Journal

/-!
# Files and their counts

`Files n l`: the count of each file of the controller is given by `n`, each file with a
count is there, and the files that were given back are older than all that are there. Counts
go up and down with `n`, and a file is given back only when `n` is zero for it.
-/

namespace QB.Impl.Linear

open List

/-- The files are in order and have the counts `n`. -/
structure Files (n : Nat → Nat) (l : LinearFileController) : Prop where
  sorted : (l.files.map (·.fileSeqNum)).Pairwise (· < ·)
  nonempty : l.files ≠ []
  bound : ∀ f ∈ l.files, f.fileSeqNum ≤ l.fileSeqCounter
  older : ∀ s ∈ l.pool, ∀ f ∈ l.files, s < f.fileSeqNum
  counts : ∀ f ∈ l.files, f.enqueuedRecordCount = n f.fileSeqNum
  known : ∀ s, n s ≠ 0 → s ∈ l.files.map (·.fileSeqNum)

variable {n : Nat → Nat} {l l' : LinearFileController} {s : Nat}

/-! ## One file -/

variable {f : JournalFile → Option JournalFile} {files : List JournalFile}

/-- One file is changed, the first with the number. -/
theorem modifyFile_eq_some {files' : List JournalFile} (h : modifyFile s f files = some files') :
    ∃ pre x y post, files = pre ++ x :: post ∧ x.fileSeqNum = s ∧ f x = some y ∧ files' = pre ++ y :: post := by
  induction files generalizing files' with
  | nil => simp [modifyFile] at h
  | cons j js ih =>
    rw [modifyFile] at h
    split at h
    · next hj =>
      obtain ⟨y, hy, rfl⟩ := Option.map_eq_some_iff.1 h
      exact ⟨[], j, y, js, rfl, hj, hy, rfl⟩
    · obtain ⟨js', hjs, rfl⟩ := Option.map_eq_some_iff.1 h
      obtain ⟨pre, x, y, post, rfl, hx, hy, rfl⟩ := ih hjs
      exact ⟨j :: pre, x, y, post, rfl, hx, hy, rfl⟩

/-- A file with the number is found, and changed if that is possible. -/
theorem modifyFile_of_mem (hs : s ∈ files.map (·.fileSeqNum))
    (hf : ∀ x ∈ files, x.fileSeqNum = s → (f x).isSome) :
    (modifyFile s f files).isSome := by
  induction files with
  | nil => simp at hs
  | cons j js ih =>
    rw [modifyFile]
    split
    · next hj => simpa using hf j (mem_cons_self ..) hj
    next hj =>
    have hs' : s ∈ js.map (·.fileSeqNum) := by
      rcases mem_cons.1 hs with rfl | hs
      · exact absurd rfl hj
      · exact hs
    simpa using ih hs' fun x hx => hf x (mem_cons_of_mem _ hx)

theorem ne_of_sorted {pre post : List JournalFile} {x : JournalFile}
    (h : ((pre ++ x :: post).map (·.fileSeqNum)).Pairwise (· < ·)) {g : JournalFile}
    (hg : g ∈ pre ∨ g ∈ post) :
    g.fileSeqNum ≠ x.fileSeqNum := by
  rw [map_append, map_cons, pairwise_append, pairwise_cons] at h
  obtain ⟨-, ⟨hpost, -⟩, hpre⟩ := h
  rcases hg with hg | hg
  · exact Nat.ne_of_lt (hpre _ (mem_map_of_mem hg) _ (mem_cons_self ..))
  · exact (Nat.ne_of_lt (hpost _ (mem_map_of_mem hg))).symm

/-- The counts after a change of one file. -/
theorem Files.modify {n' : Nat → Nat} (h : Files n l) (hl : l.modify s f = some l')
    (hf : ∀ x y, f x = some y → y.fileSeqNum = x.fileSeqNum ∧
      (x.enqueuedRecordCount = n s → y.enqueuedRecordCount = n' s))
    (hn : ∀ r, r ≠ s → n' r = n r) : Files n' l' := by
  obtain ⟨files, hm, rfl⟩ := Option.map_eq_some_iff.1 hl
  obtain ⟨pre, x, y, post, hfiles, rfl, hy, rfl⟩ := modifyFile_eq_some hm
  obtain ⟨hseq, hcount⟩ := hf x y hy
  have hmap : (pre ++ y :: post).map (·.fileSeqNum) = l.files.map (·.fileSeqNum) := by
    rw [hfiles]
    simp [hseq]
  have hsor := h.sorted
  rw [hfiles] at hsor
  have hmem : ∀ g ∈ pre ++ y :: post, g = y ∨ g ∈ l.files ∧ g.fileSeqNum ≠ x.fileSeqNum := by
    intro g hg
    rw [hfiles]
    rcases mem_append.1 hg with hg | hg
    · exact .inr ⟨mem_append_left _ hg, ne_of_sorted hsor (.inl hg)⟩
    · rcases mem_cons.1 hg with rfl | hg
      · exact .inl rfl
      · exact .inr ⟨mem_append_right _ (mem_cons_of_mem _ hg), ne_of_sorted hsor (.inr hg)⟩
  have hx : x ∈ l.files := by simp [hfiles]
  refine ⟨by rw [hmap]; exact h.sorted, by simp, fun g hg => ?_, fun r hr g hg => ?_, fun g hg => ?_,
    fun r hr => ?_⟩
  · rcases hmem g hg with rfl | ⟨hg, -⟩
    · rw [hseq]
      exact h.bound x hx
    · exact h.bound g hg
  · rcases hmem g hg with rfl | ⟨hg, -⟩
    · rw [hseq]
      exact h.older r hr x hx
    · exact h.older r hr g hg
  · rcases hmem g hg with rfl | ⟨hg, hne⟩
    · rw [hseq]
      exact hcount (h.counts x hx)
    · rw [hn _ hne]
      exact h.counts g hg
  rw [hmap]
  by_cases hrx : r = x.fileSeqNum
  · rw [hrx]
    exact mem_map_of_mem hx
  · exact h.known r (by rwa [hn r hrx] at hr)

theorem Files.modify_same (h : Files n l) (hl : l.modify s f = some l')
    (hf : ∀ x y, f x = some y → y.fileSeqNum = x.fileSeqNum ∧ y.enqueuedRecordCount = x.enqueuedRecordCount) :
    Files n l' :=
  h.modify hl (fun x y hy => ⟨(hf x y hy).1, fun hx => (hf x y hy).2.trans hx⟩) fun _ _ => rfl

/-! ## Counting -/

theorem Files.incrEnqueuedRecordCount (h : Files n l) (hl : l.incrEnqueuedRecordCount s = some l') :
    Files (fun r => n r + if r = s then 1 else 0) l' := by
  refine h.modify hl (fun x y hy => ?_) fun r hr => by simp [hr]
  obtain rfl : { x with enqueuedRecordCount := x.enqueuedRecordCount + 1 } = y := Option.some.inj hy
  exact ⟨rfl, fun hx => by simp [hx]⟩

/-- Files are only given up from the front, while they are dead. -/
theorem Files.purgeEmptyFilesToEfp (h : Files n l) : Files n l.purgeEmptyFilesToEfp := by
  obtain ⟨size, counter, decr, files, pool⟩ := l
  unfold LinearFileController.purgeEmptyFilesToEfp
  induction files generalizing pool with
  | nil => exact h
  | cons f fs ih =>
    cases fs with
    | nil => exact h
    | cons g fs =>
      simp only [LinearFileController.purgeFiles]
      split
      swap
      · exact h
      next hempty =>
      -- the first file has no count, so that nothing is known of it
      simp only [JournalFile.isNoEnqueuedRecordsRemaining, Bool.and_eq_true, decide_eq_true_eq] at hempty
      obtain ⟨hlt, hsor⟩ := pairwise_cons.1 h.sorted
      refine ih _ ⟨hsor, cons_ne_nil _ _, fun x hx => h.bound x (mem_cons_of_mem _ hx), ?_,
        fun x hx => h.counts x (mem_cons_of_mem _ hx), fun r hr => ?_⟩
      · intro r hr x hx
        rcases mem_cons.1 hr with rfl | hr
        · exact hlt _ (mem_map_of_mem hx)
        · exact h.older r hr x (mem_cons_of_mem _ hx)
      · rcases mem_cons.1 (h.known r hr) with rfl | hr'
        · exact absurd ((h.counts f (mem_cons_self ..)).symm.trans hempty.2) hr
        · exact hr'

/-- A count that is not 0 can be taken back. -/
theorem Files.decrEnqueuedRecordCount (h : Files (fun r => n r + if r = s then 1 else 0) l) :
    ∃ l', l.decrEnqueuedRecordCount s = some l' ∧ Files n l' := by
  have hknown : s ∈ l.files.map (·.fileSeqNum) := h.known s (by simp)
  have hsome : (modifyFile s JournalFile.decrEnqueuedRecordCount l.files).isSome := by
    refine modifyFile_of_mem hknown fun x hx hs => ?_
    have hx := h.counts x hx
    simp only [hs, if_true] at hx
    unfold JournalFile.decrEnqueuedRecordCount
    rw [if_neg (by omega)]
    rfl
  obtain ⟨files, hfiles⟩ := Option.isSome_iff_exists.1 hsome
  have hl : l.modify s JournalFile.decrEnqueuedRecordCount = some { l with files } := by
    simp [LinearFileController.modify, hfiles]
  have hdecr : Files n { l with files } := by
    refine h.modify hl (fun x y hy => ?_) fun r hr => by simp [hr]
    unfold JournalFile.decrEnqueuedRecordCount at hy
    split at hy
    · exact absurd hy (by simp)
    · cases hy
      exact ⟨rfl, fun hx => by simp [hx]⟩
  have hcou : Files n { l with files, decrCounter := l.decrCounter + 1 } :=
    ⟨hdecr.sorted, hdecr.nonempty, hdecr.bound, hdecr.older, hdecr.counts, hdecr.known⟩
  rw [LinearFileController.decrEnqueuedRecordCount, hl]
  refine ⟨_, rfl, ?_⟩
  simp only
  split
  · exact hcou.purgeEmptyFilesToEfp
  · exact hcou

/-- The counts are taken back once for each record of a transaction. -/
theorem Files.decrAll {fidl : List Nat} (h : Files (fun r => n r + fidl.count r) l) :
    ∃ l', Journal.decrAll fidl l = some l' ∧ Files n l' := by
  induction fidl generalizing l with
  | nil => exact ⟨l, rfl, h⟩
  | cons fid fidl ih =>
    have hcons : (fun r => n r + (fid :: fidl).count r) = fun r => n r + fidl.count r + if r = fid then 1 else 0 := by
      funext r
      by_cases hr : r = fid
      · subst hr
        simp [Nat.add_assoc]
      · simp [hr, Ne.symm hr]
    rw [hcons] at h
    obtain ⟨l1, hl1, h1⟩ := Files.decrEnqueuedRecordCount h
    obtain ⟨l2, hl2, h2⟩ := ih h1
    refine ⟨l2, ?_, h2⟩
    rw [Journal.decrAll, hl1]
    exact hl2

/-- A new file is last, and has no records. -/
theorem Files.getNextJournalFile (h : Files n l) : Files n l.getNextJournalFile := by
  have hnew : ∀ f ∈ l.files, f.fileSeqNum < l.fileSeqCounter + 1 := fun f hf => Nat.lt_succ_of_le (h.bound f hf)
  have hzero : n (l.fileSeqCounter + 1) = 0 := by
    by_contra hne
    obtain ⟨f, hf, hseq⟩ := mem_map.1 (h.known _ hne)
    have := hnew f hf
    omega
  have hmem : ∀ f ∈ l.getNextJournalFile.files, f ∈ l.files ∨ f = { fileSeqNum := l.fileSeqCounter + 1 } := by
    intro f hf
    rcases mem_append.1 hf with hf | hf
    · exact .inl hf
    · exact .inr (mem_singleton.1 hf)
  refine ⟨?_, by simp [LinearFileController.getNextJournalFile], fun f hf => ?_, fun r hr f hf => ?_, fun f hf => ?_,
    fun r hr => ?_⟩
  · simp only [LinearFileController.getNextJournalFile, map_append, map_cons, map_nil,
      pairwise_append, pairwise_singleton, mem_singleton, forall_eq, true_and]
    refine ⟨h.sorted, fun r hr => ?_⟩
    obtain ⟨f, hf, rfl⟩ := mem_map.1 hr
    exact hnew f hf
  · rcases hmem f hf with hf | rfl
    · exact Nat.le_of_lt (hnew f hf)
    · exact le_rfl
  · rcases hmem f hf with hf | rfl
    · exact h.older r hr f hf
    · obtain ⟨g, hg⟩ := exists_mem_of_ne_nil _ h.nonempty
      exact (h.older r hr g hg).trans (hnew g hg)
  · rcases hmem f hf with hf | rfl
    · exact h.counts f hf
    · exact hzero.symm
  · simp only [LinearFileController.getNextJournalFile, map_append]
    exact mem_append_left _ (h.known r hr)

end QB.Impl.Linear
