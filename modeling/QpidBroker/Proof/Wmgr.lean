import QpidBroker.Framework.Run
import QpidBroker.Impl.Wmgr
import QpidBroker.Proof.JournalAccount

/-!
# Journal files are given back when they are dead

Every step of the write manager keeps its journal accounted for, in whatever order the
writes of pages are completed: the count of each file is the number of the records held that
start in it, no count fails to go down, and a file in the pool is the start of no record that
is held. What a step has to meet is that an enqueue in a transaction starts in a file whose
number has sixteen bits, since that is what the transaction map keeps of it.
-/

namespace QB.Impl.Linear

open QB.Spec.Linear List Journal
open Option hiding mem_map

variable {j j' : Journal}

/-! ## The record that is being encoded -/

/-- The last token is not encoded, and its file is known once a part of it is. -/
def Journal.InProgress (j : Journal) : Prop :=
  ∃ pre t, j.toks = pre ++ [t] ∧ Encoded t = false ∧ (t.dblksWritten ≠ 0 → FileKnown j t.record t.fid)

/-- A completion touches one token, and no enqueued record. -/
theorem completeTok_eq_some {k : Nat} (hj : j.completeTok k = some j') :
    j'.emap = j.emap ∧ ∃ t t', j.toks[k]? = some t ∧ j'.toks = j.toks.set k t' ∧
      (Encoded t = false → Encoded t' = false ∧ t'.record = t.record ∧ t'.fid = t.fid ∧
        t'.dblksWritten = t.dblksWritten) := by
  obtain ⟨t, ht, hj⟩ := bind_eq_some_iff.1 hj
  simp only at hj
  split at hj
  · cases hj
  split at hj
  swap
  · cases hj
    exact ⟨rfl, t, _, ht, rfl, fun he => ⟨he, rfl, rfl, rfl⟩⟩
  split at hj
  · next hw =>
    obtain ⟨j1, hj1, rfl⟩ := map_eq_some_iff.1 hj
    obtain ⟨htoks, hemap⟩ := completed_eq_some hj1
    refine ⟨hemap, t, { t with pgCnt := t.pgCnt - 1, wstate := .compl }, ht, by rw [← htoks], fun he => ?_⟩
    rw [Encoded, show t.wstate = .subm from hw] at he
    cases he
  · cases hj
    exact ⟨rfl, t, _, ht, rfl, fun he => ⟨he, rfl, rfl, rfl⟩⟩
  · cases hj

theorem FileKnown.congr (he : j'.emap = j.emap) {r : Rec} {fid : Nat} (h : FileKnown j r fid) : FileKnown j' r fid := by
  cases r with
  | enq => exact h
  | deq =>
    unfold FileKnown
    rw [he]
    exact h
  | txa => trivial
  | txc => trivial

/-- The record in progress is not the one that completes. -/
theorem Journal.InProgress.completeTok {k : Nat} (h : j.InProgress) (hj : j.completeTok k = some j') :
    j'.InProgress := by
  obtain ⟨pre, u, htoks, hu, hfid⟩ := h
  obtain ⟨hemap, t, t', ht, hset, hkeep⟩ := completeTok_eq_some hj
  rw [htoks] at ht
  rcases Nat.lt_or_ge k pre.length with hk | hk
  · refine ⟨pre.set k t', u, ?_, hu, fun hd => (hfid hd).congr hemap⟩
    rw [hset, htoks, set_append_left _ _ hk]
  obtain rfl : k = pre.length := by
    have := (List.getElem?_eq_some_iff.1 ht).1
    simp at this
    omega
  obtain rfl : u = t := by simpa using ht
  obtain ⟨he, hr, hf, hd⟩ := hkeep hu
  refine ⟨pre, t', by simp [hset, htoks], he, fun hw => ?_⟩
  rw [hr, hf]
  exact (hfid (by rwa [hd] at hw)).congr hemap

theorem Journal.InProgress.setLast {pre : List DataTok} {t t' : DataTok} (htoks : j.toks = pre ++ [t])
    (ht : Encoded t' = false) (hfid : FileKnown j t'.record t'.fid) :
    Journal.InProgress { j with toks := j.toks.set pre.length t' } :=
  ⟨pre, t', by simp [htoks], ht, fun _ => hfid.congr rfl⟩

/-! ## Steps -/

namespace Wmgr

variable {c : Config} {w w' : Wmgr}

/-- The journal is accounted for, and an operation that is part way through is that of the
last token. -/
structure Sound (w : Wmgr) : Prop where
  account : Accounted w.jrnl
  progress : w.busy = true → w.jrnl.InProgress

theorem Sound.congr (h : Sound w) (hj : w'.jrnl = w.jrnl) (hb : w'.busy = w.busy) : Sound w' :=
  ⟨hj ▸ h.account, fun hw => hj ▸ h.progress (hb ▸ hw)⟩

/-- Another list of files that has the same counts. -/
theorem Sound.lfc (h : Sound w) {lfc : LinearFileController} (hj : w'.jrnl = { w.jrnl with lfc })
    (hb : w'.busy = w.busy)
    (hf : Files (heldIn w.jrnl.toks (ledger w.jrnl.toks).entries) lfc) : Sound w' := by
  have hacc := h.account
  refine ⟨hj ▸ ⟨hf, hacc.nodup, hacc.emap, hacc.ops, hacc.tmap, hacc.removing, hacc.placed,
    hacc.pending, hacc.unique⟩,
    fun hw => ?_⟩
  obtain ⟨pre, t, htoks, ht, hfid⟩ := h.progress (hb ▸ hw)
  rw [hj]
  exact ⟨pre, t, htoks, ht, fun hd => (hfid hd).congr rfl⟩

theorem Sound.modify (h : Sound w) {s : Nat} {f : JournalFile → Option JournalFile} {lfc : LinearFileController}
    (hl : w.jrnl.lfc.modify s f = some lfc)
    (hf : ∀ x y, f x = some y → y.fileSeqNum = x.fileSeqNum ∧ y.enqueuedRecordCount = x.enqueuedRecordCount)
    (hj : w'.jrnl = { w.jrnl with lfc }) (hb : w'.busy = w.busy) : Sound w' :=
  h.lfc hj hb (h.account.files.modify_same hl hf)

theorem addCompleted_keeps {n : Nat} {x y : JournalFile} (h : x.addCompletedDblkCount n = some y) :
    y.fileSeqNum = x.fileSeqNum ∧ y.enqueuedRecordCount = x.enqueuedRecordCount := by
  unfold JournalFile.addCompletedDblkCount at h
  split at h
  · cases h
  · cases h
    exact ⟨rfl, rfl⟩

theorem addSubmitted_keeps {n size : Nat} {x y : JournalFile} (h : x.addSubmittedDblkCount n size = some y) :
    y.fileSeqNum = x.fileSeqNum ∧ y.enqueuedRecordCount = x.enqueuedRecordCount := by
  unfold JournalFile.addSubmittedDblkCount at h
  split at h
  · cases h
  · cases h
    exact ⟨rfl, rfl⟩

@[simp] theorem jrnl_takePage (w : Wmgr) : w.takePage.jrnl = w.jrnl := by
  unfold takePage
  split
  · split <;> rfl
  · rfl

@[simp] theorem busy_takePage (w : Wmgr) : w.takePage.busy = w.busy := by
  unfold takePage
  split
  · split <;> rfl
  · rfl

theorem Sound.takePage (h : Sound w) : Sound w.takePage := h.congr (by simp) (by simp)

theorem Sound.rotatePage (h : Sound w) : Sound (w.rotatePage c) := by
  refine h.congr ?_ ?_ <;>
  · unfold Wmgr.rotatePage
    split <;> rfl

/-- The tokens of a page complete one after the other. -/
theorem Sound.completeToks {ks : List Nat} (h : Sound w) (hj : Wmgr.completeToks ks w.jrnl = some j') :
    Sound { w with jrnl := j' } := by
  induction ks generalizing w with
  | nil =>
    cases hj
    exact h
  | cons k ks ih =>
    obtain ⟨j1, hj1, hj⟩ := bind_eq_some_iff.1 hj
    exact ih (w := { w with jrnl := j1 }) ⟨h.account.completeTok hj1, fun hb => (h.progress hb).completeTok hj1⟩ hj

theorem Sound.getEvent {e : Event} (h : Sound w) (hw : w.getEvent e = some w') : Sound w' := by
  cases e with
  | page i =>
    obtain ⟨p, -, hw⟩ := bind_eq_some_iff.1 hw
    split at hw
    · obtain ⟨j, hj, hw⟩ := bind_eq_some_iff.1 hw
      obtain ⟨lfc, hl, rfl⟩ := map_eq_some_iff.1 hw
      exact (h.completeToks hj).modify hl (fun _ _ => addCompleted_keeps) rfl rfl
    · cases hw
  | header fid =>
    simp only [Wmgr.getEvent] at hw
    split at hw
    · obtain ⟨lfc, hl, rfl⟩ := map_eq_some_iff.1 hw
      exact h.modify hl (fun _ _ => addCompleted_keeps) rfl rfl
    · cases hw

theorem Sound.getEvents {es : List Event} (h : Sound w) (hw : Wmgr.getEvents es w = some w') : Sound w' := by
  induction es generalizing w with
  | nil =>
    cases hw
    exact h
  | cons e es ih =>
    obtain ⟨w1, hw1, hw⟩ := bind_eq_some_iff.1 hw
    exact ih (h.getEvent hw1) hw

theorem Sound.asyncPageWrite {p : PageCb} (h : Sound w) (hw : w.asyncPageWrite p = some w') : Sound w' := by
  obtain ⟨fid, -, hw⟩ := bind_eq_some_iff.1 hw
  obtain ⟨lfc, hl, rfl⟩ := map_eq_some_iff.1 hw
  exact h.modify hl (fun _ _ => addSubmitted_keeps) rfl rfl

theorem Sound.writeFlush {evts : List Event} {b : Bool} (h : Sound w) (hw : w.writeFlush c evts = some (b, w')) :
    Sound w' := by
  have heve {w1 : Wmgr} {b' : Bool} (h1 : Sound w1)
      (hw1 : (Wmgr.getEvents evts w1).map (fun w => (b', w.takePage)) = some (b, w')) : Sound w' := by
    obtain ⟨w2, hw2, heq⟩ := map_eq_some_iff.1 hw1
    obtain ⟨-, rfl⟩ := Prod.mk.inj heq
    exact (h1.getEvents hw2).takePage
  unfold Wmgr.writeFlush at hw
  split at hw
  · exact heve h hw
  obtain ⟨p, -, hw⟩ := bind_eq_some_iff.1 hw
  split at hw
  · exact heve h hw
  · cases hw
  · obtain ⟨w1, hw1, hw⟩ := bind_eq_some_iff.1 hw
    have hround : Sound w.dblkRoundup := h.congr rfl rfl
    exact heve (hround.asyncPageWrite hw1).rotatePage.takePage hw

theorem Sound.rotateFile (h : Sound w) : Sound (w.rotateFile c) := by
  unfold Wmgr.rotateFile
  split
  · exact h.lfc rfl rfl h.account.files.getNextJournalFile
  · exact h

theorem Sound.flushCheck {evts : List Event} (h : Sound w) (hw : w.flushCheck c evts = some w') : Sound w' := by
  unfold Wmgr.flushCheck at hw
  split at hw
  swap
  · cases hw
    exact h
  obtain ⟨⟨b, w1⟩, hw1, hw⟩ := bind_eq_some_iff.1 hw
  simp only at hw
  split at hw
  · cases hw
    exact (h.writeFlush hw1).rotateFile
  · cases hw

theorem Sound.fileHeaderCheck {offs rem : Nat} (h : Sound w) (hw : w.fileHeaderCheck c offs rem = some w') :
    Sound w' := by
  obtain ⟨f, -, hw⟩ := bind_eq_some_iff.1 hw
  split at hw
  · obtain ⟨lfc, hl, rfl⟩ := map_eq_some_iff.1 hw
    refine h.modify hl (fun x y hy => ?_) rfl rfl
    exact ⟨(addSubmitted_keeps hy).1, (addSubmitted_keeps hy).2⟩
  · cases hw
    exact h

/-- A part of a record is written: the last token is still in progress, or encoded now. -/
theorem Sound.encodePart {pre : List DataTok} {t : DataTok} {fid : Nat} (h : Sound w) (htoks : w.jrnl.toks = pre ++ [t])
    (ht : Encoded t = false) (hfid : FileKnown w.jrnl t.record fid)
    (hw : w.encodePart c pre.length t fid = some w') : Sound w' := by
  obtain ⟨p, -, hw⟩ := bind_eq_some_iff.1 hw
  split at hw
  swap
  · cases hw
  simp only at hw
  split at hw
  · obtain ⟨j, hj, rfl⟩ := map_eq_some_iff.1 hw
    exact ⟨h.account.encodeTok htoks ht hfid hj, fun hb => by cases hb⟩
  cases hw
  have hlast : w.jrnl.toks[pre.length]? = some t := by simp [htoks]
  refine ⟨h.account.setTok hlast ⟨ht, fun he => ?_⟩ fun he => ?_, fun _ => ?_⟩
  · rw [ht] at he
    cases he
  · rw [ht] at he
    cases he
  · exact Journal.InProgress.setLast htoks rfl hfid

/-- The file where a record starts is the one the maps tell. -/
theorem fileKnown_startFid {r : Rec} {fid : Nat} (hfid : j.startFid r = some fid)
    (henq : ∀ rid xid data transient, r = .enq rid xid data transient → xid.isEmpty = false → fid < 2 ^ 16) :
    FileKnown j r fid := by
  cases r with
  | enq rid xid data transient => exact henq rid xid data transient rfl
  | deq rid drid xid commit =>
    intro hx
    simp only [startFid] at hfid
    split at hfid
    · next hget =>
      cases hfid
      exact hget
    · rw [if_pos hx] at hfid
      cases hfid
  | txa => trivial
  | txc => trivial

/-- A record is encoded page by page. -/
theorem Sound.encode {evts : List Event} (h : Sound w) (hlow : w.StartsLow (.encode evts))
    (hw : w.encode c evts = some w') : Sound w' := by
  unfold Wmgr.encode at hw
  split at hw
  swap
  · cases hw
  next hbusy =>
  obtain ⟨pre, t, htoks, ht, hknown⟩ := h.progress hbusy
  rw [htoks, getLast?_concat, bind_some] at hw
  obtain ⟨fid, hfid, hw⟩ := bind_eq_some_iff.1 hw
  obtain ⟨w1, hw1, hw⟩ := bind_eq_some_iff.1 hw
  obtain ⟨w2, hw2, hw⟩ := bind_eq_some_iff.1 hw
  have hfile : FileKnown w.jrnl t.record fid := by
    split at hfid
    swap
    · next hd =>
      cases hfid
      exact hknown hd
    next hd =>
    refine fileKnown_startFid hfid fun rid xid data transient hr hx => ?_
    simp only [StartsLow, htoks] at hlow
    obtain ⟨r, tpc, ws, dw, pg, f⟩ := t
    subst hr hd
    rw [show w.jrnl.lfc.getCurrentFileSeqNum = some fid from hfid] at hlow
    simpa [hx] using hlow
  rw [show (pre ++ [t]).length - 1 = pre.length by simp] at hw1
  have h1 : Sound w1 := h.takePage.encodePart (by simpa using htoks) ht (by simpa using hfile) hw1
  exact (h1.fileHeaderCheck hw2).flushCheck hw

theorem Sound.begin {r : Rec} {tpcFlag : Bool} (h : Sound w) (hw : w.begin r tpcFlag = some w') : Sound w' := by
  unfold Wmgr.begin at hw
  split at hw
  · cases hw
  · obtain ⟨-, hw⟩ := ite_none_right_eq_some.1 hw
    cases hw
    exact ⟨h.account.pushTok rfl, fun _ => ⟨_, _, rfl, rfl, fun hd => absurd rfl hd⟩⟩

theorem Sound.flush {evts : List Event} (h : Sound w) (hw : w.flush c evts = some w') : Sound w' := by
  unfold Wmgr.flush at hw
  split at hw
  · cases hw
  obtain ⟨⟨b, w1⟩, hw1, rfl⟩ := map_eq_some_iff.1 hw
  simp only
  split
  · exact (h.writeFlush hw1).rotateFile
  · exact h.writeFlush hw1

/-- Every operation keeps the journal accounted for. -/
theorem Sound.step {op : Op} (h : Sound w) (hlow : w.StartsLow op) (hw : w.step c op = some w') : Sound w' := by
  cases op with
  | begin r tpcFlag => exact h.begin hw
  | encode evts => exact h.encode hlow hw
  | flush evts => exact h.flush hw
  | events evts => exact h.getEvents hw

theorem sound_start (c : Config) (n : Nat) : Sound (start c n) := by
  have hfiles : Files (fun _ => 0) (start c n).jrnl.lfc := by
    refine ⟨?_, ?_, ?_, ?_, ?_, ?_⟩ <;> simp [start, LinearFileController.getNextJournalFile]
  refine ⟨⟨hfiles, .nil, .refl _, fun x => rfl, fun x => rfl, fun k r fid hv => ?_, (fun e he => by cases he),
    fun x => ?_,
    fun k k' r r' fid fid' hv => ?_⟩, fun hb => by cases hb⟩
  · cases hv
  · refine iff_of_false (by simp [start]) ?_
    rintro ⟨k, r, fid, hv, -⟩
    cases hv
  · cases hv

/-! ## Whole runs -/

/-- In every run that keeps to low numbers for the enqueues in transactions: the enqueued
records are those of the enqueue map and the records that wait in a transaction are those of
the transaction map, with the files they start in; each file counts the records held that
start in it; a record that is held starts in a file that is there and not in the pool; and
the counts of every record that is to be completed can be counted down. -/
theorem files_count_held {c : Config} {n : Nat} {ops : List Op} {w : Wmgr}
    (h : Run (step · c) (fun w op => w.StartsLow op) (start c n) ops w) :
    (rowsAt .enqueued (ledger w.jrnl.toks).entries).Perm w.jrnl.emap.rows ∧
    (∀ x, rowsAt (.inTxn x) (ledger w.jrnl.toks).entries = enqRows (w.jrnl.tmap.getTdataList x)) ∧
    (∀ f ∈ w.jrnl.lfc.files,
      f.enqueuedRecordCount = (held w.jrnl.toks).countP (·.start = f.fileSeqNum)) ∧
    (∀ e ∈ held w.jrnl.toks,
      e.start ∈ w.jrnl.lfc.files.map (·.fileSeqNum) ∧ e.start ∉ w.jrnl.lfc.pool) ∧
    ∀ t ∈ w.jrnl.toks, t.wstate = .subm → (w.jrnl.completed t).isSome := by
  have hsound : Sound w := h.keep (fun hs hlow hw => hs.step hlow hw) (sound_start c n)
  obtain ⟨hacc, -⟩ := hsound
  refine ⟨hacc.emap, hacc.tmap, fun f hf => ?_, fun e he => ?_, fun t ht hw => ?_⟩
  · rw [countP_held]
    exact hacc.files.counts f hf
  · have hpos : heldIn w.jrnl.toks (ledger w.jrnl.toks).entries e.start ≠ 0 := by
      rw [← countP_held]
      exact Nat.pos_iff_ne_zero.1 (countP_pos_iff.2 ⟨e, he, by simp⟩)
    have hknown := hacc.files.known e.start hpos
    refine ⟨hknown, fun hpool => ?_⟩
    obtain ⟨f, hf, hseq⟩ := mem_map.1 hknown
    have := hacc.files.older e.start hpool f hf
    omega
  obtain ⟨k, hk⟩ := getElem?_of_mem ht
  obtain ⟨j, hj, -⟩ := hacc.completed (u := { t with wstate := .compl }) hk hw rfl rfl rfl
  rw [hj]
  rfl

/-- A file for each page, and one page. -/
def oneBlock : Config := { cachePgsizeSblks := 1, cacheNumPages := 1, dataSizeSblks := 1 }

/-- An enqueue in a transaction and a plain one, and the commit, whose write is completed. -/
def enqueueAndCommit : List Op :=
  [.begin (.enq 1 [7] [] false) false, .encode [], .begin (.enq 2 [] [] false) false, .encode [],
    .begin (.txc 3 [7]) false, .encode [], .flush [], .events [.page 0, .header 1]]

theorem files_count_held_commit :
    ∃ w, Run (step · oneBlock) (fun w op => w.StartsLow op) (start oneBlock 0) enqueueAndCommit w ∧
      w.jrnl.lfc.files.map (·.enqueuedRecordCount) = [2, 0] ∧ ∀ f ∈ w.jrnl.lfc.files,
        f.enqueuedRecordCount = (held w.jrnl.toks).countP (·.start = f.fileSeqNum) := by
  exact exists_run (by decide +kernel) fun w hw hcou => ⟨hw, hcou, (files_count_held hw).2.2.1⟩

/-! ## A file with a high number -/

/-- All writes are on disk, nothing is enqueued, and nothing is in the current file. -/
def idle (old : List JournalFile) (n : Nat) (toks : List DataTok) (p : PageCb) : Wmgr :=
  { jrnl := { lfc := { fileSizeDblks := 64, fileSeqCounter := n, files := old ++ [{ fileSeqNum := n }] }, toks }
    pages := [p] }

theorem modifyFile_append {s : Nat} {f : JournalFile → Option JournalFile} {old fs : List JournalFile}
    (h : ∀ x ∈ old, x.fileSeqNum ≠ s) : modifyFile s f (old ++ fs) = (modifyFile s f fs).map (old ++ ·) := by
  induction old with
  | nil => simp
  | cons x old ih =>
    rw [cons_append, modifyFile, if_neg (h x (mem_cons_self ..)),
      ih fun y hy => h y (mem_cons_of_mem _ hy)]
    simp [Function.comp_def]

section highFile

variable {old : List JournalFile} {n : Nat} (hold : ∀ f ∈ old, f.fileSeqNum ≠ n) (toks : List DataTok)
include hold

theorem encode_first {r : Rec} {f : JournalFile} {emap : EnqMap} {tmap : TxnMap} {pending : List (Xid × List Nat)}
    {toks' : List DataTok} {d e : Nat} (hr : r.recSizeDblks = 1)
    (hfid : (idle old n (toks ++ [{ record := r }]) {}).jrnl.startFid r = some n)
    (hj : (idle old n (toks ++ [{ record := r }]) {}).jrnl.encodeTok toks.length
      { record := r, wstate := .part, dblksWritten := 1, pgCnt := 1, fid := n } =
        some ⟨{ fileSizeDblks := 64, fileSeqCounter := n, files := old ++ [f] }, emap, tmap, pending, toks'⟩)
    (hf : f.fileSeqNum = n) (hs : f.submittedDblkCount = 0) :
    step { idle old n (toks ++ [{ record := r }]) { wdblks := d, jfp := e } with busy := true } oneBlock (.encode []) =
      some
        { jrnl :=
            ⟨{ fileSizeDblks := 64, fileSeqCounter := n
               files := old ++ [{ f with submittedDblkCount := 32, firstRecordOffset := 4096 }] },
              emap, tmap, pending, toks'⟩
          pages := [{ state := .inUse, pdtokl := [toks.length], wdblks := d, jfp := e }]
          pgOffsetDblks := 1
          cachedOffsetDblks := 1
          headers := [n] } := by
  simp only [idle] at hj hfid
  simp only [step, encode, idle, if_true, getLast?_concat, bind_some, hfid, takePage, page?, setPage,
    encodePart, getElem?_cons_zero, length_append, length_singleton, Nat.add_sub_cancel, hr, oneBlock,
    Config.pgsizeDblks, sblkSizeDblks, show 0 + min (1 - 0) (1 * 32 - 0) = 1 from rfl, hj]
  have hmod : modifyFile n (fun f : JournalFile =>
      { f with firstRecordOffset := 4096 }.addSubmittedDblkCount 32 64) (old ++ [f]) =
      some (old ++ [{ f with submittedDblkCount := 32, firstRecordOffset := 4096 }]) := by
    simp [modifyFile_append hold, modifyFile, hf, JournalFile.addSubmittedDblkCount, hs]
  simp [fileHeaderCheck, hs, hf, fhdrSizeDblks, sblkSizeDblks, dblkSizeBytes, LinearFileController.modify, hmod,
    flushCheck, Config.pgsizeDblks]

theorem flush_first {f : JournalFile} {emap : EnqMap} {tmap : TxnMap} {pending : List (Xid × List Nat)} {d e : Nat}
    {ks : List Nat} (hf : f.fileSeqNum = n) (hs : f.submittedDblkCount = 32) :
    step
        { jrnl := ⟨{ fileSizeDblks := 64, fileSeqCounter := n, files := old ++ [f] }, emap, tmap, pending, toks⟩
          pages := [{ state := .inUse, pdtokl := ks, wdblks := d, jfp := e }]
          pgOffsetDblks := 1
          cachedOffsetDblks := 1
          headers := [n] } oneBlock (.flush []) =
      some
        { jrnl :=
            ⟨{ fileSizeDblks := 64, fileSeqCounter := n + 1
               files := old ++ [{ f with submittedDblkCount := 64 }, { fileSeqNum := n + 1 }] },
              emap, tmap, pending, toks⟩
          pages := [{ state := .aioPending, pdtokl := ks, wdblks := 32, jfp := n }]
          headers := [n] } := by
  have hmod : modifyFile n (fun f : JournalFile => f.addSubmittedDblkCount 32 64) (old ++ [f]) =
      some (old ++ [{ f with submittedDblkCount := 64 }]) := by
    simp [modifyFile_append hold, modifyFile, hf, JournalFile.addSubmittedDblkCount, hs]
  simp [step, flush, writeFlush, page?, dblkRoundup, sblkSizeDblks, asyncPageWrite,
    LinearFileController.getCurrentFileSeqNum, hf, LinearFileController.modify, hmod, setPage, rotatePage, oneBlock,
    Config.pgsizeDblks, takePage, getEvents, rotateFile, Config.dataSizePgs, getNextFile,
    LinearFileController.getNextJournalFile]

theorem exec_useFile (d e : Nat) :
    exec (step · oneBlock) (fun _ _ => True) (idle old n toks { wdblks := d, jfp := e })
        [.begin (.txa 0 [0]) false, .encode [], .flush [], .events [.header n, .page 0]] =
      some (idle
        (old ++ [{ fileSeqNum := n, submittedDblkCount := 64, completedDblkCount := 64, firstRecordOffset := 4096 }])
        (n + 1) (toks ++ [{ record := .txa 0 [0], wstate := .compl, dblksWritten := 1, fid := n }])
        { wdblks := 32, jfp := n }) := by
  have hbegin : step (idle old n toks { wdblks := d, jfp := e }) oneBlock (.begin (.txa 0 [0]) false) =
      some { idle old n (toks ++ [{ record := .txa 0 [0] }]) { wdblks := d, jfp := e } with busy := true } := rfl
  have hfid : (idle old n (toks ++ [{ record := .txa 0 [0] }]) {}).jrnl.startFid (.txa 0 [0]) = some n := by
    simp [idle, startFid, LinearFileController.getCurrentFileSeqNum]
  have hj : (idle old n (toks ++ [{ record := .txa 0 [0] }]) {}).jrnl.encodeTok toks.length
      { record := .txa 0 [0], wstate := .part, dblksWritten := 1, pgCnt := 1, fid := n } =
        some ⟨{ fileSizeDblks := 64, fileSeqCounter := n, files := old ++ [{ fileSeqNum := n }] },
          [], [], [([0], [])],
          toks ++ [{ record := .txa 0 [0], wstate := .subm, dblksWritten := 1, pgCnt := 1, fid := n }]⟩ := by
    simp [idle, encodeTok, encoded, insertPending, TxnMap.getRemoveTdataList,
      TxnMap.getTdataList, abortOps]
  have henc := encode_first hold toks (d := d) (e := e) (by decide) hfid hj rfl rfl
  simp only [exec, hbegin, bind_some, henc, flush_first hold]
  simp [step, getEvents, getEvent, LinearFileController.modify, modifyFile_append hold, modifyFile,
    JournalFile.addCompletedDblkCount, fhdrSizeDblks, sblkSizeDblks, completeToks, completeTok,
    completed, decrAll, idle]

theorem exec_enqueueAbort (hpos : ∀ f ∈ old, f.fileSeqNum ≠ 0) (hn : n ≠ 0)
    (hlow : n % 2 ^ 16 = 0) (d e : Nat) :
    (exec (step · oneBlock) (fun _ _ => True) (idle old n toks { wdblks := d, jfp := e })
        [.begin (.enq 1 [7] [] false) false, .encode [], .begin (.txa 2 [7]) false, .encode []]).map
      (fun w => w.jrnl.toks.getLast?.map fun t => (t.wstate, w.jrnl.completed t)) =
      some (some (.subm, none)) := by
  have hbegin : step (idle old n toks { wdblks := d, jfp := e }) oneBlock (.begin (.enq 1 [7] [] false) false) =
      some { idle old n (toks ++ [{ record := .enq 1 [7] [] false }]) { wdblks := d, jfp := e } with busy := true } :=
    rfl
  have hfid : (idle old n (toks ++ [{ record := .enq 1 [7] [] false }]) {}).jrnl.startFid (.enq 1 [7] [] false) =
      some n := by
    simp [idle, startFid, LinearFileController.getCurrentFileSeqNum]
  have hj : (idle old n (toks ++ [{ record := .enq 1 [7] [] false }]) {}).jrnl.encodeTok toks.length
      { record := .enq 1 [7] [] false, wstate := .part, dblksWritten := 1, pgCnt := 1, fid := n } =
        some ⟨{ fileSizeDblks := 64, fileSeqCounter := n,
                files := old ++ [{ fileSeqNum := n, enqueuedRecordCount := 1 }] },
          [], [([7], [.new 1 0 n 0 true false false])], [],
          toks ++ [{ record := .enq 1 [7] [] false, wstate := .subm, dblksWritten := 1, pgCnt := 1, fid := n }]⟩ := by
    simp [idle, encodeTok, encoded, LinearFileController.incrEnqueuedRecordCount,
      LinearFileController.modify, modifyFile_append hold, modifyFile, TxnMap.insertTxnData]
  have henc := encode_first hold toks (d := d) (e := e) (by decide) hfid hj rfl rfl
  have hrec : (Rec.txa 2 [7]).recSizeDblks = 1 := by decide
  simp only [exec, hbegin, bind_some, henc]
  simp only [step, begin, Bool.false_eq_true, if_false, isEmpty_cons, Bool.not_false, if_true, bind_some,
    encode, getLast?_concat, startFid, LinearFileController.getCurrentFileSeqNum, takePage, page?,
    setPage, encodePart, hrec, oneBlock, encodeTok, encoded, TxnMap.getRemoveTdataList,
    TxnMap.getTdataList, TxnData.new, hlow]
  simp [abortOps, insertPending, fileHeaderCheck, flushCheck, Config.pgsizeDblks, sblkSizeDblks,
    completed, decrAll, LinearFileController.decrEnqueuedRecordCount, LinearFileController.modify,
    modifyFile_append hpos, modifyFile, hn]

end highFile

/-- Files are used up one after the other, so that any number is reached. -/
theorem exists_idle (n : Nat) : ∃ ops old toks d e,
    Run (step · oneBlock) (fun _ _ => True) (start oneBlock 0) ops
      (idle old (n + 2) toks { wdblks := d, jfp := e }) ∧
      ∀ f ∈ old, f.fileSeqNum ≠ 0 ∧ f.fileSeqNum < n + 2 := by
  induction n with
  | zero =>
    have hfirst : exec (step · oneBlock) (fun _ _ => True) (start oneBlock 0)
        [.begin (.txa 0 [0]) false, .encode [], .flush [], .events [.header 1, .page 0]] =
          some (idle
            [{ fileSeqNum := 1, submittedDblkCount := 64, completedDblkCount := 64, firstRecordOffset := 4096 }] 2
            [{ record := .txa 0 [0], wstate := .compl, dblksWritten := 1, fid := 1 }] { wdblks := 32, jfp := 1 }) := by
      decide +kernel
    exact ⟨_, _, _, _, _, run_iff_exec.2 hfirst, by simp⟩
  | succ n ih =>
    obtain ⟨ops, old, toks, d, e, hrun, hold⟩ := ih
    have hnext := exec_useFile (fun f hf => Nat.ne_of_lt (hold f hf).2) toks d e
    refine ⟨_, _, _, _, _, hrun.append (run_iff_exec.2 hnext), fun f hf => ?_⟩
    rcases mem_append.1 hf with hf | hf
    · have := hold f hf
      omega
    · obtain rfl := mem_singleton.1 hf
      simp

/-- The enqueue in a transaction starts in the file 65536, of which the transaction map keeps
the number 0: when the abort is completed the file that is to be counted down is not found. -/
theorem high_file_is_not_counted_down :
    ∃ ops w, Run (step · oneBlock) (fun _ _ => True) (start oneBlock 0) ops w ∧
      ∃ t ∈ w.jrnl.toks, t.wstate = .subm ∧ w.jrnl.completed t = none := by
  obtain ⟨ops, old, toks, d, e, hrun, hold⟩ := exists_idle 65534
  have hend := exec_enqueueAbort (fun f hf => Nat.ne_of_lt (hold f hf).2) toks (fun f hf => (hold f hf).1)
    (by decide) (by decide) d e
  obtain ⟨w, hexec, hlast⟩ := map_eq_some_iff.1 hend
  obtain ⟨t, ht, heq⟩ := map_eq_some_iff.1 hlast
  obtain ⟨hw', hnone⟩ := Prod.mk.inj heq
  exact ⟨_, w, hrun.append (run_iff_exec.2 hexec), t, mem_of_getLast? ht, hw', hnone⟩

end Wmgr

end QB.Impl.Linear
