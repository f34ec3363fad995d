import QpidBroker.Framework.Assoc
import QpidBroker.Spec.JournalLedger

/-!
# The maps of a journal

What each operation of the enqueue map and of the transaction map does to the rows of the
enqueue map, the ids with their files, and to the operations of a transaction.
-/

namespace QB.Impl.Linear

open List
open Option hiding mem_map filter_map map_map mem_map_of_mem

/-! ## The enqueue map -/

namespace EnqMap

variable {m m' : EnqMap} {rid pfid posn : Nat}

theorem map_fst_rows (m : EnqMap) : m.rows.map Prod.fst = m.map Prod.fst := by
  simp [rows]

/-- An id is inserted in front, if it is not there. -/
theorem insertPfid_eq_some (h : m.insertPfid rid pfid posn = some m') :
    m.lookup rid = none ∧ m' = (rid, ⟨pfid, posn, false⟩) :: m := by
  unfold insertPfid at h
  split at h
  · exact absurd h (by simp)
  · next hnone => exact ⟨not_isSome_iff_eq_none.1 hnone, (Option.some.inj h).symm⟩

theorem notMem_of_lookup_eq_none (h : m.lookup rid = none) : rid ∉ m.map Prod.fst := by
  intro hmem
  obtain ⟨e, he, rfl⟩ := mem_map.1 hmem
  simpa using lookup_eq_none_iff.1 h e he

theorem getPfid_eq_ok (h : m.getPfid rid = .ok pfid) :
    ∃ d, m.lookup rid = some d ∧ d.lock = false ∧ d.pfid = pfid := by
  unfold getPfid at h
  split at h
  · exact absurd h (by simp)
  next d hd =>
  split at h
  · exact absurd h (by simp)
  · next hlock => exact ⟨d, hd, by simpa using hlock, Except.ok.inj h⟩

/-- An id that is removed was there, with its file. -/
theorem getRemovePfid_eq_ok {txnFlag : Bool} (h : m.getRemovePfid rid txnFlag = .ok (pfid, m')) :
    ∃ d, m.lookup rid = some d ∧ d.pfid = pfid ∧ m' = m.filter (·.1 ≠ rid) := by
  unfold getRemovePfid at h
  split at h
  · exact absurd h (by simp)
  next d hd =>
  split at h
  · exact absurd h (by simp)
  · obtain ⟨rfl, rfl⟩ := Prod.mk.inj (Except.ok.inj h)
    exact ⟨d, hd, rfl, rfl⟩

@[simp] theorem rows_setLock (m : EnqMap) (rid : Nat) (lock : Bool) : (m.setLock rid lock).rows = m.rows := by
  simp only [rows, setLock, map_map]
  refine map_congr_left fun e _ => ?_
  simp only [Function.comp_apply]
  split <;> rfl

/-- The rows after an id is removed. -/
theorem rows_perm_remove (hm : (m.map Prod.fst).Nodup) {d : EmapData} (h : m.lookup rid = some d) :
    m.rows.Perm ((rid, d.pfid) :: rows (m.filter (·.1 ≠ rid))) :=
  (Assoc.perm_cons_filter hm h).map (fun e : Nat × EmapData => (e.1, e.2.pfid))

theorem nodup_filter (hm : (m.map Prod.fst).Nodup) (rid : Nat) : ((m.filter (·.1 ≠ rid)).map Prod.fst).Nodup :=
  hm.sublist (filter_sublist.map _)

end EnqMap

/-! ## The transaction map -/

/-- What an operation is: an enqueue or a dequeue of a record. -/
def TxnData.op (td : TxnData) : Bool × Nat := (td.enqFlag, if td.enqFlag then td.rid else td.drid)

theorem enqRows_append (tdl tdl' : List TxnData) : enqRows (tdl ++ tdl') = enqRows tdl ++ enqRows tdl' := by
  simp [enqRows]

/-- The operation with its write completed. -/
def TxnData.marked (td : TxnData) : TxnData := { td with aioCompl := true }

namespace TxnMap

variable {m : TxnMap}

/-- An operation is appended to those of its transaction. -/
theorem getTdataList_insertTxnData (m : TxnMap) (xid : Xid) (td : TxnData) (x : Xid) :
    (m.insertTxnData xid td).getTdataList x =
      if x = xid then m.getTdataList xid ++ [td] else m.getTdataList x := by
  unfold insertTxnData getTdataList
  split
  · next hsome =>
    obtain ⟨tdl, htdl⟩ := isSome_iff_exists.1 hsome
    rw [Assoc.lookup_map xid x (· ++ [td])]
    by_cases hx : x = xid
    · subst hx
      simp [htdl]
    · simp [hx]
  next hnone =>
  by_cases hx : x = xid
  · subst hx
    have : m.lookup x = none := not_isSome_iff_eq_none.1 hnone
    simp [this]
  · rw [Assoc.lookup_cons_ne hx, if_neg hx]

/-- The operations of a transaction are removed together. -/
theorem getTdataList_getRemoveTdataList (m : TxnMap) (xid x : Xid) :
    (m.getRemoveTdataList xid).2.getTdataList x = if x = xid then [] else m.getTdataList x := by
  unfold getRemoveTdataList getTdataList
  rw [Assoc.lookup_filter_ne]
  split <;> rfl

theorem map_markAioCompl {β : Type} (g : TxnData → β)
    (hg : ∀ td, g { td with aioCompl := true } = g td) {rid : Nat}
    {tdl tdl' : List TxnData} (h : markAioCompl rid tdl = some tdl') : tdl'.map g = tdl.map g := by
  induction tdl generalizing tdl' with
  | nil => simp [markAioCompl] at h
  | cons td tdl ih =>
    rw [markAioCompl] at h
    split at h
    · cases h
      simp [hg]
    · obtain ⟨tdl1, h1, rfl⟩ := map_eq_some_iff.1 h
      simp [ih h1]

/-- The maps differ only in what is marked. -/
def Marked (m m' : TxnMap) : Prop :=
  ∀ x, (m'.getTdataList x).map TxnData.marked = (m.getTdataList x).map TxnData.marked

theorem Marked.refl (m : TxnMap) : m.Marked m := fun _ => rfl

/-- A completion marks operations and changes nothing else. -/
theorem Marked.setAioCompl (m : TxnMap) (xid : Xid) (rid : Nat) : m.Marked ((m.setAioCompl xid rid).getD m) := by
  intro x
  unfold TxnMap.setAioCompl getTdataList
  cases hx : m.lookup xid with
  | none => rfl
  | some tdl =>
    cases hm : markAioCompl rid tdl with
    | none => simp [hm]
    | some tdl' =>
      simp only [bind_some, hm, map_some, getD_some]
      rw [Assoc.lookup_map xid x fun _ => tdl']
      by_cases h : x = xid
      · subst h
        simpa [hx] using map_markAioCompl TxnData.marked (fun _ => rfl) hm
      · simp [h]

variable {m m' : TxnMap}

/-- What does not look at completions stays as it was. -/
theorem Marked.map {β : Type} (h : m.Marked m') (g : TxnData → β) (hg : ∀ td, g td.marked = g td) (x : Xid) :
    (m'.getTdataList x).map g = (m.getTdataList x).map g := by
  have hmap : ∀ l : List TxnData, l.map g = (l.map TxnData.marked).map g := fun l => by
    rw [map_map]
    exact map_congr_left fun td _ => (hg td).symm
  rw [hmap (m'.getTdataList x), hmap (m.getTdataList x), h x]

theorem Marked.all {P : TxnData → Prop} (h : m.Marked m') (hP : ∀ td, P td.marked ↔ P td) (x : Xid)
    (hm : ∀ td ∈ m.getTdataList x, P td) : ∀ td ∈ m'.getTdataList x, P td := by
  intro td htd
  have hmem : td.marked ∈ (m.getTdataList x).map TxnData.marked := h x ▸ mem_map_of_mem htd
  obtain ⟨td', htd', heq⟩ := mem_map.1 hmem
  rw [← hP, ← heq, hP]
  exact hm td' htd'

theorem Marked.enqRows (h : m.Marked m') (x : Xid) : enqRows (m'.getTdataList x) = enqRows (m.getTdataList x) := by
  have hrows : ∀ l : List TxnData, Linear.enqRows l =
      ((l.map fun td => (td.enqFlag, td.rid, td.pfid)).filter (·.1)).map fun d => (d.2.1, d.2.2) := by
    simp [Linear.enqRows, filter_map, Function.comp_def]
  rw [hrows, hrows, h.map (fun td => (td.enqFlag, td.rid, td.pfid)) (fun _ => rfl) x]

end TxnMap

end QB.Impl.Linear
