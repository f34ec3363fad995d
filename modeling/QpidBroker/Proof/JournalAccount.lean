import QpidBroker.Proof.JournalFiles
import QpidBroker.Proof.JournalLedger
import QpidBroker.Proof.JournalMaps

/-!
# The counts of journal files are those of the ledger

`Accounted j`: the enqueue map and the transaction map of a journal hold the records of the
ledger of its tokens, under the files they start in, what is to be counted down when a token
is completed is what its record removed, and the count of each file is the number of the
records held that start in it. A record that is encoded keeps this (`Accounted.encodeTok`),
and so does one that is completed, whose counts can be counted down (`Accounted.completed`).
-/

namespace QB.Impl.Linear

open QB.Spec.Linear List EnqMap TxnData Ledger
open Option hiding mem_map

/-- The transaction that a record ends. -/
def Rec.ends : Rec → Option Xid
  | .txa _ xid | .txc _ xid => some xid
  | _ => none

/-- The files that are counted down when a record is completed. -/
def removal (pending : List (Xid × List Nat)) (r : Rec) (fid : Nat) : List Nat :=
  match r with
  | .deq _ _ xid _ => if xid.isEmpty then [fid] else []
  | .enq .. => []
  | .txa _ xid | .txc _ xid => (pending.lookup xid).getD []

theorem removal_congr {pending pending' : List (Xid × List Nat)} {r : Rec}
    (h : ∀ x, r.ends = some x → pending'.lookup x = pending.lookup x) (fid : Nat) :
    removal pending' r fid = removal pending r fid := by
  cases r with
  | enq => rfl
  | deq => rfl
  | txa rid x => rw [removal, removal, h x rfl]
  | txc rid x => rw [removal, removal, h x rfl]

/-- The maps and the files of a journal agree with its ledger. -/
structure Accounted (j : Journal) : Prop where
  files : Files (heldIn j.toks (ledger j.toks).entries) j.lfc
  nodup : (j.emap.map Prod.fst).Nodup
  emap : (rowsAt .enqueued (ledger j.toks).entries).Perm j.emap.rows
  ops (x : Xid) : (ledger j.toks).ops x = (j.tmap.getTdataList x).map op
  tmap (x : Xid) : rowsAt (.inTxn x) (ledger j.toks).entries = enqRows (j.tmap.getTdataList x)
  removing (k : Nat) (r : Rec) (fid : Nat) (hv : view j.toks k = some (r, fid, .subm)) :
    ((rowsAt (.removedBy k) (ledger j.toks).entries).map Prod.snd).Perm (removal j.txnPendingMap r fid)
  placed (e : Entry) (he : e ∈ (ledger j.toks).entries) (k : Nat) (hk : e.place = .removedBy k) :
    (view j.toks k).isSome
  pending (x : Xid) : (j.txnPendingMap.lookup x).isSome ↔
    ∃ k r fid, view j.toks k = some (r, fid, .subm) ∧ r.ends = some x
  unique (k k' : Nat) (r r' : Rec) (fid fid' : Nat) (hv : view j.toks k = some (r, fid, .subm))
    (hv' : view j.toks k' = some (r', fid', .subm)) (he : r.ends.isSome) (h : r.ends = r'.ends) : k = k'

variable {j j' : Journal}

/-- Tokens that differ in nothing encoded are as good. -/
theorem Accounted.congr (h : Accounted j) {toks : List DataTok} (hl : ledger toks = ledger j.toks)
    (hv : ∀ k, view toks k = view j.toks k) : Accounted { j with toks } := by
  have hheld : heldIn toks (ledger toks).entries = heldIn j.toks (ledger j.toks).entries := by
    funext f
    rw [hl, heldIn_congr fun e _ => settled_congr hv e.place]
  refine ⟨?_, h.nodup, ?_, fun x => ?_, fun x => ?_, fun k r fid => ?_, fun e => ?_, fun x => ?_,
    fun k k' r r' => ?_⟩
  · simpa only [hheld] using h.files
  · simpa only [hl] using h.emap
  · simpa only [hl] using h.ops x
  · simpa only [hl] using h.tmap x
  · simpa only [hl, hv] using h.removing k r fid
  · simpa only [hl, hv] using h.placed e
  · simpa only [hv] using h.pending x
  · simpa only [hv] using h.unique k k' r r'

variable {t : DataTok} {pre : List DataTok}

theorem Accounted.pushTok (h : Accounted j) (ht : Encoded t = false) :
    Accounted { j with toks := j.toks ++ [t] } := by
  refine h.congr (by rw [ledger_append, if_neg (by simp [ht])]) fun k => ?_
  unfold view
  rcases Nat.lt_trichotomy k j.toks.length with hk | rfl | hk
  · rw [getElem?_append_left hk]
  · simp [ht]
  · rw [getElem?_eq_none (by simp; omega), getElem?_eq_none (by omega)]

/-- A token that is written to in part is still the same record. -/
theorem Accounted.setTok (h : Accounted j) {k : Nat} {t' : DataTok} (ht : j.toks[k]? = some t) (ha : Alike t t')
    (hw : Encoded t → t'.wstate = t.wstate) : Accounted { j with toks := j.toks.set k t' } := by
  refine h.congr (ledger_set ht ha) fun i => ?_
  rw [view_set ht]
  split
  swap
  · rfl
  next hi =>
  subst hi
  unfold view
  rw [ht, bind_some, ← ha.1]
  split
  · next he => rw [(ha.2 he).1, (ha.2 he).2, hw he]
  · rfl

/-! ## A record is encoded -/

/-- The ledger after one more record. -/
theorem ledger_encode {t₀ : DataTok} (h₀ : Encoded t₀ = false) (ht : Encoded t = true) :
    ledger (pre ++ [t]) = (ledger (pre ++ [t₀])).write pre.length t := by
  rw [ledger_append, ledger_append, if_pos ht, if_neg (by simp [h₀])]

theorem view_encode {u : DataTok} (ht : Encoded t = true) (k : Nat) :
    view (pre ++ [t]) k =
      if k = pre.length then some (t.record, t.fid, t.wstate) else view (pre ++ [u]) k := by
  unfold view
  rcases Nat.lt_trichotomy k pre.length with hk | rfl | hk
  · rw [getElem?_append_left hk, getElem?_append_left hk, if_neg (by omega)]
  · simp [ht]
  · rw [getElem?_eq_none (by simp; omega), getElem?_eq_none (by simp; omega), if_neg (by omega)]

theorem view_last {t₀ : DataTok} (h₀ : Encoded t₀ = false) :
    view (pre ++ [t₀]) pre.length = none := by
  simp [view, h₀]

section encode

variable {pre : List DataTok} {t₀ t : DataTok}

theorem encoded_of_subm (ht : t.wstate = .subm) : Encoded t = true := by
  simp [Encoded, ht]

/-- Only a removal that has completed settles a record. -/
theorem settled_encode {u : DataTok} (ht : t.wstate = .subm) (p : Place) :
    p.Settled (pre ++ [t]) = if p = .removedBy pre.length then false else p.Settled (pre ++ [u]) := by
  cases p with
  | enqueued => rfl
  | inTxn x => rfl
  | removedBy k =>
    rw [settled_removedBy, settled_removedBy, view_encode (u := u) (encoded_of_subm ht)]
    by_cases hk : k = pre.length
    · simp [hk, ht]
    · simp [hk]

theorem not_settled_last (ht : t.wstate = .subm) : (Place.removedBy pre.length).Settled (pre ++ [t]) = false := by
  rw [settled_encode (u := t) ht, if_pos rfl]

variable (h : Accounted j) (htoks : j.toks = pre ++ [t₀]) (h₀ : Encoded t₀ = false)
include h htoks h₀

/-- A record is written: its files, maps and operations are accounted for. The cases that follow
differ in what it is. -/
theorem Accounted.written (ht : t.wstate = .subm) (hj : j'.toks = pre ++ [t])
    {l : Ledger} (hl : (ledger j.toks).write pre.length t = l)
    (files : Files (heldIn j'.toks l.entries) j'.lfc) (nodup : (j'.emap.map Prod.fst).Nodup)
    (emap : (rowsAt .enqueued l.entries).Perm j'.emap.rows)
    (ops : ∀ x, l.ops x = (j'.tmap.getTdataList x).map op)
    (tmap : ∀ x, rowsAt (.inTxn x) l.entries = enqRows (j'.tmap.getTdataList x))
    (own : ((rowsAt (.removedBy pre.length) l.entries).map Prod.snd).Perm (removal j'.txnPendingMap t.record t.fid))
    (others : ∀ k, k ≠ pre.length → rowsAt (.removedBy k) l.entries =
      rowsAt (.removedBy k) (ledger j.toks).entries)
    (hp : (t.record.ends = none ∧ j'.txnPendingMap = j.txnPendingMap) ∨
      ∃ x fidl, t.record.ends = some x ∧ j.txnPendingMap.lookup x = none ∧
        j'.txnPendingMap = (x, fidl) :: j.txnPendingMap) : Accounted j' := by
  have hled : ledger j'.toks = l := by
    rw [hj, ledger_encode h₀ (encoded_of_subm ht), ← htoks, hl]
  have hview (k : Nat) : view j'.toks k =
      if k = pre.length then some (t.record, t.fid, .subm) else view j.toks k := by
    rw [hj, htoks, view_encode (encoded_of_subm ht), ht]
  have hlast : view j.toks pre.length = none := by
    rw [htoks, view_last h₀]
  have hloo (x : Xid) (hx : t.record.ends ≠ some x) :
      j'.txnPendingMap.lookup x = j.txnPendingMap.lookup x := by
    rcases hp with ⟨-, hp⟩ | ⟨y, fidl, hy, -, hp⟩
    · rw [hp]
    · have hxy : x ≠ y := fun hxy => hx (by rw [hy, hxy])
      rw [hp, Assoc.lookup_cons_ne hxy]
  -- the transaction that is ended now has no end that is not on disk
  have hfresh (x : Xid) (hx : t.record.ends = some x) : j.txnPendingMap.lookup x = none := by
    rcases hp with ⟨hnone, -⟩ | ⟨y, fidl, hy, hnone, -⟩
    · rw [hnone] at hx
      cases hx
    · rw [hy] at hx
      rwa [← Option.some.inj hx]
  have hold (k : Nat) (r : Rec) (fid : Nat) (hv : view j.toks k = some (r, fid, .subm)) :
      k ≠ pre.length ∧ ∀ x, r.ends = some x → t.record.ends ≠ some x := by
    refine ⟨fun hk => ?_, fun x hr hx => ?_⟩
    · rw [hk, hlast] at hv
      cases hv
    · have := (h.pending x).2 ⟨k, r, fid, hv, hr⟩
      rw [hfresh x hx] at this
      cases this
  refine ⟨by rwa [hled], nodup, by rwa [hled], by rwa [hled], by rwa [hled], ?_, ?_, ?_, ?_⟩
  · intro k r fid hv
    rw [hled]
    rw [hview] at hv
    split at hv
    · next hk =>
      subst hk
      obtain ⟨rfl, rfl, -⟩ := by simpa using hv
      exact own
    next hk =>
    rw [others k hk]
    rw [removal_congr fun x hx => hloo x ((hold k r fid hv).2 x hx)]
    exact h.removing k r fid hv
  · intro e he k hk
    rw [hview]
    split
    · rfl
    next hne =>
    rw [hled] at he
    have hrow : (e.rid, e.start) ∈ rowsAt (.removedBy k) l.entries := mem_rowsAt.2 ⟨e, he, hk, rfl⟩
    rw [others k hne] at hrow
    obtain ⟨e', he', hk', -⟩ := mem_rowsAt.1 hrow
    exact h.placed e' he' k hk'
  · intro x
    by_cases hx : t.record.ends = some x
    · constructor
      · exact fun _ => ⟨pre.length, t.record, t.fid, by rw [hview, if_pos rfl], hx⟩
      intro _
      rcases hp with ⟨hnone, -⟩ | ⟨y, fidl, hy, -, hp⟩
      · rw [hnone] at hx
        cases hx
      · cases hy.symm.trans hx
        rw [hp, Assoc.lookup_cons_self]
        rfl
    rw [hloo x hx, h.pending x]
    constructor
    · rintro ⟨k, r, fid, hv, hr⟩
      exact ⟨k, r, fid, by rw [hview, if_neg (hold k r fid hv).1, hv], hr⟩
    rintro ⟨k, r, fid, hv, hr⟩
    rw [hview] at hv
    split at hv
    · obtain ⟨rfl, -⟩ := by simpa using hv
      exact absurd hr hx
    · exact ⟨k, r, fid, hv, hr⟩
  intro k k' r r' fid fid' hv hv' hr heq
  obtain ⟨x, hx⟩ := isSome_iff_exists.1 hr
  rw [hview] at hv hv'
  split at hv <;> split at hv'
  · next hk hk' => rw [hk, hk']
  · obtain ⟨rfl, -⟩ := by simpa using hv
    exact absurd hx ((hold k' r' fid' hv').2 x (by rw [← heq, hx]))
  · obtain ⟨rfl, -⟩ := by simpa using hv'
    exact absurd (heq ▸ hx) ((hold k r fid hv).2 x hx)
  · exact h.unique k k' r r' fid fid' hv hv' hr heq

theorem Accounted.not_removedBy_last {e : Entry} (he : e ∈ (ledger j.toks).entries) :
    e.place ≠ .removedBy pre.length := by
  intro hp
  have := h.placed e he _ hp
  rw [htoks, view_last h₀] at this
  cases this

theorem Accounted.rowsAt_last : rowsAt (.removedBy pre.length) (ledger j.toks).entries = [] := by
  refine eq_nil_iff_forall_not_mem.2 fun x hx => ?_
  obtain ⟨e, he, hp, -⟩ := mem_rowsAt.1 hx
  exact h.not_removedBy_last htoks h₀ he hp

/-- The records held so far are not affected by the record itself. -/
theorem Accounted.heldIn_encode (ht : t.wstate = .subm) :
    heldIn (pre ++ [t]) (ledger j.toks).entries = heldIn j.toks (ledger j.toks).entries := by
  funext f
  refine heldIn_congr (fun e he => ?_) f
  rw [settled_encode ht, if_neg (h.not_removedBy_last htoks h₀ he), htoks]

theorem Accounted.files_encode (ht : t.wstate = .subm) {es : List Entry}
    (hes : heldIn (pre ++ [t]) es = heldIn (pre ++ [t]) (ledger j.toks).entries) :
    Files (heldIn (pre ++ [t]) es) j.lfc := by
  rw [hes, h.heldIn_encode htoks h₀ ht]
  exact h.files

omit htoks h₀ in
theorem Accounted.ops_insert (xid : Xid) (td : TxnData) (x : Xid) :
    Function.update (ledger j.toks).ops xid ((ledger j.toks).ops xid ++ [td.op]) x =
      ((j.tmap.insertTxnData xid td).getTdataList x).map op := by
  rw [TxnMap.getTdataList_insertTxnData]
  by_cases hx : x = xid
  · subst hx
    simp [h.ops]
  · simp [hx, h.ops]

variable {rid : Nat} {xid : Xid} {es : List Entry} {m : EnqMap}

/-- An enqueue is in the enqueue map, or among the operations of its transaction. -/
theorem Accounted.encoded_enq (ht : t.wstate = .subm) {data : List UInt8} {transient : Bool}
    (hr : t.record = .enq rid xid data transient) (hfid : xid.isEmpty = false → t.fid < 2 ^ 16)
    (hj : j.encoded t = some j') : Accounted { j' with toks := pre ++ [t] } := by
  simp only [Journal.encoded, hr] at hj
  obtain ⟨lfc, hlfc, hj⟩ := bind_eq_some_iff.1 hj
  have hfiles := h.files.incrEnqueuedRecordCount hlfc
  have hlast := h.rowsAt_last htoks h₀
  -- one more record is held
  have hheld (p : Place) (hp : p.Settled (pre ++ [t]) = false) :
      Files (heldIn (pre ++ [t]) ((ledger j.toks).entries ++ [⟨rid, t.fid, p⟩])) lfc := by
    have : heldIn (pre ++ [t]) ((ledger j.toks).entries ++ [⟨rid, t.fid, p⟩]) =
        fun f => heldIn j.toks (ledger j.toks).entries f + if f = t.fid then 1 else 0 := by
      funext f
      rw [heldIn_append, h.heldIn_encode htoks h₀ ht]
      simp [heldIn, hp, eq_comm]
    rwa [this]
  cases hx : xid.isEmpty with
  | true =>
    simp only [hx] at hj
    obtain ⟨emap, hemap, rfl⟩ := map_eq_some_iff.1 hj
    obtain ⟨hnone, rfl⟩ := insertPfid_eq_some hemap
    have hl : (ledger j.toks).write pre.length t =
        { ledger j.toks with entries := (ledger j.toks).entries ++ [⟨rid, t.fid, .enqueued⟩] } := by
      simp [write, hr, hx]
    refine h.written htoks h₀ ht rfl hl (hheld .enqueued rfl) ?_ ?_ h.ops (fun x => ?_) ?_ (fun k _ => ?_)
      (.inl ⟨by rw [hr]; rfl, rfl⟩)
    · exact nodup_cons.2 ⟨notMem_of_lookup_eq_none hnone, h.nodup⟩
    · rw [rowsAt_append]
      exact (perm_append_comm.trans (h.emap.cons (rid, t.fid)))
    · rw [rowsAt_append]
      simp [rowsAt_cons, h.tmap]
    · rw [rowsAt_append, hlast, hr]
      exact .refl _
    · rw [rowsAt_append]
      simp [rowsAt_cons]
  | false =>
    simp only [hx] at hj
    cases hj
    have hl : (ledger j.toks).write pre.length t =
        { entries := (ledger j.toks).entries ++ [⟨rid, t.fid, .inTxn xid⟩]
          ops := Function.update (ledger j.toks).ops xid ((ledger j.toks).ops xid ++ [(true, rid)]) } := by
      simp [write, hr, hx]
    refine h.written htoks h₀ ht rfl hl (hheld (.inTxn xid) rfl) h.nodup ?_
      (h.ops_insert xid (.new rid 0 t.fid 0 true t.tpcFlag false)) (fun x => ?_) ?_ (fun k _ => ?_)
      (.inl ⟨by rw [hr]; rfl, rfl⟩)
    · rw [rowsAt_append]
      simpa [rowsAt_cons] using h.emap
    · rw [TxnMap.getTdataList_insertTxnData, rowsAt_append]
      by_cases hxx : x = xid
      swap
      · simp [rowsAt_cons, h.tmap, hxx, Ne.symm hxx]
      subst hxx
      have hrow : enqRows [new rid 0 t.fid 0 true t.tpcFlag false] = [(rid, t.fid)] := by
        simp only [new, Nat.mod_eq_of_lt (hfid hx)]
        rfl
      rw [if_pos rfl, enqRows_append, hrow, h.tmap]
      simp [rowsAt_cons]
    · rw [rowsAt_append, hlast, hr]
      exact .refl _
    · rw [rowsAt_append]
      simp [rowsAt_cons]

omit h htoks h₀

/-- A dequeue takes a row from the enqueued records. -/
theorem rowsAt_enqueued_remove (hm : (m.map Prod.fst).Nodup)
    (hes : (rowsAt .enqueued es).Perm m.rows) {drid : Nat} {d : EmapData} (hd : m.lookup drid = some d) (k : Nat) :
    (rowsAt .enqueued (moveFirst drid .enqueued (.removedBy k) es)).Perm (EnqMap.rows (m.filter (·.1 ≠ drid))) ∧
      (rowsAt (.removedBy k) (moveFirst drid .enqueued (.removedBy k) es)).Perm
        ((drid, d.pfid) :: rowsAt (.removedBy k) es) := by
  have hperm := hes.trans (rows_perm_remove hm hd)
  obtain ⟨e, he, hp, heq⟩ := mem_rowsAt.1 (hperm.mem_iff.2 (mem_cons_self ..))
  obtain ⟨a, x, b, rfl, rfl, hx, -, hmove⟩ :=
    moveFirst_of_mem ⟨e, he, (Prod.mk.inj heq).1, hp⟩ (.removedBy k)
  have hrows : rowsAt .enqueued (a ++ x :: b) = rowsAt .enqueued a ++ (x.rid, x.start) :: rowsAt .enqueued b := by
    rw [rowsAt_append, rowsAt_cons, if_pos hx]
  rw [hrows] at hperm
  -- no other record has the id
  have hstart : x.start = d.pfid := by
    have hmem : (x.rid, x.start) ∈ (x.rid, d.pfid) :: EnqMap.rows (m.filter (·.1 ≠ x.rid)) :=
      hperm.mem_iff.1 (by simp)
    rcases mem_cons.1 hmem with h | h
    · exact (Prod.mk.inj h).2
    · obtain ⟨y, hy, hrow⟩ := mem_map.1 h
      have hne : y.1 ≠ x.rid := by simpa using (mem_filter.1 hy).2
      exact absurd (Prod.mk.inj hrow).1 hne
  rw [hmove]
  constructor
  · rw [rowsAt_append]
    rw [← hstart] at hperm
    exact (perm_middle.symm.trans hperm).cons_inv
  · rw [rowsAt_append, rowsAt_append, rowsAt_cons, rowsAt_cons, if_pos rfl, if_neg (by simp [hx]), hstart]
    exact perm_middle

/-- A commit takes a row from those of the transaction. -/
theorem rowsAt_inTxn_enqueue {pfid : Nat} {rows : List (Nat × Nat)}
    (htx : rowsAt (.inTxn xid) es = (rid, pfid) :: rows) (hes : (rowsAt .enqueued es).Perm m.rows) :
    (rowsAt .enqueued (moveFirst rid (.inTxn xid) .enqueued es)).Perm
      (EnqMap.rows ((rid, ⟨pfid, 0, false⟩) :: m)) ∧
      rowsAt (.inTxn xid) (moveFirst rid (.inTxn xid) .enqueued es) = rows := by
  obtain ⟨e, he, hp, heq⟩ := mem_rowsAt.1 (htx ▸ mem_cons_self ..)
  obtain ⟨a, x, b, rfl, rfl, hx, hfirst, hmove⟩ := moveFirst_of_mem ⟨e, he, (Prod.mk.inj heq).1, hp⟩ .enqueued
  rw [rowsAt_append, rowsAt_cons, if_pos hx] at htx
  have ha : rowsAt (.inTxn xid) a = [] := by
    cases hra : rowsAt (.inTxn xid) a with
    | nil => rfl
    | cons y ys =>
      rw [hra] at htx
      obtain ⟨z, hz, hzp, hzy⟩ := mem_rowsAt.1 (hra ▸ mem_cons_self ..)
      obtain ⟨rfl, -⟩ := List.cons.inj htx
      exact absurd ⟨(Prod.mk.inj hzy).1, hzp⟩ (hfirst z hz)
  rw [ha] at htx
  obtain ⟨hrow, rfl⟩ := List.cons.inj htx
  obtain ⟨-, rfl⟩ := Prod.mk.inj hrow
  rw [hmove]
  constructor
  · rw [rowsAt_append]
    rw [rowsAt_append, rowsAt_cons, if_neg (by simp [hx])] at hes
    exact perm_middle.trans (hes.cons _)
  · rw [rowsAt_append, ha]
    rfl

include h htoks h₀

/-- A dequeue outside of a transaction removes its record at once. -/
theorem Accounted.encoded_deq (ht : t.wstate = .subm) {drid : Nat} {commit : Bool}
    (hr : t.record = .deq rid drid xid commit)
    (hfid : xid.isEmpty = true → j.emap.getPfid drid = .ok t.fid) (hj : j.encoded t = some j') :
    Accounted { j' with toks := pre ++ [t] } := by
  simp only [Journal.encoded, hr] at hj
  have hlast := h.rowsAt_last htoks h₀
  cases hx : xid.isEmpty with
  | true =>
    simp only [hx, if_true] at hj
    split at hj
    swap
    · cases hj
    next fid emap hremo =>
    cases hj
    obtain ⟨d, hd, rfl, rfl⟩ := getRemovePfid_eq_ok hremo
    obtain ⟨d', hd', -, hfid⟩ := getPfid_eq_ok (hfid hx)
    cases hd.symm.trans hd'
    have hl : (ledger j.toks).write pre.length t = { ledger j.toks with
        entries := moveFirst drid .enqueued (.removedBy pre.length) (ledger j.toks).entries } := by
      simp [write, hr, hx]
    obtain ⟨hemap, hrem⟩ := rowsAt_enqueued_remove h.nodup h.emap hd pre.length
    refine h.written htoks h₀ ht rfl hl
      (h.files_encode htoks h₀ ht (funext (heldIn_moveFirst rfl (not_settled_last ht))))
      (nodup_filter h.nodup drid) hemap h.ops (fun x => ?_) ?_ (fun k hk => ?_) (.inl ⟨by rw [hr]; rfl, rfl⟩)
    · rw [rowsAt_moveFirst_ne (by simp) (by simp)]
      exact h.tmap x
    · rw [hlast] at hrem
      simp only [removal, hr, hx, ← hfid]
      exact hrem.map Prod.snd
    · exact rowsAt_moveFirst_ne (by simp) (by simpa using hk)
  | false =>
    simp only [hx] at hj
    cases hj
    have hl : (ledger j.toks).write pre.length t = { ledger j.toks with
        ops := Function.update (ledger j.toks).ops xid ((ledger j.toks).ops xid ++ [(false, drid)]) } := by
      simp [write, hr, hx]
    refine h.written htoks h₀ ht rfl hl (h.files_encode htoks h₀ ht rfl) ?_ ?_
      (h.ops_insert xid (.new rid drid t.fid 0 false t.tpcFlag false)) (fun x => ?_) ?_ (fun k _ => rfl)
      (.inl ⟨by rw [hr]; rfl, rfl⟩)
    · rw [← map_fst_rows, EnqMap.lock, rows_setLock, map_fst_rows]
      exact h.nodup
    · rw [EnqMap.lock, rows_setLock]
      exact h.emap
    · rw [TxnMap.getTdataList_insertTxnData]
      by_cases hxx : x = xid
      · subst hxx
        rw [h.tmap]
        simp [enqRows, new]
      · rw [if_neg hxx]
        exact h.tmap x
    · simp [hlast, removal, hr, hx]

omit h htoks h₀

/-- The loop of `abort` unlocks, and finds the files of the enqueues. -/
theorem abortOps_spec (tdl : List TxnData) (m : EnqMap) (fidl : List Nat) :
    (abortOps tdl m fidl).1.rows = m.rows ∧ (abortOps tdl m fidl).2 = fidl ++ (enqRows tdl).map Prod.snd := by
  induction tdl generalizing m fidl with
  | nil => simp [abortOps, enqRows]
  | cons td tdl ih =>
    rw [abortOps]
    split
    · next henq =>
      refine ⟨(ih m _).1, ?_⟩
      rw [(ih m _).2]
      simp [enqRows, henq]
    next henq =>
    refine ⟨(ih _ fidl).1.trans (rows_setLock ..), ?_⟩
    rw [(ih _ fidl).2]
    simp [enqRows, henq]

theorem insertPending_eq_some {fidl : List Nat} {pending : List (Xid × List Nat)}
    (h : j.insertPending xid fidl = some pending) :
    j.txnPendingMap.lookup xid = none ∧ pending = (xid, fidl) :: j.txnPendingMap := by
  unfold Journal.insertPending at h
  split at h
  · cases h
  · next hnone => exact ⟨not_isSome_iff_eq_none.1 hnone, (Option.some.inj h).symm⟩

theorem Accounted.ops_end (h : Accounted j) (xid x : Xid) :
    Function.update (ledger j.toks).ops xid [] x =
      ((j.tmap.getRemoveTdataList xid).2.getTdataList x).map op := by
  rw [TxnMap.getTdataList_getRemoveTdataList]
  by_cases hx : x = xid
  · subst hx
    simp
  · simp [hx, h.ops]

include h htoks h₀ in
/-- An abort removes the records of its transaction. -/
theorem Accounted.encoded_txa (ht : t.wstate = .subm) (hr : t.record = .txa rid xid) (hj : j.encoded t = some j') :
    Accounted { j' with toks := pre ++ [t] } := by
  simp only [Journal.encoded, hr] at hj
  obtain ⟨pending, hpen, rfl⟩ := map_eq_some_iff.1 hj
  obtain ⟨hrows, hfidl⟩ := abortOps_spec (j.tmap.getRemoveTdataList xid).1 j.emap []
  obtain ⟨hnone, rfl⟩ := insertPending_eq_some hpen
  have hl : (ledger j.toks).write pre.length t =
      { entries := relocate (.inTxn xid) (.removedBy pre.length) (ledger j.toks).entries
        ops := Function.update (ledger j.toks).ops xid [] } := by
    simp [write, hr, relocate]
  refine h.written htoks h₀ ht rfl hl
    (h.files_encode htoks h₀ ht (funext (heldIn_relocate rfl (not_settled_last ht)))) ?_ ?_ (h.ops_end xid)
    (fun x => ?_) ?_ (fun k hk => ?_) (.inr ⟨xid, _, by rw [hr]; rfl, hnone, rfl⟩)
  · rw [← map_fst_rows, hrows, map_fst_rows]
    exact h.nodup
  · rw [hrows, rowsAt_relocate_ne (by simp) (by simp)]
    exact h.emap
  · rw [TxnMap.getTdataList_getRemoveTdataList]
    by_cases hx : x = xid
    · subst hx
      rw [rowsAt_relocate_from (by simp), if_pos rfl]
      rfl
    · rw [rowsAt_relocate_ne (by simpa using hx) (by simp), if_neg hx]
      exact h.tmap x
  · rw [rowsAt_relocate_to fun e he => h.not_removedBy_last htoks h₀ he, h.tmap]
    simp only [removal, hr, Assoc.lookup_cons_self, getD_some, hfidl, nil_append]
    exact .refl _
  · exact rowsAt_relocate_ne (by simp) (by simpa using hk)

/-- The loop of `commit`. What it finds in the enqueue map and in the transaction map is what
the ledger has, and the records that it removes are those of the files it finds. -/
theorem commitOps_spec {k : Nat} {tdl : List TxnData} {m' : EnqMap} {fidl fidl' : List Nat}
    (hc : commitOps tdl m fidl = some (m', fidl')) (hm : (m.map Prod.fst).Nodup)
    (hes : (rowsAt .enqueued es).Perm m.rows) (htx : rowsAt (.inTxn xid) es = enqRows tdl)
    (hrem : ((rowsAt (.removedBy k) es).map Prod.snd).Perm fidl) :
    (m'.map Prod.fst).Nodup ∧
      (rowsAt .enqueued ((tdl.map op).foldl (commitOp k xid) es)).Perm m'.rows ∧
      rowsAt (.inTxn xid) ((tdl.map op).foldl (commitOp k xid) es) = [] ∧
      ((rowsAt (.removedBy k) ((tdl.map op).foldl (commitOp k xid) es)).map Prod.snd).Perm fidl' ∧
      (∀ p, p ≠ .enqueued → p ≠ .inTxn xid → p ≠ .removedBy k →
        rowsAt p ((tdl.map op).foldl (commitOp k xid) es) = rowsAt p es) ∧
      ∀ toks, (Place.removedBy k).Settled toks = false →
        heldIn toks ((tdl.map op).foldl (commitOp k xid) es) = heldIn toks es := by
  induction tdl generalizing m fidl es with
  | nil =>
    obtain ⟨rfl, rfl⟩ := Prod.mk.inj (Option.some.inj hc)
    exact ⟨hm, hes, htx, hrem, fun _ _ _ _ => rfl, fun _ _ => rfl⟩
  | cons td tdl ih =>
    rw [commitOps] at hc
    rw [map_cons, foldl_cons]
    split at hc
    · next henq =>
      obtain ⟨m1, hm1, hc⟩ := bind_eq_some_iff.1 hc
      obtain ⟨hnone, rfl⟩ := insertPfid_eq_some hm1
      have hop : commitOp k xid es td.op = moveFirst td.rid (.inTxn xid) .enqueued es := by
        simp [commitOp, op, henq]
      have htd : enqRows (td :: tdl) = (td.rid, td.pfid) :: enqRows tdl := by
        simp [enqRows, henq]
      rw [hop]
      rw [htd] at htx
      obtain ⟨henqu, hin⟩ := rowsAt_inTxn_enqueue htx hes
      obtain ⟨h1, h2, h3, h4, h5, h6⟩ := ih hc
        (nodup_cons.2 ⟨notMem_of_lookup_eq_none hnone, hm⟩) henqu hin
        (by rwa [rowsAt_moveFirst_ne (by simp) (by simp)])
      refine ⟨h1, h2, h3, h4, fun p hp hp' hp'' => ?_, fun toks htoks => ?_⟩
      · rw [h5 p hp hp' hp'', rowsAt_moveFirst_ne hp' hp]
      · rw [h6 toks htoks]
        exact funext (heldIn_moveFirst rfl rfl)
    next henq =>
    split at hc
    swap
    · cases hc
    next fid m1 hre =>
    obtain ⟨d, hd, rfl, rfl⟩ := getRemovePfid_eq_ok hre
    have hop : commitOp k xid es td.op = moveFirst td.drid .enqueued (.removedBy k) es := by
      simp [commitOp, op, henq]
    have htd : enqRows (td :: tdl) = enqRows tdl := by
      simp [enqRows, henq]
    rw [hop]
    rw [htd] at htx
    obtain ⟨hrows, hremo⟩ := rowsAt_enqueued_remove hm hes hd k
    obtain ⟨h1, h2, h3, h4, h5, h6⟩ := ih hc (nodup_filter hm td.drid) hrows
      (by rwa [rowsAt_moveFirst_ne (by simp) (by simp)])
      ((hremo.map Prod.snd).trans ((hrem.cons d.pfid).trans (perm_append_singleton d.pfid fidl).symm))
    refine ⟨h1, h2, h3, h4, fun p hp hp' hp'' => ?_, fun toks htoks => ?_⟩
    · rw [h5 p hp hp' hp'', rowsAt_moveFirst_ne hp hp'']
    · rw [h6 toks htoks]
      exact funext (heldIn_moveFirst rfl htoks)

include h htoks h₀

/-- A commit moves its enqueues, and does its dequeues, in their order. -/
theorem Accounted.encoded_txc (ht : t.wstate = .subm) (hr : t.record = .txc rid xid) (hj : j.encoded t = some j') :
    Accounted { j' with toks := pre ++ [t] } := by
  simp only [Journal.encoded, hr] at hj
  obtain ⟨⟨emap, fidl⟩, hops, hj⟩ := bind_eq_some_iff.1 hj
  obtain ⟨pending, hpen, rfl⟩ := map_eq_some_iff.1 hj
  obtain ⟨hnone, rfl⟩ := insertPending_eq_some hpen
  have hlast : ((rowsAt (.removedBy pre.length) (ledger j.toks).entries).map Prod.snd).Perm [] := by
    rw [h.rowsAt_last htoks h₀]
    exact .refl _
  have hl : (ledger j.toks).write pre.length t =
      { entries := ((j.tmap.getRemoveTdataList xid).1.map op).foldl (commitOp pre.length xid)
          (ledger j.toks).entries
        ops := Function.update (ledger j.toks).ops xid [] } := by
    simp [write, hr, h.ops, TxnMap.getRemoveTdataList]
  obtain ⟨hnodup, henq, htx, hrem, hrest, hheld⟩ := commitOps_spec hops h.nodup h.emap (h.tmap xid) hlast
  refine h.written htoks h₀ ht rfl hl (h.files_encode htoks h₀ ht (hheld _ (not_settled_last ht))) hnodup henq
    (h.ops_end xid) (fun x => ?_) ?_ (fun k hk => ?_) (.inr ⟨xid, _, by rw [hr]; rfl, hnone, rfl⟩)
  · rw [TxnMap.getTdataList_getRemoveTdataList]
    by_cases hx : x = xid
    · subst hx
      rw [if_pos rfl]
      exact htx
    · rw [if_neg hx, hrest _ (by simp) (by simpa using hx) (by simp)]
      exact h.tmap x
  · simp only [removal, hr, Assoc.lookup_cons_self]
    exact hrem
  · exact hrest _ (by simp) (by simp) (by simpa using hk)

omit h htoks h₀ in
theorem toks_encoded (hj : j.encoded t = some j') : j'.toks = j.toks := by
  unfold Journal.encoded at hj
  split at hj
  · obtain ⟨lfc, -, hj⟩ := bind_eq_some_iff.1 hj
    split at hj
    · obtain ⟨emap, -, rfl⟩ := map_eq_some_iff.1 hj
      rfl
    · cases hj
      rfl
  · split at hj
    · split at hj
      · cases hj
        rfl
      · cases hj
    · cases hj
      rfl
  · obtain ⟨pending, -, rfl⟩ := map_eq_some_iff.1 hj
    rfl
  · obtain ⟨r, -, hj⟩ := bind_eq_some_iff.1 hj
    obtain ⟨pending, -, rfl⟩ := map_eq_some_iff.1 hj
    rfl

/-- What the file of a token has to be when its record is encoded: that of the record that is
dequeued, and a number of sixteen bits for an enqueue in a transaction. -/
def FileKnown (j : Journal) : Rec → Nat → Prop
  | .enq _ xid _ _, fid => xid.isEmpty = false → fid < 2 ^ 16
  | .deq _ drid xid _, fid => xid.isEmpty = true → j.emap.getPfid drid = .ok fid
  | _, _ => True

/-- Encoding a record accounts for it, whatever it is. -/
theorem Accounted.encodeTok
    (hfid : FileKnown j t.record t.fid) (hj : j.encodeTok pre.length t = some j') : Accounted j' := by
  obtain ⟨j1, hj1, rfl⟩ := map_eq_some_iff.1 hj
  have henc : j.encoded { t with wstate := .subm } = some j1 := hj1
  have hset : j1.toks.set pre.length { t with wstate := .subm } = pre ++ [{ t with wstate := .subm }] := by
    have hsame : j1.toks = j.toks := toks_encoded hj1
    rw [hsame, htoks]
    simp
  rw [hset]
  cases hr : t.record with
  | enq rid xid data transient =>
    rw [hr] at hfid henc
    exact h.encoded_enq htoks h₀ rfl rfl hfid henc
  | deq rid drid xid commit =>
    rw [hr] at hfid henc
    exact h.encoded_deq htoks h₀ rfl rfl hfid henc
  | txa rid xid =>
    rw [hr] at henc
    exact h.encoded_txa htoks h₀ rfl rfl henc
  | txc rid xid =>
    rw [hr] at henc
    exact h.encoded_txc htoks h₀ rfl rfl henc

end encode

/-! ## A record is completed -/

/-- A completion gives back the files of what the record removed. -/
theorem heldIn_complete {toks : List DataTok} {k : Nat} {t' : DataTok} (ht : toks[k]? = some t)
    (hw : t.wstate = .subm) (hw' : t'.wstate = .compl) (es : List Entry) (f : Nat) :
    heldIn toks es f = heldIn (toks.set k t') es f + ((rowsAt (.removedBy k) es).map Prod.snd).count f := by
  have hset (p : Place) : p.Settled (toks.set k t') = if p = .removedBy k then true else p.Settled toks := by
    cases p with
    | enqueued => rfl
    | inTxn x => rfl
    | removedBy i =>
      rw [settled_removedBy, settled_removedBy, view_set ht]
      by_cases hi : i = k
      · simp [hi, Encoded, hw']
      · simp [hi]
  have hk : (Place.removedBy k).Settled toks = false := by
    simp [Place.Settled, ht, hw]
  unfold heldIn
  induction es with
  | nil => rfl
  | cons e es ih =>
    rw [countP_cons, countP_cons, ih, rowsAt_cons, hset]
    by_cases hp : e.place = .removedBy k
    · by_cases hf : e.start = f
      · simp [hp, hf, hk]
        omega
      · simp [hp, hf]
    · simp [hp]
      omega

section complete

variable {k : Nat} {t u : DataTok}

theorem Accounted.settled (h : Accounted j) (ht : j.toks[k]? = some t) (hw : t.wstate = .subm)
    (hr : u.record = t.record) (hf : u.fid = t.fid) (hw' : u.wstate = .compl)
    (htoks : j'.toks = j.toks.set k u) (files : Files (heldIn j'.toks (ledger j.toks).entries) j'.lfc)
    (hemap : j'.emap = j.emap) (htmap : j.tmap.Marked j'.tmap)
    (hp : (t.record.ends = none ∧ j'.txnPendingMap = j.txnPendingMap) ∨
      ∃ x, t.record.ends = some x ∧ j'.txnPendingMap = j.txnPendingMap.filter (·.1 ≠ x)) : Accounted j' := by
  have henc : Encoded t = true := encoded_of_subm hw
  have henc' : Encoded u = true := by simp [Encoded, hw']
  have hled : ledger j'.toks = ledger j.toks := by
    rw [htoks, ledger_set ht ⟨henc.trans henc'.symm, fun _ => ⟨hr.symm, hf.symm⟩⟩]
  have hview (i : Nat) : view j'.toks i =
      if i = k then some (t.record, t.fid, .compl) else view j.toks i := by
    rw [htoks, view_set ht]
    simp [henc', hr, hf, hw']
  have hviewk : view j.toks k = some (t.record, t.fid, .subm) := by
    simp [view, ht, henc, hw]
  have hsubm (i : Nat) (r : Rec) (fid : Nat) :
      view j'.toks i = some (r, fid, .subm) ↔ i ≠ k ∧ view j.toks i = some (r, fid, .subm) := by
    rw [hview]
    by_cases hi : i = k
    · simp [hi]
    · simp [hi]
  have hloo (x : Xid) (hx : t.record.ends ≠ some x) :
      j'.txnPendingMap.lookup x = j.txnPendingMap.lookup x := by
    rcases hp with ⟨-, hp⟩ | ⟨y, hy, hp⟩
    · rw [hp]
    · have hxy : x ≠ y := fun hxy => hx (by rw [hy, hxy])
      rw [hp, Assoc.lookup_filter_ne, if_neg hxy]
  -- another end of the same transaction is on disk
  have hother (i : Nat) (r : Rec) (fid : Nat) (hv : view j.toks i = some (r, fid, .subm)) (hi : i ≠ k)
      (x : Xid) (hx : r.ends = some x) : t.record.ends ≠ some x := fun hx' =>
    hi (h.unique i k r t.record fid t.fid hv hviewk (by simp [hx]) (hx.trans hx'.symm))
  refine ⟨by rwa [hled], by rw [hemap]; exact h.nodup, by rw [hled, hemap]; exact h.emap,
    fun x => by rw [hled, htmap.map op (fun _ => rfl), h.ops],
    fun x => by rw [hled, htmap.enqRows, h.tmap], ?_, ?_, ?_, ?_⟩
  · intro i r fid hv
    obtain ⟨hi, hv⟩ := (hsubm i r fid).1 hv
    rw [hled]
    rw [removal_congr fun x hx => hloo x (hother i r fid hv hi x hx)]
    exact h.removing i r fid hv
  · intro e he i hi
    rw [hled] at he
    rw [hview]
    split
    · rfl
    · exact h.placed e he i hi
  · intro x
    by_cases hx : t.record.ends = some x
    · have hnone : j'.txnPendingMap.lookup x = none := by
        rcases hp with ⟨hnone, -⟩ | ⟨y, hy, hp⟩
        · rw [hnone] at hx
          cases hx
        · cases hy.symm.trans hx
          rw [hp, Assoc.lookup_filter_ne, if_pos rfl]
      rw [hnone]
      refine iff_of_false (by simp) ?_
      rintro ⟨i, r, fid, hv, hr⟩
      obtain ⟨hi, hv⟩ := (hsubm i r fid).1 hv
      exact hother i r fid hv hi x hr hx
    rw [hloo x hx, h.pending]
    refine exists_congr fun i => exists_congr fun r => exists_congr fun fid => ?_
    rw [hsubm]
    refine ⟨fun hv => ⟨⟨fun hi => ?_, hv.1⟩, hv.2⟩, fun hv => ⟨hv.1.2, hv.2⟩⟩
    obtain ⟨hv, hr⟩ := hv
    subst hi
    rw [hviewk] at hv
    cases hv
    exact hx hr
  · intro i i' r r' fid fid' hv hv'
    exact h.unique i i' r r' fid fid' ((hsubm i r fid).1 hv).2 ((hsubm i' r' fid').1 hv').2

/-- A completion can be dealt with, and leaves the journal accounted for. -/
theorem Accounted.completed (h : Accounted j) (ht : j.toks[k]? = some t) (hw : t.wstate = .subm)
    (hr : u.record = t.record) (hf : u.fid = t.fid) (hw' : u.wstate = .compl) :
    ∃ j', j.completed t = some j' ∧ Accounted { j' with toks := j.toks.set k u } := by
  have hviewk : view j.toks k = some (t.record, t.fid, .subm) := by
    simp [view, ht, encoded_of_subm hw, hw]
  have hfiles : Files (fun f => heldIn (j.toks.set k u) (ledger j.toks).entries f +
      (removal j.txnPendingMap t.record t.fid).count f) j.lfc := by
    have hcount : (fun f => heldIn (j.toks.set k u) (ledger j.toks).entries f +
        (removal j.txnPendingMap t.record t.fid).count f) = heldIn j.toks (ledger j.toks).entries := by
      funext f
      rw [heldIn_complete ht hw hw', (h.removing k t.record t.fid hviewk).count_eq]
    rw [hcount]
    exact h.files
  have hends (x : Xid) (hx : t.record.ends = some x)
      (hrem : removal j.txnPendingMap t.record t.fid = (j.txnPendingMap.lookup x).getD []) :
      ∃ j', ((j.txnPendingMap.lookup x).bind fun fidl => (Journal.decrAll fidl j.lfc).map fun lfc =>
          { j with lfc, txnPendingMap := j.txnPendingMap.filter (·.1 ≠ x) }) = some j' ∧
        Accounted { j' with toks := j.toks.set k u } := by
    obtain ⟨fidl, hfidl⟩ := isSome_iff_exists.1 ((h.pending x).2 ⟨k, t.record, t.fid, hviewk, hx⟩)
    rw [hrem, hfidl, getD_some] at hfiles
    obtain ⟨lfc, hlfc, hfiles⟩ := hfiles.decrAll
    rw [hfidl, bind_some, hlfc]
    exact ⟨_, rfl, h.settled ht hw hr hf hw' rfl hfiles rfl (.refl _) (.inr ⟨x, hx, rfl⟩)⟩
  cases hrec : t.record with
  | enq rid xid data transient =>
    have hnone : t.record.ends = none := by rw [hrec]; rfl
    simp only [hrec] at hfiles
    simp only [Journal.completed, hrec, Option.some.injEq, exists_eq_left']
    refine h.settled ht hw hr hf hw' rfl hfiles rfl ?_ (.inl ⟨hnone, rfl⟩)
    split
    · exact .refl _
    · exact .setAioCompl _ _ _
  | deq rid drid xid commit =>
    have hnone : t.record.ends = none := by rw [hrec]; rfl
    simp only [hrec, removal] at hfiles
    simp only [Journal.completed, hrec]
    by_cases hx : xid.isEmpty
    · simp only [hx, if_true, count_singleton, beq_iff_eq, eq_comm (a := t.fid)] at hfiles
      obtain ⟨lfc, hlfc, hfiles⟩ := hfiles.decrEnqueuedRecordCount
      rw [if_pos hx, hlfc]
      exact ⟨_, rfl, h.settled ht hw hr hf hw' rfl hfiles rfl (.refl _) (.inl ⟨hnone, rfl⟩)⟩
    · simp only [hx] at hfiles
      rw [if_neg hx]
      exact ⟨_, rfl, h.settled ht hw hr hf hw' rfl hfiles rfl (.setAioCompl _ _ _) (.inl ⟨hnone, rfl⟩)⟩
  | txa rid xid =>
    simp only [Journal.completed, hrec]
    exact hends xid (by rw [hrec]; rfl) (by rw [hrec]; rfl)
  | txc rid xid =>
    simp only [Journal.completed, hrec]
    exact hends xid (by rw [hrec]; rfl) (by rw [hrec]; rfl)

theorem completed_eq_some (hj : j.completed t = some j') : j'.toks = j.toks ∧ j'.emap = j.emap := by
  unfold Journal.completed at hj
  split at hj
  · cases hj
    exact ⟨rfl, rfl⟩
  · split at hj
    · obtain ⟨lfc, -, rfl⟩ := map_eq_some_iff.1 hj
      exact ⟨rfl, rfl⟩
    · cases hj
      exact ⟨rfl, rfl⟩
  all_goals
    obtain ⟨fidl, -, hj⟩ := bind_eq_some_iff.1 hj
    obtain ⟨lfc, -, rfl⟩ := map_eq_some_iff.1 hj
    exact ⟨rfl, rfl⟩

theorem Accounted.completeTok_last (h : Accounted j) (ht : j.toks[k]? = some t) (hw : t.wstate = .subm)
    (hp : t.pgCnt = 1) : ∃ j', j.completeTok k = some j' ∧ Accounted j' := by
  obtain ⟨j1, hj1, h1⟩ := h.completed (u := { t with pgCnt := t.pgCnt - 1, wstate := .compl }) ht hw rfl rfl rfl
  have htok : j.completed { t with pgCnt := t.pgCnt - 1 } = some j1 := hj1
  refine ⟨_, ?_, h1⟩
  rw [← (completed_eq_some hj1).1, Journal.completeTok, ht, bind_some, if_neg (by omega)]
  simp only [hp, if_true, hw] at htok ⊢
  rw [htok, map_some]

theorem Accounted.completeTok (h : Accounted j) (hj : j.completeTok k = some j') : Accounted j' := by
  obtain ⟨t, ht, hj'⟩ := bind_eq_some_iff.1 hj
  simp only at hj'
  split at hj'
  · cases hj'
  split at hj'
  swap
  · cases hj'
    exact h.setTok ht ⟨rfl, fun _ => ⟨rfl, rfl⟩⟩ fun _ => rfl
  split at hj'
  · next hw =>
    obtain ⟨j1, hj1, h1⟩ := h.completeTok_last ht hw (by omega)
    cases hj1.symm.trans hj
    exact h1
  · cases hj'
    exact h.setTok ht ⟨rfl, fun _ => ⟨rfl, rfl⟩⟩ fun _ => rfl
  · cases hj'

end complete

end QB.Impl.Linear
