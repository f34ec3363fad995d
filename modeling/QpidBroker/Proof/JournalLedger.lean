import QpidBroker.Spec.JournalLedger

/-!
# The ledger of a journal

What one more record changes in the ledger: which records are at each place (`rowsAt`), and
how many of those that are held start in each file (`heldIn`). Of the tokens only those that
are encoded matter (`view`).
-/

namespace QB.Spec.Linear

open QB.Impl.Linear List

/-- The number of the records held that start in a file. -/
def heldIn (toks : List DataTok) (es : List Entry) (f : Nat) : Nat :=
  es.countP fun e => e.start = f && !e.place.Settled toks

/-- The records held, counted by the file they start in. -/
theorem countP_held (toks : List DataTok) (f : Nat) :
    (held toks).countP (·.start = f) = heldIn toks (ledger toks).entries f := by
  rw [held, heldIn, countP_filter]

section rows

variable {p q r : Place} {es es' : List Entry} {rid : Nat}

@[simp] theorem rowsAt_nil (p : Place) : rowsAt p [] = [] := rfl

theorem rowsAt_append (p : Place) (es es' : List Entry) : rowsAt p (es ++ es') = rowsAt p es ++ rowsAt p es' := by
  simp [rowsAt]

theorem rowsAt_cons (p : Place) (e : Entry) (es : List Entry) :
    rowsAt p (e :: es) = if e.place = p then (e.rid, e.start) :: rowsAt p es else rowsAt p es := by
  unfold rowsAt
  by_cases h : e.place = p <;> simp [h]

theorem mem_rowsAt {x : Nat × Nat} : x ∈ rowsAt p es ↔ ∃ e ∈ es, e.place = p ∧ (e.rid, e.start) = x := by
  simp [rowsAt, and_assoc]

/-- The first record of the id at the place is moved. -/
theorem moveFirst_of_mem (h : ∃ e ∈ es, e.rid = rid ∧ e.place = p) (q : Place) :
    ∃ a e b, es = a ++ e :: b ∧ e.rid = rid ∧ e.place = p ∧ (∀ x ∈ a, ¬(x.rid = rid ∧ x.place = p)) ∧
      moveFirst rid p q es = a ++ { e with place := q } :: b := by
  induction es with
  | nil => simp at h
  | cons x es ih =>
    by_cases hx : x.rid = rid ∧ x.place = p
    · exact ⟨[], x, es, rfl, hx.1, hx.2, by simp, by simp [moveFirst, hx]⟩
    obtain ⟨e, he, hep⟩ := h
    have he' : e ∈ es := by
      rcases mem_cons.1 he with rfl | he
      · exact absurd hep hx
      · exact he
    obtain ⟨a, y, b, rfl, hr, hp, ha, hm⟩ := ih ⟨e, he', hep⟩
    refine ⟨x :: a, y, b, rfl, hr, hp, fun z hz => ?_, by rw [moveFirst, if_neg hx, hm]; rfl⟩
    rcases mem_cons.1 hz with rfl | hz
    · exact hx
    · exact ha z hz

theorem rowsAt_moveFirst_ne (hp : r ≠ p) (hq : r ≠ q) : rowsAt r (moveFirst rid p q es) = rowsAt r es := by
  induction es with
  | nil => rfl
  | cons e es ih =>
    rw [moveFirst]
    split
    · next h => simp [rowsAt_cons, h.2, Ne.symm hp, Ne.symm hq]
    · simp [rowsAt_cons, ih]

variable {toks : List DataTok}

/-- A move that settles nothing keeps the counts. -/
theorem heldIn_moveFirst (hp : p.Settled toks = false) (hq : q.Settled toks = false) (f : Nat) :
    heldIn toks (moveFirst rid p q es) f = heldIn toks es f := by
  unfold heldIn
  induction es with
  | nil => rfl
  | cons e es ih =>
    rw [moveFirst]
    split
    · next h => simp [countP_cons, h.2, hp, hq]
    · rw [countP_cons, countP_cons, ih]

theorem heldIn_append (toks : List DataTok) (es es' : List Entry) (f : Nat) :
    heldIn toks (es ++ es') f = heldIn toks es f + heldIn toks es' f := by
  simp [heldIn]

theorem heldIn_congr {toks' : List DataTok} (h : ∀ e ∈ es, e.place.Settled toks' = e.place.Settled toks)
    (f : Nat) : heldIn toks' es f = heldIn toks es f := by
  refine countP_congr fun e he => ?_
  rw [h e he]

/-- All the records of one place are put at another. -/
def relocate (p q : Place) (es : List Entry) : List Entry :=
  es.map fun e => if e.place = p then { e with place := q } else e

theorem relocate_cons (p q : Place) (e : Entry) (es : List Entry) :
    relocate p q (e :: es) = (if e.place = p then { e with place := q } else e) :: relocate p q es := rfl

/-- Other places are not affected by a move from `p` to `q`. -/
theorem rowsAt_relocate_ne (hp : r ≠ p) (hq : r ≠ q) : rowsAt r (relocate p q es) = rowsAt r es := by
  induction es with
  | nil => rfl
  | cons e es ih =>
    rw [relocate_cons, rowsAt_cons, rowsAt_cons, ih]
    by_cases h : e.place = p
    · simp [h, Ne.symm hp, Ne.symm hq]
    · simp [h]

theorem rowsAt_relocate_from (hpq : p ≠ q) : rowsAt p (relocate p q es) = [] := by
  induction es with
  | nil => rfl
  | cons e es ih =>
    rw [relocate_cons, rowsAt_cons, ih]
    by_cases h : e.place = p
    · simp [h, Ne.symm hpq]
    · simp [h]

/-- What is moved to an empty place is all of it. -/
theorem rowsAt_relocate_to (h : ∀ e ∈ es, e.place ≠ q) : rowsAt q (relocate p q es) = rowsAt p es := by
  induction es with
  | nil => rfl
  | cons e es ih =>
    rw [relocate_cons, rowsAt_cons, rowsAt_cons, ih fun x hx => h x (mem_cons_of_mem _ hx)]
    by_cases hp : e.place = p
    · simp [hp]
    · simp [hp, h e (mem_cons_self ..)]

theorem heldIn_relocate (hp : p.Settled toks = false) (hq : q.Settled toks = false) (f : Nat) :
    heldIn toks (relocate p q es) f = heldIn toks es f := by
  unfold heldIn
  induction es with
  | nil => rfl
  | cons e es ih =>
    rw [relocate_cons, countP_cons, countP_cons, ih]
    by_cases h : e.place = p
    · simp [h, hp, hq]
    · simp [h]

end rows

/-! ## Tokens -/

/-- The record, the file and the state of a token that is encoded. -/
def view (toks : List DataTok) (k : Nat) : Option (Rec × Nat × WriteState) :=
  (toks[k]?).bind fun t => if Encoded t then some (t.record, t.fid, t.wstate) else none

theorem settled_removedBy (toks : List DataTok) (k : Nat) :
    (Place.removedBy k).Settled toks = (view toks k).any (·.2.2 = .compl) := by
  simp only [Place.Settled, view]
  cases h : toks[k]? with
  | none => rfl
  | some t => cases hw : t.wstate <;> simp [Encoded, hw]

variable {toks : List DataTok} {k : Nat} {t : DataTok}

theorem settled_congr {toks' : List DataTok} (h : ∀ k, view toks' k = view toks k) (p : Place) :
    p.Settled toks' = p.Settled toks := by
  cases p with
  | removedBy k => rw [settled_removedBy, settled_removedBy, h]
  | enqueued => rfl
  | inTxn x => rfl

/-- Only a token that is encoded adds to the ledger. -/
theorem ledger_append (toks : List DataTok) (t : DataTok) :
    ledger (toks ++ [t]) = if Encoded t then (ledger toks).write toks.length t else ledger toks := by
  simp [ledger, zipIdx_append]

/-- Two tokens that are not encoded, or have the same record and file. -/
def Alike (t t' : DataTok) : Prop := Encoded t = Encoded t' ∧ (Encoded t → t.record = t'.record ∧ t.fid = t'.fid)

theorem Ledger.write_congr {l : Ledger} {t' : DataTok} (hr : t.record = t'.record) (hf : t.fid = t'.fid) :
    l.write k t = l.write k t' := by
  simp [Ledger.write, hr, hf]

theorem split_of_getElem? (h : toks[k]? = some t) : ∃ pre post, toks = pre ++ t :: post ∧ pre.length = k := by
  obtain ⟨hk, rfl⟩ := List.getElem?_eq_some_iff.1 h
  exact ⟨toks.take k, toks.drop (k + 1), by simp, by simp [Nat.le_of_lt hk]⟩

/-- A change of a token that keeps what was encoded. -/
theorem ledger_set {t' : DataTok} (h : toks[k]? = some t) (ha : Alike t t') :
    ledger (toks.set k t') = ledger toks := by
  obtain ⟨pre, post, rfl, rfl⟩ := split_of_getElem? h
  have hstep : ∀ l : Ledger, (if Encoded t' then l.write pre.length t' else l) =
      if Encoded t then l.write pre.length t else l := by
    intro l
    rw [← ha.1]
    split
    · next he => exact Ledger.write_congr (ha.2 he).1.symm (ha.2 he).2.symm
    · rfl
  simp [ledger, zipIdx_append, hstep]

theorem view_set (h : toks[k]? = some t) (t' : DataTok) (i : Nat) : view (toks.set k t') i =
      if i = k then if Encoded t' then some (t'.record, t'.fid, t'.wstate) else none else view toks i := by
  obtain ⟨hk, -⟩ := List.getElem?_eq_some_iff.1 h
  unfold view
  by_cases hi : i = k
  · subst hi
    rw [getElem?_set_self hk]
    simp
  · rw [getElem?_set_ne (Ne.symm hi), if_neg hi]

end QB.Spec.Linear
