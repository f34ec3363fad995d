import QpidBroker.Proof.PagedRoom

/-!
# A paged queue and its ledger

Along a run in which the messages of a page have consecutive numbers, the ledger holds the
messages on the pages that are not deleted (`Kept.step`). `find` also returns those that are deleted, so
it finds exactly what is held if there are none (`Kept.findsExactly_iff`), and a message
after a gap is not found on its page at all (`found_after_gap`).
-/

namespace QB.Impl.PagedQueue

open Serial Spec LastValue Page List

variable {q q' : PagedQueue} {p : SequenceNumber} {added : Message} {encoded : Nat}

/-! ## `next` and `find` only load pages -/

theorem Same.trans {q1 q2 q3 : PagedQueue} (h : Same q1 q2) (h' : Same q2 q3) : Same q1 q3 :=
  ⟨h'.wf, h'.view.trans h.view, h'.free.trans h.free, h'.version.trans h.version, h'.pageSize.trans h.pageSize,
    h'.name.trans h.name⟩

theorem Same.assert (h : Same q q') (holds : Bool) : Same q (q'.assert holds) :=
  ⟨⟨h.wf.pages, h.wf.order, h.wf.free⟩, h.view, h.free, h.version, h.pageSize, h.name⟩

theorem Wf.findPage (h : q.Wf) (n : SequenceNumber) : Same q (q.findPage n true).2 := by
  unfold PagedQueue.findPage
  split
  · exact Same.refl h
  · exact (h.require _).1

theorem Wf.nextLoop (h : q.Wf) (n i : Nat) (c : QueueCursor) : Same q (nextLoop n i q c).2.2 := by
  induction n generalizing q i c with
  | zero => exact Same.refl h
  | succ n ih =>
    have hsame := (h.require i).1
    rw [PagedQueue.nextLoop]
    cases (q.require i).used[i]? with
    | none => exact hsame
    | some e =>
      rcases hnext : e.2.next (q.require i).version c with ⟨_ | k, c'⟩
      · simp only [hnext]
        exact hsame.trans (ih hsame.wf _ _)
      · simp only [hnext]
        exact hsame

theorem Wf.next (h : q.Wf) (c : QueueCursor) : Same q (q.next c).2.2 := by
  unfold PagedQueue.next
  split
  swap
  · exact h.nextLoop _ _ _
  have hsame := h.findPage (c.position + 1)
  rcases hpage : q.findPage (c.position + 1) true with ⟨_ | i, q1⟩
  · rw [hpage] at hsame
    simp only [hpage]
    split
    · exact hsame.trans (hsame.wf.nextLoop _ _ _)
    · exact hsame
  · rw [hpage] at hsame
    simp only [hpage]
    exact hsame.trans (hsame.wf.nextLoop _ _ _)

theorem Wf.find (h : q.Wf) (p : SequenceNumber) (c : Option QueueCursor) : Same q (q.find p c).2.2 := by
  have hsame := h.findPage p
  unfold PagedQueue.find
  rcases hpage : q.findPage p true with ⟨_ | i, q1⟩ <;> rw [hpage] at hsame
  · exact hsame
  · exact hsame.assert _

/-! ## Each message has a number of its own -/

theorem Wf.eq_of_sequence (h : q.Wf) {m m' : Message} (hm : m ∈ all q.view) (hm' : m' ∈ all q.view)
    (hs : m.sequence = m'.sequence) : m = m' := by
  obtain ⟨i, P, hi, hmP⟩ := exists_page_of_mem hm
  obtain ⟨j, P', hj, hmP'⟩ := exists_page_of_mem hm'
  have hplace := placeOf_of_mem h.order h.within hi hmP
  rw [hs, placeOf_of_mem h.order h.within hj hmP'] at hplace
  cases hplace
  cases hi.symm.trans hj
  rw [view, viewOf, getElem?_map] at hi
  obtain ⟨e, he, rfl⟩ := Option.map_eq_some_iff.1 hi
  exact (h.pages e (mem_of_getElem? he)).eq_of_sequence hmP hmP' hs

theorem Wf.found_eq (h : q.Wf) (p : SequenceNumber) :
    (q.found p).map content = ((all q.view).find? fun m => m.sequence = p).map content := by
  cases hx : (all q.view).find? fun m => m.sequence = p with
  | some m =>
    have hs : m.sequence = p := by simpa using find?_some hx
    have hm := h.found_iff.2 ⟨mem_of_find?_eq_some hx, hs⟩
    obtain ⟨x, hfound, rfl⟩ := Option.map_eq_some_iff.1 hm
    rw [hfound]
    rfl
  | none =>
    cases hf : q.found p with
    | none => rfl
    | some x =>
      have hmem := (h.found_iff).1 (by rw [hf]; rfl)
      exact absurd (decide_eq_true hmem.2) (find?_eq_none.1 hx _ hmem.1)

end QB.Impl.PagedQueue

namespace QB.Spec.Paged

open Impl PagedQueue Page LastValue Serial
open List hiding all
open Option hiding mem_map filter_map map_map map_id filter_filter forall_mem_map mem_map_of_mem

variable {s t : PagedQueue × Ledger} {p : SequenceNumber}

/-- The ledger holds what is on the pages and not deleted. -/
structure Kept (s : PagedQueue × Ledger) : Prop where
  wf : s.1.Wf
  ledger : s.2.map content = ((all s.1.view).filter fun m => m.state ≠ .deleted).map content

theorem lookup_content (l : List Message) (p : SequenceNumber) :
    (Ledger.lookup l p).map content = (l.map content).find? fun c => c.2 = p := by
  rw [find?_map]
  rfl

/-- Where no lookup trips an assertion. -/
theorem Kept.findsExactly_iff (h : Kept s) (hstand : ∀ p, (s.1.find p none).2.2.aborted = false) :
    FindsExactly s ↔ ∀ m ∈ all s.1.view, m.state ≠ .deleted := by
  constructor
  · intro hf m hm hstate
    have hfound := (hf m.sequence).2
    rw [h.wf.found_eq, lookup_content, h.ledger, ← lookup_content] at hfound
    cases hx : (all s.1.view).find? fun x => x.sequence = m.sequence with
    | none => exact absurd (decide_eq_true rfl) (find?_eq_none.1 hx m hm)
    | some x =>
      rw [hx] at hfound
      obtain ⟨y, hy, -⟩ := map_eq_some_iff.1 hfound.symm
      obtain ⟨hymem, hyst⟩ := mem_filter.1 (mem_of_find?_eq_some hy)
      have hys : y.sequence = m.sequence := by simpa using find?_some hy
      rw [h.wf.eq_of_sequence hymem hm hys] at hyst
      exact of_decide_eq_true hyst hstate
  intro hnone p
  refine ⟨hstand p, ?_⟩
  have hfil : (all s.1.view).filter (fun m => decide (m.state ≠ .deleted)) = all s.1.view :=
    filter_eq_self.2 fun m hm => decide_eq_true (hnone m hm)
  rw [h.wf.found_eq, lookup_content, h.ledger, hfil, ← lookup_content]
  rfl

/-! ## One call -/

variable {g : Message → Message} {P : SequenceNumber × List Message} {a : PagedQueue.Call} {q : PagedQueue}

theorem map_content_mark {l : List Message} (hg : Keeps g)
    (hdel : ∀ m ∈ l, m.sequence = p → ((g m).state = .deleted ↔ m.state = .deleted)) :
    ((l.map (mark p g)).filter fun m => m.state ≠ .deleted).map content =
      (l.filter fun m => m.state ≠ .deleted).map content := by
  induction l with
  | nil => rfl
  | cons m l ih =>
    obtain ⟨hm, hl⟩ := forall_mem_cons.1 hdel
    have hstate : (mark p g m).state = .deleted ↔ m.state = .deleted := by
      rw [mark_state]
      split
      · rename_i hs
        exact hm hs
      · exact Iff.rfl
    rw [map_cons, filter_cons, filter_cons]
    by_cases hd : m.state = .deleted
    · simp only [hstate, hd, ne_eq]
      simpa using ih hl
    · simp only [hstate, hd, ne_eq, not_false_eq_true, decide_true, if_true, map_cons, (hg.mark p).content]
      exact congrArg _ (by simpa using ih hl)

theorem filter_mark_deleted (l : List Message) (p : SequenceNumber) :
    (l.map (mark p (·.setState .deleted))).filter (fun m => m.state ≠ .deleted) =
      (l.filter fun m => m.state ≠ .deleted).filter fun m => m.sequence ≠ p := by
  rw [filter_map, filter_filter]
  have hfil : l.filter ((fun m => decide (m.state ≠ .deleted)) ∘ mark p (·.setState .deleted)) =
      l.filter fun m => decide (m.sequence ≠ p) && decide (m.state ≠ .deleted) := by
    refine filter_congr fun m _ => ?_
    rw [Function.comp_apply, mark_state]
    by_cases hs : m.sequence = p <;> simp
  rw [hfil]
  conv_rhs => rw [← map_id (l.filter _)]
  refine map_congr_left fun m hm => if_neg ?_
  have := (mem_filter.1 hm).2
  simp only [Bool.and_eq_true, decide_eq_true_eq] at this
  exact this.1

theorem filter_content {l l' : List Message} (h : l.map content = l'.map content) (p : SequenceNumber) :
    (l.filter fun m => m.sequence ≠ p).map content = (l'.filter fun m => m.sequence ≠ p).map content := by
  have hmap (l : List Message) : (l.filter fun m => m.sequence ≠ p).map content =
      (l.map content).filter fun c => c.2 ≠ p := by
    rw [filter_map]
    rfl
  rw [hmap, hmap, h]

theorem all_eraseIdx {v : View} {i : Nat} (hi : v[i]? = some P)
    {f : Message → Bool} (hf : ∀ m ∈ P.2, f m = false) : (all (v.eraseIdx i)).filter f = (all v).filter f := by
  obtain ⟨hlt, rfl⟩ := List.getElem?_eq_some_iff.1 hi
  have hsplit : v = v.take i ++ v[i] :: v.drop (i + 1) := by
    rw [getElem_cons_drop, take_append_drop]
  have hnil : v[i].2.filter f = [] := filter_eq_nil_iff.2 fun m hm => by rw [hf m hm]; exact Bool.false_ne_true
  conv_rhs => rw [hsplit]
  rw [eraseIdx_eq_take_drop_succ, all, all, flatMap_append, flatMap_append, flatMap_cons,
    filter_append, filter_append, filter_append, hnil, nil_append]

/-- What is left of the messages when one is deleted, and its page perhaps removed. -/
theorem Kept.deleted (h : Kept s) {c : QueueCursor} {b : Bool} {q' : PagedQueue} (hc : c.valid = true)
    (hq' : s.1.deleted c = some (b, q')) : Kept (q', s.2.filter fun m => m.sequence ≠ c.position) := by
  obtain ⟨hwf, hview⟩ := h.wf.deleted hc hq'
  refine ⟨hwf, ?_⟩
  have hled := filter_content h.ledger c.position
  rw [← filter_mark_deleted] at hled
  refine hled.trans (congrArg _ ?_)
  rcases hview with ⟨hview, -⟩ | ⟨i, P, hplace, hi, hview, hdel⟩
  · rw [hview, all_markAll]
  have hi' : (markAll c.position (·.setState .deleted) s.1.view)[i]? =
      some (P.1, P.2.map (mark c.position (·.setState .deleted))) := by
    rw [markAll, getElem?_map, hi, map_some]
  have herase : (markAll c.position (·.setState .deleted) s.1.view).eraseIdx i = s.1.view.eraseIdx i := by
    rw [← set_eq_markAll h.wf.order h.wf.within hplace hi, eraseIdx_set_eq]
  rw [hview, ← herase, all_eraseIdx hi', all_markAll]
  refine forall_mem_map.2 fun m hm => ?_
  rw [mark_state]
  by_cases hs : m.sequence = c.position
  · rw [if_pos hs]
    rfl
  · rw [if_neg hs, hdel m hm hs]
    rfl

theorem Kept.publish (h : Kept s) {added : Message} {encoded : Nat} (hfits : Fits s.1.view added.sequence)
    (hnext : Contiguous s.1 (.publish added encoded)) (ht : step s (.publish added encoded) = some t) : Kept t := by
  obtain ⟨q', hq', rfl⟩ := map_eq_some_iff.1 ht
  obtain ⟨-, rfl⟩ := alive_eq_some_iff.1 hq'
  rcases h.wf.publish hfits encoded with ⟨text, herr⟩ | ⟨hjoins, hok, v, P, hv, hview⟩ | ⟨-, hwf, hview⟩
  · simp only [herr]
    exact h
  · obtain ⟨hwf, hview⟩ := hview (hnext hjoins P (by rw [hv]; simp))
    refine ⟨hwf, ?_⟩
    simp only [hok, hview, map_append, h.ledger, hv]
    simp [all, content, face]
  refine ⟨hwf, ?_⟩
  rcases hview with ⟨hok, hview⟩ | ⟨text, herr, hview⟩
  · simp only [hok, hview, map_append, h.ledger]
    simp [all, content, face]
  · simp only [herr, hview, h.ledger]
    simp [all]

/-- Every call keeps the ledger, if messages are put on a page in sequence and none is released
after it was deleted. -/
theorem Kept.step (h : Kept s) (hinc : Increasing s.1 a) (hnext : Contiguous s.1 a)
    (hrel : ReleasesHeld s.1 a) (ht : Paged.step s a = some t) : Kept t := by
  cases a with
  | publish m encoded => exact h.publish hinc hnext ht
  | deleted c =>
    obtain ⟨q', hq', rfl⟩ := map_eq_some_iff.1 ht
    obtain ⟨⟨b, q1⟩, hdel, halive⟩ := bind_eq_some_iff.1 hq'
    obtain ⟨-, rfl⟩ := alive_eq_some_iff.1 halive
    by_cases hc : c.valid = true
    · simp only [hc]
      exact h.deleted hc hdel
    · simp only [PagedQueue.deleted, hc, Bool.false_eq_true, if_false, Option.some.injEq, Prod.mk.injEq] at hdel ⊢
      rw [← hdel.2]
      exact h
  | acquire p =>
    obtain ⟨q', hq', rfl⟩ := map_eq_some_iff.1 ht
    obtain ⟨hwf, hview⟩ := h.wf.acquire hq'
    refine ⟨hwf, ?_⟩
    simp only [hview, all_markAll]
    rw [map_content_mark keeps_acquire, h.ledger]
    intro m _ _
    unfold FifoDistributor.acquire
    split
    · rename_i hm
      simp [hm]
    · exact Iff.rfl
  | release c =>
    obtain ⟨q', hq', rfl⟩ := map_eq_some_iff.1 ht
    obtain ⟨-, rfl⟩ := alive_eq_some_iff.1 hq'
    by_cases hc : c.valid = true
    · obtain ⟨hwf, hview⟩ := h.wf.release hc (hrel hc)
      refine ⟨hwf, ?_⟩
      simp only [hview, all_markAll]
      rw [map_content_mark (keeps_setState .available), h.ledger]
      exact fun m hm hs => ⟨fun hf => (by cases hf), fun hf => absurd hf (hrel hc m hm hs)⟩
    · simp only [PagedQueue.release, hc]
      exact h
  | next c =>
    obtain ⟨q', hq', rfl⟩ := map_eq_some_iff.1 ht
    obtain ⟨-, rfl⟩ := alive_eq_some_iff.1 hq'
    have hsame := h.wf.next c
    exact ⟨hsame.wf, by simp only [hsame.view]; exact h.ledger⟩
  | find p c =>
    obtain ⟨q', hq', rfl⟩ := map_eq_some_iff.1 ht
    obtain ⟨-, rfl⟩ := alive_eq_some_iff.1 hq'
    have hsame := h.wf.find p c
    exact ⟨hsame.wf, by simp only [hsame.view]; exact h.ledger⟩

/-! ## A message after a gap -/

theorem find_after_gap {ms : List Message} (hw : Window (ms.map (·.sequence))) {x m : Message}
    (hx : ms.getLast? = some x)
    (hfits : ∀ y ∈ ms, 0 < dist y.sequence m.sequence ∧ dist y.sequence m.sequence + 2 < 2 ^ 31)
    (hgap : m.sequence ≠ x.sequence + 1) {page : Page} (hpage : page.messages = ms ++ [m]) :
    page.find m.sequence = none := by
  cases ms with
  | nil => exact absurd hx nofun
  | cons front rest =>
    have hlast : ((front :: rest).map (·.sequence))[rest.length]? = some x.sequence := by
      rw [getLast?_eq_getElem?] at hx
      rw [getElem?_map]
      exact congrArg _ hx
    obtain ⟨hlt, hdist⟩ := (hw.getElem?_eq_some_iff rfl).1 hlast
    have hfront := hfits front mem_cons_self
    have hmem := hfits x (mem_of_mem_getLast? hx)
    have hlen := hw.length_le
    rw [length_map, length_cons] at hlt hlen
    have hfar : rest.length + 2 ≤ dist front.sequence m.sequence := by
      simp only [Serial.dist] at *
      bv_omega
    have hsub : m.sequence.sub front.sequence = dist front.sequence m.sequence := toInt_sub_of_lt (by omega)
    unfold Page.find
    rw [hpage, cons_append]
    simp only [length_cons, length_append, length_nil]
    rw [if_neg]
    omega

/-- A lookup that goes to the last page, which is in memory. -/
theorem find_last {e : SequenceNumber × Page} {page : Page}
    (he : q.used[q.used.length - 1]? = some e) (hkeys : ∀ e ∈ q.used, e.1.le p = true) (hl : page.isLoaded = true) :
    ((q.modifyPage (q.used.length - 1) fun _ => page).find p none).1 =
        (page.find p).map (q.used.length - 1, ·) ∧
      ((q.modifyPage (q.used.length - 1) fun _ => page).find p none).2.2 =
        (q.modifyPage (q.used.length - 1) fun _ => page).assert (page.covers p) := by
  have hlt := (List.getElem?_eq_some_iff.1 he).1
  have hused : (q.modifyPage (q.used.length - 1) fun _ => page).used[q.used.length - 1]? = some (e.1, page) := by
    rw [modifyPage, List.getElem?_modify_eq, he]
    rfl
  have hplace : (q.modifyPage (q.used.length - 1) fun _ => page).pageOf p = some (q.used.length - 1) := by
    have htake : ((q.modifyPage (q.used.length - 1) fun _ => page).used.takeWhile fun e => e.1.le p).length =
        q.used.length - 1 + 1 := by
      rw [takeWhile_eq_self_iff.2, modifyPage, length_modify]
      · omega
      intro x hx
      rcases mem_modify (f := fun _ => page) he hx with hx | rfl
      · exact hkeys x hx
      · exact hkeys e (mem_of_getElem? he)
    rw [pageOf, htake]
  have hreq : (q.modifyPage (q.used.length - 1) fun _ => page).require (q.used.length - 1) =
      q.modifyPage (q.used.length - 1) fun _ => page := by
    simp [PagedQueue.require, hused, hl]
  have hassert (holds : Bool) : ((q.modifyPage (q.used.length - 1) fun _ => page).assert holds).used =
      (q.modifyPage (q.used.length - 1) fun _ => page).used := rfl
  simp only [PagedQueue.find, PagedQueue.findPage, hplace, if_true, hreq, hassert, hused, all_some, bind_some]
  exact ⟨trivial, trivial⟩

/-- A message that goes on the last page: the queue and the page it is on. -/
theorem exists_joined (h : q.Wf) {added : Message} {encoded : Nat} (hjoins : Joins q added encoded)
    (hP : P ∈ q.view.getLast?) : ∃ q1 e page, Same q q1 ∧ q1.used[q1.used.length - 1]? = some e ∧
      e.2.isLoaded = true ∧ P = (e.1, e.2.view) ∧ page.isLoaded = true ∧
      page.messages = e.2.messages ++ [added.setState .available] ∧
      (q.publish added encoded).2 = q1.modifyPage (q1.used.length - 1) fun _ => page := by
  obtain ⟨hsame, hloa⟩ := h.require (q.used.length - 1)
  have hleng : (q.require (q.used.length - 1)).used.length = q.used.length := by
    have := congrArg List.length hsame.view
    simpa [PagedQueue.view, viewOf] using this
  have hpub : (q.publish added encoded).2 =
      ((q.require (q.used.length - 1)).addTo (q.used.length - 1) added encoded).2 := by
    rw [PagedQueue.publish, if_neg (Nat.not_lt.2 hjoins.1)]
    simp [hjoins.2]
  rw [hpub]
  have hadded := hjoins.2
  generalize q.require (q.used.length - 1) = q1 at *
  rw [← hleng] at hloa hadded ⊢
  rw [← hsame.view, getLast?_eq_getElem?, PagedQueue.view, viewOf, length_map, getElem?_map] at hP
  obtain ⟨e, he, rfl⟩ := map_eq_some_iff.1 hP
  have hl := hloa e he
  rw [addTo_eq he] at hadded ⊢
  refine ⟨q1, e, (e.2.add added encoded).2, hsame, he, hl, rfl, ?_, ?_, rfl⟩ <;>
    unfold Page.add at hadded ⊢ <;> split at hadded
  · cases hadded
  · rename_i hroom
    rw [if_neg hroom]
    exact hl
  · cases hadded
  · rename_i hroom
    rw [if_neg hroom]

/-- A message put on a page with others, whose number is not the next, is not found. -/
theorem found_after_gap (h : q.Wf) {added : Message} {encoded : Nat}
    (hfits : Fits q.view added.sequence) (hjoins : Joins q added encoded)
    (hP : P ∈ q.view.getLast?) {x : Message} (hx : x ∈ P.2.getLast?) (hgap : added.sequence ≠ x.sequence + 1) :
    (q.publish added encoded).2.found added.sequence = none := by
  obtain ⟨q1, e, page, hsame, he, hl, rfl, hlp, hpage, hpub⟩ := exists_joined h hjoins hP
  rw [← hsame.view] at hfits
  have hmem := mem_of_getElem? he
  have hview : (e.1, e.2.view) ∈ q1.view := mem_map_of_mem hmem
  have hfind : page.find added.sequence = none := by
    have hw := (hsame.wf.pages e hmem).window
    rw [view_loaded hl] at hw hx hview
    rw [map_map] at hw
    rw [getLast?_map] at hx
    obtain ⟨x0, hx0, rfl⟩ := map_eq_some_iff.1 hx
    refine find_after_gap (m := added.setState .available) hw hx0 (fun y hy => ?_) hgap hpage
    exact hfits _ hview y.sequence (mem_cons_of_mem _ (mem_map.2 ⟨face y, mem_map_of_mem hy, rfl⟩))
  have hkeys : ∀ e' ∈ q1.used, e'.1.le added.sequence = true := fun e' he' =>
    le_of_ahead' (hfits.ahead (P := (e'.1, e'.2.view)) (mem_map_of_mem he') mem_cons_self)
  rw [hpub, found, (find_last he hkeys hlp).1, hfind]
  rfl

/-- A message put on a page that has none has a number after that of the page, and a lookup of the
number of the page trips an assertion. -/
theorem aborted_after_empty (h : q.Wf) {added : Message} {encoded : Nat}
    (hfits : Fits q.view added.sequence) (hjoins : Joins q added encoded)
    (hP : P ∈ q.view.getLast?) (hempty : P.2.getLast? = none) :
    ((q.publish added encoded).2.find P.1 none).2.2.aborted = true := by
  obtain ⟨q1, e, page, hsame, he, hl, rfl, hlp, hpage, hpub⟩ := exists_joined h hjoins hP
  have hnil : e.2.messages = [] := by
    rw [getLast?_eq_none_iff, view_loaded hl, map_eq_nil_iff] at hempty
    exact hempty
  have hcovers : page.covers e.1 = false := by
    have hahead := hfits.ahead (mem_of_mem_getLast? hP) mem_cons_self
    simp only [Page.covers, hpage, hnil, nil_append, head?_cons, all_some]
    exact SequenceNumber.le_of_ahead hahead
  have hkeys : ∀ e' ∈ q1.used, e'.1.le e.1 = true := by
    obtain ⟨hlast, rfl⟩ := List.getElem?_eq_some_iff.1 he
    intro e' he'
    obtain ⟨j, hj, rfl⟩ := getElem_of_mem he'
    rcases Nat.lt_or_ge j (q1.used.length - 1) with hlt | hge
    · have hord := pairwise_iff_getElem.1 (pairwise_map.1 (pairwise_map.1 hsame.wf.order)) j _ hj hlast hlt
      exact le_of_ahead' (hord _ mem_cons_self _ mem_cons_self)
    · obtain rfl : j = q1.used.length - 1 := by omega
      exact le_of_within (by rw [dist_self]; decide)
  rw [hpub, (find_last he hkeys hlp).2, hcovers]
  simp [PagedQueue.assert]

/-! ## Every run -/

/-- No deleted message is left on a page. -/
def NoneDeleted (q : PagedQueue) : Prop := ∀ m ∈ all q.view, m.state ≠ .deleted

theorem noneDeleted_markAll {v : View} (hnone : ∀ m ∈ all v, m.state ≠ .deleted)
    (hg : ∀ m, m.state ≠ .deleted → (g m).state ≠ .deleted) :
    ∀ m ∈ all (markAll p g v), m.state ≠ .deleted := by
  rw [all_markAll]
  refine forall_mem_map.2 fun m hm => ?_
  rw [mark_state]
  split
  · exact hg m (hnone m hm)
  · exact hnone m hm

theorem noneDeleted_deleted {q' : PagedQueue} (h : q.Wf) (hnone : NoneDeleted q) {c : QueueCursor} {b : Bool}
    (hq' : q.deleted c = some (b, q')) : NoneDeleted q' ↔ Alone q (.deleted c) := by
  by_cases hc : c.valid = true
  swap
  · simp only [PagedQueue.deleted, hc, Bool.false_eq_true, if_false, Option.some.injEq, Prod.mk.injEq] at hq'
    rw [← hq'.2]
    exact iff_of_true hnone fun hv => absurd hv hc
  obtain ⟨-, hview⟩ := h.deleted hc hq'
  rcases hview with ⟨hview, hoth⟩ | ⟨i, P, hplace, hi, hview, hdel⟩
  · constructor
    · rintro hnone' - P hP ⟨m, hm, hs⟩
      have hmem : mark c.position (·.setState .deleted) m ∈ all q'.view := by
        rw [hview, all_markAll]
        exact mem_map_of_mem (mem_flatMap.2 ⟨P, hP, hm⟩)
      refine absurd ?_ (hnone' _ hmem)
      rw [mark_state, if_pos hs]
      rfl
    intro halone m' hm'
    rw [hview, all_markAll] at hm'
    obtain ⟨m, hm, rfl⟩ := mem_map.1 hm'
    obtain ⟨i, P, hi, hmP⟩ := exists_page_of_mem hm
    by_cases hs : m.sequence = c.position
    · have hplace := placeOf_of_mem h.order h.within hi hmP
      rw [hs] at hplace
      obtain ⟨x, hx, hxs, -⟩ := hoth i P hplace hi
      exact absurd (halone hc P (mem_of_getElem? hi) ⟨m, hmP, hs⟩ x hx) hxs
    · rw [mark_state, if_neg hs]
      exact hnone m hm
  refine iff_of_true (fun m hm => ?_) ?_
  · rw [hview] at hm
    obtain ⟨Q, hQ, hmQ⟩ := mem_flatMap.1 hm
    exact hnone m (mem_flatMap.2 ⟨Q, mem_of_mem_eraseIdx hQ, hmQ⟩)
  rintro - Q hQ ⟨m, hm, hs⟩
  obtain ⟨j, hj⟩ := mem_iff_getElem?.1 hQ
  have hpla' := placeOf_of_mem h.order h.within hj hm
  rw [hs, hplace] at hpla'
  cases hpla'
  cases hi.symm.trans hj
  intro x hx
  by_contra hxs
  exact hnone x (mem_flatMap.2 ⟨P, hQ, hx⟩) (hdel x hx hxs)

/-- Of a call that puts messages on a page in sequence, what is left deleted on the pages. -/
theorem Kept.noneDeleted_iff (h : Kept s) (hnone : NoneDeleted s.1)
    (hinc : Increasing s.1 a) (hnext : Contiguous s.1 a) (ht : Paged.step s a = some t) :
    NoneDeleted t.1 ↔ Alone s.1 a := by
  cases a with
  | publish m encoded =>
    obtain ⟨q', hq', rfl⟩ := map_eq_some_iff.1 ht
    obtain ⟨-, rfl⟩ := alive_eq_some_iff.1 hq'
    refine iff_of_true (fun x hx => ?_) trivial
    have hsplit {v : View} {P : SequenceNumber × List Message} (hx : x ∈ all (v ++ [P])) :
        x ∈ all v ∨ x ∈ P.2 := by
      simpa [all] using hx
    rcases h.wf.publish hinc encoded with ⟨text, herr⟩ | ⟨hjoins, -, v, P, hv, hview⟩ | ⟨-, -, hview⟩
    · rw [herr] at hx
      exact hnone x hx
    · rw [(hview (hnext hjoins P (by rw [hv]; simp))).2] at hx
      have hmem (hx : x ∈ all v ∨ x ∈ P.2) : x ∈ all s.1.view := by
        rw [hv]
        simpa [all] using hx
      rcases hsplit hx with hx | hx
      · exact hnone x (hmem (.inl hx))
      rcases mem_append.1 hx with hx | hx
      · exact hnone x (hmem (.inr hx))
      · rw [mem_singleton.1 hx]
        intro hf; cases hf
    rcases hview with ⟨-, hview⟩ | ⟨-, -, hview⟩
    · rw [hview] at hx
      rcases hsplit hx with hx | hx
      · exact hnone x hx
      · rw [mem_singleton.1 hx]
        intro hf; cases hf
    rw [hview] at hx
    rcases hsplit hx with hx | hx
    · exact hnone x hx
    · exact absurd hx not_mem_nil
  | deleted c =>
    obtain ⟨q', hq', rfl⟩ := map_eq_some_iff.1 ht
    obtain ⟨⟨b, q1⟩, hdel, halive⟩ := bind_eq_some_iff.1 hq'
    obtain ⟨-, rfl⟩ := alive_eq_some_iff.1 halive
    exact noneDeleted_deleted h.wf hnone hdel
  | acquire p =>
    obtain ⟨q', hq', rfl⟩ := map_eq_some_iff.1 ht
    refine iff_of_true ?_ trivial
    rw [NoneDeleted, (h.wf.acquire hq').2]
    refine noneDeleted_markAll hnone fun m hm => ?_
    unfold FifoDistributor.acquire
    split
    · intro hf; cases hf
    · exact hm
  | release c =>
    obtain ⟨q', hq', rfl⟩ := map_eq_some_iff.1 ht
    obtain ⟨-, rfl⟩ := alive_eq_some_iff.1 hq'
    refine iff_of_true ?_ trivial
    by_cases hc : c.valid = true
    · rw [NoneDeleted, (h.wf.release hc fun m hm _ => hnone m hm).2]
      exact noneDeleted_markAll hnone fun m _ hf => by cases hf
    · simp only [PagedQueue.release, hc]
      exact hnone
  | next c =>
    obtain ⟨q', hq', rfl⟩ := map_eq_some_iff.1 ht
    obtain ⟨-, rfl⟩ := alive_eq_some_iff.1 hq'
    refine iff_of_true ?_ trivial
    rw [NoneDeleted, (h.wf.next c).view]
    exact hnone
  | find p c =>
    obtain ⟨q', hq', rfl⟩ := map_eq_some_iff.1 ht
    obtain ⟨-, rfl⟩ := alive_eq_some_iff.1 hq'
    refine iff_of_true ?_ trivial
    rw [NoneDeleted, (h.wf.find p c).view]
    exact hnone

theorem releasesHeld_of_noneDeleted (hnone : NoneDeleted q) (a : PagedQueue.Call) : ReleasesHeld q a := by
  cases a with
  | release c => exact fun _ m hm _ => hnone m hm
  | publish _ _ | deleted _ | acquire _ | next _ | find _ _ => exact trivial

theorem not_findsExactly_of_gap (h : Kept s) (hinc : Increasing s.1 a)
    (hgap : ¬ Contiguous s.1 a) (ht : Paged.step s a = some t) : ¬ FindsExactly t := by
  cases a with
  | publish m encoded =>
    simp only [Contiguous, not_forall] at hgap
    obtain ⟨hjoins, P, hP, hne⟩ := hgap
    obtain ⟨q', hq', rfl⟩ := map_eq_some_iff.1 ht
    obtain ⟨-, rfl⟩ := alive_eq_some_iff.1 hq'
    intro hf
    cases hx : P.2.getLast? with
    | none => exact absurd ((hf P.1).1.symm.trans (aborted_after_empty h.wf hinc hjoins hP hx)) nofun
    | some x =>
      have hok : (s.1.publish m encoded).1 = .ok () := by
        rw [PagedQueue.publish, if_neg (Nat.not_lt.2 hjoins.1)]
        simp [hjoins.2]
      have hfound := (hf m.sequence).2
      simp only [found_after_gap h.wf hinc hjoins hP hx fun heq => hne ⟨x, hx, heq⟩, hok] at hfound
      have hnone := map_eq_none_iff.1 hfound.symm
      exact absurd (decide_eq_true rfl) (find?_eq_none.1 hnone m (by simp))
  | deleted _ | acquire _ | release _ | next _ | find _ _ => exact absurd trivial hgap

/-- What holds after `n` calls, with room for `maxLoaded` pages: the ledger is kept, and no assertion
has failed. -/
structure Held (maxLoaded : BitVec 32) (n : Nat) (s : PagedQueue × Ledger) : Prop where
  kept : Kept s
  steady : Steady n s.1
  maxLoaded : s.1.maxLoaded = maxLoaded
  aborted : s.1.aborted = false

variable {name : String} {pageSize n : Nat} {maxLoaded : BitVec 32}

theorem held_new : Held maxLoaded 0 (({ name, pageSize, maxLoaded } : PagedQueue), ([] : Ledger)) :=
  ⟨⟨⟨nofun, .nil, nofun⟩, rfl⟩, steady_new name pageSize maxLoaded, rfl, rfl⟩

theorem step_aborted (ht : Paged.step s a = some t) : t.1.aborted = false := by
  obtain ⟨q, hq, rfl⟩ := map_eq_some_iff.1 ht
  cases a with
  | deleted c =>
    obtain ⟨r, -, hr⟩ := bind_eq_some_iff.1 hq
    obtain ⟨hlive, rfl⟩ := alive_eq_some_iff.1 hr
    exact hlive
  | acquire p =>
    simp only [PagedQueue.call] at hq
    split at hq <;> (obtain ⟨hlive, rfl⟩ := alive_eq_some_iff.1 hq; exact hlive)
  | publish _ _ | release _ | next _ | find _ _ =>
    obtain ⟨hlive, rfl⟩ := alive_eq_some_iff.1 hq
    exact hlive

theorem Held.step (h : Held maxLoaded n s) (hn : n + maxLoaded.toNat < 2 ^ 32) (hinc : Increasing s.1 a)
    (hnext : Contiguous s.1 a) (hrel : ReleasesHeld s.1 a) (ht : Paged.step s a = some t) :
    Held maxLoaded (n + 1) t := by
  obtain ⟨q, hq, hqt⟩ := map_eq_some_iff.1 ht
  obtain ⟨hsteady, hmax⟩ := h.steady.call h.kept.wf (by rw [h.maxLoaded]; exact hn) hinc hq
  obtain rfl : q = t.1 := by rw [← hqt]
  exact ⟨h.kept.step hinc hnext hrel ht, hsteady, hmax.trans h.maxLoaded, step_aborted ht⟩

/-- No lookup trips an assertion. -/
theorem Held.find (h : Held maxLoaded n s) (hn : n + maxLoaded.toNat < 2 ^ 32) (p : SequenceNumber)
    (c : Option QueueCursor) : (s.1.find p c).2.2.aborted = false :=
  (h.steady.find h.kept.wf (by rw [h.maxLoaded]; exact hn) p c).2.1.trans h.aborted

theorem Held.findsExactly_iff (h : Held maxLoaded n s) (hn : n + maxLoaded.toNat < 2 ^ 32) :
    FindsExactly s ↔ NoneDeleted s.1 :=
  h.kept.findsExactly_iff fun p => h.find hn p none

/-- In every run whose calls put messages on a page in sequence and delete only a message that is
alone on its page, `find` finds exactly the messages published and not deleted; and the next call
keeps it so if and only if it is again such a call. The calls are not so many that the counter of the
pages in memory may come round. -/
theorem paged_queue_finds_exactly_iff {name : String} {pageSize : Nat} {maxLoaded : BitVec 32}
    {calls : List PagedQueue.Call} {s : PagedQueue × Ledger} (hcalls : calls.length + 1 + maxLoaded.toNat < 2 ^ 32)
    (h : Run Paged.step (fun s a => Increasing s.1 a ∧ Contiguous s.1 a ∧ Alone s.1 a)
      ({ name, pageSize, maxLoaded }, []) calls s) :
    FindsExactly s ∧ ∀ a t, Increasing s.1 a → Paged.step s a = some t →
      (FindsExactly t ↔ Contiguous s.1 a ∧ Alone s.1 a) := by
  have hrun := h.keep_ops (l := [])
    (I := fun s calls => calls.length + maxLoaded.toNat < 2 ^ 32 → Held maxLoaded calls.length s ∧ NoneDeleted s.1)
    (fun hs ha ht hlen => by
      rw [length_append, length_singleton] at hlen ⊢
      obtain ⟨hheld, hnone⟩ := hs (by omega)
      exact ⟨hheld.step (by omega) ha.1 ha.2.1 (releasesHeld_of_noneDeleted hnone _) ht,
        (hheld.kept.noneDeleted_iff hnone ha.1 ha.2.1 ht).2 ha.2.2⟩)
    fun _ => ⟨held_new, nofun⟩
  obtain ⟨hheld, hnone⟩ := hrun (by simpa using by omega)
  rw [nil_append] at hheld
  refine ⟨(hheld.findsExactly_iff (by omega)).2 hnone, fun a t hinc ht => ?_⟩
  by_cases hnext : Contiguous s.1 a
  · have hheld' := hheld.step (by omega) hinc hnext (releasesHeld_of_noneDeleted hnone a) ht
    rw [hheld'.findsExactly_iff hcalls, and_iff_right hnext]
    exact hheld.kept.noneDeleted_iff hnone hinc hnext ht
  · exact iff_of_false (not_findsExactly_of_gap hheld.kept hinc hnext ht) fun hf => hnext hf.1

/-- Two messages with consecutive numbers on one page, the second acquired and released. -/
theorem paged_queue_finds_exactly_two :
    ∃ s, Run Paged.step (fun s a => Increasing s.1 a ∧ Contiguous s.1 a ∧ Alone s.1 a)
      ({ pageSize := 100, maxLoaded := 1 }, [])
      [.publish { sequence := 1 } 40, .publish { sequence := 2 } 40, .acquire 2,
        .release { position := 2, valid := true }] s ∧ FindsExactly s := by
  exact exists_run (Q := fun _ => True) (by decide +kernel) fun s hrun _ =>
    ⟨hrun, (paged_queue_finds_exactly_iff (by decide) hrun).1⟩

/-- Of three numbers the second is used up by a message that no page can hold: the third message is
published and not found. A message that is deleted, but not alone on its page, is found. And where a
message did not fit on its new page and the next went there, looking the first up trips an assertion. -/
theorem message_after_gap_is_not_found :
    (∃ s, Run Paged.step (fun s a => Increasing s.1 a) ({ pageSize := 100, maxLoaded := 1 }, [])
      [.publish { sequence := 1 } 40, .publish { sequence := 2 } 101, .publish { sequence := 3 } 40] s ∧
      (s.1.found 3 = none ∧ (s.2.lookup 3).isSome) ∧ ¬ FindsExactly s) ∧
    (∃ s, Run Paged.step (fun s a => Increasing s.1 a) ({ pageSize := 100, maxLoaded := 1 }, [])
      [.publish { sequence := 1 } 40, .publish { sequence := 2 } 40, .deleted { position := 1, valid := true }] s ∧
      ((s.1.found 1).isSome ∧ s.2.lookup 1 = none) ∧ ¬ FindsExactly s) ∧
    ∃ s, Run Paged.step (fun s a => Increasing s.1 a) ({ pageSize := 100, maxLoaded := 1 }, [])
      [.publish { sequence := 1 } 98, .publish { sequence := 2 } 40] s ∧
      (s.1.find 1 none).2.2.aborted = true ∧ ¬ FindsExactly s := by
  refine ⟨?_, ?_, ?_⟩
  · refine exists_run (by decide +kernel) fun s hrun hs => ⟨hrun, hs, fun hf => ?_⟩
    have := (hf 3).2
    rw [hs.1, map_none, eq_comm, map_eq_none_iff] at this
    rw [this] at hs
    exact absurd hs.2 nofun
  · refine exists_run (by decide +kernel) fun s hrun hs => ⟨hrun, hs, fun hf => ?_⟩
    have := (hf 1).2
    rw [hs.2, map_none, map_eq_none_iff] at this
    rw [this] at hs
    exact absurd hs.1 nofun
  · refine exists_run (by decide +kernel) fun s hrun hs => ⟨hrun, hs, fun hf => ?_⟩
    exact absurd ((hf 1).1.symm.trans hs) nofun

end QB.Spec.Paged
