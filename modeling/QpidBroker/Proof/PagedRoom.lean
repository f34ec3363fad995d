import QpidBroker.Proof.PagedQueue

/-!
# Room for a page

A page that `deleted` empties is taken off the counter `loaded` also if it was not in memory, so
the counter is too low by the number of those (`Counts`). While they are so few that it does not come
round to `maxLoaded`, a page is in memory where the counter has reached it (`Steady.roomy`), and no
lookup trips the assertion of `makeRoom` (`Steady.find`, `Steady.next`).
-/

namespace QB.Impl.PagedQueue

open Serial Page List SequenceNumber

variable {q q' : PagedQueue} {l l' : List (SequenceNumber × Page)} {e : SequenceNumber × Page} {f : Page → Page}
  {i k n : Nat}

/-! ## The pages in memory -/

/-- How many of the pages are in memory. -/
def resident (l : List (SequenceNumber × Page)) : Nat := l.countP (·.2.isLoaded)

/-- The counter is `k` less than the number of pages in memory. -/
def Counts (k : Nat) (q : PagedQueue) : Prop := q.loaded + BitVec.ofNat 32 k = BitVec.ofNat 32 (resident q.used)

theorem resident_cons (e : SequenceNumber × Page) (l : List (SequenceNumber × Page)) :
    resident (e :: l) = resident l + e.2.isLoaded.toNat := by
  rw [resident, countP_cons, resident]
  cases e.2.isLoaded <;> rfl

/-- Changing one page changes the number by what is said of that page. -/
theorem resident_modify (he : l[i]? = some e) :
    resident (l.modify i fun e => (e.1, f e.2)) + e.2.isLoaded.toNat = resident l + (f e.2).isLoaded.toNat := by
  induction l generalizing i with
  | nil => exact absurd he nofun
  | cons x l ih =>
    cases i with
    | zero =>
      cases he
      simp only [modify_zero_cons, resident_cons]
      omega
    | succ i =>
      have := ih he
      simp only [modify_succ_cons, resident_cons]
      omega

theorem resident_eraseIdx (he : l[i]? = some e) : resident (l.eraseIdx i) + e.2.isLoaded.toNat = resident l := by
  induction l generalizing i with
  | nil => exact absurd he nofun
  | cons x l ih =>
    cases i with
    | zero =>
      cases he
      rw [eraseIdx_zero, tail_cons, resident_cons]
    | succ i =>
      have := ih he
      simp only [eraseIdx_cons_succ, resident_cons]
      omega

theorem resident_append (l : List (SequenceNumber × Page)) (e : SequenceNumber × Page) :
    resident (l ++ [e]) = resident l + e.2.isLoaded.toNat := by
  induction l with
  | nil => rw [nil_append, resident_cons]
  | cons x l ih =>
    rw [cons_append, resident_cons, ih, resident_cons]
    omega

/-- One page fewer is in memory once one is unloaded, and none was if there is none to unload. -/
theorem resident_unloadLast (l : List (SequenceNumber × Page)) : match unloadLast l with
    | some l' => resident l' + 1 = resident l
    | none => resident l = 0 := by
  induction l with
  | nil => rfl
  | cons e l ih =>
    rw [unloadLast]
    cases hl : unloadLast l with
    | some l' =>
      rw [hl] at ih
      simp only [resident_cons] at ih ⊢
      omega
    | none =>
      rw [hl] at ih
      cases he : e.2.isLoaded
      · simpa [resident_cons, he] using ih
      · simp [resident_cons, he, unload, ih]

/-! ## The counter -/

theorem makeRoom_maxLoaded (q : PagedQueue) : q.makeRoom.maxLoaded = q.maxLoaded := by
  unfold makeRoom
  split
  · split <;> rfl
  · rfl

theorem makeRoom_aborted (h : q.loaded = q.maxLoaded → 0 < resident q.used) : q.makeRoom.aborted = q.aborted := by
  have hl := resident_unloadLast q.used
  unfold makeRoom
  split
  · rename_i hfull
    split
    · rfl
    · rename_i hnone
      rw [hnone] at hl
      exact absurd (h hfull) (by omega)
  · rfl

theorem Counts.makeRoom (h : Counts k q) : Counts k q.makeRoom := by
  have hl := resident_unloadLast q.used
  unfold PagedQueue.makeRoom
  split
  · split
    · rename_i l' hsome
      rw [hsome] at hl
      simp only [Counts] at h ⊢
      rw [← hl] at h
      bv_omega
    · exact h
  · exact h

/-- Loading a page that is not in memory adds one to the counter and one to the pages. -/
theorem Counts.load (h : Counts k q) (he : q.used[i]? = some e) (hl : e.2.isLoaded = false) : Counts k (q.load i) := by
  have hroom := h.makeRoom
  have hres := resident_modify (f := Page.load) (makeRoom_getElem? he hl)
  have hload : e.2.load.isLoaded = true := by
    unfold Page.load
    split <;> rfl
  rw [hl, hload] at hres
  simp only [Counts] at hroom ⊢
  show q.makeRoom.loaded + 1 + _ = BitVec.ofNat 32 (resident (q.makeRoom.used.modify i _))
  rw [show resident (q.makeRoom.used.modify i fun e => (e.1, e.2.load)) = resident q.makeRoom.used + 1
      by simpa using hres]
  bv_omega

theorem Counts.require (h : Counts k q) (i : Nat) : Counts k (q.require i) := by
  unfold PagedQueue.require
  cases he : q.used[i]? with
  | none => exact h
  | some e =>
    simp only
    split
    · exact h
    · rename_i hl
      exact h.load he (Bool.eq_false_iff.2 hl)

/-- What is done to a page leaves it in memory or not in memory. -/
theorem Counts.modifyPage (h : Counts k q) (hf : ∀ e ∈ q.used[i]?, (f e.2).isLoaded = e.2.isLoaded) :
    Counts k (q.modifyPage i f) := by
  have hres : resident (q.modifyPage i f).used = resident q.used := by
    cases he : q.used[i]? with
    | none => rw [PagedQueue.modifyPage, modify_eq_self (getElem?_eq_none_iff.1 he)]
    | some e =>
      have := resident_modify (f := f) he
      rw [hf e he] at this
      exact Nat.add_right_cancel this
  rw [Counts, hres]
  exact h

theorem Counts.addTo (h : Counts k q) (i : Nat) (added : Message) (encoded : Nat) :
    Counts k (q.addTo i added encoded).2 := by
  unfold PagedQueue.addTo
  split
  · exact h
  · rename_i e he
    refine h.modifyPage fun e' he' => ?_
    cases he.symm.trans he'
    unfold Page.add
    split <;> rfl

theorem Counts.newPage (h : Counts k q) (hq : q.Wf) {s : SequenceNumber} (hfits : Fits q.view s) :
    Counts k (q.newPage s).2 := by
  obtain ⟨q2, page, hused, hloaded, -, -, -, hpage, hnew⟩ := hq.newPage_eq hfits
  rw [hnew]
  refine Counts.load ?_ (e := (s, page)) (by simp) hpage.isLoaded
  have hroom := h.makeRoom
  rw [Counts] at hroom ⊢
  simp only [hloaded, hused, resident_append, hpage.isLoaded, Bool.toNat_false, Nat.add_zero]
  exact hroom

theorem addTo_of_not {added : Message} {encoded : Nat} (h : (q.addTo i added encoded).1 = false) :
    (q.addTo i added encoded).2 = q := by
  cases he : q.used[i]? with
  | none => simp [PagedQueue.addTo, he]
  | some e =>
    rw [addTo_eq he] at h ⊢
    rw [add_of_not h, modifyPage_self he]

/-- The queue that `publish` leaves: the same, or with the message on the last page, or with a new page. -/
theorem publish_queue (q : PagedQueue) (added : Message) (encoded : Nat) :
    let last := q.used.length - 1
    (q.publish added encoded).2 = q ∨
      (q.publish added encoded).2 = ((q.require last).addTo last added encoded).2 ∨
      (q.publish added encoded).2 = (((q.require last).newPage added.sequence).2.addTo
        ((q.require last).newPage added.sequence).1 added encoded).2 := by
  intro last
  unfold PagedQueue.publish
  split
  · exact .inl rfl
  refine .inr ?_
  cases hadd : ((q.require last).addTo last added encoded).1 with
  | true => simp [last, hadd]
  | false =>
    have hsame := addTo_of_not hadd
    refine .inr ?_
    simp only [last] at hadd hsame ⊢
    simp only [hadd, hsame, Bool.false_eq_true, if_false]
    split <;> rfl

/-- `publish` loads pages, and changes no page but by adding a message. -/
theorem Counts.publish (h : Counts k q) (hq : q.Wf) {added : Message} (hfits : Fits q.view added.sequence)
    (encoded : Nat) : Counts k (q.publish added encoded).2 := by
  obtain ⟨hsame, -⟩ := hq.require (q.used.length - 1)
  rcases publish_queue q added encoded with he | he | he <;> rw [he]
  · exact h
  · exact (h.require _).addTo _ added encoded
  · exact ((h.require _).newPage hsame.wf (by rw [hsame.view]; exact hfits)).addTo _ added encoded

theorem pageOf_nil (h : q.used = []) (p : SequenceNumber) : q.pageOf p = none := by
  simp [pageOf, h]

theorem deleted_isLoaded {page page' : Page} {p : SequenceNumber} (h : page.deleted p = some page') :
    page'.isLoaded = page.isLoaded := by
  unfold Page.deleted at h
  split at h
  · obtain ⟨i, -, rfl⟩ := Option.map_eq_some_iff.1 h
    rfl
  · cases h
    rfl

theorem deleted_maxLoaded {c : QueueCursor} {b : Bool} (hq' : q.deleted c = some (b, q')) :
    q'.maxLoaded = q.maxLoaded := by
  unfold PagedQueue.deleted at hq'
  split at hq' <;> [skip; (cases hq'; rfl)]
  split at hq' <;> [(cases hq'; rfl); skip]
  split at hq' <;> [(cases hq'; rfl); skip]
  obtain ⟨page, -, hq'⟩ := Option.map_eq_some_iff.1 hq'
  split at hq' <;> (cases hq'; rfl)

/-- A page that is removed is taken off the counter, in memory or not. -/
theorem Counts.deleted (h : Counts k q) {c : QueueCursor} {b : Bool} (hq' : q.deleted c = some (b, q')) :
    ∃ k' ≤ k + 1, Counts k' q' := by
  unfold PagedQueue.deleted at hq'
  split at hq'
  swap
  · cases hq'
    exact ⟨k, Nat.le_succ k, h⟩
  split at hq'
  · cases hq'
    exact ⟨k, Nat.le_succ k, h⟩
  split at hq'
  · cases hq'
    exact ⟨k, Nat.le_succ k, h⟩
  rename_i i hplace e he
  obtain ⟨page, hpage, hq'⟩ := Option.map_eq_some_iff.1 hq'
  split at hq'
  swap
  · cases hq'
    refine ⟨k, Nat.le_succ k, h.modifyPage fun e' he' => ?_⟩
    cases he.symm.trans he'
    exact deleted_isLoaded hpage
  cases hq'
  have hres := resident_eraseIdx he
  simp only [Counts] at h ⊢
  rw [← hres] at h
  cases hl : e.2.isLoaded <;> rw [hl] at h
  · refine ⟨k + 1, le_rfl, ?_⟩
    simp only [Bool.toNat_false, Nat.add_zero] at h
    bv_omega
  · refine ⟨k, Nat.le_succ k, ?_⟩
    simp only [Bool.toNat_true] at h
    bv_omega

/-! ## Whole runs -/

/-- After `n` calls the counter is at most `n` too low. With room for no page there is none. -/
structure Steady (n : Nat) (q : PagedQueue) : Prop where
  counts : ∃ k ≤ n, Counts k q
  idle : q.maxLoaded = 0 → q.used = [] ∧ q.loaded = 0

theorem steady_new (name : String) (pageSize : Nat) (maxLoaded : BitVec 32) : Steady 0 { name, pageSize, maxLoaded } :=
  ⟨⟨0, le_rfl, by simp [Counts, resident]⟩, fun _ => ⟨rfl, rfl⟩⟩

theorem Steady.mono (h : Steady n q) {n' : Nat} (hn : n ≤ n') : Steady n' q := by
  obtain ⟨k, hk, hc⟩ := h.counts
  exact ⟨⟨k, hk.trans hn, hc⟩, h.idle⟩

/-- The counter has not come round: where it is at the maximum, a page is in memory. -/
theorem Steady.roomy (h : Steady n q) (hn : n + q.maxLoaded.toNat < 2 ^ 32) (hused : q.used ≠ [])
    (hfull : q.loaded = q.maxLoaded) : 0 < resident q.used := by
  obtain ⟨k, hk, hc⟩ := h.counts
  have hmax : q.maxLoaded ≠ 0 := fun h0 => hused (h.idle h0).1
  by_contra hzero
  rw [Counts, hfull, Nat.eq_zero_of_not_pos hzero] at hc
  bv_omega

/-- Requiring a page trips no assertion. -/
theorem Steady.require (h : Steady n q) (hn : n + q.maxLoaded.toNat < 2 ^ 32) (i : Nat) :
    Steady n (q.require i) ∧ (q.require i).aborted = q.aborted ∧ (q.require i).maxLoaded = q.maxLoaded := by
  obtain ⟨k, hk, hc⟩ := h.counts
  have hc' := hc.require i
  unfold PagedQueue.require at hc' ⊢
  cases he : q.used[i]? with
  | none => exact ⟨h, rfl, rfl⟩
  | some e =>
    rw [he] at hc'
    simp only at hc' ⊢
    split
    · exact ⟨h, rfl, rfl⟩
    rename_i hl
    rw [if_neg hl] at hc'
    have hused : q.used ≠ [] := fun hnil => by rw [hnil] at he; exact absurd he nofun
    have hmax : (q.load i).maxLoaded = q.maxLoaded := q.makeRoom_maxLoaded
    refine ⟨⟨⟨k, hk, hc'⟩, fun h0 => ?_⟩, makeRoom_aborted (h.roomy hn hused), hmax⟩
    exact absurd (h.idle (hmax ▸ h0)).1 hused

theorem Steady.find (h : Steady n q) (hq : q.Wf) (hn : n + q.maxLoaded.toNat < 2 ^ 32) (p : SequenceNumber)
    (c : Option QueueCursor) : Steady n (q.find p c).2.2 ∧ (q.find p c).2.2.aborted = q.aborted ∧
      (q.find p c).2.2.maxLoaded = q.maxLoaded := by
  cases hplace : q.pageOf p with
  | none =>
    rw [find_of_none hplace]
    exact ⟨h, rfl, rfl⟩
  | some i =>
    obtain ⟨e, he⟩ := hq.chosen hplace
    rw [he.find hplace]
    exact h.require hn i

theorem Steady.nextLoop (h : Steady n q) (hn : n + q.maxLoaded.toNat < 2 ^ 32) (j i : Nat) (c : QueueCursor) :
    Steady n (nextLoop j i q c).2.2 ∧ (nextLoop j i q c).2.2.aborted = q.aborted ∧
      (nextLoop j i q c).2.2.maxLoaded = q.maxLoaded := by
  induction j generalizing q i c with
  | zero => exact ⟨h, rfl, rfl⟩
  | succ j ih =>
    obtain ⟨hreq, hab, hmax⟩ := h.require hn i
    rw [PagedQueue.nextLoop]
    cases (q.require i).used[i]? with
    | none => exact ⟨hreq, hab, hmax⟩
    | some e =>
      rcases hnext : e.2.next (q.require i).version c with ⟨_ | k, c'⟩
      · simp only [hnext]
        obtain ⟨hloop, hab', hmax'⟩ := ih hreq (by rw [hmax]; exact hn) (i + 1) c'
        exact ⟨hloop, hab'.trans hab, hmax'.trans hmax⟩
      · simp only [hnext]
        exact ⟨hreq, hab, hmax⟩

theorem Steady.next (h : Steady n q) (hn : n + q.maxLoaded.toNat < 2 ^ 32) (c : QueueCursor) :
    Steady n (q.next c).2.2 ∧ (q.next c).2.2.aborted = q.aborted ∧ (q.next c).2.2.maxLoaded = q.maxLoaded := by
  unfold PagedQueue.next
  split
  swap
  · exact h.nextLoop hn _ _ _
  simp only [PagedQueue.findPage]
  cases hplace : q.pageOf (c.position + 1) with
  | none =>
    simp only
    split
    · exact h.nextLoop hn _ _ _
    · exact ⟨h, rfl, rfl⟩
  | some i =>
    obtain ⟨hreq, hab, hmax⟩ := h.require hn i
    obtain ⟨hloop, hab', hmax'⟩ := hreq.nextLoop (by rw [hmax]; exact hn) ((q.require i).used.length - i) i c
    exact ⟨hloop, hab'.trans hab, hmax'.trans hmax⟩

theorem Steady.modifyPage (h : Steady n q) (hf : ∀ e ∈ q.used[i]?, (f e.2).isLoaded = e.2.isLoaded) :
    Steady n (q.modifyPage i f) := by
  obtain ⟨k, hk, hc⟩ := h.counts
  refine ⟨⟨k, hk, hc.modifyPage hf⟩, fun h0 => ?_⟩
  obtain ⟨hused, hloaded⟩ := h.idle h0
  exact ⟨by simp [PagedQueue.modifyPage, hused], hloaded⟩

theorem Steady.release (h : Steady n q) (hn : n + q.maxLoaded.toNat < 2 ^ 32) (c : QueueCursor) :
    Steady n (q.release c).2 ∧ (q.release c).2.maxLoaded = q.maxLoaded := by
  unfold PagedQueue.release PagedQueue.findPage
  split
  swap
  · exact ⟨h, rfl⟩
  cases hplace : q.pageOf c.position with
  | none => exact ⟨h, rfl⟩
  | some i =>
    obtain ⟨hreq, -, hmax⟩ := h.require hn i
    simp only [if_true]
    split
    · exact ⟨hreq, hmax⟩
    · rename_i e he
      -- the assertion changes neither the pages nor the counter
      have hassert : Steady n ((q.require i).assert (e.2.covers c.position)) := ⟨hreq.counts, hreq.idle⟩
      refine ⟨hassert.modifyPage (f := fun _ => (e.2.release c.position).2) (i := i) fun e' he' => ?_, hmax⟩
      cases he.symm.trans he'
      unfold Page.release
      split <;> rfl

theorem require_maxLoaded (q : PagedQueue) (i : Nat) : (q.require i).maxLoaded = q.maxLoaded := by
  unfold PagedQueue.require
  split
  · split
    · rfl
    · exact q.makeRoom_maxLoaded
  · rfl

theorem addTo_maxLoaded (q : PagedQueue) (i : Nat) (added : Message) (encoded : Nat) :
    (q.addTo i added encoded).2.maxLoaded = q.maxLoaded := by
  unfold PagedQueue.addTo
  split <;> rfl

theorem publish_maxLoaded (hq : q.Wf) {added : Message} (hfits : Fits q.view added.sequence) (encoded : Nat) :
    (q.publish added encoded).2.maxLoaded = q.maxLoaded := by
  have hreq := q.require_maxLoaded (q.used.length - 1)
  obtain ⟨hsame, -⟩ := hq.require (q.used.length - 1)
  rcases publish_queue q added encoded with he | he | he <;> rw [he]
  · exact (addTo_maxLoaded _ _ _ _).trans hreq
  · obtain ⟨q2, page, -, -, -, -, hmax, -, hnew⟩ :=
      hsame.wf.newPage_eq (s := added.sequence) (by rw [hsame.view]; exact hfits)
    rw [addTo_maxLoaded, hnew]
    refine (makeRoom_maxLoaded _).trans ?_
    exact (hmax.trans (makeRoom_maxLoaded _)).trans hreq

theorem makeRoom_aborted_of_aborted (h : q.aborted = true) : q.makeRoom.aborted = true := by
  unfold makeRoom
  split
  · split
    · exact h
    · simp [PagedQueue.assert]
  · exact h

theorem newPage_aborted (h : q.makeRoom.aborted = true) (s : SequenceNumber) : (q.newPage s).2.aborted = true := by
  refine makeRoom_aborted_of_aborted ?_
  simp only [PagedQueue.assert, Bool.or_eq_true]
  refine .inl ?_
  split <;> exact h

theorem addTo_aborted (q : PagedQueue) (i : Nat) (added : Message) (encoded : Nat) :
    (q.addTo i added encoded).2.aborted = q.aborted := by
  unfold PagedQueue.addTo
  split <;> rfl

/-- Where no page may be in memory, a message that is put on one trips the assertion. -/
theorem publish_idle (hmax : q.maxLoaded = 0) (hused : q.used = []) (hloaded : q.loaded = 0) {added : Message}
    {encoded : Nat} (ht : (q.publish added encoded).2.alive = some q') : q' = q := by
  obtain ⟨hlive, rfl⟩ := alive_eq_some_iff.1 ht
  have hreq : q.require (q.used.length - 1) = q := by simp [PagedQueue.require, hused]
  have hadd : q.addTo (q.used.length - 1) added encoded = (false, q) := by simp [PagedQueue.addTo, hused]
  rcases publish_queue q added encoded with he | he | he
  · exact he
  · rw [he, hreq, hadd]
  · have hroom : q.makeRoom.aborted = true := by
      simp [makeRoom, hloaded, hmax, hused, unloadLast, PagedQueue.assert]
    rw [he, hreq, addTo_aborted, newPage_aborted hroom] at hlive
    cases hlive

/-- A call keeps the counter, but for the page it may take off wrongly. -/
theorem Steady.call (h : Steady n q) (hq : q.Wf) (hn : n + q.maxLoaded.toNat < 2 ^ 32) {a : Call}
    (hinc : Spec.Paged.Increasing q a) (ht : q.call a = some q') :
    Steady (n + 1) q' ∧ q'.maxLoaded = q.maxLoaded := by
  obtain ⟨k, hk, hc⟩ := h.counts
  cases a with
  | publish m encoded =>
    have hmax := publish_maxLoaded hq hinc encoded
    have halive : (q.publish m encoded).2.alive = some q' := ht
    obtain ⟨-, rfl⟩ := alive_eq_some_iff.1 halive
    refine ⟨⟨⟨k, by omega, hc.publish hq hinc encoded⟩, fun h0 => ?_⟩, hmax⟩
    rw [hmax] at h0
    obtain ⟨hused, hloaded⟩ := h.idle h0
    rw [publish_idle h0 hused hloaded halive]
    exact ⟨hused, hloaded⟩
  | deleted c =>
    obtain ⟨⟨b, q1⟩, hdel, halive⟩ := Option.bind_eq_some_iff.1 ht
    obtain ⟨-, rfl⟩ := alive_eq_some_iff.1 halive
    obtain ⟨k', hk', hc'⟩ := hc.deleted hdel
    have hmax := deleted_maxLoaded hdel
    refine ⟨⟨⟨k', by omega, hc'⟩, fun h0 => ?_⟩, hmax⟩
    rw [hmax] at h0
    obtain ⟨hused, hloaded⟩ := h.idle h0
    simp only [PagedQueue.deleted, pageOf_nil hused] at hdel
    split at hdel <;> (cases hdel; exact ⟨hused, hloaded⟩)
  | acquire p =>
    obtain ⟨hfind, -, hmax⟩ := h.find hq hn p none
    simp only [PagedQueue.call] at ht
    split at ht
    · obtain ⟨-, rfl⟩ := alive_eq_some_iff.1 ht
      exact ⟨(hfind.modifyPage fun e _ => rfl).mono (Nat.le_succ n), hmax⟩
    · obtain ⟨-, rfl⟩ := alive_eq_some_iff.1 ht
      exact ⟨hfind.mono (Nat.le_succ n), hmax⟩
  | release c =>
    obtain ⟨-, rfl⟩ := alive_eq_some_iff.1 ht
    obtain ⟨hrel, hmax⟩ := h.release hn c
    exact ⟨hrel.mono (Nat.le_succ n), hmax⟩
  | next c =>
    obtain ⟨hnext, -, hmax⟩ := h.next hn c
    obtain ⟨-, rfl⟩ := alive_eq_some_iff.1 ht
    exact ⟨hnext.mono (Nat.le_succ n), hmax⟩
  | find p c =>
    obtain ⟨hfind, -, hmax⟩ := h.find hq hn p c
    obtain ⟨-, rfl⟩ := alive_eq_some_iff.1 ht
    exact ⟨hfind.mono (Nat.le_succ n), hmax⟩

end QB.Impl.PagedQueue
