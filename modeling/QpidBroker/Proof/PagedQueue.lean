import QpidBroker.Proof.Page

/-!
# The paged queue: what each call does to what the pages hold

The pages hold the same whether they are in memory or not, so what a queue holds
(`PagedQueue.view`) does not change when pages are loaded and unloaded (`Same`,
`require_same`). If the pages come in the order of their numbers (`PagedQueue.Wf`), the page
that `findPage` chooses is the only one that may hold a number (`mem_page`), and each call
does to the messages what it is for: `publish_cases`, `deleted_cases`, `release_spec`,
`acquire_spec`.
-/

namespace QB.Impl

open Serial Spec Spec.LastValue List SequenceNumber
open Option hiding mem_map map_map map_id mem_map_of_mem

structure Page.Free (page : Page) : Prop where
  used : page.used = 0
  isLoaded : page.isLoaded = false
  messages : page.messages = []
  contents : page.contents.ranges = []
  acquired : page.acquired.ranges = []

namespace PagedQueue

open Page

variable {q q' : PagedQueue} {p n : SequenceNumber} {i : Nat}

/-- All numbers of one page come before those of the other. -/
def Before (l l' : List SequenceNumber) : Prop := ∀ a ∈ l, ∀ b ∈ l', Ahead a b

/-- The pages come in the order of their numbers. -/
def Ordered (v : View) : Prop := (v.map numbersOf).Pairwise Before

/-- The pages in use are well-formed and in order, the free ones are empty. -/
structure Wf (q : PagedQueue) : Prop where
  pages : ∀ e ∈ q.used, e.2.Wf e.1
  order : Ordered q.view
  free : ∀ page ∈ q.free, page.Free

/-! ## Loading and unloading -/

/-- A page stays as it is, or is unloaded. -/
def MaybeUnloaded (e e' : SequenceNumber × Page) : Prop :=
  e' = e ∨ (e.2.isLoaded = true ∧ e' = (e.1, e.2.unload))

variable {l l' : List (SequenceNumber × Page)} {e : SequenceNumber × Page} {f : Page → Page}
  {P : SequenceNumber × List Message} {m : Message} {v : View} {g : Message → Message}

theorem unloadLast_spec (h : unloadLast l = some l') : List.Forall₂ MaybeUnloaded l l' := by
  induction l generalizing l' with
  | nil => exact absurd h nofun
  | cons e l ih =>
    have hrefl (l : List (SequenceNumber × Page)) : List.Forall₂ MaybeUnloaded l l :=
      forall₂_same.2 fun _ _ => .inl rfl
    rw [unloadLast] at h
    cases hl : unloadLast l with
    | some l1 =>
      rw [hl] at h
      cases h
      exact .cons (.inl rfl) (ih hl)
    | none =>
      rw [hl] at h
      simp only at h
      split at h
      · rename_i hloa
        cases h
        exact .cons (.inr ⟨hloa, rfl⟩) (hrefl l)
      · exact absurd h nofun

theorem makeRoom_spec (q : PagedQueue) : List.Forall₂ MaybeUnloaded q.used q.makeRoom.used := by
  have hrefl : List.Forall₂ MaybeUnloaded q.used q.used := forall₂_same.2 fun _ _ => .inl rfl
  unfold makeRoom
  split
  · split
    · rename_i l hl
      exact unloadLast_spec hl
    · exact hrefl
  · exact hrefl

theorem makeRoom_rest (q : PagedQueue) : q.makeRoom.free = q.free ∧ q.makeRoom.version = q.version ∧
    q.makeRoom.pageSize = q.pageSize ∧ q.makeRoom.name = q.name := by
  unfold makeRoom
  split
  · split <;> exact ⟨rfl, rfl, rfl, rfl⟩
  · exact ⟨rfl, rfl, rfl, rfl⟩

/-- Unloading pages does not change the view. -/
theorem maybeUnloaded_spec (h : List.Forall₂ MaybeUnloaded l l')
    (hl : ∀ e ∈ l, e.2.Wf e.1) : (∀ e ∈ l', e.2.Wf e.1) ∧ viewOf l' = viewOf l := by
  induction h with
  | nil => exact ⟨nofun, rfl⟩
  | @cons e e' l l' he _ ih =>
    obtain ⟨hwf, hl⟩ := forall_mem_cons.1 hl
    obtain ⟨hl', hview⟩ := ih hl
    obtain ⟨hwf', hview'⟩ : e'.2.Wf e'.1 ∧ (e'.1, e'.2.view) = (e.1, e.2.view) := by
      rcases he with rfl | ⟨hloa, rfl⟩
      · exact ⟨hwf, rfl⟩
      · exact ⟨hwf.unload hloa, by rw [hwf.view_unload hloa]⟩
    refine ⟨forall_mem_cons.2 ⟨hwf', hl'⟩, ?_⟩
    rw [viewOf, map_cons, hview']
    exact congrArg _ hview

/-- Two queues that differ only in which of their pages are in memory. -/
structure Same (q q' : PagedQueue) : Prop where
  wf : q'.Wf
  view : q'.view = q.view
  free : q'.free = q.free
  version : q'.version = q.version
  pageSize : q'.pageSize = q.pageSize
  name : q'.name = q.name

theorem Same.refl (h : q.Wf) : Same q q := ⟨h, rfl, rfl, rfl, rfl, rfl⟩

/-- Making room is not to be seen. -/
theorem Wf.makeRoom (h : q.Wf) : Same q q.makeRoom := by
  obtain ⟨hpages, hview⟩ := maybeUnloaded_spec q.makeRoom_spec h.pages
  obtain ⟨hfree, hver, hsize, hname⟩ := q.makeRoom_rest
  refine ⟨⟨hpages, ?_, hfree.symm ▸ h.free⟩, hview, hfree, hver, hsize, hname⟩
  have hv : q.makeRoom.view = q.view := hview
  rw [hv]
  exact h.order

theorem viewOf_modify (he : l[i]? = some e)
    (f : Page → Page) : viewOf (l.modify i fun e => (e.1, f e.2)) = (viewOf l).set i (e.1, (f e.2).view) := by
  refine ext_getElem? fun j => ?_
  rw [viewOf, viewOf, getElem?_map, getElem?_modify, getElem?_set, length_map]
  by_cases hij : i = j
  · subst hij
    rw [he, if_pos (List.getElem?_eq_some_iff.1 he).1]
    simp
  · simp [hij]

theorem mem_modify {x : SequenceNumber × Page} (he : l[i]? = some e)
    (hx : x ∈ l.modify i fun e => (e.1, f e.2)) : x ∈ l ∨ x = (e.1, f e.2) := by
  obtain ⟨j, hlt, rfl⟩ := getElem_of_mem hx
  rw [getElem_modify]
  rw [length_modify] at hlt
  split
  · rename_i hij
    subst hij
    rw [getElem?_eq_getElem hlt] at he
    exact .inr (by rw [Option.some.inj he])
  · exact .inl (getElem_mem hlt)

/-- A change of one page is a change of its part of the view. -/
theorem Wf.modifyPage (h : q.Wf) (he : q.used[i]? = some e)
    (hf : (f e.2).Wf e.1) (horder : Ordered (q.view.set i (e.1, (f e.2).view))) :
    (q.modifyPage i f).Wf ∧ (q.modifyPage i f).view = q.view.set i (e.1, (f e.2).view) := by
  have hview : (q.modifyPage i f).view = q.view.set i (e.1, (f e.2).view) := viewOf_modify he f
  refine ⟨⟨fun x hx => ?_, hview ▸ horder, h.free⟩, hview⟩
  rcases mem_modify he hx with hx | rfl
  · exact h.pages x hx
  · exact hf

theorem view_getElem? (he : q.used[i]? = some e) : q.view[i]? = some (e.1, e.2.view) := by
  rw [view, viewOf, getElem?_map, he, map_some]

theorem set_view_self (he : q.used[i]? = some e) : q.view.set i (e.1, e.2.view) = q.view := by
  obtain ⟨hlt, hget⟩ := List.getElem?_eq_some_iff.1 (view_getElem? he)
  rw [← hget, set_getElem_self]

theorem makeRoom_getElem? (he : q.used[i]? = some e) (hl : e.2.isLoaded = false) : q.makeRoom.used[i]? = some e := by
  have hspec := q.makeRoom_spec
  have hlt := (List.getElem?_eq_some_iff.1 he).1
  have hlt' : i < q.makeRoom.used.length := hspec.length_eq ▸ hlt
  have hrel := hspec.get hlt hlt'
  rw [getElem?_eq_getElem hlt] at he
  have he' : q.used.get ⟨i, hlt⟩ = e := Option.some.inj he
  rw [he'] at hrel
  rw [getElem?_eq_getElem hlt']
  rcases hrel with hsame | ⟨hloa, -⟩
  · exact congrArg some hsame
  · exact absurd (hl.symm.trans hloa) nofun

/-- A page is loaded, another may be unloaded for it. -/
theorem Wf.load (h : q.Wf) (he : q.used[i]? = some e) (hl : e.2.isLoaded = false) :
    Same q (q.load i) ∧ (q.load i).used[i]? = some (e.1, e.2.load) := by
  have hroom := h.makeRoom
  have he' := makeRoom_getElem? he hl
  have hpage := h.pages e (mem_of_getElem? he)
  have hset : q.makeRoom.view.set i (e.1, e.2.load.view) = q.makeRoom.view := by
    rw [hpage.view_load hl, set_view_self he']
  obtain ⟨hwf, hview⟩ := hroom.wf.modifyPage he' (hpage.load hl) (by rw [hset]; exact hroom.wf.order)
  rw [hset] at hview
  refine ⟨⟨⟨hwf.pages, hwf.order, hwf.free⟩, ?_, hroom.free, hroom.version, hroom.pageSize, hroom.name⟩, ?_⟩
  · exact hview.trans hroom.view
  · show (q.makeRoom.used.modify i _)[i]? = _
    rw [List.getElem?_modify_eq, he']
    rfl

theorem Wf.require (h : q.Wf) (i : Nat) :
    Same q (q.require i) ∧ ∀ e, (q.require i).used[i]? = some e → e.2.isLoaded = true := by
  unfold PagedQueue.require
  cases he : q.used[i]? with
  | none => exact ⟨Same.refl h, fun e hf => absurd (he.symm.trans hf) nofun⟩
  | some e =>
    simp only
    split
    · rename_i hl
      refine ⟨Same.refl h, fun e' hf => ?_⟩
      rw [← Option.some.inj (he.symm.trans hf)]
      exact hl
    rename_i hl
    obtain ⟨hsame, hget⟩ := h.load he (Bool.eq_false_iff.2 hl)
    refine ⟨hsame, fun e' hf => ?_⟩
    rw [← Option.some.inj (hget.symm.trans hf), Page.load]
    split <;> rfl

/-! ## The page of a number -/

/-- The page that `findPage` chooses, by the numbers of the pages. -/
def placeOf (v : View) (n : SequenceNumber) : Option Nat :=
  match (v.takeWhile fun P => P.1.le n).length with
  | 0 => none
  | i + 1 => some i

/-- The page of a number can be told from the view. -/
theorem pageOf_eq (q : PagedQueue) (n : SequenceNumber) : q.pageOf n = placeOf q.view n := by
  have hl : (q.view.takeWhile fun P => P.1.le n).length = (q.used.takeWhile fun e => e.1.le n).length := by
    rw [view, viewOf, takeWhile_map, length_map]
    rfl
  cases hn : (q.used.takeWhile fun e => e.1.le n).length with
  | zero => simp [pageOf, placeOf, hl, hn]
  | succ i => simp [pageOf, placeOf, hl, hn]

/-- Numbers on the pages, within a half of the numbers of their page. -/
def Within (v : View) : Prop := ∀ P ∈ v, ∀ m ∈ P.2, dist P.1 m.sequence + 2 < 2 ^ 31

theorem Wf.within (h : q.Wf) : Within q.view := by
  intro P hP
  obtain ⟨e, he, rfl⟩ := mem_map.1 hP
  exact (h.pages e he).within

theorem le_of_within {k : SequenceNumber} (h : dist k p + 2 < 2 ^ 31) : k.le p = true := by
  rw [le, Bool.not_eq_true', ← Bool.not_eq_true, lt_iff]
  omega

theorem le_of_ahead' {a b : SequenceNumber} (h : Ahead a b) : a.le b = true := by
  obtain ⟨h1, h2⟩ := h
  rw [le, Bool.not_eq_true', ← Bool.not_eq_true, lt_iff]
  omega

/-- Of the pages in order, those before the page of a message have numbers that are not greater,
and the ones after it have greater ones. -/
theorem takeWhile_eq {pre post : View} (ho : Ordered (pre ++ P :: post))
    (hw : Within (pre ++ P :: post)) (hm : m ∈ P.2) :
    (pre ++ P :: post).takeWhile (fun P => P.1.le m.sequence) = pre ++ [P] := by
  rw [Ordered, map_append, map_cons, pairwise_append, pairwise_cons] at ho
  obtain ⟨-, ⟨hpost, -⟩, hpre⟩ := ho
  have hnum : m.sequence ∈ numbersOf P := mem_cons_of_mem _ (mem_map_of_mem hm)
  rw [takeWhile_append_of_pos]
  · have hP : (fun P : SequenceNumber × List Message => P.1.le m.sequence) P = true :=
      le_of_within (hw P (by simp) m hm)
    rw [takeWhile_cons, if_pos hP]
    congr 2
    cases post with
    | nil => rfl
    | cons Q post =>
      refine takeWhile_cons_of_neg ?_
      have hQ := hpost (numbersOf Q) (by simp) _ hnum Q.1 mem_cons_self
      rw [le_of_ahead hQ]
      exact Bool.false_ne_true
  · intro Q hQ
    exact le_of_ahead' (hpre (numbersOf Q) (mem_map_of_mem hQ) (numbersOf P) mem_cons_self Q.1
      mem_cons_self _ hnum)

/-- A number is on the page it was put on. -/
theorem placeOf_of_mem (ho : Ordered v) (hw : Within v)
    (hi : v[i]? = some P) (hm : m ∈ P.2) : placeOf v m.sequence = some i := by
  obtain ⟨hlt, rfl⟩ := List.getElem?_eq_some_iff.1 hi
  have hsplit : v = v.take i ++ v[i] :: v.drop (i + 1) := by
    rw [getElem_cons_drop, take_append_drop]
  have htake : (v.take i ++ v[i] :: v.drop (i + 1)).takeWhile (fun P => P.1.le m.sequence) = v.take i ++ [v[i]] :=
    takeWhile_eq (hsplit ▸ ho) (hsplit ▸ hw) hm
  rw [← hsplit] at htake
  rw [placeOf, htake]
  simp only [length_append, length_take, length_singleton]
  rw [Nat.min_eq_left hlt.le]

theorem exists_page_of_mem (hm : m ∈ all v) :
    ∃ (i : Nat) (P : SequenceNumber × List Message), v[i]? = some P ∧ m ∈ P.2 := by
  obtain ⟨P, hP, hm⟩ := mem_flatMap.1 hm
  obtain ⟨i, hi⟩ := mem_iff_getElem?.1 hP
  exact ⟨i, P, hi, hm⟩

theorem mem_page (ho : Ordered v) (hw : Within v)
    (hplace : placeOf v p = some i) (hi : v[i]? = some P) (hm : m ∈ all v) (hp : m.sequence = p) :
    m ∈ P.2 := by
  obtain ⟨j, Q, hj, hmQ⟩ := exists_page_of_mem hm
  have hpla' := placeOf_of_mem ho hw hj hmQ
  rw [hp, hplace] at hpla'
  cases hpla'
  rwa [Option.some.inj (hi.symm.trans hj)]

theorem not_mem_of_placeOf_none (ho : Ordered v) (hw : Within v) (hplace : placeOf v p = none)
    (hm : m ∈ all v) : m.sequence ≠ p := by
  rintro rfl
  obtain ⟨j, Q, hj, hmQ⟩ := exists_page_of_mem hm
  exact absurd (hplace.symm.trans (placeOf_of_mem ho hw hj hmQ)) nofun

theorem placeOf_lt (h : placeOf v p = some i) : ∃ P, v[i]? = some P ∧ P.1.le p = true := by
  unfold placeOf at h
  split at h
  · exact absurd h nofun
  rename_i j hj
  obtain rfl := Option.some.inj h
  have hlt : j < (v.takeWhile fun P => P.1.le p).length := by omega
  refine ⟨(v.takeWhile fun P => P.1.le p)[j], ?_, ?_⟩
  · conv_lhs => rw [← takeWhile_append_dropWhile (p := fun P : SequenceNumber × List Message => P.1.le p) (l := v)]
    rw [getElem?_append_left hlt, getElem?_eq_getElem hlt]
  · exact mem_takeWhile_imp (p := fun P : SequenceNumber × List Message => P.1.le p) (getElem_mem hlt)

/-! ## `find` -/

/-- A page in memory that was chosen for a number. -/
structure Chosen (q : PagedQueue) (p : SequenceNumber) (i : Nat) (e : SequenceNumber × Page) : Prop where
  same : Same q (q.require i)
  page : (q.require i).used[i]? = some e
  isLoaded : e.2.isLoaded = true
  le : dist e.1 p < 2 ^ 31

namespace Chosen

variable {e : SequenceNumber × Page}

theorem wf (h : Chosen q p i e) : e.2.Wf e.1 := h.same.wf.pages e (mem_of_getElem? h.page)

theorem view (h : Chosen q p i e) : q.view[i]? = some (e.1, e.2.view) := by
  rw [← h.same.view]
  exact view_getElem? h.page

theorem covers (h : Chosen q p i e) : e.2.covers p = true := h.wf.covers h.isLoaded h.le

theorem window (h : Chosen q p i e) : Window (e.2.messages.map (·.sequence)) := by
  have hw := h.wf.window
  rwa [view_loaded h.isLoaded, map_map] at hw

end Chosen

theorem assert_true (q : PagedQueue) : q.assert true = q := by
  rw [PagedQueue.assert, Bool.not_true, Bool.or_false]

theorem alive_eq_some_iff : q.alive = some q' ↔ q.aborted = false ∧ q = q' := by
  unfold alive
  cases q.aborted <;> simp

theorem dist_lt_of_le {a b : SequenceNumber} (h : a.le b = true) : dist a b < 2 ^ 31 := by
  rw [le, Bool.not_eq_true', ← Bool.not_eq_true, lt_iff] at h
  omega

/-- The page of a number is loaded before it is looked at. -/
theorem Wf.chosen (h : q.Wf) (hplace : q.pageOf p = some i) : ∃ e, Chosen q p i e := by
  rw [pageOf_eq] at hplace
  obtain ⟨P, hP, hle⟩ := placeOf_lt hplace
  obtain ⟨hsame, hloa⟩ := h.require i
  rw [← hsame.view, PagedQueue.view, viewOf, getElem?_map] at hP
  obtain ⟨e, he, rfl⟩ := map_eq_some_iff.1 hP
  exact ⟨e, hsame, he, hloa e he, dist_lt_of_le hle⟩

theorem find_of_none (hplace : q.pageOf p = none) (c : Option QueueCursor) : q.find p c = (none, c, q) := by
  simp [find, findPage, hplace]

theorem Chosen.find (h : Chosen q p i e) (hplace : q.pageOf p = some i) (c : Option QueueCursor) :
    q.find p c = ((e.2.find p).map (i, ·), c.map (·.setPosition q.version p), q.require i) := by
  have hnum : (((e.2.find p).map (i, ·)).bind (q.require i).get).map (·.sequence) = none ∨
      (((e.2.find p).map (i, ·)).bind (q.require i).get).map (·.sequence) = some p := by
    cases hk : e.2.find p with
    | none => exact .inl rfl
    | some k =>
      have hk' := (find_eq_some_iff h.window).1 hk
      rw [getElem?_map] at hk'
      simp [get, h.page, hk']
  simp only [PagedQueue.find, findPage, hplace, if_true, h.page, all_some, h.covers, assert_true, h.same.version]
  rcases hnum with hn | hn <;> simp [hn]

theorem Chosen.found (h : Chosen q p i e) (hplace : q.pageOf p = some i) :
    q.found p = (e.2.find p).bind (e.2.messages[·]?) := by
  rw [PagedQueue.found, h.find hplace]
  cases e.2.find p with
  | none => rfl
  | some k => simp [get, h.page]

/-- `find` finds exactly the messages of the view. -/
theorem Wf.found_iff (h : q.Wf) : (q.found p).map face = some m ↔ m ∈ all q.view ∧ m.sequence = p := by
  cases hplace : q.pageOf p with
  | none =>
    rw [PagedQueue.found, find_of_none hplace]
    rw [pageOf_eq] at hplace
    refine ⟨fun hf => absurd hf nofun, fun ⟨hm, hp⟩ => ?_⟩
    exact absurd hp (not_mem_of_placeOf_none h.order h.within hplace hm)
  | some i =>
    obtain ⟨e, he⟩ := h.chosen hplace
    rw [he.found hplace]
    rw [pageOf_eq] at hplace
    constructor
    · intro hm
      obtain ⟨x, hx, rfl⟩ := map_eq_some_iff.1 hm
      obtain ⟨k, hk, hxk⟩ := bind_eq_some_iff.1 hx
      have hk' := (find_eq_some_iff he.window).1 hk
      rw [getElem?_map, hxk, map_some, Option.some.injEq] at hk'
      refine ⟨mem_flatMap.2 ⟨_, mem_of_getElem? he.view, ?_⟩, hk'⟩
      rw [view_loaded he.isLoaded]
      exact mem_map_of_mem (mem_of_getElem? hxk)
    rintro ⟨hm, hp⟩
    have hpage := mem_page h.order h.within hplace he.view hm hp
    rw [view_loaded he.isLoaded] at hpage
    obtain ⟨x, hx, rfl⟩ := mem_map.1 hpage
    obtain ⟨k, hk⟩ := mem_iff_getElem?.1 hx
    have hfind : e.2.find p = some k := (find_eq_some_iff he.window).2 (by
      rw [getElem?_map, hk]
      exact congrArg some hp)
    rw [hfind, bind_some, hk, map_some]

/-! ## Writing the message under a number -/

/-- What is done to the message under a number, wherever it is. -/
def markAll (p : SequenceNumber) (g : Message → Message) (v : View) : View :=
  v.map fun P => (P.1, P.2.map (mark p g))

theorem all_markAll (p : SequenceNumber) (g : Message → Message) (v : View) :
    all (markAll p g v) = (all v).map (mark p g) := by
  rw [all, markAll, flatMap_map, all, map_flatMap]

theorem map_mark_of_not_mem {l : List Message} (h : ∀ m ∈ l, m.sequence ≠ p) : l.map (mark p g) = l := by
  conv_rhs => rw [← map_id l]
  exact map_congr_left fun m hm => if_neg (h m hm)

/-- The message is on the page chosen, so it is enough to write that page. -/
theorem set_eq_markAll (ho : Ordered v) (hw : Within v) (hplace : placeOf v p = some i)
    (hi : v[i]? = some P) (g : Message → Message) :
    v.set i (P.1, P.2.map (mark p g)) = markAll p g v := by
  refine ext_getElem? fun j => ?_
  rw [markAll, getElem?_map, getElem?_set]
  by_cases hij : i = j
  · subst hij
    rw [if_pos rfl, if_pos (List.getElem?_eq_some_iff.1 hi).1, hi, map_some]
  rw [if_neg hij]
  cases hj : v[j]? with
  | none => rfl
  | some Q =>
    have hnot : ∀ m ∈ Q.2, m.sequence ≠ p := by
      rintro m hm rfl
      exact hij (Option.some.inj (hplace.symm.trans (placeOf_of_mem ho hw hj hm)))
    rw [map_some, map_mark_of_not_mem hnot]

theorem ordered_markAll (ho : Ordered v) (hg : Keeps g) (p : SequenceNumber) : Ordered (markAll p g v) := by
  have hnum : (markAll p g v).map numbersOf = v.map numbersOf := by
    rw [markAll, map_map]
    refine map_congr_left fun P _ => ?_
    rw [Function.comp_apply, numbersOf, map_map]
    congr 1
    exact map_congr_left fun m _ => (hg.mark p).sequence m
  rw [Ordered, hnum]
  exact ho

/-- What is done to the chosen page is done to the message of that number. -/
theorem Chosen.modifyPage (h : Chosen q p i e) (hq : q.Wf) (hplace : q.pageOf p = some i) (hg : Keeps g)
    (hwf : (f e.2).Wf e.1) (hview : (f e.2).view = e.2.view.map (mark p g)) :
    ((q.require i).modifyPage i f).Wf ∧ ((q.require i).modifyPage i f).view = markAll p g q.view := by
  rw [pageOf_eq] at hplace
  have hset : (q.require i).view.set i (e.1, (f e.2).view) = markAll p g q.view := by
    rw [hview, h.same.view]
    exact set_eq_markAll hq.order hq.within hplace h.view g
  obtain ⟨hwf', hview'⟩ := h.same.wf.modifyPage h.page hwf (by rw [hset]; exact ordered_markAll hq.order hg p)
  exact ⟨hwf', hview'.trans hset⟩

theorem markAll_of_not_mem (h : ∀ m ∈ all v, m.sequence ≠ p) : markAll p g v = v := by
  conv_rhs => rw [← map_id v]
  refine map_congr_left fun P hP => ?_
  rw [map_mark_of_not_mem fun m hm => h m (mem_flatMap.2 ⟨P, hP, hm⟩)]
  rfl

theorem Wf.not_mem (h : q.Wf) (hfound : q.found p = none) : ∀ m ∈ all q.view, m.sequence ≠ p := by
  intro m hm hp
  have := h.found_iff.2 ⟨hm, hp⟩
  rw [hfound] at this
  exact absurd this nofun

theorem found_none_of_pageOf (hplace : q.pageOf p = none) : q.found p = none := by
  rw [found, find_of_none hplace]
  rfl

theorem Wf.acquire (h : q.Wf) (hq' : q.call (.acquire p) = some q') :
    q'.Wf ∧ q'.view = markAll p (fun m => (FifoDistributor.acquire m).2) q.view := by
  cases hplace : q.pageOf p with
  | none =>
    simp only [call, find_of_none hplace] at hq'
    rw [← (alive_eq_some_iff.1 hq').2, markAll_of_not_mem (h.not_mem (found_none_of_pageOf hplace))]
    exact ⟨h, rfl⟩
  | some i =>
    obtain ⟨e, he⟩ := h.chosen hplace
    simp only [call, he.find hplace] at hq'
    cases hk : e.2.find p with
    | none =>
      have hnone : q.found p = none := by rw [he.found hplace, hk]; rfl
      simp only [hk, map_none] at hq'
      rw [← (alive_eq_some_iff.1 hq').2, markAll_of_not_mem (h.not_mem hnone)]
      exact ⟨he.same.wf, he.same.view⟩
    | some k =>
      simp only [hk, map_some] at hq'
      obtain ⟨hwf, hview⟩ := he.wf.acquire he.isLoaded hk
      rw [← (alive_eq_some_iff.1 hq').2]
      exact he.modifyPage h hplace keeps_acquire hwf hview

/-- A release makes the message available in the view. -/
theorem Wf.release (h : q.Wf) {c : QueueCursor} (hc : c.valid = true)
    (hnot : ∀ m ∈ all q.view, m.sequence = c.position → m.state ≠ .deleted) :
    (q.release c).2.Wf ∧ (q.release c).2.view = markAll c.position (·.setState .available) q.view := by
  cases hplace : q.pageOf c.position with
  | none =>
    simp only [PagedQueue.release, hc, findPage, hplace]
    rw [markAll_of_not_mem (h.not_mem (found_none_of_pageOf hplace))]
    exact ⟨h, rfl⟩
  | some i =>
    obtain ⟨e, he⟩ := h.chosen hplace
    simp only [PagedQueue.release, hc, if_true, findPage, hplace, he.page, he.covers, assert_true]
    obtain ⟨hwf, hview, -⟩ := he.wf.release he.isLoaded he.le fun m hm =>
      hnot m (mem_flatMap.2 ⟨_, mem_of_getElem? he.view, hm⟩)
    exact he.modifyPage h hplace (keeps_setState .available) hwf hview

/-! ## `deleted` -/

theorem free_clear {page : Page} {k : SequenceNumber} (h : page.Wf k) (he : page.empty = true) : page.clear.Free := by
  obtain ⟨N, hN, hacq⟩ := h.acquired
  have hnone := h.contents.isEmpty_iff.1 he
  refine ⟨rfl, rfl, rfl, rfl, List.isEmpty_iff.1 (hN.isEmpty_iff.2 fun n hn => ?_)⟩
  obtain ⟨m, hm, hs, hstate⟩ := hacq n hn
  exact hnone n ⟨m, hm, hs, by rw [hstate]; decide⟩

theorem ordered_sublist {v' : View} (h : v'.Sublist v) (ho : Ordered v) : Ordered v' :=
  List.Pairwise.sublist (h.map numbersOf) ho

/-- `deleted` marks the message, and removes its page when all on it are deleted. -/
theorem Wf.deleted (h : q.Wf) {c : QueueCursor} (hc : c.valid = true) {b : Bool} (hq' : q.deleted c = some (b, q')) :
    q'.Wf ∧ ((q'.view = markAll c.position (·.setState .deleted) q.view ∧
      ∀ i P, placeOf q.view c.position = some i → q.view[i]? = some P →
        ∃ m ∈ P.2, m.sequence ≠ c.position ∧ m.state ≠ .deleted) ∨
      ∃ i P, placeOf q.view c.position = some i ∧ q.view[i]? = some P ∧ q'.view = q.view.eraseIdx i ∧
        ∀ m ∈ P.2, m.sequence ≠ c.position → m.state = .deleted) := by
  cases hplace : q.pageOf c.position with
  | none =>
    simp only [PagedQueue.deleted, hc, if_true, hplace, Option.some.injEq, Prod.mk.injEq] at hq'
    rw [← hq'.2, markAll_of_not_mem (h.not_mem (found_none_of_pageOf hplace))]
    refine ⟨h, .inl ⟨rfl, fun i P hi => ?_⟩⟩
    rw [← pageOf_eq, hplace] at hi
    exact absurd hi nofun
  | some i =>
    have hpla' := hplace
    rw [pageOf_eq] at hpla'
    obtain ⟨P, hP, hle⟩ := placeOf_lt hpla'
    have hP' := hP
    rw [view, viewOf, getElem?_map] at hP'
    obtain ⟨e, he, rfl⟩ := map_eq_some_iff.1 hP'
    have hwf := h.pages e (mem_of_getElem? he)
    simp only [PagedQueue.deleted, hc, hplace, he] at hq'
    obtain ⟨page, hpage, hq'⟩ := map_eq_some_iff.1 hq'
    obtain ⟨hwf', hview'⟩ := hwf.deleted (dist_lt_of_le hle) hpage
    split at hq'
    · rename_i hempty
      obtain rfl := (Prod.mk.injEq _ _ _ _ ▸ hq').2
      have hview : viewOf (q.used.eraseIdx i) = q.view.eraseIdx i := by
        rw [viewOf, view, viewOf, eraseIdx_map]
      refine ⟨⟨fun x hx => h.pages x (mem_of_mem_eraseIdx hx), ?_, ?_⟩, .inr ⟨i, _, hpla', hP, hview, ?_⟩⟩
      · show Ordered (viewOf (q.used.eraseIdx i))
        rw [hview]
        exact ordered_sublist (eraseIdx_sublist _ _) h.order
      · intro page' hpage'
        rcases mem_append.1 hpage' with hf | hf
        · exact h.free page' hf
        · rw [mem_singleton.1 hf]
          exact free_clear hwf' hempty
      intro m hm hs
      by_contra hstate
      refine hwf'.contents.isEmpty_iff.1 hempty m.sequence ⟨m, ?_, rfl, hstate⟩
      rw [hview']
      exact mem_map.2 ⟨m, hm, if_neg hs⟩
    rename_i hempty
    obtain rfl := (Prod.mk.injEq _ _ _ _ ▸ hq').2
    have hset : q.view.set i (e.1, page.view) = markAll c.position (·.setState .deleted) q.view := by
      rw [hview']
      exact set_eq_markAll h.order h.within hpla' hP _
    obtain ⟨hwfq, hviewq⟩ := h.modifyPage he (f := fun _ => page) hwf'
      (by rw [hset]; exact ordered_markAll h.order (keeps_setState .deleted) _)
    refine ⟨hwfq, .inl ⟨hviewq.trans hset, fun j Q hj hQ => ?_⟩⟩
    cases hpla'.symm.trans hj
    cases hP.symm.trans hQ
    by_contra hnone
    refine hempty (hwf'.contents.isEmpty_iff.2 ?_)
    rintro n ⟨m, hm, -, hstate⟩
    rw [hview'] at hm
    obtain ⟨m0, hm0, rfl⟩ := mem_map.1 hm
    rw [mark_state] at hstate
    by_cases hs : m0.sequence = c.position
    · rw [if_pos hs] at hstate
      exact hstate rfl
    · rw [if_neg hs] at hstate
      exact hnone ⟨m0, hm0, hs, hstate⟩

/-! ## `publish` -/

variable {added : Message} {encoded : Nat} {s : SequenceNumber}

/-- A number that fits is ahead of every other. -/
theorem Fits.ahead (h : Fits v s) (hP : P ∈ v) {x : SequenceNumber} (hx : x ∈ numbersOf P) : Ahead x s := by
  obtain ⟨h1, h2⟩ := h P hP x hx
  exact ⟨h1, by omega⟩

theorem Ordered.append (ho : Ordered v)
    (hP : ∀ Q ∈ v, ∀ x ∈ numbersOf Q, ∀ y ∈ numbersOf P, Ahead x y) : Ordered (v ++ [P]) := by
  rw [Ordered, map_append, pairwise_append]
  refine ⟨ho, pairwise_singleton _ _, ?_⟩
  intro l hl l' hl'
  obtain ⟨Q, hQ, rfl⟩ := mem_map.1 hl
  rw [mem_singleton.1 hl']
  exact hP Q hQ

theorem insert_last {id : SequenceNumber} (h : ∀ e ∈ l, Ahead e.1 id)
    (page : Page) : insert l id page = l ++ [(id, page)] := by
  induction l with
  | nil => rfl
  | cons e l ih =>
    obtain ⟨he, hl⟩ := forall_mem_cons.1 h
    have hlt : ¬ id.lt e.1 = true := by
      rw [lt_iff]
      exact Nat.not_le.2 he.2
    rw [insert, if_neg he.ne.symm, if_neg hlt, ih hl]
    rfl

theorem modify_last {α : Type} (l : List α) (a : α) (f : α → α) : (l ++ [a]).modify l.length f = l ++ [f a] := by
  induction l with
  | nil => rfl
  | cons b l ih =>
    rw [cons_append, length_cons, modify_succ_cons, ih]
    rfl

theorem load_last (hq : q.used = l ++ [e]) (hl : e.2.isLoaded = false) :
    ∃ l', List.Forall₂ MaybeUnloaded l l' ∧ (q.load l.length).used = l' ++ [(e.1, e.2.load)] := by
  have hspec := q.makeRoom_spec
  rw [hq] at hspec
  have htake := forall₂_take_append _ _ _ hspec.flip
  have hdrop := forall₂_drop_append _ _ _ hspec.flip
  obtain ⟨e', hlast⟩ : ∃ e', q.makeRoom.used.drop l.length = [e'] := by
    have := hdrop.length_eq
    exact length_eq_one_iff.1 this
  rw [hlast] at hdrop
  obtain rfl : e' = e := by
    cases hdrop with
    | cons hrel _ =>
      rcases hrel with hsame | ⟨hloa, -⟩
      · exact hsame
      · exact absurd (hl.symm.trans hloa) nofun
  refine ⟨q.makeRoom.used.take l.length, htake.flip, ?_⟩
  have hsplit : q.makeRoom.used = q.makeRoom.used.take l.length ++ [e'] := by
    rw [← hlast, take_append_drop]
  have hleng : (q.makeRoom.used.take l.length).length = l.length := htake.length_eq
  have hmod := modify_last (q.makeRoom.used.take l.length) e' fun e => (e.1, e.2.load)
  rw [hleng, ← hsplit] at hmod
  exact hmod

/-- A new page is the first of the free list, which is filled before it if it is empty. It goes after
the others, and is loaded. -/
theorem Wf.newPage_eq (h : q.Wf) (hfits : Fits q.view s) :
    ∃ (q2 : PagedQueue) (page : Page), q2.used = q.makeRoom.used ∧ q2.loaded = q.makeRoom.loaded ∧
      (∀ page ∈ q2.free, page.Free) ∧ q2.name = q.name ∧ q2.maxLoaded = q.makeRoom.maxLoaded ∧ page.Free ∧
      q.newPage s = (q2.used.length,
        { q2 with used := q2.used ++ [(s, page)], free := q2.free.tail }.load q2.used.length) := by
  have hroom := h.makeRoom
  obtain ⟨q2, hq2, hused, hloaded, hfree, hname, hmax⟩ : ∃ q2,
      q2 = (let q := if q.makeRoom.free.isEmpty then q.makeRoom.addPages 4 else q.makeRoom
        q.assert (q.used.all fun e => e.1 ≠ s)) ∧
      q2.used = q.makeRoom.used ∧ q2.loaded = q.makeRoom.loaded ∧ (∀ page ∈ q2.free, page.Free) ∧
      q2.name = q.name ∧ q2.maxLoaded = q.makeRoom.maxLoaded := by
    refine ⟨_, rfl, ?_, ?_, ?_, ?_, ?_⟩ <;> simp only [PagedQueue.assert]
    · split <;> rfl
    · split <;> rfl
    · split
      · intro page hpage
        rcases mem_append.1 hpage with hpage | hpage
        · exact hroom.wf.free page hpage
        · rw [eq_of_mem_replicate hpage]
          exact ⟨rfl, rfl, rfl, rfl, rfl⟩
      · exact hroom.wf.free
    · split <;> exact hroom.name
    · split <;> rfl
  have hpage : (q2.free.headD { size := q2.pageSize }).Free := by
    cases hf : q2.free with
    | nil => exact ⟨rfl, rfl, rfl, rfl, rfl⟩
    | cons page free => exact hfree page (by simp [hf])
  refine ⟨q2, _, hused, hloaded, hfree, hname, hmax, hpage, ?_⟩
  generalize hpg : q2.free.headD { size := q2.pageSize } = page
  have hkeys : ∀ e ∈ q2.used, Ahead e.1 s := by
    intro e he
    rw [hused] at he
    refine hfits.ahead (P := (e.1, e.2.view)) ?_ mem_cons_self
    rw [← hroom.view]
    exact mem_map_of_mem he
  have hidx : (q2.used ++ [(s, page)]).findIdx (fun e => decide (e.1 = s)) = q2.used.length := by
    rw [findIdx_append, if_neg]
    · simp
    · rw [findIdx_lt_length]
      rintro ⟨e, he, hs⟩
      exact (hkeys e he).ne (of_decide_eq_true hs)
  simp only [PagedQueue.newPage, ← hq2, hpg, insert_last hkeys page, hidx]

/-- A new page is last, and shows nothing. -/
theorem Wf.newPage (h : q.Wf) (hfits : Fits q.view s) :
    ∃ page, page.Wf s ∧ page.view = [] ∧ page.isLoaded = true ∧
      (q.newPage s).2.used[(q.newPage s).1]? = some (s, page) ∧
      (q.newPage s).1 = q.view.length ∧ (q.newPage s).2.Wf ∧ (q.newPage s).2.view = q.view ++ [(s, [])] ∧
      (q.newPage s).2.name = q.name := by
  have hroom := h.makeRoom
  obtain ⟨q2, page, hused, -, hfree, hname, -, hpage, hnew⟩ := h.newPage_eq hfits
  obtain ⟨l', hl', hload⟩ := load_last (q := { q2 with used := q2.used ++ [(s, page)], free := q2.free.tail })
    rfl hpage.isLoaded
  obtain ⟨hpages, hview⟩ := maybeUnloaded_spec hl' (by rw [hused]; exact hroom.wf.pages)
  obtain ⟨hfresh, hfre, hfres⟩ := Page.Wf.fresh s hpage.used hpage.messages hpage.contents hpage.acquired
  have hview' : viewOf (l' ++ [(s, page.load)]) = q.view ++ [(s, [])] := by
    rw [viewOf, map_append, map_singleton, hfre]
    have hl : viewOf l' = q.view := by
      rw [hview, hused]
      exact hroom.view
    exact congrArg (· ++ _) hl
  have hrest := ({ q2 with used := q2.used ++ [(s, page)], free := q2.free.tail } : PagedQueue).makeRoom_rest
  rw [hnew]
  refine ⟨page.load, hfresh, hfre, hfres, ?_, ?_, ⟨?_, ?_, ?_⟩, ?_, ?_⟩
  · rw [hload, getElem?_append_right (Nat.le_of_eq hl'.length_eq.symm), hl'.length_eq, Nat.sub_self]
    rfl
  · rw [hused, ← hroom.view, PagedQueue.view, viewOf, length_map]
  · rw [hload]
    intro e he
    rcases mem_append.1 he with he | he
    · exact hpages e he
    · rw [mem_singleton.1 he]
      exact hfresh
  · rw [PagedQueue.view, hload, hview']
    refine h.order.append fun Q hQ x hx y hy => ?_
    rw [mem_singleton.1 hy]
    exact hfits.ahead hQ hx
  · intro page' hpage'
    have hfree' : page' ∈
        ({ q2 with used := q2.used ++ [(s, page)], free := q2.free.tail } : PagedQueue).makeRoom.free :=
      hpage'
    rw [hrest.1] at hfree'
    exact hfree page' (mem_of_mem_tail hfree')
  · rw [PagedQueue.view, hload, hview']
  · exact hrest.2.2.2.trans hname

theorem addTo_eq (he : q.used[i]? = some e) :
    q.addTo i added encoded = ((e.2.add added encoded).1, q.modifyPage i fun _ => (e.2.add added encoded).2) := by
  simp [addTo, he]

theorem add_of_not {page : Page} (h : (page.add added encoded).1 = false) : (page.add added encoded).2 = page := by
  unfold Page.add at h ⊢
  split
  · rfl
  · rename_i hroom
    rw [if_neg hroom] at h
    exact absurd h nofun

theorem modifyPage_self (he : q.used[i]? = some e) : q.modifyPage i (fun _ => e.2) = q := by
  have hused : q.used.modify i (fun x => (x.1, e.2)) = q.used := by
    refine ext_getElem? fun j => ?_
    rw [getElem?_modify]
    by_cases hij : i = j
    · subst hij
      rw [he]
      simp
    · simp [hij]
  rw [modifyPage, hused]

theorem Wf.addTo (h : q.Wf) (he : q.used[i]? = some e)
    (hl : e.2.isLoaded = true) (hi : i = v.length) (hv : q.view = v ++ [(e.1, e.2.view)])
    (hadd : (e.2.add added encoded).1 = true) (hfits : ∀ Q ∈ v, ∀ x ∈ numbersOf Q, Ahead x added.sequence)
    (hwit : dist e.1 added.sequence + 2 < 2 ^ 31)
    (hnext : ∀ m ∈ e.2.view.getLast?, added.sequence = m.sequence + 1)
    (hfirst : e.2.view = [] → added.sequence = e.1) :
    (q.addTo i added encoded).2.Wf ∧
      (q.addTo i added encoded).2.view = v ++ [(e.1, e.2.view ++ [face (added.setState .available)])] := by
  obtain ⟨hwf, hview⟩ := (h.pages e (mem_of_getElem? he)).add hl hadd hwit hnext hfirst
  rw [addTo_eq he]
  have hset : q.view.set i (e.1, (e.2.add added encoded).2.view) =
      v ++ [(e.1, e.2.view ++ [face (added.setState .available)])] := by
    rw [hv, hview, hi, set_append_right _ _ le_rfl, Nat.sub_self]
    rfl
  obtain ⟨hwfq, hviewq⟩ := h.modifyPage he (f := fun _ => (e.2.add added encoded).2) hwf (by
    rw [hset]
    have ho := h.order
    rw [hv, Ordered, map_append, pairwise_append] at ho
    refine Ordered.append ho.1 fun Q hQ x hx y hy => ?_
    have hnum : numbersOf (e.1, e.2.view ++ [face (added.setState .available)]) =
        numbersOf (e.1, e.2.view) ++ [added.sequence] := by
      simp [numbersOf]
    rw [hnum] at hy
    rcases mem_append.1 hy with hy | hy
    · exact ho.2.2 _ (mem_map_of_mem hQ) _ (by simp) x hx y hy
    · rw [mem_singleton.1 hy]
      exact hfits Q hQ x hx)
  exact ⟨hwfq, hviewq.trans hset⟩

/-- A message that the last page takes is at its end if it follows the last message there. -/
theorem Wf.publish_joins (h : q.Wf) (hfits : Fits q.view added.sequence) {encoded : Nat}
    (hjoins : Joins q added encoded) :
    (q.publish added encoded).1 = .ok () ∧ ∃ v P, q.view = v ++ [P] ∧
      ((∃ m ∈ P.2.getLast?, added.sequence = m.sequence + 1) → (q.publish added encoded).2.Wf ∧
        (q.publish added encoded).2.view = v ++ [(P.1, P.2 ++ [face (added.setState .available)])]) := by
  obtain ⟨hsame, hloa⟩ := h.require (q.used.length - 1)
  have hpub : q.publish added encoded =
      (.ok (), ((q.require (q.used.length - 1)).addTo (q.used.length - 1) added encoded).2) := by
    rw [PagedQueue.publish, if_neg (Nat.not_lt.2 hjoins.1)]
    simp [hjoins.2]
  refine ⟨by rw [hpub], ?_⟩
  cases he : (q.require (q.used.length - 1)).used[q.used.length - 1]? with
  | none =>
    have hadded := hjoins.2
    simp only [PagedQueue.addTo, he] at hadded
    exact absurd hadded nofun
  | some e =>
    have hleng : (q.require (q.used.length - 1)).used.length = q.used.length := by
      have := congrArg List.length hsame.view
      simpa [PagedQueue.view, viewOf] using this
    have hpos : 0 < q.used.length := by
      have := (List.getElem?_eq_some_iff.1 he).1
      omega
    have hsplit : q.view = q.view.take (q.used.length - 1) ++ [(e.1, e.2.view)] := by
      have hget := view_getElem? he
      rw [hsame.view] at hget
      obtain ⟨hlt, hget⟩ := List.getElem?_eq_some_iff.1 hget
      have hlast : q.used.length - 1 + 1 = q.view.length := by
        rw [PagedQueue.view, viewOf, length_map]
        omega
      rw [← hget, ← take_succ_eq_append_getElem hlt, hlast, take_length]
    refine ⟨q.view.take (q.used.length - 1), _, hsplit, fun ⟨x, hx, hnext⟩ => ?_⟩
    rw [hpub]
    have hmem : (e.1, e.2.view) ∈ q.view := by
      rw [hsplit]
      simp
    refine hsame.wf.addTo he (hloa e he) ?_ (hsame.view.trans hsplit) ?_ ?_ (hfits _ hmem e.1 mem_cons_self).2
      (fun m hm => by rwa [Option.some.inj (hm.symm.trans hx)])
      fun hnil => absurd (mem_of_mem_getLast? hx) (by rw [hnil]; exact not_mem_nil)
    · rw [length_take, PagedQueue.view, viewOf, length_map]
      omega
    · have hadded := hjoins.2
      rw [addTo_eq he] at hadded
      exact hadded
    · exact fun Q hQ x hx => hfits.ahead (mem_of_mem_take hQ) hx

/-- Any other message is on a new page, unless that has no room for it either. -/
theorem Wf.publish_begins (h : q.Wf) (hfits : Fits q.view added.sequence) {encoded : Nat}
    (hsize : encoded ≤ q.pageSize) (hjoins : ¬ Joins q added encoded) :
    (q.publish added encoded).2.Wf ∧ (((q.publish added encoded).1 = .ok () ∧
        (q.publish added encoded).2.view = q.view ++ [(added.sequence, [face (added.setState .available)])]) ∨
      ∃ text, (q.publish added encoded).1 = .error text ∧
        (q.publish added encoded).2.view = q.view ++ [(added.sequence, [])]) := by
  obtain ⟨hsame, hloa⟩ := h.require (q.used.length - 1)
  -- nothing was added to the last page, so a new one is begun
  have hnot : ((q.require (q.used.length - 1)).addTo (q.used.length - 1) added encoded) =
      (false, q.require (q.used.length - 1)) := by
    have hnot : ((q.require (q.used.length - 1)).addTo (q.used.length - 1) added encoded).1 = false :=
      Bool.eq_false_iff.2 fun hadded => hjoins ⟨hsize, hadded⟩
    cases he : (q.require (q.used.length - 1)).used[q.used.length - 1]? with
    | none => simp [PagedQueue.addTo, he]
    | some e =>
      rw [addTo_eq he] at hnot ⊢
      rw [hnot, add_of_not hnot, modifyPage_self he]
  obtain ⟨page, hpage, hpview, hplo, hget, hi, hwf, hview, -⟩ :=
    hsame.wf.newPage (by rw [hsame.view]; exact hfits)
  rw [hsame.view] at hi hview
  have hpub : q.publish added encoded =
      if (page.add added encoded).1 then
        (.ok (), (((q.require (q.used.length - 1)).newPage added.sequence).2.addTo q.view.length added encoded).2)
      else (.error ("Could not add message to paged queue " ++
        (((q.require (q.used.length - 1)).newPage added.sequence).2.addTo q.view.length added encoded).2.name),
        (((q.require (q.used.length - 1)).newPage added.sequence).2.addTo q.view.length added encoded).2) := by
    rw [hi] at hget
    rw [PagedQueue.publish, if_neg (Nat.not_lt.2 hsize)]
    simp [hnot, hi, addTo_eq hget]
  rw [hi] at hget
  rw [hpub]
  cases hadd : (page.add added encoded).1 with
  | true =>
    obtain ⟨hwf', hview'⟩ := hwf.addTo hget hplo rfl (by rw [hview, hpview]) hadd
      (fun Q hQ x hx => hfits.ahead hQ hx) (by rw [dist_self]; decide) (by rw [hpview]; exact nofun) fun _ => rfl
    rw [if_pos rfl]
    refine ⟨hwf', .inl ⟨rfl, ?_⟩⟩
    rw [hview', hpview]
    rfl
  | false =>
    rw [addTo_eq hget, add_of_not hadd, modifyPage_self hget]
    exact ⟨hwf, .inr ⟨_, rfl, hview⟩⟩

/-- `publish` puts the message on the last page, or on a new one, where it may find no room. -/
theorem Wf.publish (h : q.Wf) (hfits : Fits q.view added.sequence) (encoded : Nat) :
    (∃ text, q.publish added encoded = (.error text, q)) ∨
    (Joins q added encoded ∧ (q.publish added encoded).1 = .ok () ∧ ∃ v P, q.view = v ++ [P] ∧
      ((∃ m ∈ P.2.getLast?, added.sequence = m.sequence + 1) → (q.publish added encoded).2.Wf ∧
        (q.publish added encoded).2.view = v ++ [(P.1, P.2 ++ [face (added.setState .available)])])) ∨
    (¬ Joins q added encoded ∧ (q.publish added encoded).2.Wf ∧ (((q.publish added encoded).1 = .ok () ∧
        (q.publish added encoded).2.view = q.view ++ [(added.sequence, [face (added.setState .available)])]) ∨
      ∃ text, (q.publish added encoded).1 = .error text ∧
        (q.publish added encoded).2.view = q.view ++ [(added.sequence, [])])) := by
  by_cases hsize : encoded > q.pageSize
  · exact .inl ⟨_, by rw [PagedQueue.publish, if_pos hsize]⟩
  by_cases hjoins : Joins q added encoded
  · exact .inr (.inl ⟨hjoins, h.publish_joins hfits hjoins⟩)
  · exact .inr (.inr ⟨hjoins, h.publish_begins hfits (Nat.not_lt.1 hsize) hjoins⟩)

end PagedQueue

end QB.Impl
