import QpidBroker.Proof.PagedLedger
import QpidBroker.Proof.Seek

/-!
# Seeking in a paged queue

`next` returns the first message after the cursor's position, whichever pages it has to load
(`next_eq`). `find` leaves the version in the cursor for a position, or does not set the
cursor at all, so the seek is exact if no message that the cursor stops at lies
between that number and the position sought (`paged_exact_iff`).
-/

namespace QB.Spec.Seek

open Impl Serial Search
open List hiding all
open IndexedDeque (SameKind)
open Option hiding mem_map all_eq_true map_map mem_map_of_mem

variable {p : SequenceNumber} {c : QueueCursor} {b : SequenceNumber}

def after (c : QueueCursor) (m : Message) : Bool := !c.valid || c.position.lt m.sequence

/-- The cursor, if it is at a position, is in the half from `b` on. -/
def Placed (b : SequenceNumber) (c : QueueCursor) : Prop := c.valid = true → dist b c.position + 1 < 2 ^ 31

theorem after_iff (hc : Placed b c) {m : Message} (hm : dist b m.sequence + 1 < 2 ^ 31) :
    after c m = true ↔ (c.valid = true → dist b c.position < dist b m.sequence) := by
  unfold after
  cases hv : c.valid with
  | false => simp
  | true => simp [lt_iff_dist (hc hv) hm]

theorem dist_le_of_dist_lt {x y : SequenceNumber} (hx : dist b x < 2 ^ 31) (hy : dist b y < 2 ^ 31)
    (h : dist x y < 2 ^ 31) : dist b x ≤ dist b y := by
  simp only [Serial.dist] at *
  bv_omega

/-! ## One page -/

section page

open Page

variable {page : Page} {k : SequenceNumber} {v : BitVec 32}

/-- The loop of `next` stops at the first message that the cursor takes. -/
theorem page_nextLoop (pre l : List Message) (n : SequenceNumber) (c : QueueCursor)
    (hn : ∀ j m, l[j]? = some m → m.sequence = n + BitVec.ofNat 32 j) :
    (Page.nextLoop v l pre.length n c).1.map ((pre ++ l)[·]?) = (l.find? fun m => c.check m.state).map some ∧
      SameKind c (Page.nextLoop v l pre.length n c).2 ∧
      ((Page.nextLoop v l pre.length n c).2 = c ∨
        ∃ m ∈ l, (Page.nextLoop v l pre.length n c).2 = c.setPosition m.sequence v) := by
  induction l generalizing pre n c with
  | nil => exact ⟨rfl, SameKind.refl c, .inl rfl⟩
  | cons m l ih =>
    have hm : m.sequence = n := by simpa using hn 0 m rfl
    have hkind := SameKind.setPosition c n v
    rw [Page.nextLoop, find?_cons]
    simp only [hkind.check]
    cases hcheck : c.check m.state with
    | true =>
      refine ⟨?_, hkind, .inr ⟨m, mem_cons_self, by rw [hm]; rfl⟩⟩
      simp
    | false =>
      have hn' : ∀ j x, l[j]? = some x → x.sequence = n + 1 + BitVec.ofNat 32 j := by
        intro j x hx
        rw [hn (j + 1) x hx]
        bv_omega
      obtain ⟨h1, h2, h3⟩ := ih (pre ++ [m]) (n + 1) (c.setPosition n v) hn'
      rw [length_append, append_assoc] at h1
      rw [length_append, length_singleton] at h2 h3
      simp only [Bool.false_eq_true, if_false]
      refine ⟨h1, hkind.trans h2, .inr ?_⟩
      rcases h3 with h3 | ⟨x, hx, h3⟩
      · exact ⟨m, mem_cons_self, by rw [h3, hm]⟩
      · exact ⟨x, mem_cons_of_mem _ hx, h3⟩

theorem page_nextLoop_drop {l : List Message} (hw : Window (l.map (·.sequence))) {f : Message} (hf : l.head? = some f)
    {i : Nat} (hi : i ≤ l.length) (c : QueueCursor) :
    (Page.nextLoop v (l.drop i) i (f.sequence + BitVec.ofNat 32 i) c).1.map (l[·]?) =
        ((l.drop i).find? fun m => c.check m.state).map some ∧
      SameKind c (Page.nextLoop v (l.drop i) i (f.sequence + BitVec.ofNat 32 i) c).2 ∧
      ((Page.nextLoop v (l.drop i) i (f.sequence + BitVec.ofNat 32 i) c).2 = c ∨
        ∃ m ∈ l.drop i, (Page.nextLoop v (l.drop i) i (f.sequence + BitVec.ofNat 32 i) c).2 =
          c.setPosition m.sequence v) := by
  have hspec := page_nextLoop (v := v) (l.take i) (l.drop i) (f.sequence + BitVec.ofNat 32 i) c fun j m hm => by
    rw [getElem?_drop] at hm
    have hseq := hw.consec.getElem?_eq
      (by rw [head?_map, hf]; rfl) (by rw [getElem?_map, hm]; rfl)
    bv_omega
  rwa [length_take, Nat.min_eq_left hi, take_append_drop] at hspec

/-- The loop starts after the cursor, or at the first message if the cursor is before it. -/
theorem page_next_eq {front : Message} (hf : page.messages.head? = some front) {start : SequenceNumber}
    {c' : QueueCursor}
    (hstart : start = if c.valid && !(c.position + 1).lt front.sequence then c.position + 1 else front.sequence)
    (hc' : c' = if c.valid && !(c.position + 1).lt front.sequence then c else c.setPosition start v) :
    page.next v c = Page.nextLoop v (page.messages.drop (start.sub front.sequence).toNat)
      (start.sub front.sequence).toNat start c' := by
  rw [hc', hstart]
  unfold Page.next
  cases hms : page.messages with
  | nil => rw [hms] at hf; cases hf
  | cons front' rest =>
    rw [hms] at hf
    cases hf
    rfl

/-- A page whose first message is after the cursor is after it as a whole. -/
theorem after_of_before (hw : Window (page.messages.map (·.sequence)))
    (hhalf : ∀ m ∈ page.messages, dist b m.sequence + 1 < 2 ^ 31) (hc : Placed b c) {front : Message}
    (hf : page.messages.head? = some front)
    (hcond : ¬ (c.valid && !(c.position + 1).lt front.sequence) = true) :
    ∀ m ∈ page.messages, after c m = true := by
  intro m hm
  have hfb := hhalf front (mem_of_mem_head? hf)
  obtain ⟨j, hj⟩ := mem_iff_getElem?.1 hm
  rw [after_iff hc (hhalf m hm), dist_getElem? hw hhalf hf hj]
  intro hv
  have hcb := hc hv
  have hplus : dist b (c.position + 1) = dist b c.position + 1 := dist_add_one (by omega)
  have hlt : (c.position + 1).lt front.sequence = true := by simpa [hv] using hcond
  rw [show (c.position + 1).lt front.sequence = true ↔ _ from serial_lt_iff b (by omega) (by omega)] at hlt
  omega

/-- `next` on a page in memory: the first message after the cursor. If there is none, the cursor
stays, or is left at a message of the page after it. -/
theorem page_next (hw : Window (page.messages.map (·.sequence)))
    (hhalf : ∀ m ∈ page.messages, dist b m.sequence + 1 < 2 ^ 31) (hc : Placed b c) :
    (page.next v c).1.map (page.messages[·]?) =
      (page.messages.find? fun m => c.check m.state && after c m).map some ∧
      SameKind c (page.next v c).2 ∧
      ((page.next v c).2 = c ∨ ∃ m ∈ page.messages, (page.next v c).2.position = m.sequence ∧
        after c m = true) := by
  cases hf : page.messages.head? with
  | none =>
    rw [head?_eq_none_iff] at hf
    simp only [Page.next, hf, map_none, find?_nil, true_and]
    exact ⟨SameKind.refl c, .inl trivial⟩
  | some front =>
    have hfb := hhalf front (mem_of_mem_head? hf)
    have hrank {j : Nat} {m : Message} (hm : page.messages[j]? = some m) := dist_getElem? hw hhalf hf hm
    by_cases hcond : (c.valid && !(c.position + 1).lt front.sequence) = true
    · -- the cursor is at the first message or after it
      rw [page_next_eq hf (if_pos hcond).symm (if_pos hcond).symm]
      obtain ⟨hv, hlt⟩ : c.valid = true ∧ ¬ (c.position + 1).lt front.sequence = true := by simpa using hcond
      have hcb := hc hv
      have hplus : dist b (c.position + 1) = dist b c.position + 1 := dist_add_one (by omega)
      rw [show (c.position + 1).lt front.sequence = true ↔ _ from serial_lt_iff b (by omega) (by omega)] at hlt
      have hdist : dist front.sequence (c.position + 1) = dist b c.position + 1 - dist b front.sequence := by
        simp only [Serial.dist] at *
        bv_omega
      have hi : ((c.position + 1).sub front.sequence).toNat = dist b c.position + 1 - dist b front.sequence := by
        rw [SequenceNumber.sub, toInt_sub_of_lt (by omega), Int.toNat_natCast, hdist]
      have hafter {j : Nat} {m : Message} (hm : page.messages[j]? = some m) :
          after c m = true ↔ dist b c.position + 1 - dist b front.sequence ≤ j := by
        rw [after_iff hc (hhalf m (mem_of_getElem? hm)), hrank hm]
        refine ⟨fun h => ?_, fun h _ => ?_⟩
        · have := h hv
          omega
        · omega
      have hfind : (page.messages.drop (dist b c.position + 1 - dist b front.sequence)).find?
          (fun m => c.check m.state) =
          page.messages.find? fun m => c.check m.state && after c m :=
        find?_drop (fun j m hj hm => by rw [← Bool.not_eq_true, hafter hm]; omega) fun j m hj hm => (hafter hm).2 hj
      rw [hi]
      by_cases hle : dist b c.position + 1 - dist b front.sequence ≤ page.messages.length
      swap
      · have hnil := drop_of_length_le (Nat.le_of_lt (Nat.not_le.1 hle))
        rw [hnil] at hfind ⊢
        exact ⟨congrArg (Option.map some) hfind, SameKind.refl c, .inl rfl⟩
      have hspec := page_nextLoop_drop (v := v) hw hf hle c
      rw [← hdist, add_dist, hdist] at hspec
      refine ⟨hspec.1.trans (congrArg _ hfind), hspec.2.1, hspec.2.2.imp_right ?_⟩
      rintro ⟨m, hm, hset⟩
      obtain ⟨j, hj⟩ := mem_iff_getElem?.1 hm
      rw [getElem?_drop] at hj
      exact ⟨m, mem_of_mem_drop hm, by rw [hset]; rfl, (hafter hj).2 (Nat.le_add_right _ _)⟩
    -- all messages of the page come after the cursor
    rw [page_next_eq hf (if_neg hcond).symm (if_neg hcond).symm]
    have hall := after_of_before hw hhalf hc hf hcond
    have hzero : (front.sequence.sub front.sequence).toNat = 0 := by
      rw [SequenceNumber.sub, BitVec.sub_self]
      rfl
    have hspec := page_nextLoop_drop (v := v) hw hf (Nat.zero_le _) (c.setPosition front.sequence v)
    have hadd : front.sequence + BitVec.ofNat 32 0 = front.sequence := by bv_omega
    rw [hadd] at hspec
    rw [hzero]
    refine ⟨hspec.1.trans ?_, (SameKind.setPosition c front.sequence v).trans hspec.2.1, .inr ?_⟩
    · refine congrArg _ (find?_congr fun m hm => ?_)
      rw [hall m hm, Bool.and_true]
      rfl
    · rcases hspec.2.2 with hset | ⟨m, hm, hset⟩
      · exact ⟨front, mem_of_mem_head? hf, by rw [hset]; rfl, hall _ (mem_of_mem_head? hf)⟩
      · exact ⟨m, mem_of_mem_drop hm, by rw [hset]; rfl, hall m (mem_of_mem_drop hm)⟩

end page

/-! ## The queue -/

section queue

open PagedQueue Page

variable {q : PagedQueue} {v : View}

/-- The numbers of the pages and of their messages lie in the half from `b` on. -/
def Half (b : SequenceNumber) (v : View) : Prop := ∀ P ∈ v, ∀ x ∈ numbersOf P, dist b x + 1 < 2 ^ 31

variable {P : SequenceNumber × List Message} {m : Message}

theorem Half.page (h : Half b v) (hP : P ∈ v) : dist b P.1 + 1 < 2 ^ 31 :=
  h P hP _ mem_cons_self

theorem Half.message (h : Half b v) (hP : P ∈ v) (hm : m ∈ P.2) : dist b m.sequence + 1 < 2 ^ 31 :=
  h P hP _ (mem_cons_of_mem _ (mem_map_of_mem hm))

theorem Half.all (h : Half b v) : ∀ m ∈ all v, dist b m.sequence + 1 < 2 ^ 31 := by
  intro m hm
  obtain ⟨P, hP, hm⟩ := mem_flatMap.1 hm
  exact h.message hP hm

theorem after_moved {rest : View} (hhalf : Half b (P :: rest))
    (ho : Ordered (P :: rest)) (hc : Placed b c) {c' : QueueCursor} (hm : m ∈ P.2)
    (hpos : c'.position = m.sequence) (hafter : after c m = true) :
    Placed b c' ∧ ∀ m' ∈ all rest, after c' m' = after c m' := by
  have hmb := hhalf.message mem_cons_self hm
  have hc' : Placed b c' := fun _ => by rw [hpos]; exact hmb
  refine ⟨hc', fun m' hm' => ?_⟩
  obtain ⟨P', hP', hm'⟩ := mem_flatMap.1 hm'
  have hmb' := hhalf.message (mem_cons_of_mem _ hP') hm'
  have hbef := (pairwise_cons.1 ho).1 _ (mem_map_of_mem hP')
  have hlt := dist_lt_of_ahead hmb hmb' (hbef m.sequence (mem_cons_of_mem _ (mem_map_of_mem hm))
    m'.sequence (mem_cons_of_mem _ (mem_map_of_mem hm')))
  rw [after_iff hc hmb] at hafter
  rw [Bool.eq_iff_iff, after_iff hc' hmb', after_iff hc hmb', hpos]
  refine iff_of_true (fun _ => hlt) fun hv => ?_
  have := hafter hv
  omega

/-- The loop finds the first message after the cursor on the pages that are left. -/
theorem nextLoop_eq (hq : q.Wf) (hhalf : Half b q.view) (hc : Placed b c) {n i : Nat} (hn : n + i = q.view.length) :
    (let r := PagedQueue.nextLoop n i q c; (r.1.bind r.2.2.get).map face) =
      (all (q.view.drop i)).find? fun m => c.check m.state && after c m := by
  induction n generalizing q i c with
  | zero =>
    rw [drop_of_length_le (by omega)]
    rfl
  | succ n ih =>
    obtain ⟨hsame, hloa⟩ := hq.require i
    have hlt : i < (q.require i).used.length := by
      have hlen := congrArg List.length hsame.view
      rw [PagedQueue.view, viewOf, length_map] at hlen
      omega
    obtain ⟨e, he⟩ : ∃ e, (q.require i).used[i]? = some e := ⟨_, getElem?_eq_getElem hlt⟩
    have hview := view_getElem? he
    rw [hsame.view] at hview
    have hdrop : q.view.drop i = (e.1, e.2.view) :: q.view.drop (i + 1) := by
      obtain ⟨hlt, hget⟩ := List.getElem?_eq_some_iff.1 hview
      rw [drop_eq_getElem_cons hlt, hget]
    have hhalf' : Half b ((e.1, e.2.view) :: q.view.drop (i + 1)) := by
      rw [← hdrop]
      exact fun P hP => hhalf P (mem_of_mem_drop hP)
    have ho : Ordered ((e.1, e.2.view) :: q.view.drop (i + 1)) := by
      rw [← hdrop, Ordered, map_drop]
      exact List.Pairwise.sublist (drop_sublist _ _) hq.order
    have hmes := view_loaded (hloa e he)
    have hwin : Window (e.2.messages.map (·.sequence)) := by
      have hw := (hsame.wf.pages e (mem_of_getElem? he)).window
      rwa [hmes, map_map] at hw
    have hmem {m : Message} (hm : m ∈ e.2.messages) : face m ∈ e.2.view := by
      rw [hmes]
      exact mem_map_of_mem hm
    have hhal : ∀ m ∈ e.2.messages, dist b m.sequence + 1 < 2 ^ 31 := fun m hm =>
      hhalf'.message (m := face m) mem_cons_self (hmem hm)
    obtain ⟨hfind, hkind, hmoved⟩ := page_next hwin hhal hc
    have hface : e.2.messages.find? ((fun m => c.check m.state && after c m) ∘ face) =
        e.2.messages.find? fun m => c.check m.state && after c m := rfl
    have hall : all (q.view.drop i) = e.2.messages.map face ++ all (q.view.drop (i + 1)) := by
      rw [hdrop, hmes]
      rfl
    rw [hall, find?_append, find?_map, hface, PagedQueue.nextLoop]
    simp only [he]
    rcases hnext : e.2.next (q.require i).version c with ⟨_ | k, c'⟩
    · -- nothing on this page; the cursor may have been moved along it
      rw [hnext] at hfind hkind hmoved
      have hnone := map_eq_none_iff.1 hfind.symm
      have hrest : Placed b c' ∧ ∀ m' ∈ all (q.view.drop (i + 1)), after c' m' = after c m' := by
        rcases hmoved with rfl | ⟨m, hm, hpos, hafter⟩
        · exact ⟨hc, fun _ _ => rfl⟩
        · exact after_moved hhalf' ho hc (hmem hm) hpos hafter
      rw [hnone]
      have hlen : n + (i + 1) = (q.require i).view.length := by rw [hsame.view]; omega
      have hloop := ih hsame.wf (by rw [hsame.view]; exact hhalf) hrest.1 hlen
      rw [hsame.view] at hloop
      refine hloop.trans (find?_congr fun m hm => ?_)
      rw [hkind.check, hrest.2 m hm]
    rw [hnext] at hfind
    obtain ⟨m, hm, hk⟩ := map_eq_some_iff.1 hfind.symm
    rw [hm]
    simp only [bind_some, PagedQueue.get, he]
    exact congrArg (Option.map face) hk.symm

theorem any_of_pageOf_none {n : SequenceNumber} (h : q.pageOf n = none) :
    q.used = [] ∨ (q.used.head?.any fun e => n.lt e.1) = true := by
  unfold pageOf at h
  split at h
  swap
  · cases h
  rename_i hlen
  cases hused : q.used with
  | nil => exact .inl rfl
  | cons e l =>
    rw [hused, length_eq_zero_iff, takeWhile_eq_nil_iff] at hlen
    have hle := hlen (Nat.succ_pos _)
    simp only [SequenceNumber.le, Bool.not_eq_true', Bool.not_eq_false] at hle
    exact .inr hle

/-- `next` is a search among all messages, from the cursor on. -/
theorem next_eq (hq : q.Wf) (hhalf : Half b q.view) (hc : Placed b c) :
    (let r := q.next c; (r.1.bind r.2.2.get).map face) =
      (all q.view).find? fun m => c.check m.state && after c m := by
  have hlen (q : PagedQueue) : q.used.length = q.view.length := (length_map _).symm
  have hstart : (let r := PagedQueue.nextLoop q.used.length 0 q c; (r.1.bind r.2.2.get).map face) =
      (all q.view).find? fun m => c.check m.state && after c m := nextLoop_eq hq hhalf hc (hlen q)
  unfold PagedQueue.next
  split
  swap
  · exact hstart
  rename_i hv
  have hcb := hc hv
  have hplus : dist b (c.position + 1) = dist b c.position + 1 := dist_add_one (by omega)
  cases hplace : q.pageOf (c.position + 1) with
  | none =>
    have hany : q.used = [] ∨ (q.used.head?.any fun e => (c.position + 1).lt e.1) = true :=
      any_of_pageOf_none hplace
    simp only [findPage, hplace]
    split
    · exact hstart
    · rename_i hnot
      rw [PagedQueue.view, hany.resolve_right hnot]
      rfl
  | some i =>
    obtain ⟨e, hcho⟩ := hq.chosen hplace
    have hsame := hcho.same
    have hview := hcho.view
    simp only [findPage, hplace]
    have hlt := (List.getElem?_eq_some_iff.1 hview).1
    have hn : (q.require i).used.length - i + i = (q.require i).view.length := by
      rw [hlen, hsame.view]
      omega
    have hloop := nextLoop_eq hsame.wf (by rw [hsame.view]; exact hhalf) hc hn
    rw [hsame.view] at hloop
    refine hloop.trans ?_
    -- the pages before the one chosen hold no message after the cursor
    have hbef : ∀ m ∈ all (q.view.take i), ¬ (c.check m.state && after c m) = true := by
      intro m hm
      obtain ⟨P, hP, hmP⟩ := mem_flatMap.1 hm
      have hPv := mem_of_mem_take hP
      have heb : dist b e.1 + 1 < 2 ^ 31 := hhalf.page (mem_of_getElem? hview)
      have hord := hq.order
      rw [Ordered, ← take_append_drop i q.view, map_append, pairwise_append] at hord
      have hdrop : (e.1, e.2.view) ∈ q.view.drop i :=
        mem_of_getElem? (i := 0) (by rw [getElem?_drop]; exact hview)
      have hahead := dist_lt_of_ahead (hhalf.message hPv hmP) heb
        (hord.2.2 _ (mem_map_of_mem hP) _ (mem_map_of_mem hdrop) m.sequence
          (mem_cons_of_mem _ (mem_map_of_mem hmP)) e.1 mem_cons_self)
      rw [Bool.and_eq_true, after_iff hc (hhalf.message hPv hmP)]
      rintro ⟨-, hafter⟩
      have := hafter hv
      have := dist_le_of_dist_lt (b := b) (by omega) (by omega) hcho.le
      omega
    have hall : all q.view = all (q.view.take i) ++ all (q.view.drop i) := by
      rw [all, all, all, ← flatMap_append, take_append_drop]
    rw [hall, find?_append, find?_eq_none.2 hbef, none_or]

theorem lt_of_pageOf_none (hq : q.Wf) (hhalf : Half b q.view) (hp : dist b p + 1 < 2 ^ 31) (h : q.pageOf p = none)
    (hm : m ∈ all q.view) : p.lt m.sequence = true := by
  obtain ⟨P, hP, hmP⟩ := mem_flatMap.1 hm
  have hmb := hhalf.message hP hmP
  have hPm := dist_le_of_dist_lt (b := b) (by have := hhalf.page hP; omega) (by omega)
    (Nat.lt_of_le_of_lt (Nat.le_add_right _ _) (hq.within P hP m hmP))
  cases hused : q.used with
  | nil =>
    rw [PagedQueue.view, hused] at hP
    exact absurd hP not_mem_nil
  | cons e l =>
    have hlt : p.lt e.1 = true := by
      have := any_of_pageOf_none h
      rw [hused] at this
      exact this.resolve_left (cons_ne_nil _ _)
    have hview : q.view = (e.1, e.2.view) :: viewOf l := by rw [PagedQueue.view, hused]; rfl
    have heb : dist b e.1 + 1 < 2 ^ 31 := hhalf.page (by rw [hview]; exact mem_cons_self)
    have hfirst : dist b e.1 ≤ dist b P.1 := by
      have ho := hq.order
      rw [Ordered, hview, map_cons, pairwise_cons] at ho
      rw [hview] at hP
      rcases mem_cons.1 hP with rfl | hPl
      · exact le_rfl
      · exact Nat.le_of_lt (dist_lt_of_ahead heb (hhalf.page (by rw [hview]; exact hP))
          (ho.1 _ (mem_map_of_mem hPl) e.1 mem_cons_self P.1 mem_cons_self))
    rw [lt_iff_dist hp heb] at hlt
    rw [lt_iff_dist hp hmb]
    omega

theorem ranked (hq : q.Wf) (hhalf : Half b q.view) : Ranked b (all q.view) := by
  refine ⟨hhalf.all, pairwise_flatMap.2 ⟨fun P hP => ?_, ?_⟩⟩
  · obtain ⟨e, he, rfl⟩ := mem_map.1 hP
    have hahead := pairwise_map.1 (hq.pages e he).window.pairwise
    exact List.Pairwise.imp_of_mem (fun {m m'} hm hm' h =>
      dist_lt_of_ahead (hhalf.message hP hm) (hhalf.message hP hm') h) hahead
  · refine List.Pairwise.imp_of_mem (fun {P P'} hP hP' h m hm m' hm' => ?_) (pairwise_map.1 hq.order)
    exact dist_lt_of_ahead (hhalf.message hP hm) (hhalf.message hP' hm')
      (h _ (mem_cons_of_mem _ (mem_map_of_mem hm)) _ (mem_cons_of_mem _ (mem_map_of_mem hm')))

theorem next_setPosition (hq : q.Wf) (hhalf : Half b q.view) {x : SequenceNumber} (hx : dist b x + 1 < 2 ^ 31)
    (n : BitVec 32) :
    (let r := q.next (c.setPosition x n); (r.1.bind r.2.2.get).map face) = first c (all q.view) fun n => x.lt n := by
  refine (next_eq hq hhalf fun _ => hx).trans (find?_congr fun m _ => ?_)
  rfl

theorem paged_exact_iff (hq : q.Wf) (hhalf : OneHalf (p :: ((left q p c).toList ++ q.view.flatMap numbersOf))) :
    Exact c p (all q.view) (paged q p c) ↔ SameSide q p c := by
  obtain ⟨b, hb⟩ := hhalf
  obtain ⟨hp, hrest⟩ := forall_mem_cons.1 hb
  obtain ⟨hleft, hnum⟩ := forall_mem_append.1 hrest
  have hhalf : Half b q.view := fun P hP x hx => hnum x (mem_flatMap.2 ⟨P, hP, hx⟩)
  have hran := ranked hq hhalf
  -- whether a message is returned or not, the next one should be the first after the position
  have hfirst (hnone : (paged q p c).1 = none → ∀ m ∈ all q.view, m.sequence ≠ p)
      (hsome : ∀ m, (paged q p c).1 = some m → m.sequence = p) :
      Exact c p (all q.view) (paged q p c) ↔ (paged q p c).2 = first c (all q.view) fun n => p.lt n := by
    unfold Exact
    cases hr : (paged q p c).1 with
    | none =>
      rw [first_le_eq hp hhalf.all fun m hm hs => absurd hs (hnone hr m hm)]
      exact ⟨fun h => h.elim (fun ⟨_, hm, _⟩ => absurd hm nofun) And.right, fun h => .inr ⟨rfl, h⟩⟩
    | some m =>
      exact ⟨fun h => h.elim (fun ⟨_, _, _, h⟩ => h) fun h => absurd h.1 nofun,
        fun h => .inl ⟨m, rfl, hsome m hr, h⟩⟩
  cases hplace : q.pageOf p with
  | none =>
    have hfind := find_of_none hplace (some c)
    have hlt {m : Message} (hm : m ∈ all q.view) := lt_of_pageOf_none hq hhalf hp hplace hm
    have hc : Placed b c := fun hv => hleft c.position (by simp [left, hplace, hv])
    have hnext : (paged q p c).2 = (all q.view).find? fun m => c.check m.state && after c m := by
      simp only [paged, hfind]
      exact next_eq hq hhalf hc
    rw [hfirst (fun _ m hm hs => ?_) (by simp only [paged, hfind]; exact nofun), hnext]
    · cases hv : c.valid with
      | false =>
        refine iff_of_true (find?_congr fun m hm => ?_) (by simp [SameSide, left, hplace, hv])
        simp only [hlt hm, after, hv]
        rfl
      | true =>
        have hafter : (fun m : Message => c.check m.state && after c m) =
            fun m => c.check m.state && c.position.lt m.sequence := by
          funext m
          rw [after, hv]
          rfl
        rw [hafter, first, find?_and_eq_iff (hran.late_lt (hc hv)) (hran.late_lt hp)]
        simp [SameSide, left, hplace, hv]
    · have := hlt hm
      rw [hs, lt_iff_dist hp hp] at this
      exact absurd this (Nat.lt_irrefl _)
  | some i =>
    obtain ⟨e, hcho⟩ := hq.chosen hplace
    have hfind := hcho.find hplace (some c)
    have hver : dist b q.version + 1 < 2 ^ 31 := hleft q.version (by simp [left, hplace])
    have hfound : (paged q p c).1 = (q.found p).map face := by
      rw [paged, PagedQueue.found, hfind, hcho.find hplace none]
    have hnext : (paged q p c).2 = first c (all q.view) fun n => SequenceNumber.lt q.version n := by
      have := next_setPosition (c := c) hcho.same.wf (by rw [hcho.same.view]; exact hhalf) hver p
      rw [hcho.same.view] at this
      simp only [paged, hfind]
      exact this
    rw [hfirst (fun hr m hm hs => ?_) fun m hm => (hq.found_iff.1 (hfound.symm.trans hm)).2, hnext, first, first,
      find?_and_eq_iff (hran.late_lt hver) (hran.late_lt hp)]
    · simp [SameSide, left, hplace]
    · have := hq.found_iff.2 ⟨hm, hs⟩
      rw [← hfound, hr] at this
      exact absurd this nofun

/-- Along a run whose messages are in sequence on their pages, and not released when deleted. -/
theorem held_run {name : String} {pageSize : Nat} {maxLoaded : BitVec 32} {calls : List PagedQueue.Call}
    {s : PagedQueue × Ledger}
    (h : Run Paged.step (fun s a => Paged.Increasing s.1 a ∧ Paged.Contiguous s.1 a ∧ Paged.ReleasesHeld s.1 a)
      (({ name, pageSize, maxLoaded } : PagedQueue), []) calls s)
    (hcalls : calls.length + maxLoaded.toNat < 2 ^ 32) : Paged.Held maxLoaded calls.length s :=
  h.keep_ops (l := [])
    (I := fun s calls => calls.length + maxLoaded.toNat < 2 ^ 32 → Paged.Held maxLoaded calls.length s)
    (fun hs ha ht hlen => by
      rw [length_append, length_singleton] at hlen ⊢
      exact (hs (by omega)).step (by omega) ha.1 ha.2.1 ha.2.2 ht)
    (fun _ => Paged.held_new) hcalls

/-- No assertion fails in a seek. -/
theorem stands_of_held {n : Nat} {maxLoaded : BitVec 32} {s : PagedQueue × Ledger} (h : Paged.Held maxLoaded n s)
    (hn : n + maxLoaded.toNat < 2 ^ 32) (p : SequenceNumber) (c : QueueCursor) : Stands s.1 p c := by
  obtain ⟨hfind, hab, hmax⟩ := h.steady.find h.kept.wf (by rw [h.maxLoaded]; exact hn) p (some c)
  have hnext := hfind.next (by rw [hmax, h.maxLoaded]; exact hn) ((s.1.find p (some c)).2.1.getD c)
  exact (hnext.2.1.trans hab).trans h.aborted

end queue

/-! ## All containers -/

theorem oneHalf_of_all {l : List SequenceNumber} (h : (l.all fun n => decide (dist b n + 1 < 2 ^ 31)) = true) :
    OneHalf l :=
  ⟨b, fun n hn => of_decide_eq_true (all_eq_true.1 h n hn)⟩

/-- In every run of a deque a seek is exact. In one of a map it is if and only if a message is held at
the position or the first after it is none that the cursor stops at; in one of a paged queue,
whose messages have consecutive numbers on a page and are not released when they are deleted, if and
only if those that the cursor stops at lie on the same side of the position as of the number left in
the cursor. There no assertion fails, while the calls are not so many that the counter of the pages
in memory may come round. -/
theorem seek_exact_iff (p : SequenceNumber) (c : QueueCursor) :
    (∀ calls d, Run (fun d a => some (MessageDeque.call d a)) MessageDeque.Fits {} calls d →
      OneHalf (p :: d.messages.map (·.sequence)) → Exact c p d.messages (deque d p c)) ∧
    (∀ key calls q, LastValue.Calls { key := key } calls q → OneHalf (p :: q.messages.map Prod.fst) →
      (Exact c p (q.messages.map Prod.snd) (map q p c) ↔ HeldOrPassed q p c)) ∧
    ∀ name pageSize maxLoaded calls s, calls.length + maxLoaded.toNat < 2 ^ 32 →
      Run Paged.step (fun s a => Paged.Increasing s.1 a ∧ Paged.Contiguous s.1 a ∧ Paged.ReleasesHeld s.1 a)
        (({ name, pageSize, maxLoaded } : PagedQueue), []) calls s →
      OneHalf (p :: ((left s.1 p c).toList ++ s.1.view.flatMap PagedQueue.numbersOf)) →
      Stands s.1 p c ∧ (Exact c p (PagedQueue.all s.1.view) (paged s.1 p c) ↔ SameSide s.1 p c) := by
  refine ⟨fun calls d hrun hhalf => ?_, fun key calls q hrun hhalf => ?_,
    fun name pageSize maxLoaded calls s hcalls hrun hhalf => ?_⟩
  · obtain ⟨hw, hh, -, -⟩ := MessageDeque.keeps_run hrun
    exact deque_exact ⟨hw, hh⟩ hhalf c
  · obtain ⟨hbij, hsor⟩ := hrun.keep (I := fun q => LastValue.InBijection q ∧ Sorted q) (fun hs ha ht => by
        cases ht
        exact ⟨hs.1.call ha, hs.2.call ha⟩)
      ⟨LastValue.inBijection_new key, .nil⟩
    exact map_exact_iff hbij hsor hhalf c
  · have hheld := held_run hrun hcalls
    exact ⟨stands_of_held hheld hcalls p c, paged_exact_iff hheld.kept.wf hhalf⟩

/-- A seek to the second of two messages in a deque, to the first of two in a map, and to a position
before the first page. -/
theorem seek_exact_examples :
    let red : Message := { encoding := some { properties := [("key", "red")] }, sequence := 1 }
    let blue : Message := { encoding := some { properties := [("key", "blue")] }, sequence := 3 }
    (∃ d, Run (fun d a => some (MessageDeque.call d a)) MessageDeque.Fits {}
        [.publish { sequence := 1 }, .publish { sequence := 2 }] d ∧ Exact {} 2 d.messages (deque d 2 {})) ∧
      (∃ q, LastValue.Calls { key := "key" } [.publish red, .publish blue] q ∧
        Exact {} 1 (q.messages.map Prod.snd) (map q 1 {})) ∧
      ∃ s, Run Paged.step (fun s a => Paged.Increasing s.1 a ∧ Paged.Contiguous s.1 a ∧ Paged.ReleasesHeld s.1 a)
          (({ pageSize := 100, maxLoaded := 1 } : PagedQueue), [])
          [.publish { sequence := 1 } 40, .publish { sequence := 2 } 40] s ∧
        Exact {} 0 (PagedQueue.all s.1.view) (paged s.1 0 {}) := by
  refine ⟨?_, ?_, ?_⟩
  · exact exists_run (by decide) fun d hrun hhalf =>
      ⟨hrun, (seek_exact_iff 2 {}).1 _ d hrun (oneHalf_of_all (b := 0) hhalf)⟩
  · refine exists_run (Q := fun q => (((1 : SequenceNumber) :: q.messages.map Prod.fst).all
        fun n => decide (Serial.dist 0 n + 1 < 2 ^ 31)) ∧ (q.messages.find? fun e => !e.1.lt 1).map Prod.fst = some 1)
      (by decide) fun q hrun ⟨hhalf, hheld⟩ => ⟨hrun, ?_⟩
    refine ((seek_exact_iff 1 {}).2.1 _ _ q hrun (oneHalf_of_all hhalf)).2 fun e he => .inl ?_
    rw [he] at hheld
    exact Option.some.inj hheld
  refine exists_run (Q := fun s => (((0 : SequenceNumber) :: ((left s.1 0 {}).toList ++
      s.1.view.flatMap PagedQueue.numbersOf)).all fun n => decide (Serial.dist 0 n + 1 < 2 ^ 31)) ∧
      left s.1 0 {} = none) (by decide +kernel) fun s hrun ⟨hhalf, hleft⟩ => ⟨hrun, ?_⟩
  refine ((seek_exact_iff 0 {}).2.2 _ _ _ _ s (by decide) hrun (oneHalf_of_all hhalf)).2.2 fun x hx => ?_
  rw [hleft] at hx
  exact absurd hx nofun

/-- In a map with the messages 1 and 3, nothing comes after a seek to 2. On a page with the messages
1, 2 and 3, a seek to 2 returns 2 and goes on with 1. -/
theorem seek_skips_and_repeats :
    let red : Message := { encoding := some { properties := [("key", "red")] }, sequence := 1 }
    let blue : Message := { encoding := some { properties := [("key", "blue")] }, sequence := 3 }
    (∃ q, LastValue.Calls { key := "key" } [.publish red, .publish blue] q ∧
      ((map q 2 {}).1 = none ∧ (map q 2 {}).2 = none) ∧ ¬ Exact {} 2 (q.messages.map Prod.snd) (map q 2 {})) ∧
    ∃ s, Run Paged.step (fun s a => Paged.Increasing s.1 a ∧ Paged.Contiguous s.1 a ∧ Paged.ReleasesHeld s.1 a)
        (({ pageSize := 100, maxLoaded := 1 } : PagedQueue), [])
        [.publish { sequence := 1 } 30, .publish { sequence := 2 } 30, .publish { sequence := 3 } 30] s ∧
      ((paged s.1 2 {}).1.map (·.sequence) = some 2 ∧ (paged s.1 2 {}).2.map (·.sequence) = some 1) ∧
      ¬ Exact {} 2 (PagedQueue.all s.1.view) (paged s.1 2 {}) := by
  constructor
  · refine exists_run (Q := fun q => ((map q 2 {}).1 = none ∧ (map q 2 {}).2 = none) ∧
        (first {} (q.messages.map Prod.snd) fun n => SequenceNumber.le 2 n).isSome)
      (by decide) fun q hrun ⟨hnone, hfirst⟩ => ⟨hrun, hnone, ?_⟩
    rintro (⟨m, hm, -⟩ | ⟨-, heq⟩)
    · exact absurd (hnone.1.symm.trans hm) nofun
    · rw [← heq, hnone.2] at hfirst
      exact absurd hfirst nofun
  refine exists_run (Q := fun s => ((paged s.1 2 {}).1.map (·.sequence) = some 2 ∧
      (paged s.1 2 {}).2.map (·.sequence) = some 1) ∧
      (first {} (PagedQueue.all s.1.view) fun n => SequenceNumber.lt 2 n).map (·.sequence) = some 3)
    (by decide +kernel) fun s hrun ⟨hfound, hfirst⟩ => ⟨hrun, hfound, ?_⟩
  rintro (⟨m, -, -, heq⟩ | ⟨hnone, -⟩)
  · rw [← heq, hfound.2] at hfirst
    exact absurd hfirst (by decide)
  · rw [hnone] at hfound
    exact absurd hfound.1 nofun

end QB.Spec.Seek
