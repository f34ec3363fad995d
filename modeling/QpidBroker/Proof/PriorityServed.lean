import QpidBroker.Proof.PriorityQueue
import QpidBroker.Proof.Served

/-!
# No message is stranded: priority queue

A consumer's context has a cursor for each level, each served as on a plain
deque (`AllServed`). The loop over levels moves one after another until it
finds a message; when it finds none, it has been at every level.
-/

namespace QB.Impl

open Record Serial Spec List Option

namespace PriorityQueue

open IndexedDeque

/-- Every available message is still to come at its level, or has been offered. -/
def AllServed (q : PriorityQueue) (ctxt : List QueueCursor) (offered : MessageHolder → Prop) : Prop :=
  ∀ (p : Nat) (c : QueueCursor) (d : IndexedDeque MessageHolder), ctxt[p]? = some c →
    q.messages[p]? = some d → c.type = .consumer ∧ Served q.bodies d c offered

variable {q : PriorityQueue} {ctxt ctxt' : List QueueCursor} {offered : MessageHolder → Prop}

theorem Wf.nextAt_none (h : Wf q) (hs : AllServed q ctxt offered) {p : Nat}
    (hn : q.nextAt ctxt p = (none, ctxt')) : ctxt'.length = ctxt.length ∧ AllServed q ctxt' offered ∧
      ∀ d, q.messages[p]? = some d → p < ctxt.length →
        ∀ x ∈ d.messages, getState q.bodies x = .available → offered x := by
  unfold nextAt at hn
  split at hn
  · rename_i d c hd hc
    obtain ⟨hct, hsd⟩ := hs p c d hc hd
    obtain ⟨hw, hh⟩ := h.level_window d (mem_of_getElem? hd)
    rcases hx : d.next q.bodies c with ⟨_ | i, c'⟩
    swap
    · obtain ⟨-, m, hm, -⟩ := IndexedDeque.next_some hx
      simp [hx, hm] at hn
    simp only [hx, bind_none, Prod.mk.injEq, true_and] at hn
    subst hn
    refine ⟨by simp, fun p' c1 d1 hc1 hd1 => ?_, fun d1 hd1 _ => ?_⟩
    · rcases getElem?_set_cases hc1 with ⟨rfl, rfl⟩ | ⟨-, hc1⟩
      · cases hd.symm.trans hd1
        exact ⟨by rw [(IndexedDeque.next_none hx).2.1.type, hct], hsd.next_none hw hh hct hx⟩
      · exact hs p' c1 d1 hc1 hd1
    · cases hd.symm.trans hd1
      exact hsd.all_of_next_none hw hh hct hx
  rename_i hne
  obtain rfl : ctxt = ctxt' := by simpa using hn
  refine ⟨rfl, hs, fun d hd hp => ?_⟩
  exact absurd (getElem?_eq_getElem hp) (hne _ _ hd)

variable {x : MessageHolder} {ps : List Nat} {s : Bodies} {c : QueueCursor} {r : Option MessageHolder}

theorem Wf.nextAt_some (h : Wf q) (hs : AllServed q ctxt offered) {p : Nat}
    (hn : q.nextAt ctxt p = (some x, ctxt')) : ctxt'.length = ctxt.length ∧
      (∃ d, q.messages[p]? = some d ∧ x ∈ d.messages ∧ getState q.bodies x = .available) ∧
      ∀ offered' : MessageHolder → Prop, (∀ y, offered y → offered' y) → offered' x →
        AllServed q ctxt' offered' := by
  unfold nextAt at hn
  split at hn
  swap
  · simp at hn
  rename_i d c hd hc
  obtain ⟨hct, hsd⟩ := hs p c d hc hd
  obtain ⟨hw, hh⟩ := h.level_window d (mem_of_getElem? hd)
  rcases hx : d.next q.bodies c with ⟨_ | i, c'⟩
  · simp [hx] at hn
  obtain ⟨-, m, hm, -, hchk, hc', -⟩ := IndexedDeque.next_some hx
  obtain ⟨rfl, rfl⟩ : m = x ∧ ctxt.set p c' = ctxt' := by simpa [hx, hm] using hn
  rw [QueueCursor.check_consumer hct, decide_eq_true_eq] at hchk
  refine ⟨by simp, ⟨d, hd, mem_of_getElem? hm, hchk⟩, fun offered' ho hox p' c1 d1 hc1 hd1 => ?_⟩
  rcases getElem?_set_cases hc1 with ⟨rfl, rfl⟩ | ⟨-, hc1⟩
  · cases hd.symm.trans hd1
    refine ⟨by rw [hc']; exact hct, hsd.next_some hw hh hct hx (fun y _ => ho y) fun y hy => ?_⟩
    cases hm.symm.trans hy
    exact hox
  · obtain ⟨ht, hsv⟩ := hs p' c1 d1 hc1 hd1
    exact ⟨ht, hsv.transfer rfl fun y hy ha => .inr ⟨y, hy, ha, rfl, ho y⟩⟩

theorem Wf.scan_none (h : Wf q) (hs : AllServed q ctxt offered)
    (hn : q.scan ps ctxt = (none, ctxt')) : ctxt'.length = ctxt.length ∧ AllServed q ctxt' offered ∧
      ∀ p ∈ ps, ∀ d, q.messages[p]? = some d → p < ctxt.length →
        ∀ x ∈ d.messages, getState q.bodies x = .available → offered x := by
  induction ps generalizing ctxt with
  | nil =>
    obtain rfl : ctxt = ctxt' := by simpa [scan] using hn
    exact ⟨rfl, hs, by simp⟩
  | cons p ps ih =>
    rw [scan] at hn
    split at hn
    · simp at hn
    rename_i c1 h1
    obtain ⟨hl1, hs1, ho1⟩ := h.nextAt_none hs h1
    obtain ⟨hl2, hs2, ho2⟩ := ih hs1 hn
    refine ⟨hl2.trans hl1, hs2, fun p' hp' => ?_⟩
    rcases mem_cons.1 hp' with rfl | hp'
    · exact ho1
    · rw [← hl1]; exact ho2 p' hp'

theorem Wf.scan_some (h : Wf q) (hs : AllServed q ctxt offered)
    (hn : q.scan ps ctxt = (some x, ctxt')) : ctxt'.length = ctxt.length ∧
      (∃ (p : Nat) (d : IndexedDeque MessageHolder),
        q.messages[p]? = some d ∧ x ∈ d.messages ∧ getState q.bodies x = .available) ∧
      ∀ offered' : MessageHolder → Prop, (∀ y, offered y → offered' y) → offered' x →
        AllServed q ctxt' offered' := by
  induction ps generalizing ctxt with
  | nil => simp [scan] at hn
  | cons p ps ih =>
    rw [scan] at hn
    split at hn
    · rename_i y c1 h1
      obtain ⟨rfl, rfl⟩ : y = x ∧ c1 = ctxt' := by simpa using hn
      obtain ⟨hl, ⟨d, hd⟩, ho⟩ := h.nextAt_some hs h1
      exact ⟨hl, ⟨p, d, hd⟩, ho⟩
    rename_i c1 h1
    obtain ⟨hl1, hs1, -⟩ := h.nextAt_none hs h1
    obtain ⟨hl2, hd, ho2⟩ := ih hs1 hn
    exact ⟨hl2.trans hl1, hd, ho2⟩

/-! ## The order of levels -/

theorem nextLoop_eq_scan (hq : q.fairshare = none) (fuel : Nat) {p : Priority} (hf : p.current ≤ fuel)
    (ctxt : List QueueCursor) : nextLoop fuel q p ctxt = ((q.scan (List.range (p.current + 1)).reverse ctxt).1,
        (q.scan (List.range (p.current + 1)).reverse ctxt).2, q) := by
  induction fuel generalizing p ctxt with
  | zero =>
    obtain ⟨start, current⟩ := p
    obtain rfl : current = 0 := by simpa using hf
    simp only [nextLoop, Nat.zero_add, range_one, reverse_singleton, scan, nextLevel]
    split <;> simp_all
  | succ fuel ih =>
    obtain ⟨start, current⟩ := p
    rw [nextLoop, range_succ, reverse_append, reverse_singleton, singleton_append, scan]
    rcases h1 : q.nextAt ctxt current with ⟨_ | x, c1⟩
    · cases current with
      | zero => simp [nextLevel, hq, scan]
      | succ n =>
        simp only [nextLevel, hq]
        simpa using ih (by simpa using hf) c1
    · rfl

/-! ## Consumers -/

/-- The message of a holder has been offered to consumer `k`. -/
def OfferedTo (s : Bodies) (k : Nat) (log : List Event) (x : MessageHolder) : Prop :=
  OfferedSince k (s.sequenceAt x.body) log

structure Fed (f : Feed PriorityQueue) : Prop where
  wf : Wf f.messages
  base : f.messages.fairshare = none
  levels_pos : 0 < f.messages.levels
  consumer : ∀ c ∈ f.cursors, c.type = .consumer
  served : ∀ (k : Nat) (c : QueueCursor) (x : Nat), f.cursors[k]? = some c → c.context = some x →
    ∃ ctxt : List QueueCursor, f.messages.contexts[x]? = some ctxt ∧ ctxt.length = f.messages.levels ∧
      AllServed f.messages ctxt (OfferedTo f.messages.bodies k f.log)
  apart : ∀ (k k' : Nat) (c c' : QueueCursor) (x : Nat), f.cursors[k]? = some c → f.cursors[k']? = some c' →
    c.context = some x → c'.context = some x → k = k'

variable {f f' : Feed PriorityQueue}

theorem Fed.update (h : Fed f) {q' : PriorityQueue} {log' : List Event} (hw : Wf q')
    (hf : q'.fairshare = f.messages.fairshare) (hl : q'.levels = f.messages.levels)
    (hx : q'.contexts = f.messages.contexts)
    (hs : ∀ (k p : Nat) (c : QueueCursor) (d d' : IndexedDeque MessageHolder) (ctxt : List QueueCursor),
      ctxt ∈ f.messages.contexts → ctxt[p]? = some c → f.messages.messages[p]? = some d →
      q'.messages[p]? = some d' → c.type = .consumer →
      Served f.messages.bodies d c (OfferedTo f.messages.bodies k f.log) →
      Served q'.bodies d' c (OfferedTo q'.bodies k log')) :
    Fed { f with messages := q', log := log' } := by
  refine ⟨hw, hf.trans h.base, hl ▸ h.levels_pos, h.consumer, fun k c x hk hc => ?_, h.apart⟩
  obtain ⟨ctxt, hctxt, hlen, hsv⟩ := h.served k c x hk hc
  refine ⟨ctxt, hx ▸ hctxt, hl ▸ hlen, fun p c1 d' hc1 hd' => ?_⟩
  have hp : p < f.messages.messages.length := by
    have := (List.getElem?_eq_some_iff.1 hd').1
    rw [hw.levels_eq, hl] at this
    rwa [h.wf.levels_eq]
  obtain ⟨ht, hsd⟩ := hsv p c1 _ hc1 (getElem?_eq_getElem hp)
  exact ⟨ht, hs k p c1 _ d' ctxt (mem_of_getElem? hctxt) hc1 (getElem?_eq_getElem hp) hd' ht hsd⟩

theorem sequenceAt_eq {a : Nat} {b : Body} (hb : s[a]? = some b) : s.sequenceAt (some a) = b.message.sequence := by
  simp [Bodies.sequenceAt, Bodies.get, hb]

theorem exists_body_of_available (h : getState s x = .available) :
    ∃ (a : Nat) (b : Body), x.body = some a ∧ s[a]? = some b ∧ b.message.state = .available := by
  cases ha : x.body with
  | none => simp [getState, Bodies.getState, Bodies.get, ha] at h
  | some a =>
    cases hb : s[a]? with
    | none => simp [getState, Bodies.getState, Bodies.get, ha, hb] at h
    | some b => exact ⟨a, b, rfl, hb, by rwa [getState_holder ha hb] at h⟩

theorem Wf.sequence_inj (h : Wf q) {a a' : Nat} {b b' : Body} (hb : q.bodies[a]? = some b)
    (hb' : q.bodies[a']? = some b') (hs : b.message.state ≠ .deleted) (hs' : b'.message.state ≠ .deleted)
    (he : b.message.sequence = b'.message.sequence) : a = a' := by
  obtain ⟨x, hx, hxa⟩ := h.in_fifo a b hb hs
  obtain ⟨y, hy, hya⟩ := h.in_fifo a' b' hb' hs'
  obtain ⟨b1, hb1, -, hq1⟩ := h.pointer x hx a hxa
  obtain ⟨b2, hb2, -, hq2⟩ := h.pointer y hy a' hya
  cases hb.symm.trans hb1
  cases hb'.symm.trans hb2
  obtain ⟨i, hi⟩ := mem_iff_getElem?.1 hx
  obtain ⟨j, hj⟩ := mem_iff_getElem?.1 hy
  have hij : i = j := h.fifo_window.getElem?_inj (p := x.id) (by rw [h.seqs_fifo, getElem?_map, hi]; rfl)
    (by rw [h.seqs_fifo, getElem?_map, hj, ← hq1, he, hq2]; rfl)
  subst hij
  cases hi.symm.trans hj
  simpa [hxa] using hya

theorem Wf.offered_append (h : Wf q) {m : Message} (hfit : Fits q m) {b0 : Body} (k : Nat) (log : List Event)
    (hx : getState (q.bodies ++ [b0] : Bodies) x = .available)
    (hne : x.body ≠ some q.bodies.length) : getState q.bodies x = .available ∧
      (OfferedTo q.bodies k log x → OfferedTo (q.bodies ++ [b0]) k (.published m.sequence :: log) x) := by
  obtain ⟨a, b, ha, hb, hst⟩ := exists_body_of_available hx
  rcases getElem?_append_body hb with hb' | ⟨rfl, -⟩
  swap
  · exact absurd ha hne
  refine ⟨by rw [getState_holder ha hb', hst], fun ho => ?_⟩
  rw [OfferedTo, ha, sequenceAt_eq hb'] at ho
  rw [OfferedTo, ha, sequenceAt_eq hb]
  obtain ⟨ptr, hptr, hpa⟩ := h.in_fifo a b hb' (by simp [hst])
  have hah := hfit.fifo ptr (mem_indexed _ hptr (by simp [getState_pointer hpa hb', hst]))
  obtain ⟨b1, hb1, -, hq1⟩ := h.pointer ptr hptr a hpa
  cases hb'.symm.trans hb1
  rw [h.getSequence_pointer hptr, ← hq1] at hah
  exact ⟨hah.ne.symm, ho⟩

theorem Fed.publish (h : Fed f) {m : Message} (hop : Within f (.publish m))
    (ht : f.step (.publish m) = some f') : Fed f' := by
  obtain ⟨hfit, hcur⟩ := hop
  have hw := h.wf.publish h.levels_pos hfit
  obtain ⟨d, id, lg, fg, hd, hid, hlg, -, -, -, -, e⟩ := h.wf.publish_eq h.levels_pos hfit
  simp only [Feed.step, Messages.publish] at ht
  rw [e] at ht hw
  cases ht
  refine h.update hw rfl rfl rfl fun k p c d0 d' ctxt hctxt hc hd0 hd' hct hsv => ?_
  rcases getElem?_set_cases hd' with ⟨rfl, rfl⟩ | ⟨-, hd'⟩
  · cases hd.symm.trans hd0
    refine hsv.transfer rfl fun x hx hxa => ?_
    simp only [mem_append, mem_singleton] at hx
    rcases hx with (hx | hx) | rfl
    · have hxd := mem_of_mem_clean hx
      obtain ⟨h1, h2⟩ := h.wf.offered_append hfit k f.log hxa (by
        intro e'
        obtain ⟨b, hb, -⟩ := h.wf.holder _ d x _ hd hxd e'
        exact absurd (List.getElem?_eq_some_iff.1 hb).1 (by simp))
      exact .inr ⟨x, hxd, h1, rfl, h2⟩
    · simp [getState, Bodies.getState, Bodies.get, hlg x hx] at hxa
    refine .inl ?_
    by_cases hv : c.valid = true
    · have := hcur ctxt hctxt c hc hv
      rw [nextId, hid] at this
      exact .inr this
    · exact .inl (by simp [reset, hv])
  cases hd0.symm.trans hd'
  refine hsv.transfer rfl fun x hx hxa => ?_
  obtain ⟨h1, h2⟩ := h.wf.offered_append hfit k f.log hxa (by
    intro e'
    obtain ⟨b, hb, -⟩ := h.wf.holder _ d0 x _ hd0 hx e'
    exact absurd (List.getElem?_eq_some_iff.1 hb).1 (by simp))
  exact .inr ⟨x, hx, h1, rfl, h2⟩

theorem offered_modify {a : Nat} (k : Nat) (log : List Event) {g : Message → Message}
    (hq : ∀ m, (g m).sequence = m.sequence)
    (hg : ∀ m, (g m).state = .available → m.state = .available)
    (hx : getState (s.modify (some a) g) x = .available) : getState s x = .available ∧
      (OfferedTo s k log x → OfferedTo (s.modify (some a) g) k log x) := by
  obtain ⟨c, b, hc, hb, hst⟩ := exists_body_of_available hx
  obtain ⟨b0, hb0, rfl⟩ := getElem?_modify_iff.1 hb
  refine ⟨?_, ?_⟩
  · rw [getState_holder hc hb0]
    split at hst
    · exact hg _ hst
    · exact hst
  intro ho
  rw [OfferedTo, hc, sequenceAt_eq hb0] at ho
  rw [OfferedTo, hc, Bodies.sequenceAt, Bodies.get_modify, Bodies.get, bind_some, hb0]
  simp only [map_some]
  split
  · rw [hq]; exact ho
  · exact ho

theorem Fed.deleted (h : Fed f) (ht : f.step (.deleted c) = some f') : Fed f' := by
  have hw := h.wf.deleted c
  cases ht
  simp only [Messages.deleted] at hw ⊢
  rcases h.wf.deleted_cases c with ⟨-, i, ptr, a, b, -, -, -, -, e⟩ | e
  swap
  · rw [e]
    exact h
  rw [e] at hw ⊢
  refine h.update hw rfl rfl rfl fun k p c d d' ctxt _ _ hd hd' _ hsv => ?_
  simp only [PriorityQueue.dropped, getElem?_modify, hd, Option.map_eq_map, map_some, Option.some.injEq] at hd'
  have hg : ∀ m : Message, (m.setState .deleted).state = .available → m.state = .available := fun _ e => by cases e
  refine hsv.transfer (by rw [← hd']; split <;> rfl) fun x hx hxa => .inr ?_
  obtain ⟨h1, h2⟩ := offered_modify k f.log (g := (Message.setState · .deleted)) (fun _ => rfl) hg hxa
  refine ⟨x, ?_, h1, rfl, h2⟩
  rw [← hd'] at hx
  split at hx
  · exact mem_of_mem_clean hx
  · exact hx

theorem Fed.acquire (h : Fed f) {p : SequenceNumber} (ht : f.step (.acquire p) = some f') : Fed f' := by
  simp only [Feed.step] at ht
  split at ht
  swap
  · cases ht
    exact h
  have hg : ∀ m, (FifoDistributor.acquire m).2.state = .available → m.state = .available := by
    intro m
    unfold FifoDistributor.acquire
    split <;> simp
  cases ht
  refine h.update (h.wf.modify_found MessageDeque.acquire_sequence MessageDeque.acquire_state) rfl rfl rfl
    fun k p c d d' ctxt _ _ hd hd' _ hsv => ?_
  cases hd.symm.trans hd'
  refine hsv.transfer rfl fun x hx hxa => .inr ?_
  obtain ⟨h1, h2⟩ := offered_modify k f.log MessageDeque.acquire_sequence hg hxa
  exact ⟨x, hx, h1, rfl, h2⟩

theorem Fed.release (h : Fed f) (hop : Within f (.release c)) (ht : f.step (.release c) = some f') : Fed f' := by
  simp only [Feed.step, Messages.release, map_eq_some_iff] at ht
  obtain ⟨⟨r, q'⟩, hr, rfl⟩ := ht
  have hw := h.wf.release hr
  rcases h.wf.release_cases c with ⟨-, a, b, hb, -, hst, e⟩ | ⟨-, -, e⟩ | ⟨-, e⟩
  · have hop := hop _ e a rfl b hb
    rw [hr] at e
    obtain ⟨rfl, rfl⟩ : r = some a ∧ q' = _ := by simpa using e
    refine h.update hw rfl rfl rfl fun k p c d d' ctxt hctxt hc hd hd' hct hsv => ?_
    simp only [getElem?_modify, hd, Option.map_eq_map, map_some, Option.some.injEq] at hd'
    by_cases hp : b.priority = p
    · -- every cursor of the level starts over
      subst hp
      rw [if_pos rfl] at hd'
      subst hd'
      exact Served.of_reset (MessageDeque.reset_eq_true hct (hop d hd ctxt hctxt c hc))
    rw [if_neg hp] at hd'
    subst hd'
    refine hsv.transfer rfl fun x hx hxa => .inr ?_
    obtain ⟨a', b', ha', hb', hst'⟩ := exists_body_of_available hxa
    have hne : a ≠ a' := by
      rintro rfl
      obtain ⟨b1, hb1, hp1⟩ := h.wf.holder p d x a hd hx ha'
      cases hb.symm.trans hb1
      exact hp hp1
    have hb0 : f.messages.bodies[a']? = some b' := by
      simpa [Bodies.modify, hne] using hb'
    refine ⟨x, hx, by rw [getState_holder ha' hb0, hst'], rfl, fun ho => ?_⟩
    rw [OfferedTo, ha', sequenceAt_eq hb0] at ho
    rw [OfferedTo, ha', sequenceAt_eq hb']
    simp only [Feed.note, Messages.get, Bodies.get, Bodies.modify, bind_some, getElem?_modify, hb]
    refine ⟨fun he => hne ?_, ho⟩
    exact h.wf.sequence_inj hb hb0 hst (by simp [hst']) he
  · simp [hr] at e
  · rw [hr] at e
    obtain ⟨rfl, rfl⟩ : r = none ∧ q' = f.messages := by simpa using e
    exact h

theorem next_eq (hq : q.fairshare = none) (hc : c.type = .consumer)
    {x : Nat} {c1 : QueueCursor} {q1 : PriorityQueue} (hx : q.context c = (x, c1, q1))

    (hr : q1.scan (List.range (q1.levels - 1 + 1)).reverse ((q1.contexts[x]?).getD []) = (r, ctxt')) :
    q.next c = (r.bind (·.body), (r.map fun y => c1.setPosition (q1.bodies.sequenceAt y.body) 0).getD c1,
      { q1 with contexts := q1.contexts.set x ctxt' }) := by
  have hq1 : q1.fairshare = none ∧ c1.type = .consumer := by
    unfold context at hx
    split at hx <;> obtain ⟨-, rfl, rfl⟩ : _ ∧ _ ∧ _ := by simpa using hx
    · exact ⟨hq, hc⟩
    · exact ⟨hq, hc⟩
  have hloop := nextLoop_eq_scan hq1.1 q1.levels (p := ⟨q1.levels - 1, q1.levels - 1⟩)
    (Nat.sub_le _ _) ((q1.contexts[x]?).getD [])
  simp only [hr] at hloop
  unfold next
  simp only [hx, hq1.2, search, firstLevel, hq1.1, hloop, reduceCtorEq, if_false]
  cases r <;> rfl

theorem Fed.context (h : Fed f) {k : Nat} (hk : f.cursors[k]? = some c) :
    ∃ (x : Nat) (xs : List (List QueueCursor)) (ctxt : List QueueCursor),
      f.messages.context c = (x, { c with context := some x }, { f.messages with contexts := xs }) ∧
      xs[x]? = some ctxt ∧ ctxt.length = f.messages.levels ∧
      AllServed f.messages ctxt (OfferedTo f.messages.bodies k f.log) ∧
      ∀ (k' : Nat) (c' : QueueCursor) (x' : Nat), k' ≠ k → f.cursors[k']? = some c' → c'.context = some x' →
        x' ≠ x ∧ xs[x']? = f.messages.contexts[x']? := by
  cases hx : c.context with
  | some x =>
    obtain ⟨ctxt, hctxt, hlen, hs⟩ := h.served k c x hk hx
    refine ⟨x, f.messages.contexts, ctxt, ?_, hctxt, hlen, hs, fun k' c' x' hne hk' hx' => ⟨?_, rfl⟩⟩
    · simp only [PriorityQueue.context]
      cases c; simp_all
    · rintro rfl
      exact hne (h.apart k' k c' c x' hk' hk hx' hx)
  | none =>
    refine ⟨f.messages.contexts.length, _, _, by simp only [PriorityQueue.context, hx]; rfl,
      getElem?_concat_length, by simp, ?_, fun k' c' x' _ hk' hx' => ?_⟩
    · intro p c1 d hc1 _
      obtain ⟨-, rfl⟩ := mem_replicate.1 (mem_of_getElem? hc1)
      exact ⟨rfl, Served.of_reset rfl⟩
    · obtain ⟨ctxt, hctxt, -⟩ := h.served k' c' x' hk' hx'
      have hlt := (List.getElem?_eq_some_iff.1 hctxt).1
      exact ⟨by omega, getElem?_append_left hlt⟩

theorem mem_levels {p : Nat} (hp : p < f.messages.levels) :
    p ∈ (List.range (f.messages.levels - 1 + 1)).reverse := by
  simp only [mem_reverse, mem_range]
  omega

/-- The consumer that moved is served, with the message found offered to it. -/
theorem Wf.scan_served (h : Wf q) {k : Nat} {log : List Event}
    (hs : AllServed q ctxt (OfferedTo q.bodies k log)) (hr : q.scan ps ctxt = (r, ctxt'))
    (q' : PriorityQueue) (hq' : q'.bodies = q.bodies) : ctxt'.length = ctxt.length ∧
      AllServed q ctxt' (OfferedTo q.bodies k (Feed.note (.returned k) q' (r.bind (·.body)) log)) := by
  cases r with
  | none =>
    obtain ⟨hl, hs', -⟩ := h.scan_none hs hr
    exact ⟨hl, hs'⟩
  | some y =>
    obtain ⟨hl, ⟨p, d, hd, hy, hya⟩, ho⟩ := h.scan_some hs hr
    refine ⟨hl, ho _ (fun z hz => OfferedSince.note hz k q' _) ?_⟩
    obtain ⟨a, b, ha, hb, -⟩ := exists_body_of_available hya
    have hget : Messages.get q' a = some b.message := by simp [Messages.get, Bodies.get, hq', hb]
    rw [OfferedTo, ha, sequenceAt_eq hb]
    simp only [Feed.note, bind_some, ha, hget]
    exact .inl ⟨rfl, rfl⟩

theorem Fed.next (h : Fed f) {k : Nat} (ht : f.step (.next k) = some f') : Fed f' := by
  simp only [Feed.step, map_eq_some_iff, Messages.next] at ht
  obtain ⟨c, hk, rfl⟩ := ht
  have hcc := h.consumer c (mem_of_getElem? hk)
  obtain ⟨x, xs, ctxt, hx, hctxt, hlen, hs, hother⟩ := h.context hk
  rcases hr : PriorityQueue.scan { f.messages with contexts := xs }
    (List.range (f.messages.levels - 1 + 1)).reverse ((xs[x]?).getD []) with ⟨r, ctxt'⟩
  rw [next_eq h.base hcc hx hr]
  rw [hctxt] at hr
  have hxlt : x < xs.length := (List.getElem?_eq_some_iff.1 hctxt).1
  set q' : PriorityQueue := { f.messages with contexts := xs.set x ctxt' }
  obtain ⟨hl', hs'⟩ := (h.wf.contexts xs _).scan_served hs hr q' rfl
  -- the cursor that moved has the context it moved with
  have hct : ((r.map fun y => QueueCursor.setPosition { c with context := some x }
      (f.messages.bodies.sequenceAt y.body) 0).getD { c with context := some x }).type = .consumer := by
    cases r <;> exact hcc
  have hcx : ((r.map fun y => QueueCursor.setPosition { c with context := some x }
      (f.messages.bodies.sequenceAt y.body) 0).getD { c with context := some x }).context = some x := by
    cases r <;> rfl
  generalize (r.map fun y => QueueCursor.setPosition { c with context := some x }
    (f.messages.bodies.sequenceAt y.body) 0).getD { c with context := some x } = c' at hct hcx ⊢
  refine ⟨h.wf.contexts _ _, h.base, h.levels_pos, fun y hy => ?_, fun k' y x' hk' hx' => ?_, ?_⟩
  · rcases mem_or_eq_of_mem_set hy with hy | rfl
    · exact h.consumer y hy
    · exact hct
  · rcases getElem?_set_cases hk' with ⟨rfl, rfl⟩ | ⟨hne, hk'⟩
    · cases hcx.symm.trans hx'
      exact ⟨ctxt', by simp [q', hxlt], hl'.trans hlen, hs'⟩
    obtain ⟨hxne, hxs⟩ := hother k' y x' (Ne.symm hne) hk' hx'
    obtain ⟨ctxt1, hctxt1, hlen1, hs1⟩ := h.served k' y x' hk' hx'
    refine ⟨ctxt1, by simp [q', Ne.symm hxne, hxs, hctxt1], hlen1, fun p c1 d hc1 hd => ?_⟩
    obtain ⟨ht, hsd⟩ := hs1 p c1 d hc1 hd
    refine ⟨ht, hsd.transfer rfl fun z hz ha => .inr ⟨z, hz, ha, rfl, fun ho => ?_⟩⟩
    exact OfferedSince.note ho k q' _
  intro k1 k2 y1 y2 x' hk1 hk2 hx1 hx2
  rcases getElem?_set_cases hk1 with ⟨rfl, rfl⟩ | ⟨hne1, hk1⟩ <;>
    rcases getElem?_set_cases hk2 with ⟨rfl, rfl⟩ | ⟨hne2, hk2⟩
  · rfl
  · exact absurd (by simpa [hcx] using hx1.symm) (hother k2 y2 x' (Ne.symm hne2) hk2 hx2).1
  · exact absurd (by simpa [hcx] using hx2.symm) (hother k1 y1 x' (Ne.symm hne1) hk1 hx1).1
  · exact h.apart k1 k2 y1 y2 x' hk1 hk2 hx1 hx2

theorem Fed.step {op : Feed.Op} (h : Fed f) (hop : Within f op) (ht : f.step op = some f') : Fed f' := by
  cases op with
  | subscribe =>
    cases ht
    have hnew : ∀ {k : Nat} {c : QueueCursor} {x : Nat}, (f.cursors ++ [({} : QueueCursor)])[k]? = some c →
        c.context = some x → f.cursors[k]? = some c := by
      intro k c x hk hx
      rw [getElem?_append] at hk
      split at hk
      · exact hk
      · obtain rfl : c = {} := by simpa using mem_of_getElem? hk
        simp at hx
    refine ⟨h.wf, h.base, h.levels_pos, ?_, fun k c x hk hx => h.served k c x (hnew hk hx) hx, ?_⟩
    · simpa [or_imp, forall_and] using h.consumer
    · exact fun k k' c c' x hk hk' hx hx' => h.apart k k' c c' x (hnew hk hx) (hnew hk' hx') hx hx'
  | publish m => exact h.publish hop ht
  | deleted c => exact h.deleted ht
  | release c => exact h.release hop ht
  | acquire p => exact h.acquire ht
  | next k => exact h.next ht

theorem Fed.nothingStranded (h : Fed f) : f.NothingStranded := by
  intro k c hk hn (a : Nat) m hm ha
  obtain ⟨b, hb, rfl⟩ : ∃ b, f.messages.bodies[a]? = some b ∧ b.message = m := by
    simpa [Messages.get, Bodies.get] using hm
  obtain ⟨d, hd, y, hy, hya⟩ := h.wf.in_level a b hb (by simp [ha])
  have hcc := h.consumer c (mem_of_getElem? hk)
  obtain ⟨x, xs, ctxt, hx, hctxt, hlen, hs, -⟩ := h.context hk
  rcases hr : PriorityQueue.scan { f.messages with contexts := xs }
    (List.range (f.messages.levels - 1 + 1)).reverse ((xs[x]?).getD []) with ⟨r, ctxt'⟩
  simp only [Messages.next] at hn
  rw [next_eq h.base hcc hx hr] at hn
  rw [hctxt] at hr
  have hwx := h.wf.contexts xs f.messages.fairshare
  have hp : b.priority < f.messages.levels := h.wf.levels_eq ▸ (List.getElem?_eq_some_iff.1 hd).1
  cases r with
  | some z =>
    obtain ⟨-, ⟨p, d', -, -, hza⟩, -⟩ := hwx.scan_some hs hr
    obtain ⟨a', b', ha', -⟩ := exists_body_of_available hza
    simp [ha'] at hn
  | none =>
    obtain ⟨-, -, ho⟩ := hwx.scan_none hs hr
    have := ho b.priority (mem_levels hp) d hd (hlen ▸ hp) y hy (by rw [getState_holder hya hb, ha])
    rwa [OfferedTo, hya, sequenceAt_eq hb] at this

theorem fed_new {n : Nat} (h : 0 < n) : Fed { messages := new n } :=
  ⟨wf_new n, rfl, h, by simp, by simp, by simp⟩

end PriorityQueue

/-- In every run on a message deque, or on a priority queue, with any number of
consumers: when `next` returns null to one, every available message has been
returned to it since it was last published or released. -/
theorem never_stranded : (∀ ops f, Run Feed.step MessageDeque.Within { messages := ({} : MessageDeque) } ops f →
      f.NothingStranded) ∧
    (∀ n ops f, 0 < n → Run Feed.step PriorityQueue.Within { messages := PriorityQueue.new n } ops f →
      f.NothingStranded) := by
  constructor
  · intro ops f h
    have h₀ : MessageDeque.Fed { messages := ({} : MessageDeque) } := ⟨Window.nil, rfl, by simp, by simp⟩
    exact (h.keep (fun hs ha ht => MessageDeque.Fed.step hs ha ht) h₀).nothingStranded
  · intro n ops f hn h
    exact (h.keep (fun hs ha ht => PriorityQueue.Fed.step hs ha ht) (PriorityQueue.fed_new hn)).nothingStranded

/-- Two consumers: a message acquired by one is passed over by the other, and
offered to it once released. -/
def passedOver : List Feed.Op :=
  [.subscribe, .subscribe, .publish { sequence := 1 }, .publish { sequence := 2 }, .next 0, .acquire 1,
    .next 1, .release { position := 1, valid := true }, .next 1]

def passedOverLog : List Event :=
  [.returned 1 1, .released 1, .returned 1 2, .returned 0 1, .published 2, .published 1]

theorem never_stranded_passedOver :
    (∃ f, Run Feed.step MessageDeque.Within { messages := ({} : MessageDeque) } passedOver f ∧
      f.log = passedOverLog ∧ f.NothingStranded) ∧
    (∃ f, Run Feed.step PriorityQueue.Within { messages := PriorityQueue.new 10 } passedOver f ∧
      f.log = passedOverLog ∧ f.NothingStranded) := by
  constructor
  · exact exists_run (by decide +kernel) fun f hf hl => ⟨hf, hl, never_stranded.1 _ _ hf⟩
  · exact exists_run (by decide +kernel) fun f hf hl => ⟨hf, hl, never_stranded.2 _ _ _ (by decide) hf⟩

/-- A number used again, at which the consumer's cursor already is. -/
def reusedNumber : List Feed.Op :=
  [.subscribe, .publish { sequence := 1 }, .next 0, .deleted { position := 1, valid := true },
    .publish { sequence := 1 }]

/-- A message acquired by another is passed over, and then released so often
that the version is again the one the cursor has. -/
def versionRound (n : Nat) : List Feed.Op :=
  [.subscribe, .publish { sequence := 1 }, .acquire 1, .next 0] ++
    List.replicate n (.release { position := 1, valid := true })

namespace MessageDeque

/-- The feed once the first message was passed over and released so often. -/
def released (st : MessageState) (v : BitVec 32) (log : List Event) : Feed MessageDeque :=
  { messages := { messages := [{ sequence := 1, state := st }], version := v }
    cursors := [{ position := 1, valid := true }]
    log := log }

theorem run_release (n : Nat) (st : MessageState) (v : BitVec 32) (log : List Event) :
    ∃ log', Run Feed.step (fun _ _ => True) (released st v log)
      (List.replicate (n + 1) (.release { position := 1, valid := true }))
      (released .available (v + BitVec.ofNat 32 (n + 1)) (.released 1 :: log')) := by
  have hstep : ∀ st v log, Feed.step (released st v log) (.release { position := 1, valid := true }) =
      some (released .available (v + 1) (.released 1 :: log)) := by
    intro st v log
    cases st <;> rfl
  induction n generalizing st v log with
  | zero => exact ⟨log, .cons trivial (hstep st v log) (.nil _)⟩
  | succ n ih =>
    obtain ⟨log', h⟩ := ih .available (v + 1) (.released 1 :: log)
    refine ⟨log', .cons trivial (hstep st v log) ?_⟩
    rwa [show v + 1 + BitVec.ofNat 32 (n + 1) = v + BitVec.ofNat 32 (n + 1 + 1) by bv_omega] at h

end MessageDeque

/-- With numbers or versions used again, a message is stranded. -/
theorem stranded_when_used_again :
    (∃ f, Run Feed.step (fun _ _ => True) { messages := ({} : MessageDeque) } reusedNumber f ∧
      ¬ f.NothingStranded) ∧
    (∃ f, Run Feed.step (fun _ _ => True) { messages := ({} : MessageDeque) } (versionRound (2 ^ 32)) f ∧
      ¬ f.NothingStranded) := by
  have hpos : ∀ st log, (Messages.next (MessageDeque.released st 0 log).messages
      { position := 1, valid := true }).1 = none := by
    intro st log
    cases st <;> rfl
  constructor
  · refine exists_run (Q := fun f => f.messages = { messages := [{ sequence := 1, state := .available }] } ∧
        f.cursors = [{ position := 1, valid := true }] ∧ f.log = [.published 1, .returned 0 1, .published 1])
      (by decide +kernel) fun ⟨d, cs, log⟩ hf ⟨hd, hcs, hlog⟩ => ⟨hf, fun h => ?_⟩
    subst hd hcs hlog
    have := h 0 _ rfl (hpos _ _) (0 : Nat) { sequence := 1, state := .available } rfl rfl
    revert this
    decide
  obtain ⟨log', hr⟩ := MessageDeque.run_release (2 ^ 32 - 1) .acquired 0 [.published 1]
  refine ⟨_, .append (.cons trivial rfl (.cons trivial rfl (.cons trivial rfl (.cons trivial rfl (.nil _))))) hr,
    fun h => ?_⟩
  have := h 0 _ rfl (hpos _ _) (0 : Nat) { sequence := 1, state := .available } rfl rfl
  simp [MessageDeque.released, OfferedSince] at this

end QB.Impl
