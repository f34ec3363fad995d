import QpidBroker.Impl.ConsumerImpl
import QpidBroker.Impl.MessageMap
import QpidBroker.Proof.LevelOrder
import QpidBroker.Proof.Station

/-!
# When a refused message is offered again

`getNextMessage` restores the cursor of a consumer that cannot accept a message now.
That is enough for a deque or a map, whose position is the cursor. The position
in a priority queue is in a context that cursors share, which is
restored only if there was none (`Reoffers`); a fairshare queue also counts the
message refused.
-/

namespace QB.Impl

open Record Serial Spec List Option

namespace PriorityQueue

open IndexedDeque

variable {q q' : PriorityQueue} {ctxt : List QueueCursor}

/-! ## Contexts -/

/-- A context has a cursor of a consumer for each level. -/
def IsContext (q : PriorityQueue) (ctxt : List QueueCursor) : Prop :=
  ctxt.length = q.levels ∧ ∀ c ∈ ctxt, c.type = .consumer

theorem next_sameKind {T : Type} [Record Bodies T] (s : Bodies) (d : IndexedDeque T) (c : QueueCursor) :
    SameKind c (d.next s c).2 := by
  rcases hn : d.next s c with ⟨_ | i, c'⟩
  · exact (next_none hn).2.1
  · obtain ⟨-, m, -, -, -, rfl, -⟩ := IndexedDeque.next_some hn
    exact .setPosition _ _ _

theorem IsContext.nextAt (h : IsContext q ctxt) (p : Nat) : IsContext q (q.nextAt ctxt p).2 := by
  unfold PriorityQueue.nextAt
  split
  · rename_i d c hd hc
    refine ⟨by simpa using h.1, fun c' hc' => ?_⟩
    rcases mem_or_eq_of_mem_set hc' with hc' | rfl
    · exact h.2 c' hc'
    · exact (next_sameKind _ _ _).type.trans (h.2 c (mem_of_getElem? hc))
  · exact h

theorem IsContext.scan (h : IsContext q ctxt) (ps : List Nat) : IsContext q (q.scan ps ctxt).2 := by
  induction ps generalizing ctxt with
  | nil => exact h
  | cons p ps ih =>
    rw [PriorityQueue.scan]
    have hn := h.nextAt p
    rcases h1 : q.nextAt ctxt p with ⟨_ | x, ctxt1⟩ <;> rw [h1] at hn
    · exact ih hn
    · exact hn

/-- What is known of a queue whose contexts are those of its consumers. -/
structure Ready (q : PriorityQueue) : Prop where
  wf : Wf q
  levels_pos : 0 < q.levels
  short : ∀ d ∈ q.messages, d.messages.length < 2 ^ 31
  contexts : ∀ ctxt ∈ q.contexts, IsContext q ctxt
  fairshare : ∀ f ∈ q.fairshare, f.priority < q.levels

/-- The context of the cursor is one of the queue's. -/
def Holds (q : PriorityQueue) (c : QueueCursor) : Prop := ∀ x ∈ c.context, x < q.contexts.length

theorem ready_new {levels : Nat} (h : 0 < levels) : Ready (new levels) where
  wf := wf_new levels
  levels_pos := h
  short d hd := by
    obtain rfl := (mem_replicate.1 hd).2
    simp
  contexts := by simp [new]
  fairshare := by simp [new]

theorem ready_newFairshare {levels : Nat} (h : 0 < levels) (limit : BitVec 32) (limits : List (Nat × BitVec 32)) :
    Ready (newFairshare levels limit limits) where
  wf := (wf_new levels).contexts [] _
  levels_pos := h
  short := (ready_new h).short
  contexts := by simp [newFairshare, new]
  fairshare f hf := by
    obtain rfl : _ = f := by simpa [newFairshare] using hf
    exact Nat.sub_lt h Nat.one_pos

theorem isContext_new (q : PriorityQueue) : IsContext q (List.replicate q.levels { type := .consumer }) :=
  ⟨by simp, fun c hc => by rw [(mem_replicate.1 hc).2]⟩

variable {c c' : QueueCursor} {p a : Nat} {d : IndexedDeque MessageHolder} {x y : MessageHolder}

theorem Ready.context (h : Ready q) (hc : q.Holds c) :
    ∃ x xs ctxt, q.context c = (x, { c with context := some x }, { q with contexts := xs }) ∧
      xs[x]? = some ctxt ∧ IsContext q ctxt ∧
      ((c.context = none ∧ x = q.contexts.length ∧ xs = q.contexts ++ [ctxt] ∧
          ctxt = List.replicate q.levels { type := .consumer }) ∨
        (c.context = some x ∧ xs = q.contexts)) := by
  cases hx : c.context with
  | none =>
    refine ⟨q.contexts.length, _, List.replicate q.levels { type := .consumer }, by
      simp [PriorityQueue.context, hx], by simp, isContext_new q, .inl ⟨rfl, rfl, rfl, rfl⟩⟩
  | some x =>
    have hlt := hc x hx
    refine ⟨x, q.contexts, q.contexts[x], ?_, getElem?_eq_getElem hlt,
      h.contexts _ (getElem_mem hlt), .inr ⟨rfl, rfl⟩⟩
    rw [PriorityQueue.context, hx]
    simp [← hx]

theorem Ready.search (h : Ready q) (hc : IsContext q ctxt) (type : SubscriptionType) :
    IsContext q (q.search type ctxt).2.1 ∧
      ∃ fs, (q.search type ctxt).2.2 = { q with fairshare := fs } ∧ ∀ f ∈ fs, f.priority < q.levels := by
  by_cases ht : type = .purge
  · subst ht
    exact ⟨hc.scan _, q.fairshare, rfl, h.fairshare⟩
  obtain ⟨-, fs, he, hfs⟩ := search_eq h.levels_pos h.fairshare ht ctxt
  rw [he]
  refine ⟨hc.scan _, fs, rfl, ?_⟩
  rcases hfs with ⟨-, rfl⟩ | ⟨f, -, rfl, hl, -⟩
  · simp
  · intro f' hf'
    obtain rfl : f = f' := by simpa using hf'
    exact hl

theorem Ready.with (h : Ready q) {xs : List (List QueueCursor)} {fs : Option Fairshare}
    (hx : ∀ ctxt ∈ xs, IsContext q ctxt) (hf : ∀ f ∈ fs, f.priority < q.levels) :
    Ready { q with contexts := xs, fairshare := fs } :=
  ⟨h.wf.contexts xs fs, h.levels_pos, h.short, hx, hf⟩

theorem Ready.next (h : Ready q) (hc : q.Holds c) :
    Follows Ready Holds q (q.next c).2.2 ∧ (q.next c).2.2.Holds (q.next c).2.1 := by
  obtain ⟨x, xs, ctxt, hx, hxs, hctxt, hcase⟩ := h.context hc
  have hlt : x < xs.length := (List.getElem?_eq_some_iff.1 hxs).1
  have hle : q.contexts.length ≤ xs.length := by
    rcases hcase with ⟨-, -, rfl, -⟩ | ⟨-, rfl⟩ <;> simp
  have hall : ∀ ctxt ∈ xs, IsContext q ctxt := by
    rcases hcase with ⟨-, -, rfl, -⟩ | ⟨-, rfl⟩
    · intro y hy
      rcases mem_append.1 hy with hy | hy
      · exact h.contexts y hy
      · obtain rfl := mem_singleton.1 hy
        exact hctxt
    · exact h.contexts
  unfold PriorityQueue.next
  simp only [hx]
  split
  · refine ⟨⟨h.with hall h.fairshare, fun c' hc' y hy => lt_of_lt_of_le (hc' y hy) hle⟩, fun y hy => ?_⟩
    rw [(next_sameKind _ _ _).context] at hy
    obtain rfl : x = y := by simpa using hy
    exact hlt
  have hr := (h.with hall h.fairshare).search (hctxt : IsContext _ ctxt) c.type
  simp only [hxs, getD_some]
  rcases hs : PriorityQueue.search _ c.type ctxt with ⟨r, ctxt', q'⟩
  simp only [hs] at hr ⊢
  obtain ⟨hc', fs, rfl, hfs⟩ := hr
  have hset : ∀ y ∈ xs.set x ctxt', IsContext q y := by
    intro y hy
    rcases mem_or_eq_of_mem_set hy with hy | rfl
    · exact hall y hy
    · exact hc'
  cases r <;>
  · refine ⟨⟨h.with hset hfs, fun c' hc' y hy => ?_⟩, fun y hy => ?_⟩
    · simpa using lt_of_lt_of_le (hc' y hy) hle
    · obtain rfl : x = y := by simpa [QueueCursor.setPosition] using hy
      simpa using hlt

theorem Ready.follows (h : Ready q) (hw : Wf q') (hl : q'.levels = q.levels)
    (hs : ∀ d ∈ q'.messages, d.messages.length < 2 ^ 31) (hx : q'.contexts = q.contexts)
    (hf : q'.fairshare = q.fairshare) : Follows Ready Holds q q' where
  ok := by
    refine ⟨hw, by rw [hl]; exact h.levels_pos, hs, ?_, ?_⟩
    · rw [hx]
      intro ctxt hc
      exact ⟨(h.contexts ctxt hc).1.trans hl.symm, (h.contexts ctxt hc).2⟩
    · rw [hf, hl]
      exact h.fairshare
  knows c hc x hxc := by
    rw [hx]
    exact hc x hxc

theorem short_modify {l : List (IndexedDeque MessageHolder)}
    {g : IndexedDeque MessageHolder → IndexedDeque MessageHolder}
    (hg : ∀ d, (g d).messages.length ≤ d.messages.length) (h : ∀ d ∈ l, d.messages.length < 2 ^ 31) :
    ∀ d ∈ l.modify p g, d.messages.length < 2 ^ 31 := by
  intro d hd
  obtain ⟨d0, hd0, rfl | rfl⟩ := exists_of_mem_modify hd
  · exact lt_of_le_of_lt (hg d0) (h d0 hd0)
  · exact h d0 hd0

/-- Every call keeps a queue ready, and the contexts cursors have. -/
def container : Container PriorityQueue where
  Ok := Ready
  Knows := Holds
  Fits := FitsShort
  knows_new q type := by simp [Holds]
  deleted {q} c h := by
    rcases h.wf.deleted_cases c with ⟨-, i, ptr, a, b, hptr, ha, hb, -, e⟩ | e
    · simp only [Messages.deleted, e]
      refine h.follows (h.wf.dropped hptr ha hb) rfl (short_modify (fun d => ?_) h.short) rfl rfl
      obtain ⟨n, -, he, -⟩ := clean_eq (q.bodies.modify (some a) (·.setState .deleted)) d
      rw [he]
      simp
    · simp only [Messages.deleted, e]
      exact ⟨h, fun _ => id⟩
  publish {q m} h hm := by
    obtain ⟨d, id, lg, fg, -, -, -, -, -, -, -, e⟩ := h.wf.publish_eq h.levels_pos hm.1
    refine h.follows (h.wf.publish h.levels_pos hm.1) ?_ hm.2 ?_ ?_ <;> simp only [Messages.publish, e]
  release {q q' c r} h hr := by
    have hw := h.wf.release hr
    rcases h.wf.release_cases c with ⟨-, a, b, hb, -, hst, e⟩ | ⟨-, -, e⟩ | ⟨-, e⟩ <;>
      simp only [Messages.release, e] at hr
    · obtain ⟨-, rfl⟩ : _ ∧ _ = q' := by simpa using hr
      exact h.follows hw rfl (short_modify (fun _ => le_rfl) h.short) rfl rfl
    · simp at hr
    · obtain ⟨-, rfl⟩ : _ ∧ q = q' := by simpa using hr
      exact ⟨h, fun _ => id⟩
  modify {q p f} h hf := by
    refine h.follows (h.wf.bodies (SameShape.modify _ _ fun b hb => hf b.message ?_)) rfl h.short rfl rfl
    rw [mem_def] at hb ⊢
    simp [Messages.get, Bodies.get, hb]
  next h hc := h.next hc

theorem next_type (q : PriorityQueue) (c : QueueCursor) : (q.next c).2.1.type = c.type := by
  have hx : (q.context c).2.1.type = c.type := by
    unfold PriorityQueue.context
    split <;> rfl
  simp only [PriorityQueue.next]
  split
  · exact (next_sameKind _ _ _).type.trans hx
  · split <;> exact hx

/-! ## The message found first -/

theorem Wf.found (h : Wf q)
    (hd : q.messages[p]? = some d) (hx : x ∈ d.messages) (hs : getState q.bodies x = .available) :
    ∃ a b, x.body = some a ∧ q.bodies[a]? = some b ∧ b.message.state = .available ∧ b.priority = p := by
  obtain ⟨a, b, ha, hb, hst⟩ := exists_body_of_available hs
  obtain ⟨b', hb', hp⟩ := h.holder p d x a hd hx ha
  cases hb.symm.trans hb'
  exact ⟨a, b, ha, hb, hst, hp⟩

theorem Wf.firstAt_some (h : Wf q) (hx : q.firstAt p = some x) :
    ∃ a b, x.body = some a ∧ q.bodies[a]? = some b ∧ b.message.state = .available ∧ b.priority = p := by
  obtain ⟨d, hd, hn⟩ := bind_eq_some_iff.1 hx
  obtain ⟨i, hi, hxi⟩ := bind_eq_some_iff.1 hn
  obtain ⟨-, m, hm, -, hc, -⟩ := IndexedDeque.next_some (Prod.ext hi rfl)
  cases hm.symm.trans hxi
  rw [QueueCursor.check_consumer rfl, decide_eq_true_eq] at hc
  exact h.found hd (mem_of_getElem? hm) hc

theorem Wf.firstAt_none (h : Wf q) (hp : q.firstAt p = none) {b : Body}
    (hb : q.bodies[a]? = some b) (hs : b.message.state = .available) : b.priority ≠ p := by
  rintro rfl
  obtain ⟨d, hd, x, hx, ha⟩ := h.in_level a b hb (by simp [hs])
  obtain ⟨j, hj⟩ := mem_iff_getElem?.1 hx
  rcases hn : d.next q.bodies { type := .consumer } with ⟨_ | i, c'⟩
  · have hst : d.start q.bodies { type := .consumer } ≤ j := by
      simp [start, reset, (h.level_window d (mem_of_getElem? hd)).2]
    have := (next_none hn).1 j x hst hj
    rw [PassesOver, QueueCursor.check_consumer rfl, getState_holder ha hb, hs] at this
    simp at this
  · obtain ⟨-, m, hm, -⟩ := IndexedDeque.next_some hn
    rw [firstAt, hd, bind_some, hn, bind_some, hm] at hp
    cases hp

theorem eq_of_getElem?_body {l : List MessageHolder} (h : (l.filterMap (·.body)).Nodup) {i j : Nat}
    (hx : l[i]? = some x) (hy : l[j]? = some y) (hxa : x.body = some a)
    (hya : y.body = some a) : i = j := by
  induction l generalizing i j with
  | nil => simp at hx
  | cons z l ih =>
    have hmem : ∀ {k : Nat} {w : MessageHolder}, l[k]? = some w → w.body = some a →
        a ∈ l.filterMap (·.body) := fun hk hw => mem_filterMap.2 ⟨_, mem_of_getElem? hk, hw⟩
    cases i with
    | zero =>
      cases j with
      | zero => rfl
      | succ j =>
        obtain rfl : z = x := by simpa using hx
        rw [filterMap_cons_some hxa, nodup_cons] at h
        exact absurd (hmem (by simpa using hy) hya) h.1
    | succ i =>
      cases j with
      | zero =>
        obtain rfl : z = y := by simpa using hy
        rw [filterMap_cons_some hya, nodup_cons] at h
        exact absurd (hmem (by simpa using hx) hxa) h.1
      | succ j =>
        have hl : (l.filterMap (·.body)).Nodup := h.sublist ((sublist_cons_self z l).filterMap _)
        exact congrArg (· + 1) (ih hl (by simpa using hx) (by simpa using hy))

theorem Wf.next_ne (h : Wf q) (hs : ∀ d ∈ q.messages, d.messages.length < 2 ^ 31)
    (hd : q.messages[p]? = some d) {i j : Nat}
    (hx : d.messages[i]? = some x) (hc : c.valid = true) (hv : c.version = d.version)
    (hp : c.position = getSequence q.bodies x) (hn : d.next q.bodies c = (some j, c')) : i < j := by
  have hm := mem_of_getElem? hd
  have hlt := (List.getElem?_eq_some_iff.1 hx).1
  have hw := (h.level_window d hm).1
  obtain ⟨hle, -⟩ := IndexedDeque.next_some hn
  suffices hst : i < d.start q.bodies c by omega
  have hr : d.reset c = false := by simp [reset, hc, hv]
  rw [start, if_neg (by simp [hr]), indexAfter, if_pos hc, index]
  cases hms : d.messages with
  | nil => simp [hms] at hx
  | cons f ms =>
    have hf : (d.seqs q.bodies).head? = some (getSequence q.bodies f) := by simp [seqs, hms]
    have hi : (d.seqs q.bodies)[i]? = some c.position := by rw [getElem?_seqs, hx, hp]; rfl
    have hdist := ((hw.getElem?_eq_some_iff hf).1 hi).2
    have hl := hs d hm
    have hd1 : dist (getSequence q.bodies f) (c.position + 1) = i + 1 := by
      rw [dist_add_one (by omega), hdist]
    have hsub : ((c.position + 1).sub (getSequence q.bodies f)).toNat = i + 1 := by
      rw [SequenceNumber.sub, toInt_sub_of_lt (by omega), hd1, Int.toNat_natCast]
    simp only [SequenceNumber.lt_iff, hsub]
    rw [if_neg (by omega)]
    exact Nat.lt_succ_self i

/-! ## A message refused -/

theorem startLevel_contexts (xs : List (List QueueCursor)) :
    ({ q with contexts := xs } : PriorityQueue).startLevel = q.startLevel := by
  unfold startLevel firstLevel
  cases q.fairshare <;> rfl

theorem Ready.next_scan (h : Ready q) (hc : q.Holds c) (ht : c.type = .consumer) :
    q.startLevel < q.levels ∧ ∃ (x : Nat) (xs : List (List QueueCursor)) (ctxt : List QueueCursor)
      (fs : Option Fairshare), xs[x]? = some ctxt ∧ IsContext q ctxt ∧
      ((c.context = none ∧ ctxt = List.replicate q.levels { type := .consumer }) ∨
        (c.context = some x ∧ q.contexts[x]? = some ctxt)) ∧
      (q.next c).1 = (q.scan (cycle q.levels q.startLevel) ctxt).1.bind (·.body) ∧
      (q.next c).2.2 = { q with
        contexts := xs.set x (q.scan (cycle q.levels q.startLevel) ctxt).2, fairshare := fs } ∧
      ((q.fairshare = none ∧ fs = none) ∨
        ∃ f, q.fairshare.isSome ∧ fs = some f ∧ f.priority < q.levels ∧ q.LeftAt ctxt f) := by
  obtain ⟨x, xs, ctxt, hx, hxs, hctxt, hcase⟩ := h.context hc
  obtain ⟨hlt, fs, he, hfs⟩ := search_eq (q := { q with contexts := xs }) h.levels_pos h.fairshare
    (by simp : SubscriptionType.consumer ≠ .purge) ctxt
  simp only [startLevel_contexts, scan_fairshare, LeftAt] at hlt he hfs
  refine ⟨hlt, x, xs, ctxt, fs, hxs, hctxt, ?_, ?_, ?_, hfs⟩
  · rcases hcase with ⟨h1, -, -, h2⟩ | ⟨h1, rfl⟩
    · exact .inl ⟨h1, h2⟩
    · exact .inr ⟨h1, hxs⟩
  all_goals
    simp only [PriorityQueue.next, hx, ht, hxs, getD_some, he]
    cases (q.scan (cycle q.levels q.startLevel) ctxt).1 <;> rfl

theorem Ready.scan_ne (h : Ready q) {i : Nat}
    (hd : q.messages[p]? = some d) (hx : d.messages[i]? = some x) (hs : getState q.bodies x = .available)
    (hp : ctxt[p]? = some c) (hv : c.valid = true)
    (hver : c.version = d.version) (hpos : c.position = getSequence q.bodies x) {ps : List Nat}
    (hps : ps.Nodup) (hy : (q.scan ps ctxt).1 = some y) : y.body ≠ x.body := by
  obtain ⟨ps1, p', ps2, ctxt1, rfl, hsame, hn⟩ := scan_found hy
  have hp' : p' ∉ ps1 := fun hm => (nodup_append.1 hps).2.2 p' hm p' (by simp) rfl
  obtain ⟨a, b, hxa, hb, -, hbp⟩ := h.wf.found hd (mem_of_getElem? hx) hs
  unfold nextAt at hn
  split at hn
  swap
  · simp at hn
  rename_i d' c' hd' hc'
  rw [hsame p' hp'] at hc'
  rcases hj : d'.next q.bodies c' with ⟨_ | j, c2⟩
  · simp [hj] at hn
  obtain ⟨-, m, hm, -, hchk, -⟩ := IndexedDeque.next_some hj
  obtain rfl : m = y := by
    simp only [hj, bind_some, hm, Prod.mk.injEq, Option.some.injEq] at hn
    exact hn.1
  intro he
  obtain ⟨b', hb', hbp'⟩ := h.wf.holder p' d' m a hd' (mem_of_getElem? hm) (he.trans hxa)
  cases hb.symm.trans hb'
  obtain rfl : p = p' := hbp.symm.trans hbp'
  cases hd.symm.trans hd'
  cases hp.symm.trans hc'
  -- at the level of the message, the cursor is past it
  have hlt := h.wf.next_ne h.short hd hx hv hver hpos hj
  have hnd := h.wf.level_nodup d (mem_of_getElem? hd)
  exact absurd (eq_of_getElem?_body hnd hx hm hxa (he.trans hxa)) (Nat.ne_of_lt hlt)

theorem Ready.next_again_context (h : Ready q) (hc : q.Holds c) (ht : c.type = .consumer)
    (hx : c.context.isSome) (hn : q.next c = (some a, c', q')) : (q'.next c).1 ≠ some a := by
  obtain ⟨hlt, x, xs, ctxt, fs, hxs, hctxt, hcase, h1, h2, -⟩ := h.next_scan hc ht
  have hk := h.next hc
  rw [hn] at h1 h2 hk
  obtain ⟨y, hy, hya⟩ := bind_eq_some_iff.1 h1.symm
  obtain ⟨ps1, p, ps2, ctxt1, -, -, hat⟩ := scan_found hy
  have hctxt' := hctxt.scan (cycle q.levels q.startLevel)
  set ctxt' := (q.scan (cycle q.levels q.startLevel) ctxt).2 with hct
  obtain ⟨-, x', xs', ctxt2, -, -, -, hcase', h₁', -⟩ := hk.1.ok.next_scan (hk.1.knows c hc) ht
  rcases hcase with ⟨hnone, -⟩ | ⟨hcx, -⟩
  · simp [hnone] at hx
  rcases hcase' with ⟨hnone, -⟩ | ⟨hcx', hx'⟩
  · simp [hnone] at hx
  cases hcx.symm.trans hcx'
  obtain rfl : ctxt' = ctxt2 := by
    rw [h2] at hx'
    simpa [(List.getElem?_eq_some_iff.1 hxs).1] using hx'
  intro he
  rw [h₁'] at he
  obtain ⟨z, hz, hza⟩ := bind_eq_some_iff.1 he
  rw [h2] at hz
  simp only [scan_fairshare] at hz
  unfold nextAt at hat
  split at hat
  swap
  · simp at hat
  rename_i d c0 hd hc0
  rcases hj : d.next q.bodies c0 with ⟨_ | j, c2⟩
  · simp [hj] at hat
  obtain ⟨-, m, hm, -, hchk, hc2, -⟩ := IndexedDeque.next_some hj
  obtain ⟨rfl, hset⟩ : m = y ∧ ctxt1.set p c2 = ctxt' := by simpa [hj, hm] using hat
  have hcp : ctxt'[p]? = some c2 := by
    rw [← hset]
    simp [(List.getElem?_eq_some_iff.1 hc0).1]
  have hty : c0.type = .consumer := by
    have := hctxt'.2 c2 (mem_of_getElem? hcp)
    rwa [hc2] at this
  rw [QueueCursor.check_consumer hty, decide_eq_true_eq] at hchk
  refine h.scan_ne hd hm hchk hcp (by rw [hc2]; rfl) (by rw [hc2]; rfl) (by rw [hc2]; rfl)
    nodup_cycle hz (hza.trans hya.symm)

theorem Wf.findSome?_below (h : Wf q) {l : Nat} {b : Body} {ps : List Nat}
    (hps : ∀ p, p ∈ ps ↔ p < q.levels ∧ p ≠ l) (hl : q.firstAt l = some y) (hy : y.body = some a)
    (hb : q.bodies[a]? = some b) :
    ((ps ++ [l]).findSome? q.firstAt).bind (·.body) = some a ↔
      ∀ (a' : Nat) (b' : Body), q.bodies[a']? = some b' → b'.message.state = .available →
        b'.priority = b.priority := by
  obtain ⟨a1, b1, ha1, hb1, -, hbl⟩ := h.firstAt_some hl
  cases hy.symm.trans ha1
  cases hb.symm.trans hb1
  rw [findSome?_append, hbl]
  cases hf : ps.findSome? q.firstAt with
  | none =>
    simp only [findSome?_cons, hl, none_or, bind_some, hy, true_iff]
    intro a' b' hb' hs'
    by_contra hne
    obtain ⟨d, hd, -⟩ := h.in_level a' b' hb' (by simp [hs'])
    have hlt : b'.priority < q.levels := by rw [← h.levels_eq]; exact (List.getElem?_eq_some_iff.1 hd).1
    exact h.firstAt_none (findSome?_eq_none_iff.1 hf _ ((hps _).2 ⟨hlt, hne⟩)) hb' hs' rfl
  | some z =>
    obtain ⟨p, hp, hz⟩ := exists_of_findSome?_eq_some hf
    obtain ⟨a2, b2, ha2, hb2, hs2, hp2⟩ := h.firstAt_some hz
    have hne : b2.priority ≠ l := by rw [hp2]; exact ((hps p).1 hp).2
    simp only [some_or, bind_some, ha2, Option.some.injEq]
    constructor
    · rintro rfl
      cases hb.symm.trans hb2
      exact absurd hbl hne
    · intro hall
      exact absurd (hall a2 b2 hb2 hs2) hne

/-- `next`, for a consumer that has no context yet, finds the first message of the first
level that has one; a fairshare queue is left at that level. -/
theorem Ready.next_fresh (h : Ready q) (hx : c.context = none) (ht : c.type = .consumer) :
    ∃ xs fs, (q.next c).1 = ((cycle q.levels q.startLevel).findSome? q.firstAt).bind (·.body) ∧
      (q.next c).2.2 = { q with contexts := xs, fairshare := fs } ∧
      ((q.fairshare = none ∧ fs = none) ∨ ∃ f, fs = some f ∧ f.priority < q.levels ∧
          ∀ y, (cycle q.levels q.startLevel).findSome? q.firstAt = some y → q.firstAt f.priority = some y) := by
  obtain ⟨hlt, x, xs, ctxt, fs, -, -, hcase, h1, h2, hfs⟩ := h.next_scan (by simp [Holds, hx]) ht
  obtain rfl : ctxt = List.replicate q.levels { type := .consumer } := by
    rcases hcase with ⟨-, he⟩ | ⟨he, -⟩
    · exact he
    · simp [hx] at he
  have hfresh : ∀ {ps : List Nat}, List.Sublist ps (cycle q.levels q.startLevel) →
      (q.scan ps (List.replicate q.levels { type := .consumer })).1 = ps.findSome? q.firstAt :=
    fun hps => scan_fresh (nodup_cycle.sublist hps) fun p hp => by simp [(mem_cycle hlt).1 (hps.subset hp)]
  rw [hfresh (Sublist.refl _)] at h1
  refine ⟨_, fs, h1, h2, hfs.imp_right ?_⟩
  rintro ⟨f, -, rfl, hfl, hleft⟩
  refine ⟨f, rfl, hfl, fun y hy => ?_⟩
  obtain ⟨ps1, ps2, hps, hn1, hs1⟩ := hleft y ((hfresh (Sublist.refl _)).trans hy)
  rw [hfresh (by rw [hps]; simp)] at hn1 hs1
  rwa [findSome?_append, hn1, findSome?_singleton] at hs1

theorem Ready.next_again_fresh (h : Ready q) (hx : c.context = none)
    (ht : c.type = .consumer) (hn : q.next c = (some a, c', q')) :
    (q'.next c).1 = some a ↔ q'.Reoffers c a := by
  have hk := (h.next (c := c) (by simp [Holds, hx])).1.ok
  obtain ⟨xs, fs, h1, h2, hfs⟩ := h.next_fresh hx ht
  rw [hn] at h1 h2 hk
  obtain rfl : q' = { q with contexts := xs, fairshare := fs } := h2
  obtain ⟨-, -, h₁', -⟩ := hk.next_fresh hx ht
  change (PriorityQueue.next _ c).1 = ((cycle q.levels _).findSome? q.firstAt).bind _ at h₁'
  rw [h₁']
  rcases hfs with ⟨hq, rfl⟩ | ⟨f, rfl, hfl, hf⟩
  · -- the base class starts at the highest level each time
    rw [startLevel_base rfl]
    rw [startLevel_base hq] at h1
    simp [Reoffers, hx, ← h1]
  obtain ⟨y, hy, hya⟩ := bind_eq_some_iff.1 h1.symm
  have hfirst := hf y hy
  obtain ⟨a1, b, ha1, hb, -⟩ := h.wf.firstAt_some hfirst
  cases hya.symm.trans ha1
  rw [startLevel_fairshare rfl]
  cases hr : f.limitReached.1 with
  | false =>
    obtain ⟨ps, hc⟩ := cycle_cons q.levels f.priority
    simp [hc, hfirst, hya, Reoffers, hx, hr]
  | true =>
    obtain ⟨ps, hc, hps⟩ := cycle_below hfl
    simp only [if_true, hc, h.wf.findSome?_below hps hfirst hya hb, Reoffers, hx, mem_def,
      Option.some.injEq, forall_eq', hr, hb, true_and, reduceCtorEq, false_or]
    exact ⟨fun hall a' _ b' he => he ▸ hall a' b', fun hall a' b' => hall a' b b' rfl⟩

/-- Whether the message `next` returned is returned again for the cursor restored. -/
theorem Ready.next_again (h : Ready q) (hc : q.Holds c) (ht : c.type = .consumer)
    (hn : q.next c = (some a, c', q')) : (q'.next c).1 = some a ↔ q'.Reoffers c a := by
  cases hx : c.context with
  | none => exact h.next_again_fresh hx ht hn
  | some x =>
    have := h.next_again_context hc ht (by simp [hx]) hn
    simp [this, Reoffers, hx]

instance {κ : Type} (s : Station PriorityQueue κ) : (op : Station.Op κ) → Decidable (container.InBounds s op)
  | .push m => inferInstanceAs (Decidable (FitsShort s.queue.messages (m.setSequence (s.queue.sequence + 1))))
  | .subscribe _ _ | .release _ _ | .acquire _ | .dequeue _ _ | .dequeueCommitted _ | .dequeueMessageAt _
  | .reject _ | .remove _ _ _ _ _ | .dispatch _ _ _ | .change _ _ => .isTrue trivial

/-- The message refused to an acquiring consumer `k`, and the one offered to it next. -/
def refusal {κ : Type} [Subscriber κ] (s : Station PriorityQueue κ) (k : Nat) : Option (Nat × Option Nat) :=
  (s.consumers[k]?).bind fun c =>
    match c.preAcquires, Queue.getNextMessage (fun _ => false) 10 s.queue c with
    | true, some (.refused a, q, c, _) => some (a, (PriorityQueue.next q.messages c.cursor).1)
    | _, _ => none

theorem refusal_eq_some {κ : Type} [Subscriber κ] {s : Station PriorityQueue κ} {k : Nat} {r : Option Nat}
    (h : refusal s k = some (a, r)) : ∃ c q c' l, s.consumers[k]? = some c ∧ c.preAcquires = true ∧
      Queue.getNextMessage (fun _ => false) 10 s.queue c = some (.refused a, q, c', l) ∧
      (Messages.next q.messages c'.cursor).1 = r := by
  obtain ⟨c, hc, h⟩ := bind_eq_some_iff.1 h
  split at h
  · rename_i a' q c' l hp hg
    obtain ⟨rfl, rfl⟩ : a' = a ∧ _ = r := by simpa using h
    exact ⟨c, q, c', l, hc, hp, hg, rfl⟩
  · simp at h

end PriorityQueue

open PriorityQueue

/-- A message that `getNextMessage` finds and the consumer cannot accept is
what `next` returns for the cursor restored: from every state of a deque and of a map, and in
the states a priority or fairshare queue can reach exactly where `Reoffers`. -/
theorem offered_again {κ : Type} [Subscriber κ] (expired : Message → Bool) (fuel : Nat) :
    (∀ (q q' : Queue MessageDeque) (c c' : Consumer κ) (p : Messages.Ptr MessageDeque) (l : List Nat),
      Queue.getNextMessage expired fuel q c = some (.refused p, q', c', l) →
        (Messages.next q'.messages c'.cursor).1 = some p) ∧
    (∀ (q q' : Queue MessageMap) (c c' : Consumer κ) (p : Messages.Ptr MessageMap) (l : List Nat),
      Queue.getNextMessage expired fuel q c = some (.refused p, q', c', l) →
        (Messages.next q'.messages c'.cursor).1 = some p) ∧
    ∀ (levels : Nat) (q₀ : Queue PriorityQueue) (ops : List (Station.Op κ)) (s : Station PriorityQueue κ)
      (k a : Nat) (c c' : Consumer κ) (q' : Queue PriorityQueue) (l : List Nat), 0 < levels →
      (q₀.messages = .new levels ∨ ∃ limit limits, q₀.messages = .newFairshare levels limit limits) →
      Run Station.step container.InBounds { queue := q₀ } ops s →
      s.consumers[k]? = some c → c.preAcquires = true →
      Queue.getNextMessage expired fuel s.queue c = some (.refused a, q', c', l) →
        ((Messages.next q'.messages c'.cursor).1 = some a ↔ q'.messages.Reoffers c'.cursor a) := by
  refine ⟨fun q q' c c' p l hr => ?_, fun q q' c c' p l hr => ?_, ?_⟩
  · obtain ⟨set, hl, -⟩ := Queue.getNextMessage_eq hr
    obtain ⟨q₁, cursor, -, -, hn⟩ := Container.getNextLoop_refused (C := .trivial _) ⟨⟩ ⟨⟩ hl
    obtain rfl : q₁ = q'.messages := congrArg (·.2.2) hn
    rw [hn]
  · obtain ⟨set, hl, -⟩ := Queue.getNextMessage_eq hr
    obtain ⟨q₁, cursor, -, -, hn⟩ := Container.getNextLoop_refused (C := .trivial _) ⟨⟩ ⟨⟩ hl
    obtain rfl : q₁ = q'.messages := congrArg (·.2.2) hn
    rw [hn]
  intro levels q₀ ops s k a c c' q' l hpos hq₀ hrun hk hp hr
  have h₀ : Ready q₀.messages := by
    rcases hq₀ with h | ⟨limit, limits, h⟩ <;> rw [h]
    · exact ready_new hpos
    · exact ready_newFairshare hpos limit limits
  have hs : container.Holds s := Container.holds_run (s := { queue := q₀ }) ⟨h₀, by simp⟩ hrun
  obtain ⟨set, hl, -⟩ := Queue.getNextMessage_eq hr
  obtain ⟨q₁, cursor, hq₁, hc', hn⟩ :=
    Container.getNextLoop_refused hs.ok (hs.knows c (mem_of_getElem? hk)) hl
  refine hq₁.next_again hc' ?_ hn
  rw [Queue.getNextLoop_type next_type hl]
  simpa [Consumer.preAcquires] using hp

def sized (n : BitVec 32) : Message := { encoding := some { requiredCredit := n } }

/-- A consumer with credit for ten messages and ten bytes. -/
def tenCredit : ConsumerImpl := (({} : ConsumerImpl).addMessageCredit 10).addByteCredit 10

/-- The first message the consumer comes to is too large for it. -/
theorem offered_again_first : ∃ s c q' c' l, Run Station.step container.InBounds { queue := { messages := .new 2 } }
      [.subscribe .consumer tenCredit, .push (sized 100)] s ∧
    s.consumers[0]? = some c ∧
    Queue.getNextMessage (fun _ => false) 10 s.queue c = some (.refused (0 : Nat), q', c', l) ∧
    q'.messages.Reoffers c'.cursor 0 ∧ (Messages.next q'.messages c'.cursor).1 = some (0 : Nat) := by
  exact exists_run (Q := fun s => refusal s 0 = some (0, some 0)) (by decide +kernel) fun s hr hs =>
    have ⟨c, q', c', l, hc, hp, hg, hn⟩ := refusal_eq_some hs
    ⟨c, q', c', l, hr, hc, hg,
      ((offered_again (fun _ => false) 10).2.2 2 _ _ s 0 0 c c' q' l (by decide) (.inl rfl) hr hc hp hg).1 hn, hn⟩

/-- A consumer that has taken a message has a context: the next one, too large
for it now, is passed over. -/
theorem skipped_after_first : ∃ s c q' c' l, Run Station.step container.InBounds { queue := { messages := .new 2 } }
      [.subscribe .consumer tenCredit, .push (sized 1), .push (sized 100), .dispatch 0 (fun _ => false) 10] s ∧
    s.consumers[0]? = some c ∧ c.preAcquires = true ∧
    Queue.getNextMessage (fun _ => false) 10 s.queue c = some (.refused (1 : Nat), q', c', l) ∧
    (Messages.next q'.messages c'.cursor).1 = none := by
  exact exists_run (Q := fun s => refusal s 0 = some (1, none)) (by decide +kernel) fun s hr hs =>
    have ⟨c, q', c', l, hc, hp, hg, hn⟩ := refusal_eq_some hs
    ⟨c, q', c', l, hr, hc, hp, hg, hn⟩

end QB.Impl
