import QpidBroker.Impl.PriorityQueue
import QpidBroker.Proof.MessageDeque
import QpidBroker.Spec.Feed

/-!
# The priority queue keeps its two indexes together

A message that is not deleted is in the deque of its level and in the index,
and the pointers of the index lead to messages that are not deleted (`Wf`).
Each operation keeps that (`Wf.publish`, `Wf.deleted`, `Wf.release`,
`Wf.modify`).
-/

namespace QB.Impl

open Record Serial List Option

namespace Bodies

theorem get_modify (s : Bodies) (a b : Option Nat) (f : Message → Message) : (s.modify a f).get b =
      (s.get b).map fun x => if a = b then { x with message := f x.message } else x := by
  cases a with
  | none => cases b <;> simp [modify, get]
  | some a =>
    cases b with
    | none => simp [get]
    | some b =>
      simp only [modify, get]
      split <;> simp_all

theorem get_append {s : Bodies} {a : Nat} (h : a < s.length) (b : Body) :
    get (s ++ [b]) (some a) = s.get (some a) := by
  simp [get, getElem?_append_left h]

end Bodies

instance : LawfulRecord Bodies MessageHolder where
  getSequence_setState _ _ _ _ := rfl

instance : LawfulRecord Bodies MessagePointer where
  getSequence_setState s p p' st := by
    simp only [getSequence, setState, Bodies.get_modify, Option.map_map]
    congr 2
    funext x
    simp only [Function.comp_apply]
    split <;> rfl

namespace PriorityQueue

open IndexedDeque

/-- The levels and the index are windows, and know the same messages. -/
structure Wf (q : PriorityQueue) : Prop where
  levels_eq : q.messages.length = q.levels
  counters_eq : q.counters.length = q.levels
  fifo_window : Window (q.fifo.seqs q.bodies)
  fifo_head : q.fifo.head = 0
  level_window : ∀ d ∈ q.messages, Window (d.seqs q.bodies) ∧ d.head = 0
  level_nodup : ∀ d ∈ q.messages, (d.messages.filterMap (·.body)).Nodup
  holder : ∀ (p : Nat) (d : IndexedDeque MessageHolder) (h : MessageHolder) (a : Nat),
    q.messages[p]? = some d → h ∈ d.messages → h.body = some a →
    ∃ b : Body, q.bodies[a]? = some b ∧ b.priority = p
  pointer : ∀ ptr ∈ q.fifo.messages, ∀ a : Nat, ptr.holder = some a →
    ∃ b : Body, q.bodies[a]? = some b ∧ b.message.state ≠ .deleted ∧ b.message.sequence = ptr.id
  in_level : ∀ (a : Nat) (b : Body), q.bodies[a]? = some b → b.message.state ≠ .deleted →
    ∃ d : IndexedDeque MessageHolder, q.messages[b.priority]? = some d ∧ ∃ h ∈ d.messages, h.body = some a
  in_fifo : ∀ (a : Nat) (b : Body), q.bodies[a]? = some b → b.message.state ≠ .deleted →
    ∃ ptr ∈ q.fifo.messages, ptr.holder = some a

theorem wf_new (n : Nat) : Wf (new n) where
  levels_eq := by simp [new]
  counters_eq := by simp [new]
  fifo_window := Window.nil
  fifo_head := rfl
  level_window d hd := by
    obtain rfl := (mem_replicate.1 hd).2
    exact ⟨Window.nil, rfl⟩
  level_nodup d hd := by
    obtain rfl := (mem_replicate.1 hd).2
    simp
  holder p d h a hd hh _ := by
    obtain rfl := (mem_replicate.1 (mem_of_getElem? hd)).2
    simp at hh
  pointer ptr hp := by simp [new] at hp
  in_level a b hb := by simp [new] at hb
  in_fifo a b hb := by simp [new] at hb

variable {q : PriorityQueue}

variable {ptr : MessagePointer} {a : Nat} {s : Bodies} {b : Body} {f : Message → Message}
  {d : IndexedDeque MessageHolder}

/-- A pointer of the index has the number of its message. -/
theorem Wf.getSequence_pointer (h : Wf q) (hp : ptr ∈ q.fifo.messages) : getSequence q.bodies ptr = ptr.id := by
  simp only [getSequence]
  cases ha : ptr.holder with
  | none => rfl
  | some a =>
    obtain ⟨b, hb, -, hs⟩ := h.pointer ptr hp a ha
    simp [Bodies.get, hb, hs]

theorem Wf.seqs_fifo (h : Wf q) : q.fifo.seqs q.bodies = q.fifo.messages.map (·.id) :=
  map_congr_left fun _ hp => h.getSequence_pointer hp

theorem Wf.pointer_inj (h : Wf q) {i j : Nat} {x y : MessagePointer}
    (hx : q.fifo.messages[i]? = some x) (hy : q.fifo.messages[j]? = some y) (hxa : x.holder = some a)
    (hya : y.holder = some a) : i = j := by
  obtain ⟨b, hb, -, hbx⟩ := h.pointer x (mem_of_getElem? hx) a hxa
  obtain ⟨b', hb', -, hby⟩ := h.pointer y (mem_of_getElem? hy) a hya
  cases hb.symm.trans hb'
  refine h.fifo_window.getElem?_inj (p := b.message.sequence) ?_ ?_
  · rw [h.seqs_fifo, getElem?_map, hx, hbx]; rfl
  · rw [h.seqs_fifo, getElem?_map, hy, hby]; rfl

theorem getState_pointer (ha : ptr.holder = some a) (hb : s[a]? = some b) : getState s ptr = b.message.state := by
  simp [getState, Bodies.getState, Bodies.get, ha, hb]

theorem getState_holder {x : MessageHolder} (ha : x.body = some a)
    (hb : s[a]? = some b) : getState s x = b.message.state := by
  simp [getState, Bodies.getState, Bodies.get, ha, hb]

/-- What is not deleted has a message, at a level of the queue. -/
theorem Wf.exists_body (h : Wf q) (hp : ptr ∈ q.fifo.messages)
    (hs : getState q.bodies ptr ≠ .deleted) : ∃ a b, ptr.holder = some a ∧ q.bodies[a]? = some b ∧
      b.message.sequence = ptr.id ∧ getState q.bodies ptr = b.message.state := by
  cases ha : ptr.holder with
  | none => simp [getState, Bodies.getState, Bodies.get, ha] at hs
  | some a =>
    obtain ⟨b, hb, -, hq⟩ := h.pointer ptr hp a ha
    exact ⟨a, b, rfl, hb, hq, getState_pointer ha hb⟩

/-! ## What is done to the messages -/

/-- Bodies whose messages have the same levels and numbers, and are deleted or
not alike. -/
def SameShape (s s' : Bodies) : Prop :=
  s'.length = s.length ∧ ∀ (a : Nat) (b' : Body), s'[a]? = some b' → ∃ b : Body, s[a]? = some b ∧
    b'.priority = b.priority ∧ b'.message.sequence = b.message.sequence ∧
    (b'.message.state = .deleted ↔ b.message.state = .deleted)

theorem SameShape.get {s' : Bodies} (hs : SameShape s s') (hb : s[a]? = some b) :
    ∃ b' : Body, s'[a]? = some b' ∧ b'.priority = b.priority ∧ b'.message.sequence = b.message.sequence ∧
      (b'.message.state = .deleted ↔ b.message.state = .deleted) := by
  have hlt : a < s'.length := hs.1 ▸ (List.getElem?_eq_some_iff.1 hb).1
  obtain ⟨b0, hb0, h1⟩ := hs.2 a _ (getElem?_eq_getElem hlt)
  cases hb.symm.trans hb0
  exact ⟨_, getElem?_eq_getElem hlt, h1⟩

theorem SameShape.modify (s : Bodies) (a : Nat) (hf : ∀ b ∈ s[a]?, (f b.message).sequence = b.message.sequence ∧
      ((f b.message).state = .deleted ↔ b.message.state = .deleted)) :
    SameShape s (s.modify (some a) f) := by
  refine ⟨by simp [Bodies.modify], fun c b' hb' => ?_⟩
  obtain ⟨b, hb, rfl⟩ := getElem?_modify_iff.1 hb'
  refine ⟨b, hb, ?_⟩
  split
  · rename_i hac
    subst hac
    exact ⟨rfl, hf b hb⟩
  · exact ⟨rfl, rfl, Iff.rfl⟩

/-- A change of states that deletes nothing and revives nothing. -/
theorem Wf.bodies (h : Wf q) {s' : Bodies} (hs : SameShape q.bodies s') : Wf { q with bodies := s' } where
  levels_eq := h.levels_eq
  counters_eq := h.counters_eq
  fifo_window := by
    have : q.fifo.seqs s' = q.fifo.seqs q.bodies := by
      refine map_congr_left fun ptr hp => ?_
      simp only [getSequence]
      cases ha : ptr.holder with
      | none => rfl
      | some a =>
        obtain ⟨b, hb, -⟩ := h.pointer ptr hp a ha
        obtain ⟨b', hb', -, hq, -⟩ := hs.get hb
        simp [Bodies.get, hb, hb', hq]
    rw [this]; exact h.fifo_window
  fifo_head := h.fifo_head
  level_window := h.level_window
  level_nodup := h.level_nodup
  holder p d x a hd hx ha := by
    obtain ⟨b, hb, hp⟩ := h.holder p d x a hd hx ha
    obtain ⟨b', hb', hp', -⟩ := hs.get hb
    exact ⟨b', hb', hp'.trans hp⟩
  pointer ptr hp a ha := by
    obtain ⟨b, hb, hst, hq⟩ := h.pointer ptr hp a ha
    obtain ⟨b', hb', -, hq', hst'⟩ := hs.get hb
    exact ⟨b', hb', fun e => hst (hst'.1 e), hq'.trans hq⟩
  in_level a b' hb' hst := by
    obtain ⟨b, hb, hp, -, hst'⟩ := hs.2 a b' hb'
    rw [hp]
    exact h.in_level a b hb fun e => hst (hst'.2 e)
  in_fifo a b' hb' hst := by
    obtain ⟨b, hb, -, -, hst'⟩ := hs.2 a b' hb'
    exact h.in_fifo a b hb fun e => hst (hst'.2 e)

theorem Wf.contexts (h : Wf q) (xs : List (List QueueCursor)) (fs : Option Fairshare) :
    Wf { q with contexts := xs, fairshare := fs } :=
  ⟨h.levels_eq, h.counters_eq, h.fifo_window, h.fifo_head, h.level_window, h.level_nodup, h.holder, h.pointer,
    h.in_level, h.in_fifo⟩

theorem Wf.resetCursors (h : Wf q) (p : Nat) (v : BitVec 32) :
    Wf { q with messages := q.messages.modify p (·.resetCursors), fifo := { q.fifo with version := v } } where
  levels_eq := by simpa using h.levels_eq
  counters_eq := h.counters_eq
  fifo_window := h.fifo_window
  fifo_head := h.fifo_head
  level_window d hd := by
    obtain ⟨d0, hd0, rfl | rfl⟩ := exists_of_mem_modify hd
    · exact h.level_window d0 hd0
    · exact h.level_window d0 hd0
  level_nodup d hd := by
    obtain ⟨d0, hd0, rfl | rfl⟩ := exists_of_mem_modify hd
    · exact h.level_nodup d0 hd0
    · exact h.level_nodup d0 hd0
  holder i d x a hd hx ha := by
    obtain ⟨d0, hd0, rfl⟩ := getElem?_modify_iff.1 hd
    refine h.holder i d0 x a hd0 ?_ ha
    split at hx
    · exact hx
    · exact hx
  pointer := h.pointer
  in_level a b hb hst := by
    obtain ⟨d, hd, x, hx, ha⟩ := h.in_level a b hb hst
    refine ⟨if p = b.priority then d.resetCursors else d, ?_, x, ?_, ha⟩
    · simp [getElem?_modify, hd]
    · split
      · exact hx
      · exact hx
  in_fifo := h.in_fifo

/-! ## Finding, releasing, deleting -/

/-- A message found is changed for the index and for its level. -/
theorem Wf.modify_found (h : Wf q) (hq : ∀ m, (f m).sequence = m.sequence)
    (hf : ∀ m, (f m).state = .deleted ↔ m.state = .deleted) :
    Wf { q with bodies := q.bodies.modify (some a) f } :=
  h.bodies (SameShape.modify _ _ fun b _ => ⟨hq b.message, hf b.message⟩)

/-- `release`: of a message in the index, of one deleted but still in the
index, where it follows a null pointer, or of no message. -/
theorem Wf.release_cases (h : Wf q) (c : QueueCursor) :
    (c.valid = true ∧ ∃ a b, q.bodies[a]? = some b ∧ b.message.sequence = c.position ∧
      b.message.state ≠ .deleted ∧
      q.release c = some (some a, { q with
          bodies := q.bodies.modify (some a) (·.setState .available)
          fifo := { q.fifo with version := q.fifo.version + 1 }
          messages := q.messages.modify b.priority (·.resetCursors) })) ∨
    (c.valid = true ∧ (∃ ptr ∈ q.fifo.messages, ptr.holder = none ∧ ptr.id = c.position) ∧
      q.release c = none) ∨
    ((c.valid = true → c.position ∉ q.fifo.seqs q.bodies) ∧ q.release c = some (none, q)) := by
  by_cases hp : c.valid = true ∧ c.position ∈ q.fifo.seqs q.bodies
  · obtain ⟨hv, hp⟩ := hp
    obtain ⟨i, ptr, hi, hptr, hpos⟩ := exists_index h.fifo_window hp 0
    have hm := mem_of_getElem? hptr
    have hlt := (List.getElem?_eq_some_iff.1 hptr).1
    rw [h.getSequence_pointer hm] at hpos
    have hset : q.fifo.messages.set i ptr = q.fifo.messages := by
      refine ext_getElem? fun j => ?_
      rw [getElem?_set]
      by_cases hij : i = j
      · subst hij; rw [if_pos rfl, if_pos hlt, hptr]
      · rw [if_neg hij]
    have hr := release_eq hv hi hptr
    simp only [setState, hset] at hr
    cases ha : ptr.holder with
    | none =>
      refine .inr (.inl ⟨hv, ⟨ptr, hm, ha, hpos⟩, ?_⟩)
      simp [release, hr, hptr, ha]
    | some a =>
      obtain ⟨b, hb, hst, hq⟩ := h.pointer ptr hm a ha
      refine .inl ⟨hv, a, b, hb, hq.trans hpos, hst, ?_⟩
      simp [release, hr, hptr, ha, Bodies.get, Bodies.modify, hb]
  refine .inr (.inr ⟨fun hv hm => hp ⟨hv, hm⟩, ?_⟩)
  rw [release, release_eq_none]
  rcases not_and_or.1 hp with hv | hm
  · exact .inl (by simpa using hv)
  · exact .inr (index_eq_false h.fifo_window hm 0)

/-- A release changes the versions, and one state. -/
theorem Wf.release (h : Wf q) {c : QueueCursor} {r : Option Nat} {q' : PriorityQueue}
    (hr : q.release c = some (r, q')) : Wf q' := by
  rcases h.release_cases c with ⟨-, a, b, hb, -, hst, e⟩ | ⟨-, -, e⟩ | ⟨-, e⟩
  · rw [e] at hr
    obtain ⟨-, rfl⟩ : some a = r ∧ _ = q' := by simpa using hr
    refine Wf.resetCursors (h.bodies (SameShape.modify _ a (f := (Message.setState · .available)) ?_)) _ _
    intro b' hb'
    cases hb.symm.trans hb'
    exact ⟨rfl, by simp [hst]⟩
  · simp [e] at hr
  · rw [e] at hr
    obtain ⟨-, rfl⟩ : none = r ∧ q = q' := by simpa using hr
    exact h

theorem nodup_clean (s : Bodies)
    (h : (d.messages.filterMap (·.body)).Nodup) : ((d.clean s).messages.filterMap (·.body)).Nodup := by
  obtain ⟨n, -, he, -⟩ := clean_eq s d
  rw [he]
  exact h.sublist ((drop_sublist n d.messages).filterMap _)

/-- The queue without the message at `a`, of level `p`, that pointer `i` of the index leads to. -/
def dropped (q : PriorityQueue) (i a p : Nat) : PriorityQueue :=
  let bodies := q.bodies.modify (some a) (·.setState .deleted)
  { q with
    bodies := bodies
    messages := q.messages.modify p (·.clean bodies)
    fifo := { q.fifo with messages := q.fifo.messages.modify i ({ · with holder := none }) }.clean bodies }

/-- `deleted` finds a message in the index and at its level, or does nothing. -/
theorem Wf.deleted_cases (h : Wf q) (c : QueueCursor) :
    (c.valid = true ∧ ∃ i ptr a b, q.fifo.messages[i]? = some ptr ∧ ptr.holder = some a ∧
      q.bodies[a]? = some b ∧ b.message.sequence = c.position ∧
      q.deleted c = (true, q.dropped i a b.priority)) ∨
    q.deleted c = (false, q) := by
  unfold deleted
  cases hf : q.fifo.findAt q.bodies c with
  | none => exact .inr rfl
  | some i =>
    have hv : c.valid = true := by
      by_contra hv
      simp [IndexedDeque.findAt, hv] at hf
    rw [IndexedDeque.findAt, if_pos hv] at hf
    obtain ⟨ptr, hptr, hp, hs⟩ := (find_eq_some_iff h.fifo_window).1 hf
    have hm := mem_of_getElem? hptr
    obtain ⟨a, b, ha, hb, hq, -⟩ := h.exists_body hm (by rcases hs with e | e <;> simp [e])
    refine .inl ⟨hv, i, ptr, a, b, hptr, ha, hb, ?_, ?_⟩
    · rw [hq, ← h.getSequence_pointer hm, hp]
    · simp [hptr, ha, cleanLevel, dropped, Bodies.get, Bodies.modify, hb]

theorem getElem?_setState_deleted {c : Nat} (hb : (s.modify (some a) (·.setState .deleted))[c]? = some b) :
    (c = a ∧ b.message.state = .deleted) ∨ (c ≠ a ∧ s[c]? = some b) := by
  obtain ⟨b0, hb0, rfl⟩ := getElem?_modify_iff.1 hb
  by_cases hac : a = c
  · subst hac; simp
  · simp [hac, Ne.symm hac, hb0]

/-- A message that is dropped is deleted at both places. -/
theorem Wf.dropped (h : Wf q) {i : Nat}
    (hptr : q.fifo.messages[i]? = some ptr) (ha : ptr.holder = some a) (hb : q.bodies[a]? = some b) :
    Wf (q.dropped i a b.priority) := by
  set s' := q.bodies.modify (some a) (·.setState .deleted) with hs'
  have hget : ∀ {c : Nat} {x : Body}, c ≠ a → (s'[c]? = some x ↔ q.bodies[c]? = some x) := by
    intro c x hc
    simp [hs', Bodies.modify, Ne.symm hc]
  -- the pointers left lead to other messages
  have hother : ∀ x ∈ q.fifo.messages.modify i ({ · with holder := none }), ∀ c, x.holder = some c →
      x ∈ q.fifo.messages ∧ c ≠ a := by
    intro x hx c hc
    obtain ⟨j, hj⟩ := mem_iff_getElem?.1 hx
    obtain ⟨y, hy, rfl⟩ := getElem?_modify_iff.1 hj
    by_cases hij : i = j
    · subst hij; simp at hc
    simp only [if_neg hij] at hc ⊢
    refine ⟨mem_of_getElem? hy, ?_⟩
    rintro rfl
    exact hij (h.pointer_inj hptr hy ha hc)
  have hseq : ∀ x ∈ q.fifo.messages.modify i ({ · with holder := none }), getSequence s' x = x.id := by
    intro x hx
    simp only [getSequence]
    cases hc : x.holder with
    | none => rfl
    | some c =>
      obtain ⟨hxm, hca⟩ := hother x hx c hc
      obtain ⟨b', hb', -, hq⟩ := h.pointer x hxm c hc
      simp [Bodies.get, (hget hca).2 hb', hq]
  refine ⟨?_, h.counters_eq, ?_, clean_head h.fifo_head, ?_, ?_, ?_, ?_, ?_, ?_⟩
  · simpa [PriorityQueue.dropped] using h.levels_eq
  · refine clean_window ?_
    change Window ((q.fifo.messages.modify i ({ · with holder := none })).map (getSequence s'))
    rw [map_congr_left hseq]
    have : (q.fifo.messages.modify i ({ · with holder := none })).map (·.id) = q.fifo.messages.map (·.id) := by
      refine ext_getElem? fun j => ?_
      simp only [getElem?_map, getElem?_modify, Option.map_eq_map, Option.map_map]
      congr 1
      funext x
      by_cases hij : i = j <;> simp [hij]
    rw [this, ← h.seqs_fifo]
    exact h.fifo_window
  · intro d hd
    obtain ⟨d0, hd0, hd⟩ := exists_of_mem_modify hd
    obtain ⟨hw, hh⟩ := h.level_window d0 hd0
    rcases hd with rfl | rfl
    · exact ⟨clean_window hw, clean_head hh⟩
    · exact ⟨hw, hh⟩
  · intro d hd
    obtain ⟨d0, hd0, rfl | rfl⟩ := exists_of_mem_modify hd
    · exact nodup_clean s' (h.level_nodup d0 hd0)
    · exact h.level_nodup d0 hd0
  · intro p d x c hd hx hc
    obtain ⟨d0, hd0, rfl⟩ := getElem?_modify_iff.1 hd
    obtain ⟨b', hb', hp⟩ := h.holder p d0 x c hd0 (by
      split at hx
      · exact mem_of_mem_clean hx
      · exact hx) hc
    by_cases hca : c = a
    · subst hca
      refine ⟨{ b' with message := b'.message.setState .deleted }, ?_, hp⟩
      simp [PriorityQueue.dropped, Bodies.modify, hb']
    · exact ⟨b', (hget hca).2 hb', hp⟩
  · intro x hx c hc
    obtain ⟨hxm, hca⟩ := hother x (mem_of_mem_clean hx) c hc
    obtain ⟨b', hb', hst, hq⟩ := h.pointer x hxm c hc
    exact ⟨b', (hget hca).2 hb', hst, hq⟩
  · intro c b' (hb' : s'[c]? = some b') hst
    rcases getElem?_setState_deleted hb' with ⟨-, e⟩ | ⟨hca, hb''⟩
    · exact absurd e hst
    obtain ⟨d, hd, x, hx, hxc⟩ := h.in_level c b' hb'' hst
    refine ⟨if b.priority = b'.priority then d.clean s' else d, ?_, x, ?_, hxc⟩
    · simp [PriorityQueue.dropped, getElem?_modify, hd]
      split <;> rfl
    split
    · refine mem_clean hx ?_
      rwa [getState_holder hxc hb']
    · exact hx
  intro c b' (hb' : s'[c]? = some b') hst
  rcases getElem?_setState_deleted hb' with ⟨-, e⟩ | ⟨hca, hb''⟩
  · exact absurd e hst
  obtain ⟨x, hx, hxc⟩ := h.in_fifo c b' hb'' hst
  obtain ⟨j, hj⟩ := mem_iff_getElem?.1 hx
  have hij : i ≠ j := by
    rintro rfl
    cases hptr.symm.trans hj
    exact hca (by simpa [hxc] using ha)
  refine ⟨x, mem_clean (mem_of_getElem? (i := j) ?_) ?_, hxc⟩
  · simp [hij, hj]
  · rwa [getState_pointer hxc hb']

theorem Wf.deleted (h : Wf q) (c : QueueCursor) : Wf (q.deleted c).2 := by
  rcases h.deleted_cases c with ⟨-, i, ptr, a, b, hptr, ha, hb, -, e⟩ | e
  · rw [e]; exact h.dropped hptr ha hb
  · rw [e]; exact h

/-! ## The next message -/

theorem nextLevel_frame (q : PriorityQueue) (p : Priority) :
    ∃ fs, (q.nextLevel p).2 = { q with fairshare := fs } := by
  unfold nextLevel
  split
  · exact ⟨q.fairshare, rfl⟩
  · exact ⟨_, rfl⟩

theorem firstLevel_frame (q : PriorityQueue) : ∃ fs, q.firstLevel.2 = { q with fairshare := fs } := by
  unfold firstLevel
  split
  · exact ⟨q.fairshare, rfl⟩
  · exact ⟨_, rfl⟩

theorem nextLoop_frame (fuel : Nat) (q : PriorityQueue) (p : Priority) (ctxt : List QueueCursor) :
    ∃ fs, (nextLoop fuel q p ctxt).2.2 = { q with fairshare := fs } := by
  induction fuel generalizing q p ctxt with
  | zero =>
    rw [nextLoop]
    split
    · exact ⟨q.fairshare, rfl⟩
    · obtain ⟨fs, h⟩ := nextLevel_frame q p
      exact ⟨fs, h⟩
  | succ fuel ih =>
    rw [nextLoop]
    split
    · exact ⟨q.fairshare, rfl⟩
    obtain ⟨fs, h⟩ := nextLevel_frame q p
    rcases hn : q.nextLevel p with ⟨_ | p', q'⟩
    · rw [hn] at h
      exact ⟨fs, h⟩
    rw [hn] at h
    subst h
    rename_i c _
    obtain ⟨fs', h'⟩ := ih { q with fairshare := fs } p' c
    exact ⟨fs', h'⟩

theorem search_frame (q : PriorityQueue) (type : SubscriptionType) (ctxt : List QueueCursor) :
    ∃ fs, (q.search type ctxt).2.2 = { q with fairshare := fs } := by
  unfold search
  split
  · exact ⟨q.fairshare, rfl⟩
  · obtain ⟨fs1, h1⟩ := firstLevel_frame q
    obtain ⟨fs2, h2⟩ := nextLoop_frame q.firstLevel.2.levels q.firstLevel.2 q.firstLevel.1 ctxt
    exact ⟨fs2, by rw [h2, h1]⟩

theorem context_frame (q : PriorityQueue) (c : QueueCursor) :
    ∃ xs, (q.context c).2.2 = { q with contexts := xs } := by
  unfold context
  split
  · exact ⟨q.contexts, rfl⟩
  · exact ⟨_, rfl⟩

/-- `next` changes contexts and the counts of a fairshare queue, no messages. -/
theorem next_frame (q : PriorityQueue) (c : QueueCursor) :
    ∃ xs fs, (q.next c).2.2 = { q with contexts := xs, fairshare := fs } := by
  obtain ⟨xs, hxs⟩ := context_frame q c
  rcases hx : q.context c with ⟨x, c1, q1⟩
  obtain rfl : q1 = { q with contexts := xs } := by rw [hx] at hxs; exact hxs
  unfold next
  simp only [hx]
  split
  · exact ⟨xs, q.fairshare, rfl⟩
  obtain ⟨fs, hs⟩ := search_frame { q with contexts := xs } c1.type ((xs[x]?).getD [])
  rcases hr : search { q with contexts := xs } c1.type ((xs[x]?).getD []) with ⟨_ | y, ctxt, q2⟩
  all_goals
    obtain rfl : q2 = { q with contexts := xs, fairshare := fs } := by rw [hr] at hs; exact hs
    exact ⟨_, fs, rfl⟩

/-! ## Publishing -/

theorem mem_fifo_of_mem_indexed {x : MessagePointer} {p : SequenceNumber} (hx : x ∈ q.indexed p) :
    x ∈ q.fifo.messages :=
  mem_of_mem_clean ((prefix_popTail _ _ _).subset hx)

theorem mem_indexed {x : MessagePointer} (p : SequenceNumber) (hx : x ∈ q.fifo.messages)
    (hst : getState q.bodies x ≠ .deleted) : x ∈ q.indexed p :=
  mem_popTail (mem_clean hx hst) hst

/-- Every message has a level. -/
theorem getPriorityLevel_lt (h : 0 < q.levels) (m : Message) : q.getPriorityLevel m < q.levels := by
  unfold getPriorityLevel
  simp only
  split <;> omega

theorem modify_append (s : Bodies) (b : Body) (f : Message → Message) :
    Bodies.modify (s ++ [b]) (some s.length) f = s ++ [{ b with message := f b.message }] := by
  simp only [Bodies.modify]
  induction s with
  | nil => rfl
  | cons x s ih => simpa using ih

/-- Another message does not change the states of those held. -/
theorem Wf.getState_append_holder (h : Wf q) {p : Nat} (hd : q.messages[p]? = some d) (b : Body) :
    ∀ x ∈ d.messages, getState q.bodies x = getState (q.bodies ++ [b] : Bodies) x := by
  intro x hx
  simp only [getState, Bodies.getState]
  cases ha : x.body with
  | none => rfl
  | some a =>
    obtain ⟨b', hb', -⟩ := h.holder p d x a hd hx ha
    rw [Bodies.get_append (List.getElem?_eq_some_iff.1 hb').1]

theorem Wf.get_append_pointer (h : Wf q) (b : Body) :
    ∀ x ∈ q.fifo.messages, Bodies.get q.bodies x.holder = Bodies.get (q.bodies ++ [b]) x.holder := by
  intro x hx
  cases ha : x.holder with
  | none => rfl
  | some a =>
    obtain ⟨b', hb', -⟩ := h.pointer x hx a ha
    rw [Bodies.get_append (List.getElem?_eq_some_iff.1 hb').1]

/-- `publish` adds the message to its level and to the index. -/
theorem Wf.publish_eq (h : Wf q) (hl : 0 < q.levels) {m : Message} (hf : Fits q m) :
    ∃ d id lg fg, q.messages[q.getPriorityLevel m]? = some d ∧ q.counters[q.getPriorityLevel m]? = some id ∧
      (∀ x ∈ lg, x.body = none) ∧ (∀ x ∈ fg, x.holder = none) ∧
      Window (((d.clean q.bodies).messages ++ lg).map (·.id) ++ [id + 1]) ∧
      Window ((q.indexed m.sequence ++ fg).map (·.id) ++ [m.sequence]) ∧
      ((d.clean q.bodies).messages = [] → lg = []) ∧
      q.publish m = (.ok (), { q with
          counters := q.counters.modify (q.getPriorityLevel m) (· + 1)
          bodies := q.bodies ++ [⟨m.setState .available, q.getPriorityLevel m⟩]
          messages := q.messages.set (q.getPriorityLevel m)
            ⟨(d.clean q.bodies).messages ++ lg ++ [⟨some q.bodies.length, id + 1⟩], 0, d.version⟩
          fifo := ⟨q.indexed m.sequence ++ fg ++ [⟨some q.bodies.length, m.sequence⟩], 0,
            q.fifo.version⟩ }) := by
  have hlt := getPriorityLevel_lt hl m
  obtain ⟨hff, hfl⟩ := hf
  set level := q.getPriorityLevel m with hlevel
  obtain ⟨d, hd⟩ : ∃ d, q.messages[level]? = some d :=
    ⟨_, getElem?_eq_getElem (by rw [h.levels_eq]; exact hlt)⟩
  obtain ⟨id, hid⟩ : ∃ id, q.counters[level]? = some id :=
    ⟨_, getElem?_eq_getElem (by rw [h.counters_eq]; exact hlt)⟩
  obtain ⟨hw, hh⟩ := h.level_window d (mem_of_getElem? hd)
  have hfl : ∀ x ∈ (d.clean q.bodies).messages, Ahead x.id (id + 1) := by
    simpa only [nextId, hid, getD_some] using hfl d hd
  -- the level, with the body allocated
  let s1 : Bodies := q.bodies ++ [⟨m, level⟩]
  let s2 : Bodies := q.bodies ++ [⟨m.setState .available, level⟩]
  have hc1 : d.clean q.bodies = d.clean s1 := clean_congr (h.getState_append_holder hd _)
  have hp1 := publish_ahead ⟨some q.bodies.length, id + 1⟩ hh (by rw [← hc1]; exact hfl)
  have hg1 := gap_window (clean_window (s := s1) hw) (by rw [← hc1]; exact hfl)
  have hs2 : (setState s1 (⟨some q.bodies.length, id + 1⟩ : MessageHolder) .available).1 = s2 :=
    modify_append q.bodies ⟨m, level⟩ (·.setState .available)
  rw [← hc1] at hp1 hg1
  -- the index, with the message available
  have hget := h.get_append_pointer ⟨m.setState .available, level⟩
  have hstate : ∀ x ∈ q.fifo.messages, getState q.bodies x = getState s2 x := fun x hx => by
    simp [getState, Bodies.getState, hget x hx, s2]
  have hseq : ∀ x ∈ q.fifo.messages, getSequence s2 x = x.id := fun x hx => by
    rw [← h.getSequence_pointer hx]
    simp [getSequence, hget x hx, s2]
  have hnew : getSequence s2 (⟨some q.bodies.length, m.sequence⟩ : MessagePointer) = m.sequence := by
    simp [getSequence, Bodies.get, s2]
  have hc2 : popTail s2 m.sequence (q.fifo.clean s2).messages = q.indexed m.sequence := by
    rw [indexed, ← clean_congr hstate]
    exact popTail_congr _ (fun x hx => (hseq x (mem_of_mem_clean hx)).trans
      (h.getSequence_pointer (mem_of_mem_clean hx)).symm) fun x hx => (hstate x (mem_of_mem_clean hx)).symm
  have hff : ∀ x ∈ q.indexed m.sequence, Ahead (getSequence s2 x) m.sequence := fun x hx => by
    rw [hseq x (mem_fifo_of_mem_indexed hx), ← h.getSequence_pointer (mem_fifo_of_mem_indexed hx)]
    exact hff x hx
  have hp2 := publish_popped ⟨some q.bodies.length, m.sequence⟩ h.fifo_head (by rw [hnew, hc2])
    (by rw [hnew]; exact hff)
  have hw2 : Window ((q.indexed m.sequence).map (getSequence s2)) := by
    have : Window ((q.indexed m.sequence).map (getSequence q.bodies)) :=
      popTail_window (clean_window h.fifo_window) m.sequence
    rwa [map_congr_left fun x hx => (h.getSequence_pointer (mem_fifo_of_mem_indexed hx)).trans
      (hseq x (mem_fifo_of_mem_indexed hx)).symm] at this
  have hg2 := gap_window hw2 hff
  have hs3 : (setState s2 (⟨some q.bodies.length, m.sequence⟩ : MessagePointer) .available).1 = s2 :=
    modify_append q.bodies ⟨m.setState .available, level⟩ (·.setState .available)
  rw [hnew] at hp2
  refine ⟨d, id, gap s1 (id + 1) (d.clean q.bodies).messages,
    gap s2 m.sequence (q.indexed m.sequence), hd, hid, ?_, ?_, ?_, ?_, ?_, ?_⟩
  · intro x hx
    obtain ⟨p, rfl⟩ := gap_padding s1 _ _ x hx
    rfl
  · intro x hx
    obtain ⟨p, rfl⟩ := gap_padding s2 _ _ x hx
    rfl
  · exact hg1
  · have : (q.indexed m.sequence ++ gap s2 m.sequence (q.indexed m.sequence)).map (getSequence s2) =
        (q.indexed m.sequence ++ gap s2 m.sequence (q.indexed m.sequence)).map (·.id) := by
      refine map_congr_left fun x hx => ?_
      rcases mem_append.1 hx with hx | hx
      · exact hseq x (mem_fifo_of_mem_indexed hx)
      · obtain ⟨p, rfl⟩ := gap_padding s2 _ _ x hx
        rfl
    rwa [this] at hg2
  · intro hnil
    simp [hnil, gap]
  unfold PriorityQueue.publish
  simp only [← hlevel, hd, getElem?_modify, if_true, hid, Option.map_eq_map, map_some]
  rw [hp1]
  simp only [hs2]
  rw [hp2]
  simp only [hs3]
  rfl

theorem getElem?_append_body {b' : Body} (h : (s ++ [b])[a]? = some b') :
    s[a]? = some b' ∨ (a = s.length ∧ b' = b) := by
  rw [getElem?_append] at h
  split at h
  · exact .inl h
  have h0 := (List.getElem?_eq_some_iff.1 h).1
  simp only [length_singleton] at h0
  obtain rfl : a = s.length := by omega
  exact .inr ⟨rfl, by simpa using h.symm⟩

/-- A message published is at the end of the index and of its level. -/
theorem Wf.publish (h : Wf q) (hl : 0 < q.levels) {m : Message} (hf : Fits q m) : Wf (q.publish m).2 := by
  obtain ⟨d, id, lg, fg, hd, hid, hlg, hfg, hwl, hwf, -, e⟩ := h.publish_eq hl hf
  have hlt : q.getPriorityLevel m < q.messages.length := (List.getElem?_eq_some_iff.1 hd).1
  have hold : ∀ {a : Nat} {b : Body} (n : Body), q.bodies[a]? = some b → (q.bodies ++ [n])[a]? = some b :=
    fun n hb => by rw [getElem?_append_left (List.getElem?_eq_some_iff.1 hb).1, hb]
  rw [e]
  refine ⟨by simpa using h.levels_eq, by simpa using h.counters_eq, ?_, rfl, ?_, ?_, ?_, ?_, ?_, ?_⟩
  · -- the numbers of the index are those its records hold
    have hseq : ∀ x ∈ q.indexed m.sequence ++ fg ++ [⟨some q.bodies.length, m.sequence⟩],
        getSequence (q.bodies ++ [⟨m.setState .available, q.getPriorityLevel m⟩] : Bodies) x = x.id := by
      intro x hx
      simp only [mem_append, mem_singleton] at hx
      rcases hx with (hx | hx) | rfl
      · have hx := mem_fifo_of_mem_indexed hx
        rw [← h.getSequence_pointer hx]
        simp [getSequence, ← h.get_append_pointer _ x hx]
      · simp [getSequence, Bodies.get, hfg x hx]
      · simp [getSequence, Bodies.get]
    simp only [seqs]
    rw [map_congr_left hseq, map_append]
    exact hwf
  · intro d' hd'
    rcases mem_or_eq_of_mem_set hd' with hd' | rfl
    · exact h.level_window d' hd'
    refine ⟨?_, rfl⟩
    simp only [seqs]
    rw [map_append]
    exact hwl
  · intro d' hd'
    rcases mem_or_eq_of_mem_set hd' with hd' | rfl
    · exact h.level_nodup d' hd'
    have hlg' : lg.filterMap (·.body) = [] := filterMap_eq_nil_iff.2 hlg
    simp only [filterMap_append, hlg', append_nil]
    refine nodup_append.2 ⟨nodup_clean _ (h.level_nodup d (mem_of_getElem? hd)), by simp, ?_⟩
    -- the new address is none of those in use
    intro a ha b hb
    obtain rfl := mem_singleton.1 hb
    obtain ⟨x, hx, hxa⟩ := mem_filterMap.1 ha
    obtain ⟨b, hb, -⟩ := h.holder _ d x a hd (mem_of_mem_clean hx) hxa
    have := (List.getElem?_eq_some_iff.1 hb).1
    omega
  · intro p d' x a hd' hx ha
    rcases getElem?_set_cases hd' with ⟨rfl, rfl⟩ | ⟨-, hd'⟩
    swap
    · obtain ⟨b, hb, hbp⟩ := h.holder p d' x a hd' hx ha
      exact ⟨b, hold _ hb, hbp⟩
    simp only [mem_append, mem_singleton] at hx
    rcases hx with (hx | hx) | rfl
    · obtain ⟨b, hb, hbp⟩ := h.holder _ d x a hd (mem_of_mem_clean hx) ha
      exact ⟨b, hold _ hb, hbp⟩
    · simp [hlg x hx] at ha
    · obtain rfl : q.bodies.length = a := by simpa using ha
      exact ⟨_, getElem?_concat_length, rfl⟩
  · intro ptr hp a ha
    simp only [mem_append, mem_singleton] at hp
    rcases hp with (hp | hp) | rfl
    · obtain ⟨b, hb, hr⟩ := h.pointer ptr (mem_fifo_of_mem_indexed hp) a ha
      exact ⟨b, hold _ hb, hr⟩
    · simp [hfg ptr hp] at ha
    · obtain rfl : q.bodies.length = a := by simpa using ha
      exact ⟨_, getElem?_concat_length, by simp, rfl⟩
  · intro a b hb hst
    rcases getElem?_append_body hb with hb | ⟨rfl, rfl⟩
    swap
    · exact ⟨_, by simp only [getElem?_set, if_true]; rw [if_pos hlt],
        ⟨some q.bodies.length, id + 1⟩, by simp, rfl⟩
    obtain ⟨d', hd', x, hx, hxa⟩ := h.in_level a b hb hst
    by_cases hp : q.getPriorityLevel m = b.priority
    · refine ⟨_, by simp only [getElem?_set, hp, if_true]; rw [if_pos (hp ▸ hlt)], x, ?_, hxa⟩
      obtain rfl : d = d' := by simpa [hp ▸ hd] using hd'
      simp only [mem_append]
      refine .inl (.inl (mem_clean hx ?_))
      rwa [getState_holder hxa hb]
    · exact ⟨d', by simpa only [getElem?_set, hp, if_false] using hd', x, hx, hxa⟩
  intro a b hb hst
  rcases getElem?_append_body hb with hb | ⟨rfl, rfl⟩
  · obtain ⟨x, hx, hxa⟩ := h.in_fifo a b hb hst
    refine ⟨x, ?_, hxa⟩
    simp only [mem_append]
    refine .inl (.inl (mem_indexed _ hx ?_))
    rwa [getState_pointer hxa hb]
  · exact ⟨⟨some q.bodies.length, m.sequence⟩, by simp, rfl⟩

end PriorityQueue

end QB.Impl
