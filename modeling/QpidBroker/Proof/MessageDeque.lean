import QpidBroker.Framework.Run
import QpidBroker.Proof.IndexedDeque
import QpidBroker.Spec.Ledger

/-!
# A message deque keeps the ledger

Over any run of calls, a deque holds consecutive numbers and the messages of
the ledger (`Keeps`, kept by each call: `Keeps.call`), so a lookup by index
arithmetic is a lookup in the ledger (`Keeps.find`).
-/

namespace QB.Impl

open Serial Spec List FifoDistributor

instance : SelfRecord Unit Message where
  getSequence_setState _ _ _ _ := rfl
  setState_fst _ _ _ := rfl
  getState_setState _ _ _ := rfl

namespace MessageDeque

open IndexedDeque

@[simp] theorem getSequence_eq (m : Message) : Record.getSequence () m = m.sequence := rfl
@[simp] theorem getState_eq (m : Message) : Record.getState () m = m.state := rfl
@[simp] theorem setState_eq (m : Message) (st : MessageState) : Record.setState () m st = ((), m.setState st) := rfl

/-- The deque holds consecutive numbers, and the messages of the ledger. -/
structure Keeps (d : MessageDeque) (l : Ledger) : Prop where
  window : Window (seqs () d)
  head_eq : d.head = 0
  live_eq : live () d = l
  state : ∀ m ∈ l, m.state = .available ∨ m.state = .acquired

/-- Writing the message under a number, in the records of a deque. -/
def update (d : MessageDeque) (p : SequenceNumber) (f : Message → Message) : MessageDeque :=
  { d with messages := d.messages.map fun m => if m.sequence = p then f m else m }

variable {d : MessageDeque} {l : Ledger}

variable {f : Message → Message} {p : SequenceNumber} {m : Message}

theorem seqs_update (hf : ∀ m, (f m).sequence = m.sequence)
    (p : SequenceNumber) : seqs () (update d p f) = seqs () d := by
  rw [seqs, update, map_map]
  refine map_congr_left fun m _ => ?_
  simp only [Function.comp_apply]
  split <;> simp [hf]

/-- A change that deletes nothing is one of the ledger. -/
theorem live_update (hf : ∀ m ∈ d.messages, m.sequence = p → ((f m).state = .deleted ↔ m.state = .deleted)) :
    live () (update d p f) = Ledger.update (live () d) p f := by
  rw [live, update, filter_map]
  congr 1
  refine filter_congr fun m hm => ?_
  simp only [Function.comp_apply]
  split <;> rename_i h
  · simp [hf m hm h]
  · rfl

theorem live_update_deleted (d : MessageDeque) (p : SequenceNumber) :
    live () (update d p fun m => m.setState .deleted) = (live () d).filter fun m => m.sequence ≠ p := by
  simp only [live, update]
  induction d.messages with
  | nil => rfl
  | cons m ms ih =>
    by_cases hp : m.sequence = p <;> by_cases hd : m.state = .deleted <;> simp_all

/-! ## The calls, as updates -/

theorem set_eq_update (hw : Window (seqs () d)) {i : Nat} (hm : d.messages[i]? = some m)
    (f : Message → Message) : { d with messages := d.messages.set i (f m) } = update d m.sequence f := by
  rw [set_eq_map hw hm f]; rfl

theorem modify_eq (hw : Window (seqs () d)) {i : Nat} (hm : d.messages[i]? = some m)
    (f : Message → Message) : d.modify i f = update d m.sequence f := by
  rw [← set_eq_update hw hm, modify]
  congr 1
  refine ext_getElem? fun j => ?_
  rw [getElem?_modify]
  have := (List.getElem?_eq_some_iff.1 hm).1
  by_cases hij : i = j
  · subst hij; rw [hm]; simp [this]
  · simp [hij]

/-- `deleted` marks the record at the position, if there is one. -/
theorem deleted_cases (hw : Window (seqs () d)) (c : QueueCursor) : (c.valid = true ∧ c.position ∈ seqs () d ∧
      d.deleted c = (true, IndexedDeque.clean () (update d c.position fun m => m.setState .deleted))) ∨
    ((c.valid = true → c.position ∉ seqs () d) ∧ d.deleted c = (false, d)) := by
  by_cases hp : c.valid = true ∧ c.position ∈ seqs () d
  · obtain ⟨i, m, hi, hm, e⟩ := exists_index hw hp.2 0
    refine .inl ⟨hp.1, hp.2, ?_⟩
    rw [deleted, deleted_eq hp.1 hi hm, ← e, getSequence_eq, ← set_eq_update hw hm]
    rfl
  refine .inr ⟨fun hv hm => hp ⟨hv, hm⟩, ?_⟩
  rw [deleted, deleted_eq_false]
  rcases not_and_or.1 hp with h | h
  · exact .inl (by simpa using h)
  · exact .inr (index_eq_false hw h 0)

/-- `release` makes the record at the position available, if there is one. -/
theorem release_cases (hw : Window (seqs () d)) (c : QueueCursor) :
    (c.valid = true ∧ ∃ i m, d.messages[i]? = some m ∧ m.sequence = c.position ∧
      d.release c = (some i, { update d c.position (fun m => m.setState .available) with
        version := d.version + 1 })) ∨
    ((c.valid = true → c.position ∉ seqs () d) ∧ d.release c = (none, d)) := by
  by_cases hp : c.valid = true ∧ c.position ∈ seqs () d
  · obtain ⟨i, m, hi, hm, e⟩ := exists_index hw hp.2 0
    refine .inl ⟨hp.1, i, m, hm, e, ?_⟩
    rw [release, release_eq hp.1 hi hm, ← e, getSequence_eq, ← set_eq_update hw hm]
    rfl
  refine .inr ⟨fun hv hm => hp ⟨hv, hm⟩, ?_⟩
  rw [release, release_eq_none]
  rcases not_and_or.1 hp with h | h
  · exact .inl (by simpa using h)
  · exact .inr (index_eq_false hw h 0)

/-! ## Windows of records -/

theorem window_update (hw : Window (seqs () d))
    (hf : ∀ m, (f m).sequence = m.sequence) (p : SequenceNumber) : Window (seqs () (update d p f)) := by
  rwa [seqs_update hf]

/-- The records have consecutive numbers, and `next` starts at the first. -/
structure Windowed (d : MessageDeque) : Prop where
  window : Window (seqs () d)
  head_eq : d.head = 0

theorem windowed_empty : Windowed {} := ⟨Window.nil, rfl⟩

/-- `publish` keeps the window, and appends the message to the records that
are not deleted. -/
theorem Windowed.publish (h : Windowed d)
    (hm : ∀ x ∈ popTail () m.sequence (IndexedDeque.clean () d).messages, Ahead x.sequence m.sequence) :
    ∃ ms, d.publish m = (.ok (), ⟨ms ++ [m.setState .available], 0, d.version⟩) ∧
      Windowed ⟨ms ++ [m.setState .available], 0, d.version⟩ ∧
      (ms.filter fun x => x.state ≠ .deleted) = live () d := by
  have hp := publish_popped m h.head_eq rfl hm
  have hg := gap_window (popTail_window (clean_window h.window) m.sequence) hm
  have hl := publish_live () d m
  rw [hp] at hl
  refine ⟨_, by rw [MessageDeque.publish, hp]; rfl, ⟨by simpa [seqs] using hg, rfl⟩, ?_⟩
  refine (append_left_inj [m.setState .available]).1 ?_
  simpa [live, filter_append] using hl

theorem Windowed.deleted (h : Windowed d) (c : QueueCursor) : Windowed (d.deleted c).2 := by
  rcases deleted_cases h.window c with ⟨-, -, hd⟩ | ⟨-, hd⟩ <;> rw [hd]
  · exact ⟨clean_window (window_update h.window (f := (Message.setState · .deleted)) (fun _ => rfl) _),
      clean_head h.head_eq⟩
  · exact h

theorem Windowed.release (h : Windowed d) (c : QueueCursor) : Windowed (d.release c).2 := by
  rcases release_cases h.window c with ⟨-, i, m, -, -, hr⟩ | ⟨-, hr⟩ <;> rw [hr]
  · exact ⟨window_update h.window (f := (Message.setState · .available)) (fun _ => rfl) _, h.head_eq⟩
  · exact h

theorem Windowed.modify (h : Windowed d) {i : Nat}
    (hf : ∀ m ∈ d.messages[i]?, (f m).sequence = m.sequence) : Windowed (d.modify i f) := by
  refine ⟨?_, h.head_eq⟩
  have : seqs () (d.modify i f) = seqs () d := by
    refine ext_getElem? fun j => ?_
    simp only [seqs, MessageDeque.modify, getElem?_map, getElem?_modify]
    by_cases hij : i = j
    · subst hij
      cases hm : d.messages[i]? with
      | none => rfl
      | some m => simp [hf m hm]
    · simp [hij]
  rw [this]
  exact h.window

/-! ## Where messages are found -/

section At

/-- A cursor at the record with index `i`, whose message is `m`. -/
structure At (d : MessageDeque) (c : QueueCursor) (i : Nat) (m : Message) : Prop where
  valid : c.valid = true
  index : d.index () c.position 0 = (true, i)
  get : d.messages[i]? = some m
  state : m.state ≠ .deleted

variable {c c' : QueueCursor} {i : Nat}

/-- A record that is found is not deleted, and the cursor is set to it. -/
theorem find_cases {p : SequenceNumber} {o o' : Option QueueCursor} (h : d.find p o = (some i, o')) :
    ∃ m, d.index () p 0 = (true, i) ∧ d.messages[i]? = some m ∧ m.state ≠ .deleted ∧
      o' = o.map (·.setPosition p d.version) := by
  unfold MessageDeque.find IndexedDeque.find at h
  rcases hx : d.index () p 0 with ⟨_ | _, k⟩
  · simp only [hx, Bool.false_eq_true, if_false] at h
    split at h
    · simp at h
    · split at h <;> simp at h
  simp only [hx, if_true] at h
  cases hm : d.messages[k]? with
  | none => simp [hm] at h
  | some m =>
    simp only [hm] at h
    split at h
    · rename_i hs
      obtain ⟨rfl, rfl⟩ : k = i ∧ _ = o' := by simpa using h
      refine ⟨m, rfl, hm, ?_, rfl⟩
      rcases hs with hs | hs <;> simp only [getState_eq] at hs <;> simp [hs]
    · simp at h

theorem findAt_at (h : d.findAt c = some i) : ∃ m, At d c i m := by
  unfold MessageDeque.findAt IndexedDeque.findAt at h
  split at h
  · rename_i hv
    obtain ⟨m, hi, hm, hs, -⟩ := find_cases (Prod.ext h rfl)
    exact ⟨m, hv, hi, hm, hs⟩
  · simp at h

theorem next_at (hw : Windowed d) (h : d.next c = (some i, c')) : ∃ m, At d c' i m := by
  obtain ⟨-, m, hm, hs, -, rfl, -⟩ := IndexedDeque.next_some h
  refine ⟨m, rfl, (index_eq_true_iff hw.window).2 ?_, hm, hs⟩
  rw [getElem?_seqs, hm]
  rfl

end At

/-! ## Keeping the ledger -/

theorem mem_live : m ∈ live () d ↔ m ∈ d.messages ∧ m.state ≠ .deleted := by
  simp [live]

/-- `find` is a lookup in the ledger. -/
theorem find_eq_lookup (hw : Window (seqs () d))
    (hs : ∀ m ∈ live () d, m.state = .available ∨ m.state = .acquired) (p : SequenceNumber)
    (c : Option QueueCursor) :
    ((d.find p c).1 >>= fun i => d.messages[i]?) = Ledger.lookup (live () d) p := by
  rcases hf : (d.find p c).1 with _ | i
  · symm
    refine find?_eq_none.2 fun m hm hp => ?_
    obtain ⟨hm', -⟩ := mem_live.1 hm
    obtain ⟨i, hi⟩ := mem_iff_getElem?.1 hm'
    have := (find_eq_some_iff hw (c := c)).2 ⟨m, hi, by simpa using hp, hs m hm⟩
    rw [find] at hf
    simp [hf] at this
  obtain ⟨m, hm, hp, hst⟩ := (find_eq_some_iff hw).1 hf
  have hl : m ∈ live () d := mem_live.2 ⟨mem_of_getElem? hm, by
    rcases hst with h | h <;> simp at h <;> simp [h]⟩
  have hfind : ∃ x, Ledger.lookup (live () d) p = some x :=
    Option.isSome_iff_exists.1 (find?_isSome.2 ⟨m, hl, by simpa using hp⟩)
  obtain ⟨x, hx⟩ := hfind
  have hxp := find?_some hx
  obtain ⟨hxm, -⟩ := mem_live.1 (mem_of_find?_eq_some hx)
  obtain ⟨j, hj⟩ := mem_iff_getElem?.1 hxm
  obtain rfl : i = j := hw.getElem?_inj (p := p) (by rw [getElem?_seqs, hm, ← hp]; rfl)
    (by rw [getElem?_seqs, hj]; simpa using hxp)
  rw [hx]
  exact hj

theorem size_eq (hh : d.head = 0) : d.size = Ledger.available (live () d) := by
  rw [size, IndexedDeque.size, hh, Ledger.available, live, countP_filter]
  refine countP_congr fun m _ => ?_
  simp only [getState_eq, Bool.and_eq_true, decide_eq_true_eq]
  constructor
  · intro h; simp [h]
  · exact fun h => h.1

theorem acquire_state (m : Message) : (acquire m).2.state = .deleted ↔ m.state = .deleted := by
  unfold acquire
  split <;> simp_all

theorem acquire_held (h : m.state = .available ∨ m.state = .acquired) :
    (acquire m).2.state = .available ∨ (acquire m).2.state = .acquired := by
  unfold acquire
  split <;> simp_all

theorem acquire_sequence (m : Message) : (acquire m).2.sequence = m.sequence := by
  unfold acquire
  split <;> rfl

theorem Ledger.update_eq_self (h : ∀ m ∈ l, m.sequence ≠ p) (f : Message → Message) :
    Ledger.update l p f = l := by
  have : l.map (fun m => if m.sequence = p then f m else m) = l.map id :=
    map_congr_left fun m hm => if_neg (h m hm)
  rw [Ledger.update, this, map_id]

theorem sequence_ne_of_mem_live (h : p ∉ seqs () d) : ∀ m ∈ live () d, m.sequence ≠ p := fun _ hm e =>
  h (e ▸ mem_map_of_mem (mem_live.1 hm).1)

/-- Every call keeps the deque in step with the ledger. -/
theorem Keeps.call {c : Call} (h : Keeps d l) (hc : Fits d c) : Keeps (d.call c) (Ledger.call l c) := by
  obtain ⟨hw, hh, rfl, hs⟩ := h
  cases c with
  | publish m =>
    obtain ⟨ms, hp, ⟨hw', -⟩, hl⟩ := Windowed.publish ⟨hw, hh⟩ hc
    simp only [MessageDeque.call, Ledger.call, hp]
    refine ⟨hw', rfl, ?_, ?_⟩
    · simpa [live, filter_append] using hl
    intro x hx
    rcases mem_append.1 hx with hx | hx
    · exact hs x hx
    · obtain rfl := mem_singleton.1 hx
      exact .inl rfl
  | deleted c =>
    simp only [MessageDeque.call, Ledger.call]
    rcases deleted_cases hw c with ⟨hv, -, hd⟩ | ⟨hn, hd⟩
    · rw [hd, if_pos hv]
      refine ⟨clean_window (window_update hw (f := (Message.setState · .deleted)) (fun _ => rfl) _),
        clean_head hh, ?_, ?_⟩
      · rw [clean_live, live_update_deleted]
      · exact fun m hm => hs m (mem_of_mem_filter hm)
    rw [hd]
    split
    · rename_i hv
      have hne := sequence_ne_of_mem_live (hn hv)
      rw [filter_eq_self.2 fun m hm => by simpa using hne m hm]
      exact ⟨hw, hh, rfl, hs⟩
    · exact ⟨hw, hh, rfl, hs⟩
  | release c =>
    simp only [MessageDeque.call, Ledger.call]
    rcases release_cases hw c with ⟨hv, i, m, hm, hp, hr⟩ | ⟨hn, hr⟩
    · rw [hr, if_pos hv]
      refine ⟨window_update hw (f := (Message.setState · .available)) (fun _ => rfl) _, hh, ?_, ?_⟩
      · refine live_update fun x hx e => ?_
        simp [hc x hx e]
      intro x hx
      obtain ⟨y, hy, rfl⟩ := mem_map.1 hx
      split
      · exact .inl rfl
      · exact hs y hy
    rw [hr]
    split
    · rename_i hv
      rw [Ledger.update_eq_self (sequence_ne_of_mem_live (hn hv))]
      exact ⟨hw, hh, rfl, hs⟩
    · exact ⟨hw, hh, rfl, hs⟩
  | acquire p =>
    have hl := find_eq_lookup hw hs p none
    simp only [MessageDeque.call, Ledger.call]
    rcases hf : (d.find p none).1 with _ | i
    · rw [hf] at hl
      rw [Ledger.update_eq_self fun m hm => by simpa using find?_eq_none.1 hl.symm m hm]
      exact ⟨hw, hh, rfl, hs⟩
    obtain ⟨m, hm, rfl, -⟩ := (find_eq_some_iff hw).1 hf
    simp only [modify_eq hw hm]
    refine ⟨window_update hw acquire_sequence _, hh, live_update fun x _ _ => acquire_state x, ?_⟩
    intro x hx
    obtain ⟨y, hy, rfl⟩ := mem_map.1 hx
    split
    · exact acquire_held (hs y hy)
    · exact hs y hy
  | clean => exact ⟨clean_window hw, clean_head hh, clean_live () d, hs⟩
  | foreach => exact ⟨clean_window hw, clean_head hh, clean_live () d, hs⟩

theorem keeps_run {calls : List Call} (h : Run (fun d c => some (d.call c)) Fits {} calls d) :
    Keeps d (calls.foldl Ledger.call []) := by
  have := Run.keep_ops (I := fun d calls => Keeps d (calls.foldl Ledger.call [])) (l := []) (fun hi hc ht => by
      rw [Option.some.injEq] at ht
      subst ht
      rw [foldl_append]
      exact hi.call hc) h ⟨Window.nil, rfl, rfl, by simp⟩
  simpa using this

/-- After any run of calls, the numbers held are consecutive from the front,
whose index stays 0, so looking a number up finds the message published
under it and not deleted, and the size is the number of available messages. -/
theorem deque_keeps_ledger {calls : List Call} (h : Run (fun d c => some (d.call c)) Fits {} calls d) :
    (∀ i m₀ m, d.messages[0]? = some m₀ → d.messages[i]? = some m →
      m.sequence = m₀.sequence + BitVec.ofNat 32 i) ∧
    d.head = 0 ∧
    (∀ p, ((d.find p none).1 >>= fun i => d.messages[i]?) = Ledger.lookup (calls.foldl Ledger.call []) p) ∧
    d.size = Ledger.available (calls.foldl Ledger.call []) := by
  obtain ⟨hw, hh, hl, hs⟩ := keeps_run h
  rw [← hl] at hs ⊢
  refine ⟨fun i m₀ m h₀ hi => ?_, hh, fun p => find_eq_lookup hw hs p none, size_eq hh⟩
  refine hw.consec.getElem?_eq ?_ (by rw [getElem?_seqs, hi]; rfl)
  rw [head?_eq_getElem?, getElem?_seqs, h₀]
  rfl

/-- Three messages are published with a gap, the third is deleted and its number
published again, where the record still held is popped; the second is acquired
and released, the first is deleted. -/
def gapCalls : List Call :=
  [.publish { sequence := 1 }, .publish { sequence := 2 }, .acquire 2, .publish { sequence := 5 },
    .deleted { position := 5, valid := true }, .publish { sequence := 5 },
    .deleted { position := 1, valid := true }, .release { position := 2, valid := true }, .clean]

theorem deque_keeps_ledger_gap : Run (fun d c => some (d.call c)) Fits {} gapCalls (gapCalls.foldl call {}) ∧
    (gapCalls.foldl call {}).size = 2 ∧
    (((gapCalls.foldl call {}).find 5 none).1 >>= fun i => (gapCalls.foldl call {}).messages[i]?) =
      some { sequence := 5, state := .available } := by
  have h : Run (fun d c => some (d.call c)) Fits {} gapCalls (gapCalls.foldl call {}) :=
    run_iff_exec.2 rfl
  obtain ⟨-, -, hf, hs⟩ := deque_keeps_ledger h
  exact ⟨h, hs, hf 5⟩

end MessageDeque

end QB.Impl
