import QpidBroker.Proof.MessageDeque
import QpidBroker.Spec.Feed

/-!
# No message is stranded: message deque

Every available record is one a consumer's cursor has still to come to, or one
it has been offered (`Served`). `next` keeps that and, when it finds nothing,
leaves nothing to come to (`Served.all_of_next_none`); an operation keeps it for the
records it leaves alone (`Served.transfer`), and a release sends every cursor
back to the front.
-/

namespace QB.Impl

open Record Serial Spec List

/-- Reporting a return does not undo an offer. -/
theorem OfferedSince.note {M : Type} [Messages M] {k : Nat} {p : SequenceNumber} {log : List Event}
    (h : OfferedSince k p log) (j : Nat) (q : M) (r : Option (Messages.Ptr M)) :
    OfferedSince k p (Feed.note (.returned j) q r log) := by
  unfold Feed.note
  split
  · exact .inr h
  · exact h

namespace IndexedDeque

section Served

variable {σ T : Type} [Record σ T]

/-- Every available record is still to come, or has been offered. -/
def Served (s : σ) (d : IndexedDeque T) (c : QueueCursor) (offered : T → Prop) : Prop :=
  ∀ m ∈ d.messages, getState s m = .available → d.ToCome s c m ∨ offered m

variable {s : σ} {d : IndexedDeque T} {c : QueueCursor} {offered : T → Prop}

theorem Served.of_reset (h : d.reset c = true) : Served s d c offered := fun _ _ _ => .inl (.inl h)

/-- A change of the deque that makes nothing new available leaves the cursor served. -/
theorem Served.transfer {s' : σ} {d' : IndexedDeque T} {offered' : T → Prop} (h : Served s d c offered)
    (hv : d'.version = d.version)
    (hm : ∀ m' ∈ d'.messages, getState s' m' = .available → d'.ToCome s' c m' ∨
      ∃ m ∈ d.messages, getState s m = .available ∧ getSequence s' m' = getSequence s m ∧
        (offered m → offered' m')) : Served s' d' c offered' := by
  intro m' hm' ha
  rcases hm m' hm' ha with ht | ⟨m, hmd, hs, hq, ho⟩
  · exact .inl ht
  rcases h m hmd hs with (hr | hp) | hof
  · exact .inl (.inl (by simpa only [reset, hv] using hr))
  · exact .inl (.inr (hq ▸ hp))
  · exact .inr (ho hof)

/-- What `next` passes over for a consumer is not available. -/
theorem not_available_of_passesOver (hc : c.type = .consumer) {m : T} (h : PassesOver s c m) :
    getState s m ≠ .available := by
  intro ha
  rcases h with h | h
  · simp [ha] at h
  · simp [QueueCursor.check_consumer hc, ha] at h

variable {c' : QueueCursor}

/-- If `next` finds nothing, everything available was offered. -/
theorem Served.all_of_next_none (h : Served s d c offered) (hw : Window (d.seqs s)) (hh : d.head = 0)
    (hc : c.type = .consumer) (hn : d.next s c = (none, c')) :
    ∀ m ∈ d.messages, getState s m = .available → offered m := by
  intro m hm ha
  refine (h m hm ha).resolve_left fun ht => ?_
  obtain ⟨i, hi⟩ := mem_iff_getElem?.1 hm
  exact not_available_of_passesOver hc ((next_none hn).1 i m (start_le hw hh hi ht) hi) ha

theorem Served.next_some (h : Served s d c offered) (hw : Window (d.seqs s)) (hh : d.head = 0)
    (hc : c.type = .consumer) {j : Nat} (hn : d.next s c = (some j, c'))
    {offered' : T → Prop} (ho : ∀ m ∈ d.messages, offered m → offered' m)
    (hj : ∀ m ∈ d.messages[j]?, offered' m) : Served s d c' offered' := by
  obtain ⟨-, m0, hm0, -, -, rfl, hp⟩ := IndexedDeque.next_some hn
  intro m hm ha
  obtain ⟨i, hi⟩ := mem_iff_getElem?.1 hm
  rcases Nat.lt_trichotomy i j with hij | rfl | hij
  · -- before the record found: not available, or behind the cursor already
    refine .inr (ho m hm ((h m hm ha).resolve_left fun ht => ?_))
    exact not_available_of_passesOver hc (hp i m (start_le hw hh hi ht) hij hi) ha
  · exact .inr (hj m hi)
  · refine .inl (.inr ?_)
    exact hw.ahead hij (by rw [getElem?_seqs, hm0]; rfl) (by rw [getElem?_seqs, hi]; rfl)

theorem Served.next_none (h : Served s d c offered) (hw : Window (d.seqs s)) (hh : d.head = 0)
    (hc : c.type = .consumer) (hn : d.next s c = (none, c')) :
    Served s d c' offered := fun m hm ha => .inr (h.all_of_next_none hw hh hc hn m hm ha)

end Served

end IndexedDeque

namespace MessageDeque

open IndexedDeque

/-- The deque is consecutive, and every cursor is served. -/
structure Fed (f : Feed MessageDeque) : Prop where
  window : Window (seqs () f.messages)
  head_eq : f.messages.head = 0
  consumer : ∀ c ∈ f.cursors, c.type = .consumer
  served : ∀ k c, f.cursors[k]? = some c → Served () f.messages c fun m => OfferedSince k m.sequence f.log

theorem reset_eq_true {T : Type} {d : IndexedDeque T} {c : QueueCursor} (hc : c.type = .consumer)
    (h : c.valid = true → c.version ≠ d.version) : d.reset c = true := by
  by_cases hv : c.valid = true
  · simp [reset, hc, h hv]
  · simp [reset, hv]

variable {f f' : Feed MessageDeque}

theorem Fed.update_deque (h : Fed f) {d : MessageDeque} (hw : Window (seqs () d)) (hh : d.head = 0)
    (hv : d.version = f.messages.version)
    (hd : ∀ m ∈ d.messages, m.state = .available → m ∈ f.messages.messages) :
    Fed { f with messages := d } := by
  refine ⟨hw, hh, h.consumer, fun k c hk => (h.served k c hk).transfer hv fun m hm ha => .inr ?_⟩
  exact ⟨m, hd m hm ha, ha, rfl, id⟩

/-- A record that `update` does not change was in the deque before. -/
theorem mem_of_mem_update {d : MessageDeque} {p : SequenceNumber} {g : Message → Message} {m : Message}
    (hm : m ∈ (update d p g).messages) (hg : ∀ x, g x ≠ m ∨ g x = x) : m ∈ d.messages := by
  obtain ⟨x, hx, rfl⟩ := mem_map.1 hm
  split at hg
  · rename_i hp
    rw [if_pos hp]
    exact ((hg x).resolve_left (by simp)).symm ▸ hx
  · rename_i hp
    rwa [if_neg hp]

/-- What is published is ahead of every cursor, and so is still to come. -/
theorem Fed.publish (h : Fed f) {m : Message} (hop : Within f (.publish m))
    (ht : f.step (.publish m) = some f') : Fed f' := by
  obtain ⟨hw, hh, hc, hs⟩ := h
  obtain ⟨ha, hac⟩ := hop
  have hp := publish_popped m hh rfl ha
  have hg := gap_window (popTail_window (clean_window hw) m.sequence) ha
  simp only [Feed.step, Messages.publish, MessageDeque.publish, hp, Except.map, Option.some.injEq] at ht
  subst ht
  refine ⟨by simpa [seqs] using hg, rfl, hc, fun k c hk => (hs k c hk).transfer rfl ?_⟩
  intro x hx hxa
  simp only [append_assoc, mem_append, mem_singleton] at hx
  rcases hx with hx | hx | rfl
  · refine .inr ⟨x, mem_of_mem_clean ((prefix_popTail _ _ _).subset hx), hxa, rfl, fun ho => ⟨?_, ho⟩⟩
    exact (ha x hx).ne.symm
  · rw [gap_deleted () _ _ x hx] at hxa
    cases hxa
  refine .inl ?_
  by_cases hv : c.valid = true
  · exact .inr (hac c (mem_of_getElem? hk) hv)
  · exact .inl (by simp [reset, hv])

/-- A message released resets the cursors, whose version is an earlier one. -/
theorem Fed.release (h : Fed f) {c : QueueCursor} (hop : Within f (.release c))
    (ht : f.step (.release c) = some f') : Fed f' := by
  simp only [Feed.step, Messages.release, Option.map_some, Option.some.injEq] at ht
  subst ht
  simp only [Within] at hop
  rcases release_cases h.window c with ⟨-, i, m, -, -, hr⟩ | ⟨-, hr⟩
  · rw [hr] at hop ⊢
    refine ⟨window_update h.window (f := (Message.setState · .available)) (fun _ => rfl) _, h.head_eq,
      h.consumer, fun k c' hk => Served.of_reset ?_⟩
    have hc' := mem_of_getElem? hk
    exact reset_eq_true (h.consumer c' hc') (hop rfl c' hc')
  · rw [hr]
    exact h

theorem Fed.next (h : Fed f) {k : Nat} (ht : f.step (.next k) = some f') : Fed f' := by
  obtain ⟨hw, hh, hc, hs⟩ := h
  simp only [Feed.step, Option.map_eq_some_iff, Messages.next, MessageDeque.next] at ht
  obtain ⟨c, hk, rfl⟩ := ht
  have hcc := hc c (mem_of_getElem? hk)
  rcases hn : IndexedDeque.next () f.messages c with ⟨r, c'⟩
  have hkind : c'.type = c.type := by
    cases r with
    | none => exact (IndexedDeque.next_none hn).2.1.type
    | some j =>
      obtain ⟨-, m, -, -, -, rfl, -⟩ := IndexedDeque.next_some hn
      rfl
  refine ⟨hw, hh, fun x hx => ?_, fun k' x hx => ?_⟩
  · rcases mem_or_eq_of_mem_set hx with hx | rfl
    · exact hc x hx
    · rw [hkind, hcc]
  have hlog : ∀ m ∈ f.messages.messages, OfferedSince k' m.sequence f.log →
      OfferedSince k' m.sequence (Feed.note (.returned k) f.messages r f.log) :=
    fun m _ ho => OfferedSince.note ho k f.messages r
  rcases getElem?_set_cases hx with ⟨rfl, rfl⟩ | ⟨-, hx⟩
  swap
  · exact (hs k' x hx).transfer rfl fun m hm ha => .inr ⟨m, hm, ha, rfl, hlog m hm⟩
  cases r with
  | none => exact (hs k c hk).next_none hw hh hcc hn
  | some j =>
    refine (hs k c hk).next_some hw hh hcc hn hlog fun m hm => ?_
    have hm : f.messages.messages[j]? = some m := hm
    simp [Feed.note, Messages.get, hm, OfferedSince]

theorem Fed.step {op : Feed.Op} (h : Fed f) (hop : Within f op) (ht : f.step op = some f') : Fed f' := by
  cases op with
  | subscribe =>
    obtain ⟨hw, hh, hc, hs⟩ := h
    cases ht
    refine ⟨hw, hh, ?_, ?_⟩
    · simpa [or_imp, forall_and] using hc
    intro k c hk
    rw [getElem?_append] at hk
    split at hk
    · exact hs k c hk
    obtain rfl : c = {} := by
      have := mem_of_getElem? hk
      simpa using this
    exact Served.of_reset rfl
  | publish m => exact h.publish hop ht
  | deleted c =>
    cases ht
    simp only [Messages.deleted]
    rcases deleted_cases h.window c with ⟨-, -, hd⟩ | ⟨-, hd⟩
    swap
    · rw [hd]
      exact h
    rw [hd]
    refine h.update_deque (clean_window (window_update h.window (f := (Message.setState · .deleted))
      (fun _ => rfl) _)) (clean_head h.head_eq) rfl fun m hm ha => ?_
    refine mem_of_mem_update (mem_of_mem_clean hm) fun x => .inl ?_
    rintro rfl
    cases ha
  | release c => exact h.release hop ht
  | acquire p =>
    simp only [Feed.step] at ht
    split at ht
    swap
    · cases ht
      exact h
    rename_i i hf
    obtain ⟨m, hm, -, -⟩ := (find_eq_some_iff h.window).1 hf
    cases ht
    simp only [Messages.modify, modify_eq h.window hm]
    refine h.update_deque (window_update h.window acquire_sequence _) h.head_eq rfl fun x hx ha => ?_
    refine mem_of_mem_update hx fun y => ?_
    unfold FifoDistributor.acquire
    split
    · refine .inl ?_
      rintro rfl
      cases ha
    · exact .inr rfl
  | next k => exact h.next ht

theorem Fed.nothingStranded (h : Fed f) : f.NothingStranded := by
  intro k c hk hn (ptr : Nat) m hm ha
  rcases hn' : IndexedDeque.next () f.messages c with ⟨r, c'⟩
  simp only [Messages.next, MessageDeque.next, hn'] at hn
  subst hn
  exact (h.served k c hk).all_of_next_none h.window h.head_eq (h.consumer c (mem_of_getElem? hk)) hn'
    m (mem_of_getElem? hm) ha

end MessageDeque

end QB.Impl
