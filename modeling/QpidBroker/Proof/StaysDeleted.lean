import QpidBroker.Proof.PriorityServed

/-!
# When a deleted message stays deleted

`release` refuses a position whose record is gone, and only that: a record that
is deleted but still held (in the middle, or at the front beyond the ten that
`clean` removes) is made available again by a deque, and leads a priority queue
to a null pointer. In a run that never releases such a record no deleted
message comes back.
-/

namespace QB.Impl

open Record Serial Spec List MessageDeque
open Option hiding mem_map mem_map_of_mem

namespace MessageDeque

open IndexedDeque

variable {f f' : Feed MessageDeque}

variable {d : MessageDeque} {p : SequenceNumber}

theorem alive_iff : Alive d p ↔ ∃ m ∈ d.messages, m.sequence = p ∧ m.state ≠ .deleted := by
  constructor
  · rintro ⟨(i : Nat), m, (hi : d.messages[i]? = some m), h⟩
    exact ⟨m, mem_of_getElem? hi, h⟩
  · rintro ⟨m, hm, h⟩
    obtain ⟨i, hi⟩ := mem_iff_getElem?.1 hm
    exact ⟨(i : Nat), m, hi, h⟩

instance (d : MessageDeque) (p : SequenceNumber) : Decidable (Alive d p) := decidable_of_iff' _ alive_iff

theorem Windowed.step {op : Feed.Op} (h : Windowed f.messages) (hop : InHalf f op)
    (ht : f.step op = some f') : Windowed f'.messages := by
  cases op with
  | subscribe =>
    cases ht
    exact h
  | publish m =>
    obtain ⟨ms, hp, hw, -⟩ := h.publish hop
    simp only [Feed.step, Messages.publish, hp, Option.some.injEq] at ht
    subst ht
    exact hw
  | deleted c =>
    cases ht
    exact h.deleted c
  | release c =>
    simp only [Feed.step, Messages.release, map_some, Option.some.injEq] at ht
    subst ht
    exact h.release c
  | acquire p =>
    simp only [Feed.step] at ht
    split at ht
    · cases ht
      exact h.modify fun m _ => acquire_sequence m
    · cases ht
      exact h
  | next k =>
    simp only [Feed.step, map_eq_some_iff] at ht
    obtain ⟨c, -, rfl⟩ := ht
    exact h

theorem alive_of_update {q : SequenceNumber} {g : Message → Message} (hq : ∀ m, (g m).sequence = m.sequence)
    (hg : ∀ m ∈ d.messages, m.sequence = p → m.state = .deleted → (g m).state = .deleted)
    (h : ∃ m ∈ (update d p g).messages, m.sequence = q ∧ m.state ≠ .deleted) :
    ∃ m ∈ d.messages, m.sequence = q ∧ m.state ≠ .deleted := by
  obtain ⟨m, hm, hmq, hst⟩ := h
  obtain ⟨x, hx, rfl⟩ := mem_map.1 hm
  split at hmq
  · rename_i hp
    rw [if_pos hp] at hst
    exact ⟨x, hx, by rw [← hmq, hq], fun e => hst (hg x hx hp e)⟩
  · rename_i hp
    rw [if_neg hp] at hst
    exact ⟨x, hx, hmq, hst⟩

theorem alive_of_step {op : Feed.Op} (h : Windowed f.messages) (hop : InHalf f op)
    (hsp : SparesDeleted f op) (ht : f.step op = some f') (ha : Alive f'.messages p) :
    Alive f.messages p ∨ ∃ m, op = .publish m ∧ m.sequence = p := by
  obtain ⟨hw, hh⟩ := h
  rw [alive_iff] at ha ⊢
  cases op with
  | subscribe =>
    cases ht
    exact .inl ha
  | publish m =>
    obtain ⟨ms, hp, -, hl⟩ := Windowed.publish ⟨hw, hh⟩ hop
    simp only [Feed.step, Messages.publish, hp, Option.some.injEq] at ht
    subst ht
    obtain ⟨x, hx, hxp, hst⟩ := ha
    rcases mem_append.1 hx with hx | hx
    · have hxl : x ∈ live () f.messages := hl ▸ mem_filter.2 ⟨hx, by simpa using hst⟩
      exact .inl ⟨x, (mem_live.1 hxl).1, hxp, hst⟩
    · obtain rfl := mem_singleton.1 hx
      exact .inr ⟨m, rfl, hxp⟩
  | deleted c =>
    cases ht
    simp only [Messages.deleted] at ha
    rcases deleted_cases hw c with ⟨-, -, hd⟩ | ⟨-, hd⟩ <;> rw [hd] at ha
    · obtain ⟨x, hx, hxp⟩ := ha
      exact .inl (alive_of_update (g := (Message.setState · .deleted)) (fun _ => rfl) (fun _ _ _ _ => rfl)
        ⟨x, mem_of_mem_clean hx, hxp⟩)
    · exact .inl ha
  | release c =>
    simp only [Feed.step, Messages.release, map_some, Option.some.injEq] at ht
    subst ht
    rcases release_cases hw c with ⟨hv, i, m, -, -, hr⟩ | ⟨-, hr⟩ <;> rw [hr] at ha
    · exact .inl (alive_of_update (g := (Message.setState · .available)) (fun _ => rfl)
        (fun x hx hxp hst => absurd hst (hsp hv x hx hxp)) ha)
    · exact .inl ha
  | acquire p =>
    simp only [Feed.step] at ht
    split at ht
    · rename_i i hf
      obtain ⟨m, hm, -, -⟩ := (find_eq_some_iff hw).1 hf
      cases ht
      simp only [Messages.modify, modify_eq hw hm] at ha
      exact .inl (alive_of_update acquire_sequence (fun x _ _ hst => (acquire_state x).2 hst) ha)
    · cases ht
      exact .inl ha
  | next k =>
    simp only [Feed.step, map_eq_some_iff] at ht
    obtain ⟨c, -, rfl⟩ := ht
    exact .inl ha

theorem refuses_iff (h : Windowed d) (c : QueueCursor) :
    Refuses d c ↔ (c.valid = false ∨ ∀ x ∈ d.messages, x.sequence ≠ c.position) := by
  have hmem : (∀ x ∈ d.messages, x.sequence ≠ c.position) ↔ c.position ∉ seqs () d := by
    simp [seqs]
  rw [hmem, Refuses]
  simp only [Messages.release, Option.some.injEq]
  rcases release_cases h.window c with ⟨hv, i, m, hm, hp, hr⟩ | ⟨hn, hr⟩
  · rw [hr]
    simp only [Prod.mk.injEq, reduceCtorEq, false_and, hv, false_or, not_not, false_iff]
    exact hp ▸ mem_map_of_mem (mem_of_getElem? hm)
  rw [hr]
  simp only [true_iff]
  by_cases hv : c.valid = true
  · exact .inr (hn hv)
  · exact .inl (by simpa using hv)

theorem not_alive_of_deleted (h : Windowed d) {c : QueueCursor}
    (hd : (Messages.deleted d c).1 = true) : ¬ Alive (Messages.deleted d c).2 c.position := by
  simp only [Messages.deleted] at hd ⊢
  rcases deleted_cases h.window c with ⟨-, -, e⟩ | ⟨-, e⟩
  swap
  · simp [e] at hd
  rw [e, alive_iff]
  rintro ⟨m, hm, hp, hst⟩
  obtain ⟨x, -, rfl⟩ := mem_map.1 (mem_of_mem_clean hm)
  split at hst
  · exact hst rfl
  · rename_i hx
    rw [if_neg hx] at hp
    exact hx hp

end MessageDeque

namespace PriorityQueue

open IndexedDeque

/-- The indexes are together, and there is a level. -/
structure Sound (q : PriorityQueue) : Prop where
  wf : Wf q
  levels_pos : 0 < q.levels

variable {f f' : Feed PriorityQueue}

variable {q : PriorityQueue}

theorem alive_iff {p : SequenceNumber} :
    Alive q p ↔ ∃ (a : Nat) (b : Body), q.bodies[a]? = some b ∧ b.message.sequence = p ∧
      b.message.state ≠ .deleted := by
  constructor
  · rintro ⟨(a : Nat), m, hm, h⟩
    obtain ⟨b, hb, rfl⟩ : ∃ b, q.bodies[a]? = some b ∧ b.message = m := by
      simpa [Messages.get, Bodies.get] using hm
    exact ⟨a, b, hb, h⟩
  · rintro ⟨a, b, hb, h⟩
    exact ⟨(a : Nat), b.message, by simp [Messages.get, Bodies.get, hb], h⟩

instance (q : PriorityQueue) (p : SequenceNumber) : Decidable (Alive q p) :=
  decidable_of_iff' (∃ b ∈ q.bodies, b.message.sequence = p ∧ b.message.state ≠ .deleted) <| by
    rw [alive_iff]
    exact ⟨fun ⟨a, b, hb, h⟩ => ⟨b, mem_of_getElem? hb, h⟩, fun ⟨b, hb, h⟩ =>
      let ⟨a, ha⟩ := mem_iff_getElem?.1 hb
      ⟨a, b, ha, h⟩⟩

theorem alive_of_modify {s' : Bodies} {a : Nat} {g : Message → Message} {p : SequenceNumber}
    (hq : ∀ m, (g m).sequence = m.sequence)
    (hg : ∀ b ∈ q.bodies[a]?, b.message.state = .deleted → (g b.message).state = .deleted)
    (hs : s' = q.bodies.modify (some a) g)
    (h : ∃ (c : Nat) (b : Body), s'[c]? = some b ∧ b.message.sequence = p ∧ b.message.state ≠ .deleted) :
    Alive q p := by
  obtain ⟨c, b, hb, hp, hst⟩ := h
  rw [hs] at hb
  obtain ⟨b0, hb0, rfl⟩ := getElem?_modify_iff.1 hb
  refine alive_iff.2 ⟨c, b0, hb0, ?_⟩
  split at hp
  · rename_i hac
    subst hac
    rw [if_pos rfl] at hst
    exact ⟨by rw [← hp, hq], fun e => hst (hg b0 hb0 e)⟩
  · rename_i hac
    rw [if_neg hac] at hst
    exact ⟨hp, hst⟩

theorem Sound.step {op : Feed.Op} (h : Sound f.messages) (hop : InHalf f op) (ht : f.step op = some f') :
    Sound f'.messages ∧ ∀ p, Alive f'.messages p →
      Alive f.messages p ∨ ∃ m, op = .publish m ∧ m.sequence = p := by
  obtain ⟨hw, hl⟩ := h
  cases op with
  | subscribe =>
    cases ht
    exact ⟨⟨hw, hl⟩, fun p => .inl⟩
  | publish m =>
    have hw' := hw.publish hl hop
    obtain ⟨d, id, lg, fg, -, -, -, -, -, -, -, e⟩ := hw.publish_eq hl hop
    simp only [Feed.step, Messages.publish] at ht
    rw [e] at ht hw'
    cases ht
    refine ⟨⟨hw', hl⟩, fun p ha => ?_⟩
    obtain ⟨a, b, hb, hp, hst⟩ := alive_iff.1 ha
    rcases getElem?_append_body hb with hb | ⟨-, rfl⟩
    · exact .inl (alive_iff.2 ⟨a, b, hb, hp, hst⟩)
    · exact .inr ⟨m, rfl, hp⟩
  | deleted c =>
    have hw' := hw.deleted c
    cases ht
    simp only [Messages.deleted]
    rcases hw.deleted_cases c with ⟨-, i, ptr, a, b, -, -, -, -, e⟩ | e
    · rw [e] at hw' ⊢
      exact ⟨⟨hw', hl⟩, fun p ha => .inl (alive_of_modify (g := (Message.setState · .deleted)) (fun _ => rfl)
        (fun _ _ _ => rfl) rfl (alive_iff.1 ha))⟩
    · rw [e]
      exact ⟨⟨hw, hl⟩, fun p => .inl⟩
  | release c =>
    simp only [Feed.step, Messages.release, map_eq_some_iff] at ht
    obtain ⟨⟨r, q'⟩, hr, rfl⟩ := ht
    have hw' := hw.release hr
    rcases hw.release_cases c with ⟨-, a, b, hb, -, hst, e⟩ | ⟨-, -, e⟩ | ⟨-, e⟩ <;> rw [hr] at e
    · obtain ⟨rfl, rfl⟩ : r = some a ∧ q' = _ := by simpa using e
      refine ⟨⟨hw', hl⟩, fun p ha => .inl (alive_of_modify (g := (Message.setState · .available)) (fun _ => rfl)
        (fun b' hb' hd => ?_) rfl (alive_iff.1 ha))⟩
      cases hb.symm.trans hb'
      exact absurd hd hst
    · simp at e
    · obtain ⟨rfl, rfl⟩ : r = none ∧ q' = f.messages := by simpa using e
      exact ⟨⟨hw, hl⟩, fun p => .inl⟩
  | acquire p =>
    simp only [Feed.step] at ht
    split at ht
    · cases ht
      refine ⟨⟨hw.modify_found acquire_sequence acquire_state, hl⟩, fun p ha => .inl ?_⟩
      exact alive_of_modify acquire_sequence (fun b _ hd => (acquire_state b.message).2 hd) rfl (alive_iff.1 ha)
    · cases ht
      exact ⟨⟨hw, hl⟩, fun p => .inl⟩
  | next k =>
    simp only [Feed.step, map_eq_some_iff, Messages.next] at ht
    obtain ⟨c, -, rfl⟩ := ht
    obtain ⟨xs, fs, hf⟩ := next_frame f.messages c
    simp only [hf]
    exact ⟨⟨hw.contexts xs fs, hl⟩, fun p => .inl⟩

theorem refuses_iff (h : Wf q) {c : QueueCursor} (ha : ¬ Alive q c.position) :
    Refuses q c ↔ (c.valid = false ∨ ∀ x ∈ q.fifo.messages, getSequence q.bodies x ≠ c.position) := by
  have hmem : (∀ x ∈ q.fifo.messages, getSequence q.bodies x ≠ c.position) ↔
      c.position ∉ q.fifo.seqs q.bodies := by
    simp [seqs]
  rw [hmem, Refuses]
  simp only [Messages.release]
  rcases h.release_cases c with ⟨-, a, b, hb, hp, hst, -⟩ | ⟨hv, ⟨ptr, hm, -, hp⟩, e⟩ | ⟨hn, e⟩
  · exact absurd (alive_iff.2 ⟨a, b, hb, hp, hst⟩) ha
  · rw [e]
    simp only [reduceCtorEq, hv, false_or, not_not, false_iff]
    rw [h.seqs_fifo]
    exact hp ▸ mem_map_of_mem hm
  rw [e]
  simp only [true_iff]
  by_cases hv : c.valid = true
  · exact .inr (hn hv)
  · exact .inl (by simpa using hv)

theorem not_alive_of_deleted (h : Wf q) {c : QueueCursor}
    (hd : (Messages.deleted q c).1 = true) : ¬ Alive (Messages.deleted q c).2 c.position := by
  simp only [Messages.deleted] at hd ⊢
  rcases h.deleted_cases c with ⟨-, i, ptr, a, b, hptr, ha, hb, hp, e⟩ | e
  swap
  · simp [e] at hd
  rw [e, alive_iff]
  rintro ⟨a', b', hb', hp', hst'⟩
  rcases getElem?_setState_deleted hb' with ⟨-, hd'⟩ | ⟨hne, hb'⟩
  · exact hst' hd'
  · obtain ⟨b0, hb0, hst, -⟩ := h.pointer ptr (mem_of_getElem? hptr) a ha
    cases hb.symm.trans hb0
    exact hne (h.sequence_inj hb' hb hst' hst (hp'.trans hp.symm))

end PriorityQueue

/-- In every state a run reaches, `release` at the position of a message that
is not there refuses exactly if no record is held there any more; and in every
run that releases no deleted record still held, a message that is deleted
stays so, until its number is published again. -/
theorem stays_deleted (ops : List Feed.Op) (n : Nat) (hn : 0 < n) :
    (∀ f, Run Feed.step MessageDeque.InHalf { messages := ({} : MessageDeque) } ops f →
      (∀ c, ¬ Alive f.messages c.position → (Refuses f.messages c ↔
        (c.valid = false ∨ ∀ x ∈ f.messages.messages, x.sequence ≠ c.position))) ∧
      (∀ c, (Messages.deleted f.messages c).1 = true → ¬ Alive (Messages.deleted f.messages c).2 c.position) ∧
      ∀ p ops' f', ¬ Alive f.messages p →
        Run Feed.step (fun g op => MessageDeque.InHalf g op ∧ MessageDeque.SparesDeleted g op ∧
          ∀ m, op = .publish m → m.sequence ≠ p) f ops' f' → ¬ Alive f'.messages p) ∧
    (∀ f, Run Feed.step PriorityQueue.InHalf { messages := PriorityQueue.new n } ops f →
      (∀ c, ¬ Alive f.messages c.position → (Refuses f.messages c ↔
        (c.valid = false ∨ ∀ x ∈ f.messages.fifo.messages, getSequence f.messages.bodies x ≠ c.position))) ∧
      (∀ c, (Messages.deleted f.messages c).1 = true → ¬ Alive (Messages.deleted f.messages c).2 c.position) ∧
      ∀ p ops' f', ¬ Alive f.messages p →
        Run Feed.step (fun g op => PriorityQueue.InHalf g op ∧ ∀ m, op = .publish m →
          m.sequence ≠ p) f ops' f' →
          ¬ Alive f'.messages p) := by
  constructor
  · intro f hr
    have hw : MessageDeque.Windowed f.messages :=
      hr.keep (I := fun f => MessageDeque.Windowed f.messages) (fun h hop ht => h.step hop ht) windowed_empty
    refine ⟨fun c _ => refuses_iff hw c, fun c => not_alive_of_deleted hw, ?_⟩
    intro p ops' f' hp hr'
    refine (hr'.keep (I := fun g => MessageDeque.Windowed g.messages ∧ ¬ Alive g.messages p) ?_ ⟨hw, hp⟩).2
    rintro g op g' ⟨hg, hna⟩ ⟨hop, hsp, hpub⟩ ht
    refine ⟨hg.step hop ht, fun ha => ?_⟩
    rcases alive_of_step hg hop hsp ht ha with ha | ⟨m, e, hm⟩
    · exact hna ha
    · exact hpub m e hm
  intro f hr
  have hs : PriorityQueue.Sound f.messages :=
    hr.keep (I := fun f => PriorityQueue.Sound f.messages) (fun h hop ht => (h.step hop ht).1)
      ⟨PriorityQueue.wf_new n, hn⟩
  refine ⟨fun c => PriorityQueue.refuses_iff hs.wf, fun c => PriorityQueue.not_alive_of_deleted hs.wf, ?_⟩
  intro p ops' f' hp hr'
  refine (hr'.keep (I := fun g => PriorityQueue.Sound g.messages ∧ ¬ Alive g.messages p) ?_ ⟨hs, hp⟩).2
  rintro g op g' ⟨hg, hna⟩ ⟨hop, hpub⟩ ht
  obtain ⟨hg', hal⟩ := hg.step hop ht
  refine ⟨hg', fun ha => ?_⟩
  rcases hal p ha with ha | ⟨m, e, hm⟩
  · exact hna ha
  · exact hpub m e hm

/-- Two messages are published and the second deleted, which leaves its record
behind the first. -/
def deletedBehind : List Feed.Op :=
  [.publish { sequence := 1 }, .publish { sequence := 2 }, .deleted { position := 2, valid := true }]

theorem stays_deleted_behind :
    (∃ f, Run Feed.step MessageDeque.InHalf { messages := ({} : MessageDeque) } deletedBehind f ∧
      ¬ Alive f.messages 2 ∧ ¬ Refuses f.messages { position := 2, valid := true } ∧
      Refuses f.messages { position := 3, valid := true }) ∧
    (∃ f, Run Feed.step PriorityQueue.InHalf { messages := PriorityQueue.new 10 } deletedBehind f ∧
      ¬ Alive f.messages 2 ∧ ¬ Refuses f.messages { position := 2, valid := true } ∧
      Refuses f.messages { position := 3, valid := true }) := by
  constructor
  · refine exists_run (Q := fun f => f.messages.messages = [{ sequence := 1, state := .available },
        { sequence := 2, state := .deleted }]) (by decide +kernel) fun f hf hb => ⟨hf, ?_⟩
    obtain ⟨hr, -, -⟩ := (stays_deleted deletedBehind 10 (by decide)).1 f hf
    have ha : ∀ p : SequenceNumber, p = 2 ∨ p = 3 → ¬ Alive f.messages p := by
      rintro p (rfl | rfl) <;> simp [alive_iff, hb]
    refine ⟨ha 2 (.inl rfl), ?_, ?_⟩
    · rw [hr _ (ha 2 (.inl rfl)), hb]; decide
    · rw [hr _ (ha 3 (.inr rfl)), hb]; decide
  refine exists_run (Q := fun f => f.messages.fifo.messages = [⟨some 0, 1⟩, ⟨none, 2⟩] ∧ f.messages.bodies =
      [⟨{ sequence := 1, state := .available }, 0⟩, ⟨{ sequence := 2, state := .deleted }, 0⟩])
    (by decide +kernel) fun f hf hb => ⟨hf, ?_⟩
  obtain ⟨hr, -, -⟩ := (stays_deleted deletedBehind 10 (by decide)).2 f hf
  have ha : ∀ p : SequenceNumber, p = 2 ∨ p = 3 → ¬ Alive f.messages p := by
    rintro p (rfl | rfl) ⟨(a : Nat), m, hm, h⟩
    all_goals
      simp only [Messages.get, hb.2] at hm
      rcases a with _ | _ | a <;> simp [Bodies.get] at hm <;> subst hm <;> simp at h
  refine ⟨ha 2 (.inl rfl), ?_, ?_⟩
  · rw [hr _ (ha 2 (.inl rfl)), hb.1, hb.2]; decide
  · rw [hr _ (ha 3 (.inr rfl)), hb.1, hb.2]; decide

/-- A deque makes the deleted message available again, and a priority queue
follows a null pointer. -/
theorem release_revives_deleted :
    (∃ f, Run Feed.step MessageDeque.InHalf { messages := ({} : MessageDeque) } deletedBehind f ∧
      ¬ Alive f.messages 2 ∧
      ∃ q, Messages.release f.messages { position := 2, valid := true } = some (some (1 : Nat), q) ∧
        q.messages[1]? = some { sequence := 2, state := .available }) ∧
    (∃ f, Run Feed.step PriorityQueue.InHalf { messages := PriorityQueue.new 10 } deletedBehind f ∧
      ¬ Alive f.messages 2 ∧ Messages.release f.messages { position := 2, valid := true } = none) := by
  constructor
  · refine exists_run (Q := fun f => f.messages = { messages := [{ sequence := 1, state := .available },
        { sequence := 2, state := .deleted }] }) (by decide +kernel) fun f hf hb => ⟨hf, ?_⟩
    rw [hb]
    exact ⟨by decide, _, rfl, rfl⟩
  · refine exists_run (Q := fun f => ¬ Alive f.messages 2 ∧
        (Messages.release f.messages { position := 2, valid := true }).isNone) (by decide +kernel)
      fun f hf hb => ⟨hf, hb.1, isNone_iff_eq_none.1 hb.2⟩

end QB.Impl
