import QpidBroker.Framework.Run
import QpidBroker.Framework.Serial
import QpidBroker.Spec.QueueReplicator

/-!
# Replication ids and their bookkeeping

No two messages on a queue have the same id, through the life of its broker as a backup and as
the primary (`Life.Kept`); and the two ends of a replicated queue remember of the messages that
are gone only what is pending, as long as nothing is pending at a dispatch (`Replication.Quiet`).
-/

namespace QB.Spec.Ha

open QB.Impl QB.Impl.Ha Serial List

/-! ## Ids are unique -/

namespace Life

/-- The ids are unique, and those on the primary are behind the next. -/
structure Kept (s : Life) : Prop where
  nodup : s.queue.ids.Nodup
  behind : ∀ next, s.role = .primary next → ∀ id ∈ s.queue.ids, 0 < dist id next ∧
    dist id next ≤ 2 ^ 31 + s.recorded

end Life

theorem ids_deliver (q : IdQueue) (id : ReplicationId) : (q.deliver id).ids = q.ids ++ [id] := map_append

theorem nodup_deliver {q : IdQueue} {id : ReplicationId} (h : q.ids.Nodup) (hid : id ∉ q.ids) :
    (q.deliver id).ids.Nodup := by
  rw [ids_deliver]
  exact h.append (nodup_singleton id) (disjoint_singleton.2 hid)

theorem ids_dequeueMessageAt (q : IdQueue) (p : SequenceNumber) : (q.dequeueMessageAt p).ids <+ q.ids :=
  filter_sublist.map _

theorem ids_dequeueEvent (r : QueueReplicator) (q : IdQueue) (ids : List ReplicationId) :
    (r.dequeueEvent q ids).ids <+ q.ids := by
  induction ids generalizing q with
  | nil => exact Sublist.refl _
  | cons id ids ih =>
    refine (ih _).trans ?_
    dsimp only
    split
    · exact ids_dequeueMessageAt q _
    · exact Sublist.refl _

namespace Life

variable {s t : Life}

theorem Kept.sub (h : Kept s) (hids : t.queue.ids <+ s.queue.ids) (hrole : t.role = s.role)
    (hrec : t.recorded = s.recorded) : Kept t :=
  ⟨h.nodup.sublist hids, fun next ht id hid => hrec ▸ h.behind next (hrole ▸ ht) id (hids.subset hid)⟩

theorem Kept.of_backup {r : QueueReplicator} (hrole : s.role = .backup r) (h : s.queue.ids.Nodup) : Kept s :=
  ⟨h, fun next hs => by rw [hrole] at hs; cases hs⟩

theorem Kept.promote (h : Kept s) {r : QueueReplicator} (hle : ∀ id ∈ s.queue.ids, id.le r.maxId = true) :
    Kept { s with role := .primary r.promoted, recorded := 0 } := by
  refine ⟨h.nodup, fun next hnext id hid => ?_⟩
  obtain rfl : r.promoted = next := by simpa using hnext
  have hdist := hle id hid
  simp only [SequenceNumber.le, SequenceNumber.lt, SequenceNumber.sub, Bool.not_eq_true', decide_eq_false_iff_not,
    toInt_sub_neg_iff] at hdist
  rw [QueueReplicator.promoted, dist_add_one (by omega)]
  omega

theorem Kept.publish (h : Kept s) {id : ReplicationId} (hrole : s.role = .primary id) (hlt : s.recorded + 1 < 2 ^ 31) :
    Kept ⟨.primary (id + 1), s.queue.deliver id, s.recorded + 1⟩ := by
  have hb := h.behind id hrole
  refine ⟨nodup_deliver h.nodup fun hid => ?_, fun next hnext x hx => ?_⟩
  · have := (hb id hid).1
    rw [dist_self] at this
    omega
  obtain rfl : id + 1 = next := by simpa using hnext
  rw [ids_deliver, mem_append, mem_singleton] at hx
  have hdist : dist x id ≤ 2 ^ 31 + s.recorded := by
    rcases hx with hx | rfl
    · exact (hb x hx).2
    · rw [dist_self]
      omega
  rw [dist_add_one (by omega)]
  simp only
  omega

theorem Kept.step (h : Kept s) {op : LifeOp} (hok : s.Ok op = true) (hstep : s.step op = some t) : Kept t := by
  obtain ⟨role, q, n⟩ := s
  cases op <;> cases role <;> cases hstep
  case replicated.backup e r =>
    refine .of_backup rfl ?_
    cases e with
    | id id => exact h.nodup
    | dequeue ids => exact h.nodup.sublist (ids_dequeueEvent r q ids)
    | message => exact nodup_deliver h.nodup (by simpa [Ok] using hok)
  case transactional.backup id r => exact .of_backup rfl (nodup_deliver h.nodup (by simpa [Ok] using hok))
  case promote.backup r => exact h.promote (all_eq_true.1 hok)
  case publish.primary id => exact h.publish rfl (of_decide_eq_true hok)
  case dequeue.backup p r => exact h.sub (ids_dequeueMessageAt q p) rfl rfl
  case dequeue.primary p id => exact h.sub (ids_dequeueMessageAt q p) rfl rfl
  case demote.primary id => exact .of_backup rfl h.nodup

end Life

/-- In every history whose steps meet the condition, no two messages on the queue have the same id. -/
theorem replication_ids_unique {ops : List LifeOp} {s : Life} (h : Run Life.step (fun s op => s.Ok op) {} ops s) :
    s.queue.ids.Nodup :=
  (h.keep (I := Life.Kept) (fun hs hok hstep => hs.step hok hstep) (.of_backup rfl nodup_nil)).nodup

/-- A plain and a transactional message; promoted, one more; demoted when they are gone, promoted again. -/
theorem replication_ids_unique_twice : ∃ s, Run Life.step (fun s op => s.Ok op) {}
      [.replicated (.id 7), .replicated .message,
      .transactional 3, .promote, .publish, .dequeue 1, .dequeue 2, .dequeue 3, .demote, .promote,
      .publish, .publish] s ∧
    s.queue.ids = [1, 2] ∧ s.queue.ids.Nodup :=
  exists_run (by decide +kernel) fun _ hrun hids => ⟨hrun, hids, replication_ids_unique hrun⟩

/-- The maximum does not see the ids of transactions, and a replicator that takes over a queue does
not see those that are on it. -/
theorem replication_ids_collide :
    (exec Life.step (fun _ _ => True) {} [.transactional 1, .promote, .publish]).map (·.queue.ids) = some [1, 1] ∧
      (exec Life.step (fun _ _ => True) {} [.replicated (.id 1), .replicated .message, .promote, .demote, .promote,
        .publish]).map (·.queue.ids) = some [1, 1] := by
  decide +kernel

/-! ## What is remembered of messages that are gone -/

namespace Replication

variable {s t : Replication}

/-- No dequeue event is sent: what was dequeued is what is pending. -/
structure Quiet (s : Replication) : Prop where
  pending : ∀ id ∈ s.subscription.dequeues, id ∈ s.recent
  positions : ∀ e ∈ s.replicator.positions, e.1 ∈ s.backup.ids
  nodup : s.subscription.dequeues.Nodup
  gone : ∀ id, id ∈ s.subscription.dequeues ↔ id ∈ s.gone
  sent : s.sent = []
  channel : ∀ ids, .dequeue ids ∉ s.channel

theorem Quiet.bounded (h : Quiet s) : Bounded s := by
  refine ⟨fun id => ?_, h.pending, h.positions⟩
  rw [h.sent, countP_nil, Nat.zero_add]
  by_cases hid : id ∈ s.gone
  · rw [if_pos hid, count_eq_one_of_mem h.nodup ((h.gone id).2 hid)]
  · rw [if_neg hid, count_eq_zero.2 (mt (h.gone id).1 hid)]

theorem deliver_dequeues (r : ReplicatingSubscription) (id : ReplicationId) :
    (r.deliver id).1.dequeues = r.dequeues ∧ ∀ ids, .dequeue ids ∉ (r.deliver id).2 := by
  unfold ReplicatingSubscription.deliver
  split <;> simp

theorem deliver_frame (s : Replication) :
    s.deliver.subscription.dequeues = s.subscription.dequeues ∧ s.deliver.recent = s.recent := by
  unfold deliver
  split
  · exact ⟨rfl, rfl⟩
  · exact ⟨(deliver_dequeues ..).1, rfl⟩

theorem positions_route {r : QueueReplicator} {q : IdQueue} {e : ReplicationEvent} (he : ∀ ids, e ≠ .dequeue ids)
    (h : ∀ e ∈ r.positions, e.1 ∈ q.ids) : ∀ p ∈ (r.route q e).1.positions, p.1 ∈ (r.route q e).2.ids := by
  cases e with
  | id id => exact h
  | dequeue ids => exact absurd rfl (he ids)
  | message =>
    intro p hp
    simp only [QueueReplicator.route, mem_cons, mem_filter] at hp ⊢
    rw [ids_deliver, mem_append, mem_singleton]
    rcases hp with rfl | hp
    · exact .inr rfl
    · exact .inl (h p hp.1)

theorem Quiet.step (h : Quiet s) {op : ReplicationOp} (hok : s.Ok op) (hstep : s.step op = some t) : Quiet t := by
  obtain ⟨hpen, hpos, hnodup, hgone, hsent, hch⟩ := h
  cases op with
  | enqueue id => cases hstep; exact ⟨hpen, hpos, hnodup, hgone, hsent, hch⟩
  | addSkip ids => cases hstep; exact ⟨hpen, hpos, hnodup, hgone, hsent, hch⟩
  | dequeue id =>
    obtain ⟨-, ht⟩ := Option.ite_none_right_eq_some.1 hstep
    cases ht
    refine ⟨fun x hx => ?_, hpos, hnodup.insert, fun x => ?_, hsent, hch⟩
    · rcases mem_insert_iff.1 hx with rfl | hx
      · exact mem_cons_self ..
      · exact mem_cons_of_mem _ (hpen x hx)
    · exact mem_insert_iff.trans ((or_congr_right (hgone x)).trans mem_cons.symm)
  | dispatch =>
    have hquiet : s.sendDequeues = s := by simp [sendDequeues, ReplicatingSubscription.sendDequeueEvent, hok rfl]
    cases hstep
    rw [hquiet, deliver]
    split
    · exact ⟨hpen, hpos, hnodup, hgone, hsent, hch⟩
    · next id rest _ =>
      obtain ⟨hd, he⟩ := deliver_dequeues s.subscription id
      exact ⟨by simpa only [hd] using hpen, hpos, by simpa only [hd] using hnodup, by simpa only [hd] using hgone,
        hsent, fun ids hm => (mem_append.1 hm).elim (hch ids) (he ids)⟩
  | receive =>
    simp only [Replication.step] at hstep
    split at hstep
    · cases hstep
    · next e rest hc =>
      cases hstep
      rw [hc] at hch
      exact ⟨hpen, positions_route (fun ids he => hch ids (he ▸ mem_cons_self ..)) hpos, hnodup, hgone, hsent,
        fun ids hm => hch ids (mem_cons_of_mem _ hm)⟩

end Replication

/-- In every run in which nothing is pending at a dispatch what is remembered is bounded; and after
such a run a step keeps it so just if it is not a dispatch with something pending. -/
theorem bookkeeping_bounded {ops : List ReplicationOp} {s : Replication}
    (h : Run Replication.step Replication.Ok {} ops s) : s.Bounded ∧
      ∀ op t, s.step op = some t → (t.Bounded ↔ s.Ok op) := by
  have hq : s.Quiet := h.keep (I := Replication.Quiet) (fun hs hok hstep => hs.step hok hstep)
    ⟨by simp, by simp, nodup_nil, by simp, rfl, by simp⟩
  refine ⟨hq.bounded, fun op t hstep => ⟨fun ht hop => ?_, fun hok => (hq.step hok hstep).bounded⟩⟩
  subst hop
  cases hstep
  obtain ⟨hd, hr⟩ := Replication.deliver_frame s.sendDequeues
  by_contra hne
  obtain ⟨id, ids, hids⟩ := exists_cons_of_ne_nil hne
  have hp := ht.pending id
  -- the event is sent, and what was in it is still pending
  rw [hd, hr] at hp
  simp [Replication.sendDequeues, ReplicatingSubscription.sendDequeueEvent, hids] at hp

/-- Two messages are replicated, one of them is dequeued on the primary. -/
theorem bookkeeping_bounded_two : ∃ s, Run Replication.step Replication.Ok {}
      [.enqueue 1, .dispatch, .enqueue 2, .dispatch, .receive, .receive, .receive, .receive, .dequeue 1] s ∧
    s.subscription.dequeues = [1] ∧ s.backup.ids = [1, 2] ∧ s.Bounded :=
  exists_run (Q := fun s => s.subscription.dequeues = [1] ∧ s.backup.ids = [1, 2]) (by decide +kernel)
    fun _ hrun hs =>
    ⟨hrun, hs.1, hs.2, (bookkeeping_bounded hrun).1⟩

/-- A message is replicated and dequeued: each dispatch sends its id again, and both ends remember it
for ever. -/
theorem bookkeeping_grows : (exec Replication.step (fun _ _ => True) {} [.enqueue 1, .dispatch, .receive, .receive,
    .dequeue 1, .dispatch, .dispatch, .receive, .receive]).any (fun s => s.sent = [[1], [1]] ∧
      s.subscription.dequeues = [1] ∧ s.recent = [] ∧ s.replicator.positions = [(1, 1)] ∧
      s.backup.ids = []) = true := by
  decide +kernel

end QB.Spec.Ha
