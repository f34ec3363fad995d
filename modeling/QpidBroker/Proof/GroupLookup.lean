import QpidBroker.Proof.MessageGroupManager
import QpidBroker.Spec.MessageGroups

/-!
# The group of a message is found

Whatever the manager is told, its groups stay in its index, and the one that is cached is the last
that was looked up (`Indexed`): each call keeps that, of any message. So the cache leads astray
just where a message has the number of the last and another group (`finds_iff`).
-/

namespace QB.Impl.MessageGroupManager

open QB.Spec QB.Spec.GroupQueue Option

variable {mgr : MessageGroupManager} {m : Message} {a : Nat} {g : GroupState} {p : SequenceNumber} {o : Option Nat}

theorem deref_ok (h : mgr.deref a = .ok g) : mgr.groups a = some g := by
  unfold deref at h
  split at h
  · rename_i hg
    rw [hg, Except.ok.inj h]
  · cases h

theorem Indexed.not_known (h : Indexed mgr) {group : String} (hnone : mgr.messageGroups group = none) (b : Nat)
    (g : GroupState) (hb : mgr.groups b = some g) : g.group ≠ group := fun e =>
  h.index.eq_none_iff.1 hnone b (by rw [hb, map_some, e])

theorem Indexed.setFree (h : Indexed mgr) : Indexed (mgr.setFree p o) := ⟨h.index, h.fresh, h.cache⟩

/-- The lookup caches what it finds, or the group it makes. -/
theorem Indexed.lookup (h : Indexed mgr) (m : Message) : Indexed (mgr.lookup m.sequence (mgr.groupOf m)).2 ∧
      (mgr.lookup m.sequence (mgr.groupOf m)).2.cachedGroup = some (mgr.lookup m.sequence (mgr.groupOf m)).1 := by
  cases hindex : mgr.messageGroups (mgr.groupOf m) with
  | some b =>
    obtain ⟨g, hb, hg⟩ := map_eq_some_iff.1 ((h.index _ _).1 hindex)
    rw [lookup_known h hb hg]
    exact ⟨h.cached hb hg, rfl⟩
  | none =>
    have hnew := (h.create (h.not_known hindex)).setGroup (Function.update_self ..) { group := mgr.groupOf m } rfl
    simp only [MessageGroupManager.setGroup, MessageGroupManager.create, Function.update_idem] at hnew
    rw [MessageGroupManager.lookup, hindex]
    exact ⟨⟨hnew.index, hnew.fresh, hnew.cache⟩, rfl⟩

/-- The group that is found is the one that is cached. -/
theorem Indexed.findGroup (h : Indexed mgr) (m : Message) :
    Indexed (mgr.findGroup m).2 ∧ (mgr.findGroup m).2.cachedGroup = some (mgr.findGroup m).1 := by
  unfold MessageGroupManager.findGroup
  cases hcac : mgr.cachedGroup with
  | none => exact h.lookup m
  | some b =>
    split_ifs
    · exact ⟨h, hcac⟩
    · exact ⟨⟨h.index, h.fresh, fun a ha => h.cache a (hcac.trans ha)⟩, rfl⟩
    · exact h.lookup m

/-- The cache leads to the right group exactly if it fits. -/
theorem Indexed.finds_iff (h : Indexed mgr) : Finds mgr m ↔ CacheFits mgr m := by
  constructor
  · intro hfinds hc hlast
    obtain ⟨b, hb⟩ := isSome_iff_exists.1 hc
    have hfound : mgr.findGroup m = (b, mgr) := by
      unfold MessageGroupManager.findGroup
      rw [hb]
      exact if_pos hlast
    rw [Finds, hfound] at hfinds
    exact Option.some.inj (((h.index _ _).1 hfinds.1).symm.trans (h.cache b hb))
  intro hfits
  cases hindex : mgr.messageGroups (mgr.groupOf m) with
  | some b =>
    obtain ⟨g, hb, hg⟩ := map_eq_some_iff.1 ((h.index _ _).1 hindex)
    rw [Finds, findGroup_known h hfits hb hg]
    exact ⟨hindex, by rw [cached_groups, hb]; rfl⟩
  | none =>
    rw [Finds, findGroup_new h hfits (h.not_known hindex)]
    exact ⟨Function.update_self .., by simp⟩

/-! ## What the manager is told -/

theorem unFree_ok {mgr' : MessageGroupManager} (hfree : unFree a mgr = .ok mgr') :
    ∃ p, mgr' = mgr.setFree p none := by
  obtain ⟨g, -, hfree⟩ := bind_eq_ok.1 hfree
  obtain ⟨p, -, hfree⟩ := bind_eq_ok.1 hfree
  split at hfree
  · exact ⟨p, (Except.ok.inj hfree).symm⟩
  · cases hfree

section

variable (h : Indexed mgr)

include h

theorem unFree_indexed : Ensures Indexed (unFree a mgr) :=
  .bind fun _ _ => .bind fun _ _ => .ite (.ok h.setFree) .error

theorem own_indexed (owner : String) : Ensures Indexed (own a owner mgr) :=
  .bind fun _ hg => unFree_indexed (h.setGroup (deref_ok hg) _ rfl)

theorem disown_indexed : Ensures Indexed (disown a mgr) :=
  .bind fun g hg => .bind fun _ _ => .ite (.ok (h.setGroup (deref_ok hg) { g with owner := "" } rfl).setFree) .error

theorem enqueued_indexed (m : Message) : Ensures Indexed (mgr.enqueued m) := by
  obtain ⟨hfound, -⟩ := h.findGroup m
  refine .bind fun g hg => ?_
  have hset := hfound.setGroup (deref_ok hg) { g with members := g.members ++ [{ position := m.sequence }] } rfl
  exact .ite (.ite (.ok hset.setFree) .error) (.ok hset)

theorem acquired_indexed (m : Message) : Ensures Indexed (mgr.acquired m) :=
  .bind fun _ hg => .bind fun _ _ => .ok ((h.findGroup m).1.setGroup (deref_ok hg) _ rfl)

theorem requeued_indexed (m : Message) : Ensures Indexed (mgr.requeued m) := by
  refine .bind fun g hg => .ite .error (.bind fun x _ => ?_)
  have hset := (h.findGroup m).1.setGroup (deref_ok hg) { g with
    acquired := g.acquired - 1, members := g.members.set x.1 { x.2 with acquired := false } } rfl
  exact .ite (disown_indexed hset) (.ok hset)

/-- The state of a group that is dropped may not stay in the cache. -/
theorem dequeuedFrom_indexed (hc : mgr.cachedGroup = some a) (reFreeNeeded : Bool) :
    Ensures Indexed (dequeuedFrom a reFreeNeeded mgr) := by
  refine .bind fun g hg => .ite (.ok ?_) (.ite (disown_indexed h) (.ite (disown_indexed h) (.ok h)))
  have hdrop := h.drop (deref_ok hg)
  rw [if_pos hc]
  exact ⟨hdrop.index, hdrop.fresh, hdrop.cache⟩

theorem dequeued_indexed (m : Message) : Ensures Indexed (mgr.dequeued m) := by
  obtain ⟨hfound, hcac⟩ := h.findGroup m
  refine .bind fun g hg => .bind fun x _ => .ite .error ?_
  have hgroup : (if x.2.acquired then { g with acquired := g.acquired - 1 } else g).group = g.group := by split <;> rfl
  generalize (if x.2.acquired then { g with acquired := g.acquired - 1 } else g) = g1 at hgroup
  have hset := hfound.setGroup (deref_ok hg) g1 hgroup
  have hleft (members : List MessageState) := hset.setGroup (setGroup_self _) { g1 with members } rfl
  refine .ite (.ite (.bind fun mgr2 hmgr2 => ?_) (dequeuedFrom_indexed (hleft _) hcac _))
    (dequeuedFrom_indexed (hleft _) hcac _)
  obtain ⟨p, rfl⟩ := unFree_ok hmgr2
  exact dequeuedFrom_indexed (hleft _).setFree hcac _

theorem acquire_indexed (consumer : String) (m : Message) :
    Ensures (fun r => Indexed r.2.2) (mgr.acquire consumer m) := by
  obtain ⟨hfound, -⟩ := h.findGroup m
  unfold acquire
  generalize mgr.findGroup m = r at *
  obtain ⟨a, mgr1⟩ := r
  have hrest {mgr' : MessageGroupManager} (h' : Indexed mgr') : Ensures (fun r => Indexed r.2.2) (do
      let g ← mgr'.deref a
      if g.owner = consumer then pure (true, m.setState .acquired, mgr') else pure (false, m, mgr')) :=
    .bind fun _ _ => .ite (.ok h') (.ok h')
  exact .ite (.bind fun g _ => .ite (.bind fun mgr' hmgr' => hrest (own_indexed hfound consumer mgr' hmgr'))
    (hrest hfound))
    (.ok h)

end

end QB.Impl.MessageGroupManager

/-! ## Runs -/

namespace QB.Impl.GroupQueue

open QB.Spec QB.Spec.GroupQueue QB.Impl.MessageGroupManager Option

variable {C : Type} {name : C → String} {s s' : GroupQueue C} {x : Except Assertion MessageGroupManager}

theorem told_indexed (h : Indexed s.manager) (hx : Ensures Indexed x) (messages : List (Grouped C)) :
    Indexed (s.told x messages).manager := by
  cases x with
  | ok mgr => exact hx mgr rfl
  | error e => exact h

/-- Every call of the queue keeps the index. -/
theorem step_indexed {call : GroupQueue.Call C} (h : Indexed s.manager) (hs : s.step name call = some s') :
    Indexed s'.manager := by
  unfold GroupQueue.step at hs
  split at hs
  · cases hs
  cases call with
  | enqueue m =>
    cases hs
    exact told_indexed h (enqueued_indexed h _) _
  | acquire c i =>
    obtain ⟨g, -, rfl⟩ := map_eq_some_iff.1 hs
    have hacq := acquire_indexed h (name c) g.message
    unfold acquireAt
    split
    · exact h
    · rename_i hr
      exact hacq _ hr
    · rename_i hr
      exact told_indexed h (acquired_indexed (hacq _ hr) _) _
  | requeue i =>
    obtain ⟨g, -, hs⟩ := bind_eq_some_iff.1 hs
    split at hs
    · cases hs
      exact told_indexed h (requeued_indexed h _) _
    · cases hs
  | dequeue i =>
    obtain ⟨g, -, rfl⟩ := map_eq_some_iff.1 hs
    exact told_indexed h (dequeued_indexed h _) _
  | remove i =>
    obtain ⟨g, -, hs⟩ := bind_eq_some_iff.1 hs
    split at hs
    · cases hs
      refine told_indexed h (.bind fun mgr hmgr => ?_) _
      exact dequeued_indexed (acquired_indexed h _ mgr hmgr) _
    · cases hs

/-- So does a change of position. -/
theorem stepTo_indexed {e : Event C} (h : Indexed s.manager) (hs : s.stepTo name e = some s') : Indexed s'.manager := by
  cases e with
  | call call => exact step_indexed h hs
  | setPosition n =>
    rw [stepTo] at hs
    split at hs
    · cases hs
    cases hs
    split
    · refine told_indexed h (.foldlM (fun mgr g hmgr => ?_) h _) _
      exact .ite (.bind fun mgr' h' => dequeued_indexed (acquired_indexed hmgr _ mgr' h') _) (dequeued_indexed hmgr _)
    · exact h

/-- In every state that a queue reaches, rewound or not, the group of a message is found, unless the
message has the number that was last looked up, for another group. -/
theorem finds_group_iff {groupIdHeader defaultGroupId : String} {events : List (Event C)} {s : GroupQueue C}
    (h : Run (stepTo name) (fun _ _ => True) { manager := { groupIdHeader, defaultGroupId } } events s) (m : Message) :
    Finds s.manager m ↔ CacheFits s.manager m :=
  (h.keep (I := fun s => Indexed s.manager) (fun hi _ hs => stepTo_indexed hi hs) (.initial ..)).finds_iff

def ofGroup (group : String) (sequence : SequenceNumber) : Message :=
  { encoding := some { properties := [("g", group)] }, sequence }

/-- After a queue of one group was rewound, the next message of the group finds it. -/
theorem finds_group_iff_rewound : ∃ s : GroupQueue String,
    Run (stepTo id) (fun _ _ => True) { manager := { groupIdHeader := "g", defaultGroupId := "-" } }
      [.call (.enqueue (ofGroup "x" 0)), .call (.enqueue (ofGroup "x" 0)), .setPosition 1] s ∧
      s.sequence = 1 ∧ Finds s.manager (ofGroup "x" 2) := by
  exact exists_run (Q := fun s => s.sequence = 1 ∧ s.manager.groupOf (ofGroup "x" 2) = s.manager.lastGroup)
    (by decide +kernel) fun s hs h => ⟨hs, h.1, (finds_group_iff hs _).2 fun _ _ => h.2⟩

/-- A message of another group, with the number of the message that the queue was rewound over,
is counted to the group of that one. -/
theorem rewound_misses_group : ∃ s : GroupQueue String,
    Run (stepTo id) (fun _ _ => True) { manager := { groupIdHeader := "g", defaultGroupId := "-" } }
      [.call (.enqueue (ofGroup "x" 0)), .call (.enqueue (ofGroup "x" 0)), .setPosition 1] s ∧
      s.sequence = 1 ∧ ¬ Finds s.manager (ofGroup "y" 2) := by
  exact exists_run (by decide +kernel) fun s hs h => ⟨hs, h⟩

end QB.Impl.GroupQueue
