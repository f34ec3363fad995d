import QpidBroker.Framework.Inverse
import QpidBroker.Framework.Outcome
import QpidBroker.Spec.MessageGroups

/-!
# The calls of the message group manager

A sound manager (`Sound`) finds its groups by their names and the free ones by the
position of their first member, as inverse indices. On such a manager a call
replaces the state of one group and gives it its new place among the free ones
(`put`): `acquired_eq`, `requeued_eq`, `dequeued_eq`, `acquire_eq`, `enqueued_eq`,
or it drops the group with its last member (`dequeued_last`) or makes a new one
(`enqueued_new`).
-/

namespace QB.Impl.MessageGroupManager

open List Function Option Function GroupState

/-- The key of a free group. -/
def freeHead (g : GroupState) : Option SequenceNumber :=
  if g.owned then none else g.members.head?.map (·.position)

/-- The groups are found by their names, and so is the one that is cached. -/
structure Indexed (mgr : MessageGroupManager) : Prop where
  index : Inverse mgr.messageGroups fun a => (mgr.groups a).map (·.group)
  fresh : ∀ a, mgr.allocated ≤ a → mgr.groups a = none
  cache : ∀ a, mgr.cachedGroup = some a → (mgr.groups a).map (·.group) = some mgr.lastGroup

/-- The states are indexed, and the free ones are listed under their first message. -/
structure Sound (mgr : MessageGroupManager) : Prop extends Indexed mgr where
  free : Inverse mgr.freeGroups fun a => (mgr.groups a).bind freeHead

/-- The manager when the group of a message was found. -/
def cached (mgr : MessageGroupManager) (m : Message) (a : Nat) : MessageGroupManager :=
  { mgr with lastMsg := m.sequence, lastGroup := mgr.groupOf m, cachedGroup := some a }

/-- The state of a group is replaced, and its place among the free ones. -/
def put (mgr : MessageGroupManager) (a : Nat) (g g' : GroupState) : MessageGroupManager :=
  { mgr with
    groups := update mgr.groups a (some g')
    freeGroups := rekey mgr.freeGroups (freeHead g) (freeHead g') a }

variable {mgr : MessageGroupManager} {m : Message} {a : Nat} {g g' : GroupState}

@[simp] theorem cached_groups : (mgr.cached m a).groups = mgr.groups := rfl

@[simp] theorem setGroup_groups : (mgr.setGroup a g).groups = update mgr.groups a (some g) := rfl

theorem setGroup_self (mgr : MessageGroupManager) : (mgr.setGroup a g).groups a = some g := update_self ..

@[simp] theorem put_groups : (mgr.put a g g').groups = update mgr.groups a (some g') := rfl

/-! ## Soundness -/

theorem Indexed.initial (groupIdHeader defaultGroupId : String) : Indexed { groupIdHeader, defaultGroupId } :=
  ⟨fun p a => by simp, fun _ _ => rfl, fun a ha => by cases ha⟩

theorem Indexed.cached (h : Indexed mgr) (ha : mgr.groups a = some g) (hg : g.group = mgr.groupOf m) :
    Indexed (mgr.cached m a) where
  index := h.index
  fresh := h.fresh
  cache := by
    intro b hb
    cases hb
    simp [MessageGroupManager.cached, ha, hg]

theorem Sound.cached (h : Sound mgr) (ha : mgr.groups a = some g) (hg : g.group = mgr.groupOf m) :
    Sound (mgr.cached m a) :=
  ⟨h.toIndexed.cached ha hg, h.free⟩

theorem keys_update {K : Type} (key : Option GroupState → Option K) (groups : Nat → Option GroupState) (a : Nat)
    (o : Option GroupState) :
    (fun b => key (update groups a o b)) = update (fun b => key (groups b)) a (key o) :=
  comp_update key groups a o

/-- A group is known by its name, which does not change. -/
theorem Indexed.setGroup (h : Indexed mgr) (ha : mgr.groups a = some g) (g' : GroupState) (hg : g'.group = g.group) :
    Indexed (mgr.setGroup a g') where
  index := by
    have hsame : (fun b => (update mgr.groups a (some g') b).map (·.group)) =
        fun b => (mgr.groups b).map (·.group) := by
      funext b
      by_cases hb : b = a
      · subst hb
        simp [ha, hg]
      · simp [hb]
    simp only [setGroup_groups, hsame]
    exact h.index
  fresh := by
    intro b hb
    have hne : b ≠ a := fun e => by
      have := h.fresh b hb
      rw [e, ha] at this
      cases this
    rw [setGroup_groups, update_of_ne hne]
    exact h.fresh b hb
  cache := by
    intro b hb
    have := h.cache b hb
    rw [setGroup_groups]
    by_cases hba : b = a
    · subst hba
      rw [update_self, map_some, hg]
      rwa [ha] at this
    · rwa [update_of_ne hba]

/-- A group is listed as free under its first message, or not at all. -/
theorem Sound.put (h : Sound mgr) (ha : mgr.groups a = some g) (hg : g'.group = g.group)
    (hfree : ∀ p, freeHead g' = some p → ∀ b g1, b ≠ a → mgr.groups b = some g1 → freeHead g1 ≠ some p) :
    Sound (mgr.put a g g') where
  toIndexed := { h.toIndexed.setGroup ha g' hg with }
  free := by
    rw [put_groups, keys_update (·.bind freeHead)]
    have hkey : freeHead g = (mgr.groups a).bind freeHead := by simp [ha]
    simp only [MessageGroupManager.put, hkey]
    refine h.free.rekey fun p hp b hb hbp => ?_
    obtain ⟨g1, hg1, hf⟩ := bind_eq_some_iff.1 hbp
    exact hfree p hp b g1 hb hg1 hf

theorem put_same (h : Sound mgr) (ha : mgr.groups a = some g) (hf : freeHead g' = freeHead g) :
    mgr.put a g g' = mgr.setGroup a g' := by
  have hkey : freeHead g = (mgr.groups a).bind freeHead := by simp [ha]
  simp only [put, setGroup, hf]
  rw [hkey, rekey_same h.free]

/-! ## Finding the group -/

theorem deref_eq (ha : mgr.groups a = some g) : mgr.deref a = .ok g := by
  simp [deref, ha]

theorem deref_cached (ha : mgr.groups a = some g) : (mgr.cached m a).deref a = .ok g :=
  deref_eq ha

theorem lookup_known (h : Indexed mgr) (ha : mgr.groups a = some g) (hg : g.group = mgr.groupOf m) :
    mgr.lookup m.sequence (mgr.groupOf m) = (a, mgr.cached m a) := by
  have hindex : mgr.messageGroups (mgr.groupOf m) = some a := (h.index _ a).2 (by simp [ha, hg])
  have hname : (mgr.groups a).map (fun g => if g.group = "" then { g with group := mgr.groupOf m } else g) =
      mgr.groups a := by
    rw [ha, map_some, ← hg]
    split <;> rfl
  simp only [lookup, hindex, hname, update_eq_self]
  rfl

/-- A group that is known is found, by the cache or the index. -/
theorem findGroup_known (h : Indexed mgr) (hc : CacheFits mgr m) (ha : mgr.groups a = some g)
    (hg : g.group = mgr.groupOf m) : mgr.findGroup m = (a, mgr.cached m a) := by
  unfold findGroup
  cases hcac : mgr.cachedGroup with
  | none => exact lookup_known h ha hg
  | some b =>
    -- What is cached under the name of the group is the group.
    have hsame : mgr.groupOf m = mgr.lastGroup → b = a := fun e =>
      h.index.injective (h.cache b hcac) (by simp [ha, hg, e])
    dsimp only
    split
    · rename_i hlast
      have e := hc (by simp [hcac]) hlast
      rw [hsame e] at hcac ⊢
      simp [MessageGroupManager.cached, ← hlast, e, ← hcac]
    split
    · rename_i e
      rw [hsame e] at hcac ⊢
      simp [MessageGroupManager.cached, e]
    · exact lookup_known h ha hg

/-! ## Members -/

section

variable {before after : List MessageState} {x : MessageState}

/-- The search for a member finds it behind those of lower numbers. -/
theorem member_eq (hm : g.members = before ++ x :: after)
    (hlt : ∀ y ∈ before, SequenceNumber.lt y.position x.position = true) :
    member g x.position = .ok (before.length, x) := by
  have hidx : g.members.findIdx (fun y => !SequenceNumber.lt y.position x.position) = before.length := by
    have hself : SequenceNumber.lt x.position x.position = false := by simp [SequenceNumber.lt, SequenceNumber.sub]
    rw [hm, findIdx_append, findIdx_eq_length_of_false (by simpa using hlt)]
    simp [findIdx_cons, hself]
  have hget : g.members[before.length]? = some x := by simp [hm]
  simp only [member, findMsg, hidx, hget, if_true, bind, Except.bind]
  rfl

theorem freeHead_congr (howner : g'.owner = g.owner)
    (hhead : g'.members.head?.map (·.position) = g.members.head?.map (·.position)) : freeHead g' = freeHead g := by
  unfold freeHead owned
  rw [howner, hhead]

variable {p : SequenceNumber} {y : MessageState} {rest : List MessageState} {count : BitVec 32}

theorem disown_eq (ha : mgr.groups a = some g) (hp : g.members.head?.map (·.position) = some p)
    (hnone : mgr.freeGroups p = none) :
    disown a mgr = .ok ((mgr.setGroup a { g with owner := "" }).setFree p (some a)) := by
  obtain ⟨y, rest, hmem, rfl⟩ : ∃ y rest, g.members = y :: rest ∧ y.position = p := by
    cases hg : g.members with
    | nil => simp [hg] at hp
    | cons y rest => exact ⟨y, rest, rfl, by simpa [hg] using hp⟩
  simp only [disown, deref_eq ha, front, hmem, bind, Except.bind]
  exact if_pos hnone

theorem unFree_eq (ha : mgr.groups a = some g) (hp : g.members.head?.map (·.position) = some p)
    (hfree : mgr.freeGroups p = some a) : unFree a mgr = .ok (mgr.setFree p none) := by
  obtain ⟨y, rest, hmem, rfl⟩ : ∃ y rest, g.members = y :: rest ∧ y.position = p := by
    cases hg : g.members with
    | nil => simp [hg] at hp
    | cons y rest => exact ⟨y, rest, rfl, by simpa [hg] using hp⟩
  simp only [unFree, deref_eq ha, front, hmem, bind, Except.bind]
  exact if_pos hfree

theorem freeHead_owned (h : g.owner ≠ "") : freeHead g = none := by
  simp [freeHead, owned, h]

theorem freeHead_free (h : g.owner = "") : freeHead g = g.members.head?.map (·.position) := by
  simp [freeHead, owned, h]

theorem setGroup_setGroup : (mgr.setGroup a g).setGroup a g' = mgr.setGroup a g' := by
  simp [setGroup]

theorem Sound.freeGroups_eq_none (h : Sound mgr)
    (hp : ∀ b g1, mgr.groups b = some g1 → freeHead g1 ≠ some p) : mgr.freeGroups p = none := by
  rw [h.free.eq_none_iff]
  intro b hb
  obtain ⟨g1, hg1, hf⟩ := bind_eq_some_iff.1 hb
  exact hp b g1 hg1 hf

theorem Sound.freeGroups_eq (h : Sound mgr) (ha : mgr.groups a = some g)
    (hp : freeHead g = some p) : mgr.freeGroups p = some a :=
  (h.free p a).2 (by simp [ha, hp])

/-- A group without an owner is listed under its first message again. -/
theorem disown_put (h : Sound mgr) (ha : mgr.groups a = some g) (howned : g.owner ≠ "")
    (hmem : g'.members = y :: rest)
    (hother : ∀ b g1, b ≠ a → mgr.groups b = some g1 → freeHead g1 ≠ some y.position) :
    disown a (mgr.setGroup a g') = .ok (mgr.put a g { g' with owner := "" }) := by
  have hnone : mgr.freeGroups y.position = none := by
    refine h.freeGroups_eq_none fun b g1 hb => ?_
    by_cases hba : b = a
    · subst hba
      cases ha.symm.trans hb
      simp [freeHead_owned howned]
    · exact hother b g1 hba hb
  rw [disown_eq (setGroup_self _) (by rw [hmem]; rfl) hnone, setGroup_setGroup]
  have hhead : freeHead { g' with owner := "" } = some y.position := by rw [hmem]; rfl
  rw [put, freeHead_owned howned, hhead, rekey_none]
  rfl

/-- When a message was taken off or given back, an owned group stays owned if a
message of it is acquired, and is free if none is. -/
theorem released_put (h : Sound mgr) (ha : mgr.groups a = some g) (howned : g.owner ≠ "")
    (hmem : g'.members = y :: rest) (howner : g'.owner = g.owner)
    (hother : ∀ b g1, b ≠ a → mgr.groups b = some g1 → freeHead g1 ≠ some y.position) :
    (if (g'.acquired = 0 && g'.owned) = true then disown a (mgr.setGroup a g') else .ok (mgr.setGroup a g')) =
      .ok (mgr.put a g { g' with owner := if g'.acquired = 0 then "" else g.owner }) := by
  by_cases hz : g'.acquired = 0
  · rw [if_pos (by simp [hz, owned, howner, howned]), if_pos hz]
    exact disown_put h ha howned hmem hother
  rw [if_neg (by simpa using fun e => absurd e hz), if_neg hz, ← howner]
  have hsame : freeHead g' = freeHead g := by
    rw [freeHead_owned howned, freeHead_owned (howner ▸ howned)]
  rw [put_same h ha hsame]

theorem dequeuedFrom_some (ha : mgr.groups a = some g)
    (hmem : g.members = y :: rest) (hlen : g.members.length < 2 ^ 32) (reFreeNeeded : Bool) :
    dequeuedFrom a reFreeNeeded mgr =
      if (g.acquired = 0 && g.owned) = true then disown a mgr
      else if reFreeNeeded then disown a mgr else .ok mgr := by
  have hne : ¬ g.members.length % 2 ^ 32 = 0 := by
    rw [Nat.mod_eq_of_lt hlen, hmem]
    simp
  simp only [dequeuedFrom, deref_eq ha, bind, Except.bind]
  rw [if_neg hne]
  rfl

/-- A free group that loses its first message is listed under the next. -/
theorem refreed_put (h : Sound mgr) (ha : mgr.groups a = some g) (howned : g.owner = "") (hm : g.members = x :: after)
    (hmem : g'.members = y :: rest) (howner : g'.owner = g.owner) (hlen : g'.members.length < 2 ^ 32)
    (hother : ∀ b g1, b ≠ a → mgr.groups b = some g1 → freeHead g1 ≠ some y.position) :
    (unFree a (mgr.setGroup a { g with acquired := count }) >>= fun mgr =>
      dequeuedFrom a true (mgr.setGroup a g')) = .ok (mgr.put a g g') := by
  have hhead : freeHead g = some x.position := by rw [freeHead_free howned, hm]; rfl
  have hfree := h.freeGroups_eq ha hhead
  rw [unFree_eq (setGroup_self _) (by rw [hm]; rfl) hfree]
  have hnone : update mgr.freeGroups x.position none y.position = none := by
    by_cases hxy : y.position = x.position
    · rw [hxy, update_self]
    rw [update_of_ne hxy]
    refine h.freeGroups_eq_none fun b g1 hb => ?_
    by_cases hba : b = a
    · subst hba
      cases ha.symm.trans hb
      rw [hhead]
      exact fun e => hxy (Option.some.inj e).symm
    · exact hother b g1 hba hb
  simp only [bind, Except.bind]
  rw [dequeuedFrom_some (setGroup_self _) hmem hlen, if_neg (by simp [owned, howner, howned])]
  refine (disown_eq (setGroup_self _) (by rw [hmem]; rfl) ?_).trans ?_
  · exact hnone
  have hown' : g' = { g' with owner := "" } := by rw [← howned, ← howner]
  rw [← hown']
  have hhead' : freeHead g' = some y.position := by rw [freeHead_free (howner.trans howned), hmem]; rfl
  rw [put, hhead, hhead', rekey_some_some]
  simp [setFree, setGroup]

theorem dequeuedFrom_none (ha : mgr.groups a = some g) (hmem : g.members = []) (hcac : mgr.cachedGroup = some a)
    (reFreeNeeded : Bool) :
    dequeuedFrom a reFreeNeeded mgr = .ok { mgr with
      cachedGroup := none
      messageGroups := update mgr.messageGroups g.group none
      groups := update mgr.groups a none } := by
  simp only [dequeuedFrom, deref_eq ha, hmem, hcac, bind, Except.bind]
  rfl

/-- A group that gets an owner is no longer listed. -/
theorem own_put (h : Sound mgr) (ha : mgr.groups a = some g) (howned : g.owner = "") {consumer : String}
    (hname : consumer ≠ "") (hmem : g.members = y :: rest) :
    own a consumer mgr = .ok (mgr.put a g { g with owner := consumer }) := by
  have hhead : freeHead g = some y.position := by rw [freeHead_free howned, hmem]; rfl
  simp only [own, deref_eq ha, bind, Except.bind]
  rw [unFree_eq (setGroup_self _) (by rw [hmem]; rfl) (h.freeGroups_eq ha hhead)]
  have hhead' : freeHead { g with owner := consumer } = none := freeHead_owned hname
  rw [put, hhead, hhead', rekey_some]
  rfl

/-! ## Taking a group off -/

/-- The last member of a group is gone, and the group with it. -/
def drop (mgr : MessageGroupManager) (a : Nat) (g : GroupState) : MessageGroupManager :=
  { mgr with
    cachedGroup := none
    messageGroups := update mgr.messageGroups g.group none
    groups := update mgr.groups a none
    freeGroups := rekey mgr.freeGroups (freeHead g) none a }

theorem Indexed.drop (h : Indexed mgr) (ha : mgr.groups a = some g) : Indexed (mgr.drop a g) where
  index := by
    have hrekey : update mgr.messageGroups g.group none =
        rekey mgr.messageGroups ((mgr.groups a).map (·.group)) none a := by
      rw [ha, map_some, rekey_some]
    simp only [MessageGroupManager.drop, hrekey]
    rw [keys_update (·.map (·.group))]
    exact h.index.rekey fun p hp => by cases hp
  fresh := by
    intro b hb
    by_cases hba : b = a
    · subst hba
      simp [MessageGroupManager.drop]
    · simpa [MessageGroupManager.drop, hba] using h.fresh b hb
  cache := by
    intro b hb
    cases hb

theorem Sound.drop (h : Sound mgr) (ha : mgr.groups a = some g) : Sound (mgr.drop a g) where
  toIndexed := h.toIndexed.drop ha
  free := by
    have hkey : freeHead g = (mgr.groups a).bind freeHead := by simp [ha]
    simp only [MessageGroupManager.drop, hkey]
    rw [keys_update (·.bind freeHead)]
    exact h.free.rekey fun p hp => by cases hp

/-! ## The calls on a message whose group is known -/

section

variable (h : Sound mgr) (hc : CacheFits mgr m) (ha : mgr.groups a = some g) (hg : g.group = mgr.groupOf m)

include h hc ha hg

/-- A consumer that acquires a message of a free group comes to own it. -/
theorem acquire_free (hstate : m.state = .available) (howned : g.owner = "") {consumer : String}
    (hname : consumer ≠ "") (hmem : g.members = y :: rest) :
    mgr.acquire consumer m = .ok (true, m.setState .acquired,
      (mgr.cached m a).put a g { g with owner := consumer }) := by
  have hga : ((mgr.cached m a).put a g { g with owner := consumer }).groups a = some { g with owner := consumer } := by
    simp
  simp only [acquire, hstate, if_true, findGroup_known h.toIndexed hc ha hg, deref_cached ha, bind, Except.bind]
  rw [if_pos (by simp [owned, howned]), own_put (h.cached ha hg) ha howned hname hmem]
  simp only [deref_eq hga]
  rfl

theorem acquire_owned (hstate : m.state = .available) (howned : g.owner ≠ "") (consumer : String) :
    mgr.acquire consumer m = .ok (if g.owner = consumer then (true, m.setState .acquired, mgr.cached m a)
      else (false, m, mgr.cached m a)) := by
  simp only [acquire, hstate, if_true, findGroup_known h.toIndexed hc ha hg, deref_cached ha, bind, Except.bind]
  rw [if_neg (by simp [owned, howned])]
  simp only [pure, Except.pure, deref_cached ha]
  split <;> rfl

theorem enqueued_eq (hmem : g.members = y :: rest) (hlen : g.members.length + 1 < 2 ^ 32) :
    mgr.enqueued m =
      .ok ((mgr.cached m a).put a g { g with members := g.members ++ [{ position := m.sequence }] }) := by
  have hfree : freeHead { g with members := g.members ++ [{ position := m.sequence }] } = freeHead g :=
    freeHead_congr rfl (by simp [hmem])
  have hne : ¬ (g.members ++ [({ position := m.sequence } : MessageState)]).length % 2 ^ 32 = 1 := by
    rw [Nat.mod_eq_of_lt (by simpa using hlen), hmem]
    simp
  rw [put_same (h.cached ha hg) ha hfree]
  simp only [enqueued, findGroup_known h.toIndexed hc ha hg, deref_cached ha, bind, Except.bind]
  rw [if_neg hne]
  rfl

section

variable (hm : g.members = before ++ x :: after) (hx : x.position = m.sequence)
  (hlt : ∀ y ∈ before, SequenceNumber.lt y.position x.position = true)

include hm hx hlt

theorem acquired_eq : mgr.acquired m = .ok ((mgr.cached m a).put a g
      { g with members := before ++ { x with acquired := true } :: after, acquired := g.acquired + 1 }) := by
  have hset : g.members.set before.length { x with acquired := true } =
      before ++ { x with acquired := true } :: after := by simp [hm]
  have hfree : freeHead { g with
      members := before ++ { x with acquired := true } :: after, acquired := g.acquired + 1 } = freeHead g :=
    freeHead_congr rfl (by cases before <;> simp [hm])
  rw [put_same (h.cached ha hg) ha hfree]
  simp only [acquired, findGroup_known h.toIndexed hc ha hg, deref_cached ha, ← hx, member_eq hm hlt, hset,
    bind, Except.bind]
  rfl

/-- The last message requeued gives the group up. -/
theorem requeued_eq (hcount : g.acquired ≠ 0) (howned : g.owner ≠ "")
    (hother : ∀ y ∈ g.members, ∀ b g1, b ≠ a → mgr.groups b = some g1 → freeHead g1 ≠ some y.position) :
    mgr.requeued m = .ok ((mgr.cached m a).put a g { g with
        members := before ++ { x with acquired := false } :: after, acquired := g.acquired - 1
        owner := if g.acquired - 1 = 0 then "" else g.owner }) := by
  have hset : g.members.set before.length { x with acquired := false } =
      before ++ { x with acquired := false } :: after := by simp [hm]
  simp only [requeued, findGroup_known h.toIndexed hc ha hg, deref_cached ha, if_neg hcount, ← hx,
    member_eq hm hlt, hset, bind, Except.bind]
  obtain ⟨y, rest, hmem, hy⟩ : ∃ y rest, before ++ { x with acquired := false } :: after = y :: rest ∧
      ∃ y' ∈ g.members, y'.position = y.position := by
    cases before with
    | nil => exact ⟨_, _, rfl, x, by simp [hm], rfl⟩
    | cons y before => exact ⟨y, _, rfl, y, by simp [hm], rfl⟩
  obtain ⟨y', hy', hpos⟩ := hy
  have hmem' : ({ g with
      members := before ++ { x with acquired := false } :: after, acquired := g.acquired - 1 } : GroupState).members =
      y :: rest := hmem
  exact released_put (h.cached ha hg) ha howned hmem' rfl fun b g1 hb hg1 => hpos ▸ hother y' hy' b g1 hb hg1

theorem dequeued_member (hcount : x.acquired = true → g.acquired ≠ 0)
    (hcou' : count = if x.acquired then g.acquired - 1 else g.acquired) :
    mgr.dequeued m =
      if before.length = 0 then
        if !g.owned then
          unFree a ((mgr.cached m a).setGroup a { g with acquired := count }) >>= fun mgr =>
            dequeuedFrom a true (mgr.setGroup a { g with acquired := count, members := before ++ after })
        else dequeuedFrom a false
          ((mgr.cached m a).setGroup a { g with acquired := count, members := before ++ after })
      else dequeuedFrom a false
        ((mgr.cached m a).setGroup a { g with acquired := count, members := before ++ after }) := by
  have hone : (if x.acquired = true then { g with acquired := g.acquired - 1 } else g) =
      { g with acquired := count } := by
    rw [hcou']
    split <;> rfl
  have hok : ¬ (x.acquired && decide (g.acquired = 0)) = true := by simpa using hcount
  simp only [dequeued, findGroup_known h.toIndexed hc ha hg, deref_cached ha, ← hx, member_eq hm hlt,
    bind, Except.bind]
  rw [if_neg hok, hone]
  simp only [hm, setGroup_setGroup]
  cases before with
  | nil => rfl
  | cons y before =>
    have herase : (y :: before ++ x :: after).eraseIdx (y :: before).length = y :: before ++ after := by
      simp [eraseIdx_append_of_length_le]
    rw [if_neg (by simp), if_neg (by simp), herase]

/-- A message dequeued is taken from its group, which may become free by it. -/
theorem dequeued_eq (hcount : x.acquired = true → g.acquired ≠ 0) (hlen : g.members.length < 2 ^ 32)
    (hrest : before ++ after = y :: rest)
    (hother : ∀ y ∈ g.members, ∀ b g1, b ≠ a → mgr.groups b = some g1 → freeHead g1 ≠ some y.position)
    (hcou' : count = if x.acquired then g.acquired - 1 else g.acquired) :
    mgr.dequeued m = .ok ((mgr.cached m a).put a g
      { g with members := before ++ after, acquired := count, owner := if count = 0 then "" else g.owner }) := by
  have hcac := h.cached ha hg
  have hy : y ∈ g.members := by
    have : y ∈ before ++ after := by simp [hrest]
    rw [hm]
    simp only [mem_append] at this ⊢
    tauto
  have hlen' : (before ++ after).length < 2 ^ 32 := by
    have : g.members.length = (before ++ after).length + 1 := by simp [hm]; omega
    omega
  have hmem : ({ g with acquired := count, members := before ++ after } : GroupState).members = y :: rest := hrest
  rw [dequeued_member h hc ha hg hm hx hlt hcount hcou']
  by_cases howned : g.owner = ""
  swap
  · have hno : ¬ (!g.owned) = true := by simp [owned, howned]
    rw [if_neg hno, ite_self, dequeuedFrom_some (setGroup_self _) hmem hlen']
    exact released_put hcac ha howned hmem rfl fun b g1 hb hg1 => hother y hy b g1 hb hg1
  -- A free group stays free, and is found by another member if its first is taken off.
  have huno : g.owned = false := by simp [owned, howned]
  have howner : (if count = 0 then "" else g.owner) = g.owner := by
    split
    · exact howned.symm
    · rfl
  rw [howner]
  by_cases hb : before.length = 0
  · obtain rfl := length_eq_zero_iff.1 hb
    rw [if_pos hb, if_pos (by simp [huno])]
    exact refreed_put hcac ha howned hm hmem rfl hlen' (hother y hy)
  rw [if_neg hb, dequeuedFrom_some (setGroup_self _) hmem hlen', if_neg (by simp [owned, howned])]
  rw [put_same hcac ha]
  · rfl
  refine freeHead_congr rfl ?_
  cases before with
  | nil => simp at hb
  | cons y before => simp [hm]

end

/-- With its last message a group is dropped. -/
theorem dequeued_last (hm : g.members = [x]) (hx : x.position = m.sequence)
    (hcount : x.acquired = true → g.acquired ≠ 0) :
    mgr.dequeued m = .ok ((mgr.cached m a).drop a g) := by
  have hcac := h.cached ha hg
  have hm' : g.members = [] ++ x :: [] := hm
  rw [dequeued_member h hc ha hg hm' hx (by simp) hcount rfl, if_pos length_nil]
  by_cases howned : g.owner = ""
  swap
  · rw [if_neg (by simp [owned, howned])]
    refine (dequeuedFrom_none (setGroup_self _) rfl rfl false).trans ?_
    simp [drop, setGroup, freeHead_owned howned, rekey_none_none]
  have hhead : freeHead g = some x.position := by rw [freeHead_free howned, hm]; rfl
  have hfree := hcac.freeGroups_eq ha hhead
  rw [if_pos (by simp [owned, howned]), unFree_eq (setGroup_self (mgr.cached m a)) (by rw [hm]; rfl) hfree]
  refine (dequeuedFrom_none (setGroup_self _) rfl rfl true).trans ?_
  rw [drop, hhead, rekey_some]
  simp [setFree, setGroup]

end

/-! ## Enqueueing a message of a new group -/

/-- The manager with a new group for the message. -/
def create (mgr : MessageGroupManager) (m : Message) : MessageGroupManager :=
  { mgr with
    groups := update mgr.groups mgr.allocated
      (some { group := mgr.groupOf m, members := [{ position := m.sequence }] })
    allocated := mgr.allocated + 1
    messageGroups := update mgr.messageGroups (mgr.groupOf m) (some mgr.allocated)
    freeGroups := update mgr.freeGroups m.sequence (some mgr.allocated)
    lastMsg := m.sequence, lastGroup := mgr.groupOf m, cachedGroup := some mgr.allocated }

theorem findGroup_new (h : Indexed mgr) (hc : CacheFits mgr m)
    (hnew : ∀ b g, mgr.groups b = some g → g.group ≠ mgr.groupOf m) :
    mgr.findGroup m = (mgr.allocated, { mgr with
      groups := update mgr.groups mgr.allocated (some { group := mgr.groupOf m })
      allocated := mgr.allocated + 1
      messageGroups := update mgr.messageGroups (mgr.groupOf m) (some mgr.allocated)
      lastMsg := m.sequence, lastGroup := mgr.groupOf m, cachedGroup := some mgr.allocated }) := by
  have hindex : mgr.messageGroups (mgr.groupOf m) = none := by
    rw [h.index.eq_none_iff]
    intro b hb
    obtain ⟨g, hg, hk⟩ := map_eq_some_iff.1 hb
    exact hnew b g hg hk
  have hloo := show mgr.lookup m.sequence (mgr.groupOf m) = _ by rw [lookup, hindex]
  unfold findGroup
  cases hcac : mgr.cachedGroup with
  | none => exact hloo
  | some b =>
    have hother : mgr.groupOf m ≠ mgr.lastGroup := by
      intro e
      obtain ⟨g, hg, hk⟩ := map_eq_some_iff.1 (h.cache b hcac)
      exact hnew b g hg (hk.trans e.symm)
    dsimp only
    rw [if_neg fun hlast => hother (hc (by simp [hcac]) hlast), if_neg hother]
    exact hloo

theorem enqueued_new (h : Sound mgr) (hc : CacheFits mgr m)
    (hnew : ∀ b g, mgr.groups b = some g → g.group ≠ mgr.groupOf m)
    (hfree : ∀ b g, mgr.groups b = some g → freeHead g ≠ some m.sequence) :
    mgr.enqueued m = .ok (mgr.create m) := by
  simp only [enqueued, findGroup_new h.toIndexed hc hnew, deref, setGroup, update_self, bind, Except.bind]
  rw [if_pos (h.freeGroups_eq_none hfree)]
  simp only [update_idem]
  rfl

theorem Indexed.create (h : Indexed mgr) (hnew : ∀ b g, mgr.groups b = some g → g.group ≠ mgr.groupOf m) :
    Indexed (mgr.create m) where
  index := by
    have hkey : (mgr.groups mgr.allocated).map (·.group) = none := by simp [h.fresh _ (le_refl _)]
    have hrekey : update mgr.messageGroups (mgr.groupOf m) (some mgr.allocated) =
        rekey mgr.messageGroups ((mgr.groups mgr.allocated).map (·.group)) (some (mgr.groupOf m)) mgr.allocated := by
      rw [hkey, rekey_none]
    simp only [MessageGroupManager.create, hrekey]
    rw [keys_update (·.map (·.group))]
    refine h.index.rekey fun p hp b _ hb => ?_
    obtain ⟨g, hg, hk⟩ := map_eq_some_iff.1 hb
    exact hnew b g hg (hk.trans (Option.some.inj hp).symm)
  fresh := by
    intro b hb
    have hne : b ≠ mgr.allocated := by
      simp only [MessageGroupManager.create] at hb
      omega
    simp only [MessageGroupManager.create, update_of_ne hne] at hb ⊢
    exact h.fresh b (by omega)
  cache := by
    intro b hb
    cases hb
    simp [MessageGroupManager.create]

theorem Sound.create (h : Sound mgr) (hnew : ∀ b g, mgr.groups b = some g → g.group ≠ mgr.groupOf m)
    (hfree : ∀ b g, mgr.groups b = some g → freeHead g ≠ some m.sequence) : Sound (mgr.create m) where
  toIndexed := h.toIndexed.create hnew
  free := by
    have hkey : (mgr.groups mgr.allocated).bind freeHead = none := by simp [h.fresh _ (le_refl _)]
    have hrekey : update mgr.freeGroups m.sequence (some mgr.allocated) =
        rekey mgr.freeGroups ((mgr.groups mgr.allocated).bind freeHead) (some m.sequence) mgr.allocated := by
      rw [hkey, rekey_none]
    simp only [MessageGroupManager.create, hrekey]
    rw [keys_update (·.bind freeHead)]
    refine h.free.rekey fun p hp b _ hb => ?_
    obtain ⟨g, hg, hf⟩ := bind_eq_some_iff.1 hb
    exact hfree b g hg (hf.trans hp.symm)

end

end QB.Impl.MessageGroupManager
