import Mathlib.Data.List.Nodup
import QpidBroker.Proof.MessageGroupManager
import QpidBroker.Spec.MessageGroups

/-!
# Groups of messages are exclusive, in every run

The manager has a state for each group that has a message, and what the state says
is so of the messages (`Tracks`). A call changes one message and the state of its
group (`Kept.touch`), takes off the last message of a group (`Kept.dropped`), or
adds one; in every state of a run the groups are exclusive (`run_exclusive`).
-/

namespace QB.Impl.GroupQueue

open QB.Spec QB.Spec.GroupQueue QB.Impl.MessageGroupManager Serial
open List hiding drop
open Option hiding mem_map map_map mem_map_of_mem

variable {C : Type} {name : C → String}

/-! ## Numbers in order -/

/-- The numbers of messages, the oldest first, with the last number given. -/
structure Ordered (last : SequenceNumber) (l : List SequenceNumber) : Prop where
  older : l.Pairwise fun p q => Serial.dist q last < Serial.dist p last
  window : ∀ p ∈ l, Serial.dist p last < 2 ^ 31

namespace Ordered

variable {last p q : SequenceNumber} {l l' : List SequenceNumber}

theorem sublist (h : Ordered last l) (hs : l'.Sublist l) : Ordered last l' :=
  ⟨h.older.sublist hs, fun p hp => h.window p (hs.subset hp)⟩

theorem nodup (h : Ordered last l) : l.Nodup :=
  h.older.imp fun hlt e => by
    rw [e] at hlt
    exact lt_irrefl _ hlt

/-- Nearer to the last number is later. -/
theorem lt_of_dist (hlt : Serial.dist q last < Serial.dist p last) (hp : Serial.dist p last < 2 ^ 31) :
    SequenceNumber.lt p q = true := by
  simp only [SequenceNumber.lt, SequenceNumber.sub, decide_eq_true_eq, toInt_sub_neg_iff]
  simp only [Serial.dist] at *
  bv_omega

theorem pairwise_lt (h : Ordered last l) : l.Pairwise fun p q => SequenceNumber.lt p q = true := by
  refine h.older.imp_of_mem fun hp _ hlt => ?_
  exact lt_of_dist hlt (h.window _ hp)

theorem length_le (h : Ordered last l) : l.length ≤ 2 ^ 31 := by
  have hnodup : (l.map fun p => Serial.dist p last).Nodup := by
    rw [List.Nodup, pairwise_map]
    exact h.older.imp fun hlt e => by omega
  have hsub : (l.map fun p => Serial.dist p last) ⊆ List.range (2 ^ 31) := by
    intro d hd
    obtain ⟨p, hp, rfl⟩ := mem_map.1 hd
    exact mem_range.2 (h.window p hp)
  have := (subperm_of_subset hnodup hsub).length_le
  simpa using this

/-- The next number may follow as long as none falls behind by a half. -/
theorem next (h : Ordered last l) (hw : ∀ p ∈ l, Serial.dist p (last + 1) < 2 ^ 31) :
    Ordered (last + 1) (l ++ [last + 1]) := by
  have hdist : ∀ p ∈ l, Serial.dist p (last + 1) = Serial.dist p last + 1 := fun p hp =>
    dist_add_one (by have := h.window p hp; omega)
  constructor
  · refine pairwise_append.2 ⟨?_, pairwise_singleton _ _, ?_⟩
    · refine h.older.imp_of_mem fun hp hq hlt => ?_
      rw [hdist _ hp, hdist _ hq]
      omega
    · intro p hp q hq
      rw [mem_singleton.1 hq, hdist p hp, dist_self]
      omega
  intro p hp
  rcases mem_append.1 hp with hp | hp
  · exact hw p hp
  · rw [mem_singleton.1 hp, dist_self]
    exact Nat.two_pow_pos 31

end Ordered

/-! ## The members of a group -/

/-- The messages of a group, as its members. -/
def membersIn (key : Message → String) (messages : List (Grouped C)) (group : String) :
    List MessageGroupManager.MessageState :=
  (messages.filter fun g => key g.message = group).map fun g => ⟨g.message.sequence, g.message.state = .acquired⟩

variable {key : Message → String} {pre post rest messages : List (Grouped C)} {g g' : Grouped C} {group : String}

@[simp] theorem membersIn_append (l l' : List (Grouped C)) :
    membersIn key (l ++ l') group = membersIn key l group ++ membersIn key l' group := by
  simp [membersIn]

theorem membersIn_cons (h : key g.message = group) : membersIn key (g :: messages) group =
      ⟨g.message.sequence, g.message.state = .acquired⟩ :: membersIn key messages group := by
  simp [membersIn, h]

theorem membersIn_cons_other (h : key g.message ≠ group) :
    membersIn key (g :: messages) group = membersIn key messages group := by
  simp [membersIn, h]

theorem mem_membersIn {x : MessageGroupManager.MessageState} :
    x ∈ membersIn key messages group ↔ ∃ g ∈ messages, key g.message = group ∧
      x = ⟨g.message.sequence, g.message.state = .acquired⟩ := by
  simp only [membersIn, mem_map, mem_filter, decide_eq_true_eq, and_assoc]
  constructor
  · rintro ⟨g, hg, hk, rfl⟩
    exact ⟨g, hg, hk, rfl⟩
  · rintro ⟨g, hg, hk, rfl⟩
    exact ⟨g, hg, hk, rfl⟩

theorem membersIn_eq_nil : membersIn key messages group = [] ↔ ∀ g ∈ messages, key g.message ≠ group := by
  simp [membersIn]

theorem membersIn_positions :
    ((membersIn key messages group).map (·.position)).Sublist (messages.map (·.message.sequence)) := by
  simp only [membersIn, map_map]
  exact filter_sublist.map _

/-- What the state of a group says is so of the messages. -/
structure Tracks (name : C → String) (key : Message → String) (messages : List (Grouped C)) (st : GroupState) :
    Prop where
  members : st.members = membersIn key messages st.group
  nonempty : st.members ≠ []
  count : st.acquired.toNat = st.members.countP (·.acquired)
  owned : st.owner ≠ "" ↔ 0 < st.acquired.toNat
  owner : ∀ g ∈ messages, key g.message = st.group → ∀ c, g.holder = some c → name c = st.owner

/-- Without acquired messages a group has no holder. -/
theorem Tracks.unheld {st : GroupState} (h : Tracks name key messages st)
    (hhol : ∀ g ∈ messages, (g.message.state = .acquired ↔ g.holder.isSome = true))
    (hzero : st.acquired.toNat = 0) : ∀ g ∈ messages, key g.message = st.group → g.holder = none := by
  intro g hg hk
  by_contra hne
  have hacq := (hhol g hg).2 (isSome_iff_ne_none.2 hne)
  have hmem : (⟨g.message.sequence, true⟩ : MessageGroupManager.MessageState) ∈ st.members := by
    rw [h.members, mem_membersIn]
    exact ⟨g, hg, hk, by simp [hacq]⟩
  have hpos : 0 < st.members.countP (·.acquired) := countP_pos_iff.2 ⟨_, hmem, rfl⟩
  rw [← h.count] at hpos
  omega

/-- A change of a message of another group is not seen. -/
theorem Tracks.congr {st : GroupState} (h : Tracks name key messages st) (hms : messages = pre ++ g :: post)
    (hg : key g.message ≠ st.group) (hrest : ∀ g' ∈ rest, key g'.message ≠ st.group) :
    Tracks name key (pre ++ rest ++ post) st := by
  refine ⟨?_, h.nonempty, h.count, h.owned, fun g1 hg1 hk c hc => ?_⟩
  · rw [h.members, hms, membersIn_append, membersIn_append, membersIn_append, membersIn_cons_other hg,
      membersIn_eq_nil.2 hrest, append_nil]
  refine h.owner g1 ?_ hk c hc
  rw [hms]
  simp only [mem_append] at hg1 ⊢
  tauto

theorem mem_of_freeHead {st : GroupState} {p : SequenceNumber} (h : freeHead st = some p) :
    ∃ x ∈ st.members, x.position = p := by
  unfold freeHead at h
  split at h
  · cases h
  · obtain ⟨x, hx, hpos⟩ := map_eq_some_iff.1 h
    exact ⟨x, mem_of_head? hx, hpos⟩

/-! ## The state of a queue -/

/-- What every call keeps. -/
structure Kept (name : C → String) (s : GroupQueue C) : Prop where
  asserts : s.failed = none
  sound : Sound s.manager
  ordered : Ordered s.sequence (s.messages.map (·.message.sequence))
  recent : s.manager.cachedGroup.isSome = true → Serial.dist s.manager.lastMsg s.sequence < 2 ^ 31
  cache : s.manager.cachedGroup.isSome = true → ∀ g ∈ s.messages, g.message.sequence = s.manager.lastMsg →
    s.manager.groupOf g.message = s.manager.lastGroup
  holders : ∀ g ∈ s.messages, (g.message.state = .acquired ↔ g.holder.isSome = true)
  same : ∀ g ∈ s.messages, ∀ g' ∈ s.messages, s.manager.groupOf g.message = s.manager.groupOf g'.message →
    ∀ c c', g.holder = some c → g'.holder = some c' → c = c'
  known : ∀ g ∈ s.messages, ∃ a st, s.manager.groups a = some st ∧ st.group = s.manager.groupOf g.message
  tracks : ∀ a st, s.manager.groups a = some st → Tracks name s.manager.groupOf s.messages st

variable {s : GroupQueue C} {a : Nat} {st st' : GroupState}

variable {mgr : MessageGroupManager} {l l' : List MessageGroupManager.MessageState} {count : BitVec 32}
  {new : Grouped C}

theorem put_put (m m' : Message) {st st1 st2 : GroupState}
    (hm : mgr.groupOf m' = mgr.groupOf m) (hs : m'.sequence = m.sequence)
    (hfree : freeHead st1 = none ∨ freeHead st1 = freeHead st) :
    (((mgr.cached m a).put a st st1).cached m' a).put a st1 st2 = (mgr.cached m a).put a st st2 := by
  simp only [put, cached, Function.update_idem, rekey_rekey hfree]
  congr 1

theorem countP_cons_true (p : SequenceNumber) :
    (l ++ ⟨p, true⟩ :: l').countP (·.acquired) = (l ++ l').countP (·.acquired) + 1 := by
  simp
  omega

theorem countP_cons_false (p : SequenceNumber) :
    (l ++ ⟨p, false⟩ :: l').countP (·.acquired) = (l ++ l').countP (·.acquired) := by
  simp

theorem toNat_add_one {x : BitVec 32} (h : x.toNat + 1 < 2 ^ 32) : (x + 1).toNat = x.toNat + 1 := by
  bv_omega

theorem toNat_sub_one {x : BitVec 32} (h : 0 < x.toNat) : (x - 1).toNat = x.toNat - 1 := by
  bv_omega

/-- The owner stays as long as a message is acquired. -/
theorem released_owned (ht : Tracks name key messages st) (hle : 0 < count.toNat → 0 < st.acquired.toNat) :
    (if count = 0 then "" else st.owner) ≠ "" ↔ 0 < count.toNat := by
  by_cases hz : count = 0
  · rw [hz]
    simp
  · rw [if_neg hz]
    have hpos : 0 < count.toNat := Nat.pos_of_ne_zero fun e => hz (BitVec.eq_of_toNat_eq e)
    exact ⟨fun _ => hpos, fun _ => ht.owned.2 (hle hpos)⟩

theorem eraseIdx_around (hms : s.messages = pre ++ g :: post) : s.messages.eraseIdx pre.length = pre ++ post := by
  rw [hms, eraseIdx_append_of_length_le (le_refl _)]
  simp

theorem mem_of_around {g1 : Grouped C} (hms : s.messages = pre ++ g :: post) (h : g1 ∈ pre ++ post) :
    g1 ∈ s.messages := by
  rw [hms]
  simp only [mem_append] at h ⊢
  tauto

namespace Kept

variable (h : Kept name s)

include h

theorem inj (hg : g ∈ s.messages) (hg' : g' ∈ s.messages) (he : g.message.sequence = g'.message.sequence) :
    g = g' :=
  inj_on_of_nodup_map h.ordered.nodup hg hg' he

theorem cacheFits (hg : g ∈ s.messages) : CacheFits s.manager g.message :=
  fun hc hlast => h.cache hc g hg hlast.symm

theorem other (ha : s.manager.groups a = some st) :
    ∀ y ∈ st.members, ∀ b st1, b ≠ a → s.manager.groups b = some st1 →
      freeHead st1 ≠ some y.position := by
  intro y hy b st1 hb hst1 hhead
  rw [(h.tracks a st ha).members, mem_membersIn] at hy
  obtain ⟨g, hg, hk, rfl⟩ := hy
  obtain ⟨x, hx, hpos⟩ := mem_of_freeHead hhead
  rw [(h.tracks b st1 hst1).members, mem_membersIn] at hx
  obtain ⟨g', hg', hk', rfl⟩ := hx
  obtain rfl := h.inj hg' hg hpos
  exact hb (h.sound.index.injective (by simp [hst1]; exact hk'.symm) (by simp [ha]; exact hk.symm))

theorem other_head (ha : s.manager.groups a = some st) (hfree : freeHead st' = freeHead st) (p : SequenceNumber)
    (hp : freeHead st' = some p) : ∀ b st1, b ≠ a → s.manager.groups b = some st1 →
      freeHead st1 ≠ some p := by
  rw [hfree] at hp
  obtain ⟨x, hx, rfl⟩ := mem_of_freeHead hp
  exact h.other ha x hx

theorem group_ne {b : Nat} (ha : s.manager.groups a = some st) (hb : s.manager.groups b = some st') (hba : b ≠ a) :
    st.group ≠ st'.group := fun e =>
  hba (h.sound.index.injective (p := st'.group) (by simp [hb]) (by simp [ha, e]))

theorem known_put (ha : s.manager.groups a = some st) (hst' : st'.group = st.group) (hg : g ∈ s.messages) :
    ∃ b st1, Function.update s.manager.groups a (some st') b = some st1 ∧
      st1.group = s.manager.groupOf g.message := by
  obtain ⟨b, st1, hb, hst1⟩ := h.known g hg
  by_cases hba : b = a
  · subst hba
    cases ha.symm.trans hb
    exact ⟨b, st', Function.update_self .., hst'.trans hst1⟩
  · exact ⟨b, st1, by simpa [hba] using hb, hst1⟩

theorem length_lt (ha : s.manager.groups a = some st) : st.members.length + 1 < 2 ^ 32 := by
  have hlen := h.ordered.length_le
  have hsub : st.members.length ≤ (s.messages.map (·.message.sequence)).length := by
    rw [(h.tracks a st ha).members, ← length_map (·.position)]
    exact membersIn_positions.length_le
  omega

theorem count_lt (ha : s.manager.groups a = some st) : st.acquired.toNat + 1 < 2 ^ 32 := by
  have hlen := h.length_lt ha
  have hle : st.members.countP (·.acquired) ≤ st.members.length := countP_le_length
  rw [(h.tracks a st ha).count]
  omega

section

variable (hms : s.messages = pre ++ g :: post)

include hms

/-- A message of the queue is among the members of its group. -/
theorem groupState : g ∈ s.messages ∧ ∃ a st, s.manager.groups a = some st ∧
    st.group = s.manager.groupOf g.message ∧
      st.members = membersIn s.manager.groupOf pre st.group ++
        ⟨g.message.sequence, g.message.state = .acquired⟩ :: membersIn s.manager.groupOf post st.group ∧
      ∀ y ∈ membersIn s.manager.groupOf pre st.group, SequenceNumber.lt y.position g.message.sequence = true := by
  have hg : g ∈ s.messages := by simp [hms]
  obtain ⟨a, st, ha, hst⟩ := h.known g hg
  refine ⟨hg, a, st, ha, hst, ?_, ?_⟩
  · rw [(h.tracks a st ha).members, hms, membersIn_append, membersIn_cons hst.symm]
  intro y hy
  obtain ⟨g', hg', _, rfl⟩ := mem_membersIn.1 hy
  have hlt := h.ordered.pairwise_lt
  rw [hms, map_append] at hlt
  exact (pairwise_append.1 hlt).2.2 _ (mem_map_of_mem hg') _ (mem_cons_self ..)

section

variable (ha : s.manager.groups a = some st)

include ha

theorem released_owner
    (hcount : count.toNat = (membersIn s.manager.groupOf (pre ++ post) st.group).countP (·.acquired)) :
    ∀ g1 ∈ pre ++ post, s.manager.groupOf g1.message = st.group → ∀ c, g1.holder = some c →
      name c = if count = 0 then "" else st.owner := by
  intro g1 hg1 hk c hc
  have hg₁' := mem_of_around hms hg1
  have hacq : g1.message.state = .acquired := (h.holders g1 hg₁').2 (by simp [hc])
  have hmem : (⟨g1.message.sequence, true⟩ : MessageGroupManager.MessageState) ∈
      membersIn s.manager.groupOf (pre ++ post) st.group :=
    mem_membersIn.2 ⟨g1, hg1, hk, by simp [hacq]⟩
  have hpos : 0 < count.toNat := by
    rw [hcount]
    exact countP_pos_iff.2 ⟨_, hmem, rfl⟩
  rw [if_neg fun e => by simp [e] at hpos]
  exact (h.tracks a st ha).owner g1 hg₁' hk c hc

variable (hst : st.group = s.manager.groupOf g.message)

include hst

/-- A call replaces a message, or takes it off, and the state of its group with it. -/
theorem touch (htra : Tracks name s.manager.groupOf (pre ++ rest ++ post) st') (hst' : st'.group = st.group)
    (hrest : (rest.map (·.message.sequence)).Sublist [g.message.sequence])
    (hkey : ∀ g' ∈ rest, s.manager.groupOf g'.message = s.manager.groupOf g.message)
    (hhol : ∀ g' ∈ rest, (g'.message.state = .acquired ↔ g'.holder.isSome = true))
    (hsame : ∀ g' ∈ rest, ∀ g1 ∈ pre ++ post, s.manager.groupOf g1.message = s.manager.groupOf g.message →
      ∀ c c', g'.holder = some c → g1.holder = some c' → c = c') :
    Kept name { s with
      manager := (s.manager.cached g.message a).put a st st'
      messages := pre ++ rest ++ post } := by
  have hg : g ∈ s.messages := by simp [hms]
  -- A message is one of the old ones, or in the place of the one that is replaced.
  have hmem : ∀ g1 ∈ pre ++ rest ++ post, g1 ∈ rest ∨ g1 ∈ pre ++ post ∧ g1 ∈ s.messages := by
    intro g1 hg1
    rw [hms]
    simp only [mem_append] at hg1 ⊢
    tauto
  have hseq : ∀ g' ∈ rest, g'.message.sequence = g.message.sequence := fun g' hg' =>
    mem_singleton.1 (hrest.subset (mem_map_of_mem hg'))
  refine ⟨h.asserts, ?_, ?_, ?_, ?_, ?_, ?_, ?_, ?_⟩
  · refine (h.sound.cached ha hst).put ha hst' fun p hp b st1 hb hst1 => ?_
    obtain ⟨y, hy, rfl⟩ : ∃ y ∈ st.members, y.position = p := by
      obtain ⟨x, hx, rfl⟩ := mem_of_freeHead hp
      rw [htra.members, mem_membersIn] at hx
      obtain ⟨g1, hg1, hk, rfl⟩ := hx
      rw [(h.tracks a st ha).members]
      rcases hmem g1 hg1 with hg1 | ⟨_, hg1⟩
      · exact ⟨_, mem_membersIn.2 ⟨g, hg, hst.symm, rfl⟩, (hseq g1 hg1).symm⟩
      · exact ⟨_, mem_membersIn.2 ⟨g1, hg1, hk.trans hst', rfl⟩, rfl⟩
    exact h.other ha y hy b st1 hb hst1
  · refine h.ordered.sublist ?_
    rw [hms]
    simp only [map_append, append_assoc]
    exact (Sublist.refl _).append (hrest.append (Sublist.refl _))
  · exact fun _ => h.ordered.window _ (mem_map_of_mem hg)
  · intro _ g1 hg1 he
    rcases hmem g1 hg1 with hg1 | ⟨_, hg1⟩
    · exact hkey g1 hg1
    · exact congrArg (fun g : Grouped C => s.manager.groupOf g.message) (h.inj hg1 hg he)
  · intro g1 hg1
    rcases hmem g1 hg1 with hg1 | ⟨_, hg1⟩
    · exact hhol g1 hg1
    · exact h.holders g1 hg1
  · intro g1 hg1 g2 hg2 he c c' hc hc'
    have he' : s.manager.groupOf g1.message = s.manager.groupOf g2.message := he
    rcases hmem g1 hg1 with hg1 | ⟨hpp1, hg1⟩ <;> rcases hmem g2 hg2 with hg2 | ⟨hpp2, hg2⟩
    · have hnodup := hrest.nodup (nodup_singleton _)
      obtain rfl := inj_on_of_nodup_map hnodup hg1 hg2 ((hseq g1 hg1).trans (hseq g2 hg2).symm)
      exact Option.some.inj (hc.symm.trans hc')
    · exact hsame g1 hg1 g2 hpp2 (he'.symm.trans (hkey g1 hg1)) c c' hc hc'
    · exact (hsame g2 hg2 g1 hpp1 (he'.trans (hkey g2 hg2)) c' c hc' hc).symm
    · exact h.same g1 hg1 g2 hg2 he' c c' hc hc'
  · intro g1 hg1
    rcases hmem g1 hg1 with hg1 | ⟨_, hg1⟩
    · exact ⟨a, st', by simp, (hst'.trans hst).trans (hkey g1 hg1).symm⟩
    · exact h.known_put ha hst' hg1
  intro b st1 hb
  by_cases hba : b = a
  · subst hba
    obtain rfl : st' = st1 := by simpa using hb
    exact htra
  · have hb' : s.manager.groups b = some st1 := by simpa [hba] using hb
    have hne : s.manager.groupOf g.message ≠ st1.group := hst ▸ h.group_ne ha hb' hba
    exact (h.tracks b st1 hb').congr hms hne fun g' hg' e => hne ((hkey g' hg').symm.trans e)

theorem dropped (hlast : membersIn s.manager.groupOf (pre ++ post) st.group = []) :
    Kept name { s with manager := (s.manager.cached g.message a).drop a st, messages := pre ++ post } := by
  have hmem : ∀ g1 ∈ pre ++ post, g1 ∈ s.messages := fun g1 => mem_of_around hms
  have hother := membersIn_eq_nil.1 hlast
  refine ⟨h.asserts, (h.sound.cached ha hst).drop ha, ?_, fun ht => (by cases ht), fun ht => (by cases ht),
    fun g1 hg1 => h.holders g1 (hmem g1 hg1), fun g1 hg1 g2 hg2 => h.same g1 (hmem g1 hg1) g2 (hmem g2 hg2), ?_, ?_⟩
  · refine h.ordered.sublist ?_
    rw [hms]
    exact ((Sublist.refl _).append (sublist_cons_self _ _)).map _
  · intro g1 hg1
    obtain ⟨b, st1, hb, hst1⟩ := h.known g1 (hmem g1 hg1)
    have hba : b ≠ a := by
      rintro rfl
      cases ha.symm.trans hb
      exact hother g1 hg1 hst1.symm
    exact ⟨b, st1, by simpa [drop, hba] using hb, hst1⟩
  intro b st1 hb
  have hba : b ≠ a := by
    rintro rfl
    simp [drop] at hb
  have hb' : s.manager.groups b = some st1 := by simpa [drop, hba] using hb
  have hne : s.manager.groupOf g.message ≠ st1.group := hst ▸ h.group_ne ha hb' hba
  have hcongr : Tracks name s.manager.groupOf (pre ++ [] ++ post) st1 :=
    (h.tracks b st1 hb').congr hms hne (by simp)
  rw [append_nil] at hcongr
  exact hcongr

theorem looked : Kept name { s with manager := s.manager.cached g.message a } := by
  have hg : g ∈ s.messages := by simp [hms]
  have hput : (s.manager.cached g.message a).put a st st = s.manager.cached g.message a := by
    have hsame : Function.update s.manager.groups a (some st) = s.manager.groups := by
      rw [← ha, Function.update_eq_self]
    rw [put_same (h.sound.cached ha hst) ha rfl, setGroup, cached_groups, hsame]
    rfl
  have hmes : pre ++ [g] ++ post = s.messages := by simp [hms]
  have htra : Tracks name s.manager.groupOf (pre ++ [g] ++ post) st := hmes ▸ h.tracks a st ha
  have := h.touch hms ha hst htra rfl (Sublist.refl _) (by simp) (by simpa using h.holders g hg) ?_
  · rwa [hput, hmes] at this
  intro g' hg' g1 hg1 hk c c' hc hc'
  obtain rfl := mem_singleton.1 hg'
  have hg₁' := mem_of_around hms hg1
  exact h.same g' hg g1 hg₁' hk.symm c c' hc hc'

/-! ## The calls -/

theorem count_of : st.acquired.toNat = (membersIn s.manager.groupOf (pre ++ post) st.group).countP (·.acquired) +
    if g.message.state = .acquired then 1 else 0 := by
  have ht := h.tracks a st ha
  rw [ht.count, ht.members, hms, membersIn_append, membersIn_append, membersIn_cons hst.symm]
  by_cases hacq : g.message.state = .acquired
  · rw [if_pos hacq, decide_eq_true hacq, countP_cons_true]
  · rw [if_neg hacq, decide_eq_false hacq, countP_cons_false]
    rfl

/-- An acquisition by the owner, or by the first consumer. -/
theorem acquired_by {c : C} (hstate : g.message.state = .available)
    (hname : name c ≠ "") (howner : st.owner = "" ∨ st.owner = name c)
    (hsole : ∀ g' ∈ s.messages, s.manager.groupOf g'.message = s.manager.groupOf g.message →
      ∀ c', g'.holder = some c' → name c' = name c → c' = c) :
    Kept name { s with
      manager := (s.manager.cached g.message a).put a st { st with
        owner := name c
        members := membersIn s.manager.groupOf pre st.group ++
          ⟨g.message.sequence, true⟩ :: membersIn s.manager.groupOf post st.group
        acquired := st.acquired + 1 }
      messages := pre ++ [{ message := g.message.setState .acquired, holder := some c }] ++ post } := by
  have ht := h.tracks a st ha
  have hgroup : s.manager.groupOf (g.message.setState .acquired) = s.manager.groupOf g.message := rfl
  -- The other holders of messages of the group are the same consumer.
  have hheld : ∀ g1 ∈ pre ++ post, s.manager.groupOf g1.message = s.manager.groupOf g.message →
      ∀ c', g1.holder = some c' → c' = c := by
    intro g1 hg1 hk c' hc'
    have hg₁' := mem_of_around hms hg1
    rcases howner with howner | howner
    · have hzero : st.acquired.toNat = 0 := by
        by_contra hne
        exact ht.owned.2 (Nat.pos_of_ne_zero hne) howner
      rw [ht.unheld h.holders hzero g1 hg₁' (hk.trans hst.symm)] at hc'
      cases hc'
    · exact hsole g1 hg₁' hk c' hc' ((ht.owner g1 hg₁' (hk.trans hst.symm) c' hc').trans howner)
  refine h.touch hms ha hst ?tracks rfl (by simp) (by simpa using hgroup) (by simp) ?same
  case same =>
    intro g' hg' g1 hg1 hk c1 c2 hc1 hc2
    obtain rfl := mem_singleton.1 hg'
    cases hc1
    exact (hheld g1 hg1 hk c2 hc2).symm
  case tracks =>
    have hcount := count_of h hms ha hst
    rw [if_neg (by simp [hstate])] at hcount
    have hnext := toNat_add_one (h.count_lt ha)
    refine ⟨?_, by simp, ?_, ?_, ?_⟩
    · simp [membersIn_cons, hst, hgroup]
    · rw [hnext, countP_cons_true, hcount, membersIn_append]
    · rw [hnext]
      simpa using hname
    intro g1 hg1 hk c1 hc1
    simp only [mem_append, mem_singleton] at hg1
    rcases hg1 with (hg1 | rfl) | hg1
    · rw [hheld g1 (mem_append_left _ hg1) (hk.trans hst) c1 hc1]
    · cases hc1
      rfl
    · rw [hheld g1 (mem_append_right _ hg1) (hk.trans hst) c1 hc1]

/-- A message that is requeued may free its group. -/
theorem requeued_kept (hstate : g.message.state = .acquired) : Kept name { s with
      manager := (s.manager.cached g.message a).put a st { st with
        owner := if st.acquired - 1 = 0 then "" else st.owner
        members := membersIn s.manager.groupOf pre st.group ++
          ⟨g.message.sequence, false⟩ :: membersIn s.manager.groupOf post st.group
        acquired := st.acquired - 1 }
      messages := pre ++ [{ message := g.message.setState .available }] ++ post } := by
  have ht := h.tracks a st ha
  have hgroup : s.manager.groupOf (g.message.setState .available) = s.manager.groupOf g.message := rfl
  have hcount := count_of h hms ha hst
  rw [if_pos hstate] at hcount
  have hprev := toNat_sub_one (x := st.acquired) (by omega)
  refine h.touch hms ha hst ?_ rfl (by simp) (by simpa using hgroup) (by simp) (by simp)
  have hcou' : (st.acquired - 1).toNat = (membersIn s.manager.groupOf (pre ++ post) st.group).countP (·.acquired) := by
    omega
  refine ⟨?_, by simp, ?_, released_owned ht (by omega), ?_⟩
  · simp [membersIn_cons, hst, hgroup]
  · rw [countP_cons_false, ← membersIn_append]
    exact hcou'
  intro g1 hg1 hk c hc
  simp only [mem_append, mem_singleton] at hg1
  rcases hg1 with (hg1 | rfl) | hg1
  · exact h.released_owner hms ha hcou' g1 (mem_append_left _ hg1) hk c hc
  · cases hc
  · exact h.released_owner hms ha hcou' g1 (mem_append_right _ hg1) hk c hc

/-- A message that is dequeued may free its group, or leave it empty. -/
theorem dequeued_kept (hcount : count.toNat = (membersIn s.manager.groupOf (pre ++ post) st.group).countP (·.acquired))
    (hle : 0 < count.toNat → 0 < st.acquired.toNat)
    (hne : membersIn s.manager.groupOf (pre ++ post) st.group ≠ []) :
    Kept name { s with
      manager := (s.manager.cached g.message a).put a st { st with
        owner := if count = 0 then "" else st.owner
        members := membersIn s.manager.groupOf (pre ++ post) st.group
        acquired := count }
      messages := pre ++ post } := by
  have htra : Tracks name s.manager.groupOf (pre ++ [] ++ post) { st with
      owner := if count = 0 then "" else st.owner
      members := membersIn s.manager.groupOf (pre ++ post) st.group
      acquired := count } := by
    rw [append_nil]
    exact ⟨rfl, hne, hcount, released_owned (h.tracks a st ha) hle, h.released_owner hms ha hcount⟩
  have hnil : (([] : List (Grouped C)).map (·.message.sequence)).Sublist [g.message.sequence] := nil_sublist _
  have := h.touch hms ha hst htra rfl hnil (by simp) (by simp) (by simp)
  rwa [append_nil] at this

end

theorem acquire_step {c : C} (hname : name c ≠ "")
    (hsole : ∀ g' ∈ s.messages, s.manager.groupOf g'.message = s.manager.groupOf g.message →
      ∀ c', g'.holder = some c' → name c' = name c → c' = c) :
    Kept name (s.acquireAt name c pre.length g) := by
  obtain ⟨hg, a, st, ha, hst, hmem, hlt⟩ := h.groupState hms
  have hcac := h.sound.cached ha hst
  have hset : s.messages.set pre.length { message := g.message.setState .acquired, holder := some c } =
      pre ++ [{ message := g.message.setState .acquired, holder := some c }] ++ post := by simp [hms]
  unfold acquireAt
  by_cases hstate : g.message.state = .available
  swap
  · simp only [acquire, hstate]
    exact h
  have hmem' : st.members = membersIn s.manager.groupOf pre st.group ++
      ⟨g.message.sequence, false⟩ :: membersIn s.manager.groupOf post st.group := by
    rw [hmem, hstate]
    rfl
  have hfit : ∀ mgr : MessageGroupManager, mgr.lastGroup = mgr.groupOf g.message →
      CacheFits mgr (g.message.setState .acquired) := fun mgr hlast _ _ => hlast.symm
  by_cases howner : st.owner = ""
  · obtain ⟨y, rest, hy⟩ := exists_cons_of_ne_nil (h.tracks a st ha).nonempty
    have howned : freeHead { st with owner := name c } = none := freeHead_owned hname
    have hput : ((s.manager.cached g.message a).put a st { st with owner := name c }).groups a =
        some { st with owner := name c } := by simp
    have hsound : Sound ((s.manager.cached g.message a).put a st { st with owner := name c }) :=
      hcac.put ha rfl fun p hp => by rw [howned] at hp; cases hp
    rw [acquire_free h.sound (h.cacheFits hg) ha hst hstate howner hname hy]
    dsimp only
    rw [acquired_eq hsound (hfit _ rfl) hput hst hmem' rfl hlt,
      put_put g.message (g.message.setState .acquired) rfl rfl (.inl howned), hset]
    exact h.acquired_by hms ha hst hstate hname (.inl howner) hsole
  rw [acquire_owned h.sound (h.cacheFits hg) ha hst hstate howner]
  by_cases hc : st.owner = name c
  swap
  · rw [if_neg hc]
    exact h.looked hms ha hst
  rw [if_pos hc]
  dsimp only
  rw [acquired_eq hcac (hfit _ rfl) ha hst hmem' rfl hlt, hset]
  have := h.acquired_by hms ha hst hstate hname (.inr hc) hsole
  rw [← hc] at this
  exact this

theorem requeue_step (hstate : g.message.state = .acquired) :
    Kept name (s.told (s.manager.requeued (g.message.setState .available))
      (s.messages.set pre.length { message := g.message.setState .available })) := by
  obtain ⟨hg, a, st, ha, hst, hmem, hlt⟩ := h.groupState hms
  have ht := h.tracks a st ha
  have hset : s.messages.set pre.length { message := g.message.setState .available } =
      pre ++ [{ message := g.message.setState .available }] ++ post := by simp [hms]
  have hpos : 0 < st.acquired.toNat := by
    rw [h.count_of hms ha hst, if_pos hstate]
    omega
  have hcount : st.acquired ≠ 0 := fun e => by simp [e] at hpos
  have hfits : CacheFits s.manager (g.message.setState .available) := h.cacheFits hg
  rw [requeued_eq h.sound hfits ha hst hmem rfl hlt hcount (ht.owned.2 hpos) (h.other ha), hset]
  exact h.requeued_kept hms ha hst hstate

theorem dequeue_step : Kept name (s.told (s.manager.dequeued g.message) (s.messages.eraseIdx pre.length)) := by
  obtain ⟨hg, a, st, ha, hst, hmem, hlt⟩ := h.groupState hms
  have hcou := h.count_of hms ha hst
  have hcount : decide (g.message.state = .acquired) = true → st.acquired ≠ 0 := by
    intro hacq e
    rw [if_pos (of_decide_eq_true hacq), e] at hcou
    simp at hcou
  by_cases hlast : membersIn s.manager.groupOf (pre ++ post) st.group = []
  · obtain ⟨hpre, hpost⟩ := append_eq_nil_iff.1 ((membersIn_append ..).symm.trans hlast)
    rw [hpre, hpost] at hmem
    rw [dequeued_last h.sound (h.cacheFits hg) ha hst hmem rfl hcount, eraseIdx_around hms]
    exact h.dropped hms ha hst hlast
  obtain ⟨y, rest, hrest⟩ := exists_cons_of_ne_nil hlast
  rw [membersIn_append] at hrest
  have hlen : st.members.length < 2 ^ 32 := by
    have := h.length_lt ha
    omega
  rw [dequeued_eq h.sound (h.cacheFits hg) ha hst hmem rfl hlt hcount hlen hrest (h.other ha) rfl, eraseIdx_around hms,
    ← membersIn_append]
  by_cases hacq : g.message.state = .acquired
  · rw [if_pos hacq] at hcou
    have hprev := toNat_sub_one (x := st.acquired) (by omega)
    rw [decide_eq_true hacq, if_pos rfl]
    exact h.dequeued_kept hms ha hst (by omega) (by omega) hlast
  · rw [if_neg hacq] at hcou
    rw [decide_eq_false hacq]
    exact h.dequeued_kept hms ha hst hcou id hlast

theorem remove_step (hstate : g.message.state = .available) :
    Kept name (s.told (s.manager.acquired g.message >>= fun manager => manager.dequeued g.message)
      (s.messages.eraseIdx pre.length)) := by
  obtain ⟨hg, a, st, ha, hst, hmem, hlt⟩ := h.groupState hms
  have hcou := h.count_of hms ha hst
  rw [if_neg (by simp [hstate])] at hcou
  have hnext := toNat_add_one (h.count_lt ha)
  set before := membersIn s.manager.groupOf pre st.group
  set after := membersIn s.manager.groupOf post st.group
  set st1 : GroupState := { st with
    members := before ++ ⟨g.message.sequence, true⟩ :: after, acquired := st.acquired + 1 } with hst1
  have hfree : freeHead st1 = freeHead st := freeHead_congr rfl (by rw [hst1, hmem]; cases before <;> rfl)
  have hgro : ((s.manager.cached g.message a).put a st st1).groups a = some st1 := by simp
  have hsound : Sound ((s.manager.cached g.message a).put a st st1) :=
    (h.sound.cached ha hst).put ha rfl (h.other_head ha hfree)
  have hother : ∀ y ∈ st1.members, ∀ b g1, b ≠ a →
      ((s.manager.cached g.message a).put a st st1).groups b = some g1 →
      freeHead g1 ≠ some y.position := by
    intro y hy b g1 hb hg1
    obtain ⟨y', hy', hpos⟩ : ∃ y' ∈ st.members, y'.position = y.position := by
      rw [hmem]
      simp only [hst1, mem_append, mem_cons] at hy ⊢
      rcases hy with hy | rfl | hy
      · exact ⟨y, .inl hy, rfl⟩
      · exact ⟨_, .inr (.inl rfl), rfl⟩
      · exact ⟨y, .inr (.inr hy), rfl⟩
    rw [← hpos]
    exact h.other ha y' hy' b g1 hb (by simpa [hb] using hg1)
  have hfits : CacheFits ((s.manager.cached g.message a).put a st st1) g.message := fun _ _ => rfl
  have hcount : st1.acquired ≠ 0 := by
    intro e
    have : (st.acquired + 1).toNat = 0 := congrArg BitVec.toNat e
    omega
  rw [acquired_eq h.sound (h.cacheFits hg) ha hst hmem rfl hlt]
  simp only [bind, Except.bind]
  by_cases hlast : before ++ after = []
  · obtain ⟨hpre, hpost⟩ := append_eq_nil_iff.1 hlast
    have hmem1 : st1.members = [⟨g.message.sequence, true⟩] := by rw [hst1, hpre, hpost]; rfl
    have hdrop : (((s.manager.cached g.message a).put a st st1).cached g.message a).drop a st1 =
        (s.manager.cached g.message a).drop a st := by
      simp only [drop, put, cached, Function.update_idem, rekey_rekey (.inr hfree)]
      congr 1
    rw [dequeued_last hsound hfits hgro hst hmem1 rfl (fun _ => hcount), eraseIdx_around hms, hdrop]
    exact h.dropped hms ha hst ((membersIn_append ..).trans hlast)
  obtain ⟨y, rest, hrest⟩ := exists_cons_of_ne_nil hlast
  have hlen : st1.members.length < 2 ^ 32 := by
    have hsame : st1.members.length = st.members.length := by simp [hst1, hmem]
    have := h.length_lt ha
    omega
  have hback : st.acquired = if true = true then st1.acquired - 1 else st1.acquired := by
    exact (BitVec.add_sub_cancel st.acquired 1).symm
  rw [dequeued_eq hsound hfits hgro hst (rfl : st1.members = _) rfl hlt (fun _ => hcount) hlen hrest hother hback,
    put_put g.message g.message rfl rfl (.inr hfree), eraseIdx_around hms, ← membersIn_append]
  exact h.dequeued_kept hms ha hst hcou id (membersIn_append .. ▸ hlast)

end

theorem cacheFits_next {m : Message} (hm : m.sequence = s.sequence + 1) : CacheFits s.manager m := by
  intro hc hlast
  have hrec := h.recent hc
  simp only [Serial.dist] at hrec
  bv_omega

/-- A message enqueued is the last of its group. -/
theorem added (hseq : new.message.sequence = s.sequence + 1)
    (hstate : new.message.state = .available) (hhol : new.holder = none)
    (hw : ∀ g ∈ s.messages, Serial.dist g.message.sequence (s.sequence + 1) < 2 ^ 31)
    (hsound : Sound mgr) (hgroup : mgr.groupOf = s.manager.groupOf)
    (hlast : mgr.lastMsg = new.message.sequence) (hlast' : mgr.lastGroup = s.manager.groupOf new.message)
    (hknown : ∀ g ∈ s.messages ++ [new], ∃ a st, mgr.groups a = some st ∧
      st.group = s.manager.groupOf g.message)
    (htra : ∀ a st, mgr.groups a = some st → Tracks name s.manager.groupOf (s.messages ++ [new]) st) :
    Kept name { s with manager := mgr, messages := s.messages ++ [new], sequence := s.sequence + 1 } := by
  have hord : Ordered (s.sequence + 1) ((s.messages ++ [new]).map (·.message.sequence)) := by
    simp only [map_append, map_cons, hseq]
    refine h.ordered.next fun p hp => ?_
    obtain ⟨g, hg, rfl⟩ := mem_map.1 hp
    exact hw g hg
  have hmem : ∀ g ∈ s.messages ++ [new], g ∈ s.messages ∨ g = new := by simp
  refine ⟨h.asserts, hsound, hord, fun _ => ?_, fun _ g hg he => ?_, fun g hg => ?_, ?_, ?_, ?_⟩
  · rw [hlast, hseq, dist_self]
    exact Nat.two_pow_pos 31
  · have hnew : new ∈ s.messages ++ [new] := by simp
    have hsame := inj_on_of_nodup_map hord.nodup hg hnew (he.trans hlast)
    rw [hgroup, hlast', hsame]
  · rcases hmem g hg with hg | rfl
    · exact h.holders g hg
    · simp [hstate, hhol]
  · intro g hg g' hg' hk c c' hc hc'
    rw [hgroup] at hk
    rcases hmem g hg with hg | rfl
    · rcases hmem g' hg' with hg' | rfl
      · exact h.same g hg g' hg' hk c c' hc hc'
      · cases hhol.symm.trans hc'
    · cases hhol.symm.trans hc
  · rw [hgroup]
    exact hknown
  · rw [hgroup]
    exact htra

theorem tracks_other (ha : s.manager.groups a = some st) (hne : s.manager.groupOf new.message ≠ st.group) :
    Tracks name s.manager.groupOf (s.messages ++ [new]) st := by
  have ht := h.tracks a st ha
  refine ⟨?_, ht.nonempty, ht.count, ht.owned, fun g hg hk => ?_⟩
  · rw [membersIn_append, membersIn_cons_other hne, ht.members]
    simp [membersIn]
  rcases mem_append.1 hg with hg | hg
  · exact ht.owner g hg hk
  · rw [mem_singleton.1 hg] at hk
    exact absurd hk hne

theorem enqueued_kept (hseq : new.message.sequence = s.sequence + 1)
    (hstate : new.message.state = .available) (hhol : new.holder = none)
    (hw : ∀ g ∈ s.messages, Serial.dist g.message.sequence (s.sequence + 1) < 2 ^ 31) :
    ∃ mgr, s.manager.enqueued new.message = .ok mgr ∧
      Kept name { s with manager := mgr, messages := s.messages ++ [new], sequence := s.sequence + 1 } := by
  have hfits := h.cacheFits_next hseq
  have hmem : ∀ g ∈ s.messages ++ [new], g ∈ s.messages ∨ g = new := by simp
  by_cases hknown : ∃ a st, s.manager.groups a = some st ∧ st.group = s.manager.groupOf new.message
  · obtain ⟨a, st, ha, hst⟩ := hknown
    have ht := h.tracks a st ha
    obtain ⟨y, rest, hy⟩ := exists_cons_of_ne_nil ht.nonempty
    have hfree : freeHead { st with members := st.members ++ [{ position := new.message.sequence }] } = freeHead st :=
      freeHead_congr rfl (by simp [hy])
    refine ⟨_, enqueued_eq h.sound hfits ha hst hy (h.length_lt ha), ?_⟩
    refine h.added hseq hstate hhol hw ?_ rfl rfl rfl (fun g hg => ?_) fun b st1 hb => ?_
    · exact (h.sound.cached ha hst).put ha rfl (h.other_head ha hfree)
    · rcases hmem g hg with hg | rfl
      · exact h.known_put ha rfl hg
      · exact ⟨a, _, Function.update_self .., hst⟩
    by_cases hba : b = a
    swap
    · have hb' : s.manager.groups b = some st1 := by simpa [hba] using hb
      exact h.tracks_other hb' (hst ▸ h.group_ne ha hb' hba)
    subst hba
    obtain rfl : { st with members := st.members ++ [{ position := new.message.sequence }] } = st1 := by
      simpa using hb
    refine ⟨?_, by simp, ?_, ht.owned, fun g hg hk c hc => ?_⟩
    · rw [membersIn_append, membersIn_cons hst.symm, ht.members, hstate]
      rfl
    · simp [ht.count]
    · rcases hmem g hg with hg | rfl
      · exact ht.owner g hg hk c hc
      · cases hhol.symm.trans hc
  have hnew : ∀ b st1, s.manager.groups b = some st1 → st1.group ≠ s.manager.groupOf new.message :=
    fun b st1 hb e => hknown ⟨b, st1, hb, e⟩
  have hfree : ∀ b st1, s.manager.groups b = some st1 → freeHead st1 ≠ some new.message.sequence := by
    intro b st1 hb hp
    obtain ⟨x, hx, hpos⟩ := mem_of_freeHead hp
    rw [(h.tracks b st1 hb).members, mem_membersIn] at hx
    obtain ⟨g, hg, _, rfl⟩ := hx
    have hwin := h.ordered.window _ (mem_map_of_mem hg)
    simp only [Serial.dist] at hwin
    bv_omega
  refine ⟨_, enqueued_new h.sound hfits hnew hfree, ?_⟩
  have hfresh : ∀ b st1, s.manager.groups b = some st1 → b ≠ s.manager.allocated := by
    rintro b st1 hb rfl
    rw [h.sound.fresh _ (le_refl _)] at hb
    cases hb
  refine h.added hseq hstate hhol hw (h.sound.create hnew hfree) rfl rfl rfl (fun g hg => ?_) fun b st1 hb => ?_
  · rcases hmem g hg with hg | rfl
    · obtain ⟨b, st1, hb, hst1⟩ := h.known g hg
      exact ⟨b, st1, by simpa [create, hfresh b st1 hb] using hb, hst1⟩
    · exact ⟨s.manager.allocated, _, Function.update_self .., rfl⟩
  by_cases hba : b = s.manager.allocated
  swap
  · have hb' : s.manager.groups b = some st1 := by simpa [create, hba] using hb
    exact h.tracks_other hb' fun e => hnew b st1 hb' e.symm
  subst hba
  obtain rfl : ({ group := s.manager.groupOf new.message
                  members := [{ position := new.message.sequence }] } : GroupState) = st1 := by
    simpa [create] using hb
  -- No other message is of a group that the manager did not know.
  have hnone : ∀ g ∈ s.messages, s.manager.groupOf g.message ≠ s.manager.groupOf new.message := by
    intro g hg e
    obtain ⟨b, st1, hb, hst1⟩ := h.known g hg
    exact hnew b st1 hb (hst1.trans e)
  refine ⟨?_, by simp, by simp, by simp, fun g hg hk c hc => ?_⟩
  · rw [membersIn_append, membersIn_eq_nil.2 hnone, membersIn_cons rfl, hstate]
    rfl
  · rcases hmem g hg with hg | rfl
    · exact absurd hk (hnone g hg)
    · cases hhol.symm.trans hc

end Kept

/-- Every call keeps what is known of the groups. -/
theorem Kept.step {s s' : GroupQueue C} {call : GroupQueue.Call C} (h : Kept name s) (hok : s.Named name call)
    (hs : s.step name call = some s') : Kept name s' := by
  have hat : ∀ {i : Nat} {g : Grouped C}, s.messages[i]? = some g →
      ∃ pre post, s.messages = pre ++ g :: post ∧ pre.length = i := by
    intro i g hi
    obtain ⟨hlt, rfl⟩ := List.getElem?_eq_some_iff.1 hi
    exact ⟨s.messages.take i, s.messages.drop (i + 1), by simp, by simp; omega⟩
  unfold GroupQueue.step at hs
  rw [if_neg (by simp [h.asserts])] at hs
  cases call with
  | enqueue m =>
    cases hs
    obtain ⟨mgr, hmgr, hkept⟩ := h.enqueued_kept
      (show (⟨(m.setSequence (s.sequence + 1)).setState .available, none⟩ : Grouped C).message.sequence =
        _ from rfl)
      rfl rfl hok
    rw [hmgr]
    exact hkept
  | acquire c i =>
    obtain ⟨g, hi, rfl⟩ := map_eq_some_iff.1 hs
    obtain ⟨pre, post, hms, rfl⟩ := hat hi
    exact h.acquire_step hms hok.1 fun g' hg' hk c' hc' => hok.2 g hi g' hg' hk c' hc'
  | requeue i =>
    obtain ⟨g, hi, hs⟩ := bind_eq_some_iff.1 hs
    obtain ⟨pre, post, hms, rfl⟩ := hat hi
    split at hs
    · rename_i hstate
      cases hs
      exact h.requeue_step hms hstate
    · cases hs
  | dequeue i =>
    obtain ⟨g, hi, rfl⟩ := map_eq_some_iff.1 hs
    obtain ⟨pre, post, hms, rfl⟩ := hat hi
    exact h.dequeue_step hms
  | remove i =>
    obtain ⟨g, hi, hs⟩ := bind_eq_some_iff.1 hs
    obtain ⟨pre, post, hms, rfl⟩ := hat hi
    split at hs
    · rename_i hstate
      cases hs
      exact h.remove_step hms hstate
    · cases hs

/-! ## Runs -/

theorem Kept.initial (groupIdHeader defaultGroupId : String) :
    Kept name ({ manager := { groupIdHeader, defaultGroupId } } : GroupQueue C) where
  asserts := rfl
  sound := ⟨.initial .., fun p a => by simp⟩
  ordered := ⟨List.Pairwise.nil, by simp⟩
  recent := fun ht => by cases ht
  cache := fun ht => by cases ht
  holders := by simp
  same := by simp
  known := by simp
  tracks := fun a st ha => by cases ha

theorem Kept.stateOf_iff {s : GroupQueue C} (h : Kept name s) {group : String} {st : GroupState} :
    s.stateOf group = some st ↔ ∃ a, s.manager.groups a = some st ∧ st.group = group := by
  unfold stateOf
  rw [bind_eq_some_iff]
  constructor
  · rintro ⟨a, ha, hst⟩
    have := (h.sound.index group a).1 ha
    exact ⟨a, hst, by simpa [hst] using this⟩
  · rintro ⟨a, hst, rfl⟩
    exact ⟨a, (h.sound.index _ a).2 (by simp [hst]), hst⟩

theorem Kept.exclusive {s : GroupQueue C} (h : Kept name s) : s.Exclusive name where
  asserts := h.asserts
  same := by
    intro g hg g' hg' hk hacq hacq'
    obtain ⟨c, hc⟩ := isSome_iff_exists.1 ((h.holders g hg).1 hacq)
    obtain ⟨c', hc'⟩ := isSome_iff_exists.1 ((h.holders g' hg').1 hacq')
    rw [hc, hc', h.same g hg g' hg' hk c c' hc hc']
  owner := by
    intro g hg hacq
    obtain ⟨c, hc⟩ := isSome_iff_exists.1 ((h.holders g hg).1 hacq)
    obtain ⟨a, st, ha, hst⟩ := h.known g hg
    exact ⟨c, st, hc, h.stateOf_iff.2 ⟨a, ha, hst⟩, ((h.tracks a st ha).owner g hg hst.symm c hc).symm⟩
  known := by
    intro group
    constructor
    · intro hnone
      refine membersIn_eq_nil.2 fun g hg hk => ?_
      obtain ⟨a, st, ha, hst⟩ := h.known g hg
      rw [h.stateOf_iff.2 ⟨a, ha, hst.trans hk⟩] at hnone
      cases hnone
    intro hempty
    by_contra hsome
    obtain ⟨st, hst⟩ := ne_none_iff_exists'.1 hsome
    obtain ⟨a, ha, rfl⟩ := h.stateOf_iff.1 hst
    exact (h.tracks a st ha).nonempty ((h.tracks a st ha).members.trans hempty)
  members := by
    intro group st hst
    obtain ⟨a, ha, rfl⟩ := h.stateOf_iff.1 hst
    exact (h.tracks a st ha).members
  sorted := by
    intro group st hst
    obtain ⟨a, ha, rfl⟩ := h.stateOf_iff.1 hst
    rw [(h.tracks a st ha).members]
    exact pairwise_map.1 (h.ordered.pairwise_lt.sublist membersIn_positions)
  count := by
    intro group st hst
    obtain ⟨a, ha, rfl⟩ := h.stateOf_iff.1 hst
    exact (h.tracks a st ha).count
  owned := by
    intro group st hst
    obtain ⟨a, ha, rfl⟩ := h.stateOf_iff.1 hst
    rw [← (h.tracks a st ha).owned]
    simp [GroupState.owned]
  free := by
    intro p a
    rw [h.sound.free p a, bind_eq_some_iff]
    constructor
    · rintro ⟨st, hst, hfree⟩
      refine ⟨st.group, st, (h.sound.index _ a).2 (by simp [hst]), hst, ?_⟩
      unfold freeHead at hfree
      split at hfree
      · cases hfree
      · exact ⟨Bool.eq_false_of_not_eq_true (by assumption), hfree⟩
    · rintro ⟨group, st, _, hst, howned, hhead⟩
      exact ⟨st, hst, by simp [freeHead, howned, hhead]⟩

/-- In every run under names that tell the consumers apart, the groups are exclusive. -/
theorem run_exclusive {groupIdHeader defaultGroupId : String} {calls : List (GroupQueue.Call C)} {s : GroupQueue C}
    (h : Run (GroupQueue.step name) (GroupQueue.Named name) { manager := { groupIdHeader, defaultGroupId } } calls s) :
    s.Exclusive name :=
  (h.keep (fun hk hok hs => hk.step hok hs) (Kept.initial groupIdHeader defaultGroupId)).exclusive

def sample (group : String) : Message := { encoding := some { properties := [("g", group)] } }

/-- Two consumers compete for two groups, with a requeue, an acknowledgement and a purge. -/
theorem run_exclusive_competing : ∃ s : GroupQueue String,
    (Run (GroupQueue.step id) (GroupQueue.Named id) { manager := { groupIdHeader := "g", defaultGroupId := "-" } }
      [.enqueue (sample "x"), .enqueue (sample "y"), .enqueue (sample "x"), .acquire "a" 0, .acquire "b" 2,
        .acquire "b" 1, .requeue 0, .acquire "b" 2, .dequeue 1, .remove 0] s ∧
      s.messages.map (·.holder) = [some "b"]) ∧ s.Exclusive id := by
  exact exists_run (by decide +kernel) fun s hs hg => ⟨⟨hs, hg⟩, run_exclusive hs⟩

/-- A consumer without a name acquires a message, and its group is taken for free;
the next consumer that acquires one fails an assertion. -/
theorem unnamed_fails : ∃ s : GroupQueue String,
    Run (GroupQueue.step id) (fun _ _ => True) { manager := { groupIdHeader := "g", defaultGroupId := "-" } }
      [.enqueue (sample "x"), .enqueue (sample "x"), .acquire "" 0, .acquire "b" 1] s ∧
      s.failed = some .notFree ∧ ¬ s.Exclusive id := by
  exact exists_run (by decide +kernel) fun s hs hg => ⟨hs, hg, fun h => by cases hg.symm.trans h.asserts⟩

/-! ## Explicit acquisition -/

/-- Where no consumer acquires a message under a name that another holds messages of the group
under, no two hold messages of one group. -/
theorem sole_consumer {groupIdHeader defaultGroupId : String} {calls : List (GroupQueue.Call (SessionConsumer × Bool))}
    {s : GroupQueue (SessionConsumer × Bool)}
    (h : Run (GroupQueue.step acquirer) (GroupQueue.Named acquirer) { manager := { groupIdHeader, defaultGroupId } }
      calls s) : s.Sole := by
  have hk : Kept acquirer s := h.keep (fun hk hok hs => hk.step hok hs) (Kept.initial groupIdHeader defaultGroupId)
  intro g hg g' hg' hgroup a ha a' ha'
  exact congrArg Prod.fst (hk.same g hg g' hg' hgroup a a' ha ha')

/-- A consumer is dispatched one message of a group and asks for the other, which it is not given
under its tag; one of another session, with the same tag, gets neither. -/
theorem sole_consumer_refused : ∃ s : GroupQueue (SessionConsumer × Bool),
    (Run (GroupQueue.step acquirer) (GroupQueue.Named acquirer)
      { manager := { groupIdHeader := "g", defaultGroupId := "-" } }
      [.enqueue (sample "x"), .enqueue (sample "x"), .acquire (⟨"s", "t"⟩, false) 0,
        .acquire (⟨"s", "t"⟩, true) 1,
        .acquire (⟨"r", "t"⟩, true) 1] s ∧
      s.messages.map (·.holder) = [some (⟨"s", "t"⟩, false), none]) ∧ s.Sole := by
  exact exists_run (by decide +kernel) fun s hs hg => ⟨⟨hs, hg⟩, sole_consumer hs⟩

/-- Two consumers with one tag, of two sessions, each ask for a message of a group, and get it. -/
theorem same_tag_shares : ∃ s : GroupQueue (SessionConsumer × Bool),
    Run (GroupQueue.step acquirer) (fun _ _ => True) { manager := { groupIdHeader := "g", defaultGroupId := "-" } }
      [.enqueue (sample "x"), .enqueue (sample "x"), .acquire (⟨"s", "t"⟩, true) 0,
        .acquire (⟨"r", "t"⟩, true) 1] s ∧
      s.messages.map (·.holder) = [some (⟨"s", "t"⟩, true), some (⟨"r", "t"⟩, true)] ∧
      s.messages.map s.groupOf = ["x", "x"] := by
  exact exists_run (by decide +kernel) fun s hs h => ⟨hs, h⟩

end QB.Impl.GroupQueue
