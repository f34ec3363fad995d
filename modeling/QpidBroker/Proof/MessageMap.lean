import QpidBroker.Framework.Assoc
import QpidBroker.Proof.IndexedDeque
import QpidBroker.Spec.LastValue

/-!
# The two maps of a last value queue

What each call does to what is found in the index and in the sequence map
(`index_update`, `lookup_update`, `index_deleted`, `lookup_deleted`), and from it
that the two stay in bijection (`InBijection.call`) and hold the newest message
of each key (`Newest.call`). A number that is replaced is not held again before
it is published again (`not_held_of_replaced`).
-/

namespace QB.Impl.MessageMap

open Serial Spec Spec.LastValue List

variable {q : MessageMap} {m added : Message} {p : SequenceNumber}

/-! ## Reading and writing -/

theorem getKey_congr {q' : MessageMap} {m' : Message} (hk : q'.key = q.key)
    (he : m'.encoding = m.encoding) : q'.getKey m' = q.getKey m := by
  rw [getKey, getKey, Message.getPropertyAsString, Message.getPropertyAsString, hk, he]

@[simp] theorem modify_index (f : Message → Message) : (q.modify p f).index = q.index := rfl

@[simp] theorem modify_key (f : Message → Message) : (q.modify p f).key = q.key := rfl

theorem lookup_modify (p' : SequenceNumber) (f : Message → Message) :
    (q.modify p f).lookup p' = (q.lookup p').map fun m => if p' = p then f m else m :=
  Assoc.lookup_map p p' f q.messages

theorem numbers_modify (f : Message → Message) : (q.modify p f).messages.map Prod.fst = q.messages.map Prod.fst := by
  rw [modify, map_map]
  refine map_congr_left fun e _ => ?_
  rw [Function.comp_apply]
  split <;> rfl

variable {l : List (SequenceNumber × Message)} {c : QueueCursor}

/-- A number ahead of all others is inserted at the end. -/
theorem insert_ahead (h : ∀ e ∈ l, Ahead e.1 p) : insert l p m = l ++ [(p, m)] := by
  induction l with
  | nil => rfl
  | cons e l ih =>
    obtain ⟨p', m'⟩ := e
    have he : Ahead p' p := h (p', m') mem_cons_self
    have hlt : ¬ p.lt p' = true := by
      rw [SequenceNumber.lt_iff]
      exact Nat.not_le.2 he.2
    rw [insert, if_neg he.ne.symm, if_neg hlt, ih fun e he => h e (mem_cons_of_mem _ he)]
    rfl

theorem lookup_append_ahead (h : ∀ e ∈ l, Ahead e.1 p) (p' : SequenceNumber) :
    (l ++ [(p, m)]).lookup p' = if p' = p then some m else l.lookup p' := by
  rw [lookup_append]
  by_cases hp : p' = p
  swap
  · rw [if_neg hp, Assoc.lookup_cons_ne hp]
    exact Option.or_none
  subst hp
  have hnone : l.lookup p' = none := by
    refine Assoc.lookup_eq_none_of_notMem fun hmem => ?_
    obtain ⟨e, he, rfl⟩ := mem_map.1 hmem
    exact (h e he).ne rfl
  rw [hnone, if_pos rfl, Assoc.lookup_cons_self]
  rfl

/-! ## What `update` does -/

/-- The number of the message that is replaced. -/
def replacedNumber (q : MessageMap) (added : Message) : Option SequenceNumber :=
  (q.index.lookup (q.getKey added)).map (·.sequence)

/-- The messages but for the one that is replaced. -/
def kept (q : MessageMap) (added : Message) : List (SequenceNumber × Message) :=
  q.messages.filter fun e => some e.1 ≠ q.replacedNumber added

theorem kept_ahead (h : ∀ e ∈ q.messages, Ahead e.1 added.sequence) :
    ∀ e ∈ q.kept added, Ahead e.1 added.sequence :=
  fun e he => h e (mem_of_mem_filter he)

theorem modify_insert_ahead (h : ∀ e ∈ l, Ahead e.1 added.sequence) : ((insert l added.sequence added).map fun e =>
      if e.1 = added.sequence then (e.1, e.2.setState .available) else e) =
      l ++ [(added.sequence, added.setState .available)] := by
  rw [insert_ahead h, map_append, map_cons, if_pos rfl]
  refine congrArg (· ++ _) ?_
  conv_rhs => rw [← map_id l]
  exact map_congr_left fun e he => if_neg (h e he).ne

theorem replace_eq (h : ∀ e ∈ q.messages, Ahead e.1 added.sequence) {original : Message}
    (ho : q.index.lookup (q.getKey added) = some original) :
    q.replace original added = (added.setState .available,
      { q with messages := q.kept added ++ [(added.sequence, added.setState .available)] }) := by
  have hkept : (q.messages.filter fun e => e.1 ≠ original.sequence) = q.kept added := by
    simp [kept, replacedNumber, ho]
  simp only [replace, modify, hkept, modify_insert_ahead (kept_ahead h), lookup,
    lookup_append_ahead (kept_ahead h), if_true, Option.getD_some]

/-- The new message is at the end, the one it replaces is gone. -/
theorem messages_update (h : ∀ e ∈ q.messages, Ahead e.1 added.sequence) :
    (q.update added).messages = q.kept added ++ [(added.sequence, added.setState .available)] := by
  unfold update
  cases hi : q.index.lookup (q.getKey added) with
  | none =>
    have hkept : q.kept added = q.messages := by
      simp [kept, replacedNumber, hi]
    simp [modify, hkept, modify_insert_ahead h]
  | some original => simp [replace_eq h hi]

/-- What is held under each number after a message is added. -/
theorem lookup_update (h : ∀ e ∈ q.messages, Ahead e.1 added.sequence) (p : SequenceNumber) :
    (q.update added).lookup p =
      if p = added.sequence then some (added.setState .available)
      else if some p = q.replacedNumber added then none else q.lookup p := by
  rw [lookup, messages_update h, lookup_append_ahead (kept_ahead h)]
  refine if_congr Iff.rfl rfl ?_
  rw [kept]
  cases hr : q.replacedNumber added with
  | none => simp [lookup]
  | some n =>
    simp only [ne_eq, Option.some.injEq]
    exact Assoc.lookup_filter_ne n p q.messages

@[simp] theorem update_key : (q.update added).key = q.key := by
  unfold update
  split <;> rfl

/-- What the index has under each key after a message is added. -/
theorem index_update (h : ∀ e ∈ q.messages, Ahead e.1 added.sequence) (k : String) :
    ((q.update added).index.lookup k).map content =
      if k = q.getKey added then some (content added) else (q.index.lookup k).map content := by
  unfold update
  cases hi : q.index.lookup (q.getKey added) with
  | none =>
    simp only [modify_index, lookup_append]
    by_cases hk : k = q.getKey added
    · subst hk
      rw [hi, if_pos rfl, Assoc.lookup_cons_self]
      rfl
    · rw [if_neg hk, Assoc.lookup_cons_ne hk]
      simp
  | some original =>
    simp only [replace_eq h hi]
    have hloo := Assoc.lookup_map (q.getKey added) k
      (fun _ => (added.setState .available).setState .available) q.index
    by_cases hk : k = q.getKey added
    · subst hk
      rw [if_pos rfl]
      refine (congrArg _ hloo).trans ?_
      rw [hi, Option.map_some, if_pos rfl]
      rfl
    · refine (congrArg _ hloo).trans ?_
      simp [hk]

theorem keys_update (hq : (q.index.map Prod.fst).Nodup) : ((q.update added).index.map Prod.fst).Nodup := by
  unfold update
  cases hi : q.index.lookup (q.getKey added) with
  | none =>
    have hnot : q.getKey added ∉ q.index.map Prod.fst := by
      rw [← Assoc.lookup_isSome_iff, hi]
      exact Bool.false_ne_true
    simp only [modify_index, map_append, map_cons]
    refine nodup_append.2 ⟨hq, nodup_singleton _, fun a ha b hb hab => hnot ?_⟩
    rwa [← mem_singleton.1 hb, ← hab]
  | some original =>
    simp only [map_map]
    refine (map_congr_left fun e _ => ?_).symm ▸ hq
    rw [Function.comp_apply]
    split <;> rfl

theorem numbers_update (h : ∀ e ∈ q.messages, Ahead e.1 added.sequence)
    (hq : (q.messages.map Prod.fst).Nodup) : ((q.update added).messages.map Prod.fst).Nodup := by
  rw [messages_update h, map_append]
  refine nodup_append.2 ⟨hq.sublist (filter_sublist.map Prod.fst), nodup_singleton _, ?_⟩
  intro a ha b hb hab
  obtain ⟨e, he, rfl⟩ := mem_map.1 ha
  exact (kept_ahead h e he).ne (hab.trans (mem_singleton.1 hb))

/-! ## What `deleted`, `release` and `acquire` do -/

theorem deleted_of_not_held (h : q.lookup c.position = none) : q.deleted c = (false, q) := by
  rw [deleted, h]

theorem release_of_not_held (h : q.lookup c.position = none) : q.release c = (none, q) := by
  rw [release, h]

/-- Under the number of the cursor nothing is left. -/
theorem lookup_deleted (c : QueueCursor) (p : SequenceNumber) :
    (q.deleted c).2.lookup p = if p = c.position then none else q.lookup p := by
  cases hc : q.lookup c.position with
  | none =>
    rw [deleted_of_not_held hc]
    split
    · rename_i hp
      rw [hp, hc]
    · rfl
  | some m =>
    rw [deleted, hc]
    exact Assoc.lookup_filter_ne c.position p q.messages

/-- The key of the message is taken from the index. -/
theorem index_deleted (h : q.lookup c.position = some m) (k : String) :
    (q.deleted c).2.index.lookup k = if k = q.getKey m then none else q.index.lookup k := by
  rw [deleted, h]
  exact Assoc.lookup_filter_ne (q.getKey m) k q.index

@[simp] theorem deleted_key (c : QueueCursor) : (q.deleted c).2.key = q.key := by
  unfold deleted
  split <;> rfl

theorem keys_deleted (hq : (q.index.map Prod.fst).Nodup) : ((q.deleted c).2.index.map Prod.fst).Nodup := by
  unfold deleted
  split
  · exact hq
  · exact hq.sublist (filter_sublist.map Prod.fst)

theorem numbers_deleted (hq : (q.messages.map Prod.fst).Nodup) : ((q.deleted c).2.messages.map Prod.fst).Nodup := by
  unfold deleted
  split
  · exact hq
  · exact hq.sublist (filter_sublist.map Prod.fst)

theorem modify_id : (q.modify p id) = q := by
  have hl : q.messages.map (fun e => if e.1 = p then (e.1, id e.2) else e) = q.messages := by
    conv_rhs => rw [← map_id q.messages]
    exact map_congr_left fun e _ => ite_self _
  rw [modify, hl]

theorem content_acquire (m : Message) : content (FifoDistributor.acquire m).2 = content m := by
  unfold FifoDistributor.acquire
  split <;> rfl

/-- A call publishes, deletes, or only writes the state of a message. -/
theorem call_cases (q : MessageMap) (a : Call) : (∃ m, published a = some m ∧ q.call a = q.update m ∧
      ∀ key v, LastValue.call key v a = fun k => if k = m.getPropertyAsString key then some m else v k) ∨
    (∃ c, a = .deleted c) ∨
    (published a = none ∧ (∀ key v, LastValue.call key v a = v) ∧
      ∃ p f, (∀ m, content (f m) = content m) ∧ q.call a = q.modify p f) := by
  cases a with
  | publish m => exact .inl ⟨m, rfl, rfl, fun _ _ => rfl⟩
  | update m => exact .inl ⟨m, rfl, rfl, fun _ _ => rfl⟩
  | deleted c => exact .inr (.inl ⟨c, rfl⟩)
  | acquire p =>
    refine .inr (.inr ⟨rfl, fun _ _ => rfl, ?_⟩)
    cases hp : (q.find p none).1 with
    | some p' => exact ⟨p', _, content_acquire, by simp [call, hp]⟩
    | none => exact ⟨p, id, fun _ => rfl, by simp [call, hp, modify_id]⟩
  | release c =>
    refine .inr (.inr ⟨rfl, fun _ _ => rfl, ?_⟩)
    cases hc : q.lookup c.position with
    | some m => exact ⟨c.position, (·.setState .available), fun _ => rfl, by simp [call, release, hc]⟩
    | none => exact ⟨c.position, id, fun _ => rfl, by simp [call, release, hc, modify_id]⟩

@[simp] theorem call_key (a : Call) : (q.call a).key = q.key := by
  rcases call_cases q a with ⟨m, -, h, -⟩ | ⟨c, rfl⟩ | ⟨-, -, p, f, -, h⟩
  · rw [h, update_key]
  · exact deleted_key c
  · rw [h, modify_key]

end QB.Impl.MessageMap

namespace QB.Spec.LastValue

open Impl Impl.MessageMap Serial List Option

variable {q : MessageMap} {m m' added : Message} {p : SequenceNumber} {k : String}

/-! ## The maps stay in bijection -/

theorem getKey_eq (h : content m' = content m) : q.getKey m' = q.getKey m :=
  getKey_congr rfl (congrArg Prod.fst h)

namespace InBijection

theorem exists_lookup (h : InBijection q) (hm : q.index.lookup k = some m) :
    ∃ m', q.lookup m.sequence = some m' ∧ content m' = content m :=
  map_eq_some_iff.1 (h.under_number hm).2

theorem exists_index (h : InBijection q) (hm : q.lookup p = some m) :
    ∃ m', q.index.lookup (q.getKey m) = some m' ∧ content m' = content m :=
  map_eq_some_iff.1 (h.under_key hm).2

/-- A number is in the index under the key of its message only. -/
theorem getKey_of_sequence (h : InBijection q) (hm : q.lookup p = some m) (hm' : q.index.lookup k = some m')
    (hp : m'.sequence = p) : k = q.getKey m := by
  obtain ⟨x, hx, hcon⟩ := h.exists_lookup hm'
  rw [hp, hm] at hx
  rw [← (h.under_number hm').1, ← getKey_eq hcon, Option.some.inj hx]

/-- A message is replaced if the new one has its key. -/
theorem replacedNumber_iff (h : InBijection q) (hm : q.lookup p = some m) :
    some p = q.replacedNumber added ↔ q.getKey added = q.getKey m := by
  obtain ⟨x, hx, hcon⟩ := h.exists_index hm
  have hxp : x.sequence = p := (congrArg Prod.snd hcon).trans (h.under_key hm).1
  rw [replacedNumber]
  constructor
  · intro hp
    obtain ⟨o, ho, hop⟩ := map_eq_some_iff.1 hp.symm
    exact h.getKey_of_sequence hm ho hop
  · intro hk
    rw [hk, hx, map_some, hxp]

/-- Adding a message keeps the bijection, under the key of the one replaced. -/
theorem update (h : InBijection q) (hinc : ∀ e ∈ q.messages, Ahead e.1 added.sequence) :
    InBijection (q.update added) where
  keys := keys_update h.keys
  numbers := numbers_update hinc h.numbers
  under_number {k m} hm := by
    have hindex := index_update hinc k
    rw [hm, map_some, eq_comm] at hindex
    have hget : (q.update added).getKey m = q.getKey m := getKey_congr update_key rfl
    rw [hget, lookup_update hinc]
    split at hindex
    · rename_i hk
      have hcon := Option.some.inj hindex
      refine ⟨(getKey_eq hcon.symm).trans hk.symm, ?_⟩
      have hseq : m.sequence = added.sequence := (congrArg Prod.snd hcon).symm
      rw [if_pos hseq, ← hcon]
      rfl
    rename_i hk
    obtain ⟨m0, hm0, hcon⟩ := map_eq_some_iff.1 hindex
    obtain ⟨x, hx, hxco⟩ := h.exists_lookup hm0
    have hseq : m0.sequence = m.sequence := congrArg Prod.snd hcon
    have hkey : q.getKey m0 = k := (h.under_number hm0).1
    have hmem := (Assoc.mem_iff_lookup h.numbers).2 hx
    rw [hseq] at hx hmem
    refine ⟨(getKey_eq hcon.symm).trans hkey, ?_⟩
    rw [if_neg (hinc _ hmem).ne, if_neg, hx, map_some, hxco, hcon]
    rw [h.replacedNumber_iff hx, getKey_eq hxco, hkey]
    exact Ne.symm hk
  under_key {p m} hm := by
    have hget : (q.update added).getKey m = q.getKey m := getKey_congr update_key rfl
    rw [hget, index_update hinc]
    rw [lookup_update hinc] at hm
    split at hm
    · rename_i hp
      cases hm
      exact ⟨hp.symm, if_pos (getKey_congr rfl rfl)⟩
    split at hm
    · exact absurd hm nofun
    rename_i hr
    refine ⟨(h.under_key hm).1, ?_⟩
    rw [if_neg, (h.under_key hm).2]
    intro hk
    exact hr ((h.replacedNumber_iff hm).2 hk.symm)

theorem deleted (h : InBijection q) (c : QueueCursor) : InBijection (q.deleted c).2 := by
  cases hc : q.lookup c.position with
  | none =>
    rw [deleted_of_not_held hc]
    exact h
  | some x =>
    have hindex (k : String) := index_deleted hc k
    have hkey (m : Message) : (q.deleted c).2.getKey m = q.getKey m := getKey_congr (deleted_key c) rfl
    refine ⟨keys_deleted h.keys, numbers_deleted h.numbers, fun {k m} hm => ?_, fun {p m} hm => ?_⟩
    · rw [hindex] at hm
      split at hm
      · exact absurd hm nofun
      rename_i hk
      rw [hkey, lookup_deleted, if_neg]
      · exact h.under_number hm
      · intro hp
        exact hk (h.getKey_of_sequence hc hm hp)
    rw [lookup_deleted] at hm
    split at hm
    · exact absurd hm nofun
    rename_i hp
    refine ⟨(h.under_key hm).1, ?_⟩
    rw [hkey, hindex, if_neg, (h.under_key hm).2]
    intro hk
    obtain ⟨y, hy, hyco⟩ := h.exists_index hc
    rw [← hk] at hy
    obtain ⟨z, hz, hzco⟩ := h.exists_index hm
    cases hy.symm.trans hz
    have hsame : x.sequence = m.sequence := congrArg Prod.snd (hyco.symm.trans hzco)
    rw [(h.under_key hc).1, (h.under_key hm).1] at hsame
    exact hp hsame.symm

/-- A change of state is no change of the index. -/
theorem modify (h : InBijection q) {f : Message → Message} (hf : ∀ m, content (f m) = content m) :
    InBijection (q.modify p f) := by
  have hcon (p' : SequenceNumber) (m : Message) : content (if p' = p then f m else m) = content m := by
    split
    · exact hf m
    · rfl
  refine ⟨h.keys, (numbers_modify f).symm ▸ h.numbers, fun {k m} hm => ?_, fun {p' m} hm => ?_⟩
  · obtain ⟨hk, hl⟩ := h.under_number hm
    refine ⟨hk, ?_⟩
    rw [lookup_modify, Option.map_map]
    simpa only [Function.comp_def, hcon] using hl
  rw [lookup_modify] at hm
  obtain ⟨m0, hm0, rfl⟩ := map_eq_some_iff.1 hm
  obtain ⟨hp, hi⟩ := h.under_key hm0
  rw [hcon]
  have hkey : (q.modify p f).getKey (if p' = p then f m0 else m0) = q.getKey m0 :=
    getKey_congr rfl (congrArg Prod.fst (hcon p' m0))
  exact ⟨(congrArg Prod.snd (hcon p' m0)).trans hp, by rw [hkey]; exact hi⟩

/-- Every call keeps the bijection. -/
theorem call (h : InBijection q) {a : MessageMap.Call} (hinc : Increasing q a) : InBijection (q.call a) := by
  rcases call_cases q a with ⟨m, hm, hcall, -⟩ | ⟨c, rfl⟩ | ⟨-, -, p, f, hf, hcall⟩
  · rw [hcall]
    exact h.update (hinc m hm)
  · exact h.deleted c
  · rw [hcall]
    exact h.modify hf

end InBijection

/-! ## The newest message of each key -/

/-- The index holds a copy of the message under each key. -/
def Newest (q : MessageMap) (v : LastValue) : Prop :=
  ∀ k, (q.index.lookup k).map content = (v k).map content

theorem Newest.deleted {v : LastValue} (hv : Newest q v) (h : InBijection q) (c : QueueCursor) :
    Newest (q.deleted c).2 (LastValue.call q.key v (.deleted c)) := by
  intro k
  -- a message with the number deleted is the one in the sequence map
  have hstays (hk : ∀ m, q.lookup c.position = some m → k ≠ q.getKey m) :
      (q.index.lookup k).map content = ((v k).filter fun m => m.sequence ≠ c.position).map content := by
    rw [hv k]
    cases hx : v k with
    | none => rfl
    | some x =>
      have hvk := hv k
      rw [hx] at hvk
      obtain ⟨m, hm, hcon⟩ := map_eq_some_iff.1 hvk
      obtain ⟨y, hy, -⟩ := h.exists_lookup hm
      have hseq : m.sequence = x.sequence := congrArg Prod.snd hcon
      have hne : x.sequence ≠ c.position := by
        intro hp
        rw [hseq, hp] at hy
        exact hk y hy (h.getKey_of_sequence hy hm (hseq.trans hp))
      rw [filter_some, if_pos (by simpa using hne)]
  cases hc : q.lookup c.position with
  | none =>
    rw [deleted_of_not_held hc]
    exact hstays fun m hm => absurd (hc.symm.trans hm) nofun
  | some m =>
    rw [index_deleted hc]
    split
    swap
    · exact hstays fun m' hm' => by rwa [← Option.some.inj (hc.symm.trans hm')]
    rename_i hk
    obtain ⟨y, hy, hcon⟩ := h.exists_index hc
    have hvk := hv k
    rw [hk, hy] at hvk
    obtain ⟨x, hx, hxco⟩ := map_eq_some_iff.1 hvk.symm
    have hseq : x.sequence = c.position := by
      rw [← (h.under_key hc).1]
      exact congrArg Prod.snd (hxco.trans hcon)
    simp only [LastValue.call, hk, hx, filter_some, hseq, ne_eq]
    rfl

variable {a : MessageMap.Call} {key : String} {u : MessageMap} {calls : List MessageMap.Call}

/-- The newest message of each key is held after every call. -/
theorem Newest.call {v : LastValue} (hv : Newest q v) (h : InBijection q)
    (hinc : Increasing q a) : Newest (q.call a) (LastValue.call q.key v a) := by
  rcases call_cases q a with ⟨m, hm, hcall, hlast⟩ | ⟨c, rfl⟩ | ⟨-, hlast, p, f, -, hcall⟩
  · intro k
    rw [hcall, hlast, index_update (hinc m hm), hv k]
    exact (apply_ite (Option.map content) (k = q.getKey m) (some m) (v k)).symm
  · exact hv.deleted h c
  · rw [hcall, hlast]
    exact hv

/-! ## Numbers that have been replaced -/

/-- What is held under a number has the key. -/
def Under (key k : String) (p : SequenceNumber) (q : MessageMap) : Prop :=
  InBijection q ∧ q.key = key ∧ ∀ m, q.lookup p = some m → q.getKey m = k

theorem Under.call (h : Under key k p q) (hinc : Increasing q a)
    (ha : ∀ m ∈ published a, m.sequence ≠ p) : Under key k p (q.call a) := by
  obtain ⟨hq, hkey, hk⟩ := h
  refine ⟨hq.call hinc, (call_key a).trans hkey, fun m hm => ?_⟩
  have hget : (q.call a).getKey m = q.getKey m := getKey_congr (call_key a) rfl
  rw [hget]
  rcases call_cases q a with ⟨added, hadded, hcall, -⟩ | ⟨c, rfl⟩ | ⟨-, -, p', f, hf, hcall⟩
  · rw [hcall, lookup_update (hinc added hadded), if_neg (ha added hadded).symm] at hm
    split at hm
    · exact absurd hm nofun
    · exact hk m hm
  · have hm' : (q.deleted c).2.lookup p = some m := hm
    rw [lookup_deleted] at hm'
    split at hm'
    · exact absurd hm' nofun
    · exact hk m hm'
  rw [hcall, lookup_modify] at hm
  obtain ⟨m0, hm0, rfl⟩ := map_eq_some_iff.1 hm
  rw [← hk m0 hm0]
  split
  · exact getKey_eq (hf m0)
  · rfl

/-- A message is no longer held once another with its key is added. -/
theorem Under.replaced (h : Under key k p q) (hinc : Increasing q a)
    (ha : published a = some added) (hp : added.sequence ≠ p) (hk : added.getPropertyAsString key = k) :
    (q.call a).lookup p = none := by
  obtain ⟨hq, hkey, hunder⟩ := h
  rcases call_cases q a with ⟨m, hm, hcall, -⟩ | ⟨c, rfl⟩ | ⟨hnone, -⟩
  · cases ha.symm.trans hm
    rw [hcall, lookup_update (hinc added hm), if_neg hp.symm]
    cases hheld : q.lookup p with
    | none => exact ite_self _
    | some x =>
      rw [if_pos]
      rw [hq.replacedNumber_iff hheld, hunder x hheld, ← hk, ← hkey]
      rfl
  · exact absurd ha nofun
  · exact absurd (ha.symm.trans hnone) nofun

/-- What is not held does not come back unless it is published. -/
theorem not_held_call (h : q.lookup p = none) (hinc : Increasing q a)
    (ha : ∀ m ∈ published a, m.sequence ≠ p) : (q.call a).lookup p = none := by
  rcases call_cases q a with ⟨added, hadded, hcall, -⟩ | ⟨c, rfl⟩ | ⟨-, -, p', f, -, hcall⟩
  · rw [hcall, lookup_update (hinc added hadded), if_neg (ha added hadded).symm, h]
    exact ite_self _
  · refine (lookup_deleted c p).trans ?_
    rw [h]
    exact ite_self _
  · rw [hcall, lookup_modify, h]
    rfl

theorem keep_unpublished {I : MessageMap → Prop} {q : MessageMap}
    (hI : ∀ {q a}, I q → Increasing q a → (∀ m ∈ published a, m.sequence ≠ p) → I (q.call a))
    (hcalls : ∀ c ∈ calls, ∀ m ∈ published c, m.sequence ≠ p) (h : Calls q calls u) (hq : I q) : I u := by
  induction h with
  | nil => exact hq
  | cons ha ht _ ih =>
    cases ht
    refine ih (fun c hc => hcalls c (mem_cons_of_mem _ hc)) (hI hq ha ?_)
    exact hcalls _ mem_cons_self

theorem InBijection.run {q : MessageMap} (h : Calls q calls u) (hq : InBijection q) : InBijection u :=
  h.keep (fun hs ha ht => Option.some.inj ht ▸ hs.call ha) hq

theorem key_run {q : MessageMap} (h : Calls q calls u) : u.key = q.key :=
  h.keep (I := fun u => u.key = q.key) (fun hs _ ht => Option.some.inj ht ▸ (call_key _).trans hs) rfl

theorem inBijection_new (key : String) : InBijection { key := key } :=
  ⟨nodup_nil, nodup_nil, nofun, nofun⟩

theorem not_held_of_replaced (h : Calls { key := key } calls u) (hp : Replaced key calls p) : u.lookup p = none := by
  obtain ⟨before, between, after, a, b, m, m', rfl, ha, hb, hm, hk, hlast⟩ := hp
  obtain ⟨s, hs, hrest⟩ := Run.split (append_assoc before _ _ ▸ h)
  have hbij := InBijection.run hs (inBijection_new key)
  cases hrest with
  | cons hinc hstep hrest =>
    cases hstep
    have hunder : Under key (m.getPropertyAsString key) p (s.call a) := by
      refine ⟨hbij.call hinc, (call_key a).trans (key_run hs), fun x hx => ?_⟩
      rcases call_cases s a with ⟨x', hx', hcall, -⟩ | ⟨c, rfl⟩ | ⟨hnone, -⟩
      · cases ha.symm.trans hx'
        rw [hcall, lookup_update (hinc m ha), if_pos hm.symm] at hx
        cases hx
        exact getKey_congr ((call_key a).trans (key_run hs)) rfl
      · exact absurd ha nofun
      · exact absurd (ha.symm.trans hnone) nofun
    obtain ⟨t, ht, hafter⟩ := Run.split hrest
    have hunder := keep_unpublished (fun hI hinc ha => Under.call hI hinc ha)
      (fun c hc => hlast c (mem_append_left _ hc)) ht hunder
    cases hafter with
    | cons hincb hstepb hafter =>
      cases hstepb
      have hb' := hlast b (mem_append_right _ mem_cons_self) m' hb
      exact keep_unpublished (fun hI hinc ha => not_held_call hI hinc ha)
        (fun c hc => hlast c (mem_append_right _ (mem_cons_of_mem _ hc))) hafter
        (hunder.replaced hincb hb hb' hk)

/-! ## Every run -/

/-- In every run, the two maps are in bijection and hold the newest message of each key that is
not deleted, and to delete or release a number that has been replaced changes nothing. -/
theorem last_value_index_consistent {key : String} {calls : List MessageMap.Call} {q : MessageMap}
    (h : Calls { key := key } calls q) :
    InBijection q ∧ (∀ k, (q.index.lookup k).map content = (ofCalls key calls k).map content) ∧
      ∀ c : QueueCursor, Replaced key calls c.position → q.deleted c = (false, q) ∧ q.release c = (none, q) := by
  have hinv := h.keep_ops (I := fun q l => InBijection q ∧ Newest q (ofCalls key l) ∧ q.key = key) (l := [])
    (fun {s a t l} hs ha ht => by
      cases ht
      obtain ⟨hbij, hnew, hkey⟩ := hs
      refine ⟨hbij.call ha, ?_, (call_key a).trans hkey⟩
      rw [ofCalls, foldl_append, ← hkey]
      rw [← hkey] at hnew
      exact hnew.call hbij ha)
    ⟨inBijection_new key, fun _ => rfl, rfl⟩
  refine ⟨hinv.1, hinv.2.1, fun c hc => ?_⟩
  have hnot := not_held_of_replaced h hc
  exact ⟨deleted_of_not_held hnot, release_of_not_held hnot⟩

/-- A message acquired, replaced, and then deleted by the one that had acquired it. -/
theorem replaced_message_deleted_late :
    let colour (p : SequenceNumber) : Message := { encoding := some { properties := [("key", "red")] }, sequence := p }
    ∃ q, Calls { key := "key" } [.publish (colour 1), .acquire 1, .update (colour 2)] q ∧ InBijection q ∧
      (q.index.lookup "red").map content = some (content (colour 2)) ∧
      q.deleted { position := 1, valid := true } = (false, q) := by
  intro colour
  refine exists_run (Q := fun _ => True) (by decide) fun q hrun _ => ⟨hrun, ?_⟩
  obtain ⟨hbij, hnew, hstale⟩ := last_value_index_consistent hrun
  refine ⟨hbij, hnew "red", (hstale { position := 1, valid := true } ?_).1⟩
  exact ⟨[], [.acquire 1], [], _, _, colour 1, colour 2, rfl, rfl, rfl, rfl, rfl, by decide⟩

end QB.Spec.LastValue
