import QpidBroker.Framework.Serial
import QpidBroker.Impl.IndexedDeque

/-!
# The indexed deque: what each operation does

For records that keep their sequence numbers (`LawfulRecord`):

* `index_eq_true_iff`: in a window of consecutive numbers, `index` finds the
  record with a number;
* `clean_eq`: `clean` drops deleted records from the front;
* `publish_cases`, `publish_ahead`: `publish` throws, or appends padding and
  the record, which it does if its number is ahead of the others;
* `next_none`, `next_some`: `next` stops at the first record the cursor takes,
  from `start` on, which is no later than any record ahead of the cursor
  (`start_le`).
-/

namespace QB.Impl

open Record Serial List SequenceNumber

section Lists

variable {α : Type} {l : List α} {f : α → α} {i j : Nat} {x y : α}

theorem getElem?_set_cases (h : (l.set i x)[j]? = some y) : (i = j ∧ x = y) ∨ (i ≠ j ∧ l[j]? = some y) := by
  rw [getElem?_set] at h
  split at h
  · split at h
    · exact .inl ⟨‹_›, Option.some.inj h⟩
    · cases h
  · exact .inr ⟨‹_›, h⟩

theorem getElem?_modify_iff : (l.modify i f)[j]? = some y ↔ ∃ x, l[j]? = some x ∧
    (if i = j then f x else x) = y := by
  simp only [getElem?_modify, Option.map_eq_map, Option.map_eq_some_iff]

theorem exists_of_mem_modify (h : y ∈ l.modify i f) : ∃ x ∈ l, f x = y ∨ x = y := by
  obtain ⟨j, hj⟩ := mem_iff_getElem?.1 h
  obtain ⟨x, hx, rfl⟩ := getElem?_modify_iff.1 hj
  refine ⟨x, mem_of_getElem? hx, ?_⟩
  split
  · exact .inl rfl
  · exact .inr rfl

end Lists

/-- Sequence numbers do not change, and padding is deleted. -/
class LawfulRecord (σ T : Type) [Record σ T] : Prop where
  getSequence_setState (s : σ) (t t' : T) (st : MessageState) :
    getSequence (setState s t st).1 t' = getSequence s t'
  getSequence_setState_self (s : σ) (t : T) (st : MessageState) :
    getSequence s (setState s t st).2 = getSequence s t := by intros; rfl
  getSequence_padding (s : σ) (p : SequenceNumber) : getSequence s (padding σ p : T) = p := by intros; rfl
  getState_padding (s : σ) (p : SequenceNumber) : getState s (padding σ p : T) = .deleted := by intros; rfl

/-- A record that holds its own state. -/
class SelfRecord (σ T : Type) [Record σ T] : Prop extends LawfulRecord σ T where
  setState_fst (s : σ) (t : T) (st : MessageState) : (setState s t st).1 = s
  getState_setState (s : σ) (t : T) (st : MessageState) : getState s (setState s t st).2 = st

attribute [simp] LawfulRecord.getSequence_setState LawfulRecord.getSequence_setState_self
  LawfulRecord.getSequence_padding LawfulRecord.getState_padding SelfRecord.setState_fst
  SelfRecord.getState_setState

namespace SequenceNumber

theorem lt_iff (a b : SequenceNumber) : a.lt b = true ↔ 2 ^ 31 ≤ dist b a := by
  rw [lt, decide_eq_true_eq, sub, toInt_sub_neg_iff]

theorem le_of_ahead {a b : SequenceNumber} (h : Ahead a b) : le b a = false := by
  rw [le, Bool.not_eq_false', lt_iff]
  obtain ⟨h1, h2⟩ := h
  simp only [Serial.dist] at *; bv_omega

end SequenceNumber

namespace IndexedDeque

variable {σ T : Type} [Record σ T]

def seqs (s : σ) (d : IndexedDeque T) : List SequenceNumber := d.messages.map (getSequence s)

def live (s : σ) (d : IndexedDeque T) : List T := d.messages.filter fun m => getState s m ≠ .deleted

theorem getElem?_seqs (s : σ) (d : IndexedDeque T) (i : Nat) :
    (d.seqs s)[i]? = (d.messages[i]?).map (getSequence s) := getElem?_map

theorem length_seqs (s : σ) (d : IndexedDeque T) : (d.seqs s).length = d.messages.length :=
  length_map ..

/-! ## Finding a record -/

variable {s : σ} {d : IndexedDeque T} {p : SequenceNumber} {i : Nat} {m : T} {ms : List T} {c c' : QueueCursor}

/-- In a window, a number has its index. -/
theorem index_eq_true_iff (hw : Window (d.seqs s))
    {k : Nat} : d.index s p i = (true, k) ↔ (d.seqs s)[k]? = some p := by
  have hl := hw.length_le
  rw [length_seqs] at hl
  unfold index
  cases hm : d.messages with
  | nil => simp [seqs, hm]
  | cons m ms =>
    have ha : (d.seqs s).head? = some (getSequence s m) := by simp [seqs, hm]
    rw [hw.getElem?_eq_some_iff ha, length_seqs, hm]
    rw [hm] at hl
    simp only
    split
    · rename_i h
      rw [lt_iff] at h
      simp only [Prod.mk.injEq, Bool.false_eq_true, false_and, false_iff]
      omega
    rename_i h
    rw [lt_iff, Nat.not_le] at h
    simp only [sub, toInt_sub_of_lt h, Prod.mk.injEq, decide_eq_true_eq]
    constructor
    · rintro ⟨h1, h2⟩; exact ⟨h2 ▸ h1, h2⟩
    · rintro ⟨h1, h2⟩; exact ⟨h2 ▸ h1, h2⟩

theorem index_eq_false (hw : Window (d.seqs s))
    (h : p ∉ d.seqs s) (i : Nat) : (d.index s p i).1 = false := by
  rcases hi : d.index s p i with ⟨_ | _, k⟩
  · rfl
  · exact absurd (mem_of_getElem? ((index_eq_true_iff hw).1 hi)) h

theorem exists_index (hw : Window (d.seqs s))
    (h : p ∈ d.seqs s) (i : Nat) : ∃ k m, d.index s p i = (true, k) ∧ d.messages[k]? = some m ∧
      getSequence s m = p := by
  obtain ⟨k, hk⟩ := mem_iff_getElem?.1 h
  have hk' := hk
  rw [getElem?_seqs, Option.map_eq_some_iff] at hk'
  obtain ⟨m, hm, hp⟩ := hk'
  exact ⟨k, m, (index_eq_true_iff hw).2 hk, hm, hp⟩

/-- `find` finds the records that are available or acquired. -/
theorem find_eq_some_iff (hw : Window (d.seqs s))
    {c : Option QueueCursor} : (d.find s p c).1 = some i ↔
      ∃ m, d.messages[i]? = some m ∧ getSequence s m = p ∧
        (getState s m = .available ∨ getState s m = .acquired) := by
  have hi := index_eq_true_iff hw (p := p) (i := 0) (k := i)
  rw [getElem?_seqs, Option.map_eq_some_iff] at hi
  unfold find
  rcases hx : d.index s p 0 with ⟨_ | _, k⟩
  · simp only [hx, Prod.mk.injEq, Bool.false_eq_true, false_and, false_iff] at hi ⊢
    simp only [if_false]
    constructor
    · intro h; exfalso; revert h; (repeat' split) <;> simp
    · rintro ⟨m, hm, hp, -⟩; exact absurd ⟨m, hm, hp⟩ hi
  obtain ⟨m, hm⟩ : ∃ m, d.messages[k]? = some m := by
    have hk := (index_eq_true_iff hw).1 hx
    rw [getElem?_seqs, Option.map_eq_some_iff] at hk
    exact hk.imp fun _ h => h.1
  simp only [hx, Prod.mk.injEq, true_and, if_true, hm] at hi ⊢
  constructor
  · intro h
    split at h
    · rename_i hs
      obtain rfl : k = i := by simpa using h
      obtain ⟨m', hm', hp⟩ := hi.1 rfl
      cases hm.symm.trans hm'
      exact ⟨m, hm, hp, hs⟩
    · simp at h
  rintro ⟨m', hm', hp, hs⟩
  obtain rfl : k = i := hi.2 ⟨m', hm', hp⟩
  cases hm.symm.trans hm'
  rw [if_pos hs]

theorem set_eq_map (hw : Window (d.seqs s))
    (hm : d.messages[i]? = some m) (f : T → T) :
    d.messages.set i (f m) =
      d.messages.map fun x => if getSequence s x = getSequence s m then f x else x := by
  refine ext_getElem? fun j => ?_
  rw [getElem?_map, getElem?_set]
  have hlt := (List.getElem?_eq_some_iff.1 hm).1
  by_cases hij : i = j
  · subst hij; rw [if_pos hlt, hm]; simp
  rw [if_neg hij]
  rcases hj : d.messages[j]? with _ | x
  · rfl
  have hx : getSequence s x ≠ getSequence s m := fun e => hij <|
    hw.getElem?_inj (by rw [getElem?_seqs, hm]; rfl) (by rw [getElem?_seqs, hj, ← e]; rfl)
  simp [hx]

/-! ## Cleaning -/

/-- What is cleaned away is deleted, and at the front. -/
theorem cleanLoop_eq (s : σ) (ms : List T) (c : Nat) :
    ∃ n, n ≤ ms.length ∧ cleanLoop s ms c = (ms.drop n, c + n) ∧
      ∀ m ∈ ms.take n, getState s m = .deleted := by
  induction ms generalizing c with
  | nil => exact ⟨0, by simp [cleanLoop]⟩
  | cons m ms ih =>
    rw [cleanLoop]
    split
    · rename_i h
      obtain ⟨n, hn, he, hd⟩ := ih (c + 1)
      refine ⟨n + 1, by simpa using hn, ?_, ?_⟩
      · rw [he, drop_succ_cons, Nat.add_assoc, Nat.add_comm 1]
      · simpa [h.1] using hd
    · exact ⟨0, by simp⟩

/-- `clean` drops some deleted records from the front, and keeps a head at the front there. -/
theorem clean_eq (s : σ) (d : IndexedDeque T) :
    ∃ n, n ≤ d.messages.length ∧ (d.clean s).messages = d.messages.drop n ∧
      (d.clean s).version = d.version ∧ (d.head = 0 → (d.clean s).head = 0) ∧
      ∀ m ∈ d.messages.take n, getState s m = .deleted := by
  obtain ⟨n, hn, he, hd⟩ := cleanLoop_eq s d.messages 0
  refine ⟨n, hn, ?_, rfl, ?_, hd⟩
  · simp [clean, he]
  · intro h; simp [clean, h]

@[simp] theorem clean_version (s : σ) (d : IndexedDeque T) : (d.clean s).version = d.version := rfl

theorem clean_head (h : d.head = 0) : (d.clean s).head = 0 := by
  obtain ⟨-, -, -, -, hh, -⟩ := clean_eq s d
  exact hh h

/-- Cleaning drops numbers from the front. -/
theorem clean_seqs (s : σ) (d : IndexedDeque T) : ∃ n, (d.clean s).seqs s = (d.seqs s).drop n := by
  obtain ⟨n, -, he, -⟩ := clean_eq s d
  exact ⟨n, by rw [seqs, he, seqs, map_drop]⟩

theorem clean_window (hw : Window (d.seqs s)) :
    Window ((d.clean s).seqs s) := by
  obtain ⟨n, he⟩ := clean_seqs s d
  rw [he]; exact hw.drop n

theorem filter_eq_nil_of_deleted (h : ∀ m ∈ ms, getState s m = .deleted) :
    (ms.filter fun m => getState s m ≠ .deleted) = [] := by
  rw [filter_eq_nil_iff]
  intro m hm
  simp [h m hm]

@[simp] theorem clean_live (s : σ) (d : IndexedDeque T) : (d.clean s).live s = d.live s := by
  obtain ⟨n, -, he, -, -, hd⟩ := clean_eq s d
  rw [live, he, live]
  conv_rhs => rw [← take_append_drop n d.messages, filter_append,
    filter_eq_nil_of_deleted hd, nil_append]

theorem mem_of_mem_clean (hm : m ∈ (d.clean s).messages) :
    m ∈ d.messages := by
  obtain ⟨n, -, he, -⟩ := clean_eq s d
  exact mem_of_mem_drop (he ▸ hm)

theorem mem_clean (hm : m ∈ d.messages)
    (hs : getState s m ≠ .deleted) : m ∈ (d.clean s).messages := by
  have : m ∈ (d.clean s).live s := by rw [clean_live]; simpa [live] using ⟨hm, hs⟩
  exact mem_of_mem_filter this

theorem clean_congr {s' : σ}
    (h : ∀ m ∈ d.messages, getState s m = getState s' m) : d.clean s = d.clean s' := by
  have hl : ∀ ms n, (∀ m ∈ ms, getState s m = getState (T := T) s' m) →
      cleanLoop s ms n = cleanLoop s' ms n := by
    intro ms
    induction ms with
    | nil => exact fun _ _ => rfl
    | cons m ms ih =>
      intro n hm
      simp only [cleanLoop]
      rw [hm m (by simp), ih _ fun x hx => hm x (mem_cons_of_mem _ hx)]
  simp [clean, hl d.messages 0 h]

/-! ## Publishing -/

section Publish

variable [LawfulRecord σ T]

variable {added : SequenceNumber} {s : σ} {ms : List T}

/-- Padding fills the gap with consecutive numbers. -/
theorem pad_consec (s : σ) {back : SequenceNumber} {n : Nat} (hn : dist back added = n + 1)
    (hlt : n + 1 < 2 ^ 31) :
    Consec (back :: ((pad (σ := σ) added (n + 1) back : List T).map (getSequence s) ++ [added])) ∧
      (pad (σ := σ) added (n + 1) back : List T).length = n := by
  induction n generalizing back with
  | zero =>
    have e : added = back + 1 := by rw [← add_dist back added, hn]; rfl
    simp only [pad, sub]
    simp [Consec, e]
  | succ n ih =>
    have hd : dist (back + 1) added = n + 1 := by simp only [Serial.dist] at *; bv_omega
    obtain ⟨hc, hl⟩ := ih hd (by omega)
    rw [pad, sub, toInt_sub_of_lt (hn ▸ hlt), if_pos (by omega)]
    refine ⟨?_, by rw [length_cons, hl]⟩
    rw [map_cons, LawfulRecord.getSequence_padding]
    exact isChain_cons_cons.2 ⟨rfl, hc⟩

omit [LawfulRecord σ T] in
theorem pad_padding (added : SequenceNumber) (n : Nat) (back : SequenceNumber) :
    ∀ m ∈ (pad (σ := σ) added n back : List T), ∃ p, m = padding σ p := by
  induction n generalizing back with
  | zero => simp [pad]
  | succ n ih =>
    rw [pad]
    split
    · intro m hm
      rcases mem_cons.1 hm with rfl | hm
      · exact ⟨_, rfl⟩
      · exact ih _ m hm
    · simp

omit [LawfulRecord σ T] in
theorem gap_padding (s : σ) (added : SequenceNumber) (ms : List T) :
    ∀ m ∈ gap s added ms, ∃ p, m = padding σ p := by
  unfold gap
  split
  · simp
  · exact pad_padding _ _ _

theorem gap_deleted (s : σ) (added : SequenceNumber) (ms : List T) :
    ∀ m ∈ gap s added ms, getState s m = .deleted := by
  intro m hm
  obtain ⟨p, rfl⟩ := gap_padding s added ms m hm
  exact LawfulRecord.getState_padding s p

omit [LawfulRecord σ T] in
theorem popTail_eq_self
    (h : ∀ m ∈ ms, Ahead (getSequence s m) added) : popTail s added ms = ms := by
  rw [popTail, rdropWhile_eq_self_iff]
  intro hne
  simp [le_of_ahead (h _ (getLast_mem hne))]

omit [LawfulRecord σ T] in
theorem prefix_popTail (s : σ) (added : SequenceNumber) (ms : List T) : popTail s added ms <+: ms :=
  rdropWhile_prefix _ ms

omit [LawfulRecord σ T] in
theorem mem_popTail {m : T} {added : SequenceNumber} (hm : m ∈ ms) (hst : getState s m ≠ .deleted) :
    m ∈ popTail s added ms := by
  rw [← rdropWhile_append_rtakeWhile (p := fun m => added.le (getSequence s m) && getState s m = .deleted)
    (l := ms)] at hm
  refine (mem_append.1 hm).resolve_right fun hm => hst ?_
  have := mem_rtakeWhile_imp hm
  simp only [Bool.and_eq_true, decide_eq_true_eq] at this
  exact this.2

omit [LawfulRecord σ T] in
theorem popTail_congr {s' : σ} (added : SequenceNumber) (hseq : ∀ m ∈ ms, getSequence s m = getSequence s' m)
    (hst : ∀ m ∈ ms, getState s m = getState s' m) : popTail s added ms = popTail s' added ms := by
  induction ms using reverseRecOn with
  | nil => rfl
  | append_singleton ms m ih =>
    simp only [mem_append, mem_singleton] at hseq hst
    specialize ih (fun x hx => hseq x (.inl hx)) fun x hx => hst x (.inl hx)
    simp only [popTail, rdropWhile_concat] at ih ⊢
    rw [ih, hseq m (.inr rfl), hst m (.inr rfl)]

omit [LawfulRecord σ T] in
/-- Popping the tail of a window leaves a window. -/
theorem popTail_window (hw : Window (ms.map (getSequence s))) (added : SequenceNumber) :
    Window ((popTail s added ms).map (getSequence s)) :=
  hw.of_prefix ((prefix_popTail s added ms).map _)

/-- With the gap filled, the records are a window again. -/
theorem gap_window
    (hw : Window (ms.map (getSequence s))) (h : ∀ m ∈ ms, Ahead (getSequence s m) added) :
    Window ((ms ++ gap s added ms).map (getSequence s) ++ [added]) := by
  rcases eq_nil_or_concat' ms with rfl | ⟨ms, b, rfl⟩
  · exact ⟨isChain_singleton _, by simp [gap]⟩
  obtain ⟨hb1, hb2⟩ := h b (by simp)
  obtain ⟨n, hn⟩ : ∃ n, dist (getSequence s b) added = n + 1 := ⟨_, (Nat.sub_add_cancel hb1).symm⟩
  obtain ⟨hc, hl⟩ := pad_consec (T := T) s hn (by omega)
  have hg : gap s added (ms ++ [b]) = pad (σ := σ) added (n + 1) (getSequence s b) := by
    rw [gap]
    simp [sub, toInt_sub_of_lt hb2, hn]
  have hcons : Consec ((ms ++ [b] ++ gap s added (ms ++ [b])).map (getSequence s) ++ [added]) := by
    rw [hg, map_append, append_assoc]
    refine isChain_append.2 ⟨hw.consec, (isChain_cons.1 hc).2, fun x hx y hy => ?_⟩
    simp only [map_append, map_cons, map_nil, getLast?_concat, Option.mem_def,
      Option.some.injEq] at hx
    exact hx ▸ (isChain_cons.1 hc).1 y hy
  refine ⟨hcons, ?_⟩
  -- the length is the distance from the first number to `added`, plus one
  have hlen := hw.length_le
  obtain ⟨a, ha⟩ : ∃ a, ((ms ++ [b]).map (getSequence s)).head? = some a := by cases ms <;> simp
  have ha' : ((ms ++ [b] ++ gap s added (ms ++ [b])).map (getSequence s) ++ [added]).head? = some a := by
    rw [head?_append, map_append, head?_append, ha]; rfl
  obtain ⟨m, hm, rfl⟩ : ∃ m ∈ ms ++ [b], getSequence s m = a :=
    mem_map.1 (mem_of_mem_head? ha)
  have hlast := hcons.getElem?_eq ha' (i := ms.length + 1 + n) (p := added) (by
    rw [getElem?_append_right (by simp [hg]; omega)]
    simp [hg, hl, show ms.length + 1 + n - (ms.length + (n + 1)) = 0 by omega])
  have hd := (h m hm).2
  simp only [length_map, length_append] at hlen
  rw [hlast, dist_add _ (by omega)] at hd
  simp only [length_append, length_map, length_cons, length_nil, hg]
  omega

omit [LawfulRecord σ T] in
/-- Publishing pops the deleted tail, and fills the gap. -/
theorem publish_popped {d : IndexedDeque T} (added : T) (hh : d.head = 0)
    (hms : popTail s (getSequence s added) (d.clean s).messages = ms)
    (h : ∀ m ∈ ms, Ahead (getSequence s m) (getSequence s added)) :
    d.publish s added =
      (.ok (ms ++ gap s (getSequence s added) ms).length, (setState s added .available).1,
        { messages := ms ++ gap s (getSequence s added) ms ++ [(setState s added .available).2]
          head := 0, version := d.version }) := by
  have hb : (ms.getLast?.any fun back => (getSequence s added).le (getSequence s back)) = false := by
    rw [Option.any_eq_false]
    intro back hback
    rw [le_of_ahead (h back (mem_of_getLast? hback))]
  simp only [publish, hms, hb, Bool.false_eq_true, if_false, clean_head hh, clean_version]
  rw [if_neg (by simp)]
  simp

omit [LawfulRecord σ T] in
theorem publish_ahead {d : IndexedDeque T} (added : T) (hh : d.head = 0)
    (h : ∀ m ∈ (d.clean s).messages, Ahead (getSequence s m) (getSequence s added)) :
    d.publish s added =
      (.ok ((d.clean s).messages ++ gap s (getSequence s added) (d.clean s).messages).length,
        (setState s added .available).1,
        { messages := (d.clean s).messages ++ gap s (getSequence s added) (d.clean s).messages ++
            [(setState s added .available).2]
          head := 0, version := d.version }) :=
  publish_popped added hh (popTail_eq_self h) h

end Publish

/-- `publish`, in any case: it pops deleted records and throws, or appends
deleted records and the new one. -/
theorem publish_cases [LawfulRecord σ T] (s : σ) (d : IndexedDeque T) (added : T) :
    ∃ ms, (ms.filter fun m => getState s m ≠ .deleted) = d.live s ∧
      ((∃ e h, d.publish s added = (.error e, s, ⟨ms, h, d.version⟩)) ∨
        ∃ n g h, (∀ m ∈ g, getState s m = .deleted) ∧
          d.publish s added = (.ok n, (setState s added .available).1,
            ⟨ms ++ g ++ [(setState s added .available).2], h, d.version⟩)) := by
  refine ⟨popTail s (getSequence s added) (d.clean s).messages, ?_, ?_⟩
  · rw [← clean_live, live, popTail]
    generalize (d.clean s).messages = ms
    conv_rhs => rw [← rdropWhile_append_rtakeWhile (p := fun m =>
      (getSequence s added).le (getSequence s m) && getState s m = .deleted) (l := ms)]
    have htail : ∀ m ∈ ms.rtakeWhile fun m => (getSequence s added).le (getSequence s m) &&
        getState s m = .deleted, getState s m = .deleted := fun m hm => by
      have := mem_rtakeWhile_imp hm
      simp only [Bool.and_eq_true, decide_eq_true_eq] at this
      exact this.2
    rw [filter_append, filter_eq_nil_of_deleted htail, append_nil]
  unfold publish
  simp only
  split
  · exact .inl ⟨_, _, rfl⟩
  · exact .inr ⟨_, _, _, gap_deleted s _ _, rfl⟩

/-- Publishing adds a record to those not deleted, or throws. -/
theorem publish_live [SelfRecord σ T] (s : σ) (d : IndexedDeque T) (added : T) :
    (d.publish s added).2.2.live s = match (d.publish s added).1 with
      | .ok _ => d.live s ++ [(setState s added .available).2]
      | .error _ => d.live s := by
  obtain ⟨ms, hms, ⟨e, h, hp⟩ | ⟨n, g, h, hg, hp⟩⟩ := publish_cases s d added
  · rw [hp]; exact hms
  rw [hp]
  simp only [live, filter_append, filter_eq_nil_of_deleted hg]
  rw [hms]
  simp [live]

/-! ## Changing a state -/

theorem setStateAt_eq (h : d.messages[i]? = some m)
    (st : MessageState) : d.setStateAt s i st =
      ((setState s m st).1, { d with messages := d.messages.set i (setState s m st).2 }) := by
  simp [setStateAt, h]

theorem deleted_eq (hv : c.valid = true)
    (hi : d.index s c.position 0 = (true, i)) (hm : d.messages[i]? = some m) :
    d.deleted s c = (true, (setState s m .deleted).1,
      ({ d with messages := d.messages.set i (setState s m .deleted).2 }).clean (setState s m .deleted).1) := by
  simp [deleted, hv, hi, setStateAt_eq hm]

theorem deleted_eq_false
    (h : c.valid = false ∨ (d.index s c.position 0).1 = false) : d.deleted s c = (false, s, d) := by
  unfold deleted
  rcases h with h | h <;> simp [h]

theorem release_eq (hv : c.valid = true)
    (hi : d.index s c.position 0 = (true, i)) (hm : d.messages[i]? = some m) :
    d.release s c = (some i, (setState s m .available).1,
      { messages := d.messages.set i (setState s m .available).2
        head := d.head, version := d.version + 1 }) := by
  simp [release, hv, hi, setStateAt_eq hm]

theorem release_eq_none
    (h : c.valid = false ∨ (d.index s c.position 0).1 = false) : d.release s c = (none, s, d) := by
  unfold release
  rcases h with h | h <;> simp [h]

/-! ## The next record -/

/-- The cursor passes a record over: it is deleted, or not in a state the cursor takes. -/
def PassesOver (s : σ) (c : QueueCursor) (m : T) : Prop :=
  getState s m = .deleted ∨ c.check (getState s m) = false

/-- A cursor that has only changed its position. -/
structure SameKind (c c' : QueueCursor) : Prop where
  type : c'.type = c.type
  context : c'.context = c.context

theorem SameKind.refl (c : QueueCursor) : SameKind c c := ⟨rfl, rfl⟩

theorem SameKind.setPosition (c : QueueCursor) (p : SequenceNumber) (v : BitVec 32) :
    SameKind c (c.setPosition p v) := ⟨rfl, rfl⟩

theorem SameKind.trans {a b : QueueCursor} (h1 : SameKind a b) (h2 : SameKind b c) : SameKind a c :=
  ⟨h2.type.trans h1.type, h2.context.trans h1.context⟩

theorem SameKind.check (h : SameKind c c') (st : MessageState) :
    c'.check st = c.check st := by
  simp [QueueCursor.check, h.type]

/-- The loop that finds nothing has passed over everything. -/
theorem nextLoop_none {v : BitVec 32}
    (h : nextLoop s v ms i c = (none, c')) :
    (∀ m ∈ ms, PassesOver s c m) ∧ SameKind c c' ∧
      (c' = c ∨ ∃ m ∈ ms, getState s m ≠ .deleted ∧ c' = c.setPosition (getSequence s m) v) := by
  induction ms generalizing i c with
  | nil =>
    simp only [nextLoop, Prod.mk.injEq, true_and] at h
    subst h
    exact ⟨by simp, SameKind.refl _, .inl rfl⟩
  | cons m ms ih =>
    rw [nextLoop] at h
    split at h
    · rename_i hd
      obtain ⟨h1, h2, h3⟩ := ih h
      refine ⟨by simpa [PassesOver, hd] using h1, h2, h3.imp_right ?_⟩
      rintro ⟨m', hm', hs⟩
      exact ⟨m', mem_cons_of_mem _ hm', hs⟩
    rename_i hd
    simp only at h
    split at h
    · simp at h
    rename_i hc
    have hk := SameKind.setPosition c (getSequence s m) v
    obtain ⟨h1, h2, h3⟩ := ih h
    refine ⟨?_, hk.trans h2, .inr ?_⟩
    · intro m' hm'
      rcases mem_cons.1 hm' with rfl | hm'
      · exact .inr (by rw [← hk.check]; simpa using hc)
      · exact (h1 m' hm').imp_right fun e => by rw [← hk.check, e]
    · rcases h3 with rfl | ⟨m', hm', hs, rfl⟩
      · exact ⟨m, by simp, hd, rfl⟩
      · exact ⟨m', mem_cons_of_mem _ hm', hs, rfl⟩

/-- The loop passes over what does not pass the check. -/
theorem nextLoop_some {v : BitVec 32} {j : Nat}
    (h : nextLoop s v ms i c = (some j, c')) :
    ∃ k m, j = i + k ∧ ms[k]? = some m ∧ getState s m ≠ .deleted ∧ c.check (getState s m) = true ∧
      c' = c.setPosition (getSequence s m) v ∧ ∀ m' ∈ ms.take k, PassesOver s c m' := by
  induction ms generalizing i c with
  | nil => simp [nextLoop] at h
  | cons m ms ih =>
    rw [nextLoop] at h
    split at h
    · rename_i hd
      obtain ⟨k, m', rfl, hm', hs, hc, rfl, ht⟩ := ih h
      exact ⟨k + 1, m', by omega, by simpa using hm', hs, hc, rfl, by simpa [PassesOver, hd] using ht⟩
    rename_i hd
    have hk := SameKind.setPosition c (getSequence s m) v
    simp only at h
    split at h
    · rename_i hc
      obtain ⟨rfl, rfl⟩ := h
      exact ⟨0, m, rfl, rfl, hd, by rw [← hk.check, hc], rfl, by simp⟩
    rename_i hc
    obtain ⟨k, m', rfl, hm', hs, hc', rfl, ht⟩ := ih h
    refine ⟨k + 1, m', by omega, by simpa using hm', hs, by rw [← hk.check, hc'], rfl, ?_⟩
    intro m'' hm''
    rw [take_succ_cons, mem_cons] at hm''
    rcases hm'' with rfl | hm''
    · exact .inr (by rw [← hk.check]; simpa using hc)
    · exact (ht m'' hm'').imp_right fun e => by rw [← hk.check, e]

/-- `next` finds nothing: it passes over every record from `start` on. -/
theorem next_none (h : d.next s c = (none, c')) :
    (∀ i m, d.start s c ≤ i → d.messages[i]? = some m → PassesOver s c m) ∧ SameKind c c' ∧
      (c' = c ∨ ∃ m ∈ d.messages, c' = c.setPosition (getSequence s m) d.version) := by
  obtain ⟨h1, h2, h3⟩ := nextLoop_none h
  refine ⟨fun i m hi hm => h1 m ?_, h2, h3.imp_right ?_⟩
  · refine mem_of_getElem? (i := i - d.start s c) ?_
    rw [getElem?_drop, show d.start s c + (i - d.start s c) = i by omega, hm]
  · rintro ⟨m, hm, -, e⟩
    exact ⟨m, mem_of_mem_drop hm, e⟩

/-- `next` finds a record: the first, from `start` on, that it does not pass over. -/
theorem next_some {j : Nat}
    (h : d.next s c = (some j, c')) :
    d.start s c ≤ j ∧ ∃ m, d.messages[j]? = some m ∧ getState s m ≠ .deleted ∧
      c.check (getState s m) = true ∧ c' = c.setPosition (getSequence s m) d.version ∧
      ∀ i m', d.start s c ≤ i → i < j → d.messages[i]? = some m' → PassesOver s c m' := by
  obtain ⟨k, m, rfl, hm, hs, hc, rfl, ht⟩ := nextLoop_some h
  refine ⟨by omega, m, by rw [← hm, getElem?_drop], hs, hc, rfl, fun i m' hi hik hm' => ?_⟩
  refine ht m' (mem_of_getElem? (i := i - d.start s c) ?_)
  rw [getElem?_take_of_lt (by omega), getElem?_drop,
    show d.start s c + (i - d.start s c) = i by omega, hm']

/-- A record the cursor has still to come to: it is to start over, or the
record is ahead of it. -/
def ToCome (s : σ) (d : IndexedDeque T) (c : QueueCursor) (m : T) : Prop :=
  d.reset c = true ∨ Ahead c.position (getSequence s m)

/-- `next` starts no later than a record still to come. -/
theorem start_le (hw : Window (d.seqs s)) (hh : d.head = 0)
    (hm : d.messages[i]? = some m) (ha : d.ToCome s c m) :
    d.start s c ≤ i := by
  unfold start
  split
  · omega
  rename_i hr
  have hv : c.valid = true := by
    simp only [reset, Bool.or_eq_true, not_or] at hr; simpa using hr.1
  obtain ⟨h1, h2⟩ := ha.resolve_left hr
  rw [indexAfter, if_pos hv]
  unfold index
  cases hms : d.messages with
  | nil => simp [hms] at hm
  | cons f ms =>
    have hf : (d.seqs s).head? = some (getSequence s f) := by simp [seqs, hms]
    have hp : (d.seqs s)[i]? = some (getSequence s m) := by rw [getElem?_seqs, hm]; rfl
    have hd := ((hw.getElem?_eq_some_iff hf).1 hp).2
    simp only
    split
    · omega
    rename_i hlt
    rw [lt_iff, Nat.not_le] at hlt
    simp only [sub, toInt_sub_of_lt hlt]
    simp only [Serial.dist] at *
    bv_omega

end IndexedDeque

end QB.Impl
