import QpidBroker.Framework.Search
import QpidBroker.Proof.MessageDeque
import QpidBroker.Proof.MessageMap
import QpidBroker.Proof.RangeNumbers
import QpidBroker.Spec.Seek

/-!
# Seeking in a deque and in a map

In one half of the numbers `<` is an order (`lt_iff_dist`). In a deque every seek is exact
(`deque_exact`). In a map the cursor is left at the first message that does not come
before the position, and `next` goes past it, so the seek is exact if the message is the one at the position or
none that the cursor stops at (`map_exact_iff`).
-/

namespace QB.Spec.Seek

open Impl Serial Search List
open Option hiding forall_mem_map

variable {p n : SequenceNumber} {c : QueueCursor}

variable {b x y : SequenceNumber} {held : List Message}

/-- In one half the order of numbers is that of their distances. -/
theorem lt_iff_dist (hx : dist b x + 1 < 2 ^ 31) (hy : dist b y + 1 < 2 ^ 31) : x.lt y = true ↔ dist b x < dist b y :=
  serial_lt_iff b (by omega) (by omega)

theorem le_iff_dist (hx : dist b x + 1 < 2 ^ 31) (hy : dist b y + 1 < 2 ^ 31) :
    x.le y = true ↔ dist b x ≤ dist b y := by
  rw [SequenceNumber.le, Bool.not_eq_true', ← Bool.not_eq_true, lt_iff_dist hy hx]
  omega

theorem dist_lt_of_ahead (hx : dist b x + 1 < 2 ^ 31) (hy : dist b y + 1 < 2 ^ 31)
    (h : Ahead x y) : dist b x < dist b y := by
  obtain ⟨h1, h2⟩ := h
  simp only [Serial.dist] at *
  bv_omega

theorem check_eq_false {st : MessageState} (h : ¬ (st = .available ∨ st = .acquired)) : c.check st = false := by
  cases st <;> simp_all [QueueCursor.check]

/-- The number itself is not looked at if it does not pass the check. -/
theorem first_le_eq (hp : dist b p + 1 < 2 ^ 31) (hheld : ∀ m ∈ held, dist b m.sequence + 1 < 2 ^ 31)
    (hcheck : ∀ m ∈ held, m.sequence = p → c.check m.state = false) :
    first c held (fun n => p.le n) = first c held fun n => p.lt n := by
  refine find?_congr fun m hm => ?_
  by_cases hs : m.sequence = p
  · rw [hcheck m hm hs, Bool.false_and, Bool.false_and]
  have hiff : p.le m.sequence = true ↔ p.lt m.sequence = true := by
    rw [le_iff_dist hp (hheld m hm), lt_iff_dist hp (hheld m hm)]
    have hne : dist b p ≠ dist b m.sequence := fun h => hs ((serialRuler b).pos_inj h).symm
    omega
  exact congrArg _ (Bool.eq_iff_iff.2 hiff)

/-- Messages in the order of their numbers, in the half from `b` on. -/
structure Ranked (b : SequenceNumber) (held : List Message) : Prop where
  half : ∀ m ∈ held, dist b m.sequence + 1 < 2 ^ 31
  order : held.Pairwise fun m m' => dist b m.sequence < dist b m'.sequence

theorem Ranked.late_lt (h : Ranked b held) (hx : dist b x + 1 < 2 ^ 31) : Late (fun m => x.lt m.sequence) held := by
  refine List.Pairwise.imp_of_mem (fun {m m'} hm hm' hlt hxm => ?_) h.order
  rw [lt_iff_dist hx (h.half m hm)] at hxm
  rw [lt_iff_dist hx (h.half m' hm')]
  omega

theorem Ranked.late_le (h : Ranked b held) (hx : dist b x + 1 < 2 ^ 31) : Late (fun m => x.le m.sequence) held := by
  refine List.Pairwise.imp_of_mem (fun {m m'} hm hm' hlt hxm => ?_) h.order
  rw [le_iff_dist hx (h.half m hm)] at hxm
  rw [le_iff_dist hx (h.half m' hm')]
  omega

/-- Consecutive numbers are as far apart as their indexes. -/
theorem dist_getElem? {l : List Message} (hw : Window (l.map (·.sequence)))
    (hhalf : ∀ m ∈ l, dist b m.sequence + 1 < 2 ^ 31) {f m : Message} (hf : l.head? = some f) {j : Nat}
    (hm : l[j]? = some m) : dist b m.sequence = dist b f.sequence + j := by
  have hhead : (l.map (·.sequence)).head? = some f.sequence := by rw [head?_map, hf]; rfl
  have hget : (l.map (·.sequence))[j]? = some m.sequence := by rw [getElem?_map, hm]; rfl
  obtain ⟨hlt, hdist⟩ := (hw.getElem?_eq_some_iff hhead).1 hget
  have hlen := hw.length_le
  have hfb := hhalf f (mem_of_mem_head? hf)
  simp only [Serial.dist] at *
  bv_omega

/-! ## The deque -/

section deque

open IndexedDeque MessageDeque

variable {d : MessageDeque}

/-- `next` is a search from where the cursor starts. -/
theorem next_eq_find? (d : MessageDeque) (c : QueueCursor) : (d.next c).1.bind (d.messages[·]?) =
      (d.messages.drop (IndexedDeque.start () d c)).find? fun m => c.check m.state := by
  have hpass {m : Message} (h : PassesOver () c m) : ¬ c.check m.state = true := by
    rcases h with h | h
    · simp only [getState_eq] at h
      rw [check_eq_false (by simp [h])]
      exact Bool.false_ne_true
    · exact Bool.eq_false_iff.1 h
  rcases hnext : d.next c with ⟨_ | j, c'⟩
  · obtain ⟨hall, -, -⟩ := next_none hnext
    refine (find?_eq_none.2 fun m hm => ?_).symm
    obtain ⟨k, hk⟩ := mem_iff_getElem?.1 hm
    rw [getElem?_drop] at hk
    exact hpass (hall _ m (Nat.le_add_right _ _) hk)
  obtain ⟨hle, m, hm, -, hcheck, -, hbef⟩ := next_some hnext
  rw [bind_some, hm]
  symm
  rw [find?_eq_some_iff_getElem]
  have hlt := (List.getElem?_eq_some_iff.1 hm).1
  refine ⟨hcheck, j - IndexedDeque.start () d c, by rw [length_drop]; omega, ?_, fun k hk => ?_⟩
  · rw [getElem_drop]
    have hidx : IndexedDeque.start () d c + (j - IndexedDeque.start () d c) = j := by omega
    exact Option.some.inj ((getElem?_eq_getElem _).symm.trans (by rw [hidx]; exact hm))
  have hkt : IndexedDeque.start () d c + k < d.messages.length := by omega
  have := hpass (hbef (IndexedDeque.start () d c + k) _ (by omega) (by omega) (getElem?_eq_getElem hkt))
  simpa using this

/-- The index of a number ahead of the first record. -/
theorem index_eq {b : SequenceNumber} {f : Message} {x : SequenceNumber} (hf : d.messages.head? = some f)
    (hfb : dist b f.sequence < 2 ^ 31) (hxb : dist b x < 2 ^ 31) (hle : dist b f.sequence ≤ dist b x) (i : Nat) :
    d.index () x i = (decide (dist b x - dist b f.sequence < d.messages.length), dist b x - dist b f.sequence) := by
  have hlt : ¬ x.lt f.sequence = true := by
    rw [show x.lt f.sequence = true ↔ _ from serial_lt_iff b hxb hfb]
    omega
  have hdist : dist f.sequence x = dist b x - dist b f.sequence := by
    simp only [Serial.dist] at *
    bv_omega
  have hsub : (x.sub f.sequence).toNat = dist b x - dist b f.sequence := by
    rw [SequenceNumber.sub, toInt_sub_of_lt (by omega), Int.toNat_natCast, hdist]
  unfold IndexedDeque.index
  cases hms : d.messages with
  | nil => rw [hms] at hf; cases hf
  | cons f' ms =>
    rw [hms] at hf
    cases hf
    simp [hlt, hsub]

/-- From a position that is not before the first record, `next` goes on behind it. -/
theorem next_after (hw : Windowed d) {b : SequenceNumber} (hp : dist b p + 1 < 2 ^ 31)
    (hheld : ∀ m ∈ d.messages, dist b m.sequence + 1 < 2 ^ 31) {f : Message} (hf : d.messages.head? = some f)
    (hle : dist b f.sequence ≤ dist b p) :
    (d.next (c.setPosition p d.version)).1.bind (d.messages[·]?) = first c d.messages fun n => p.lt n := by
  have hfb := hheld f (mem_of_mem_head? hf)
  have hnext : dist b (p + 1) = dist b p + 1 := dist_add_one (by omega)
  have hstart : IndexedDeque.start () d (c.setPosition p d.version) = dist b p - dist b f.sequence + 1 := by
    have hreset : d.reset (c.setPosition p d.version) = false := by simp [IndexedDeque.reset]
    rw [IndexedDeque.start, hreset, if_neg Bool.false_ne_true, indexAfter, QueueCursor.setPosition_valid, if_pos rfl,
      QueueCursor.setPosition_position, index_eq (b := b) hf (by omega) (by omega) (by omega), hnext]
    omega
  rw [next_eq_find?]
  refine find?_drop (fun j m hj hm => ?_) fun j m hj hm => ?_
  · have hrank := dist_getElem? hw.window hheld hf hm
    rw [← Bool.not_eq_true, lt_iff_dist hp (hheld m (mem_of_getElem? hm))]
    omega
  · have hrank := dist_getElem? hw.window hheld hf hm
    rw [lt_iff_dist hp (hheld m (mem_of_getElem? hm))]
    omega

theorem deque_exact (hw : Windowed d) (hhalf : OneHalf (p :: d.messages.map (·.sequence))) (c : QueueCursor) :
    Exact c p d.messages (deque d p c) := by
  obtain ⟨b, hb⟩ := hhalf
  obtain ⟨hp, hheld⟩ := forall_mem_cons.1 hb
  rw [forall_mem_map] at hheld
  cases hf : d.messages.head? with
  | none =>
    rw [head?_eq_none_iff] at hf
    refine .inr ⟨?_, ?_⟩
    · simp [deque, hf]
    · simp [deque, hf, first]
  | some f =>
    have hfb := hheld f (mem_of_mem_head? hf)
    have hpos : 0 < d.messages.length := length_pos_of_mem (mem_of_mem_head? hf)
    by_cases hlt : p.lt f.sequence = true
    · -- the position is before all records: the cursor starts over
      have hfind : d.find p (some c) = (none, some { c with valid := false }) := by
        have hindex : d.index () p 0 = (false, 0) := by
          unfold IndexedDeque.index
          cases hms : d.messages with
          | nil => simp [hms] at hf
          | cons f' ms =>
            rw [hms] at hf
            cases hf
            simp [hlt]
        have hlen : ¬ 0 ≥ d.messages.length := Nat.not_le.2 hpos
        simp [MessageDeque.find, IndexedDeque.find, hindex, hlen]
      refine .inr ⟨by simp only [deque, hfind]; rfl, ?_⟩
      have hstart : IndexedDeque.start () d { c with valid := false } = 0 := by
        rw [IndexedDeque.start, if_pos (by simp [IndexedDeque.reset]), hw.head_eq]
      simp only [deque, hfind, getD_some, next_eq_find?, hstart]
      refine find?_congr fun m hm => ?_
      obtain ⟨j, hj⟩ := mem_iff_getElem?.1 hm
      have hrank := dist_getElem? hw.window hheld hf hj
      have hple : p.le m.sequence = true := by
        rw [le_iff_dist hp (hheld m hm)]
        rw [lt_iff_dist hp hfb] at hlt
        omega
      simp only [hple, Bool.and_true]
      rfl
    have hle : dist b f.sequence ≤ dist b p := by
      rw [lt_iff_dist hp hfb] at hlt
      omega
    have hindex := index_eq hf (by omega) (by omega) hle 0
    have hnext := next_after hw hp hheld hf hle (c := c)
    have hat {m : Message} (hm : m ∈ d.messages) (hs : m.sequence = p) :
        d.messages[dist b p - dist b f.sequence]? = some m := by
      obtain ⟨j, hj⟩ := mem_iff_getElem?.1 hm
      have hrank := dist_getElem? hw.window hheld hf hj
      rw [hs] at hrank
      rw [hrank, Nat.add_sub_cancel_left]
      exact hj
    cases hget : d.messages[dist b p - dist b f.sequence]? with
    | none =>
      have hge := List.getElem?_eq_none_iff.1 hget
      have hfind : d.find p (some c) = (none, some (c.setPosition p d.version)) := by
        simp [MessageDeque.find, IndexedDeque.find, hindex, Nat.not_lt.2 hge]
      refine .inr ⟨by simp only [deque, hfind]; rfl, ?_⟩
      simp only [deque, hfind, getD_some, hnext]
      exact (first_le_eq hp hheld fun m hm hs => by cases hget.symm.trans (hat hm hs)).symm
    | some m =>
      obtain ⟨hlt', -⟩ := List.getElem?_eq_some_iff.1 hget
      have hrank := dist_getElem? hw.window hheld hf hget
      have hs : m.sequence = p := (serialRuler b).pos_inj (by show dist b m.sequence = dist b p; omega)
      by_cases hstate : m.state = .available ∨ m.state = .acquired
      · have hfind : d.find p (some c) = (some (dist b p - dist b f.sequence), some (c.setPosition p d.version)) := by
          simp only [MessageDeque.find, IndexedDeque.find, hindex, hlt', decide_true, if_true, hget, getState_eq,
            hstate, map_some]
        refine .inl ⟨m, by simp [deque, hfind, hget], hs, ?_⟩
        simp [deque, hfind, hnext]
      have hfind : d.find p (some c) = (none, some (c.setPosition p d.version)) := by
        simp only [MessageDeque.find, IndexedDeque.find, hindex, hlt', decide_true, if_true, hget, getState_eq,
          hstate, if_false, map_some]
      refine .inr ⟨by simp only [deque, hfind]; rfl, ?_⟩
      simp only [deque, hfind, getD_some, hnext]
      refine (first_le_eq hp hheld fun x hx hxs => ?_).symm
      rw [Option.some.inj ((hat hx hxs).symm.trans hget)]
      exact check_eq_false hstate

end deque

/-! ## The map -/

section map

open MessageMap LastValue

variable {q : MessageMap}

/-- The entries are in the order of their numbers. -/
def Sorted (q : MessageMap) : Prop := q.messages.Pairwise fun e e' => Ahead e.1 e'.1

theorem Sorted.call (h : Sorted q) {a : MessageMap.Call} (hinc : Increasing q a) : Sorted (q.call a) := by
  rcases call_cases q a with ⟨m, hm, hcall, -⟩ | ⟨c, rfl⟩ | ⟨-, -, p, f, -, hcall⟩
  · rw [hcall, Sorted, messages_update (hinc m hm), pairwise_append]
    refine ⟨h.sublist filter_sublist, pairwise_singleton _ _, fun e he e' he' => ?_⟩
    rw [mem_singleton.1 he']
    exact kept_ahead (hinc m hm) e he
  · have hdel : Sorted (q.deleted c).2 := by
      unfold MessageMap.deleted
      split
      · exact h
      · exact h.sublist filter_sublist
    exact hdel
  · rw [hcall, Sorted, ← pairwise_map, numbers_modify, pairwise_map]
    exact h

/-- The loop of `next` searches for the first state that passes. -/
theorem nextLoop_fst (v : BitVec 32) (l : List (SequenceNumber × Message)) (c : QueueCursor) :
    (nextLoop v l c).1 = (l.find? fun e => c.check e.2.state).map Prod.fst := by
  induction l generalizing c with
  | nil => rfl
  | cons e l ih =>
    have hkind : (c.setPosition e.2.sequence v).check e.2.state = c.check e.2.state := rfl
    rw [nextLoop, find?_cons]
    simp only [hkind]
    cases hc : c.check e.2.state with
    | true => rfl
    | false =>
      simp only [Bool.false_eq_true, if_false, ih]
      rfl

/-- The numbers of the map stand in their order. -/
structure InOrder (b : SequenceNumber) (q : MessageMap) : Prop where
  ranked : Ranked b (q.messages.map Prod.snd)
  number : ∀ e ∈ q.messages, e.2.sequence = e.1
  lookup : ∀ e ∈ q.messages, q.lookup e.1 = some e.2

theorem inOrder {b : SequenceNumber} (hbij : InBijection q) (hsor : Sorted q)
    (hhalf : ∀ e ∈ q.messages, dist b e.1 + 1 < 2 ^ 31) : InOrder b q := by
  have hloo : ∀ e ∈ q.messages, q.lookup e.1 = some e.2 := fun e he =>
    (Assoc.mem_iff_lookup hbij.numbers).1 he
  have hnum : ∀ e ∈ q.messages, e.2.sequence = e.1 := fun e he => (hbij.under_key (hloo e he)).1
  refine ⟨⟨forall_mem_map.2 fun e he => by rw [hnum e he]; exact hhalf e he, ?_⟩, hnum, hloo⟩
  rw [pairwise_map]
  refine List.Pairwise.imp_of_mem (fun {e e'} he he' hahead => ?_) hsor
  rw [hnum e he, hnum e' he']
  exact dist_lt_of_ahead (hhalf e he) (hhalf e' he') hahead

variable {b : SequenceNumber}

/-- From any position, `next` of a map goes to the first number after it. -/
theorem InOrder.next_eq (h : InOrder b q) {x : SequenceNumber} (hx : dist b x + 1 < 2 ^ 31) :
    (q.next (c.setPosition x q.version)).1.bind q.lookup = first c (q.messages.map Prod.snd) fun n => x.lt n := by
  have hlate : Late (fun e : SequenceNumber × Message => x.lt e.1) q.messages := by
    refine List.Pairwise.imp_of_mem (fun {e e'} he he' hlt => ?_) (pairwise_map.1 (h.ranked.late_lt hx))
    simpa only [h.number e he, h.number e' he'] using hlt
  have hfind : (q.next (c.setPosition x q.version)).1 =
      (q.messages.find? fun e => c.check e.2.state && x.lt e.1).map Prod.fst := by
    rw [MessageMap.next, nextLoop_fst]
    exact congrArg _ (find?_dropWhile hlate)
  have hfirst : first c (q.messages.map Prod.snd) (fun n => x.lt n) =
      (q.messages.find? fun e => c.check e.2.state && x.lt e.1).map Prod.snd := by
    rw [first, find?_map]
    refine congrArg _ (find?_congr fun e he => ?_)
    rw [Function.comp_apply, h.number e he]
  rw [hfind, hfirst]
  cases hl : q.messages.find? fun e => c.check e.2.state && x.lt e.1 with
  | none => rfl
  | some e => exact h.lookup e (mem_of_find?_eq_some hl)

theorem map_exact_iff (hbij : InBijection q) (hsor : Sorted q)
    (hhalf : OneHalf (p :: q.messages.map Prod.fst)) (c : QueueCursor) :
    Exact c p (q.messages.map Prod.snd) (map q p c) ↔ HeldOrPassed q p c := by
  obtain ⟨b, hb⟩ := hhalf
  obtain ⟨hp, hheld⟩ := forall_mem_cons.1 hb
  rw [forall_mem_map] at hheld
  have ho := inOrder hbij hsor hheld
  unfold HeldOrPassed
  cases hl : q.messages.find? fun e => !e.1.lt p with
  | none =>
    -- every message comes before the position
    have hfind : q.find p (some c) = (none, some (c.setPosition p q.version)) := by
      simp [MessageMap.find, hl]
    refine iff_of_true (.inr ⟨by simp only [map, hfind]; rfl, ?_⟩) nofun
    simp only [map, hfind, getD_some, ho.next_eq hp]
    refine (first_le_eq hp ho.ranked.half (forall_mem_map.2 fun e he hs => ?_)).symm
    have hlt := find?_eq_none.1 hl e he
    rw [Bool.not_eq_true, Bool.not_eq_false', lt_iff_dist (hheld e he) hp, ← ho.number e he, hs] at hlt
    omega
  | some e =>
    have he := mem_of_find?_eq_some hl
    have hfind : q.find p (some c) = (if e.1 = p then some e.1 else none, some (c.setPosition e.1 q.version)) := by
      simp [MessageMap.find, hl]
    have hnext : (map q p c).2 = first c (q.messages.map Prod.snd) fun n => e.1.lt n := by
      simp [map, hfind, ho.next_eq (hheld e he)]
    by_cases hk : e.1 = p
    · refine iff_of_true (.inl ⟨e.2, ?_, (ho.number e he).trans hk, by rw [hnext, hk]⟩) ?_
      · simp only [map, hfind, hk]
        rw [← hk]
        exact ho.lookup e he
      · rintro e' he'
        rw [← Option.some.inj he']
        exact .inl hk
    have hnone : (map q p c).1 = none := by
      simp only [map, hfind, hk]
      rfl
    -- the cursor is left at a message after the position, which `next` goes past
    have hexact : Exact c p (q.messages.map Prod.snd) (map q p c) ↔
        ∀ m ∈ q.messages.map Prod.snd, c.check m.state = true →
          (e.1.lt m.sequence = true ↔ p.le m.sequence = true) := by
      rw [← find?_and_eq_iff (ho.ranked.late_lt (hheld e he)) (ho.ranked.late_le hp), Exact, hnone, hnext]
      exact ⟨fun h => h.elim (fun ⟨m, hm, _⟩ => absurd hm nofun) And.right, fun h => .inr ⟨rfl, h⟩⟩
    have hple : dist b p ≤ dist b e.1 := by
      have := find?_some hl
      rw [Bool.not_eq_true', ← Bool.not_eq_true, lt_iff_dist (hheld e he) hp] at this
      omega
    rw [hexact, forall_mem_map]
    constructor
    · rintro hall e' he'
      cases he'
      refine .inr (Bool.eq_false_iff.2 fun hcheck => ?_)
      have := (hall e he hcheck).2
      rw [ho.number e he, le_iff_dist hp (hheld e he), lt_iff_dist (hheld e he) (hheld e he)] at this
      exact absurd (this hple) (Nat.lt_irrefl _)
    intro hpas e' he' hcheck
    have hne : e' ≠ e := by
      rintro rfl
      rw [(hpas e' rfl).resolve_left hk] at hcheck
      exact absurd hcheck nofun
    rw [ho.number e' he', lt_iff_dist (hheld e he) (hheld e' he'), le_iff_dist hp (hheld e' he')]
    refine ⟨fun h => by omega, fun h => ?_⟩
    -- of those that do not come before the position, the one found is the first
    obtain ⟨-, before, after, hsplit, hbef⟩ := find?_eq_some_iff_append.1 hl
    have hmem := he'
    rw [hsplit] at hmem
    rcases mem_append.1 hmem with hmem | hmem
    · have hlt := hbef e' hmem
      rw [Bool.not_not, lt_iff_dist (hheld e' he') hp] at hlt
      omega
    have horder := ho.ranked.order
    rw [pairwise_map, hsplit, pairwise_append, pairwise_cons] at horder
    have hlt := horder.2.1.1 e' ((mem_cons.1 hmem).resolve_left hne)
    rwa [ho.number e he, ho.number e' he'] at hlt

end map

end QB.Spec.Seek
