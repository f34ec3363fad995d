import QpidBroker.Spec.RangeSet
import Mathlib.Data.List.TakeWhile

/-!
# Sets of ranges are sets

A ruler gives the values of a range set places on a line, as long as they stay below its
limit; for sequence numbers these are the distances from the start of one half of the number
space (`Serial.dist`). On such values every range set stays sorted, with gaps between its
ranges (`Sound`), the search of an operation finds its place (`Sound.find`), and what the set
covers after the operation is the union or the difference.
-/

namespace QB.Impl

open List

/-- Places of values on a line, and what the operations on values are there. -/
structure Ruler (T : Type) [RangeValue T] where
  pos : T → Nat
  limit : Nat
  limit_le : limit ≤ 2 ^ 31
  pos_inj {a b : T} : pos a = pos b → a = b
  lt_iff {a b : T} : pos a < limit → pos b < limit → (RangeValue.lt a b = true ↔ pos a < pos b)
  pos_next {a : T} : pos a + 1 < limit → pos (RangeValue.next a) = pos a + 1
  pos_prev {a : T} : 0 < pos a → pos a < limit → pos (RangeValue.prev a) + 1 = pos a
  sub_eq {a b : T} : pos b ≤ pos a → pos a < limit → RangeValue.sub a b = BitVec.ofNat 32 (pos a - pos b)

variable {T : Type} [RangeValue T] {R : Ruler T}

namespace Ruler

variable {a b : T}

theorem le_iff (ha : R.pos a < R.limit) (hb : R.pos b < R.limit) :
    RangeValue.le a b = true ↔ R.pos a ≤ R.pos b := by
  rw [RangeValue.le, Bool.not_eq_true', ← Bool.not_eq_true, R.lt_iff hb ha]
  omega

theorem pos_min (ha : R.pos a < R.limit) (hb : R.pos b < R.limit) :
    R.pos (RangeValue.min a b) = min (R.pos a) (R.pos b) := by
  unfold RangeValue.min
  split
  · next h => rw [Nat.min_eq_right ((R.lt_iff hb ha).1 h).le]
  · next h => rw [Nat.min_eq_left (not_lt.1 fun h' => h ((R.lt_iff hb ha).2 h'))]

theorem pos_max (ha : R.pos a < R.limit) (hb : R.pos b < R.limit) :
    R.pos (RangeValue.max a b) = max (R.pos a) (R.pos b) := by
  unfold RangeValue.max
  split
  · next h => rw [Nat.max_eq_right ((R.lt_iff ha hb).1 h).le]
  · next h => rw [Nat.max_eq_left (not_lt.1 fun h' => h ((R.lt_iff ha hb).2 h'))]

/-- The range is not empty, and it is on the ruler. -/
structure Valid (R : Ruler T) (r : Range T) : Prop where
  lt : R.pos r.begin_ < R.pos r.end_
  limit : R.pos r.end_ < R.limit

def In (R : Ruler T) (r : Range T) (n : Nat) : Prop := R.pos r.begin_ ≤ n ∧ n < R.pos r.end_

variable {r s : Range T}

theorem Valid.begin (h : R.Valid r) : R.pos r.begin_ < R.limit := h.lt.trans h.limit

theorem contains_iff (hr : R.Valid r) {x : T} (hx : R.pos x < R.limit) : r.contains x = true ↔ R.In r (R.pos x) := by
  rw [Range.contains, Bool.and_eq_true, le_iff hr.begin hx, R.lt_iff hx hr.limit, In]

theorem containsRange_iff (hr : R.Valid r) (hs : R.Valid s) :
    r.containsRange s = true ↔ R.pos r.begin_ ≤ R.pos s.begin_ ∧ R.pos s.end_ ≤ R.pos r.end_ := by
  rw [Range.containsRange, Bool.and_eq_true, le_iff hr.begin hs.begin, le_iff hs.limit hr.limit]

theorem strictContains_iff (hr : R.Valid r) (hs : R.Valid s) :
    r.strictContains s = true ↔ R.pos r.begin_ < R.pos s.begin_ ∧ R.pos s.end_ < R.pos r.end_ := by
  rw [Range.strictContains, Bool.and_eq_true, R.lt_iff hr.begin hs.begin, R.lt_iff hs.limit hr.limit]

theorem touching_iff (hr : R.Valid r) (hs : R.Valid s) :
    r.touching s = true ↔ R.pos r.begin_ ≤ R.pos s.end_ ∧ R.pos s.begin_ ≤ R.pos r.end_ := by
  have hmax := pos_max hr.begin hs.begin
  have hmin := pos_min hr.limit hs.limit
  have := hr.lt
  have := hs.lt
  have := hr.limit
  have := hs.limit
  rw [Range.touching, le_iff (R := R) (by omega) (by omega)]
  omega

theorem pos_merge (hr : R.Valid r) (hs : R.Valid s) :
    R.pos (r.merge s).begin_ = min (R.pos r.begin_) (R.pos s.begin_) ∧
      R.pos (r.merge s).end_ = max (R.pos r.end_) (R.pos s.end_) :=
  ⟨pos_min hr.begin hs.begin, pos_max hr.limit hs.limit⟩

theorem Valid.merge (hr : R.Valid r) (hs : R.Valid s) : R.Valid (r.merge s) := by
  obtain ⟨hb, he⟩ := pos_merge hr hs
  have := hr.lt
  have := hr.limit
  have := hs.limit
  exact ⟨by omega, by omega⟩

end Ruler

open Ruler

/-! ## Lists of ranges -/

/-- Sorted ranges, with a gap between each and the next. -/
structure Sound (R : Ruler T) (l : List (Range T)) : Prop where
  valid : ∀ r ∈ l, R.Valid r
  apart : l.Pairwise fun r s => R.pos r.end_ < R.pos s.begin_

/-- The place is in one of the ranges. -/
def Covers (R : Ruler T) (l : List (Range T)) (n : Nat) : Prop := ∃ r ∈ l, R.In r n

variable {l l' pre post : List (Range T)} {r x : Range T} {n : Nat}

theorem covers_append : Covers R (l ++ l') n ↔ Covers R l n ∨ Covers R l' n := by
  simp [Covers, or_and_right, exists_or]

theorem covers_cons : Covers R (x :: l) n ↔ R.In x n ∨ Covers R l n := by
  simp [Covers]

theorem covers_nil : ¬ Covers R [] n := by
  simp [Covers]

theorem Sound.nil : Sound R [] := ⟨by simp, .nil⟩

theorem sound_cons : Sound R (x :: l) ↔ R.Valid x ∧ Sound R l ∧ ∀ y ∈ l, R.pos x.end_ < R.pos y.begin_ := by
  constructor
  · rintro ⟨hv, ha⟩
    obtain ⟨hx, ha⟩ := pairwise_cons.1 ha
    exact ⟨hv x (mem_cons_self ..), ⟨fun r hr => hv r (mem_cons_of_mem _ hr), ha⟩, hx⟩
  · rintro ⟨hx, ⟨hv, ha⟩, hlt⟩
    exact ⟨forall_mem_cons.2 ⟨hx, hv⟩, pairwise_cons.2 ⟨hlt, ha⟩⟩

theorem sound_append : Sound R (l ++ l') ↔
    Sound R l ∧ Sound R l' ∧ ∀ x ∈ l, ∀ y ∈ l', R.pos x.end_ < R.pos y.begin_ := by
  constructor
  · rintro ⟨hv, ha⟩
    obtain ⟨hl, hl', hlt⟩ := pairwise_append.1 ha
    exact ⟨⟨fun r hr => hv r (mem_append_left _ hr), hl⟩,
      ⟨fun r hr => hv r (mem_append_right _ hr), hl'⟩, hlt⟩
  · rintro ⟨⟨hv, ha⟩, ⟨hv', ha'⟩, hlt⟩
    exact ⟨forall_mem_append.2 ⟨hv, hv'⟩, pairwise_append.2 ⟨ha, ha', hlt⟩⟩

theorem Sound.append_cons (hl : Sound R l) (hl' : Sound R (x :: l')) (h : ∀ y ∈ l, R.pos y.end_ < R.pos x.begin_) :
    Sound R (l ++ x :: l') := by
  obtain ⟨hx, -, hlt⟩ := sound_cons.1 hl'
  refine sound_append.2 ⟨hl, hl', fun y hy => forall_mem_cons.2 ⟨h y hy, fun z hz => ?_⟩⟩
  exact (h y hy).trans (hx.lt.trans (hlt z hz))

theorem Sound.covers_tail (h : Sound R (x :: l)) : Covers R l n ↔ Covers R (x :: l) n ∧ R.pos x.end_ < n := by
  refine ⟨fun hn => ⟨covers_cons.2 (.inr hn), ?_⟩, fun ⟨hn, hlt⟩ => ?_⟩
  · obtain ⟨y, hy, hin⟩ := hn
    exact ((sound_cons.1 h).2.2 y hy).trans_le hin.1
  · exact (covers_cons.1 hn).resolve_left fun hin => Nat.lt_asymm hlt hin.2

/-- The first range of a list that covers more starts no later; and if it starts at the same
place, it ends no earlier. -/
theorem Sound.head_le (h : Sound R (x :: l)) (h' : Sound R (r :: l'))
    (hcov : ∀ n, Covers R (x :: l) n → Covers R (r :: l') n) :
    R.pos r.begin_ ≤ R.pos x.begin_ ∧ (R.pos r.begin_ = R.pos x.begin_ → R.pos x.end_ ≤ R.pos r.end_) := by
  have hx := (sound_cons.1 h).1.lt
  have hr := (sound_cons.1 h').1.lt
  constructor
  · rcases covers_cons.1 (hcov _ (covers_cons.2 (.inl ⟨le_rfl, hx⟩))) with hin | hc
    · exact hin.1
    · exact (hr.trans (h'.covers_tail.1 hc).2).le
  · intro heq
    by_contra hlt
    -- the end of the first range is in the gap behind it
    rcases covers_cons.1 (hcov (R.pos r.end_) (covers_cons.2 (.inl ⟨by omega, by omega⟩))) with hin | hc
    · exact Nat.lt_irrefl _ hin.2
    · exact Nat.lt_irrefl _ (h'.covers_tail.1 hc).2

/-- What is covered has only one list of ranges. -/
theorem Sound.ext (h : Sound R l) (h' : Sound R l') (hcov : ∀ n, Covers R l n ↔ Covers R l' n) : l = l' := by
  induction l generalizing l' with
  | nil =>
    cases l' with
    | nil => rfl
    | cons r l' =>
      exact absurd ((hcov _).2 (covers_cons.2 (.inl ⟨le_rfl, (sound_cons.1 h').1.lt⟩))) covers_nil
  | cons x l ih =>
    cases l' with
    | nil => exact absurd ((hcov _).1 (covers_cons.2 (.inl ⟨le_rfl, (sound_cons.1 h).1.lt⟩))) covers_nil
    | cons r l' =>
      obtain ⟨hb, he⟩ := h.head_le h' fun n => (hcov n).1
      obtain ⟨hb', he'⟩ := h'.head_le h fun n => (hcov n).2
      have hbegin : r.begin_ = x.begin_ := R.pos_inj (Nat.le_antisymm hb hb')
      have hend : r.end_ = x.end_ := R.pos_inj (Nat.le_antisymm (he' (by rw [hbegin])) (he (by rw [hbegin])))
      obtain rfl : r = x := by cases r; cases x; simp_all
      rw [ih (sound_cons.1 h).2.1 (sound_cons.1 h').2.1 fun n => by rw [h.covers_tail, h'.covers_tail, hcov]]

theorem Sound.split (h : Sound R l) (n : Nat) : ∃ pre post, l = pre ++ post ∧
    (∀ x ∈ pre, R.pos x.end_ < n) ∧ ∀ x ∈ post, n ≤ R.pos x.end_ := by
  induction l with
  | nil => exact ⟨[], [], rfl, by simp, by simp⟩
  | cons x l ih =>
    obtain ⟨hx, hl, hlt⟩ := sound_cons.1 h
    by_cases hn : R.pos x.end_ < n
    · obtain ⟨pre, post, rfl, hpre, hpost⟩ := ih hl
      exact ⟨x :: pre, post, rfl, forall_mem_cons.2 ⟨hn, hpre⟩, hpost⟩
    refine ⟨[], x :: l, rfl, by simp, forall_mem_cons.2 ⟨by omega, fun y hy => ?_⟩⟩
    have := hlt y hy
    have := (hl.valid y hy).lt
    omega

theorem Sound.find (h : Sound R l) (hr : R.pos r.begin_ < R.limit) : ∃ pre post, l = pre ++ post ∧
    RangeSet.find ⟨l⟩ r = pre.length ∧ (∀ x ∈ pre, R.pos x.end_ < R.pos r.begin_) ∧
      ∀ x ∈ post, R.pos r.begin_ ≤ R.pos x.end_ := by
  obtain ⟨pre, post, rfl, hpre, hpost⟩ := h.split (R.pos r.begin_)
  refine ⟨pre, post, rfl, lowerBound_append (fun x hx => ?_) (fun x hx => ?_), hpre, hpost⟩
  · exact (R.lt_iff (h.valid x (mem_append_left _ hx)).limit hr).2 (hpre x hx)
  · rw [← Bool.not_eq_true, Range.lt, R.lt_iff (h.valid x (mem_append_right _ hx)).limit hr]
    exact not_lt.2 (hpost x hx)

/-! ## Adding a range -/

/-- What is merged into a range: the ranges that touch it. -/
theorem Sound.mergeLoop (h : Sound R l) (hx : R.Valid x) (hb : ∀ y ∈ l, R.pos x.begin_ ≤ R.pos y.begin_) :
    Sound R ((RangeSet.mergeLoop x l).1 :: (RangeSet.mergeLoop x l).2) ∧
      R.pos (RangeSet.mergeLoop x l).1.begin_ = R.pos x.begin_ ∧
      ∀ n, Covers R ((RangeSet.mergeLoop x l).1 :: (RangeSet.mergeLoop x l).2) n ↔ Covers R (x :: l) n := by
  induction l generalizing x with
  | nil => exact ⟨sound_cons.2 ⟨hx, h, by simp [RangeSet.mergeLoop]⟩, rfl, fun n => Iff.rfl⟩
  | cons y l ih =>
    obtain ⟨hy, hl, hlt⟩ := sound_cons.1 h
    have hxy := hb y (mem_cons_self ..)
    rw [RangeSet.mergeLoop]
    split
    · next ht =>
      obtain ⟨hmb, hme⟩ := pos_merge hx hy
      have ht := (touching_iff hx hy).1 ht
      obtain ⟨hs, hbegin, hcov⟩ := ih hl (hx.merge hy) fun z hz => by
        have := hb z (mem_cons_of_mem _ hz)
        omega
      refine ⟨hs, by omega, fun n => ?_⟩
      rw [hcov, covers_cons, covers_cons, covers_cons, ← or_assoc]
      refine or_congr_left ?_
      unfold In
      omega
    next ht =>
    have hgap : R.pos x.end_ < R.pos y.begin_ := by
      by_contra hgap
      have := hy.lt
      exact ht ((touching_iff hx hy).2 ⟨by omega, by omega⟩)
    refine ⟨sound_cons.2 ⟨hx, h, forall_mem_cons.2 ⟨hgap, fun z hz => ?_⟩⟩, rfl, fun n => Iff.rfl⟩
    exact hgap.trans (hy.lt.trans (hlt z hz))

theorem drop_length_succ {α : Type} (pre post : List α) (x : α) :
    (pre ++ x :: post).drop (pre.length + 1) = post := by
  rw [← drop_drop, drop_left]
  rfl

section

variable [DecidableEq T]

theorem empty_iff (R : Ruler T) : r.empty = true ↔ R.pos r.begin_ = R.pos r.end_ := by
  rw [Range.empty, decide_eq_true_iff]
  exact ⟨fun h => by rw [h], R.pos_inj⟩

/-- A range that goes forwards, on the ruler. -/
def Forward (R : Ruler T) (r : Range T) : Prop := R.pos r.begin_ ≤ R.pos r.end_ ∧ R.pos r.end_ < R.limit

theorem Forward.valid (h : Forward R r) (he : ¬ r.empty = true) : R.Valid r := by
  rw [empty_iff R] at he
  have := h.1
  exact ⟨by omega, h.2⟩

theorem Sound.addRange {s : RangeSet T} (h : Sound R s.ranges) (hr : Forward R r) : ∃ s', s.addRange r = some s' ∧
    Sound R s'.ranges ∧ ∀ n, Covers R s'.ranges n ↔ Covers R s.ranges n ∨ R.In r n := by
  obtain ⟨l⟩ := s
  unfold RangeSet.addRange
  split
  · next he =>
    rw [empty_iff R] at he
    refine ⟨_, rfl, h, fun n => ⟨.inl, fun hn => hn.resolve_right fun hin => ?_⟩⟩
    unfold In at hin
    omega
  next he =>
  have hv := hr.valid he
  obtain ⟨pre, post, rfl, hfind, hpre, hpost⟩ := h.find hv.begin
  obtain ⟨hspre, hspost, hlt⟩ := sound_append.1 h
  have hlast : Sound R (pre ++ [r]) := sound_append.2 ⟨hspre, sound_cons.2 ⟨hv, .nil, by simp⟩,
      by simpa using hpre⟩
  simp only [hfind]
  cases post with
  | nil =>
    rw [append_nil] at h ⊢
    rw [if_pos rfl]
    refine ⟨_, rfl, hlast, fun n => ?_⟩
    rw [covers_append, covers_cons]
    simp [covers_nil]
  | cons x post =>
    obtain ⟨hx, hpost', hxlt⟩ := sound_cons.1 hspost
    rw [if_neg (by simp), getElem?_append_right le_rfl, Nat.sub_self]
    refine ⟨_, rfl, ?_⟩
    have hxr := hpost x (mem_cons_self ..)
    by_cases ht : x.touching r = true
    · obtain ⟨hmb, hme⟩ := pos_merge hx hv
      have ht' := (touching_iff hx hv).1 ht
      obtain ⟨hs, hbegin, hcov⟩ := hpost'.mergeLoop (hx.merge hv) fun y hy => by
        have := hxlt y hy
        omega
      simp only [ht, Bool.not_true, Bool.false_eq_true, if_false, take_left, drop_length_succ]
      refine ⟨hspre.append_cons hs fun y hy => ?_, fun n => ?_⟩
      · have := hlt y hy x (mem_cons_self ..)
        have := hpre y hy
        omega
      rw [covers_append, hcov, covers_cons, covers_append, covers_cons]
      have hin : R.In (x.merge r) n ↔ R.In x n ∨ R.In r n := by
        have := hx.lt
        unfold In
        omega
      tauto
    have hgap : R.pos r.end_ < R.pos x.begin_ := by
      by_contra hgap
      exact ht ((touching_iff hx hv).2 ⟨by omega, hxr⟩)
    simp only [ht, Bool.not_false, if_true, take_left, drop_left]
    refine ⟨hspre.append_cons (sound_cons.2 ⟨hv, hspost,
      forall_mem_cons.2 ⟨hgap, fun y hy => ?_⟩⟩) hpre, fun n => ?_⟩
    · exact hgap.trans (hx.lt.trans (hxlt y hy))
    · rw [covers_append, covers_cons, covers_append]
      tauto

end

/-! ## Removing a range -/

/-- What is left of the ranges `l` without `r`. -/
structure Removed (R : Ruler T) (r : Range T) (l left : List (Range T)) : Prop where
  sound : Sound R left
  starts : ∀ y ∈ left, ∃ z ∈ l, R.pos z.begin_ ≤ R.pos y.begin_
  covers : ∀ n, Covers R left n ↔ Covers R l n ∧ ¬ R.In r n

namespace Removed

theorem nil : Removed R r [] [] := ⟨.nil, by simp, fun n => by simp [covers_nil]⟩

/-- Ranges in `r` leave nothing. -/
theorem skip {left inner : List (Range T)} (h : Removed R r l left) (hin : ∀ n, Covers R inner n → R.In r n) :
    Removed R r (inner ++ l) left where
  sound := h.sound
  starts y hy := by
    obtain ⟨z, hz, hle⟩ := h.starts y hy
    exact ⟨z, mem_append_right _ hz, hle⟩
  covers n := by
    have := hin n
    rw [covers_append, h.covers]
    tauto

/-- Ranges before `r` stay. -/
theorem keep {left : List (Range T)} (hleft : Removed R r post left) (h : Sound R (pre ++ post))
    (hpre : ∀ y ∈ pre, R.pos y.end_ < R.pos r.begin_) : Removed R r (pre ++ post) (pre ++ left) := by
  obtain ⟨hspre, -, hgap⟩ := sound_append.1 h
  refine ⟨sound_append.2 ⟨hspre, hleft.sound, fun x hx y hy => ?_⟩, fun y hy => ?_, fun n => ?_⟩
  · obtain ⟨z, hz, hle⟩ := hleft.starts y hy
    exact (hgap x hx z hz).trans_le hle
  · rcases mem_append.1 hy with hy | hy
    · exact ⟨y, mem_append_left _ hy, le_rfl⟩
    · obtain ⟨z, hz, hle⟩ := hleft.starts y hy
      exact ⟨z, mem_append_right _ hz, hle⟩
  have hbef : Covers R pre n → ¬ R.In r n := by
    rintro ⟨y, hy, hn⟩
    have := hpre y hy
    unfold In at hn ⊢
    omega
  rw [covers_append, covers_append, hleft.covers]
  tauto

variable (h : Sound R (x :: post))

include h

/-- What ends with the first range does not reach into the others. -/
theorem not_in_of_tail (he : R.pos r.end_ ≤ R.pos x.end_) (hn : Covers R post n) : ¬ R.In r n := by
  have := (h.covers_tail.1 hn).2
  unfold In
  omega

theorem outside (hle : R.pos r.end_ ≤ R.pos x.begin_) : Removed R r (x :: post) (x :: post) where
  sound := h
  starts y hy := ⟨y, hy, le_rfl⟩
  covers n := by
    refine ⟨fun hn => ⟨hn, fun hin => ?_⟩, And.left⟩
    have := (sound_cons.1 h).1.lt
    unfold In at hin
    rcases covers_cons.1 hn with hn | hn
    · unfold In at hn
      omega
    · have := (h.covers_tail.1 hn).2
      omega

theorem whole : Removed R x (x :: post) post where
  sound := (sound_cons.1 h).2.1
  starts y hy := ⟨y, mem_cons_of_mem _ hy, le_rfl⟩
  covers n := by
    rw [covers_cons]
    exact ⟨fun hn => ⟨.inr hn, not_in_of_tail h le_rfl hn⟩, fun hn => hn.1.resolve_left hn.2⟩

/-- A range around `r` is split. -/
theorem split (hr : R.Valid r) (hb : R.pos x.begin_ < R.pos r.begin_) (he : R.pos r.end_ < R.pos x.end_) :
    Removed R r (x :: post) (⟨x.begin_, r.begin_⟩ :: ⟨r.end_, x.end_⟩ :: post) := by
  obtain ⟨hx, hpost, hlt⟩ := sound_cons.1 h
  refine ⟨sound_cons.2 ⟨⟨hb, hr.begin⟩, sound_cons.2 ⟨⟨he, hx.limit⟩, hpost, hlt⟩,
    forall_mem_cons.2 ⟨hr.lt, fun y hy => ?_⟩⟩, ?_, fun n => ?_⟩
  · exact (hr.lt.trans he).trans (hlt y hy)
  · refine forall_mem_cons.2 ⟨⟨x, by simp, le_rfl⟩,
      forall_mem_cons.2 ⟨⟨x, by simp, ?_⟩, fun y hy => ?_⟩⟩
    · exact (hb.trans hr.lt).le
    · exact ⟨y, mem_cons_of_mem _ hy, le_rfl⟩
  have hin : R.In ⟨x.begin_, r.begin_⟩ n ∨ R.In ⟨r.end_, x.end_⟩ n ↔ R.In x n ∧ ¬ R.In r n := by
    have := hr.lt
    unfold In
    simp only
    omega
  have hafter := not_in_of_tail h he.le (n := n)
  rw [covers_cons, covers_cons, covers_cons, ← or_assoc, hin]
  tauto

/-- A range that ends in `r` is truncated. -/
theorem truncated {left : List (Range T)} (hr : R.Valid r) (hb : R.pos x.begin_ < R.pos r.begin_)
    (hxr : R.pos r.begin_ ≤ R.pos x.end_) (he : R.pos x.end_ ≤ R.pos r.end_) (hleft : Removed R r post left) :
    Removed R r (x :: post) ({ x with end_ := r.begin_ } :: left) := by
  obtain ⟨-, -, hlt⟩ := sound_cons.1 h
  refine ⟨sound_cons.2 ⟨⟨hb, hr.begin⟩, hleft.sound, fun y hy => ?_⟩, ?_, fun n => ?_⟩
  · obtain ⟨z, hz, hle⟩ := hleft.starts y hy
    exact hxr.trans_lt ((hlt z hz).trans_le hle)
  · refine forall_mem_cons.2 ⟨⟨x, by simp, le_rfl⟩, fun y hy => ?_⟩
    obtain ⟨z, hz, hle⟩ := hleft.starts y hy
    exact ⟨z, mem_cons_of_mem _ hz, hle⟩
  have hin : R.In { x with end_ := r.begin_ } n ↔ R.In x n ∧ ¬ R.In r n := by
    unfold In
    simp only
    omega
  rw [covers_cons, covers_cons, hleft.covers, hin]
  tauto

/-- A range that starts in `r` or behind it, and ends behind it, starts no earlier than its end. -/
theorem trimmed (hr : R.Valid r) (hb : R.pos r.begin_ ≤ R.pos x.begin_) (he : R.pos r.end_ < R.pos x.end_) :
    Removed R r (x :: post)
      ((if RangeValue.lt x.begin_ r.end_ = true then { x with begin_ := r.end_ } else x) :: post) := by
  obtain ⟨hx, hpost, hlt⟩ := sound_cons.1 h
  generalize hz : (if RangeValue.lt x.begin_ r.end_ = true then { x with begin_ := r.end_ } else x) = z
  have hzpos : R.pos z.begin_ = max (R.pos x.begin_) (R.pos r.end_) ∧ R.pos z.end_ = R.pos x.end_ := by
    have hiff := R.lt_iff hx.begin hr.limit
    rw [← hz]
    split_ifs with hlt
    · exact ⟨(max_eq_right (hiff.1 hlt).le).symm, rfl⟩
    · exact ⟨(max_eq_left (not_lt.1 fun h' => hlt (hiff.2 h'))).symm, rfl⟩
  have hxlt := hx.lt
  have hxli := hx.limit
  refine ⟨sound_cons.2 ⟨⟨by omega, by omega⟩, hpost, fun y hy => ?_⟩, ?_, fun n => ?_⟩
  · rw [hzpos.2]
    exact hlt y hy
  · exact forall_mem_cons.2 ⟨⟨x, by simp, by omega⟩, fun y hy => ⟨y, mem_cons_of_mem _ hy, le_rfl⟩⟩
  have hin : R.In z n ↔ R.In x n ∧ ¬ R.In r n := by
    unfold In
    omega
  have hafter := not_in_of_tail h he.le (n := n)
  rw [covers_cons, covers_cons, hin]
  tauto

end Removed

/-- What is left of the ranges from a place on that start in `r` or after it. -/
theorem Sound.eraseFrom (h : Sound R post) (pre : List (Range T)) (hr : R.Valid r)
    (hb : ∀ y ∈ post, R.pos r.begin_ ≤ R.pos y.begin_) :
    ∃ left, RangeSet.eraseFrom r (pre ++ post) pre.length = some (pre ++ left) ∧ Removed R r post left := by
  have hdrop : (pre ++ post).drop pre.length = post := drop_left
  unfold RangeSet.eraseFrom
  simp only [hdrop]
  -- the ranges that are erased, and the others
  generalize hin : post.takeWhile (r.containsRange ·) = inner
  generalize hout : post.dropWhile (r.containsRange ·) = outer
  have hsplit : post = inner ++ outer := by rw [← hin, ← hout, takeWhile_append_dropWhile]
  rw [hsplit] at h hb ⊢
  obtain ⟨hsin, hsout, -⟩ := sound_append.1 h
  have hgone : ∀ n, Covers R inner n → R.In r n := by
    rintro n ⟨y, hy, hn⟩
    have hyr := (containsRange_iff hr (hsin.valid y hy)).1 (mem_takeWhile_imp (hin ▸ hy))
    unfold In at hn ⊢
    omega
  cases outer with
  | nil => exact ⟨[], by simp, Removed.nil.skip hgone⟩
  | cons y outer =>
    have hy := (sound_cons.1 hsout).1
    have hend : R.pos r.end_ < R.pos y.end_ := by
      have hnot : r.containsRange y = false := by
        have := head?_dropWhile_not (r.containsRange ·) post
        rw [hout] at this
        simpa using this
      by_contra hend
      rw [← Bool.not_eq_true, containsRange_iff hr hy] at hnot
      exact hnot ⟨hb y (by simp), by omega⟩
    have hget : (pre ++ (inner ++ y :: outer))[pre.length + inner.length]? = some y := by
      rw [getElem?_append_right (by omega), Nat.add_sub_cancel_left, getElem?_append_right le_rfl,
        Nat.sub_self, getElem?_cons_zero]
    have hrest : (pre ++ (inner ++ y :: outer)).drop (pre.length + inner.length + 1) = outer := by
      rw [← append_assoc, ← length_append, drop_length_succ]
    rw [hget, Option.map_some, hrest]
    exact ⟨_, by simp, (Removed.trimmed hsout hr (hb y (by simp)) hend).skip hgone⟩

variable [DecidableEq T]

variable {s : RangeSet T}

/-- The cases are those of `removeRange`, at the first range that does not end before `r`. -/
theorem Sound.removeRange (h : Sound R s.ranges) (hr : Forward R r) :
    ∃ s', s.removeRange r = some s' ∧ Sound R s'.ranges ∧
      ∀ n, Covers R s'.ranges n ↔ Covers R s.ranges n ∧ ¬ R.In r n := by
  suffices hrem : ∃ s', s.removeRange r = some s' ∧ Removed R r s.ranges s'.ranges by
    obtain ⟨s', hs', hrem⟩ := hrem
    exact ⟨s', hs', hrem.sound, hrem.covers⟩
  obtain ⟨l⟩ := s
  unfold RangeSet.removeRange
  split
  · next he =>
    rw [empty_iff R] at he
    refine ⟨_, rfl, h, fun y hy => ⟨y, hy, le_rfl⟩, fun n => ⟨fun hn => ⟨hn, fun hin => ?_⟩, And.left⟩⟩
    unfold In at hin
    omega
  next he =>
  have hv := hr.valid he
  obtain ⟨pre, post, rfl, hfind, hpre, hpost⟩ := h.find hv.begin
  obtain ⟨-, hspost, -⟩ := sound_append.1 h
  simp only [hfind]
  cases post with
  | nil =>
    rw [if_pos (by simp)]
    exact ⟨_, rfl, Removed.nil.keep h hpre⟩
  | cons x post =>
    obtain ⟨hx, hspo', hxlt⟩ := sound_cons.1 hspost
    have hxr := hpost x (mem_cons_self ..)
    rw [if_neg (by simp), getElem?_append_right le_rfl, Nat.sub_self, getElem?_cons_zero,
      Option.bind_some, drop_length_succ, take_left]
    split_ifs with hle heq hstr hlt
    · exact ⟨_, rfl, (Removed.outside hspost ((le_iff hv.limit hx.begin).1 hle)).keep h hpre⟩
    · subst heq
      rw [show (pre ++ x :: post).eraseIdx pre.length = pre ++ post by simp [eraseIdx_append_of_length_le]]
      exact ⟨_, rfl, (Removed.whole hspost).keep h hpre⟩
    · have hstr := (strictContains_iff hx hv).1 hstr
      exact ⟨_, rfl, (Removed.split hspost hv hstr.1 hstr.2).keep h hpre⟩
    · have hlt := (R.lt_iff hx.begin hv.begin).1 hlt
      have hend : R.pos x.end_ ≤ R.pos r.end_ := not_lt.1 fun h' => hstr ((strictContains_iff hx hv).2 ⟨hlt, h'⟩)
      have hset : (pre ++ x :: post).set pre.length { x with end_ := r.begin_ } =
          (pre ++ [{ x with end_ := r.begin_ }]) ++ post := by simp
      obtain ⟨left, herase, hleft⟩ := hspo'.eraseFrom (pre ++ [{ x with end_ := r.begin_ }]) hv
        fun y hy => hxr.trans (hxlt y hy).le
      rw [length_append, length_singleton] at herase
      rw [hset, herase, append_assoc, singleton_append]
      exact ⟨_, rfl, (Removed.truncated hspost hv hlt hxr hend hleft).keep h hpre⟩
    · have hlt : R.pos r.begin_ ≤ R.pos x.begin_ := not_lt.1 fun h' => hlt ((R.lt_iff hx.begin hv.begin).2 h')
      obtain ⟨left, herase, hleft⟩ := hspost.eraseFrom pre hv
        (forall_mem_cons.2 ⟨hlt, fun y hy => hlt.trans (hx.lt.trans (hxlt y hy)).le⟩)
      rw [herase]
      exact ⟨_, rfl, hleft.keep h hpre⟩

/-! ## Sets -/

/-- Nothing is read past the end of the ranges when one is added, whatever they are. -/
theorem addRange_eq_some (s : RangeSet T) (r : Range T) : ∃ s', s.addRange r = some s' := by
  rw [RangeSet.addRange]
  split
  · exact ⟨_, rfl⟩
  have hle : s.find r ≤ s.ranges.length := lowerBound_le _ _
  by_cases heq : s.find r = s.ranges.length
  · exact ⟨_, if_pos heq⟩
  · simp only [heq, getElem?_eq_getElem (Nat.lt_of_le_of_ne hle heq)]
    exact ⟨_, rfl⟩

theorem Sound.addSet {t : RangeSet T} (h : Sound R s.ranges) (ht : Sound R t.ranges) : ∃ s', s.addSet t = some s' ∧
    Sound R s'.ranges ∧ ∀ n, Covers R s'.ranges n ↔ Covers R s.ranges n ∨ Covers R t.ranges n := by
  obtain ⟨l⟩ := t
  unfold RangeSet.addSet
  induction l generalizing s with
  | nil => exact ⟨s, rfl, h, fun n => by simp [covers_nil]⟩
  | cons r l ih =>
    obtain ⟨hr, hl, -⟩ := sound_cons.1 ht
    obtain ⟨s1, hs1, h1, hcov1⟩ := h.addRange ⟨hr.lt.le, hr.limit⟩
    obtain ⟨s2, hs2, h2, hcov2⟩ := ih h1 hl
    refine ⟨s2, by rw [RangeSet.forEach, hs1]; exact hs2, h2, fun n => ?_⟩
    rw [hcov2, hcov1, covers_cons, or_assoc]

theorem Sound.removeSet {t : RangeSet T} (h : Sound R s.ranges) (ht : ∀ r ∈ t.ranges, R.Valid r) :
    ∃ s', s.removeSet t = some s' ∧ Sound R s'.ranges ∧
      ∀ n, Covers R s'.ranges n ↔ Covers R s.ranges n ∧ ¬ Covers R t.ranges n := by
  obtain ⟨l⟩ := t
  unfold RangeSet.removeSet
  induction l generalizing s with
  | nil => exact ⟨s, rfl, h, fun n => by simp [covers_nil]⟩
  | cons r l ih =>
    obtain ⟨hr, hl⟩ := forall_mem_cons.1 ht
    obtain ⟨s1, hs1, h1, hcov1⟩ := h.removeRange ⟨hr.lt.le, hr.limit⟩
    obtain ⟨s2, hs2, h2, hcov2⟩ := ih h1 hl
    refine ⟨s2, by rw [RangeSet.forEach, hs1]; exact hs2, h2, fun n => ?_⟩
    rw [hcov2, hcov1, covers_cons, not_or, and_assoc]

theorem Sound.addRange_self (h : Sound R s.ranges) (hr : r ∈ s.ranges) : s.addRange r = some s := by
  obtain ⟨l⟩ := s
  have hv := h.valid r hr
  obtain ⟨pre, post, rfl, hfind, hpre, hpost⟩ := h.find hv.begin
  obtain ⟨-, hspost, -⟩ := sound_append.1 h
  have hne : ¬ r.empty = true := fun he => hv.lt.ne ((empty_iff R).1 he)
  have hmem : r ∈ post := by
    rcases mem_append.1 hr with hr | hr
    · have := hpre r hr
      have := hv.lt
      omega
    · exact hr
  cases post with
  | nil => cases hmem
  | cons x post =>
    obtain ⟨hx, -, hxlt⟩ := sound_cons.1 hspost
    -- the first range that does not end before it is the range itself
    obtain rfl : x = r := by
      rcases mem_cons.1 hmem with hmem | hmem
      · exact hmem.symm
      · have := hxlt r hmem
        have := hpost x (mem_cons_self ..)
        omega
    have htouch : x.touching x = true := (touching_iff hx hx).2 ⟨hx.lt.le, hx.lt.le⟩
    have hmerge : x.merge x = x := by simp [Range.merge, RangeValue.min, RangeValue.max]
    have hloop : RangeSet.mergeLoop x post = (x, post) := by
      cases post with
      | nil => rfl
      | cons y post =>
        have hgap := hxlt y (mem_cons_self ..)
        rw [RangeSet.mergeLoop, if_neg]
        rw [touching_iff hx (hspost.valid y (by simp))]
        omega
    unfold RangeSet.addRange
    rw [if_neg hne]
    simp only [hfind]
    rw [if_neg (by simp), getElem?_append_right le_rfl, Nat.sub_self, getElem?_cons_zero,
      Option.map_some, htouch, drop_length_succ, hmerge, hloop, take_left]
    rfl

theorem Sound.addSelf (h : Sound R s.ranges) {n i : Nat} (hn : i + n = s.ranges.length) :
    s.forEachSelf RangeSet.addRange n i = some s := by
  induction n generalizing i with
  | zero => rfl
  | succ n ih =>
    have hi : s.ranges[i]? = some s.ranges[i] := getElem?_eq_getElem (by omega)
    rw [RangeSet.forEachSelf, hi, Option.bind_some, h.addRange_self (mem_of_getElem? hi)]
    exact ih (by omega)

end QB.Impl
