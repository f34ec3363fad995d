import QpidBroker.Proof.RangeSet

/-!
# Sets of sequence numbers

What a sound set contains, what its iterator yields and how many values it counts, in
places on the ruler; and what this says of sequence numbers within one half of the number
space, for sets that are made of each other in any way.
-/

namespace QB.Impl

open Ruler QB.Spec List Serial RangeValue

variable {T : Type} [RangeValue T] {R : Ruler T} {l post : List (Range T)} {r : Range T}

/-! ## What a set contains -/

theorem contains_eq_some (s : RangeSet T) (t : T) : ∃ b, s.contains t = some b ∧
    (b = true → ∃ r ∈ s.ranges, r.contains t) := by
  unfold RangeSet.contains
  simp only
  split
  · exact ⟨false, rfl, by simp⟩
  next hi =>
  have hlt : s.find (.point t) < s.ranges.length := lt_of_le_of_ne (lowerBound_le _ _) hi
  rw [getElem?_eq_getElem hlt]
  exact ⟨_, rfl, fun h => ⟨_, getElem_mem hlt, h⟩⟩

variable {s : RangeSet T} {x : SequenceNumber}

theorem Sound.contains (h : Sound R s.ranges) {t : T} (ht : R.pos t < R.limit) :
    s.contains t = some true ↔ Covers R s.ranges (R.pos t) := by
  obtain ⟨l⟩ := s
  obtain ⟨pre, post, rfl, hfind, hpre, hpost⟩ := h.find (r := .point t) ht
  obtain ⟨-, hspost, -⟩ := sound_append.1 h
  have hbef : ¬ Covers R pre (R.pos t) := by
    rintro ⟨y, hy, hn⟩
    have hy : R.pos y.end_ < R.pos t := hpre y hy
    unfold In at hn
    omega
  unfold RangeSet.contains
  simp only [hfind, covers_append, hbef]
  cases post with
  | nil => simp [covers_nil]
  | cons x post =>
    obtain ⟨hx, -, hxlt⟩ := sound_cons.1 hspost
    have hxt : R.pos t ≤ R.pos x.end_ := hpost x (mem_cons_self ..)
    have hafter : ¬ Covers R post (R.pos t) := by
      rintro ⟨y, hy, hn⟩
      have := hxlt y hy
      unfold In at hn
      omega
    rw [if_neg (by simp), getElem?_append_right le_rfl, Nat.sub_self, getElem?_cons_zero,
      Option.map_some, Option.some.injEq, contains_iff hx ht, covers_cons]
    simp [hafter]

/-! ## Iteration -/

/-- The places of the ranges, in order. -/
def places (R : Ruler T) (l : List (Range T)) : List Nat :=
  l.flatMap fun r => List.range' (R.pos r.begin_) (R.pos r.end_ - R.pos r.begin_)

theorem places_cons : places R (r :: l) = List.range' (R.pos r.begin_) (R.pos r.end_ - R.pos r.begin_) ++ places R l :=
  flatMap_cons

theorem mem_places {n : Nat} : n ∈ places R l ↔ Covers R l n := by
  simp only [places, mem_flatMap, Covers, In, mem_range'_1]
  refine exists_congr fun r => and_congr_right fun hr => ?_
  omega

theorem pairwise_places (h : Sound R l) : (places R l).Pairwise (· < ·) := by
  induction l with
  | nil => exact .nil
  | cons r l ih =>
    obtain ⟨hr, hl, hlt⟩ := sound_cons.1 h
    refine pairwise_append.2 ⟨pairwise_lt_range', ih hl, fun m hm n hn => ?_⟩
    obtain ⟨s, hs, hn⟩ := mem_places.1 hn
    have := hlt s hs
    rw [mem_range'_1] at hm
    unfold In at hn
    omega

/-- From a place in a range on, the iterator yields the places up to the end. -/
theorem Sound.valuesFrom (pre : List (Range T)) (h : Sound R (pre ++ r :: post)) {fuel : Nat} {v : T}
    (hv : R.In r (R.pos v))
    (hfuel : R.pos r.end_ - R.pos v + (places R post).length ≤ fuel) :
    ∃ L, RangeSet.valuesFrom ⟨pre ++ r :: post⟩ fuel (some (pre.length, v)) = some L ∧
      L.map R.pos = List.range' (R.pos v) (R.pos r.end_ - R.pos v) ++ places R post := by
  have hr := h.valid r (by simp)
  have hlimit := hr.limit
  unfold In at hv
  induction fuel generalizing pre r post v with
  | zero => omega
  | succ fuel ih =>
    have hnext : R.pos (next v) = R.pos v + 1 := R.pos_next (by omega)
    have hget : (pre ++ r :: post)[pre.length]? = some r := by simp
    have hgo := contains_iff hr (x := next v) (by omega)
    unfold In at hgo
    rw [RangeSet.valuesFrom, RangeSet.increment, hget, Option.map_some, Option.bind_some]
    by_cases hlast : R.pos v + 1 < R.pos r.end_
    · -- the next value is in the same range
      obtain ⟨L, hL, hmap⟩ := ih pre h (v := next v) (by omega) (by omega) hr hlimit
      rw [if_pos (hgo.2 (by omega)), hL]
      refine ⟨_, rfl, ?_⟩
      rw [map_cons, hmap, hnext, show R.pos r.end_ - R.pos v = R.pos r.end_ - (R.pos v + 1) + 1 by omega,
        range'_succ, cons_append]
    have hone : R.pos r.end_ - R.pos v = 1 := by omega
    rw [if_neg fun h' => by have := hgo.1 h'; omega, hone]
    cases post with
    | nil =>
      exact ⟨[v], by simp [RangeSet.valuesFrom], by simp [places]⟩
    | cons y post =>
      -- the next value is the first of the next range
      have happ : pre ++ r :: y :: post = (pre ++ [r]) ++ y :: post := by simp
      have hy : (pre ++ r :: y :: post)[pre.length + 1]? = some y := by simp
      have hys := h.valid y (by simp)
      have hylt := hys.lt
      rw [places_cons, length_append, length_range'] at hfuel
      rw [happ] at h
      obtain ⟨L, hL, hmap⟩ := ih (pre ++ [r]) h (v := y.begin_) (by omega) (by omega) hys hys.limit
      rw [length_append, length_singleton, ← happ] at hL
      rw [hy, Option.map_some, hL]
      refine ⟨_, rfl, ?_⟩
      rw [map_cons, hmap]
      rfl

theorem Sound.values (h : Sound R s.ranges) {fuel : Nat} (hfuel : (places R s.ranges).length ≤ fuel) :
    ∃ L, s.valuesFrom fuel s.first = some L ∧ L.map R.pos = places R s.ranges := by
  obtain ⟨l⟩ := s
  cases l with
  | nil => exact ⟨[], by simp [RangeSet.first, RangeSet.valuesFrom], rfl⟩
  | cons r l =>
    have hr := (h.valid r (by simp)).lt
    rw [places_cons, length_append, length_range'] at hfuel
    obtain ⟨L, hL, hmap⟩ := Sound.valuesFrom [] h ⟨le_rfl, hr⟩ hfuel
    exact ⟨L, hL, by rw [hmap, places_cons]⟩

/-! ## Counting -/

theorem signExtend_ofNat {k : Nat} (h : k < 2 ^ 31) : (BitVec.ofNat 32 k).signExtend 64 = BitVec.ofNat 64 k := by
  have hmsb : (BitVec.ofNat 32 k).msb = false := by
    rw [BitVec.msb_eq_decide]
    simp only [BitVec.toNat_ofNat, decide_eq_false_iff_not]
    omega
  rw [BitVec.signExtend_eq_setWidth_of_msb_false hmsb]
  apply BitVec.eq_of_toNat_eq
  simp only [BitVec.toNat_setWidth, BitVec.toNat_ofNat]
  omega

theorem Sound.length_places (h : Sound R l) {n : Nat} (hn : ∀ r ∈ l, n ≤ R.pos r.begin_) (hlimit : n < R.limit) :
    n + (places R l).length < R.limit := by
  induction l generalizing n with
  | nil => simpa [places] using hlimit
  | cons r l ih =>
    obtain ⟨hr, hl, hlt⟩ := sound_cons.1 h
    have := ih hl (fun s hs => (hlt s hs).le) hr.limit
    have := hn r (mem_cons_self ..)
    have := hr.lt
    rw [places_cons, length_append, length_range']
    omega

theorem Sound.foldl_size (h : Sound R l) {k : Nat} (hk : k + (places R l).length < 2 ^ 31) :
    l.foldl (fun (n : BitVec 32) r => (n.signExtend 64 + r.size).setWidth 32) (BitVec.ofNat 32 k) =
      BitVec.ofNat 32 (k + (places R l).length) := by
  induction l generalizing k with
  | nil => rfl
  | cons r l ih =>
    obtain ⟨hr, hl, -⟩ := sound_cons.1 h
    rw [places_cons, length_append, length_range'] at hk ⊢
    have hsize : r.size = BitVec.ofNat 64 (R.pos r.end_ - R.pos r.begin_) := by
      rw [Range.size, R.sub_eq hr.lt.le hr.limit, signExtend_ofNat (by omega)]
    have hadd : ((BitVec.ofNat 32 k).signExtend 64 + r.size).setWidth 32 =
        BitVec.ofNat 32 (k + (R.pos r.end_ - R.pos r.begin_)) := by
      rw [signExtend_ofNat (by omega), hsize]
      apply BitVec.eq_of_toNat_eq
      simp only [BitVec.toNat_setWidth, BitVec.toNat_add, BitVec.toNat_ofNat]
      omega
    rw [foldl_cons, hadd, ih hl (by omega), Nat.add_assoc]

theorem Sound.size (h : Sound R s.ranges) (hlimit : 0 < R.limit) :
    s.size = BitVec.ofNat 64 (places R s.ranges).length := by
  have := h.length_places (fun _ _ => Nat.zero_le _) hlimit
  have := R.limit_le
  have := h.foldl_size (k := 0) (by omega)
  rw [RangeSet.size, show (0 : BitVec 32) = BitVec.ofNat 32 0 from rfl, this, signExtend_ofNat (by omega), Nat.zero_add]

theorem head?_places (h : Sound R l) : (places R l).head? = l.head?.map fun r => R.pos r.begin_ := by
  cases l with
  | nil => rfl
  | cons r l =>
    have := (h.valid r (by simp)).lt
    rw [places_cons, show R.pos r.end_ - R.pos r.begin_ = R.pos r.end_ - R.pos r.begin_ - 1 + 1 by omega]
    rfl

theorem getLast?_places (h : Sound R l) : (places R l).getLast? = l.getLast?.map fun r => R.pos r.end_ - 1 := by
  rcases eq_nil_or_concat l with rfl | ⟨l, r, rfl⟩
  · rfl
  obtain ⟨n, hn⟩ : ∃ n, R.pos r.end_ = R.pos r.begin_ + n + 1 := Nat.exists_eq_add_of_lt (h.valid r (by simp)).lt
  have hpla : places R (l ++ [r]) = places R l ++ List.range' (R.pos r.begin_) n ++ [R.pos r.end_ - 1] := by
    rw [places, flatMap_append, flatMap_singleton, append_assoc, hn,
      show R.pos r.begin_ + n + 1 - R.pos r.begin_ = n + 1 by omega, range'_1_concat]
    rfl
  rw [concat_eq_append, hpla, getLast?_concat, getLast?_concat]
  rfl

theorem Sound.span (h : Sound R s.ranges) {m n : Nat} (hm : (places R s.ranges).head? = some m)
    (hn : (places R s.ranges).getLast? = some n) : s.span = BitVec.ofNat 32 (n - m) := by
  rw [head?_places h] at hm
  rw [getLast?_places h] at hn
  obtain ⟨f, hf, rfl⟩ := Option.map_eq_some_iff.1 hm
  obtain ⟨q, hq, rfl⟩ := Option.map_eq_some_iff.1 hn
  have hqv := h.valid q (mem_of_getLast? hq)
  have hprev : R.pos (prev q.end_) + 1 = R.pos q.end_ := R.pos_prev (by have := hqv.lt; omega) hqv.limit
  have hfq : R.pos f.begin_ ≤ R.pos (prev q.end_) := by
    obtain ⟨l, hl⟩ : ∃ l, s.ranges = f :: l := by
      cases hs : s.ranges with
      | nil => simp [hs] at hf
      | cons r l => exact ⟨l, by simpa [hs] using hf⟩
    rw [hl] at h hq
    obtain ⟨hfv, -, hlt⟩ := sound_cons.1 h
    have := hfv.lt
    have := hqv.lt
    rcases mem_cons.1 (mem_of_getLast? hq) with rfl | hmem
    · omega
    · have := hlt q hmem
      omega
  have hqli := hqv.limit
  rw [RangeSet.span, hf, hq]
  simp only [Range.last]
  rw [R.sub_eq hfq (by omega)]
  congr 1
  omega

/-! ## Sequence numbers -/

/-- Within one half of the numbers, the code's `<` is the order of the distances. -/
theorem serial_lt_iff (b : SequenceNumber) {y : SequenceNumber} (hx : Serial.dist b x < 2 ^ 31)
    (hy : Serial.dist b y < 2 ^ 31) : lt x y = true ↔ Serial.dist b x < Serial.dist b y := by
  show SequenceNumber.lt x y = true ↔ _
  rw [SequenceNumber.lt, decide_eq_true_iff, SequenceNumber.sub, toInt_sub_neg_iff]
  simp only [Serial.dist] at *
  bv_omega

theorem serial_pos_prev (b : SequenceNumber) (h : 0 < Serial.dist b x) :
    Serial.dist b (prev x) + 1 = Serial.dist b x := by
  show Serial.dist b (x - 1) + 1 = _
  simp only [Serial.dist] at *
  bv_omega

theorem serial_sub_eq (b : SequenceNumber) {y : SequenceNumber} (h : Serial.dist b y ≤ Serial.dist b x) :
    sub x y = BitVec.ofNat 32 (Serial.dist b x - Serial.dist b y) := by
  show x - y = _
  simp only [Serial.dist] at *
  bv_omega

/-- The half of the sequence numbers that starts at `b`. -/
def serialRuler (b : SequenceNumber) : Ruler SequenceNumber where
  pos := Serial.dist b
  limit := 2 ^ 31
  limit_le := le_rfl
  pos_inj {x y} h := by
    rw [← add_dist b x, h, add_dist]
  lt_iff hx hy := serial_lt_iff b hx hy
  pos_next h := dist_add_one (by omega)
  pos_prev h _ := serial_pos_prev b h
  sub_eq h _ := serial_sub_eq b h

section serial

variable {b : SequenceNumber} {s : RangeSet SequenceNumber}

variable {q : Range SequenceNumber}

theorem mem_rangeNumbers (h : RangeWithin b q) (x : SequenceNumber) :
    x ∈ rangeNumbers q ↔ (serialRuler b).In q (Serial.dist b x) := by
  obtain ⟨h1, h2⟩ := h
  simp only [rangeNumbers, Set.mem_ofPred_eq, In, serialRuler, Serial.dist] at *
  bv_omega

theorem mem_of_contains (hq : (serialRuler b).Valid q) {x : SequenceNumber}
    (hx : q.contains x = true) : (serialRuler b).In q (Serial.dist b x) := by
  obtain ⟨h1, h2⟩ := hq
  simp only [Range.contains, le, lt, SequenceNumber.lt, SequenceNumber.sub, Bool.and_eq_true,
    Bool.not_eq_true', decide_eq_false_iff_not, decide_eq_true_iff, toInt_sub_neg_iff] at hx
  simp only [In, serialRuler, Serial.dist] at *
  bv_omega

theorem contains_iff_covers (h : Sound (serialRuler b) s.ranges) (x : SequenceNumber) :
    s.contains x = some true ↔ Covers (serialRuler b) s.ranges (Serial.dist b x) := by
  constructor
  · intro hx
    obtain ⟨c, hc, hmem⟩ := contains_eq_some s x
    rw [hx] at hc
    obtain ⟨q, hq, hqx⟩ := hmem (Option.some.inj hc).symm
    exact ⟨q, hq, mem_of_contains (h.valid q hq) hqx⟩
  · rintro ⟨q, hq, hx⟩
    have hlimit : Serial.dist b x < 2 ^ 31 := hx.2.trans (h.valid q hq).limit
    exact (h.contains hlimit).2 ⟨q, hq, hx⟩

/-- The sets, and the numbers they stand for. -/
def StandFor (b : SequenceNumber) (σ : RangeSets SequenceNumber) (S : Nat → Set SequenceNumber) : Prop :=
  ∀ k, Sound (serialRuler b) (σ k).ranges ∧ ∀ x, x ∈ S k ↔
    Covers (serialRuler b) (σ k).ranges (Serial.dist b x)

variable {σ : RangeSets SequenceNumber} {S : Nat → Set SequenceNumber}

theorem StandFor.update (h : StandFor b σ S) {k : Nat} {o : Option (RangeSet SequenceNumber)} {S' : Set SequenceNumber}
    (ho : ∃ s', o = some s' ∧ Sound (serialRuler b) s'.ranges ∧
      ∀ x, x ∈ S' ↔ Covers (serialRuler b) s'.ranges (Serial.dist b x)) :
    ∃ σ', RangeSets.update σ k o = some σ' ∧ StandFor b σ' fun i => if i = k then S' else S i := by
  obtain ⟨s', rfl, hs', hS'⟩ := ho
  refine ⟨_, rfl, fun i => ?_⟩
  by_cases hi : i = k
  · simp only [hi]
    exact ⟨hs', hS'⟩
  · simp only [hi]
    exact h i

theorem RangeWithin.forward (h : RangeWithin b q) : Forward (serialRuler b) q := h

theorem rangeWithin_point {t : SequenceNumber} (ht : Serial.dist b t + 1 < 2 ^ 31) :
    RangeWithin b (.point t) ∧ rangeNumbers (.point t) = {t} := by
  have hnext : Serial.dist b (t + 1) = Serial.dist b t + 1 := dist_add_one (by omega)
  refine ⟨⟨?_, ?_⟩, ?_⟩
  · show Serial.dist b t ≤ Serial.dist b (t + 1)
    omega
  · show Serial.dist b (t + 1) < 2 ^ 31
    omega
  · ext x
    simp only [rangeNumbers, Range.point, RangeValue.next, Set.mem_ofPred_eq, Set.mem_singleton_iff, Serial.dist]
    bv_omega

theorem StandFor.addRange (h : StandFor b σ S) (k : Nat) (hq : RangeWithin b q) :
    ∃ σ', RangeSets.update σ k ((σ k).addRange q) = some σ' ∧
      StandFor b σ' fun i => if i = k then S k ∪ rangeNumbers q else S i := by
  obtain ⟨s', hs', hsound, hcov⟩ := (h k).1.addRange (RangeWithin.forward hq)
  refine h.update ⟨s', hs', hsound, fun x => ?_⟩
  rw [Set.mem_union, hcov, (h k).2, mem_rangeNumbers hq]

theorem StandFor.removeRange (h : StandFor b σ S) (k : Nat) (hq : RangeWithin b q) :
    ∃ σ', RangeSets.update σ k ((σ k).removeRange q) = some σ' ∧
      StandFor b σ' fun i => if i = k then S k \ rangeNumbers q else S i := by
  obtain ⟨s', hs', hsound, hcov⟩ := (h k).1.removeRange (RangeWithin.forward hq)
  refine h.update ⟨s', hs', hsound, fun x => ?_⟩
  rw [Set.mem_sdiff, hcov, (h k).2, mem_rangeNumbers hq]

theorem StandFor.step (h : StandFor b σ S) {op : RangeSetOp SequenceNumber} (hop : OpWithin b op) :
    ∃ σ', RangeSets.step σ op = some σ' ∧ StandFor b σ' (numbersStep S op) := by
  cases op with
  | addRange k q => exact h.addRange k hop
  | removeRange k q => exact h.removeRange k hop
  | add k t =>
    obtain ⟨hwit, hpoint⟩ := rangeWithin_point hop
    rw [numbersStep, ← hpoint]
    exact h.addRange k hwit
  | remove k t =>
    obtain ⟨hwit, hpoint⟩ := rangeWithin_point hop
    rw [numbersStep, ← hpoint]
    exact h.removeRange k hwit
  | addSet k m =>
    refine h.update ?_
    split
    · next hkm =>
      subst hkm
      refine ⟨σ k, (h k).1.addSelf (by simp), (h k).1, fun x => ?_⟩
      rw [Set.union_self, (h k).2]
    · obtain ⟨s', hs', hsound, hcov⟩ := (h k).1.addSet (h m).1
      refine ⟨s', hs', hsound, fun x => ?_⟩
      rw [Set.mem_union, hcov, (h k).2, (h m).2]
  | removeSet k m =>
    obtain ⟨s', hs', hsound, hcov⟩ := (h k).1.removeSet (h m).1.valid
    refine h.update ⟨s', by rw [if_neg (show k ≠ m from hop), hs'], hsound, fun x => ?_⟩
    rw [Set.mem_sdiff, hcov, (h k).2, (h m).2]

theorem StandFor.run {ops : List (RangeSetOp SequenceNumber)} (h : StandFor b σ S)
    (hops : ∀ op ∈ ops, OpWithin b op) :
    ∃ σ', ops.foldlM RangeSets.step σ = some σ' ∧ StandFor b σ' (ops.foldl numbersStep S) := by
  induction ops generalizing σ S with
  | nil => exact ⟨σ, rfl, h⟩
  | cons op ops ih =>
    obtain ⟨σ₁, hσ₁, h1⟩ := h.step (hops op (mem_cons_self ..))
    obtain ⟨σ₂, hσ₂, h2⟩ := ih h1 fun op' hop' => hops op' (mem_cons_of_mem _ hop')
    refine ⟨σ₂, ?_, h2⟩
    rw [foldlM_cons, hσ₁]
    exact hσ₂

theorem standFor_start (b : SequenceNumber) : StandFor b (fun _ => {}) fun _ => ∅ :=
  fun _ => ⟨.nil, fun x => by simp [covers_nil]⟩

/-- Sets of ranges are finite sets: every sequence of operations within one half of the
number space, with the ends of the ranges, goes through, and each set that it makes is
sorted with gaps between its ranges, contains the numbers of the mathematical set, iterates
over them in ascending order and counts them; the span is the way from the first to the
last. -/
theorem rangeSets_are_sets (b : SequenceNumber) (ops : List (RangeSetOp SequenceNumber))
    (hops : ∀ op ∈ ops, OpWithin b op) : ∃ σ, RangeSets.run ops = some σ ∧ ∀ k,
      (∀ q ∈ (σ k).ranges, Serial.dist b q.begin_ < Serial.dist b q.end_) ∧
      (σ k).ranges.Pairwise (fun q q' => Serial.dist b q.end_ < Serial.dist b q'.begin_) ∧
      (∀ x, ∃ c, (σ k).contains x = some c ∧ (c = true ↔ x ∈ numbers ops k)) ∧
      ∃ values, (∀ fuel, values.length ≤ fuel → (σ k).valuesFrom fuel (σ k).first = some values) ∧
        values.Pairwise (fun x y => Serial.dist b x < Serial.dist b y) ∧
        (∀ x, x ∈ values ↔ x ∈ numbers ops k) ∧
        (σ k).size = BitVec.ofNat 64 values.length ∧
        ∀ x y, values.head? = some x → values.getLast? = some y → (σ k).span = y - x := by
  obtain ⟨σ, hσ, h⟩ := (standFor_start b).run hops
  refine ⟨σ, hσ, fun k => ?_⟩
  obtain ⟨hsound, hmem⟩ := h k
  refine ⟨fun q hq => (hsound.valid q hq).lt, hsound.apart, fun x => ?_, ?_⟩
  · obtain ⟨c, hc, -⟩ := contains_eq_some (σ k) x
    refine ⟨c, hc, ?_⟩
    rw [numbers, hmem, ← contains_iff_covers hsound, hc, Option.some.injEq]
  obtain ⟨values, hval, hmap⟩ := hsound.values le_rfl
  have hleng : values.length = (places (serialRuler b) (σ k).ranges).length := by rw [← hmap, length_map]
  have hpai := pairwise_places hsound
  rw [← hmap, pairwise_map] at hpai
  have hcov (x : SequenceNumber) : x ∈ values ↔ Covers (serialRuler b) (σ k).ranges (Serial.dist b x) := by
    rw [← mem_places, ← hmap]
    refine ⟨fun hx => mem_map_of_mem hx, fun hx => ?_⟩
    obtain ⟨y, hy, heq⟩ := mem_map.1 hx
    rwa [← (serialRuler b).pos_inj heq]
  refine ⟨values, fun fuel hfuel => ?_, hpai, fun x => ?_, ?_, fun x y hx hy => ?_⟩
  · obtain ⟨values', hval', hmap'⟩ := hsound.values (hleng ▸ hfuel)
    have : values' = values := map_injective_iff.2 (fun _ _ => (serialRuler b).pos_inj) (hmap'.trans hmap.symm)
    rw [hval', this]
  · rw [numbers, hmem, hcov]
  · rw [hsound.size (Nat.two_pow_pos 31), hleng]
  have hhead : (places (serialRuler b) (σ k).ranges).head? = some (Serial.dist b x) := by
    rw [← hmap, head?_map, hx]
    rfl
  have hlast : (places (serialRuler b) (σ k).ranges).getLast? = some (Serial.dist b y) := by
    rw [← hmap, getLast?_map, hy]
    rfl
  have hxy : Serial.dist b x ≤ Serial.dist b y := by
    obtain ⟨tail, rfl⟩ := head?_eq_some_iff.1 hx
    rcases mem_cons.1 (mem_of_getLast? hy) with rfl | hy
    · exact le_rfl
    · exact ((pairwise_cons.1 hpai).1 y hy).le
  obtain ⟨q, hq, hin⟩ := (hcov y).1 (mem_of_getLast? hy)
  rw [hsound.span hhead hlast]
  exact ((serialRuler b).sub_eq hxy (hin.2.trans (hsound.valid q hq).limit)).symm

/-- Three ranges, of which one is removed in part. -/
def threeRanges : List (RangeSetOp SequenceNumber) :=
  [.addRange 0 ⟨5, 8⟩, .add 0 2, .addRange 1 ⟨10, 20⟩, .addSet 0 1, .removeRange 0 ⟨12, 15⟩]

theorem rangeSets_are_sets_three : ∃ σ, RangeSets.run threeRanges = some σ ∧
    (σ 0).ranges = [⟨2, 3⟩, ⟨5, 8⟩, ⟨10, 12⟩, ⟨15, 20⟩] ∧
      ∀ x, (σ 0).contains x = some true ↔ x ∈ numbers threeRanges 0 := by
  have hops : ∀ op ∈ threeRanges, OpWithin 0 op := by
    simp [threeRanges, OpWithin, RangeWithin, Serial.dist]
  obtain ⟨σ, hσ, h⟩ := rangeSets_are_sets 0 threeRanges hops
  have hran : (RangeSets.run threeRanges).map (fun σ => (σ 0).ranges) =
      some [⟨2, 3⟩, ⟨5, 8⟩, ⟨10, 12⟩, ⟨15, 20⟩] := by decide +kernel
  rw [hσ] at hran
  refine ⟨σ, hσ, Option.some.inj hran, fun x => ?_⟩
  obtain ⟨c, hc, hiff⟩ := (h 0).2.2.1 x
  rw [hc, Option.some.injEq, hiff]

/-- All the numbers of one half are added, the last of them as a point: the end of the range
is in the other half, the search goes past it, and the size is that of a negative number.
And the span of three numbers is two. -/
theorem whole_half_is_lost :
    ((RangeSets.run [.addRange 0 ⟨0, 0x7fffffff⟩, .add 0 (0x7fffffff : SequenceNumber)]).map fun σ =>
      ((σ 0).ranges, (σ 0).contains 0, (σ 0).size)) =
        some ([⟨0, 0x80000000⟩], some false, 0xffffffff80000000) ∧
      ((RangeSets.run [.addRange 0 ⟨(0 : SequenceNumber), 3⟩]).map fun σ => ((σ 0).size, (σ 0).span)) =
        some (3, 2) := by
  decide +kernel

/-! ## Equality -/

variable {t : RangeSet SequenceNumber}

theorem eq_iff_length (h : Sound (serialRuler b) s.ranges) (h' : Sound (serialRuler b) t.ranges) :
    s.eq t = true ↔ s.ranges.length = t.ranges.length := by
  have hfull {u : RangeSet SequenceNumber} (hu : Sound (serialRuler b) u.ranges) {q : Range SequenceNumber}
      (hq : q ∈ u.ranges) : q.empty = false := by
    rw [← Bool.not_eq_true, empty_iff (serialRuler b)]
    exact (hu.valid q hq).lt.ne
  rw [RangeSet.eq, Bool.and_eq_true, beq_iff_eq, and_iff_left]
  refine all_eq_true.2 fun p hp => ?_
  obtain ⟨hs, ht⟩ := of_mem_zip hp
  simp [hfull h hs, hfull h' ht]

theorem eq_of_contains (h : Sound (serialRuler b) s.ranges) (h' : Sound (serialRuler b) t.ranges)
    (hc : ∀ x, s.contains x = some true ↔ t.contains x = some true) : s = t := by
  refine congrArg RangeSet.mk (h.ext h' fun n => ?_)
  by_cases hn : n < 2 ^ 32
  · rw [← dist_add b hn, ← contains_iff_covers h, hc, contains_iff_covers h']
  · have hnot {u : RangeSet SequenceNumber} (hu : Sound (serialRuler b) u.ranges) :
        ¬ Covers (serialRuler b) u.ranges n := fun ⟨q, hq, hin⟩ => by
      have := (hu.valid q hq).limit
      simp only [serialRuler, In] at *
      omega
    exact iff_of_false (hnot h) (hnot h')

/-- A set is removed: nothing changes just if no number is in both. -/
theorem removeSet_eq_self_iff (h : Sound (serialRuler b) s.ranges) (h' : Sound (serialRuler b) t.ranges) :
    s.removeSet t = some s ↔ ∀ x, ¬ (s.contains x = some true ∧ t.contains x = some true) := by
  obtain ⟨s', hs', hsound, hcov⟩ := h.removeSet h'.valid
  have hmem (x : SequenceNumber) : s'.contains x = some true ↔
      s.contains x = some true ∧ ¬ t.contains x = some true := by
    rw [contains_iff_covers hsound, hcov, contains_iff_covers h, contains_iff_covers h']
  rw [hs', Option.some.injEq]
  refine ⟨fun heq x hx => ((hmem x).1 (heq ▸ hx.1)).2 hx.2, fun hnot => ?_⟩
  exact eq_of_contains hsound h fun x => (hmem x).trans (and_iff_left_of_imp fun hx ht => hnot x ⟨hx, ht⟩)

/-- Sets made within one half of the number space are equal for `operator==` just if they
contain the same numbers, unless they have equally many ranges and yet not the same numbers. -/
theorem eq_iff_contains (b : SequenceNumber) (ops : List (RangeSetOp SequenceNumber))
    (hops : ∀ op ∈ ops, OpWithin b op) : ∃ σ, RangeSets.run ops = some σ ∧ ∀ i j,
      (((σ i).eq (σ j) = true ↔ ∀ x, (σ i).contains x = (σ j).contains x) ↔
        ((σ i).ranges.length = (σ j).ranges.length → ∀ x, (σ i).contains x = (σ j).contains x)) := by
  obtain ⟨σ, hσ, h⟩ := (standFor_start b).run hops
  refine ⟨σ, hσ, fun i j => ?_⟩
  rw [eq_iff_length (h i).1 (h j).1]
  refine ⟨fun h' => h'.1, fun h' => ⟨h', fun hc => ?_⟩⟩
  rw [eq_of_contains (h i).1 (h j).1 fun x => by rw [hc]]

/-- Sets of four ranges and of one, which do not contain the same numbers, do not compare equal. -/
theorem eq_iff_contains_three : ∃ σ, RangeSets.run threeRanges = some σ ∧
    ((σ 0).eq (σ 1) = true ↔ ∀ x, (σ 0).contains x = (σ 1).contains x) := by
  have hops : ∀ op ∈ threeRanges, OpWithin 0 op := by
    simp [threeRanges, OpWithin, RangeWithin, Serial.dist]
  obtain ⟨σ, hσ, h⟩ := eq_iff_contains 0 threeRanges hops
  have hleng : (RangeSets.run threeRanges).map (fun σ => ((σ 0).ranges.length, (σ 1).ranges.length)) =
      some (4, 1) := by decide +kernel
  rw [hσ, Option.map_some, Option.some.injEq, Prod.mk.injEq] at hleng
  exact ⟨σ, hσ, (h 0 1).2 fun heq => by omega⟩

/-- Two sets of one range each compare equal, where one is only a part of the other. -/
theorem eq_of_parts : ((RangeSets.run [.addRange 0 ⟨1, 5⟩, .add 1 (2 : SequenceNumber)]).map fun σ =>
    ((σ 0).eq (σ 1), (σ 0).contains 3, (σ 1).contains 3)) = some (true, some true, some false) := by
  decide +kernel

end serial

end QB.Impl
