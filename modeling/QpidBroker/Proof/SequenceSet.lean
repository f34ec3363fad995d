import QpidBroker.Impl.SequenceSet
import QpidBroker.Proof.RangeNumbers

/-!
# Sets of sequence numbers survive the wire

The ranges of a set are written in ascending order, so that each that is read comes after
those that are there: it is appended (`add_last`), and the list of ranges is built again
(`reads_decodeRanges`). The length on the wire is a number of octets in 16 bits, which is
enough for 8191 ranges.
-/

namespace QB.Impl

open Codec List

open QB.Spec

namespace SequenceSet

variable {b : SequenceNumber} {r : Range SequenceNumber} {l : List (Range SequenceNumber)} {s : SequenceSet}

/-! ## Encoding -/

def rangeOctets (l : List (Range SequenceNumber)) : Octets :=
  l.flatMap fun r => Octets.ofNat 4 r.begin_.toNat ++ Octets.ofNat 4 r.last.toNat

theorem length_rangeOctets : (rangeOctets l).length = l.length * rangeSize := by
  induction l with
  | nil => rfl
  | cons r l ih =>
    rw [rangeOctets, flatMap_cons, length_append, ← rangeOctets, ih, length_append,
      Octets.length_ofNat, Octets.length_ofNat, length_cons, rangeSize]
    omega

theorem writes_encodeRanges (l : List (Range SequenceNumber)) :
    Writes .outOfBounds (encodeRanges l) (rangeOctets l) := by
  induction l with
  | nil => exact Writes.nil
  | cons r l ih =>
    rw [rangeOctets, flatMap_cons, append_assoc]
    exact (Buffer.writes_putRawData _).bind ((Buffer.writes_putRawData _).bind ih)

def octets (s : SequenceSet) : Octets :=
  Octets.ofNat 2 (BitVec.ofNat 16 (s.ranges.length * rangeSize)).toNat ++ rangeOctets s.ranges

theorem writes_encode (s : SequenceSet) : Writes .outOfBounds s.encode s.octets :=
  (Buffer.writes_putRawData _).bind (writes_encodeRanges _)

theorem length_octets (s : SequenceSet) : s.octets.length = 2 + s.ranges.length * rangeSize := by
  rw [octets, length_append, Octets.length_ofNat, length_rangeOctets]

/-! ## Decoding what was encoded -/

theorem makeClosed_last (h : (serialRuler b).Valid r) : Range.makeClosed r.begin_ r.last = some r := by
  have hlast : RangeValue.next r.last = r.end_ := BitVec.sub_add_cancel _ _
  rw [Range.makeClosed, hlast, if_pos ((Ruler.le_iff h.begin h.limit).2 h.lt.le)]

theorem min_max_ends (h : (serialRuler b).Valid r) {x y : SequenceNumber}
    (hxy : x = r.begin_ ∧ y = r.last ∨ x = r.last ∧ y = r.begin_) :
    RangeValue.min x y = r.begin_ ∧ RangeValue.max x y = r.last := by
  have hlt := h.lt
  have hlimit := h.limit
  have hlast : (serialRuler b).pos r.last + 1 = (serialRuler b).pos r.end_ :=
    (serialRuler b).pos_prev (by omega) hlimit
  rcases hxy with ⟨rfl, rfl⟩ | ⟨rfl, rfl⟩
  all_goals
    constructor <;> refine (serialRuler b).pos_inj ?_
    · rw [Ruler.pos_min (by omega) (by omega)]
      omega
    · rw [Ruler.pos_max (by omega) (by omega)]
      omega

/-- A range behind all others is added at the end. -/
theorem addRange_last (hempty : r.begin_ ≠ r.end_) (hlt : ∀ q ∈ l, RangeValue.lt q.end_ r.begin_ = true) :
    RangeSet.addRange ⟨l⟩ r = some ⟨l ++ [r]⟩ := by
  have hfind : RangeSet.find ⟨l⟩ r = l.length := by
    have h : lowerBound (fun q : Range SequenceNumber => q.lt r) (l ++ []) = l.length :=
      lowerBound_append hlt (fun _ h => by cases h)
    rwa [append_nil] at h
  rw [RangeSet.addRange, if_neg (by simpa [Range.empty] using hempty)]
  simp [hfind]

theorem add_last (hs : Sound (serialRuler b) (l ++ [r])) {x y : SequenceNumber}
    (hxy : x = r.begin_ ∧ y = r.last ∨ x = r.last ∧ y = r.begin_) :
    add ⟨l⟩ x y = .ok ⟨l ++ [r]⟩ := by
  obtain ⟨hl, hr, hlt⟩ := sound_append.1 hs
  have hv : (serialRuler b).Valid r := hr.valid r (mem_singleton_self r)
  obtain ⟨hmin, hmax⟩ := min_max_ends hv hxy
  have hne : r.begin_ ≠ r.end_ := fun h => hv.lt.ne (congrArg _ h)
  have hadd : RangeSet.addRange ⟨l⟩ r = some ⟨l ++ [r]⟩ := by
    refine addRange_last hne fun q hq => ?_
    have hq' := (hl.valid q hq).limit
    rw [(serialRuler b).lt_iff hq' hv.begin]
    exact hlt q hq r (mem_singleton_self r)
  unfold add
  rw [hmin, hmax, makeClosed_last hv]
  simp only [hadd, Option.elim_some]

theorem reads_getRange (finishFirst : Bool) (x y : SequenceNumber) :
    Reads (getRange finishFirst) (.ofNat 4 x.toNat ++ .ofNat 4 y.toNat) (if finishFirst then (y, x) else (x, y)) := by
  have h := (Buffer.reads_getLong x).bind (f := fun x => do
    let y ← Buffer.getLong
    return if finishFirst then (y, x) else (x, y)) ((Buffer.reads_getLong y).bind (Reads.pure _))
  rwa [append_nil] at h

/-- The ranges are read back in the order they were written. -/
theorem reads_decodeRanges (finishFirst : Bool) {pre : List (Range SequenceNumber)}
    (h : Sound (serialRuler b) (pre ++ l)) :
    Reads (decodeRanges finishFirst l.length ⟨pre⟩) (rangeOctets l) ⟨pre ++ l⟩ := by
  induction l generalizing pre with
  | nil =>
    rw [append_nil]
    exact Reads.pure _
  | cons r l ih =>
    rw [append_cons] at h
    have hadd := add_last (sound_append.1 h).1 (x := if finishFirst then r.last else r.begin_)
      (y := if finishFirst then r.begin_ else r.last) (by cases finishFirst <;> simp)
    have hrest := ih h
    rw [← append_cons] at hrest
    refine (reads_getRange finishFirst _ _).bind fun t => ?_
    cases finishFirst
    all_goals
      refine Eq.trans ?_ (hrest t)
      simp only [Bool.false_eq_true, if_true, if_false] at hadd ⊢
      rw [hadd]
      rfl

theorem reads_decode (finishFirst : Bool) (h : Sound (serialRuler b) s.ranges) (hcount : s.ranges.length < 8192) :
    Reads (decode finishFirst) s.octets s := by
  have hsize : (BitVec.ofNat 16 (s.ranges.length * rangeSize)).toNat = s.ranges.length * rangeSize := by
    rw [BitVec.toNat_ofNat, rangeSize, Nat.mod_eq_of_lt (by omega)]
  refine (Buffer.reads_getShort _).bind ?_
  rw [decodeSized, hsize, if_neg (by simp), Nat.mul_div_cancel _ (by decide)]
  exact reads_decodeRanges finishFirst h

/-! ## Decoding anything -/

theorem getRawData_short {n : Nat} {o : Octets} (h : o.length < n) {α : Type} (f : Octets → α) :
    (f <$> Buffer.getRawData n : Get α) o = .error .outOfBounds := by
  have htake : Buffer.getRawData n o = .error .outOfBounds := if_pos h
  rw [← bind_pure_comp, bind_apply_error htake]

/-- The two numbers of a range are read, if their octets are there. -/
theorem getRange_cases (finishFirst : Bool) (o : Octets) : getRange finishFirst o = .error .outOfBounds ∨
    rangeSize ≤ o.length ∧
      let x := Octets.word 32 (o.take 4)
      let y := Octets.word 32 ((o.drop 4).take 4)
      getRange finishFirst o = .ok (if finishFirst then (y, x) else (x, y), o.drop rangeSize) := by
  unfold getRange
  by_cases h4 : o.length < 4
  · exact .inl (bind_apply_error (getRawData_short h4 _))
  rw [bind_apply_ok (Buffer.getLong_eq (Nat.not_lt.1 h4))]
  by_cases h8 : (o.drop 4).length < 4
  · exact .inl (bind_apply_error (getRawData_short h8 _))
  rw [bind_apply_ok (Buffer.getLong_eq (Nat.not_lt.1 h8)), drop_drop]
  rw [length_drop] at h8
  exact .inr ⟨by rw [rangeSize]; omega, rfl⟩

/-- A range takes its octets, or there are too few. -/
theorem consumes_getRange (finishFirst : Bool) : Consumes (· ≠ .pastTheEnd) (getRange finishFirst) rangeSize := by
  intro o
  obtain h | ⟨hlen, h⟩ := getRange_cases finishFirst o
  · exact .inl ⟨_, by simp, h⟩
  · exact .inr ⟨_, hlen, h⟩

theorem add_cases (s : SequenceSet) (x y : SequenceNumber) :
    (∃ s', s.add x y = .ok s') ∨ s.add x y = .error .assertion := by
  unfold add
  split
  · exact .inr rfl
  · next r _ =>
    obtain ⟨s', hs'⟩ := addRange_eq_some s r
    exact .inl ⟨s', by rw [hs']; rfl⟩

theorem consumes_decodeRanges (finishFirst : Bool) (n : Nat) (s : SequenceSet) :
    Consumes (· ≠ .pastTheEnd) (decodeRanges finishFirst n s) (n * rangeSize) := by
  induction n generalizing s with
  | zero =>
    exact Consumes.pure s
  | succ n ih =>
    rw [Nat.succ_mul, Nat.add_comm (n * rangeSize)]
    refine (consumes_getRange finishFirst).bind fun ends => ?_
    intro l
    obtain ⟨s', hs'⟩ | he := add_cases s ends.1 ends.2
    · rw [hs']
      exact ih s' l
    · exact .inl ⟨.assertion, by simp, by rw [he]; rfl⟩

theorem consumes_decodeSized (finishFirst : Bool) (size : BitVec 16) :
    Consumes (· ≠ .pastTheEnd) (decodeSized finishFirst size) size.toNat := by
  rw [decodeSized]
  split
  · exact fun _ => .inl ⟨_, by simp, rfl⟩
  next h =>
  have hmul : size.toNat / rangeSize * rangeSize = size.toNat :=
    Nat.div_mul_cancel (Nat.dvd_of_mod_eq_zero (not_not.1 h))
  have hran := consumes_decodeRanges finishFirst (size.toNat / rangeSize) {}
  rwa [hmul] at hran

theorem lt_iff (x y : SequenceNumber) : RangeValue.lt x y = true ↔ 2 ^ 31 ≤ Serial.dist y x := by
  rw [← Serial.toInt_sub_neg_iff]
  exact decide_eq_true_iff

/-- The assertion fails only for numbers as far apart as two in one half can be. -/
theorem makeClosed_none {x y : SequenceNumber}
    (h : Range.makeClosed (RangeValue.min x y) (RangeValue.max x y) = none) :
    Serial.dist x y = 2 ^ 31 - 1 ∨ Serial.dist y x = 2 ^ 31 - 1 := by
  have hlt : RangeValue.lt (RangeValue.next (RangeValue.max x y)) (RangeValue.min x y) = true := by
    simpa [Range.makeClosed, RangeValue.le] using h
  rw [lt_iff] at hlt
  have hxy := lt_iff x y
  have hyx := lt_iff y x
  by_cases h1 : RangeValue.lt x y = true
  all_goals
    by_cases h2 : RangeValue.lt y x = true
    all_goals
      simp only [RangeValue.min, RangeValue.max, RangeValue.next, h1, h2, if_true,
        Bool.false_eq_true, if_false, true_iff, false_iff, Serial.dist] at hlt hxy hyx ⊢
      bv_omega

/-- Only a range that spans a half fails the assertion. -/
theorem add_assertion {x y : SequenceNumber} (h : s.add x y = .error .assertion) :
    Serial.dist x y = 2 ^ 31 - 1 ∨ Serial.dist y x = 2 ^ 31 - 1 := by
  unfold add at h
  split at h
  · next hm => exact makeClosed_none hm
  · next r _ =>
    obtain ⟨s', hs'⟩ := addRange_eq_some s r
    rw [hs'] at h
    cases h

theorem decodeRanges_assertion {finishFirst : Bool} {n : Nat} {o : Octets}
    (h : decodeRanges finishFirst n s o = .error .assertion) :
    ∃ i < n, SpansHalf (o.drop (i * rangeSize)) := by
  induction n generalizing s o with
  | zero => cases h
  | succ n ih =>
    rw [decodeRanges] at h
    obtain hshort | ⟨-, hget⟩ := getRange_cases finishFirst o
    · rw [bind_apply_error hshort] at h
      cases h
    rw [bind_apply_ok hget] at h
    obtain ⟨s', hs'⟩ | he := add_cases s _ _
    · rw [hs'] at h
      obtain ⟨i, hi, hspan⟩ := ih h
      rw [drop_drop] at hspan
      refine ⟨i + 1, by omega, ?_⟩
      rwa [Nat.succ_mul, Nat.add_comm]
    · refine ⟨0, by omega, ?_⟩
      have := add_assertion he
      cases finishFirst
      · simpa [SpansHalf] using this
      · simpa [SpansHalf, or_comm] using this

/-- What follows the length, which the decoder takes first. -/
theorem decode_eq (finishFirst : Bool) {o : Octets} (h : 2 ≤ o.length) :
    decode finishFirst o = decodeSized finishFirst (Octets.word 16 (o.take 2)) (o.drop 2) ∧
      (Octets.word 16 (o.take 2)).toNat = declaredSize o :=
  ⟨bind_apply_ok (Buffer.getShort_eq h), Octets.toNat_word_of_le (by rw [length_take]; omega)⟩

theorem decode_assertion {finishFirst : Bool} {o : Octets} (hlen : 2 ≤ o.length)
    (h : decode finishFirst o = .error .assertion) :
    ∃ i < declaredSize o / rangeSize, SpansHalf (o.drop (2 + i * rangeSize)) := by
  obtain ⟨hdec, hsize⟩ := decode_eq finishFirst hlen
  rw [hdec, decodeSized] at h
  split at h
  · cases h
  · obtain ⟨i, hi, hspan⟩ := decodeRanges_assertion h
    rw [drop_drop] at hspan
    exact ⟨i, hsize ▸ hi, hspan⟩

/-- The outcomes of decoding any octets. -/
theorem decode_cases (finishFirst : Bool) (o : Octets) :
    (∃ e, e ≠ .pastTheEnd ∧ e ≠ .assertion ∧ decode finishFirst o = .error e) ∨
    (∃ s, 2 + declaredSize o ≤ o.length ∧ decode finishFirst o = .ok (s, o.drop (2 + declaredSize o))) ∨
    decode finishFirst o = .error .assertion ∧
      ∃ i < declaredSize o / rangeSize, SpansHalf (o.drop (2 + i * rangeSize)) := by
  by_cases hlen : o.length < 2
  · exact .inl ⟨.outOfBounds, by simp, by simp, bind_apply_error (getRawData_short hlen _)⟩
  rw [Nat.not_lt] at hlen
  obtain ⟨hdec, hsize⟩ := decode_eq finishFirst hlen
  obtain ⟨e, he, ho⟩ | ⟨s, hle, ho⟩ := consumes_decodeSized finishFirst (Octets.word 16 (o.take 2)) (o.drop 2)
  · rw [← hdec] at ho
    by_cases ha : e = .assertion
    · subst ha
      exact .inr (.inr ⟨ho, decode_assertion hlen ho⟩)
    · exact .inl ⟨e, he, ha, ho⟩
  · rw [length_drop] at hle
    rw [← hdec, hsize, drop_drop] at ho
    exact .inr (.inl ⟨s, by omega, ho⟩)

/-! ## The wire -/

/-- A set that is made by any operations within one half of the number space is encoded in
`encodedSize()` octets if it has at most 8191 ranges, and these are decoded into the same
set, whatever follows them. And from any octets, `decode` throws, or takes as many as the
length says, or fails an assertion over a range that spans a half. -/
theorem sequenceSet_survives_the_wire (b : SequenceNumber) (ops : List (RangeSetOp SequenceNumber))
    (hops : ∀ op ∈ ops, OpWithin b op) (finishFirst : Bool) :
    (∃ σ, RangeSets.run ops = some σ ∧ ∀ k, (σ k).ranges.length < 8192 →
      ∃ o : Octets, o.length = (encodedSize (σ k)).toNat ∧ Writes .outOfBounds (encode (σ k)) o ∧
        Reads (decode finishFirst) o (σ k)) ∧
    ∀ o : Octets, (∃ e, e ≠ .pastTheEnd ∧ e ≠ .assertion ∧ decode finishFirst o = .error e) ∨
      (∃ s, 2 + declaredSize o ≤ o.length ∧ decode finishFirst o = .ok (s, o.drop (2 + declaredSize o))) ∨
      decode finishFirst o = .error .assertion ∧
        ∃ i < declaredSize o / rangeSize, SpansHalf (o.drop (2 + i * rangeSize)) := by
  obtain ⟨σ, hσ, h⟩ := (standFor_start b).run hops
  refine ⟨⟨σ, hσ, fun k hcount => ⟨octets (σ k), ?_, writes_encode _,
    reads_decode finishFirst (h k).1 hcount⟩⟩,
    decode_cases finishFirst⟩
  rw [length_octets, encodedSize, BitVec.toNat_ofNat, rangeSize, Nat.mod_eq_of_lt (by omega)]

/-- Two ranges on either side of zero. -/
theorem sequenceSet_survives_the_wire_two : ∃ σ,
    RangeSets.run [.addRange 0 ⟨5, 7⟩, .addRange 0 ⟨0xfffffffe, 1⟩] = some σ ∧
      ((σ 0).ranges.length < 8192 → ∃ o : Octets, o.length = (encodedSize (σ 0)).toNat ∧
        Writes .outOfBounds (encode (σ 0)) o ∧ Reads (decode true) o (σ 0)) := by
  have hops : ∀ op ∈ [RangeSetOp.addRange 0 ⟨5, 7⟩, .addRange 0 ⟨0xfffffffe, 1⟩],
      OpWithin 0xfffffff0 op := by
    simp only [mem_cons, not_mem_nil, or_false, forall_eq_or_imp, forall_eq]
    exact ⟨⟨by decide, by decide⟩, ⟨by decide, by decide⟩⟩
  obtain ⟨σ, hσ, h⟩ := (sequenceSet_survives_the_wire 0xfffffff0 _ hops true).1
  exact ⟨σ, hσ, h 0⟩

/-- The even numbers below 16384, each a range of its own. -/
def evens : SequenceSet := ⟨(List.range 8192).map fun i => .point (BitVec.ofNat 32 (2 * i))⟩

/-- With 8192 ranges the length on the wire is zero: what is decoded is an empty set, and
the ranges are left. Numbers over more than a half are decoded into other ones. And a range
on the wire that spans a half ends in an assertion. -/
theorem sequenceSet_is_lost_on_the_wire :
    (∃ o : Octets, o.length = 65536 ∧ Writes .outOfBounds evens.encode ([0, 0] ++ o) ∧
      evens.ranges.head? = some ⟨0, 1⟩ ∧
      decode false ([0, 0] ++ o) = .ok ({}, o)) ∧
    (∃ o : Octets, Writes .outOfBounds (encode ⟨[⟨0, 0x80000001⟩]⟩) o ∧
      decode false o = .ok (⟨[⟨0x80000000, 0x80000001⟩]⟩, [])) ∧
    decode false [0, 8, 0, 0, 0, 0, 0x7f, 0xff, 0xff, 0xff] = .error .assertion := by
  have hleng : evens.ranges.length = 8192 := by rw [evens, length_map, length_range]
  have hoct : evens.octets = [0, 0] ++ rangeOctets evens.ranges := by rw [octets, hleng]; rfl
  have hhead : evens.ranges.head? = some ⟨0, 1⟩ := by simp [evens, head?_range, Range.point, RangeValue.next]
  have hempty : Reads (decode false) [0, 0] {} := (Buffer.reads_getShort 0).bind (Reads.pure (⟨[]⟩ : SequenceSet))
  have hwri := writes_encode evens
  rw [hoct] at hwri
  exact ⟨⟨rangeOctets evens.ranges, by rw [length_rangeOctets, hleng]; rfl, hwri, hhead, hempty _⟩,
    ⟨_, writes_encode _, by decide +kernel⟩, by decide +kernel⟩

end SequenceSet

end QB.Impl
