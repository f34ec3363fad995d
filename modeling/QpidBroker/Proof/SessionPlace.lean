import QpidBroker.Spec.SessionReplay

/-!
# Places and session points

Session points are ordered as the places they stand for, as long as these are less than a
half of the number space apart (`lt_point`). The frames that were sent lead from place to place
(`Follows`), each to a later one, so that those after a place are the end of the list
(`Follows.split`).
-/

namespace QB.Spec

open QB.Impl List Place Track

namespace Place

variable {p q r : Place}

theorem lt_def : p < q ↔ p.command < q.command ∨ p.command = q.command ∧ p.offset < q.offset := Iff.rfl

theorem lt_trans (hpq : p < q) (hqr : q < r) : p < r := by
  rw [lt_def] at *
  omega

theorem lt_irrefl (p : Place) : ¬ p < p := by
  rw [lt_def]
  omega

theorem lt_of_not_lt_of_lt (hpq : ¬ q < p) (hqr : q < r) : p < r := by
  rw [lt_def] at *
  omega

theorem lt_of_lt_of_not_lt (hpq : p < q) (hqr : ¬ r < q) : p < r := by
  rw [lt_def] at *
  omega

theorem eq_of_not_lt (hpq : ¬ p < q) (hqp : ¬ q < p) : p = q := by
  rw [lt_def] at *
  obtain ⟨c, o⟩ := p
  obtain ⟨c', o'⟩ := q
  simp only [mk.injEq] at *
  omega

/-- A place in a command that is not before its start is the start. -/
theorem eq_start {k : Nat} (hp : ¬ { command := k } < p) (hk : k ≤ p.command) : p = { command := k } := by
  rw [lt_def] at hp
  obtain ⟨c, o⟩ := p
  simp only [mk.injEq] at *
  omega

/-- The places are less than a half of the number space apart. -/
def Near (p q : Place) : Prop := p.command < q.command + 2 ^ 31 ∧ q.command < p.command + 2 ^ 31

theorem Near.symm (h : Near p q) : Near q p := ⟨h.2, h.1⟩

theorem lt_command {m n : Nat} (h1 : m < n + 2 ^ 31) (h2 : n < m + 2 ^ 31) :
    SequenceNumber.lt (BitVec.ofNat 32 m) (BitVec.ofNat 32 n) = true ↔ m < n := by
  rw [SequenceNumber.lt, decide_eq_true_iff, SequenceNumber.sub, Serial.toInt_sub_neg_iff, Serial.dist]
  simp only [BitVec.toNat_sub, BitVec.toNat_ofNat]
  omega

/-- Numbers within one half of the number space do not coincide. -/
theorem command_eq {m n : Nat} (h1 : m < n + 2 ^ 31) (h2 : n < m + 2 ^ 31) :
    BitVec.ofNat 32 m = BitVec.ofNat 32 n ↔ m = n := by
  rw [← BitVec.toNat_inj, BitVec.toNat_ofNat, BitVec.toNat_ofNat]
  omega

/-- Points compare as their places do, if these are near. -/
theorem lt_point (h : Near p q) : p.point.lt q.point = true ↔ p < q := by
  rw [SessionPoint.lt, Bool.or_eq_true, Bool.and_eq_true, beq_iff_eq, decide_eq_true_iff]
  simp only [point]
  rw [lt_command h.1 h.2, command_eq h.1 h.2, lt_def]

theorem le_point (h : Near p q) : p.point.le q.point = true ↔ ¬ q < p := by
  rw [SessionPoint.le, Bool.not_eq_true', ← Bool.not_eq_true, lt_point h.symm]

/-- A frame moves the place forwards. -/
theorem lt_after (p : Place) (f : SessionFrame) : p < p.after f := by
  rw [after]
  split
  · exact .inl (Nat.lt_succ_self _)
  · exact .inr ⟨rfl, by simp only [SessionFrame.encodedSize]; omega⟩

theorem not_lt_after (f : SessionFrame) {k : Nat} (h : p.command < k) : ¬ { command := k } < p.after f := by
  rw [after, lt_def]
  split <;> simp only <;> omega

/-- The point after a frame: the next command, or further in this one. -/
theorem advance_eq_ok {p x : SessionPoint} {f : SessionFrame} (hf : f.isControl = false) (h : p.advance f = .ok x) :
    x = if f.ends then { command := p.command + 1 } else { p with offset := p.offset + f.encodedSize } := by
  rw [SessionPoint.advance, if_neg (by rw [hf]; decide)] at h
  by_cases hs : f.starts
  · rw [if_pos hs] at h
    by_cases ho : p.offset = 0
    swap
    · rw [if_pos ho] at h
      cases h
    rw [if_neg (not_not.2 ho)] at h
    cases hc : f.isCommand
    · rw [if_pos (by rw [hc]; rfl)] at h
      cases h
    rw [if_neg (by rw [hc]; decide)] at h
    split at h
    · cases h
      rw [if_pos (by assumption), ho]
    · cases h
      rw [if_neg (by assumption)]
  rw [if_neg hs] at h
  split at h
  · cases h
  · split at h <;> cases h <;> simp_all

/-- Points advance as places do. -/
theorem advance_eq {f : SessionFrame} {x : SessionPoint} (hf : f.isControl = false) (h : p.point.advance f = .ok x) :
    x = (p.after f).point := by
  have hadd : BitVec.ofNat 32 p.command + 1 = BitVec.ofNat 32 (p.command + 1) := by rw [BitVec.ofNat_add]; rfl
  rw [advance_eq_ok hf h, after]
  split
  · rw [point, point, hadd]
  · rfl

theorem not_lt_later_left (p q : Place) : ¬ p.later q < p := by
  rw [later]
  split
  · next h => exact fun h' => lt_irrefl p (lt_trans h h')
  · exact lt_irrefl p

theorem not_lt_later_right (p q : Place) : ¬ p.later q < q := by
  rw [later]
  split
  · exact lt_irrefl q
  · assumption

/-- Of two later places the latest counts. -/
theorem later_later (h : ¬ r < q) : (p.later q).later r = p.later r := by
  by_cases hpq : p < q
  swap
  · have hp : p.later q = p := if_neg hpq
    rw [hp]
  have hq : p.later q = q := if_pos hpq
  have hr : p.later r = r := if_pos (lt_of_lt_of_not_lt hpq h)
  rw [hq, hr, later]
  split
  · rfl
  · next hqr => exact eq_of_not_lt hqr h

end Place

/-! ## Frames that follow one another -/

/-- The frames of commands can be sent one after the other from the place on. -/
def Follows (p : Place) : Track → Prop
  | [] => True
  | x :: l => x.2.isControl = false ∧ p.point.advance x.2 = .ok x.1.point ∧ x.1 = p.after x.2 ∧ Follows x.1 l

namespace Track

variable {p q : Place} {l l' : Track} {x : Place × SessionFrame}

/-- Where a track ends is where its second part does. -/
theorem last_append : (l ++ l').last p = l'.last (l.last p) := by
  induction l generalizing p with
  | nil => rfl
  | cons x l ih => exact ih

theorem from_append : (l ++ l').from_ p = l.from_ p ++ l'.from_ p := filter_append ..

theorem from_cons_of_lt (h : p < x.1) : from_ (x :: l) p = x :: l.from_ p := filter_cons_of_pos (by simpa using h)

theorem from_cons_of_not_lt (h : ¬ p < x.1) : from_ (x :: l) p = l.from_ p :=
  filter_cons_of_neg (by simpa using h)

theorem from_eq_self (h : ∀ x ∈ l, p < x.1) : l.from_ p = l := filter_eq_self.2 (by simpa using h)

theorem from_eq_nil (h : ∀ x ∈ l, ¬ p < x.1) : l.from_ p = [] := filter_eq_nil_iff.2 (by simpa using h)

/-- What is behind a place is behind an earlier one. -/
theorem from_from (h : ¬ q < p) : (l.from_ p).from_ q = l.from_ q := by
  rw [from_, from_, filter_filter]
  refine filter_congr fun x _ => ?_
  by_cases hx : q < x.1
  · simp [lt_of_not_lt_of_lt h hx]
  · simp [hx]

theorem size_cons : size (x :: l) = x.2.encodedSize + l.size := by simp [size]

theorem size_append : (l ++ l').size = l.size + l'.size := by simp [size]

end Track

namespace Follows

variable {p q : Place} {l l' : Track} {x : Place × SessionFrame}

/-- The frames of a track are behind its start. -/
theorem lt (h : Follows p l) (hx : x ∈ l) : p < x.1 := by
  induction l generalizing p with
  | nil => cases hx
  | cons y l ih =>
    obtain ⟨-, -, hy, hl⟩ := h
    have hpy : p < y.1 := hy ▸ lt_after p y.2
    rcases mem_cons.1 hx with rfl | hx
    · exact hpy
    · exact Place.lt_trans hpy (ih hl hx)

theorem not_last_lt_start (h : Follows p l) : ¬ l.last p < p := by
  induction l generalizing p with
  | nil => exact Place.lt_irrefl p
  | cons y l ih =>
    obtain ⟨-, -, hy, hl⟩ := h
    exact fun hlt => ih hl (Place.lt_trans hlt (hy ▸ lt_after p y.2))

/-- No frame is behind the end of its track. -/
theorem not_last_lt (h : Follows p l) (hx : x ∈ l) : ¬ l.last p < x.1 := by
  induction l generalizing p with
  | nil => cases hx
  | cons y l ih =>
    obtain ⟨-, -, -, hl⟩ := h
    rcases mem_cons.1 hx with rfl | hx
    · exact hl.not_last_lt_start
    · exact ih hl hx

theorem append_iff : Follows p (l ++ l') ↔ Follows p l ∧ Follows (l.last p) l' := by
  induction l generalizing p with
  | nil => simp [Follows, Track.last]
  | cons x l ih => simp [Follows, ih, Track.last, and_assoc]

/-- A track can be cut at the start of a command. -/
theorem split (h : Follows p l) {k : Nat} (hp : ¬ { command := k } < p) (hk : k ≤ (l.last p).command) :
    ∃ old, l = old ++ l.from_ { command := k } ∧ Follows { command := k } (l.from_ { command := k }) ∧
      old.last p = { command := k } := by
  induction l generalizing p with
  | nil =>
    exact ⟨[], rfl, trivial, eq_start hp hk⟩
  | cons x l ih =>
    by_cases hlt : p.command < k
    · obtain ⟨hc, ha, hx, hl⟩ := h
      have hxk := hx ▸ not_lt_after x.2 hlt
      obtain ⟨old, hold, hfol, hlast⟩ := ih hl hxk hk
      rw [from_cons_of_not_lt hxk]
      exact ⟨x :: old, congrArg (x :: ·) hold, hfol, hlast⟩
    · obtain rfl := eq_start hp (Nat.not_lt.1 hlt)
      rw [from_eq_self fun y hy => h.lt hy]
      exact ⟨[], rfl, h, rfl⟩

end Follows

/-- The loop that confirms the commands before the `k`-th: it drops their frames, and takes their
sizes from the totals. `p` is the replay point, and `F` the flush point. -/
theorem confirmLoop_eq {l : Track} {p F : Place} {k m : Nat} {s : SendState} (hl : Follows p l)
    (hp : ¬ { command := k } < p) (hk : k ≤ (l.last p).command) (hm : m ≤ p.command) (hF : m ≤ F.command)
    (hFlast : F.command ≤ (l.last p).command) (hwin : (l.last p).command < m + 2 ^ 31)
    (hrep : s.replayPoint = p.point) (hflush : s.flushPoint = F.point) (hsend : s.sendPoint = (l.last p).point)
    (hsize : s.replaySize = l.size) (hun : s.unflushedSize = (l.from_ F).size) :
    SessionState.confirmLoop (BitVec.ofNat 32 k) (l.map (·.2)) s = ({ s with
          replayPoint := Place.point { command := k }
          replaySize := (l.from_ { command := k }).size
          unflushedSize := (l.from_ (F.later { command := k })).size },
        .ok ((l.from_ { command := k }).map (·.2))) := by
  induction l generalizing p s with
  | nil =>
    obtain rfl := eq_start hp hk
    obtain ⟨_⟩ := s
    simp_all [SessionState.confirmLoop, Track.from_]
  | cons x l ih =>
    rw [map_cons, SessionState.confirmLoop]
    by_cases hlt : p.command < k
    · obtain ⟨-, ha, hx, hrest⟩ := hl
      have hlast : Track.last p (x :: l) = Track.last x.1 l := rfl
      rw [hlast] at hk hFlast hwin hsend
      have hxk : ¬ { command := k } < x.1 := hx ▸ not_lt_after x.2 hlt
      have hpx : p < x.1 := hx ▸ lt_after p x.2
      have hxlast := hrest.not_last_lt_start
      have hbou : p.command ≤ x.1.command ∧ x.1.command ≤ (Track.last x.1 l).command := by
        rw [lt_def] at hpx hxlast
        omega
      have hcom : s.replayPoint.command.lt (BitVec.ofNat 32 k) = true := by
        rw [hrep]
        exact (lt_command (by omega) (by omega)).2 hlt
      have hle : x.1.point.le s.sendPoint = true := by
        rw [hsend]
        exact (le_point ⟨by omega, by omega⟩).2 hxlast
      have hnear : Place.Near F x.1 := ⟨by omega, by omega⟩
      have hflu : (if s.flushPoint.lt x.1.point then sizeSub s.unflushedSize x.2.encodedSize
          else s.unflushedSize) = (Track.from_ l F).size := by
        rw [hflush, hun]
        by_cases hFx : F < x.1
        · rw [if_pos ((lt_point hnear).2 hFx), from_cons_of_lt hFx, size_cons, sizeSub,
            if_pos (Nat.le_add_right ..), Nat.add_sub_cancel_left]
        · rw [if_neg (fun h => hFx ((lt_point hnear).1 h)), from_cons_of_not_lt hFx]
      have hsub : sizeSub s.replaySize x.2.encodedSize = Track.size l := by
        rw [hsize, size_cons, sizeSub, if_pos (Nat.le_add_right ..), Nat.add_sub_cancel_left]
      have hlater : ¬ F.later { command := k } < x.1 := fun h =>
        hxk (lt_of_not_lt_of_lt (not_lt_later_right F _) h)
      have hnext := ih hrest hxk hk (by omega) hFlast hwin
        (s := { s with replayPoint := x.1.point, replaySize := Track.size l, unflushedSize := (Track.from_ l F).size })
        rfl hflush hsend rfl rfl
      rw [if_pos hcom, hrep, ha]
      simp only [hle, Bool.not_true, Bool.false_eq_true, if_false, hsub, hflu]
      rw [hnext, from_cons_of_not_lt hxk, from_cons_of_not_lt hlater]
    obtain rfl := eq_start hp (Nat.not_lt.1 hlt)
    have hcom : ¬ s.replayPoint.command.lt (BitVec.ofNat 32 k) = true := by
      rw [hrep]
      exact fun h => hlt ((lt_command (by simp) (by simp)).1 h)
    have hall : Track.from_ (x :: l) { command := k } = x :: l := from_eq_self fun y hy => hl.lt hy
    have hflu : Track.from_ (x :: l) F = Track.from_ (x :: l) (F.later { command := k }) := by
      rw [Place.later]
      split
      · next h => rw [hall, from_eq_self fun y hy => Place.lt_trans h (hl.lt hy)]
      · rfl
    rw [if_neg hcom, hall, ← hflu, ← hsize, ← hun, ← hrep]
    rfl

end QB.Spec
