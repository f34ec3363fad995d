import QpidBroker.Proof.RangeNumbers
import QpidBroker.Proof.SessionPlace

/-!
# The sender's replay state is consistent

The commands that are not completed are a set of numbers in the window that ends at the next
command (`Outstanding`); the window moves on with the commands. The rest of the sender's state is
computed from the frames that follow one another (`Follows`).
-/

namespace QB.Spec

open QB.Impl Place Track Serial SessionState

/-! ## Commands that are not completed -/

/-- The start of the window that ends at the next command. -/
def windowStart (send : SequenceNumber) : SequenceNumber := send - BitVec.ofNat 32 commandWindow

theorem dist_windowStart (send x : SequenceNumber) (h : Serial.dist x send ≤ commandWindow) :
    Serial.dist (windowStart send) x + Serial.dist x send = commandWindow := by
  simp only [windowStart, commandWindow, Serial.dist] at *
  bv_omega

/-- The ranges have the numbers of the set, all of them in the window. -/
structure Outstanding (send : SequenceNumber) (s : SequenceSet) (S : Set SequenceNumber) : Prop where
  sound : Impl.Sound (serialRuler (windowStart send)) s.ranges
  within : ∀ x ∈ S, Serial.dist (windowStart send) x ≤ commandWindow
  mem : ∀ x, x ∈ S ↔ Covers (serialRuler (windowStart send)) s.ranges (Serial.dist (windowStart send) x)

namespace Outstanding

variable {send : SequenceNumber} {s : SequenceSet} {S : Set SequenceNumber}

theorem start : Outstanding 0 {} ∅ :=
  ⟨.nil, fun x hx => absurd hx (Set.notMem_empty x), fun x => by simp [covers_nil]⟩

theorem contains (h : Outstanding send s S) (x : SequenceNumber) :
    ∃ c, s.contains x = some c ∧ (c = true ↔ x ∈ S) := by
  obtain ⟨c, hc, -⟩ := contains_eq_some s x
  refine ⟨c, hc, ?_⟩
  rw [h.mem, ← contains_iff_covers h.sound, hc, Option.some.injEq]

theorem record (h : Outstanding send s S) :
    ∃ s', s.addRange (.point send) = some s' ∧ Outstanding send s' (S ∪ {send}) := by
  have hsend : Serial.dist (windowStart send) send = commandWindow := by
    have := dist_windowStart send send (by rw [dist_self]; exact Nat.zero_le _)
    rwa [dist_self] at this
  obtain ⟨hwit, hpoint⟩ := rangeWithin_point (by rw [hsend]; decide)
  obtain ⟨s', hs', hsound, hcov⟩ := h.sound.addRange (RangeWithin.forward hwit)
  refine ⟨s', hs', hsound, ?_, fun x => ?_⟩
  · rintro x (hx | hx)
    · exact h.within x hx
    · rw [Set.mem_singleton_iff.1 hx, hsend]
  · rw [hcov, ← mem_rangeNumbers hwit, hpoint, ← h.mem]
    rfl

theorem complete (h : Outstanding send s S) {commands : SequenceSet}
    (hc : ∀ q ∈ commands.ranges, Serial.dist q.end_ send < Serial.dist q.begin_ send ∧
      Serial.dist q.begin_ send ≤ commandWindow) :
    ∃ s', s.removeSet commands = some s' ∧
      Outstanding send s' { x ∈ S | ∀ q ∈ commands.ranges, x ∉ rangeNumbers q } := by
  have hvalid : ∀ q ∈ commands.ranges, (serialRuler (windowStart send)).Valid q := by
    intro q hq
    obtain ⟨hlt, hle⟩ := hc q hq
    have hbegin := dist_windowStart send q.begin_ hle
    have hend := dist_windowStart send q.end_ (by omega)
    refine ⟨?_, ?_⟩
    · show Serial.dist _ _ < Serial.dist _ _
      omega
    · show Serial.dist _ _ < 2 ^ 31
      rw [commandWindow] at *
      omega
  obtain ⟨s', hs', hsound, hcov⟩ := h.sound.removeSet hvalid
  refine ⟨s', hs', hsound, fun x hx => h.within x hx.1, fun x => ?_⟩
  rw [hcov, ← h.mem]
  refine and_congr_right fun _ => ?_
  rw [Covers, not_exists]
  refine forall_congr' fun q => ?_
  rw [not_and]
  refine forall_congr' fun hq => not_congr (mem_rangeNumbers ⟨(hvalid q hq).lt.le, (hvalid q hq).limit⟩ x)

theorem dist_lt (h : Outstanding send s S) (hs : ∀ q ∈ s.ranges, Serial.dist q.begin_ send < commandWindow) :
    ∀ x ∈ S, Serial.dist x send < commandWindow := by
  intro x hx
  obtain ⟨q, hq, hin⟩ := (h.mem x).1 hx
  have hle := h.within x hx
  have hbegin : Serial.dist (windowStart send) q.begin_ ≤ Serial.dist (windowStart send) x := hin.1
  have hlt := hs q hq
  simp only [windowStart, commandWindow, Serial.dist] at *
  bv_omega

theorem advance (h : Outstanding send s S) (hS : ∀ x ∈ S, Serial.dist x send < commandWindow) :
    Outstanding (send + 1) s S := by
  have hs : ∀ q ∈ s.ranges, Serial.dist q.begin_ send < commandWindow := fun q hq =>
    hS q.begin_ ((h.mem _).2 ⟨q, hq, le_rfl, (h.sound.valid q hq).lt⟩)
  have hstart : windowStart (send + 1) = windowStart send + 1 := by
    simp only [windowStart]
    bv_omega
  have hdist {x : SequenceNumber} (hx : 0 < Serial.dist (windowStart send) x) :
      Serial.dist (windowStart send + 1) x + 1 = Serial.dist (windowStart send) x := by
    simp only [Serial.dist] at *
    bv_omega
  have hvalid : ∀ q ∈ s.ranges, 0 < Serial.dist (windowStart send) q.begin_ ∧
      Serial.dist (windowStart send) q.begin_ < Serial.dist (windowStart send) q.end_ ∧
      Serial.dist (windowStart send) q.end_ < 2 ^ 31 := by
    intro q hq
    have := dist_windowStart send q.begin_ (hs q hq).le
    have := hs q hq
    exact ⟨by omega, (h.sound.valid q hq).lt, (h.sound.valid q hq).limit⟩
  have hcov (x : SequenceNumber) :
      Covers (serialRuler (windowStart send)) s.ranges (Serial.dist (windowStart send) x) ↔
        Covers (serialRuler (windowStart send + 1)) s.ranges (Serial.dist (windowStart send + 1) x) := by
    refine exists_congr fun q => and_congr_right fun hq => ?_
    obtain ⟨hpos, hlt, hlimit⟩ := hvalid q hq
    simp only [Ruler.In, serialRuler, Serial.dist] at *
    bv_omega
  rw [← hstart] at hdist hcov
  refine ⟨⟨fun q hq => ?_, h.sound.apart.imp_of_mem fun {q r} hq hr hlt => ?_⟩, fun x hx => ?_, fun x => ?_⟩
  · obtain ⟨hpos, hlt, hlimit⟩ := hvalid q hq
    have hb := hdist hpos
    have he := hdist (hpos.trans hlt)
    refine ⟨?_, ?_⟩
    · show Serial.dist _ _ < Serial.dist _ _
      omega
    · show Serial.dist _ _ < 2 ^ 31
      omega
  · have he := hdist ((hvalid q hq).1.trans (hvalid q hq).2.1)
    have hb := hdist (hvalid r hr).1
    change Serial.dist (windowStart send) q.end_ < Serial.dist (windowStart send) r.begin_ at hlt
    show Serial.dist _ _ < Serial.dist _ _
    omega
  · obtain ⟨q, hq, hin⟩ := (h.mem x).1 hx
    have hle := h.within x hx
    have := hdist ((hvalid q hq).1.trans_le hin.1)
    omega
  · rw [h.mem, hcov]

end Outstanding

/-! ## The state and the history -/

namespace Sent

variable {h : Sent} {t : BitVec 32}

theorem replay_eq (h : Sent) (t : BitVec 32) : ∃ r, r ≤ h.confirmed ∧ h.replay t = { command := r } := by
  rw [replay]
  split
  · exact ⟨0, Nat.zero_le _, rfl⟩
  · exact ⟨h.confirmed, le_rfl, rfl⟩

end Sent

/-- What the calls keep, from which follows that the state is consistent. -/
structure Kept (s : SessionState) (h : Sent) : Prop where
  sendPoint : s.sender.sendPoint = h.place.point
  replayPoint : s.sender.replayPoint = (h.replay s.timeout).point
  flushPoint : s.sender.flushPoint = (h.flushed s.timeout).point
  replayList : s.sender.replayList = if s.timeout = 0 then [] else (h.frames.from_ (h.replay s.timeout)).map (·.2)
  replaySize : s.sender.replaySize = (h.frames.from_ (h.replay s.timeout)).size
  unflushedSize : s.sender.unflushedSize = (h.frames.from_ (h.flushed s.timeout)).size
  follows : Follows {} h.frames
  confirmed_le : h.confirmed ≤ h.place.command
  window : h.place.command ≤ (h.replay s.timeout).command + commandWindow
  not_place_lt_flush : ¬ h.place < h.flush
  unlimited : s.timeout = 0 → s.replayHardLimit ≠ 0 → h.confirmed = 0
  stateful : s.stateful = false → h.frames = []
  outstanding : Outstanding h.place.point.command s.sender.incomplete h.incomplete

namespace Kept

variable {s : SessionState} {h : Sent}

theorem not_place_lt_replay (hk : Kept s h) : ¬ h.place < h.replay s.timeout := by
  obtain ⟨r, hr, heq⟩ := h.replay_eq s.timeout
  have := hk.confirmed_le
  rw [heq, lt_def]
  simp only
  omega

theorem not_place_lt_flushed (hk : Kept s h) : ¬ h.place < h.flushed s.timeout := by
  rw [Sent.flushed, Place.later]
  split
  · exact hk.not_place_lt_replay
  · exact hk.not_place_lt_flush

theorem commands_le (hk : Kept s h) : (h.replay s.timeout).command ≤ (h.flushed s.timeout).command ∧
    (h.flushed s.timeout).command ≤ h.place.command := by
  have h1 : ¬ h.flushed s.timeout < h.replay s.timeout := not_lt_later_right _ _
  have h2 := hk.not_place_lt_flushed
  rw [lt_def] at h1 h2
  omega

theorem consistent (hk : Kept s h) : Consistent s h where
  sendPoint := hk.sendPoint
  replayPoint := hk.replayPoint
  flushPoint := hk.flushPoint
  replay_le_flush := by
    have hle := hk.commands_le
    have hwin := hk.window
    rw [commandWindow] at hwin
    rw [hk.replayPoint, hk.flushPoint]
    exact (le_point ⟨by omega, by omega⟩).2 (not_lt_later_right _ _)
  flush_le_send := by
    have hle := hk.commands_le
    have hwin := hk.window
    rw [commandWindow] at hwin
    rw [hk.sendPoint, hk.flushPoint]
    exact (le_point ⟨by omega, by omega⟩).2 hk.not_place_lt_flushed
  replayList := hk.replayList
  replaySize := hk.replaySize
  unflushedSize := hk.unflushedSize
  incomplete := hk.outstanding.contains

theorem start (flushLimit hard : Nat) :
    Kept { replayFlushLimit := flushLimit, replayHardLimit := hard } {} where
  sendPoint := rfl
  replayPoint := rfl
  flushPoint := rfl
  replayList := rfl
  replaySize := rfl
  unflushedSize := rfl
  follows := trivial
  confirmed_le := le_rfl
  window := Nat.zero_le _
  not_place_lt_flush := Place.lt_irrefl _
  unlimited _ _ := rfl
  stateful _ := rfl
  outstanding := Outstanding.start

variable {f : SessionFrame} {p : SessionPoint}

theorem senderRecord_eq (hk : Kept s h) {inc : SequenceSet} (hf : f.isControl = false)
    (hp : s.sender.sendPoint.advance f = .ok p)
    (hinc : s.sender.incomplete.addRange (.point h.place.point.command) = some inc) :
    s.senderRecord f = ({ s with
          stateful := true
          sender := { s.sender with
            replayList := if s.timeout ≠ 0 then s.sender.replayList ++ [f] else s.sender.replayList
            unflushedSize := s.sender.unflushedSize + f.encodedSize
            bytesSinceKnownCompleted := s.sender.bytesSinceKnownCompleted + f.encodedSize
            replaySize := s.sender.replaySize + f.encodedSize
            incomplete := inc
            sendPoint := p } },
        if s.replayHardLimit ≠ 0 ∧ s.replayHardLimit < s.sender.replaySize + f.encodedSize then
          .error (.resourceLimitExceeded "Replay buffer exceeeded hard limit")
        else .ok ()) := by
  rw [← hk.sendPoint] at hinc
  rw [senderRecord, if_neg (by rw [hf]; decide)]
  simp [hinc, hp]

theorem from_record {p : Place} (hp : ¬ h.place < p) (hf : f.isControl = false) :
    (h.record f).frames.from_ p = h.frames.from_ p ++ [(h.place.after f, f)] := by
  have hlt : p < h.place.after f := lt_of_not_lt_of_lt hp (lt_after _ _)
  rw [Sent.record, if_neg (by rw [hf]; decide), from_append]
  exact congrArg _ (from_eq_self (by simpa using hlt))

theorem place_record (hf : f.isControl = false) : (h.record f).place = h.place.after f := by
  rw [Sent.place, Sent.record, if_neg (by rw [hf]; decide), last_append]
  rfl

theorem point_succ (p : Place) : (Place.point { command := p.command + 1 }).command = p.point.command + 1 := by
  simp only [Place.point, BitVec.ofNat_add]
  rfl

theorem dist_replay (hk : Kept s h) :
    Serial.dist s.sender.replayPoint.command s.sender.sendPoint.command =
      h.place.command - (h.replay s.timeout).command := by
  have hle := hk.commands_le
  have hwin := hk.window
  rw [hk.replayPoint, hk.sendPoint]
  simp only [Place.point, Serial.dist, commandWindow] at *
  bv_omega

theorem record (hk : Kept s h) (hf : f.isControl = false) (hok : SenderCall.Ok s (.record f)) :
    Kept (s.senderRecord f).1 (h.record f) := by
  obtain ⟨hadv, hwin, hinc⟩ := hok
  obtain ⟨p, hp⟩ := isOk_iff.1 hadv
  obtain ⟨inc, hadd, hout⟩ := hk.outstanding.record
  have hpoint : p = (h.place.after f).point := advance_eq hf (hk.sendPoint ▸ hp)
  have hrec : h.record f = { h with
      frames := h.frames ++ [(h.place.after f, f)]
      incomplete := h.incomplete ∪ {h.place.point.command} } := if_neg (by rw [hf]; decide)
  have hplace := place_record (h := h) hf
  have hrep : (h.record f).replay s.timeout = h.replay s.timeout := by rw [hrec]; rfl
  have hflu : (h.record f).flushed s.timeout = h.flushed s.timeout := by rw [hrec]; rfl
  have hlt : h.place < h.place.after f := lt_after _ _
  have hcom : h.place.command ≤ (h.place.after f).command := by
    rw [lt_def] at hlt
    omega
  have hsize (l : Track) : (l ++ [(h.place.after f, f)]).size = l.size + f.encodedSize := by
    rw [size_append]; rfl
  rw [hk.senderRecord_eq hf hp hadd]
  exact {
    sendPoint := by rw [hplace]; exact hpoint
    replayPoint := by rw [hrep]; exact hk.replayPoint
    flushPoint := by rw [hflu]; exact hk.flushPoint
    replayList := by
      rw [hrep, from_record hk.not_place_lt_replay hf]
      by_cases ht : s.timeout = 0
      · rw [if_pos ht, if_neg (not_not.2 ht), hk.replayList, if_pos ht]
      · rw [if_neg ht, if_pos ht, hk.replayList, if_neg ht, List.map_append]
        rfl
    replaySize := by
      rw [hrep, from_record hk.not_place_lt_replay hf, hsize, ← hk.replaySize]
    unflushedSize := by
      rw [hflu, from_record hk.not_place_lt_flushed hf, hsize, ← hk.unflushedSize]
    follows := by
      rw [hrec]
      exact Follows.append_iff.2 ⟨hk.follows, hf, hpoint ▸ hk.sendPoint ▸ hp, rfl, trivial⟩
    confirmed_le := by
      rw [hplace, hrec]
      exact hk.confirmed_le.trans hcom
    window := by
      rw [hplace, hrep, Place.after]
      rw [hk.dist_replay] at hwin
      have := hk.window
      split <;> simp only <;> omega
    not_place_lt_flush := by
      rw [hplace, hrec]
      exact fun h' => hk.not_place_lt_flush (Place.lt_trans hlt h')
    unlimited := by
      rw [hrec]
      exact hk.unlimited
    stateful := fun h' => by cases h'
    outstanding := by
      rw [hplace, hrec, Place.after]
      split
      swap
      · exact hout
      rw [point_succ]
      refine hout.advance ?_
      rintro x (hx | hx)
      · exact hk.outstanding.dist_lt (hk.sendPoint ▸ hinc) x hx
      · rw [Set.mem_singleton_iff.1 hx, dist_self]
        decide }

/-- Whether the limit is exceeded is known from what is not confirmed. -/
theorem record_outcome (hk : Kept s h) (hf : f.isControl = false) (hok : SenderCall.Ok s (.record f)) :
    (s.senderRecord f).2 =
      if s.replayHardLimit ≠ 0 ∧ s.replayHardLimit < ((h.record f).frames.from_ h.unconfirmed).size then
        .error (.resourceLimitExceeded "Replay buffer exceeeded hard limit")
      else .ok () := by
  obtain ⟨p, hp⟩ := isOk_iff.1 hok.1
  obtain ⟨inc, hadd, -⟩ := hk.outstanding.record
  rw [hk.senderRecord_eq hf hp hadd]
  show (if s.replayHardLimit ≠ 0 ∧ s.replayHardLimit < s.sender.replaySize + f.encodedSize then _ else _) = _
  by_cases hlimit : s.replayHardLimit = 0
  · rw [if_neg fun hl => hl.1 hlimit, if_neg fun hl => hl.1 hlimit]
  have hrep : h.replay s.timeout = h.unconfirmed := by
    rw [Sent.replay]
    split
    · next ht => rw [Sent.unconfirmed, hk.unlimited ht hlimit]
    · rfl
  rw [← hrep, from_record hk.not_place_lt_replay hf, size_append, hk.replaySize]
  rfl

theorem recordFlush (hk : Kept s h) : Kept s.senderRecordFlush h.recordFlush := by
  have hflu : h.recordFlush.flushed s.timeout = h.place := by
    exact if_neg hk.not_place_lt_replay
  exact {
    sendPoint := hk.sendPoint
    replayPoint := hk.replayPoint
    flushPoint := by
      show s.sender.sendPoint = (h.recordFlush.flushed s.timeout).point
      rw [hflu, hk.sendPoint]
    replayList := hk.replayList
    replaySize := hk.replaySize
    unflushedSize := by
      show 0 = (h.frames.from_ (h.recordFlush.flushed s.timeout)).size
      rw [hflu, Sent.place, from_eq_nil fun x hx => hk.follows.not_last_lt hx]
      rfl
    follows := hk.follows
    confirmed_le := hk.confirmed_le
    window := hk.window
    not_place_lt_flush := Place.lt_irrefl _
    unlimited := hk.unlimited
    stateful := hk.stateful
    outstanding := hk.outstanding }

theorem setTimeout (hk : Kept s h) {seconds : BitVec 32} (hok : SenderCall.Ok s (.setTimeout seconds)) :
    Kept (s.setTimeout seconds) h := by
  have hcon (hs : h.frames = []) : h.confirmed = 0 := by
    have hle := hk.confirmed_le
    rw [Sent.place, hs] at hle
    exact Nat.le_zero.1 hle
  have hstart (t : BitVec 32) (hs : h.frames = []) : h.replay t = {} := by
    rw [Sent.replay, Sent.unconfirmed, hcon hs, ite_self]
  have hrep : h.replay seconds = h.replay s.timeout := by
    rcases hok with hs | hiff
    · rw [hstart _ (hk.stateful hs), hstart _ (hk.stateful hs)]
    · simp only [Sent.replay, hiff]
  have hflu : h.flushed seconds = h.flushed s.timeout := by rw [Sent.flushed, Sent.flushed, hrep]
  exact {
    sendPoint := hk.sendPoint
    replayPoint := hrep ▸ hk.replayPoint
    flushPoint := hflu ▸ hk.flushPoint
    replayList := by
      show s.sender.replayList = if seconds = 0 then [] else (h.frames.from_ (h.replay seconds)).map (·.2)
      rw [hrep, hk.replayList]
      rcases hok with hs | hiff
      · rw [hk.stateful hs]
        exact (ite_self _).trans (ite_self _).symm
      · simp only [hiff]
    replaySize := hrep ▸ hk.replaySize
    unflushedSize := hflu ▸ hk.unflushedSize
    follows := hk.follows
    confirmed_le := hk.confirmed_le
    window := hrep ▸ hk.window
    not_place_lt_flush := hk.not_place_lt_flush
    unlimited := by
      rcases hok with hs | hiff
      · exact fun _ _ => hcon (hk.stateful hs)
      · exact fun ht => hk.unlimited (hiff.1 ht)
    stateful := hk.stateful
    outstanding := hk.outstanding }

theorem flush_lt_replay (hk : Kept s h) : s.sender.flushPoint.lt s.sender.replayPoint = false := by
  have hle := hk.consistent.replay_le_flush
  rwa [SessionPoint.le, Bool.not_eq_true'] at hle

theorem replay_offset (hk : Kept s h) : s.sender.replayPoint.offset = 0 := by
  obtain ⟨r, -, heq⟩ := h.replay_eq s.timeout
  rw [hk.replayPoint, heq]
  rfl

theorem senderConfirmed_of_loop (hk : Kept s h) (hp : s.sender.sendPoint.lt p = false)
    (hloop : confirmLoop p.command s.sender.replayList s.sender = (s.sender, .ok s.sender.replayList)) :
    s.senderConfirmed p = (s, .ok ()) := by
  rw [senderConfirmed, if_neg (by rw [hp]; decide), hloop]
  simp [hk.flush_lt_replay, hk.replay_offset]

theorem senderConfirmed_of_not_lt (hk : Kept s h) (hp : s.sender.sendPoint.lt p = false)
    (hlt : s.sender.replayPoint.command.lt p.command = false) : s.senderConfirmed p = (s, .ok ()) := by
  refine hk.senderConfirmed_of_loop hp ?_
  cases s.sender.replayList with
  | nil => rfl
  | cons f fs => rw [confirmLoop, if_neg (by rw [hlt]; decide)]

theorem command_of_lt {r c : Nat} {x : SequenceNumber} (hr : r ≤ c)
    (hlt : SequenceNumber.lt (BitVec.ofNat 32 r) x = true) (hle : SequenceNumber.lt (BitVec.ofNat 32 c) x = false) :
    Serial.dist x (BitVec.ofNat 32 c) ≤ c ∧ r < c - Serial.dist x (BitVec.ofNat 32 c) ∧
      x = BitVec.ofNat 32 (c - Serial.dist x (BitVec.ofNat 32 c)) := by
  rw [SequenceNumber.lt, decide_eq_true_iff, SequenceNumber.sub, toInt_sub_neg_iff] at hlt
  rw [SequenceNumber.lt, decide_eq_false_iff_not, SequenceNumber.sub, toInt_sub_neg_iff] at hle
  simp only [Serial.dist] at *
  bv_omega

theorem command_of_dist {c : Nat} {x : SequenceNumber} (h : Serial.dist x (BitVec.ofNat 32 c) ≤ c) :
    x = BitVec.ofNat 32 (c - Serial.dist x (BitVec.ofNat 32 c)) := by
  simp only [Serial.dist] at *
  bv_omega

theorem follows_unconfirmed (hk : Kept s h) :
    Follows { command := h.confirmed } (h.frames.from_ { command := h.confirmed }) ∧
      (h.frames.from_ { command := h.confirmed }).last { command := h.confirmed } = h.place := by
  obtain ⟨old, hold, hfol, hlast⟩ := hk.follows.split (by rw [lt_def]; simp) hk.confirmed_le
  have happ := congrArg (Track.last {}) hold
  rw [last_append, hlast] at happ
  exact ⟨hfol, happ.symm⟩

/-- A confirmation of commands that are kept for replay: their frames are dropped. -/
theorem senderConfirmed_eq (hk : Kept s h) {k : Nat} (ht : s.timeout ≠ 0)
    (hp : s.sender.sendPoint.lt p = false) (hpk : p.command = BitVec.ofNat 32 k) (hk1 : h.confirmed < k)
    (hk2 : k ≤ h.place.command) :
    s.senderConfirmed p = ({ s with sender := { s.sender with
          replayPoint := Place.point { command := k }
          flushPoint := ((h.flushed s.timeout).later { command := k }).point
          replayList := (h.frames.from_ { command := k }).map (·.2)
          replaySize := (h.frames.from_ { command := k }).size
          unflushedSize := (h.frames.from_ ((h.flushed s.timeout).later { command := k })).size } }, .ok ()) := by
  have hrep : h.replay s.timeout = { command := h.confirmed } := if_neg ht
  have hF := hk.commands_le
  have hwin := hk.window
  rw [hrep] at hF hwin
  rw [commandWindow] at hwin
  simp only at hF hwin
  obtain ⟨hfol, hplace⟩ := hk.follows_unconfirmed
  have hlater : ¬ { command := k } < ({ command := h.confirmed } : Place) := by
    rw [lt_def]
    simp only
    omega
  have hflu : ¬ h.flushed s.timeout < { command := h.confirmed } := hrep ▸ not_lt_later_right _ _
  have hfrom : ¬ (h.flushed s.timeout).later { command := k } < { command := h.confirmed } := fun hlt =>
    hflu (lt_of_not_lt_of_lt (not_lt_later_left _ _) hlt)
  have hloop := confirmLoop_eq (m := h.confirmed) hfol hlater
    (by rw [hplace]; exact hk2) le_rfl hF.1 (by rw [hplace]; exact hF.2) (by rw [hplace]; omega)
    (by rw [hk.replayPoint, hrep]) hk.flushPoint (by rw [hplace, hk.sendPoint])
    (by rw [hk.replaySize, hrep]) (by rw [hk.unflushedSize, from_from hflu])
  rw [from_from hlater, from_from hfrom] at hloop
  have hlist : s.sender.replayList = (h.frames.from_ { command := h.confirmed }).map (·.2) := by
    rw [hk.replayList, if_neg ht, hrep]
  have hnear : Place.Near (h.flushed s.timeout) { command := k } := ⟨by simp only; omega, by simp only; omega⟩
  have hflush : (if (h.flushed s.timeout).point.lt (Place.point { command := k }) then Place.point { command := k }
      else (h.flushed s.timeout).point) = ((h.flushed s.timeout).later { command := k }).point := by
    rw [Place.later, apply_ite Place.point]
    exact ite_congr (propext (lt_point hnear)) (fun _ => rfl) (fun _ => rfl)
  rw [senderConfirmed, if_neg (by rw [hp]; decide), hlist, hpk, hloop]
  simp only [hk.flushPoint, hflush]
  rfl

theorem confirm_kept (hk : Kept s h) {k : Nat} (ht : s.timeout ≠ 0)
    (hp : s.sender.sendPoint.lt p = false) (hpk : p.command = BitVec.ofNat 32 k) (hk1 : h.confirmed < k)
    (hk2 : k ≤ h.place.command) : Kept (s.senderConfirmed p).1 { h with confirmed := k } := by
  have hold : h.replay s.timeout = { command := h.confirmed } := if_neg ht
  have hrep : Sent.replay { h with confirmed := k } s.timeout = { command := k } := if_neg ht
  have hflu : Sent.flushed { h with confirmed := k } s.timeout = (h.flushed s.timeout).later { command := k } := by
    rw [Sent.flushed, hrep, Sent.flushed, hold, later_later]
    rw [lt_def]
    simp only
    omega
  have hwin := hk.window
  rw [hold] at hwin
  rw [hk.senderConfirmed_eq ht hp hpk hk1 hk2]
  exact {
    sendPoint := hk.sendPoint
    replayPoint := by rw [hrep]
    flushPoint := by rw [hflu]
    replayList := by rw [hrep]; exact (if_neg ht).symm
    replaySize := by rw [hrep]
    unflushedSize := by rw [hflu]
    follows := hk.follows
    confirmed_le := hk2
    window := by
      rw [hrep]
      show h.place.command ≤ k + commandWindow
      simp only at hwin
      omega
    not_place_lt_flush := hk.not_place_lt_flush
    unlimited := fun h' => absurd h' ht
    stateful := hk.stateful
    outstanding := hk.outstanding }

/-- Without a timeout and without a limit, what is confirmed makes no difference. -/
theorem confirm_unkept (hk : Kept s h) {k : Nat} (ht : s.timeout = 0) (hlimit : s.replayHardLimit = 0)
    (hk2 : k ≤ h.place.command) : Kept s { h with confirmed := k } := by
  have hrep : Sent.replay { h with confirmed := k } s.timeout = h.replay s.timeout := by
    rw [Sent.replay, Sent.replay, if_pos ht, if_pos ht]
  have hflu : Sent.flushed { h with confirmed := k } s.timeout = h.flushed s.timeout := by
    rw [Sent.flushed, Sent.flushed, hrep]
  exact { hk with
    replayPoint := by rw [hrep]; exact hk.replayPoint
    flushPoint := by rw [hflu]; exact hk.flushPoint
    replayList := by rw [hrep]; exact hk.replayList
    replaySize := by rw [hrep]; exact hk.replaySize
    unflushedSize := by rw [hflu]; exact hk.unflushedSize
    confirmed_le := hk2
    window := by rw [hrep]; exact hk.window
    unlimited := fun _ h' => absurd hlimit h' }

theorem confirm (hk : Kept s h) (hok : Confirms s p.command) : Kept (s.senderConfirmed p).1 (h.confirm p) := by
  cases hp : s.sender.sendPoint.lt p with
  | true =>
    rw [senderConfirmed, if_pos hp, Sent.confirm, if_pos (.inl (hk.sendPoint ▸ hp))]
    exact hk
  | false =>
    have hcom : SequenceNumber.lt h.place.point.command p.command = false := by
      rw [hk.sendPoint, SessionPoint.lt, Bool.or_eq_false_iff] at hp
      exact hp.1
    have hcon {k : Nat} (hk : k = h.place.command - Serial.dist p.command h.place.point.command)
        (hn : Serial.dist p.command h.place.point.command ≤ h.place.command) :
        h.confirm p = { h with confirmed := max h.confirmed k } := by
      rw [Sent.confirm, if_neg, hk]
      exact not_or.2 ⟨by rw [← ‹Kept s h›.sendPoint, hp]; decide, Nat.not_lt.2 hn⟩
    obtain ⟨r, hr, hrep⟩ := h.replay_eq s.timeout
    have hwin := hk.window
    have hle := hk.commands_le
    rw [hrep] at hwin hle
    cases hlt : s.sender.replayPoint.command.lt p.command with
    | false =>
      rw [hk.senderConfirmed_of_not_lt hp hlt]
      by_cases hn : Serial.dist p.command h.place.point.command ≤ h.place.command
      swap
      · rw [Sent.confirm, if_pos (.inr (Nat.not_le.1 hn))]
        exact hk
      have hx := command_of_dist hn
      generalize hk' : h.place.command - Serial.dist p.command (BitVec.ofNat 32 h.place.command) = k at hx
      rw [hcon hk'.symm hn, Nat.max_eq_left]
      · exact hk
      by_contra hc
      rw [hk.replayPoint, hrep, hx] at hlt
      have hlt' := (lt_command (m := r) (n := k) (by omega)
        (by rw [commandWindow] at hwin; simp only at hwin; omega)).2 (by omega)
      exact Bool.noConfusion (hlt.symm.trans hlt')
    | true =>
      have hlt' := hlt
      rw [hk.replayPoint, hrep] at hlt'
      obtain ⟨hn, hrk, hx⟩ := command_of_lt (hle.1.trans hle.2) hlt' hcom
      have hkle : h.place.command - Serial.dist p.command h.place.point.command ≤ h.place.command := Nat.sub_le ..
      generalize hk' : h.place.command - Serial.dist p.command (BitVec.ofNat 32 h.place.command) = k at hx hrk
      rw [hcon hk'.symm hn]
      by_cases ht : s.timeout = 0
      swap
      · have hr : r = h.confirmed := congrArg Place.command (hrep.symm.trans (if_neg ht))
        rw [Nat.max_eq_right (hr ▸ hrk.le)]
        exact hk.confirm_kept ht hp hx (hr ▸ hrk) (hk' ▸ hkle)
      have hlist : s.sender.replayList = [] := by rw [hk.replayList, if_pos ht]
      have hlimit : s.replayHardLimit = 0 := by
        rcases hok with ht' | hlimit | hlt'
        · exact absurd ht ht'
        · exact hlimit
        · exact Bool.noConfusion (hlt'.symm.trans hlt)
      rw [hk.senderConfirmed_of_loop hp (by rw [hlist]; rfl)]
      exact hk.confirm_unkept ht hlimit (max_le hk.confirmed_le (hk' ▸ hkle))

theorem complete (hk : Kept s h) {commands : SequenceSet} (hok : SenderCall.Ok s (.completed commands)) :
    Kept (s.senderCompleted commands).1 (h.complete commands) := by
  obtain ⟨hran, hcon⟩ := hok
  rw [hk.sendPoint] at hran
  obtain ⟨inc, hinc, hout⟩ := hk.outstanding.complete hran
  rw [senderCompleted, Sent.complete]
  cases hc : commands.ranges with
  | nil => exact hk
  | cons r l =>
    rw [hc] at hcon hout
    simp only [hinc]
    have hkept : Kept { s with sender := { s.sender with incomplete := inc } }
        { h with incomplete := { x ∈ h.incomplete | ∀ q ∈ r :: l, x ∉ rangeNumbers q } } :=
      { hk with outstanding := hout }
    exact hkept.confirm (hcon r rfl)

theorem step {call : SenderCall} (hk : Kept s h) (hok : call.Ok s) {t : Sender} (hstep : call.step (s, h) = some t) :
    Kept t.1 t.2 := by
  cases call with
  | record f =>
    cases hstep
    cases hf : f.isControl
    · exact hk.record hf hok
    · rw [senderRecord, if_pos hf, Sent.record, if_pos hf]
      exact hk
  | recordFlush => cases hstep; exact hk.recordFlush
  | confirmed p => cases hstep; exact hk.confirm hok
  | completed commands => cases hstep; exact hk.complete hok
  | expected p => cases hstep; exact hk
  | setTimeout seconds => cases hstep; exact hk.setTimeout hok

end Kept

theorem senderConfirmed_config (s : SessionState) (p : SessionPoint) :
    (s.senderConfirmed p).1.timeout = s.timeout ∧ (s.senderConfirmed p).1.replayHardLimit = s.replayHardLimit := by
  unfold senderConfirmed
  split
  · exact ⟨rfl, rfl⟩
  · split <;> exact ⟨rfl, rfl⟩

theorem senderCompleted_config (s : SessionState) (commands : SequenceSet) :
    (s.senderCompleted commands).1.timeout = s.timeout ∧
      (s.senderCompleted commands).1.replayHardLimit = s.replayHardLimit := by
  simp only [senderCompleted]
  split
  · exact ⟨rfl, rfl⟩
  · split
    · exact ⟨rfl, rfl⟩
    · exact senderConfirmed_config _ _

theorem senderRecord_config (s : SessionState) (f : SessionFrame) :
    (s.senderRecord f).1.timeout = s.timeout ∧ (s.senderRecord f).1.replayHardLimit = s.replayHardLimit := by
  simp only [senderRecord]
  split
  · exact ⟨rfl, rfl⟩
  · split
    · exact ⟨rfl, rfl⟩
    · split <;> exact ⟨rfl, rfl⟩

theorem step_replayHardLimit {call : SenderCall} {s t : Sender} (hstep : call.step s = some t) :
    t.1.replayHardLimit = s.1.replayHardLimit := by
  cases call with
  | record f => cases hstep; exact (senderRecord_config _ _).2
  | recordFlush => cases hstep; rfl
  | confirmed p => cases hstep; exact (senderConfirmed_config _ _).2
  | completed commands => cases hstep; exact (senderCompleted_config _ _).2
  | expected p => cases hstep; rfl
  | setTimeout seconds => cases hstep; rfl

/-- In every run of the sending end whose calls meet the condition, its state is that of the
history; and a frame of a command is refused, with the limit as the reason, just if what is not
confirmed is larger than the limit. -/
theorem sender_state_consistent (flushLimit hardLimit : Nat) (calls : List SenderCall) (s : SessionState) (h : Sent)
    (hrun : Run SenderCall.step (fun s call => call.Ok s.1)
      ({ replayFlushLimit := flushLimit, replayHardLimit := hardLimit }, {}) calls (s, h)) :
    Consistent s h ∧ ∀ f : SessionFrame, f.isControl = false → SenderCall.Ok s (.record f) →
      (s.senderRecord f).2 =
          if hardLimit ≠ 0 ∧ hardLimit < ((h.record f).frames.from_ h.unconfirmed).size then
            .error (.resourceLimitExceeded "Replay buffer exceeeded hard limit")
          else .ok () := by
  obtain ⟨hk, hlimit⟩ := hrun.keep (I := fun s => Kept s.1 s.2 ∧ s.1.replayHardLimit = hardLimit)
    (fun hs hok hstep => ⟨hs.1.step hok hstep, (step_replayHardLimit hstep).trans hs.2⟩) ⟨Kept.start .., rfl⟩
  exact ⟨hk.consistent, fun f hf hok => hlimit ▸ hk.record_outcome hf hok⟩

/-- A frame of a command of 14 octets: the first, the last, or both. -/
def commandFrame (first last : Bool) : SessionFrame where
  method := first
  type := if first then 1 else 3
  firstSegment := first
  lastSegment := last
  firstFrame := true
  lastFrame := true
  body := [0, 0]

/-- Two commands, the first in two frames; a flush in the first; the first is completed, and the
limit of 30 octets is exceeded by the second of two more. -/
theorem sender_state_consistent_two : ∃ s h,
    Run SenderCall.step (fun s call => call.Ok s.1) ({ replayHardLimit := 30 }, {})
      [.setTimeout 1, .record (commandFrame true false), .recordFlush, .record (commandFrame false true),
        .record (commandFrame true true), .completed ⟨[⟨0, 1⟩]⟩, .record (commandFrame true true)] (s, h) ∧
    Consistent s h ∧ s.sender.replayList = [commandFrame true true, commandFrame true true] ∧
    s.sender.replaySize = 28 ∧ s.sender.unflushedSize = 28 ∧ s.sender.incomplete = ⟨[⟨1, 3⟩]⟩ ∧
    (s.senderRecord (commandFrame true false)).2 =
      .error (.resourceLimitExceeded "Replay buffer exceeeded hard limit") := by
  exact Prod.exists'.1 <| exists_run (by decide +kernel) fun u hrun hg =>
    ⟨hrun, (sender_state_consistent _ 30 _ u.1 u.2 hrun).1, hg⟩

/-- Without a timeout the frames that are confirmed still count: 14 octets are not confirmed, but the
limit of 20 is exceeded. And when a timeout is set after a frame was sent, the replay list
does not start at the replay point. -/
theorem sender_state_drifts : (let f := commandFrame true true
     let s : SessionState := { replayHardLimit := 20 }
     let h : Sent := {}
     let s₁ := ((s.senderRecord f).1.senderConfirmed { command := 1 }).1
     let h₁ := (h.record f).confirm { command := 1 }
     (s₁.senderRecord f).2 = .error (.resourceLimitExceeded "Replay buffer exceeeded hard limit") ∧
       ((h₁.record f).frames.from_ h₁.unconfirmed).size = 14) ∧
    (let f := commandFrame true true
     let g := commandFrame true false
     let s : SessionState := {}
     let h : Sent := {}
     let s₁ := (((s.senderRecord f).1.setTimeout 1).senderRecord g).1
     let h₁ := (h.record f).record g
     s₁.sender.replayPoint = {} ∧ s₁.sender.replayList = [g] ∧ h₁.replay 1 = {} ∧
       (h₁.frames.from_ (h₁.replay 1)).map (·.2) = [f, g]) := by
  decide +kernel

/-! ## Completions that are rejected -/

variable {s : SessionState}

theorem confirmLoop_ne_invalidArgument {confirmed : SequenceNumber} {fs : List SessionFrame} {text : String}
    {s : SendState} : (confirmLoop confirmed fs s).2 ≠ .error (.invalidArgument text) := by
  induction fs generalizing s with
  | nil => intro h; cases h
  | cons f fs ih =>
    rw [confirmLoop]
    split
    · split
      · next e he =>
        rintro ⟨⟩
        simp only [SessionPoint.advance] at he
        repeat' split at he
        all_goals cases he
      · split
        · intro h; cases h
        · exact ih
    · intro h; cases h

/-- The point is rejected just if it is behind the send point, and then nothing changes. -/
theorem senderConfirmed_rejected {p : SessionPoint} {text : String}
    (h : (s.senderConfirmed p).2 = .error (.invalidArgument text)) :
    s.sender.sendPoint.lt p = true ∧ (s.senderConfirmed p).1 = s := by
  unfold senderConfirmed at *
  split at h
  · next hlt => exact ⟨hlt, by rw [if_pos hlt]⟩
  · split at h
    · next hloop =>
      cases h
      exact absurd (congrArg Prod.snd hloop) confirmLoop_ne_invalidArgument
    · simp only at h
      split at h <;> cases h

/-- A call that is rejected leaves the sender as it was, unless what is completed beyond the send
point is in part incomplete: then the incomplete commands are forgotten. -/
theorem rejected_unchanged_iff (b : SequenceNumber) (s : SessionState) (commands : SequenceSet)
    (hs : Impl.Sound (serialRuler b) s.sender.incomplete.ranges) (hc : Impl.Sound (serialRuler b) commands.ranges) :
    ((∀ text, (s.senderCompleted commands).2 = .error (.invalidArgument text) →
        (s.senderCompleted commands).1.sender = s.sender) ∧
      ∀ p text, (s.senderConfirmed p).2 = .error (.invalidArgument text) →
        (s.senderConfirmed p).1.sender = s.sender) ↔
    ((∀ q ∈ commands.ranges.head?, s.sender.sendPoint.lt { command := q.end_ } = false) ∨
      ∀ x, ¬ (s.sender.incomplete.contains x = some true ∧ commands.contains x = some true)) := by
  rw [and_iff_left fun p text h => by rw [(senderConfirmed_rejected h).2], ← removeSet_eq_self_iff hs hc]
  obtain ⟨inc, hinc, -⟩ := hs.removeSet hc.valid
  cases hran : commands.ranges with
  | nil => simp [senderCompleted, hran]
  | cons q l =>
    simp only [senderCompleted, hran, hinc]
    cases hlt : s.sender.sendPoint.lt { command := q.end_ }
    · refine iff_of_true (fun text h => ?_) (.inl (by simpa using hlt))
      exact absurd (senderConfirmed_rejected h).1 (by simp [hlt])
    · simp only [senderConfirmed, hlt, Option.some.injEq, if_true]
      refine ⟨fun h => .inr (congrArg SendState.incomplete (h _ rfl)), fun h text _ => ?_⟩
      rw [h.resolve_left (by simp [hlt])]

/-- Two commands were sent and are not completed. -/
def twoSent : SessionState := { sender := { sendPoint := { command := 2 }, incomplete := ⟨[⟨0, 2⟩]⟩ } }

/-- The first of them is completed; a point behind the send point is rejected. -/
theorem rejected_unchanged_first : (twoSent.senderCompleted ⟨[⟨0, 1⟩]⟩).1.sender.incomplete =
    ⟨[⟨1, 2⟩]⟩ ∧
      (twoSent.senderConfirmed { command := 3 }).2 =
        .error (.invalidArgument ": confirmed < (3+0) but only sent < (2+0)") ∧
      (twoSent.senderConfirmed { command := 3 }).1.sender = twoSent.sender := by
  have hsound {n : SequenceNumber} (hn : Serial.dist 0 0 < Serial.dist 0 n ∧ Serial.dist 0 n < 2 ^ 31) :
      Impl.Sound (serialRuler 0) [⟨0, n⟩] := sound_cons.2 ⟨⟨hn.1, hn.2⟩, .nil, nofun⟩
  have hrej : (twoSent.senderConfirmed { command := 3 }).2 =
      .error (.invalidArgument ": confirmed < (3+0) but only sent < (2+0)") := by decide +kernel
  refine ⟨by decide +kernel, hrej, ?_⟩
  exact ((rejected_unchanged_iff 0 twoSent ⟨[⟨0, 1⟩]⟩ (hsound (by decide)) (hsound (by decide))).2
    (.inl (by decide))).2 _ _ hrej

/-- Five commands are completed where only two were sent: the call is rejected, and the two are
no longer incomplete. -/
theorem rejected_changes :
    (twoSent.senderCompleted ⟨[⟨0, 5⟩]⟩).2 =
      .error (.invalidArgument ": confirmed < (5+0) but only sent < (2+0)") ∧
      (twoSent.senderCompleted ⟨[⟨0, 5⟩]⟩).1.sender.incomplete = {} ∧ twoSent.sender.incomplete ≠ {} := by
  decide +kernel

end QB.Spec
