import QpidBroker.Proof.SessionSender
import QpidBroker.Spec.SessionResume

/-!
# Exactly once over resumed connections

The frames that were sent are in three parts (`Parted`): those before the receiver's expected
point, those after it that the receiver has had before, all of one command, and the ones it has
not. The last two are on the way. A resume moves frames of that command from the first part to
the second.
-/

namespace QB.Spec

open QB.Impl List Place Track

variable {p : Place}

theorem Follows.command_last {l : Track} (h : Follows p l) :
    (l.last p).command = p.command + ((l.map (·.2)).filter SessionFrame.ends).length := by
  induction l generalizing p with
  | nil => rfl
  | cons x l ih =>
    obtain ⟨-, -, hx, hl⟩ := h
    rw [Track.last, ih hl, map_cons, hx, Place.after]
    cases he : x.2.ends
    · rw [filter_cons_of_neg (by rw [he]; decide)]
      rfl
    · rw [filter_cons_of_pos he, length_cons]
      simp only [if_true]
      omega

/-- The loop that looks for what is to be replayed stops at the start of the command. -/
theorem replayFrom_eq {l : Track} {k : Nat} (hl : Follows p l) (hp : ¬ { command := k } < p)
    (hk : k ≤ (l.last p).command) (hwin : k < p.command + 2 ^ 31) :
    SessionState.replayFrom (BitVec.ofNat 32 k) (l.map (·.2)) p.point =
      .ok ((l.from_ { command := k }).map (·.2), Place.point { command := k }) := by
  induction l generalizing p with
  | nil =>
    obtain rfl := eq_start hp hk
    rfl
  | cons x l ih =>
    rw [map_cons, SessionState.replayFrom]
    by_cases hlt : p.command < k
    · obtain ⟨-, ha, hx, hrest⟩ := hl
      have hxk : ¬ { command := k } < x.1 := hx ▸ not_lt_after x.2 hlt
      have hpx : p < x.1 := hx ▸ lt_after p x.2
      have hcom : p.point.command.lt (BitVec.ofNat 32 k) = true := (lt_command (by omega) (by omega)).2 hlt
      rw [if_pos hcom, ha, from_cons_of_not_lt hxk]
      refine ih hrest hxk hk ?_
      rw [lt_def] at hpx
      omega
    obtain rfl := eq_start hp (Nat.not_lt.1 hlt)
    have hcom : ¬ (Place.point { command := k }).command.lt (BitVec.ofNat 32 k) = true :=
      fun h => hlt ((lt_command (by simp) (by simp)).1 h)
    rw [if_neg hcom, from_eq_self fun y hy => hl.lt hy, map_cons]

/-- A frame in sequence is recorded by the receiver, and found to be new if it ends after what was
received. -/
theorem receiverRecord_eq {r : SessionState} {x : Place × SessionFrame} (htra : r.receiverTrackingDisabled = false)
    (hexp : r.receiver.expected = p.point) (hf : x.2.isControl = false) (ha : p.point.advance x.2 = .ok x.1.point) :
    ∃ r' first, r.receiverRecord x.2 = (r', .ok first) ∧ r'.receiverTrackingDisabled = false ∧
      r'.receiver.expected = x.1.point ∧ first = r.receiver.received.lt x.1.point ∧
      r'.receiver.received = if first then x.1.point else r.receiver.received := by
  rw [SessionState.receiverRecord, if_neg (by rw [htra]; decide), if_neg (by rw [hf]; decide), hexp, ha]
  simp only
  cases hlt : r.receiver.received.lt x.1.point
  · exact ⟨_, _, rfl, htra, rfl, rfl, rfl⟩
  obtain ⟨inc, hinc⟩ := addRange_eq_some r.receiver.incomplete
    (.point (SessionState.receiverGetCurrent { r.receiver with
      expected := x.1.point
      bytesSinceKnownCompleted := r.receiver.bytesSinceKnownCompleted + x.2.encodedSize
      received := x.1.point }))
  rw [hinc]
  exact ⟨_, _, rfl, htra, rfl, rfl, rfl⟩

theorem near_after (p : Place) (f : SessionFrame) : Place.Near p (p.after f) := by
  rw [Place.Near, Place.after]
  split <;> simp only <;> omega

theorem received_foldl {r : SessionState} {l : Track} (hl : Follows p l)
    (htra : r.receiverTrackingDisabled = false) (hexp : r.receiver.expected = p.point)
    (hrec : r.receiver.received = p.point) :
    ((l.map (·.2)).foldl (fun r f => (r.receiverRecord f).1) r).receiver.received = (l.last p).point := by
  induction l generalizing p r with
  | nil => exact hrec
  | cons x l ih =>
    obtain ⟨hf, ha, hx, hrest⟩ := hl
    obtain ⟨r', first, hreco, htra', hexp', hfirst, hrec'⟩ := receiverRecord_eq htra hexp hf ha
    have htrue : first = true := by
      rw [hfirst, hrec, lt_point (hx ▸ near_after p x.2)]
      exact hx ▸ lt_after p x.2
    rw [htrue] at hrec'
    rw [map_cons, foldl_cons, hreco]
    exact ih hrest htra' hexp' hrec'

/-- The frames that were sent, in three parts. -/
structure Parted (u : Session) (before again later : Track) : Prop where
  kept : Kept u.sender.1 u.sender.2
  timeout : u.sender.1.timeout ≠ 0
  tracking : u.receiver.receiverTrackingDisabled = false
  frames : u.sender.2.frames = before ++ (again ++ later)
  channel : u.channel = (again ++ later).map (·.2)
  accepted : u.accepted = (before ++ again).map (·.2)
  expected : u.receiver.receiver.expected = (before.last {}).point
  received : u.receiver.receiver.received = ((before ++ again).last {}).point
  same : ((before ++ again).last {}).command = (before.last {}).command
  confirmed : u.sender.2.confirmed ≤ (before.last {}).command

namespace Parted

variable {u v : Session} {before again later : Track}

theorem follows (h : Parted u before again later) :
    Follows {} before ∧ Follows (before.last {}) again ∧ Follows ((before ++ again).last {}) later := by
  have hf := h.kept.follows
  rw [h.frames, Follows.append_iff, Follows.append_iff, ← last_append] at hf
  exact hf

theorem place (h : Parted u before again later) : u.sender.2.place = later.last ((before ++ again).last {}) := by
  rw [Sent.place, h.frames, ← append_assoc, last_append]

theorem command_le_place (h : Parted u before again later) : (before.last {}).command ≤ u.sender.2.place.command := by
  have hlast := h.follows.2.2.not_last_lt_start
  rw [← h.place, lt_def] at hlast
  have := h.same
  omega

theorem start (s : SessionState) (hs : Kept s {}) (ht : s.timeout ≠ 0) : Parted { sender := (s, {}) } [] [] [] where
  kept := hs
  timeout := ht
  tracking := rfl
  frames := rfl
  channel := rfl
  accepted := rfl
  expected := rfl
  received := rfl
  same := rfl
  confirmed := le_rfl

theorem send (h : Parted u before again later) {f : SessionFrame} (hok : u.Ok (.send f))
    (hstep : u.step (.send f) = some v) :
    ∃ x, Parted v before again (later ++ [x]) := by
  obtain ⟨hf, hrec⟩ := hok
  have hkept := h.kept.record hf hrec
  rw [Session.step] at hstep
  split at hstep
  swap
  · cases hstep
  next s heq =>
  cases hstep
  rw [heq] at hkept
  have hcon := senderRecord_config u.sender.1 f
  rw [heq] at hcon
  have hfra : (u.sender.2.record f).frames = u.sender.2.frames ++ [(u.sender.2.place.after f, f)] := by
    rw [Sent.record, if_neg (by rw [hf]; decide)]
  refine ⟨(u.sender.2.place.after f, f), ?_⟩
  exact {
    kept := hkept
    timeout := by rw [hcon.1]; exact h.timeout
    tracking := h.tracking
    frames := by rw [hfra, h.frames, append_assoc, append_assoc]
    channel := by simp [h.channel]
    accepted := h.accepted
    expected := h.expected
    received := h.received
    same := h.same
    confirmed := by
      rw [Sent.record, if_neg (by rw [hf]; decide)]
      exact h.confirmed }

theorem recordFlush (h : Parted u before again later) :
    Parted { u with sender := (u.sender.1.senderRecordFlush, u.sender.2.recordFlush) } before again later :=
  { h with kept := h.kept.recordFlush }

/-- What is confirmed of the commands that the receiver has is not after what it expects. -/
theorem confirmed_le (h : Parted u before again later) {p : SessionPoint} (hp : u.Has p.command) {g : Sent}
    (hplace : g.place = u.sender.2.place) (hcon : g.confirmed = u.sender.2.confirmed) :
    (g.confirm p).confirmed ≤ (before.last {}).command := by
  obtain ⟨k, hk, hwin, hp⟩ := hp
  have hcom : k ≤ (before.last {}).command := by
    have hlast := (Follows.append_iff.2 ⟨h.follows.1, h.follows.2.1⟩).command_last
    rw [h.same, ← h.accepted] at hlast
    rw [Session.acceptedCommands] at hk
    omega
  have hle := h.command_le_place
  have hdist : Serial.dist p.command u.sender.2.place.point.command = u.sender.2.place.command - k := by
    simp only [Place.point, Serial.dist, commandWindow] at *
    bv_omega
  have hconfirmed := h.confirmed
  rw [Sent.confirm, hplace]
  split
  · rwa [hcon]
  · simp only [hcon]
    omega

theorem frames_confirm (g : Sent) (p : SessionPoint) : (g.confirm p).frames = g.frames := by
  rw [Sent.confirm]
  split <;> rfl

theorem confirm (h : Parted u before again later) {p : SessionPoint} (hok : u.Ok (.confirmed p)) :
    Parted { u with sender := ((u.sender.1.senderConfirmed p).1, u.sender.2.confirm p) } before again later :=
  { h with
    kept := h.kept.confirm (.inl h.timeout)
    timeout := by rw [(senderConfirmed_config _ _).1]; exact h.timeout
    frames := by rw [frames_confirm]; exact h.frames
    confirmed := h.confirmed_le hok rfl rfl }

theorem complete (h : Parted u before again later) {commands : SequenceSet} (hok : u.Ok (.completed commands)) :
    Parted { u with sender := ((u.sender.1.senderCompleted commands).1, u.sender.2.complete commands) }
      before again later := by
  obtain ⟨hok, hhas⟩ := hok
  have hsent : (u.sender.2.complete commands).frames = u.sender.2.frames ∧
      (u.sender.2.complete commands).confirmed ≤ (before.last {}).command := by
    unfold Sent.complete
    cases hr : commands.ranges with
    | nil => exact ⟨rfl, h.confirmed⟩
    | cons r rs => exact ⟨frames_confirm _ _, h.confirmed_le (hhas r (by rw [hr]; rfl)) rfl rfl⟩
  exact { h with
    kept := h.kept.complete hok
    timeout := by rw [(senderCompleted_config _ _).1]; exact h.timeout
    frames := by rw [hsent.1]; exact h.frames
    confirmed := hsent.2 }

variable {x : Place × SessionFrame}

/-- A frame that the receiver has had is delivered: it is not accepted again. -/
theorem deliver_again (h : Parted u before (x :: again) later) :
    ∃ v, u.deliver = some v ∧ Parted v (before ++ [x]) again later := by
  obtain ⟨-, ⟨hf, ha, hx, hrest⟩, -⟩ := h.follows
  obtain ⟨r, first, hreco, htra, hexp, hfirst, hrec⟩ := receiverRecord_eq h.tracking h.expected hf ha
  have happ : before ++ x :: again = before ++ [x] ++ again := List.append_cons ..
  have hlast : (before ++ x :: again).last {} = Track.last x.1 again := last_append
  have hxlast : ¬ (before ++ x :: again).last {} < x.1 := hlast ▸ hrest.not_last_lt_start
  have hlt : before.last {} < x.1 := hx ▸ lt_after _ _
  have hcom : x.1.command = (before.last {}).command := by
    have := h.same
    rw [lt_def] at hxlast hlt
    omega
  have hfalse : first = false := by
    rw [hfirst, h.received, ← Bool.not_eq_true, lt_point ⟨by rw [h.same]; omega, by rw [h.same]; omega⟩]
    exact hxlast
  subst hfalse
  refine ⟨_, by rw [Session.deliver, h.channel]; simp only [cons_append, map_cons, hreco]; rfl, ?_⟩
  exact { h with
    tracking := htra
    frames := by rw [h.frames]; exact List.append_cons before x (again ++ later)
    channel := rfl
    accepted := by rw [← happ]; exact h.accepted
    expected := by rw [last_append]; exact hexp
    received := by rw [← happ]; exact hrec.trans h.received
    same := by
      rw [← happ, h.same, last_append, ← hcom]
      rfl
    confirmed := by
      rw [last_append]
      exact h.confirmed.trans hcom.ge }

/-- A frame that the receiver has not had is delivered: it is accepted. -/
theorem deliver_later (h : Parted u before [] (x :: later)) :
    ∃ v, u.deliver = some v ∧ Parted v (before ++ [x]) [] later := by
  obtain ⟨-, -, hf, ha, hx, hrest⟩ := h.follows
  rw [append_nil] at ha hx
  obtain ⟨r, first, hreco, htra, hexp, hfirst, hrec⟩ := receiverRecord_eq h.tracking h.expected hf ha
  have hlt : before.last {} < x.1 := hx ▸ lt_after _ _
  have hcom : (before.last {}).command ≤ x.1.command := by
    rw [lt_def] at hlt
    omega
  have htrue : first = true := by
    rw [hfirst, h.received, append_nil, lt_point (hx ▸ near_after _ x.2)]
    exact hlt
  subst htrue
  refine ⟨_, by rw [Session.deliver, h.channel]; simp only [nil_append, map_cons, hreco]; rfl, ?_⟩
  exact { h with
    tracking := htra
    frames := by rw [h.frames]; exact List.append_cons before x later
    channel := rfl
    accepted := by simp [h.accepted]
    expected := by rw [last_append]; exact hexp
    received := by rw [append_nil, last_append]; exact hrec
    same := by rw [append_nil]
    confirmed := by
      rw [last_append]
      exact h.confirmed.trans hcom }

theorem deliver (h : Parted u before again later) (hcha : u.channel ≠ []) :
    ∃ v before' again' later', u.deliver = some v ∧ Parted v before' again' later' := by
  cases again with
  | cons x again =>
    obtain ⟨v, hv, hp⟩ := h.deliver_again
    exact ⟨v, _, _, _, hv, hp⟩
  | nil =>
    cases later with
    | nil => exact absurd h.channel hcha
    | cons x later =>
      obtain ⟨v, hv, hp⟩ := h.deliver_later
      exact ⟨v, _, _, _, hv, hp⟩

theorem not_place_lt (h : Parted u before again later) : ¬ u.sender.2.place < before.last {} := by
  obtain ⟨-, hagain, hlater⟩ := h.follows
  rw [h.place]
  intro hlt
  refine hlater.not_last_lt_start (lt_of_lt_of_not_lt hlt ?_)
  rw [last_append]
  exact hagain.not_last_lt_start

theorem senderExpected_eq (h : Parted u before again later) : u.sender.1.senderExpected u.receiver.receiver.expected =
      .ok ((u.sender.2.frames.from_ { command := (before.last {}).command }).map (·.2)) := by
  obtain ⟨hfol, hlast⟩ := h.kept.follows_unconfirmed
  have hrep : u.sender.2.replay u.sender.1.timeout = { command := u.sender.2.confirmed } := if_neg h.timeout
  have hwin := h.kept.window
  rw [hrep, commandWindow] at hwin
  simp only at hwin
  have hle := h.command_le_place
  have hcon := h.confirmed
  have hbef : u.receiver.receiver.expected.lt u.sender.1.sender.replayPoint = false := by
    rw [h.expected, h.kept.replayPoint, hrep, ← Bool.not_eq_true,
      lt_point ⟨by simp only; omega, by simp only; omega⟩,
      lt_def]
    simp only
    omega
  have hafter : u.sender.1.sender.sendPoint.lt u.receiver.receiver.expected = false := by
    rw [h.expected, h.kept.sendPoint, ← Bool.not_eq_true, lt_point ⟨by omega, by omega⟩]
    exact h.not_place_lt
  have hlater : ¬ { command := (before.last {}).command } < ({ command := u.sender.2.confirmed } : Place) := by
    rw [lt_def]
    simp only
    omega
  have hloop := replayFrom_eq hfol hlater (by rw [hlast]; exact hle) (by simp only; omega)
  rw [from_from hlater] at hloop
  rw [SessionState.senderExpected, hbef, hafter, h.expected, h.kept.replayList, if_neg h.timeout,
    h.kept.replayPoint, hrep]
  simp only [Place.point] at hloop ⊢
  rw [hloop]
  exact if_pos rfl

theorem resume (h : Parted u before again later) :
    ∃ v before' again' later', u.resume = some v ∧ Parted v before' again' later' := by
  obtain ⟨hbef, hagain, hlater⟩ := h.follows
  obtain ⟨old, hold, hfol, hlast⟩ := hbef.split (by rw [lt_def]; simp) le_rfl
  have hrest : (again ++ later).from_ { command := (before.last {}).command } = again ++ later := by
    refine from_eq_self fun x hx => ?_
    have hlt : before.last {} < x.1 :=
      (Follows.append_iff.2 ⟨hagain, by rw [← last_append]; exact hlater⟩).lt hx
    rw [lt_def] at hlt ⊢
    simp only
    omega
  have hcha : u.sender.2.frames.from_ { command := (before.last {}).command } =
      before.from_ { command := (before.last {}).command } ++ (again ++ later) := by
    rw [h.frames, from_append, hrest]
  have hset : u.receiver.receiver.received.lt (Place.point { command := (before.last {}).command }) = false := by
    rw [h.received, ← Bool.not_eq_true, lt_point ⟨by rw [h.same]; simp, by rw [h.same]; simp⟩, lt_def, h.same]
    simp
  have hres : u.resume = some { u with
      receiver := { u.receiver with receiver := { u.receiver.receiver with
        expected := Place.point { command := (before.last {}).command } } }
      channel := (u.sender.2.frames.from_ { command := (before.last {}).command }).map (·.2) } := by
    rw [Session.resume, h.senderExpected_eq]
    have hpoint : ({ command := u.receiver.receiver.expected.command } : SessionPoint) =
        Place.point { command := (before.last {}).command } := by
      rw [h.expected]
      rfl
    rw [hpoint, SessionState.receiverSetCommandPoint, hset, Bool.and_false]
    rfl
  refine ⟨_, old, before.from_ { command := (before.last {}).command } ++ again, later, hres, ?_⟩
  have happ : old ++ (before.from_ { command := (before.last {}).command } ++ again) = before ++ again := by
    rw [← append_assoc, ← hold]
  exact { h with
    frames := by rw [h.frames, ← append_assoc, ← append_assoc, happ]
    channel := by rw [hcha, append_assoc]
    accepted := by rw [happ]; exact h.accepted
    expected := by rw [hlast]
    received := by rw [happ]; exact h.received
    same := by rw [happ, hlast]; exact h.same
    confirmed := by rw [hlast]; exact h.confirmed }

theorem step (h : Parted u before again later) {event : SessionEvent} (hok : u.Ok event)
    (hstep : u.step event = some v) : ∃ before' again' later', Parted v before' again' later' := by
  cases event with
  | send f =>
    obtain ⟨x, hx⟩ := h.send hok hstep
    exact ⟨_, _, _, hx⟩
  | recordFlush => cases hstep; exact ⟨_, _, _, h.recordFlush⟩
  | confirmed p => cases hstep; exact ⟨_, _, _, h.confirm hok⟩
  | completed commands => cases hstep; exact ⟨_, _, _, h.complete hok⟩
  | deliver =>
    have hcha : u.channel ≠ [] := by
      intro hnil
      rw [Session.step, Session.deliver, hnil] at hstep
      cases hstep
    obtain ⟨v', _, _, _, hv', hp⟩ := h.deliver hcha
    rw [Session.step, hv'] at hstep
    cases hstep
    exact ⟨_, _, _, hp⟩
  | resume =>
    obtain ⟨v', _, _, _, hv', hp⟩ := h.resume
    rw [Session.step, hv'] at hstep
    cases hstep
    exact ⟨_, _, _, hp⟩

theorem accepted_eq (h : Parted u before again later) (hcha : u.channel = []) :
    u.accepted = u.sent ∧ u.receiver.receiver.received = (lossless u.sent).receiver.received := by
  have hnil : again ++ later = [] := map_eq_nil_iff.1 (h.channel.symm.trans hcha)
  obtain ⟨rfl, rfl⟩ := append_eq_nil_iff.1 hnil
  have hfra : u.sender.2.frames = before := by rw [h.frames]; simp
  have hacc : u.accepted = before.map (·.2) := by rw [h.accepted, append_nil]
  rw [Session.sent, lossless, hfra, received_foldl h.follows.1 rfl rfl rfl, h.received, append_nil]
  exact ⟨hacc, rfl⟩

/-- What is on the way can be delivered, to the last frame. -/
theorem drain (h : Parted u before again later) :
    ∃ v, Run Session.step Session.Ok u (List.replicate u.channel.length .deliver) v ∧ v.sender = u.sender ∧
      v.channel = [] ∧ v.accepted = v.sent ∧
        v.receiver.receiver.received = (lossless v.sent).receiver.received := by
  generalize hn : u.channel.length = n
  induction n generalizing u before again later with
  | zero =>
    have hnil := length_eq_zero_iff.1 hn
    exact ⟨u, .nil _, rfl, hnil, h.accepted_eq hnil⟩
  | succ n ih =>
    have hcha : u.channel ≠ [] := by
      intro hnil
      rw [hnil] at hn
      cases hn
    obtain ⟨v, _, _, _, hv, hp⟩ := h.deliver hcha
    obtain ⟨hsen, hleng⟩ : v.sender = u.sender ∧ v.channel.length = n := by
      rw [Session.deliver] at hv
      split at hv
      · cases hv
      next f fs hfs =>
      rw [hfs] at hn
      split at hv
      · cases hv
        exact ⟨rfl, Nat.succ.inj hn⟩
      · cases hv
    obtain ⟨w, hrun, hw, hrest⟩ := ih hp hleng
    exact ⟨w, .cons trivial hv hrun, hw.trans hsen, hrest⟩

end Parted

/-- In every run of a session that is resumed any number of times, the frames accepted are the
first of those sent, each once and in order; the session can be resumed; and when what is on the way
is delivered, all that was sent has been accepted, and the receiver is where it would be had
nothing been lost. -/
theorem resumed_exactly_once (flushLimit hardLimit : Nat) (timeout : BitVec 32) (htimeout : timeout ≠ 0)
    (events : List SessionEvent) (u : Session)
    (hrun : Run Session.step Session.Ok
      { sender := ({ replayFlushLimit := flushLimit, replayHardLimit := hardLimit, timeout := timeout }, {}) }
      events u) :
    u.accepted <+: u.sent ∧ (∃ v, u.step .resume = some v) ∧
      ∃ v, Run Session.step Session.Ok u (List.replicate u.channel.length .deliver) v ∧ v.sender = u.sender ∧
        v.channel = [] ∧ v.accepted = v.sent ∧
          v.receiver.receiver.received = (lossless v.sent).receiver.received := by
  have hstart : Kept { replayFlushLimit := flushLimit, replayHardLimit := hardLimit, timeout := timeout } {} :=
    Kept.setTimeout (Kept.start flushLimit hardLimit) (.inl rfl)
  obtain ⟨before, again, later, h⟩ := hrun.keep (I := fun u => ∃ before again later, Parted u before again later)
    (fun hs hok hstep => by
      obtain ⟨_, _, _, h⟩ := hs
      exact h.step hok hstep) ⟨[], [], [], Parted.start _ hstart htimeout⟩
  obtain ⟨v, _, _, _, hv, -⟩ := h.resume
  refine ⟨⟨later.map (·.2), ?_⟩, ⟨v, hv⟩, h.drain⟩
  rw [h.accepted, Session.sent, h.frames, ← append_assoc]
  exact map_append.symm

/-- The second command is lost after its first frame, and again while that is replayed; the first
command is confirmed and completed in between. -/
theorem resumed_exactly_once_twice : ∃ u, Run Session.step Session.Ok { sender := ({ timeout := 1 }, {}) }
      [.send (commandFrame true true), .send (commandFrame true false), .send (commandFrame false true),
        .deliver, .deliver, .resume, .confirmed { command := 1 }, .completed ⟨[⟨0, 1⟩]⟩,
          .deliver, .resume] u ∧
    u.accepted = [commandFrame true true, commandFrame true false] ∧
    u.channel = [commandFrame true false, commandFrame false true] ∧
    ∃ v, Run Session.step Session.Ok u [.deliver, .deliver] v ∧ v.accepted = v.sent := by
  refine exists_run (Q := fun u => u.accepted = [commandFrame true true, commandFrame true false] ∧
    u.channel = [commandFrame true false, commandFrame false true]) (by decide +kernel)
    fun u hrun ⟨hacc, hcha⟩ => ⟨hrun, hacc, hcha, ?_⟩
  obtain ⟨-, -, v, hv, -, -, hsent, -⟩ := resumed_exactly_once _ _ 1 (by decide) _ u hrun
  rw [hcha] at hv
  exact ⟨v, hv, hsent⟩

/-- Without a timeout nothing is kept for replay, and what is lost is not sent again. -/
theorem lost_without_timeout :
    (exec Session.step Session.Ok { sender := ({}, {}) } [.send (commandFrame true true), .resume]).map
      (fun u => (u.sent, u.channel, u.accepted)) = some ([commandFrame true true], [], []) := by
  decide +kernel

end QB.Spec
