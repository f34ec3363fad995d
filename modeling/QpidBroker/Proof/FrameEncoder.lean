import QpidBroker.Proof.FrameDecoder

/-!
# Frames survive the wire

What `AMQFrame::encode` writes of a frame is a header that is read back (`reads_header`) and
the octets of the body (`Coded`), of which `AMQFrame::decode` makes that body again
(`Coded.decodes`). `Coded.feed_frame` is the decoder on one frame; the induction is over
the frames that are sent.
-/

namespace QB.Spec

open Codec Impl Buffer List AMQFrame

variable {M P : Type} {B : BodyDecoders M P} {E : BodyEncoders M P} {body : AMQBody M P} {o : Octets}

/-! ## Bodies -/

theorem Rounds.loop {p q : P} (h : Rounds B p o q) {fuel : Nat} (hfuel : o.length ≤ fuel) :
    headerLoop B fuel 0 p o = .ok (q, []) := by
  induction h generalizing fuel with
  | nil => cases fuel <;> rfl
  | @cons p q r len type decode o rest hd ho h ih =>
    simp only [length_append, Octets.length_ofNat] at hfuel
    obtain ⟨fuel, rfl⟩ : ∃ n, fuel = n + 1 := ⟨fuel - 1, by omega⟩
    have hround : Reads (decodeRound B p) (.ofNat 4 len.toNat ++ (.ofNat 2 type.toNat ++ o)) q := by
      refine (reads_getLong len).bind ((reads_getShort type).bind ?_)
      simpa only [decodeProperties, hd] using ho
    have hcall := hround rest
    simp only [append_assoc] at hcall
    rw [headerLoop]
    dsimp only
    rw [if_pos (by simp only [length_append, Octets.length_ofNat]; omega), bind_apply_ok hcall]
    exact ih (by omega)

/-- `AMQFrame::decode` makes the body again of its octets. -/
theorem Coded.decodes (h : Coded B E body o) :
    decodeBody B (body.type E) o.length o = .ok (body, []) := by
  cases h with
  | @method m o decode htype hsize hwrites hd hreads =>
    have hbody (n : Nat) : Reads (decodeBody B (E.type m) n)
        ([E.amqpClassId m] ++ ([E.amqpMethodId m] ++ o)) (.method m) := by
      rw [decodeBody, if_pos htype]
      refine (reads_getOctet _).bind ((reads_getOctet _).bind ?_)
      rw [hd]
      exact hreads.map _
    have hall := hbody ([E.amqpClassId m] ++ ([E.amqpMethodId m] ++ o)).length []
    rwa [append_nil] at hall
  | header hsize hwrites hreads =>
    have hloop := hreads.loop le_rfl
    rw [← Nat.sub_self o.length] at hloop
    exact bind_eq_ok.2 ⟨_, hloop, rfl⟩
  | content =>
    have hbody := (reads_getRawData o).map (AMQBody.content (M := M) (P := P)) []
    rwa [append_nil] at hbody
  | heartbeat => rfl

/-! ## Frames -/

variable {f : AMQFrame M P}

theorem Coded.toNat_encodedSize (h : Coded B E f.body o) (hsize : 12 + o.length < 2 ^ 16) :
    (f.encodedSize E).toNat = 12 + o.length := by
  unfold encodedSize frameOverhead
  generalize f.body = body at h
  cases h with
  | method htype hlen =>
    simp only [length_append, length_singleton] at hsize ⊢
    simp only [AMQBody.encodedSize]
    bv_omega
  | header hlen =>
    simp only [AMQBody.encodedSize]
    bv_omega
  | content =>
    simp only [AMQBody.encodedSize]
    bv_omega
  | heartbeat => rfl

section

variable (E) (f)

/-- The octets of the header, and what is read of them. -/
def headerOctets : Octets :=
  [f.flags] ++ ([f.body.type E] ++ (Octets.ofNat 2 ((f.encodedSize E).setWidth 16).toNat ++
    ([0] ++ ([0x0f &&& f.track E] ++
    (Octets.ofNat 2 f.channel.toNat ++ Octets.ofNat 4 (0 : BitVec 32).toNat)))))

def headerRead : Header :=
  ⟨f.flags, f.body.type E, (f.encodedSize E).setWidth 16, 0x0f &&& f.track E, f.channel⟩

end

theorem length_headerOctets : (headerOctets E f).length = 12 := by
  simp only [headerOctets, length_append, length_singleton, Octets.length_ofNat]

theorem Coded.writes (h : Coded B E f.body o) : Writes .outOfBounds (f.encode E) (headerOctets E f ++ o) := by
  have hbody : Writes .outOfBounds (do f.body.encodeIds E; f.body.encode E) o := by
    generalize f.body = body at h
    cases h with
    | @method m o _ _ _ hwrites =>
      have hids := (writes_putRawData [E.amqpClassId m]).bind (writes_putRawData [E.amqpMethodId m])
      exact hids.bind hwrites
    | header hlen hwrites => exact Writes.nil.bind hwrites
    | content => exact Writes.nil.bind (writes_putRawData _)
    | heartbeat => exact Writes.nil.bind Writes.nil
  have hw := (writes_putRawData [f.flags]).bind <| (writes_putRawData [f.body.type E]).bind <|
    (writes_putRawData (Octets.ofNat 2 ((f.encodedSize E).setWidth 16).toNat)).bind <| (writes_putRawData [0]).bind <|
    (writes_putRawData [0x0f &&& f.track E]).bind <| (writes_putRawData (Octets.ofNat 2 f.channel.toNat)).bind <|
    (writes_putRawData (Octets.ofNat 4 (0 : BitVec 32).toNat)).bind hbody
  simp only [headerOctets, append_assoc]
  exact hw

theorem flags_eq (f : AMQFrame M P) : (f.flags &&& 0xc0) >>> 6 = 0 ∧ f.flags &&& 0x30 = 0 ∧
    (f.flags &&& 0x08 != 0) = f.bof ∧
    (f.flags &&& 0x04 != 0) = f.eof ∧ (f.flags &&& 0x02 != 0) = f.bos ∧ (f.flags &&& 0x01 != 0) = f.eos := by
  unfold flags
  cases f.bof <;> cases f.eof <;> cases f.bos <;> cases f.eos <;> decide

theorem reads_header (hsize : 12 ≤ ((f.encodedSize E).setWidth 16).toNat) :
    Reads decodeHeader (headerOctets E f) (headerRead E f) := by
  obtain ⟨hversion, hbits, -⟩ := flags_eq f
  have htrack : (0x0f &&& f.track E) &&& 0xf0 = 0 := by
    unfold track
    split <;> rfl
  refine (reads_getOctet _).bind (reads_throwIf_bind (by rw [hversion]; rfl) ?_)
  refine (reads_getOctet _).bind ((reads_getShort _).bind (reads_throwIf_bind ?_ ?_))
  · exact decide_eq_false (Nat.not_lt.2 hsize)
  refine (reads_getOctet _).bind ((reads_getOctet _).bind ((reads_getShort _).bind ?_))
  rw [← append_nil (Octets.ofNat 4 _)]
  exact (reads_getLong _).bind (reads_throwIf_bind (by rw [hbits, htrack]; rfl) (Reads.pure _))

theorem make_headerRead (f : AMQFrame M P) : make (headerRead E f) f.body = onTrack E f := by
  obtain ⟨-, -, hbof, heof, hbos, heos⟩ := flags_eq f
  have htrack : (0x0f &&& f.track E) &&& 0x0f = f.track E := by
    unfold track
    split <;> rfl
  simp only [make, headerRead, hbof, heof, hbos, heos, htrack, onTrack]

/-- One frame in front of the rest of the stream. -/
theorem Coded.feed_frame (ho : Coded B E f.body o) (hsize : 12 + o.length < 2 ^ 16) {s : Octets} {r : Received M P}
    (hfeed : ∀ n buffers, buffers.flatten = s → buffers.flatten.length + buffers.length ≤ n →
      feed B n [] buffers = r)
    (n : Nat) (buffers : List Octets) (hs : buffers.flatten = headerOctets E f ++ o ++ s)
    (hn : buffers.flatten.length + buffers.length ≤ n) :
    feed B n [] buffers = r.after (onTrack E f) (12 + o.length) := by
  have hwhole : (headerOctets E f ++ o).length = 12 + o.length := by rw [length_append, length_headerOctets]
  have hframeSize : (headerRead E f).frameSize.toNat = 12 + o.length := by
    simp only [headerRead, BitVec.toNat_setWidth, ho.toNat_encodedSize hsize]
    omega
  have hheader := reads_header (E := E) (f := f) (hframeSize ▸ Nat.le_add_right 12 _) (o ++ s)
  rw [← append_assoc] at hheader
  have hh := headerOf_of_decodeHeader (by rw [length_append, hwhole]; omega) hheader
  have hbody : bodyOf B (headerRead E f) ((headerOctets E f ++ o ++ s).take (headerRead E f).frameSize.toNat) =
      .ok (f.body, []) := by
    rw [hframeSize, ← hwhole, take_left, bodyOf, hframeSize]
    have hdrop : (headerOctets E f ++ o).drop frameOverhead = o := drop_left' length_headerOctets
    rw [hdrop, frameOverhead, Nat.add_sub_cancel_left]
    exact ho.decodes
  have hrest := feed_filled hh (by rw [hframeSize, length_append, hwhole]; omega) hbody
    (by rw [hframeSize, ← hwhole, drop_left]; exact hfeed) n [] buffers hs (by rw [hframeSize]; simp) hn
  rw [hrest, make_headerRead, hframeSize]

/-- **Frames survive the wire.** Frames that are not longer than a size of 16 bits can tell, and whose methods and
properties their decoders read back, are written in as many octets as `encodedSize` tells; and however these octets
are cut into buffers, the decoder makes of them these frames, each with the track for its sub-channel, and nothing
else. -/
theorem frames_survive_the_wire (frames : List (AMQFrame M P))
    (hcoded : ∀ f ∈ frames, ∃ o, Coded B E f.body o ∧ 12 + o.length < 2 ^ 16) :
    ∃ s : Octets, s.length = (frames.map fun f => (f.encodedSize E).toNat).sum ∧
      Writes .outOfBounds (frames.forM (·.encode E)) s ∧
      ∀ buffers : List Octets, buffers.flatten = s →
        receive B buffers = ⟨frames.map (onTrack E), none, []⟩ := by
  suffices h : ∃ s : Octets, s.length = (frames.map fun f => (f.encodedSize E).toNat).sum ∧
      Writes .outOfBounds (frames.forM (·.encode E)) s ∧
      ∀ n buffers, buffers.flatten = s → buffers.flatten.length + buffers.length ≤ n →
        feed B n [] buffers = ⟨frames.map (onTrack E), none, []⟩ by
    obtain ⟨s, hlen, hwrites, hfeed⟩ := h
    exact ⟨s, hlen, hwrites, fun buffers hs => hfeed _ buffers hs le_rfl⟩
  induction frames with
  | nil =>
    refine ⟨[], rfl, Writes.nil, fun n buffers hs hn => ?_⟩
    exact feed_stalled (fun l hl => decode_short (by simp [prefix_nil.1 hl])) (fun h => by simp at h) n [] buffers
      hs (by simp) hn
  | cons f frames ih =>
    obtain ⟨s, hlen, hwrites, hfeed⟩ := ih fun g hg => hcoded g (mem_cons_of_mem f hg)
    obtain ⟨o, ho, hsize⟩ := hcoded f mem_cons_self
    refine ⟨headerOctets E f ++ o ++ s, ?_, ho.writes.bind hwrites, ho.feed_frame hsize hfeed⟩
    rw [length_append, length_append, length_headerOctets, hlen, map_cons, sum_cons, ho.toNat_encodedSize hsize]

/-- Two of the generated decoders: the control `session.timeout` (class 2, code 6), whose only field is a number
that bit 8 of its flags tells to be there, and of `delivery-properties` (type `0x0401`) the priority, told by bit 11. -/
def timeoutDecoders : BodyDecoders (BitVec 32) (Option (BitVec 8)) where
  method c m :=
    if c = 2 ∧ m = 6 then .ok (getShort >>= fun flags => if flags &&& 0x0100 ≠ 0 then getLong else pure 0)
    else .error (.framingError "")
  properties := none
  property p _ type :=
    if type = 0x0401 then
      some (getShort >>= fun flags => if flags &&& 0x0800 ≠ 0 then some <$> getOctet else pure p)
    else none
  method_stable h := by
    split at h <;> cases h
    refine ((Stable.take _ _).map _).bind fun flags => ?_
    split
    · exact (Stable.take _ _).map _
    · exact Stable.pure _
  property_stable h := by
    split at h <;> cases h
    refine ((Stable.take _ _).map _).bind fun flags => ?_
    split
    · exact ((Stable.take _ _).map _).map _
    · exact Stable.pure _

/-- The encoders, with the type of a control; the field is always set. -/
def timeoutEncoders : BodyEncoders (BitVec 32) (Option (BitVec 8)) where
  type _ := 0
  amqpClassId _ := 2
  amqpMethodId _ := 6
  methodSize _ := 6
  method timeout := do putShort 0x0100; putLong timeout
  propertiesSize p := if p.isSome then 9 else 0
  properties
    | none => pure ()
    | some priority => do putLong 5; putShort 0x0401; putShort 0x0800; putOctet priority

/-- A control, a header and the content that follow each other, and a heartbeat. -/
theorem frames_survive_the_wire_timeout :
    let frames : List (AMQFrame (BitVec 32) (Option (BitVec 8))) :=
      [⟨true, false, true, true, 1, 0, .method 300⟩, ⟨false, false, true, true, 1, 0, .header (some 9)⟩,
        ⟨false, true, true, true, 1, 0, .content [1, 2, 3]⟩, ⟨true, true, true, true, 0, 0, .heartbeat⟩]
    ∃ s : Octets, s.length = 68 ∧ Writes .outOfBounds (frames.forM (·.encode timeoutEncoders)) s ∧
      ∀ buffers : List Octets, buffers.flatten = s →
        receive timeoutDecoders buffers = ⟨frames.map (onTrack timeoutEncoders), none, []⟩ := by
  intro frames
  refine frames_survive_the_wire (B := timeoutDecoders) (E := timeoutEncoders) frames fun f hf => ?_
  simp only [frames, mem_cons, not_mem_nil, or_false] at hf
  rcases hf with rfl | rfl | rfl | rfl
  · refine ⟨_, .method (.inl rfl) (o := Octets.ofNat 2 0x0100 ++ Octets.ofNat 4 300) rfl ?_ rfl ?_, by decide⟩
    · exact (writes_putRawData _).bind (writes_putRawData _)
    · exact (reads_getShort 0x0100).bind (reads_getLong 300)
  · refine ⟨_, .header rfl
      (o := Octets.ofNat 4 5 ++ (Octets.ofNat 2 0x0401 ++ ((Octets.ofNat 2 0x0800 ++ [9]) ++ []))) ?_ ?_, by decide⟩
    · exact (writes_putRawData _).bind ((writes_putRawData _).bind ((writes_putRawData _).bind (writes_putRawData _)))
    · exact @Rounds.cons _ _ _ none (some 9) _ 5 0x0401 _ _ _ rfl
        ((reads_getShort 0x0800).bind ((reads_getOctet 9).map _)) .nil
  · exact ⟨_, .content, by decide⟩
  · exact ⟨_, .heartbeat, by decide⟩

end QB.Spec
