import QpidBroker.Spec.FrameStream

/-!
# Chunks of a stream of frames

What a call of the decoder does depends on the frame that is being decoded and on how much
of the stream came so far (`decode_cases`):

* until the frame is complete, a call takes what there is of it and returns no frame;
* then the frame comes from the buffer, which may go on, or from a fragment that holds the
  octets of the declared size and no others.

One induction over the calls (`feed_eq`) turns this into what comes of the stream, for any
way of cutting it. The two ways to a frame agree if the body takes all of its octets.
-/

namespace QB.Impl

open Codec Buffer List

variable {M P : Type} {B : BodyDecoders M P}

/-! ## Headers -/

namespace AMQFrame

/-- The header in the first twelve octets. -/
def headerOf (l : Octets) : Except CodingError Header :=
  let flags := Octets.word 8 (l.take 1)
  let frameSize := Octets.word 16 ((l.drop 2).take 2)
  let field1 := Octets.word 8 ((l.drop 5).take 1)
  if (flags &&& 0xc0) >>> 6 != 0 then .error (.framingError "Framing version unsupported")
  else if frameSize.toNat < frameOverhead then
    .error (.framingError ("Frame size too small " ++ toString frameSize.toNat))
  else if flags &&& 0x30 != 0 || Octets.word 8 ((l.drop 4).take 1) != 0 || field1 &&& 0xf0 != 0 then
    .error (.framingError "Reserved bits not zero")
  else .ok ⟨flags, Octets.word 8 ((l.drop 1).take 1), frameSize, field1, Octets.word 16 ((l.drop 6).take 2)⟩

variable {l t r : Octets}

theorem decodeHeader_eq (h : 12 ≤ l.length) : decodeHeader l = (headerOf l).map fun x => (x, l.drop 12) := by
  have hd : ∀ n, (l.drop n).length = l.length - n := fun n => length_drop
  unfold decodeHeader headerOf
  rw [bind_apply_ok (getOctet_eq (by omega)), throwIf_bind]
  simp only [apply_ite (Except.map _)]
  refine if_congr Iff.rfl rfl ?_
  rw [bind_apply_ok (getOctet_eq (by rw [hd]; omega)), drop_drop,
    bind_apply_ok (getShort_eq (by rw [hd]; omega)), drop_drop, throwIf_bind]
  refine if_congr (by simp) rfl ?_
  rw [bind_apply_ok (getOctet_eq (by rw [hd]; omega)), drop_drop,
    bind_apply_ok (getOctet_eq (by rw [hd]; omega)), drop_drop,
    bind_apply_ok (getShort_eq (by rw [hd]; omega)), drop_drop,
    bind_apply_ok (getLong_eq (by rw [hd]; omega)), drop_drop, throwIf_bind]
  rfl

theorem take_drop_append {k n : Nat} (h : k + n ≤ l.length) : ((l ++ t).drop k).take n = (l.drop k).take n := by
  rw [drop_append_of_le_length (by omega), take_append_of_le_length (by rw [length_drop]; omega)]

theorem headerOf_append (h : 12 ≤ l.length) : headerOf (l ++ t) = headerOf l := by
  have h0 : (l ++ t).take 1 = l.take 1 := take_append_of_le_length (by omega)
  unfold headerOf
  rw [h0, take_drop_append (by omega), take_drop_append (by omega), take_drop_append (by omega),
    take_drop_append (by omega), take_drop_append (by omega)]

theorem decodeSize_append (h : 4 ≤ l.length) : decodeSize (l ++ t) = decodeSize l := by
  rw [decodeSize, take_drop_append (by omega)]
  rfl

theorem frameSize_of_headerOf {h : Header} (hh : headerOf l = .ok h) :
    h.frameSize.toNat = decodeSize l ∧ 12 ≤ h.frameSize.toNat := by
  unfold headerOf at hh
  simp only at hh
  split at hh
  · cases hh
  split at hh
  · cases hh
  rename_i hsize
  split at hh
  · cases hh
  · cases hh
    exact ⟨rfl, by simpa [frameOverhead] using hsize⟩

/-! ## Bodies -/

theorem decodeProperties_stable (p : P) (len : BitVec 32) (type : BitVec 16) :
    Stable (decodeProperties B p len type) := by
  unfold decodeProperties
  cases hd : B.property p len type with
  | none => exact Stable.throw _
  | some d => exact B.property_stable hd

theorem decodeRound_stable (p : P) : Stable (decodeRound B p) :=
  ((Stable.take _ _).map _).bind fun len => ((Stable.take _ _).map _).bind fun type =>
    decodeProperties_stable p len type

/-- The loop counts from the end of the body, so it does not see what follows. -/
theorem headerLoop_append {fuel limit : Nat} {p a : P} (h : headerLoop B fuel limit p l = .ok (a, r))
    (t : Octets) : headerLoop B fuel (limit + t.length) p (l ++ t) = .ok (a, r ++ t) := by
  induction fuel generalizing p l with
  | zero => cases h; rfl
  | succ fuel ih =>
    simp only [headerLoop] at h ⊢
    by_cases hl : limit + 2 < l.length
    · rw [if_pos hl] at h
      rw [if_pos (by rw [length_append]; omega)]
      obtain ⟨⟨q, m⟩, hq, hm⟩ := bind_eq_ok.1 h
      rw [bind_apply_ok ((decodeRound_stable p).append hq t)]
      exact ih hm
    rw [if_neg hl] at h
    rw [if_neg (by rw [length_append]; omega)]
    cases h
    rfl

theorem decodeBody_append {type : BitVec 8} {size : Nat} {a : AMQBody M P} (hsize : size ≤ l.length)
    (h : decodeBody B type size l = .ok (a, r)) (t : Octets) :
    decodeBody B type size (l ++ t) = .ok (a, r ++ t) := by
  unfold decodeBody at h ⊢
  split at h
  · rename_i htype
    rw [if_pos htype]
    refine Stable.append (((Stable.take _ _).map _).bind fun c => ((Stable.take _ _).map _).bind fun m => ?_) h t
    cases hd : B.method c m with
    | error e => exact Stable.throw _
    | ok d => exact (B.method_stable hd).map _
  rename_i h0
  rw [if_neg h0]
  split at h
  · rename_i htype
    rw [if_pos htype]
    obtain ⟨⟨q, m⟩, hq, hm⟩ := bind_eq_ok.1 h
    cases hm
    refine bind_eq_ok.2 ⟨(q, r ++ t), ?_, rfl⟩
    have hlimit : (l ++ t).length - size = l.length - size + t.length := by rw [length_append]; omega
    rw [decodeHeaderBody, hlimit]
    exact headerLoop_append hq t
  rename_i h2
  rw [if_neg h2]
  split at h
  · rename_i h3
    rw [if_pos h3]
    exact ((Stable.take _ _).map _).append h t
  rename_i h3
  rw [if_neg h3]
  split at h
  · rename_i h8
    rw [if_pos h8]
    exact (Stable.pure _).append h t
  · cases h

/-! ## Frames -/

theorem decode_short (h : l.length < 12) : decode B l = .ok (none, l) := if_pos h

section header

variable {l : Octets} (hlen : 12 ≤ l.length)
include hlen

/-- Once there is a header it is the same whatever follows, and so is the size. -/
theorem decode_of_header : decode B l = headerOf l >>= fun h =>
    if l.length < h.frameSize.toNat then .ok (none, l)
    else (Spec.bodyOf B h l).map fun b => (some (make h b.1), b.2) := by
  rw [decode, if_neg (show ¬ l.length < frameOverhead from Nat.not_lt.2 hlen), decodeHeader_eq hlen]
  cases hh : headerOf l with
  | error e => rfl
  | ok h =>
    have hiff : (l.drop 12).length < h.frameSize.toNat - frameOverhead ↔ l.length < h.frameSize.toNat := by
      simp only [length_drop, frameOverhead]
      omega
    exact if_congr hiff rfl rfl

theorem decode_refused {e : CodingError} (hh : headerOf l = .error e) : decode B l = .error e := by
  rw [decode_of_header hlen, hh]
  rfl

theorem decode_incomplete {h : Header} (hh : headerOf l = .ok h) (hsize : l.length < h.frameSize.toNat) :
    decode B l = .ok (none, l) := by
  rw [decode_of_header hlen, hh]
  exact if_pos hsize

theorem decode_complete {h : Header} (hh : headerOf l = .ok h) (hsize : h.frameSize.toNat ≤ l.length) :
    decode B l = (Spec.bodyOf B h l).map fun b => (some (make h b.1), b.2) := by
  rw [decode_of_header hlen, hh]
  exact if_neg (Nat.not_lt.2 hsize)

end header

theorem bodyOf_append {h : Header} {a : AMQBody M P} (hlen : 12 ≤ l.length)
    (hsize : h.frameSize.toNat ≤ l.length) (hbody : Spec.bodyOf B h l = .ok (a, r)) (t : Octets) :
    Spec.bodyOf B h (l ++ t) = .ok (a, r ++ t) := by
  unfold Spec.bodyOf at hbody ⊢
  rw [drop_append_of_le_length (by simpa [frameOverhead] using hlen)]
  exact decodeBody_append (by simp only [length_drop]; omega) hbody t

end AMQFrame

namespace FrameDecoder

open AMQFrame

/-! ## Calls -/

variable {F b : Octets}

theorem decode_nil (hb : b ≠ []) : decode B [] b = decodeBuffer B b := by
  rw [decode, if_neg hb, if_pos rfl]

section fragment

variable (hF : F ≠ []) (hb : b ≠ [])
include hF hb

theorem decode_few (h : (F ++ b).length < 4) : decode B F b = .ok ⟨none, F ++ b, []⟩ := by
  rw [length_append] at h
  have h1 : b.length ≤ 4 - F.length := by omega
  have h2 : (F ++ b).length < 4 := by rw [length_append]; omega
  rw [decode, if_neg hb, if_neg hF, if_pos (by simp only [decodeSizeMin]; omega)]
  simp only [append, decodeSizeMin, take_of_length_le h1, drop_eq_nil_of_le h1]
  exact if_neg (Nat.not_le.2 h2)

variable (h : 4 ≤ (F ++ b).length)
include h

/-- With a fragment and four octets, what is decoded are the octets of the declared size. -/
theorem decode_sized : decode B F b =
    if decodeSize (F ++ b) ≤ max 4 F.length then
      .error (.thrown (.framingError ("Frame size " ++ toString (decodeSize (F ++ b)) ++ " is too small.")))
    else decodeWhole B ((F ++ b).take (decodeSize (F ++ b))) ((F ++ b).drop (decodeSize (F ++ b))) := by
  -- the fragment, brought to four octets if it has fewer
  obtain ⟨F', b', hcall, hFb, hlen⟩ : ∃ F' b', decode B F b = decodeFragment B F' b' ∧ F' ++ b' = F ++ b ∧
      F'.length = max 4 F.length := by
    rw [length_append] at h
    rw [decode, if_neg hb, if_neg hF]
    by_cases hmin : F.length < decodeSizeMin
    · rw [if_pos hmin]
      refine ⟨_, _, rfl, by simp [append], ?_⟩
      simp only [decodeSizeMin, append, length_append, length_take] at hmin ⊢
      omega
    rw [if_neg hmin]
    refine ⟨F, b, rfl, rfl, ?_⟩
    simp only [decodeSizeMin] at hmin
    omega
  have hsize : decodeSize (F ++ b) = decodeSize F' := by rw [← hFb, decodeSize_append (by omega)]
  rw [hcall, decodeFragment, if_pos (show decodeSizeMin ≤ F'.length by simp only [decodeSizeMin]; omega),
    hsize, ← hlen, ← hFb]
  by_cases hn : decodeSize F' ≤ F'.length
  · rw [if_pos hn, if_pos hn]
  have hle : F'.length ≤ decodeSize F' := by omega
  rw [if_neg hn, if_neg hn, take_append, drop_append, take_of_length_le hle, drop_eq_nil_of_le hle]
  rfl

end fragment

/-- A call while the frame `AMQFrame::decode` sees in the stream is not complete before its
first `K` octets. -/
theorem decode_cases {s : Octets} {K : Nat} (hK4 : 4 ≤ K ∨ s.length < K)
    (hnone : ∀ l, l <+: s → l.length < K → AMQFrame.decode B l = .ok (none, l))
    (hs : F ++ b <+: s) (hb : b ≠ []) (hF : F.length < K) :
    (∃ F' b', decode B F b = .ok ⟨none, F', b'⟩ ∧ F' ++ b' = F ++ b ∧ b'.length < b.length ∧
      F'.length < K) ∨
    (F = [] ∧ K ≤ b.length ∧ decode B F b = decodeBuffer B b) ∨
    (4 ≤ (F ++ b).length ∧ decodeSize (F ++ b) ≤ max 4 F.length ∧ ∃ e, decode B F b = .error e) ∨
    (F.length < decodeSize (F ++ b) ∧ K ≤ ((F ++ b).take (decodeSize (F ++ b))).length ∧
      decode B F b = decodeWhole B ((F ++ b).take (decodeSize (F ++ b))) ((F ++ b).drop (decodeSize (F ++ b)))) := by
  have hpos : 0 < b.length := length_pos_iff.2 hb
  by_cases hF0 : F = []
  · subst hF0
    by_cases hK : K ≤ b.length
    · exact .inr (.inl ⟨rfl, hK, decode_nil hb⟩)
    · refine .inl ⟨b, [], ?_, by simp, by simpa using hpos, by omega⟩
      rw [decode_nil hb, decodeBuffer, hnone b hs (by omega)]
      simp [append]
  by_cases hfew : (F ++ b).length < 4
  · have hle := hs.length_le
    exact .inl ⟨F ++ b, [], decode_few hF0 hb hfew, append_nil _, hpos, by omega⟩
  have hsized := decode_sized (B := B) hF0 hb (Nat.not_lt.1 hfew)
  by_cases hsmall : decodeSize (F ++ b) ≤ max 4 F.length
  · rw [if_pos hsmall] at hsized
    exact .inr (.inr (.inl ⟨Nat.not_lt.1 hfew, hsmall, _, hsized⟩))
  rw [if_neg hsmall] at hsized
  generalize decodeSize (F ++ b) = n at *
  by_cases hK : K ≤ ((F ++ b).take n).length
  · exact .inr (.inr (.inr ⟨by omega, hK, hsized⟩))
  refine .inl ⟨(F ++ b).take n, (F ++ b).drop n, ?_, take_append_drop _ _, ?_, by omega⟩
  · rw [hsized, decodeWhole, hnone _ (( take_prefix _ _).trans hs) (by omega)]
  · rw [length_drop, length_append]
    omega

end FrameDecoder

end QB.Impl

namespace QB.Spec

open Impl List AMQFrame FrameDecoder

variable {M P : Type} {B : BodyDecoders M P} {s : Octets} {K : Nat}

/-! ## Streams -/

/-- What one call brings to the result `r` of a stream `s` whose first frame is complete
with `K` octets: nothing yet, the end, or the first frame. -/
inductive DecodeCall (B : BodyDecoders M P) (s : Octets) (K : Nat) (r : Received M P) (F b : Octets) : Prop where
  | none {F' b' : Octets} (h : decode B F b = .ok ⟨.none, F', b'⟩) (heq : F' ++ b' = F ++ b)
      (hlt : b'.length < b.length) (hF : F'.length < K)
  | failed {e : DecodeFailure} (h : decode B F b = .error e) (hr : r = { error := some 0 })
  | some {f : AMQFrame M P} {k : Nat} {b' : Octets} {r' : Received M P} (hk : 0 < k)
      (h : decode B F b = .ok ⟨.some f, [], b'⟩) (heq : F ++ b = s.take k ++ b') (hks : k ≤ s.length)
      (hF : F.length < k) (hr : r = r'.after f k)
      (hrest : ∀ n buffers, buffers.flatten = s.drop k → buffers.flatten.length + buffers.length ≤ n →
        feed B n [] buffers = r')

theorem Received.after_injective {f : AMQFrame M P} {k k' : Nat} {r r' : Received M P} (hk : k = k')
    (h : (r.after f k).Same (r'.after f k')) : r.Same r' := by
  subst hk
  exact ⟨(List.cons.inj h.1).2, Option.map_injective (add_left_injective k) h.2⟩

theorem feed_nil (n : Nat) (F : Octets) : feed B n F [] = { fragment := F } := by cases n <;> rfl

theorem feed_skip (n : Nat) (F : Octets) (buffers : List Octets) :
    feed B (n + 1) F ([] :: buffers) = feed B n F buffers := by simp [feed]

section call

variable {F F' b b' : Octets} {n : Nat} {buffers : List Octets} (hb : b ≠ [])
include hb

theorem feed_failed {e : DecodeFailure} (h : decode B F b = .error e) :
    feed B (n + 1) F (b :: buffers) = { error := some 0 } := by
  cases b with
  | nil => exact absurd rfl hb
  | cons x b => simp [feed, h]

theorem feed_none (h : decode B F b = .ok ⟨none, F', b'⟩) :
    feed B (n + 1) F (b :: buffers) = feed B n F' (b' :: buffers) := by
  cases b with
  | nil => exact absurd rfl hb
  | cons x b => simp [feed, h]

theorem feed_some {f : AMQFrame M P} (h : decode B F b = .ok ⟨some f, F', b'⟩) : feed B (n + 1) F (b :: buffers) =
      (feed B n F' (b' :: buffers)).after f (F.length + b.length - b'.length) := by
  cases b with
  | nil => exact absurd rfl hb
  | cons x b => simp [feed, h]

end call

/-- What comes of a stream, however it is cut. -/
theorem feed_eq {r : Received M P} (hend : s.length < K → r = { fragment := s })
    (hcall : ∀ F b, F ++ b <+: s → b ≠ [] → F.length < K → DecodeCall B s K r F b) :
    ∀ n F buffers, F ++ buffers.flatten = s → F.length < K → buffers.flatten.length + buffers.length ≤ n →
      feed B n F buffers = r := by
  intro n
  induction n with
  | zero =>
    intro F buffers hs hF hn
    obtain rfl : buffers = [] := eq_nil_of_length_eq_zero (by omega)
    rw [List.flatten_nil, append_nil] at hs
    subst hs
    exact (hend hF).symm
  | succ n ih =>
    intro F buffers hs hF hn
    rcases buffers with _ | ⟨b, buffers⟩
    · rw [List.flatten_nil, append_nil] at hs
      subst hs
      exact (hend hF).symm
    rw [flatten_cons, length_append, length_cons] at hn
    rw [flatten_cons, ← append_assoc] at hs
    by_cases hb : b = []
    · subst hb
      exact ih F buffers (by simpa using hs) hF (by omega)
    obtain ⟨h, heq, hlt, hF'⟩ | ⟨h, hr⟩ | ⟨hk, h, heq, hks, hFk, hr, hrest⟩ := hcall F b ⟨_, hs⟩ hb hF
    · rw [feed_none hb h]
      refine ih _ _ ?_ hF' ?_
      · rw [flatten_cons, ← append_assoc, heq, hs]
      · rw [flatten_cons, length_append, length_cons]
        omega
    · rw [feed_failed hb h, hr]
    rename_i f k b' r'
    have hlen : F.length + b.length = k + b'.length := by
      rw [← length_append, heq, length_append, length_take, Nat.min_eq_left hks]
    have hdrop : (b' :: buffers).flatten = s.drop k := by
      rw [heq, append_assoc] at hs
      have hs' : s.take k ++ (b' ++ buffers.flatten) = s.take k ++ s.drop k := hs.trans (take_append_drop k s).symm
      exact append_cancel_left hs'
    rw [feed_some hb h, hr, hrest n (b' :: buffers) hdrop ?_, show F.length + b.length - b'.length = k by omega]
    rw [flatten_cons, length_append, length_cons]
    omega

theorem feed_stalled (hnone : ∀ l, l <+: s → AMQFrame.decode B l = .ok (none, l))
    (hsize : 4 ≤ s.length → 4 < AMQFrame.decodeSize s ∧ s.length ≤ AMQFrame.decodeSize s) :
    ∀ n F buffers, F ++ buffers.flatten = s → F.length < s.length + 1 →
      buffers.flatten.length + buffers.length ≤ n → feed B n F buffers = { fragment := s } := by
  refine feed_eq (fun _ => rfl) ?_
  intro F b hs hb hF
  have hle := hs.length_le
  have hpos := length_pos_iff.2 hb
  rw [length_append] at hle
  obtain ⟨F', b', h, heq, hlt, hF'⟩ | ⟨rfl, hK, -⟩ | ⟨h4, hsmall, -⟩ | ⟨-, hK, -⟩ :=
    decode_cases (.inr (Nat.lt_succ_self _)) (fun l hl _ => hnone l hl) hs hb hF
  · exact .none h heq hlt hF'
  · omega
  · obtain ⟨t, rfl⟩ := hs
    rw [← AMQFrame.decodeSize_append (t := t) h4] at hsmall
    have := hsize (by rw [length_append]; omega)
    omega
  · rw [length_take, length_append] at hK
    omega

theorem feed_refused (hK12 : 12 ≤ K) (hK : K ≤ s.length)
    (hnone : ∀ l, l <+: s → l.length < K → AMQFrame.decode B l = .ok (none, l))
    (herror : ∀ l, l <+: s → K ≤ l.length → ∃ e, AMQFrame.decode B l = .error e) :
    ∀ n F buffers, F ++ buffers.flatten = s → F.length < K → buffers.flatten.length + buffers.length ≤ n →
      feed B n F buffers = { error := some 0 } := by
  refine feed_eq (fun h => by omega) ?_
  intro F b hs hb hF
  obtain ⟨F', b', h, heq, hlt, hF'⟩ | ⟨rfl, hb', h⟩ | ⟨-, -, e, h⟩ | ⟨-, hF', h⟩ :=
    decode_cases (.inl (by omega)) hnone hs hb hF
  · exact .none h heq hlt hF'
  · obtain ⟨e, he⟩ := herror b hs hb'
    rw [decodeBuffer, he] at h
    exact .failed h rfl
  · exact .failed h rfl
  · obtain ⟨e, he⟩ := herror _ (( take_prefix _ _).trans hs) hF'
    rw [decodeWhole, he] at h
    exact .failed h rfl

/-! ### A frame with a header -/

section header

variable {h : AMQFrame.Header} {l t : Octets} (hh : AMQFrame.headerOf s = .ok h)
include hh

theorem headerOf_append (hl : l <+: s) (hlen : 12 ≤ l.length) : AMQFrame.headerOf l = .ok h := by
  obtain ⟨t, rfl⟩ := hl
  rwa [AMQFrame.headerOf_append hlen] at hh

theorem decode_prefix (hl : l <+: s) (hsize : l.length < h.frameSize.toNat) : AMQFrame.decode B l = .ok (none, l) := by
  by_cases hlen : l.length < 12
  · exact decode_short hlen
  · exact decode_incomplete (Nat.not_lt.1 hlen) (headerOf_append hh hl (Nat.not_lt.1 hlen)) hsize

theorem decodeSize_append (hl : l <+: s) (hlen : 4 ≤ l.length) : AMQFrame.decodeSize l = h.frameSize.toNat := by
  obtain ⟨t, rfl⟩ := hl
  rw [(frameSize_of_headerOf hh).1, AMQFrame.decodeSize_append hlen]

variable (hsize : h.frameSize.toNat ≤ s.length)
include hsize

theorem decode_broken {e : CodingError} (hbody : bodyOf B h s = .error e) (hl : l <+: s)
    (hlen : h.frameSize.toNat ≤ l.length) : ∃ e, AMQFrame.decode B l = .error e := by
  have h12 := (frameSize_of_headerOf hh).2
  rw [decode_complete (by omega) (headerOf_append hh hl (by omega)) hlen]
  cases hb : bodyOf B h l with
  | error e => exact ⟨e, rfl⟩
  | ok r =>
    obtain ⟨t, rfl⟩ := hl
    rw [bodyOf_append (by omega) hlen hb] at hbody
    cases hbody

theorem decode_filled {body : AMQBody M P} (hbody : bodyOf B h (s.take h.frameSize.toNat) = .ok (body, []))
    (hl : l <+: s)
    (hlen : h.frameSize.toNat ≤ l.length) :
    AMQFrame.decode B l = .ok (some (.make h body), l.drop h.frameSize.toNat) := by
  have h12 := (frameSize_of_headerOf hh).2
  have hlt : (s.take h.frameSize.toNat).length = h.frameSize.toNat := by rw [length_take, Nat.min_eq_left hsize]
  have happ := bodyOf_append (by omega) (by omega) hbody (l.drop h.frameSize.toNat)
  obtain ⟨t, rfl⟩ := hl
  rw [take_append_of_le_length hlen, take_append_drop] at happ
  rw [decode_complete (by omega) (headerOf_append hh ⟨t, rfl⟩ (by omega)) hlen, happ]
  rfl

/-- The first frame comes, and then what comes of the rest. -/
theorem feed_filled {body : AMQBody M P} (hbody : bodyOf B h (s.take h.frameSize.toNat) = .ok (body, []))
    {r : Received M P}
    (hrest : ∀ n buffers, buffers.flatten = s.drop h.frameSize.toNat →
      buffers.flatten.length + buffers.length ≤ n → feed B n [] buffers = r) :
    ∀ n F buffers, F ++ buffers.flatten = s → F.length < h.frameSize.toNat →
      buffers.flatten.length + buffers.length ≤ n →
      feed B n F buffers = r.after (.make h body) h.frameSize.toNat := by
  have h12 := (frameSize_of_headerOf hh).2
  refine feed_eq (fun hlt => by omega) ?_
  intro F b hs hb hF
  have htake : ∀ l, l <+: s → h.frameSize.toNat ≤ l.length →
      l.take h.frameSize.toNat = s.take h.frameSize.toNat := by
    rintro l ⟨t, rfl⟩ hl
    rw [take_append_of_le_length hl]
  obtain ⟨F', b', hd, heq, hlt, hF'⟩ | ⟨rfl, hb', hd⟩ | ⟨h4, hsmall, -⟩ | ⟨-, hF', hd⟩ :=
    decode_cases (.inl (by omega)) (fun l hl hlt => decode_prefix hh hl hlt) hs hb hF
  · exact .none hd heq hlt hF'
  · rw [decodeBuffer, decode_filled hh hsize hbody (l := b) hs hb'] at hd
    refine .some (by omega) hd ?_ hsize hF rfl hrest
    rw [← htake b hs hb', take_append_drop, nil_append]
  · rw [decodeSize_append hh hs h4] at hsmall
    omega
  have hle : h.frameSize.toNat ≤ (F ++ b).length := hF'.trans (length_take_le' _ _)
  rw [decodeSize_append hh hs (by omega)] at hF' hd
  rw [decodeWhole, decode_filled hh hsize hbody (( take_prefix _ _).trans hs) hF',
    drop_eq_nil_of_le (length_take_le _ _)] at hd
  refine .some (by omega) hd ?_ hsize hF rfl hrest
  rw [← htake _ hs hle, take_append_drop]

end header

theorem headerOf_of_decodeHeader {r : AMQFrame.Header × Octets} (hlen : 12 ≤ s.length)
    (h : AMQFrame.decodeHeader s = .ok r) : AMQFrame.headerOf s = .ok r.1 := by
  rw [decodeHeader_eq hlen] at h
  cases hh : AMQFrame.headerOf s with
  | error e => rw [hh] at h; cases h
  | ok x => rw [hh] at h; cases h; rfl

theorem headerOf_of_refused {e : CodingError} (hlen : 12 ≤ s.length) (h : AMQFrame.decodeHeader s = .error e) :
    AMQFrame.headerOf s = .error e := by
  rw [decodeHeader_eq hlen] at h
  cases hh : AMQFrame.headerOf s with
  | error e => rw [hh] at h; cases h; rfl
  | ok x => rw [hh] at h; cases h

/-- A stream whose frames fill their sizes gives the same however it is cut. -/
theorem WellFramed.same (hw : WellFramed B s) : ∃ r : Received M P, ∀ n buffers, buffers.flatten = s →
    buffers.flatten.length + buffers.length ≤ n → feed B n [] buffers = r := by
  induction hw with
  | short hlen hsize =>
    refine ⟨_, fun n buffers hs hn => feed_stalled (fun l hl => ?_) hsize n [] buffers hs (Nat.succ_pos _) hn⟩
    exact decode_short (Nat.lt_of_le_of_lt hl.length_le hlen)
  | @refused s e hlen hh =>
    have hh' := headerOf_of_refused hlen hh
    refine ⟨{ error := some 0 }, fun n buffers hs hn =>
      feed_refused (Nat.le_refl 12) hlen (fun l _ hl => decode_short hl) ?_ n [] buffers hs (by simp) hn⟩
    rintro l ⟨t, rfl⟩ hl
    rw [AMQFrame.headerOf_append hl] at hh'
    exact ⟨e, decode_refused hl hh'⟩
  | @incomplete s h hlen hh hsize =>
    have hh' := headerOf_of_decodeHeader hlen hh
    have h12 := frameSize_of_headerOf hh'
    refine ⟨_, fun n buffers hs hn => feed_stalled (fun l hl => ?_)
      (fun _ => ?_) n [] buffers hs (Nat.succ_pos _) hn⟩
    · exact decode_prefix hh' hl (Nat.lt_of_le_of_lt hl.length_le hsize)
    · omega
  | @broken s h e hlen hh hsize hbody =>
    have hh' := headerOf_of_decodeHeader hlen hh
    have h12 := (frameSize_of_headerOf hh').2
    exact ⟨{ error := some 0 }, fun n buffers hs hn =>
      feed_refused h12 hsize (fun l hl hlt => decode_prefix hh' hl hlt)
        (fun l hl hle => decode_broken hh' hsize hbody hl hle) n [] buffers hs (by simp; omega) hn⟩
  | @frame s h body hlen hh hsize hbody _ ih =>
    have hh' := headerOf_of_decodeHeader hlen hh
    have h12 := (frameSize_of_headerOf hh').2
    obtain ⟨r, hr⟩ := ih
    exact ⟨_, fun n buffers hs hn => feed_filled hh' hsize hbody hr n [] buffers hs (by simp; omega) hn⟩

/-! ### Streams that are not well framed -/

theorem feed_whole_none (hs : s ≠ []) (h : AMQFrame.decode B s = .ok (none, s)) {n : Nat} (hn : s.length + 1 ≤ n) :
    feed B n [] [s] = { fragment := s } := by
  have hpos := length_pos_iff.2 hs
  obtain ⟨n, rfl⟩ : ∃ m, n = m + 2 := ⟨n - 2, by omega⟩
  have hcall : decode B [] s = .ok ⟨none, s, []⟩ := by
    rw [decode_nil hs, decodeBuffer, h]
    simp [append]
  rw [feed_none hs hcall, feed_skip, feed_nil]

theorem feed_cut {k n : Nat} (hk : 0 < k) (hks : k < s.length)
    (h1 : AMQFrame.decode B (s.take k) = .ok (none, s.take k)) {e : DecodeFailure}
    (h2 : decode B (s.take k) (s.drop k) = .error e) (hn : s.length + 2 ≤ n) :
    feed B n [] [s.take k, s.drop k] = { error := some 0 } := by
  have hne : s.take k ≠ [] := by
    rw [← length_pos_iff, length_take]
    omega
  have hne' : s.drop k ≠ [] := by
    rw [← length_pos_iff, length_drop]
    omega
  obtain ⟨n, rfl⟩ : ∃ m, n = m + 3 := ⟨n - 3, by omega⟩
  have hcall : decode B [] (s.take k) = .ok ⟨none, s.take k, []⟩ := by
    rw [decode_nil hne, decodeBuffer, h1]
    simp [append]
  rw [feed_none hne hcall, feed_skip, feed_failed hne' h2]

theorem decode_cut {k : Nat} (hk : 0 < k) (hks : k < s.length) (h4 : 4 ≤ s.length) : decode B (s.take k) (s.drop k) =
      if AMQFrame.decodeSize s ≤ max 4 k then
        .error (.thrown (.framingError ("Frame size " ++ toString (AMQFrame.decodeSize s) ++ " is too small.")))
      else decodeWhole B (s.take (AMQFrame.decodeSize s)) (s.drop (AMQFrame.decodeSize s)) := by
  have hne : s.take k ≠ [] := by
    rw [← length_pos_iff, length_take]
    omega
  have hne' : s.drop k ≠ [] := by
    rw [← length_pos_iff, length_drop]
    omega
  rw [decode_sized hne hne' (by rwa [take_append_drop]), take_append_drop, length_take,
    Nat.min_eq_left (Nat.le_of_lt hks)]

/-- A stream that gives something else if it is cut like this. -/
def CutsDiffer (B : BodyDecoders M P) (s : Octets) : Prop := ∃ buffers : List Octets, buffers.flatten = s ∧
  ∀ n m, s.length + buffers.length ≤ n → s.length + 1 ≤ m → ¬(feed B n [] buffers).Same (feed B m [] [s])

theorem flatten_cut (k : Nat) (s : Octets) : [s.take k, s.drop k].flatten = s := by
  rw [flatten_cons, flatten_cons, List.flatten_nil, append_nil, take_append_drop]

/-- A size that is less than what came is noticed only in a fragment. -/
theorem cutsDiffer_of_small (hlen : s.length < 12) (h4 : 4 ≤ s.length)
    (hsize : AMQFrame.decodeSize s ≤ 4 ∨ AMQFrame.decodeSize s < s.length) : CutsDiffer B s := by
  have hs : s ≠ [] := by rw [← length_pos_iff]; omega
  obtain ⟨k, hk, hks, hsmall⟩ : ∃ k, 0 < k ∧ k < s.length ∧ AMQFrame.decodeSize s ≤ max 4 k := by
    by_cases h : AMQFrame.decodeSize s ≤ 4
    · exact ⟨1, by omega, by omega, by omega⟩
    · exact ⟨AMQFrame.decodeSize s, by omega, by omega, by omega⟩
  refine ⟨[s.take k, s.drop k], flatten_cut k s, fun n m hn hm => ?_⟩
  have hcut := decode_cut (B := B) hk hks h4
  rw [if_pos hsmall] at hcut
  have hshort : (s.take k).length < 12 := by
    rw [length_take]
    omega
  rw [feed_whole_none hs (decode_short hlen) hm, feed_cut hk hks (decode_short hshort) hcut hn]
  simp [Received.Same]

section complete

variable {h : AMQFrame.Header} (hh : AMQFrame.headerOf s = .ok h) (hsize : h.frameSize.toNat ≤ s.length)
include hh hsize

/-- A body that takes other octets than its own is decoded from the buffer, and fails in a
fragment. -/
theorem cutsDiffer_of_body {r : AMQBody M P × Octets} (hbody : bodyOf B h s = .ok r)
    (hown : ∀ body, bodyOf B h (s.take h.frameSize.toNat) ≠ .ok (body, [])) : CutsDiffer B s := by
  obtain ⟨hdecl, h12⟩ := frameSize_of_headerOf hh
  have hs : s ≠ [] := by rw [← length_pos_iff]; omega
  have hlen : (s.take h.frameSize.toNat).length = h.frameSize.toNat := by rw [length_take, Nat.min_eq_left hsize]
  refine ⟨[s.take 1, s.drop 1], flatten_cut 1 s, fun n m hn hm => ?_⟩
  have hwhole : ∃ e, decodeWhole B (s.take h.frameSize.toNat) (s.drop h.frameSize.toNat) = .error e := by
    rw [decodeWhole, decode_complete (by omega) (headerOf_append hh ( take_prefix _ _) (by omega)) (by omega)]
    cases hb : bodyOf B h (s.take h.frameSize.toNat) with
    | error e => exact ⟨_, rfl⟩
    | ok r =>
      obtain ⟨body, rest⟩ := r
      exact ⟨_, if_neg fun hnil : rest = [] => hown body (by rw [hb, hnil])⟩
  obtain ⟨e, he⟩ := hwhole
  have hcut := decode_cut (B := B) (k := 1) (by omega) (by omega) (by omega : 4 ≤ s.length)
  rw [← hdecl, if_neg (by omega), he] at hcut
  have hshort : (s.take 1).length < 12 := by
    rw [length_take]
    omega
  rw [feed_cut (by omega) (by omega) (decode_short hshort) hcut hn]
  obtain ⟨m, rfl⟩ : ∃ m', m = m' + 1 := ⟨m - 1, by omega⟩
  rw [feed_some hs]
  · simp [Received.after, Received.Same]
  · rw [decode_nil hs, decodeBuffer, decode_complete (by omega) hh hsize, hbody]
    rfl

theorem CutsDiffer.after {body : AMQBody M P} (hbody : bodyOf B h (s.take h.frameSize.toNat) = .ok (body, []))
    (hd : CutsDiffer B (s.drop h.frameSize.toNat)) : CutsDiffer B s := by
  obtain ⟨buffers, hflat, hne⟩ := hd
  have h12 := (frameSize_of_headerOf hh).2
  have hs : s ≠ [] := by rw [← length_pos_iff]; omega
  have hlen : (s.take h.frameSize.toNat).length = h.frameSize.toNat := by rw [length_take, Nat.min_eq_left hsize]
  have ht : s.take h.frameSize.toNat ≠ [] := by rw [← length_pos_iff]; omega
  have hfirst : ∀ l, l <+: s → h.frameSize.toNat ≤ l.length → l ≠ [] → decode B [] l =
      .ok ⟨some (.make h body), [], l.drop h.frameSize.toNat⟩ := by
    intro l hl hle hne
    rw [decode_nil hne, decodeBuffer, decode_filled hh hsize hbody hl hle]
  refine ⟨s.take h.frameSize.toNat :: buffers, by rw [flatten_cons, hflat, take_append_drop], ?_⟩
  intro n m hn hm heq
  rw [length_cons] at hn
  obtain ⟨n, rfl⟩ : ∃ n', n = n' + 2 := ⟨n - 2, by omega⟩
  obtain ⟨m, rfl⟩ : ∃ m', m = m' + 1 := ⟨m - 1, by omega⟩
  rw [feed_some ht (hfirst _ ( take_prefix _ _) (by omega) ht), feed_some hs (hfirst s (prefix_refl s) hsize hs),
    drop_eq_nil_of_le (Nat.le_of_eq hlen)] at heq
  refine hne n m (by rw [length_drop]; omega) (by rw [length_drop]; omega) ?_
  refine Received.after_injective ?_ heq
  rw [length_drop, length_nil]
  omega

end complete

theorem wellFramed_of_not_cutsDiffer (s : Octets) (hd : ¬ CutsDiffer B s) : WellFramed B s := by
  by_cases hlen : s.length < 12
  · refine .short hlen fun h4 => ?_
    by_contra hsize
    exact hd (cutsDiffer_of_small hlen h4 (by omega))
  have hlen := Nat.not_lt.1 hlen
  have heq := decodeHeader_eq hlen
  cases hh : AMQFrame.headerOf s with
  | error e => exact .refused hlen (by rw [heq, hh]; rfl)
  | ok h =>
    rw [hh] at heq
    by_cases hsize : s.length < h.frameSize.toNat
    · exact .incomplete hlen heq hsize
    have hsize := Nat.not_lt.1 hsize
    have h12 := (frameSize_of_headerOf hh).2
    by_cases hown : ∃ body, bodyOf B h (s.take h.frameSize.toNat) = .ok (body, [])
    · obtain ⟨body, hbody⟩ := hown
      refine .frame hlen heq hsize hbody (wellFramed_of_not_cutsDiffer _ fun hrest => ?_)
      exact hd (hrest.after hh hsize hbody)
    · cases hbody : bodyOf B h s with
      | error e => exact .broken hlen heq hsize hbody
      | ok r => exact absurd (cutsDiffer_of_body hh hsize hbody fun body hb => hown ⟨body, hb⟩) hd
termination_by s.length
decreasing_by
  simp only [length_drop]
  omega

/-- A stream gives the same frames, and an error at the same place or none, however it is
cut, just if its frames fill the sizes they declare. -/
theorem chunks_do_not_matter_iff (s : Octets) :
    (∀ buffers : List Octets, buffers.flatten = s → (receive B buffers).Same (receive B [s])) ↔
      WellFramed B s := by
  constructor
  · intro h
    refine wellFramed_of_not_cutsDiffer s ?_
    rintro ⟨buffers, hflat, hne⟩
    refine hne _ _ ?_ ?_ (h buffers hflat)
    · rw [hflat]
    · simp
  · intro hw buffers hflat
    obtain ⟨r, hr⟩ := hw.same
    rw [receive, receive, hr _ buffers hflat le_rfl, hr _ [s] (by simp) le_rfl]
    exact ⟨rfl, rfl⟩

/-- Bodies of a protocol with no methods and no properties. -/
def noBodies : BodyDecoders Unit Unit where
  method _ _ := .error (.framingError "")
  properties := ()
  property _ _ _ := none
  method_stable h := by cases h
  property_stable h := by cases h

/-- A heartbeat with two octets in its body: from one buffer it is decoded, and its body
is taken for the start of another frame; after its first octet came alone, the assertion
fails. -/
theorem heartbeat_depends_on_chunks :
    let frame : Octets := [0x0f, 8, 0, 14, 0, 0, 0, 1, 0, 0, 0, 0, 7, 7]
    receive noBodies [frame] = ⟨[⟨true, true, true, true, 1, 0, .heartbeat⟩], none, [7, 7]⟩ ∧
      receive noBodies [frame.take 1, frame.drop 1] = ⟨[], some 0, []⟩ := by
  decide +kernel

end QB.Spec
