import QpidBroker.Spec.FieldCodec

/-!
# Round trips of field values

What is written of a value, and what is read back of it, for values that fit
(`codes_of_fits`): by induction on the value, with the values of a list, the elements of an
array and the entries of a table taken one after the other. A table comes back as its
octets; its entries are those that were written (`realDecode`).

On values without lists, `==` finds out whether they are of the same structure
(`compares_iff_same`).
-/

namespace QB.Spec.Field

open Codec Impl Impl.Field Impl.Buffer Value List Octets

/-! ## Reading and writing numbers and texts -/

theorem writes_putLong (n : Nat) : Writes .outOfBounds (putLong (BitVec.ofNat 32 n)) (ofNat 4 (n % 2 ^ 32)) := by
  exact writes_putRawData _

variable {n count : Nat} {o : Octets} {es : ValueMap} {t : BitVec 8} {vs : List Value}

theorem reads_putLong (h : n < 2 ^ 32) : Reads getLong (ofNat 4 n) (BitVec.ofNat 32 n) := by
  have hr := reads_getLong (BitVec.ofNat 32 n)
  rwa [BitVec.toNat_ofNat, Nat.mod_eq_of_lt h] at hr

theorem writes_putShortString {s : Octets} (h : s.length ≤ 255) :
    Writes .outOfBounds (putShortString s) (BitVec.ofNat 8 s.length :: s) := by
  rw [putShortString, if_pos h]
  exact (writes_putRawData [BitVec.ofNat 8 s.length]).bind (writes_putRawData s)

theorem reads_getShortString {s : Octets} (h : s.length ≤ 255) :
    Reads getShortString (BitVec.ofNat 8 s.length :: s) s := by
  have hlen : (BitVec.ofNat 8 s.length).toNat = s.length := by
    exact Nat.mod_eq_of_lt (by omega)
  have h2 := reads_getRawData s
  rw [← hlen] at h2
  exact (reads_getOctet (BitVec.ofNat 8 s.length)).bind h2

/-- The size of the count is taken off the size of a list. -/
theorem size_sub (h : 4 ≤ n) (h' : n < 2 ^ 32) : BitVec.ofNat 32 n - 4 = BitVec.ofNat 32 (n - 4) := by
  bv_omega

/-! ## Sizes -/

section sizes

variable {es : ValueMap} {vs : List Value}

/-- Each entry takes an octet at least. -/
theorem length_le_entriesSize (es : ValueMap) : es.length ≤ entriesSize es := by
  induction es with
  | nil => exact Nat.zero_le _
  | cons e es ih =>
    rw [length_cons, entriesSize]
    omega

theorem dataSize_le_entriesSize {e : Octets × Value} (h : e ∈ es) : e.2.dataSize ≤ entriesSize es := by
  induction es with
  | nil => simp at h
  | cons f es ih =>
    rw [entriesSize]
    rcases mem_cons.1 h with rfl | h
    · omega
    · have := ih h
      omega

theorem dataSize_le_valuesSize {v : Value} (h : v ∈ vs) (k : Nat) : v.dataSize ≤ valuesSize k vs := by
  induction vs with
  | nil => simp at h
  | cons w vs ih =>
    rw [valuesSize]
    rcases mem_cons.1 h with rfl | h
    · omega
    · have := ih h
      omega

theorem length_mul_le_valuesSize {k n : Nat} (h : ∀ v ∈ vs, n ≤ k + v.dataSize) :
    vs.length * n ≤ valuesSize k vs := by
  induction vs with
  | nil => simp
  | cons w vs ih =>
    have hw := h w mem_cons_self
    have := ih fun v hv => h v (mem_cons_of_mem _ hv)
    rw [length_cons, valuesSize, Nat.succ_mul]
    omega

/-- Decoded values are as large as those that were encoded. -/
theorem valuesSize_of_forall₂ {R : Value → Value → Prop} {ws : List Value} (h : List.Forall₂ R vs ws)
    (hR : ∀ v w, R v w → w.dataSize = v.dataSize) (k : Nat) : valuesSize k ws = valuesSize k vs := by
  induction h with
  | nil => rfl
  | cons hr _ ih => rw [valuesSize, valuesSize, ih, hR _ _ hr]

end sizes

/-! ## Values -/

/-- A value of the same type and size, which fits and is equal to the other. -/
structure Image (v v' : Value) : Prop where
  type : v'.getType = v.getType
  size : v'.dataSize = v.dataSize
  fits : Fits v'
  same : Same v v'

/-- The value is written as these octets, from which the other is read. -/
structure Codes (v : Value) (o : Octets) (v' : Value) : Prop extends Image v v' where
  writes : Writes .outOfBounds v.encodeData o
  length : o.length = v.dataSize
  reads {fuel : Nat} (h : v.dataSize < fuel) : Reads (decodeData fuel v.getType) o v'

section lists

variable {vs : List Value}

/-- A list of values, each with its type, is read back value by value. -/
theorem codes_values (h : ∀ v ∈ vs, ∃ o v', Codes v o v') : ∃ o vs',
    Writes .outOfBounds (encodeValues vs) o ∧ o.length = valuesSize 1 vs ∧
    (∀ fuel, valuesSize 1 vs < fuel →
      Reads (decodeMany (do let t ← getOctet; decodeData fuel t) vs.length) o vs') ∧
    List.Forall₂ Image vs vs' := by
  induction vs with
  | nil => exact ⟨[], [], Writes.nil, rfl, fun _ _ => Reads.pure _, .nil⟩
  | cons v vs ih =>
    obtain ⟨o, v', hv⟩ := h v mem_cons_self
    obtain ⟨os, vs', hwri, hlen, hreads, hall⟩ := ih fun w hw => h w (mem_cons_of_mem _ hw)
    refine ⟨[v.getType] ++ (o ++ os), v' :: vs', ?_, ?_, ?_, .cons hv.toImage hall⟩
    · exact (writes_putRawData [v.getType]).bind (hv.writes.bind hwri)
    · simp only [length_append, length_singleton, valuesSize, hv.length]
      omega
    intro fuel hfuel
    simp only [valuesSize] at hfuel
    have hfirst := (reads_getOctet v.getType).bind (f := decodeData fuel) (hv.reads (by omega))
    have hrest := (hreads fuel (by omega)).map (v' :: ·)
    exact hfirst.bind hrest

/-- The elements of an array share the type that is written before them. -/
theorem codes_elements {t : BitVec 8} (htype : ∀ v ∈ vs, v.getType = t) (h : ∀ v ∈ vs, ∃ o v', Codes v o v') :
    ∃ o vs', Writes .outOfBounds (encodeElements vs) o ∧ o.length = valuesSize 0 vs ∧
    (∀ fuel, valuesSize 0 vs < fuel → Reads (decodeMany (decodeData fuel t) vs.length) o vs') ∧
    List.Forall₂ Image vs vs' := by
  induction vs with
  | nil => exact ⟨[], [], Writes.nil, rfl, fun _ _ => Reads.pure _, .nil⟩
  | cons v vs ih =>
    obtain ⟨o, v', hv⟩ := h v mem_cons_self
    obtain ⟨os, vs', hwri, hlen, hreads, hall⟩ :=
      ih (fun w hw => htype w (mem_cons_of_mem _ hw)) fun w hw => h w (mem_cons_of_mem _ hw)
    refine ⟨o ++ os, v' :: vs', hv.writes.bind hwri, ?_, ?_, .cons hv.toImage hall⟩
    · simp only [length_append, valuesSize, hv.length]
      omega
    intro fuel hfuel
    simp only [valuesSize] at hfuel
    have hfirst : Reads (decodeData fuel v.getType) o v' := hv.reads (by omega)
    rw [htype v mem_cons_self] at hfirst
    exact hfirst.bind ((hreads fuel (by omega)).map (v' :: ·))

end lists

/-- Entries of the same key whose values are images. -/
def EntryImage (e e' : Octets × Value) : Prop := e'.1 = e.1 ∧ Image e.2 e'.2

theorem reads_decode {v v' : Value} (h : Codes v o v') (rest : Octets) :
    decode ([v.getType] ++ o ++ rest) = .ok (v', rest) := by
  have hread := (reads_getOctet v.getType).bind (f := decodeData (([v.getType] ++ o ++ rest).length + 1))
    (h.reads (by simp only [length_append, h.length]; omega))
  exact hread rest

/-- The entries of a table. They are read in the order of their keys, so each goes to the
end of the map. -/
theorem codes_entries (hkeys : ∀ e ∈ es, e.1.length ≤ 255) (h : ∀ e ∈ es, ∃ o v', Codes e.2 o v') :
    ∃ o es',
    Writes .outOfBounds (encodeEntries es) o ∧ o.length = entriesSize es ∧ List.Forall₂ EntryImage es es' ∧
    ∀ acc, SortedMap.Sorted (acc ++ es) → realDecodeLoop 0 es.length acc o = .ok (acc ++ es', []) := by
  induction es with
  | nil =>
    refine ⟨[], [], Writes.nil, rfl, .nil, fun acc _ => ?_⟩
    rw [append_nil]
    rfl
  | cons e es ih =>
    obtain ⟨k, v⟩ := e
    obtain ⟨o, v', hv⟩ := h (k, v) mem_cons_self
    obtain ⟨os, es', hwri, hlen, hall, hloop⟩ :=
      ih (fun e he => hkeys e (mem_cons_of_mem _ he)) fun e he => h e (mem_cons_of_mem _ he)
    have hk : k.length ≤ 255 := hkeys _ mem_cons_self
    refine ⟨(BitVec.ofNat 8 k.length :: k) ++ ([v.getType] ++ (o ++ os)), (k, v') :: es', ?_, ?_,
      .cons ⟨rfl, hv.toImage⟩ hall, ?_⟩
    · exact (writes_putShortString hk).bind ((writes_putRawData [v.getType]).bind (hv.writes.bind hwri))
    · simp only [length_append, length_cons, length_nil, entriesSize, hv.length]
      omega
    intro acc hsor
    have hlast : ∀ a ∈ acc.map Prod.fst, a < k := by
      intro a ha
      rw [SortedMap.Sorted, map_append, pairwise_append] at hsor
      exact hsor.2.2 a ha k (by simp)
    rw [length_cons, realDecodeLoop]
    beta_reduce
    rw [if_pos (by rw [length_append, length_cons]; omega), bind_apply_ok (reads_getShortString hk _),
      ← append_assoc [v.getType], bind_apply_ok (reads_decode hv os),
      SortedMap.assign_append hlast, hloop]
    · rw [append_assoc]
      rfl
    · rw [SortedMap.Sorted] at hsor ⊢
      simpa [EntryImage] using hsor

/-! ## Structure -/

theorem zip_of_forall₂ {α β : Type} {R : α → β → Prop} {l : List α} {l' : List β}
    (h : List.Forall₂ R l l') :
    ∀ p ∈ l.zip l', R p.1 p.2 := by
  induction h with
  | nil => simp
  | cons hr _ ih =>
    intro p hp
    rcases mem_cons.1 hp with rfl | hp
    · exact hr
    · exact ih p hp

theorem keys_of_forall₂ {es' : ValueMap} (h : List.Forall₂ EntryImage es es') :
    es.map Prod.fst = es'.map Prod.fst := by
  induction h with
  | nil => rfl
  | cons hr _ ih => rw [map_cons, map_cons, hr.1, ih]

/-- A value that fits is equal to itself. -/
theorem Fits.same {v : Value} (h : Fits v) : Same v v := by
  induction h with
  | fixedWidth => exact .fixedWidth _ _
  | variableWidth => exact .variableWidth _ _ _
  | table _ _ _ ih =>
    exact .table rfl rfl rfl (zip_of_forall₂ (R := fun e e' : Octets × Value => Same e.2 e'.2) (forall₂_same.2 ih))
  | raw _ hdec _ ih =>
    exact .table (congrArg some hdec) (congrArg some hdec) rfl
      (zip_of_forall₂ (R := fun e e' : Octets × Value => Same e.2 e'.2) (forall₂_same.2 ih))
  | list _ ih => exact .list rfl (zip_of_forall₂ (forall₂_same.2 ih))
  | array _ _ _ _ _ ih => exact .array rfl (zip_of_forall₂ (forall₂_same.2 ih))

/-! ## Each class of values -/

/-- The octets of a number stand for themselves. -/
theorem codes_fixedWidth (htype : setType t = .ok (.fixedWidth o.length)) :
    Codes (.fixedWidth t o) o (.fixedWidth t o) where
  type := rfl
  size := rfl
  fits := .fixedWidth htype
  same := .fixedWidth t o
  writes := by
    exact writes_putRawData o
  length := by rw [dataSize]
  reads {fuel} hfuel := by
    cases fuel with
    | zero => omega
    | succ fuel =>
      simp only [decodeData, getType, htype]
      exact (reads_getRawData o).map _

/-- The length stands before the octets of a string. -/
theorem codes_variableWidth {w : Nat} (htype : setType t = .ok (.variableWidth w)) (hlen : o.length < 256 ^ w) :
    Codes (.variableWidth t w o) (ofNat w o.length ++ o) (.variableWidth t w o) where
  type := rfl
  size := rfl
  fits := .variableWidth htype hlen
  same := .variableWidth t w o
  writes := by
    rw [encodeData, putUInt, if_pos hlen]
    exact (writes_putRawData _).bind (writes_putRawData o)
  length := by rw [length_append, length_ofNat, dataSize]
  reads {fuel} hfuel := by
    cases fuel with
    | zero => omega
    | succ fuel =>
      simp only [decodeData, getType, htype]
      exact (reads_getUInt hlen).bind ((reads_getRawData o).map _)

/-- A table is not looked into when it is read, only its size is. -/
theorem reads_decodeTable (hlen : o.length = n + 4) (hn : (word 32 (o.take 4)).toNat = n)
    (h4 : n = 0 ∨ 4 ≤ n) : Reads decodeTable o o := by
  intro rest
  have htake : (o ++ rest).take 4 = o.take 4 := take_append_of_le_length (by omega)
  simp only [decodeTable, htake, hn]
  rw [if_neg (by rw [length_append]; omega), if_neg (by rw [length_append]; omega), ← hlen]
  exact reads_getRawData o rest

theorem word_ofNat_append (h : n < 2 ^ 32) (o : Octets) : (word 32 ((ofNat 4 n ++ o).take 4)).toNat = n := by
  have hlen := length_ofNat 4 n
  have hw := word_ofNat 4 (BitVec.ofNat 32 n)
  rw [BitVec.toNat_ofNat, Nat.mod_eq_of_lt h] at hw
  rw [take_append_of_le_length (by omega), take_of_length_le (by omega), hw, BitVec.toNat_ofNat, Nat.mod_eq_of_lt h]

theorem reads_raw {fuel : Nat} (h : Reads decodeTable o o) (hfuel : o.length < fuel) :
    Reads (decodeData fuel 0xa8) o (.raw o) := by
  cases fuel with
  | zero => omega
  | succ fuel => exact h.map _

theorem forall_right {α β : Type} {R : α → β → Prop} {Q : β → Prop} {l : List α} {l' : List β}
    (h : List.Forall₂ R l l') (hQ : ∀ a ∈ l, ∀ b, R a b → Q b) : ∀ b ∈ l', Q b := by
  induction h with
  | nil => simp
  | cons hr _ ih =>
    intro b hb
    rcases mem_cons.1 hb with rfl | hb
    · exact hQ _ mem_cons_self _ hr
    · exact ih (fun a ha => hQ a (mem_cons_of_mem _ ha)) b hb

/-- The entries of a table behind its size and its count. -/
theorem realDecode_entries {es' : ValueMap} (hsize : 8 + entriesSize es < 2 ^ 32)
    (hlen : o.length = entriesSize es) (hloop : realDecodeLoop 0 es.length [] o = .ok (es', [])) :
    realDecode (ofNat 4 (4 + entriesSize es) ++ (ofNat 4 es.length ++ o)) = .ok es' := by
  have hcount := length_le_entriesSize es
  have hne : BitVec.ofNat 32 (4 + entriesSize es) ≠ 0 := by bv_omega
  have hzero : (ofNat 4 es.length ++ o).length - (BitVec.ofNat 32 (4 + entriesSize es)).toNat = 0 := by
    rw [BitVec.toNat_ofNat, length_append, length_ofNat]
    omega
  have hcou' : (BitVec.ofNat 32 es.length).toNat = es.length := by
    rw [BitVec.toNat_ofNat]
    omega
  simp only [realDecode, realDecodeInto]
  rw [bind_apply_ok (reads_putLong (by omega) _), if_neg hne, bind_apply_ok (show available _ = .ok (_, _) from rfl),
    bind_apply_ok (reads_putLong (by omega) _), hzero, hcou', hloop]
  rfl

/-- A table is read back as its octets, and these decode to the entries. -/
theorem codes_table (hsor : SortedMap.Sorted es) (hkeys : ∀ e ∈ es, e.1.length ≤ 255)
    (hsize : dataSize (.table es) < 2 ^ 32) (h : ∀ e ∈ es, ∃ o v', Codes e.2 o v') :
    ∃ o es', Codes (.table es) o (.raw o) ∧ realDecode o = .ok es' ∧ List.Forall₂ EntryImage es es' := by
  obtain ⟨o, es', hwri, hlen, hall, hloop⟩ := codes_entries hkeys h
  have hcount := length_le_entriesSize es
  rw [dataSize] at hsize
  have hdec := realDecode_entries hsize hlen (hloop [] hsor)
  have hleng : (ofNat 4 (4 + entriesSize es) ++ (ofNat 4 es.length ++ o)).length = 8 + entriesSize es := by
    simp only [length_append, length_ofNat]
    omega
  have hword := word_ofNat_append (show 4 + entriesSize es < 2 ^ 32 by omega) (ofNat 4 es.length ++ o)
  refine ⟨ofNat 4 (4 + entriesSize es) ++ (ofNat 4 es.length ++ o), es',
    ⟨⟨rfl, ?_, ?_, ?_⟩, ?_, ?_, ?_⟩, hdec, hall⟩
  · rw [dataSize, dataSize, hleng]
  · exact .raw (by omega) hdec (forall_right hall fun _ _ _ h => h.2.fits)
  · exact .table rfl (congrArg some hdec) (keys_of_forall₂ hall) fun p hp => (zip_of_forall₂ hall p hp).2.same
  · have h1 := writes_putLong (4 + entriesSize es)
    have h2 := writes_putLong es.length
    rw [Nat.mod_eq_of_lt (by omega)] at h1 h2
    rw [encodeData, size_sub (by omega) hsize, show 8 + entriesSize es - 4 = 4 + entriesSize es by omega]
    exact h1.bind (h2.bind hwri)
  · rw [dataSize, hleng]
  intro fuel hfuel
  rw [dataSize] at hfuel
  exact reads_raw (reads_decodeTable (by rw [hleng]; omega) hword (by omega))
    (by rwa [hleng])

theorem size_of_realDecode {b : Octets} (hlen : b.length = (word 32 (b.take 4)).toNat + 4)
    (hdec : realDecode b = .ok es) :
    (word 32 (b.take 4)).toNat = 0 ∨ 4 ≤ (word 32 (b.take 4)).toNat := by
  by_contra h
  have hne : word 32 (b.take 4) ≠ 0 := fun h0 => h (.inl (by rw [h0]; rfl))
  have hshort : getLong (b.drop 4) = .error .outOfBounds := by
    have htake : take CodingError.outOfBounds 4 (b.drop 4) = .error .outOfBounds :=
      if_pos (by rw [length_drop]; omega)
    exact bind_eq_error.2 (.inl htake)
  simp only [realDecode, realDecodeInto] at hdec
  rw [bind_apply_ok (getLong_eq (by omega)), if_neg hne, bind_apply_ok (show available _ = .ok (_, _) from rfl),
    bind_apply_error hshort] at hdec
  cases hdec

/-- A table that was not decoded is written as it was read. -/
theorem codes_raw {b : Octets} (hlen : b.length = (word 32 (b.take 4)).toNat + 4)
    (hdec : realDecode b = .ok es) (hval : ∀ e ∈ es, Fits e.2) : Codes (.raw b) b (.raw b) where
  type := rfl
  size := rfl
  fits := .raw hlen hdec hval
  same := (Fits.raw hlen hdec hval).same
  writes := by
    exact writes_putRawData b
  length := by rw [dataSize]
  reads {fuel} hfuel := by
    exact reads_raw (reads_decodeTable hlen rfl (size_of_realDecode hlen hdec)) hfuel

theorem reads_decodeList {d : Get Value} (hlen : o.length = n)
    (hn : 8 + n < 2 ^ 32) (hcount : count ≤ n) (h : Reads (decodeMany d count) o vs) :
    Reads (decodeList d) (ofNat 4 (4 + n) ++ (ofNat 4 count ++ o)) (.list vs) := by
  intro rest
  have hne : BitVec.ofNat 32 (4 + n) ≠ 0 := by bv_omega
  have hcou' : (BitVec.ofNat 32 count).toNat = count := by rw [BitVec.toNat_ofNat, Nat.mod_eq_of_lt (by omega)]
  have hrest : (ofNat 4 count ++ (o ++ rest)).length = 4 + n + rest.length := by
    simp only [length_append, length_ofNat]
    omega
  have hall : (ofNat 4 (4 + n) ++ (ofNat 4 count ++ (o ++ rest))).length = 8 + n + rest.length := by
    rw [length_append, length_ofNat]
    omega
  simp only [append_assoc]
  rw [decodeList, bind_apply_ok (show available _ = .ok (_, _) from rfl), throwIf_bind, hall, if_neg (by simp; omega),
    bind_apply_ok (reads_putLong (by omega) _), bind_apply_ok (show available _ = .ok (_, _) from rfl), throwIf_bind,
    hrest, if_neg (by simp; omega), if_neg hne, throwIf_bind, if_neg (by simp; omega),
    bind_apply_ok (reads_putLong (by omega) _), hcou']
  exact h.map _ rest

/-- A list is read back if each of its values is. -/
theorem codes_list (hsize : dataSize (.list vs) < 2 ^ 32) (h : ∀ v ∈ vs, ∃ o v', Codes v o v') :
    ∃ o v', Codes (.list vs) o v' := by
  obtain ⟨o, vs', hwri, hlen, hreads, hall⟩ := codes_values h
  have hcount : vs.length * 1 ≤ valuesSize 1 vs := length_mul_le_valuesSize fun v _ => by omega
  rw [dataSize] at hsize
  refine ⟨ofNat 4 (4 + valuesSize 1 vs) ++ (ofNat 4 vs.length ++ o), .list vs',
    ⟨⟨rfl, ?_, ?_, ?_⟩, ?_, ?_, ?_⟩⟩
  · rw [dataSize, dataSize, valuesSize_of_forall₂ hall fun _ _ h => h.size]
  · exact .list (forall_right hall fun _ _ _ h => h.fits)
  · exact .list hall.length_eq fun p hp => (zip_of_forall₂ hall p hp).same
  · have h1 := writes_putLong (4 + valuesSize 1 vs)
    have h2 := writes_putLong vs.length
    rw [Nat.mod_eq_of_lt (by omega)] at h1 h2
    rw [encodeData, size_sub (by omega) hsize, show 8 + valuesSize 1 vs - 4 = 4 + valuesSize 1 vs by omega]
    exact h1.bind (h2.bind hwri)
  · simp only [length_append, length_ofNat, dataSize]
    omega
  intro fuel hfuel
  rw [dataSize] at hfuel
  cases fuel with
  | zero => omega
  | succ fuel => exact reads_decodeList hlen hsize (by omega) (hreads fuel (by omega))

theorem count_lt {k : Nat} (hn : 9 + n < 2 ^ 32) (hmul : count * k ≤ n) (hzero : k = 0 → count ≤ 256) :
    count < 2 ^ 32 := by
  by_cases hk : k = 0
  · omega
  · have := Nat.le_mul_of_pos_right count (Nat.pos_of_ne_zero hk)
    omega

/-- An array is refused if its count is more than its size allows. -/
theorem reads_decodeArray {d : BitVec 8 → Get Value} {c : DataClass}
    (htype : setType t = .ok c) (hlen : o.length = n) (hn : 9 + n < 2 ^ 32)
    (hmul : count * c.emptySize ≤ n) (hzero : c.emptySize = 0 → count ≤ 256)
    (h : Reads (decodeMany (d t) count) o vs) :
    Reads (decodeArray d) (ofNat 4 (5 + n) ++ ([t] ++ (ofNat 4 count ++ o))) (.array t vs) := by
  intro rest
  have hcount := count_lt hn hmul hzero
  have hne : BitVec.ofNat 32 (5 + n) ≠ 0 := by bv_omega
  have hcou' : (BitVec.ofNat 32 count).toNat = count := by rw [BitVec.toNat_ofNat, Nat.mod_eq_of_lt hcount]
  have hpro : (BitVec.ofNat 32 count * BitVec.ofNat 32 c.emptySize).toNat = count * c.emptySize := by
    rw [← BitVec.ofNat_mul, BitVec.toNat_ofNat, Nat.mod_eq_of_lt (by omega)]
  have hrest : ([t] ++ (ofNat 4 count ++ (o ++ rest))).length = 5 + n + rest.length := by
    simp only [length_append, length_ofNat, length_singleton]
    omega
  have hdata : (o ++ rest).length = n + rest.length := by rw [length_append, hlen]
  simp only [append_assoc]
  rw [decodeArray, bind_apply_ok (reads_putLong (by omega) _), bind_apply_ok (show available _ = .ok (_, _) from rfl),
    throwIf_bind, if_neg (by simp; omega), if_neg hne, bind_apply_ok (reads_getOctet t _),
    bind_apply_ok (reads_putLong hcount _)]
  simp only [htype]
  rw [bind_apply_ok (show available _ = .ok (_, _) from rfl), throwIf_bind, if_neg (by simp; omega),
    throwIf_bind, hcou', if_neg (by simp; omega)]
  exact h.map _ rest

/-- An array is read back if each of its elements is. -/
theorem codes_array {c : DataClass} (htype : setType t = .ok c)
    (htypes : ∀ v ∈ vs, v.getType = t) (hzero : c.emptySize = 0 → vs.length ≤ 256)
    (hmin : ∀ v ∈ vs, c.emptySize ≤ v.dataSize) (hsize : dataSize (.array t vs) < 2 ^ 32)
    (h : ∀ v ∈ vs, ∃ o v', Codes v o v') : ∃ o v', Codes (.array t vs) o v' := by
  obtain ⟨o, vs', hwri, hlen, hreads, hall⟩ := codes_elements htypes h
  have hmul : vs.length * c.emptySize ≤ valuesSize 0 vs := length_mul_le_valuesSize fun v hv => by
    have := hmin v hv
    omega
  rw [dataSize] at hsize
  refine ⟨ofNat 4 (5 + valuesSize 0 vs) ++ ([t] ++ (ofNat 4 vs.length ++ o)), .array t vs',
    ⟨⟨rfl, ?_, ?_, ?_⟩, ?_, ?_, ?_⟩⟩
  · rw [dataSize, dataSize, valuesSize_of_forall₂ hall fun _ _ h => h.size]
  · refine .array htype (forall_right hall fun v hv v' h => ?_) ?_ (forall_right hall fun v hv v' h => ?_)
      (forall_right hall fun _ _ _ h => h.fits)
    · rw [h.type, htypes v hv]
    · rwa [← hall.length_eq]
    · rw [h.size]
      exact hmin v hv
  · exact .array hall.length_eq fun p hp => (zip_of_forall₂ hall p hp).same
  · have h1 := writes_putLong (5 + valuesSize 0 vs)
    have h2 := writes_putLong vs.length
    rw [Nat.mod_eq_of_lt (by omega)] at h1
    rw [Nat.mod_eq_of_lt (count_lt hsize hmul hzero)] at h2
    rw [encodeData, size_sub (by omega) hsize, show 9 + valuesSize 0 vs - 4 = 5 + valuesSize 0 vs by omega]
    exact h1.bind ((writes_putRawData [t]).bind (h2.bind hwri))
  · simp only [length_append, length_ofNat, length_singleton, dataSize]
    omega
  intro fuel hfuel
  rw [dataSize] at hfuel
  cases fuel with
  | zero => omega
  | succ fuel => exact reads_decodeArray htype hlen hsize hmul hzero (hreads fuel (by omega))

/-- What fits is written as so many octets as its size says, and read back. -/
theorem codes_of_fits {v : Value} (hv : Fits v) (hsize : v.dataSize < 2 ^ 32) : ∃ o v', Codes v o v' := by
  induction hv with
  | fixedWidth htype => exact ⟨_, _, codes_fixedWidth htype⟩
  | variableWidth htype hlen => exact ⟨_, _, codes_variableWidth htype hlen⟩
  | table hsor hkeys _ ih =>
    obtain ⟨o, -, ho, -⟩ := codes_table hsor hkeys hsize fun e he => ih e he (by
      have := dataSize_le_entriesSize he
      rw [dataSize] at hsize
      omega)
    exact ⟨o, _, ho⟩
  | raw hlen hdec hval => exact ⟨_, _, codes_raw hlen hdec hval⟩
  | list _ ih =>
    refine codes_list hsize fun v hv => ih v hv ?_
    have := dataSize_le_valuesSize hv 1
    rw [dataSize] at hsize
    omega
  | array htype htypes hzero hmin _ ih =>
    refine codes_array htype htypes hzero hmin hsize fun v hv => ih v hv ?_
    have := dataSize_le_valuesSize hv 0
    rw [dataSize] at hsize
    omega

end QB.Spec.Field
