import QpidBroker.Proof.FieldCodec

/-!
# Equality of field values

`==` goes down the values with the comparison of their parts. If each comparison of parts
ends and tells whether the parts are of the same structure, so does the comparison of the
whole: for the values of arrays one by one, for tables by the keys of one in the other.
-/

namespace QB.Spec.Field

open Codec Impl Impl.Field Impl.Buffer Value List

/-! ## Entries -/

variable {es : ValueMap} {v w : Value} {eq : Value → Value → Except CodingError Bool} {t : BitVec 8}
  {vs : List Value}

/-- Entries are decoded into a map, in whatever order they come. -/
theorem sorted_realDecodeLoop {leftover count : Nat} {acc : ValueMap} {l r : Octets} (hacc : SortedMap.Sorted acc)
    (h : realDecodeLoop leftover count acc l = .ok (es, r)) : SortedMap.Sorted es := by
  induction count generalizing acc l with
  | zero => cases h; exact hacc
  | succ count ih =>
    rw [realDecodeLoop] at h
    beta_reduce at h
    split at h
    · obtain ⟨⟨name, l1⟩, -, h⟩ := bind_eq_ok.1 h
      obtain ⟨⟨value, l2⟩, -, h⟩ := bind_eq_ok.1 h
      exact ih hacc.assign h
    · cases h
      exact hacc

theorem sorted_realDecode {b : Octets} (h : realDecode b = .ok es) : SortedMap.Sorted es := by
  obtain ⟨r, hr, rfl⟩ := map_eq_ok.1 h
  obtain ⟨⟨len, l⟩, -, hr⟩ := bind_eq_ok.1 hr
  simp only at hr
  by_cases hlen : len = 0
  · rw [if_pos hlen] at hr
    cases hr
    exact List.Pairwise.nil
  · rw [if_neg hlen, bind_apply_ok (show available _ = .ok (_, _) from rfl)] at hr
    obtain ⟨⟨count, l⟩, -, hr⟩ := bind_eq_ok.1 hr
    exact sorted_realDecodeLoop (show SortedMap.Sorted [] from List.Pairwise.nil) hr

theorem Fits.entries (hv : Fits v) (h : v.entries = some (.ok es)) :
    SortedMap.Sorted es ∧ ∀ e ∈ es, Fits e.2 := by
  cases hv with
  | table hsor _ hval =>
    cases h
    exact ⟨hsor, hval⟩
  | raw _ hdec hval =>
    rw [Value.entries, hdec] at h
    cases h
    exact ⟨sorted_realDecode hdec, hval⟩
  | _ => cases h

/-! ## Comparisons of parts -/

/-- The comparison with any value that fits ends, and finds out about the structure. -/
def Decided (v : Value) : Prop :=
  ∀ w, Fits w → ListFree w → ∃ b, Compares v w b ∧ (b = true ↔ Same v w)

section parts

/-- Lists are compared value by value, with fuel enough for each. -/
theorem eqValues_decided {vs ws : List Value} (hv : ∀ v ∈ vs, Decided v)
    (hw : ∀ w ∈ ws, Fits w ∧ ListFree w) :
    ∃ b n, (∀ depth, n ≤ depth → eqValues (Value.eq depth) vs ws = .ok b) ∧
      (b = true ↔ ∀ p ∈ vs.zip ws, Same p.1 p.2) := by
  induction vs generalizing ws with
  | nil => exact ⟨true, 0, fun _ _ => rfl, by simp⟩
  | cons v vs ih =>
    cases ws with
    | nil => exact ⟨true, 0, fun _ _ => rfl, by simp⟩
    | cons w ws =>
      obtain ⟨b, ⟨n, hn⟩, hb⟩ := hv v mem_cons_self w (hw w mem_cons_self).1 (hw w mem_cons_self).2
      obtain ⟨b', n', hn', hb'⟩ := ih (fun x hx => hv x (mem_cons_of_mem _ hx))
        fun x hx => hw x (mem_cons_of_mem _ hx)
      refine ⟨b && b', max n n', fun depth hd => ?_, ?_⟩
      · simp only [eqValues, hn depth (by omega), hn' depth (by omega)]
        cases b <;> rfl
      · rw [Bool.and_eq_true, hb, hb', zip_cons_cons, forall_mem_cons]

/-- Tables are compared by looking each key up in the other. -/
theorem eqEntries_decided {es es' : ValueMap} (hv : ∀ e ∈ es, Decided e.2)
    (hw : ∀ e ∈ es', Fits e.2 ∧ ListFree e.2)
    (hnodup : (es'.map Prod.fst).Nodup) :
    ∃ b n, (∀ depth, n ≤ depth → eqEntries (Value.eq depth) es' es = .ok b) ∧
      (b = true ↔ ∀ e ∈ es, ∃ w, es'.lookup e.1 = some w ∧ Same e.2 w) := by
  induction es with
  | nil => exact ⟨true, 0, fun _ _ => rfl, by simp⟩
  | cons e es ih =>
    obtain ⟨k, v⟩ := e
    obtain ⟨b', n', hn', hb'⟩ := ih fun x hx => hv x (mem_cons_of_mem _ hx)
    cases hk : es'.lookup k with
    | none =>
      refine ⟨false, 0, fun depth _ => by simp only [eqEntries, hk]; rfl, ?_⟩
      simp [hk]
    | some w =>
      have hmem := (Assoc.mem_iff_lookup hnodup).2 hk
      obtain ⟨b, ⟨n, hn⟩, hb⟩ := hv (k, v) mem_cons_self w (hw _ hmem).1 (hw _ hmem).2
      refine ⟨b && b', max n n', fun depth hd => ?_, ?_⟩
      · simp only [eqEntries, hk, hn depth (by omega), hn' depth (by omega)]
        cases b <;> rfl
      · rw [Bool.and_eq_true, hb, hb']
        simp [hk]

/-- In sorted tables of one length, looking up is comparing one by one. -/
theorem lookup_same_iff {es es' : ValueMap} (h : SortedMap.Sorted es) (h' : SortedMap.Sorted es')
    (hlen : es.length = es'.length) : (∀ e ∈ es, ∃ w, es'.lookup e.1 = some w ∧ Same e.2 w) ↔
      es.map Prod.fst = es'.map Prod.fst ∧ ∀ p ∈ es.zip es', Same p.1.2 p.2.2 := by
  have hzip : ∀ p ∈ es.zip es', es.map Prod.fst = es'.map Prod.fst → p.1.1 = p.2.1 := by
    intro p hp hkeys
    obtain ⟨i, hi, rfl⟩ := getElem_of_mem hp
    rw [length_zip] at hi
    have hkey := getElem_of_eq hkeys (i := i) (by rw [length_map]; omega)
    rw [getElem_map, getElem_map] at hkey
    rwa [getElem_zip]
  constructor
  · intro hall
    have hkeys := h.keys_eq h' hlen fun a ha => by
      obtain ⟨e, he, rfl⟩ := mem_map.1 ha
      obtain ⟨w, hw, -⟩ := hall e he
      exact Assoc.lookup_isSome_iff.1 (by rw [hw]; rfl)
    refine ⟨hkeys, fun p hp => ?_⟩
    obtain ⟨w, hw, hsame⟩ := hall p.1 (of_mem_zip hp).1
    have hmem := (Assoc.mem_iff_lookup h'.nodup).1 (of_mem_zip hp).2
    rw [hzip p hp hkeys, hmem] at hw
    cases hw
    exact hsame
  rintro ⟨hkeys, hall⟩ e he
  obtain ⟨i, hi, rfl⟩ := getElem_of_mem he
  have hi' : i < es'.length := by omega
  have hp : (es[i], es'[i]) ∈ es.zip es' := by
    rw [← getElem_zip (h := by rw [length_zip]; omega)]
    exact getElem_mem _
  refine ⟨es'[i].2, ?_, hall _ hp⟩
  rw [hzip _ hp hkeys]
  exact (Assoc.mem_iff_lookup h'.nodup).1 (getElem_mem hi')

end parts

/-! ## Comparisons of values -/

theorem getType_of_entries {es : Except CodingError ValueMap} (h : v.entries = some es) : v.getType = 0xa8 := by
  cases v with
  | table => rfl
  | raw => rfl
  | _ => cases h

theorem eqData_of_entries
    {es es' : Except CodingError ValueMap} (hv : v.entries = some es) (hw : w.entries = some es') :
    eqData eq v w = eqTables eq es es' := by
  cases v <;> cases w <;> cases hv <;> cases hw <;> rfl

theorem eqData_of_entries_none
    {es : Except CodingError ValueMap} (hv : v.entries = some es) (hw : w.entries = none) :
    eqData eq v w = .ok false := by
  cases v <;> cases w <;> cases hv <;> cases hw <;> rfl

theorem Same.getType_eq (h : Same v w) : v.getType = w.getType := by
  cases h with
  | table hv hw => rw [getType_of_entries hv, getType_of_entries hw]
  | _ => rfl

/-- Values of different types are different. -/
theorem compares_of_getType_ne (h : v.getType ≠ w.getType) : ∃ b, Compares v w b ∧ (b = true ↔ Same v w) := by
  refine ⟨false, ⟨1, fun depth hd => ?_⟩, by simpa using fun hs => h (Same.getType_eq hs)⟩
  obtain ⟨depth, rfl⟩ : ∃ d, depth = d + 1 := ⟨depth - 1, by omega⟩
  rw [Value.eq, if_pos h]
  rfl

theorem same_table_iff {es' : ValueMap} (hv : v.entries = some (.ok es)) (hw : w.entries = some (.ok es')) :
    Same v w ↔ es.map Prod.fst = es'.map Prod.fst ∧ ∀ p ∈ es.zip es', Same p.1.2 p.2.2 := by
  refine ⟨fun h => ?_, fun h => .table hv hw h.1 h.2⟩
  cases h with
  | table hv' hw' hkeys hval =>
    rw [hv] at hv'
    rw [hw] at hw'
    cases hv'
    cases hw'
    exact ⟨hkeys, hval⟩
  | _ => cases hv

/-- The comparison of tables ends if that of their values does. -/
theorem compares_tables {es' : ValueMap} (hv : v.entries = some (.ok es))
    (hw : w.entries = some (.ok es')) (h : SortedMap.Sorted es) (h' : SortedMap.Sorted es')
    (hdec : ∀ e ∈ es, Decided e.2) (hfits : ∀ e ∈ es', Fits e.2 ∧ ListFree e.2) :
    ∃ b, Compares v w b ∧ (b = true ↔ Same v w) := by
  have htype : v.getType = w.getType := by rw [getType_of_entries hv, getType_of_entries hw]
  have heq : ∀ depth, Value.eq (depth + 1) v w = eqTables (Value.eq depth) (.ok es) (.ok es') := by
    intro depth
    rw [Value.eq, if_neg (by simpa using htype), eqData_of_entries hv hw]
  by_cases hlen : es.length = es'.length
  · obtain ⟨b, n, hn, hb⟩ := eqEntries_decided hdec hfits h'.nodup
    refine ⟨b, ⟨n + 1, fun depth hd => ?_⟩, by rw [hb, lookup_same_iff h h' hlen, same_table_iff hv hw]⟩
    obtain ⟨depth, rfl⟩ : ∃ d, depth = d + 1 := ⟨depth - 1, by omega⟩
    rw [heq, ← hn depth (by omega)]
    exact if_neg (by simpa using hlen)
  refine ⟨false, ⟨1, fun depth hd => ?_⟩, ?_⟩
  · obtain ⟨depth, rfl⟩ : ∃ d, depth = d + 1 := ⟨depth - 1, by omega⟩
    rw [heq]
    exact if_pos hlen
  · rw [same_table_iff hv hw]
    refine ⟨fun h => by simp at h, fun h => absurd ?_ hlen⟩
    rw [← length_map, h.1, length_map]

theorem compares_of_eqData {b : Bool} (htype : v.getType = w.getType) {n : Nat}
    (h : ∀ depth, n ≤ depth → eqData (Value.eq depth) v w = .ok b) : Compares v w b := by
  refine ⟨n + 1, fun depth hd => ?_⟩
  obtain ⟨depth, rfl⟩ : ∃ d, depth = d + 1 := ⟨depth - 1, by omega⟩
  rw [Value.eq, if_neg (by simpa using htype), h depth (by omega)]

theorem compares_of_class_ne (htype : v.getType = w.getType)
    (h : ∀ eq, eqData eq v w = .ok false) (hsame : ¬ Same v w) : ∃ b, Compares v w b ∧ (b = true ↔ Same v w) :=
  ⟨false, compares_of_eqData htype (n := 0) fun _ _ => h _, by simpa using hsame⟩

theorem ListFree.entries (h : ListFree v) (hv : v.entries = some (.ok es)) : ∀ e ∈ es, ListFree e.2 := by
  cases h with
  | table hv' hval =>
    rw [hv] at hv'
    cases hv'
    exact hval
  | _ => cases hv

theorem Fits.entries_eq (h : Fits v) : v.entries = none ∨ ∃ es, v.entries = some (.ok es) := by
  cases h with
  | table => exact .inr ⟨_, rfl⟩
  | raw _ hdec => exact .inr ⟨_, congrArg some hdec⟩
  | _ => exact .inl rfl

theorem Fits.elements (h : Fits (.array t vs)) : ∀ v ∈ vs, Fits v := by
  cases h with
  | array _ _ _ _ hval => exact hval

theorem ListFree.elements (h : ListFree (.array t vs)) : ∀ v ∈ vs, ListFree v := by
  cases h with
  | table hv => cases hv
  | array hval => exact hval

/-- The comparison of arrays ends if that of their elements does. -/
theorem compares_arrays {t' : BitVec 8} {ws : List Value} (hdec : ∀ v ∈ vs, Decided v)
    (hw : Fits (.array t' ws)) (hlw : ListFree (.array t' ws)) :
    ∃ b, Compares (.array t vs) (.array t' ws) b ∧ (b = true ↔ Same (.array t vs) (.array t' ws)) := by
  by_cases h : t ≠ t' ∨ vs.length ≠ ws.length
  · refine ⟨false, compares_of_eqData rfl (n := 0) fun _ _ => if_pos h, ?_⟩
    refine ⟨fun hb => by simp at hb, fun hs => ?_⟩
    cases hs with
    | table hv => cases hv
    | array hlen => exact absurd h (by simp [hlen])
  obtain ⟨rfl, hlen⟩ : t = t' ∧ vs.length = ws.length := by simpa using h
  obtain ⟨b, n, hn, hb⟩ := eqValues_decided hdec fun w hw' => ⟨hw.elements w hw', hlw.elements w hw'⟩
  refine ⟨b, compares_of_eqData rfl (n := n) fun depth hd => ?_, ?_⟩
  · rw [← hn depth hd]
    exact if_neg h
  rw [hb]
  refine ⟨fun hall => .array hlen hall, fun hs => ?_⟩
  cases hs with
  | table hv => cases hv
  | array _ hval => exact hval

theorem decided_of_getType_eq (h : ∀ w, Fits w → ListFree w → v.getType = w.getType →
    ∃ b, Compares v w b ∧ (b = true ↔ Same v w)) : Decided v := by
  intro w hw hlw
  by_cases htype : v.getType = w.getType
  · exact h w hw hlw htype
  · exact compares_of_getType_ne htype

/-- Every value whose lists are empty is compared. The induction follows `ListFree`. -/
theorem decided_of_listFree (hl : ListFree v) (hv : Fits v) : Decided v := by
  induction hl with
  | fixedWidth t o =>
    refine decided_of_getType_eq fun w hw _ htype => ?_
    cases w with
    | fixedWidth t' o' =>
      cases htype
      refine ⟨o == o', compares_of_eqData rfl (n := 0) fun _ _ => rfl, ?_⟩
      rw [beq_iff_eq]
      exact ⟨fun h => h ▸ .fixedWidth t o, fun h => by cases h with | fixedWidth => rfl | table hv => cases hv⟩
    | _ => exact compares_of_class_ne htype (fun _ => rfl) fun h => by cases h with | table hv => cases hv
  | variableWidth t lw o =>
    refine decided_of_getType_eq fun w hw _ htype => ?_
    cases w with
    | variableWidth t' lw' o' =>
      cases htype
      refine ⟨lw == lw' && o == o', compares_of_eqData rfl (n := 0) fun _ _ => rfl, ?_⟩
      rw [Bool.and_eq_true, beq_iff_eq, beq_iff_eq]
      refine ⟨?_, fun h => by cases h with | variableWidth => exact ⟨rfl, rfl⟩ | table hv => cases hv⟩
      rintro ⟨rfl, rfl⟩
      exact .variableWidth t lw o
    | _ => exact compares_of_class_ne htype (fun _ => rfl) fun h => by cases h with | table hv => cases hv
  | @table v es hent _ ih =>
    refine decided_of_getType_eq fun w hw hlw htype => ?_
    obtain ⟨hsor, hfits⟩ := hv.entries hent
    obtain hnone | ⟨es', hw'⟩ := hw.entries_eq
    · refine compares_of_class_ne htype (fun eq => eqData_of_entries_none hent hnone) fun h => ?_
      cases h with
      | table _ hw' => rw [hnone] at hw'; cases hw'
      | _ => cases hent
    · obtain ⟨hsor', hfits'⟩ := hw.entries hw'
      exact compares_tables hent hw' hsor hsor' (fun e he => ih e he (hfits e he))
        fun e he => ⟨hfits' e he, hlw.entries hw' e he⟩
  | list =>
    refine decided_of_getType_eq fun w hw hlw htype => ?_
    cases w with
    | list ws =>
      cases hlw with
      | table hv => cases hv
      | list =>
        exact ⟨true, compares_of_eqData rfl (n := 0) fun _ _ => rfl, by simpa using Same.list rfl (by simp)⟩
    | _ => exact compares_of_class_ne htype (fun _ => rfl) fun h => by cases h with | table hv => cases hv
  | @array t vs hvalues ih =>
    refine decided_of_getType_eq fun w hw hlw htype => ?_
    cases w with
    | array t' ws => exact compares_arrays (fun v hv' => ih v hv' (hv.elements v hv')) hw hlw
    | _ => exact compares_of_class_ne htype (fun _ => rfl) fun h => by cases h with | table hv => cases hv

theorem Same.listFree (h : Same v w) (hv : ListFree v) : ListFree w := by
  induction h with
  | fixedWidth => exact .fixedWidth _ _
  | variableWidth => exact .variableWidth _ _ _
  | @table v w es es' hentries hw hkeys _ ih =>
    refine .table hw fun e he => ?_
    obtain ⟨i, hi, rfl⟩ := getElem_of_mem he
    have hlen : es.length = es'.length := by rw [← length_map, hkeys, length_map]
    have hp : (es[i], es'[i]) ∈ es.zip es' := by
      rw [← getElem_zip (h := by rw [length_zip]; omega)]
      exact getElem_mem _
    exact ih _ hp (hv.entries hentries _ (getElem_mem _))
  | @list vs ws hlen _ _ =>
    cases hv with
    | table hv => cases hv
    | list =>
      obtain rfl : ws = [] := eq_nil_of_length_eq_zero hlen.symm
      exact .list
  | @array t vs ws hlen _ ih =>
    refine .array fun w hw => ?_
    obtain ⟨i, hi, rfl⟩ := getElem_of_mem hw
    have hp : (vs[i], ws[i]) ∈ vs.zip ws := by
      rw [← getElem_zip (h := by rw [length_zip]; omega)]
      exact getElem_mem _
    exact ih _ hp (hv.elements _ (getElem_mem _))

/-- A value that fits is written as just so many octets as `encodedSize` says. From these
octets, whatever follows them, a value of the same structure is read; without lists it is
equal (`==`) to the one that was written. Among values without lists, `==` is sameness of
structure. -/
theorem field_values_survive_the_wire {v : Value} (hv : Fits v) (hsize : v.dataSize < 2 ^ 32) :
    (∃ o v', o.length = v.encodedSize.toNat ∧ Writes .outOfBounds v.encodeData o ∧
      (∀ rest, decodeData ((o ++ rest).length + 1) v.getType (o ++ rest) = .ok (v', rest)) ∧
      Same v v' ∧ (ListFree v → Compares v v' true)) ∧
    (ListFree v → ∀ w, Fits w → ListFree w → ∃ b, Compares v w b ∧ (b = true ↔ Same v w)) := by
  obtain ⟨o, v', h⟩ := codes_of_fits hv hsize
  refine ⟨⟨o, v', ?_, h.writes, fun rest => ?_, h.same, fun hl => ?_⟩, fun hl => decided_of_listFree hl hv⟩
  · rw [h.length, encodedSize, BitVec.toNat_ofNat, Nat.mod_eq_of_lt hsize]
  · refine h.reads ?_ rest
    rw [length_append, h.length]
    omega
  · obtain ⟨b, hb, hiff⟩ := decided_of_listFree hl hv v' h.fits (h.same.listFree hl)
    rwa [hiff.2 h.same] at hb

/-- A table with an array of texts and an empty list. -/
def nestedTable : Value := .table [([0x61], .array 0x95 [.variableWidth 0x95 2 [0x62]]), ([0x63], .list [])]

theorem fits_nestedTable : Fits nestedTable := by
  refine .table (by simp [SortedMap.Sorted]; decide) (by simp) ?_
  simp only [forall_mem_cons, and_true, not_mem_nil, false_imp_iff, implies_true]
  refine ⟨.array rfl (by simp [getType]) (by simp)
    (by simp [DataClass.emptySize, dataSize]) ?_, .list (by simp)⟩
  simpa using Fits.variableWidth rfl (by decide)

theorem nestedTable_survives_the_wire : ∃ o v', o.length = 34 ∧ Writes .outOfBounds nestedTable.encodeData o ∧
    (∀ rest, decodeData ((o ++ rest).length + 1) 0xa8 (o ++ rest) = .ok (v', rest)) ∧ Same nestedTable v' := by
  obtain ⟨⟨o, v', hlen, hwri, hreads, hsame, -⟩, -⟩ :=
    field_values_survive_the_wire fits_nestedTable (by decide +kernel)
  exact ⟨o, v', hlen, hwri, hreads, hsame⟩

/-- An array of 257 values without octets can be written, but is not read. -/
theorem void_array_is_refused : ∃ o,
    encodeData (.array 0xf0 (List.replicate 257 (.fixedWidth 0xf0 []))) ⟨[], 9⟩ = .ok ((), ⟨o, 0⟩) ∧
      decodeData 10 0xaa o = .error (.illegalArgument "Too many zero length elements in array: 257") :=
  ⟨[0, 0, 0, 5, 0xf0, 0, 0, 1, 1], by decide +kernel, rfl⟩

end QB.Spec.Field
