import QpidBroker.Framework.Run
import QpidBroker.Proof.FieldEquality
import QpidBroker.Spec.FieldTableMap

/-!
# Field tables behave as maps

`Represents t m`: the table `t` stands for the map `m`, in its octets, its entries or both.
Each operation on a table keeps it so with what it does to the map, and replies as the map
does; a run of operations on any number of tables is then by induction.
-/

namespace QB.Spec.Field

open Codec Impl Impl.Field Impl.Buffer Value List

/-! ## Structure -/

section structure_of_values

variable {α β γ : Type} {R : α → β → Prop} {l : List α} {l' : List β} {l'' : List γ}

theorem forall₂_of_zip (hlen : l.length = l'.length) (h : ∀ p ∈ l.zip l', R p.1 p.2) : List.Forall₂ R l l' :=
  forall₂_iff_zip.2 ⟨hlen, fun {a b} hp => h (a, b) hp⟩

theorem zip_flip (hlen : l.length = l'.length) (h : ∀ p ∈ l.zip l', R p.1 p.2) : ∀ p ∈ l'.zip l, R p.2 p.1 :=
  zip_of_forall₂ (R := flip R) (Forall₂.flip (forall₂_of_zip hlen h))

theorem forall₂_comp {S : β → γ → Prop} {T : α → γ → Prop} (hT : ∀ {a b c}, R a b → S b c → T a c)
    (h : List.Forall₂ R l l') (h' : List.Forall₂ S l' l'') : List.Forall₂ T l l'' := by
  induction h generalizing l'' with
  | nil =>
    cases h'
    exact .nil
  | cons hr _ ih =>
    cases h' with
    | cons hs h' => exact .cons (hT hr hs) (ih h')

theorem length_of_keys {es es' : ValueMap} (h : es.map Prod.fst = es'.map Prod.fst) : es.length = es'.length := by
  rw [← length_map, h, length_map]

theorem Same.symm {v w : Value} (h : Same v w) : Same w v := by
  induction h with
  | fixedWidth => exact .fixedWidth _ _
  | variableWidth => exact .variableWidth _ _ _
  | table hv hw hkeys _ ih =>
    exact .table hw hv hkeys.symm
      (zip_flip (R := fun e e' : Octets × Value => Same e'.2 e.2) (length_of_keys hkeys) ih)
  | list hlen _ ih => exact .list hlen.symm (zip_flip (R := fun v w => Same w v) hlen ih)
  | array hlen _ ih => exact .array hlen.symm (zip_flip (R := fun v w => Same w v) hlen ih)

/-- The relation is transitive, over nested tables. -/
theorem Same.trans {u v w : Value} (h : Same u v) (h' : Same v w) : Same u w := by
  induction h generalizing w with
  | fixedWidth => exact h'
  | variableWidth => exact h'
  | table hu hv hkeys _ ih =>
    cases h' with
    | table hv' hw hkeys' hval =>
      rw [hv] at hv'
      cases hv'
      refine .table hu hw (hkeys.trans hkeys') (zip_of_forall₂ (R := fun e e' : Octets × Value => Same e.2 e'.2) ?_)
      exact forall₂_comp (fun h h' => h h')
        (forall₂_of_zip (R := fun e e' : Octets × Value => ∀ {w}, Same e'.2 w → Same e.2 w)
          (length_of_keys hkeys) fun p hp {_} => ih p hp)
        (forall₂_of_zip (length_of_keys hkeys') hval)
    | _ => cases hv
  | list hlen _ ih =>
    cases h' with
    | table hv => cases hv
    | list hlen' hval =>
      refine .list (hlen.trans hlen') (zip_of_forall₂ (forall₂_comp (fun h h' => h h')
        (forall₂_of_zip (R := fun v v' => ∀ {w}, Same v' w → Same v w) hlen fun p hp {_} => ih p hp)
        (forall₂_of_zip hlen' hval)))
  | array hlen _ ih =>
    cases h' with
    | table hv => cases hv
    | array hlen' hval =>
      refine .array (hlen.trans hlen') (zip_of_forall₂ (forall₂_comp (fun h h' => h h')
        (forall₂_of_zip (R := fun v v' => ∀ {w}, Same v' w → Same v w) hlen fun p hp {_} => ih p hp)
        (forall₂_of_zip hlen' hval)))

end structure_of_values

variable {v : Value}

/-- A value that fits is its own image. -/
theorem Fits.image (h : Fits v) : Image v v := ⟨rfl, rfl, h, h.same⟩

theorem Image.trans {u w : Value} (h : Image u v) (h' : Image v w) : Image u w :=
  ⟨h'.type.trans h.type, h'.size.trans h.size, h'.fits, h.same.trans h'.same⟩

/-! ## Entries -/

section entries

variable {m es es' : ValueMap}

theorem EntryImage.trans {e e' e'' : Octets × Value} (h : EntryImage e e') (h' : EntryImage e' e'') :
    EntryImage e e'' := ⟨h'.1.trans h.1, h.2.trans h'.2⟩

/-- Images of the entries are as large. -/
theorem entriesSize_of_forall₂ (h : List.Forall₂ EntryImage m es) : entriesSize es = entriesSize m := by
  induction h with
  | nil => rfl
  | @cons e e' _ _ he _ ih =>
    obtain ⟨k, v⟩ := e
    obtain ⟨k', v'⟩ := e'
    obtain rfl : k' = k := he.1
    have hsize : v'.dataSize = v.dataSize := he.2.size
    rw [entriesSize, entriesSize, ih, hsize]

theorem size_of_forall₂ (h : List.Forall₂ EntryImage m es) : dataSize (.table es) = dataSize (.table m) := by
  rw [dataSize, dataSize, entriesSize_of_forall₂ h]

/-- A table of images fits if the entries do. -/
theorem fits_of_forall₂ (hm : Fits (.table m)) (h : List.Forall₂ EntryImage m es) : Fits (.table es) := by
  cases hm with
  | table hsor hkeys hval =>
    refine .table ?_ (forall_right h fun e he e' h' => h'.1 ▸ hkeys e he) (forall_right h fun _ _ _ h' => h'.2.fits)
    rwa [SortedMap.Sorted, ← keys_of_forall₂ h]

theorem same_of_forall₂ {v w : Value} (hv : v.entries = some (.ok m)) (hw : w.entries = some (.ok es))
    (h : List.Forall₂ EntryImage m es) : Same v w :=
  .table hv hw (keys_of_forall₂ h) fun p hp => (zip_of_forall₂ h p hp).2.same

theorem Fits.forall₂ (h : Fits (.table m)) : List.Forall₂ EntryImage m m := by
  cases h with
  | table _ _ hval => exact forall₂_same.2 fun e he => ⟨rfl, (hval e he).image⟩

theorem Fits.assign {k : Octets} {v : Value} (h : Fits (.table m)) (hk : k.length ≤ 255) (hv : Fits v) :
    Fits (.table (SortedMap.assign k v m)) := by
  cases h with
  | table hsor hkeys hval =>
    refine .table hsor.assign (fun e he => ?_) fun e he => ?_
    · rcases SortedMap.mem_assign he with rfl | he
      · exact hk
      · exact hkeys e he
    · rcases SortedMap.mem_assign he with rfl | he
      · exact hv
      · exact hval e he

theorem Fits.filter (h : Fits (.table m)) (p : Octets × Value → Bool) : Fits (.table (m.filter p)) := by
  cases h with
  | table hsor hkeys hval =>
    exact .table (hsor.filter p) (fun e he => hkeys e (mem_of_mem_filter he))
      fun e he => hval e (mem_of_mem_filter he)

theorem size_filter_le (m : ValueMap) (p : Octets × Value → Bool) :
    dataSize (.table (m.filter p)) ≤ dataSize (.table m) := by
  rw [dataSize, dataSize]
  induction m with
  | nil => simp
  | cons e m ih =>
    rw [filter_cons]
    split
    · rw [entriesSize, entriesSize]
      omega
    · rw [entriesSize]
      omega

end entries

/-! ## Tables and their maps -/

/-- A table is read as long as its size says. -/
theorem length_of_decodeTable {buffer b rest : Octets} (h : decodeTable buffer = .ok (b, rest)) :
    b.length = (Octets.word 32 (b.take 4)).toNat + 4 := by
  simp only [decodeTable] at h
  split at h
  · cases h
  split at h
  · cases h
  rw [getRawData, take_eq_ok (by omega)] at h
  cases h
  rw [length_take, take_take, Nat.min_eq_left (by omega), Nat.min_eq_left (by omega)]

/-- The octets of a table, whose entries are those of the map. -/
structure Holds (b : Octets) (m : ValueMap) : Prop where
  length : b.length = (Octets.word 32 (b.take 4)).toNat + 4
  decoded : ∃ es, realDecode b = .ok es ∧ List.Forall₂ EntryImage m es

/-- The table stands for the map. -/
structure Represents (t : Table) (m : ValueMap) : Prop where
  fits : Fits (.table m)
  size : dataSize (.table m) < 2 ^ 32
  values : t.newBytes = false → List.Forall₂ EntryImage m t.values
  bytes : ∀ b, t.cachedBytes = some b → t.cachedSize = b.length ∧ Holds b m
  fresh : t.newBytes = true → t.values = [] ∧ t.cachedBytes ≠ none
  cachedSize : t.cachedBytes = none → t.cachedSize = 0 ∨ t.cachedSize = dataSize (.table t.values)

namespace Represents

variable {t u : Table} {m m' : ValueMap}

/-- Only octets that were read are still to be decoded. -/
theorem newBytes_of_none (h : Represents t m) (hnone : t.cachedBytes = none) : t.newBytes = false := by
  cases hnew : t.newBytes with
  | false => rfl
  | true => exact absurd hnone (h.fresh hnew).2

theorem of_bytes {b : Octets} (hfits : Fits (.table m)) (hsize : dataSize (.table m) < 2 ^ 32) (hb : Holds b m) :
    Represents ⟨[], some b, b.length, true⟩ m where
  fits := hfits
  size := hsize
  values h := by cases h
  bytes b' h := by
    cases h
    exact ⟨rfl, hb⟩
  fresh _ := ⟨rfl, by simp⟩
  cachedSize h := by cases h

theorem of_values {es : ValueMap} (hfits : Fits (.table m)) (hsize : dataSize (.table m) < 2 ^ 32)
    (hall : List.Forall₂ EntryImage m es) : Represents ⟨es, none, 0, false⟩ m where
  fits := hfits
  size := hsize
  values _ := hall
  bytes b h := by cases h
  fresh h := by cases h
  cachedSize _ := .inl rfl

theorem empty : Represents {} [] := by
  refine of_values (.table List.Pairwise.nil (by simp) (by simp)) ?_ .nil
  rw [dataSize, entriesSize]
  omega

theorem flushRawCache (h : Represents t m) (hnew : t.newBytes = false) : Represents t.flushRawCache m := by
  obtain ⟨vs, cb, cs, nb⟩ := t
  cases hnew
  exact of_values h.fits h.size (h.values rfl)

/-- Decoding what was read late gives the same map. -/
theorem realDecode (h : Represents t m) : ∃ t', t.realDecode = .ok t' ∧ Represents t' m ∧
    t'.newBytes = false := by
  cases hnew : t.newBytes with
  | false => exact ⟨t, by rw [Table.realDecode, hnew]; rfl, h, hnew⟩
  | true =>
    obtain ⟨hval, hsome⟩ := h.fresh hnew
    obtain ⟨b, hb⟩ := Option.ne_none_iff_exists'.1 hsome
    obtain ⟨hcs, hholds⟩ := h.bytes b hb
    obtain ⟨es, hes, hall⟩ := hholds.decoded
    refine ⟨{ t with values := es, newBytes := false }, ?_, ?_, rfl⟩
    · rw [Table.realDecode, hnew, hval, hb]
      exact map_eq_ok.2 ⟨es, hes, rfl⟩
    · refine ⟨h.fits, h.size, fun _ => hall, h.bytes, nofun, fun hnone => ?_⟩
      exact absurd hnone (by simp [hb])

/-- The entries are encoded as octets that hold them. -/
theorem encodeValues (h : Represents t m) (hnone : t.cachedBytes = none) :
    ∃ o, t.encodedSize = (o.length, { t with cachedSize := o.length }) ∧
      t.encodedSize.2.encodeValues t.encodedSize.1 = .ok o ∧ Holds o m ∧
      o.length = dataSize (.table t.values) := by
  have hall := h.values (h.newBytes_of_none hnone)
  have hfits := fits_of_forall₂ h.fits hall
  have hsize : dataSize (.table t.values) < 2 ^ 32 := by rw [size_of_forall₂ hall]; exact h.size
  obtain ⟨o, es, hcodes, hdec, hall'⟩ : ∃ o es, Codes (.table t.values) o (.raw o) ∧
      Value.realDecode o = .ok es ∧ List.Forall₂ EntryImage t.values es := by
    cases hfits with
    | table hsor hkeys hval =>
      refine codes_table hsor hkeys hsize fun e he => codes_of_fits (hval e he) ?_
      have := dataSize_le_entriesSize he
      rw [dataSize] at hsize
      omega
  have hlen := hcodes.length
  have henc : t.encodedSize = (o.length, { t with cachedSize := o.length }) := by
    rw [dataSize] at hsize hlen
    rw [Table.encodedSize, Nat.mod_eq_of_lt hsize, hlen]
    rcases h.cachedSize hnone with h0 | h0
    · simp [h0]
    · rw [dataSize] at h0
      rw [if_pos (by omega), ← h0]
  refine ⟨o, henc, ?_, ⟨?_, es, hdec, forall₂_comp (fun h h' => h.trans h') hall hall'⟩, hlen⟩
  · rw [henc, Table.encodeValues, hcodes.writes, put_eq_ok _ le_rfl]
    rfl
  · cases hcodes.fits with
    | raw hleng _ _ => exact hleng

/-! ### Operations on one table -/

theorem decode (hfits : Fits (.table m)) (hsize : dataSize (.table m) < 2 ^ 32) {buffer b rest : Octets}
    (hb : decodeTable buffer = .ok (b, rest)) (hdec : Value.realDecode b = .ok m) :
    ∃ t', t.decode buffer = .ok (t', rest) ∧ Represents t' m := by
  refine ⟨_, map_eq_ok.2 ⟨_, hb, rfl⟩, of_bytes hfits hsize ⟨length_of_decodeTable hb, m, hdec,
    hfits.forall₂⟩⟩

/-- Encoding keeps the octets, and what they represent. -/
theorem encode (h : Represents t m) : ∃ o t', t.encode = .ok (o, t') ∧ Holds o m ∧ Represents t' m := by
  rw [Table.encode]
  cases hcb : t.cachedBytes with
  | some b =>
    obtain ⟨hcs, hb⟩ := h.bytes b hcb
    refine ⟨b, t, ?_, hb, h⟩
    simp [hcs]
  | none =>
    obtain ⟨o, henc, ho, hholds, hlen⟩ := h.encodeValues hcb
    refine ⟨o, t.encodedSize.2, map_eq_ok.2 ⟨o, ho, rfl⟩, hholds, ?_⟩
    rw [henc]
    exact ⟨h.fits, h.size, h.values, fun b hb => absurd hb (by simp [hcb]), h.fresh, fun _ => .inr hlen⟩

/-- A copy represents the map, and the table it was made of still does. -/
theorem copy (h : Represents t m) : ∃ c t', t.copy = .ok (c, t') ∧ Represents c m ∧ Represents t' m := by
  rw [Table.copy]
  cases hcb : t.cachedBytes with
  | some b =>
    obtain ⟨hcs, hb⟩ := h.bytes b hcb
    exact ⟨_, t, rfl, hcs ▸ of_bytes h.fits h.size hb, h⟩
  | none =>
    have hnew := h.newBytes_of_none hcb
    have hall := h.values hnew
    simp only
    split
    · rename_i hempty
      rw [List.isEmpty_iff] at hempty
      rw [hempty] at hall
      refine ⟨_, t, rfl, ⟨h.fits, h.size, fun _ => hall, nofun, fun h' => ?_, fun _ => ?_⟩, h⟩
      · rw [hnew] at h'
        cases h'
      · have hsize := h.cachedSize hcb
        rwa [hempty] at hsize
    obtain ⟨o, henc, ho, hholds, hlen⟩ := h.encodeValues hcb
    refine ⟨_, _, map_eq_ok.2 ⟨o, ho, rfl⟩, ?_, ?_⟩
    · rw [henc]
      exact of_bytes h.fits h.size hholds
    rw [henc]
    refine ⟨h.fits, h.size, h.values, fun b hb => ?_, fun h' => ?_, nofun⟩
    · cases hb
      exact ⟨rfl, hholds⟩
    · exact ⟨(h.fresh h').1, by simp⟩

theorem assign (h : Represents t m) (hnew : t.newBytes = false) {k : Octets} {v : Value} (hk : k.length ≤ 255)
    (hv : Fits v) (hsize : dataSize (.table (SortedMap.assign k v m)) < 2 ^ 32) :
    Represents (Table.flushRawCache { t with values := SortedMap.assign k v t.values }) (SortedMap.assign k v m) := by
  rw [hnew]
  exact of_values (h.fits.assign hk hv) hsize
    (SortedMap.forall₂_assign (fun he => he.1)
      (show EntryImage (k, v) (k, v) from ⟨rfl, hv.image⟩) (h.values hnew))

theorem filter (h : Represents t m) (hnew : t.newBytes = false) (p : Octets → Bool) :
    Represents (Table.flushRawCache { t with values := t.values.filter fun e => p e.1 })
      (m.filter fun e => p e.1) := by
  rw [hnew]
  exact of_values (h.fits.filter _) (Nat.lt_of_le_of_lt (size_filter_le m _) h.size)
    (SortedMap.forall₂_filter (fun he => he.1) p (h.values hnew))

/-- What a lookup in the table finds is equal to what the map has. -/
theorem lookup (h : Represents t m) (hnew : t.newBytes = false) (k : Octets) :
    (m.lookup k = none ∧ t.values.lookup k = none) ∨
      ∃ v w, m.lookup k = some v ∧ t.values.lookup k = some w ∧ Same v w := by
  rcases SortedMap.forall₂_lookup (fun he => he.1) k (h.values hnew) with h | ⟨v, w, hv, hw, he⟩
  · exact .inl h
  · exact .inr ⟨v, w, hv, hw, he.2.same⟩

end Represents

/-! ## Steps -/

/-- Each table represents its map. -/
def Both.Represented (s : Both) : Prop := ∀ i, Represents (s.tables i) (s.maps i)

/-- The tables reply as the maps do, and stand for them afterwards. -/
structure Both.Simulates (littleEndian : Bool) (s : Both) (op : TableOp) : Prop where
  agree : Agree ((s.tables.step littleEndian op).map Prod.fst) ((s.maps.step op).map Prod.fst)
  keeps : ∀ {s' : Both}, s.step littleEndian op = some s' → s'.Represented

section steps

variable {littleEndian : Bool} {s : Both} {op : TableOp} {i : Nat} {t : Table} {m : ValueMap}
  {r : Reply} {r' : MapReply}

/-- Both steps go through and agree. -/
theorem Both.simulates_of_ok {ts : Tables} {ms : Maps} (htab : s.tables.step littleEndian op = .ok (r, ts))
    (hmaps : s.maps.step op = .ok (r', ms)) (hagree : Agree (.ok r) (.ok r'))
    (hrep : ∀ i, Represents (ts i) (ms i)) : s.Simulates littleEndian op where
  agree := by
    rw [htab, hmaps]
    exact hagree
  keeps h := by
    rw [Both.step, htab, hmaps] at h
    cases h
    exact hrep

theorem Both.Represented.update (hs : s.Represented) (h : Represents t m) (j : Nat) :
    Represents (Function.update s.tables i t j) (Function.update s.maps i m j) := by
  by_cases hj : j = i
  · subst hj
    rwa [Function.update_self, Function.update_self]
  · rw [Function.update_of_ne hj, Function.update_of_ne hj]
    exact hs j

theorem Both.Represented.update_table (hs : s.Represented) (h : Represents t (s.maps i)) :
    Both.Represented ⟨Function.update s.tables i t, s.maps⟩ := by
  intro j
  have hj := hs.update (i := i) h j
  rwa [Function.update_eq_self] at hj

/-- A write changes one table and its map. -/
theorem Both.Represented.simulates_write (hs : s.Represented)
    (htab : s.tables.step littleEndian op = .ok (r, Function.update s.tables i t))
    (hmaps : s.maps.step op = .ok (r', Function.update s.maps i m)) (hagree : Agree (.ok r) (.ok r'))
    (h : Represents t m) : s.Simulates littleEndian op :=
  simulates_of_ok htab hmaps hagree (hs.update h)

/-- A read may decode a table, but changes no map. -/
theorem Both.Represented.simulates_read (hs : s.Represented)
    (htab : s.tables.step littleEndian op = .ok (r, Function.update s.tables i t))
    (hmaps : s.maps.step op = .ok (r', s.maps)) (hagree : Agree (.ok r) (.ok r'))
    (h : Represents t (s.maps i)) : s.Simulates littleEndian op :=
  simulates_of_ok htab hmaps hagree (hs.update_table h)

theorem Tables.on_ok {ts : Tables} {x : Except CodingError (Reply × Table)} (hx : x = .ok (r, t)) :
    ts.on i x = .ok (r, Function.update ts i t) := by
  rw [hx]
  rfl

end steps

theorem Represents.agree_lookup {t : Table} {m : ValueMap} (h : Represents t m) (hnew : t.newBytes = false)
    (name : Octets) : Agree (.ok (.value (t.values.lookup name))) (.ok (.value (m.lookup name))) := by
  rcases h.lookup hnew name with ⟨hm, ht⟩ | ⟨v, w, hm, ht, hsame⟩
  · rw [hm, ht]
    exact .noValue
  · rw [hm, ht]
    exact .value hsame

theorem floatingOctets_of_entries {es : Except CodingError ValueMap} (h : v.entries = some es)
    (type : BitVec 8) : floatingOctets type (some v) = none := by
  cases v <;> cases h <;> rfl

theorem Same.floatingOctets_eq {w : Value} (h : Same v w) (type : BitVec 8) :
    floatingOctets type (some v) = floatingOctets type (some w) := by
  cases h with
  | table hv hw => rw [floatingOctets_of_entries hv, floatingOctets_of_entries hw]
  | _ => rfl

/-- On a host with the byte order of the wire, no value is changed. -/
theorem getFloating_eq {t t' : Table} (h : t.realDecode = .ok t') (type : BitVec 8) (name : Octets) :
    t.getFloating false type name = .ok (floatingOctets type (t'.values.lookup name), t') := by
  refine map_eq_ok.2 ⟨t', h, ?_⟩
  generalize t'.values.lookup name = o
  cases o with
  | none => rfl
  | some v =>
    cases v with
    | fixedWidth ty o =>
      simp only [floatingOctets]
      split <;> rfl
    | _ => rfl

section operations

variable {littleEndian : Bool} {s : Both} (hs : s.Represented)

include hs

/-- Reading a table defers its decoding. -/
theorem simulates_decode (i : Nat) (buffer : Octets) (hok : s.Ok littleEndian (.decode i buffer)) :
    s.Simulates littleEndian (.decode i buffer) := by
  cases hb : decodeTable buffer with
  | error e =>
    have htab : s.tables.step littleEndian (.decode i buffer) = .error e := by
      simp only [Tables.step, Table.decode, hb]
      rfl
    have hmaps : s.maps.step (.decode i buffer) = .error e := by
      simp only [Maps.step, hb]
      rfl
    refine ⟨by rw [htab, hmaps]; exact .error e, fun h => ?_⟩
    rw [Both.step, htab, hmaps] at h
    cases h
    exact hs
  | ok x =>
    obtain ⟨b, rest⟩ := x
    obtain ⟨es, hes, hfits, hsize⟩ := hok b rest hb
    obtain ⟨t', ht', hrep⟩ := Represents.decode hfits hsize hb hes
    refine hs.simulates_write (Tables.on_ok (map_eq_ok.2 ⟨_, ht', rfl⟩)) ?_ (.rest rest) hrep
    simp only [Maps.step, hb]
    exact map_eq_ok.2 ⟨es, hes, rfl⟩

theorem simulates_encode (i : Nat) : s.Simulates littleEndian (.encode i) := by
  obtain ⟨o, t', ho, hholds, hrep⟩ := (hs i).encode
  obtain ⟨es, hes, hall⟩ := hholds.decoded
  refine hs.simulates_read (Tables.on_ok (map_eq_ok.2 ⟨_, ho, rfl⟩)) rfl (.bytes ?_ ?_) hrep
  · have hreads := reads_decodeTable hholds.length rfl (size_of_realDecode hholds.length hes) []
    rwa [append_nil] at hreads
  · exact same_of_forall₂ rfl (congrArg some hes) hall

theorem simulates_set (i : Nat) (name : Octets) (value : Value) (hok : s.Ok littleEndian (.set i name value)) :
    s.Simulates littleEndian (.set i name value) := by
  obtain ⟨hname, hvalue, hsize⟩ := hok
  obtain ⟨t', ht', hrep, hnew⟩ := (hs i).realDecode
  exact hs.simulates_write (Tables.on_ok (map_eq_ok.2 ⟨_, map_eq_ok.2 ⟨t', ht', rfl⟩, rfl⟩)) rfl .done
    (hrep.assign hnew hname hvalue hsize)

theorem simulates_erase (i : Nat) (name : Octets) : s.Simulates littleEndian (.erase i name) := by
  obtain ⟨t', ht', hrep, hnew⟩ := (hs i).realDecode
  refine hs.simulates_write (Tables.on_ok (map_eq_ok.2 ⟨_, map_eq_ok.2 ⟨t', ht', rfl⟩, rfl⟩)) rfl .done ?_
  split
  · exact hrep.filter hnew fun k => decide (k ≠ name)
  rename_i hnone
  have hkey : name ∉ (s.maps i).map Prod.fst := by
    rw [← Assoc.lookup_isSome_iff]
    rcases hrep.lookup hnew name with ⟨hm, -⟩ | ⟨v, w, -, hw, -⟩
    · simp [hm]
    · simp [hw] at hnone
  rwa [filter_eq_self.2]
  intro e he
  have hne : e.1 ≠ name := fun h => hkey (h ▸ mem_map_of_mem he)
  simpa using hne

theorem simulates_clear (i : Nat) : s.Simulates littleEndian (.clear i) := by
  exact hs.simulates_write (Tables.on_ok rfl) rfl .done Represents.empty

theorem simulates_get (i : Nat) (name : Octets) : s.Simulates littleEndian (.get i name) := by
  obtain ⟨t', ht', hrep, hnew⟩ := (hs i).realDecode
  exact hs.simulates_read (Tables.on_ok (map_eq_ok.2 ⟨_, map_eq_ok.2 ⟨t', ht', rfl⟩, rfl⟩)) rfl
    (hrep.agree_lookup hnew name) hrep

/-- A read of a floating-point number, where its octets are not swapped. -/
theorem simulates_getFloating (i : Nat) (type : BitVec 8) (name : Octets) :
    s.Simulates false (.getFloating i type name) := by
  obtain ⟨t', ht', hrep, hnew⟩ := (hs i).realDecode
  have hfound : floatingOctets type ((s.maps i).lookup name) = floatingOctets type (t'.values.lookup name) := by
    rcases hrep.lookup hnew name with ⟨hm, ht⟩ | ⟨v, w, hm, ht, hsame⟩
    · rw [hm, ht]
    · rw [hm, ht, hsame.floatingOctets_eq]
  refine hs.simulates_read (Tables.on_ok (map_eq_ok.2 ⟨_, getFloating_eq ht' type name, rfl⟩)) rfl ?_ hrep
  rw [hfound]
  exact .octets _

theorem simulates_count (i : Nat) (hok : s.Ok littleEndian (.count i)) : s.Simulates littleEndian (.count i) := by
  refine Both.simulates_of_ok ?_ rfl (.number _) hs
  have hlen := ((hs i).values hok).length_eq
  rw [Tables.step, Table.count, hlen]

theorem simulates_entries (i : Nat) (isConst : Bool) : s.Simulates littleEndian (.entries i isConst) := by
  obtain ⟨t', ht', hrep, hnew⟩ := (hs i).realDecode
  refine hs.simulates_read (Tables.on_ok (map_eq_ok.2 ⟨_, map_eq_ok.2 ⟨t', ht', rfl⟩, rfl⟩)) rfl
    (.entries (same_of_forall₂ rfl rfl (hrep.values hnew))) ?_
  cases isConst
  · exact hrep.flushRawCache hnew
  · exact hrep

theorem simulates_find (i : Nat) (isConst : Bool) (name : Octets) :
    s.Simulates littleEndian (.find i isConst name) := by
  obtain ⟨t', ht', hrep, hnew⟩ := (hs i).realDecode
  refine hs.simulates_read (Tables.on_ok (map_eq_ok.2 ⟨_, map_eq_ok.2 ⟨t', ht', rfl⟩, rfl⟩)) rfl
    (hrep.agree_lookup hnew name) ?_
  cases isConst
  · exact hrep.flushRawCache hnew
  · exact hrep

theorem simulates_insert (i : Nat) (name : Octets) (value : Value) (hok : s.Ok littleEndian (.insert i name value)) :
    s.Simulates littleEndian (.insert i name value) := by
  obtain ⟨hname, hvalue, hsize⟩ := hok
  obtain ⟨t', ht', hrep, hnew⟩ := (hs i).realDecode
  rcases hrep.lookup hnew name with ⟨hm, ht⟩ | ⟨v, w, hm, ht, -⟩
  · refine hs.simulates_write
      (Tables.on_ok (map_eq_ok.2 ⟨_, map_eq_ok.2 ⟨t', ht', rfl⟩, ?_⟩)) ?_ (.flag true)
      (hrep.assign hnew hname hvalue hsize)
    · rw [ht]
      rfl
    · rw [Maps.step, hm]
      rfl
  refine hs.simulates_read
    (Tables.on_ok (map_eq_ok.2 ⟨_, map_eq_ok.2 ⟨t', ht', rfl⟩, ?_⟩)) ?_ (.flag false) (hrep.flushRawCache hnew)
  · rw [ht]
    rfl
  · rw [Maps.step, hm]
    rfl

theorem simulates_copy (i j : Nat) : s.Simulates littleEndian (.copy i j) := by
  obtain ⟨c, t', hcopy, hc, ht'⟩ := (hs i).copy
  exact Both.simulates_of_ok (map_eq_ok.2 ⟨_, hcopy, rfl⟩) rfl .done ((hs.update_table ht').update hc)

/-- A comparison decodes both tables. -/
theorem simulates_compare (i j : Nat) (hok : s.Ok littleEndian (.compare i j)) :
    s.Simulates littleEndian (.compare i j) := by
  obtain ⟨hl, hl'⟩ := hok
  obtain ⟨t, ht, hrep, hnew⟩ := (hs i).realDecode
  obtain ⟨u, hu, hrep', hnew'⟩ := (hs j).realDecode
  have hsame : Same (.table (s.maps i)) (.table t.values) := same_of_forall₂ rfl rfl (hrep.values hnew)
  have hsame' : Same (.table (s.maps j)) (.table u.values) := same_of_forall₂ rfl rfl (hrep'.values hnew')
  obtain ⟨b, ⟨n, hn⟩, hb⟩ := decided_of_listFree (hsame.listFree hl)
    (fits_of_forall₂ hrep.fits (hrep.values hnew)) _
    (fits_of_forall₂ hrep'.fits (hrep'.values hnew')) (hsame'.listFree hl')
  have hcom : (s.tables i).compare (s.tables j) =
      .ok (fun depth => eqTables (Value.eq depth) (.ok t.values) (.ok u.values), t, u) := by
    rw [Table.compare, ht, hu]
    rfl
  refine Both.simulates_of_ok (map_eq_ok.2 ⟨_, hcom, rfl⟩) rfl
    (.compared (b := b) (n := n) (fun depth hd => ?_) ?_) ?_
  · rw [← hn (depth + 1) (by omega)]
    rfl
  · rw [hb]
    exact ⟨fun h => (hsame.trans h).trans hsame'.symm, fun h => (hsame.symm.trans h).trans hsame'⟩
  · exact (hs.update_table hrep).update_table hrep'

end operations

/-- Every operation on the tables is simulated. -/
theorem Both.Represented.simulates {littleEndian : Bool} {s : Both} (hs : s.Represented) {op : TableOp}
    (hok : s.Ok littleEndian op) : s.Simulates littleEndian op := by
  cases op with
  | decode i buffer => exact simulates_decode hs i buffer hok
  | encode i => exact simulates_encode hs i
  | set i name value => exact simulates_set hs i name value hok
  | erase i name => exact simulates_erase hs i name
  | clear i => exact simulates_clear hs i
  | get i name => exact simulates_get hs i name
  | getFloating i type name =>
    obtain rfl : littleEndian = false := hok
    exact simulates_getFloating hs i type name
  | count i => exact simulates_count hs i hok
  | entries i isConst => exact simulates_entries hs i isConst
  | find i isConst name => exact simulates_find hs i isConst name
  | insert i name value => exact simulates_insert hs i name value hok
  | copy i j => exact simulates_copy hs i j
  | compare i j => exact simulates_compare hs i j hok

theorem represented_start : Both.start.Represented := fun _ => Represents.empty

/-- After any run of operations on any number of tables, the tables reply to the next one as
maps that are decoded at once do. -/
theorem tables_behave_as_maps {littleEndian : Bool} {ops : List TableOp} {s : Both}
    (hrun : Run (Both.step littleEndian) (Both.Ok littleEndian) Both.start ops s) {op : TableOp}
    (hop : s.Ok littleEndian op) :
    Agree ((s.tables.step littleEndian op).map Prod.fst) ((s.maps.step op).map Prod.fst) := by
  have hs : s.Represented := hrun.keep (fun hs hok hstep => (hs.simulates hok).keeps hstep) represented_start
  exact (hs.simulates hop).agree

/-- A text is set in one table and read in a copy of it. -/
theorem copied_table_behaves_as_map : ∃ s,
    Run (Both.step true) (Both.Ok true) Both.start [.set 0 [0x61] (.variableWidth 0x95 2 [0x62]), .copy 0 1] s ∧
    s.Ok true (.get 1 [0x61]) ∧ Agree ((s.tables.step true (.get 1 [0x61])).map Prod.fst)
      (.ok (.value (some (.variableWidth 0x95 2 [0x62])))) := by
  have hset : Both.start.Ok true (.set 0 [0x61] (.variableWidth 0x95 2 [0x62])) :=
    ⟨by simp, .variableWidth rfl (by decide), by decide +kernel⟩
  have hcopy (s : Both) : s.Ok true (.copy 0 1) := trivial
  have hget (s : Both) : s.Ok true (.get 1 [0x61]) := trivial
  have hrun : Run (Both.step true) (Both.Ok true) Both.start
      [.set 0 [0x61] (.variableWidth 0x95 2 [0x62]), .copy 0 1] _ := .cons hset rfl (.cons (hcopy _) rfl (.nil _))
  exact ⟨_, hrun, hget _, tables_behave_as_maps hrun (hget _)⟩

/-- Octets that are not those of a table: a key is longer than they are. The table takes
them, and throws when its entries are needed. -/
theorem malformed_octets_are_accepted :
    (Both.start.tables.step true (.decode 0 [0, 0, 0, 5, 0, 0, 0, 1, 9])).map Prod.fst = .ok (.rest []) ∧
    (Both.start.maps.step (.decode 0 [0, 0, 0, 5, 0, 0, 0, 1, 9])).map Prod.fst = .error .outOfBounds ∧
    ¬ Agree ((Both.start.tables.step true (.decode 0 [0, 0, 0, 5, 0, 0, 0, 1, 9])).map Prod.fst)
      ((Both.start.maps.step (.decode 0 [0, 0, 0, 5, 0, 0, 0, 1, 9])).map Prod.fst) := by
  have htab : (Both.start.tables.step true (.decode 0 [0, 0, 0, 5, 0, 0, 0, 1, 9])).map Prod.fst =
      .ok (.rest []) := rfl
  have hmaps : (Both.start.maps.step (.decode 0 [0, 0, 0, 5, 0, 0, 0, 1, 9])).map Prod.fst =
      .error .outOfBounds := rfl
  refine ⟨htab, hmaps, ?_⟩
  nofun

end QB.Spec.Field
