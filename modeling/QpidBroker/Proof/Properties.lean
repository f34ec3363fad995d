import QpidBroker.Framework.Outcome
import QpidBroker.Spec.Properties
import QpidBroker.Proof.HeadersExchange

/-!
# Reading the properties of a message

For a message and a name: the handler is called exactly, `getProperty` finds
the property of the name and `getPropertyAsString` writes an integer in
decimal, exactly when the message and the name are `Sound`.

* `decimal_injective`: the decimal form tells integers apart;
* `processProperty_exact`, `process_exact`: one property of a 0-10 message, all
  properties of a 1.0 message;
* `properties_exact`: the theorem.
-/

namespace QB.Impl

open QB.Spec FieldValue List PropertyRetriever

/-! ## The decimal form -/

theorem isDigit_range {c : Char} (h : c.isDigit) : 48 ≤ c.toNat ∧ c.toNat ≤ 57 := by
  simpa [Char.isDigit, UInt32.le_iff_toNat_le] using h

theorem ascii_digits_inj : ∀ {l l' : List Char}, (∀ c ∈ l, c.isDigit) → (∀ c ∈ l', c.isDigit) →
    Octets.ascii l = Octets.ascii l' → l = l'
  | [], [], _, _, _ => rfl
  | [], _ :: _, _, _, h => by cases h
  | _ :: _, [], _, _, h => by cases h
  | c :: l, d :: l', hl, hl', h => by
    obtain ⟨hc, ht⟩ := List.cons.inj h
    have h1 := isDigit_range (hl c mem_cons_self)
    have h2 := isDigit_range (hl' d mem_cons_self)
    have hcd : c.toNat = d.toNat := by
      have := congrArg BitVec.toNat hc
      simp only [BitVec.toNat_ofNat] at this
      omega
    have htail := ascii_digits_inj (fun a ha => hl a (mem_cons_of_mem _ ha))
      (fun a ha => hl' a (mem_cons_of_mem _ ha)) ht
    rw [Char.toNat_inj.1 hcd, htail]

theorem isDigit_toDigits (n : Nat) : ∀ c ∈ Nat.toDigits 10 n, c.isDigit :=
  fun _ hc => Nat.isDigit_of_mem_toDigits (by decide) (by decide) hc

theorem minus_ne_digits (n : Nat) (l : Octets) : 0x2d :: l ≠ Octets.ascii (Nat.toDigits 10 n) := by
  intro h
  cases hd : Nat.toDigits 10 n with
  | nil => exact absurd hd Nat.toDigits_ne_nil
  | cons c l' =>
    rw [hd] at h
    have hc := isDigit_range (isDigit_toDigits n c (by rw [hd]; exact mem_cons_self))
    have : 45 = (BitVec.ofNat 8 c.toNat).toNat := congrArg BitVec.toNat (List.cons.inj h).1
    rw [BitVec.toNat_ofNat] at this
    omega

variable {n : Nat} {o : Octets} {t : BitVec 8}

theorem digits_inj {m : Nat} (h : Octets.ascii (Nat.toDigits 10 m) = Octets.ascii (Nat.toDigits 10 n)) : m = n := by
  have := ascii_digits_inj (isDigit_toDigits m) (isDigit_toDigits n) h
  rw [← Nat.ofDigitChars_ten_toDigits (n := m), this, Nat.ofDigitChars_ten_toDigits]

/-- Numbers are told apart by their digits. -/
theorem decimal_injective : Function.Injective decimal := by
  intro y z h
  simp only [decimal] at h
  split at h <;> split at h
  · have := digits_inj (List.cons.inj h).2
    omega
  · exact absurd h (minus_ne_digits _ _)
  · exact absurd h.symm (minus_ne_digits _ _)
  · have := digits_inj h
    omega

theorem char_ne_decimal : ∀ v : BitVec 8, [v] ≠ decimal v.toNat ∧ [v] ≠ decimal v.toInt := by
  decide +kernel

/-! ## A property of AMQP 0-10 -/

theorem signedValue_eq (h : 8 * o.length = n) : signedValue o = (o.word n).toInt := by
  have hp : 256 ^ o.length = 2 ^ n := by rw [← h, pow_mul]; rfl
  rw [BitVec.toInt_eq_toNat_cond, Octets.toNat_word_of_le h.le, ← hp]
  rfl

theorem unsignedValue_eq (h : 8 * o.length = n) : o.toNat = (o.word n).toNat :=
  (Octets.toNat_word_of_le h.le).symm

/-- The type octets that are read as numbers, or a boolean. -/
def numberTypes : List Nat :=
  [0x00, 0x01, 0x02, 0x08, 0x10, 0x11, 0x12, 0x20, 0x21, 0x22, 0x23, 0x30, 0x31, 0x32, 0x33, 0x38]

theorem octetsExpected_of_notMem : ∀ t : BitVec 8, t.toNat ∉ numberTypes →
    t ∉ signedTypes ∧ t ∉ unsignedTypes ∧ t ≠ 0x08 ∧ t ≠ 0x23 ∧ t ≠ 0x33 := by
  decide +kernel

theorem octetsExpected_signed (ht : t ∈ signedTypes)
    (h : 8 * o.length = n) : octetsExpected t o = .call (some (.number (o.word n).toInt)) := by
  simp [octetsExpected, fieldInteger, if_pos ht, signedValue_eq h]

theorem signed_not_unsigned : ∀ t : BitVec 8, t ∈ unsignedTypes → t ∉ signedTypes := by decide +kernel

theorem octetsExpected_unsigned (ht : t ∈ unsignedTypes)
    (h : 8 * o.length = n) : octetsExpected t o = .call (some (.number (o.word n).toNat)) := by
  simp [octetsExpected, fieldInteger, if_neg (signed_not_unsigned t ht), if_pos ht, unsignedValue_eq h]

theorem octetsExpected_other (o : Octets) (ht : t.toNat ∉ numberTypes) :
    octetsExpected t o = if t = 0xf0 ∨ t = 0xf1 then .call none
      else if t ∈ textTypes then .call (some (.text o)) else .impossible := by
  obtain ⟨h1, h2, h3, h4, h5⟩ := octetsExpected_of_notMem t ht
  simp only [octetsExpected, fieldInteger, contains_eq_mem, decide_eq_true_eq, if_neg h1,
    if_neg h2, if_neg h3, if_neg h4, if_neg h5]

/-- A value is translated to a scalar that stands for what it does, which is a
`uint16` for one type octet only, or else no callback is for it. -/
def Translated (v : FieldValue) (t : BitVec 8) (o : Octets) : Prop :=
  (∃ s, toScalar v = .ok s ∧ octetsExpected t o = .call (meaning s) ∧
    ((t = 0x12 ∧ s = .uint16 (o.word 16)) ∨ (t ≠ 0x12 ∧ ∀ w, s ≠ .uint16 w))) ∨
  (toScalar v = .ok .void ∧ octetsExpected t o = .impossible)

theorem width_text : ∀ t : BitVec 8, t ∈ textTypes → width t = none := by decide +kernel

/-- A value of fixed width is translated by its type. -/
theorem translated_fixedWidth (hv : (fixedWidth t o).Fits) : Translated (fixedWidth t o) t o := by
  have hlit {c : Nat} (ht : t.toNat = c) : t = BitVec.ofNat 8 c := by
    rw [← ht, BitVec.ofNat_toNat, BitVec.setWidth_eq]
  obtain ⟨r, hr⟩ : ∃ r, toScalar (.fixedWidth t o) = r := ⟨_, rfl⟩
  have hs := hr
  unfold toScalar at hs
  split at hs
  case h_17 h0 h1 h2 h8 h10 h11 h12 h20 h21 h22 h23 h30 h31 h32 h38 h33 =>
    have hx : t ∉ textTypes := fun h => by
      rw [Fits, width_text t h] at hv
      cases hv
    have hn : t.toNat ∉ numberTypes := by
      simp only [numberTypes, mem_cons, not_mem_nil, or_false, not_or]
      exact ⟨h0, h1, h2, h8, h10, h11, h12, h20, h21, h22, h23, h30, h31, h32, h33, h38⟩
    have hvoid : toScalar (fixedWidth t o) = .ok .void := hr.trans (hs.symm.trans (if_neg hx))
    rw [Translated, octetsExpected_other o hn, if_neg hx]
    by_cases hf : t = 0xf0 ∨ t = 0xf1
    · refine .inl ⟨.void, hvoid, if_pos hf, .inr ⟨fun h => h12 (by rw [h]; rfl), fun w h => by cases h⟩⟩
    · exact .inr ⟨hvoid, if_neg hf⟩
  all_goals rename_i ht
  all_goals
    have hl := Fits.length_eq hv ht rfl
    rw [getIntegerValue_fixedWidth _ hl] at hs
    refine .inl ⟨_, hr.trans hs.symm, ?_, ?_⟩
  case h_7.refine_2 => exact .inl ⟨hlit ht, rfl⟩
  case h_4.refine_1 =>
    have hb : octetsExpected t o = .call (some (.number (if o.toNat = 0 then 0 else 1))) := by rw [hlit ht]; rfl
    rw [hb, meaning, word_ne_zero hl]
    by_cases h0 : o.toNat = 0 <;> simp [h0]
  case h_11.refine_1 | h_16.refine_1 =>
    rw [hlit ht]
    rfl
  case h_1.refine_1 | h_2.refine_1 | h_5.refine_1 | h_6.refine_1 | h_8.refine_1 | h_9.refine_1 | h_12.refine_1 |
      h_13.refine_1 =>
    exact octetsExpected_signed (hlit ht ▸ by decide) (by omega)
  case h_3.refine_1 | h_7.refine_1 | h_10.refine_1 | h_14.refine_1 | h_15.refine_1 =>
    exact octetsExpected_unsigned (hlit ht ▸ by decide) (by omega)
  all_goals
    refine .inr ⟨hlit ht ▸ by decide, fun w h => ?_⟩
    cases h

theorem number_low : ∀ t : BitVec 8, 0x80 ≤ t.toNat → t.toNat ∉ numberTypes ∧ t ≠ 0x12 := by decide +kernel

/-- A value of variable width is translated by its type. -/
theorem translated_variableWidth (hv : (variableWidth t o).Fits) : Translated (variableWidth t o) t o := by
  obtain ⟨w, hw, -⟩ : ∃ w, lengthWidth t = some w ∧ o.length < 256 ^ w := by simpa only [Fits] using hv
  have hh := lengthWidth_high hw
  obtain ⟨hn, h12⟩ := number_low t hh.1
  have hf : ¬ (t = 0xf0 ∨ t = 0xf1) := by
    rintro (rfl | rfl) <;> exact absurd hh.2 (by decide)
  rw [Translated, octetsExpected_other o hn, if_neg hf, toScalar_variableWidth hv]
  by_cases ht : t ∈ textTypes
  · rw [if_pos ht, if_pos ht]
    exact .inl ⟨_, rfl, rfl, .inr ⟨h12, fun w h => by cases h⟩⟩
  · rw [if_neg ht, if_neg ht]
    exact .inr ⟨rfl, rfl⟩

mutual
/-- Every value that fits has a translation. -/
theorem toVariant_ok : ∀ {v : FieldValue}, v.Fits → ∃ x, v.toVariant = .ok x
  | fixedWidth t o, hv => by
    obtain ⟨s, hs, -⟩ | ⟨hs, -⟩ := translated_fixedWidth hv
    · exact ⟨.scalar s, by simp only [toVariant, hs]; rfl⟩
    · exact ⟨.scalar .void, by simp only [toVariant, hs]; rfl⟩
  | variableWidth t o, hv => by
    obtain ⟨s, hs, -⟩ | ⟨hs, -⟩ := translated_variableWidth hv
    · exact ⟨.scalar s, by simp only [toVariant, hs]; rfl⟩
    · exact ⟨.scalar .void, by simp only [toVariant, hs]; rfl⟩
  | uuid o, hv => ⟨.uuid o, by simp only [Fits] at hv; simp only [toVariant, if_pos hv]⟩
  | table es, hv => by
    simp only [Fits] at hv
    obtain ⟨x, hx⟩ := toVariantMap_ok hv
    exact ⟨.map x, by simp only [toVariant, hx]; rfl⟩
  | list vs, hv => by
    simp only [Fits] at hv
    obtain ⟨x, hx⟩ := toVariantList_ok hv
    exact ⟨.list x, by simp only [toVariant, hx]; rfl⟩
  | array vs, hv => by
    simp only [Fits] at hv
    obtain ⟨x, hx⟩ := toVariantList_ok hv
    exact ⟨.list x, by simp only [toVariant, hx]; rfl⟩

theorem toVariantMap_ok : ∀ {es : List (Octets × FieldValue)}, FitEntries es → ∃ x, toVariantMap es = .ok x
  | [], _ => ⟨[], by simp only [toVariantMap]⟩
  | (k, v) :: es, h => by
    simp only [FitEntries] at h
    obtain ⟨x, hx⟩ := toVariant_ok h.1
    obtain ⟨xs, hxs⟩ := toVariantMap_ok h.2
    exact ⟨(k, x) :: xs, by simp only [toVariantMap, hx, hxs]; rfl⟩

theorem toVariantList_ok : ∀ {vs : List FieldValue}, FitAll vs → ∃ x, toVariantList vs = .ok x
  | [], _ => ⟨[], by simp only [toVariantList]⟩
  | v :: vs, h => by
    simp only [FitAll] at h
    obtain ⟨x, hx⟩ := toVariant_ok h.1
    obtain ⟨xs, hxs⟩ := toVariantList_ok h.2
    exact ⟨x :: xs, by simp only [toVariantList, hx, hxs]; rfl⟩
end

namespace MessageTransfer

/-- The calls for a property are made, and are those that are expected. -/
def Handed (e : Octets × FieldValue) : Prop :=
  ∃ calls, processProperty e = .ok calls ∧ CallsExact (e.1, fieldExpected e.2) calls

theorem asUint8_exact {o : Octets} (hl : o.length = 2) (k : Octets) :
    (∃ calls, call k (.scalar (.uint16 (o.word 16))) = .ok calls ∧
      CallsExact (k, .call (meaning (.uint16 (o.word 16)))) calls) ↔ o.toNat ≤ 0xff := by
  have hw : (o.word 16).toNat = o.toNat := Octets.toNat_word_of_le (by omega)
  simp only [call, asUint8, hw]
  by_cases ho : o.toNat ≤ 0xff
  · rw [if_pos ho]
    refine iff_of_true ⟨_, rfl, .uint8 ((o.word 16).setWidth 8), rfl, ?_⟩ ho
    simp only [meaning, BitVec.toNat_setWidth]
    congr 3
    omega
  rw [if_neg ho]
  refine iff_of_false ?_ ho
  rintro ⟨calls, h, -⟩
  cases h

/-- A value of a text or a number is handed over, unless it does not fit. -/
theorem handed_of_translated {k : Octets} {v : FieldValue} {t : BitVec 8} {o : Octets}
    (hv : v.toVariant = (do return .scalar (← toScalar v))) (he : fieldExpected v = octetsExpected t o)
    (h : Translated v t o) (hl : t = 0x12 → o.length = 2) :
    Handed (k, v) ↔ fieldExpected v ≠ .impossible ∧ (t = 0x12 → o.toNat ≤ 0xff) := by
  simp only [Handed, processProperty, he]
  obtain ⟨s, hs, hm, ⟨rfl, rfl⟩ | ⟨ht, hne⟩⟩ | ⟨hs, hm⟩ := h
  · rw [hs] at hv
    rw [show v.toVariant = .ok (.scalar (.uint16 (o.word 16))) from hv, hm]
    simpa using asUint8_exact (hl rfl) k
  · rw [hs] at hv
    rw [show v.toVariant = .ok (.scalar s) from hv, hm]
    refine iff_of_true ⟨[(k, s)], ?_, s, rfl, rfl⟩ ⟨by simp, fun h => absurd h ht⟩
    cases s with
    | uint16 w => exact absurd rfl (hne w)
    | _ => rfl
  · rw [hm]
    simp [CallsExact]

/-- A value is handed over exactly if it is plain. -/
theorem handed_iff {k : Octets} {v : FieldValue} (hv : v.Fits) : Handed (k, v) ↔ fieldPlain v := by
  cases v with
  | fixedWidth t o =>
    rw [handed_of_translated (by simp [toVariant]) rfl (translated_fixedWidth hv)
      (fun h => Fits.length_eq hv (c := 0x12) (by rw [h]; rfl) rfl)]
    refine and_congr_right fun _ => ⟨?_, ?_⟩
    · rintro h o' e
      obtain ⟨rfl, rfl⟩ := FieldValue.fixedWidth.inj e
      exact h rfl
    · rintro h rfl
      exact h o rfl
  | variableWidth t o =>
    obtain ⟨w, hw, -⟩ : ∃ w, lengthWidth t = some w ∧ o.length < 256 ^ w := by simpa only [Fits] using hv
    have h12 : t ≠ 0x12 := (number_low t (lengthWidth_high hw).1).2
    rw [handed_of_translated (by simp [toVariant]) rfl (translated_variableWidth hv)
      (fun h => absurd h h12)]
    refine and_congr_right fun _ => iff_of_true (fun h => absurd h h12) fun o' e => by cases e
  | uuid o =>
    refine iff_of_false ?_ (fun h => h.1 rfl)
    rintro ⟨_, _, h⟩
    exact h
  | table es =>
    obtain ⟨x, hx⟩ := toVariantMap_ok hv
    refine iff_of_true ⟨[], ?_, rfl⟩ ⟨(fun h => by cases h), (fun o e => by cases e)⟩
    simp only [processProperty, toVariant, hx]
    rfl
  | list vs | array vs =>
    obtain ⟨x, hx⟩ := toVariantList_ok hv
    refine iff_of_true ⟨[], ?_, rfl⟩ ⟨(fun h => by cases h), (fun o e => by cases e)⟩
    simp only [processProperty, toVariant, hx]
    rfl

theorem mapM_exact {α β : Type} {f : α → Except Failure β} {R : α → β → Prop} :
    ∀ l : List α, (∃ trace, l.mapM f = .ok trace ∧ List.Forall₂ R l trace) ↔
      ∀ a ∈ l, ∃ b, f a = .ok b ∧ R a b
  | [] => iff_of_true ⟨[], rfl, .nil⟩ (by simp)
  | a :: l => by
    rw [forall_mem_cons, ← mapM_exact l, mapM_cons]
    constructor
    · rintro ⟨trace, ht, hr⟩
      obtain ⟨b, hf, ht⟩ := bind_eq_ok.1 ht
      obtain ⟨bs, hl, ht⟩ := bind_eq_ok.1 ht
      obtain rfl := Except.ok.inj ht
      obtain ⟨h1, h2⟩ := forall₂_cons.1 hr
      exact ⟨⟨b, hf, h1⟩, bs, hl, h2⟩
    · rintro ⟨⟨b, hf, hb⟩, bs, hl, hbs⟩
      exact ⟨b :: bs, by rw [hf, hl]; rfl, .cons hb hbs⟩

theorem walkExact_iff (headers : FieldTable) : WalkExact (.transfer headers) ↔ AllPlain (.transfer headers) := by
  simp only [WalkExact, expected, forall₂_map_left_iff, AppProperties.processProperties, processProperties]
  rw [mapM_exact]
  exact forall₂_congr fun e he => handed_iff (headers.fits e he)

end MessageTransfer

/-! ## The properties of AMQP 1.0 -/

def amqpScalar : AmqpValue → Option Scalar
  | .null => some .void
  | .boolean b => some (.bool b)
  | .ubyte v => some (.uint8 v)
  | .ushort v => some (.uint16 v)
  | .uint v => some (.uint32 v)
  | .ulong v => some (.uint64 v)
  | .byte v => some (.int8 v)
  | .short v => some (.int16 v)
  | .int v => some (.int32 v)
  | .long v => some (.int64 v)
  | .float v => some (.float v)
  | .double v => some (.double v)
  | .timestamp v => some (.int64 v)
  | .string s => some (.string s)
  | _ => none

namespace PropertyAdapter

/-- A value after its name: it is handed over, or skipped with the adapter
still waiting for a value, or lost. -/
theorem read_cases (k : Octets) (v : AmqpValue) :
    (∃ s, amqpScalar v = some s ∧ amqpPlain v = true ∧ amqpExpected v = .call (meaning s) ∧
      read { key := k, value := true } v = .ok ({ key := k, value := false }, [(k, s)])) ∨
    (amqpScalar v = none ∧ amqpPlain v = false ∧ amqpExpected v = .silent ∧
      read { key := k, value := true } v = .ok ({ key := k, value := true }, [])) ∨
    (amqpPlain v = false ∧ (∃ s, amqpExpected v = .call (some (.text s))) ∧
      read { key := k, value := true } v = .ok ({ key := k, value := true }, [])) ∨
    (amqpPlain v = false ∧ amqpExpected v = .impossible) := by
  cases v with
  | list o | map o | array o => exact .inr (.inl ⟨rfl, rfl, rfl, rfl⟩)
  | binary o | symbol o => exact .inr (.inr (.inl ⟨rfl, ⟨o, rfl⟩, rfl⟩))
  | uuid o | char o | decimal o => exact .inr (.inr (.inr ⟨rfl, rfl⟩))
  | _ => exact .inl ⟨_, rfl, rfl, rfl, rfl⟩

/-- Every value is handed over but the last, which may be a list or a map. -/
def Aligned (ps : List (Octets × AmqpValue)) : Prop :=
  (∀ e ∈ ps.dropLast, amqpPlain e.2 = true) ∧
    ∀ e ∈ ps.getLast?, amqpPlain e.2 = true ∨ amqpExpected e.2 = .silent

theorem aligned_nil : Aligned [] := by simp [Aligned]

theorem aligned_singleton (e : Octets × AmqpValue) :
    Aligned [e] ↔ amqpPlain e.2 = true ∨ amqpExpected e.2 = .silent := by
  simp [Aligned]

theorem aligned_cons_cons (e f : Octets × AmqpValue) (ps : List (Octets × AmqpValue)) :
    Aligned (e :: f :: ps) ↔ amqpPlain e.2 = true ∧ Aligned (f :: ps) := by
  simp [Aligned, and_assoc]

/-- The calls that are made for a property that is handed over. -/
def handedCalls (e : Octets × AmqpValue) : List Call := ((amqpScalar e.2).map (e.1, ·)).toList

theorem process_cons (a : PropertyAdapter) (k : Octets) (v : AmqpValue) (ps : List (Octets × AmqpValue))
    (h : a.value = false) : process a ((k, v) :: ps) = (do
      let (a, calls) ← read { key := k, value := true } v
      return calls :: (← a.process ps)) := by
  simp [process, onString, h]

/-- In step, each value is handed over under its own key. -/
theorem process_aligned : ∀ (ps : List (Octets × AmqpValue)) (a : PropertyAdapter), a.value = false →
    Aligned ps → process a ps = .ok (ps.map handedCalls) ∧
      List.Forall₂ CallsExact (ps.map fun e => (e.1, amqpExpected e.2)) (ps.map handedCalls)
  | [], _, _, _ => ⟨rfl, .nil⟩
  | (k, v) :: ps, a, ha, h => by
    rw [process_cons a k v ps ha]
    -- a value that is not handed over is the last one, a list or a map
    have hlast : amqpPlain v = false → ps = [] ∧ amqpExpected v = .silent := by
      intro hp
      cases ps with
      | nil => exact ⟨rfl, ((aligned_singleton _).1 h).resolve_left (by simp [hp])⟩
      | cons f ps => exact absurd ((aligned_cons_cons _ _ _).1 h).1 (by simp [hp])
    obtain ⟨s, hs, -, he, hr⟩ | ⟨hs, hp, he, hr⟩ | ⟨hp, ⟨s, he⟩, -⟩ | ⟨hp, he⟩ := read_cases k v
    · have hps : Aligned ps := by
        cases ps with
        | nil => exact aligned_nil
        | cons f ps => exact ((aligned_cons_cons _ _ _).1 h).2
      obtain ⟨h1, h2⟩ := process_aligned ps { key := k, value := false } rfl hps
      have hc : handedCalls (k, v) = [(k, s)] := by simp [handedCalls, hs]
      rw [hr, map_cons, hc]
      refine ⟨?_, .cons ?_ h2⟩
      · show (do return [(k, s)] :: (← process { key := k, value := false } ps)) = _
        rw [h1]
        rfl
      · simp only [he]
        exact ⟨s, rfl, rfl⟩
    · obtain ⟨rfl, -⟩ := hlast hp
      have hc : handedCalls (k, v) = [] := by simp [handedCalls, hs]
      rw [hr, map_cons, hc]
      refine ⟨rfl, .cons ?_ .nil⟩
      simp [CallsExact, he]
    · rw [(hlast hp).2] at he
      cases he
    · rw [(hlast hp).2] at he
      cases he

/-- A list or a map that is not the last value gives its name to the next name. -/
theorem process_shifted {k : Octets} {e : Octets × AmqpValue} {ps : List (Octets × AmqpValue)} (hk : k ≠ e.1)
    {trace : List (List Call)} (h : process { key := k, value := true } (e :: ps) = .ok trace) :
    ¬ List.Forall₂ CallsExact ((e :: ps).map fun e => (e.1, amqpExpected e.2)) trace := by
  obtain ⟨k', v⟩ := e
  obtain ⟨⟨a, calls⟩, -, h⟩ := bind_eq_ok.1 h
  obtain ⟨rest, -, h⟩ := bind_eq_ok.1 h
  obtain rfl := Except.ok.inj h
  intro hf
  rw [map_cons, forall₂_cons] at hf
  have hc := hf.1
  cases he : amqpExpected v with
  | call m =>
    rw [he] at hc
    obtain ⟨s, hs, -⟩ := hc
    exact hk (congrArg Prod.fst (List.cons.inj hs).1)
  | silent =>
    rw [he] at hc
    cases hc
  | impossible =>
    rw [he] at hc
    exact hc

/-- What is handed over as it should be was in step. -/
theorem process_exact : ∀ (ps : List (Octets × AmqpValue)) (a : PropertyAdapter), a.value = false →
    (ps.map Prod.fst).Nodup → ∀ trace, process a ps = .ok trace →
      List.Forall₂ CallsExact (ps.map fun e => (e.1, amqpExpected e.2)) trace → Aligned ps
  | [], _, _, _, _, _, _ => aligned_nil
  | (k, v) :: ps, a, ha, hn, trace, ht, hf => by
    obtain ⟨hk, hn⟩ := nodup_cons.1 hn
    rw [process_cons a k v ps ha] at ht
    obtain ⟨⟨a', calls⟩, hread, ht⟩ := bind_eq_ok.1 ht
    obtain ⟨rest, hrest, ht⟩ := bind_eq_ok.1 ht
    obtain rfl := Except.ok.inj ht
    rw [map_cons, forall₂_cons] at hf
    obtain ⟨hc, hf⟩ := hf
    obtain ⟨s, -, hp, -, hr⟩ | ⟨-, -, he, hr⟩ | ⟨-, ⟨s, he⟩, hr⟩ | ⟨-, he⟩ := read_cases k v
    · obtain ⟨rfl, -⟩ := Prod.mk.inj (Except.ok.inj (hr.symm.trans hread))
      have := process_exact ps _ rfl hn rest hrest hf
      cases ps with
      | nil => exact (aligned_singleton _).2 (.inl hp)
      | cons f ps => exact (aligned_cons_cons _ _ _).2 ⟨hp, this⟩
    · obtain ⟨rfl, -⟩ := Prod.mk.inj (Except.ok.inj (hr.symm.trans hread))
      cases ps with
      | nil => exact (aligned_singleton _).2 (.inr he)
      | cons f ps =>
        have hne : k ≠ f.1 := by
          rintro rfl
          exact hk mem_cons_self
        exact absurd hf (process_shifted hne hrest)
    · obtain ⟨-, rfl⟩ := Prod.mk.inj (Except.ok.inj (hr.symm.trans hread))
      rw [he] at hc
      obtain ⟨s, hs, -⟩ := hc
      cases hs
    · rw [he] at hc
      exact hc.elim

theorem walkExact_iff (ps : List (Octets × AmqpValue)) (hn : (ps.map Prod.fst).Nodup) :
    WalkExact (.message ps hn) ↔ AllPlain (.message ps hn) := by
  constructor
  · rintro ⟨trace, ht, hf⟩
    exact process_exact ps {} rfl hn trace ht hf
  · intro h
    obtain ⟨h1, h2⟩ := process_aligned ps {} rfl h
    exact ⟨_, h1, h2⟩

end PropertyAdapter

/-! ## Finding a property -/

theorem walkExact_iff (m : AppProperties) : WalkExact m ↔ AllPlain m := by
  cases m with
  | transfer headers => exact MessageTransfer.walkExact_iff headers
  | message ps hn => exact PropertyAdapter.walkExact_iff ps hn

theorem expected_nodup (m : AppProperties) : ((expected m).map Prod.fst).Nodup := by
  cases m with
  | transfer headers => simpa [expected, Function.comp_def] using headers.nodup
  | message ps hn => simpa [expected, Function.comp_def] using hn

/-- What a name means is the value under it. -/
theorem namedMeaning_eq_some (m : AppProperties) (k : Octets) (x : Meaning) :
    namedMeaning m k = some x ↔ (k, x) ∈ valued m := by
  have hv : (k, x) ∈ valued m ↔ (k, Expected.call (some x)) ∈ expected m := by
    simp only [valued, mem_filterMap]
    constructor
    · rintro ⟨⟨k', e⟩, he, h⟩
      rcases e with _ | _ | _ <;> simp at h
      rename_i o
      cases o <;> simp at h
      obtain ⟨rfl, rfl⟩ := h
      exact he
    · intro h
      exact ⟨_, h, rfl⟩
  rw [hv, Assoc.mem_iff_lookup (expected_nodup m), namedMeaning]
  split
  · rename_i y h
    simp [h]
  · rename_i h
    simp only [reduceCtorEq, false_iff]
    exact h _

theorem meaning_eq_none {s : Scalar} : meaning s = none ↔ s = .void := by
  cases s <;> simp [meaning]

theorem isMatch_self (k : Octets) : isMatch k k = true := by
  have h : ∀ l : Octets, strncmp l l l.length = true := by
    intro l
    induction l with
    | nil => rfl
    | cons a l ih => simp [strncmp, ih]
  simpa [isMatch] using h k

/-- The properties with a value, among those expected. -/
def valuedOf (es : List (Octets × Expected)) : List (Octets × Meaning) :=
  es.filterMap fun e =>
    match e.2 with
    | .call (some x) => some (e.1, x)
    | _ => none

/-- The retriever keeps the value of the last property whose name it takes for the one it looks for. -/
theorem retrieve (k : Octets) {es : List (Octets × Expected)} {trace : List (List Call)}
    (h : List.Forall₂ CallsExact es trace) : ∀ r : Scalar,
    meaning (trace.flatten.foldl (handle k) r) =
      ((((valuedOf es).filter fun e => isMatch k e.1).getLast?).map (some ·.2)).getD (meaning r) := by
  induction h with
  | nil => intro r; rfl
  | @cons e calls es trace hc _ ih =>
    intro r
    obtain ⟨k', x⟩ := e
    cases x with
    | call m =>
      obtain ⟨s, rfl, hs⟩ := hc
      rw [flatten_cons, foldl_append, ih]
      cases m with
      | none =>
        obtain rfl := meaning_eq_none.1 hs
        rfl
      | some x =>
        have hv : valuedOf ((k', .call (some x)) :: es) = (k', x) :: valuedOf es := rfl
        have hne : s ≠ .void := fun h => by
          rw [meaning_eq_none.2 h] at hs
          cases hs
        simp only [foldl_cons, foldl_nil, handle, if_neg hne, hv]
        by_cases hm : isMatch k k' = true
        · rw [if_pos hm, filter_cons_of_pos (by simpa using hm), getLast?_cons, hs]
          cases ((valuedOf es).filter fun e => isMatch k e.1).getLast? <;> rfl
        · rw [if_neg hm, filter_cons_of_neg (by simpa using hm)]
    | silent =>
      obtain rfl := hc
      exact ih r
    | impossible => exact hc.elim

/-- With the handler called exactly, the retriever finds the property of the
name unless another shadows it. -/
theorem getExact_iff {m : AppProperties} (h : WalkExact m) (k : Octets) : GetExact m k ↔ Unshadowed m k := by
  obtain ⟨trace, ht, hf⟩ := h
  have hr := retrieve k hf .void
  have hg : m.getProperty k = .ok (trace.flatten.foldl (handle k) .void) := by
    rw [AppProperties.getProperty, ht]
    rfl
  have hget : GetExact m k ↔ meaning (trace.flatten.foldl (handle k) .void) = namedMeaning m k := by
    simp [GetExact, hg]
  rw [hget, hr, Unshadowed, show valuedOf (expected m) = valued m from rfl]
  cases hl : ((valued m).filter fun e => isMatch k e.1).getLast? with
  | none =>
    refine iff_of_true ?_ (fun e he => by cases he)
    have hnil := getLast?_eq_none_iff.1 hl
    cases hn : namedMeaning m k with
    | none => rfl
    | some x =>
      have hx := (namedMeaning_eq_some m k x).1 hn
      have : (k, x) ∈ (valued m).filter fun e => isMatch k e.1 :=
        mem_filter.2 ⟨hx, isMatch_self k⟩
      rw [hnil] at this
      cases this
  | some e =>
    simp only [Option.map_some, Option.getD_some, Option.mem_some_iff, forall_eq']
    rw [eq_comm, namedMeaning_eq_some]

/-! ## An integer as a text -/

/-- The `int` that an integer is read as is the integer itself, if an `int`
holds it and it is not a negative one of one or two octets. -/
theorem toInt_setWidth_eq {z : Int}
    (hl : o.length = 1 ∨ o.length = 2 ∨ o.length = 4 ∨ o.length = 8) (hz : z = signedValue o ∨ z = o.toNat) :
    ((o.word 64).setWidth 32).toInt = z ↔ -2 ^ 31 ≤ z ∧ z < 2 ^ 31 ∧ (z < 0 → 4 ≤ o.length) := by
  have hlt := o.toNat_lt
  have hw : (o.word 64).toNat = o.toNat := Octets.toNat_word_of_le (by omega)
  rw [BitVec.toInt_eq_toNat_cond, BitVec.toNat_setWidth]
  rw [signedValue] at hz
  rcases hl with h | h | h | h <;>
  · rw [h] at hz hlt ⊢
    rcases hz with rfl | rfl
    · split <;> split <;> omega
    · split <;> omega

theorem fieldInteger_width : ∀ t : BitVec 8, t ∈ signedTypes ∨ t ∈ unsignedTypes →
    width t = some 1 ∨ width t = some 2 ∨ width t = some 4 ∨ width t = some 8 := by
  decide +kernel

theorem fieldInteger_eq_some {z : Int} (h : fieldInteger t o = some z) :
    (t ∈ signedTypes ∨ t ∈ unsignedTypes) ∧ (z = signedValue o ∨ z = o.toNat) := by
  simp only [fieldInteger, contains_eq_mem, decide_eq_true_eq] at h
  split at h
  · exact ⟨.inl ‹_›, .inl (Option.some.inj h).symm⟩
  · split at h
    · exact ⟨.inr ‹_›, .inr (Option.some.inj h).symm⟩
    · cases h

theorem transfer_asString (floatText : Scalar → Octets) {headers : FieldTable} {k : Octets}
    {z : Int} (hg : headers.get k = some (.fixedWidth t o)) (hz : fieldInteger t o = some z) :
    AppProperties.getPropertyAsString floatText k (.transfer headers) = .ok (decimal z) ↔
      -2 ^ 31 ≤ z ∧ z < 2 ^ 31 ∧ (z < 0 → 4 ≤ o.length) := by
  obtain ⟨ht, hz'⟩ := fieldInteger_eq_some hz
  have hl : o.length = 1 ∨ o.length = 2 ∨ o.length = 4 ∨ o.length = 8 := by
    have hv : width t = some o.length := by simpa only [Fits] using FieldTable.fits_get hg
    simpa only [hv, Option.some.injEq] using fieldInteger_width t ht
  have hne : o.isEmpty = false := by
    cases o with
    | nil => simp at hl
    | cons a o => rfl
  simp only [AppProperties.getPropertyAsString, hg, getString, getInt, hne, Bool.false_eq_true, if_false]
  rw [Except.ok.injEq, decimal_injective.eq_iff, toInt_setWidth_eq hl hz']

theorem transfer_stringExact (floatText : Scalar → Octets) (headers : FieldTable) (k : Octets) :
    StringExact floatText (.transfer headers) k ↔ Written (.transfer headers) k := by
  simp only [StringExact, namedInteger]
  constructor
  · intro h t o z hg hz
    exact (transfer_asString floatText hg hz).1 (h z (by rw [hg]; exact hz))
  intro h z hz
  split at hz
  · rename_i t o hg
    exact (transfer_asString floatText hg hz).2 (h t o z hg hz)
  · cases hz

theorem retrieve_string (floatText : Scalar → Octets) (k : Octets) :
    ∀ (ps : List (Octets × AmqpValue)), (ps.map Prod.fst).Nodup → ∀ r : Octets,
      (ps.map PropertyAdapter.handedCalls).flatten.foldl (StringRetriever.handle floatText k) r =
        match (ps.lookup k).bind amqpScalar with
        | some s => if s = .void then r else StringRetriever.lexicalCast floatText s
        | none => r
  | [], _, _ => rfl
  | (k', v) :: ps, hn, r => by
    obtain ⟨hk, hn⟩ := nodup_cons.1 hn
    have ih := retrieve_string floatText k ps hn
    rw [map_cons, flatten_cons, foldl_append, ih]
    by_cases hkk : k = k'
    · subst hkk
      rw [Assoc.lookup_eq_none_of_notMem hk]
      cases hs : amqpScalar v with
      | none => simp [PropertyAdapter.handedCalls, hs]
      | some s => simp [PropertyAdapter.handedCalls, hs, StringRetriever.handle]
    have hb : (k == k') = false := by simpa using hkk
    rw [lookup_cons, hb]
    have : (PropertyAdapter.handedCalls (k', v)).foldl (StringRetriever.handle floatText k) r = r := by
      cases hs : amqpScalar v with
      | none => simp [PropertyAdapter.handedCalls, hs]
      | some s => simp [PropertyAdapter.handedCalls, hs, StringRetriever.handle, hkk]
    rw [this]

theorem message_stringExact (floatText : Scalar → Octets) {ps : List (Octets × AmqpValue)}
    {hn : (ps.map Prod.fst).Nodup} (h : AllPlain (.message ps hn)) (k : Octets) :
    StringExact floatText (.message ps hn) k ↔ Written (.message ps hn) k := by
  obtain ⟨ht, -⟩ := PropertyAdapter.process_aligned ps {} rfl h
  have hg : AppProperties.getPropertyAsString floatText k (.message ps hn) =
      .ok ((ps.map PropertyAdapter.handedCalls).flatten.foldl (StringRetriever.handle floatText k) []) := by
    simp only [AppProperties.getPropertyAsString, AppProperties.processProperties, ht]
    rfl
  simp only [StringExact, Written, namedInteger, hg, retrieve_string floatText k ps hn,
    Assoc.mem_iff_lookup hn, Except.ok.injEq]
  cases hv : ps.lookup k with
  | none => simp
  | some v =>
    cases v with
    | ubyte w | byte w =>
      refine iff_of_false (fun h => ?_) (fun h => ?_)
      · have := h _ rfl
        first | exact (char_ne_decimal w).1 this | exact (char_ne_decimal w).2 this
      · have := h w
        simp at this
    | _ => simp [amqpInteger, amqpScalar, StringRetriever.lexicalCast]

/-- The properties of a message are read exactly, as far as a name goes, if
and only if the message and the name are sound; and integers that are written in
decimal are told apart. -/
theorem properties_exact (floatText : Scalar → Octets) (m : AppProperties) (k : Octets) :
    Function.Injective decimal ∧
      ((WalkExact m ∧ GetExact m k ∧ StringExact floatText m k) ↔ Sound m k) := by
  refine ⟨decimal_injective, ?_, ?_⟩
  · rintro ⟨hw, hg, hs⟩
    have hp := (walkExact_iff m).1 hw
    refine ⟨hp, (getExact_iff hw k).1 hg, ?_⟩
    cases m with
    | transfer headers => exact (transfer_stringExact floatText headers k).1 hs
    | message ps hn => exact (message_stringExact floatText hp k).1 hs
  rintro ⟨hp, hu, hx⟩
  have hw := (walkExact_iff m).2 hp
  refine ⟨hw, (getExact_iff hw k).2 hu, ?_⟩
  cases m with
  | transfer headers => exact (transfer_stringExact floatText headers k).2 hx
  | message ps hn => exact (message_stringExact floatText hp k).2 hx

/-- A 0-10 message of one property. -/
def oneHeader (k : Octets) (t : BitVec 8) (o : Octets) (h : width t = some o.length) : AppProperties :=
  .transfer { values := [(k, .fixedWidth t o)], sorted := by simp, fits := by simpa [Fits] using h }

/-- What goes wrong: a 16-bit integer of 0-10 throws; in a 1.0 message the name
after a list is taken for the value of the list's name, and the value after
that for the property of an empty name; a longer name answers for a shorter
one; two 64-bit integers of 0-10 have the same text, and an 8-bit integer of 1.0
is written as a character. -/
theorem properties_misread :
    (oneHeader (.ascii ['a']) 0x12 [0x01, 0x2c] rfl).processProperties = .error (.thrown .invalidConversion) ∧
    (AppProperties.message [(.ascii ['l'], .list []), (.ascii ['a'], .int 5)] (by decide)).processProperties =
      .ok [[], [(.ascii ['l'], .string (.ascii ['a'])), ([], .int32 5)]] ∧
    (AppProperties.message [(.ascii ['a'], .int 1), (.ascii ['a', 'b'], .int 2)] (by decide)).getProperty
      (.ascii ['a']) = .ok (.int32 2) ∧
    (oneHeader (.ascii ['a']) 0x31 [0, 0, 0, 1, 0, 0, 0, 7] rfl).getPropertyAsString (fun _ => []) (.ascii ['a']) =
      (oneHeader (.ascii ['a']) 0x31 [0, 0, 0, 0, 0, 0, 0, 7] rfl).getPropertyAsString (fun _ => [])
      (.ascii ['a']) ∧
    (AppProperties.message [(.ascii ['a'], .ubyte 65)] (by decide)).getPropertyAsString (fun _ => [])
      (.ascii ['a']) = .ok (.ascii ['A']) := by
  decide +kernel

end QB.Impl
