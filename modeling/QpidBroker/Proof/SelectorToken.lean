import Mathlib.Data.List.TakeWhile
import QpidBroker.Spec.SelectorGrammar

/-!
# The tokeniser reads tokens as they are written

* `scan_iff`: the state machine takes characters as long as it can, and accepts
  by the state it ends in;
* `tokenise_sound`, `tokenise_complete`: one token;
* `tokens_read`, `tokens_complete`: the tokens of a text.
-/

namespace QB.Impl.Selector

open QB.Spec.Selector List State
open Option hiding all_eq_true mem_map_of_mem

/-! ## The state machine -/

namespace State

/-- The state after characters that are all taken. -/
def run : State → List Char → Option State
  | q, [] => some q
  | q, c :: v => (q.step c).bind fun q' => run q' v

/-- No character that follows is taken. -/
def Halts (q : State) (rest : List Char) : Prop := ∀ c s, rest = c :: s → q.step c = none

end State

variable {q : State} {t v rest x w s : List Char} {type : TokenType} {c : Char} {tok : Token}

/-- The automaton takes the longest run of characters, and accepts or fails there. -/
theorem scan_iff : scan q t = some (type, v, rest) ↔
      t = v ++ rest ∧ ∃ q', q.run v = some q' ∧ q'.accept = some type ∧ q'.Halts rest := by
  induction t generalizing q v with
  | nil =>
    simp only [scan, map_eq_some_iff, Prod.mk.injEq]
    constructor
    · rintro ⟨_, hq, rfl, rfl, rfl⟩
      exact ⟨rfl, q, rfl, hq, nofun⟩
    rintro ⟨ht, q', hq', hacc, -⟩
    obtain ⟨rfl, rfl⟩ := append_eq_nil_iff.1 ht.symm
    cases hq'
    exact ⟨type, hacc, rfl, rfl, rfl⟩
  | cons c t ih =>
    rw [scan]
    cases hc : q.step c with
    | none =>
      simp only [map_eq_some_iff, Prod.mk.injEq]
      constructor
      · rintro ⟨_, hq, rfl, rfl, rfl⟩
        refine ⟨rfl, q, rfl, hq, ?_⟩
        intro d s h
        cases h
        exact hc
      rintro ⟨ht, q', hq', hacc, -⟩
      cases v with
      | nil =>
        cases hq'
        exact ⟨type, hacc, rfl, rfl, ht⟩
      | cons d v =>
        cases ht
        simp [run, hc] at hq'
    | some q' =>
      simp only [map_eq_some_iff, Prod.mk.injEq, Prod.exists]
      constructor
      · rintro ⟨_, v', _, hs, rfl, rfl, rfl⟩
        obtain ⟨rfl, p, hp, hacc, hh⟩ := ih.1 hs
        exact ⟨rfl, p, by simp [run, hc, hp], hacc, hh⟩
      rintro ⟨ht, p, hp, hacc, hh⟩
      cases v with
      | nil =>
        cases hp
        simp [hh c t ht.symm] at hc
      | cons d v =>
        cases ht
        simp only [run, hc] at hp
        exact ⟨type, v, rest, ih.2 ⟨rfl, p, hp, hacc, hh⟩, rfl, rfl, rfl⟩

/-! ## What the states take -/

theorem digit_ne (hc : c.isDigit) : c ≠ '.' ∧ c ≠ 'e' ∧ c ≠ 'E' ∧ c ≠ '+' ∧ c ≠ '-' := by
  refine ⟨?_, ?_, ?_, ?_, ?_⟩ <;> (rintro rfl; revert hc; decide)

theorem run_identifier : run .identifier v = some q ↔ (∀ c ∈ v, isIdentifierPart c) ∧ q = .identifier := by
  induction v with
  | nil => simp [run, @eq_comm _ q]
  | cons c v ih => by_cases hc : isIdentifierPart c <;> simp [run, step, hc, ih]

theorem run_exponent : run .exponent v = some q ↔ (∀ c ∈ v, c.isDigit) ∧ q = .exponent := by
  induction v with
  | nil => simp [run, @eq_comm _ q]
  | cons c v ih => by_cases hc : c.isDigit <;> simp [run, step, hc, ih]

theorem digits_cons_iff : Digits (c :: v) ↔ c.isDigit ∧ ∀ d ∈ v, d.isDigit := by
  simp [Digits]

theorem digits_cons (hw : Digits w) : ∃ c v, w = c :: v ∧ c.isDigit ∧ ∀ d ∈ v, d.isDigit := by
  obtain ⟨c, v, rfl⟩ := exists_cons_of_ne_nil hw.1
  exact ⟨c, v, rfl, digits_cons_iff.1 hw⟩

theorem run_exponentStart (hq : q.accept = some type) :
    run .exponentStart v = some q ↔ Digits v ∧ q = .exponent := by
  cases v with
  | nil =>
    simp only [run, Option.some.injEq, Digits, ne_eq, not_true_eq_false, false_and, iff_false]
    rintro rfl
    cases hq
  | cons c v => by_cases hc : c.isDigit <;> simp [run, step, hc, run_exponent, Digits]

/-- The sign of an exponent and its digits. -/
theorem run_exponentSign {e : Char} (hq : q.accept = some type) (he : e = 'e' ∨ e = 'E') :
    run .exponentSign v = some q ↔ Exponent (e :: v) ∧ q = .exponent := by
  constructor
  · intro h
    cases v with
    | nil =>
      cases h
      cases hq
    | cons c v =>
      simp only [run, step] at h
      split at h
      · rename_i hc
        obtain ⟨hv, rfl⟩ := (run_exponentStart hq).1 h
        exact ⟨@Exponent.mk e [c] v he (by obtain rfl | rfl := hc <;> simp) hv, rfl⟩
      split at h
      · rename_i hc
        obtain ⟨hv, rfl⟩ := run_exponent.1 h
        exact ⟨@Exponent.mk e [] _ he (.inl rfl) (digits_cons_iff.2 ⟨hc, hv⟩), rfl⟩
      · cases h
  rintro ⟨h, rfl⟩
  cases h with
  | mk _ hsign hw =>
    obtain rfl | rfl | rfl := hsign
    · obtain ⟨c, w, rfl, hc, hw⟩ := digits_cons hw
      have hne := digit_ne hc
      simp only [nil_append, run, step, hne, hc]
      exact run_exponent.2 ⟨hw, rfl⟩
    · exact (run_exponentStart hq).2 ⟨hw, rfl⟩
    · exact (run_exponentStart hq).2 ⟨hw, rfl⟩

theorem run_digits (hq : ∀ c, c.isDigit → q.step c = some q) (hw : ∀ c ∈ w, c.isDigit) :
    q.run (w ++ v) = q.run v := by
  induction w with
  | nil => rfl
  | cons c w ih => simp [run, hq c (hw c (by simp)), ih fun d hd => hw d (by simp [hd])]

theorem run_of_exponent (hq : ∀ e, e = 'e' ∨ e = 'E' → q.step e = some .exponentSign) (hx : Exponent x) :
    q.run x = some .exponent := by
  cases hx with
  | mk he hsign hw =>
    rw [run, hq _ he]
    exact (run_exponentSign rfl he).2 ⟨.mk he hsign hw, rfl⟩

/-- The digits at the start of a text. -/
theorem exists_digits (v : List Char) :
    ∃ w x, v = w ++ x ∧ (∀ c ∈ w, c.isDigit) ∧ ∀ c s, x = c :: s → c.isDigit = false := by
  refine ⟨_, _, (takeWhile_append_dropWhile).symm, fun _ hc => mem_takeWhile_imp hc,
    fun c s hx => ?_⟩
  have := head?_dropWhile_not Char.isDigit v
  simpa [hx] using this

theorem step_decimal : (∀ c, c.isDigit → step .decimal c = some .decimal) ∧
    ∀ e, e = 'e' ∨ e = 'E' → step .decimal e = some .exponentSign := by
  refine ⟨fun c hc => by simp [step, hc], ?_⟩
  rintro e (rfl | rfl) <;> rfl

theorem step_digit : (∀ c, c.isDigit → step .digit c = some .digit) ∧
    ∀ e, e = 'e' ∨ e = 'E' → step .digit e = some .exponentSign := by
  refine ⟨fun c hc => by simp [step, hc], ?_⟩
  rintro e (rfl | rfl) <;> rfl

/-- A fraction, with or without an exponent. -/
theorem run_decimal (hq : q.accept = some type) : run .decimal v = some q ↔
      ∃ w x, v = w ++ x ∧ (∀ c ∈ w, c.isDigit) ∧
        (x = [] ∧ q = .decimal ∨ Exponent x ∧ q = .exponent) := by
  constructor
  · intro h
    obtain ⟨w, x, rfl, hw, hx⟩ := exists_digits v
    rw [run_digits step_decimal.1 hw] at h
    refine ⟨w, x, rfl, hw, ?_⟩
    cases x with
    | nil =>
      cases h
      exact .inl ⟨rfl, rfl⟩
    | cons c x =>
      simp only [run, step, hx c x rfl, Bool.false_eq_true, if_false] at h
      split at h
      · exact .inr ((run_exponentSign hq ‹_›).1 h)
      · cases h
  rintro ⟨w, x, rfl, hw, hx⟩
  rw [run_digits step_decimal.1 hw]
  obtain ⟨rfl, rfl⟩ | ⟨hx, rfl⟩ := hx
  · rfl
  · exact run_of_exponent step_decimal.2 hx

/-- A number that starts with a digit: whole, with a point, or with an exponent. -/
theorem run_digit (hq : q.accept = some type) : run .digit v = some q ↔ (∀ c ∈ v, c.isDigit) ∧ q = .digit ∨
      (∃ w u, v = w ++ '.' :: u ∧ (∀ c ∈ w, c.isDigit) ∧ run .decimal u = some q) ∨
      ∃ w x, v = w ++ x ∧ (∀ c ∈ w, c.isDigit) ∧ Exponent x ∧ q = .exponent := by
  constructor
  · intro h
    obtain ⟨w, x, rfl, hw, hx⟩ := exists_digits v
    rw [run_digits step_digit.1 hw] at h
    cases x with
    | nil =>
      cases h
      exact .inl ⟨by simpa using hw, rfl⟩
    | cons c x =>
      simp only [run, step, hx c x rfl, Bool.false_eq_true, if_false] at h
      split at h
      · rename_i hc
        subst hc
        exact .inr (.inl ⟨w, x, rfl, hw, h⟩)
      · split at h
        · exact .inr (.inr ⟨w, c :: x, rfl, hw, (run_exponentSign hq ‹_›).1 h⟩)
        · cases h
  rintro (⟨hv, rfl⟩ | ⟨w, u, rfl, hw, hu⟩ | ⟨w, x, rfl, hw, hx, rfl⟩)
  · simpa [run] using run_digits (v := []) step_digit.1 hv
  · rw [run_digits step_digit.1 hw]
    exact hu
  · rw [run_digits step_digit.1 hw]
    exact run_of_exponent step_digit.2 hx

/-! ## Where a token ends -/

/-- The automaton halts where the token cannot go on. -/
theorem ends_iff {t : Token} (h : ∀ c, q.step c = none ↔ continues t c = false) : q.Halts rest ↔ Ends t rest :=
  forall_congr' fun c => forall_congr' fun _ => forall_congr' fun _ => h c

theorem ends_exact : State.Halts .digit rest ↔ Ends ⟨.numericExact, v⟩ rest := by
  refine ends_iff fun c => ?_
  simp only [step, continues]
  by_cases h1 : c.isDigit <;> by_cases h2 : c = '.' <;> by_cases h3 : c = 'e' <;> by_cases h4 : c = 'E' <;>
    simp [h1, h2]

theorem ends_decimal (hv : 'e' ∉ v ∧ 'E' ∉ v) :
    State.Halts .decimal rest ↔ Ends ⟨.numericApprox, v⟩ rest := by
  refine ends_iff fun c => ?_
  simp only [step, continues]
  by_cases h1 : c.isDigit <;> by_cases h3 : c = 'e' <;> by_cases h4 : c = 'E' <;> simp [h1, hv]

theorem ends_exponent (hx : Exponent x) : State.Halts .exponent rest ↔ Ends ⟨.numericApprox, w ++ x⟩ rest := by
  refine ends_iff fun c => ?_
  cases hx with
  | mk he _ _ => obtain rfl | rfl := he <;> by_cases h : c.isDigit <;> simp [step, continues]

theorem digits_not_mem (hw : ∀ c ∈ w, c.isDigit) : 'e' ∉ w ∧ 'E' ∉ w :=
  ⟨fun h => (digit_ne (hw _ h)).2.1 rfl, fun h => (digit_ne (hw _ h)).2.2.1 rfl⟩

/-- The part of a numeral after its point. -/
def Fraction (v : List Char) : Prop := ∃ w x, v = w ++ x ∧ (∀ c ∈ w, c.isDigit) ∧ (x = [] ∨ Exponent x)

theorem decimal_iff {u : List Char} (hu : 'e' ∉ u ∧ 'E' ∉ u) :
    (∃ q, run .decimal v = some q ∧ q.accept = some type ∧ q.Halts rest) ↔
      type = .numericApprox ∧ Fraction v ∧ Ends ⟨.numericApprox, u ++ v⟩ rest := by
  constructor
  · rintro ⟨q, hq, hacc, hh⟩
    obtain ⟨w, x, rfl, hw, ⟨rfl, rfl⟩ | ⟨hx, rfl⟩⟩ := (run_decimal hacc).1 hq <;> cases hacc
    · exact ⟨rfl, ⟨w, [], rfl, hw, .inl rfl⟩, (ends_decimal (by simp [hu, digits_not_mem hw])).1 hh⟩
    · rw [← append_assoc]
      exact ⟨rfl, ⟨w, x, rfl, hw, .inr hx⟩, (ends_exponent hx).1 hh⟩
  rintro ⟨rfl, ⟨w, x, rfl, hw, rfl | hx⟩, hend⟩
  · exact ⟨.decimal, (run_decimal rfl).2 ⟨w, [], rfl, hw, .inl ⟨rfl, rfl⟩⟩, rfl,
      (ends_decimal (by simp [hu, digits_not_mem hw])).2 hend⟩
  · rw [← append_assoc] at hend
    exact ⟨.exponent, (run_decimal rfl).2 ⟨w, x, rfl, hw, .inr ⟨hx, rfl⟩⟩, rfl, (ends_exponent hx).2 hend⟩

/-- The forms of an approximate number that starts with a digit. -/
theorem approxNumeric_digit (hc : c.isDigit) : ApproxNumeric (c :: v) ↔
    (∃ w u, v = w ++ '.' :: u ∧ (∀ d ∈ w, d.isDigit) ∧ Fraction u) ∨
      ∃ w x, v = w ++ x ∧ (∀ d ∈ w, d.isDigit) ∧ Exponent x := by
  constructor
  · intro h
    generalize hu : c :: v = u at h
    cases h with
    | point hw hv hx =>
      obtain ⟨d, w, rfl, -, hw'⟩ := digits_cons hw
      cases hu
      exact .inl ⟨w, _, rfl, hw', _, _, rfl, hv, hx⟩
    | fraction =>
      cases hu
      exact absurd rfl (digit_ne hc).1
    | whole hw hx =>
      obtain ⟨d, w, rfl, -, hw'⟩ := digits_cons hw
      cases hu
      exact .inr ⟨w, _, rfl, hw', hx⟩
  · rintro (⟨w, _, rfl, hw, v, x, rfl, hv, hx⟩ | ⟨w, x, rfl, hw, hx⟩)
    · exact .point (digits_cons_iff.2 ⟨hc, hw⟩) hv hx
    · exact .whole (digits_cons_iff.2 ⟨hc, hw⟩) hx

/-- The forms of an approximate number that starts with its point. -/
theorem approxNumeric_point : ApproxNumeric ('.' :: v) ↔ ∃ d u, v = d :: u ∧ d.isDigit ∧ Fraction u := by
  constructor
  · intro h
    generalize hu : '.' :: v = u at h
    cases h with
    | point hw _ _ | whole hw _ =>
      obtain ⟨d, w, rfl, hd, -⟩ := digits_cons hw
      cases hu
      exact absurd rfl (digit_ne hd).1
    | fraction hv hx =>
      obtain ⟨d, w, rfl, hd, hw⟩ := digits_cons hv
      cases hu
      exact ⟨d, _, rfl, hd, w, _, rfl, hw, hx⟩
  · rintro ⟨d, _, rfl, hd, w, x, rfl, hw, hx⟩
    exact .fraction (digits_cons_iff.2 ⟨hd, hw⟩) hx

theorem approxNumeric_head (h : ApproxNumeric x) : ∃ c v, x = c :: v ∧ (c.isDigit ∨ c = '.') := by
  cases h with
  | point hw _ _ | whole hw _ =>
    obtain ⟨c, w, rfl, hc, -⟩ := digits_cons hw
    exact ⟨c, _, rfl, .inl hc⟩
  | fraction => exact ⟨_, _, rfl, .inr rfl⟩

/-! ## Numerals and words -/

/-- What is scanned from a state, with reserved words told from identifiers. -/
theorem scanned_iff :
    scanned c q t = some (tok, rest) ↔ ∃ v q' type, t = v ++ rest ∧ q.run v = some q' ∧
      q'.accept = some type ∧
      q'.Halts rest ∧ tok = ⟨if type = .identifier then tokeniseReservedWord (c :: v) else type, c :: v⟩ := by
  simp only [scanned, map_eq_some_iff, Prod.mk.injEq, Prod.exists]
  constructor
  · rintro ⟨type, v, rest', hs, rfl, rfl⟩
    obtain ⟨rfl, q', hq', hacc, hh⟩ := scan_iff.1 hs
    exact ⟨v, q', type, rfl, hq', hacc, hh, rfl⟩
  · rintro ⟨v, q', type, rfl, hq', hacc, hh, rfl⟩
    exact ⟨type, v, rest, scan_iff.2 ⟨rfl, q', hq', hacc, hh⟩, rfl, rfl⟩

theorem scanned_digit_iff (hc : c.isDigit) : scanned c .digit t = some (tok, rest) ↔
    ∃ v, t = v ++ rest ∧ (tok = ⟨.numericExact, c :: v⟩ ∧ Digits (c :: v) ∨
      tok = ⟨.numericApprox, c :: v⟩ ∧ ApproxNumeric (c :: v)) ∧ Ends tok rest := by
  have hpoint {w : List Char} (hw : ∀ d ∈ w, d.isDigit) : 'e' ∉ c :: w ++ ['.'] ∧ 'E' ∉ c :: w ++ ['.'] := by
    have := digits_not_mem (w := c :: w) (by simpa [hc] using hw)
    simp_all
  rw [scanned_iff]
  constructor
  · rintro ⟨v, q, type, rfl, hq, hacc, hh, rfl⟩
    refine ⟨v, rfl, ?_⟩
    obtain ⟨hv, rfl⟩ | ⟨w, u, rfl, hw, hu⟩ | ⟨w, x, rfl, hw, hx, rfl⟩ := (run_digit hacc).1 hq
    · cases hacc
      exact ⟨.inl ⟨rfl, digits_cons_iff.2 ⟨hc, hv⟩⟩, ends_exact.1 hh⟩
    · obtain ⟨rfl, hu, hend⟩ := (decimal_iff (hpoint hw)).1 ⟨q, hu, hacc, hh⟩
      exact ⟨.inr ⟨rfl, (approxNumeric_digit hc).2 (.inl ⟨w, u, rfl, hw, hu⟩)⟩, by simpa using hend⟩
    · cases hacc
      exact ⟨.inr ⟨rfl, (approxNumeric_digit hc).2 (.inr ⟨w, x, rfl, hw, hx⟩)⟩,
        (ends_exponent (w := c :: w) hx).1 hh⟩
  rintro ⟨v, rfl, ⟨rfl, hv⟩ | ⟨rfl, hv⟩, hend⟩
  · exact ⟨v, .digit, .numericExact, rfl, (run_digit rfl).2 (.inl ⟨(digits_cons_iff.1 hv).2, rfl⟩), rfl,
      ends_exact.2 hend, rfl⟩
  obtain ⟨w, u, rfl, hw, hu⟩ | ⟨w, x, rfl, hw, hx⟩ := (approxNumeric_digit hc).1 hv
  · obtain ⟨q, hq, hacc, hh⟩ := (decimal_iff (hpoint hw)).2 ⟨rfl, hu, by simpa using hend⟩
    exact ⟨_, q, _, rfl, (run_digit hacc).2 (.inr (.inl ⟨w, u, rfl, hw, hq⟩)), hacc, hh, rfl⟩
  · exact ⟨_, .exponent, .numericApprox, rfl, (run_digit rfl).2 (.inr (.inr ⟨w, x, rfl, hw, hx, rfl⟩)), rfl,
      (ends_exponent (w := c :: w) hx).2 hend, rfl⟩

theorem scanned_point_iff : scanned '.' .decimalStart t = some (tok, rest) ↔
    ∃ v, t = v ++ rest ∧ tok = ⟨.numericApprox, '.' :: v⟩ ∧ ApproxNumeric ('.' :: v) ∧ Ends tok rest := by
  have hdigit {d : Char} (hd : d.isDigit) : 'e' ∉ ['.', d] ∧ 'E' ∉ ['.', d] := by
    have := digit_ne hd
    simp [this.2.1.symm, this.2.2.1.symm]
  rw [scanned_iff]
  constructor
  · rintro ⟨v, q, type, rfl, hq, hacc, hh, rfl⟩
    cases v with
    | nil =>
      cases hq
      cases hacc
    | cons d u =>
      by_cases hd : d.isDigit
      · simp only [run, step, hd] at hq
        obtain ⟨rfl, hu, hend⟩ := (decimal_iff (hdigit hd)).1 ⟨q, hq, hacc, hh⟩
        exact ⟨_, rfl, rfl, approxNumeric_point.2 ⟨d, u, rfl, hd, hu⟩, hend⟩
      · simp [run, step, hd] at hq
  rintro ⟨v, rfl, rfl, hv, hend⟩
  obtain ⟨d, u, rfl, hd, hu⟩ := approxNumeric_point.1 hv
  obtain ⟨q, hq, hacc, hh⟩ := (decimal_iff (hdigit hd)).2 ⟨rfl, hu, hend⟩
  exact ⟨_, q, _, rfl, by simpa [run, step, hd] using hq, hacc, hh, rfl⟩

/-- No word is reserved twice. -/
theorem reserved_unique {type' : TokenType} (h : (w, type) ∈ reserved)
    (h' : (w, type') ∈ reserved) : type = type' := by
  have hnodup : (reserved.map Prod.fst).Nodup := by decide
  have heq := inj_on_of_nodup_map hnodup h h' rfl
  exact congrArg Prod.snd heq

/-- Words are reserved in any case of their letters. -/
theorem tokeniseReservedWord_iff : tokeniseReservedWord w = type ↔ (w.map Char.toLower, type) ∈ reserved ∨
      type = .identifier ∧ ∀ type', (w.map Char.toLower, type') ∉ reserved := by
  unfold tokeniseReservedWord
  cases hf : reserved.find? fun entry => entry.1 == w.map Char.toLower with
  | none =>
    have hnot (type') : (w.map Char.toLower, type') ∉ reserved := fun h => by
      simpa using find?_eq_none.1 hf _ h
    simp [hnot, eq_comm]
  | some entry =>
    have hmem := mem_of_find?_eq_some hf
    have hkey : entry.1 = w.map Char.toLower := by simpa using find?_some hf
    rw [← Prod.mk.eta (p := entry), hkey] at hmem
    constructor
    · rintro rfl
      exact .inl hmem
    · rintro (h | ⟨-, h⟩)
      · exact reserved_unique hmem h
      · exact absurd hmem (h _)

theorem ends_word (h : (v, type) ∈ reserved ∨ type = .identifier) :
    State.Halts .identifier rest ↔ Ends ⟨type, w⟩ rest := by
  refine ends_iff fun c => ?_
  have htype : continues ⟨type, w⟩ c = isIdentifierPart c := by
    obtain h | rfl := h
    · simp only [reserved, mem_cons, Prod.mk.injEq, not_mem_nil, or_false] at h
      obtain ⟨-, rfl⟩ | ⟨-, rfl⟩ | ⟨-, rfl⟩ | ⟨-, rfl⟩ | ⟨-, rfl⟩ | ⟨-, rfl⟩ |
        ⟨-, rfl⟩ | ⟨-, rfl⟩ | ⟨-, rfl⟩ |
        ⟨-, rfl⟩ | ⟨-, rfl⟩ := h <;> rfl
    · rfl
  rw [htype]
  by_cases hc : isIdentifierPart c <;> simp [step]

theorem alpha_of_toLower (hc : c.toLower.isLower) : c.isAlpha := by
  have hor : c.isAlpha = (c.isUpper || c.isLower) := rfl
  by_cases hu : c.isUpper
  · rw [hor, hu, Bool.true_or]
  have heq : c.toLower = c := by
    rw [show c.isUpper = decide (c.val ≥ 'A'.val ∧ c.val ≤ 'Z'.val) from rfl, decide_eq_true_eq, not_and] at hu
    unfold Char.toLower
    split
    · rename_i h
      exact absurd h.2 (hu h.1)
    · rfl
  rw [heq] at hc
  rw [hor, hc, Bool.or_true]

theorem identifierPart_of_start (hc : isIdentifierStart c) : isIdentifierPart c := by
  simp only [isIdentifierStart, Bool.or_eq_true] at hc
  simp only [isIdentifierPart, Char.isAlphanum, Bool.or_eq_true]
  tauto

/-- A reserved word has the form of an identifier. -/
theorem identifier_of_reserved (h : (w.map Char.toLower, type) ∈ reserved) : Identifier w := by
  have hlower : (reserved.all fun entry => !entry.1.isEmpty && entry.1.all Char.isLower) = true := by decide
  have hentry := all_eq_true.1 hlower _ h
  simp only [Bool.and_eq_true, Bool.not_eq_true', isEmpty_eq_false_iff, all_eq_true] at hentry
  obtain ⟨hne, hlow⟩ := hentry
  obtain ⟨c, v, rfl⟩ := exists_cons_of_ne_nil (fun hw => hne (by simp [hw]) : w ≠ [])
  have hstart : ∀ d ∈ c :: v, isIdentifierStart d := fun d hd => by
    simp [isIdentifierStart, alpha_of_toLower (hlow _ (mem_map_of_mem hd))]
  exact ⟨c, v, rfl, hstart c (by simp), fun d hd => identifierPart_of_start (hstart d (by simp [hd]))⟩

theorem scanned_identifier_iff : scanned c .identifier t = some (tok, rest) ↔
      ∃ v, t = v ++ rest ∧ (∀ d ∈ v, isIdentifierPart d) ∧
        tok = ⟨tokeniseReservedWord (c :: v), c :: v⟩ ∧
        Ends tok rest := by
  have hends (v : List Char) : State.Halts .identifier rest ↔
      Ends ⟨tokeniseReservedWord (c :: v), c :: v⟩ rest := by
    obtain h | ⟨h, -⟩ := tokeniseReservedWord_iff.1 (rfl : tokeniseReservedWord (c :: v) = _)
    · exact ends_word (.inl h)
    · exact ends_word (v := []) (.inr h)
  rw [scanned_iff]
  constructor
  · rintro ⟨v, q, type, rfl, hq, hacc, hh, rfl⟩
    obtain ⟨hv, rfl⟩ := run_identifier.1 hq
    cases hacc
    exact ⟨v, rfl, hv, rfl, (hends v).1 hh⟩
  · rintro ⟨v, rfl, hv, rfl, hend⟩
    exact ⟨v, .identifier, .identifier, rfl, run_identifier.2 ⟨hv, rfl⟩, rfl, (hends v).2 hend, rfl⟩

/-! ## Strings -/

theorem processString_other (s : List Char) (hc : c ≠ '\'') :
    processString (c :: s) = (processString s).map fun r => (c :: r.1, r.2) := by
  rw [processString.eq_def]
  simp [hc]

/-- Up to its quote a string is read as it stands. -/
theorem processString_append (hw : ∀ c ∈ w, c ≠ '\'') :
    processString (w ++ s) = (processString s).map fun r => (w ++ r.1, r.2) := by
  induction w with
  | nil => simp
  | cons c w ih =>
    have hc : c ≠ '\'' := hw c (by simp)
    rw [cons_append, processString_other _ hc, ih fun d hd => hw d (by simp [hd])]
    simp [Function.comp_def]

theorem literalString_cons (hc : c ≠ '\'') (h : LiteralString v ('\'' :: x)) :
    LiteralString (c :: v) ('\'' :: c :: x) := by
  generalize hx : '\'' :: x = y at h
  cases h with
  | @one w hw =>
    cases hx
    exact .one (by simpa [hc] using hw)
  | @more w v' x' hw hx' =>
    cases hx
    exact .more (w := c :: w) (by simpa [hc] using hw) hx'

/-- What is read as a string is a literal. The recursion is that of `processString`. -/
theorem processString_sound : ∀ {s v rest : List Char}, processString s = some (v, rest) →
    ∃ x, s = x ++ rest ∧ LiteralString v ('\'' :: x) ∧ Ends ⟨.string, v⟩ rest
  | [], v, rest, h => by cases h
  | c :: s, v, rest, h => by
    by_cases hc : c = '\''
    · subst hc
      rw [processString.eq_def] at h
      cases s with
      | nil =>
        cases h
        exact ⟨['\''], rfl, .one nofun, nofun⟩
      | cons d s =>
        by_cases hd : d = '\''
        · subst hd
          simp only [if_true, map_eq_some_iff, Prod.exists] at h
          obtain ⟨v, rest, h, rfl, rfl⟩ := h
          obtain ⟨x, rfl, hx, hend⟩ := processString_sound h
          exact ⟨'\'' :: '\'' :: x, rfl, .more (w := []) nofun hx, hend⟩
        simp only [hd] at h
        cases h
        refine ⟨['\''], rfl, .one nofun, ?_⟩
        intro e s' h
        cases h
        simpa [continues] using hd
    rw [processString_other s hc] at h
    simp only [map_eq_some_iff, Prod.exists] at h
    obtain ⟨v, rest, h, rfl, rfl⟩ := h
    obtain ⟨x, rfl, hx, hend⟩ := processString_sound h
    exact ⟨c :: x, rfl, literalString_cons hc hx, hend⟩

/-- Every literal string is read, up to a quote that does not stand for one. -/
theorem processString_complete {y : List Char} (h : LiteralString v y) (rest : List Char)
    (hend : ∀ u, Ends ⟨.string, u⟩ rest) :
    ∃ x, y = '\'' :: x ∧ processString (x ++ rest) = some (v, rest) := by
  induction h with
  | @one w hw =>
    refine ⟨_, rfl, ?_⟩
    have hquote : processString ('\'' :: rest) = some ([], rest) := by
      cases rest with
      | nil => rfl
      | cons d s =>
        have hd : d ≠ '\'' := by simpa [continues] using hend [] d s rfl
        simp [processString, hd]
    rw [append_assoc, processString_append hw, cons_append, nil_append, hquote]
    simp
  | @more w v x hw hx ih =>
    obtain ⟨x', rfl, hx'⟩ := ih
    refine ⟨_, rfl, ?_⟩
    rw [append_assoc, processString_append hw]
    simp [processString, hx']

/-! ## One token -/

/-- The characters that are decided on at once. -/
def punctuation : List Char := ['(', ')', ',', '+', '-', '*', '/', '=', '<', '>']

theorem tokenise_other (t : List Char) (hc : c ∉ punctuation) : tokenise (c :: t) =
    if isIdentifierStart c then scanned c .identifier t
    else if c = '\'' then (processString t).map fun r => (⟨.string, r.1⟩, r.2)
    else if c.isDigit then scanned c .digit t
    else if c = '.' then scanned c .decimalStart t
    else none := by
  simp only [punctuation, mem_cons, not_or] at hc
  simp [tokenise, hc]

/-- An operator is read whole, where no longer one begins. -/
theorem tokenise_symbol {t : Token} (ht : t ∈ symbols) (hend : Ends t rest) :
    tokenise (t.val ++ rest) = some (t, rest) := by
  simp only [symbols, mem_cons, not_mem_nil, or_false] at ht
  by_cases hless : t = ⟨.less, ['<']⟩ ∨ t = ⟨.grt, ['>']⟩
  · cases rest with
    | nil => obtain rfl | rfl := hless <;> rfl
    | cons d s =>
      have hd := hend d s rfl
      obtain rfl | rfl := hless <;> simp_all [tokenise, continues]
  · obtain rfl | rfl | rfl | rfl | rfl | rfl | rfl | rfl | rfl | rfl | rfl | rfl | rfl := ht <;>
      first | rfl | simp at hless

theorem punctuation_other : ∀ c ∈ punctuation, isIdentifierStart c = false ∧ c.isDigit = false := by
  have h : (punctuation.all fun c => !isIdentifierStart c && !c.isDigit) = true := by decide
  simpa using h

theorem tokenise_word (v : List Char) (hc : isIdentifierStart c) : tokenise (c :: v) = scanned c .identifier v := by
  have hp : c ∉ punctuation := fun h => by simp [punctuation_other c h] at hc
  rw [tokenise_other v hp, if_pos hc]

theorem digit_not_start (hc : c.isDigit) : isIdentifierStart c = false ∧ c ≠ '\'' := by
  have hdigit : 48 ≤ c.val.toNat ∧ c.val.toNat ≤ 57 := by
    simpa [Char.isDigit, UInt32.le_iff_toNat_le] using hc
  have hne {d : Char} (hd : d.val.toNat < 48 ∨ 57 < d.val.toNat) : c ≠ d := by
    rintro rfl
    omega
  have halpha : c.isAlpha = false := by
    rw [show c.isAlpha = (decide (c.val ≥ 65 ∧ c.val ≤ 90) ||
      (decide (c.val ≥ 97) && decide (c.val ≤ 122))) from rfl]
    simp only [Bool.or_eq_false_iff, Bool.and_eq_false_iff, decide_eq_false_iff_not, UInt32.le_iff_toNat_le,
      UInt32.reduceToNat]
    omega
  refine ⟨?_, hne (by decide)⟩
  simp [isIdentifierStart, halpha, hne (d := '_') (by decide), hne (d := '$') (by decide)]

theorem tokenise_digit (v : List Char) (hc : c.isDigit) : tokenise (c :: v) = scanned c .digit v := by
  have hp : c ∉ punctuation := fun h => by simp [punctuation_other c h] at hc
  obtain ⟨hstart, hquote⟩ := digit_not_start hc
  rw [tokenise_other v hp, if_neg (by simp [hstart]), if_neg hquote, if_pos hc]

/-- Every lexeme is read as its token where the token ends. -/
theorem tokenise_complete {t : Token} (ht : Lexeme t x) (hend : Ends t rest) :
    tokenise (x ++ rest) = some (t, rest) := by
  cases ht with
  | symbol ht => exact tokenise_symbol ht hend
  | @word type w hw =>
    obtain ⟨c, v, rfl, hc, hv⟩ := identifier_of_reserved hw
    have htype := tokeniseReservedWord_iff.2 (.inl hw)
    rw [cons_append, tokenise_word _ hc]
    exact scanned_identifier_iff.2 ⟨v, rfl, hv, by rw [htype], hend⟩
  | identifier hw hres =>
    obtain ⟨c, v, rfl, hc, hv⟩ := hw
    have htype := tokeniseReservedWord_iff.2 (.inr ⟨rfl, hres⟩)
    rw [cons_append, tokenise_word _ hc]
    exact scanned_identifier_iff.2 ⟨v, rfl, hv, by rw [htype], hend⟩
  | string hw =>
    obtain ⟨x, rfl, hx⟩ := processString_complete hw rest fun u c s h => hend c s h
    rw [cons_append, tokenise_other _ (by decide), hx]
    rfl
  | exact hw =>
    obtain ⟨c, v, rfl, hc, -⟩ := digits_cons hw
    rw [cons_append, tokenise_digit _ hc]
    exact (scanned_digit_iff hc).2 ⟨v, rfl, .inl ⟨rfl, hw⟩, hend⟩
  | approx hw =>
    obtain ⟨c, v, rfl, hc | rfl⟩ := approxNumeric_head hw
    · rw [cons_append, tokenise_digit _ hc]
      exact (scanned_digit_iff hc).2 ⟨v, rfl, .inr ⟨rfl, hw⟩, hend⟩
    · exact scanned_point_iff.2 ⟨v, rfl, rfl, hw, hend⟩

/-- What is read from a punctuation character is one of the operators. -/
theorem tokenise_punctuation (hc : c ∈ punctuation)
    (h : tokenise (c :: t) = some (tok, rest)) : tok ∈ symbols ∧ c :: t = tok.val ++ rest ∧ Ends tok rest := by
  have hsym (tok' : Token) (rest' : List Char) (hs : tok' ∈ symbols) (heq : c :: t = tok'.val ++ rest')
      (hend : Ends tok' rest') : tok ∈ symbols ∧ c :: t = tok.val ++ rest ∧ Ends tok rest := by
    rw [heq, tokenise_symbol hs hend] at h
    cases h
    exact ⟨hs, heq, hend⟩
  simp only [punctuation, mem_cons, not_mem_nil, or_false] at hc
  obtain rfl | rfl | rfl | rfl | rfl | rfl | rfl | rfl | rfl | rfl := hc
  case inr.inr.inr.inr.inr.inr.inr.inr.inl =>
    by_cases hneq : ∃ t', t = '>' :: t'
    · obtain ⟨t', rfl⟩ := hneq
      exact hsym ⟨.neq, ['<', '>']⟩ t' (by decide) rfl fun _ _ _ => rfl
    by_cases hlseq : ∃ t', t = '=' :: t'
    · obtain ⟨t', rfl⟩ := hlseq
      exact hsym ⟨.lseq, ['<', '=']⟩ t' (by decide) rfl fun _ _ _ => rfl
    · refine hsym ⟨.less, ['<']⟩ t (by decide) rfl ?_
      rintro d t' rfl
      simp_all [continues]
  case inr.inr.inr.inr.inr.inr.inr.inr.inr =>
    by_cases hgreq : ∃ t', t = '=' :: t'
    · obtain ⟨t', rfl⟩ := hgreq
      exact hsym ⟨.greq, ['>', '=']⟩ t' (by decide) rfl fun _ _ _ => rfl
    · refine hsym ⟨.grt, ['>']⟩ t (by decide) rfl ?_
      rintro d t' rfl
      simp_all [continues]
  all_goals
    cases h
    exact ⟨by decide, rfl, fun _ _ _ => rfl⟩

/-- Whatever is read is a lexeme of its token. -/
theorem tokenise_sound (h : tokenise (c :: t) = some (tok, rest)) :
    ∃ v, t = v ++ rest ∧ Lexeme tok (c :: v) ∧ Ends tok rest := by
  by_cases hc : c ∈ punctuation
  · obtain ⟨htok, hval, hend⟩ := tokenise_punctuation hc h
    have hne : ∀ t ∈ symbols, t.val ≠ [] := by decide
    obtain ⟨d, v, hv⟩ := exists_cons_of_ne_nil (hne tok htok)
    have hlex := Lexeme.symbol htok
    rw [hv] at hval hlex
    cases hval
    exact ⟨v, rfl, hlex, hend⟩
  rw [tokenise_other t hc] at h
  split at h
  · rename_i hstart
    obtain ⟨v, rfl, hv, rfl, hend⟩ := scanned_identifier_iff.1 h
    refine ⟨v, rfl, ?_, hend⟩
    obtain htype | ⟨htype, hres⟩ := tokeniseReservedWord_iff.1 (rfl : tokeniseReservedWord (c :: v) = _)
    · exact .word htype
    · rw [htype]
      exact .identifier ⟨c, v, rfl, hstart, hv⟩ hres
  split at h
  · rename_i hquote
    subst hquote
    simp only [map_eq_some_iff, Prod.exists] at h
    obtain ⟨v, rest, h, rfl, rfl⟩ := h
    obtain ⟨x, rfl, hx, hend⟩ := processString_sound h
    exact ⟨x, rfl, .string hx, hend⟩
  split at h
  · obtain ⟨v, rfl, ⟨rfl, hv⟩ | ⟨rfl, hv⟩, hend⟩ := (scanned_digit_iff ‹_›).1 h
    · exact ⟨v, rfl, .exact hv, hend⟩
    · exact ⟨v, rfl, .approx hv, hend⟩
  split at h
  · rename_i hpoint
    subst hpoint
    obtain ⟨v, rfl, rfl, hv, hend⟩ := scanned_point_iff.1 h
    exact ⟨v, rfl, .approx hv, hend⟩
  · cases h

/-! ## The tokens of a text -/

theorem skipWS_append (hw : ∀ c ∈ w, isSpace c) : skipWS (w ++ s) = skipWS s := by
  induction w with
  | nil => rfl
  | cons c w ih =>
    rw [cons_append, skipWS, dropWhile_cons_of_pos (hw c (by simp))]
    exact ih fun d hd => hw d (by simp [hd])

/-- Space is skipped, and nothing else. -/
theorem skipWS_eq (s : List Char) : ∃ w, s = w ++ skipWS s ∧ ∀ c ∈ w, isSpace c :=
  ⟨s.takeWhile isSpace, (takeWhile_append_dropWhile ..).symm, fun _ hc => mem_takeWhile_imp hc⟩

theorem lexeme_head {t : Token} (h : Lexeme t x) : ∃ c v, x = c :: v ∧ isSpace c = false := by
  have hspace (c : Char) (hc : isIdentifierStart c ∨ c.isDigit ∨ c = '\'' ∨ c = '.') : isSpace c = false := by
    by_contra hs
    simp only [isSpace, mem_cons, not_mem_nil, or_false, decide_eq_false_iff_not, not_not] at hs
    obtain rfl | rfl | rfl | rfl | rfl | rfl := hs <;> revert hc <;> decide
  have hword {w : List Char} (hw : Identifier w) : ∃ c v, w = c :: v ∧ isSpace c = false := by
    obtain ⟨c, v, rfl, hc, -⟩ := hw
    exact ⟨c, v, rfl, hspace c (.inl hc)⟩
  cases h with
  | symbol ht =>
    have hsym : (symbols.all fun t => !t.val.isEmpty && t.val.all fun c => !isSpace c) = true := by decide
    have hall := all_eq_true.1 hsym t ht
    simp only [Bool.and_eq_true, Bool.not_eq_true', isEmpty_eq_false_iff, all_eq_true] at hall
    obtain ⟨hne, hall⟩ := hall
    obtain ⟨c, v, hv⟩ := exists_cons_of_ne_nil hne
    exact ⟨c, v, hv, hall c (by simp [hv])⟩
  | word hw => exact hword (identifier_of_reserved hw)
  | identifier hw _ => exact hword hw
  | string hw =>
    obtain ⟨x, rfl, -⟩ := processString_complete hw [] fun u => by simp [Ends]
    exact ⟨_, x, rfl, hspace _ (by simp)⟩
  | exact hw =>
    obtain ⟨c, v, rfl, hc, -⟩ := digits_cons hw
    exact ⟨c, v, rfl, hspace c (.inr (.inl hc))⟩
  | approx hw =>
    obtain ⟨c, v, rfl, hc | hc⟩ := approxNumeric_head hw
    · exact ⟨c, v, rfl, hspace c (.inr (.inl hc))⟩
    · exact ⟨c, v, rfl, hspace c (.inr (.inr (.inr hc)))⟩

/-- What is read is the start of the text, and all of it if it is legal. -/
theorem tokens_read : ∀ n s, Begins (tokens n s).1 s ∧ ((tokens n s).2 = true → Spelled (tokens n s).1 s)
  | 0, s => ⟨.nil, nofun⟩
  | n + 1, s => by
    obtain ⟨w, hs, hw⟩ := skipWS_eq s
    rw [tokens]
    cases hsk : skipWS s with
    | nil =>
      rw [hsk, append_nil] at hs
      exact ⟨.nil, fun _ => .nil (hs ▸ hw)⟩
    | cons c t =>
      rw [hsk] at hs
      dsimp only
      cases htok : tokenise (c :: t) with
      | none => exact ⟨.nil, nofun⟩
      | some r =>
        obtain ⟨tok, rest⟩ := r
        obtain ⟨v, hv, hlex, hend⟩ := tokenise_sound htok
        obtain ⟨hbeg, hspe⟩ := tokens_read n rest
        rw [hs, hv]
        exact ⟨.cons hw hlex hend hbeg, fun hlegal => .cons hw hlex hend (hspe hlegal)⟩

/-- The tokens that are read spell the text. -/
theorem tokens_spelled (n : Nat) (s : List Char) : (tokens n s).2 = true → Spelled (tokens n s).1 s :=
  (tokens_read n s).2

/-- Fuel for each character is enough to read a text that is spelled. -/
theorem tokens_complete {ts : List Token} (h : Spelled ts s) : ∀ n, s.length < n → tokens n s = (ts, true) := by
  induction h with
  | @nil s hs =>
    intro n hn
    obtain ⟨n, rfl⟩ : ∃ m, n = m + 1 := ⟨n - 1, by omega⟩
    have hskip : skipWS s = [] := by simpa [skipWS] using skipWS_append (s := []) hs
    rw [tokens, hskip]
  | @cons t ts w x s hw ht hend hts ih =>
    intro n hn
    obtain ⟨n, rfl⟩ : ∃ m, n = m + 1 := ⟨n - 1, by omega⟩
    obtain ⟨c, v, rfl, hc⟩ := lexeme_head ht
    have hskip : skipWS (w ++ (c :: v ++ s)) = c :: (v ++ s) := by
      rw [skipWS_append hw, cons_append, skipWS, dropWhile_cons_of_neg (by simp [hc])]
    have htok := tokenise_complete ht hend
    simp only [length_append, length_cons] at hn
    rw [cons_append] at htok
    rw [tokens, hskip]
    simp [htok, ih n (by omega)]

end QB.Impl.Selector
