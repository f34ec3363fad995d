import QpidBroker.Proof.Selector
import QpidBroker.Proof.SelectorParse
import QpidBroker.Proof.SelectorToken

/-!
# Selectors, from their text to their value

A text of the grammar is parsed as what it derives, any other text is refused
(`parse_derived`, `parse_refused`), and what was parsed is evaluated unless it
reaches a division that traps.
-/

namespace QB.Impl.Selector

open QB.Descent QB.Spec.Selector List

variable {D : Type} [Machine D]

variable {text s : List Char} {ts : List Token}

/-- A text of the grammar is parsed as the expression that it derives. -/
theorem parse_derived {e : Expression D} (hs : Spelled ts text)
    (he : Derives .plain .or ts e) : parse D text = .ok e := by
  have htok := tokens_complete hs (text.length + 1) (by omega)
  simp only [parse, htok, orExpression_complete he]
  rfl

theorem begins_of_append {us vs : List Token} (h : Begins (us ++ vs) s) : Begins us s := by
  induction us generalizing s with
  | nil => exact .nil
  | cons t us ih =>
    cases h with
    | cons hw ht hend hts => exact .cons hw ht hend (ih hts)

theorem begins_type (h : Begins ts s) : ∀ t ∈ ts, t.type ≠ .eos := by
  induction h with
  | nil => nofun
  | @cons t ts w x s hw ht hend hts ih =>
    intro u hu
    obtain rfl | hu := mem_cons.1 hu
    · cases ht with
      | symbol ht =>
        have hsym : ∀ t ∈ symbols, t.type ≠ .eos := by decide
        exact hsym u ht
      | word hw =>
        have hres : ∀ entry ∈ reserved, entry.2 ≠ .eos := by decide
        exact hres _ hw
      | _ => simp
    · exact ih u hu

/-- What is parsed is a text of the grammar. -/
theorem derived_of_parse {e : Expression D} (h : parse D text = .ok e) :
    ∃ ts, Spelled ts text ∧ Derives .plain .or ts e := by
  have hbeg := (tokens_read (text.length + 1) text).1
  have hspe := tokens_spelled (text.length + 1) text
  unfold parse at h
  generalize tokens (text.length + 1) text = r at h hbeg hspe
  obtain ⟨ts, legal⟩ := r
  have hreads := orExpression_reads (D := D) (streamEnd_end legal) (ts.length + 1) ts
  obtain ⟨⟨b, rest⟩, hor, hrest⟩ := bind_eq_ok.1 h
  rw [hor] at hreads
  obtain ⟨us, rfl, hus⟩ := hreads
  obtain ⟨⟨t, rest'⟩, hnext, hend⟩ := bind_eq_ok.1 hrest
  dsimp only at hend
  split at hend
  · cases hend
  rename_i htype
  cases hend
  rw [not_not] at htype
  cases rest with
  | cons u rest =>
    cases hnext
    exact absurd htype (begins_type hbeg t (by simp))
  | nil =>
    cases legal with
    | false => cases hnext
    | true => exact ⟨us, by simpa using hspe rfl, hus⟩

theorem parse_bad_cast (h : parse D text = .error .badLexicalCast) :
    ∃ ts t, Begins (ts ++ [t]) text ∧ Unrepresentable D t := by
  have hbeg := (tokens_read (text.length + 1) text).1
  unfold parse at h
  generalize tokens (text.length + 1) text = r at h hbeg
  obtain ⟨ts, legal⟩ := r
  have hreads := orExpression_reads (D := D) (streamEnd_end legal) (ts.length + 1) ts
  obtain hor | ⟨⟨b, rest⟩, hor, hrest⟩ := bind_eq_error.1 h
  · rw [hor] at hreads
    obtain ⟨t, ht, hu⟩ := hreads rfl
    obtain ⟨us, vs, rfl⟩ := append_of_mem ht
    have happ : Begins (us ++ [t] ++ vs) text := by simpa using hbeg
    exact ⟨us, t, begins_of_append happ, hu⟩
  obtain hnext | ⟨⟨t, rest'⟩, -, hend⟩ := bind_eq_error.1 hrest
  · cases rest with
    | cons u rest => cases hnext
    | nil => cases legal <;> cases hnext
  · dsimp only at hend
    split at hend <;> cases hend

theorem derives_mono {g g' : Grammar} (hfull : g.full = true → g'.full = true)
    (hlong : g.longEscape = true → g'.longEscape = true) {l : Level} {us : List Token} {x : l.Syntax D}
    (h : Derives g l us x) : Derives g' l us x := by
  induction h with
  | or _ ht _ iha ihb => exact .or iha ht ihb
  | ofAnd _ iha => exact .ofAnd iha
  | and _ ht _ iha ihb => exact .and iha ht ihb
  | ofComparison _ iha => exact .ofComparison iha
  | not ht _ iha => exact .not ht iha
  | isNull _ ht hu iha => exact .isNull iha ht hu
  | isNotNull _ ht hu hv iha => exact .isNotNull iha ht hu hv
  | like _ hn ht hs he iha =>
    refine .like iha hn ht hs ?_
    cases he with
    | none => exact .none
    | escape ht he hlen => exact .escape ht he (hlen.imp_left hlong)
  | between _ hn ht _ hu _ iha ihl ihb => exact .between iha hn ht ihl hu ihb
  | isIn _ hn ht hu _ hv iha ihl => exact .isIn iha hn ht hu ihl hv
  | compare _ ht _ iha ihb => exact .compare iha ht ihb
  | ofAdd _ iha => exact .ofAdd iha
  | add _ ht _ iha ihb => exact .add iha ht ihb
  | ofMultiply _ iha => exact .ofMultiply iha
  | multiply _ ht _ iha ihb => exact .multiply iha ht ihb
  | ofUnary _ iha => exact .ofUnary iha
  | plus hf ht _ iha => exact .plus (hfull hf) ht iha
  | minus ht _ iha => exact .minus ht iha
  | parens ht _ hu iha => exact .parens ht iha hu
  | identifier ht => exact .identifier ht
  | string ht => exact .string ht
  | bool ht => exact .bool ht
  | exact ht hv => exact .exact ht hv
  | approx ht hx => exact .approx ht hx
  | unsized hf ht => exact .unsized (hfull hf) ht
  | one _ iha => exact .one iha
  | more _ ht _ iha ihb => exact .more iha ht ihb

/-- A text outside the grammar is refused, with `range_error` unless it has a
numeral without a value. -/
theorem parse_refused (hout : ∀ ts (e : Expression D), Spelled ts text → ¬ Derives .singleEscape .or ts e)
    (hnum : ∀ ts t, Begins (ts ++ [t]) text → ¬ Unrepresentable D t) :
    ∃ what, parse D text = .error (.rangeError what) := by
  cases h : parse D text with
  | ok e =>
    obtain ⟨ts, hs, he⟩ := derived_of_parse h
    have hmono : Derives .singleEscape .or ts e := by
      refine derives_mono ?_ ?_ he
      · exact fun _ => rfl
      · exact fun h => h
    exact absurd hmono (hout ts e hs)
  | error f =>
    cases f with
    | rangeError what => exact ⟨what, rfl⟩
    | badLexicalCast =>
      obtain ⟨ts, t, hb, hu⟩ := parse_bad_cast h
      exact absurd hu (hnum ts t hb)

/-- The parser implements its grammar. A text of the grammar is parsed, and is
evaluated in every environment as its derivation prescribes, as far as it does
not reach a division that traps; a text outside the grammar raises
`range_error`. -/
theorem parse_implements_grammar : (∀ text ts (e : Expression D), Spelled ts text → Derives .plain .or ts e →
      parse D text = .ok e ∧ ∀ env, Safe env e → e.eval env = .ok (value env e)) ∧
    ∀ text, (∀ ts (e : Expression D), Spelled ts text → ¬ Derives .singleEscape .or ts e) →
      (∀ ts t, Begins (ts ++ [t]) text → ¬ Unrepresentable D t) →
      ∃ what, parse D text = .error (.rangeError what) :=
  ⟨fun _ _ e hs he => ⟨parse_derived hs he, fun env hsafe => (eval_agrees env e).1 hsafe⟩,
    fun _ => parse_refused⟩

/-- A numeral of the type derives its value. -/
theorem derives_digits {g : Grammar} {val : List Char} (hne : val ≠ []) (hdigits : val.all Char.isDigit = true)
    (hv : digitsValue val < 2 ^ 63) :
    Derives g .unary [⟨.numericExact, val⟩]
      (.literal (.exact (BitVec.ofNat 64 (digitsValue val))) : Expression D) :=
  .exact rfl (by rw [Machine.lexicalCastInt64_digits hne hdigits, if_pos hv])

/-- A machine that does not compute with `double`. -/
instance unitMachine : Machine Unit where
  ofInt _ := ()
  add _ _ := ()
  sub _ _ := ()
  mul _ _ := ()
  div _ _ := ()
  neg _ := ()
  eq _ _ := true
  lt _ _ := false
  le _ _ := true
  lexicalCast _ := some ()
  lexicalCastInt64 val := if digitsValue val < 2 ^ 63 then some (BitVec.ofNat 64 (digitsValue val)) else none
  lexicalCastInt64_digits _ _ := rfl
  regexMatch _ _ := false

theorem begins_illegal (hspace : skipWS s = s) (hnone : tokenise s = none) (h : Begins ts s) : ts = [] := by
  cases h with
  | nil => rfl
  | @cons t ts w x s hw ht hend hts =>
    obtain ⟨c, v, rfl, hc⟩ := lexeme_head ht
    rw [skipWS_append hw, cons_append, skipWS, dropWhile_cons_of_neg (by simp [hc])] at hspace
    rw [cons_append, ← hspace, ← cons_append, tokenise_complete ht hend] at hnone
    cases hnone

theorem derives_a (g : Grammar) : Derives g .add [⟨.identifier, ['a']⟩] (.identifier ['a'] : Expression Unit) :=
  .ofMultiply (.ofUnary (.identifier rfl))

/-- `a=1` is a text of the grammar, and `#` is none. -/
theorem parse_implements_grammar_a_eq_one : (∃ e, parse Unit ['a', '=', '1'] = .ok e) ∧
      ∃ what, parse Unit ['#'] = .error (.rangeError what) := by
  refine ⟨⟨_, (parse_implements_grammar.1 _ _ _ (tokens_spelled 4 ['a', '=', '1'] rfl)
    (.ofAnd (.ofComparison (.compare (derives_a .plain) rfl
      (.ofMultiply (.ofUnary (derives_digits (by decide) (by decide) (by decide)))))))).1⟩,
    (parse_implements_grammar).2 ['#'] (fun ts e hs _ => ?_) fun ts t hb _ => ?_⟩
  · have h := tokens_complete hs 2 (by decide)
    cases congrArg Prod.snd h
  · have h := begins_illegal rfl rfl hb
    simp at h

/-- `a like 'b' escape 'cd'` is refused. -/
theorem escape_refused : ∃ text ts, ∃ e : Expression Unit,
    Spelled ts text ∧ Derives .documented .or ts e ∧ ∃ what, parse Unit text = .error (.rangeError what) :=
  ⟨['a', ' ', 'l', 'i', 'k', 'e', ' ', '\'', 'b', '\'', ' ', 'e', 's', 'c', 'a', 'p', 'e', ' ', '\'', 'c',
    'd', '\''], _, _, tokens_spelled 23 _ rfl, .ofAnd (.ofComparison (.like (derives_a .documented) .none rfl rfl
      (.escape rfl rfl (.inl rfl)))), _, rfl⟩

end QB.Impl.Selector
