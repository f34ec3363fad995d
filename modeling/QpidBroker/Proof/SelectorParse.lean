import QpidBroker.Spec.SelectorGrammar

/-!
# The selector parser reads its grammar

What the parser takes derives the expression that it returns, and an exception
other than `range_error` comes from a numeral that has no value
(`orExpression_reads`). In the other direction, tokens that derive an expression
are read as that expression wherever a token follows that does not belong to it
(`orExpression_complete`).
-/

namespace QB.Impl.Selector

open QB.Descent QB.Spec.Selector List

variable {D : Type} [Machine D]

/-- A bad cast is that of a numeral in the input. -/
def Refused (D : Type) [Machine D] (ts : List Token) (f : Thrown) : Prop :=
  f = .badLexicalCast → ∃ t ∈ ts, Unrepresentable D t

theorem refused_inherited : Inherited (Refused D) := by
  intro us ts f h hf
  obtain ⟨t, ht, hu⟩ := h hf
  exact ⟨t, mem_append_right us ht, hu⟩

theorem refused_throwParseError (ts : List Token) (t : Token) (msg : String) :
    Refused D ts (throwParseError t msg) := nofun

/-- The end of the tokens of a text. -/
structure StreamEnd (eos : Except Thrown Token) : Prop where
  type : ∀ t, eos = .ok t → t.type = .eos
  thrown : ∀ f, eos = .error f → f ≠ .badLexicalCast

/-- What stands for the end of the tokens has no other type. -/
theorem streamEnd_end (legal : Bool) : StreamEnd (streamEnd legal) := by
  cases legal with
  | false => exact ⟨nofun, fun f h => by cases h; nofun⟩
  | true => exact ⟨fun t h => by cases h; rfl, nofun⟩

omit [Machine D] in
variable {f : Expression D → Expression D → Expression D} {us : List Token}

theorem multiplyOperator_eq {t : Token} (h : multiplyOperator t = some f) :
    ∃ op, (t.type = .mult ∧ op = .mult ∨ t.type = .div ∧ op = .div) ∧ f = .arithmetic op := by
  unfold multiplyOperator at h
  split at h
  · cases h
    exact ⟨.mult, .inl ⟨‹_›, rfl⟩, rfl⟩
  split at h
  · cases h
    exact ⟨.div, .inr ⟨‹_›, rfl⟩, rfl⟩
  · cases h

omit [Machine D] in
theorem addOperator_eq {t : Token} (h : addOperator t = some f) :
    ∃ op, (t.type = .plus ∧ op = .add ∨ t.type = .minus ∧ op = .sub) ∧ f = .arithmetic op := by
  unfold addOperator at h
  split at h
  · cases h
    exact ⟨.add, .inl ⟨‹_›, rfl⟩, rfl⟩
  split at h
  · cases h
    exact ⟨.sub, .inr ⟨‹_›, rfl⟩, rfl⟩
  · cases h

section Reads

variable {eos : Except Thrown Token} (heos : StreamEnd eos)
include heos

theorem next_reads {A : Type} {R : List Token → A → Prop} {ts : List Token}
    {f : Token × List Token → Except Thrown (A × List Token)}
    (hf : ∀ t rest, ts = t :: rest → Reads (Refused D) R (t :: rest) (f (t, rest)))
    (hend : ∀ t, ts = [] → t.type = .eos → Reads (Refused D) R [] (f (t, []))) :
    Reads (Refused D) R ts (next eos ts >>= f) :=
  .next_bind (fun f h hf => absurd hf (heos.thrown f h)) hf fun t hts ht => hend t hts (heos.type t ht)

theorem primaryExpression_reads (ts : List Token) :
    Reads (Refused D) (Derives (D := D) .plain .unary) ts (primaryExpression eos ts) := by
  refine next_reads heos (fun t rest hts => ?_) fun t hts ht => ?_
  · dsimp only
    split
    · exact ⟨[t], rfl, .identifier ‹_›⟩
    · exact ⟨[t], rfl, .string ‹_›⟩
    · exact ⟨[t], rfl, .bool (.inr ⟨‹_›, rfl⟩)⟩
    · exact ⟨[t], rfl, .bool (.inl ⟨‹_›, rfl⟩)⟩
    · cases hv : Machine.lexicalCastInt64 D t.val with
      | some i => exact ⟨[t], rfl, .exact ‹_› hv⟩
      | none => exact fun _ => ⟨t, by simp, .inl ⟨‹_›, hv⟩⟩
    · cases hv : (Machine.lexicalCast t.val : Option D) with
      | some x => exact ⟨[t], rfl, .approx ‹_› hv⟩
      | none => exact fun _ => ⟨t, by simp, .inr ⟨‹_›, hv⟩⟩
    · exact refused_throwParseError _ _ _
  · simp only [ht]
    exact refused_throwParseError _ _ _

theorem expect_reads {A : Type} {R : List Token → A → Prop} {ts : List Token} (type : TokenType)
    {msg : String} {f : Token × List Token → Except Thrown (A × List Token)} (htype : type ≠ .eos)
    (hf : ∀ t rest, t.type = type → Reads (Refused D) (fun vs a => R (t :: vs) a) rest (f (t, rest))) :
    Reads (Refused D) R ts (next eos ts >>= fun r =>
      if r.1.type ≠ type then throw (throwParseError r.1 msg) else f r) := by
  refine next_reads heos (fun t rest hts => ?_) fun t hts ht => ?_
  · by_cases h : t.type = type
    · simp only [h, ne_eq]
      exact .append refused_inherited [t] (hf t rest h)
    · simp only [ne_eq, h]
      exact refused_throwParseError _ _ _
  · simp only [ht, ne_eq, htype.symm]
    exact refused_throwParseError _ _ _

variable {par : Parser Token Thrown (Expression D)}
  (hpar : ∀ ts, Reads (Refused D) (Derives (D := D) .plain .or) ts (par ts))
include hpar

/-- The minus sign is read again and again; a parenthesis goes back to `par`. -/
theorem unaryArithExpression_reads : ∀ ts,
    Reads (Refused D) (Derives (D := D) .plain .unary) ts (unaryArithExpression eos par ts)
  | [] => primaryExpression_reads heos []
  | t :: ts => by
    unfold unaryArithExpression
    split
    · refine .append refused_inherited [t] (.bind refused_inherited (hpar ts) fun us e rest he => ?_)
      refine expect_reads heos .rparen (by simp) fun u rest hu => .pure (.parens ‹_› he hu)
    · refine .append refused_inherited [t]
        (.bind refused_inherited (unaryArithExpression_reads ts) fun us e rest he => .pure ?_)
      simpa using Derives.minus ‹_› he
    · exact primaryExpression_reads heos (t :: ts)

theorem multiplyExpression_reads (ts : List Token) :
    Reads (Refused D) (Derives (D := D) .plain .multiply) ts (multiplyExpression eos par ts) := by
  refine chain_reads refused_inherited (fun f h hf => absurd hf (heos.thrown f h))
    (unaryArithExpression_reads heos hpar) (fun t ht => by simp [multiplyOperator, heos.type t ht])
    (fun us a t f vs e ha hop he => ?_) (fun us e he => .ofUnary he) ts
  obtain ⟨op, ht, rfl⟩ := multiplyOperator_eq hop
  exact .multiply ha ht he

theorem addExpression_reads (ts : List Token) :
    Reads (Refused D) (Derives (D := D) .plain .add) ts (addExpression eos par ts) := by
  refine chain_reads refused_inherited (fun f h hf => absurd hf (heos.thrown f h))
    (multiplyExpression_reads heos hpar) (fun t ht => by simp [addOperator, heos.type t ht])
    (fun us a t f vs e ha hop he => ?_) (fun us e he => .ofMultiply he) ts
  obtain ⟨op, ht, rfl⟩ := addOperator_eq hop
  exact .add ha ht he

theorem list_reads (ts : List Token) : Reads (Refused D) (Derives (D := D) .plain .list) ts
      (chain eos listOperator (addExpression eos par) (fun e => [e]) ts) := by
  refine chain_reads refused_inherited (fun f h hf => absurd hf (heos.thrown f h))
    (addExpression_reads heos hpar) (fun t ht => by simp [listOperator, heos.type t ht])
    (fun us a t f vs e ha hop he => ?_) (fun us e he => .one he) ts
  unfold listOperator at hop
  split at hop
  · cases hop
    exact .more ha ‹_› he
  · cases hop

/-- What `specialComparisons` reads is the rest of a comparison, after a first
expression and perhaps a `NOT`. -/
def Special (e1 : Expression D) (ts : List Token) (e : Expression D) : Prop :=
  ∀ us ns neg, Derives .plain .add us e1 → Negation ns neg → Derives .plain .comparison (us ++ (ns ++ ts)) (neg e)

/-- `LIKE`, `BETWEEN` and `IN`, behind their first operand. -/
theorem specialComparisons_reads (e1 : Expression D) (ts : List Token) :
    Reads (Refused D) (Special e1) ts (specialComparisons eos par e1 ts) := by
  refine next_reads heos (fun t rest hts => ?_) fun t hts ht => ?_
  · dsimp only
    split
    · refine .append refused_inherited [t] (expect_reads heos .string (by simp) fun s rest hs => ?_)
      have hlike : Reads (Refused D) (fun vs a => Special e1 ([t] ++ s :: vs) a) rest
          (.ok (.like e1 (toRegex s.val []), rest)) :=
        .pure fun us ns neg ha hn => .like ha hn ‹_› hs .none
      refine next_reads heos (fun u rest' hrest => ?_) fun u hrest hu => ?_
      · subst hrest
        split
        swap
        · exact hlike
        refine .append refused_inherited [u] (expect_reads heos .string (by simp) fun e rest'' he => ?_)
        by_cases hlen : e.val.length > 1
        · simp only [hlen]
          exact refused_throwParseError _ _ _
        · simp only [hlen]
          exact .pure fun us ns neg ha hn => .like ha hn ‹_› hs (.escape ‹_› he (.inr (by omega)))
      · subst hrest
        simp only [hu]
        exact hlike
    · refine .append refused_inherited [t]
        (.bind refused_inherited (addExpression_reads heos hpar rest) fun ls l rest' hl => ?_)
      refine expect_reads heos .and (by simp) fun u rest hu => ?_
      refine .bind refused_inherited (addExpression_reads heos hpar rest) fun vs b rest' hb => ?_
      refine .pure fun us ns neg ha hn => ?_
      simpa using Derives.between ha hn ‹_› hl hu hb
    · refine .append refused_inherited [t] (expect_reads heos .lparen (by simp) fun u rest hu => ?_)
      refine .bind refused_inherited (list_reads heos hpar rest) fun vs l rest' hl => ?_
      refine expect_reads heos .rparen (by simp) fun v rest hv => ?_
      refine .pure fun us ns neg ha hn => ?_
      simpa using Derives.isIn ha hn ‹_› hu hl hv
    · exact refused_throwParseError _ _ _
  · simp only [ht]
    exact refused_throwParseError _ _ _

/-- The rest of a comparison, for any first operand. -/
theorem comparisonRest_reads (e1 : Expression D) (ts : List Token) :
    Reads (Refused D) (fun vs e => ∀ us, Derives .plain .add us e1 → Derives .plain .comparison (us ++ vs) e) ts
      (comparisonRest eos par e1 ts) := by
  have hspe (ts) : Reads (Refused D)
      (fun vs e => ∀ us, Derives .plain .add us e1 → Derives .plain .comparison (us ++ vs) e) ts
      (specialComparisons eos par e1 ts) :=
    (specialComparisons_reads heos hpar e1 ts).mono fun vs e he us ha => he us [] id ha .none
  have hnone : Reads (Refused D)
      (fun vs e => ∀ us, Derives .plain .add us e1 → Derives .plain .comparison (us ++ vs) e) ts (.ok (e1, ts)) :=
    .pure fun us ha => by simpa using Derives.ofAdd ha
  refine next_reads heos (fun t rest hts => ?_) fun t hts ht => ?_
  · subst hts
    dsimp only
    split
    · refine .append refused_inherited [t] (next_reads heos (fun u rest' hrest => ?_) fun u hrest hu => ?_)
      · split
        · exact .append refused_inherited [u] (.pure fun us ha => .isNull ha ‹_› ‹_›)
        · refine .append refused_inherited [u] (expect_reads heos .null (by simp) fun v rest hv => ?_)
          exact .pure fun us ha => .isNotNull ha ‹_› ‹_› hv
        · exact refused_throwParseError _ _ _
      · simp only [hu]
        exact refused_throwParseError _ _ _
    · refine .append refused_inherited [t]
        (.bind refused_inherited (specialComparisons_reads heos hpar e1 rest) fun vs e rest' he => ?_)
      exact .pure fun us ha => by simpa using he us [t] _ ha (.not ‹_›)
    · exact hspe _
    · exact hspe _
    · exact hspe _
    cases hop : comparisonOperator t.type with
    | none => exact hnone
    | some op =>
      refine .append refused_inherited [t]
        (.bind refused_inherited (addExpression_reads heos hpar rest) fun vs e2 rest' he => ?_)
      exact .pure fun us ha => by simpa using Derives.compare ha hop he
  · subst hts
    simp only [ht]
    exact hnone

theorem comparisonExpression_reads : ∀ ts,
    Reads (Refused D) (Derives (D := D) .plain .comparison) ts (comparisonExpression eos par ts)
  | [] => .bind refused_inherited (addExpression_reads heos hpar []) fun us e1 rest he =>
      (comparisonRest_reads heos hpar e1 rest).mono fun vs e h => h us he
  | t :: ts => by
    unfold comparisonExpression
    split
    · refine .append refused_inherited [t]
        (.bind refused_inherited (comparisonExpression_reads ts) fun us e rest he => .pure ?_)
      simpa using Derives.not ‹_› he
    · exact .bind refused_inherited (addExpression_reads heos hpar (t :: ts)) fun us e1 rest he =>
        (comparisonRest_reads heos hpar e1 rest).mono fun vs e h => h us he

theorem andExpression_reads (ts : List Token) :
    Reads (Refused D) (Derives (D := D) .plain .and) ts (andExpression eos par ts) := by
  refine chain_reads refused_inherited (fun f h hf => absurd hf (heos.thrown f h))
    (comparisonExpression_reads heos hpar) (fun t ht => by simp [andOperator, heos.type t ht])
    (fun us a t f vs e ha hop he => ?_) (fun us e he => .ofComparison he) ts
  unfold andOperator at hop
  split at hop
  · cases hop
    exact .and ha ‹_› he
  · cases hop

end Reads

/-- What is read derives what is returned. The induction is over the nesting. -/
theorem orExpression_reads {eos : Except Thrown Token} (heos : StreamEnd eos) : ∀ n ts,
    Reads (Refused D) (Derives (D := D) .plain .or) ts (orExpression eos n ts)
  | 0, ts => refused_throwParseError _ _ _
  | n + 1, ts => by
    refine chain_reads refused_inherited (fun f h hf => absurd hf (heos.thrown f h))
      (andExpression_reads heos (orExpression_reads heos n)) (fun t ht => by simp [orOperator, heos.type t ht])
      (fun us a t f vs e ha hop he => ?_) (fun us e he => .ofAnd he) ts
    unfold orOperator at hop
    split at hop
    · cases hop
      exact .or ha ‹_› he
    · cases hop

/-! ## Completeness -/

def headType : List Token → TokenType
  | [] => .eos
  | t :: _ => t.type

/-- The types of token that would go on with a comparison. -/
def comparisonTypes : List TokenType :=
  [.mult, .div, .plus, .minus, .is, .not, .between, .like, .in, .escape, .equal, .neq, .less, .grt, .lseq, .greq]

/-- The types of token at which a nonterminal ends. -/
def stops (l : Level) (type : TokenType) : Bool :=
  match l with
  | .unary => true
  | .multiply => type ∉ [TokenType.mult, .div]
  | .add => type ∉ [TokenType.mult, .div, .plus, .minus]
  | .list => type ∉ [TokenType.mult, .div, .plus, .minus, .comma]
  | .comparison => type ∉ comparisonTypes
  | .and => type ∉ .and :: comparisonTypes
  | .or => type ∉ .or :: .and :: comparisonTypes

theorem next_head (ts : List Token) : ∃ t rest, next (streamEnd true) ts = .ok (t, rest) ∧
    t.type = headType ts := by
  cases ts with
  | nil => exact ⟨endOfStream, [], rfl, rfl⟩
  | cons t ts => exact ⟨t, ts, rfl, rfl⟩

/-- A loop ends at a token that is none of its operators. -/
theorem chainLoop_done {A E : Type} {op : Token → Option (A → E → A)} {p : Parser Token Thrown E} {a : A}
    {ts : List Token} {n : Nat} (hop : ∀ t, t.type = headType ts → op t = none) :
    chainLoop (streamEnd true) op p (n + 1) a ts = .ok (a, ts) := by
  obtain ⟨t, rest, ht, htype⟩ := next_head ts
  exact chainLoop_stop ht (hop t htype)

/-- Tokens are read as what they derive: by a loop as far as an operator that
may follow, and otherwise altogether. -/
def Complete (par : Parser Token Thrown (Expression D)) : (l : Level) → List Token → l.Syntax D → Prop
  | .unary, us, e => ∀ rest, unaryArithExpression (streamEnd true) par (us ++ rest) = .ok (e, rest)
  | .multiply, us, e => ∀ rest, multiplyExpression (streamEnd true) par (us ++ rest) =
      chainLoop (streamEnd true) multiplyOperator (unaryArithExpression (streamEnd true) par) (rest.length + 1) e rest
  | .add, us, e => ∀ rest, stops .multiply (headType rest) → addExpression (streamEnd true) par (us ++ rest) =
      chainLoop (streamEnd true) addOperator (multiplyExpression (streamEnd true) par) (rest.length + 1) e rest
  | .list, us, es => ∀ rest, stops .add (headType rest) →
      chain (streamEnd true) listOperator (addExpression (streamEnd true) par) (fun e => [e]) (us ++ rest) =
        chainLoop (streamEnd true) listOperator (addExpression (streamEnd true) par) (rest.length + 1) es rest
  | .comparison, us, e => ∀ rest, stops .comparison (headType rest) →
      comparisonExpression (streamEnd true) par (us ++ rest) = .ok (e, rest)
  | .and, us, e => ∀ rest, stops .comparison (headType rest) → andExpression (streamEnd true) par (us ++ rest) =
      chainLoop (streamEnd true) andOperator (comparisonExpression (streamEnd true) par) (rest.length + 1) e rest
  | .or, us, e => ∀ rest, stops .and (headType rest) →
      chain (streamEnd true) orOperator (andExpression (streamEnd true) par) id (us ++ rest) =
        chainLoop (streamEnd true) orOperator (andExpression (streamEnd true) par) (rest.length + 1) e rest

namespace Complete

variable {par : Parser Token Thrown (Expression D)} {us : List Token} {e : Expression D} {r : List Token}

theorem multiply_done (h : Complete par .multiply us e) (hrest : stops .multiply (headType r)) :
    multiplyExpression (streamEnd true) par (us ++ r) = .ok (e, r) := by
  rw [h r]
  exact chainLoop_done fun t ht => by simp_all [stops, multiplyOperator]

theorem add_done (h : Complete par .add us e) (hrest : stops .add (headType r)) :
    addExpression (streamEnd true) par (us ++ r) = .ok (e, r) := by
  rw [h r (by simp_all [stops])]
  exact chainLoop_done fun t ht => by simp_all [stops, addOperator]

theorem list_done {es : List (Expression D)} (h : Complete par .list us es) (hrest : stops .list (headType r)) :
    chain (streamEnd true) listOperator (addExpression (streamEnd true) par) (fun e => [e]) (us ++ r) =
      .ok (es, r) := by
  rw [h r (by simp_all [stops])]
  exact chainLoop_done fun t ht => by simp_all [stops, listOperator]

theorem and_done (h : Complete par .and us e) (hrest : stops .and (headType r)) :
    andExpression (streamEnd true) par (us ++ r) = .ok (e, r) := by
  rw [h r (by simp_all [stops])]
  exact chainLoop_done fun t ht => by simp_all [stops, andOperator]

theorem or_done (h : Complete par .or us e) (hrest : stops .or (headType r)) :
    chain (streamEnd true) orOperator (andExpression (streamEnd true) par) id (us ++ r) = .ok (e, r) := by
  rw [h r (by simp_all [stops])]
  exact chainLoop_done fun t ht => by simp_all [stops, orOperator]

end Complete

/-- An operand does not begin with `NOT`. -/
theorem derives_head {g : Grammar} {l : Level} {x : l.Syntax D} (h : Derives g l us x)
    (hl : l = .add ∨ l = .multiply ∨ l = .unary) : ∃ t ts, us = t :: ts ∧ t.type ≠ .not := by
  induction h with
  | add ha ht hb iha ihb =>
    obtain ⟨u, ts, rfl, hu⟩ := iha (by simp)
    exact ⟨u, _, rfl, hu⟩
  | ofMultiply ha iha => exact iha (by simp)
  | multiply ha ht hb iha ihb =>
    obtain ⟨u, ts, rfl, hu⟩ := iha (by simp)
    exact ⟨u, _, rfl, hu⟩
  | ofUnary ha iha => exact iha (by simp)
  | plus hfull ht ha iha => exact ⟨_, _, rfl, by simp [ht]⟩
  | minus ht ha iha => exact ⟨_, _, rfl, by simp [ht]⟩
  | parens ht ha hu iha => exact ⟨_, _, rfl, by simp [ht]⟩
  | identifier ht => exact ⟨_, _, rfl, by simp [ht]⟩
  | string ht => exact ⟨_, _, rfl, by simp [ht]⟩
  | bool ht => exact ⟨_, _, rfl, by obtain ⟨ht, -⟩ | ⟨ht, -⟩ := ht <;> simp [ht]⟩
  | exact ht _ => exact ⟨_, _, rfl, by simp [ht]⟩
  | approx ht _ => exact ⟨_, _, rfl, by simp [ht]⟩
  | unsized _ ht => exact ⟨_, _, rfl, by rcases ht with ht | ht <;> simp [ht]⟩
  | _ => simp at hl

section Complete

variable {par : Parser Token Thrown (Expression D)}

theorem comparisonExpression_eq {us r : List Token} {a : Expression D} (h : Derives .plain .add us a)
    (ha : Complete par .add us a) (hrest : stops .add (headType r)) :
    comparisonExpression (streamEnd true) par (us ++ r) = comparisonRest (streamEnd true) par a r := by
  have hadd := ha.add_done hrest
  obtain ⟨t, ts, rfl, ht⟩ := derives_head h (.inl rfl)
  simp only [cons_append] at hadd ⊢
  simp [comparisonExpression, ht, hadd]

variable {rest vs : List Token} {t : Token}

theorem comparisonRest_special {ns xs : List Token} {a e : Expression D}
    {neg : Expression D → Expression D} (hn : Negation ns neg)
    (ht : t.type = .between ∨ t.type = .like ∨ t.type = .in)
    (hx : specialComparisons (streamEnd true) par a (t :: xs) = .ok (e, rest)) :
    comparisonRest (streamEnd true) par a (ns ++ t :: xs) = .ok (neg e, rest) := by
  cases hn with
  | none =>
    obtain ht | ht | ht := ht <;>
      simpa only [comparisonRest, nil_append, next_cons, ht, Bind.bind, Except.bind, id] using hx
  | not hu =>
    simp [comparisonRest, hu, hx]

theorem specialComparisons_like {s : Token} {es : List Token} {esc : List Char} (a : Expression D)
    (ht : t.type = .like) (hs : s.type = .string) (he : Escape .plain es esc) (hrest : headType rest ≠ .escape) :
    specialComparisons (streamEnd true) par a (t :: s :: (es ++ rest)) = .ok (.like a (toRegex s.val esc), rest) := by
  cases he with
  | none =>
    obtain ⟨u, rest', hu, htype⟩ := next_head rest
    rw [← htype] at hrest
    simp [specialComparisons, ht, hs, hu, hrest, Bind.bind, Except.bind]
  | escape hu he hlen =>
    have hlen := hlen.resolve_left nofun
    simp [specialComparisons, ht, hs, hu, he, Nat.not_lt.2 hlen, Bind.bind, Except.bind]

theorem specialComparisons_between {u : Token} {ls : List Token} {l b : Expression D}
    (a : Expression D) (ht : t.type = .between) (hl : Complete par .add ls l) (hu : u.type = .and)
    (hb : Complete par .add vs b) (hrest : stops .add (headType rest)) :
    specialComparisons (streamEnd true) par a (t :: (ls ++ u :: (vs ++ rest))) = .ok (.between a l b, rest) := by
  have hl := hl.add_done (r := u :: (vs ++ rest)) (by simp [stops, headType, hu])
  simp [specialComparisons, ht, hl, hu, hb.add_done hrest, Bind.bind, Except.bind]

theorem specialComparisons_in {u v : Token} {l : List (Expression D)}
    (a : Expression D) (ht : t.type = .in) (hu : u.type = .lparen) (hl : Complete par .list vs l)
    (hv : v.type = .rparen) :
    specialComparisons (streamEnd true) par a (t :: u :: (vs ++ v :: rest)) = .ok (.isIn a l, rest) := by
  have hl := hl.list_done (r := v :: rest) (by simp [stops, headType, hv])
  simp [specialComparisons, ht, hl, hu, hv, Bind.bind, Except.bind]

theorem comparisonRest_none (a : Expression D) (hrest : stops .comparison (headType rest)) :
    comparisonRest (streamEnd true) par a rest = .ok (a, rest) := by
  obtain ⟨t, rest', ht, htype⟩ := next_head rest
  rw [← htype] at hrest
  simp only [comparisonRest, ht, Bind.bind, Except.bind]
  revert hrest
  cases htype : t.type <;> simp [stops, comparisonTypes, comparisonOperator]

theorem comparisonRest_compare {op : ComparisonOperator} {b : Expression D}
    (a : Expression D) (ht : comparisonOperator t.type = some op) (hb : Complete par .add vs b)
    (hrest : stops .add (headType rest)) :
    comparisonRest (streamEnd true) par a (t :: (vs ++ rest)) = .ok (.comparison op a b, rest) := by
  simp only [comparisonRest, next_cons, Bind.bind, Except.bind]
  revert ht
  cases htype : t.type <;> simp [comparisonOperator, hb.add_done hrest]

end Complete

theorem primaryExpression_complete {t : Token} {rest : List Token} {par : Parser Token Thrown (Expression D)}
    {e : Expression D} (ht : t.type ≠ .lparen ∧ t.type ≠ .minus)
    (he : primaryExpression (streamEnd true) (t :: rest) = .ok (e, rest)) :
    unaryArithExpression (streamEnd true) par (t :: rest) = .ok (e, rest) := by
  rw [unaryArithExpression]
  split
  · exact absurd ‹_› ht.1
  · exact absurd ‹_› ht.2
  · exact he

/-! ### One step of a derivation -/

section Step

variable {par : Parser Token Thrown (Expression D)} {us vs : List Token} {a b : Expression D} {t : Token}
  (hpar : ∀ ts, Reads (Refused D) (Derives (D := D) .plain .or) ts (par ts))

include hpar in
theorem Complete.or (ha : Complete par .or us a) (ht : t.type = .or) (hb : Complete par .and vs b) :
    Complete par .or (us ++ t :: vs) (.or a b) := by
  intro rest hrest
  refine chain_step (andExpression_reads (streamEnd_end true) hpar) (fun t h => ?_) (by simp [orOperator, ht])
    (ha _ (by simp [stops, headType, ht, comparisonTypes])) (hb.and_done hrest)
  cases h
  rfl

include hpar in
theorem Complete.and (ha : Complete par .and us a) (ht : t.type = .and) (hb : Complete par .comparison vs b) :
    Complete par .and (us ++ t :: vs) (.and a b) := by
  intro rest hrest
  refine chain_step (comparisonExpression_reads (streamEnd_end true) hpar) (fun t h => ?_)
    (by simp [andOperator, ht]) (ha _ (by simp [stops, headType, ht, comparisonTypes])) (hb rest hrest)
  cases h
  rfl

include hpar in
theorem Complete.add {op : Value.ArithmeticOperator} (ha : Complete par .add us a)
    (ht : t.type = .plus ∧ op = .add ∨ t.type = .minus ∧ op = .sub) (hb : Complete par .multiply vs b) :
    Complete par .add (us ++ t :: vs) (.arithmetic op a b) := by
  intro rest hrest
  refine chain_step (multiplyExpression_reads (streamEnd_end true) hpar) (fun t h => ?_) ?_ (ha _ ?_)
    (hb.multiply_done hrest)
  · cases h
    rfl
  · obtain ⟨ht, rfl⟩ | ⟨ht, rfl⟩ := ht <;> simp [addOperator, ht]
  · obtain ⟨ht, rfl⟩ | ⟨ht, rfl⟩ := ht <;> simp [stops, headType, ht]

include hpar in
theorem Complete.multiply {op : Value.ArithmeticOperator} (ha : Complete par .multiply us a)
    (ht : t.type = .mult ∧ op = .mult ∨ t.type = .div ∧ op = .div) (hb : Complete par .unary vs b) :
    Complete par .multiply (us ++ t :: vs) (.arithmetic op a b) := by
  intro rest
  refine chain_step (unaryArithExpression_reads (streamEnd_end true) hpar) (fun t h => ?_) ?_ (ha _) (hb rest)
  · cases h
    rfl
  · obtain ⟨ht, rfl⟩ | ⟨ht, rfl⟩ := ht <;> simp [multiplyOperator, ht]

include hpar in
theorem Complete.more {as : List (Expression D)} (ha : Complete par .list us as) (ht : t.type = .comma)
    (hb : Complete par .add vs b) : Complete par .list (us ++ t :: vs) (as ++ [b]) := by
  intro rest hrest
  have hop : listOperator t = some fun (l : List (Expression D)) e => l ++ [e] := by simp [listOperator, ht]
  refine chain_step (addExpression_reads (streamEnd_end true) hpar) (fun t h => ?_) hop
    (ha _ (by simp [stops, headType, ht])) (hb.add_done hrest)
  cases h
  rfl

/-- What stands in a comparison behind the first operand. -/
theorem Complete.comparison {xs : List Token} {e : Expression D} (h : Derives .plain .add us a)
    (ha : Complete par .add us a)
    (hstop : ∀ rest, stops .comparison (headType rest) → stops .add (headType (xs ++ rest)))
    (hxs : ∀ rest, stops .comparison (headType rest) →
      comparisonRest (streamEnd true) par a (xs ++ rest) = .ok (e, rest)) : Complete par .comparison (us ++ xs) e := by
  intro rest hrest
  rw [append_assoc, comparisonExpression_eq h ha (hstop rest hrest)]
  exact hxs rest hrest

theorem Complete.not (ht : t.type = .not) (ha : Complete par .comparison us a) :
    Complete par .comparison (t :: us) (.unaryBoolean .not a) := by
  intro rest hrest
  have ha := ha rest hrest
  simp [comparisonExpression, ht, ha]

theorem Complete.compare {op : ComparisonOperator} (h : Derives .plain .add us a) (ha : Complete par .add us a)
    (ht : comparisonOperator t.type = some op) (hb : Complete par .add vs b) :
    Complete par .comparison (us ++ t :: vs) (.comparison op a b) := by
  refine .comparison h ha (fun rest _ => ?_) fun rest hrest => ?_
  · change stops .add t.type
    revert ht
    cases t.type <;> simp [comparisonOperator, stops]
  · exact comparisonRest_compare a ht hb (by simp_all [stops, comparisonTypes])

theorem Complete.ofAdd (h : Derives .plain .add us a) (ha : Complete par .add us a) :
    Complete par .comparison us a := by
  rw [← append_nil us]
  exact .comparison h ha (fun rest hrest => by simp_all [stops, comparisonTypes]) fun rest => comparisonRest_none a

section Special

variable {ns es ls : List Token} {s u v : Token} {neg : Expression D → Expression D}
  (h : Derives .plain .add us a) (ha : Complete par .add us a) (hneg : Negation ns neg)

include h ha hneg

/-- A special comparison, or its negation. -/
theorem Complete.special {xs : List Token} {e : Expression D}
    (ht : t.type = .between ∨ t.type = .like ∨ t.type = .in)
    (hxs : ∀ rest, stops .comparison (headType rest) →
      specialComparisons (streamEnd true) par a (t :: (xs ++ rest)) = .ok (e, rest)) :
    Complete par .comparison (us ++ (ns ++ t :: xs)) (neg e) := by
  refine .comparison h ha (fun rest _ => ?_) fun rest hrest => ?_
  · cases hneg with
    | none => rcases ht with ht | ht | ht <;> simp [stops, headType, ht]
    | not hu => simp [stops, headType, hu]
  · rw [append_assoc, cons_append]
    exact comparisonRest_special hneg ht (hxs rest hrest)

theorem Complete.like {esc : List Char} (ht : t.type = .like) (hs : s.type = .string) (he : Escape .plain es esc) :
    Complete par .comparison (us ++ (ns ++ t :: s :: es)) (neg (.like a (toRegex s.val esc))) := by
  refine .special h ha hneg (.inr (.inl ht)) fun rest hrest => specialComparisons_like a ht hs he fun hesc => ?_
  simp [hesc, stops, comparisonTypes] at hrest

theorem Complete.between {l : Expression D} (ht : t.type = .between) (hl : Complete par .add ls l) (hu : u.type = .and)
    (hb : Complete par .add vs b) :
    Complete par .comparison (us ++ (ns ++ t :: (ls ++ u :: vs))) (neg (.between a l b)) := by
  refine .special h ha hneg (.inl ht) fun rest hrest => ?_
  rw [append_assoc, cons_append]
  exact specialComparisons_between a ht hl hu hb (by simp_all [stops, comparisonTypes])

theorem Complete.isIn {l : List (Expression D)} (ht : t.type = .in) (hu : u.type = .lparen)
    (hl : Complete par .list vs l) (hv : v.type = .rparen) :
    Complete par .comparison (us ++ (ns ++ t :: u :: (vs ++ [v]))) (neg (.isIn a l)) := by
  refine .special h ha hneg (.inr (.inr ht)) fun rest _ => ?_
  rw [cons_append, append_assoc]
  exact specialComparisons_in a ht hu hl hv

end Special

end Step

/-- The induction is over the derivation; `n` bounds how deep parentheses are nested. -/
theorem derives_complete {l : Level} {x : l.Syntax D} (h : Derives .plain l us x) :
    ∀ n, us.length ≤ n → Complete (orExpression (streamEnd true) n) l us x := by
  have hpar (n) := orExpression_reads (D := D) (streamEnd_end true) n
  induction h with
  | or ha ht hb iha ihb =>
    intro n hn
    simp only [length_append, length_cons] at hn
    exact .or (hpar n) (iha n (by omega)) ht (ihb n (by omega))
  | ofAnd ha iha => exact fun n hn rest hrest => chain_unit ((iha n hn).and_done hrest)
  | and ha ht hb iha ihb =>
    intro n hn
    simp only [length_append, length_cons] at hn
    exact .and (hpar n) (iha n (by omega)) ht (ihb n (by omega))
  | ofComparison ha iha => exact fun n hn rest hrest => chain_unit (iha n hn rest hrest)
  | not ht ha iha => exact fun n hn => .not ht (iha n (Nat.le_of_succ_le hn))
  | isNull ha ht hu iha =>
    intro n hn
    simp only [length_append] at hn
    refine .comparison ha (iha n (by omega)) (fun rest _ => by simp [stops, headType, ht]) fun rest _ => ?_
    simp [comparisonRest, ht, hu]
  | isNotNull ha ht hu hv iha =>
    intro n hn
    simp only [length_append] at hn
    refine .comparison ha (iha n (by omega)) (fun rest _ => by simp [stops, headType, ht]) fun rest _ => ?_
    simp [comparisonRest, ht, hu, hv]
  | like ha hneg ht hs he iha =>
    intro n hn
    simp only [length_append] at hn
    exact .like ha (iha n (by omega)) hneg ht hs he
  | between ha hneg ht hl hu hb iha ihl ihb =>
    intro n hn
    simp only [length_append, length_cons] at hn
    exact .between ha (iha n (by omega)) hneg ht (ihl n (by omega)) hu (ihb n (by omega))
  | isIn ha hneg ht hu hl hv iha ihl =>
    intro n hn
    simp only [length_append, length_cons] at hn
    exact .isIn ha (iha n (by omega)) hneg ht hu (ihl n (by omega)) hv
  | compare ha ht hb iha ihb =>
    intro n hn
    simp only [length_append, length_cons] at hn
    exact .compare ha (iha n (by omega)) ht (ihb n (by omega))
  | ofAdd ha iha => exact fun n hn => .ofAdd ha (iha n hn)
  | add ha ht hb iha ihb =>
    intro n hn
    simp only [length_append, length_cons] at hn
    exact .add (hpar n) (iha n (by omega)) ht (ihb n (by omega))
  | ofMultiply ha iha => exact fun n hn rest hrest => chain_unit ((iha n hn).multiply_done hrest)
  | multiply ha ht hb iha ihb =>
    intro n hn
    simp only [length_append, length_cons] at hn
    exact .multiply (hpar n) (iha n (by omega)) ht (ihb n (by omega))
  | ofUnary ha iha => exact fun n hn rest => chain_unit (iha n hn rest)
  | plus hfull ht ha iha => cases hfull
  | minus ht ha iha =>
    intro n hn rest
    simp only [length_cons] at hn
    simp [unaryArithExpression, ht, iha n (by omega) rest]
  | @parens us t u a ht ha hu iha =>
    intro n hn rest
    simp only [length_cons, length_append] at hn
    obtain ⟨m, rfl⟩ : ∃ m, n = m + 1 := ⟨n - 1, by omega⟩
    have ha := (iha m (by omega)).or_done (r := u :: rest) (by simp [stops, headType, hu, comparisonTypes])
    simp [unaryArithExpression, ht, orExpression, ha, hu]
  | identifier ht | string ht =>
    exact fun n hn rest => primaryExpression_complete (by simp [ht]) (by simp [primaryExpression, ht])
  | bool ht =>
    intro n hn rest
    obtain ⟨ht, rfl⟩ | ⟨ht, rfl⟩ := ht <;>
      exact primaryExpression_complete (by simp [ht]) (by simp [primaryExpression, ht])
  | exact ht hv | approx ht hv =>
    exact fun n hn rest => primaryExpression_complete (by simp [ht]) (by simp [primaryExpression, ht, hv])
  | unsized hfull _ => cases hfull
  | one ha iha => exact fun n hn rest hrest => chain_unit ((iha n hn).add_done hrest)
  | more ha ht hb iha ihb =>
    intro n hn
    simp only [length_append, length_cons] at hn
    exact .more (hpar n) (iha n (by omega)) ht (ihb n (by omega))

/-- Fuel for every token is enough. -/
theorem orExpression_complete {e : Expression D} (h : Derives .plain .or us e) :
    orExpression (streamEnd true) (us.length + 1) us = .ok (e, []) := by
  have he := (derives_complete h us.length le_rfl).or_done (r := []) rfl
  rwa [append_nil] at he

end QB.Impl.Selector
