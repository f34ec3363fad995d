import QpidBroker.Spec.AclKeyword
import QpidBroker.Proof.AclData

/-!
# Keywords in the routing keys of rules

The code matches a pattern with keywords against a key in which the names of the user have
been replaced by the keywords. On pieces this is a replacement of characters by a symbol
(`substituteKeywords_eq`), which the names that can be told apart undo (`expand_substituteKeywords`)
and which finds the keywords of a pattern again if and only if the names begin nowhere else
in it (`substituteKeywords_expand`).
-/

namespace QB.Impl.Acl

open Spec.Acl Spec.Topic List

/-! ## The texts of the keywords -/

namespace Keyword

theorem text_cons (k : Keyword) : ∃ t, k.text = '$' :: t ∧ '$' ∉ t := by
  cases k
  · exact ⟨_, rfl, by decide⟩
  · exact ⟨_, rfl, by decide⟩
  · exact ⟨_, rfl, by decide⟩

theorem text_ne_nil (k : Keyword) : k.text ≠ [] := by
  obtain ⟨t, ht, -⟩ := text_cons k
  simp [ht]

theorem dot_notMem_text (k : Keyword) : '.' ∉ k.text := by
  cases k <;> decide

theorem getLast_text (k : Keyword) : k.text.getLast? = some '\x7d' := by
  cases k <;> rfl

/-- No keyword begins with another. -/
theorem eq_of_text_prefix {k k' : Keyword} (h : k.text <+: k'.text) : k = k' := by
  cases k <;> cases k' <;> first | rfl | exact absurd h (by decide)

end Keyword

variable {t : Text} {k : Keyword} {ps : List Piece}

/-- There is one keyword at most at a place. -/
theorem keywordAt_eq_some : keywordAt t = some k ↔ k.text <+: t := by
  have huniq {k' : Keyword} (h : k.text <+: t) (h' : k'.text <+: t) : k' = k := by
    rcases prefix_or_prefix_of_prefix h h' with hp | hp
    · exact (Keyword.eq_of_text_prefix hp).symm
    · exact Keyword.eq_of_text_prefix hp
  unfold keywordAt
  constructor
  · intro h
    simpa using find?_some h
  intro h
  cases hf : Keyword.all.find? (·.text <+: t) with
  | none =>
    have := find?_eq_none.1 hf k (by cases k <;> decide)
    simp [h] at this
  | some k' =>
    have hk' : k'.text <+: t := by simpa using find?_some hf
    rw [huniq h hk']

theorem keywordAt_eq_none : keywordAt t = none ↔ ∀ k : Keyword, ¬k.text <+: t := by
  rw [Option.eq_none_iff_forall_not_mem]
  exact forall_congr' fun k => not_congr keywordAt_eq_some

/-- A text has a keyword if it stands anywhere in it. -/
theorem hasKeyword_iff : hasKeyword t = true ↔ ∃ k : Keyword, k.text <:+: t := by
  unfold hasKeyword
  simp only [Bool.or_eq_true, decide_eq_true_eq]
  constructor
  · rintro ((h | h) | h)
    · exact ⟨.user, h⟩
    · exact ⟨.domain, h⟩
    · exact ⟨.userdomain, h⟩
  rintro ⟨k, h⟩
  cases k
  · exact .inl (.inl h)
  · exact .inl (.inr h)
  · exact .inr h

/-! ## Pieces -/

theorem piecesFrom_skip (skip : Nat) (t : Text) : piecesFrom skip t = pieces (t.drop skip) := by
  induction t generalizing skip with
  | nil => simp [pieces, piecesFrom]
  | cons c t ih =>
    cases skip with
    | zero => rfl
    | succ skip => rw [piecesFrom, ih, drop_succ_cons]

theorem pieces_keyword (k : Keyword) (t : Text) : pieces (k.text ++ t) = .keyword k :: pieces t := by
  obtain ⟨k', hk'⟩ := Keyword.text_cons k
  have hat : keywordAt (k.text ++ t) = some k := keywordAt_eq_some.2 (prefix_append ..)
  rw [hk'.1, cons_append] at hat ⊢
  rw [pieces, piecesFrom, hat]
  simp only [piecesFrom_skip, hk'.1]
  simp

theorem pieces_char {c : Char} (h : keywordAt (c :: t) = none) : pieces (c :: t) = .char c :: pieces t := by
  rw [pieces, piecesFrom, h]
  rfl

/-- A text is read keyword by keyword, and otherwise character by character. -/
theorem pieces_induction {motive : Text → Prop} (nil : motive [])
    (keyword : ∀ (k : Keyword) t, motive t → motive (k.text ++ t))
    (char : ∀ c t, keywordAt (c :: t) = none → motive t → motive (c :: t)) (t : Text) : motive t := by
  induction hn : t.length using Nat.strong_induction_on generalizing t with
  | _ n ih =>
    cases t with
    | nil => exact nil
    | cons c t =>
      cases hat : keywordAt (c :: t) with
      | none => exact char c t hat (ih _ (by simp at hn; omega) t rfl)
      | some k =>
        obtain ⟨t', ht'⟩ := keywordAt_eq_some.1 hat
        have hlen := congrArg List.length ht'
        have := length_pos_of_ne_nil (Keyword.text_ne_nil k)
        rw [length_append] at hlen
        rw [← ht']
        exact keyword k t' (ih _ (by omega) t' rfl)

/-- The text of the pieces. -/
def flatten (ps : List Piece) : Text := ps.flatMap (render Keyword.text)

@[simp] theorem flatten_nil : flatten [] = [] := rfl

@[simp] theorem flatten_char (c : Char) (ps : List Piece) : flatten (.char c :: ps) = c :: flatten ps := rfl

@[simp] theorem flatten_keyword (k : Keyword) (ps : List Piece) :
    flatten (.keyword k :: ps) = k.text ++ flatten ps := rfl

theorem flatten_append (ps qs : List Piece) : flatten (ps ++ qs) = flatten ps ++ flatten qs := by
  simp [flatten]

theorem flatMap_render_map_char (f : Keyword → Text) (t : Text) : (t.map .char).flatMap (render f) = t := by
  induction t with
  | nil => rfl
  | cons c t ih =>
    rw [map_cons, flatMap_cons, ih]
    rfl

theorem flatten_map_char (t : Text) : flatten (t.map .char) = t := flatMap_render_map_char _ t

theorem flatten_pieces (t : Text) : flatten (pieces t) = t := by
  induction t using pieces_induction with
  | nil => rfl
  | keyword k t ih => rw [pieces_keyword, flatten_keyword, ih]
  | char c t hat ih => rw [pieces_char hat, flatten_char, ih]

/-- A text without `$` begins the text of pieces only by their characters. -/
theorem prefix_flatten {q : Text} (hq : '$' ∉ q) : q <+: flatten ps ↔ q.map .char <+: ps := by
  induction q generalizing ps with
  | nil => simp
  | cons c q ih =>
    obtain ⟨hc, hq⟩ := not_or.1 (mt mem_cons.2 hq)
    rcases ps with _ | ⟨d | k, ps⟩
    · simp
    · rw [flatten_char, map_cons, cons_prefix_cons, cons_prefix_cons, ih hq, Piece.char.injEq]
    · obtain ⟨t, ht, -⟩ := Keyword.text_cons k
      simp [ht, Ne.symm hc]

/-- No keyword is spelled in characters. -/
def Read (ps : List Piece) : Prop := ∀ k : Keyword, ¬k.text.map .char <:+: ps

/-- Pieces that were read are read again from their text. -/
theorem pieces_flatten (h : Read ps) : pieces (flatten ps) = ps := by
  induction ps with
  | nil => rfl
  | cons p ps ih =>
    have ih := ih fun k hk => h k (hk.trans (suffix_cons p ps).isInfix)
    cases p with
    | keyword k => rw [flatten_keyword, pieces_keyword, ih]
    | char c =>
      rw [flatten_char, pieces_char ?_, ih]
      rw [keywordAt_eq_none]
      intro k hk
      obtain ⟨t, ht, hnot⟩ := Keyword.text_cons k
      rw [ht, cons_prefix_cons, prefix_flatten hnot] at hk
      refine h k (IsPrefix.isInfix ?_)
      rw [ht, map_cons, cons_prefix_cons]
      exact ⟨by rw [hk.1], hk.2⟩

theorem infix_of_map_char {q : Text} (h : q.map Piece.char <:+: t.map Piece.char) : q <:+: t := by
  obtain ⟨a, b, hab⟩ := h
  refine ⟨flatten a, flatten b, ?_⟩
  rw [← flatten_map_char t, ← hab, flatten_append, flatten_append, flatten_map_char]

theorem read_pieces (t : Text) : Read (pieces t) := by
  intro k
  obtain ⟨q, hq, hnot⟩ := Keyword.text_cons k
  induction t using pieces_induction with
  | nil => simp [pieces, piecesFrom, hq]
  | keyword k' t ih =>
    rw [pieces_keyword, infix_cons_iff]
    rintro (h | h)
    · simp [hq] at h
    · exact ih h
  | char c t hat ih =>
    rw [pieces_char hat, infix_cons_iff]
    rintro (h | h)
    · refine keywordAt_eq_none.1 hat k ?_
      rw [hq, map_cons, cons_prefix_cons, ← prefix_flatten hnot, flatten_pieces] at h
      rw [hq, cons_prefix_cons]
      exact ⟨Piece.char.inj h.1, h.2⟩
    · exact ih h

/-! ## Names in a key -/

/-- What `plain` says of the names of a user. -/
structure Plain (id : Text) : Prop where
  ne_nil (k : Keyword) : k.name id ≠ []
  dollar (k : Keyword) : '$' ∉ k.name id
  brace (k : Keyword) : '\x7d' ∉ k.name id
  star (k : Keyword) : '*' ∉ k.name id
  hash (k : Keyword) : '#' ∉ k.name id
  part (k k' : Keyword) : ¬k.name id <:+: k'.text

/-- What the decidable test of a user id tells. -/
theorem plain_iff {id : Text} (h : plain id = true) : Plain id := by
  have hall (k : Keyword) : k ∈ Keyword.all := by cases k <;> decide
  have hk (k : Keyword) := all_eq_true.1 h k (hall k)
  simp only [Bool.and_eq_true, Bool.not_eq_true', isEmpty_eq_false_iff, all_eq_true, decide_eq_false_iff_not] at hk
  have hchar (k : Keyword) (c : Char) (hc : ['$', '\x7d', '*', '#'].contains c = true) : c ∉ k.name id :=
    fun hmem => Bool.noConfusion (hc.symm.trans ((hk k).1.2 c hmem))
  exact ⟨fun k => (hk k).1.1, fun k => hchar k _ rfl, fun k => hchar k _ rfl, fun k => hchar k _ rfl,
    fun k => hchar k _ rfl, fun k k' => (hk k).2 k' (hall k')⟩

variable {id : Text}

theorem brace_mem_of_suffix {s : Text} (hs : s <:+ k.text) (hne : s ≠ []) : '\x7d' ∈ s := by
  obtain ⟨a, ha⟩ := hs
  have hlast := Keyword.getLast_text k
  rw [← ha, getLast?_append_of_ne_nil a hne] at hlast
  exact mem_of_getLast? hlast

/-- The name of a user does not begin inside a keyword. -/
theorem Plain.not_prefix (h : Plain id) {k' : Keyword} {s : Text} (hs : s <:+ k'.text) (hne : s ≠ []) :
    ¬k.name id <+: s ++ t := by
  intro hp
  rcases prefix_or_prefix_of_prefix hp (prefix_append s t) with hp | hp
  · exact h.part k k' (hp.isInfix.trans hs.isInfix)
  · exact h.brace k (hp.subset (brace_mem_of_suffix hs hne))

/-- Replacing in the text is replacing in the pieces. -/
theorem Plain.replaceAll_flatten (h : Plain id) (k : Keyword) (ps : List Piece) :
    replaceAll (k.name id) k.text (flatten ps) = flatten (replaceAll (spelled id k) [.keyword k] ps) := by
  have hne : spelled id k ≠ [] := by simpa [spelled] using h.ne_nil k
  induction ps using replace_induction hne with
  | nil => simp
  | hit ps ih =>
    rw [replaceAll_append hne, flatten_append, spelled, flatten_map_char,
      replaceAll_append (h.ne_nil k), ih]
    simp [spelled]
  | miss p ps hp ih =>
    rw [replaceAll_cons hp]
    cases p with
    | char c =>
      rw [spelled, ← prefix_flatten (h.dollar k), flatten_char] at hp
      rw [flatten_char, replaceAll_cons hp, ih, flatten_char]
    | keyword k' =>
      rw [flatten_keyword, flatten_keyword, ← ih]
      exact replaceAll_append_of_not_prefix _ _ (fun s hs hs' => h.not_prefix hs hs') _

/-- The pieces with each name that stands for a keyword replaced by it. -/
def find (id : Text) (k : Keyword) (ps : List Piece) : List Piece := replaceAll (spelled id k) [.keyword k] ps

/-- The pieces of a key, with the names of the user found in it. -/
def found (id key : Text) : List Piece :=
  find id .domain (find id .user (find id .userdomain (key.map .char)))

/-- The substitution in a key, over its pieces. -/
theorem Plain.substituteKeywords_eq (h : Plain id) (key : Text) :
    substituteKeywords key id = flatten (found id key) := by
  unfold substituteKeywords substituteString found find
  rw [← h.replaceAll_flatten .domain, ← h.replaceAll_flatten .user, ← h.replaceAll_flatten .userdomain,
    flatten_map_char]
  rfl

theorem infix_of_infix_find {q : Text} (h : q.map .char <:+: find id k ps) : q.map .char <:+: ps :=
  infix_of_infix_replaceAll (by simp) h

theorem read_found {key : Text} (h : hasKeyword key = false) : Read (found id key) := by
  intro k hk
  have hin := infix_of_map_char (infix_of_infix_find (infix_of_infix_find (infix_of_infix_find hk)))
  rw [hasKeyword_iff.2 ⟨k, hin⟩] at h
  cases h

/-- What was found is rendered as what stood there. -/
theorem flatMap_render_find (k : Keyword) (ps : List Piece) :
    (find id k ps).flatMap (render (·.name id)) = ps.flatMap (render (·.name id)) := by
  refine flatMap_replaceAll _ ?_ ps
  rw [spelled, flatMap_render_map_char]
  simp [render]

/-- The names for the keywords found give back the key. -/
theorem Plain.expand_substituteKeywords (h : Plain id) {key : Text} (hk : hasKeyword key = false) :
    expand id (substituteKeywords key id) = key := by
  unfold expand
  rw [h.substituteKeywords_eq, pieces_flatten (read_found hk)]
  unfold found
  rw [flatMap_render_find, flatMap_render_find, flatMap_render_find, flatMap_render_map_char]

/-! ## Names in a pattern -/

theorem Plain.prefix_render (h : Plain id) {s : Text} (hs : s <:+ k.text)
    (hp : s <+: ps.flatMap (render (·.name id))) : s.map .char <+: ps := by
  induction ps generalizing s with
  | nil => simpa using hp
  | cons p ps ih =>
    rcases s with _ | ⟨c, s⟩
    · exact nil_prefix
    cases p with
    | char d =>
      obtain ⟨rfl, hp'⟩ := cons_prefix_cons.1 hp
      exact cons_prefix_cons.2 ⟨rfl, ih ((suffix_cons c s).trans hs) hp'⟩
    | keyword k' =>
      rcases prefix_or_prefix_of_prefix hp (prefix_append _ _) with hp' | hp'
      · exact absurd (hp'.subset (brace_mem_of_suffix hs (cons_ne_nil c s))) (h.brace k')
      · exact absurd (hp'.isInfix.trans hs.isInfix) (h.part k' k)

/-- An expanded pattern has no keyword left. -/
theorem Plain.hasKeyword_expand (h : Plain id) (pattern : Text) : hasKeyword (expand id pattern) = false := by
  rw [Bool.eq_false_iff, ne_eq, hasKeyword_iff]
  rintro ⟨k, hk⟩
  obtain ⟨q, hq, -⟩ := Keyword.text_cons k
  have hread := read_pieces pattern
  unfold expand at hk
  generalize pieces pattern = ps at hk hread
  induction ps with
  | nil => simp [hq] at hk
  | cons p ps ih =>
    have hrest : Read ps := fun k' hk' => hread k' (hk'.trans (suffix_cons p ps).isInfix)
    cases p with
    | char c =>
      rcases infix_cons_iff.1 hk with hk | hk
      · have hp : k.text.map .char <+: Piece.char c :: ps := h.prefix_render suffix_rfl hk
        exact hread k hp.isInfix
      · exact ih hk hrest
    | keyword k' =>
      -- the keyword does not begin in the name
      have hname : ∀ n : Text, '$' ∉ n → k.text <:+: n ++ ps.flatMap (render (·.name id)) →
          k.text <:+: ps.flatMap (render (·.name id)) := by
        intro n hn hin
        induction n with
        | nil => exact hin
        | cons c n ihn =>
          obtain ⟨hc, hn⟩ := not_or.1 (mt mem_cons.2 hn)
          rcases infix_cons_iff.1 hin with hin | hin
          · rw [hq, cons_prefix_cons] at hin
            exact absurd hin.1 hc
          · exact ihn hn hin
      exact ih (hname _ (h.dollar k') hk) hrest

theorem keyword_notMem_find {k' : Keyword} (hne : k ≠ k') (hps : .keyword k ∉ ps) :
    Piece.keyword k ∉ find id k' ps := by
  intro hmem
  rcases mem_replaceAll hmem with h | h
  · exact hne (by simpa using h)
  · exact hps h

theorem keyword_notMem_map_char (k : Keyword) (t : Text) : Piece.keyword k ∉ t.map .char := by simp

/-- Spelling a keyword out undoes finding it. -/
theorem unfoldAt_find (hps : .keyword k ∉ ps) : unfoldAt (.keyword k) (spelled id k) (find id k ps) = ps :=
  unfoldAt_replaceAll (keyword_notMem_map_char k _) ps hps

/-- Spelling out one keyword more. -/
theorem unfoldAt_spell (k : Keyword) (ks ks' : List Keyword) (hk : k ∉ ks')
    (hks : ∀ k', k' ∈ ks ↔ k' = k ∨ k' ∈ ks') (ps : List Piece) :
    unfoldAt (.keyword k) (spelled id k) (ps.flatMap (spell id ks)) = ps.flatMap (spell id ks') := by
  induction ps with
  | nil => rfl
  | cons p ps ih =>
    have happ (a b : List Piece) : unfoldAt (.keyword k) (spelled id k) (a ++ b) =
        unfoldAt (.keyword k) (spelled id k) a ++ unfoldAt (.keyword k) (spelled id k) b := by
      simp [unfoldAt]
    rw [flatMap_cons, happ]
    congr 1
    cases p with
    | char c => simp [spell, unfoldAt]
    | keyword k' =>
      by_cases hk' : k' = k
      · subst hk'
        have : k' ∈ ks := (hks k').2 (.inl rfl)
        simp [spell, this, hk, unfoldAt]
      by_cases hmem : k' ∈ ks'
      · have : k' ∈ ks := (hks k').2 (.inr hmem)
        simp [spell, this, hmem, unfoldAt, hk']
      · have : k' ∉ ks := fun h => ((hks k').1 h).elim hk' hmem
        simp only [spell, this, hmem, contains_iff_mem]
        exact unfoldAt_of_notMem (keyword_notMem_map_char k _) _

theorem map_char_expand (pattern : Text) :
    (expand id pattern).map .char = (pieces pattern).flatMap (spell id []) := by
  unfold expand
  rw [map_flatMap]
  congr 1
  funext p
  cases p <;> rfl

theorem flatMap_spell_all (ps : List Piece) : ps.flatMap (spell id [.userdomain, .user, .domain]) = ps := by
  induction ps with
  | nil => rfl
  | cons p ps ih =>
    have hp : spell id [.userdomain, .user, .domain] p = [p] := by
      rcases p with c | k
      · rfl
      · cases k <;> rfl
    rw [flatMap_cons, ih, hp, singleton_append]

/-- The keywords of a pattern are found again in it with the names if and only if these
begin nowhere else. -/
theorem Plain.substituteKeywords_expand (h : Plain id) (pattern : Text) :
    substituteKeywords (expand id pattern) id = pattern ↔ Apart id pattern := by
  have hne (k : Keyword) : spelled id k ≠ [] := by simpa [spelled] using h.ne_nil k
  -- the pattern with all names, with all but one, and so on
  have h1 : unfoldAt (.keyword .userdomain) (spelled id .userdomain)
      ((pieces pattern).flatMap (spell id [.userdomain])) = (expand id pattern).map .char := by
    rw [map_char_expand]
    exact unfoldAt_spell .userdomain [.userdomain] [] (by simp) (by simp) _
  have h2 : unfoldAt (.keyword .user) (spelled id .user) ((pieces pattern).flatMap (spell id [.userdomain, .user])) =
        (pieces pattern).flatMap (spell id [.userdomain]) :=
    unfoldAt_spell .user [.userdomain, .user] [.userdomain] (by simp) (by simp [or_comm]) _
  have h3 : unfoldAt (.keyword .domain) (spelled id .domain) (pieces pattern) =
      (pieces pattern).flatMap (spell id [.userdomain, .user]) := by
    rw [← unfoldAt_spell .domain [.userdomain, .user, .domain] [.userdomain, .user] (by simp)
      (by intro k; cases k <;> simp) (pieces pattern), flatMap_spell_all]
  rw [h.substituteKeywords_eq]
  constructor
  · intro heq
    have hfound : found id (expand id pattern) = pieces pattern := by
      rw [← pieces_flatten (read_found (h.hasKeyword_expand pattern)), heq]
    -- reading the keywords as names undoes one pass after the other
    have hq1 : .keyword .user ∉ find id .userdomain ((expand id pattern).map .char) :=
      keyword_notMem_find (by simp) (keyword_notMem_map_char _ _)
    have hq2 : .keyword .domain ∉ find id .user (find id .userdomain ((expand id pattern).map .char)) :=
      keyword_notMem_find (by simp) (keyword_notMem_find (by simp) (keyword_notMem_map_char _ _))
    have h₂' : find id .user (find id .userdomain ((expand id pattern).map .char)) =
        (pieces pattern).flatMap (spell id [.userdomain, .user]) := by
      rw [← h3, ← hfound]
      exact (unfoldAt_find hq2).symm
    have h₁' : find id .userdomain ((expand id pattern).map .char) =
        (pieces pattern).flatMap (spell id [.userdomain]) := by
      rw [← h2, ← h₂']
      exact (unfoldAt_find hq1).symm
    refine ⟨(replaceAll_unfoldAt (hne _)).1 ?_, (replaceAll_unfoldAt (hne _)).1 ?_,
      (replaceAll_unfoldAt (hne _)).1 ?_⟩
    · rw [h1]
      exact h₁'
    · rw [h2, ← h₁']
      exact h₂'
    · rw [h3, ← h₂']
      exact hfound
  rintro ⟨hud, hu, hd⟩
  rw [← replaceAll_unfoldAt (hne _)] at hud hu hd
  unfold found find
  rw [← h1, hud, ← h2, hu, ← h3, hd, flatten_pieces]

end QB.Impl.Acl
