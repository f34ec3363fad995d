import QpidBroker.Proof.AclKeyword
import QpidBroker.Proof.AclPublish

/-!
# Routing keys of rules with keywords

The names and the keywords have no dots, so that they are found token by token
(`tokens_substituteKeywords`, `tokens_expand`). `matches_of_apart` has the code's match of
a pattern as that of the pattern with the names of the user, and `apart_of_matches` that
this is so for every key only if the names can be found again in the pattern.
-/

namespace QB.Impl.Acl

open Spec.Acl Spec.Topic List Keyword
open Text (tokens)

variable {id : Text}

/-! ## Tokens -/

/-- A text is a word, or a word, a dot and a text. -/
theorem tokens_induction {motive : Text → Prop} (word : ∀ t, '.' ∉ t → motive t)
    (dot : ∀ t p, '.' ∉ t → motive p → motive (t ++ '.' :: p)) (p : Text) : motive p := by
  induction hn : p.length using Nat.strong_induction_on generalizing p with
  | _ n ih =>
    rcases Text.token_cases p with ⟨-, hp⟩ | ⟨rest, -, hp⟩
    · rw [hp]
      exact word _ (Text.not_mem_token p)
    have hlen := congrArg List.length hp
    simp only [length_append, length_cons] at hlen
    rw [hp]
    exact dot _ _ (Text.not_mem_token p) (ih _ (by omega) rest rfl)

theorem tokens_map {g : Text → Text} (hdot : ∀ t, '.' ∉ t → '.' ∉ g t)
    (hsep : ∀ t p, '.' ∉ t → g (t ++ '.' :: p) = g t ++ '.' :: g p) (p : Text) :
    tokens (g p) = (tokens p).map g := by
  induction p using tokens_induction with
  | word t ht => rw [Text.tokens_of_not_mem ht, Text.tokens_of_not_mem (hdot t ht), map_singleton]
  | dot t p ht ih => rw [hsep t p ht, Text.tokens_append (hdot t ht), Text.tokens_append ht, map_cons, ih]

theorem hasKeyword_iff_tokens {p : Text} : hasKeyword p = true ↔ ∃ t ∈ tokens p, hasKeyword t = true := by
  induction p using tokens_induction with
  | word t ht => simp [Text.tokens_of_not_mem ht]
  | dot t p ht ih =>
    rw [Text.tokens_append ht]
    simp only [mem_cons, exists_eq_or_imp]
    rw [← ih]
    simp only [hasKeyword_iff]
    rw [← exists_or]
    exact exists_congr fun k => infix_append_cons (dot_notMem_text k)

/-! ## Names -/

theorem normalizeUserId_eq (userId : Text) :
    normalizeUserId userId = userId.map fun c => if c = '@' ∨ c = '.' then '_' else c := by
  unfold normalizeUserId substituteString
  rw [replaceAll_singleton, replaceAll_singleton, map_map]
  refine map_congr_left fun c _ => ?_
  by_cases hat : c = '@'
  · simp [hat]
  · simp [hat]

theorem dot_notMem_normalizeUserId (userId : Text) : '.' ∉ normalizeUserId userId := by
  rw [normalizeUserId_eq]
  intro h
  obtain ⟨c, -, hc⟩ := mem_map.1 h
  split at hc
  · cases hc
  · next hn => exact hn (.inr hc)

theorem dot_notMem_name (k : Keyword) : '.' ∉ k.name id := by
  cases k <;> exact dot_notMem_normalizeUserId _

theorem tokens_replaceAll {n r : Text} (hn : '.' ∉ n) (hr : '.' ∉ r) (p : Text) :
    tokens (replaceAll n r p) = (tokens p).map (replaceAll n r) :=
  tokens_map (fun _ ht h => (mem_replaceAll h).elim hr ht) (fun t p _ => replaceAll_append_cons hn r t p) p

/-- The substitution works on each token by itself. -/
theorem tokens_substituteKeywords (key : Text) :
    tokens (substituteKeywords key id) = (tokens key).map (substituteKeywords · id) := by
  have hpass (k : Keyword) (p : Text) : tokens (replaceAll (k.name id) k.text p) =
      (tokens p).map (replaceAll (k.name id) k.text) :=
    tokens_replaceAll (dot_notMem_name k) (dot_notMem_text k) p
  have h1 := hpass .domain
  have h2 := hpass .user
  have h3 := hpass .userdomain
  simp only [name, text] at h1 h2 h3
  unfold substituteKeywords substituteString
  rw [h1, h2, h3, map_map, map_map]
  rfl

theorem pieces_append {x : Char} (hx : ∀ k : Keyword, x ∉ k.text.tail) (a b : Text) :
    pieces (a ++ x :: b) = pieces a ++ pieces (x :: b) := by
  induction a using pieces_induction with
  | nil => rfl
  | keyword k a ih => rw [append_assoc, pieces_keyword, ih, pieces_keyword, cons_append]
  | char c a hat ih =>
    have hat' : keywordAt (c :: (a ++ x :: b)) = none := by
      rw [keywordAt_eq_none] at hat ⊢
      intro k hk
      obtain ⟨q, hq, -⟩ := text_cons k
      have hxq := hx k
      refine hat k ?_
      rw [hq] at hxq
      rw [hq, cons_prefix_cons] at hk ⊢
      exact ⟨hk.1, prefix_of_prefix_append_cons hxq hk.2⟩
    rw [cons_append, pieces_char hat', ih, pieces_char hat, cons_append]

theorem dot_notMem_tail (k : Keyword) : '.' ∉ k.text.tail :=
  fun h => dot_notMem_text k (mem_of_mem_tail h)

theorem pieces_dot (p : Text) : pieces ('.' :: p) = .char '.' :: pieces p := by
  refine pieces_char (keywordAt_eq_none.2 fun k h => ?_)
  obtain ⟨q, hq, -⟩ := text_cons k
  rw [hq, cons_prefix_cons] at h
  exact absurd h.1 (by decide)

/-- A dot keeps what stands on both sides of it apart. -/
theorem expand_append_dot (t p : Text) : expand id (t ++ '.' :: p) = expand id t ++ '.' :: expand id p := by
  unfold expand
  rw [pieces_append dot_notMem_tail, pieces_dot, flatMap_append]
  rfl

theorem char_mem_of_mem_pieces {c : Char} {t : Text} (h : .char c ∈ pieces t) : c ∈ t := by
  rw [← flatten_pieces t, flatten, mem_flatMap]
  exact ⟨_, h, mem_singleton_self c⟩

theorem mem_expand {c : Char} {t : Text} (h : c ∈ expand id t) : c ∈ t ∨ ∃ k : Keyword, c ∈ k.name id := by
  obtain ⟨p, hp, hc⟩ := mem_flatMap.1 h
  cases p with
  | char d =>
    rw [mem_singleton.1 hc]
    exact .inl (char_mem_of_mem_pieces hp)
  | keyword k => exact .inr ⟨k, hc⟩

theorem tokens_expand (pattern : Text) : tokens (expand id pattern) = (tokens pattern).map (expand id) := by
  refine tokens_map (fun t ht h => ?_) (fun t p _ => expand_append_dot t p) pattern
  rcases mem_expand h with h | ⟨k, h⟩
  · exact ht h
  · exact dot_notMem_name k h

/-! ## Wildcards -/

theorem expand_star : expand id .star = .star := rfl

theorem expand_hash : expand id .hash = .hash := rfl

variable {w : Text} {ps ks : List Text}

theorem Plain.eq_of_expand_singleton (h : Plain id) {c : Char} (hc : ∀ k : Keyword, c ∉ k.name id)
    (hw : expand id w = [c]) : w = [c] := by
  have hchar : ∀ p ∈ pieces w, render (·.name id) p = render text p := by
    intro p hp
    cases p with
    | char d => rfl
    | keyword k =>
      obtain ⟨d, hd⟩ := exists_mem_of_ne_nil _ (h.ne_nil k)
      have hmem : d ∈ expand id w := mem_flatMap.2 ⟨_, hp, hd⟩
      rw [hw, mem_singleton] at hmem
      exact absurd (hmem ▸ hd) (hc k)
  have heq : expand id w = flatten (pieces w) := by
    exact flatMap_congr hchar
  rw [← flatten_pieces w, ← heq, hw]

theorem Plain.expand_ne_star (h : Plain id) (hw : w ≠ .star) : expand id w ≠ .star :=
  fun he => hw (h.eq_of_expand_singleton h.star he)

theorem Plain.expand_ne_hash (h : Plain id) (hw : w ≠ .hash) : expand id w ≠ .hash :=
  fun he => hw (h.eq_of_expand_singleton h.hash he)

/-! ## Matches -/

/-- A token of a key is the token of the pattern with the names if it becomes the token of
the pattern, and only then if the names can be found again in this. -/
theorem Plain.eq_substituteKeywords (h : Plain id) {k : Text} (hk : hasKeyword k = false) (hw : Apart id w) :
    w = substituteKeywords k id ↔ expand id w = k := by
  constructor
  · rintro rfl
    exact h.expand_substituteKeywords hk
  · rintro rfl
    exact ((h.substituteKeywords_expand w).2 hw).symm

/-- Apart, a word is matched by what it expands to and by nothing else. -/
theorem matches_of_apart (h : Plain id) (hks : ∀ k ∈ ks, hasKeyword k = false)
    (hps : ∀ w ∈ ps, w ≠ .star → w ≠ .hash → Apart id w) :
    Matches ps (ks.map (substituteKeywords · id)) ↔ Matches (ps.map (expand id)) ks := by
  induction ps generalizing ks with
  | nil => simp [Matches]
  | cons w ps ih =>
    obtain ⟨hw, hrest⟩ := forall_mem_cons.1 hps
    by_cases hhash : w = .hash
    · subst hhash
      rw [map_cons, expand_hash, matches_hash, map_tails]
      simp only [mem_map, exists_exists_and_eq_and]
      refine exists_congr fun rest => and_congr_right fun htail => ?_
      exact ih (fun k hk => hks k (((mem_tails _ _).1 htail).subset hk)) hrest
    cases ks with
    | nil =>
      exact iff_of_false (matches_nil_right hhash ps)
        (matches_nil_right (h.expand_ne_hash hhash) (ps.map (expand id)))
    | cons k ks =>
      obtain ⟨hk, hks⟩ := forall_mem_cons.1 hks
      rw [map_cons, map_cons, matches_cons hhash, matches_cons (h.expand_ne_hash hhash), ih hks hrest]
      refine and_congr_left fun _ => ?_
      by_cases hstar : w = .star
      · simp [hstar, expand_star]
      · have := h.expand_ne_star hstar
        simp only [hstar, this, false_or]
        exact h.eq_substituteKeywords hk (hw hstar hhash)

/-- The tokens of a key that a pattern matches: none for a hash, and a fixed one for a star. -/
def sample (id : Text) (ps : List Text) : List Text :=
  ps.filterMap fun w => if w = .hash then none else if w = .star then some ['x'] else some (expand id w)

/-- The expanded pattern matches its sample. -/
theorem matches_sample (h : Plain id) (ps : List Text) : Matches (ps.map (expand id)) (sample id ps) := by
  induction ps with
  | nil => rfl
  | cons w ps ih =>
    unfold sample at ih ⊢
    rw [map_cons, filterMap_cons]
    by_cases hhash : w = .hash
    · rw [hhash, expand_hash]
      exact ⟨_, (mem_tails _ _).2 suffix_rfl, ih⟩
    rw [if_neg hhash]
    by_cases hstar : w = .star
    · rw [hstar, expand_star]
      exact ⟨.inl rfl, ih⟩
    · rw [if_neg hstar, matches_cons (h.expand_ne_hash hhash)]
      exact ⟨.inr rfl, ih⟩

theorem length_sample_le (h : Matches ps ks) : (sample id ps).length ≤ ks.length := by
  induction ps generalizing ks with
  | nil => simp [sample]
  | cons w ps ih =>
    unfold sample at ih ⊢
    rw [filterMap_cons]
    by_cases hhash : w = .hash
    · rw [hhash] at h
      obtain ⟨rest, hrest, hm⟩ := h
      rw [if_pos hhash]
      exact (ih hm).trans ((mem_tails _ _).1 hrest).length_le
    cases ks with
    | nil => exact absurd h (matches_nil_right hhash ps)
    | cons k ks =>
      rw [matches_cons hhash] at h
      have := ih h.2
      rw [if_neg hhash]
      by_cases hstar : w = .star <;> simp [hstar] <;> omega

/-- A pattern that matches its sample agrees with it word by word. -/
theorem eq_of_matches_sample (h : Matches ps ((sample id ps).map (substituteKeywords · id))) :
    ∀ w ∈ ps, w ≠ .star → w ≠ .hash → substituteKeywords (expand id w) id = w := by
  induction ps with
  | nil => simp
  | cons w ps ih =>
    have hlen (ks : List Text) (hm : Matches ps ks) : (sample id ps).length ≤ ks.length := length_sample_le hm
    unfold sample at h ih hlen
    rw [filterMap_cons] at h
    rw [forall_mem_cons]
    by_cases hhash : w = .hash
    · -- a hash matches no tokens, as none of the sample is left over
      rw [hhash] at h
      obtain ⟨rest, hrest, hm⟩ := h
      have hsuf := (mem_tails _ _).1 hrest
      have := hlen rest hm
      rw [hsuf.eq_of_length (by have := hsuf.length_le; simp at this ⊢; omega)] at hm
      exact ⟨fun _ hn => absurd hhash hn, ih hm⟩
    rw [if_neg hhash] at h
    by_cases hstar : w = .star
    · rw [if_pos hstar, map_cons, matches_cons hhash] at h
      exact ⟨fun hn => absurd hstar hn, ih h.2⟩
    · rw [if_neg hstar, map_cons, matches_cons hhash] at h
      exact ⟨fun _ _ => (h.1.resolve_left hstar).symm, ih h.2⟩

theorem Plain.hasKeyword_sample (h : Plain id) (ps : List Text) : ∀ k ∈ sample id ps, hasKeyword k = false := by
  intro k hk
  obtain ⟨w, -, hw⟩ := mem_filterMap.1 hk
  split at hw
  · cases hw
  split at hw
  · cases hw
    decide
  · cases hw
    exact h.hasKeyword_expand w

theorem dot_notMem_sample {pattern : Text} : ∀ k ∈ sample id (tokens pattern), '.' ∉ k := by
  intro k hk
  obtain ⟨w, hw, hwk⟩ := mem_filterMap.1 hk
  split at hwk
  · cases hwk
  split at hwk
  · cases hwk
    decide
  cases hwk
  intro hdot
  rcases mem_expand hdot with hdot | ⟨k', hdot⟩
  · exact Text.mem_tokens hw hdot
  · exact dot_notMem_name k' hdot

theorem sample_ne_nil {pattern : Text} (hk : hasKeyword pattern = true) : sample id (tokens pattern) ≠ [] := by
  obtain ⟨w, hw, hkey⟩ := hasKeyword_iff_tokens.1 hk
  have hhash : w ≠ .hash := by
    rintro rfl
    exact absurd hkey (by decide)
  have hstar : w ≠ .star := by
    rintro rfl
    exact absurd hkey (by decide)
  have hmem : expand id w ∈ sample id (tokens pattern) :=
    mem_filterMap.2 ⟨w, hw, by rw [if_neg hhash, if_neg hstar]⟩
  exact ne_nil_of_mem hmem

/-- The names can be found again in a pattern that the code matches with every key that it
matches with the names. -/
theorem apart_of_matches (h : Plain id) {pattern : Text} (hk : hasKeyword pattern = true)
    (hm : ∀ key, hasKeyword key = false → Matches (tokens (expand id pattern)) (tokens key) →
      Matches (tokens pattern) (tokens (substituteKeywords key id))) :
    ∀ w ∈ tokens pattern, w ≠ .star → w ≠ .hash → Apart id w := by
  set key := ['.'].intercalate (sample id (tokens pattern)) with hkey
  have htok : tokens key = sample id (tokens pattern) :=
    splitOn_intercalate '.' dot_notMem_sample (sample_ne_nil hk)
  have hnone : hasKeyword key = false := by
    rw [Bool.eq_false_iff, ne_eq, hasKeyword_iff_tokens, htok]
    rintro ⟨k, hmem, hhas⟩
    rw [h.hasKeyword_sample _ k hmem] at hhas
    cases hhas
  have := hm key hnone (by rw [htok, tokens_expand]; exact matches_sample h _)
  rw [tokens_substituteKeywords, htok] at this
  intro w hw hstar hhash
  exact (h.substituteKeywords_expand w).1 (eq_of_matches_sample this w hw hstar hhash)

/-! ## The name and the domain in one token -/

/-- The name of user and domain is the two names, joined. -/
theorem Plain.name_userdomain (h : Plain id) : userdomain.name id = user.name id ++ '_' :: domain.name id := by
  have hd := h.ne_nil .domain
  simp only [name, userOf, domainOf, normalizeUserId_eq] at hd ⊢
  cases hdrop : id.dropWhile (· ≠ '@') with
  | nil =>
    rw [hdrop] at hd
    exact absurd rfl hd
  | cons c rest =>
    have hc : c = '@' := by
      have := head?_dropWhile_not (fun c : Char => decide (c ≠ '@')) id
      rw [hdrop] at this
      simpa using this
    conv_lhs => rw [← takeWhile_append_dropWhile (l := id), hdrop, hc]
    simp

theorem pieces_append_keyword (a : Text) (k : Keyword) (b : Text) :
    pieces (a ++ (k.text ++ b)) = pieces a ++ .keyword k :: pieces b := by
  have hdol (k : Keyword) : '$' ∉ k.text.tail := by
    obtain ⟨q, hq, hnot⟩ := text_cons k
    rwa [hq]
  obtain ⟨q, hq, -⟩ := text_cons k
  rw [← pieces_keyword, hq, cons_append, pieces_append hdol]

theorem unfoldAt_infix {x : Piece} {n q t : List Piece} (h : q <:+: t) : unfoldAt x n q <:+: unfoldAt x n t := by
  obtain ⟨a, b, rfl⟩ := h
  simp only [unfoldAt, flatMap_append]
  exact ⟨_, _, rfl⟩

/-- User and domain, joined in a word, are never what the substitution leaves. -/
theorem Plain.user_domain_ne (h : Plain id) {k : Text} (hk : hasKeyword k = false)
    (hw : userSubst ++ '_' :: domainSubst <:+: w) : w ≠ substituteKeywords k id := by
  intro heq
  have hfound : pieces w = found id k := by
    rw [heq, h.substituteKeywords_eq, pieces_flatten (read_found hk)]
  have hin : [.keyword .user, .char '_', .keyword .domain] <:+: found id k := by
    obtain ⟨a, b, hab⟩ := hw
    refine ⟨pieces a, pieces b, ?_⟩
    have hsplit : w = a ++ (user.text ++ (['_'] ++ (domain.text ++ b))) := by
      simp [← hab, text]
    rw [← hfound, hsplit, pieces_append_keyword, pieces_append_keyword]
    simp [show pieces ['_'] = [.char '_'] from rfl]
  -- with the names for its two keywords it would be an occurrence of the name with the domain
  have hq1 : .keyword .user ∉ find id .userdomain (k.map .char) :=
    keyword_notMem_find (by simp) (keyword_notMem_map_char _ _)
  have hq2 : .keyword .domain ∉ find id .user (find id .userdomain (k.map .char)) :=
    keyword_notMem_find (by simp) (keyword_notMem_find (by simp) (keyword_notMem_map_char _ _))
  have hin2 := unfoldAt_infix (x := .keyword .domain) (n := spelled id .domain) hin
  rw [found, unfoldAt_find hq2] at hin2
  have hin1 := unfoldAt_infix (x := .keyword .user) (n := spelled id .user) hin2
  rw [unfoldAt_find hq1] at hin1
  have hne : spelled id .userdomain ≠ [] := by simpa [spelled] using h.ne_nil .userdomain
  refine not_infix_replaceAll hne (keyword_notMem_map_char .userdomain _) (k.map .char) ?_
  have hd : unfoldAt (.keyword .domain) (spelled id .domain) [.keyword .user, .char '_', .keyword .domain] =
      .keyword .user :: .char '_' :: spelled id .domain := by
    simp [unfoldAt]
  have hu : unfoldAt (.keyword .user) (spelled id .user) (.keyword .user :: .char '_' :: spelled id .domain) =
      spelled id .userdomain := by
    rw [unfoldAt_cons_self, unfoldAt_cons_ne (by simp), spelled, spelled, spelled, h.name_userdomain,
      unfoldAt_of_notMem (keyword_notMem_map_char _ _), map_append, map_cons]
  rwa [hd, hu] at hin1

/-- Words that are no wildcards are in every key. -/
theorem mem_of_matches (h : Matches ps ks) : ∀ w ∈ ps, w ≠ .star → w ≠ .hash → w ∈ ks := by
  induction ps generalizing ks with
  | nil => simp
  | cons w ps ih =>
    rw [forall_mem_cons]
    by_cases hhash : w = .hash
    · rw [hhash] at h
      obtain ⟨rest, hrest, hm⟩ := h
      exact ⟨fun _ hn => absurd hhash hn, fun v hv hs hh =>
        ((mem_tails _ _).1 hrest).subset (ih hm v hv hs hh)⟩
    cases ks with
    | nil => exact absurd h (matches_nil_right hhash ps)
    | cons k ks =>
      rw [matches_cons hhash] at h
      exact ⟨fun hs _ => h.1.resolve_left hs ▸ mem_cons_self,
        fun v hv hs hh => mem_cons_of_mem _ (ih h.2 v hv hs hh)⟩

/-! ## Rules -/

variable {rule : AclRule} {pattern : Text}

theorem lookupMatchRule_routingKey [LexicalCast] (hrule : rule.props.entries = [(.routingkey, pattern)])
    (hk : hasKeyword pattern = true) (id name key : Text) :
    (lookupMatchRule (AclReader.loadRule rule) id name (some [(.routingkey, key)])).isSome =
      decide (Matches (tokens pattern) (tokens (substituteKeywords key id))) := by
  rw [lookupMatchRule_eq, decides, hrule]
  by_cases hm : Matches (tokens pattern) (tokens (substituteKeywords key id)) <;>
    simp [satisfies, hk, hm]

theorem lookupMatchPublish_routingKey (hrule : rule.props.entries = [(.routingkey, pattern)])
    (hk : hasKeyword pattern = true) (id name : Text) {key : Text} (hkey : hasKeyword key = false) :
    (lookupMatchPublishExchangeRule (AclReader.loadedAt rule .publish) id name key).isSome =
      decide (Matches (tokens pattern) (tokens (substituteKeywords key id))) := by
  have halike : Alike name rule := ⟨by simp [hrule], fun hn => by
    rw [SpecPropertyMap.find, hrule] at hn
    cases hn⟩
  rw [lookupMatchPublishExchangeRule_eq hkey, decides_published halike, ← lookupMatchRule_eq]
  exact lookupMatchRule_routingKey hrule hk id name key

/-- Where nothing is matched, no node is visited twice. -/
theorem visitsOnce_of_unmatched {r : Rule} {key : Text} (h : r.matchRoutingKey key = false) : r.VisitsOnce key := by
  have hnil : r.pTTest.iterateMatch key.tokens = [] := by
    simpa [Rule.matchRoutingKey, findMatches] using h
  simp [Rule.VisitsOnce, hnil]

/-- **A rule whose routing key has keywords matches as the pattern with the names of the user**,
in both lookups and for every key without keywords that reaches the node of the rule at most
once, if and only if the names can be found again in each token of the pattern; with the
name and the domain joined in a token it matches no key. -/
theorem routingKey_matches [LexicalCast] (hrule : rule.props.entries = [(.routingkey, pattern)])
    (hk : hasKeyword pattern = true) (hid : plain id = true) (name : Text) :
    ((∀ key, hasKeyword key = false → (AclReader.loadRule rule).VisitsOnce (substituteKeywords key id) →
        ((lookupMatchRule (AclReader.loadRule rule) id name (some [(.routingkey, key)])).isSome = true ↔
          Matches (tokens (expand id pattern)) (tokens key)) ∧
        ((lookupMatchPublishExchangeRule (AclReader.loadedAt rule .publish) id name key).isSome = true ↔
          Matches (tokens (expand id pattern)) (tokens key))) ↔
      ∀ w ∈ tokens pattern, w ≠ .star → w ≠ .hash → Apart id w) ∧
    ((∃ w ∈ tokens pattern, userSubst ++ '_' :: domainSubst <:+: w) → ∀ key, hasKeyword key = false →
      lookupMatchRule (AclReader.loadRule rule) id name (some [(.routingkey, key)]) = none ∧
        lookupMatchPublishExchangeRule (AclReader.loadedAt rule .publish) id name key = none) := by
  have h := plain_iff hid
  refine ⟨⟨fun hm => ?_, fun hapart key hkey _ => ?_⟩, ?_⟩
  · refine apart_of_matches h hk fun key hkey hexp => ?_
    by_contra hnot
    -- a key that is not matched reaches no node
    have hmem : (.routingkey, pattern) ∈ rule.props.entries := by
      rw [hrule]
      exact mem_singleton_self _
    have hun := loadRule_matchRoutingKey hmem (substituteKeywords key id)
    rw [decide_eq_false hnot] at hun
    have := (hm key hkey (visitsOnce_of_unmatched hun)).1.2 hexp
    rw [lookupMatchRule_routingKey hrule hk, decide_eq_true_eq] at this
    exact hnot this
  · have hks : ∀ k ∈ tokens key, hasKeyword k = false := by
      intro k hmem
      rw [Bool.eq_false_iff] at hkey ⊢
      exact fun hhas => hkey (hasKeyword_iff_tokens.2 ⟨k, hmem, hhas⟩)
    rw [lookupMatchRule_routingKey hrule hk, lookupMatchPublish_routingKey hrule hk id name hkey,
      decide_eq_true_eq, tokens_substituteKeywords, tokens_expand, and_self]
    exact matches_of_apart h hks hapart
  rintro ⟨w, hw, hin⟩ key hkey
  have hnot : ¬Matches (tokens pattern) (tokens (substituteKeywords key id)) := by
    intro hm
    have hstar : w ≠ .star := by
      rintro rfl
      exact absurd hin (by decide)
    have hhash : w ≠ .hash := by
      rintro rfl
      exact absurd hin (by decide)
    have hmem := mem_of_matches hm w hw hstar hhash
    rw [tokens_substituteKeywords] at hmem
    obtain ⟨k, hkmem, heq⟩ := mem_map.1 hmem
    refine h.user_domain_ne ?_ hin heq.symm
    rw [Bool.eq_false_iff] at hkey ⊢
    exact fun hhas => hkey (hasKeyword_iff_tokens.2 ⟨k, hkmem, hhas⟩)
  rw [← Option.isNone_iff_eq_none, ← Option.isNone_iff_eq_none, ← Option.not_isSome, ← Option.not_isSome,
    lookupMatchRule_routingKey hrule hk, lookupMatchPublish_routingKey hrule hk id name hkey]
  simp [hnot]

/-- A rule that lets a user publish under a routing key. -/
def publishRule (pattern : Text) : AclRule :=
  ⟨.allow, [wildcard], false, .publish, .value, .exchange, SpecPropertyMap.empty.insert .routingkey pattern⟩

theorem routingKey_matches_user :
    (lookupMatchRule (AclReader.loadRule (publishRule "$\x7buser\x7d.*".toList)) "bob@QPID".toList []
        (some [(.routingkey, "bob.news".toList)])).isSome = true ↔
      Matches (tokens (expand "bob@QPID".toList "$\x7buser\x7d.*".toList)) (tokens "bob.news".toList) := by
  have hid : plain "bob@QPID".toList = true := by decide +kernel
  have hrule : (publishRule "$\x7buser\x7d.*".toList).props.entries = [(.routingkey, "$\x7buser\x7d.*".toList)] := rfl
  refine (((routingKey_matches hrule (by decide +kernel) hid []).1.2 fun w hw hstar _ => ?_)
    "bob.news".toList (by decide +kernel) (by decide +kernel)).1
  rw [show tokens "$\x7buser\x7d.*".toList = [userSubst, .star] by decide +kernel, mem_pair] at hw
  rw [hw.resolve_right hstar, ← (plain_iff hid).substituteKeywords_expand]
  decide +kernel

/-- The name joined to the domain is taken for the keyword of both, which is not the pattern's;
and a key with the name twice reaches the node of a rule for keys with the name in two ways. -/
theorem user_domain_unmatched :
    Matches (tokens (expand "bob@QPID".toList (userSubst ++ '_' :: domainSubst))) (tokens "bob_QPID".toList) ∧
    lookupMatchRule (AclReader.loadRule (publishRule (userSubst ++ '_' :: domainSubst))) "bob@QPID".toList []
      (some [(.routingkey, "bob_QPID".toList)]) = none ∧
    lookupMatchPublishExchangeRule (AclReader.loadedAt (publishRule (userSubst ++ '_' :: domainSubst)) .publish)
      "bob@QPID".toList [] "bob_QPID".toList = none ∧
    ¬(AclReader.loadRule (publishRule ("#.".toList ++ userSubst ++ ".#".toList))).VisitsOnce
      (substituteKeywords "bob.bob".toList "bob@QPID".toList) := by
  decide +kernel

end QB.Impl.Acl
