import Mathlib.Data.List.Chain
import Mathlib.Data.List.Infix
import Mathlib.Data.List.TakeWhile
import QpidBroker.Spec.Topic

/-!
# Normalised patterns

`normalize` moves the stars of a run of wildcards to the front and leaves one hash
(`tokens_normalize`): that changes nothing about what matches
(`matches_squeeze`), and no wildcard follows a hash (`squeezed_squeeze`).
-/

namespace QB.Impl

open Spec.Topic List

namespace Text

/-! ## Tokens -/

theorem tokens_nil : tokens [] = [[]] := rfl

theorem tokens_cons (c : Char) (p : Text) :
    tokens (c :: p) = if c = '.' then [] :: tokens p else (tokens p).modifyHead (c :: ·) := by
  simp [tokens, List.splitOn, splitOnP_cons_eq_if_modifyHead]

theorem tokens_ne_nil (p : Text) : tokens p ≠ [] := by
  cases p with
  | nil => simp [tokens_nil]
  | cons c p =>
    rw [tokens_cons]
    split
    · simp
    have := tokens_ne_nil p
    cases h : tokens p with
    | nil => exact absurd h this
    | cons t ts => simp

/-- A text is given by its tokens. -/
theorem tokens_inj {p p' : Text} : tokens p = tokens p' ↔ p = p' := by
  refine ⟨fun h => ?_, fun h => by rw [h]⟩
  calc p = ['.'].intercalate (tokens p) := (intercalate_splitOn '.').symm
    _ = ['.'].intercalate (tokens p') := by rw [h]
    _ = p' := intercalate_splitOn '.'

theorem tokens_append {t : Text} (ht : '.' ∉ t) (p : Text) : tokens (t ++ '.' :: p) = t :: tokens p := by
  induction t with
  | nil => simp [tokens_cons]
  | cons c t ih =>
    obtain ⟨hc, ht⟩ := not_or.1 (mem_cons.not.1 ht)
    rw [cons_append, tokens_cons, if_neg (Ne.symm hc), ih ht]
    rfl

theorem tokens_of_not_mem {t : Text} (ht : '.' ∉ t) : tokens t = [t] := by
  induction t with
  | nil => rfl
  | cons c t ih =>
    obtain ⟨hc, ht⟩ := not_or.1 (mem_cons.not.1 ht)
    rw [tokens_cons, if_neg (Ne.symm hc), ih ht]
    rfl

theorem not_mem_token (p : Text) : '.' ∉ p.token := fun h => by
  simpa using mem_takeWhile_imp h

theorem token_cases (p : Text) : (p.dropWhile (· ≠ '.') = [] ∧ p = p.token) ∨
    ∃ rest, p.dropWhile (· ≠ '.') = '.' :: rest ∧ p = p.token ++ '.' :: rest := by
  have hp : p.token ++ p.dropWhile (· ≠ '.') = p := takeWhile_append_dropWhile
  cases h : p.dropWhile (· ≠ '.') with
  | nil => exact .inl ⟨rfl, by rw [h, append_nil] at hp; exact hp.symm⟩
  | cons c rest =>
    have hc : c = '.' := by
      have := head?_dropWhile_not (fun c : Char => decide (c ≠ '.')) p
      rw [h] at this
      simpa using this
    subst hc
    exact .inr ⟨rest, rfl, by rw [h] at hp; exact hp.symm⟩

/-- The first token, and the tokens behind the dot. -/
theorem tokens_token (p : Text) : tokens p = p.token :: match p.dropWhile (· ≠ '.') with
    | [] => []
    | _ :: rest => tokens rest := by
  rcases token_cases p with ⟨h, hp⟩ | ⟨rest, h, hp⟩ <;> rw [h]
  · conv_lhs => rw [hp]
    exact tokens_of_not_mem (not_mem_token p)
  · conv_lhs => rw [hp]
    exact tokens_append (not_mem_token p) rest

theorem mem_tokens {p t : Text} (h : t ∈ tokens p) : '.' ∉ t := by
  induction p generalizing t with
  | nil =>
    obtain rfl : t = [] := by simpa [tokens_nil] using h
    simp
  | cons c p ih =>
    rw [tokens_cons] at h
    split at h
    · rcases mem_cons.1 h with rfl | h
      · simp
      · exact ih h
    rename_i hc
    cases hp : tokens p with
    | nil => simp [hp] at h
    | cons s ss =>
      simp only [hp, modifyHead_cons, mem_cons] at h
      rcases h with rfl | h
      · have := ih (t := s) (by simp [hp])
        simp [Ne.symm hc, this]
      · exact ih (by simp [hp, h])

end Text

namespace TopicExchange

open Text (tokens tokens_token tokens_append tokens_of_not_mem not_mem_token token_cases match1)

/-! ## Runs of wildcards -/

/-- The tokens normalised, where the flag says that a hash is still to be placed. -/
def squeeze : Bool → List Text → List Text
  | false, [] => []
  | true, [] => [.hash]
  | false, t :: ts => if t = .hash then squeeze true ts else t :: squeeze false ts
  | true, t :: ts =>
    if t = .hash then squeeze true ts
    else if t = .star then .star :: squeeze true ts
    else .hash :: t :: squeeze false ts

theorem star_ne_hash : Text.star ≠ Text.hash := by decide

variable {p : Text}

theorem match1_hash : match1 p '#' = true ↔ p.token = .hash := by
  simp [match1, Text.hash]

theorem match1_star : match1 p '*' = true ↔ p.token = .star := by
  simp [match1, Text.star]

theorem drop_of_token {c : Char} (h : p.token = [c]) : (p = [c] ∧ p.drop 1 = [] ∧ p.dropWhile (· ≠ '.') = []) ∨
      ∃ rest, p = c :: '.' :: rest ∧ p.drop 1 = '.' :: rest ∧ p.dropWhile (· ≠ '.') = '.' :: rest := by
  rcases token_cases p with ⟨hd, hp⟩ | ⟨rest, hd, hp⟩ <;> rw [h] at hp
  · exact .inl ⟨hp, by rw [hp]; rfl, hd⟩
  · exact .inr ⟨rest, hp, by rw [hp]; rfl, hd⟩

/-- The loop moves each `#` behind the `*` that follow it, and drops what repeats. -/
theorem tokens_normalizeLoop (fuel : Nat) (hf : p.length < fuel) :
    tokens (normalizeLoop fuel p) = squeeze false (tokens p) := by
  induction fuel generalizing p with
  | zero => omega
  | succ fuel ih =>
    rw [normalizeLoop]
    by_cases hp : match1 p '#' = true
    · rw [if_pos hp]
      rcases drop_of_token (match1_hash.1 hp) with ⟨rfl, hd, -⟩ | ⟨rest, rfl, hd, -⟩
      · rfl
      have ht : tokens ('#' :: '.' :: rest) = .hash :: tokens rest := tokens_append (t := Text.hash) (by decide) rest
      have hl : rest.length < fuel := by simp only [length_cons] at hf; omega
      rw [hd, ht]
      simp only
      rw [tokens_token rest]
      by_cases h1 : match1 rest '#' = true
      · rw [if_pos h1, ih hl, tokens_token rest, match1_hash.1 h1]
        simp [squeeze]
      rw [if_neg h1]
      have hne : Text.token rest ≠ .hash := fun e => h1 (match1_hash.2 e)
      by_cases h2 : match1 rest '*' = true
      · rw [if_pos h2]
        have hstar := match1_star.1 h2
        have hl2 : ('#' :: rest.drop 1).length < fuel := by
          rcases drop_of_token hstar with ⟨e, -⟩ | ⟨r, e, -⟩ <;> simp at hf ⊢ <;> omega
        rw [show '*' :: '.' :: normalizeLoop fuel ('#' :: rest.drop 1) =
            Text.star ++ '.' :: normalizeLoop fuel ('#' :: rest.drop 1) from rfl, tokens_append (by decide), ih hl2,
          hstar]
        rcases drop_of_token hstar with ⟨rfl, hd1, hd2⟩ | ⟨r, rfl, hd1, hd2⟩
        · rfl
        · rw [hd1, show '#' :: '.' :: r = Text.hash ++ '.' :: r from rfl, tokens_append (by decide)]
          simp [squeeze, star_ne_hash]
      have hne' : Text.token rest ≠ .star := fun e => h2 (match1_star.2 e)
      rw [if_neg h2, show '#' :: '.' :: normalizeLoop fuel rest = Text.hash ++ '.' :: normalizeLoop fuel rest from rfl,
        tokens_append (by decide), ih hl, tokens_token rest]
      simp [squeeze, hne, hne']
    rw [if_neg hp]
    have hne : p.token ≠ .hash := fun e => hp (match1_hash.2 e)
    rw [tokens_token p]
    rcases token_cases p with ⟨hd, he⟩ | ⟨rest, hd, he⟩
    · rw [hd]
      simp only [squeeze, if_neg hne]
      conv_lhs => rw [he]
      exact tokens_of_not_mem (not_mem_token p)
    have hl : rest.length < fuel := by
      have := congrArg List.length he
      simp only [length_append, length_cons] at this
      omega
    rw [hd]
    simp only [squeeze, if_neg hne]
    rw [tokens_append (not_mem_token p), ih hl]

theorem tokens_normalize (p : Text) : tokens (normalize p) = squeeze false (tokens p) :=
  tokens_normalizeLoop _ (Nat.lt_succ_self _)

/-- No wildcard follows a hash. -/
def Squeezed (ts : List Text) : Prop := ts.IsChain fun t t' => t = .hash → t' ≠ .hash ∧ t' ≠ .star

theorem squeezed_cons {t : Text} {ts : List Text} (ht : t ≠ .hash) (h : Squeezed ts) : Squeezed (t :: ts) := by
  cases ts with
  | nil => exact .singleton _
  | cons t' ts => exact .cons_cons (fun e => absurd e ht) h

/-- The result is squeezed, whatever it starts from. -/
theorem squeezed_squeeze (b : Bool) (ts : List Text) : Squeezed (squeeze b ts) := by
  induction ts generalizing b with
  | nil => cases b <;> simp [squeeze, Squeezed]
  | cons t ts ih =>
    cases b with
    | false =>
      rw [squeeze]
      split
      · exact ih true
      · rename_i ht
        exact squeezed_cons ht (ih false)
    | true =>
      rw [squeeze]
      split
      · exact ih true
      rename_i ht
      split
      · exact squeezed_cons star_ne_hash (ih true)
      · rename_i hs
        exact .cons_cons (fun _ => ⟨ht, hs⟩) (squeezed_cons ht (ih false))

theorem squeezed_normalize (p : Text) : Squeezed (tokens (normalize p)) := by
  rw [tokens_normalize]
  exact squeezed_squeeze false _

/-- A pattern that is squeezed stays as it is. -/
theorem squeeze_eq_self {ts : List Text} (h : Squeezed ts) : squeeze false ts = ts := by
  induction ts with
  | nil => rfl
  | cons t ts ih =>
    have hts := ih h.tail
    rw [squeeze]
    split
    swap
    · rw [hts]
    rename_i ht
    subst ht
    cases ts with
    | nil => rfl
    | cons t' ts =>
      obtain ⟨hh, hs⟩ := h.rel rfl
      rw [squeeze, if_neg hh] at hts
      rw [squeeze, if_neg hh, if_neg hs, hts]

/-- A run of wildcards is some `*` with at most one `#` behind them. -/
theorem Squeezed.run {ts : List Text} (h : Squeezed ts) (hts : ∀ t ∈ ts, t = .star ∨ t = .hash) :
    ∃ n, ts = List.replicate n .star ∨ ts = List.replicate n .star ++ [.hash] := by
  induction ts with
  | nil => exact ⟨0, .inl rfl⟩
  | cons t ts ih =>
    obtain ⟨n, hn⟩ := ih h.tail fun t ht => hts t (mem_cons_of_mem _ ht)
    rcases hts t mem_cons_self with rfl | rfl
    · refine ⟨n + 1, hn.imp ?_ ?_⟩ <;> rintro rfl <;> rfl
    cases ts with
    | nil => exact ⟨0, .inr rfl⟩
    | cons t' ts =>
      obtain ⟨hh, hs⟩ := h.rel rfl
      exact absurd (hts t' (by simp)) (by simp [hh, hs])

/-! ## What matches -/

/-- A second `#` matches nothing more. -/
theorem matches_hash_hash (ps key : List Text) : Matches (.hash :: .hash :: ps) key ↔ Matches (.hash :: ps) key := by
  simp only [matches_hash, mem_tails]
  constructor
  · rintro ⟨s, hs, s', hs', h⟩
    exact ⟨s', hs'.trans hs, h⟩
  · rintro ⟨s, hs, h⟩
    exact ⟨s, hs, s, suffix_refl s, h⟩

/-- `#` and `*` can be exchanged. -/
theorem matches_hash_star (ps key : List Text) :
    Matches (.hash :: .star :: ps) key ↔ Matches (.star :: .hash :: ps) key := by
  rw [matches_hash]
  cases key with
  | nil => simp [matches_nil_right star_ne_hash]
  | cons t key =>
    rw [matches_cons star_ne_hash, matches_hash]
    simp only [mem_tails, true_or, true_and]
    constructor
    · rintro ⟨s, hs, h⟩
      cases s with
      | nil => exact absurd h (matches_nil_right star_ne_hash ps)
      | cons u s =>
        rcases suffix_cons_iff.1 hs with e | e
        · obtain ⟨-, rfl⟩ := List.cons.inj e
          exact ⟨s, suffix_refl s, h.2⟩
        · exact ⟨s, (suffix_cons u s).trans e, h.2⟩
    rintro ⟨s, ⟨l, rfl⟩, h⟩
    rcases eq_nil_or_concat' l with rfl | ⟨l, u, rfl⟩
    · exact ⟨t :: s, suffix_refl _, (matches_cons star_ne_hash _ _ _).2 ⟨.inl rfl, h⟩⟩
    · exact ⟨u :: s, ⟨t :: l, by simp⟩, (matches_cons star_ne_hash _ _ _).2 ⟨.inl rfl, h⟩⟩

theorem matches_cons_congr (hp : p ≠ .hash) {ps ps' : List Text}
    (h : ∀ key, Matches ps key ↔ Matches ps' key) (key : List Text) :
    Matches (p :: ps) key ↔ Matches (p :: ps') key := by
  cases key with
  | nil => simp [matches_nil_right hp]
  | cons t key => rw [matches_cons hp, matches_cons hp, h]

/-- Squeezing keeps what is matched. -/
theorem matches_squeeze (b : Bool) (ts key : List Text) :
    Matches (squeeze b ts) key ↔ Matches (if b then .hash :: ts else ts) key := by
  induction ts generalizing b key with
  | nil => cases b <;> rfl
  | cons t ts ih =>
    have ht := ih true
    have hf := ih false
    cases b with
    | false =>
      rw [squeeze]
      split
      · rename_i h
        rw [ht, h]
        rfl
      · rename_i h
        exact matches_cons_congr h hf key
    | true =>
      rw [squeeze]
      split
      · rename_i h
        rw [ht, h]
        exact (matches_hash_hash ts key).symm
      rename_i h
      split
      · rename_i hs
        rw [matches_cons_congr star_ne_hash ht, hs]
        exact (matches_hash_star ts key).symm
      · simp [matches_hash, matches_cons_congr h hf]

/-- A pattern matches what it matched before. -/
theorem matches_normalize (p : Text) (key : List Text) :
    Matches (tokens (normalize p)) key ↔ Matches (tokens p) key := by
  rw [tokens_normalize, matches_squeeze]
  rfl

/-- **Normalisation** comes to an end, keeps what a pattern matches, leaves runs of stars with
at most one hash at the end, and does nothing more the second time. -/
theorem normalize_exact (p : Text) : (∀ fuel, p.length < fuel → normalizeLoop fuel p = normalize p) ∧
      (∀ key, Matches (tokens (normalize p)) (tokens key) ↔ Matches (tokens p) (tokens key)) ∧
      (∀ run, run <:+: tokens (normalize p) → (∀ t ∈ run, t = .star ∨ t = .hash) →
        ∃ n, run = List.replicate n .star ∨ run = List.replicate n .star ++ [.hash]) ∧
      normalize (normalize p) = normalize p := by
  have hsqu := squeezed_normalize p
  refine ⟨fun fuel hf => ?_, fun key => matches_normalize p _,
    fun run hrun => Squeezed.run ( List.IsChain.infix hsqu hrun), ?_⟩
  · exact Text.tokens_inj.1 ((tokens_normalizeLoop fuel hf).trans (tokens_normalize p).symm)
  · exact Text.tokens_inj.1 ((tokens_normalize _).trans (squeeze_eq_self hsqu))

end TopicExchange

end QB.Impl
