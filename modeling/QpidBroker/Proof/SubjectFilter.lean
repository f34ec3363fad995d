import QpidBroker.Proof.Normalize
import QpidBroker.Spec.SubjectFilter

/-!
# The subject filter of a link

The filter is matched in one pass over the subject. After a `#` the pass takes the first
occurrence of the next word and never another, and what is left of the subject at the end is
not given to a `#`. So it selects only what matches (`matches_of_scan`), but not all of it:
exactly for the filters that are `Direct` it does.
-/

namespace QB.Spec.Topic

open Impl OutgoingFromQueue List
open Text (tokens)

/-! ## The pass -/

variable {filter target : List Text}

/-- Fuel for every token is enough. -/
theorem matchLoop_fuel {fuel fuel' : Nat} {wild : Bool}
    (h : filter.length + target.length < fuel) (h' : filter.length + target.length < fuel') :
    matchLoop fuel wild filter target = matchLoop fuel' wild filter target := by
  induction fuel generalizing fuel' wild filter target with
  | zero => omega
  | succ fuel ih =>
    obtain ⟨fuel', rfl⟩ : ∃ n, fuel' = n + 1 := ⟨fuel' - 1, by omega⟩
    cases filter with
    | nil => simp [matchLoop]
    | cons word filter =>
      simp only [matchLoop] at h h' ⊢
      cases target with
      | nil =>
        split
        · rfl
        split
        · split
          · rfl
          · rfl
        · rfl
      | cons t target =>
        simp only [length_cons] at h h' ⊢
        have hnext (wild : Bool) : matchLoop fuel wild filter target = matchLoop fuel' wild filter target :=
          ih (by omega) (by omega)
        have hwild : matchLoop fuel true filter (t :: target) = matchLoop fuel' true filter (t :: target) :=
          ih (by simp only [length_cons]; omega) (by simp only [length_cons]; omega)
        have hagain : matchLoop fuel wild (word :: filter) target = matchLoop fuel' wild (word :: filter) target :=
          ih (by simp only [length_cons]; omega) (by simp only [length_cons]; omega)
        rw [hnext, hwild, hnext, hagain]

/-- The pass, with as many turns as it takes. -/
def scan (wild : Bool) (filter target : List Text) : Bool :=
  matchLoop (filter.length + target.length + 1) wild filter target

section equations

variable (wild : Bool) (filter target : List Text)

@[simp] theorem scan_nil : scan wild [] target = target.isEmpty := by
  simp [scan, matchLoop]

@[simp] theorem scan_star_nil : scan wild (.star :: filter) [] = false := by
  simp [scan, matchLoop]

theorem scan_star (t : Text) : scan wild (.star :: filter) (t :: target) = scan wild filter target := by
  simp only [scan, matchLoop, length_cons]
  exact matchLoop_fuel (by omega) (by omega)

theorem scan_hash : scan wild (.hash :: filter) target =
    if filter = [] then true else if target = [] then false else scan true filter target := by
  simp only [scan, matchLoop, length_cons, show Text.hash ≠ .star by decide, if_false, if_true, List.isEmpty_iff]
  have hfuel : matchLoop (filter.length + 1 + target.length) true filter target =
      matchLoop (filter.length + target.length + 1) true filter target := matchLoop_fuel (by omega) (by omega)
  rw [hfuel]

variable {word : Text} (hs : word ≠ .star) (hh : word ≠ .hash)

include hh in
theorem scan_word_nil : scan wild (word :: filter) [] = false := by
  simp [scan, matchLoop, hh]

include hs hh in
theorem scan_word (t : Text) : scan wild (word :: filter) (t :: target) =
    if word = t then scan false filter target else if wild then scan wild (word :: filter) target else false := by
  have hturn (fuel : Nat) : matchLoop (fuel + 1) wild (word :: filter) (t :: target) =
      if word = t then matchLoop fuel false filter target
      else if wild then matchLoop fuel wild (word :: filter) target else false := by
    simp [matchLoop, if_neg hs, if_neg hh]
  have hlen : (word :: filter).length + (t :: target).length = (word :: filter).length + target.length + 1 := rfl
  have hfuel : matchLoop ((word :: filter).length + target.length + 1) false filter target =
      matchLoop (filter.length + target.length + 1) false filter target :=
    matchLoop_fuel (by simp only [length_cons]; omega) (by omega)
  rw [scan, hlen, hturn, scan, scan, hfuel]

end equations

/-! ## What matches -/

section matching

variable {filter target : List Text}

/-- What stands before is taken by the `#`. -/
theorem Matches.hash_append (h : Matches (.hash :: filter) target) (front : List Text) :
    Matches (.hash :: filter) (front ++ target) := by
  obtain ⟨rest, hrest, h⟩ := h
  rw [mem_tails] at hrest
  exact ⟨rest, (mem_tails _ _).2 (hrest.trans (suffix_append _ _)), h⟩

theorem Matches.hash_of (h : Matches filter target) : Matches (.hash :: filter) target :=
  (matches_hash filter target).2 ⟨target, by simp, h⟩

theorem matches_hash_iff : Matches (.hash :: filter) target ↔
    ∃ front back, target = front ++ back ∧ Matches filter back := by
  constructor
  · rintro ⟨rest, hrest, h⟩
    obtain ⟨front, rfl⟩ := (mem_tails _ _).1 hrest
    exact ⟨front, rest, rfl, h⟩
  · rintro ⟨front, back, rfl, h⟩
    exact ⟨back, (mem_tails _ _).2 (suffix_append _ _), h⟩

theorem matches_star_cons {t : Text} : Matches (.star :: filter) (t :: target) ↔ Matches filter target := by
  rw [matches_cons (by decide)]
  simp

theorem matches_word_cons {word t : Text} (hs : word ≠ .star) (hh : word ≠ .hash) :
    Matches (word :: filter) (t :: target) ↔ word = t ∧ Matches filter target := by
  rw [matches_cons hh]
  simp [hs]

end matching

/-- What is selected in one pass matches. With `wild`, words may have been left out before. -/
theorem matches_of_scan {wild : Bool} (h : scan wild filter target = true) :
    Matches (if wild then .hash :: filter else filter) target := by
  induction filter generalizing wild target with
  | nil =>
    rw [scan_nil, List.isEmpty_iff] at h
    subst h
    cases wild
    · exact rfl
    · exact Matches.hash_of rfl
  | cons word filter ih =>
    by_cases hs : word = .star
    · subst hs
      cases target with
      | nil => simp at h
      | cons t target =>
        rw [scan_star] at h
        have hrest := ih h
        cases wild
        · exact matches_star_cons.2 hrest
        · exact (TopicExchange.matches_hash_star _ _).2 (matches_star_cons.2 hrest)
    by_cases hh : word = .hash
    · subst hh
      have hrest : Matches (.hash :: filter) target := by
        rw [scan_hash] at h
        split at h
        · rename_i hnil
          subst hnil
          exact matches_hash_iff.2 ⟨target, [], by simp, rfl⟩
        · split at h
          · cases h
          · exact ih h
      cases wild
      · exact hrest
      · exact (TopicExchange.matches_hash_hash _ _).2 hrest
    induction target with
    | nil => rw [scan_word_nil wild filter hh] at h; cases h
    | cons t target iht =>
      rw [scan_word wild filter target hs hh] at h
      split at h
      · rename_i heq
        have hword : Matches (word :: filter) (t :: target) := (matches_word_cons hs hh).2 ⟨heq, ih h⟩
        cases wild
        · exact hword
        · exact hword.hash_of
      split at h
      · rename_i hwild
        subst hwild
        exact (iht h).hash_append [t]
      · cases h

/-! ## Filters that one pass decides -/

section direct

variable {filter target : List Text}

/-- Without `#` nothing is missed. -/
theorem scan_of_no_hash {wild : Bool} (hfil : .hash ∉ filter) (h : Matches filter target) :
    scan wild filter target = true := by
  induction filter generalizing wild target with
  | nil => rw [scan_nil, List.isEmpty_iff]; exact h
  | cons word filter ih =>
    obtain ⟨hh, hrest⟩ := not_or.1 (mem_cons.not.1 hfil)
    cases target with
    | nil => exact absurd h (matches_nil_right (Ne.symm hh) _)
    | cons t target =>
      by_cases hs : word = .star
      · subst hs
        rw [scan_star]
        exact ih hrest (matches_star_cons.1 h)
      · obtain ⟨heq, h⟩ := (matches_word_cons hs (Ne.symm hh)).1 h
        rw [scan_word wild filter target hs (Ne.symm hh), if_pos heq]
        exact ih hrest h

theorem scan_of_all_hash {wild : Bool} (hne : filter ≠ []) (hfil : ∀ word ∈ filter, word = .hash)
    (htar : target ≠ []) : scan wild filter target = true := by
  induction filter generalizing wild with
  | nil => exact absurd rfl hne
  | cons word filter ih =>
    obtain rfl := hfil word mem_cons_self
    rw [scan_hash]
    split
    · rfl
    · rename_i hrest
      exact ih hrest fun word hword => hfil word (mem_cons_of_mem _ hword)

/-- The first `#` comes after one word at most, besides `*`. -/
def FirstSingle (filter : List Text) : Prop :=
  ∀ segment after, filter = segment ++ .hash :: after → .hash ∉ segment →
    (segment.filter (· ≠ .star)).length ≤ 1

/-- The last word is `#`, and not the one before. -/
def EndsOnce (filter : List Text) : Prop :=
  filter = [.hash] ∨ ∃ before word, filter = before ++ [word, .hash] ∧ word ≠ .hash

variable {word : Text}

theorem SingleWords.tail (h : SingleWords (word :: filter)) : SingleWords filter := by
  intro before segment after hfil
  exact h (word :: before) segment after (by rw [hfil, cons_append])

theorem SingleWords.first (h : SingleWords (.hash :: filter)) : FirstSingle filter := by
  intro segment after hfil
  exact h [] segment after (by rw [hfil, nil_append])

theorem FirstSingle.tail (hh : word ≠ .hash) (h : FirstSingle (word :: filter)) : FirstSingle filter := by
  intro segment after hfil hseg
  have hlen := h (word :: segment) after (by rw [hfil, cons_append])
    (by rw [mem_cons, not_or]; exact ⟨Ne.symm hh, hseg⟩)
  rw [filter_cons] at hlen
  split at hlen
  · rw [length_cons] at hlen
    omega
  · exact hlen

theorem EndsOnce.tail (h : EndsOnce (word :: filter)) (hne : filter ≠ []) : EndsOnce filter := by
  rcases h with h | ⟨before, last, h, hlast⟩
  · exact absurd (List.cons.inj h).2 hne
  · cases before with
    | nil => exact .inl (List.cons.inj h).2
    | cons x before => exact .inr ⟨before, last, (List.cons.inj h).2, hlast⟩

theorem EndsOnce.hash_mem (h : EndsOnce filter) : .hash ∈ filter := by
  rcases h with rfl | ⟨before, word, rfl, -⟩
  · simp
  · simp

theorem EndsOnce.exists_word (h : EndsOnce (.hash :: filter)) (hne : filter ≠ []) :
    ∃ word ∈ filter, word ≠ .hash := by
  rcases h with h | ⟨before, word, h, hword⟩
  · exact absurd (List.cons.inj h).2 hne
  cases before with
  | nil => exact absurd (List.cons.inj h).1.symm hword
  | cons x before =>
    refine ⟨word, ?_, hword⟩
    rw [(List.cons.inj h).2]
    simp

theorem not_matches_nil (hmem : word ∈ filter) (hword : word ≠ .hash) : ¬Matches filter [] := by
  induction filter with
  | nil => simp at hmem
  | cons x filter ih =>
    by_cases hx : x = .hash
    · subst hx
      rw [matches_hash_iff]
      rintro ⟨front, back, hback, h⟩
      obtain ⟨-, rfl⟩ := append_eq_nil_iff.1 hback.symm
      exact ih ((mem_cons.1 hmem).resolve_left hword) h
    · exact matches_nil_right hx filter

theorem Matches.stars_append {segment after : List Text} (hstars : ∀ word ∈ segment, word = .star)
    (h : Matches (segment ++ .hash :: after) target) (front : List Text) :
    Matches (segment ++ .hash :: after) (front ++ target) := by
  induction segment generalizing front target with
  | nil => exact Matches.hash_append h front
  | cons word segment ih =>
    obtain rfl := hstars word mem_cons_self
    have hrest := fun word hword => hstars word (mem_cons_of_mem _ hword)
    cases target with
    | nil => exact absurd h (matches_nil_right (by decide) _)
    | cons t target =>
      have h' := matches_star_cons.1 h
      cases front with
      | nil => exact h
      | cons u front =>
        have hback := ih hrest h' (front ++ [t])
        rw [append_assoc] at hback
        exact matches_star_cons.2 hback

/-- Between a first word and the next `#` there are only stars. -/
theorem FirstSingle.stars (hs : word ≠ .star) (hh : word ≠ .hash) (h : FirstSingle (word :: filter))
    (hmem : .hash ∈ filter) : ∃ segment after, filter = segment ++ .hash :: after ∧
      ∀ x ∈ segment, x = .star := by
  obtain ⟨segment, after, rfl, hseg⟩ := eq_append_cons_of_mem hmem
  refine ⟨segment, after, rfl, fun x hx => ?_⟩
  have hlen := h (word :: segment) after rfl (by rw [mem_cons, not_or]; exact ⟨Ne.symm hh, hseg⟩)
  rw [filter_cons_of_pos (by simpa using hs), length_cons] at hlen
  have hnil : segment.filter (· ≠ .star) = [] := eq_nil_of_length_eq_zero (by omega)
  simpa using filter_eq_nil_iff.1 hnil x hx

/-- The pass finds what matches: at the start of a segment, and after a `#`. -/
theorem scan_of_matches (hends : EndsOnce filter) (hsin : SingleWords filter) (target : List Text) :
    (Matches filter target → scan false filter target = true) ∧
    (FirstSingle filter → Matches (.hash :: filter) target → scan true filter target = true) := by
  induction filter generalizing target with
  | nil =>
    rcases hends with h | ⟨before, word, h, -⟩
    · cases h
    · simp at h
  | cons word filter ih =>
    by_cases hh : word = .hash
    · subst hh
      have hpass (wild : Bool) (h : Matches (.hash :: filter) target) : scan wild (.hash :: filter) target = true := by
        rw [scan_hash]
        split
        · rfl
        rename_i hne
        obtain ⟨x, hx, hxh⟩ := hends.exists_word hne
        have htar : target ≠ [] := by
          rintro rfl
          exact not_matches_nil (mem_cons_of_mem _ hx) hxh h
        rw [if_neg htar]
        exact (ih (hends.tail hne) hsin.tail target).2 hsin.first h
      exact ⟨hpass false, fun _ h => hpass true ((TopicExchange.matches_hash_hash _ _).1 h)⟩
    have hne : filter ≠ [] := by
      rintro rfl
      have hmem := hends.hash_mem
      rw [mem_singleton] at hmem
      exact hh hmem.symm
    have ih := fun target => ih (hends.tail hne) hsin.tail target
    by_cases hs : word = .star
    · subst hs
      have hstar (wild : Bool) {rest : List Text} (h : Matches (.star :: rest) target)
          (hrest : ∀ target, Matches rest target → scan wild filter target = true) :
          scan wild (.star :: filter) target = true := by
        cases target with
        | nil => exact absurd h (matches_nil_right (by decide) _)
        | cons t target =>
          rw [scan_star]
          exact hrest target (matches_star_cons.1 h)
      exact ⟨fun h => hstar false h fun target => (ih target).1,
        fun hfirst h => hstar true ((TopicExchange.matches_hash_star _ _).1 h)
          fun target => (ih target).2 (hfirst.tail hh)⟩
    refine ⟨fun h => ?_, fun hfirst h => ?_⟩
    · cases target with
      | nil => exact absurd h (matches_nil_right hh _)
      | cons t target =>
        obtain ⟨heq, h⟩ := (matches_word_cons hs hh).1 h
        rw [scan_word false filter target hs hh, if_pos heq]
        exact (ih target).1 h
    obtain ⟨segment, after, hfil, hstars⟩ := hfirst.stars hs hh (hends.tail hne).hash_mem
    induction target with
    | nil =>
      exact absurd h (not_matches_nil (by simp) hh)
    | cons t target iht =>
      obtain ⟨front, back, hback, hmatch⟩ := matches_hash_iff.1 h
      rw [scan_word true filter target hs hh]
      split
      · rename_i heq
        -- The first occurrence will do: the words up to the other go to the next `#`.
        refine (ih target).1 ?_
        cases back with
        | nil => exact absurd hmatch (matches_nil_right hh _)
        | cons u back =>
          have hrest := ((matches_word_cons hs hh).1 hmatch).2
          cases front with
          | nil =>
            rw [(List.cons.inj hback).2]
            exact hrest
          | cons v front =>
            rw [(List.cons.inj hback).2]
            rw [hfil] at hrest ⊢
            have hmore := hrest.stars_append hstars (front ++ [u])
            rwa [append_assoc] at hmore
      rename_i hword
      refine iht ?_
      cases front with
      | nil =>
        obtain rfl : back = t :: target := hback.symm
        exact absurd ((matches_word_cons hs hh).1 hmatch).1 hword
      | cons v front =>
        rw [(List.cons.inj hback).2]
        exact matches_hash_iff.2 ⟨front, back, rfl, hmatch⟩

end direct

/-! ## Filters that need more than one pass -/

/-- The words that a filter matches with nothing for each `#` and this word for each `*`. -/
def instanceOf (z : Text) (filter : List Text) : List Text :=
  filter.flatMap fun word => if word = .hash then [] else if word = .star then [z] else [word]

section instances

variable {z : Text}

theorem instanceOf_cons (word : Text) (filter : List Text) : instanceOf z (word :: filter) =
    (if word = .hash then [] else if word = .star then [z] else [word]) ++ instanceOf z filter := rfl

theorem instanceOf_append (filter filter' : List Text) :
    instanceOf z (filter ++ filter') = instanceOf z filter ++ instanceOf z filter' := flatMap_append

theorem matches_instanceOf_append {after target : List Text} (filter : List Text) (h : Matches after target) :
    Matches (filter ++ after) (instanceOf z filter ++ target) := by
  induction filter with
  | nil => exact h
  | cons word filter ih =>
    rw [instanceOf_cons]
    by_cases hh : word = .hash
    · subst hh
      exact ih.hash_of
    by_cases hs : word = .star
    · subst hs
      exact matches_star_cons.2 ih
    · rw [if_neg hh, if_neg hs]
      exact (matches_word_cons hs hh).2 ⟨rfl, ih⟩

/-- A filter matches its own instance. -/
theorem matches_instanceOf (filter : List Text) : Matches filter (instanceOf z filter) := by
  have h : Matches (filter ++ []) (instanceOf z filter ++ []) := matches_instanceOf_append filter rfl
  rwa [append_nil, append_nil] at h

theorem scan_instanceOf_append {wild : Bool} {after target : List Text} (h : ∀ wild, scan wild after target = false)
    (filter : List Text) (hafter : after ≠ [] ∨ .hash ∉ filter) :
    scan wild (filter ++ after) (instanceOf z filter ++ target) = false := by
  induction filter generalizing wild with
  | nil => exact h wild
  | cons word filter ih =>
    have hrest : after ≠ [] ∨ .hash ∉ filter := hafter.imp_right fun h hmem => h (mem_cons_of_mem _ hmem)
    rw [cons_append, instanceOf_cons]
    by_cases hh : word = .hash
    · subst hh
      have hne : filter ++ after ≠ [] := by
        rcases hafter with hafter | hfil
        · simp [hafter]
        · simp at hfil
      rw [if_pos rfl, scan_hash, if_neg hne]
      split
      · rfl
      · exact ih hrest
    by_cases hs : word = .star
    · subst hs
      rw [if_neg hh, if_pos rfl, singleton_append, cons_append, scan_star]
      exact ih hrest
    · rw [if_neg hh, if_neg hs, singleton_append, cons_append, scan_word _ _ _ hs hh, if_pos rfl]
      exact ih hrest

theorem scan_stars (wild : Bool) {stars : List Text} (hstars : ∀ x ∈ stars, x = .star) (after target : List Text) :
    scan wild (stars ++ after) (instanceOf z stars ++ target) = scan wild after target := by
  induction stars with
  | nil => rfl
  | cons word stars ih =>
    obtain rfl := hstars word mem_cons_self
    rw [cons_append, instanceOf_cons, if_neg (by decide), if_pos rfl, singleton_append, cons_append, scan_star]
    exact ih fun x hx => hstars x (mem_cons_of_mem _ hx)

variable {word : Text}

theorem instanceOf_word (hs : word ≠ .star) (hh : word ≠ .hash) (filter : List Text) :
    instanceOf z (word :: filter) = word :: instanceOf z filter := by
  rw [instanceOf_cons, if_neg hh, if_neg hs, singleton_append]

theorem mem_instanceOf {filter : List Text} (h : word ∈ instanceOf z filter) :
    word = z ∨ word ∈ filter ∧ word ≠ .hash := by
  obtain ⟨x, hx, h⟩ := mem_flatMap.1 h
  split at h
  · simp at h
  rename_i hh
  split at h
  · exact .inl (mem_singleton.1 h)
  · rw [mem_singleton] at h
    subst h
    exact .inr ⟨hx, hh⟩

theorem instanceOf_ne_nil {filter : List Text} (hmem : word ∈ filter) (hword : word ≠ .hash) :
    instanceOf z filter ≠ [] := fun h => not_matches_nil hmem hword (h ▸ matches_instanceOf filter)

end instances

/-- A subject that matches and is not selected: its words are of the filter, or `z`. -/
def Missed (z : Text) (filter target : List Text) : Prop :=
  target ≠ [] ∧ (∀ word ∈ target, word = z ∨ word ∈ filter ∧ word ≠ .hash) ∧ Matches filter target ∧
    scan false filter target = false

section missed

variable {z : Text}

/-- Words after the last `#`: the pass stops at their first occurrence. -/
theorem missed_of_words_last (before : List Text) {last : List Text} (hne : last ≠ []) (hlast : .hash ∉ last) :
    Missed z (before ++ .hash :: last) (instanceOf z before ++ (instanceOf z last ++ instanceOf z last)) := by
  obtain ⟨word, hword⟩ := exists_mem_of_ne_nil last hne
  have hins : instanceOf z last ≠ [] := instanceOf_ne_nil hword fun h => hlast (h ▸ hword)
  refine ⟨by simp [hins], fun x hx => ?_, ?_, ?_⟩
  · simp only [mem_append, or_self] at hx
    rcases hx with hx | hx
    · exact (mem_instanceOf hx).imp_right fun h => ⟨mem_append_left _ h.1, h.2⟩
    · exact (mem_instanceOf hx).imp_right fun h => ⟨mem_append_right _ (mem_cons_of_mem _ h.1), h.2⟩
  · exact matches_instanceOf_append before ((matches_instanceOf last).hash_of.hash_append _)
  refine scan_instanceOf_append (fun wild => ?_) before (.inl (by simp))
  rw [scan_hash, if_neg hne, if_neg (by simp [hins])]
  have h : scan true (last ++ []) (instanceOf z last ++ instanceOf z last) = false :=
    scan_instanceOf_append (fun wild => by simpa using hins) last (.inr hlast)
  rwa [append_nil] at h

/-- Two `#` at the end, with the subject at its end. -/
theorem missed_of_two_last {before : List Text} {word : Text} (hmem : word ∈ before) (hword : word ≠ .hash) :
    Missed z (before ++ [.hash, .hash]) (instanceOf z before) := by
  refine ⟨instanceOf_ne_nil hmem hword, fun x hx => ?_, ?_, ?_⟩
  · exact (mem_instanceOf hx).imp_right fun h => ⟨mem_append_left _ h.1, h.2⟩
  · have h : Matches (before ++ [.hash, .hash]) (instanceOf z before ++ []) :=
      matches_instanceOf_append before (Matches.hash_of (Matches.hash_of rfl))
    rwa [append_nil] at h
  · have h : scan false (before ++ [.hash, .hash]) (instanceOf z before ++ []) = false :=
      scan_instanceOf_append (fun wild => by simp [scan_hash]) before (.inl (by simp))
    rwa [append_nil] at h

/-- Two words in a segment: the pass does not look for the first again when the second is
not where it should be. -/
theorem missed_of_two_words (before after stars stars' rest : List Text) {a b : Text} (hz : z ≠ b)
    (hb : b ≠ .star ∧ b ≠ .hash) (ha : a ≠ .star ∧ a ≠ .hash) (hstars : ∀ x ∈ stars, x = .star)
    (hsta' : ∀ x ∈ stars', x = .star) :
    Missed z (before ++ .hash :: ((stars ++ a :: (stars' ++ b :: rest)) ++ .hash :: after))
      (instanceOf z before ++ ((instanceOf z (stars ++ a :: stars') ++ [z]) ++
        (instanceOf z (stars ++ a :: (stars' ++ b :: rest)) ++ instanceOf z after))) := by
  refine ⟨by simp, fun x hx => ?_, ?_, ?_⟩
  · have hpart {part : List Text} (hpart : ∀ y ∈ part,
      y ∈ before ++ .hash :: ((stars ++ a :: (stars' ++ b :: rest)) ++
        .hash :: after)) (hx : x ∈ instanceOf z part) : x = z ∨ x ∈ before ++ .hash :: ((stars ++ a :: (stars' ++
        b :: rest)) ++ .hash :: after) ∧ x ≠ .hash := (mem_instanceOf hx).imp_right fun h => ⟨hpart x h.1, h.2⟩
    simp only [mem_append, mem_singleton] at hx
    rcases hx with hx | (hx | hx) | hx | hx
    · exact hpart (fun y hy => by simp [hy]) hx
    · refine hpart (fun y hy => ?_) hx
      simp only [mem_append, mem_cons] at hy ⊢
      tauto
    · exact .inl hx
    · refine hpart (fun y hy => ?_) hx
      simp only [mem_append, mem_cons] at hy ⊢
      tauto
    · exact hpart (fun y hy => by simp [hy]) hx
  · refine matches_instanceOf_append before (Matches.hash_append ?_ _)
    exact (matches_instanceOf_append _ (matches_instanceOf after).hash_of).hash_of
  refine scan_instanceOf_append (fun wild => ?_) before (.inl (by simp))
  rw [scan_hash, if_neg (by simp), if_neg (by simp)]
  rw [instanceOf_append, instanceOf_word ha.1 ha.2]
  simp only [append_assoc, cons_append]
  rw [scan_stars true hstars, scan_word _ _ _ ha.1 ha.2, if_pos rfl, scan_stars false hsta',
    scan_word _ _ _ hb.1 hb.2, if_neg (Ne.symm hz)]
  rfl

/-- A filter that is not direct misses a subject. -/
theorem exists_missed {filter : List Text} (hz : z ∉ filter) (h : ¬Direct filter) :
    ∃ target, Missed z filter target := by
  obtain ⟨hhash, hrest⟩ := not_or.1 h
  obtain ⟨hall, hrest⟩ := not_or.1 hrest
  have hhash := not_not.1 hhash
  obtain ⟨word, hword, hne⟩ : ∃ word ∈ filter, word ≠ .hash := by simpa using hall
  by_cases hsin : SingleWords filter
  · have hends : ¬∃ before word, filter = before ++ [word, .hash] ∧ word ≠ .hash := fun h => hrest ⟨h, hsin⟩
    obtain ⟨last, before, hfil, hlast⟩ := eq_append_cons_of_mem (mem_reverse.2 hhash)
    obtain rfl : filter = before.reverse ++ .hash :: last.reverse := by
      rw [← reverse_reverse filter, hfil, reverse_append, reverse_cons, append_assoc]
      rfl
    by_cases hnil : last = []
    swap
    · exact ⟨_, missed_of_words_last before.reverse (by simpa using hnil) (by simpa using hlast)⟩
    subst hnil
    -- The filter ends in `#`, so in two of them.
    rcases eq_nil_or_concat before.reverse with hbef | ⟨before', x, hbef⟩
    · rw [hbef] at hword
      exact absurd (by simpa using hword) hne
    rw [concat_eq_append] at hbef
    rw [hbef] at hword hends ⊢
    obtain rfl : x = .hash := by
      by_contra hx
      exact hends ⟨before', x, by simp, hx⟩
    have hmem : word ∈ before' := by
      simp only [reverse_nil, mem_append, mem_singleton] at hword
      tauto
    exact ⟨_, by simpa using missed_of_two_last hmem hne⟩
  simp only [SingleWords, not_forall, Nat.not_le] at hsin
  obtain ⟨before, segment, after, rfl, hseg, hlen⟩ := hsin
  -- The first two words of the segment.
  obtain ⟨a, ws, ha⟩ := exists_cons_of_length_pos (Nat.lt_of_succ_lt hlen)
  obtain ⟨stars, rest, rfl, hstars, hastar, hws⟩ := filter_eq_cons_iff.1 ha
  rw [ha] at hlen
  obtain ⟨b, ws', hb⟩ := exists_cons_of_length_pos (Nat.lt_of_succ_lt_succ hlen)
  rw [hb] at hws
  obtain ⟨stars', rest', rfl, hsta', hbstar, -⟩ := filter_eq_cons_iff.1 hws
  refine ⟨_, missed_of_two_words before after stars stars' rest' ?_ ⟨by simpa using hbstar, ?_⟩
    ⟨by simpa using hastar, ?_⟩ (by simpa using hstars) (by simpa using hsta')⟩
  · rintro rfl
    exact hz (by simp)
  · rintro rfl
    exact hseg (by simp)
  · rintro rfl
    exact hseg (by simp)

end missed

/-! ## The filter -/

theorem exists_fresh (filter : List Text) : ∃ z : Text, z ∉ filter ∧ '.' ∉ z ∧ z ≠ .hash := by
  refine ⟨List.replicate (filter.flatten.length + 1) 'x', fun h => ?_, by simp, fun h => ?_⟩
  · have hlen := (sublist_flatten_of_mem h).length_le
    rw [length_replicate] at hlen
    omega
  have hx : 'x' ∈ Text.hash := by
    rw [← h]
    simp
  exact absurd hx (by decide)

/-- Words without dots are the tokens of a text. -/
theorem exists_tokens {words : List Text} (hne : words ≠ []) (hdots : ∀ word ∈ words, '.' ∉ word) :
    ∃ p : Text, p.tokens = words := by
  induction words with
  | nil => exact absurd rfl hne
  | cons word words ih =>
    have hword := hdots word mem_cons_self
    cases words with
    | nil => exact ⟨word, Text.tokens_of_not_mem hword⟩
    | cons word' words =>
      obtain ⟨p, hp⟩ := ih (by simp) fun x hx => hdots x (mem_cons_of_mem _ hx)
      exact ⟨word ++ '.' :: p, by rw [Text.tokens_append hword, hp]⟩

theorem matchSubject_eq (filter subject : Text) : matchSubject filter subject =
    scan false filter.tokens subject.tokens :=
  rfl

theorem filter_eq_true_iff {o : OutgoingFromQueue} (ho : o.selector = none) (m : Message) :
    o.filter m = true ↔ o.subjectFilter.toList = [] ∨ o.subjectFilter.toList = m.getRoutingKey.toList ∨
      scan false (tokens o.subjectFilter.toList) (tokens m.getRoutingKey.toList) = true := by
  rw [OutgoingFromQueue.filter, ho, matchSubject_eq]
  simp [or_assoc, String.toList_inj]

theorem scan_iff_of_direct (h : Direct filter) (hne : filter ≠ []) (htar : target ≠ []) :
    scan false filter target = true ↔ Matches filter target := by
  refine ⟨fun hscan => matches_of_scan hscan, fun hmatch => ?_⟩
  rcases h with h | h | ⟨hends, hsin⟩
  · exact scan_of_no_hash h hmatch
  · exact scan_of_all_hash hne h htar
  · exact (scan_of_matches (.inr hends) hsin target).1 hmatch

/-- **The filter of a link selects exactly the subjects that it should, if and only if it
is direct.** The pass always ends: more turns make no difference. -/
theorem subject_filter_exact_iff (f : String) :
    ((∀ (o : OutgoingFromQueue) (m : Message), o.subjectFilter = f → o.selector = none →
      (o.filter m = true ↔ Selects f.toList m.getRoutingKey.toList)) ↔ Direct (tokens f.toList)) ∧
    ∀ (subject : Text) (fuel : Nat), (tokens f.toList).length + subject.tokens.length < fuel →
      matchLoop fuel false (tokens f.toList) subject.tokens = matchSubject f.toList subject := by
  refine ⟨⟨fun h => ?_, fun h => ?_⟩, fun subject fuel hfuel => matchLoop_fuel hfuel (Nat.lt_succ_self _)⟩
  · by_contra hdirect
    obtain ⟨z, hz, hdot, hhash⟩ := exists_fresh (tokens f.toList)
    obtain ⟨target, hne, hwords, hmatch, hscan⟩ := exists_missed hz hdirect
    obtain ⟨p, rfl⟩ := exists_tokens hne fun word hword => by
      rcases hwords word hword with rfl | ⟨hmem, -⟩
      · exact hdot
      · exact Text.mem_tokens hmem
    have hmem : .hash ∈ tokens f.toList := not_not.1 (not_or.1 hdirect).1
    have hsel := (h { subjectFilter := f }
      { encoding := some { routingKey := String.ofList p } } rfl rfl).2 (.inr (.inr (by
        simpa [Message.getRoutingKey] using hmatch)))
    rw [filter_eq_true_iff rfl] at hsel
    simp only [Message.getRoutingKey, Option.map_some, Option.getD_some, String.toList_ofList] at hsel
    rcases hsel with hempty | hequal | hpass
    · rw [hempty] at hmem
      exact absurd hmem (by decide)
    · rw [hequal] at hmem
      rcases hwords _ hmem with heq | ⟨-, hne⟩
      · exact hhash heq.symm
      · exact hne rfl
    · rw [hscan] at hpass
      cases hpass
  · rintro o m rfl ho
    rw [filter_eq_true_iff ho, scan_iff_of_direct h (Text.tokens_ne_nil _) (Text.tokens_ne_nil _)]
    rfl

/-- The word after the `#` is at both ends of the subject. -/
theorem repeated_word_is_missed :
    OutgoingFromQueue.filter { subjectFilter := "#.a" } { encoding := some { routingKey := "a.b.a" } } =
      false ∧ Selects "#.a".toList "a.b.a".toList := by
  refine ⟨by decide +kernel, .inr (.inr ?_)⟩
  decide +kernel

end QB.Spec.Topic
