import Mathlib.Data.List.Infix

/-!
# Replacing the occurrences of a word

`replaceAll p r` passes once over a text from left to right and puts `r` in the place of
each occurrence of `p` that it finds, going on behind it.
-/

namespace QB

open List

variable {α : Type*} [DecidableEq α]

/-- The pass, while `skip` symbols of the occurrence found last are still to be left out. -/
def replaceFrom (p r : List α) : Nat → List α → List α
  | _, [] => []
  | skip + 1, _ :: t => replaceFrom p r skip t
  | 0, c :: t =>
    if p <+: c :: t then r ++ replaceFrom p r (p.length - 1) t else c :: replaceFrom p r 0 t

/-- The text with `r` for each occurrence of `p`, and the text itself for the empty word. -/
def replaceAll (p r t : List α) : List α := if p = [] then t else replaceFrom p r 0 t

variable {p r t : List α}

/-! ## Equations -/

@[simp] theorem replaceAll_nil (p r : List α) : replaceAll p r [] = [] := by
  unfold replaceAll
  split <;> rfl

theorem replaceFrom_skip (p r : List α) (skip : Nat) (t : List α) :
    replaceFrom p r skip t = replaceFrom p r 0 (t.drop skip) := by
  induction t generalizing skip with
  | nil => simp [replaceFrom]
  | cons c t ih =>
    cases skip with
    | zero => rfl
    | succ skip => rw [replaceFrom, ih, drop_succ_cons]

theorem replaceAll_append (hp : p ≠ []) (r t : List α) : replaceAll p r (p ++ t) = r ++ replaceAll p r t := by
  unfold replaceAll
  cases p with
  | nil => exact absurd rfl hp
  | cons c p =>
    have hpre : c :: p <+: c :: (p ++ t) := prefix_append (c :: p) t
    rw [cons_append, replaceFrom, replaceFrom_skip]
    simp

theorem replaceAll_cons {c : α} (h : ¬p <+: c :: t) (r : List α) :
    replaceAll p r (c :: t) = c :: replaceAll p r t := by
  unfold replaceAll
  split
  · rfl
  · rw [replaceFrom, if_neg h]

theorem replace_induction {motive : List α → Prop} (hp : p ≠ []) (nil : motive [])
    (hit : ∀ t, motive t → motive (p ++ t)) (miss : ∀ c t, ¬p <+: c :: t → motive t → motive (c :: t))
    (t : List α) : motive t := by
  -- on the length, as an occurrence may be longer than one symbol
  induction hn : t.length using Nat.strong_induction_on generalizing t with
  | _ n ih =>
    cases t with
    | nil => exact nil
    | cons c t =>
      by_cases h : p <+: c :: t
      swap
      · exact miss c t h (ih _ (by simp at hn; omega) t rfl)
      obtain ⟨t', ht'⟩ := h
      have hlen := congrArg List.length ht'
      have := length_pos_of_ne_nil hp
      rw [length_append] at hlen
      rw [← ht']
      exact hit t' (ih _ (by omega) t' rfl)

/-! ## Texts without occurrences -/

theorem replaceAll_of_not_infix (h : ¬p <:+: t) (r : List α) : replaceAll p r t = t := by
  induction t with
  | nil => exact replaceAll_nil p r
  | cons c t ih =>
    rw [replaceAll_cons fun hp => h hp.isInfix, ih fun hi => h (hi.trans (suffix_cons c t).isInfix)]

theorem replaceAll_append_of_not_prefix (a b : List α)
    (h : ∀ s, s <:+ a → s ≠ [] → ¬p <+: s ++ b) (r : List α) :
    replaceAll p r (a ++ b) = a ++ replaceAll p r b := by
  induction a with
  | nil => rfl
  | cons c a ih =>
    have hc : ¬p <+: c :: (a ++ b) := h (c :: a) suffix_rfl (cons_ne_nil c a)
    rw [cons_append, replaceAll_cons hc, ih fun s hs => h s (hs.trans (suffix_cons c a)), cons_append]

theorem mem_replaceAll {y : α} (h : y ∈ replaceAll p r t) : y ∈ r ∨ y ∈ t := by
  by_cases hp : p = []
  · exact .inr (by simpa [replaceAll, hp] using h)
  induction t using replace_induction hp with
  | nil => simp at h
  | hit t ih =>
    rw [replaceAll_append hp, mem_append] at h
    exact h.elim .inl fun h => (ih h).imp_right (mem_append_right p)
  | miss c t hc ih =>
    rw [replaceAll_cons hc, mem_cons] at h
    exact h.elim (fun h => .inr (h ▸ mem_cons_self)) fun h => (ih h).imp_right (mem_cons_of_mem c)

omit [DecidableEq α] in
theorem prefix_of_prefix_append_cons {x : α} (hx : x ∉ p) {a b : List α} (h : p <+: a ++ x :: b) : p <+: a := by
  rcases prefix_or_prefix_of_prefix h (prefix_append a (x :: b)) with h' | ⟨q, rfl⟩
  · exact h'
  rw [prefix_append_right_inj] at h
  cases q with
  | nil => simp
  | cons y q => exact absurd (by simp [(cons_prefix_cons.1 h).1]) hx

omit [DecidableEq α] in
theorem infix_append_cons {x : α} (hx : x ∉ p) {a b : List α} : p <:+: a ++ x :: b ↔ p <:+: a ∨ p <:+: b := by
  constructor
  · induction a with
    | nil =>
      intro h
      rcases infix_cons_iff.1 h with h | h
      · exact .inl (prefix_of_prefix_append_cons hx h).isInfix
      · exact .inr h
    | cons c a ih =>
      intro h
      rcases infix_cons_iff.1 h with h | h
      · exact .inl (prefix_of_prefix_append_cons hx h).isInfix
      · exact (ih h).imp_left fun h => h.trans (suffix_cons c a).isInfix
  · rintro (h | h)
    · exact h.trans (prefix_append a _).isInfix
    · exact h.trans ((suffix_cons x b).trans (suffix_append a _)).isInfix

theorem replaceAll_append_cons {x : α} (hx : x ∉ p) (r a b : List α) :
    replaceAll p r (a ++ x :: b) = replaceAll p r a ++ x :: replaceAll p r b := by
  by_cases hp : p = []
  · simp [replaceAll, hp]
  induction a using replace_induction hp with
  | nil =>
    have : ¬p <+: x :: b := fun h => hp (by simpa using prefix_of_prefix_append_cons (a := []) hx h)
    rw [nil_append, replaceAll_cons this, replaceAll_nil, nil_append]
  | hit a ih => rw [append_assoc, replaceAll_append hp, ih, replaceAll_append hp, append_assoc]
  | miss c a hc ih =>
    have : ¬p <+: c :: (a ++ x :: b) := fun h => hc (prefix_of_prefix_append_cons hx h)
    rw [cons_append, replaceAll_cons this, ih, replaceAll_cons hc, cons_append]

theorem replaceAll_singleton (x y : α) (t : List α) :
    replaceAll [x] [y] t = t.map fun z => if z = x then y else z := by
  induction t with
  | nil => simp
  | cons z t ih =>
    by_cases hz : z = x
    · subst hz
      have hhit := replaceAll_append (cons_ne_nil z []) [y] t
      rw [singleton_append] at hhit
      rw [hhit, ih]
      simp
    · rw [replaceAll_cons (by simpa [cons_prefix_cons] using Ne.symm hz), ih]
      simp [hz]

/-! ## Reading the replacement as the word -/

/-- What a text says does not change when a word is replaced by one that says the same. -/
theorem flatMap_replaceAll {β : Type*} (f : α → List β) (h : r.flatMap f = p.flatMap f) (t : List α) :
    (replaceAll p r t).flatMap f = t.flatMap f := by
  by_cases hp : p = []
  · simp [replaceAll, hp]
  induction t using replace_induction hp with
  | nil => simp
  | hit t ih => rw [replaceAll_append hp, flatMap_append, flatMap_append, h, ih]
  | miss c t hc ih => rw [replaceAll_cons hc, flatMap_cons, flatMap_cons, ih]

section Symbol

variable {x : α}

/-- A text with a word for each of the symbols `x`. -/
def unfoldAt (x : α) (p t : List α) : List α := t.flatMap fun y => if y = x then p else [y]

theorem unfoldAt_cons_self (x : α) (p t : List α) : unfoldAt x p (x :: t) = p ++ unfoldAt x p t := by
  simp [unfoldAt]

theorem unfoldAt_cons_ne {y : α} (h : y ≠ x) (p t : List α) : unfoldAt x p (y :: t) = y :: unfoldAt x p t := by
  simp [unfoldAt, h]

theorem unfoldAt_of_notMem (h : x ∉ t) (p : List α) : unfoldAt x p t = t := by
  induction t with
  | nil => rfl
  | cons y t ih =>
    obtain ⟨hne, hmem⟩ := not_or.1 (mt mem_cons.2 h)
    rw [unfoldAt_cons_ne (Ne.symm hne), ih hmem]

/-- Replacing a word by a symbol is undone by reading the symbol as the word. -/
theorem unfoldAt_replaceAll (hx : x ∉ p) (t : List α) (ht : x ∉ t) : unfoldAt x p (replaceAll p [x] t) = t := by
  calc unfoldAt x p (replaceAll p [x] t) = unfoldAt x p t :=
        flatMap_replaceAll _ (by simpa [unfoldAt] using (unfoldAt_of_notMem hx p).symm) t
    _ = t := unfoldAt_of_notMem ht p

/-- The word begins in the text, with itself for each `x`, only where an `x` stands. -/
def BeginsOnlyAt (x : α) (p t : List α) : Prop :=
  ∀ a y b, t = a ++ y :: b → y ≠ x → ¬p <+: y :: unfoldAt x p b

theorem beginsOnlyAt_cons {y : α} : BeginsOnlyAt x p (y :: t) ↔
    (y ≠ x → ¬p <+: y :: unfoldAt x p t) ∧ BeginsOnlyAt x p t := by
  constructor
  · refine fun h => ⟨h [] y t rfl, fun a z b hb => ?_⟩
    exact h (y :: a) z b (by rw [hb, cons_append])
  rintro ⟨hy, ht⟩ a z b hb
  cases a with
  | nil =>
    obtain ⟨rfl, rfl⟩ := List.cons.inj hb
    exact hy
  | cons y' a =>
    obtain ⟨rfl, rfl⟩ := List.cons.inj hb
    exact ht a z b rfl

/-- The pass finds again just the symbols that the word was put in for if and only if the
word begins nowhere else. -/
theorem replaceAll_unfoldAt (hp : p ≠ []) : replaceAll p [x] (unfoldAt x p t) = t ↔ BeginsOnlyAt x p t := by
  induction t with
  | nil => simp [unfoldAt, BeginsOnlyAt]
  | cons y t ih =>
    rw [beginsOnlyAt_cons, ← ih]
    by_cases hy : y = x
    · subst hy
      rw [unfoldAt_cons_self, replaceAll_append hp]
      simp
    rw [unfoldAt_cons_ne hy]
    constructor
    · intro h
      have hpre : ¬p <+: y :: unfoldAt x p t := by
        rintro ⟨t', ht'⟩
        rw [← ht', replaceAll_append hp] at h
        exact hy (List.cons.inj h).1.symm
      rw [replaceAll_cons hpre] at h
      exact ⟨fun _ => hpre, (List.cons.inj h).2⟩
    · rintro ⟨hpre, h⟩
      rw [replaceAll_cons (hpre hy), h]

theorem prefix_of_prefix_replaceAll {q : List α} (hx : x ∉ q) (h : q <+: replaceAll p [x] t) : q <+: t := by
  by_cases hp : p = []
  · simpa [replaceAll, hp] using h
  induction t using replace_induction hp generalizing q with
  | nil => simpa using h
  | hit t ih =>
    cases q with
    | nil => exact nil_prefix
    | cons y q =>
      rw [replaceAll_append hp, singleton_append, cons_prefix_cons] at h
      exact absurd (h.1 ▸ mem_cons_self) hx
  | miss c t hc ih =>
    cases q with
    | nil => exact nil_prefix
    | cons y q =>
      rw [replaceAll_cons hc, cons_prefix_cons] at h
      exact cons_prefix_cons.2 ⟨h.1, ih (not_mem_of_not_mem_cons hx) h.2⟩

theorem infix_of_infix_replaceAll {q : List α} (hx : x ∉ q) (h : q <:+: replaceAll p [x] t) : q <:+: t := by
  by_cases hp : p = []
  · simpa [replaceAll, hp] using h
  induction t using replace_induction hp with
  | nil => simpa using h
  | hit t ih =>
    rw [replaceAll_append hp, singleton_append, infix_cons_iff] at h
    rcases h with h | h
    · cases q with
      | nil => exact nil_infix
      | cons y q => exact absurd ((cons_prefix_cons.1 h).1 ▸ mem_cons_self) hx
    · exact (ih h).trans (suffix_append p t).isInfix
  | miss c t hc ih =>
    have hpre := prefix_of_prefix_replaceAll (p := p) (t := c :: t) hx
    rw [replaceAll_cons hc] at h hpre
    rcases infix_cons_iff.1 h with h | h
    · exact (hpre h).isInfix
    · exact (ih h).trans (suffix_cons c t).isInfix

/-- The pass leaves no occurrence. -/
theorem not_infix_replaceAll (hp : p ≠ []) (hx : x ∉ p) (t : List α) : ¬p <:+: replaceAll p [x] t := by
  induction t using replace_induction hp with
  | nil => simpa using hp
  | hit t ih =>
    rw [replaceAll_append hp, singleton_append, infix_cons_iff]
    rintro (h | h)
    · obtain ⟨y, p, rfl⟩ := exists_cons_of_ne_nil hp
      exact absurd ((cons_prefix_cons.1 h).1 ▸ mem_cons_self) hx
    · exact ih h
  | miss c t hc ih =>
    have hpre := prefix_of_prefix_replaceAll (p := p) (t := c :: t) hx
    rw [replaceAll_cons hc] at hpre ⊢
    rw [infix_cons_iff]
    exact fun h => h.elim (fun h => hc (hpre h)) ih

end Symbol

end QB
