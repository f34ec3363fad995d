import Mathlib.Data.List.Find

/-!
# Searches that start at a place in a list

A search that starts at an index, or after the elements that come too early, is one for an
element that comes late enough (`find?_drop`, `find?_dropWhile`). Two such searches of a list find
the same if and only if they start on the same side of every element that is looked for
(`find?_and_eq_iff`).
-/

namespace QB.Search

open List

variable {α : Type} {l : List α} {f g g' : α → Bool}

theorem find?_drop {i : Nat} (hlt : ∀ j a, j < i → l[j]? = some a → g a = false)
    (hge : ∀ j a, i ≤ j → l[j]? = some a → g a = true) :
    (l.drop i).find? f = l.find? fun a => f a && g a := by
  induction l generalizing i with
  | nil => rw [drop_nil, find?_nil, find?_nil]
  | cons a l ih =>
    cases i with
    | zero =>
      have hall : ∀ x ∈ a :: l, g x = true := by
        intro x hx
        obtain ⟨j, hj⟩ := mem_iff_getElem?.1 hx
        exact hge j x (Nat.zero_le j) hj
      refine find?_congr fun x hx => ?_
      rw [hall x hx, Bool.and_true]
    | succ i =>
      have ha : g a = false := hlt 0 a (Nat.succ_pos i) rfl
      rw [find?_cons_of_neg (by simp [ha])]
      exact ih (fun j x hj hx => hlt (j + 1) x (by omega) hx) fun j x hj hx => hge (j + 1) x (by omega) hx

/-- The predicate holds from some place of the list on. -/
def Late (g : α → Bool) (l : List α) : Prop := l.Pairwise fun a b => g a = true → g b = true

theorem find?_dropWhile (hg : Late g l) : (l.dropWhile fun a => !g a).find? f = l.find? fun a => f a && g a := by
  induction l with
  | nil => rfl
  | cons a l ih =>
    obtain ⟨ha, hl⟩ := pairwise_cons.1 hg
    cases h : g a with
    | false =>
      rw [dropWhile_cons_of_pos (by simp [h]), find?_cons_of_neg (by simp [h]), ih hl]
    | true =>
      rw [dropWhile_cons_of_neg (by simp [h])]
      refine find?_congr fun x hx => ?_
      have hx : g x = true := by
        rcases mem_cons.1 hx with rfl | hx
        · exact h
        · exact ha x hx h
      rw [hx, Bool.and_true]

theorem find?_and_eq_iff (hg : Late g l) (hg' : Late g' l) :
    (l.find? (fun a => f a && g a) = l.find? fun a => f a && g' a) ↔
      ∀ a ∈ l, f a = true → (g a = true ↔ g' a = true) := by
  induction l with
  | nil => simp
  | cons a l ih =>
    obtain ⟨ha, hg⟩ := pairwise_cons.1 hg
    obtain ⟨ha', hg'⟩ := pairwise_cons.1 hg'
    rw [forall_mem_cons]
    cases hf : f a with
    | false =>
      rw [find?_cons_of_neg (by simp [hf]), find?_cons_of_neg (by simp [hf]), ih hg hg']
      simp
    | true =>
      -- the first element that is looked for decides
      cases h : g a with
      | false =>
        cases h' : g' a with
        | false =>
          rw [find?_cons_of_neg (by simp [h]), find?_cons_of_neg (by simp [h']), ih hg hg']
          simp
        | true =>
          rw [find?_cons_of_neg (by simp [h]), find?_cons_of_pos (by simp [hf, h'])]
          refine iff_of_false (fun hfind => ?_) fun hall => absurd ((hall.1 rfl).2 rfl) nofun
          have hmem := find?_some hfind
          simp only [h, Bool.and_false] at hmem
          exact absurd hmem nofun
      | true =>
        cases h' : g' a with
        | false =>
          rw [find?_cons_of_pos (by simp [hf, h])]
          refine iff_of_false (fun hfind => ?_) fun hall => absurd ((hall.1 rfl).1 rfl) nofun
          have hmem := find?_some hfind.symm
          simp only [h', Bool.and_false] at hmem
          exact absurd hmem nofun
        | true =>
          rw [find?_cons_of_pos (by simp [hf, h]), find?_cons_of_pos (by simp [hf, h'])]
          refine iff_of_true rfl ⟨fun _ => Iff.rfl, fun x hx _ => iff_of_true (ha x hx h) (ha' x hx h')⟩

end QB.Search
