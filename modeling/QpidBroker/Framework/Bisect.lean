import Mathlib.Data.List.Basic

/-!
# Binary search

The search of `std::lower_bound` for the first element of a list that a predicate
fails on. On a list that starts with elements it holds on and goes on with elements it
fails on, the place between the two is found (`lowerBound_append`).
-/

namespace QB

open List

variable {α : Type}

/-- The search among the `len` elements from `first` on. -/
def lowerBoundLoop (p : α → Bool) (l : List α) : Nat → Nat → Nat → Nat
  | 0, first, _ => first
  | fuel + 1, first, len =>
    if len = 0 then first
    else
      if (l[first + len / 2]?).any p then lowerBoundLoop p l fuel (first + len / 2 + 1) (len - len / 2 - 1)
      else lowerBoundLoop p l fuel first (len / 2)

/-- The number of elements before the first one that `p` fails on, in a list where no
element that `p` holds on comes after one that it fails on. -/
def lowerBound (p : α → Bool) (l : List α) : Nat := lowerBoundLoop p l l.length 0 l.length

theorem lowerBoundLoop_eq {p : α → Bool} {l : List α} {k : Nat}
    (hlt : ∀ i a, i < k → l[i]? = some a → p a = true)
    (hge : ∀ i a, k ≤ i → l[i]? = some a → p a = false) {fuel first len : Nat} (hfuel : len ≤ fuel)
    (hfirst : first ≤ k) (hlen : k ≤ first + len) (hl : first + len ≤ l.length) :
    lowerBoundLoop p l fuel first len = k := by
  induction fuel generalizing first len with
  | zero =>
    rw [lowerBoundLoop]
    omega
  | succ fuel ih =>
    rw [lowerBoundLoop]
    split
    · omega
    -- the place is on one side of the element in the middle
    obtain ⟨a, ha⟩ : ∃ a, l[first + len / 2]? = some a := ⟨_, getElem?_eq_getElem (by omega)⟩
    rw [ha, Option.any_some]
    by_cases hk : first + len / 2 < k
    · rw [if_pos (hlt _ a hk ha)]
      exact ih (by omega) (by omega) (by omega) (by omega)
    · rw [if_neg (by rw [hge _ a (by omega) ha]; decide)]
      exact ih (by omega) (by omega) (by omega) (by omega)

theorem lowerBound_le (p : α → Bool) (l : List α) : lowerBound p l ≤ l.length := by
  have hloop : ∀ fuel first len, first + len ≤ l.length → lowerBoundLoop p l fuel first len ≤ l.length := by
    intro fuel
    induction fuel with
    | zero =>
      intro first len h
      rw [lowerBoundLoop]
      omega
    | succ fuel ih =>
      intro first len h
      rw [lowerBoundLoop]
      split
      · omega
      · split
        · exact ih _ _ (by omega)
        · exact ih _ _ (by omega)
  exact hloop _ 0 _ (by omega)

theorem lowerBound_append {p : α → Bool} {pre post : List α} (hpre : ∀ a ∈ pre, p a = true)
    (hpost : ∀ a ∈ post, p a = false) : lowerBound p (pre ++ post) = pre.length := by
  refine lowerBoundLoop_eq (fun i a hi ha => ?_) (fun i a hi ha => ?_) (Nat.le_refl _) (Nat.zero_le _)
    (by simp) (by simp)
  · rw [getElem?_append_left hi] at ha
    exact hpre a (mem_of_getElem? ha)
  · rw [getElem?_append_right hi] at ha
    exact hpost a (mem_of_getElem? ha)

end QB
