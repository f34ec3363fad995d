import Mathlib.Data.List.Chain
import Mathlib.Data.BitVec

/-!
# Serial numbers of 32 bits

Numbers that wrap around, compared by the sign of their difference. The
number of steps from one up to another (`dist`) says which is ahead
(`Ahead`: by less than half of the numbers), and a list of consecutive
numbers no longer than half of them (`Window`) is indexed by it: the element
at distance `i` from the first is the one at index `i` (`Window.getElem?_eq_some_iff`).
-/

namespace QB.Serial

open List

/-- A 32-bit serial number. -/
abbrev Num := BitVec 32

/-- The number of steps from `a` up to `b`. -/
def dist (a b : Num) : Nat := (b - a).toNat

/-- `b` is ahead of `a`, by less than half of the numbers. -/
def Ahead (a b : Num) : Prop := 0 < dist a b ∧ dist a b < 2 ^ 31

instance (a b : Num) : Decidable (Ahead a b) := inferInstanceAs (Decidable (_ ∧ _))

theorem dist_self (a : Num) : dist a a = 0 := by simp [dist]

theorem dist_add (a : Num) {n : Nat} (h : n < 2 ^ 32) : dist a (a + BitVec.ofNat 32 n) = n := by
  simp only [dist]; bv_omega

theorem add_dist (a b : Num) : a + BitVec.ofNat 32 (dist a b) = b := by
  simp only [dist]; bv_omega

/-- The signed difference is negative for the farther half. -/
theorem toInt_sub_neg_iff (a b : Num) : (a - b).toInt < 0 ↔ 2 ^ 31 ≤ dist b a := by
  rw [BitVec.toInt_eq_toNat_cond]
  simp only [dist]
  split <;> omega

variable {a b : Num}

theorem toInt_sub_of_lt (h : dist b a < 2 ^ 31) : (a - b).toInt = dist b a := by
  rw [BitVec.toInt_eq_toNat_cond]
  simp only [dist] at *
  split <;> omega

/-- One step more, unless it comes round. -/
theorem dist_add_one (h : dist a b + 1 < 2 ^ 32) : dist a (b + 1) = dist a b + 1 := by
  simp only [dist] at *; bv_omega

theorem Ahead.ne (h : Ahead a b) : a ≠ b := fun e => by
  simp [Ahead, e, dist_self] at h

/-- Consecutive numbers, upwards. -/
def Consec (l : List Num) : Prop := l.IsChain fun a b => b = a + 1

theorem Consec.nil : Consec [] := isChain_nil

variable {l : List Num}

theorem Consec.drop (h : Consec l) (n : Nat) : Consec (l.drop n) :=
  List.IsChain.drop h n

/-- The number at an index is that many steps from the first. -/
theorem Consec.getElem?_eq {p : Num} (h : Consec l) (ha : l.head? = some a)
    {i : Nat} (hi : l[i]? = some p) : p = a + BitVec.ofNat 32 i := by
  induction l generalizing a i with
  | nil => simp at ha
  | cons b l ih =>
    obtain rfl : b = a := by simpa using ha
    cases i with
    | zero => simpa using hi.symm
    | succ i =>
      cases l with
      | nil => simp at hi
      | cons c l =>
        obtain ⟨hc, hl⟩ := isChain_cons_cons.1 h
        rw [ih hl rfl (by simpa using hi)]
        bv_omega

theorem Consec.append_singleton (h : Consec l) (hb : ∀ a ∈ l.getLast?, b = a + 1) : Consec (l ++ [b]) := by
  refine isChain_append.2 ⟨h, isChain_singleton _, fun x hx y hy => ?_⟩
  simp only [head?_cons, Option.mem_def, Option.some.injEq] at hy
  rw [← hy]; exact hb x hx

/-- Consecutive numbers, inside one half of all numbers. -/
structure Window (l : List Num) : Prop where
  consec : Consec l
  length_le : l.length ≤ 2 ^ 31

namespace Window

theorem nil : Window [] := ⟨Consec.nil, by simp⟩

variable {l : List Num}

theorem drop (h : Window l) (n : Nat) : Window (l.drop n) :=
  ⟨h.consec.drop n, by have := h.length_le; simp; omega⟩

theorem of_prefix {l' : List Num} (h : Window l) (hp : l' <+: l) : Window l' where
  consec := List.IsChain.prefix h.consec hp
  length_le := hp.length_le.trans h.length_le

/-- The index of a number is its distance from the first. -/
theorem getElem?_eq_some_iff (h : Window l) {a p : Num} (ha : l.head? = some a) {i : Nat} :
    l[i]? = some p ↔ i < l.length ∧ dist a p = i := by
  have hl := h.length_le
  constructor
  · intro hi
    have hlt := (List.getElem?_eq_some_iff.1 hi).1
    refine ⟨hlt, ?_⟩
    rw [h.consec.getElem?_eq ha hi, dist_add _ (by omega)]
  · rintro ⟨hi, hd⟩
    rw [getElem?_eq_getElem hi, h.consec.getElem?_eq ha (getElem?_eq_getElem hi), ← hd, add_dist]

/-- Later in a window is ahead. -/
theorem ahead (h : Window l) {i j : Nat} {p q : Num} (hij : i < j) (hi : l[i]? = some p)
    (hj : l[j]? = some q) : Ahead p q := by
  have hl := h.length_le
  have hlt := (List.getElem?_eq_some_iff.1 hj).1
  obtain ⟨a, ha⟩ : ∃ a, l.head? = some a := by cases l <;> simp_all
  rw [h.consec.getElem?_eq ha hi, h.consec.getElem?_eq ha hj]
  simp only [Ahead, dist]; bv_omega

theorem pairwise (h : Window l) : l.Pairwise Ahead :=
  pairwise_iff_getElem.2 fun _ _ hi hj hij =>
    h.ahead hij (getElem?_eq_getElem hi) (getElem?_eq_getElem hj)

theorem getElem?_inj (h : Window l) {i j : Nat} {p : Num} (hi : l[i]? = some p) (hj : l[j]? = some p) : i = j := by
  rcases Nat.lt_trichotomy i j with hij | hij | hij
  · exact absurd rfl (h.ahead hij hi hj).ne
  · exact hij
  · exact absurd rfl (h.ahead hij hj hi).ne

theorem nodup (h : Window l) : l.Nodup := by
  refine nodup_iff_getElem?_ne_getElem?.2 fun i j hij hj e => ?_
  rw [getElem?_eq_getElem hj] at e
  exact absurd (h.getElem?_inj e (getElem?_eq_getElem hj)) (by omega)

end Window

end QB.Serial
