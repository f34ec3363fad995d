import Mathlib.Data.List.Perm.Subperm
import Mathlib.Order.RelClasses
import QpidBroker.Framework.Assoc

/-!
# Maps as sorted lists

A map as the list of its entries in the order of their keys: a value is set
(`assign`), erased (`filter`) and looked up. Two maps with the same keys stay so
(`forall₂_assign`, `forall₂_filter`), and the same is found in them (`forall₂_lookup`).
-/

namespace QB.SortedMap

open List

variable {κ β : Type*} [LT κ]

/-- Each key is less than those after it. -/
def Sorted (l : List (κ × β)) : Prop := (l.map Prod.fst).Pairwise (· < ·)

theorem eq_of_not_lt [IsStrictTotalOrder κ (· < ·)] {a b : κ} (h : ¬ a < b) (h' : ¬ b < a) : a = b :=
  ((trichotomous_of (· < ·) a b).resolve_left h).resolve_right h'

section assign

variable [DecidableLT κ]

/-- Set the value of a key. -/
def assign (k : κ) (v : β) : List (κ × β) → List (κ × β)
  | [] => [(k, v)]
  | e :: l =>
    if k < e.1 then (k, v) :: e :: l
    else if e.1 < k then e :: assign k v l
    else (k, v) :: l

variable [IsStrictTotalOrder κ (· < ·)] {k k' : κ} {v : β} {l l' : List (κ × β)}

theorem mem_keys_assign : k' ∈ (assign k v l).map Prod.fst ↔ k' = k ∨ k' ∈ l.map Prod.fst := by
  induction l with
  | nil => simp [assign]
  | cons e l ih =>
    unfold assign
    split
    · simp
    rename_i h
    split
    · rw [map_cons, mem_cons, map_cons, mem_cons]
      tauto
    · rename_i h'
      rw [map_cons, mem_cons, map_cons, mem_cons, eq_of_not_lt h h']
      tauto

/-- Assigning keeps the order of the keys. -/
theorem Sorted.assign (h : Sorted l) : Sorted (assign k v l) := by
  induction l with
  | nil => exact pairwise_singleton _ _
  | cons e l ih =>
    obtain ⟨he, hl⟩ := pairwise_cons.1 h
    unfold SortedMap.assign
    split
    · rename_i hk
      refine pairwise_cons.2 ⟨?_, h⟩
      intro a ha
      rcases mem_cons.1 ha with rfl | ha
      · exact hk
      · exact trans_of (· < ·) hk (he a ha)
    rename_i h1
    split
    swap
    · rename_i h2
      rw [eq_of_not_lt h1 h2]
      exact pairwise_cons.2 ⟨he, hl⟩
    rename_i hk
    refine pairwise_cons.2 ⟨?_, ih hl⟩
    intro a ha
    rcases mem_keys_assign.1 ha with rfl | ha
    · exact hk
    · exact he a ha

/-- A key above all others is assigned at the end. -/
theorem assign_append (h : ∀ a ∈ l.map Prod.fst, a < k) : assign k v l = l ++ [(k, v)] := by
  induction l with
  | nil => rfl
  | cons e l ih =>
    have he : e.1 < k := h e.1 (by simp)
    rw [assign, if_neg (asymm he), if_pos he, ih fun a ha => h a (by simp [ha])]
    rfl

end assign

section members

variable {k : κ} {v : β} {l : List (κ × β)}

theorem mem_assign [DecidableLT κ] {e : κ × β} (h : e ∈ assign k v l) : e = (k, v) ∨ e ∈ l := by
  induction l with
  | nil => exact .inl (mem_singleton.1 h)
  | cons f l ih =>
    unfold assign at h
    split at h
    · exact mem_cons.1 h
    split at h
    · rcases mem_cons.1 h with rfl | h
      · exact .inr mem_cons_self
      · exact (ih h).imp_right (mem_cons_of_mem _)
    · exact (mem_cons.1 h).imp_right (mem_cons_of_mem _)

theorem Sorted.filter (h : Sorted l) (p : κ × β → Bool) : Sorted (l.filter p) :=
  List.Pairwise.sublist (filter_sublist.map Prod.fst) h

end members

section related

variable {γ : Type*} {R : κ × β → κ × γ → Prop} {l : List (κ × β)} {l' : List (κ × γ)}

/-- Assigning related values keeps maps related. -/
theorem forall₂_assign [DecidableLT κ] (hR : ∀ {e e'}, R e e' → e'.1 = e.1) {k : κ} {v : β} {w : γ}
    (hv : R (k, v) (k, w)) (h : List.Forall₂ R l l') : List.Forall₂ R (assign k v l) (assign k w l') := by
  induction h with
  | nil => exact .cons hv .nil
  | @cons e e' l l' he h ih =>
    unfold assign
    rw [hR he]
    split
    · exact .cons hv (.cons he h)
    · split
      · exact .cons he ih
      · exact .cons hv h

omit [LT κ] in
theorem forall₂_filter (hR : ∀ {e e'}, R e e' → e'.1 = e.1) (p : κ → Bool) (h : List.Forall₂ R l l') :
    List.Forall₂ R (l.filter fun e => p e.1) (l'.filter fun e => p e.1) := by
  induction h with
  | nil => exact .nil
  | @cons e e' l l' he h ih =>
    rw [filter_cons, filter_cons, hR he]
    split
    · exact .cons he ih
    · exact ih

omit [LT κ] in
/-- In related maps a key has related values, or none. -/
theorem forall₂_lookup [BEq κ] [LawfulBEq κ] (hR : ∀ {e e'}, R e e' → e'.1 = e.1) (k : κ)
    (h : List.Forall₂ R l l') :
    (l.lookup k = none ∧ l'.lookup k = none) ∨
      ∃ v w, l.lookup k = some v ∧ l'.lookup k = some w ∧ R (k, v) (k, w) := by
  induction h with
  | nil => exact .inl ⟨rfl, rfl⟩
  | @cons e e' l l' he h ih =>
    obtain ⟨a, v⟩ := e
    obtain ⟨a', w⟩ := e'
    obtain rfl : a' = a := hR he
    by_cases hk : k = a'
    · subst hk
      exact .inr ⟨v, w, Assoc.lookup_cons_self .., Assoc.lookup_cons_self .., he⟩
    · rwa [Assoc.lookup_cons_ne hk, Assoc.lookup_cons_ne hk]

end related

section lookup

variable [IsStrictTotalOrder κ (· < ·)] {l l' : List (κ × β)}

theorem Sorted.nodup (h : Sorted l) : (l.map Prod.fst).Nodup :=
  List.Pairwise.imp (fun {a b} (hlt : a < b) (heq : a = b) => irrefl_of (· < ·) b (heq ▸ hlt)) h

/-- Sorted lists of keys of one length are equal if one is within the other. -/
theorem Sorted.keys_eq (h : Sorted l) (h' : Sorted l') (hlen : l.length = l'.length)
    (hsub : ∀ a ∈ l.map Prod.fst, a ∈ l'.map Prod.fst) : l.map Prod.fst = l'.map Prod.fst := by
  have hperm : (l.map Prod.fst).Perm (l'.map Prod.fst) := by
    refine (subperm_of_subset h.nodup hsub).perm_of_length_le ?_
    rw [length_map, length_map]
    exact Nat.le_of_eq hlen.symm
  exact hperm.eq_of_pairwise (fun a b _ _ hab hba => absurd hba (asymm hab)) h h'

end lookup

end QB.SortedMap
