import Mathlib.Data.List.Nodup

/-!
# Lists of entries

A list of entries as a map: what is looked up in it after entries were removed or changed,
and what the lookup says of the entries when each has a key of its own.
-/

namespace QB.Assoc

open List

variable {κ β : Type*} [BEq κ] [LawfulBEq κ] {l : List (κ × β)} {k : κ} {v : β}

theorem lookup_cons_self (k : κ) (v : β) (l : List (κ × β)) : ((k, v) :: l).lookup k = some v := by
  rw [lookup_cons, beq_self_eq_true]

theorem lookup_cons_ne {k k' : κ} (h : k ≠ k') (v : β) (l : List (κ × β)) :
    ((k', v) :: l).lookup k = l.lookup k := by
  rw [lookup_cons, beq_eq_false_iff_ne.2 h]

theorem lookup_eq_none_of_notMem (h : k ∉ l.map Prod.fst) : l.lookup k = none := by
  rw [lookup_eq_none_iff]
  intro e he
  have : k ≠ e.1 := fun h' => h (h' ▸ mem_map_of_mem he)
  simpa using this

/-- A key is found if and only if there is an entry with it. -/
theorem lookup_isSome_iff : (l.lookup k).isSome ↔ k ∈ l.map Prod.fst := by
  induction l with
  | nil => simp
  | cons e l ih =>
    obtain ⟨a, b⟩ := e
    by_cases hk : k = a
    · simp
    · rw [lookup_cons_ne hk, ih, map_cons, mem_cons]
      exact ⟨.inr, fun h => h.resolve_left hk⟩

/-- With one entry for each key, the lookup finds every entry. -/
theorem mem_iff_lookup (hl : (l.map Prod.fst).Nodup) : (k, v) ∈ l ↔ l.lookup k = some v := by
  induction l with
  | nil => simp
  | cons e l ih =>
    obtain ⟨k', v'⟩ := e
    obtain ⟨hnot, hl⟩ := nodup_cons.1 hl
    by_cases hk : k = k'
    · subst hk
      have : (k, v) ∉ l := fun hv => hnot (mem_map.2 ⟨_, hv, rfl⟩)
      simp [this, eq_comm]
    · simp [lookup_cons_ne hk, hk, ih hl]

variable [DecidableEq κ]

/-- What is found after the entries with a key are erased. -/
theorem lookup_filter_ne (k k' : κ) (l : List (κ × β)) :
    (l.filter (·.1 ≠ k)).lookup k' = if k' = k then none else l.lookup k' := by
  induction l with
  | nil => simp
  | cons e l ih =>
    obtain ⟨a, v⟩ := e
    by_cases ha : a = k
    · subst ha
      rw [filter_cons_of_neg (by simp), ih]
      split
      · rfl
      · next h => rw [lookup_cons_ne h]
    rw [filter_cons_of_pos (by simpa using ha)]
    by_cases hka : k' = a
    · subst hka
      rw [lookup_cons_self, lookup_cons_self, if_neg ha]
    · rw [lookup_cons_ne hka, lookup_cons_ne hka, ih]

/-- What is found after the entries with a key are changed. -/
theorem lookup_map (k k' : κ) (f : β → β) (l : List (κ × β)) :
    (l.map fun e => if e.1 = k then (e.1, f e.2) else e).lookup k' =
      (l.lookup k').map fun v => if k' = k then f v else v := by
  induction l with
  | nil => rfl
  | cons e l ih =>
    obtain ⟨a, v⟩ := e
    have hcons : (if a = k then (a, f v) else (a, v)) = (a, if a = k then f v else v) := by
      split <;> rfl
    rw [map_cons]
    simp only [hcons]
    by_cases hka : k' = a
    · subst hka
      rw [lookup_cons_self, lookup_cons_self, Option.map_some]
    · rw [lookup_cons_ne hka, lookup_cons_ne hka, ih]

/-- At most one entry has the key. -/
theorem filter_key (hl : (l.map Prod.fst).Nodup) (k : κ) :
    l.filter (·.1 = k) = ((l.lookup k).map (k, ·)).toList := by
  induction l with
  | nil => rfl
  | cons e l ih =>
    obtain ⟨a, v⟩ := e
    obtain ⟨he, hl⟩ := nodup_cons.1 hl
    by_cases hk : a = k
    · subst hk
      have : l.filter (·.1 = a) = [] :=
        filter_eq_nil_iff.2 fun b hb h => he (mem_map.2 ⟨b, hb, of_decide_eq_true h⟩)
      simp [this]
    · rw [filter_cons_of_neg (by simpa using hk), lookup_cons_ne (Ne.symm hk), ih hl]

theorem perm_cons_filter (hl : (l.map Prod.fst).Nodup) (h : l.lookup k = some v) :
    l.Perm ((k, v) :: l.filter (·.1 ≠ k)) := by
  have hk : l.filter (·.1 = k) = [(k, v)] := by rw [filter_key hl, h]; rfl
  have hsplit := filter_append_perm (fun e : κ × β => decide (e.1 = k)) l
  rw [hk] at hsplit
  simpa using hsplit.symm

/-- Elements are appended unless they are there already. -/
theorem foldl_insert {α : Type*} [DecidableEq α] (l : List α) {b : List α} (hb : b.Nodup) :
    (l.foldl (fun b a => if a ∈ b then b else b ++ [a]) b).Nodup ∧
      ∀ x, x ∈ l.foldl (fun b a => if a ∈ b then b else b ++ [a]) b ↔ x ∈ b ∨ x ∈ l := by
  induction l generalizing b with
  | nil => simpa using hb
  | cons a l ih =>
    rw [foldl_cons]
    by_cases ha : a ∈ b
    · rw [if_pos ha]
      refine ⟨(ih hb).1, fun x => (ih hb).2 x |>.trans ?_⟩
      rw [mem_cons, ← or_assoc, or_iff_left_of_imp (b := x = a)]
      rintro rfl
      exact ha
    rw [if_neg ha]
    have hb' : (b ++ [a]).Nodup := hb.append (nodup_singleton _) (disjoint_singleton.2 ha)
    refine ⟨(ih hb').1, fun x => (ih hb').2 x |>.trans ?_⟩
    simp [or_assoc]

end QB.Assoc
