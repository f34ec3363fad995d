import Mathlib.Logic.Function.Basic

/-!
# Inverse indices

Objects some of which have a key, and a map from keys that finds them
(`Inverse`). When an object gets another key, or loses it, its old key is taken
out of the map and its new one is put in (`rekey`, `Inverse.rekey`).
-/

namespace QB

variable {K A : Type}

/-- `f` finds the objects by their keys. -/
def Inverse (f : K → Option A) (key : A → Option K) : Prop := ∀ p a, f p = some a ↔ key a = some p

/-- The map when the key `old` of `a` becomes `new`. -/
def rekey [DecidableEq K] (f : K → Option A) (old new : Option K) (a : A) : K → Option A := fun p =>
  if new = some p then some a else if old = some p then none else f p

variable {f : K → Option A} {key : A → Option K} {a b : A}

theorem Inverse.injective (h : Inverse f key) {p : K} (ha : key a = some p) (hb : key b = some p) : a = b := by
  have := ((h p a).2 ha).symm.trans ((h p b).2 hb)
  simpa using this

theorem Inverse.eq_none_iff (h : Inverse f key) {p : K} : f p = none ↔ ∀ a, key a ≠ some p := by
  constructor
  · intro hp a ha
    rw [(h p a).2 ha] at hp
    cases hp
  intro hp
  cases hf : f p with
  | none => rfl
  | some a => exact absurd ((h p a).1 hf) (hp a)

theorem Inverse.rekey [DecidableEq K] [DecidableEq A] (h : Inverse f key) {new : Option K}
    (hnew : ∀ p, new = some p → ∀ b, b ≠ a → key b ≠ some p) :
    Inverse (rekey f (key a) new a) (Function.update key a new) := by
  intro p b
  unfold QB.rekey
  by_cases hb : b = a
  · subst hb
    by_cases hn : new = some p
    · simp [hn]
    by_cases ho : key b = some p
    · simp [ho]
    · simp [h p b]
  rw [Function.update_of_ne hb]
  by_cases hn : new = some p
  · have := hnew p hn b hb
    simp [hn, this, Ne.symm hb]
  rw [if_neg hn]
  by_cases ho : key a = some p
  · rw [if_pos ho]
    simp only [reduceCtorEq, false_iff]
    exact fun hk => hb (h.injective hk ho)
  · rw [if_neg ho]
    exact h p b

theorem rekey_same [DecidableEq K] (h : Inverse f key) : rekey f (key a) (key a) a = f := by
  funext p
  unfold rekey
  split
  · rename_i hp
    exact ((h p a).2 hp).symm
  · rfl

theorem rekey_none_none [DecidableEq K] : rekey f none none a = f := by
  funext p
  simp [rekey]

theorem rekey_none [DecidableEq K] (p : K) : rekey f none (some p) a = Function.update f p (some a) := by
  funext q
  by_cases hq : q = p
  · simp [rekey, hq]
  · simp [rekey, hq, Ne.symm hq]

theorem rekey_some [DecidableEq K] (p : K) : rekey f (some p) none a = Function.update f p none := by
  funext q
  by_cases hq : q = p
  · simp [rekey, hq]
  · simp [rekey, hq, Ne.symm hq]

theorem rekey_some_some [DecidableEq K] (p q : K) :
    rekey f (some p) (some q) a = Function.update (Function.update f p none) q (some a) := by
  funext k
  by_cases hq : k = q
  · simp [rekey, hq]
  by_cases hp : k = p
  · subst hp
    simp [rekey, hq, Ne.symm hq]
  · simp [rekey, hp, hq, Ne.symm hp, Ne.symm hq]

/-- Two changes of a key are one, if the key between them was the first or none. -/
theorem rekey_rekey [DecidableEq K] {old between new : Option K} (h : between = none ∨ between = old) :
    rekey (rekey f old between a) between new a = rekey f old new a := by
  funext p
  rcases h with rfl | rfl
  · simp [rekey]
  unfold rekey
  split
  · rfl
  · split <;> rfl

end QB
