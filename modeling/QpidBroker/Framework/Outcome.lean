import Mathlib.Tactic.Common

/-!
# Computations that can fail

What a sequence of computations returns (`bind_eq_ok`) or fails with
(`bind_eq_error`), where the results of a list of computations come from
(`exists_of_mem_mapM`), what holds of whatever a computation returns (`Ensures`), and
computations that return a known value just under a condition (`Agrees`).
-/

namespace QB

open List

variable {ε α β : Type}

@[simp] theorem ok_bind (a : α) (f : α → Except ε β) : (Except.ok a >>= f) = f a := rfl

@[simp] theorem error_bind (e : ε) (f : α → Except ε β) :
    ((Except.error e : Except ε α) >>= f) = .error e := rfl

@[simp] theorem pure_eq_ok (a : α) : (pure a : Except ε α) = .ok a := rfl

theorem bind_eq_ok {x : Except ε α} {f : α → Except ε β} {b : β} :
    x >>= f = .ok b ↔ ∃ a, x = .ok a ∧ f a = .ok b := by
  cases x <;> simp

theorem bind_eq_error {x : Except ε α} {f : α → Except ε β} {e : ε} :
    x >>= f = .error e ↔ x = .error e ∨ ∃ a, x = .ok a ∧ f a = .error e := by
  cases x <;> simp

theorem map_eq_ok {x : Except ε α} {f : α → β} {b : β} : x.map f = .ok b ↔ ∃ a, x = .ok a ∧ f a = b := by
  cases x <;> simp [Except.map]

theorem isOk_iff {x : Except ε α} : x.isOk = true ↔ ∃ a, x = .ok a := by
  cases x <;> simp [Except.toBool]

/-- What a traversal returns comes from the elements. -/
theorem exists_of_mem_mapM {f : α → Option β} {l : List α} {l' : List β} (h : l.mapM f = some l') {b : β}
    (hb : b ∈ l') : ∃ a ∈ l, f a = some b := by
  induction l generalizing l' with
  | nil =>
    rw [← Option.some.inj h] at hb
    cases hb
  | cons a l ih =>
    rw [mapM_cons] at h
    obtain ⟨b1, hb1, h⟩ := Option.bind_eq_some_iff.1 h
    obtain ⟨l1, hl1, h⟩ := Option.bind_eq_some_iff.1 h
    rw [← Option.some.inj h] at hb
    rcases mem_cons.1 hb with rfl | hb
    · exact ⟨a, mem_cons_self .., hb1⟩
    · obtain ⟨a', ha', hf⟩ := ih hl1 hb
      exact ⟨a', mem_cons_of_mem _ ha', hf⟩

/-- Whatever the computation returns meets `P`. -/
def Ensures (P : α → Prop) (x : Except ε α) : Prop := ∀ a, x = .ok a → P a

namespace Ensures

variable {P : α → Prop} {Q : β → Prop} {x y : Except ε α}

theorem ok {a : α} (h : P a) : Ensures P (.ok a : Except ε α) := fun _ e => Except.ok.inj e ▸ h

theorem error {e : ε} : Ensures P (.error e) := nofun

theorem bind {f : α → Except ε β} (h : ∀ a, x = .ok a → Ensures Q (f a)) : Ensures Q (x >>= f) := by
  intro b hb
  obtain ⟨a, ha, hf⟩ := bind_eq_ok.1 hb
  exact h a ha b hf

/-- Both branches have to ensure it. -/
theorem ite {c : Prop} [Decidable c] (hx : Ensures P x) (hy : Ensures P y) : Ensures P (if c then x else y) := by
  split
  · exact hx
  · exact hy

/-- A fold keeps what each step ensures. -/
theorem foldlM {f : α → β → Except ε α} (hf : ∀ a b, P a → Ensures P (f a b)) {a : α}
    (ha : P a) (l : List β) :
    Ensures P (l.foldlM f a) := by
  induction l generalizing a with
  | nil => exact .ok ha
  | cons b l ih => exact .bind fun a' ha' => ih (hf a b ha a' ha')

end Ensures

/-- A computation that returns `v` if `p`, and fails if not. -/
def Agrees {ε α : Type} (x : Except ε α) (p : Prop) (v : α) : Prop :=
  (p → x = .ok v) ∧ (¬ p → ∃ t, x = .error t)

namespace Agrees

variable {ε α β : Type} {x : Except ε α} {p q : Prop} {v w : α}

theorem pure (v : α) : Agrees (Pure.pure v : Except ε α) True v := ⟨fun _ => rfl, fun h => absurd trivial h⟩

variable {f : α → Except ε β}

/-- The second part is only asked where the first is defined. -/
theorem bind {b : β} (hx : Agrees x p v) (hf : Agrees (f v) q b) : Agrees (x >>= f) (p ∧ q) b := by
  by_cases hp : p
  · rw [hx.1 hp]
    exact ⟨fun h => hf.1 h.2, fun h => hf.2 fun hq => h ⟨hp, hq⟩⟩
  · obtain ⟨t, ht⟩ := hx.2 hp
    rw [ht]
    exact ⟨fun h => absurd h.1 hp, fun _ => ⟨t, rfl⟩⟩

theorem done {b : β} (hx : Agrees x p v) (hf : f v = Pure.pure b) : Agrees (x >>= f) p b := by
  refine ⟨fun h => by rw [hx.1 h]; exact hf, fun h => ?_⟩
  obtain ⟨t, ht⟩ := hx.2 h
  exact ⟨t, by rw [ht]; rfl⟩

/-- Where the guard holds, the rest is not reached. -/
theorem guarded {c : Prop} [Decidable c] (hc : c → w = v) (hx : ¬ c → Agrees x q v) :
    Agrees (if c then Pure.pure w else x) (¬ c → q) v := by
  by_cases h : c
  · rw [if_pos h, hc h]
    exact ⟨fun _ => rfl, fun hn => absurd (fun hc => absurd h hc) hn⟩
  · rw [if_neg h]
    exact ⟨fun hq => (hx h).1 (hq h), fun hn => (hx h).2 fun hq => hn fun _ => hq⟩

theorem map (f : α → β) (hx : Agrees x p v) : Agrees (f <$> x) p (f v) := by
  exact hx.done rfl

/-- The condition and the value may be given otherwise. -/
theorem congr (hx : Agrees x p v) (hp : q ↔ p) (hv : q → w = v) : Agrees x q w :=
  ⟨fun h => hv h ▸ hx.1 (hp.1 h), fun h => hx.2 fun hq => h (hp.2 hq)⟩

end Agrees

end QB
