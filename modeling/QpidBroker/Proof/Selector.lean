import QpidBroker.Framework.Outcome
import QpidBroker.Spec.Selector

/-!
# Evaluation of selectors

The evaluation of an expression traps just if a division that it reaches does,
and otherwise its result is the value of the expression (`eval_agrees`).
-/

namespace QB.Impl.Selector

open QB.Spec.Selector

variable {D : Type} [Machine D]

/-- The division of integers traps exactly where the quotient is not defined. -/
theorem divide_agrees (i j : BitVec 64) : Agrees (Value.divide i j) (Divides i j) (i.sdiv j) := by
  unfold Value.divide Divides
  by_cases h0 : j = 0
  · rw [if_pos h0]
    exact ⟨fun h => absurd h0 h.1, fun _ => ⟨_, rfl⟩⟩
  rw [if_neg h0]
  by_cases h1 : i = BitVec.intMin 64 ∧ j = -1
  · rw [if_pos h1]
    exact ⟨fun h => absurd h1 h.2, fun _ => ⟨_, rfl⟩⟩
  · rw [if_neg h1]
    exact ⟨fun _ => rfl, fun h => absurd ⟨h0, h1⟩ h⟩

omit [Machine D] in
theorem applies_div (i j : BitVec 64) : Applies .div (.exact i : Value D) (.exact j) ↔ Divides i j := by
  refine ⟨fun h => h i j rfl rfl rfl, ?_⟩
  rintro h _ _ - hi hj
  cases hi
  cases hj
  exact h

/-- Of all operations on values only the division of integers can trap. -/
theorem applies_other {op : Value.ArithmeticOperator} {v1 v2 : Value D}
    (h : op = .div → ∀ i j, Value.promoteNumeric v1 v2 ≠ some (.exact i j)) : Applies op v1 v2 := by
  rintro i j hop rfl rfl
  exact absurd rfl (h hop i j)

theorem arithmetic_agrees (op : Value.ArithmeticOperator) (v1 v2 : Value D) :
    Agrees (Value.arithmetic op v1 v2) (Applies op v1 v2) (arithmetic op v1 v2) := by
  unfold Value.arithmetic arithmetic
  rcases hp : Value.promoteNumeric v1 v2 with _ | ⟨i, j⟩ | ⟨x, y⟩
  · exact (Agrees.pure _).congr (iff_true_intro (applies_other (by simp [hp]))) fun _ => rfl
  · cases op with
    | div =>
      have hv : v1 = .exact i ∧ v2 = .exact j := by
        cases v1 <;> cases v2 <;> simp_all [Value.promoteNumeric]
      obtain ⟨rfl, rfl⟩ := hv
      exact ((divide_agrees i j).map Value.exact).congr (applies_div i j) fun h => if_pos ((applies_div i j).1 h)
    | _ => exact (Agrees.pure _).congr (iff_true_intro (applies_other (by simp))) fun _ => rfl
  · have hn : Applies op v1 v2 := applies_other (by simp [hp])
    cases op <;> exact (Agrees.pure _).congr (iff_true_intro hn) fun _ => rfl

/-! ## Connectives -/

omit [Machine D] in
theorem comparison_true (c : Value D → Value D → Bool) (v1 v2 : Value D) :
    comparison c v1 v2 = .true ↔ v1.isUnknown = false ∧ v2.isUnknown = false ∧ c v1 v2 = true := by
  unfold comparison
  cases h1 : v1.isUnknown <;> cases h2 : v2.isUnknown <;> cases h : c v1 v2 <;> simp [BoolOrNone.ofBool]

mutual
/-- The evaluation is lazy: an operand that is not reached may trap. The induction is over the
expression. -/
theorem eval_agrees (env : Env D) : (e : Expression D) → Agrees (e.eval env) (Safe env e) (value env e)
  | .comparison op e1 e2 => by
    rw [Expression.eval, Safe, value]
    refine .bind (eval_agrees env e1) (.guarded (fun h => ?_) fun h => .done (eval_agrees env e2) ?_)
    · simp [comparison, h, Value.ofBoolOrNone]
    · rw [Bool.not_eq_true] at h
      cases h2 : (value env e2).isUnknown <;> cases hc : op.apply (value env e1) (value env e2) <;>
        simp [comparison, h, h2, hc, Value.ofBoolOrNone, BoolOrNone.ofBool]
  | .or e1 e2 => by
    rw [Expression.eval, Safe, value]
    refine .bind (eval_agrees env e1) (.guarded (fun h => ?_) fun h => .done (eval_agrees env e2) ?_)
    · rw [h]
      rfl
    · revert h
      cases (value env e1).toBoolOrNone <;> cases (value env e2).toBoolOrNone <;> simp [orElse, Value.ofBoolOrNone]
  | .and e1 e2 => by
    rw [Expression.eval, Safe, value]
    refine .bind (eval_agrees env e1) (.guarded (fun h => ?_) fun h => .done (eval_agrees env e2) ?_)
    · rw [h]
      rfl
    · revert h
      cases (value env e1).toBoolOrNone <;> cases (value env e2).toBoolOrNone <;>
        simp [andAlso, orElse, negation, Value.ofBoolOrNone]
  | .unaryBoolean .isNull e => by
    rw [Expression.eval, Safe, value]
    exact .done (eval_agrees env e) rfl
  | .unaryBoolean .isNonNull e => by
    rw [Expression.eval, Safe, value]
    exact .done (eval_agrees env e) rfl
  | .unaryBoolean .not e => by
    rw [Expression.eval, Safe, value]
    refine .done (eval_agrees env e) ?_
    cases (value env e).toBoolOrNone <;> rfl
  | .like e reString => by
    rw [Expression.eval, Safe, value]
    refine .done (eval_agrees env e) ?_
    cases value env e <;> rfl
  | .between e l u => by
    rw [Expression.eval, Safe, value]
    refine .bind (eval_agrees env e) (.guarded (fun h => ?_) fun he => .bind (eval_agrees env l)
      ((Agrees.guarded (fun h => ?_) fun h => .done (eval_agrees env u) ?_).congr ?_ fun _ => rfl))
    · rw [if_pos h]
      rfl
    all_goals rw [Bool.not_eq_true] at he
    · simp only [Bool.and_eq_true, Bool.not_eq_true'] at h
      rw [he, (comparison_true _ _ _).2 ⟨he, h⟩]
      rfl
    · cases hl : (value env l).isUnknown <;> cases hls : Value.ls (value env e) (value env l) <;>
        cases hu : (value env u).isUnknown <;> cases hgr : Value.gr (value env e) (value env u) <;>
        simp_all [comparison, BoolOrNone.ofBool, andAlso, orElse, negation, Value.ofBoolOrNone]
    · simp [comparison_true, he]
  | .isIn e l => by
    rw [Expression.eval, Safe, value]
    refine .bind (eval_agrees env e) (.guarded (fun h => ?_) fun h =>
      .done (evalIn_agrees env (value env e) (by simpa using h) .false l (by simp)) ?_)
    · rw [if_pos h]
      rfl
    · rw [if_neg h]
      cases valueIn env (value env e) l <;> rfl
  | .arithmetic op e1 e2 => by
    rw [Expression.eval, Safe, value]
    exact .bind (eval_agrees env e1) (.bind (eval_agrees env e2) (arithmetic_agrees op _ _))
  | .negate e => by
    rw [Expression.eval, Safe, value]
    exact .done (eval_agrees env e) rfl
  | .literal v => by
    rw [Expression.eval, Safe, value]
    exact .pure v
  | .identifier name => by
    rw [Expression.eval, Safe, value]
    exact .pure (env name)

/-- The elements of a list are evaluated up to the first that is equal. -/
theorem evalIn_agrees (env : Env D) (ve : Value D) (hv : ve.isUnknown = false) :
    (r : BoolOrNone) → (l : List (Expression D)) → r ≠ .true →
    Agrees (Expression.evalIn env ve r l) (SafeIn env ve l) (orElse r (valueIn env ve l))
  | r, [], hr => by
    rw [Expression.evalIn, SafeIn, valueIn]
    refine (Agrees.pure r).congr Iff.rfl fun _ => ?_
    cases r <;> rfl
  | r, e :: l, hr => by
    rw [Expression.evalIn, SafeIn, valueIn]
    refine .bind (eval_agrees env e) ?_
    by_cases hu : (value env e).isUnknown
    · rw [if_pos hu]
      refine (evalIn_agrees env ve hv .unknown l (by simp)).congr (by simp [comparison_true, hu]) fun _ => ?_
      simp only [comparison, hu, Bool.or_true, if_true]
      cases r <;> cases valueIn env ve l <;> simp_all [orElse]
    rw [if_neg hu]
    rw [Bool.not_eq_true] at hu
    refine (Agrees.guarded (fun h => ?_) fun h =>
      (evalIn_agrees env ve hv r l hr).congr Iff.rfl fun _ => ?_).congr (by simp [comparison_true, hv, hu])
      fun _ => rfl
    · rw [(comparison_true _ _ _).2 ⟨hv, hu, h⟩]
      cases r <;> rfl
    · simp only [comparison, hv, hu, h, Bool.or_false, Bool.false_eq_true, if_false, BoolOrNone.ofBool]
      cases valueIn env ve l <;> rfl
end

theorem atom_value {env : Env D} {v : Value D} : {e : Expression D} → atom env e = some v → value env e = v
  | .literal _, h => by simpa [atom, value] using h
  | .identifier _, h => by simpa [atom, value] using h
  | .negate e, h => by
    obtain ⟨w, hw, rfl⟩ := Option.map_eq_some_iff.1 h
    rw [value, atom_value hw]

/-- A harmless division is one that can be made, whatever the other operand. -/
theorem applies_of_harmless {env : Env D} {e1 e2 : Expression D} (h : Harmless env e1 e2) :
    Applies .div (value env e1) (value env e2) := by
  rintro i j - hi hj
  obtain ⟨v, hv, h0, h1⟩ | ⟨v, hv, h⟩ := h
  · rw [atom_value hv] at hj
    subst hj
    exact ⟨fun e => h0 (by rw [e]), fun e => h1 (by rw [e.2])⟩
  · exact absurd ((atom_value hv).symm.trans hi) (h i)

mutual
/-- An expression can be seen to be safe without an evaluation. -/
theorem safe_of_guarded {env : Env D} : {e : Expression D} → Guarded env e → Safe env e
  | .comparison _ _ _, h | .or _ _, h | .and _ _, h => ⟨safe_of_guarded h.1, fun _ => safe_of_guarded h.2⟩
  | .unaryBoolean _ e, h | .like e _, h | .negate e, h => by
    rw [Guarded] at h
    rw [Safe]
    exact safe_of_guarded h
  | .between _ _ _, h =>
    ⟨safe_of_guarded h.1, fun _ => ⟨safe_of_guarded h.2.1, fun _ => safe_of_guarded h.2.2⟩⟩
  | .isIn _ _, h => ⟨safe_of_guarded h.1, fun _ => safeIn_of_guardedIn _ h.2⟩
  | .arithmetic op _ _, h =>
    ⟨safe_of_guarded h.1, safe_of_guarded h.2.1, fun i j hop => applies_of_harmless (h.2.2 hop) i j rfl⟩
  | .literal _, _ | .identifier _, _ => trivial

theorem safeIn_of_guardedIn {env : Env D} (v : Value D) :
    {l : List (Expression D)} → GuardedIn env l → SafeIn env v l
  | [], _ => trivial
  | _ :: _, h => ⟨safe_of_guarded h.1, fun _ => safeIn_of_guardedIn v h.2⟩
end

end QB.Impl.Selector
