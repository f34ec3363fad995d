import QpidBroker.Proof.SelectorText

/-!
# Derived forms of selectors

`x IN (l₁, …, lₙ)` evaluates as `x = l₁ OR … OR x = lₙ`, and `x BETWEEN a AND b` as
`x >= a AND x <= b` if and only if the bounds that decide can be compared with `x`.
-/

namespace QB.Impl.Selector

open Expression

variable {D : Type} [Machine D] {env : Env D} {e : Expression D} {v : Value D} {l : List (Expression D)}

theorem eval_orEach_eq {acc : Expression D} {x : Except Trap (Value D)} (hacc : acc.eval env = x)
    (hx : ∀ a li, a.eval env = x → (Expression.or a (.comparison .eq e li)).eval env = x) :
    (orEach e acc l).eval env = x := by
  induction l generalizing acc with
  | nil => exact hacc
  | cons li l ih => exact ih (hx acc li hacc)

theorem eval_orEach_congr {a b : Expression D} (h : a.eval env = b.eval env) :
    (orEach e a l).eval env = (orEach e b l).eval env := by
  induction l generalizing a b with
  | nil => exact h
  | cons li l ih => exact ih (by simp [eval, h])

theorem eval_orEach (he : e.eval env = .ok v) (hv : v.isUnknown = false) {acc : Expression D} {r : BoolOrNone}
    (hr : r ≠ .true) (hacc : acc.eval env = .ok (.ofBoolOrNone r)) :
    (orEach e acc l).eval env = (evalIn env v r l).map .ofBoolOrNone := by
  induction l generalizing acc r with
  | nil =>
    exact hacc
  | cons li l ih =>
    have hr' : (Value.ofBoolOrNone r : Value D).toBoolOrNone = r := by cases r <;> rfl
    have hor : (Expression.or acc (.comparison .eq e li)).eval env = li.eval env >>= fun vi =>
        if vi.isUnknown then .ok .unknown else if Value.eq v vi then .ok (.bool true)
        else .ok (.ofBoolOrNone r) := by
      rcases hli : li.eval env with t | vi
      · simp [eval, he, hv, hli, hacc, hr', hr]
      · cases hvi : vi.isUnknown <;> cases heq : Value.eq v vi <;> cases r <;>
          simp_all [eval, ComparisonOperator.apply, Value.toBoolOrNone, BoolOrNone.ofBool, Value.ofBoolOrNone]
    rw [orEach, List.foldl_cons, evalIn]
    rcases hli : li.eval env with t | vi
    · rw [hli] at hor
      exact eval_orEach_eq (x := .error t) hor fun a c ha => by simp [eval, ha]
    rw [hli, ok_bind] at hor
    rw [ok_bind]
    by_cases hvi : vi.isUnknown
    · rw [if_pos hvi] at hor ⊢
      exact ih (by simp) hor
    rw [if_neg hvi] at hor ⊢
    by_cases heq : Value.eq v vi
    · rw [if_pos heq] at hor ⊢
      exact eval_orEach_eq (x := .ok (.bool true)) hor fun a c ha => by
        simp [eval, ha, Value.toBoolOrNone, BoolOrNone.ofBool]
    · rw [if_neg heq] at hor ⊢
      exact ih hr hor

theorem eval_isIn (e l₁ : Expression D) (l : List (Expression D)) :
    (isIn e (l₁ :: l)).eval env = (anyOf e l₁ l).eval env := by
  rw [eval]
  rcases he : e.eval env with t | v
  · exact (eval_orEach_eq (by simp [eval, he]) fun a c ha => by simp [eval, ha]).symm
  by_cases hv : v.isUnknown
  · rw [ok_bind, if_pos hv]
    exact (eval_orEach_eq (by simp [eval, he, hv]) fun a c ha => by
      simp [eval, ha, he, hv, Value.toBoolOrNone]).symm
  rw [Bool.not_eq_true] at hv
  -- the empty disjunction is false
  have hfalse := eval_orEach (l := l₁ :: l) he hv (r := .false) (by simp)
    (show (Expression.literal (.bool false)).eval env = _ from rfl)
  have hfirst : (Expression.or (.literal (.bool false)) (.comparison .eq e l₁)).eval env =
      (comparison .eq e l₁).eval env := by
    rcases hl : l₁.eval env with t | v1
    · simp [eval, he, hv, hl, Value.toBoolOrNone, BoolOrNone.ofBool]
    · cases hv1 : v1.isUnknown <;> cases heq : ComparisonOperator.eq.apply v v1 <;>
        simp_all [eval, Value.toBoolOrNone, BoolOrNone.ofBool]
  rw [anyOf, ← eval_orEach_congr hfirst, ok_bind, if_neg (by simp [hv])]
  refine Eq.trans ?_ hfalse.symm
  cases evalIn env v .false (l₁ :: l) <;> rfl

theorem eval_between_iff (hlt : ∀ x y : D, Machine.lt x y = true → Machine.le y x = false) (e l u : Expression D) :
    (between e l u).eval env = (within e l u).eval env ↔ Ordered env e l u := by
  have hge {v w : Value D} (h : Value.ls v w = true) : Value.ge v w = false := by
    revert h
    unfold Value.ls Value.ge Value.compare
    rcases Value.promoteNumeric v w with _ | ⟨i, j⟩ | ⟨x, y⟩
    · simp
    · simp [BitVec.slt, BitVec.sle]
    · exact hlt x y
  have hle {v w : Value D} (h : Value.gr v w = true) : Value.le v w = false := by
    revert h
    unfold Value.gr Value.le Value.compare
    rcases Value.promoteNumeric v w with _ | ⟨i, j⟩ | ⟨x, y⟩
    · simp
    · simp [BitVec.slt, BitVec.sle]
    · exact hlt y x
  simp only [Ordered, within, eval, ComparisonOperator.apply]
  rcases e.eval env with t | v
  · simp
  cases hv : v.isUnknown with
  | true => simp [hv, Value.toBoolOrNone]
  | false =>
    rcases l.eval env with t | vl
    · simp [hv]
    have hl := @hge v vl
    rcases u.eval env with t | vu
    · simp only [ok_bind, Except.ok.injEq, forall_eq', hv]
      revert hl
      cases vl.isUnknown <;> cases Value.ls v vl <;> cases Value.ge v vl <;>
        simp [Value.toBoolOrNone, BoolOrNone.ofBool]
    have hu := @hle v vu
    simp only [ok_bind, Except.ok.injEq, forall_eq', exists_eq_left', hv]
    revert hl hu
    cases vl.isUnknown <;> cases Value.ls v vl <;> cases Value.ge v vl <;>
      cases vu.isUnknown <;> cases Value.gr v vu <;> cases Value.le v vu <;>
      simp [Value.toBoolOrNone, BoolOrNone.ofBool]

/-- **Derived forms.** `IN` is its expansion, and `BETWEEN` is its expansion if and only if the operands are
ordered. For `double` the hypothesis says that what is less is not greater or equal. -/
theorem derived_forms_iff (hlt : ∀ x y : D, Machine.lt x y = true → Machine.le y x = false) (env : Env D)
    (e : Expression D) :
    (∀ l₁ l, (isIn e (l₁ :: l)).eval env = (anyOf e l₁ l).eval env) ∧
      ∀ l u, (between e l u).eval env = (within e l u).eval env ↔ Ordered env e l u :=
  ⟨eval_isIn e, eval_between_iff hlt e⟩

/-- `2 IN (1, 2)` and `2 BETWEEN 1 AND 3`. -/
theorem derived_forms_iff_two : let two : Expression Unit := .literal (.exact 2)
    (isIn two [.literal (.exact 1), two]).eval (fun _ => .unknown) = .ok (.bool true) ∧
      Ordered (fun _ => .unknown) two (.literal (.exact 1)) (.literal (.exact 3)) :=
  ⟨((derived_forms_iff (by simp [Machine.lt]) _ _).1 _ _).trans rfl,
    ((derived_forms_iff (by simp) _ _).2 _ _).1 rfl⟩

/-- `'a' BETWEEN 1 AND 3` is true, and `'a' >= 1 AND 'a' <= 3` is not. -/
theorem between_differs : let a : Expression Unit := .literal (.string ['a'])
    let l : Expression Unit := .literal (.exact 1)
    let u : Expression Unit := .literal (.exact 3)
    (between a l u).evalBool (fun _ => .unknown) = .ok .true ∧
      (within a l u).evalBool (fun _ => .unknown) = .ok .false :=
  ⟨rfl, rfl⟩

end QB.Impl.Selector
