import QpidBroker.Framework.Outcome

/-!
# Recursive descent

A parser takes tokens from the front of its input. The input ends with a token
of its own, or with text that is not a token and fails when it is read
(`next`). A chain of operands with operators between them is read by a loop that
combines from the left (`chain`).

`Reads` says what a parser may take and how it may fail, with a rule for each
way to make a parser. The other direction, that a chain is read as it is
written, comes from what the loop makes of an operator and an operand
(`chainLoop_step`) and of anything else (`chainLoop_stop`).
-/

namespace QB.Descent

open List

abbrev Parser (T F E : Type) := List T → Except F (E × List T)

variable {T F E A : Type}

/-- The next token of an input that ends with `eos`, or fails there. -/
def next (eos : Except F T) : Parser T F T
  | t :: ts => .ok (t, ts)
  | [] => do return (← eos, [])

@[simp] theorem next_cons (eos : Except F T) (t : T) (ts : List T) : next eos (t :: ts) = .ok (t, ts) := rfl

section Loop

variable (eos : Except F T) (op : T → Option (A → E → A)) (p : Parser T F E)

/-- While the next token is an operator, take it and an operand. -/
def chainLoop : Nat → A → Parser T F A
  | 0, a, ts => .ok (a, ts)
  | n + 1, a, ts => do
    let (t, rest) ← next eos ts
    match op t with
    | none => return (a, ts)
    | some f =>
      let (e, rest) ← p rest
      chainLoop n (f a e) rest

/-- An operand, and then operators and operands. -/
def chain (unit : E → A) : Parser T F A := fun ts => do
  let (e, rest) ← p ts
  chainLoop eos op p (rest.length + 1) (unit e) rest

end Loop

/-- What has been taken from the front of `ts` is as `P` says, and a failure is
one that `Q` allows. -/
def Reads (Q : List T → F → Prop) (P : List T → E → Prop) (ts : List T) : Except F (E × List T) → Prop
  | .ok (e, rest) => ∃ us, ts = us ++ rest ∧ P us e
  | .error f => Q ts f

/-- A failure that is allowed on the end of an input is allowed on the input. -/
def Inherited (Q : List T → F → Prop) : Prop := ∀ us ts f, Q ts f → Q (us ++ ts) f

variable {eos : Except F T} {op : T → Option (A → E → A)} {p : Parser T F E} {unit : E → A}
  {P : List T → E → Prop} {R : List T → A → Prop} {Q : List T → F → Prop} {ts : List T}

namespace Reads

theorem pure {e : E} (h : P [] e) : Reads Q P ts (.ok (e, ts)) := ⟨[], rfl, h⟩

variable {x : Except F (E × List T)}

theorem mono {P' : List T → E → Prop} (hx : Reads Q P ts x) (h : ∀ us e, P us e → P' us e) :
    Reads Q P' ts x := by
  match x, hx with
  | .ok (e, rest), ⟨us, hus, he⟩ => exact ⟨us, hus, h us e he⟩
  | .error f, hf => exact hf

theorem append (hQ : Inherited Q) (us : List T)
    (hx : Reads Q (fun vs e => P (us ++ vs) e) ts x) : Reads Q P (us ++ ts) x := by
  match x, hx with
  | .ok (e, rest), ⟨vs, hvs, he⟩ => exact ⟨us ++ vs, by simp [hvs], he⟩
  | .error f, hf => exact hQ us ts f hf

theorem bind (hQ : Inherited Q) {f : E × List T → Except F (A × List T)}
    (hx : Reads Q P ts x) (hf : ∀ us e rest, P us e → Reads Q (fun vs a => R (us ++ vs) a) rest (f (e, rest))) :
    Reads Q R ts (x >>= f) := by
  match x, hx with
  | .error g, hg => exact hg
  | .ok (e, rest), ⟨us, hus, he⟩ =>
    subst hus
    exact append hQ us (hf us e rest he)

theorem next_bind (heos : ∀ f, eos = .error f → Q [] f) {f : T × List T → Except F (A × List T)}
    (hf : ∀ t rest, ts = t :: rest → Reads Q R (t :: rest) (f (t, rest)))
    (hend : ∀ t, ts = [] → eos = .ok t → Reads Q R [] (f (t, []))) :
    Reads Q R ts (next eos ts >>= f) := by
  cases ts with
  | cons t rest => exact hf t rest rfl
  | nil =>
    cases h : eos with
    | error g => exact heos g h
    | ok t => exact hend t rfl h

end Reads

variable {rest : List T}

theorem Reads.length_le {e : E} (h : Reads Q P ts (.ok (e, rest))) : rest.length ≤ ts.length := by
  obtain ⟨us, rfl, -⟩ := h
  simp

section Chain

variable (hQ : Inherited Q) (heos : ∀ f, eos = .error f → Q [] f) (hp : ∀ ts, Reads Q P ts (p ts))
  (hend : ∀ t, eos = .ok t → op t = none)
  (hstep : ∀ us a t f vs e, R us a → op t = some f → P vs e → R (us ++ t :: vs) (f a e))
include hQ heos hp hend hstep

/-- What has been read is as `R` says, and an operator with an operand keeps it. -/
theorem chainLoop_reads : ∀ n us a ts, R us a → Reads Q (fun vs b => R (us ++ vs) b) ts (chainLoop eos op p n a ts)
  | 0, us, a, ts, hR => .pure (by rwa [append_nil])
  | n + 1, us, a, ts, hR => by
    have hstop : Reads Q (fun vs b => R (us ++ vs) b) ts (.ok (a, ts)) :=
      .pure (by rwa [append_nil])
    refine .next_bind heos (fun t rest hts => ?_) fun t hts ht => ?_
    · subst hts
      cases hop : op t with
      | none =>
        simp only [hop]
        exact hstop
      | some f =>
        simp only [hop]
        refine .append hQ [t] (.bind hQ (hp rest) fun vs e rest' he => ?_)
        have hR' := hstep us a t f vs e hR hop he
        exact (chainLoop_reads n _ _ rest' hR').mono fun ws b h => by simpa using h
    · subst hts
      simp only [hend t ht]
      exact hstop

theorem chain_reads (hunit : ∀ us e, P us e → R us (unit e)) (ts : List T) :
    Reads Q R ts (chain eos op p unit ts) :=
  .bind hQ (hp ts) fun us e _ he => chainLoop_reads hQ heos hp hend hstep _ us _ _ (hunit us e he)

end Chain

theorem chainLoop_stop {n : Nat} {a : A} {ts : List T} {t : T} (ht : next eos ts = .ok (t, rest))
    (hop : op t = none) : chainLoop eos op p (n + 1) a ts = .ok (a, ts) := by
  simp [chainLoop, ht, hop]

theorem chainLoop_operator {n : Nat} {a : A} {ts : List T} {t : T} {f : A → E → A} (hop : op t = some f) :
    chainLoop eos op p (n + 1) a (t :: ts) = p ts >>= fun r => chainLoop eos op p n (f a r.1) r.2 := by
  simp [chainLoop, hop]

theorem chain_unit {ts : List T} {e : E} (he : p ts = .ok (e, rest)) :
    chain eos op p unit ts = chainLoop eos op p (rest.length + 1) (unit e) rest := by
  simp [chain, he]

section Fuel

variable (hp : ∀ ts, Reads Q P ts (p ts)) (hend : ∀ t, eos = .ok t → op t = none)
include hp hend

/-- The loop needs no more steps than there are tokens. -/
theorem chainLoop_fuel : ∀ n ts a, ts.length ≤ n →
    chainLoop eos op p (n + 1) a ts = chainLoop eos op p (ts.length + 1) a ts
  | n, [], a, _ => by
    cases h : eos with
    | error f => rfl
    | ok t => rw [chainLoop_stop rfl (hend t h), chainLoop_stop rfl (hend t h)]
  | n, t :: ts, a, hn => by
    cases hop : op t with
    | none => rw [chainLoop_stop rfl hop, chainLoop_stop rfl hop]
    | some f =>
      obtain ⟨n, rfl⟩ : ∃ m, n = m + 1 := ⟨n - 1, by simp at hn; omega⟩
      rw [chainLoop_operator hop, chainLoop_operator hop]
      have hlen := hp ts
      cases he : p ts with
      | error f => rfl
      | ok r =>
        rw [he] at hlen
        have hlen := hlen.length_le
        simp only [length_cons] at hn
        exact (chainLoop_fuel n r.2 _ (by omega)).trans (chainLoop_fuel ts.length r.2 _ hlen).symm

theorem chainLoop_step {a : A} {t : T} {f : A → E → A} {ts rest : List T} {e : E} (hop : op t = some f)
    (he : p ts = .ok (e, rest)) :
    chainLoop eos op p ((t :: ts).length + 1) a (t :: ts) = chainLoop eos op p (rest.length + 1) (f a e) rest := by
  have hlen := hp ts
  rw [he] at hlen
  rw [chainLoop_operator hop, he]
  exact chainLoop_fuel hp hend ts.length rest _ hlen.length_le

theorem chain_step {a : A} {t : T} {f : A → E → A} {us vs rest : List T} {e : E} (hop : op t = some f)
    (hus : chain eos op p unit (us ++ t :: (vs ++ rest)) =
      chainLoop eos op p ((t :: (vs ++ rest)).length + 1) a (t :: (vs ++ rest)))
    (he : p (vs ++ rest) = .ok (e, rest)) :
    chain eos op p unit (us ++ t :: vs ++ rest) = chainLoop eos op p (rest.length + 1) (f a e) rest := by
  rw [append_assoc, cons_append, hus]
  exact chainLoop_step hp hend hop he

end Fuel

end QB.Descent
