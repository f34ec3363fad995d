import QpidBroker.Impl.TxBuffer

/-!
# All or nothing

A transaction of operations, from their enlisting to its end (`transact`), and
what it is for it to be carried out altogether or not at all (`AllOrNothing`).
-/

namespace QB.Spec

open QB.Impl

variable {Op : Type}

/-- How a transaction ends: it is committed, where threads that complete it may
report errors, or it is rolled back. -/
inductive Ending where
  | commit (errors : List { e : String // e ≠ "" })
  | rollback

/-- A transaction of the operations. -/
def transact (work : Op → Except String Bool) (observer : Bool) (store : TransactionalStore) (ops : List Op) :
    Ending → Except String Unit × TxBuffer Op
  | .rollback => (.ok (), (ops.foldl TxBuffer.enlist {}).rollback)
  | .commit errors =>
    match (ops.foldl TxBuffer.enlist {}).startCommit work observer (some store) with
    | (.error e, b) => (.error e, b)
    | (.ok (), b) => (errors.foldl (fun b e => b.setError e.1) b).endCommit store

/-- Every operation was told the same one of commit and rollback, once, and
commit just if the store committed; before it operations were prepared in their
order, and all of them if they were committed. Nothing is left in the buffer. -/
def AllOrNothing (ops : List Op) (b : TxBuffer Op) : Prop :=
  b.ops = [] ∧ ∃ call prepared, (call = .commit ∨ call = .rollback) ∧ prepared <+: ops ∧
    b.calls = prepared.map (·, .prepare) ++ ops.map (·, call) ∧ (call = .commit → prepared = ops) ∧
    (call = .commit ↔ b.committed = true)

/-- The store does not throw where the transaction calls it, or there are no
operations. -/
def StoreServes (work : Op → Except String Bool) (observer : Bool) (store : TransactionalStore) (ops : List Op) :
    Ending → Prop
  | .rollback => True
  | .commit errors => ops = [] ∨ store.begin = none ∧
      if observer = true ∧ (∀ op ∈ ops, TxOp.prepare work op) ∧ errors = [] then store.commit = none
      else store.abort = none

end QB.Spec
