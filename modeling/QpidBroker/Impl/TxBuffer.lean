import Mathlib.Tactic.Common

/-!
# Local transactions

`broker/TxBuffer.{h,cpp}`: the operations of a transaction, which are prepared
and then committed or rolled back together with a transaction of the store.

* `Op` is any type of operations. What the work of an operation returns or
  throws when it is prepared is an input (`work`); the operations catch what
  their work throws and return false, as `Queue::TxPublish::prepare` does, and do
  not throw when they are committed or rolled back.
* Of the observer the model has the result of `prepare`. The store is given by
  what each of its functions throws.
* `calls` and `committed` record what the operations and the store were told.
-/

namespace QB.Impl

inductive TxCall where
  | prepare
  | commit
  | rollback
deriving DecidableEq

/-- What the functions of a `TransactionalStore` throw, if they do. -/
structure TransactionalStore where
  begin : Option String := none
  commit : Option String := none
  abort : Option String := none
deriving DecidableEq

structure TxBuffer (Op : Type) where
  ops : List Op := []
  txContext : Bool := false
  error : String := ""
  calls : List (Op × TxCall) := []
  committed : Bool := false
deriving DecidableEq

namespace TxOp

variable {Op : Type}

/-- `TxOp::prepare(ctxt)`. -/
def prepare (work : Op → Except String Bool) (op : Op) : Bool :=
  match work op with
  | .ok prepared => prepared
  | .error _ => false

end TxOp

namespace TxBuffer

variable {Op : Type} (work : Op → Except String Bool)

/-- The loop of `prepare`: its result, and the operations it has called. -/
def prepareLoop : List Op → Bool × List Op
  | [] => (true, [])
  | op :: ops =>
    if TxOp.prepare work op then
      let r := prepareLoop ops
      (r.1, op :: r.2)
    else (false, [op])

/-- `prepare(ctxt)`; `observer` is the result of `observer->prepare()`. -/
def prepare (observer : Bool) (b : TxBuffer Op) : Bool × TxBuffer Op :=
  if observer then
    let r := prepareLoop work b.ops
    (r.1, { b with calls := b.calls ++ r.2.map (·, .prepare) })
  else (false, b)

def commit (b : TxBuffer Op) : TxBuffer Op :=
  { b with calls := b.calls ++ b.ops.map (·, .commit), ops := [] }

def rollback (b : TxBuffer Op) : TxBuffer Op :=
  { b with calls := b.calls ++ b.ops.map (·, .rollback), ops := [] }

def enlist (b : TxBuffer Op) (op : Op) : TxBuffer Op := { b with ops := b.ops ++ [op] }

def setError (b : TxBuffer Op) (e : String) : TxBuffer Op := { b with error := e }

/-- `startCommit(store)`; no store is a null pointer. -/
def startCommit (observer : Bool) (store : Option TransactionalStore) (b : TxBuffer Op) :
    Except String Unit × TxBuffer Op :=
  match store with
  | none => (.error "Can't commit transaction, no store.", b)
  | some store =>
    match store.begin with
    | some e => (.error e, b)
    | none =>
      let r := prepare work observer { b with txContext := true }
      (.ok (), if r.1 then r.2 else r.2.setError "Transaction prepare failed.")

def endCommit (store : TransactionalStore) (b : TxBuffer Op) : Except String Unit × TxBuffer Op :=
  if b.error ≠ "" then
    match store.abort with
    | some e => (.error e, b)
    | none => (.error b.error, b.rollback)
  else
    match store.commit with
    | some e => (.error e, b)
    | none => (.ok (), { b with committed := true }.commit)

end TxBuffer

end QB.Impl
