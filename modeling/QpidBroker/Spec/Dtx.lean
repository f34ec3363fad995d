import Mathlib.Data.List.Forall2
import QpidBroker.Framework.Run
import QpidBroker.Impl.Dtx

/-!
# Branches of distributed transactions

The life of a branch: calls on its record, and what the sessions do with the
buffers that they have enlisted (`Branch.step`). A branch is atomic if its
buffers are told alike and no success is reported after one of them was rolled
back (`Branch.Atomic`); it is called in order (`Branch.InOrder`) if no call comes
after it is over. The manager has many branches, with timers (`DtxAction.step`).
-/

namespace QB.Spec

open QB.Impl

/-- What `prepare` or `commit` has reported, and whether a buffer of the branch
had been rolled back before. -/
structure Report where
  call : TxCall
  success : Bool
  late : Bool
deriving DecidableEq

structure Branch (Op : Type) where
  record : DtxWorkRecord Op := {}
  reports : List Report := []
deriving DecidableEq

namespace Branch

variable {Op : Type}

inductive Call (Op : Type) where
  | add (ops : List Op) (ended failed : Bool)
  | recover (ops : List Op)
  | prepare (p : Nat → DtxBuffer.Preparation Op)
  | commit (onePhase : Bool) (p : Nat → DtxBuffer.Preparation Op)
  | rollback
  | timedout
  /-- A session enlists an operation in its buffer, ends it, or fails it. -/
  | enlist (i : Nat) (op : Op)
  | markEnded (i : Nat)
  | fail (i : Nat)

def RolledBack (r : DtxWorkRecord Op) : Prop := ∃ b ∈ r.work, .rollback ∈ b.history

instance (r : DtxWorkRecord Op) : Decidable (RolledBack r) := inferInstanceAs (Decidable (∃ b ∈ _, _))

def report (s : Branch Op) (call : TxCall) (result : DtxWorkRecord.Result Op Bool) : Branch Op :=
  { record := result.2, reports := s.reports ++ [⟨call, result.1.toOption = some true, RolledBack s.record⟩] }

/-- A session acts on its buffer. It holds the buffer until it ends it; it does
not know of one that has timed out. -/
def session (r : DtxWorkRecord Op) (i : Nat) (f : DtxBuffer Op → DtxBuffer Op) : Option (DtxWorkRecord Op) :=
  (r.work[i]?).bind fun b => if b.ended && !b.expired then none else some { r with work := r.work.set i (f b) }

def step (s : Branch Op) : Call Op → Option (Branch Op)
  | .add ops ended failed => some { s with record := (s.record.add { buffer := { ops }, ended, failed }).2 }
  | .recover ops => some { s with record := (s.record.recover { buffer := { ops }, history := [.prepare] }).2 }
  | .prepare p => some (s.report .prepare (s.record.prepare p))
  | .commit onePhase p => some (s.report .commit (s.record.commit onePhase p))
  | .rollback => some { s with record := s.record.rollback.2 }
  | .timedout => some { s with record := s.record.timedout }
  | .enlist i op => (session s.record i (·.enlist op)).map fun record => { s with record }
  | .markEnded i => (session s.record i DtxBuffer.markEnded).map fun record => { s with record }
  | .fail i => (session s.record i DtxBuffer.fail).map fun record => { s with record }

def Committed (s : Branch Op) : Prop := ∃ rep ∈ s.reports, rep.call = .commit ∧ rep.success = true

instance (s : Branch Op) : Decidable s.Committed := inferInstanceAs (Decidable (∃ rep ∈ _, _))

/-- A commit that reports success has all buffers prepared, once, committed and
none rolled back; with a buffer rolled back none is committed, and nothing later
reports success. -/
structure Atomic (s : Branch Op) : Prop where
  committed : s.Committed → ∀ b ∈ s.record.work,
    b.history.count .prepare = 1 ∧ .commit ∈ b.history ∧ .rollback ∉ b.history
  exclusive : RolledBack s.record → ∀ b ∈ s.record.work, .commit ∉ b.history
  final : ∀ rep ∈ s.reports, rep.late = true → rep.success = false

/-- The branch was aborted by a call that did not mark it as rolled back. -/
def Abandoned (r : DtxWorkRecord Op) : Prop :=
  r.completed = true ∧ r.rolledback = false ∧ r.expired = false ∧ RolledBack r

instance (r : DtxWorkRecord Op) : Decidable (Abandoned r) := inferInstanceAs (Decidable (_ ∧ _))

/-- A call that does not come after the branch is over: no second prepare, nothing
after a commit, no prepare or commit of a branch that was aborted, and recovery
of a new branch only. -/
def InOrder (s : Branch Op) : Call Op → Prop
  | .prepare _ => ¬ s.Committed ∧ ¬ Abandoned s.record ∧ (s.record.prepared = true → s.record.expired = true)
  | .commit _ _ => ¬ s.Committed ∧ ¬ Abandoned s.record
  | .rollback | .timedout => ¬ s.Committed
  | .recover _ => s.record.work.length = 0 ∧ s.record.rolledback = false
  | _ => True

instance (s : Branch Op) : (call : Call Op) → Decidable (s.InOrder call)
  | .prepare _ => inferInstanceAs (Decidable (_ ∧ _ ∧ _))
  | .commit _ _ => inferInstanceAs (Decidable (_ ∧ _))
  | .rollback | .timedout => inferInstanceAs (Decidable (¬ _))
  | .recover _ => inferInstanceAs (Decidable (_ ∧ _))
  | .add _ _ _ | .enlist _ _ | .markEnded _ | .fail _ => inferInstanceAs (Decidable True)

end Branch

/-! ## The manager -/

/-- The commands for a branch, what its sessions do, and its timer. -/
inductive DtxAction (Op : Type) where
  | start
  | join
  | recover (ops : List Op)
  | prepare (p : Nat → DtxBuffer.Preparation Op)
  | commit (onePhase : Bool) (p : Nat → DtxBuffer.Preparation Op)
  | rollback
  | setTimeout (secs : Nat)
  | timer
  | enlist (i : Nat) (op : Op)
  | markEnded (i : Nat)
  | fail (i : Nat)

namespace DtxAction

variable {Xid Op : Type} [DecidableEq Xid]

def session (m : DtxManager Xid Op) (xid : Xid) (i : Nat) (f : DtxBuffer Op → DtxBuffer Op) :
    Option (DtxManager Xid Op) :=
  (m.work xid).bind fun r => (Branch.session r i f).map fun r => m.set xid (some r)

def step (m : DtxManager Xid Op) : Xid × DtxAction Op → Option (DtxManager Xid Op)
  | (xid, start) => some (m.start xid {}).2
  | (xid, join) => some (m.join xid {}).2
  | (xid, recover ops) => some (m.recover xid { buffer := { ops }, history := [.prepare] }).2
  | (xid, prepare p) => some (m.prepare xid p).2
  | (xid, commit onePhase p) => some (m.commit xid onePhase p).2
  | (xid, rollback) => some (m.rollback xid).2
  | (xid, setTimeout secs) => some (m.setTimeout xid secs).2
  | (xid, timer) => (m.work xid).bind fun r => if r.timeout.isSome then some (m.timedout xid) else none
  | (xid, enlist i op) => session m xid i (·.enlist op)
  | (xid, markEnded i) => session m xid i DtxBuffer.markEnded
  | (xid, fail i) => session m xid i DtxBuffer.fail

/-- Not a command that decides on a prepared branch. A one-phase commit of it is
refused. -/
def Undecided (xid : Xid) : Xid × DtxAction Op → Prop
  | (x, commit onePhase _) => x = xid → onePhase = true
  | (x, rollback) => x ≠ xid
  | _ => True

instance (xid : Xid) : (a : Xid × DtxAction Op) → Decidable (Undecided xid a)
  | (_, commit _ _) => inferInstanceAs (Decidable (_ → _))
  | (_, rollback) => inferInstanceAs (Decidable (¬ _))
  | (_, start) | (_, join) | (_, recover _) | (_, prepare _) | (_, setTimeout _) | (_, timer) | (_, enlist _ _)
  | (_, markEnded _) | (_, fail _) => inferInstanceAs (Decidable True)

/-- The buffers of a branch can be prepared. -/
def Preparable (p : Nat → DtxBuffer.Preparation Op) (r : DtxWorkRecord Op) : Prop :=
  ∀ b ∈ r.work.zipIdx, (p b.2).observer = true ∧ ∀ op ∈ b.1.buffer.ops, TxOp.prepare (p b.2).work op = true

instance (p : Nat → DtxBuffer.Preparation Op) (r : DtxWorkRecord Op) : Decidable (Preparable p r) :=
  inferInstanceAs (Decidable (∀ b ∈ _, _))

/-- The timer of a branch does not fire, and if it is prepared again, its buffers
can be. -/
def Undisturbed (xid : Xid) (m : DtxManager Xid Op) : Xid × DtxAction Op → Prop
  | (x, timer) => x ≠ xid
  | (x, prepare p) => x = xid → ∀ r ∈ m.work xid, Preparable p r
  | _ => True

instance (xid : Xid) (m : DtxManager Xid Op) : (a : Xid × DtxAction Op) → Decidable (Undisturbed xid m a)
  | (_, timer) => inferInstanceAs (Decidable (¬ _))
  | (_, prepare _) => inferInstanceAs (Decidable (_ → _))
  | (_, start) | (_, join) | (_, recover _) | (_, commit _ _) | (_, rollback) | (_, setTimeout _) | (_, enlist _ _)
  | (_, markEnded _) | (_, fail _) => inferInstanceAs (Decidable True)

/-- A buffer was told nothing since, but to prepare. -/
def Spared (b b' : DtxBuffer Op) : Prop := ∃ k, b'.history = b.history ++ List.replicate k .prepare

/-- From one state to a later one, the buffers of a branch were neither committed
nor rolled back. -/
def Pending (xid : Xid) (m m' : DtxManager Xid Op) : Prop :=
  ∃ r r', m.work xid = some r ∧ m'.work xid = some r' ∧ List.Forall₂ Spared r.work r'.work

end DtxAction

end QB.Spec
