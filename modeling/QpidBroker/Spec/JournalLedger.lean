import QpidBroker.Impl.Wmgr
import Mathlib.Logic.Function.Basic

/-!
# What the counts of journal files are for

A ledger of the enqueue records of a journal, each with the file it starts in, kept from the
records that were encoded, in their order. A record is enqueued, or waits in its
transaction, or was removed: by a dequeue, by the end of the transaction that dequeued it, or
by the abort of its own transaction. What is `held` is all that may not be lost yet: the
records that were not removed, and those whose removal is not yet on disk.
-/

namespace QB.Spec.Linear

open QB.Impl.Linear

/-- Where a record is. It was removed by the record of the token `k`. -/
inductive Place where
  | enqueued
  | inTxn (xid : Xid)
  | removedBy (k : Nat)
deriving DecidableEq

/-- An enqueue record, and the file it starts in. -/
structure Entry where
  rid : Nat
  start : Nat
  place : Place
deriving DecidableEq

/-- The first record with an id at one place is put at another. -/
def moveFirst (rid : Nat) (p q : Place) : List Entry → List Entry
  | [] => []
  | e :: es => if e.rid = rid ∧ e.place = p then { e with place := q } :: es else e :: moveFirst rid p q es

/-- The records, and the operations of each open transaction: whether it is an enqueue, and
the id of the record that is enqueued or dequeued. -/
structure Ledger where
  entries : List Entry := []
  ops : Xid → List (Bool × Nat) := fun _ => []

namespace Ledger

/-- One operation of a transaction that is committed by the token `k`. -/
def commitOp (k : Nat) (xid : Xid) (es : List Entry) : Bool × Nat → List Entry
  | (true, rid) => moveFirst rid (.inTxn xid) .enqueued es
  | (false, rid) => moveFirst rid .enqueued (.removedBy k) es

/-- The record of the token `k` is encoded. -/
def write (l : Ledger) (k : Nat) (t : DataTok) : Ledger :=
  match t.record with
  | .enq rid xid _ _ =>
    if xid.isEmpty then { l with entries := l.entries ++ [⟨rid, t.fid, .enqueued⟩] }
    else
      { entries := l.entries ++ [⟨rid, t.fid, .inTxn xid⟩]
        ops := Function.update l.ops xid (l.ops xid ++ [(true, rid)]) }
  | .deq _ drid xid _ =>
    if xid.isEmpty then { l with entries := moveFirst drid .enqueued (.removedBy k) l.entries }
    else { l with ops := Function.update l.ops xid (l.ops xid ++ [(false, drid)]) }
  | .txa _ xid =>
    { entries := l.entries.map fun e => if e.place = .inTxn xid then { e with place := .removedBy k } else e
      ops := Function.update l.ops xid [] }
  | .txc _ xid =>
    { entries := (l.ops xid).foldl (commitOp k xid) l.entries
      ops := Function.update l.ops xid [] }

end Ledger

def Encoded (t : DataTok) : Bool := t.wstate = .subm || t.wstate = .compl

/-- The ledger of the records that were encoded. -/
def ledger (toks : List DataTok) : Ledger :=
  toks.zipIdx.foldl (fun l (t, k) => if Encoded t then l.write k t else l) {}

/-- The record at the place was removed, and its removal is on disk. -/
def Place.Settled (toks : List DataTok) : Place → Bool
  | .removedBy k => (toks[k]?).any (·.wstate = .compl)
  | _ => false

/-- The records that are enqueued, in a transaction, or whose removal is not yet on disk. -/
def held (toks : List DataTok) : List Entry := (ledger toks).entries.filter (!·.place.Settled toks)

/-- The ids and the files of the records at a place. -/
def rowsAt (p : Place) (es : List Entry) : List (Nat × Nat) :=
  (es.filter (·.place = p)).map fun e => (e.rid, e.start)

end QB.Spec.Linear

namespace QB.Impl.Linear

/-- The ids with the files of the records that a map holds. -/
def EnqMap.rows (m : EnqMap) : List (Nat × Nat) := m.map fun e => (e.1, e.2.pfid)

/-- The ids with the files of the records that are enqueued. -/
def enqRows (tdl : List TxnData) : List (Nat × Nat) := (tdl.filter (·.enqFlag)).map fun td => (td.rid, td.pfid)

/-- An enqueue in a transaction starts in a file whose number has sixteen bits. -/
def Wmgr.StartsLow (w : Wmgr) : Wmgr.Op → Bool
  | .encode _ =>
    match w.jrnl.toks.getLast?, w.jrnl.lfc.getCurrentFileSeqNum with
    | some { record := .enq _ xid _ _, dblksWritten := 0, .. }, some fid => xid.isEmpty || fid < 2 ^ 16
    | _, _ => true
  | _ => true

end QB.Impl.Linear
