import QpidBroker.Proof.TxBuffer
import QpidBroker.Proof.Dtx

/-!
# The promise of a prepared branch

Whatever is done, the records of the manager have their flags in order
(`DtxManager.run_marked`). So a branch that is prepared has no session left that
could fail it, and is told nothing but to prepare unless it is decided on, times
out, or is prepared again and fails (`prepared_pending`).
-/

namespace QB.Impl

open QB.Spec List Option DtxAction

variable {Xid Op : Type} [DecidableEq Xid]

namespace DtxManager

open DtxWorkRecord

/-! ## What is known of the branches -/

@[simp] theorem set_same (m : DtxManager Xid Op) (xid : Xid) (r : Option (DtxWorkRecord Op)) :
    (m.set xid r).work xid = r := by
  simp [set]

variable {xid : Xid}

@[simp] theorem set_other (m : DtxManager Xid Op) {x : Xid} (r : Option (DtxWorkRecord Op)) (h : xid ≠ x) :
    (m.set x r).work xid = m.work xid := by
  simp [set, h]

theorem createWork_cases (xid : Xid) (f : DtxWorkRecord Op → DtxWorkRecord.Result Op Unit) (m : DtxManager Xid Op) :
    ((∃ r, m.work xid = some r) ∧ (m.createWork xid f).2 = m) ∨
    (∃ timeout, (m.createWork xid f).2 = m.set xid (some (f { timeout }).2)) := by
  unfold createWork
  cases h : m.work xid with
  | some r => exact .inl ⟨⟨r, rfl⟩, rfl⟩
  | none => exact .inr ⟨_, rfl⟩

theorem getWork_cases {α : Type} (xid : Xid) (f : DtxWorkRecord Op → DtxWorkRecord.Result Op α)
    (removes : Except DtxThrown α → Bool) (m : DtxManager Xid Op) :
    (m.work xid = none ∧ m.getWork xid f removes = (.error .unrecognised, m)) ∨
    (∃ r, m.work xid = some r ∧ m.getWork xid f removes =
      ((f r).1, m.set xid (if removes (f r).1 then none else some (f r).2))) := by
  unfold getWork
  cases h : m.work xid with
  | none => exact .inl ⟨rfl, rfl⟩
  | some r =>
    refine .inr ⟨r, rfl, ?_⟩
    dsimp only
    split <;> rfl

/-! ## The flags of all records -/

/-- All records have their flags in order. -/
def AllMarked (m : DtxManager Xid Op) : Prop := ∀ xid r, m.work xid = some r → Marked r

variable {m m' : DtxManager Xid Op}

theorem AllMarked.set (h : AllMarked m) {o : Option (DtxWorkRecord Op)}
    (ho : ∀ r, o = some r → Marked r) : AllMarked (m.set xid o) := by
  intro x r hr
  by_cases hx : x = xid
  · subst hx
    exact ho r (by simpa using hr)
  · rw [set_other m o hx] at hr
    exact h x r hr

theorem AllMarked.createWork (h : AllMarked m) {f : DtxWorkRecord Op → DtxWorkRecord.Result Op Unit}
    (hf : ∀ timeout, Marked (f { timeout }).2) : AllMarked (m.createWork xid f).2 := by
  rcases createWork_cases xid f m with ⟨_, hm⟩ | ⟨timeout, hm⟩ <;> rw [hm]
  · exact h
  · refine h.set fun r hr => ?_
    cases hr
    exact hf timeout

theorem AllMarked.getWork (h : AllMarked m) {α : Type}
    {f : DtxWorkRecord Op → DtxWorkRecord.Result Op α} {removes : Except DtxThrown α → Bool}
    (hf : ∀ r, Marked r → Marked (f r).2) : AllMarked (m.getWork xid f removes).2 := by
  rcases getWork_cases xid f removes m with ⟨_, hm⟩ | ⟨r, hr, hm⟩ <;> rw [hm]
  · exact h
  refine h.set fun r' hr' => ?_
  split at hr'
  · cases hr'
  · cases hr'
    exact hf r (h xid r hr)

theorem AllMarked.session (h : AllMarked m) {i : Nat} {f : DtxBuffer Op → DtxBuffer Op}
    (hs : session m xid i f = some m')
    (hf : ∀ b, (f b).expired = b.expired ∧ (b.ended = true → (f b).ended = true)) : AllMarked m' := by
  obtain ⟨r, hr, hs⟩ := bind_eq_some_iff.1 hs
  obtain ⟨r', hr', rfl⟩ := map_eq_some_iff.1 hs
  refine h.set fun r'' hr'' => ?_
  cases hr''
  exact (h xid r hr).session hr' hf

theorem marked_new (timeout : Option Nat) : Marked ({ timeout } : DtxWorkRecord Op) := by
  refine ⟨?_, ?_, ?_, ?_⟩ <;> simp

theorem AllMarked.step {a : Xid × DtxAction Op} (h : AllMarked m) (hs : step m a = some m') : AllMarked m' := by
  obtain ⟨xid, a⟩ := a
  cases a with
  | start =>
    cases hs
    exact h.createWork fun timeout => (marked_new timeout).add rfl
  | join =>
    cases hs
    exact h.getWork fun r hr => hr.add rfl
  | recover ops =>
    cases hs
    exact h.createWork fun timeout => (marked_new timeout).recover rfl rfl rfl
  | prepare p =>
    cases hs
    exact h.getWork fun r hr => hr.prepare p
  | commit onePhase p =>
    cases hs
    exact h.getWork fun r hr => hr.commit onePhase p
  | rollback =>
    cases hs
    exact h.getWork fun r hr => hr.rollback
  | setTimeout secs =>
    cases hs
    exact h.getWork fun r hr => ⟨hr.prepared, hr.unspoilt, hr.ended, hr.expired⟩
  | timer =>
    obtain ⟨r, hr, hs⟩ := bind_eq_some_iff.1 hs
    split at hs
    · cases hs
      simp only [DtxManager.timedout, hr]
      refine h.set fun r' hr' => ?_
      cases hr'
      exact (h xid r hr).timedout
    · cases hs
  | enlist i op => exact h.session hs fun b => ⟨rfl, id⟩
  | markEnded i => exact h.session hs fun b => ⟨rfl, fun _ => rfl⟩
  | fail i => exact h.session hs fun b => ⟨rfl, fun _ => rfl⟩

/-- In every run, the flags of all records are in order. -/
theorem run_marked {ok : DtxManager Xid Op → Xid × DtxAction Op → Prop} {dtxDefaultTimeout : Nat}
    {actions : List (Xid × DtxAction Op)} (h : Run step ok { dtxDefaultTimeout } actions m) : AllMarked m :=
  h.keep (fun hm _ hs => hm.step hs) fun _ _ hr => by cases hr

theorem step_other {x : Xid} {a : DtxAction Op} (hx : xid ≠ x) (hs : step m (x, a) = some m') :
    m'.work xid = m.work xid := by
  have hcre : ∀ f, (m.createWork x f).2.work xid = m.work xid := by
    intro f
    rcases createWork_cases x f m with ⟨_, hm⟩ | ⟨timeout, hm⟩ <;> simp [hm, hx]
  have hget : ∀ {α : Type} (f : DtxWorkRecord Op → DtxWorkRecord.Result Op α) removes,
      (m.getWork x f removes).2.work xid = m.work xid := by
    intro α f removes
    rcases getWork_cases x f removes m with ⟨_, hm⟩ | ⟨r, _, hm⟩ <;> simp [hm, hx]
  have hses : ∀ {i f}, session m x i f = some m' → m'.work xid = m.work xid := by
    intro i f hs
    obtain ⟨r, hr, hs⟩ := bind_eq_some_iff.1 hs
    obtain ⟨r', hr', rfl⟩ := map_eq_some_iff.1 hs
    exact set_other m _ hx
  cases a with
  | start | recover =>
    cases hs
    exact hcre _
  | join | prepare | commit | rollback | setTimeout =>
    cases hs
    exact hget _ _
  | timer =>
    obtain ⟨r, hr, hs⟩ := bind_eq_some_iff.1 hs
    split at hs
    · cases hs
      simp [DtxManager.timedout, hr, hx]
    · cases hs
  | enlist | markEnded | fail => exact hses hs

end DtxManager

/-! ## A prepared branch -/

namespace DtxWorkRecord

open DtxAction

variable {r r₀ : DtxWorkRecord Op}

/-- A branch is prepared, and since a state before, its buffers were at most
prepared again. -/
structure Promised (r₀ r : DtxWorkRecord Op) : Prop where
  marked : Marked r
  prepared : r.prepared = true
  live : r.expired = false
  pending : List.Forall₂ Spared r₀.work r.work

variable {p : Nat → DtxBuffer.Preparation Op}

theorem promised_of_prepare (h : Marked r) (hp : (r.prepare p).1 = .ok true) :
    Promised (r.prepare p).2 (r.prepare p).2 := by
  have hflags : (r.prepare p).2.prepared = true ∧ (r.prepare p).2.expired = false := by
    unfold DtxWorkRecord.prepare at hp ⊢
    rcases hr : r.check with ⟨e | ok, r'⟩ <;> rw [hr] at hp
    · cases hp
    obtain ⟨_, he, _⟩ := check_ok hr
    cases ok with
    | false => exact ⟨by injection hp, he⟩
    | true =>
      dsimp only at hp ⊢
      split at hp
      · rename_i hw
        rw [if_pos hw]
        exact ⟨rfl, he⟩
      · rename_i hw
        rw [if_neg hw]
        exact ⟨by injection hp, he⟩
  exact ⟨h.prepare p, hflags.1, hflags.2, forall₂_same.2 fun b _ => ⟨0, by simp⟩⟩

theorem Promised.check (h : Promised r₀ r) : r.check = (.ok true, r) := by
  simp [DtxWorkRecord.check, h.live, h.marked.prepared h.prepared, h.marked.unspoilt h.prepared h.live]

theorem prepareLoop_preparable {i : Nat} {work0 work : List (DtxBuffer Op)}
    (h : ∀ b ∈ work.zipIdx i, (p b.2).observer = true ∧
      ∀ op ∈ b.1.buffer.ops, TxOp.prepare (p b.2).work op = true)
    (h0 : List.Forall₂ Spared work0 work) :
    (prepareLoop p i work).1 = true ∧ List.Forall₂ Spared work0 (prepareLoop p i work).2 := by
  induction h0 generalizing i with
  | nil => exact ⟨rfl, .nil⟩
  | @cons b0 b work0 work hb0 _ ih =>
    obtain ⟨⟨hobs, hops⟩, hrest⟩ := forall_mem_cons.1 h
    have hb : (b.prepare (p i)).1 = true := by
      simpa [DtxBuffer.prepare, TxBuffer.prepare, hobs] using (TxBuffer.prepareLoop_eq _ _).2.2.2 hops
    obtain ⟨k, hk⟩ := hb0
    obtain ⟨hw, hall⟩ := ih hrest
    simp only [prepareLoop, hb]
    refine ⟨hw, .cons ⟨k + 1, ?_⟩ hall⟩
    rw [DtxBuffer.prepare_history, hk, append_assoc, replicate_succ']

theorem Promised.prepare (h : Promised r₀ r) (hp : Preparable p r) :
    (r.prepare p).1 = .ok true ∧ Promised r₀ (r.prepare p).2 := by
  obtain ⟨hw, hall⟩ := prepareLoop_preparable hp h.pending
  have hmar := h.marked.prepare p
  simp only [DtxWorkRecord.prepare, h.check, hw, if_true] at hmar ⊢
  exact ⟨trivial, hmar, rfl, h.live, hall⟩

theorem Promised.commit (h : Promised r₀ r) (p : Nat → DtxBuffer.Preparation Op) :
    r.commit true p = (.error .onePhaseNotValid, r) := by
  simp [DtxWorkRecord.commit, h.check, h.prepared]

theorem Promised.add (h : Promised r₀ r) (b : DtxBuffer Op) : (r.add b).2 = r := by
  rcases add_cases r b with ⟨e, hr⟩ | ⟨_, hc, _⟩
  · rw [hr]
  · exact absurd (h.marked.prepared h.prepared) (by simp [hc])

theorem Promised.session (h : Promised r₀ r) (i : Nat) (f : DtxBuffer Op → DtxBuffer Op) :
    Branch.session r i f = none := by
  by_contra hs
  obtain ⟨r', hr'⟩ := ne_none_iff_exists'.1 hs
  have := (session_cases h.marked hr').1 (h.marked.prepared h.prepared)
  cases h.live.symm.trans this

end DtxWorkRecord

namespace DtxManager

open DtxWorkRecord DtxAction

variable {m m' : DtxManager Xid Op} {r₀ : DtxWorkRecord Op} {xid : Xid}

theorem promised_step {a : Xid × DtxAction Op} (h : ∃ r, m.work xid = some r ∧ Promised r₀ r)
    (hok : Undecided xid a ∧ Undisturbed xid m a) (hs : step m a = some m') :
    ∃ r, m'.work xid = some r ∧ Promised r₀ r := by
  obtain ⟨x, a⟩ := a
  by_cases hx : xid = x
  swap
  · rwa [step_other hx hs]
  subst hx
  obtain ⟨r, hr, h⟩ := h
  have hcre : ∀ f, (m.createWork xid f).2 = m := fun f => by simp [createWork, hr]
  cases a with
  | start | recover =>
    cases hs
    exact ⟨r, (congrArg (·.work xid) (hcre _)).trans hr, h⟩
  | join =>
    cases hs
    exact ⟨r, by simp [join, getWork, hr, h.add], h⟩
  | prepare p =>
    cases hs
    obtain ⟨hres, h'⟩ := h.prepare (hok.2 rfl r hr)
    exact ⟨_, by simp [DtxManager.prepare, getWork, hr, hres, isTimeout], h'⟩
  | commit onePhase p =>
    cases hs
    cases hok.1 rfl
    exact ⟨r, by simp [DtxManager.commit, getWork, hr, h.commit, isOver, isTimeout], h⟩
  | rollback => exact absurd rfl hok.1
  | setTimeout secs =>
    cases hs
    refine ⟨{ r with timeout := some secs }, by simp [setTimeout, getWork, hr], ?_⟩
    exact ⟨⟨h.marked.prepared, h.marked.unspoilt, h.marked.ended, h.marked.expired⟩, h.prepared,
      h.live, h.pending⟩
  | timer => exact absurd rfl hok.2
  | enlist | markEnded | fail => simp [step, session, hr, h.session] at hs

/-- A branch that was prepared is told nothing but to prepare again, unless it
is decided on, its timer fires, or a buffer cannot be prepared again. -/
theorem prepared_pending {dtxDefaultTimeout : Nat} {before after : List (Xid × DtxAction Op)}
    {p : Nat → DtxBuffer.Preparation Op}
    (hrun : Run step (fun _ _ => True) { dtxDefaultTimeout } before m)
    (hp : (m.prepare xid p).1 = .ok true)
    (hrun' : Run step (fun m a => Undecided xid a ∧ Undisturbed xid m a) (m.prepare xid p).2 after m') :
    Pending xid (m.prepare xid p).2 m' := by
  rcases getWork_cases xid (DtxWorkRecord.prepare p) isTimeout m with ⟨_, hm⟩ | ⟨r, hr, hm⟩
  · cases (congrArg Prod.fst hm).symm.trans hp
  have hres : (r.prepare p).1 = .ok true := (congrArg Prod.fst hm).symm.trans hp
  have hprep : (m.prepare xid p).2.work xid = some (r.prepare p).2 := by
    simp [DtxManager.prepare, hm, hres, isTimeout]
  obtain ⟨r', hr', h⟩ := hrun'.keep promised_step ⟨_, hprep,
    promised_of_prepare (run_marked hrun xid r hr) hres⟩
  exact ⟨_, r', hprep, hr', h.pending⟩

/-- All buffers can be prepared. -/
def able : Nat → DtxBuffer.Preparation Nat := fun _ => ⟨true, fun _ => .ok true⟩

/-- A branch is prepared twice, while another is started and times out. -/
theorem prepared_pending_twice : ∃ m m' : DtxManager Nat Nat, (Run step (fun _ _ => True) { dtxDefaultTimeout := 30 }
      [(7, .start), (7, .enlist 0 5), (7, .markEnded 0)] m ∧ (m.prepare 7 able).1 = .ok true ∧
    Run step (fun m a => Undecided 7 a ∧ Undisturbed 7 m a) (m.prepare 7 able).2
      [(8, .start), (7, .prepare able), (8, .timer), (7, .join)] m') ∧
    Pending 7 (m.prepare 7 able).2 m' := by
  refine exists_run (Q := fun m => (m.prepare 7 able).1 = .ok true ∧
    (exec step (fun m a => Undecided 7 a ∧ Undisturbed 7 m a)
      (m.prepare 7 able).2 [(8, .start), (7, .prepare able), (8, .timer), (7, .join)]).isSome)
    (by decide +kernel) fun m hm ⟨hp, hrun⟩ =>
    have ⟨m', hm'⟩ := isSome_iff_exists.1 hrun
    ⟨m', ⟨hm, hp, run_iff_exec.2 hm'⟩, prepared_pending hm hp (run_iff_exec.2 hm')⟩

/-- What the buffers of a branch were told. -/
def histories (m : DtxManager Nat Nat) (xid : Nat) : Option (List (List TxCall)) :=
  (m.work xid).map (·.work.map (·.history))

/-- The timer of a branch that is prepared fires, and its work is rolled back. -/
theorem timer_rolls_back : ∃ m m' : DtxManager Nat Nat, Run step (fun _ _ => True) { dtxDefaultTimeout := 30 }
      [(7, .start), (7, .enlist 0 5), (7, .markEnded 0)] m ∧ (m.prepare 7 able).1 = .ok true ∧
    Run step (fun _ a => Undecided 7 a) (m.prepare 7 able).2 [(7, .timer)] m' ∧
    ¬ Pending 7 (m.prepare 7 able).2 m' := by
  refine exists_run (Q := fun m => (m.prepare 7 able).1 = .ok true ∧
    (m.prepare 7 able).2.histories 7 = some [[.prepare]] ∧
    (exec step (fun _ a => Undecided 7 a) (m.prepare 7 able).2 [(7, .timer)]).map (·.histories 7) =
      some (some [[.prepare, .rollback]])) (by decide +kernel) fun m hm ⟨hp, hbef, hg⟩ =>
    have ⟨m', hm', hafter⟩ := map_eq_some_iff.1 hg
    ⟨m', hm, hp, run_iff_exec.2 hm', ?_⟩
  rintro ⟨r, r', hr, hr', hall⟩
  simp only [histories, hr, hr', map_some, Option.some.injEq, map_eq_singleton_iff] at hbef hafter
  obtain ⟨b, hb, hhist⟩ := hbef
  obtain ⟨b', hb', hhist'⟩ := hafter
  rw [hb, hb', forall₂_cons] at hall
  obtain ⟨⟨k, hk⟩, _⟩ := hall
  have hmem : TxCall.rollback ∈ b'.history := by simp [hhist']
  rw [hk, hhist] at hmem
  simp at hmem

end DtxManager

end QB.Impl
